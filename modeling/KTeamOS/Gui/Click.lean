import KTeamOS.Gui.Drag
import KTeamOS.Gui.Order

/-!
# Clicks on the desktop

`mouse_handler` collects three bytes to a packet, lets `draw_mouse` act on the button and then
moves the pointer.  `draw_mouse` searches the image list from the front, that is from the mouse
pointer along `prev`, for an image that contains the pointer.  The left and the top edge are
compared as signed numbers, the right and the bottom one as unsigned numbers, so that an image that
has been dragged off the screen to the left or to the top seems to have no right or bottom edge.

## Main definitions

* `Gui`, `guiEvents` : the state of the desktop under the bytes of the mouse.
* `Gui.releasePick`, `Gui.clickPick` : the image that `draw_mouse` selects.
* `Gui.frontmost` : the last image drawn before the pointer that contains a point.
* `Gui.Covered` : an image whose edge wraps around is covered by an image that contains the point.

## Main results

* `selects_iff_covered` : along a run the selected image is the frontmost one exactly if the image
  list stays well formed and the images that wrap around are covered.
-/

namespace KTeamOS

open Links
open Img (headImg termIconImg pacmanIcon mouseIconImg windowImg1 fileIcon gifWindow paintWin)

/-! ### Points and rectangles -/

namespace Rect

/-- The point is strictly inside the rectangle. -/
def Contains (r : Rect) (x y : ℤ) : Prop := r.left < x ∧ x < r.right ∧ r.top < y ∧ y < r.bottom

instance (r : Rect) (x y : ℤ) : Decidable (r.Contains x y) := inferInstanceAs (Decidable (_ ∧ _))

/-- The test of `draw_mouse`, with the right and the bottom edge of type `uint32_t`. -/
def Tested (r : Rect) (x y : ℤ) : Prop :=
  r.left < x ∧ uint32 x < uint32 r.right ∧ r.top < y ∧ uint32 y < uint32 r.bottom

instance (r : Rect) (x y : ℤ) : Decidable (r.Tested x y) := inferInstanceAs (Decidable (_ ∧ _))

/-- The rectangle has a right or a bottom edge left of or above the screen, and the point is inside
without that edge. -/
def Wraps (r : Rect) (x y : ℤ) : Prop :=
  (r.right < 0 ∨ r.bottom < 0) ∧ r.left < x ∧ (r.right < 0 ∨ x < r.right) ∧ r.top < y ∧
    (r.bottom < 0 ∨ y < r.bottom)

instance (r : Rect) (x y : ℤ) : Decidable (r.Wraps x y) := inferInstanceAs (Decidable (_ ∧ _))

/-- The part of the paint window that can be painted. -/
def area (r : Rect) : Rect := ⟨r.left + 2, r.top + 10, r.right - 2, r.bottom - 2⟩

/-- The test for the close box of a window, in the same types. -/
def InCloseBox (r : Rect) (x y : ℤ) : Prop :=
  uint32 x < uint32 (r.right - 2) ∧ uint32 x > uint32 (r.right - 10) ∧ y > r.top + 2 ∧
    y < r.top + 10

instance (r : Rect) (x y : ℤ) : Decidable (r.InCloseBox x y) := inferInstanceAs (Decidable (_ ∧ _))

end Rect

namespace Mouse

/-- `199-mouse_y` -/
abbrev row (m : Mouse) : ℤ := 199 - m.y

/-- `mouse_x += mouse_x_local; mouse_y += mouse_y_local;`, clamped. -/
def move (m : Mouse) (d : Delta) : Mouse where
  x := max 0 (min 319 (m.x + d.x))
  y := max 0 (min 199 (m.y + d.y))
  x_mem := by omega
  y_mem := by omega

end Mouse

/-- A byte of type `int8_t`. -/
def int8 (b : UInt8) : ℤ := if b.toNat < 128 then b.toNat else b.toNat - 256

/-- `mouse_x_local` and `mouse_y_local`, clamped. -/
def Delta.clamp (x y : ℤ) : Delta where
  x := max (-20) (min 20 x)
  y := max (-20) (min 20 y)
  x_mem := by omega
  y_mem := by omega

/-- `a.start_x = mouse_x; a.start_y = 199-mouse_y;` -/
def Placement.setStart (p : Placement) (a : Img) (m : Mouse) : Placement :=
  { p with
    startX := Function.update p.startX a m.x
    startY := Function.update p.startY a m.row
    startX_mem := update_mem p.startX_mem (by
      have := m.x_mem
      unfold InInt32
      omega)
    startY_mem := update_mem p.startY_mem (by
      have := m.y_mem
      unfold InInt32 Mouse.row
      omega) }

/-! ### Walks along the list -/

namespace ImageList

/-- The loop `while(temp != NULL){ if(test) ..break; temp = temp->prev; }`, given up after `n`
nodes like `find`. -/
def search (g : ImageList) (test : Img → Bool) : ℕ → Option Img → Option (Option Img)
  | _, none => some none
  | 0, some _ => none
  | n + 1, some temp => if test temp then some (some temp) else g.search test n (g.prev temp)

/-- The loop that draws the images: the node with which it ends. -/
def last (g : ImageList) : ℕ → Img → Option Img
  | 0, _ => none
  | n + 1, temp =>
    match g.next temp with
    | none => some temp
    | some c => g.last n c

/-- The images drawn before the mouse pointer, in this order. -/
def drawn (g : ImageList) : ℕ → Option Img → List Img
  | 0, _ | _, none => []
  | n + 1, some temp =>
    if temp = mouseIconImg then [] else temp :: g.drawn n (g.next temp)

end ImageList

open ImageList (tailImgPtr)

/-! ### The handler -/

/-- The variables of `mouse_handler` and `draw_mouse`. -/
structure Gui where
  links : ImageList
  place : Placement
  mouse : Mouse
  /-- `left_clk_flag` -/
  leftClkFlag : Bool
  /-- `left_release_flag` -/
  leftReleaseFlag : Bool
  mouseCycle : Fin 3
  mouseByte : Fin 3 → UInt8
  /-- `isModex == 1 && isPacman != 1` -/
  shown : Bool

namespace Gui

variable (s : Gui)

/-- The test of a release. -/
def hits (m : Mouse) (a : Img) : Bool := (s.place.rect a).Tested m.x m.row

/-- The first test of a click, for the paint window. -/
def paints (m : Mouse) (a : Img) : Bool := a.id = 10 ∧ (s.place.rect a).area.Tested m.x m.row

/-- The node at which the loop of a release stops, with the mouse at `m`. -/
def releasePick (m : Mouse) : Option (Option Img) :=
  s.links.search (s.hits m) 13 (s.links.prev tailImgPtr)

/-- The node at which the loop of a click stops. -/
def clickPick (m : Mouse) : Option (Option Img) :=
  s.links.search (fun a => s.paints m a || s.hits m a) 13 (s.links.prev tailImgPtr)

/-- The operation on the image list of a release on `temp`. -/
def releaseOp (temp : Img) : Option GuiOp :=
  match temp.id with
  | 2 => some .addImg
  | 4 | 5 | 8 | 10 =>
    if (s.place.rect temp).InCloseBox s.mouse.x s.mouse.row then some (.closeWindow temp.id)
    else none
  | 7 => some .startGif
  | 9 => some .startPaint
  | _ => none

/-- The loop over the images at the end of `draw_mouse`, which also moves the pointer image. -/
def redraw : Option Gui := do
  let a ← s.links.last 13 headImg
  some { s with place := s.place.setStart a s.mouse }

/-- The branch of a release.  The terminal and the game leave the desktop, and `draw_mouse` returns
when the desktop is shown again. -/
def release : Option Gui := do
  match ← s.releasePick s.mouse with
  | none => s.redraw
  | some temp =>
    if temp.id = 1 ∨ temp.id = 6 then some { s with shown := false }
    else
      match s.releaseOp temp with
      | none => s.redraw
      | some op => do
        let g ← guiMachine.step s.links op
        redraw { s with links := g }

/-- The branch of a click.  `draw_paint` writes pixels, which this model does not have. -/
def click (d : Delta) : Option Gui := do
  match ← s.clickPick s.mouse with
  | none => s.redraw
  | some temp =>
    if s.paints s.mouse temp then s.redraw
    else do
      let g ← guiMachine.step s.links (.bringToFront temp.id)
      let p ← s.place.moveWindow s.mouse temp.id d
      redraw { s with links := g, place := p }

/-- `draw_mouse` : the release of a button comes before its press. -/
def drawMouse (d : Delta) : Option Gui :=
  if s.leftReleaseFlag then
    if s.place.leftDragFlag then redraw { s with place := { s.place with leftDragFlag := false } }
    else s.release
  else if s.leftClkFlag then s.click d
  else some { s with place := s.place.setStart tailImgPtr s.mouse }

/-- The end of a packet: `mouse_byte[0]` is the vertical movement, `mouse_byte[1]` the buttons and
`mouse_byte[2]` the horizontal movement. -/
def packet : Option Gui := do
  let down := decide ((s.mouseByte 1).toNat % 2 = 1)
  let d := Delta.clamp (int8 (s.mouseByte 2)) (int8 (s.mouseByte 0))
  let s ← drawMouse
    { s with leftReleaseFlag := !down && s.leftClkFlag, leftClkFlag := down } d
  let m := s.mouse.move d
  some { s with mouse := m, place := s.place.setStart tailImgPtr m }

/-- A byte of the mouse. -/
def mouseHandler (b : UInt8) : Option Gui :=
  let s' := { s with
    mouseByte := Function.update s.mouseByte s.mouseCycle b
    mouseCycle := s.mouseCycle + 1 }
  if s.shown ∧ s.mouseCycle = 2 then s'.packet else some s'

/-- The desktop that `init_modex` sets up, not shown yet. -/
def boot : Gui where
  links := .initModex
  place := .initModex
  mouse := ⟨160, 100, by decide, by decide⟩
  leftClkFlag := false
  leftReleaseFlag := false
  mouseCycle := 0
  mouseByte _ := 0
  shown := false

end Gui

/-- A byte of the mouse, or a change of the screen to or from the desktop. -/
inductive GuiEvent
  | byte (b : UInt8)
  | screen (shown : Bool)

/-- The desktop under the bytes of the mouse. -/
def guiEvents : Machine Gui GuiEvent where
  step s
    | .byte b => s.mouseHandler b
    | .screen shown => some { s with shown := shown }

/-! ### What should be selected -/

namespace Gui

variable (s : Gui)

/-- The point is strictly inside the image. -/
def contains (m : Mouse) (a : Img) : Bool := (s.place.rect a).Contains m.x m.row

/-- The images in the order in which they are drawn. -/
def order : List Img := s.links.drawn 13 (some headImg)

/-- The frontmost image that contains the point. -/
def frontmost (m : Mouse) : Option Img := s.order.reverse.find? (s.contains m)

/-- With the mouse at `m`, a release and a click select the frontmost image. -/
def Selects (m : Mouse) : Prop :=
  s.releasePick m = some (s.frontmost m) ∧ s.clickPick m = some (s.frontmost m)

/-- The image passes a test because an edge wraps around.  The edges of the area of the paint
window do so while the window still ends on the screen. -/
def Ghost (m : Mouse) (a : Img) : Prop :=
  (s.place.rect a).Wraps m.x m.row ∨
    (a = paintWin ∧ (s.place.rect a).area.Wraps m.x m.row ∧ ¬ (s.place.rect a).Contains m.x m.row)

/-- In front of every image that passes a test because an edge wraps around there is one that
contains the point. -/
def Covered (m : Mouse) : Prop :=
  ∀ front a rest, s.order.reverse = front ++ a :: rest → s.Ghost m a → ∃ c ∈ front, s.contains m c

end Gui

/-! ### The tests -/

section Tests

variable {r : Rect} {x y n : ℤ}

/-- A negative edge is no edge. -/
theorem uint32_lt_uint32_iff (hx : 0 ≤ x ∧ x ≤ 319) (hn : -2 ^ 31 - 2 ≤ n ∧ n < 2 ^ 32) :
    uint32 x < uint32 n ↔ n < 0 ∨ x < n := by
  rw [uint32_of_range hx.1 (by omega)]
  obtain h0 | h0 := lt_or_ge n 0
  · rw [uint32_of_neg (by omega) h0]
    simp only [h0, true_or, iff_true]
    omega
  · rw [uint32_of_range h0 hn.2]
    simp [not_lt.2 h0]

namespace Rect

theorem tested_iff (hx : 0 ≤ x ∧ x ≤ 319) (hy : 0 ≤ y ∧ y ≤ 319)
    (hr : -2 ^ 31 - 2 ≤ r.right ∧ r.right < 2 ^ 32)
    (hb : -2 ^ 31 - 2 ≤ r.bottom ∧ r.bottom < 2 ^ 32) :
    r.Tested x y ↔ r.Contains x y ∨ r.Wraps x y := by
  unfold Tested Contains Wraps
  rw [uint32_lt_uint32_iff hx hr, uint32_lt_uint32_iff hy hb]
  constructor
  · rintro ⟨hl, hr, ht, hb⟩
    by_cases hneg : r.right < 0 ∨ r.bottom < 0
    · exact .inr ⟨hneg, hl, hr, ht, hb⟩
    · rw [not_or] at hneg
      exact .inl ⟨hl, hr.resolve_left hneg.1, ht, hb.resolve_left hneg.2⟩
  · rintro (⟨hl, hr, ht, hb⟩ | ⟨-, hedges⟩)
    · exact ⟨hl, .inr hr, ht, .inr hb⟩
    · exact hedges

theorem Wraps.not_contains (h : r.Wraps x y) (hx : 0 ≤ x) (hy : 0 ≤ y) : ¬ r.Contains x y := by
  unfold Wraps at h
  unfold Contains
  omega

theorem Contains.of_area (h : r.area.Contains x y) : r.Contains x y := by
  unfold Contains area at *
  dsimp only at h
  omega

end Rect

variable {s : Gui} {m : Mouse} {a : Img}

theorem Mouse.row_mem : 0 ≤ m.row ∧ m.row ≤ 319 := by
  have := m.y_mem
  unfold Mouse.row
  omega

theorem Img.width_mem : 0 ≤ a.width ∧ a.width ≤ 320 := by cases a <;> decide

theorem Img.height_mem : 0 ≤ a.height ∧ a.height ≤ 320 := by cases a <;> decide

namespace Placement

variable {p : Placement}

theorem right_mem : -2 ^ 31 ≤ (p.rect a).right ∧ (p.rect a).right < 2 ^ 32 := by
  have hstart := p.startX_mem a
  have hwidth := a.width_mem
  unfold InInt32 at hstart
  simp only [rect]
  omega

theorem bottom_mem : -2 ^ 31 ≤ (p.rect a).bottom ∧ (p.rect a).bottom < 2 ^ 32 := by
  have hstart := p.startY_mem a
  have hheight := a.height_mem
  unfold InInt32 at hstart
  simp only [rect]
  omega

end Placement

namespace Gui

theorem hits_iff : s.hits m a ↔ s.contains m a ∨ (s.place.rect a).Wraps m.x m.row := by
  have hr := Placement.right_mem (p := s.place) (a := a)
  have hb := Placement.bottom_mem (p := s.place) (a := a)
  simp only [hits, contains, decide_eq_true_eq]
  exact Rect.tested_iff m.x_mem Mouse.row_mem (by omega) (by omega)

theorem paints_iff : s.paints m a ↔ a = paintWin ∧
    ((s.place.rect a).area.Contains m.x m.row ∨ (s.place.rect a).area.Wraps m.x m.row) := by
  have hr := Placement.right_mem (p := s.place) (a := a)
  have hb := Placement.bottom_mem (p := s.place) (a := a)
  have hid : a.id = 10 ↔ a = paintWin :=
    ⟨fun h => Img.eq_of_id (b := paintWin) h (by rw [h]; decide), fun h => by rw [h]; rfl⟩
  simp only [paints, decide_eq_true_eq, hid]
  refine and_congr_right fun _ => Rect.tested_iff m.x_mem Mouse.row_mem ?_ ?_
  · simp only [Rect.area]
    omega
  · simp only [Rect.area]
    omega

/-- An image that stops the loop of a click contains the point or has an edge that wraps around. -/
theorem clicks_iff : (s.paints m a || s.hits m a) = true ↔ s.contains m a ∨ s.Ghost m a := by
  simp only [Bool.or_eq_true, paints_iff, hits_iff, Ghost, contains, decide_eq_true_eq]
  have harea := Rect.Contains.of_area (r := s.place.rect a) (x := m.x) (y := m.row)
  tauto

theorem Ghost.not_contains (h : s.Ghost m a) : ¬ s.contains m a := by
  simp only [contains, decide_eq_true_eq]
  obtain h | ⟨-, -, h⟩ := h
  · exact h.not_contains m.x_mem.1 Mouse.row_mem.1
  · exact h

end Gui

end Tests

/-! ### Searches of a well formed list -/

/-- If `q` implies `p`, the first element with `p` is the first one with `q` exactly if every
element with `p` alone comes behind one with `q`. -/
theorem find?_eq_find?_iff {α : Type*} {p q : α → Bool} {l : List α} (hqp : ∀ a ∈ l, q a → p a) :
    l.find? p = l.find? q ↔
      ∀ front a rest, l = front ++ a :: rest → p a → ¬ q a → ∃ c ∈ front, q c := by
  induction l with
  | nil => simp
  | cons b l ih =>
    have ih := ih fun a ha => hqp a (List.mem_cons_of_mem _ ha)
    by_cases hq : q b
    · have hp := hqp b List.mem_cons_self hq
      simp only [List.find?_cons, hp, hq, true_iff]
      intro front a rest he hpa hqa
      cases front with
      | nil => exact absurd ((List.cons.inj he).1 ▸ hq) hqa
      | cons c front => exact ⟨c, List.mem_cons_self, (List.cons.inj he).1 ▸ hq⟩
    · by_cases hp : p b
      · refine iff_of_false (fun he => ?_) fun hall => ?_
        · simp only [List.find?_cons, hp, hq] at he
          exact hq (List.find?_some he.symm)
        · obtain ⟨c, hc, -⟩ := hall [] b l rfl hp hq
          cases hc
      · simp only [List.find?_cons, hp, hq, ih]
        constructor
        · intro hall front a rest he hpa hqa
          cases front with
          | nil => exact absurd ((List.cons.inj he).1 ▸ hpa) hp
          | cons c front =>
            obtain ⟨d, hd, hqd⟩ := hall front a rest (List.cons.inj he).2 hpa hqa
            exact ⟨d, List.mem_cons_of_mem _ hd, hqd⟩
        · intro hall front a rest he hpa hqa
          obtain ⟨d, hd, hqd⟩ := hall (b :: front) a rest (by rw [he]; rfl) hpa hqa
          obtain rfl | hd := List.mem_cons.1 hd
          · exact absurd hqd hq
          · exact ⟨d, hd, hqd⟩

section Searches

variable {g g' : ImageList} {b : List Img} {a : Img} {test : Img → Bool} {n : ℕ} {q : Option Img}

namespace ImageList

theorem search_eq_walk : g.search test n q = Links.walk g.prev test n q := by
  induction n generalizing q with
  | zero => cases q <;> rfl
  | succ n ih =>
    cases q with
    | none => rfl
    | some a => simp only [search, Links.walk, ih]

theorem search_spec {l : List Img} (h : IsList g.prev q l) (hl : l.length ≤ n) :
    g.search test n q = some (l.find? test) :=
  search_eq_walk.trans (h.walk hl)

theorem drawn_spec {l : List Img} (h : IsList g.next q (l ++ [mouseIconImg]))
    (hm : mouseIconImg ∉ l) (hl : l.length ≤ n) : g.drawn n q = l := by
  induction l generalizing n q with
  | nil =>
    obtain rfl : q = some mouseIconImg := h.1
    cases n <;> rfl
  | cons a l ih =>
    obtain ⟨rfl, h⟩ := h
    simp only [List.mem_cons, not_or] at hm
    cases n with
    | zero => simp at hl
    | succ n =>
      rw [drawn, if_neg (Ne.symm hm.1), ih h hm.2 (by simpa using hl)]

/-- A search that cannot leave `P` ends at an image with `P`, if it ends. -/
theorem search_of_closed {P : Img → Prop} (hP : ∀ c, P c → ∃ d, g.prev c = some d ∧ P d)
    (ha : P a) {o : Option Img} (h : g.search test n (some a) = some o) :
    ∃ c, o = some c ∧ P c := by
  induction n generalizing a with
  | zero => cases h
  | succ n ih =>
    unfold search at h
    split_ifs at h
    · exact ⟨a, (Option.some.inj h).symm, ha⟩
    · obtain ⟨d, hd, hPd⟩ := hP a ha
      rw [hd] at h
      exact ih hPd h

/-- The images drawn do not leave `P` before the pointer. -/
theorem drawn_of_closed {P : Img → Prop}
    (hP : ∀ c d, P c → g.next c = some d → P d ∨ d = mouseIconImg)
    (hq : ∀ c, q = some c → P c ∨ c = mouseIconImg) (ha : a ∈ g.drawn n q) : P a := by
  induction n generalizing q with
  | zero => simp [drawn] at ha
  | succ n ih =>
    cases q with
    | none => simp [drawn] at ha
    | some c =>
      rw [drawn] at ha
      split_ifs at ha with hc
      · simp at ha
      · have hPc := (hq c rfl).resolve_right hc
        obtain rfl | ha := List.mem_cons.1 ha
        · exact hPc
        · exact ih (hP c · hPc) ha

end ImageList

namespace Rep

variable {s : Gui} {m : Mouse} (h : Rep s.links b)
include h

theorem order : s.order = b :=
  ImageList.drawn_spec h.isList h.notMem_mouse (Img.length_le h.nodup)

theorem search (test : Img → Bool) :
    s.links.search test 13 (s.links.prev tailImgPtr) = some (b.reverse.find? test) := by
  have hprev := (dList_iff.1 h.linked).2
  rw [List.reverse_append] at hprev
  exact ImageList.search_spec hprev.2 (by simpa using Img.length_le h.nodup)

/-- On a well formed list the frontmost image is selected unless one that wraps around is not
covered. -/
theorem selects_iff : s.Selects m ↔ s.Covered m := by
  unfold Gui.Selects Gui.Covered Gui.releasePick Gui.clickPick Gui.frontmost
  rw [h.search, h.search, Option.some.injEq, Option.some.injEq, h.order,
    find?_eq_find?_iff fun a _ ha => Gui.hits_iff.2 (.inl ha),
    find?_eq_find?_iff fun a _ ha => Gui.clicks_iff.2 (.inl ha)]
  constructor
  · rintro ⟨-, hclick⟩ front a rest he hghost
    exact hclick front a rest he (Gui.clicks_iff.2 (.inr hghost)) hghost.not_contains
  · intro hall
    constructor
    · intro front a rest he hhit hnot
      exact hall front a rest he (.inl ((Gui.hits_iff.1 hhit).resolve_left hnot))
    · intro front a rest he hclick hnot
      exact hall front a rest he ((Gui.clicks_iff.1 hclick).resolve_left hnot)

end Rep

section Circle

variable {behind front : List Img} {c d : Img} (h : Rep g (behind ++ a :: front))
  (hd : (behind ++ a :: front).getLast? = some d)
include h hd

/-- `prev` leads from the window through the images in front of it and back. -/
theorem Rep.circle_prev (hc : c ∈ a :: front) :
    ∃ c', Function.update (Function.update g.prev a (some d)) mouseIconImg (some a) c = some c' ∧
      c' ∈ a :: front := by
  have hcm : c ≠ mouseIconImg := fun e => h.notMem_mouse (e ▸ List.mem_append_right _ hc)
  rw [Function.update_of_ne hcm]
  obtain rfl | hc := List.mem_cons.1 hc
  · rw [List.getLast?_append_of_ne_nil _ (by simp)] at hd
    exact ⟨d, Function.update_self .., List.mem_of_getLast? hd⟩
  · have hca : c ≠ a := fun e =>
      (List.nodup_cons.1 (List.nodup_append.1 h.nodup).2.1).1 (e ▸ hc)
    obtain ⟨t₁, t₂, rfl⟩ := List.append_of_mem hc
    have hlinked := h.linked
    rw [show behind ++ a :: (t₁ ++ c :: t₂) ++ [mouseIconImg] =
      behind ++ a :: t₁ ++ c :: (t₂ ++ [mouseIconImg]) by simp] at hlinked
    rw [Function.update_of_ne hca, hlinked.prev_mid, List.getLast?_append_of_ne_nil _ (by simp)]
    refine ⟨_, List.getLast?_eq_some_getLast (by simp), ?_⟩
    have hlast := List.getLast_mem (l := a :: t₁) (by simp)
    rw [← List.cons_append]
    exact List.mem_append_left _ hlast

/-- `next` leads from the images behind the window to the window and stops there. -/
theorem Rep.circle_next {c' : Img} (hc : c ∈ behind ++ [a])
    (hn : Function.update (Function.update g.next a (some mouseIconImg)) d (some a) c = some c') :
    c' ∈ behind ++ [a] ∨ c' = mouseIconImg := by
  by_cases hcd : c = d
  · rw [hcd, Function.update_self] at hn
    exact .inl (by simp [Option.some.inj hn])
  · rw [Function.update_of_ne hcd] at hn
    by_cases hca : c = a
    · rw [hca, Function.update_self] at hn
      exact .inr (Option.some.inj hn).symm
    · rw [Function.update_of_ne hca] at hn
      obtain ⟨t₁, t₂, rfl⟩ := List.append_of_mem ((List.mem_append.1 hc).resolve_right (by simpa))
      have hlinked := h.linked
      rw [show t₁ ++ c :: t₂ ++ a :: front ++ [mouseIconImg] =
        t₁ ++ c :: (t₂ ++ a :: front ++ [mouseIconImg]) by simp] at hlinked
      rw [hlinked.next_mid] at hn
      cases t₂ with
      | nil =>
        obtain rfl : a = c' := by simpa using hn
        exact .inl (by simp)
      | cons e t₂ =>
        obtain rfl : e = c' := by simpa using hn
        exact .inl (by simp)

end Circle

/-- Opening a window that is open already makes a circle of the images in front of it: the search
does not end, or ends in the circle, of which only the window itself is still drawn. -/
theorem Rep.circle_not_selects {s' : Gui} (h : Rep g b) (ha : a ∈ b)
    (hlink : g.linkWindow a = some g') (hs : s'.links = g') : ¬ ∀ m, s'.Selects m := by
  intro hsel
  have ham : a ≠ mouseIconImg := fun e => h.notMem_mouse (e ▸ ha)
  obtain ⟨behind, front, rfl⟩ := List.append_of_mem ha
  obtain ⟨d, hd⟩ : ∃ d, (behind ++ a :: front).getLast? = some d :=
    ⟨_, List.getLast?_eq_some_getLast (by simp)⟩
  have he := Option.some.inj (hlink.symm.trans (h.linkWindow_eq hd ham))
  rw [← hs] at he
  have hnext : s'.links.next =
      Function.update (Function.update g.next a (some mouseIconImg)) d (some a) :=
    congrArg ImageList.next he
  have hprev : s'.links.prev =
      Function.update (Function.update g.prev a (some d)) mouseIconImg (some a) :=
    congrArg ImageList.prev he
  have hhead : headImg ∈ behind ++ [a] := by
    have hfirst := h.first
    cases behind with
    | nil => simpa using hfirst.symm
    | cons c behind => simpa using .inl (by simpa using hfirst.symm)
  have hcontains : ∀ m : Mouse, (s'.place.rect a).Contains m.x m.row := by
    intro m
    have hpick := (hsel m).1
    rw [Gui.releasePick, hprev, tailImgPtr, Function.update_self] at hpick
    obtain ⟨c, hc, hfront⟩ := ImageList.search_of_closed
      (fun c hc => by rw [hprev]; exact h.circle_prev hd hc) List.mem_cons_self hpick
    have hbehind : c ∈ behind ++ [a] := by
      refine ImageList.drawn_of_closed (fun c c' hc hn => ?_) (fun c hc => ?_)
        (List.mem_reverse.1 (List.mem_of_find?_eq_some hc))
      · exact h.circle_next hd hc (by rwa [hnext] at hn)
      · exact .inl (Option.some.inj hc ▸ hhead)
    -- the search stays in the circle, and only the window itself is drawn
    obtain rfl : c = a := by
      by_contra hca
      have hc₁ : c ∈ behind := by simpa [hca] using hbehind
      exact (List.nodup_append.1 h.nodup).2.2 c hc₁ c hfront rfl
    have hin : s'.contains m c := List.find?_some hc
    exact of_decide_eq_true hin
  -- no image is as wide as the screen and its edges
  have hleft := hcontains ⟨0, 0, by decide, by decide⟩
  have hright := hcontains ⟨319, 0, by decide, by decide⟩
  have hwidth := a.width_mem
  simp only [Rect.Contains, Placement.rect] at hleft hright
  omega

end Searches

/-! ### Runs -/

namespace Gui

variable {s s' : Gui} {d : Delta} {a : Img}

/-- What an event does to the image list. -/
def LinksStep (g g' : ImageList) : Prop := g' = g ∨ ∃ op, guiMachine.step g op = some g'

theorem redraw_links (h : s.redraw = some s') : s'.links = s.links := by
  unfold redraw at h
  simp only [Option.bind_eq_bind, Option.bind_eq_some_iff] at h
  obtain ⟨a, -, h⟩ := h
  cases h
  rfl

theorem release_links (h : s.release = some s') : LinksStep s.links s'.links := by
  unfold release at h
  simp only [Option.bind_eq_bind, Option.bind_eq_some_iff] at h
  obtain ⟨o, -, h⟩ := h
  cases o with
  | none => exact .inl (redraw_links h)
  | some temp =>
    dsimp only at h
    split_ifs at h
    · cases h
      exact .inl rfl
    · cases hop : s.releaseOp temp with
      | none =>
        rw [hop] at h
        exact .inl (redraw_links h)
      | some op =>
        rw [hop] at h
        obtain ⟨g, hg, h⟩ := Option.bind_eq_some_iff.1 h
        have hlinks := redraw_links h
        exact .inr ⟨op, by rw [hg, hlinks]⟩

theorem click_links (h : s.click d = some s') : LinksStep s.links s'.links := by
  unfold click at h
  simp only [Option.bind_eq_bind, Option.bind_eq_some_iff] at h
  obtain ⟨o, -, h⟩ := h
  cases o with
  | none => exact .inl (redraw_links h)
  | some temp =>
    dsimp only at h
    split_ifs at h
    · exact .inl (redraw_links h)
    · obtain ⟨g, hg, h⟩ := Option.bind_eq_some_iff.1 h
      obtain ⟨p, -, h⟩ := Option.bind_eq_some_iff.1 h
      have hlinks := redraw_links h
      exact .inr ⟨_, by rw [hg, hlinks]⟩

theorem drawMouse_links (h : s.drawMouse d = some s') : LinksStep s.links s'.links := by
  unfold drawMouse at h
  split_ifs at h
  · have hlinks := redraw_links h
    exact .inl hlinks
  · exact release_links h
  · exact click_links h
  · cases h
    exact .inl rfl

theorem packet_links (h : s.packet = some s') : LinksStep s.links s'.links := by
  unfold packet at h
  simp only [Option.bind_eq_bind, Option.bind_eq_some_iff] at h
  obtain ⟨s₁, hdraw, h⟩ := h
  cases h
  have hlinks := drawMouse_links hdraw
  exact hlinks

theorem step_links {l : GuiEvent} (h : guiEvents.step s l = some s') :
    LinksStep s.links s'.links := by
  cases l with
  | screen shown =>
    cases h
    exact .inl rfl
  | byte b =>
    change s.mouseHandler b = some s' at h
    unfold mouseHandler at h
    dsimp only at h
    split_ifs at h
    · have hlinks := packet_links h
      exact hlinks
    · cases h
      exact .inl rfl

end Gui

/-- **The image that a click or a release selects is the frontmost one that contains the mouse**,
for all positions of the mouse and in all states of a run, exactly if in all states the image list
is well formed and the images that wrap around are covered. -/
theorem selects_iff_covered (ls : List GuiEvent) :
    guiEvents.States (fun s => ∀ m, s.Selects m) .boot ls ↔
      guiEvents.States (fun s => WellFormed s.links ∧ ∀ m, s.Covered m) .boot ls := by
  refine Machine.states_iff_states (I := fun s => ∃ b, Rep s.links b ∧ Order.FileShown b) ?_ ?_
    ⟨_, rep_initModex, by decide⟩ ls
  · rintro s ⟨b, h, -⟩
    simp only [h.selects_iff, h.wellFormed, true_and]
  · rintro s l s' ⟨b, h, hf⟩ hst
    obtain hlinks | ⟨op, hop⟩ := Gui.step_links hst
    · exact .inl ⟨b, hlinks ▸ h, hf⟩
    · obtain ⟨hiff, hrep⟩ := h.step_iff hf hop
      by_cases hwf : WellFormed s'.links
      · exact .inl ⟨_, hrep hwf, hf.apply h.nodup op⟩
      · -- the two operations that link a window without testing whether it is linked already
        refine .inr ⟨?_, fun hboth => hwf hboth.1⟩
        have hopen : ∀ a, a ≠ headImg → a ≠ mouseIconImg → ¬ s.links.prev a = none → a ∈ b :=
          fun a hh hm hp => by
            by_contra hb
            exact hp ((h.prev_eq_none_iff hh hm).2 hb)
        have hguard : ¬ Guarded s.links op := fun hg => hwf (hiff.2 hg)
        cases op with
        | startGif => exact h.circle_not_selects (hopen _ (by decide) (by decide) hguard) hop rfl
        | startPaint => exact h.circle_not_selects (hopen _ (by decide) (by decide) hguard) hop rfl
        | addImg | bringToFront | closeWindow => exact absurd trivial hguard

/-- The three bytes of a movement with the button up or down. -/
def packetBytes (down : Bool) (y : UInt8) : List GuiEvent :=
  [.byte y, .byte (if down then 1 else 0), .byte 0]

/-- The mouse goes up to the paint icon and drags it to the top of the screen, goes down by 3 with
the button up, and drags the icon up once more, which takes it off the screen. -/
def dragOff : List GuiEvent :=
  .screen true :: ([(false, 20), (false, 20), (false, 20), (false, 9), (true, 20), (true, 15),
    (false, 253), (true, 20)].flatMap fun p => packetBytes p.1 p.2)

/-- Then a click below the icon selects it, although it is the background that is there. -/
theorem not_selects : ¬ ∀ ls, guiEvents.States (fun s => ∀ m, s.Selects m) .boot ls := by
  intro h
  obtain ⟨s, hs⟩ : ∃ s, guiEvents.exec .boot dragOff = some s :=
    Option.isSome_iff_exists.1 (by decide +kernel)
  have hclick := ((h dragOff).exec hs ⟨150, 99, by decide, by decide⟩).2
  have hpick : (guiEvents.exec .boot dragOff).map (fun s =>
      decide (s.clickPick ⟨150, 99, by decide, by decide⟩ =
        some (s.frontmost ⟨150, 99, by decide, by decide⟩))) = some false := by decide +kernel
  rw [hs] at hpick
  exact of_decide_eq_false (Option.some.inj hpick) hclick

end KTeamOS
