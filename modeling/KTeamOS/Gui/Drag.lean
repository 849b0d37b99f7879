import Mathlib.Logic.Function.Basic
import KTeamOS.Gui.ImageList
import KTeamOS.Word.Signed

/-!
# Dragging windows

`move_window` moves the image that the mouse drags, unless the mouse is at an edge of the screen.
The first folder window takes its file icon along, and the icon alone is confined to the window.
Both fail: the assignments to the icon are indented under the test of the edge but not part of it,
and the right and the bottom test of the icon compare sums that wrap around once the window is off
the screen.

## Main definitions

* `Placement.moveWindow` : the function, `none` standing for an overflow of a signed position.
* `Placement.FileInside` : the rectangle of the icon is inside that of its window.
* `KeepsFile` : the condition on a call.

## Main results

* `fileInside_iff_keepsFile` : the icon stays inside along a run exactly if every call meets it.
-/

namespace KTeamOS

open Img (headImg statusBarImg timerImg folderIconImg pacmanIcon paintIcon termIconImg mouseIconImg
  windowImg1 windowImg2 fileIcon gifWindow paintWin)

/-- The position of the mouse, clamped to the screen; `y` is counted from the bottom. -/
structure Mouse where
  x : ℤ
  y : ℤ
  x_mem : 0 ≤ x ∧ x ≤ 319
  y_mem : 0 ≤ y ∧ y ≤ 199

namespace Mouse

/-- `mouse_x <= 0 || mouse_x >= 319` -/
abbrev AtEdgeX (m : Mouse) : Prop := m.x ≤ 0 ∨ m.x ≥ 319

/-- `mouse_y <= 0 || mouse_y >= 199` -/
abbrev AtEdgeY (m : Mouse) : Prop := m.y ≤ 0 ∨ m.y ≥ 199

end Mouse

/-- A movement of the mouse, clamped. -/
structure Delta where
  x : ℤ
  y : ℤ
  x_mem : -20 ≤ x ∧ x ≤ 20
  y_mem : -20 ≤ y ∧ y ≤ 20

namespace Img

/-- The field `width`, as `init_modex` sets it. -/
def width : Img → ℤ
  | headImg | statusBarImg | paintWin => 320
  | timerImg => 40
  | termIconImg | folderIconImg | pacmanIcon | paintIcon => 32
  | mouseIconImg => 8
  | windowImg1 | windowImg2 => 160
  | fileIcon => 20
  | gifWindow => 129

/-- The field `height`, as `init_modex` sets it. -/
def height : Img → ℤ
  | headImg => 200
  | statusBarImg => 18
  | timerImg => 16
  | termIconImg | folderIconImg | pacmanIcon | paintIcon => 20
  | mouseIconImg => 8
  | windowImg1 | windowImg2 => 100
  | fileIcon => 32
  | gifWindow => 170
  | paintWin => 182

end Img

/-- A rectangle of the plane. -/
structure Rect where
  left : ℤ
  top : ℤ
  right : ℤ
  bottom : ℤ

/-- `r` is inside `r'`, the edges included. -/
def Rect.Inside (r r' : Rect) : Prop :=
  (r'.left ≤ r.left ∧ r.right ≤ r'.right) ∧ (r'.top ≤ r.top ∧ r.bottom ≤ r'.bottom)

instance Rect.decidableInside (r r' : Rect) : Decidable (r.Inside r') :=
  inferInstanceAs (Decidable (_ ∧ _))

/-- The positions of the images, and the flag that `move_window` sets. -/
structure Placement where
  /-- The field `start_x`. -/
  startX : Img → ℤ
  /-- The field `start_y`. -/
  startY : Img → ℤ
  startX_mem : ∀ a, InInt32 (startX a)
  startY_mem : ∀ a, InInt32 (startY a)
  /-- `left_drag_flag` -/
  leftDragFlag : Bool

namespace Placement

/-- The positions `init_modex` writes. -/
def initModex : Placement where
  startX
    | headImg | statusBarImg | paintWin => 0
    | timerImg => 260
    | termIconImg | windowImg1 => 20
    | folderIconImg | gifWindow => 60
    | pacmanIcon => 100
    | paintIcon => 140
    | mouseIconImg => 160
    | windowImg2 => 40
    | fileIcon => 26
  startY
    | headImg | paintWin => 0
    | statusBarImg => 182
    | timerImg => 183
    | termIconImg | folderIconImg | pacmanIcon | paintIcon => 20
    | mouseIconImg => 100
    | windowImg1 | gifWindow => 40
    | windowImg2 => 60
    | fileIcon => 66
  startX_mem a := by cases a <;> decide
  startY_mem a := by cases a <;> decide
  leftDragFlag := false

/-- The rectangle of an image. -/
def rect (p : Placement) (a : Img) : Rect :=
  ⟨p.startX a, p.startY a, p.startX a + a.width, p.startY a + a.height⟩

theorem update_mem {f : Img → ℤ} (hf : ∀ a, InInt32 (f a)) {a : Img} {n : ℤ} (hn : InInt32 n) :
    ∀ b, InInt32 (Function.update f a n b) := by
  intro b
  by_cases hb : b = a
  · rw [hb, Function.update_self]
    exact hn
  · rw [Function.update_of_ne hb]
    exact hf b

/-- `a.start_x += d` -/
def shiftX (p : Placement) (a : Img) (d : ℤ) : Option Placement :=
  if h : InInt32 (p.startX a + d) then
    some { p with
      startX := Function.update p.startX a (p.startX a + d)
      startX_mem := update_mem p.startX_mem h }
  else none

/-- `a.start_y -= d` -/
def shiftY (p : Placement) (a : Img) (d : ℤ) : Option Placement :=
  if h : InInt32 (p.startY a - d) then
    some { p with
      startY := Function.update p.startY a (p.startY a - d)
      startY_mem := update_mem p.startY_mem h }
  else none

/-- `if(!(mouse_x <= 0 || mouse_x >= 319)) a.start_x += del_x;` -/
def dragX (p : Placement) (m : Mouse) (a : Img) (d : Delta) : Option Placement :=
  if ¬ m.AtEdgeX then p.shiftX a d.x else some p

/-- `if(!(mouse_y <= 0 || mouse_y >= 199)) a.start_y -= del_y;` -/
def dragY (p : Placement) (m : Mouse) (a : Img) (d : Delta) : Option Placement :=
  if ¬ m.AtEdgeY then p.shiftY a d.y else some p

/-- The cases of `move_window` that move one image. -/
def drag (p : Placement) (m : Mouse) (a : Img) (d : Delta) : Option Placement := do
  let p ← p.dragX m a d
  p.dragY m a d

/-- The case 4, where only the first assignment of each pair is under its `if`. -/
def dragFolder (p : Placement) (m : Mouse) (d : Delta) : Option Placement := do
  let p ← p.dragX m windowImg1 d
  let p ← p.shiftX fileIcon d.x
  let p ← p.dragY m windowImg1 d
  p.shiftY fileIcon d.y

/-- The horizontal half of the case 7. -/
def dragFileX (p : Placement) (m : Mouse) (d : Delta) : Option Placement :=
  if ¬ (m.x ≤ 0 ∨ m.x ≥ 319) then do
    let left ← intAdd (p.startX fileIcon) d.x
    let windowLeft ← intAdd (p.startX windowImg1) 2
    if ¬ (left ≤ windowLeft ∨ uint32 (p.startX fileIcon + fileIcon.width + d.x) ≥
        uint32 (p.startX windowImg1 + windowImg1.width - 2)) then p.shiftX fileIcon d.x
    else some p
  else some p

/-- The vertical half of the case 7, which compares `mouse_y` with 319. -/
def dragFileY (p : Placement) (m : Mouse) (d : Delta) : Option Placement :=
  if ¬ (m.y ≤ 0 ∨ m.y ≥ 319) then do
    let top ← intAdd (p.startY fileIcon) (-d.y)
    let windowTop ← intAdd (p.startY windowImg1) 10
    if ¬ (top ≤ windowTop ∨ uint32 (p.startY fileIcon + fileIcon.height - d.y) ≥
        uint32 (p.startY windowImg1 + windowImg1.height - 2)) then p.shiftY fileIcon d.y
    else some p
  else some p

/-- `if(del_x != 0 || del_y != 0) left_drag_flag = 1;` -/
def flagDrag (p : Placement) (d : Delta) : Placement :=
  if d.x ≠ 0 ∨ d.y ≠ 0 then { p with leftDragFlag := true } else p

/-- `move_window`, for the window with the given number. -/
def moveWindow (p : Placement) (m : Mouse) (id : ℤ) (d : Delta) : Option Placement :=
  if id = 0 ∨ id = 3 then some p
  else
    let p := p.flagDrag d
    match id with
    | 1 => p.drag m termIconImg d
    | 2 => p.drag m folderIconImg d
    | 4 => p.dragFolder m d
    | 5 => p.drag m windowImg2 d
    | 6 => p.drag m pacmanIcon d
    | 7 => do (← p.dragFileX m d).dragFileY m d
    | 8 => p.drag m gifWindow d
    | 9 => p.drag m paintIcon d
    | 10 => p.drag m paintWin d
    | _ => some p

end Placement

/-! ### What a call does -/

namespace Placement

variable {p p' : Placement} {m : Mouse} {a b : Img} {d : Delta} {n : ℤ}

theorem shiftX_spec (h : p.shiftX a n = some p') :
    p'.startX = Function.update p.startX a (p.startX a + n) ∧ p'.startY = p.startY := by
  unfold shiftX at h
  split_ifs at h
  cases h
  exact ⟨rfl, rfl⟩

theorem shiftY_spec (h : p.shiftY a n = some p') :
    p'.startX = p.startX ∧ p'.startY = Function.update p.startY a (p.startY a + -n) := by
  unfold shiftY at h
  split_ifs at h
  cases h
  exact ⟨rfl, by rw [← sub_eq_add_neg]⟩

@[simp] theorem flagDrag_startX : (p.flagDrag d).startX = p.startX := by
  unfold flagDrag
  split_ifs <;> rfl

@[simp] theorem flagDrag_startY : (p.flagDrag d).startY = p.startY := by
  unfold flagDrag
  split_ifs <;> rfl

/-- A shift under a test. -/
theorem shiftX_ite_spec {q : Prop} [Decidable q]
    (h : (if q then p.shiftX a n else some p) = some p') :
    p'.startX = Function.update p.startX a (p.startX a + if q then n else 0) ∧
      p'.startY = p.startY := by
  split_ifs at h ⊢
  · exact shiftX_spec h
  · cases h
    simp

theorem shiftY_ite_spec {q : Prop} [Decidable q]
    (h : (if q then p.shiftY a n else some p) = some p') :
    p'.startX = p.startX ∧
      p'.startY = Function.update p.startY a (p.startY a + if q then -n else 0) := by
  split_ifs at h ⊢
  · exact shiftY_spec h
  · cases h
    simp

theorem rect_congr (hx : p'.startX b = p.startX b) (hy : p'.startY b = p.startY b) :
    p'.rect b = p.rect b := by
  unfold rect
  rw [hx, hy]

/-- Only the image itself moves. -/
theorem drag_rect (h : p.drag m a d = some p') (hb : b ≠ a) : p'.rect b = p.rect b := by
  unfold drag at h
  simp only [Option.bind_eq_bind, Option.bind_eq_some_iff] at h
  obtain ⟨p₁, h₁, h₂⟩ := h
  obtain ⟨hx₁, hy₁⟩ := shiftX_ite_spec h₁
  obtain ⟨hx₂, hy₂⟩ := shiftY_ite_spec h₂
  refine rect_congr ?_ ?_
  · rw [hx₂, hx₁, Function.update_of_ne hb]
  · rw [hy₂, hy₁, Function.update_of_ne hb]

/-- The folder window moves unless the mouse is at an edge, its icon in any case. -/
theorem dragFolder_spec (h : p.dragFolder m d = some p') :
    (p'.startX windowImg1 = p.startX windowImg1 + (if ¬ m.AtEdgeX then d.x else 0) ∧
      p'.startX fileIcon = p.startX fileIcon + d.x) ∧
    (p'.startY windowImg1 = p.startY windowImg1 + (if ¬ m.AtEdgeY then -d.y else 0) ∧
      p'.startY fileIcon = p.startY fileIcon + -d.y) := by
  unfold dragFolder at h
  simp only [Option.bind_eq_bind, Option.bind_eq_some_iff] at h
  obtain ⟨p₁, h₁, p₂, h₂, p₃, h₃, h₄⟩ := h
  obtain ⟨hx₁, hy₁⟩ := shiftX_ite_spec h₁
  obtain ⟨hx₂, hy₂⟩ := shiftX_spec h₂
  obtain ⟨hx₃, hy₃⟩ := shiftY_ite_spec h₃
  obtain ⟨hx₄, hy₄⟩ := shiftY_spec h₄
  have hne : windowImg1 ≠ fileIcon := by decide
  have hne' : fileIcon ≠ windowImg1 := by decide
  refine ⟨⟨?_, ?_⟩, ?_, ?_⟩
  · rw [hx₄, hx₃, hx₂, Function.update_of_ne hne, hx₁, Function.update_self]
  · rw [hx₄, hx₃, hx₂, Function.update_self, hx₁, Function.update_of_ne hne']
  · rw [hy₄, Function.update_of_ne hne, hy₃, Function.update_self, hy₂, hy₁]
  · rw [hy₄, Function.update_self, hy₃, Function.update_of_ne hne', hy₂, hy₁]

/-- The icon moves sideways when both tests of its window let it. -/
theorem dragFileX_spec (h : p.dragFileX m d = some p') :
    p'.startX = Function.update p.startX fileIcon (p.startX fileIcon +
      if ¬ m.AtEdgeX ∧ p.startX windowImg1 + 2 < p.startX fileIcon + d.x ∧
        uint32 (p.startX fileIcon + 20 + d.x) < uint32 (p.startX windowImg1 + 160 - 2)
      then d.x else 0) ∧
    p'.startY = p.startY := by
  unfold dragFileX at h
  by_cases hedge : m.AtEdgeX
  · rw [if_neg (not_not.2 hedge)] at h
    cases h
    simp [hedge]
  · rw [if_pos hedge] at h
    simp only [Option.bind_eq_bind, Option.bind_eq_some_iff] at h
    obtain ⟨left, hleft, windowLeft, hwindow, h⟩ := h
    obtain rfl := intAdd_eq_some hleft
    obtain rfl := intAdd_eq_some hwindow
    have hspec := shiftX_ite_spec h
    simpa [hedge, Img.width] using hspec

/-- The icon moves up or down when both tests of its window let it. -/
theorem dragFileY_spec (h : p.dragFileY m d = some p') :
    p'.startX = p.startX ∧
    p'.startY = Function.update p.startY fileIcon (p.startY fileIcon +
      if 0 < m.y ∧ p.startY windowImg1 + 10 < p.startY fileIcon + -d.y ∧
        uint32 (p.startY fileIcon + 32 + -d.y) < uint32 (p.startY windowImg1 + 100 - 2)
      then -d.y else 0) := by
  have hm := m.y_mem
  unfold dragFileY at h
  by_cases hedge : m.y ≤ 0
  · rw [if_neg (not_not.2 (.inl hedge))] at h
    cases h
    simp [show ¬ 0 < m.y by omega]
  · rw [if_pos (show ¬ (m.y ≤ 0 ∨ m.y ≥ 319) by omega)] at h
    simp only [Option.bind_eq_bind, Option.bind_eq_some_iff] at h
    obtain ⟨top, htop, windowTop, hwindow, h⟩ := h
    obtain rfl := intAdd_eq_some htop
    obtain rfl := intAdd_eq_some hwindow
    have hspec := shiftY_ite_spec h
    simpa only [show 0 < m.y by omega, Img.height, sub_eq_add_neg _ d.y, not_or, not_le, ge_iff_le,
      true_and] using hspec

/-- A call for another image leaves the icon and its window where they are. -/
theorem moveWindow_rect {id : ℤ} (h : p.moveWindow m id d = some p') (h4 : id ≠ 4) (h7 : id ≠ 7) :
    p'.rect windowImg1 = p.rect windowImg1 ∧ p'.rect fileIcon = p.rect fileIcon := by
  have hrect : ∀ c, (p.flagDrag d).rect c = p.rect c := fun c => rect_congr (by simp) (by simp)
  unfold moveWindow at h
  split_ifs at h
  · cases h
    exact ⟨rfl, rfl⟩
  · rw [← hrect, ← hrect]
    split at h
    case h_3 | h_6 => contradiction
    case h_10 =>
      cases h
      exact ⟨rfl, rfl⟩
    all_goals exact ⟨drag_rect h (by decide), drag_rect h (by decide)⟩

end Placement

/-- A call of `move_window`, and the mouse position it reads. -/
structure DragCall where
  id : ℤ
  delta : Delta
  mouse : Mouse

/-- The placement under calls of `move_window`. -/
def dragMachine : Machine Placement DragCall where
  step p l := p.moveWindow l.mouse l.id l.delta

/-! ### The icon and its window -/

/-- The rectangle of `file_icon` is inside the rectangle of `window_img1`. -/
def Placement.FileInside (p : Placement) : Prop := (p.rect fileIcon).Inside (p.rect windowImg1)

instance (p : Placement) : Decidable p.FileInside := Rect.decidableInside ..

/-- In a direction in which the mouse is at an edge, only the icon moves: it has to stay inside
the window, which does not. -/
def KeepsFolder (p : Placement) (m : Mouse) (d : Delta) : Prop :=
  (m.AtEdgeX → p.startX windowImg1 ≤ p.startX fileIcon + d.x ∧
    p.startX fileIcon + d.x + 20 ≤ p.startX windowImg1 + 160) ∧
  (m.AtEdgeY → p.startY windowImg1 ≤ p.startY fileIcon - d.y ∧
    p.startY fileIcon - d.y + 32 ≤ p.startY windowImg1 + 100)

/-- When the bound of the right or the bottom test is negative, the icon passes the test as soon as
it would not end left of the screen or above it; then it has to stay inside the window. -/
def KeepsIcon (p : Placement) (m : Mouse) (d : Delta) : Prop :=
  (¬ m.AtEdgeX → p.startX windowImg1 + 158 < 0 → 0 ≤ p.startX fileIcon + 20 + d.x →
    p.startX fileIcon + 20 + d.x ≤ p.startX windowImg1 + 160) ∧
  (0 < m.y → p.startY windowImg1 + 98 < 0 → 0 ≤ p.startY fileIcon + 32 - d.y →
    p.startY fileIcon + 32 - d.y ≤ p.startY windowImg1 + 100)

/-- The condition on a call of `move_window`. -/
def KeepsFile (p : Placement) (l : DragCall) : Prop :=
  (l.id = 4 → KeepsFolder p l.mouse l.delta) ∧ (l.id = 7 → KeepsIcon p l.mouse l.delta)

/-- A segment of length `s` at `f` in one of length `t` at `w`, moved by `d` if the tests of the
case 7 let it: it stays inside unless the right test wraps around. -/
theorem segment_confined {w f f' d s t c : ℤ} {e : Prop} [Decidable e] (hf : InInt32 f)
    (hd : -20 ≤ d ∧ d ≤ 20) (hc : 0 ≤ c ∧ 0 ≤ s ∧ c + s + 2 ≤ t ∧ t ≤ 1000)
    (hin : w ≤ f ∧ f + s ≤ w + t)
    (hf' : f' = f + if e ∧ w + c < f + d ∧ uint32 (f + s + d) < uint32 (w + t - 2) then d else 0) :
    (w ≤ f' ∧ f' + s ≤ w + t) ↔ (e → w + (t - 2) < 0 → 0 ≤ f + s + d → f + s + d ≤ w + t) := by
  unfold InInt32 at hf
  by_cases he : e
  · by_cases hleft : w + c < f + d
    · simp only [he, hleft, true_and] at hf'
      simp only [he, forall_const]
      -- the signs of the two sums that are compared
      obtain hbound | hbound := lt_or_ge (w + t - 2) 0 <;>
        obtain hsum | hsum := lt_or_ge (f + s + d) 0
      · rw [uint32_of_neg (by omega) hbound, uint32_of_neg (by omega) hsum] at hf'
        split_ifs at hf' <;> omega
      · rw [uint32_of_neg (by omega) hbound, uint32_of_range hsum (by omega),
          if_pos (by omega)] at hf'
        omega
      · rw [uint32_of_range hbound (by omega), uint32_of_neg (by omega) hsum,
          if_neg (by omega)] at hf'
        omega
      · rw [uint32_of_range hbound (by omega), uint32_of_range hsum (by omega)] at hf'
        split_ifs at hf' <;> omega
    · -- the left test holds the segment where it was
      simp only [hleft, false_and, and_false, if_false] at hf'
      simp only [he, forall_const]
      omega
  · simp only [he, false_and, if_false] at hf'
    simp only [he, false_implies, iff_true]
    omega

/-- A segment moved by `d`, of the case 4, in one that moves along unless the test holds. -/
theorem segment_dragged {w w' f f' d s t : ℤ} {e : Prop} [Decidable e]
    (hin : w ≤ f ∧ f + s ≤ w + t) (hw' : w' = w + if ¬ e then d else 0) (hf' : f' = f + d) :
    (w' ≤ f' ∧ f' + s ≤ w' + t) ↔ (e → w ≤ f + d ∧ f + d + s ≤ w + t) := by
  by_cases he : e
  · simp [hw', hf', he]
  · simp only [he, not_false_eq_true, if_true] at hw'
    simp only [he, false_implies, iff_true]
    -- both move by `d`
    omega

section Step

variable {p p' : Placement} {m : Mouse} {d : Delta}

theorem fileInside_of_rect (hw : p'.rect windowImg1 = p.rect windowImg1)
    (hf : p'.rect fileIcon = p.rect fileIcon) : p'.FileInside ↔ p.FileInside := by
  unfold Placement.FileInside
  rw [hw, hf]

theorem dragFolder_fileInside (hin : p.FileInside) (h : p.dragFolder m d = some p') :
    p'.FileInside ↔ KeepsFolder p m d := by
  obtain ⟨⟨hwx, hfx⟩, hwy, hfy⟩ := Placement.dragFolder_spec h
  exact and_congr (segment_dragged hin.1 hwx hfx) (segment_dragged hin.2 hwy hfy)

theorem dragFile_fileInside {p₁ : Placement} (hin : p.FileInside) (hx : p.dragFileX m d = some p₁)
    (hy : p₁.dragFileY m d = some p') : p'.FileInside ↔ KeepsIcon p m d := by
  obtain ⟨hx₁, hy₁⟩ := Placement.dragFileX_spec hx
  obtain ⟨hx₂, hy₂⟩ := Placement.dragFileY_spec hy
  rw [hx₁] at hx₂
  rw [hy₁] at hy₂
  have hne : windowImg1 ≠ fileIcon := by decide
  refine and_congr ?_ ?_
  · have hseg := segment_confined (p.startX_mem fileIcon) d.x_mem
      (by decide : (0 : ℤ) ≤ 2 ∧ (0 : ℤ) ≤ 20 ∧ (2 : ℤ) + 20 + 2 ≤ 160 ∧ (160 : ℤ) ≤ 1000) hin.1 rfl
      (e := ¬ m.AtEdgeX)
    simpa [Placement.rect, Img.width, hx₂, Function.update_of_ne hne] using hseg
  · have hd : -20 ≤ -d.y ∧ -d.y ≤ 20 := by
      have := d.y_mem
      omega
    have hseg := segment_confined (p.startY_mem fileIcon) hd
      (by decide : (0 : ℤ) ≤ 10 ∧ (0 : ℤ) ≤ 32 ∧ (10 : ℤ) + 32 + 2 ≤ 100 ∧ (100 : ℤ) ≤ 1000)
      hin.2 rfl (e := 0 < m.y)
    simpa [Placement.rect, Img.height, hy₂, Function.update_of_ne hne, ← sub_eq_add_neg] using hseg

/-- One call. -/
theorem fileInside_step {l : DragCall} (hin : p.FileInside) (hst : dragMachine.step p l = some p') :
    p'.FileInside ↔ KeepsFile p l := by
  obtain ⟨id, d, m⟩ := l
  change p.moveWindow m id d = some p' at hst
  have hflag : (p.flagDrag d).FileInside :=
    (fileInside_of_rect (Placement.rect_congr (by simp) (by simp))
      (Placement.rect_congr (by simp) (by simp))).2 hin
  by_cases h4 : id = 4
  · subst h4
    have hcall : (p.flagDrag d).dragFolder m d = some p' := hst
    rw [dragFolder_fileInside hflag hcall]
    simp [KeepsFile, KeepsFolder]
  · by_cases h7 : id = 7
    · subst h7
      have hcall : ((p.flagDrag d).dragFileX m d).bind (·.dragFileY m d) = some p' := hst
      obtain ⟨p₁, hx, hy⟩ := Option.bind_eq_some_iff.1 hcall
      rw [dragFile_fileInside hflag hx hy]
      simp [KeepsFile, KeepsIcon]
    · obtain ⟨hw, hf⟩ := Placement.moveWindow_rect hst h4 h7
      rw [fileInside_of_rect hw hf]
      simp [KeepsFile, h4, h7, hin]

end Step

/-- **The file icon stays inside its window** along a run of calls exactly if every call meets the
condition. -/
theorem fileInside_iff_keepsFile (ls : List DragCall) :
    dragMachine.States Placement.FileInside .initModex ls ↔
      dragMachine.Steps KeepsFile .initModex ls :=
  Machine.states_iff_steps (I := fun _ => True) (fun _ _ _ _ hin hst => fileInside_step hin hst)
    (fun _ _ _ _ _ _ _ => trivial) trivial (by decide) ls

/-- The folder window is dragged to the left by three movements of a mouse that starts at
`mouse_x = 30`: at the third one it is at the edge. -/
def dragLeft : List DragCall :=
  [⟨4, ⟨-20, 0, by decide, by decide⟩, ⟨30, 110, by decide, by decide⟩⟩,
    ⟨4, ⟨-20, 0, by decide, by decide⟩, ⟨10, 110, by decide, by decide⟩⟩,
    ⟨4, ⟨-20, 0, by decide, by decide⟩, ⟨0, 110, by decide, by decide⟩⟩]

theorem not_fileInside :
    ¬ ∀ ls : List DragCall, dragMachine.States Placement.FileInside .initModex ls :=
  fun h => absurd (h dragLeft) (by decide)

end KTeamOS
