import Mathlib.Logic.Function.Basic
import KTeamOS.Terminal.Video

/-!
# What text output touches

The cells that `ter_write` and `ter_write_pit` read and write, and what they leave alone.  While
these cells are cells of the page and the cursor is on it, an output changes nothing but its page
and its cursor, and the cursor stays on the page.

## Main definitions

* `OnPage`, `spot` : a cursor on the page, and the number of its cell.
* `terWriteUses`, `terWritePitUses` : the addresses that the cell accesses of an output use.
* `MemOnly v`, `Confined v t` : the only changes are in the page at `v`, and in the cursor of `t`.
-/

namespace KTeamOS

namespace Screen

/-- The cursor of `t` is on the text page. -/
def OnPage (s : Screen) (t : ℕ) : Prop := s.screenX t < numCols ∧ s.screenY t < numRows

instance (s : Screen) (t : ℕ) : Decidable (s.OnPage t) := inferInstanceAs (Decidable (_ ∧ _))

/-- The number of the cell at the cursor of `t`. -/
def spot (s : Screen) (t : ℕ) : ℕ := numCols * s.screenY t + s.screenX t

/-- The number of cells on a page. -/
abbrev numCells : ℕ := numCols * numRows

/-- The number of cells for which a frame has room. -/
abbrev frameCells : ℕ := 4096 / 2

/-- The address is in one of the first `m` cells of the page at `v`. -/
def InCells (m v a : ℕ) : Prop := v ≤ a ∧ a < v + 2 * m

instance (m v a : ℕ) : Decidable (InCells m v a) := inferInstanceAs (Decidable (_ ∧ _))

/-- What one turn of the loops `closeGap` and `openGap` uses. -/
def moveUses (dest src : ℕ) : List ℕ := [dest, src]

/-- The bytes that `n` moves to the left touch, from `pos` on. -/
def closeGapUses (pos : ℕ) : ℕ → List ℕ
  | 0 => []
  | n + 1 => closeGapUses pos n ++ moveUses (sub32 (add32 pos (2 * n)) 2) (add32 pos (2 * n))

/-- The bytes that `n` moves to the right touch. -/
def openGapUses (pos : ℕ) : ℕ → List ℕ
  | 0 => []
  | n + 1 => moveUses (add32 pos (2 * (n + 1))) (add32 pos (2 * n)) ++ openGapUses pos n

/-- The addresses at which `terWrite` reads and writes cells, other than those of `scrollUp`. -/
def terWriteUses (s : Screen) (termLive : ℕ) (c : UInt8) (idx idxEnd : ℕ) : List ℕ :=
  let pos := s.cell termLive videoMem
  let n := sub32 idxEnd idx
  if c = 10 ∨ c = 13 then []
  else if c = 8 then
    closeGapUses pos n ++ moveUses (sub32 (add32 pos (2 * n)) 2) (add32 pos (2 * n))
  else (if n < 2 ^ 31 then openGapUses pos n else []) ++ [pos, add32 pos 1]

/-- The same for `terWritePit`. -/
def terWritePitUses (s : Screen) (termPit : ℕ) (c : UInt8) : List ℕ :=
  let vidMem := pageOf termPit
  if c = 10 ∨ c = 13 then []
  else if c = 8 then
    let s := if s.screenX termPit ≠ 0 then s.setX termPit (sub32 (s.screenX termPit) 1) else s
    [s.cell termPit vidMem, s.cell termPit vidMem + 1]
  else [s.cell termPit vidMem, s.cell termPit vidMem + 1]

/-- The text page of a terminal, or the one that the live terminal uses. -/
structure IsPage (v : ℕ) : Prop where
  aligned : v % 4096 = 0
  low : v + 4096 ≤ 0x400000

theorem isPage_videoMem : IsPage videoMem := ⟨rfl, by decide⟩

theorem isPage_pageOf {t : ℕ} (ht : t < 3) : IsPage (pageOf t) :=
  ⟨Nat.mul_mod_left _ _, by unfold pageOf; omega⟩

/-- The address is not in the frame that is mapped at the page `v`. -/
def Outside (s : Screen) (v a : ℕ) : Prop := a < s.phys v ∨ s.phys v + 4096 ≤ a

/-- Nothing but the memory of the page `v` changes. -/
structure MemOnly (v : ℕ) (s s' : Screen) : Prop where
  frame : s'.frame = s.frame
  screenX : s'.screenX = s.screenX
  screenY : s'.screenY = s.screenY
  mem : ∀ a, s.Outside v a → s'.mem a = s.mem a

/-- Nothing but the memory of the page `v` and the cursor of `t` changes. -/
structure Confined (v t : ℕ) (s s' : Screen) : Prop where
  frame : s'.frame = s.frame
  screenX : ∀ u ≠ t, s'.screenX u = s.screenX u
  screenY : ∀ u ≠ t, s'.screenY u = s.screenY u
  mem : ∀ a, s.Outside v a → s'.mem a = s.mem a

variable {s s' s'' : Screen} {m v t a n pos dest src : ℕ} {c : UInt8}

theorem phys_congr (h : s'.frame = s.frame) : s'.phys = s.phys := by
  unfold phys
  rw [h]

/-- A page is mapped as a whole. -/
theorem phys_add (s : Screen) (hv : IsPage v) {k : ℕ} (hk : k < 4096) :
    s.phys ((v + k) % 2 ^ 32) = s.phys v + k := by
  have hal := hv.aligned
  have hlow := hv.low
  rw [Nat.mod_eq_of_lt (by omega), phys, phys, if_pos (by omega), if_pos (by omega),
    show (v + k) / 4096 = v / 4096 by omega]
  omega

namespace MemOnly

theorem refl (s : Screen) : MemOnly v s s := ⟨rfl, rfl, rfl, fun _ _ => rfl⟩

theorem trans (h : MemOnly v s s') (h' : MemOnly v s' s'') : MemOnly v s s'' where
  frame := h'.frame.trans h.frame
  screenX := h'.screenX.trans h.screenX
  screenY := h'.screenY.trans h.screenY
  mem a ha := (h'.mem a (by unfold Outside; rwa [phys_congr h.frame])).trans (h.mem a ha)

/-- A byte of the page. -/
theorem write (hv : IsPage v) (ha : v ≤ a) (ha' : a < v + 4096) : MemOnly v s (s.write a c) := by
  refine ⟨rfl, rfl, rfl, fun b hb => Function.update_of_ne ?_ _ _⟩
  have hphys := s.phys_add hv (k := a - v) (by omega)
  rw [Nat.add_sub_cancel' ha] at hphys
  rintro rfl
  rw [hphys] at hb
  rcases hb with hb | hb <;> omega

theorem memcpy (hv : IsPage v) (hd : v ≤ dest) (hd' : dest + n ≤ v + 4096) :
    MemOnly v s (s.memcpy dest src n) := by
  induction n with
  | zero => exact refl s
  | succ n ih => exact (ih (by omega)).trans (write hv (by omega) (by omega))

theorem scroll (hv : IsPage v) : MemOnly v s (s.scroll v) := by
  have hrows : ∀ n, n ≤ numRows - 1 → MemOnly v s (s.scrollRows v n) := by
    intro n hn
    induction n with
    | zero => exact refl s
    | succ n ih =>
      refine (ih (by omega)).trans (memcpy hv (by omega) ?_)
      simp only [sizeOfRow, numRows] at *
      omega
  have hblank : ∀ (s' : Screen) n, n ≤ numCols → MemOnly v s' (s'.scrollBlank v n) := by
    intro s' n hn
    induction n with
    | zero => exact refl s'
    | succ n ih =>
      refine (ih (by omega)).trans (write hv (by omega) ?_)
      simp only [numCols, numRows] at *
      omega
  exact (hrows _ (Nat.le_refl _)).trans (hblank _ _ (Nat.le_refl _))

theorem closeGap (hv : IsPage v) (hm : m ≤ frameCells)
    (h : ∀ a ∈ closeGapUses pos n, InCells m v a) :
    MemOnly v s (s.closeGap pos n) := by
  induction n with
  | zero => exact refl s
  | succ n ih =>
    rw [closeGapUses] at h
    obtain ⟨hle, hlt⟩ := h _ (List.mem_append_right _ (List.mem_cons_self ..))
    refine (ih fun a ha => h a (List.mem_append_left _ ha)).trans (memcpy hv hle ?_)
    simp only [frameCells] at hm
    omega

theorem openGap (hv : IsPage v) (hm : m ≤ frameCells)
    (h : ∀ a ∈ openGapUses pos n, InCells m v a) :
    MemOnly v s (s.openGap pos n) := by
  induction n generalizing s with
  | zero => exact refl s
  | succ n ih =>
    rw [openGapUses] at h
    obtain ⟨hle, hlt⟩ := h _ (List.mem_append_left _ (List.mem_cons_self ..))
    refine (memcpy hv hle ?_).trans (ih fun a ha => h a (List.mem_append_right _ ha))
    simp only [frameCells] at hm
    omega

theorem confined (h : MemOnly v s s') : Confined v t s s' :=
  ⟨h.frame, fun _ _ => by rw [h.screenX], fun _ _ => by rw [h.screenY], h.mem⟩

end MemOnly

namespace Confined

theorem refl (s : Screen) : Confined v t s s :=
  ⟨rfl, fun _ _ => rfl, fun _ _ => rfl, fun _ _ => rfl⟩

theorem trans (h : Confined v t s s') (h' : Confined v t s' s'') : Confined v t s s'' where
  frame := h'.frame.trans h.frame
  screenX u hu := (h'.screenX u hu).trans (h.screenX u hu)
  screenY u hu := (h'.screenY u hu).trans (h.screenY u hu)
  mem a ha := (h'.mem a (by unfold Outside; rwa [phys_congr h.frame])).trans (h.mem a ha)

theorem setX {x : ℕ} : Confined v t s (s.setX t x) :=
  ⟨rfl, fun _ hu => Function.update_of_ne hu _ _, fun _ _ => rfl, fun _ _ => rfl⟩

theorem setY {y : ℕ} : Confined v t s (s.setY t y) :=
  ⟨rfl, fun _ _ => rfl, fun _ hu => Function.update_of_ne hu _ _, fun _ _ => rfl⟩

theorem cursor {x y : ℕ} : Confined v t s (s.cursor t x y) :=
  ⟨rfl, fun _ hu => Function.update_of_ne hu _ _, fun _ hu => Function.update_of_ne hu _ _,
    fun _ _ => rfl⟩

variable {scroll : Screen → Screen} (hscroll : ∀ s, MemOnly v s (scroll s))
include hscroll

theorem wrap : Confined v t s (s.wrap t scroll) := by
  unfold Screen.wrap
  split_ifs
  · exact (hscroll s).confined.trans (setY.trans setX)
  · exact refl s

theorem newRow : Confined v t s (s.newRow t scroll) := (setY.trans setX).trans (wrap hscroll)

theorem advance : Confined v t s (s.advance t scroll) := by
  have hx : Confined v t s (s.setX t (add32 (s.screenX t) 1)) := setX
  refine (hx.trans ?_).trans (wrap hscroll)
  split_ifs
  · exact setY.trans setX
  · exact refl _

end Confined

/-! ### The branches of `ter_write` -/

/-- `ATTRIB = 0x0F;` -/
def lit (s : Screen) : Screen := { s with attrib := 0x0F }

/-- `cursor(term[term_live].screen_x,term[term_live].screen_y);` -/
def sync (s : Screen) (t : ℕ) : Screen := s.cursor t (s.screenX t) (s.screenY t)

/-- The cursor one cell to the left. -/
def stepBack (s : Screen) (t : ℕ) : Screen :=
  if s.screenX t ≠ 0 then s.setX t (sub32 (s.screenX t) 1)
  else (s.setX t (numCols - 1)).setY t (sub32 (s.screenY t) 1)

/-- The `n` cells from `pos` on move one place to the left, and so does the one behind them. -/
def pullLeft (s : Screen) (pos n : ℕ) : Screen :=
  (s.closeGap pos n).memcpy (sub32 (add32 pos (2 * n)) 2) (add32 pos (2 * n)) 1

/-- The character and its attribute. -/
def put (s : Screen) (pos : ℕ) (c : UInt8) : Screen := (s.write pos c).write (add32 pos 1) s.attrib

/-- The `n` cells from `pos` on move one place to the right and make room for a character. -/
def pushRight (s : Screen) (pos n : ℕ) (c : UInt8) : Screen :=
  (if n < 2 ^ 31 then s.openGap pos n else s).put pos c

section Branches

variable {i e : ℕ}

theorem terWrite_newline (hc : c = 10 ∨ c = 13) :
    s.terWrite t c i e = (s.lit.newRow t scrollUp).sync t := by
  unfold terWrite
  simp only [if_pos hc]
  rfl

theorem terWrite_backspace : s.terWrite t 8 i e =
    ((s.lit.stepBack t).pullLeft (s.cell t videoMem) (sub32 e i)).sync t := by
  unfold terWrite
  simp only [if_neg (show ¬ ((8 : UInt8) = 10 ∨ (8 : UInt8) = 13) by decide)]
  rfl

theorem terWrite_plain (hc : c ≠ 8) (hc' : ¬ (c = 10 ∨ c = 13)) : s.terWrite t c i e =
    ((s.lit.pushRight (s.cell t videoMem) (sub32 e i) c).advance t scrollUp).sync t := by
  unfold terWrite
  simp only [if_neg hc, if_neg hc']
  rfl

end Branches

/-! ### Outputs are confined -/

theorem MemOnly.pullLeft (hv : IsPage v) (hm : m ≤ frameCells) (h : ∀ a ∈ closeGapUses pos n ++
      moveUses (sub32 (add32 pos (2 * n)) 2) (add32 pos (2 * n)), InCells m v a) :
    MemOnly v s (s.pullLeft pos n) :=
  closeGap (n := n + 1) hv hm h

theorem MemOnly.put (hv : IsPage v) (hm : m ≤ frameCells) (h : InCells m v pos)
    (h' : InCells m v (add32 pos 1)) : MemOnly v s (s.put pos c) := by
  simp only [InCells, frameCells] at h h' hm
  exact (write hv h.1 (by omega)).trans (write hv h'.1 (by omega))

theorem MemOnly.pushRight (hv : IsPage v) (hm : m ≤ frameCells)
    (h : ∀ a ∈ (if n < 2 ^ 31 then openGapUses pos n else []) ++ [pos, add32 pos 1],
      InCells m v a) : MemOnly v s (s.pushRight pos n c) := by
  have hput : MemOnly v (if n < 2 ^ 31 then s.openGap pos n else s) (s.pushRight pos n c) :=
    put hv hm (h _ (List.mem_append_right _ (List.mem_cons_self ..)))
      (h _ (List.mem_append_right _ (List.mem_cons_of_mem _ (List.mem_cons_self ..))))
  refine MemOnly.trans ?_ hput
  split_ifs at h ⊢
  · exact openGap hv hm fun a ha => h a (List.mem_append_left _ ha)
  · exact refl s

theorem Confined.stepBack : Confined v t s (s.stepBack t) := by
  unfold Screen.stepBack
  split_ifs
  · exact setX
  · exact setX.trans setY

/-- An echo of which every cell access is in the text page changes nothing else. -/
theorem terWrite_confined {i e : ℕ} (hm : m ≤ frameCells)
    (h : ∀ a ∈ s.terWriteUses t c i e, InCells m videoMem a) :
    Confined videoMem t s (s.terWrite t c i e) := by
  have hv := isPage_videoMem
  have hlit : Confined videoMem t s s.lit := ⟨rfl, fun _ _ => rfl, fun _ _ => rfl, fun _ _ => rfl⟩
  have hscroll : ∀ s, MemOnly videoMem s (scrollUp s) := fun _ => MemOnly.scroll hv
  unfold terWriteUses at h
  by_cases hnl : c = 10 ∨ c = 13
  · rw [terWrite_newline hnl]
    exact (hlit.trans (Confined.newRow hscroll)).trans Confined.cursor
  · by_cases hbs : c = 8
    · subst hbs
      simp only [if_neg hnl, if_true] at h
      rw [terWrite_backspace]
      exact ((hlit.trans Confined.stepBack).trans (MemOnly.pullLeft hv hm h).confined).trans
        Confined.cursor
    · simp only [if_neg hnl, if_neg hbs] at h
      rw [terWrite_plain hbs hnl]
      exact ((hlit.trans (MemOnly.pushRight hv hm h).confined).trans
        (Confined.advance hscroll)).trans Confined.cursor

/-- The same for an output of the process of `t`. -/
theorem terWritePit_confined {termLive : ℕ} (ht : t < 3)
    (h : ∀ a ∈ s.terWritePitUses t c, InCells numCells (pageOf t) a) :
    Confined (pageOf t) t s (s.terWritePit termLive t c) := by
  have hv := isPage_pageOf ht
  have hscroll : ∀ s : Screen, MemOnly (pageOf t) s (s.scrollUpPit t) := fun _ => MemOnly.scroll hv
  have hsync : ∀ s₁ s₂ : Screen, Confined (pageOf t) t s₁ s₂ → Confined (pageOf t) t s₁
      (if termLive = t then s₂.cursor termLive (s₂.screenX t) (s₂.screenY t) else s₂) := by
    intro s₁ s₂ h₁₂
    split_ifs with hlive
    · rw [hlive]
      exact h₁₂.trans Confined.cursor
    · exact h₁₂
  have hlit : Confined (pageOf t) t s { s with attrib := 0x02 } :=
    ⟨rfl, fun _ _ => rfl, fun _ _ => rfl, fun _ _ => rfl⟩
  have hwrite : ∀ (s₁ s₂ : Screen) {a : ℕ} {c : UInt8}, Confined (pageOf t) t s₁ s₂ →
      InCells numCells (pageOf t) a → Confined (pageOf t) t s₁ (s₂.write a c) := by
    intro s₁ s₂ a c h₁₂ ha
    simp only [InCells, numCells, numCols, numRows] at ha
    exact h₁₂.trans (MemOnly.write hv ha.1 (by omega)).confined
  unfold terWritePitUses at h
  unfold terWritePit
  by_cases hnl : c = 10 ∨ c = 13
  · simp only [if_pos hnl]
    exact hsync _ _ (hlit.trans (Confined.newRow hscroll))
  · by_cases hbs : c = 8
    · simp only [if_neg hnl, if_pos hbs] at h ⊢
      by_cases hx : s.screenX t ≠ 0
      · simp only [if_pos hx] at h ⊢
        refine hsync _ _ (hwrite _ _ (hwrite _ _ (hlit.trans Confined.setX) ?_) ?_)
        · exact h _ (List.mem_cons_self ..)
        · exact h _ (List.mem_cons_of_mem _ (List.mem_cons_self ..))
      -- at the left edge the cursor stays, and the cell is cleared all the same
      · simp only [if_neg hx] at h ⊢
        refine hsync _ _ (hwrite _ _ (hwrite _ _ hlit ?_) ?_)
        · exact h _ (List.mem_cons_self ..)
        · exact h _ (List.mem_cons_of_mem _ (List.mem_cons_self ..))
    · simp only [if_neg hnl, if_neg hbs] at h ⊢
      refine hsync _ _ (Confined.trans (hwrite _ _ (hwrite _ _ hlit ?_) ?_)
        (Confined.advance hscroll))
      · exact h _ (List.mem_cons_self ..)
      · exact h _ (List.mem_cons_of_mem _ (List.mem_cons_self ..))

/-! ### Outputs at a cursor on the page -/

theorem cell_eq (h : s.OnPage t) (hv : v + 4096 ≤ 0x400000) : s.cell t v = v + 2 * s.spot t := by
  obtain ⟨hx, hy⟩ := h
  unfold cell spot
  simp only [numCols, numRows] at *
  rw [add32_of_lt (by omega)]
  omega

theorem inCells_cell (hn : n < m) : InCells m v (v + 2 * n) ∧ InCells m v (v + 2 * n + 1) := by
  unfold InCells
  omega

theorem add32_cell (hv : v + 4096 ≤ 0x400000) {k : ℕ} (h : n + k ≤ frameCells) :
    add32 (v + 2 * n) (2 * k) = v + 2 * (n + k) := by
  simp only [frameCells] at h
  rw [add32_of_lt (by omega)]
  omega

theorem sub32_cell (hv : v + 4096 ≤ 0x400000) (h : n ≤ frameCells) (h0 : 0 < n) :
    sub32 (v + 2 * n) 2 = v + 2 * (n - 1) := by
  simp only [frameCells] at h
  rw [sub32_of_le (by omega) (by omega)]
  omega

theorem spot_lt (h : s.OnPage t) : s.spot t < numCells := by
  obtain ⟨hx, hy⟩ := h
  unfold spot
  simp only [numCells, numCols, numRows] at *
  omega

theorem mem_closeGapUses : a ∈ closeGapUses pos n ↔
    ∃ i < n, a = sub32 (add32 pos (2 * i)) 2 ∨ a = add32 pos (2 * i) := by
  induction n with
  | zero => simp [closeGapUses]
  | succ n ih =>
    simp only [closeGapUses, moveUses, List.mem_append, ih, List.mem_cons, List.not_mem_nil,
      or_false]
    constructor
    · rintro (⟨i, hi, ha⟩ | ha)
      · exact ⟨i, by omega, ha⟩
      · exact ⟨n, by omega, ha⟩
    · rintro ⟨i, hi, ha⟩
      by_cases hin : i = n
      · exact .inr (hin ▸ ha)
      · exact .inl ⟨i, by omega, ha⟩

theorem mem_openGapUses : a ∈ openGapUses pos n ↔
    ∃ i < n, a = add32 pos (2 * (i + 1)) ∨ a = add32 pos (2 * i) := by
  induction n with
  | zero => simp [openGapUses]
  | succ n ih =>
    simp only [openGapUses, moveUses, List.mem_append, ih, List.mem_cons, List.not_mem_nil,
      or_false]
    constructor
    · rintro (ha | ⟨i, hi, ha⟩)
      · exact ⟨n, by omega, ha⟩
      · exact ⟨i, by omega, ha⟩
    · rintro ⟨i, hi, ha⟩
      by_cases hin : i = n
      · exact .inl (hin ▸ ha)
      · exact .inr ⟨i, by omega, ha⟩

section Uses

variable (hv : v + 4096 ≤ 0x400000) (hm : m ≤ frameCells)
include hv hm

/-- The cells that a closed gap uses, from the one in front of the cell `pos`. -/
theorem closeGapUses_inCells (h0 : 0 < pos) (hn : pos + n ≤ m) :
    ∀ a ∈ closeGapUses (v + 2 * pos) n, InCells m v a := by
  intro a ha
  obtain ⟨i, hi, ha⟩ := mem_closeGapUses.1 ha
  rw [add32_cell hv (by omega)] at ha
  rcases ha with ha | ha
  · rw [ha, sub32_cell hv (by omega) (by omega)]
    exact (inCells_cell (by omega)).1
  · rw [ha]
    exact (inCells_cell (by omega)).1

/-- The cells that an opened gap uses. -/
theorem openGapUses_inCells (hn : pos + n < m) :
    ∀ a ∈ openGapUses (v + 2 * pos) n, InCells m v a := by
  intro a ha
  obtain ⟨i, hi, ha⟩ := mem_openGapUses.1 ha
  rw [add32_cell hv (by omega), add32_cell hv (by omega)] at ha
  rcases ha with ha | ha
  · rw [ha]
    exact (inCells_cell (by omega)).1
  · rw [ha]
    exact (inCells_cell (by omega)).1

end Uses

/-- The tail of the line, with `n` characters from the cursor of `t` on, ends in front of the last
of `m` cells, and a backspace finds a cell in front of the cursor. -/
def Fits (m : ℕ) (s : Screen) (t : ℕ) (c : UInt8) (n : ℕ) : Prop :=
  c = 10 ∨ c = 13 ∨ (s.spot t + n < m ∧ (c = 8 → 0 < s.spot t))

instance : Decidable (Fits m s t c n) := inferInstanceAs (Decidable (_ ∨ _ ∨ _))

/-- The cell accesses of an echo that fits are in these cells. -/
theorem inCells_of_fits {i e : ℕ} (hpage : s.OnPage t) (hm : m ≤ frameCells)
    (hfits : Fits m s t c (sub32 e i)) : ∀ a ∈ s.terWriteUses t c i e, InCells m videoMem a := by
  have hcell : s.cell t videoMem = videoMem + 2 * s.spot t := cell_eq hpage (by decide)
  have hv : videoMem + 4096 ≤ 0x400000 := by decide
  intro a ha
  unfold terWriteUses at ha
  generalize sub32 e i = n at hfits ha
  rw [hcell] at ha
  by_cases hnl : c = 10 ∨ c = 13
  · simp only [if_pos hnl] at ha
    cases ha
  · obtain ⟨hlt, h8⟩ : s.spot t + n < m ∧ (c = 8 → 0 < s.spot t) := by
      unfold Fits at hfits
      tauto
    have hspot : s.spot t < m := Nat.lt_of_le_of_lt (Nat.le_add_right _ n) hlt
    by_cases hbs : c = 8
    · simp only [if_neg hnl, if_pos hbs] at ha
      exact closeGapUses_inCells (n := n + 1) hv hm (h8 hbs) hlt a ha
    · simp only [if_neg hnl, if_neg hbs, List.mem_append, List.mem_cons, List.not_mem_nil,
        or_false] at ha
      rcases ha with ha | ha | ha
      · split_ifs at ha
        · exact openGapUses_inCells hv hm hlt a ha
        · cases ha
      · rw [ha]
        exact (inCells_cell hspot).1
      · rw [ha, add32_of_lt (by simp only [frameCells, videoMem] at *; omega)]
        exact (inCells_cell hspot).2

/-- Those of an output of a process are, wherever on the page its cursor is. -/
theorem pit_inCells (hpage : s.OnPage t) (ht : t < 3) :
    ∀ a ∈ s.terWritePitUses t c, InCells numCells (pageOf t) a := by
  have hcell : ∀ s' : Screen, s'.OnPage t →
      InCells numCells (pageOf t) (s'.cell t (pageOf t)) ∧
        InCells numCells (pageOf t) (s'.cell t (pageOf t) + 1) := by
    intro s' h'
    rw [cell_eq h' (isPage_pageOf ht).low]
    exact inCells_cell (spot_lt h')
  intro a ha
  unfold terWritePitUses at ha
  by_cases hnl : c = 10 ∨ c = 13
  · simp only [if_pos hnl] at ha
    cases ha
  · simp only [if_neg hnl] at ha
    by_cases hbs : c = 8
    · simp only [if_pos hbs, List.mem_cons, List.not_mem_nil, or_false] at ha
      have hpage' : (if s.screenX t ≠ 0 then s.setX t (sub32 (s.screenX t) 1) else s).OnPage t := by
        split_ifs with hx
        · refine ⟨?_, hpage.2⟩
          have hlt := hpage.1
          simp only [setX, Function.update_self, numCols] at *
          rw [sub32_of_le (by omega) (by omega)]
          omega
        · exact hpage
      rcases ha with rfl | rfl
      · exact (hcell _ hpage').1
      · exact (hcell _ hpage').2
    · simp only [if_neg hbs, List.mem_cons, List.not_mem_nil, or_false] at ha
      rcases ha with rfl | rfl
      · exact (hcell s hpage).1
      · exact (hcell s hpage).2

/-! ### The cursor after an output -/

@[simp] theorem setX_screenX {x : ℕ} : (s.setX t x).screenX t = x := Function.update_self ..
@[simp] theorem setX_screenY {x : ℕ} : (s.setX t x).screenY = s.screenY := rfl
@[simp] theorem setY_screenY {y : ℕ} : (s.setY t y).screenY t = y := Function.update_self ..
@[simp] theorem setY_screenX {y : ℕ} : (s.setY t y).screenX = s.screenX := rfl

theorem MemOnly.onPage (h : MemOnly v s s') (hpage : s.OnPage t) : s'.OnPage t := by
  unfold OnPage
  rwa [h.screenX, h.screenY]

/-- The cursors of the other terminals stay where they are. -/
theorem Confined.onPage (h : Confined v t s s') (hpage : ∀ u, s.OnPage u) (ht : s'.OnPage t)
    (u : ℕ) : s'.OnPage u := by
  by_cases hu : u = t
  · rwa [hu]
  · unfold OnPage
    rw [h.screenX u hu, h.screenY u hu]
    exact hpage u

theorem MemOnly.spot (h : MemOnly v s s') : s'.spot t = s.spot t := by
  unfold Screen.spot
  rw [h.screenX, h.screenY]

theorem sync_onPage (hpage : s.OnPage t) : (s.sync t).OnPage t := by
  unfold OnPage at hpage ⊢
  simpa [sync, cursor] using hpage

theorem sync_spot : (s.sync t).spot t = s.spot t := by
  simp [spot, sync, cursor]

theorem onPage_iff : s.OnPage t ↔ s.screenX t < 80 ∧ s.screenY t < 25 := Iff.rfl

theorem spot_eq : s.spot t = 80 * s.screenY t + s.screenX t := rfl

/-- Only the cursor of `t` has moved, to the cell `p` of the page. -/
structure MovedTo (t p : ℕ) (s s' : Screen) : Prop where
  mem : s'.mem = s.mem
  frame : s'.frame = s.frame
  page : s'.OnPage t
  spot : s'.spot t = p

theorem stepBack_moved (hpage : s.OnPage t) (h0 : 0 < s.spot t) :
    MovedTo t (s.spot t - 1) s (s.stepBack t) := by
  obtain ⟨hx, hy⟩ := onPage_iff.1 hpage
  rw [spot_eq] at h0 ⊢
  unfold stepBack
  by_cases hx0 : s.screenX t = 0
  · have hsub : sub32 (s.screenY t) 1 = s.screenY t - 1 := sub32_of_le (by omega) (by omega)
    rw [if_neg (not_not.2 hx0), hsub]
    refine ⟨rfl, rfl, onPage_iff.2 ⟨?_, ?_⟩, spot_eq.trans ?_⟩
    · rw [setY_screenX, setX_screenX]
      decide
    · rw [setY_screenY]
      omega
    · rw [setY_screenX, setX_screenX, setY_screenY, hx0]
      simp only [numCols]
      omega
  · have hsub : sub32 (s.screenX t) 1 = s.screenX t - 1 := sub32_of_le (by omega) (by omega)
    rw [if_pos hx0, hsub]
    refine ⟨rfl, rfl, onPage_iff.2 ⟨?_, hy⟩, spot_eq.trans ?_⟩
    · rw [setX_screenX]
      omega
    · rw [setX_screenX, setX_screenY]
      omega

/-- The cursor one cell to the right, in front of the last cell of the page. -/
theorem stepOn_moved (hpage : s.OnPage t) (hlt : s.spot t + 1 < numCells) :
    MovedTo t (s.spot t + 1) s
      (if s.screenX t + 1 = numCols then (s.setX t 0).setY t (s.screenY t + 1)
        else s.setX t (s.screenX t + 1)) := by
  obtain ⟨hx, hy⟩ := onPage_iff.1 hpage
  rw [spot_eq] at hlt ⊢
  simp only [numCells, numCols, numRows] at hlt ⊢
  split_ifs with hlast
  · refine ⟨rfl, rfl, onPage_iff.2 ⟨?_, ?_⟩, spot_eq.trans ?_⟩
    · rw [setY_screenX, setX_screenX]
      decide
    · rw [setY_screenY]
      omega
    · rw [setY_screenX, setX_screenX, setY_screenY]
      omega
  · refine ⟨rfl, rfl, onPage_iff.2 ⟨?_, hy⟩, spot_eq.trans ?_⟩
    · rw [setX_screenX]
      omega
    · rw [setX_screenX, setX_screenY]
      omega

/-- In front of the last cell the cursor moves on without a scroll. -/
theorem advance_moved (scroll : Screen → Screen) (hpage : s.OnPage t)
    (hlt : s.spot t + 1 < numCells) :
    MovedTo t (s.spot t + 1) s (s.advance t scroll) := by
  have hmoved := stepOn_moved hpage hlt
  obtain ⟨hx, hy⟩ := onPage_iff.1 hpage
  have hadv : s.advance t scroll =
      if s.screenX t + 1 = numCols then (s.setX t 0).setY t (s.screenY t + 1)
      else s.setX t (s.screenX t + 1) := by
    have hadd : add32 (s.screenX t) 1 = s.screenX t + 1 := add32_of_lt (by omega)
    have hadd' : add32 (s.screenY t) 1 = s.screenY t + 1 := add32_of_lt (by omega)
    rw [spot_eq] at hlt
    simp only [numCells, numCols, numRows] at hlt
    unfold advance
    simp only [hadd, setX_screenX, setX_screenY, hadd']
    by_cases hlast : s.screenX t + 1 = numCols
    · have hswap : ((s.setX t (s.screenX t + 1)).setY t (s.screenY t + 1)).setX t 0 =
          (s.setX t 0).setY t (s.screenY t + 1) := by
        simp [setX, setY]
      rw [if_pos hlast, if_pos hlast, hswap, wrap, if_neg]
      rw [setY_screenY]
      simp only [numCols, numRows] at *
      omega
    · rw [if_neg hlast, if_neg hlast, wrap, if_neg]
      rw [setX_screenY]
      simp only [numRows]
      omega
  rw [hadv]
  exact hmoved

section Scroll

variable {scroll : Screen → Screen} (hscroll : ∀ s, MemOnly v s (scroll s))
include hscroll

/-- One row too low, `wrap` brings the cursor back to the page. -/
theorem wrap_onPage (hx : s.screenX t < numCols) (hy : s.screenY t ≤ numRows) :
    (s.wrap t scroll).OnPage t := by
  unfold wrap
  by_cases hlast : s.screenY t = numRows
  · have hsub : sub32 ((scroll s).screenY t) 1 = numRows - 1 := by
      rw [(hscroll s).screenY, hlast]
      rfl
    rw [if_pos hlast]
    refine ⟨by simp, ?_⟩
    simp [hsub]
  · rw [if_neg hlast]
    exact ⟨hx, by omega⟩

theorem newRow_onPage (hpage : s.OnPage t) : (s.newRow t scroll).OnPage t := by
  obtain ⟨hx, hy⟩ := onPage_iff.1 hpage
  refine wrap_onPage hscroll ?_ ?_
  · rw [setX_screenX]
    decide
  · rw [setX_screenY, setY_screenY, add32_of_lt (by omega)]
    exact hy

theorem advance_onPage (hpage : s.OnPage t) : (s.advance t scroll).OnPage t := by
  obtain ⟨hx, hy⟩ := onPage_iff.1 hpage
  have hadd : add32 (s.screenX t) 1 = s.screenX t + 1 := add32_of_lt (by omega)
  have hadd' : add32 (s.screenY t) 1 = s.screenY t + 1 := add32_of_lt (by omega)
  by_cases hlast : s.screenX t + 1 = numCols
  · refine wrap_onPage hscroll ?_ ?_
    · simp only [hadd, setX_screenX, if_pos hlast]
      decide
    · simp only [hadd, setX_screenX, setX_screenY, hadd', if_pos hlast, setY_screenY]
      exact hy
  · refine wrap_onPage hscroll ?_ ?_
    · simp only [hadd, setX_screenX, if_neg hlast]
      simp only [numCols] at *
      omega
    · simp only [hadd, setX_screenX, if_neg hlast, setX_screenY]
      exact Nat.le_of_lt hy

end Scroll

/-- An echo that fits leaves the cursor on the page. -/
theorem terWrite_onPage {i e : ℕ} (hpage : s.OnPage t) (hm : m ≤ frameCells)
    (hfits : Fits m s t c (sub32 e i)) : (s.terWrite t c i e).OnPage t := by
  have hv := isPage_videoMem
  have huses := inCells_of_fits hpage hm hfits
  have hscroll : ∀ s, MemOnly videoMem s (scrollUp s) := fun _ => MemOnly.scroll hv
  unfold terWriteUses at huses
  by_cases hnl : c = 10 ∨ c = 13
  · rw [terWrite_newline hnl]
    exact sync_onPage (newRow_onPage hscroll hpage)
  · by_cases hbs : c = 8
    · subst hbs
      simp only [if_neg hnl, if_true] at huses
      have hpos : 0 < s.spot t := by
        rcases hfits with h | h | ⟨-, h⟩
        · cases h
        · cases h
        · exact h rfl
      rw [terWrite_backspace]
      have hback : (s.lit.stepBack t).OnPage t := (stepBack_moved (s := s.lit) hpage hpos).page
      exact sync_onPage ((MemOnly.pullLeft hv hm huses).onPage hback)
    · simp only [if_neg hnl, if_neg hbs] at huses
      rw [terWrite_plain hbs hnl]
      have hpush := MemOnly.pushRight (s := s.lit) (c := c) hv hm huses
      exact sync_onPage (advance_onPage hscroll (hpush.onPage hpage))

/-- The cursor of a process never leaves the page. -/
theorem terWritePit_onPage {termLive : ℕ} (hpage : s.OnPage t) (ht : t < 3) :
    (s.terWritePit termLive t c).OnPage t := by
  have hv := isPage_pageOf ht
  have hscroll : ∀ s : Screen, MemOnly (pageOf t) s (s.scrollUpPit t) := fun _ => MemOnly.scroll hv
  have hsync : ∀ s' : Screen, s'.OnPage t →
      (if termLive = t then s'.cursor termLive (s'.screenX t) (s'.screenY t) else s').OnPage t := by
    intro s' h'
    split_ifs with hlive
    · rw [hlive]
      exact sync_onPage h'
    · exact h'
  have hback : s.screenX t ≠ 0 → (s.setX t (sub32 (s.screenX t) 1)).OnPage t := by
    intro hx
    obtain ⟨hlt, hy⟩ := hpage
    simp only [numCols] at hlt
    refine ⟨?_, hy⟩
    rw [setX_screenX, sub32_of_le (by omega) (by omega)]
    simp only [numCols]
    omega
  unfold terWritePit
  by_cases hnl : c = 10 ∨ c = 13
  · simp only [if_pos hnl]
    exact hsync _ (newRow_onPage hscroll hpage)
  · by_cases hbs : c = 8
    · by_cases hx : s.screenX t ≠ 0
      · simp only [if_neg hnl, if_pos hbs, if_pos hx]
        exact hsync _ (hback hx)
      · simp only [if_neg hnl, if_pos hbs, if_neg hx]
        exact hsync _ hpage
    · simp only [if_neg hnl, if_neg hbs]
      exact hsync _ (advance_onPage hscroll hpage)

end Screen

end KTeamOS
