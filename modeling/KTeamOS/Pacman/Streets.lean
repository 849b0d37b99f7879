import KTeamOS.Pacman.Game
import Mathlib.Algebra.Order.Ring.Int

/-!
# Staying on the streets

Pacman and the ghost are over passage cells, and all indices are in the matrices, as long as a step
leads into a passage wherever `canMove` did not look at the cell that the step enters.  `canMove`
looks from the position of a mover, not from the next one, where the step begins.

## Main definitions

* `Mover.Clear` : the step after the next one leads into a passage.
* `Mover.Unseen` : `canMove` does not look at the cell that the step enters.
* `Mover.Sees`, `Mover.Follows` : the conditions on the steps of pacman and of the ghost.
* `Roams` : the invariant of a mover.

## Main results

* `Roams.allowed` : where `canMove` looks, it looks far enough.
* `game_streets` : the game under these conditions.
-/

namespace KTeamOS

/-! ### Cells -/

/-- The cell is in the matrix and a passage. -/
def PassageCell (r c : ℤ) : Prop := 0 ≤ r ∧ 0 ≤ c ∧ Passage r.toNat c.toNat

instance (r c : ℤ) : Decidable (PassageCell r c) := inferInstanceAs (Decidable (_ ∧ _))

/-- The pixel is over a passage cell. -/
def OnPassage (x y : ℤ) : Prop := PassageCell (cellOf x y).1 (cellOf x y).2

instance (x y : ℤ) : Decidable (OnPassage x y) := inferInstanceAs (Decidable (PassageCell _ _))

/-- The pixel is over a passage cell between the walls. -/
def OnStreet (x y : ℤ) : Prop := 0 ≤ x ∧ 0 ≤ y ∧ Street (y / 8).toNat (x / 8).toNat

variable {x y : ℤ}

theorem cellOf_eq (hx : 0 ≤ x) (hy : 0 ≤ y) : cellOf x y = (y / 8, x / 8) := by
  rw [cellOf, Int.tdiv_eq_ediv_of_nonneg hx, Int.tdiv_eq_ediv_of_nonneg hy]

theorem onPassage_iff (hx : 0 ≤ x) (hy : 0 ≤ y) : OnPassage x y ↔ PassageCell (y / 8) (x / 8) := by
  rw [OnPassage, cellOf_eq hx hy]

theorem OnStreet.cell (h : OnStreet x y) : PassageCell (y / 8) (x / 8) := by
  obtain ⟨hx, hy, hs⟩ := h
  exact ⟨by omega, by omega, hs.1⟩

theorem OnStreet.onPassage (h : OnStreet x y) : OnPassage x y :=
  (onPassage_iff h.1 h.2.1).2 h.cell

theorem OnStreet.bounds (h : OnStreet x y) : 8 ≤ x ∧ x < 216 ∧ 0 ≤ y ∧ y < 200 := by
  obtain ⟨hx, hy, hs⟩ := h
  have hc := street_column hs
  have hr := hs.1.1
  omega

theorem PassageCell.inside {r c : ℤ} (h : PassageCell r c) : Inside r c := by
  obtain ⟨hr, hc, hp⟩ := h
  have h1 := hp.1
  have h2 := hp.2.1
  exact ⟨hr, by omega, hc, by omega⟩

theorem mazeRead_passage {beyond : Beyond} {r c : ℤ} (hin : Inside r c)
    (h : mazeRead beyond r c = 0 ∨ mazeRead beyond r c = 7) : PassageCell r c := by
  rw [mazeRead, if_pos hin] at h
  obtain ⟨h1, h2, h3, h4⟩ := hin
  exact ⟨h1, h3, by omega, by omega, h⟩

/-! ### Steps from cell to cell -/

/-- A step of a mover. -/
def IsStep (v : ℤ × ℤ) : Prop := v = (0, 0) ∨ ∃ dir : Arrow, v = (dir.dx, dir.dy)

/-- The streets are closed under the steps to passages. -/
theorem OnStreet.move {v : ℤ × ℤ} (h : OnStreet x y) (hv : IsStep v) (hy : 0 ≤ y + v.2)
    (hp : OnPassage (x + v.1) (y + v.2)) : OnStreet (x + v.1) (y + v.2) := by
  obtain ⟨hx8, -⟩ := h.bounds
  obtain ⟨hx0, hy0, hs⟩ := h
  obtain rfl | ⟨dir, rfl⟩ := hv
  · simpa [OnStreet] using ⟨hx0, hy0, hs⟩
  have hx' : 0 ≤ x + dir.dx := by cases dir <;> simp only [Arrow.dx] <;> omega
  refine ⟨hx', hy, ?_⟩
  obtain ⟨-, -, hp⟩ := (onPassage_iff hx' hy).1 hp
  -- either the cell stays the same, or the step enters the next one
  cases dir with
  | up =>
    simp only [Arrow.dx, Arrow.dy, add_zero] at hp hy ⊢
    obtain heq | heq : ((y + -2) / 8).toNat = (y / 8).toNat ∨
        (y / 8).toNat = ((y + -2) / 8).toNat + 1 := by omega
    · rwa [heq]
    · exact street_up (heq ▸ hs) hp
  | down =>
    simp only [Arrow.dx, Arrow.dy, add_zero] at hp ⊢
    obtain heq | heq : ((y + 2) / 8).toNat = (y / 8).toNat ∨
        ((y + 2) / 8).toNat = (y / 8).toNat + 1 := by omega
    · rwa [heq]
    · rw [heq] at hp ⊢
      exact street_down hs hp
  | right =>
    simp only [Arrow.dx, Arrow.dy, add_zero] at hp ⊢
    obtain heq | heq : ((x + 2) / 8).toNat = (x / 8).toNat ∨
        ((x + 2) / 8).toNat = (x / 8).toNat + 1 := by omega
    · rwa [heq]
    · rw [heq] at hp ⊢
      exact street_right hs hp
  | left =>
    simp only [Arrow.dx, Arrow.dy, add_zero] at hp ⊢
    obtain heq | heq : ((x + -2) / 8).toNat = (x / 8).toNat ∨
        (x / 8).toNat = ((x + -2) / 8).toNat + 1 := by omega
    · rwa [heq]
    · exact street_left (heq ▸ hs) hp

/-! ### Movers -/

namespace Mover

/-- The next position and the step `v` after it lead into a passage. -/
def Clear (m : Mover) (v : ℤ × ℤ) : Prop :=
  OnPassage (m.x + m.stepX + v.1) (m.y + m.stepY + v.2)

instance (m : Mover) (v : ℤ × ℤ) : Decidable (m.Clear v) :=
  inferInstanceAs (Decidable (OnPassage _ _))

/-- The mover moves across the direction. -/
def Crosses (m : Mover) : Arrow → Prop
  | .up | .down => m.stepX ≠ 0
  | .left | .right => m.stepY ≠ 0

instance (m : Mover) : (dir : Arrow) → Decidable (m.Crosses dir)
  | .up | .down | .left | .right => inferInstanceAs (Decidable (¬ _))

/-- The step in this direction enters a cell at which `canMove` has not looked: it turns at the next
position, or it starts from a standstill and the look of 10 pixels can be two cells ahead. -/
def Unseen (m : Mover) (dir : Arrow) : Prop :=
  m.Crosses dir ∨ m.stepX = 0 ∧ m.stepY = 0 ∧ (dir = .down ∨ dir = .right)

instance (m : Mover) (dir : Arrow) : Decidable (m.Unseen dir) :=
  inferInstanceAs (Decidable (_ ∨ _))

/-- The next position is where a mover that moves across the direction can turn. -/
def Aligned (m : Mover) : Arrow → Prop
  | .up | .down => (m.x + m.stepX).tmod 8 = 0
  | .left | .right => (m.y + m.stepY).tmod 8 = 0

instance (m : Mover) : (dir : Arrow) → Decidable (m.Aligned dir)
  | .up | .down | .left | .right => inferInstanceAs (Decidable (_ = _))

end Mover

/-- The invariant of a mover. -/
structure Roams (m : Mover) : Prop where
  evenX : m.x % 2 = 0
  evenY : m.y % 2 = 0
  here : OnStreet m.x m.y
  next : OnStreet (m.x + m.stepX) (m.y + m.stepY)
  isStep : IsStep (m.stepX, m.stepY)
  right : m.x ≤ 208
  nextRight : m.x + m.stepX ≤ 208

/-- The steps that keep the invariant. -/
structure Allowed (m : Mover) (v : ℤ × ℤ) : Prop where
  isStep : IsStep v
  clear : m.Clear v
  top : 0 ≤ m.y + m.stepY + v.2
  right : m.x + m.stepX + v.1 ≤ 208

theorem IsStep.even {v : ℤ × ℤ} (hv : IsStep v) : v.1 % 2 = 0 ∧ v.2 % 2 = 0 := by
  obtain rfl | ⟨dir, rfl⟩ := hv
  · exact ⟨rfl, rfl⟩
  · cases dir <;> exact ⟨rfl, rfl⟩

/-- Of the two parts of a step one is 0 and the other one is 0, 2 or -2. -/
theorem IsStep.cases {a b : ℤ} (hv : IsStep (a, b)) :
    (a = 0 ∧ (b = 0 ∨ b = 2 ∨ b = -2)) ∨ (b = 0 ∧ (a = 2 ∨ a = -2)) := by
  obtain h | ⟨dir, h⟩ := hv
  · obtain ⟨rfl, rfl⟩ := Prod.mk.inj h
    exact .inl ⟨rfl, .inl rfl⟩
  · obtain ⟨rfl, rfl⟩ := Prod.mk.inj h
    cases dir <;> simp [Arrow.dx, Arrow.dy]

/-! ### Looking ahead -/

theorem Roams.ahead_inside {m : Mover} (h : Roams m) (dir : Arrow) :
    ∀ cell ∈ ahead m.x m.y dir, Inside cell.1 cell.2 := by
  intro cell hcell
  have hb := h.here.bounds
  have hr := h.right
  have hX : dir.aheadX ≤ 10 := by cases dir <;> decide
  simp only [ahead] at hcell
  split_ifs at hcell with hx hy
  · cases hcell
  · cases hcell
  rw [Option.mem_some_iff] at hcell
  rw [← hcell, cellOf_eq (by omega) (by omega)]
  exact ⟨by omega, by omega, by omega, by omega⟩

/-- What `canMove` finds. -/
theorem Roams.canGo {beyond : Beyond} {m : Mover} (h : Roams m) {dir : Arrow}
    (hgo : m.canGo beyond dir = true) :
    0 ≤ m.x + dir.aheadX ∧ 0 ≤ m.y + dir.aheadY ∧
      PassageCell ((m.y + dir.aheadY) / 8) ((m.x + dir.aheadX) / 8) := by
  have hin := h.ahead_inside dir
  rw [Mover.canGo, canMove] at hgo
  simp only [ahead] at hgo hin
  split_ifs at hgo hin with hx hy
  have hx0 : 0 ≤ m.x + dir.aheadX := by omega
  have hy0 : 0 ≤ m.y + dir.aheadY := by omega
  rw [cellOf_eq hx0 hy0] at hgo hin
  exact ⟨hx0, hy0, mazeRead_passage (hin _ rfl) (of_decide_eq_true hgo)⟩

theorem Roams.canGo_right {beyond : Beyond} {m : Mover} (h : Roams m)
    (hgo : m.canGo beyond .right = true) : m.x ≤ 204 := by
  by_contra hx
  obtain ⟨-, -, -, -, hp⟩ := h.canGo hgo
  have he := h.evenX
  have hr := h.right
  simp only [Arrow.aheadX, Arrow.aheadY, add_zero] at hp
  rw [show ((m.x + 10) / 8).toNat = 27 by omega] at hp
  have := street_lastColumn h.here.2.2 hp
  omega

section
variable {P : ℤ → Prop} {p s : ℤ}

/-- A look of 4 pixels back is enough for two steps. -/
theorem between_back (hp : p % 2 = 0) (hs : s = 0 ∨ s = 2 ∨ s = -2) (here : P (p / 8))
    (hlook : P ((p + -4) / 8)) : P ((p + s + -2) / 8) := by
  obtain heq | heq : (p + s + -2) / 8 = p / 8 ∨ (p + s + -2) / 8 = (p + -4) / 8 := by omega
  · rwa [heq]
  · rwa [heq]

/-- A look of 10 pixels ahead can miss the next cell, but not on the way into it. -/
theorem between_ahead (hp : p % 2 = 0) (hs : s = 2 ∨ s = -2) (here : P (p / 8))
    (hnext : P ((p + s) / 8)) (hlook : P ((p + 10) / 8)) : P ((p + s + 2) / 8) := by
  obtain heq | heq | heq : (p + s + 2) / 8 = p / 8 ∨ (p + s + 2) / 8 = (p + s) / 8 ∨
      (p + s + 2) / 8 = (p + 10) / 8 := by omega
  · rwa [heq]
  · rwa [heq]
  · rwa [heq]

end

/-- Where `canMove` looks, it looks far enough. -/
theorem Roams.clear_of_seen {beyond : Beyond} {m : Mover} (h : Roams m) {dir : Arrow}
    (hgo : m.canGo beyond dir = true) (hseen : ¬ m.Unseen dir) : m.Clear (dir.dx, dir.dy) := by
  obtain ⟨hx, hy, hlook⟩ := h.canGo hgo
  have hb := h.here.bounds
  have hb' := h.next.bounds
  have hstep := h.isStep.cases
  rw [Mover.Unseen, not_or] at hseen
  obtain ⟨hcross, hstart⟩ := hseen
  have here := h.here.cell
  have hnext := h.next.cell
  rw [Mover.Clear]
  cases dir with
  | up =>
    have hX : m.stepX = 0 := not_not.1 hcross
    simp only [Arrow.dx, Arrow.dy, Arrow.aheadX, Arrow.aheadY, hX, add_zero] at *
    rw [onPassage_iff (by omega) (by omega)]
    exact between_back (P := fun r => PassageCell r (m.x / 8)) h.evenY (by omega) here hlook
  | down =>
    have hX : m.stepX = 0 := not_not.1 hcross
    have hY : m.stepY ≠ 0 := fun hY => hstart ⟨hX, hY, .inl rfl⟩
    simp only [Arrow.dx, Arrow.dy, Arrow.aheadX, Arrow.aheadY, hX, add_zero] at *
    rw [onPassage_iff (by omega) (by omega)]
    exact between_ahead (P := fun r => PassageCell r (m.x / 8)) h.evenY (by omega) here hnext hlook
  | right =>
    have hY : m.stepY = 0 := not_not.1 hcross
    have hX : m.stepX ≠ 0 := fun hX => hstart ⟨hX, hY, .inr rfl⟩
    simp only [Arrow.dx, Arrow.dy, Arrow.aheadX, Arrow.aheadY, hY, add_zero] at *
    rw [onPassage_iff (by omega) (by omega)]
    exact between_ahead (P := fun c => PassageCell (m.y / 8) c) h.evenX (by omega) here hnext hlook
  | left =>
    have hY : m.stepY = 0 := not_not.1 hcross
    simp only [Arrow.dx, Arrow.dy, Arrow.aheadX, Arrow.aheadY, hY, add_zero] at *
    rw [onPassage_iff (by omega) (by omega)]
    exact between_back (P := fun c => PassageCell (m.y / 8) c) h.evenX (by omega) here hlook

/-! ### Allowed steps -/

/-- A step that `canMove` lets through. -/
theorem Roams.allowed {beyond : Beyond} {m : Mover} (h : Roams m) {dir : Arrow}
    (hgo : m.canGo beyond dir = true) (hunseen : m.Unseen dir → m.Clear (dir.dx, dir.dy)) :
    Allowed m (dir.dx, dir.dy) where
  isStep := .inr ⟨dir, rfl⟩
  clear := by
    by_cases hu : m.Unseen dir
    · exact hunseen hu
    · exact h.clear_of_seen hgo hu
  top := by
    have hy := (h.canGo hgo).2.1
    have hb := h.next.bounds
    have hstep := h.isStep.cases
    cases dir <;> simp only [Arrow.dy, Arrow.aheadY] at * <;> omega
  right := by
    have hr := h.nextRight
    have hstep := h.isStep.cases
    cases dir with
    | right =>
      have hx := h.canGo_right hgo
      simp only [Arrow.dx]
      omega
    | _ => simp only [Arrow.dx]; omega

theorem Roams.stay {m : Mover} (h : Roams m) : Allowed m (0, 0) where
  isStep := .inl rfl
  clear := by simpa [Mover.Clear] using h.next.onPassage
  top := by have := h.next.bounds; simp only; omega
  right := by have := h.nextRight; simp only; omega

/-- A mover that moves on when `canMove` lets it. -/
theorem Roams.goOn {beyond : Beyond} {m : Mover} (h : Roams m) {dir : Arrow}
    (hgo : m.canGo beyond dir = true) (hX : m.stepX = dir.dx) (hY : m.stepY = dir.dy) :
    Allowed m (dir.dx, dir.dy) := by
  refine h.allowed hgo fun hu => absurd hu ?_
  cases dir <;> simp [Mover.Unseen, Mover.Crosses, hX, hY, Arrow.dx, Arrow.dy]

/-- The next position with an allowed step. -/
theorem Roams.advance {m : Mover} (h : Roams m) {v : ℤ × ℤ} (hv : Allowed m v)
    (direction : Arrow) :
    Roams ⟨m.x + m.stepX, m.y + m.stepY, v.1, v.2, direction⟩ where
  evenX := by have := h.isStep.even.1; have := h.evenX; simp only at *; omega
  evenY := by have := h.isStep.even.2; have := h.evenY; simp only at *; omega
  here := h.next
  next := h.next.move hv.isStep hv.top hv.clear
  isStep := hv.isStep
  right := h.nextRight
  nextRight := hv.right

/-! ### Pacman -/

/-- The first step of a turn: `KEY_RIGHT` turns to the left. -/
def Arrow.turned : Arrow → ℤ × ℤ
  | .right => (-2, 0)
  | dir => (dir.dx, dir.dy)

/-- The condition on pacman.  When `canMove` lets a key through that is across the way pacman moves,
the turn, or the way on to where it can turn, leads into a passage, and so does a start from a
standstill. -/
def Mover.Sees (beyond : Beyond) (m : Mover) (key : Arrow) : Prop :=
  m.canGo beyond key = true →
    if m.Crosses key then
      if m.Aligned key then m.Clear key.turned else m.Clear (m.stepX, m.stepY)
    else m.Unseen key → m.Clear (key.dx, key.dy)

instance (beyond : Beyond) (m : Mover) (key : Arrow) : Decidable (m.Sees beyond key) :=
  inferInstanceAs (Decidable (_ → _))

section
variable {beyond : Beyond} {m : Mover}

/-- Pacman moves on to where it can turn. -/
theorem Roams.keep {key : Arrow} (h : Roams m) (hcross : m.Crosses key)
    (hal : ¬ m.Aligned key) (hclear : m.Clear (m.stepX, m.stepY)) :
    Allowed m (m.stepX, m.stepY) := by
  have hb := h.next.bounds
  have hstep := h.isStep.cases
  have hx := h.evenX
  have hy := h.evenY
  have hr := h.nextRight
  have hmodX : (m.x + m.stepX).tmod 8 = (m.x + m.stepX) % 8 :=
    Int.tmod_eq_emod_of_nonneg (by omega)
  have hmodY : (m.y + m.stepY).tmod 8 = (m.y + m.stepY) % 8 :=
    Int.tmod_eq_emod_of_nonneg (by omega)
  refine ⟨h.isStep, hclear, ?_, ?_⟩
  · cases key <;> simp only [Mover.Crosses, Mover.Aligned, hmodX, hmodY] at * <;> omega
  · cases key <;> simp only [Mover.Crosses, Mover.Aligned, hmodX, hmodY] at * <;> omega

/-- The two comparisons of the source are one. -/
theorem Mover.vertical_eq {key : Arrow} {v : ℤ} (hs : IsStep (m.stepX, m.stepY))
    (hgo : m.canGo beyond key = true) (hX : m.stepX ≠ 0) : m.vertical beyond key v =
      if (m.x + m.stepX).tmod 8 = 0 then (0, v) else (m.stepX, 0) := by
  rw [Mover.vertical, if_pos hgo, if_neg hX]
  obtain ⟨h0, -⟩ | ⟨hY, h2 | h2⟩ := hs.cases
  · exact absurd h0 hX
  · simp [h2]
  · simp [h2, sub_eq_add_neg]

theorem Mover.horizontal_eq {key : Arrow} {v w : ℤ} (hs : IsStep (m.stepX, m.stepY))
    (hgo : m.canGo beyond key = true) (hY : m.stepY ≠ 0) : m.horizontal beyond key v w =
      if (m.y + m.stepY).tmod 8 = 0 then (w, 0) else (0, m.stepY) := by
  rw [Mover.horizontal, if_pos hgo, if_neg hY]
  obtain ⟨hX, h0 | h2 | h2⟩ | ⟨h0, -⟩ := hs.cases
  · exact absurd h0 hY
  · simp [h2]
  · simp [h2, sub_eq_add_neg]
  · exact absurd h0 hY

/-- `KEY_UP` and `KEY_DOWN` -/
theorem Roams.vertical {key : Arrow} (h : Roams m) (hkey : key = .up ∨ key = .down)
    (hC : m.Sees beyond key) : Allowed m (m.vertical beyond key key.dy) := by
  have hdx : key.dx = 0 := by obtain rfl | rfl := hkey <;> rfl
  have hturned : key.turned = (key.dx, key.dy) := by obtain rfl | rfl := hkey <;> rfl
  have hcross : m.Crosses key ↔ m.stepX ≠ 0 := by obtain rfl | rfl := hkey <;> exact Iff.rfl
  have hal : m.Aligned key ↔ (m.x + m.stepX).tmod 8 = 0 := by
    obtain rfl | rfl := hkey <;> exact Iff.rfl
  by_cases hgo : m.canGo beyond key = true
  · have hC := hC hgo
    by_cases hX : m.stepX = 0
    · rw [Mover.vertical, if_pos hgo, if_pos hX, ← hdx]
      rw [if_neg fun hc => hcross.1 hc hX] at hC
      exact h.allowed hgo hC
    rw [Mover.vertical_eq h.isStep hgo hX]
    rw [if_pos (hcross.2 hX)] at hC
    by_cases ha : m.Aligned key
    · rw [if_pos ha, hturned] at hC
      rw [if_pos (hal.1 ha), ← hdx]
      exact h.allowed hgo fun _ => hC
    · rw [if_neg ha] at hC
      have hY : m.stepY = 0 := by have := h.isStep.cases; omega
      rw [if_neg fun hc => ha (hal.2 hc)]
      have hkeep := h.keep (hcross.2 hX) ha hC
      rwa [hY] at hkeep
  -- the key is not let through: pacman moves on if it can
  · rw [Mover.vertical, if_neg hgo]
    have hstay := h.stay
    split_ifs with h2 hr h2' hl
    · exact h.goOn hr h2 (by have := h.isStep.cases; simp only [Arrow.dy]; omega)
    · exact hstay
    · exact h.goOn hl h2' (by have := h.isStep.cases; simp only [Arrow.dy]; omega)
    · exact hstay
    · exact hstay

/-- `KEY_LEFT` and `KEY_RIGHT` -/
theorem Roams.horizontal {key : Arrow} (h : Roams m) (hkey : key = .left ∨ key = .right)
    (hC : m.Sees beyond key) : Allowed m (m.horizontal beyond key key.dx (-2)) := by
  have hdy : key.dy = 0 := by obtain rfl | rfl := hkey <;> rfl
  have hturned : key.turned = (-2, 0) := by obtain rfl | rfl := hkey <;> rfl
  have hcross : m.Crosses key ↔ m.stepY ≠ 0 := by obtain rfl | rfl := hkey <;> exact Iff.rfl
  have hal : m.Aligned key ↔ (m.y + m.stepY).tmod 8 = 0 := by
    obtain rfl | rfl := hkey <;> exact Iff.rfl
  by_cases hgo : m.canGo beyond key = true
  · have hC := hC hgo
    by_cases hY : m.stepY = 0
    · rw [Mover.horizontal, if_pos hgo, if_pos hY, ← hdy]
      rw [if_neg fun hc => hcross.1 hc hY] at hC
      exact h.allowed hgo hC
    have hX : m.stepX = 0 := by have := h.isStep.cases; omega
    rw [Mover.horizontal_eq h.isStep hgo hY]
    rw [if_pos (hcross.2 hY)] at hC
    by_cases ha : m.Aligned key
    · rw [if_pos ha, hturned] at hC
      rw [if_pos (hal.1 ha)]
      refine ⟨.inr ⟨.left, rfl⟩, hC, ?_, ?_⟩
      · have := h.next.bounds
        simp only
        omega
      · have := h.nextRight
        simp only
        omega
    · rw [if_neg ha] at hC
      rw [if_neg fun hc => ha (hal.2 hc)]
      have hkeep := h.keep (hcross.2 hY) ha hC
      rwa [hX] at hkeep
  · rw [Mover.horizontal, if_neg hgo]
    have hstay := h.stay
    split_ifs with h2 hd h2' hu
    · exact h.goOn hd (by have := h.isStep.cases; simp only [Arrow.dx]; omega) h2
    · exact hstay
    · exact h.goOn hu (by have := h.isStep.cases; simp only [Arrow.dx]; omega) h2'
    · exact hstay
    · exact hstay

/-- A turn with `KEY_RIGHT` goes to the left, as one with `KEY_LEFT` does. -/
theorem Roams.stepIn_right_turn (h : Roams m) (hgo : m.canGo beyond .right = true)
    (hY : m.stepY ≠ 0) (hal : m.Aligned .right) :
    m.stepIn beyond .right = (Arrow.left.dx, Arrow.left.dy) := by
  rw [Mover.stepIn, Mover.horizontal_eq h.isStep hgo hY,
    if_pos (show (m.y + m.stepY).tmod 8 = 0 from hal)]
  rfl

theorem Roams.stepIn {key : Arrow} (h : Roams m) (hC : m.Sees beyond key) :
    Allowed m (m.stepIn beyond key) := by
  cases key with
  | up => exact h.vertical (.inl rfl) hC
  | down => exact h.vertical (.inr rfl) hC
  | left => exact h.horizontal (.inl rfl) hC
  | right => exact h.horizontal (.inr rfl) hC

/-- **Pacman.**  The next position, with the step that the key gives. -/
theorem Roams.findPacman {key : Arrow} (h : Roams m) (hC : m.Sees beyond key) :
    Roams (findPacmanNextPosition beyond m key) :=
  h.advance (h.stepIn hC) _

end

/-! ### The ghost -/

namespace Arrow

/-- The order in which the ghost compares the directions. -/
def rank : Arrow → ℕ
  | left => 0
  | right => 1
  | up => 2
  | down => 3

/-- The four directions. -/
def all : List Arrow := [left, right, up, down]

theorem mem_all (dir : Arrow) : dir ∈ all := by cases dir <;> decide

end Arrow

namespace Mover

/-- The ghost may go in this direction. -/
def MayGo (beyond : Beyond) (g p : Mover) (dir : Arrow) : Prop :=
  g.canGo beyond dir = true ∧ ¬ g.TurnsBack dir ∧ g.distance p dir ≤ 320 * 200

instance (beyond : Beyond) (g p : Mover) (dir : Arrow) : Decidable (g.MayGo beyond p dir) :=
  inferInstanceAs (Decidable (_ ∧ _))

/-- No direction of `l` that is open to the ghost brings it nearer to pacman, and none that brings
it as near is compared later. -/
def Nearest (beyond : Beyond) (g p : Mover) (l : List Arrow) (dir : Arrow) : Prop :=
  g.MayGo beyond p dir ∧ ∀ dir' ∈ l, g.MayGo beyond p dir' →
    g.distance p dir < g.distance p dir' ∨
      g.distance p dir = g.distance p dir' ∧ dir'.rank ≤ dir.rank

instance (beyond : Beyond) (g p : Mover) (l : List Arrow) (dir : Arrow) :
    Decidable (g.Nearest beyond p l dir) :=
  inferInstanceAs (Decidable (_ ∧ _))

/-- The condition on the ghost.  When it turns or starts from a standstill, the nearest direction
leads into a passage from the next position on. -/
def Follows (beyond : Beyond) (g p : Mover) : Prop :=
  ∀ dir ∈ Arrow.all, g.Nearest beyond p Arrow.all dir → g.Unseen dir → g.Clear (dir.dx, dir.dy)

instance (beyond : Beyond) (g p : Mover) : Decidable (g.Follows beyond p) :=
  inferInstanceAs (Decidable (∀ dir ∈ Arrow.all, _))

/-- What the comparisons with the directions of `l` have found. -/
def Found (beyond : Beyond) (g p : Mover) (l : List Arrow) (best : ℤ × ℤ × ℤ) : Prop :=
  best = (320 * 200, 0, 0) ∧ (∀ dir ∈ l, ¬ g.MayGo beyond p dir) ∨
    ∃ dir, best = (g.distance p dir, dir.dx, dir.dy) ∧ g.Nearest beyond p l dir

variable {beyond : Beyond} {g p : Mover}

theorem distance_nonneg (dir : Arrow) : 0 ≤ g.distance p dir :=
  add_nonneg (mul_self_nonneg _) (mul_self_nonneg _)

theorem Found.le {l : List Arrow} {best : ℤ × ℤ × ℤ} (h : g.Found beyond p l best) :
    best.1 ≤ 320 * 200 := by
  obtain ⟨rfl, -⟩ | ⟨dir, rfl, hn⟩ := h
  · exact le_refl _
  · exact hn.1.2.2

/-- A direction that the ghost may not take, or that is farther. -/
theorem Found.skip {l : List Arrow} {best : ℤ × ℤ × ℤ} {dir : Arrow}
    (h : g.Found beyond p l best)
    (hdir : g.MayGo beyond p dir → best.1 < g.distance p dir) :
    g.Found beyond p (l ++ [dir]) best := by
  obtain ⟨rfl, hnone⟩ | ⟨dir₀, rfl, hmay₀, hall⟩ := h
  · refine .inl ⟨rfl, fun dir' hdir' hmay => ?_⟩
    rcases List.mem_append.1 hdir' with hl | hl
    · exact hnone dir' hl hmay
    · rw [List.mem_singleton.1 hl] at hmay
      have hlt := hdir hmay
      have hmax := hmay.2.2
      simp only at hlt
      omega
  · refine .inr ⟨dir₀, rfl, hmay₀, fun dir' hdir' hmay => ?_⟩
    rcases List.mem_append.1 hdir' with hl | hl
    · exact hall dir' hl hmay
    · rw [List.mem_singleton.1 hl] at hmay ⊢
      exact .inl (hdir hmay)

/-- One comparison, with a direction that comes after those of `l`. -/
theorem Found.consider {l : List Arrow} {best : ℤ × ℤ × ℤ} (h : g.Found beyond p l best)
    (dir : Arrow) (hrank : ∀ dir' ∈ l, dir'.rank ≤ dir.rank) :
    g.Found beyond p (l ++ [dir]) (g.consider beyond p best dir) := by
  have hle := h.le
  have hnonneg := distance_nonneg (g := g) (p := p) dir
  by_cases hgo : g.canGo beyond dir = true
  · rw [Mover.consider, Mover.dist, if_pos hgo]
    by_cases hc : g.distance p dir ≤ best.1 ∧ 0 ≤ g.distance p dir ∧ ¬ g.TurnsBack dir
    · rw [if_pos hc]
      refine .inr ⟨dir, rfl, ⟨hgo, hc.2.2, by omega⟩, fun dir' hdir' hmay => ?_⟩
      rcases List.mem_append.1 hdir' with hl | hl
      · obtain ⟨-, hnone⟩ | ⟨dir₀, rfl, -, hall⟩ := h
        · exact absurd hmay (hnone dir' hl)
        · have hr := hrank dir' hl
          have hd := hall dir' hl hmay
          have hc1 := hc.1
          simp only at hc1
          omega
      · rw [List.mem_singleton.1 hl]
        exact .inr ⟨rfl, le_refl _⟩
    · rw [if_neg hc]
      have hlater : g.MayGo beyond p dir → best.1 < g.distance p dir := fun hmay => by
        by_contra hlt
        exact hc ⟨by omega, hnonneg, hmay.2.1⟩
      exact h.skip hlater
  · rw [Mover.consider, Mover.dist, if_neg hgo, if_neg fun hc => by omega]
    exact h.skip fun hmay => absurd hmay.1 hgo

/-- The ghost takes the nearest direction, if there is one. -/
theorem choose_found (beyond : Beyond) (g p : Mover) :
    g.Found beyond p Arrow.all (g.choose beyond p) := by
  have h₀ : g.Found beyond p [] (320 * 200, 0, 0) := .inl ⟨rfl, fun dir hdir => by cases hdir⟩
  have h₁ := h₀.consider .left fun dir hdir => by cases hdir
  have h₂ := h₁.consider .right (by decide)
  have h₃ := h₂.consider .up (by decide)
  exact h₃.consider .down (by decide)

end Mover

/-- **The ghost.**  The next position, with the step that the ghost chooses. -/
theorem Roams.findGhost {beyond : Beyond} {g p : Mover} (h : Roams g)
    (hC : g.Follows beyond p) : Roams (findGhostNextPosition beyond g p) := by
  refine h.advance ?_ g.direction
  obtain ⟨hnone, -⟩ | ⟨dir, hdir, hn⟩ := Mover.choose_found beyond g p
  · rw [hnone]
    exact h.stay
  · rw [hdir]
    exact h.allowed hn.1.1 (hC dir dir.mem_all hn)

/-! ### The game -/

namespace Game

/-- Pacman and the ghost are over passages. -/
def InPassages (s : Game) : Prop :=
  OnPassage s.pacman.x s.pacman.y ∧ OnPassage s.ghost.x s.ghost.y

instance (s : Game) : Decidable s.InPassages := inferInstanceAs (Decidable (_ ∧ _))

/-- The indices that a tick uses are in the matrices: those at which `canMove` looks, the bean under
pacman and the bean at the start. -/
def Indexed (s : Game) : Prop :=
  (∀ dir, ∀ cell ∈ ahead s.pacman.x s.pacman.y dir, Inside cell.1 cell.2) ∧
    (∀ dir, ∀ cell ∈ ahead s.ghost.x s.ghost.y dir, Inside cell.1 cell.2) ∧
    Inside (cellOf s.pacman.x s.pacman.y).1 (cellOf s.pacman.x s.pacman.y).2 ∧
    Inside (cellOf pacmanStart.x pacmanStart.y).1 (cellOf pacmanStart.x pacmanStart.y).2

/-- The condition on a tick. -/
def Looks (beyond : Beyond) (s : Game) (key : Arrow) : Prop :=
  s.pacman.Sees beyond key ∧ s.ghost.Follows beyond s.pacman

instance (beyond : Beyond) (s : Game) (key : Arrow) : Decidable (s.Looks beyond key) :=
  inferInstanceAs (Decidable (_ ∧ _))

/-- The invariant of the game. -/
structure Roaming (s : Game) : Prop where
  pacman : Roams s.pacman
  ghost : Roams s.ghost

theorem Roaming.inPassages {s : Game} (h : s.Roaming) : s.InPassages :=
  ⟨h.pacman.here.onPassage, h.ghost.here.onPassage⟩

theorem Roaming.indexed {s : Game} (h : s.Roaming) : s.Indexed :=
  ⟨h.pacman.ahead_inside, h.ghost.ahead_inside, h.pacman.here.onPassage.inside, by decide⟩

end Game

theorem roams_pacmanStart : Roams pacmanStart where
  evenX := by decide
  evenY := by decide
  here := by unfold OnStreet; decide
  next := by unfold OnStreet; decide
  isStep := .inl rfl
  right := by decide
  nextRight := by decide

theorem roams_ghostStart : Roams ghostStart where
  evenX := by decide
  evenY := by decide
  here := by unfold OnStreet; decide
  next := by unfold OnStreet; decide
  isStep := .inl rfl
  right := by decide
  nextRight := by decide

theorem gameStart_roaming : gameStart.Roaming := ⟨roams_pacmanStart, roams_ghostStart⟩

/-- One tick. -/
theorem Game.Roaming.tick {beyond : Beyond} {s s' : Game} {key : Arrow} (h : s.Roaming)
    (hC : s.Looks beyond key) (hst : s.tick beyond key = some s') : s'.Roaming := by
  have hp := h.pacman.findPacman hC.1
  have hg := h.ghost.findGhost hC.2
  simp only [Game.tick] at hst
  split_ifs at hst
  -- pacman is put back to the start
  · cases hst
    exact ⟨roams_pacmanStart, hg⟩
  · cases hst
    exact ⟨hp, hg⟩

/-- **The game on the streets.**  In a game in which `canMove` looks at every cell that pacman or
the ghost turns or starts into, or the cell is a passage anyway, both stay over passages and all
indices are in the matrices. -/
theorem game_streets (beyond : Beyond) (keys : List Arrow)
    (h : (gameMachine beyond).Steps (Game.Looks beyond) gameStart keys) :
    (gameMachine beyond).States Game.InPassages gameStart keys ∧
      (gameMachine beyond).Steps (fun s _ => s.Indexed) gameStart keys :=
  Machine.states_steps_of_steps
    (fun _ _ _ hs hC hst => ⟨hs.tick hC hst, hs.indexed⟩)
    (fun _ hs => hs.inPassages) gameStart_roaming h

/-- What a read of the rows one after the other gives outside of a row. -/
def beyondRows : Beyond where
  maze r c := mazeMatrix.flatten.getD (28 * r + c).toNat 0
  beans r c := beanMatrix.flatten.getD (28 * r + c).toNat 0

theorem game_streets_turn :
    (gameMachine beyondRows).States Game.InPassages gameStart [.left, .up, .up, .up, .up, .up] ∧
      (gameMachine beyondRows).Steps (fun s _ => s.Indexed) gameStart
        [.left, .up, .up, .up, .up, .up] :=
  game_streets beyondRows [.left, .up, .up, .up, .up, .up] (by decide +kernel)

/-- Pacman comes back to the right, and `canMove` finds the way up from the column 12 while the turn
is made in the column 13, under a wall. -/
theorem game_leaves_streets :
    ¬ ∀ (beyond : Beyond) (keys : List Arrow),
      (gameMachine beyond).States Game.InPassages gameStart keys ∧
        (gameMachine beyond).Steps (fun s _ => s.Indexed) gameStart keys := by
  intro hall
  have hend : ((gameMachine beyondRows).exec gameStart [.left, .up, .up, .up, .right, .up, .up]).map
      (fun s => (s.pacman.x, s.pacman.y)) = some (104, 142) := by decide +kernel
  obtain ⟨s, hexec, hs⟩ := Option.map_eq_some_iff.1 hend
  obtain ⟨hx, hy⟩ := Prod.mk.inj hs
  have hin := ((hall beyondRows _).1.exec hexec).1
  rw [hx, hy] at hin
  exact absurd hin (by decide)

end KTeamOS
