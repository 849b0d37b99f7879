import Mathlib.Data.Int.Notation
import Mathlib.Data.Nat.Notation
import Mathlib.Tactic.Common

/-!
# The maze

The two matrices of `ece391pacman.c`.  A position is in pixels; the cell under it is found by
dividing by 8.  The passages form one region that is closed under steps from cell to cell, and two
regions outside the walls, in the rows 8 to 13, which have the value 0 as well.

## Main definitions

* `mazeAt`, `Passage` : a cell of the maze, and whether one can stand there.
* `Street` : the passages between the walls.
-/

namespace KTeamOS

/-- `maze_matrix` -/
def mazeMatrix : List (List ℕ) := [
  [2, 7, 7, 7, 7, 7, 7, 7, 7, 7, 7, 7, 7, 2, 2, 7, 7, 7, 7, 7, 7, 7, 7, 7, 7, 7, 7, 2],
  [2, 7, 6, 1, 1, 4, 7, 6, 1, 1, 1, 4, 7, 2, 2, 7, 6, 1, 1, 1, 4, 7, 6, 1, 1, 4, 7, 2],
  [2, 7, 5, 1, 1, 3, 7, 5, 1, 1, 1, 3, 7, 5, 3, 7, 5, 1, 1, 1, 3, 7, 5, 1, 1, 3, 7, 2],
  [2, 7, 7, 7, 7, 7, 7, 7, 7, 7, 7, 7, 7, 7, 7, 7, 7, 7, 7, 7, 7, 7, 7, 7, 7, 7, 7, 2],
  [2, 7, 6, 1, 1, 4, 7, 6, 4, 7, 6, 1, 1, 1, 1, 1, 1, 4, 7, 6, 4, 7, 6, 1, 1, 4, 7, 2],
  [2, 7, 5, 1, 1, 3, 7, 2, 2, 7, 5, 1, 1, 4, 6, 1, 1, 3, 7, 2, 2, 7, 5, 1, 1, 3, 7, 2],
  [2, 7, 7, 7, 7, 7, 7, 2, 2, 7, 7, 7, 7, 2, 2, 7, 7, 7, 7, 2, 2, 7, 7, 7, 7, 7, 7, 2],
  [5, 1, 1, 1, 1, 4, 7, 2, 5, 1, 1, 4, 0, 2, 2, 0, 6, 1, 1, 3, 2, 7, 6, 1, 1, 1, 1, 3],
  [0, 0, 0, 0, 0, 2, 7, 2, 6, 1, 1, 3, 0, 5, 3, 0, 5, 1, 1, 4, 2, 7, 2, 0, 0, 0, 0, 0],
  [0, 0, 0, 0, 0, 2, 7, 5, 3, 0, 0, 0, 0, 0, 0, 0, 0, 0, 0, 5, 3, 7, 2, 0, 0, 0, 0, 0],
  [0, 0, 0, 0, 0, 2, 7, 0, 0, 0, 6, 1, 1, 1, 1, 1, 1, 4, 0, 0, 0, 7, 2, 0, 0, 0, 0, 0],
  [0, 0, 0, 0, 0, 2, 7, 0, 0, 0, 5, 1, 1, 1, 1, 1, 1, 3, 0, 0, 0, 7, 2, 0, 0, 0, 0, 0],
  [0, 0, 0, 0, 0, 2, 7, 6, 4, 0, 0, 0, 0, 0, 0, 0, 0, 0, 0, 6, 4, 7, 2, 0, 0, 0, 0, 0],
  [0, 0, 0, 0, 0, 2, 7, 2, 2, 0, 6, 1, 1, 1, 1, 1, 1, 4, 0, 2, 2, 7, 2, 0, 0, 0, 0, 0],
  [6, 1, 1, 1, 1, 3, 7, 5, 3, 0, 5, 1, 1, 4, 6, 1, 1, 3, 0, 5, 3, 7, 5, 1, 1, 1, 1, 4],
  [2, 7, 7, 7, 7, 7, 7, 7, 7, 7, 7, 7, 7, 2, 2, 7, 7, 7, 7, 7, 7, 7, 7, 7, 7, 7, 7, 2],
  [2, 7, 6, 1, 1, 4, 7, 6, 1, 1, 1, 4, 7, 2, 2, 7, 6, 1, 1, 1, 4, 7, 6, 1, 1, 4, 7, 2],
  [2, 7, 5, 1, 4, 2, 7, 5, 1, 1, 1, 3, 7, 5, 3, 7, 5, 1, 1, 1, 3, 7, 2, 6, 1, 3, 7, 2],
  [2, 7, 7, 7, 2, 2, 7, 7, 7, 7, 7, 7, 7, 0, 0, 7, 7, 7, 7, 7, 7, 7, 2, 2, 7, 7, 7, 2],
  [5, 1, 4, 7, 2, 2, 7, 6, 4, 7, 6, 1, 1, 1, 1, 1, 1, 4, 7, 6, 4, 7, 2, 2, 7, 6, 1, 3],
  [6, 1, 3, 7, 5, 3, 7, 2, 2, 7, 5, 1, 1, 4, 6, 1, 1, 3, 7, 2, 2, 7, 5, 3, 7, 5, 1, 4],
  [2, 7, 7, 7, 7, 7, 7, 2, 2, 7, 7, 7, 7, 2, 2, 7, 7, 7, 7, 2, 2, 7, 7, 7, 7, 7, 7, 2],
  [2, 7, 6, 1, 1, 1, 1, 3, 5, 1, 1, 4, 7, 2, 2, 7, 6, 1, 1, 3, 5, 1, 1, 1, 1, 4, 7, 2],
  [2, 7, 5, 1, 1, 1, 1, 1, 1, 1, 1, 3, 7, 5, 3, 7, 5, 1, 1, 1, 1, 1, 1, 1, 1, 3, 7, 2],
  [2, 7, 7, 7, 7, 7, 7, 7, 7, 7, 7, 7, 7, 7, 7, 7, 7, 7, 7, 7, 7, 7, 7, 7, 7, 7, 7, 2]]

/-- `bean_matrix` at the start of a game. -/
def beanMatrix : List (List ℕ) := [
  [0, 1, 1, 1, 1, 1, 1, 1, 1, 1, 1, 1, 1, 0, 0, 1, 1, 1, 1, 1, 1, 1, 1, 1, 1, 1, 1, 0],
  [0, 1, 0, 0, 0, 0, 1, 0, 0, 0, 0, 0, 1, 0, 0, 1, 0, 0, 0, 0, 0, 1, 0, 0, 0, 0, 1, 0],
  [0, 1, 0, 0, 0, 0, 1, 0, 0, 0, 0, 0, 1, 0, 0, 1, 0, 0, 0, 0, 0, 1, 0, 0, 0, 0, 1, 0],
  [0, 1, 1, 1, 1, 1, 1, 1, 1, 1, 1, 1, 1, 1, 1, 1, 1, 1, 1, 1, 1, 1, 1, 1, 1, 1, 1, 0],
  [0, 1, 0, 0, 0, 0, 1, 0, 0, 1, 0, 0, 0, 0, 0, 0, 0, 0, 1, 0, 0, 1, 0, 0, 0, 0, 1, 0],
  [0, 1, 0, 0, 0, 0, 1, 0, 0, 1, 0, 0, 0, 0, 0, 0, 0, 0, 1, 0, 0, 1, 0, 0, 0, 0, 1, 0],
  [0, 1, 1, 1, 1, 1, 1, 0, 0, 1, 1, 1, 1, 0, 0, 1, 1, 1, 1, 0, 0, 1, 1, 1, 1, 1, 1, 0],
  [0, 0, 0, 0, 0, 0, 1, 0, 0, 0, 0, 0, 0, 0, 0, 0, 0, 0, 0, 0, 0, 1, 0, 0, 0, 0, 0, 0],
  [0, 0, 0, 0, 0, 0, 1, 0, 0, 0, 0, 0, 0, 0, 0, 0, 0, 0, 0, 0, 0, 1, 0, 0, 0, 0, 0, 0],
  [0, 0, 0, 0, 0, 0, 1, 0, 0, 0, 0, 0, 0, 0, 0, 0, 0, 0, 0, 0, 0, 1, 0, 0, 0, 0, 0, 0],
  [0, 0, 0, 0, 0, 0, 1, 0, 0, 0, 0, 0, 0, 0, 0, 0, 0, 0, 0, 0, 0, 1, 0, 0, 0, 0, 0, 0],
  [0, 0, 0, 0, 0, 0, 1, 0, 0, 0, 0, 0, 0, 0, 0, 0, 0, 0, 0, 0, 0, 1, 0, 0, 0, 0, 0, 0],
  [0, 0, 0, 0, 0, 0, 1, 0, 0, 0, 0, 0, 0, 0, 0, 0, 0, 0, 0, 0, 0, 1, 0, 0, 0, 0, 0, 0],
  [0, 0, 0, 0, 0, 0, 1, 0, 0, 0, 0, 0, 0, 0, 0, 0, 0, 0, 0, 0, 0, 1, 0, 0, 0, 0, 0, 0],
  [0, 0, 0, 0, 0, 0, 1, 0, 0, 0, 0, 0, 0, 0, 0, 0, 0, 0, 0, 0, 0, 1, 0, 0, 0, 0, 0, 0],
  [0, 1, 1, 1, 1, 1, 1, 1, 1, 1, 1, 1, 1, 0, 0, 1, 1, 1, 1, 1, 1, 1, 1, 1, 1, 1, 1, 0],
  [0, 1, 0, 0, 0, 0, 1, 0, 0, 0, 0, 0, 1, 0, 0, 1, 0, 0, 0, 0, 0, 1, 0, 0, 0, 0, 1, 0],
  [0, 1, 0, 0, 0, 0, 1, 0, 0, 0, 0, 0, 1, 0, 0, 1, 0, 0, 0, 0, 0, 1, 0, 0, 0, 0, 1, 0],
  [0, 1, 1, 1, 0, 0, 1, 1, 1, 1, 1, 1, 1, 0, 0, 1, 1, 1, 1, 1, 1, 1, 0, 0, 1, 1, 1, 0],
  [0, 0, 0, 1, 0, 0, 1, 0, 0, 1, 0, 0, 0, 0, 0, 0, 0, 0, 1, 0, 0, 1, 0, 0, 1, 0, 0, 0],
  [0, 0, 0, 1, 0, 0, 1, 0, 0, 1, 0, 0, 0, 0, 0, 0, 0, 0, 1, 0, 0, 1, 0, 0, 1, 0, 0, 0],
  [0, 1, 1, 1, 1, 1, 1, 0, 0, 1, 1, 1, 1, 0, 0, 1, 1, 1, 1, 0, 0, 1, 1, 1, 1, 1, 1, 0],
  [0, 1, 0, 0, 0, 0, 0, 0, 0, 0, 0, 0, 1, 0, 0, 1, 0, 0, 0, 0, 0, 0, 0, 0, 0, 0, 1, 0],
  [0, 1, 0, 0, 0, 0, 0, 0, 0, 0, 0, 0, 1, 0, 0, 1, 0, 0, 0, 0, 0, 0, 0, 0, 0, 0, 1, 0],
  [0, 1, 1, 1, 1, 1, 1, 1, 1, 1, 1, 1, 1, 1, 1, 1, 1, 1, 1, 1, 1, 1, 1, 1, 1, 1, 1, 0]]

/-- The cell of the maze in the row `r` and the column `c`. -/
def mazeAt (r c : ℕ) : ℕ := (mazeMatrix.getD r []).getD c 0

/-- The indices are in the matrices. -/
def Inside (r c : ℤ) : Prop := 0 ≤ r ∧ r < 25 ∧ 0 ≤ c ∧ c < 28

instance (r c : ℤ) : Decidable (Inside r c) := inferInstanceAs (Decidable (_ ∧ _))

/-- A passage cell. -/
def Passage (r c : ℕ) : Prop := r < 25 ∧ c < 28 ∧ (mazeAt r c = 0 ∨ mazeAt r c = 7)

instance (r c : ℕ) : Decidable (Passage r c) := inferInstanceAs (Decidable (_ ∧ _))

/-- A passage between the walls. -/
def Street (r c : ℕ) : Prop := Passage r c ∧ ¬ (8 ≤ r ∧ r ≤ 13 ∧ (c ≤ 4 ∨ 23 ≤ c))

instance (r c : ℕ) : Decidable (Street r c) := inferInstanceAs (Decidable (_ ∧ _))

variable {r c : ℕ}

/-! ### The regions -/

/-- Nothing but walls is between the streets and what is outside. -/
theorem street_down (h : Street r c) (h' : Passage (r + 1) c) : Street (r + 1) c := by
  have hall : ∀ r < 25, ∀ c < 28, Street r c → Passage (r + 1) c → Street (r + 1) c := by
    decide +kernel
  exact hall r h.1.1 c h.1.2.1 h h'

theorem street_up (h : Street (r + 1) c) (h' : Passage r c) : Street r c := by
  have hall : ∀ r < 25, ∀ c < 28, Street (r + 1) c → Passage r c → Street r c := by
    decide +kernel
  exact hall r h'.1 c h'.2.1 h h'

theorem street_right (h : Street r c) (h' : Passage r (c + 1)) : Street r (c + 1) := by
  have hall : ∀ r < 25, ∀ c < 28, Street r c → Passage r (c + 1) → Street r (c + 1) := by
    decide +kernel
  exact hall r h.1.1 c h.1.2.1 h h'

theorem street_left (h : Street r (c + 1)) (h' : Passage r c) : Street r c := by
  have hall : ∀ r < 25, ∀ c < 28, Street r (c + 1) → Passage r c → Street r c := by
    decide +kernel
  exact hall r h'.1 c h'.2.1 h h'

/-- The last column is a wall, but for the rows in which the streets end at the column 21. -/
theorem street_lastColumn (h : Street r c) (h' : Passage r 27) : c ≤ 21 := by
  have hall : ∀ r < 25, ∀ c < 28, Street r c → Passage r 27 → c ≤ 21 := by decide +kernel
  exact hall r h.1.1 c h.1.2.1 h h'

theorem street_column (h : Street r c) : 1 ≤ c ∧ c ≤ 26 := by
  have hall : ∀ r < 25, ∀ c < 28, Street r c → 1 ≤ c ∧ c ≤ 26 := by decide +kernel
  exact hall r h.1.1 c h.1.2.1 h

end KTeamOS
