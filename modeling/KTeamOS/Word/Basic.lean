import Mathlib.Algebra.Group.Nat.Defs
import Mathlib.Data.Nat.Notation
import Mathlib.Order.Basic
import Mathlib.Tactic.Common

/-!
# 32-bit words

Machine words of the source (`uint32_t`, pointers) are natural numbers below `2 ^ 32`; where the
C arithmetic can wrap around, it is written with the operations of this file.
-/

namespace KTeamOS

/-- Unsigned addition. -/
def add32 (a b : ℕ) : ℕ := (a + b) % 2 ^ 32

/-- Unsigned subtraction. -/
def sub32 (a b : ℕ) : ℕ := (a + (2 ^ 32 - b % 2 ^ 32)) % 2 ^ 32

theorem add32_of_lt {a b : ℕ} (h : a + b < 2 ^ 32) : add32 a b = a + b := Nat.mod_eq_of_lt h

theorem sub32_of_le {a b : ℕ} (ha : a < 2 ^ 32) (h : b ≤ a) : sub32 a b = a - b := by
  unfold sub32
  omega

/-- A decrement of both keeps the difference. -/
theorem sub32_pred {a b : ℕ} (h0 : 0 < b) (h : b ≤ a) (ha : a < 2 ^ 32) :
    sub32 (sub32 a 1) (sub32 b 1) = a - b := by
  rw [sub32_of_le ha (Nat.le_trans h0 h), sub32_of_le (Nat.lt_of_le_of_lt h ha) h0,
    sub32_of_le (by omega) (by omega)]
  omega

theorem add32_sub32 {a : ℕ} (h : a < 2 ^ 32) : add32 (sub32 a 1) 1 = a := by
  unfold add32 sub32
  omega

end KTeamOS
