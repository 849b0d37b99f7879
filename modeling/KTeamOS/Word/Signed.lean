import Mathlib.Algebra.Group.Int.Defs
import Mathlib.Algebra.Group.Nat.Defs
import Mathlib.Data.Int.DivMod
import Mathlib.Data.Int.Init
import Mathlib.Tactic.Common

/-!
# Signed and unsigned words

Where the C code mixes `int` and `uint32_t`, both are integers, and a conversion is one of the two
functions of this file.
-/

namespace KTeamOS

/-- The conversion to `int`. -/
def int32 (n : ℤ) : ℤ := n.bmod (2 ^ 32)

/-- The conversion to `uint32_t`. -/
def uint32 (n : ℤ) : ℤ := n % 2 ^ 32

/-- `n` is a value of type `int`. -/
def InInt32 (n : ℤ) : Prop := -2 ^ 31 ≤ n ∧ n < 2 ^ 31

instance (n : ℤ) : Decidable (InInt32 n) := inferInstanceAs (Decidable (_ ∧ _))

/-- The sum of two values of type `int`, unless it overflows. -/
def intAdd (a b : ℤ) : Option ℤ := if InInt32 (a + b) then some (a + b) else none

variable {a b c : ℤ}

theorem intAdd_eq_some (h : intAdd a b = some c) : c = a + b := by
  unfold intAdd at h
  split_ifs at h with hab
  exact (Option.some.inj h).symm

theorem int32_of_range (h : -2 ^ 31 ≤ a) (h' : a < 2 ^ 31) : int32 a = a := by
  unfold int32
  rw [Int.bmod_def]
  split_ifs <;> omega

theorem uint32_of_range (h : 0 ≤ a) (h' : a < 2 ^ 32) : uint32 a = a := Int.emod_eq_of_lt h h'

theorem uint32_of_neg (h : -2 ^ 32 ≤ a) (h' : a < 0) : uint32 a = a + 2 ^ 32 := by
  unfold uint32
  omega

@[simp] theorem uint32_uint32_add : uint32 (uint32 a + b) = uint32 (a + b) :=
  Int.emod_add_emod ..

theorem int32_lt : int32 a < 2 ^ 31 := by
  unfold int32
  rw [Int.bmod_def]
  split_ifs <;> omega

theorem uint32_toNat_lt : (uint32 a).toNat < 2 ^ 32 := by
  unfold uint32
  omega

/-- A detour through `int` does not change the low bits. -/
@[simp] theorem uint32_add_int32 : uint32 (a + int32 b) = uint32 (a + b) := by
  have hlow : b.bmod (2 ^ 32) % 2 ^ 32 = b % 2 ^ 32 := Int.bmod_emod
  unfold uint32 int32
  rw [Int.add_emod, hlow, ← Int.add_emod]

end KTeamOS
