import Mathlib.Algebra.Group.Nat.Defs
import Mathlib.Data.Nat.Notation
import Mathlib.Tactic.Common

/-!
# Address translation

The memory management unit of the x86 with 32-bit paging, pages of 4 KB and of 4 MB, and the write
protection of the kernel off.  Translations are cached page by page: a cached one may be used
instead of a walk until it is dropped, so that a program that changes its tables has to keep the
cache coherent.

## Main definitions

* `Mmu.Tables.lookup` : the walk through directory and table for one page.
* `Mmu.Mapping.address` : what a mapping makes of an access.
* `Mmu.Coherent` : the cache holds nothing that the walk would not find.
-/

namespace KTeamOS

namespace Mmu

/-- Who reads or writes. -/
structure Access where
  user : Bool
  write : Bool

/-- The translation of a page of 4 KB: who may use it, and its frame. -/
structure Mapping where
  user : Bool
  write : Bool
  frame : ℕ
  deriving DecidableEq

/-- Directory and tables as the unit reads them: words by index, and a table by its address. -/
structure Tables where
  dir : ℕ → ℕ
  table : ℕ → ℕ → ℕ

/-- The bit `i` of a word. -/
def bit (w i : ℕ) : Bool := decide (w / 2 ^ i % 2 = 1)

/-- A word shifted past its lowest bit. -/
theorem cons_div (b : Bool) (w i : ℕ) : (b.toNat + 2 * w) / 2 ^ (i + 1) = w / 2 ^ i := by
  have hb := Bool.toNat_lt b
  rw [Nat.pow_succ', ← Nat.div_div_eq_div_mul]
  congr 1
  omega

theorem bit_cons_zero (b : Bool) (w : ℕ) : bit (b.toNat + 2 * w) 0 = b := by
  cases b <;> simp [bit, Nat.add_mod]

theorem bit_cons_succ (b : Bool) (w i : ℕ) : bit (b.toNat + 2 * w) (i + 1) = bit w i := by
  rw [bit, cons_div, bit]

/-- The entry of a table, below a directory entry with the rights `user` and `write`. -/
def leaf (user write : Bool) (pte : ℕ) : Option Mapping :=
  if bit pte 0 then some ⟨user && bit pte 2, write && bit pte 1, pte / 2 ^ 12⟩ else none

/-- The walk for the page `p`. -/
def Tables.lookup (t : Tables) (p : ℕ) : Option Mapping :=
  let pde := t.dir (p / 1024)
  if bit pde 0 then
    -- the page size bit
    if bit pde 7 then some ⟨bit pde 2, bit pde 1, pde / 2 ^ 22 * 1024 + p % 1024⟩
    else leaf (bit pde 2) (bit pde 1) (t.table (pde / 2 ^ 12 * 2 ^ 12) (p % 1024))
  else none

/-- The address that an access to `a` reaches, if it does not fault. -/
def Mapping.address (m : Mapping) (x : Access) (a : ℕ) : Option ℕ :=
  if x.user ∧ (¬ m.user ∨ x.write ∧ ¬ m.write) then none else some (m.frame * 4096 + a % 4096)

/-! ### The cache -/

/-- The cached translations, by page. -/
abbrev Tlb := ℕ → Option Mapping

/-- The translation of an access to `a`: a cached one, if there is one. -/
def translate (tlb : Tlb) (t : Tables) (x : Access) (a : ℕ) : Option ℕ :=
  ((tlb (a / 4096)).or (t.lookup (a / 4096))).bind fun m => m.address x a

/-- What is cached is what the walk would find. -/
def Coherent (tlb : Tlb) (t : Tables) : Prop := ∀ p m, tlb p = some m → t.lookup p = some m

variable {tlb : Tlb} {t t' : Tables}

theorem coherent_flushed : Coherent (fun _ => none) t := fun _ _ h => by cases h

/-- The unit may cache what it has found, and forget what it has cached. -/
theorem Coherent.update (h : Coherent tlb t) {p : ℕ} {o : Option Mapping}
    (ho : ∀ m, o = some m → t.lookup p = some m) : Coherent (Function.update tlb p o) t := by
  intro q m hq
  by_cases hp : q = p
  · subst hp
    rw [Function.update_self] at hq
    exact ho m hq
  · rw [Function.update_of_ne hp] at hq
    exact h q m hq

/-- Tables in which pages are only added need no flush: that a page is not there is never cached. -/
theorem Coherent.extend (h : Coherent tlb t)
    (ht : ∀ p m, t.lookup p = some m → t'.lookup p = some m) : Coherent tlb t' :=
  fun p m hp => ht p m (h p m hp)

/-- With a coherent cache the tables say where an access goes. -/
theorem Coherent.translate_eq (h : Coherent tlb t) (x : Access) (a : ℕ) :
    translate tlb t x a = (t.lookup (a / 4096)).bind fun m => m.address x a := by
  unfold translate
  rcases hp : tlb (a / 4096) with _ | m
  · rfl
  · rw [h _ m hp]
    rfl

end Mmu

end KTeamOS
