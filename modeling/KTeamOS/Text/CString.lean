import Mathlib.Data.List.Basic
import Mathlib.Data.Nat.Notation

/-!
# Strings in memory

A string of a C program is a memory in which a NUL ends it, or a field of fixed size that a NUL
need not end.

## Main definitions

* `CString` : the characters of a NUL-terminated string, `CString.mem` the memory with them.
* `field b n i` : the string in the field of `n` bytes of `b` that starts at `i`.
-/

namespace KTeamOS

/-- A NUL-terminated string. -/
@[ext] structure CString where
  chars : List UInt8
  /-- The NUL is behind the characters. -/
  zero_notMem : 0 ∉ chars
  deriving DecidableEq

namespace CString

/-- The string in memory, from index 0 on. -/
def mem (s : CString) (i : ℕ) : UInt8 := s.chars[i]?.getD 0

variable {s : CString} {i : ℕ}

theorem mem_of_lt (h : i < s.chars.length) : s.mem i = s.chars[i] := by
  simp [mem, h]

theorem mem_mem_chars (h : i < s.chars.length) : s.mem i ∈ s.chars := by
  rw [mem_of_lt h]
  exact List.getElem_mem h

theorem mem_eq_zero_iff : s.mem i = 0 ↔ s.chars.length ≤ i := by
  by_cases hi : i < s.chars.length
  · rw [mem_of_lt hi]
    constructor
    · intro h0
      exact absurd (h0 ▸ List.getElem_mem hi) s.zero_notMem
    · intro hle
      omega
  · simp [mem, Nat.le_of_not_lt hi]

/-- The rest of the string from one of its characters on. -/
theorem drop_eq (h : s.mem i ≠ 0) : s.chars.drop i = s.mem i :: s.chars.drop (i + 1) := by
  have hi : i < s.chars.length := by
    by_contra hle
    exact h (mem_eq_zero_iff.2 (Nat.le_of_not_lt hle))
  rw [mem_of_lt hi]
  exact List.drop_eq_getElem_cons hi

theorem drop_eq_nil (h : s.mem i = 0) : s.chars.drop i = [] :=
  List.drop_eq_nil_of_le (mem_eq_zero_iff.1 h)

end CString

/-- The characters of the field of `n` bytes from `i` on, up to the first NUL. -/
def field (b : ℕ → UInt8) : ℕ → ℕ → List UInt8
  | 0, _ => []
  | n + 1, i => if b i = 0 then [] else b i :: field b n (i + 1)

variable {b b' : ℕ → UInt8} {n i : ℕ}

theorem field_length_le : (field b n i).length ≤ n := by
  induction n generalizing i with
  | zero => exact Nat.le_refl _
  | succ n ih =>
    rw [field]
    split_ifs
    · exact Nat.zero_le _
    · exact Nat.succ_le_succ ih

theorem zero_notMem_field : 0 ∉ field b n i := by
  induction n generalizing i with
  | zero => exact List.not_mem_nil
  | succ n ih =>
    rw [field]
    split_ifs with h0
    · exact List.not_mem_nil
    · rw [List.mem_cons, not_or]
      exact ⟨Ne.symm h0, ih⟩

theorem field_getElem {j : ℕ} (hj : j < (field b n i).length) :
    b (i + j) = (field b n i)[j] := by
  induction n generalizing i j with
  | zero => exact absurd hj (Nat.not_lt_zero j)
  | succ n ih =>
    by_cases h0 : b i = 0
    · simp [field, h0] at hj
    · cases j with
      | zero => simp [field, h0]
      | succ j =>
        have hj' : j < (field b n (i + 1)).length := by simpa [field, h0] using hj
        rw [← Nat.add_assoc, Nat.add_right_comm, ih hj']
        simp [field, h0]

theorem field_cons {c : UInt8} {l : List UInt8} (h : field b (n + 1) i = c :: l) :
    b i = c ∧ field b n (i + 1) = l := by
  rw [field] at h
  split_ifs at h
  exact List.cons.inj h

/-- The characters in front of the first NUL, given one by one. -/
theorem field_eq {l : List UInt8} (h0 : 0 ∉ l) (hn : l.length ≤ n)
    (hb : ∀ j (hj : j < l.length), b (i + j) = l[j])
    (hend : l.length < n → b (i + l.length) = 0) : field b n i = l := by
  induction l generalizing n i with
  | nil =>
    cases n with
    | zero => rfl
    | succ n => exact if_pos (hend (Nat.succ_pos n))
  | cons c l ih =>
    obtain ⟨n, rfl⟩ : ∃ m, n = m + 1 := ⟨n - 1, by simp only [List.length_cons] at hn; omega⟩
    have hc : b i = c := hb 0 (Nat.succ_pos _)
    have hne : b i ≠ 0 := fun h => h0 (by rw [← h, hc]; exact List.mem_cons_self ..)
    have hrest : field b n (i + 1) = l := by
      refine ih (fun h => h0 (List.mem_cons_of_mem _ h)) (Nat.le_of_succ_le_succ hn)
        (fun j hj => ?_) fun hlt => ?_
      · rw [Nat.add_right_comm]
        exact hb (j + 1) (Nat.succ_lt_succ hj)
      · rw [Nat.add_right_comm]
        exact hend (Nat.succ_lt_succ hlt)
    rw [field, if_neg hne, hrest, hc]

/-- A string that does not fill the field ends at a NUL. -/
theorem field_eq_zero {l : List UInt8} (h : field b n i = l) (hn : l.length < n) :
    b (i + l.length) = 0 := by
  induction l generalizing n i with
  | nil =>
    obtain ⟨n, rfl⟩ : ∃ m, n = m + 1 := ⟨n - 1, by simp only [List.length_nil] at hn; omega⟩
    by_contra hne
    have hcons : field b (n + 1) i = b i :: field b n (i + 1) := if_neg hne
    rw [hcons] at h
    cases h
  | cons c l ih =>
    obtain ⟨n, rfl⟩ : ∃ m, n = m + 1 := ⟨n - 1, by simp only [List.length_cons] at hn; omega⟩
    rw [field] at h
    split_ifs at h
    obtain ⟨-, hrest⟩ := List.cons.inj h
    rw [List.length_cons, Nat.add_comm l.length 1, ← Nat.add_assoc]
    exact ih hrest (Nat.lt_of_succ_lt_succ hn)

/-- The size of the field does not matter to a string that ends in it. -/
theorem field_eq_of_lt {l : List UInt8} {m : ℕ} (h : field b n i = l) (hn : l.length < n)
    (hm : l.length ≤ m) : field b m i = l := by
  subst h
  exact field_eq zero_notMem_field hm (fun j hj => field_getElem hj) fun _ => field_eq_zero rfl hn

/-- A string that fits is found again. -/
theorem field_mem {s : CString} (h : s.chars.length ≤ i + n) :
    field s.mem n i = s.chars.drop i := by
  induction n generalizing i with
  | zero => exact (List.drop_eq_nil_of_le h).symm
  | succ n ih =>
    rw [field]
    split_ifs with h0
    · exact (CString.drop_eq_nil h0).symm
    · rw [CString.drop_eq h0, ih (by omega)]

end KTeamOS
