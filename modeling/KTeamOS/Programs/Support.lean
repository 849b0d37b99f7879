import Mathlib.Data.Int.Notation
import KTeamOS.Buffer.Checked
import KTeamOS.Text.CString

/-!
# String functions of the programs

Functions of `ece391support.c` on an array of `size` bytes; there is no result for an access behind
the array.

## Main results

* `strcpy_down` : a string is copied towards the start of its own array.
* `strncmp_eq_zero` : what a comparison with the first characters of a string decides.
-/

namespace KTeamOS

namespace Support

open Buffer

/-- `ece391_strcpy` within an array, if it ends within `n` turns. -/
def strcpy (size : ℕ) : (n dst src : ℕ) → (ℕ → UInt8) → Option (ℕ → UInt8)
  | 0, _, _, _ => none
  | n + 1, dst, src, b => do
    let c ← readIn size b src
    let b ← writeIn size b dst c
    if c = 0 then some b else strcpy size n (dst + 1) (src + 1) b

/-- `ece391_strncmp` of the array from `i` on with the string `s` from `j` on. -/
def strncmp (size : ℕ) (b s : ℕ → UInt8) : (n i j : ℕ) → Option ℤ
  | 0, _, _ => some 0
  | n + 1, i, j => do
    let c ← readIn size b i
    if c = s j then
      if c = 0 ∨ n = 0 then some 0 else strncmp size b s n (i + 1) (j + 1)
    else some ((c.toNat : ℤ) - (s j).toNat)

variable {size n dst src i j : ℕ} {b : ℕ → UInt8} {l : List UInt8} {s : CString}

/-- The loop of `ece391_strcpy` with a string behind the place it is copied to. -/
theorem strcpy_spec (size n dst : ℕ) (hl : Holds b src (l ++ [0])) (h0 : 0 ∉ l) (hlt : dst < src)
    (hsize : src + l.length < size) (hn : l.length < n) :
    ∃ b', strcpy size n dst src b = some b' ∧ Holds b' dst (l ++ [0]) ∧
      ∀ j, j < dst ∨ dst + l.length < j → b' j = b j := by
  induction l generalizing n dst src b with
  | nil =>
    obtain ⟨n, rfl⟩ := Nat.exists_eq_succ_of_ne_zero (Nat.ne_of_gt hn)
    have hc : b src = 0 := (holds_cons.1 hl).1
    refine ⟨Function.update b dst 0, ?_, ?_, fun j hj => ?_⟩
    · rw [strcpy, readIn_eq (by simpa using hsize), Option.bind_eq_bind, Option.bind_some,
        writeIn_eq (by omega), Option.bind_eq_bind, Option.bind_some, if_pos hc, hc]
    · exact holds_cons.2 ⟨Function.update_self .., holds_nil⟩
    · exact Function.update_of_ne (by simp only [List.length_nil] at hj; omega) ..
  | cons c l ih =>
    rw [List.length_cons] at hsize hn
    rw [List.mem_cons, not_or] at h0
    obtain ⟨n, rfl⟩ := Nat.exists_eq_succ_of_ne_zero (Nat.ne_of_gt (Nat.zero_lt_of_lt hn))
    obtain ⟨hc, hrest⟩ := holds_cons.1 hl
    -- the character that is written is not one that is still to be read
    have hkept : Holds (Function.update b dst c) (src + 1) (l ++ [0]) :=
      hrest.congr fun j hj _ => Function.update_of_ne (by omega) ..
    obtain ⟨b', hcopy, hholds, hframe⟩ := ih n (dst + 1) hkept h0.2 (by omega)
      (by omega) (by omega)
    refine ⟨b', ?_, ?_, fun j hj => ?_⟩
    · rw [strcpy, readIn_eq (by omega), Option.bind_eq_bind, Option.bind_some,
        writeIn_eq (by omega), Option.bind_eq_bind, Option.bind_some, hc,
        if_neg (Ne.symm h0.1), hcopy]
    · refine holds_cons.2 ⟨?_, hholds⟩
      rw [hframe dst (by omega), Function.update_self]
    · rw [List.length_cons] at hj
      rw [hframe j (by omega), Function.update_of_ne (by omega)]

/-- A string that `ece391_strncmp` looks for, from its character `j` on. -/
theorem strncmp_spec (hl : Holds b i (l ++ [0])) (h0 : 0 ∉ l) (hsize : i + l.length < size)
    (hn : s.chars.length = j + n) : ∃ v, strncmp size b s.mem n i j = some v ∧
      (v = 0 ↔ s.chars.drop j <+: l) := by
  induction n generalizing i j l with
  | zero =>
    refine ⟨0, rfl, iff_of_true rfl ?_⟩
    rw [List.drop_eq_nil_of_le (by omega)]
    exact List.nil_prefix
  | succ n ih =>
    have hj : s.mem j ≠ 0 := fun h => by
      rw [CString.mem_eq_zero_iff] at h
      omega
    have hne : s.chars.drop j = s.mem j :: s.chars.drop (j + 1) := CString.drop_eq hj
    rw [strncmp, readIn_eq (by omega), Option.bind_eq_bind, Option.bind_some]
    have hdiff : b i ≠ s.mem j → ((b i).toNat : ℤ) - (s.mem j).toNat ≠ 0 := by
      intro hb hzero
      exact hb (UInt8.toNat_inj.1 (by omega))
    cases l with
    | nil =>
      have hb : b i = 0 := (holds_cons.1 hl).1
      have hbs : b i ≠ s.mem j := fun h => hj (h.symm.trans hb)
      rw [if_neg hbs]
      refine ⟨_, rfl, iff_of_false (hdiff hbs) ?_⟩
      rw [hne, List.prefix_nil]
      exact List.cons_ne_nil _ _
    | cons c l =>
      rw [List.mem_cons, not_or] at h0
      obtain ⟨hb, hrest⟩ := holds_cons.1 hl
      rw [List.length_cons] at hsize
      rw [hne, List.cons_prefix_cons]
      by_cases hbs : b i = s.mem j
      · rw [if_pos hbs]
        by_cases hlast : n = 0
        · rw [if_pos (.inr hlast)]
          refine ⟨0, rfl, iff_of_true rfl ⟨hbs.symm.trans hb, ?_⟩⟩
          rw [List.drop_eq_nil_of_le (by omega)]
          exact List.nil_prefix
        · rw [if_neg (by rw [hbs]; tauto)]
          obtain ⟨v, hv, hpre⟩ := ih hrest h0.2 (by omega) (j := j + 1) (by omega)
          exact ⟨v, hv, by rw [hpre]; exact (and_iff_right (hbs.symm.trans hb)).symm⟩
      · rw [if_neg hbs]
        exact ⟨_, rfl, iff_of_false (hdiff hbs) fun h => hbs (hb.trans h.1.symm)⟩

end Support

end KTeamOS
