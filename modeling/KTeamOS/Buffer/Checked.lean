import KTeamOS.Buffer.Basic

/-!
# Arrays with an end

The loops of `Buffer.Basic` on an array of `size` elements: an access behind the array has no
result, so that a loop with a result has stayed inside.

## Main results

* `fillIn_eq`, `reverseIn_eq` : inside of the array the checked loops are the loops.
* `stringIn_eq` : a string that ends in the array is read in it.
-/

namespace KTeamOS

namespace Buffer

section

variable {α : Type*}

/-- The read `b[i]`. -/
def readIn (size : ℕ) (b : ℕ → α) (i : ℕ) : Option α := if i < size then some (b i) else none

/-- The assignment `b[i] = c`. -/
def writeIn (size : ℕ) (b : ℕ → α) (i : ℕ) (c : α) : Option (ℕ → α) :=
  if i < size then some (Function.update b i c) else none

/-- `n` writes of `c`, from `p` on; none if one of them is outside. -/
def fillIn (size : ℕ) (b : ℕ → α) (p : ℕ) (c : α) : ℕ → Option (ℕ → α)
  | 0 => some b
  | n + 1 => do
    let b ← fillIn size b p c n
    writeIn size b (p + n) c

/-- The loop that exchanges the characters of a number from both ends, inside the buffer. -/
def reverseIn (size : ℕ) (b : ℕ → α) (p beg : ℕ) : ℕ → Option (ℕ → α)
  | 0 => some b
  | n + 1 =>
    if beg < n + 1 then do
      let tmp ← readIn size b (p + (n + 1))
      let c ← readIn size b (p + beg)
      let b ← writeIn size b (p + (n + 1)) c
      let b ← writeIn size b (p + beg) tmp
      reverseIn size b p (beg + 1) n
    else some b

/-- The elements from `p` on up to the first `stop`, which comes within `n` of them. -/
def stringIn [DecidableEq α] (size : ℕ) (b : ℕ → α) (stop : α) : (n p : ℕ) → Option (List α)
  | 0, _ => none
  | n + 1, p => do
    let c ← readIn size b p
    if c = stop then some []
    else
      let cs ← stringIn size b stop n (p + 1)
      some (c :: cs)

variable {size p i n : ℕ} {b : ℕ → α} {c stop : α} {cs : List α}

theorem readIn_eq (h : i < size) : readIn size b i = some (b i) := if_pos h

theorem writeIn_eq (h : i < size) : writeIn size b i c = some (Function.update b i c) := if_pos h

theorem fillIn_eq (h : p + n ≤ size) : fillIn size b p c n = some (fill b p c n) := by
  induction n with
  | zero => rfl
  | succ n ih =>
    rw [fillIn, ih (Nat.le_of_succ_le h)]
    exact writeIn_eq h

theorem reverseIn_eq (h : p + n < size) : reverseIn size b p i n = some (reverse b p i n) := by
  induction n generalizing b i with
  | zero => rfl
  | succ n ih =>
    rw [reverseIn, reverse]
    by_cases hlt : i < n + 1
    · have hi : p + i < size := by omega
      rw [if_pos hlt, if_pos hlt]
      simp only [readIn_eq h, readIn_eq hi, writeIn_eq h, writeIn_eq hi, Option.bind_eq_bind,
        Option.bind_some]
      exact ih (Nat.lt_of_succ_lt h)
    · rw [if_neg hlt, if_neg hlt]

theorem stringIn_eq [DecidableEq α] (h : Holds b p (cs ++ [stop])) (hstop : stop ∉ cs)
    (hsize : p + cs.length < size) (hn : cs.length < n) : stringIn size b stop n p = some cs := by
  induction cs generalizing n p with
  | nil =>
    obtain ⟨n, rfl⟩ := Nat.exists_eq_succ_of_ne_zero (Nat.ne_of_gt hn)
    have hp : b p = stop := (holds_cons.1 h).1
    change p < size at hsize
    rw [stringIn, readIn_eq hsize, Option.bind_eq_bind, Option.bind_some, if_pos hp]
  | cons c cs ih =>
    rw [List.length_cons] at hsize hn
    rw [List.mem_cons, not_or] at hstop
    obtain ⟨n, rfl⟩ := Nat.exists_eq_succ_of_ne_zero (Nat.ne_of_gt (Nat.zero_lt_of_lt hn))
    obtain ⟨hp, hrest⟩ := holds_cons.1 h
    have hne : ¬ b p = stop := fun e => hstop.1 (e.symm.trans hp)
    rw [stringIn, readIn_eq (by omega), Option.bind_eq_bind, Option.bind_some, if_neg hne,
      ih hrest hstop.2 (by omega) (Nat.lt_of_succ_lt_succ hn), hp]
    rfl

end

end Buffer

end KTeamOS
