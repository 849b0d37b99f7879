import Mathlib.Data.List.InsertIdx
import Mathlib.Data.Nat.Notation
import Mathlib.Logic.Function.Basic

/-!
# Arrays in memory

A memory is a map from addresses to values.  This file has the loops with which C code moves
array elements one by one, what they leave in the memory, and the list operations they amount
to.

## Main definitions

* `Holds b p l` : from the address `p` on, `b` holds the list `l`.
* `fill`, `copy`, `shiftRight`, `shiftLeft`, `reverse` : the loops.

## Main results

* `Holds.insert`, `Holds.erase` : shifting makes room for an element and closes the gap of one.
* `Holds.reverse` : the list is reversed.
-/

namespace KTeamOS

namespace Buffer

variable {α : Type*}

/-- From the address `p` on, `b` holds the elements of `l`. -/
def Holds (b : ℕ → α) (p : ℕ) (l : List α) : Prop := ∀ i (h : i < l.length), b (p + i) = l[i]

/-- `for (i = 0; i < n; i++) b[p + i] = c;` -/
def fill (b : ℕ → α) (p : ℕ) (c : α) : ℕ → ℕ → α
  | 0 => b
  | n + 1 => Function.update (fill b p c n) (p + n) c

/-- `for (i = 0; i < n; i++) b[p + i] = src[q + i];` with another array `src`. -/
def copy (b : ℕ → α) (p : ℕ) (src : ℕ → α) (q : ℕ) : ℕ → ℕ → α
  | 0 => b
  | n + 1 => Function.update (copy b p src q n) (p + n) (src (q + n))

/-- `for (i = n; i >= 0; i--) b[p + i + 1] = b[p + i];` -/
def shiftRight (b : ℕ → α) (p : ℕ) : ℕ → ℕ → α
  | 0 => Function.update b (p + 1) (b p)
  | n + 1 => shiftRight (Function.update b (p + (n + 1) + 1) (b (p + (n + 1)))) p n

/-- `for (i = 0; i < n; i++) b[p + i] = b[p + i + 1];` -/
def shiftLeft (b : ℕ → α) (p : ℕ) : ℕ → ℕ → α
  | 0 => b
  | n + 1 => Function.update (shiftLeft b p n) (p + n) (shiftLeft b p n (p + n + 1))

/-- `while (beg < end) { tmp = b[p + end]; b[p + end] = b[p + beg]; b[p + beg++] = tmp; end--; }`,
the last argument being `end`. -/
def reverse (b : ℕ → α) (p beg : ℕ) : ℕ → ℕ → α
  | 0 => b
  | n + 1 =>
    if beg < n + 1 then
      reverse (Function.update (Function.update b (p + (n + 1)) (b (p + beg))) (p + beg)
        (b (p + (n + 1)))) p (beg + 1) n
    else b

variable {b b' src : ℕ → α} {p q n i j : ℕ} {c : α} {l l₁ l₂ : List α}

theorem fill_apply : fill b p c n j = if p ≤ j ∧ j < p + n then c else b j := by
  induction n with
  | zero => rw [fill, if_neg (by omega)]
  | succ n ih =>
    rw [fill]
    by_cases hj : j = p + n
    · rw [hj, Function.update_self, if_pos (by omega)]
    · rw [Function.update_of_ne hj, ih]
      exact if_congr (by omega) rfl rfl

theorem copy_apply : copy b p src q n j = if p ≤ j ∧ j < p + n then src (q + (j - p)) else b j := by
  induction n with
  | zero => rw [copy, if_neg (by omega)]
  | succ n ih =>
    rw [copy]
    by_cases hj : j = p + n
    · rw [hj, Function.update_self, if_pos (by omega), Nat.add_sub_cancel_left]
    · rw [Function.update_of_ne hj, ih]
      exact if_congr (by omega) rfl rfl

/-- The loop runs downwards, so that it reads only what it has not written. -/
theorem shiftRight_apply :
    shiftRight b p n j = if p < j ∧ j ≤ p + n + 1 then b (j - 1) else b j := by
  induction n generalizing b with
  | zero =>
    rw [shiftRight]
    by_cases hj : j = p + 1
    · rw [hj, Function.update_self, if_pos (by omega), Nat.add_sub_cancel]
    · rw [Function.update_of_ne hj, if_neg (by omega)]
  | succ n ih =>
    rw [shiftRight, ih]
    by_cases hj : j = p + (n + 1) + 1
    · rw [hj, if_neg (by omega), if_pos (by omega), Function.update_self, Nat.add_sub_cancel]
    · by_cases hin : p < j ∧ j ≤ p + n + 1
      · rw [if_pos hin, if_pos (by omega), Function.update_of_ne (by omega)]
      · rw [if_neg hin, if_neg (by omega), Function.update_of_ne hj]

/-- The loop runs upwards, so that it reads only what it has not written. -/
theorem shiftLeft_apply :
    shiftLeft b p n j = if p ≤ j ∧ j < p + n then b (j + 1) else b j := by
  induction n generalizing j with
  | zero => rw [shiftLeft, if_neg (by omega)]
  | succ n ih =>
    rw [shiftLeft]
    by_cases hj : j = p + n
    · rw [hj, Function.update_self, ih, if_neg (by omega), if_pos (by omega)]
    · rw [Function.update_of_ne hj, ih]
      exact if_congr (by omega) rfl rfl

/-- The two ends meet in the middle, so that every element is moved once. -/
theorem reverse_apply :
    reverse b p i n j = if p + i ≤ j ∧ j ≤ p + n then b (p + (i + n - (j - p))) else b j := by
  induction n generalizing b i with
  | zero =>
    rw [reverse]
    split_ifs with hin
    · exact congrArg b (by omega)
    · rfl
  | succ n ih =>
    rw [reverse]
    by_cases hlt : i < n + 1
    · rw [if_pos hlt, ih]
      by_cases hin : p + (i + 1) ≤ j ∧ j ≤ p + n
      · -- what lies between the two ends is not written here
        rw [if_pos hin, if_pos (by omega), Function.update_of_ne (by omega),
          Function.update_of_ne (by omega)]
        exact congrArg b (by omega)
      · rw [if_neg hin]
        by_cases hbeg : j = p + i
        · rw [hbeg, Function.update_self, if_pos (by omega)]
          exact congrArg b (by omega)
        · rw [Function.update_of_ne hbeg]
          by_cases hend : j = p + (n + 1)
          · rw [hend, Function.update_self, if_pos (by omega)]
            exact congrArg b (by omega)
          · rw [Function.update_of_ne hend, if_neg (by omega)]
    · rw [if_neg hlt]
      split_ifs with hin
      · exact congrArg b (by omega)
      · rfl

/-! ### Lists in memory -/

theorem holds_nil : Holds b p [] := fun i h => absurd h (Nat.not_lt_zero i)

theorem holds_cons : Holds b p (c :: l) ↔ b p = c ∧ Holds b (p + 1) l := by
  constructor
  · refine fun h => ⟨h 0 (Nat.succ_pos _), fun i hi => ?_⟩
    rw [Nat.add_right_comm]
    exact h (i + 1) (Nat.succ_lt_succ hi)
  · rintro ⟨hc, h⟩ (_ | i) hi
    · exact hc
    · rw [← Nat.add_assoc, Nat.add_right_comm]
      exact h i (Nat.lt_of_succ_lt_succ hi)

theorem holds_concat : Holds b p (l ++ [c]) ↔ Holds b p l ∧ b (p + l.length) = c := by
  induction l generalizing p with
  | nil => simp [holds_cons, holds_nil]
  | cons a l ih =>
    rw [List.cons_append, holds_cons, holds_cons, ih, and_assoc, List.length_cons,
      Nat.add_assoc p 1, Nat.add_comm 1]

theorem holds_append : Holds b p (l₁ ++ l₂) ↔ Holds b p l₁ ∧ Holds b (p + l₁.length) l₂ := by
  induction l₁ generalizing p with
  | nil => exact ⟨fun h => ⟨holds_nil, h⟩, fun h => h.2⟩
  | cons a l ih =>
    rw [List.cons_append, holds_cons, holds_cons, ih, and_assoc, List.length_cons,
      Nat.add_assoc p 1, Nat.add_comm 1]

theorem holds_fill : Holds (fill b p c n) p (List.replicate n c) := by
  intro i hi
  rw [List.length_replicate] at hi
  rw [List.getElem_replicate, fill_apply, if_pos (by omega)]

theorem Holds.congr (h : Holds b p l) (hb : ∀ j, p ≤ j → j < p + l.length → b' j = b j) :
    Holds b' p l := by
  intro i hi
  rw [hb _ (Nat.le_add_right p i) (Nat.add_lt_add_left hi p)]
  exact h i hi

theorem Holds.concat (h : Holds b p l) : Holds (Function.update b (p + l.length) c) p (l ++ [c]) :=
  holds_concat.2 ⟨h.congr fun _ _ hj => Function.update_of_ne (Nat.ne_of_lt hj) ..,
    Function.update_self ..⟩

theorem Holds.map_range (h : Holds b 0 l) : (List.range l.length).map b = l := by
  refine List.ext_getElem (by rw [List.length_map, List.length_range]) fun i _ hi => ?_
  rw [List.getElem_map, List.getElem_range, ← h i hi, Nat.zero_add]

/-- **Insertion.**  The elements from `i` on move up by one, and `c` takes their first place. -/
theorem Holds.insert (h : Holds b p l) (hi : i ≤ l.length) (hc : b' (p + i) = c)
    (hb : ∀ j, j ≠ p + i → p ≤ j → j < p + l.length + 1 →
      b' j = shiftRight b (p + i) (l.length - i) j) :
    Holds b' p (l.insertIdx i c) := by
  intro j hj
  rw [List.length_insertIdx_of_le_length hi] at hj
  rw [List.getElem_insertIdx]
  by_cases hlt : j < i
  · rw [dif_pos hlt, hb _ (by omega) (by omega) (by omega), shiftRight_apply, if_neg (by omega)]
    exact h j (by omega)
  · rw [dif_neg hlt]
    by_cases heq : j = i
    · rw [dif_pos heq, heq, hc]
    · rw [dif_neg heq, hb _ (by omega) (by omega) (by omega), shiftRight_apply, if_pos (by omega)]
      rw [show p + j - 1 = p + (j - 1) by omega]
      exact h (j - 1) (by omega)

/-- **Removal.**  The elements behind `i` move down by one. -/
theorem Holds.erase (h : Holds b p l) (hi : i < l.length)
    (hb : ∀ j, p ≤ j → j < p + (l.length - 1) →
      b' j = if p + i ≤ j then b (j + 1) else b j) :
    Holds b' p (l.eraseIdx i) := by
  intro j hj
  rw [List.length_eraseIdx_of_lt hi] at hj
  rw [List.getElem_eraseIdx, hb _ (by omega) (by omega)]
  by_cases hlt : j < i
  · rw [dif_pos hlt, if_neg (by omega)]
    exact h j (by omega)
  · rw [dif_neg hlt, if_pos (by omega)]
    exact h (j + 1) (by omega)

/-- **Reversal.** -/
theorem Holds.reverse (h : Holds b p l) : Holds (reverse b p 0 (l.length - 1)) p l.reverse := by
  intro i hi
  rw [List.length_reverse] at hi
  rw [reverse_apply, if_pos (by omega), List.getElem_reverse,
    show 0 + (l.length - 1) - (p + i - p) = l.length - 1 - i by omega]
  exact h _ _

end Buffer

end KTeamOS
