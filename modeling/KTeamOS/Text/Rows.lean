import Mathlib.Data.List.Basic
import Mathlib.Data.Nat.Notation
import Mathlib.Tactic.Common

/-!
# Text broken into rows

A text is broken into rows of at most `w` characters: behind the characters that end a row, which
are not part of it, and behind the `w`-th character of a row.  The last row is the one that the next
character goes to.
-/

namespace KTeamOS

variable {α : Type*}

/-- The rows of a text that starts behind the characters of `row`. -/
def breakRows (w : ℕ) (brk : α → Prop) [DecidablePred brk] (row : List α) :
    List α → List (List α)
  | [] => [row]
  | c :: cs =>
    if brk c then row :: breakRows w brk [] cs
    else if row.length + 1 = w then (row ++ [c]) :: breakRows w brk [] cs
    else breakRows w brk (row ++ [c]) cs

/-- The character in the column `x` of the row `r`. -/
def charAt (rows : List (List α)) (r x : ℕ) : Option α := rows[r]?.bind fun row => row[x]?

section breakRows

variable {w : ℕ} (brk : α → Prop) [DecidablePred brk] {row : List α} {c : α} {cs : List α}

theorem breakRows_brk (h : brk c) :
    breakRows w brk row (c :: cs) = row :: breakRows w brk [] cs := by
  rw [breakRows, if_pos h]

theorem breakRows_full (h : ¬ brk c) (hw : row.length + 1 = w) :
    breakRows w brk row (c :: cs) = (row ++ [c]) :: breakRows w brk [] cs := by
  rw [breakRows, if_neg h, if_pos hw]

theorem breakRows_plain (h : ¬ brk c) (hw : row.length + 1 ≠ w) :
    breakRows w brk row (c :: cs) = breakRows w brk (row ++ [c]) cs := by
  rw [breakRows, if_neg h, if_neg hw]

end breakRows

section charAt

variable {rows : List (List α)} {row : List α} {r x : ℕ}

/-- Rows followed by one more. -/
theorem charAt_concat : charAt (rows ++ [row]) r x =
    if r < rows.length then charAt rows r x else if r = rows.length then row[x]? else none := by
  unfold charAt
  by_cases hlt : r < rows.length
  · rw [if_pos hlt, List.getElem?_append_left hlt]
  · rw [if_neg hlt, List.getElem?_append_right (Nat.le_of_not_lt hlt)]
    by_cases heq : r = rows.length
    · rw [if_pos heq, heq, Nat.sub_self]
      rfl
    · have hpos : r - rows.length ≠ 0 := by omega
      obtain ⟨k, hk⟩ := Nat.exists_eq_succ_of_ne_zero hpos
      rw [if_neg heq, hk]
      rfl

theorem charAt_of_ge (h : rows.length ≤ r) : charAt rows r x = none := by
  unfold charAt
  rw [List.getElem?_eq_none h]
  rfl

/-- A further character of the last row. -/
theorem charAt_concat_char {c : α} : charAt (rows ++ [row ++ [c]]) r x =
    if r = rows.length ∧ x = row.length then some c else charAt (rows ++ [row]) r x := by
  rw [charAt_concat, charAt_concat]
  by_cases hlt : r < rows.length
  · rw [if_pos hlt, if_pos hlt, if_neg (by omega)]
  · rw [if_neg hlt, if_neg hlt]
    by_cases heq : r = rows.length
    · rw [if_pos heq, if_pos heq]
      by_cases hx : x = row.length
      · rw [if_pos ⟨heq, hx⟩, hx, List.getElem?_concat_length]
      · rw [if_neg fun h => hx h.2]
        by_cases hxlt : x < row.length
        · rw [List.getElem?_append_left hxlt]
        · have hlen : (row ++ [c]).length ≤ x := by
            rw [List.length_append, List.length_singleton]
            omega
          rw [List.getElem?_eq_none hlen, List.getElem?_eq_none (by omega)]
    · rw [if_neg heq, if_neg heq, if_neg fun h => heq h.1]

/-- An empty row at the end shows no character. -/
theorem charAt_concat_nil : charAt (rows ++ [[]]) r x = charAt rows r x := by
  rw [charAt_concat]
  by_cases hlt : r < rows.length
  · rw [if_pos hlt]
  · rw [if_neg hlt, charAt_of_ge (Nat.le_of_not_lt hlt), List.getElem?_nil, ite_self]

end charAt

end KTeamOS
