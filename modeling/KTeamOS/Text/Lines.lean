import Mathlib.Data.List.Basic
import Mathlib.Data.Nat.Notation
import Mathlib.Tactic.Common

/-!
# Lines

A text is read line by line: its first line has no separator in it, and behind it the text ends, or
a separator and another text follow (`exists_line`).  `zipPadded` goes through two lists in step
until both have ended, with a filler for the one that ends first, as a program does that compares
two texts.

## Main results

* `exists_line` : the first line of a text, against `List.splitOn`.
* `zipPadded_cons` : one turn through two lists.
* `mem_zipPadded`, `pairwise_zipPadded` : what comes out of them.
-/

namespace KTeamOS

variable {α β : Type*}

/-- What follows a line: the end, or a separator and another text. -/
def behindLine (sep : α) : Option (List α) → List α
  | none => []
  | some t => sep :: t

/-- The lines of the text that follows, if one does. -/
def linesBehind [BEq α] (sep : α) : Option (List α) → List (List α)
  | none => []
  | some t => t.splitOn sep

/-- Every text has a first line. -/
theorem exists_line [BEq α] [LawfulBEq α] (sep : α) (t : List α) : ∃ l t', sep ∉ l ∧
    t = l ++ behindLine sep t' ∧ t.splitOn sep = l :: linesBehind sep t' := by
  by_cases h : sep ∈ t
  · obtain ⟨l, t', rfl, hl⟩ := List.eq_append_cons_of_mem h
    exact ⟨l, some t', hl, rfl, List.splitOn_append_cons_self_of_not_mem hl t'⟩
  · exact ⟨t, none, h, (List.append_nil t).symm, List.splitOn_eq_singleton h⟩

section splitOn

variable [BEq α] [LawfulBEq α] {sep : α} {t : List α}

/-- The lines and the separators between them are the text. -/
theorem length_splitOn (sep : α) (t : List α) : (t.splitOn sep).length ≤ t.length + 1 ∧
    ∀ l ∈ t.splitOn sep, l.length ≤ t.length := by
  induction t with
  | nil => simp
  | cons c t ih =>
    obtain ⟨l, t', -, -, hlines⟩ := exists_line sep t
    rw [List.splitOn_cons_eq_if_modifyHead]
    rw [hlines] at ih ⊢
    obtain ⟨hnum, hlen⟩ := ih
    rw [List.length_cons] at hnum ⊢
    obtain ⟨hl, hrest⟩ := List.forall_mem_cons.1 hlen
    split_ifs
    · refine ⟨by rw [List.length_cons, List.length_cons]; omega, ?_⟩
      refine List.forall_mem_cons.2 ⟨Nat.zero_le _, fun m hm => Nat.le_succ_of_le (hlen m hm)⟩
    · rw [List.modifyHead_cons, List.length_cons]
      refine ⟨by omega, List.forall_mem_cons.2 ⟨?_, fun m hm => Nat.le_succ_of_le (hrest m hm)⟩⟩
      rw [List.length_cons]
      omega

end splitOn

/-! ### Two lists in step -/

/-- The turns of a walk through two lists, the shorter one continued with `a`. -/
def zipPadded (f : ℕ → α → α → List β) (a : α) (l m : List α) : List β :=
  (List.range (max l.length m.length)).flatMap fun i => f i (l.getD i a) (m.getD i a)

section zipPadded

variable {f : ℕ → α → α → List β} {a : α} {l m : List α} {b : β}

@[simp] theorem zipPadded_nil : zipPadded f a [] [] = [] := rfl

/-- The first turn, and the others. -/
theorem zipPadded_cons (h : ¬ (l = [] ∧ m = [])) : zipPadded f a l m =
    f 0 (l.headD a) (m.headD a) ++ zipPadded (fun i => f (i + 1)) a l.tail m.tail := by
  have hlen : max l.length m.length = max l.tail.length m.tail.length + 1 := by
    rw [List.length_tail, List.length_tail]
    have hpos : 0 < l.length ∨ 0 < m.length := by
      rw [List.length_pos_iff, List.length_pos_iff]
      tauto
    omega
  have hhead : ∀ l : List α, l.getD 0 a = l.headD a := fun l => by cases l <;> rfl
  have htail : ∀ (l : List α) (i : ℕ), l.getD (i + 1) a = l.tail.getD i a :=
    fun l i => by cases l <;> rfl
  rw [zipPadded, hlen, List.range_succ_eq_map, List.flatMap_cons, hhead, hhead, List.flatMap_map]
  refine congrArg _ (List.flatMap_congr fun i _ => ?_)
  rw [← htail, ← htail]

theorem mem_zipPadded : b ∈ zipPadded f a l m ↔
    ∃ i, i < max l.length m.length ∧ b ∈ f i (l.getD i a) (m.getD i a) := by
  simp [zipPadded]

/-- What comes out of one turn or of different ones is related. -/
theorem pairwise_zipPadded {R : β → β → Prop}
    (hin : ∀ i < max l.length m.length, (f i (l.getD i a) (m.getD i a)).Pairwise R)
    (hout : ∀ i j, i < j → j < max l.length m.length → ∀ x ∈ f i (l.getD i a) (m.getD i a),
      ∀ y ∈ f j (l.getD j a) (m.getD j a), R x y) : (zipPadded f a l m).Pairwise R := by
  rw [zipPadded, List.pairwise_flatMap]
  refine ⟨fun i hi => hin i (List.mem_range.1 hi), ?_⟩
  exact List.pairwise_lt_range.imp_of_mem fun _ hj hlt => hout _ _ hlt (List.mem_range.1 hj)

end zipPadded

end KTeamOS
