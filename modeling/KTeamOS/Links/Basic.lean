import Mathlib.Data.List.Nodup
import Mathlib.Data.Option.Basic
import Mathlib.Logic.Function.Basic

/-!
# Linked lists in memory

A linked list in memory is a map `next : α → Option α` on nodes (`none` is NULL) together with
an anchor.  This file relates such maps to the lists of nodes they represent, for singly and
doubly linked lists, over any type of nodes.

## Main definitions

* `Path next p l q` : following `next` from the pointer `p` visits `l` and arrives at `q`.
* `IsList next p l` : following `next` from `p` visits `l` and then NULL.
* `cell next p c` : what the pointer variable `c` of the list holds, the anchor or a `next`.
* `Seg next prev p l q` : `l` is a doubly linked segment with predecessor `p` and successor `q`.
* `DList next prev l` : `l` is a doubly linked list.

## Main results

* `IsList.nodup` : a chain that reaches NULL visits no node twice.
* `IsList.walk` : a search along the list finds its first node that passes the test.
* `IsList.push`, `IsList.erase` : insertion in front, and removal through the pointer to a node.
* `IsList.push_mem`, `Path.not_isList` : a node that is put in front twice closes a circle, which
  never reaches NULL.
* `dList_iff` : `l` is doubly linked iff it is the chain of `next` and, reversed, that of `prev`.
* `DList.remove`, `DList.insert` : what the pointer updates of a removal and of an insertion do
  to the represented list.
-/

namespace KTeamOS

namespace Links

variable {α : Type*}

/-! ### Singly linked chains -/

/-- Following `next` from `p` visits exactly the nodes `l`, in order, and arrives at `q`. -/
def Path (next : α → Option α) : Option α → List α → Option α → Prop
  | p, [], q => p = q
  | p, a :: l, q => p = some a ∧ Path next (next a) l q

/-- Following `next` from `p` visits exactly the nodes `l`, in order, and then NULL. -/
abbrev IsList (next : α → Option α) (p : Option α) (l : List α) : Prop := Path next p l none

section Single

variable {next next' : α → Option α} {p q : Option α} {a b : α} {l l₁ l₂ : List α}

@[simp] theorem path_nil : Path next p [] q ↔ p = q := Iff.rfl

@[simp] theorem path_cons : Path next p (a :: l) q ↔ p = some a ∧ Path next (next a) l q := Iff.rfl

theorem Path.head (h : Path next p l q) : p = l.head?.or q := by
  cases l with
  | nil => simpa using h
  | cons a l => simpa using h.1

theorem path_append : Path next p (l₁ ++ l₂) q ↔ ∃ r, Path next p l₁ r ∧ Path next r l₂ q := by
  induction l₁ generalizing p with
  | nil => simp
  | cons a l₁ ih => simp only [List.cons_append, path_cons, ih]; tauto

/-- A path reads `next` only at the nodes it visits. -/
theorem Path.congr (h : Path next p l q) (he : ∀ b ∈ l, next' b = next b) : Path next' p l q := by
  induction l generalizing p with
  | nil => exact h
  | cons a l ih =>
    refine ⟨h.1, ?_⟩
    rw [he a List.mem_cons_self]
    exact ih h.2 fun b hb => he b (List.mem_cons_of_mem _ hb)

/-- A property that every link passes on holds at every node of a path that starts with it. -/
theorem Path.forall {P : α → Prop} (h : Path next p l q) (h₀ : ∀ b, p = some b → P b)
    (hs : ∀ b c, b ∈ l → P b → next b = some c → P c) : ∀ b ∈ l, P b := by
  induction l generalizing p with
  | nil => simp
  | cons a l ih =>
    obtain ⟨rfl, h⟩ := h
    have ha : P a := h₀ a rfl
    have hl := ih h (fun b hb => hs a b List.mem_cons_self ha hb)
      fun b c hb => hs b c (List.mem_cons_of_mem _ hb)
    simpa using ⟨ha, hl⟩

theorem IsList.unique (h₁ : IsList next p l₁) (h₂ : IsList next p l₂) : l₁ = l₂ := by
  induction l₁ generalizing p l₂ with
  | nil =>
    cases l₂ with
    | nil => rfl
    | cons b l₂ => obtain rfl : p = none := h₁; cases h₂.1
  | cons a l₁ ih =>
    cases l₂ with
    | nil => obtain rfl : p = none := h₂; cases h₁.1
    | cons b l₂ =>
      obtain rfl : a = b := Option.some.inj (h₁.1.symm.trans h₂.1)
      rw [ih h₁.2 h₂.2]

/-- A chain that reaches NULL visits no node twice: from the second visit on it would go on as
it did after the first. -/
theorem IsList.nodup (h : IsList next p l) : l.Nodup := by
  induction l generalizing p with
  | nil => exact List.nodup_nil
  | cons a l ih =>
    refine List.nodup_cons.2 ⟨fun ha => ?_, ih h.2⟩
    obtain ⟨s, t, rfl⟩ := List.append_of_mem ha
    obtain ⟨r, -, hr⟩ := path_append.1 h.2
    have hlen := congrArg List.length (IsList.unique h.2 hr.2)
    simp at hlen
    omega

/-- **Insertion** behind the node `b`. -/
theorem IsList.insert (h : IsList next p (l₁ ++ b :: l₂)) (ha : a ∉ l₁ ++ b :: l₂)
    (hb : next' b = some a) (hna : next' a = l₂.head?)
    (hn : ∀ x, x ≠ a → x ≠ b → next' x = next x) : IsList next' p (l₁ ++ b :: a :: l₂) := by
  have hnd := h.nodup
  simp only [List.nodup_append, List.nodup_cons, List.mem_append, List.mem_cons, not_or] at hnd ha
  obtain ⟨r, h₁, rfl, h₂⟩ := path_append.1 h
  refine path_append.2 ⟨some b, h₁.congr fun x hx => hn x ?_ ?_, rfl, ?_⟩
  · exact fun e => ha.1 (e ▸ hx)
  · exact fun e => hnd.2.2 x hx b (.inl rfl) e
  · refine ⟨hb, ?_⟩
    have h₃ := h₂.head
    rw [Option.or_none] at h₃
    rw [hna, ← h₃]
    refine h₂.congr fun x hx => hn x ?_ ?_
    · exact fun e => ha.2.2 (e ▸ hx)
    · exact fun e => hnd.2.1.1 (e ▸ hx)

/-- **Insertion** in front of the list. -/
theorem IsList.push (h : IsList next p l) (ha : a ∉ l) (hna : next' a = p)
    (hn : ∀ x, x ≠ a → next' x = next x) : IsList next' (some a) (a :: l) := by
  refine ⟨rfl, ?_⟩
  rw [hna]
  exact h.congr fun x hx => hn x fun e => ha (e ▸ hx)

/-- A node that is on the list already closes a circle when it is put in front. -/
theorem IsList.push_mem (h : IsList next p l) (ha : a ∈ l) (hna : next' a = p)
    (hn : ∀ x, x ≠ a → next' x = next x) : ∃ s, Path next' (some a) (a :: s) (some a) := by
  have hnd := h.nodup
  obtain ⟨s, t, rfl⟩ := List.append_of_mem ha
  obtain ⟨r, hs, rfl, -⟩ := path_append.1 h
  have has : a ∉ s := fun hx => (List.nodup_append.1 hnd).2.2 a hx a List.mem_cons_self rfl
  refine ⟨s, rfl, ?_⟩
  rw [hna]
  exact hs.congr fun x hx => hn x fun e => has (e ▸ hx)

/-- The nodes that can be reached from the anchor are those of the list. -/
theorem IsList.mem_iff (h : IsList next p l) : a ∈ l ↔ ∃ s, Path next p s (some a) := by
  constructor
  · intro ha
    obtain ⟨s, t, rfl⟩ := List.append_of_mem ha
    obtain ⟨r, hs, rfl, -⟩ := path_append.1 h
    exact ⟨s, hs⟩
  · rintro ⟨s, hs⟩
    induction s generalizing p l with
    | nil =>
      obtain rfl : p = some a := hs
      cases l with
      | nil => cases h
      | cons c l => exact Option.some.inj h.1 ▸ List.mem_cons_self
    | cons b s ih =>
      obtain ⟨rfl, hs⟩ := hs
      cases l with
      | nil => cases h
      | cons c l =>
        obtain rfl : b = c := Option.some.inj h.1
        exact List.mem_cons_of_mem b (ih h.2 hs)

/-- A circle does not reach NULL. -/
theorem Path.not_isList (h : Path next p (a :: l₁) p) : ¬ IsList next p l := by
  intro hl
  have hlen := congrArg List.length (IsList.unique hl (path_append.2 ⟨p, h, hl⟩))
  simp at hlen
  omega

/-- The pointer variables of a list: the anchor, or the `next` of a node. -/
def cell (next : α → Option α) (p : Option α) : Option α → Option α
  | none => p
  | some b => next b

/-- **Removal** of a node, through the pointer that leads to it. -/
theorem IsList.erase {p' : Option α} (h : IsList next p (l₁ ++ a :: l₂))
    (hc : cell next' p' l₁.getLast? = next a)
    (hn : ∀ c, c ≠ l₁.getLast? → c ≠ some a → cell next' p' c = cell next p c) :
    IsList next' p' (l₁ ++ l₂) := by
  have hnd := h.nodup
  simp only [List.nodup_append, List.nodup_cons, List.mem_cons] at hnd
  obtain ⟨r, h₁, rfl, h₂⟩ := path_append.1 h
  have h₂' : Path next' (next a) l₂ none := by
    refine h₂.congr fun x hx => hn (some x) (fun e => ?_) fun e => ?_
    · exact hnd.2.2 x (List.mem_of_getLast? e.symm) x (.inr hx) rfl
    · exact hnd.2.1.1 (Option.some.inj e ▸ hx)
  obtain rfl | ⟨l₃, b, rfl⟩ := l₁.eq_nil_or_concat
  · have hp : p' = next a := hc
    rw [hp]
    exact h₂'
  · rw [List.concat_eq_append] at *
    rw [List.getLast?_concat] at hc hn
    have hp : p' = p := hn none nofun nofun
    rw [hp]
    obtain ⟨r, h₃, rfl, -⟩ := path_append.1 h₁
    refine path_append.2 ⟨next a, path_append.2 ⟨some b, h₃.congr fun x hx => ?_, rfl, hc⟩, h₂'⟩
    refine hn (some x) (fun e => ?_) fun e => ?_
    · rw [List.append_assoc, List.singleton_append] at h
      have hnd' := h.nodup
      rw [List.nodup_append] at hnd'
      exact hnd'.2.2 x hx b List.mem_cons_self (Option.some.inj e)
    · exact hnd.2.2 x (List.mem_append_left _ hx) a (.inl rfl) (Option.some.inj e)

/-- **Removal** of the node behind `b`. -/
theorem IsList.remove (h : IsList next p (l₁ ++ b :: a :: l₂)) (hb : next' b = next a)
    (hn : ∀ x, x ≠ b → next' x = next x) : IsList next' p (l₁ ++ b :: l₂) := by
  have hlast : (l₁ ++ [b]).getLast? = some b := List.getLast?_concat ..
  rw [List.append_cons] at h ⊢
  refine h.erase (by rw [hlast]; exact hb) fun c hc _ => ?_
  cases c with
  | none => rfl
  | some x => exact hn x fun e => hc (by rw [hlast, e])

end Single

/-- The loop `while (p != NULL && !test(p)) p = p->next;`, if it ends within `n` turns. -/
def walk (next : α → Option α) (test : α → Bool) : ℕ → Option α → Option (Option α)
  | _, none => some none
  | 0, some _ => none
  | n + 1, some a => if test a then some (some a) else walk next test n (next a)

/-- On a list the loop finds the first node that passes the test. -/
theorem IsList.walk {next : α → Option α} {test : α → Bool} {p : Option α} {l : List α} {n : ℕ}
    (h : IsList next p l) (hn : l.length ≤ n) : walk next test n p = some (l.find? test) := by
  induction l generalizing n p with
  | nil =>
    obtain rfl : p = none := h
    cases n <;> rfl
  | cons a l ih =>
    obtain ⟨rfl, h⟩ := h
    cases n with
    | zero => cases hn
    | succ n =>
      rw [Links.walk, List.find?_cons]
      cases test a with
      | true => rfl
      | false => exact ih h (Nat.le_of_succ_le_succ hn)

/-! ### Doubly linked segments -/

/-- `l` is a doubly linked segment: its first node points back to `p`, its last one on to `q`,
and neighbours point to each other. -/
def Seg (next prev : α → Option α) : Option α → List α → Option α → Prop
  | _, [], _ => True
  | p, a :: l, q => prev a = p ∧ next a = l.head?.or q ∧ Seg next prev (some a) l q

/-- `l` is a doubly linked list. -/
abbrev DList (next prev : α → Option α) (l : List α) : Prop := Seg next prev none l none

section Double

variable {next prev next' prev' : α → Option α} {p q : Option α} {a b c : α} {l l₁ l₂ : List α}

@[simp] theorem seg_nil : Seg next prev p [] q := trivial

@[simp] theorem seg_cons : Seg next prev p (a :: l) q ↔
    prev a = p ∧ next a = l.head?.or q ∧ Seg next prev (some a) l q := Iff.rfl

theorem seg_append : Seg next prev p (l₁ ++ l₂) q ↔
    Seg next prev p l₁ (l₂.head?.or q) ∧ Seg next prev (l₁.getLast?.or p) l₂ q := by
  induction l₁ generalizing p with
  | nil => simp
  | cons a l₁ ih =>
    have hlast : (a :: l₁).getLast?.or p = l₁.getLast?.or (some a) := by
      rw [List.getLast?_cons]
      cases l₁.getLast? <;> rfl
    simp only [List.cons_append, seg_cons, ih, List.head?_append, Option.or_assoc, hlast, and_assoc]

theorem Seg.congr (h : Seg next prev p l q) (hn : ∀ b ∈ l, next' b = next b)
    (hp : ∀ b ∈ l, prev' b = prev b) : Seg next' prev' p l q := by
  induction l generalizing p with
  | nil => trivial
  | cons a l ih =>
    obtain ⟨h1, h2, h3⟩ := h
    refine ⟨(hp a List.mem_cons_self).trans h1, (hn a List.mem_cons_self).trans h2, ih h3 ?_ ?_⟩
    · exact fun b hb => hn b (List.mem_cons_of_mem _ hb)
    · exact fun b hb => hp b (List.mem_cons_of_mem _ hb)

/-- A segment is a forward path and, reversed, a backward one. -/
theorem seg_iff : Seg next prev p l q ↔
    Path next (l.head?.or q) l q ∧ Path prev (l.getLast?.or p) l.reverse p := by
  induction l generalizing p with
  | nil => simp
  | cons a l ih =>
    have hlast : (a :: l).getLast?.or p = l.getLast?.or (some a) := by
      rw [List.getLast?_cons]
      cases l.getLast? <;> rfl
    rw [seg_cons, ih, hlast, List.reverse_cons, path_append]
    constructor
    · rintro ⟨h1, h2, h3, h4⟩
      exact ⟨⟨rfl, h2 ▸ h3⟩, some a, h4, rfl, h1⟩
    · rintro ⟨⟨-, h2⟩, r, h4, rfl, h1⟩
      have h5 := h2.head
      exact ⟨h1, h5, h5 ▸ h2, h4⟩

theorem dList_iff : DList next prev l ↔
    IsList next l.head? l ∧ IsList prev l.getLast? l.reverse := by
  rw [DList, seg_iff, Option.or_none, Option.or_none]

theorem DList.nodup (h : DList next prev l) : l.Nodup := (dList_iff.1 h).1.nodup

/-- The middle of a doubly linked list, read off. -/
theorem dList_mid : DList next prev (l₁ ++ a :: l₂) ↔
    Seg next prev none l₁ (some a) ∧ prev a = l₁.getLast? ∧ next a = l₂.head? ∧
      Seg next prev (some a) l₂ none := by
  rw [DList, seg_append, seg_cons]
  simp

theorem DList.next_mid (h : DList next prev (l₁ ++ a :: l₂)) : next a = l₂.head? :=
  (dList_mid.1 h).2.2.1

theorem DList.prev_mid (h : DList next prev (l₁ ++ a :: l₂)) : prev a = l₁.getLast? :=
  (dList_mid.1 h).2.1

/-- The neighbours of a node point back to it. -/
theorem DList.next_prev (h : DList next prev l) (ha : a ∈ l) (hp : prev a = some b) :
    b ∈ l ∧ next b = some a := by
  obtain ⟨l₁, l₂, rfl⟩ := List.append_of_mem ha
  rw [h.prev_mid] at hp
  obtain ⟨l₃, rfl⟩ : ∃ l₃, l₁ = l₃ ++ [b] := List.getLast?_eq_some_iff.1 hp
  rw [List.append_assoc, List.singleton_append] at h
  exact ⟨by simp, by simpa using h.next_mid⟩

/-- **Removal.**  Linking the neighbours of a node past it removes it from the list. -/
theorem DList.remove (h : DList next prev (l₁ ++ b :: a :: c :: l₂)) (hnb : next' b = some c)
    (hpc : prev' c = some b) (hn : ∀ x, x ≠ a → x ≠ b → next' x = next x)
    (hp : ∀ x, x ≠ a → x ≠ c → prev' x = prev x) : DList next' prev' (l₁ ++ b :: c :: l₂) := by
  have hnd := h.nodup
  simp only [List.nodup_append, List.nodup_cons, List.mem_cons, not_or] at hnd
  rw [dList_mid] at h ⊢
  simp only [seg_cons, List.head?_cons] at h ⊢
  obtain ⟨h1, h2, -, -, -, -, h3, h4⟩ := h
  refine ⟨h1.congr ?_ ?_, ?_, hnb, hpc, ?_, h4.congr ?_ ?_⟩
  · exact fun x hx => hn x (by grind) (by grind)
  · exact fun x hx => hp x (by grind) (by grind)
  · rwa [hp b (by grind) (by grind)]
  · rwa [hn c (by grind) (by grind)]
  · exact fun x hx => hn x (by grind) (by grind)
  · exact fun x hx => hp x (by grind) (by grind)

/-- **Insertion** of a node between two neighbours. -/
theorem DList.insert (h : DList next prev (l₁ ++ b :: c :: l₂)) (ha : a ∉ l₁ ++ b :: c :: l₂)
    (hna : next' a = some c) (hnb : next' b = some a) (hpa : prev' a = some b)
    (hpc : prev' c = some a) (hn : ∀ x, x ≠ a → x ≠ b → next' x = next x)
    (hp : ∀ x, x ≠ a → x ≠ c → prev' x = prev x) :
    DList next' prev' (l₁ ++ b :: a :: c :: l₂) := by
  have hnd := h.nodup
  simp only [List.nodup_append, List.nodup_cons, List.mem_cons, List.mem_append, not_or] at hnd ha
  rw [dList_mid] at h ⊢
  simp only [seg_cons, List.head?_cons] at h ⊢
  obtain ⟨h1, h2, -, -, h3, h4⟩ := h
  refine ⟨h1.congr ?_ ?_, ?_, hnb, hpa, hna, hpc, ?_, h4.congr ?_ ?_⟩
  · exact fun x hx => hn x (by grind) (by grind)
  · exact fun x hx => hp x (by grind) (by grind)
  · rwa [hp b (by grind) (by grind)]
  · rwa [hn c (by grind) (by grind)]
  · exact fun x hx => hn x (by grind) (by grind)
  · exact fun x hx => hp x (by grind) (by grind)

end Double

end Links

end KTeamOS
