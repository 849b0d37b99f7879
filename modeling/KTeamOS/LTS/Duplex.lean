import KTeamOS.LTS.Confluence

/-!
# Two peers on a line

A peer reads a message, writes messages or stops, and what it does depends on its own state
only (`Peer`).  Two of them that are joined by a queue in each direction commute, so that one
run to the end decides about all orders of their steps.

## Main definitions

* `Peer S M`, `Peer.run` : peers with states `S` and messages `M`.
* `Peer.duplex P Q` : the machine of `P` and `Q` and the messages on the way to each.

## Main results

* `Peer.duplex_commutes` : the steps of the two peers commute.
* `Peer.right_invariant` : what `Q` keeps, whatever it reads, holds in every reachable state.
-/

namespace KTeamOS

/-- What a peer does next. -/
inductive Action (S M : Type*)
  /-- It waits for a message. -/
  | read (next : M → S × List M)
  | write (next : S) (out : List M)
  | stop

/-- What a peer does in each of its states. -/
abbrev Peer (S M : Type*) := S → Action S M

/-- The states of two peers, and the messages on the way to them. -/
structure Duplex (S T M : Type*) where
  left : S
  right : T
  toLeft : List M
  toRight : List M

/-- The peer that takes a step. -/
inductive Party
  | left
  | right
  deriving DecidableEq

namespace Peer

variable {S T M : Type*}

/-- The next step of a peer with `inbox` in front of it: its next state, what is left of the
inbox, and what it writes. -/
def run (P : Peer S M) (s : S) (inbox : List M) : Option (S × List M × List M) :=
  match P s with
  | .read next =>
    match inbox with
    | [] => none
    | m :: rest => some ((next m).1, rest, (next m).2)
  | .write s' out => some (s', inbox, out)
  | .stop => none

/-- Either party makes a step; what it sends is appended to what is on the way to the other one. -/
def duplex (P : Peer S M) (Q : Peer T M) : Machine (Duplex S T M) Party where
  step c
    | .left => (P.run c.left c.toLeft).map fun r => ⟨r.1, c.right, r.2.1, c.toRight ++ r.2.2⟩
    | .right => (Q.run c.right c.toRight).map fun r => ⟨c.left, r.1, c.toLeft ++ r.2.2, r.2.1⟩

section Run

variable {P : Peer S M} {s s' : S} {f : M → S × List M} {m : M}
  {inbox rest out more : List M}

theorem run_read (h : P s = .read f) :
    P.run s (m :: rest) = some ((f m).1, rest, (f m).2) := by
  unfold run
  rw [h]

theorem run_nil (h : P s = .read f) : P.run s [] = none := by
  unfold run
  rw [h]

theorem run_write (h : P s = .write s' out) : P.run s inbox = some (s', inbox, out) := by
  unfold run
  rw [h]

theorem run_stop (h : P s = .stop) : P.run s inbox = none := by
  unfold run
  rw [h]

/-- What arrives later does not change what a peer does now. -/
theorem run_append (h : P.run s inbox = some (s', rest, out)) :
    P.run s (inbox ++ more) = some (s', rest ++ more, out) := by
  cases hs : P s with
  | read f =>
    cases inbox with
    | nil =>
      rw [run_nil hs] at h
      cases h
    | cons m inbox =>
      rw [run_read hs] at h
      cases h
      exact run_read hs
  | write t ms =>
    rw [run_write hs] at h
    cases h
    exact run_write hs
  | stop =>
    rw [run_stop hs] at h
    cases h

end Run

section Duplex

variable {P : Peer S M} {Q : Peer T M} {s s' : S} {t t' : T}
  {i i' j j' out : List M} {c c' : Duplex S T M}

theorem step_left (h : P.run s i = some (s', i', out)) :
    (P.duplex Q).step ⟨s, t, i, j⟩ .left = some ⟨s', t, i', j ++ out⟩ :=
  congrArg (Option.map _) h

theorem step_right (h : Q.run t j = some (t', j', out)) :
    (P.duplex Q).step ⟨s, t, i, j⟩ .right = some ⟨s, t', i ++ out, j'⟩ :=
  congrArg (Option.map _) h

theorem step_left_eq_some (h : (P.duplex Q).step ⟨s, t, i, j⟩ .left = some c') :
    ∃ s' i' out, P.run s i = some (s', i', out) ∧ c' = ⟨s', t, i', j ++ out⟩ := by
  obtain ⟨⟨s', i', out⟩, hrun, hc'⟩ := Option.map_eq_some_iff.1 h
  exact ⟨s', i', out, hrun, hc'.symm⟩

theorem step_right_eq_some (h : (P.duplex Q).step ⟨s, t, i, j⟩ .right = some c') :
    ∃ t' j' out, Q.run t j = some (t', j', out) ∧ c' = ⟨s, t', i ++ out, j'⟩ := by
  obtain ⟨⟨t', j', out⟩, hrun, hc'⟩ := Option.map_eq_some_iff.1 h
  exact ⟨t', j', out, hrun, hc'.symm⟩

theorem final_iff :
    (P.duplex Q).Final ⟨s, t, i, j⟩ ↔ P.run s i = none ∧ Q.run t j = none := by
  constructor
  · intro h
    exact ⟨Option.map_eq_none_iff.1 (h .left), Option.map_eq_none_iff.1 (h .right)⟩
  · rintro ⟨hs, ht⟩ (_ | _)
    · exact Option.map_eq_none_iff.2 hs
    · exact Option.map_eq_none_iff.2 ht

/-- Two peers that can both take a step can do so in either order. -/
theorem duplex_commutes (P : Peer S M) (Q : Peer T M) : (P.duplex Q).Commutes := by
  have hswap : ∀ {c c₁ c₂ : Duplex S T M}, (P.duplex Q).step c .left = some c₁ →
      (P.duplex Q).step c .right = some c₂ →
      ∃ d, (P.duplex Q).step c₁ .right = some d ∧ (P.duplex Q).step c₂ .left = some d := by
    rintro ⟨s, t, i, j⟩ c₁ c₂ hleft hright
    obtain ⟨s', i', out, hs, rfl⟩ := step_left_eq_some hleft
    obtain ⟨t', j', out', ht, rfl⟩ := step_right_eq_some hright
    exact ⟨⟨s', t', i' ++ out', j' ++ out⟩, step_right (run_append ht), step_left (run_append hs)⟩
  intro c a b c₁ c₂ hab ha hb
  cases a <;> cases b
  · exact absurd rfl hab
  · exact hswap ha hb
  · obtain ⟨d, hd, hd'⟩ := hswap hb ha
    exact ⟨d, hd', hd⟩
  · exact absurd rfl hab

/-- An invariant of the right peer. -/
theorem right_invariant {I : T → Prop} (h : (P.duplex Q).Reachable c c') (h₀ : I c.right)
    (hrun : ∀ t j t' j' out, I t → Q.run t j = some (t', j', out) → I t') : I c'.right := by
  refine h.invariant (I := fun d => I d.right) h₀ ?_
  rintro ⟨s, t, i, j⟩ (_ | _) d hI _ hst
  · obtain ⟨s', i', out, -, rfl⟩ := step_left_eq_some hst
    exact hI
  · obtain ⟨t', j', out, ht, rfl⟩ := step_right_eq_some hst
    exact hrun t j t' j' out hI ht

end Duplex

end Peer

end KTeamOS
