import KTeamOS.LTS.Basic

/-!
# Machines whose steps commute

When steps with different labels do not disable each other and commute, one run to a state without
steps decides about all runs: each of them can be continued to that state, and then has as many
steps (`Commutes.exec_final`).  Sequential processes that talk over queues are such machines.
-/

namespace KTeamOS

namespace Machine

variable {S L : Type*} {M : Machine S L}

/-- Steps with different labels can be taken in either order. -/
def Commutes (M : Machine S L) : Prop :=
  ∀ s a b s₁ s₂, a ≠ b → M.step s a = some s₁ → M.step s b = some s₂ →
    ∃ t, M.step s₁ b = some t ∧ M.step s₂ a = some t

/-- No step is possible. -/
def Final (M : Machine S L) (s : S) : Prop := ∀ l, M.step s l = none

theorem exec_cons {s s' : S} {l : L} {ls : List L} :
    M.exec s (l :: ls) = some s' ↔ ∃ s₁, M.step s l = some s₁ ∧ M.exec s₁ ls = some s' := by
  simp only [exec, Option.bind_eq_some_iff]

theorem exec_append {s s₁ s₂ : S} {ls ls' : List L} (h : M.exec s ls = some s₁)
    (h' : M.exec s₁ ls' = some s₂) : M.exec s (ls ++ ls') = some s₂ := by
  induction ls generalizing s with
  | nil =>
    cases h
    exact h'
  | cons l ls ih =>
    obtain ⟨t, hst, hrest⟩ := exec_cons.1 h
    exact exec_cons.2 ⟨t, hst, ih hrest⟩

namespace Commutes

variable [DecidableEq L] (hM : M.Commutes) {s s' f : S}
include hM

/-- After any step the end of a run is still within reach, one step nearer. -/
theorem step_final {ls : List L} {l : L} (h : M.exec s ls = some f) (hf : M.Final f)
    (hst : M.step s l = some s') : ∃ ls', M.exec s' ls' = some f ∧ ls'.length + 1 = ls.length := by
  induction ls generalizing s s' with
  | nil =>
    cases h
    rw [hf l] at hst
    cases hst
  | cons a ls ih =>
    obtain ⟨s₁, ha, hrest⟩ := exec_cons.1 h
    by_cases hal : a = l
    · subst hal
      rw [ha] at hst
      cases hst
      exact ⟨ls, hrest, rfl⟩
    · -- take the step `l` first, then `a`
      obtain ⟨t, hl, ha'⟩ := hM s a l s₁ s' hal ha hst
      obtain ⟨ls', hexec, hlen⟩ := ih hrest hl
      exact ⟨a :: ls', exec_cons.2 ⟨t, ha', hexec⟩,
        by rw [List.length_cons, hlen, List.length_cons]⟩

/-- **One run decides.**  If a run ends where no step is possible, then every run from the same
state can be continued to the same end, with the same number of steps in all. -/
theorem exec_final {ls ks : List L} (h : M.exec s ls = some f) (hf : M.Final f)
    (hk : M.exec s ks = some s') :
    ∃ ls', M.exec s' ls' = some f ∧ ks.length + ls'.length = ls.length := by
  induction ks generalizing s ls with
  | nil =>
    cases hk
    exact ⟨ls, h, Nat.zero_add _⟩
  | cons k ks ih =>
    obtain ⟨s₁, hst, hrest⟩ := exec_cons.1 hk
    obtain ⟨ls₁, h₁, hlen₁⟩ := hM.step_final h hf hst
    obtain ⟨ls', h', hlen'⟩ := ih h₁ hrest
    refine ⟨ls', h', ?_⟩
    rw [List.length_cons]
    omega

/-- A reachable state without steps is the end of the run. -/
theorem eq_of_final {ls ks : List L} (h : M.exec s ls = some f) (hf : M.Final f)
    (hk : M.exec s ks = some s') (hs' : M.Final s') : s' = f := by
  obtain ⟨ls', h', -⟩ := hM.exec_final h hf hk
  cases ls' with
  | nil =>
    cases h'
    rfl
  | cons l ls' =>
    obtain ⟨t, hst, -⟩ := exec_cons.1 h'
    rw [hs' l] at hst
    cases hst

end Commutes

end Machine

end KTeamOS
