import Mathlib.Logic.Relation

/-!
# Machines and runs

A `Machine` moves by a partial step function: `step s l = none` says that the label `l` is not
possible in `s`, or that what the program does after it is undefined.  Every run of the kernel,
of its heap, of its window list and of its line editor is a run of such a machine, and every
safety property is proved by one of the rules below.

## Main definitions

* `Machine.Reach C s₀ s` : `s` is reached from `s₀` by steps that all meet the condition `C`.
* `Machine.exec` : executable runs along a list of labels, used to *refute* properties.
* `Machine.States P s ls`, `Machine.Steps C s ls` : `P` holds in every state, `C` at every step,
  of the run along `ls`.

## Main results

* `Machine.Reach.invariant` : a predicate that every allowed step preserves holds in every
  reached state.
* `Machine.steps_iff_steps` : conditions that agree under an invariant hold along the same runs.
* `Machine.states_iff_states` : predicates that agree under an invariant hold along the same runs.
* `Machine.states_iff_steps` : when a step keeps `P` exactly if it meets `C`, a run keeps `P`
  throughout exactly if all its steps meet `C`.
-/

namespace KTeamOS

/-- A deterministic machine with states `S` and labels `L`. -/
structure Machine (S : Type*) (L : Type*) where
  /-- `step s l` : the state after performing `l` in `s`, if there is one. -/
  step : S → L → Option S

namespace Machine

variable {S L : Type*} (M : Machine S L)

/-- `s` is reached from `s₀` in zero or more steps, each of which meets `C` in the state where
it is taken. -/
inductive Reach (C : S → L → Prop) (s₀ : S) : S → Prop
  | refl : Reach C s₀ s₀
  | tail {s s' : S} {l : L} : Reach C s₀ s → C s l → M.step s l = some s' → Reach C s₀ s'

/-- Reachability with no condition on the steps. -/
abbrev Reachable (s₀ s : S) : Prop := M.Reach (fun _ _ => True) s₀ s

/-- The state after the labels `ls`, if all of them are possible. -/
def exec : S → List L → Option S
  | s, [] => some s
  | s, l :: ls => (M.step s l).bind fun s' => exec s' ls

/-- `P` holds in every state of the run from `s` along `ls`. -/
def States (P : S → Prop) : S → List L → Prop
  | s, [] => P s
  | s, l :: ls => P s ∧ ∀ s', M.step s l = some s' → States P s' ls

/-- `C` holds at every step of the run from `s` along `ls`. -/
def Steps (C : S → L → Prop) : S → List L → Prop
  | _, [] => True
  | s, l :: ls => ∀ s', M.step s l = some s' → C s l ∧ Steps C s' ls

instance States.decidable (P : S → Prop) [∀ s, Decidable (P s)] :
    (s : S) → (ls : List L) → Decidable (M.States P s ls)
  | s, [] => inferInstanceAs (Decidable (P s))
  | s, l :: ls =>
    match hst : M.step s l with
    | none => decidable_of_iff (P s) (by simp [States, hst])
    | some s' =>
      have := States.decidable P s' ls
      decidable_of_iff (P s ∧ M.States P s' ls) (by simp [States, hst])

instance Steps.decidable (C : S → L → Prop) [∀ s l, Decidable (C s l)] :
    (s : S) → (ls : List L) → Decidable (M.Steps C s ls)
  | _, [] => isTrue trivial
  | s, l :: ls =>
    match hst : M.step s l with
    | none => isTrue fun s' hs' => by rw [hst] at hs'; cases hs'
    | some s' =>
      have := Steps.decidable C s' ls
      decidable_of_iff (C s l ∧ M.Steps C s' ls) (by simp [Steps, hst])

variable {M}

namespace Reach

variable {C D : S → L → Prop} {s₀ s s' : S}

theorem head {l : L} (hC : C s₀ l) (hst : M.step s₀ l = some s) (h : M.Reach C s s') :
    M.Reach C s₀ s' := by
  induction h with
  | refl => exact .tail .refl hC hst
  | tail _ hC' hst' ih => exact ih.tail hC' hst'

theorem trans {s₁ : S} (h : M.Reach C s₀ s) (h' : M.Reach C s s₁) : M.Reach C s₀ s₁ := by
  induction h' with
  | refl => exact h
  | tail _ hC hst ih => exact ih.tail hC hst

/-- **Inductive invariants.**  A predicate that holds initially and that every step meeting `C`
preserves holds in every reached state. -/
theorem invariant {I : S → Prop} (h : M.Reach C s₀ s) (h₀ : I s₀)
    (hstep : ∀ s l s', I s → C s l → M.step s l = some s' → I s') : I s := by
  induction h with
  | refl => exact h₀
  | tail _ hC hst ih => exact hstep _ _ _ ih hC hst

end Reach

theorem reachable_of_exec {s s' : S} {ls : List L} (h : M.exec s ls = some s') :
    M.Reachable s s' := by
  induction ls generalizing s with
  | nil => cases h; exact .refl
  | cons l ls ih =>
    simp only [exec, Option.bind_eq_some_iff] at h
    obtain ⟨s₁, hst, hrest⟩ := h
    exact .head trivial hst (ih hrest)

theorem Reachable.exists_exec {s s' : S} (h : M.Reachable s s') : ∃ ls, M.exec s ls = some s' := by
  have snoc : ∀ (ls : List L) (s s₁ s₂ : S) (l : L), M.exec s ls = some s₁ →
      M.step s₁ l = some s₂ → M.exec s (ls ++ [l]) = some s₂ := by
    intro ls
    induction ls with
    | nil => intro s s₁ s₂ l h hst; cases h; simp [exec, hst]
    | cons a ls ih =>
      intro s s₁ s₂ l h hst
      simp only [exec, Option.bind_eq_some_iff, List.cons_append] at h ⊢
      obtain ⟨s', ha, hrest⟩ := h
      exact ⟨s', ha, ih _ _ _ _ hrest hst⟩
  induction h with
  | refl => exact ⟨[], rfl⟩
  | @tail s₁ s₂ l _ _ hst ih =>
    obtain ⟨ls, hls⟩ := ih
    exact ⟨ls ++ [l], snoc ls _ _ _ _ hls hst⟩

/-- The end of a run whose steps meet `C`. -/
theorem Steps.reach {C : S → L → Prop} {s s' : S} {ls : List L} (h : M.Steps C s ls)
    (he : M.exec s ls = some s') : M.Reach C s s' := by
  induction ls generalizing s with
  | nil => cases he; exact .refl
  | cons l ls ih =>
    simp only [exec, Option.bind_eq_some_iff] at he
    obtain ⟨s₁, hst, hrest⟩ := he
    obtain ⟨hC, hsteps⟩ := h s₁ hst
    exact .head hC hst (ih hsteps hrest)

/-- The condition at the last step of a run. -/
theorem Steps.last {C : S → L → Prop} {s s' s'' : S} {ls : List L} {l : L}
    (h : M.Steps C s (ls ++ [l])) (he : M.exec s ls = some s') (hst : M.step s' l = some s'') :
    C s' l := by
  induction ls generalizing s with
  | nil => cases he; exact (h _ hst).1
  | cons a ls ih =>
    simp only [exec, Option.bind_eq_some_iff] at he
    obtain ⟨s₁, ha, hrest⟩ := he
    exact ih (h s₁ ha).2 hrest

theorem States.head {P : S → Prop} {s : S} {ls : List L} (h : M.States P s ls) : P s := by
  cases ls with
  | nil => exact h
  | cons l ls => exact h.1

/-- A run that keeps `P` in all its states ends in a state with `P`. -/
theorem States.exec {P : S → Prop} {s s' : S} {ls : List L} (h : M.States P s ls)
    (he : M.exec s ls = some s') : P s' := by
  induction ls generalizing s with
  | nil => cases he; exact h
  | cons l ls ih =>
    simp only [Machine.exec, Option.bind_eq_some_iff] at he
    obtain ⟨s₁, hst, hrest⟩ := he
    exact ih (h.2 s₁ hst) hrest

/-- What the end of a run, computed from an initial state, shows about its states. -/
theorem exists_not_states {A : Type*} {P : S → Prop} {f : S → A} {a : A} {o : Option S}
    {ls : List L} (h : (o.bind fun s => (M.exec s ls).map f) = some a)
    (hP : ∀ s, f s = a → ¬ P s) : ∃ s₀, o = some s₀ ∧ ¬ M.States P s₀ ls := by
  obtain ⟨s₀, ho, h⟩ := Option.bind_eq_some_iff.1 h
  obtain ⟨s, hexec, hf⟩ := Option.map_eq_some_iff.1 h
  exact ⟨s₀, ho, fun hstates => hP s hf (hstates.exec hexec)⟩

/-- What follows from an invariant holds in every state of a run. -/
theorem states_of_invariant {I P : S → Prop} (hI : ∀ s l s', I s → M.step s l = some s' → I s')
    (hP : ∀ s, I s → P s) {s : S} (hs : I s) (ls : List L) : M.States P s ls := by
  induction ls generalizing s with
  | nil => exact hP s hs
  | cons l ls ih => exact ⟨hP s hs, fun s' hst => ih (hI s l s' hs hst)⟩

/-- **Step conditions that keep an invariant.**  In a run whose steps all meet `C`, what follows
from the invariant holds in all states, and what a step from it does is done by all steps. -/
theorem states_steps_of_steps {I P : S → Prop} {C D : S → L → Prop}
    (hstep : ∀ s l s', I s → C s l → M.step s l = some s' → I s' ∧ D s l)
    (hP : ∀ s, I s → P s) {s : S} (hs : I s) {ls : List L} (h : M.Steps C s ls) :
    M.States P s ls ∧ M.Steps D s ls := by
  induction ls generalizing s with
  | nil => exact ⟨hP s hs, trivial⟩
  | cons l ls ih =>
    have hnext : ∀ s', M.step s l = some s' →
        D s l ∧ M.States P s' ls ∧ M.Steps D s' ls := by
      intro s' hst
      obtain ⟨hC, hrest⟩ := h s' hst
      obtain ⟨hI, hD⟩ := hstep s l s' hs hC hst
      exact ⟨hD, ih hI hrest⟩
    exact ⟨⟨hP s hs, fun s' hst => (hnext s' hst).2.1⟩,
      fun s' hst => ⟨(hnext s' hst).1, (hnext s' hst).2.2⟩⟩

/-- Two conditions that agree on the steps from states with the invariant `I`, which such steps
keep, hold along the same runs. -/
theorem steps_iff_steps {I : S → Prop} {C D : S → L → Prop}
    (hCD : ∀ s l s', I s → M.step s l = some s' → (C s l ↔ D s l))
    (hI : ∀ s l s', I s → D s l → M.step s l = some s' → I s')
    {s : S} (hs : I s) (ls : List L) : M.Steps C s ls ↔ M.Steps D s ls := by
  induction ls generalizing s with
  | nil => exact Iff.rfl
  | cons l ls ih =>
    simp only [Steps]
    refine forall₂_congr fun s' hst => ?_
    rw [hCD s l s' hs hst]
    exact and_congr_right fun hD => ih (hI s l s' hs hD hst)

/-- Two predicates that agree on the states with `I` hold along the same runs, if a step from such
a state leads to another one or to a state with neither of them. -/
theorem states_iff_states {I P Q : S → Prop} (hPQ : ∀ s, I s → (P s ↔ Q s))
    (hI : ∀ s l s', I s → M.step s l = some s' → I s' ∨ ¬ P s' ∧ ¬ Q s')
    {s : S} (hs : I s) (ls : List L) : M.States P s ls ↔ M.States Q s ls := by
  induction ls generalizing s with
  | nil => exact hPQ s hs
  | cons l ls ih =>
    refine and_congr (hPQ s hs) (forall₂_congr fun s' hst => ?_)
    obtain hs' | ⟨hp, hq⟩ := hI s l s' hs hst
    · exact ih hs'
    · exact iff_of_false (fun h => hp h.head) fun h => hq h.head

/-- **Exact step conditions.**  Let `I` be an invariant of the states with `P`.  If a step from a
state with `I` and `P` keeps `P` exactly when it meets `C`, then a run keeps `P` in all its
states exactly when all its steps meet `C`. -/
theorem states_iff_steps {P I : S → Prop} {C : S → L → Prop}
    (hP : ∀ s l s', I s → P s → M.step s l = some s' → (P s' ↔ C s l))
    (hI : ∀ s l s', I s → P s → M.step s l = some s' → P s' → I s')
    {s : S} (hs : I s) (hp : P s) (ls : List L) : M.States P s ls ↔ M.Steps C s ls := by
  induction ls generalizing s with
  | nil => simpa [States, Steps] using hp
  | cons l ls ih =>
    simp only [States, Steps]
    constructor
    · rintro ⟨-, hall⟩ s' hst
      have hp' : P s' := (hall s' hst).head
      exact ⟨(hP s l s' hs hp hst).1 hp', (ih (hI s l s' hs hp hst hp') hp').1 (hall s' hst)⟩
    · intro hall
      refine ⟨hp, fun s' hst => ?_⟩
      obtain ⟨hC, hrest⟩ := hall s' hst
      have hp' : P s' := (hP s l s' hs hp hst).2 hC
      exact (ih (hI s l s' hs hp hst hp') hp').2 hrest

end Machine

end KTeamOS
