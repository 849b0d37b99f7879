import KTeamOS.LTS.Confluence

/-!
# Refinement

Two levels of one design: a machine `M` and a more abstract one, `A`, under the same labels.  A step
gives out an answer, and `M` refines `A` by a relation of their states if related states answer a
label alike and are related after it.  Whole runs then give the same answers (`Refines.run`).
-/

namespace KTeamOS

namespace Machine

variable {S T L O : Type*}

/-- The answers of the run from `s` along `ls`. -/
def answers (M : Machine S L) (out : S → L → O) : S → List L → List O
  | _, [] => []
  | s, l :: ls =>
    match M.step s l with
    | none => []
    | some s' => out s l :: M.answers out s' ls

/-- In steps that meet `C`, the machine `M` with the answers `out` does what `A` does. -/
structure Refines (M : Machine S L) (A : Machine T L) (out : S → L → O) (outA : T → L → O)
    (C : S → L → Prop) (R : S → T → Prop) : Prop where
  progress : ∀ s t l, R s t → (M.step s l).isSome
  step : ∀ s t l s', R s t → C s l → M.step s l = some s' →
    out s l = outA t l ∧ ∃ t', A.step t l = some t' ∧ R s' t'

variable {M : Machine S L} {A : Machine T L} {out : S → L → O} {outA : T → L → O}
  {C : S → L → Prop} {R : S → T → Prop} {s s' : S} {t : T} {l : L} {ls : List L}

/-- The conditions on a run are those on its parts. -/
theorem Steps.append {ls' : List L} (h : M.Steps C s (ls ++ ls')) (he : M.exec s ls = some s') :
    M.Steps C s ls ∧ M.Steps C s' ls' := by
  induction ls generalizing s with
  | nil =>
    cases he
    exact ⟨trivial, h⟩
  | cons l ls ih =>
    obtain ⟨s₁, hst, hrest⟩ := exec_cons.1 he
    obtain ⟨hC, hsteps⟩ := h s₁ hst
    obtain ⟨hfirst, hsecond⟩ := ih hsteps hrest
    refine ⟨fun s₂ hst₂ => ?_, hsecond⟩
    obtain rfl := Option.some.inj (hst.symm.trans hst₂)
    exact ⟨hC, hfirst⟩

theorem answers_cons (h : M.step s l = some s') :
    M.answers out s (l :: ls) = out s l :: M.answers out s' ls := by
  rw [answers, h]

/-- **Runs of the refinement** end in related states, and give the same answers. -/
theorem Refines.run (h : M.Refines A out outA C R) (hR : R s t) (hC : M.Steps C s ls) :
    ∃ s' t', M.exec s ls = some s' ∧ A.exec t ls = some t' ∧ R s' t' ∧
      M.answers out s ls = A.answers outA t ls := by
  induction ls generalizing s t with
  | nil => exact ⟨s, t, rfl, rfl, hR, rfl⟩
  | cons l ls ih =>
    obtain ⟨s₁, hst⟩ := Option.isSome_iff_exists.1 (h.progress s t l hR)
    obtain ⟨hCl, hrest⟩ := hC s₁ hst
    obtain ⟨hout, t₁, hst', hR₁⟩ := h.step s t l s₁ hR hCl hst
    obtain ⟨s', t', hs', ht', hR', heq⟩ := ih hR₁ hrest
    refine ⟨s', t', exec_cons.2 ⟨s₁, hst, hs'⟩, exec_cons.2 ⟨t₁, hst', ht'⟩, hR', ?_⟩
    rw [answers_cons hst, answers_cons hst', hout, heq]

end Machine

end KTeamOS
