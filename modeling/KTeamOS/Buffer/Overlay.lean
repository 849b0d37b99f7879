import Mathlib.Data.Set.Function
import Mathlib.Logic.Function.Basic

/-!
# Writing at many places

What a loop leaves in a memory that it writes at one place after the other.  Where no two writes
meet, the order does not matter: the memory has the values at their places, and is as it was
elsewhere.

## Main definitions

* `Overlay place S val m m'` : `m'` is `m` with `val q` at `place q`, for all `q` in `S`.

## Main results

* `Overlay.unique` : there is one such `m'`.
* `Overlay.append`, `Overlay.foldl` : one write after the other, and a loop of them.
* `Overlay.undo` : when writing back restores the memory.
* `foldl_apply_ite` : a loop that writes one value.
-/

namespace KTeamOS

variable {Q A V : Type*}

/-- `m'` has `val q` at the place of every `q` in `S`, and is `m` elsewhere. -/
structure Overlay (place : Q → A) (S : Set Q) (val : Q → V) (m m' : A → V) : Prop where
  shown : ∀ q ∈ S, m' (place q) = val q
  rest : ∀ a, (∀ q ∈ S, a ≠ place q) → m' a = m a

namespace Overlay

variable {place : Q → A} {S S' R : Set Q} {val val' : Q → V} {m m' m'' : A → V}

theorem empty (hS : ∀ q, q ∉ S) : Overlay place S val m m :=
  ⟨fun q hq => absurd hq (hS q), fun _ _ => rfl⟩

theorem update [DecidableEq A] (q : Q) :
    Overlay place {q} val m (Function.update m (place q) (val q)) := by
  refine ⟨?_, fun a ha => Function.update_of_ne (ha q rfl) ..⟩
  rintro q rfl
  exact Function.update_self ..

theorem congr (h : Overlay place S val m m') (hS : ∀ q, q ∈ S' ↔ q ∈ S)
    (hval : ∀ q ∈ S, val' q = val q) : Overlay place S' val' m m' := by
  obtain rfl : S' = S := Set.ext hS
  exact ⟨fun q hq => (h.shown q hq).trans (hval q hq).symm, h.rest⟩

/-- What was written at a place of `S` is what is found at it. -/
theorem unique (h : Overlay place S val m m') (h' : Overlay place S val m m'') : m' = m'' := by
  funext a
  by_cases ha : ∀ q ∈ S, a ≠ place q
  · rw [h.rest a ha, h'.rest a ha]
  · simp only [not_forall, not_not] at ha
    obtain ⟨q, hq, rfl⟩ := ha
    rw [h.shown q hq, h'.shown q hq]

/-- A place that only elements outside of `S` have keeps its value. -/
theorem kept (h : Overlay place S val m m') (hR : Set.InjOn place R) (hS : S ⊆ R) {q : Q}
    (hq : q ∈ R) (hqS : q ∉ S) : m' (place q) = m (place q) := by
  refine h.rest _ fun q' hq' heq => hqS ?_
  rwa [hR hq (hS hq') heq]

/-- One set after the other. -/
theorem append (h : Overlay place S val m m') (h' : Overlay place S' val m' m'')
    (hR : Set.InjOn place R) (hS : S ⊆ R) (hS' : S' ⊆ R) : Overlay place (S ∪ S') val m m'' := by
  refine ⟨fun q hq => ?_, fun a ha => ?_⟩
  · by_cases hlast : q ∈ S'
    · exact h'.shown q hlast
    · have hfirst : q ∈ S := hq.resolve_right hlast
      rw [h'.kept hR hS' (hS hfirst) hlast, h.shown q hfirst]
  · rw [h'.rest a fun q hq => ha q (.inr hq), h.rest a fun q hq => ha q (.inl hq)]

/-- **Undoing.**  Writing back what was at some of the places restores the memory exactly if the
others had their values already. -/
theorem undo {T : Set Q} (h : Overlay place S val m m')
    (h' : Overlay place T (fun q => m (place q)) m' m'') (hR : Set.InjOn place R) (hS : S ⊆ R)
    (hT : T ⊆ S) : m'' = m ↔ ∀ q ∈ S, q ∉ T → val q = m (place q) := by
  constructor
  · rintro rfl q hq hqT
    rw [← h.shown q hq]
    exact (h'.kept hR (hT.trans hS) (hS hq) hqT).symm
  · intro hval
    funext a
    by_cases haT : ∀ q ∈ T, a ≠ place q
    · rw [h'.rest a haT]
      by_cases haS : ∀ q ∈ S, a ≠ place q
      · exact h.rest a haS
      · simp only [not_forall, not_not] at haS
        obtain ⟨q, hq, rfl⟩ := haS
        rw [h.shown q hq]
        exact hval q hq fun hqT => haT q hqT rfl
    · simp only [not_forall, not_not] at haT
      obtain ⟨q, hq, rfl⟩ := haT
      exact h'.shown q hq

/-- **Loops.**  When every turn writes at the places of a set `T i` of the memory `g`, the loop
writes at the places of all of them. -/
theorem foldl {σ ι : Type*} {g : σ → A → V} {I : σ → Prop} {f : σ → ι → σ} {T : ι → Set Q}
    (hR : Set.InjOn place R) {l : List ι} (hT : ∀ i ∈ l, T i ⊆ R)
    (hf : ∀ s i, i ∈ l → I s → I (f s i) ∧ Overlay place (T i) val (g s) (g (f s i))) {s : σ}
    (hs : I s) : I (l.foldl f s) ∧
      Overlay place {q | ∃ i ∈ l, q ∈ T i} val (g s) (g (l.foldl f s)) := by
  induction l generalizing s with
  | nil => exact ⟨hs, empty fun q ⟨i, hi, _⟩ => absurd hi List.not_mem_nil⟩
  | cons i l ih =>
    obtain ⟨hI, hfirst⟩ := hf s i List.mem_cons_self hs
    obtain ⟨hI', hrest⟩ := ih (fun j hj => hT j (List.mem_cons_of_mem i hj))
      (fun s j hj => hf s j (List.mem_cons_of_mem i hj)) hI
    refine ⟨hI', (hfirst.append hrest hR (hT i List.mem_cons_self) ?_).congr (fun q => ?_)
      fun _ _ => rfl⟩
    · rintro q ⟨j, hj, hq⟩
      exact hT j (List.mem_cons_of_mem i hj) hq
    · constructor
      · rintro ⟨j, hj, hq⟩
        rcases List.mem_cons.1 hj with rfl | hj
        · exact .inl hq
        · exact .inr ⟨j, hj, hq⟩
      · rintro (hq | ⟨j, hj, hq⟩)
        · exact ⟨i, List.mem_cons_self, hq⟩
        · exact ⟨j, List.mem_cons_of_mem i hj, hq⟩

end Overlay

/-- **One value.**  A loop that writes the same value everywhere leaves it at the places that some
turn reaches; they may meet. -/
theorem foldl_apply_ite {ι : Type*} {f : (A → V) → ι → A → V} {l : List ι} {P : ι → Prop}
    [DecidablePred P] {c : V} {a : A} (hf : ∀ m i, i ∈ l → f m i a = if P i then c else m a)
    (m : A → V) :
    l.foldl f m a = if ∃ i ∈ l, P i then c else m a := by
  induction l generalizing m with
  | nil => exact (if_neg fun ⟨i, hi, _⟩ => absurd hi List.not_mem_nil).symm
  | cons i l ih =>
    rw [List.foldl_cons, ih fun m j hj => hf m j (List.mem_cons_of_mem i hj),
      hf m i List.mem_cons_self]
    by_cases hlater : ∃ j ∈ l, P j
    · obtain ⟨j, hj, hP⟩ := hlater
      rw [if_pos ⟨j, hj, hP⟩, if_pos ⟨j, List.mem_cons_of_mem i hj, hP⟩]
    · rw [if_neg hlater]
      refine if_congr ⟨fun hP => ⟨i, List.mem_cons_self, hP⟩, ?_⟩ rfl rfl
      rintro ⟨j, hj, hP⟩
      rcases List.mem_cons.1 hj with rfl | hj
      · exact hP
      · exact absurd ⟨j, hj, hP⟩ hlater

end KTeamOS
