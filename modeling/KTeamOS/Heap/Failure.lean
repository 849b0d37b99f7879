import KTeamOS.Heap.Gaps

/-!
# Failed requests

A request that gets no address because its block would start below the floor of the arena has taken
a list node by then, and in all branches but one has linked it into the list (`failsCleanly_iff`).

`Heap.results` is what a run of calls returns.  It depends on the bounds on the list and on the
pages that are present, and on nothing else, as long as there are list nodes (`results_congr`);
without one, the next request has no result (`results_isSome_iff`).

## Main definitions

* `Heap.FailsCleanly` : what a failed call is to leave.
* `Heap.KeepsList` : the same, but for the list nodes.
-/

namespace KTeamOS

open Links Layout

namespace Heap

/-- What the calls of `malloc` in a run return. -/
def results : Heap → List HeapOp → Option (List MallocResult)
  | _, [] => some []
  | h, .malloc n stale :: ops => do
    let (h, r, _) ← h.malloc n.toNat stale.toNat
    let rs ← h.results ops
    some (r :: rs)
  | h, .free ptr :: ops => do
    let h ← h.free ptr.toNat
    h.results ops

/-- If `malloc(n)` returns NULL then the list is as before, and all later calls return what they
would have returned without it. -/
def FailsCleanly (h : Heap) (n stale : ℕ) : Prop :=
  ∀ h' unassigned, h.malloc n stale = some (h', .null, unassigned) →
    h'.nodes = h.nodes ∧ h'.blocks = h.blocks ∧ ∀ ops, h'.results ops = h.results ops

/-- If `malloc(n)` returns NULL then the list is as before, and later calls return what they would
have returned without it, as far as there are list nodes for them. -/
def KeepsList (h : Heap) (n stale : ℕ) : Prop :=
  ∀ h' unassigned, h.malloc n stale = some (h', .null, unassigned) →
    h'.nodes = h.nodes ∧ h'.blocks = h.blocks ∧
      ∀ ops, h'.listIdx + requests ops ≤ listCap → h'.results ops = h.results ops

/-- The request starts at or above the floor, below the end that the list has for it or, where no
branch assigns `mem_end`, below what lies in its place. -/
def AboveFloor (h : Heap) (n stale : ℕ) : Prop :=
  heapTop ≤ (blockBelow n ((endFor n h.blocks).getD stale)).memStart

instance (h : Heap) (n stale : ℕ) : Decidable (h.AboveFloor n stale) :=
  inferInstanceAs (Decidable (_ ≤ _))

/-- If the list has a place for a request of `n` bytes, then the block there starts at or above the
floor, also when the subtraction has wrapped around. -/
def PlaceAboveFloor (n : ℕ) (bs : List Block) : Prop :=
  ∀ e, endFor n bs = some e → heapTop ≤ (blockBelow n e).memStart

variable {h h' h₁ h₂ : Heap} {l l₁ l₂ : List ℕ} {b : Block} {n stale : ℕ} {ops : List HeapOp}

/-! ### What the results depend on -/

theorem results_malloc {n stale : UInt32} {r : MallocResult} {unassigned : Bool}
    (hcall : h.malloc n.toNat stale.toNat = some (h', r, unassigned)) :
    h.results (.malloc n stale :: ops) = (h'.results ops).map (r :: ·) := by
  rw [results, hcall, Option.bind_eq_bind, Option.bind_some]
  exact Option.map_eq_bind.symm

theorem results_free {ptr : UInt32} (hcall : h.free ptr.toNat = some h') :
    h.results (.free ptr :: ops) = h'.results ops := by
  rw [results, hcall, Option.bind_eq_bind, Option.bind_some]

theorem outcome_congr (hp : h₁.present = h₂.present) : h₁.outcome n b = h₂.outcome n b := by
  rw [outcome, outcome, writable, writable, mapPages, mapPages, hp]

theorem presentAfter_congr (hp : h₁.present = h₂.present) :
    h₁.presentAfter b = h₂.presentAfter b := by
  rw [presentAfter, presentAfter, mapPages, mapPages, hp]

/-- Two heaps with the same bounds on the list and the same pages give the same results. -/
theorem results_congr (hr₁ : ListRep h₁ l₁) (hr₂ : ListRep h₂ l₂) (hb : h₁.blocks = h₂.blocks)
    (hp : h₁.present = h₂.present) (hc₁ : h₁.listIdx + requests ops ≤ listCap)
    (hc₂ : h₂.listIdx + requests ops ≤ listCap) : h₁.results ops = h₂.results ops := by
  induction ops generalizing h₁ h₂ l₁ l₂ with
  | nil => rfl
  | cons op ops ih =>
    rw [requests_cons] at hc₁ hc₂
    cases op with
    | malloc n stale =>
      by_cases hn : n.toNat = 0
      · have hzero : ¬ HeapOp.TakesNode (.malloc n stale) := fun h => h (UInt32.toNat_inj.1 hn)
        rw [if_neg hzero] at hc₁ hc₂
        rw [results_malloc (malloc_zero hn), results_malloc (malloc_zero hn),
          ih hr₁ hr₂ hb hp hc₁ hc₂]
      · have hnode : HeapOp.TakesNode (.malloc n stale) := fun h => hn (by simp [h])
        rw [if_pos hnode] at hc₁ hc₂
        have hpos : 0 < n.toNat := Nat.pos_of_ne_zero hn
        obtain ⟨h₁', l₁', hcall₁, hr₁', -, hidx₁, hb₁, -, -, hp₁⟩ :=
          malloc_spec stale.toNat hr₁ hpos (by omega)
        obtain ⟨h₂', l₂', hcall₂, hr₂', -, hidx₂, hb₂, -, -, hp₂⟩ :=
          malloc_spec stale.toNat hr₂ hpos (by omega)
        have hb' : h₁'.blocks = h₂'.blocks := by rw [hb₁, hb₂, hb]
        have hp' : h₁'.present = h₂'.present := by rw [hp₁, hp₂, hb, presentAfter_congr hp]
        have hrest := ih hr₁' hr₂' hb' hp' (by omega) (by omega)
        rw [results_malloc hcall₁, results_malloc hcall₂, hrest, hb, outcome_congr hp]
    | free ptr =>
      have hzero : ¬ HeapOp.TakesNode (.free ptr) := fun h => h
      rw [if_neg hzero] at hc₁ hc₂
      obtain ⟨h₁', hcall₁, hr₁', hidx₁, hp₁, hblk₁⟩ := free_spec ptr.toNat hr₁
      obtain ⟨h₂', hcall₂, hr₂', hidx₂, hp₂, hblk₂⟩ := free_spec ptr.toNat hr₂
      have hb' : h₁'.blocks = h₂'.blocks := by
        rw [hr₁.free_blocks hr₁' hblk₁, hr₂.free_blocks hr₂' hblk₂, hb]
      have hrest := ih hr₁' hr₂' hb' (by rw [hp₁, hp₂, hp]) (by omega) (by omega)
      rw [results_free hcall₁, results_free hcall₂, hrest]

/-! ### What is left of a failed request -/

theorem place_of_endFor {bs : List Block} (he : endFor n bs = none) : place n bs = bs := by
  cases bs with
  | nil => cases he
  | cons a bs =>
    rw [endFor] at he
    split_ifs at he with hlead hfits
    rw [place, if_pos hlead, if_neg hfits]

/-- A request that is linked and fails leaves its node. -/
theorem not_keepsList (hr : ListRep h l) (hn : 0 < n) (hcap : h.listIdx < listCap) {e : ℕ}
    (he : endFor n h.blocks = some e) (hlow : (blockBelow n e).memStart < heapTop) :
    ¬ h.KeepsList n stale := by
  intro hclean
  obtain ⟨h', l', hcall, hr', hlink, -⟩ := malloc_spec stale hr hn hcap
  rw [he, Option.getD_some, outcome_null.2 hlow] at hcall
  have hnodes := (hclean _ _ hcall).1
  rw [hr'.nodes, hr.nodes] at hnodes
  rw [he] at hlink
  obtain ⟨xs, ys, rfl, rfl⟩ := hlink
  have hlen := congrArg List.length hnodes
  simp only [List.length_append, List.length_cons] at hlen
  omega

/-- A request that is not linked leaves nothing. -/
theorem keepsList_of_endFor (hr : ListRep h l) (hn : 0 < n) (hcap : h.listIdx < listCap)
    (he : endFor n h.blocks = none) : h.KeepsList n stale := by
  intro h' unassigned hcall
  obtain ⟨h₁, l', hcall', hr', hlink, hidx, hblocks, -, -, hpres⟩ := malloc_spec stale hr hn hcap
  rw [hcall] at hcall'
  simp only [Option.some.injEq, Prod.mk.injEq] at hcall'
  obtain ⟨rfl, hnull, -⟩ := hcall'
  have hlow := outcome_null.1 hnull.symm
  rw [presentAfter, if_pos hlow] at hpres
  rw [he] at hlink
  have hsame : l' = l := hlink
  subst hsame
  have hb : h'.blocks = h.blocks := by rw [hblocks, place_of_endFor he]
  refine ⟨by rw [hr'.nodes, hr.nodes], hb, fun ops hops => ?_⟩
  exact results_congr hr' hr hb hpres hops (by omega)

/-- The list is kept exactly if the request is for 0 bytes, or no list node is left, or its place,
if it has one, is above the floor. -/
theorem keepsList_iff (hr : ListRep h l) :
    h.KeepsList n stale ↔ n = 0 ∨ listCap ≤ h.listIdx ∨ PlaceAboveFloor n h.blocks := by
  by_cases hn : n = 0
  · refine iff_of_true (fun h' unassigned hcall => ?_) (.inl hn)
    rw [malloc_zero hn] at hcall
    cases hcall
    exact ⟨rfl, rfl, fun _ _ => rfl⟩
  by_cases hcap : listCap ≤ h.listIdx
  · refine iff_of_true (fun h' unassigned hcall => ?_) (.inr (.inl hcap))
    rw [malloc_full hn hcap] at hcall
    cases hcall
  rw [or_iff_right hn, or_iff_right hcap]
  have hpos : 0 < n := Nat.pos_of_ne_zero hn
  have hcap := Nat.not_le.1 hcap
  constructor
  · intro hkeeps e he
    by_contra hlow
    exact not_keepsList hr hpos hcap he (Nat.not_le.1 hlow) hkeeps
  · intro hplace
    cases he : endFor n h.blocks with
    | none => exact keepsList_of_endFor hr hpos hcap he
    | some e =>
      -- the request does not fail
      intro h' unassigned hcall
      obtain ⟨h₁, l', hcall', -⟩ := malloc_spec stale hr hpos hcap
      rw [hcall, he, Option.getD_some] at hcall'
      simp only [Option.some.injEq, Prod.mk.injEq] at hcall'
      have hlow := outcome_null.1 hcall'.2.1.symm
      exact absurd (hplace e he) (Nat.not_le.2 hlow)

/-- As many requests have results as there are list nodes. -/
theorem results_isSome_iff (hr : ListRep h l) (hidx : h.listIdx ≤ listCap) {m : ℕ} :
    (h.results (List.replicate m (.malloc 1 0))).isSome ↔ h.listIdx + m ≤ listCap := by
  induction m generalizing h l with
  | zero => simpa [results] using hidx
  | succ m ih =>
    rw [List.replicate_succ]
    by_cases hcap : h.listIdx < listCap
    · obtain ⟨h', l', hcall, hr', -, hidx', -⟩ :=
        malloc_spec (0 : UInt32).toNat hr (show 0 < (1 : UInt32).toNat by decide) hcap
      rw [results_malloc hcall, Option.isSome_map, ih hr' (by omega), hidx']
      omega
    · have hfull : h.malloc (1 : UInt32).toNat (0 : UInt32).toNat = none :=
        malloc_full (by decide) (by omega)
      have hnone : h.results (.malloc 1 0 :: List.replicate m (.malloc 1 0)) = none := by
        rw [results, hfull]
        rfl
      rw [hnone]
      exact iff_of_false (by simp) (by omega)

/-- The node that a failed request has taken is missed by a later one. -/
theorem exists_results_ne (hr : ListRep h l) (hn : 0 < n) (hcap : h.listIdx < listCap)
    {unassigned : Bool} (hcall : h.malloc n stale = some (h', .null, unassigned)) :
    ∃ ops, h'.results ops ≠ h.results ops := by
  obtain ⟨h₁, l₁, hcall₁, hr₁, -, hidx₁, -⟩ := malloc_spec stale hr hn hcap
  rw [hcall] at hcall₁
  obtain ⟨rfl, -⟩ := Prod.mk.inj (Option.some.inj hcall₁)
  refine ⟨List.replicate (listCap - h.listIdx) (.malloc 1 0), fun hsame => ?_⟩
  have hbefore := (results_isSome_iff hr (Nat.le_of_lt hcap)
    (m := listCap - h.listIdx)).2 (by omega)
  rw [← hsame, results_isSome_iff hr₁ (by omega)] at hbefore
  omega

end Heap

open Heap

/-- **Failed requests.**  In every reachable state, a request leaves nothing behind it when it
returns NULL exactly if it is for 0 bytes or does not fail at all, as no list node is left for it or
as it starts above the floor: a request that fails takes a list node, which a later one misses.  But
for the list nodes, nothing is left exactly if a place that the list has for the request is above
the floor. -/
theorem failsCleanly_iff {s : HeapState} (hs : heapMachine.Reachable .init s) (n stale : UInt32) :
    (s.heap.FailsCleanly n.toNat stale.toNat ↔
      n = 0 ∨ listCap ≤ s.heap.listIdx ∨ s.heap.AboveFloor n.toNat stale.toNat) ∧
    (s.heap.KeepsList n.toNat stale.toNat ↔
      n = 0 ∨ listCap ≤ s.heap.listIdx ∨ PlaceAboveFloor n.toNat s.heap.blocks) := by
  obtain ⟨l, hr⟩ := listRep_of_reachable hs
  have hzero : n.toNat = 0 ↔ n = 0 := ⟨fun h => UInt32.toNat_inj.1 h, fun h => by rw [h]; rfl⟩
  refine ⟨?_, by rw [keepsList_iff hr, hzero]⟩
  rw [← hzero]
  by_cases hn : n.toNat = 0
  · refine iff_of_true (fun h' unassigned hcall => ?_) (.inl hn)
    rw [malloc_zero hn] at hcall
    cases hcall
    exact ⟨rfl, rfl, fun _ => rfl⟩
  by_cases hcap : listCap ≤ s.heap.listIdx
  · refine iff_of_true (fun h' unassigned hcall => ?_) (.inr (.inl hcap))
    rw [malloc_full hn hcap] at hcall
    cases hcall
  rw [or_iff_right hn, or_iff_right hcap]
  have hcap := Nat.not_le.1 hcap
  obtain ⟨h₁, l₁, hcall₁, -⟩ := malloc_spec stale.toNat hr (Nat.pos_of_ne_zero hn) hcap
  constructor
  · intro hclean
    by_contra hlow
    rw [outcome_null.2 (Nat.not_le.1 hlow)] at hcall₁
    obtain ⟨ops, hne⟩ := exists_results_ne hr (Nat.pos_of_ne_zero hn) hcap hcall₁
    exact hne ((hclean _ _ hcall₁).2.2 ops)
  · intro habove h' unassigned hcall
    rw [hcall] at hcall₁
    simp only [Option.some.injEq, Prod.mk.injEq] at hcall₁
    exact absurd habove (Nat.not_le.2 (outcome_null.1 hcall₁.2.1.symm))

/-- No branch assigns `mem_end` for 90 MB above a block that does not end with the arena.  With the
end of the arena in its place the request fails: the list is as before, a later request is not. -/
theorem failsCleanly_gap : ∃ s, heapMachine.exec .init [.malloc 10 0, .malloc 10 0,
      .free 251658228] = some s ∧
    (s.heap.malloc 94371840 251658239).map (fun r => r.2) = some (.null, true) ∧
    s.heap.KeepsList 94371840 251658239 ∧ ¬ s.heap.FailsCleanly 94371840 251658239 := by
  have hrun : ((heapMachine.exec .init [.malloc 10 0, .malloc 10 0, .free 251658228]).map
      fun s => (s.heap.listIdx, endFor 94371840 s.heap.blocks,
        decide (s.heap.AboveFloor 94371840 251658239),
        (s.heap.malloc 94371840 251658239).map (fun r => r.2))) =
      some (2, none, false, some (.null, true)) := by
    decide +kernel
  obtain ⟨s, hexec, hs⟩ := Option.map_eq_some_iff.1 hrun
  simp only [Prod.mk.injEq] at hs
  obtain ⟨hidx, hend, hlow, hnull⟩ := hs
  have hiff := failsCleanly_iff (Machine.reachable_of_exec hexec) 94371840 251658239
  refine ⟨s, hexec, hnull, hiff.2.2 (.inr (.inr fun e he => ?_)), fun hclean => ?_⟩
  · cases hend.symm.trans he
  · obtain hzero | hfull | habove := hiff.1.1 hclean
    · exact absurd hzero (by decide)
    · rw [hidx] at hfull
      exact absurd hfull (by decide)
    · exact of_decide_eq_false hlow habove

/-- A request for 90 MB on the empty list returns NULL and stays on the list. -/
theorem not_failsCleanly_init : ¬ ∀ (s : HeapState) (n stale : UInt32),
    heapMachine.Reachable .init s → s.heap.FailsCleanly n.toNat stale.toNat := by
  intro h
  have hr : ListRep HeapState.init.heap [] := ⟨rfl, by simp⟩
  have he : endFor (94371840 : UInt32).toNat HeapState.init.heap.blocks = some heapBottom := rfl
  have hkeeps : HeapState.init.heap.KeepsList (94371840 : UInt32).toNat (0 : UInt32).toNat := by
    intro h' unassigned hcall
    obtain ⟨hnodes, hblocks, hresults⟩ := h .init 94371840 0 .refl h' unassigned hcall
    exact ⟨hnodes, hblocks, fun ops _ => hresults ops⟩
  exact not_keepsList hr (by decide) (by decide) he (by decide) hkeeps

end KTeamOS
