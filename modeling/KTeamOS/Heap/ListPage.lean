import KTeamOS.Heap.Disjoint

/-!
# The page of the list nodes

Every request with a number of bytes takes the next list node, `list_addr + list_idx`, and no call
gives one back.  `list_idx` is therefore the number of such requests (`exec_listIdx`), however many
blocks are live, and the nodes stay in their page exactly in the runs with at most `listCap` of them
(`nodesInside_iff`).

## Main definitions

* `requests` : the requests of a run that take a node.
* `NodesInside` : every node that a run writes lies inside the page.
-/

namespace KTeamOS

open Links Layout Heap

/-- A call that gets past `if (n_bytes == 0) return NULL`. -/
def HeapOp.TakesNode : HeapOp → Prop
  | .malloc n _ => n ≠ 0
  | .free _ => False

instance : (op : HeapOp) → Decidable op.TakesNode
  | .malloc n _ => inferInstanceAs (Decidable (n ≠ 0))
  | .free _ => inferInstanceAs (Decidable False)

/-- The calls of a run that take a node. -/
def requests (ops : List HeapOp) : ℕ := ops.countP fun op => op.TakesNode

/-- The node `list_addr + i`, of 12 bytes, lies inside the page at `34 * 4 MB`. -/
def NodeInside (i : ℕ) : Prop := 12 * (i + 1) ≤ fourMeg

/-- Every node that a call of the run writes lies inside the page. -/
def NodesInside (ops : List HeapOp) : Prop :=
  ∀ as op bs s, ops = as ++ op :: bs → op.TakesNode → heapMachine.exec .init as = some s →
    NodeInside s.heap.listIdx

/-- At most `k` blocks are live at any time of the run. -/
def LiveAtMost (k : ℕ) (ops : List HeapOp) : Prop :=
  heapMachine.States (fun s => s.live.length ≤ k) .init ops

variable {s s' : HeapState} {op : HeapOp} {ops : List HeapOp} {i : ℕ}

theorem nodeInside_iff : NodeInside i ↔ i < listCap := by
  unfold NodeInside listCap fourMeg
  omega

/-! ### The index counts requests -/

/-- A call finds a node if there is one. -/
theorem heap_step_exists (hr : ∃ l, ListRep s.heap l)
    (hcap : op.TakesNode → s.heap.listIdx < listCap) : ∃ s', heapMachine.step s op = some s' := by
  obtain ⟨l, hr⟩ := hr
  cases op with
  | malloc n stale =>
    by_cases hn : n.toNat = 0
    · obtain ⟨live, hst⟩ := heap_step_malloc (malloc_zero hn)
      exact ⟨_, hst⟩
    · have hnode : HeapOp.TakesNode (.malloc n stale) := fun h => hn (by simp [h])
      obtain ⟨h', l', hcall, -⟩ := malloc_spec stale.toNat hr (Nat.pos_of_ne_zero hn) (hcap hnode)
      obtain ⟨live, hst⟩ := heap_step_malloc hcall
      exact ⟨_, hst⟩
  | free ptr =>
    obtain ⟨h', hcall, -⟩ := free_spec ptr.toNat hr
    exact ⟨_, heap_step_free hcall⟩

/-- What a call does to the list and to the index. -/
theorem heap_step_spec (hr : ∃ l, ListRep s.heap l) (hst : heapMachine.step s op = some s') :
    (∃ l, ListRep s'.heap l) ∧
      s'.heap.listIdx = s.heap.listIdx + if op.TakesNode then 1 else 0 := by
  obtain ⟨l, hr⟩ := hr
  cases op with
  | malloc n stale =>
    by_cases hn : n.toNat = 0
    · have hzero : ¬ HeapOp.TakesNode (.malloc n stale) := fun h => h (UInt32.toNat_inj.1 hn)
      obtain ⟨live, hst'⟩ := heap_step_malloc (malloc_zero hn)
      obtain rfl := Option.some.inj (hst'.symm.trans hst)
      rw [if_neg hzero]
      exact ⟨⟨l, hr⟩, rfl⟩
    · have hnode : HeapOp.TakesNode (.malloc n stale) := fun h => hn (by simp [h])
      by_cases hcap : listCap ≤ s.heap.listIdx
      · simp [heapMachine, malloc_full hn hcap] at hst
      · obtain ⟨h', l', hcall, hr', -, hidx, -⟩ :=
          malloc_spec stale.toNat hr (Nat.pos_of_ne_zero hn) (Nat.not_le.1 hcap)
        obtain ⟨live, hst'⟩ := heap_step_malloc hcall
        obtain rfl := Option.some.inj (hst'.symm.trans hst)
        rw [if_pos hnode]
        exact ⟨⟨l', hr'⟩, hidx⟩
  | free ptr =>
    obtain ⟨h', hcall, hr', hidx, -⟩ := free_spec ptr.toNat hr
    obtain rfl := Option.some.inj ((heap_step_free hcall).symm.trans hst)
    exact ⟨⟨_, hr'⟩, hidx⟩

theorem listIdx_init : HeapState.init.heap.listIdx = 0 := rfl

theorem listRep_init : ∃ l, ListRep HeapState.init.heap l := ⟨[], rfl, by simp⟩

theorem listRep_of_reachable (h : heapMachine.Reachable .init s) : ∃ l, ListRep s.heap l :=
  h.invariant listRep_init fun _ _ _ hr _ hst => (heap_step_spec hr hst).1

@[simp] theorem requests_cons :
    requests (op :: ops) = requests ops + if op.TakesNode then 1 else 0 := by
  simp [requests, List.countP_cons]

/-- **The index is the number of requests.** -/
theorem exec_listIdx (hr : ∃ l, ListRep s.heap l) (he : heapMachine.exec s ops = some s') :
    s'.heap.listIdx = s.heap.listIdx + requests ops := by
  induction ops generalizing s with
  | nil =>
    cases he
    rfl
  | cons op ops ih =>
    obtain ⟨s₁, hst, hrest⟩ := Option.bind_eq_some_iff.1 he
    obtain ⟨hr₁, hidx⟩ := heap_step_spec hr hst
    rw [ih hr₁ hrest, hidx, requests_cons]
    omega

/-- A run for which there are nodes goes through. -/
theorem exec_exists (hr : ∃ l, ListRep s.heap l) (hcap : s.heap.listIdx + requests ops ≤ listCap) :
    ∃ s', heapMachine.exec s ops = some s' := by
  induction ops generalizing s with
  | nil => exact ⟨s, rfl⟩
  | cons op ops ih =>
    rw [requests_cons] at hcap
    have hnode : op.TakesNode → s.heap.listIdx < listCap := by
      intro hop
      rw [if_pos hop] at hcap
      omega
    obtain ⟨s₁, hst⟩ := heap_step_exists hr hnode
    obtain ⟨hr₁, hidx⟩ := heap_step_spec hr hst
    obtain ⟨s', hs'⟩ := ih hr₁ (by omega)
    exact ⟨s', by rw [Machine.exec, hst, Option.bind_some, hs']⟩

/-! ### The page is left -/

/-- The request number `k` of a run. -/
theorem exists_request {k : ℕ} (h : k < requests ops) :
    ∃ as op bs, ops = as ++ op :: bs ∧ op.TakesNode ∧ requests as = k := by
  induction ops generalizing k with
  | nil => exact absurd h (Nat.not_lt_zero k)
  | cons op ops ih =>
    rw [requests_cons] at h
    by_cases hop : op.TakesNode
    · rw [if_pos hop] at h
      cases k with
      | zero => exact ⟨[], op, ops, rfl, hop, rfl⟩
      | succ k =>
        obtain ⟨as, op', bs, rfl, hop', has⟩ := ih (k := k) (by omega)
        exact ⟨op :: as, op', bs, rfl, hop', by rw [requests_cons, if_pos hop, has]⟩
    · rw [if_neg hop] at h
      obtain ⟨as, op', bs, rfl, hop', has⟩ := ih h
      exact ⟨op :: as, op', bs, rfl, hop', by rw [requests_cons, if_neg hop, has, Nat.add_zero]⟩

theorem not_nodesInside (h : listCap < requests ops) : ¬ NodesInside ops := by
  intro hin
  obtain ⟨as, op, bs, hops, hop, has⟩ := exists_request h
  have hcap : HeapState.init.heap.listIdx + requests as ≤ listCap := by
    rw [has, listIdx_init, Nat.zero_add]
  obtain ⟨s, hexec⟩ := exec_exists listRep_init hcap
  have hidx := exec_listIdx listRep_init hexec
  rw [listIdx_init] at hidx
  have hlt := nodeInside_iff.1 (hin as op bs s hops hop hexec)
  omega

/-- **The list page.**  The nodes of a run lie inside their page exactly if the run makes at most
`listCap` requests. -/
theorem nodesInside_iff (ops : List HeapOp) : NodesInside ops ↔ requests ops ≤ listCap := by
  constructor
  · intro h
    by_contra hlt
    exact not_nodesInside (Nat.not_le.1 hlt) h
  · rintro h as op bs s rfl hop hexec
    have hidx := exec_listIdx listRep_init hexec
    rw [listIdx_init] at hidx
    have hcount : requests (as ++ op :: bs) = requests as + requests (op :: bs) :=
      List.countP_append
    rw [requests_cons, if_pos hop] at hcount
    exact nodeInside_iff.2 (by omega)

/-! ### One live block is enough -/

/-- A byte is requested and freed, `m` times. -/
def cycles : ℕ → List HeapOp
  | 0 => []
  | m + 1 => .malloc 1 0 :: .free 251658237 :: cycles m

theorem blockBelow_one :
    blockBelow (1 : UInt32).toNat heapBottom = ⟨251658237, heapBottom⟩ := by
  decide

theorem requests_cycles (m : ℕ) : requests (cycles m) = m := by
  induction m with
  | zero => rfl
  | succ m ih =>
    rw [cycles, requests_cons, requests_cons, ih, if_neg (by decide), if_pos (by decide)]

theorem cycles_live (m : ℕ) (hr : ListRep s.heap []) (hlive : s.live = []) :
    heapMachine.States (fun s => s.live.length ≤ 1) s (cycles m) := by
  induction m generalizing s with
  | zero =>
    change s.live.length ≤ 1
    simp [hlive]
  | succ m ih =>
    refine ⟨by simp [hlive], fun s₁ hst => ?_⟩
    have hcap : s.heap.listIdx < listCap := by
      by_contra hge
      have hnone : s.heap.malloc (1 : UInt32).toNat (0 : UInt32).toNat = none :=
        malloc_full (by decide) (Nat.not_lt.1 hge)
      simp only [heapMachine, hnone, Option.bind_eq_bind, Option.bind_none, reduceCtorEq] at hst
    obtain ⟨h', l', hcall, hr', hlink, -, -, hnew, -⟩ :=
      malloc_spec (n := (1 : UInt32).toNat) (0 : UInt32).toNat hr (by decide) hcap
    have hblocks : s.heap.blocks = [] := hr.blocks
    have hend : endFor (1 : UInt32).toNat s.heap.blocks = some heapBottom := by rw [hblocks]; rfl
    have hres : s.heap.outcome (1 : UInt32).toNat ⟨251658237, heapBottom⟩ = .block 251658237 :=
      outcome_of_le (by decide) (by decide) (by decide)
    rw [hend, Option.getD_some, blockBelow_one] at hcall hnew
    rw [hend] at hlink
    obtain rfl : l' = [s.heap.listIdx] := by
      obtain ⟨xs, ys, hnil, rfl⟩ := hlink
      obtain ⟨rfl, rfl⟩ := List.append_eq_nil_iff.1 hnil.symm
      rfl
    simp only [heapMachine, hcall, hres, hlive, Option.bind_eq_bind, Option.bind_some,
      Option.some.injEq] at hst
    subst hst
    refine ⟨Nat.le_refl 1, fun s₂ hst => ?_⟩
    obtain ⟨h'', hfree, hr'', -⟩ := free_spec (251658237 : UInt32).toNat hr'
    obtain rfl := Option.some.inj ((heap_step_free hfree).symm.trans hst)
    have hgone : ([s.heap.listIdx].eraseP fun i =>
        (h'.block i).memStart = (251658237 : UInt32).toNat) = [] := by
      have hstart : (h'.block s.heap.listIdx).memStart = (251658237 : UInt32).toNat := by
        rw [hnew]
        rfl
      simp [hstart]
    rw [hgone] at hr''
    exact ih hr'' (by simp)

/-- With one live block at a time, the page is left after `listCap` requests. -/
theorem not_nodesInside_of_live : ¬ ∀ k ≤ listCap, ∀ ops, LiveAtMost k ops → NodesInside ops := by
  intro h
  have hlive : LiveAtMost 1 (cycles (listCap + 1)) := cycles_live _ ⟨rfl, by simp⟩ rfl
  have hmany : listCap < requests (cycles (listCap + 1)) := by
    rw [requests_cycles]
    exact Nat.lt_succ_self _
  exact not_nodesInside hmany (h 1 (by decide) _ hlive)

end KTeamOS
