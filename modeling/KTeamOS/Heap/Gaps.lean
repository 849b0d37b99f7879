import KTeamOS.Heap.ListPage

/-!
# Gaps

The free ranges between the blocks of a descending list, and when `malloc` finds one.  It looks
below the first block only if that block ends with the arena; in front of it, it does not look
further when the range there is too small, and takes the end of the new block from a variable that
no branch has assigned (`findsGap_iff`).  Where it does find an end, `free` undoes it
(`malloc_free`).

## Main definitions

* `Descending`, `gaps`, `SomeGap` : block lists, and their free ranges in the arena.
* `LeadingFits` : the range above the first block is empty or large enough.
-/

namespace KTeamOS

open Links Heap

namespace Layout

/-- Disjoint blocks of the arena, from high to low addresses. -/
structure Descending (bs : List Block) : Prop where
  pairwise : bs.Pairwise fun a b => b.memEnd ≤ a.memStart + 1
  /-- The bytes of a block are those from `mem_start` up to, but not including, `mem_end - 1`. -/
  nonempty : ∀ b ∈ bs, b.memStart + 2 ≤ b.memEnd
  memEnd_le : ∀ b ∈ bs, b.memEnd ≤ heapBottom

/-- The free ranges `[p, q)` below the address `q`: above the first block, between neighbours and
from the last block down to the floor of the arena. -/
def gapsBelow (q : ℕ) : List Block → List (ℕ × ℕ)
  | [] => [(heapTop, q)]
  | b :: bs => (max heapTop (b.memEnd - 1), q) :: gapsBelow b.memStart bs

/-- The free ranges of the arena. -/
def gaps (bs : List Block) : List (ℕ × ℕ) := gapsBelow (heapBottom - 1) bs

/-- Some free range holds `n` bytes. -/
def SomeGap (n : ℕ) (bs : List Block) : Prop := ∃ g ∈ gaps bs, g.1 + n ≤ g.2

/-- The first block ends with the arena, or `n` bytes fit above it. -/
def LeadingFits (n : ℕ) (bs : List Block) : Prop :=
  ∀ a ∈ bs.head?, a.memEnd = heapBottom ∨ n + a.memEnd ≤ heapBottom

variable {n e p : ℕ} {a b c : Block} {bs xs ys : List Block}

theorem Descending.tail (h : Descending (a :: bs)) : Descending bs :=
  ⟨(List.pairwise_cons.1 h.pairwise).2, fun b hb => h.nonempty b (List.mem_cons_of_mem _ hb),
    fun b hb => h.memEnd_le b (List.mem_cons_of_mem _ hb)⟩

theorem Descending.sorted (h : Descending bs) : Sorted bs where
  pairwise := h.pairwise.imp fun hab => Nat.le_trans hab (Nat.le_max_left _ _)
  proper b hb := by
    have hlen := h.nonempty b hb
    exact ⟨by omega, h.memEnd_le b hb, fun _ => hlen⟩

theorem Descending.memStart_le (h : Descending (a :: bs)) : ∀ c ∈ bs, c.memStart ≤ a.memStart := by
  intro c hc
  have hend := (List.pairwise_cons.1 h.pairwise).1 c hc
  have hlen := h.nonempty c (List.mem_cons_of_mem _ hc)
  omega

theorem Descending.memStart_le_arena (h : Descending bs) :
    ∀ c ∈ bs, c.memStart ≤ heapBottom - 1 := by
  intro c hc
  have hlt := (h.sorted.proper c hc).memStart_lt
  omega

/-- The free ranges lie in the arena and below what they are below of. -/
theorem gapsBelow_bounds (h : Descending bs) (hq : ∀ b ∈ bs, b.memStart ≤ p) :
    ∀ g ∈ gapsBelow p bs, heapTop ≤ g.1 ∧ g.2 ≤ p := by
  induction bs generalizing p with
  | nil =>
    intro g hg
    obtain rfl : g = (heapTop, p) := by simpa [gapsBelow] using hg
    exact ⟨Nat.le_refl _, Nat.le_refl _⟩
  | cons b bs ih =>
    intro g hg
    rcases List.mem_cons.1 hg with rfl | hg
    · exact ⟨Nat.le_max_left _ _, Nat.le_refl _⟩
    · obtain ⟨h₁, h₂⟩ := ih h.tail h.memStart_le g hg
      exact ⟨h₁, h₂.trans (hq b List.mem_cons_self)⟩

/-- Below a block, some free range holds `n` bytes exactly if the request gets a place in the
arena. -/
theorem exists_gapBelow_iff (h : Descending (a :: bs)) :
    (∃ g ∈ gapsBelow a.memStart bs, g.1 + n ≤ g.2) ↔ heapTop + n ≤ (host n a bs).memStart := by
  induction bs generalizing a with
  | nil => simp [gapsBelow, host]
  | cons b bs ih =>
    have ha : Proper a := h.sorted.proper a List.mem_cons_self
    have hlt := ha.memStart_lt
    have harena := arena
    have hab := (List.pairwise_cons.1 h.pairwise).1 b List.mem_cons_self
    have hsize : sub32 (add32 a.memStart 1) b.memEnd = a.memStart + 1 - b.memEnd := by
      rw [ha.add32]
      exact sub32_of_le (by omega) hab
    rw [gapsBelow, host, hsize]
    by_cases hgap : n ≤ a.memStart + 1 - b.memEnd
    · rw [if_pos hgap]
      constructor
      · rintro ⟨g, hg, hfits⟩
        obtain ⟨h₁, h₂⟩ := gapsBelow_bounds h.tail h.memStart_le g hg
        omega
      · intro hfits
        exact ⟨_, List.mem_cons_self, by dsimp only; omega⟩
    · rw [if_neg hgap, ← ih h.tail]
      constructor
      · rintro ⟨g, hg, hfits⟩
        rcases List.mem_cons.1 hg with rfl | hg
        · dsimp only at hfits
          omega
        · exact ⟨g, hg, hfits⟩
      · rintro ⟨g, hg, hfits⟩
        exact ⟨g, List.mem_cons_of_mem _ hg, hfits⟩

/-- `malloc` finds an end exactly if the leading range is empty or large enough. -/
theorem endFor_isSome_iff (h : Descending bs) : (endFor n bs).isSome ↔ LeadingFits n bs := by
  cases bs with
  | nil => simp [endFor, LeadingFits]
  | cons a bs =>
    have hend := h.memEnd_le a List.mem_cons_self
    simp only [endFor, LeadingFits, List.head?_cons, Option.mem_some_iff, forall_eq']
    by_cases hlast : a.memEnd = heapBottom
    · simp [hlast]
    · rw [if_pos hlast, sub32_of_le (by decide) hend, or_iff_right hlast]
      split_ifs with hfits
      · exact iff_of_true rfl (by omega)
      · exact iff_of_false (by simp) (by omega)

/-- **Where the search ends.**  If an end is found, some free range holds `n` bytes exactly if the
`n` bytes below that end are in the arena. -/
theorem someGap_iff (h : Descending bs) (hn : 0 < n) (he : endFor n bs = some e) :
    SomeGap n bs ↔ heapTop + n + 1 ≤ e := by
  have harena := arena
  cases bs with
  | nil =>
    obtain rfl : heapBottom = e := Option.some.inj he
    simp only [SomeGap, gaps, gapsBelow, List.mem_singleton, exists_eq_left]
    omega
  | cons a bs =>
    have hend := h.memEnd_le a List.mem_cons_self
    have hlen := h.nonempty a List.mem_cons_self
    rw [endFor] at he
    by_cases hlead : a.memEnd ≠ heapBottom
    · rw [if_pos hlead, sub32_of_le (by decide) hend] at he
      split_ifs at he with hfits
      obtain rfl : heapBottom = e := Option.some.inj he
      constructor
      · rintro ⟨g, hg, hgap⟩
        obtain ⟨h₁, h₂⟩ := gapsBelow_bounds h h.memStart_le_arena g hg
        omega
      · intro hroom
        exact ⟨_, List.mem_cons_self, by dsimp only; omega⟩
    · rw [if_neg hlead] at he
      obtain rfl := Option.some.inj he
      obtain ⟨us, vs, hsplit, -⟩ := host_split n a bs
      have hhost : Proper (host n a bs) := h.sorted.proper _ (by simp [hsplit])
      rw [hhost.add32, SomeGap, gaps, gapsBelow]
      have hiff := exists_gapBelow_iff (n := n) h
      constructor
      · rintro ⟨g, hg, hgap⟩
        rcases List.mem_cons.1 hg with rfl | hg
        · dsimp only at hgap
          omega
        · have hroom := hiff.1 ⟨g, hg, hgap⟩
          omega
      · intro hroom
        obtain ⟨g, hg, hgap⟩ := hiff.2 (by omega)
        exact ⟨g, List.mem_cons_of_mem _ hg, hgap⟩

/-- No range of the arena holds more bytes than the arena. -/
theorem SomeGap.le (h : SomeGap n bs) (hd : Descending bs) : heapTop + n ≤ heapBottom - 1 := by
  obtain ⟨g, hg, hgap⟩ := h
  obtain ⟨h₁, h₂⟩ := gapsBelow_bounds hd hd.memStart_le_arena g hg
  omega

/-- The end found lies in the arena. -/
theorem endFor_le (h : Descending bs) (he : endFor n bs = some e) : 0 < e ∧ e ≤ heapBottom := by
  have harena := arena
  cases bs with
  | nil =>
    obtain rfl : heapBottom = e := Option.some.inj he
    omega
  | cons a bs =>
    rw [endFor] at he
    split_ifs at he
    · obtain rfl : heapBottom = e := Option.some.inj he
      omega
    · obtain rfl := Option.some.inj he
      obtain ⟨us, vs, hsplit, -⟩ := host_split n a bs
      have hhost : Proper (host n a bs) := h.sorted.proper _ (by simp [hsplit])
      have hlt := hhost.memStart_lt
      rw [hhost.add32]
      omega

end Layout

/-! ### What `malloc` finds -/

open Layout

namespace Heap

/-- No page above the arena is present, as `paging_init` and `set_page` leave them. -/
def Unmapped (h : Heap) : Prop := ∀ i, memCache ≤ i → i < 1024 → h.present i = false

/-- `malloc(n)` returns an address exactly if some free range holds `n` bytes, whatever lies in the
place of `mem_end`. -/
def FindsGap (h : Heap) (n : ℕ) : Prop :=
  ∀ stale < 2 ^ 32, (∃ h' p unassigned, h.malloc n stale = some (h', .block p, unassigned)) ↔
    SomeGap n h.blocks

variable {h h' : Heap} {l : List ℕ} {b : Block} {n e p stale : ℕ} {unassigned : Bool}

/-- A block that wraps around address 0 has a byte above the arena. -/
theorem outcome_ne_block (hu : h.Unmapped) (hn : 0 < n) (hn' : n < 2 ^ 32)
    (hstart : b.memStart < 2 ^ 32) (hlen : b.memStart + n + 1 = b.memEnd + 2 ^ 32) :
    h.outcome n b ≠ .block p := by
  intro hres
  unfold outcome at hres
  split_ifs at hres with hlow hpages
  simp only [writable, List.all_eq_true, List.mem_range] at hpages
  by_cases hend : b.memEnd / 4194304 < 1023
  · -- the last page of the address space is not one of those mapped for the block
    have hlast := hpages (1023 - b.memStart / 4194304) (by unfold fourMeg; omega)
    have hpage : (b.memStart / fourMeg + (1023 - b.memStart / 4194304)) % 1024 = 1023 := by
      unfold fourMeg
      omega
    rw [hpage] at hlast
    have habsent := hu 1023 (by decide) (by decide)
    have hbeyond : ¬ 1023 ≤ b.memEnd / fourMeg := Nat.not_le.2 hend
    simp [mapPages, habsent, hbeyond] at hlast
  · -- only the last page is mapped, and the block reaches through all the others
    have hpage : b.memStart / fourMeg = 1023 := by
      unfold fourMeg
      omega
    have hfirst := hpages 61 (by unfold fourMeg; omega)
    have habsent := hu 60 (by decide) (by decide)
    simp [mapPages, hpage, habsent] at hfirst

theorem outcome_block_iff (hu : h.Unmapped) (hn : 0 < n) (hn' : n < 2 ^ 32) (he : e < 2 ^ 32) :
    (∃ p, h.outcome n (blockBelow n e) = .block p) ↔ heapTop + n + 1 ≤ e := by
  have hstart := blockBelow_memStart hn' he
  have hend : (blockBelow n e).memEnd = e := rfl
  by_cases hlt : n < e
  · rw [if_pos hlt] at hstart
    constructor
    · rintro ⟨p, hp⟩
      have hfloor := (outcome_block hp).2
      omega
    · intro hroom
      exact ⟨_, outcome_of_le (by omega) (by omega) (by omega)⟩
  · rw [if_neg hlt] at hstart
    refine iff_of_false ?_ (by omega)
    rintro ⟨p, hp⟩
    exact outcome_ne_block hu hn hn' (by omega) (by omega) hp

/-- An address is what the outcome gives. -/
theorem malloc_block_iff (hr : ListRep h l) (hn : 0 < n) (hcap : h.listIdx < listCap) :
    (∃ h' p unassigned, h.malloc n stale = some (h', .block p, unassigned)) ↔
      ∃ p, h.outcome n (blockBelow n ((endFor n h.blocks).getD stale)) = .block p := by
  obtain ⟨h₁, l₁, hcall, -⟩ := malloc_spec stale hr hn hcap
  rw [hcall]
  constructor
  · rintro ⟨h', p, unassigned, heq⟩
    exact ⟨p, (Prod.mk.inj (Prod.mk.inj (Option.some.inj heq)).2).1⟩
  · rintro ⟨p, hp⟩
    exact ⟨h₁, p, _, by rw [hp]⟩

/-- If no branch assigns `mem_end`, then what lies in its place decides. -/
theorem not_findsGap_of_endFor (hr : ListRep h l) (hu : h.Unmapped) (hn : 0 < n)
    (hcap : h.listIdx < listCap) (hend : endFor n h.blocks = none)
    (hsmall : heapTop + n + 1 < 2 ^ 32) : ¬ h.FindsGap n := by
  have hblock : ∀ stale < 2 ^ 32,
      ((∃ h' p unassigned, h.malloc n stale = some (h', .block p, unassigned)) ↔
        heapTop + n + 1 ≤ stale) := by
    intro stale hstale
    rw [malloc_block_iff hr hn hcap, hend, Option.getD_none,
      outcome_block_iff hu hn (by omega) hstale]
  intro hfinds
  -- two values of the variable, one for each answer
  have hyes := (hfinds (heapTop + n + 1) hsmall).1 ((hblock _ hsmall).2 (Nat.le_refl _))
  have hno := (hblock 0 (by decide)).1 ((hfinds 0 (by decide)).2 hyes)
  omega

/-- **Looking for a gap.**  While there are list nodes, `malloc` is right about the gaps of a
descending list exactly if the leading range is empty or large enough, or the request is too large
for any end; without a node for it, it is right exactly if there is no gap. -/
theorem findsGap_iff (hr : ListRep h l) (hd : Descending h.blocks) (hu : h.Unmapped) (hn : 0 < n)
    (hn' : n < 2 ^ 32) : h.FindsGap n ↔
      if h.listIdx < listCap then LeadingFits n h.blocks ∨ 2 ^ 32 ≤ heapTop + n + 1
      else ¬ SomeGap n h.blocks := by
  have harena := arena
  by_cases hcap : h.listIdx < listCap
  · rw [if_pos hcap]
    cases hend : endFor n h.blocks with
    | some e =>
      have hfits : LeadingFits n h.blocks := (endFor_isSome_iff hd).1 (by rw [hend]; rfl)
      have he := endFor_le hd hend
      refine iff_of_true (fun stale _ => ?_) (.inl hfits)
      rw [malloc_block_iff hr hn hcap, hend, Option.getD_some,
        outcome_block_iff hu hn hn' (by omega), someGap_iff hd hn hend]
    | none =>
      have hfits : ¬ LeadingFits n h.blocks := by
        rw [← endFor_isSome_iff hd, hend]
        simp
      rw [or_iff_right hfits]
      constructor
      · intro hfinds
        by_contra hsmall
        exact not_findsGap_of_endFor hr hu hn hcap hend (Nat.not_le.1 hsmall) hfinds
      · intro hlarge stale hstale
        rw [malloc_block_iff hr hn hcap, hend, Option.getD_none,
          outcome_block_iff hu hn hn' hstale]
        refine iff_of_false (by omega) fun hgap => ?_
        have hle := hgap.le hd
        omega
  · rw [if_neg hcap]
    have hnone : ∀ stale, h.malloc n stale = none := fun _ =>
      malloc_full hn.ne' (Nat.not_lt.1 hcap)
    constructor
    · intro hfinds hgap
      obtain ⟨h', p, unassigned, hcall⟩ := (hfinds 0 (by decide)).2 hgap
      rw [hnone] at hcall
      cases hcall
    · intro hgap stale _
      rw [hnone]
      exact iff_of_false (by simp) hgap

theorem unmapped_init : Unmapped .init := by
  intro i hi hi'
  have h60 : 60 ≤ i := hi
  simp only [init, decide_eq_false_iff_not, List.mem_cons, List.not_mem_nil, or_false]
  omega

/-- While every request finds room, nothing above the arena gets mapped. -/
theorem unmapped_of_reach {s : HeapState} (h : heapMachine.Reach RoomStep .init s) :
    s.heap.Unmapped := by
  have hinv : HeapInv s ∧ s.heap.Unmapped := by
    refine h.invariant (I := fun s => HeapInv s ∧ s.heap.Unmapped) ⟨HeapInv.init, unmapped_init⟩ ?_
    rintro s op s' ⟨hs, hu⟩ hop hst
    obtain ⟨s'', hst', hs'⟩ := hs.step hop
    obtain rfl := Option.some.inj (hst'.symm.trans hst)
    refine ⟨hs', ?_⟩
    obtain ⟨l, hr⟩ := hs.rep
    cases op with
    | free ptr =>
      obtain ⟨h', hcall, -, -, hpres, -⟩ := free_spec ptr.toNat hr
      obtain rfl := Option.some.inj ((heap_step_free hcall).symm.trans hst)
      rw [Unmapped, hpres]
      exact hu
    | malloc n stale =>
      by_cases hn : n.toNat = 0
      · obtain ⟨live, hstep⟩ := heap_step_malloc (malloc_zero hn)
        obtain rfl := Option.some.inj (hstep.symm.trans hst)
        exact hu
      · obtain ⟨hcap, hroom⟩ := hop.resolve_left fun e => hn (by simp [e])
        have hpos : 0 < n.toNat := Nat.pos_of_ne_zero hn
        obtain ⟨h', l', hcall, -, -, -, -, -, -, hpres⟩ := malloc_spec stale.toNat hr hpos hcap
        obtain ⟨e, xs, ys, he, -, hnew, hsorted⟩ := hs.sorted.place hpos n.toNat_lt hroom
        obtain ⟨live, hstep⟩ := heap_step_malloc hcall
        obtain rfl := Option.some.inj (hstep.symm.trans hst)
        rw [hnew] at hsorted
        have hend : e ≤ heapBottom := (hsorted.proper (blockBelow n.toNat e) (by simp)).2.1
        have hlast : heapBottom / fourMeg < memCache := by decide
        have hpage : e / fourMeg < memCache :=
          Nat.lt_of_le_of_lt (Nat.div_le_div_right hend) hlast
        rw [he, Option.getD_some, presentAfter] at hpres
        rw [Unmapped, hpres]
        intro i hi hi'
        have habove : ¬ i ≤ e / fourMeg := by omega
        split_ifs
        · exact hu i hi hi'
        · simp [mapPages, blockBelow, hu i hi hi', habove]
  exact hinv.2

/-- Three blocks, of which the one in the middle is given back. -/
def gapOps : List HeapOp := [.malloc 10 0, .malloc 100 0, .malloc 1000 0, .free 251658128]

/-- Two blocks with a range of 100 bytes between them. -/
def gapBlocks : List Block := [⟨251658228, 251658239⟩, ⟨251657128, 251658129⟩]

theorem descending_gapBlocks : Descending gapBlocks where
  pairwise := by decide
  nonempty := by decide
  memEnd_le := by decide

/-- The heap after `gapOps`, and what a request of 50 bytes gets from it. -/
theorem exists_gapHeap : ∃ s l, heapMachine.exec .init gapOps = some s ∧ ListRep s.heap l ∧
    s.heap.blocks = gapBlocks ∧ s.heap.listIdx = 3 ∧ s.heap.Unmapped ∧
    ∃ h', s.heap.malloc 50 0 = some (h', .block 251658178, false) := by
  have hrun : ((heapMachine.exec .init gapOps).map fun s => (s.heap.blocks, s.heap.listIdx,
      (List.range 1024).all (fun i => i < memCache || !s.heap.present i),
      (s.heap.malloc 50 0).map Prod.snd)) =
        some (gapBlocks, 3, true, some (.block 251658178, false)) := by
    decide +kernel
  obtain ⟨s, hexec, hs⟩ := Option.map_eq_some_iff.1 hrun
  simp only [Prod.mk.injEq] at hs
  obtain ⟨hblocks, hidx, hpages, hcall⟩ := hs
  obtain ⟨l, hr⟩ := listRep_of_reachable (Machine.reachable_of_exec hexec)
  obtain ⟨⟨h', r⟩, hcall, rfl⟩ := Option.map_eq_some_iff.1 hcall
  refine ⟨s, l, hexec, hr, hblocks, hidx, fun i hi hi' => ?_, h', hcall⟩
  have hpage := List.all_eq_true.1 hpages i (List.mem_range.2 hi')
  simpa [Nat.not_lt.2 hi] using hpage

/-- The range between the two blocks is found. -/
theorem findsGap_between : ∃ s, heapMachine.exec .init gapOps = some s ∧
    SomeGap 100 s.heap.blocks ∧ s.heap.FindsGap 100 := by
  obtain ⟨s, l, hexec, hr, hblocks, hidx, hu, -⟩ := exists_gapHeap
  have hgap : SomeGap 100 gapBlocks :=
    ⟨(251658128, 251658228), by decide, by decide⟩
  have hlead : LeadingFits 100 gapBlocks := fun a ha => by
    cases ha
    exact .inl rfl
  refine ⟨s, hexec, by rwa [hblocks],
    (findsGap_iff hr (by rw [hblocks]; exact descending_gapBlocks) hu (by decide) (by decide)).2 ?_⟩
  rw [if_pos (by rw [hidx]; decide), hblocks]
  exact .inl hlead

/-- Two requests of ten bytes, the first of which is freed. -/
theorem exec_freed : ((heapMachine.exec .init [.malloc 10 0, .malloc 10 0, .free 251658228]).map
    fun s => (s.heap.blocks, s.heap.listIdx, (List.range 1024).all fun i =>
      i < memCache || !s.heap.present i)) =
    some ([⟨251658218, 251658229⟩], 2, true) := by
  decide +kernel

/-- There are ten bytes above a block that does not end with the arena, and 100 are requested. -/
theorem not_findsGap : ¬ ∀ (s : HeapState) (n : ℕ), heapMachine.Reachable .init s →
    Descending s.heap.blocks → s.heap.Unmapped → 0 < n → n < 2 ^ 32 → s.heap.FindsGap n := by
  intro h
  obtain ⟨s, hexec, hs⟩ := Option.map_eq_some_iff.1 exec_freed
  simp only [Prod.mk.injEq] at hs
  obtain ⟨hblocks, hidx, hpages⟩ := hs
  have hreach := Machine.reachable_of_exec hexec
  obtain ⟨l, hr⟩ := listRep_of_reachable hreach
  have hd : Descending s.heap.blocks := by
    rw [hblocks]
    exact ⟨List.pairwise_singleton _ _, by decide, by decide⟩
  have hu : s.heap.Unmapped := by
    intro i hi hi'
    have hpage := List.all_eq_true.1 hpages i (List.mem_range.2 hi')
    simpa [Nat.not_lt.2 hi] using hpage
  have hcap : s.heap.listIdx < listCap := by
    rw [hidx]
    decide
  refine not_findsGap_of_endFor hr hu (n := 100) (by decide) hcap ?_ (by decide)
    (h s 100 hreach hd hu (by decide) (by decide))
  rw [hblocks]
  decide

/-! ### Giving back -/

/-- The nodes of the list from `mem_head`. -/
def nodes (h : Heap) : List ℕ := h.chain h.listIdx h.memHead

theorem ListRep.nodes (hr : ListRep h l) : h.nodes = l := chain_eq hr.linked hr.length_le

/-- The block of a request that gets an address starts where no other block does. -/
theorem memStart_ne {bs : List Block} (hd : Descending bs) (hn : 0 < n) (hn' : n < 2 ^ 32)
    (he : endFor n bs = some e) (hroom : heapTop + n + 1 ≤ e) :
    ∀ c ∈ bs, c.memStart ≠ (blockBelow n e).memStart := by
  have harena := arena
  have hele := endFor_le hd he
  have hfits : LeadingFits n bs := (endFor_isSome_iff hd).1 (by rw [he]; rfl)
  have hfor : RoomFor n bs := by
    cases bs with
    | nil =>
      rw [RoomFor]
      omega
    | cons a bs =>
      rw [RoomFor]
      by_cases hlead : a.memEnd ≠ heapBottom
      · rw [if_pos hlead]
        exact (hfits a rfl).resolve_left hlead
      · rw [endFor, if_neg hlead] at he
        obtain rfl := Option.some.inj he
        obtain ⟨us, vs, hsplit, -⟩ := host_split n a bs
        have hhost : Proper (host n a bs) := hd.sorted.proper _ (by simp [hsplit])
        rw [hhost.add32] at hroom
        rw [if_neg hlead]
        exact .inl (by omega)
  obtain ⟨e', xs, ys, he', hold, hnew, hsorted⟩ := hd.sorted.place hn hn' hfor
  obtain rfl : e = e' := Option.some.inj (he.symm.trans he')
  rw [hnew] at hsorted
  have hstart := blockBelow_memStart (n := n) (e := e) hn' (by omega)
  rw [if_pos (by omega)] at hstart
  have hend : (blockBelow n e).memEnd = e := rfl
  have hpw := List.pairwise_append.1 hsorted.pairwise
  intro c hc
  rw [hold] at hc
  rcases List.mem_append.1 hc with hc | hc
  · have habove : Below c (blockBelow n e) := hpw.2.2 c hc _ List.mem_cons_self
    unfold Below at habove
    omega
  · have hbelow : Below (blockBelow n e) c := (List.pairwise_cons.1 hpw.2.1).1 c hc
    have hlen := hd.nonempty c (by rw [hold]; exact List.mem_append_right _ hc)
    unfold Below at hbelow
    omega

/-- **Giving back.**  A request that gets the address `p`, on a descending list whose leading range
is empty or large enough, is undone by `free(p)`: the same nodes in the same order, with the same
bounds. -/
theorem malloc_free (hr : ListRep h l) (hd : Descending h.blocks) (hu : h.Unmapped) (hn : 0 < n)
    (hn' : n < 2 ^ 32) (hfits : LeadingFits n h.blocks)
    (hcall : h.malloc n stale = some (h', .block p, unassigned)) :
    ∃ h'', h'.free p = some h'' ∧ h''.nodes = h.nodes ∧ h''.blocks = h.blocks := by
  have hcap : h.listIdx < listCap := by
    by_contra hge
    rw [malloc_full hn.ne' (Nat.not_lt.1 hge)] at hcall
    cases hcall
  obtain ⟨e, he⟩ := Option.isSome_iff_exists.1 ((endFor_isSome_iff hd).2 hfits)
  have hele := endFor_le hd he
  have harena := arena
  obtain ⟨h₁, l', hcall', hr', hlink, -, -, hnew, hkept, -⟩ := malloc_spec stale hr hn hcap
  rw [hcall] at hcall'
  simp only [he, Option.getD_some, Option.some.injEq, Prod.mk.injEq] at hcall' hnew
  obtain ⟨rfl, hres, -⟩ := hcall'
  have hp : p = (blockBelow n e).memStart := (outcome_block hres.symm).1
  have hroom := (outcome_block_iff hu hn hn' (by omega)).1 ⟨_, hres.symm⟩
  have hother : ∀ i ∈ l, (h'.block i).memStart ≠ p := by
    intro i hi
    rw [hkept i hi, hp]
    refine memStart_ne hd hn hn' he hroom _ ?_
    rw [hr.blocks]
    exact List.mem_map_of_mem hi
  rw [he] at hlink
  obtain ⟨xs, ys, rfl, rfl⟩ := hlink
  -- the loop passes over the nodes before the new one and takes it out
  have herase : (xs ++ h.listIdx :: ys).eraseP (fun i => (h'.block i).memStart = p) =
      xs ++ ys := by
    rw [List.eraseP_append_right _ fun i hi => by simpa using hother i (List.mem_append_left _ hi),
      List.eraseP_cons_of_pos (by simp [hnew, hp])]
  obtain ⟨h'', hfree, hr'', -, -, hblk⟩ := free_spec p hr'
  rw [herase] at hr''
  refine ⟨h'', hfree, ?_, ?_⟩
  · rw [hr''.nodes, hr.nodes]
  · rw [hr''.blocks, hr.blocks]
    refine List.map_congr_left fun i hi => ?_
    rw [hblk, hkept i hi]

/-- 50 bytes between two blocks. -/
theorem malloc_free_between : ∃ s h' h'', heapMachine.exec .init gapOps = some s ∧
    s.heap.malloc 50 0 = some (h', .block 251658178, false) ∧ h'.free 251658178 = some h'' ∧
    h''.nodes = s.heap.nodes ∧ h''.blocks = gapBlocks := by
  obtain ⟨s, l, hexec, hr, hblocks, -, hu, h', hcall⟩ := exists_gapHeap
  have hlead : LeadingFits 50 gapBlocks := fun a ha => by
    cases ha
    exact .inl rfl
  obtain ⟨h'', hfree, hnodes, hsame⟩ := malloc_free hr (by rw [hblocks]; exact descending_gapBlocks)
    hu (by decide) (by decide) (by rwa [hblocks]) hcall
  exact ⟨s, h', h'', hexec, hcall, hfree, hnodes, hsame.trans hblocks⟩

end Heap

end KTeamOS
