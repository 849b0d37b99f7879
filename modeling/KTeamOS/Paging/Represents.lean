import KTeamOS.Paging.Space

/-!
# The tables are the address space

Every call keeps the bits of the entries such that the walk finds what `Space` says, and leaves
nothing else in the cache (`paging_refines`).
-/

namespace KTeamOS

/-- The entries say what the address space `s` says. -/
structure Paging.Represents (place : TablePlaces) (p : Paging) (s : Space) : Prop where
  low : (p.pageDirectory 0).PointsTo false place.pageTable4kb
  lowPage : ∀ i, LowPage i → (p.pageTable4kb i).Maps (s.text i)
  lowRest : ∀ i, ¬ LowPage i → (p.pageTable4kb i).present = false
  kernel : (p.pageDirectory 1).Maps false 1
  exe : ∀ f, s.exe = some f → (p.pageDirectory 32).Maps true f
  noExe : s.exe = none → (p.pageDirectory 32).present = false
  exeShape : (p.pageDirectory 32).readWrite = true ∧ (p.pageDirectory 32).pageSize = true
  video : (p.pageDirectory 33).PointsTo true place.vidmapTable
  screen : (p.vidmapTable 0xB8).Maps s.screen
  videoRest : ∀ i, i ≠ 0xB8 → (p.vidmapTable i).present = false
  build : (p.pageDirectory 34).Maps true 34
  heap : ∀ i, s.heap i = true → (p.pageDirectory i).Maps true i
  rest : ∀ i, i ∉ [0, 1, 32, 33, 34] → s.heap i = false → (p.pageDirectory i).present = false
  arena : ∀ i, s.heap i = true → 39 ≤ i ∧ i < 60

namespace Paging.Represents

variable {place : TablePlaces} {p : Paging} {s : Space} {i n f pid t : ℕ}

/-- **The walk** finds what the address space says. -/
theorem lookup (h : Paging.Represents place p s) (page : ℕ) :
    (p.tables place).lookup page = s.map page := by
  have hmod : page / 1024 * 1024 + page % 1024 = page := Nat.div_add_mod' ..
  have hdir : ∀ i, page / 1024 = i →
      (p.tables place).dir (page / 1024) = (p.pageDirectory i).word := by
    rintro i rfl
    rfl
  unfold Space.map
  split_ifs with h0 hlow h1 h32 h33 hscreen h34 hheap
  · rw [h.low.lookup (hdir 0 h0)]
    change Mmu.leaf false true (if _ then _ else _) = _
    rw [if_pos rfl, (h.lowPage _ hlow).leaf]
  · rw [h.low.lookup (hdir 0 h0)]
    change Mmu.leaf false true (if _ then _ else _) = _
    rw [if_pos rfl, TableEntry.leaf_absent (h.lowRest _ hlow)]
  · rw [h.kernel.lookup (hdir 1 h1), ← h1, hmod]
  · rcases hexe : s.exe with _ | f
    · rw [DirEntry.lookup_absent (h.noExe hexe) (hdir 32 h32)]
      rfl
    · rw [(h.exe f hexe).lookup (hdir 32 h32)]
      rfl
  · rw [h.video.lookup (hdir 33 h33)]
    change Mmu.leaf true true (if _ then _ else _) = _
    rw [if_neg place.ne.symm, if_pos rfl, hscreen, h.screen.leaf]
  · rw [h.video.lookup (hdir 33 h33)]
    change Mmu.leaf true true (if _ then _ else _) = _
    rw [if_neg place.ne.symm, if_pos rfl, TableEntry.leaf_absent (h.videoRest _ hscreen)]
  · rw [h.build.lookup (hdir 34 h34), ← h34, hmod]
  · rw [(h.heap _ hheap).lookup (hdir _ rfl), hmod]
  · have hrest : page / 1024 ∉ [0, 1, 32, 33, 34] := by
      simp only [List.mem_cons, List.not_mem_nil, or_false, not_or]
      exact ⟨h0, h1, h32, h33, h34⟩
    have hnone : s.heap (page / 1024) = false := Bool.eq_false_iff.2 hheap
    exact DirEntry.lookup_absent (h.rest _ hrest hnone) (hdir _ rfl)

/-! ### The calls -/

theorem setFrame (h : Paging.Represents place p s) (hi : LowPage i) (hf : f < 2 ^ 20) :
    Paging.Represents place (p.setFrame i f) (s.setText i f) where
  low := h.low
  lowPage j hj := by
    change TableEntry.Maps (Function.update p.pageTable4kb i _ j) (Function.update s.text i f j)
    by_cases hij : j = i
    · subst hij
      obtain ⟨hpresent, hwrite, huser, -⟩ := h.lowPage j hj
      rw [Function.update_self, Function.update_self]
      exact ⟨hpresent, hwrite, huser, Nat.mod_eq_of_lt hf⟩
    · rw [Function.update_of_ne hij, Function.update_of_ne hij]
      exact h.lowPage j hj
  lowRest j hj := by
    change (Function.update p.pageTable4kb i _ j).present = false
    rw [Function.update_of_ne (by rintro rfl; exact hj hi)]
    exact h.lowRest j hj
  kernel := h.kernel
  exe := h.exe
  noExe := h.noExe
  exeShape := h.exeShape
  video := h.video
  screen := h.screen
  videoRest := h.videoRest
  build := h.build
  heap := h.heap
  rest := h.rest
  arena := h.arena

theorem setScreen (h : Paging.Represents place p s) (hf : f < 2 ^ 20) :
    Paging.Represents place (p.setScreen f) { s with screen := f } where
  low := h.low
  lowPage := h.lowPage
  lowRest := h.lowRest
  kernel := h.kernel
  exe := h.exe
  noExe := h.noExe
  exeShape := h.exeShape
  video := h.video
  screen := by
    obtain ⟨hpresent, hwrite, huser, -⟩ := h.screen
    change TableEntry.Maps (Function.update p.vidmapTable 0xB8 _ 0xB8) f
    rw [Function.update_self]
    exact ⟨hpresent, hwrite, huser, Nat.mod_eq_of_lt hf⟩
  videoRest i hi := by
    change (Function.update p.vidmapTable 0xB8 _ i).present = false
    rw [Function.update_of_ne hi]
    exact h.videoRest i hi
  build := h.build
  heap := h.heap
  rest := h.rest
  arena := h.arena

/-- An entry of the directory for one of the pages that are not fixed. -/
theorem setDir (h : Paging.Represents place p s) {e : DirEntry} {s' : Space} (hi : i = 32 ∨ 39 ≤ i)
    (htext : s'.text = s.text) (hscreen : s'.screen = s.screen)
    (harena : ∀ j, s'.heap j = true → 39 ≤ j ∧ j < 60)
    (hexe : ∀ f, s'.exe = some f → (Function.update p.pageDirectory i e 32).Maps true f)
    (hnoExe : s'.exe = none → (Function.update p.pageDirectory i e 32).present = false)
    (hshape : i = 32 → e.readWrite = true ∧ e.pageSize = true)
    (hheap : ∀ j, s'.heap j = true → (Function.update p.pageDirectory i e j).Maps true j)
    (hrest : ∀ j, j ∉ [0, 1, 32, 33, 34] → s'.heap j = false →
      (Function.update p.pageDirectory i e j).present = false) :
    Paging.Represents place (p.setDir i e) s' where
  low := by
    change DirEntry.PointsTo (Function.update p.pageDirectory i e 0) _ _
    rw [Function.update_of_ne (by omega)]
    exact h.low
  lowPage j hj := htext ▸ h.lowPage j hj
  lowRest := h.lowRest
  kernel := by
    change DirEntry.Maps (Function.update p.pageDirectory i e 1) _ _
    rw [Function.update_of_ne (by omega)]
    exact h.kernel
  exe := hexe
  noExe := hnoExe
  exeShape := by
    change (Function.update p.pageDirectory i e 32).readWrite = true ∧
      (Function.update p.pageDirectory i e 32).pageSize = true
    by_cases h32 : 32 = i
    · rw [← h32, Function.update_self]
      exact hshape h32.symm
    · rw [Function.update_of_ne h32]
      exact h.exeShape
  video := by
    change DirEntry.PointsTo (Function.update p.pageDirectory i e 33) _ _
    rw [Function.update_of_ne (by omega)]
    exact h.video
  screen := hscreen ▸ h.screen
  videoRest := h.videoRest
  build := by
    change DirEntry.Maps (Function.update p.pageDirectory i e 34) _ _
    rw [Function.update_of_ne (by omega)]
    exact h.build
  heap := hheap
  rest := hrest
  arena := harena

theorem setPage (h : Paging.Represents place p s) (pid : ℕ) :
    Paging.Represents place (p.setPage pid) (s.setPage pid) := by
  have hnot : ∀ j, s.heap j = true → j ≠ Paging.exeIdx := fun j hj => by
    have harena := h.arena j hj
    unfold Paging.exeIdx
    omega
  refine h.setDir (.inl rfl) rfl rfl h.arena (fun f hf => ?_) (fun hnone => by cases hnone)
    (fun _ => h.exeShape) (fun j hj => ?_) fun j hj hheap => ?_
  · rw [Function.update_self]
    refine ⟨rfl, h.exeShape.1, rfl, h.exeShape.2, ?_⟩
    have hval : (pid + 2) * 0x400000 % 2 ^ 32 / 2 ^ 22 % 2 ^ 10 = (pid + 2) % 1024 := by omega
    exact hval.trans (Option.some.inj hf)
  · rw [Function.update_of_ne (hnot j hj)]
    exact h.heap j hj
  · have hne : j ≠ Paging.exeIdx := by
      rintro rfl
      simp at hj
    rw [Function.update_of_ne hne]
    exact h.rest j hj hheap

/-- One turn of the loop of `malloc`. -/
theorem mapPage (h : Paging.Represents place p s) (hi : 39 ≤ i ∧ i < 60) {e : DirEntry}
    (he : e.Maps true i) : Paging.Represents place (p.setDir i e) (s.mapBlock i 1) := by
  have h32 : 32 ≠ i := by omega
  have hheap : ∀ j, (s.mapBlock i 1).heap j = (s.heap j || decide (j = i)) := by
    intro j
    change (s.heap j || decide (i ≤ j ∧ j < i + 1)) = _
    congr 2
    refine propext ?_
    omega
  refine h.setDir (.inr hi.1) rfl rfl (fun j hj => ?_) (fun f hf => ?_) (fun hnone => ?_)
    (fun h32' => absurd h32'.symm h32) (fun j hj => ?_) fun j hj hnone => ?_
  · rw [hheap] at hj
    rcases Bool.or_eq_true_iff.1 hj with hj | hj
    · exact h.arena j hj
    · rw [of_decide_eq_true hj]
      exact hi
  · rw [Function.update_of_ne h32]
    exact h.exe f hf
  · rw [Function.update_of_ne h32]
    exact h.noExe hnone
  · rw [hheap] at hj
    by_cases hij : j = i
    · subst hij
      rwa [Function.update_self]
    · rw [Function.update_of_ne hij]
      refine h.heap j ((Bool.or_eq_true_iff.1 hj).resolve_right ?_)
      simpa using hij
  · rw [hheap] at hnone
    obtain ⟨hold, hij⟩ := Bool.or_eq_false_iff.1 hnone
    rw [Function.update_of_ne (of_decide_eq_false hij)]
    exact h.rest j hj hold

theorem mapBlock (h : Paging.Represents place p s) (hi : 39 ≤ i ∧ i + n ≤ 60) :
    Paging.Represents place (p.mapBlock i n) (s.mapBlock i n) := by
  induction n with
  | zero =>
    rw [Space.mapBlock_zero]
    exact h
  | succ n ih =>
    have hval : (i + n) * 0x400000 % 2 ^ 32 / 2 ^ 22 % 2 ^ 10 = i + n := by omega
    rw [Space.mapBlock_succ]
    exact (ih ⟨hi.1, by omega⟩).mapPage ⟨by omega, by omega⟩ ⟨rfl, rfl, rfl, rfl, hval⟩

end Paging.Represents

/-! ### `paging_init` -/

theorem openPages_apply {t : ℕ → TableEntry} {first n i : ℕ} : openPages t first n i =
    if first ≤ i ∧ i < first + n then tablePage true true true i else t i := by
  induction n with
  | zero => rw [openPages, if_neg (by omega)]
  | succ n ih =>
    rw [openPages]
    by_cases hi : i = first + n
    · rw [hi, Function.update_self, if_pos (by omega)]
    · rw [Function.update_of_ne hi, ih]
      exact if_congr (by omega) rfl rfl

theorem maps_tablePage {i : ℕ} (hi : i < 2 ^ 20) : (tablePage true true true i).Maps i := by
  have hval : i * 4096 / 2 ^ 12 % 2 ^ 20 = i := by omega
  exact ⟨rfl, rfl, rfl, hval⟩

/-- The table of the first 4 MB behind the loops. -/
theorem pagingInit_table (place : TablePlaces) (i : ℕ) (h : i ≠ 0xB8) (hfirst : i ≠ 0xD1) :
    (pagingInit place).pageTable4kb i =
      if LowPage i then tablePage true true true i else tablePage false false false i := by
  change Function.update (Function.update (openPages (Function.update
    (openPages (openPages (tablePage false false false) 16 33) 160 33) 0xB8 _) 0xD1 3) 0xD1 _)
    0xB8 _ i = _
  rw [Function.update_of_ne h, Function.update_of_ne hfirst, openPages_apply,
    Function.update_of_ne h, openPages_apply, openPages_apply]
  by_cases h₁ : 0xD1 ≤ i ∧ i < 0xD1 + 3
  · have hlow : LowPage i := by unfold LowPage; omega
    rw [if_pos h₁, if_pos hlow]
  · by_cases h₂ : 160 ≤ i ∧ i < 160 + 33
    · have hlow : LowPage i := by unfold LowPage; omega
      rw [if_neg h₁, if_pos h₂, if_pos hlow]
    · rw [if_neg h₁, if_neg h₂]
      exact if_congr (by unfold LowPage; omega) rfl rfl

/-- What `paging_init` sets up. -/
theorem represents_init (place : TablePlaces) :
    Paging.Represents place (pagingInit place) Space.init where
  low := DirEntry.pointsTo_pointTo (e := initialDir 0) place.pageTable4kb_lt
    place.pageTable4kb_aligned rfl rfl
  lowPage i hi := by
    by_cases hvga : i = 0xB8
    · subst hvga
      exact ⟨rfl, rfl, rfl, rfl⟩
    · by_cases hfirst : i = 0xD1
      · subst hfirst
        exact ⟨rfl, rfl, rfl, rfl⟩
      · rw [pagingInit_table place i hvga hfirst, if_pos hi]
        have htext : Space.init.text i = i := if_neg hfirst
        rw [htext]
        exact maps_tablePage (by unfold LowPage at hi; omega)
  lowRest i hi := by
    rw [pagingInit_table place i (by unfold LowPage at hi; omega) (by unfold LowPage at hi; omega),
      if_neg hi]
    rfl
  kernel := ⟨rfl, rfl, rfl, rfl, rfl⟩
  exe f hf := by cases hf
  noExe _ := rfl
  exeShape := ⟨rfl, rfl⟩
  video := DirEntry.pointsTo_pointTo (e := initialDir 33) place.vidmapTable_lt
    place.vidmapTable_aligned rfl rfl
  screen := ⟨rfl, rfl, rfl, rfl⟩
  videoRest i hi := by
    change (Function.update (tablePage false false true) 0xB8 _ i).present = false
    rw [Function.update_of_ne hi]
    rfl
  build := ⟨rfl, rfl, rfl, rfl, rfl⟩
  heap i hi := by cases hi
  rest i hi _ := by
    simp only [List.mem_cons, List.not_mem_nil, or_false, not_or] at hi
    obtain ⟨h0, h1, h32, h33, h34⟩ := hi
    change (Function.update (Function.update (Function.update (Function.update initialDir 0 _) 1 _)
      33 _) 34 _ i).present = false
    rw [Function.update_of_ne h34, Function.update_of_ne h33, Function.update_of_ne h1,
      Function.update_of_ne h0]
    rfl
  arena i hi := by cases hi

/-! ### Runs -/

/-- The tables say what the address space says, and the cache holds nothing else. -/
def Current (place : TablePlaces) (s : PagingState) (t : Space) : Prop :=
  Paging.Represents place s.paging t ∧ Mmu.Coherent s.tlb (s.paging.tables place)

theorem current_flushed {place : TablePlaces} {p : Paging} {t : Space}
    (h : Paging.Represents place p t) : Current place (PagingState.flushed p) t :=
  ⟨h, Mmu.coherent_flushed⟩

/-- A block that is mapped adds pages only. -/
theorem mapBlock_extends {t : Space} {first n page : ℕ} {m : Mmu.Mapping}
    (h : t.map page = some m) : (t.mapBlock first n).map page = some m := by
  unfold Space.map at h ⊢
  split_ifs at h ⊢ with h0 hlow h1 h32 h33 hscreen h34 hheap hheap'
  · exact h
  · exact h
  · exact h
  · exact h
  · exact h
  · exact h
  · -- a page of the heap stays one
    have hold : t.heap (page / 1024) = true := by assumption
    exact hheap (Bool.or_eq_true_iff.2 (.inl hold))

/-- One step of the tables. -/
theorem refines_space (place : TablePlaces) : (pagingMachine place).Refines spaceMachine
    (PagingState.answer place) Space.answer PagingEvent.Fits (Current place) where
  progress s t l _ := by cases l <;> rfl
  step := by
    rintro s t l s' ⟨hp, htlb⟩ hfits hst
    cases l with
    | access x a =>
      cases hst
      refine ⟨?_, t, rfl, hp, htlb⟩
      rw [PagingState.answer, htlb.translate_eq, hp.lookup, Space.answer, Space.translate]
    | fill page =>
      cases hst
      exact ⟨rfl, t, rfl, hp, htlb.update fun m hm => hm⟩
    | evict page =>
      cases hst
      exact ⟨rfl, t, rfl, hp, htlb.update fun m hm => by cases hm⟩
    | setPage pid =>
      cases hst
      exact ⟨rfl, _, rfl, current_flushed (hp.setPage pid)⟩
    | mapVid =>
      cases hst
      exact ⟨rfl, _, rfl, current_flushed (hp.setScreen (by decide))⟩
    | hideTerm oldTerm =>
      cases hst
      have ht : oldTerm < 3 := hfits
      exact ⟨rfl, _, rfl, current_flushed
        (hp.setFrame (by unfold LowPage; omega) (by omega))⟩
    | showTerm newTerm =>
      cases hst
      have ht : newTerm < 3 := hfits
      exact ⟨rfl, _, rfl, current_flushed
        (hp.setFrame (by unfold LowPage; omega) (by decide))⟩
    | contextSwitchPit pid newTerm termLive =>
      cases hst
      have ht : newTerm < 3 := hfits
      refine ⟨rfl, _, rfl, current_flushed ?_⟩
      have hback := (hp.setPage (pid - 1)).setScreen (f := newTerm + 0xD1) (by omega)
      unfold Paging.contextSwitchPit
      dsimp only
      split_ifs
      · exact hback.setScreen (by decide)
      · exact hback
    | mapBlock first n =>
      cases hst
      have hnew := hp.mapBlock hfits
      refine ⟨rfl, _, rfl, hnew, htlb.extend fun page m hm => ?_⟩
      rw [hp.lookup] at hm
      rw [hnew.lookup]
      exact mapBlock_extends hm
    | flush =>
      cases hst
      exact ⟨rfl, t, rfl, current_flushed hp⟩

/-- **The page tables refine the address space.**  In every run of calls of the functions of
`paging.c`, with accesses and changes of the cache at any moment in between, each access reaches the
address that the address space says, or faults as it says. -/
theorem paging_refines (place : TablePlaces) (ls : List PagingEvent)
    (h : (pagingMachine place).Steps PagingEvent.Fits ⟨pagingInit place, fun _ => none⟩ ls) :
    (pagingMachine place).answers (PagingState.answer place) ⟨pagingInit place, fun _ => none⟩ ls =
      spaceMachine.answers Space.answer Space.init ls := by
  obtain ⟨_, _, -, -, -, hanswers⟩ := (refines_space place).run
    (current_flushed (represents_init place)) h
  exact hanswers

/-- Two tables in the kernel's page. -/
def kernelPlacement : TablePlaces where
  pageTable4kb := 0x410000
  vidmapTable := 0x411000
  elsewhere _ _ := 0
  pageTable4kb_lt := by decide
  vidmapTable_lt := by decide
  pageTable4kb_aligned := by decide
  vidmapTable_aligned := by decide
  ne := by decide

/-- A write before and after a switch to another program, the first one through the cache. -/
theorem paging_refines_switch : (pagingMachine kernelPlacement).answers
    (PagingState.answer kernelPlacement) ⟨pagingInit kernelPlacement, fun _ => none⟩
    [.setPage 0, .fill 0x8000, .access ⟨true, true⟩ 0x8000005, .setPage 1,
      .access ⟨true, true⟩ 0x8000005] = [none, none, some 0x800005, none, some 0xC00005] :=
  (paging_refines kernelPlacement
    [.setPage 0, .fill 0x8000, .access ⟨true, true⟩ 0x8000005, .setPage 1,
      .access ⟨true, true⟩ 0x8000005]
    fun _ _ => ⟨trivial, fun _ _ => ⟨trivial, fun _ _ => ⟨trivial, fun _ _ => ⟨trivial,
      fun _ _ => ⟨trivial, trivial⟩⟩⟩⟩⟩).trans (by decide)

end KTeamOS
