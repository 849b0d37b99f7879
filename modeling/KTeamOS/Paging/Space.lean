import KTeamOS.LTS.Refinement
import KTeamOS.Paging.Tables

/-!
# The address space

What the page tables are for: a map of the pages of 4 KB.  `Space` says which ones there are, with
four things that change: the frame of the running program, the frames of the video page and of the
text pages, and the pages of the heap.  The tables, with all their bits and with the cache in front
of them, refine it in every run (`paging_refines`).
-/

namespace KTeamOS

/-- The address space. -/
structure Space where
  /-- The frame of 4 MB of the program, once there is one. -/
  exe : Option ℕ
  /-- The frame of the video page. -/
  screen : ℕ
  /-- The frames of the pages of the first 4 MB. -/
  text : ℕ → ℕ
  /-- The pages of 4 MB that `malloc` has mapped. -/
  heap : ℕ → Bool

/-- The pages of the first 4 MB that are present. -/
def LowPage (i : ℕ) : Prop := 16 ≤ i ∧ i ≤ 48 ∨ 160 ≤ i ∧ i ≤ 192 ∨ 0xD1 ≤ i ∧ i ≤ 0xD3

instance (i : ℕ) : Decidable (LowPage i) := inferInstanceAs (Decidable (_ ∨ _))

namespace Space

/-- The mapping of the page `p`.  The user has the page of the program, the video page, the page of
the build buffer and the heap. -/
def map (s : Space) (p : ℕ) : Option Mmu.Mapping :=
  if p / 1024 = 0 then if LowPage (p % 1024) then some ⟨false, true, s.text (p % 1024)⟩ else none
  else if p / 1024 = 1 then some ⟨false, true, p⟩
  else if p / 1024 = 32 then s.exe.map fun f => ⟨true, true, f * 1024 + p % 1024⟩
  else if p / 1024 = 33 then if p % 1024 = 0xB8 then some ⟨true, true, s.screen⟩ else none
  else if p / 1024 = 34 then some ⟨true, true, p⟩
  else if s.heap (p / 1024) then some ⟨true, true, p⟩
  else none

/-- The address that an access to `a` reaches. -/
def translate (s : Space) (x : Mmu.Access) (a : ℕ) : Option ℕ :=
  (s.map (a / 4096)).bind fun m => m.address x a

/-- The address space behind `paging_init`. -/
def init : Space where
  exe := none
  screen := 0xB8
  text i := if i = 0xD1 then 0xB8 else i
  heap _ := false

/-- Another process has the pages at 128 MB. -/
def setPage (s : Space) (pid : ℕ) : Space := { s with exe := some ((pid + 2) % 1024) }

/-- Another frame at one of the text pages. -/
def setText (s : Space) (i f : ℕ) : Space := { s with text := Function.update s.text i f }

/-- With `n` more pages of 4 MB from `first` on. -/
def mapBlock (s : Space) (first n : ℕ) : Space :=
  { s with heap := fun i => s.heap i || decide (first ≤ i ∧ i < first + n) }

variable {s : Space} {first n : ℕ}

theorem mapBlock_zero : s.mapBlock first 0 = s := by
  have hheap : (fun i => s.heap i || decide (first ≤ i ∧ i < first + 0)) = s.heap :=
    funext fun i => by rw [decide_eq_false (by omega), Bool.or_false]
  rw [mapBlock, hheap]

theorem mapBlock_succ : s.mapBlock first (n + 1) = (s.mapBlock first n).mapBlock (first + n) 1 := by
  have hheap : (fun i => s.heap i || decide (first ≤ i ∧ i < first + (n + 1))) =
      fun i => (s.mapBlock first n).heap i ||
        decide (first + n ≤ i ∧ i < first + n + 1) := by
    refine funext fun i => ?_
    rw [mapBlock, Bool.or_assoc, ← Bool.decide_or]
    congr 2
    refine propext ?_
    omega
  rw [mapBlock, hheap]
  rfl

end Space

/-- The accesses that are made in an address space, and what changes it. -/
def spaceMachine : Machine Space PagingEvent where
  step s
    | .access .. | .fill _ | .evict _ | .flush => some s
    | .setPage pid => some (s.setPage pid)
    | .mapVid => some { s with screen := 0xB8 }
    | .hideTerm t => some (s.setText (t + 0xD1) (t + 0xD1))
    | .showTerm t => some (s.setText (t + 0xD1) 0xB8)
    | .contextSwitchPit pid t live =>
      some { s.setPage (pid - 1) with screen := if live = t then 0xB8 else t + 0xD1 }
    | .mapBlock first n => some (s.mapBlock first n)

/-- The address that an access reaches. -/
def Space.answer (s : Space) : PagingEvent → Option ℕ
  | .access x a => s.translate x a
  | _ => none

/-- The conditions on the calls: the terminals are three, and blocks lie in the arena. -/
def PagingEvent.Fits (_s : PagingState) : PagingEvent → Prop
  | .hideTerm t | .showTerm t | .contextSwitchPit _ t _ => t < 3
  | .mapBlock first n => 39 ≤ first ∧ first + n ≤ 60
  | .access .. | .fill _ | .evict _ | .setPage _ | .mapVid | .flush => True

/-! ### What the bits of an entry say -/

namespace DirEntry

/-- The entry maps 4 MB to the frame `f`. -/
structure Maps (e : DirEntry) (user : Bool) (f : ℕ) : Prop where
  present : e.present = true
  readWrite : e.readWrite = true
  userSupervisor : e.userSupervisor = user
  pageSize : e.pageSize = true
  addr : (e.addr : ℕ) = f

/-- The entry points to the table at `base`. -/
structure PointsTo (e : DirEntry) (user : Bool) (base : ℕ) : Prop where
  present : e.present = true
  readWrite : e.readWrite = true
  userSupervisor : e.userSupervisor = user
  pageSize : e.pageSize = false
  base : (e.word / 2 ^ 12) * 2 ^ 12 = base

variable {e : DirEntry} {user : Bool} {f base temp : ℕ}

theorem bit_present : Mmu.bit e.word 0 = e.present := Mmu.bit_cons_zero ..

theorem bit_readWrite : Mmu.bit e.word 1 = e.readWrite := by
  unfold word
  rw [Mmu.bit_cons_succ _ _ 0]
  exact Mmu.bit_cons_zero ..

theorem bit_userSupervisor : Mmu.bit e.word 2 = e.userSupervisor := by
  unfold word
  rw [Mmu.bit_cons_succ _ _ 1, Mmu.bit_cons_succ _ _ 0]
  exact Mmu.bit_cons_zero ..

theorem bit_pageSize : Mmu.bit e.word 7 = e.pageSize := by
  unfold word
  rw [Mmu.bit_cons_succ _ _ 6, Mmu.bit_cons_succ _ _ 5, Mmu.bit_cons_succ _ _ 4,
    Mmu.bit_cons_succ _ _ 3, Mmu.bit_cons_succ _ _ 2, Mmu.bit_cons_succ _ _ 1,
    Mmu.bit_cons_succ _ _ 0]
  exact Mmu.bit_cons_zero ..

/-- The fields behind the flags. -/
theorem word_div (n : ℕ) : e.word / 2 ^ (n + 9) =
    (e.available + 2 ^ 3 * (e.pat + 2 * (e.reserved + 2 ^ 9 * e.addr))) / 2 ^ n := by
  unfold word
  rw [Mmu.cons_div _ _ (n + 8), Mmu.cons_div _ _ (n + 7), Mmu.cons_div _ _ (n + 6),
    Mmu.cons_div _ _ (n + 5), Mmu.cons_div _ _ (n + 4), Mmu.cons_div _ _ (n + 3),
    Mmu.cons_div _ _ (n + 2), Mmu.cons_div _ _ (n + 1), Mmu.cons_div _ _ n]

theorem word_addr : e.word / 2 ^ 22 = e.addr := by
  have hword := word_div (e := e) 13
  have hres := e.reserved.isLt
  have hpat := e.pat.isLt
  have havail := e.available.isLt
  omega

/-- The bits of the base of a table that the three fields take together. -/
theorem base_pointTo (ht : temp < 2 ^ 32) (ha : temp % 4096 = 0) :
    (e.pointTo temp).word / 2 ^ 12 * 2 ^ 12 = temp := by
  have hword := word_div (e := e.pointTo temp) 3
  have havail := (e.pointTo temp).available.isLt
  have haddr : ((e.pointTo temp).addr : ℕ) = temp / 2 ^ 22 % 2 ^ 10 := rfl
  have hres : ((e.pointTo temp).reserved : ℕ) = temp / 2 ^ 13 % 2 ^ 9 := rfl
  have hpat : ((e.pointTo temp).pat : ℕ) = temp / 2 ^ 12 % 2 := rfl
  rw [haddr, hres, hpat] at hword
  omega

theorem pointsTo_pointTo {e₀ : DirEntry} (ht : temp < 2 ^ 32) (ha : temp % 4096 = 0)
    (he : e.readWrite = true)
    (h : e₀ = { e.pointTo temp with present := true, pageSize := false, userSupervisor := user }) :
    e₀.PointsTo user temp := by
  subst h
  refine ⟨rfl, he, rfl, rfl, ?_⟩
  -- the flags are not in the base
  exact base_pointTo
    (e := { e with present := true, pageSize := false, userSupervisor := user }) ht ha

/-- The walk for a page of an entry that maps 4 MB. -/
theorem Maps.lookup {t : Mmu.Tables} {p : ℕ} (h : e.Maps user f) (ht : t.dir (p / 1024) = e.word) :
    t.lookup p = some ⟨user, true, f * 1024 + p % 1024⟩ := by
  simp only [Mmu.Tables.lookup, ht, bit_present, bit_pageSize, bit_userSupervisor, bit_readWrite,
    word_addr, h.present, h.pageSize, h.userSupervisor, h.readWrite, h.addr, if_true]

theorem PointsTo.lookup {t : Mmu.Tables} {p : ℕ} (h : e.PointsTo user base)
    (ht : t.dir (p / 1024) = e.word) :
    t.lookup p = Mmu.leaf user true (t.table base (p % 1024)) := by
  simp only [Mmu.Tables.lookup, ht, bit_present, bit_pageSize, bit_userSupervisor, bit_readWrite,
    h.base, h.present, h.pageSize, h.userSupervisor, h.readWrite, if_true, Bool.false_eq_true,
    if_false]

theorem lookup_absent {t : Mmu.Tables} {p : ℕ} (h : e.present = false)
    (ht : t.dir (p / 1024) = e.word) : t.lookup p = none := by
  simp only [Mmu.Tables.lookup, ht, bit_present, h, Bool.false_eq_true, if_false]

end DirEntry

namespace TableEntry

/-- The entry maps a page to the frame `f`. -/
structure Maps (e : TableEntry) (f : ℕ) : Prop where
  present : e.present = true
  readWrite : e.readWrite = true
  userSupervisor : e.userSupervisor = true
  addr : (e.addr : ℕ) = f

variable {e : TableEntry} {user : Bool} {f : ℕ}

theorem bit_present : Mmu.bit e.word 0 = e.present := Mmu.bit_cons_zero ..

theorem bit_readWrite : Mmu.bit e.word 1 = e.readWrite := by
  unfold word
  rw [Mmu.bit_cons_succ _ _ 0]
  exact Mmu.bit_cons_zero ..

theorem bit_userSupervisor : Mmu.bit e.word 2 = e.userSupervisor := by
  unfold word
  rw [Mmu.bit_cons_succ _ _ 1, Mmu.bit_cons_succ _ _ 0]
  exact Mmu.bit_cons_zero ..

theorem word_addr : e.word / 2 ^ 12 = e.addr := by
  have hword : e.word / 2 ^ (3 + 9) = (e.available + 2 ^ 3 * e.addr) / 2 ^ 3 := by
    unfold word
    rw [Mmu.cons_div _ _ (3 + 8), Mmu.cons_div _ _ (3 + 7), Mmu.cons_div _ _ (3 + 6),
      Mmu.cons_div _ _ (3 + 5), Mmu.cons_div _ _ (3 + 4), Mmu.cons_div _ _ (3 + 3),
      Mmu.cons_div _ _ (3 + 2), Mmu.cons_div _ _ (3 + 1), Mmu.cons_div _ _ 3]
  have havail := e.available.isLt
  omega

theorem Maps.leaf (h : e.Maps f) : Mmu.leaf user true e.word = some ⟨user, true, f⟩ := by
  simp only [Mmu.leaf, bit_present, bit_readWrite, bit_userSupervisor, word_addr, h.present,
    h.readWrite, h.userSupervisor, h.addr, if_true, Bool.and_true]

theorem leaf_absent (h : e.present = false) : Mmu.leaf user true e.word = none := by
  simp only [Mmu.leaf, bit_present, h, Bool.false_eq_true, if_false]

end TableEntry

end KTeamOS
