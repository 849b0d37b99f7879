import Mathlib.Data.Fintype.Card
import KTeamOS.Heap.Layout

/-!
# Live blocks are disjoint

`ListRep h l` says that the nodes `l` are the heap list of `h`.  The functions of `Heap` are shown
to compute the operations of `Layout` on the bounds of these nodes (`malloc_spec`, `free_spec`),
and from there the live blocks of a run are disjoint blocks of the arena as long as every request
finds room (`heap_safe`).
-/

namespace KTeamOS

open Links Layout

namespace Heap

/-- The bounds in the node `i`. -/
abbrev block (h : Heap) (i : ℕ) : Block := (h.node i).toBlock

/-- The links of the list. -/
abbrev nextOf (h : Heap) (i : ℕ) : Option ℕ := (h.node i).next

/-- The nodes `l` are the list from `mem_head`, all of them handed out by `malloc`. -/
structure ListRep (h : Heap) (l : List ℕ) : Prop where
  linked : IsList h.nextOf h.memHead l
  fresh : ∀ i ∈ l, i < h.listIdx

variable {h h' : Heap} {l t pre : List ℕ} {a : ℕ} {p q : Option ℕ} {n f i ptr new stale : ℕ}

@[simp] theorem setNode_memHead (m : MemList) : (h.setNode i m).memHead = h.memHead := rfl
@[simp] theorem setNode_listIdx (m : MemList) : (h.setNode i m).listIdx = h.listIdx := rfl
@[simp] theorem setNode_present (m : MemList) : (h.setNode i m).present = h.present := rfl
@[simp] theorem setNext_memHead : (h.setNext i p).memHead = h.memHead := rfl
@[simp] theorem setNext_listIdx : (h.setNext i p).listIdx = h.listIdx := rfl
@[simp] theorem setNext_present : (h.setNext i p).present = h.present := rfl

@[simp] theorem setNext_next_self : (h.setNext i p).nextOf i = p := by
  simp [nextOf, setNext, setNode]

theorem setNext_next_of_ne (ha : a ≠ i) : (h.setNext i p).nextOf a = h.nextOf a := by
  simp [nextOf, setNext, setNode, Function.update_of_ne ha]

@[simp] theorem setNext_block : (h.setNext i p).block a = h.block a := by
  by_cases ha : a = i
  · simp [block, setNext, setNode, ha]
  · simp [block, setNext, setNode, Function.update_of_ne ha]

@[simp] theorem setBlock_nextOf {b : Block} : (h.setBlock i b).nextOf a = h.nextOf a := by
  by_cases ha : a = i
  · simp [nextOf, setBlock, setNode, ha]
  · simp [nextOf, setBlock, setNode, Function.update_of_ne ha]

theorem setBlock_block {b : Block} :
    (h.setBlock i b).block a = if a = i then b else h.block a := by
  by_cases ha : a = i
  · simp [block, setBlock, setNode, ha]
  · simp [block, setBlock, setNode, ha]

theorem setNext_self : h.setNext i (h.nextOf i) = h := by
  simp [setNext, setNode]

theorem ListRep.length_le (hr : ListRep h l) : l.length ≤ h.listIdx := by
  have hsub : l.toFinset ⊆ Finset.range h.listIdx := by
    intro i hi
    exact Finset.mem_range.2 (hr.fresh i (List.mem_toFinset.1 hi))
  have hcard := Finset.card_le_card hsub
  rwa [List.toFinset_card_of_nodup hr.linked.nodup, Finset.card_range] at hcard

theorem chain_eq (hl : IsList h.nextOf p l) (hf : l.length ≤ f) : h.chain f p = l := by
  induction l generalizing f p with
  | nil =>
    obtain rfl : p = none := hl
    cases f <;> rfl
  | cons a l ih =>
    obtain ⟨rfl, hl⟩ := hl
    cases f with
    | zero => simp at hf
    | succ f => rw [chain, ih hl (by simpa using hf)]

theorem ListRep.blocks (hr : ListRep h l) : h.blocks = l.map h.block := by
  rw [Heap.blocks, chain_eq hr.linked hr.length_le]

theorem ListRep.mapPages (hr : ListRep h l) (s e : ℕ) : ListRep (h.mapPages s e) l :=
  ⟨hr.linked, hr.fresh⟩

/-- `l'` is `l` with the node `new` somewhere in it, if some branch has decided its end. -/
def LinkedIn (new : ℕ) (l l' : List ℕ) : Option ℕ → Prop
  | none => l' = l
  | some _ => ∃ xs ys, l = xs ++ ys ∧ l' = xs ++ new :: ys

theorem LinkedIn.mem {l' : List ℕ} {memEnd : Option ℕ} (h : LinkedIn new l l' memEnd)
    (hi : i ∈ l') : i = new ∨ i ∈ l := by
  cases memEnd with
  | none =>
    obtain rfl : l' = l := h
    exact .inr hi
  | some e =>
    obtain ⟨xs, ys, rfl, rfl⟩ := h
    simp only [List.mem_append, List.mem_cons] at hi ⊢
    tauto

/-! ### `malloc` -/

/-- The loop stops behind the host. -/
theorem scan_spec (ht : IsList h.nextOf (h.nextOf a) t) (hf : t.length ≤ f) :
    ∃ xs c ys, a :: t = xs ++ c :: ys ∧ host n (h.block a) (t.map h.block) = h.block c ∧
      h.scan n f (some a) (h.nextOf a) = some (some c, ys.head?) ∧
      placeBelow n (h.block a) (t.map h.block) = xs.map h.block ++ h.block c ::
        blockBelow n (add32 (h.block c).memStart 1) :: ys.map h.block := by
  induction t generalizing a f with
  | nil =>
    have hnone : h.nextOf a = none := ht
    refine ⟨[], a, [], rfl, rfl, ?_, rfl⟩
    rw [hnone]
    cases f <;> rfl
  | cons b t ih =>
    obtain ⟨hb, ht⟩ := ht
    cases f with
    | zero => simp at hf
    | succ f =>
      by_cases hgap : n ≤ sub32 (add32 (h.block a).memStart 1) (h.block b).memEnd
      · refine ⟨[], a, b :: t, rfl, ?_, ?_, ?_⟩
        · simp [host, hgap]
        · rw [hb]; simp [scan, hgap]
        · simp [placeBelow, hgap]
      · obtain ⟨xs, c, ys, h₁, h₂, h₃, h₄⟩ := ih ht (f := f) (by simpa using hf)
        refine ⟨a :: xs, c, ys, by simp [h₁], ?_, ?_, ?_⟩
        · simpa [host, hgap] using h₂
        · rw [← h₃, hb]; simp [scan, hgap, hb]
        · simp [placeBelow, hgap, h₄]

@[simp] theorem linkBehind_listIdx : (h.linkBehind new a p).listIdx = h.listIdx := by
  unfold linkBehind
  split_ifs <;> rfl

@[simp] theorem linkBehind_memHead : (h.linkBehind new a p).memHead = h.memHead := by
  unfold linkBehind
  split_ifs <;> rfl

@[simp] theorem linkBehind_present : (h.linkBehind new a p).present = h.present := by
  unfold linkBehind
  split_ifs <;> rfl

@[simp] theorem linkBehind_block : (h.linkBehind new a p).block i = h.block i := by
  unfold linkBehind
  split_ifs
  · exact setNext_block
  · exact setNext_block.trans (setNext_block.trans setNext_block)

/-- Linking `new` behind the node `a` of the list, before its successor. -/
theorem linkBehind_spec {xs ys : List ℕ} (hl : IsList h.nextOf h.memHead (xs ++ a :: ys))
    (hnew : new ∉ xs ++ a :: ys) (hnext : h.nextOf new = none) :
    IsList (h.linkBehind new a ys.head?).nextOf (h.linkBehind new a ys.head?).memHead
      (xs ++ a :: new :: ys) := by
  have hne : new ≠ a := by rintro rfl; simp at hnew
  rw [linkBehind_memHead]
  by_cases hys : ys.head? = none
  · have heq : (h.linkBehind new a ys.head?).nextOf = (h.setNext a (some new)).nextOf := by
      rw [linkBehind, if_pos hys]
    rw [heq]
    refine hl.insert hnew setNext_next_self ?_ fun x _ hxa => setNext_next_of_ne hxa
    rw [setNext_next_of_ne hne, hnext, hys]
  · have heq : (h.linkBehind new a ys.head?).nextOf =
        (((h.setNext new ys.head?).setNext a (some new)).setNext a (some new)).nextOf := by
      rw [linkBehind, if_neg hys]
    rw [heq]
    refine hl.insert hnew setNext_next_self ?_ fun x hx hxa => ?_
    · rw [setNext_next_of_ne hne, setNext_next_of_ne hne, setNext_next_self]
    · rw [setNext_next_of_ne hxa, setNext_next_of_ne hxa, setNext_next_of_ne hx]

/-- From `h` with the list `l` the heap has come to `h'` with the list `l'`: the new node is linked
in if `endFor` decides an end, and with the block of that end in it the list is the one that `place`
says. -/
structure Placed (h h' : Heap) (n new : ℕ) (l l' : List ℕ) : Prop where
  linked : IsList h'.nextOf h'.memHead l'
  linkedIn : LinkedIn new l l' (endFor n (l.map h.block))
  listIdx : h'.listIdx = h.listIdx
  present : h'.present = h.present
  block : ∀ i, h'.block i = h.block i
  map : ∀ g : ℕ → Block, (∀ i ∈ l, g i = h.block i) →
    (∀ e, endFor n (l.map h.block) = some e → g new = blockBelow n e) →
    l'.map g = place n (l.map h.block)

section Link

variable {t : List ℕ}

/-- The first block of the heap. -/
theorem link_empty (hl : IsList h.nextOf h.memHead []) (hnext : h.nextOf new = none) :
    ∃ h', h.link n new = some (h', endFor n []) ∧ Placed h h' n new [] [new] := by
  have hhead : h.memHead = none := hl
  refine ⟨{ h with memTail := some new, memHead := some new }, ?_, ⟨rfl, hnext⟩,
    ⟨[], [], rfl, rfl⟩, rfl, rfl, fun i => rfl, fun g _ hg => ?_⟩
  · rw [link, hhead]
    rfl
  · simpa [place] using hg heapBottom rfl

/-- In front of the first block, where there is a gap. -/
theorem link_front (hl : IsList h.nextOf h.memHead (a :: t)) (hnew : new ∉ a :: t)
    (hlead : (h.block a).memEnd ≠ heapBottom) (hfits : n ≤ sub32 heapBottom (h.block a).memEnd) :
    ∃ h', h.link n new = some (h', endFor n ((a :: t).map h.block)) ∧
      Placed h h' n new (a :: t) (new :: a :: t) := by
  obtain ⟨hhead, ht⟩ := hl
  have hne : new ≠ a := by rintro rfl; simp at hnew
  have hend : endFor n ((a :: t).map h.block) = some heapBottom := by
    simp only [endFor, List.map_cons, if_pos hlead, if_pos hfits]
  refine ⟨{ h.setNext new (some a) with memHead := some new }, ?_, ⟨rfl, ?_⟩,
    ?_, rfl, rfl, fun i => setNext_block, fun g hg hgnew => ?_⟩
  · rw [hend]
    simp [link, hhead, hlead, hfits]
  · rw [show Heap.nextOf { h.setNext new (some a) with memHead := some new } =
      (h.setNext new (some a)).nextOf from rfl, setNext_next_self]
    refine ⟨rfl, ?_⟩
    rw [setNext_next_of_ne hne.symm]
    refine Path.congr ht fun x hx => setNext_next_of_ne ?_
    rintro rfl
    simp [hx] at hnew
  · rw [hend]
    exact ⟨[], a :: t, rfl, rfl⟩
  · have hmap : (a :: t).map g = (a :: t).map h.block := List.map_congr_left hg
    rw [List.map_cons, hmap, hgnew heapBottom hend]
    simp only [place, List.map_cons, if_pos hlead, if_pos hfits]

/-- There is a gap in front of the first block, but it is too small: the end stays unassigned. -/
theorem link_skip (hl : IsList h.nextOf h.memHead (a :: t))
    (hlead : (h.block a).memEnd ≠ heapBottom)
    (hfits : ¬ n ≤ sub32 heapBottom (h.block a).memEnd) :
    ∃ h', h.link n new = some (h', endFor n ((a :: t).map h.block)) ∧
      Placed h h' n new (a :: t) (a :: t) := by
  have hhead : h.memHead = some a := hl.1
  have hend : endFor n ((a :: t).map h.block) = none := by
    simp only [endFor, List.map_cons, if_pos hlead, if_neg hfits]
  refine ⟨h, ?_, hl, by rw [hend]; rfl, rfl, rfl, fun i => rfl, fun g hg _ => ?_⟩
  · rw [hend]
    simp [link, hhead, hlead, hfits]
  · simp only [place, List.map_cons, if_pos hlead, if_neg hfits]
    exact List.map_congr_left hg

/-- Behind the host that the loop finds. -/
theorem link_behind (hl : IsList h.nextOf h.memHead (a :: t))
    (hlen : (a :: t).length ≤ h.listIdx) (hn : 0 < n) (hnew : new ∉ a :: t)
    (hnext : h.nextOf new = none) (hlead : (h.block a).memEnd = heapBottom) :
    ∃ h' l', h.link n new = some (h', endFor n ((a :: t).map h.block)) ∧
      Placed h h' n new (a :: t) l' := by
  obtain ⟨hhead, ht⟩ := hl
  obtain ⟨xs, c, ys, hsplit, hhost, hscan, hplace⟩ :=
    scan_spec (n := n) ht (f := h.listIdx) (by simp at hlen; omega)
  have hl : IsList h.nextOf h.memHead (xs ++ c :: ys) := hsplit ▸ ⟨hhead, ht⟩
  rw [hsplit] at hnew
  have hend : endFor n ((a :: t).map h.block) = some (add32 (h.block c).memStart 1) := by
    rw [List.map_cons, endFor, if_neg (not_not.2 hlead), hhost]
  have hplace' : place n ((a :: t).map h.block) = placeBelow n (h.block a) (t.map h.block) := by
    rw [List.map_cons, place, if_neg (not_not.2 hlead)]
  refine ⟨h.linkBehind new c ys.head?, xs ++ c :: new :: ys, ?_, linkBehind_spec hl hnew hnext, ?_,
    linkBehind_listIdx, linkBehind_present, fun i => linkBehind_block, fun g hg hgnew => ?_⟩
  · rw [hend, link, hhead]
    by_cases hone : h.nextOf a = none
    · -- one block: nothing is free above it
      have hnil : t = [] := by
        cases t with
        | nil => rfl
        | cons b t => rw [hone] at ht; cases ht.1
      subst hnil
      obtain ⟨rfl, rfl, rfl⟩ : xs = [] ∧ c = a ∧ ys = [] := by
        cases xs <;> simp_all
      have hfree : sub32 heapBottom heapBottom < n := by
        rwa [sub32_of_le (by decide) le_rfl, Nat.sub_self]
      simp [hlead, hone, hfree, linkBehind]
    · simp [hlead, hone, hscan]
  · rw [hend, hsplit]
    exact ⟨xs ++ [c], ys, by simp, by simp⟩
  · rw [hsplit] at hg
    rw [hplace', hplace, ← hgnew _ hend]
    rw [List.map_append, List.map_cons, List.map_cons, hg c (by simp)]
    congr 1
    · exact List.map_congr_left fun i hi => hg i (by simp [hi])
    · congr 2
      exact List.map_congr_left fun i hi => hg i (by simp [hi])

/-- What `link` does: it decides the end of the new block as `endFor` says, and places the new
node. -/
theorem link_spec (hl : IsList h.nextOf h.memHead l) (hlen : l.length ≤ h.listIdx) (hn : 0 < n)
    (hnew : new ∉ l) (hnext : h.nextOf new = none) :
    ∃ h' l', h.link n new = some (h', endFor n (l.map h.block)) ∧ Placed h h' n new l l' := by
  cases l with
  | nil =>
    obtain ⟨h', hlink⟩ := link_empty hl hnext
    exact ⟨h', [new], hlink⟩
  | cons a t =>
    by_cases hlead : (h.block a).memEnd = heapBottom
    · exact link_behind hl hlen hn hnew hnext hlead
    · by_cases hfits : n ≤ sub32 heapBottom (h.block a).memEnd
      · obtain ⟨h', hlink⟩ := link_front hl hnew hlead hfits
        exact ⟨h', _, hlink⟩
      · obtain ⟨h', hlink⟩ := link_skip hl hlead hfits
        exact ⟨h', _, hlink⟩

end Link

/-- The new node, with its initial values. -/
def fresh (h : Heap) : Heap :=
  ({ h with listIdx := h.listIdx + 1 } : Heap).setNode h.listIdx ⟨⟨0, 0⟩, none⟩

/-- What `malloc` makes of the end that `link` decides. -/
theorem malloc_of_link {h₂ h₃ h₄ : Heap} {memEnd : Option ℕ} {s e : ℕ} (hn : n ≠ 0)
    (hcap : ¬ listCap ≤ h.listIdx) (hlink : h.fresh.link n h.listIdx = some (h₂, memEnd))
    (he : memEnd.getD stale = e) (hs : sub32 (sub32 e n) 1 = s)
    (h₃eq : h₂.setBlock h.listIdx ⟨s, e⟩ = h₃)
    (h₄eq : h₃.mapPages (s / fourMeg) (e / fourMeg) = h₄) :
    h.malloc n stale =
      if s < heapTop then some (h₃, .null, memEnd.isNone)
      else some (h₄, if h₄.writable s n then .block s else .fault, memEnd.isNone) := by
  unfold malloc
  rw [if_neg hn, if_neg hcap]
  subst he hs h₃eq h₄eq
  change (h.fresh.link n h.listIdx >>= _) = _
  rw [hlink, Option.bind_eq_bind, Option.bind_some]

/-- What a call that has given the new node the bounds `b` returns. -/
def outcome (h : Heap) (n : ℕ) (b : Block) : MallocResult :=
  if b.memStart < heapTop then .null
  else if (h.mapPages (b.memStart / fourMeg) (b.memEnd / fourMeg)).writable b.memStart n then
    .block b.memStart
  else .fault

/-- The pages that are present after it. -/
def presentAfter (h : Heap) (b : Block) : ℕ → Bool :=
  if b.memStart < heapTop then h.present
  else (h.mapPages (b.memStart / fourMeg) (b.memEnd / fourMeg)).present

theorem outcome_block {b : Block} {p : ℕ} (h₁ : h.outcome n b = .block p) :
    p = b.memStart ∧ heapTop ≤ b.memStart := by
  unfold outcome at h₁
  split_ifs at h₁ with hlow hpages
  exact ⟨(MallocResult.block.inj h₁).symm, Nat.le_of_not_lt hlow⟩

theorem outcome_null {b : Block} : h.outcome n b = .null ↔ b.memStart < heapTop := by
  unfold outcome
  split_ifs with hlow hpages
  · exact iff_of_true rfl hlow
  · exact iff_of_false (by simp) hlow
  · exact iff_of_false (by simp) hlow

/-- The bytes of a block that does not wrap around are present once its pages are mapped. -/
theorem outcome_of_le {b : Block} (hfloor : heapTop ≤ b.memStart)
    (hlen : b.memStart + n + 1 = b.memEnd) (hend : b.memEnd < 2 ^ 32) :
    h.outcome n b = .block b.memStart := by
  have hpages : (h.mapPages (b.memStart / fourMeg) (b.memEnd / fourMeg)).writable b.memStart n := by
    simp only [writable, List.all_eq_true, List.mem_range]
    intro i hi
    have hle : b.memStart / fourMeg + i ≤ b.memEnd / fourMeg := by
      unfold fourMeg at *
      omega
    have hlast : b.memEnd / fourMeg < 1024 := by
      unfold fourMeg
      omega
    rw [Nat.mod_eq_of_lt (Nat.lt_of_le_of_lt hle hlast)]
    simp [Heap.mapPages, hle]
  rw [outcome, if_neg (Nat.not_lt.2 hfloor), if_pos hpages]

/-- What a call of `malloc` does. -/
theorem malloc_spec (stale : ℕ) (hr : ListRep h l) (hn : 0 < n) (hcap : h.listIdx < listCap) :
    ∃ h' l', h.malloc n stale = some (h',
        h.outcome n (blockBelow n ((endFor n h.blocks).getD stale)), (endFor n h.blocks).isNone) ∧
      ListRep h' l' ∧ LinkedIn h.listIdx l l' (endFor n h.blocks) ∧
      h'.listIdx = h.listIdx + 1 ∧ h'.blocks = place n h.blocks ∧
      h'.block h.listIdx = blockBelow n ((endFor n h.blocks).getD stale) ∧
      (∀ i ∈ l, h'.block i = h.block i) ∧
      h'.present = h.presentAfter (blockBelow n ((endFor n h.blocks).getD stale)) := by
  have hfresh : h.listIdx ∉ l := fun hi => (hr.fresh _ hi).false
  have hold : ∀ i ∈ l, h.fresh.node i = h.node i := by
    intro i hi
    have hne : i ≠ h.listIdx := by rintro rfl; exact hfresh hi
    simp [Heap.fresh, setNode, Function.update_of_ne hne]
  have hl₁ : IsList h.fresh.nextOf h.fresh.memHead l :=
    hr.linked.congr fun i hi => by rw [nextOf, hold i hi]
  have hnext : h.fresh.nextOf h.listIdx = none := by simp [nextOf, Heap.fresh, setNode]
  have hlen : l.length ≤ h.fresh.listIdx := hr.length_le.trans (Nat.le_succ _)
  obtain ⟨h₂, l', hlink, hl₂, hmem, hidx, hpres, hblk, hplace⟩ :=
    link_spec hl₁ hlen hn hfresh hnext
  have hmap : l.map h.fresh.block = h.blocks := by
    rw [hr.blocks]
    exact List.map_congr_left fun i hi => by rw [block, hold i hi]
  rw [hmap] at hlink hplace hmem
  have hidx₂ : h₂.listIdx = h.listIdx + 1 := hidx
  have hpres₂ : h₂.present = h.present := hpres
  set e := (endFor n h.blocks).getD stale with he
  -- the heap with the bounds written, before the pages are mapped
  set h₃ := h₂.setBlock h.listIdx (blockBelow n e) with hh₃
  have hpres₃ : h₃.present = h.present := hpres₂
  have hnew : h₃.block h.listIdx = blockBelow n e := by rw [hh₃, setBlock_block, if_pos rfl]
  have hkept : ∀ i ∈ l, h₃.block i = h.fresh.block i := by
    intro i hi
    have hne : i ≠ h.listIdx := by rintro rfl; exact hfresh hi
    rw [hh₃, setBlock_block, if_neg hne, hblk]
  have hrep : ListRep h₃ l' := by
    refine ⟨hl₂.congr fun i _ => setBlock_nextOf, fun i hi => ?_⟩
    have hidx₃ : h₃.listIdx = h.listIdx + 1 := hidx₂
    rcases hmem.mem hi with rfl | hi
    · omega
    · have hlt := hr.fresh i hi
      omega
  have hblocks : h₃.blocks = place n h.blocks := by
    rw [hrep.blocks]
    refine hplace h₃.block hkept fun e' he' => ?_
    rw [hnew, he, he', Option.getD_some]
  have hkept : ∀ i ∈ l, h₃.block i = h.block i := fun i hi => by
    rw [hkept i hi, block, hold i hi]
  have hstep := malloc_of_link (s := (blockBelow n e).memStart) hn.ne' (Nat.not_le.2 hcap) hlink
    he.symm rfl hh₃.symm rfl
  have hwritable : ∀ s e p, (h₃.mapPages s e).writable p n = (h.mapPages s e).writable p n := by
    intro s e p
    rw [writable, writable, Heap.mapPages, Heap.mapPages, hpres₃]
  rw [outcome, presentAfter]
  by_cases hlow : (blockBelow n e).memStart < heapTop
  · rw [if_pos hlow] at hstep
    rw [if_pos hlow, if_pos hlow]
    exact ⟨h₃, l', hstep, hrep, hmem, hidx₂, hblocks, hnew, hkept, hpres₃⟩
  · rw [if_neg hlow, hwritable] at hstep
    rw [if_neg hlow, if_neg hlow]
    refine ⟨_, l', hstep, hrep.mapPages _ _, hmem, hidx₂, ?_, hnew, hkept, ?_⟩
    · rw [(hrep.mapPages _ _).blocks, ← hblocks, hrep.blocks]
      rfl
    · rw [Heap.mapPages, Heap.mapPages, hpres₃]
      rfl

/-! ### `free` -/

/-- The body of the loop at a node that starts at `ptr`; `mem_tail` does not matter. -/
theorem freeLoop_hit {d : ℕ} (hptr : (h.block d).memStart = ptr) :
    ∃ q, freeLoop ptr (f + 1) h (some a) (some d) =
      freeLoop ptr f { h.setNext a (h.nextOf d) with memTail := q }
        ((h.setNext a (h.nextOf d)).nextOf a) ((h.setNext a (h.nextOf d)).nextOf d) := by
  by_cases hlast : h.nextOf d = none
  · exact ⟨some a, by simp [freeLoop, hptr, hlast]⟩
  · exact ⟨h.memTail, by simp [freeLoop, hptr, hlast]; rfl⟩

/-- Once `front` and `back` are the same node, the loop of `free` changes no link. -/
theorem freeLoop_same (ptr : ℕ) (hl : IsList h.nextOf p t) (hf : t.length ≤ f) :
    ∃ q, freeLoop ptr f h p p = some { h with memTail := q } := by
  induction t generalizing h p f with
  | nil =>
    obtain rfl : p = none := hl
    exact ⟨h.memTail, by cases f <;> rfl⟩
  | cons a t ih =>
    obtain ⟨rfl, hl⟩ := hl
    cases f with
    | zero => simp at hf
    | succ f =>
      have hlen : t.length ≤ f := by simpa using hf
      by_cases hptr : (h.block a).memStart = ptr
      · obtain ⟨q, hq⟩ := freeLoop_hit (a := a) (f := f) hptr
        obtain ⟨q', hq'⟩ := ih (h := { h with memTail := q }) hl hlen
        rw [setNext_self] at hq
        exact ⟨q', hq.trans hq'⟩
      · obtain ⟨q, hq⟩ := ih hl hlen
        exact ⟨q, by simpa [freeLoop, hptr] using hq⟩

/-- The loop of `free` takes the first node that starts at `ptr` out of the rest `t` of the
list. -/
theorem freeLoop_spec (ptr : ℕ) (hl : IsList h.nextOf h.memHead (pre ++ a :: t))
    (hf : t.length ≤ f) :
    ∃ h', freeLoop ptr f h (some a) (h.nextOf a) = some h' ∧
      IsList h'.nextOf h'.memHead (pre ++ a :: t.eraseP fun i => (h.block i).memStart = ptr) ∧
      h'.listIdx = h.listIdx ∧ h'.present = h.present ∧ ∀ i, h'.block i = h.block i := by
  induction t generalizing a pre f with
  | nil =>
    obtain ⟨r, -, -, hnone⟩ := path_append.1 hl
    have hnone : h.nextOf a = none := hnone
    refine ⟨h, ?_, hl, rfl, rfl, fun i => rfl⟩
    rw [hnone]
    cases f <;> rfl
  | cons d t ih =>
    obtain ⟨r, -, -, hd, ht⟩ := path_append.1 hl
    cases f with
    | zero => simp at hf
    | succ f =>
      have hlen : t.length ≤ f := by simpa using hf
      by_cases hptr : (h.block d).memStart = ptr
      · -- `d` is unlinked, and then `front` and `back` are both its successor
        have hnd := hl.nodup
        simp only [List.nodup_append, List.nodup_cons, List.mem_cons, not_or] at hnd
        have hda : d ≠ a := fun e => hnd.2.1.1.1 e.symm
        set h₁ := h.setNext a (h.nextOf d) with hh₁
        have hrem : IsList h₁.nextOf h₁.memHead (pre ++ a :: t) :=
          hl.remove setNext_next_self fun x hx => setNext_next_of_ne hx
        have ht₁ : IsList h₁.nextOf (h.nextOf d) t :=
          ht.congr fun x hx => setNext_next_of_ne fun e => hnd.2.1.1.2 (e ▸ hx)
        have hd₁ : h₁.nextOf d = h.nextOf d := setNext_next_of_ne hda
        have ha₁ : h₁.nextOf a = h.nextOf d := setNext_next_self
        obtain ⟨q, hq⟩ := freeLoop_hit (a := a) (f := f) hptr
        obtain ⟨q', hq'⟩ := freeLoop_same ptr (h := { h₁ with memTail := q }) ht₁ hlen
        rw [← hh₁, hd₁, ha₁, hq', ← hd] at hq
        refine ⟨_, hq, ?_, rfl, rfl, fun i => setNext_block⟩
        rw [List.eraseP_cons_of_pos (by simpa using hptr)]
        exact hrem
      · have hshift : IsList h.nextOf h.memHead ((pre ++ [a]) ++ d :: t) := by simpa using hl
        obtain ⟨h', hloop, hl', hidx, hpres, hblk⟩ := ih hshift hlen
        refine ⟨h', ?_, ?_, hidx, hpres, hblk⟩
        · rw [← hloop, hd]
          simp [freeLoop, hptr, hd]
        · rw [List.eraseP_cons_of_neg (by simpa using hptr)]
          simpa using hl'

/-- What a call of `free` does: the first node that starts at `ptr` leaves the list. -/
theorem free_spec (ptr : ℕ) (hr : ListRep h l) :
    ∃ h', h.free ptr = some h' ∧
      ListRep h' (l.eraseP fun i => (h.block i).memStart = ptr) ∧
      h'.listIdx = h.listIdx ∧ h'.present = h.present ∧ ∀ i, h'.block i = h.block i := by
  cases l with
  | nil =>
    have hhead : h.memHead = none := hr.linked
    exact ⟨h, by rw [free, hhead], hr, rfl, rfl, fun i => rfl⟩
  | cons a t =>
    obtain ⟨hhead, ht⟩ := hr.linked
    by_cases hptr : (h.block a).memStart = ptr
    · rw [List.eraseP_cons_of_pos (by simpa using hptr)]
      have hfresh : ∀ i ∈ t, i < h.listIdx := fun i hi => hr.fresh i (List.mem_cons_of_mem _ hi)
      by_cases hnone : h.nextOf a = none
      · have hrep : ListRep { h with memHead := none, memTail := none } t :=
          ⟨hnone ▸ ht, hfresh⟩
        refine ⟨_, ?_, hrep, rfl, rfl, fun i => rfl⟩
        simp [free, hhead, hptr, hnone]
      · have hrep : ListRep { h with memHead := h.nextOf a } t := ⟨ht, hfresh⟩
        refine ⟨_, ?_, hrep, rfl, rfl, fun i => rfl⟩
        simp [free, hhead, hptr, hnone]
    · have hlen : t.length ≤ h.listIdx := by
        have hle := hr.length_le
        simp only [List.length_cons] at hle
        omega
      have hl : IsList h.nextOf h.memHead ([] ++ a :: t) := hr.linked
      obtain ⟨h', hloop, hl', hidx, hpres, hblk⟩ := freeLoop_spec ptr hl hlen
      rw [List.eraseP_cons_of_neg (by simpa using hptr)]
      have hrep : ListRep h' (a :: t.eraseP fun i => (h.block i).memStart = ptr) := by
        refine ⟨hl', fun i hi => ?_⟩
        rw [hidx]
        rcases List.mem_cons.1 hi with rfl | hi
        · exact hr.fresh i List.mem_cons_self
        · exact hr.fresh i (List.mem_cons_of_mem _ (List.mem_of_mem_eraseP hi))
      refine ⟨h', ?_, hrep, hidx, hpres, hblk⟩
      rw [← hloop, free, hhead]
      simp [hptr]

/-- The bounds on the list afterwards. -/
theorem ListRep.free_blocks {h' : Heap} (hr : ListRep h l)
    (hr' : ListRep h' (l.eraseP fun i => (h.block i).memStart = ptr))
    (hblk : ∀ i, h'.block i = h.block i) :
    h'.blocks = h.blocks.eraseP fun b => b.memStart = ptr := by
  rw [hr'.blocks, hr.blocks, List.eraseP_map, funext hblk]
  rfl

end Heap

/-! ### Runs -/

open Heap

/-- Two address ranges `[p, p + n)` have no address in common. -/
def Apart (b c : ℕ × ℕ) : Prop := b.1 + b.2 ≤ c.1 ∨ c.1 + c.2 ≤ b.1

/-- The live blocks lie in the arena and do not overlap, and `mem_end` was always assigned. -/
structure HeapSafe (s : HeapState) : Prop where
  arena : ∀ b ∈ s.live, heapTop ≤ b.1 ∧ b.1 + b.2 ≤ heapBottom
  apart : s.live.Pairwise Apart
  assigned : s.usedStale = false

/-- A request finds a list node and room on the list; a `free` is always fine. -/
def RoomStep (s : HeapState) : HeapOp → Prop
  | .malloc n _ => n = 0 ∨ s.heap.listIdx < listCap ∧ RoomFor n.toNat s.heap.blocks
  | .free _ => True

instance (s : HeapState) : (op : HeapOp) → Decidable (RoomStep s op)
  | .malloc n _ => inferInstanceAs
      (Decidable (n = 0 ∨ s.heap.listIdx < listCap ∧ RoomFor n.toNat s.heap.blocks))
  | .free _ => inferInstanceAs (Decidable True)

/-- The live blocks are blocks of a sorted list. -/
structure HeapInv (s : HeapState) : Prop where
  rep : ∃ l, ListRep s.heap l
  sorted : Sorted s.heap.blocks
  onList : ∀ b ∈ s.live, heapTop ≤ b.1 ∧ 0 < b.2 ∧ ⟨b.1, b.1 + b.2 + 1⟩ ∈ s.heap.blocks
  apart : s.live.Pairwise Apart
  assigned : s.usedStale = false

namespace HeapInv

variable {s s' : HeapState} {op : HeapOp}

theorem init : HeapInv .init where
  rep := ⟨[], rfl, by simp⟩
  sorted := sorted_nil
  onList := by simp [HeapState.init]
  apart := .nil
  assigned := rfl

theorem safe (h : HeapInv s) : HeapSafe s where
  arena b hb := by
    obtain ⟨h₁, -, h₃⟩ := h.onList b hb
    have hproper := h.sorted.proper _ h₃
    refine ⟨h₁, ?_⟩
    have hend : b.1 + b.2 + 1 ≤ heapBottom := hproper.2.1
    omega
  apart := h.apart
  assigned := h.assigned

/-- The block of a request and the one it is placed next to. -/
theorem apart_of_sorted {xs ys : List Block} {c : Block} {b : ℕ × ℕ}
    (hs : Sorted (xs ++ c :: ys)) (hc : heapTop ≤ c.memStart) (hb : heapTop ≤ b.1)
    (hm : ⟨b.1, b.1 + b.2 + 1⟩ ∈ xs ++ ys) : c.memEnd ≤ b.1 + 1 ∨ b.1 + b.2 ≤ c.memStart := by
  have hp := List.pairwise_append.1 hs.pairwise
  rcases List.mem_append.1 hm with hm | hm
  · exact .inl ((hp.2.2 _ hm c List.mem_cons_self).disjoint (hs.proper c (by simp)) hc)
  · have hbelow := (List.pairwise_cons.1 hp.2.1).1 _ hm
    have hend := hbelow.disjoint (hs.proper _ (by simp [hm])) hb
    exact .inr (by simpa using hend)

/-- A request that finds room. -/
theorem malloc (h : HeapInv s) {n stale : UInt32} (hroom : RoomStep s (.malloc n stale)) :
    ∃ s', heapMachine.step s (.malloc n stale) = some s' ∧ HeapInv s' := by
  by_cases hn : n.toNat = 0
  · have hcall : s.heap.malloc n.toNat stale.toNat = some (s.heap, .null, false) :=
      Heap.malloc_zero hn
    refine ⟨⟨s.heap, s.live, s.usedStale || false⟩, ?_, ?_⟩
    · simp [heapMachine, hcall]
    · exact ⟨h.rep, h.sorted, h.onList, h.apart, by simp [h.assigned]⟩
  · obtain ⟨hcap, hroom⟩ := hroom.resolve_left fun e => hn (by simp [e])
    have hpos : 0 < n.toNat := Nat.pos_of_ne_zero hn
    have hlt : n.toNat < 2 ^ 32 := n.toNat_lt
    obtain ⟨l, hr⟩ := h.rep
    obtain ⟨h', l', hcall, hr', -, -, hblocks, -⟩ := malloc_spec stale.toNat hr hpos hcap
    obtain ⟨e, xs, ys, he, hold, hnew, hsorted⟩ := h.sorted.place hpos hlt hroom
    rw [he, Option.getD_some] at hcall
    rw [hnew] at hblocks hsorted
    have hmem : ∀ b, b ∈ s.heap.blocks → b ∈ h'.blocks := by
      intro b hb
      rw [hold, List.mem_append] at hb
      rw [hblocks, List.mem_append, List.mem_cons]
      tauto
    have hlive : ∀ b ∈ s.live, heapTop ≤ b.1 ∧ 0 < b.2 ∧ ⟨b.1, b.1 + b.2 + 1⟩ ∈ h'.blocks :=
      fun b hb => ⟨(h.onList b hb).1, (h.onList b hb).2.1, hmem _ (h.onList b hb).2.2⟩
    have hused : (s.usedStale || (some e).isNone) = false := by simp [h.assigned]
    cases hres : s.heap.outcome n.toNat (blockBelow n.toNat e) with
    -- the block lies too low, but it stays on the list
    | null =>
      refine ⟨⟨h', s.live, s.usedStale || (some e).isNone⟩, by simp [heapMachine, hcall, hres], ?_⟩
      exact ⟨⟨l', hr'⟩, hblocks ▸ hsorted, hlive, h.apart, hused⟩
    | fault =>
      refine ⟨⟨h', s.live, s.usedStale || (some e).isNone⟩, by simp [heapMachine, hcall, hres], ?_⟩
      exact ⟨⟨l', hr'⟩, hblocks ▸ hsorted, hlive, h.apart, hused⟩
    | block p =>
      obtain ⟨hp, hfloor⟩ := outcome_block hres
      rw [← hp] at hfloor
      have hproper : Proper (blockBelow n.toNat e) := hsorted.proper _ (by simp)
      have hend : e = p + n.toNat + 1 := by
        have hearena := arena
        have hstart := blockBelow_memStart (e := e) hlt (by
          have := hproper.2.1
          exact Nat.lt_of_le_of_lt this (by omega))
        have hlen := hproper.2.2 (hp ▸ hfloor)
        rw [← hp] at hstart hlen
        have hlen : p + 2 ≤ e := hlen
        split_ifs at hstart <;> omega
      refine ⟨⟨h', (p, n.toNat) :: s.live, s.usedStale || (some e).isNone⟩,
        by simp [heapMachine, hcall, hres], ⟨l', hr'⟩, hblocks ▸ hsorted, ?_, ?_, hused⟩
      · intro b hb
        rcases List.mem_cons.1 hb with rfl | hb
        · refine ⟨hfloor, hpos, ?_⟩
          rw [hblocks]
          have hc : (⟨p, p + n.toNat + 1⟩ : Block) = blockBelow n.toNat e := by
            rw [← hend, hp]
            rfl
          simp [hc]
        · exact hlive b hb
      · refine List.pairwise_cons.2 ⟨fun b hb => ?_, h.apart⟩
        obtain ⟨hb₁, -, hb₃⟩ := h.onList b hb
        have hapart := apart_of_sorted hsorted (hp ▸ hfloor) hb₁ (hold ▸ hb₃)
        rw [← hp] at hapart
        have hapart : e ≤ b.1 + 1 ∨ b.1 + b.2 ≤ p := hapart
        unfold Apart
        omega

/-- A `free` of any address. -/
theorem free (h : HeapInv s) (ptr : UInt32) :
    ∃ s', heapMachine.step s (.free ptr) = some s' ∧ HeapInv s' := by
  obtain ⟨l, hr⟩ := h.rep
  obtain ⟨h', hcall, hr', -, -, hblk⟩ := free_spec ptr.toNat hr
  have hblocks := hr.free_blocks hr' hblk
  refine ⟨_, heap_step_free hcall, ⟨_, hr'⟩, ?_, ?_, h.apart.filter _, h.assigned⟩
  · rw [hblocks]
    exact h.sorted.sublist List.eraseP_sublist
  · intro b hb
    obtain ⟨hb, hne⟩ := List.mem_filter.1 hb
    obtain ⟨hb₁, hb₂, hb₃⟩ := h.onList b hb
    refine ⟨hb₁, hb₂, ?_⟩
    rw [hblocks]
    exact (List.mem_eraseP_of_neg (by simpa using hne)).2 hb₃

theorem step (h : HeapInv s) (hop : RoomStep s op) :
    ∃ s', heapMachine.step s op = some s' ∧ HeapInv s' := by
  cases op with
  | malloc n stale => exact h.malloc hop
  | free ptr => exact h.free ptr

theorem of_reach (h : heapMachine.Reach RoomStep .init s) : HeapInv s := by
  refine h.invariant init fun s op s' hs hop hst => ?_
  obtain ⟨s'', hst', hs'⟩ := hs.step hop
  rw [hst] at hst'
  obtain rfl := Option.some.inj hst'
  exact hs'

end HeapInv

/-- **Heap safety.**  While every request finds room, the live blocks are disjoint blocks of the
arena, no call reads `mem_end` unassigned, and no call goes wrong or runs forever. -/
theorem heap_safe {s : HeapState} (h : heapMachine.Reach RoomStep .init s) :
    HeapSafe s ∧ ∀ op, RoomStep s op → heapMachine.step s op ≠ none := by
  have hinv := HeapInv.of_reach h
  refine ⟨hinv.safe, fun op hop => ?_⟩
  obtain ⟨s', hst, -⟩ := hinv.step hop
  simp [hst]

/-- Two requests, the first of which is freed. -/
theorem heap_safe_run : ∃ s, heapMachine.exec .init [.malloc 10 0, .malloc 20 0, .free 251658228] =
    some s ∧ s.live = [(251658208, 20)] ∧ HeapSafe s := by
  have hrun : ((heapMachine.exec .init [.malloc 10 0, .malloc 20 0, .free 251658228]).map
      HeapState.live) = some [(251658208, 20)] := by decide
  obtain ⟨s, hs, hlive⟩ := Option.map_eq_some_iff.1 hrun
  exact ⟨s, hs, hlive, (heap_safe (Machine.Steps.reach (by decide) hs)).1⟩

/-- With the first of two blocks freed, a request for more than its bytes reads `mem_end`
unassigned. -/
theorem heap_not_safe : ¬ ∀ s, heapMachine.Reachable .init s → HeapSafe s := by
  intro h
  have hrun : ((heapMachine.exec .init [.malloc 10 0, .malloc 10 0, .free 251658228,
      .malloc 100 0]).map HeapState.usedStale) = some true := by decide
  obtain ⟨s, hs, hused⟩ := Option.map_eq_some_iff.1 hrun
  have hassigned := (h s (Machine.reachable_of_exec hs)).assigned
  rw [hassigned] at hused
  cases hused

end KTeamOS
