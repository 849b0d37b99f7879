import Mathlib.Data.List.Pairwise
import KTeamOS.Heap.Malloc

/-!
# Block layouts

What the heap list of `malloc` and `free` is about: a list of blocks from high to low addresses,
on which a request is placed above the first block, behind the first one with enough room below
it, or last.

A request that gets no address stays on the list, with a start below the floor of the arena;
`Sorted` is what remains of "disjoint and descending" then.  `RoomFor n bs` is the condition under
which placing `n` bytes keeps it (`Sorted.place`).
-/

namespace KTeamOS

namespace Layout

/-- The block of `n` bytes that ends at `e`. -/
def blockBelow (n e : ℕ) : Block := ⟨sub32 (sub32 e n) 1, e⟩

/-- The block behind which a request of `n` bytes is placed when none goes before `a`: the first
one with a gap of `n` bytes below it, or else the last one. -/
def host (n : ℕ) : Block → List Block → Block
  | a, [] => a
  | a, b :: bs =>
    if n ≤ sub32 (add32 a.memStart 1) b.memEnd then a else host n b bs

/-- The list with a block of `n` bytes behind the `host`. -/
def placeBelow (n : ℕ) : Block → List Block → List Block
  | a, [] => [a, blockBelow n (add32 a.memStart 1)]
  | a, b :: bs =>
    if n ≤ sub32 (add32 a.memStart 1) b.memEnd then
      a :: blockBelow n (add32 a.memStart 1) :: b :: bs
    else a :: placeBelow n b bs

/-- The end of a new block of `n` bytes, if some branch decides it. -/
def endFor (n : ℕ) : List Block → Option ℕ
  | [] => some heapBottom
  | a :: bs =>
    if a.memEnd ≠ heapBottom then
      if n ≤ sub32 heapBottom a.memEnd then some heapBottom else none
    else some (add32 (host n a bs).memStart 1)

/-- The list with a new block of `n` bytes, if some branch decides its end. -/
def place (n : ℕ) : List Block → List Block
  | [] => [blockBelow n heapBottom]
  | a :: bs =>
    if a.memEnd ≠ heapBottom then
      if n ≤ sub32 heapBottom a.memEnd then blockBelow n heapBottom :: a :: bs else a :: bs
    else placeBelow n a bs

/-- The `n` bytes below the block `a` do not wrap around address 0, or end up below the floor of
the arena all the same. -/
def Clear (n : ℕ) (a : Block) : Prop := n ≤ a.memStart ∨ a.memStart + 2 ^ 32 < heapTop + n

/-- `n` bytes can be requested: above the first block they fit or are not tried, and below the
others they do not wrap around. -/
def RoomFor (n : ℕ) : List Block → Prop
  | [] => n < heapBottom
  | a :: bs => if a.memEnd ≠ heapBottom then n + a.memEnd ≤ heapBottom else Clear n (host n a bs)

instance (n : ℕ) (a : Block) : Decidable (Clear n a) :=
  inferInstanceAs (Decidable (_ ∨ _))

instance (n : ℕ) : (bs : List Block) → Decidable (RoomFor n bs)
  | [] => inferInstanceAs (Decidable (n < heapBottom))
  | a :: bs =>
    inferInstanceAs
      (Decidable (if a.memEnd ≠ heapBottom then n + a.memEnd ≤ heapBottom
        else Clear n (host n a bs)))

/-! ### Sorted layouts -/

/-- `b` lies below `a`, or below the floor. -/
def Below (a b : Block) : Prop := b.memEnd ≤ max (a.memStart + 1) heapTop

/-- A block ends in or below the arena, and one that starts in the arena has a byte. -/
def Proper (b : Block) : Prop :=
  0 < b.memEnd ∧ b.memEnd ≤ heapBottom ∧ (heapTop ≤ b.memStart → b.memStart + 2 ≤ b.memEnd)

/-- Every block lies below those before it. -/
structure Sorted (bs : List Block) : Prop where
  pairwise : bs.Pairwise Below
  proper : ∀ b ∈ bs, Proper b

variable {n e : ℕ} {a b c : Block} {bs xs ys : List Block}

theorem blockBelow_memStart (hn : n < 2 ^ 32) (he : e < 2 ^ 32) :
    (blockBelow n e).memStart = if n < e then e - n - 1 else e + 2 ^ 32 - n - 1 := by
  unfold blockBelow sub32
  split_ifs <;> dsimp only <;> omega

theorem arena : heapTop + 2 < heapBottom ∧ heapBottom + 2 < 2 ^ 32 := by decide

theorem Proper.memStart_lt (h : Proper a) : a.memStart < heapBottom := by
  have harena := arena
  unfold Proper at h
  omega

theorem Proper.add32 (h : Proper a) : add32 a.memStart 1 = a.memStart + 1 := by
  have harena := arena
  have hlt := h.memStart_lt
  exact add32_of_lt (by omega)

theorem Below.trans (hb : Proper b) (h₁ : Below a b) (h₂ : Below b c) : Below a c := by
  unfold Below Proper at *
  omega

theorem Below.of_memEnd (hb : Proper b) (h : Below a b) (hc : c.memEnd = b.memStart + 1) :
    Below a c := by
  unfold Below Proper at *
  omega

theorem sorted_nil : Sorted [] := ⟨.nil, by simp⟩

theorem Sorted.sublist (h : Sorted bs) (hs : xs.Sublist bs) : Sorted xs :=
  ⟨h.pairwise.sublist hs, fun b hb => h.proper b (hs.subset hb)⟩

theorem Sorted.insert (h : Sorted (xs ++ ys)) (hc : Proper c) (hxs : ∀ x ∈ xs, Below x c)
    (hys : ∀ y ∈ ys, Below c y) : Sorted (xs ++ c :: ys) := by
  have hp := List.pairwise_append.1 h.pairwise
  refine ⟨List.pairwise_append.2 ⟨hp.1, List.pairwise_cons.2 ⟨hys, hp.2.1⟩, ?_⟩, ?_⟩
  · intro x hx y hy
    rcases List.mem_cons.1 hy with rfl | hy
    · exact hxs x hx
    · exact hp.2.2 x hx y hy
  · intro b hb
    rcases List.mem_append.1 hb with hb | hb
    · exact h.proper b (List.mem_append_left _ hb)
    · rcases List.mem_cons.1 hb with rfl | hb
      · exact hc
      · exact h.proper b (List.mem_append_right _ hb)

/-- A block can go above the first one if that one lies below it. -/
theorem Sorted.cons (h : Sorted (a :: bs)) (hc : Proper c) (hca : Below c a) :
    Sorted (c :: a :: bs) := by
  have ha : Proper a := h.proper a List.mem_cons_self
  refine ⟨List.pairwise_cons.2 ⟨?_, h.pairwise⟩, by simpa using ⟨hc, by simpa using h.proper⟩⟩
  intro y hy
  rcases List.mem_cons.1 hy with rfl | hy
  · exact hca
  · exact hca.trans ha ((List.pairwise_cons.1 h.pairwise).1 y hy)

/-- Where the scan for a gap stops. -/
theorem host_split (n : ℕ) (a : Block) (bs : List Block) :
    ∃ xs ys, a :: bs = xs ++ host n a bs :: ys ∧
    placeBelow n a bs =
      xs ++ host n a bs :: blockBelow n (add32 (host n a bs).memStart 1) :: ys ∧
    ∀ y ∈ ys.head?, n ≤ sub32 (add32 (host n a bs).memStart 1) y.memEnd := by
  induction bs generalizing a with
  | nil => exact ⟨[], [], by simp [host, placeBelow]⟩
  | cons b bs ih =>
    by_cases hgap : n ≤ sub32 (add32 a.memStart 1) b.memEnd
    · exact ⟨[], b :: bs, by simp [host, placeBelow, hgap]⟩
    · obtain ⟨xs, ys, h₁, h₂, h₃⟩ := ih b
      refine ⟨a :: xs, ys, ?_⟩
      simp only [host, placeBelow, hgap, ↓reduceIte, List.cons_append, ← h₁, ← h₂]
      exact ⟨trivial, trivial, h₃⟩

theorem proper_blockBelow (ha : Proper a) (hn : 0 < n) (hn' : n < 2 ^ 32) (hc : Clear n a) :
    Proper (blockBelow n (a.memStart + 1)) := by
  have harena := arena
  have hlt := ha.memStart_lt
  have hstart := blockBelow_memStart (e := a.memStart + 1) hn' (by omega)
  have hend : (blockBelow n (a.memStart + 1)).memEnd = a.memStart + 1 := rfl
  unfold Proper Clear at *
  split_ifs at hstart <;> omega

/-- A gap of `n` bytes between `a` and `b` takes a block of `n` bytes. -/
theorem below_blockBelow (ha : Proper a) (hb : Proper b) (hab : Below a b) (hn' : n < 2 ^ 32)
    (hc : Clear n a) (hgap : n ≤ sub32 (a.memStart + 1) b.memEnd) :
    Below (blockBelow n (a.memStart + 1)) b := by
  have harena := arena
  have hlt := ha.memStart_lt
  have hstart := blockBelow_memStart (e := a.memStart + 1) hn' (by omega)
  generalize blockBelow n (a.memStart + 1) = c at hstart ⊢
  unfold Below Proper Clear at *
  -- the proof term must not compare the two numbers themselves: they are unfolded in unary
  generalize heapTop = top, heapBottom = bottom at *
  by_cases hfloor : a.memStart < top
  · omega
  · rw [sub32_of_le (by omega) (by omega)] at hgap
    split_ifs at hstart <;> omega

/-- A block placed behind its host is below everything before it and above everything after
it. -/
theorem Sorted.placeBelow (h : Sorted (a :: bs)) (hn : 0 < n) (hn' : n < 2 ^ 32)
    (hc : Clear n (host n a bs)) : Sorted (Layout.placeBelow n a bs) := by
  obtain ⟨xs, ys, hsplit, hplace, hgap⟩ := host_split n a bs
  rw [hsplit] at h
  rw [hplace]
  generalize host n a bs = d at *
  have hd : Proper d := h.proper d (by simp)
  rw [hd.add32] at hgap ⊢
  have hpw := List.pairwise_append.1 h.pairwise
  have hdys := List.pairwise_cons.1 hpw.2.1
  rw [show xs ++ d :: blockBelow n (d.memStart + 1) :: ys =
    (xs ++ [d]) ++ blockBelow n (d.memStart + 1) :: ys by simp]
  refine Sorted.insert (by simpa using h) (proper_blockBelow hd hn hn' hc) ?_ ?_
  · intro x hx
    rcases List.mem_append.1 hx with hx | hx
    · exact (hpw.2.2 x hx d List.mem_cons_self).of_memEnd hd rfl
    · obtain rfl : x = d := by simpa using hx
      exact Nat.le_max_left _ _
  · cases ys with
    | nil => simp
    | cons b ys =>
      have hb : Proper b := h.proper b (by simp)
      have hcb := below_blockBelow hd hb (hdys.1 b List.mem_cons_self) hn' hc (hgap b rfl)
      intro y hy
      rcases List.mem_cons.1 hy with rfl | hy
      · exact hcb
      · exact hcb.trans hb ((List.pairwise_cons.1 hdys.2).1 y hy)

/-- A block that ends with the arena. -/
theorem proper_first (hn : 0 < n) (hr : n < heapBottom) : Proper (blockBelow n heapBottom) := by
  have harena := arena
  have hstart := blockBelow_memStart (n := n) (e := heapBottom) (by omega) (by decide)
  have hend : (blockBelow n heapBottom).memEnd = heapBottom := rfl
  rw [if_pos hr] at hstart
  unfold Proper
  omega

/-- **Placing a request.**  With room for it, the end of the new block is decided and the layout
stays sorted around it. -/
theorem Sorted.place (h : Sorted bs) (hn : 0 < n) (hn' : n < 2 ^ 32) (hr : RoomFor n bs) :
    ∃ e xs ys, endFor n bs = some e ∧ bs = xs ++ ys ∧
      Layout.place n bs = xs ++ blockBelow n e :: ys ∧ Sorted (Layout.place n bs) := by
  have harena := arena
  cases bs with
  | nil =>
    refine ⟨heapBottom, [], [], rfl, rfl, rfl, ⟨by simp [Layout.place], ?_⟩⟩
    simpa [Layout.place] using proper_first hn hr
  | cons a bs =>
    have ha : Proper a := h.proper a List.mem_cons_self
    by_cases hlead : a.memEnd ≠ heapBottom
    · rw [RoomFor, if_pos hlead] at hr
      have hlt : n < heapBottom := by
        have hpos := ha.1
        omega
      have hfits : n ≤ sub32 heapBottom a.memEnd := by
        rw [sub32_of_le (by decide) (by omega)]
        omega
      simp only [endFor, Layout.place, if_pos hlead, if_pos hfits]
      refine ⟨heapBottom, [], a :: bs, rfl, rfl, rfl, h.cons (proper_first hn hlt) ?_⟩
      have hstart := blockBelow_memStart (n := n) (e := heapBottom) hn' (by omega)
      rw [if_pos hlt] at hstart
      unfold Below
      omega
    · rw [RoomFor, if_neg hlead] at hr
      obtain ⟨xs, ys, hsplit, hplace, -⟩ := host_split n a bs
      simp only [endFor, Layout.place, if_neg hlead]
      exact ⟨_, xs ++ [host n a bs], ys, rfl, by simpa using hsplit, by simpa using hplace,
        h.placeBelow hn hn' hr⟩

/-- Two blocks of a sorted layout that both start in the arena do not overlap. -/
theorem Below.disjoint (h : Below a b) (hb : Proper b) (hs : heapTop ≤ b.memStart) :
    b.memEnd ≤ a.memStart + 1 := by
  unfold Below Proper at *
  omega

end Layout

end KTeamOS
