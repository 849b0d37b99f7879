import KTeamOS.Gui.Draw

/-!
# Drawing a block and taking it back

`draw_save_full_block` with `needSave` set keeps the bytes that it overwrites in a second buffer,
and drawing that buffer is to bring them back.  But a byte 0 is transparent to the second call too:
a pixel of the block over a byte 0 of the build buffer stays.

## Main definitions

* `drawSaveFullBlock` : the function, on the build buffer and the buffer `store_buf`.

## Main results

* `restores_iff` : the two calls leave the build buffer as it was exactly if no pixel of the block
  lies over a byte 0.
-/

namespace KTeamOS

/-- The build buffer and the buffer `store_buf`. -/
structure Saving where
  /-- The byte at `img3 + a`. -/
  build : ℤ → UInt8
  store : ℤ → UInt8

/-- One turn of the inner loops, with `blk` and `store_buf` at the index `p`. -/
def Saving.pixel (d : Saving) (blk : ℤ → UInt8) (needSave : UInt8) (posX posY p : ℤ) : Saving :=
  if blk p ≠ 0 then
    { build := Function.update d.build (planeOffset posX posY) (blk p)
      store := if needSave = 1 then Function.update d.store p (d.build (planeOffset posX posY))
        else d.store }
  else d

/-- `draw_save_full_block`; it moves `store_buf` along with `blk`. -/
def drawSaveFullBlock (showX showY : ℤ) (blk : ℤ → UInt8) (posX posY : ℤ)
    (blockXDim blockYDim : ℕ) (needSave : UInt8) (d : Saving) : Saving :=
  forBlock showX showY posX posY blockXDim blockYDim
    (fun x y p d => d.pixel blk needSave x y p) d

/-- The block is drawn and saved, and what was saved is drawn; the second call does not use
`store_buf`. -/
def drawAndRestore (blk : ℤ → UInt8) (posX posY : ℤ) (blockXDim blockYDim : ℕ) (d : Saving) :
    Saving :=
  let d := drawSaveFullBlock 0 0 blk posX posY blockXDim blockYDim 1 d
  drawSaveFullBlock 0 0 d.store posX posY blockXDim blockYDim 0 d

section

variable {blk : ℤ → UInt8} {posX posY : ℤ} {w h : ℕ} {needSave : UInt8}

namespace Saving

variable {d : Saving} {x y p : ℤ}

theorem pixel_build : (d.pixel blk needSave x y p).build =
    if blk p ≠ 0 then Function.update d.build (planeOffset x y) (blk p) else d.build := by
  unfold pixel
  split_ifs <;> rfl

theorem pixel_store : (d.pixel blk 1 x y p).store =
    if blk p ≠ 0 then Function.update d.store p (d.build (planeOffset x y)) else d.store := by
  unfold pixel
  rw [if_pos rfl]
  split_ifs <;> rfl

end Saving

/-- The build buffer changes as with `draw_full_block`. -/
theorem drawSaveFullBlock_build (needSave : UInt8) (d : Saving) (r : List ℤ) :
    (drawSaveFullBlock 0 0 blk posX posY w h needSave d).build =
      (drawFullBlock 0 0 posX posY blk w h ⟨d.build, r⟩).build := by
  have hsave : (drawSaveFullBlock 0 0 blk posX posY w h needSave d).build =
      forBlock 0 0 posX posY w h (fun x y p b =>
        if blk p ≠ 0 then Function.update b (planeOffset x y) (blk p) else b) d.build :=
    forBlock_hom (g := Saving.build) fun _ _ _ _ => Saving.pixel_build
  have hdraw : (forBlock 0 0 posX posY w h (fun x y p (d : Canvas) => d.pixel blk x y p)
        ⟨d.build, r⟩).build =
      forBlock 0 0 posX posY w h (fun x y p b =>
        if blk p ≠ 0 then Function.update b (planeOffset x y) (blk p) else b) d.build :=
    forBlock_hom (g := Canvas.build) fun _ _ _ _ => rfl
  rw [hsave, drawFullBlock_eq, hdraw]

/-- What is saved is what was there before the block was drawn. -/
theorem foldl_pixel_store {l : List (ℤ × ℤ)} (hnodup : l.Nodup)
    (hl : ∀ q ∈ l, InBlock posX posY w h q.1 q.2) (d : Saving) :
    Overlay (blockIndex posX posY w) {q | q ∈ l ∧ blk (blockIndex posX posY w q) ≠ 0}
      (fun q => d.build (bufferPlace q)) d.store
      (l.foldl (fun d q => d.pixel blk 1 q.1 q.2 (blockIndex posX posY w q)) d).store := by
  induction l generalizing d with
  | nil => exact Overlay.empty fun q hq => absurd hq.1 List.not_mem_nil
  | cons q l ih =>
    obtain ⟨hq, hnodup⟩ := List.nodup_cons.1 hnodup
    have hqBlock := hl q List.mem_cons_self
    have hlBlock : ∀ q' ∈ l, InBlock posX posY w h q'.1 q'.2 :=
      fun q' hmem => hl q' (List.mem_cons_of_mem q hmem)
    have hfirst : Overlay (blockIndex posX posY w)
        {q' | q' = q ∧ blk (blockIndex posX posY w q) ≠ 0} (fun q => d.build (bufferPlace q))
        d.store (d.pixel blk 1 q.1 q.2 (blockIndex posX posY w q)).store := by
      rw [Saving.pixel_store]
      split_ifs with hne
      · exact (Overlay.update q).congr (fun q' => and_iff_left hne) fun _ _ => rfl
      · exact Overlay.empty fun q' hq' => hne hq'.2
    -- the pixels to come are still as they were
    have hrest : Overlay (blockIndex posX posY w)
        {q | q ∈ l ∧ blk (blockIndex posX posY w q) ≠ 0} (fun q => d.build (bufferPlace q))
        (d.pixel blk 1 q.1 q.2 (blockIndex posX posY w q)).store
        (l.foldl (fun d q => d.pixel blk 1 q.1 q.2 (blockIndex posX posY w q))
          (d.pixel blk 1 q.1 q.2 (blockIndex posX posY w q))).store := by
      refine (ih hnodup hlBlock _).congr (fun _ => Iff.rfl) fun q' hmem => ?_
      have hne : bufferPlace q' ≠ bufferPlace q := fun heq => hq <| by
        rw [← bufferPlace_injOn (hlBlock q' hmem.1).1 hqBlock.1 heq]
        exact hmem.1
      rw [Saving.pixel_build]
      split_ifs
      · exact (Function.update_of_ne hne ..).symm
      · rfl
    refine (hfirst.append hrest (blockIndex_injOn (h := h)) ?_
      fun q' hmem => hlBlock q' hmem.1).congr (fun q' => ?_) fun _ _ => rfl
    · rintro q' ⟨rfl, -⟩
      exact hqBlock
    · constructor
      · rintro ⟨hmem, hne⟩
        rcases List.mem_cons.1 hmem with rfl | hmem
        · exact .inl ⟨rfl, hne⟩
        · exact .inr ⟨hmem, hne⟩
      · rintro (⟨rfl, hne⟩ | ⟨hmem, hne⟩)
        · exact ⟨List.mem_cons_self, hne⟩
        · exact ⟨List.mem_cons_of_mem q hmem, hne⟩

theorem drawSaveFullBlock_store (blk : ℤ → UInt8) (hx : scrollXDim - posX < 2 ^ 31)
    (hy : scrollYDim - posY < 2 ^ 31) (hsize : w * h ≤ 2 ^ 32)
    (hon : ¬ OffScreen 0 0 posX posY w h) (d : Saving) :
    Overlay (blockIndex posX posY w)
      {q | InBlock posX posY w h q.1 q.2 ∧ blk (blockIndex posX posY w q) ≠ 0}
      (fun q => d.build (bufferPlace q)) d.store
      (drawSaveFullBlock 0 0 blk posX posY w h 1 d).store := by
  obtain ⟨l, hnodup, hl, heq⟩ :=
    forBlock_eq (fun x y p (d : Saving) => d.pixel blk 1 x y p) hx hy hsize hon d
  rw [drawSaveFullBlock, heq]
  exact (foldl_pixel_store hnodup (fun q => (hl q).1) d).congr
    (fun q => and_congr_left' (hl q).symm) fun _ _ => rfl

/-- **What is restored.**  The block is drawn with its bytes saved in a buffer of zeros, and the
buffer is drawn: the build buffer is as it was exactly if the block is off the screen, or none of
its pixels there lies over a byte 0. -/
theorem restores_iff (blk build store : ℤ → UInt8) (posX posY : ℤ) (w h : ℕ)
    (hx : scrollXDim - posX < 2 ^ 31) (hy : scrollYDim - posY < 2 ^ 31) (hsize : w * h ≤ 2 ^ 32)
    (hstore : ∀ i : ℤ, 0 ≤ i → i < w * h → store i = 0) :
    (drawAndRestore blk posX posY w h ⟨build, store⟩).build = build ↔
      OffScreen 0 0 posX posY w h ∨ ∀ q : ℤ × ℤ, InBlock posX posY w h q.1 q.2 →
        blk (blockIndex posX posY w q) ≠ 0 → build (bufferPlace q) ≠ 0 := by
  by_cases hoff : OffScreen 0 0 posX posY w h
  · refine iff_of_true ?_ (.inl hoff)
    unfold drawAndRestore drawSaveFullBlock forBlock
    simp only [if_pos hoff]
  · rw [or_iff_right hoff]
    set d := drawSaveFullBlock 0 0 blk posX posY w h 1 ⟨build, store⟩ with hd
    set S : Set (ℤ × ℤ) :=
      {q | InBlock posX posY w h q.1 q.2 ∧ blk (blockIndex posX posY w q) ≠ 0}
    have hdrawn :
        Overlay bufferPlace S (fun q => blk (blockIndex posX posY w q)) build d.build := by
      rw [hd, drawSaveFullBlock_build 1 ⟨build, store⟩ []]
      exact drawFullBlock_overlay blk hx hy hsize hoff ⟨build, []⟩
    have hsaved :
        Overlay (blockIndex posX posY w) S (fun q => build (bufferPlace q)) store d.store :=
      drawSaveFullBlock_store blk hx hy hsize hoff ⟨build, store⟩
    -- the bytes of the second call are those that the first one has saved, and zeros
    have hbytes : ∀ q : ℤ × ℤ, InBlock posX posY w h q.1 q.2 →
        (d.store (blockIndex posX posY w q) ≠ 0 ↔ q ∈ S ∧ build (bufferPlace q) ≠ 0) := by
      intro q hq
      by_cases hqS : q ∈ S
      · rw [hsaved.shown q hqS, and_iff_right hqS]
      · have hzero : d.store (blockIndex posX posY w q) = 0 := by
          rw [hsaved.kept (blockIndex_injOn (h := h)) (fun _ hq => hq.1) hq hqS]
          exact hstore _ hq.index_bounds.1 hq.index_bounds.2
        exact iff_of_false (fun hne => hne hzero) fun h => hqS h.1
    have hrestored : Overlay bufferPlace {q | q ∈ S ∧ build (bufferPlace q) ≠ 0}
        (fun q => build (bufferPlace q)) d.build
        (drawAndRestore blk posX posY w h ⟨build, store⟩).build := by
      unfold drawAndRestore
      rw [← hd, drawSaveFullBlock_build 0 d []]
      refine (drawFullBlock_overlay d.store hx hy hsize hoff ⟨d.build, []⟩).congr (fun q => ?_)
        fun q hq => ?_
      · exact ⟨fun hq => ⟨hq.1.1, (hbytes q hq.1.1).2 hq⟩, fun hq => (hbytes q hq.1).1 hq.2⟩
      · exact (hsaved.shown q ((hbytes q hq.1).1 hq.2).1).symm
    rw [hdrawn.undo hrestored bufferPlace_injOn (fun q hq => hq.1.1) fun q hq => hq.1]
    constructor
    · intro hsame q hq hne hzero
      have hval := hsame q ⟨hq, hne⟩ fun hmem => hmem.2 hzero
      exact hne (hval.trans hzero)
    · intro hne q hq hmem
      exact absurd ⟨hq, hne q hq.1 hq.2⟩ hmem

end

/-- A block of four bytes, one of them transparent, at the right edge of the screen. -/
theorem restores_iff_edge :
    (drawAndRestore (fun i => if i = 2 then 0 else 7) (scrollXDim - 1) 5 2 2
      ⟨fun i => if i % 2 = 0 then 1 else 2, fun _ => 0⟩).build =
        fun i => if i % 2 = 0 then 1 else 2 := by
  refine (restores_iff _ _ _ _ 5 2 2 (by decide) (by decide) (by decide) fun _ _ _ => rfl).2
    (.inr fun q _ _ => ?_)
  split_ifs <;> decide

/-- Over a byte 0 it stays. -/
theorem not_restores : ¬ ∀ (blk build store : ℤ → UInt8) (posX posY : ℤ) (w h : ℕ),
    scrollXDim - posX < 2 ^ 31 → scrollYDim - posY < 2 ^ 31 → w * h ≤ 2 ^ 32 →
    (∀ i : ℤ, 0 ≤ i → i < w * h → store i = 0) →
    (drawAndRestore blk posX posY w h ⟨build, store⟩).build = build := by
  intro h
  have hrestored := h (fun _ => 7) (fun _ => 0) (fun _ => 0) 3 5 1 1 (by decide) (by decide)
    (by decide) fun _ _ _ => rfl
  exact absurd (congrFun hrestored (planeOffset 3 5)) (by decide)

end KTeamOS
