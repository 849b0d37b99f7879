import KTeamOS.Buffer.Overlay
import KTeamOS.Gui.Block

/-!
# Drawing a block

`draw_full_block` copies the pixels of a block that are not 0 into the build buffer, which has the
screen in four planes.  It clips the block on all four sides by comparing signed positions with
unsigned sizes.  A block that is wholly off the left or the top of the screen passes the first test,
as the sum that it compares has wrapped around, and then has no columns or no rows left.

## Main definitions

* `drawFullBlock` : the function, on the buffer and the indices of the block that it reads.
* `Paints` : what the pixels of a set show afterwards, and what stays as it was.
-/

namespace KTeamOS

/-- The build buffer. -/
structure Canvas where
  /-- The byte at `img3 + a`. -/
  build : ℤ → UInt8
  /-- Not part of the source: the indices of the block that were read. -/
  reads : List ℤ

/-- `(pos_x >> 2) + pos_y * SCROLL_X_WIDTH + (3 - (pos_x & 3)) * SCROLL_SIZE` -/
def planeOffset (posX posY : ℤ) : ℤ := posX / 4 + posY * 80 + (3 - posX % 4) * 16000

/-- One turn of the inner loop, with `blk` at the index `p`. -/
def Canvas.pixel (d : Canvas) (blk : ℤ → UInt8) (posX posY p : ℤ) : Canvas where
  build := if blk p ≠ 0 then Function.update d.build (planeOffset posX posY) (blk p) else d.build
  reads := p :: d.reads

/-- The inner loop: the buffer, `pos_x` and the index of `blk` after `n` turns. -/
def drawRow (blk : ℤ → UInt8) (posY : ℤ) : (n : ℕ) → (posX p : ℤ) → Canvas → Canvas × ℤ × ℤ
  | 0, posX, p, d => (d, posX, p)
  | n + 1, posX, p, d => drawRow blk posY n (posX + 1) (uint32 (p + 1)) (d.pixel blk posX posY p)

/-- The outer loop, for `m` rows. -/
def drawRows (blk : ℤ → UInt8) (xLeft xRight : ℤ) : (m : ℕ) → (posX posY p : ℤ) → Canvas → Canvas
  | 0, _, _, _, d => d
  | m + 1, posX, posY, p, d =>
    let (d, posX, p) := drawRow blk posY xRight.toNat posX p d
    drawRows blk xLeft xRight m (posX - xRight) (posY + 1) (uint32 (p + xLeft)) d

/-- `draw_full_block`; its operations on `int` do not overflow. -/
def drawFullBlock (showX showY posX posY : ℤ) (blk : ℤ → UInt8) (blockXDim blockYDim : ℕ)
    (d : Canvas) : Canvas :=
  if uint32 (posX + blockXDim) ≤ uint32 showX ∨ posX ≥ showX + scrollXDim ∨
      uint32 (posY + blockYDim) ≤ uint32 showY ∨ posY ≥ showY + scrollYDim then d
  else
    let xLeft := if showX - posX < 0 then 0 else showX - posX
    let xRight := if uint32 (showX + scrollXDim - posX) > blockXDim then int32 blockXDim
      else showX + scrollXDim - posX
    let posX := posX + xLeft
    let p := uint32 xLeft
    let xRight := xRight - xLeft
    let xLeft := int32 (blockXDim - xRight)
    let yTop := if showY - posY < 0 then 0 else showY - posY
    let yBottom := if uint32 (showY + scrollYDim - posY) > blockYDim then int32 blockYDim
      else showY + scrollYDim - posY
    let posY := posY + yTop
    let p := uint32 (p + yTop * blockXDim)
    let yBottom := yBottom - yTop
    drawRows blk xLeft xRight yBottom.toNat posX posY p d

/-! ### Sets of pixels -/

/-- The pixels of `S` show what `val` has for them, unless that is 0, and no other byte of the
buffer changes; the indices read on the way are below `size`. -/
structure Paints (S : ℤ → ℤ → Prop) (val : ℤ → ℤ → UInt8) (size : ℤ) (d d' : Canvas) : Prop where
  shown : ∀ x y, S x y → val x y ≠ 0 → d'.build (planeOffset x y) = val x y
  rest : ∀ a, (∀ x y, S x y → val x y ≠ 0 → a ≠ planeOffset x y) → d'.build a = d.build a
  reads : ∀ i ∈ d'.reads, i ∈ d.reads ∨ (0 ≤ i ∧ i < size)

/-- Two pixels of the screen have different bytes. -/
theorem planeOffset_inj {x y x' y' : ℤ} (h : OnScreen x y) (h' : OnScreen x' y')
    (heq : planeOffset x y = planeOffset x' y') : x = x' ∧ y = y' := by
  unfold OnScreen at h h'
  unfold planeOffset at heq
  simp only [scrollXDim, scrollYDim] at h h'
  -- the bytes of a plane
  have hin : 0 ≤ x / 4 + y * 80 ∧ x / 4 + y * 80 < 16000 := by omega
  have hin' : 0 ≤ x' / 4 + y' * 80 ∧ x' / 4 + y' * 80 < 16000 := by omega
  have hplane : x % 4 = x' % 4 := by
    have hlow : 0 ≤ x % 4 ∧ x % 4 < 4 := by omega
    have hlow' : 0 ≤ x' % 4 ∧ x' % 4 < 4 := by omega
    generalize x / 4 + y * 80 = a at *
    generalize x' / 4 + y' * 80 = a' at *
    omega
  rw [hplane] at heq
  have hrow : x / 4 + y * 80 = x' / 4 + y' * 80 := by omega
  have hcolumn : 0 ≤ x / 4 ∧ x / 4 < 80 ∧ 0 ≤ x' / 4 ∧ x' / 4 < 80 := by omega
  have hquarter : x / 4 = x' / 4 ∧ y = y' := by
    generalize x / 4 = a at *
    generalize x' / 4 = a' at *
    omega
  exact ⟨by omega, hquarter.2⟩

/-- The bytes of the screen, in the build buffer. -/
def bufferPlace (q : ℤ × ℤ) : ℤ := planeOffset q.1 q.2

theorem bufferPlace_injOn : Set.InjOn bufferPlace {q | OnScreen q.1 q.2} := fun _ hq _ hq' heq =>
  have h := planeOffset_inj hq hq' heq
  Prod.ext h.1 h.2

/-! ### The two loops -/

section Loops

variable {blk : ℤ → UInt8} {x y p xLeft xRight : ℤ} {n m w : ℕ} {posX posY : ℤ} {d : Canvas}

theorem drawRow_eq : drawRow blk y n x p d =
    blockRow (fun x y p d => d.pixel blk x y p) y n x p d := by
  induction n generalizing x p d with
  | zero => rfl
  | succ n ih => exact ih

theorem drawRows_eq : drawRows blk xLeft xRight m x y p d =
    blockRows (fun x y p d => d.pixel blk x y p) xLeft xRight m x y p d := by
  induction m generalizing x y p d with
  | zero => rfl
  | succ m ih =>
    rw [drawRows, blockRows, drawRow_eq]
    exact ih

theorem foldl_pixel_overlay (blk : ℤ → UInt8) (posX posY : ℤ) (w : ℕ) {l : List (ℤ × ℤ)}
    (hl : ∀ q ∈ l, OnScreen q.1 q.2) (d : Canvas) :
    Overlay bufferPlace {q | q ∈ l ∧ blk (blockIndex posX posY w q) ≠ 0}
      (fun q => blk (blockIndex posX posY w q)) d.build
      (l.foldl (fun d q => d.pixel blk q.1 q.2 (blockIndex posX posY w q)) d).build := by
  refine (Overlay.foldl (I := fun _ => True)
    (T := fun q => {q' | q' = q ∧ blk (blockIndex posX posY w q) ≠ 0}) bufferPlace_injOn
    (fun q hq q' hq' => by rw [hq'.1]; exact hl q hq) (fun d q _ _ => ⟨trivial, ?_⟩)
    trivial).2.congr (fun q => ⟨fun hq => ⟨q, hq.1, rfl, hq.2⟩, ?_⟩) fun _ _ => rfl
  · unfold Canvas.pixel
    split_ifs with hne
    · exact (Overlay.update q).congr (fun q' => and_iff_left hne) fun _ _ => rfl
    · exact Overlay.empty fun q' hq' => hne hq'.2
  · rintro ⟨q', hq', rfl, hne⟩
    exact ⟨hq', hne⟩

theorem foldl_pixel_reads {l : List (ℤ × ℤ)} (d : Canvas) :
    (l.foldl (fun d q => d.pixel blk q.1 q.2 (blockIndex posX posY w q)) d).reads =
      (l.map (blockIndex posX posY w)).reverse ++ d.reads := by
  induction l generalizing d with
  | nil => rfl
  | cons q l ih =>
    rw [List.foldl_cons, ih, List.map_cons, List.reverse_cons, List.append_assoc]
    rfl

end Loops

theorem drawFullBlock_eq {showX showY posX posY : ℤ} {blk : ℤ → UInt8} {w h : ℕ} {d : Canvas} :
    drawFullBlock showX showY posX posY blk w h d =
      forBlock showX showY posX posY w h (fun x y p d => d.pixel blk x y p) d := by
  unfold drawFullBlock forBlock
  by_cases hoff : OffScreen showX showY posX posY w h
  · exact (if_pos hoff).trans (if_pos hoff).symm
  · exact (if_neg hoff).trans (drawRows_eq.trans (if_neg hoff).symm)

/-! ### The whole block -/

/-- The sums of a position and the sizes of the block and of the screen fit into 32 bits. -/
structure SumsFit (pos : ℤ) (dim : ℕ) (screen : ℤ) : Prop where
  lower : screen - pos < 2 ^ 31
  upper : pos + dim < 2 ^ 32

/-- The pixels of the block that are on the screen get its bytes, unless these are 0. -/
theorem drawFullBlock_overlay (blk : ℤ → UInt8) {posX posY : ℤ} {w h : ℕ}
    (hx : scrollXDim - posX < 2 ^ 31) (hy : scrollYDim - posY < 2 ^ 31) (hsize : w * h ≤ 2 ^ 32)
    (hon : ¬ OffScreen 0 0 posX posY w h) (d : Canvas) :
    Overlay bufferPlace
      {q | InBlock posX posY w h q.1 q.2 ∧ blk (blockIndex posX posY w q) ≠ 0}
      (fun q => blk (blockIndex posX posY w q)) d.build
      (drawFullBlock 0 0 posX posY blk w h d).build := by
  obtain ⟨l, -, hl, heq⟩ :=
    forBlock_eq (fun x y p (d : Canvas) => d.pixel blk x y p) hx hy hsize hon d
  rw [drawFullBlock_eq, heq]
  exact (foldl_pixel_overlay blk posX posY w (fun q hq => ((hl q).1 hq).1) d).congr
    (fun q => and_congr_left' (hl q).symm) fun _ _ => rfl

/-- The bytes of the block that are read are inside of it. -/
theorem drawFullBlock_reads (blk : ℤ → UInt8) {posX posY : ℤ} {w h : ℕ}
    (hx : scrollXDim - posX < 2 ^ 31) (hy : scrollYDim - posY < 2 ^ 31) (hsize : w * h ≤ 2 ^ 32)
    (hon : ¬ OffScreen 0 0 posX posY w h) (d : Canvas) {i : ℤ}
    (hi : i ∈ (drawFullBlock 0 0 posX posY blk w h d).reads) :
    i ∈ d.reads ∨ 0 ≤ i ∧ i < w * h := by
  obtain ⟨l, -, hl, heq⟩ :=
    forBlock_eq (fun x y p (d : Canvas) => d.pixel blk x y p) hx hy hsize hon d
  rw [drawFullBlock_eq, heq, foldl_pixel_reads, List.mem_append, List.mem_reverse] at hi
  refine hi.symm.imp_right fun hi => ?_
  obtain ⟨q, hq, rfl⟩ := List.mem_map.1 hi
  exact ((hl q).1 hq).index_bounds

/-- A block that is off the screen has no pixels there. -/
theorem SumsFit.not_inBlock {posX posY : ℤ} {w h : ℕ} (hx : SumsFit posX w scrollXDim)
    (hy : SumsFit posY h scrollYDim) (hoff : OffScreen 0 0 posX posY w h) (x y : ℤ) :
    ¬ InBlock posX posY w h x y := by
  obtain ⟨hx₁, hx₂⟩ := hx
  obtain ⟨hy₁, hy₂⟩ := hy
  rintro ⟨hscreen, hblock⟩
  simp only [OffScreen, OnScreen, uint32, scrollXDim, scrollYDim] at *
  omega

/-- **`draw_full_block` clips the block to the screen**, wherever it lies. -/
theorem drawFullBlock_paints (posX posY : ℤ) (blk : ℤ → UInt8) (w h : ℕ)
    (hx : SumsFit posX w scrollXDim) (hy : SumsFit posY h scrollYDim) (hsize : w * h ≤ 2 ^ 32)
    (build : ℤ → UInt8) :
    Paints (InBlock posX posY w h) (fun x y => blk ((y - posY) * w + (x - posX))) (w * h)
      ⟨build, []⟩ (drawFullBlock 0 0 posX posY blk w h ⟨build, []⟩) := by
  by_cases hoff : OffScreen 0 0 posX posY w h
  · rw [drawFullBlock_eq, forBlock, if_pos hoff]
    exact ⟨fun x y hxy => absurd hxy (hx.not_inBlock hy hoff x y), fun _ _ => rfl,
      fun _ hi => .inl hi⟩
  · have hoverlay := drawFullBlock_overlay blk hx.lower hy.lower hsize hoff ⟨build, []⟩
    exact ⟨fun x y hxy hne => hoverlay.shown (x, y) ⟨hxy, hne⟩,
      fun a ha => hoverlay.rest a fun q hq => ha q.1 q.2 hq.1 hq.2,
      fun i hi => drawFullBlock_reads blk hx.lower hy.lower hsize hoff ⟨build, []⟩ hi⟩

/-- A block of four pixels, of which the upper left corner of the screen shows one. -/
theorem drawFullBlock_paints_corner : Paints (InBlock (-1) (-1) 2 2)
    (fun x y => (fun _ => 7 : ℤ → UInt8) ((y - -1) * (2 : ℕ) + (x - -1))) ((2 : ℕ) * (2 : ℕ))
    ⟨fun _ => 0, []⟩ (drawFullBlock 0 0 (-1) (-1) (fun _ => 7) 2 2 ⟨fun _ => 0, []⟩) :=
  drawFullBlock_paints (-1) (-1) (fun _ => 7) 2 2 ⟨by decide, by decide⟩ ⟨by decide, by decide⟩
    (by decide) fun _ => 0

end KTeamOS
