import Mathlib.Data.Set.Function
import KTeamOS.Word.Signed

/-!
# The pixels of a block

The functions that draw a block into the build buffer share their control: they return if the block
is off the screen, clip it on all four sides, and go over what is left row by row.  The test and the
clipping compare signed positions with unsigned sizes.

## Main definitions

* `forBlock` : this control, with what is done at a pixel as a parameter.
* `InBlock` : the pixels of a block that are on the screen.

## Main results

* `forBlock_eq` : the pixels of `InBlock` are visited once each, with their bytes of the block.
-/

namespace KTeamOS

/-- `SCROLL_X_DIM` -/
abbrev scrollXDim : ℤ := 320

/-- `SCROLL_Y_DIM` -/
abbrev scrollYDim : ℤ := 200

/-- "If block is completely off-screen, we do nothing." -/
def OffScreen (showX showY posX posY : ℤ) (blockXDim blockYDim : ℕ) : Prop :=
  uint32 (posX + blockXDim) ≤ uint32 showX ∨ posX ≥ showX + scrollXDim ∨
    uint32 (posY + blockYDim) ≤ uint32 showY ∨ posY ≥ showY + scrollYDim

instance {showX showY posX posY : ℤ} {blockXDim blockYDim : ℕ} :
    Decidable (OffScreen showX showY posX posY blockXDim blockYDim) :=
  inferInstanceAs (Decidable (_ ∨ _ ∨ _ ∨ _))

section Control

variable {σ : Type*}

/-- The inner loop, with `draw` done at `(pos_x, pos_y)` and the byte `p` of the block: the state,
`pos_x` and the index of `blk` after `n` turns. -/
def blockRow (draw : ℤ → ℤ → ℤ → σ → σ) (posY : ℤ) : (n : ℕ) → (posX p : ℤ) → σ → σ × ℤ × ℤ
  | 0, posX, p, d => (d, posX, p)
  | n + 1, posX, p, d =>
    blockRow draw posY n (posX + 1) (uint32 (p + 1)) (draw posX posY p d)

/-- The outer loop, for `m` rows. -/
def blockRows (draw : ℤ → ℤ → ℤ → σ → σ) (xLeft xRight : ℤ) :
    (m : ℕ) → (posX posY p : ℤ) → σ → σ
  | 0, _, _, _, d => d
  | m + 1, posX, posY, p, d =>
    let (d, posX, p) := blockRow draw posY xRight.toNat posX p d
    blockRows draw xLeft xRight m (posX - xRight) (posY + 1) (uint32 (p + xLeft)) d

/-- What `draw_full_block` and `draw_save_full_block` share; its operations on `int` do not
overflow. -/
def forBlock (showX showY posX posY : ℤ) (blockXDim blockYDim : ℕ)
    (draw : ℤ → ℤ → ℤ → σ → σ) (d : σ) : σ :=
  if OffScreen showX showY posX posY blockXDim blockYDim then d
  else
    let xLeft := if showX - posX < 0 then 0 else showX - posX
    let xRight := if uint32 (showX + scrollXDim - posX) > blockXDim then int32 blockXDim
      else showX + scrollXDim - posX
    let posX := posX + xLeft
    let p := uint32 xLeft
    let xRight := xRight - xLeft
    let xLeft := int32 (blockXDim - xRight)
    let yTop := if showY - posY < 0 then 0 else showY - posY
    let yBottom := if uint32 (showY + scrollYDim - posY) > blockYDim then int32 blockYDim
      else showY + scrollYDim - posY
    let posY := posY + yTop
    let p := uint32 (p + yTop * blockXDim)
    let yBottom := yBottom - yTop
    blockRows draw xLeft xRight yBottom.toNat posX posY p d

end Control

/-! ### Rectangles -/

/-- The pixels of the screen. -/
def OnScreen (x y : ℤ) : Prop := 0 ≤ x ∧ x < scrollXDim ∧ 0 ≤ y ∧ y < scrollYDim

/-- The pixel is on the screen and in the block of `w` times `h` pixels at `(posX, posY)`. -/
def InBlock (posX posY : ℤ) (w h : ℕ) (x y : ℤ) : Prop :=
  OnScreen x y ∧ posX ≤ x ∧ x < posX + w ∧ posY ≤ y ∧ y < posY + h

/-- The byte of the block that the pixel `q` shows. -/
def blockIndex (posX posY : ℤ) (w : ℕ) (q : ℤ × ℤ) : ℤ := (q.2 - posY) * w + (q.1 - posX)

/-- `n` pixels of a row. -/
def rowPixels (y : ℤ) : (n : ℕ) → (x : ℤ) → List (ℤ × ℤ)
  | 0, _ => []
  | n + 1, x => (x, y) :: rowPixels y n (x + 1)

/-- `m` rows of `n` pixels. -/
def rectPixels (n : ℕ) (x : ℤ) : (m : ℕ) → (y : ℤ) → List (ℤ × ℤ)
  | 0, _ => []
  | m + 1, y => rowPixels y n x ++ rectPixels n x m (y + 1)

section Rectangles

variable {posX posY x y : ℤ} {n m w h : ℕ} {q q' : ℤ × ℤ}

theorem mem_rowPixels : q ∈ rowPixels y n x ↔ x ≤ q.1 ∧ q.1 < x + n ∧ q.2 = y := by
  obtain ⟨x', y'⟩ := q
  induction n generalizing x with
  | zero =>
    simp only [rowPixels, List.not_mem_nil, false_iff]
    omega
  | succ n ih =>
    rw [rowPixels, List.mem_cons, ih, Prod.mk.injEq]
    simp only
    omega

theorem mem_rectPixels :
    q ∈ rectPixels n x m y ↔ x ≤ q.1 ∧ q.1 < x + n ∧ y ≤ q.2 ∧ q.2 < y + m := by
  induction m generalizing y with
  | zero =>
    simp only [rectPixels, List.not_mem_nil, false_iff]
    omega
  | succ m ih =>
    rw [rectPixels, List.mem_append, mem_rowPixels, ih]
    omega

theorem nodup_rowPixels : (rowPixels y n x).Nodup := by
  induction n generalizing x with
  | zero => exact List.nodup_nil
  | succ n ih =>
    refine List.nodup_cons.2 ⟨fun hmem => ?_, ih⟩
    have hle := (mem_rowPixels.1 hmem).1
    simp only at hle
    omega

theorem nodup_rectPixels : (rectPixels n x m y).Nodup := by
  induction m generalizing y with
  | zero => exact List.nodup_nil
  | succ m ih =>
    refine List.nodup_append.2 ⟨nodup_rowPixels, ih, fun q hq q' hq' heq => ?_⟩
    have hrow := (mem_rowPixels.1 hq).2.2
    have hrect := (mem_rectPixels.1 hq').2.2.1
    rw [← heq, hrow] at hrect
    omega

/-- A row of the block ends in it. -/
theorem index_bounds {j i : ℤ} (hj : 0 ≤ j) (hjh : j < h) (hi : 0 ≤ i)
    (hiw : i + n ≤ w) : 0 ≤ j * w + i ∧ j * w + i + n ≤ w * h := by
  have hmul : (j + 1) * w ≤ h * w := Int.mul_le_mul_of_nonneg_right (by omega) (by omega)
  have hnonneg : 0 ≤ j * w := Int.mul_nonneg hj (by omega)
  rw [Int.add_mul, Int.one_mul] at hmul
  rw [Int.mul_comm (w : ℤ) h]
  omega

theorem InBlock.index_bounds (hq : InBlock posX posY w h q.1 q.2) :
    0 ≤ blockIndex posX posY w q ∧ blockIndex posX posY w q < w * h := by
  obtain ⟨-, hx, hx', hy, hy'⟩ := hq
  have hbounds := KTeamOS.index_bounds (n := 1) (w := w) (h := h) (j := q.2 - posY)
    (i := q.1 - posX) (by omega) (by omega) (by omega) (by omega)
  unfold blockIndex
  omega

/-- The columns of a block differ by less than one row. -/
theorem blockIndex_lt (hq : InBlock posX posY w h q.1 q.2) (hq' : InBlock posX posY w h q'.1 q'.2)
    (hlt : q.2 < q'.2) : blockIndex posX posY w q < blockIndex posX posY w q' := by
  obtain ⟨-, hx, hx', -, -⟩ := hq
  obtain ⟨-, hu, hu', -, -⟩ := hq'
  have hmul : (q.2 - posY + 1) * w ≤ (q'.2 - posY) * w :=
    Int.mul_le_mul_of_nonneg_right (by omega) (by omega)
  rw [Int.add_mul, Int.one_mul] at hmul
  unfold blockIndex
  omega

/-- Two pixels of a block have different bytes of it. -/
theorem blockIndex_injOn :
    Set.InjOn (blockIndex posX posY w) {q | InBlock posX posY w h q.1 q.2} := by
  intro q hq q' hq' heq
  rcases Int.lt_trichotomy q.2 q'.2 with hlt | hrow | hlt
  · exact absurd heq (Int.ne_of_lt (blockIndex_lt hq hq' hlt))
  · unfold blockIndex at heq
    rw [hrow] at heq
    exact Prod.ext (by omega) hrow
  · exact absurd heq.symm (Int.ne_of_lt (blockIndex_lt hq' hq hlt))

end Rectangles

/-! ### The two loops -/

section Loops

variable {σ : Type*} {draw : ℤ → ℤ → ℤ → σ → σ} {posX posY x y p xLeft : ℤ} {n m w h : ℕ} {d : σ}

theorem blockRow_snd (draw : ℤ → ℤ → ℤ → σ → σ) (hp : uint32 p = p) :
    (blockRow draw y n x p d).2 = (x + n, uint32 (p + n)) := by
  induction n generalizing x p d with
  | zero => simp [blockRow, hp]
  | succ n ih =>
    rw [blockRow, ih (by simp [uint32])]
    rw [uint32_uint32_add]
    exact Prod.ext (by omega) (congrArg uint32 (by omega))

theorem blockRow_fst (draw : ℤ → ℤ → ℤ → σ → σ) (hp : p = blockIndex posX posY w (x, y))
    (hp0 : 0 ≤ p) (hend : p + n ≤ 2 ^ 32) : (blockRow draw y n x p d).1 =
      (rowPixels y n x).foldl (fun d q => draw q.1 q.2 (blockIndex posX posY w q) d) d := by
  induction n generalizing x p d with
  | zero => rfl
  | succ n ih =>
    rw [blockRow, rowPixels, List.foldl_cons, ← hp]
    cases n with
    | zero => rfl
    | succ n =>
      -- the index wraps around behind the last pixel only
      have hnext : uint32 (p + 1) = p + 1 := uint32_of_range (by omega) (by omega)
      rw [hnext]
      refine ih ?_ (by omega) (by omega)
      rw [hp]
      simp only [blockIndex]
      omega

theorem blockRows_eq (draw : ℤ → ℤ → ℤ → σ → σ) (hn : 0 < n) (hleft : posX ≤ x)
    (hright : x + n ≤ posX + w) (htop : posY ≤ y) (hbottom : y + m ≤ posY + h)
    (h32 : w * h ≤ 2 ^ 32) (hp : p = uint32 (blockIndex posX posY w (x, y))) :
    blockRows draw (int32 (w - n)) n m x y p d =
      (rectPixels n x m y).foldl (fun d q => draw q.1 q.2 (blockIndex posX posY w q) d) d := by
  induction m generalizing y p d with
  | zero => rfl
  | succ m ih =>
    have hsize : ((w : ℤ) * h) ≤ 2 ^ 32 := by exact_mod_cast h32
    obtain ⟨hidx, hend⟩ : 0 ≤ blockIndex posX posY w (x, y) ∧
        blockIndex posX posY w (x, y) + n ≤ w * h :=
      index_bounds (by omega) (by omega) (by omega) (by omega)
    have hp' : p = blockIndex posX posY w (x, y) := by
      rw [hp, uint32_of_range hidx (by omega)]
    have hrow := blockRow_fst draw hp' (hp'.symm ▸ hidx) (by omega) (n := n) (d := d)
    have hsnd := blockRow_snd draw (n := n) (x := x) (y := y) (d := d)
      (show uint32 p = p by rw [hp', uint32_of_range hidx (by omega)])
    have hrows : blockRows draw (int32 (w - n)) n (m + 1) x y p d =
        blockRows draw (int32 (w - n)) n m ((blockRow draw y n x p d).2.1 - n) (y + 1)
          (uint32 ((blockRow draw y n x p d).2.2 + int32 (w - n)))
          (blockRow draw y n x p d).1 := rfl
    -- `x_right` columns and the bytes that the source skips make up a row of the block
    have hnext : uint32 (uint32 (p + n) + int32 (w - n)) =
        uint32 (blockIndex posX posY w (x, y + 1)) := by
      rw [uint32_add_int32, uint32_uint32_add, hp']
      simp only [blockIndex]
      rw [show y + 1 - posY = y - posY + 1 by omega, Int.add_mul, Int.one_mul]
      congr 1
      omega
    rw [hrows, hsnd, Int.add_sub_cancel, hnext, hrow, rectPixels, List.foldl_append]
    exact ih (by omega) (by omega) rfl

section Hom

variable {τ : Type*} {g : σ → τ} {draw' : ℤ → ℤ → ℤ → τ → τ}

/-- A part of the state that `draw` changes by itself. -/
theorem blockRow_hom (hg : ∀ x y p d, g (draw x y p d) = draw' x y p (g d)) :
    (g (blockRow draw y n x p d).1, (blockRow draw y n x p d).2) =
      blockRow draw' y n x p (g d) := by
  induction n generalizing x p d with
  | zero => rfl
  | succ n ih => rw [blockRow, ih, blockRow, hg]

theorem blockRows_hom (hg : ∀ x y p d, g (draw x y p d) = draw' x y p (g d)) {xRight : ℤ} :
    g (blockRows draw xLeft xRight m x y p d) = blockRows draw' xLeft xRight m x y p (g d) := by
  induction m generalizing x y p d with
  | zero => rfl
  | succ m ih =>
    rw [blockRows, blockRows, ← blockRow_hom hg]
    exact ih

theorem forBlock_hom (hg : ∀ x y p d, g (draw x y p d) = draw' x y p (g d)) {showX showY : ℤ} :
    g (forBlock showX showY posX posY w h draw d) =
      forBlock showX showY posX posY w h draw' (g d) := by
  unfold forBlock
  by_cases hoff : OffScreen showX showY posX posY w h
  · rw [if_pos hoff, if_pos hoff]
  · rw [if_neg hoff, if_neg hoff]
    exact blockRows_hom hg

end Hom

/-- Without columns nothing is done. -/
theorem blockRows_empty {xRight : ℤ} (h : xRight ≤ 0) :
    blockRows draw xLeft xRight m x y p d = d := by
  induction m generalizing x y p with
  | zero => rfl
  | succ m ih =>
    have hnone : xRight.toNat = 0 := Int.toNat_of_nonpos h
    rw [blockRows, hnone]
    exact ih

end Loops

/-! ### The whole block -/

/-- The two clipping limits of one dimension, in front of the end of the screen. -/
theorem clip_limits {pos screen lo hi : ℤ} {dim : ℕ} (hfit : screen - pos < 2 ^ 31)
    (hin : pos < screen)
    (hlo : (if -pos < 0 then 0 else -pos) = lo)
    (hhi : (if uint32 (screen - pos) > dim then int32 dim else screen - pos) = hi) :
    lo = max 0 (-pos) ∧ hi = min (screen - pos) dim := by
  have hrange : uint32 (screen - pos) = screen - pos := uint32_of_range (by omega) (by omega)
  rw [hrange] at hhi
  constructor
  · split_ifs at hlo <;> omega
  · split_ifs at hhi with hclip
    · have hdim : int32 dim = dim := int32_of_range (by omega) (by omega)
      omega
    · omega

/-- The pixels that a clipped side of a block covers. -/
theorem clip_range {pos screen lo hi : ℤ} {dim n : ℕ} (hlo : lo = max 0 (-pos))
    (hhi : hi = min (screen - pos) dim) (hn : hi - lo = n) :
    pos + lo = max pos 0 ∧ pos + lo + n = min screen (pos + dim) := by
  constructor <;> omega

/-- **What is done with a block**: it is clipped to the screen, and each of its pixels there is
visited once. -/
theorem forBlock_eq {σ : Type*} (draw : ℤ → ℤ → ℤ → σ → σ) {posX posY : ℤ} {w h : ℕ}
    (hx : scrollXDim - posX < 2 ^ 31) (hy : scrollYDim - posY < 2 ^ 31) (hsize : w * h ≤ 2 ^ 32)
    (hon : ¬ OffScreen 0 0 posX posY w h) (d : σ) : ∃ l : List (ℤ × ℤ), l.Nodup ∧
      (∀ q, q ∈ l ↔ InBlock posX posY w h q.1 q.2) ∧ forBlock 0 0 posX posY w h draw d =
        l.foldl (fun d q => draw q.1 q.2 (blockIndex posX posY w q) d) d := by
  have hin : ∀ x y, InBlock posX posY w h x y ↔ max posX 0 ≤ x ∧ x < min 320 (posX + w) ∧
      max posY 0 ≤ y ∧ y < min 200 (posY + h) := fun x y => by
    simp only [InBlock, OnScreen, scrollXDim, scrollYDim, Int.max_le, Int.lt_min]
    tauto
  have hnone : ∀ {e : σ}, (∀ x y, ¬ InBlock posX posY w h x y) → e = d →
      ∃ l : List (ℤ × ℤ), l.Nodup ∧ (∀ q, q ∈ l ↔ InBlock posX posY w h q.1 q.2) ∧
        e = l.foldl (fun d q => draw q.1 q.2 (blockIndex posX posY w q) d) d :=
    fun hempty he => ⟨[], List.nodup_nil, fun q => iff_of_false List.not_mem_nil (hempty _ _), he⟩
  unfold forBlock
  rw [if_neg hon]
  simp only [OffScreen, not_or, Int.not_le, ge_iff_le, Int.zero_add] at hon
  obtain ⟨-, hposX, -, hposY⟩ := hon
  simp only [Int.zero_sub, Int.zero_add]
  generalize hxl : (if -posX < 0 then 0 else -posX) = xl
  generalize hxr : (if uint32 (scrollXDim - posX) > w then int32 w else scrollXDim - posX) = xr
  generalize hyt : (if -posY < 0 then 0 else -posY) = yt
  generalize hyb : (if uint32 (scrollYDim - posY) > h then int32 h else scrollYDim - posY) = yb
  obtain ⟨hxl, hxr⟩ := clip_limits hx hposX hxl hxr
  obtain ⟨hyt, hyb⟩ := clip_limits hy hposY hyt hyb
  simp only [scrollXDim, scrollYDim] at hxr hyb hposX hposY
  by_cases hcolumns : xr - xl ≤ 0
  · -- off the left side
    exact hnone (fun x y hxy => by rw [hin] at hxy; omega) (blockRows_empty hcolumns)
  · by_cases hrows : yb - yt ≤ 0
    · -- off the top
      rw [Int.toNat_of_nonpos hrows]
      exact hnone (fun x y hxy => by rw [hin] at hxy; omega) rfl
    · obtain ⟨n, hn⟩ := Int.eq_ofNat_of_zero_le (a := xr - xl) (by omega)
      obtain ⟨m, hm⟩ := Int.eq_ofNat_of_zero_le (a := yb - yt) (by omega)
      rw [hn, hm]
      refine ⟨rectPixels n (posX + xl) m (posY + yt), nodup_rectPixels, fun q => ?_,
        blockRows_eq draw (h := h) (by omega) (by omega) (by omega) (by omega) (by omega) hsize ?_⟩
      · obtain ⟨hleft, hright⟩ := clip_range hxl hxr hn
        obtain ⟨htop, hbottom⟩ := clip_range hyt hyb hm
        rw [mem_rectPixels, hin, hright, hleft, hbottom, htop]
      · rw [uint32_uint32_add]
        simp only [blockIndex]
        rw [show posY + yt - posY = yt by omega]
        congr 1
        omega

end KTeamOS
