import KTeamOS.Gui.Click
import KTeamOS.Buffer.Overlay

/-!
# Painting

`draw_paint` fills the square of `paint_size` columns and rows that ends in front of the brush.  The
coordinates of the brush are unsigned, so that a column left of the window is a large number and not
a negative one; what the clipping leaves out is the column 0 and the row 0.  `draw_mouse` lets the
brush come as near as three columns to the left edge, where a larger square reaches into the row
above.

## Main definitions

* `drawPaint` : the function, on the memory from `paint_window` on.
* `BrushInside size x y` : with the brush at `(x, y)` only pixels near it change.

## Main results

* `brushInside_iff` : where `draw_mouse` paints, this holds exactly if the brush is at least
  `paint_size` columns from the left edge, and not behind the right or the lower edge.
-/

namespace KTeamOS

/-- `draw_paint`; the memory is indexed by the distance from `paint_window`, modulo `2 ^ 32`. -/
def drawPaint (paintSize : ℕ) (paintColor : UInt8) (x y : ℤ) (mem : ℤ → UInt8) : ℤ → UInt8 :=
  (List.range paintSize).foldl (fun mem (i : ℕ) =>
    (List.range paintSize).foldl (fun mem (j : ℕ) =>
      if uint32 (x + j - paintSize) > 0 ∧ uint32 (y + i - paintSize) > 0 then
        Function.update mem
          (uint32 (uint32 (x + j - paintSize) + uint32 (y + i - paintSize) * 320)) paintColor
      else mem) mem) mem

/-- The byte `a` is a pixel of the paint window whose column and row are within `size` of the
brush. -/
def NearBrush (size : ℕ) (x y a : ℤ) : Prop :=
  ∃ c r : ℤ, (0 ≤ c ∧ c < 320) ∧ (0 ≤ r ∧ r < 182) ∧ a = c + r * 320 ∧
    (x - size ≤ c ∧ c ≤ x + size) ∧ (y - size ≤ r ∧ r ≤ y + size)

/-- Painting at `(x, y)` changes only such pixels, whatever the memory holds. -/
def BrushInside (size : ℕ) (x y : ℤ) : Prop := ∀ (color : UInt8) (mem : ℤ → UInt8) (a : ℤ),
  drawPaint size color (uint32 x) (uint32 y) mem a ≠ mem a → NearBrush size x y a

/-- In its turn `(i, j)` the function writes to the byte `a`. -/
def PaintedAt (size : ℕ) (x y a : ℤ) (i j : ℕ) : Prop :=
  (uint32 (x + j - size) > 0 ∧ uint32 (y + i - size) > 0) ∧
    uint32 (uint32 (x + j - size) + uint32 (y + i - size) * 320) = a

instance {size : ℕ} {x y a : ℤ} {i : ℕ} : DecidablePred (PaintedAt size x y a i) :=
  fun _ => inferInstanceAs (Decidable (_ ∧ _))

section

variable {size : ℕ} {color : UInt8} {x y a : ℤ} {mem : ℤ → UInt8}

theorem drawPaint_apply : drawPaint size color (uint32 x) (uint32 y) mem a =
    if ∃ i ∈ List.range size, ∃ j ∈ List.range size, PaintedAt size x y a i j then color
    else mem a := by
  have huint : ∀ {z : ℤ} {k : ℕ}, uint32 (uint32 z + k - size) = uint32 (z + k - size) := by
    intro z k
    rw [Int.add_sub_assoc, uint32_uint32_add, Int.add_sub_assoc]
  unfold drawPaint
  refine foldl_apply_ite (P := fun i => ∃ j ∈ List.range size, PaintedAt size x y a i j)
    (fun mem i _ => ?_) mem
  refine foldl_apply_ite (P := fun j => PaintedAt size x y a i j) (fun mem j _ => ?_) mem
  rw [huint, huint]
  by_cases hpainted : PaintedAt size x y a i j
  · rw [if_pos hpainted, if_pos hpainted.1, hpainted.2]
    exact Function.update_self ..
  · rw [if_neg hpainted]
    split_ifs with hclip
    · exact Function.update_of_ne (fun h => hpainted ⟨hclip, h.symm⟩) ..
    · rfl

/-- What is painted is a change of some memory. -/
theorem brushInside_iff_paintedAt : BrushInside size x y ↔
    ∀ i < size, ∀ j < size, ∀ a, PaintedAt size x y a i j → NearBrush size x y a := by
  constructor
  · intro h i hi j hj a hpainted
    refine h 1 (fun _ => 0) a ?_
    rw [drawPaint_apply, if_pos ⟨i, List.mem_range.2 hi, j, List.mem_range.2 hj, hpainted⟩]
    decide
  · intro h color mem a hchanged
    rw [drawPaint_apply] at hchanged
    split_ifs at hchanged with hpainted
    · obtain ⟨i, hi, j, hj, hpainted⟩ := hpainted
      exact h i (List.mem_range.1 hi) j (List.mem_range.1 hj) a hpainted
    · exact absurd rfl hchanged

/-- Inside of the limits the coordinates do not wrap around, and name a pixel. -/
theorem brushInside_of_limits (hx : size ≤ x) (hx' : x ≤ 320) (hy : size ≤ y) (hy' : y ≤ 182) :
    BrushInside size x y := by
  refine brushInside_iff_paintedAt.2 fun i hi j hj a hpainted => ?_
  obtain ⟨-, hplace⟩ := hpainted
  rw [uint32_of_range (a := x + j - size) (by omega) (by omega),
    uint32_of_range (a := y + i - size) (by omega) (by omega),
    uint32_of_range (by omega) (by omega)] at hplace
  exact ⟨x + j - size, y + i - size, by omega, by omega, hplace.symm, by omega, by omega⟩

/-- Outside of them one corner of the square is not near the brush. -/
theorem limits_of_brushInside (h : BrushInside size x y) (hsize : 1 ≤ size) (hsize' : size ≤ 6)
    (hx : 3 ≤ x) (hx' : x < 2 ^ 32) (hy : 11 ≤ y) (hy' : y < 2 ^ 32) :
    size ≤ x ∧ x ≤ 320 ∧ y ≤ 182 := by
  -- a pixel of the last row of the square
  have hpixel : ∀ j : ℕ, j < size → uint32 (x + j - size) > 0 → NearBrush size x y
      (uint32 (uint32 (x + j - size) + uint32 (y - 1) * 320)) := by
    intro j hj hcolumn
    have hrow : y + (size - 1 : ℕ) - size = y - 1 := by omega
    refine brushInside_iff_paintedAt.1 h (size - 1) (by omega) j hj _ ⟨⟨hcolumn, ?_⟩, ?_⟩
    · rw [hrow, uint32_of_range (by omega) (by omega)]
      omega
    · rw [hrow]
  rw [uint32_of_range (a := y - 1) (by omega) (by omega)] at hpixel
  by_cases hleft : size ≤ x
  · -- the last column
    have hcolumn : x + (size - 1 : ℕ) - size = x - 1 := by omega
    have hnear := hpixel (size - 1) (by omega)
    rw [hcolumn, uint32_of_range (a := x - 1) (by omega) (by omega)] at hnear
    obtain ⟨c, r, hc, hr, hplace, hcx, hry⟩ := hnear (by omega)
    rw [uint32_of_range (by omega) (by omega)] at hplace
    omega
  · -- the first column is in the row above
    have hnear := hpixel 0 (by omega)
    rw [uint32_of_neg (by omega) (by omega)] at hnear
    obtain ⟨c, r, hc, hr, hplace, hcx, hry⟩ := hnear (by omega)
    have hwrap : uint32 (x + (0 : ℕ) - size + 2 ^ 32 + (y - 1) * 320) =
        x - size + (y - 1) * 320 := by
      unfold uint32
      omega
    rw [hwrap] at hplace
    omega

end

/-- **Where the brush stays inside.**  The paint window is anywhere, and the pointer where
`draw_mouse` paints. -/
theorem brushInside_iff (s : Gui) (m : Mouse) (a : Img) (hpaints : s.paints m a = true) (size : ℕ)
    (hsize : 1 ≤ size) (hsize' : size ≤ 6) :
    BrushInside size (m.x - s.place.startX a) (m.row - s.place.startY a) ↔
      size ≤ m.x - s.place.startX a ∧ m.x - s.place.startX a ≤ 320 ∧
        m.row - s.place.startY a ≤ 182 := by
  obtain ⟨-, hx, -, hy, -⟩ := of_decide_eq_true hpaints
  simp only [Placement.rect, Rect.area] at hx hy
  have hxMem := s.place.startX_mem a
  have hyMem := s.place.startY_mem a
  have hmx := m.x_mem
  have hmy := m.y_mem
  unfold InInt32 at hxMem hyMem
  constructor
  · intro h
    exact limits_of_brushInside h hsize hsize' (by omega) (by omega) (by omega)
      (by rw [Mouse.row]; omega)
  · rintro ⟨hleft, hright, hbottom⟩
    exact brushInside_of_limits hleft hright (by omega) hbottom

/-- The pointer where `init_modex` leaves it, above the window. -/
theorem brushInside_iff_boot :
    BrushInside 3 (Gui.boot.mouse.x - Gui.boot.place.startX .paintWin)
        (Gui.boot.mouse.row - Gui.boot.place.startY .paintWin) ↔
      (3 : ℕ) ≤ Gui.boot.mouse.x - Gui.boot.place.startX .paintWin ∧
        Gui.boot.mouse.x - Gui.boot.place.startX .paintWin ≤ 320 ∧
        Gui.boot.mouse.row - Gui.boot.place.startY .paintWin ≤ 182 :=
  brushInside_iff .boot Gui.boot.mouse .paintWin (by decide) 3 (by decide) (by decide)

/-- At the left edge of the window, with the largest brush, it does not. -/
theorem not_brushInside : ¬ ∀ (s : Gui) (m : Mouse) (a : Img), s.paints m a = true →
    ∀ size : ℕ, 1 ≤ size → size ≤ 6 →
      BrushInside size (m.x - s.place.startX a) (m.row - s.place.startY a) := by
  intro h
  have hinside := h .boot ⟨3, 100, by decide, by decide⟩ .paintWin (by decide) 6 (by decide)
    (by decide)
  exact absurd (limits_of_brushInside hinside (by decide) (by decide) (by decide) (by decide)
    (by decide) (by decide)).1 (by decide)

end KTeamOS
