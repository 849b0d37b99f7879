import Mathlib.Data.List.Basic
import Mathlib.Logic.Function.Iterate
import KTeamOS.Buffer.Overlay
import KTeamOS.Gui.Font
import KTeamOS.Text.CString
import KTeamOS.Word.Signed

/-!
# Text in a block

The functions `create_block_text` and those like it in `text.c` draw the characters of a string
side by side, bit by bit.  They differ in the width of the block, in the colour, in the type of the
characters, and one of them draws everything twice as large.

## Main definitions

* `TextStyle` : what they differ in.
* `Dot`, `dots` : the turns of their innermost loop, in order.
* `createBlockText`, `createBlockTextDouble` and so on : the functions.

## Main results

* `TextStyle.draw_pixel` : a pixel shows its bit of its character.
* `createBlockTextDouble_iff` : the large text is half a pixel ahead of the small one.
* `doubles_iff` : so it is the small one enlarged only if nothing is drawn at all.
-/

namespace KTeamOS

/-- `TEXT_BLK_X_DIM` -/
abbrev textBlkXDim : ℕ := 96

/-- The value of a `char`. -/
def charValue (c : UInt8) : ℤ := if c < 0x80 then c.toNat else c.toNat - 256

/-- What the functions that draw text differ in. -/
structure TextStyle where
  pixelsPerRow : ℕ
  /-- What is written at a pixel of a character. -/
  color : UInt8
  /-- The size of a bit in pixels. -/
  zoom : ℕ
  /-- `(int)str[str_idx]` -/
  index : UInt8 → ℤ

/-- A turn of the innermost loop. -/
structure Dot where
  /-- The indices of `font_data`. -/
  fontIdx : ℤ
  fontRow : ℕ
  mask : UInt8
  /-- The index of `buff`. -/
  pixel : ℕ

namespace TextStyle

/-- The loop over `bit_idx`, for `n` more turns. -/
def bitLoop (st : TextStyle) (fontIdx : ℤ) (strIdx rowIdx : ℕ) :
    (n : ℕ) → (bitIdx : ℕ) → (mask : UInt8) → List Dot
  | 0, _, _ => []
  | n + 1, bitIdx, mask =>
    let colIdx := fontWidth * st.zoom * strIdx + bitIdx
    ⟨fontIdx, rowIdx / st.zoom, mask, rowIdx * st.pixelsPerRow + colIdx⟩ ::
      bitLoop st fontIdx strIdx rowIdx n (bitIdx + 1)
        (if bitIdx % st.zoom = 0 then mask >>> 1 else mask)

/-- The loop over `row_idx`. -/
def rowLoop (st : TextStyle) (fontIdx : ℤ) (strIdx : ℕ) : List Dot :=
  (List.range (fontHeight * st.zoom)).flatMap fun rowIdx =>
    st.bitLoop fontIdx strIdx rowIdx (fontWidth * st.zoom) 0 0x80

/-- The loop over `str_idx`. -/
def dots (st : TextStyle) (str : CString) : List Dot :=
  (List.range str.chars.length).flatMap fun strIdx =>
    st.rowLoop (st.index (str.mem strIdx)) strIdx

/-- What a turn writes. -/
def value (st : TextStyle) (font : FontMemory) (d : Dot) : UInt8 :=
  if d.mask &&& font.row d.fontIdx d.fontRow ≠ 0 then st.color else 0

/-- `buff` afterwards. -/
def draw (st : TextStyle) (font : FontMemory) (str : CString) (buff : ℕ → UInt8) : ℕ → UInt8 :=
  (st.dots str).foldl (fun buff d => Function.update buff d.pixel (st.value font d)) buff

end TextStyle

/-- The style of `create_block_text`. -/
def textStyle : TextStyle := ⟨textBlkXDim, 0x0F, 1, fun c => c.toNat⟩

/-- The style of `create_block_text_timer`. -/
def timerStyle : TextStyle := ⟨40, 0x40, 1, charValue⟩

/-- The style of `create_block_text_double`, twice as wide and twice as high. -/
def doubleStyle : TextStyle := ⟨textBlkXDim * 2, 0x40, 2, charValue⟩

@[simp] theorem timerStyle_zoom : timerStyle.zoom = 1 := rfl

@[simp] theorem timerStyle_index : timerStyle.index = charValue := rfl

section

variable (font : FontMemory) (str : CString) (buff : ℕ → UInt8)

/-- `create_block_text` -/
def createBlockText : ℕ → UInt8 := textStyle.draw font str buff

/-- `create_block_text_timer` -/
def createBlockTextTimer : ℕ → UInt8 := timerStyle.draw font str buff

/-- `create_block_text_double` -/
def createBlockTextDouble : ℕ → UInt8 := doubleStyle.draw font str buff

end

namespace TextStyle

/-! ### The turns -/

/-- The mask in the column `bitIdx` of a character. -/
def maskAt (zoom bitIdx : ℕ) : UInt8 :=
  (fun mask : UInt8 => mask >>> 1)^[(bitIdx + zoom - 1) / zoom] 0x80

/-- The turn for a bit of a row of a character. -/
def dot (st : TextStyle) (str : CString) (q : ℕ × ℕ × ℕ) : Dot where
  fontIdx := st.index (str.mem q.1)
  fontRow := q.2.1 / st.zoom
  mask := maskAt st.zoom q.2.2
  pixel := q.2.1 * st.pixelsPerRow + (fontWidth * st.zoom * q.1 + q.2.2)

variable {st : TextStyle} {str : CString} {font : FontMemory} {buff : ℕ → UInt8} {d : Dot}
  {q : ℕ × ℕ × ℕ} {z k n r s : ℕ} {c : ℤ}

@[simp] theorem dot_fontIdx : (st.dot str q).fontIdx = st.index (str.mem q.1) := rfl

@[simp] theorem dot_fontRow : (st.dot str q).fontRow = q.2.1 / st.zoom := rfl

/-- The mask is shifted behind the first column of every bit. -/
theorem maskAt_succ (hz : 0 < z) : maskAt z (k + 1) =
    if k % z = 0 then maskAt z k >>> 1 else maskAt z k := by
  have hdiv : (k + 1 + z - 1) / z = (k + z - 1) / z + if k % z = 0 then 1 else 0 := by
    rw [show k + 1 + z - 1 = (k + z - 1) + 1 by omega, Nat.succ_div]
    have hdvd : z ∣ k + z - 1 + 1 ↔ k % z = 0 := by
      rw [show k + z - 1 + 1 = k + z by omega, Nat.dvd_add_self_right, Nat.dvd_iff_mod_eq_zero]
    exact congrArg _ (if_congr hdvd rfl rfl)
  unfold maskAt
  rw [hdiv]
  split_ifs
  · rw [Function.iterate_succ_apply']
  · rw [Nat.add_zero]

theorem mem_bitLoop (hz : 0 < st.zoom) : d ∈ st.bitLoop c s r n k (maskAt st.zoom k) ↔
    ∃ j, k ≤ j ∧ j < k + n ∧ d = ⟨c, r / st.zoom, maskAt st.zoom j,
      r * st.pixelsPerRow + (fontWidth * st.zoom * s + j)⟩ := by
  induction n generalizing k with
  | zero =>
    refine iff_of_false List.not_mem_nil ?_
    rintro ⟨j, hj, hj', -⟩
    omega
  | succ n ih =>
    rw [bitLoop, List.mem_cons, ← maskAt_succ hz, ih]
    constructor
    · rintro (rfl | ⟨j, hj, hj', rfl⟩)
      · exact ⟨k, Nat.le_refl k, by omega, rfl⟩
      · exact ⟨j, by omega, by omega, rfl⟩
    · rintro ⟨j, hj, hj', rfl⟩
      rcases Nat.eq_or_lt_of_le hj with rfl | hlt
      · exact .inl rfl
      · exact .inr ⟨j, hlt, by omega, rfl⟩

/-- The bits of the characters of a string. -/
def bits (st : TextStyle) (str : CString) : Set (ℕ × ℕ × ℕ) :=
  {q | q.1 < str.chars.length ∧ q.2.1 < fontHeight * st.zoom ∧ q.2.2 < fontWidth * st.zoom}

theorem mem_dots (hz : 0 < st.zoom) :
    d ∈ st.dots str ↔ ∃ q ∈ st.bits str, d = st.dot str q := by
  have hmask : maskAt st.zoom 0 = 0x80 := by
    unfold maskAt
    rw [Nat.div_eq_of_lt (by omega)]
    rfl
  simp only [dots, rowLoop, List.mem_flatMap, List.mem_range, ← hmask, mem_bitLoop hz]
  constructor
  · rintro ⟨s, hs, r, hr, j, -, hj, rfl⟩
    rw [Nat.zero_add] at hj
    exact ⟨(s, r, j), ⟨hs, hr, hj⟩, rfl⟩
  · rintro ⟨⟨s, r, j⟩, ⟨hs, hr, hj⟩, rfl⟩
    exact ⟨s, hs, r, hr, j, Nat.zero_le j, (Nat.zero_add _).symm ▸ hj, rfl⟩

/-! ### The pixels -/

/-- The characters fit next to each other into a row of the block. -/
def Fits (st : TextStyle) (str : CString) : Prop :=
  0 < st.zoom ∧ fontWidth * st.zoom * str.chars.length ≤ st.pixelsPerRow

/-- The column of a bit. -/
theorem column_lt (hfit : st.Fits str) (hq : q ∈ st.bits str) :
    fontWidth * st.zoom * q.1 + q.2.2 < st.pixelsPerRow := by
  obtain ⟨hs, -, hj⟩ := hq
  calc fontWidth * st.zoom * q.1 + q.2.2 < fontWidth * st.zoom * (q.1 + 1) := by
        rw [Nat.mul_succ]
        exact Nat.add_lt_add_left hj _
    _ ≤ fontWidth * st.zoom * str.chars.length := Nat.mul_le_mul_left _ hs
    _ ≤ st.pixelsPerRow := hfit.2

/-- No pixel is written twice. -/
theorem pixel_injOn (hfit : st.Fits str) :
    Set.InjOn (fun q => (st.dot str q).pixel) (st.bits str) := by
  rintro ⟨s, r, j⟩ hq ⟨s', r', j'⟩ hq' heq
  have hcol := column_lt hfit hq
  have hcol' := column_lt hfit hq'
  obtain ⟨-, -, hj⟩ := hq
  obtain ⟨-, -, hj'⟩ := hq'
  simp only [dot] at *
  have hrow : r = r' := by
    have hdiv := congrArg (· / st.pixelsPerRow) heq
    simp only [Nat.mul_comm _ st.pixelsPerRow] at hdiv
    rwa [Nat.mul_add_div (by omega), Nat.mul_add_div (by omega), Nat.div_eq_of_lt hcol,
      Nat.div_eq_of_lt hcol'] at hdiv
  subst hrow
  have hcols : fontWidth * st.zoom * s + j = fontWidth * st.zoom * s' + j' :=
    Nat.add_left_cancel heq
  have hchar : s = s' := by
    have hdiv := congrArg (· / (fontWidth * st.zoom)) hcols
    rwa [Nat.mul_add_div (by omega), Nat.mul_add_div (by omega), Nat.div_eq_of_lt hj,
      Nat.div_eq_of_lt hj'] at hdiv
  subst hchar
  rw [Nat.add_left_cancel hcols]

theorem draw_overlay (hfit : st.Fits str) :
    Overlay Dot.pixel {d | d ∈ st.dots str} (st.value font) buff (st.draw font str buff) := by
  have hinj : Set.InjOn Dot.pixel {d | d ∈ st.dots str} := by
    intro d hd d' hd' heq
    obtain ⟨q, hq, rfl⟩ := (mem_dots hfit.1).1 hd
    obtain ⟨q', hq', rfl⟩ := (mem_dots hfit.1).1 hd'
    rw [pixel_injOn hfit hq hq' heq]
  have hloop := Overlay.foldl (g := id) (I := fun _ => True) (T := fun d => {d}) (l := st.dots str)
    (s := buff) (f := fun buff d => Function.update buff d.pixel (st.value font d)) hinj
    (fun d hd => Set.singleton_subset_iff.2 hd) (fun _ d _ _ => ⟨trivial, Overlay.update d⟩) trivial
  refine hloop.2.congr (fun d => ⟨fun hd => ⟨d, hd, rfl⟩, ?_⟩) fun _ _ => rfl
  rintro ⟨d', hd', rfl⟩
  exact hd'

/-- **The pixels.**  A pixel of the text shows its bit of its character. -/
theorem draw_pixel {row col : ℕ} (hfit : st.Fits str) (hr : row < fontHeight * st.zoom)
    (hc : col < fontWidth * st.zoom * str.chars.length) :
    st.draw font str buff (row * st.pixelsPerRow + col) = st.value font
      (st.dot str (col / (fontWidth * st.zoom), row, col % (fontWidth * st.zoom))) := by
  have hz : 0 < fontWidth * st.zoom := Nat.mul_pos (by decide) hfit.1
  have hq : (col / (fontWidth * st.zoom), row, col % (fontWidth * st.zoom)) ∈ st.bits str :=
    ⟨Nat.div_lt_of_lt_mul hc, hr, Nat.mod_lt _ hz⟩
  have hover : Overlay Dot.pixel {d | d ∈ st.dots str} (st.value font) buff
    (st.draw font str buff) := draw_overlay hfit
  rw [← hover.shown _ ((mem_dots hfit.1).2 ⟨_, hq, rfl⟩)]
  exact congrArg _ (congrArg _ (Nat.div_add_mod _ _).symm)

theorem value_ne_zero (hcolor : st.color ≠ 0) :
    st.value font d ≠ 0 ↔ d.mask &&& font.row d.fontIdx d.fontRow ≠ 0 := by
  unfold value
  split_ifs with h
  · exact iff_of_true hcolor h
  · exact iff_of_false (fun h0 => h0 rfl) h

theorem draw_ne_zero {row col : ℕ} (hfit : st.Fits str) (hcolor : st.color ≠ 0)
    (hr : row < fontHeight * st.zoom) (hc : col < fontWidth * st.zoom * str.chars.length) :
    st.draw font str buff (row * st.pixelsPerRow + col) ≠ 0 ↔
      maskAt st.zoom (col % (fontWidth * st.zoom)) &&&
        font.row (st.index (str.mem (col / (fontWidth * st.zoom)))) (row / st.zoom) ≠ 0 := by
  rw [draw_pixel hfit hr hc, value_ne_zero hcolor]
  exact Iff.rfl

end TextStyle

/-! ### Enlarging -/

/-- Every pixel of the small text is four pixels of the large one, `b` and `b'` being what lies in
the two blocks before. -/
def Doubles (font : FontMemory) (str : CString) (b b' : ℕ → UInt8) : Prop :=
  ∀ row < fontHeight * 2, ∀ col < fontWidth * 2 * str.chars.length,
    (createBlockTextDouble font str b' (row * (textBlkXDim * 2) + col) ≠ 0 ↔
      createBlockText font str b (row / 2 * textBlkXDim + col / 2) ≠ 0)

section Doubles

open TextStyle

variable {font : FontMemory} {str : CString} {b b' : ℕ → UInt8} {row col : ℕ}

theorem createBlockText_ne_zero (hlen : str.chars.length ≤ 12) (hr : row < fontHeight)
    (hc : col < fontWidth * str.chars.length) :
    createBlockText font str b (row * textBlkXDim + col) ≠ 0 ↔
      maskAt 1 (col % fontWidth) &&& glyphRow (str.mem (col / fontWidth)).toNat row ≠ 0 := by
  have hfit : textStyle.Fits str := ⟨Nat.one_pos, Nat.mul_le_mul_left 8 hlen⟩
  refine (draw_ne_zero hfit (by decide) hr hc).trans ?_
  change maskAt 1 (col % fontWidth) &&&
    font.row (str.mem (col / fontWidth)).toNat (row / 1) ≠ 0 ↔ _
  rw [Nat.div_one, font.row_eq _ (UInt8.toNat_lt _) _ hr]

theorem createBlockTextDouble_ne_zero (hlen : str.chars.length ≤ 12)
    (hcode : ∀ c ∈ str.chars, c < 0x80) (hr : row < fontHeight * 2)
    (hc : col < fontWidth * 2 * str.chars.length) :
    createBlockTextDouble font str b (row * (textBlkXDim * 2) + col) ≠ 0 ↔
      maskAt 2 (col % (fontWidth * 2)) &&&
        glyphRow (str.mem (col / (fontWidth * 2))).toNat (row / 2) ≠ 0 := by
  have hfit : doubleStyle.Fits str := ⟨Nat.two_pos, Nat.mul_le_mul_left 16 hlen⟩
  -- the characters are not negative
  have hchar : charValue (str.mem (col / (fontWidth * 2))) =
      (str.mem (col / (fontWidth * 2))).toNat :=
    if_pos (hcode _ (CString.mem_mem_chars (Nat.div_lt_of_lt_mul hc)))
  refine (draw_ne_zero hfit (by decide) hr hc).trans ?_
  change maskAt 2 (col % (fontWidth * 2)) &&&
    font.row (charValue (str.mem (col / (fontWidth * 2)))) (row / 2) ≠ 0 ↔ _
  rw [hchar, font.row_eq _ (UInt8.toNat_lt _) _ (Nat.div_lt_of_lt_mul (by omega))]

/-- The large mask has been shifted once more than half of its columns ask for. -/
theorem maskAt_two : ∀ k < fontWidth * 2,
    maskAt 2 k = if k = 15 then 0 else maskAt 1 ((k + 1) / 2) := by
  decide +kernel

/-- **What the large text shows.**  A column shows the pixel of the small text that is half a pixel
further to the right, and the last column of a character nothing. -/
theorem createBlockTextDouble_iff (hlen : str.chars.length ≤ 12)
    (hcode : ∀ c ∈ str.chars, c < 0x80) (hr : row < fontHeight * 2)
    (hc : col < fontWidth * 2 * str.chars.length) :
    createBlockTextDouble font str b' (row * (textBlkXDim * 2) + col) ≠ 0 ↔
      col % (fontWidth * 2) ≠ 15 ∧
        createBlockText font str b (row / 2 * textBlkXDim + (col + 1) / 2) ≠ 0 := by
  rw [createBlockTextDouble_ne_zero hlen hcode hr hc,
    maskAt_two _ (Nat.mod_lt _ (by decide))]
  change row < 32 at hr
  change col < 16 * str.chars.length at hc
  change (if col % 16 = 15 then (0 : UInt8) else maskAt 1 ((col % 16 + 1) / 2)) &&& _ ≠ 0 ↔
    col % 16 ≠ 15 ∧ _
  by_cases hlast : col % 16 = 15
  · rw [if_pos hlast, UInt8.zero_and]
    exact iff_of_false (fun h => h rfl) fun h => h.1 hlast
  · rw [if_neg hlast, and_iff_right hlast, createBlockText_ne_zero hlen
      (show row / 2 < 16 by omega) (show (col + 1) / 2 < 8 * str.chars.length by omega)]
    have hbit : (col + 1) / 2 % 8 = (col % 16 + 1) / 2 := by omega
    have hchar : (col + 1) / 2 / 8 = col / 16 := by omega
    change _ ↔ maskAt 1 ((col + 1) / 2 % 8) &&&
      glyphRow (str.mem ((col + 1) / 2 / 8)).toNat (row / 2) ≠ 0
    rw [hbit, hchar]
    exact Iff.rfl

/-- The pixel of the small text that belongs to a pixel of the large one. -/
theorem createBlockText_half (hlen : str.chars.length ≤ 12) (hr : row < fontHeight * 2)
    (hc : col < fontWidth * 2 * str.chars.length) :
    createBlockText font str b (row / 2 * textBlkXDim + col / 2) ≠ 0 ↔
      maskAt 1 (col % (fontWidth * 2) / 2) &&&
        glyphRow (str.mem (col / (fontWidth * 2))).toNat (row / 2) ≠ 0 := by
  change row < 32 at hr
  change col < 16 * str.chars.length at hc
  rw [createBlockText_ne_zero hlen (show row / 2 < 16 by omega)
    (show col / 2 < 8 * str.chars.length by omega)]
  have hbit : col / 2 % 8 = col % 16 / 2 := by omega
  have hchar : col / 2 / 8 = col / 16 := by omega
  change maskAt 1 (col / 2 % 8) &&& glyphRow (str.mem (col / 2 / 8)).toNat (row / 2) ≠ 0 ↔ _
  rw [hbit, hchar]
  exact Iff.rfl

/-- The mask of the large text is ahead by half a bit, so that only an empty row is enlarged. -/
theorem masks_agree_iff (g : UInt8) :
    (∀ k < fontWidth * 2, (maskAt 2 k &&& g ≠ 0 ↔ maskAt 1 (k / 2) &&& g ≠ 0)) ↔ g = 0 := by
  have hall : ∀ n < 256, ((∀ k < fontWidth * 2,
      (maskAt 2 k &&& UInt8.ofNat n ≠ 0 ↔ maskAt 1 (k / 2) &&& UInt8.ofNat n ≠ 0)) ↔
        UInt8.ofNat n = 0) := by
    decide +kernel
  have hg := hall g.toNat g.toNat_lt
  rwa [UInt8.ofNat_toNat] at hg

/-- **Enlarging.**  For a string of at most 12 characters of ASCII the large text is the small one
enlarged exactly if all of them are spaces. -/
theorem doubles_iff (font : FontMemory) (b b' : ℕ → UInt8) (hlen : str.chars.length ≤ 12)
    (hcode : ∀ c ∈ str.chars, c < 0x80) :
    Doubles font str b b' ↔ ∀ c ∈ str.chars, c = 0x20 := by
  have hglyph : ∀ c ∈ str.chars, c = 0x20 ↔ ∀ r < fontHeight, glyphRow c.toNat r = 0 := by
    intro c hc
    have hne : c.toNat ≠ 0 := by
      intro h0
      obtain rfl : c = 0 := UInt8.toNat_inj.1 h0
      exact str.zero_notMem hc
    rw [glyphRow_eq_zero_iff c.toNat (hcode c hc) hne]
    exact UInt8.toNat_inj.symm
  have hmem : ∀ col, col < fontWidth * 2 * str.chars.length →
      str.mem (col / (fontWidth * 2)) ∈ str.chars :=
    fun col hc => CString.mem_mem_chars (Nat.div_lt_of_lt_mul hc)
  constructor
  · intro h c hc
    refine (hglyph c hc).2 fun r hr => (masks_agree_iff _).1 fun k hk => ?_
    obtain ⟨i, hi, rfl⟩ := List.getElem_of_mem hc
    -- the column `k` of this character, in the first of the two rows for `r`
    have hcol : fontWidth * 2 * i + k < fontWidth * 2 * str.chars.length := by
      change k < 16 at hk
      change 16 * i + k < 16 * str.chars.length
      omega
    have hrow : 2 * r < fontHeight * 2 := by
      change r < 16 at hr
      change 2 * r < 32
      omega
    have hpixel := h (2 * r) hrow _ hcol
    rw [createBlockTextDouble_ne_zero hlen hcode hrow hcol,
      createBlockText_half hlen hrow hcol, Nat.mul_add_mod, Nat.mod_eq_of_lt hk,
      Nat.mul_add_div (by decide), Nat.div_eq_of_lt hk, Nat.add_zero, CString.mem_of_lt hi,
      Nat.mul_div_cancel_left r (by decide)] at hpixel
    exact hpixel
  · intro h row hr col hc
    have hempty : glyphRow (str.mem (col / (fontWidth * 2))).toNat (row / 2) = 0 :=
      (hglyph _ (hmem col hc)).1 (h _ (hmem col hc)) _ (Nat.div_lt_of_lt_mul (by omega))
    rw [createBlockTextDouble_ne_zero hlen hcode hr hc, createBlockText_half hlen hr hc, hempty]
    exact (masks_agree_iff 0).2 rfl _ (Nat.mod_lt _ (by decide))

/-- Two spaces are, and " K" is not. -/
theorem doubles_spaces :
    Doubles .zeros ⟨[0x20, 0x20], by decide +kernel⟩ (fun _ => 0) (fun _ => 0) ∧
      ¬ Doubles .zeros ⟨[0x20, 0x4B], by decide +kernel⟩ (fun _ => 0) (fun _ => 0) := by
  refine ⟨(doubles_iff .zeros _ _ (by decide) (by decide +kernel)).2 (by decide +kernel),
    fun h => ?_⟩
  exact absurd ((doubles_iff .zeros _ _ (by decide) (by decide +kernel)).1 h) (by decide +kernel)

/-- "THE K TEAM" is not enlarged: the bar of the first "T" begins one pixel too far left. -/
theorem not_doubles : ¬ ∀ (font : FontMemory) (str : CString) (b b' : ℕ → UInt8),
    str.chars.length ≤ 12 → (∀ c ∈ str.chars, c < 0x80) → Doubles font str b b' := by
  intro h
  obtain ⟨str, hstr⟩ : ∃ str : CString,
      str.chars = [0x54, 0x48, 0x45, 0x20, 0x4B, 0x20, 0x54, 0x45, 0x41, 0x4D] :=
    ⟨⟨_, by decide⟩, rfl⟩
  have hlen : str.chars.length ≤ 12 := by rw [hstr]; decide
  have hcode : ∀ c ∈ str.chars, c < 0x80 := by
    rw [hstr]
    simp only [List.forall_mem_cons, List.not_mem_nil, false_imp_iff, implies_true, and_true]
    decide
  have hcol : 1 < fontWidth * 2 * str.chars.length := by rw [hstr]; decide
  have hpixel := h .zeros str (fun _ => 0) (fun _ => 0) hlen hcode 4 (by decide) 1 hcol
  rw [createBlockTextDouble_ne_zero hlen hcode (by decide) hcol,
    createBlockText_half hlen (by decide) hcol, CString.mem, hstr] at hpixel
  revert hpixel
  decide +kernel

end Doubles

end KTeamOS
