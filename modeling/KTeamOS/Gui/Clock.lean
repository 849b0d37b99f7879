import KTeamOS.Buffer.Basic
import KTeamOS.Gui.Text

/-!
# The clock

`clock` of `modex.c` writes the minutes and seconds of its argument, a number of seconds, as text
and draws them into `timer_block`.

The digit for the tens of the minutes is not reduced, but cut off to a character.  So the text is
right in the first 100 minutes of every 768000 seconds (`clockRight_iff`), and the block shows it
then (`clock_pixel`).  Later other characters are drawn, and for some of them memory in front of
`font_data` is read.
-/

namespace KTeamOS

/-- `inp2` -/
def inp2 (sec : ℕ) : List UInt8 :=
  let oneSec := sec % 60 % 10
  let tenSec := sec % 60 / 10
  let oneMin := sec / 60 % 10
  let tenMin := sec / 60 / 10
  [(tenMin + 0x30).toUInt8, (oneMin + 0x30).toUInt8, 0x3A, (tenSec + 0x30).toUInt8,
    (oneSec + 0x30).toUInt8, 0]

/-- The string in `inp2`. -/
def clockText (sec : ℕ) : CString where
  chars := field (fun i => (inp2 sec)[i]?.getD 0) 6 0
  zero_notMem := zero_notMem_field

/-- `if (buf2[i] != 0) buf2[i] = 0xF;` for the first `n` indices. -/
def brighten (buf2 : ℕ → UInt8) : ℕ → ℕ → UInt8
  | 0 => buf2
  | n + 1 =>
    let buf2 := brighten buf2 n
    if buf2 n ≠ 0 then Function.update buf2 n 0xF else buf2

/-- The first part of `clock`: `timer_block` afterwards. -/
def clock (isModex isPacman : UInt8) (font : FontMemory) (sec : ℕ) (buf2 timerBlock : ℕ → UInt8) :
    ℕ → UInt8 :=
  if isModex = 0 ∨ isPacman = 1 then timerBlock
  else
    let buf2 := Buffer.fill buf2 0 0 (40 * 16)
    let buf2 := createBlockTextTimer font (clockText sec) buf2
    let buf2 := brighten buf2 (16 * 40)
    Buffer.copy timerBlock 0 buf2 0 (40 * 16)

/-- The character of a decimal digit. -/
def digitChar (d : ℕ) : UInt8 := (d + 0x30).toUInt8

/-- The text has the minutes and the seconds in two digits each. -/
def ShowsTime (sec : ℕ) : Prop :=
  ∃ m < 10, ∃ m' < 10, ∃ s < 10, ∃ s' < 10,
    inp2 sec = [digitChar m, digitChar m', 0x3A, digitChar s, digitChar s', 0] ∧
      10 * m + m' = sec / 60 % 100 ∧ 10 * s + s' = sec % 60

/-- The text is right, and drawing it uses indices of `font_data` and `buf2` only. -/
structure ClockRight (sec : ℕ) : Prop where
  digits : ShowsTime sec
  font : ∀ d ∈ timerStyle.dots (clockText sec),
    0 ≤ d.fontIdx ∧ d.fontIdx ≤ 255 ∧ d.fontRow < fontHeight
  pixel : ∀ d ∈ timerStyle.dots (clockText sec), d.pixel < 40 * 16

variable {sec n j : ℕ} {c : UInt8}

theorem digitChar_inj {d d' : ℕ} : digitChar d = digitChar d' ↔ d % 256 = d' % 256 := by
  have hval : ∀ d, (digitChar d).toNat = (d + 0x30) % 256 := fun d => UInt8.toNat_ofNat'
  rw [← UInt8.toNat_inj, hval, hval]
  omega

/-- The text is right as long as the digit of the tens of the minutes is. -/
theorem showsTime_iff : ShowsTime sec ↔ sec % 768000 < 6000 := by
  have hinp : inp2 sec = [digitChar (sec / 60 / 10), digitChar (sec / 60 % 10), 0x3A,
    digitChar (sec % 60 / 10), digitChar (sec % 60 % 10), 0] := rfl
  constructor
  · rintro ⟨m, hm, m', hm', s, hs, s', hs', htext, hmin, -⟩
    rw [hinp] at htext
    simp only [List.cons.injEq, digitChar_inj] at htext
    -- the tens of the minutes have the same remainder by 256 and by 10, so one below 10 by 1280
    omega
  · intro h
    have hten : digitChar (sec / 60 / 10) = digitChar (sec / 60 / 10 % 10) :=
      digitChar_inj.2 (by omega)
    refine ⟨sec / 60 / 10 % 10, by omega, sec / 60 % 10, by omega, sec % 60 / 10, by omega,
      sec % 60 % 10, by omega, ?_, by omega, by omega⟩
    rw [hinp, hten]

/-- The characters that are drawn. -/
theorem mem_inp2_of_mem (h : c ∈ (clockText sec).chars) : c ∈ inp2 sec := by
  obtain ⟨i, hi, rfl⟩ := List.getElem_of_mem h
  have hle : (clockText sec).chars.length ≤ 6 := field_length_le
  have hchar : (inp2 sec)[0 + i]?.getD 0 = (clockText sec).chars[i] := field_getElem hi
  have hin : 0 + i < (inp2 sec).length := by
    change 0 + i < 6
    omega
  rw [← hchar, List.getElem?_eq_getElem hin]
  exact List.getElem_mem hin

/-- There are at most five. -/
theorem clockText_fits : timerStyle.Fits (clockText sec) := by
  refine ⟨Nat.one_pos, ?_⟩
  have hle : (clockText sec).chars.length ≤ 5 := by
    by_contra hlong
    have hi : 5 < (clockText sec).chars.length := Nat.not_le.1 hlong
    have hzero : (0 : UInt8) = (clockText sec).chars[5] := field_getElem hi
    exact (clockText sec).zero_notMem (hzero ▸ List.getElem_mem hi)
  exact Nat.mul_le_mul_left 8 hle

theorem pixel_lt : ∀ d ∈ timerStyle.dots (clockText sec), d.pixel < 40 * 16 := by
  intro d hd
  obtain ⟨q, hq, rfl⟩ := (TextStyle.mem_dots Nat.one_pos).1 hd
  have hcol := TextStyle.column_lt clockText_fits hq
  have hrow : q.2.1 < 16 := hq.2.1
  change q.2.1 * 40 + _ < _
  change _ < 40 at hcol
  omega

theorem digitChar_lt : ∀ d < 10, digitChar d < 0x80 := by
  decide

/-- The characters of a right text are not negative. -/
theorem charValue_mem (h : sec % 768000 < 6000) (hc : c ∈ (clockText sec).chars) :
    charValue c = c.toNat := by
  obtain ⟨m, hm, m', hm', s, hs, s', hs', htext, -⟩ := showsTime_iff.2 h
  have hmem := mem_inp2_of_mem hc
  rw [htext] at hmem
  have hall : ∀ x ∈ [digitChar m, digitChar m', 0x3A, digitChar s, digitChar s', 0], x < 0x80 := by
    simp only [List.forall_mem_cons, List.not_mem_nil, false_imp_iff, implies_true, and_true]
    exact ⟨digitChar_lt m hm, digitChar_lt m' hm', by decide, digitChar_lt s hs,
      digitChar_lt s' hs', by decide⟩
  exact if_pos (hall c hmem)

/-- **The clock** is right in the first 100 minutes of every 768000 seconds. -/
theorem clockRight_iff (sec : UInt32) : ClockRight sec.toNat ↔ sec.toNat % 768000 < 6000 := by
  generalize sec.toNat = n
  refine ⟨fun h => showsTime_iff.1 h.digits, fun h => ⟨showsTime_iff.2 h, fun d hd => ?_, pixel_lt⟩⟩
  obtain ⟨q, ⟨hchar, hrow, -⟩, rfl⟩ := (TextStyle.mem_dots Nat.one_pos).1 hd
  have hvalue : charValue ((clockText n).mem q.1) = ((clockText n).mem q.1).toNat :=
    charValue_mem h (CString.mem_mem_chars hchar)
  have hlt := ((clockText n).mem q.1).toNat_lt
  rw [TextStyle.dot_fontIdx, TextStyle.dot_fontRow, timerStyle_index, timerStyle_zoom, hvalue,
    Nat.div_one]
  exact ⟨by omega, by omega, hrow⟩

/-- After 100 minutes the first character is a colon. -/
theorem not_clockRight : ¬ ∀ sec : UInt32, ClockRight sec.toNat := by
  intro h
  exact absurd (showsTime_iff.1 (h 6000).digits) (by decide)

/-! ### The picture -/

section Picture

variable {isModex isPacman : UInt8} {font : FontMemory} {buf2 timerBlock : ℕ → UInt8}
  {row col : ℕ}

theorem brighten_apply : brighten buf2 n j = if j < n ∧ buf2 j ≠ 0 then 0xF else buf2 j := by
  induction n with
  | zero => rw [brighten, if_neg fun h => Nat.not_lt_zero j h.1]
  | succ n ih =>
    rw [brighten]
    by_cases hj : j = n
    · subst hj
      -- the turns so far have left this byte alone
      have hsame : brighten buf2 j j = buf2 j := by rw [ih, if_neg fun h => Nat.lt_irrefl j h.1]
      rw [hsame]
      by_cases hne : buf2 j ≠ 0
      · rw [if_pos hne, if_pos ⟨Nat.lt_succ_self j, hne⟩, Function.update_self]
      · rw [if_neg hne, if_neg fun h => hne h.2, hsame]
    · have hother : (if brighten buf2 n n ≠ 0 then Function.update (brighten buf2 n) n 0xF
          else brighten buf2 n) j = brighten buf2 n j := by
        split_ifs
        · exact Function.update_of_ne hj ..
        · rfl
      rw [hother, ih]
      exact if_congr (and_congr_left' (by omega)) rfl rfl

/-- A right text is drawn in full. -/
theorem clockText_chars (h : sec % 768000 < 6000) :
    (clockText sec).chars = (inp2 sec).take 5 := by
  obtain ⟨m, hm, m', hm', s, hs, s', hs', htext, -⟩ := showsTime_iff.2 h
  have hne : ∀ d < 10, digitChar d ≠ 0 := by decide
  change field (fun i => (inp2 sec)[i]?.getD 0) 6 0 = _
  rw [htext]
  refine field_eq ?_ (Nat.le_succ 5) (fun j hj => ?_) fun _ => rfl
  · simp only [List.take_succ_cons, List.take_zero, List.mem_cons, List.not_mem_nil, or_false]
    rintro (h0 | h0 | h0 | h0 | h0)
    · exact hne m hm h0.symm
    · exact hne m' hm' h0.symm
    · cases h0
    · exact hne s hs h0.symm
    · exact hne s' hs' h0.symm
  · have hlt : j < 6 := Nat.lt_succ_of_lt hj
    rw [Nat.zero_add, List.getElem_take, List.getElem?_eq_getElem hlt, Option.getD_some]

/-- **The picture.**  While the clock is right, `timer_block` shows its text. -/
theorem clock_pixel (hmodex : isModex ≠ 0) (hpacman : isPacman ≠ 1) (h : sec % 768000 < 6000)
    (hr : row < fontHeight) (hc : col < 40) :
    clock isModex isPacman font sec buf2 timerBlock (row * 40 + col) =
      if TextStyle.maskAt 1 (col % fontWidth) &&&
        glyphRow ((inp2 sec)[col / fontWidth]?.getD 0).toNat row ≠ 0 then 0xF else 0 := by
  have hchars := clockText_chars h
  have hlen : (clockText sec).chars.length = 5 := by
    rw [hchars]
    rfl
  have hcol : col < fontWidth * timerStyle.zoom * (clockText sec).chars.length := by
    rw [hlen]
    exact hc
  have hin : col / fontWidth < (clockText sec).chars.length := Nat.div_lt_of_lt_mul hcol
  have hchar : (clockText sec).mem (col / fontWidth) = (inp2 sec)[col / fontWidth]?.getD 0 := by
    rw [CString.mem, hchars, List.getElem?_take_of_lt (hlen ▸ hin)]
  -- the bit that `create_block_text_timer` draws
  have hdrawn : createBlockTextTimer font (clockText sec) (Buffer.fill buf2 0 0 (40 * 16))
      (row * 40 + col) ≠ 0 ↔ TextStyle.maskAt 1 (col % fontWidth) &&&
        glyphRow ((inp2 sec)[col / fontWidth]?.getD 0).toNat row ≠ 0 := by
    refine (TextStyle.draw_ne_zero clockText_fits (by decide) hr hcol).trans ?_
    rw [timerStyle_index, timerStyle_zoom, Nat.mul_one, Nat.div_one,
      charValue_mem h (CString.mem_mem_chars hin), font.row_eq _ (UInt8.toNat_lt _) _ hr, hchar]
  have hpixel : row * 40 + col < 640 := by
    change row < 16 at hr
    omega
  rw [clock, if_neg fun h => h.elim hmodex hpacman, Buffer.copy_apply,
    if_pos ⟨Nat.zero_le _, by omega⟩, Nat.zero_add, Nat.sub_zero, brighten_apply]
  by_cases hbit : createBlockTextTimer font (clockText sec) (Buffer.fill buf2 0 0 (40 * 16))
      (row * 40 + col) ≠ 0
  · rw [if_pos ⟨hpixel, hbit⟩, if_pos (hdrawn.1 hbit)]
  · rw [if_neg fun h => hbit h.2, if_neg fun h => hbit (hdrawn.2 h)]
    exact not_not.1 hbit

end Picture

end KTeamOS
