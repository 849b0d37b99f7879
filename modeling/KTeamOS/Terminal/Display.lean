import KTeamOS.Terminal.Cursor

/-!
# The line on the display

`key_to_ter` and `ter_write` move the characters behind the cursor with two loops, one on `key_buf`
and one on the cells of the display.  As long as the line ends in front of the last cell they stay
in step.

## Main definitions

* `Screen.glyph` : the character in a cell of the display.
* `Prompt p s` : an empty line at the cell `p`, and blank cells behind it.
* `Shows s₀ p s` : the cells from `p` on show the line.
-/

namespace KTeamOS

namespace Screen

/-- The character in the cell `i` of the display. -/
def glyph (s : Screen) (i : ℕ) : UInt8 := s.mem (videoMem + 2 * i)

/-- The text page is mapped to the display. -/
def Displayed (s : Screen) : Prop := s.frame (videoMem / 4096) = videoMem / 4096

variable {s s' : Screen} {t i j k q n a : ℕ} {c : UInt8}

theorem Displayed.congr (h : s.Displayed) (hframe : s'.frame = s.frame) : s'.Displayed := by
  rw [Displayed, hframe]
  exact h

theorem glyph_congr (hmem : s'.mem = s.mem) (i : ℕ) : s'.glyph i = s.glyph i := by
  rw [glyph, glyph, hmem]

theorem phys_video (h : s.Displayed) (ha : videoMem ≤ a) (ha' : a < videoMem + 4096) :
    s.phys (a % 2 ^ 32) = a := by
  unfold Displayed at h
  simp only [videoMem] at *
  have hpage : a / 4096 = 753664 / 4096 := by omega
  rw [Nat.mod_eq_of_lt (by omega), phys, if_pos (by omega), hpage, h]
  omega

theorem write_mem (h : s.Displayed) (ha : videoMem ≤ a) (ha' : a < videoMem + 4096) :
    (s.write a c).mem = Function.update s.mem a c := by
  unfold write
  rw [phys_video h ha ha']

/-- A cell of the display is copied to another one. -/
theorem memcpy_glyph (h : s.Displayed) (hi : i < numCells) (hj : j < numCells) :
    (s.memcpy (videoMem + 2 * i) (videoMem + 2 * j) 1).glyph k =
      if k = i then s.glyph j else s.glyph k := by
  simp only [numCells, numCols, numRows] at hi hj
  have hcopy : s.memcpy (videoMem + 2 * i) (videoMem + 2 * j) 1 =
      s.write (videoMem + 2 * i) (s.read (videoMem + 2 * j)) := rfl
  have hread : s.read (videoMem + 2 * j) = s.glyph j := by
    unfold read
    rw [phys_video h (by omega) (by omega)]
    rfl
  rw [hcopy, hread, glyph, write_mem h (by omega) (by omega)]
  by_cases hk : k = i
  · rw [hk, Function.update_self, if_pos rfl]
  · rw [Function.update_of_ne (by omega), if_neg hk]
    rfl

/-- The loop that makes room runs downwards. -/
theorem openGap_glyph (h : s.Displayed) (hn : q + n < numCells) :
    (s.openGap (videoMem + 2 * q) n).glyph k =
      if q < k ∧ k ≤ q + n then s.glyph (k - 1) else s.glyph k := by
  have hv : videoMem + 4096 ≤ 0x400000 := by decide
  have hcells : numCells ≤ frameCells := by decide
  induction n generalizing s with
  | zero => rw [openGap, if_neg (by omega)]
  | succ n ih =>
    have hcopy : ∀ k, (s.memcpy (videoMem + 2 * (q + (n + 1))) (videoMem + 2 * (q + n)) 1).glyph k =
        if k = q + (n + 1) then s.glyph (q + n) else s.glyph k :=
      fun k => memcpy_glyph h hn (by omega)
    have hmid : (s.memcpy (videoMem + 2 * (q + (n + 1))) (videoMem + 2 * (q + n)) 1).Displayed := h
    rw [openGap, add32_cell hv (by omega), add32_cell hv (by omega), ih hmid (by omega), hcopy,
      hcopy]
    by_cases hk : q < k ∧ k ≤ q + n
    · rw [if_pos hk, if_neg (by omega), if_pos (by omega)]
    · rw [if_neg hk]
      by_cases hk' : k = q + (n + 1)
      · rw [if_pos hk', if_pos (by omega), hk', show q + (n + 1) - 1 = q + n by omega]
      · rw [if_neg hk', if_neg (by omega)]

/-- The loop that closes a gap runs upwards. -/
theorem closeGap_glyph (h : s.Displayed) (hq : 0 < q) (hn : q + n ≤ numCells) :
    (s.closeGap (videoMem + 2 * q) n).glyph k =
      (if q ≤ k + 1 ∧ k + 1 < q + n then s.glyph (k + 1) else s.glyph k) := by
  have hv : videoMem + 4096 ≤ 0x400000 := by decide
  have hcells : numCells ≤ frameCells := by decide
  induction n generalizing k with
  | zero => rw [closeGap, if_neg (by omega)]
  | succ n ih =>
    have hgap : (s.closeGap (videoMem + 2 * q) n).Displayed :=
      h.congr (MemOnly.closeGap isPage_videoMem hcells
        (closeGapUses_inCells hv hcells hq (by omega))).frame
    rw [closeGap, add32_cell hv (by omega), sub32_cell hv (by omega) (by omega),
      memcpy_glyph hgap (by omega) (by omega), ih (by omega), ih (by omega)]
    by_cases hk : k = q + n - 1
    · rw [if_pos hk, if_neg (by omega), if_pos (by omega), show k + 1 = q + n by omega]
    · rw [if_neg hk]
      exact if_congr (by omega) rfl rfl

/-- After a character is erased. -/
theorem pullLeft_glyph (h : s.Displayed) (hq : 0 < q) (hn : q + n < numCells) :
    (s.pullLeft (videoMem + 2 * q) n).glyph k =
      if q ≤ k + 1 ∧ k < q + n then s.glyph (k + 1) else s.glyph k := by
  have hgap : s.pullLeft (videoMem + 2 * q) n = s.closeGap (videoMem + 2 * q) (n + 1) := rfl
  rw [hgap, closeGap_glyph h hq hn]
  exact if_congr (by omega) rfl rfl

/-- After a character is inserted. -/
theorem pushRight_glyph (h : s.Displayed) (hn : q + n < numCells) :
    (s.pushRight (videoMem + 2 * q) n c).glyph k =
      if k = q then c else if q < k ∧ k ≤ q + n then s.glyph (k - 1) else s.glyph k := by
  have hv : videoMem + 4096 ≤ 0x400000 := by decide
  have hcells : numCells ≤ frameCells := by decide
  have hq : q < 2000 := Nat.lt_of_le_of_lt (Nat.le_add_right q n) hn
  have hput : ∀ r : Screen, r.Displayed → (r.put (videoMem + 2 * q) c).glyph k =
      if k = q then c else r.glyph k := by
    intro r hr
    have hw : (r.write (videoMem + 2 * q) c).Displayed := hr
    unfold put glyph
    rw [add32_of_lt (by simp only [videoMem]; omega), write_mem hw (by omega) (by omega),
      Function.update_of_ne (by omega), write_mem hr (by omega) (by omega)]
    by_cases hk : k = q
    · rw [hk, Function.update_self, if_pos rfl]
    · rw [Function.update_of_ne (by omega), if_neg hk]
  have hgap : (s.openGap (videoMem + 2 * q) n).Displayed :=
    h.congr (MemOnly.openGap isPage_videoMem hcells (openGapUses_inCells hv hcells hn)).frame
  have hlt : n < 2000 := Nat.lt_of_le_of_lt (Nat.le_add_left n q) hn
  rw [pushRight, if_pos (by omega), hput _ hgap, openGap_glyph h hn]

theorem sync_position (h : s.OnPage t) : (s.sync t).position = s.spot t := by
  obtain ⟨hx, hy⟩ := onPage_iff.1 h
  rw [spot_eq]
  change (s.screenY t * 80 + s.screenX t) % 2 ^ 16 = _
  omega

end Screen

namespace Tty

/-- The characters that blank cells hold. -/
def IsBlank (c : UInt8) : Prop := c = 0 ∨ c = 0x20

/-- An empty line at the cell `p`, with blank cells from there on. -/
structure Prompt (p : ℕ) (s : Tty) : Prop where
  bi : s.bi = 0
  bim : s.bim = 0
  onPage : s.screen.OnPage s.termLive
  spot : s.screen.spot s.termLive = p
  position : s.screen.position = p
  displayed : s.screen.Displayed
  blank : ∀ i, p ≤ i → i < Screen.numCells → IsBlank (s.screen.glyph i)

/-- The cells from `p` on show the line and a blank behind it, those in front of it are those of
`s₀`, and the hardware cursor is at the index. -/
structure Shows (s₀ : Tty) (p : ℕ) (s : Tty) : Prop where
  text : ∀ i < s.bim, s.screen.glyph (p + i) = s.key i
  blank : IsBlank (s.screen.glyph (p + s.bim))
  before : ∀ i < p, s.screen.glyph i = s₀.screen.glyph i
  position : s.screen.position = p + s.bi

/-- What holds while the line is edited. -/
structure DisplayInv (s₀ : Tty) (p : ℕ) (s : Tty) : Prop where
  index : s.IndexOk
  onPage : s.screen.OnPage s.termLive
  spot : s.screen.spot s.termLive = p + s.bi
  position : s.screen.position = p + s.bi
  displayed : s.screen.Displayed
  text : ∀ i < s.bim, s.screen.glyph (p + i) = s.key i
  blank : ∀ i, p + s.bim ≤ i → i < Screen.numCells → IsBlank (s.screen.glyph i)
  before : ∀ i < p, s.screen.glyph i = s₀.screen.glyph i

variable {s₀ s s' : Tty} {p : ℕ} {c : UInt8} {sc : Screen} {k : ℕ → UInt8} {a m r : ℕ}

theorem Prompt.inv (h : Prompt p s₀) : DisplayInv s₀ p s₀ where
  index := by
    unfold IndexOk
    rw [h.bi, h.bim]
    exact ⟨Nat.le_refl 0, Nat.zero_le _⟩
  onPage := h.onPage
  spot := by rw [h.spot, h.bi, Nat.add_zero]
  position := by rw [h.position, h.bi, Nat.add_zero]
  displayed := h.displayed
  text i hi := by
    rw [h.bim] at hi
    exact absurd hi (Nat.not_lt_zero i)
  blank i hi := h.blank i (by rw [h.bim] at hi; exact hi)
  before _ _ := rfl

theorem DisplayInv.shows (h : DisplayInv s₀ p s) (hroom : p + s.bim < Screen.numCells) :
    Shows s₀ p s :=
  ⟨h.text, h.blank _ (Nat.le_refl _) hroom, h.before, h.position⟩

namespace DisplayInv

/-- An edit of the line whose echo ends with the hardware cursor. -/
theorem edit (h : DisplayInv s₀ p s) (sc' : Screen) (hle : a ≤ m) (hmax : m ≤ 129)
    (hpage : sc'.OnPage s.termLive) (hspot : sc'.spot s.termLive = p + a)
    (hdisp : sc'.Displayed) (htext : ∀ i < m, sc'.glyph (p + i) = k (s.row + i))
    (hblank : ∀ i, p + m ≤ i → i < Screen.numCells → IsBlank (sc'.glyph i))
    (hbefore : ∀ i < p, sc'.glyph i = s.screen.glyph i) :
    DisplayInv s₀ p (s.edit (sc'.sync s.termLive) k a m r) where
  index := by
    unfold IndexOk
    rw [edit_bi, edit_bim]
    exact ⟨hle, hmax⟩
  onPage := Screen.sync_onPage hpage
  spot := by
    rw [edit_bi, ← hspot]
    exact Screen.sync_spot
  position := by
    rw [edit_bi, ← hspot]
    exact Screen.sync_position hpage
  displayed := hdisp
  text i hi := htext i (by rwa [edit_bim] at hi)
  blank i hi := hblank i (by rwa [edit_bim] at hi)
  before i hi := (hbefore i hi).trans (h.before i hi)

theorem backspace (h : DisplayInv s₀ p s) (hroom : p + s.bim < Screen.numCells) :
    DisplayInv s₀ p (s.keyToTer 8) := by
  by_cases h0 : s.bi = 0
  · rwa [keyToTer_backspace_zero h0]
  · obtain ⟨hle, hmax⟩ := h.index
    have hpos : 0 < s.bi := Nat.pos_of_ne_zero h0
    have hscreen := keyToTer_screen_backspace h0
    obtain ⟨sc, hkey⟩ := keyToTer_backspace hpos hle (by omega)
    have hsc : sc = (s.keyToTer 8).screen := by rw [hkey]; rfl
    have hn : sub32 (sub32 s.bim 1) (sub32 s.bi 1) = s.bim - s.bi :=
      sub32_pred hpos hle (by omega)
    have hcell : s.screen.cell s.termLive videoMem = videoMem + 2 * (p + s.bi) := by
      rw [Screen.cell_eq h.onPage (by decide), h.spot]
    rw [hscreen, Screen.terWrite_backspace, hn, hcell] at hsc
    have hback := Screen.stepBack_moved (s := s.screen.lit) (t := s.termLive) h.onPage
      (by change 0 < s.screen.spot s.termLive; rw [h.spot]; omega)
    have hdisp : (s.screen.lit.stepBack s.termLive).Displayed :=
      Screen.Displayed.congr h.displayed hback.frame
    have hspot : s.screen.lit.spot s.termLive = p + s.bi := h.spot
    rw [hspot] at hback
    have hglyph : ∀ i, (s.screen.lit.stepBack s.termLive).glyph i = s.screen.glyph i :=
      Screen.glyph_congr hback.mem
    have hpull := fun i => Screen.pullLeft_glyph (k := i) (n := s.bim - s.bi) (q := p + s.bi) hdisp
      (by omega) (by omega)
    have honly : Screen.MemOnly videoMem (s.screen.lit.stepBack s.termLive)
        ((s.screen.lit.stepBack s.termLive).pullLeft (videoMem + 2 * (p + s.bi)) (s.bim - s.bi)) :=
      Screen.MemOnly.pullLeft (m := Screen.numCells) Screen.isPage_videoMem (by decide)
        (Screen.closeGapUses_inCells (n := s.bim - s.bi + 1) (by decide) (by decide) (by omega)
          (by omega))
    rw [hkey, hsc]
    refine h.edit _ (by omega) (by omega) (honly.onPage hback.page) ?_ ?_ ?_ ?_ ?_
    · rw [honly.spot, hback.spot]
      omega
    · exact hdisp.congr honly.frame
    -- the cells and `key_buf` move by the same loop
    · intro i hi
      have herased : s.erased (s.row + i) = if s.bi - 1 ≤ i then s.key (i + 1) else s.key i := by
        rw [erased_apply hpos hle, if_neg (by omega)]
        exact if_congr (by omega) rfl rfl
      rw [hpull, hglyph, hglyph, herased]
      by_cases hin : s.bi - 1 ≤ i
      · rw [if_pos (by omega), if_pos (by omega)]
        exact h.text (i + 1) (by omega)
      · rw [if_neg (by omega), if_neg (by omega)]
        exact h.text i (by omega)
    · intro i hi hlt
      rw [hpull, hglyph, hglyph]
      split_ifs
      · exact h.blank _ (by omega) (by omega)
      · exact h.blank _ (by omega) hlt
    · intro i hi
      rw [hpull, if_neg (by omega), hglyph]

theorem insert (h : DisplayInv s₀ p s) (hc : Plain c)
    (hroom : p + (s.keyToTer c).bim < Screen.numCells) : DisplayInv s₀ p (s.keyToTer c) := by
  obtain ⟨hle, hmax⟩ := h.index
  by_cases hfull : 128 < s.bim
  · rwa [keyToTer_full hc hfull]
  · have hscreen := keyToTer_screen_plain (s := s) hc hfull
    obtain ⟨sc, hkey⟩ := keyToTer_plain hc hle (Nat.le_of_not_lt hfull)
    have hsc : sc = (s.keyToTer c).screen := by rw [hkey]; rfl
    have hlt : p + (s.bim + 1) < Screen.numCells := by rwa [hkey, edit_bim] at hroom
    have hn : sub32 s.bim s.bi = s.bim - s.bi := sub32_of_le (by omega) hle
    have hcell : s.screen.cell s.termLive videoMem = videoMem + 2 * (p + s.bi) := by
      rw [Screen.cell_eq h.onPage (by decide), h.spot]
    rw [hscreen, Screen.terWrite_plain hc.1 (not_or.2 hc.2), hn, hcell] at hsc
    have hdisp : s.screen.lit.Displayed := h.displayed
    have hpush := fun i => Screen.pushRight_glyph (k := i) (c := c) (n := s.bim - s.bi)
      (q := p + s.bi) hdisp (by omega)
    have honly : Screen.MemOnly videoMem s.screen.lit
        (s.screen.lit.pushRight (videoMem + 2 * (p + s.bi)) (s.bim - s.bi) c) := by
      refine Screen.MemOnly.pushRight (m := Screen.numCells) Screen.isPage_videoMem (by decide)
        fun a ha => ?_
      rw [← hn, ← hcell] at ha
      have hfits : Screen.Fits Screen.numCells s.screen s.termLive c (sub32 s.bim s.bi) :=
        .inr (.inr ⟨by rw [hn, h.spot]; omega, fun h8 => absurd h8 hc.1⟩)
      refine Screen.inCells_of_fits h.onPage (by decide) hfits a ?_
      unfold Screen.terWriteUses
      simp only [if_neg hc.1, if_neg (not_or.2 hc.2)]
      exact ha
    have hspot : (s.screen.lit.pushRight (videoMem + 2 * (p + s.bi)) (s.bim - s.bi) c).spot
        s.termLive = p + s.bi := honly.spot.trans h.spot
    have hadv : Screen.MovedTo s.termLive (p + s.bi + 1)
        (s.screen.lit.pushRight (videoMem + 2 * (p + s.bi)) (s.bim - s.bi) c)
        ((s.screen.lit.pushRight (videoMem + 2 * (p + s.bi)) (s.bim - s.bi) c).advance s.termLive
          Screen.scrollUp) := by
      have hmoved := Screen.advance_moved (t := s.termLive) Screen.scrollUp
        (honly.onPage h.onPage) (by rw [hspot]; omega)
      rw [hspot] at hmoved
      exact hmoved
    have hglyph : ∀ i, ((s.screen.lit.pushRight (videoMem + 2 * (p + s.bi)) (s.bim - s.bi)
        c).advance s.termLive Screen.scrollUp).glyph i =
        (s.screen.lit.pushRight (videoMem + 2 * (p + s.bi)) (s.bim - s.bi) c).glyph i :=
      Screen.glyph_congr hadv.mem
    rw [hkey, hsc]
    refine h.edit _ (by omega) (by omega) hadv.page ?_ ?_ ?_ ?_ ?_
    · rw [hadv.spot, Nat.add_assoc]
    · exact hdisp.congr (hadv.frame.trans honly.frame)
    -- the new character, those behind it, and those in front of it
    · intro i hi
      rw [hglyph, hpush]
      by_cases hat : i = s.bi
      · have hkeys : s.inserted c (s.row + i) = c := by rw [inserted_apply hle, if_pos (by omega)]
        rw [hkeys, if_pos (by omega)]
      · by_cases hin : s.bi < i
        · have hkeys : s.inserted c (s.row + i) = s.key (i - 1) := by
            rw [inserted_apply hle, if_neg (by omega), if_pos (by omega),
              show s.row + i - 1 = s.row + (i - 1) by omega]
          rw [hkeys, if_neg (by omega), if_pos (by omega), show p + i - 1 = p + (i - 1) by omega]
          exact h.text (i - 1) (by omega)
        · have hkeys : s.inserted c (s.row + i) = s.key i := by
            rw [inserted_apply hle, if_neg (by omega), if_neg (by omega)]
          rw [hkeys, if_neg (by omega), if_neg (by omega)]
          exact h.text i (by omega)
    · intro i hi hlt'
      rw [hglyph, hpush, if_neg (by omega), if_neg (by omega)]
      exact h.blank i (by omega) hlt'
    · intro i hi
      rw [hglyph, hpush, if_neg (by omega), if_neg (by omega)]
      rfl

/-- A move changes the cursor only. -/
theorem move (h : DisplayInv s₀ p s) {q : ℕ} (hq : q ≤ s.bim) {sc' : Screen}
    (hmoved : Screen.MovedTo s.termLive (p + q) s.screen sc') :
    DisplayInv s₀ p (s.edit (sc'.sync s.termLive) s.keyBuf q s.bim 0) := by
  have hglyph : ∀ i, sc'.glyph i = s.screen.glyph i := Screen.glyph_congr hmoved.mem
  refine h.edit sc' hq h.index.2 hmoved.page hmoved.spot ?_ ?_ ?_ ?_
  · exact Screen.Displayed.congr h.displayed hmoved.frame
  · exact fun i hi => (hglyph _).trans (h.text i hi)
  · intro i hi hlt
    rw [hglyph]
    exact h.blank i hi hlt
  · exact fun i _ => hglyph i

theorem left (h : DisplayInv s₀ p s) : DisplayInv s₀ p s.moveLeft := by
  obtain ⟨hle, hmax⟩ := h.index
  by_cases h0 : s.bi = 0
  · rwa [moveLeft, if_pos h0]
  · have hmoved := Screen.stepBack_moved h.onPage (by rw [h.spot]; omega)
    rw [h.spot, show p + s.bi - 1 = p + (s.bi - 1) by omega] at hmoved
    obtain ⟨sc, hedit⟩ := moveLeft_eq (s := s) (by omega)
    have hsc : sc = (s.screen.stepBack s.termLive).sync s.termLive := by
      have hscreen : s.moveLeft.screen = (s.screen.stepBack s.termLive).sync s.termLive := by
        rw [moveLeft, if_neg h0]
        rfl
      rw [← hscreen, hedit]
      rfl
    rw [hedit, hsc]
    exact h.move (by omega) hmoved

theorem right (h : DisplayInv s₀ p s) (hroom : p + s.bim < Screen.numCells) :
    DisplayInv s₀ p s.moveRight := by
  obtain ⟨hle, hmax⟩ := h.index
  by_cases hend : s.bi ≥ s.bim
  · rwa [moveRight, if_pos hend]
  · have hmoved := Screen.stepOn_moved h.onPage (by rw [h.spot]; omega)
    rw [h.spot] at hmoved
    obtain ⟨sc, hedit⟩ := moveRight_eq (s := s) hle (by omega)
    have hsc := moveRight_screen hend h.onPage
    rw [hedit] at hsc
    rw [hedit, show sc = _ from hsc, show min (s.bi + 1) s.bim = s.bi + 1 by omega]
    exact h.move (by omega) hmoved

end DisplayInv

/-- The keys of a line: printable characters, backspaces and moves. -/
def Typing : KeyEvent → Prop
  | .key c => c = 8 ∨ (0x20 ≤ c ∧ c ≤ 0x7E)
  | .left | .right => True
  | .up | .down | .tab => False

instance : DecidablePred Typing
  | .key c => inferInstanceAs (Decidable (c = 8 ∨ _))
  | .left | .right => isTrue trivial
  | .up | .down | .tab => isFalse id

theorem DisplayInv.step {e : KeyEvent} (h : DisplayInv s₀ p s) (he : Typing e)
    (hroom : p + s.bim < Screen.numCells) (hst : ttyMachine.step s e = some s')
    (hroom' : p + s'.bim < Screen.numCells) : DisplayInv s₀ p s' := by
  cases e with
  | key c =>
    cases hst
    rcases he with rfl | ⟨hlo, -⟩
    · exact h.backspace hroom
    · have hplain : Plain c := by
        refine ⟨?_, ?_, ?_⟩ <;> rintro rfl <;> exact absurd hlo (by decide)
      exact h.insert hplain hroom'
  | left =>
    cases hst
    exact h.left
  | right =>
    cases hst
    exact h.right hroom
  | up | down | tab => exact absurd he id

end Tty

/-- **The display shows the line.**  From a prompt on, in every run of printable characters,
backspaces and moves in which the text ends in front of the last cell. -/
theorem display_shows {s₀ : Tty} {p : ℕ} (h : s₀.Prompt p) {es : List KeyEvent}
    (htyping : ∀ e ∈ es, Tty.Typing e)
    (hroom : ttyMachine.States (fun s => p + s.bim < Screen.numCells) s₀ es) :
    ttyMachine.States (Tty.Shows s₀ p) s₀ es := by
  have hrun : ∀ s, s₀.DisplayInv p s →
      ttyMachine.States (fun s => p + s.bim < Screen.numCells) s es →
      ttyMachine.States (Tty.Shows s₀ p) s es := by
    clear hroom
    induction es with
    | nil => exact fun s hinv hroom => hinv.shows hroom
    | cons e es ih =>
      intro s hinv hroom
      refine ⟨hinv.shows hroom.1, fun s' hst => ?_⟩
      have hrest := hroom.2 s' hst
      refine ih (fun e' he' => htyping e' (List.mem_cons_of_mem _ he')) s' ?_ hrest
      exact hinv.step (htyping e (List.mem_cons_self ..)) hroom.1 hst hrest.head
  exact hrun s₀ h.inv hroom

/-- At the top of a blank screen `a` is typed, and `b` in front of it. -/
theorem display_shows_typed : ttyMachine.States
    (Tty.Shows (.boot 0 ⟨0, fun _ _ => 0⟩ .boot) 0) (.boot 0 ⟨0, fun _ _ => 0⟩ .boot)
    [.key 97, .left, .key 98] := by
  refine display_shows ⟨rfl, rfl, by decide, rfl, rfl, ?_, fun _ _ _ => .inl rfl⟩ ?_ ?_
  · exact Eq.refl (videoMem / 4096)
  · decide
  · decide

/-- An empty line at the last cell of a blank screen. -/
def lastCell : Tty := .boot 0 ⟨0, fun _ _ => 0⟩
  { Screen.boot with screenX := fun _ => 79, screenY := fun _ => 24, position := 1999 }

/-- A text that ends with the last cell has scrolled. -/
theorem display_not_shows : lastCell.Prompt 1999 ∧ (∀ e ∈ [KeyEvent.key 97], Tty.Typing e) ∧
    ttyMachine.States (fun s => 1999 + s.bim ≤ Screen.numCells) lastCell [.key 97] ∧
    ¬ ttyMachine.States (Tty.Shows lastCell 1999) lastCell [.key 97] := by
  refine ⟨⟨rfl, rfl, by decide, rfl, rfl, ?_, fun _ _ _ => .inl rfl⟩, by decide, by decide, ?_⟩
  · exact Eq.refl (videoMem / 4096)
  have hcursor : (ttyMachine.exec lastCell [.key 97]).map
      (fun s => (s.screen.position, s.bi)) = some (1920, 1) := by decide +kernel
  obtain ⟨s, hexec, hs⟩ := Option.map_eq_some_iff.1 hcursor
  obtain ⟨hposition, hbi⟩ := Prod.mk.inj hs
  intro hstates
  have hshows := (hstates.exec hexec).position
  rw [hposition, hbi] at hshows
  exact absurd hshows (by decide)

end KTeamOS
