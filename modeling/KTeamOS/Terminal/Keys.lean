import KTeamOS.Terminal.Line

/-!
# What a key does

`key_to_ter` has four branches.  Each gets an equation for the whole state after it, up to what is
on the screen, in which the wrapping decrements and increments of the source are plain ones.
-/

namespace KTeamOS

open Buffer

namespace Tty

variable {s : Tty} {c : UInt8} {i j m n : ℕ}

@[simp] theorem setIndex_bi : (s.setIndex i m).bi = i := Function.update_self ..
@[simp] theorem setIndex_bim : (s.setIndex i m).bim = m := Function.update_self ..

@[simp] theorem setIndex_setIndex : (s.setIndex i m).setIndex j n = s.setIndex j n := by
  simp [setIndex]

/-- An edit of the live row: the screen becomes `sc`, the line buffer `k`, the indices `i` and
`m`, and the row was used up to the index `r`. -/
def edit (s : Tty) (sc : Screen) (k : ℕ → UInt8) (i m r : ℕ) : Tty :=
  { s.setIndex i m with
    screen := sc
    keyBuf := k
    reach := max s.reach r }

section Edit

variable {sc : Screen} {k : ℕ → UInt8} {r : ℕ}

@[simp] theorem edit_termLive : (s.edit sc k i m r).termLive = s.termLive := rfl
@[simp] theorem edit_row : (s.edit sc k i m r).row = s.row := rfl
@[simp] theorem edit_bi : (s.edit sc k i m r).bi = i := Function.update_self ..
@[simp] theorem edit_bim : (s.edit sc k i m r).bim = m := Function.update_self ..
@[simp] theorem edit_keyBuf : (s.edit sc k i m r).keyBuf = k := rfl
@[simp] theorem edit_key : (s.edit sc k i m r).key j = k (s.row + j) := rfl
@[simp] theorem edit_history : (s.edit sc k i m r).history = s.history := rfl
@[simp] theorem edit_histIdx : (s.edit sc k i m r).histIdx = s.histIdx := rfl
@[simp] theorem edit_arrowIdx : (s.edit sc k i m r).arrowIdx = s.arrowIdx := rfl
@[simp] theorem edit_reach : (s.edit sc k i m r).reach = max s.reach r := rfl

theorem edit_self : s.edit s.screen s.keyBuf s.bi s.bim 0 = s := by
  simp [edit, setIndex]

end Edit

/-! ### Backspace -/

/-- The line buffer without the character before the cursor. -/
def erased (s : Tty) : ℕ → UInt8 :=
  let p := s.row + (s.bi - 1)
  Function.update (shiftLeft (Function.update s.keyBuf p 0) p (s.bim - s.bi))
    (s.row + (s.bim - 1)) 0

/-- Every character behind the erased one moves down. -/
theorem erased_apply (h0 : 0 < s.bi) (hle : s.bi ≤ s.bim) : s.erased j =
    if j = s.row + (s.bim - 1) then 0
    else if s.row + (s.bi - 1) ≤ j ∧ j < s.row + (s.bim - 1) then s.keyBuf (j + 1)
    else s.keyBuf j := by
  rw [erased]
  by_cases hj : j = s.row + (s.bim - 1)
  · rw [hj, Function.update_self, if_pos rfl]
  · rw [Function.update_of_ne hj, shiftLeft_apply, if_neg hj]
    by_cases hin : s.row + (s.bi - 1) ≤ j ∧ j < s.row + (s.bim - 1)
    · rw [if_pos (by omega), if_pos hin, Function.update_of_ne (by omega)]
    · rw [if_neg (by omega), if_neg hin, Function.update_of_ne (by omega)]

/-- Both indices go down by two and up by one; at column 1 they pass through `2 ^ 32 - 1`. -/
theorem keyToTer_backspace (h0 : 0 < s.bi) (hle : s.bi ≤ s.bim) (hlt : s.bim < 2 ^ 32) :
    ∃ sc, s.keyToTer 8 = s.edit sc s.erased (s.bi - 1) (s.bim - 1) (s.bim - 1) := by
  have hbi : sub32 s.bi 1 = s.bi - 1 := sub32_of_le (by omega) h0
  have hbim : sub32 s.bim 1 = s.bim - 1 := sub32_of_le hlt (by omega)
  have hn : sub32 (s.bim - 1) (s.bi - 1) = s.bim - s.bi := by
    rw [sub32_of_le (by omega) (by omega)]
    omega
  have hkey : s.keyToTer 8 = s.backspace.next := by rw [keyToTer, if_pos rfl, if_neg (by omega)]
  refine ⟨s.backspace.next.screen, hkey.trans ?_⟩
  simp only [bi, bim] at *
  have hend : s.bufIndex s.termLive - 1 + (s.bufIndexMax s.termLive - s.bufIndex s.termLive) =
      s.bufIndexMax s.termLive - 1 := by omega
  have hbi' : add32 (sub32 (s.bufIndex s.termLive - 1) 1) 1 = s.bufIndex s.termLive - 1 :=
    add32_sub32 (by omega)
  have hbim' : add32 (sub32 (s.bufIndexMax s.termLive - 1) 1) 1 = s.bufIndexMax s.termLive - 1 :=
    add32_sub32 (by omega)
  simp [backspace, next, edit, setIndex, putKey, echo, touch, erased, row, bi, bim, hbi, hbim, hn,
    hend, hbi', hbim']
  omega

theorem keyToTer_backspace_zero (h0 : s.bi = 0) : s.keyToTer 8 = s := by
  rw [keyToTer, if_pos rfl, if_pos h0]

/-! ### Characters -/

/-- The characters that the last branch inserts. -/
def Plain (c : UInt8) : Prop := c ≠ 8 ∧ c ≠ 10 ∧ c ≠ 13

instance : DecidablePred Plain := fun _ => inferInstanceAs (Decidable (_ ∧ _))

/-- The line buffer with a character inserted before the cursor. -/
def inserted (s : Tty) (c : UInt8) : ℕ → UInt8 :=
  Function.update (shiftRight s.keyBuf (s.row + s.bi) (s.bim - s.bi)) (s.row + s.bi) c

/-- Every character from the cursor on moves up. -/
theorem inserted_apply (hle : s.bi ≤ s.bim) : s.inserted c j =
    if j = s.row + s.bi then c
    else if s.row + s.bi < j ∧ j ≤ s.row + s.bim + 1 then s.keyBuf (j - 1)
    else s.keyBuf j := by
  rw [inserted]
  by_cases hj : j = s.row + s.bi
  · rw [hj, Function.update_self, if_pos rfl]
  · rw [Function.update_of_ne hj, shiftRight_apply, if_neg hj]
    exact if_congr (by omega) rfl rfl

theorem keyToTer_plain (hc : Plain c) (hle : s.bi ≤ s.bim) (hlt : s.bim ≤ 128) :
    ∃ sc, s.keyToTer c = s.edit sc (s.inserted c) (s.bi + 1) (s.bim + 1) (s.bim + 1) := by
  have hkey : s.keyToTer c = (s.insert c).next := by
    rw [keyToTer, if_neg hc.1, if_neg (not_or.2 hc.2), if_neg (Nat.not_lt.2 hlt)]
  refine ⟨(s.insert c).next.screen, hkey.trans ?_⟩
  have hn : sub32 s.bim s.bi = s.bim - s.bi := sub32_of_le (by omega) hle
  have hbi : add32 s.bi 1 = s.bi + 1 := add32_of_lt (by omega)
  have hbim : add32 s.bim 1 = s.bim + 1 := add32_of_lt (by omega)
  simp only [bi, bim] at *
  have hend : s.bufIndex s.termLive + (s.bufIndexMax s.termLive - s.bufIndex s.termLive) =
      s.bufIndexMax s.termLive := by omega
  have hsign : s.bufIndexMax s.termLive - s.bufIndex s.termLive < 2147483648 := by omega
  simp [insert, makeRoom, next, edit, setIndex, putKey, echo, touch, inserted, row, bi, bim, hn,
    hend, hbi, hbim, hsign]
  omega

theorem keyToTer_full (hc : Plain c) (hlt : 128 < s.bim) : s.keyToTer c = s := by
  rw [keyToTer, if_neg hc.1, if_neg (not_or.2 hc.2), if_pos hlt]

/-! ### Enter -/

/-- The line buffer with the line ended by `c`. -/
def ended (s : Tty) (c : UInt8) : ℕ → UInt8 := Function.update s.keyBuf (s.row + s.bim) c

/-- The line buffer `k` with the row from `p` on cleared. -/
def cleared (k : ℕ → UInt8) (p : ℕ) : ℕ → UInt8 := Function.update (fill k p 0 128) (p + 128) 10

theorem cleared_apply {k : ℕ → UInt8} {p : ℕ} : cleared k p j =
    if j = p + 128 then 10 else if p ≤ j ∧ j < p + 128 then 0 else k j := by
  rw [cleared]
  by_cases hj : j = p + 128
  · rw [hj, Function.update_self, if_pos rfl]
  · rw [Function.update_of_ne hj, fill_apply, if_neg hj]

/-- The history after the line that `c` ends. -/
def remembered (s : Tty) (c : UInt8) : Tty := commit { s with keyBuf := s.ended c }

theorem remembered_termLive : (s.remembered c).termLive = s.termLive := by
  unfold remembered commit
  split_ifs <;> rfl

/-- A history entry after the end of a line: the one that was there, the line, or a blank one. -/
theorem remembered_entry (k : ℕ) :
    ((s.remembered c).history s.termLive k = s.history s.termLive k) ∨
    (∀ i < 129, (s.remembered c).history s.termLive k i = s.ended c (s.row + i)) ∨
    (∀ i < 129, (s.remembered c).history s.termLive k i = 0) := by
  unfold remembered commit
  split_ifs
  · by_cases hk : k = (s.histIdx s.termLive + 1) % 32
    · refine .inr (.inr fun i hi => ?_)
      simp only [remember, hk, Function.update_self]
      rw [fill_apply, if_pos (by simpa using hi)]
    · by_cases hk' : k = s.histIdx s.termLive
      · refine .inr (.inl fun i hi => ?_)
        simp only [remember, Function.update_self, Function.update_of_ne hk]
        rw [hk', Function.update_self, copy_apply, if_pos (by simpa using hi), Nat.sub_zero]
      · refine .inl ?_
        simp only [remember, Function.update_self, Function.update_of_ne hk,
          Function.update_of_ne hk']
  · exact .inl rfl

/-- After the end of a line `arrow_idx` is where it was or at a blank entry. -/
theorem remembered_arrow :
    ((s.remembered c).history = s.history ∧ (s.remembered c).arrowIdx = s.arrowIdx) ∨
    ∀ i < 129,
      (s.remembered c).history s.termLive ((s.remembered c).arrowIdx s.termLive) i = 0 := by
  unfold remembered commit
  split_ifs
  · refine .inr fun i hi => ?_
    simp only [remember, Function.update_self]
    rw [fill_apply, if_pos (by simpa using hi)]
  · exact .inl ⟨rfl, rfl⟩

/-- The state in which `terminal_read` finds the line that `c` ends. -/
def stored (s : Tty) (c : UInt8) : Tty :=
  { s.remembered c with
    storeBuf := copy s.storeBuf s.row (s.ended c) s.row 129
    enterFlag := Function.update s.enterFlag s.termLive (s.bim + 1) }

@[simp] theorem stored_history : (s.stored c).history = (s.remembered c).history := rfl
@[simp] theorem stored_histIdx : (s.stored c).histIdx = (s.remembered c).histIdx := rfl
@[simp] theorem stored_arrowIdx : (s.stored c).arrowIdx = (s.remembered c).arrowIdx := rfl
@[simp] theorem stored_termLive : (s.stored c).termLive = s.termLive := remembered_termLive

@[simp] theorem stored_row : (s.stored c).row = s.row := by rw [row, stored_termLive]

@[simp] theorem stored_reach : (s.stored c).reach = s.reach := by
  change (s.remembered c).reach = s.reach
  unfold remembered commit
  split_ifs <;> rfl

theorem skipTail_eq : ∃ sc, s.skipTail = { s with screen := sc } := by
  by_cases hdiff : sub32 s.bim s.bi ≠ 0
  · exact ⟨_, by rw [skipTail, if_pos hdiff]⟩
  · exact ⟨s.screen, by rw [skipTail, if_neg hdiff]⟩

theorem keyToTer_enter_max (hc : c = 10 ∨ c = 13) (hlt : s.bim < 2 ^ 32 - 1) :
    ∃ sc, s.keyToTer c = (s.stored c).edit sc (cleared (s.ended c) s.row) 0 0 (max s.bim 128) := by
  have hkey : s.keyToTer c = s.enter c := by
    rw [keyToTer, if_neg (by rintro rfl; revert hc; decide), if_pos hc]
  obtain ⟨sc, hskip⟩ := s.skipTail_eq
  rw [enter, hskip] at hkey
  refine ⟨(endLine { s with screen := sc } c).screen, hkey.trans ?_⟩
  have hbim : add32 s.bim 1 = s.bim + 1 := add32_of_lt (by omega)
  by_cases hempty : s.ended c s.row ≠ 0 ∧ s.ended c s.row ≠ 10
  all_goals
    simp only [bim, row, ended] at *
    simp [endLine, storeLine, commit, raiseFlag, clearBuf, edit, cleared, setIndex, putKey, echo,
      touch, key, stored, remembered, remember, row, bi, bim, ended, hbim, hempty]

theorem keyToTer_enter (hc : c = 10 ∨ c = 13) (hlt : s.bim ≤ 128) :
    ∃ sc, s.keyToTer c = (s.stored c).edit sc (cleared (s.ended c) s.row) 0 0 128 := by
  obtain ⟨sc, hkey⟩ := keyToTer_enter_max (s := s) hc (by omega)
  rw [Nat.max_eq_right hlt] at hkey
  exact ⟨sc, hkey⟩

/-- What the end of a line leaves of the history. -/
theorem keyToTer_remembered (hc : c = 10 ∨ c = 13) (hlt : s.bim < 2 ^ 32 - 1) :
    (s.keyToTer c).history = (s.remembered c).history ∧
      (s.keyToTer c).histIdx = (s.remembered c).histIdx ∧
      (s.keyToTer c).arrowIdx = (s.remembered c).arrowIdx ∧
      (s.keyToTer c).termLive = (s.remembered c).termLive := by
  obtain ⟨sc, hkey⟩ := keyToTer_enter_max hc hlt
  rw [hkey, edit_history, edit_histIdx, edit_arrowIdx, edit_termLive, stored_history,
    stored_histIdx, stored_arrowIdx, stored_termLive, remembered_termLive]
  exact ⟨rfl, rfl, rfl, rfl⟩

/-! ### Moves -/

theorem moveLeft_eq (hlt : s.bi < 2 ^ 32) :
    ∃ sc, s.moveLeft = s.edit sc s.keyBuf (s.bi - 1) s.bim 0 := by
  by_cases h0 : s.bi = 0
  · have hself := s.edit_self
    rw [h0] at hself
    exact ⟨s.screen, by rw [moveLeft, if_pos h0, h0, hself]⟩
  · refine ⟨s.moveLeft.screen, ?_⟩
    rw [moveLeft, if_neg h0, sub32_of_le hlt (Nat.pos_of_ne_zero h0)]
    simp [edit, setIndex]

theorem moveRight_eq (hle : s.bi ≤ s.bim) (hlt : s.bim < 2 ^ 32) :
    ∃ sc, s.moveRight = s.edit sc s.keyBuf (min (s.bi + 1) s.bim) s.bim 0 := by
  by_cases hend : s.bi ≥ s.bim
  · have hself := s.edit_self
    rw [show s.bi = min (s.bi + 1) s.bim by omega] at hself
    exact ⟨s.screen, by rw [moveRight, if_pos hend, hself]⟩
  · refine ⟨s.moveRight.screen, ?_⟩
    rw [moveRight, if_neg hend, add32_of_lt (by omega), Nat.min_eq_left (by omega)]
    simp [edit, setIndex]

/-! ### What stays -/

theorem le_reach_makeRoom : s.reach ≤ s.makeRoom.reach := by
  unfold makeRoom
  split_ifs
  · exact Nat.le_max_left _ _
  · exact Nat.le_refl _

theorem commit_reach : s.commit.reach = s.reach := by
  unfold commit
  split_ifs <;> rfl

theorem le_reach_endLine : s.reach ≤ (s.endLine c).reach := by
  have hclear : ∀ s' : Tty, s'.clearBuf.reach = max (max s'.reach (bufMaxV - 1)) bufMaxV :=
    fun _ => rfl
  have hflag : ∀ s' : Tty, s'.raiseFlag.reach = s'.reach := fun _ => rfl
  have hput : s.reach ≤ max (max s.reach s.bim) (bufMax - 1) := by omega
  rw [endLine, hclear, hflag, commit_reach]
  exact Nat.le_trans hput (Nat.le_trans (Nat.le_max_left _ _) (Nat.le_max_left _ _))

/-- No key makes `reach` smaller. -/
theorem le_reach_keyToTer : s.reach ≤ (s.keyToTer c).reach := by
  unfold keyToTer
  split_ifs
  · exact Nat.le_refl _
  · have hput : ∀ a b d : ℕ, s.reach ≤ max (max (max s.reach a) b) d := by omega
    simp only [backspace, next, setIndex, putKey, echo, touch]
    exact hput _ _ _
  · obtain ⟨sc, hskip⟩ := s.skipTail_eq
    rw [enter, hskip]
    exact le_reach_endLine (s := { s with screen := sc })
  · exact Nat.le_refl _
  · exact Nat.le_trans le_reach_makeRoom (Nat.le_max_left _ _)

/-- Only the end of a line changes the history. -/
theorem keyToTer_history (hc : ¬ (c = 10 ∨ c = 13)) : (s.keyToTer c).history = s.history ∧
    (s.keyToTer c).arrowIdx = s.arrowIdx ∧ (s.keyToTer c).termLive = s.termLive := by
  have hroom : s.makeRoom.history = s.history ∧ s.makeRoom.arrowIdx = s.arrowIdx ∧
      s.makeRoom.termLive = s.termLive := by
    unfold makeRoom
    split_ifs <;> exact ⟨rfl, rfl, rfl⟩
  unfold keyToTer
  split_ifs
  · exact ⟨rfl, rfl, rfl⟩
  · simp [backspace, next, setIndex, putKey, echo, touch]
  · exact ⟨rfl, rfl, rfl⟩
  · simpa [insert, next, setIndex, putKey, echo, touch] using hroom

theorem keyToTer_histIdx (hc : ¬ (c = 10 ∨ c = 13)) : (s.keyToTer c).histIdx = s.histIdx := by
  have hroom : s.makeRoom.histIdx = s.histIdx := by
    unfold makeRoom
    split_ifs <;> rfl
  unfold keyToTer
  split_ifs
  · rfl
  · simp [backspace, next, setIndex, putKey, echo, touch]
  · rfl
  · simpa [insert, next, setIndex, putKey, echo, touch] using hroom

theorem foldl_history {cs : List UInt8} (hcs : ∀ c ∈ cs, ¬ (c = 10 ∨ c = 13)) :
    (cs.foldl keyToTer s).history = s.history ∧ (cs.foldl keyToTer s).histIdx = s.histIdx ∧
      (cs.foldl keyToTer s).arrowIdx = s.arrowIdx ∧
      (cs.foldl keyToTer s).termLive = s.termLive := by
  induction cs generalizing s with
  | nil => exact ⟨rfl, rfl, rfl, rfl⟩
  | cons c cs ih =>
    have hc := hcs c List.mem_cons_self
    obtain ⟨h₁, h₂, h₃⟩ := keyToTer_history (s := s) hc
    obtain ⟨h₄, h₅, h₆, h₇⟩ := ih (s := s.keyToTer c) fun d hd => hcs d (List.mem_cons_of_mem _ hd)
    exact ⟨h₄.trans h₁, h₅.trans (keyToTer_histIdx hc), h₆.trans h₂, h₇.trans h₃⟩

end Tty

end KTeamOS
