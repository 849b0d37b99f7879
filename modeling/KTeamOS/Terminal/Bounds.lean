import KTeamOS.Terminal.Keys

/-!
# The bounds of the line buffer

`key_to_ter` tests the capacity with `buf_index_max > BUF_MAX_V`, one character too late: the
insertion into a line of 128 characters writes the slot 129, which is a slot of the next row.  A
session stays inside its row exactly while every character is inserted into a line of fewer than
128 characters (`editing_safe_iff`), whether it is typed, recalled or completed.

`LineInv` is what holds between two key events of such a session.
-/

namespace KTeamOS

open Buffer

/-! ### What an event types -/

namespace KeyEvent

/-- The cursor and the length of the line after the character `c`. -/
def advance (p : ℕ × ℕ) (c : UInt8) : ℕ × ℕ :=
  if c = 8 then if p.1 = 0 then p else (p.1 - 1, p.2 - 1)
  else if c = 10 ∨ c = 13 then (0, 0)
  else (p.1 + 1, p.2 + 1)

/-- From the cursor and length `p` on, every character that is inserted finds fewer than 128. -/
def Room : ℕ × ℕ → List UInt8 → Prop
  | _, [] => True
  | p, c :: cs => (Tty.Plain c → p.2 < 128) ∧ Room (advance p c) cs

instance Room.decidable : (p : ℕ × ℕ) → (cs : List UInt8) → Decidable (Room p cs)
  | _, [] => inferInstanceAs (Decidable True)
  | p, c :: cs =>
    have := Room.decidable (advance p c) cs
    inferInstanceAs (Decidable ((Tty.Plain c → p.2 < 128) ∧ Room (advance p c) cs))

/-- The characters of a history entry, from the `i`-th on. -/
def entry (h : ℕ → UInt8) : ℕ → ℕ → List UInt8
  | 0, _ => []
  | n + 1, i => if h i = 0 ∨ h i = 10 then [] else h i :: entry h n (i + 1)

/-- The characters that a recalled line is typed with. -/
def recalled (h : ℕ → UInt8) : List UInt8 := List.replicate bufMax 8 ++ entry h bufMax 0

/-- The characters with which an event calls `key_to_ter`. -/
def typed (s : Tty) : KeyEvent → List UInt8
  | key c => [c]
  | left | right => []
  | up =>
    let h := s.history s.termLive (sub32 (s.arrowIdx s.termLive) 1 % 32)
    if h 0 = 0 then [] else recalled h
  | down =>
    let h := s.history s.termLive (add32 (s.arrowIdx s.termLive) 1 % 32)
    if s.arrowIdx s.termLive = s.histIdx s.termLive then []
    else if h 0 = 0 then List.replicate bufMax 8
    else recalled h
  | tab => (s.completion.map Prod.fst).getD []

/-- Every character that the event inserts finds a line of fewer than 128 characters. -/
def Fits (s : Tty) (e : KeyEvent) : Prop := Room (s.bi, s.bim) (e.typed s)

instance (s : Tty) (e : KeyEvent) : Decidable (Fits s e) := Room.decidable _ _

variable {p : ℕ × ℕ} {cs ds : List UInt8} {n : ℕ}

theorem room_append : Room p (cs ++ ds) ↔ Room p cs ∧ Room (cs.foldl advance p) ds := by
  induction cs generalizing p with
  | nil => simp [Room]
  | cons c cs ih => simp [Room, ih, and_assoc]

theorem room_erase : Room p (List.replicate n 8) := by
  induction n generalizing p with
  | zero => trivial
  | succ n ih => exact ⟨fun hc => absurd rfl hc.1, ih⟩

/-- A run of one character fits up to 128 characters. -/
theorem room_replicate {c : UInt8} (hc : Tty.Plain c) :
    Room p (List.replicate n c) ↔ n = 0 ∨ p.2 + n ≤ 128 := by
  induction n generalizing p with
  | zero => simp [Room]
  | succ n ih =>
    have hadv : advance p c = (p.1 + 1, p.2 + 1) := by
      rw [advance, if_neg hc.1, if_neg (not_or.2 hc.2)]
    rw [List.replicate_succ, Room, ih, hadv]
    have hplain : (Tty.Plain c → p.2 < 128) ↔ p.2 < 128 := ⟨fun h => h hc, fun h _ => h⟩
    rw [hplain]
    dsimp only
    omega

end KeyEvent

open KeyEvent

/-! ### Between two events -/

/-- The session that started in `s₀` has stayed inside its row: indices and accesses are in
bounds, and the bytes outside the live row of `key_buf` and `store_buf` are those of `s₀`. -/
structure EditSafe (s₀ s : Tty) : Prop where
  bi_le : s.bi ≤ s.bim
  bim_le : s.bim ≤ bufMaxV
  reach : s.reach < bufMax
  keyBuf : ∀ j, j < s₀.row ∨ s₀.row + bufMax ≤ j → s.keyBuf j = s₀.keyBuf j
  storeBuf : ∀ j, j < s₀.row ∨ s₀.row + bufMax ≤ j → s.storeBuf j = s₀.storeBuf j

/-- What holds of the live line between two events. -/
structure LineInv (s₀ s : Tty) : Prop extends EditSafe s₀ s where
  live : s.termLive = s₀.termLive
  /-- Behind the line the row is blank. -/
  blank : ∀ i, s.bim ≤ i → i < 128 → s.key i = 0
  full : s.bim = 128 → s.key 128 = 0
  last : s.key 128 = 0 ∨ s.key 128 = 10
  /-- No carriage return is on the line, and so it is last in a history entry. -/
  text : ∀ i < s.bim, s.key i ≠ 13
  history : ∀ k i, i < 128 → s.history s.termLive k i = 13 →
    s.history s.termLive k (i + 1) = 0 ∨ s.history s.termLive k (i + 1) = 10

namespace LineInv

variable {s₀ s s' : Tty} {c : UInt8} {cs : List UInt8} {e : KeyEvent} {r n i : ℕ}

theorem row_eq (h : LineInv s₀ s) : s.row = s₀.row := by rw [Tty.row, h.live]

theorem touch (h : LineInv s₀ s) (hr : r ≤ 128) : LineInv s₀ (s.touch r) :=
  { h with reach := Nat.max_lt.2 ⟨h.reach, Nat.lt_succ_of_le hr⟩ }

theorem setArrow (h : LineInv s₀ s) (a : ℕ) : LineInv s₀ (s.setArrow a) :=
  { h with }

/-- An edit of the live row. -/
theorem edit (h : LineInv s₀ s) {sc : Screen} {k : ℕ → UInt8} {a m : ℕ} (ha : a ≤ m)
    (hm : m ≤ 128) (hr : r ≤ 128) (hk : ∀ j, j < s.row ∨ s.row + 129 ≤ j → k j = s.keyBuf j)
    (hblank : ∀ i, m ≤ i → i < 128 → k (s.row + i) = 0) (hfull : m = 128 → k (s.row + 128) = 0)
    (hlast : k (s.row + 128) = 0 ∨ k (s.row + 128) = 10) (htext : ∀ i < m, k (s.row + i) ≠ 13) :
    LineInv s₀ (s.edit sc k a m r) where
  bi_le := by rwa [Tty.edit_bi, Tty.edit_bim]
  bim_le := by rwa [Tty.edit_bim]
  reach := Nat.max_lt.2 ⟨h.reach, Nat.lt_succ_of_le hr⟩
  keyBuf j hj := (hk j (h.row_eq ▸ hj)).trans (h.keyBuf j hj)
  storeBuf := h.storeBuf
  live := h.live
  blank i hi := hblank i (by rwa [Tty.edit_bim] at hi)
  full hm' := hfull (Tty.edit_bim.symm.trans hm')
  last := hlast
  text i hi := htext i (by rwa [Tty.edit_bim] at hi)
  history := h.history

/-- An inserted character. -/
theorem plain (h : LineInv s₀ s) (hc : Tty.Plain c) (hlt : s.bim < 128) :
    LineInv s₀ (s.keyToTer c) := by
  obtain ⟨sc, hkey⟩ := Tty.keyToTer_plain hc h.bi_le (Nat.le_of_lt hlt)
  have hbi := h.bi_le
  rw [hkey]
  refine h.edit (by omega) (by omega) (by omega) ?_ ?_ ?_ ?_ ?_
  · intro j hj
    rw [Tty.inserted_apply hbi, if_neg (by omega), if_neg (by omega)]
  · intro i hi hi'
    rw [Tty.inserted_apply hbi, if_neg (by omega)]
    by_cases heq : i = s.bim + 1
    · rw [if_pos (by omega), show s.row + i - 1 = s.row + s.bim by omega]
      exact h.blank _ (Nat.le_refl _) hlt
    · rw [if_neg (by omega)]
      exact h.blank i (by omega) hi'
  · intro hm
    rw [Tty.inserted_apply hbi, if_neg (by omega), if_pos (by omega),
      show s.row + 128 - 1 = s.row + s.bim by omega]
    exact h.blank _ (Nat.le_refl _) hlt
  · rw [Tty.inserted_apply hbi, if_neg (by omega)]
    by_cases heq : s.bim = 127
    · rw [if_pos (by omega), show s.row + 128 - 1 = s.row + s.bim by omega]
      exact .inl (h.blank _ (Nat.le_refl _) hlt)
    · rw [if_neg (by omega)]
      exact h.last
  · intro i hi
    rw [Tty.inserted_apply hbi]
    split_ifs with h₁ h₂
    · exact hc.2.2
    · rw [show s.row + i - 1 = s.row + (i - 1) by omega]
      exact h.text (i - 1) (by omega)
    · exact h.text i (by omega)

theorem backspace (h : LineInv s₀ s) : LineInv s₀ (s.keyToTer 8) := by
  by_cases h0 : s.bi = 0
  · rwa [Tty.keyToTer_backspace_zero h0]
  · have hbi := h.bi_le
    have hbim : s.bim ≤ 128 := h.bim_le
    have hpos : 0 < s.bi := Nat.pos_of_ne_zero h0
    obtain ⟨sc, hkey⟩ := Tty.keyToTer_backspace hpos hbi (by omega)
    rw [hkey]
    refine h.edit (by omega) (by omega) (by omega) ?_ ?_ (by omega) ?_ ?_
    · intro j hj
      rw [Tty.erased_apply hpos hbi, if_neg (by omega), if_neg (by omega)]
    · intro i hi hi'
      rw [Tty.erased_apply hpos hbi]
      by_cases heq : i = s.bim - 1
      · rw [if_pos (by omega)]
      · rw [if_neg (by omega), if_neg (by omega)]
        exact h.blank i (by omega) hi'
    · rw [Tty.erased_apply hpos hbi, if_neg (by omega), if_neg (by omega)]
      exact h.last
    · intro i hi
      rw [Tty.erased_apply hpos hbi, if_neg (by omega)]
      split_ifs with h₁
      · exact h.text (i + 1) (by omega)
      · exact h.text i (by omega)

/-- In the line that `c` ends, a carriage return is last. -/
theorem ended_last (h : LineInv s₀ s) (hi : i < 128) (hr : s.ended c (s.row + i) = 13) :
    s.ended c (s.row + (i + 1)) = 0 ∨ s.ended c (s.row + (i + 1)) = 10 := by
  have hother : ∀ j, j ≠ s.bim → s.ended c (s.row + j) = s.key j :=
    fun j hj => Function.update_of_ne (by omega) _ _
  by_cases heq : i = s.bim
  · rw [hother _ (by omega)]
    by_cases hend : i + 1 < 128
    · exact .inl (h.blank _ (by omega) hend)
    · rw [show i + 1 = 128 by omega]
      exact h.last
  · rw [hother i heq] at hr
    by_cases hin : i < s.bim
    · exact absurd hr (h.text i hin)
    · rw [h.blank i (by omega) hi] at hr
      cases hr

theorem enter (h : LineInv s₀ s) (hc : c = 10 ∨ c = 13) : LineInv s₀ (s.keyToTer c) := by
  obtain ⟨sc, hkey⟩ := Tty.keyToTer_enter hc h.bim_le
  have hbim : s.bim ≤ 128 := h.bim_le
  have hstored : ∀ j, j < s.row ∨ s.row + 129 ≤ j → (s.stored c).storeBuf j = s.storeBuf j := by
    intro j hj
    change copy s.storeBuf s.row (s.ended c) s.row 129 j = s.storeBuf j
    rw [copy_apply, if_neg (by omega)]
  rw [hkey]
  refine
    { bi_le := ?_, bim_le := ?_, reach := ?_, keyBuf := ?_, storeBuf := ?_, live := ?_,
      blank := ?_, full := ?_, last := ?_, text := ?_, history := ?_ }
  · exact Nat.le_of_eq (Tty.edit_bi.trans Tty.edit_bim.symm)
  · rw [Tty.edit_bim]
    exact Nat.zero_le _
  · rw [Tty.edit_reach, Tty.stored_reach]
    exact Nat.max_lt.2 ⟨h.reach, by decide⟩
  · intro j hj
    have hout : j < s.row ∨ s.row + 129 ≤ j := h.row_eq ▸ hj
    rw [← h.keyBuf j hj, Tty.edit_keyBuf, Tty.cleared_apply, if_neg (by omega), if_neg (by omega),
      Tty.ended, Function.update_of_ne (by omega)]
  · intro j hj
    exact (hstored j (h.row_eq ▸ hj)).trans (h.storeBuf j hj)
  · exact Tty.stored_termLive.trans h.live
  · intro i _ hi
    rw [Tty.edit_key, Tty.stored_row, Tty.cleared_apply, if_neg (by omega), if_pos (by omega)]
  · rw [Tty.edit_bim]
    intro hfull
    cases hfull
  · right
    rw [Tty.edit_key, Tty.stored_row, Tty.cleared_apply, if_pos rfl]
  · rw [Tty.edit_bim]
    intro i hi
    omega
  · intro k i hi
    rw [Tty.edit_termLive, Tty.edit_history, Tty.stored_termLive, Tty.stored_history]
    -- the entry is an old one, the line that has just ended, or blank
    rcases Tty.remembered_entry (s := s) (c := c) k with hk | hk | hk
    · rw [hk]
      exact h.history k i hi
    · rw [hk i (by omega), hk (i + 1) (by omega)]
      exact h.ended_last hi
    · rw [hk i (by omega)]
      exact fun h13 => absurd h13 (by decide)

/-- A key that fits. -/
theorem key (h : LineInv s₀ s) (hfit : Tty.Plain c → s.bim < 128) : LineInv s₀ (s.keyToTer c) := by
  by_cases hc : Tty.Plain c
  · exact h.plain hc (hfit hc)
  · by_cases h8 : c = 8
    · exact h8 ▸ h.backspace
    · refine h.enter ?_
      unfold Tty.Plain at hc
      tauto

/-- Where a key that fits leaves the cursor and the end of the line. -/
theorem key_index (h : LineInv s₀ s) (hfit : Tty.Plain c → s.bim < 128) :
    ((s.keyToTer c).bi, (s.keyToTer c).bim) = advance (s.bi, s.bim) c := by
  have hbi := h.bi_le
  have hbim : s.bim ≤ 128 := h.bim_le
  by_cases h8 : c = 8
  · subst h8
    by_cases h0 : s.bi = 0
    · simp [advance, h0, Tty.keyToTer_backspace_zero h0]
    · obtain ⟨sc, hkey⟩ := Tty.keyToTer_backspace (Nat.pos_of_ne_zero h0) hbi (by omega)
      rw [hkey, advance, if_pos rfl, if_neg h0]
      rw [Tty.edit_bi, Tty.edit_bim]
  · by_cases hnl : c = 10 ∨ c = 13
    · obtain ⟨sc, hkey⟩ := Tty.keyToTer_enter hnl hbim
      rw [hkey, advance, if_neg h8, if_pos hnl]
      rw [Tty.edit_bi, Tty.edit_bim]
    · have hc : Tty.Plain c := ⟨h8, not_or.1 hnl⟩
      obtain ⟨sc, hkey⟩ := Tty.keyToTer_plain hc hbi hbim
      rw [hkey, advance, if_neg h8, if_neg hnl]
      rw [Tty.edit_bi, Tty.edit_bim]

/-- A character inserted into a full line writes the slot 129. -/
theorem key_over (h : LineInv s₀ s) (hc : Tty.Plain c) (hlt : ¬ s.bim < 128) :
    bufMax ≤ (s.keyToTer c).reach := by
  have hbim : s.bim ≤ 128 := h.bim_le
  obtain ⟨sc, hkey⟩ := Tty.keyToTer_plain hc h.bi_le hbim
  rw [hkey, Tty.edit_reach]
  have hslot : 129 ≤ max s.reach (s.bim + 1) := by omega
  exact hslot

/-! ### Several keys -/

theorem le_reach_foldl : s.reach ≤ (cs.foldl Tty.keyToTer s).reach := by
  induction cs generalizing s with
  | nil => exact Nat.le_refl _
  | cons c cs ih => exact Nat.le_trans Tty.le_reach_keyToTer ih

theorem foldl (h : LineInv s₀ s) (hroom : Room (s.bi, s.bim) cs) :
    LineInv s₀ (cs.foldl Tty.keyToTer s) ∧
      ((cs.foldl Tty.keyToTer s).bi, (cs.foldl Tty.keyToTer s).bim) =
        cs.foldl advance (s.bi, s.bim) := by
  induction cs generalizing s with
  | nil => exact ⟨h, rfl⟩
  | cons c cs ih =>
    have hidx := h.key_index hroom.1
    obtain ⟨h₁, h₂⟩ := ih (h.key hroom.1) (hidx ▸ hroom.2)
    exact ⟨h₁, h₂.trans (by rw [hidx]; rfl)⟩

theorem foldl_over (h : LineInv s₀ s) (hroom : ¬ Room (s.bi, s.bim) cs) :
    bufMax ≤ (cs.foldl Tty.keyToTer s).reach := by
  induction cs generalizing s with
  | nil => exact absurd trivial hroom
  | cons c cs ih =>
    by_cases hfit : Tty.Plain c → s.bim < 128
    · have hidx := h.key_index hfit
      exact ih (h.key hfit) fun hr => hroom ⟨hfit, hidx ▸ hr⟩
    · rw [Classical.not_imp] at hfit
      exact Nat.le_trans (h.key_over hfit.1 hfit.2) le_reach_foldl

/-! ### Recalled lines -/

theorem le_reach_typeEntry : s.reach ≤ (Tty.typeEntry n i s).reach := by
  induction n generalizing s i with
  | zero => exact Nat.le_refl _
  | succ n ih =>
    unfold Tty.typeEntry
    dsimp only
    split_ifs
    · exact Nat.le_refl _
    · exact Nat.le_trans Tty.le_reach_keyToTer ih

/-- After a carriage return nothing more of the entry is typed: it was the last character of the
entry, or `arrow_idx` has moved to a blank one. -/
theorem typeEntry_return (h : LineInv s₀ s) (hi : i + (n + 1) ≤ 129)
    (hr : s.history s.termLive (s.arrowIdx s.termLive) i = 13) :
    Tty.typeEntry n (i + 1) (s.keyToTer 13) = s.keyToTer 13 ∧
      entry (s.history s.termLive (s.arrowIdx s.termLive)) n (i + 1) = [] := by
  cases n with
  | zero => exact ⟨rfl, rfl⟩
  | succ n =>
    have hnext := h.history _ i (by omega) hr
    refine ⟨?_, by rw [entry, if_pos hnext]⟩
    obtain ⟨sc, hkey⟩ := Tty.keyToTer_enter (s := s) (.inr rfl) h.bim_le
    rw [hkey, Tty.typeEntry]
    refine if_pos ?_
    rw [Tty.edit_termLive, Tty.edit_history, Tty.edit_arrowIdx, Tty.stored_termLive,
      Tty.stored_history, Tty.stored_arrowIdx]
    rcases Tty.remembered_arrow (s := s) (c := 13) with ⟨h₁, h₂⟩ | h₁
    · rw [h₁, h₂]
      exact hnext
    · exact .inl (h₁ _ (by omega))

theorem typeEntry (h : LineInv s₀ s) (hi : i + n ≤ 129) (hroom : Room (s.bi, s.bim)
    (entry (s.history s.termLive (s.arrowIdx s.termLive)) n i)) :
    LineInv s₀ (Tty.typeEntry n i s) := by
  induction n generalizing s i with
  | zero => exact h
  | succ n ih =>
    unfold Tty.typeEntry
    unfold entry at hroom
    dsimp only
    by_cases hstop : s.history s.termLive (s.arrowIdx s.termLive) i = 0 ∨
        s.history s.termLive (s.arrowIdx s.termLive) i = 10
    · rwa [if_pos hstop]
    · rw [if_neg hstop] at hroom ⊢
      by_cases h13 : s.history s.termLive (s.arrowIdx s.termLive) i = 13
      · rw [h13] at hroom ⊢
        rw [(h.typeEntry_return hi h13).1]
        exact h.key hroom.1
      · obtain ⟨h₁, h₂, h₃⟩ := Tty.keyToTer_history (s := s)
          (c := s.history s.termLive (s.arrowIdx s.termLive) i) (by tauto)
        refine ih (h.key hroom.1) (by omega) ?_
        rw [h.key_index hroom.1, h₁, h₂, h₃]
        exact hroom.2

theorem typeEntry_over (h : LineInv s₀ s) (hi : i + n ≤ 129) (hroom : ¬ Room (s.bi, s.bim)
    (entry (s.history s.termLive (s.arrowIdx s.termLive)) n i)) :
    bufMax ≤ (Tty.typeEntry n i s).reach := by
  induction n generalizing s i with
  | zero => exact absurd trivial hroom
  | succ n ih =>
    unfold Tty.typeEntry
    unfold entry at hroom
    dsimp only
    by_cases hstop : s.history s.termLive (s.arrowIdx s.termLive) i = 0 ∨
        s.history s.termLive (s.arrowIdx s.termLive) i = 10
    · rw [if_pos hstop] at hroom
      exact absurd trivial hroom
    · rw [if_neg hstop] at hroom ⊢
      by_cases hfit : Tty.Plain (s.history s.termLive (s.arrowIdx s.termLive) i) → s.bim < 128
      · by_cases h13 : s.history s.termLive (s.arrowIdx s.termLive) i = 13
        · rw [(h.typeEntry_return hi h13).2] at hroom
          exact absurd ⟨hfit, trivial⟩ hroom
        · obtain ⟨h₁, h₂, h₃⟩ := Tty.keyToTer_history (s := s)
            (c := s.history s.termLive (s.arrowIdx s.termLive) i) (by tauto)
          refine ih (h.key hfit) (by omega) fun hr => hroom ⟨hfit, ?_⟩
          rwa [h.key_index hfit, h₁, h₂, h₃] at hr
      · rw [Classical.not_imp] at hfit
        exact Nat.le_trans (h.key_over hfit.1 hfit.2) le_reach_typeEntry

/-- Backspaces change neither the history nor `arrow_idx`. -/
theorem eraseLine_history : s.eraseLine.history = s.history ∧ s.eraseLine.arrowIdx = s.arrowIdx ∧
    s.eraseLine.termLive = s.termLive := by
  have hcs : ∀ c ∈ List.replicate bufMax (8 : UInt8), ¬ (c = 10 ∨ c = 13) := by
    intro c hc
    obtain rfl := List.eq_of_mem_replicate hc
    decide
  obtain ⟨h₁, -, h₂, h₃⟩ := Tty.foldl_history (s := s) hcs
  exact ⟨h₁, h₂, h₃⟩

theorem eraseLine (h : LineInv s₀ s) : LineInv s₀ s.eraseLine ∧
    (s.eraseLine.bi, s.eraseLine.bim) = (List.replicate bufMax 8).foldl advance (s.bi, s.bim) := by
  unfold Tty.eraseLine
  exact h.foldl room_erase

/-- The entry that a recall types, after the line has been erased. -/
theorem recalled_room (h : LineInv s₀ s) (a : ℕ) :
    Room (s.bi, s.bim) (recalled (s.history s.termLive a)) ↔
      Room ((s.setArrow a).eraseLine.bi, (s.setArrow a).eraseLine.bim)
        (entry ((s.setArrow a).eraseLine.history (s.setArrow a).eraseLine.termLive
          ((s.setArrow a).eraseLine.arrowIdx (s.setArrow a).eraseLine.termLive)) bufMax 0) := by
  obtain ⟨h₁, h₂, h₃⟩ := eraseLine_history (s := s.setArrow a)
  have hidx : ((s.setArrow a).eraseLine.bi, (s.setArrow a).eraseLine.bim) =
      (List.replicate bufMax 8).foldl advance (s.bi, s.bim) := (h.setArrow a).eraseLine.2
  have harrow : (s.setArrow a).arrowIdx (s.setArrow a).termLive = a := Function.update_self ..
  rw [recalled, room_append, hidx, h₁, h₂, h₃, harrow]
  exact and_iff_right room_erase

/-- **Recalling a line** keeps the row intact exactly if the entry fits. -/
theorem recall_line (h : LineInv s₀ s) (a : ℕ) :
    (Room (s.bi, s.bim) (recalled (s.history s.termLive a)) →
      LineInv s₀ (Tty.typeEntry bufMax 0 (s.setArrow a).eraseLine)) ∧
    (¬ Room (s.bi, s.bim) (recalled (s.history s.termLive a)) →
      bufMax ≤ (Tty.typeEntry bufMax 0 (s.setArrow a).eraseLine).reach) := by
  have herase : LineInv s₀ (s.setArrow a).eraseLine := (h.setArrow a).eraseLine.1
  rw [h.recalled_room a]
  exact ⟨herase.typeEntry (Nat.le_refl _), herase.typeEntry_over (Nat.le_refl _)⟩

/-! ### Moves and completion -/

theorem move (h : LineInv s₀ s) {sc : Screen} (ha : n ≤ s.bim) :
    LineInv s₀ (s.edit sc s.keyBuf n s.bim 0) :=
  h.edit ha h.bim_le (Nat.zero_le _) (fun _ _ => rfl) h.blank h.full h.last h.text

theorem moveLeft (h : LineInv s₀ s) : LineInv s₀ s.moveLeft := by
  have hbi := h.bi_le
  have hbim : s.bim ≤ 128 := h.bim_le
  obtain ⟨sc, hmove⟩ := Tty.moveLeft_eq (s := s) (by omega)
  rw [hmove]
  exact h.move (by omega)

theorem moveRight (h : LineInv s₀ s) : LineInv s₀ s.moveRight := by
  have hbim : s.bim ≤ 128 := h.bim_le
  obtain ⟨sc, hmove⟩ := Tty.moveRight_eq h.bi_le (by omega)
  rw [hmove]
  exact h.move (Nat.min_le_right ..)

theorem tabMatch_le {buf name : ℕ → UInt8} {j k : ℕ} (hbuf : buf k = 0) (hj : j ≤ k) :
    (Tty.tabMatch buf name n j).2 ≤ k := by
  induction n generalizing j with
  | zero =>
    have hlast : j - 1 ≤ k := by omega
    exact hlast
  | succ n ih =>
    unfold Tty.tabMatch
    split_ifs with h₁ h₂
    · exact hj
    · exact hj
    · have hne : j ≠ k := by rintro rfl; exact h₁ hbuf
      exact ih (by omega)

theorem tabScan_le {d : Names} {buf : ℕ → UInt8} {k : ℕ} (hbuf : buf k = 0) :
    (Tty.tabScan d buf n).2 ≤ k := by
  induction n with
  | zero => exact Nat.zero_le _
  | succ n ih =>
    have hle : (Tty.tabMatch buf (d.filename (d.numDentries - (n + 1))) 32 0).2 ≤ k :=
      tabMatch_le hbuf (Nat.zero_le k)
    rw [Tty.tabScan]
    rcases hm : Tty.tabMatch buf (d.filename (d.numDentries - (n + 1))) 32 0 with ⟨found, j⟩
    rw [hm] at hle
    cases found with
    | true => exact hle
    | false => exact Nat.max_le.2 ⟨hle, ih⟩

theorem tabCompare_le {d : Names} {buf : ℕ → UInt8} {k : ℕ} (hbuf : buf k = 0) :
    (Tty.tabCompare d buf).2 ≤ k := by
  unfold Tty.tabCompare
  split_ifs
  · exact Nat.zero_le _
  · exact tabScan_le hbuf

theorem wordStart_le : s.wordStart n ≤ n := by
  induction n with
  | zero => exact Nat.le_refl _
  | succ n ih =>
    unfold Tty.wordStart
    split_ifs
    · exact Nat.le_refl _
    · exact Nat.le_succ_of_le ih

theorem partLen_le {buf : ℕ → UInt8} {j k : ℕ} (hbuf : buf k = 0) (hj : j ≤ k) (hn : k < j + n) :
    ∃ p, Tty.partLen buf n j = some p ∧ p ≤ k := by
  induction n generalizing j with
  | zero => omega
  | succ n ih =>
    unfold Tty.partLen
    split_ifs with hstop
    · exact ⟨j, rfl, hj⟩
    · have hne : j ≠ k := by rintro rfl; exact hstop (.inl hbuf)
      exact ih (by omega) (by omega)

/-- The slot behind the line is blank. -/
theorem key_bim (h : LineInv s₀ s) : s.key s.bim = 0 := by
  have hbim : s.bim ≤ 128 := h.bim_le
  by_cases hfull : s.bim = 128
  · rw [hfull]
    exact h.full hfull
  · exact h.blank _ (Nat.le_refl _) (by omega)

/-- The loops of `tab_comp` stop at the end of the line. -/
theorem completion (h : LineInv s₀ s) (ht : s₀.termLive < 3) :
    ∃ cs r, s.completion = some (cs, r) ∧ r ≤ 128 := by
  have hbim : s.bim ≤ 128 := h.bim_le
  have hidx : s.wordStart s.bim ≤ s.bim := wordStart_le
  have hlive := h.live
  unfold Tty.completion
  dsimp only
  generalize hw : (fun i => s.key (s.wordStart s.bim + i)) = word
  have hword : word (s.bim - s.wordStart s.bim) = 0 := by
    rw [← hw]
    dsimp only
    rw [Nat.add_sub_cancel' hidx]
    exact h.key_bim
  have hread := tabCompare_le (d := s.names) hword
  rcases hcmp : Tty.tabCompare s.names word with ⟨found, j⟩
  rw [hcmp] at hread
  have hread : j ≤ s.bim - s.wordStart s.bim := hread
  cases found with
  | none => exact ⟨_, _, rfl, by omega⟩
  | some name =>
    obtain ⟨p, hp, hple⟩ := partLen_le (n := 3 * 129 - (s.row + s.wordStart s.bim)) (j := 0) hword
      (Nat.zero_le _) (by simp only [Tty.row, bufMax]; omega)
    exact ⟨_, _, by rw [hp]; rfl, by omega⟩

end LineInv

/-! ### Sessions -/

open LineInv

/-- The live terminal is one of the three, and its line and its history are empty. -/
structure Fresh (s : Tty) : Prop where
  live : s.termLive < 3
  bi : s.bi = 0
  bim : s.bim = 0
  blank : ∀ i < 128, s.key i = 0
  last : s.key 128 = 0 ∨ s.key 128 = 10
  history : ∀ k i, s.history s.termLive k i = 0
  reach : s.reach = 0

variable {s₀ s s' : Tty} {e : KeyEvent}

theorem Fresh.lineInv (h : Fresh s₀) : LineInv s₀ s₀ where
  bi_le := Nat.le_of_eq (h.bi.trans h.bim.symm)
  bim_le := h.bim ▸ Nat.zero_le _
  reach := h.reach ▸ (by decide)
  keyBuf _ _ := rfl
  storeBuf _ _ := rfl
  live := rfl
  blank i _ hi := h.blank i hi
  full hfull := absurd (h.bim.symm.trans hfull) (by decide)
  last := h.last
  text i hi := absurd (h.bim ▸ hi) (Nat.not_lt_zero i)
  history k i _ hr := absurd ((h.history k i).symm.trans hr) (by decide)

/-- One event: it is always possible, it keeps the invariant if it fits, and leaves the row if it
does not. -/
theorem LineInv.step (h : LineInv s₀ s) (ht : s₀.termLive < 3) (e : KeyEvent) :
    ∃ s', ttyMachine.step s e = some s' ∧ (Fits s e → LineInv s₀ s') ∧
      (¬ Fits s e → bufMax ≤ s'.reach) := by
  cases e with
  | key c =>
    refine ⟨_, rfl, fun hfit => h.key hfit.1, fun hfit => ?_⟩
    have hnot : ¬ (Tty.Plain c → s.bim < 128) := fun hc => hfit ⟨hc, trivial⟩
    rw [Classical.not_imp] at hnot
    exact h.key_over hnot.1 hnot.2
  | left => exact ⟨_, rfl, fun _ => h.moveLeft, fun hfit => absurd trivial hfit⟩
  | right => exact ⟨_, rfl, fun _ => h.moveRight, fun hfit => absurd trivial hfit⟩
  | up =>
    refine ⟨_, rfl, ?_⟩
    unfold Fits typed Tty.histUp
    dsimp only
    split_ifs with hempty
    · exact ⟨fun _ => h, fun hfit => absurd trivial hfit⟩
    · exact h.recall_line _
  | down =>
    refine ⟨_, rfl, ?_⟩
    unfold Fits typed Tty.histDown
    dsimp only
    split_ifs with hnew hempty harrow
    · exact ⟨fun _ => h, fun hfit => absurd trivial hfit⟩
    · exact ⟨fun _ => (h.setArrow _).eraseLine.1, fun hfit => absurd room_erase hfit⟩
    · exact ⟨fun _ => h.eraseLine.1, fun hfit => absurd room_erase hfit⟩
    · exact h.recall_line _
  | tab =>
    obtain ⟨cs, r, hcs, hr⟩ := h.completion ht
    have hstep : ttyMachine.step s .tab = some (cs.foldl Tty.keyToTer (s.touch r)) := by
      simp [ttyMachine, Tty.tabComp, hcs]
    refine ⟨_, hstep, ?_⟩
    unfold Fits typed
    rw [hcs]
    exact ⟨fun hfit => ((h.touch hr).foldl hfit).1, fun hfit => (h.touch hr).foldl_over hfit⟩

theorem LineInv.fits_of_safe (h : LineInv s₀ s) (ht : s₀.termLive < 3)
    (hst : ttyMachine.step s e = some s') :
    (Fits s e → LineInv s₀ s') ∧ (EditSafe s₀ s' → Fits s e) := by
  obtain ⟨s'', hst', hfit, hnot⟩ := h.step ht e
  rw [hst] at hst'
  obtain rfl := Option.some.inj hst'
  refine ⟨hfit, fun hsafe => ?_⟩
  by_contra hover
  exact absurd (hnot hover) (Nat.not_le.2 hsafe.reach)

/-- A session that fits goes on. -/
theorem LineInv.exec_isSome (h : LineInv s₀ s) (ht : s₀.termLive < 3) {es : List KeyEvent}
    (hes : ttyMachine.Steps Fits s es) : (ttyMachine.exec s es).isSome := by
  induction es generalizing s with
  | nil => rfl
  | cons e es ih =>
    obtain ⟨s', hst, hfit, -⟩ := h.step ht e
    obtain ⟨hf, hrest⟩ := hes s' hst
    rw [Machine.exec, hst, Option.bind_some]
    exact ih (hfit hf) hrest

/-- **Editing stays in the row** exactly while every inserted character finds a line of fewer than
128 characters; no such session reads past the buffers. -/
theorem editing_safe_iff (h : Fresh s₀) (es : List KeyEvent) :
    (ttyMachine.States (EditSafe s₀) s₀ es ↔ ttyMachine.Steps Fits s₀ es) ∧
      (ttyMachine.Steps Fits s₀ es → (ttyMachine.exec s₀ es).isSome) := by
  refine ⟨Machine.states_iff_steps (I := LineInv s₀) ?_ ?_ h.lineInv h.lineInv.toEditSafe es,
    h.lineInv.exec_isSome h.live⟩
  · intro s e s' hinv _ hst
    obtain ⟨hfit, hsafe⟩ := hinv.fits_of_safe h.live hst
    exact ⟨hsafe, fun hf => (hfit hf).toEditSafe⟩
  · intro s e s' hinv _ hst hsafe'
    obtain ⟨hfit, hsafe⟩ := hinv.fits_of_safe h.live hst
    exact hfit (hsafe hsafe')

theorem fresh_boot {t : ℕ} (ht : t < 3) (names : Names) (screen : Screen) :
    Fresh (.boot t names screen) :=
  ⟨ht, rfl, rfl, fun _ _ => rfl, .inl rfl, fun _ _ => rfl, rfl⟩

theorem editing_safe_boot :
    ttyMachine.States (EditSafe (.boot 1 ⟨0, fun _ _ => 0⟩ .boot)) (.boot 1 ⟨0, fun _ _ => 0⟩ .boot)
      [.key 97, .left, .key 98, .key 10, .up, .tab] :=
  (editing_safe_iff (fresh_boot (by decide) _ _) _).1.2 (by decide +kernel)

theorem exec_keys {cs : List UInt8} :
    ttyMachine.exec s (cs.map .key) = some (cs.foldl Tty.keyToTer s) := by
  induction cs generalizing s with
  | nil => rfl
  | cons c cs ih => exact ih

/-- The 129th character of a line is written behind its row. -/
theorem editing_not_safe : ¬ ∀ s₀, Fresh s₀ → ∀ es, ttyMachine.States (EditSafe s₀) s₀ es := by
  intro h
  have hfresh := fresh_boot (t := 1) (by decide) ⟨0, fun _ _ => 0⟩ .boot
  have hsafe := (h _ hfresh ((List.replicate 129 97).map .key)).exec exec_keys
  have hroom : ¬ Room (0, 0) (List.replicate 129 97) := by
    rw [room_replicate (by decide)]
    decide
  have hover := hfresh.lineInv.foldl_over hroom
  exact absurd hover (Nat.not_le.2 hsafe.reach)

end KTeamOS
