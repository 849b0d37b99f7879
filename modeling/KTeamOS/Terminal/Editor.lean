import KTeamOS.Terminal.Keys

/-!
# The line editor, abstractly

What the line buffer is for: a text with a cursor in it, in which characters are inserted and
deleted before the cursor.  `Represents e s` relates such an `Editor` to the row of the live
terminal, and every key of the terminal is shown to compute the editor's step, as long as the text
fits the row (`editor_refined`).
-/

namespace KTeamOS

open Buffer

/-- A text with a cursor. -/
structure Editor where
  text : List UInt8
  cursor : ℕ
  /-- The cursor is in the text or at its end. -/
  cursor_le : cursor ≤ text.length

/-- The keys that edit a line: the characters that are inserted, backspace and the arrows. -/
inductive EditKey
  | char (c : {c : UInt8 // Tty.Plain c}) | backspace | left | right

namespace Editor

/-- The empty line. -/
def empty : Editor := ⟨[], 0, Nat.le_refl _⟩

/-- Insert `c` before the cursor. -/
def insert (e : Editor) (c : UInt8) : Editor where
  text := e.text.insertIdx e.cursor c
  cursor := e.cursor + 1
  cursor_le := by
    rw [List.length_insertIdx_of_le_length e.cursor_le]
    exact Nat.succ_le_succ e.cursor_le

/-- Delete the character before the cursor, if there is one. -/
def backspace (e : Editor) : Editor where
  text := if e.cursor = 0 then e.text else e.text.eraseIdx (e.cursor - 1)
  cursor := e.cursor - 1
  cursor_le := by
    have hle := e.cursor_le
    split_ifs with h0
    · omega
    · rw [List.length_eraseIdx_of_lt (by omega)]
      omega

/-- The cursor goes one character to the left, if it can. -/
def left (e : Editor) : Editor :=
  ⟨e.text, e.cursor - 1, Nat.le_trans (Nat.sub_le ..) e.cursor_le⟩

/-- The cursor goes one character to the right, if it can. -/
def right (e : Editor) : Editor :=
  ⟨e.text, min (e.cursor + 1) e.text.length, Nat.min_le_right ..⟩

end Editor

/-- The line editor. -/
def editorMachine : Machine Editor EditKey where
  step e
    | .char c => some (e.insert c)
    | .backspace => some e.backspace
    | .left => some e.left
    | .right => some e.right

/-- The event of the terminal for a key. -/
def EditKey.event : EditKey → KeyEvent
  | char c => .key c
  | backspace => .key 8
  | left => .left
  | right => .right

/-- The live line of `s` is the text of `e`, with the cursor where `e` has it, and the row is
blank behind it. -/
structure Represents (e : Editor) (s : Tty) : Prop where
  text : Holds s.keyBuf s.row e.text
  cursor : s.bi = e.cursor
  length : s.bim = e.text.length
  blank : ∀ i, s.bim ≤ i → i < bufMaxV → s.key i = 0

/-- The line of the live terminal is cleared. -/
structure Cleared (s : Tty) : Prop where
  bi : s.bi = 0
  bim : s.bim = 0
  blank : ∀ i < bufMaxV, s.key i = 0

variable {e : Editor} {s s' : Tty} {c : UInt8} {k : EditKey}

theorem Cleared.represents (h : Cleared s) : Represents .empty s where
  text := holds_nil
  cursor := h.bi
  length := h.bim
  blank i _ hi := h.blank i hi

namespace Represents

theorem bi_le (h : Represents e s) : s.bi ≤ s.bim := by
  rw [h.cursor, h.length]
  exact e.cursor_le

/-- An edit of the live row, as `e` has it. -/
theorem edit {sc : Screen} {b : ℕ → UInt8} {i m r : ℕ} (hi : i = e.cursor)
    (hm : m = e.text.length) (htext : Holds b s.row e.text)
    (hblank : ∀ j, m ≤ j → j < 128 → b (s.row + j) = 0) : Represents e (s.edit sc b i m r) where
  text := htext
  cursor := Tty.edit_bi.trans hi
  length := Tty.edit_bim.trans hm
  blank j hj := hblank j (by rwa [Tty.edit_bim] at hj)

theorem insert (h : Represents e s) (hc : Tty.Plain c) (hlen : e.text.length ≤ 128) :
    Represents (e.insert c) (s.keyToTer c) := by
  have hbi := h.bi_le
  have hbim : s.bim ≤ 128 := h.length ▸ hlen
  have hlen' : (e.insert c).text.length = e.text.length + 1 :=
    List.length_insertIdx_of_le_length e.cursor_le c
  obtain ⟨sc, hkey⟩ := Tty.keyToTer_plain hc hbi hbim
  rw [hkey]
  refine edit ?_ ?_ ?_ ?_
  · rw [h.cursor]
    rfl
  · rw [hlen', h.length]
  · refine Holds.insert h.text e.cursor_le ?_ fun j hj _ _ => ?_
    · rw [← h.cursor, Tty.inserted_apply hbi, if_pos rfl]
    · rw [← h.cursor] at hj ⊢
      rw [Tty.inserted, Function.update_of_ne hj, h.length]
  · intro i hi hlt
    have hlt : i < 128 := hlt
    rw [Tty.inserted_apply hbi, if_neg (by omega)]
    by_cases heq : i = s.bim + 1
    · rw [if_pos (by omega), show s.row + i - 1 = s.row + s.bim by omega]
      exact h.blank _ (Nat.le_refl _) (show s.bim < 128 by omega)
    · rw [if_neg (by omega)]
      exact h.blank i (by omega) hlt

theorem backspace (h : Represents e s) (hlen : e.text.length ≤ 129) :
    Represents e.backspace (s.keyToTer 8) := by
  have hbi := h.bi_le
  have hbim : s.bim ≤ 129 := h.length ▸ hlen
  by_cases h0 : e.cursor = 0
  · have hsame : e.backspace = e := by
      rcases e with ⟨text, cursor, hle⟩
      obtain rfl : cursor = 0 := h0
      rfl
    rwa [hsame, Tty.keyToTer_backspace_zero (h.cursor.trans h0)]
  · have hcur := h.cursor
    have hle := e.cursor_le
    have hpos : 0 < s.bi := by omega
    have htext : e.backspace.text = e.text.eraseIdx (e.cursor - 1) := if_neg h0
    have hlen' : e.backspace.text.length = e.text.length - 1 := by
      rw [htext, List.length_eraseIdx_of_lt (by omega)]
    obtain ⟨sc, hkey⟩ := Tty.keyToTer_backspace hpos hbi (by omega)
    rw [hkey]
    refine edit ?_ ?_ ?_ ?_
    · rw [h.cursor]
      rfl
    · rw [hlen', h.length]
    · rw [htext]
      refine Holds.erase h.text (by omega) fun j hj hj' => ?_
      have hlength := h.length
      rw [Tty.erased_apply hpos hbi, if_neg (by omega), h.cursor]
      exact if_congr (by omega) rfl rfl
    · intro i hi hlt
      rw [Tty.erased_apply hpos hbi]
      by_cases heq : i = s.bim - 1
      · rw [if_pos (by omega)]
      · rw [if_neg (by omega), if_neg (by omega)]
        exact h.blank i (by omega) hlt

theorem move (h : Represents e s) {sc : Screen} {n : ℕ} (hn : n ≤ e.text.length) :
    Represents ⟨e.text, n, hn⟩ (s.edit sc s.keyBuf n s.bim 0) :=
  edit rfl h.length h.text h.blank

theorem left (h : Represents e s) (hlen : e.text.length ≤ 129) :
    Represents e.left s.moveLeft := by
  have hbi := h.bi_le
  have hbim : s.bim ≤ 129 := h.length ▸ hlen
  obtain ⟨sc, hmove⟩ := Tty.moveLeft_eq (s := s) (by omega)
  rw [hmove, h.cursor]
  exact h.move _

theorem right (h : Represents e s) (hlen : e.text.length ≤ 129) :
    Represents e.right s.moveRight := by
  have hbim : s.bim ≤ 129 := h.length ▸ hlen
  obtain ⟨sc, hmove⟩ := Tty.moveRight_eq h.bi_le (by omega)
  rw [hmove, h.cursor]
  have hmin : min (e.cursor + 1) s.bim = min (e.cursor + 1) e.text.length := by rw [h.length]
  rw [hmin]
  exact h.move _

/-- One key. -/
theorem step (h : Represents e s) (hlen : e.text.length ≤ 128) {e' : Editor}
    (hk : editorMachine.step e k = some e') (hlen' : e'.text.length ≤ 128) :
    ∃ s', ttyMachine.step s k.event = some s' ∧ Represents e' s' := by
  cases k with
  | char c =>
    obtain rfl := Option.some.inj hk
    have hgrow : (e.insert c).text.length = e.text.length + 1 :=
      List.length_insertIdx_of_le_length e.cursor_le c.1
    exact ⟨_, rfl, h.insert c.2 (by omega)⟩
  | backspace => exact ⟨_, rfl, Option.some.inj hk ▸ h.backspace (Nat.le_succ_of_le hlen)⟩
  | left => exact ⟨_, rfl, Option.some.inj hk ▸ h.left (Nat.le_succ_of_le hlen)⟩
  | right => exact ⟨_, rfl, Option.some.inj hk ▸ h.right (Nat.le_succ_of_le hlen)⟩

end Represents

/-- The terminal keeps up with the editor. -/
theorem Represents.exec {ks : List EditKey} {e₀ e : Editor} {s : Tty} (h : Represents e₀ s)
    (hlen : editorMachine.States (fun e => e.text.length ≤ bufMaxV) e₀ ks)
    (he : editorMachine.exec e₀ ks = some e) :
    ∃ s', ttyMachine.exec s (ks.map EditKey.event) = some s' ∧ Represents e s' := by
  induction ks generalizing e₀ s with
  | nil =>
    obtain rfl := Option.some.inj he
    exact ⟨s, rfl, h⟩
  | cons k ks ih =>
    simp only [Machine.exec, Option.bind_eq_some_iff] at he
    obtain ⟨e₁, hk, he⟩ := he
    obtain ⟨s₁, hst, h₁⟩ := h.step hlen.1 hk (hlen.2 e₁ hk).head
    obtain ⟨s', hexec, h'⟩ := ih h₁ (hlen.2 e₁ hk) he
    refine ⟨s', ?_, h'⟩
    rw [List.map_cons, Machine.exec, hst, Option.bind_some, hexec]

/-- **The terminal is a line editor.**  From a cleared line on, as long as the text has at most
128 characters, the row of the live terminal is the text the editor has after the same keys, with
the cursor in the same place and blanks behind it. -/
theorem editor_refined {ks : List EditKey} {e : Editor} (h : Cleared s)
    (hlen : editorMachine.States (fun e => e.text.length ≤ bufMaxV) .empty ks)
    (he : editorMachine.exec .empty ks = some e) :
    ∃ s', ttyMachine.exec s (ks.map EditKey.event) = some s' ∧ Represents e s' :=
  h.represents.exec hlen he

/-- `ab`, a move to the left and a backspace leave `b`, with the cursor before it. -/
theorem editor_refined_boot : ∃ s', ttyMachine.exec (.boot 0 ⟨0, fun _ _ => 0⟩ .boot)
    ([.char ⟨97, by decide⟩, .char ⟨98, by decide⟩, .left, .backspace].map EditKey.event) =
      some s' ∧ Represents ⟨[98], 0, Nat.zero_le _⟩ s' :=
  editor_refined ⟨rfl, rfl, fun _ _ => rfl⟩ (by decide) rfl

end KTeamOS
