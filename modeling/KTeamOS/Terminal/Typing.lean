import KTeamOS.Terminal.Bounds
import KTeamOS.Terminal.Editor

/-!
# Typing

`Editor.type` is what any character that reaches `key_to_ter` does to the line: the characters that
are inserted, also the one too many that the test of the capacity lets through, backspace and the
ends of lines.  Recalled and completed characters are typed one after the other, so that every event
of a terminal acts on the line through it, and in every state of a session the row holds the text of
some editor (`reachable_represents`).
-/

namespace KTeamOS

open Buffer

namespace Editor

/-- The line after the character `c`. -/
def type (e : Editor) (c : UInt8) : Editor :=
  if c = 8 then e.backspace
  else if c = 10 ∨ c = 13 then .empty
  else if 128 < e.text.length then e
  else e.insert c

variable {e : Editor} {c : UInt8} {cs : List UInt8} {n : ℕ}

theorem type_plain (hc : Tty.Plain c) (hlen : e.text.length ≤ 128) : e.type c = e.insert c := by
  rw [type, if_neg hc.1, if_neg (not_or.2 hc.2), if_neg (Nat.not_lt.2 hlen)]

theorem type_full (hc : Tty.Plain c) (hlen : 128 < e.text.length) : e.type c = e := by
  rw [type, if_neg hc.1, if_neg (not_or.2 hc.2), if_pos hlen]

theorem insert_length : (e.insert c).text.length = e.text.length + 1 :=
  List.length_insertIdx_of_le_length e.cursor_le c

theorem insert_text : (e.insert c).text =
    e.text.take e.cursor ++ c :: e.text.drop e.cursor := by
  have hinsert : ∀ (l : List UInt8) (i : ℕ), i ≤ l.length →
      l.insertIdx i c = l.take i ++ c :: l.drop i := by
    intro l
    induction l with
    | nil =>
      intro i hi
      obtain rfl : i = 0 := Nat.le_zero.1 hi
      rfl
    | cons d l ih =>
      intro i hi
      cases i with
      | zero => rfl
      | succ i => simp [ih i (Nat.le_of_succ_le_succ hi)]
  exact hinsert _ _ e.cursor_le

theorem backspace_text (h0 : e.cursor ≠ 0) : e.backspace.text =
    e.text.take (e.cursor - 1) ++ e.text.drop e.cursor := by
  have htext : e.backspace.text = e.text.eraseIdx (e.cursor - 1) := if_neg h0
  rw [htext, List.eraseIdx_eq_take_drop_succ, Nat.sub_add_cancel (Nat.pos_of_ne_zero h0)]

/-- Characters come from the line, or are the one typed. -/
theorem mem_type {d : UInt8} (h : d ∈ (e.type c).text) : d ∈ e.text ∨ d = c ∧ Tty.Plain c := by
  unfold type at h
  split_ifs at h with h8 hend hfull
  · by_cases h0 : e.cursor = 0
    · have htext : e.backspace.text = e.text := if_pos h0
      exact .inl (htext ▸ h)
    · rw [backspace_text h0] at h
      rcases List.mem_append.1 h with h | h
      · exact .inl (List.mem_of_mem_take h)
      · exact .inl (List.mem_of_mem_drop h)
  · exact absurd h List.not_mem_nil
  · exact .inl h
  · rw [insert_text] at h
    simp only [List.mem_append, List.mem_cons] at h
    rcases h with h | rfl | h
    · exact .inl (List.mem_of_mem_take h)
    · exact .inr ⟨rfl, h8, not_or.1 hend⟩
    · exact .inl (List.mem_of_mem_drop h)

theorem mem_foldl_type {d : UInt8} (h : d ∈ (cs.foldl type e).text) :
    d ∈ e.text ∨ d ∈ cs ∧ Tty.Plain d := by
  induction cs generalizing e with
  | nil => exact .inl h
  | cons c cs ih =>
    rcases ih h with h | ⟨h, hd⟩
    · rcases mem_type h with h | ⟨rfl, hd⟩
      · exact .inl h
      · exact .inr ⟨List.mem_cons_self, hd⟩
    · exact .inr ⟨List.mem_cons_of_mem _ h, hd⟩

theorem type_length_le (hlen : e.text.length ≤ 129) : (e.type c).text.length ≤ 129 := by
  unfold type
  split_ifs with h8 hend hfull
  · by_cases h0 : e.cursor = 0
    · have htext : e.backspace.text = e.text := if_pos h0
      rwa [htext]
    · rw [backspace_text h0, List.length_append, List.length_take, List.length_drop]
      omega
  · exact Nat.zero_le _
  · exact hlen
  · rw [insert_length]
    omega

/-- Backspaces erase what is before the cursor, and nothing else. -/
theorem foldl_erase (hn : e.cursor ≤ n) :
    ((List.replicate n 8).foldl type e).text = e.text.drop e.cursor ∧
      ((List.replicate n 8).foldl type e).cursor = 0 := by
  induction n generalizing e with
  | zero =>
    have h0 : e.cursor = 0 := Nat.le_zero.1 hn
    exact ⟨by rw [h0]; rfl, h0⟩
  | succ n ih =>
    have hcursor : e.backspace.cursor = e.cursor - 1 := rfl
    have hstep : (List.replicate (n + 1) 8).foldl type e =
        (List.replicate n 8).foldl type e.backspace := rfl
    obtain ⟨h₁, h₂⟩ := ih (e := e.backspace) (by omega)
    rw [hstep]
    refine ⟨h₁.trans ?_, h₂⟩
    by_cases h0 : e.cursor = 0
    · have htext : e.backspace.text = e.text := if_pos h0
      rw [htext, hcursor, h0]
    · have hle := e.cursor_le
      have htake : (e.text.take (e.cursor - 1)).length = e.cursor - 1 := by
        rw [List.length_take]
        omega
      rw [hcursor, backspace_text h0, List.drop_append_of_le_length (Nat.le_of_eq htake.symm)]
      rw [List.drop_eq_nil_of_le (Nat.le_of_eq htake), List.nil_append]

/-- Characters that fit are inserted at the cursor. -/
theorem foldl_plain (hcs : ∀ c ∈ cs, Tty.Plain c) (hlen : e.text.length + cs.length ≤ 129) :
    (cs.foldl type e).text = e.text.take e.cursor ++ cs ++ e.text.drop e.cursor ∧
      (cs.foldl type e).cursor = e.cursor + cs.length := by
  induction cs generalizing e with
  | nil => exact ⟨by simp, rfl⟩
  | cons c cs ih =>
    rw [List.length_cons] at hlen
    have hle := e.cursor_le
    have hrest : ∀ c ∈ cs, Tty.Plain c := fun d hd => hcs d (List.mem_cons_of_mem _ hd)
    have hfirst : e.type c = e.insert c := type_plain (hcs c List.mem_cons_self) (by omega)
    obtain ⟨h₁, h₂⟩ := ih (e := e.insert c) hrest (by rw [insert_length]; omega)
    have hcursor : (e.insert c).cursor = e.cursor + 1 := rfl
    have htake : (e.text.take e.cursor).length = e.cursor := by
      rw [List.length_take]
      omega
    rw [List.foldl_cons, hfirst]
    constructor
    · have hprefix : (e.insert c).text =
          (e.text.take e.cursor ++ [c]) ++ e.text.drop e.cursor := by
        rw [insert_text, List.append_assoc]
        rfl
      have hsplit : (e.text.take e.cursor ++ [c]).length = e.cursor + 1 := by
        rw [List.length_append, htake]
        rfl
      rw [h₁, hcursor, hprefix, List.take_left' hsplit, List.drop_left' hsplit]
      simp
    · rw [h₂, hcursor, List.length_cons]
      omega

/-- Typed characters leave what is behind the cursor as it is. -/
theorem foldl_plain_behind (hcs : ∀ c ∈ cs, Tty.Plain c) (hlen : e.text.length ≤ 129) :
    (cs.foldl type e).text.length + e.cursor = e.text.length + (cs.foldl type e).cursor := by
  induction cs generalizing e with
  | nil => rfl
  | cons c cs ih =>
    have hrest : ∀ c ∈ cs, Tty.Plain c := fun d hd => hcs d (List.mem_cons_of_mem _ hd)
    have hc := hcs c List.mem_cons_self
    have hnext := ih (e := e.type c) hrest (type_length_le hlen)
    rw [List.foldl_cons]
    by_cases hfull : 128 < e.text.length
    · rwa [type_full hc hfull] at hnext ⊢
    · have hcursor : (e.insert c).cursor = e.cursor + 1 := rfl
      rw [type_plain hc (by omega), hcursor, insert_length] at hnext
      rw [type_plain hc (by omega)]
      omega

end Editor

/-! ### The row follows -/

namespace Represents

variable {e : Editor} {s : Tty} {c : UInt8} {cs : List UInt8}

/-- The text is determined by the row. -/
theorem eq_map (h : Represents e s) : e.text = (List.range s.bim).map s.key := by
  refine List.ext_getElem ?_ fun i hi _ => ?_
  · rw [List.length_map, List.length_range, h.length]
  · rw [List.getElem_map, List.getElem_range, ← h.text i hi]

theorem enter (hc : c = 10 ∨ c = 13) (hlt : s.bim ≤ 129) :
    Represents .empty (s.keyToTer c) := by
  obtain ⟨sc, hkey⟩ := Tty.keyToTer_enter_max (s := s) hc (by omega)
  rw [hkey]
  refine edit rfl rfl holds_nil fun i _ hi => ?_
  rw [Tty.stored_row, Tty.cleared_apply, if_neg (by omega), if_pos (by omega)]

theorem type (h : Represents e s) (hlen : e.text.length ≤ 129) :
    Represents (e.type c) (s.keyToTer c) := by
  have hbim : s.bim ≤ 129 := h.length ▸ hlen
  unfold Editor.type
  split_ifs with h8 hend hfull
  · exact h8 ▸ h.backspace hlen
  · exact enter hend hbim
  · rwa [Tty.keyToTer_full ⟨h8, not_or.1 hend⟩ (h.length ▸ hfull)]
  · exact h.insert ⟨h8, not_or.1 hend⟩ (Nat.le_of_not_lt hfull)

theorem foldl (h : Represents e s) (hlen : e.text.length ≤ 129) :
    Represents (cs.foldl Editor.type e) (cs.foldl Tty.keyToTer s) := by
  induction cs generalizing e s with
  | nil => exact h
  | cons c cs ih => exact ih (h.type hlen) (Editor.type_length_le hlen)

theorem touch (h : Represents e s) (r : ℕ) : Represents e (s.touch r) :=
  ⟨h.text, h.cursor, h.length, h.blank⟩

theorem setArrow (h : Represents e s) (a : ℕ) : Represents e (s.setArrow a) :=
  ⟨h.text, h.cursor, h.length, h.blank⟩

end Represents

/-- The row of the live terminal holds the text of some editor, with at most one character too
many. -/
def Edited (s : Tty) : Prop := ∃ e, Represents e s ∧ e.text.length ≤ 129

namespace Edited

variable {s s' : Tty} {c : UInt8} {cs : List UInt8} {n i : ℕ}

theorem key (h : Edited s) : Edited (s.keyToTer c) := by
  obtain ⟨e, he, hlen⟩ := h
  exact ⟨_, he.type hlen, Editor.type_length_le hlen⟩

theorem foldl (h : Edited s) : Edited (cs.foldl Tty.keyToTer s) := by
  induction cs generalizing s with
  | nil => exact h
  | cons c cs ih => exact ih h.key

theorem typeEntry (h : Edited s) : Edited (Tty.typeEntry n i s) := by
  induction n generalizing s i with
  | zero => exact h
  | succ n ih =>
    unfold Tty.typeEntry
    dsimp only
    split_ifs
    · exact h
    · exact ih h.key

theorem setArrow (h : Edited s) (a : ℕ) : Edited (s.setArrow a) :=
  let ⟨e, he, hlen⟩ := h
  ⟨e, he.setArrow a, hlen⟩

theorem step (h : Edited s) {ev : KeyEvent} (hst : ttyMachine.step s ev = some s') :
    Edited s' := by
  cases ev with
  | key c =>
    obtain rfl := Option.some.inj hst
    exact h.key
  | left =>
    obtain rfl := Option.some.inj hst
    obtain ⟨e, he, hlen⟩ := h
    exact ⟨_, he.left hlen, hlen⟩
  | right =>
    obtain rfl := Option.some.inj hst
    obtain ⟨e, he, hlen⟩ := h
    exact ⟨_, he.right hlen, hlen⟩
  | up =>
    obtain rfl := Option.some.inj hst
    unfold Tty.histUp
    dsimp only
    split_ifs
    · exact h
    · exact (h.setArrow _).foldl.typeEntry
  | down =>
    obtain rfl := Option.some.inj hst
    unfold Tty.histDown
    dsimp only
    split_ifs
    · exact h
    · exact (h.setArrow _).foldl
    · exact h.foldl
    · exact (h.setArrow _).foldl.typeEntry
  | tab =>
    obtain ⟨⟨cs, r⟩, -, hs'⟩ := Option.bind_eq_some_iff.1 hst
    obtain rfl := Option.some.inj hs'
    obtain ⟨e, he, hlen⟩ := h
    exact Edited.foldl ⟨e, he.touch r, hlen⟩

end Edited

theorem Fresh.represents {s : Tty} (h : Fresh s) : Represents .empty s where
  text := holds_nil
  cursor := h.bi
  length := h.bim
  blank i _ hi := h.blank i hi

/-- **Sessions edit a line.**  In every state of every session the row is the text of an editor. -/
theorem reachable_represents {s₀ s : Tty} (h₀ : Fresh s₀) (h : ttyMachine.Reachable s₀ s) :
    ∃ e, Represents e s ∧ e.text.length ≤ 129 :=
  h.invariant (I := Edited) ⟨_, h₀.represents, Nat.zero_le _⟩ fun _ _ _ hs _ hst => hs.step hst

end KTeamOS
