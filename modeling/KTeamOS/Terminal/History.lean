import Mathlib.Data.List.GetD
import KTeamOS.Terminal.Completion

/-!
# The ring of entered lines

`history` keeps the last lines of a terminal in 32 slots, of which the one at `hist_idx` is blank.
`Ring s log` says that, from there backwards, the slots record the lines of `log`, the last one
first, and that `arrow_idx` is `depth` slots behind.  `Tracks e s log` is the invariant of a session
that has entered the lines `log` and now edits `e`; typing keeps it (`Tracks.foldl`).

## Main definitions

* `Tty.slot`, `Tty.depth` : the slots behind `hist_idx`, and where `arrow_idx` is among them.
* `Tty.endedLines` : the lines that typed characters end.
* `Tracks` : the invariant.
-/

namespace KTeamOS

open Buffer KeyEvent

namespace Tty

/-- The slot of the history that is `k` places behind `hist_idx`. -/
def slot (s : Tty) (k : ℕ) : ℕ → UInt8 :=
  s.history s.termLive ((s.histIdx s.termLive + 32 - k) % 32)

/-- How far `arrow_idx` is behind `hist_idx`. -/
def depth (s : Tty) : ℕ := (s.histIdx s.termLive + 32 - s.arrowIdx s.termLive) % 32

/-- The line of the live terminal. -/
def text (s : Tty) : List UInt8 := (List.range s.bim).map s.key

/-- The line that the character `c` ends: an empty one is not kept, and a carriage return is the
last character of its line, as far as a slot has room. -/
def endedLine (s : Tty) (c : UInt8) : List (List UInt8) :=
  if c = 13 then [(s.text ++ [13]).take bufMax]
  else if c = 10 ∧ s.text ≠ [] then [s.text]
  else []

/-- The lines that typed characters end. -/
def endedLines (s : Tty) : List UInt8 → List (List UInt8)
  | [] => []
  | c :: cs => s.endedLine c ++ endedLines (s.keyToTer c) cs

end Tty

/-- What the slots record: nothing at `hist_idx`, and then the lines, the last one first. -/
def recorded (log : List (List UInt8)) (k : ℕ) : List UInt8 := ([] :: log.reverse).getD k []

/-- The slot `h` records the line `l`, if it can be recalled without ending it. -/
structure Records (h : ℕ → UInt8) (l : List UInt8) : Prop where
  entry : 13 ∉ entry h 129 0 → entry h 129 0 = l
  blank : h 0 = 0 ↔ l = []

/-- The history records the lines `log`, as far as it has slots. -/
structure Ring (s : Tty) (log : List (List UInt8)) : Prop where
  histIdx_lt : s.histIdx s.termLive < 32
  arrowIdx_lt : s.arrowIdx s.termLive < 32
  slots : ∀ k < 32, Records (s.slot k) (recorded log k)
  depth_le : s.depth ≤ log.length

/-- A character of the keyboard that is left in a line. -/
def Typed (c : UInt8) : Prop := c ≠ 0 ∧ Tty.Plain c

/-- The terminal has entered the lines `log`, and now edits `e`. -/
structure Tracks (e : Editor) (s : Tty) (log : List (List UInt8)) : Prop where
  row : Represents e s
  length_le : e.text.length ≤ 129
  chars : ∀ c ∈ e.text, Typed c
  ring : Ring s log
  lines : ∀ l ∈ log, l ≠ [] ∧ ∀ c ∈ l, c = 13 ∨ Typed c

variable {e : Editor} {s s' : Tty} {log : List (List UInt8)} {l cs : List UInt8} {c : UInt8}
  {h : ℕ → UInt8} {n i j k : ℕ}

/-! ### Entries -/

/-- The entry of a slot that starts with the characters `l`. -/
theorem entry_append (hl : ∀ c ∈ l, Typed c) (hn : l.length ≤ n)
    (hchar : ∀ j (hj : j < l.length), h (i + j) = l[j]) :
    entry h n i = l ++ entry h (n - l.length) (i + l.length) := by
  induction l generalizing n i with
  | nil => rfl
  | cons c l ih =>
    obtain ⟨n, rfl⟩ : ∃ m, n = m + 1 := ⟨n - 1, by simp only [List.length_cons] at hn; omega⟩
    have hc : h i = c := hchar 0 (Nat.succ_pos _)
    have htyped := hl c List.mem_cons_self
    have hgo : ¬ (h i = 0 ∨ h i = 10) := by
      rw [hc]
      exact not_or.2 ⟨htyped.1, htyped.2.2.1⟩
    have hrest : entry h n (i + 1) = l ++ entry h (n - l.length) (i + 1 + l.length) := by
      refine ih (fun c hc => hl c (List.mem_cons_of_mem _ hc)) (Nat.le_of_succ_le_succ hn)
        fun j hj => ?_
      rw [Nat.add_right_comm]
      exact hchar (j + 1) (Nat.succ_lt_succ hj)
    rw [entry, if_neg hgo, hrest, hc, List.length_cons, Nat.add_sub_add_right, Nat.add_right_comm,
      Nat.add_assoc]
    rfl

theorem entry_length_le : (entry h n i).length ≤ n := by
  induction n generalizing i with
  | zero => exact Nat.le_refl _
  | succ n ih =>
    rw [entry]
    split_ifs
    · exact Nat.zero_le _
    · exact Nat.succ_le_succ ih

theorem mem_entry (hc : c ∈ entry h n i) : c ≠ 0 ∧ c ≠ 10 := by
  induction n generalizing i with
  | zero => exact absurd hc List.not_mem_nil
  | succ n ih =>
    rw [entry] at hc
    split_ifs at hc with hstop
    · exact absurd hc List.not_mem_nil
    · rcases List.mem_cons.1 hc with rfl | hc
      · exact not_or.1 hstop
      · exact ih hc

@[simp] theorem recorded_zero : recorded log 0 = [] := rfl

theorem recorded_succ : recorded log (k + 1) = log.reverse.getD k [] := rfl

/-- A new line moves all others back by one slot. -/
theorem recorded_append : recorded (log ++ [l]) (k + 1) = if k = 0 then l else recorded log k := by
  rw [recorded_succ, List.reverse_append]
  cases k with
  | zero => rfl
  | succ k => rfl

theorem recorded_eq_nil_iff (hl : ∀ l ∈ log, l ≠ []) : recorded log k = [] ↔
    k = 0 ∨ log.length < k := by
  cases k with
  | zero => simp
  | succ k =>
    rw [recorded_succ]
    by_cases hk : k < log.reverse.length
    · have hmem := hl _ (List.mem_reverse.1 (List.getElem_mem hk))
      rw [List.getD_eq_getElem _ _ hk]
      rw [List.length_reverse] at hk
      exact iff_of_false hmem (by omega)
    · rw [List.getD_eq_default _ _ (Nat.le_of_not_lt hk)]
      rw [List.length_reverse] at hk
      exact iff_of_true rfl (by omega)

theorem mem_recorded (hl : ∀ l ∈ log, l ≠ [] ∧ ∀ c ∈ l, c = 13 ∨ Typed c)
    (hc : c ∈ recorded log k) : c = 13 ∨ Typed c := by
  cases k with
  | zero => exact absurd hc List.not_mem_nil
  | succ k =>
    rw [recorded_succ] at hc
    by_cases hk : k < log.reverse.length
    · rw [List.getD_eq_getElem _ _ hk] at hc
      exact (hl _ (List.mem_reverse.1 (List.getElem_mem hk))).2 c hc
    · rw [List.getD_eq_default _ _ (Nat.le_of_not_lt hk)] at hc
      exact absurd hc List.not_mem_nil

/-! ### Where the history stays -/

/-- What the ring depends on. -/
theorem Ring.congr (hr : Ring s log) (hh : s'.history = s.history) (hi : s'.histIdx = s.histIdx)
    (ha : s'.arrowIdx = s.arrowIdx) (ht : s'.termLive = s.termLive) : Ring s' log where
  histIdx_lt := by rw [hi, ht]; exact hr.histIdx_lt
  arrowIdx_lt := by rw [ha, ht]; exact hr.arrowIdx_lt
  slots k hk := by rw [Tty.slot, hh, hi, ht]; exact hr.slots k hk
  depth_le := by rw [Tty.depth, hi, ha, ht]; exact hr.depth_le

theorem Ring.key (hr : Ring s log) (hc : ¬ (c = 10 ∨ c = 13)) : Ring (s.keyToTer c) log := by
  obtain ⟨hh, ha, ht⟩ := Tty.keyToTer_history (s := s) hc
  exact hr.congr hh (Tty.keyToTer_histIdx hc) ha ht

/-! ### The end of a line -/

/-- The slots after a new line. -/
theorem slot_remember {b : ℕ → UInt8} (hlt : s.histIdx s.termLive < 32) (hk : k < 32) :
    (Tty.remember { s with keyBuf := b }).slot k =
      if k = 0 then fill (s.slot 31) 0 0 129
      else if k = 1 then copy (s.slot 0) 0 b s.row 129 else s.slot (k - 1) := by
  have h₁ : (s.histIdx s.termLive + 1) % 32 ≠ s.histIdx s.termLive := by omega
  simp only [Tty.slot, Tty.remember, Function.update_self]
  by_cases h0 : k = 0
  · rw [if_pos h0, h0, show ((s.histIdx s.termLive + 1) % 32 + 32 - 0) % 32 =
      (s.histIdx s.termLive + 1) % 32 by omega, Function.update_self, Function.update_of_ne h₁,
      show (s.histIdx s.termLive + 32 - 31) % 32 = (s.histIdx s.termLive + 1) % 32 by omega]
  · rw [if_neg h0, Function.update_of_ne (by omega)]
    by_cases hone : k = 1
    · rw [if_pos hone, hone, show ((s.histIdx s.termLive + 1) % 32 + 32 - 1) % 32 =
        s.histIdx s.termLive by omega, Function.update_self,
        show (s.histIdx s.termLive + 32 - 0) % 32 = s.histIdx s.termLive by omega]
    · rw [if_neg hone, Function.update_of_ne (by omega),
        show ((s.histIdx s.termLive + 1) % 32 + 32 - k) % 32 =
          (s.histIdx s.termLive + 32 - (k - 1)) % 32 by omega]

/-- The slot of a line that has just been ended. -/
theorem records_ended (hrow : Represents e s) (hlen : e.text.length ≤ 129)
    (hchars : ∀ c ∈ e.text, Typed c)
    (hl : c = 13 ∧ l = (e.text ++ [13]).take 129 ∨ c = 10 ∧ e.text ≠ [] ∧ l = e.text) :
    Records (copy h 0 (s.ended c) s.row 129) l := by
  have hbim := hrow.length
  have hcopy : ∀ j < 129, copy h 0 (s.ended c) s.row 129 (0 + j) = s.ended c (s.row + j) := by
    intro j hj
    rw [copy_apply, if_pos (by omega), show s.row + (0 + j - 0) = s.row + j by omega]
  have hchar : ∀ j (hj : j < e.text.length),
      copy h 0 (s.ended c) s.row 129 (0 + j) = e.text[j] := by
    intro j hj
    rw [hcopy j (by omega), Tty.ended, Function.update_of_ne (by omega)]
    exact hrow.text j hj
  have hlast : e.text.length < 129 →
      copy h 0 (s.ended c) s.row 129 (0 + e.text.length) = c := by
    intro hlt
    rw [hcopy _ hlt, ← hbim, Tty.ended, Function.update_self]
  have hentry := entry_append hchars hlen hchar
  constructor
  · intro hkeep
    rw [hentry] at hkeep ⊢
    cases hroom : 129 - e.text.length with
    | zero =>
      -- a full line is kept without what has ended it
      rw [entry, List.append_nil]
      rcases hl with ⟨-, rfl⟩ | ⟨-, -, rfl⟩
      · exact (List.take_left' (by omega)).symm
      · rfl
    | succ n =>
      rw [hroom, entry, hlast (by omega)] at hkeep
      rw [entry, hlast (by omega)]
      rcases hl with ⟨rfl, -⟩ | ⟨rfl, -, rfl⟩
      · exact absurd (by simp) hkeep
      · exact List.append_nil _
  · refine iff_of_false (fun h0 => ?_) ?_
    · by_cases hnil : e.text = []
      · have hstart := hlast (by simp [hnil])
        rw [hnil, List.length_nil, Nat.zero_add, h0] at hstart
        rcases hl with ⟨rfl, -⟩ | ⟨-, hnonempty, -⟩
        · exact absurd hstart (by decide)
        · exact hnonempty hnil
      · have hpos : 0 < e.text.length := List.length_pos_of_ne_nil hnil
        exact (hchars _ (List.getElem_mem hpos)).1 ((hchar 0 hpos).symm.trans h0)
    · rcases hl with ⟨-, rfl⟩ | ⟨-, hnonempty, rfl⟩
      · simp
      · exact hnonempty

/-- A new line puts `arrow_idx` back to `hist_idx`. -/
theorem depth_remember {b : ℕ → UInt8} : (Tty.remember { s with keyBuf := b }).depth = 0 := by
  change (Function.update s.histIdx s.termLive ((s.histIdx s.termLive + 1) % 32) s.termLive + 32 -
    Function.update s.arrowIdx s.termLive ((s.histIdx s.termLive + 1) % 32) s.termLive) % 32 = 0
  rw [Function.update_self, Function.update_self, Nat.add_sub_cancel_left]

theorem Ring.remember {b : ℕ → UInt8} (hr : Ring s log)
    (hl : Records (copy (s.slot 0) 0 b s.row 129) l) :
    Ring (Tty.remember { s with keyBuf := b }) (log ++ [l]) := by
  have hidx : (Tty.remember { s with keyBuf := b }).histIdx s.termLive =
      (s.histIdx s.termLive + 1) % 32 := Function.update_self ..
  have harrow : (Tty.remember { s with keyBuf := b }).arrowIdx s.termLive =
      (s.histIdx s.termLive + 1) % 32 := Function.update_self ..
  refine ⟨?_, ?_, fun k hk => ?_, ?_⟩
  · exact hidx ▸ Nat.mod_lt _ (by decide)
  · exact harrow ▸ Nat.mod_lt _ (by decide)
  · rw [slot_remember hr.histIdx_lt hk]
    cases k with
    | zero =>
      rw [if_pos rfl]
      have hblank : fill (s.slot 31) 0 0 129 0 = 0 := fill_apply.trans (if_pos (by omega))
      have hstop : entry (fill (s.slot 31) 0 0 129) 129 0 = [] := if_pos (.inl hblank)
      exact ⟨fun _ => hstop, iff_of_true hblank rfl⟩
    | succ k =>
      rw [if_neg (Nat.succ_ne_zero k), recorded_append, Nat.add_sub_cancel]
      by_cases hk0 : k = 0
      · rwa [if_pos (by omega), if_pos hk0]
      · rw [if_neg (by omega), if_neg hk0]
        exact hr.slots k (by omega)
  · rw [depth_remember]
    exact Nat.zero_le _

/-! ### Typing -/

theorem endedLine_nil (hc : ¬ (c = 10 ∨ c = 13)) : s.endedLine c = [] := by
  rw [Tty.endedLine, if_neg fun h => hc (.inr h), if_neg fun h => hc (.inl h.1)]

theorem endedLines_nil (hcs : ∀ c ∈ cs, ¬ (c = 10 ∨ c = 13)) : s.endedLines cs = [] := by
  induction cs generalizing s with
  | nil => rfl
  | cons c cs ih =>
    rw [Tty.endedLines, endedLine_nil (hcs c List.mem_cons_self),
      ih fun d hd => hcs d (List.mem_cons_of_mem _ hd)]
    rfl

namespace Tracks

theorem text_eq (h : Tracks e s log) : s.text = e.text := h.row.eq_map.symm

/-- The line that a character ends, if it does. -/
theorem endedLine_cases (h : Tracks e s log) (hc : c = 10 ∨ c = 13) :
    (s.remembered c = { s with keyBuf := s.ended c } ∧ s.endedLine c = []) ∨
    ∃ l, s.remembered c = Tty.remember { s with keyBuf := s.ended c } ∧ s.endedLine c = [l] ∧
      (c = 13 ∧ l = (e.text ++ [13]).take 129 ∨ c = 10 ∧ e.text ≠ [] ∧ l = e.text) := by
  have hbim := h.row.length
  have hfirst : s.ended c (s.row + 0) = e.text.headD c := by
    cases htext : e.text with
    | nil =>
      have h0 : s.bim = 0 := by rw [hbim, htext]; rfl
      rw [Tty.ended, h0, Function.update_self]
      rfl
    | cons d l =>
      have hpos : 0 < e.text.length := by rw [htext]; exact Nat.succ_pos _
      have hd := h.row.text 0 hpos
      simp only [htext, List.getElem_cons_zero] at hd
      rw [Tty.ended, Function.update_of_ne (by omega)]
      exact hd
  have hcommit : s.remembered c = if e.text.headD c ≠ 0 ∧ e.text.headD c ≠ 10 then
      Tty.remember { s with keyBuf := s.ended c } else { s with keyBuf := s.ended c } := by
    rw [Tty.remembered, Tty.commit, ← hfirst]
  rw [hcommit, Tty.endedLine, h.text_eq]
  cases htext : e.text with
  | nil =>
    rcases hc with rfl | rfl
    · exact .inl ⟨if_neg (by simp), by simp⟩
    · exact .inr ⟨[13], if_pos (by decide), rfl, .inl ⟨rfl, rfl⟩⟩
  | cons d l =>
    have htyped := h.chars d (by rw [htext]; exact List.mem_cons_self)
    have hkeep : (d :: l).headD c ≠ 0 ∧ (d :: l).headD c ≠ 10 := ⟨htyped.1, htyped.2.2.1⟩
    rcases hc with rfl | rfl
    · exact .inr ⟨d :: l, if_pos hkeep, by simp, .inr ⟨rfl, by simp, rfl⟩⟩
    · exact .inr ⟨(d :: l ++ [13]).take 129, if_pos hkeep, rfl, .inl ⟨rfl, rfl⟩⟩

theorem enter (h : Tracks e s log) (hc : c = 10 ∨ c = 13) :
    Tracks .empty (s.keyToTer c) (log ++ s.endedLine c) ∧
      (s.depth = 0 ∨ c = 13 → (s.keyToTer c).depth = 0) := by
  have hbim : s.bim ≤ 129 := h.row.length ▸ h.length_le
  obtain ⟨h₁, h₂, h₃, h₄⟩ := Tty.keyToTer_remembered (s := s) hc (by omega)
  have hrow : Represents .empty (s.keyToTer c) := Represents.enter hc hbim
  have hring : ∀ {log'}, Ring (s.remembered c) log' → Ring (s.keyToTer c) log' :=
    fun hr => hr.congr h₁ h₂ h₃ h₄
  have hdepth : (s.keyToTer c).depth = (s.remembered c).depth := by
    rw [Tty.depth, Tty.depth, h₂, h₃, h₄]
  rcases h.endedLine_cases hc with ⟨hremembered, hnil⟩ | ⟨l, hremembered, hl, hline⟩
  · rw [hremembered] at hring hdepth
    rw [hnil, List.append_nil]
    refine ⟨⟨hrow, Nat.zero_le _, by simp [Editor.empty], hring (h.ring.congr rfl rfl rfl rfl),
      h.lines⟩, ?_⟩
    rintro (hzero | rfl)
    · exact hdepth.trans hzero
    · exact absurd hnil (by simp [Tty.endedLine])
  · rw [hremembered] at hring hdepth
    rw [hl]
    refine ⟨⟨hrow, Nat.zero_le _, by simp [Editor.empty],
      hring (h.ring.remember (records_ended h.row h.length_le h.chars hline)), ?_⟩,
      fun _ => hdepth.trans depth_remember⟩
    intro l' hl'
    rcases List.mem_append.1 hl' with hl' | hl'
    · exact h.lines l' hl'
    · obtain rfl := List.mem_singleton.1 hl'
      rcases hline with ⟨-, rfl⟩ | ⟨-, hne, rfl⟩
      · refine ⟨by simp, fun d hd => ?_⟩
        rcases List.mem_append.1 (List.mem_of_mem_take hd) with hd | hd
        · exact .inr (h.chars d hd)
        · exact .inl (List.mem_singleton.1 hd)
      · exact ⟨hne, fun d hd => .inr (h.chars d hd)⟩

/-- One character. -/
theorem key (h : Tracks e s log) (hc : c ≠ 0) :
    Tracks (e.type c) (s.keyToTer c) (log ++ s.endedLine c) := by
  by_cases hend : c = 10 ∨ c = 13
  · have htype : e.type c = .empty := by
      rw [Editor.type, if_neg (by rintro rfl; revert hend; decide), if_pos hend]
    rw [htype]
    exact (h.enter hend).1
  · rw [endedLine_nil hend, List.append_nil]
    refine ⟨h.row.type h.length_le, Editor.type_length_le h.length_le, fun d hd => ?_,
      h.ring.key hend, h.lines⟩
    rcases Editor.mem_type hd with hd | ⟨rfl, hplain⟩
    · exact h.chars d hd
    · exact ⟨hc, hplain⟩

/-- Several characters. -/
theorem foldl (h : Tracks e s log) (hcs : ∀ c ∈ cs, c ≠ 0) :
    Tracks (cs.foldl Editor.type e) (cs.foldl Tty.keyToTer s) (log ++ s.endedLines cs) := by
  induction cs generalizing e s log with
  | nil =>
    rw [Tty.endedLines, List.append_nil]
    exact h
  | cons c cs ih =>
    have hrest := ih (h.key (hcs c List.mem_cons_self)) fun d hd =>
      hcs d (List.mem_cons_of_mem _ hd)
    rw [Tty.endedLines, ← List.append_assoc]
    exact hrest

end Tracks

end KTeamOS
