import KTeamOS.Terminal.Recall

/-!
# Sessions with their history

`ttySessionMachine` is the live terminal under the events of the keyboard, together with the lines
entered so far.  `Meets` is the purpose of the Up and Down keys.  The backspaces with which a recall
starts erase what is before the cursor only, so that the rest of the line stays behind the recalled
one, and a carriage return in an entry, which only a completed name can have put there, ends the
line: the keys meet their purpose along a session exactly if neither happens (`recalls_iff`).
-/

namespace KTeamOS

open KeyEvent

/-- The interrupt handler does not pass a NUL on. -/
def KeyEvent.FromKeyboard : KeyEvent → Prop
  | .key c => c ≠ 0
  | _ => True

/-- The events of the keyboard. -/
abbrev KeyboardEvent := {ev : KeyEvent // ev.FromKeyboard}

instance : (ev : KeyEvent) → Decidable ev.FromKeyboard
  | .key c => inferInstanceAs (Decidable (c ≠ 0))
  | .left | .right | .up | .down | .tab => isTrue trivial

/-- A terminal and the lines entered on it, the first one first. -/
structure TtySession where
  tty : Tty
  log : List (List UInt8)

/-- The live terminal under the events of the keyboard, with the lines that are entered. -/
def ttySessionMachine : Machine TtySession KeyboardEvent where
  step x ev := (ttyMachine.step x.tty ev.1).map fun s =>
    ⟨s, x.log ++ x.tty.endedLines (ev.1.typed x.tty)⟩

namespace TtySession

/-- What the Up and Down keys are for.  Of the last 31 lines, the Up key leads to the one before
that of `arrow_idx`, and the line becomes that line, with the cursor at its end; the Down key moves
`arrow_idx` back. -/
def Meets (x : TtySession) (ev : KeyboardEvent) : Prop :=
  let s := x.tty
  match ev.1 with
  | .up =>
    if s.depth < min 31 x.log.length then
      x.log.reverse[s.depth]? = some s.histUp.text ∧ s.histUp.bi = s.histUp.bim ∧
        s.histUp.depth = s.depth + 1 ∧
        s.histUp.arrowIdx s.termLive = (s.arrowIdx s.termLive + 31) % 32
    else s.histUp = s
  | .down =>
    if s.depth = 0 then s.histDown = s
    else s.histDown.depth = s.depth - 1 ∧
      s.histDown.arrowIdx s.termLive = (s.arrowIdx s.termLive + 1) % 32
  | _ => True

/-- At an Up with an older line to go to, the cursor is at the end of the line, and neither key
recalls an entry with a carriage return. -/
def AtEnd (x : TtySession) (ev : KeyboardEvent) : Prop :=
  let s := x.tty
  match ev.1 with
  | .up => s.depth < min 31 x.log.length →
      s.bi = s.bim ∧ 13 ∉ entry (s.slot (s.depth + 1)) bufMax 0
  | .down => 13 ∉ entry (s.slot (s.depth - 1)) bufMax 0
  | _ => True

instance (x : TtySession) : (ev : KeyboardEvent) → Decidable (x.AtEnd ev)
  | ⟨.up, _⟩ => inferInstanceAs (Decidable (x.tty.depth < min 31 x.log.length →
      x.tty.bi = x.tty.bim ∧ 13 ∉ entry (x.tty.slot (x.tty.depth + 1)) bufMax 0))
  | ⟨.down, _⟩ => inferInstanceAs (Decidable (13 ∉ entry (x.tty.slot (x.tty.depth - 1)) bufMax 0))
  | ⟨.key _, _⟩ | ⟨.left, _⟩ | ⟨.right, _⟩ | ⟨.tab, _⟩ => isTrue trivial

end TtySession

variable {e e' : Editor} {s s' s₀ : Tty} {log log' : List (List UInt8)} {cs : List UInt8} {k r : ℕ}

/-- A completion has no NUL. -/
theorem completion_ne_zero (h : s.completion = some (cs, r)) : ∀ c ∈ cs, c ≠ 0 := by
  unfold Tty.completion at h
  dsimp only at h
  rcases hcmp : Tty.tabCompare s.names fun i => s.key (s.wordStart s.bim + i) with ⟨- | name, j⟩
  · rw [hcmp] at h
    obtain ⟨rfl, -⟩ := Prod.mk.inj (Option.some.inj h)
    simp
  · rw [hcmp] at h
    obtain ⟨part, -, h⟩ := Option.bind_eq_some_iff.1 h
    obtain ⟨rfl, -⟩ := Prod.mk.inj (Option.some.inj h)
    rw [nameSize_eq, Nat.zero_add, map_range'_eq]
    rintro c hc rfl
    exact zero_notMem_field (List.mem_of_mem_drop hc)

namespace Tracks

/-- The line after a recall: the recalled one, if the cursor was at the end. -/
theorem recalled_line (h : Tracks e s log) (hl : ∀ c ∈ recorded log k, Typed c)
    (hlen : (recorded log k).length ≤ 129)
    (he' : e' = (List.replicate bufMax 8 ++ recorded log k).foldl Editor.type e) :
    e'.text = recorded log k ∧ e'.cursor = e'.text.length ↔ e.cursor = e.text.length := by
  have hle := e.cursor_le
  have hlength := h.length_le
  obtain ⟨htext, hcursor⟩ := Editor.foldl_erase (e := e) (n := bufMax) (Nat.le_trans hle hlength)
  have hplain : ∀ c ∈ recorded log k, Tty.Plain c := fun c hc => (hl c hc).2
  have hdrop : (e.text.drop e.cursor).length = e.text.length - e.cursor := List.length_drop
  rw [List.foldl_append] at he'
  subst he'
  generalize (List.replicate bufMax 8).foldl Editor.type e = e₁ at htext hcursor
  rw [← htext] at hdrop
  have hbehind := Editor.foldl_plain_behind hplain (e := e₁) (by omega)
  constructor
  · rintro ⟨-, hend⟩
    omega
  · intro hend
    have hnil : e₁.text = [] := List.length_eq_zero_iff.1 (by omega)
    obtain ⟨h₁, h₂⟩ := Editor.foldl_plain hplain (e := e₁) (by rw [hnil]; simpa using hlen)
    rw [hnil, List.take_nil, List.drop_nil, List.nil_append, List.append_nil] at h₁
    rw [h₁, h₂, hcursor, Nat.zero_add]
    exact ⟨rfl, rfl⟩

theorem left (h : Tracks e s log) : Tracks e.left s.moveLeft log := by
  have hbi := h.row.bi_le
  have hbim : s.bim ≤ 129 := h.row.length ▸ h.length_le
  refine ⟨h.row.left h.length_le, h.length_le, h.chars, ?_, h.lines⟩
  obtain ⟨sc, hmove⟩ := Tty.moveLeft_eq (s := s) (by omega)
  rw [hmove]
  exact h.ring.congr rfl rfl rfl rfl

theorem right (h : Tracks e s log) : Tracks e.right s.moveRight log := by
  have hbim : s.bim ≤ 129 := h.row.length ▸ h.length_le
  refine ⟨h.row.right h.length_le, h.length_le, h.chars, ?_, h.lines⟩
  obtain ⟨sc, hmove⟩ := Tty.moveRight_eq h.row.bi_le (by omega)
  rw [hmove]
  exact h.ring.congr rfl rfl rfl rfl

theorem touch (h : Tracks e s log) : Tracks e (s.touch r) log :=
  ⟨h.row.touch r, h.length_le, h.chars, h.ring.congr rfl rfl rfl rfl, h.lines⟩

/-- The lines that characters end are those of the editor. -/
theorem endedLines_congr (h : Tracks e s log) (h' : Tracks e s' log') (hcs : ∀ c ∈ cs, c ≠ 0) :
    s.endedLines cs = s'.endedLines cs := by
  induction cs generalizing e s s' log log' with
  | nil => rfl
  | cons c cs ih =>
    have hc := hcs c List.mem_cons_self
    rw [Tty.endedLines, Tty.endedLines, Tty.endedLine, Tty.endedLine, h.text_eq, h'.text_eq,
      ih (h.key hc) (h'.key hc) fun d hd => hcs d (List.mem_cons_of_mem _ hd)]

/-- A recall without a carriage return enters nothing. -/
theorem recall_log (h : Tracks e s log) (hk : k < 32) (hle : k ≤ log.length)
    (h13 : 13 ∉ entry (s.slot k) bufMax 0) :
    ∃ e', Tracks e' (s.recallSlot k) (log ++ s.endedLines (recalled (s.slot k))) := by
  rw [endedLines_nil (recalled_ends_none h13), List.append_nil]
  exact ⟨_, (h.recallSlot hk hle h13).1⟩

/-- A step that meets its condition keeps track. -/
theorem step {x x' : TtySession} {ev : KeyboardEvent}
    (h : Tracks e x.tty x.log) (hend : x.AtEnd ev) (hst : ttySessionMachine.step x ev = some x') :
    ∃ e', Tracks e' x'.tty x'.log := by
  obtain ⟨s', hstep, rfl⟩ := Option.map_eq_some_iff.1 hst
  obtain ⟨ev, hev⟩ := ev
  cases ev with
  | key c =>
    obtain rfl := Option.some.inj hstep
    have hc : ∀ d ∈ [c], d ≠ 0 := by
      rintro d hd
      obtain rfl := List.mem_singleton.1 hd
      exact hev
    exact ⟨_, h.foldl hc⟩
  | left =>
    obtain rfl := Option.some.inj hstep
    exact ⟨_, (List.append_nil x.log).symm ▸ h.left⟩
  | right =>
    obtain rfl := Option.some.inj hstep
    exact ⟨_, (List.append_nil x.log).symm ▸ h.right⟩
  | up =>
    obtain rfl := Option.some.inj hstep
    have hcond := show x.tty.depth < min 31 x.log.length → _ from hend
    dsimp only
    rw [h.histUp_eq, h.typed_up]
    by_cases hold : x.tty.depth < min 31 x.log.length
    · rw [if_pos hold, if_pos hold]
      exact h.recall_log (by omega) (by omega) (hcond hold).2
    · rw [if_neg hold, if_neg hold]
      exact ⟨e, (List.append_nil x.log).symm ▸ h⟩
  | down =>
    obtain rfl := Option.some.inj hstep
    have hlt := depth_lt (s := x.tty)
    have hle := h.ring.depth_le
    dsimp only
    rw [h.histDown_eq, h.typed_down]
    by_cases hd : x.tty.depth = 0
    · rw [if_pos hd, if_pos hd]
      exact ⟨e, (List.append_nil x.log).symm ▸ h⟩
    · rw [if_neg hd, if_neg hd]
      exact h.recall_log (by omega) (by omega) hend
  | tab =>
    obtain ⟨⟨cs, r⟩, hcompletion, hs'⟩ := Option.bind_eq_some_iff.1 hstep
    obtain rfl := Option.some.inj hs'
    have hcs := completion_ne_zero hcompletion
    have htyped : KeyEvent.tab.typed x.tty = cs := by
      rw [KeyEvent.typed, hcompletion]
      rfl
    have hfold := (h.touch (r := r)).foldl hcs
    dsimp only
    rw [htyped, h.endedLines_congr (h.touch (r := r)) hcs]
    exact ⟨_, hfold⟩

/-- **The purpose of a step** is met exactly under its condition. -/
theorem meets_iff {x : TtySession} {ev : KeyboardEvent}
    (h : Tracks e x.tty x.log) : x.Meets ev ↔ x.AtEnd ev := by
  have hhist := h.ring.histIdx_lt
  have hlt := depth_lt (s := x.tty)
  have hle := h.ring.depth_le
  have harrow := h.arrowIdx_eq
  obtain ⟨ev, hev⟩ := ev
  cases ev with
  | key c => exact Iff.rfl
  | left => exact Iff.rfl
  | right => exact Iff.rfl
  | tab => exact Iff.rfl
  | up =>
    unfold TtySession.Meets TtySession.AtEnd
    dsimp only
    by_cases hold : x.tty.depth < min 31 x.log.length
    · rw [if_pos hold, h.histUp_eq, if_pos hold, forall_prop_of_true hold]
      by_cases h13 : 13 ∈ entry (x.tty.slot (x.tty.depth + 1)) bufMax 0
      · have hback := (h.recall_return (by omega) (by omega) h13).1
        exact iff_of_false (fun hmeets => by omega) fun hend => hend.2 h13
      · obtain ⟨hline, htyped⟩ := h.entry_eq (by omega) h13
        have hlen : (recorded x.log (x.tty.depth + 1)).length ≤ 129 := hline ▸ entry_length_le
        obtain ⟨htracks, hdepth, hidx⟩ := h.recallSlot (by omega) (by omega) h13
        have hnow := h.recalled_line htyped hlen rfl
        have holder : x.log.reverse[x.tty.depth]? =
            some (recorded x.log (x.tty.depth + 1)) := by
          have hin : x.tty.depth < x.log.reverse.length := by rw [List.length_reverse]; omega
          rw [recorded_succ, List.getD_eq_getElem _ _ hin, List.getElem?_eq_getElem hin]
        rw [holder, htracks.text_eq, htracks.row.cursor, htracks.row.length, h.row.cursor,
          h.row.length, ← hnow, Option.some.injEq]
        exact ⟨fun hmeets => ⟨⟨hmeets.1.symm, hmeets.2.1⟩, h13⟩,
          fun hend => ⟨hend.1.1.symm, hend.1.2, hdepth, by omega⟩⟩
    · rw [if_neg hold, h.histUp_eq, if_neg hold]
      exact iff_of_true rfl fun hold' => absurd hold' hold
  | down =>
    unfold TtySession.Meets TtySession.AtEnd
    dsimp only
    by_cases hd : x.tty.depth = 0
    · rw [if_pos hd, h.histDown_eq, if_pos hd, hd]
      have hstop : entry (x.tty.slot 0) bufMax 0 = [] := if_pos (.inl h.blank)
      exact iff_of_true rfl (by rw [hstop]; exact List.not_mem_nil)
    · rw [if_neg hd, h.histDown_eq, if_neg hd]
      by_cases h13 : 13 ∈ entry (x.tty.slot (x.tty.depth - 1)) bufMax 0
      · have hback := h.recall_return (by omega) (by omega) h13
        exact iff_of_false (fun hmeets => by omega) fun hend => hend h13
      · obtain ⟨-, hdepth, hidx⟩ := h.recallSlot (k := x.tty.depth - 1) (by omega) (by omega) h13
        exact iff_of_true ⟨hdepth, by omega⟩ h13

end Tracks

/-- A session that starts on a fresh terminal. -/
theorem Fresh.tracks (h : Fresh s) (hidx : s.histIdx s.termLive < 32)
    (harrow : s.arrowIdx s.termLive = s.histIdx s.termLive) : Tracks .empty s [] := by
  have hzero : s.depth = 0 := by
    rw [Tty.depth, harrow, Nat.add_sub_cancel_left]
  refine ⟨h.represents, Nat.zero_le _, by simp [Editor.empty],
    ⟨hidx, harrow ▸ hidx, fun k _ => ?_, Nat.le_of_eq hzero⟩, by simp⟩
  have hblank : s.slot k 0 = 0 := h.history _ 0
  have hnil : recorded [] k = [] := by
    cases k <;> rfl
  have hstop : entry (s.slot k) 129 0 = [] := if_pos (.inl hblank)
  rw [hnil]
  exact ⟨fun _ => hstop, iff_of_true hblank rfl⟩

/-- **Recalling lines.**  In a session on a fresh terminal, every Up with an older line to go to
replaces the line by it, and every Down moves back, exactly if at every such Up the cursor is at the
end of the line, and no recalled entry has a carriage return. -/
theorem recalls_iff (h₀ : Fresh s₀) (hidx : s₀.histIdx s₀.termLive < 32)
    (harrow : s₀.arrowIdx s₀.termLive = s₀.histIdx s₀.termLive)
    (evs : List KeyboardEvent) :
    ttySessionMachine.Steps TtySession.Meets ⟨s₀, []⟩ evs ↔
      ttySessionMachine.Steps TtySession.AtEnd ⟨s₀, []⟩ evs :=
  Machine.steps_iff_steps (I := fun x => ∃ e, Tracks e x.tty x.log)
    (fun _ _ _ hx _ => hx.elim fun _ h => h.meets_iff)
    (fun _ _ _ hx hend hst => hx.elim fun _ h => h.step hend hst)
    ⟨_, h₀.tracks hidx harrow⟩ evs

/-- A terminal after boot. -/
def bootTty : Tty := .boot 0 ⟨0, fun _ _ => 0⟩ .boot

theorem recalls_boot : ttySessionMachine.Steps TtySession.Meets ⟨bootTty, []⟩
    [⟨.key 97, by decide⟩, ⟨.key 10, by decide⟩, ⟨.up, trivial⟩, ⟨.down, trivial⟩] :=
  (recalls_iff (fresh_boot (by decide) _ _) (by decide) rfl _).2 (by decide +kernel)

/-- The line `b`, with the cursor before it, becomes `ab`. -/
theorem not_recalls : ¬ ∀ s₀ evs, Fresh s₀ → s₀.histIdx s₀.termLive = 0 →
    s₀.arrowIdx s₀.termLive = 0 → ttySessionMachine.Steps TtySession.Meets ⟨s₀, []⟩ evs := by
  intro h
  have hexec : (ttySessionMachine.exec ⟨bootTty, []⟩ [⟨.key 97, by decide⟩, ⟨.key 10, by decide⟩,
      ⟨.key 98, by decide⟩, ⟨.left, trivial⟩]).map (fun x =>
        (x.tty.depth, x.log.length, x.tty.histUp.bi, x.tty.histUp.bim)) = some (0, 1, 1, 2) := by
    decide +kernel
  obtain ⟨x, hx, hview⟩ := Option.map_eq_some_iff.1 hexec
  simp only [Prod.mk.injEq] at hview
  have hmeets := (h bootTty ([⟨.key 97, by decide⟩, ⟨.key 10, by decide⟩, ⟨.key 98, by decide⟩,
    ⟨.left, trivial⟩] ++ [⟨.up, trivial⟩]) (fresh_boot (by decide) _ _) rfl rfl).last hx rfl
  have hup := (if_pos (by omega)).mp hmeets
  omega

end KTeamOS
