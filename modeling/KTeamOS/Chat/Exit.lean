import KTeamOS.Chat.Conversation

/-!
# Leaving a conversation

A user leaves with the line "exit".  At the end of a line the program looks for that word in
`buf4`, which holds the last line that arrived, and not in `buf3`, which holds the one that was
typed: the user who types "exit" goes on, and the one who answers it leaves.  At the first line
`buf4` is still as it was at the start of `main`.

## Main definitions

* `ExitsRight c l` : a program that has sent a line returns exactly if that line is "exit", and
  the other program follows it (`Follows`).
* `SendsExit g c l` : whether the line is "exit" agrees with `g`.

## Main results

* `exits_iff` : the programs leave as they should in the runs where every line that is sent agrees
  with the word "exit" in the first sender's `buf4`.
-/

namespace KTeamOS

/-- "exit" -/
def exitLine : Line where
  chars := [0x65, 0x78, 0x69, 0x74]
  ok := List.forall_mem_cons.2 ⟨by decide, List.forall_mem_cons.2 ⟨by decide,
    List.forall_mem_cons.2 ⟨by decide, List.forall_mem_singleton.2 (by decide)⟩⟩⟩
  length_lt := by decide

/-- The program on `b` has sent all characters of `line`. -/
def Chat.EndsLine (c : Chat) (b : Bool) (line : Line) : Prop :=
  (c.side b).pc = .send line.chars.length ∧ (c.side b).typed.getLast? = some line

/-- The program on `b` has received `line`.  All that can happen is that it gets the exit byte,
prints the line and returns. -/
structure Chat.Follows (c : Chat) (b : Bool) (line : Line) : Prop where
  inbox : c.inbox b = [0xFD]
  only : ∀ l c', chatMachine.step c l = some c' → l = .run b
  returns : ∃ c', chatMachine.step c (.run b) = some c' ∧ (c'.side b).pc = .done ∧
    (c'.side b).printed = (c.side b).printed ++ [line.chars]

/-- What the end of a line should do. -/
def ExitsRight (c : Chat) (l : ChatLabel) : Prop := ∀ b line c', l = .run b → c.EndsLine b line →
  c.run b = some c' → ((c'.side b).pc = .done ↔ line.chars = exitLine.chars) ∧
    ((c'.side b).pc = .done → c'.Follows (!b) line)

/-- At the end of a line, that line is "exit" exactly if `g` holds. -/
def SendsExit (g : Prop) (c : Chat) (l : ChatLabel) : Prop := ∀ b line, l = .run b →
  c.EndsLine b line → (line.chars = exitLine.chars ↔ g)

theorem isExit_iff {b : ℕ → UInt8} : IsExit b ↔ text b = exitLine.chars :=
  ⟨fun h => field_eq_of_lt h (by decide) (by decide),
    fun h => field_eq_of_lt h (by decide) (by decide)⟩

/-! ### What is left in `buf4` -/

/-- A program that has the turn, or gets it with what is on the way, finds the word "exit" in
`buf4` exactly if `g` holds. -/
def Side.Keeps (g : Prop) (x : Side) (inbox : List UInt8) : Prop :=
  x.turn = true ∨ inbox = [0xFE] → (IsExit x.buf4 ↔ g)

/-- The invariant: a conversation, and what its programs find in `buf4`. -/
structure Leaving (g : Prop) (c : Chat) : Prop where
  conversing : Conversing c
  keeps : ∀ b, (c.side b).Keeps g (c.inbox b)

variable {g : Prop} {s b : Bool} {x y : Side} {i j : List UInt8} {line : Line} {c c' : Chat}

theorem keeps_pair : (∀ b, ((Chat.pair s x y i j).side b).Keeps g ((Chat.pair s x y i j).inbox b)) ↔
    x.Keeps g i ∧ y.Keeps g j := by
  constructor
  · intro h
    have hleft := h s
    have hright := h !s
    rw [Chat.pair_side_left, Chat.pair_inbox_left] at hleft
    rw [Chat.pair_side_right, Chat.pair_inbox_right] at hright
    exact ⟨hleft, hright⟩
  · rintro ⟨hleft, hright⟩
    refine forall_side s ?_ ?_
    · rwa [Chat.pair_side_left, Chat.pair_inbox_left]
    · rwa [Chat.pair_side_right, Chat.pair_inbox_right]

/-- Nothing is found by a program that waits for anything but the end of a message. -/
theorem Side.keeps_of_not (ht : x.turn = false) (hi : i ≠ [0xFE]) : x.Keeps g i := by
  rintro (h | h)
  · rw [ht] at h
    cases h
  · exact absurd h hi

theorem Line.ne_end {n : ℕ} (hn : n < line.chars.length) : [line.chars[n]] ≠ [0xFE] := by
  intro h
  have hlt := (line.ok _ (List.getElem_mem hn)).2.2
  rw [(List.cons.inj h).1] at hlt
  exact absurd hlt (by decide)

/-- The line that is being sent is the last one typed. -/
theorem Side.Got.endsLine {n : ℕ} (hgot : x.Got y line n) {l : Line}
    (h : (Chat.pair s x y i j).EndsLine s l) : l.chars = line.chars := by
  have hlast := h.2
  rw [Chat.pair_side_left] at hlast
  have hmap := congrArg (Option.map Line.chars) hlast
  rw [← List.getLast?_map, hgot.typed, List.getLast?_concat] at hmap
  exact (Option.some.inj hmap).symm

/-- Behind the exit byte there is one step left. -/
theorem Side.Got.follows (hx : x.pc = .done) (hy : y.pc = .recv line.chars.length)
    (hgot : x.Got y line line.chars.length) :
    (Chat.pair s x y [] [0xFD]).Follows (!s) line := by
  refine ⟨Chat.pair_inbox_right, fun l c' hst => ?_, _, Chat.run_right (Side.run_recv_exit hy), ?_⟩
  · cases l with
    | run b =>
      rcases Chat.run_cases hst with ⟨x', i', out, -, h', -⟩ | ⟨y', j', out, rfl, -, -⟩
      · rw [Side.run_none (.inr hx)] at h'
        cases h'
      · rfl
    | type b l =>
      rcases Chat.type_cases hst with ⟨x', hx', -⟩ | ⟨y', hy', -⟩
      · have hpc := (Side.type_cases hx').1
        rw [hx] at hpc
        cases hpc
      · have hpc := (Side.type_cases hy').1
        rw [hy] at hpc
        cases hpc
  · rw [Chat.pair_side_right, Chat.pair_side_right]
    refine ⟨rfl, ?_⟩
    rw [← hgot.text_eq]
    rfl

/-- **The end of a line.**  The sender returns exactly if `g` holds. -/
theorem Leaving.ends (h : Leaving g c) (hline : c.EndsLine b line) (hrun : c.run b = some c') :
    ((c'.side b).pc = .done ↔ g) ∧ ((c'.side b).pc = .done → c'.Follows (!b) line) := by
  obtain ⟨⟨s, x, y, i, j, rfl, hphase⟩, hkeeps⟩ := h
  have hpc := hline.1
  cases hphase.turn hrun with
  | @send l n hn hx _ _ hgot =>
    -- there is another character to send
    rw [Chat.pair_side_left, hx, hgot.endsLine hline] at hpc
    exact absurd (Pc.send.inj hpc) (Nat.ne_of_lt hn)
  | @exit l hx hy hholds hgot hexit =>
    rw [Chat.pair_side_left]
    have hfollows : (Chat.pair b { x with pc := .done } y [] [0xFD]).Follows (!b) l :=
      Side.Got.follows rfl hy (hgot.congr rfl rfl)
    refine ⟨iff_of_true rfl (((keeps_pair.1 hkeeps).1 (.inl hholds.turn)).1 hexit), fun _ => ?_⟩
    exact ⟨hfollows.inbox, hfollows.only, by rw [hgot.endsLine hline]; exact hfollows.returns⟩
  | @stop l _ _ hholds hgot hexit =>
    rw [Chat.pair_side_left, Side.flip_of_turn hholds.turn]
    have hg : ¬ g := fun hg => hexit (((keeps_pair.1 hkeeps).1 (.inl hholds.turn)).2 hg)
    exact ⟨iff_of_false Pc.noConfusion hg, fun h => Pc.noConfusion h⟩
  | recv _ _ hy | flip _ hy | leave _ hy =>
    rw [Chat.pair_side_right, hy] at hpc
    cases hpc
  | ack hx =>
    rw [Chat.pair_side_left, hx] at hpc
    cases hpc

/-- Where every line agrees with `g`, the invariant stays. -/
theorem Leaving.step {l : ChatLabel} (h : Leaving g c) (hl : SendsExit g c l)
    (hst : chatMachine.step c l = some c') : Leaving g c' := by
  refine ⟨h.conversing.step hst, ?_⟩
  obtain ⟨⟨s, x, y, i, j, rfl, hphase⟩, hkeeps⟩ := h
  obtain ⟨hx, hy⟩ := keeps_pair.1 hkeeps
  cases l with
  | type b line =>
    rcases Chat.type_cases hst with ⟨x', hx', rfl⟩ | ⟨y', hy', rfl⟩
    · obtain ⟨-, rfl⟩ := Side.type_cases hx'
      exact keeps_pair.2 ⟨hx, hy⟩
    · obtain ⟨-, rfl⟩ := Side.type_cases hy'
      exact keeps_pair.2 ⟨hx, hy⟩
  | run b =>
    cases hphase.turn hst with
    | send hn _ _ _ hgot =>
      exact keeps_pair.2 ⟨hx, Side.keeps_of_not hgot.turn (Line.ne_end hn)⟩
    | exit _ _ _ hgot =>
      exact keeps_pair.2 ⟨hx, Side.keeps_of_not hgot.turn (by decide)⟩
    | @stop l hpc _ hholds hgot hexit =>
      have hlast : x.typed.getLast?.map Line.chars = some l.chars := by
        rw [← List.getLast?_map, hgot.typed, List.getLast?_concat]
      obtain ⟨l', htyped, hl'⟩ := Option.map_eq_some_iff.1 hlast
      have hends : (Chat.pair s x y [] []).EndsLine s l' := by
        rw [Chat.EndsLine, Chat.pair_side_left, hl']
        exact ⟨hpc, htyped⟩
      rw [Side.flip_of_turn hholds.turn]
      refine keeps_pair.2 ⟨Side.keeps_of_not rfl (by decide), fun _ => ?_⟩
      rw [isExit_iff, hgot.text_eq, ← hl']
      exact hl s l' rfl hends
    | recv _ _ _ hholds hgot =>
      exact keeps_pair.2 ⟨fun _ => hx (.inl hholds.turn), Side.keeps_of_not hgot.turn (by decide)⟩
    | ack _ _ hholds hgot =>
      exact keeps_pair.2 ⟨fun _ => hx (.inl hholds.turn), hy⟩
    | flip _ _ hxt _ hgot =>
      rw [Side.flip_of_not_turn (x := y.print) hgot.turn]
      exact keeps_pair.2 ⟨Side.keeps_of_not hxt (by decide), fun _ => hy (.inr rfl)⟩
    | leave _ _ hgot =>
      exact keeps_pair.2 ⟨hx, Side.keeps_of_not hgot.turn (by decide)⟩

/-- A step does what it should exactly if its line agrees with `g`. -/
theorem Leaving.exitsRight_iff {l : ChatLabel} (h : Leaving g c)
    (hst : chatMachine.step c l = some c') : ExitsRight c l ↔ SendsExit g c l := by
  constructor
  · rintro hright b line rfl hline
    exact (hright b line c' rfl hline hst).1.symm.trans (h.ends hline hst).1
  · rintro hsends b line c'' rfl hline hrun
    obtain ⟨hdone, hfollows⟩ := h.ends hline hrun
    exact ⟨hdone.trans (hsends b line rfl hline).symm, hfollows⟩

/-- **Leaving a conversation.**  From any two programs behind the handshake, of which one has the
turn, and with nothing on the way: at the end of every line the sender returns exactly if the line
is "exit", and the other program follows it, exactly in the runs in which the lines that are sent
are "exit" if that word is in the first sender's `buf4`, and are something else if it is not. -/
theorem exits_iff {s : Bool} {x y : Side} (hx : x.turn = true) (hy : y.turn = false)
    (hxt : x.typed = []) (hxp : x.printed = []) (hyt : y.typed = []) (hyp : y.printed = [])
    (ls : List ChatLabel) :
    chatMachine.Steps ExitsRight (.pair s x.converse y.converse [] []) ls ↔
      chatMachine.Steps (SendsExit (IsExit x.buf4)) (.pair s x.converse y.converse [] []) ls := by
  refine Machine.steps_iff_steps (I := Leaving (IsExit x.buf4))
    (fun c l c' hc hst => hc.exitsRight_iff hst) (fun c l c' hc hl hst => hc.step hl hst)
    ⟨conversing_start hx hy hxt hxp hyt hyp, keeps_pair.2 ⟨fun _ => ?_, ?_⟩⟩ ls
  · rw [Side.converse_of_turn hx]
  · rw [Side.converse_of_not_turn hy]
    exact Side.keeps_of_not hy (by decide)

/-- The user types `a`, and the conversation goes on. -/
theorem exits_iff_a : chatMachine.Steps ExitsRight
      (.pair false (Side.empty true).converse (Side.empty false).converse [] [])
      [.type false lineA, .run false, .run true, .run false, .run false] ↔
    chatMachine.Steps (SendsExit (IsExit (Side.empty true).buf4))
      (.pair false (Side.empty true).converse (Side.empty false).converse [] [])
      [.type false lineA, .run false, .run true, .run false, .run false] :=
  exits_iff rfl rfl rfl rfl rfl rfl _

/-- The user types "exit", and the conversation goes on. -/
theorem not_exits : ¬ ∀ (s : Bool) (x y : Side), x.turn = true → y.turn = false → x.typed = [] →
    x.printed = [] → y.typed = [] → y.printed = [] → ∀ ls,
      chatMachine.Steps ExitsRight (.pair s x.converse y.converse [] []) ls := by
  intro h
  have hsteps := h false (Side.empty true) (Side.empty false) rfl rfl rfl rfl rfl rfl
    ([.type false exitLine, .run false, .run true, .run false, .run false, .run true, .run false,
      .run false, .run true, .run false, .run false, .run true, .run false] ++ [.run false])
  obtain ⟨c, c', hexec, hst, hline, hpc⟩ : ∃ c c', chatMachine.exec
      (.pair false (Side.empty true).converse (Side.empty false).converse [] [])
      [.type false exitLine, .run false, .run true, .run false, .run false, .run true, .run false,
        .run false, .run true, .run false, .run false, .run true, .run false] = some c ∧
      chatMachine.step c (.run false) = some c' ∧ c.EndsLine false exitLine ∧
      (c'.side false).pc = .recv 0 := ⟨_, _, rfl, rfl, ⟨rfl, rfl⟩, rfl⟩
  -- the sender has changed the roles, as behind any other line
  have hdone := ((hsteps.last hexec hst) false exitLine c' rfl hline hst).1.2 rfl
  rw [hpc] at hdone
  cases hdone

end KTeamOS
