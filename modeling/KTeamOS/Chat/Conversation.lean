import KTeamOS.Chat.Program

/-!
# Conversations

Behind the handshake one program holds the turn: it sends a line, character by character, and each
character is acknowledged.  The places of the two programs and the bytes on the way go together
(`Phase`): there is at most one byte on the way, and the one that is waited for.

## Main definitions

* `Phase x y i j` : what holds when `x` is the sender, with `i` on the way to it and `j` to `y`.
* `Settles c` : while nobody types, the programs come to rest, with all lines printed.
* `Faithful c` : what was printed is what was typed, and the programs are not stuck.
-/

namespace KTeamOS

/-- The program is in the middle of a line. -/
def Pc.Sending : Pc → Prop
  | send _ | ack _ => True
  | _ => False

/-- The programs are at rest: one waits for its user and the other one for it, or both have
returned, and everything that was typed has been printed. -/
structure AtRest (c : Chat) : Prop where
  inbox : ∀ b, c.inbox b = []
  waits : (∃ b, (c.side b).pc = .typing ∧ (c.side !b).pc.Waiting) ∨ ∀ b, (c.side b).pc = .done
  printed : ∀ b, (c.side b).printed = (c.side !b).typed.map Line.chars

/-- While nobody types, the programs come to rest, and in whatever order they run, they come to the
same rest in the same number of steps. -/
def Settles (c : Chat) : Prop :=
  ∃ ls f, serialMachine.exec c ls = some f ∧ serialMachine.Final f ∧ AtRest f ∧
    (∀ b, (f.side b).typed = (c.side b).typed) ∧
    ∀ ks c', serialMachine.exec c ks = some c' →
      ∃ ls', serialMachine.exec c' ls' = some f ∧ ks.length + ls'.length = ls.length

/-- What a conversation has to keep. -/
structure Faithful (c : Chat) : Prop where
  /-- Nobody reports "Transmission failed". -/
  notFailed : ∀ b, (c.side b).pc ≠ .failed
  /-- What is printed are the lines typed, once each and in order. -/
  printed : ∀ b, (c.side b).printed <+: (c.side !b).typed.map Line.chars
  /-- Only the last line can be on its way. -/
  typed : ∀ b, (c.side !b).typed.length ≤ (c.side b).printed.length + 1
  /-- When nothing is on its way, all has been printed. -/
  arrived : (∀ b, c.inbox b = [] ∧ ¬ (c.side b).pc.Sending) →
    ∀ b, (c.side b).printed = (c.side !b).typed.map Line.chars
  notDeadlocked : ¬ c.Deadlocked
  /-- What has been typed gets printed. -/
  settles : Settles c

/-- The buffer holds no characters. -/
def Blank (b : ℕ → UInt8) : Prop := ∀ j < bufSize, b j = 0

/-- `x` is about to send, or sends, `line`. -/
structure Side.Holds (x : Side) (line : Line) : Prop where
  turn : x.turn = true
  buf3 : ∀ j, j < line.chars.length + 1 → x.buf3 j = (line.chars ++ [0x0A])[j]?.getD 0

/-- `y` has got the first `n` characters of `line`, the last one that `x` typed. -/
structure Side.Got (x y : Side) (line : Line) (n : ℕ) : Prop where
  turn : y.turn = false
  le : n ≤ line.chars.length
  buf4 : ∀ j < bufSize, y.buf4 j = (line.chars.take n)[j]?.getD 0
  typed : x.typed.map Line.chars = y.printed ++ [line.chars]
  printed : x.printed = y.typed.map Line.chars

/-- Nothing is on its way: both have printed what the other typed. -/
structure Side.Even (x y : Side) : Prop where
  left : x.printed = y.typed.map Line.chars
  right : y.printed = x.typed.map Line.chars

/-- The places of the sender `x` and the receiver `y`, with `i` on the way to `x` and `j` to `y`. -/
inductive Phase : Side → Side → List UInt8 → List UInt8 → Prop
  | idle {x y : Side} : x.pc = .typing → y.pc = .recv 0 → x.turn = true → y.turn = false →
      Blank y.buf4 → x.Even y → Phase x y [] []
  | ready {x y : Side} {line : Line} {n : ℕ} : x.pc = .send n → y.pc = .recv n →
      x.Holds line → x.Got y line n → Phase x y [] []
  | sent {x y : Side} {line : Line} {n : ℕ} (hn : n < line.chars.length) :
      x.pc = .ack n → y.pc = .recv n → x.Holds line → x.Got y line n →
        Phase x y [] [line.chars[n]]
  | acked {x y : Side} {line : Line} {n : ℕ} : x.pc = .ack n → y.pc = .recv (n + 1) →
      x.Holds line → x.Got y line (n + 1) → Phase x y [0xFA] []
  | ended {x y : Side} {line : Line} : x.pc = .recv 0 → y.pc = .recv line.chars.length →
      x.turn = false → Blank x.buf4 → x.Got y line line.chars.length → Phase x y [] [0xFE]
  | exited {x y : Side} {line : Line} : x.pc = .done → y.pc = .recv line.chars.length →
      x.Got y line line.chars.length → Phase x y [] [0xFD]
  | closed {x y : Side} : x.pc = .done → y.pc = .done → x.Even y → Phase x y [] []

/-- The invariant of a conversation. -/
def Conversing (c : Chat) : Prop := ∃ s x y i j, c = .pair s x y i j ∧ Phase x y i j

namespace Side

variable {x y x' : Side} {line : Line} {n : ℕ} {rest : List UInt8}

theorem blank_cleared (b : ℕ → UInt8) : Blank fun i => if i < bufSize then 0 else b i :=
  fun _ hj => if_pos hj

/-- The text of a message that has arrived. -/
theorem Got.text_eq (h : x.Got y line line.chars.length) : text y.buf4 = line.chars := by
  have hlen := line.length_lt
  refine field_eq (fun h0 => (line.ok 0 h0).1 rfl) (by omega) (fun j hj => ?_) fun hlt => ?_
  · rw [Nat.zero_add, h.buf4 j (by omega), List.take_length, List.getElem?_eq_getElem hj,
      Option.getD_some]
  · rw [Nat.zero_add, h.buf4 _ hlt, List.take_length, List.getElem?_eq_none (Nat.le_refl _),
      Option.getD_none]

theorem Got.congr (h : x.Got y line n) (ht : x'.typed = x.typed) (hp : x'.printed = x.printed) :
    x'.Got y line n :=
  ⟨h.turn, h.le, h.buf4, by rw [ht, h.typed], by rw [hp, h.printed]⟩

/-- One more character has arrived. -/
theorem Got.succ (h : x.Got y line n) (hn : n < line.chars.length) {p q : Pc} :
    ({ x with pc := p } : Side).Got
      { y with pc := q, buf4 := Function.update y.buf4 n line.chars[n] } line (n + 1) := by
  refine ⟨h.turn, hn, fun j hj => ?_, h.typed, h.printed⟩
  change Function.update y.buf4 n line.chars[n] j = (line.chars.take (n + 1))[j]?.getD 0
  by_cases hjn : j = n
  · subst hjn
    rw [Function.update_self, List.getElem?_take_of_lt (Nat.lt_succ_self j),
      List.getElem?_eq_getElem hn, Option.getD_some]
  · rw [Function.update_of_ne hjn, h.buf4 j hj, List.getElem?_take, List.getElem?_take]
    exact congrArg (Option.getD · 0) (if_congr (by omega) rfl rfl)

/-- The sender of a line sends the next character. -/
theorem Holds.run_send (h : x.Holds line) (hpc : x.pc = .send n) (hn : n < line.chars.length) :
    x.run rest = some ({ x with pc := .ack n }, rest, [line.chars[n]]) := by
  have hbuf : x.buf3 n = line.chars[n] := by
    rw [h.buf3 n (by omega), List.getElem?_append_left hn, List.getElem?_eq_getElem hn,
      Option.getD_some]
  have hok := line.ok _ (List.getElem_mem hn)
  have hproceed : x.proceed = some ({ x with pc := .ack n }, [line.chars[n]]) := by
    simp only [proceed, hpc]
    rw [hbuf, if_pos ⟨hok.1, hok.2.1⟩]
  exact run_of_proceed (by rw [hpc]; exact id) hproceed

/-- Behind the last character the sender ends the message, or the conversation. -/
theorem Holds.run_end (h : x.Holds line) (hpc : x.pc = .send line.chars.length) :
    x.run rest = if IsExit x.buf4 then some ({ x with pc := .done }, rest, [0xFD])
      else some (x.flip, rest, [0xFE]) := by
  have hbuf : x.buf3 line.chars.length = 0x0A := by
    rw [h.buf3 _ (Nat.lt_succ_self _), List.getElem?_append_right (Nat.le_refl _), Nat.sub_self]
    rfl
  have hproceed : x.proceed = if IsExit x.buf4 then some ({ x with pc := .done }, [0xFD])
      else some (x.flip, [0xFE]) := by
    simp only [proceed, hpc]
    rw [if_neg fun hc => hc.2 hbuf]
  have hw : ¬ x.pc.Waiting := by rw [hpc]; exact id
  by_cases hexit : IsExit x.buf4
  · rw [if_pos hexit] at hproceed ⊢
    exact run_of_proceed hw hproceed
  · rw [if_neg hexit] at hproceed ⊢
    exact run_of_proceed hw hproceed

/-- A character of a line is stored and acknowledged. -/
theorem run_recv (hpc : x.pc = .recv n) {c : UInt8} (hc : c < 0xFD) :
    x.run (c :: rest) =
      some ({ x with pc := .recv (n + 1), buf4 := Function.update x.buf4 n c }, rest, [0xFA]) := by
  have hFE : c ≠ 0xFE := by rintro rfl; exact absurd hc (by decide)
  have hFD : c ≠ 0xFD := by rintro rfl; exact absurd hc (by decide)
  have hFF : c ≠ 0xFF := by rintro rfl; exact absurd hc (by decide)
  rw [run_of_receive (by rw [hpc]; exact trivial)]
  simp only [receive, hpc]
  rw [if_neg hFE, if_neg hFD, if_neg hFF]

theorem run_ack (hpc : x.pc = .ack n) :
    x.run (0xFA :: rest) = some ({ x with pc := .send (n + 1) }, rest, []) := by
  rw [run_of_receive (by rw [hpc]; exact trivial)]
  simp only [receive, hpc]
  rfl

theorem run_recv_end (hpc : x.pc = .recv n) :
    x.run (0xFE :: rest) = some (x.print.flip, rest, []) := by
  rw [run_of_receive (by rw [hpc]; exact trivial)]
  simp only [receive, hpc]
  rfl

theorem run_recv_exit (hpc : x.pc = .recv n) :
    x.run (0xFD :: rest) = some ({ x.print with pc := .done }, rest, []) := by
  rw [run_of_receive (by rw [hpc]; exact trivial)]
  simp only [receive, hpc]
  rfl

end Side

namespace Chat

variable {s b : Bool} {x y : Side} {i j : List UInt8} {c' : Chat}

/-- A step of one of two programs. -/
theorem run_cases (h : (pair s x y i j).run b = some c') :
    (∃ x' i' out, b = s ∧ x.run i = some (x', i', out) ∧ c' = pair s x' y i' (j ++ out)) ∨
      ∃ y' j' out, b = (!s) ∧ y.run j = some (y', j', out) ∧ c' = pair s x y' (i ++ out) j' := by
  obtain ⟨⟨z, rest, out⟩, hz, -⟩ := Option.map_eq_some_iff.1 h
  by_cases hb : b = s
  · subst hb
    rw [pair_side_left, pair_inbox_left] at hz
    rw [run_left hz] at h
    cases h
    exact .inl ⟨z, rest, out, rfl, hz, rfl⟩
  · obtain rfl : b = !s := by revert hb; cases b <;> cases s <;> decide
    rw [pair_side_right, pair_inbox_right] at hz
    rw [run_right hz] at h
    cases h
    exact .inr ⟨z, rest, out, rfl, hz, rfl⟩

/-- A line typed at one of two programs. -/
theorem type_cases {line : Line} (h : (pair s x y i j).type b line = some c') :
    (∃ x', x.type line = some x' ∧ c' = pair s x' y i j) ∨
      ∃ y', y.type line = some y' ∧ c' = pair s x y' i j := by
  obtain ⟨z, hz, hc'⟩ := Option.map_eq_some_iff.1 h
  by_cases hb : b = s
  · subst hb
    rw [pair_side_left] at hz
    refine .inl ⟨z, hz, hc'.symm.trans (congrArg₂ Chat.mk (funext fun a => ?_) rfl)⟩
    by_cases ha : a = b
    · rw [ha, Function.update_self, if_pos rfl]
    · rw [Function.update_of_ne ha, if_neg ha]
      exact if_neg ha
  · obtain rfl : b = !s := by revert hb; cases b <;> cases s <;> decide
    rw [pair_side_right] at hz
    refine .inr ⟨z, hz, hc'.symm.trans (congrArg₂ Chat.mk (funext fun a => ?_) rfl)⟩
    by_cases ha : a = s
    · rw [ha, Function.update_of_ne (Ne.symm hb), if_pos rfl]
      exact if_pos rfl
    · obtain rfl : a = !s := by revert ha; cases a <;> cases s <;> decide
      rw [Function.update_self, if_neg ha]

end Chat

/-! ### One step -/

namespace Side

variable {x y x' : Side} {line : Line}

theorem flip_of_turn (h : x.turn = true) : x.flip =
    { x with
      pc := .recv 0, turn := false, buf4 := fun i => if i < bufSize then 0 else x.buf4 i } := by
  simp only [flip, converse, h]
  rfl

theorem flip_of_not_turn (h : x.turn = false) :
    x.flip = { x with pc := .typing, turn := true } := by
  simp only [flip, converse, h]
  rfl

theorem type_cases (h : x.type line = some x') : x.pc = .typing ∧
    x' = { x with
      pc := .send 0
      buf3 := fun i => (line.chars ++ [0x0A])[i]?.getD (x.buf3 i)
      typed := x.typed ++ [line] } := by
  unfold type at h
  split_ifs at h with hpc
  exact ⟨hpc, (Option.some.inj h).symm⟩

/-- The receiver prints the line that has arrived. -/
theorem Got.print (h : x.Got y line line.chars.length) : x.Even y.print := by
  refine ⟨h.printed, ?_⟩
  rw [h.typed, ← h.text_eq]
  rfl

end Side

variable {x y : Side} {i j : List UInt8} {s b : Bool} {line : Line} {c c' : Chat}

/-- Only the sender, at its keyboard, takes a line. -/
theorem Phase.type (h : Phase x y i j) (htype : (Chat.pair s x y i j).type b line = some c') :
    Conversing c' := by
  rcases Chat.type_cases htype with ⟨x', hx', rfl⟩ | ⟨y', hy', rfl⟩
  · obtain ⟨hpc, rfl⟩ := Side.type_cases hx'
    cases h with
    | idle hx hy hxt hyt hblank heven =>
      refine ⟨s, _, _, _, _, rfl, @Phase.ready _ _ line _ rfl hy ⟨hxt, fun j hj => ?_⟩
        ⟨hyt, Nat.zero_le _, fun j hj => ?_, ?_, heven.left⟩⟩
      · change (line.chars ++ [0x0A])[j]?.getD (x.buf3 j) = (line.chars ++ [0x0A])[j]?.getD 0
        have hlt : j < (line.chars ++ [0x0A]).length := by rwa [List.length_append]
        rw [List.getElem?_eq_getElem hlt, Option.getD_some, Option.getD_some]
      · rw [List.take_zero]
        exact hblank j hj
      · rw [heven.right, List.map_append]
        rfl
    | ready hx | sent _ hx | acked hx | ended hx | exited hx | closed hx =>
      rw [hx] at hpc
      cases hpc
  · obtain ⟨hpc, -⟩ := Side.type_cases hy'
    cases h with
    | idle _ hy | ready _ hy | sent _ _ hy | acked _ hy | ended _ hy | exited _ hy | closed _ hy =>
      rw [hy] at hpc
      cases hpc

/-- What a program does, in every phase of a message: the program that runs is `x` on the machine
`s`, or `y` on the other one. -/
inductive Turn (s : Bool) (x y : Side) : List UInt8 → List UInt8 → Bool → Chat → Prop
  | send {line : Line} {n : ℕ} (hn : n < line.chars.length) (hx : x.pc = .send n)
      (hy : y.pc = .recv n) (hholds : x.Holds line) (hgot : x.Got y line n) :
      Turn s x y [] [] s (.pair s { x with pc := .ack n } y [] [line.chars[n]])
  | exit {line : Line} (hx : x.pc = .send line.chars.length) (hy : y.pc = .recv line.chars.length)
      (hholds : x.Holds line) (hgot : x.Got y line line.chars.length) (hexit : IsExit x.buf4) :
      Turn s x y [] [] s (.pair s { x with pc := .done } y [] [0xFD])
  | stop {line : Line} (hx : x.pc = .send line.chars.length) (hy : y.pc = .recv line.chars.length)
      (hholds : x.Holds line) (hgot : x.Got y line line.chars.length) (hexit : ¬ IsExit x.buf4) :
      Turn s x y [] [] s (.pair s x.flip y [] [0xFE])
  | recv {line : Line} {n : ℕ} (hn : n < line.chars.length) (hx : x.pc = .ack n)
      (hy : y.pc = .recv n) (hholds : x.Holds line) (hgot : x.Got y line n) :
      Turn s x y [] [line.chars[n]] (!s)
        (.pair s x { y with pc := .recv (n + 1), buf4 := Function.update y.buf4 n line.chars[n] }
          [0xFA] [])
  | ack {line : Line} {n : ℕ} (hx : x.pc = .ack n) (hy : y.pc = .recv (n + 1))
      (hholds : x.Holds line) (hgot : x.Got y line (n + 1)) :
      Turn s x y [0xFA] [] s (.pair s { x with pc := .send (n + 1) } y [] [])
  | flip {line : Line} (hx : x.pc = .recv 0) (hy : y.pc = .recv line.chars.length)
      (hxt : x.turn = false) (hblank : Blank x.buf4) (hgot : x.Got y line line.chars.length) :
      Turn s x y [] [0xFE] (!s) (.pair s x y.print.flip [] [])
  | leave {line : Line} (hx : x.pc = .done) (hy : y.pc = .recv line.chars.length)
      (hgot : x.Got y line line.chars.length) :
      Turn s x y [] [0xFD] (!s) (.pair s x { y.print with pc := .done } [] [])

theorem Phase.turn (h : Phase x y i j) (hrun : (Chat.pair s x y i j).run b = some c') :
    Turn s x y i j b c' := by
  have hwait : ∀ {z z' : Side} {rest out : List UInt8}, z.pc.Waiting →
      z.run [] ≠ some (z', rest, out) := by
    intro z z' rest out hw hz
    rw [Side.run_nil hw] at hz
    cases hz
  have hrest : ∀ {z z' : Side} {inbox rest out : List UInt8}, z.pc = .typing ∨ z.pc = .done →
      z.run inbox ≠ some (z', rest, out) := by
    intro z z' inbox rest out hpc hz
    rw [Side.run_none hpc] at hz
    cases hz
  cases h with
  | idle hx hy =>
    rcases Chat.run_cases hrun with ⟨x', i', out, -, h', -⟩ | ⟨y', j', out, -, h', -⟩
    · exact absurd h' (hrest (.inl hx))
    · exact absurd h' (hwait (by rw [hy]; exact trivial))
  -- the sender goes on with the next character, or ends the message
  | @ready line n hx hy hholds hgot =>
    rcases Chat.run_cases hrun with ⟨x', i', out, rfl, h', rfl⟩ | ⟨y', j', out, -, h', -⟩
    · rcases Nat.lt_or_eq_of_le hgot.le with hn | rfl
      · rw [hholds.run_send hx hn] at h'
        cases h'
        exact .send hn hx hy hholds hgot
      · rw [hholds.run_end hx] at h'
        split_ifs at h' with hexit
        · cases h'
          exact .exit hx hy hholds hgot hexit
        · cases h'
          exact .stop hx hy hholds hgot hexit
    · exact absurd h' (hwait (by rw [hy]; exact trivial))
  | @sent line n hn hx hy hholds hgot =>
    rcases Chat.run_cases hrun with ⟨x', i', out, -, h', -⟩ | ⟨y', j', out, rfl, h', rfl⟩
    · exact absurd h' (hwait (by rw [hx]; exact trivial))
    · rw [Side.run_recv hy (line.ok _ (List.getElem_mem hn)).2.2] at h'
      cases h'
      exact .recv hn hx hy hholds hgot
  | @acked line n hx hy hholds hgot =>
    rcases Chat.run_cases hrun with ⟨x', i', out, rfl, h', rfl⟩ | ⟨y', j', out, -, h', -⟩
    · rw [Side.run_ack hx] at h'
      cases h'
      exact .ack hx hy hholds hgot
    · exact absurd h' (hwait (by rw [hy]; exact trivial))
  | ended hx hy hxt hblank hgot =>
    rcases Chat.run_cases hrun with ⟨x', i', out, -, h', -⟩ | ⟨y', j', out, rfl, h', rfl⟩
    · exact absurd h' (hwait (by rw [hx]; exact trivial))
    · rw [Side.run_recv_end hy] at h'
      cases h'
      exact .flip hx hy hxt hblank hgot
  | exited hx hy hgot =>
    rcases Chat.run_cases hrun with ⟨x', i', out, -, h', -⟩ | ⟨y', j', out, rfl, h', rfl⟩
    · exact absurd h' (hrest (.inr hx))
    · rw [Side.run_recv_exit hy] at h'
      cases h'
      exact .leave hx hy hgot
  | closed hx hy =>
    rcases Chat.run_cases hrun with ⟨x', i', out, -, h', -⟩ | ⟨y', j', out, -, h', -⟩
    · exact absurd h' (hrest (.inr hx))
    · exact absurd h' (hrest (.inr hy))

theorem Turn.conversing (h : Turn s x y i j b c') : Conversing c' := by
  cases h with
  | send hn _ hy hholds hgot =>
    exact ⟨s, _, _, _, _, rfl, .sent hn rfl hy ⟨hholds.turn, hholds.buf3⟩ (hgot.congr rfl rfl)⟩
  | exit _ hy _ hgot => exact ⟨s, _, _, _, _, rfl, .exited rfl hy (hgot.congr rfl rfl)⟩
  | stop _ hy hholds hgot =>
    rw [Side.flip_of_turn hholds.turn]
    exact ⟨s, _, _, _, _, rfl, .ended rfl hy rfl (Side.blank_cleared _) (hgot.congr rfl rfl)⟩
  | recv hn hx _ hholds hgot =>
    exact ⟨s, _, _, _, _, rfl, .acked hx rfl hholds (hgot.succ hn)⟩
  | ack _ hy hholds hgot =>
    exact ⟨s, _, _, _, _, rfl, .ready rfl hy ⟨hholds.turn, hholds.buf3⟩ (hgot.congr rfl rfl)⟩
  | flip hx _ hxt hblank hgot =>
    -- the receiver has got the turn now
    rw [Side.flip_of_not_turn (x := y.print) hgot.turn]
    exact ⟨!s, _, _, _, _, Chat.pair_swap.symm,
      .idle rfl hx rfl hxt hblank ⟨hgot.print.right, hgot.print.left⟩⟩
  | leave hx _ hgot =>
    exact ⟨s, _, _, _, _, rfl, .closed hx rfl ⟨hgot.print.left, hgot.print.right⟩⟩

theorem Conversing.step {l : ChatLabel} (h : Conversing c) (hst : chatMachine.step c l = some c') :
    Conversing c' := by
  obtain ⟨s, x, y, i, j, rfl, hphase⟩ := h
  cases l with
  | run b => exact (hphase.turn hst).conversing
  | type b line => exact hphase.type hst

/-! ### What holds in every phase -/

theorem Side.Even.delivered (h : x.Even y) : x.printed <+: y.typed.map Line.chars ∧
    y.typed.length ≤ x.printed.length + 1 ∧ y.printed <+: x.typed.map Line.chars ∧
    x.typed.length ≤ y.printed.length + 1 := by
  rw [h.left, h.right, List.length_map, List.length_map]
  exact ⟨List.prefix_rfl, Nat.le_succ _, List.prefix_rfl, Nat.le_succ _⟩

theorem Side.Got.delivered {n : ℕ} (h : x.Got y line n) : x.printed <+: y.typed.map Line.chars ∧
    y.typed.length ≤ x.printed.length + 1 ∧ y.printed <+: x.typed.map Line.chars ∧
    x.typed.length ≤ y.printed.length + 1 := by
  have hlen : x.typed.length = y.printed.length + 1 := by
    rw [← List.length_map (f := Line.chars), h.typed, List.length_append, List.length_singleton]
  rw [h.printed, h.typed, List.length_map]
  exact ⟨List.prefix_rfl, Nat.le_succ _, List.prefix_append _ _, Nat.le_of_eq hlen⟩

theorem Phase.delivered (h : Phase x y i j) : x.printed <+: y.typed.map Line.chars ∧
    y.typed.length ≤ x.printed.length + 1 ∧ y.printed <+: x.typed.map Line.chars ∧
    x.typed.length ≤ y.printed.length + 1 := by
  cases h with
  | idle _ _ _ _ _ heven | closed _ _ heven => exact heven.delivered
  | ready _ _ _ hgot | sent _ _ _ _ hgot | acked _ _ _ hgot | ended _ _ _ _ hgot
  | exited _ _ hgot => exact hgot.delivered

/-- A line that is not printed yet keeps its sender or the line busy. -/
theorem Phase.even (h : Phase x y i j) (hx : ¬ x.pc.Sending) (hi : i = []) (hj : j = []) :
    x.Even y := by
  cases h with
  | idle _ _ _ _ _ heven | closed _ _ heven => exact heven
  | ready hpc =>
    rw [hpc] at hx
    exact absurd trivial hx
  | sent | ended | exited => cases hj
  | acked => cases hi

theorem Phase.notFailed (h : Phase x y i j) : x.pc ≠ .failed ∧ y.pc ≠ .failed := by
  cases h with
  | idle hx hy | ready hx hy | sent _ hx hy | acked hx hy | ended hx hy | exited hx hy
  | closed hx hy =>
    rw [hx, hy]
    exact ⟨Pc.noConfusion, Pc.noConfusion⟩

/-- Whenever both wait, what one of them waits for is on its way. -/
theorem Phase.notDeadlocked (h : Phase x y i j) (hx : x.pc.Running ∧ x.pc.Waiting)
    (hi : i = []) (hj : j = []) : False := by
  cases h with
  | idle hpc | ready hpc =>
    rw [hpc] at hx
    exact hx.2
  | closed hpc =>
    rw [hpc] at hx
    exact hx.1
  | sent | ended | exited => cases hj
  | acked => cases hi

/-! ### Coming to rest -/

namespace Side

theorem converse_typed : x.converse.typed = x.typed := by
  unfold converse
  split <;> rfl

theorem handshake_typed : x.handshake.typed = x.typed := by
  unfold handshake
  split
  · rfl
  · exact converse_typed

/-- The programs do not type. -/
theorem run_typed {x' : Side} {rest out : List UInt8} (h : x.run i = some (x', rest, out)) :
    x'.typed = x.typed := by
  have hreceive : ∀ c, (x.receive c).1.typed = x.typed := fun c => by
    unfold receive
    split <;> (try split_ifs) <;> first | rfl | exact handshake_typed | exact converse_typed
  have hproceed : ∀ r, x.proceed = some r → r.1.typed = x.typed := fun r hr => by
    unfold proceed at hr
    split at hr <;> (try split_ifs at hr) <;> cases hr <;>
      first | rfl | exact handshake_typed | exact converse_typed
  unfold run at h
  split_ifs at h
  · cases i with
    | nil => cases h
    | cons c i =>
      cases h
      exact hreceive c
  · obtain ⟨r, hr, hx'⟩ := Option.map_eq_some_iff.1 h
    cases hx'
    exact hproceed r hr

end Side

theorem Chat.run_typed (h : c.run b = some c') (a : Bool) :
    (c'.side a).typed = (c.side a).typed := by
  obtain ⟨r, hr, rfl⟩ := Option.map_eq_some_iff.1 h
  change (Function.update c.side b r.1 a).typed = _
  by_cases hab : a = b
  · rw [hab, Function.update_self, Side.run_typed hr]
  · rw [Function.update_of_ne hab]

theorem AtRest.final (h : AtRest c) : serialMachine.Final c := by
  have hrun : ∀ b, (c.side b).run [] = none := by
    rcases h.waits with ⟨a, ha, hwait⟩ | hdone
    · exact forall_side (P := fun b => (c.side b).run [] = none) a (Side.run_none (.inl ha))
        (Side.run_nil hwait)
    · exact fun b => Side.run_none (.inr (hdone b))
  intro b
  change ((c.side b).run (c.inbox b)).map _ = none
  rw [h.inbox, hrun, Option.map_none]

/-- Some order of the programs' steps leads to rest. -/
def Rests (c : Chat) : Prop :=
  ∃ ls f, serialMachine.exec c ls = some f ∧ AtRest f ∧ ∀ b, (f.side b).typed = (c.side b).typed

theorem AtRest.rests (h : AtRest c) : Rests c := ⟨[], c, rfl, h, fun _ => rfl⟩

theorem Rests.step (hrun : c.run b = some c') (h : Rests c') : Rests c := by
  obtain ⟨ls, f, hexec, hrest, htyped⟩ := h
  exact ⟨b :: ls, f, Machine.exec_cons.2 ⟨c', hrun, hexec⟩, hrest,
    fun a => (htyped a).trans (Chat.run_typed hrun a)⟩

theorem Phase.atRest_idle (hx : x.pc = .typing) (hy : y.pc = .recv 0) (heven : x.Even y) :
    AtRest (.pair s x y [] []) where
  inbox _ := ite_self _
  waits := .inl ⟨s, by rw [Chat.pair_side_left, hx], by rw [Chat.pair_side_right, hy]; trivial⟩
  printed := Chat.forall_pair (P := fun z z' => z.printed = z'.typed.map Line.chars) heven.left
    heven.right

theorem atRest_closed (hx : x.pc = .done) (hy : y.pc = .done) (heven : x.Even y) :
    AtRest (.pair s x y [] []) where
  inbox _ := ite_self _
  waits := .inr (Chat.forall_pair (P := fun z _ => z.pc = .done) hx hy)
  printed := Chat.forall_pair (P := fun z z' => z.printed = z'.typed.map Line.chars) heven.left
    heven.right

theorem rests_ended (hx : x.pc = .recv 0) (hy : y.pc = .recv line.chars.length)
    (hgot : x.Got y line line.chars.length) : Rests (.pair s x y [] [0xFE]) := by
  refine .step (Chat.run_right (Side.run_recv_end hy)) (AtRest.rests ?_)
  rw [Side.flip_of_not_turn (x := y.print) hgot.turn, ← Chat.pair_swap]
  exact Phase.atRest_idle rfl hx ⟨hgot.print.right, hgot.print.left⟩

theorem rests_exited (hx : x.pc = .done) (hy : y.pc = .recv line.chars.length)
    (hgot : x.Got y line line.chars.length) : Rests (.pair s x y [] [0xFD]) :=
  .step (Chat.run_right (Side.run_recv_exit hy))
    (atRest_closed (y := { y.print with pc := .done }) hx rfl
      ⟨hgot.print.left, hgot.print.right⟩).rests

theorem rests_acked (hready : ∀ {x y : Side}, x.pc = .send (n + 1) → y.pc = .recv (n + 1) →
      x.Holds line → x.Got y line (n + 1) → Rests (.pair s x y [] []))
    (hx : x.pc = .ack n) (hy : y.pc = .recv (n + 1)) (hholds : x.Holds line)
    (hgot : x.Got y line (n + 1)) : Rests (.pair s x y [0xFA] []) :=
  .step (Chat.run_left (Side.run_ack hx))
    (hready rfl hy ⟨hholds.turn, hholds.buf3⟩ (hgot.congr rfl rfl))

theorem rests_sent (hready : ∀ {x y : Side}, x.pc = .send (n + 1) → y.pc = .recv (n + 1) →
      x.Holds line → x.Got y line (n + 1) → Rests (.pair s x y [] []))
    (hn : n < line.chars.length) (hx : x.pc = .ack n) (hy : y.pc = .recv n) (hholds : x.Holds line)
    (hgot : x.Got y line n) : Rests (.pair s x y [] [line.chars[n]]) :=
  .step (Chat.run_right (Side.run_recv hy (line.ok _ (List.getElem_mem hn)).2.2))
    (rests_acked hready hx rfl hholds (hgot.succ hn))

/-- The rest of a line, by the number of characters that are left. -/
theorem rests_ready (hx : x.pc = .send n) (hy : y.pc = .recv n) (hholds : x.Holds line)
    (hgot : x.Got y line n) : Rests (.pair s x y [] []) := by
  obtain ⟨k, hk⟩ : ∃ k, n + k = line.chars.length := ⟨_, Nat.add_sub_cancel' hgot.le⟩
  induction k generalizing x y n with
  | zero =>
    rw [Nat.add_zero] at hk
    subst hk
    have hend : x.run [] = _ := hholds.run_end hx
    split_ifs at hend
    · exact .step (Chat.run_left hend) (rests_exited rfl hy (hgot.congr rfl rfl))
    · rw [Side.flip_of_turn hholds.turn] at hend
      exact .step (Chat.run_left hend) (rests_ended rfl hy (hgot.congr rfl rfl))
  | succ k ih =>
    have hn : n < line.chars.length := by omega
    have hnext : ∀ {x y : Side}, x.pc = .send (n + 1) → y.pc = .recv (n + 1) →
        x.Holds line → x.Got y line (n + 1) → Rests (.pair s x y [] []) :=
      fun hx hy hholds hgot => ih hx hy hholds hgot (by omega)
    exact .step (Chat.run_left (hholds.run_send hx hn))
      (rests_sent hnext hn rfl hy ⟨hholds.turn, hholds.buf3⟩ (hgot.congr rfl rfl))

theorem Phase.rests (h : Phase x y i j) : Rests (.pair s x y i j) := by
  cases h with
  | idle hx hy _ _ _ heven => exact (Phase.atRest_idle hx hy heven).rests
  | ready hx hy hholds hgot => exact rests_ready hx hy hholds hgot
  | sent hn hx hy hholds hgot => exact rests_sent rests_ready hn hx hy hholds hgot
  | acked hx hy hholds hgot => exact rests_acked rests_ready hx hy hholds hgot
  | ended hx hy _ _ hgot => exact rests_ended hx hy hgot
  | exited hx hy hgot => exact rests_exited hx hy hgot
  | closed hx hy heven => exact (atRest_closed hx hy heven).rests

theorem Conversing.settles (h : Conversing c) : Settles c := by
  obtain ⟨s, x, y, i, j, rfl, hphase⟩ := h
  obtain ⟨ls, f, hexec, hrest, htyped⟩ := hphase.rests (s := s)
  exact ⟨ls, f, hexec, hrest.final, hrest, htyped,
    fun _ _ hks => serialMachine_commutes.exec_final hexec hrest.final hks⟩

theorem Conversing.faithful (h : Conversing c) : Faithful c := by
  have hsettles := h.settles
  obtain ⟨s, x, y, i, j, rfl, hphase⟩ := h
  obtain ⟨hx, hxlen, hy, hylen⟩ := hphase.delivered
  refine ⟨Chat.forall_pair (P := fun z _ => z.pc ≠ .failed) hphase.notFailed.1 hphase.notFailed.2,
    Chat.forall_pair (P := fun z z' => z.printed <+: z'.typed.map Line.chars) hx hy,
    Chat.forall_pair (P := fun z z' => z'.typed.length ≤ z.printed.length + 1) hxlen hylen,
    fun hrest => ?_, fun hdead => ?_, hsettles⟩
  · have hleft := hrest s
    have hright := hrest (!s)
    rw [Chat.pair_side_left, Chat.pair_inbox_left] at hleft
    rw [Chat.pair_inbox_right] at hright
    have heven := hphase.even hleft.2 hleft.1 hright.1
    exact Chat.forall_pair (P := fun z z' => z.printed = z'.typed.map Line.chars) heven.left
      heven.right
  · have hleft := hdead s
    have hright := hdead (!s)
    rw [Chat.pair_side_left, Chat.pair_inbox_left] at hleft
    rw [Chat.pair_inbox_right] at hright
    exact hphase.notDeadlocked ⟨hleft.1, hleft.2.1⟩ hleft.2.2 hright.2.2

/-- A program that knows whose turn it is, and has empty buffers. -/
def Side.empty (turn : Bool) : Side where
  pc := .typing
  turn := turn
  comFlag := 2
  buf := fun _ => 0
  buf2 := fun _ => 0
  buf3 := fun _ => 0
  buf4 := fun _ => 0
  typed := []
  printed := []

namespace Side

theorem converse_of_turn (h : x.turn = true) : x.converse = { x with pc := .typing } := if_pos h

theorem converse_of_not_turn (h : x.turn = false) : x.converse =
    { x with pc := .recv 0, buf4 := fun i => if i < bufSize then 0 else x.buf4 i } := by
  simp only [converse, h]
  rfl

end Side

theorem conversing_start (hx : x.turn = true) (hy : y.turn = false) (hxt : x.typed = [])
    (hxp : x.printed = []) (hyt : y.typed = []) (hyp : y.printed = []) :
    Conversing (.pair s x.converse y.converse [] []) := by
  refine ⟨s, _, _, _, _, rfl, ?_⟩
  rw [Side.converse_of_turn hx, Side.converse_of_not_turn hy]
  refine .idle rfl rfl hx hy (Side.blank_cleared _) ⟨?_, ?_⟩
  · exact hxp.trans (by rw [hyt]; rfl)
  · exact hyp.trans (by rw [hxt]; rfl)

/-- **Conversations are faithful.**  From any two programs behind the handshake, of which one has
the turn, and with nothing on the way, whatever the users type and in whatever order the programs
run. -/
theorem conversation_faithful {s : Bool} {x y : Side} (hx : x.turn = true) (hy : y.turn = false)
    (hxt : x.typed = []) (hxp : x.printed = []) (hyt : y.typed = []) (hyp : y.printed = [])
    {c : Chat} (h : chatMachine.Reachable (.pair s x.converse y.converse [] []) c) :
    Faithful c :=
  (h.invariant (conversing_start hx hy hxt hxp hyt hyp) fun _ _ _ hc _ hst => hc.step hst).faithful

/-- The line `hi`. -/
def lineHi : Line where
  chars := [0x68, 0x69]
  ok := by decide +kernel
  length_lt := by decide

/-- The line `yes`. -/
def lineYes : Line where
  chars := [0x79, 0x65, 0x73]
  ok := by decide +kernel
  length_lt := by decide

/-- One user types `hi`, and the other one answers `yes`. -/
def hiYes : List ChatLabel :=
  [.type false lineHi, .run false, .run true, .run false, .run false, .run true, .run false,
    .run false, .run true, .type true lineYes, .run true, .run false, .run true, .run true,
    .run false, .run true, .run true, .run false, .run true, .run true, .run false]

/-- Both lines are printed, and the turn is back at the first program. -/
theorem conversation_faithful_hi : ∃ c, chatMachine.exec
    (.pair false (Side.empty true).converse (Side.empty false).converse [] []) hiYes = some c ∧
    (c.side true).printed = [[0x68, 0x69]] ∧ (c.side false).printed = [[0x79, 0x65, 0x73]] ∧
    (c.side false).pc = .typing ∧ Faithful c := by
  obtain ⟨c, hexec, htrue, hfalse, hpc⟩ : ∃ c, chatMachine.exec
      (.pair false (Side.empty true).converse (Side.empty false).converse [] []) hiYes = some c ∧
      (c.side true).printed = [[0x68, 0x69]] ∧ (c.side false).printed = [[0x79, 0x65, 0x73]] ∧
      (c.side false).pc = .typing := ⟨_, rfl, rfl, rfl, rfl⟩
  exact ⟨c, hexec, htrue, hfalse, hpc,
    conversation_faithful rfl rfl rfl rfl rfl rfl (Machine.reachable_of_exec hexec)⟩

end KTeamOS
