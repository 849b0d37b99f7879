import KTeamOS.Chat.Program

/-!
# The handshake of the chat program

The machine whose name begins with the smaller character sends its name first.  One run is followed
to its end here; because the two programs commute, it decides about all orders of their steps.  It
deadlocks when the two characters are equal, and the name that arrives is not followed by a NUL.

## Main definitions

* `Chat.start` : the two programs when the names have been typed.
* `HandshakeMeets` : the handshake never deadlocks, ends, and leaves one turn and both names.
-/

namespace KTeamOS

/-- What the stack holds where the buffers of `main` are. -/
structure ChatStack where
  buf : ℕ → UInt8
  buf2 : ℕ → UInt8
  buf3 : ℕ → UInt8
  buf4 : ℕ → UInt8

/-- A program when its user has typed the name: `buf[cnt] = '\0'` replaces the newline. -/
def Side.start (name : Line) (stack : ChatStack) : Side where
  pc := .greet
  turn := false
  comFlag := 0
  buf := fun i => (name.chars ++ [0])[i]?.getD (stack.buf i)
  buf2 := stack.buf2
  buf3 := stack.buf3
  buf4 := stack.buf4
  typed := []
  printed := []

namespace Chat

/-- The two programs before they have sent anything, with the names that their users will type. -/
def start (name : Bool → Line) (stack : Bool → ChatStack) : Chat where
  side b := Side.start (name b) (stack b)
  inbox _ := []

/-- The handshake is behind both programs. -/
def Shaken (c : Chat) : Prop := ∀ b, (c.side b).comFlag = 2

/-- Exactly one program has got the turn. -/
def OneTurn (c : Chat) : Prop := ∃ s, (c.side s).turn = true ∧ (c.side (!s)).turn = false

end Chat

/-- The handshake that begins in `c₀` does what it is for. -/
structure HandshakeMeets (name : Bool → Line) (c₀ : Chat) : Prop where
  notDeadlocked : ∀ c, serialMachine.Reachable c₀ c → ¬ c.Deadlocked
  /-- No run goes on for ever. -/
  bounded : ∃ n, ∀ ls c, serialMachine.exec c₀ ls = some c → ls.length ≤ n
  ends : ∀ c, serialMachine.Reachable c₀ c → serialMachine.Final c →
    c.Shaken ∧ c.OneTurn ∧ ∀ b, text (c.side b).buf2 = (name !b).chars

/-- The first character of a name, or the NUL behind an empty one. -/
def Line.initial (name : Line) : UInt8 := name.chars[0]?.getD 0

namespace Side

theorem halfDone_pc (x : Side) (p : Pc) : ({ x with pc := p } : Side).halfDone = x.halfDone := by
  unfold halfDone handshake converse
  split_ifs <;> rfl

section Steps

variable {x : Side} {i : ℕ} {rest : List UInt8}

theorem run_sendName (hpc : x.pc = .sendName i) (h0 : x.buf i ≠ 0) (hn : x.buf i ≠ 0x0A) :
    x.run rest = some ({ x with pc := .ackName i }, rest, [x.buf i]) := by
  refine run_of_proceed (by rw [hpc]; exact id) ?_
  simp only [proceed, hpc]
  exact if_pos ⟨h0, hn⟩

theorem run_sendName_end (hpc : x.pc = .sendName i) (h0 : x.buf i = 0) :
    x.run rest = some (x.halfDone, rest, [0xFE]) := by
  refine run_of_proceed (by rw [hpc]; exact id) ?_
  simp only [proceed, hpc]
  exact if_neg fun h => h.1 h0

theorem run_ackName (hpc : x.pc = .ackName i) :
    x.run (0xFA :: rest) = some ({ x with pc := .sendName (i + 1) }, rest, []) := by
  rw [run_of_receive (by rw [hpc]; exact trivial)]
  simp only [receive, hpc]
  rfl

theorem run_recvName (hpc : x.pc = .recvName i) {c : UInt8} (hc : c < 0xFD) :
    x.run (c :: rest) =
      some ({ x with pc := .recvName (i + 1), buf2 := Function.update x.buf2 i c }, rest,
        [0xFA]) := by
  have hFE : c ≠ 0xFE := by rintro rfl; exact absurd hc (by decide)
  have hFF : c ≠ 0xFF := by rintro rfl; exact absurd hc (by decide)
  rw [run_of_receive (by rw [hpc]; exact trivial)]
  simp only [receive, hpc]
  rw [if_neg hFE, if_neg hFF]

theorem run_recvName_end (hpc : x.pc = .recvName i) :
    x.run (0xFE :: rest) = some (x.halfDone, rest, []) := by
  rw [run_of_receive (by rw [hpc]; exact trivial)]
  simp only [receive, hpc]
  rfl

end Steps

end Side

/-! ### One half of the handshake -/

section Half

open Machine

variable {s : Bool} {x y : Side} {i n : ℕ}

/-- A character of the name is sent, received and acknowledged. -/
theorem exec_char (hx : x.pc = .sendName i) (hy : y.pc = .recvName i)
    (h0 : x.buf i ≠ 0) (hn : x.buf i ≠ 0x0A) (hlt : x.buf i < 0xFD) :
    serialMachine.exec (.pair s x y [] []) [s, !s, s] =
      some (.pair s { x with pc := .sendName (i + 1) }
        { y with pc := .recvName (i + 1), buf2 := Function.update y.buf2 i (x.buf i) } [] []) := by
  refine exec_cons.2 ⟨_, Chat.run_left (Side.run_sendName hx h0 hn), ?_⟩
  refine exec_cons.2 ⟨_, Chat.run_right (Side.run_recvName hy hlt), ?_⟩
  exact exec_cons.2 ⟨_, Chat.run_left (Side.run_ackName rfl), rfl⟩

/-- The name of `x`, from its character `i` on, is sent to `y`. -/
theorem exec_half (hx : x.pc = .sendName i) (hy : y.pc = .recvName i)
    (hchar : ∀ j, i ≤ j → j < i + n → x.buf j ≠ 0 ∧ x.buf j ≠ 0x0A ∧ x.buf j < 0xFD)
    (hend : x.buf (i + n) = 0) :
    ∃ ls, serialMachine.exec (.pair s x y [] []) ls =
      some (.pair s ({ x with pc := .sendName (i + n) } : Side).halfDone
        ({ y with
          pc := .recvName (i + n)
          buf2 := fun j => if i ≤ j ∧ j < i + n then x.buf j else y.buf2 j } : Side).halfDone
        [] []) := by
  induction n generalizing x y i with
  | zero =>
    have hx' : ({ x with pc := .sendName (i + 0) } : Side) = x := by rw [Nat.add_zero, ← hx]
    have hy' : ({ y with
        pc := .recvName (i + 0)
        buf2 := fun j => if i ≤ j ∧ j < i + 0 then x.buf j else y.buf2 j } : Side) = y := by
      have hbuf : (fun j => if i ≤ j ∧ j < i + 0 then x.buf j else y.buf2 j) = y.buf2 :=
        funext fun j => if_neg (by omega)
      rw [hbuf, Nat.add_zero, ← hy]
    rw [hx', hy']
    refine ⟨[s, !s], exec_cons.2 ⟨_, Chat.run_left (Side.run_sendName_end hx hend), ?_⟩⟩
    exact exec_cons.2 ⟨_, Chat.run_right (Side.run_recvName_end hy), rfl⟩
  | succ n ih =>
    obtain ⟨h0, hn, hlt⟩ := hchar i (Nat.le_refl i) (by omega)
    obtain ⟨ls, hls⟩ := ih (x := { x with pc := .sendName (i + 1) })
      (y := { y with pc := .recvName (i + 1), buf2 := Function.update y.buf2 i (x.buf i) })
      (i := i + 1) rfl rfl (fun j hj hj' => hchar j (by omega) (by omega))
      (by rw [Nat.add_right_comm]; exact hend)
    -- one character takes three steps: it is sent, read and acknowledged
    refine ⟨[s, !s, s] ++ ls, exec_append (exec_char hx hy h0 hn hlt) ?_⟩
    have hi : i + 1 + n = i + (n + 1) := by omega
    rw [hi] at hls
    have hbuf : (fun j => if i + 1 ≤ j ∧ j < i + (n + 1) then x.buf j
        else Function.update y.buf2 i (x.buf i) j) =
        fun j => if i ≤ j ∧ j < i + (n + 1) then x.buf j else y.buf2 j := by
      funext j
      by_cases hj : j = i
      · rw [hj, if_neg (by omega), if_pos (by omega), Function.update_self]
      · rw [Function.update_of_ne hj]
        exact if_congr (by omega) rfl rfl
    rw [hls]
    simp only [hbuf]

end Half

/-! ### The first bytes -/

section Start

open Machine

variable {name : Bool → Line} {stack : Bool → ChatStack} {s : Bool}

theorem exists_initial_lt (h : (name false).initial ≠ (name true).initial) :
    ∃ s, (name s).initial < (name !s).initial := by
  rcases UInt8.lt_or_lt_of_ne h with hlt | hlt
  · exact ⟨false, hlt⟩
  · exact ⟨true, hlt⟩

/-- Two programs that wait for nothing take no step. -/
theorem Chat.Deadlocked.final {c : Chat} (h : c.Deadlocked) : serialMachine.Final c := by
  intro b
  obtain ⟨-, hwait, hinbox⟩ := h b
  have hrun : (c.side b).run (c.inbox b) = none := by
    rw [hinbox]
    exact if_pos hwait
  change Option.map _ ((c.side b).run (c.inbox b)) = none
  rw [hrun, Option.map_none]

theorem Line.initial_lt (l : Line) : l.initial < 0xFD := by
  unfold Line.initial
  cases hl : l.chars with
  | nil => decide
  | cons c cs => exact (l.ok c (by rw [hl]; exact List.mem_cons_self ..)).2.2

theorem Side.start_buf_zero (l : Line) (st : ChatStack) : (Side.start l st).buf 0 = l.initial := by
  unfold Side.start Line.initial
  cases l.chars <;> rfl

theorem Side.start_buf_of_lt {l : Line} {st : ChatStack} {j : ℕ} (hj : j < l.chars.length) :
    (Side.start l st).buf j = l.chars[j] := by
  simp [Side.start, hj, List.getElem?_append_left]

theorem Side.start_buf_length (l : Line) (st : ChatStack) :
    (Side.start l st).buf l.chars.length = 0 := by
  simp [Side.start]

theorem Chat.start_eq_pair : Chat.start name stack =
    .pair s (Side.start (name s) (stack s)) (Side.start (name !s) (stack !s)) [] [] := by
  have hb : ∀ b, b ≠ s → b = (!s) := by cases s <;> decide
  unfold Chat.start Chat.pair
  refine congrArg₂ Chat.mk ?_ ?_ <;> funext b <;> by_cases h : b = s
  · rw [if_pos h, h]
  · rw [if_neg h, hb b h]
  · exact (if_pos h).symm
  · exact (if_neg h).symm

/-- A program that has seen the first byte of the other. -/
def Side.greeted (own other : Line) (st : ChatStack) : Side :=
  if own.initial < other.initial then
    { Side.start own st with pc := .sendName 0, turn := true }
  else { Side.start own st with pc := .recvName 0 }

theorem Side.run_first (own other : Line) (st : ChatStack) :
    ({ Side.start own st with pc := .first } : Side).run [other.initial] =
      some (Side.greeted own other st, [], []) := by
  have hFF : other.initial ≠ 0xFF := by
    intro h
    have hlt := other.initial_lt
    rw [h] at hlt
    exact absurd hlt (by decide)
  refine (run_of_receive (by exact trivial)).trans ?_
  simp only [receive]
  rw [if_neg hFF, start_buf_zero]
  by_cases hlt : own.initial < other.initial
  · rw [greeted, if_pos hlt, decide_eq_true hlt]
    rfl
  · rw [greeted, if_neg hlt, decide_eq_false hlt]
    rfl

theorem exec_greet (name : Bool → Line) (stack : Bool → ChatStack) (s : Bool) :
    serialMachine.exec (.start name stack) [s, !s, s, !s] =
      some (.pair s (Side.greeted (name s) (name !s) (stack s))
        (Side.greeted (name !s) (name s) (stack !s)) [] []) := by
  have hgreet : ∀ (l : Line) (st : ChatStack) (rest : List UInt8), (Side.start l st).run rest =
      some ({ Side.start l st with pc := .first }, rest, [l.initial]) := by
    intro l st rest
    rw [← Side.start_buf_zero l st]
    rfl
  rw [Chat.start_eq_pair (s := s)]
  refine exec_cons.2 ⟨_, Chat.run_left (hgreet _ _ _), ?_⟩
  refine exec_cons.2 ⟨_, Chat.run_right (hgreet _ _ _), ?_⟩
  refine exec_cons.2 ⟨_, Chat.run_left (Side.run_first _ _ _), ?_⟩
  exact exec_cons.2 ⟨_, Chat.run_right (Side.run_first _ _ _), rfl⟩

/-- Two programs that both see no larger byte than their own wait for each other's name. -/
theorem not_handshakeMeets_of_initial (h : (name false).initial = (name !false).initial) :
    ¬ HandshakeMeets name (.start name stack) := by
  intro hmeets
  refine hmeets.notDeadlocked _ (reachable_of_exec (exec_greet name stack false)) fun b => ?_
  have hwait : ∀ (own other : Line) (st : ChatStack), own.initial = other.initial →
      Side.greeted own other st = { Side.start own st with pc := .recvName 0 } := by
    intro own other st heq
    exact if_neg (by rw [heq]; exact UInt8.lt_irrefl _)
  cases b with
  | false =>
    rw [Chat.pair_side_left, Chat.pair_inbox_left, hwait _ _ _ h]
    exact ⟨trivial, trivial, rfl⟩
  | true =>
    rw [show true = !false from rfl, Chat.pair_side_right, Chat.pair_inbox_right,
      hwait _ _ _ h.symm]
    exact ⟨trivial, trivial, rfl⟩

/-! ### The end of the handshake -/

/-- The buffer `buf2` behind the handshake. -/
def received (l : Line) (b : ℕ → UInt8) (j : ℕ) : UInt8 := l.chars[j]?.getD (b j)

/-- The program that sends its name first, at the end. -/
def Side.leader (own other : Line) (st : ChatStack) : Side :=
  { Side.start own st with
    pc := .typing
    turn := true
    comFlag := 2
    buf2 := received other st.buf2 }

/-- The other one. -/
def Side.follower (own other : Line) (st : ChatStack) : Side :=
  { Side.start own st with
    pc := .recv 0
    comFlag := 2
    buf2 := received other st.buf2
    buf4 := fun i => if i < bufSize then 0 else st.buf4 i }

theorem received_eq (l : Line) (st : ChatStack) (b : ℕ → UInt8) :
    (fun j => if 0 ≤ j ∧ j < 0 + l.chars.length then (Side.start l st).buf j else b j) =
      received l b := by
  funext j
  unfold received
  by_cases hj : j < l.chars.length
  · rw [if_pos (by omega), Side.start_buf_of_lt hj, List.getElem?_eq_getElem hj, Option.getD_some]
  · rw [if_neg (by omega), List.getElem?_eq_none (Nat.le_of_not_lt hj), Option.getD_none]

/-- The name of `x` is sent to `y`: `exec_half` for the whole of it. -/
theorem exec_name (l : Line) (st : ChatStack) {x y : Side} (hx : x.pc = .sendName 0)
    (hy : y.pc = .recvName 0) (hbuf : x.buf = (Side.start l st).buf) :
    ∃ ls, serialMachine.exec (.pair s x y [] []) ls =
      some (.pair s x.halfDone ({ y with buf2 := received l y.buf2 } : Side).halfDone [] []) := by
  obtain ⟨ls, hls⟩ := exec_half (s := s) (n := l.chars.length) hx hy (fun j _ hj => by
    rw [Nat.zero_add] at hj
    rw [hbuf, Side.start_buf_of_lt hj]
    exact l.ok _ (List.getElem_mem hj))
    (by rw [hbuf, Nat.zero_add, Side.start_buf_length])
  rw [hbuf, received_eq, ← hbuf, Side.halfDone_pc] at hls
  exact ⟨ls, hls.trans (congrArg (fun z => some (Chat.pair s _ z [] []))
    (Side.halfDone_pc { y with buf2 := received l y.buf2 } _))⟩

/-- The run of the whole handshake. -/
theorem exec_handshake (stack : Bool → ChatStack) (h : (name s).initial < (name !s).initial) :
    ∃ ls, serialMachine.exec (.start name stack) ls =
      some (.pair s (Side.leader (name s) (name !s) (stack s))
        (Side.follower (name !s) (name s) (stack !s)) [] []) := by
  have hgreet := exec_greet name stack s
  rw [Side.greeted, if_pos h, Side.greeted, if_neg (UInt8.lt_asymm h)] at hgreet
  obtain ⟨ls₁, h₁⟩ := exec_name (s := s) (name s) (stack s)
    (x := { Side.start (name s) (stack s) with pc := .sendName 0, turn := true })
    (y := { Side.start (name !s) (stack !s) with pc := .recvName 0 }) rfl rfl rfl
  obtain ⟨ls₂, h₂⟩ := exec_name (s := !s) (name !s) (stack !s)
    (x := ({ ({ Side.start (name !s) (stack !s) with pc := .recvName 0 } : Side) with
      buf2 := received (name s) (stack !s).buf2 } : Side).halfDone)
    (y := ({ Side.start (name s) (stack s) with pc := .sendName 0, turn := true } : Side).halfDone)
    rfl rfl rfl
  rw [Chat.pair_swap, Chat.pair_swap] at h₂
  exact ⟨_, exec_append (exec_append hgreet h₁) h₂⟩

/-- Behind the handshake one user has to type. -/
theorem final_handshake (x : Line × Line × ChatStack) (y : Line × Line × ChatStack) :
    serialMachine.Final (.pair s (Side.leader x.1 x.2.1 x.2.2) (Side.follower y.1 y.2.1 y.2.2)
      [] []) := by
  have hleader : (Side.leader x.1 x.2.1 x.2.2).run [] = none := rfl
  have hfollower : (Side.follower y.1 y.2.1 y.2.2).run [] = none := rfl
  refine forall_side s ?_ ?_
  · simp only [serialMachine, Chat.run, Chat.pair_side_left, Chat.pair_inbox_left, hleader,
      Option.map_none]
  · simp only [serialMachine, Chat.run, Chat.pair_side_right, Chat.pair_inbox_right, hfollower,
      Option.map_none]

/-- The name that arrived is read back if a NUL is behind it. -/
theorem text_received_iff (l : Line) (b : ℕ → UInt8) :
    text (received l b) = l.chars ↔ b l.chars.length = 0 := by
  have hlen := l.length_lt
  have hend : received l b l.chars.length = b l.chars.length := by
    unfold received
    rw [List.getElem?_eq_none (Nat.le_refl _), Option.getD_none]
  constructor
  · intro h
    have h0 := field_eq_zero h (by omega)
    rwa [Nat.zero_add, hend] at h0
  · intro h
    refine field_eq (fun h0 => (l.ok 0 h0).1 rfl) (by omega) (fun j hj => ?_) fun _ => ?_
    · rw [Nat.zero_add]
      unfold received
      rw [List.getElem?_eq_getElem hj, Option.getD_some]
    · rw [Nat.zero_add, hend, h]

/-- **When the handshake succeeds.**  It needs names with different first characters, and a NUL
where the name that arrives ends in `buf2`, which the program leaves as it found it. -/
theorem handshakeMeets_iff (name : Bool → Line) (stack : Bool → ChatStack) :
    HandshakeMeets name (.start name stack) ↔
      (name false).initial ≠ (name true).initial ∧
        ∀ b, (stack b).buf2 (name !b).chars.length = 0 := by
  constructor
  · intro hmeets
    have hne : (name false).initial ≠ (name true).initial :=
      fun h => not_handshakeMeets_of_initial h hmeets
    obtain ⟨s, hlt⟩ := exists_initial_lt hne
    obtain ⟨ls, hexec⟩ := exec_handshake stack hlt
    obtain ⟨-, -, htext⟩ := hmeets.ends _ (reachable_of_exec hexec)
      (final_handshake (_, _, _) (_, _, _))
    refine ⟨hne, forall_side s ?_ ?_⟩
    · refine (text_received_iff _ _).1 ?_
      rw [← htext s, Chat.pair_side_left]
      rfl
    · refine (text_received_iff _ _).1 ?_
      rw [← htext (!s), Chat.pair_side_right, Bool.not_not]
      rfl
  -- all runs end in the state in which one run has been found to end
  · rintro ⟨hne, hstack⟩
    obtain ⟨s, hlt⟩ := exists_initial_lt hne
    obtain ⟨ls, hexec⟩ := exec_handshake stack hlt
    have hfinal := final_handshake (s := s) (name s, name !s, stack s) (name !s, name s, stack !s)
    have heq : ∀ c, serialMachine.Reachable (.start name stack) c → serialMachine.Final c →
        c = .pair s (Side.leader (name s) (name !s) (stack s))
          (Side.follower (name !s) (name s) (stack !s)) [] [] := by
      intro c hc hf
      obtain ⟨ks, hks⟩ := hc.exists_exec
      exact serialMachine_commutes.eq_of_final hexec hfinal hks hf
    refine ⟨fun c hc hdead => ?_, ⟨ls.length, fun ks c hks => ?_⟩, fun c hc hf => ?_⟩
    · -- a deadlocked state is the end of a run, but there one program is at its keyboard
      have hwait := (hdead s).2.1
      rw [heq c hc hdead.final, Chat.pair_side_left] at hwait
      exact hwait
    · obtain ⟨ls', -, hlen⟩ := serialMachine_commutes.exec_final hexec hfinal hks
      omega
    · rw [heq c hc hf]
      refine ⟨?_, ⟨s, ?_, ?_⟩, ?_⟩
      · exact forall_side s (by rw [Chat.pair_side_left]; rfl) (by rw [Chat.pair_side_right]; rfl)
      · rw [Chat.pair_side_left]
        rfl
      · rw [Chat.pair_side_right]
        rfl
      · refine forall_side s ?_ ?_
        · rw [Chat.pair_side_left]
          exact (text_received_iff _ _).2 (hstack s)
        · rw [Chat.pair_side_right]
          refine (text_received_iff (name s) _).2 ?_ |>.trans (by rw [Bool.not_not])
          have h := hstack (!s)
          rwa [Bool.not_not] at h

/-- Two users of one name wait for each other. -/
theorem not_handshakeMeets_same : ¬ HandshakeMeets
    (fun _ => lineA) (.start (fun _ => lineA)
      fun _ => { buf := fun _ => 0, buf2 := fun _ => 0, buf3 := fun _ => 0, buf4 := fun _ => 0 }) :=
  not_handshakeMeets_of_initial rfl

end Start

end KTeamOS
