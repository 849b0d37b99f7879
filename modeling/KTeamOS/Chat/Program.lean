import KTeamOS.LTS.Confluence
import KTeamOS.Text.CString

/-!
# The chat program

`main` of `ece391chat.c` on two machines that are joined by a serial line.  A byte that is sent
arrives, in order, and a receiver waits for as long as it takes.

## Main definitions

* `Side`, `Side.run` : one program, and what it does next.
* `Chat`, `serialMachine` : the two programs and what is on the line; a label says which one runs.
* `chatMachine` : the same with users who type lines.
-/

namespace KTeamOS

/-- `BUFSIZE` -/
abbrev bufSize : ℕ := 1024

/-- A line that was typed, without its newline: no byte of it is one of those that the programs use
as signals. -/
structure Line where
  chars : List UInt8
  ok : ∀ c ∈ chars, c ≠ 0 ∧ c ≠ 0x0A ∧ c < 0xFD
  length_lt : chars.length + 1 < bufSize

/-- The line `a`. -/
def lineA : Line where
  chars := [0x61]
  ok := List.forall_mem_singleton.2 (by decide)
  length_lt := by decide

/-- The places in `main` where a step begins. -/
inductive Pc
  /-- Before the first `ece391_tx`. -/
  | greet
  /-- At the first `ece391_rx`. -/
  | first
  | sendName (i : ℕ)
  | ackName (i : ℕ)
  | recvName (i : ℕ)
  /-- At `ece391_read` of a line. -/
  | typing
  | send (i : ℕ)
  | ack (i : ℕ)
  | recv (i : ℕ)
  /-- `return 0;` -/
  | done
  /-- Behind "Transmission failed". -/
  | failed
  /-- Behind "Connection timed out". -/
  | timedOut
  deriving DecidableEq

/-- The program waits for a byte. -/
def Pc.Waiting : Pc → Prop
  | first | ackName _ | recvName _ | ack _ | recv _ => True
  | greet | sendName _ | typing | send _ | done | failed | timedOut => False

/-- The program has not returned. -/
def Pc.Running : Pc → Prop
  | done | failed | timedOut => False
  | _ => True

/-- One program. -/
structure Side where
  pc : Pc
  turn : Bool
  comFlag : ℕ
  buf : ℕ → UInt8
  buf2 : ℕ → UInt8
  buf3 : ℕ → UInt8
  buf4 : ℕ → UInt8
  /-- Not part of the source: the lines that the user has typed. -/
  typed : List Line
  /-- Not part of the source: the texts printed at the ends of messages. -/
  printed : List (List UInt8)

/-- The string in a buffer. -/
def text (b : ℕ → UInt8) : List UInt8 := field b bufSize 0

/-- `0 == ece391_strcmp(buf4,(uint8_t*)"exit")` -/
def IsExit (b : ℕ → UInt8) : Prop := field b 5 0 = [0x65, 0x78, 0x69, 0x74]

instance (b : ℕ → UInt8) : Decidable (IsExit b) := inferInstanceAs (Decidable (_ = _))

namespace Side

/-- The head of `while(1)`: the program that has not got the turn clears `buf4`. -/
def converse (s : Side) : Side :=
  if s.turn then { s with pc := .typing }
  else { s with pc := .recv 0, buf4 := fun i => if i < bufSize then 0 else s.buf4 i }

/-- The head of `while(com_flag < 2)`. -/
def handshake (s : Side) : Side :=
  if s.comFlag < 2 then { s with pc := if s.turn then .sendName 0 else .recvName 0 }
  else s.converse

/-- The end of one half of the handshake. -/
def halfDone (s : Side) : Side := { s with comFlag := s.comFlag + 1, turn := !s.turn }.handshake

/-- The end of a message that goes on with the roles changed. -/
def flip (s : Side) : Side := { s with turn := !s.turn }.converse

/-- What is printed at the end of a message. -/
def print (s : Side) : Side := { s with printed := s.printed ++ [text s.buf4] }

/-- What a program does with a byte that it waits for: its next state and what it sends. -/
def receive (s : Side) (c : UInt8) : Side × List UInt8 :=
  match s.pc with
  | .first =>
    if c = 0xFF then ({ s with pc := .timedOut }, [])
    else ({ s with turn := decide (c > s.buf 0) }.handshake, [])
  | .ackName i =>
    if c ≠ 0xFA then ({ s with pc := .failed }, []) else ({ s with pc := .sendName (i + 1) }, [])
  | .recvName i =>
    if c = 0xFE then (s.halfDone, [])
    else if c = 0xFF then ({ s with pc := .timedOut }, [])
    else ({ s with pc := .recvName (i + 1), buf2 := Function.update s.buf2 i c }, [0xFA])
  | .ack i =>
    if c ≠ 0xFA then ({ s with pc := .failed }, []) else ({ s with pc := .send (i + 1) }, [])
  | .recv i =>
    if c = 0xFE then (s.print.flip, [])
    else if c = 0xFD then ({ s.print with pc := .done }, [])
    else if c = 0xFF then ({ s with pc := .timedOut }, [])
    else ({ s with pc := .recv (i + 1), buf4 := Function.update s.buf4 i c }, [0xFA])
  | _ => (s, [])

/-- What a program does that does not wait, if it can go on: its next state and what it sends. -/
def proceed (s : Side) : Option (Side × List UInt8) :=
  match s.pc with
  | .greet => some ({ s with pc := .first }, [s.buf 0])
  | .sendName i =>
    if s.buf i ≠ 0 ∧ s.buf i ≠ 0x0A then some ({ s with pc := .ackName i }, [s.buf i])
    else some (s.halfDone, [0xFE])
  | .send i =>
    if s.buf3 i ≠ 0 ∧ s.buf3 i ≠ 0x0A then some ({ s with pc := .ack i }, [s.buf3 i])
    else if IsExit s.buf4 then some ({ s with pc := .done }, [0xFD])
    else some (s.flip, [0xFE])
  | _ => none

instance (p : Pc) : Decidable p.Waiting := by
  cases p <;> first | exact isTrue trivial | exact isFalse id

/-- The next step of a program with the bytes `inbox` in front of it: its next state, what is left
of them, and what it sends. -/
def run (s : Side) (inbox : List UInt8) : Option (Side × List UInt8 × List UInt8) :=
  if s.pc.Waiting then
    match inbox with
    | [] => none
    | c :: rest => some ((s.receive c).1, rest, (s.receive c).2)
  else s.proceed.map fun r => (r.1, inbox, r.2)

/-- The user types a line. -/
def type (s : Side) (line : Line) : Option Side :=
  if s.pc = .typing then
    some { s with
      pc := .send 0
      buf3 := fun i => (line.chars ++ [0x0A])[i]?.getD (s.buf3 i)
      typed := s.typed ++ [line] }
  else none

end Side

/-- The two programs and the bytes on the way to each. -/
structure Chat where
  side : Bool → Side
  inbox : Bool → List UInt8

namespace Chat

/-- One side goes on until it has to wait for a byte or for its user. -/
def run (c : Chat) (b : Bool) : Option Chat :=
  ((c.side b).run (c.inbox b)).map fun r =>
    { side := Function.update c.side b r.1
      inbox := fun x => if x = b then r.2.1 else c.inbox x ++ r.2.2 }

/-- The user of one side types a line, if the program waits for one. -/
def type (c : Chat) (b : Bool) (line : Line) : Option Chat :=
  ((c.side b).type line).map fun s => { c with side := Function.update c.side b s }

/-- The programs `x` and `y` on the machines `s` and `!s`, with `i` and `j` on the way to them. -/
def pair (s : Bool) (x y : Side) (i j : List UInt8) : Chat where
  side b := if b = s then x else y
  inbox b := if b = s then i else j

/-- Both programs run and wait, and nothing is on the way. -/
def Deadlocked (c : Chat) : Prop :=
  ∀ b, (c.side b).pc.Running ∧ (c.side b).pc.Waiting ∧ c.inbox b = []

end Chat

/-- The two programs, where nobody types. -/
def serialMachine : Machine Chat Bool where
  step := Chat.run

/-- A step of a program, or of its user. -/
inductive ChatLabel
  | run (b : Bool)
  | type (b : Bool) (line : Line)

/-- Either program runs, or either user types. -/
def chatMachine : Machine Chat ChatLabel where
  step c
    | .run b => c.run b
    | .type b line => c.type b line

/-! ### The two programs commute -/

namespace Side

/-- What arrives later does not change what the program does now. -/
theorem run_append {s s' : Side} {inbox rest out x : List UInt8}
    (h : s.run inbox = some (s', rest, out)) : s.run (inbox ++ x) = some (s', rest ++ x, out) := by
  unfold run at h ⊢
  split_ifs at h ⊢ with hwait
  · cases inbox with
    | nil => cases h
    | cons c inbox =>
      cases h
      rfl
  · obtain ⟨r, hr, hr'⟩ := Option.map_eq_some_iff.1 h
    cases hr'
    rw [hr]
    rfl

variable {x : Side} {rest : List UInt8}

theorem run_of_proceed {x' : Side} {out : List UInt8} (hw : ¬ x.pc.Waiting)
    (h : x.proceed = some (x', out)) : x.run rest = some (x', rest, out) := by
  unfold run
  rw [if_neg hw, h]
  rfl

theorem run_of_receive (hw : x.pc.Waiting) {c : UInt8} :
    x.run (c :: rest) = some ((x.receive c).1, rest, (x.receive c).2) :=
  if_pos hw

theorem run_nil (hw : x.pc.Waiting) : x.run [] = none := if_pos hw

/-- A program that waits for its user, or has returned, does nothing. -/
theorem run_none (h : x.pc = .typing ∨ x.pc = .done) : x.run rest = none := by
  unfold run proceed
  rcases h with h | h <;> rw [h] <;> rfl

end Side

theorem forall_side {P : Bool → Prop} (s : Bool) (h : P s) (h' : P !s) : ∀ b, P b := by
  cases s <;> rintro (_ | _) <;> assumption

namespace Chat

variable {s : Bool} {x x' y y' : Side} {i i' j j' out : List UInt8}

@[simp] theorem pair_side_left : (pair s x y i j).side s = x := if_pos rfl

@[simp] theorem pair_side_right : (pair s x y i j).side (!s) = y := if_neg (by cases s <;> decide)

/-- What holds between each of two programs and the other one. -/
theorem forall_pair {P : Side → Side → Prop} (h : P x y) (h' : P y x) :
    ∀ b, P ((pair s x y i j).side b) ((pair s x y i j).side !b) := by
  refine forall_side s ?_ ?_
  · rwa [pair_side_left, pair_side_right]
  · rwa [Bool.not_not, pair_side_left, pair_side_right]

@[simp] theorem pair_inbox_left : (pair s x y i j).inbox s = i := if_pos rfl

@[simp] theorem pair_inbox_right : (pair s x y i j).inbox (!s) = j := if_neg (by cases s <;> decide)

theorem pair_swap : pair (!s) y x j i = pair s x y i j := by
  have hb : ∀ b, b = (!s) ↔ ¬ b = s := by cases s <;> decide
  simp only [pair, hb, ite_not]

theorem run_left (h : x.run i = some (x', i', out)) :
    (pair s x y i j).run s = some (pair s x' y i' (j ++ out)) := by
  rw [run, pair_side_left, pair_inbox_left, h, Option.map_some]
  refine congrArg some (congrArg₂ Chat.mk ?_ ?_) <;> funext b <;> by_cases hb : b = s
  · rw [hb, Function.update_self, if_pos rfl]
  · rw [Function.update_of_ne hb, if_neg hb]
    exact if_neg hb
  · rw [if_pos hb, if_pos hb]
  · rw [if_neg hb, if_neg hb]
    exact congrArg (· ++ out) (if_neg hb)

theorem run_right (h : y.run j = some (y', j', out)) :
    (pair s x y i j).run (!s) = some (pair s x y' (i ++ out) j') := by
  rw [← pair_swap, run_left h, pair_swap]

end Chat

/-- Two programs that can both take a step can do so in either order. -/
theorem serialMachine_commutes : serialMachine.Commutes := by
  intro c a b c₁ c₂ hab ha hb
  obtain ⟨⟨s₁, rest₁, out₁⟩, hs₁, rfl⟩ := Option.map_eq_some_iff.1 ha
  obtain ⟨⟨s₂, rest₂, out₂⟩, hs₂, rfl⟩ := Option.map_eq_some_iff.1 hb
  have hba : b ≠ a := Ne.symm hab
  have hcover : ∀ x : Bool, x ≠ b → x = a := by
    intro x hx
    cases a <;> cases b <;> cases x <;> simp_all
  refine ⟨⟨Function.update (Function.update c.side a s₁) b s₂, fun x =>
    if x = b then rest₂ ++ out₁ else rest₁ ++ out₂⟩, ?_, ?_⟩
  · have hrun : (Function.update c.side a s₁ b).run (c.inbox b ++ out₁) =
        some (s₂, rest₂ ++ out₁, out₂) := by
      rw [Function.update_of_ne hba]
      exact Side.run_append hs₂
    simp only [serialMachine, Chat.run, if_neg hba, hrun, Option.map_some]
    refine congrArg some (congrArg (Chat.mk _) (funext fun x => ?_))
    by_cases hx : x = b
    · rw [if_pos hx, if_pos hx]
    · rw [if_neg hx, if_neg hx, if_pos (hcover x hx)]
  · have hrun : (Function.update c.side b s₂ a).run (c.inbox a ++ out₂) =
        some (s₁, rest₁ ++ out₂, out₁) := by
      rw [Function.update_of_ne hab]
      exact Side.run_append hs₁
    simp only [serialMachine, Chat.run, if_neg hab, hrun, Option.map_some]
    refine congrArg some ?_
    rw [Function.update_comm hab]
    refine congrArg (Chat.mk _) (funext fun x => ?_)
    by_cases hx : x = b
    · rw [hx, if_neg hba, if_pos rfl, if_pos rfl]
    · rw [if_neg hx, if_pos (hcover x hx), if_neg hx]

end KTeamOS
