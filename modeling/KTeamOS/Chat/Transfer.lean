import Mathlib.Data.Nat.Digits.Defs
import KTeamOS.LTS.Duplex
import KTeamOS.Chat.Program

/-!
# Sending a message

`main` of `ece391tx.c` on one machine, behind the reading of its argument, and of `ece391rx.c` on
the other.  The receiver counts the bytes that it reads, and the first of them is the one that
makes the connection: of `cnt` bytes at most `cnt - 1` are characters of the message.

## Main definitions

* `Rx.main` : the argument of the receiver.
* `Tx.act`, `Rx.act` : the two programs as peers.
* `transfer` : both, joined by the serial line.
* `Transfers m n c₀` : what a transfer of `m` to a receiver of `n` characters is for.

## Main results

* `transfers_iff` : it succeeds exactly if `n` is zero or greater than the length of the message.
-/

namespace KTeamOS

/-- An argument of `tx`: ASCII characters. -/
structure Message where
  chars : List UInt8
  ok : ∀ c ∈ chars, c ≠ 0 ∧ c ≠ 0x0A ∧ c < 0x80
  length_lt : chars.length < bufSize

/-- The places in `main` of `ece391tx.c`. -/
inductive TxPc
  /-- Before the connection byte. -/
  | connect
  /-- At the `ece391_rx` behind it. -/
  | connected
  | send (i : ℕ)
  | ack (i : ℕ)
  | done
  /-- Behind "Bad connection". -/
  | badConnection
  /-- Behind "Transmission failed". -/
  | failed

/-- The state of `tx`: where it is, and the argument in its buffer. -/
structure Tx where
  pc : TxPc
  buf : ℕ → UInt8

/-- The 100 reads of the clock behind the connection byte take time only. -/
def Tx.act : Peer Tx UInt8 := fun s =>
  match s.pc with
  | .connect => .write { s with pc := .connected } [0xFC]
  | .connected => .read fun c =>
    if c ≠ 0xFA then ({ s with pc := .badConnection }, []) else ({ s with pc := .send 0 }, [])
  | .send i =>
    if s.buf i ≠ 0 ∧ s.buf i ≠ 0x0A then .write { s with pc := .ack i } [s.buf i]
    else .write { s with pc := .done } [0xFE]
  | .ack i => .read fun c =>
    if c ≠ 0xFA then ({ s with pc := .failed }, []) else ({ s with pc := .send (i + 1) }, [])
  | .done | .badConnection | .failed => .stop

/-- The places in `main` of `ece391rx.c`. -/
inductive RxPc
  /-- At the head of the loop. -/
  | loop (i : ℕ)
  | done
  /-- Behind "Connection timed out". -/
  | timedOut

/-- The state of `rx`: where it is, its count, and what it has shown. -/
structure Rx where
  pc : RxPc
  cnt : ℕ
  /-- The characters written to the screen. -/
  printed : List UInt8
  /-- Not part of the source: the bytes that the program has read and sent. -/
  received : List UInt8
  sent : List UInt8

/-- The `switch` on a byte, where the program has counted `i` of them before. -/
def Rx.receive (s : Rx) (i : ℕ) (c : UInt8) : Rx × List UInt8 :=
  if c = 0xFE then
    ({ s with pc := .done, printed := s.printed ++ [0x0A], received := s.received ++ [c] }, [])
  else if c = 0xFC then
    ({ s with pc := .loop (i + 1), received := s.received ++ [c], sent := s.sent ++ [0xFA] },
      [0xFA])
  else if c = 0xFF then ({ s with pc := .timedOut, received := s.received ++ [c] }, [])
  else
    ({ s with
      pc := .loop (i + 1)
      printed := s.printed ++ [c]
      received := s.received ++ [c]
      sent := s.sent ++ [0xFA] }, [0xFA])

/-- What `rx` does next. -/
def Rx.act : Peer Rx UInt8 := fun s =>
  match s.pc with
  | .loop i => if i < s.cnt then .read (s.receive i) else .write { s with pc := .done } []
  | .done | .timedOut => .stop

/-- The two programs. -/
def transfer : Machine (Duplex Tx Rx UInt8) Party := Tx.act.duplex Rx.act

/-- `tx` with its argument, in a buffer that held something else before. -/
def Tx.start (m : Message) (buf : ℕ → UInt8) : Tx where
  pc := .connect
  buf := fun i => (m.chars ++ [0])[i]?.getD (buf i)

/-- `rx` with the count `n`, in front of its loop. -/
def Rx.start (n : ℕ) : Rx where
  pc := .loop 0
  cnt := n
  printed := []
  received := []
  sent := []

/-- What the loop over the argument of `rx` comes to. -/
inductive CountResult
  | count (n : ℕ)
  /-- "Argument should be a number" -/
  | notNumber
  /-- The `int` in which it counts has overflowed. -/
  | overflow
deriving DecidableEq

/-- The loop over the argument of `rx`, with the number that it has read so far. -/
def readCount (cnt : ℕ) : List UInt8 → CountResult
  | [] => .count cnt
  | c :: l =>
    if c = 0x20 ∨ c = 0x0A then .count cnt
    else if c < 0x30 ∨ c > 0x39 then .notNumber
    else
      let cnt := cnt * 10 + (c.toNat - 0x30)
      if cnt < 2 ^ 31 then readCount cnt l else .overflow

/-- `main` of `ece391rx.c` up to its loop over the bytes. -/
def Rx.main (arg : CString) : Option Rx :=
  match readCount 0 arg.chars with
  | .count n => some (start n)
  | .notNumber | .overflow => none

/-- The programs with the message `m` and the count `n`, where `buf` is what the stack of `tx`
holds behind the message. -/
def Message.start (m : Message) (n : ℕ) (buf : ℕ → UInt8) : Duplex Tx Rx UInt8 where
  left := Tx.start m buf
  right := Rx.start n
  toLeft := []
  toRight := []

/-- A byte that makes the connection or is data. -/
def Answered (c : UInt8) : Prop := c ≠ 0xFE ∧ c ≠ 0xFF

instance : DecidablePred Answered := fun _ => inferInstanceAs (Decidable (_ ∧ _))

/-- There is one acknowledgement for each such byte. -/
def Rx.Acked (s : Rx) : Prop :=
  s.sent = (s.received.filter fun c => decide (Answered c)).map fun _ => 0xFA

/-- The transfer that begins in `c₀` does what it is for. -/
structure Transfers (m : Message) (n : ℕ) (c₀ : Duplex Tx Rx UInt8) : Prop where
  acks : ∀ c, transfer.Reachable c₀ c → c.right.Acked
  /-- No run goes on for ever. -/
  bounded : ∃ k, ∀ ls c, transfer.exec c₀ ls = some c → ls.length ≤ k
  prints : ∀ c, transfer.Reachable c₀ c → transfer.Final c → ∃ tail,
    c.right.printed = m.chars.take (min n m.chars.length) ++ tail ∧
      (tail = [] ∨ tail = [0x0A] ∧ 0xFE ∈ c.right.received)

/-! ### The argument of `rx` -/

/-- A decimal digit. -/
def decimal (d : ℕ) : UInt8 := UInt8.ofNat (0x30 + d)

/-- More digits make the number no smaller. -/
theorem le_foldl_decimal (l : List ℕ) (n : ℕ) : n ≤ l.foldl (fun n d => n * 10 + d) n := by
  induction l generalizing n with
  | nil => exact Nat.le_refl n
  | cons d l ih => exact Nat.le_trans (by omega) (ih (n * 10 + d))

theorem readCount_decimal {l : List ℕ} {cnt : ℕ} (hl : ∀ d ∈ l, d < 10)
    (hlt : l.foldl (fun n d => n * 10 + d) cnt < 2 ^ 31) :
    readCount cnt (l.map decimal) = .count (l.foldl (fun n d => n * 10 + d) cnt) := by
  induction l generalizing cnt with
  | nil => rfl
  | cons d l ih =>
    obtain ⟨hd, hl⟩ := List.forall_mem_cons.1 hl
    have hchar : (decimal d).toNat = 0x30 + d := by
      rw [decimal, UInt8.toNat_ofNat', Nat.mod_eq_of_lt (by omega)]
    have hblank : ¬ (decimal d = 0x20 ∨ decimal d = 0x0A) := by
      rintro (h | h) <;> rw [h] at hchar <;> simp at hchar <;> omega
    have hdigit : ¬ (decimal d < 0x30 ∨ decimal d > 0x39) := by
      rintro (h | h)
      · have hnat : (decimal d).toNat < 0x30 := h
        omega
      · have hnat : 0x39 < (decimal d).toNat := h
        omega
    have hnext : cnt * 10 + ((decimal d).toNat - 0x30) = cnt * 10 + d := by
      rw [hchar, Nat.add_sub_cancel_left]
    rw [List.map_cons, readCount, if_neg hblank, if_neg hdigit, hnext,
      if_pos (Nat.lt_of_le_of_lt (le_foldl_decimal l _) hlt)]
    exact ih hl hlt

theorem readCount_lt {l : List UInt8} {cnt n : ℕ} (hcnt : cnt < 2 ^ 31)
    (h : readCount cnt l = .count n) : n < 2 ^ 31 := by
  induction l generalizing cnt with
  | nil =>
    cases h
    exact hcnt
  | cons c l ih =>
    unfold readCount at h
    dsimp only at h
    split_ifs at h with hblank hdigit hlt
    · cases h
      exact hcnt
    · exact ih hlt h

/-- The receiver can be given the counts below `2 ^ 31`. -/
theorem Rx.exists_main_iff {n : ℕ} : (∃ arg, Rx.main arg = some (Rx.start n)) ↔ n < 2 ^ 31 := by
  constructor
  · rintro ⟨arg, h⟩
    unfold Rx.main at h
    cases hcount : readCount 0 arg.chars with
    | count m =>
      rw [hcount] at h
      obtain rfl : m = n := congrArg Rx.cnt (Option.some.inj h)
      exact readCount_lt (by decide) hcount
    | notNumber | overflow =>
      rw [hcount] at h
      cases h
  · intro h
    have hdigits : ∀ d ∈ (Nat.digits 10 n).reverse, d < 10 := fun d hd =>
      Nat.digits_lt_base (by decide) (List.mem_reverse.1 hd)
    have hvalue : (Nat.digits 10 n).reverse.foldl (fun n d => n * 10 + d) 0 = n := by
      rw [List.foldl_reverse]
      have hofDigits := Nat.ofDigits_digits 10 n
      rw [Nat.ofDigits_eq_foldr] at hofDigits
      simpa [Nat.add_comm, Nat.mul_comm] using hofDigits
    have hnul : (0 : UInt8) ∉ (Nat.digits 10 n).reverse.map decimal := by
      intro hmem
      obtain ⟨d, hd, hzero⟩ := List.mem_map.1 hmem
      have hlt := hdigits d hd
      have hnat := congrArg UInt8.toNat hzero
      rw [decimal, UInt8.toNat_ofNat', Nat.mod_eq_of_lt (by omega)] at hnat
      simp at hnat
    refine ⟨⟨_, hnul⟩, ?_⟩
    unfold Rx.main
    dsimp only
    rw [readCount_decimal hdigits (by rwa [hvalue]), hvalue]

/-! ### One step -/

section Step

variable {t : Tx} {r : Rx} {i : ℕ} {c : UInt8} {rest : List UInt8}

theorem Tx.run_connect (h : t.pc = .connect) :
    Tx.act.run t rest = some ({ t with pc := .connected }, rest, [0xFC]) := by
  refine Peer.run_write ?_
  simp only [act, h]

theorem Tx.run_connected (h : t.pc = .connected) :
    Tx.act.run t (0xFA :: rest) = some ({ t with pc := .send 0 }, rest, []) := by
  unfold Peer.run act
  rw [h]
  rfl

theorem Tx.run_send (h : t.pc = .send i) (h0 : t.buf i ≠ 0) (hn : t.buf i ≠ 0x0A) :
    Tx.act.run t rest = some ({ t with pc := .ack i }, rest, [t.buf i]) := by
  refine Peer.run_write ?_
  simp only [act, h]
  exact if_pos ⟨h0, hn⟩

theorem Tx.run_send_end (h : t.pc = .send i) (h0 : t.buf i = 0) :
    Tx.act.run t rest = some ({ t with pc := .done }, rest, [0xFE]) := by
  refine Peer.run_write ?_
  simp only [act, h]
  exact if_neg fun hc => hc.1 h0

theorem Tx.run_ack (h : t.pc = .ack i) :
    Tx.act.run t (0xFA :: rest) = some ({ t with pc := .send (i + 1) }, rest, []) := by
  unfold Peer.run act
  rw [h]
  rfl

theorem Rx.run_receive (h : r.pc = .loop i) (hi : i < r.cnt) :
    Rx.act.run r (c :: rest) = some ((r.receive i c).1, rest, (r.receive i c).2) := by
  refine Peer.run_read ?_
  simp only [act, h]
  exact if_pos hi

theorem Rx.run_done (h : r.pc = .loop i) (hi : r.cnt ≤ i) :
    Rx.act.run r rest = some ({ r with pc := .done }, rest, []) := by
  refine Peer.run_write ?_
  simp only [act, h]
  exact if_neg (Nat.not_lt_of_le hi)

/-- A character of a message is printed and acknowledged. -/
theorem Rx.receive_char (hc : c < 0x80) : r.receive i c =
    ({ r with
      pc := .loop (i + 1)
      printed := r.printed ++ [c]
      received := r.received ++ [c]
      sent := r.sent ++ [0xFA] }, [0xFA]) := by
  have hne : ∀ {d : UInt8}, 0x80 ≤ d → c ≠ d := by
    rintro d hd rfl
    exact absurd hc (UInt8.not_lt.2 hd)
  unfold receive
  rw [if_neg (hne (by decide)), if_neg (hne (by decide)), if_neg (hne (by decide))]

theorem Rx.Acked.answer (h : r.Acked) (hc : Answered c) : r.sent ++ [0xFA] =
    ((r.received ++ [c]).filter fun c => decide (Answered c)).map fun _ => 0xFA := by
  rw [List.filter_append, List.map_append, ← h,
    List.filter_cons_of_pos (by rw [decide_eq_true_eq]; exact hc)]
  rfl

theorem Rx.Acked.skip (h : r.Acked) (hc : ¬ Answered c) : r.sent =
    ((r.received ++ [c]).filter fun c => decide (Answered c)).map fun _ => 0xFA := by
  rw [List.filter_append, List.map_append, ← h,
    List.filter_cons_of_neg (by rw [decide_eq_true_eq]; exact hc)]
  exact (List.append_nil _).symm

theorem Rx.Acked.receive (h : r.Acked) : (r.receive i c).1.Acked := by
  unfold Rx.receive
  split_ifs with hend hconnect hout
  · exact h.skip fun hc => hc.1 hend
  · exact h.answer (by rw [hconnect]; decide)
  · exact h.skip fun hc => hc.2 hout
  · exact h.answer ⟨hend, hout⟩

/-- Whatever arrives, it is answered as it should. -/
theorem Rx.Acked.run {r' : Rx} {inbox out : List UInt8} (h : r.Acked)
    (hrun : Rx.act.run r inbox = some (r', rest, out)) : r'.Acked := by
  cases hpc : r.pc with
  | loop i =>
    rcases Nat.lt_or_ge i r.cnt with hi | hi
    · cases inbox with
      | nil =>
        rw [Peer.run_nil (f := r.receive i) (by simp only [act, hpc]; exact if_pos hi)] at hrun
        cases hrun
      | cons c inbox =>
        rw [run_receive hpc hi] at hrun
        cases hrun
        exact h.receive
    · rw [run_done hpc hi] at hrun
      cases hrun
      exact h
  | done | timedOut =>
    rw [Peer.run_stop (by simp only [act, hpc])] at hrun
    cases hrun

end Step

/-! ### One run -/

section Run

open Machine Peer

variable {m : Message} {n j : ℕ} {b : ℕ → UInt8}

theorem Tx.start_buf (hj : j < m.chars.length) : (Tx.start m b).buf j = m.chars[j] := by
  simp [Tx.start, hj, List.getElem?_append_left]

theorem Tx.start_buf_length : (Tx.start m b).buf m.chars.length = 0 := by
  simp [Tx.start]

/-- The receiver behind the connection byte and the characters `l`. -/
def Rx.got (n : ℕ) (l : List UInt8) : Rx where
  pc := .loop (l.length + 1)
  cnt := n
  printed := l
  received := 0xFC :: l
  sent := List.replicate (l.length + 1) 0xFA

/-- The programs behind the first `j` characters. -/
def Message.behind (m : Message) (n : ℕ) (b : ℕ → UInt8) (j : ℕ) : Duplex Tx Rx UInt8 where
  left := { Tx.start m b with pc := .send j }
  right := Rx.got n (m.chars.take j)
  toLeft := []
  toRight := []

theorem exec_connect (hn : 0 < n) :
    transfer.exec (m.start n b) [.left, .right, .left] = some (m.behind n b 0) := by
  refine exec_cons.2 ⟨_, step_left (Tx.run_connect rfl), ?_⟩
  refine exec_cons.2 ⟨_, step_right (Rx.run_receive rfl hn), ?_⟩
  exact exec_cons.2 ⟨_, step_left (Tx.run_connected rfl), rfl⟩

theorem Rx.got_append (n : ℕ) (l : List UInt8) (c : UInt8) : Rx.got n (l ++ [c]) =
    { Rx.got n l with
      pc := .loop (l.length + 1 + 1)
      printed := l ++ [c]
      received := 0xFC :: l ++ [c]
      sent := List.replicate (l.length + 1) 0xFA ++ [0xFA] } := by
  unfold Rx.got
  rw [List.length_append, List.length_singleton, ← List.replicate_succ']
  rfl

/-- A character is sent, printed and acknowledged. -/
theorem exec_next (hj : j < m.chars.length) (hn : j + 1 < n) :
    transfer.exec (m.behind n b j) [.left, .right, .left] = some (m.behind n b (j + 1)) := by
  obtain ⟨h0, hnl, hlt⟩ := m.ok _ (List.getElem_mem hj)
  have hlen : (m.chars.take j).length = j := List.length_take_of_le (Nat.le_of_lt hj)
  refine exec_cons.2 ⟨_, step_left (Tx.run_send rfl ?_ ?_), ?_⟩
  · rwa [Tx.start_buf hj]
  · rwa [Tx.start_buf hj]
  rw [Tx.start_buf hj]
  refine exec_cons.2 ⟨_, step_right (Rx.run_receive rfl (by rw [hlen]; exact hn)), ?_⟩
  rw [Rx.receive_char hlt]
  refine exec_cons.2 ⟨_, step_left (Tx.run_ack rfl), ?_⟩
  unfold Message.behind
  rw [List.take_succ_eq_append_getElem hj, Rx.got_append]
  rfl

theorem exec_behind (hj : j ≤ m.chars.length) (hn : j < n) :
    ∃ ls, transfer.exec (m.start n b) ls = some (m.behind n b j) := by
  induction j with
  | zero => exact ⟨_, exec_connect hn⟩
  | succ j ih =>
    obtain ⟨ls, hls⟩ := ih (Nat.le_of_lt hj) (Nat.lt_of_succ_lt hn)
    exact ⟨_, exec_append hls (exec_next hj hn)⟩

/-- The message ends while the receiver counts on. -/
theorem exec_end (hn : m.chars.length + 1 < n) : ∃ ls f,
    transfer.exec (m.start n b) ls = some f ∧ transfer.Final f ∧
      f.right.printed = m.chars ++ [0x0A] ∧ 0xFE ∈ f.right.received := by
  obtain ⟨ls, hls⟩ := exec_behind (m := m) (b := b) (Nat.le_refl _) (Nat.lt_of_succ_lt hn)
  have hend : transfer.exec (m.behind n b m.chars.length) [.left, .right] =
      some ⟨{ Tx.start m b with pc := .done },
        { Rx.got n m.chars with
          pc := .done
          printed := m.chars ++ [0x0A]
          received := 0xFC :: m.chars ++ [0xFE] }, [], []⟩ := by
    refine exec_cons.2 ⟨_, step_left (Tx.run_send_end rfl Tx.start_buf_length), ?_⟩
    rw [List.take_length]
    exact exec_cons.2 ⟨_, step_right (Rx.run_receive rfl hn), rfl⟩
  refine ⟨_, _, exec_append hls hend, final_iff.2 ⟨rfl, rfl⟩, rfl, ?_⟩
  exact List.mem_append_right _ (List.mem_singleton_self _)

/-- The receiver has returned behind the first `j` characters. -/
def Message.stopped (m : Message) (b : ℕ → UInt8) (j : ℕ) : Duplex Tx Rx UInt8 where
  left := { Tx.start m b with pc := .send j }
  right := { Rx.got (j + 1) (m.chars.take j) with pc := .done }
  toLeft := []
  toRight := []

/-- The sender does not know, and sends its next byte. -/
theorem exec_stopped (hj : j ≤ m.chars.length) : ∃ f,
    transfer.exec (m.stopped b j) [.left] = some f ∧ transfer.Final f ∧
      f.right.printed = m.chars.take j := by
  rcases Nat.lt_or_eq_of_le hj with hlt | rfl
  · obtain ⟨h0, hnl, -⟩ := m.ok _ (List.getElem_mem hlt)
    rw [← Tx.start_buf (b := b) hlt] at h0 hnl
    exact ⟨_, exec_cons.2 ⟨_, step_left (Tx.run_send rfl h0 hnl), rfl⟩, final_iff.2 ⟨rfl, rfl⟩, rfl⟩
  · exact ⟨_, exec_cons.2 ⟨_, step_left (Tx.run_send_end rfl Tx.start_buf_length), rfl⟩,
      final_iff.2 ⟨rfl, rfl⟩, rfl⟩

/-- The receiver stops before the end of the message. -/
theorem exec_stop (hj : j ≤ m.chars.length) : ∃ ls f,
    transfer.exec (m.start (j + 1) b) ls = some f ∧ transfer.Final f ∧
      f.right.printed = m.chars.take j := by
  obtain ⟨ls, hls⟩ := exec_behind (n := j + 1) (b := b) hj (Nat.lt_succ_self j)
  have hlen : (m.chars.take j).length = j := List.length_take_of_le hj
  have hdone : transfer.exec (m.behind (j + 1) b j) [.right] = some (m.stopped b j) :=
    exec_cons.2 ⟨_, step_right (Rx.run_done rfl (by rw [hlen]; exact Nat.le_refl _)), rfl⟩
  obtain ⟨f, hsend, hf⟩ := exec_stopped (b := b) hj
  exact ⟨_, f, exec_append (exec_append hls hdone) hsend, hf⟩

/-- The end of one run: of `n` bytes one is the connection byte. -/
theorem exists_end (m : Message) (n : ℕ) (buf : ℕ → UInt8) : ∃ ls f tail,
    transfer.exec (m.start n buf) ls = some f ∧ transfer.Final f ∧
      f.right.printed = m.chars.take (n - 1) ++ tail ∧
      (tail = [] ∨ m.chars.length + 1 < n ∧ tail = [0x0A] ∧ 0xFE ∈ f.right.received) := by
  rcases Nat.lt_or_ge (m.chars.length + 1) n with hlt | hge
  · obtain ⟨ls, f, hexec, hfinal, hprinted, hend⟩ := exec_end (b := buf) hlt
    refine ⟨ls, f, [0x0A], hexec, hfinal, ?_, .inr ⟨hlt, rfl, hend⟩⟩
    rw [hprinted, List.take_of_length_le (by omega)]
  · cases n with
    | zero =>
      exact ⟨[.left, .right], _, [], exec_cons.2 ⟨_, step_left (Tx.run_connect rfl), exec_cons.2
        ⟨_, step_right (Rx.run_done rfl (Nat.le_refl _)), rfl⟩⟩, final_iff.2 ⟨rfl, rfl⟩, rfl,
        .inl rfl⟩
    | succ j =>
      obtain ⟨ls, f, hexec, hfinal, hprinted⟩ :=
        exec_stop (m := m) (b := buf) (Nat.le_of_succ_le_succ hge)
      exact ⟨ls, f, [], hexec, hfinal, by rw [hprinted, List.append_nil]; rfl, .inl rfl⟩

end Run

/-- **When a transfer succeeds.**  The count has to be zero, or to leave one byte for the
connection. -/
theorem transfers_iff (m : Message) (n : ℕ) (buf : ℕ → UInt8) :
    Transfers m n (m.start n buf) ↔ n = 0 ∨ m.chars.length < n := by
  obtain ⟨ls, f, tail, hexec, hfinal, hprinted, htail⟩ := exists_end m n buf
  constructor
  · intro h
    by_contra hn
    obtain ⟨tail', hprints, -⟩ := h.prints f (Machine.reachable_of_exec hexec) hfinal
    -- one character is missing
    have hlen : (m.chars.take (n - 1) ++ tail).length =
        (m.chars.take (min n m.chars.length) ++ tail').length := by rw [← hprinted, hprints]
    rw [List.length_append, List.length_append, List.length_take, List.length_take] at hlen
    rcases htail with rfl | ⟨hlt, -⟩
    · rw [List.length_nil] at hlen
      omega
    · omega
  · intro hn
    have hcommutes := Peer.duplex_commutes Tx.act Rx.act
    refine ⟨fun c hc => ?_, ⟨ls.length, fun ks c hks => ?_⟩, fun c hc hcfinal => ?_⟩
    · exact Peer.right_invariant hc (I := Rx.Acked) rfl fun _ _ _ _ _ ht hrun => ht.run hrun
    · obtain ⟨ls', -, hlen⟩ := hcommutes.exec_final hexec hfinal hks
      exact hlen ▸ Nat.le_add_right _ _
    · obtain ⟨ks, hks⟩ := hc.exists_exec
      obtain rfl : c = f := hcommutes.eq_of_final hexec hfinal hks hcfinal
      refine ⟨tail, ?_, htail.imp_right And.right⟩
      rw [hprinted]
      rcases hn with rfl | hlt
      · rw [Nat.zero_min]
      · rw [List.take_of_length_le (Nat.le_sub_one_of_lt hlt), Nat.min_eq_right (Nat.le_of_lt hlt),
          List.take_length]

/-- The message `a`. -/
def messageA : Message where
  chars := [0x61]
  ok := List.forall_mem_singleton.2 (by decide)
  length_lt := by decide

/-- Sent to a receiver of one character, it is not printed. -/
theorem not_transfers : ¬ ∀ (m : Message) (n : ℕ) (buf : ℕ → UInt8),
    Transfers m n (m.start n buf) := by
  intro h
  obtain ⟨ls, f, hexec, hfinal, hprinted⟩ :=
    exec_stop (m := messageA) (b := fun _ => 0) (Nat.zero_le _)
  obtain ⟨tail, hprints, -⟩ :=
    (h messageA 1 fun _ => 0).prints f (Machine.reachable_of_exec hexec) hfinal
  rw [hprinted] at hprints
  cases hprints

end KTeamOS
