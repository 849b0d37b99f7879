import KTeamOS.System.Args

/-!
# The buffers of a command

`execute` copies the word of a command into `cmd` and what follows its first space into `arg_buf`,
and `getargs` copies `arg_buf` into the buffer of a program.  The first two loops stop at the end of
the command only, and the third one sets the terminator behind the last byte that it copied, which
may be the last one of the buffer.

## Main definitions

* `Buf` : a buffer together with the indices written to it.
* `splitCommand` : what `execute` makes of a command.
-/

namespace KTeamOS

/-- A buffer. -/
structure Buf where
  mem : ℕ → UInt8
  /-- Not part of the source: the indices written so far, the last one first. -/
  written : List ℕ

namespace Buf

/-- The buffer before anything is written. -/
def fresh (mem : ℕ → UInt8) : Buf := ⟨mem, []⟩

/-- The assignment `b[i] = v`. -/
def set (b : Buf) (i : ℕ) (v : UInt8) : Buf := ⟨Function.update b.mem i v, i :: b.written⟩

end Buf

/-- The loop that copies from `src` until it meets a character of `stop`, from the index `i` on and
for `n` turns at most: the buffer, and the index that it ends with. -/
def copyUntil (stop : UInt8 → Prop) [DecidablePred stop] (src : ℕ → UInt8) :
    (n i : ℕ) → Buf → Buf × ℕ
  | 0, i, b => (b, i)
  | n + 1, i, b => if stop (src i) then (b, i) else copyUntil stop src n (i + 1) (b.set i (src i))

/-- The loop of `execute` over the word of a command. -/
def copyWord (command : CString) (cmd : Buf) : Buf × ℕ :=
  copyUntil (fun c => c = 0x20 ∨ c = 0) command.mem command.chars.length 0 cmd

/-- `strcpy` of a string that ends behind `n` characters at most. -/
def strcpyTo (dest : Buf) (src : ℕ → UInt8) (n : ℕ) : Buf :=
  let r := copyUntil (fun c => c = 0) src n 0 dest
  r.1.set r.2 0

/-- What `execute` leaves in `cmd` and in `arg_buf`. -/
def splitCommand (command : CString) (cmd argBuf : ℕ → UInt8) : Buf × Buf :=
  let r := copyWord command (.fresh cmd)
  let i := r.2
  (r.1.set i 0,
    if command.mem i ≠ 0 then
      strcpyTo (.fresh argBuf) (fun j => command.mem (i + 1 + j)) command.chars.length
    else ((Buf.fresh argBuf).set 0 0).set 1 0)

/-! ### The loop -/

section copyUntil

variable {stop : UInt8 → Prop} [DecidablePred stop] {src : ℕ → UInt8} {n i j : ℕ} {b : Buf}

/-- The loop copies what is in front of the index that it ends with, and nothing else. -/
theorem copyUntil_spec (stop : UInt8 → Prop) [DecidablePred stop] (src : ℕ → UInt8) (n i : ℕ)
    (b : Buf) : i ≤ (copyUntil stop src n i b).2 ∧ (copyUntil stop src n i b).2 ≤ i + n ∧
      (∀ j, i ≤ j → j < (copyUntil stop src n i b).2 → ¬ stop (src j)) ∧
      ((copyUntil stop src n i b).2 < i + n → stop (src (copyUntil stop src n i b).2)) ∧
      (∀ j, (copyUntil stop src n i b).1.mem j =
        if i ≤ j ∧ j < (copyUntil stop src n i b).2 then src j else b.mem j) ∧
      ∀ j, j ∈ (copyUntil stop src n i b).1.written ↔
        (i ≤ j ∧ j < (copyUntil stop src n i b).2) ∨ j ∈ b.written := by
  induction n generalizing i b with
  | zero =>
    have hnone : ∀ j, ¬ (i ≤ j ∧ j < i) := fun j => by omega
    refine ⟨Nat.le_refl i, Nat.le_refl i, fun j hj hj' => absurd ⟨hj, hj'⟩ (hnone j),
      fun h => absurd h (Nat.lt_irrefl i), fun j => (if_neg (hnone j)).symm, fun j => ?_⟩
    exact ⟨Or.inr, fun h => h.resolve_left (hnone j)⟩
  | succ n ih =>
    rw [copyUntil]
    by_cases hstop : stop (src i)
    · have hnone : ∀ j, ¬ (i ≤ j ∧ j < i) := fun j => by omega
      rw [if_pos hstop]
      refine ⟨Nat.le_refl i, Nat.le_add_right .., fun j hj hj' => absurd ⟨hj, hj'⟩ (hnone j),
        fun _ => hstop, fun j => (if_neg (hnone j)).symm, fun j => ?_⟩
      exact ⟨Or.inr, fun h => h.resolve_left (hnone j)⟩
    · rw [if_neg hstop]
      obtain ⟨hle, hbound, hcopied, hend, hmem, hwritten⟩ := ih (i + 1) (b.set i (src i))
      refine ⟨by omega, by omega, fun j hj hj' => ?_, fun h => hend (by omega), fun j => ?_,
        fun j => ?_⟩
      · rcases Nat.eq_or_lt_of_le hj with rfl | hj
        · exact hstop
        · exact hcopied j hj hj'
      · rw [hmem]
        by_cases hj : j = i
        · rw [hj, if_neg (by omega), if_pos (by omega)]
          exact Function.update_self ..
        · rw [show (b.set i (src i)).mem j = b.mem j from Function.update_of_ne hj ..]
          exact if_congr (by omega) rfl rfl
      · rw [hwritten]
        change _ ∨ j ∈ i :: b.written ↔ _
        rw [List.mem_cons, ← or_assoc]
        exact or_congr (by omega) Iff.rfl

/-- With enough turns the loop ends at the first character of `stop`. -/
theorem copyUntil_eq {m : ℕ} (hm : m ≤ n) (hcopied : ∀ j < m, ¬ stop (src j))
    (hend : stop (src m)) : (copyUntil stop src n 0 b).2 = m := by
  obtain ⟨-, -, hbefore, hstop, -, -⟩ := copyUntil_spec stop src n 0 b
  generalize (copyUntil stop src n 0 b).2 = r at *
  rcases Nat.lt_trichotomy r m with hlt | rfl | hgt
  · exact absurd (hstop (by omega)) (hcopied r hlt)
  · rfl
  · exact absurd hend (hbefore m (Nat.zero_le m) hgt)

end copyUntil

/-! ### The parts of a command -/

section parts

variable {command s : CString} {cmd argBuf : ℕ → UInt8} {i j n : ℕ} {b : Buf}

theorem chars_eq : command.chars = command.word.chars ++ command.chars.dropWhile (· ≠ 0x20) :=
  Eq.symm (List.takeWhile_append_dropWhile (p := fun c => decide (c ≠ 0x20)))

theorem word_length_le : command.word.chars.length ≤ command.chars.length :=
  (List.takeWhile_prefix _).length_le

theorem mem_word (h : j < command.word.chars.length) :
    command.mem j = command.word.mem j ∧ command.mem j ≠ 0x20 ∧ command.mem j ≠ 0 := by
  have hlt : j < command.chars.length := Nat.lt_of_lt_of_le h word_length_le
  have heq : command.mem j = command.word.mem j := by
    unfold CString.mem
    rw [chars_eq, List.getElem?_append_left h]
  refine ⟨heq, ?_, fun h0 => Nat.not_le.2 hlt (CString.mem_eq_zero_iff.1 h0)⟩
  have hin : command.word.mem j ∈ command.word.chars := CString.mem_mem_chars h
  rw [heq]
  have hword : command.word.mem j ∈ command.chars.takeWhile (· ≠ 0x20) := hin
  exact of_decide_eq_true (List.mem_takeWhile_imp (p := fun c => decide (c ≠ 0x20)) hword)

/-- Behind the word are a space and the arguments, or the end of the command. -/
theorem mem_word_length :
    (command.mem command.word.chars.length = 0x20 ∧ 0x20 ∈ command.chars ∧
      ∀ j, command.mem (command.word.chars.length + 1 + j) = command.args.mem j) ∨
    (command.mem command.word.chars.length = 0 ∧ 0x20 ∉ command.chars ∧
      command.args.chars = []) := by
  have hmem : ∀ j, command.mem (command.word.chars.length + j) =
      (command.chars.dropWhile (· ≠ 0x20))[j]?.getD 0 := fun j => by
    unfold CString.mem
    rw [chars_eq, List.getElem?_append_right (Nat.le_add_right ..), Nat.add_sub_cancel_left,
      ← chars_eq]
  have hargs : command.args.chars = (command.chars.dropWhile (· ≠ 0x20)).tail := rfl
  have hzero := hmem 0
  rw [Nat.add_zero] at hzero
  cases hrest : command.chars.dropWhile (· ≠ 0x20) with
  | nil =>
    -- the word is the whole command
    refine .inr ⟨by rw [hzero, hrest]; rfl, fun hin => ?_, by rw [hargs, hrest]; rfl⟩
    have hall := List.dropWhile_eq_nil_iff.1 hrest _ hin
    exact of_decide_eq_true hall rfl
  | cons c rest =>
    have hc : c = 0x20 := by
      have hhead := List.head_dropWhile_not (fun c : UInt8 => decide (c ≠ 0x20))
        (l := command.chars) (by rw [hrest]; exact List.cons_ne_nil _ _)
      simp only [hrest, List.head_cons] at hhead
      exact not_not.1 (of_decide_eq_false hhead)
    refine .inl ⟨by rw [hzero, hrest, hc]; rfl, ?_, fun j => ?_⟩
    · have hin : c ∈ command.chars.dropWhile (· ≠ 0x20) := by
        rw [hrest]
        exact List.mem_cons_self ..
      exact hc ▸ (List.dropWhile_suffix _).subset hin
    · rw [Nat.add_assoc, hmem, hrest, Nat.add_comm 1 j, List.getElem?_cons_succ, CString.mem, hargs,
        hrest]
      rfl

theorem copyWord_snd : (copyWord command b).2 = command.word.chars.length := by
  refine copyUntil_eq word_length_le (fun j hj => ?_) ?_
  · obtain ⟨-, hspace, hzero⟩ := mem_word hj
    exact not_or.2 ⟨hspace, hzero⟩
  · exact mem_word_length.imp And.left And.left

theorem mem_setEnd {b b' : Buf} (hmem : ∀ j, b'.mem j = if j < n then s.mem j else b.mem j)
    (hn : n = s.chars.length) (j : ℕ) :
    (b'.set n 0).mem j = if j ≤ s.chars.length then s.mem j else b.mem j := by
  change Function.update b'.mem n 0 j = _
  by_cases hj : j = n
  · rw [hj, Function.update_self, if_pos (by omega), Eq.comm, CString.mem_eq_zero_iff]
    omega
  · rw [Function.update_of_ne hj, hmem]
    exact if_congr (by omega) rfl rfl

/-- `cmd` holds the word. -/
theorem splitCommand_cmd (command : CString) (cmd argBuf : ℕ → UInt8) :
    (∀ j, (splitCommand command cmd argBuf).1.mem j =
      if j ≤ command.word.chars.length then command.word.mem j else cmd j) ∧
    ∀ j, j ∈ (splitCommand command cmd argBuf).1.written ↔ j ≤ command.word.chars.length := by
  obtain ⟨-, -, -, -, hmem, hwritten⟩ := copyUntil_spec (fun c => c = 0x20 ∨ c = 0) command.mem
    command.chars.length 0 (.fresh cmd)
  have hend : (copyUntil (fun c => c = 0x20 ∨ c = 0) command.mem command.chars.length 0
      (.fresh cmd)).2 = command.word.chars.length := copyWord_snd
  rw [hend] at hmem hwritten
  have hsplit : (splitCommand command cmd argBuf).1 =
      (copyWord command (.fresh cmd)).1.set command.word.chars.length 0 := by
    rw [← copyWord_snd (b := .fresh cmd)]
    rfl
  rw [hsplit]
  constructor
  · refine mem_setEnd (b := .fresh cmd) (fun j => ?_) rfl
    refine (hmem j).trans ?_
    by_cases hj : j < command.word.chars.length
    · rw [if_pos ⟨Nat.zero_le j, hj⟩, if_pos hj, (mem_word hj).1]
    · rw [if_neg fun h => hj h.2, if_neg hj]
  · intro j
    change j ∈ command.word.chars.length :: _ ↔ _
    rw [List.mem_cons]
    refine (or_congr Iff.rfl (hwritten j)).trans ?_
    have hnil : j ∉ (Buf.fresh cmd).written := List.not_mem_nil
    rw [or_iff_left hnil]
    omega

theorem strcpyTo_spec {src : ℕ → UInt8} (hsrc : ∀ j, src j = s.mem j) (hn : s.chars.length ≤ n) :
    (∀ j, (strcpyTo b src n).mem j = if j ≤ s.chars.length then s.mem j else b.mem j) ∧
    ∀ j, j ∈ (strcpyTo b src n).written ↔ j ≤ s.chars.length ∨ j ∈ b.written := by
  obtain rfl : src = s.mem := funext hsrc
  have hend : (copyUntil (fun c => c = 0) s.mem n 0 b).2 = s.chars.length :=
    copyUntil_eq hn (fun j hj h0 => Nat.not_le.2 hj (CString.mem_eq_zero_iff.1 h0))
      (CString.mem_eq_zero_iff.2 (Nat.le_refl _))
  obtain ⟨-, -, -, -, hmem, hwritten⟩ := copyUntil_spec (fun c => c = 0) s.mem n 0 b
  have hcopy : strcpyTo b s.mem n =
      (copyUntil (fun c => c = 0) s.mem n 0 b).1.set s.chars.length 0 := by
    rw [← hend]
    rfl
  rw [hend] at hmem hwritten
  rw [hcopy]
  constructor
  · refine mem_setEnd (fun j => ?_) rfl
    rw [hmem]
    exact if_congr (and_iff_right (Nat.zero_le j)) rfl rfl
  · intro j
    change j ∈ s.chars.length :: _ ↔ _
    rw [List.mem_cons, hwritten, ← or_assoc]
    exact or_congr (by omega) Iff.rfl

theorem args_length_le : command.args.chars.length ≤ command.chars.length :=
  ((List.tail_suffix _).trans (List.dropWhile_suffix _)).length_le

theorem splitCommand_space (h : 0x20 ∈ command.chars) :
    (∀ j, (splitCommand command cmd argBuf).2.mem j =
      if j ≤ command.args.chars.length then command.args.mem j else argBuf j) ∧
    ∀ j, j ∈ (splitCommand command cmd argBuf).2.written ↔ j ≤ command.args.chars.length := by
  obtain ⟨hspace, -, hargs⟩ := mem_word_length.resolve_right fun hno => hno.2.1 h
  have hsplit : (splitCommand command cmd argBuf).2 = strcpyTo (.fresh argBuf)
      (fun j => command.mem (command.word.chars.length + 1 + j)) command.chars.length := by
    unfold splitCommand
    dsimp only
    rw [copyWord_snd, if_pos (by rw [hspace]; decide)]
  obtain ⟨hmem, hwritten⟩ := strcpyTo_spec (b := .fresh argBuf) hargs args_length_le
  rw [hsplit]
  refine ⟨hmem, fun j => (hwritten j).trans ?_⟩
  exact or_iff_left List.not_mem_nil

theorem splitCommand_noSpace (cmd argBuf : ℕ → UInt8) (h : 0x20 ∉ command.chars) :
    command.args.chars = [] ∧
    (splitCommand command cmd argBuf).2 = ((Buf.fresh argBuf).set 0 0).set 1 0 := by
  obtain ⟨hzero, -, hargs⟩ := mem_word_length.resolve_left fun hin => h hin.2.1
  refine ⟨hargs, ?_⟩
  unfold splitCommand
  dsimp only
  rw [copyWord_snd, if_neg (not_not.2 hzero)]

/-- `arg_buf` holds the arguments. -/
theorem splitCommand_arg (command : CString) (cmd argBuf : ℕ → UInt8)
    (hj : j ≤ command.args.chars.length) :
    (splitCommand command cmd argBuf).2.mem j = command.args.mem j := by
  by_cases hspace : 0x20 ∈ command.chars
  · rw [(splitCommand_space hspace).1, if_pos hj]
  · obtain ⟨hnil, hsplit⟩ := splitCommand_noSpace cmd argBuf hspace
    obtain rfl : j = 0 := by
      rw [hnil] at hj
      exact Nat.le_zero.1 hj
    have hzero : command.args.mem 0 = 0 := by
      rw [CString.mem_eq_zero_iff, hnil]
      exact Nat.le_refl 0
    rw [hsplit, hzero]
    rfl

/-- `execute` writes within `cmd` and `arg_buf`, and where the parts of the command fit, they are
what it leaves there. -/
structure SplitsWithin (command : CString) (cmd argBuf : ℕ → UInt8) : Prop where
  cmd_lt : ∀ i ∈ (splitCommand command cmd argBuf).1.written, i < 32
  arg_lt : ∀ i ∈ (splitCommand command cmd argBuf).2.written, i < 200
  word : command.word.chars.length < 32 → ∀ i ≤ command.word.chars.length,
    (splitCommand command cmd argBuf).1.mem i = command.word.mem i
  args : command.args.chars.length < 200 → ∀ i ≤ command.args.chars.length,
    (splitCommand command cmd argBuf).2.mem i = command.args.mem i

theorem splitsWithin_of_lt (cmd argBuf : ℕ → UInt8) (hcmd : command.word.chars.length < 32)
    (harg : command.args.chars.length < 200) : SplitsWithin command cmd argBuf := by
  obtain ⟨hmem, hwritten⟩ := splitCommand_cmd command cmd argBuf
  refine ⟨fun i hi => Nat.lt_of_le_of_lt ((hwritten i).1 hi) hcmd, fun i hi => ?_,
    fun _ i hi => by rw [hmem, if_pos hi], fun _ i hi => splitCommand_arg command cmd argBuf hi⟩
  by_cases hspace : 0x20 ∈ command.chars
  · exact Nat.lt_of_le_of_lt (((splitCommand_space hspace).2 i).1 hi) harg
  · -- without a space only the first two bytes are written, whatever the arguments are
    rw [(splitCommand_noSpace _ _ hspace).2] at hi
    have hi' : i ∈ [1, 0] := hi
    simp only [List.mem_cons, List.not_mem_nil, or_false] at hi'
    omega

/-- **`execute` keeps to its two buffers** exactly if the command has at most 31 characters in front
of its first space and at most 199 behind it. -/
theorem splitsWithin_iff (command : CString) (cmd argBuf : ℕ → UInt8) :
    SplitsWithin command cmd argBuf ↔
      command.word.chars.length < 32 ∧ command.args.chars.length < 200 := by
  constructor
  · intro h
    have hwritten := (splitCommand_cmd command cmd argBuf).2
    refine ⟨h.cmd_lt _ ((hwritten _).2 (Nat.le_refl _)), ?_⟩
    -- the terminators are the last bytes written
    by_cases hspace : 0x20 ∈ command.chars
    · exact h.arg_lt _ (((splitCommand_space hspace).2 _).2 (Nat.le_refl _))
    · rw [(splitCommand_noSpace cmd argBuf hspace).1]
      exact Nat.succ_pos _
  · exact fun ⟨hcmd, harg⟩ => splitsWithin_of_lt cmd argBuf hcmd harg

/-- A command of 32 characters. -/
theorem not_splitsWithin : ¬ ∀ (command : CString) (cmd argBuf : ℕ → UInt8),
    SplitsWithin command cmd argBuf := fun h =>
  absurd ((h ⟨List.replicate 32 0x61, by decide⟩ (fun _ => 0) fun _ => 0).cmd_lt 32 (by decide))
    (by decide)

/-- What the state keeps of a command is what the loops leave in `arg_buf`. -/
theorem setArgs_argBuf {k k' : Kernel} (cmd : ℕ → UInt8) (h : k.setArgs command = some k') :
    SplitsWithin command cmd k.argBuf ∧ k'.argBuf = (splitCommand command cmd k.argBuf).2.mem := by
  unfold Kernel.setArgs at h
  by_cases hlong : command.word.chars.length ≥ 32 ∨ command.args.chars.length ≥ 200
  · rw [if_pos hlong] at h
    cases h
  · rw [if_neg hlong] at h
    cases h
    refine ⟨splitsWithin_of_lt cmd k.argBuf (by omega) (by omega), ?_⟩
    by_cases hspace : 0x20 ∈ command.chars
    · funext j
      rw [(splitCommand_space hspace).1, if_pos hspace]
      rfl
    · rw [(splitCommand_noSpace _ _ hspace).2, if_neg hspace]
      rfl

end parts

/-! ### The buffer of `getargs` -/

section getargs

variable {command s : CString} {cmd argBuf buf : ℕ → UInt8} {i j r n : ℕ}

theorem getargsLoop_of_ge (h : (getargsLoop argBuf buf i r).2 ≤ j) :
    (getargsLoop argBuf buf i r).1 j = buf j := by
  induction r generalizing i buf with
  | zero =>
    have hij : i + 1 ≤ j := h
    exact Function.update_of_ne (by omega) ..
  | succ r ih =>
    have hlt := (getargsLoop_spec argBuf buf i (r + 1)).1
    have hj : Function.update buf i (argBuf i) j = buf j := Function.update_of_ne (by omega) ..
    rw [getargsLoop] at h ⊢
    split_ifs at h ⊢
    · rw [ih h, hj]
    · exact hj

/-- `getargs` writes the first `n` bytes of a buffer only, and leaves there a string that is `s` if
it fits, and a prefix of `s` otherwise. -/
structure GetsPrefix (argBuf : ℕ → UInt8) (s : CString) (n : ℕ) : Prop where
  rest : ∀ buf i, n ≤ i → getargs argBuf buf n i = buf i
  ended : ∀ buf, (field (getargs argBuf buf n) n 0).length < n
  fits : s.chars.length < n → ∀ buf, field (getargs argBuf buf n) n 0 = s.chars
  isPrefix : ∀ buf, field (getargs argBuf buf n) n 0 <+: s.chars

/-- There is a NUL in `arg_buf` behind its first byte, which the loop of `getargs` reaches before
the end of the buffer. -/
def EndsWithin (argBuf : ℕ → UInt8) (n : ℕ) : Prop := ∃ i < n, 0 < i ∧ argBuf i = 0

instance (argBuf : ℕ → UInt8) (n : ℕ) : Decidable (EndsWithin argBuf n) :=
  inferInstanceAs (Decidable (∃ i < n, _))

theorem GetsPrefix.of_endsWithin (harg : ∀ i ≤ s.chars.length, argBuf i = s.mem i)
    (h : EndsWithin argBuf n) : GetsPrefix argBuf s n := by
  obtain ⟨i, hin, hi, hzero⟩ := h
  -- the string ends before the buffer does
  have hs : s.chars.length < n := by
    by_contra hle
    rw [harg i (by omega), CString.mem_eq_zero_iff] at hzero
    omega
  have hloop : ∀ buf, (getargsLoop argBuf buf 0 (n - 1)).2 < n ∧
      s.chars.length ≤ (getargsLoop argBuf buf 0 (n - 1)).2 := fun buf => by
    obtain ⟨hpos, hcopy, hle, hend⟩ := getargsLoop_spec argBuf buf 0 (n - 1)
    generalize getargsLoop argBuf buf 0 (n - 1) = r at *
    have hlt : r.2 < n := by
      by_contra hge
      exact (hcopy i (Nat.zero_le i) (by omega)).2 hi hzero
    refine ⟨hlt, ?_⟩
    by_contra hshort
    have hstop : argBuf r.2 = 0 := hend (by omega)
    rw [harg _ (by omega), CString.mem_eq_zero_iff] at hstop
    omega
  have hfield : ∀ buf, field (getargs argBuf buf n) n 0 = s.chars := fun buf => by
    obtain ⟨hlt, hle⟩ := hloop buf
    obtain ⟨-, hcopy, -, -⟩ := getargsLoop_spec argBuf buf 0 (n - 1)
    unfold getargs
    dsimp only
    generalize getargsLoop argBuf buf 0 (n - 1) = r at *
    refine field_eq s.zero_notMem (Nat.le_of_lt hs) (fun j hj => ?_) fun _ => ?_
    · rw [Nat.zero_add, Function.update_of_ne (by omega),
        (hcopy j (Nat.zero_le j) (by omega)).1, harg j (by omega), CString.mem_of_lt hj]
    · rw [Nat.zero_add]
      by_cases hstop : s.chars.length = r.2
      · rw [hstop, Function.update_self]
      · rw [Function.update_of_ne hstop, (hcopy _ (Nat.zero_le _) (by omega)).1,
          harg _ (Nat.le_refl _), CString.mem_eq_zero_iff]
  refine ⟨fun buf i hi => ?_, fun buf => by rw [hfield]; exact hs, fun _ => hfield,
    fun buf => (hfield buf).symm ▸ List.prefix_refl _⟩
  have hlt := (hloop buf).1
  unfold getargs
  rw [Function.update_of_ne (by omega), getargsLoop_of_ge (by omega)]

theorem GetsPrefix.endsWithin (h : GetsPrefix argBuf s n) (hn : 0 < n) : EndsWithin argBuf n := by
  have hrest := h.rest (fun _ => 1) n (Nat.le_refl n)
  obtain ⟨hpos, -, hle, hend⟩ := getargsLoop_spec argBuf (fun _ => 1) 0 (n - 1)
  unfold getargs at hrest
  generalize getargsLoop argBuf (fun _ => 1) 0 (n - 1) = r at *
  -- the terminator is not the byte behind the buffer
  have hne : r.2 ≠ n := fun heq => by
    rw [heq, Function.update_self] at hrest
    exact absurd hrest (by decide)
  exact ⟨r.2, by omega, hpos, hend (by omega)⟩

/-- The arguments of the command leave room for their terminator; where they are empty, the byte
behind them that stops `getargs` is left over from an earlier command, unless the command has no
space. -/
def ArgsFit (command : CString) (argBuf : ℕ → UInt8) (n : ℕ) : Prop :=
  if command.args.chars ≠ [] then command.args.chars.length < n
  else if 0x20 ∈ command.chars then EndsWithin argBuf n
  else 1 < n

instance (command : CString) (argBuf : ℕ → UInt8) (n : ℕ) : Decidable (ArgsFit command argBuf n) :=
  inferInstanceAs (Decidable (if command.args.chars ≠ [] then command.args.chars.length < n
    else if 0x20 ∈ command.chars then EndsWithin argBuf n else 1 < n))

theorem endsWithin_splitCommand_iff (cmd : ℕ → UInt8) :
    EndsWithin (splitCommand command cmd argBuf).2.mem n ↔ ArgsFit command argBuf n := by
  unfold ArgsFit
  by_cases hargs : command.args.chars = []
  · rw [if_neg (not_not.2 hargs)]
    by_cases hspace : 0x20 ∈ command.chars
    · -- `strcpy` writes the first byte alone, and the others are from an earlier command
      rw [if_pos hspace]
      refine exists_congr fun i => and_congr_right fun _ => and_congr_right fun hi => ?_
      have hbehind : ¬ i ≤ command.args.chars.length := by
        rw [hargs]
        exact Nat.not_le.2 hi
      rw [(splitCommand_space hspace).1, if_neg hbehind]
    · rw [if_neg hspace, (splitCommand_noSpace _ _ hspace).2]
      exact ⟨fun ⟨i, hin, hi, _⟩ => Nat.lt_of_le_of_lt hi hin, fun hn => ⟨1, hn, Nat.one_pos, rfl⟩⟩
  · rw [if_pos hargs]
    have hpos := List.length_pos_of_ne_nil hargs
    constructor
    · intro ⟨i, hin, hi, hzero⟩
      -- a text that does not fit has no NUL in front of its end
      by_contra hle
      rw [splitCommand_arg _ _ _ (by omega), CString.mem_eq_zero_iff] at hzero
      omega
    · intro hlt
      refine ⟨command.args.chars.length, hlt, hpos, ?_⟩
      rw [splitCommand_arg _ _ _ (Nat.le_refl _), CString.mem_eq_zero_iff]

/-- **`getargs` keeps to the buffer of the program** and delivers there what fits of the arguments
exactly if the arguments leave room for their terminator, whatever `arg_buf` held before the
command. -/
theorem getsPrefix_iff (command : CString) (cmd argBuf : ℕ → UInt8) {n : ℕ} (hn : 0 < n) :
    GetsPrefix (splitCommand command cmd argBuf).2.mem command.args n ↔
      ArgsFit command argBuf n := by
  rw [← endsWithin_splitCommand_iff cmd]
  exact ⟨fun h => h.endsWithin hn,
    GetsPrefix.of_endsWithin fun i hi => splitCommand_arg command cmd argBuf hi⟩

/-- `a b` -/
theorem getsPrefix_two : GetsPrefix (splitCommand Kernel.missingCommand (fun _ => 0)
    fun _ => 0).2.mem Kernel.missingCommand.args 2 :=
  (getsPrefix_iff Kernel.missingCommand _ (fun _ => 0) (Nat.succ_pos 1)).2 (by decide +kernel)

/-- `a b`, and a buffer of one byte: the terminator is written behind it. -/
theorem not_getsPrefix : ¬ ∀ (command : CString) (cmd argBuf : ℕ → UInt8) (n : ℕ), 0 < n →
    GetsPrefix (splitCommand command cmd argBuf).2.mem command.args n := fun h => by
  have hrest := (h Kernel.missingCommand (fun _ => 0) (fun _ => 0) 1 Nat.one_pos).rest
    (fun _ => 1) 1 (Nat.le_refl 1)
  exact absurd hrest (by decide +kernel)

end getargs

end KTeamOS
