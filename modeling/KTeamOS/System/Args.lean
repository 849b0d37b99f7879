import Mathlib.Data.List.TakeWhile
import KTeamOS.System.Schedule

/-!
# The arguments of a process

`execute` leaves the arguments in the one variable `arg_buf` before it checks anything, and
`getargs` reads them there.  So a process gets its own arguments exactly as long as the last call of
`execute` by anyone, whether it started a process or not, had the same ones (`getargs_own_iff`).
-/

namespace KTeamOS

/-- The loop of `getargs` from the index `i` on, which `r` more characters fit behind: the buffer
and the index afterwards. -/
def getargsLoop (argBuf buf : ℕ → UInt8) (i : ℕ) : ℕ → (ℕ → UInt8) × ℕ
  | 0 => (Function.update buf i (argBuf i), i + 1)
  | r + 1 =>
    let buf := Function.update buf i (argBuf i)
    if argBuf (i + 1) ≠ 0 then getargsLoop argBuf buf (i + 1) r else (buf, i + 1)

/-- `getargs`: the buffer afterwards. -/
def getargs (argBuf buf : ℕ → UInt8) (nbytes : ℕ) : ℕ → UInt8 :=
  let r := getargsLoop argBuf buf 0 (nbytes - 1)
  Function.update r.1 r.2 0

/-! ### What `getargs` copies -/

section getargs

variable {argBuf buf : ℕ → UInt8} {i j r n : ℕ}

theorem getargsLoop_of_lt (h : j < i) : (getargsLoop argBuf buf i r).1 j = buf j := by
  induction r generalizing i buf with
  | zero => exact Function.update_of_ne (by omega) ..
  | succ r ih =>
    have hj : Function.update buf i (argBuf i) j = buf j := Function.update_of_ne (by omega) ..
    rw [getargsLoop]
    split_ifs
    · rw [ih (by omega), hj]
    · exact hj

/-- The loop ends at the first NUL behind the index `i`, or where the buffer does. -/
theorem getargsLoop_spec (argBuf buf : ℕ → UInt8) (i r : ℕ) : i < (getargsLoop argBuf buf i r).2 ∧
    (∀ j, i ≤ j → j < (getargsLoop argBuf buf i r).2 →
      (getargsLoop argBuf buf i r).1 j = argBuf j ∧ (i < j → argBuf j ≠ 0)) ∧
    (getargsLoop argBuf buf i r).2 ≤ i + r + 1 ∧
    ((getargsLoop argBuf buf i r).2 < i + r + 1 → argBuf (getargsLoop argBuf buf i r).2 = 0) := by
  induction r generalizing i buf with
  | zero =>
    refine ⟨Nat.lt_succ_self i, fun j hj hj' => ?_, Nat.le_refl _,
      fun h => absurd h (by simp [getargsLoop])⟩
    obtain rfl : j = i := by
      change j < i + 1 at hj'
      omega
    exact ⟨Function.update_self .., fun h => absurd h (Nat.lt_irrefl _)⟩
  | succ r ih =>
    rw [getargsLoop]
    split_ifs with hnext
    · obtain ⟨hlt, hcopy, hle, hend⟩ := ih (Function.update buf i (argBuf i)) (i + 1)
      refine ⟨by omega, fun j hj hj' => ?_, by omega, fun h => hend (by omega)⟩
      rcases Nat.eq_or_lt_of_le hj with rfl | hj
      · rw [getargsLoop_of_lt (Nat.lt_succ_self i), Function.update_self]
        exact ⟨rfl, fun h => absurd h (Nat.lt_irrefl _)⟩
      · obtain ⟨hcopied, hne⟩ := hcopy j hj hj'
        refine ⟨hcopied, fun _ => ?_⟩
        rcases Nat.eq_or_lt_of_le hj with rfl | hj
        · exact hnext
        · exact hne hj
    · refine ⟨Nat.lt_succ_self i, fun j hj hj' => ?_, by omega, fun _ => not_not.1 hnext⟩
      obtain rfl : j = i := by
        change j < i + 1 at hj'
        omega
      exact ⟨Function.update_self .., fun h => absurd h (Nat.lt_irrefl _)⟩

/-- The string that `getargs` leaves is the one in `arg_buf`, or as much of it as fits. -/
theorem field_getargs {s : CString} (harg : ∀ i ≤ s.chars.length, argBuf i = s.mem i)
    (hn : 0 < n) : field (getargs argBuf buf n) (n + 1) 0 = s.chars.take n := by
  obtain ⟨hpos, hcopy, hle, hend⟩ := getargsLoop_spec argBuf buf 0 (n - 1)
  unfold getargs
  dsimp only
  generalize getargsLoop argBuf buf 0 (n - 1) = r at *
  have hlen : (s.chars.take n).length = min n s.chars.length := List.length_take
  -- the loop does not end before the string does, unless the buffer does
  have hlong : min n s.chars.length ≤ r.2 := by
    by_contra hlt
    have hzero : argBuf r.2 = 0 := hend (by omega)
    rw [harg _ (by omega), CString.mem_eq_zero_iff] at hzero
    omega
  refine field_eq (fun h => s.zero_notMem (List.mem_of_mem_take h)) (by omega) (fun j hj => ?_)
    fun _ => ?_
  · rw [Nat.zero_add, Function.update_of_ne (by omega), (hcopy j (Nat.zero_le j) (by omega)).1,
      harg j (by omega), CString.mem_of_lt (by omega), List.getElem_take]
  · rw [Nat.zero_add, hlen]
    by_cases hstop : r.2 = min n s.chars.length
    · rw [hstop, Function.update_self]
    · rw [Function.update_of_ne (by omega), (hcopy _ (Nat.zero_le _) (by omega)).1,
        harg _ (by omega), CString.mem_eq_zero_iff]
      omega

end getargs

/-! ### Who writes `arg_buf` -/

namespace Kernel

variable {k k' : Kernel} {a fd : ℕ} {c : Ctx} {e : SysEvent} {stale : Stale} {command : CString}

/-- `arg_buf` holds the arguments of the last call of `execute`. -/
def ArgsHeld (k : Kernel) : Prop :=
  ∃ s : CString, k.lastArgs = s.chars ∧ ∀ i ≤ s.chars.length, k.argBuf i = s.mem i

/-- The states agree on `arg_buf`. -/
def SameArgs (k k' : Kernel) : Prop := k'.argBuf = k.argBuf ∧ k'.lastArgs = k.lastArgs

theorem ArgsHeld.congr (h : ArgsHeld k) (hs : SameArgs k k') : ArgsHeld k' := by
  unfold ArgsHeld
  rw [hs.1, hs.2]
  exact h

theorem argsHeld_setArgs (h : k.setArgs command = some k') : ArgsHeld k' := by
  unfold setArgs at h
  split_ifs at h with hfit hspace
  · cases h
    refine ⟨command.args, rfl, fun i hi => ?_⟩
    exact if_pos hi
  · cases h
    -- without a space the arguments are empty
    have hnil : command.args.chars = [] := by
      have hall : ∀ x ∈ command.chars, (decide (x ≠ 0x20)) = true := fun x hx =>
        decide_eq_true fun heq => hspace (heq ▸ hx)
      have hdrop : command.chars.dropWhile (· ≠ 0x20) = [] := List.dropWhile_eq_nil_iff.2 hall
      change (command.chars.dropWhile (· ≠ 0x20)).tail = []
      rw [hdrop, List.tail_nil]
    refine ⟨command.args, rfl, fun i hi => ?_⟩
    obtain rfl : i = 0 := by
      rw [hnil] at hi
      exact Nat.le_zero.1 hi
    have hzero : command.args.mem 0 = 0 := by
      rw [CString.mem_eq_zero_iff, hnil]
      exact Nat.le_refl 0
    rw [hzero]
    rfl

theorem sameArgs_startProcess {n : ℕ} {x : Pcb} : SameArgs k (k.startProcess c n x) := by
  rw [startProcess, adopt_eq]
  exact ⟨rfl, rfl⟩

theorem argsHeld_execute {r : Option ℤ} (h : k.execute c command stale = some (k', r)) :
    ArgsHeld k' := by
  unfold execute at h
  obtain ⟨k₁, hargs, h⟩ := Option.bind_eq_some_iff.1 h
  have hheld := argsHeld_setArgs hargs
  split_ifs at h
  · cases h
    exact hheld
  · cases hopen : k₁.files.fileOpen command.word.mem with
    | none =>
      rw [hopen] at h
      cases h
      exact hheld
    | some f =>
      rw [hopen] at h
      obtain ⟨buffer, -, h⟩ := Option.bind_eq_some_iff.1 h
      split_ifs at h
      · cases h
        exact hheld.congr sameArgs_startProcess
      · cases h
        exact hheld

theorem sameArgs_faced {n : ℕ} : SameArgs k (k.faced n) := by
  rw [faced_eq]
  exact ⟨rfl, rfl⟩

theorem sameArgs_readied {n : ℕ} : SameArgs k (k.readied c n) := by
  rw [readied_eq]
  exact ⟨rfl, rfl⟩

theorem ArgsHeld.contextSwitch {old n : ℕ} (hk : ArgsHeld k)
    (h : k.contextSwitch c old n stale = some k') : ArgsHeld k' := by
  rcases contextSwitch_cases h with ⟨-, rfl⟩ | ⟨-, -, rfl⟩ | ⟨-, -, -, rfl⟩ | ⟨-, -, _, _, -, hexec⟩
  · exact hk
  · exact hk.congr sameArgs_faced
  · exact hk.congr sameArgs_readied
  · exact argsHeld_execute hexec

theorem sameArgs_closeAll : SameArgs k (k.closeAll a) := by
  unfold closeAll
  induction List.range' 2 6 generalizing k with
  | nil => exact ⟨rfl, rfl⟩
  | cons fd fds ih =>
    have hfd : SameArgs k (k.closeFd a fd) := by
      unfold closeFd
      split_ifs <;> exact ⟨rfl, rfl⟩
    exact ⟨ih.1.trans hfd.1, ih.2.trans hfd.2⟩

theorem ArgsHeld.halt (hk : ArgsHeld k) (h : k.halt = some k') : ArgsHeld k' := by
  unfold Kernel.halt at h
  obtain ⟨a, -, h⟩ := Option.bind_eq_some_iff.1 h
  have hclosed : ArgsHeld (k.closeAll a) := hk.congr sameArgs_closeAll
  split_ifs at h
  · unfold haltShell at h
    generalize k.closeAll a = k₁ at h hclosed
    obtain ⟨k₂, hswitch, h⟩ := Option.bind_eq_some_iff.1 h
    have hgone : ArgsHeld k₁.shellGone := hclosed
    have hk₂ : ArgsHeld k₂ := ArgsHeld.contextSwitch hgone hswitch
    cases h
    exact hk₂
  · cases hparent : (k.pcb a).parent with
    | none =>
      rw [hparent] at h
      obtain ⟨c, -, h⟩ := Option.bind_eq_some_iff.1 h
      have hroot : ∀ n m, ArgsHeld { k with esp0 := n, pidMax := m, cpu := c } := fun _ _ => hk
      cases h
      exact hroot _ _
    | some q =>
      rw [hparent] at h
      unfold haltChild at h
      generalize k.closeAll a = k₁ at h hclosed
      obtain ⟨c, -, h⟩ := Option.bind_eq_some_iff.1 h
      cases h
      exact hclosed

theorem ArgsHeld.call {p : Process} (hk : ArgsHeld k) (h : k.call p e = some k') : ArgsHeld k' := by
  cases e with
  | execute command stale =>
    obtain ⟨⟨k₁, r⟩, hexec, hk₁⟩ := Option.map_eq_some_iff.1 h
    cases hk₁
    exact argsHeld_execute hexec
  | halt => exact hk.halt h
  | openName name =>
    obtain ⟨a, -, h⟩ := Option.bind_eq_some_iff.1 h
    obtain ⟨⟨f, x, ret⟩, -, h⟩ := Option.bind_eq_some_iff.1 h
    cases h
    exact hk
  | close fd =>
    obtain ⟨a, -, h⟩ := Option.bind_eq_some_iff.1 h
    cases h
    exact hk
  | read fd buf n =>
    obtain ⟨a, -, h⟩ := Option.bind_eq_some_iff.1 h
    obtain rfl | rfl | ⟨r, -, rfl⟩ := readFd_cases h
    · exact hk
    · exact hk
    · exact hk
  | vidmap | getargs | pit | keyF1 | keyF2 | keyEsc | mouseTerm | mousePacman =>
    cases h
    exact hk

theorem ArgsHeld.step (hk : ArgsHeld k) (h : k.step e = some k') : ArgsHeld k' := by
  cases e with
  | pit =>
    rcases pitIrq_cases h with rfl | ⟨t, a, c, -, -, -, rfl⟩ <;> exact hk
  | keyF1 stale =>
    change k.keyF1 stale = some k' at h
    unfold keyF1 at h
    split_ifs at h
    · obtain ⟨k₁, hswitch, h⟩ := Option.bind_eq_some_iff.1 h
      have hk₁ : ArgsHeld k₁ := hk.contextSwitch hswitch
      cases h
      exact hk₁
    · cases h
      exact hk
  | keyF2 stale =>
    change k.keyF2 stale = some k' at h
    unfold keyF2 at h
    by_cases hgame : k.isPacman = 0
    · rw [if_pos hgame] at h
      split at h
      · cases h
        exact hk
      · have hmode : ArgsHeld { k with isModex := if k.isModex = 1 then 0 else k.isModex } := hk
        exact hmode.contextSwitch h
    · rw [if_neg hgame] at h
      cases h
      exact hk
  | keyEsc =>
    change k.keyEsc = some k' at h
    unfold keyEsc at h
    split_ifs at h
    · have hgame : ArgsHeld { k with isPacman := 0 } := hk
      exact hgame.halt h
    · cases h
      exact hk
  | mouseTerm stale =>
    change k.mouseTerm stale = some k' at h
    unfold mouseTerm at h
    split_ifs at h
    · cases h
      exact hk
    · have hmode : ArgsHeld { k with isModex := 0 } := hk
      exact hmode.contextSwitch h
  | mousePacman stale =>
    change k.mousePacman stale = some k' at h
    unfold mousePacman at h
    split_ifs at h
    · cases h
      exact hk
    · have hgame : ArgsHeld { k with isPacman := 1 } := hk
      exact hgame.contextSwitch h
  | execute | halt | getargs | openName | close | read | vidmap =>
    unfold Kernel.step at h
    rcases hcpu : k.cpu with p | _
    · simp only [hcpu] at h
      exact hk.call h
    · simp only [hcpu] at h
      cases h

/-! ### Every run -/

/-- A call of `getargs` with a buffer that is large enough leaves the arguments of the process. -/
def GetsOwnArgs (k : Kernel) (e : SysEvent) : Prop :=
  e = .getargs → ∀ p, k.cpu = .user p → ∀ buf nbytes, p.args.length < nbytes →
    field (KTeamOS.getargs k.argBuf buf nbytes) (nbytes + 1) 0 = p.args

/-- When a process calls `getargs`, the last call of `execute` had its arguments. -/
def LastArgsOwn (k : Kernel) (e : SysEvent) : Prop :=
  e = .getargs → ∀ p, k.cpu = .user p → k.lastArgs = p.args

theorem getsOwnArgs_iff (h : ArgsHeld k) : GetsOwnArgs k e ↔ LastArgsOwn k e := by
  obtain ⟨s, hlast, harg⟩ := h
  refine forall_congr' fun _ => forall₂_congr fun p _ => ⟨fun hget => ?_, fun hown => ?_⟩
  · have hfield := hget (fun _ => 0) _ (Nat.lt_succ_self p.args.length)
    rw [field_getargs harg (Nat.succ_pos _)] at hfield
    -- what fits is shorter than the buffer, so it is all there is
    have hlength := congrArg List.length hfield
    rw [List.length_take] at hlength
    rw [hlast, ← hfield, List.take_of_length_le (by omega)]
  · intro buf nbytes hn
    rw [field_getargs harg (by omega), ← hlast, hown, List.take_of_length_le (Nat.le_of_lt hn)]

/-- **`getargs` returns the process's own arguments** at every call of a run exactly if at each of
them the last call of `execute`, successful or not, had these arguments. -/
theorem getargs_own_iff {d : Disk} {k₀ : Kernel} (hboot : boot d stale = some k₀)
    (es : List SysEvent) :
    kernelMachine.Steps GetsOwnArgs k₀ es ↔ kernelMachine.Steps LastArgsOwn k₀ es := by
  have hheld : ArgsHeld k₀ := by
    obtain ⟨⟨k₁, r⟩, hexec, hk₁⟩ := Option.map_eq_some_iff.1 hboot
    cases hk₁
    exact argsHeld_execute hexec
  exact Machine.steps_iff_steps (I := ArgsHeld) (fun k e k' hk _ => getsOwnArgs_iff hk)
    (fun k e k' hk _ hst => hk.step hst) hheld es

/-- The command `a b`, which names no file of `programDisk`. -/
def missingCommand : CString := ⟨[0x61, 0x20, 0x62], by decide⟩

/-- `ls b` -/
def lsCommand : CString := ⟨[0x6C, 0x73, 0x20, 0x62], by decide⟩

instance (k : Kernel) (e : SysEvent) : Decidable (LastArgsOwn k e) :=
  match e, hcpu : k.cpu with
  | .getargs, .user p => decidable_of_iff (k.lastArgs = p.args)
    ⟨fun h _ q hq => by rw [hcpu] at hq; cases hq; exact h, fun h => h rfl p hcpu⟩
  | .getargs, .spin => isTrue fun _ p hp => by rw [hcpu] at hp; cases hp
  | .execute .., _ | .halt, _ | .openName _, _ | .close _, _ | .read .., _ | .vidmap, _ | .pit, _
  | .keyF1 _, _ | .keyF2 _, _ | .keyEsc, _ | .mouseTerm _, _ | .mousePacman _, _ =>
    isTrue fun he => by cases he

/-- A shell executes `ls b`, which calls `getargs`, executes the missing `a b`, whose arguments are
the same, and calls `getargs` again after two ticks of the timer. -/
def lsArgsRun : List SysEvent :=
  [.mouseTerm zeroStack, .execute lsCommand zeroStack, .getargs, .execute missingCommand zeroStack,
    .pit, .pit, .getargs]

theorem getargs_own_ls : ∃ k₀ k p, boot programDisk zeroStack = some k₀ ∧
    kernelMachine.exec k₀ lsArgsRun = some k ∧ k.cpu = .user p ∧ p.args = [0x62] ∧
    kernelMachine.Steps GetsOwnArgs k₀ lsArgsRun := by
  have hrun : ((boot programDisk zeroStack).bind fun k₀ =>
      (kernelMachine.exec k₀ lsArgsRun).map fun k => (k.cpu,
        decide (kernelMachine.Steps LastArgsOwn k₀ lsArgsRun))) =
      some (.user ⟨2, 3, [0x62]⟩, true) := by
    decide +kernel
  obtain ⟨k₀, hboot, hrun⟩ := Option.bind_eq_some_iff.1 hrun
  obtain ⟨k, hexec, hk⟩ := Option.map_eq_some_iff.1 hrun
  obtain ⟨hcpu, hsteps⟩ := Prod.mk.inj hk
  exact ⟨k₀, k, _, hboot, hexec, hcpu, rfl,
    (getargs_own_iff hboot lsArgsRun).2 (of_decide_eq_true hsteps)⟩

/-- A shell calls `execute` for a file that does not exist, and then asks for its own arguments. -/
theorem not_getargs_own : ∃ d stale k₀ es, boot d stale = some k₀ ∧
    ¬ kernelMachine.Steps GetsOwnArgs k₀ es := by
  have hrun : ((boot programDisk zeroStack).bind fun k₀ => (kernelMachine.exec k₀
      [.mouseTerm zeroStack, .execute missingCommand zeroStack]).map
      fun k => (k.cpu, field (KTeamOS.getargs k.argBuf (fun _ => 0) 200) 201 0)) =
        some (.user ⟨1, 2, []⟩, [0x62]) := by
    decide +kernel
  obtain ⟨k₀, hboot, hrun⟩ := Option.bind_eq_some_iff.1 hrun
  obtain ⟨k, hexec, hk⟩ := Option.map_eq_some_iff.1 hrun
  obtain ⟨hcpu, hfield⟩ := Prod.mk.inj hk
  have hst : kernelMachine.step k .getargs = some k := by
    change k.step .getargs = some k
    simp only [Kernel.step, hcpu, Kernel.call]
  have hno : ¬ GetsOwnArgs k .getargs := fun hget => by
    have hown := hget rfl _ hcpu (fun _ => 0) 200 (Nat.succ_pos _)
    rw [hfield] at hown
    cases hown
  exact ⟨_, _, k₀, _, hboot, fun hsteps => hno (Machine.Steps.last hsteps hexec hst)⟩

end Kernel

end KTeamOS
