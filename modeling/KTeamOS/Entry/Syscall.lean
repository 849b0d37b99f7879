import KTeamOS.X86.System

/-!
# The way of a system call

The wrapper in the library of the programs, `int $0x80`, the dispatcher of the kernel, the C
function, and the way back.  The gate leaves the interrupts on; the results here follow the way that
no interrupt cuts, and `Entry.Interrupt` says what an interrupt leaves as it was.

## Main definitions

* `doCall`, `syscallEntry`, `syscallTable` : the assembly of the two sides, and the table between
  them.
* `Linked` : where the kernel's code and its table are.
* `Cdecl` : what a C function has to leave alone.

## Main results

* `Entry.call_returns` : each wrapper calls the kernel function of its name with its three
  arguments, and returns what the function returns.
* `Entry.call_refused` : any other number is refused by the dispatcher.
-/

namespace KTeamOS

open X86

/-- The system calls, by the names of `ece391sysnum.h`. -/
inductive Syscall
  | halt | execute | read | write | open | close | getargs | vidmap | setHandler | sigreturn
  | malloc | pmap | free | clock | pac | rx | tx
deriving DecidableEq

/-- The kernel's functions, by their names in the kernel. -/
inductive Service
  | halt | execute | read | write | open | close | getargs | vidmap | setHandler | sigreturn
  | malloc | pmap | free | clock | parsePacman | readSerial | writeSerial
deriving DecidableEq

/-- `ece391sysnum.h` -/
def Syscall.number : Syscall → ℕ
  | halt => 1
  | execute => 2
  | read => 3
  | write => 4
  | .open => 5
  | close => 6
  | getargs => 7
  | vidmap => 8
  | setHandler => 9
  | sigreturn => 10
  | malloc => 11
  | pmap => 12
  | free => 13
  | clock => 14
  | pac => 15
  | rx => 16
  | tx => 17

/-- The function of the same name, or of the same purpose. -/
def Syscall.service : Syscall → Service
  | halt => .halt
  | execute => .execute
  | read => .read
  | write => .write
  | .open => .open
  | close => .close
  | getargs => .getargs
  | vidmap => .vidmap
  | setHandler => .setHandler
  | sigreturn => .sigreturn
  | malloc => .malloc
  | pmap => .pmap
  | free => .free
  | clock => .clock
  | pac => .parsePacman
  | rx => .readSerial
  | tx => .writeSerial

/-- `SYSCALL_TBL` -/
def syscallTable : List Service :=
  [.halt, .execute, .read, .write, .open, .close, .getargs, .vidmap, .setHandler, .sigreturn,
    .malloc, .pmap, .free, .clock, .parsePacman, .readSerial, .writeSerial]

/-- `DO_CALL(name, number)` -/
def doCall (number : ℕ) : List Op :=
  [ .pushl (.reg .ebx),
    .plain (.movl (.imm (BitVec.ofNat 32 number)) .eax),
    .load 8 .esp .ebx,
    .load 12 .esp .ecx,
    .load 16 .esp .edx,
    .int 0x80,
    .popl .ebx,
    .ret ]

/-- `SYSCALL`, at the address `a`, with the table at `table`. -/
def syscallEntry (a table : Word) : List Op :=
  [ .plain (.cmpl (.imm 0) .eax),
    .plain (.jcc .le (a + 11)),
    .plain (.cmpl (.imm 17) .eax),
    .plain (.jcc .g (a + 11)),
    .pushl (.reg .edx),
    .pushl (.reg .ecx),
    .pushl (.reg .ebx),
    .decl .eax,
    .callTable table .eax,
    .plain (.addl (.imm 12) .esp),
    .plain (.jmp (a + 12)),
    -- done_error
    .plain (.movl (.imm (-1)) .eax),
    -- done
    .iret ]

/-- Where the dispatcher, the table and the functions of the kernel are. -/
structure Linked (env : Env) (code : Word → Option Op) (entry table : Word)
    (addr : Service → Word) (native : Service → ℕ) : Prop where
  gate : env.gate 0x80 = some ⟨entry, 0x10, 3, true⟩
  entry : CodeAt code entry (syscallEntry entry table)
  service : ∀ f, CodeAt code (addr f) [.native (native f), .ret]

/-- The table holds the addresses of the functions. -/
def TableAt (m : Word → Byte) (table : Word) (addr : Service → Word) : Prop :=
  ∀ i (h : i < syscallTable.length), peek m (table + 4 * BitVec.ofNat 32 i) = addr syscallTable[i]

/-- What a function that was called in `s`, with three arguments, leaves when it has come to its
`ret` in `t`: its stack with what the caller has there, behind the arguments, and the registers that
belong to the caller. -/
structure Cdecl (s t : Cpu (Word → Byte)) : Prop where
  reg : s.Keeps [.eax, .ecx, .edx] t
  seg : t.seg = s.seg
  ret : SameBytes s.mem t.mem (s.reg .esp) 4
  above : SameBytes s.mem t.mem (s.reg .esp + 16) 20

namespace Entry

/-- The numbers of the library lead to the functions of the same names. -/
theorem syscallTable_number (c : Syscall) : c.number - 1 < syscallTable.length ∧
    syscallTable[c.number - 1]? = some c.service := by
  cases c <;> exact ⟨by decide, rfl⟩

variable {E : Env} {code : Word → Option Op} {s : Cpu (Word → Byte)}
  {u entry table ra a₁ a₂ a₃ : Word} {addr : Service → Word} {native : Service → ℕ} {k : ℕ}

/-- The wrapper takes its arguments from the stack to the registers. -/
theorem doCall_traps (hstub : CodeAt code u (doCall k))
    (hstack : Stack s.mem (s.reg .esp) [ra, a₁, a₂, a₃]) : ∃ t,
    Flows E code (u, s) (u + 1 + 1 + 1 + 1 + 1, t) ∧
      t.mem = poke s.mem (s.reg .esp - 4) (s.reg .ebx) ∧ t.reg .esp = s.reg .esp - 4 ∧
      t.reg .eax = BitVec.ofNat 32 k ∧ t.reg .ebx = a₁ ∧ t.reg .ecx = a₂ ∧ t.reg .edx = a₃ ∧
      s.Keeps [.eax, .ebx, .ecx, .edx, .esp] t ∧ t.flags = s.flags ∧ t.seg = s.seg := by
  obtain ⟨h₀, h₁, h₂, h₃, h₄, -⟩ := hstub
  have hpushed : Stack (poke s.mem (s.reg .esp - 4) (s.reg .ebx)) (s.reg .esp - 4)
      [s.reg .ebx, ra, a₁, a₂, a₃] := hstack.poke (show 4 * (4 + 1) ≤ 2 ^ 32 by decide)
  refine ⟨_, .op h₀ rfl <| .op h₁ rfl <| .op h₂ rfl <| .op h₃ rfl <| .op h₄ rfl .refl, rfl, rfl,
    rfl, hpushed.get (show 2 < 5 by decide), hpushed.get (show 3 < 5 by decide),
    hpushed.get (show 4 < 5 by decide), ?_, rfl, rfl⟩
  exact ((((Cpu.keeps_set (by decide)).trans (Cpu.keeps_set (by decide))).trans
    (Cpu.keeps_set (by decide))).trans (Cpu.keeps_set (by decide))).trans
      (Cpu.keeps_set (by decide))

/-- What the kernel finds on its stack when the function starts. -/
def kernelFrame (s : Cpu (Word → Byte)) (pc ret : Word) : List Word :=
  [ret, s.reg .ebx, s.reg .ecx, s.reg .edx, pc, (s.seg .cs).setWidth 32, s.flags.toWord,
    s.reg .esp, (s.seg .ss).setWidth 32]

theorem tableAt_congr {m m' : Word → Byte} (h : TableAt m table addr)
    (hm : SameBytes m m' table 68) : TableAt m' table addr := by
  intro i hi
  have hlen : syscallTable.length = 17 := rfl
  have hfour : table + 4 * BitVec.ofNat 32 i = table + BitVec.ofNat 32 (4 * i) := by
    rw [BitVec.ofNat_mul]
    rfl
  rw [hfour, hm.peek (by omega), ← hfour, h i hi]

/-- The address that a call number stands for. -/
theorem table_lookup {m : Word → Byte} (c : Syscall) (h : TableAt m table addr) {x : Word}
    (hx : x = BitVec.ofNat 32 c.number - 1) : peek m (table + 4 * x) = addr c.service := by
  obtain ⟨hlt, hget⟩ := syscallTable_number c
  have hpred : x = BitVec.ofNat 32 (c.number - 1) := by
    rw [hx]
    cases c <;> rfl
  obtain ⟨_, hname⟩ := List.getElem_of_getElem? hget
  rw [hpred, h _ hlt, hname]

/-- The checks, the arguments, and the call of the function. -/
theorem syscall_calls (L : Linked E code entry table addr native) (c : Syscall)
    (hax : s.reg .eax = BitVec.ofNat 32 c.number) : ∃ t,
    Flows E code (entry, s)
      (peek (pushes s.mem (s.reg .esp) [s.reg .edx, s.reg .ecx, s.reg .ebx]).1
        (table + 4 * (s.reg .eax - 1)), t) ∧
      (t.mem, t.reg .esp) = pushes s.mem (s.reg .esp)
        [s.reg .edx, s.reg .ecx, s.reg .ebx, entry + 1 + 1 + 1 + 1 + 1 + 1 + 1 + 1 + 1] ∧
      s.Keeps [.eax, .esp] t ∧ t.seg = s.seg := by
  obtain ⟨h₀, h₁, h₂, h₃, h₄, h₅, h₆, h₇, h₈, -⟩ := L.entry
  have hpos : ¬ (s.flags.sub (s.reg .eax) 0).holds .le = true := by
    rw [Flags.holds_le_sub, hax]
    cases c <;> decide
  have hmax : ¬ ((s.flags.sub (s.reg .eax) 0).sub (s.reg .eax) 17).holds .g = true := by
    rw [Flags.holds_g_sub, hax]
    cases c <;> decide
  obtain ⟨s₁, hflows₁, hmem₁, hsp₁, hkeeps₁, hseg₁⟩ : ∃ t,
      Flows E code (entry, s) (entry + 1 + 1 + 1 + 1 + 1 + 1 + 1, t) ∧
        t.mem = (pushes s.mem (s.reg .esp) [s.reg .edx, s.reg .ecx, s.reg .ebx]).1 ∧
        t.reg .esp = (pushes s.mem (s.reg .esp) [s.reg .edx, s.reg .ecx, s.reg .ebx]).2 ∧
        s.Keeps [.esp] t ∧ t.seg = s.seg :=
    ⟨_, .op h₀ rfl <| .falls h₁ hpos <| .op h₂ rfl <| .falls h₃ hmax <| .op h₄ rfl <|
      .op h₅ rfl <| .op h₆ rfl .refl, rfl, rfl, ((Cpu.keeps_set (by decide)).trans
        (Cpu.keeps_set (by decide))).trans (Cpu.keeps_set (by decide)), rfl⟩
  obtain ⟨t, hflows, hpush, hkeeps, hseg⟩ : ∃ t,
      Flows E code (entry + 1 + 1 + 1 + 1 + 1 + 1 + 1, s₁)
        (peek s₁.mem (table + 4 * (s₁.reg .eax - 1)), t) ∧
        (t.mem, t.reg .esp) = pushes s₁.mem (s₁.reg .esp)
          [entry + 1 + 1 + 1 + 1 + 1 + 1 + 1 + 1 + 1] ∧
        s₁.Keeps [.eax, .esp] t ∧ t.seg = s₁.seg :=
    ⟨_, .op h₇ rfl <| .op h₈ rfl .refl, rfl,
      (Cpu.keeps_set (by decide)).trans (Cpu.keeps_set (by decide)), rfl⟩
  rw [hkeeps₁ .eax (by decide), hmem₁] at hflows
  refine ⟨t, hflows₁.trans hflows, ?_, (hkeeps₁.mono (by decide)).trans hkeeps, hseg.trans hseg₁⟩
  rw [hpush, hmem₁, hsp₁, ← pushes_append]
  rfl

/-- The gate of the system calls. -/
theorem int_enters (L : Linked E code entry table addr native) (huser : s.cpl = 3) : ∃ t,
    Op.exec E u s (.int 0x80) = some (entry, t) ∧
      t.mem = (pushes s.mem (E.stack0 s.mem).1 [(s.seg .ss).setWidth 32, s.reg .esp,
        s.flags.toWord, (s.seg .cs).setWidth 32, u + 1]).1 ∧
      t.reg .esp = (pushes s.mem (E.stack0 s.mem).1 [(s.seg .ss).setWidth 32, s.reg .esp,
        s.flags.toWord, (s.seg .cs).setWidth 32, u + 1]).2 ∧
      s.Keeps [.esp] t ∧ t.seg .cs = 0x10 ∧ ∀ r, r ≠ .cs → r ≠ .ss → t.seg r = s.seg r := by
  have hkernel : (0x10 : BitVec 16).toNat % 4 < s.cpl := by rw [huser]; decide
  obtain ⟨t, henter, hpush, hkeeps, hcs, hseg, -⟩ := Cpu.enter_outer (E := E)
    (g := ⟨entry, 0x10, 3, true⟩) (p := u + 1) hkernel
  obtain ⟨hmem, hsp⟩ := Prod.ext_iff.1 hpush
  exact ⟨t, by rw [Op.exec_int L.gate (Nat.le_of_eq huser), henter], hmem, hsp, hkeeps, hcs, hseg⟩

/-- The gate, the checks, and the call of the function. -/
theorem syscall_dispatches (L : Linked E code entry table addr native) (c : Syscall)
    (hint : code u = some (.int 0x80)) (huser : s.cpl = 3)
    (hax : s.reg .eax = BitVec.ofNat 32 c.number) (htable : TableAt s.mem table addr)
    (hplace : Distant table 68 ((E.stack0 s.mem).1 - 36) 36) : ∃ t,
    Flows E code (u, s) (addr c.service, t) ∧
      (t.mem, t.reg .esp) = pushes s.mem (E.stack0 s.mem).1
        (kernelFrame s (u + 1) (entry + 9)).reverse ∧
      s.Keeps [.eax, .esp] t ∧ t.seg .cs = 0x10 ∧
      (∀ r, r ≠ .cs → r ≠ .ss → t.seg r = s.seg r) := by
  obtain ⟨s₁, hint', hmem₁, hsp₁, hkeeps₁, hcs₁, hseg₁⟩ := int_enters (u := u) L huser
  obtain ⟨t, hflows, hpush, hkeeps, hseg⟩ := syscall_calls (s := s₁) L c
    ((hkeeps₁ .eax (by decide)).trans hax)
  rw [hmem₁, hsp₁, hkeeps₁ .eax (by decide), hkeeps₁ .ebx (by decide), hkeeps₁ .ecx (by decide),
    hkeeps₁ .edx (by decide), ← pushes_append] at hflows
  rw [hmem₁, hsp₁, hkeeps₁ .ebx (by decide), hkeeps₁ .ecx (by decide), hkeeps₁ .edx (by decide),
    ← pushes_append] at hpush
  have hsame : SameBytes s.mem (pushes s.mem (E.stack0 s.mem).1
      ([(s.seg .ss).setWidth 32, s.reg .esp, s.flags.toWord, (s.seg .cs).setWidth 32, u + 1] ++
        [s.reg .edx, s.reg .ecx, s.reg .ebx])).1 table 68 := by
    refine Distant.pushes (hplace.part (k := 4) ?_) (show 4 * 8 < 2 ^ 32 by decide)
    have hall : (E.stack0 s.mem).1 - BitVec.ofNat 32 (4 * 8) =
        (E.stack0 s.mem).1 - 36 + BitVec.ofNat 32 4 := by grind
    rw [← hall, pushes_sp]
    rfl
  have hnine : entry + 1 + 1 + 1 + 1 + 1 + 1 + 1 + 1 + 1 = entry + 9 := by grind
  rw [table_lookup c (tableAt_congr htable hsame) (by rw [hax])] at hflows
  refine ⟨t, .op hint hint' hflows, ?_, (hkeeps₁.mono (by decide)).trans hkeeps, ?_, ?_⟩
  · rw [hpush, hnine]
    rfl
  · rw [hseg, hcs₁]
  · intro r hcs hss
    rw [hseg, hseg₁ r hcs hss]

/-- From the `ret` of a function to the program. -/
theorem syscall_returns (L : Linked E code entry table addr native) {a : Word}
    (hcode : code a = some .ret) {pc cs fl sp ss : Word}
    (hret : Stack s.mem (s.reg .esp) [entry + 9])
    (hframe : Stack s.mem (s.reg .esp + 16) [pc, cs, fl, sp, ss])
    (hcpl : s.cpl < (cs.setWidth 16).toNat % 4) : ∃ t,
    Flows E code (a, s) (pc, t) ∧ t.mem = s.mem ∧ t.reg .esp = sp ∧
      s.Keeps [.esp] t ∧ t.seg .cs = cs.setWidth 16 ∧ t.seg .ss = ss.setWidth 16 ∧
      (∀ r, r ≠ .cs → r ≠ .ss → t.seg r = s.seg r) ∧ t.flags = .ofWord fl := by
  obtain ⟨-, -, -, -, -, -, -, -, -, h₉, h₁₀, -, h₁₂, -⟩ := L.entry
  have hnine : entry + 1 + 1 + 1 + 1 + 1 + 1 + 1 + 1 + 1 = entry + 9 := by grind
  have htwelve : entry + 1 + 1 + 1 + 1 + 1 + 1 + 1 + 1 + 1 + 1 + 1 + 1 = entry + 12 := by grind
  rw [hnine] at h₉ h₁₀
  rw [htwelve] at h₁₂
  obtain ⟨s₁, hflows₁, hmem₁, hsp₁, hkeeps₁, hseg₁⟩ : ∃ s₁,
      Flows E code (a, s) (entry + 12, s₁) ∧ s₁.mem = s.mem ∧
        s₁.reg .esp = s.reg .esp + 16 ∧ s.Keeps [.esp] s₁ ∧ s₁.seg = s.seg := by
    have hsum : s.reg .esp + 4 + 12 = s.reg .esp + 16 := by grind
    have hgo : Op.exec E a s .ret = some (entry + 9, s.set .esp (s.reg .esp + 4)) := by
      rw [Op.exec, hret.1]
    exact ⟨_, .op hcode hgo <| .op h₉ rfl <| .op h₁₀ rfl .refl, rfl, hsum,
      (Cpu.keeps_set (by decide)).trans (Cpu.keeps_set (by decide)), rfl⟩
  have hcpl₁ : s₁.cpl < (cs.setWidth 16).toNat % 4 := by rwa [Cpu.cpl, hseg₁]
  obtain ⟨t, hiret, hmem, hsp, hkeeps, hcs, hss, hseg, hflags⟩ :=
    Cpu.iret_outer (by rwa [hmem₁, hsp₁]) hcpl₁
  refine ⟨t, hflows₁.trans (Flows.op h₁₂ (by rw [Op.exec, hiret]) .refl), hmem.trans hmem₁, hsp,
    hkeeps₁.trans hkeeps, hcs, hss, fun r hc hs => ?_, hflags⟩
  rw [hseg r hc hs, hseg₁]

/-! ### Pending calls -/

/-- Where the stacks and the table are: none of them is on another one. -/
structure Placed (sp top table : Word) : Prop where
  userKernel : Distant (sp - 4) 20 (top - 36) 36
  tableKernel : Distant table 68 (top - 36) 36
  tableUser : Distant table 68 (sp - 4) 4

/-- What the memory holds for the call that the program made in the state `s`, with the wrapper at
`u`, until it is back at `ra`: the way back to the wrapper, on the stack of the kernel, and the two
words that the wrapper needs, on the stack of the program. -/
structure Pending (s : Cpu (Word → Byte)) (u entry ra k : Word) (m : Word → Byte) : Prop where
  ret : Stack m k [entry + 9]
  frame : Stack m (k + 16) [u + 6, (s.seg .cs).setWidth 32, s.flags.toWord, s.reg .esp - 4,
    (s.seg .ss).setWidth 32]
  wrapper : Stack m (s.reg .esp - 4) [s.reg .ebx, ra]

/-- A function that keeps to the calling convention leaves the call pending. -/
theorem Pending.cdecl {t t' : Cpu (Word → Byte)} (h : Pending s u entry ra (t.reg .esp) t.mem)
    (hcdecl : Cdecl t t') (hwrapper : SameBytes t.mem t'.mem (s.reg .esp - 4) 8) :
    Pending s u entry ra (t'.reg .esp) t'.mem := by
  rw [hcdecl.reg .esp (by decide)]
  exact ⟨h.ret.congr hcdecl.ret, h.frame.congr hcdecl.above, h.wrapper.congr hwrapper⟩

theorem setWidth_seg (x : BitVec 16) : (x.setWidth 32).setWidth 16 = x := by
  rw [BitVec.setWidth_setWidth_of_le _ (by decide), BitVec.setWidth_eq]

/-- **The way in.** -/
theorem call_enters (L : Linked E code entry table addr native) (c : Syscall)
    (hstub : CodeAt code u (doCall c.number)) (huser : s.cpl = 3)
    (hstack : Stack s.mem (s.reg .esp) [ra, a₁, a₂, a₃]) (htable : TableAt s.mem table addr)
    {top : Word} {ss : BitVec 16}
    (htop : E.stack0 (poke s.mem (s.reg .esp - 4) (s.reg .ebx)) = (top, ss))
    (hplaced : Placed (s.reg .esp) top table) : ∃ t,
    Flows E code (u, s) (addr c.service, t) ∧ Stack t.mem (t.reg .esp + 4) [a₁, a₂, a₃] ∧
      Pending s u entry ra (t.reg .esp) t.mem ∧
      (∀ b, 4 ≤ (b - (s.reg .esp - 4)).toNat → 36 ≤ (b - (top - 36)).toNat → t.mem b = s.mem b) ∧
      s.Keeps [.eax, .ebx, .ecx, .edx, .esp] t ∧ t.seg .cs = 0x10 ∧
      (∀ r, r ≠ .cs → r ≠ .ss → t.seg r = s.seg r) := by
  obtain ⟨s₁, hflows₁, hmem₁, hsp₁, hax₁, hbx₁, hcx₁, hdx₁, hkeeps₁, hflags₁, hseg₁⟩ :=
    doCall_traps (E := E) hstub hstack
  obtain ⟨-, -, -, -, -, hint, -⟩ := hstub
  rw [← hmem₁] at htop
  have hcpl₁ : s₁.cpl = 3 := by rwa [Cpu.cpl, hseg₁]
  have htable₁ : TableAt s₁.mem table addr := by
    rw [hmem₁]
    exact tableAt_congr htable hplaced.tableUser.poke
  obtain ⟨t, hflows, hpush, hkeeps, hcs, hseg⟩ := syscall_dispatches (s := s₁) L c hint hcpl₁ hax₁
    htable₁ (by rw [htop]; exact hplaced.tableKernel)
  have hsix : u + 1 + 1 + 1 + 1 + 1 + 1 = u + 6 := by grind
  rw [htop, hsix] at hpush
  obtain ⟨hmem, hsp⟩ := Prod.ext_iff.1 hpush
  dsimp only at hmem hsp
  have hstack₁ : Stack s₁.mem (s.reg .esp - 4) [s.reg .ebx, ra, a₁, a₂, a₃] := by
    rw [hmem₁]
    exact hstack.poke (show 4 * (4 + 1) ≤ 2 ^ 32 by decide)
  have hframe : Stack t.mem (t.reg .esp) (kernelFrame s₁ (u + 6) (entry + 9)) := by
    have hnil : Stack s₁.mem top [] := trivial
    rw [hmem, hsp]
    exact hnil.pushes (show 4 * (9 + 0) ≤ 2 ^ 32 by decide)
  have hbelow : (pushes s₁.mem top (kernelFrame s₁ (u + 6) (entry + 9)).reverse).2 = top - 36 :=
    pushes_sp
  have hwrapper : Stack t.mem (s.reg .esp - 4) [s.reg .ebx, ra, a₁, a₂, a₃] := by
    refine hstack₁.congr ?_
    rw [hmem]
    exact Distant.pushes (by rw [hbelow]; exact hplaced.userKernel) (show 4 * 9 < 2 ^ 32 by decide)
  obtain ⟨hret, h₁, h₂, h₃, hrest⟩ := hframe
  have hsixteen : t.reg .esp + 4 + 4 + 4 + 4 = t.reg .esp + 16 := by grind
  rw [hseg₁, hflags₁, hsp₁, hsixteen] at hrest
  refine ⟨t, hflows₁.trans hflows, ⟨h₁.trans hbx₁, h₂.trans hcx₁, h₃.trans hdx₁, trivial⟩,
    ⟨⟨hret, trivial⟩, hrest, hwrapper.1, hwrapper.2.1, trivial⟩, fun b hb hb' => ?_,
    hkeeps₁.trans (hkeeps.mono (by decide)), hcs, fun r hcs hss => ?_⟩
  · have hmemb : t.mem b = s₁.mem b := by
      rw [hmem]
      exact pushes_apply (show 4 * 9 < 2 ^ 32 by decide) (by rw [hbelow]; exact hb')
    rw [hmemb, hmem₁, poke_apply, if_neg (by omega)]
  · rw [hseg r hcs hss, hseg₁]

/-- **The way back**, from any `ret` of the kernel that finds the call on its stack. -/
theorem call_leaves (L : Linked E code entry table addr native) {k : ℕ}
    (hstub : CodeAt code u (doCall k)) (huser : s.cpl = 3) {t : Cpu (Word → Byte)}
    (hpending : Pending s u entry ra (t.reg .esp) t.mem) (hcs : t.seg .cs = 0x10) {a : Word}
    (hcode : code a = some .ret) : ∃ v,
    Flows E code (a, t) (ra, v) ∧ v.mem = t.mem ∧ v.reg .esp = s.reg .esp + 4 ∧
      v.reg .ebx = s.reg .ebx ∧ t.Keeps [.ebx, .esp] v ∧ v.flags = s.flags ∧
      v.seg .cs = s.seg .cs ∧ v.seg .ss = s.seg .ss ∧
      (∀ r, r ≠ .cs → r ≠ .ss → v.seg r = t.seg r) := by
  obtain ⟨-, -, -, -, -, -, hpop, hret, -⟩ := hstub
  have hsix : u + 1 + 1 + 1 + 1 + 1 + 1 = u + 6 := by grind
  rw [hsix] at hpop hret
  have hcpl : t.cpl < (((s.seg .cs).setWidth 32).setWidth 16).toNat % 4 := by
    rw [Cpu.cpl, hcs, setWidth_seg]
    change 0 < s.cpl
    rw [huser]
    decide
  obtain ⟨w, hflowsw, hmemw, hspw, hkeepsw, hcsw, hssw, hsegw, hflagsw⟩ :=
    syscall_returns L hcode hpending.ret hpending.frame hcpl
  obtain ⟨hebx, hra, -⟩ : Stack w.mem (w.reg .esp) [s.reg .ebx, ra] := by
    rw [hspw, hmemw]
    exact hpending.wrapper
  obtain ⟨v, hflows, hmem, hsp, hbx, hkeeps, hflags, hseg⟩ : ∃ v,
      Flows E code (u + 6, w) (ra, v) ∧ v.mem = w.mem ∧ v.reg .esp = w.reg .esp + 4 + 4 ∧
        v.reg .ebx = s.reg .ebx ∧ w.Keeps [.ebx, .esp] v ∧ v.flags = w.flags ∧ v.seg = w.seg := by
    have hgo : Op.exec E (u + 6 + 1) (w.pop .ebx) .ret =
        some (ra, (w.pop .ebx).set .esp (w.reg .esp + 4 + 4)) := by
      rw [← hra]
      rfl
    exact ⟨_, .op hpop rfl <| .op hret hgo .refl, rfl, rfl, hebx,
      ((Cpu.keeps_set (by decide)).trans (Cpu.keeps_set (by decide))).trans
        (Cpu.keeps_set (by decide)), rfl, rfl⟩
  refine ⟨v, hflowsw.trans hflows, hmem.trans hmemw, ?_, hbx,
    (hkeepsw.mono (by decide)).trans hkeeps, ?_, ?_, ?_, fun r hcs hss => ?_⟩
  · rw [hsp, hspw]
    grind
  · rw [hflags, hflagsw, Flags.ofWord_toWord]
  · rw [hseg, hcsw, setWidth_seg]
  · rw [hseg, hssw, setWidth_seg]
  · rw [hseg, hsegw r hcs hss]

theorem notMem_saved {r : Reg} : r ∉ [Reg.eax, .ecx, .edx, .esp] → r ≠ .ebx →
    r ∉ [Reg.eax, .ebx, .ecx, .edx, .esp] := by
  cases r <;> decide

/-- **System calls.**  A program that calls a wrapper with three arguments gets, if no interrupt
comes, to the function of the kernel with that name, which finds the arguments on its stack and the
memory of the program as it was.  When the function returns and has kept to the calling convention
and left the two words of the wrapper on the program's stack, the program goes on behind its call
with the result, its registers, its flags and its segments. -/
theorem call_returns (L : Linked E code entry table addr native) (c : Syscall)
    (hstub : CodeAt code u (doCall c.number)) (huser : s.cpl = 3)
    (hstack : Stack s.mem (s.reg .esp) [ra, a₁, a₂, a₃]) (htable : TableAt s.mem table addr)
    {top : Word} {ss : BitVec 16}
    (htop : E.stack0 (poke s.mem (s.reg .esp - 4) (s.reg .ebx)) = (top, ss))
    (hplaced : Placed (s.reg .esp) top table) : ∃ t,
    Flows E code (u, s) (addr c.service, t) ∧ Stack t.mem (t.reg .esp + 4) [a₁, a₂, a₃] ∧
      (∀ b, 4 ≤ (b - (s.reg .esp - 4)).toNat → 36 ≤ (b - (top - 36)).toNat → t.mem b = s.mem b) ∧
      (Cdecl t (E.native (native c.service) t) →
        SameBytes t.mem (E.native (native c.service) t).mem (s.reg .esp - 4) 8 →
        ∃ v, Flows E code (u, s) (ra, v) ∧ v.mem = (E.native (native c.service) t).mem ∧
          v.reg .eax = (E.native (native c.service) t).reg .eax ∧
          v.reg .esp = s.reg .esp + 4 ∧ s.Keeps [.eax, .ecx, .edx, .esp] v ∧ v.flags = s.flags ∧
          v.seg = s.seg) := by
  obtain ⟨t, hflows, hargs, hpending, hmem, hkeeps, hcs, hseg⟩ :=
    call_enters L c hstub huser hstack htable htop hplaced
  refine ⟨t, hflows, hargs, hmem, fun hcdecl hwrapper => ?_⟩
  obtain ⟨t', ht'⟩ : ∃ t', E.native (native c.service) t = t' := ⟨_, rfl⟩
  rw [ht'] at hcdecl hwrapper ⊢
  obtain ⟨hnative, hret, -⟩ := L.service c.service
  have hgo : Op.exec E (addr c.service) t (.native (native c.service)) =
      some (addr c.service + 1, t') := by
    rw [Op.exec, ht']
  obtain ⟨v, hflowsv, hmemv, hspv, hbxv, hkeepsv, hflagsv, hcsv, hssv, hsegv⟩ :=
    call_leaves L hstub huser (hpending.cdecl hcdecl hwrapper) (by rw [hcdecl.seg, hcs]) hret
  refine ⟨v, hflows.trans (Flows.op hnative hgo hflowsv), hmemv, hkeepsv .eax (by decide), hspv,
    fun r hr => ?_, hflagsv, ?_⟩
  · have hall : s.Keeps [.eax, .ebx, .ecx, .edx, .esp] v :=
      hkeeps.trans ((hcdecl.reg.mono (by decide)).trans (hkeepsv.mono (by decide)))
    by_cases hbx : r = .ebx
    · rw [hbx, hbxv]
    · exact hall r (notMem_saved hr hbx)
  · funext r
    by_cases hrcs : r = .cs
    · rw [hrcs, hcsv]
    · by_cases hrss : r = .ss
      · rw [hrss, hssv]
      · rw [hsegv r hrcs hrss, hcdecl.seg, hseg r hrcs hrss]

/-! A wrapper at `0x100`, the dispatcher at `0x200`, the functions from `0x300` on, and the table at
`0x400`. -/

/-- Each function is two instructions long. -/
def sampleAddr (f : Service) : Word := 0x300 + 2 * BitVec.ofNat 32 (syscallTable.idxOf f)

/-- The wrapper of `read`, the dispatcher, and the functions. -/
def sampleCode (pc : Word) : Option Op :=
  let n := pc.toNat
  if 0x100 ≤ n ∧ n < 0x200 then (doCall Syscall.read.number)[n - 0x100]?
  else if 0x200 ≤ n ∧ n < 0x300 then (syscallEntry 0x200 0x400)[n - 0x200]?
  else if 0x300 ≤ n ∧ n < 0x400 then some (if n % 2 = 0 then .native 0 else .ret)
  else none

/-- Every function returns 42. -/
def sampleEnv : Env where
  gate v := if v = 0x80 then some ⟨0x200, 0x10, 3, true⟩ else none
  stack0 _ := (0x9000, 0x18)
  native _ s := s.set .eax 42

/-- The table, and the arguments 1, 2 and 3 of a call from `0x70`. -/
def sampleMem (a : Word) : Byte :=
  let n := a.toNat
  if 0x400 ≤ n ∧ n < 0x444 then
    if n % 4 = 0 then BitVec.ofNat 8 ((n - 0x400) / 2) else if n % 4 = 1 then 3 else 0
  else if n = 0x8000 then 0x70
  else if n = 0x8004 then 1
  else if n = 0x8008 then 2
  else if n = 0x800C then 3
  else 0

/-- A program at the call of the wrapper, in user mode. -/
def sampleCpu : Cpu (Word → Byte) :=
  (((Cpu.clear sampleMem).set .esp 0x8000).setSeg .cs 0x23).setSeg .ss 0x2B

theorem sample_linked : Linked sampleEnv sampleCode 0x200 0x400 sampleAddr fun _ => 0 where
  gate := rfl
  entry := ⟨rfl, rfl, rfl, rfl, rfl, rfl, rfl, rfl, rfl, rfl, rfl, rfl, rfl, trivial⟩
  service f := by cases f <;> exact ⟨rfl, rfl, trivial⟩

theorem sample_tableAt : TableAt sampleMem 0x400 sampleAddr := by
  unfold TableAt
  decide

theorem sample_stack : Stack sampleMem 0x8000 [0x70, 1, 2, 3] :=
  ⟨by decide, by decide, by decide, by decide, trivial⟩

theorem sample_placed : Placed 0x8000 0x9000 0x400 where
  userKernel := .of_le (by decide) (by decide)
  tableKernel := .of_le (by decide) (by decide)
  tableUser := .of_le (by decide) (by decide)

/-- A call of `read`. -/
theorem call_returns_read : ∃ v, Flows sampleEnv sampleCode (0x100, sampleCpu) (0x70, v) ∧
    v.reg .eax = 42 ∧ v.reg .esp = 0x8004 := by
  have hstub : CodeAt sampleCode 0x100 (doCall Syscall.read.number) :=
    ⟨rfl, rfl, rfl, rfl, rfl, rfl, rfl, rfl, trivial⟩
  have hstack : Stack sampleCpu.mem (sampleCpu.reg .esp) [0x70, 1, 2, 3] := sample_stack
  obtain ⟨t, -, -, -, hback⟩ := call_returns sample_linked .read hstub (by decide) hstack
    sample_tableAt rfl sample_placed
  obtain ⟨v, hflows, -, hax, hsp, -⟩ := hback
    ⟨Cpu.keeps_set (by decide), rfl, fun _ _ => rfl, fun _ _ => rfl⟩ fun _ _ => rfl
  exact ⟨v, hflows, hax, hsp⟩

/-- The checks of a number that stands for no call. -/
theorem syscall_refuses (L : Linked E code entry table addr native)
    (hbad : (s.reg .eax).toInt ≤ 0 ∨ 17 < (s.reg .eax).toInt) : ∃ t,
    Flows E code (entry, s) (entry + 12, t) ∧ t.mem = s.mem ∧ t.reg .eax = -1 ∧
      s.Keeps [.eax] t ∧ t.seg = s.seg := by
  obtain ⟨h₀, h₁, h₂, h₃, -, -, -, -, -, -, -, h₁₁, -⟩ := L.entry
  have heleven : entry + 1 + 1 + 1 + 1 + 1 + 1 + 1 + 1 + 1 + 1 + 1 = entry + 11 := by grind
  have htwelve : entry + 11 + 1 = entry + 12 := by grind
  rw [heleven] at h₁₁
  have hzero : (0 : Word).toInt = 0 := rfl
  have hmax : (17 : Word).toInt = 17 := rfl
  rw [← htwelve]
  by_cases hpos : (s.reg .eax).toInt ≤ 0
  · have hle : (s.flags.sub (s.reg .eax) 0).holds .le = true := by
      rwa [Flags.holds_le_sub, hzero]
    exact ⟨_, .op h₀ rfl <| .taken h₁ hle <| .op h₁₁ rfl .refl, rfl, rfl,
      Cpu.keeps_set (by decide), rfl⟩
  · have hle : ¬ (s.flags.sub (s.reg .eax) 0).holds .le = true := by
      rwa [Flags.holds_le_sub, hzero]
    have hgt : ((s.flags.sub (s.reg .eax) 0).sub (s.reg .eax) 17).holds .g = true := by
      rw [Flags.holds_g_sub, hmax]
      exact hbad.resolve_left hpos
    exact ⟨_, .op h₀ rfl <| .falls h₁ hle <| .op h₂ rfl <| .taken h₃ hgt <| .op h₁₁ rfl .refl,
      rfl, rfl, Cpu.keeps_set (by decide), rfl⟩

/-- **Refused calls.**  A program that makes a system call with a number outside the table gets,
if no interrupt comes, straight back with a `-1`, and nothing else of it changes. -/
theorem call_refused (L : Linked E code entry table addr native) (hint : code u = some (.int 0x80))
    (huser : s.cpl = 3) (hbad : (s.reg .eax).toInt ≤ 0 ∨ 17 < (s.reg .eax).toInt) : ∃ t,
    Flows E code (u, s) (u + 1, t) ∧ t.reg .eax = -1 ∧ s.Keeps [.eax] t ∧ t.flags = s.flags ∧
      t.seg = s.seg ∧
      ∀ b, 20 ≤ (b - ((E.stack0 s.mem).1 - 20)).toNat → t.mem b = s.mem b := by
  have hkernel : (0x10 : BitVec 16).toNat % 4 < s.cpl := by rw [huser]; decide
  obtain ⟨s₁, hint', hmem₁, hsp₁, hkeeps₁, hcs₁, hseg₁⟩ := int_enters (u := u) L huser
  obtain ⟨s₂, hflows₂, hmem₂, hax₂, hkeeps₂, hseg₂⟩ := syscall_refuses (s := s₁) L
    (by rwa [hkeeps₁ .eax (by decide)])
  have hframe : Stack s₂.mem (s₂.reg .esp) [u + 1, (s.seg .cs).setWidth 32, s.flags.toWord,
      s.reg .esp, (s.seg .ss).setWidth 32] := by
    have hnil : Stack s.mem (E.stack0 s.mem).1 [] := trivial
    rw [hmem₂, hkeeps₂ .esp (by decide), hmem₁, hsp₁]
    exact hnil.pushes (show 4 * (5 + 0) ≤ 2 ^ 32 by decide)
  have hcpl₂ : s₂.cpl < (((s.seg .cs).setWidth 32).setWidth 16).toNat % 4 := by
    rw [Cpu.cpl, hseg₂, hcs₁, setWidth_seg]
    exact hkernel
  obtain ⟨t, hiret, hmem, hsp, hkeeps, hcs, hss, hseg, hflags⟩ := Cpu.iret_outer hframe hcpl₂
  obtain ⟨-, -, -, -, -, -, -, -, -, -, -, -, h₁₂, -⟩ := L.entry
  have htwelve : entry + 1 + 1 + 1 + 1 + 1 + 1 + 1 + 1 + 1 + 1 + 1 + 1 = entry + 12 := by grind
  rw [htwelve] at h₁₂
  have hback : Flows E code (entry + 12, s₂) (u + 1, t) :=
    .op h₁₂ (by rw [Op.exec, hiret]) .refl
  refine ⟨t, .op hint hint' (hflows₂.trans hback), ?_, fun r hr => ?_, ?_, ?_, fun b hb => ?_⟩
  · rw [hkeeps .eax (by decide), hax₂]
  · by_cases hresp : r = .esp
    · rw [hresp, hsp]
    · have hne : r ∉ [Reg.esp] := fun h => hresp (List.mem_singleton.1 h)
      rw [hkeeps r hne, hkeeps₂ r hr, hkeeps₁ r hne]
  · rw [hflags, Flags.ofWord_toWord]
  · funext r
    by_cases hrcs : r = .cs
    · rw [hrcs, hcs, setWidth_seg]
    · by_cases hrss : r = .ss
      · rw [hrss, hss, setWidth_seg]
      · rw [hseg r hrcs hrss, hseg₂, hseg₁ r hrcs hrss]
  · rw [hmem, hmem₂, hmem₁]
    exact pushes_apply (show 4 * 5 < 2 ^ 32 by decide) (by rw [pushes_sp]; exact hb)

/-- Nothing is called by number 18. -/
theorem call_refused_eighteen : ∃ t, Flows sampleEnv sampleCode (0x105, sampleCpu.set .eax 18)
    (0x106, t) ∧ t.reg .eax = -1 ∧ t.reg .esp = 0x8000 := by
  obtain ⟨t, hflows, hax, hkeeps, -⟩ := call_refused (s := sampleCpu.set .eax 18) sample_linked
    (show sampleCode 0x105 = some (.int 0x80) from rfl) (by decide) (.inr (by decide))
  exact ⟨t, hflows, hax, (hkeeps .esp (by decide)).trans rfl⟩

end Entry

end KTeamOS
