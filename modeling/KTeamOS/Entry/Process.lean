import KTeamOS.Entry.Syscall

/-!
# From program to program

`execute` ends with a jump into the new program, and `halt` with a jump back into the `execute` of
the parent, whose frame it has kept in the control block.

## Main definitions

* `executeTail`, `haltTail`, `haltReturn` : the assembly at the end of the two functions.
* `Executing` : what the memory holds for a parent that waits.

## Main results

* `Entry.execute_starts` : the new program runs in user mode, with the interrupts on.
* `Entry.halt_resumes` : the parent goes on behind its call of `execute`.
-/

namespace KTeamOS

open X86

/-- The end of `execute`, with the entry point and the top of the new stack in two registers. -/
def executeTail (entryPoint stackPtr : Reg) : List Op :=
  [ .pushl (.imm 0x2B),
    .pushl (.reg stackPtr),
    .pushfl,
    .popl .ebx,
    .orl 0x200 .ebx,
    .pushl (.reg .ebx),
    .pushl (.imm 0x23),
    .pushl (.reg entryPoint),
    .iret ]

/-- The end of `halt`, with the two saved pointers and the status in three registers. -/
def haltTail (savedStack savedBase status : Reg) (haltReturn : Word) : List Op :=
  [ .plain (.movl (.reg savedStack) .esp),
    .plain (.movl (.reg savedBase) .ebp),
    .movb status .eax,
    .plain (.jmp haltReturn) ]

/-- `halt_return` -/
def haltReturn : List Op := [.leave, .ret]

namespace Entry

variable {E : Env} {code : Word → Option Op} {s t : Cpu (Word → Byte)} {a u entry table ra : Word}
  {addr : Service → Word} {native : Service → ℕ}

/-- The stack of the program, and the flags with the interrupts on in `%ebx`. -/
theorem execute_flags {r₀ r₁ : Reg} (hcode : CodeAt code a (executeTail r₀ r₁))
    (h₁ : r₁ ∉ [Reg.ebx, .esp]) : ∃ t,
    Flows E code (a, s) (a + 1 + 1 + 1 + 1 + 1, t) ∧ t.reg .esp = s.reg .esp - 8 ∧
      Stack t.mem (t.reg .esp) [s.reg r₁, 0x2B] ∧ t.reg .ebx = s.flags.toWord ||| 0x200 ∧
      s.Keeps [.ebx, .esp] t ∧ t.seg = s.seg ∧
      ∀ b, 12 ≤ (b - (s.reg .esp - 12)).toNat → t.mem b = s.mem b := by
  obtain ⟨c₀, c₁, c₂, c₃, c₄, -⟩ := hcode
  have hval : (s.push [0x2B]).reg r₁ = s.reg r₁ :=
    Cpu.keeps_push _ fun hmem => h₁ (List.mem_cons_of_mem _ hmem)
  obtain ⟨s₃, hflows₃, hpush₃, hkeeps₃, hseg₃⟩ : ∃ t,
      Flows E code (a, s) (a + 1 + 1 + 1, t) ∧
        (t.mem, t.reg .esp) = pushes s.mem (s.reg .esp) [0x2B, s.reg r₁, s.flags.toWord] ∧
        s.Keeps [.esp] t ∧ t.seg = s.seg := by
    refine ⟨_, .op c₀ rfl <| .op c₁ rfl <| .op c₂ rfl .refl, ?_, ?_, rfl⟩
    · rw [← hval]
      rfl
    · exact (Cpu.keeps_push.trans Cpu.keeps_push).trans Cpu.keeps_push
  obtain ⟨hmem₃, hesp₃⟩ := Prod.ext_iff.1 hpush₃
  dsimp only at hmem₃ hesp₃
  have hstack₃ : Stack s₃.mem (s₃.reg .esp) [s.flags.toWord, s.reg r₁, 0x2B] := by
    have hnil : Stack s.mem (s.reg .esp) [] := trivial
    rw [hmem₃, hesp₃]
    exact hnil.pushes (show 4 * (3 + 0) ≤ 2 ^ 32 by decide)
  obtain ⟨t, hflows, hmem, hesp, hbx, hkeeps, hseg⟩ : ∃ t,
      Flows E code (a + 1 + 1 + 1, s₃) (a + 1 + 1 + 1 + 1 + 1, t) ∧ t.mem = s₃.mem ∧
        t.reg .esp = s₃.reg .esp + 4 ∧ t.reg .ebx = peek s₃.mem (s₃.reg .esp) ||| 0x200 ∧
        s₃.Keeps [.ebx, .esp] t ∧ t.seg = s₃.seg :=
    ⟨_, .op c₃ rfl <| .op c₄ rfl .refl, rfl, rfl, rfl, ((Cpu.keeps_set (by decide)).trans
      (Cpu.keeps_set (by decide))).trans (Cpu.keeps_set (by decide)), rfl⟩
  refine ⟨t, hflows₃.trans hflows, ?_, ?_, by rw [hbx, hstack₃.1],
    (hkeeps₃.mono (by decide)).trans hkeeps, hseg.trans hseg₃, fun b hb => ?_⟩
  · rw [hesp, hesp₃, pushes_sp]
    change s.reg .esp - 12 + 4 = _
    grind
  · rw [hmem, hesp]
    exact hstack₃.2
  · rw [hmem, hmem₃]
    exact pushes_apply (show 4 * 3 < 2 ^ 32 by decide) (by rw [pushes_sp]; exact hb)

/-- `execute` builds the frame of an interrupt that never was. -/
theorem execute_pushes {r₀ r₁ : Reg} (hcode : CodeAt code a (executeTail r₀ r₁))
    (h₀ : r₀ ∉ [Reg.ebx, .esp]) (h₁ : r₁ ∉ [Reg.ebx, .esp]) : ∃ t,
    Flows E code (a, s) (a + 1 + 1 + 1 + 1 + 1 + 1 + 1 + 1, t) ∧
      Stack t.mem (t.reg .esp) [s.reg r₀, 0x23, s.flags.toWord ||| 0x200, s.reg r₁, 0x2B] ∧
      s.Keeps [.ebx, .esp] t ∧ t.seg = s.seg ∧
      ∀ b, 20 ≤ (b - (s.reg .esp - 20)).toNat → t.mem b = s.mem b := by
  obtain ⟨s₅, hflows₅, hesp₅, hstack₅, hbx₅, hkeeps₅, hseg₅, hmem₅⟩ :=
    execute_flags (E := E) (s := s) hcode h₁
  obtain ⟨-, -, -, -, -, c₅, c₆, c₇, -⟩ := hcode
  obtain ⟨t, hflows, hpush, hkeeps, hseg⟩ : ∃ t,
      Flows E code (a + 1 + 1 + 1 + 1 + 1, s₅) (a + 1 + 1 + 1 + 1 + 1 + 1 + 1 + 1, t) ∧
        (t.mem, t.reg .esp) = pushes s₅.mem (s₅.reg .esp) [s₅.reg .ebx, 0x23, s₅.reg r₀] ∧
        s₅.Keeps [.esp] t ∧ t.seg = s₅.seg := by
    refine ⟨_, .op c₅ rfl <| .op c₆ rfl <| .op c₇ rfl .refl, ?_, ?_, rfl⟩
    · have hval : ((s₅.push [s₅.reg .ebx]).push [0x23]).reg r₀ = s₅.reg r₀ :=
        (Cpu.keeps_push.trans Cpu.keeps_push) _ fun hmem => h₀ (List.mem_cons_of_mem _ hmem)
      rw [← hval]
      rfl
    · exact (Cpu.keeps_push.trans Cpu.keeps_push).trans Cpu.keeps_push
  obtain ⟨hmem, hesp⟩ := Prod.ext_iff.1 hpush
  dsimp only at hmem hesp
  refine ⟨t, hflows₅.trans hflows, ?_, hkeeps₅.trans (hkeeps.mono (by decide)), hseg.trans hseg₅,
    fun b hb => ?_⟩
  · rw [hmem, hesp, hbx₅, hkeeps₅ r₀ h₀]
    exact hstack₅.pushes (show 4 * (3 + 2) ≤ 2 ^ 32 by decide)
  · have hb₅ : 12 ≤ (b - (s.reg .esp - 12)).toNat := by
      have hdist : b - (s.reg .esp - 12) = b - (s.reg .esp - 20) - 8 := by grind
      rw [hdist, BitVec.toNat_sub_of_le (BitVec.le_def.2 (show 8 ≤ _ by omega))]
      exact Nat.le_sub_of_add_le hb
    have htwenty : s.reg .esp - 8 - 12 = s.reg .esp - 20 := by grind
    rw [hmem, ← hmem₅ b hb₅]
    refine pushes_apply (show 4 * 3 < 2 ^ 32 by decide) ?_
    rw [pushes_sp, hesp₅]
    change 12 ≤ (b - (s.reg .esp - 8 - 12)).toNat
    rw [htwenty]
    omega

/-- **The start of a program.**  From the end of `execute` the processor gets to the entry point,
in user mode, with the interrupts on and the stack pointer at the top of the program's stack. -/
theorem execute_starts {r₀ r₁ : Reg} (hcode : CodeAt code a (executeTail r₀ r₁))
    (hcs : s.seg .cs = 0x10) (h₀ : r₀ ∉ [Reg.ebx, .esp]) (h₁ : r₁ ∉ [Reg.ebx, .esp]) : ∃ v,
    Flows E code (a, s) (s.reg r₀, v) ∧ v.cpl = 3 ∧ v.reg .esp = s.reg r₁ ∧
      v.flags = { s.flags with ie := true } ∧ v.seg .cs = 0x23 ∧ v.seg .ss = 0x2B ∧
      (∀ r, r ≠ .cs → r ≠ .ss → v.seg r = s.seg r) ∧ s.Keeps [.ebx, .esp] v ∧
      (∀ b, 20 ≤ (b - (s.reg .esp - 20)).toNat → v.mem b = s.mem b) := by
  obtain ⟨t, hflows, hstack, hkeeps, hseg, hmem⟩ := execute_pushes (E := E) (s := s) hcode h₀ h₁
  obtain ⟨-, -, -, -, -, -, -, -, hlast, -⟩ := hcode
  have hcpl : t.cpl < ((0x23 : Word).setWidth 16).toNat % 4 := by
    rw [Cpu.cpl, hseg, hcs]
    decide
  obtain ⟨v, hiret, hmemv, hespv, hkeepsv, hcsv, hssv, hsegv, hflagsv⟩ :=
    Cpu.iret_outer hstack hcpl
  have hcs' : v.seg .cs = 0x23 := hcsv
  refine ⟨v, hflows.trans (Flows.op hlast (congrArg some hiret) .refl), ?_, hespv,
    by rw [hflagsv, Flags.ofWord_or], hcs', hssv, fun r hrcs hrss => ?_,
    hkeeps.trans (hkeepsv.mono (by decide)), fun b hb => by rw [hmemv, hmem b hb]⟩
  · rw [Cpu.cpl, hcs']
    rfl
  · rw [hsegv r hrcs hrss, hseg]

/-- What the memory holds for a parent that called `execute` in the state `s`: the pending call, and
in front of the address behind the call, where `save_base_ptr` points, the frame pointer of the
parent. -/
structure Executing (s : Cpu (Word → Byte)) (u entry ra base : Word) (m : Word → Byte) : Prop where
  pending : Pending s u entry ra (base + 4) m
  base : peek m base = s.reg .ebp

/-- **The end of a program.**  From the end of `halt` the processor gets back behind the parent's
call of `execute`.  The low byte of the result is the status, the other three are what `halt` left
in `%eax`; the stack pointer, `%ebp`, `%ebx`, the flags and the level are those of the parent, but
`%esi` and `%edi` are what `halt` left in them. -/
theorem halt_resumes {savedStack savedBase status : Reg} {r : Word}
    (L : Linked E code entry table addr native)
    (hstub : CodeAt code u (doCall Syscall.execute.number)) (huser : s.cpl = 3)
    (htail : CodeAt code a (haltTail savedStack savedBase status r))
    (hreturn : CodeAt code r haltReturn) (hbase : savedBase ≠ .esp)
    (hstatus : status ∉ [Reg.esp, .ebp]) (hcs : t.seg .cs = 0x10)
    (h : Executing s u entry ra (t.reg savedBase) t.mem) : ∃ v,
      Flows E code (a, t) (ra, v) ∧ v.mem = t.mem ∧
        v.reg .eax = (t.reg .eax).extractLsb' 8 24 ++ t.low status ∧
        v.reg .esp = s.reg .esp + 4 ∧ v.reg .ebp = s.reg .ebp ∧ v.reg .ebx = s.reg .ebx ∧
        t.Keeps [.eax, .ebx, .esp, .ebp] v ∧ v.flags = s.flags ∧ v.seg .cs = s.seg .cs ∧
        v.seg .ss = s.seg .ss ∧ ∀ r, r ≠ .cs → r ≠ .ss → v.seg r = t.seg r := by
  obtain ⟨c₀, c₁, c₂, c₃, -⟩ := htail
  obtain ⟨hleave, hret, -⟩ := hreturn
  obtain ⟨t₂, hflows₂, hbp₂, hmem₂, hkeeps₂, hseg₂⟩ : ∃ w,
      Flows E code (a, t) (a + 1 + 1, w) ∧ w.reg .ebp = t.reg savedBase ∧ w.mem = t.mem ∧
        t.Keeps [.esp, .ebp] w ∧ w.seg = t.seg := by
    have hval : (t.set .esp (t.reg savedStack)).reg savedBase = t.reg savedBase :=
      Function.update_of_ne hbase ..
    exact ⟨_, .op c₀ rfl <| .op c₁ rfl .refl, hval, rfl,
      (Cpu.keeps_set (by decide)).trans (Cpu.keeps_set (by decide)), rfl⟩
  obtain ⟨w, hflows, hax, hesp, hebp, hmem, hkeeps, hseg⟩ : ∃ w,
      Flows E code (a + 1 + 1, t₂) (r + 1, w) ∧
        w.reg .eax = (t₂.reg .eax).extractLsb' 8 24 ++ t₂.low status ∧
        w.reg .esp = t₂.reg .ebp + 4 ∧ w.reg .ebp = peek t₂.mem (t₂.reg .ebp) ∧ w.mem = t₂.mem ∧
        t₂.Keeps [.eax, .esp, .ebp] w ∧ w.seg = t₂.seg :=
    ⟨_, .op c₂ rfl <| .op c₃ rfl <| .op hleave rfl .refl, rfl, rfl, rfl, rfl,
      (((Cpu.keeps_set (by decide)).trans (Cpu.keeps_set (by decide))).trans
        (Cpu.keeps_set (by decide))).trans (Cpu.keeps_set (by decide)), rfl⟩
  have hpending : Pending s u entry ra (w.reg .esp) w.mem := by
    rw [hesp, hmem, hbp₂, hmem₂]
    exact h.pending
  obtain ⟨v, hflowsv, hmemv, hespv, hbxv, hkeepsv, hflagsv, hcsv, hssv, hsegv⟩ :=
    call_leaves L hstub huser hpending (by rw [hseg, hseg₂, hcs]) hret
  refine ⟨v, hflows₂.trans (hflows.trans hflowsv), by rw [hmemv, hmem, hmem₂], ?_, hespv, ?_,
    hbxv, ((hkeeps₂.mono (by decide)).trans (hkeeps.mono (by decide))).trans
      (hkeepsv.mono (by decide)), hflagsv, hcsv, hssv, fun r hrcs hrss => ?_⟩
  · rw [hkeepsv .eax (by decide), hax, hkeeps₂ .eax (by decide), Cpu.low, Cpu.low,
      hkeeps₂ status hstatus]
  · rw [hkeepsv .ebp (by decide), hebp, hbp₂, hmem₂, h.base]
  · rw [hsegv r hrcs hrss, hseg, hseg₂]

/-! A shell that has called `execute` from `0x70`, with `halt` at `0x500`. -/

/-- The wrapper of `execute` and the end of `halt`, beside the dispatcher. -/
def haltCode (pc : Word) : Option Op :=
  let n := pc.toNat
  if 0x100 ≤ n ∧ n < 0x200 then (doCall Syscall.execute.number)[n - 0x100]?
  else if 0x500 ≤ n ∧ n < 0x510 then (haltTail .ecx .edx .ebx 0x510)[n - 0x500]?
  else if 0x510 ≤ n then haltReturn[n - 0x510]?
  else sampleCode pc

/-- The shell, when it calls the wrapper. -/
def parentCpu : Cpu (Word → Byte) := (sampleCpu.set .ebp 0x8100).set .ebx 7

/-- On the stack of the parent its `%ebx`; on that of the kernel the frame, the arguments 1, 2 and
3, the address behind the call, and `%ebp`. -/
def childMem : Word → Byte :=
  (pushes (poke sampleMem 0x7FFC 7) 0x9000
    [0x2B, 0x7FFC, parentCpu.flags.toWord, 0x23, 0x106, 3, 2, 1, 0x209, 0x8100]).1

/-- The child halts with the status 5. -/
def childCpu : Cpu (Word → Byte) :=
  ((((Cpu.clear childMem).set .eax 0x300).set .ebx 5).set .edx 0x8FD8).setSeg .cs 0x10

theorem halt_linked : Linked sampleEnv haltCode 0x200 0x400 sampleAddr fun _ => 0 where
  gate := rfl
  entry := ⟨rfl, rfl, rfl, rfl, rfl, rfl, rfl, rfl, rfl, rfl, rfl, rfl, rfl, trivial⟩
  service f := by cases f <;> exact ⟨rfl, rfl, trivial⟩

theorem halt_executing : Executing parentCpu 0x100 0x200 0x70 0x8FD8 childMem where
  pending :=
    { ret := ⟨by decide, trivial⟩
      frame := ⟨by decide, by decide, by decide, by decide, by decide, trivial⟩
      wrapper := ⟨by decide, by decide, trivial⟩ }
  base := by decide

/-- The shell sees the status in the low byte. -/
theorem halt_resumes_shell : ∃ v, Flows sampleEnv haltCode (0x500, childCpu) (0x70, v) ∧
    v.reg .eax = 0x305 ∧ v.reg .esp = 0x8004 ∧ v.reg .ebp = 0x8100 ∧ v.reg .ebx = 7 := by
  have hstub : CodeAt haltCode 0x100 (doCall Syscall.execute.number) :=
    ⟨rfl, rfl, rfl, rfl, rfl, rfl, rfl, rfl, trivial⟩
  have htail : CodeAt haltCode 0x500 (haltTail .ecx .edx .ebx 0x510) :=
    ⟨rfl, rfl, rfl, rfl, trivial⟩
  have hreturn : CodeAt haltCode 0x510 haltReturn := ⟨rfl, rfl, trivial⟩
  obtain ⟨v, hflows, -, hax, hesp, hebp, hebx, -⟩ := halt_resumes (s := parentCpu) (t := childCpu)
    halt_linked hstub (by decide) htail hreturn (by decide) (by decide) rfl halt_executing
  exact ⟨v, hflows, hax, hesp, hebp, hebx⟩

end Entry

end KTeamOS
