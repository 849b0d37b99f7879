import KTeamOS.X86.Strings

/-!
# Stacks, calls and interrupts

The rest of the processor: the stack, calls, software and hardware interrupts with the change of the
privilege level and of the stack, and the return from them.  A C function that the code calls is one
step, given by the environment.

## Main definitions

* `Env`, `Op`, `sys` : the tables of the processor, the instructions, and the machine.
* `Stack m sp vs` : the words on a stack, the last one pushed first.

## Main results

* `Stack.push`, `Stack.pop`, `Stack.frame` : the rules of a stack.
* `Flags.ofWord_toWord` : flags that are pushed and popped.
-/

namespace KTeamOS

namespace X86

/-- An entry of the interrupt table. -/
structure Gate where
  offset : Word
  selector : BitVec 16
  dpl : ℕ
  /-- A trap gate leaves the interrupts on. -/
  trap : Bool

/-- What the processor finds outside of the code. -/
structure Env where
  gate : ℕ → Option Gate
  /-- `esp0` and `ss0` of the task state. -/
  stack0 : (Word → Byte) → Word × BitVec 16
  /-- What a C function does from its first instruction to its `ret`. -/
  native : ℕ → Cpu (Word → Byte) → Cpu (Word → Byte)

/-- The instructions with those that change the flow of control. -/
inductive Op
  | plain (i : Instr)
  | pushl (src : Src)
  | popl (dst : Reg)
  /-- `movl disp(%base), %dst` -/
  | load (disp : Word) (base dst : Reg)
  | decl (dst : Reg)
  /-- The low bytes of registers. -/
  | movb (src dst : Reg)
  | orl (w : Word) (dst : Reg)
  | pushfl
  | call (l : Word)
  /-- `call *table(, %index, 4)` -/
  | callTable (table : Word) (index : Reg)
  | ret
  | leave
  | int (v : ℕ)
  | iret
  | pushal
  | popal
  | native (n : ℕ)

namespace Flags

/-- `eflags`; bit 1 is always set. -/
def toWord (f : Flags) : Word :=
  BitVec.ofNat 32 (f.cf.toNat + 2 + f.zf.toNat * 2 ^ 6 + f.sf.toNat * 2 ^ 7 + f.ie.toNat * 2 ^ 9 +
    f.df.toNat * 2 ^ 10 + f.of.toNat * 2 ^ 11)

/-- The flags in a word. -/
def ofWord (w : Word) : Flags where
  cf := w.getLsbD 0
  zf := w.getLsbD 6
  sf := w.getLsbD 7
  of := w.getLsbD 11
  df := w.getLsbD 10
  ie := w.getLsbD 9

theorem ofWord_toWord (f : Flags) : ofWord f.toWord = f := by
  obtain ⟨cf, zf, sf, of, df, ie⟩ := f
  cases cf <;> cases zf <;> cases sf <;> cases of <;> cases df <;> cases ie <;> decide

/-- `0x200` is the bit of the interrupts. -/
theorem ofWord_or (f : Flags) : ofWord (f.toWord ||| 0x200) = { f with ie := true } := by
  obtain ⟨cf, zf, sf, of, df, ie⟩ := f
  cases cf <;> cases zf <;> cases sf <;> cases of <;> cases df <;> cases ie <;> decide

/-- The flags of `x - 1`; `decl` leaves the carry flag. -/
def dec (f : Flags) (x : Word) : Flags := { f.sub x 1 with cf := f.cf }

end Flags

/-! ### Words in the memory -/

/-- The word at an address. -/
def peek (m : Word → Byte) (a : Word) : Word := Bus.flat.loadN 4 m a

/-- The memory with another word at an address. -/
def poke (m : Word → Byte) (a v : Word) : Word → Byte := Bus.flat.storeN 4 m a v

/-- The memory and the stack pointer after the words have been pushed, one after the other. -/
def pushes (m : Word → Byte) (sp : Word) : List Word → (Word → Byte) × Word
  | [] => (m, sp)
  | v :: vs => pushes (poke m (sp - 4) v) (sp - 4) vs

/-- From `sp` on there are the words `vs`. -/
def Stack (m : Word → Byte) (sp : Word) : List Word → Prop
  | [] => True
  | v :: vs => peek m sp = v ∧ Stack m (sp + 4) vs

/-- The `n` bytes from `a` on are none of the `k` bytes from `b` on. -/
def Distant (a : Word) (n : ℕ) (b : Word) (k : ℕ) : Prop :=
  ∀ i < n, ∀ j < k, a + BitVec.ofNat 32 i ≠ b + BitVec.ofNat 32 j

/-- The `n` bytes from `a` on are the same. -/
def SameBytes (m m' : Word → Byte) (a : Word) (n : ℕ) : Prop :=
  ∀ j < n, m' (a + BitVec.ofNat 32 j) = m (a + BitVec.ofNat 32 j)

section

variable {m m' : Word → Byte} {a b sp v : Word} {vs ws : List Word} {i k n : ℕ}

theorem poke_apply : poke m a v b = if (b - a).toNat < 4 then
    (v >>> (8 * (b - a).toNat)).setWidth 8 else m b :=
  Bus.storeN_flat (by decide)

theorem peek_poke : peek (poke m a v) a = v := by
  apply BitVec.eq_of_getLsbD_eq
  intro i hi
  have hdist : (a + BitVec.ofNat 32 (i / 8) - a).toNat = i / 8 := by
    rw [BitVec.add_comm, BitVec.add_sub_cancel, BitVec.toNat_ofNat, Nat.mod_eq_of_lt (by omega)]
  rw [peek, Bus.loadN_getLsbD (by omega) (Nat.le_refl 4)]
  change (poke m a v (a + BitVec.ofNat 32 (i / 8))).getLsbD (i % 8) = _
  rw [poke_apply, hdist, if_pos (by omega), BitVec.getLsbD_setWidth,
    decide_eq_true (show i % 8 < 8 by omega), Bool.true_and, BitVec.getLsbD_ushiftRight,
    Nat.div_add_mod]

theorem SameBytes.trans {m'' : Word → Byte} (h : SameBytes m m' a n) (h' : SameBytes m' m'' a n) :
    SameBytes m m'' a n := fun j hj => (h' j hj).trans (h j hj)

theorem SameBytes.peek (h : SameBytes m m' a n) (hk : k + 4 ≤ n) :
    peek m' (a + BitVec.ofNat 32 k) = peek m (a + BitVec.ofNat 32 k) := by
  refine Bus.loadN_congr fun j hj => ?_
  rw [BitVec.add_assoc, ← BitVec.ofNat_add]
  exact h (k + j) (by omega)

theorem Distant.symm (h : Distant a n b k) : Distant b k a n := fun i hi j hj e =>
  h j hj i hi e.symm

/-- Two stretches, the first one in front of the second. -/
theorem Distant.of_le (h : a.toNat + n ≤ b.toNat) (hb : b.toNat + k ≤ 2 ^ 32) :
    Distant a n b k := by
  intro i hi j hj e
  have hnat := congrArg BitVec.toNat e
  rw [Bus.toNat_add_ofNat (by omega), Bus.toNat_add_ofNat (by omega)] at hnat
  omega

/-- A part of the distant bytes. -/
theorem Distant.part {l : ℕ} {c : Word} (h : Distant a n b (k + l))
    (hc : c = b + BitVec.ofNat 32 k) : Distant a n c l := by
  intro i hi j hj e
  refine h i hi (k + j) (by omega) ?_
  rw [e, hc, BitVec.ofNat_add, BitVec.add_assoc]

theorem Distant.poke (h : Distant a n b 4) : SameBytes m (poke m b v) a n := by
  intro j hj
  rw [poke_apply, if_neg]
  intro hlt
  refine h j hj (a + BitVec.ofNat 32 j - b).toNat hlt ?_
  rw [BitVec.ofNat_toNat, BitVec.setWidth_eq]
  grind

theorem Stack.get (h : Stack m sp vs) (hi : i < vs.length) :
    X86.peek m (sp + BitVec.ofNat 32 (4 * i)) = vs[i] := by
  induction vs generalizing sp i with
  | nil => exact absurd hi (Nat.not_lt_zero i)
  | cons v vs ih =>
    cases i with
    | zero =>
      rw [Nat.mul_zero, BitVec.add_zero]
      exact h.1
    | succ i =>
      rw [Nat.mul_succ, Nat.add_comm, BitVec.ofNat_add, ← BitVec.add_assoc]
      exact ih h.2 (Nat.lt_of_succ_lt_succ hi)

/-- A stack is in its own bytes. -/
theorem Stack.congr (h : Stack m sp vs) (hm : SameBytes m m' sp (4 * vs.length)) :
    Stack m' sp vs := by
  induction vs generalizing sp with
  | nil => trivial
  | cons v vs ih =>
    have hlen : (v :: vs).length = vs.length + 1 := List.length_cons
    have hfour : ∀ j, sp + 4 + BitVec.ofNat 32 j = sp + BitVec.ofNat 32 (4 + j) := fun j => by
      rw [BitVec.ofNat_add, BitVec.add_assoc]
      rfl
    refine ⟨(Bus.loadN_congr fun j hj => hm j (by omega)).trans h.1, ih h.2 fun j hj => ?_⟩
    rw [hfour]
    exact hm (4 + j) (by omega)

theorem Stack.poke (h : Stack m sp vs) (hlen : 4 * (vs.length + 1) ≤ 2 ^ 32) :
    Stack (poke m (sp - 4) v) (sp - 4) (v :: vs) := by
  refine ⟨peek_poke, ?_⟩
  rw [BitVec.sub_add_cancel]
  refine h.congr fun j hj => ?_
  have hdist : (sp + BitVec.ofNat 32 j - (sp - 4)).toNat = 4 + j := by
    have hfour : sp + BitVec.ofNat 32 j - (sp - 4) = BitVec.ofNat 32 (4 + j) := by
      rw [BitVec.ofNat_add]
      grind
    rw [hfour, BitVec.toNat_ofNat, Nat.mod_eq_of_lt (by omega)]
  rw [poke_apply, hdist, if_neg (by omega)]

/-- What is pushed is on the stack, the last word first. -/
theorem Stack.pushes (h : Stack m sp ws) (hlen : 4 * (vs.length + ws.length) ≤ 2 ^ 32) :
    Stack (pushes m sp vs).1 (pushes m sp vs).2 (vs.reverse ++ ws) := by
  induction vs generalizing m sp ws with
  | nil => exact h
  | cons v vs ih =>
    rw [List.length_cons] at hlen
    rw [X86.pushes, List.reverse_cons, List.append_assoc]
    exact ih (h.poke (by omega)) (by rw [List.singleton_append, List.length_cons]; omega)

theorem pushes_append : pushes m sp (vs ++ ws) =
    pushes (pushes m sp vs).1 (pushes m sp vs).2 ws := by
  induction vs generalizing m sp with
  | nil => rfl
  | cons v vs ih => exact ih

theorem pushes_sp : (pushes m sp vs).2 = sp - BitVec.ofNat 32 (4 * vs.length) := by
  induction vs generalizing m sp with
  | nil => exact (BitVec.sub_zero sp).symm
  | cons v vs ih =>
    rw [pushes, ih, List.length_cons, Nat.mul_succ, Nat.add_comm, BitVec.ofNat_add]
    have hfour : BitVec.ofNat 32 4 = (4 : Word) := rfl
    rw [hfour]
    grind

/-- Only the bytes that the stack grows by change. -/
theorem pushes_apply (hlen : 4 * vs.length < 2 ^ 32)
    (hb : 4 * vs.length ≤ (b - (pushes m sp vs).2).toNat) : (pushes m sp vs).1 b = m b := by
  induction vs generalizing m sp with
  | nil => rfl
  | cons v vs ih =>
    rw [List.length_cons] at hlen hb
    rw [pushes] at hb ⊢
    rw [ih (by omega) (by omega), poke_apply, if_neg]
    have hdist : b - (sp - 4) =
        b - (pushes (poke m (sp - 4) v) (sp - 4) vs).2 - BitVec.ofNat 32 (4 * vs.length) := by
      rw [pushes_sp]
      grind
    rw [hdist, BitVec.toNat_sub_of_le]
    · rw [BitVec.toNat_ofNat, Nat.mod_eq_of_lt (by omega)]
      omega
    · rw [BitVec.le_def, BitVec.toNat_ofNat, Nat.mod_eq_of_lt (by omega)]
      omega

theorem Distant.pushes (h : Distant a n (pushes m sp vs).2 (4 * vs.length))
    (hlen : 4 * vs.length < 2 ^ 32) : SameBytes m (pushes m sp vs).1 a n := by
  intro j hj
  refine pushes_apply hlen (Nat.le_of_not_lt fun hlt => h j hj _ hlt ?_)
  rw [BitVec.ofNat_toNat, BitVec.setWidth_eq]
  grind

end

/-! ### Steps -/

namespace Cpu

variable (s : Cpu (Word → Byte))

/-- The words are pushed, one after the other. -/
def push (vs : List Word) : Cpu (Word → Byte) :=
  (s.withMem (pushes s.mem (s.reg .esp) vs).1).set .esp (pushes s.mem (s.reg .esp) vs).2

/-- The last word is popped. -/
def pop (r : Reg) : Cpu (Word → Byte) :=
  (s.set .esp (s.reg .esp + 4)).set r (peek s.mem (s.reg .esp))

/-- Another segment. -/
def setSeg (r : Seg) (v : BitVec 16) : Cpu (Word → Byte) :=
  { s with seg := Function.update s.seg r v }

/-- The privilege level, the low bits of `%cs`. -/
def cpl : ℕ := (s.seg .cs).toNat % 4

/-- The registers in the order in which `pushal` pushes them. -/
def allRegs : List Word :=
  [s.reg .eax, s.reg .ecx, s.reg .edx, s.reg .ebx, s.reg .esp, s.reg .ebp, s.reg .esi, s.reg .edi]

/-- `popal` skips the stack pointer that `pushal` has pushed. -/
def popal : Cpu (Word → Byte) :=
  { s with
    reg := fun
      | .edi => peek s.mem (s.reg .esp)
      | .esi => peek s.mem (s.reg .esp + 4)
      | .ebp => peek s.mem (s.reg .esp + 4 + 4)
      | .ebx => peek s.mem (s.reg .esp + 4 + 4 + 4 + 4)
      | .edx => peek s.mem (s.reg .esp + 4 + 4 + 4 + 4 + 4)
      | .ecx => peek s.mem (s.reg .esp + 4 + 4 + 4 + 4 + 4 + 4)
      | .eax => peek s.mem (s.reg .esp + 4 + 4 + 4 + 4 + 4 + 4 + 4)
      | .esp => s.reg .esp + 4 + 4 + 4 + 4 + 4 + 4 + 4 + 4 }

/-- The entry into a gate; `pc` is where the code goes on after it. -/
def enter (env : Env) (g : Gate) (pc : Word) : Word × Cpu (Word → Byte) :=
  let frame := [s.flags.toWord, (s.seg .cs).setWidth 32, pc]
  let t :=
    if g.selector.toNat % 4 < s.cpl then
      ((s.set .esp (env.stack0 s.mem).1).setSeg .ss (env.stack0 s.mem).2).push
        ((s.seg .ss).setWidth 32 :: s.reg .esp :: frame)
    else s.push frame
  (g.offset, (t.setSeg .cs g.selector).withFlags { s.flags with ie := s.flags.ie && g.trap })

/-- The return takes a stack pointer from the stack if it leads to a lower privilege. -/
def iret : Word × Cpu (Word → Byte) :=
  let sp := s.reg .esp
  let cs := (peek s.mem (sp + 4)).setWidth 16
  let t := (s.setSeg .cs cs).withFlags (.ofWord (peek s.mem (sp + 4 + 4)))
  (peek s.mem sp,
    if s.cpl < cs.toNat % 4 then
      (t.set .esp (peek s.mem (sp + 4 + 4 + 4))).setSeg .ss
        ((peek s.mem (sp + 4 + 4 + 4 + 4)).setWidth 16)
    else t.set .esp (sp + 4 + 4 + 4))

end Cpu

namespace Cpu

variable {E : Env} {g : Gate} {p : Word} {s : Cpu (Word → Byte)}

theorem push_eq (l : List Word) :
    ((s.push l).mem, (s.push l).reg .esp) = pushes s.mem (s.reg .esp) l := rfl

theorem keeps_push {vs : List Word} : s.Keeps [.esp] (s.push vs) := keeps_set (by decide)

/-- Into the kernel from a program: the stack is that of the task state. -/
theorem enter_outer (h : g.selector.toNat % 4 < s.cpl) : ∃ t, s.enter E g p = (g.offset, t) ∧
    (t.mem, t.reg .esp) = pushes s.mem (E.stack0 s.mem).1 [(s.seg .ss).setWidth 32, s.reg .esp,
      s.flags.toWord, (s.seg .cs).setWidth 32, p] ∧
    s.Keeps [.esp] t ∧ t.seg .cs = g.selector ∧ (∀ r, r ≠ .cs → r ≠ .ss → t.seg r = s.seg r) ∧
    t.flags = { s.flags with ie := s.flags.ie && g.trap } := by
  rw [enter, if_pos h]
  refine ⟨_, rfl, rfl, fun r hr => ?_, rfl, fun r hcs hss => ?_, rfl⟩
  · have hne : r ≠ .esp := fun e => hr (by rw [e]; exact List.mem_singleton_self _)
    exact (Function.update_of_ne hne ..).trans (Function.update_of_ne hne ..)
  · exact (Function.update_of_ne hcs ..).trans (Function.update_of_ne hss ..)

/-- Within the kernel: the stack stays. -/
theorem enter_inner (h : ¬ g.selector.toNat % 4 < s.cpl) : ∃ t, s.enter E g p = (g.offset, t) ∧
    (t.mem, t.reg .esp) = pushes s.mem (s.reg .esp)
      [s.flags.toWord, (s.seg .cs).setWidth 32, p] ∧
    s.Keeps [.esp] t ∧ t.seg .cs = g.selector ∧ (∀ r, r ≠ .cs → t.seg r = s.seg r) ∧
    t.flags = { s.flags with ie := s.flags.ie && g.trap } := by
  rw [enter, if_neg h]
  refine ⟨_, rfl, rfl, fun r hr => ?_, rfl, fun r hcs => ?_, rfl⟩
  · have hne : r ≠ .esp := fun e => hr (by rw [e]; exact List.mem_singleton_self _)
    exact Function.update_of_ne hne ..
  · exact Function.update_of_ne hcs ..

/-- Back to a program. -/
theorem iret_outer {cs fl sp ss : Word} (h : Stack s.mem (s.reg .esp) [p, cs, fl, sp, ss])
    (hcpl : s.cpl < (cs.setWidth 16).toNat % 4) : ∃ t, s.iret = (p, t) ∧ t.mem = s.mem ∧
    t.reg .esp = sp ∧ s.Keeps [.esp] t ∧ t.seg .cs = cs.setWidth 16 ∧ t.seg .ss = ss.setWidth 16 ∧
    (∀ r, r ≠ .cs → r ≠ .ss → t.seg r = s.seg r) ∧ t.flags = .ofWord fl := by
  obtain ⟨hp, hcs, hfl, hsp, hss, -⟩ := h
  rw [iret, hp, hcs, hfl, hsp, hss, if_pos hcpl]
  refine ⟨_, rfl, rfl, rfl, fun r hr => ?_, rfl, rfl, fun r hcs hss => ?_, rfl⟩
  · have hne : r ≠ .esp := fun e => hr (by rw [e]; exact List.mem_singleton_self _)
    exact Function.update_of_ne hne ..
  · exact (Function.update_of_ne hss ..).trans (Function.update_of_ne hcs ..)

/-- Back to the kernel. -/
theorem iret_inner {cs fl : Word} (h : Stack s.mem (s.reg .esp) [p, cs, fl])
    (hcpl : ¬ s.cpl < (cs.setWidth 16).toNat % 4) : ∃ t, s.iret = (p, t) ∧ t.mem = s.mem ∧
    t.reg .esp = s.reg .esp + 12 ∧ s.Keeps [.esp] t ∧ t.seg .cs = cs.setWidth 16 ∧
    (∀ r, r ≠ .cs → t.seg r = s.seg r) ∧ t.flags = .ofWord fl := by
  obtain ⟨hp, hcs, hfl, -⟩ := h
  rw [iret, hp, hcs, hfl, if_neg hcpl]
  refine ⟨_, rfl, rfl, ?_, fun r hr => ?_, rfl, fun r hcs => ?_, rfl⟩
  · have hesp : s.reg .esp + 4 + 4 + 4 = s.reg .esp + 12 := by grind
    exact hesp
  · have hne : r ≠ .esp := fun e => hr (by rw [e]; exact List.mem_singleton_self _)
    exact Function.update_of_ne hne ..
  · exact Function.update_of_ne hcs ..

/-- What `pushal` has saved. -/
theorem popal_allRegs {t : Cpu (Word → Byte)} {ws : List Word}
    (h : Stack t.mem (t.reg .esp) (s.allRegs.reverse ++ ws)) :
    Stack t.popal.mem (t.popal.reg .esp) ws ∧ t.popal.reg .esp = t.reg .esp + 32 ∧
      s.Keeps [.esp] t.popal := by
  obtain ⟨hdi, hsi, hbp, -, hbx, hdx, hcx, hax, hws⟩ := h
  refine ⟨hws, ?_, fun r hr => ?_⟩
  · have hsum : t.reg .esp + 4 + 4 + 4 + 4 + 4 + 4 + 4 + 4 = t.reg .esp + 32 := by grind
    exact hsum
  · cases r with
    | eax => exact hax
    | ecx => exact hcx
    | edx => exact hdx
    | ebx => exact hbx
    | esp => exact absurd (List.mem_singleton_self _) hr
    | ebp => exact hbp
    | esi => exact hsi
    | edi => exact hdi

end Cpu

/-- What an instruction does at `pc`: where the code goes on, and the new state. -/
def Op.exec (env : Env) (pc : Word) (s : Cpu (Word → Byte)) : Op → Option (Word × Cpu (Word → Byte))
  | plain i => i.exec .flat pc s
  | pushl src => some (pc + 1, s.push [src.val s])
  | popl dst => some (pc + 1, s.pop dst)
  | load disp base dst => some (pc + 1, s.set dst (peek s.mem (s.reg base + disp)))
  | decl dst => some (pc + 1, (s.set dst (s.reg dst - 1)).withFlags (s.flags.dec (s.reg dst)))
  | movb src dst => some (pc + 1, s.setLow dst (s.low src))
  | orl w dst =>
    some (pc + 1, (s.set dst (s.reg dst ||| w)).withFlags (s.flags.logic (s.reg dst ||| w)))
  | pushfl => some (pc + 1, s.push [s.flags.toWord])
  | call l => some (l, s.push [pc + 1])
  | callTable table index =>
    some (peek s.mem (table + 4 * s.reg index), s.push [pc + 1])
  | ret => some (peek s.mem (s.reg .esp), s.set .esp (s.reg .esp + 4))
  | leave => some (pc + 1, (s.set .esp (s.reg .ebp)).pop .ebp)
  | int v => do
    let g ← env.gate v
    if s.cpl ≤ g.dpl then some (s.enter env g (pc + 1)) else none
  | iret => some s.iret
  | pushal => some (pc + 1, s.push s.allRegs)
  | popal => some (pc + 1, s.popal)
  | native n => some (pc + 1, env.native n s)

theorem Op.exec_int {env : Env} {pc : Word} {s : Cpu (Word → Byte)} {v : ℕ} {g : Gate}
    (hgate : env.gate v = some g) (hdpl : s.cpl ≤ g.dpl) :
    (Op.int v).exec env pc s = some (s.enter env g (pc + 1)) := by
  rw [exec, hgate, Option.bind_eq_bind, Option.bind_some, if_pos hdpl]

/-- What happens next: an instruction, or an interrupt. -/
inductive Event
  | exec
  | irq (v : ℕ)
deriving DecidableEq

/-- The processor under interrupts; they are taken between two instructions, while they are on. -/
def sys (env : Env) (code : Word → Option Op) : Machine (Word × Cpu (Word → Byte)) Event where
  step c
    | .exec => (code c.1).bind fun i => i.exec env c.1 c.2
    | .irq v => if c.2.flags.ie then (env.gate v).map fun g => c.2.enter env g c.1 else none

/-- The code leads from one configuration to another, with no interrupt in between. -/
abbrev Flows (env : Env) (code : Word → Option Op) :
    Word × Cpu (Word → Byte) → Word × Cpu (Word → Byte) → Prop :=
  (sys env code).Reach fun _ l => l = .exec

/-- From `a` on there is the code `l`. -/
def CodeAt (code : Word → Option Op) : Word → List Op → Prop
  | _, [] => True
  | a, i :: l => code a = some i ∧ CodeAt code (a + 1) l

namespace Flows

variable {env : Env} {code : Word → Option Op} {pc l : Word} {s : Cpu (Word → Byte)}
  {c d : Word × Cpu (Word → Byte)}

theorem op {i : Op} (hcode : code pc = some i) (hexec : i.exec env pc s = some c)
    (h : Flows env code c d) : Flows env code (pc, s) d := by
  refine .head (l := .exec) rfl ?_ h
  change (code pc).bind _ = _
  rw [hcode, Option.bind_some, hexec]

theorem taken {cc : Cond} (hcode : code pc = some (.plain (.jcc cc l)))
    (hcc : s.flags.holds cc = true) (h : Flows env code (l, s) d) : Flows env code (pc, s) d :=
  op hcode (by rw [Op.exec, Instr.exec, if_pos hcc]) h

theorem falls {cc : Cond} (hcode : code pc = some (.plain (.jcc cc l)))
    (hcc : ¬ s.flags.holds cc = true) (h : Flows env code (pc + 1, s) d) :
    Flows env code (pc, s) d :=
  op hcode (by rw [Op.exec, Instr.exec, if_neg hcc]) h

end Flows

end X86

end KTeamOS
