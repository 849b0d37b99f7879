import Mathlib.Algebra.Group.Nat.Defs
import Mathlib.Logic.Function.Basic
import Mathlib.Data.Nat.Notation
import KTeamOS.LTS.Basic

/-!
# A 32-bit processor

The part of the x86 that hand-written routines use: the eight registers, the flags, the memory as
seen through the page tables, and the instructions one by one.  A repeated string instruction is one
step for each element it handles, so that a run has a state after each of them.

The code addresses count instructions, not bytes.

## Main definitions

* `Bus` : the bytes of a memory; `Bus.Apart` says that a store to one address leaves the other.
* `Cpu`, `Instr`, `Instr.exec` : the state, the instructions and what they do.
* `cpu` : the machine of a bus and a code.

## Main results

* `Flags.holds_le_sub`, `Flags.holds_ae_sub` : the conditional jumps after a comparison.
* `Reach.op`, `Reach.taken`, `Reach.falls`, `Reach.loop` : the rules to follow a run.
-/

namespace KTeamOS

namespace X86

/-- A register or an address. -/
abbrev Word := BitVec 32

/-- What an address leads to. -/
abbrev Byte := BitVec 8

/-- The general registers. -/
inductive Reg
  | eax | ecx | edx | ebx | esp | ebp | esi | edi
deriving DecidableEq

/-- The segment registers; all segments are flat. -/
inductive Seg
  | cs | ss | ds | es
deriving DecidableEq

/-- The flags that the code reads or changes. -/
structure Flags where
  cf : Bool
  zf : Bool
  sf : Bool
  of : Bool
  df : Bool
  /-- Interrupts are taken. -/
  ie : Bool
deriving DecidableEq

/-- How the bytes of a memory of type `M` are read and written. -/
structure Bus (M : Type*) where
  load : M → Word → Byte
  store : M → Word → Byte → M

/-- The registers, the flags, and a memory of any type. -/
structure Cpu (M : Type*) where
  reg : Reg → Word
  seg : Seg → BitVec 16
  flags : Flags
  mem : M

/-- The processor with all its registers cleared. -/
def Cpu.clear {M : Type*} (m : M) : Cpu M :=
  ⟨fun _ => 0, fun _ => 0, ⟨false, false, false, false, false, false⟩, m⟩

/-- The memory without paging. -/
def Bus.flat : Bus (Word → Byte) := ⟨fun m a => m a, fun m a v => Function.update m a v⟩

/-! ### Instructions -/

/-- A source operand. -/
inductive Src
  | imm (w : Word)
  | reg (r : Reg)

/-- The conditions of the jumps. -/
inductive Cond
  | z | ae | le | g

/-- The suffixes `b`, `w` and `l`. -/
inductive Width
  | byte | word | long

/-- The instructions that can be repeated. -/
inductive StringOp
  | stos | movs

/-- The instructions, the source before the destination. -/
inductive Instr
  | movl (src : Src) (dst : Reg)
  /-- `movb (%base), %dst`, with the low byte of `dst` -/
  | movbLoad (base dst : Reg)
  /-- `movb %src, (%base)`, with the low byte of `src` -/
  | movbStore (src base : Reg)
  /-- `movw %src, %dst`, with the low half of `dst` -/
  | movwSeg (src : Seg) (dst : Reg)
  | movwToSeg (src : Reg) (dst : Seg)
  | addl (src : Src) (dst : Reg)
  | subl (src : Src) (dst : Reg)
  | andl (src : Src) (dst : Reg)
  | shrl (n : ℕ) (dst : Reg)
  | testl (src : Src) (dst : Reg)
  | cmpl (src : Src) (dst : Reg)
  /-- `leal disp(%base, %index), %dst` -/
  | leal (disp : Word) (base index dst : Reg)
  | cld
  | std
  | rep (op : StringOp) (w : Width)
  | jcc (c : Cond) (l : Word)
  | jmp (l : Word)

/-- The instruction at each code address. -/
abbrev Code := Word → Option Instr

/-- The instructions of a routine, one after the other. -/
def Code.ofList (l : List Instr) : Code := fun pc => l[pc.toNat]?

/-- The size of an element. -/
def Width.bytes : Width → ℕ
  | byte => 1
  | word => 2
  | long => 4

namespace Flags

variable (f : Flags)

/-- The flags of a logical operation with the result `r`. -/
def logic (r : Word) : Flags := { f with cf := false, zf := r == 0, sf := r.msb, of := false }

/-- The flags of `x + y`. -/
def add (x y : Word) : Flags :=
  { f with cf := x.uaddOverflow y, zf := x + y == 0, sf := (x + y).msb, of := x.saddOverflow y }

/-- The flags of `x - y`. -/
def sub (x y : Word) : Flags :=
  { f with cf := x.ult y, zf := x - y == 0, sf := (x - y).msb, of := x.ssubOverflow y }

/-- The flags of the shift of `x` by `n`; the overflow flag is undefined after it. -/
def shr (x : Word) (n : ℕ) : Flags :=
  { f with cf := x.getLsbD (n - 1), zf := x >>> n == 0, sf := (x >>> n).msb }

/-- Whether a jump is taken. -/
def holds : Cond → Bool
  | .z => f.zf
  | .ae => !f.cf
  | .le => f.zf || f.sf != f.of
  | .g => !f.zf && f.sf == f.of

variable {f : Flags} {x y : Word}

theorem holds_z_logic : (f.logic x).holds .z = true ↔ x = 0 := beq_iff_eq

theorem holds_ae_sub : (f.sub x y).holds .ae = true ↔ y ≤ x := by
  rw [holds, sub, Bool.not_eq_true', BitVec.ult_eq_decide, decide_eq_false_iff_not, Nat.not_lt]
  exact Iff.rfl

/-- The sign of a difference is wrong exactly if it overflows. -/
theorem sign_sub : ((x - y).msb != x.ssubOverflow y) = decide (x.toInt < y.toInt) := by
  have hx : x.toInt < 2 ^ 31 := x.toInt_lt
  have hx' : -2 ^ 31 ≤ x.toInt := x.le_toInt
  have hy : y.toInt < 2 ^ 31 := y.toInt_lt
  have hy' : -2 ^ 31 ≤ y.toInt := y.le_toInt
  have hover : x.ssubOverflow y =
      decide (2 ^ 31 ≤ x.toInt - y.toInt ∨ x.toInt - y.toInt < -2 ^ 31) := by
    rw [Bool.decide_or]
    rfl
  rw [BitVec.msb_eq_toInt, BitVec.toInt_sub, Int.bmod_def, hover, Bool.eq_iff_iff, bne_iff_ne,
    ne_eq, decide_eq_decide, decide_eq_true_eq]
  split <;> omega

theorem holds_le_sub : (f.sub x y).holds .le = true ↔ x.toInt ≤ y.toInt := by
  have hzero : x - y = 0 ↔ x = y := by constructor <;> intro h <;> grind
  rw [holds, Bool.or_eq_true]
  change (x - y == 0) = true ∨ ((x - y).msb != x.ssubOverflow y) = true ↔ _
  rw [sign_sub, decide_eq_true_eq, beq_iff_eq, hzero, Int.le_iff_lt_or_eq, BitVec.toInt_inj]
  exact Or.comm

theorem holds_g_sub : (f.sub x y).holds .g = true ↔ y.toInt < x.toInt := by
  have hnot : (f.sub x y).holds .g = !(f.sub x y).holds .le := by
    rw [holds, holds, Bool.not_or, bne, Bool.not_not]
  rw [hnot, Bool.not_eq_true', ← Bool.not_eq_true, holds_le_sub, Int.not_le]

end Flags

/-! ### Bytes and words in the memory -/

namespace Bus

variable {M : Type*} (B : Bus M)

/-- The `n` bytes from `a` on, as a number, the first byte being the lowest. -/
def loadN : ℕ → M → Word → Word
  | 0, _, _ => 0
  | n + 1, m, a => (loadN n m (a + 1) <<< 8) ||| (B.load m a).setWidth 32

/-- The lowest `n` bytes of a number, the lowest one first. -/
def storeN : ℕ → M → Word → Word → M
  | 0, m, _, _ => m
  | n + 1, m, a, v => storeN n (B.store m a (v.setWidth 8)) (a + 1) (v >>> 8)

/-- A store to `a` leaves what is at `b`. -/
def Apart (a b : Word) : Prop := ∀ m v, B.load (B.store m a v) b = B.load m b

end Bus

/-! ### Steps -/

namespace Cpu

variable {M : Type*} (B : Bus M) (s : Cpu M)

/-- Another value of a register. -/
def set (r : Reg) (v : Word) : Cpu M := { s with reg := Function.update s.reg r v }

/-- The low byte of a register. -/
def low (r : Reg) : Byte := (s.reg r).setWidth 8

/-- Another low byte of a register. -/
def setLow (r : Reg) (v : Byte) : Cpu M := s.set r ((s.reg r).extractLsb' 8 24 ++ v)

variable {s} in
theorem low_setLow {r : Reg} {v : Byte} : (s.setLow r v).low r = v := by
  have hset : (s.setLow r v).reg r = (s.reg r).extractLsb' 8 24 ++ v := Function.update_self ..
  rw [low, hset, BitVec.setWidth_append_eq_right]

/-- The state with other flags. -/
def withFlags (f : Flags) : Cpu M := { s with flags := f }

/-- The state with another memory. -/
def withMem (m : M) : Cpu M := { s with mem := m }

/-- From one element to the next, in the direction of the string instructions. -/
def delta (w : Width) : Word :=
  if s.flags.df then -BitVec.ofNat 32 w.bytes else BitVec.ofNat 32 w.bytes

/-- One element of a string instruction. -/
def string (w : Width) : StringOp → Cpu M
  | .stos =>
    (s.withMem (B.storeN w.bytes s.mem (s.reg .edi) (s.reg .eax))).set .edi
      (s.reg .edi + s.delta w)
  | .movs =>
    ((s.withMem (B.storeN w.bytes s.mem (s.reg .edi)
      (B.loadN w.bytes s.mem (s.reg .esi)))).set .edi
      (s.reg .edi + s.delta w)).set .esi (s.reg .esi + s.delta w)

end Cpu

variable {M : Type*}

/-- The value of an operand. -/
def Src.val (s : Cpu M) : Src → Word
  | imm w => w
  | reg r => s.reg r

/-- What an instruction does at `pc`: where the code goes on, and the new state. -/
def Instr.exec (B : Bus M) (pc : Word) (s : Cpu M) : Instr → Option (Word × Cpu M)
  | movl src dst => some (pc + 1, s.set dst (src.val s))
  | movbLoad base dst => some (pc + 1, s.setLow dst (B.load s.mem (s.reg base)))
  | movbStore src base =>
    some (pc + 1, s.withMem (B.store s.mem (s.reg base) (s.low src)))
  | movwSeg src dst => some (pc + 1, s.set dst ((s.reg dst).extractLsb' 16 16 ++ s.seg src))
  | movwToSeg src dst =>
    some (pc + 1, { s with seg := Function.update s.seg dst ((s.reg src).setWidth 16) })
  | addl src dst =>
    some (pc + 1, (s.set dst (s.reg dst + src.val s)).withFlags
      (s.flags.add (s.reg dst) (src.val s)))
  | subl src dst =>
    some (pc + 1, (s.set dst (s.reg dst - src.val s)).withFlags
      (s.flags.sub (s.reg dst) (src.val s)))
  | andl src dst =>
    some (pc + 1, (s.set dst (s.reg dst &&& src.val s)).withFlags
      (s.flags.logic (s.reg dst &&& src.val s)))
  | shrl n dst =>
    some (pc + 1, (s.set dst (s.reg dst >>> n)).withFlags (s.flags.shr (s.reg dst) n))
  | testl src dst => some (pc + 1, s.withFlags (s.flags.logic (s.reg dst &&& src.val s)))
  | cmpl src dst => some (pc + 1, s.withFlags (s.flags.sub (s.reg dst) (src.val s)))
  | leal disp base index dst => some (pc + 1, s.set dst (disp + s.reg base + s.reg index))
  | cld => some (pc + 1, s.withFlags { s.flags with df := false })
  | std => some (pc + 1, s.withFlags { s.flags with df := true })
  | rep op w =>
    if s.reg .ecx = 0 then some (pc + 1, s)
    else some (pc, (s.string B w op).set .ecx (s.reg .ecx - 1))
  | jcc c l => some (if s.flags.holds c then l else pc + 1, s)
  | jmp l => some (l, s)

/-- The processor: the code address and the state, one instruction at a time. -/
def cpu (B : Bus M) (code : Code) : Machine (Word × Cpu M) Unit :=
  ⟨fun c _ => (code c.1).bind fun i => i.exec B c.1 c.2⟩

/-- The code leads from one configuration to another. -/
abbrev Runs (B : Bus M) (code : Code) : Word × Cpu M → Word × Cpu M → Prop :=
  (cpu B code).Reachable

/-- The routine takes `s` to `t`, from its first instruction to behind its last one. -/
def Executes (B : Bus M) (l : List Instr) (s t : Cpu M) : Prop :=
  Runs B (.ofList l) (0, s) (BitVec.ofNat 32 l.length, t)

namespace Runs

variable {B : Bus M} {code : Code} {pc l : Word} {s s' : Cpu M} {c d : Word × Cpu M}

theorem op {i : Instr} (hcode : code pc = some i) (hexec : i.exec B pc s = some c)
    (h : Runs B code c d) : Runs B code (pc, s) d := by
  refine .head (l := ()) trivial ?_ h
  change (code pc).bind _ = _
  rw [hcode, Option.bind_some, hexec]

theorem taken {cc : Cond} (hcode : code pc = some (.jcc cc l)) (hcc : s.flags.holds cc = true)
    (h : Runs B code (l, s) d) : Runs B code (pc, s) d :=
  op hcode (by rw [Instr.exec, if_pos hcc]) h

theorem falls {cc : Cond} (hcode : code pc = some (.jcc cc l)) (hcc : ¬ s.flags.holds cc = true)
    (h : Runs B code (pc + 1, s) d) : Runs B code (pc, s) d :=
  op hcode (by rw [Instr.exec, if_neg hcc]) h

/-- A loop that ends: each turn of the body leads from `I (n + 1)` to `I n`. -/
theorem loop {I : ℕ → Word × Cpu M → Prop}
    (hbody : ∀ n c, I (n + 1) c → ∃ d, Runs B code c d ∧ I n d) {n : ℕ} (h : I n c) :
    ∃ d, Runs B code c d ∧ I 0 d := by
  induction n generalizing c with
  | zero => exact ⟨c, .refl, h⟩
  | succ n ih =>
    obtain ⟨c₁, hc₁, hI⟩ := hbody n c h
    obtain ⟨d, hd, hI'⟩ := ih hI
    exact ⟨d, hc₁.trans hd, hI'⟩

end Runs

end X86

end KTeamOS
