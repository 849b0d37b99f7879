import KTeamOS.Entry.Syscall
import KTeamOS.X86.Agree

/-!
# Interrupts

The timer, the keyboard, the clock and the mouse interrupt a program, or the kernel while it works
for one.  Their wrappers save all registers, call the handler and restore the registers.

## Main definitions

* `Device`, `handlerWrap` : the devices, and the assembly of their wrappers.
* `Wired` : where the wrapper and the handler of a device are.
* `Handles`, `Discreet` : what a handler has to leave alone.
* `Interrupted` : runs of a program with interrupts in between.

## Main results

* `Entry.irq_resumes` : what was interrupted goes on with its registers, its flags and its segments.
* `Entry.interrupts_invisible` : a program gets to the same state with interrupts and without.
-/

namespace KTeamOS

open X86

/-- The devices that interrupt. -/
inductive Device
  | pit | key | rtc | mouse
deriving DecidableEq

/-- `PIT_IDT`, `KEY_IDT`, `RTC_IDT` and `MOUSE_IDT` -/
def Device.vector : Device → ℕ
  | pit => 0x20
  | key => 0x21
  | rtc => 0x28
  | mouse => 0x2C

/-- `PIT_IRQ_HANDLER`, `KEY_HANDLER_WRAP`, `RTC_HANDLER_WRAP` and `MOUSE_HANDLER_WRAP`, with the
handler at the address `handler`. -/
def handlerWrap (handler : Word) : List Op := [.pushal, .call handler, .popal, .iret]

/-- Where the wrapper and the handler of a device are. -/
structure Wired (env : Env) (code : Word → Option Op) (d : Device) (wrap handler : Word)
    (native : ℕ) : Prop where
  gate : env.gate d.vector = some ⟨wrap, 0x10, 0, false⟩
  wrap : CodeAt code wrap (handlerWrap handler)
  handler : CodeAt code handler [.native native, .ret]

/-- What a handler that was called in `s` leaves when it has come to its `ret` in `t`: the stack
pointer, the segments, and the `n` bytes of the stack that the interrupt has filled. -/
structure Handles (n : ℕ) (s t : Cpu (Word → Byte)) : Prop where
  esp : t.reg .esp = s.reg .esp
  seg : t.seg = s.seg
  stack : SameBytes s.mem t.mem (s.reg .esp) n

namespace Entry

variable {E : Env} {code : Word → Option Op} {s w : Cpu (Word → Byte)} {p : Word}

/-- What the processor pushes for the way back to `pc`: the stack of a program as well, but not the
stack of the kernel, which stays in use. -/
def irqFrame (s : Cpu (Word → Byte)) (pc : Word) : List Word :=
  [pc, (s.seg .cs).setWidth 32, s.flags.toWord] ++
    if 0 < s.cpl then [s.reg .esp, (s.seg .ss).setWidth 32] else []

/-- Where the frame is pushed. -/
def irqTop (env : Env) (s : Cpu (Word → Byte)) : Word :=
  if 0 < s.cpl then (env.stack0 s.mem).1 else s.reg .esp

/-- The bytes of the frame, of the registers, and of the address behind the call. -/
def irqBytes (s : Cpu (Word → Byte)) : ℕ := if 0 < s.cpl then 56 else 48

theorem irqBytes_eq : irqBytes s = 4 * ((irqFrame s p).length + 9) := by
  rw [irqBytes, irqFrame, List.length_append]
  split <;> rfl

/-- The entry of an interrupt, from a program or from the kernel. -/
theorem irq_frame {g : Gate} (hsel : g.selector = 0x10) : ∃ t, s.enter E g p = (g.offset, t) ∧
    (t.mem, t.reg .esp) = pushes s.mem (irqTop E s) (irqFrame s p).reverse ∧
    s.Keeps [.esp] t ∧ t.seg .cs = 0x10 ∧ (∀ r, r ≠ .cs → r ≠ .ss → t.seg r = s.seg r) ∧
    (¬ 0 < s.cpl → t.seg .ss = s.seg .ss) ∧ t.flags.ie = (s.flags.ie && g.trap) := by
  have hzero : g.selector.toNat % 4 = 0 := by rw [hsel]; rfl
  by_cases hcpl : 0 < s.cpl
  · obtain ⟨t, henter, hpush, hkeeps, hcs, hseg, hflags⟩ :=
      Cpu.enter_outer (E := E) (g := g) (p := p) (s := s) (by rwa [hzero])
    refine ⟨t, henter, ?_, hkeeps, hcs.trans hsel, hseg, fun h => absurd hcpl h, by rw [hflags]⟩
    rw [hpush, irqTop, irqFrame, if_pos hcpl, if_pos hcpl]
    rfl
  · obtain ⟨t, henter, hpush, hkeeps, hcs, hseg, hflags⟩ :=
      Cpu.enter_inner (E := E) (g := g) (p := p) (s := s) (by rwa [hzero])
    refine ⟨t, henter, ?_, hkeeps, hcs.trans hsel, fun r hr _ => hseg r hr,
      fun _ => hseg _ (by decide), by rw [hflags]⟩
    rw [hpush, irqTop, irqFrame, if_neg hcpl, if_neg hcpl]
    rfl

/-- The return from an interrupt. -/
theorem irq_returns (hstack : Stack w.mem (w.reg .esp) (irqFrame s p)) (hcs : w.seg .cs = 0x10)
    (hesp : ¬ 0 < s.cpl → w.reg .esp + 12 = s.reg .esp)
    (hss : ¬ 0 < s.cpl → w.seg .ss = s.seg .ss)
    (hseg : ∀ r, r ≠ .cs → r ≠ .ss → w.seg r = s.seg r) : ∃ v, w.iret = (p, v) ∧ v.mem = w.mem ∧
      v.reg .esp = s.reg .esp ∧ w.Keeps [.esp] v ∧ v.flags = s.flags ∧ v.seg = s.seg := by
  have hcpl : w.cpl = 0 := by rw [Cpu.cpl, hcs]; rfl
  by_cases hpos : 0 < s.cpl
  · rw [irqFrame, if_pos hpos] at hstack
    obtain ⟨v, hiret, hmem, hsp, hkeeps, hcsv, hssv, hsegv, hflags⟩ :=
      Cpu.iret_outer hstack (by rwa [hcpl, setWidth_seg])
    refine ⟨v, hiret, hmem, hsp, hkeeps, by rw [hflags, Flags.ofWord_toWord], funext fun r => ?_⟩
    by_cases hrcs : r = .cs
    · rw [hrcs, hcsv, setWidth_seg]
    · by_cases hrss : r = .ss
      · rw [hrss, hssv, setWidth_seg]
      · rw [hsegv r hrcs hrss, hseg r hrcs hrss]
  · rw [irqFrame, if_neg hpos] at hstack
    obtain ⟨v, hiret, hmem, hsp, hkeeps, hcsv, hsegv, hflags⟩ :=
      Cpu.iret_inner hstack (by rwa [hcpl, setWidth_seg])
    refine ⟨v, hiret, hmem, hsp.trans (hesp hpos), hkeeps, by rw [hflags, Flags.ofWord_toWord],
      funext fun r => ?_⟩
    by_cases hrcs : r = .cs
    · rw [hrcs, hcsv, setWidth_seg]
    · by_cases hrss : r = .ss
      · rw [hrss, hsegv _ (by decide), hss hpos]
      · rw [hsegv r hrcs, hseg r hrcs hrss]

/-- The stack of the handler: the way back to the wrapper, the registers, and the frame. -/
def irqStack (s t : Cpu (Word → Byte)) (wrap p : Word) : List Word :=
  (wrap + 2) :: (t.allRegs.reverse ++ irqFrame s p)

theorem irqStack_length {t : Cpu (Word → Byte)} {wrap : Word} :
    4 * (irqStack s t wrap p).length = irqBytes s := by
  rw [irqBytes_eq (p := p), irqStack, List.length_cons, List.length_append]
  exact congrArg (4 * ·) (show 8 + (irqFrame s p).length + 1 = _ by omega)

theorem irqBytes_le : irqBytes s ≤ 56 := by
  rw [irqBytes]
  split <;> decide

variable {d : Device} {wrap handler : Word} {n : ℕ}

/-- **Into the handler.** -/
theorem irq_enters (h : Wired E code d wrap handler n) (hie : s.flags.ie = true) : ∃ s₁ t,
    (sys E code).step (p, s) (.irq d.vector) = some (wrap, s₁) ∧
      Flows E code (wrap, s₁) (handler, t) ∧ s.Keeps [.esp] s₁ ∧ s.Keeps [.esp] t ∧
      (t.mem, t.reg .esp) = pushes s.mem (irqTop E s) (irqStack s s₁ wrap p).reverse ∧
      t.seg .cs = 0x10 ∧ (∀ r, r ≠ .cs → r ≠ .ss → t.seg r = s.seg r) ∧
      (¬ 0 < s.cpl → t.seg .ss = s.seg .ss) ∧ t.flags.ie = false := by
  obtain ⟨s₁, henter, hpush₁, hkeeps₁, hcs₁, hseg₁, hss₁, hie₁⟩ :=
    irq_frame (E := E) (s := s) (p := p) (g := ⟨wrap, 0x10, 0, false⟩) rfl
  have hirq : (sys E code).step (p, s) (.irq d.vector) = some (wrap, s₁) := by
    change (if s.flags.ie then (E.gate d.vector).map _ else none) = _
    rw [if_pos hie, h.gate, Option.map_some, henter]
  obtain ⟨hpushal, hcall, -⟩ := h.wrap
  rw [Bool.and_false] at hie₁
  refine ⟨s₁, (s₁.push s₁.allRegs).push [wrap + 1 + 1], hirq,
    .op hpushal rfl <| .op hcall rfl .refl, hkeeps₁,
    (hkeeps₁.trans Cpu.keeps_push).trans Cpu.keeps_push, ?_, hcs₁, hseg₁, hss₁, hie₁⟩
  have htwo : wrap + 1 + 1 = wrap + 2 := by grind
  have hstack : (irqStack s s₁ wrap p).reverse =
      (irqFrame s p).reverse ++ s₁.allRegs ++ [wrap + 1 + 1] := by
    rw [irqStack, List.reverse_cons, List.reverse_append, List.reverse_reverse, htwo]
  rw [hstack, pushes_append, pushes_append, ← hpush₁, Cpu.push_eq, ← Cpu.push_eq s₁.allRegs]

/-- **Out of the handler**, from its `ret`. -/
theorem irq_leaves (h : Wired E code d wrap handler n) {s₁ : Cpu (Word → Byte)}
    (hstack : Stack w.mem (w.reg .esp) (irqStack s s₁ wrap p)) (hkeeps₁ : s.Keeps [.esp] s₁)
    (hcs : w.seg .cs = 0x10) (hesp : ¬ 0 < s.cpl → w.reg .esp + 48 = s.reg .esp)
    (hss : ¬ 0 < s.cpl → w.seg .ss = s.seg .ss)
    (hseg : ∀ r, r ≠ .cs → r ≠ .ss → w.seg r = s.seg r) : ∃ v,
      Flows E code (handler + 1, w) (p, v) ∧ v.mem = w.mem ∧ v.reg = s.reg ∧ v.flags = s.flags ∧
        v.seg = s.seg := by
  obtain ⟨-, hret, -⟩ := h.handler
  obtain ⟨-, -, hpopal, hiret, -⟩ := h.wrap
  have htwo : wrap + 1 + 1 = wrap + 2 := by grind
  rw [htwo] at hpopal hiret
  obtain ⟨w₁, hw₁⟩ : ∃ t, t = w.set .esp (w.reg .esp + 4) := ⟨_, rfl⟩
  have hgo : Op.exec E (handler + 1) w .ret = some (wrap + 2, w₁) := by
    rw [Op.exec, hstack.1, hw₁]
  have hmem₁ : w₁.mem = w.mem := by rw [hw₁]; rfl
  have hesp₁ : w₁.reg .esp = w.reg .esp + 4 := by rw [hw₁]; rfl
  have hseg₁ : w₁.seg = w.seg := by rw [hw₁]; rfl
  obtain ⟨hframe, hespp, hkeepsp⟩ := Cpu.popal_allRegs (s := s₁) (t := w₁) (by
    rw [hmem₁, hesp₁]
    exact hstack.2)
  have hsegp : w₁.popal.seg = w.seg := hseg₁
  have htop : ¬ 0 < s.cpl → w₁.popal.reg .esp + 12 = s.reg .esp := fun hcpl => by
    rw [hespp, hesp₁, ← hesp hcpl]
    grind
  obtain ⟨v, hv, hmemv, hespv, hkeepsv, hflagsv, hsegv⟩ := irq_returns hframe
    (by rw [hsegp, hcs]) htop (fun hcpl => by rw [hsegp, hss hcpl])
    fun r hrcs hrss => by rw [hsegp, hseg r hrcs hrss]
  refine ⟨v, .op hret hgo <| .op hpopal rfl <| .op hiret (congrArg some hv) .refl,
    hmemv.trans hmem₁, funext fun r => ?_, hflagsv, hsegv⟩
  by_cases hr : r = .esp
  · rw [hr, hespv]
  · have hne : r ∉ [Reg.esp] := fun hmem => hr (List.mem_singleton.1 hmem)
    rw [hkeepsv r hne, hkeepsp r hne, hkeeps₁ r hne]

/-- **Interrupts.**  Between any two instructions, of a program or of the kernel, an interrupt that
is not masked leads to the handler of its device, with the interrupts off, the segments of the data
as they were, and nothing in the memory changed outside the stack that it fills.  When the handler
returns and has left that stack, the interrupted code goes on at the same instruction with all its
registers, its flags and its segments. -/
theorem irq_resumes (h : Wired E code d wrap handler n) (hie : s.flags.ie = true) : ∃ c t,
    (sys E code).step (p, s) (.irq d.vector) = some c ∧ Flows E code c (handler, t) ∧
      t.flags.ie = false ∧ t.seg .cs = 0x10 ∧ (∀ r, r ≠ .cs → r ≠ .ss → t.seg r = s.seg r) ∧
      t.reg .esp = irqTop E s - BitVec.ofNat 32 (irqBytes s) ∧
      (∀ b, irqBytes s ≤ (b - (irqTop E s - BitVec.ofNat 32 (irqBytes s))).toNat →
        t.mem b = s.mem b) ∧
      (Handles (irqBytes s) t (E.native n t) → ∃ v, Flows E code c (p, v) ∧
        v.mem = (E.native n t).mem ∧ v.reg = s.reg ∧ v.flags = s.flags ∧ v.seg = s.seg) := by
  obtain ⟨s₁, t, hirq, hflows, hkeeps₁, -, hpush, hcs, hseg, hss, hoff⟩ :=
    irq_enters (p := p) h hie
  have hlen : 4 * (irqStack s s₁ wrap p).reverse.length = irqBytes s := by
    rw [List.length_reverse, irqStack_length]
  obtain ⟨hmem, hesp⟩ := Prod.ext_iff.1 hpush
  dsimp only at hmem hesp
  have hle : irqBytes s ≤ 56 := irqBytes_le
  have hstack : Stack t.mem (t.reg .esp) (irqStack s s₁ wrap p) := by
    have hnil : Stack s.mem (irqTop E s) [] := trivial
    have hall : Stack _ _ ((irqStack s s₁ wrap p).reverse.reverse ++ []) := hnil.pushes
      (by rw [List.length_nil, Nat.add_zero, hlen]; exact Nat.le_trans hle (by decide))
    rw [hmem, hesp]
    rwa [List.reverse_reverse, List.append_nil] at hall
  refine ⟨(wrap, s₁), t, hirq, hflows, hoff, hcs, hseg, ?_, fun b hb => ?_, fun hhandles => ?_⟩
  · rw [hesp, pushes_sp, hlen]
  · rw [hmem]
    refine pushes_apply (by rw [hlen]; exact Nat.lt_of_le_of_lt hle (by decide)) ?_
    rwa [pushes_sp, hlen]
  · obtain ⟨t', ht'⟩ : ∃ t', E.native n t = t' := ⟨_, rfl⟩
    rw [ht'] at hhandles ⊢
    obtain ⟨hnative, -⟩ := h.handler
    have hgo : Op.exec E handler t (.native n) = some (handler + 1, t') := by
      rw [Op.exec, ht']
    have hstack' : Stack t'.mem (t'.reg .esp) (irqStack s s₁ wrap p) := by
      rw [hhandles.esp]
      exact hstack.congr (by rw [irqStack_length]; exact hhandles.stack)
    have htop : ¬ 0 < s.cpl → t'.reg .esp + 48 = s.reg .esp := fun hcpl => by
      rw [hhandles.esp, hesp, pushes_sp, hlen, irqTop, irqBytes, if_neg hcpl, if_neg hcpl]
      exact BitVec.sub_add_cancel _ _
    obtain ⟨v, hback, hmemv, hregv, hflagsv, hsegv⟩ := irq_leaves h hstack' hkeeps₁
      (by rw [hhandles.seg, hcs]) htop (fun hcpl => by rw [hhandles.seg, hss hcpl])
      fun r hrcs hrss => by rw [hhandles.seg, hseg r hrcs hrss]
    exact ⟨v, hflows.trans (Flows.op hnative hgo hback), hmemv, hregv, hflagsv, hsegv⟩

/-! ### Programs -/

/-- The instructions among the events. -/
def instructions : List Event → List Event
  | [] => []
  | .exec :: es => .exec :: instructions es
  | .irq _ :: es => instructions es

/-- Interrupted runs: each event is an instruction of the code, or an interrupt with its whole way
through the handler and back. -/
inductive Interrupted (E : Env) (code : Word → Option Op) :
    List Event → Word × Cpu (Word → Byte) → Word × Cpu (Word → Byte) → Prop
  | nil (c : Word × Cpu (Word → Byte)) : Interrupted E code [] c c
  | exec {es : List Event} {c c₁ d : Word × Cpu (Word → Byte)} :
    (sys E code).step c .exec = some c₁ → Interrupted E code es c₁ d →
      Interrupted E code (.exec :: es) c d
  | irq {es : List Event} {c c₁ d : Word × Cpu (Word → Byte)} {v : ℕ} {t : Cpu (Word → Byte)} :
    (sys E code).step c (.irq v) = some c₁ → Flows E code c₁ (c.1, t) →
      Interrupted E code es (c.1, t) d → Interrupted E code (.irq v :: es) c d

/-- The memory of a program has nothing of the stack of the kernel, whose top is `top`, and nothing
of the task state. -/
structure Private (E : Env) (own : Word → Prop) (top : Word) : Prop where
  stack : ∀ a, own a → 56 ≤ (a - (top - 56)).toNat
  task : ∀ m m', (∀ a, ¬ own a → 56 ≤ (a - (top - 56)).toNat → m' a = m a) →
    E.stack0 m' = E.stack0 m

/-- When it has been called for a program, the handler leaves the stack that the interrupt has
filled, the memory of the program, and, when it returns to the program, the task state. -/
structure Discreet (E : Env) (own : Word → Prop) (top : Word) (n : ℕ)
    (t : Cpu (Word → Byte)) : Prop where
  handles : Handles 56 t (E.native n t)
  own : ∀ a, own a → (E.native n t).mem a = t.mem a
  task : E.stack0 (E.native n t).mem = E.stack0 t.mem

variable {own : Word → Prop} {top : Word} {t : Cpu (Word → Byte)}

/-- One interrupt of a program. -/
theorem irq_agrees (h : Wired E code d wrap handler n) (hprivate : Private E own top)
    (hdiscreet : ∀ t, t.reg .esp = top - 56 → Discreet E own top n t) (huser : s.cpl = 3)
    (hie : s.flags.ie = true) (htop : (E.stack0 s.mem).1 = top) : ∃ c t,
    (sys E code).step (p, s) (.irq d.vector) = some c ∧ Flows E code c (p, t) ∧ Agree own s t ∧
      E.stack0 t.mem = E.stack0 s.mem := by
  have hpos : 0 < s.cpl := by rw [huser]; decide
  have hbytes : irqBytes s = 56 := if_pos hpos
  have hirqTop : irqTop E s = top := (if_pos hpos).trans htop
  obtain ⟨c, t, hirq, hflows, -, -, -, hesp, hmem, hback⟩ := irq_resumes (p := p) h hie
  rw [hbytes, hirqTop] at hesp hmem
  rw [hbytes] at hback
  obtain ⟨hhandles, hown, htask⟩ := hdiscreet t hesp
  obtain ⟨v, hreturn, hmemv, hregv, hflagsv, hsegv⟩ := hback hhandles
  refine ⟨c, v, hirq, hreturn, ⟨hregv, hsegv, hflagsv, fun a ha => ?_⟩, ?_⟩
  · rw [hmemv, hown a ha, hmem a (hprivate.stack a ha)]
  · rw [hmemv, htask]
    exact hprivate.task _ _ fun a _ ha => hmem a ha

/-- The code is a program that uses the memory of `own` only. -/
def KeepsTo (own : Word → Prop) (code : Word → Option Op) (c : Word × Cpu (Word → Byte))
    (_ : Event) : Prop :=
  ∀ i, code c.1 = some i → i.Within own c.2

/-- **Interrupts are invisible.**  A program that uses its own memory only gets, whatever interrupts
of the devices come between its instructions, to the same place, with the same registers, the same
flags and the same memory, as without any. -/
theorem interrupts_invisible {wrap handler : Device → Word} {n : Device → ℕ}
    (hwired : ∀ d, Wired E code d (wrap d) (handler d) (n d)) (hprivate : Private E own top)
    (hdiscreet : ∀ d t, t.reg .esp = top - 56 → Discreet E own top (n d) t) {es : List Event}
    (hdevices : ∀ v, .irq v ∈ es → ∃ d : Device, v = d.vector) {c : Word × Cpu (Word → Byte)}
    (hagree : Agree own s t) (huser : s.cpl = 3) (hie : s.flags.ie = true)
    (htop : (E.stack0 t.mem).1 = top)
    (hkeeps : (sys E code).Steps (KeepsTo own code) (p, s) (instructions es))
    (hrun : (sys E code).exec (p, s) (instructions es) = some c) :
    ∃ t', Interrupted E code es (p, t) (c.1, t') ∧ Agree own c.2 t' := by
  induction es generalizing p s t with
  | nil =>
    cases hrun
    exact ⟨t, .nil _, hagree⟩
  | cons e es ih =>
    have hdevices' : ∀ v, .irq v ∈ es → ∃ d : Device, v = d.vector := fun v hv =>
      hdevices v (List.mem_cons_of_mem _ hv)
    cases e with
    | exec =>
      obtain ⟨⟨q, s₁⟩, hst, hrest⟩ := Option.bind_eq_some_iff.1 hrun
      obtain ⟨hwithin, hkeeps⟩ := hkeeps _ hst
      obtain ⟨i, hi, hexec⟩ := Option.bind_eq_some_iff.1 hst
      obtain ⟨t₁, hexec', hagree₁, hother⟩ := Op.exec_agree hagree (hwithin i hi) hexec
      obtain ⟨hcpl, hflag⟩ := Op.exec_mode (hwithin i hi).ordinary hexec
      have htop₁ : (E.stack0 t₁.mem).1 = top := by
        rw [hprivate.task t.mem t₁.mem fun a ha _ => hother a ha, htop]
      obtain ⟨t', hrun', hagree'⟩ := ih hdevices' hagree₁ (hcpl.trans huser) (hflag.trans hie) htop₁
        hkeeps hrest
      exact ⟨t', .exec (Option.bind_eq_some_iff.2 ⟨i, hi, hexec'⟩) hrun', hagree'⟩
    | irq v =>
      obtain ⟨d, rfl⟩ := hdevices v List.mem_cons_self
      have hcpl : t.cpl = 3 := by rwa [Cpu.cpl, hagree.seg]
      obtain ⟨c₁, t₁, hirq, hflows, hagree₁, htask⟩ := irq_agrees (p := p) (hwired d) hprivate
        (hdiscreet d) hcpl (by rwa [hagree.flags]) htop
      obtain ⟨t', hrun', hagree'⟩ := ih hdevices' (hagree.trans hagree₁) huser hie
        (by rwa [htask]) hkeeps hrun
      exact ⟨t', .irq hirq hflows hrun', hagree'⟩

/-! A program at `0x100`, the wrapper of all devices at `0x500`, and a handler at `0x600` that
counts. -/

/-- The program, the wrapper and the handler. -/
def tickCode (a : Word) : Option Op :=
  let n := a.toNat
  if 0x100 ≤ n ∧ n < 0x200 then
    [.plain (.movl (.imm 5) .eax), .pushl (.reg .eax), .popl .ebx][n - 0x100]?
  else if 0x500 ≤ n ∧ n < 0x600 then (handlerWrap 0x600)[n - 0x500]?
  else if 0x600 ≤ n then [.native 0, .ret][n - 0x600]?
  else none

/-- The handler adds one to the word at `0x700` and spoils `%eax`. -/
def tickEnv : Env where
  gate v := if v ∈ [0x20, 0x21, 0x28, 0x2C] then some ⟨0x500, 0x10, 0, false⟩ else none
  stack0 _ := (0x9000, 0x18)
  native _ s := (s.set .eax 42).withMem (poke s.mem 0x700 (peek s.mem 0x700 + 1))

/-- The program's own memory. -/
def tickOwn (a : Word) : Prop := 0x7000 ≤ a.toNat ∧ a.toNat < 0x8800

instance : DecidablePred tickOwn := fun _ => inferInstanceAs (Decidable (_ ∧ _))

/-- The program in front of its first instruction. -/
def tickCpu : Cpu (Word → Byte) := sampleCpu.withFlags { sampleCpu.flags with ie := true }

theorem tick_wired (d : Device) : Wired tickEnv tickCode d 0x500 0x600 0 where
  gate := by cases d <;> rfl
  wrap := ⟨rfl, rfl, rfl, rfl, trivial⟩
  handler := ⟨rfl, rfl, trivial⟩

theorem tick_private : Private tickEnv tickOwn 0x9000 where
  stack _ ha := by
    obtain ⟨hle, hlt⟩ := ha
    bv_omega
  task _ _ _ := rfl

theorem tick_discreet {t : Cpu (Word → Byte)} (hesp : t.reg .esp = 0x9000 - 56) :
    Discreet tickEnv tickOwn 0x9000 0 t where
  handles := by
    refine ⟨rfl, rfl, Distant.poke ?_⟩
    rw [hesp]
    exact (Distant.of_le (by decide) (by decide)).symm
  own a ha := by
    obtain ⟨hle, hlt⟩ := ha
    refine poke_apply.trans (if_neg ?_)
    bv_omega
  task := rfl

/-- The three instructions, with five interrupts. -/
def tickEvents : List Event :=
  [.irq 0x20, .exec, .irq 0x21, .irq 0x20, .exec, .irq 0x2C, .exec, .irq 0x28]

theorem tick_keeps : (sys tickEnv tickCode).Steps (KeepsTo tickOwn tickCode) (0x100, tickCpu)
    (instructions tickEvents) := by
  refine fun c₁ h₁ => ⟨fun i hi => ?_, fun c₂ h₂ => ⟨fun i hi => ?_, fun c₃ _ =>
    ⟨fun i hi => ?_, trivial⟩⟩⟩
  · obtain rfl := Option.some.inj hi
    exact ⟨trivial, nofun⟩
  · obtain rfl := Option.some.inj h₁
    obtain rfl := Option.some.inj hi
    refine ⟨trivial, fun x hx => ?_⟩
    obtain rfl := List.mem_singleton.1 hx
    decide
  · obtain rfl := Option.some.inj h₁
    obtain rfl := Option.some.inj h₂
    obtain rfl := Option.some.inj hi
    refine ⟨trivial, fun x hx => ?_⟩
    obtain rfl := List.mem_singleton.1 hx
    decide

/-- The handler has spoilt `%eax` five times, but the program has a 5 in both registers. -/
theorem interrupts_invisible_five : ∃ t,
    Interrupted tickEnv tickCode tickEvents (0x100, tickCpu) (0x103, t) ∧ t.reg .eax = 5 ∧
      t.reg .ebx = 5 := by
  have hdevices : ∀ v, .irq v ∈ tickEvents → ∃ d : Device, v = d.vector := by
    intro v hv
    simp only [tickEvents, List.mem_cons, Event.irq.injEq, List.not_mem_nil, reduceCtorEq,
      false_or, or_false] at hv
    obtain rfl | rfl | rfl | rfl | rfl := hv
    exacts [⟨.pit, rfl⟩, ⟨.key, rfl⟩, ⟨.pit, rfl⟩, ⟨.mouse, rfl⟩, ⟨.rtc, rfl⟩]
  obtain ⟨t, hrun, hagree⟩ := interrupts_invisible tick_wired tick_private
    (fun _ _ hesp => tick_discreet hesp) hdevices (Agree.refl tickCpu) (p := 0x100) (by decide) rfl
    rfl tick_keeps rfl
  exact ⟨t, hrun, congrFun hagree.reg .eax, congrFun hagree.reg .ebx⟩

end Entry

end KTeamOS
