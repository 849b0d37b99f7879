import KTeamOS.X86.System

/-!
# What an instruction depends on

An instruction that is no interrupt, no return from one and no call of a C function uses the
registers and the stretches of the memory that `Op.touched` lists.  So it does the same in two
states that agree on them, and it leaves the rest of the memory as it is.

## Main definitions

* `Op.touched`, `Op.Within` : the stretches of the memory that an instruction uses.
* `Agree` : two states that differ in the memory outside `own` only.

## Main results

* `Op.exec_mode` : an instruction stays at its level and does not mask the interrupts.
* `Op.exec_agree` : one instruction in two states that agree.
-/

namespace KTeamOS

namespace X86

/-- The stretches of the memory that an instruction reads or writes: an address and a length. -/
def Op.touched (s : Cpu (Word → Byte)) : Op → List (Word × ℕ)
  | plain (.movbLoad base _) | plain (.movbStore _ base) => [(s.reg base, 1)]
  | plain (.rep .stos w) => [(s.reg .edi, w.bytes)]
  | plain (.rep .movs w) => [(s.reg .edi, w.bytes), (s.reg .esi, w.bytes)]
  | pushl _ | pushfl | call _ => [(s.reg .esp - 4, 4)]
  | popl _ | ret => [(s.reg .esp, 4)]
  | load disp base _ => [(s.reg base + disp, 4)]
  | callTable table index => [(table + 4 * s.reg index, 4), (s.reg .esp - 4, 4)]
  | leave => [(s.reg .ebp, 4)]
  | pushal => [(s.reg .esp - 32, 32)]
  | popal => [(s.reg .esp, 32)]
  | plain _ | decl _ | movb .. | orl .. | int _ | iret | native _ => []

/-- The instruction neither leaves the code that it is part of nor changes the code segment. -/
def Op.Ordinary : Op → Prop
  | int _ | iret | native _ => False
  | plain (.movwToSeg _ dst) => dst ≠ .cs
  | _ => True

/-- The instruction is an ordinary one and uses the memory of `own` only. -/
structure Op.Within (own : Word → Prop) (s : Cpu (Word → Byte)) (i : Op) : Prop where
  ordinary : i.Ordinary
  touched : ∀ x ∈ i.touched s, ∀ j < x.2, own (x.1 + BitVec.ofNat 32 j)

/-- The states are the same, but for the memory outside `own`. -/
structure Agree (own : Word → Prop) (s t : Cpu (Word → Byte)) : Prop where
  reg : t.reg = s.reg
  seg : t.seg = s.seg
  flags : t.flags = s.flags
  mem : ∀ a, own a → t.mem a = s.mem a

section

variable {own : Word → Prop} {s s' t : Cpu (Word → Byte)} {m m' : Word → Byte} {E : Env}
  {pc q a v : Word} {i : Op} {k : ℕ}

theorem Agree.refl (s : Cpu (Word → Byte)) : Agree own s s := ⟨rfl, rfl, rfl, fun _ _ => rfl⟩

theorem Agree.trans {u : Cpu (Word → Byte)} (h : Agree own s t) (h' : Agree own t u) :
    Agree own s u :=
  ⟨h'.reg.trans h.reg, h'.seg.trans h.seg, h'.flags.trans h.flags,
    fun a ha => (h'.mem a ha).trans (h.mem a ha)⟩

theorem Agree.eq (h : Agree own s t) : t = s.withMem t.mem := by
  obtain ⟨reg, seg, flags, mem⟩ := t
  obtain ⟨rfl, rfl, rfl, -⟩ := h
  rfl

theorem agree_withMem (hm : ∀ a, own a → m a = s.mem a) : Agree own s (s.withMem m) :=
  ⟨rfl, rfl, rfl, hm⟩

/-! ### Reading and writing inside `own` -/

theorem sameBytes_own (hm : ∀ a, own a → m a = s.mem a) (h : ∀ j < k, own (a + BitVec.ofNat 32 j)) :
    SameBytes s.mem m a k := fun j hj => hm _ (h j hj)

theorem peek_own (hm : ∀ a, own a → m a = s.mem a) (h : ∀ j < 4, own (a + BitVec.ofNat 32 j)) :
    peek m a = peek s.mem a := Bus.loadN_congr (sameBytes_own hm h)

theorem storeN_own (hm : ∀ a, own a → m a = m' a) (hk : k < 2 ^ 32) :
    ∀ b, own b → Bus.flat.storeN k m a v b = Bus.flat.storeN k m' a v b := by
  intro b hb
  rw [Bus.storeN_flat hk, Bus.storeN_flat hk, hm b hb]

theorem storeN_other (h : ∀ j < k, own (a + BitVec.ofNat 32 j)) (hk : k < 2 ^ 32) :
    ∀ b, ¬ own b → Bus.flat.storeN k m a v b = m b := by
  intro b hb
  rw [Bus.storeN_flat hk, if_neg]
  intro hlt
  refine hb ?_
  have hat := h (b - a).toNat hlt
  rw [BitVec.ofNat_toNat, BitVec.setWidth_eq] at hat
  have hsum : a + (b - a) = b := by grind
  rwa [hsum] at hat

theorem pushes_own {vs : List Word} (hm : ∀ a, own a → m a = m' a) :
    ∀ b, own b → (pushes m a vs).1 b = (pushes m' a vs).1 b := by
  induction vs generalizing m m' a with
  | nil => exact hm
  | cons v vs ih => exact ih (storeN_own hm (by decide))

theorem push_agree (hm : ∀ a, own a → m a = s.mem a) (vs : List Word) :
    Agree own (s.push vs) ((s.withMem m).push vs) where
  reg := congrArg (fun x => Function.update s.reg .esp x) (by
    rw [pushes_sp, pushes_sp]
    rfl)
  seg := rfl
  flags := rfl
  mem := pushes_own hm

theorem push_other (vs : List Word) (hlen : 4 * vs.length < 2 ^ 32)
    (h : ∀ j < 4 * vs.length,
      own (s.reg .esp - BitVec.ofNat 32 (4 * vs.length) + BitVec.ofNat 32 j)) :
    ∀ b, ¬ own b → ((s.withMem m).push vs).mem b = m b := by
  intro b hb
  refine pushes_apply hlen (Nat.le_of_not_lt fun hlt => hb ?_)
  have hat := h _ hlt
  rw [pushes_sp, BitVec.ofNat_toNat, BitVec.setWidth_eq] at hat
  have hsum : ∀ x : Word, x + (b - x) = b := fun x => by grind
  rwa [← hsum (s.reg .esp - BitVec.ofNat 32 (4 * vs.length))]

theorem popal_own (hm : ∀ a, own a → m a = s.mem a)
    (h : ∀ j < 32, own (s.reg .esp + BitVec.ofNat 32 j)) :
    (s.withMem m).popal = s.popal.withMem m := by
  have hsame := sameBytes_own hm h
  have hat : ∀ x k, x = s.reg .esp + BitVec.ofNat 32 k → k + 4 ≤ 32 → peek m x = peek s.mem x := by
    rintro x k rfl hk
    exact hsame.peek hk
  have hreg : (s.withMem m).popal.reg = s.popal.reg := by
    funext r
    cases r with
    | eax => exact hat (s.reg .esp + 4 + 4 + 4 + 4 + 4 + 4 + 4) 28 (by grind) (by decide)
    | ecx => exact hat (s.reg .esp + 4 + 4 + 4 + 4 + 4 + 4) 24 (by grind) (by decide)
    | edx => exact hat (s.reg .esp + 4 + 4 + 4 + 4 + 4) 20 (by grind) (by decide)
    | ebx => exact hat (s.reg .esp + 4 + 4 + 4 + 4) 16 (by grind) (by decide)
    | esp => rfl
    | ebp => exact hat (s.reg .esp + 4 + 4) 8 (by grind) (by decide)
    | esi => exact hat (s.reg .esp + 4) 4 (by grind) (by decide)
    | edi => exact hat (s.reg .esp) 0 (by grind) (by decide)
  exact congrArg (fun reg => { s with reg := reg, mem := m }) hreg

theorem Src.val_withMem (src : Src) : src.val (s.withMem m) = src.val s := by cases src <;> rfl

/-- One element of a string instruction. -/
theorem string_agree {op : StringOp} {w : Width} (hm : ∀ a, own a → m a = s.mem a)
    (htouched : ∀ x ∈ (Op.plain (.rep op w)).touched s, ∀ j < x.2,
      own (x.1 + BitVec.ofNat 32 j)) :
    Agree own (s.string .flat w op) ((s.withMem m).string .flat w op) ∧
      ∀ a, ¬ own a → ((s.withMem m).string .flat w op).mem a = m a := by
  have hw : w.bytes < 2 ^ 32 := by cases w <;> decide
  cases op with
  | stos =>
    exact ⟨⟨rfl, rfl, rfl, storeN_own hm hw⟩,
      storeN_other (htouched _ (List.mem_singleton_self _)) hw⟩
  | movs =>
    have hload := Bus.loadN_congr (B := .flat) (sameBytes_own hm
      (htouched _ (List.mem_cons_of_mem _ (List.mem_singleton_self _))))
    refine ⟨⟨rfl, rfl, rfl, fun a ha => ?_⟩, storeN_other (htouched _ List.mem_cons_self) hw⟩
    change Bus.flat.storeN w.bytes m (s.reg .edi) (Bus.flat.loadN w.bytes m (s.reg .esi)) a = _
    rw [hload]
    exact storeN_own hm hw a ha

/-- An instruction that changes the flow of control by a jump at most. -/
theorem Instr.exec_agree {j : Instr} (hm : ∀ a, own a → m a = s.mem a)
    (htouched : ∀ x ∈ (Op.plain j).touched s, ∀ n < x.2, own (x.1 + BitVec.ofNat 32 n))
    (hexec : j.exec .flat pc s = some (q, s')) : ∃ t',
      j.exec .flat pc (s.withMem m) = some (q, t') ∧ Agree own s' t' ∧
        ∀ a, ¬ own a → t'.mem a = m a := by
  cases j with
  | movbLoad base dst =>
    cases hexec
    have hload : m (s.reg base) = s.mem (s.reg base) := by
      have hat := htouched _ (List.mem_singleton_self _) 0 (Nat.succ_pos 0)
      rw [BitVec.add_zero] at hat
      exact hm _ hat
    exact ⟨_, congrArg (fun x => some (pc + 1, (s.withMem m).setLow dst x)) hload,
      agree_withMem hm, fun _ _ => rfl⟩
  | movbStore src base =>
    cases hexec
    have hat := htouched _ (List.mem_singleton_self _) 0 (Nat.succ_pos 0)
    rw [BitVec.add_zero] at hat
    refine ⟨_, rfl, ⟨rfl, rfl, rfl, fun a ha => ?_⟩, fun a ha => ?_⟩
    · change Function.update m (s.reg base) (s.low src) a =
        Function.update s.mem (s.reg base) (s.low src) a
      by_cases hb : a = s.reg base
      · rw [hb, Function.update_self, Function.update_self]
      · rw [Function.update_of_ne hb, Function.update_of_ne hb, hm a ha]
    · exact Function.update_of_ne (fun hb => ha (by rw [hb]; exact hat)) ..
  | rep op w =>
    rw [exec] at hexec ⊢
    by_cases hcx : s.reg .ecx = 0
    · rw [if_pos hcx] at hexec
      cases hexec
      exact ⟨s.withMem m, if_pos hcx, agree_withMem hm, fun _ _ => rfl⟩
    · rw [if_neg hcx] at hexec
      cases hexec
      obtain ⟨hagree, hother⟩ := string_agree hm htouched
      refine ⟨_, if_neg hcx, ⟨?_, hagree.seg, hagree.flags, hagree.mem⟩, hother⟩
      exact congrArg (fun x => Function.update x .ecx (s.reg .ecx - 1)) hagree.reg
  | movl src dst | addl src dst | subl src dst | andl src dst | testl src dst | cmpl src dst =>
    cases hexec
    refine ⟨_, ?_, agree_withMem hm, fun _ _ => rfl⟩
    rw [exec, Src.val_withMem]
    rfl
  | _ =>
    cases hexec
    exact ⟨_, rfl, agree_withMem hm, fun _ _ => rfl⟩

/-- An ordinary instruction stays at its level and does not mask the interrupts. -/
theorem Op.exec_mode (hi : i.Ordinary) (hexec : i.exec E pc s = some (q, s')) :
    s'.cpl = s.cpl ∧ s'.flags.ie = s.flags.ie := by
  cases i with
  | plain j =>
    change j.exec .flat pc s = some (q, s') at hexec
    cases j with
    | movwToSeg src dst =>
      cases hexec
      have hcs : Function.update s.seg dst ((s.reg src).setWidth 16) .cs = s.seg .cs :=
        Function.update_of_ne (Ne.symm hi) ..
      exact ⟨congrArg (fun x => x.toNat % 4) hcs, rfl⟩
    | rep op w =>
      rw [Instr.exec] at hexec
      by_cases hcx : s.reg .ecx = 0
      · rw [if_pos hcx] at hexec
        cases hexec
        exact ⟨rfl, rfl⟩
      · rw [if_neg hcx] at hexec
        cases hexec
        cases op <;> exact ⟨rfl, rfl⟩
    | _ =>
      cases hexec
      exact ⟨rfl, rfl⟩
  | int _ | iret | native _ => exact hi.elim
  | _ =>
    cases hexec
    exact ⟨rfl, rfl⟩

/-- **One instruction.**  In two states that agree it does the same, and it leaves the memory
outside `own` alone. -/
theorem Op.exec_agree (h : Agree own s t) (hi : i.Within own s)
    (hexec : i.exec E pc s = some (q, s')) : ∃ t', i.exec E pc t = some (q, t') ∧
      Agree own s' t' ∧ ∀ a, ¬ own a → t'.mem a = t.mem a := by
  obtain ⟨hordinary, htouched⟩ := hi
  have hm := h.mem
  rw [h.eq]
  generalize t.mem = m at hm
  cases i with
  | plain j => exact Instr.exec_agree hm htouched hexec
  | pushl src =>
    cases hexec
    have hval := src.val_withMem (s := s) (m := m)
    exact ⟨_, congrArg (fun x => some (pc + 1, (s.withMem m).push [x])) hval, push_agree hm _,
      push_other [_] (show 4 * 1 < 2 ^ 32 by decide) (htouched _ (List.mem_singleton_self _))⟩
  | popl dst =>
    cases hexec
    have hpeek := peek_own hm (htouched _ (List.mem_singleton_self _))
    exact ⟨_, congrArg (fun x => some (pc + 1, ((s.withMem m).set .esp (s.reg .esp + 4)).set dst x))
      hpeek, agree_withMem hm, fun _ _ => rfl⟩
  | load disp base dst =>
    cases hexec
    have hpeek := peek_own hm (htouched _ (List.mem_singleton_self _))
    exact ⟨_, congrArg (fun x => some (pc + 1, (s.withMem m).set dst x)) hpeek,
      agree_withMem hm, fun _ _ => rfl⟩
  | decl dst =>
    cases hexec
    exact ⟨_, rfl, agree_withMem hm, fun _ _ => rfl⟩
  | movb src dst =>
    cases hexec
    exact ⟨_, rfl, agree_withMem hm, fun _ _ => rfl⟩
  | orl w dst =>
    cases hexec
    exact ⟨_, rfl, agree_withMem hm, fun _ _ => rfl⟩
  | pushfl =>
    cases hexec
    exact ⟨(s.withMem m).push [s.flags.toWord], rfl, push_agree hm _,
      push_other [_] (show 4 * 1 < 2 ^ 32 by decide) (htouched _ (List.mem_singleton_self _))⟩
  | call l =>
    cases hexec
    exact ⟨(s.withMem m).push [pc + 1], rfl, push_agree hm _,
      push_other [_] (show 4 * 1 < 2 ^ 32 by decide) (htouched _ (List.mem_singleton_self _))⟩
  | callTable table index =>
    cases hexec
    have hpeek := peek_own hm (htouched _ List.mem_cons_self)
    exact ⟨_, congrArg (fun x => some (x, (s.withMem m).push [pc + 1])) hpeek,
      push_agree hm _, push_other [_] (show 4 * 1 < 2 ^ 32 by decide)
        (htouched _ (List.mem_cons_of_mem _ (List.mem_singleton_self _)))⟩
  | ret =>
    cases hexec
    have hpeek := peek_own hm (htouched _ (List.mem_singleton_self _))
    exact ⟨_, congrArg (fun x => some (x, (s.withMem m).set .esp (s.reg .esp + 4))) hpeek,
      agree_withMem hm, fun _ _ => rfl⟩
  | leave =>
    cases hexec
    have hpeek := peek_own hm (htouched _ (List.mem_singleton_self _))
    exact ⟨_, congrArg (fun x => some (pc + 1, (((s.withMem m).set .esp (s.reg .ebp)).set .esp
      (s.reg .ebp + 4)).set .ebp x)) hpeek, agree_withMem hm, fun _ _ => rfl⟩
  | int v => exact hordinary.elim
  | iret => exact hordinary.elim
  | pushal =>
    cases hexec
    exact ⟨(s.withMem m).push s.allRegs, rfl, push_agree hm _,
      push_other s.allRegs (show 4 * 8 < 2 ^ 32 by decide)
        (htouched _ (List.mem_singleton_self _))⟩
  | popal =>
    cases hexec
    have hpopal := popal_own hm (htouched _ (List.mem_singleton_self _))
    exact ⟨_, congrArg (fun x => some (pc + 1, x)) hpopal, agree_withMem hm, fun _ _ => rfl⟩
  | native n => exact hordinary.elim

end

end X86

end KTeamOS
