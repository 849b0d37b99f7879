import KTeamOS.X86.Strings

/-!
# Setting memory

The inline assembly of `memset`, `memset_word` and `memset_dword`.  `memset` stores single bytes up
to an aligned address, words from there on, and the bytes that are left at the end.

## Main results

* `Lib.memset_fills` : whatever the address, the count and the flags are, `memset` stores the low
  byte of its argument to each of the bytes, one after the other.
-/

namespace KTeamOS

namespace Lib

open X86

/-- The operand `"a"` of the assembly, for the argument `c` of `memset`. -/
def memsetOperand (c : Word) : Word :=
  let c := c &&& 0xFF
  c <<< 24 ||| c <<< 16 ||| c <<< 8 ||| c

/-- The assembly of `memset`. -/
def memset : List Instr :=
  [ -- .memset_top
    .testl (.reg .ecx) .ecx,
    .jcc .z 21,
    .testl (.imm 3) .edi,
    .jcc .z 8,
    .movbStore .eax .edi,
    .addl (.imm 1) .edi,
    .subl (.imm 1) .ecx,
    .jmp 0,
    -- .memset_aligned
    .movwSeg .ds .edx,
    .movwToSeg .edx .es,
    .movl (.reg .ecx) .edx,
    .shrl 2 .ecx,
    .andl (.imm 3) .edx,
    .cld,
    .rep .stos .long,
    -- .memset_bottom
    .testl (.reg .edx) .edx,
    .jcc .z 21,
    .movbStore .eax .edi,
    .addl (.imm 1) .edi,
    .subl (.imm 1) .edx,
    .jmp 15
    -- .memset_done
  ]

/-- The code of `memset_word` and of `memset_dword`. -/
def memsetBy (w : Width) : List Instr :=
  [.movwSeg .ds .edx, .movwToSeg .edx .es, .cld, .rep .stos w]

/-- The assembly of `memset_word`. -/
def memsetWord : List Instr := memsetBy .word

/-- The assembly of `memset_dword`. -/
def memsetDword : List Instr := memsetBy .long

section

variable {M : Type*} {B : Bus M} {s : Cpu M} {x : Byte} {i j k m n : ℕ}

/-- The operands `"a"`, `"D"` and `"c"`. -/
def stosOperands (s : Cpu M) (a dest n : Word) : Cpu M :=
  ((s.set .eax a).set .edi dest).set .ecx n

/-- Each byte of the shifted byte. -/
theorem shiftLeft_byte {b : Word} (hb : ∀ k, 8 ≤ k → b.getLsbD k = false) (hi : i < 4)
    (hj : j < 8) : (b <<< (8 * m)).getLsbD (8 * i + j) = (decide (i = m) && b.getLsbD j) := by
  rw [BitVec.getLsbD_shiftLeft, decide_eq_true (show 8 * i + j < 32 by omega), Bool.true_and]
  obtain hlt | rfl | hgt : i < m ∨ i = m ∨ m < i := Nat.lt_trichotomy i m
  · rw [decide_eq_true (show 8 * i + j < 8 * m by omega), decide_eq_false (show i ≠ m by omega)]
    rfl
  · rw [decide_eq_false (show ¬ 8 * i + j < 8 * i by omega), decide_eq_true rfl,
      Nat.add_sub_cancel_left]
    rfl
  · rw [hb _ (by omega), Bool.and_false, decide_eq_false (show i ≠ m by omega), Bool.false_and]

/-- The four bytes of the operand are the low byte of the argument. -/
theorem memsetOperand_repeats {c : Word} : Bus.Repeats (memsetOperand c) (c.setWidth 8) := by
  intro i hi
  have hmask : c &&& 0xFF = (c.setWidth 8).setWidth 32 := by
    apply BitVec.eq_of_toNat_eq
    rw [BitVec.toNat_and, BitVec.toNat_setWidth, BitVec.toNat_setWidth]
    have hand := Nat.and_two_pow_sub_one_eq_mod c.toNat 8
    exact hand.trans (Nat.mod_eq_of_lt (by omega)).symm
  have hb : ∀ k, 8 ≤ k → ((c.setWidth 8).setWidth 32 : Word).getLsbD k = false := fun k hk => by
    rw [BitVec.getLsbD_setWidth, BitVec.getLsbD_of_ge _ _ hk, Bool.and_false]
  apply BitVec.eq_of_getLsbD_eq
  intro j hj
  have hlast : ((c.setWidth 8).setWidth 32 : Word).getLsbD (8 * i + j) =
      (decide (i = 0) && ((c.setWidth 8).setWidth 32 : Word).getLsbD j) := by
    have h := shiftLeft_byte (m := 0) hb hi hj
    rwa [Nat.mul_zero, BitVec.shiftLeft_zero] at h
  have hbyte : ((c.setWidth 8).setWidth 32 : Word).getLsbD j = (c.setWidth 8).getLsbD j := by
    rw [BitVec.getLsbD_setWidth, decide_eq_true (show j < 32 by omega), Bool.true_and]
  rw [BitVec.getLsbD_setWidth, decide_eq_true hj, Bool.true_and, BitVec.getLsbD_ushiftRight,
    memsetOperand, hmask, BitVec.getLsbD_or, BitVec.getLsbD_or, BitVec.getLsbD_or, hlast,
    shiftLeft_byte (m := 3) hb hi hj, shiftLeft_byte (m := 2) hb hi hj,
    shiftLeft_byte (m := 1) hb hi hj, hbyte, ← Bool.and_or_distrib_right,
    ← Bool.and_or_distrib_right, ← Bool.and_or_distrib_right]
  obtain rfl | rfl | rfl | rfl : i = 0 ∨ i = 1 ∨ i = 2 ∨ i = 3 := by omega
  all_goals rfl

/-- One byte after the words. -/
theorem memset_bottom_turn (hdx : s.reg .edx ≠ 0) : ∃ t,
    Runs B (.ofList memset) (15, s) (15, t) ∧
      t.mem = B.store s.mem (s.reg .edi) (s.low .eax) ∧ t.reg .edi = s.reg .edi + 1 ∧
      t.reg .edx = s.reg .edx - 1 ∧ t.flags.df = s.flags.df ∧ s.Keeps [.ecx, .edx, .edi] t := by
  have hnonzero : ¬ (s.flags.logic (s.reg .edx &&& s.reg .edx)).holds .z = true := by
    rwa [Flags.holds_z_logic, BitVec.and_self]
  exact ⟨_, .op rfl rfl <| .falls rfl hnonzero <| .op rfl rfl <| .op rfl rfl <| .op rfl rfl <|
    .op rfl rfl .refl, rfl, rfl, rfl, rfl,
    (Cpu.keeps_set (by decide)).trans (Cpu.keeps_set (by decide))⟩

/-- The bytes that are left after the words. -/
theorem memset_bottom (hk : k < 2 ^ 32) (hdx : s.reg .edx = BitVec.ofNat 32 k)
    (hx : s.low .eax = x) : ∃ t, Runs B (.ofList memset) (15, s) (21, t) ∧
      t.mem = B.fill x k s.mem (s.reg .edi) ∧ t.flags.df = s.flags.df ∧
      s.Keeps [.ecx, .edx, .edi] t := by
  induction k generalizing s with
  | zero =>
    have hzero : s.reg .edx &&& s.reg .edx = 0 := by rw [BitVec.and_self]; exact hdx
    exact ⟨_, .op rfl rfl (.taken rfl (Flags.holds_z_logic.2 hzero) .refl), rfl, rfl,
      fun _ _ => rfl⟩
  | succ k ih =>
    obtain ⟨hne, hpred⟩ := Bus.count_succ hk hdx
    obtain ⟨s₁, hruns₁, hmem₁, hdi₁, hdx₁, hdf₁, hkeeps₁⟩ := memset_bottom_turn (B := B) hne
    have hx₁ : s₁.low .eax = x := by rw [Cpu.low, hkeeps₁ .eax (by decide)]; exact hx
    obtain ⟨t, hruns, hmem, hdf, hkeeps⟩ := ih (by omega) (hdx₁.trans hpred) hx₁
    refine ⟨t, hruns₁.trans hruns, ?_, hdf.trans hdf₁, hkeeps₁.trans hkeeps⟩
    rw [hmem, hmem₁, hdi₁, hx]
    rfl

/-- From an aligned address on: words, and the rest of the bytes. -/
theorem memset_aligned (hn : n < 2 ^ 32) (hcx : s.reg .ecx = BitVec.ofNat 32 n)
    (hx : Bus.Repeats (s.reg .eax) x) : ∃ t, Runs B (.ofList memset) (8, s) (21, t) ∧
      t.mem = B.fill x n s.mem (s.reg .edi) ∧ t.flags.df = false ∧
      s.Keeps [.ecx, .edx, .edi] t := by
  obtain ⟨hcount, hrest⟩ := Bus.count_words hn hcx
  obtain ⟨s₁, hruns₁, hmem₁, hdi₁, hcx₁, hdx₁, hdf₁, hkeeps₁⟩ : ∃ s₁,
      Runs B (.ofList memset) (8, s) (14, s₁) ∧ s₁.mem = s.mem ∧ s₁.reg .edi = s.reg .edi ∧
        s₁.reg .ecx = s.reg .ecx >>> 2 ∧ s₁.reg .edx = s.reg .ecx &&& 3 ∧ s₁.flags.df = false ∧
        s.Keeps [.ecx, .edx, .edi] s₁ :=
    ⟨_, .op rfl rfl <| .op rfl rfl <| .op rfl rfl <| .op rfl rfl <| .op rfl rfl <|
      .op rfl rfl .refl, rfl, rfl, rfl, rfl, rfl,
      (((Cpu.keeps_set (by decide)).trans (Cpu.keeps_set (by decide))).trans
        (Cpu.keeps_set (by decide))).trans (Cpu.keeps_set (by decide))⟩
  have hdelta : s₁.delta .long = 4 := by
    rw [Cpu.delta, hdf₁]
    rfl
  have hax₁ : s₁.reg .eax = s.reg .eax := hkeeps₁ .eax (by decide)
  have hrep : Code.ofList memset 14 = some (.rep .stos .long) := rfl
  obtain ⟨s₂, hruns₂, hmem₂, hdi₂, hflags₂, hkeeps₂⟩ :=
    Runs.repStos (M := M) (s := s₁) hrep (by omega) (hcx₁.trans hcount)
  have hlow₂ : s₂.low .eax = x := by
    rw [Cpu.low, hkeeps₂ .eax (by decide), hax₁]
    exact hx 0 (by omega)
  have hdx₂ : s₂.reg .edx = BitVec.ofNat 32 (n % 4) := by
    rw [hkeeps₂ .edx (by decide), hdx₁, hrest]
  obtain ⟨t, hruns, hmem, hdf, hkeeps⟩ := memset_bottom (B := B) (by omega) hdx₂ hlow₂
  refine ⟨t, hruns₁.trans (hruns₂.trans hruns), ?_, ?_,
    hkeeps₁.trans ((hkeeps₂.mono (by decide)).trans hkeeps)⟩
  · rw [hmem, hmem₂, hdi₂, hmem₁, hdi₁, hdelta, hax₁, Width.bytes, Bus.stosN_eq_fill hx,
      Bus.ofNat_mul_four, ← Bus.fill_add, Nat.div_add_mod]
  · rw [hdf, hflags₂, hdf₁]

/-- One byte up to an aligned address. -/
theorem memset_top_turn (hcx : s.reg .ecx ≠ 0) (hdi : s.reg .edi &&& 3 ≠ 0) : ∃ t,
    Runs B (.ofList memset) (0, s) (0, t) ∧
      t.mem = B.store s.mem (s.reg .edi) (s.low .eax) ∧ t.reg .edi = s.reg .edi + 1 ∧
      t.reg .ecx = s.reg .ecx - 1 ∧ t.flags.df = s.flags.df ∧ s.Keeps [.ecx, .edx, .edi] t := by
  have hnonzero : ¬ (s.flags.logic (s.reg .ecx &&& s.reg .ecx)).holds .z = true := by
    rwa [Flags.holds_z_logic, BitVec.and_self]
  exact ⟨_, .op rfl rfl <| .falls rfl hnonzero <| .op rfl rfl <|
    .falls rfl (fun h => hdi (Flags.holds_z_logic.1 h)) <| .op rfl rfl <| .op rfl rfl <|
    .op rfl rfl <| .op rfl rfl .refl, rfl, rfl, rfl, rfl,
    (Cpu.keeps_set (by decide)).trans (Cpu.keeps_set (by decide))⟩

theorem memset_top (hn : n < 2 ^ 32) (hcx : s.reg .ecx = BitVec.ofNat 32 n)
    (hx : Bus.Repeats (s.reg .eax) x) : ∃ t, Runs B (.ofList memset) (0, s) (21, t) ∧
      t.mem = B.fill x n s.mem (s.reg .edi) ∧ (t.flags.df = s.flags.df ∨ t.flags.df = false) ∧
      s.Keeps [.ecx, .edx, .edi] t := by
  induction n generalizing s with
  | zero =>
    have hzero : s.reg .ecx &&& s.reg .ecx = 0 := by rw [BitVec.and_self]; exact hcx
    exact ⟨_, .op rfl rfl (.taken rfl (Flags.holds_z_logic.2 hzero) .refl), rfl, .inl rfl,
      fun _ _ => rfl⟩
  | succ n ih =>
    obtain ⟨hne, hpred⟩ := Bus.count_succ hn hcx
    by_cases hdi : s.reg .edi &&& 3 = 0
    · obtain ⟨s₁, hruns₁, hs₁⟩ : ∃ s₁, Runs B (.ofList memset) (0, s) (8, s₁) ∧
          s₁.mem = s.mem ∧ s₁.reg = s.reg := by
        have hnonzero : ¬ (s.flags.logic (s.reg .ecx &&& s.reg .ecx)).holds .z = true := by
          rwa [Flags.holds_z_logic, BitVec.and_self]
        exact ⟨_, .op rfl rfl <| .falls rfl hnonzero <| .op rfl rfl <|
          .taken rfl (Flags.holds_z_logic.2 hdi) .refl, rfl, rfl⟩
      obtain ⟨hmem₁, hreg₁⟩ := hs₁
      obtain ⟨t, hruns, hmem, hdf, hkeeps⟩ := memset_aligned (B := B) (s := s₁) (x := x) hn
        (by rw [hreg₁]; exact hcx) (by rw [hreg₁]; exact hx)
      refine ⟨t, hruns₁.trans hruns, ?_, .inr hdf, fun r hr => ?_⟩
      · rw [hmem, hmem₁, hreg₁]
      · rw [hkeeps r hr, hreg₁]
    · obtain ⟨s₁, hruns₁, hmem₁, hdi₁, hcx₁, hdf₁, hkeeps₁⟩ := memset_top_turn (B := B) hne hdi
      have hx₁ : Bus.Repeats (s₁.reg .eax) x := by rw [hkeeps₁ .eax (by decide)]; exact hx
      obtain ⟨t, hruns, hmem, hdf, hkeeps⟩ := ih (by omega) (hcx₁.trans hpred) hx₁
      refine ⟨t, hruns₁.trans hruns, ?_, by rwa [← hdf₁], hkeeps₁.trans hkeeps⟩
      rw [hmem, hmem₁, hdi₁]
      exact congrArg (fun y => B.fill x n (B.store s.mem (s.reg .edi) y) _) (hx 0 (by omega))

/-- **`memset`.**  For every address, aligned or not, every count and every state of the flags, the
assembly ends, and its memory is the one that the loop over the single bytes leaves.  It changes no
general register but those it declares, and never sets the direction flag; from an aligned address
on it also loads `es` from `ds`. -/
theorem memset_fills (B : Bus M) (s : Cpu M) (c dest n : Word) :
    ∃ t, Executes B memset (stosOperands s (memsetOperand c) dest n) t ∧
      t.mem = B.fill (c.setWidth 8) n.toNat s.mem dest ∧
      (t.flags.df = true → s.flags.df = true) ∧ s.Keeps [.eax, .ecx, .edx, .edi] t := by
  have hcx : (stosOperands s (memsetOperand c) dest n).reg .ecx = BitVec.ofNat 32 n.toNat := by
    rw [BitVec.ofNat_toNat, BitVec.setWidth_eq]
    rfl
  obtain ⟨t, hruns, hmem, hdf, hkeeps⟩ :=
    memset_top (B := B) n.isLt hcx memsetOperand_repeats
  refine ⟨t, hruns, hmem, fun ht => ?_, ?_⟩
  · obtain hdf | hdf := hdf
    · rwa [hdf] at ht
    · rw [hdf] at ht
      cases ht
  · refine .trans ?_ (hkeeps.mono (by decide))
    exact ((Cpu.keeps_set (by decide)).trans (Cpu.keeps_set (by decide))).trans
      (Cpu.keeps_set (by decide))

/-- `memset_word` and `memset_dword` store the argument itself, as often as `n` says. -/
theorem memsetBy_stores (B : Bus M) (w : Width) (s : Cpu M) (c dest n : Word) :
    ∃ t, Executes B (memsetBy w) (stosOperands s c dest n) t ∧
      t.mem = B.stosN w.bytes (BitVec.ofNat 32 w.bytes) c n.toNat s.mem dest ∧
      t.flags.df = false ∧ s.Keeps [.eax, .ecx, .edx, .edi] t := by
  obtain ⟨s₁, hruns₁, hmem₁, hdi₁, hcx₁, hax₁, hdf₁, hkeeps₁⟩ : ∃ s₁,
      Runs B (.ofList (memsetBy w)) (0, stosOperands s c dest n) (3, s₁) ∧ s₁.mem = s.mem ∧
        s₁.reg .edi = dest ∧ s₁.reg .ecx = n ∧ s₁.reg .eax = c ∧ s₁.flags.df = false ∧
        s.Keeps [.eax, .ecx, .edx, .edi] s₁ :=
    ⟨_, .op rfl rfl <| .op rfl rfl <| .op rfl rfl .refl, rfl, rfl, rfl, rfl, rfl,
      (((Cpu.keeps_set (by decide)).trans (Cpu.keeps_set (by decide))).trans
        (Cpu.keeps_set (by decide))).trans (Cpu.keeps_set (by decide))⟩
  have hcount : s₁.reg .ecx = BitVec.ofNat 32 n.toNat := by
    rw [hcx₁, BitVec.ofNat_toNat, BitVec.setWidth_eq]
  have hrep : Code.ofList (memsetBy w) 3 = some (.rep .stos w) := rfl
  obtain ⟨t, hruns, hmem, -, hflags, hkeeps⟩ :=
    Runs.repStos (B := B) hrep n.isLt hcount
  refine ⟨t, hruns₁.trans hruns, ?_, by rw [hflags, hdf₁], hkeeps₁.trans (hkeeps.mono (by decide))⟩
  have hdelta : s₁.delta w = BitVec.ofNat 32 w.bytes := by
    rw [Cpu.delta, hdf₁]
    rfl
  rw [hmem, hmem₁, hdi₁, hax₁, hdelta]

end

end Lib

end KTeamOS
