import KTeamOS.X86.Strings

/-!
# Copying memory

The inline assembly of `memcpy`.  Like `memset` it takes single bytes up to an aligned address of
the destination, words from there on, and the bytes that are left at the end.

## Main results

* `Lib.memcpy_copies` : `memcpy` ends, and it is the loop over the single bytes, as long as no byte
  is stored over one of the next three bytes of the source.
* `Lib.memcpy_moves` : the destination gets what the source had, unless it starts inside of it.
-/

namespace KTeamOS

namespace Lib

open X86

/-- The assembly of `memcpy`. -/
def memcpy : List Instr :=
  [ -- .memcpy_top
    .testl (.reg .ecx) .ecx,
    .jcc .z 25,
    .testl (.imm 3) .edi,
    .jcc .z 10,
    .movbLoad .esi .eax,
    .movbStore .eax .edi,
    .addl (.imm 1) .edi,
    .addl (.imm 1) .esi,
    .subl (.imm 1) .ecx,
    .jmp 0,
    -- .memcpy_aligned
    .movwSeg .ds .edx,
    .movwToSeg .edx .es,
    .movl (.reg .ecx) .edx,
    .shrl 2 .ecx,
    .andl (.imm 3) .edx,
    .cld,
    .rep .movs .long,
    -- .memcpy_bottom
    .testl (.reg .edx) .edx,
    .jcc .z 25,
    .movbLoad .esi .eax,
    .movbStore .eax .edi,
    .addl (.imm 1) .edi,
    .addl (.imm 1) .esi,
    .subl (.imm 1) .edx,
    .jmp 17
    -- .memcpy_done
  ]

/-- The operands `"S"`, `"D"` and `"c"`. -/
def movsOperands {M : Type*} (s : Cpu M) (dest src n : Word) : Cpu M :=
  ((s.set .esi src).set .edi dest).set .ecx n

/-- No byte of the destination is one of the next three bytes of the source. -/
def WordSafe {M : Type*} (B : Bus M) (dest src : Word) (n : ℕ) : Prop :=
  ∀ i j, i < j → j < i + 4 → j < n → B.Apart (dest + BitVec.ofNat 32 i) (src + BitVec.ofNat 32 j)

namespace WordSafe

variable {M : Type*} {B : Bus M} {dest src : Word} {k m n : ℕ}

theorem drop (h : WordSafe B dest src (k + n)) :
    WordSafe B (dest + BitVec.ofNat 32 k) (src + BitVec.ofNat 32 k) n := by
  intro i j hij hj hjn
  rw [BitVec.add_assoc, BitVec.add_assoc, ← BitVec.ofNat_add, ← BitVec.ofNat_add]
  exact h (k + i) (k + j) (by omega) (by omega) (by omega)

theorem head (h : WordSafe B dest src (n + 1)) : WordSafe B (dest + 1) (src + 1) n := by
  rw [Nat.add_comm] at h
  exact h.drop

theorem mono (h : WordSafe B dest src n) (hmn : m ≤ n) : WordSafe B dest src m :=
  fun i j hij hj hjm => h i j hij hj (by omega)

end WordSafe

section

variable {M : Type*} {B : Bus M} {s : Cpu M} {k n : ℕ}

/-- The registers that the assembly changes. -/
abbrev memcpyRegs : List Reg := [.eax, .ecx, .edx, .esi, .edi]

/-- One byte after the words. -/
theorem memcpy_bottom_turn (hdx : s.reg .edx ≠ 0) : ∃ t,
    Runs B (.ofList memcpy) (17, s) (17, t) ∧
      t.mem = B.store s.mem (s.reg .edi) (B.load s.mem (s.reg .esi)) ∧
      t.reg .edi = s.reg .edi + 1 ∧ t.reg .esi = s.reg .esi + 1 ∧
      t.reg .edx = s.reg .edx - 1 ∧ t.flags.df = s.flags.df ∧ s.Keeps memcpyRegs t := by
  have hnonzero : ¬ (s.flags.logic (s.reg .edx &&& s.reg .edx)).holds .z = true := by
    rwa [Flags.holds_z_logic, BitVec.and_self]
  refine ⟨_, .op rfl rfl <| .falls rfl hnonzero <| .op rfl rfl <| .op rfl rfl <| .op rfl rfl <|
    .op rfl rfl <| .op rfl rfl <| .op rfl rfl .refl, ?_, rfl, rfl, rfl, rfl,
    (((Cpu.keeps_set (by decide)).trans (Cpu.keeps_set (by decide))).trans
      (Cpu.keeps_set (by decide))).trans (Cpu.keeps_set (by decide))⟩
  exact congrArg (B.store s.mem (s.reg .edi)) Cpu.low_setLow

/-- The bytes that are left after the words. -/
theorem memcpy_bottom (hk : k < 2 ^ 32) (hdx : s.reg .edx = BitVec.ofNat 32 k) : ∃ t,
    Runs B (.ofList memcpy) (17, s) (25, t) ∧
      t.mem = B.copy 1 k s.mem (s.reg .edi) (s.reg .esi) ∧ t.flags.df = s.flags.df ∧
      s.Keeps memcpyRegs t := by
  induction k generalizing s with
  | zero =>
    have hzero : s.reg .edx &&& s.reg .edx = 0 := by rw [BitVec.and_self]; exact hdx
    exact ⟨_, .op rfl rfl (.taken rfl (Flags.holds_z_logic.2 hzero) .refl), rfl, rfl,
      fun _ _ => rfl⟩
  | succ k ih =>
    obtain ⟨hne, hpred⟩ := Bus.count_succ hk hdx
    obtain ⟨s₁, hruns₁, hmem₁, hdi₁, hsi₁, hdx₁, hdf₁, hkeeps₁⟩ :=
      memcpy_bottom_turn (B := B) hne
    obtain ⟨t, hruns, hmem, hdf, hkeeps⟩ := ih (by omega) (hdx₁.trans hpred)
    refine ⟨t, hruns₁.trans hruns, ?_, hdf.trans hdf₁, hkeeps₁.trans hkeeps⟩
    rw [hmem, hmem₁, hdi₁, hsi₁]
    rfl

/-- From an aligned address on: words, and the rest of the bytes. -/
theorem memcpy_aligned (hn : n < 2 ^ 32) (hcx : s.reg .ecx = BitVec.ofNat 32 n) : ∃ t,
    Runs B (.ofList memcpy) (10, s) (25, t) ∧
      (WordSafe B (s.reg .edi) (s.reg .esi) n →
        t.mem = B.copy 1 n s.mem (s.reg .edi) (s.reg .esi)) ∧
      t.flags.df = false ∧ s.Keeps memcpyRegs t := by
  obtain ⟨hcount, hrest⟩ := Bus.count_words hn hcx
  obtain ⟨s₁, hruns₁, hmem₁, hdi₁, hsi₁, hcx₁, hdx₁, hdf₁, hkeeps₁⟩ : ∃ s₁,
      Runs B (.ofList memcpy) (10, s) (16, s₁) ∧ s₁.mem = s.mem ∧ s₁.reg .edi = s.reg .edi ∧
        s₁.reg .esi = s.reg .esi ∧ s₁.reg .ecx = s.reg .ecx >>> 2 ∧
        s₁.reg .edx = s.reg .ecx &&& 3 ∧ s₁.flags.df = false ∧ s.Keeps memcpyRegs s₁ :=
    ⟨_, .op rfl rfl <| .op rfl rfl <| .op rfl rfl <| .op rfl rfl <| .op rfl rfl <|
      .op rfl rfl .refl, rfl, rfl, rfl, rfl, rfl, rfl,
      (((Cpu.keeps_set (by decide)).trans (Cpu.keeps_set (by decide))).trans
        (Cpu.keeps_set (by decide))).trans (Cpu.keeps_set (by decide))⟩
  have hdelta : s₁.delta .long = 4 := by
    rw [Cpu.delta, hdf₁]
    rfl
  have hrep : Code.ofList memcpy 16 = some (.rep .movs .long) := rfl
  obtain ⟨s₂, hruns₂, hmem₂, hdi₂, hsi₂, hflags₂, hkeeps₂⟩ :=
    Runs.repMovs (B := B) hrep (by omega) (hcx₁.trans hcount)
  have hdx₂ : s₂.reg .edx = BitVec.ofNat 32 (n % 4) := by
    rw [hkeeps₂ .edx (by decide), hdx₁, hrest]
  obtain ⟨t, hruns, hmem, hdf, hkeeps⟩ := memcpy_bottom (B := B) (by omega) hdx₂
  refine ⟨t, hruns₁.trans (hruns₂.trans hruns), fun hsafe => ?_, ?_,
    hkeeps₁.trans ((hkeeps₂.mono (by decide)).trans hkeeps)⟩
  · have hwords : B.movsN 4 4 (n / 4) s.mem (s.reg .edi) (s.reg .esi) =
        B.copy 1 (4 * (n / 4)) s.mem (s.reg .edi) (s.reg .esi) :=
      Bus.movsN_eq_copy (Nat.le_refl 4) (hsafe.mono (Nat.mul_div_le n 4))
    rw [hmem, hmem₂, hdi₂, hsi₂, hmem₁, hdi₁, hsi₁, hdelta, Width.bytes, hwords,
      Bus.ofNat_mul_four, ← Bus.copy_add, Nat.div_add_mod]
  · rw [hdf, hflags₂, hdf₁]

/-- One byte up to an aligned address. -/
theorem memcpy_top_turn (hcx : s.reg .ecx ≠ 0) (hdi : s.reg .edi &&& 3 ≠ 0) : ∃ t,
    Runs B (.ofList memcpy) (0, s) (0, t) ∧
      t.mem = B.store s.mem (s.reg .edi) (B.load s.mem (s.reg .esi)) ∧
      t.reg .edi = s.reg .edi + 1 ∧ t.reg .esi = s.reg .esi + 1 ∧
      t.reg .ecx = s.reg .ecx - 1 ∧ t.flags.df = s.flags.df ∧ s.Keeps memcpyRegs t := by
  have hnonzero : ¬ (s.flags.logic (s.reg .ecx &&& s.reg .ecx)).holds .z = true := by
    rwa [Flags.holds_z_logic, BitVec.and_self]
  refine ⟨_, .op rfl rfl <| .falls rfl hnonzero <| .op rfl rfl <|
    .falls rfl (fun h => hdi (Flags.holds_z_logic.1 h)) <| .op rfl rfl <| .op rfl rfl <|
    .op rfl rfl <| .op rfl rfl <| .op rfl rfl <| .op rfl rfl .refl, ?_, rfl, rfl, rfl, rfl,
    (((Cpu.keeps_set (by decide)).trans (Cpu.keeps_set (by decide))).trans
      (Cpu.keeps_set (by decide))).trans (Cpu.keeps_set (by decide))⟩
  exact congrArg (B.store s.mem (s.reg .edi)) Cpu.low_setLow

theorem memcpy_top (hn : n < 2 ^ 32) (hcx : s.reg .ecx = BitVec.ofNat 32 n) : ∃ t,
    Runs B (.ofList memcpy) (0, s) (25, t) ∧
      (WordSafe B (s.reg .edi) (s.reg .esi) n →
        t.mem = B.copy 1 n s.mem (s.reg .edi) (s.reg .esi)) ∧
      (t.flags.df = s.flags.df ∨ t.flags.df = false) ∧ s.Keeps memcpyRegs t := by
  induction n generalizing s with
  | zero =>
    have hzero : s.reg .ecx &&& s.reg .ecx = 0 := by rw [BitVec.and_self]; exact hcx
    exact ⟨_, .op rfl rfl (.taken rfl (Flags.holds_z_logic.2 hzero) .refl), fun _ => rfl,
      .inl rfl, fun _ _ => rfl⟩
  | succ n ih =>
    obtain ⟨hne, hpred⟩ := Bus.count_succ hn hcx
    by_cases hdi : s.reg .edi &&& 3 = 0
    · obtain ⟨s₁, hruns₁, hmem₁, hreg₁⟩ : ∃ s₁, Runs B (.ofList memcpy) (0, s) (10, s₁) ∧
          s₁.mem = s.mem ∧ s₁.reg = s.reg := by
        have hnonzero : ¬ (s.flags.logic (s.reg .ecx &&& s.reg .ecx)).holds .z = true := by
          rwa [Flags.holds_z_logic, BitVec.and_self]
        exact ⟨_, .op rfl rfl <| .falls rfl hnonzero <| .op rfl rfl <|
          .taken rfl (Flags.holds_z_logic.2 hdi) .refl, rfl, rfl⟩
      obtain ⟨t, hruns, hmem, hdf, hkeeps⟩ := memcpy_aligned (B := B) (s := s₁) hn
        (by rw [hreg₁]; exact hcx)
      rw [hmem₁, hreg₁] at hmem
      refine ⟨t, hruns₁.trans hruns, hmem, .inr hdf, fun r hr => ?_⟩
      rw [hkeeps r hr, hreg₁]
    · obtain ⟨s₁, hruns₁, hmem₁, hdi₁, hsi₁, hcx₁, hdf₁, hkeeps₁⟩ :=
        memcpy_top_turn (B := B) hne hdi
      obtain ⟨t, hruns, hmem, hdf, hkeeps⟩ := ih (by omega) (hcx₁.trans hpred)
      rw [hmem₁, hdi₁, hsi₁] at hmem
      exact ⟨t, hruns₁.trans hruns, fun hsafe => hmem hsafe.head, by rwa [← hdf₁],
        hkeeps₁.trans hkeeps⟩

/-- For every alignment and every count, the assembly ends; it leaves the memory that the loop over
the single bytes leaves, unless a word is loaded with a byte that the loop would have stored by
then. -/
theorem memcpy_copies (B : Bus M) (s : Cpu M) (dest src n : Word) :
    ∃ t, Executes B memcpy (movsOperands s dest src n) t ∧
      (WordSafe B dest src n.toNat → t.mem = B.copy 1 n.toNat s.mem dest src) ∧
      (t.flags.df = true → s.flags.df = true) ∧ s.Keeps memcpyRegs t := by
  have hcx : (movsOperands s dest src n).reg .ecx = BitVec.ofNat 32 n.toNat := by
    rw [BitVec.ofNat_toNat, BitVec.setWidth_eq]
    rfl
  obtain ⟨t, hruns, hmem, hdf, hkeeps⟩ := memcpy_top (B := B) n.isLt hcx
  refine ⟨t, hruns, hmem, fun ht => ?_, ?_⟩
  · obtain hdf | hdf := hdf
    · rwa [hdf] at ht
    · rw [hdf] at ht
      cases ht
  · refine .trans ?_ hkeeps
    exact ((Cpu.keeps_set (by decide)).trans (Cpu.keeps_set (by decide))).trans
      (Cpu.keeps_set (by decide))

/-- The destination is in front of the source, or behind all of it. -/
def Clear (dest src n : Word) : Prop :=
  dest.toNat ≤ src.toNat ∨ src.toNat + n.toNat ≤ dest.toNat

instance (dest src n : Word) : Decidable (Clear dest src n) := inferInstanceAs (Decidable (_ ∨ _))

/-- No byte is stored over one that is still to be loaded. -/
theorem Clear.ne {dest src n : Word} {i j : ℕ} (h : Clear dest src n)
    (hdest : dest.toNat + n.toNat ≤ 2 ^ 32) (hsrc : src.toNat + n.toNat ≤ 2 ^ 32) (hij : i < j)
    (hj : j < n.toNat) : dest + BitVec.ofNat 32 i ≠ src + BitVec.ofNat 32 j := by
  intro e
  have hnat := congrArg BitVec.toNat e
  rw [Bus.toNat_add_ofNat (by omega), Bus.toNat_add_ofNat (by omega)] at hnat
  obtain h | h := h <;> omega

/-- **`memcpy`.**  For every alignment and every count the assembly ends.  It changes no general
register but those it declares, and never sets the direction flag; from an aligned address on it
also loads `es` from `ds`.  Unless one of the two stretches wraps around or the destination starts
inside of the source, each byte of the destination gets what was in the source before, and no other
byte changes. -/
theorem memcpy_moves (s : Cpu (Word → Byte)) (dest src n : Word) :
    ∃ t, Executes .flat memcpy (movsOperands s dest src n) t ∧
      (dest.toNat + n.toNat ≤ 2 ^ 32 → src.toNat + n.toNat ≤ 2 ^ 32 → Clear dest src n → ∀ b,
        t.mem b = if (b - dest).toNat < n.toNat then s.mem (src + (b - dest)) else s.mem b) ∧
      (t.flags.df = true → s.flags.df = true) ∧ s.Keeps memcpyRegs t := by
  obtain ⟨t, hexec, hmem, hdf, hkeeps⟩ := memcpy_copies .flat s dest src n
  refine ⟨t, hexec, fun hdest hsrc hclear b => ?_, hdf, hkeeps⟩
  have hne := fun i j (hij : i < j) (hj : j < n.toNat) => hclear.ne hdest hsrc hij hj
  have hsafe : WordSafe .flat dest src n.toNat := fun i j hij _ hj _ _ =>
    Bus.store_flat.trans (if_neg (Ne.symm (hne i j hij hj)))
  rw [hmem hsafe, Bus.copy_flat (Nat.le_of_lt n.isLt) hne]

/-- Six bytes from an odd address to another one, two bytes in front of it. -/
theorem memcpy_moves_front : ∃ t, Executes .flat memcpy
    (movsOperands (.clear fun a => a.setWidth 8) 5 7 6) t ∧
    t.mem 5 = 7 ∧ t.mem 10 = 12 ∧ t.mem 11 = 11 := by
  obtain ⟨t, hexec, hmem, -⟩ := memcpy_moves (.clear fun a => a.setWidth 8) 5 7 6
  have hmoved := hmem (by decide) (by decide) (by decide)
  exact ⟨t, hexec, hmoved 5, hmoved 10, hmoved 11⟩

end

end Lib

end KTeamOS
