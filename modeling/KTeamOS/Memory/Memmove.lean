import KTeamOS.Memory.Memcpy

/-!
# Moving memory

The inline assembly of `memmove`, which copies from the last byte down to the first one when the
destination is behind the source.

## Main results

* `Lib.memmove_moves` : the destination gets what the source had, however the two overlap.
-/

namespace KTeamOS

namespace Lib

open X86

/-- The assembly of `memmove`. -/
def memmove : List Instr :=
  [ .movwSeg .ds .edx,
    .movwToSeg .edx .es,
    .cld,
    .cmpl (.reg .edi) .esi,
    .jcc .ae 8,
    .leal (-1) .esi .ecx .esi,
    .leal (-1) .edi .ecx .edi,
    .std,
    -- .memmove_go
    .rep .movs .byte ]

section

variable {M : Type*} {B : Bus M} {s : Cpu M} {dest src n : Word}

/-- The repeated instruction, in the direction that the flag gives. -/
theorem memmove_go (hcx : s.reg .ecx = n) : ∃ t,
    Runs B (.ofList memmove) (8, s) (9, t) ∧
      t.mem = B.copy (s.delta .byte) n.toNat s.mem (s.reg .edi) (s.reg .esi) ∧
      t.flags = s.flags ∧ s.Keeps [.ecx, .edx, .esi, .edi] t := by
  have hrep : Code.ofList memmove 8 = some (.rep .movs .byte) := rfl
  have hcount : s.reg .ecx = BitVec.ofNat 32 n.toNat := by
    rw [hcx, BitVec.ofNat_toNat, BitVec.setWidth_eq]
  obtain ⟨t, hruns, hmem, -, -, hflags, hkeeps⟩ := Runs.repMovs (B := B) hrep n.isLt hcount
  exact ⟨t, hruns, hmem.trans Bus.movsN_one, hflags, hkeeps.mono (by decide)⟩

/-- Upwards if the destination is not behind the source, and downwards otherwise. -/
theorem memmove_copies (B : Bus M) (s : Cpu M) (dest src n : Word) :
    ∃ t, Executes B memmove (movsOperands s dest src n) t ∧
      t.mem = (if dest ≤ src then B.copy 1 n.toNat s.mem dest src
        else B.copy (-1) n.toNat s.mem (-1 + dest + n) (-1 + src + n)) ∧
      (t.flags.df = true ↔ src < dest) ∧ s.Keeps [.ecx, .edx, .esi, .edi] t := by
  by_cases hle : dest ≤ src
  · obtain ⟨s₁, hruns₁, hmem₁, hdi₁, hsi₁, hcx₁, hdf₁, hkeeps₁⟩ : ∃ s₁,
        Runs B (.ofList memmove) (0, movsOperands s dest src n) (8, s₁) ∧ s₁.mem = s.mem ∧
          s₁.reg .edi = dest ∧ s₁.reg .esi = src ∧ s₁.reg .ecx = n ∧ s₁.flags.df = false ∧
          s.Keeps [.ecx, .edx, .esi, .edi] s₁ :=
      ⟨_, .op rfl rfl <| .op rfl rfl <| .op rfl rfl <| .op rfl rfl <|
        .taken rfl (Flags.holds_ae_sub.2 hle) .refl, rfl, rfl, rfl, rfl, rfl,
        (((Cpu.keeps_set (by decide)).trans (Cpu.keeps_set (by decide))).trans
          (Cpu.keeps_set (by decide))).trans (Cpu.keeps_set (by decide))⟩
    have hdelta : s₁.delta .byte = 1 := by
      rw [Cpu.delta, hdf₁]
      rfl
    obtain ⟨t, hruns, hmem, hflags, hkeeps⟩ := memmove_go (B := B) hcx₁
    refine ⟨t, hruns₁.trans hruns, ?_, ?_, hkeeps₁.trans hkeeps⟩
    · rw [hmem, hmem₁, hdi₁, hsi₁, hdelta, if_pos hle]
    · rw [hflags, hdf₁]
      exact iff_of_false Bool.false_ne_true (BitVec.not_lt.2 hle)
  · obtain ⟨s₁, hruns₁, hmem₁, hdi₁, hsi₁, hcx₁, hdf₁, hkeeps₁⟩ : ∃ s₁,
        Runs B (.ofList memmove) (0, movsOperands s dest src n) (8, s₁) ∧ s₁.mem = s.mem ∧
          s₁.reg .edi = -1 + dest + n ∧ s₁.reg .esi = -1 + src + n ∧ s₁.reg .ecx = n ∧
          s₁.flags.df = true ∧ s.Keeps [.ecx, .edx, .esi, .edi] s₁ :=
      ⟨_, .op rfl rfl <| .op rfl rfl <| .op rfl rfl <| .op rfl rfl <|
        .falls rfl (fun h => hle (Flags.holds_ae_sub.1 h)) <| .op rfl rfl <| .op rfl rfl <|
        .op rfl rfl .refl, rfl, rfl, rfl, rfl, rfl,
        (((((Cpu.keeps_set (by decide)).trans (Cpu.keeps_set (by decide))).trans
          (Cpu.keeps_set (by decide))).trans (Cpu.keeps_set (by decide))).trans
          (Cpu.keeps_set (by decide))).trans (Cpu.keeps_set (by decide))⟩
    have hdelta : s₁.delta .byte = -1 := by
      rw [Cpu.delta, hdf₁]
      rfl
    obtain ⟨t, hruns, hmem, hflags, hkeeps⟩ := memmove_go (B := B) hcx₁
    refine ⟨t, hruns₁.trans hruns, ?_, ?_, hkeeps₁.trans hkeeps⟩
    · rw [hmem, hmem₁, hdi₁, hsi₁, hdelta, if_neg hle]
    · rw [hflags, hdf₁]
      exact iff_of_true rfl (BitVec.not_le.1 hle)

/-- The byte `i` from the end. -/
theorem last_sub {a n : Word} {i : ℕ} (hi : i < n.toNat) :
    -1 + a + n - BitVec.ofNat 32 i = a + BitVec.ofNat 32 (n.toNat - 1 - i) := by
  have hone : (1 : Word) = BitVec.ofNat 32 1 := rfl
  have hn : n = BitVec.ofNat 32 (n.toNat - 1 - i) + BitVec.ofNat 32 i + 1 := by
    rw [← BitVec.ofNat_add, hone, ← BitVec.ofNat_add,
      show n.toNat - 1 - i + i + 1 = n.toNat by omega, BitVec.ofNat_toNat, BitVec.setWidth_eq]
  grind

/-- Counted from either end, the byte is one of the `n`. -/
theorem sub_lt_iff {n x : Word} : (n - 1 - x).toNat < n.toNat ↔ x.toNat < n.toNat := by
  have hn := n.isLt
  have hx := x.isLt
  rw [BitVec.toNat_sub, BitVec.toNat_sub, show (1 : Word).toNat = 1 from rfl]
  omega

/-- **`memmove`.**  Two stretches of memory may overlap in any way: each byte of the destination
gets what was in the source before, and no other byte changes.  The assembly changes no general
register but those it declares, and loads `es` from `ds`, but it leaves the direction flag set
exactly if the source is in front of the destination. -/
theorem memmove_moves (s : Cpu (Word → Byte)) (dest src n : Word)
    (hdest : dest.toNat + n.toNat ≤ 2 ^ 32) (hsrc : src.toNat + n.toNat ≤ 2 ^ 32) :
    ∃ t, Executes .flat memmove (movsOperands s dest src n) t ∧
      (∀ b, t.mem b = if (b - dest).toNat < n.toNat then s.mem (src + (b - dest)) else s.mem b) ∧
      (t.flags.df = true ↔ src < dest) ∧ s.Keeps [.ecx, .edx, .esi, .edi] t := by
  obtain ⟨t, hruns, hmem, hdf, hkeeps⟩ := memmove_copies .flat s dest src n
  refine ⟨t, hruns, fun b => ?_, hdf, hkeeps⟩
  rw [hmem]
  by_cases hle : dest ≤ src
  · rw [if_pos hle]
    have hclear : Clear dest src n := .inl hle
    exact Bus.copy_flat (Nat.le_of_lt n.isLt) fun i j hij hj => hclear.ne hdest hsrc hij hj
  · rw [if_neg hle, Bus.copy_flat_down (Nat.le_of_lt n.isLt) fun i j hij hj e => ?_]
    · have hfrom : -1 + dest + n - b = n - 1 - (b - dest) := by grind
      have hsame : -1 + src + n - (n - 1 - (b - dest)) = src + (b - dest) := by grind
      rw [hfrom, hsame, if_congr sub_lt_iff rfl rfl]
    · rw [last_sub (by omega), last_sub hj] at e
      have hnat := congrArg BitVec.toNat e
      rw [Bus.toNat_add_ofNat (by omega), Bus.toNat_add_ofNat (by omega)] at hnat
      have hlt : src.toNat < dest.toNat := BitVec.not_le.1 hle
      omega

/-- The string `ab`, one byte further. -/
theorem memmove_moves_overlap : ∃ t, Executes .flat memmove
    (movsOperands (.clear fun a => if a = 0 then 0x61 else if a = 1 then 0x62 else 0) 1 0 2) t ∧
    t.mem 1 = 0x61 ∧ t.mem 2 = 0x62 ∧ t.flags.df = true := by
  obtain ⟨t, hexec, hmem, hdf, -⟩ := memmove_moves
    (.clear fun a => if a = 0 then 0x61 else if a = 1 then 0x62 else 0) 1 0 2 (by decide)
    (by decide)
  exact ⟨t, hexec, hmem 1, hmem 2, hdf.2 (by decide)⟩

end

end Lib

end KTeamOS
