import KTeamOS.Memory.Memcpy
import KTeamOS.Terminal.Page

/-!
# Copying text pages

The display is written through the page table, where one frame can be mapped at several pages.  The
copies that the kernel makes between text pages, and from one place of a page to another, are the
ones that the assembly of `memcpy` makes on this memory.

## Main results

* `Screen.memcpy_eq_copy` : the loop over the bytes, in the addresses of the processor.
* `Screen.memcpy_executes` : the assembly runs it, within a page or between two of them.
-/

namespace KTeamOS

/-- The memory of the display, as the processor reaches it. -/
def X86.Bus.screen : X86.Bus Screen where
  load s a := (s.read a.toNat).toBitVec
  store s a v := s.write a.toNat ⟨v⟩

namespace Screen

open X86

variable {s : Screen} {dest src i j k l n v w : ℕ}

theorem read_mod : s.read (k % 2 ^ 32) = s.read k := by
  rw [read, read, Nat.mod_mod]

theorem write_mod {c : UInt8} : s.write (k % 2 ^ 32) c = s.write k c := by
  rw [write, write, Nat.mod_mod]

/-- The loop of the display is the loop of the processor. -/
theorem memcpy_eq_copy : s.memcpy dest src n =
    Bus.screen.copy 1 n s (BitVec.ofNat 32 dest) (BitVec.ofNat 32 src) := by
  induction n with
  | zero => rfl
  | succ n ih =>
    rw [memcpy, ih, Bus.copy_add, ← BitVec.ofNat_add, ← BitVec.ofNat_add]
    generalize Bus.screen.copy 1 n s (BitVec.ofNat 32 dest) (BitVec.ofNat 32 src) = s'
    change s'.write (dest + n) (s'.read (src + n)) =
      s'.write ((dest + n) % 2 ^ 32) (s'.read ((src + n) % 2 ^ 32))
    rw [write_mod, read_mod]

/-- Two places at different offsets of their pages are never the same byte, whatever frames the
pages are mapped to. -/
theorem apart_of_offset (hv : IsPage v) (hw : IsPage w) (hk : k < 4096) (hl : l < 4096)
    (hkl : k ≠ l) : Bus.screen.Apart (BitVec.ofNat 32 (v + k)) (BitVec.ofNat 32 (w + l)) := by
  intro m c
  change UInt8.toBitVec ((m.write ((v + k) % 2 ^ 32) ⟨c⟩).read ((w + l) % 2 ^ 32)) =
    (m.read ((w + l) % 2 ^ 32)).toBitVec
  have hphys : (m.write (v + k) ⟨c⟩).phys ((w + l) % 2 ^ 32) = m.phys ((w + l) % 2 ^ 32) := rfl
  have hne : m.phys ((w + l) % 2 ^ 32) ≠ m.phys ((v + k) % 2 ^ 32) := by
    have hav := hv.aligned
    have haw := hw.aligned
    have hlv := hv.low
    have hlw := hw.low
    rw [phys_add m hv hk, phys_add m hw hl, phys, phys, if_pos (by omega), if_pos (by omega)]
    omega
  rw [write_mod, read_mod, read_mod, read, hphys]
  exact congrArg UInt8.toBitVec (Function.update_of_ne hne ..)

theorem wordSafe (hv : IsPage v) (hw : IsPage w) (hi : i + n ≤ 4096) (hj : j + n ≤ 4096)
    (hij : i ≤ j ∨ j + 4 ≤ i) :
    Lib.WordSafe Bus.screen (BitVec.ofNat 32 (v + i)) (BitVec.ofNat 32 (w + j)) n := by
  intro a b hab hb hbn
  rw [← BitVec.ofNat_add, ← BitVec.ofNat_add, Nat.add_assoc, Nat.add_assoc]
  exact apart_of_offset hv hw (by omega) (by omega) (by omega)

/-- **Copies of text.**  Within a page or from one page to another, towards the start of the page or
at least a word away, the assembly of `memcpy` leaves the display as the loop over the bytes
does. -/
theorem memcpy_executes (s : Cpu Screen) (hv : IsPage v) (hw : IsPage w) (hi : i + n ≤ 4096)
    (hj : j + n ≤ 4096) (hij : i ≤ j ∨ j + 4 ≤ i) :
    ∃ t, Executes Bus.screen Lib.memcpy (Lib.movsOperands s (BitVec.ofNat 32 (v + i))
        (BitVec.ofNat 32 (w + j)) (BitVec.ofNat 32 n)) t ∧
      t.mem = s.mem.memcpy (v + i) (w + j) n := by
  have hn : (BitVec.ofNat 32 n).toNat = n := by
    rw [BitVec.toNat_ofNat, Nat.mod_eq_of_lt (by omega)]
  obtain ⟨t, hexec, hmem, -⟩ := Lib.memcpy_copies Bus.screen s (BitVec.ofNat 32 (v + i))
    (BitVec.ofNat 32 (w + j)) (BitVec.ofNat 32 n)
  rw [hn] at hmem
  exact ⟨t, hexec, by rw [hmem (wordSafe hv hw hi hj hij), memcpy_eq_copy]⟩

/-- A display whose rows have different letters; each page is its own frame. -/
def lettered : Screen where
  mem a := UInt8.ofNat (0x41 + (a - videoMem) / 160)
  frame i := i
  screenX _ := 0
  screenY _ := 0
  attrib := 7
  position := 0

/-- The row of the letter `D` is scrolled over the row of the letter `C`. -/
theorem memcpy_executes_row :
    ∃ t, Executes Bus.screen Lib.memcpy (Lib.movsOperands (.clear lettered)
        (BitVec.ofNat 32 (videoMem + 320)) (BitVec.ofNat 32 (videoMem + 480))
        (BitVec.ofNat 32 160)) t ∧
      t.mem = lettered.memcpy (videoMem + 320) (videoMem + 480) 160 ∧
      lettered.read (videoMem + 320) = 0x43 ∧ lettered.read (videoMem + 480) = 0x44 := by
  obtain ⟨t, hexec, hmem⟩ := memcpy_executes (.clear lettered) isPage_videoMem isPage_videoMem
    (show 320 + 160 ≤ 4096 by decide) (show 480 + 160 ≤ 4096 by decide) (.inl (by decide))
  exact ⟨t, hexec, hmem, by decide, by decide⟩

end Screen

end KTeamOS
