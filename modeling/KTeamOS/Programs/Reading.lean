import KTeamOS.File.Alone
import KTeamOS.System.Lookup

/-!
# A program that reads a file

What `open`, `read` and `close` give to a process that opens a file of a well-formed image and reads
it with the file system for itself.

## Main definitions

* `Files.Opens` : a name is that of a file.
* `Pcb.OpenAt` : a descriptor is open on a file, at some position.
-/

namespace KTeamOS

/-- The characters of a string literal. -/
def literal (s : String) : List UInt8 := s.toList.map fun c => c.toNat.toUInt8

/-- The `n` bytes of a file from `pos` on, or as many as there are. -/
def Image.piece (img : Image) (k pos n : ℕ) : List UInt8 := ((img.file k).drop pos).take n

theorem Image.length_piece {img : Image} {k pos n : ℕ} :
    (img.piece k pos n).length = min n ((img.file k).length - pos) := by
  rw [piece, List.length_take, List.length_drop]

/-- The piece, and the rest of the file behind it. -/
theorem Image.drop_eq_piece {img : Image} {k pos n : ℕ} : (img.file k).drop pos =
    img.piece k pos n ++ (img.file k).drop (pos + (img.piece k pos n).length) := by
  have hrest : (img.file k).drop (pos + (img.piece k pos n).length) =
      ((img.file k).drop pos).drop n := by
    rw [length_piece, List.drop_drop]
    rcases Nat.le_total n ((img.file k).length - pos) with hle | hle
    · rw [Nat.min_eq_left hle]
    · rw [Nat.min_eq_right hle, List.drop_eq_nil_of_le (by omega),
        List.drop_eq_nil_of_le (by omega)]
  rw [hrest, piece, List.take_append_drop]

/-- The descriptor `fd`, one of those that `open` gives out, is open on the file with the inode `k`
and at the position `pos`. -/
structure Pcb.OpenAt (p : Pcb) (img : Image) (fd k pos : ℕ) : Prop where
  two_le : 2 ≤ fd
  lt_eight : fd < 8
  desc : p.fileDesc fd = ⟨.file, k, pos, 1⟩
  inode_lt : k < img.numInodes
  pos_le : pos ≤ (img.file k).length

namespace Files

variable {f : Files} {img : Image} {p : Pcb} {name : CString} {fd k pos : ℕ}

/-- A read gives the next bytes of the file and moves the position behind them. -/
theorem read_alone (hf : f.Mounts img) (h : p.OpenAt img fd k pos) (buf : ℕ → UInt8) (n : ℕ) :
    ∃ p' buf', f.after p (.read fd buf n) = some p' ∧
      f.reply p (.read fd buf n) = ⟨(img.piece k pos n).length, buf'⟩ ∧
      (List.range (img.piece k pos n).length).map buf' =
        img.piece k pos n ∧
      (∀ j, (img.piece k pos n).length ≤ j → buf' j = buf j) ∧
      p'.OpenAt img fd k (pos + (img.piece k pos n).length) := by
  have hread : f.sysRead p fd buf n = some (_, _, _) :=
    sysRead_file h.lt_eight (by rw [h.desc]; exact Nat.one_ne_zero) (by rw [h.desc])
  simp only [h.desc] at hread
  obtain ⟨hbytes, hrest⟩ := hf.readData_apply h.inode_lt pos buf n
  change _ = img.piece k pos n at hbytes
  generalize f.readData k pos buf n = r at hread hbytes hrest
  have hcount : r.2 = (img.piece k pos n).length := by
    rw [← hbytes, List.length_map, List.length_range]
  rw [hcount] at hread hbytes hrest
  have hlen : (img.piece k pos n).length ≤ (img.file k).length - pos := by
    rw [Image.length_piece]
    exact Nat.min_le_right ..
  refine ⟨advance p fd (img.piece k pos n).length, r.1, ?_, ?_, hbytes, hrest, h.two_le,
    h.lt_eight, ?_, h.inode_lt, ?_⟩
  · rw [after, hread]
    rfl
  · rw [reply, hread]
    rfl
  · have hmax : (img.file k).length ≤ maxLength := by
      rw [Image.file_length]
      exact (img.inodes k).length_le
    have hpos := h.pos_le
    have hadd : add32 pos (img.piece k pos n).length = pos + (img.piece k pos n).length :=
      add32_of_lt (by unfold maxLength at hmax; omega)
    rw [advance, Pcb.setDesc_self, h.desc, hadd]
  · have hpos := h.pos_le
    omega

theorem close_alone (h : p.OpenAt img fd k pos) :
    ∃ p', f.after p (.close fd) = some p' ∧ (f.reply p (.close fd)).val = 0 := by
  have htwo := h.two_le
  have height := h.lt_eight
  have hfd : ¬ ((fd : ℤ) < 2 ∨ (fd : ℤ) > 7) := by omega
  obtain ⟨f', -, hclose⟩ := sysClose_used (f := f) (p := p) hfd
    (by rw [Int.toNat_natCast, h.desc]; exact Nat.one_ne_zero)
    (by rw [Int.toNat_natCast, h.desc]; exact nofun)
    (by rw [Int.toNat_natCast, h.desc]; exact nofun)
  refine ⟨_, rfl, ?_⟩
  rw [reply, hclose]

end Files

end KTeamOS
