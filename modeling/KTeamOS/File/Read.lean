import KTeamOS.File.Image
import KTeamOS.System.Pcb

/-!
# Reading files

`read_data` walks through the data blocks of a file byte by byte.  Whatever the image is, byte `k`
of the buffer comes from the block and the place in it that the position `offset + k` names
(`readLoop_apply`); on a well-formed image that is the byte of the file (`readData_apply`).
-/

namespace KTeamOS

namespace Files

/-- The loop of `read_data`, for its last `n` bytes, from `buf[i]` on. -/
def readLoop (f : Files) (node : ℕ) :
    (n i blockAddr blockOffset blockIndex : ℕ) → (ℕ → UInt8) → ℕ → UInt8
  | 0, _, _, _, _, buf => buf
  | n + 1, i, blockAddr, blockOffset, blockIndex, buf =>
    let buf := Function.update buf i (f.disk.load (blockAddr + blockOffset))
    if blockOffset + 1 ≥ fourKilo then
      f.readLoop node n (i + 1) (f.getBlockAddr (f.nodeBlock node (blockIndex + 1))) 0
        (blockIndex + 1) buf
    else f.readLoop node n (i + 1) blockAddr (blockOffset + 1) blockIndex buf

/-- `read_data`: the buffer afterwards, and what it returns.  The bounds of its loop are
unsigned, and the `int` that counts it does not overflow, as `file_length` is one. -/
def readData (f : Files) (inode offset : ℕ) (buf : ℕ → UInt8) (length : ℕ) : (ℕ → UInt8) × ℕ :=
  let node := f.getInodeAddr inode
  let fileLength := f.nodeLength node
  let blockOffset := offset % fourKilo
  let blockIndex := offset / fourKilo
  if offset ≥ fileLength then (buf, 0)
  else
    let n := min (fileLength - offset) length
    (f.readLoop node n 0 (f.getBlockAddr (f.nodeBlock node blockIndex)) blockOffset blockIndex buf,
      n)

/-- `file_read` of the process with the block `p`: the block and the buffer afterwards, and what it
returns.  There is no result when `get_entry` is `NULL`. -/
def fileRead (f : Files) (p : Pcb) (fd : ℤ) (buf : ℕ → UInt8) (nbytes : ℕ) :
    Option (Pcb × (ℕ → UInt8) × ℕ) :=
  if fd = -1 then do
    let e ← f.entry
    some (p, f.readData e.inodeNum 0 buf nbytes)
  else
    let d := p.fileDesc fd.toNat
    let r := f.readData d.inode d.filePos buf nbytes
    some (p.setDesc fd.toNat { d with filePos := add32 d.filePos r.2 }, r)

/-! ### What `read_data` delivers -/

/-- The byte that the position `p` of the file with the inode at `node` names. -/
def fileByte (f : Files) (node p : ℕ) : UInt8 :=
  f.disk.load (f.getBlockAddr (f.nodeBlock node (p / fourKilo)) + p % fourKilo)

variable {f : Files} {node n i p j inode offset length : ℕ} {buf : ℕ → UInt8}

/-- The next position is in the same block, or the first one of the next block. -/
theorem next_position (p : ℕ) :
    (p % 4096 + 1 ≥ 4096 ∧ (p + 1) / 4096 = p / 4096 + 1 ∧ (p + 1) % 4096 = 0) ∨
      (¬ p % 4096 + 1 ≥ 4096 ∧ (p + 1) / 4096 = p / 4096 ∧ (p + 1) % 4096 = p % 4096 + 1) := by
  omega

/-- The loop invariant: before each byte, `block_addr`, `block_offset` and `block_index` are those
of the position `p`. -/
theorem readLoop_apply : f.readLoop node n i (f.getBlockAddr (f.nodeBlock node (p / fourKilo)))
    (p % fourKilo) (p / fourKilo) buf j =
      if i ≤ j ∧ j < i + n then f.fileByte node (p + (j - i)) else buf j := by
  induction n generalizing i p buf with
  | zero => rw [readLoop, if_neg (by omega)]
  | succ n ih =>
    have hnext : f.readLoop node (n + 1) i (f.getBlockAddr (f.nodeBlock node (p / fourKilo)))
        (p % fourKilo) (p / fourKilo) buf = f.readLoop node n (i + 1)
          (f.getBlockAddr (f.nodeBlock node ((p + 1) / fourKilo))) ((p + 1) % fourKilo)
          ((p + 1) / fourKilo) (Function.update buf i (f.fileByte node p)) := by
      rw [readLoop]
      obtain ⟨hblock, hindex, hoffset⟩ | ⟨hblock, hindex, hoffset⟩ := next_position p
      · rw [if_pos hblock, hindex, hoffset]
        rfl
      · rw [if_neg hblock, hindex, hoffset]
        rfl
    rw [hnext, ih]
    by_cases hj : j = i
    · rw [hj, if_neg (by omega), if_pos (by omega), Function.update_self, Nat.sub_self,
        Nat.add_zero]
    · rw [Function.update_of_ne hj]
      by_cases hin : i + 1 ≤ j ∧ j < i + 1 + n
      · rw [if_pos hin, if_pos (by omega), show p + 1 + (j - (i + 1)) = p + (j - i) by omega]
      · rw [if_neg hin, if_neg (by omega)]

theorem readData_snd : (f.readData inode offset buf length).2 =
    min (f.nodeLength (f.getInodeAddr inode) - offset) length := by
  unfold readData
  dsimp only
  split_ifs with hend
  · rw [Nat.sub_eq_zero_of_le hend, Nat.zero_min]
  · rfl

theorem readData_fst : (f.readData inode offset buf length).1 j =
    if j < (f.readData inode offset buf length).2 then
      f.fileByte (f.getInodeAddr inode) (offset + j)
    else buf j := by
  unfold readData
  dsimp only
  by_cases hend : offset ≥ f.nodeLength (f.getInodeAddr inode)
  · rw [if_pos hend, if_neg (Nat.not_lt_zero j)]
  · rw [if_neg hend]
    refine readLoop_apply.trans ?_
    rw [Nat.zero_add, Nat.sub_zero]
    exact if_congr (and_iff_right (Nat.zero_le j)) rfl rfl

/-! ### On a well-formed image -/

/-- The variables are those `file_init` leaves for the image `img`, apart from `get_entry` and
`index`. -/
structure Mounts (f : Files) (img : Image) : Prop where
  stores : f.disk.Stores img
  bootBlock : f.bootBlock = (fileInit f.disk).bootBlock

namespace Mounts

variable {img : Image}

theorem inodeAddr (h : f.Mounts img) (hn : n < img.numInodes) :
    f.getInodeAddr n = f.disk.starter + (n + 1) * fourKilo := by
  have hfits := h.stores.fits
  exact Nat.mod_eq_of_lt (by unfold fourKilo at *; omega)

theorem blockAddr (h : f.Mounts img) (hn : n < img.numBlocks) :
    f.getBlockAddr n = f.disk.starter + (img.numInodes + 1 + n) * fourKilo := by
  have hfits := h.stores.fits
  have hnum : f.bootBlock.numInodes = img.numInodes := by
    rw [h.bootBlock]
    exact h.stores.numInodes
  rw [getBlockAddr, hnum, Nat.mod_eq_of_lt (by unfold fourKilo at *; omega)]
  unfold fourKilo
  omega

theorem nodeLength (h : f.Mounts img) (hn : n < img.numInodes) :
    f.nodeLength (f.getInodeAddr n) = (img.inodes n).length := by
  rw [h.inodeAddr hn]
  exact h.stores.length n hn

/-- The block with the position `p` of a file. -/
theorem nodeBlock (h : f.Mounts img) (hn : n < img.numInodes) (hp : p < (img.inodes n).length) :
    (img.inodes n).block (p / fourKilo) < img.numBlocks ∧
      f.nodeBlock (f.getInodeAddr n) (p / fourKilo) = (img.inodes n).block (p / fourKilo) := by
  have hmax := (img.inodes n).length_le
  have hdiv : fourKilo * (p / fourKilo) ≤ p := Nat.mul_div_le ..
  have hindex : p / 4096 < 1023 := by unfold maxLength at hmax; omega
  refine ⟨(img.inodes n).block_lt _ (Nat.lt_of_le_of_lt hdiv hp), ?_⟩
  rw [h.inodeAddr hn]
  exact h.stores.block n hn _ hindex

/-- The position `p` of a file names its byte `p`. -/
theorem fileByte (h : f.Mounts img) (hn : n < img.numInodes) (hp : p < (img.inodes n).length) :
    f.fileByte (f.getInodeAddr n) p =
      img.data ((img.inodes n).block (p / fourKilo)) (p % fourKilo) := by
  obtain ⟨hblock, hnode⟩ := h.nodeBlock hn hp
  rw [Files.fileByte, hnode, h.blockAddr hblock]
  exact h.stores.data _ hblock _ (Nat.mod_lt _ (by decide))

theorem readData_count (h : f.Mounts img) (hn : inode < img.numInodes) :
    (f.readData inode offset buf length).2 = min ((img.inodes inode).length - offset) length := by
  rw [readData_snd, h.nodeLength hn]

/-- What `read_data` leaves in the buffer: the bytes of the file from `offset` on, and behind them
what was there. -/
theorem readData_apply (h : f.Mounts img) (hn : inode < img.numInodes) (offset : ℕ)
    (buf : ℕ → UInt8) (length : ℕ) :
    ((List.range (f.readData inode offset buf length).2).map
      (f.readData inode offset buf length).1 = ((img.file inode).drop offset).take length) ∧
    ∀ j, (f.readData inode offset buf length).2 ≤ j →
      (f.readData inode offset buf length).1 j = buf j := by
  refine ⟨List.ext_getElem ?_ fun k hk hk' => ?_, fun j hj => ?_⟩
  · simp [h.readData_count hn, Nat.min_comm]
  · simp only [List.length_map, List.length_range] at hk
    have hcount : (f.readData inode offset buf length).2 =
        min ((img.inodes inode).length - offset) length := h.readData_count hn
    have hlen : offset + k < (img.inodes inode).length := by omega
    simp only [List.getElem_map, List.getElem_range, List.getElem_take, List.getElem_drop]
    rw [readData_fst, if_pos hk, h.fileByte hn hlen]
    simp [Image.file]
  · rw [readData_fst, if_neg (Nat.not_lt.2 hj)]

end Mounts

end Files

end KTeamOS
