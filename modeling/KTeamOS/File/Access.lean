import KTeamOS.File.Session

/-!
# What `read_data` reads

The addresses from which the `memcpy` in the loop of `read_data` copies.  The loop moves on to the
next block also behind the last byte of a block that ends the file or the request; it then looks up
an address there, and does not use it.  On a well-formed image the addresses used are those of bytes
of the file (`readData_exact`).
-/

namespace KTeamOS

namespace Files

/-- The addresses that the last `n` turns of the loop of `read_data` copy from. -/
def readLoopSources (f : Files) (node : ℕ) :
    (n blockAddr blockOffset blockIndex : ℕ) → List ℕ
  | 0, _, _, _ => []
  | n + 1, blockAddr, blockOffset, blockIndex =>
    (blockAddr + blockOffset) ::
      if blockOffset + 1 ≥ fourKilo then
        f.readLoopSources node n (f.getBlockAddr (f.nodeBlock node (blockIndex + 1))) 0
          (blockIndex + 1)
      else f.readLoopSources node n blockAddr (blockOffset + 1) blockIndex

/-- The addresses that `read_data` copies from. -/
def readDataSources (f : Files) (inode offset length : ℕ) : List ℕ :=
  let node := f.getInodeAddr inode
  let fileLength := f.nodeLength node
  let blockOffset := offset % fourKilo
  let blockIndex := offset / fourKilo
  if offset ≥ fileLength then []
  else
    f.readLoopSources node (min (fileLength - offset) length)
      (f.getBlockAddr (f.nodeBlock node blockIndex)) blockOffset blockIndex

/-- The address that the position `p` of the file with the inode at `node` names. -/
def fileAddr (f : Files) (node p : ℕ) : ℕ :=
  f.getBlockAddr (f.nodeBlock node (p / fourKilo)) + p % fourKilo

variable {f : Files} {img : Image} {node n p inode offset length : ℕ} {buf : ℕ → UInt8}

/-- The addresses are those of one position after the other. -/
theorem readLoopSources_eq :
    f.readLoopSources node n (f.getBlockAddr (f.nodeBlock node (p / fourKilo))) (p % fourKilo)
      (p / fourKilo) = (List.range' p n).map (f.fileAddr node) := by
  induction n generalizing p with
  | zero => rfl
  | succ n ih =>
    rw [readLoopSources, List.range'_succ, List.map_cons, ← ih]
    obtain ⟨hblock, hindex, hoffset⟩ | ⟨hblock, hindex, hoffset⟩ := next_position p
    · rw [if_pos hblock, hindex, hoffset]
      rfl
    · rw [if_neg hblock, hindex, hoffset]
      rfl

theorem readDataSources_eq (buf : ℕ → UInt8) : f.readDataSources inode offset length =
    (List.range' offset (f.readData inode offset buf length).2).map
      (f.fileAddr (f.getInodeAddr inode)) := by
  rw [readData_snd, readDataSources]
  by_cases hend : offset ≥ f.nodeLength (f.getInodeAddr inode)
  · rw [if_pos hend, Nat.sub_eq_zero_of_le hend, Nat.zero_min]
    rfl
  · rw [if_neg hend]
    exact readLoopSources_eq

/-- These are the loads of the loop: the bytes that `read_data` delivers are those at its sources,
one after the other. -/
theorem readDataSources_load (buf : ℕ → UInt8) :
    (f.readDataSources inode offset length).map f.disk.load =
      (List.range (f.readData inode offset buf length).2).map
        (f.readData inode offset buf length).1 := by
  rw [readDataSources_eq buf, List.map_map, List.range'_eq_map_range, List.map_map]
  refine List.map_congr_left fun k hk => ?_
  rw [readData_fst, if_pos (List.mem_range.1 hk)]
  rfl

/-- `a` is the address of the byte `p` of the file with the inode `n`: it lies in the data block
that the inode lists for it. -/
structure Holds (f : Files) (img : Image) (n p a : ℕ) : Prop where
  inFile : p < (img.inodes n).length
  dataBlock : (img.inodes n).block (p / fourKilo) < img.numBlocks
  addr : a = f.disk.starter +
    (img.numInodes + 1 + (img.inodes n).block (p / fourKilo)) * fourKilo + p % fourKilo

theorem Mounts.fileAddr (h : f.Mounts img) (hn : n < img.numInodes)
    (hp : p < (img.inodes n).length) : f.Holds img n p (f.fileAddr (f.getInodeAddr n) p) := by
  obtain ⟨hblock, hnode⟩ := h.nodeBlock hn hp
  refine ⟨hp, hblock, ?_⟩
  rw [Files.fileAddr, hnode, h.blockAddr hblock]

/-- `read_data` delivers what lies between `offset` and the end of the file, as far as it is asked
for, and reads nothing else. -/
structure ReadsExactly (f : Files) (img : Image) (inode offset : ℕ) (buf : ℕ → UInt8)
    (length : ℕ) : Prop where
  count : (f.readData inode offset buf length).2 =
    min length ((img.inodes inode).length - offset)
  bytes : ∀ k < (f.readData inode offset buf length).2,
    (img.file inode)[offset + k]? = some ((f.readData inode offset buf length).1 k)
  rest : ∀ k, (f.readData inode offset buf length).2 ≤ k →
    (f.readData inode offset buf length).1 k = buf k
  sources : ∀ a ∈ f.readDataSources inode offset length,
    ∃ p, offset ≤ p ∧ p < offset + (f.readData inode offset buf length).2 ∧ f.Holds img inode p a

/-- **Reading a file.**  On a well-formed image `read_data` is right for every offset and length. -/
theorem readData_exact (h : f.Mounts img) (hn : inode < img.numInodes) (offset length : UInt32)
    (buf : ℕ → UInt8) : f.ReadsExactly img inode offset.toNat buf length.toNat := by
  have hcount : (f.readData inode offset.toNat buf length.toNat).2 =
      min length.toNat ((img.inodes inode).length - offset.toNat) := by
    rw [h.readData_count hn, Nat.min_comm]
  obtain ⟨hbytes, hrest⟩ := h.readData_apply hn offset.toNat buf length.toNat
  refine ⟨hcount, fun k hk => ?_, hrest, fun a ha => ?_⟩
  · have hlt : offset.toNat + k < (img.file inode).length := by
      rw [Image.file_length]
      omega
    have hbyte : (f.readData inode offset.toNat buf length.toNat).1 k =
        (img.file inode)[offset.toNat + k] := by
      rw [readData_fst, if_pos hk, h.fileByte hn (by simpa using hlt)]
      simp [Image.file]
    rw [List.getElem?_eq_getElem hlt, hbyte]
  · rw [readDataSources_eq buf] at ha
    obtain ⟨p, hp, rfl⟩ := List.mem_map.1 ha
    rw [List.mem_range'_1] at hp
    exact ⟨p, hp.1, hp.2, h.fileAddr hn (by omega)⟩

/-- The end of a file of five bytes. -/
theorem readData_exact_small : (fileInit FileSys.smallDisk).ReadsExactly FileSys.smallImage 0
    (3 : UInt32).toNat (fun _ => 0) (4000000000 : UInt32).toNat :=
  readData_exact ⟨FileSys.smallDisk_stores, rfl⟩ (by decide) 3 4000000000 fun _ => 0

end Files

end KTeamOS
