import KTeamOS.Text.CString
import KTeamOS.Word.Basic

/-!
# The file system image

The image is a boot block, then one block of 4 KB for each inode, then the data blocks.  The kernel
reads it where the boot loader has put it, at `starter`, with addresses modulo `2 ^ 32`.

`Image` is the image as a format: directory entries, inodes and data blocks, with the bounds that
make it well formed as fields.  `Disk.Stores` says that the memory at `starter` holds an image.

## Main definitions

* `Files` : the variables of `file.c`, set up by `fileInit`.
* `Image`, `Image.file` : a well-formed image and the bytes of its files.
* `Disk.Stores` : an image in memory.
-/

namespace KTeamOS

/-- `FOURKILO` -/
abbrev fourKilo : ℕ := 4096

/-- The value of the four bytes of `b` from `a` on. -/
def le32 (b : ℕ → UInt8) (a : ℕ) : ℕ :=
  (b a).toNat + 2 ^ 8 * (b (a + 1)).toNat + 2 ^ 16 * (b (a + 2)).toNat +
    2 ^ 24 * (b (a + 3)).toNat

/-! ### Directory entries -/

/-- `dentry_t`, as its 64 bytes. -/
structure Dentry where
  byte : ℕ → UInt8

namespace Dentry

/-- The field `filename`; behind its 32 bytes comes `filetype`. -/
abbrev filename (d : Dentry) : ℕ → UInt8 := d.byte

/-- `filetype`, behind the name. -/
def filetype (d : Dentry) : ℕ := le32 d.byte 32

/-- `inode_num` -/
def inodeNum (d : Dentry) : ℕ := le32 d.byte 36

/-- The name of the entry: it ends at the first NUL, or fills the field. -/
def name (d : Dentry) : List UInt8 := field d.filename 32 0

/-- The entry of a file, rather than of the directory or of the RTC. -/
def Regular (d : Dentry) : Prop := d.filetype = 2

instance (d : Dentry) : Decidable d.Regular := inferInstanceAs (Decidable (_ = 2))

end Dentry

/-! ### The kernel's view -/

/-- The memory of the image. -/
structure Disk where
  byte : ℕ → UInt8
  starter : ℕ

/-- The byte at the address `a`. -/
def Disk.load (d : Disk) (a : ℕ) : UInt8 := d.byte (a % 2 ^ 32)

/-- `boot_t` -/
structure BootBlock where
  numDentries : ℕ
  numInodes : ℕ
  numBlocks : ℕ
  dentries : ℕ → Dentry

/-- The variables of `file.c`. -/
structure Files where
  disk : Disk
  bootBlock : BootBlock
  /-- Which entry of `boot_block` the pointer `get_entry` points to. -/
  getEntry : Option ℕ
  index : ℕ

/-- The 64 bytes that the loop of `file_init` copies into the entry `i`. -/
def Disk.dentry (d : Disk) (i : ℕ) : Dentry := ⟨fun j => d.load (d.starter + 64 * (i + 1) + j)⟩

/-- `file_init` -/
def fileInit (d : Disk) : Files where
  disk := d
  bootBlock :=
    { numDentries := le32 d.load d.starter
      numInodes := le32 d.load (d.starter + 4)
      numBlocks := le32 d.load (d.starter + 8)
      dentries := fun i => if i < le32 d.load d.starter then d.dentry i else ⟨fun _ => 0⟩ }
  getEntry := none
  index := 0

namespace Files

/-- The entry `get_entry` points to. -/
def entry (f : Files) : Option Dentry := f.getEntry.map f.bootBlock.dentries

/-- `get_block_addr`, in 32 bits. -/
def getBlockAddr (f : Files) (blockNum : ℕ) : ℕ :=
  (f.disk.starter + fourKilo * (f.bootBlock.numInodes + 1) + blockNum * fourKilo) % 2 ^ 32

/-- `get_inode_addr`, in 32 bits. -/
def getInodeAddr (f : Files) (nodeNum : ℕ) : ℕ :=
  (f.disk.starter + (nodeNum + 1) * fourKilo) % 2 ^ 32

/-- `node->length` -/
def nodeLength (f : Files) (node : ℕ) : ℕ := le32 f.disk.load node

/-- `node->block[k]` -/
def nodeBlock (f : Files) (node k : ℕ) : ℕ := le32 f.disk.load (node + 4 + 4 * k)

end Files

/-! ### The format -/

/-- The largest file: the blocks of one inode. -/
abbrev maxLength : ℕ := 1023 * 4096

/-- An inode of an image with `numBlocks` data blocks. -/
structure Inode (numBlocks : ℕ) where
  length : ℕ
  block : ℕ → ℕ
  length_le : length ≤ maxLength
  /-- The blocks with bytes of the file are data blocks of the image. -/
  block_lt : ∀ k, fourKilo * k < length → block k < numBlocks

/-- A well-formed image. -/
structure Image where
  numDentries : ℕ
  numInodes : ℕ
  numBlocks : ℕ
  dentries : ℕ → Dentry
  inodes : ℕ → Inode numBlocks
  /-- The byte `j` of the data block `b` is `data b j`. -/
  data : ℕ → ℕ → UInt8
  numDentries_le : numDentries ≤ 63
  /-- The entry of a file names an inode of the image. -/
  inode_lt : ∀ i < numDentries, (dentries i).Regular → (dentries i).inodeNum < numInodes

/-- The bytes of the file with the inode `n`. -/
def Image.file (img : Image) (n : ℕ) : List UInt8 :=
  (List.range (img.inodes n).length).map
    fun k => img.data ((img.inodes n).block (k / fourKilo)) (k % fourKilo)

@[simp] theorem Image.file_length {img : Image} {n : ℕ} :
    (img.file n).length = (img.inodes n).length := by
  simp [Image.file]

/-- The memory at `starter` holds the image `img`. -/
structure Disk.Stores (d : Disk) (img : Image) : Prop where
  numDentries : le32 d.load d.starter = img.numDentries
  numInodes : le32 d.load (d.starter + 4) = img.numInodes
  numBlocks : le32 d.load (d.starter + 8) = img.numBlocks
  dentry : ∀ i < img.numDentries, ∀ j < 64, (d.dentry i).byte j = (img.dentries i).byte j
  length : ∀ n < img.numInodes,
    le32 d.load (d.starter + (n + 1) * fourKilo) = (img.inodes n).length
  block : ∀ n < img.numInodes, ∀ k < 1023,
    le32 d.load (d.starter + (n + 1) * fourKilo + 4 + 4 * k) = (img.inodes n).block k
  data : ∀ b < img.numBlocks, ∀ j < fourKilo,
    d.load (d.starter + (img.numInodes + 1 + b) * fourKilo + j) = img.data b j
  /-- The image ends before the address space does. -/
  fits : d.starter + (img.numInodes + 1 + img.numBlocks) * fourKilo ≤ 2 ^ 32

end KTeamOS
