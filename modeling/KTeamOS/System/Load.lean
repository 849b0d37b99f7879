import KTeamOS.File.Access
import KTeamOS.System.Lookup
import KTeamOS.System.Step

/-!
# Loading a program

`execute` with the contents of the user pages.  Whatever the length of the file, it reads 40 KB of
it to `0x08048000`, and takes the entry point from the first 40 bytes, which it has read to its
stack.  Behind the 40 KB the page keeps what an earlier program left in its frame.

## Main definitions

* `Kernel.executeLoad` : `execute` together with the pages.
* `LoadsWhole` : the file is in the page, and its entry point in the block.
-/

namespace KTeamOS

/-- `SHELL_DATA` -/
abbrev shellData : ℕ := 40 * 1024

/-- `SHELL_LOAD` -/
abbrev shellLoad : ℕ := 0x08048000

/-- The offset of `SHELL_LOAD` in its page of 4 MB. -/
abbrev shellOffset : ℕ := shellLoad % 2 ^ 22

/-- `EXE_IDX` -/
abbrev exeIdx : ℕ := 32

/-- The contents of the frames of 4 MB, by frame and offset. -/
abbrev Pages : Type := ℕ → ℕ → UInt8

/-- `file_read(-1, SHELL_LOAD, SHELL_DATA)`, on the page that is mapped there. -/
def loadPage (f : Files) (e : Dentry) (page : ℕ → UInt8) (a : ℕ) : UInt8 :=
  if shellOffset ≤ a then
    (f.readData e.inodeNum 0 (fun j => page (shellOffset + j)) shellData).1 (a - shellOffset)
  else page a

namespace Kernel

/-- `execute`, with the user pages: the state and the pages afterwards. -/
def executeLoad (k : Kernel) (caller : Ctx) (command : CString) (stale : Stale) (pages : Pages) :
    Option ((Kernel × Option ℤ) × Pages) := do
  let k ← k.setArgs command
  if k.pidMax ≥ 6 then some ((k, some 256), pages)
  else
    match k.files.fileOpen command.word.mem with
    | none => some ((k, some (-1)), pages)
    | some f => do
      let k := { k with files := f }
      let buffer ← header f stale.buffer
      if Magic buffer then do
        let e ← f.entry
        let frame := pageOf4mb k.pidMax
        some ((k.startProcess caller (le32 buffer 24) stale.pcb, none),
          Function.update pages frame (loadPage f e (pages frame)))
      else some ((k, some (-1)), pages)

/-- The byte at the virtual address `a`, in the page at 128 MB. -/
def userByte (k : Kernel) (pages : Pages) (a : ℕ) : Option UInt8 :=
  if a / 2 ^ 22 = exeIdx then k.exePage.map fun frame => pages frame (a % 2 ^ 22) else none

/-- The block of the process that was started last. -/
def newest (k : Kernel) : Pcb := k.pcb (pcbAddr k.pidMax)

end Kernel

/-- The largest file for which the page has room. -/
abbrev pageRoom : ℕ := 2 ^ 22 - shellOffset

/-- The user page holds the file, as far as one page has room for it, and the new process is entered
at the word in the bytes 24 to 27 of the file. -/
structure LoadsWhole (k : Kernel) (pages : Pages) (file : List UInt8) : Prop where
  page : file.length ≤ pageRoom → ∀ j < file.length, k.userByte pages (shellLoad + j) = file[j]?
  header : 28 ≤ file.length
  entry : k.newest.entryPoint = le32 (fun j => file.getD j 0) 24

namespace Files

variable {f : Files} {a : CString} {i : ℕ}

/-- The first entry with a name is the one that is found. -/
theorem FirstNamed.fileOpen (h : f.FirstNamed a i) :
    f.fileOpen a.mem = some { f with getEntry := some i } := by
  have hentry : f.HasEntry a := ⟨i, h.lt, h.name⟩
  have hcmp : ∀ j, compare a.mem (f.bootBlock.dentries j).filename = true ↔
      (f.bootBlock.dentries j).name = a.chars := fun j => by
    rw [compare_iff, or_iff_left hentry.not_overlong]
    exact eq_comm
  refine Option.map_eq_some_iff.2 ⟨i, ?_, rfl⟩
  refine List.find?_range_eq_some.2 ⟨(hcmp i).2 h.name, List.mem_range.2 h.lt, fun j hj => ?_⟩
  rw [Bool.not_eq_true', Bool.eq_false_iff]
  exact fun hfound => h.first j hj ((hcmp j).1 hfound)

end Files

namespace Kernel

variable {k k' : Kernel} {c : Ctx} {command : CString} {stale : Stale} {pages pages' : Pages}
  {x : Pcb} {r : Option ℤ} {n i j : ℕ} {img : Image}

/-- Without the pages it is `execute`. -/
theorem executeLoad_fst : (k.executeLoad c command stale pages).map Prod.fst =
    k.execute c command stale := by
  unfold executeLoad execute
  rcases k.setArgs command with _ | k₁
  · rfl
  · simp only [Option.bind_eq_bind, Option.bind_some]
    by_cases hfull : k₁.pidMax ≥ 6
    · rw [if_pos hfull, if_pos hfull]
      rfl
    · rw [if_neg hfull, if_neg hfull]
      rcases k₁.files.fileOpen command.word.mem with _ | f
      · rfl
      · unfold header
        rcases hentry : f.entry with _ | e
        · simp only [hentry, Option.map_none, Option.bind_none]
        · simp only [hentry, Option.map_some, Option.bind_some]
          split_ifs <;> rfl

theorem adopt_entryPoint {a : ℕ} {o : Option ℕ} :
    ((k.adopt c a o x).pcb a).entryPoint = x.entryPoint := by
  rcases o with _ | q
  · simp [adopt, setPcb]
  · by_cases hq : a = q
    · subst hq
      simp [adopt, setPcb]
    · simp [adopt, setPcb, Function.update_of_ne hq]

theorem initDescs_entryPoint : x.initDescs.entryPoint = x.entryPoint := by
  have hfree : ∀ (y : Pcb) n, (y.freeDescs n).entryPoint = y.entryPoint := by
    intro y n
    induction n with
    | zero => rfl
    | succ n ih => exact ih
  exact hfree _ 6

theorem startProcess_entryPoint : (k.startProcess c n x).newest.entryPoint = n := by
  unfold newest
  rw [startProcess_pidMax, startProcess_pcb rfl, Function.update_self, initDescs_entryPoint,
    adopt_entryPoint]
  rfl

/-- What a call that enters user code has done. -/
theorem executeLoad_enters (hfirst : k.files.FirstNamed command.word i)
    (h : k.executeLoad c command stale pages = some ((k', none), pages')) :
    k'.exePage = some (pageOf4mb k.pidMax) ∧
      k'.newest.entryPoint =
        le32 (k.files.readData (k.files.bootBlock.dentries i).inodeNum 0 stale.buffer 40).1 24 ∧
      pages' = Function.update pages (pageOf4mb k.pidMax)
        (loadPage k.files (k.files.bootBlock.dentries i) (pages (pageOf4mb k.pidMax))) := by
  have hread : ({ k.files with getEntry := some i } : Files).readData = k.files.readData :=
    Files.readData_congr ⟨rfl, rfl⟩
  have hentry : ({ k.files with getEntry := some i } : Files).entry =
      some (k.files.bootBlock.dentries i) := rfl
  have hload : ∀ e, loadPage { k.files with getEntry := some i } e = loadPage k.files e := by
    intro e
    funext page a
    unfold loadPage
    rw [hread]
  unfold executeLoad at h
  obtain ⟨k₁, hargs, h⟩ := Option.bind_eq_some_iff.1 h
  obtain ⟨hfiles, hmax⟩ : k₁.files = k.files ∧ k₁.pidMax = k.pidMax := by
    unfold setArgs at hargs
    split_ifs at hargs
    all_goals
      cases hargs
      exact ⟨rfl, rfl⟩
  rw [hfiles, hfirst.fileOpen] at h
  by_cases hfull : k₁.pidMax ≥ 6
  · -- no process is left, and the call returns
    rw [if_pos hfull] at h
    cases h
  · rw [if_neg hfull] at h
    simp only [Option.bind_eq_bind, header, hentry, hread, Option.map_some, Option.bind_some] at h
    split_ifs at h
    · cases h
      refine ⟨?_, startProcess_entryPoint, ?_⟩
      · rw [startProcess_exePage, hmax]
      · rw [hmax, hload]
    · cases h

/-- The byte `j` of a file that fits the page: one of the first 40 KB is the one of the file, and
behind them the page is as it was. -/
theorem userByte_loaded (hmount : k.files.Mounts img) (hfirst : k.files.FirstNamed command.word i)
    (hreg : (k.files.bootBlock.dentries i).Regular)
    (h : k.executeLoad c command stale pages = some ((k', none), pages'))
    (hj : j < (img.file (k.files.bootBlock.dentries i).inodeNum).length) (hroom : j < pageRoom) :
    k'.userByte pages' (shellLoad + j) =
      if j < shellData then (img.file (k.files.bootBlock.dentries i).inodeNum)[j]?
      else some (pages (pageOf4mb k.pidMax) (shellOffset + j)) := by
  obtain ⟨hpage, -, rfl⟩ := executeLoad_enters hfirst h
  have hn := hmount.inode_lt hfirst.lt hreg
  simp only [pageRoom, shellOffset, shellLoad] at hroom
  have hidx : (shellLoad + j) / 2 ^ 22 = exeIdx := by
    simp only [shellLoad, exeIdx]
    omega
  have hoff : (shellLoad + j) % 2 ^ 22 = shellOffset + j := by
    simp only [shellLoad, shellOffset]
    omega
  generalize (k.files.bootBlock.dentries i) = e at *
  rw [Image.file_length] at hj
  rw [userByte, if_pos hidx, hpage, hoff, Option.map_some, Function.update_self, loadPage,
    if_pos (Nat.le_add_right ..), Nat.add_sub_cancel_left, Files.readData_fst,
    hmount.readData_count hn, Nat.sub_zero, Nat.zero_add]
  -- `read_data` copies up to 40 KB and leaves the rest of the page
  by_cases hlt : j < shellData
  · rw [if_pos (Nat.lt_min.2 ⟨hj, hlt⟩), if_pos hlt, hmount.fileByte hn hj]
    simp [Image.file, hj]
  · rw [if_neg fun hmin => hlt (Nat.lt_min.1 hmin).2, if_neg hlt]

/-- **`execute` loads the whole file** exactly if the file has a header, and the page already holds
what is behind its first 40 KB. -/
theorem loadsWhole_iff (hmount : k.files.Mounts img) (hfirst : k.files.FirstNamed command.word i)
    (hreg : (k.files.bootBlock.dentries i).Regular)
    (h : k.executeLoad c command stale pages = some ((k', none), pages')) :
    LoadsWhole k' pages' (img.file (k.files.bootBlock.dentries i).inodeNum) ↔
      28 ≤ (img.file (k.files.bootBlock.dentries i).inodeNum).length ∧
      ((img.file (k.files.bootBlock.dentries i).inodeNum).length ≤ pageRoom →
        ∀ j, shellData ≤ j → j < (img.file (k.files.bootBlock.dentries i).inodeNum).length →
          (img.file (k.files.bootBlock.dentries i).inodeNum)[j]? =
            some (pages (pageOf4mb k.pidMax) (shellOffset + j))) := by
  have hbyte := fun j => userByte_loaded (j := j) hmount hfirst hreg h
  obtain ⟨-, hentry, -⟩ := executeLoad_enters hfirst h
  have hn := hmount.inode_lt hfirst.lt hreg
  generalize hfile : img.file (k.files.bootBlock.dentries i).inodeNum = file at *
  constructor
  · intro hload
    refine ⟨hload.header, fun hroom j hj hlt => ?_⟩
    rw [← hload.page hroom j hlt, hbyte j hlt (by omega), if_neg (Nat.not_lt.2 hj)]
  · intro ⟨hheader, hrest⟩
    refine ⟨fun hroom j hlt => ?_, hheader, ?_⟩
    · rw [hbyte j hlt (by omega)]
      by_cases hj : j < shellData
      · rw [if_pos hj]
      · rw [if_neg hj, hrest hroom j (Nat.le_of_not_lt hj) hlt]
    · rw [hentry]
      -- the four bytes are in the header, and so in the file
      refine le32_congr (n := 28) (fun j hj => ?_) (by decide)
      have hlt : j < (img.inodes (k.files.bootBlock.dentries i).inodeNum).length := by
        rw [← Image.file_length, hfile]
        omega
      rw [Files.readData_fst, hmount.readData_count hn, if_pos (Nat.lt_min.2 ⟨by omega, by omega⟩),
        Nat.zero_add, hmount.fileByte hn hlt, ← hfile]
      simp [Image.file, hlt]

/-- A memory with an image of one program, which is one byte longer than 40 KB. -/
def longDisk : Disk where
  byte a :=
    if a = 0 ∨ a = 4 then 1
    else if a = 8 then 11
    else if a = 64 then 0x61
    else if a = 96 then 2
    else if a = 4096 then 1
    else if a = 4097 then 0xA0
    else if 4100 ≤ a ∧ a < 4144 ∧ a % 4 = 0 then UInt8.ofNat ((a - 4100) / 4)
    else if a < 8192 then 0
    else [0x7F, 0x45, 0x4C, 0x46].getD (a - 8192) 1
  starter := 0

theorem one_le_dentries : 1 ≤ 63 := by decide

/-- The image in it. -/
def longImage : Image where
  numDentries := 1
  numInodes := 1
  numBlocks := 11
  dentries := longDisk.dentry
  inodes _ :=
    { length := 40961
      block := fun k => le32 longDisk.load (4096 + 4 + 4 * k)
      length_le := by decide
      block_lt := fun k hk => by
        have hk' : k < 11 := by unfold fourKilo at hk; omega
        have hall : ∀ k < 11, le32 longDisk.load (4096 + 4 + 4 * k) < 11 := by decide +kernel
        exact hall k hk' }
  data b j := longDisk.load (4096 * (2 + b) + j)
  numDentries_le := one_le_dentries
  inode_lt i hi _ := by
    obtain rfl : i = 0 := Nat.lt_one_iff.1 hi
    decide

theorem longDisk_stores : longDisk.Stores longImage where
  numDentries := by decide
  numInodes := by decide
  numBlocks := by decide
  dentry _ _ _ _ := rfl
  length n hn := by
    obtain rfl : n = 0 := by change n < 1 at hn; omega
    decide +kernel
  block n hn k _ := by
    obtain rfl : n = 0 := by change n < 1 at hn; omega
    rfl
  data b hb j _ := by
    change longDisk.load (0 + (1 + 1 + b) * 4096 + j) = longDisk.load (4096 * (2 + b) + j)
    rw [show 0 + (1 + 1 + b) * 4096 + j = 4096 * (2 + b) + j by omega]
  fits := by
    change 0 + (1 + 1 + 11) * 4096 ≤ 2 ^ 32
    omega

/-- Its name. -/
def longName : CString := Lookups.aName

/-- The first process runs it, in a page that is blank. -/
theorem executeLoad_long : ∃ k' pages', (init longDisk).executeLoad .spin longName zeroStack
    (fun _ _ => 0) = some ((k', none), pages') := by
  have hsome : ((init longDisk).executeLoad .spin longName zeroStack fun _ _ => 0).map
      (fun r => r.1.2) = some none := by
    decide +kernel
  obtain ⟨⟨⟨k', r⟩, pages'⟩, hexec, hr⟩ := Option.map_eq_some_iff.1 hsome
  exact ⟨k', pages', by rw [hexec, show r = none from hr]⟩

theorem mounts_long : (init longDisk).files.Mounts longImage := ⟨longDisk_stores, rfl⟩

theorem firstNamed_long : (init longDisk).files.FirstNamed longName.word 0 :=
  ⟨by decide, by decide +kernel, fun j hj => absurd hj (Nat.not_lt_zero j)⟩

theorem loadsWhole_iff_long : ∃ k' pages', (init longDisk).executeLoad .spin longName zeroStack
      (fun _ _ => 0) = some ((k', none), pages') ∧
    (LoadsWhole k' pages' (longImage.file ((init longDisk).files.bootBlock.dentries 0).inodeNum) ↔
      28 ≤ (longImage.file ((init longDisk).files.bootBlock.dentries 0).inodeNum).length ∧
      ((longImage.file ((init longDisk).files.bootBlock.dentries 0).inodeNum).length ≤ pageRoom →
        ∀ j, shellData ≤ j →
          j < (longImage.file ((init longDisk).files.bootBlock.dentries 0).inodeNum).length →
          (longImage.file ((init longDisk).files.bootBlock.dentries 0).inodeNum)[j]? =
            some ((fun _ _ => 0 : Pages) (pageOf4mb (init longDisk).pidMax)
              (shellOffset + j)))) := by
  obtain ⟨k', pages', hexec⟩ := executeLoad_long
  exact ⟨k', pages', hexec,
    loadsWhole_iff mounts_long firstNamed_long (by decide +kernel) hexec⟩

/-- The last byte of the program is not loaded. -/
theorem not_loadsWhole : ¬ ∀ (k : Kernel) (img : Image) (c : Ctx) (command : CString)
    (stale : Stale) (pages : Pages) (i : ℕ) (k' : Kernel) (pages' : Pages), k.files.Mounts img →
    k.files.FirstNamed command.word i → (k.files.bootBlock.dentries i).Regular →
    Magic (fun j => (img.file (k.files.bootBlock.dentries i).inodeNum).getD j 0) →
    k.executeLoad c command stale pages = some ((k', none), pages') →
    LoadsWhole k' pages' (img.file (k.files.bootBlock.dentries i).inodeNum) := by
  intro hall
  obtain ⟨k', pages', hexec⟩ := executeLoad_long
  have hregular : ((init longDisk).files.bootBlock.dentries 0).Regular := by decide +kernel
  have hlength : (longImage.file
      ((init longDisk).files.bootBlock.dentries 0).inodeNum).length = 40961 := Image.file_length
  have hbyte : ∀ j, j < 40961 →
      (longImage.file ((init longDisk).files.bootBlock.dentries 0).inodeNum)[j]? =
        some (longDisk.load (4096 * (2 + le32 longDisk.load (4096 + 4 + 4 * (j / 4096))) +
          j % 4096)) := by
    intro j hj
    have hlt : j < (longImage.inodes
      ((init longDisk).files.bootBlock.dentries 0).inodeNum).length := hj
    simp only [Image.file, List.getElem?_map, List.getElem?_range hlt, Option.map_some]
    rfl
  have hmagic : Magic fun j =>
      (longImage.file ((init longDisk).files.bootBlock.dentries 0).inodeNum).getD j 0 := by
    simp only [Magic, List.getD_eq_getElem?_getD]
    rw [hbyte 0 (by decide), hbyte 1 (by decide), hbyte 2 (by decide), hbyte 3 (by decide)]
    decide +kernel
  have hload := hall _ _ _ _ _ _ _ _ _ mounts_long firstNamed_long hregular hmagic hexec
  have hlast := hload.page (by rw [hlength]; decide) 40960 (by rw [hlength]; decide)
  rw [userByte_loaded mounts_long firstNamed_long hregular hexec (by rw [hlength]; decide)
    (by decide), if_neg (by decide), hbyte 40960 (by decide)] at hlast
  have hne : longDisk.load (4096 * (2 + le32 longDisk.load (4096 + 4 + 4 * (40960 / 4096))) +
      40960 % 4096) = 1 := by decide +kernel
  rw [hne] at hlast
  exact absurd hlast (by decide)

end Kernel

end KTeamOS
