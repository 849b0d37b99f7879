import Mathlib.Order.Bounds.Basic
import KTeamOS.LTS.Basic
import KTeamOS.File.Name
import KTeamOS.File.Read

/-!
# File descriptors

The system calls on file descriptors, and the machine of several processes that make them.  Only
regular files are read here.

`OpenMeets` and `CloseMeets` say what the calls are for, on the table of descriptors as a whole:
an allocator of the six slots 2 to 7.  `open` meets its purpose except for the names that the
lookup finds although no entry has them (`call_meets_iff`).
-/

namespace KTeamOS

/-- The names that are not looked up. -/
def dotName : CString := ⟨[0x2E], by decide⟩

/-- The name of the clock, which `open` checks for. -/
def rtcName : CString := ⟨[0x72, 0x74, 0x63], by decide⟩

/-! ### The calls -/

namespace Pcb

/-- The loop of `open`. -/
def freeFd (p : Pcb) : Option ℕ := (List.range' 2 6).find? fun fd => (p.fileDesc fd).flags = 0

end Pcb

namespace Files

/-- There is no result when `get_entry` is `NULL`. -/
def updateInode (f : Files) (p : Pcb) (fd : ℕ) : Option Pcb :=
  f.entry.map fun e => p.setDesc fd { p.fileDesc fd with inode := e.inodeNum }

/-- `open`: the variables and the block afterwards, and what it returns. -/
def sysOpen (f : Files) (p : Pcb) (filename : ℕ → UInt8) : Option (Files × Pcb × ℤ) :=
  match p.freeFd with
  | none => some (f, p, -1)
  | some fd =>
    if compare filename dotName.mem then some (f, (p.setFops fd .dir).setFlags fd 1, fd)
    else if compare filename rtcName.mem then some (f, (p.setFops fd .rtc).setFlags fd 1, fd)
    else
      match f.fileOpen filename with
      | none => some (f, p, -1)
      | some f => do
        let p ← f.updateInode p fd
        let p := (p.setFops fd .file).setFlags fd 1
        some (f, p.setDesc fd { p.fileDesc fd with filePos := 0 }, fd)

/-- The `close` of an operation table. -/
def closeOp (f : Files) : Ops → Files × ℤ
  | .stdin | .stdout => (f, -1)
  | .rtc | .file => (f, 0)
  | .dir => ({ f with index := 0 }, 0)

/-- `close` -/
def sysClose (f : Files) (p : Pcb) (fd : ℤ) : Files × Pcb × ℤ :=
  if fd < 2 ∨ fd > 7 then (f, p, -1)
  else if (p.fileDesc fd.toNat).flags = 0 then (f, p, -1)
  else
    let (f, val) := f.closeOp (p.fileDesc fd.toNat).fops
    if val = -1 then (f, p, -1)
    else (f, { p.setFlags fd.toNat 0 with currFd := sub32 p.currFd 1 }, val)

/-- `read` of at least 0 bytes, where it reads a file. -/
def sysRead (f : Files) (p : Pcb) (fd : ℤ) (buf : ℕ → UInt8) (nbytes : ℕ) :
    Option (Pcb × (ℕ → UInt8) × ℤ) :=
  if fd < 0 ∨ fd > 7 then some (p, buf, -1)
  else if (p.fileDesc fd.toNat).flags = 0 then some (p, buf, -1)
  else if (p.fileDesc fd.toNat).fops = .file then
    (f.fileRead p fd buf nbytes).map fun r => (r.1, r.2.1, r.2.2)
  else none

end Files

/-! ### The machine -/

/-- What has been read from a file since it was opened. -/
structure Session where
  inode : ℕ
  requested : ℕ
  delivered : List UInt8

namespace Session

/-- The session of a descriptor that has just been opened. -/
def new (f : Files) (p : Pcb) (fd : ℕ) : Option Session :=
  if (p.fileDesc fd).fops = .file then
    f.entry.bind fun e => if e.Regular then some ⟨e.inodeNum, 0, []⟩ else none
  else none

/-- The session `x` after a call that asked for `n` bytes and has put `val` bytes into `buf`. -/
def after (x : Session) (n : ℕ) (buf : ℕ → UInt8) (val : ℕ) : Session where
  inode := x.inode
  requested := x.requested + n
  delivered := x.delivered ++ (List.range val).map buf

end Session

/-- The file system with the processes that use it. -/
structure FileSys where
  files : Files
  /-- `term[term_pit].pcb_live` -/
  live : ℕ
  /-- The blocks, by address. -/
  pcbs : ℕ → Pcb
  /-- Not part of the source: for each descriptor of each block that was opened on a regular file,
  what has been read from it. -/
  sessions : ℕ → ℕ → Option Session

/-- The calls of the running process, and the switch to another one. -/
inductive FileCall
  | run (p : ℕ)
  | openName (name : CString)
  | close (fd : ℤ)
  | read (fd : ℤ) (buf : ℕ → UInt8) (nbytes : ℕ)

namespace FileSys

/-- The block of the running process. -/
abbrev pcb (s : FileSys) : Pcb := s.pcbs s.live

/-- What a call of the running process leaves. -/
def returned (s : FileSys) (f : Files) (p : Pcb) : FileSys :=
  { s with
    files := f
    pcbs := Function.update s.pcbs s.live p }

/-- Another session for a descriptor of the process that runs. -/
def setSession (s : FileSys) (fd : ℕ) (x : Option Session) : FileSys :=
  { s with
    sessions := Function.update s.sessions s.live (Function.update (s.sessions s.live) fd x) }

end FileSys

/-- Processes that share the file system. -/
def fileMachine : Machine FileSys FileCall where
  step s
    | .run p => some { s with live := p }
    | .openName name => do
      let (f, p, fd) ← s.files.sysOpen s.pcb name.mem
      some (if fd = -1 then s.returned f p
        else (s.returned f p).setSession fd.toNat (Session.new f p fd.toNat))
    | .close fd =>
      let (f, p, val) := s.files.sysClose s.pcb fd
      some (if val = -1 then s.returned f p else (s.returned f p).setSession fd.toNat none)
    | .read fd buf n => do
      let (p, buf, val) ← s.files.sysRead s.pcb fd buf n
      some (if val = -1 then s.returned s.files p
        else (s.returned s.files p).setSession fd.toNat
          ((s.sessions s.live fd.toNat).map fun x => x.after n buf val.toNat))

/-! ### What the calls do -/

namespace Pcb

/-- The descriptor `fd` is one of the six that `open` gives out, and not in use. -/
def Unused (p : Pcb) (fd : ℕ) : Prop := 2 ≤ fd ∧ fd < 8 ∧ (p.fileDesc fd).flags = 0

variable {p : Pcb} {fd : ℕ}

theorem isLeast_freeFd (h : p.freeFd = some fd) : IsLeast {fd | p.Unused fd} fd := by
  obtain ⟨hfree, hmem, hbefore⟩ := List.find?_range'_eq_some.1 h
  rw [List.mem_range'_1] at hmem
  refine ⟨⟨hmem.1, by omega, by simpa using hfree⟩, fun fd' hfd' => Nat.le_of_not_lt fun hlt => ?_⟩
  have hused := hbefore fd' hfd'.1 hlt
  simp [hfd'.2.2] at hused

theorem freeFd_eq_none : p.freeFd = none ↔ ∀ fd, ¬ p.Unused fd := by
  rw [freeFd, List.find?_range'_eq_none]
  constructor
  · rintro h fd ⟨h₁, h₂, h₀⟩
    have hused := h fd h₁ (by omega)
    simp [h₀] at hused
  · intro h fd h₁ h₂
    have hused : ¬ (p.fileDesc fd).flags = 0 := fun h₀ => h fd ⟨h₁, by omega, h₀⟩
    simpa using hused

end Pcb

theorem compare_dotName {name : CString} :
    compare name.mem dotName.mem = true ↔ name = dotName := by
  rw [compare_mem_iff (by decide), CString.ext_iff]

theorem compare_rtcName {name : CString} :
    compare name.mem rtcName.mem = true ↔ name = rtcName := by
  rw [compare_mem_iff (by decide), CString.ext_iff]

namespace Files

variable {f f' : Files} {p p' : Pcb} {name : CString} {fd : ℕ} {ret : ℤ}

/-- The variables of `file.c` that do not change once the image is mounted. -/
def SameImage (f f' : Files) : Prop := f'.disk = f.disk ∧ f'.bootBlock = f.bootBlock

theorem sysOpen_full (h : p.freeFd = none) : f.sysOpen p name.mem = some (f, p, -1) := by
  rw [sysOpen, h]

theorem sysOpen_dot (h : p.freeFd = some fd) : f.sysOpen p dotName.mem =
    some (f, p.setDesc fd { p.fileDesc fd with fops := .dir, flags := 1 }, (fd : ℤ)) := by
  simp [sysOpen, h, compare_dotName.2 rfl, Pcb.setFlags, Pcb.setFops]

theorem sysOpen_rtc (h : p.freeFd = some fd) : f.sysOpen p rtcName.mem =
    some (f, p.setDesc fd { p.fileDesc fd with fops := .rtc, flags := 1 }, (fd : ℤ)) := by
  have hdot : ¬ compare rtcName.mem dotName.mem = true := by
    rw [compare_dotName]
    decide
  simp [sysOpen, h, hdot, compare_rtcName.2 rfl, Pcb.setFlags, Pcb.setFops]

theorem sysOpen_missing (h : p.freeFd = some fd) (hdot : name ≠ dotName) (hrtc : name ≠ rtcName)
    (hname : f.fileOpen name.mem = none) : f.sysOpen p name.mem = some (f, p, -1) := by
  simp [sysOpen, h, compare_dotName, compare_rtcName, hdot, hrtc, hname]

/-- The inode that `open` stores is the one of the entry that it has just looked up. -/
theorem sysOpen_file (h : p.freeFd = some fd) (hdot : name ≠ dotName) (hrtc : name ≠ rtcName)
    (hname : f.fileOpen name.mem = some f') : ∃ i < f.bootBlock.numDentries,
      f' = { f with getEntry := some i } ∧ f.sysOpen p name.mem =
        some (f', p.setDesc fd ⟨.file, (f.bootBlock.dentries i).inodeNum, 0, 1⟩, (fd : ℤ)) := by
  obtain ⟨i, hi, hf', -⟩ := fileOpen_spec hname
  refine ⟨i, hi, hf', ?_⟩
  subst hf'
  simp [sysOpen, h, compare_dotName, compare_rtcName, hdot, hrtc, hname, updateInode, entry,
    Pcb.setFlags, Pcb.setFops]

/-- **What `open` can do**: nothing, or fill the least unused descriptor. -/
theorem sysOpen_cases (f : Files) (p : Pcb) (name : CString) :
    f.sysOpen p name.mem = some (f, p, -1) ∨
    ∃ fd d f', p.Unused fd ∧ d.flags = 1 ∧ f.SameImage f' ∧ f'.index = f.index ∧
      f.sysOpen p name.mem = some (f', p.setDesc fd d, (fd : ℤ)) ∧
      (d.fops = .dir ∨ d.fops = .rtc ∨ ∃ i < f.bootBlock.numDentries,
        f'.getEntry = some i ∧ d = ⟨.file, (f.bootBlock.dentries i).inodeNum, 0, 1⟩) := by
  rcases hfree : p.freeFd with _ | fd
  · exact .inl (sysOpen_full hfree)
  · have hunused : p.Unused fd := (Pcb.isLeast_freeFd hfree).1
    by_cases hdot : name = dotName
    · subst hdot
      exact .inr ⟨fd, _, f, hunused, rfl, ⟨rfl, rfl⟩, rfl, sysOpen_dot hfree, .inl rfl⟩
    · by_cases hrtc : name = rtcName
      · subst hrtc
        exact .inr ⟨fd, _, f, hunused, rfl, ⟨rfl, rfl⟩, rfl, sysOpen_rtc hfree, .inr (.inl rfl)⟩
      · rcases hname : f.fileOpen name.mem with _ | f'
        · exact .inl (sysOpen_missing hfree hdot hrtc hname)
        · obtain ⟨i, hi, hf', hopen⟩ := sysOpen_file hfree hdot hrtc hname
          exact .inr ⟨fd, _, f', hunused, rfl, hf' ▸ ⟨rfl, rfl⟩, hf' ▸ rfl, hopen,
            .inr (.inr ⟨i, hi, hf' ▸ rfl, rfl⟩)⟩

theorem sysClose_bad {fd : ℤ} (h : fd < 2 ∨ fd > 7 ∨ (p.fileDesc fd.toNat).flags = 0) :
    f.sysClose p fd = (f, p, -1) := by
  unfold sysClose
  split_ifs with hfd hflags
  · rfl
  · rfl
  · omega

/-- A descriptor that `open` has filled is closed. -/
theorem sysClose_used {fd : ℤ} (hfd : ¬ (fd < 2 ∨ fd > 7))
    (hflags : (p.fileDesc fd.toNat).flags ≠ 0)
    (hin : (p.fileDesc fd.toNat).fops ≠ .stdin) (hout : (p.fileDesc fd.toNat).fops ≠ .stdout) :
    ∃ f', f.SameImage f' ∧ f.sysClose p fd =
      (f', { p.setFlags fd.toNat 0 with currFd := sub32 p.currFd 1 }, 0) := by
  have hop : ∃ f', f.SameImage f' ∧ f.closeOp (p.fileDesc fd.toNat).fops = (f', 0) := by
    rcases hops : (p.fileDesc fd.toNat).fops with _ | _ | _ | _ | _
    · exact absurd hops hin
    · exact absurd hops hout
    · exact ⟨f, ⟨rfl, rfl⟩, rfl⟩
    · exact ⟨{ f with index := 0 }, ⟨rfl, rfl⟩, rfl⟩
    · exact ⟨f, ⟨rfl, rfl⟩, rfl⟩
  obtain ⟨f', hsame, hop⟩ := hop
  refine ⟨f', hsame, ?_⟩
  rw [sysClose, if_neg hfd, if_neg hflags, hop]
  rfl

/-- The block of the process after a read of `r` bytes. -/
def advance (p : Pcb) (fd r : ℕ) : Pcb :=
  p.setDesc fd { p.fileDesc fd with filePos := add32 (p.fileDesc fd).filePos r }

/-- A read of a descriptor that is open on a file. -/
theorem sysRead_file {buf : ℕ → UInt8} {n : ℕ} (hfd : fd < 8) (hflags : (p.fileDesc fd).flags ≠ 0)
    (hfops : (p.fileDesc fd).fops = .file) : f.sysRead p fd buf n =
      some (advance p fd (f.readData (p.fileDesc fd).inode (p.fileDesc fd).filePos buf n).2,
        (f.readData (p.fileDesc fd).inode (p.fileDesc fd).filePos buf n).1,
        ((f.readData (p.fileDesc fd).inode (p.fileDesc fd).filePos buf n).2 : ℤ)) := by
  rw [sysRead, if_neg (by omega), Int.toNat_natCast, if_neg hflags, if_pos hfops, fileRead,
    if_neg (by omega)]
  rfl

theorem sysRead_bad {fd : ℤ} {buf : ℕ → UInt8} {n : ℕ}
    (h : fd < 0 ∨ fd > 7 ∨ (p.fileDesc fd.toNat).flags = 0) :
    f.sysRead p fd buf n = some (p, buf, -1) := by
  unfold sysRead
  split_ifs with hfd hflags
  · rfl
  · rfl
  · omega
  · omega

end Files

/-! ### What a step of the machine does -/

section Step

variable {s : FileSys} {f : Files} {p : Pcb} {name : CString} {fd : ℕ} {buf buf' : ℕ → UInt8}
  {n r : ℕ}

theorem step_open_fails (h : s.files.sysOpen s.pcb name.mem = some (f, p, -1)) :
    fileMachine.step s (.openName name) = some (s.returned f p) := by
  simp [fileMachine, h]

theorem step_open (h : s.files.sysOpen s.pcb name.mem = some (f, p, (fd : ℤ))) :
    fileMachine.step s (.openName name) =
      some ((s.returned f p).setSession fd (Session.new f p fd)) := by
  have hfd : ¬ (fd : ℤ) = -1 := by omega
  simp [fileMachine, h, hfd]

theorem step_read (h : s.files.sysRead s.pcb fd buf n = some (p, buf', (r : ℤ))) :
    fileMachine.step s (.read fd buf n) = some ((s.returned s.files p).setSession fd
      ((s.sessions s.live fd).map fun x => x.after n buf' r)) := by
  have hr : ¬ (r : ℤ) = -1 := by omega
  simp [fileMachine, h, hr]

end Step

end KTeamOS
