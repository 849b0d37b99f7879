import KTeamOS.File.Allocator
import KTeamOS.System.Kernel

/-!
# Lookups of several processes

`open`, `execute` and `background` hand the entry that they look up to `update_inode` and
`file_read(-1, ...)` in the one variable `get_entry`.  Here these calls are cut at their calls of
`file_open`, `update_inode` and `file_read`, and the processes of several terminals, one for each
number, and the keyboard handler take their parts in any order.

What the rest of the kernel does with the blocks, with the number of processes and with the display
can happen at any point and is any change of these variables.

## Main definitions

* `Call` : the part of `open` or `execute` that a process has reached.
* `lookupMachine` : the parts, as steps.
* `Lookups.Undisturbed` : the condition on a step that looks a name up.

## Main results

* `openLookup_openUpdate` : without an interruption the parts of `open` are `open`.
* `lookups_right` : the calls of undisturbed runs use the entries that they have looked up.
-/

namespace KTeamOS

/-- What a process is about to do. -/
inductive Call
  /-- Nothing that looks a name up. -/
  | user
  /-- `update_inode(fd)` in `open(name)`. -/
  | opening (name : CString) (fd : ℕ)
  /-- The first `file_read` in `execute(command)`. -/
  | found (command : CString)
  /-- The second `file_read` in `execute(command)`, with what the first one left in `buffer`. -/
  | checked (command : CString) (buffer : ℕ → UInt8)

/-- What a call has done.  Not part of the source. -/
inductive Outcome
  /-- `open` has returned a descriptor for a file with this inode. -/
  | opened (name : CString) (inode : ℕ)
  /-- `execute` has filled `buffer`, and the memory from `SHELL_LOAD` on. -/
  | loaded (command : CString) (buffer image : ℕ → UInt8)

/-- The variables that the calls use. -/
structure Lookups where
  files : Files
  /-- The block of the process of each terminal. -/
  pcbs : ℕ → Pcb
  pidMax : ℕ
  isModex : Bool
  isPacman : Bool
  bgFlag : Bool
  calls : ℕ → Call
  /-- Not part of the source: the last call of each process that used an entry. -/
  outcomes : ℕ → Option Outcome

/-- `img.raw` and `img1.raw` -/
def imgName : CString := ⟨[0x69, 0x6D, 0x67, 0x2E, 0x72, 0x61, 0x77], by decide⟩

/-- The picture that `background` opens. -/
def img1Name : CString := ⟨[0x69, 0x6D, 0x67, 0x31, 0x2E, 0x72, 0x61, 0x77], by decide⟩

namespace Lookups

/-! ### The parts of the calls -/

/-- The process `p` goes on. -/
def goOn (s : Lookups) (p : ℕ) (c : Call) : Lookups :=
  { s with calls := Function.update s.calls p c }

/-- The call of the process `p` returns. -/
def returns (s : Lookups) (p : ℕ) (b : Pcb) (o : Option Outcome) : Lookups :=
  { s.goOn p .user with
    pcbs := Function.update s.pcbs p b
    outcomes := Function.update s.outcomes p o }

/-- `open`, up to `file_open`. -/
def openLookup (s : Lookups) (p : ℕ) (name : CString) : Lookups :=
  let b := s.pcbs p
  match b.freeFd with
  | none => s.returns p b none
  | some fd =>
    if compare name.mem dotName.mem then s.returns p ((b.setFops fd .dir).setFlags fd 1) none
    else if compare name.mem rtcName.mem then s.returns p ((b.setFops fd .rtc).setFlags fd 1) none
    else
      match s.files.fileOpen name.mem with
      | none => s.returns p b none
      | some f => { s with files := f }.goOn p (.opening name fd)

/-- `open`, from `update_inode` on. -/
def openUpdate (s : Lookups) (p : ℕ) (name : CString) (fd : ℕ) : Option Lookups := do
  let b ← s.files.updateInode (s.pcbs p) fd
  let b := (b.setFops fd .file).setFlags fd 1
  let b := b.setDesc fd { b.fileDesc fd with filePos := 0 }
  some (s.returns p b (some (.opened name (b.fileDesc fd).inode)))

/-- `execute`, up to `file_open`. -/
def executeLookup (s : Lookups) (p : ℕ) (command : CString) : Option Lookups :=
  if command.word.chars.length ≥ 32 ∨ command.args.chars.length ≥ 200 then none
  else if s.pidMax ≥ 6 then some (s.returns p (s.pcbs p) none)
  else
    match s.files.fileOpen command.word.mem with
    | none => some (s.returns p (s.pcbs p) none)
    | some f => some ({ s with files := f }.goOn p (.found command))

/-- The first `file_read` of `execute` and the check of the magic numbers. -/
def executeHeader (s : Lookups) (p : ℕ) (command : CString) (stale : ℕ → UInt8) :
    Option Lookups := do
  let buffer ← Kernel.header s.files stale
  some (if Magic buffer then s.goOn p (.checked command buffer) else s.returns p (s.pcbs p) none)

/-- The second `file_read` of `execute`.  The block of the new process is set up by the rest of
the kernel. -/
def executeImage (s : Lookups) (p : ℕ) (command : CString) (buffer memory : ℕ → UInt8) :
    Option Lookups := do
  let e ← s.files.entry
  let image := (s.files.readData e.inodeNum 0 memory (40 * 1024)).1
  some (s.returns p (s.pcbs p) (some (.loaded command buffer image)))

/-- The picture that `background` looks up. -/
def picture (s : Lookups) : CString := if s.bgFlag then img1Name else imgName

/-- `background`.  It does not check whether the picture is there. -/
def background (s : Lookups) : Option Lookups :=
  if s.isModex ∧ ¬ s.isPacman then
    let f := (s.files.fileOpen s.picture.mem).getD s.files
    f.entry.map fun _ => { s with files := f, bgFlag := !s.bgFlag }
  else some s

end Lookups

/-- The parts of the calls, and the rest of the kernel. -/
inductive LookupStep
  | openName (p : ℕ) (name : CString)
  | execute (p : ℕ) (command : CString)
  /-- The process `p` goes on in its call; `stale` is what is in the buffer that it reads into. -/
  | resume (p : ℕ) (stale : ℕ → UInt8)
  | background
  /-- Any other change. -/
  | rest (index pidMax : ℕ) (pcbs : ℕ → Pcb) (isModex isPacman : Bool)

/-- Processes that look names up. -/
def lookupMachine : Machine Lookups LookupStep where
  step s
    | .openName p name =>
      match s.calls p with
      | .user => some (s.openLookup p name)
      | _ => none
    | .execute p command =>
      match s.calls p with
      | .user => s.executeLookup p command
      | _ => none
    | .resume p stale =>
      match s.calls p with
      | .user => none
      | .opening name fd => s.openUpdate p name fd
      | .found command => s.executeHeader p command stale
      | .checked command buffer => s.executeImage p command buffer stale
    | .background => s.background
    | .rest index pidMax pcbs isModex isPacman =>
      some { s with
        files := { s.files with index := index }
        pidMax := pidMax
        pcbs := pcbs
        isModex := isModex
        isPacman := isPacman }

namespace Lookups

/-- Before the first call. -/
def start (f : Files) (pcbs : ℕ → Pcb) : Lookups where
  files := f
  pcbs := pcbs
  pidMax := 0
  isModex := false
  isPacman := false
  bgFlag := false
  calls _ := .user
  outcomes _ := none

/-- Without a step in between, the two parts of `open` are `open`. -/
theorem openLookup_openUpdate {s s' : Lookups} {p fd : ℕ} {name : CString} {f : Files} {b : Pcb}
    {ret : ℤ} (hopen : s.files.sysOpen (s.pcbs p) name.mem = some (f, b, ret))
    (hcall : (s.openLookup p name).calls p = .opening name fd)
    (h : (s.openLookup p name).openUpdate p name fd = some s') :
    s'.files = f ∧ s'.pcbs p = b ∧ ret = fd := by
  revert hcall h
  simp only [openLookup]
  simp only [Files.sysOpen] at hopen
  rcases hfree : (s.pcbs p).freeFd with _ | fd'
  · simp [returns, goOn]
  simp only [hfree] at hopen ⊢
  split_ifs at hopen ⊢ with hdot hrtc
  · simp [returns, goOn]
  · simp [returns, goOn]
  rcases hname : s.files.fileOpen name.mem with _ | f'
  · simp [returns, goOn]
  intro hcall h
  simp only [hname] at hopen hcall h
  simp only [goOn, Function.update_self, Call.opening.injEq, true_and] at hcall
  subst hcall
  simp only [goOn, openUpdate, Option.bind_eq_bind, Option.bind_eq_some_iff] at hopen h
  obtain ⟨b₁, hb₁, h⟩ := h
  obtain ⟨b₂, hb₂, hopen⟩ := hopen
  obtain rfl : b₁ = b₂ := Option.some.inj (hb₁.symm.trans hb₂)
  cases h
  cases hopen
  exact ⟨rfl, Function.update_self .., rfl⟩

end Lookups

/-! ### What the calls are for -/

namespace Files

variable {f f' : Files}

/-- The inode of an entry called `name`. -/
def Names (f : Files) (name : CString) (inode : ℕ) : Prop :=
  ∃ i < f.bootBlock.numDentries, (f.bootBlock.dentries i).name = name.chars ∧
    inode = (f.bootBlock.dentries i).inodeNum

/-- The first `n` bytes of the file have been read into `buf`. -/
def Fills (f : Files) (inode n : ℕ) (buf : ℕ → UInt8) : Prop :=
  ∃ stale, buf = (f.readData inode 0 stale n).1

/-- The entry that a lookup of `name` finds, when no name goes on behind the name of an entry. -/
theorem names_of_fileOpen {name : CString} (hname : ¬ f.Extends name)
    (h : f.fileOpen name.mem = some f') :
    f.SameImage f' ∧ ∃ e, f'.entry = some e ∧ f.Names name e.inodeNum := by
  obtain ⟨i, hi, rfl, hcmp⟩ := fileOpen_spec h
  refine ⟨⟨rfl, rfl⟩, _, rfl, i, hi, ?_, rfl⟩
  rcases compare_iff.1 hcmp with heq | hlong
  · exact heq.symm
  · refine absurd ⟨fun hentry => ?_, i, hi, hlong⟩ hname
    obtain ⟨j, -, hj⟩ := hentry
    have hle : (f.bootBlock.dentries j).name.length ≤ 32 := field_length_le
    have hlt := hlong.2.2.1
    rw [hj] at hle
    omega

section SameImage

variable (h : f.SameImage f')
include h

theorem getBlockAddr_congr : f'.getBlockAddr = f.getBlockAddr := by
  funext b
  rw [getBlockAddr, getBlockAddr, h.1, h.2]

theorem nodeBlock_congr : f'.nodeBlock = f.nodeBlock := by
  funext node k
  rw [nodeBlock, nodeBlock, h.1]

theorem readLoop_congr {node n i a o k : ℕ} {buf : ℕ → UInt8} :
    f'.readLoop node n i a o k buf = f.readLoop node n i a o k buf := by
  induction n generalizing i a o k buf with
  | zero => rfl
  | succ n ih =>
    rw [readLoop, readLoop, getBlockAddr_congr h, nodeBlock_congr h, h.1]
    simp only [ih]

/-- What `read_data` reads does not depend on `get_entry`. -/
theorem readData_congr : f'.readData = f.readData := by
  funext inode offset buf length
  have haddr : f'.getInodeAddr inode = f.getInodeAddr inode := by
    rw [getInodeAddr, getInodeAddr, h.1]
  have hlength : ∀ node, f'.nodeLength node = f.nodeLength node := fun node => by
    rw [nodeLength, nodeLength, h.1]
  simp only [readData, haddr, hlength, getBlockAddr_congr h, nodeBlock_congr h, readLoop_congr h]

end SameImage

end Files

/-- What a call does is about the file with the name that it was given. -/
def Outcome.Right (f : Files) : Outcome → Prop
  | .opened name inode => f.Names name inode
  | .loaded command buffer image => ∃ inode, f.Names command.word inode ∧
      f.Fills inode 40 buffer ∧ f.Fills inode (40 * 1024) image

/-- The same for a call that goes on with `inode`. -/
def Call.Right (f : Files) (inode : ℕ) : Call → Prop
  | .user => True
  | .opening name _ => f.Names name inode
  | .found command => f.Names command.word inode
  | .checked command buffer => f.Names command.word inode ∧ f.Fills inode 40 buffer

namespace Lookups

/-- All calls have been about the files with the names that they were given. -/
def AllRight (f : Files) (s : Lookups) : Prop :=
  ∀ p o, s.outcomes p = some o → o.Right f

/-- A lookup of `name` leaves the inode that `get_entry` leads to as it is. -/
def Keeps (s : Lookups) (name : CString) : Prop :=
  ∀ f ∈ s.files.fileOpen name.mem, f.entry.map Dentry.inodeNum = s.files.entry.map Dentry.inodeNum

instance (s : Lookups) (name : CString) : Decidable (s.Keeps name) :=
  inferInstanceAs (Decidable (∀ f ∈ s.files.fileOpen name.mem, _))

/-- Some process is between its lookup and the last use of what it has found. -/
def Pending (s : Lookups) : Prop := ∃ p, s.calls p ≠ .user

/-- The name that a step looks up. -/
def lookedUp (s : Lookups) : LookupStep → Option CString
  | .openName p name =>
    if (s.pcbs p).freeFd = none ∨ name = dotName ∨ name = rtcName then none else some name
  | .execute _ command => if s.pidMax ≥ 6 then none else some command.word
  | .background => if s.isModex ∧ ¬ s.isPacman then some s.picture else none
  | _ => none

/-- The condition on a step.  No name is looked up that goes on behind the name of an entry, and
while a call of another process is pending, a lookup finds the same inode again. -/
def Undisturbed (s : Lookups) (l : LookupStep) : Prop :=
  ∀ name ∈ s.lookedUp l, ¬ s.files.Extends name ∧ (s.Pending → s.Keeps name)

/-- The invariant of undisturbed runs. -/
structure Kept (f : Files) (s : Lookups) : Prop where
  sameImage : f.SameImage s.files
  calls : ∀ p e, s.files.entry = some e → (s.calls p).Right f e.inodeNum
  outcomes : s.AllRight f

variable {f f' : Files} {s s' : Lookups} {p : ℕ}

/-! ### Steps -/

theorem Kept.returns (h : Kept f s) {b : Pcb} {o : Option Outcome}
    (ho : ∀ o' ∈ o, o'.Right f) : Kept f (s.returns p b o) where
  sameImage := h.sameImage
  calls q e he := by
    by_cases hq : q = p
    · subst hq
      simp only [Lookups.returns, goOn, Function.update_self]
      trivial
    · simp only [Lookups.returns, goOn, Function.update_of_ne hq]
      exact h.calls q e he
  outcomes q o' ho' := by
    by_cases hq : q = p
    · subst hq
      simp only [Lookups.returns, Function.update_self] at ho'
      exact ho o' ho'
    · simp only [Lookups.returns, Function.update_of_ne hq] at ho'
      exact h.outcomes q o' ho'

/-- A lookup that keeps the inode keeps the calls of the other processes right. -/
theorem Kept.lookup (h : Kept f s) {name : CString} (hopen : s.files.fileOpen name.mem = some f')
    (hC : ¬ s.files.Extends name ∧ (s.Pending → s.Keeps name)) :
    f.SameImage f' ∧ ∃ e, f'.entry = some e ∧ f.Names name e.inodeNum ∧
      ∀ q, (s.calls q).Right f e.inodeNum := by
  obtain ⟨hsame, e, he, hnames⟩ := Files.names_of_fileOpen hC.1 hopen
  refine ⟨⟨hsame.1.trans h.sameImage.1, hsame.2.trans h.sameImage.2⟩, e, he, ?_, fun q => ?_⟩
  · rwa [Files.Names, h.sameImage.2] at hnames
  · by_cases hq : s.calls q = .user
    · rw [hq]
      trivial
    · have hmap := hC.2 ⟨q, hq⟩ f' hopen
      rw [he, Option.map_some] at hmap
      obtain ⟨e₀, he₀, hinode⟩ := Option.map_eq_some_iff.1 hmap.symm
      rw [← hinode]
      exact h.calls q e₀ he₀

/-- The process that looked the name up goes on with it. -/
theorem Kept.goOn (h : Kept f s) {e : Dentry} {c : Call} (hsame : f.SameImage f')
    (he : f'.entry = some e) (hcalls : ∀ q, (s.calls q).Right f e.inodeNum)
    (hc : c.Right f e.inodeNum) : Kept f ({ s with files := f' }.goOn p c) where
  sameImage := hsame
  calls q e' he' := by
    obtain rfl : e = e' := Option.some.inj (he.symm.trans he')
    by_cases hq : q = p
    · subst hq
      simp only [Lookups.goOn, Function.update_self]
      exact hc
    · simp only [Lookups.goOn, Function.update_of_ne hq]
      exact hcalls q
  outcomes := h.outcomes

theorem Kept.openLookup (h : Kept f s) {name : CString}
    (hC : s.Undisturbed (.openName p name)) : Kept f (s.openLookup p name) := by
  have hnone : ∀ o' ∈ (none : Option Outcome), o'.Right f := fun o' ho' => by cases ho'
  simp only [Lookups.openLookup]
  rcases hfree : (s.pcbs p).freeFd with _ | fd
  · exact h.returns hnone
  simp only
  split_ifs with hdot hrtc
  · exact h.returns hnone
  · exact h.returns hnone
  rcases hname : s.files.fileOpen name.mem with _ | f'
  · exact h.returns hnone
  · rw [compare_dotName] at hdot
    rw [compare_rtcName] at hrtc
    have hlook : s.lookedUp (.openName p name) = some name := by
      rw [lookedUp, if_neg (by simp [hfree, hdot, hrtc])]
    obtain ⟨hsame, e, he, hnames, hcalls⟩ := h.lookup hname (hC name hlook)
    exact h.goOn hsame he hcalls hnames

theorem Kept.openUpdate (h : Kept f s) {name : CString} {fd : ℕ}
    (hcall : s.calls p = .opening name fd) (hst : s.openUpdate p name fd = some s') :
    Kept f s' := by
  simp only [Lookups.openUpdate, Files.updateInode, Option.bind_eq_bind, Option.bind_eq_some_iff,
    Option.map_eq_some_iff] at hst
  obtain ⟨b, ⟨e, he, rfl⟩, hst⟩ := hst
  cases hst
  refine h.returns fun o' ho' => ?_
  obtain rfl := Option.mem_some_iff.1 ho'
  have hnames : f.Names name e.inodeNum := by
    have hright := h.calls p e he
    rwa [hcall] at hright
  -- the descriptor has the inode that `update_inode` has just stored
  simpa [Outcome.Right, Pcb.setDesc, Pcb.setFlags, Pcb.setFops] using hnames

theorem Kept.executeLookup (h : Kept f s) {command : CString}
    (hC : s.Undisturbed (.execute p command)) (hst : s.executeLookup p command = some s') :
    Kept f s' := by
  have hnone : ∀ o' ∈ (none : Option Outcome), o'.Right f := fun o' ho' => by cases ho'
  simp only [Lookups.executeLookup] at hst
  split_ifs at hst with hlength hpid
  · cases hst
    exact h.returns hnone
  rcases hname : s.files.fileOpen command.word.mem with _ | f'
  · simp only [hname] at hst
    cases hst
    exact h.returns hnone
  · simp only [hname] at hst
    cases hst
    have hlook : s.lookedUp (.execute p command) = some command.word := if_neg hpid
    obtain ⟨hsame, e, he, hnames, hcalls⟩ := h.lookup hname (hC _ hlook)
    exact h.goOn hsame he hcalls hnames

theorem Kept.executeHeader (h : Kept f s) {command : CString} {stale : ℕ → UInt8}
    (hcall : s.calls p = .found command) (hst : s.executeHeader p command stale = some s') :
    Kept f s' := by
  simp only [Lookups.executeHeader, Kernel.header, Option.bind_eq_bind, Option.bind_eq_some_iff,
    Option.map_eq_some_iff] at hst
  obtain ⟨buffer, ⟨e, he, rfl⟩, hst⟩ := hst
  have hnames : f.Names command.word e.inodeNum := by
    have hright := h.calls p e he
    rwa [hcall] at hright
  rw [Files.readData_congr h.sameImage] at hst
  split_ifs at hst
  · cases hst
    exact h.goOn h.sameImage he (fun q => h.calls q e he) ⟨hnames, stale, rfl⟩
  · cases hst
    exact h.returns fun o' ho' => by cases ho'

theorem Kept.executeImage (h : Kept f s) {command : CString} {buffer memory : ℕ → UInt8}
    (hcall : s.calls p = .checked command buffer)
    (hst : s.executeImage p command buffer memory = some s') : Kept f s' := by
  simp only [Lookups.executeImage, Option.bind_eq_bind, Option.bind_eq_some_iff] at hst
  obtain ⟨e, he, hst⟩ := hst
  obtain ⟨hnames, hbuffer⟩ : f.Names command.word e.inodeNum ∧ f.Fills e.inodeNum 40 buffer := by
    have hright := h.calls p e he
    rwa [hcall] at hright
  rw [Files.readData_congr h.sameImage] at hst
  cases hst
  refine h.returns fun o' ho' => ?_
  obtain rfl := Option.mem_some_iff.1 ho'
  exact ⟨e.inodeNum, hnames, hbuffer, memory, rfl⟩

theorem Kept.background (h : Kept f s) (hC : s.Undisturbed .background)
    (hst : s.background = some s') : Kept f s' := by
  simp only [Lookups.background] at hst
  split_ifs at hst with hmode
  · obtain ⟨-, -, rfl⟩ := Option.map_eq_some_iff.1 hst
    rcases hname : s.files.fileOpen s.picture.mem with _ | f'
    · exact ⟨h.sameImage, h.calls, h.outcomes⟩
    · have hlook : s.lookedUp .background = some s.picture := if_pos hmode
      obtain ⟨hsame, e, he, -, hcalls⟩ := h.lookup hname (hC _ hlook)
      refine ⟨hsame, fun q e' he' => ?_, h.outcomes⟩
      obtain rfl : e = e' := Option.some.inj (he.symm.trans he')
      exact hcalls q
  · cases hst
    exact h

/-- One step. -/
theorem Kept.step (h : Kept f s) {l : LookupStep} (hC : s.Undisturbed l)
    (hst : lookupMachine.step s l = some s') : Kept f s' := by
  cases l with
  | openName p name =>
    simp only [lookupMachine] at hst
    split at hst
    · cases hst
      exact h.openLookup hC
    · cases hst
  | execute p command =>
    simp only [lookupMachine] at hst
    split at hst
    · exact h.executeLookup hC hst
    · cases hst
  | resume p stale =>
    simp only [lookupMachine] at hst
    split at hst
    · cases hst
    · exact h.openUpdate ‹_› hst
    · exact h.executeHeader ‹_› hst
    · exact h.executeImage ‹_› hst
  | background => exact h.background hC hst
  | rest index pidMax pcbs isModex isPacman =>
    cases hst
    exact ⟨h.sameImage, h.calls, h.outcomes⟩

theorem kept_start (f : Files) (pcbs : ℕ → Pcb) : Kept f (start f pcbs) where
  sameImage := ⟨rfl, rfl⟩
  calls _ _ _ := trivial
  outcomes p o ho := by cases ho

/-- **Undisturbed lookups.**  In a run in which no lookup comes between another lookup of another
inode and the last use of what that one found, each descriptor has the inode of an entry with the
name that was opened, and each program comes from one file, with the name of the command. -/
theorem lookups_right (f : Files) (pcbs : ℕ → Pcb) (ls : List LookupStep)
    (h : lookupMachine.Steps Undisturbed (start f pcbs) ls) :
    lookupMachine.States (AllRight f) (start f pcbs) ls :=
  (Machine.states_steps_of_steps (D := fun _ _ => True)
    (fun _ _ _ hs hC hst => ⟨hs.step hC hst, trivial⟩) (fun _ hs => hs.outcomes)
    (kept_start f pcbs) h).1

/-- The files `a` and `b`, with the inodes 0 and 1. -/
def twoFiles : Files where
  disk := ⟨fun _ => 0, 0⟩
  bootBlock :=
    { numDentries := 2
      numInodes := 2
      numBlocks := 0
      dentries := fun i => ⟨fun j =>
        if j = 0 then 0x61 + UInt8.ofNat i
        else if j = 32 then 2
        else if j = 36 then UInt8.ofNat i
        else 0⟩ }
  getEntry := none
  index := 0

/-- The name of the first file. -/
def aName : CString := ⟨[0x61], by decide⟩

/-- The name of the second file. -/
def bName : CString := ⟨[0x62], by decide⟩

/-- Two processes open the same file, the second one between the two parts of the first. -/
theorem lookups_right_twice :
    lookupMachine.States (AllRight twoFiles) (start twoFiles fun _ => FileSys.blankPcb)
      [.openName 0 aName, .openName 1 aName, .resume 0 fun _ => 0, .resume 1 fun _ => 0] := by
  refine lookups_right twoFiles (fun _ => FileSys.blankPcb) _ ?_
  have hname : ¬ twoFiles.Extends aName := by decide
  intro s₁ h₁
  refine ⟨fun name hlook => ?_, fun s₂ h₂ => ⟨fun name hlook => ?_, ?_⟩⟩
  · obtain rfl : aName = name := Option.some.inj hlook
    exact ⟨hname, fun ⟨p, hp⟩ => absurd rfl hp⟩
  · cases h₁
    obtain rfl : aName = name := Option.some.inj hlook
    exact ⟨hname, fun _ => by decide +kernel⟩
  -- the other two steps look nothing up
  · refine fun s₃ h₃ => ⟨fun name hlook => ?_, fun s₄ h₄ => ⟨fun name hlook => ?_, trivial⟩⟩
    · cases hlook
    · cases hlook

/-- The second process opens the other file there, and the first one gets its inode. -/
theorem lookups_not_right : ¬ ∀ f pcbs ls, lookupMachine.States (AllRight f) (start f pcbs) ls := by
  intro hall
  have hend : ((lookupMachine.exec (start twoFiles fun _ => FileSys.blankPcb)
      [.openName 0 aName, .openName 1 bName, .resume 0 fun _ => 0]).map fun s =>
        match s.outcomes 0 with
        | some (.opened name inode) => some (name.chars, inode)
        | _ => none) = some (some ([0x61], 1)) := by
    decide +kernel
  obtain ⟨s, hexec, hs⟩ := Option.map_eq_some_iff.1 hend
  have hright := (hall _ _ _).exec hexec
  split at hs
  · rename_i name inode hopened
    obtain ⟨i, hi, hname, hinode⟩ := hright 0 _ hopened
    obtain ⟨hchars, hone⟩ := Prod.mk.inj (Option.some.inj hs)
    obtain rfl : i = 1 := by
      rw [hone] at hinode
      obtain rfl | rfl : i = 0 ∨ i = 1 := by change i < 2 at hi; omega
      · exact absurd hinode (by decide)
      · rfl
    rw [hchars] at hname
    exact absurd hname (by decide)
  · cases hs

end Lookups

end KTeamOS
