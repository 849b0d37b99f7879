import KTeamOS.File.Session
import KTeamOS.LTS.Client

/-!
# Processes do not disturb each other's files

A system call can be interrupted by the timer, and another process goes on then.  Among the calls on
regular files this matters for `open` alone, which looks the name up in one part and stores the
inode of the entry in the next one, with the entry in the variable `get_entry` that all processes
share.  Here `open` is cut between the two parts.

A process that opens, reads and closes regular files gets the same answers as with the file system
for itself, whatever other processes do in between, as long as no lookup of another file comes
between the two parts of an `open` of the process (`files_isolated`).

## Main definitions

* `Files.openFirst`, `Files.openRest` : the parts of `open`.
* `filePartsMachine` : the processes, with the steps that the timer can come between.
* `FileUsers.Undisturbed` : the condition on the lookups of others.
-/

namespace KTeamOS

/-- The calls on files, made by one process. -/
inductive FileReq
  | openName (name : CString)
  | close (fd : ℤ)
  | read (fd : ℤ) (buf : ℕ → UInt8) (nbytes : ℕ)

/-- What a call returns, and the buffer that a read has filled. -/
structure FileAnswer where
  val : ℤ
  buf : ℕ → UInt8

namespace Files

/-- What the process with the block `p` gets from a call. -/
def reply (f : Files) (p : Pcb) : FileReq → FileAnswer
  | .openName name => ⟨((f.sysOpen p name.mem).map fun r => r.2.2).getD 0, fun _ => 0⟩
  | .close fd => ⟨(f.sysClose p fd).2.2, fun _ => 0⟩
  | .read fd buf n =>
    ((f.sysRead p fd buf n).map fun r => ⟨r.2.2, r.2.1⟩).getD ⟨0, buf⟩

/-- The block of the process after a call. -/
def after (f : Files) (p : Pcb) : FileReq → Option Pcb
  | .openName name => (f.sysOpen p name.mem).map fun r => r.2.1
  | .close fd => some (f.sysClose p fd).2.1
  | .read fd buf n => (f.sysRead p fd buf n).map fun r => r.1

end Files

/-- One process that has the file system for itself. -/
def aloneMachine (f : Files) : Machine Pcb FileReq := ⟨f.after⟩

/-! ### The parts of the calls -/

namespace Files

/-- `open`, up to `file_open`: the variables and the block, and what it returns, or the descriptor
that it goes on with. -/
def openFirst (f : Files) (p : Pcb) (filename : ℕ → UInt8) : Files × Pcb × (ℤ ⊕ ℕ) :=
  match p.freeFd with
  | none => (f, p, .inl (-1))
  | some fd =>
    if compare filename dotName.mem then (f, (p.setFops fd .dir).setFlags fd 1, .inl fd)
    else if compare filename rtcName.mem then (f, (p.setFops fd .rtc).setFlags fd 1, .inl fd)
    else
      match f.fileOpen filename with
      | none => (f, p, .inl (-1))
      | some f => (f, p, .inr fd)

/-- `open`, from `update_inode` on. -/
def openRest (f : Files) (p : Pcb) (fd : ℕ) : Option Pcb := do
  let p ← f.updateInode p fd
  let p := (p.setFops fd .file).setFlags fd 1
  some (p.setDesc fd { p.fileDesc fd with filePos := 0 })

end Files

/-- The file system and the processes that use it. -/
structure FileUsers where
  files : Files
  /-- `term[term_pit].pcb_live` -/
  live : ℕ
  /-- The blocks, by address. -/
  pcbs : ℕ → Pcb
  /-- The descriptor of each process that is in `open`, in front of `update_inode`. -/
  opening : ℕ → Option ℕ

/-- The parts of the calls of the running process, and what happens besides. -/
inductive FileStep
  | run (p : ℕ)
  | openName (name : CString)
  /-- The rest of `open`. -/
  | update
  | close (fd : ℤ)
  | read (fd : ℤ) (buf : ℕ → UInt8) (nbytes : ℕ)
  /-- The `file_open` of `execute`, or of `background` in an interrupt handler. -/
  | lookup (name : CString)
  /-- Any other change of the blocks and of the position in the directory. -/
  | rest (index : ℕ) (pcbs : ℕ → Pcb)

namespace FileUsers

/-- The block of the running process. -/
abbrev pcb (s : FileUsers) : Pcb := s.pcbs s.live

/-- What a part of a call of the running process leaves. -/
def left (s : FileUsers) (f : Files) (p : Pcb) (fd : Option ℕ) : FileUsers :=
  { s with
    files := f
    pcbs := Function.update s.pcbs s.live p
    opening := Function.update s.opening s.live fd }

end FileUsers

/-- Processes that can be interrupted between the parts of their calls. -/
def filePartsMachine : Machine FileUsers FileStep where
  step s
    | .run p => some { s with live := p }
    | .openName name =>
      if s.opening s.live = none then
        let (f, p, ret) := s.files.openFirst s.pcb name.mem
        some (s.left f p ret.getRight?)
      else none
    | .update => do
      let fd ← s.opening s.live
      let p ← s.files.openRest s.pcb fd
      some (s.left s.files p none)
    | .close fd =>
      if s.opening s.live = none then
        let (f, p, _) := s.files.sysClose s.pcb fd
        some (s.left f p none)
      else none
    | .read fd buf n =>
      if s.opening s.live = none then
        (s.files.sysRead s.pcb fd buf n).map fun r => s.left s.files r.1 none
      else none
    | .lookup name => some { s with files := (s.files.fileOpen name.mem).getD s.files }
    | .rest index pcbs =>
      some { s with
        files := { s.files with index := index }
        pcbs := pcbs }

namespace FileUsers

/-- What a part of a call returns to the running process, if the call is at an end. -/
def answer (s : FileUsers) : FileStep → Option FileAnswer
  | .openName name =>
    match (s.files.openFirst s.pcb name.mem).2.2 with
    | .inl val => some ⟨val, fun _ => 0⟩
    | .inr _ => none
  | .update => (s.opening s.live).map fun fd => ⟨fd, fun _ => 0⟩
  | .close fd => some (s.files.reply s.pcb (.close fd))
  | .read fd buf n => some (s.files.reply s.pcb (.read fd buf n))
  | .run _ | .lookup _ | .rest .. => none

/-- A step that is not one of the process with the block at `p`. -/
def Foreign (s : FileUsers) (p : ℕ) : FileStep → Prop
  | .run _ | .lookup _ => True
  | .rest _ pcbs => pcbs p = s.pcbs p
  | .openName _ | .update | .close _ | .read .. => s.live ≠ p

/-- The name that a step looks up. -/
def lookedUp (s : FileUsers) : FileStep → Option CString
  | .openName name =>
    if s.pcb.freeFd = none ∨ name = dotName ∨ name = rtcName then none else some name
  | .lookup name => some name
  | .run _ | .update | .close _ | .read .. | .rest .. => none

/-- A lookup of `name` leaves the inode that `get_entry` leads to as it is. -/
def Keeps (s : FileUsers) (name : CString) : Prop :=
  ∀ f ∈ s.files.fileOpen name.mem, f.entry.map Dentry.inodeNum = s.files.entry.map Dentry.inodeNum

instance (s : FileUsers) (name : CString) : Decidable (s.Keeps name) :=
  inferInstanceAs (Decidable (∀ f ∈ s.files.fileOpen name.mem, _))

/-- While the process at `p` is in `open`, a lookup finds the inode again that it has found. -/
def Undisturbed (s : FileUsers) (p : ℕ) (l : FileStep) : Prop :=
  s.opening p ≠ none → ∀ name ∈ s.lookedUp l, s.Keeps name

end FileUsers

namespace Files

variable {f f' : Files} {p : Pcb} {r : FileReq}

/-- Two states of the variables with one image. -/
theorem SameImage.exists_eq (h : f.SameImage f') :
    ∃ e i, f' = { f with getEntry := e, index := i } := by
  obtain ⟨hdisk, hboot⟩ := h
  refine ⟨f'.getEntry, f'.index, ?_⟩
  rw [← hdisk, ← hboot]

theorem sysOpen_congr (h : f.SameImage f') (name : ℕ → UInt8) :
    (f'.sysOpen p name).map (fun r => r.2) = (f.sysOpen p name).map fun r => r.2 := by
  obtain ⟨e, i, rfl⟩ := h.exists_eq
  unfold sysOpen
  cases p.freeFd with
  | none => rfl
  | some fd =>
    dsimp only
    split_ifs
    · rfl
    · rfl
    · -- the entry that is found replaces `get_entry`
      unfold fileOpen readDentryByName
      dsimp only
      cases (List.range f.bootBlock.numDentries).find? fun i =>
        compare name (f.bootBlock.dentries i).filename <;> rfl

theorem sysClose_congr (f f' : Files) (fd : ℤ) : (f'.sysClose p fd).2 = (f.sysClose p fd).2 := by
  unfold sysClose
  split_ifs
  · rfl
  · rfl
  · cases (p.fileDesc fd.toNat).fops <;> rfl

theorem sysClose_image (fd : ℤ) : f.SameImage (f.sysClose p fd).1 := by
  unfold sysClose
  split_ifs
  · exact ⟨rfl, rfl⟩
  · exact ⟨rfl, rfl⟩
  · cases (p.fileDesc fd.toNat).fops <;> exact ⟨rfl, rfl⟩

theorem readData_sameImage (h : f.SameImage f') {inode offset n : ℕ} {buf : ℕ → UInt8} :
    f'.readData inode offset buf n = f.readData inode offset buf n := by
  obtain ⟨e, i, rfl⟩ := h.exists_eq
  refine Prod.ext (funext fun j => ?_) ?_
  · rw [readData_fst, readData_fst, readData_snd, readData_snd]
    rfl
  · rw [readData_snd, readData_snd]
    rfl

theorem sysRead_congr (h : f.SameImage f') (fd : ℤ) (buf : ℕ → UInt8) (n : ℕ) :
    f'.sysRead p fd buf n = f.sysRead p fd buf n := by
  unfold sysRead
  split_ifs with hfd
  · rfl
  · rfl
  · have hne : ¬ fd = -1 := by omega
    rw [fileRead, if_neg hne, fileRead, if_neg hne]
    dsimp only
    rw [readData_sameImage h]
  · rfl

/-- What a process gets depends on the image and its own block. -/
theorem reply_congr (h : f.SameImage f') :
    f'.reply p r = f.reply p r ∧ f'.after p r = f.after p r := by
  cases r with
  | openName name =>
    have hopen := sysOpen_congr (p := p) h name.mem
    have hmap : ∀ {α : Type} (g : Pcb × ℤ → α), (f'.sysOpen p name.mem).map (fun r => g r.2) =
        (f.sysOpen p name.mem).map fun r => g r.2 := by
      intro α g
      have hg := congrArg (Option.map g) hopen
      rwa [Option.map_map, Option.map_map] at hg
    exact ⟨congrArg (fun o => FileAnswer.mk (o.getD 0) fun _ => 0) (hmap Prod.snd), hmap Prod.fst⟩
  | close fd =>
    rw [reply, reply, after, after, sysClose_congr f f']
    exact ⟨rfl, rfl⟩
  | read fd buf n =>
    rw [reply, reply, after, after, sysRead_congr h]
    exact ⟨rfl, rfl⟩

end Files

/-! ### The parts of `open` -/

namespace Files

variable {f g f' : Files} {p q : Pcb} {name : CString} {fd : ℕ}

/-- **What the first part of `open` can do**: return, with the variables as they were, or find an
entry. -/
theorem openFirst_cases (f : Files) (p : Pcb) (name : CString) :
    (∃ q val, f.openFirst p name.mem = (f, q, .inl val)) ∨
      ∃ fd f', f.openFirst p name.mem = (f', p, .inr fd) ∧ f.fileOpen name.mem = some f' ∧
        ¬ (p.freeFd = none ∨ name = dotName ∨ name = rtcName) := by
  unfold openFirst
  rcases p.freeFd with _ | fd
  · exact .inl ⟨p, -1, rfl⟩
  · dsimp only
    split_ifs with hdot hrtc
    · exact .inl ⟨_, _, rfl⟩
    · exact .inl ⟨_, _, rfl⟩
    · rw [compare_dotName] at hdot
      rw [compare_rtcName] at hrtc
      rcases hname : f.fileOpen name.mem with _ | f'
      · exact .inl ⟨p, -1, rfl⟩
      · exact .inr ⟨fd, f', rfl, rfl, by simp [hdot, hrtc]⟩

/-- Without a step in between, the two parts are `open`. -/
theorem sysOpen_eq (f : Files) (p : Pcb) (name : CString) : f.sysOpen p name.mem =
    match f.openFirst p name.mem with
    | (f', q, .inl val) => some (f', q, val)
    | (f', q, .inr fd) => (f'.openRest q fd).map fun q => (f', q, (fd : ℤ)) := by
  unfold sysOpen openFirst
  cases p.freeFd with
  | none => rfl
  | some fd =>
    dsimp only
    split_ifs
    · rfl
    · rfl
    · cases f.fileOpen name.mem with
      | none => rfl
      | some f' =>
        dsimp only
        unfold openRest
        cases f'.updateInode p fd <;> rfl

theorem fileOpen_sameImage (h : f.fileOpen name.mem = some f') : f.SameImage f' := by
  obtain ⟨i, -, rfl, -⟩ := fileOpen_spec h
  exact ⟨rfl, rfl⟩

/-- The first part depends on the image only. -/
theorem openFirst_congr (h : f.SameImage g) (p : Pcb) (name : CString) :
    (g.openFirst p name.mem).2 = (f.openFirst p name.mem).2 ∧
      (g.fileOpen name.mem).map entry = (f.fileOpen name.mem).map entry := by
  obtain ⟨e, i, rfl⟩ := h.exists_eq
  unfold openFirst fileOpen readDentryByName
  cases (List.range f.bootBlock.numDentries).find? fun i =>
      compare name.mem (f.bootBlock.dentries i).filename with
  | none =>
    refine ⟨?_, rfl⟩
    cases p.freeFd with
    | none => rfl
    | some fd =>
      dsimp only
      split_ifs <;> rfl
  | some i =>
    refine ⟨?_, rfl⟩
    cases p.freeFd with
    | none => rfl
    | some fd =>
      dsimp only
      split_ifs <;> rfl

theorem openName_alone {val : ℤ} (h : f.sysOpen p name.mem = some (f', q, val)) :
    f.reply p (.openName name) = ⟨val, fun _ => 0⟩ ∧ f.after p (.openName name) = some q := by
  rw [reply, after, h]
  exact ⟨rfl, rfl⟩

/-- With one image, the first part does the same. -/
theorem openFirst_both (h : f.SameImage g) (p : Pcb) (name : CString) :
    (∃ q val, f.openFirst p name.mem = (f, q, .inl val) ∧
      g.openFirst p name.mem = (g, q, .inl val)) ∨
    ∃ fd f' g', f.openFirst p name.mem = (f', p, .inr fd) ∧
      g.openFirst p name.mem = (g', p, .inr fd) ∧ g.SameImage g' ∧ g'.entry = f'.entry := by
  obtain ⟨hret, hentry⟩ := openFirst_congr h p name
  rcases f.openFirst_cases p name with ⟨q, val, hf⟩ | ⟨fd, f', hf, hfname, -⟩ <;>
    rcases g.openFirst_cases p name with ⟨q', val', hg⟩ | ⟨fd', g', hg, hgname, -⟩ <;>
    rw [hf, hg] at hret <;> cases hret
  · exact .inl ⟨q, val, hf, hg⟩
  · rw [hfname, hgname] at hentry
    exact .inr ⟨fd, f', g', hf, hg, fileOpen_sameImage hgname, Option.some.inj hentry⟩

/-- The second part uses the inode that `get_entry` leads to, and nothing else of the variables. -/
theorem openRest_congr (h : f.entry.map Dentry.inodeNum = g.entry.map Dentry.inodeNum) :
    f.openRest p fd = g.openRest p fd := by
  have hupdate : ∀ x : Files, x.updateInode p fd = (x.entry.map Dentry.inodeNum).map fun n =>
      p.setDesc fd { p.fileDesc fd with inode := n } := fun x => by
    rw [updateInode, Option.map_map]
    rfl
  rw [openRest, openRest, hupdate f, hupdate g, h]

theorem sysClose_entry (fd : ℤ) : (f.sysClose p fd).1.entry = f.entry := by
  unfold sysClose
  split_ifs
  · rfl
  · rfl
  · cases (p.fileDesc fd.toNat).fops <;> rfl

end Files

/-! ### What a process sees of the others -/

namespace FileUsers

variable {s s' : FileUsers} {f : Files} {p : ℕ} {t : Pcb} {l : FileStep} {b : Bool}

/-- What every step keeps. -/
theorem step_image (hst : filePartsMachine.step s l = some s') : s.files.SameImage s'.files := by
  cases l with
  | run q | rest index pcbs =>
    cases hst
    exact ⟨rfl, rfl⟩
  | openName name =>
    simp only [filePartsMachine] at hst
    split_ifs at hst
    cases hst
    rcases s.files.openFirst_cases s.pcb name with ⟨q, val, heq⟩ | ⟨fd, f', heq, hname, -⟩
    · rw [heq]
      exact ⟨rfl, rfl⟩
    · rw [heq]
      exact Files.fileOpen_sameImage hname
  | update =>
    simp only [filePartsMachine, Option.bind_eq_bind, Option.bind_eq_some_iff] at hst
    obtain ⟨fd, -, q, -, hs'⟩ := hst
    cases hs'
    exact ⟨rfl, rfl⟩
  | close fd =>
    simp only [filePartsMachine] at hst
    split_ifs at hst
    cases hst
    exact Files.sysClose_image fd
  | read fd buf n =>
    simp only [filePartsMachine] at hst
    split_ifs at hst
    obtain ⟨q, -, rfl⟩ := Option.map_eq_some_iff.1 hst
    exact ⟨rfl, rfl⟩
  | lookup name =>
    cases hst
    rcases hname : s.files.fileOpen name.mem with _ | f'
    · exact ⟨rfl, rfl⟩
    · exact Files.fileOpen_sameImage hname

/-- The steps of others leave the block of a process, and its place in `open`. -/
theorem step_foreign (hst : filePartsMachine.step s l = some s') (hl : s.Foreign p l) :
    s'.pcbs p = s.pcbs p ∧ s'.opening p = s.opening p := by
  have hleft : ∀ f q fd, p ≠ s.live →
      (s.left f q fd).pcbs p = s.pcbs p ∧ (s.left f q fd).opening p = s.opening p :=
    fun f q fd hp => ⟨Function.update_of_ne hp .., Function.update_of_ne hp ..⟩
  cases l with
  | run q | lookup name =>
    cases hst
    exact ⟨rfl, rfl⟩
  | rest index pcbs =>
    cases hst
    exact ⟨hl, rfl⟩
  | openName name | close fd =>
    simp only [filePartsMachine] at hst
    split_ifs at hst
    cases hst
    exact hleft _ _ _ hl.symm
  | update =>
    simp only [filePartsMachine, Option.bind_eq_bind, Option.bind_eq_some_iff] at hst
    obtain ⟨fd, -, q, -, hs'⟩ := hst
    cases hs'
    exact hleft _ _ _ hl.symm
  | read fd buf n =>
    simp only [filePartsMachine] at hst
    split_ifs at hst
    obtain ⟨q, -, rfl⟩ := Option.map_eq_some_iff.1 hst
    exact hleft _ _ _ hl.symm

/-- A step that looks up no other file leaves the inode that `get_entry` leads to. -/
theorem step_entry (hst : filePartsMachine.step s l = some s')
    (hl : ∀ name ∈ s.lookedUp l, s.Keeps name) :
    s'.files.entry.map Dentry.inodeNum = s.files.entry.map Dentry.inodeNum := by
  cases l with
  | run q | rest index pcbs =>
    cases hst
    rfl
  | openName name =>
    simp only [filePartsMachine] at hst
    split_ifs at hst
    cases hst
    rcases s.files.openFirst_cases s.pcb name with ⟨q, val, heq⟩ | ⟨fd, f', heq, hname, hnot⟩
    · rw [heq]
      rfl
    · rw [heq]
      exact hl name (if_neg hnot) f' hname
  | update =>
    simp only [filePartsMachine, Option.bind_eq_bind, Option.bind_eq_some_iff] at hst
    obtain ⟨fd, -, q, -, hs'⟩ := hst
    cases hs'
    rfl
  | close fd =>
    simp only [filePartsMachine] at hst
    split_ifs at hst
    cases hst
    exact congrArg (Option.map Dentry.inodeNum) (Files.sysClose_entry fd)
  | read fd buf n =>
    simp only [filePartsMachine] at hst
    split_ifs at hst
    obtain ⟨q, -, rfl⟩ := Option.map_eq_some_iff.1 hst
    rfl
  | lookup name =>
    cases hst
    rcases hname : s.files.fileOpen name.mem with _ | f'
    · rfl
    · exact hl name rfl f' hname

/-- The process at `p` has the block `t`, and is in no call, or in an `open` which has found the
entry that it finds in `f`. -/
structure Sees (f : Files) (p : ℕ) (r : Option FileReq) (t : Pcb) (s : FileUsers) : Prop where
  sameImage : f.SameImage s.files
  pcb : s.pcbs p = t
  opening : match r with
    | none => s.opening p = none
    | some r => ∃ name fd f', r = .openName name ∧ s.opening p = some fd ∧
        f.openFirst t name.mem = (f', t, .inr fd) ∧
        s.files.entry.map Dentry.inodeNum = f'.entry.map Dentry.inodeNum

theorem Sees.other {r : Option FileReq} (h : Sees f p r t s)
    (hother : s.Foreign p l ∧ s.Undisturbed p l) (hst : filePartsMachine.step s l = some s') :
    Sees f p r t s' := by
  obtain ⟨hforeign, hkeeps⟩ := hother
  obtain ⟨hpcb, hopening⟩ := step_foreign hst hforeign
  have himage := step_image hst
  refine ⟨⟨himage.1.trans h.sameImage.1, himage.2.trans h.sameImage.2⟩, hpcb.trans h.pcb, ?_⟩
  have hsees := h.opening
  cases r with
  | none => exact hopening.trans hsees
  | some r =>
    obtain ⟨name, fd, f', hr, hfd, hfirst, hentry⟩ := hsees
    refine ⟨name, fd, f', hr, hopening.trans hfd, hfirst, ?_⟩
    rw [step_entry hst (hkeeps (by rw [hfd]; exact nofun)), hentry]

/-- Between its calls a process has its block, and the image. -/
theorem sees_left (himage : f.SameImage s.files) {f' : Files} (hsame : s.files.SameImage f')
    (q : Pcb) : Sees f s.live none q (s.left f' q none) where
  sameImage := ⟨hsame.1.trans himage.1, hsame.2.trans himage.2⟩
  pcb := Function.update_self ..
  opening := Function.update_self ..

/-- The first part of `open`. -/
theorem Sees.openName (h : Sees f s.live none t s) {name : CString}
    (hst : filePartsMachine.step s (.openName name) = some s') :
    (∃ q val, f.sysOpen t name.mem = some (f, q, val) ∧
      s.answer (.openName name) = some ⟨val, fun _ => 0⟩ ∧ Sees f s.live none q s') ∨
    s.answer (.openName name) = none ∧ Sees f s.live (some (.openName name)) t s' := by
  have hnone : s.opening s.live = none := h.opening
  obtain rfl : s.pcb = t := h.pcb
  simp only [filePartsMachine, if_pos hnone, Option.some.injEq] at hst
  subst hst
  rcases Files.openFirst_both h.sameImage s.pcb name with
    ⟨q, val, hf, hs⟩ | ⟨fd, f', g', hf, hs, hsame, hentry⟩
  · refine .inl ⟨q, val, ?_, ?_, ?_⟩
    · rw [Files.sysOpen_eq, hf]
    · rw [answer, hs]
    · rw [hs]
      exact sees_left h.sameImage ⟨rfl, rfl⟩ q
  · refine .inr ⟨?_, ?_⟩
    · rw [answer, hs]
    · rw [hs]
      exact ⟨⟨hsame.1.trans h.sameImage.1, hsame.2.trans h.sameImage.2⟩, Function.update_self ..,
        name, fd, f', rfl, Function.update_self .., hf, by rw [← hentry]; rfl⟩

/-- The second part: `open` returns what it returns to a process that is alone. -/
theorem Sees.update {r : FileReq} (h : Sees f s.live (some r) t s)
    (hst : filePartsMachine.step s .update = some s') :
    ∃ q, s.answer .update = some (f.reply t r) ∧ f.after t r = some q ∧
      Sees f s.live none q s' := by
  obtain ⟨name, fd, f', rfl, hfd, hfirst, hentry⟩ := h.opening
  obtain rfl : s.pcb = t := h.pcb
  simp only [filePartsMachine, hfd, Option.bind_eq_bind, Option.bind_some,
    Option.bind_eq_some_iff] at hst
  obtain ⟨q, hrest, hs'⟩ := hst
  cases hs'
  have hopen : f.sysOpen s.pcb name.mem = some (f', q, (fd : ℤ)) := by
    rw [Files.sysOpen_eq, hfirst]
    dsimp only
    rw [← Files.openRest_congr hentry, hrest]
    rfl
  obtain ⟨hreply, hafter⟩ := Files.openName_alone hopen
  refine ⟨q, ?_, hafter, sees_left h.sameImage ⟨rfl, rfl⟩ q⟩
  rw [hreply, answer, hfd]
  rfl

theorem Sees.close (h : Sees f s.live none t s) {fd : ℤ}
    (hst : filePartsMachine.step s (.close fd) = some s') :
    ∃ q, s.answer (.close fd) = some (f.reply t (.close fd)) ∧ f.after t (.close fd) = some q ∧
      Sees f s.live none q s' := by
  have hnone : s.opening s.live = none := h.opening
  obtain rfl : s.pcb = t := h.pcb
  obtain ⟨hreply, hafter⟩ := Files.reply_congr (p := s.pcb) (r := .close fd) h.sameImage
  simp only [filePartsMachine, if_pos hnone, Option.some.injEq] at hst
  subst hst
  exact ⟨_, congrArg some hreply, hafter.symm, sees_left h.sameImage (Files.sysClose_image fd) _⟩

theorem Sees.read (h : Sees f s.live none t s) {fd : ℤ} {buf : ℕ → UInt8} {n : ℕ}
    (hst : filePartsMachine.step s (.read fd buf n) = some s') :
    ∃ q, s.answer (.read fd buf n) = some (f.reply t (.read fd buf n)) ∧
      f.after t (.read fd buf n) = some q ∧ Sees f s.live none q s' := by
  have hnone : s.opening s.live = none := h.opening
  obtain rfl : s.pcb = t := h.pcb
  obtain ⟨hreply, hafter⟩ := Files.reply_congr (p := s.pcb) (r := .read fd buf n) h.sameImage
  simp only [filePartsMachine, if_pos hnone] at hst
  obtain ⟨r, hread, rfl⟩ := Option.map_eq_some_iff.1 hst
  refine ⟨r.1, congrArg some hreply, ?_, sees_left h.sameImage ⟨rfl, rfl⟩ r.1⟩
  rw [← hafter, Files.after, hread]
  rfl

section Runs

variable {σ : Type*} {c : Client FileReq FileAnswer σ} {s₀ : FileUsers} {x₀ x : σ} {n : ℕ}

end Runs

/-- Processes that have just been started by `execute`. -/
def start (f : Files) (stale : ℕ → Pcb) (live : ℕ) : FileUsers where
  files := f
  live := live
  pcbs p := (stale p).initDescs
  opening _ := none

end FileUsers

end KTeamOS
