import KTeamOS.Buffer.Basic
import KTeamOS.File.Session

/-!
# Reading the directory

The position of `dir_read` is the one variable `index`, shared by all descriptors that are open on
the directory: every reader advances it, and every `close` of such a descriptor resets it.  A run
reads the directory in order on each descriptor exactly while, at each read, the reads that all
descriptors have made since the last such `close` are as many as those of the descriptor itself,
or lead to an entry of the same name (`dirReads_meet_iff`).  How much one read copies is the subject
of `Files.readsName_iff`.
-/

namespace KTeamOS

open Buffer

namespace Files

/-- `dir_read`: the variables and the buffer afterwards, and what it returns.  The loop over `i`
compares the address of a character with 0, so that it never breaks, and 32 bytes are copied. -/
def dirRead (f : Files) (buf : ℕ → UInt8) : Files × (ℕ → UInt8) × ℕ :=
  if f.index ≥ f.bootBlock.numDentries then (f, buf, 0)
  else
    ({ f with index := f.index + 1 },
      copy buf 0 (f.bootBlock.dentries f.index).filename 0 32, 32)

/-- `dir_read` with all its arguments, of which the body uses the buffer only. -/
def dirReadCall (f : Files) (_fd : ℤ) (buf : ℕ → UInt8) (_nbytes : ℤ) : Files × (ℕ → UInt8) × ℕ :=
  f.dirRead buf

/-- A call `dir_read(fd, buf, nbytes)` at the entry `index` delivers what the buffer takes of the
name, and says how much that is. -/
structure ReadsName (f : Files) (fd : ℤ) (buf : ℕ → UInt8) (nbytes : ℤ) : Prop where
  count : ((f.dirReadCall fd buf nbytes).2.2 : ℤ) =
    min nbytes (f.bootBlock.dentries f.index).name.length
  copied : ∀ j, (hj : j < (f.bootBlock.dentries f.index).name.length) → (j : ℤ) < nbytes →
    (f.dirReadCall fd buf nbytes).2.1 j = (f.bootBlock.dentries f.index).name[j]
  rest : ∀ j : ℕ, min nbytes (f.bootBlock.dentries f.index).name.length ≤ (j : ℤ) →
    (f.dirReadCall fd buf nbytes).2.1 j = buf j

/-- **One name of the directory.**  `dir_read` copies 32 bytes for every name and every size of
the buffer, so it is right exactly for a name that fills its field and a buffer that takes it. -/
theorem readsName_iff (f : Files) (h : f.index < f.bootBlock.numDentries) (fd : ℤ)
    (buf : ℕ → UInt8) (nbytes : ℤ) : f.ReadsName fd buf nbytes ↔
      (f.bootBlock.dentries f.index).name.length = 32 ∧ 32 ≤ nbytes := by
  have hcall : f.dirReadCall fd buf nbytes = ({ f with index := f.index + 1 },
      copy buf 0 (f.bootBlock.dentries f.index).filename 0 32, 32) := by
    rw [dirReadCall, dirRead, if_neg (Nat.not_le.2 h)]
  have hle : (f.bootBlock.dentries f.index).name.length ≤ 32 := field_length_le
  constructor
  · intro hreads
    have hcount := hreads.count
    rw [hcall] at hcount
    push_cast at hcount
    omega
  · rintro ⟨hfull, hn⟩
    refine ⟨?_, fun j hj hjn => ?_, fun j hj => ?_⟩
    · rw [hcall, hfull]
      push_cast
      omega
    · rw [hcall]
      dsimp only
      rw [copy_apply, if_pos (by omega), Nat.zero_add, Nat.sub_zero]
      have hchar := field_getElem hj
      rw [Nat.zero_add] at hchar
      exact hchar
    · rw [hcall]
      dsimp only
      rw [hfull] at hj
      rw [copy_apply, if_neg (by omega)]

/-- A directory of one entry with the name `a`, before its first read. -/
def oneName : Files where
  disk := ⟨fun _ => 0, 0⟩
  bootBlock := ⟨1, 0, 0, fun _ => ⟨fun j => if j = 0 then 0x61 else 0⟩⟩
  getEntry := none
  index := 0

/-- For a name of 32 characters all is well. -/
theorem readsName_full : FileSys.longFiles.ReadsName 2 (fun _ => 0) 33 :=
  (readsName_iff FileSys.longFiles (by decide) 2 (fun _ => 0) 33).2 (by decide)

/-- A name of one character is read as 32 bytes, with a buffer of one byte as well. -/
theorem not_readsName : ¬ ∀ (f : Files) (fd : ℤ) (buf : ℕ → UInt8) (nbytes : ℤ),
    f.index < f.bootBlock.numDentries → f.ReadsName fd buf nbytes := by
  intro h
  have hcount := (h oneName 2 (fun _ => 0) 1 (by decide)).count
  have hval : (oneName.dirReadCall 2 (fun _ => 0) 1).2.2 = 32 := by decide
  have hname : (oneName.bootBlock.dentries oneName.index).name.length = 1 := by decide
  rw [hval, hname] at hcount
  cases hcount

/-- `read` of a descriptor that is open on the directory. -/
def sysReadDir (f : Files) (p : Pcb) (fd : ℤ) (buf : ℕ → UInt8) :
    Option (Files × (ℕ → UInt8) × ℤ) :=
  if fd < 0 ∨ fd > 7 then some (f, buf, -1)
  else if (p.fileDesc fd.toNat).flags = 0 then some (f, buf, -1)
  else if (p.fileDesc fd.toNat).fops = .dir then
    some ((f.dirRead buf).1, (f.dirRead buf).2.1, (f.dirRead buf).2.2)
  else none

end Files

/-- Processes that read the directory. -/
structure DirSys where
  files : Files
  /-- `term[term_pit].pcb_live` -/
  live : ℕ
  pcbs : ℕ → Pcb
  /-- Not part of the source: the reads of each descriptor since it was opened. -/
  reads : ℕ → ℕ → ℕ
  /-- Not part of the source: the reads of the directory since it was last closed. -/
  total : ℕ

/-- The calls of the running process, and the switch to another one. -/
inductive DirCall
  | run (p : ℕ)
  | openName (name : CString)
  | close (fd : ℤ)
  | read (fd : ℤ) (buf : ℕ → UInt8)

namespace DirSys

/-- The block of the running process. -/
abbrev pcb (s : DirSys) : Pcb := s.pcbs s.live

/-- The state after a call of the process that runs. -/
def returned (s : DirSys) (f : Files) (p : Pcb) : DirSys :=
  { s with
    files := f
    pcbs := Function.update s.pcbs s.live p }

/-- The entries that a descriptor has read, and all together. -/
def setReads (s : DirSys) (fd n total : ℕ) : DirSys :=
  { s with
    reads := Function.update s.reads s.live (Function.update (s.reads s.live) fd n)
    total := total }

/-- `close` of the descriptor `fd` resets the position. -/
def Resets (s : DirSys) (fd : ℤ) : Prop :=
  (s.files.sysClose s.pcb fd).2.2 = 0 ∧ (s.pcb.fileDesc fd.toNat).fops = .dir

instance (s : DirSys) (fd : ℤ) : Decidable (s.Resets fd) := inferInstanceAs (Decidable (_ ∧ _))

end DirSys

/-- Processes that share the directory. -/
def dirMachine : Machine DirSys DirCall where
  step s
    | .run p => some { s with live := p }
    | .openName name => do
      let (f, p, fd) ← s.files.sysOpen s.pcb name.mem
      some (if fd = -1 then s.returned f p else (s.returned f p).setReads fd.toNat 0 s.total)
    | .close fd =>
      let (f, p, _) := s.files.sysClose s.pcb fd
      some { s.returned f p with total := if s.Resets fd then 0 else s.total }
    | .read fd buf => do
      let (f, _, val) ← s.files.sysReadDir s.pcb fd buf
      some (if val = -1 then s.returned f s.pcb
        else (s.returned f s.pcb).setReads fd.toNat (s.reads s.live fd.toNat + 1) (s.total + 1))

namespace DirSys

/-- The running process has the descriptor `fd` open on the directory. -/
def OnDir (s : DirSys) (fd : ℤ) : Prop :=
  0 ≤ fd ∧ fd < 8 ∧ (s.pcb.fileDesc fd.toNat).flags ≠ 0 ∧ (s.pcb.fileDesc fd.toNat).fops = .dir

/-- What the `k`-th read of a directory is for: the name field of the entry `k`, and nothing behind
the last one. -/
structure Delivers (f : Files) (k : ℕ) (buf buf' : ℕ → UInt8) (val : ℤ) : Prop where
  entry : k < f.bootBlock.numDentries →
    val ≠ 0 ∧ ∀ j < 32, buf' j = (f.bootBlock.dentries k).filename j
  atEnd : f.bootBlock.numDentries ≤ k → val = 0 ∧ buf' = buf

/-- The call is not a read of the directory, or the one that the descriptor is at. -/
def CallMeets (s : DirSys) : DirCall → Prop
  | .read fd buf => s.OnDir fd → ∃ f buf' val,
      s.files.sysReadDir s.pcb fd buf = some (f, buf', val) ∧
        Delivers s.files (s.reads s.live fd.toNat) buf buf' val
  | .run _ | .openName _ | .close _ => True

/-- The positions `k` and `k'` of a directory are both behind its end, or have the same name
field. -/
def SameName (f : Files) (k k' : ℕ) : Prop :=
  (k < f.bootBlock.numDentries ↔ k' < f.bootBlock.numDentries) ∧
    (k < f.bootBlock.numDentries →
      ∀ j < 32, (f.bootBlock.dentries k).filename j = (f.bootBlock.dentries k').filename j)

/-- The call is not a read of the directory, or the descriptor has been read as often as the
directory has. -/
def CallFits (s : DirSys) : DirCall → Prop
  | .read fd _ => s.OnDir fd → SameName s.files s.total (s.reads s.live fd.toNat)
  | .run _ | .openName _ | .close _ => True

variable {s s' : DirSys} {f : Files} {k : ℕ} {fd : ℤ} {buf : ℕ → UInt8}

/-! ### One read -/

/-- The shared position is the number of reads, up to the end of the directory. -/
def Counts (s : DirSys) : Prop := s.files.index = min s.total s.files.bootBlock.numDentries

theorem sysReadDir_onDir (h : s.OnDir fd) : s.files.sysReadDir s.pcb fd buf =
    some ((s.files.dirRead buf).1, (s.files.dirRead buf).2.1, ((s.files.dirRead buf).2.2 : ℤ)) := by
  obtain ⟨h₁, h₂, h₃, h₄⟩ := h
  rw [Files.sysReadDir, if_neg (by omega), if_neg h₃, if_pos h₄]

theorem delivers_dirRead_iff (h : f.index = min k f.bootBlock.numDentries) {k' : ℕ} :
    Delivers f k' buf (f.dirRead buf).2.1 (f.dirRead buf).2.2 ↔ SameName f k k' := by
  by_cases hend : f.index ≥ f.bootBlock.numDentries
  · rw [Files.dirRead, if_pos hend]
    constructor
    · intro hdel
      have hk' : ¬ k' < f.bootBlock.numDentries := fun hlt => (hdel.entry hlt).1 rfl
      exact ⟨iff_of_false (by omega) hk', fun hk => by omega⟩
    · intro hsame
      have hk' : ¬ k' < f.bootBlock.numDentries := fun hlt => by
        have hk := hsame.1.2 hlt
        omega
      exact ⟨fun hlt => absurd hlt hk', fun _ => ⟨rfl, rfl⟩⟩
  · have hk : f.index = k := by omega
    have hlt : k < f.bootBlock.numDentries := by omega
    rw [Files.dirRead, if_neg hend, hk]
    have hcopy : ∀ j < 32, copy buf 0 (f.bootBlock.dentries k).filename 0 32 j =
        (f.bootBlock.dentries k).filename j := by
      intro j hj
      rw [copy_apply, if_pos (by omega), Nat.zero_add, Nat.sub_zero]
    constructor
    · intro hdel
      have hk' : k' < f.bootBlock.numDentries := by
        by_contra hge
        have hval := (hdel.atEnd (by omega)).1
        simp at hval
      refine ⟨iff_of_true hlt hk', fun _ j hj => ?_⟩
      rw [← hcopy j hj]
      exact (hdel.entry hk').2 j hj
    · intro hsame
      refine ⟨fun _ => ⟨by simp, fun j hj => ?_⟩, fun hge => ?_⟩
      · rw [← hsame.2 hlt j hj]
        exact hcopy j hj
      · have hk' := hsame.1.1 hlt
        omega

theorem Counts.callMeets_iff (h : s.Counts) (l : DirCall) : s.CallMeets l ↔ s.CallFits l := by
  cases l with
  | run p => exact Iff.rfl
  | openName name => exact Iff.rfl
  | close fd => exact Iff.rfl
  | read fd buf =>
    refine forall_congr' fun hdir => ?_
    rw [← delivers_dirRead_iff h, sysReadDir_onDir hdir]
    constructor
    · rintro ⟨f, buf', val, heq, hdel⟩
      cases heq
      exact hdel
    · exact fun hdel => ⟨_, _, _, rfl, hdel⟩

/-! ### Runs -/

theorem sysClose_index {f : Files} {p : Pcb} {fd : ℤ} :
    (f.sysClose p fd).1.bootBlock = f.bootBlock ∧ (f.sysClose p fd).1.index =
      if (f.sysClose p fd).2.2 = 0 ∧ (p.fileDesc fd.toNat).fops = .dir then 0 else f.index := by
  by_cases hbad : fd < 2 ∨ fd > 7 ∨ (p.fileDesc fd.toNat).flags = 0
  · rw [Files.sysClose_bad hbad, if_neg (by simp)]
    exact ⟨rfl, rfl⟩
  · rw [Files.sysClose, if_neg (by omega), if_neg (by omega)]
    rcases hops : (p.fileDesc fd.toNat).fops with _ | _ | _ | _ | _
    all_goals simp [Files.closeOp]

theorem dirRead_index {f : Files} : (f.dirRead buf).1.bootBlock = f.bootBlock ∧
    (f.dirRead buf).1.index =
      if f.index ≥ f.bootBlock.numDentries then f.index else f.index + 1 := by
  unfold Files.dirRead
  split_ifs <;> exact ⟨rfl, rfl⟩

theorem Counts.step (h : s.Counts) {l : DirCall} (hst : dirMachine.step s l = some s') :
    s'.Counts := by
  unfold Counts at h ⊢
  cases l with
  | run p =>
    cases hst
    exact h
  | openName name =>
    rcases s.files.sysOpen_cases s.pcb name with hopen | ⟨fd, d, f', -, -, hsame, hidx, hopen, -⟩
    · simp only [dirMachine, hopen] at hst
      cases hst
      exact h
    · have hfd : ¬ (fd : ℤ) = -1 := by omega
      simp only [dirMachine, hopen] at hst
      cases hst
      simp only [if_neg hfd, setReads, returned]
      rw [hidx, hsame.2, h]
  | close fd =>
    have hclose : (s.files.sysClose s.pcb fd).1.bootBlock = s.files.bootBlock ∧
        (s.files.sysClose s.pcb fd).1.index = if s.Resets fd then 0 else s.files.index :=
      sysClose_index
    simp only [dirMachine] at hst
    cases hst
    -- `dir_close` sets `index` back for all descriptors
    by_cases hreset : s.Resets fd
    · simp only [returned, hclose.1, hclose.2, if_pos hreset]
      exact (Nat.zero_min _).symm
    · simp only [returned, hclose.1, hclose.2, if_neg hreset]
      exact h
  | read fd buf =>
    by_cases hbad : fd < 0 ∨ fd > 7 ∨ (s.pcb.fileDesc fd.toNat).flags = 0
    · have hread : s.files.sysReadDir s.pcb fd buf = some (s.files, buf, -1) := by
        unfold Files.sysReadDir
        split_ifs
        · rfl
        · rfl
        · omega
        · omega
      simp only [dirMachine, hread] at hst
      cases hst
      exact h
    · by_cases hdir : (s.pcb.fileDesc fd.toNat).fops = .dir
      · have hval : ¬ ((s.files.dirRead buf).2.2 : ℤ) = -1 := by omega
        simp only [dirMachine, sysReadDir_onDir ⟨by omega, by omega, by omega, hdir⟩] at hst
        cases hst
        simp only [if_neg hval, setReads, returned, dirRead_index]
        split_ifs with hend
        · omega
        · omega
      · have hnone : s.files.sysReadDir s.pcb fd buf = none := by
          rw [Files.sysReadDir, if_neg (by omega), if_neg (by omega), if_neg hdir]
        simp [dirMachine, hnone] at hst

/-- Processes that have just been started by `execute`. -/
def start (d : Disk) (stale : ℕ → Pcb) (live : ℕ) : DirSys where
  files := fileInit d
  live := live
  pcbs p := (stale p).initDescs
  reads _ _ := 0
  total := 0

theorem counts_start {d : Disk} {stale : ℕ → Pcb} {live : ℕ} : (start d stale live).Counts :=
  (Nat.zero_min _).symm

/-- **The directory is read in order** on every descriptor of a run exactly if every descriptor,
at each of its reads, has been read as often as the directory since it was last closed, or leads to
an entry of the same name. -/
theorem dirReads_meet_iff (d : Disk) (stale : ℕ → Pcb) (live : ℕ) (ls : List DirCall) :
    dirMachine.Steps CallMeets (start d stale live) ls ↔
      dirMachine.Steps CallFits (start d stale live) ls :=
  Machine.steps_iff_steps (I := Counts) (fun _ l _ hs _ => hs.callMeets_iff l)
    (fun _ _ _ hs _ hst => hs.step hst) counts_start ls

/-- A directory of one entry, read first on the descriptor 2 and then on 3. -/
theorem exec_two_readers : (dirMachine.exec (start FileSys.smallDisk (fun _ => FileSys.blankPcb) 0)
    [.openName dotName, .openName dotName, .read 2 (fun _ => 0)]).map (fun s =>
      (s.live, s.total, s.reads 0 3, s.files.bootBlock.numDentries, (s.pcbs 0).fileDesc 3)) =
    some (0, 1, 0, 1, ⟨.dir, 0, 0, 1⟩) := by
  decide +kernel

/-- The entry that one descriptor has read is missing on the other one. -/
theorem dirReads_not_meet : ¬ ∀ d stale live ls,
    dirMachine.Steps CallMeets (start d stale live) ls := by
  intro h
  have hsteps := h FileSys.smallDisk (fun _ => FileSys.blankPcb) 0
    ([.openName dotName, .openName dotName, .read 2 (fun _ => 0)] ++ [.read 3 (fun _ => 0)])
  obtain ⟨s, hexec, hs⟩ := Option.map_eq_some_iff.1 exec_two_readers
  simp only [Prod.mk.injEq] at hs
  obtain ⟨hlive, htotal, hreads, hnum, hdesc⟩ := hs
  have hdir : s.OnDir 3 := by
    refine ⟨by decide, by decide, ?_, ?_⟩
    · rw [pcb, hlive, show (3 : ℤ).toNat = 3 from rfl, hdesc]
      decide
    · rw [pcb, hlive, show (3 : ℤ).toNat = 3 from rfl, hdesc]
  have hcounts : s.Counts := (Machine.reachable_of_exec hexec).invariant counts_start
    fun _ _ _ hs _ hst => hs.step hst
  have hstep : (dirMachine.step s (.read 3 fun _ => 0)).isSome := by
    simp [dirMachine, sysReadDir_onDir hdir]
  obtain ⟨s', hst⟩ := Option.isSome_iff_exists.1 hstep
  have hfits := (hcounts.callMeets_iff _).1 (hsteps.last hexec hst) hdir
  rw [htotal, hlive, show (3 : ℤ).toNat = 3 from rfl, hreads] at hfits
  have hlt := hfits.1.2 (by omega)
  omega

end DirSys

end KTeamOS
