import KTeamOS.File.Descriptor

/-!
# The descriptor table as an allocator

What `open` and `close` are for, on the table of descriptors as a whole: an allocator of the six
slots 2 to 7.  Every `close` of a run meets its purpose, and every `open` does, except where the
lookup finds a name that no entry has (`calls_meet_iff`).
-/

namespace KTeamOS

namespace Files

/-- The operations that a name is opened with, if it can be opened. -/
def opensAs (f : Files) (name : CString) : Option Ops :=
  if name = dotName then some .dir
  else if name = rtcName then some .rtc
  else if f.HasEntry name then some .file
  else none

theorem Extends.length_lt {f : Files} {name : CString} (h : f.Extends name) :
    32 < name.chars.length := by
  obtain ⟨-, i, -, hlong⟩ := h
  exact hlong.2.2.1

end Files

/-- `p'` is `p` with the descriptor `fd` opened for the operations `o`. -/
structure Opened (p p' : Pcb) (fd : ℕ) (o : Ops) : Prop where
  flags : (p'.fileDesc fd).flags = 1
  fops : (p'.fileDesc fd).fops = o
  filePos : o = .file → (p'.fileDesc fd).filePos = 0
  others : ∀ fd' ≠ fd, p'.fileDesc fd' = p.fileDesc fd'

/-- `p'` is `p` with the descriptor `fd` closed. -/
structure Closed (p p' : Pcb) (fd : ℕ) : Prop where
  flags : (p'.fileDesc fd).flags = 0
  others : ∀ fd' ≠ fd, p'.fileDesc fd' = p.fileDesc fd'

namespace FileSys

/-- What `open` is for. -/
def OpenMeets (s : FileSys) (name : CString) : Prop :=
  ∃ f p ret, s.files.sysOpen s.pcb name.mem = some (f, p, ret) ∧
    (∀ fd o, IsLeast {fd | s.pcb.Unused fd} fd → s.files.opensAs name = some o →
      ret = fd ∧ Opened s.pcb p fd o) ∧
    (ret = -1 ↔ (∀ fd, ¬ s.pcb.Unused fd) ∨ s.files.opensAs name = none) ∧
    (ret = -1 → p.fileDesc = s.pcb.fileDesc)

/-- What `close` is for. -/
def CloseMeets (s : FileSys) (fd : ℤ) : Prop :=
  ∃ f p ret, s.files.sysClose s.pcb fd = (f, p, ret) ∧ (ret = 0 ∨ ret = -1) ∧
    (ret = 0 ↔ 2 ≤ fd ∧ fd < 8 ∧ (s.pcb.fileDesc fd.toNat).flags ≠ 0) ∧
    (ret = 0 → Closed s.pcb p fd.toNat) ∧ (ret = -1 → p.fileDesc = s.pcb.fileDesc)

/-- The call meets its purpose. -/
def CallMeets (s : FileSys) : FileCall → Prop
  | .openName name => s.OpenMeets name
  | .close fd => s.CloseMeets fd
  | .run _ | .read .. => True

/-- The call is not an `open`, with a descriptor left, of a name that goes on behind the 32
characters of an entry. -/
def CallFits (s : FileSys) : FileCall → Prop
  | .openName name => (∃ fd, s.pcb.Unused fd) → ¬ s.files.Extends name
  | .run _ | .close _ | .read .. => True

variable {s s' : FileSys} {name : CString} {fd n : ℕ} {d : FileDesc} {f : Files} {o : Ops}

/-! ### One call -/

theorem openMeets_of_filled (hopen : s.files.sysOpen s.pcb name.mem =
    some (f, s.pcb.setDesc fd d, (fd : ℤ))) (hleast : IsLeast {fd | s.pcb.Unused fd} fd)
    (ho : s.files.opensAs name = some o)
    (hd : d.flags = 1 ∧ d.fops = o ∧ (o = .file → d.filePos = 0)) :
    s.OpenMeets name := by
  refine ⟨f, _, fd, hopen, fun fd' o' hfd' ho' => ?_, ?_, fun hret => ?_⟩
  · obtain rfl := hleast.unique hfd'
    obtain rfl : o = o' := Option.some.inj (ho.symm.trans ho')
    refine ⟨rfl, ⟨?_, ?_, ?_, fun fd'' hne => Pcb.setDesc_of_ne hne⟩⟩
    · rw [Pcb.setDesc_self]
      exact hd.1
    · rw [Pcb.setDesc_self]
      exact hd.2.1
    · rw [Pcb.setDesc_self]
      exact hd.2.2
  · refine iff_of_false (by omega) ?_
    rintro (hnone | hnone)
    · exact hnone fd hleast.1
    · rw [ho] at hnone
      cases hnone
  · omega

theorem openMeets_of_unchanged (hopen : s.files.sysOpen s.pcb name.mem = some (f, s.pcb, -1))
    (hnone : (∀ fd, ¬ s.pcb.Unused fd) ∨ s.files.opensAs name = none) : s.OpenMeets name := by
  refine ⟨f, _, -1, hopen, fun fd o hfd ho => ?_, iff_of_true rfl hnone, fun _ => rfl⟩
  rcases hnone with hnone | hnone
  · exact absurd hfd.1 (hnone fd)
  · rw [ho] at hnone
    cases hnone

/-- **One `open`** meets its purpose exactly if it fits. -/
theorem openMeets_iff : s.OpenMeets name ↔ s.CallFits (.openName name) := by
  rcases hfree : s.pcb.freeFd with _ | fd
  · have hfull := Pcb.freeFd_eq_none.1 hfree
    refine iff_of_true (openMeets_of_unchanged (Files.sysOpen_full hfree) (.inl hfull)) ?_
    rintro ⟨fd, hfd⟩
    exact absurd hfd (hfull fd)
  · have hleast := Pcb.isLeast_freeFd hfree
    have hspecial : name.chars.length ≤ 32 → s.CallFits (.openName name) :=
      fun hle _ hext => absurd hext.length_lt (Nat.not_lt.2 hle)
    by_cases hdot : name = dotName
    · subst hdot
      exact iff_of_true (openMeets_of_filled (Files.sysOpen_dot hfree) hleast rfl
        ⟨rfl, rfl, fun h => by cases h⟩) (hspecial (by decide))
    · by_cases hrtc : name = rtcName
      · subst hrtc
        exact iff_of_true (openMeets_of_filled (Files.sysOpen_rtc hfree) hleast rfl
          ⟨rfl, rfl, fun h => by cases h⟩) (hspecial (by decide))
      · have hfound := Files.fileOpen_isSome_iff (f := s.files) (a := name)
        have hfits : s.CallFits (.openName name) ↔ ¬ s.files.Extends name :=
          ⟨fun h => h ⟨fd, hleast.1⟩, fun h _ => h⟩
        rw [hfits]
        rcases hname : s.files.fileOpen name.mem with _ | f'
        · rw [hname] at hfound
          obtain ⟨hno, hext⟩ := not_or.1 (mt hfound.2 (by simp))
          refine iff_of_true (openMeets_of_unchanged
            (Files.sysOpen_missing hfree hdot hrtc hname) (.inr ?_)) hext
          rw [Files.opensAs, if_neg hdot, if_neg hrtc, if_neg hno]
        · rw [hname] at hfound
          obtain ⟨i, -, -, hopen⟩ := Files.sysOpen_file hfree hdot hrtc hname
          rcases hfound.1 rfl with hyes | hext
          · refine iff_of_true (openMeets_of_filled hopen hleast ?_ ⟨rfl, rfl, fun _ => rfl⟩)
              fun hext => hext.1 hyes
            rw [Files.opensAs, if_neg hdot, if_neg hrtc, if_pos hyes]
          · refine iff_of_false ?_ (not_not.2 hext)
            -- the code returns a descriptor for a name that no entry has
            rintro ⟨f, p, ret, hret, -, hfail, -⟩
            rw [hopen] at hret
            have hfd : (fd : ℤ) = ret := congrArg (fun r => r.2.2) (Option.some.inj hret)
            have hnone : s.files.opensAs name = none := by
              rw [Files.opensAs, if_neg hdot, if_neg hrtc, if_neg hext.1]
            have hminus : ret = -1 := hfail.2 (.inr hnone)
            have hneg : (-1 : ℤ) < fd := Int.lt_of_lt_of_le (by decide) (Int.natCast_nonneg fd)
            exact absurd (hfd.trans hminus) (ne_of_gt hneg)

/-- The descriptors that `open` has filled can be closed. -/
def Closable (s : FileSys) : Prop :=
  ∀ p fd, 2 ≤ fd → fd < 8 → ((s.pcbs p).fileDesc fd).flags ≠ 0 →
    ((s.pcbs p).fileDesc fd).fops ≠ .stdin ∧ ((s.pcbs p).fileDesc fd).fops ≠ .stdout

theorem Closable.closeMeets (h : s.Closable) (fd : ℤ) : s.CloseMeets fd := by
  by_cases hbad : fd < 2 ∨ fd > 7 ∨ (s.pcb.fileDesc fd.toNat).flags = 0
  · refine ⟨_, _, _, Files.sysClose_bad hbad, .inr rfl, iff_of_false (by decide) ?_,
      fun h0 => absurd h0 (by decide), fun _ => rfl⟩
    rintro ⟨h₁, h₂, h₃⟩
    omega
  · have hused : (s.pcb.fileDesc fd.toNat).flags ≠ 0 := by omega
    obtain ⟨hin, hout⟩ := h s.live fd.toNat (by omega) (by omega) hused
    obtain ⟨f', -, hclose⟩ := Files.sysClose_used (f := s.files) (by omega) hused hin hout
    refine ⟨_, _, _, hclose, .inl rfl, iff_of_true rfl ⟨by omega, by omega, hused⟩, fun _ => ?_,
      fun h1 => absurd h1 (by decide)⟩
    refine ⟨?_, fun fd' hne => ?_⟩
    · change ((s.pcb.setFlags fd.toNat 0).fileDesc fd.toNat).flags = 0
      rw [Pcb.setFlags, Pcb.setDesc_self]
    · change (s.pcb.setFlags fd.toNat 0).fileDesc fd' = s.pcb.fileDesc fd'
      rw [Pcb.setFlags, Pcb.setDesc_of_ne hne]

/-! ### Runs of calls -/

theorem Closable.setFd (h : s.Closable) {p : Pcb}
    (hp : p.fileDesc = Function.update s.pcb.fileDesc fd d)
    (hd : d.fops ≠ .stdin ∧ d.fops ≠ .stdout) : (s.returned f p).Closable := by
  intro a fd' h₁ h₂ hflags
  by_cases ha : a = s.live
  · subst ha
    simp only [returned, Function.update_self, hp] at hflags ⊢
    by_cases hfd : fd' = fd
    · subst hfd
      rwa [Function.update_self]
    · rw [Function.update_of_ne hfd] at hflags ⊢
      exact h _ fd' h₁ h₂ hflags
  · simp only [returned, Function.update_of_ne ha] at hflags ⊢
    exact h a fd' h₁ h₂ hflags

theorem Closable.unchanged (h : s.Closable) : (s.returned f s.pcb).Closable := by
  unfold Closable returned
  rw [Function.update_eq_self]
  exact h

theorem Closable.step (h : s.Closable) {l : FileCall} (hst : fileMachine.step s l = some s') :
    s'.Closable := by
  cases l with
  | run p =>
    cases hst
    exact h
  | openName name =>
    rcases s.files.sysOpen_cases s.pcb name with hopen | ⟨fd, d, f', -, -, -, -, hopen, hd⟩
    · rw [step_open_fails hopen] at hst
      cases hst
      exact h.unchanged
    · rw [step_open hopen] at hst
      cases hst
      refine h.setFd (f := f') rfl ?_
      rcases hd with hd | hd | ⟨i, -, -, rfl⟩
      · simp [hd]
      · simp [hd]
      · simp
  | close fd =>
    by_cases hbad : fd < 2 ∨ fd > 7 ∨ (s.pcb.fileDesc fd.toNat).flags = 0
    · simp only [fileMachine, Files.sysClose_bad hbad] at hst
      cases hst
      exact h.unchanged
    · have hused : (s.pcb.fileDesc fd.toNat).flags ≠ 0 := by omega
      have hops := h s.live fd.toNat (by omega) (by omega) hused
      obtain ⟨f', -, hclose⟩ := Files.sysClose_used (f := s.files) (by omega) hused hops.1 hops.2
      simp only [fileMachine, hclose] at hst
      cases hst
      exact h.setFd (f := f') rfl hops
  | read fd buf n =>
    by_cases hbad : fd < 0 ∨ fd > 7 ∨ (s.pcb.fileDesc fd.toNat).flags = 0
    · simp only [fileMachine, Files.sysRead_bad hbad] at hst
      cases hst
      exact h.unchanged
    · obtain ⟨k, rfl⟩ := Int.eq_ofNat_of_zero_le (a := fd) (by omega)
      rw [Int.toNat_natCast] at hbad
      by_cases hfops : (s.pcb.fileDesc k).fops = .file
      · rw [step_read (Files.sysRead_file (by omega) (by omega) hfops)] at hst
        cases hst
        exact h.setFd (f := s.files) rfl (by simp [hfops])
      · have hnone : s.files.sysRead s.pcb k buf n = none := by
          rw [Files.sysRead, if_neg (by omega), Int.toNat_natCast, if_neg (by omega), if_neg hfops]
        simp [fileMachine, hnone] at hst

/-- Processes that have just been started by `execute`, with any contents of the uninitialised
parts of their blocks. -/
def start (f : Files) (stale : ℕ → Pcb) (live : ℕ) : FileSys where
  files := f
  live := live
  pcbs p := (stale p).initDescs
  sessions _ _ := none

theorem closable_start {stale : ℕ → Pcb} {live : ℕ} : (start f stale live).Closable :=
  fun _ _ h₁ h₂ hflags => absurd (Pcb.initDescs_flags ⟨h₁, h₂⟩) hflags

/-- **The descriptor table is an allocator.**  In a run of calls of processes that `execute` has
started, every call meets its purpose exactly if no `open`, with a descriptor left, is given a name
that goes on behind the 32 characters of an entry. -/
theorem calls_meet_iff (f : Files) (stale : ℕ → Pcb) (live : ℕ) (ls : List FileCall) :
    fileMachine.Steps CallMeets (start f stale live) ls ↔
      fileMachine.Steps CallFits (start f stale live) ls := by
  refine Machine.steps_iff_steps (I := Closable) (fun s l s' hs _ => ?_)
    (fun s l s' hs _ hst => hs.step hst) closable_start ls
  cases l with
  | run p => exact Iff.rfl
  | openName name => exact openMeets_iff
  | close fd => exact iff_of_true (hs.closeMeets fd) trivial
  | read fd buf n => exact Iff.rfl

/-- A directory with one file, whose name is 32 times `a`. -/
def longFiles : Files where
  disk := ⟨fun _ => 0, 0⟩
  bootBlock := ⟨1, 1, 1, fun _ => ⟨fun j => if j < 32 then 0x61 else if j = 32 then 2 else 0⟩⟩
  getEntry := none
  index := 0

/-- The name of that file, then a blank and `b`. -/
def longName : CString := ⟨List.replicate 32 0x61 ++ [0x20, 0x62], by decide⟩

/-- A block before `execute` has filled it in. -/
def blankPcb : Pcb := ⟨0, none, none, 0, none, 0, 0, 0, fun _ => ⟨.file, 0, 0, 0⟩⟩

/-- A name that no entry has is opened. -/
theorem calls_not_meet : ¬ ∀ f stale live ls,
    fileMachine.Steps CallMeets (start f stale live) ls := by
  intro h
  have hsome : (fileMachine.step (start longFiles (fun _ => blankPcb) 0)
      (.openName longName)).isSome := by decide +kernel
  obtain ⟨s', hst⟩ := Option.isSome_iff_exists.1 hsome
  have hmeets := (h longFiles (fun _ => blankPcb) 0 [.openName longName] s' hst).1
  have hunused : (start longFiles (fun _ => blankPcb) 0).pcb.Unused 2 :=
    ⟨by decide, by decide, Pcb.initDescs_flags ⟨by decide, by decide⟩⟩
  exact openMeets_iff.1 hmeets ⟨2, hunused⟩ (by decide +kernel)

end FileSys

end KTeamOS
