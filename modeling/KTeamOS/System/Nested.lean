import KTeamOS.System.Schedule

/-!
# Nested calls of `execute`

A process that starts another one gets everything back when that one halts, however deep the calls
of `execute` nest in between, unless the flag of a shell happens to lie on the stack of `execute`
(`execute_halt_iff`).
-/

namespace KTeamOS

/-- The call neither starts a process nor halts one. -/
def SysEvent.Plain (k : Kernel) : SysEvent → Prop
  | execute command stale => ¬ k.Starts command stale
  | getargs | openName _ | close _ | read .. | vidmap => True
  | halt | pit | keyF1 _ | keyF2 _ | keyEsc | mouseTerm _ | mousePacman _ => False

namespace Kernel

/-- Calls of the running process in which each `execute` that starts a process is complete: the
calls of the new process, complete in the same way, end with `halt`. -/
inductive Calls : Kernel → Kernel → Prop
  | refl {k} : Calls k k
  | plain {k k₁ k' e} : e.Plain k → k.step e = some k₁ → Calls k₁ k' → Calls k k'
  | nested {k k₁ k₂ k₃ k' command stale} : k.Starts command stale →
      k.step (.execute command stale) = some k₁ → Calls k₁ k₂ → k₂.step .halt = some k₃ →
      Calls k₃ k' → Calls k k'

variable {k k' k₁ : Kernel} {a b q : ℕ} {p : Process} {c : Ctx} {e : SysEvent} {stale : Stale}
  {command : CString}

/-- Only the block at `a` differs, and that in its descriptors and its child. -/
structure SameBut (a : ℕ) (k k' : Kernel) : Prop where
  termLive : k'.termLive = k.termLive
  termPit : k'.termPit = k.termPit
  pcbLive : ∀ u, (k'.term u).pcbLive = (k.term u).pcbLive
  pidMax : k'.pidMax = k.pidMax
  cpu : k'.cpu = k.cpu
  links : (k.pcb a).SameLinks (k'.pcb a)
  /-- The blocks of the processes that were started before. -/
  others : ∀ i ≤ k.pidMax, pcbAddr i ≠ a → (k.pcb (pcbAddr i)).SameOwner (k'.pcb (pcbAddr i)) ∧
    (k'.pcb (pcbAddr i)).fileDesc = (k.pcb (pcbAddr i)).fileDesc

theorem SameBut.refl : SameBut a k k :=
  ⟨rfl, rfl, fun _ => rfl, rfl, rfl, .refl, fun _ _ _ => ⟨.refl, rfl⟩⟩

theorem SameBut.trans (h : SameBut a k k₁) (h' : SameBut a k₁ k') : SameBut a k k' where
  termLive := h'.termLive.trans h.termLive
  termPit := h'.termPit.trans h.termPit
  pcbLive u := (h'.pcbLive u).trans (h.pcbLive u)
  pidMax := h'.pidMax.trans h.pidMax
  cpu := h'.cpu.trans h.cpu
  links := h.links.trans h'.links
  others i hi hne :=
    have hi' : i ≤ k₁.pidMax := by rw [h.pidMax]; exact hi
    ⟨(h.others i hi hne).1.trans (h'.others i hi' hne).1,
      (h'.others i hi' hne).2.trans (h.others i hi hne).2⟩

theorem sameBut_of_quiet (hq : Quiet k k') (hpcb : ∀ b, b ≠ a → k'.pcb b = k.pcb b) :
    SameBut a k k' where
  termLive := hq.termLive
  termPit := hq.termPit
  pcbLive u := by rw [hq.term]
  pidMax := hq.pidMax
  cpu := hq.cpu
  links := (hq.pcb a).toSameLinks
  others i _ hne := by
    rw [hpcb _ hne]
    exact ⟨.refl, rfl⟩

theorem setPcb_of_ne {x : Pcb} (hb : b ≠ a) : (k.setPcb a x).pcb b = k.pcb b :=
  Function.update_of_ne hb ..

theorem step_call (hcpu : k.cpu = .user p) (he : e.Plain k) : k.step e = k.call p e := by
  cases e <;> first | exact absurd he id | simp only [step, hcpu]

theorem sameBut_plain (hcpu : k.cpu = .user p) (hrun : k.running = some a) (he : e.Plain k)
    (hst : k.step e = some k') : SameBut a k k' := by
  rw [step_call hcpu he] at hst
  cases e with
  | execute command stale =>
    obtain ⟨⟨k₁, r⟩, hexec, hk₁⟩ := Option.map_eq_some_iff.1 hst
    cases hk₁
    rcases execute_cases hexec with ⟨-, hq, hpcb⟩ | ⟨hstart, -⟩
    · exact sameBut_of_quiet hq fun b _ => by rw [hpcb]
    · exact absurd hstart he
  | openName name =>
    obtain ⟨a', hrun', h⟩ := Option.bind_eq_some_iff.1 hst
    obtain rfl : a' = a := Option.some.inj (hrun'.symm.trans hrun)
    obtain ⟨⟨f, x, ret⟩, hopen, h⟩ := Option.bind_eq_some_iff.1 h
    cases h
    exact sameBut_of_quiet (.setFilesPcb (Files.sameOwner_sysOpen hopen)) fun b => setPcb_of_ne
  | close fd =>
    obtain ⟨a', hrun', h⟩ := Option.bind_eq_some_iff.1 hst
    obtain rfl : a' = a := Option.some.inj (hrun'.symm.trans hrun)
    cases h
    exact sameBut_of_quiet (.setFilesPcb Files.sameOwner_sysClose) fun b => setPcb_of_ne
  | read fd buf n =>
    obtain ⟨a', hrun', h⟩ := Option.bind_eq_some_iff.1 hst
    obtain rfl : a' = a := Option.some.inj (hrun'.symm.trans hrun)
    obtain rfl | rfl | ⟨r, hread, rfl⟩ := readFd_cases h
    · exact .refl
    · exact sameBut_of_quiet .vars fun _ _ => rfl
    · exact sameBut_of_quiet (.setPcb (Files.sameOwner_fileRead hread)) fun b => setPcb_of_ne
  | vidmap =>
    cases hst
    exact ⟨rfl, rfl, fun _ => rfl, rfl, rfl, .refl, fun _ _ _ => ⟨.refl, rfl⟩⟩
  | getargs =>
    cases hst
    exact .refl
  | halt | pit | keyF1 | keyF2 | keyEsc | mouseTerm | mousePacman => exact absurd he id

/-- What a call of `execute` leaves that the process `p` with the block at `a` has made and that has
started another process. -/
structure StartedFrom (k : Kernel) (p : Process) (a : ℕ) (stale : Stale) (k₁ : Kernel) : Prop where
  termLive : k₁.termLive = k.termLive
  termPit : k₁.termPit = k.termPit
  pcbLive : ∀ u, (k₁.term u).pcbLive =
    if u = k.termPit then some (pcbAddr (k.pidMax + 1)) else (k.term u).pcbLive
  pidMax : k₁.pidMax = k.pidMax + 1
  cpu : ∃ q, k₁.cpu = .user q
  parent : (k₁.pcb (pcbAddr (k.pidMax + 1))).parent = some a
  shellFlag : (k₁.pcb (pcbAddr (k.pidMax + 1))).shellFlag = stale.pcb.shellFlag
  links : (k.pcb a).SameLinks (k₁.pcb a)
  fileDesc : (k₁.pcb a).fileDesc = (k.pcb a).fileDesc
  saveStack : (k₁.pcb a).saveStack = some (.user p)
  others : ∀ i ≤ k.pidMax, pcbAddr i ≠ a → (k.pcb (pcbAddr i)).SameOwner (k₁.pcb (pcbAddr i)) ∧
    (k₁.pcb (pcbAddr i)).fileDesc = (k.pcb (pcbAddr i)).fileDesc

/-- The block of a new process is not the one of an older process. -/
theorem pcbAddr_ne_next {i : ℕ} (hi : i ≤ k.pidMax) (hmax : k.pidMax < 6) :
    pcbAddr i ≠ pcbAddr (k.pidMax + 1) := fun haddr => by
  have hpid := pcbAddr_inj (by omega) (by omega) haddr
  omega

theorem startedFrom_step {i : ℕ} (hcpu : k.cpu = .user p) (hlive : k.termLive = k.termPit)
    (hrun : k.running = some (pcbAddr i)) (hi : i ≤ k.pidMax) (hstart : k.Starts command stale)
    (hst : k.step (.execute command stale) = some k₁) :
    StartedFrom k p (pcbAddr i) stale k₁ := by
  simp only [step, hcpu] at hst
  obtain ⟨⟨k₂, r⟩, hexec, hk₂⟩ := Option.map_eq_some_iff.1 hst
  cases hk₂
  rcases execute_cases hexec with ⟨hno, -⟩ | ⟨-, k₁, entry, hq, hpcb, -, rfl⟩
  · exact absurd hstart hno
  · have hne : ∀ j ≤ k.pidMax, pcbAddr j ≠ pcbAddr (k₁.pidMax + 1) := fun j hj => by
      rw [hq.pidMax]
      exact pcbAddr_ne_next hj hstart.1
    have hparent : k₁.parentOf = some (pcbAddr i) := by
      rw [hq.parentOf, parentOf, hlive]
      exact hrun
    have hroot : ¬ ((k₁.termLive = 1 ∨ k₁.termLive = 2) ∧ k₁.parentOf = none) := by
      rintro ⟨-, hnone⟩
      rw [hparent] at hnone
      cases hnone
    have hself := startProcess_self (k := k₁) (c := .user p) (n := entry) (x := stale.pcb)
    have hmax : k.pidMax + 1 = k₁.pidMax + 1 := by rw [hq.pidMax]
    dsimp only
    refine ⟨?_, ?_, fun u => ?_, ?_, ⟨_, startProcess_cpu⟩, ?_, ?_, ?_, ?_, ?_, fun j hj hja => ?_⟩
    · rw [startProcess_termLive, hq.termLive]
    · rw [startProcess_termPit, hq.termPit]
    · rw [startProcess_term, hq.termLive, hlive, hq.term, Function.update_apply, hmax]
      split_ifs <;> rfl
    · rw [startProcess_pidMax, hmax]
    · rw [hmax, hself.parent, ← hparent]
      exact if_neg hroot
    · rw [hmax, hself.shellFlag]
      exact if_neg hroot
    · rw [← hpcb]
      exact (startProcess_of_ne (hne i hi)).1
    · rw [← hpcb]
      exact (startProcess_of_ne (hne i hi)).2.1
    · rw [(startProcess_of_ne (hne i hi)).2.2, if_pos hparent]
    · rw [← hpcb]
      obtain ⟨hlinks, hdesc, hsave⟩ := startProcess_of_ne (k := k₁) (c := .user p) (n := entry)
        (x := stale.pcb) (hne j hj)
      rw [if_neg (by rw [hparent]; exact fun h => hja (Option.some.inj h).symm)] at hsave
      exact ⟨⟨hlinks, hsave⟩, hdesc⟩

/-- The end of a nested call: everything is back, but for a new process with the flag of a shell. -/
theorem nested_halt {k₂ k₃ : Kernel} {i : ℕ} (hrun : k.running = some (pcbAddr i))
    (hi : i ≤ k.pidMax) (hmax : k.pidMax < 6) (hcpu : k.cpu = .user p)
    (hs : StartedFrom k p (pcbAddr i) stale k₁) (hcalls : SameBut (pcbAddr (k.pidMax + 1)) k₁ k₂)
    (hhalt : k₂.step .halt = some k₃) :
    (stale.pcb.shellFlag = 1 ∧ k₃.cpu = .spin ∧ (k₃.term k.termPit).pcbLive = none) ∨
    (stale.pcb.shellFlag ≠ 1 ∧ SameBut (pcbAddr i) k k₃ ∧
      (k₃.pcb (pcbAddr i)).fileDesc = (k.pcb (pcbAddr i)).fileDesc ∧
      k₃.exePage = some (pageOf4mb ((k.pcb (pcbAddr i)).pid - 1)) ∧
      k₃.esp0 = (k.pcb (pcbAddr i)).kStackPtr) := by
  obtain ⟨q, hq⟩ := hs.cpu
  have hhalt' : k₂.halt = some k₃ := by
    simp only [step, hcalls.cpu, hq, call] at hhalt
    exact hhalt
  have hne := pcbAddr_ne_next hi hmax
  have hpit : k₂.termPit = k.termPit := hcalls.termPit.trans hs.termPit
  have hrun₂ : k₂.running = some (pcbAddr (k.pidMax + 1)) := by
    rw [running, hpit, hcalls.pcbLive, hs.pcbLive, if_pos rfl]
  -- the caller's block is as the call of `execute` has left it
  obtain ⟨hparent, hdesc⟩ := hcalls.others i (by rw [hs.pidMax]; omega) hne
  obtain ⟨a', hrun', hcases⟩ := halt_cases hhalt'
  obtain rfl : pcbAddr (k.pidMax + 1) = a' := Option.some.inj (hrun₂.symm.trans hrun')
  rw [hcalls.links.shellFlag, hs.shellFlag, hcalls.links.parent, hs.parent] at hcases
  rcases hcases with ⟨hflag, hshell⟩ | ⟨-, hnone, -⟩ | ⟨hflag, b, c, hb, hsave, hchild⟩
  · refine .inl ⟨hflag, hshell.cpu, ?_⟩
    rw [hshell.pcbLive, hpit, if_pos rfl]
  · cases hnone
  · obtain rfl : pcbAddr i = b := Option.some.inj hb
    have hc : c = .user p := by
      rw [hparent.saveStack, hs.saveStack] at hsave
      exact (Option.some.inj hsave).symm
    have hlinks : (k.pcb (pcbAddr i)).SameLinks (k₂.pcb (pcbAddr i)) :=
      hs.links.trans hparent.toSameLinks
    refine .inr ⟨hflag, ⟨?_, ?_, fun u => ?_, ?_, ?_, ?_, fun j hj hji => ?_⟩, ?_, ?_, ?_⟩
    · rw [hchild.termLive, hcalls.termLive, hs.termLive]
    · rw [hchild.termPit, hpit]
    · rw [hchild.term, setPcbLive, setTerm_apply, hpit]
      split_ifs with hu
      · rw [hu]
        exact hrun.symm
      · rw [hcalls.pcbLive, hs.pcbLive, if_neg hu]
    · rw [hchild.pidMax, hcalls.pidMax, hs.pidMax, sub32]
      omega
    · rw [hchild.cpu, hc, hcpu]
    · rw [hchild.pcb_of_ne _ hne]
      exact hlinks
    · have hjne := pcbAddr_ne_next hj hmax
      obtain ⟨howner, hdesc'⟩ := hcalls.others j (by rw [hs.pidMax]; omega) hjne
      obtain ⟨howner', hdesc''⟩ := hs.others j hj hji
      rw [hchild.pcb_of_ne _ hjne]
      exact ⟨howner'.trans howner, hdesc'.trans hdesc''⟩
    · rw [hchild.pcb_of_ne _ hne, hdesc, hs.fileDesc]
    · rw [hchild.exePage, hlinks.pid]
    · rw [hchild.esp0, hlinks.kStackPtr]

theorem Calls.of_spin (h : Calls k k') (hspin : k.cpu = .spin) : k' = k := by
  cases h with
  | refl => rfl
  | @plain _ _ _ e he hst _ => cases e <;> first | exact absurd he id | simp [step, hspin] at hst
  | nested _ hst _ _ _ => simp [step, hspin] at hst

/-- **Complete calls** change nothing but the running process's own block, unless they end in the
loop of `halt`. -/
theorem Calls.sameBut (h : Calls k k') {i : ℕ} (hcpu : k.cpu = .user p)
    (hlive : k.termLive = k.termPit) (hrun : k.running = some (pcbAddr i)) (hi : i ≤ k.pidMax) :
    k'.cpu = .spin ∨ SameBut (pcbAddr i) k k' := by
  induction h generalizing p i with
  | refl => exact .inr .refl
  | @plain k k₁ k' e he hst _ ih =>
    have hplain := sameBut_plain hcpu hrun he hst
    have hrun₁ : k₁.running = some (pcbAddr i) := by
      rw [running, hplain.termPit, hplain.pcbLive]
      exact hrun
    refine (ih (hplain.cpu.trans hcpu) ?_ hrun₁ ?_).imp id hplain.trans
    · rw [hplain.termLive, hplain.termPit, hlive]
    · rw [hplain.pidMax]
      exact hi
  | @nested k k₁ k₂ k₃ k' command stale hstart hst _ hhalt hrest ih₁ ih₂ =>
    have hs := startedFrom_step hcpu hlive hrun hi hstart hst
    obtain ⟨q, hq⟩ := hs.cpu
    -- the calls of the new process
    have hcalls : SameBut (pcbAddr (k.pidMax + 1)) k₁ k₂ := by
      refine (ih₁ hq ?_ ?_ ?_).resolve_left fun hspin => ?_
      · rw [hs.termLive, hs.termPit, hlive]
      · rw [running, hs.termPit, hs.pcbLive, if_pos rfl]
      · rw [hs.pidMax]
      · simp [step, hspin] at hhalt
    rcases nested_halt hrun hi hstart.1 hcpu hs hcalls hhalt with ⟨-, hspin, -⟩ | ⟨-, hback, -⟩
    · rw [hrest.of_spin hspin]
      exact .inl hspin
    · have hrun₃ : k₃.running = some (pcbAddr i) := by
        rw [running, hback.termPit, hback.pcbLive]
        exact hrun
      refine (ih₂ (hback.cpu.trans hcpu) ?_ hrun₃ ?_).imp id hback.trans
      · rw [hback.termLive, hback.termPit, hlive]
      · rw [hback.pidMax]
        exact hi

/-- The state `k'` has what the process `p` had when it called `execute` in the state `k`. -/
structure Restored (k : Kernel) (p : Process) (k' : Kernel) : Prop where
  pidMax : k'.pidMax = k.pidMax
  pcbLive : (k'.term k.termPit).pcbLive = some (pcbAddr p.pid)
  fileDesc : (k'.pcb (pcbAddr p.pid)).fileDesc = (k.pcb (pcbAddr p.pid)).fileDesc
  exePage : k'.exePage = k.exePage
  esp0 : k'.esp0 = k.esp0
  others : ∀ u, u ≠ k.termPit → (k'.term u).pcbLive = (k.term u).pcbLive

/-- **`halt` undoes `execute`**, across complete calls of the new process, exactly if what lies on
the stack where `execute` builds the block is not the flag of a shell, and the page and the stack
were those of the caller. -/
theorem execute_halt_iff {k₂ k₃ : Kernel} (hcpu : k.cpu = .user p)
    (hlive : k.termLive = k.termPit) (hrun : k.running = some (pcbAddr p.pid))
    (hpid : p.pid ≤ k.pidMax) (hstart : k.Starts command stale)
    (hst : k.step (.execute command stale) = some k₁) (hcalls : Calls k₁ k₂)
    (hhalt : k₂.step .halt = some k₃) :
    Restored k p k₃ ↔ stale.pcb.shellFlag ≠ 1 ∧
      k.exePage = some (pageOf4mb ((k.pcb (pcbAddr p.pid)).pid - 1)) ∧
      k.esp0 = (k.pcb (pcbAddr p.pid)).kStackPtr := by
  have hs := startedFrom_step hcpu hlive hrun hpid hstart hst
  obtain ⟨q, hq⟩ := hs.cpu
  have hsame : SameBut (pcbAddr (k.pidMax + 1)) k₁ k₂ := by
    refine (hcalls.sameBut hq ?_ ?_ ?_).resolve_left fun hspin => ?_
    · rw [hs.termLive, hs.termPit, hlive]
    · rw [running, hs.termPit, hs.pcbLive, if_pos rfl]
    · rw [hs.pidMax]
    · simp [step, hspin] at hhalt
  rcases nested_halt hrun hpid hstart.1 hcpu hs hsame hhalt with
    ⟨hflag, -, hnone⟩ | ⟨hflag, hback, hdesc, hpage, hesp⟩
  · refine ⟨fun hr => ?_, fun h => absurd hflag h.1⟩
    have hsome := hr.pcbLive
    rw [hnone] at hsome
    cases hsome
  · refine ⟨fun hr => ⟨hflag, hr.exePage.symm.trans hpage, hr.esp0.symm.trans hesp⟩, ?_⟩
    rintro ⟨-, hpage', hesp'⟩
    exact ⟨hback.pidMax, (hback.pcbLive _).trans hrun, hdesc, hpage.trans hpage'.symm,
      hesp.trans hesp'.symm, fun u _ => hback.pcbLive u⟩

theorem starts_of_step (hcpu : k.cpu = .user p) (hst : k.step (.execute command stale) = some k₁)
    (hmax : k₁.pidMax ≠ k.pidMax) : k.Starts command stale := by
  simp only [step, hcpu] at hst
  obtain ⟨⟨k₂, r⟩, hexec, hk₂⟩ := Option.map_eq_some_iff.1 hst
  cases hk₂
  rcases execute_cases hexec with ⟨-, hq, -⟩ | ⟨hstart, -⟩
  · exact absurd hq.pidMax hmax
  · exact hstart

/-- `gui` starts a program, which calls `vidmap` and halts. -/
theorem execute_halt_boot : ∃ k p k₁ k₂ k₃, k.cpu = .user p ∧
    k.step (.execute lsName zeroStack) = some k₁ ∧ k₁.step .vidmap = some k₂ ∧
    k₂.step .halt = some k₃ ∧
    (Restored k p k₃ ↔ zeroStack.pcb.shellFlag ≠ 1 ∧
      k.exePage = some (pageOf4mb ((k.pcb (pcbAddr p.pid)).pid - 1)) ∧
      k.esp0 = (k.pcb (pcbAddr p.pid)).kStackPtr) := by
  have hrun : ((boot programDisk zeroStack).bind fun k =>
      (k.step (.execute lsName zeroStack)).bind fun k₁ => (k₁.step .vidmap).bind fun k₂ =>
        (k₂.step .halt).map fun _ =>
          (k.cpu, k.termLive, k.termPit, k.running, k.pidMax, k₁.pidMax)) =
        some (.user ⟨0, 1, []⟩, 0, 0, some (pcbAddr 1), 1, 2) := by
    decide +kernel
  obtain ⟨k, -, hrun⟩ := Option.bind_eq_some_iff.1 hrun
  obtain ⟨k₁, hst, hrun⟩ := Option.bind_eq_some_iff.1 hrun
  obtain ⟨k₂, hvidmap, hrun⟩ := Option.bind_eq_some_iff.1 hrun
  obtain ⟨k₃, hhalt, hvals⟩ := Option.map_eq_some_iff.1 hrun
  simp only [Prod.mk.injEq] at hvals
  obtain ⟨hcpu, hlive, hpit, hrunning, hmax, hmax₁⟩ := hvals
  have hstart : k.Starts lsName zeroStack := starts_of_step hcpu hst (by omega)
  have hcalls : Calls k₁ k₂ := .plain (e := .vidmap) trivial hvidmap .refl
  exact ⟨k, _, k₁, k₂, k₃, hcpu, hst, hvidmap, hhalt, execute_halt_iff hcpu (hlive.trans hpit.symm)
    hrunning (by rw [hmax]) hstart hst hcalls hhalt⟩

/-- A stack on which the flag of a shell lies. -/
def flagStack : Stale := { zeroStack with pcb := { zeroStack.pcb with shellFlag := 1 } }

/-- `gui` starts a program where the flag of a shell lies on the stack: when it halts, the terminal
has no process any more. -/
theorem execute_halt_not_restored : ∃ k p command stale k₁ k₂ k₃, k.cpu = .user p ∧
    k.termLive = k.termPit ∧ InPlace k p ∧ p.pid ≤ k.pidMax ∧ k.Starts command stale ∧
    k.step (.execute command stale) = some k₁ ∧ Calls k₁ k₂ ∧ k₂.step .halt = some k₃ ∧
    ¬ Restored k p k₃ := by
  have hrun : ((boot programDisk zeroStack).bind fun k =>
      (k.step (.execute lsName flagStack)).bind fun k₁ => (k₁.step .halt).map fun k₃ =>
        (k.cpu, k.termLive, k.termPit, k.pidMax, k₁.pidMax, (k₃.term 0).pcbLive.isNone)) =
        some (.user ⟨0, 1, []⟩, 0, 0, 1, 2, true) := by
    decide +kernel
  obtain ⟨k, hboot, hrun⟩ := Option.bind_eq_some_iff.1 hrun
  obtain ⟨k₁, hst, hrun⟩ := Option.bind_eq_some_iff.1 hrun
  obtain ⟨k₃, hhalt, hvals⟩ := Option.map_eq_some_iff.1 hrun
  simp only [Prod.mk.injEq] at hvals
  obtain ⟨hcpu, hlive, hpit, hmax, hmax₁, hnone⟩ := hvals
  have hstart : k.Starts lsName flagStack := starts_of_step hcpu hst (by omega)
  refine ⟨k, _, _, _, k₁, k₁, k₃, hcpu, hlive.trans hpit.symm, inPlace_boot hboot hcpu,
    by rw [hmax], hstart, hst, .refl, hhalt, fun hr => ?_⟩
  have hsome := hr.pcbLive
  rw [hpit, Option.isNone_iff_eq_none.1 hnone] at hsome
  cases hsome

end Kernel

end KTeamOS
