import KTeamOS.System.Kernel

/-!
# What the steps of the system do

One lemma for each operation of `Kernel`: what it can lead to (`execute_cases`,
`contextSwitch_cases`, `pitIrq_cases`, `halt_cases`), and `step_cases` for a step of the machine.
The invariants of the system are proved from these.

## Main definitions

* `Kernel.Quiet` : the states differ only in what no switch depends on.
* `Kernel.Starts` : `execute` starts a process.
* `Kernel.Outcome` : the ways a step can go.
-/

namespace KTeamOS

namespace Pcb

/-- The blocks agree on what `execute` sets and nothing else changes. -/
structure SameLinks (p p' : Pcb) : Prop where
  pid : p'.pid = p.pid
  parent : p'.parent = p.parent
  kStackPtr : p'.kStackPtr = p.kStackPtr
  shellFlag : p'.shellFlag = p.shellFlag

theorem SameLinks.refl {p : Pcb} : SameLinks p p := ⟨rfl, rfl, rfl, rfl⟩

theorem SameLinks.trans {p p' p'' : Pcb} (h : SameLinks p p') (h' : SameLinks p' p'') :
    SameLinks p p'' :=
  ⟨h'.pid.trans h.pid, h'.parent.trans h.parent, h'.kStackPtr.trans h.kStackPtr,
    h'.shellFlag.trans h.shellFlag⟩

/-- The blocks differ in their descriptors only. -/
structure SameOwner (p p' : Pcb) : Prop extends SameLinks p p' where
  saveStack : p'.saveStack = p.saveStack

theorem SameOwner.refl {p : Pcb} : SameOwner p p := ⟨.refl, rfl⟩

theorem SameOwner.trans {p p' p'' : Pcb} (h : SameOwner p p') (h' : SameOwner p' p'') :
    SameOwner p p'' :=
  ⟨h.toSameLinks.trans h'.toSameLinks, h'.saveStack.trans h.saveStack⟩

theorem sameOwner_setDesc {p : Pcb} {fd : ℕ} {d : FileDesc} : SameOwner p (p.setDesc fd d) :=
  ⟨⟨rfl, rfl, rfl, rfl⟩, rfl⟩

theorem sameOwner_currFd {p : Pcb} {n : ℕ} : SameOwner p { p with currFd := n } :=
  ⟨⟨rfl, rfl, rfl, rfl⟩, rfl⟩

theorem sameOwner_freeDescs {p : Pcb} {n : ℕ} : SameOwner p (p.freeDescs n) := by
  induction n with
  | zero => exact .refl
  | succ n ih => exact ih.trans sameOwner_setDesc

theorem sameOwner_initDescs {p : Pcb} : SameOwner p p.initDescs := by
  unfold initDescs
  exact ((((sameOwner_currFd.trans sameOwner_setDesc).trans sameOwner_setDesc).trans
    sameOwner_setDesc).trans sameOwner_setDesc).trans sameOwner_freeDescs

end Pcb

namespace Files

variable {f f' : Files} {p p' : Pcb}

theorem sameOwner_sysClose {fd : ℤ} : p.SameOwner (f.sysClose p fd).2.1 := by
  unfold sysClose
  split_ifs
  · exact .refl
  · exact .refl
  · dsimp only
    split_ifs
    · exact .refl
    · exact Pcb.sameOwner_setDesc.trans Pcb.sameOwner_currFd

theorem sameOwner_sysOpen {name : CString} {ret : ℤ}
    (h : f.sysOpen p name.mem = some (f', p', ret)) : p.SameOwner p' := by
  rcases sysOpen_cases f p name with hfail | ⟨fd, d, f₁, -, -, -, -, hopen, -⟩
  · rw [hfail] at h
    cases h
    exact .refl
  · rw [hopen] at h
    cases h
    exact Pcb.sameOwner_setDesc

theorem sameOwner_fileRead {fd : ℤ} {buf : ℕ → UInt8} {n : ℕ} {r : Pcb × (ℕ → UInt8) × ℕ}
    (h : f.fileRead p fd buf n = some r) : p.SameOwner r.1 := by
  unfold fileRead at h
  split_ifs at h
  · obtain ⟨e, -, hr⟩ := Option.bind_eq_some_iff.1 h
    cases hr
    exact .refl
  · cases h
    exact Pcb.sameOwner_setDesc

end Files

namespace Kernel

variable {k k' k'' : Kernel} {t u a b fd : ℕ} {c : Ctx} {p q : Process} {command : CString}
  {stale : Stale} {e : SysEvent}

/-! ### Steps that change nothing of interest -/

/-- The states differ in the descriptors of blocks, in the file system, in `arg_buf` and in the
mode of the screen only. -/
structure Quiet (k k' : Kernel) : Prop where
  termLive : k'.termLive = k.termLive
  termPit : k'.termPit = k.termPit
  term : k'.term = k.term
  pidMax : k'.pidMax = k.pidMax
  exePage : k'.exePage = k.exePage
  esp0 : k'.esp0 = k.esp0
  vidmap : k'.vidmap = k.vidmap
  cpu : k'.cpu = k.cpu
  procs : k'.procs = k.procs
  serial : k'.serial = k.serial
  pcb : ∀ a, (k.pcb a).SameOwner (k'.pcb a)

namespace Quiet

theorem refl : Quiet k k :=
  ⟨rfl, rfl, rfl, rfl, rfl, rfl, rfl, rfl, rfl, rfl, fun _ => .refl⟩

theorem trans (h : Quiet k k') (h' : Quiet k' k'') : Quiet k k'' where
  termLive := h'.termLive.trans h.termLive
  termPit := h'.termPit.trans h.termPit
  term := h'.term.trans h.term
  pidMax := h'.pidMax.trans h.pidMax
  exePage := h'.exePage.trans h.exePage
  esp0 := h'.esp0.trans h.esp0
  vidmap := h'.vidmap.trans h.vidmap
  cpu := h'.cpu.trans h.cpu
  procs := h'.procs.trans h.procs
  serial := h'.serial.trans h.serial
  pcb a := (h.pcb a).trans (h'.pcb a)

theorem running (h : Quiet k k') : k'.running = k.running := by
  rw [Kernel.running, h.term, h.termPit]

theorem parentOf (h : Quiet k k') : k'.parentOf = k.parentOf := by
  rw [Kernel.parentOf, h.term, h.termLive]

theorem vars {f : Files} {arg : ℕ → UInt8} {m n : ℕ} {l : List UInt8} :
    Quiet k { k with files := f, argBuf := arg, isModex := m, isPacman := n, lastArgs := l } :=
  ⟨rfl, rfl, rfl, rfl, rfl, rfl, rfl, rfl, rfl, rfl, fun _ => .refl⟩

/-- A new value of the descriptors of one block. -/
theorem setPcb {x : Pcb} (hx : (k.pcb a).SameOwner x) : Quiet k (k.setPcb a x) := by
  refine ⟨rfl, rfl, rfl, rfl, rfl, rfl, rfl, rfl, rfl, rfl, fun b => ?_⟩
  by_cases hb : b = a
  · subst hb
    simpa [Kernel.setPcb] using hx
  · simpa [Kernel.setPcb, Function.update_of_ne hb] using Pcb.SameOwner.refl

theorem setFilesPcb {x : Pcb} {f : Files} (hx : (k.pcb a).SameOwner x) :
    Quiet k ({ k with files := f }.setPcb a x) :=
  .trans vars (.setPcb hx)

end Quiet

theorem quiet_closeFd : Quiet k (k.closeFd a fd) := by
  unfold closeFd
  split_ifs
  · exact .setFilesPcb Files.sameOwner_sysClose
  · exact .refl

theorem quiet_closeAll : Quiet k (k.closeAll a) := by
  unfold closeAll
  induction List.range' 2 6 generalizing k with
  | nil => exact .refl
  | cons fd fds ih => exact quiet_closeFd.trans ih

theorem closeFd_of_ne (hb : b ≠ a) : (k.closeFd a fd).pcb b = k.pcb b := by
  unfold closeFd
  split_ifs
  · exact Function.update_of_ne hb ..
  · rfl

theorem closeAll_of_ne (hb : b ≠ a) : (k.closeAll a).pcb b = k.pcb b := by
  unfold closeAll
  induction List.range' 2 6 generalizing k with
  | nil => rfl
  | cons fd fds ih => exact ih.trans (closeFd_of_ne hb)

/-! ### `execute` -/

/-- `execute` gets as far as starting a process. -/
def Starts (k : Kernel) (command : CString) (stale : Stale) : Prop :=
  k.pidMax < 6 ∧ ∃ f buffer, k.files.fileOpen command.word.mem = some f ∧
    header f stale.buffer = some buffer ∧ Magic buffer

/-- **What `execute` can do**: return without having changed any process, or start one. -/
theorem execute_cases {r : Option ℤ} (h : k.execute c command stale = some (k', r)) :
    (¬ k.Starts command stale ∧ Quiet k k' ∧ k'.pcb = k.pcb) ∨
    (k.Starts command stale ∧ ∃ k₁ entry, Quiet k k₁ ∧ k₁.pcb = k.pcb ∧
      k₁.lastArgs = command.args.chars ∧ k' = k₁.startProcess c entry stale.pcb) := by
  unfold execute at h
  simp only [Option.bind_eq_bind, Option.bind_eq_some_iff] at h
  obtain ⟨k₁, hargs, h⟩ := h
  obtain ⟨hq, hfiles, hmax, hpcb, hlast⟩ : Quiet k k₁ ∧ k₁.files = k.files ∧
      k₁.pidMax = k.pidMax ∧ k₁.pcb = k.pcb ∧ k₁.lastArgs = command.args.chars := by
    unfold setArgs at hargs
    split_ifs at hargs
    all_goals
      cases hargs
      exact ⟨.vars, rfl, rfl, rfl, rfl⟩
  rw [hfiles] at h
  split_ifs at h with hfull
  · cases h
    exact .inl ⟨fun hs => absurd hs.1 (by omega), hq, hpcb⟩
  · rcases hopen : k.files.fileOpen command.word.mem with _ | f
    · rw [hopen] at h
      cases h
      refine .inl ⟨?_, hq, hpcb⟩
      rintro ⟨-, f, buffer, hf, -⟩
      rw [hopen] at hf
      cases hf
    · rw [hopen] at h
      simp only [Option.bind_eq_some_iff] at h
      obtain ⟨buffer, hbuf, h⟩ := h
      have hq' : Quiet k { k₁ with files := f } := hq.trans .vars
      split_ifs at h with hmagic
      · cases h
        exact .inr ⟨⟨by omega, f, buffer, hopen, hbuf, hmagic⟩, { k₁ with files := f },
          le32 buffer 24, hq', hpcb, hlast, rfl⟩
      · cases h
        refine .inl ⟨?_, hq', hpcb⟩
        rintro ⟨-, f', buffer', hf, hbuf', hmagic'⟩
        rw [hopen] at hf
        cases hf
        rw [hbuf] at hbuf'
        cases hbuf'
        exact hmagic hmagic'

section startProcess

variable {n : ℕ} {x : Pcb}

theorem adopt_eq {o : Option ℕ} : k.adopt c a o x = { k with pcb := (k.adopt c a o x).pcb } := by
  cases o <;> rfl

theorem adopt_self {o : Option ℕ} : x.SameOwner ((k.adopt c a o x).pcb a) := by
  rcases o with _ | q
  · simpa [adopt, setPcb] using Pcb.SameOwner.refl
  · by_cases hq : a = q
    · subst hq
      simpa [adopt, setPcb] using ⟨⟨rfl, rfl, rfl, rfl⟩, rfl⟩
    · simpa [adopt, setPcb, Function.update_of_ne hq] using Pcb.SameOwner.refl

/-- The blocks other than the new one keep their links and descriptors; the caller's stack is saved
in the parent's. -/
theorem adopt_of_ne {o : Option ℕ} (hb : b ≠ a) :
    (k.pcb b).SameLinks ((k.adopt c a o x).pcb b) ∧
      ((k.adopt c a o x).pcb b).fileDesc = (k.pcb b).fileDesc ∧
      ((k.adopt c a o x).pcb b).saveStack =
        if o = some b then some c else (k.pcb b).saveStack := by
  rcases o with _ | q
  · simpa [adopt, setPcb, Function.update_of_ne hb] using Pcb.SameLinks.refl
  · by_cases hq : b = q
    · subst hq
      simpa [adopt, setPcb, Function.update_of_ne hb] using ⟨rfl, rfl, rfl, rfl⟩
    · simpa [adopt, setPcb, Function.update_of_ne hb, Function.update_of_ne hq, Ne.symm hq]
        using Pcb.SameLinks.refl

/-- The process that `startProcess` starts. -/
def newProcess (k : Kernel) : Process := ⟨k.serial, k.pidMax + 1, k.lastArgs⟩

@[simp] theorem newProcess_pid : k.newProcess.pid = k.pidMax + 1 := rfl

@[simp] theorem startProcess_termLive : (k.startProcess c n x).termLive = k.termLive := by
  rw [startProcess, adopt_eq]
  rfl

@[simp] theorem startProcess_termPit : (k.startProcess c n x).termPit = k.termPit := by
  rw [startProcess, adopt_eq]
  rfl

@[simp] theorem startProcess_vidmap : (k.startProcess c n x).vidmap = k.vidmap := by
  rw [startProcess, adopt_eq]
  rfl

@[simp] theorem startProcess_cpu : (k.startProcess c n x).cpu = .user k.newProcess := by
  rw [startProcess, adopt_eq]
  rfl

@[simp] theorem startProcess_exePage :
    (k.startProcess c n x).exePage = some (pageOf4mb k.pidMax) := by
  rw [startProcess, adopt_eq]
  rfl

@[simp] theorem startProcess_esp0 : (k.startProcess c n x).esp0 = kStackOf (k.pidMax + 1) := by
  rw [startProcess, adopt_eq]
  rfl

@[simp] theorem startProcess_pidMax : (k.startProcess c n x).pidMax = k.pidMax + 1 := by
  rw [startProcess, adopt_eq]
  rfl

@[simp] theorem startProcess_serial : (k.startProcess c n x).serial = k.serial + 1 := by
  rw [startProcess, adopt_eq]
  rfl

@[simp] theorem startProcess_procs : (k.startProcess c n x).procs =
    Function.update k.procs k.termLive (k.newProcess :: k.procs k.termLive) := by
  rw [startProcess, adopt_eq]
  rfl

@[simp] theorem startProcess_term : (k.startProcess c n x).term = Function.update k.term k.termLive
    { k.term k.termLive with pcbLive := some (pcbAddr (k.pidMax + 1)) } := by
  rw [startProcess, adopt_eq]
  rfl

theorem startProcess_pcb {k₁ : Kernel}
    (hk₁ : k₁ = (k.setPage k.pidMax).adopt c (pcbAddr (k.pidMax + 1)) k.parentOf (k.newPcb n x)) :
    (k.startProcess c n x).pcb = Function.update k₁.pcb (pcbAddr (k.pidMax + 1))
      (k₁.pcb (pcbAddr (k.pidMax + 1))).initDescs := by
  have ha : pcbAddr ((k.setPage k.pidMax).newPcb n x).pid = pcbAddr (k.pidMax + 1) := rfl
  unfold startProcess
  dsimp only
  rw [hk₁, ha]
  generalize pcbAddr (k.pidMax + 1) = a
  rfl

theorem startProcess_self : (k.newPcb n x).SameOwner
    ((k.startProcess c n x).pcb (pcbAddr (k.pidMax + 1))) := by
  rw [startProcess_pcb rfl, Function.update_self]
  exact adopt_self.trans Pcb.sameOwner_initDescs

theorem startProcess_of_ne (hb : b ≠ pcbAddr (k.pidMax + 1)) :
    (k.pcb b).SameLinks ((k.startProcess c n x).pcb b) ∧
      ((k.startProcess c n x).pcb b).fileDesc = (k.pcb b).fileDesc ∧
      ((k.startProcess c n x).pcb b).saveStack =
        if k.parentOf = some b then some c else (k.pcb b).saveStack := by
  rw [startProcess_pcb rfl, Function.update_of_ne hb]
  exact adopt_of_ne (k := k.setPage k.pidMax) hb

end startProcess

/-! ### Switches -/

/-- The program that `context_switch` starts on a terminal without a process. -/
def launchName (n : ℕ) : Option CString :=
  if n = 1 then some shellName else if n = 2 then some pacmanName else none

/-- The state in which `context_switch` has made `n` the live terminal. -/
def faced (k : Kernel) (n : ℕ) : Kernel := { k with termLive := n }.dropSaved n

/-- The state in which `context_switch`, called by `c`, starts a process on the terminal `n`. -/
def readied (k : Kernel) (c : Ctx) (n : ℕ) : Kernel :=
  { ((k.faced n).setActive n 1).setSaved k.termPit (some c) with termPit := n }

theorem setTerm_apply {x : Term} : (k.setTerm t x).term u = if u = t then x else k.term u :=
  Function.update_apply ..

section faced

variable {n : ℕ}

theorem faced_eq : k.faced n = { k with termLive := n, term := (k.faced n).term } := by
  unfold faced dropSaved
  split_ifs <;> rfl

@[simp] theorem faced_pcbLive : ((k.faced n).term u).pcbLive = (k.term u).pcbLive := by
  unfold faced dropSaved
  split_ifs
  · by_cases hu : u = 0
    · subst hu
      simp [setSaved, setTerm]
    · simp [setSaved, setTerm, Function.update_of_ne hu]
  · rfl

theorem faced_saved : ((k.faced n).term u).saved =
    if k.Drops n ∧ u = 0 then none else (k.term u).saved := by
  have hdrops : { k with termLive := n }.Drops n ↔ k.Drops n := Iff.rfl
  unfold faced dropSaved
  by_cases hd : k.Drops n
  · rw [if_pos (hdrops.2 hd), setSaved, setTerm_apply]
    split_ifs with hu hu' hu'
    · rfl
    · exact absurd ⟨hd, hu⟩ hu'
    · exact absurd hu'.2 hu
    · rfl
  · rw [if_neg (hdrops.not.2 hd), if_neg fun h => hd h.1]

theorem readied_eq :
    k.readied c n = { k with termLive := n, termPit := n, term := (k.readied c n).term } := by
  unfold readied
  rw [faced_eq]
  rfl

@[simp] theorem readied_pcbLive : ((k.readied c n).term u).pcbLive = (k.term u).pcbLive := by
  have hactive : (((k.faced n).setActive n 1).term u).pcbLive = (k.term u).pcbLive := by
    rw [setActive, setTerm_apply]
    split_ifs with hu
    · rw [hu, faced_pcbLive]
    · exact faced_pcbLive
  change ((((k.faced n).setActive n 1).setSaved k.termPit (some c)).term u).pcbLive = _
  rw [setSaved, setTerm_apply]
  split_ifs with hu
  · rw [← hactive, hu]
  · exact hactive

theorem readied_saved : ((k.readied c n).term u).saved =
    if u = k.termPit then some c else ((k.faced n).term u).saved := by
  change ((((k.faced n).setActive n 1).setSaved k.termPit (some c)).term u).saved = _
  rw [setSaved, setTerm_apply]
  split_ifs with hu
  · rfl
  · rw [setActive, setTerm_apply]
    split_ifs with hn
    · rw [hn]
    · rfl

end faced

/-- **What `context_switch` can do**: nothing, make another terminal the live one, or also start a
process there. -/
theorem contextSwitch_cases {old n : ℕ} (h : k.contextSwitch c old n stale = some k') :
    (old = n ∧ k' = k) ∨
    (old ≠ n ∧ (k.term n).pcbLive ≠ none ∧ k' = k.faced n) ∨
    (old ≠ n ∧ (k.term n).pcbLive = none ∧ launchName n = none ∧ k' = k.readied c n) ∨
    (old ≠ n ∧ (k.term n).pcbLive = none ∧ ∃ name r, launchName n = some name ∧
      (k.readied c n).execute c name stale = some (k', r)) := by
  have hfaced : { k with termLive := n }.dropSaved n = k.faced n := rfl
  unfold contextSwitch at h
  simp only [hfaced, faced_pcbLive] at h
  split_ifs at h with hold hlive
  · cases h
    exact .inl ⟨hold, rfl⟩
  · refine .inr (.inr ?_)
    have hready : { ((k.faced n).setActive n 1).setSaved (k.faced n).termPit (some c) with
        termPit := n } = k.readied c n := by
      rw [readied, faced_eq]
    unfold launch launchName at *
    dsimp only at h
    rw [hready] at h
    split_ifs at h ⊢ with h₁ h₂
    · obtain ⟨⟨k₁, r⟩, hexec, hk₁⟩ := Option.map_eq_some_iff.1 h
      cases hk₁
      exact .inr ⟨hold, hlive, _, r, rfl, hexec⟩
    · obtain ⟨⟨k₁, r⟩, hexec, hk₁⟩ := Option.map_eq_some_iff.1 h
      cases hk₁
      exact .inr ⟨hold, hlive, _, r, rfl, hexec⟩
    · cases h
      exact .inl ⟨hold, hlive, rfl, rfl⟩
  · cases h
    exact .inr (.inl ⟨hold, hlive, rfl⟩)

theorem Quiet.faced {n : ℕ} (h : Quiet k k') : Quiet (k.faced n) (k'.faced n) := by
  have hdrops : { k' with termLive := n }.Drops n ↔ { k with termLive := n }.Drops n := by
    simp only [Drops, h.term]
  unfold Kernel.faced dropSaved
  by_cases hd : { k with termLive := n }.Drops n
  · rw [if_pos hd, if_pos (hdrops.2 hd)]
    refine ⟨rfl, h.termPit, ?_, h.pidMax, h.exePage, h.esp0, h.vidmap, h.cpu, h.procs, h.serial,
      h.pcb⟩
    simp only [setSaved, setTerm, h.term]
  · rw [if_neg hd, if_neg (hdrops.not.2 hd)]
    exact ⟨rfl, h.termPit, h.term, h.pidMax, h.exePage, h.esp0, h.vidmap, h.cpu, h.procs, h.serial,
      h.pcb⟩

theorem Quiet.readied {n : ℕ} (h : Quiet k k') : Quiet (k.readied c n) (k'.readied c n) := by
  have hf : Quiet (k.faced n) (k'.faced n) := h.faced
  refine ⟨hf.termLive, rfl, ?_, hf.pidMax, hf.exePage, hf.esp0, hf.vidmap, hf.cpu, hf.procs,
    hf.serial, hf.pcb⟩
  simp only [Kernel.readied, setActive, setSaved, setTerm, hf.term, h.termPit]

/-! ### The timer -/

/-- **What `pit_irq` can do**: nothing, or load the saved stack of another terminal. -/
theorem pitIrq_cases (h : k.pitIrq = some k') :
    k' = k ∨ ∃ t a c, t ≠ k.termPit ∧ (k.term t).pcbLive = some a ∧ (k.term t).saved = some c ∧
      k' = { k.setSaved k.termPit (some k.cpu) with
        termPit := t
        exePage := some (pageOf4mb ((k.pcb a).pid - 1))
        esp0 := (k.pcb a).kStackPtr
        vidmap := if k.termLive = t then kvidIdx else t + 0xD1
        cpu := c } := by
  unfold pitIrq at h
  rcases hnext : k.nextTerms.find? fun t => (k.term t).pcbLive ≠ none with _ | t
  · rw [hnext] at h
    cases h
    exact .inl rfl
  · rw [hnext] at h
    obtain ⟨a, hlive, h⟩ := Option.bind_eq_some_iff.1 h
    unfold contextSwitchPit at h
    split_ifs at h with hsame
    · cases h
      exact .inl rfl
    · obtain ⟨c, hsaved, h⟩ := Option.bind_eq_some_iff.1 h
      have hother : ((k.setSaved k.termPit (some k.cpu)).term t).saved = (k.term t).saved := by
        rw [setSaved, setTerm_apply, if_neg (Ne.symm hsame)]
      cases h
      exact .inr ⟨t, a, c, Ne.symm hsame, hlive, hother.symm.trans hsaved, rfl⟩

/-! ### `halt` -/

/-- The first branch of `halt`: the terminal has no process any more, and the loop runs. -/
structure ShellHalted (k k' : Kernel) : Prop where
  termLive : k'.termLive = k.termLive ∨ k'.termLive = 0
  cpu : k'.cpu = .spin
  serial : k'.serial = k.serial
  procs : k'.procs = Function.update k.procs k.termPit []
  pcb : ∀ a, (k.pcb a).SameOwner (k'.pcb a)
  termPit : k'.termPit = k.termPit ∨ k'.termPit = 0 ∧ (k.term 0).pcbLive = none
  pcbLive : ∀ u, (k'.term u).pcbLive = if u = k.termPit then none else (k.term u).pcbLive
  saved : ∀ u, u ≠ k.termPit → u ≠ k'.termPit → (k'.term u).saved = (k.term u).saved

/-- The state in which the first branch of `halt` has given up the process. -/
def shellGone (k : Kernel) : Kernel :=
  { (k.setActive k.termPit 0).setPcbLive k.termPit none with
    pidMax := sub32 k.pidMax 1
    procs := Function.update k.procs k.termPit [] }

theorem shellGone_of_ne (hu : u ≠ k.termPit) : k.shellGone.term u = k.term u := by
  change ((k.setActive k.termPit 0).setPcbLive k.termPit none).term u = _
  rw [setPcbLive, setTerm_apply, if_neg hu, setActive, setTerm_apply, if_neg hu]

theorem shellGone_pcbLive : (k.shellGone.term u).pcbLive =
    if u = k.termPit then none else (k.term u).pcbLive := by
  split_ifs with hu
  · change (((k.setActive k.termPit 0).setPcbLive k.termPit none).term u).pcbLive = _
    rw [setPcbLive, setTerm_apply, if_pos hu]
  · rw [shellGone_of_ne hu]

theorem shellHalted_of_switch {k₁ : Kernel} {m : ℕ}
    (h : k.shellGone.contextSwitch .spin k.termPit 0 stale = some k₁) :
    ShellHalted k { k₁.setSaved k₁.termPit none with isModex := m, cpu := .spin } := by
  have hset : ∀ u, ((k₁.setSaved k₁.termPit none).term u).pcbLive = (k₁.term u).pcbLive := by
    intro u
    rw [setSaved, setTerm_apply]
    split_ifs with hu
    · rw [hu]
    · rfl
  have hsaved : ∀ u, u ≠ k₁.termPit →
      ((k₁.setSaved k₁.termPit none).term u).saved = (k₁.term u).saved := by
    intro u hu
    rw [setSaved, setTerm_apply, if_neg hu]
  -- the terminal 0 has no program of its own to start, so the last case does not occur
  rcases contextSwitch_cases h with ⟨-, rfl⟩ | ⟨-, -, rfl⟩ | ⟨hpit, hlive, -, rfl⟩ |
    ⟨-, -, name, r, hname, -⟩
  · refine ⟨.inl rfl, rfl, rfl, rfl, fun _ => .refl, .inl rfl, fun u => ?_, fun u hu hu' => ?_⟩
    · exact (hset u).trans shellGone_pcbLive
    · exact (hsaved u hu).trans (congrArg Term.saved (shellGone_of_ne hu))
  · have hpit : (k.shellGone.faced 0).termPit = k.termPit := by rw [faced_eq]; rfl
    have hlive : (k.shellGone.faced 0).termLive = 0 := by rw [faced_eq]
    have hserial : (k.shellGone.faced 0).serial = k.serial := by rw [faced_eq]; rfl
    refine ⟨.inr hlive, rfl, hserial, ?_, fun b => ?_, .inl hpit, fun u => ?_, fun u hu hu' => ?_⟩
    · change (k.shellGone.faced 0).procs = _
      rw [faced_eq]
      rfl
    · change (k.pcb b).SameOwner ((k.shellGone.faced 0).pcb b)
      rw [faced_eq]
      exact .refl
    · exact (hset u).trans (faced_pcbLive.trans shellGone_pcbLive)
    · refine (hsaved u (by rwa [hpit])).trans ?_
      rw [faced_saved, if_neg fun hd => by simp [Drops] at hd, shellGone_of_ne hu]
  · have hnone : (k.term 0).pcbLive = none := by
      rwa [shellGone_of_ne (Ne.symm hpit)] at hlive
    have hpit' : (k.shellGone.readied .spin 0).termPit = 0 := by rw [readied_eq]
    have hlive' : (k.shellGone.readied .spin 0).termLive = 0 := by rw [readied_eq]
    have hserial : (k.shellGone.readied .spin 0).serial = k.serial := by rw [readied_eq]; rfl
    refine ⟨.inr hlive', rfl, hserial, ?_, fun b => ?_, .inr ⟨hpit', hnone⟩, fun u => ?_,
      fun u hu hu' => ?_⟩
    · change (k.shellGone.readied .spin 0).procs = _
      rw [readied_eq]
      rfl
    · change (k.pcb b).SameOwner ((k.shellGone.readied .spin 0).pcb b)
      rw [readied_eq]
      exact .refl
    · exact (hset u).trans (readied_pcbLive.trans shellGone_pcbLive)
    · refine (hsaved u hu').trans ?_
      have hu₁ : u ≠ k.shellGone.termPit := hu
      rw [readied_saved, if_neg hu₁, faced_saved, if_neg fun hd => by simp [Drops] at hd,
        shellGone_of_ne hu]
  · simp [launchName] at hname

theorem ShellHalted.of_quiet {k₁ : Kernel} (hq : Quiet k k₁) (h : ShellHalted k₁ k') :
    ShellHalted k k' where
  termLive := by rw [← hq.termLive]; exact h.termLive
  cpu := h.cpu
  serial := h.serial.trans hq.serial
  procs := by rw [h.procs, hq.procs, hq.termPit]
  pcb a := (hq.pcb a).trans (h.pcb a)
  termPit := by rw [← hq.termPit, ← hq.term]; exact h.termPit
  pcbLive u := by rw [h.pcbLive, hq.termPit, hq.term]
  saved u hu hu' := by rw [h.saved u (by rwa [hq.termPit]) hu', hq.term]

theorem haltShell_cases (h : k.haltShell a = some k') : ShellHalted k k' := by
  have hq : Quiet k (k.closeAll a) := quiet_closeAll
  unfold haltShell at h
  generalize k.closeAll a = k₂ at hq h
  obtain ⟨k₁, hswitch, h⟩ := Option.bind_eq_some_iff.1 h
  cases h
  exact .of_quiet hq (shellHalted_of_switch hswitch)

/-- The last branch of `halt`: the parent runs on, as the last process of the terminal. -/
structure ChildHalted (k : Kernel) (a q : ℕ) (c : Ctx) (k' : Kernel) : Prop where
  termLive : k'.termLive = k.termLive
  termPit : k'.termPit = k.termPit
  term : k'.term = (k.setPcbLive k.termPit (some q)).term
  pidMax : k'.pidMax = sub32 k.pidMax 1
  exePage : k'.exePage = some (pageOf4mb ((k.pcb q).pid - 1))
  esp0 : k'.esp0 = (k.pcb q).kStackPtr
  vidmap : k'.vidmap = k.vidmap
  cpu : k'.cpu = c
  serial : k'.serial = k.serial
  procs : k'.procs = Function.update k.procs k.termPit (k.procs k.termPit).tail
  pcb : ∀ b, (k.pcb b).SameOwner (k'.pcb b)
  pcb_of_ne : ∀ b, b ≠ a → k'.pcb b = k.pcb b

theorem haltChild_cases {q : ℕ} (h : k.haltChild a q = some k') :
    ∃ c, (k.pcb q).saveStack = some c ∧ ChildHalted k a q c k' := by
  have hq : Quiet k (k.closeAll a) := quiet_closeAll
  have hne : ∀ b, b ≠ a → (k.closeAll a).pcb b = k.pcb b := fun b => closeAll_of_ne
  unfold haltChild at h
  generalize k.closeAll a = k₂ at hq hne h
  obtain ⟨c, hsave, h⟩ := Option.bind_eq_some_iff.1 h
  have hsave' : (k₂.pcb q).saveStack = some c := hsave
  have hmax : sub32 k₂.pidMax 1 = sub32 k.pidMax 1 := by rw [hq.pidMax]
  cases h
  refine ⟨c, (hq.pcb q).saveStack.symm.trans hsave', hq.termLive, hq.termPit, ?_, hmax, ?_,
    (hq.pcb q).kStackPtr, hq.vidmap, rfl, hq.serial, ?_, hq.pcb, hne⟩
  · change (k₂.setPcbLive k.termPit (some q)).term = _
    simp only [setPcbLive, setTerm, hq.term]
  · change some (pageOf4mb ((k₂.pcb q).pid - 1)) = _
    rw [(hq.pcb q).pid]
  · change Function.update k₂.procs k₂.termPit (k₂.procs k₂.termPit).tail = _
    rw [hq.procs, hq.termPit]

/-- **What `halt` can do.** -/
theorem halt_cases (h : k.halt = some k') : ∃ a, k.running = some a ∧
    (((k.pcb a).shellFlag = 1 ∧ ShellHalted k k') ∨
    ((k.pcb a).shellFlag ≠ 1 ∧ (k.pcb a).parent = none ∧ ∃ c, (k.pcb a).saveStack = some c ∧
      k' = { k with
        esp0 := (k.pcb a).kStackPtr - 8192
        pidMax := sub32 k.pidMax 1
        cpu := c }) ∨
    ((k.pcb a).shellFlag ≠ 1 ∧ ∃ q c, (k.pcb a).parent = some q ∧
      (k.pcb q).saveStack = some c ∧ ChildHalted k a q c k')) := by
  unfold halt at h
  obtain ⟨a, hrun, h⟩ := Option.bind_eq_some_iff.1 h
  refine ⟨a, hrun, ?_⟩
  split_ifs at h with hflag
  · exact .inl ⟨hflag, haltShell_cases h⟩
  · rcases hparent : (k.pcb a).parent with _ | q
    · rw [hparent] at h
      obtain ⟨c, hsave, h⟩ := Option.bind_eq_some_iff.1 h
      cases h
      exact .inr (.inl ⟨hflag, rfl, c, hsave, rfl⟩)
    · rw [hparent] at h
      obtain ⟨c, hsave, hchild⟩ := haltChild_cases h
      exact .inr (.inr ⟨hflag, q, c, rfl, hsave, hchild⟩)

end Kernel

/-! ### The steps -/

/-- The terminal that a key or a button turns to, and what is on the stack then. -/
def SysEvent.target (k : Kernel) : SysEvent → Option (ℕ × Stale)
  | keyF1 stale => if k.isPacman = 0 then some (0, stale) else none
  | keyF2 stale =>
    if k.isPacman = 0 then
      if k.termLive = 2 ∧ (k.term 1).pcbLive = none then none else some (1, stale)
    else none
  | mouseTerm stale => if k.isModex = 0 ∨ k.isPacman = 1 then none else some (1, stale)
  | mousePacman stale => if k.isModex = 0 ∨ k.isPacman = 1 then none else some (2, stale)
  | _ => none

/-- The event starts a process. -/
def SysEvent.Begins (k : Kernel) (e : SysEvent) : Prop :=
  (∃ command stale, e = .execute command stale ∧ k.Starts command stale) ∨
    ∃ n stale name, e.target k = some (n, stale) ∧ n ≠ k.termLive ∧ (k.term n).pcbLive = none ∧
      Kernel.launchName n = some name ∧ k.Starts name stale

/-- The event halts the scheduled process. -/
def SysEvent.Halts (k : Kernel) : SysEvent → Prop
  | halt => True
  | keyEsc => k.termLive = 2 ∧ k.termPit = 2
  | _ => False

theorem SysEvent.Halts.not_begins {k : Kernel} {e : SysEvent} (h : e.Halts k) : ¬ e.Begins k := by
  cases e <;> simp [Halts, Begins, target] at h ⊢

theorem SysEvent.not_begins {k : Kernel} {e : SysEvent} (ht : e.target k = none)
    (he : ∀ command stale, e ≠ .execute command stale) : ¬ e.Begins k := by
  rintro (⟨command, stale, rfl, -⟩ | ⟨n, stale, name, ht', -⟩)
  · exact he command stale rfl
  · rw [ht] at ht'
    cases ht'

namespace Kernel

/-- The ways a step of the system can go. -/
inductive Outcome (k : Kernel) : SysEvent → Kernel → Prop
  | quiet {e k'} : ¬ e.Begins k → Quiet k k' → Outcome k e k'
  | vidmap {p} : k.cpu = .user p → Outcome k .vidmap { k with vidmap := kvidIdx }
  /-- `execute` starts a process. -/
  | starts {p command stale k₁ entry} : k.cpu = .user p → k.Starts command stale → Quiet k k₁ →
      k₁.lastArgs = command.args.chars →
      Outcome k (.execute command stale) (k₁.startProcess (.user p) entry stale.pcb)
  /-- A switch to a terminal with a process. -/
  | faces {e n stale k'} : e.target k = some (n, stale) → n ≠ k.termLive →
      (k.term n).pcbLive ≠ none → Quiet (k.faced n) k' → Outcome k e k'
  /-- A switch to a terminal without a process, where none is started. -/
  | idles {e n stale k'} : e.target k = some (n, stale) → n ≠ k.termLive →
      (k.term n).pcbLive = none → (∀ name, launchName n = some name → ¬ k.Starts name stale) →
      Quiet (k.readied k.cpu n) k' → Outcome k e k'
  /-- A switch that starts a process. -/
  | launches {e n stale name k₁ entry k'} : e.target k = some (n, stale) → n ≠ k.termLive →
      (k.term n).pcbLive = none → launchName n = some name → k.Starts name stale →
      Quiet (k.readied k.cpu n) k₁ → k₁.lastArgs = name.args.chars →
      Quiet (k₁.startProcess k.cpu entry stale.pcb) k' → Outcome k e k'
  | timer {k'} : k.pitIrq = some k' → Outcome k .pit k'
  | halts {e k₁ k'} : e.Halts k → Quiet k k₁ → k₁.halt = some k' → Outcome k e k'

variable {k k' : Kernel} {p : Process} {stale : Stale} {e : SysEvent}

theorem starts_readied {c : Ctx} {n : ℕ} {command : CString} :
    (k.readied c n).Starts command stale ↔ k.Starts command stale := by
  rw [readied_eq]
  exact Iff.rfl

/-- A switch from the live terminal, with another mode of the screen before and after. -/
theorem outcome_of_switch {k₁ : Kernel} {n m m' g g' : ℕ} (ht : e.target k = some (n, stale))
    (h : { k with isModex := m, isPacman := g }.contextSwitch k.cpu k.termLive n stale = some k₁) :
    Outcome k e { k₁ with isModex := m', isPacman := g' } := by
  have hq : Quiet k { k with isModex := m, isPacman := g } := .vars
  have hq' : Quiet k₁ { k₁ with isModex := m', isPacman := g' } := .vars
  rcases contextSwitch_cases h with ⟨hsame, rfl⟩ | ⟨hn, hlive, rfl⟩ | ⟨hn, hlive, hname, rfl⟩ |
    ⟨hn, hlive, name, r, hname, hexec⟩
  · refine .quiet ?_ .vars
    rintro (⟨command, stale', rfl, -⟩ | ⟨n', stale', name, ht', hn, -⟩)
    · cases ht
    · rw [ht] at ht'
      cases ht'
      exact hn hsame.symm
  · exact .faces ht (Ne.symm hn) hlive (hq.faced.trans .vars)
  · refine .idles ht (Ne.symm hn) hlive (fun name hname' => ?_) (hq.readied.trans .vars)
    rw [hname] at hname'
    cases hname'
  · rcases execute_cases hexec with ⟨hfail, hq₁, -⟩ | ⟨hstart, k₂, entry, hq₂, -, hargs, rfl⟩
    · refine .idles ht (Ne.symm hn) hlive (fun name' hname' => ?_)
        ((hq.readied.trans hq₁).trans .vars)
      rw [hname] at hname'
      cases hname'
      exact fun hs => hfail (starts_readied.2 hs)
    · have hstart' : k.Starts name stale := by
        rw [starts_readied] at hstart
        exact hstart
      exact .launches ht (Ne.symm hn) hlive hname hstart' (hq.readied.trans hq₂) hargs .vars

/-- **What `read` can do.**  It changes the block of the process or, on the directory, `index`. -/
theorem readFd_cases {fd : ℤ} {buf : ℕ → UInt8} {n : ℕ} (h : k.readFd a fd buf n = some k') :
    k' = k ∨ k' = { k with files := (k.files.dirRead buf).1 } ∨
      ∃ r, k.files.fileRead (k.pcb a) fd buf n = some r ∧ k' = k.setPcb a r.1 := by
  unfold readFd at h
  dsimp only at h
  split_ifs at h
  · exact .inl (Option.some.inj h).symm
  · exact .inl (Option.some.inj h).symm
  · cases hops : ((k.pcb a).fileDesc fd.toNat).fops <;> rw [hops] at h
    case file =>
      obtain ⟨r, hread, hr⟩ := Option.map_eq_some_iff.1 h
      exact .inr (.inr ⟨r, hread, hr.symm⟩)
    case dir => exact .inr (.inl (Option.some.inj h).symm)
    all_goals exact .inl (Option.some.inj h).symm

theorem outcome_of_call (hcpu : k.cpu = .user p) (ht : e.target k = none)
    (h : k.call p e = some k') : Outcome k e k' := by
  cases e with
  | execute command stale =>
    obtain ⟨⟨k₁, r⟩, hexec, hk₁⟩ := Option.map_eq_some_iff.1 h
    cases hk₁
    rcases execute_cases hexec with ⟨hfail, hq, -⟩ | ⟨hstart, k₂, entry, hq, -, hargs, rfl⟩
    · refine .quiet ?_ hq
      rintro (⟨command', stale', he, hstart⟩ | ⟨n, stale', name, ht', -⟩)
      · cases he
        exact hfail hstart
      · rw [ht] at ht'
        cases ht'
    · exact .starts hcpu hstart hq hargs
  | halt => exact .halts trivial .refl h
  | openName name =>
    obtain ⟨a, -, h⟩ := Option.bind_eq_some_iff.1 h
    obtain ⟨⟨f, x, ret⟩, hopen, h⟩ := Option.bind_eq_some_iff.1 h
    cases h
    exact .quiet (SysEvent.not_begins rfl fun _ _ => by simp)
      (.setFilesPcb (Files.sameOwner_sysOpen hopen))
  | close fd =>
    obtain ⟨a, -, h⟩ := Option.bind_eq_some_iff.1 h
    cases h
    exact .quiet (SysEvent.not_begins rfl fun _ _ => by simp)
      (.setFilesPcb Files.sameOwner_sysClose)
  | read fd buf n =>
    obtain ⟨a, -, h⟩ := Option.bind_eq_some_iff.1 h
    refine .quiet (SysEvent.not_begins rfl fun _ _ => by simp) ?_
    obtain rfl | rfl | ⟨r, hread, rfl⟩ := readFd_cases h
    · exact .refl
    · exact .vars
    · exact .setPcb (Files.sameOwner_fileRead hread)
  | vidmap =>
    cases h
    exact .vidmap hcpu
  | getargs | pit | keyF1 | keyF2 | keyEsc | mouseTerm | mousePacman =>
    cases h
    exact .quiet (SysEvent.not_begins ht fun _ _ => by simp) .refl

/-- **What a step can do.** -/
theorem step_cases (h : k.step e = some k') : Outcome k e k' := by
  cases e with
  | pit => exact .timer h
  | keyF1 stale =>
    change k.keyF1 stale = some k' at h
    unfold keyF1 at h
    split_ifs at h with hgame
    · obtain ⟨k₁, hswitch, h⟩ := Option.bind_eq_some_iff.1 h
      cases h
      exact outcome_of_switch (if_pos hgame) hswitch
    · cases h
      exact .quiet (SysEvent.not_begins (if_neg hgame) fun _ _ => by simp) .refl
  | keyF2 stale =>
    change k.keyF2 stale = some k' at h
    unfold keyF2 at h
    by_cases hgame : k.isPacman = 0
    · rw [if_pos hgame] at h
      by_cases hnone : k.termLive = 2 ∧ (k.term 1).pcbLive = none
      · rw [if_pos hnone] at h
        cases h
        have ht : (SysEvent.keyF2 stale).target k = none := by
          simp only [SysEvent.target, if_pos hgame, if_pos hnone]
        exact .quiet (SysEvent.not_begins ht fun _ _ => by simp) .refl
      · rw [if_neg hnone] at h
        have ht : (SysEvent.keyF2 stale).target k = some (1, stale) := by
          simp only [SysEvent.target, if_pos hgame, if_neg hnone]
        exact outcome_of_switch ht h
    · rw [if_neg hgame] at h
      cases h
      exact .quiet (SysEvent.not_begins (if_neg hgame) fun _ _ => by simp) .refl
  | keyEsc =>
    change k.keyEsc = some k' at h
    unfold keyEsc at h
    split_ifs at h with hesc
    · exact .halts hesc .vars h
    · cases h
      exact .quiet (SysEvent.not_begins rfl fun _ _ => by simp) .refl
  | mouseTerm stale =>
    change k.mouseTerm stale = some k' at h
    unfold mouseTerm at h
    split_ifs at h with hmode
    · cases h
      exact .quiet (SysEvent.not_begins (if_pos hmode) fun _ _ => by simp) .refl
    · exact outcome_of_switch (if_neg hmode) h
  | mousePacman stale =>
    change k.mousePacman stale = some k' at h
    unfold mousePacman at h
    split_ifs at h with hmode
    · cases h
      exact .quiet (SysEvent.not_begins (if_pos hmode) fun _ _ => by simp) .refl
    · exact outcome_of_switch (if_neg hmode) h
  | execute | halt | getargs | openName | close | read | vidmap =>
    unfold step at h
    rcases hcpu : k.cpu with p | _
    · simp only [hcpu] at h
      exact outcome_of_call hcpu rfl h
    · simp only [hcpu] at h
      cases h

end Kernel

end KTeamOS
