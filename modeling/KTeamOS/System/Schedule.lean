import KTeamOS.System.Chain

/-!
# Which process runs

The code that runs is that of the last process of the scheduled terminal, and the saved stacks of
the other terminals lead to their last processes (`Scheduled`), as long as programs are started
from the live terminal only and no switch to an empty terminal fails (`Clean`).

## Main results

* `running_inPlace` : then `pcb_live`, the page directory and the TSS are those of the running
  process, as long as the first process of the terminal 0 does not halt.
* `saved_of_clean` : then `pit_irq` finds the stack of the process that it switches to, as long as
  `context_switch` does not drop it.
-/

namespace KTeamOS

namespace Kernel

variable {k k' : Kernel} {t u : ℕ} {p : Process} {c : Ctx} {e : SysEvent} {stale : Stale}

/-- What lies on the saved stacks: those of the terminals that are not scheduled lead to their last
process, those of the processes to the process itself. -/
structure Parked (k : Kernel) : Prop extends Tracks k where
  saved : ∀ t, t ≠ k.termPit → ∀ p, (k.procs t).head? = some p →
    ∀ c, (k.term t).saved = some c → c = .user p
  saveStack : ∀ t, ∀ p ∈ k.procs t,
    ∀ c, (k.pcb (pcbAddr p.pid)).saveStack = some c → c = .user p

/-- What runs is the last process of the scheduled terminal; the loop of `halt` runs only where
there is none. -/
structure Scheduled (k : Kernel) : Prop extends Parked k where
  user : ∀ p, k.cpu = .user p → (k.procs k.termPit).head? = some p
  spin : k.cpu = .spin → k.procs k.termPit = []

/-- The conditions on a step: a new process gets a fresh pid, a program starts on the live
terminal, and a switch to an empty terminal starts one, unless nothing runs. -/
structure Clean (k : Kernel) (e : SysEvent) : Prop where
  fresh : e.Begins k → Fresh k
  foreground : ∀ command stale, e = .execute command stale → k.Starts command stale →
    k.termLive = k.termPit
  opens : ∀ n stale, e.target k = some (n, stale) → n ≠ k.termLive → (k.term n).pcbLive = none →
    e.Begins k ∨ k.cpu = .spin

/-- A clean switch to an empty terminal that starts nothing happens where nothing runs. -/
theorem Clean.spin_of_idles {n : ℕ} (h : Clean k e) (ht : e.target k = some (n, stale))
    (hn : n ≠ k.termLive) (hlive : (k.term n).pcbLive = none)
    (hno : ∀ name, launchName n = some name → ¬ k.Starts name stale) : k.cpu = .spin := by
  refine (h.opens n stale ht hn hlive).resolve_left ?_
  rintro (⟨command, stale', rfl, -⟩ | ⟨n', stale', name, ht', -, -, hname, hstart⟩)
  · exact absurd ht (by simp [SysEvent.target])
  · rw [ht] at ht'
    cases ht'
    exact hno name hname hstart

/-- The other events are clean wherever they happen. -/
theorem clean_of_target (ht : e.target k = none)
    (he : ∀ command stale, e ≠ .execute command stale) :
    Clean k e where
  fresh hb := absurd hb (SysEvent.not_begins ht he)
  foreground command stale hexec := absurd hexec (he command stale)
  opens n stale ht' := by
    rw [ht] at ht'
    cases ht'

/-- Under the invariant the stack that is loaded or saved for the scheduled terminal is that of its
last process. -/
theorem Scheduled.cpu_eq (h : Scheduled k) (hp : (k.procs k.termPit).head? = some p) :
    k.cpu = .user p := by
  rcases hcpu : k.cpu with q | _
  · rw [h.user q hcpu] at hp
    rw [Option.some.inj hp]
  · rw [h.spin hcpu] at hp
    cases hp

theorem Parked.quiet (h : Parked k) (hq : Quiet k k') : Parked k' where
  toTracks := h.toTracks.quiet hq
  saved := by rw [hq.termPit, hq.procs, hq.term]; exact h.saved
  saveStack t p hp c hc := by
    rw [hq.procs] at hp
    rw [(hq.pcb _).saveStack] at hc
    exact h.saveStack t p hp c hc

theorem Scheduled.quiet (h : Scheduled k) (hq : Quiet k k') : Scheduled k' where
  toParked := h.toParked.quiet hq
  user := by rw [hq.cpu, hq.procs, hq.termPit]; exact h.user
  spin := by rw [hq.cpu, hq.procs, hq.termPit]; exact h.spin

theorem Scheduled.faced {n : ℕ} (h : Scheduled k) (hn : n < 3) : Scheduled (k.faced n) := by
  refine ⟨⟨h.toTracks.faced hn, fun t ht p hp c hc => ?_, ?_⟩, ?_, ?_⟩
  · rw [faced_saved] at hc
    rw [faced_eq] at ht hp
    split_ifs at hc
    exact h.saved t ht p hp c hc
  all_goals rw [faced_eq]
  · exact h.saveStack
  · exact h.user
  · exact h.spin

/-- Before `context_switch` starts a process, the stack of what runs is saved. -/
theorem Scheduled.readied {n : ℕ} (h : Scheduled k) (hn : n < 3) : Parked (k.readied k.cpu n) := by
  refine ⟨h.toTracks.readied hn, fun t ht p hp c hc => ?_, ?_⟩
  · rw [readied_saved, faced_saved] at hc
    rw [readied_eq] at ht hp
    split_ifs at hc with hpit
    · rw [hpit] at hp
      rw [← Option.some.inj hc, h.cpu_eq hp]
    · exact h.saved t hpit p hp c hc
  · rw [readied_eq]
    exact h.saveStack

/-- A new process on the scheduled terminal, started by the last one there, if there is one. -/
theorem Parked.startProcess {n : ℕ} {x : Pcb} (h : Parked k) (hmax : k.pidMax < 6)
    (hfresh : Fresh k) (hpit : k.termLive = k.termPit)
    (hcaller : ∀ q, (k.procs k.termLive).head? = some q → c = .user q) :
    Scheduled (k.startProcess c n x) := by
  refine ⟨⟨h.toTracks.startProcess hmax hfresh, fun t ht p hp c' hc => ?_, fun t p hp c' hc => ?_⟩,
    fun p hp => ?_, fun hspin => ?_⟩
  · rw [startProcess_termPit, ← hpit] at ht
    rw [startProcess_procs, Function.update_of_ne ht] at hp
    rw [startProcess_term, Function.update_of_ne ht] at hc
    exact h.saved t (hpit ▸ ht) p hp c' hc
  · rcases mem_procs_startProcess hp with ⟨-, rfl⟩ | hp
    · rw [newProcess_pid, startProcess_self.saveStack] at hc
      cases hc
    · have hb : pcbAddr p.pid ≠ pcbAddr (k.pidMax + 1) := fun haddr =>
        hfresh t p hp (pcbAddr_inj (h.pid_mem t p hp).2 (by omega) haddr)
      rw [(startProcess_of_ne hb).2.2] at hc
      split_ifs at hc with hparent
      · -- the caller's block is the one of the last process of the terminal
        have hlive := h.live k.termLive
        rw [show (k.term k.termLive).pcbLive = some (pcbAddr p.pid) from hparent] at hlive
        obtain ⟨q, hq, haddr⟩ := Option.map_eq_some_iff.1 hlive.symm
        have hqmem : q ∈ k.procs k.termLive := List.mem_of_mem_head? hq
        have hpid := pcbAddr_inj (h.pid_mem _ q hqmem).2 (h.pid_mem t p hp).2 haddr
        rw [← (h.pid_inj _ _ q hqmem p hp hpid).2, ← Option.some.inj hc]
        exact hcaller q hq
      · exact h.saveStack t p hp c' hc
  · rw [startProcess_cpu] at hp
    rw [startProcess_procs, startProcess_termPit, hpit, Function.update_self]
    cases hp
    rfl
  · rw [startProcess_cpu] at hspin
    cases hspin

theorem Scheduled.pitIrq (h : Scheduled k) (hpit : k.pitIrq = some k') : Scheduled k' := by
  have htracks := h.toTracks.pitIrq hpit
  rcases pitIrq_cases hpit with rfl | ⟨t, a, c, ht, hlive, hsaved, rfl⟩
  · exact h
  · obtain ⟨p, hp, -⟩ := Option.map_eq_some_iff.1 ((h.live t).symm.trans hlive)
    have hc : c = .user p := h.saved t ht p hp c hsaved
    refine ⟨⟨htracks, fun u hu q hq c' hc' => ?_, h.saveStack⟩, fun q hq => ?_, fun hspin => ?_⟩
    · by_cases hold : u = k.termPit
      · subst hold
        change ((k.setSaved k.termPit (some k.cpu)).term k.termPit).saved = some c' at hc'
        rw [setSaved, setTerm_apply, if_pos rfl] at hc'
        rw [← Option.some.inj hc', h.cpu_eq hq]
      · change ((k.setSaved k.termPit (some k.cpu)).term u).saved = some c' at hc'
        rw [setSaved, setTerm_apply, if_neg hold] at hc'
        exact h.saved u hold q hq c' hc'
    · change c = .user q at hq
      rw [hc] at hq
      cases hq
      exact hp
    · change c = .spin at hspin
      rw [hc] at hspin
      cases hspin

theorem Scheduled.halt (h : Scheduled k) (hhalt : k.halt = some k') : Scheduled k' := by
  have htracks := h.toTracks.halt hhalt
  obtain ⟨a, hrun, ⟨-, hs⟩ | ⟨-, -, c, hsave, rfl⟩ | ⟨hflag, q, c, hparent, hsave, hs⟩⟩ :=
    halt_cases hhalt
  · refine ⟨⟨htracks, fun u hu p hp c hc => ?_, fun u p hp c hc => ?_⟩, fun p hp => ?_, fun _ => ?_⟩
    · rw [hs.procs, Function.update_apply] at hp
      split_ifs at hp with hold
      · cases hp
      · rw [hs.saved u hold hu] at hc
        exact h.saved u hold p hp c hc
    · rw [hs.procs, Function.update_apply] at hp
      split_ifs at hp with hold
      · cases hp
      · rw [(hs.pcb _).saveStack] at hc
        exact h.saveStack u p hp c hc
    · rw [hs.cpu] at hp
      cases hp
    · rw [hs.procs, Function.update_apply]
      rcases hs.termPit with hpit | ⟨hpit, hnone⟩
      · rw [if_pos hpit]
      · rw [hpit, h.procs_eq_nil hnone, ite_self]
  · obtain ⟨p, ps, hprocs, ha⟩ := h.running hrun
    rw [ha] at hsave
    have hmem : p ∈ k.procs k.termPit := by
      rw [hprocs]
      exact List.mem_cons_self ..
    have hc : c = .user p := h.saveStack _ p hmem c hsave
    refine ⟨⟨htracks, h.saved, h.saveStack⟩, fun q hq => ?_, fun hspin => ?_⟩
    · change c = .user q at hq
      rw [hc] at hq
      cases hq
      change (k.procs k.termPit).head? = some p
      rw [hprocs]
      rfl
    · change c = .spin at hspin
      rw [hc] at hspin
      cases hspin
  · obtain ⟨p, r, rs, hprocs, -, hq⟩ := h.parent hrun hflag hparent
    have hmem : r ∈ k.procs k.termPit := by
      rw [hprocs]
      exact List.mem_cons_of_mem _ (List.mem_cons_self ..)
    rw [hq] at hsave
    -- the parent saved its stack in `execute`
    have hc : c = .user r := h.saveStack _ r hmem c hsave
    refine ⟨⟨htracks, fun u hu p hp c' hc' => ?_, fun u p hp c' hc' => ?_⟩, fun p hp => ?_,
      fun hspin => ?_⟩
    · rw [hs.termPit] at hu
      rw [hs.procs, Function.update_of_ne hu] at hp
      rw [hs.term, setPcbLive, setTerm_apply, if_neg hu] at hc'
      exact h.saved u hu p hp c' hc'
    · rw [(hs.pcb _).saveStack] at hc'
      refine h.saveStack u p ?_ c' hc'
      rw [hs.procs, Function.update_apply] at hp
      split_ifs at hp with hold
      · rw [hold]
        exact List.mem_of_mem_tail hp
      · exact hp
    · rw [hs.cpu, hc] at hp
      cases hp
      rw [hs.procs, hs.termPit, Function.update_self, hprocs]
      rfl
    · rw [hs.cpu, hc] at hspin
      cases hspin

/-- **A clean step keeps the scheduler in order.** -/
theorem Scheduled.step (h : Scheduled k) (hC : Clean k e) (hst : k.step e = some k') :
    Scheduled k' := by
  cases step_cases hst with
  | quiet _ hq => exact h.quiet hq
  | vidmap =>
    have htracks : Tracks { k with vidmap := kvidIdx } :=
      h.toTracks.congr h.termLive_lt (fun _ => rfl) rfl rfl fun _ => .refl
    exact ⟨⟨htracks, h.saved, h.saveStack⟩, h.user, h.spin⟩
  | @starts p command stale k₁ entry hcpu hstart hq hargs =>
    have hpit := hC.foreground command stale rfl hstart
    refine (h.toParked.quiet hq).startProcess ?_ ?_ ?_ fun q hhead => ?_
    · rw [hq.pidMax]
      exact hstart.1
    · exact (fresh_quiet hq).2 (hC.fresh (.inl ⟨command, stale, rfl, hstart⟩))
    · rw [hq.termLive, hq.termPit, hpit]
    · rw [hq.procs, hq.termLive, hpit] at hhead
      rw [← hcpu, h.cpu_eq hhead]
  | faces ht hn hlive hq => exact (h.faced (SysEvent.target_lt ht)).quiet hq
  | @idles _ n stale _ ht hn hlive hno hq =>
    -- nothing runs, and nothing starts
    have hcpu : k.cpu = .spin := hC.spin_of_idles ht hn hlive hno
    refine Scheduled.quiet ⟨h.readied (SysEvent.target_lt ht), fun p hp => ?_, fun _ => ?_⟩ hq
    · rw [readied_eq] at hp
      cases hcpu.symm.trans hp
    · rw [readied_eq]
      exact h.procs_eq_nil hlive
  | @launches _ n stale name k₁ entry _ ht hn hlive hname hstart hq hargs hq' =>
    have hfresh := hC.fresh (.inr ⟨n, stale, name, ht, hn, hlive, hname, hstart⟩)
    refine (((h.readied (SysEvent.target_lt ht)).quiet hq).startProcess ?_ ?_ ?_ ?_).quiet hq'
    · rw [hq.pidMax, readied_eq]
      exact hstart.1
    · exact (fresh_quiet hq).2 (fresh_readied.2 hfresh)
    · rw [hq.termLive, hq.termPit, readied_eq]
    · intro q hhead
      rw [hq.procs, hq.termLive, readied_eq] at hhead
      rw [h.procs_eq_nil hlive] at hhead
      cases hhead
  | timer hpit => exact h.pitIrq hpit
  | halts _ hq hhalt => exact (h.quiet hq).halt hhalt

theorem scheduled_init {d : Disk} : Scheduled (init d) where
  toTracks := tracks_init
  saved t _ p hp := by cases hp
  saveStack t p hp := by cases hp
  user p hp := by cases hp
  spin _ := rfl

theorem scheduled_boot {d : Disk} (hboot : boot d stale = some k) : Scheduled k := by
  rcases boot_cases hboot with hq | ⟨k₁, entry, hq, rfl⟩
  · exact scheduled_init.quiet hq
  · obtain ⟨hmax, hfresh⟩ := startable_init hq
    refine (scheduled_init.toParked.quiet hq).startProcess hmax hfresh ?_ fun q hhead => ?_
    · rw [hq.termLive, hq.termPit]
      rfl
    · rw [hq.procs] at hhead
      cases hhead

/-! ### The page and the stack of the running process -/

/-- The page directory and the TSS are those of the running process. -/
def Mapped (k : Kernel) : Prop :=
  ∀ p, k.cpu = .user p → k.exePage = some (p.pid + 1) ∧ k.esp0 = kStackOf p.pid

theorem mapped_of_spin (h : k.cpu = .spin) : Mapped k := fun p hp => by
  rw [h] at hp
  cases hp

theorem Mapped.quiet (h : Mapped k) (hq : Quiet k k') : Mapped k' := by
  unfold Mapped
  rw [hq.cpu, hq.exePage, hq.esp0]
  exact h

theorem mapped_startProcess {n : ℕ} {x : Pcb} (hmax : k.pidMax < 6) :
    Mapped (k.startProcess c n x) := by
  intro p hp
  rw [startProcess_cpu] at hp
  cases hp
  rw [startProcess_exePage, startProcess_esp0, newProcess_pid]
  refine ⟨congrArg some ?_, rfl⟩
  unfold pageOf4mb
  omega

theorem pageOf4mb_pred (hp : 1 ≤ p.pid ∧ p.pid ≤ 6) : pageOf4mb (p.pid - 1) = p.pid + 1 := by
  unfold pageOf4mb
  omega

theorem Mapped.pitIrq (h : Scheduled k) (hm : Mapped k) (hpit : k.pitIrq = some k') :
    Mapped k' := by
  rcases pitIrq_cases hpit with rfl | ⟨t, a, c, ht, hlive, hsaved, rfl⟩
  · exact hm
  · obtain ⟨p, hp, ha⟩ := Option.map_eq_some_iff.1 ((h.live t).symm.trans hlive)
    have hmem := List.mem_of_mem_head? hp
    obtain ⟨hpid, hstack⟩ := (h.chain t).block hmem
    intro q hq
    change c = .user q at hq
    rw [h.saved t ht p hp c hsaved] at hq
    cases hq
    rw [← ha]
    exact ⟨by rw [hpid, pageOf4mb_pred (h.pid_mem t p hmem)], hstack⟩

/-- The first process of the terminal 0 does not halt. -/
def Rooted (k : Kernel) (e : SysEvent) : Prop :=
  e.Halts k → ∀ a, k.running = some a → (k.pcb a).shellFlag = 1 ∨ (k.pcb a).parent ≠ none

theorem Mapped.halt (h : Scheduled k) (hhalt : k.halt = some k')
    (hroot : ∀ a, k.running = some a → (k.pcb a).shellFlag = 1 ∨ (k.pcb a).parent ≠ none) :
    Mapped k' := by
  obtain ⟨a, hrun, ⟨-, hs⟩ | ⟨hflag, hparent, -⟩ | ⟨hflag, q, c, hparent, hsave, hs⟩⟩ :=
    halt_cases hhalt
  · exact mapped_of_spin hs.cpu
  · exact absurd hparent ((hroot a hrun).resolve_left hflag)
  · obtain ⟨p, r, rs, hprocs, -, hq⟩ := h.parent hrun hflag hparent
    have hmem : r ∈ k.procs k.termPit := by
      rw [hprocs]
      exact List.mem_cons_of_mem _ (List.mem_cons_self ..)
    obtain ⟨hpid, hstack⟩ := (h.chain _).block hmem
    rw [hq] at hsave
    intro p' hp'
    rw [hs.cpu, h.saveStack _ r hmem c hsave] at hp'
    cases hp'
    rw [hs.exePage, hs.esp0, hq, hpid, hstack, pageOf4mb_pred (h.pid_mem _ r hmem)]
    exact ⟨rfl, rfl⟩

theorem Mapped.step (h : Scheduled k) (hm : Mapped k) (hC : Clean k e) (hroot : Rooted k e)
    (hst : k.step e = some k') : Mapped k' := by
  cases step_cases hst with
  | quiet _ hq => exact hm.quiet hq
  | vidmap => exact hm
  | starts hcpu hstart hq => exact mapped_startProcess (by rw [hq.pidMax]; exact hstart.1)
  | faces ht hn hlive hq =>
    refine Mapped.quiet ?_ hq
    rw [faced_eq]
    exact hm
  | idles ht hn hlive hno hq =>
    refine Mapped.quiet ?_ hq
    rw [readied_eq]
    exact hm
  | launches ht hn hlive hname hstart hq hargs hq' =>
    refine (mapped_startProcess ?_).quiet hq'
    rw [hq.pidMax, readied_eq]
    exact hstart.1
  | timer hpit => exact hm.pitIrq h hpit
  | halts he hq hhalt =>
    refine Mapped.halt (h.quiet hq) hhalt fun a hrun => ?_
    rw [(hq.pcb a).shellFlag, (hq.pcb a).parent]
    exact hroot he a (hq.running ▸ hrun)

/-- What is in place while the process `p` runs. -/
structure InPlace (k : Kernel) (p : Process) : Prop where
  /-- `term[term_pit].pcb_live` is the block of `p`. -/
  pcbLive : (k.term k.termPit).pcbLive = some (pcbAddr p.pid)
  block : (k.pcb (pcbAddr p.pid)).pid = p.pid
  exePage : k.exePage = some (p.pid + 1)
  esp0 : k.esp0 = (k.pcb (pcbAddr p.pid)).kStackPtr

theorem mapped_boot {d : Disk} (hboot : boot d stale = some k) : Mapped k := by
  rcases boot_cases hboot with hq | ⟨k₁, entry, hq, rfl⟩
  · exact mapped_of_spin hq.cpu
  · exact mapped_startProcess (startable_init hq).1

theorem Scheduled.inPlace (h : Scheduled k) (hm : Mapped k) (hrun : k.cpu = .user p) :
    InPlace k p := by
  have hhead := h.user p hrun
  obtain ⟨hpid, hstack⟩ := (h.chain _).block (List.mem_of_mem_head? hhead)
  obtain ⟨hpage, hesp⟩ := hm p hrun
  exact ⟨by rw [h.live, hhead]; rfl, hpid, hpage, hesp.trans hstack.symm⟩

theorem inPlace_boot {d : Disk} (hboot : boot d stale = some k) (hrun : k.cpu = .user p) :
    InPlace k p :=
  (scheduled_boot hboot).inPlace (mapped_boot hboot) hrun

/-! ### Runs whose steps are checked -/

theorem starts_iff {command : CString} : k.Starts command stale ↔
    k.pidMax < 6 ∧ ((k.files.fileOpen command.word.mem).bind fun f =>
      header f stale.buffer).any (fun buffer => Magic buffer) = true := by
  refine and_congr_right fun _ => ?_
  rw [Option.any_eq_true]
  constructor
  · rintro ⟨f, buffer, hopen, hheader, hmagic⟩
    exact ⟨buffer, Option.bind_eq_some_iff.2 ⟨f, hopen, hheader⟩, decide_eq_true hmagic⟩
  · rintro ⟨buffer, hbind, hmagic⟩
    obtain ⟨f, hopen, hheader⟩ := Option.bind_eq_some_iff.1 hbind
    exact ⟨f, buffer, hopen, hheader, of_decide_eq_true hmagic⟩

instance (k : Kernel) (command : CString) (stale : Stale) : Decidable (k.Starts command stale) :=
  decidable_of_iff _ starts_iff.symm

/-- The conditions of `Clean` and `Rooted` on the three terminals, in a form that can be
evaluated. -/
def Tidy (k : Kernel) (e : SysEvent) : Prop :=
  match e with
  | .execute _ _ => (∀ t < 3, ∀ p ∈ k.procs t, p.pid ≠ k.pidMax + 1) ∧ k.termLive = k.termPit
  | .halt => ∀ a ∈ k.running, (k.pcb a).shellFlag = 1 ∨ (k.pcb a).parent ≠ none
  | .keyEsc => ¬ (k.termLive = 2 ∧ k.termPit = 2)
  | e => ∀ x ∈ e.target k, x.1 = k.termLive ∨ (k.term x.1).pcbLive ≠ none ∨
    (∀ t < 3, ∀ p ∈ k.procs t, p.pid ≠ k.pidMax + 1) ∧
      ∃ name ∈ launchName x.1, k.Starts name x.2

instance (k : Kernel) (e : SysEvent) : Decidable (k.Tidy e) := by
  unfold Tidy
  split <;> infer_instance

theorem OnTerminals.fresh (h : OnTerminals k)
    (hfresh : ∀ t < 3, ∀ p ∈ k.procs t, p.pid ≠ k.pidMax + 1) : Fresh k := by
  intro t p hp
  by_cases ht : t < 3
  · exact hfresh t ht p hp
  · rw [h t (by omega)] at hp
    cases hp

theorem clean_of_switch (hk : OnTerminals k) (he : ∀ command stale, e ≠ .execute command stale)
    (h : ∀ x ∈ e.target k, x.1 = k.termLive ∨ (k.term x.1).pcbLive ≠ none ∨
      (∀ t < 3, ∀ p ∈ k.procs t, p.pid ≠ k.pidMax + 1) ∧
        ∃ name ∈ launchName x.1, k.Starts name x.2) : Clean k e where
  fresh hb := by
    rcases hb with ⟨command, stale, rfl, -⟩ | ⟨n, stale, name, ht, hn, hlive, -⟩
    · exact absurd rfl (he command stale)
    · exact hk.fresh (((h _ ht).resolve_left hn).resolve_left (not_not_intro hlive)).1
  foreground command stale hexec := absurd hexec (he command stale)
  opens n stale ht hn hlive := by
    obtain ⟨-, name, hname, hstart⟩ := ((h _ ht).resolve_left hn).resolve_left (not_not_intro hlive)
    exact .inl (.inr ⟨n, stale, name, ht, hn, hlive, hname, hstart⟩)

theorem Tidy.clean (h : Tidy k e) (hk : OnTerminals k) : Clean k e ∧ Rooted k e := by
  cases e with
  | execute command stale =>
    exact ⟨⟨fun _ => hk.fresh h.1, fun _ _ _ _ => h.2, fun _ _ ht => by cases ht⟩, False.elim⟩
  | halt => exact ⟨clean_of_target rfl (by simp), fun _ a ha => h a ha⟩
  | keyEsc => exact ⟨clean_of_target rfl (by simp), fun hhalts => absurd hhalts h⟩
  | keyF1 | keyF2 | mouseTerm | mousePacman =>
    exact ⟨clean_of_switch hk (by simp) h, False.elim⟩
  | getargs | openName | close | read | vidmap | pit =>
    exact ⟨clean_of_target rfl (by simp), False.elim⟩

/-- What a run leads to, if its steps are checked to be clean. -/
theorem reach_of_tidy {d : Disk} {es : List SysEvent} {C D : Kernel → SysEvent → Prop}
    [∀ k e, Decidable (C k e)] (hD : ∀ k e, Clean k e → Rooted k e → C k e → D k e)
    {A : Type*} {f : Kernel → A} {a : A}
    (h : ((boot d stale).bind fun k₀ => (kernelMachine.exec k₀ es).map fun k =>
      (f k, decide (kernelMachine.Steps (fun k e => Tidy k e ∧ C k e) k₀ es))) = some (a, true)) :
    ∃ k₀ k, boot d stale = some k₀ ∧ kernelMachine.exec k₀ es = some k ∧ f k = a ∧
      kernelMachine.Reach D k₀ k := by
  obtain ⟨k₀, hboot, h⟩ := Option.bind_eq_some_iff.1 h
  obtain ⟨k, hexec, hk⟩ := Option.map_eq_some_iff.1 h
  obtain ⟨hf, htidy⟩ := Prod.mk.inj hk
  have hinv : Scheduled k₀ ∧ OnTerminals k₀ := ⟨scheduled_boot hboot, onTerminals_boot hboot⟩
  have hsteps : kernelMachine.Steps D k₀ es := by
    refine (Machine.states_steps_of_steps (I := fun k => Scheduled k ∧ OnTerminals k)
      (P := fun _ => True) (fun k e k' hk hC hst => ?_) (fun _ _ => trivial) hinv
      (of_decide_eq_true htidy)).2
    obtain ⟨hclean, hroot⟩ := hC.1.clean hk.2
    exact ⟨⟨hk.1.step hclean hst, hk.2.step hk.1.toTracks hst⟩, hD k e hclean hroot hC.2⟩
  exact ⟨k₀, k, hboot, hexec, hf, hsteps.reach hexec⟩

/-- **The running process is in place** in every state of every run in which the steps are clean
and the first process of the terminal 0 does not halt. -/
theorem running_inPlace {d : Disk} {k₀ : Kernel} (hboot : boot d stale = some k₀)
    (hreach : kernelMachine.Reach (fun k e => Clean k e ∧ Rooted k e) k₀ k)
    (hrun : k.cpu = .user p) : InPlace k p := by
  have hinv : Scheduled k ∧ Mapped k :=
    hreach.invariant (I := fun k => Scheduled k ∧ Mapped k)
      ⟨scheduled_boot hboot, mapped_boot hboot⟩
      fun k e k' hk hC hst => ⟨hk.1.step hC.1 hst, hk.2.step hk.1 hC.1 hC.2 hst⟩
  exact hinv.1.inPlace hinv.2 hrun

/-- A shell is started, and `ls` in it; the timer switches to `gui` and back, Alt-F1 turns to `gui`
while `ls` goes on in the background, and `ls` halts. -/
def lsRun : List SysEvent :=
  [.mouseTerm zeroStack, .execute lsName zeroStack, .pit, .pit, .keyF1 zeroStack, .pit, .pit, .halt]

/-- The shell after `lsRun`. -/
theorem running_inPlace_ls : ∃ k₀ k p, boot programDisk zeroStack = some k₀ ∧
    kernelMachine.exec k₀ lsRun = some k ∧ k.cpu = .user p ∧ k.termLive ≠ k.termPit ∧
    InPlace k p := by
  have hrun : ((boot programDisk zeroStack).bind fun k₀ =>
      (kernelMachine.exec k₀ lsRun).map fun k => ((k.cpu, k.termLive, k.termPit),
        decide (kernelMachine.Steps (fun k e => Tidy k e ∧ True) k₀ lsRun))) =
      some ((.user ⟨1, 2, []⟩, 0, 1), true) := by
    decide +kernel
  obtain ⟨k₀, k, hboot, hexec, hk, hreach⟩ :=
    reach_of_tidy (fun k e hclean hroot _ => And.intro hclean hroot) hrun
  simp only [Prod.mk.injEq] at hk
  obtain ⟨hcpu, hlive, hpit⟩ := hk
  exact ⟨k₀, k, _, hboot, hexec, hcpu, by rw [hlive, hpit]; decide,
    running_inPlace hboot hreach hcpu⟩

/-- Alt-F1 while a shell runs, which then executes a program: the block of the new process goes to
the terminal 0, while the terminal 1 stays the scheduled one. -/
theorem running_not_inPlace : ∃ d stale k₀ es, boot d stale = some k₀ ∧
    ¬ kernelMachine.States (fun k => ∀ p, k.cpu = .user p → InPlace k p) k₀ es := by
  have hrun : ((boot programDisk zeroStack).bind fun k₀ => (kernelMachine.exec k₀
      [.mouseTerm zeroStack, .keyF1 zeroStack, .execute lsName zeroStack]).map
      fun k => (k.cpu, (k.term k.termPit).pcbLive)) =
        some (.user ⟨2, 3, []⟩, some (pcbAddr 2)) := by
    decide +kernel
  obtain ⟨k₀, hboot, hno⟩ := Machine.exists_not_states
    (P := fun k => ∀ p, k.cpu = .user p → InPlace k p) hrun fun k hk hP => by
    obtain ⟨hcpu, hlive⟩ := Prod.mk.inj hk
    have haddr := hlive.symm.trans (hP _ hcpu).pcbLive
    exact absurd (pcbAddr_inj (by decide) (by decide) (Option.some.inj haddr)) (by decide)
  exact ⟨_, _, k₀, _, hboot, hno⟩

/-! ### The saved stacks -/

/-- `context_switch` does not drop the saved stack of the terminal 0 while another terminal is
scheduled. -/
def Keeps (k : Kernel) (e : SysEvent) : Prop :=
  ∀ n stale, e.target k = some (n, stale) → n ≠ k.termLive → k.Drops n →
    k.termPit = 0 ∨ (k.term 0).pcbLive = none

instance (k : Kernel) (e : SysEvent) : Decidable (k.Keeps e) :=
  decidable_of_iff (∀ x ∈ e.target k, x.1 ≠ k.termLive → k.Drops x.1 →
    k.termPit = 0 ∨ (k.term 0).pcbLive = none)
    ⟨fun h n stale ht => h (n, stale) ht, fun h x hx => h x.1 x.2 hx⟩

/-- Each terminal that `pit_irq` may pick has the saved stack of its last process. -/
def Resumable (k : Kernel) : Prop :=
  ∀ u, u ≠ k.termPit → ∀ a, (k.term u).pcbLive = some a →
    ∃ p, (k.procs u).head? = some p ∧ a = pcbAddr p.pid ∧ (k.term u).saved = some (.user p)

/-- A step saves what runs when it takes the terminal from the processor, and saves nothing else on
a terminal that `pit_irq` may pick; such a terminal had a process before. -/
def SavesOnly (k k' : Kernel) : Prop :=
  ∀ u, u ≠ k'.termPit → (k'.term u).pcbLive ≠ none →
    (k'.term u).saved = (if u = k.termPit then some k.cpu else (k.term u).saved) ∧
      (u ≠ k.termPit → (k.term u).pcbLive ≠ none)

theorem savesOnly_of_term (hpit : k'.termPit = k.termPit)
    (hterm : ∀ u, u ≠ k.termPit → k'.term u = k.term u) : SavesOnly k k' := by
  intro u hu hlive
  rw [hpit] at hu
  rw [hterm u hu] at hlive ⊢
  exact ⟨(if_neg hu).symm, fun _ => hlive⟩

theorem SavesOnly.of_quiet {k₁ : Kernel} (hq : Quiet k k₁) (h : SavesOnly k₁ k') :
    SavesOnly k k' := by
  unfold SavesOnly at h ⊢
  rw [hq.termPit, hq.cpu, hq.term] at h
  exact h

theorem SavesOnly.quiet {k₁ : Kernel} (h : SavesOnly k k₁) (hq : Quiet k₁ k') : SavesOnly k k' := by
  unfold SavesOnly at h ⊢
  rw [hq.termPit, hq.term]
  exact h

theorem savesOnly_faced {n : ℕ}
    (hkeep : k.Drops n → k.termPit = 0 ∨ (k.term 0).pcbLive = none) : SavesOnly k (k.faced n) := by
  intro u hu hlive
  rw [faced_pcbLive] at hlive
  rw [faced_eq] at hu
  rw [faced_saved, if_neg (show u ≠ k.termPit from hu)]
  refine ⟨if_neg ?_, fun _ => hlive⟩
  rintro ⟨hdrops, rfl⟩
  exact (hkeep hdrops).elim (fun h0 => hu h0.symm) hlive

theorem savesOnly_readied {n : ℕ}
    (hkeep : k.Drops n → k.termPit = 0 ∨ (k.term 0).pcbLive = none) :
    SavesOnly k (k.readied k.cpu n) := by
  intro u hu hlive
  rw [readied_pcbLive] at hlive
  rw [readied_saved]
  by_cases hpit : u = k.termPit
  · rw [if_pos hpit, if_pos hpit]
    exact ⟨rfl, fun hne => absurd hpit hne⟩
  · -- where the stack is not saved now, it is as `faced` leaves it
    have hf := savesOnly_faced hkeep u (by rwa [faced_eq]) (by rwa [faced_pcbLive])
    rw [if_neg hpit]
    exact hf

theorem SavesOnly.startProcess {k₁ : Kernel} {n : ℕ} {x : Pcb} (h : SavesOnly k k₁)
    (hpit : k₁.termLive = k₁.termPit) : SavesOnly k (k₁.startProcess c n x) := by
  intro u hu hlive
  rw [startProcess_termPit] at hu
  rw [startProcess_term, Function.update_of_ne (by rwa [hpit])] at hlive ⊢
  exact h u hu hlive

theorem savesOnly_pitIrq (hpit : k.pitIrq = some k') : SavesOnly k k' := by
  rcases pitIrq_cases hpit with rfl | ⟨t, a, c, ht, -, -, rfl⟩
  · exact savesOnly_of_term rfl fun _ _ => rfl
  · intro u hu hlive
    change ((k.setSaved k.termPit (some k.cpu)).term u).saved = _ ∧ _
    change ((k.setSaved k.termPit (some k.cpu)).term u).pcbLive ≠ none at hlive
    rw [setSaved_pcbLive] at hlive
    rw [setSaved, setTerm_apply]
    refine ⟨?_, fun _ => hlive⟩
    split_ifs <;> rfl

theorem savesOnly_halt (hhalt : k.halt = some k') : SavesOnly k k' := by
  obtain ⟨a, -, ⟨-, hs⟩ | ⟨-, -, c, -, rfl⟩ | ⟨-, q, c, -, -, hs⟩⟩ := halt_cases hhalt
  · intro u hu hlive
    rw [hs.pcbLive] at hlive
    split_ifs at hlive with hpit
    · exact absurd rfl hlive
    · rw [if_neg hpit]
      exact ⟨hs.saved u hpit hu, fun _ => hlive⟩
  · exact savesOnly_of_term rfl fun _ _ => rfl
  · refine savesOnly_of_term hs.termPit fun u hu => ?_
    rw [hs.term, setPcbLive, setTerm_apply, if_neg hu]

theorem savesOnly_step (hC : Clean k e) (hkeep : Keeps k e) (hst : k.step e = some k') :
    SavesOnly k k' := by
  have hrefl : SavesOnly k k := savesOnly_of_term rfl fun _ _ => rfl
  cases step_cases hst with
  | quiet _ hq => exact hrefl.quiet hq
  | vidmap => exact savesOnly_of_term rfl fun _ _ => rfl
  | @starts p command stale k₁ entry hcpu hstart hq hargs =>
    refine (hrefl.quiet hq).startProcess ?_
    rw [hq.termLive, hq.termPit]
    exact hC.foreground command stale rfl hstart
  | faces ht hn hlive hq => exact (savesOnly_faced (hkeep _ _ ht hn)).quiet hq
  | idles ht hn hlive hno hq => exact (savesOnly_readied (hkeep _ _ ht hn)).quiet hq
  | launches ht hn hlive hname hstart hq hargs hq' =>
    refine (((savesOnly_readied (hkeep _ _ ht hn)).quiet hq).startProcess ?_).quiet hq'
    rw [hq.termLive, hq.termPit, readied_eq]
  | timer hpit => exact savesOnly_pitIrq hpit
  | halts _ hq hhalt => exact .of_quiet hq (savesOnly_halt hhalt)

theorem Resumable.step (h : Resumable k) (hs : Scheduled k') (hsaves : SavesOnly k k') :
    Resumable k' := by
  intro u hu a ha
  have hlive' : (k'.term u).pcbLive ≠ none := by
    rw [ha]
    exact Option.some_ne_none a
  obtain ⟨hsaved, hlive⟩ := hsaves u hu hlive'
  obtain ⟨p, hp, haddr⟩ := Option.map_eq_some_iff.1 ((hs.live u).symm.trans ha)
  refine ⟨p, hp, haddr.symm, ?_⟩
  -- what is saved there is the stack of the last process, if anything is
  have hsome : ∃ c, (k'.term u).saved = some c := by
    rw [hsaved]
    split_ifs with hpit
    · exact ⟨_, rfl⟩
    · obtain ⟨b, hb⟩ := Option.ne_none_iff_exists'.1 (hlive hpit)
      obtain ⟨q, -, -, hq⟩ := h u hpit b hb
      exact ⟨_, hq⟩
  obtain ⟨c, hc⟩ := hsome
  rw [hc, hs.saved u hu p hp c hc]

/-- **The stacks that `pit_irq` loads**: in every state of every run in which the steps are clean
and keep the stack of the terminal 0, each terminal that it may pick has the saved stack of its
last process, stored by the step that last took the terminal from the processor. -/
theorem saved_of_clean {d : Disk} {k₀ : Kernel} (hboot : boot d stale = some k₀)
    (hreach : kernelMachine.Reach (fun k e => Clean k e ∧ Keeps k e) k₀ k) : Resumable k ∧
      ∀ e k', Clean k e → Keeps k e → kernelMachine.step k e = some k' → SavesOnly k k' := by
  have hresume : Resumable k₀ := by
    intro u hu a ha
    rcases boot_cases hboot with hq | ⟨k₁, entry, hq, rfl⟩
    · rw [hq.term] at ha
      cases ha
    · rw [startProcess_termPit, hq.termPit] at hu
      have hne : u ≠ (init d).termLive := hu
      rw [startProcess_term, hq.termLive, Function.update_of_ne hne, hq.term] at ha
      cases ha
  have hinv : Scheduled k ∧ Resumable k :=
    hreach.invariant (I := fun k => Scheduled k ∧ Resumable k) ⟨scheduled_boot hboot, hresume⟩
      fun k e k' hk hC hst =>
        have hs := hk.1.step hC.1 hst
        ⟨hs, hk.2.step hs (savesOnly_step hC.1 hC.2 hst)⟩
  exact ⟨hinv.2, fun e k' hC hkeep hst => savesOnly_step hC hkeep hst⟩

/-- After `lsRun` the shell runs, and the timer may pick `gui`. -/
theorem saved_of_clean_ls : ∃ k₀ k p, boot programDisk zeroStack = some k₀ ∧
    kernelMachine.exec k₀ lsRun = some k ∧ k.termPit = 1 ∧
    (k.term 0).pcbLive = some (pcbAddr p.pid) ∧ (k.term 0).saved = some (.user p) := by
  have hrun : ((boot programDisk zeroStack).bind fun k₀ =>
      (kernelMachine.exec k₀ lsRun).map fun k => ((k.termPit, (k.term 0).pcbLive),
        decide (kernelMachine.Steps (fun k e => Tidy k e ∧ Keeps k e) k₀ lsRun))) =
      some ((1, some (pcbAddr 1)), true) := by
    decide +kernel
  obtain ⟨k₀, k, hboot, hexec, hk, hreach⟩ :=
    reach_of_tidy (fun _ _ hclean _ hkeep => And.intro hclean hkeep) hrun
  obtain ⟨hpit, hlive⟩ := Prod.mk.inj hk
  obtain ⟨p, -, haddr, hsaved⟩ :=
    (saved_of_clean hboot hreach).1 0 (by rw [hpit]; decide) _ hlive
  exact ⟨k₀, k, p, hboot, hexec, hpit, by rw [hlive, haddr], hsaved⟩

/-- The shell halts, and before the next tick of the timer Alt-F2 opens another one: the saved stack
of `gui` is dropped. -/
theorem not_resumable : ∃ d stale k₀ es, boot d stale = some k₀ ∧
    ¬ kernelMachine.States Resumable k₀ es := by
  have hrun : ((boot programDisk zeroStack).bind fun k₀ => (kernelMachine.exec k₀
      [.mouseTerm zeroStack, .halt, .keyF2 zeroStack]).map
      fun k => (k.termPit, (k.term 0).pcbLive, (k.term 0).saved)) =
        some (1, some (pcbAddr 1), none) := by
    decide +kernel
  obtain ⟨k₀, hboot, hno⟩ := Machine.exists_not_states (P := Resumable) hrun fun k hk hP => by
    obtain ⟨hpit, hrest⟩ := Prod.mk.inj hk
    obtain ⟨hlive, hnone⟩ := Prod.mk.inj hrest
    obtain ⟨p, -, -, hsaved⟩ := hP 0 (by rw [hpit]; decide) _ hlive
    rw [hnone] at hsaved
    cases hsaved
  exact ⟨_, _, k₀, _, hboot, hno⟩

end Kernel

end KTeamOS
