import Mathlib.Data.List.Nodup
import KTeamOS.System.Step

/-!
# Which processes are live

The links `parent` lead from `pcb_live` through the blocks of the processes of the terminal
(`Tracks`), and no two live processes have the same pid, exactly as long as every process starts
when `pid_max + 1` is the pid of no live process (`pidsUnique_iff`).  As `pid_max` only counts the
processes, this fails once a process halts that is not the last one that was started.
-/

namespace KTeamOS

/-! ### The blocks of a terminal -/

/-- What the block of the process `p` links to, where `ps` are the processes that it was started
from.  The first process of the terminals 1 and 2 has the flag of a shell; its parent is the block
that was live on the terminal 0, if there was one. -/
def Above (x : Pcb) (t : ℕ) : List Process → Prop
  | [] => if t = 0 then x.parent = none else x.shellFlag = 1
  | q :: _ => x.parent = some (pcbAddr q.pid)

/-- The blocks of the processes of the terminal `t`, the last one first. -/
def Chain (pcb : ℕ → Pcb) (t : ℕ) : List Process → Prop
  | [] => True
  | p :: ps =>
    (pcb (pcbAddr p.pid)).pid = p.pid ∧ (pcb (pcbAddr p.pid)).kStackPtr = kStackOf p.pid ∧
      Above (pcb (pcbAddr p.pid)) t ps ∧ Chain pcb t ps

theorem pcbAddr_inj {m n : ℕ} (hm : m ≤ 6) (hn : n ≤ 6) (h : pcbAddr m = pcbAddr n) : m = n := by
  unfold pcbAddr kStackOf at h
  omega

theorem Above.congr {x x' : Pcb} {t : ℕ} {ps : List Process} (hx : x.SameLinks x')
    (h : Above x t ps) : Above x' t ps := by
  cases ps with
  | nil => simpa only [Above, hx.parent, hx.shellFlag] using h
  | cons q qs => exact hx.parent.trans h

theorem Chain.congr {pcb pcb' : ℕ → Pcb} {t : ℕ} {ps : List Process}
    (hpcb : ∀ p ∈ ps, (pcb (pcbAddr p.pid)).SameLinks (pcb' (pcbAddr p.pid)))
    (h : Chain pcb t ps) : Chain pcb' t ps := by
  induction ps with
  | nil => trivial
  | cons p ps ih =>
    obtain ⟨hpid, hstack, habove, hrest⟩ := h
    have hp := hpcb p (List.mem_cons_self ..)
    exact ⟨hp.pid.trans hpid, hp.kStackPtr.trans hstack, habove.congr hp,
      ih (fun q hq => hpcb q (List.mem_cons_of_mem _ hq)) hrest⟩

theorem Chain.block {pcb : ℕ → Pcb} {t : ℕ} {ps : List Process} (h : Chain pcb t ps) {p : Process}
    (hp : p ∈ ps) : (pcb (pcbAddr p.pid)).pid = p.pid ∧
      (pcb (pcbAddr p.pid)).kStackPtr = kStackOf p.pid := by
  induction ps with
  | nil => cases hp
  | cons q qs ih =>
    rcases List.mem_cons.1 hp with rfl | hp
    · exact ⟨h.1, h.2.1⟩
    · exact ih h.2.2.2 hp

namespace Kernel

variable {k k' : Kernel} {t u : ℕ} {p : Process} {e : SysEvent} {stale : Stale}

/-- The blocks that `pcb_live` and the links `parent` lead to are those of the processes. -/
structure Tracks (k : Kernel) : Prop where
  termLive_lt : k.termLive < 3
  live : ∀ t, (k.term t).pcbLive = (k.procs t).head?.map fun p => pcbAddr p.pid
  chain : ∀ t, Chain k.pcb t (k.procs t)
  pid_mem : ∀ t, ∀ p ∈ k.procs t, 1 ≤ p.pid ∧ p.pid ≤ 6
  serial_lt : ∀ t, ∀ p ∈ k.procs t, p.serial < k.serial
  pid_inj : ∀ t u, ∀ p ∈ k.procs t, ∀ q ∈ k.procs u, p.pid = q.pid → t = u ∧ p = q

/-- No live process has the pid that the next one gets. -/
def Fresh (k : Kernel) : Prop := ∀ t, ∀ p ∈ k.procs t, p.pid ≠ k.pidMax + 1

theorem Tracks.congr (h : Tracks k) (hterm : k'.termLive < 3)
    (hlive : ∀ u, (k'.term u).pcbLive = (k.term u).pcbLive) (hprocs : k'.procs = k.procs)
    (hserial : k'.serial = k.serial) (hpcb : ∀ a, (k.pcb a).SameLinks (k'.pcb a)) : Tracks k' where
  termLive_lt := hterm
  live u := by rw [hlive, hprocs, h.live]
  chain u := by
    rw [hprocs]
    exact (h.chain u).congr fun p _ => hpcb _
  pid_mem := by rw [hprocs]; exact h.pid_mem
  serial_lt := by rw [hprocs, hserial]; exact h.serial_lt
  pid_inj := by rw [hprocs]; exact h.pid_inj

theorem Tracks.quiet (h : Tracks k) (hq : Quiet k k') : Tracks k' :=
  h.congr (by rw [hq.termLive]; exact h.termLive_lt) (fun u => by rw [hq.term]) hq.procs hq.serial
    fun a => (hq.pcb a).toSameLinks

theorem Tracks.faced {n : ℕ} (h : Tracks k) (hn : n < 3) : Tracks (k.faced n) := by
  refine h.congr ?_ (fun u => faced_pcbLive) ?_ ?_ fun a => ?_
  all_goals rw [faced_eq]
  · exact hn
  · exact .refl

theorem Tracks.readied {c : Ctx} {n : ℕ} (h : Tracks k) (hn : n < 3) : Tracks (k.readied c n) := by
  refine h.congr ?_ (fun u => readied_pcbLive) ?_ ?_ fun a => ?_
  all_goals rw [readied_eq]
  · exact hn
  · exact .refl

/-- The link of a new block leads to the block that was live. -/
theorem Tracks.above_newPcb {entry : ℕ} {x : Pcb} (h : Tracks k) :
    Above (k.newPcb entry x) k.termLive (k.procs k.termLive) := by
  have hlt := h.termLive_lt
  have hlive : k.parentOf = (k.procs k.termLive).head?.map fun p => pcbAddr p.pid := h.live _
  rcases hprocs : k.procs k.termLive with _ | ⟨q, qs⟩ <;> rw [hprocs] at hlive
  · unfold Above
    by_cases ht : k.termLive = 0
    · rw [if_pos ht]
      have hroot : ¬ ((k.termLive = 1 ∨ k.termLive = 2) ∧ k.parentOf = none) := by omega
      simp only [newPcb, if_neg hroot]
      exact hlive
    · rw [if_neg ht]
      have hroot : (k.termLive = 1 ∨ k.termLive = 2) ∧ k.parentOf = none := ⟨by omega, hlive⟩
      simp only [newPcb, if_pos hroot]
  · have hroot : ¬ ((k.termLive = 1 ∨ k.termLive = 2) ∧ k.parentOf = none) := by
      rintro ⟨-, hnone⟩
      rw [hlive] at hnone
      cases hnone
    unfold Above
    simp only [newPcb, if_neg hroot]
    exact hlive

theorem mem_procs_startProcess {c : Ctx} {n : ℕ} {x : Pcb}
    (hp : p ∈ (k.startProcess c n x).procs t) :
    (t = k.termLive ∧ p = k.newProcess) ∨ p ∈ k.procs t := by
  rw [startProcess_procs, Function.update_apply] at hp
  split_ifs at hp with ht
  · rcases List.mem_cons.1 hp with hnew | hold
    · exact .inl ⟨ht, hnew⟩
    · exact .inr (ht ▸ hold)
  · exact .inr hp

/-- A new process with a pid of its own leaves the other blocks alone. -/
theorem Tracks.startProcess {c : Ctx} {n : ℕ} {x : Pcb} (h : Tracks k) (hmax : k.pidMax < 6)
    (hfresh : Fresh k) : Tracks (k.startProcess c n x) := by
  -- the blocks of the old processes lie elsewhere
  have hother : ∀ u, ∀ p ∈ k.procs u,
      (k.pcb (pcbAddr p.pid)).SameLinks ((k.startProcess c n x).pcb (pcbAddr p.pid)) := by
    intro u p hp
    refine (startProcess_of_ne fun haddr => hfresh u p hp ?_).1
    exact pcbAddr_inj (h.pid_mem u p hp).2 (by omega) haddr
  refine ⟨by rw [startProcess_termLive]; exact h.termLive_lt, fun u => ?_, fun u => ?_, ?_, ?_, ?_⟩
  · rw [startProcess_term, startProcess_procs]
    by_cases hu : u = k.termLive
    · subst hu
      rw [Function.update_self, Function.update_self]
      rfl
    · rw [Function.update_of_ne hu, Function.update_of_ne hu, h.live]
  · rw [startProcess_procs]
    by_cases hu : u = k.termLive
    · subst hu
      rw [Function.update_self]
      have hself := (startProcess_self (k := k) (c := c) (n := n) (x := x)).toSameLinks
      exact ⟨hself.pid, hself.kStackPtr, h.above_newPcb.congr hself,
        (h.chain _).congr (hother _)⟩
    · rw [Function.update_of_ne hu]
      exact (h.chain u).congr (hother u)
  · intro u p hp
    rcases mem_procs_startProcess hp with ⟨-, rfl⟩ | hp
    · rw [newProcess_pid]
      omega
    · exact h.pid_mem u p hp
  · intro u p hp
    rw [startProcess_serial]
    rcases mem_procs_startProcess hp with ⟨-, rfl⟩ | hp
    · exact Nat.lt_succ_self _
    · exact (h.serial_lt u p hp).trans (Nat.lt_succ_self _)
  · intro t u p hp q hq hpid
    rcases mem_procs_startProcess hp with ⟨rfl, rfl⟩ | hp <;>
      rcases mem_procs_startProcess hq with ⟨rfl, rfl⟩ | hq
    · exact ⟨rfl, rfl⟩
    · exact absurd hpid.symm (hfresh u q hq)
    · exact absurd hpid (hfresh t p hp)
    · exact h.pid_inj t u p hp q hq hpid

/-- The scheduled process, as the last one of its terminal. -/
theorem Tracks.running {a : ℕ} (h : Tracks k) (hrun : k.running = some a) :
    ∃ p ps, k.procs k.termPit = p :: ps ∧ a = pcbAddr p.pid := by
  have hlive := h.live k.termPit
  rw [show (k.term k.termPit).pcbLive = some a from hrun] at hlive
  rcases hprocs : k.procs k.termPit with _ | ⟨p, ps⟩ <;> rw [hprocs] at hlive
  · cases hlive
  · exact ⟨p, ps, rfl, Option.some.inj hlive⟩

/-- Without processes on a terminal its `pcb_live` is `NULL`. -/
theorem Tracks.procs_eq_nil (h : Tracks k) (hnone : (k.term t).pcbLive = none) :
    k.procs t = [] := by
  have hlive := h.live t
  rw [hnone] at hlive
  exact List.head?_eq_none_iff.1 (Option.map_eq_none_iff.1 hlive.symm)

/-- A process that is no shell returns to the process that started it. -/
theorem Tracks.parent {a q : ℕ} (h : Tracks k) (hrun : k.running = some a)
    (hflag : (k.pcb a).shellFlag ≠ 1) (hparent : (k.pcb a).parent = some q) :
    ∃ p r rs, k.procs k.termPit = p :: r :: rs ∧ a = pcbAddr p.pid ∧ q = pcbAddr r.pid := by
  obtain ⟨p, ps, hprocs, ha⟩ := h.running hrun
  rw [ha] at hflag hparent
  have habove : Above (k.pcb (pcbAddr p.pid)) k.termPit ps := by
    have hchain := h.chain k.termPit
    rw [hprocs] at hchain
    exact hchain.2.2.1
  cases ps with
  | nil =>
    unfold Above at habove
    split_ifs at habove
    · rw [hparent] at habove
      cases habove
    · exact absurd habove hflag
  | cons r rs => exact ⟨p, r, rs, hprocs, ha, Option.some.inj (hparent.symm.trans habove)⟩

theorem Tracks.halt (h : Tracks k) (hhalt : k.halt = some k') : Tracks k' := by
  obtain ⟨a, hrun, ⟨-, hs⟩ | ⟨-, -, c, -, rfl⟩ | ⟨hflag, q, c, hparent, -, hs⟩⟩ := halt_cases hhalt
  -- a root shell leaves its terminal empty, any other process leaves it to its parent
  · have hsub : ∀ u, ∀ p ∈ k'.procs u, p ∈ k.procs u := by
      intro u p hp
      rw [hs.procs, Function.update_apply] at hp
      split_ifs at hp
      · cases hp
      · exact hp
    refine ⟨?_, fun u => ?_, fun u => ?_, fun u p hp => h.pid_mem u p (hsub u p hp), ?_,
      fun t u p hp q hq => h.pid_inj t u p (hsub t p hp) q (hsub u q hq)⟩
    · rcases hs.termLive with hlive | hlive
      · rw [hlive]
        exact h.termLive_lt
      · omega
    · rw [hs.pcbLive, hs.procs, Function.update_apply]
      split_ifs
      · rfl
      · exact h.live u
    · rw [hs.procs, Function.update_apply]
      split_ifs
      · trivial
      · exact (h.chain u).congr fun p _ => (hs.pcb _).toSameLinks
    · intro u p hp
      rw [hs.serial]
      exact h.serial_lt u p (hsub u p hp)
  · exact h.congr h.termLive_lt (fun _ => rfl) rfl rfl fun _ => .refl
  · obtain ⟨p, r, rs, hprocs, ha, hq⟩ := h.parent hrun hflag hparent
    have hsub : ∀ u, ∀ p ∈ k'.procs u, p ∈ k.procs u := by
      intro u p hp
      rw [hs.procs, Function.update_apply] at hp
      split_ifs at hp with hu
      · rw [hu]
        exact List.mem_of_mem_tail hp
      · exact hp
    refine ⟨by rw [hs.termLive]; exact h.termLive_lt, fun u => ?_, fun u => ?_,
      fun u p hp => h.pid_mem u p (hsub u p hp), ?_,
      fun t u p hp q hq => h.pid_inj t u p (hsub t p hp) q (hsub u q hq)⟩
    · rw [hs.term, hs.procs, setPcbLive, setTerm_apply, Function.update_apply]
      split_ifs
      · rw [hprocs, hq]
        rfl
      · exact h.live u
    · rw [hs.procs, Function.update_apply]
      split_ifs with hu
      · have hchain := h.chain k.termPit
        rw [hprocs] at hchain ⊢
        rw [hu]
        exact hchain.2.2.2.congr fun p _ => (hs.pcb _).toSameLinks
      · exact (h.chain u).congr fun p _ => (hs.pcb _).toSameLinks
    · intro u p hp
      rw [hs.serial]
      exact h.serial_lt u p (hsub u p hp)

theorem setSaved_pcbLive {c : Option Ctx} :
    ((k.setSaved t c).term u).pcbLive = (k.term u).pcbLive := by
  rw [setSaved, setTerm_apply]
  split_ifs with hu
  · rw [hu]
  · rfl

theorem Tracks.pitIrq (h : Tracks k) (hpit : k.pitIrq = some k') : Tracks k' := by
  rcases pitIrq_cases hpit with rfl | ⟨t, a, c, -, -, -, rfl⟩
  · exact h
  · exact h.congr h.termLive_lt (fun _ => setSaved_pcbLive) rfl rfl fun _ => .refl

end Kernel

/-! ### Every run -/

theorem SysEvent.target_lt {k : Kernel} {e : SysEvent} {n : ℕ} {stale : Stale}
    (h : e.target k = some (n, stale)) : n < 3 := by
  cases e <;> simp only [target] at h <;> (try split_ifs at h) <;> cases h <;> omega

namespace Kernel

variable {k k' : Kernel} {e : SysEvent}

theorem fresh_quiet (hq : Quiet k k') : Fresh k' ↔ Fresh k := by
  unfold Fresh
  rw [hq.procs, hq.pidMax]

theorem fresh_readied {c : Ctx} {n : ℕ} : Fresh (k.readied c n) ↔ Fresh k := by
  rw [readied_eq]
  exact Iff.rfl

/-- A step that starts a process, if any, when its pid is fresh keeps the links in order. -/
theorem Tracks.step (h : Tracks k) (hfresh : e.Begins k → Fresh k) (hst : k.step e = some k') :
    Tracks k' := by
  cases step_cases hst with
  | quiet _ hq => exact h.quiet hq
  | vidmap => exact h.congr h.termLive_lt (fun _ => rfl) rfl rfl fun _ => .refl
  | @starts p command stale k₁ entry hcpu hstart hq hargs =>
    have hf : Fresh k := hfresh (.inl ⟨command, stale, rfl, hstart⟩)
    exact (h.quiet hq).startProcess (by rw [hq.pidMax]; exact hstart.1) ((fresh_quiet hq).2 hf)
  | faces ht hn hlive hq => exact (h.faced (SysEvent.target_lt ht)).quiet hq
  | idles ht hn hlive hno hq => exact (h.readied (SysEvent.target_lt ht)).quiet hq
  | @launches _ n stale name k₁ entry _ ht hn hlive hname hstart hq hargs hq' =>
    have hf : Fresh k := hfresh (.inr ⟨n, stale, name, ht, hn, hlive, hname, hstart⟩)
    have hmax : k₁.pidMax < 6 := by
      rw [hq.pidMax, readied_eq]
      exact hstart.1
    exact (((h.readied (SysEvent.target_lt ht)).quiet hq).startProcess hmax
      ((fresh_quiet hq).2 (fresh_readied.2 hf))).quiet hq'
  | timer hpit => exact h.pitIrq hpit
  | halts _ hq hhalt => exact (h.quiet hq).halt hhalt

/-- Processes are on the three terminals only. -/
def OnTerminals (k : Kernel) : Prop := ∀ t, 3 ≤ t → k.procs t = []

theorem OnTerminals.quiet (h : OnTerminals k) (hq : Quiet k k') : OnTerminals k' := by
  unfold OnTerminals
  rw [hq.procs]
  exact h

theorem OnTerminals.startProcess {n : ℕ} {x : Pcb} (h : OnTerminals k) (hlive : k.termLive < 3) :
    OnTerminals (k.startProcess c n x) := by
  intro t ht
  rw [startProcess_procs, Function.update_of_ne (by omega)]
  exact h t ht

theorem OnTerminals.halt (h : OnTerminals k) (hhalt : k.halt = some k') : OnTerminals k' := by
  intro t ht
  obtain ⟨a, -, ⟨-, hs⟩ | ⟨-, -, c, -, rfl⟩ | ⟨-, q, c, -, -, hs⟩⟩ := halt_cases hhalt
  · rw [hs.procs, Function.update_apply, h t ht, ite_self]
  · exact h t ht
  · rw [hs.procs, Function.update_apply]
    split_ifs with hpit
    · rw [← hpit, h t ht]
      rfl
    · exact h t ht

theorem OnTerminals.step (h : OnTerminals k) (hk : Tracks k) (hst : k.step e = some k') :
    OnTerminals k' := by
  cases step_cases hst with
  | quiet _ hq => exact h.quiet hq
  | vidmap => exact h
  | starts hcpu hstart hq =>
    refine (h.quiet hq).startProcess ?_
    rw [hq.termLive]
    exact hk.termLive_lt
  | faces ht hn hlive hq => exact OnTerminals.quiet (by rw [faced_eq]; exact h) hq
  | idles ht hn hlive hno hq => exact OnTerminals.quiet (by rw [readied_eq]; exact h) hq
  | launches ht hn hlive hname hstart hq hargs hq' =>
    have hready := (hk.readied (c := k.cpu) (SysEvent.target_lt ht)).termLive_lt
    refine ((OnTerminals.quiet (by rw [readied_eq]; exact h) hq).startProcess ?_).quiet hq'
    rw [hq.termLive]
    exact hready
  | timer hpit =>
    rcases pitIrq_cases hpit with rfl | ⟨t, a, c, -, -, -, rfl⟩
    · exact h
    · exact h
  | halts _ hq hhalt => exact (h.quiet hq).halt hhalt

/-- No two live processes, as the links lead to them, have the same pid, the same frame or the same
place for their block and kernel stack. -/
structure PidsUnique (k : Kernel) : Prop where
  live : ∀ t, (k.term t).pcbLive = (k.procs t).head?.map fun p => pcbAddr p.pid
  chain : ∀ t, Chain k.pcb t (k.procs t)
  unique : ∀ t u, ∀ p ∈ k.procs t, ∀ q ∈ k.procs u, p ≠ q ∨ t ≠ u →
    p.pid ≠ q.pid ∧ pageOf4mb (p.pid - 1) ≠ pageOf4mb (q.pid - 1) ∧ pcbAddr p.pid ≠ pcbAddr q.pid

theorem pageOf4mb_inj {m n : ℕ} (hm : 1 ≤ m ∧ m ≤ 6) (hn : 1 ≤ n ∧ n ≤ 6)
    (h : pageOf4mb (m - 1) = pageOf4mb (n - 1)) : m = n := by
  unfold pageOf4mb at h
  omega

theorem Tracks.pidsUnique (h : Tracks k) : PidsUnique k where
  live := h.live
  chain := h.chain
  unique t u p hp q hq hne := by
    have hpid : p.pid ≠ q.pid := fun hpid => by
      obtain ⟨htu, hpq⟩ := h.pid_inj t u p hp q hq hpid
      exact hne.elim (fun hne => hne hpq) fun hne => hne htu
    have hp' := h.pid_mem t p hp
    have hq' := h.pid_mem u q hq
    exact ⟨hpid, fun hpage => hpid (pageOf4mb_inj hp' hq' hpage),
      fun haddr => hpid (pcbAddr_inj hp'.2 hq'.2 haddr)⟩

/-- The new process and the live ones have different pids only if its pid was fresh. -/
theorem fresh_of_unique {c : Ctx} {n : ℕ} {x : Pcb} (h : Tracks k) (hu : PidsUnique k')
    (hprocs : k'.procs = (k.startProcess c n x).procs) : Fresh k := by
  intro t p hp hpid
  rw [startProcess_procs] at hprocs
  have hnew : k.newProcess ∈ k'.procs k.termLive := by
    rw [hprocs, Function.update_self]
    exact List.mem_cons_self ..
  have hold : p ∈ k'.procs t := by
    rw [hprocs, Function.update_apply]
    split_ifs with ht
    · exact List.mem_cons_of_mem _ (ht ▸ hp)
    · exact hp
  have hne : k.newProcess ≠ p := by
    intro heq
    have hserial := h.serial_lt t p hp
    rw [← heq] at hserial
    exact Nat.lt_irrefl _ hserial
  exact (hu.unique _ _ _ hnew _ hold (.inl hne)).1 hpid.symm

/-- Where a step starts a process, the pids stay unique only if its pid was fresh. -/
theorem fresh_of_step (h : Tracks k) (hb : e.Begins k) (hst : k.step e = some k')
    (hu : PidsUnique k') : Fresh k := by
  cases step_cases hst with
  | quiet hno => exact absurd hb hno
  | vidmap => exact absurd hb (SysEvent.not_begins rfl fun _ _ => by simp)
  | starts hcpu hstart hq hargs => exact (fresh_quiet hq).1 (fresh_of_unique (h.quiet hq) hu rfl)
  | faces ht hn hlive hq =>
    rcases hb with ⟨command, stale, rfl, -⟩ | ⟨n', stale', name, ht', -, hnone, -⟩
    · exact absurd ht (by simp [SysEvent.target])
    · rw [ht] at ht'
      cases ht'
      exact absurd hnone hlive
  | idles ht hn hlive hno hq =>
    rcases hb with ⟨command, stale, rfl, -⟩ | ⟨n', stale', name, ht', -, -, hname, hstart⟩
    · exact absurd ht (by simp [SysEvent.target])
    · rw [ht] at ht'
      cases ht'
      exact absurd hstart (hno name hname)
  | launches ht hn hlive hname hstart hq hargs hq' =>
    have hready := (h.readied (SysEvent.target_lt ht)).quiet hq
    exact fresh_readied.1 ((fresh_quiet hq).1 (fresh_of_unique hready hu hq'.procs))
  | timer hpit => exact absurd hb (SysEvent.not_begins rfl fun _ _ => by simp)
  | halts he => exact absurd hb he.not_begins

/-- `boot` starts `gui` or nothing. -/
theorem boot_cases {d : Disk} {stale : Stale} (hboot : boot d stale = some k) : Quiet (init d) k ∨
    ∃ k₁ entry, Quiet (init d) k₁ ∧ k = k₁.startProcess .spin entry stale.pcb := by
  obtain ⟨⟨k₁, r⟩, hexec, hk₁⟩ := Option.map_eq_some_iff.1 hboot
  cases hk₁
  rcases execute_cases hexec with ⟨-, hq, -⟩ | ⟨-, k₂, entry, hq, -, -, rfl⟩
  · exact .inl hq
  · exact .inr ⟨k₂, entry, hq, rfl⟩

theorem startable_init {d : Disk} (hq : Quiet (init d) k) : k.pidMax < 6 ∧ Fresh k := by
  rw [hq.pidMax, fresh_quiet hq]
  exact ⟨Nat.succ_pos 5, fun t p hp => by cases hp⟩

theorem tracks_init {d : Disk} : Tracks (init d) where
  termLive_lt := Nat.succ_pos 2
  live _ := rfl
  chain _ := trivial
  pid_mem t p hp := by cases hp
  serial_lt t p hp := by cases hp
  pid_inj t u p hp := by cases hp

theorem onTerminals_boot {d : Disk} (hboot : boot d stale = some k) : OnTerminals k := by
  have hinit : OnTerminals (init d) := fun _ _ => rfl
  rcases boot_cases hboot with hq | ⟨k₁, entry, hq, rfl⟩
  · exact hinit.quiet hq
  · refine (hinit.quiet hq).startProcess ?_
    rw [hq.termLive]
    exact Nat.succ_pos 2

/-- **No two live processes share a pid** in any state of a run exactly if every process of the run
starts while no live process has the pid `pid_max + 1`. -/
theorem pidsUnique_iff {d : Disk} {stale : Stale} {k₀ : Kernel} (hboot : boot d stale = some k₀)
    (es : List SysEvent) : kernelMachine.States PidsUnique k₀ es ↔
      kernelMachine.Steps (fun k e => e.Begins k → Fresh k) k₀ es := by
  have htracks : Tracks k₀ := by
    rcases boot_cases hboot with hq | ⟨k₁, entry, hq, rfl⟩
    · exact tracks_init.quiet hq
    · obtain ⟨hmax, hfresh⟩ := startable_init hq
      exact (tracks_init.quiet hq).startProcess hmax hfresh
  refine Machine.states_iff_steps (I := Tracks) ?_ ?_ htracks htracks.pidsUnique es
  · intro k e k' hk _ hst
    exact ⟨fun hu hb => fresh_of_step hk hb hst hu, fun hC => (hk.step hC hst).pidsUnique⟩
  · intro k e k' hk _ hst hu
    exact hk.step (fun hb => fresh_of_step hk hb hst hu) hst

/-- A shell is opened, and halts again. -/
theorem pidsUnique_boot : ∃ k₀, boot programDisk zeroStack = some k₀ ∧
    (kernelMachine.States PidsUnique k₀ [.mouseTerm zeroStack, .halt] ↔
      kernelMachine.Steps (fun k e => e.Begins k → Fresh k) k₀ [.mouseTerm zeroStack, .halt]) := by
  have hboot : (boot programDisk zeroStack).isSome := by decide +kernel
  obtain ⟨k₀, hk₀⟩ := Option.isSome_iff_exists.1 hboot
  exact ⟨k₀, hk₀, pidsUnique_iff hk₀ _⟩

/-- A shell starts a program, then `gui` does, then the shell's one halts: the next one that the
shell starts has the pid of the one that `gui` runs. -/
theorem pids_not_unique : ∃ d stale k₀ es, boot d stale = some k₀ ∧
    ¬ kernelMachine.States PidsUnique k₀ es := by
  have hrun : ((boot programDisk zeroStack).bind fun k₀ => (kernelMachine.exec k₀
      [.mouseTerm zeroStack, .execute lsName zeroStack, .keyF1 zeroStack, .pit,
        .execute lsName zeroStack, .pit, .halt, .keyF2 zeroStack, .execute lsName zeroStack]).map
      fun k => ((k.procs 0).map Process.pid, (k.procs 1).map Process.pid)) =
        some ([4, 1], [4, 2]) := by
    decide +kernel
  obtain ⟨k₀, hboot, hno⟩ := Machine.exists_not_states (P := PidsUnique) hrun fun k hk hP => by
    obtain ⟨hgui, hshell⟩ := Prod.mk.inj hk
    obtain ⟨p, ps, hp, hpid, -⟩ := List.map_eq_cons_iff.1 hgui
    obtain ⟨q, qs, hq, hqid, -⟩ := List.map_eq_cons_iff.1 hshell
    have hunique := hP.unique 0 1 p (by rw [hp]; exact List.mem_cons_self ..) q
      (by rw [hq]; exact List.mem_cons_self ..) (.inr (by decide))
    exact hunique.1 (hpid.trans hqid.symm)
  exact ⟨_, _, k₀, _, hboot, hno⟩

end Kernel

end KTeamOS
