import KTeamOS.System.Schedule

/-!
# The video page of the user

`VIDMAP_PAGE` maps the VGA frame for a process of the live terminal and the backing frame of its
terminal for any other, as long as `vidmap` is called on the live terminal only and the live
terminal does not change under the scheduled one (`vidmap_of_steady`): only the timer sets the frame
anew.
-/

namespace KTeamOS

namespace Kernel

variable {k k' : Kernel} {e : SysEvent} {stale : Stale}

/-- The frame that the scheduled terminal is to see. -/
def screenFrame (k : Kernel) : ℕ := if k.termLive = k.termPit then kvidIdx else k.termPit + 0xD1

/-- The scheduled terminal sees its frame, unless nothing runs. -/
def SeesScreen (k : Kernel) : Prop := k.cpu = .spin ∨ k.vidmap = k.screenFrame

/-- The conditions on a step: `vidmap` is called on the live terminal, a switch leaves and reaches
other terminals than the scheduled one, and a process is started while the VGA frame is mapped. -/
structure Steady (k : Kernel) (e : SysEvent) : Prop where
  vidmap : e = .vidmap → k.termLive = k.termPit
  faces : ∀ n stale, e.target k = some (n, stale) → n ≠ k.termLive → (k.term n).pcbLive ≠ none →
    k.cpu = .spin ∨ k.termPit ≠ k.termLive ∧ k.termPit ≠ n
  launches : ∀ n stale, e.target k = some (n, stale) → e.Begins k → k.vidmap = kvidIdx

/-- The conditions of `Steady` in a form that can be evaluated. -/
def SteadyHere (k : Kernel) (e : SysEvent) : Prop :=
  match e with
  | .vidmap => k.termLive = k.termPit
  | e => ∀ x ∈ e.target k, x.1 = k.termLive ∨
    if (k.term x.1).pcbLive = none then k.vidmap = kvidIdx
    else k.cpu = .spin ∨ k.termPit ≠ k.termLive ∧ k.termPit ≠ x.1

instance (k : Kernel) (e : SysEvent) : Decidable (k.SteadyHere e) := by
  unfold SteadyHere
  split <;> infer_instance

theorem SteadyHere.steady (h : SteadyHere k e) : Steady k e := by
  have hlaunch : ∀ n stale, e.target k = some (n, stale) → e.Begins k →
      n ≠ k.termLive ∧ (k.term n).pcbLive = none := by
    rintro n stale ht (⟨command, stale', rfl, -⟩ | ⟨n', stale', name, ht', hn, hlive, -⟩)
    · cases ht
    · rw [ht] at ht'
      cases ht'
      exact ⟨hn, hlive⟩
  have hswitch : ∀ n stale, e.target k = some (n, stale) → n ≠ k.termLive →
      if (k.term n).pcbLive = none then k.vidmap = kvidIdx
      else k.cpu = .spin ∨ k.termPit ≠ k.termLive ∧ k.termPit ≠ n := by
    intro n stale ht hn
    cases e <;> first | exact (h _ ht).resolve_left hn | cases ht
  refine ⟨?_, fun n stale ht hn hlive => ?_, fun n stale ht hb => ?_⟩
  · rintro rfl
    exact h
  · have hpit := hswitch n stale ht hn
    rwa [if_neg hlive] at hpit
  · obtain ⟨hn, hlive⟩ := hlaunch n stale ht hb
    have hframe := hswitch n stale ht hn
    rwa [if_pos hlive] at hframe

theorem seesScreen_of_eq (h : SeesScreen k) (hlive : k'.termLive = k.termLive)
    (hpit : k'.termPit = k.termPit) (hvidmap : k'.vidmap = k.vidmap) (hcpu : k.cpu ≠ .spin) :
    SeesScreen k' := by
  refine .inr ?_
  rw [screenFrame, hlive, hpit, hvidmap]
  exact h.resolve_left hcpu

theorem SeesScreen.quiet (h : SeesScreen k) (hq : Quiet k k') : SeesScreen k' := by
  unfold SeesScreen screenFrame
  rw [hq.cpu, hq.vidmap, hq.termLive, hq.termPit]
  exact h

theorem SeesScreen.pitIrq (h : SeesScreen k) (hpit : k.pitIrq = some k') : SeesScreen k' := by
  rcases pitIrq_cases hpit with rfl | ⟨t, a, c, -, -, -, rfl⟩
  · exact h
  · exact .inr rfl

theorem SeesScreen.halt (h : SeesScreen k) (hs : Scheduled k) (hhalt : k.halt = some k') :
    SeesScreen k' := by
  obtain ⟨a, hrun, hcases⟩ := halt_cases hhalt
  -- a process is halted, so one runs
  have hcpu : k.cpu ≠ .spin := fun hspin => by
    obtain ⟨p, ps, hprocs, -⟩ := hs.running hrun
    rw [hs.spin hspin] at hprocs
    cases hprocs
  rcases hcases with ⟨-, hshell⟩ | ⟨-, -, c, -, rfl⟩ | ⟨-, q, c, -, -, hchild⟩
  · exact .inl hshell.cpu
  · exact seesScreen_of_eq h rfl rfl rfl hcpu
  · exact seesScreen_of_eq h hchild.termLive hchild.termPit hchild.vidmap hcpu

theorem SeesScreen.step (h : SeesScreen k) (hs : Scheduled k) (hC : Clean k e)
    (hsteady : Steady k e) (hst : k.step e = some k') : SeesScreen k' := by
  cases step_cases hst with
  | quiet _ hq => exact h.quiet hq
  | vidmap =>
    refine .inr ?_
    rw [screenFrame]
    exact (if_pos (hsteady.vidmap rfl)).symm
  | starts hcpu hstart hq =>
    refine seesScreen_of_eq h ?_ ?_ ?_ (by rw [hcpu]; simp)
    · rw [startProcess_termLive, hq.termLive]
    · rw [startProcess_termPit, hq.termPit]
    · rw [startProcess_vidmap, hq.vidmap]
  | @faces _ n stale _ ht hn hlive hq =>
    refine SeesScreen.quiet ?_ hq
    unfold SeesScreen screenFrame
    rw [faced_eq]
    rcases hsteady.faces n stale ht hn hlive with hspin | ⟨hold, hnew⟩
    · exact .inl hspin
    · -- the scheduled terminal is in the background before and after
      refine h.imp id fun hframe => ?_
      rw [screenFrame, if_neg (Ne.symm hold)] at hframe
      change k.vidmap = if n = k.termPit then kvidIdx else k.termPit + 0xD1
      rw [if_neg (Ne.symm hnew), hframe]
  | @idles _ n stale _ ht hn hlive hno hq =>
    refine SeesScreen.quiet (.inl ?_) hq
    rw [readied_eq]
    exact hC.spin_of_idles ht hn hlive hno
  | @launches _ n stale name k₁ entry _ ht hn hlive hname hstart hq hargs hq' =>
    refine SeesScreen.quiet (.inr ?_) hq'
    rw [screenFrame, startProcess_termLive, startProcess_termPit, startProcess_vidmap, hq.termLive,
      hq.termPit, hq.vidmap, readied_eq]
    rw [if_pos rfl]
    exact hsteady.launches n stale ht (.inr ⟨n, stale, name, ht, hn, hlive, hname, hstart⟩)
  | timer hpit => exact h.pitIrq hpit
  | halts _ hq hhalt => exact (h.quiet hq).halt (hs.quiet hq) hhalt

/-- While a process of the terminal `t` runs, the video page maps the VGA frame if `t` is the live
terminal, and only then; otherwise it maps the backing frame of `t`. -/
def VidmapOk (k : Kernel) : Prop :=
  ∀ p t, k.cpu = .user p → p ∈ k.procs t →
    (k.vidmap = kvidIdx ↔ t = k.termLive) ∧ (t ≠ k.termLive → k.vidmap = 0xD1 + t)

/-- **The video page** is the one of the running process's terminal in every state of every run
with clean and steady steps. -/
theorem vidmap_of_steady {d : Disk} {k₀ : Kernel} (hboot : boot d stale = some k₀)
    (hreach : kernelMachine.Reach (fun k e => Clean k e ∧ Steady k e) k₀ k) : VidmapOk k := by
  have hsees : SeesScreen k₀ := by
    rcases boot_cases hboot with hq | ⟨k₁, entry, hq, rfl⟩
    · exact .inl hq.cpu
    · refine .inr ?_
      rw [screenFrame, startProcess_termLive, startProcess_termPit, startProcess_vidmap,
        hq.termLive, hq.termPit, hq.vidmap]
      rfl
  have hinv : Scheduled k ∧ SeesScreen k :=
    hreach.invariant (I := fun k => Scheduled k ∧ SeesScreen k) ⟨scheduled_boot hboot, hsees⟩
      fun k e k' hk hC hst => ⟨hk.1.step hC.1 hst, hk.2.step hk.1 hC.1 hC.2 hst⟩
  obtain ⟨hs, hframe⟩ := hinv
  intro p t hcpu hp
  have hvidmap : k.vidmap = k.screenFrame := hframe.resolve_left (by rw [hcpu]; simp)
  -- the terminal of the running process is the scheduled one
  have hmem := List.mem_of_mem_head? (hs.user p hcpu)
  obtain ⟨rfl, -⟩ := hs.pid_inj t k.termPit p hp p hmem rfl
  rw [hvidmap, screenFrame]
  by_cases hlive : k.termLive = k.termPit
  · rw [if_pos hlive]
    exact ⟨⟨fun _ => hlive.symm, fun _ => rfl⟩, fun hne => absurd hlive.symm hne⟩
  · rw [if_neg hlive]
    refine ⟨⟨fun heq => ?_, fun heq => absurd heq.symm hlive⟩, fun _ => Nat.add_comm ..⟩
    have hne : k.termPit + 0xD1 ≠ 0xB8 := by omega
    exact absurd heq hne

/-- A shell calls `vidmap`, the timer switches to `gui` and back, and the shell halts; then Alt-F2
opens another shell, which calls `vidmap`, and the timer switches to `gui`. -/
def shellRun : List SysEvent :=
  [.mouseTerm zeroStack, .vidmap, .pit, .pit, .halt, .pit, .keyF2 zeroStack, .vidmap, .pit]

/-- `gui` in the background. -/
theorem vidmap_of_steady_shell : ∃ k₀ k, boot programDisk zeroStack = some k₀ ∧
    kernelMachine.exec k₀ shellRun = some k ∧ k.cpu = .user ⟨0, 1, []⟩ ∧ k.termLive = 1 ∧
    (∃ p, p ∈ k.procs 1) ∧ k.vidmap = 0xD1 + 0 := by
  have hrun : ((boot programDisk zeroStack).bind fun k₀ =>
      (kernelMachine.exec k₀ shellRun).map fun k => ((k.cpu, k.termLive, k.procs 0, k.procs 1),
        decide (kernelMachine.Steps (fun k e => Tidy k e ∧ SteadyHere k e) k₀ shellRun))) =
      some ((.user ⟨0, 1, []⟩, 1, [⟨0, 1, []⟩], [⟨2, 2, []⟩]), true) := by
    decide +kernel
  obtain ⟨k₀, k, hboot, hexec, hk, hreach⟩ :=
    reach_of_tidy (fun _ _ hclean _ hsteady => And.intro hclean hsteady.steady) hrun
  simp only [Prod.mk.injEq] at hk
  obtain ⟨hcpu, hlive, hgui, hshell⟩ := hk
  have hframe := (vidmap_of_steady hboot hreach _ 0 hcpu (by rw [hgui]; simp)).2
    (by rw [hlive]; decide)
  exact ⟨k₀, k, hboot, hexec, hcpu, hlive, ⟨⟨2, 2, []⟩, by rw [hshell]; simp⟩, hframe⟩
/-- Alt-F1 while a shell runs: it goes on with the VGA frame. -/
theorem not_vidmapOk : ∃ d stale k₀ es, boot d stale = some k₀ ∧
    ¬ kernelMachine.States VidmapOk k₀ es := by
  have hrun : ((boot programDisk zeroStack).bind fun k₀ => (kernelMachine.exec k₀
      [.mouseTerm zeroStack, .keyF1 zeroStack]).map
      fun k => (k.cpu, k.procs 1, k.vidmap, k.termLive)) =
        some (.user ⟨1, 2, []⟩, [⟨1, 2, []⟩], kvidIdx, 0) := by
    decide +kernel
  obtain ⟨k₀, hboot, hno⟩ := Machine.exists_not_states (P := VidmapOk) hrun fun k hk hP => by
    obtain ⟨hcpu, hrest⟩ := Prod.mk.inj hk
    obtain ⟨hprocs, hrest⟩ := Prod.mk.inj hrest
    obtain ⟨hvidmap, hlive⟩ := Prod.mk.inj hrest
    have hvga := (hP _ 1 hcpu (by rw [hprocs]; exact List.mem_cons_self ..)).1.1 hvidmap
    rw [hlive] at hvga
    cases hvga
  exact ⟨_, _, k₀, _, hboot, hno⟩

end Kernel

end KTeamOS
