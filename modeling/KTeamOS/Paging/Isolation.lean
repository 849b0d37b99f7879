import KTeamOS.Paging.Represents
import KTeamOS.System.Schedule

/-!
# The memory of a process

What the user code of a process reaches through the page tables: its own frame, the screens, and
the pages that all programs share, but neither the kernel nor the frame of another process
(`memory_separate`).
-/

namespace KTeamOS

/-- A frame with a text page. -/
def ScreenFrame (f : ℕ) : Prop := f = 0xB8 ∨ 0xD1 ≤ f ∧ f ≤ 0xD3

/-- The frame of `page_directory[EXE_IDX]`, if it is present. -/
def PagingState.exePage (s : PagingState) : Option ℕ :=
  let e := s.paging.pageDirectory Paging.exeIdx
  if e.present then some e.addr else none

/-- The tables behind `paging_init`, with nothing cached. -/
def PagingState.init (place : TablePlaces) : PagingState := ⟨pagingInit place, fun _ => none⟩

namespace Space

variable {s : Space} {w : Bool} {a b f : ℕ}

/-- A place in the page of the program. -/
theorem translate_exe (h : s.exe = some f) (ha : a / 2 ^ 22 = 32) :
    s.translate ⟨true, w⟩ a = some (f * 2 ^ 22 + a % 2 ^ 22) := by
  have hpage : a / 4096 / 1024 = 32 := by omega
  have hmap : s.map (a / 4096) = some ⟨true, true, f * 1024 + a / 4096 % 1024⟩ := by
    rw [map, if_neg (by omega), if_neg (by omega), if_pos hpage, h]
    rfl
  have hplace : (f * 1024 + a / 4096 % 1024) * 4096 + a % 4096 = f * 2 ^ 22 + a % 2 ^ 22 := by
    omega
  rw [translate, hmap, Option.bind_some, Mmu.Mapping.address, if_neg (by simp), hplace]

/-- What the user reaches at all. -/
theorem user_reaches (h : s.translate ⟨true, w⟩ a = some b) :
    (∃ f, s.exe = some f ∧ b / 2 ^ 22 = f) ∨ b / 4096 = s.screen ∨ b / 2 ^ 22 = 34 ∨
      s.heap (b / 2 ^ 22) = true := by
  obtain ⟨m, hm, hb⟩ := Option.bind_eq_some_iff.1 h
  unfold Mmu.Mapping.address at hb
  split_ifs at hb with hdenied
  have huser : m.user = true := by
    by_contra hno
    exact hdenied ⟨rfl, .inl hno⟩
  have hb : m.frame * 4096 + a % 4096 = b := Option.some.inj hb
  unfold map at hm
  split_ifs at hm with h0 hlow h1 h32 h33 hscreen h34 hheap
  · -- the first 4 MB are the kernel's
    cases hm
    cases huser
  · cases hm
    cases huser
  · obtain ⟨f, hf, rfl⟩ := Option.map_eq_some_iff.1 hm
    refine .inl ⟨f, hf, ?_⟩
    change (f * 1024 + a / 4096 % 1024) * 4096 + a % 4096 = b at hb
    omega
  · cases hm
    change s.screen * 4096 + a % 4096 = b at hb
    refine .inr (.inl ?_)
    omega
  · cases hm
    change a / 4096 * 4096 + a % 4096 = b at hb
    refine .inr (.inr (.inl ?_))
    omega
  · cases hm
    change a / 4096 * 4096 + a % 4096 = b at hb
    refine .inr (.inr (.inr ?_))
    rwa [show b / 2 ^ 22 = a / 4096 / 1024 by omega]

end Space

variable {place : TablePlaces} {s : PagingState}

/-- The tables are those of an address space with a text page behind the video page. -/
theorem exists_space
    (h : (pagingMachine place).Reach PagingEvent.Fits (PagingState.init place) s) :
    ∃ t, Current place s t ∧ ScreenFrame t.screen := by
  refine h.invariant (I := fun s => ∃ t, Current place s t ∧ ScreenFrame t.screen)
    ⟨Space.init, current_flushed (represents_init place), .inl rfl⟩ ?_
  rintro s l s' ⟨t, hcurrent, hscreen⟩ hfits hst
  obtain ⟨-, t', hst', hcurrent'⟩ := (refines_space place).step s t l s' hcurrent hfits hst
  refine ⟨t', hcurrent', ?_⟩
  cases l with
  | mapVid =>
    cases hst'
    exact .inl rfl
  | contextSwitchPit pid newTerm termLive =>
    cases hst'
    have ht : newTerm < 3 := hfits
    change ScreenFrame (if termLive = newTerm then 0xB8 else newTerm + 0xD1)
    split_ifs
    · exact .inl rfl
    · exact .inr (by omega)
  | access x a => cases hst'; exact hscreen
  | fill page => cases hst'; exact hscreen
  | evict page => cases hst'; exact hscreen
  | setPage pid => cases hst'; exact hscreen
  | hideTerm oldTerm => cases hst'; exact hscreen
  | showTerm newTerm => cases hst'; exact hscreen
  | mapBlock first n => cases hst'; exact hscreen
  | flush => cases hst'; exact hscreen

theorem Current.exePage {t : Space} (h : Current place s t) : s.exePage = t.exe := by
  unfold PagingState.exePage
  rcases hexe : t.exe with _ | f
  · rw [if_neg (by rw [h.1.noExe hexe]; exact Bool.false_ne_true)]
  · obtain ⟨hpresent, -, -, -, haddr⟩ := h.1.exe f hexe
    rw [if_pos hpresent, haddr]

/-- **The memory of a process is its own.**  While the process `p` runs, its user code reaches the
whole frame of `p` at the page of the program, and otherwise the screens, the build buffer and the
heap only: never the kernel, and never the frame of another process. -/
theorem memory_separate {d : Disk} {stale : Stale} {k₀ k : Kernel} {p : Process}
    (hboot : Kernel.boot d stale = some k₀)
    (hreach : kernelMachine.Reach (fun k e => Kernel.Clean k e ∧ Kernel.Rooted k e) k₀ k)
    (hrun : k.cpu = .user p)
    (hpaging : (pagingMachine place).Reach PagingEvent.Fits (PagingState.init place) s)
    (hexe : s.exePage = k.exePage) :
    (∀ w a, a / 2 ^ 22 = 32 → s.answer place (.access ⟨true, w⟩ a) =
      some ((p.pid + 1) * 2 ^ 22 + a % 2 ^ 22)) ∧
    ∀ w a b, s.answer place (.access ⟨true, w⟩ a) = some b →
      (b / 2 ^ 22 = p.pid + 1 ∨ ScreenFrame (b / 4096) ∨ b / 2 ^ 22 = 34 ∨
        39 ≤ b / 2 ^ 22 ∧ b / 2 ^ 22 < 60) ∧
      b / 2 ^ 22 ≠ 1 ∧ ∀ t, ∀ q ∈ k.procs t, q ≠ p → b / 2 ^ 22 ≠ q.pid + 1 := by
  obtain ⟨hs, hm⟩ : Kernel.Scheduled k ∧ Kernel.Mapped k :=
    hreach.invariant (I := fun k => Kernel.Scheduled k ∧ Kernel.Mapped k)
      ⟨Kernel.scheduled_boot hboot, Kernel.mapped_boot hboot⟩
      fun k e k' hk hC hst => ⟨hk.1.step hC.1 hst, hk.2.step hk.1 hC.1 hC.2 hst⟩
  obtain ⟨t, hcurrent, hscreen⟩ := exists_space hpaging
  have hframe : t.exe = some (p.pid + 1) := by
    rw [← hcurrent.exePage, hexe]
    exact (hm p hrun).1
  have hanswer : ∀ w a, s.answer place (.access ⟨true, w⟩ a) = t.translate ⟨true, w⟩ a := by
    intro w a
    rw [PagingState.answer, hcurrent.2.translate_eq, hcurrent.1.lookup, Space.translate]
  refine ⟨fun w a ha => ?_, fun w a b hb => ?_⟩
  · rw [hanswer]
    exact Space.translate_exe hframe ha
  · rw [hanswer] at hb
    have hmem := List.mem_of_mem_head? (hs.user p hrun)
    have hpid := hs.pid_mem _ p hmem
    have hown : b / 2 ^ 22 = p.pid + 1 ∨ ScreenFrame (b / 4096) ∨ b / 2 ^ 22 = 34 ∨
        39 ≤ b / 2 ^ 22 ∧ b / 2 ^ 22 < 60 := by
      obtain ⟨f, hf, hbf⟩ | hb | hb | hb := Space.user_reaches hb
      · rw [hframe] at hf
        exact .inl (hbf.trans (Option.some.inj hf).symm)
      · exact .inr (.inl (hb ▸ hscreen))
      · exact .inr (.inr (.inl hb))
      · exact .inr (.inr (.inr (hcurrent.1.arena _ hb)))
    refine ⟨hown, ?_, fun u q hq hne => ?_⟩
    · unfold ScreenFrame at hown
      omega
    · have hother : q.pid ≠ p.pid := fun h => hne (hs.pid_inj u _ q hq p hmem h).2
      have hqpid := hs.pid_mem u q hq
      unfold ScreenFrame at hown
      omega

instance (s : PagingState) : DecidablePred (PagingEvent.Fits s)
  | .hideTerm _ | .showTerm _ | .contextSwitchPit .. => inferInstanceAs (Decidable (_ < 3))
  | .mapBlock .. => inferInstanceAs (Decidable (_ ∧ _))
  | .access .. | .fill _ | .evict _ | .setPage _ | .mapVid | .flush => isTrue trivial

/-- What `lsRun` does to the tables. -/
def lsPages : List PagingEvent :=
  [.setPage 0, .showTerm 1, .setPage 1, .setPage 2, .contextSwitchPit 0 0 1,
    .contextSwitchPit 2 1 1, .hideTerm 1, .showTerm 0, .contextSwitchPit 0 0 0,
    .contextSwitchPit 2 1 0, .setPage 1]

/-- The shell writes into its own frame, and reaches nothing of `gui`. -/
theorem memory_separate_ls : ∃ k₀ k p q s, Kernel.boot programDisk zeroStack = some k₀ ∧
    kernelMachine.exec k₀ Kernel.lsRun = some k ∧ k.cpu = .user p ∧ q ∈ k.procs 0 ∧ q ≠ p ∧
    (pagingMachine kernelPlacement).exec (PagingState.init kernelPlacement) lsPages = some s ∧
    s.answer kernelPlacement (.access ⟨true, true⟩ (32 * 2 ^ 22 + 5)) =
      some ((p.pid + 1) * 2 ^ 22 + 5) ∧
    ∀ w a b, s.answer kernelPlacement (.access ⟨true, w⟩ a) = some b →
      b / 2 ^ 22 ≠ q.pid + 1 := by
  have hrun : ((Kernel.boot programDisk zeroStack).bind fun k₀ =>
      (kernelMachine.exec k₀ Kernel.lsRun).map fun k => ((k.cpu, k.procs 0, k.exePage),
        decide (kernelMachine.Steps (fun k e => k.Tidy e ∧ True) k₀ Kernel.lsRun))) =
      some ((.user ⟨1, 2, []⟩, [⟨0, 1, []⟩], some 3), true) := by
    decide +kernel
  obtain ⟨k₀, k, hboot, hexec, hk, hreach⟩ :=
    Kernel.reach_of_tidy (fun _ _ hclean hroot _ => And.intro hclean hroot) hrun
  simp only [Prod.mk.injEq] at hk
  obtain ⟨hcpu, hgui, hpage⟩ := hk
  have hsteps : (pagingMachine kernelPlacement).Steps PagingEvent.Fits
      (PagingState.init kernelPlacement) lsPages := by
    decide +kernel
  obtain ⟨hown, hother⟩ := memory_separate hboot hreach hcpu (hsteps.reach rfl)
    (hpage ▸ rfl)
  have hmem : (⟨0, 1, []⟩ : Process) ∈ k.procs 0 := by rw [hgui]; exact List.mem_cons_self ..
  exact ⟨k₀, k, _, _, _, hboot, hexec, hcpu, hmem, by decide, rfl, hown true _ (by decide),
    fun w a b hb => (hother w a b hb).2.2 0 _ hmem (by decide)⟩

end KTeamOS
