import KTeamOS.LTS.Basic
import KTeamOS.Terminal.Page

/-!
# Three terminals on one display

The page `0xD1 + t` is the text page of the terminal `t`: it is mapped to the frame of the display
while `t` is live, and to a frame of its own otherwise.  `context_switch` copies the screens between
the frames and changes the page table around the copies.  What each terminal sees is a screen of its
own (`Desktop.vscreen`).

## Main definitions

* `Desktop.contextSwitch`, `desktopMachine` : switches, outputs of processes, echoes.
* `Desktop.Mapped` : what the page table holds.
* `Kept` : an output changes its own screen only, and a switch none.
-/

namespace KTeamOS

/-- The memory and the live terminal. -/
structure Desktop where
  screen : Screen
  /-- `term_live` -/
  live : ℕ

namespace Screen

/-- `page_table_4kb[i].addr = a;` -/
def setFrame (s : Screen) (i a : ℕ) : Screen := { s with frame := Function.update s.frame i a }

end Screen

namespace Desktop

open Screen

/-- `context_switch` between two terminals that have a process.  The part that saves and loads the
build buffer of the graphics mode is left out. -/
def contextSwitch (d : Desktop) (oldTerm newTerm : ℕ) : Desktop :=
  if oldTerm = newTerm then d
  else
    let s := d.screen.setFrame (oldTerm + 0xD1) (oldTerm + 0xD1)
    let s := s.memcpy (pageOf oldTerm) videoMem 4096
    let s := s.memcpy videoMem (pageOf newTerm) 4096
    let s := s.setFrame (newTerm + 0xD1) (videoMem / 4096)
    { screen := s.cursor newTerm (s.screenX newTerm) (s.screenY newTerm), live := newTerm }

/-- Where the screen of `t` is: the text page of the display, or its backing page. -/
def base (d : Desktop) (t : ℕ) : ℕ := if t = d.live then videoMem else pageOf t

/-- The virtual screen of `t`. -/
def vscreen (d : Desktop) (t i : ℕ) : UInt8 := d.screen.mem (d.base t + i)

/-- The page table: the live terminal has the display, the others have frames of their own. -/
structure Mapped (d : Desktop) : Prop where
  live_lt : d.live < 3
  video : d.screen.frame (videoMem / 4096) = videoMem / 4096
  pages : ∀ t < 3, d.screen.frame (t + 0xD1) = if t = d.live then videoMem / 4096 else t + 0xD1

end Desktop

/-- What happens to the terminals: a switch from the live terminal, a character that the process of
`t` writes, an echo on the live terminal. -/
inductive DesktopEvent
  | switch (newTerm : Fin 3)
  | put (t : Fin 3) (c : UInt8)
  | echo (c : UInt8) (idx idxEnd : ℕ)

/-- Switches between the terminals, and the characters of programs and keys. -/
def desktopMachine : Machine Desktop DesktopEvent where
  step d
    | .switch newTerm => some (d.contextSwitch d.live newTerm)
    | .put t c => some { d with screen := d.screen.terWritePit d.live t c }
    | .echo c idx idxEnd => some { d with screen := d.screen.terWrite d.live c idx idxEnd }

/-- Only the screen and the cursor of `t` change. -/
structure OnlyScreen (t : ℕ) (d d' : Desktop) : Prop where
  mem : ∀ a, a < d.base t ∨ d.base t + 4096 ≤ a → d'.screen.mem a = d.screen.mem a
  vscreen : ∀ u < 3, u ≠ t → ∀ i < 4096, d'.vscreen u i = d.vscreen u i
  screenX : ∀ u ≠ t, d'.screen.screenX u = d.screen.screenX u
  screenY : ∀ u ≠ t, d'.screen.screenY u = d.screen.screenY u

/-- No screen and no cursor changes. -/
structure SameScreens (d d' : Desktop) : Prop where
  vscreen : ∀ u < 3, ∀ i < 4096, d'.vscreen u i = d.vscreen u i
  screenX : d'.screen.screenX = d.screen.screenX
  screenY : d'.screen.screenY = d.screen.screenY

/-- An event changes what it may change. -/
def Kept (d : Desktop) (e : DesktopEvent) : Prop :=
  ∀ d', desktopMachine.step d e = some d' →
    match e with
    | .switch _ => SameScreens d d'
    | .put t _ => OnlyScreen t d d'
    | .echo _ _ _ => OnlyScreen d.live d d'

/-- The cells of an echo are in the frame. -/
def DesktopEvent.Safe (d : Desktop) : DesktopEvent → Prop
  | .echo c idx idxEnd => Screen.Fits Screen.frameCells d.screen d.live c (sub32 idxEnd idx)
  | .switch _ | .put _ _ => True

namespace Screen

variable {s : Screen} {v w n a t : ℕ}

/-- A copy between pages in different frames. -/
theorem memcpy_page (hv : IsPage v) (hw : IsPage w)
    (hvw : s.phys v + 4096 ≤ s.phys w ∨ s.phys w + 4096 ≤ s.phys v) (hn : n ≤ 4096) :
    (s.memcpy v w n).mem a =
      if s.phys v ≤ a ∧ a < s.phys v + n then s.mem (s.phys w + (a - s.phys v)) else s.mem a := by
  have hframe : ∀ n, (s.memcpy v w n).frame = s.frame := by
    intro n
    induction n with
    | zero => rfl
    | succ n ih => exact ih
  induction n generalizing a with
  | zero => rw [memcpy, if_neg (by omega)]
  | succ n ih =>
    have hphys := phys_congr (hframe n)
    have hdest : (s.memcpy v w n).phys ((v + n) % 2 ^ 32) = s.phys v + n := by
      rw [hphys, s.phys_add hv (by omega)]
    have hread : (s.memcpy v w n).read (w + n) = s.mem (s.phys w + n) := by
      unfold read
      rw [hphys, s.phys_add hw (by omega), ih (by omega), if_neg (by omega)]
    rw [memcpy, write, hdest, hread]
    change Function.update (s.memcpy v w n).mem (s.phys v + n) _ a = _
    by_cases ha : a = s.phys v + n
    · rw [ha, Function.update_self, if_pos (by omega), Nat.add_sub_cancel_left]
    · rw [Function.update_of_ne ha, ih (by omega)]
      exact if_congr (by omega) rfl rfl

theorem phys_pageOf (ht : t < 3) : s.phys (pageOf t) = s.frame (t + 0xD1) * 4096 := by
  have hlow : pageOf t < 0x400000 := by
    unfold pageOf
    omega
  rw [phys, if_pos hlow, pageOf, Nat.mul_div_cancel _ (by decide), Nat.mul_mod_left,
    Nat.add_comm 0xD1 t, Nat.add_zero]

theorem phys_videoMem : s.phys videoMem = s.frame (videoMem / 4096) * 4096 := by
  rw [phys, if_pos (by decide), show videoMem % 4096 = 0 by decide, Nat.add_zero]

end Screen

namespace Desktop

open Screen

variable {d d' : Desktop} {s : Screen} {t u v i : ℕ}

/-! ### Where the screens are -/

theorem base_live : d.base d.live = videoMem := if_pos rfl

theorem Mapped.phys_pageOf (h : d.Mapped) (ht : t < 3) : d.screen.phys (pageOf t) = d.base t := by
  rw [Screen.phys_pageOf ht, h.pages t ht, base]
  split_ifs
  · rfl
  · rw [pageOf, Nat.add_comm]

theorem Mapped.phys_videoMem (h : d.Mapped) : d.screen.phys videoMem = videoMem := by
  rw [Screen.phys_videoMem, h.video, Nat.div_mul_cancel (by decide)]

/-- Two terminals have different frames. -/
theorem base_disjoint (ht : t < 3) (hu : u < 3) (htu : t ≠ u) :
    d.base t + 4096 ≤ d.base u ∨ d.base u + 4096 ≤ d.base t := by
  simp only [base, pageOf, videoMem]
  split_ifs <;> omega

/-! ### Outputs -/

/-- An output that is confined to the page of `t` keeps all other screens. -/
theorem Mapped.output (h : d.Mapped) (ht : t < 3) (hv : d.screen.phys v = d.base t)
    (hout : Confined v t d.screen s) :
    Mapped { d with screen := s } ∧ OnlyScreen t d { d with screen := s } := by
  have hmem : ∀ a, a < d.base t ∨ d.base t + 4096 ≤ a → s.mem a = d.screen.mem a := by
    intro a ha
    refine hout.mem a ?_
    unfold Outside
    rwa [hv]
  refine ⟨⟨h.live_lt, ?_, fun u hu => ?_⟩, hmem, fun u hu hut i hi => ?_, hout.screenX,
    hout.screenY⟩
  · rw [hout.frame]
    exact h.video
  · rw [hout.frame]
    exact h.pages u hu
  · have hdisj := base_disjoint (d := d) ht hu hut.symm
    exact hmem (d.base u + i) (by omega)

/-! ### Switches -/

/-- A switch to another terminal, step by step: the page of the old one gets its own frame, the two
copies, and the new one gets the display. -/
theorem Mapped.switch (h : d.Mapped) {newTerm : ℕ} (hnew : newTerm < 3) :
    (d.contextSwitch d.live newTerm).Mapped ∧ SameScreens d (d.contextSwitch d.live newTerm) := by
  by_cases hsame : d.live = newTerm
  · rw [contextSwitch, if_pos hsame]
    exact ⟨h, fun _ _ _ _ => rfl, rfl, rfl⟩
  · have hlive := h.live_lt
    -- the state between the first change of the page table and the copies
    obtain ⟨s₁, hs₁⟩ : ∃ s₁, s₁ = d.screen.setFrame (d.live + 0xD1) (d.live + 0xD1) := ⟨_, rfl⟩
    have hframe₁ : ∀ j, s₁.frame j =
        if j = d.live + 0xD1 then d.live + 0xD1 else d.screen.frame j := by
      intro j
      rw [hs₁]
      exact Function.update_apply ..
    have hold : s₁.phys (pageOf d.live) = pageOf d.live := by
      rw [Screen.phys_pageOf hlive, hframe₁, if_pos rfl, pageOf, Nat.add_comm]
    have hnewPage : s₁.phys (pageOf newTerm) = pageOf newTerm := by
      rw [Screen.phys_pageOf hnew, hframe₁, if_neg (by omega), h.pages newTerm hnew,
        if_neg (Ne.symm hsame), pageOf, Nat.add_comm]
    have hvideo : s₁.phys videoMem = videoMem := by
      rw [Screen.phys_videoMem, hframe₁, if_neg (by simp only [videoMem]; omega), h.video,
        Nat.div_mul_cancel (by decide)]
    obtain ⟨s₂, hs₂⟩ : ∃ s₂, s₂ = s₁.memcpy (pageOf d.live) videoMem 4096 := ⟨_, rfl⟩
    have honly₂ : MemOnly (pageOf d.live) s₁ s₂ := by
      rw [hs₂]
      exact MemOnly.memcpy (isPage_pageOf hlive) (Nat.le_refl _) (Nat.le_refl _)
    have hmem₂ : ∀ a, s₂.mem a = if pageOf d.live ≤ a ∧ a < pageOf d.live + 4096 then
        d.screen.mem (videoMem + (a - pageOf d.live)) else d.screen.mem a := by
      intro a
      rw [hs₂, memcpy_page (isPage_pageOf hlive) isPage_videoMem
        (by rw [hold, hvideo]; simp only [pageOf, videoMem]; omega) (Nat.le_refl _), hold, hvideo,
        hs₁]
      rfl
    obtain ⟨s₃, hs₃⟩ : ∃ s₃, s₃ = s₂.memcpy videoMem (pageOf newTerm) 4096 := ⟨_, rfl⟩
    have honly₃ : MemOnly videoMem s₂ s₃ := by
      rw [hs₃]
      exact MemOnly.memcpy isPage_videoMem (Nat.le_refl _) (Nat.le_refl _)
    have hmem₃ : ∀ a, s₃.mem a = if videoMem ≤ a ∧ a < videoMem + 4096 then
        s₂.mem (pageOf newTerm + (a - videoMem)) else s₂.mem a := by
      intro a
      have hphys := phys_congr honly₂.frame
      rw [hs₃, memcpy_page isPage_videoMem (isPage_pageOf hnew)
        (by rw [hphys, hnewPage, hvideo]; simp only [pageOf, videoMem]; omega) (Nat.le_refl _),
        hphys, hnewPage, hvideo]
    have hswitch : d.contextSwitch d.live newTerm =
        { screen := (s₃.setFrame (newTerm + 0xD1) (videoMem / 4096)).cursor newTerm
            ((s₃.setFrame (newTerm + 0xD1) (videoMem / 4096)).screenX newTerm)
            ((s₃.setFrame (newTerm + 0xD1) (videoMem / 4096)).screenY newTerm)
          live := newTerm } := by
      rw [hs₃, hs₂, hs₁]
      unfold contextSwitch
      simp only [if_neg hsame]
    have hframe : ∀ j, s₃.frame j = s₁.frame j := by
      intro j
      rw [honly₃.frame, honly₂.frame]
    rw [hswitch]
    refine ⟨⟨hnew, ?_, fun u hu => ?_⟩, fun u hu i hi => ?_, ?_, ?_⟩
    · change Function.update s₃.frame (newTerm + 0xD1) (videoMem / 4096) (videoMem / 4096) = _
      rw [Function.update_of_ne (by simp only [videoMem]; omega), hframe, hframe₁,
        if_neg (by simp only [videoMem]; omega), h.video]
    · change Function.update s₃.frame (newTerm + 0xD1) (videoMem / 4096) (u + 0xD1) = _
      by_cases hun : u = newTerm
      · rw [hun, Function.update_self, if_pos rfl]
      · rw [Function.update_of_ne (by omega), hframe, hframe₁, if_neg hun]
        by_cases hul : u = d.live
        · rw [if_pos (by omega), hul]
        · rw [if_neg (by omega), h.pages u hu, if_neg hul]
    · change s₃.mem ((if u = newTerm then videoMem else pageOf u) + i) =
        d.screen.mem ((if u = d.live then videoMem else pageOf u) + i)
      by_cases hun : u = newTerm
      · rw [if_pos hun, if_neg (by omega), hmem₃, if_pos (by omega), hmem₂,
          if_neg (by simp only [pageOf]; omega), hun, Nat.add_sub_cancel_left]
      · rw [if_neg hun, hmem₃, if_neg (by simp only [pageOf, videoMem]; omega), hmem₂]
        by_cases hul : u = d.live
        · rw [if_pos hul, hul, if_pos (by omega), Nat.add_sub_cancel_left]
        · rw [if_neg hul, if_neg (by simp only [pageOf]; omega)]
    · change Function.update s₃.screenX newTerm (s₃.screenX newTerm) = d.screen.screenX
      rw [Function.update_eq_self, honly₃.screenX, honly₂.screenX, hs₁]
      rfl
    · change Function.update s₃.screenY newTerm (s₃.screenY newTerm) = d.screen.screenY
      rw [Function.update_eq_self, honly₃.screenY, honly₂.screenY, hs₁]
      rfl

/-- The page table and the cursors. -/
structure DesktopInv (d : Desktop) : Prop where
  mapped : d.Mapped
  onPage : ∀ t, d.screen.OnPage t

theorem DesktopInv.step {e : DesktopEvent} (h : d.DesktopInv) (hsafe : e.Safe d)
    (hst : desktopMachine.step d e = some d') : d'.DesktopInv ∧ Kept d e := by
  unfold Kept
  rw [hst]
  simp only [Option.some.injEq, forall_eq']
  cases e with
  | switch newTerm =>
    cases hst
    obtain ⟨hmapped, hsame⟩ := h.mapped.switch newTerm.isLt
    refine ⟨⟨hmapped, fun t => ?_⟩, hsame⟩
    unfold OnPage
    rw [hsame.screenX, hsame.screenY]
    exact h.onPage t
  | put t c =>
    cases hst
    have hconf : Confined (pageOf t) t d.screen (d.screen.terWritePit d.live t c) :=
      terWritePit_confined t.isLt (pit_inCells (h.onPage t) t.isLt)
    obtain ⟨hmapped, honly⟩ := h.mapped.output t.isLt (h.mapped.phys_pageOf t.isLt) hconf
    exact ⟨⟨hmapped, hconf.onPage h.onPage (terWritePit_onPage (h.onPage t) t.isLt)⟩,
      honly⟩
  | echo c idx idxEnd =>
    cases hst
    have hconf : Confined videoMem d.live d.screen (d.screen.terWrite d.live c idx idxEnd) :=
      terWrite_confined (Nat.le_refl _) (inCells_of_fits (h.onPage d.live) (Nat.le_refl _) hsafe)
    have hbase : d.screen.phys videoMem = d.base d.live := by
      rw [h.mapped.phys_videoMem, base_live]
    obtain ⟨hmapped, honly⟩ := h.mapped.output h.mapped.live_lt hbase hconf
    exact ⟨⟨hmapped, hconf.onPage h.onPage
      (terWrite_onPage (h.onPage d.live) (Nat.le_refl _) hsafe)⟩, honly⟩

/-- The terminals on a blank display. -/
def blank (live : ℕ) : Desktop where
  screen := (Screen.boot.setFrame (live + 0xD1) (videoMem / 4096))
  live := live

end Desktop

/-- **Three terminals, three screens.**  In a run whose echoes all stay in the frame, an output
changes its own screen and cursor only, a switch no screen, and the live terminal has the
display. -/
theorem desktop_kept {d : Desktop} (hmapped : d.Mapped) (hpage : ∀ t, d.screen.OnPage t)
    {es : List DesktopEvent} (hsafe : desktopMachine.Steps (fun d e => e.Safe d) d es) :
    desktopMachine.States Desktop.Mapped d es ∧ desktopMachine.Steps Kept d es := by
  have hinv : d.DesktopInv := ⟨hmapped, hpage⟩
  exact Machine.states_steps_of_steps (fun _ _ _ => Desktop.DesktopInv.step)
    (fun _ h => h.mapped) hinv hsafe

/-- The user types a character, goes to another terminal, and the process that is left behind
writes. -/
theorem desktop_kept_blank : desktopMachine.States Desktop.Mapped (.blank 1)
      [.echo 97 0 0, .switch 0, .put 1 98] ∧
    desktopMachine.Steps Kept (.blank 1) [.echo 97 0 0, .switch 0, .put 1 98] := by
  refine desktop_kept ⟨by decide, rfl, by decide⟩ (fun _ => ⟨Nat.succ_pos _, Nat.succ_pos _⟩) ?_
  intro d₁ h₁
  refine ⟨?_, fun d₂ _ => ⟨trivial, fun d₃ _ => ⟨trivial, trivial⟩⟩⟩
  change Screen.Fits Screen.frameCells _ _ 97 (sub32 0 0)
  decide

/-- The user types a character, the process moves the cursor back to the corner, and the user erases
the character: the cursor wraps around, and the next output of the process is in the page of the
terminal before. -/
theorem desktop_not_kept : ¬ desktopMachine.Steps Kept (.blank 1)
    [.echo 97 0 0, .put 1 8, .echo 8 0 0, .put 1 120] := by
  have hbefore : (desktopMachine.exec (.blank 1) [.echo 97 0 0, .put 1 8, .echo 8 0 0]).map
      (fun d => d.vscreen 0 4094) = some 0 := by decide +kernel
  have hafter : ((desktopMachine.exec (.blank 1) [.echo 97 0 0, .put 1 8, .echo 8 0 0]).bind
      fun d => (desktopMachine.step d (.put 1 120)).map fun d' => d'.vscreen 0 4094) =
      some 120 := by decide +kernel
  obtain ⟨d, hexec, hd⟩ := Option.map_eq_some_iff.1 hbefore
  rw [hexec, Option.bind_some] at hafter
  obtain ⟨d', hst, hd'⟩ := Option.map_eq_some_iff.1 hafter
  intro hsteps
  have hkept : Kept d (.put 1 120) :=
    Machine.Steps.last (M := desktopMachine) (C := Kept) (s := .blank 1) (l := .put 1 120)
      hsteps hexec hst
  have hsame := (hkept d' hst).vscreen 0 (by decide) (by decide) 4094 (by decide)
  rw [hd, hd'] at hsame
  exact absurd hsame (by decide)

end KTeamOS
