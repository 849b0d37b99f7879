import KTeamOS.Terminal.Keys
import KTeamOS.Terminal.Page

/-!
# The cursors under keys and outputs

Keys are pressed on the live terminal while processes write to all terminals.  A cursor leaves its
page upwards, when the start of the line is not on the page any more, and downwards, behind the last
cell or when a long line is ended with the cursor inside it.

## Main definitions

* `consoleMachine` : the terminals under keys and the characters of `terminal_write`.
* `ConsoleEvent.Safe` : the cursor stays on the page, and so does the rest of the line.
* `ConsoleEvent.Inside` : all cell accesses of an event are in the text page.
-/

namespace KTeamOS

/-- An event of the terminals: a key, or a character of `terminal_write` by the process of the
scheduled terminal `t`. -/
inductive ConsoleEvent
  | key (e : KeyEvent)
  | put (t : Fin 3) (c : UInt8)

/-- Keys, and characters that programs print. -/
def consoleMachine : Machine Tty ConsoleEvent where
  step s
    | .key e => ttyMachine.step s e
    | .put t c => some { s with screen := s.screen.terWritePit s.termLive t c }

namespace Tty

/-- Every cursor is on its page. -/
def CursorsOnPage (s : Tty) : Prop := ∀ t, s.screen.OnPage t

/-- What one call of `key_to_ter` needs. -/
def KeySafe (s : Tty) (c : UInt8) : Prop :=
  if c = 8 then s.bi = 0 ∨ Screen.Fits Screen.numCells s.screen s.termLive c (s.bim - s.bi)
  else if c = 10 ∨ c = 13 then
    s.bi = s.bim ∨ s.bim ≤ 72 ∨ s.screen.screenY s.termLive + 1 < numRows
  else bufMaxV < s.bim ∨ Screen.Fits Screen.numCells s.screen s.termLive c (s.bim - s.bi)

instance (s : Tty) (c : UInt8) : Decidable (s.KeySafe c) := by
  unfold KeySafe
  infer_instance

/-- The addresses at which the echo of `key_to_ter` reads and writes cells. -/
def keyUses (s : Tty) (c : UInt8) : List ℕ :=
  if c = 8 then
    if s.bi = 0 then []
    else s.screen.terWriteUses s.termLive c (sub32 s.bi 1) (sub32 s.bim 1)
  else if c = 10 ∨ c = 13 then s.skipTail.screen.terWriteUses s.termLive c s.bi s.bim
  else if s.bim > bufMaxV then []
  else s.screen.terWriteUses s.termLive c s.bi s.bim

/-- The echo of a key uses no address outside the page. -/
def KeyInside (s : Tty) (c : UInt8) : Prop :=
  ∀ a ∈ s.keyUses c, Screen.InCells Screen.numCells videoMem a

/-- `P` holds at every call of `key_to_ter` when the characters are typed one after the other. -/
def Along (P : Tty → UInt8 → Prop) : Tty → List UInt8 → Prop
  | _, [] => True
  | s, c :: cs => P s c ∧ Along P (s.keyToTer c) cs

/-- The same for the loop `typeEntry`. -/
def AlongEntry (P : Tty → UInt8 → Prop) : ℕ → ℕ → Tty → Prop
  | 0, _, _ => True
  | n + 1, i, s =>
    let c := s.history s.termLive (s.arrowIdx s.termLive) i
    c = 0 ∨ c = 10 ∨ (P s c ∧ AlongEntry P n (i + 1) (s.keyToTer c))

/-- The same for a line that is replaced by an entry of the history. -/
def AlongRecall (P : Tty → UInt8 → Prop) (s : Tty) : Prop :=
  Along P s (List.replicate bufMax 8) ∧ AlongEntry P bufMax 0 s.eraseLine

/-- The same for a key event. -/
def AlongEvent (P : Tty → UInt8 → Prop) (s : Tty) : KeyEvent → Prop
  | .key c => P s c
  | .left | .right => True
  | .up =>
    let t := s.termLive
    let a := sub32 (s.arrowIdx t) 1 % 32
    s.history t a 0 = 0 ∨ AlongRecall P (s.setArrow a)
  | .down =>
    let t := s.termLive
    let a := add32 (s.arrowIdx t) 1 % 32
    s.arrowIdx t = s.histIdx t ∨
      if s.history t a 0 = 0 then
        Along P (if s.history t (s.arrowIdx t % 32) 0 ≠ 0 then s.setArrow a else s)
          (List.replicate bufMax 8)
      else AlongRecall P (s.setArrow a)
  | .tab => ∀ cs r, s.completion = some (cs, r) → Along P (s.touch r) cs

end Tty

namespace ConsoleEvent

/-- The event leaves the cursor on the page, and the line on the live terminal has its cells
there. -/
def Safe (s : Tty) : ConsoleEvent → Prop
  | .key .left => s.bi = 0 ∨ 0 < s.screen.spot s.termLive
  | .key .right => s.bim ≤ s.bi ∨ s.screen.spot s.termLive + 1 < Screen.numCells
  | .key e => s.AlongEvent Tty.KeySafe e
  | .put _ _ => True

/-- Every cell that is read or written is one of the text page. -/
def Inside (s : Tty) : ConsoleEvent → Prop
  | .key e => s.AlongEvent Tty.KeyInside e
  | .put t c =>
    ∀ a ∈ s.screen.terWritePitUses t c, Screen.InCells Screen.numCells (Screen.pageOf t) a

end ConsoleEvent

namespace Tty

variable {s s' : Tty} {c : UInt8} {cs : List UInt8} {n i : ℕ} {e : KeyEvent}

/-! ### What a key does to the screen -/

theorem keyToTer_screen_backspace (h0 : s.bi ≠ 0) : (s.keyToTer 8).screen =
    s.screen.terWrite s.termLive 8 (sub32 s.bi 1) (sub32 s.bim 1) := by
  have hkey : s.keyToTer 8 = s.backspace.next := by rw [keyToTer, if_pos rfl, if_neg h0]
  rw [hkey]
  simp [backspace, next, setIndex, putKey, echo, touch, bi, bim]

theorem skipTail_frame : s.skipTail.termLive = s.termLive ∧ s.skipTail.bi = s.bi ∧
    s.skipTail.bim = s.bim := by
  obtain ⟨sc, hskip⟩ := s.skipTail_eq
  rw [hskip]
  exact ⟨rfl, rfl, rfl⟩

theorem commit_screen : s.commit.screen = s.screen := by
  unfold commit
  split_ifs <;> rfl

theorem keyToTer_enter_eq (hc : c = 10 ∨ c = 13) : s.keyToTer c = s.enter c := by
  rw [keyToTer, if_neg (by rintro rfl; revert hc; decide), if_pos hc]

theorem keyToTer_screen_enter (hc : c = 10 ∨ c = 13) : (s.keyToTer c).screen =
    s.skipTail.screen.terWrite s.termLive c s.bi s.bim := by
  obtain ⟨hlive, hbi, hbim⟩ := s.skipTail_frame
  rw [keyToTer_enter_eq hc]
  have hend : (s.skipTail.endLine c).screen =
      s.skipTail.screen.terWrite s.skipTail.termLive c s.skipTail.bi s.skipTail.bim := by
    simp [endLine, clearBuf, raiseFlag, commit_screen, storeLine, setIndex, putKey, echo, touch,
      key, bi, bim]
  rw [enter, hend, hlive, hbi, hbim]

theorem makeRoom_frame : s.makeRoom.termLive = s.termLive ∧ s.makeRoom.bi = s.bi ∧
    s.makeRoom.bim = s.bim ∧ s.makeRoom.screen = s.screen := by
  unfold makeRoom
  split_ifs <;> exact ⟨rfl, rfl, rfl, rfl⟩

theorem keyToTer_screen_plain (hc : Plain c) (hbim : ¬ bufMaxV < s.bim) : (s.keyToTer c).screen =
    s.screen.terWrite s.termLive c s.bi s.bim := by
  have hkey : s.keyToTer c = (s.insert c).next := by
    rw [keyToTer, if_neg hc.1, if_neg (not_or.2 hc.2), if_neg hbim]
  obtain ⟨hlive, hbi, hbim', hscreen⟩ := s.makeRoom_frame
  have hput : ∀ r : Tty, ((r.putKey r.bi c).echo ((r.putKey r.bi c).key r.bi)).next.screen =
      r.screen.terWrite r.termLive c r.bi r.bim := by
    intro r
    simp [next, setIndex, putKey, echo, touch, key, bi, bim]
  have hins : s.insert c = (s.makeRoom.putKey s.makeRoom.bi c).echo
      ((s.makeRoom.putKey s.makeRoom.bi c).key s.makeRoom.bi) := by
    rw [insert, ← hbi]
    rfl
  rw [hkey, hins, hput, hlive, hbi, hbim', hscreen]

/-! ### Indices -/

/-- The indices of the live line are in order. -/
def IndexOk (s : Tty) : Prop := s.bi ≤ s.bim ∧ s.bim ≤ 129

theorem clearBuf_frame : s.clearBuf.termLive = s.termLive ∧ s.clearBuf.bi = 0 ∧
    s.clearBuf.bim = 0 := by
  simp [clearBuf, putKey, touch, setIndex, bi, bim]

theorem commit_termLive : s.commit.termLive = s.termLive := by
  unfold commit
  split_ifs <;> rfl

/-- The end of a line leaves an empty one. -/
theorem enter_frame : (s.enter c).termLive = s.termLive ∧ (s.enter c).bi = 0 ∧
    (s.enter c).bim = 0 := by
  have hend : ∀ r : Tty, (r.endLine c).termLive = r.termLive ∧ (r.endLine c).bi = 0 ∧
      (r.endLine c).bim = 0 := by
    intro r
    have hflag : ∀ q : Tty, q.raiseFlag.termLive = q.termLive := fun _ => rfl
    have hstore : ∀ q : Tty, q.storeLine.termLive = q.termLive := fun _ => rfl
    have hecho : ∀ (q : Tty) d, (q.echo d).termLive = q.termLive := fun _ _ => rfl
    have hput : ∀ (q : Tty) k d, (q.putKey k d).termLive = q.termLive := fun _ _ _ => rfl
    rw [endLine]
    refine ⟨?_, clearBuf_frame.2⟩
    rw [clearBuf_frame.1, hflag, commit_termLive, hstore, hecho, hput]
  obtain ⟨hlive, -, -⟩ := s.skipTail_frame
  rw [enter, ← hlive]
  exact hend s.skipTail

theorem IndexOk.keyToTer (h : s.IndexOk) : (s.keyToTer c).IndexOk := by
  obtain ⟨hle, hmax⟩ := h
  unfold IndexOk
  by_cases hnl : c = 10 ∨ c = 13
  · obtain ⟨-, hbi, hbim⟩ := s.enter_frame (c := c)
    rw [keyToTer_enter_eq hnl, hbi, hbim]
    exact ⟨Nat.le_refl 0, Nat.zero_le _⟩
  · by_cases hbs : c = 8
    · subst hbs
      by_cases h0 : s.bi = 0
      · rw [keyToTer_backspace_zero h0]
        exact ⟨hle, hmax⟩
      · obtain ⟨sc, hkey⟩ := keyToTer_backspace (Nat.pos_of_ne_zero h0) hle (by omega)
        rw [hkey, edit_bi, edit_bim]
        omega
    · have hc : Plain c := ⟨hbs, not_or.1 hnl⟩
      by_cases hfull : 128 < s.bim
      · rw [keyToTer_full hc hfull]
        exact ⟨hle, hmax⟩
      · obtain ⟨sc, hkey⟩ := keyToTer_plain hc hle (Nat.le_of_not_lt hfull)
        rw [hkey, edit_bi, edit_bim]
        omega

/-! ### One key -/

/-- The cursors are on their pages and the indices in order. -/
structure CursorInv (s : Tty) : Prop where
  index : s.IndexOk
  onPage : s.CursorsOnPage

/-- The cells and the cursor of an echo. -/
theorem echo_safe {sc : Screen} {t i e : ℕ} (hpage : ∀ u, sc.OnPage u)
    (hfits : Screen.Fits Screen.numCells sc t c (sub32 e i)) :
    (∀ u, (sc.terWrite t c i e).OnPage u) ∧
      ∀ a ∈ sc.terWriteUses t c i e, Screen.InCells Screen.numCells videoMem a := by
  have huses := Screen.inCells_of_fits (hpage t) (by decide) hfits
  exact ⟨Screen.Confined.onPage (Screen.terWrite_confined (by decide) huses) hpage
    (Screen.terWrite_onPage (hpage t) (by decide) hfits), huses⟩

/-- In front of the newline the cursor goes to the end of the line, which is taken to be in the next
row when the line is longer than 72 characters. -/
theorem skipTail_onPage (h : s.CursorInv) (hsafe : s.bi = s.bim ∨ s.bim ≤ 72 ∨
    s.screen.screenY s.termLive + 1 < numRows) : ∀ u, s.skipTail.screen.OnPage u := by
  obtain ⟨⟨hle, hmax⟩, hpage⟩ := h
  have hdiff : sub32 s.bim s.bi = s.bim - s.bi := sub32_of_le (by omega) hle
  obtain ⟨hx, hy⟩ := Screen.onPage_iff.1 (hpage s.termLive)
  unfold skipTail
  rw [hdiff]
  by_cases h0 : s.bim - s.bi ≠ 0
  · have hrow : ∀ x, x < 80 → ∀ u, (s.screen.setX s.termLive x).OnPage u := by
      intro x hx'
      refine Screen.Confined.onPage (v := videoMem) Screen.Confined.setX hpage ?_
      exact Screen.onPage_iff.2 ⟨by rwa [Screen.setX_screenX], hy⟩
    simp only [if_pos h0]
    by_cases h72 : s.bim > 72
    · simp only [if_pos h72]
      have hlt : s.screen.screenY s.termLive + 1 < 25 := by
        rcases hsafe with h | h | h
        · omega
        · omega
        · exact h
      refine Screen.Confined.onPage (v := videoMem) Screen.Confined.setY
        (hrow _ (Nat.mod_lt _ (by decide))) (Screen.onPage_iff.2 ⟨?_, ?_⟩)
      · rw [Screen.setY_screenX, Screen.setX_screenX]
        exact Nat.mod_lt _ (by decide)
      · rw [Screen.setY_screenY, Screen.setX_screenY, add32_of_lt (by omega)]
        exact hlt
    · simp only [if_neg h72]
      exact hrow _ (Nat.mod_lt _ (by decide))
  · simp only [if_neg h0]
    exact hpage

theorem CursorInv.key (h : s.CursorInv) (hsafe : s.KeySafe c) :
    (s.keyToTer c).CursorInv ∧ s.KeyInside c := by
  have hindex : (s.keyToTer c).IndexOk := h.index.keyToTer
  obtain ⟨⟨hle, hmax⟩, hpage⟩ := h
  have hdiff : sub32 s.bim s.bi = s.bim - s.bi := sub32_of_le (by omega) hle
  unfold KeySafe at hsafe
  unfold KeyInside keyUses
  by_cases hbs : c = 8
  · subst hbs
    simp only [if_true] at hsafe ⊢
    by_cases h0 : s.bi = 0
    · rw [keyToTer_backspace_zero h0] at *
      rw [if_pos h0]
      exact ⟨⟨hindex, hpage⟩, fun a ha => absurd ha List.not_mem_nil⟩
    · have hback : sub32 (sub32 s.bim 1) (sub32 s.bi 1) = s.bim - s.bi :=
        sub32_pred (Nat.pos_of_ne_zero h0) hle (by omega)
      obtain ⟨hcursor, huses⟩ := echo_safe (c := 8) (i := sub32 s.bi 1) (e := sub32 s.bim 1) hpage
        (by rw [hback]; exact hsafe.resolve_left h0)
      rw [if_neg h0]
      refine ⟨⟨hindex, ?_⟩, huses⟩
      unfold CursorsOnPage
      rwa [keyToTer_screen_backspace h0]
  · by_cases hnl : c = 10 ∨ c = 13
    · simp only [if_neg hbs, if_pos hnl] at hsafe ⊢
      have hfits :
          Screen.Fits Screen.numCells s.skipTail.screen s.termLive c (sub32 s.bim s.bi) := by
        rcases hnl with h | h
        · exact .inl h
        · exact .inr (.inl h)
      obtain ⟨hcursor, huses⟩ :=
        echo_safe (skipTail_onPage ⟨⟨hle, hmax⟩, hpage⟩ hsafe) hfits
      refine ⟨⟨hindex, ?_⟩, huses⟩
      unfold CursorsOnPage
      rwa [keyToTer_screen_enter hnl]
    · simp only [if_neg hbs, if_neg hnl] at hsafe ⊢
      have hc : Plain c := ⟨hbs, not_or.1 hnl⟩
      by_cases hfull : s.bim > bufMaxV
      · rw [if_pos hfull]
        rw [keyToTer_full hc hfull] at *
        exact ⟨⟨hindex, hpage⟩, fun a ha => absurd ha List.not_mem_nil⟩
      · obtain ⟨hcursor, huses⟩ := echo_safe (i := s.bi) (e := s.bim) hpage
          (by rw [hdiff]; exact hsafe.resolve_left hfull)
        rw [if_neg hfull]
        refine ⟨⟨hindex, ?_⟩, huses⟩
        unfold CursorsOnPage
        rwa [keyToTer_screen_plain hc hfull]

/-- At a cursor on the page the increments of `buf_move(0)` do not wrap. -/
theorem moveRight_screen (hend : ¬ s.bi ≥ s.bim) (hpage : s.screen.OnPage s.termLive) :
    s.moveRight.screen = (if s.screen.screenX s.termLive + 1 = numCols then
      (s.screen.setX s.termLive 0).setY s.termLive (s.screen.screenY s.termLive + 1)
      else s.screen.setX s.termLive (s.screen.screenX s.termLive + 1)).sync s.termLive := by
  obtain ⟨hx, hy⟩ := Screen.onPage_iff.1 hpage
  have hadd : add32 (s.screen.screenX s.termLive) 1 = s.screen.screenX s.termLive + 1 :=
    add32_of_lt (by omega)
  have hadd' : add32 (s.screen.screenY s.termLive) 1 = s.screen.screenY s.termLive + 1 :=
    add32_of_lt (by omega)
  rw [moveRight, if_neg hend]
  by_cases hlast : s.screen.screenX s.termLive + 1 = numCols
  · have hx' : ¬ (s.setIndex (add32 s.bi 1) s.bim).screen.screenX s.termLive ≠ numCols - 1 :=
      not_not.2 (Nat.eq_sub_of_add_eq hlast)
    rw [if_pos hlast, ← hadd']
    simp only [if_neg hx']
    rfl
  · have hx' : (s.setIndex (add32 s.bi 1) s.bim).screen.screenX s.termLive ≠ numCols - 1 :=
      fun h => hlast (congrArg (· + 1) h)
    rw [if_neg hlast, ← hadd]
    simp only [if_pos hx']
    rfl

/-! ### Several keys -/

theorem CursorInv.setArrow (h : s.CursorInv) (a : ℕ) : (s.setArrow a).CursorInv :=
  ⟨h.index, h.onPage⟩

theorem CursorInv.along (h : s.CursorInv) (hsafe : Along KeySafe s cs) :
    (cs.foldl keyToTer s).CursorInv ∧ Along KeyInside s cs := by
  induction cs generalizing s with
  | nil => exact ⟨h, trivial⟩
  | cons c cs ih =>
    obtain ⟨hnext, hin⟩ := h.key hsafe.1
    obtain ⟨hend, hrest⟩ := ih hnext hsafe.2
    exact ⟨hend, hin, hrest⟩

theorem CursorInv.entry (h : s.CursorInv) (hsafe : AlongEntry KeySafe n i s) :
    (typeEntry n i s).CursorInv ∧ AlongEntry KeyInside n i s := by
  induction n generalizing s i with
  | zero => exact ⟨h, trivial⟩
  | succ n ih =>
    rw [typeEntry]
    simp only [AlongEntry] at hsafe ⊢
    by_cases hend : s.history s.termLive (s.arrowIdx s.termLive) i = 0 ∨
        s.history s.termLive (s.arrowIdx s.termLive) i = 10
    · rw [if_pos hend]
      exact ⟨h, by tauto⟩
    · rw [if_neg hend]
      obtain ⟨hkey, hrest⟩ : KeySafe s _ ∧ AlongEntry KeySafe n (i + 1) _ := by tauto
      obtain ⟨hnext, hin⟩ := h.key hkey
      obtain ⟨hfinal, hall⟩ := ih hnext hrest
      exact ⟨hfinal, .inr (.inr ⟨hin, hall⟩)⟩

theorem CursorInv.recall (h : s.CursorInv) (hsafe : AlongRecall KeySafe s) :
    (typeEntry bufMax 0 s.eraseLine).CursorInv ∧ AlongRecall KeyInside s := by
  obtain ⟨herased, hin⟩ := h.along hsafe.1
  obtain ⟨hend, hin'⟩ := herased.entry hsafe.2
  exact ⟨hend, hin, hin'⟩

theorem CursorInv.left (h : s.CursorInv) (hsafe : s.bi = 0 ∨ 0 < s.screen.spot s.termLive) :
    s.moveLeft.CursorInv := by
  obtain ⟨⟨hle, hmax⟩, hpage⟩ := h
  by_cases h0 : s.bi = 0
  · rw [moveLeft, if_pos h0]
    exact ⟨⟨hle, hmax⟩, hpage⟩
  · have hmoved := Screen.stepBack_moved (hpage s.termLive) (hsafe.resolve_left h0)
    obtain ⟨sc, hedit⟩ := moveLeft_eq (s := s) (by omega)
    refine ⟨?_, ?_⟩
    · unfold IndexOk
      rw [hedit, edit_bi, edit_bim]
      omega
    · have hscreen : s.moveLeft.screen = (s.screen.stepBack s.termLive).sync s.termLive := by
        rw [moveLeft, if_neg h0]
        rfl
      unfold CursorsOnPage
      rw [hscreen]
      exact Screen.Confined.onPage (v := videoMem) (Screen.Confined.stepBack.trans
        Screen.Confined.cursor) hpage (Screen.sync_onPage hmoved.page)

theorem CursorInv.right (h : s.CursorInv)
    (hsafe : s.bim ≤ s.bi ∨ s.screen.spot s.termLive + 1 < Screen.numCells) :
    s.moveRight.CursorInv := by
  obtain ⟨⟨hle, hmax⟩, hpage⟩ := h
  by_cases hend : s.bi ≥ s.bim
  · rw [moveRight, if_pos hend]
    exact ⟨⟨hle, hmax⟩, hpage⟩
  · have hmoved := Screen.stepOn_moved (hpage s.termLive) (hsafe.resolve_left hend)
    obtain ⟨sc, hedit⟩ := moveRight_eq (s := s) hle (by omega)
    refine ⟨?_, ?_⟩
    · unfold IndexOk
      rw [hedit, edit_bi, edit_bim]
      omega
    · unfold CursorsOnPage
      rw [moveRight_screen hend (hpage s.termLive)]
      refine Screen.Confined.onPage (v := videoMem)
        (Screen.Confined.trans ?_ Screen.Confined.cursor) hpage (Screen.sync_onPage hmoved.page)
      split_ifs
      · exact Screen.Confined.setX.trans Screen.Confined.setY
      · exact Screen.Confined.setX

end Tty

namespace ConsoleEvent

open Tty

variable {s s' : Tty} {e : ConsoleEvent}

/-- One event. -/
theorem step (h : s.CursorInv) (hsafe : e.Safe s) (hst : consoleMachine.step s e = some s') :
    s'.CursorInv ∧ e.Inside s := by
  cases e with
  | put t c =>
    cases hst
    have huses := Screen.pit_inCells (c := c) (h.onPage t) t.isLt
    refine ⟨⟨h.index, ?_⟩, huses⟩
    exact Screen.Confined.onPage (Screen.terWritePit_confined t.isLt huses) h.onPage
      (Screen.terWritePit_onPage (h.onPage t) t.isLt)
  | key e =>
    cases e with
    | key c =>
      cases hst
      exact h.key hsafe
    | left =>
      cases hst
      exact ⟨h.left hsafe, trivial⟩
    | right =>
      cases hst
      exact ⟨h.right hsafe, trivial⟩
    | up =>
      cases hst
      simp only [Safe, Inside, AlongEvent] at hsafe ⊢
      rw [histUp]
      by_cases h0 : s.history s.termLive (sub32 (s.arrowIdx s.termLive) 1 % 32) 0 = 0
      · simp only [if_pos h0]
        exact ⟨h, .inl h0⟩
      · simp only [if_neg h0]
        obtain ⟨hend, hin⟩ := (h.setArrow _).recall (hsafe.resolve_left h0)
        exact ⟨hend, .inr hin⟩
    | down =>
      cases hst
      simp only [Safe, Inside, AlongEvent] at hsafe ⊢
      rw [histDown]
      by_cases hlast : s.arrowIdx s.termLive = s.histIdx s.termLive
      · simp only [if_pos hlast]
        exact ⟨h, .inl hlast⟩
      -- behind the newest entry the line is erased, otherwise the entry is typed again
      · have hsafe := hsafe.resolve_left hlast
        simp only [if_neg hlast]
        by_cases h0 : s.history s.termLive (add32 (s.arrowIdx s.termLive) 1 % 32) 0 = 0
        · simp only [if_pos h0] at hsafe ⊢
          have harrow : (if s.history s.termLive (s.arrowIdx s.termLive % 32) 0 ≠ 0 then
              s.setArrow (add32 (s.arrowIdx s.termLive) 1 % 32) else s).CursorInv := by
            split_ifs
            · exact h.setArrow _
            · exact h
          obtain ⟨hend, hin⟩ := harrow.along hsafe
          exact ⟨hend, .inr hin⟩
        · simp only [if_neg h0] at hsafe ⊢
          obtain ⟨hend, hin⟩ := (h.setArrow _).recall hsafe
          exact ⟨hend, .inr hin⟩
    | tab =>
      obtain ⟨⟨cs, r⟩, hcs, hs'⟩ := Option.bind_eq_some_iff.1 hst
      cases hs'
      have htouch : ∀ r, (s.touch r).CursorInv := fun _ => ⟨h.index, h.onPage⟩
      refine ⟨((htouch r).along (hsafe cs r hcs)).1, fun cs' r' hcs' => ?_⟩
      exact ((htouch r').along (hsafe cs' r' hcs')).2

end ConsoleEvent

/-- **Cursors on their pages.**  In a run whose events are all safe, every cursor is on its page in
all states, and all cell accesses are in the text pages. -/
theorem cursors_onPage {t : ℕ} {names : Names} {screen : Screen} (hpage : ∀ u, screen.OnPage u)
    {es : List ConsoleEvent}
    (hsafe : consoleMachine.Steps (fun s e => e.Safe s) (.boot t names screen) es) :
    consoleMachine.States Tty.CursorsOnPage (.boot t names screen) es ∧
      consoleMachine.Steps (fun s e => e.Inside s) (.boot t names screen) es := by
  have hboot : (Tty.boot t names screen).CursorInv :=
    ⟨⟨Nat.le_refl 0, Nat.zero_le _⟩, hpage⟩
  exact Machine.states_steps_of_steps (fun _ _ _ => ConsoleEvent.step) (fun _ h => h.onPage) hboot
    hsafe

/-- A process writes a newline, and the user types a character and goes back. -/
theorem cursors_onPage_typed :
    consoleMachine.States Tty.CursorsOnPage (.boot 0 ⟨0, fun _ _ => 0⟩ .boot)
        [.put 0 10, .key (.key 97), .key .left] ∧
      consoleMachine.Steps (fun s e => e.Inside s) (.boot 0 ⟨0, fun _ _ => 0⟩ .boot)
        [.put 0 10, .key (.key 97), .key .left] := by
  refine cursors_onPage (fun _ => ⟨Nat.succ_pos _, Nat.succ_pos _⟩) fun s₁ h₁ => ⟨trivial, ?_⟩
  cases h₁
  refine fun s₂ h₂ => ⟨?_, ?_⟩
  · change Tty.KeySafe _ 97
    decide
  · cases h₂
    exact fun s₃ h₃ => ⟨.inr (by decide), trivial⟩

/-- A line of 73 characters in the last row, ended with the cursor inside it: the guess that the
line reaches into the next row puts the cursor two rows below the last one. -/
theorem cursors_not_onPage : ¬ consoleMachine.States Tty.CursorsOnPage
    (.boot 0 ⟨0, fun _ _ => 0⟩ .boot)
    (List.replicate 24 (.put 0 10) ++ List.replicate 73 (.key (.key 97)) ++
      [.key .left, .key (.key 10)]) := by
  have hrow : (consoleMachine.exec (.boot 0 ⟨0, fun _ _ => 0⟩ .boot)
      (List.replicate 24 (.put 0 10) ++ List.replicate 73 (.key (.key 97)) ++
        [.key .left, .key (.key 10)])).map (fun s => s.screen.screenY 0) = some 26 := by
    decide +kernel
  obtain ⟨s, hexec, hy⟩ := Option.map_eq_some_iff.1 hrow
  intro hstates
  have hlt := (hstates.exec hexec 0).2
  rw [hy] at hlt
  exact absurd hlt (by decide)

end KTeamOS
