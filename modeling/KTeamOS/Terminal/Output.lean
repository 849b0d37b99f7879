import KTeamOS.Terminal.Display
import KTeamOS.Text.Rows

/-!
# The output of a process

`terminal_write` on a terminal whose page is blank.  The text is broken into rows, and the page
shows the last of them: a new row is an empty one below the others, for which the page scrolls when
it is full.  A text that fills the last column has begun the next row with it.

`ter_write` and `ter_write_pit` are two copies of the same code.  They differ at a backspace in
column 0, where the second one moves variables that nothing reads.

## Main definitions

* `terminalWrite` : the characters of a buffer, one after the other.
* `Screen.ShowsRows` : the page shows the last rows of a text.
* `movedCursor` : where a character takes a cursor at the end of the line.
-/

namespace KTeamOS

/-- The loop of `terminal_write`, from `buf[i]` on. -/
def terminalWriteLoop (s : Screen) (termLive termPit : ℕ) (buf : ℕ → UInt8) : (n i : ℕ) → Screen
  | 0, _ => s
  | n + 1, i =>
    terminalWriteLoop (s.terWritePit termLive termPit (buf i)) termLive termPit buf n (i + 1)

/-- `terminal_write`: the screen afterwards, and what it returns. -/
def terminalWrite (s : Screen) (termLive termPit : ℕ) (buf : ℕ → UInt8) (nbytes : ℕ) : Screen × ℕ :=
  (terminalWriteLoop s termLive termPit buf nbytes 0, nbytes)

namespace Screen

variable {s s' : Screen} {v t live i j k n x y : ℕ} {c : UInt8}

/-! ### A page byte by byte -/

/-- The byte `k` of the page at `v`. -/
def byteAt (s : Screen) (v k : ℕ) : UInt8 := s.mem (s.phys v + k)

/-- The character of the cell `i` of the page at `v`. -/
abbrev cellAt (s : Screen) (v i : ℕ) : UInt8 := s.byteAt v (2 * i)

theorem write_byteAt (hv : IsPage v) (hk : k < 4096) :
    (s.write (v + k) c).byteAt v j = if j = k then c else s.byteAt v j := by
  unfold byteAt write
  rw [s.phys_add hv hk]
  change Function.update s.mem (s.phys v + k) c (s.phys v + j) = _
  by_cases hj : j = k
  · rw [if_pos hj, hj, Function.update_self]
  · rw [if_neg hj, Function.update_of_ne (by omega)]

theorem read_eq_byteAt (hv : IsPage v) (hk : k < 4096) : s.read (v + k) = s.byteAt v k := by
  unfold read byteAt
  rw [s.phys_add hv hk]

/-- A copy within a page, towards its start. -/
theorem memcpy_byteAt (hv : IsPage v) (hij : i + n ≤ j) (hn : j + n ≤ 4096) :
    (s.memcpy (v + i) (v + j) n).byteAt v k =
      if i ≤ k ∧ k < i + n then s.byteAt v (j + (k - i)) else s.byteAt v k := by
  induction n generalizing k with
  | zero => rw [memcpy, if_neg (by omega)]
  | succ n ih =>
    rw [memcpy, Nat.add_assoc v i n, Nat.add_assoc v j n, write_byteAt hv (by omega),
      read_eq_byteAt hv (by omega), ih (by omega) (by omega), ih (by omega) (by omega)]
    by_cases hk : k = i + n
    · rw [if_pos hk, if_neg (by omega), if_pos (by omega), hk, Nat.add_sub_cancel_left]
    · rw [if_neg hk]
      exact if_congr (by omega) rfl rfl

theorem scrollRows_byteAt (hv : IsPage v) (hn : n < numRows) :
    (s.scrollRows v n).byteAt v k =
      if k < n * sizeOfRow then s.byteAt v (k + sizeOfRow) else s.byteAt v k := by
  have hsize : sizeOfRow = 160 := rfl
  simp only [numRows] at hn
  induction n generalizing k with
  | zero => rw [scrollRows, if_neg (by omega)]
  | succ n ih =>
    rw [scrollRows]
    simp only [hsize] at ih ⊢
    rw [memcpy_byteAt hv (by omega) (by omega), ih (by omega), ih (by omega)]
    by_cases hrow : n * 160 ≤ k ∧ k < n * 160 + 160
    · rw [if_pos hrow, if_neg (by omega), if_pos (by omega),
        show (n + 1) * 160 + (k - n * 160) = k + 160 by omega]
    · rw [if_neg hrow]
      exact if_congr (by omega) rfl rfl

theorem scrollBlank_cellAt (hv : IsPage v) (hn : n ≤ numCols) :
    (s.scrollBlank v n).cellAt v i =
      if 1920 ≤ i ∧ i < 1920 + n then 0 else s.cellAt v i := by
  simp only [numCols] at hn
  induction n with
  | zero => rw [scrollBlank, if_neg (by omega)]
  | succ n ih =>
    have hcell : (numCols * (numRows - 1) + n) * 2 = 2 * (1920 + n) := by
      simp only [numCols, numRows]
      omega
    rw [scrollBlank, hcell, cellAt, write_byteAt hv (by omega)]
    by_cases hi : 2 * i = 2 * (1920 + n)
    · rw [if_pos hi, if_pos (by omega)]
    · rw [if_neg hi]
      refine (ih (by omega)).trans ?_
      exact if_congr (by omega) rfl rfl

/-- A scroll moves every row up, and clears the last one. -/
theorem scroll_cellAt (hv : IsPage v) (hx : x < 80) (hy : y < 25) :
    (s.scroll v).cellAt v (80 * y + x) = if y < 24 then s.cellAt v (80 * (y + 1) + x) else 0 := by
  unfold scroll
  rw [scrollBlank_cellAt hv (Nat.le_refl _)]
  simp only [numCols, numRows]
  by_cases hlast : y < 24
  · rw [if_neg (by omega), if_pos hlast, cellAt, scrollRows_byteAt hv (by decide)]
    simp only [sizeOfRow]
    rw [if_pos (by omega), show 2 * (80 * y + x) + 160 = 2 * (80 * (y + 1) + x) by omega]
  · rw [if_pos (by omega), if_neg hlast]

/-! ### The cursor at the end of the line -/

/-- Where the character `c` takes a cursor at `p`, which moves from row to row of the page and, on
the last one, stays there while the page scrolls. -/
def movedCursor (p : ℕ × ℕ) (c : UInt8) : ℕ × ℕ :=
  if c = 10 ∨ c = 13 then (0, min (p.2 + 1) 24)
  else if c = 8 then if p.1 = 0 then (79, p.2 - 1) else (p.1 - 1, p.2)
  else if p.1 = 79 then (0, min (p.2 + 1) 24)
  else (p.1 + 1, p.2)

/-- The cursor of `t`. -/
def cursorOf (s : Screen) (t : ℕ) : ℕ × ℕ := (s.screenX t, s.screenY t)

/-- `ATTRIB = 0x02;` -/
def dim (s : Screen) : Screen := { s with attrib := 0x02 }

/-- `if(term_live == term_pit) cursor(term[term_pit].screen_x,term[term_pit].screen_y);` -/
def settle (s : Screen) (live t : ℕ) : Screen :=
  if live = t then s.cursor live (s.screenX t) (s.screenY t) else s

/-- The cursor one column to the left, if there is one. -/
def stepLeft (s : Screen) (t : ℕ) : Screen :=
  if s.screenX t ≠ 0 then s.setX t (sub32 (s.screenX t) 1) else s

/-- The character `c` and the attribute in the cell at the cursor of `t`. -/
def fill (s : Screen) (t : ℕ) (c : UInt8) : Screen :=
  (s.write (s.cell t (pageOf t)) c).write (s.cell t (pageOf t) + 1) s.attrib

theorem cursorOf_sync : (s.sync t).cursorOf t = s.cursorOf t := by
  simp [cursorOf, sync, cursor]

theorem cursorOf_settle : (s.settle live t).cursorOf t = s.cursorOf t := by
  unfold settle
  split_ifs with hlive
  · rw [hlive]
    exact cursorOf_sync
  · rfl

theorem settle_byteAt : (s.settle live t).byteAt v = s.byteAt v := by
  unfold settle
  split_ifs <;> rfl

theorem terWritePit_newline (hc : c = 10 ∨ c = 13) : s.terWritePit live t c =
    (s.dim.newRow t fun s => s.scrollUpPit t).settle live t := by
  unfold terWritePit
  simp only [if_pos hc]
  rfl

theorem terWritePit_backspace : s.terWritePit live t 8 =
    ((s.dim.stepLeft t).fill t 0).settle live t := by
  unfold terWritePit
  simp only [if_neg (show ¬ ((8 : UInt8) = 10 ∨ (8 : UInt8) = 13) by decide)]
  rfl

theorem terWritePit_plain (hc : c ≠ 8) (hc' : ¬ (c = 10 ∨ c = 13)) : s.terWritePit live t c =
    ((s.dim.fill t c).advance t fun s => s.scrollUpPit t).settle live t := by
  unfold terWritePit
  simp only [if_neg hc, if_neg hc']
  rfl

section Moves

variable {scroll : Screen → Screen} (hscroll : ∀ s, MemOnly v s (scroll s))
include hscroll

theorem cursorOf_wrap (hy : s.screenY t = numRows) :
    (s.wrap t scroll).cursorOf t = (0, 24) := by
  have hsub : sub32 ((scroll s).screenY t) 1 = 24 := by
    rw [(hscroll s).screenY, hy]
    rfl
  rw [wrap, if_pos hy, cursorOf, setX_screenX, setX_screenY, setY_screenY, hsub]

theorem cursorOf_newRow (hy : s.screenY t < numRows) :
    (s.newRow t scroll).cursorOf t = (0, min (s.screenY t + 1) 24) := by
  have hadd : add32 (s.screenY t) 1 = s.screenY t + 1 :=
    add32_of_lt (by simp only [numRows] at hy; omega)
  unfold newRow
  rw [hadd]
  simp only [numRows] at hy
  by_cases hlast : s.screenY t = 24
  · -- the page scrolls, and the new row is the last one again
    rw [cursorOf_wrap hscroll (by rw [setX_screenY, setY_screenY, hlast]), hlast]
    rfl
  · rw [wrap, if_neg (by rw [setX_screenY, setY_screenY]; simp only [numRows]; omega), cursorOf,
      setX_screenX, setX_screenY, setY_screenY, Nat.min_eq_left (by omega)]

end Moves

/-- At the end of a row the cursor goes to a new one. -/
theorem advance_full (scroll : Screen → Screen) (hx : s.screenX t = 79) :
    s.advance t scroll = (s.setX t 80).newRow t scroll := by
  have hadd : add32 79 1 = 80 := rfl
  unfold advance newRow
  simp only [hx, hadd, setX_screenX, setX_screenY, if_true]

theorem advance_within (scroll : Screen → Screen) (hx : s.screenX t < 79)
    (hy : s.screenY t < numRows) : s.advance t scroll = s.setX t (s.screenX t + 1) := by
  have hadd : add32 (s.screenX t) 1 = s.screenX t + 1 := add32_of_lt (by omega)
  have hne : ¬ s.screenX t + 1 = numCols := by
    simp only [numCols]
    omega
  unfold advance
  simp only [hadd, setX_screenX, if_neg hne]
  rw [wrap, setX_screenY, if_neg (Nat.ne_of_lt hy)]

theorem cursorOf_advance {scroll : Screen → Screen} (hscroll : ∀ s, MemOnly v s (scroll s))
    (hpage : s.OnPage t) : (s.advance t scroll).cursorOf t =
      if s.screenX t = 79 then (0, min (s.screenY t + 1) 24)
      else (s.screenX t + 1, s.screenY t) := by
  obtain ⟨hx, hy⟩ := hpage
  by_cases hlast : s.screenX t = 79
  · rw [if_pos hlast, advance_full scroll hlast,
      cursorOf_newRow hscroll (by rw [setX_screenY]; exact hy), setX_screenY]
  · rw [if_neg hlast, advance_within scroll (by simp only [numCols] at hx; omega) hy, cursorOf,
      setX_screenX, setX_screenY]

theorem movedCursor_onPage {p : ℕ × ℕ} (hp : p.1 < 80 ∧ p.2 < 25) :
    (movedCursor p c).1 < 80 ∧ (movedCursor p c).2 < 25 := by
  unfold movedCursor
  split_ifs <;> dsimp only <;> omega

theorem cursorOf_stepBack (hpage : s.OnPage t) (hpast : s.cursorOf t ≠ (0, 0)) :
    (s.stepBack t).cursorOf t =
      if s.screenX t = 0 then (79, s.screenY t - 1) else (s.screenX t - 1, s.screenY t) := by
  obtain ⟨hx, hy⟩ := onPage_iff.1 hpage
  unfold stepBack
  by_cases hx0 : s.screenX t = 0
  · -- at the first cell the row would become `2 ^ 32 - 1`
    have hy0 : s.screenY t ≠ 0 := fun hy0 => hpast (Prod.ext hx0 hy0)
    have hsub : sub32 (s.screenY t) 1 = s.screenY t - 1 := sub32_of_le (by omega) (by omega)
    rw [if_neg (not_not.2 hx0), if_pos hx0, cursorOf, setY_screenX, setX_screenX, setY_screenY,
      hsub]
    rfl
  · have hsub : sub32 (s.screenX t) 1 = s.screenX t - 1 := sub32_of_le (by omega) (by omega)
    rw [if_pos hx0, if_neg hx0, cursorOf, setX_screenX, setX_screenY, hsub]

theorem cursorOf_stepLeft (hpage : s.OnPage t) : (s.stepLeft t).cursorOf t =
    if s.screenX t = 0 then s.cursorOf t else (s.screenX t - 1, s.screenY t) := by
  obtain ⟨hx, hy⟩ := onPage_iff.1 hpage
  unfold stepLeft
  by_cases hx0 : s.screenX t = 0
  · rw [if_neg (not_not.2 hx0), if_pos hx0]
  · have hsub : sub32 (s.screenX t) 1 = s.screenX t - 1 := sub32_of_le (by omega) (by omega)
    rw [if_pos hx0, if_neg hx0, cursorOf, setX_screenX, setX_screenY, hsub]

/-- The keyboard path, at the end of the line. -/
theorem cursorOf_terWrite (hpage : s.OnPage t) (hpast : c = 8 → s.cursorOf t ≠ (0, 0)) :
    (s.terWrite t c n n).cursorOf t = movedCursor (s.cursorOf t) c := by
  have hgap : sub32 n n = 0 := by
    unfold sub32
    omega
  have hscroll : ∀ s, MemOnly videoMem s (scrollUp s) := fun _ => MemOnly.scroll isPage_videoMem
  obtain ⟨hx, hy⟩ := onPage_iff.1 hpage
  unfold movedCursor
  by_cases hnl : c = 10 ∨ c = 13
  · rw [terWrite_newline hnl, cursorOf_sync, cursorOf_newRow hscroll (s := s.lit) hy,
      if_pos hnl]
    rfl
  · by_cases hbs : c = 8
    · have hmove : (s.terWrite t 8 n n).cursorOf t = (s.lit.stepBack t).cursorOf t := by
        rw [terWrite_backspace, hgap, cursorOf_sync]
        rfl
      rw [if_neg hnl, if_pos hbs, hbs, hmove, cursorOf_stepBack (s := s.lit) hpage]
      · rfl
      · exact hpast hbs
    · rw [terWrite_plain hbs hnl, hgap, cursorOf_sync, cursorOf_advance hscroll
        (s := s.lit.pushRight (s.cell t videoMem) 0 c) hpage, if_neg hnl, if_neg hbs]
      rfl

/-- The path of a process. -/
theorem cursorOf_terWritePit (ht : t < 3) (hpage : s.OnPage t) :
    (s.terWritePit live t c).cursorOf t =
      if c = 8 ∧ s.screenX t = 0 then s.cursorOf t else movedCursor (s.cursorOf t) c := by
  have hscroll : ∀ s : Screen, MemOnly (pageOf t) s (s.scrollUpPit t) :=
    fun _ => MemOnly.scroll (isPage_pageOf ht)
  obtain ⟨hx, hy⟩ := onPage_iff.1 hpage
  unfold movedCursor
  by_cases hnl : c = 10 ∨ c = 13
  · have hne : ¬ (c = 8 ∧ s.screenX t = 0) := by
      rintro ⟨rfl, -⟩
      exact absurd hnl (by decide)
    rw [terWritePit_newline hnl, cursorOf_settle, cursorOf_newRow hscroll (s := s.dim) hy,
      if_neg hne, if_pos hnl]
    rfl
  · by_cases hbs : c = 8
    · subst hbs
      have hmove : (s.terWritePit live t 8).cursorOf t = (s.dim.stepLeft t).cursorOf t := by
        rw [terWritePit_backspace, cursorOf_settle]
        rfl
      have hleft : (s.dim.stepLeft t).cursorOf t =
          if s.screenX t = 0 then s.cursorOf t else (s.screenX t - 1, s.screenY t) :=
        cursorOf_stepLeft (s := s.dim) hpage
      rw [hmove, hleft]
      by_cases hx0 : s.screenX t = 0
      · -- the branch that changes the two variables from before there were terminals
        rw [if_pos hx0, if_pos ⟨rfl, hx0⟩]
      · have hne : ¬ ((8 : UInt8) = 8 ∧ s.screenX t = 0) := fun h => hx0 h.2
        rw [if_neg hx0, if_neg hne, if_neg hnl, if_pos rfl]
        exact (if_neg hx0).symm
    · have hne : ¬ (c = 8 ∧ s.screenX t = 0) := fun h => hbs h.1
      rw [terWritePit_plain hbs hnl, cursorOf_settle,
        cursorOf_advance hscroll (s := s.dim.fill t c) hpage, if_neg hne, if_neg hnl, if_neg hbs]
      rfl

theorem onPage_of_cursorOf {p : ℕ × ℕ} (h : s.cursorOf t = p) (hp : p.1 < 80 ∧ p.2 < 25) :
    s.OnPage t := by
  rw [← h] at hp
  exact hp

/-! ### The two paths -/

/-- The cursors of `t` while the characters are typed at the end of the line, each with the length
of the line. -/
def echoCursors (s : Screen) (t : ℕ) : List (UInt8 × ℕ) → List (ℕ × ℕ)
  | [] => []
  | (c, n) :: cs =>
    let s := s.terWrite t c n n
    s.cursorOf t :: s.echoCursors t cs

/-- The cursors of `t`, live and scheduled, while the characters are written by its process. -/
def outputCursors (s : Screen) (t : ℕ) : List UInt8 → List (ℕ × ℕ)
  | [] => []
  | c :: cs =>
    let s := s.terWritePit t t c
    s.cursorOf t :: s.outputCursors t cs

/-- `P` holds at every character when a cursor at `p` moves along a text. -/
def AlongMoves (P : ℕ × ℕ → UInt8 → Prop) : ℕ × ℕ → List UInt8 → Prop
  | _, [] => True
  | p, c :: cs => P p c ∧ AlongMoves P (movedCursor p c) cs

instance AlongMoves.decidable (P : ℕ × ℕ → UInt8 → Prop) [∀ p c, Decidable (P p c)] :
    ∀ p cs, Decidable (AlongMoves P p cs)
  | _, [] => isTrue trivial
  | p, c :: cs =>
    have := AlongMoves.decidable P (movedCursor p c) cs
    inferInstanceAs (Decidable (_ ∧ _))

/-- No backspace at the first cell of the page. -/
abbrev NeverPast : ℕ × ℕ → List UInt8 → Prop := AlongMoves fun p c => c = 8 → p ≠ (0, 0)

/-- No backspace in the first column. -/
abbrev NeverRowBack : ℕ × ℕ → List UInt8 → Prop := AlongMoves fun p c => c = 8 → p.1 ≠ 0

theorem echoCursors_eq_iff {s s' : Screen} {cs : List (UInt8 × ℕ)} {p : ℕ × ℕ} (ht : t < 3)
    (hs : s.cursorOf t = p) (hs' : s'.cursorOf t = p) (hp : p.1 < 80 ∧ p.2 < 25)
    (hpast : NeverPast p (cs.map Prod.fst)) :
    s.echoCursors t cs = s'.outputCursors t (cs.map Prod.fst) ↔
      NeverRowBack p (cs.map Prod.fst) := by
  induction cs generalizing s s' p with
  | nil => exact iff_of_true rfl trivial
  | cons cn cs ih =>
    obtain ⟨c, n⟩ := cn
    obtain ⟨hc, hpast⟩ := hpast
    have hecho : (s.terWrite t c n n).cursorOf t = movedCursor p c := by
      rw [cursorOf_terWrite (onPage_of_cursorOf hs hp) (by rwa [hs]), hs]
    have hout : (s'.terWritePit t t c).cursorOf t =
        if c = 8 ∧ s'.screenX t = 0 then p else movedCursor p c := by
      rw [cursorOf_terWritePit ht (onPage_of_cursorOf hs' hp), hs']
    have hx : s'.screenX t = p.1 := congrArg Prod.fst hs'
    rw [hx] at hout
    refine List.cons_eq_cons.trans ?_
    by_cases hback : c = 8 ∧ p.1 = 0
    · -- the keyboard path goes to the end of the row above
      refine iff_of_false (fun h => ?_) fun h => h.1 hback.1 hback.2
      have hmoved : movedCursor p c = (79, p.2 - 1) := by
        unfold movedCursor
        rw [hback.1, if_neg (by decide), if_pos rfl, if_pos hback.2]
      have heq : (79, p.2 - 1) = p := by
        rw [← hmoved, ← hecho, h.1, hout, if_pos hback]
      have hcol : 79 = p.1 := congrArg Prod.fst heq
      omega
    · rw [if_neg hback] at hout
      rw [ih hecho hout (movedCursor_onPage hp) hpast]
      refine and_congr_left fun _ => iff_of_true (hecho.trans hout.symm) fun h h0 => hback ⟨h, h0⟩

/-- **The two paths move the cursor alike** along a text that does not back up past the first cell,
exactly if the text has no backspace in the first column. -/
theorem cursors_agree_iff (s : Screen) (ht : t < 3) (hpage : s.OnPage t) (cs : List (UInt8 × ℕ))
    (hpast : NeverPast (s.cursorOf t) (cs.map Prod.fst)) :
    s.echoCursors t cs = s.outputCursors t (cs.map Prod.fst) ↔
      NeverRowBack (s.cursorOf t) (cs.map Prod.fst) :=
  echoCursors_eq_iff ht rfl rfl hpage hpast

/-- A blank screen with the cursor two cells in front of the end of the page. -/
def nearEnd : Screen :=
  { boot with
    screenX := fun _ => 78
    screenY := fun _ => 24 }

/-- Characters up to the last cell and behind it, an Enter, and a backspace behind a character. -/
theorem cursors_agree_nearEnd :
    nearEnd.echoCursors 0 [(97, 0), (98, 1), (99, 2), (10, 3), (100, 0), (8, 1)] =
      nearEnd.outputCursors 0 [97, 98, 99, 10, 100, 8] ↔
    NeverRowBack (78, 24) [97, 98, 99, 10, 100, 8] :=
  cursors_agree_iff nearEnd (by decide) (by decide)
    [(97, 0), (98, 1), (99, 2), (10, 3), (100, 0), (8, 1)] (by decide)

/-- A blank screen with the cursor at the start of the second row. -/
def secondRow : Screen := { boot with screenY := fun _ => 1 }

/-- A backspace there. -/
theorem not_cursors_agree : ¬ ∀ (s : Screen) (t : ℕ) (cs : List (UInt8 × ℕ)), t < 3 → s.OnPage t →
    s.cursorOf t ≠ (0, 0) → (∀ p ∈ cs, p.1 = 10 ∨ p.1 = 8 ∨ (0x20 ≤ p.1 ∧ p.1 ≤ 0x7E)) →
    NeverPast (s.cursorOf t) (cs.map Prod.fst) →
    s.echoCursors t cs = s.outputCursors t (cs.map Prod.fst) := fun h => by
  have hagree := h secondRow 0 [(8, 0)] (by decide) (by decide) (by decide)
    (fun p hp => by obtain rfl := List.mem_singleton.1 hp; decide) (by decide)
  exact absurd hagree (by decide +kernel)

/-! ### What the page shows -/

/-- A cell shows the character of the text, and a blank where there is none. -/
def Agrees : Option UInt8 → UInt8 → Prop
  | some c, b => b = c
  | none, b => Tty.IsBlank b

/-- The rows of a text that a page has room for. -/
def lastRows (rows : List (List UInt8)) : List (List UInt8) := rows.drop (rows.length - numRows)

/-- The page at `v` shows the last rows of a text, and the cursor of `t` is behind its last
character. -/
structure ShowsRows (s : Screen) (v t : ℕ) (rows : List (List UInt8)) : Prop where
  cells : ∀ y < numRows, ∀ x < numCols,
    Agrees (charAt (lastRows rows) y x) (s.cellAt v (numCols * y + x))
  screenY : s.screenY t + 1 = (lastRows rows).length
  screenX : (lastRows rows).getLast?.map List.length = some (s.screenX t)

/-- The cells of the page at `v` show the rows from `top` on. -/
def CellsShow (s : Screen) (v top : ℕ) (rows : List (List UInt8)) : Prop :=
  ∀ y < 25, ∀ x < 80, Agrees (charAt rows (top + y) x) (s.cellAt v (80 * y + x))

/-- The page at `v` and the cursor of `t` after the rows `above` and the characters of `row`. -/
structure Window (s : Screen) (v t : ℕ) (above : List (List UInt8)) (row : List UInt8) : Prop where
  cells : s.CellsShow v (above.length - 24) (above ++ [row])
  cursor : s.cursorOf t = (row.length, min above.length 24)
  room : row.length < 80

variable {above : List (List UInt8)} {row : List UInt8} {cs : List UInt8}

theorem setX_byteAt : (s.setX t x).byteAt v = s.byteAt v := rfl

theorem setY_byteAt : (s.setY t y).byteAt v = s.byteAt v := rfl

theorem CellsShow.congr {top : ℕ} {rows : List (List UInt8)} (h : s.CellsShow v top rows)
    (hs : s'.byteAt v = s.byteAt v) : s'.CellsShow v top rows := by
  unfold CellsShow cellAt
  rw [hs]
  exact h

/-- A new row scrolls the page when it is full. -/
theorem newRow_cellAt (hv : IsPage v) (hx : x < 80) (hy : y < 25) (hrow : s.screenY t < 25) :
    (s.newRow t fun s => s.scroll v).cellAt v (80 * y + x) =
      if s.screenY t = 24 then if y < 24 then s.cellAt v (80 * (y + 1) + x) else 0
      else s.cellAt v (80 * y + x) := by
  have hadd : add32 (s.screenY t) 1 = s.screenY t + 1 := add32_of_lt (by omega)
  unfold newRow
  rw [hadd, wrap, setX_screenY, setY_screenY]
  simp only [numRows]
  by_cases hlast : s.screenY t = 24
  · rw [if_pos (by omega), if_pos hlast, cellAt, setX_byteAt, setY_byteAt]
    refine (scroll_cellAt (s := (s.setY t (s.screenY t + 1)).setX t 0) hv hx hy).trans ?_
    rw [cellAt, setX_byteAt, setY_byteAt]
  · rw [if_neg (by omega), if_neg hlast, cellAt, setX_byteAt, setY_byteAt]

theorem CellsShow.newRow (hv : IsPage v) (h : s.CellsShow v (above.length - 24) (above ++ [row]))
    (hy : s.screenY t = min above.length 24) :
    (s.newRow t fun s => s.scroll v).CellsShow v ((above ++ [row]).length - 24)
      (above ++ [row] ++ [[]]) := by
  intro y hylt x hx
  have hlen : (above ++ [row]).length = above.length + 1 := by
    rw [List.length_append, List.length_singleton]
  rw [newRow_cellAt hv hx hylt (by omega), charAt_concat_nil, hlen]
  by_cases hfull : 24 ≤ above.length
  · -- every row of the page is the one below it, and the last one is cleared
    rw [if_pos (by omega)]
    by_cases hlast : y < 24
    · rw [if_pos hlast, show above.length + 1 - 24 + y = above.length - 24 + (y + 1) by omega]
      exact h (y + 1) (by omega) x hx
    · rw [if_neg hlast, charAt_of_ge (by omega)]
      exact .inl rfl
  · rw [if_neg (by omega), show above.length + 1 - 24 + y = above.length - 24 + y by omega]
    exact h y hylt x hx

/-- A character in the cell behind the last row. -/
theorem CellsShow.fill (ht : t < 3) (hpage : s.OnPage t)
    (h : s.CellsShow (pageOf t) (above.length - 24) (above ++ [row]))
    (hcursor : s.cursorOf t = (row.length, min above.length 24)) :
    (s.fill t c).CellsShow (pageOf t) (above.length - 24) (above ++ [row ++ [c]]) := by
  intro y hy x hx
  have hv := isPage_pageOf ht
  have hspot : s.spot t = 80 * min above.length 24 + row.length := by
    rw [spot_eq, show s.screenY t = _ from congrArg Prod.snd hcursor,
      show s.screenX t = _ from congrArg Prod.fst hcursor]
  have hlt : s.spot t < 2000 := spot_lt hpage
  have hrow : row.length < 80 := by
    rw [← show s.screenX t = row.length from congrArg Prod.fst hcursor]
    exact hpage.1
  -- the attribute and the character are two writes, to the odd and the even byte
  have hcell : (s.fill t c).cellAt (pageOf t) (80 * y + x) =
      if 80 * y + x = s.spot t then c else s.cellAt (pageOf t) (80 * y + x) := by
    unfold Screen.fill
    rw [cell_eq hpage hv.low, Nat.add_assoc, cellAt, write_byteAt hv (by omega), if_neg (by omega),
      write_byteAt hv (by omega)]
    exact if_congr (by omega) rfl rfl
  rw [hcell, charAt_concat_char]
  by_cases hhere : above.length - 24 + y = above.length ∧ x = row.length
  · rw [if_pos hhere, if_pos (by omega)]
    rfl
  · rw [if_neg hhere, if_neg (by omega)]
    exact h y hy x hx

namespace Window

theorem onPage (h : s.Window v t above row) : s.OnPage t :=
  onPage_of_cursorOf h.cursor ⟨h.room, Nat.lt_succ_of_le (Nat.min_le_right ..)⟩

/-- The end of a row. -/
theorem newline (live : ℕ) (ht : t < 3) (h : s.Window (pageOf t) t above row)
    (hc : c = 10 ∨ c = 13) :
    (s.terWritePit live t c).Window (pageOf t) t (above ++ [row]) [] := by
  have hv := isPage_pageOf ht
  have hy : s.screenY t = min above.length 24 := congrArg Prod.snd h.cursor
  refine ⟨?_, ?_, by decide⟩
  · rw [terWritePit_newline hc]
    exact (CellsShow.newRow (s := s.dim) hv h.cells hy).congr settle_byteAt
  · have hne : ¬ (c = 8 ∧ s.screenX t = 0) := by
      rintro ⟨rfl, -⟩
      exact absurd hc (by decide)
    rw [cursorOf_terWritePit ht h.onPage, if_neg hne, movedCursor, if_pos hc, h.cursor,
      List.length_append, List.length_singleton]
    exact Prod.ext rfl (by dsimp only; omega)

/-- A character that does not fill its row. -/
theorem within (live : ℕ) (ht : t < 3) (h : s.Window (pageOf t) t above row)
    (hc : ¬ (c = 10 ∨ c = 13)) (hbs : c ≠ 8) (hroom : row.length + 1 ≠ 80) :
    (s.terWritePit live t c).Window (pageOf t) t above (row ++ [c]) := by
  have hlt := h.room
  have hx : s.screenX t = row.length := congrArg Prod.fst h.cursor
  have hlen : (row ++ [c]).length = row.length + 1 := by
    rw [List.length_append, List.length_singleton]
  refine ⟨?_, ?_, by omega⟩
  · have hx' : (s.dim.fill t c).screenX t < 79 := hx.trans_lt (by omega)
    rw [terWritePit_plain hbs hc, advance_within _ hx' h.onPage.2]
    exact (CellsShow.fill (s := s.dim) ht h.onPage h.cells h.cursor).congr settle_byteAt
  · rw [cursorOf_terWritePit ht h.onPage, if_neg fun h8 => hbs h8.1, movedCursor, if_neg hc,
      if_neg hbs, h.cursor, if_neg (by dsimp only; omega), hlen]

/-- The last character of a row. -/
theorem full (live : ℕ) (ht : t < 3) (h : s.Window (pageOf t) t above row)
    (hc : ¬ (c = 10 ∨ c = 13)) (hbs : c ≠ 8) (hroom : row.length + 1 = 80) :
    (s.terWritePit live t c).Window (pageOf t) t (above ++ [row ++ [c]]) [] := by
  have hv := isPage_pageOf ht
  have hx : s.screenX t = row.length := congrArg Prod.fst h.cursor
  have hy : s.screenY t = min above.length 24 := congrArg Prod.snd h.cursor
  refine ⟨?_, ?_, by decide⟩
  · have hx' : (s.dim.fill t c).screenX t = 79 := hx.trans (by omega)
    rw [terWritePit_plain hbs hc, advance_full _ hx']
    -- first the character, then the row that it completes
    have hfill := CellsShow.fill (s := s.dim) (c := c) ht h.onPage h.cells h.cursor
    exact (CellsShow.newRow (s := (s.dim.fill t c).setX t 80) hv (hfill.congr setX_byteAt)
      hy).congr settle_byteAt
  · rw [cursorOf_terWritePit ht h.onPage, if_neg fun h8 => hbs h8.1, movedCursor, if_neg hc,
      if_neg hbs, h.cursor, if_pos (by dsimp only; omega), List.length_append,
      List.length_singleton]
    exact Prod.ext rfl (by dsimp only; omega)

/-- A whole text. -/
theorem text (live : ℕ) (ht : t < 3) (h : s.Window (pageOf t) t above row) (hcs : ∀ c ∈ cs, c ≠ 8) :
    ∃ above' row', above ++ breakRows 80 (fun c => c = 10 ∨ c = 13) row cs = above' ++ [row'] ∧
      (cs.foldl (fun s c => s.terWritePit live t c) s).Window (pageOf t) t above' row' := by
  -- the rows broken off so far are `above`, and what is left of the text continues `row`
  induction cs generalizing s above row with
  | nil => exact ⟨above, row, rfl, h⟩
  | cons c cs ih =>
    have hbs := hcs c (List.mem_cons_self ..)
    have hrest : ∀ c ∈ cs, c ≠ 8 := fun c hc => hcs c (List.mem_cons_of_mem _ hc)
    rw [List.foldl_cons]
    by_cases hnl : c = 10 ∨ c = 13
    · obtain ⟨above', row', heq, hwin⟩ := ih (h.newline live ht hnl) hrest
      refine ⟨above', row', ?_, hwin⟩
      rw [breakRows_brk (fun c => c = 10 ∨ c = 13) hnl, ← heq, List.append_assoc]
      rfl
    · by_cases hroom : row.length + 1 = 80
      · obtain ⟨above', row', heq, hwin⟩ := ih (h.full live ht hnl hbs hroom) hrest
        refine ⟨above', row', ?_, hwin⟩
        rw [breakRows_full (fun c => c = 10 ∨ c = 13) hnl hroom, ← heq, List.append_assoc]
        rfl
      · obtain ⟨above', row', heq, hwin⟩ := ih (h.within live ht hnl hbs hroom) hrest
        refine ⟨above', row', ?_, hwin⟩
        rw [breakRows_plain (fun c => c = 10 ∨ c = 13) hnl hroom, heq]

theorem showsRows (h : s.Window v t above row) : s.ShowsRows v t (above ++ [row]) := by
  have htop : (above ++ [row]).length - numRows = above.length - 24 := by
    rw [List.length_append, List.length_singleton]
    simp only [numRows]
    omega
  have hlast : lastRows (above ++ [row]) = above.drop (above.length - 24) ++ [row] := by
    rw [lastRows, htop, List.drop_append_of_le_length (by omega)]
  refine ⟨fun y hy x hx => ?_, ?_, ?_⟩
  · have hcell := h.cells y hy x hx
    rwa [lastRows, htop, charAt, List.getElem?_drop]
  · rw [hlast, List.length_append, List.length_singleton, List.length_drop,
      show s.screenY t = _ from congrArg Prod.snd h.cursor]
    dsimp only
    omega
  · rw [hlast, List.getLast?_concat, show s.screenX t = _ from congrArg Prod.fst h.cursor]
    rfl

end Window

/-- The page of `t` is blank, with the cursor at its first cell. -/
structure BlankPage (s : Screen) (t : ℕ) : Prop where
  cells : ∀ i < numCells, Tty.IsBlank (s.cellAt (pageOf t) i)
  cursor : s.cursorOf t = (0, 0)

theorem BlankPage.window (h : s.BlankPage t) : s.Window (pageOf t) t [] [] := by
  refine ⟨fun y hy x hx => ?_, h.cursor, by decide⟩
  have hnone : charAt ([] ++ [([] : List UInt8)]) (0 + y) x = none := by
    rw [charAt_concat_nil, charAt_of_ge (Nat.zero_le _)]
  change Agrees (charAt ([] ++ [([] : List UInt8)]) (0 + y) x) _
  rw [hnone]
  exact h.cells _ (by simp only [numCells, numCols, numRows]; omega)

theorem terminalWriteLoop_eq {buf : ℕ → UInt8} : terminalWriteLoop s live t buf n i =
    ((List.range' i n).map buf).foldl (fun s c => s.terWritePit live t c) s := by
  induction n generalizing s i with
  | zero => rfl
  | succ n ih =>
    rw [terminalWriteLoop, ih]
    rfl

/-- **What `terminal_write` shows.**  On a blank page a text without backspaces leaves its last
rows, and the cursor behind its last character. -/
theorem terminalWrite_shows (ht : t < 3) (h : s.BlankPage t) (live : ℕ) (buf : ℕ → UInt8) (n : ℕ)
    (hbuf : ∀ i < n, buf i ≠ 8) :
    (terminalWrite s live t buf n).1.ShowsRows (pageOf t) t
      (breakRows numCols (fun c => c = 10 ∨ c = 13) [] ((List.range n).map buf)) := by
  have hcs : ∀ c ∈ (List.range n).map buf, c ≠ 8 := by
    intro c hc
    obtain ⟨i, hi, rfl⟩ := List.mem_map.1 hc
    exact hbuf i (List.mem_range.1 hi)
  obtain ⟨above, row, heq, hwin⟩ := h.window.text live ht hcs
  have hrows : breakRows numCols (fun c => c = 10 ∨ c = 13) [] ((List.range n).map buf) =
      above ++ [row] := heq
  rw [hrows, terminalWrite, terminalWriteLoop_eq, ← List.range_eq_range']
  exact hwin.showsRows

/-- The same character over and over, on the first terminal. -/
theorem terminalWrite_shows_boot : (terminalWrite boot 0 0 (fun _ => 97) 4000).1.ShowsRows
    (pageOf 0) 0 (breakRows numCols (fun c => c = 10 ∨ c = 13) []
      ((List.range 4000).map fun _ => 97)) :=
  terminalWrite_shows (by decide) ⟨fun _ _ => .inl rfl, rfl⟩ 0 (fun _ => 97) 4000
    fun _ _ => by decide

end Screen

end KTeamOS
