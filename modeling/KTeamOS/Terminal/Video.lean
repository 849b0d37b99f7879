import Mathlib.Logic.Function.Basic
import KTeamOS.Word.Basic

/-!
# Text output

The two functions of `lib.c` through which characters reach the screen: `ter_write` echoes what is
typed on the live terminal, `ter_write_pit` writes for the scheduled process.  Both work on memory
through the page table of the first 4 MB, in which the page `0xD1 + t` is the text page of the
terminal `t`.
-/

namespace KTeamOS

/-- `NUM_COLS` -/
abbrev numCols : ℕ := 80

/-- `NUM_ROWS` -/
abbrev numRows : ℕ := 25

/-- `SIZE_OF_ROW` -/
abbrev sizeOfRow : ℕ := 0xA0

/-- `VIDEO`, the value of `video_mem`. -/
abbrev videoMem : ℕ := 0xB8000

/-- The memory, its page table and the cursors of the terminals. -/
structure Screen where
  /-- The bytes at physical addresses. -/
  mem : ℕ → UInt8
  /-- The field `addr` of `page_table_4kb`. -/
  frame : ℕ → ℕ
  /-- `term[t].screen_x` -/
  screenX : ℕ → ℕ
  /-- `term[t].screen_y` -/
  screenY : ℕ → ℕ
  /-- `ATTRIB` -/
  attrib : UInt8
  /-- The position of the hardware cursor. -/
  position : ℕ

namespace Screen

/-- The physical address of `a`; from 4 MB on the kernel is mapped to itself. -/
def phys (s : Screen) (a : ℕ) : ℕ :=
  if a < 0x400000 then s.frame (a / 4096) * 4096 + a % 4096 else a

/-- The byte that an address leads to. -/
def read (s : Screen) (a : ℕ) : UInt8 := s.mem (s.phys (a % 2 ^ 32))

/-- A write, to the frame behind the page. -/
def write (s : Screen) (a : ℕ) (c : UInt8) : Screen :=
  { s with mem := Function.update s.mem (s.phys (a % 2 ^ 32)) c }

/-- `memcpy`, byte by byte. -/
def memcpy (s : Screen) (dest src : ℕ) : ℕ → Screen
  | 0 => s
  | n + 1 =>
    let s := s.memcpy dest src n
    s.write (dest + n) (s.read (src + n))

/-- Another column of the cursor of a terminal. -/
def setX (s : Screen) (t x : ℕ) : Screen := { s with screenX := Function.update s.screenX t x }

/-- Another row of the cursor of a terminal. -/
def setY (s : Screen) (t y : ℕ) : Screen := { s with screenY := Function.update s.screenY t y }

/-- The first loop of `scroll_up` and `scroll_up_pit`. -/
def scrollRows (s : Screen) (vidMem : ℕ) : ℕ → Screen
  | 0 => s
  | n + 1 =>
    (s.scrollRows vidMem n).memcpy (vidMem + n * sizeOfRow) (vidMem + (n + 1) * sizeOfRow) sizeOfRow

/-- The second loop of `scroll_up` and `scroll_up_pit`. -/
def scrollBlank (s : Screen) (vidMem : ℕ) : ℕ → Screen
  | 0 => s
  | n + 1 => (s.scrollBlank vidMem n).write (vidMem + (numCols * (numRows - 1) + n) * 2) 0

/-- The body of `scroll_up` and `scroll_up_pit`. -/
def scroll (s : Screen) (vidMem : ℕ) : Screen :=
  (s.scrollRows vidMem (numRows - 1)).scrollBlank vidMem numCols

/-- `scroll_up` -/
def scrollUp (s : Screen) : Screen := s.scroll videoMem

/-- The text page of the scheduled terminal. -/
abbrev pageOf (termPit : ℕ) : ℕ := (0xD1 + termPit) * 4096

/-- `scroll_up_pit`, on the page of a terminal. -/
def scrollUpPit (s : Screen) (termPit : ℕ) : Screen := s.scroll (pageOf termPit)

/-- `cursor` : the position goes to the display as well. -/
def cursor (s : Screen) (termLive x y : ℕ) : Screen :=
  { (s.setX termLive x).setY termLive y with position := (y * 80 + x) % 2 ^ 16 }

/-- What both functions do after they have moved to a new row of the terminal `t`: on the row
below the last one they scroll, with `scroll` on the page of `t`. -/
def wrap (s : Screen) (t : ℕ) (scroll : Screen → Screen) : Screen :=
  if s.screenY t = numRows then
    let s := scroll s
    (s.setY t (sub32 (s.screenY t) 1)).setX t 0
  else s

/-- `'\n'` -/
def newRow (s : Screen) (t : ℕ) (scroll : Screen → Screen) : Screen :=
  wrap ((s.setY t (add32 (s.screenY t) 1)).setX t 0) t scroll

/-- The cursor after a character, with the wrap at the end of a row. -/
def advance (s : Screen) (t : ℕ) (scroll : Screen → Screen) : Screen :=
  let s := s.setX t (add32 (s.screenX t) 1)
  let s := if s.screenX t = numCols then (s.setY t (add32 (s.screenY t) 1)).setX t 0 else s
  wrap s t scroll

/-- The address of the cell at the cursor of `t` in the page at `vidMem`. -/
def cell (s : Screen) (t vidMem : ℕ) : ℕ :=
  add32 vidMem ((numCols * s.screenY t + s.screenX t) * 2)

/-- The loop of `ter_write` that closes the gap of a deleted character: cells `0` to `n - 1` from
`pos` on move one place to the left. -/
def closeGap (s : Screen) (pos : ℕ) : ℕ → Screen
  | 0 => s
  | n + 1 => (s.closeGap pos n).memcpy (sub32 (add32 pos (2 * n)) 2) (add32 pos (2 * n)) 1

/-- The loop of `ter_write` that makes room for a character: cells `n - 1` to `0` from `pos` on
move one place to the right. -/
def openGap (s : Screen) (pos : ℕ) : ℕ → Screen
  | 0 => s
  | n + 1 => (s.memcpy (add32 pos (2 * (n + 1))) (add32 pos (2 * n)) 1).openGap pos n

/-- `ter_write`, with the indices of the line for the part behind the cursor. -/
def terWrite (s : Screen) (termLive : ℕ) (c : UInt8) (idx idxEnd : ℕ) : Screen :=
  let s := { s with attrib := 0x0F }
  let pos := s.cell termLive videoMem
  let n := sub32 idxEnd idx
  let s :=
    if c = 10 ∨ c = 13 then s.newRow termLive scrollUp
    else if c = 8 then
      let s :=
        if s.screenX termLive ≠ 0 then s.setX termLive (sub32 (s.screenX termLive) 1)
        else
          (s.setX termLive (numCols - 1)).setY termLive (sub32 (s.screenY termLive) 1)
      let s := s.closeGap pos n
      s.memcpy (sub32 (add32 pos (2 * n)) 2) (add32 pos (2 * n)) 1
    else
      -- the loop counts down a signed `int`
      let s := if n < 2 ^ 31 then s.openGap pos n else s
      let s := (s.write pos c).write (add32 pos 1) s.attrib
      s.advance termLive scrollUp
  s.cursor termLive (s.screenX termLive) (s.screenY termLive)

/-- `ter_write_pit` -/
def terWritePit (s : Screen) (termLive termPit : ℕ) (c : UInt8) : Screen :=
  let s := { s with attrib := 0x02 }
  let vidMem := pageOf termPit
  let scroll := fun s : Screen => s.scrollUpPit termPit
  let s :=
    if c = 10 ∨ c = 13 then s.newRow termPit scroll
    else if c = 8 then
      -- at column 0 the source moves the unused `screen_x` and `screen_y` of `lib.c` instead
      let s :=
        if s.screenX termPit ≠ 0 then s.setX termPit (sub32 (s.screenX termPit) 1) else s
      (s.write (s.cell termPit vidMem) 0).write (s.cell termPit vidMem + 1) s.attrib
    else
      let s :=
        (s.write (s.cell termPit vidMem) c).write (s.cell termPit vidMem + 1) s.attrib
      s.advance termPit scroll
  if termLive = termPit then s.cursor termLive (s.screenX termPit) (s.screenY termPit) else s

/-- The loop of `clear`. -/
def clearCells (s : Screen) : ℕ → Screen
  | 0 => s
  | n + 1 =>
    let s := s.clearCells n
    (s.write (videoMem + n * 2) 0x20).write (videoMem + n * 2 + 1) s.attrib

/-- A blank screen, identity-mapped. -/
def boot : Screen := ⟨fun _ => 0, id, fun _ => 0, fun _ => 0, 0, 0⟩

end Screen

end KTeamOS
