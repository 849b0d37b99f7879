import KTeamOS.LTS.Basic
import KTeamOS.Buffer.Basic
import KTeamOS.Terminal.Video

/-!
# The line editor

The functions of `terminal.c` that a key event on the live terminal runs.  The line of the
terminal `t` is the row `t` of `key_buf`, kept here as one flat array of three rows of
`BUF_MAX` bytes, so that an index past the end of a row is a byte of the next row.

`reach` is not part of the source: it records the greatest index with which a row of `key_buf` was
read or written.
-/

namespace KTeamOS

open Buffer

/-- `BUF_MAX` -/
abbrev bufMax : ℕ := 129

/-- `BUF_MAX_V` -/
abbrev bufMaxV : ℕ := 128

/-- The part of the boot block that `tab_compare` reads. -/
structure Names where
  /-- `boot_block.num_dentries` -/
  numDentries : ℕ
  /-- `boot_block.dentries[i].filename` -/
  filename : ℕ → ℕ → UInt8

/-- The variables of the terminals. -/
structure Tty where
  termLive : ℕ
  screen : Screen
  bufIndex : ℕ → ℕ
  bufIndexMax : ℕ → ℕ
  keyBuf : ℕ → UInt8
  storeBuf : ℕ → UInt8
  histIdx : ℕ → ℕ
  arrowIdx : ℕ → ℕ
  histMax : ℕ
  history : ℕ → ℕ → ℕ → UInt8
  enterFlag : ℕ → ℕ
  names : Names
  /-- The greatest index used on a row of `key_buf`. -/
  reach : ℕ

namespace Tty

/-- The start of the live row. -/
abbrev row (s : Tty) : ℕ := bufMax * s.termLive

/-- `buf_index[term_live]` -/
abbrev bi (s : Tty) : ℕ := s.bufIndex s.termLive

/-- `buf_index_max[term_live]` -/
abbrev bim (s : Tty) : ℕ := s.bufIndexMax s.termLive

/-- `key_buf[term_live][i]` -/
abbrev key (s : Tty) (i : ℕ) : UInt8 := s.keyBuf (s.row + i)

/-- The buffer is used up to the index `i`. -/
def touch (s : Tty) (i : ℕ) : Tty := { s with reach := max s.reach i }

/-- `buf_index[term_live] = i; buf_index_max[term_live] = m;` -/
def setIndex (s : Tty) (i m : ℕ) : Tty :=
  { s with
    bufIndex := Function.update s.bufIndex s.termLive i
    bufIndexMax := Function.update s.bufIndexMax s.termLive m }

/-- `key_buf[term_live][i] = c;` -/
def putKey (s : Tty) (i : ℕ) (c : UInt8) : Tty :=
  { s.touch i with keyBuf := Function.update s.keyBuf (s.row + i) c }

/-- The character on the screen, with the indices that the line has. -/
def echo (s : Tty) (c : UInt8) : Tty :=
  { s with screen := s.screen.terWrite s.termLive c s.bi s.bim }

/-- `clear_buf` : 128 zeros, and a newline behind them. -/
def clearBuf (s : Tty) : Tty :=
  let s := s.setIndex 0 0
  let s := { s.touch (bufMaxV - 1) with keyBuf := fill s.keyBuf s.row 0 bufMaxV }
  s.putKey bufMaxV 10

/-- The branch `c == '\b'` of `key_to_ter`, up to the common increments. -/
def backspace (s : Tty) : Tty :=
  let s := s.setIndex (sub32 s.bi 1) (sub32 s.bim 1)
  let s := s.putKey s.bi 0
  let s := s.echo 8
  let n := sub32 s.bim s.bi
  let s := { s.touch (s.bi + n) with keyBuf := shiftLeft s.keyBuf (s.row + s.bi) n }
  let s := s.putKey s.bim 0
  s.setIndex (sub32 s.bi 1) (sub32 s.bim 1)

/-- What `key_to_ter` does to the screen before it ends a line with the cursor inside it. -/
def skipTail (s : Tty) : Tty :=
  let diff := sub32 s.bim s.bi
  if diff ≠ 0 then
    let sc := s.screen.setX s.termLive (add32 (s.screen.screenX s.termLive) diff % numCols)
    { s with screen := if s.bim > 72 then sc.setY s.termLive (add32 (sc.screenY s.termLive) 1)
      else sc }
  else s

/-- The history entry of a line that is not empty. -/
def remember (s : Tty) : Tty :=
  let t := s.termLive
  let h := (s.histIdx t + 1) % 32
  { s with
    histIdx := Function.update s.histIdx t h
    arrowIdx := Function.update s.arrowIdx t h
    histMax := if s.histMax < 32 then s.histMax + 1 else s.histMax
    history := Function.update s.history t (Function.update
      (Function.update (s.history t) (s.histIdx t)
        (copy (s.history t (s.histIdx t)) 0 s.keyBuf s.row bufMax))
      h (fill (Function.update (s.history t) (s.histIdx t)
        (copy (s.history t (s.histIdx t)) 0 s.keyBuf s.row bufMax) h) 0 0 bufMax)) }

/-- `memcpy(store_buf[term_live],key_buf[term_live],BUF_MAX);` -/
def storeLine (s : Tty) : Tty :=
  { s.touch (bufMax - 1) with storeBuf := copy s.storeBuf s.row s.keyBuf s.row bufMax }

/-- The history of a line. -/
def commit (s : Tty) : Tty := if s.key 0 ≠ 0 ∧ s.key 0 ≠ 10 then s.remember else s

/-- `enter_flag[term_live] = buf_index_max[term_live]+1;` -/
def raiseFlag (s : Tty) : Tty :=
  { s with enterFlag := Function.update s.enterFlag s.termLive (add32 s.bim 1) }

/-- The rest of the branch `c == '\n' || c == '\r'` of `key_to_ter`. -/
def endLine (s : Tty) (c : UInt8) : Tty :=
  let s := s.putKey s.bim c
  let s := s.echo (s.key s.bim)
  s.storeLine.commit.raiseFlag.clearBuf

/-- The branch `c == '\n' || c == '\r'` of `key_to_ter`. -/
def enter (s : Tty) (c : UInt8) : Tty := s.skipTail.endLine c

/-- The loop of the last branch, which counts down a signed `int`. -/
def makeRoom (s : Tty) : Tty :=
  if sub32 s.bim s.bi < 2 ^ 31 then
    { s.touch (s.bi + sub32 s.bim s.bi + 1) with
      keyBuf := shiftRight s.keyBuf (s.row + s.bi) (sub32 s.bim s.bi) }
  else s

/-- The last branch of `key_to_ter`, up to the common increments. -/
def insert (s : Tty) (c : UInt8) : Tty :=
  let s := s.makeRoom.putKey s.bi c
  s.echo (s.key s.bi)

/-- `buf_index[term_live]++; buf_index_max[term_live]++;` -/
def next (s : Tty) : Tty := s.setIndex (add32 s.bi 1) (add32 s.bim 1)

/-- `key_to_ter` -/
def keyToTer (s : Tty) (c : UInt8) : Tty :=
  if c = 8 then if s.bi = 0 then s else s.backspace.next
  else if c = 10 ∨ c = 13 then s.enter c
  else if s.bim > bufMaxV then s
  else (s.insert c).next

/-- `buf_move(1)` -/
def moveLeft (s : Tty) : Tty :=
  if s.bi = 0 then s
  else
    let t := s.termLive
    let s := s.setIndex (sub32 s.bi 1) s.bim
    let sc := s.screen
    let sc :=
      if sc.screenX t ≠ 0 then sc.setX t (sub32 (sc.screenX t) 1)
      else (sc.setX t (numCols - 1)).setY t (sub32 (sc.screenY t) 1)
    { s with screen := sc.cursor t (sc.screenX t) (sc.screenY t) }

/-- `buf_move(0)` -/
def moveRight (s : Tty) : Tty :=
  if s.bi ≥ s.bim then s
  else
    let t := s.termLive
    let s := s.setIndex (add32 s.bi 1) s.bim
    let sc := s.screen
    let sc :=
      if sc.screenX t ≠ numCols - 1 then sc.setX t (add32 (sc.screenX t) 1)
      else (sc.setX t 0).setY t (add32 (sc.screenY t) 1)
    { s with screen := sc.cursor t (sc.screenX t) (sc.screenY t) }

/-! ### Recalling lines -/

/-- `for(i=0;i<BUF_MAX;i++) key_to_ter('\b');` -/
def eraseLine (s : Tty) : Tty := (List.replicate bufMax 8).foldl keyToTer s

/-- The loop that types the entry of the history at `arrow_idx`, from its character `i` on. -/
def typeEntry : ℕ → ℕ → Tty → Tty
  | 0, _, s => s
  | n + 1, i, s =>
    let c := s.history s.termLive (s.arrowIdx s.termLive) i
    if c = 0 ∨ c = 10 then s else typeEntry n (i + 1) (s.keyToTer c)

/-- Another place in the history of the terminal. -/
def setArrow (s : Tty) (a : ℕ) : Tty :=
  { s with arrowIdx := Function.update s.arrowIdx s.termLive a }

/-- `hist_access(1)` -/
def histUp (s : Tty) : Tty :=
  let t := s.termLive
  let a := sub32 (s.arrowIdx t) 1 % 32
  if s.history t a 0 = 0 then s
  else typeEntry bufMax 0 (s.setArrow a).eraseLine

/-- `hist_access(0)` -/
def histDown (s : Tty) : Tty :=
  let t := s.termLive
  let a := add32 (s.arrowIdx t) 1 % 32
  if s.arrowIdx t = s.histIdx t then s
  else if s.history t a 0 = 0 then
    let s := if s.history t (s.arrowIdx t % 32) 0 ≠ 0 then s.setArrow a else s
    s.eraseLine
  else typeEntry bufMax 0 (s.setArrow a).eraseLine

/-! ### Completion -/

/-- The inner loop of `tab_compare`, from `j` on: whether it returns, and the last index read. -/
def tabMatch (buf name : ℕ → UInt8) : ℕ → ℕ → Bool × ℕ
  | 0, j => (false, j - 1)
  | n + 1, j =>
    if buf j = 0 then (true, j)
    else if buf j ≠ name j then (false, j)
    else tabMatch buf name n (j + 1)

/-- The outer loop of `tab_compare` over the last `n` entries. -/
def tabScan (d : Names) (buf : ℕ → UInt8) : ℕ → Option (ℕ → UInt8) × ℕ
  | 0 => (none, 0)
  | n + 1 =>
    let name := d.filename (d.numDentries - (n + 1))
    let (found, j) := tabMatch buf name 32 0
    if found then (some name, j)
    else
      let (r, k) := tabScan d buf n
      (r, max j k)

/-- The name `tab_compare` finds, and the greatest index of `buf` it reads. -/
def tabCompare (d : Names) (buf : ℕ → UInt8) : Option (ℕ → UInt8) × ℕ :=
  if buf 0 = 0x20 then (none, 0) else tabScan d buf d.numDentries

/-- The loop of `tab_comp` over `index`. -/
def wordStart (s : Tty) : ℕ → ℕ
  | 0 => 0
  | index + 1 => if s.key index = 0x20 then index + 1 else s.wordStart index

/-- The loop of `tab_comp` over `size`. -/
def nameSize (name : ℕ → UInt8) : ℕ → ℕ → ℕ
  | 0, size => size
  | n + 1, size => if name size = 0 then size else nameSize name n (size + 1)

/-- The loop of `tab_comp` over `part`, within the `n` bytes of `key_buf` that are left. -/
def partLen (buf : ℕ → UInt8) : ℕ → ℕ → Option ℕ
  | 0, _ => none
  | n + 1, part => if buf part = 0 ∨ buf part = 10 then some part else partLen buf n (part + 1)

/-- The characters `tab_comp` types, and the greatest index of the line it reads. -/
def completion (s : Tty) : Option (List UInt8 × ℕ) :=
  let index := s.wordStart s.bim
  let word := fun i => s.key (index + i)
  match tabCompare s.names word with
  | (none, j) => some ([], max (s.bim - 1) (index + j))
  | (some name, j) => do
    let size := nameSize name 32 0
    let part ← partLen word (3 * bufMax - (s.row + index)) 0
    some ((List.range' part (size - part)).map name, max (s.bim - 1) (index + max j part))

/-- `tab_comp` : the completion is typed, character by character. -/
def tabComp (s : Tty) : Option Tty := do
  let (cs, r) ← s.completion
  some (cs.foldl keyToTer (s.touch r))

/-- The terminals at boot, on a directory and a screen, with the terminal `t` live. -/
def boot (t : ℕ) (names : Names) (screen : Screen) : Tty where
  termLive := t
  screen := screen
  bufIndex _ := 0
  bufIndexMax _ := 0
  keyBuf _ := 0
  storeBuf _ := 0
  histIdx _ := 0
  arrowIdx _ := 0
  histMax := 0
  history _ _ _ := 0
  enterFlag _ := 0
  names := names
  reach := 0

end Tty

/-- The key events of a terminal. -/
inductive KeyEvent
  | key (c : UInt8) | left | right | up | down | tab
  deriving DecidableEq

/-- The live terminal under key events. -/
def ttyMachine : Machine Tty KeyEvent where
  step s
    | .key c => some (s.keyToTer c)
    | .left => some s.moveLeft
    | .right => some s.moveRight
    | .up => some s.histUp
    | .down => some s.histDown
    | .tab => s.tabComp

end KTeamOS
