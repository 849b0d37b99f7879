import KTeamOS.Terminal.Keys

/-!
# The keyboard handler

`key_handler` takes a scancode to the live terminal.  Only the characters of the tables are guarded
by `term_live == 1`: Tab, the arrows and Ctrl-L act on the line of whichever terminal is live, so
also under the desktop and the game, where no line is edited.

## Main definitions

* `Keyboard.keyHandler` : the handler, `none` standing for a code that switches terminals or halts a
  process.
* `SameLines` : the lines, their histories and the text cursors of all terminals are the same.
* `Keyboard.Quiet` : the key finds nothing to do on the line of the live terminal.
* `Keyboard.keyboardMachine` : scancodes, between which the rest of the kernel runs.

## Main results

* `keyHandler_sameLines` : without a shell on the screen the handler leaves the lines alone if the
  key is quiet, and only then if the live terminal has no history and files have plain names.
* `sameLines_iff_quiet` : if files have plain names, only the shell has a history; so from then on
  the handler leaves the lines alone exactly if the key is quiet.
-/

namespace KTeamOS

/-! ### The tables -/

/-- The four tables differ in the characters of the four rows of the keyboard. -/
def keyTable (digits top home low : String) : List UInt8 :=
  let bytes (s : String) : List UInt8 := s.toList.map fun c => c.toNat.toUInt8
  [0, 27] ++ bytes digits ++ [8, 9] ++ bytes top ++ [10, 0] ++ bytes home ++ [0] ++ bytes low ++
    [0, 42, 0, 32] ++ List.replicate 16 0 ++ [45, 0, 0, 0, 43] ++ List.replicate 49 0

/-- `kbdus` -/
def kbdus : List UInt8 := keyTable "1234567890-=" "qwertyuiop[]" "asdfghjkl;'`" "\\zxcvbnm,./"

/-- `kbdus_shift` -/
def kbdusShift : List UInt8 :=
  keyTable "!@#$%^&*()_+" "QWERTYUIOP\x7b\x7d" "ASDFGHJKL:\"~" "|ZXCVBNM<>?"

/-- `kbdus_caps` -/
def kbdusCaps : List UInt8 := keyTable "1234567890-=" "QWERTYUIOP[]" "ASDFGHJKL;'`" "\\ZXCVBNM,./"

/-- `kbdus_caps_shift` -/
def kbdusCapsShift : List UInt8 :=
  keyTable "!@#$%^&*()_+" "qwertyuiop\x7b\x7d" "asdfghjkl:\"~" "|zxcvbnm<>?"

/-! ### The handler -/

/-- The variables of `key_handler`. -/
structure Keyboard where
  tty : Tty
  termPit : ℕ
  isModex : Bool
  isPacman : Bool
  /-- `term[1].pcb_live != NULL` -/
  shellLive : Bool
  shiftFlag : Bool
  ctrlFlag : Bool
  capsFlag : Bool
  altFlag : Bool
  paintColor : UInt8
  paintSize : UInt8
  lastKey : ℕ
  isPlaying : Bool
  /-- What is read behind the end of a table, by the state of Shift and Caps Lock. -/
  behind : Bool → Bool → UInt8

/-- `clear`, and the assignments with which Ctrl-L goes on. -/
def Tty.clear (s : Tty) : Tty :=
  let s := clearBuf { s with screen := s.screen.clearCells (numRows * numCols) }
  { s with screen := ((s.screen.cursor s.termLive 0 0).setX s.termLive 0).setY s.termLive 0 }

namespace Keyboard

variable (k : Keyboard)

/-- The colour of a digit key. -/
def colorOf (code : UInt8) : UInt8 :=
  match code with
  | 0x02 => 0x03
  | 0x03 => 0x05
  | 0x04 => 0x02
  | 0x05 => 0x06
  | 0x06 => 0x04
  | 0x07 => 0x09
  | 0x08 => 0x08
  | 0x09 => 0x01
  | 0x0A => 0x07
  | _ => 0x0F

/-- The keys `ONE` to `ZERO` and `SIZE_ONE` to `SIZE_SIX`. -/
def setPaint (code : UInt8) : Keyboard :=
  if k.isModex ∧ ¬ k.isPacman then
    if 0x02 ≤ code ∧ code ≤ 0x0B then { k with paintColor := colorOf code }
    else if 0x10 ≤ code ∧ code ≤ 0x15 then { k with paintSize := code - 0x0F }
    else k
  else k

/-- Control, Shift, Alt and Caps Lock. -/
def setFlags (code : UInt8) : Keyboard :=
  { k with
    ctrlFlag := if code = 0x1D then true else if code = 0x9D then false else k.ctrlFlag
    shiftFlag := if code = 0x2A ∨ code = 0x36 then true
      else if code = 0xAA ∨ code = 0xB6 then false else k.shiftFlag
    altFlag := if code = 0x38 then true else if code = 0xB8 then false else k.altFlag
    capsFlag := if code = 0x3A then !k.capsFlag else k.capsFlag }

/-- The character of a code that is no more than `0x80`. -/
def charOf (code : UInt8) : UInt8 :=
  let table := match k.capsFlag, k.shiftFlag with
    | false, false => kbdus
    | true, false => kbdusCaps
    | false, true => kbdusShift
    | true, true => kbdusCapsShift
  table.getD code.toNat (k.behind k.shiftFlag k.capsFlag)

/-- The chain of `else if`: the state and the variable `key` after it.  `clear_paint`,
`paint_background` and the redrawing of the desktop write pixels, which this model does not have. -/
def dispatch (code : UInt8) : Option (Keyboard × UInt8) :=
  if code > 0x80 then some (k, 0)
  else if code = 0x0F then do
    let s ← k.tty.tabComp
    some ({ k with tty := s }, 0)
  else if code = 0x48 then some ({ k with tty := k.tty.histUp }, 0)
  else if code = 0x50 then some ({ k with tty := k.tty.histDown }, 0)
  else if code = 0x4B then some ({ k with tty := k.tty.moveLeft }, 0)
  else if code = 0x4D then some ({ k with tty := k.tty.moveRight }, 0)
  else if k.ctrlFlag ∧ code = 0x26 then
    if ¬ k.isModex ∧ ¬ k.isPacman then some ({ k with tty := k.tty.clear }, 0) else some (k, 0)
  else if k.ctrlFlag then some (k, 0)
  else if k.altFlag ∧ code = 0x3B then if ¬ k.isPacman then none else some (k, 0)
  else if k.altFlag ∧ code = 0x3C then
    if ¬ k.isPacman ∧ ¬ (k.tty.termLive = 2 ∧ ¬ k.shellLive) then none else some (k, 0)
  else if k.altFlag then some (k, 0)
  else some (k, k.charOf code)

/-- The keys of the game. -/
def steer (key : UInt8) : Keyboard :=
  if key = 0x61 then { k with lastKey := 4 }
  else if key = 0x64 then { k with lastKey := 3 }
  else if key = 0x73 then { k with lastKey := 2 }
  else if key = 0x77 then { k with lastKey := 1 }
  else if key = 0x6C then { k with isPlaying := false }
  else k

/-- What happens to the character: it goes to the game or to the shell. -/
def deliver (key : UInt8) : Keyboard :=
  let k := if k.tty.termLive = 2 ∧ key ≠ 0 then k.steer key else k
  if k.tty.termLive = 1 ∧ key ≠ 0 then { k with tty := k.tty.keyToTer key } else k

/-- `key_handler` -/
def keyHandler (code : UInt8) : Option Keyboard :=
  if code = 0x01 ∧ k.tty.termLive = 2 ∧ k.termPit = 2 then none
  else do
    let (k, key) ← ((k.setPaint code).setFlags code).dispatch code
    some (k.deliver key)

end Keyboard

/-! ### The frame -/

/-- The line buffers, the histories and the text cursors of all terminals are the same. -/
structure SameLines (s s' : Tty) : Prop where
  keyBuf : s'.keyBuf = s.keyBuf
  bufIndex : s'.bufIndex = s.bufIndex
  bufIndexMax : s'.bufIndexMax = s.bufIndexMax
  history : s'.history = s.history
  enterFlag : s'.enterFlag = s.enterFlag
  screenX : s'.screen.screenX = s.screen.screenX
  screenY : s'.screen.screenY = s.screen.screenY

namespace Tty

/-- Tab has no characters to type, or the line has no room for them. -/
def TypesNothing (s : Tty) : Prop :=
  ∀ cs r, s.completion = some (cs, r) → cs = [] ∨ (bufMaxV < s.bim ∧ ∀ c ∈ cs, Plain c)

/-- The history has no older entry. -/
def NoneOlder (s : Tty) : Prop :=
  s.history s.termLive (sub32 (s.arrowIdx s.termLive) 1 % 32) 0 = 0

/-- The history is at its newest entry, or behind the recorded ones with nothing typed. -/
def NoneNewer (s : Tty) : Prop :=
  s.arrowIdx s.termLive = s.histIdx s.termLive ∨
    (s.history s.termLive (add32 (s.arrowIdx s.termLive) 1 % 32) 0 = 0 ∧ s.bi = 0)

/-- The line of the live terminal is as `clear` leaves it. -/
def Cleared (s : Tty) : Prop :=
  s.bi = 0 ∧ s.bim = 0 ∧ (∀ i < bufMaxV, s.key i = 0) ∧ s.key bufMaxV = 10 ∧
    s.screen.screenX s.termLive = 0 ∧ s.screen.screenY s.termLive = 0

/-- The live terminal has recorded no line. -/
def NoHistory (s : Tty) : Prop := ∀ e, s.history s.termLive e 0 = 0

/-- Only the shell has recorded lines. -/
def ShellHistory (s : Tty) : Prop := ∀ t, t ≠ 1 → ∀ e, s.history t e 0 = 0

/-- The names of the files have no control characters of the editor. -/
def PlainNames (s : Tty) : Prop := ∀ i, ∀ j < 32, Plain (s.names.filename i j)

end Tty

/-- The key has nothing to do on the line of the live terminal. -/
def Keyboard.Quiet (k : Keyboard) (code : UInt8) : Prop :=
  (code = 0x0F → k.tty.TypesNothing) ∧ (code = 0x48 → k.tty.NoneOlder) ∧
    (code = 0x50 → k.tty.NoneNewer) ∧ (code = 0x4B → k.tty.bi = 0) ∧
    (code = 0x4D → k.tty.bim ≤ k.tty.bi) ∧
    (code = 0x26 → k.ctrlFlag → ¬ k.isModex → ¬ k.isPacman → k.tty.Cleared)

/-- What the key would type is not what it erases: there is no line to recall, and a completion
has no control characters. -/
def Keyboard.TypesAhead (k : Keyboard) (code : UInt8) : Prop :=
  (code = 0x0F → k.tty.PlainNames) ∧ (code = 0x48 ∨ code = 0x50 → k.tty.NoHistory)

/-- The lines stay the same if `q`, and under `b` only then. -/
def KeptIf (s s' : Tty) (b q : Prop) : Prop := (q → SameLines s s') ∧ (b → SameLines s s' → q)

namespace Tty

variable {s s' : Tty} {c : UInt8} {cs : List UInt8} {n : ℕ}

theorem sameLines_refl : SameLines s s := ⟨rfl, rfl, rfl, rfl, rfl, rfl, rfl⟩

theorem sameLines_touch : SameLines s (s.touch n) := ⟨rfl, rfl, rfl, rfl, rfl, rfl, rfl⟩

/-! ### Left and right -/

theorem moveLeft_keptIf : KeptIf s s.moveLeft True (s.bi = 0) := by
  constructor
  · intro h0
    rw [moveLeft, if_pos h0]
    exact sameLines_refl
  · intro _ hsame
    by_contra h0
    have hbi := congrFun hsame.bufIndex s.termLive
    simp [moveLeft, h0, setIndex] at hbi
    simp only [sub32, bi] at hbi h0
    omega

theorem moveRight_keptIf : KeptIf s s.moveRight True (s.bim ≤ s.bi) := by
  constructor
  · intro hle
    rw [moveRight, if_pos hle]
    exact sameLines_refl
  · intro _ hsame
    by_contra hlt
    have hbi := congrFun hsame.bufIndex s.termLive
    simp [moveRight, hlt, setIndex] at hbi
    simp only [add32, bi] at hbi hlt
    omega

/-! ### Clearing -/

theorem clearCells_screenX (sc : Screen) : (sc.clearCells n).screenX = sc.screenX := by
  induction n with
  | zero => rfl
  | succ n ih => exact ih

theorem clearCells_screenY (sc : Screen) : (sc.clearCells n).screenY = sc.screenY := by
  induction n with
  | zero => rfl
  | succ n ih => exact ih

/-- The cleared screen is a screen with the same cursors. -/
theorem clear_eq (s : Tty) : ∃ sc : Screen, sc.screenX = s.screen.screenX ∧
    sc.screenY = s.screen.screenY ∧
    s.clear = { clearBuf { s with screen := sc } with
      screen := ((sc.cursor s.termLive 0 0).setX s.termLive 0).setY s.termLive 0 } :=
  ⟨s.screen.clearCells (numRows * numCols), clearCells_screenX _, clearCells_screenY _, rfl⟩

theorem cleared_eq_self_iff : cleared s.keyBuf s.row = s.keyBuf ↔
    (∀ i < bufMaxV, s.key i = 0) ∧ s.key bufMaxV = 10 := by
  constructor
  · intro h
    refine ⟨fun i hi => ?_, ?_⟩
    · rw [key, ← h, cleared_apply, if_neg (by simp only [bufMaxV] at hi; omega),
        if_pos (by simp only [bufMaxV] at hi; omega)]
    · rw [key, ← h, cleared_apply, if_pos rfl]
  · rintro ⟨hzero, hend⟩
    funext j
    rw [cleared_apply]
    split_ifs with hj hin
    · rw [hj, ← hend]
    · rw [← hzero (j - s.row) (by simp only [bufMaxV]; omega), key, Nat.add_sub_cancel' hin.1]
    · rfl

theorem clear_keptIf : KeptIf s s.clear True s.Cleared := by
  obtain ⟨sc, hx, hy, hclear⟩ := s.clear_eq
  have hbi : s.clear.bufIndex = Function.update s.bufIndex s.termLive 0 := by rw [hclear]; rfl
  have hbim : s.clear.bufIndexMax = Function.update s.bufIndexMax s.termLive 0 := by
    rw [hclear]
    rfl
  have hkey : s.clear.keyBuf = cleared s.keyBuf s.row := by rw [hclear]; rfl
  have hcolumn : s.clear.screen.screenX = Function.update s.screen.screenX s.termLive 0 := by
    rw [hclear, ← hx]
    exact Function.update_idem ..
  have hrow : s.clear.screen.screenY = Function.update s.screen.screenY s.termLive 0 := by
    rw [hclear, ← hy]
    exact Function.update_idem ..
  constructor
  · rintro ⟨hbi₀, hbim₀, hzero, hend, hx₀, hy₀⟩
    refine ⟨?_, ?_, ?_, by rw [hclear]; rfl, by rw [hclear]; rfl, ?_, ?_⟩
    · rw [hkey, cleared_eq_self_iff]
      exact ⟨hzero, hend⟩
    · rw [hbi, Function.update_eq_self_iff]
      exact hbi₀.symm
    · rw [hbim, Function.update_eq_self_iff]
      exact hbim₀.symm
    · rw [hcolumn, Function.update_eq_self_iff]
      exact hx₀.symm
    · rw [hrow, Function.update_eq_self_iff]
      exact hy₀.symm
  · intro _ hsame
    have hbi₀ := hsame.bufIndex
    have hbim₀ := hsame.bufIndexMax
    have hkey₀ := hsame.keyBuf
    have hx₀ := hsame.screenX
    have hy₀ := hsame.screenY
    rw [hbi, Function.update_eq_self_iff] at hbi₀
    rw [hbim, Function.update_eq_self_iff] at hbim₀
    rw [hkey, cleared_eq_self_iff] at hkey₀
    rw [hcolumn, Function.update_eq_self_iff] at hx₀
    rw [hrow, Function.update_eq_self_iff] at hy₀
    exact ⟨hbi₀.symm, hbim₀.symm, hkey₀.1, hkey₀.2, hx₀.symm, hy₀.symm⟩

/-! ### Up and down -/

theorem histUp_eq_self (h : s.NoneOlder) : s.histUp = s := if_pos h

theorem histUp_keptIf : KeptIf s s.histUp s.NoHistory s.NoneOlder := by
  constructor
  · intro hnone
    rw [histUp_eq_self hnone]
    exact sameLines_refl
  · exact fun hhist _ => hhist _

theorem foldl_backspace_zero (h0 : s.bi = 0) :
    (List.replicate n 8).foldl keyToTer s = s := by
  induction n with
  | zero => rfl
  | succ n ih => rw [List.replicate_succ, List.foldl_cons, keyToTer_backspace_zero h0, ih]

/-- The index after a backspace, also one that is out of range. -/
theorem keyToTer_backspace_bi (h0 : s.bi ≠ 0) :
    (s.keyToTer 8).termLive = s.termLive ∧
      (s.keyToTer 8).bi = add32 (sub32 (sub32 s.bi 1) 1) 1 := by
  have hkey : s.keyToTer 8 = s.backspace.next := by rw [keyToTer, if_pos rfl, if_neg h0]
  rw [hkey]
  constructor
  · rfl
  · simp [backspace, next, setIndex, putKey, echo, touch, bi, bim]

theorem foldl_backspace_bi : ∀ {s : Tty},
    ((List.replicate n 8).foldl keyToTer s).termLive = s.termLive ∧
      (s.bi < 2 ^ 32 → ((List.replicate n 8).foldl keyToTer s).bi ≤ s.bi) := by
  induction n with
  | zero => exact ⟨rfl, fun _ => Nat.le_refl _⟩
  | succ n ih =>
    intro s
    rw [List.replicate_succ, List.foldl_cons]
    by_cases h0 : s.bi = 0
    · rw [keyToTer_backspace_zero h0]
      exact ih
    · obtain ⟨hlive, hbi⟩ := keyToTer_backspace_bi h0
      obtain ⟨hlive', hle⟩ := ih (s := s.keyToTer 8)
      refine ⟨hlive'.trans hlive, fun hlt => ?_⟩
      have hpred : (s.keyToTer 8).bi = s.bi - 1 := by
        rw [hbi, sub32_of_le hlt (Nat.pos_of_ne_zero h0), add32_sub32 (by omega)]
      have hrest := hle (by omega)
      omega

/-- Erasing a line moves the index, unless there is nothing before it. -/
theorem eraseLine_bi_ne (h0 : s.bi ≠ 0) : s.eraseLine.bufIndex s.termLive ≠ s.bi := by
  obtain ⟨hlive, hbi⟩ := keyToTer_backspace_bi h0
  obtain ⟨hlive', hle⟩ := foldl_backspace_bi (n := 128) (s := s.keyToTer 8)
  have hrest : s.eraseLine = (List.replicate 128 8).foldl keyToTer (s.keyToTer 8) := by
    rw [eraseLine, show bufMax = 128 + 1 from rfl, List.replicate_succ, List.foldl_cons]
  -- the first backspace moves the index, and no later one moves it back
  have hlast : s.eraseLine.bufIndex s.termLive ≤ (s.keyToTer 8).bi := by
    rw [← hlive, ← hlive', hrest]
    exact hle (by rw [hbi]; exact Nat.mod_lt _ (by decide))
  have hfirst : (s.keyToTer 8).bi < s.bi ∨ (s.keyToTer 8).bi < 2 ^ 32 ∧ 2 ^ 32 ≤ s.bi := by
    rw [hbi]
    unfold add32 sub32
    omega
  omega

theorem eraseLine_keptIf : KeptIf s s.eraseLine True (s.bi = 0) := by
  constructor
  · intro h0
    have hself : s.eraseLine = s := foldl_backspace_zero h0
    rw [hself]
    exact sameLines_refl
  · intro _ hsame
    by_contra h0
    exact eraseLine_bi_ne h0 (congrFun hsame.bufIndex s.termLive)

theorem histDown_keptIf : KeptIf s s.histDown s.NoHistory s.NoneNewer := by
  unfold histDown NoneNewer
  by_cases hnewest : s.arrowIdx s.termLive = s.histIdx s.termLive
  · rw [if_pos hnewest]
    exact ⟨fun _ => sameLines_refl, fun _ _ => .inl hnewest⟩
  · by_cases hslot : s.history s.termLive (add32 (s.arrowIdx s.termLive) 1 % 32) 0 = 0
    · rw [if_neg hnewest, if_pos hslot]
      simp only [hnewest, hslot, false_or, true_and]
      split_ifs
      · -- a new `arrow_idx` is not among the variables in question
        obtain ⟨hkept, honly⟩ := eraseLine_keptIf
          (s := s.setArrow (add32 (s.arrowIdx s.termLive) 1 % 32))
        exact ⟨fun h0 => ⟨(hkept h0).1, (hkept h0).2, (hkept h0).3, (hkept h0).4, (hkept h0).5,
          (hkept h0).6, (hkept h0).7⟩, fun _ hsame => honly trivial ⟨hsame.1, hsame.2, hsame.3,
          hsame.4, hsame.5, hsame.6, hsame.7⟩⟩
      · exact ⟨eraseLine_keptIf.1, fun _ => eraseLine_keptIf.2 trivial⟩
    · refine ⟨fun hnone => ?_, fun hhist _ => absurd (hhist _) hslot⟩
      obtain hnone | ⟨hnone, -⟩ := hnone
      · exact absurd hnone hnewest
      · exact absurd hnone hslot

/-! ### Tab -/

theorem tabScan_some {d : Names} {buf name : ℕ → UInt8} (h : (tabScan d buf n).1 = some name) :
    ∃ i, name = d.filename i := by
  induction n with
  | zero => cases h
  | succ n ih =>
    simp only [tabScan] at h
    split_ifs at h
    · exact ⟨_, (Option.some.inj h).symm⟩
    · exact ih h

theorem nameSize_le (name : ℕ → UInt8) (n size : ℕ) : nameSize name n size ≤ size + n := by
  induction n generalizing size with
  | zero => exact Nat.le_refl _
  | succ n ih =>
    rw [nameSize]
    split_ifs
    · exact Nat.le_add_right ..
    · have hrest := ih (size + 1)
      omega

/-- The characters that Tab types are those of a file name. -/
theorem completion_plain {r : ℕ} (hnames : s.PlainNames)
    (h : s.completion = some (cs, r)) : ∀ c ∈ cs, Plain c := by
  unfold completion at h
  dsimp only at h
  split at h
  · cases h
    simp
  · next name j hname =>
    obtain ⟨part, -, h⟩ := Option.bind_eq_some_iff.1 h
    cases h
    obtain ⟨i, rfl⟩ : ∃ i, name = s.names.filename i := by
      unfold tabCompare at hname
      split_ifs at hname
      · cases hname
      · exact tabScan_some (congrArg Prod.fst hname)
    intro c hc
    obtain ⟨m, hm, rfl⟩ := List.mem_map.1 hc
    have hsize := nameSize_le (s.names.filename i) 32 0
    exact hnames i m (by rw [List.mem_range'_1] at hm; omega)

/-- A character goes into the line if there is room. -/
theorem keyToTer_plain_bim (hc : Plain c) : (s.keyToTer c).termLive = s.termLive ∧
    (s.bim ≤ 129 → s.bim ≤ (s.keyToTer c).bim ∧ (s.keyToTer c).bim ≤ 129 ∧
      (s.bim ≤ 128 → s.bim < (s.keyToTer c).bim)) := by
  by_cases hfull : 128 < s.bim
  · rw [keyToTer_full hc hfull]
    exact ⟨rfl, fun hle => ⟨Nat.le_refl _, hle, fun h => absurd h (Nat.not_le.2 hfull)⟩⟩
  · have hkey : s.keyToTer c = (s.insert c).next := by
      rw [keyToTer, if_neg hc.1, if_neg (not_or.2 hc.2), if_neg hfull]
    have hinsert : (s.insert c).termLive = s.termLive ∧ (s.insert c).bim = s.bim := by
      unfold insert makeRoom
      split_ifs <;> exact ⟨rfl, rfl⟩
    have hbim : (s.keyToTer c).bim = s.bim + 1 := by
      rw [hkey, next, setIndex_bim, hinsert.2, add32_of_lt (by omega)]
    exact ⟨by rw [hkey]; exact hinsert.1, by omega⟩

theorem foldl_plain_bim (hcs : ∀ c ∈ cs, Plain c) : ∀ {s : Tty}, s.bim ≤ 129 →
    (cs.foldl keyToTer s).termLive = s.termLive ∧ s.bim ≤ (cs.foldl keyToTer s).bim := by
  induction cs with
  | nil => exact fun _ => ⟨rfl, Nat.le_refl _⟩
  | cons c cs ih =>
    intro s hle
    obtain ⟨hlive, hbim⟩ := keyToTer_plain_bim (s := s) (hcs c List.mem_cons_self)
    obtain ⟨hle₁, hle₂, -⟩ := hbim hle
    obtain ⟨hlive', hrest⟩ := ih (fun c hc => hcs c (List.mem_cons_of_mem _ hc)) hle₂
    exact ⟨hlive'.trans hlive, Nat.le_trans hle₁ hrest⟩

theorem foldl_full (hcs : ∀ c ∈ cs, Plain c) (hfull : 128 < s.bim) : cs.foldl keyToTer s = s := by
  induction cs with
  | nil => rfl
  | cons c cs ih =>
    rw [List.foldl_cons, keyToTer_full (hcs c List.mem_cons_self) hfull]
    exact ih fun c hc => hcs c (List.mem_cons_of_mem _ hc)

theorem tabComp_keptIf (h : s.tabComp = some s') : KeptIf s s' s.PlainNames s.TypesNothing := by
  obtain ⟨⟨cs, r⟩, hcs, h⟩ := Option.bind_eq_some_iff.1 h
  cases h
  constructor
  · intro hnothing
    obtain rfl | ⟨hfull, hplain⟩ := hnothing cs r hcs
    · exact sameLines_touch
    · have hself : cs.foldl keyToTer (s.touch r) = s.touch r := foldl_full hplain hfull
      rw [hself]
      exact sameLines_touch
  · intro hnames hsame cs' r' hcs'
    obtain ⟨rfl, rfl⟩ : cs = cs' ∧ r = r' := by simpa [hcs] using hcs'
    have hplain := completion_plain hnames hcs
    by_cases hfull : 128 < s.bim
    · exact .inr ⟨hfull, hplain⟩
    · -- a character that is typed makes the line longer
      refine .inl ?_
      cases cs with
      | nil => rfl
      | cons c cs =>
        have hroom : (s.touch r).bim ≤ 128 := Nat.not_lt.1 hfull
        obtain ⟨hlive, hbim⟩ := keyToTer_plain_bim (s := s.touch r) (hplain c List.mem_cons_self)
        obtain ⟨-, hle, hlt⟩ := hbim (by omega)
        obtain ⟨hlive', hrest⟩ := foldl_plain_bim
          (fun c hc => hplain c (List.mem_cons_of_mem _ hc)) hle
        have hmax := congrFun hsame.bufIndexMax s.termLive
        have hgrown := Nat.lt_of_lt_of_le (hlt hroom) hrest
        rw [bim, bim, hlive', hlive] at hgrown
        exact absurd hmax (Nat.ne_of_gt hgrown)

/-! ### Whose lines are recorded -/

/-- The live terminal and the directory stay the same, and so does every history but that of the
live terminal. -/
structure OthersKept (s s' : Tty) : Prop where
  termLive : s'.termLive = s.termLive
  names : s'.names = s.names
  history : ∀ t, t ≠ s.termLive → s'.history t = s.history t

theorem OthersKept.refl (s : Tty) : OthersKept s s := ⟨rfl, rfl, fun _ _ => rfl⟩

theorem OthersKept.trans {s'' : Tty} (h : OthersKept s s') (h' : OthersKept s' s'') :
    OthersKept s s'' :=
  ⟨h'.termLive.trans h.termLive, h'.names.trans h.names, fun t ht =>
    (h'.history t (by rwa [h.termLive])).trans (h.history t ht)⟩

theorem commit_othersKept : OthersKept s s.commit := by
  unfold commit
  split_ifs
  · exact ⟨rfl, rfl, fun t ht => Function.update_of_ne ht ..⟩
  · exact .refl s

theorem endLine_othersKept : OthersKept s (s.endLine c) := by
  unfold endLine
  dsimp only
  generalize hline : ((s.putKey s.bim c).echo _).storeLine = r
  have hstored : OthersKept s r := by
    rw [← hline]
    exact ⟨rfl, rfl, fun _ _ => rfl⟩
  have hcommit := hstored.trans commit_othersKept
  generalize r.commit = r' at hcommit ⊢
  exact ⟨hcommit.termLive, hcommit.names, hcommit.history⟩

theorem enter_othersKept : OthersKept s (s.enter c) := by
  obtain ⟨sc, hskip⟩ := s.skipTail_eq
  rw [enter, hskip]
  have hend := endLine_othersKept (s := { s with screen := sc }) (c := c)
  exact ⟨hend.termLive, hend.names, hend.history⟩

theorem insert_othersKept : OthersKept s (s.insert c) := by
  unfold insert makeRoom
  split_ifs <;> exact ⟨rfl, rfl, fun _ _ => rfl⟩

theorem keyToTer_othersKept : OthersKept s (s.keyToTer c) := by
  unfold keyToTer
  split_ifs
  · exact .refl s
  · constructor <;> simp [backspace, next, setIndex, putKey, echo, touch]
  · exact enter_othersKept
  · exact .refl s
  · have hinsert := insert_othersKept (s := s) (c := c)
    exact ⟨hinsert.termLive, hinsert.names, hinsert.history⟩

theorem foldl_othersKept : OthersKept s (cs.foldl keyToTer s) := by
  induction cs generalizing s with
  | nil => exact .refl s
  | cons c cs ih => exact keyToTer_othersKept.trans ih

theorem typeEntry_othersKept {i : ℕ} : OthersKept s (typeEntry n i s) := by
  induction n generalizing i s with
  | zero => exact .refl s
  | succ n ih =>
    rw [typeEntry]
    split_ifs
    · exact .refl s
    · exact keyToTer_othersKept.trans ih

theorem setArrow_othersKept : OthersKept s (s.setArrow n) := ⟨rfl, rfl, fun _ _ => rfl⟩

theorem recall_othersKept : OthersKept s (typeEntry bufMax 0 (s.setArrow n).eraseLine) :=
  setArrow_othersKept.trans (foldl_othersKept.trans typeEntry_othersKept)

theorem histUp_othersKept : OthersKept s s.histUp := by
  unfold histUp
  dsimp only
  split_ifs
  · exact .refl s
  · exact recall_othersKept

theorem histDown_othersKept : OthersKept s s.histDown := by
  unfold histDown
  dsimp only
  split_ifs
  · exact .refl s
  · exact setArrow_othersKept.trans foldl_othersKept
  · exact foldl_othersKept
  · exact recall_othersKept

theorem moveLeft_history : s.moveLeft.history = s.history := by
  unfold moveLeft
  split_ifs <;> rfl

theorem moveRight_history : s.moveRight.history = s.history := by
  unfold moveRight
  split_ifs <;> rfl

theorem moveLeft_othersKept : OthersKept s s.moveLeft := by
  unfold moveLeft
  split_ifs <;> exact ⟨rfl, rfl, fun _ _ => rfl⟩

theorem moveRight_othersKept : OthersKept s s.moveRight := by
  unfold moveRight
  split_ifs <;> exact ⟨rfl, rfl, fun _ _ => rfl⟩

theorem eraseLine_history : s.eraseLine.history = s.history :=
  (foldl_history fun c hc => by rw [List.eq_of_mem_replicate hc]; decide).1

/-- With nothing to recall the arrows type nothing that could be recorded. -/
theorem histDown_history (h : s.NoHistory) : s.histDown.history = s.history := by
  unfold histDown
  dsimp only
  split_ifs with _ hslot
  · rfl
  · exact eraseLine_history
  · exact eraseLine_history
  · exact absurd (h _) hslot

theorem tabComp_history (hnames : s.PlainNames) (h : s.tabComp = some s') :
    s'.history = s.history := by
  obtain ⟨⟨cs, r⟩, hcs, h⟩ := Option.bind_eq_some_iff.1 h
  cases h
  have hplain := completion_plain hnames hcs
  exact (foldl_history (s := s.touch r) fun c hc => not_or.2 (hplain c hc).2).1

theorem tabComp_othersKept (h : s.tabComp = some s') : OthersKept s s' := by
  obtain ⟨⟨cs, r⟩, hcs, h⟩ := Option.bind_eq_some_iff.1 h
  cases h
  have htouch : OthersKept s (s.touch r) := ⟨rfl, rfl, fun _ _ => rfl⟩
  exact htouch.trans foldl_othersKept

end Tty

/-! ### Every key -/

section Kept

variable {s s' : Tty} {b b' q q' : Prop}

theorem KeptIf.congr (h : KeptIf s s' b q) (hb : b' → b) (hq : q ↔ q') : KeptIf s s' b' q' :=
  ⟨fun h' => h.1 (hq.2 h'), fun h' hsame => hq.1 (h.2 (hb h') hsame)⟩

theorem keptIf_self (hq : q) : KeptIf s s b q := ⟨fun _ => Tty.sameLines_refl, fun _ _ => hq⟩

end Kept

namespace Keyboard

variable {k k' : Keyboard} {code key : UInt8}

theorem setPaint_eq (k : Keyboard) (code : UInt8) :
    ∃ c z, k.setPaint code = { k with paintColor := c, paintSize := z } := by
  unfold setPaint
  split_ifs
  · exact ⟨_, k.paintSize, rfl⟩
  · exact ⟨k.paintColor, _, rfl⟩
  · exact ⟨k.paintColor, k.paintSize, rfl⟩
  · exact ⟨k.paintColor, k.paintSize, rfl⟩

/-- The first half of the handler changes neither the lines nor whether the key is quiet. -/
theorem setFlags_quiet (k : Keyboard) (code : UInt8) :
    ((k.setPaint code).setFlags code).tty = k.tty ∧
      (((k.setPaint code).setFlags code).Quiet code ↔ k.Quiet code) := by
  obtain ⟨c, z, hpaint⟩ := k.setPaint_eq code
  rw [hpaint]
  refine ⟨rfl, ?_⟩
  by_cases hl : code = 0x26
  · subst hl
    rfl
  · simp [Quiet, setFlags, hl]

theorem deliver_tty (h : k.tty.termLive ≠ 1 ∨ key = 0) : (k.deliver key).tty = k.tty := by
  have hsteer : (k.steer key).tty = k.tty := by
    unfold steer
    split_ifs <;> rfl
  have hgame : (if k.tty.termLive = 2 ∧ key ≠ 0 then k.steer key else k).tty = k.tty := by
    split_ifs
    · exact hsteer
    · rfl
  unfold deliver
  dsimp only
  rw [hgame, if_neg]
  · exact hgame
  · rintro ⟨hlive, hkey⟩
    exact h.elim (fun h => h hlive) hkey

theorem deliver_othersKept : k.tty.OthersKept (k.deliver key).tty := by
  by_cases h : k.tty.termLive ≠ 1 ∨ key = 0
  · rw [deliver_tty h]
    exact .refl _
  · obtain ⟨hlive, hkey⟩ := not_or.1 h
    have hshell : (k.deliver key).tty = k.tty.keyToTer key := by
      simp [deliver, not_not.1 hlive, hkey]
    rw [hshell]
    exact Tty.keyToTer_othersKept

/-- What the chain does to the terminals. -/
inductive Dispatched (k : Keyboard) (code : UInt8) : Tty → Prop
  | tab {s : Tty} (hcode : code = 0x0F) (hs : k.tty.tabComp = some s) : Dispatched k code s
  | up (hcode : code = 0x48) : Dispatched k code k.tty.histUp
  | down (hcode : code = 0x50) : Dispatched k code k.tty.histDown
  | left (hcode : code = 0x4B) : Dispatched k code k.tty.moveLeft
  | right (hcode : code = 0x4D) : Dispatched k code k.tty.moveRight
  | clear (hcode : code = 0x26) (hctrl : k.ctrlFlag) (htext : ¬ k.isModex ∧ ¬ k.isPacman) :
      Dispatched k code k.tty.clear
  | nothing (hquiet : k.Quiet code) : Dispatched k code k.tty

theorem dispatch_cases (h : k.dispatch code = some (k', key)) :
    k.Dispatched code k'.tty ∧ (k'.tty = k.tty ∨ key = 0) := by
  unfold dispatch at h
  by_cases hup : code > 0x80
  · rw [if_pos hup] at h
    cases h
    have hne : ∀ c : UInt8, ¬ c > 0x80 → code ≠ c := fun c hc e => hc (e ▸ hup)
    exact ⟨.nothing (by simp [Quiet, hne]), .inl rfl⟩
  rw [if_neg hup] at h
  by_cases htab : code = 0x0F
  · rw [if_pos htab] at h
    obtain ⟨s, hs, h⟩ := Option.bind_eq_some_iff.1 h
    cases h
    exact ⟨.tab htab hs, .inr rfl⟩
  rw [if_neg htab] at h
  by_cases hu : code = 0x48
  · rw [if_pos hu] at h
    cases h
    exact ⟨.up hu, .inr rfl⟩
  rw [if_neg hu] at h
  by_cases hd : code = 0x50
  · rw [if_pos hd] at h
    cases h
    exact ⟨.down hd, .inr rfl⟩
  rw [if_neg hd] at h
  by_cases hleft : code = 0x4B
  · rw [if_pos hleft] at h
    cases h
    exact ⟨.left hleft, .inr rfl⟩
  rw [if_neg hleft] at h
  by_cases hright : code = 0x4D
  · rw [if_pos hright] at h
    cases h
    exact ⟨.right hright, .inr rfl⟩
  rw [if_neg hright] at h
  -- what is left is Ctrl-L and the keys that do not touch a line
  by_cases hclear : k.ctrlFlag ∧ code = 0x26
  · rw [if_pos hclear] at h
    split_ifs at h with htext
    · cases h
      exact ⟨.clear hclear.2 hclear.1 htext, .inr rfl⟩
    · cases h
      exact ⟨.nothing (by simp_all [Quiet]), .inl rfl⟩
  rw [if_neg hclear] at h
  have hquiet : k.Quiet code := by
    simp only [Quiet, htab, hu, hd, hleft, hright, false_implies, true_and]
    exact fun hl hctrl => absurd ⟨hctrl, hl⟩ hclear
  split_ifs at h
  all_goals
    cases h
    exact ⟨.nothing hquiet, .inl rfl⟩

/-- Every branch of the chain, whatever terminal is live. -/
theorem Dispatched.keptIf {s : Tty} (h : k.Dispatched code s) :
    KeptIf k.tty s (k.TypesAhead code) (k.Quiet code) := by
  cases h with
  | tab hcode hs =>
    exact (Tty.tabComp_keptIf hs).congr (fun hb => hb.1 hcode) (by simp [Quiet, hcode])
  | up hcode =>
    exact Tty.histUp_keptIf.congr (fun hb => hb.2 (.inl hcode)) (by simp [Quiet, hcode])
  | down hcode =>
    exact Tty.histDown_keptIf.congr (fun hb => hb.2 (.inr hcode)) (by simp [Quiet, hcode])
  | left hcode => exact Tty.moveLeft_keptIf.congr (fun _ => trivial) (by simp [Quiet, hcode])
  | right hcode => exact Tty.moveRight_keptIf.congr (fun _ => trivial) (by simp [Quiet, hcode])
  | clear hcode hctrl htext =>
    exact Tty.clear_keptIf.congr (fun _ => trivial) (by simp_all [Quiet])
  | nothing hquiet => exact keptIf_self hquiet

/-- The chain records a line of the live terminal only by recalling one or through a file name. -/
theorem Dispatched.othersKept {s : Tty} (h : k.Dispatched code s) : k.tty.OthersKept s ∧
    (k.tty.PlainNames → k.tty.NoHistory → s.history = k.tty.history) := by
  cases h with
  | tab hcode hs => exact ⟨Tty.tabComp_othersKept hs, fun hnames _ => Tty.tabComp_history hnames hs⟩
  | up hcode =>
    exact ⟨Tty.histUp_othersKept, fun _ hhist => by rw [Tty.histUp_eq_self (hhist _)]⟩
  | down hcode => exact ⟨Tty.histDown_othersKept, fun _ hhist => Tty.histDown_history hhist⟩
  | left hcode =>
    have hsame := Tty.moveLeft_history (s := k.tty)
    exact ⟨Tty.moveLeft_othersKept, fun _ _ => hsame⟩
  | right hcode =>
    have hsame := Tty.moveRight_history (s := k.tty)
    exact ⟨Tty.moveRight_othersKept, fun _ _ => hsame⟩
  | clear hcode hctrl htext =>
    obtain ⟨sc, -, -, hclear⟩ := k.tty.clear_eq
    rw [hclear]
    exact ⟨⟨rfl, rfl, fun _ _ => rfl⟩, fun _ _ => rfl⟩
  | nothing hquiet => exact ⟨.refl _, fun _ _ => rfl⟩

/-- A key is dispatched, and its character delivered. -/
theorem keyHandler_cases (h : k.keyHandler code = some k') :
    ∃ (k₁ : Keyboard) (key : UInt8), k' = k₁.deliver key ∧
      ((k.setPaint code).setFlags code).Dispatched code k₁.tty ∧ (k₁.tty = k.tty ∨ key = 0) := by
  unfold keyHandler at h
  split_ifs at h
  obtain ⟨⟨k₁, key⟩, hdispatch, h⟩ := Option.bind_eq_some_iff.1 h
  cases h
  obtain ⟨hcases, hkey⟩ := dispatch_cases hdispatch
  rw [(k.setFlags_quiet code).1] at hkey
  exact ⟨k₁, key, rfl, hcases, hkey⟩

theorem keyHandler_keptIf (hlive : k.tty.termLive ≠ 1) (h : k.keyHandler code = some k') :
    KeptIf k.tty k'.tty (k.TypesAhead code) (k.Quiet code) := by
  obtain ⟨k₁, key, rfl, hcases, hkey⟩ := keyHandler_cases h
  obtain ⟨htty, hquiet⟩ := k.setFlags_quiet code
  have hkept := hcases.keptIf
  rw [hquiet, TypesAhead, htty] at hkept
  rwa [deliver_tty (hkey.imp_left fun hsame => by rwa [hsame])]

/-- **The keyboard without a shell on the screen.**  A key that neither switches terminals nor halts
a process leaves the lines of all terminals alone if it is quiet, and only then, unless it is Up or
Down with lines to recall or Tab with control characters in the names. -/
theorem keyHandler_sameLines (hlive : k.tty.termLive ≠ 1) (h : k.keyHandler code = some k') :
    (k.Quiet code → SameLines k.tty k'.tty) ∧
      (k.TypesAhead code → (SameLines k.tty k'.tty ↔ k.Quiet code)) := by
  obtain ⟨hkept, honly⟩ := keyHandler_keptIf hlive h
  exact ⟨hkept, fun hahead => ⟨honly hahead, hkept⟩⟩

/-- The keyboard at boot, on a directory and a screen, with the terminal `t` live. -/
def boot (t : ℕ) (names : Names) (screen : Screen) : Keyboard where
  tty := .boot t names screen
  termPit := t
  isModex := true
  isPacman := false
  shellLive := false
  shiftFlag := false
  ctrlFlag := false
  capsFlag := false
  altFlag := false
  paintColor := 0x01
  paintSize := 3
  lastKey := 1
  isPlaying := false
  behind _ _ := 0

/-- The directory with the one file `a`. -/
def oneFile : Names := ⟨1, fun _ j => if j = 0 then 0x61 else 0⟩

/-- Tab under the desktop types the name of the file; then Right leaves the lines alone, and Left
does not. -/
theorem keyHandler_sameLines_tab : ∃ k₁ k₂ k₃, (boot 0 oneFile .boot).keyHandler 0x0F = some k₁ ∧
    k₁.keyHandler 0x4D = some k₂ ∧ SameLines k₁.tty k₂.tty ∧
    k₁.keyHandler 0x4B = some k₃ ∧ ¬ SameLines k₁.tty k₃.tty := by
  have htab : ((boot 0 oneFile .boot).keyHandler 0x0F).map (fun k => (k.tty.termLive, k.tty.bi,
      k.tty.bim, (k.keyHandler 0x4D).isSome, (k.keyHandler 0x4B).isSome)) =
        some (0, 1, 1, true, true) := by
    decide +kernel
  obtain ⟨k₁, hk₁, hvalues⟩ := Option.map_eq_some_iff.1 htab
  simp only [Prod.mk.injEq] at hvalues
  obtain ⟨hlive, hbi, hbim, hright, hleft⟩ := hvalues
  obtain ⟨k₂, hk₂⟩ := Option.isSome_iff_exists.1 hright
  obtain ⟨k₃, hk₃⟩ := Option.isSome_iff_exists.1 hleft
  have hne : k₁.tty.termLive ≠ 1 := by rw [hlive]; decide
  have hquiet : k₁.Quiet 0x4D := by simp [Quiet, hbi, hbim]
  have hbusy : ¬ k₁.Quiet 0x4B := by simp [Quiet, hbi]
  have hahead : k₁.TypesAhead 0x4B := by simp [TypesAhead]
  exact ⟨k₁, k₂, k₃, hk₁, hk₂, (keyHandler_sameLines hne hk₂).1 hquiet, hk₃,
    fun hsame => hbusy (((keyHandler_sameLines hne hk₃).2 hahead).1 hsame)⟩

/-- The Tab key under the desktop types the name of the file. -/
theorem not_keyHandler_sameLines : ¬ ∀ (k k' : Keyboard) (code : UInt8), k.tty.termLive ≠ 1 →
    k.keyHandler code = some k' → SameLines k.tty k'.tty := by
  intro h
  have htyped : ((boot 0 oneFile .boot).keyHandler 0x0F).map (fun k => k.tty.bufIndexMax 0) =
      some 1 := by decide +kernel
  obtain ⟨k', hk', hmax⟩ := Option.map_eq_some_iff.1 htyped
  have hsame := congrFun (h _ k' _ (by decide) hk').bufIndexMax 0
  rw [hmax] at hsame
  cases hsame

/-! ### Runs -/

theorem keyHandler_othersKept (h : k.keyHandler code = some k') :
    k.tty.OthersKept k'.tty ∧ (k.tty.termLive ≠ 1 → k.tty.PlainNames → k.tty.NoHistory →
      k'.tty.history = k.tty.history) := by
  obtain ⟨k₁, key, rfl, hcases, -⟩ := keyHandler_cases h
  obtain ⟨hothers, hhist⟩ := hcases.othersKept
  rw [(k.setFlags_quiet code).1] at hothers hhist
  refine ⟨hothers.trans deliver_othersKept, fun hlive hnames hnone => ?_⟩
  rw [deliver_tty (.inl (by rwa [hothers.termLive])), hhist hnames hnone]

/-- A scancode, or what the rest of the kernel does between two scancodes. -/
inductive KeyboardEvent
  | key (code : UInt8)
  | other (k : Keyboard)

/-- The keyboard while the kernel runs: `history` is written by the keys alone, and the names of the
files by nothing. -/
def keyboardMachine : Machine Keyboard KeyboardEvent where
  step k
    | .key code => k.keyHandler code
    | .other k' => some { k' with
        tty := { k'.tty with history := k.tty.history, names := k.tty.names } }

theorem shellHistory_step {l : KeyboardEvent} (hst : keyboardMachine.step k l = some k')
    (h : k.tty.PlainNames ∧ k.tty.ShellHistory) : k'.tty.PlainNames ∧ k'.tty.ShellHistory := by
  obtain ⟨hnames, hshell⟩ := h
  cases l with
  | key code =>
    obtain ⟨hothers, hhist⟩ := keyHandler_othersKept hst
    refine ⟨by rwa [Tty.PlainNames, hothers.names], fun t ht e => ?_⟩
    by_cases hlive : t = k.tty.termLive
    · -- the characters of the live terminal are echoed under the shell alone
      subst hlive
      rw [hhist ht hnames (hshell _ ht)]
      exact hshell _ ht e
    · rw [hothers.history t hlive]
      exact hshell t ht e
  | other k₁ =>
    cases hst
    exact ⟨hnames, hshell⟩

/-- **From a state in which only the shell has a history, with plain names**, a key leaves the lines
of all terminals alone exactly if it is quiet, whenever the shell is not on the screen. -/
theorem sameLines_iff_quiet {k₀ : Keyboard} (hnames : k₀.tty.PlainNames)
    (hshell : k₀.tty.ShellHistory) (hreach : keyboardMachine.Reachable k₀ k)
    (hlive : k.tty.termLive ≠ 1) (h : k.keyHandler code = some k') :
    SameLines k.tty k'.tty ↔ k.Quiet code := by
  obtain ⟨hnames', hshell'⟩ := hreach.invariant
    (I := fun k => k.tty.PlainNames ∧ k.tty.ShellHistory) ⟨hnames, hshell⟩
    fun _ _ _ hI _ hst => shellHistory_step hst hI
  obtain ⟨hkept, honly⟩ := keyHandler_keptIf hlive h
  exact ⟨honly ⟨fun _ => hnames', fun _ => hshell' _ hlive⟩, hkept⟩

end Keyboard

end KTeamOS
