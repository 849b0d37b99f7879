import KTeamOS.File.Directory

/-!
# Processes and terminals

`execute`, `halt`, the two context switches and the interrupts that reach them.  A step is one
system call or one interrupt; it has no result where the source goes on with a pointer or a stack
that was never stored, or writes behind one of its buffers.

The contents of user pages, of the screen and of the line buffers are not part of the state; what a
saved stack leads to is a `Ctx`.

## Main definitions

* `Kernel` : the variables, and which code runs.
* `Kernel.execute`, `Kernel.halt`, `Kernel.contextSwitch`, `Kernel.contextSwitchPit`.
* `kernelMachine` : the system under `SysEvent`s.
-/

namespace KTeamOS

/-- `term_t` -/
structure Term where
  activeFlag : ℕ
  pcbLive : Option ℕ
  /-- The stack that `saved_esp` and `saved_ebp` point to. -/
  saved : Option Ctx
  deriving DecidableEq

/-- The variables of the system. -/
structure Kernel where
  files : Files
  termLive : ℕ
  termPit : ℕ
  term : ℕ → Term
  pidMax : ℕ
  argBuf : ℕ → UInt8
  /-- The blocks, by address. -/
  pcb : ℕ → Pcb
  /-- The frame of `page_directory[EXE_IDX]`, if it is present. -/
  exePage : Option ℕ
  /-- `tss.esp0` -/
  esp0 : ℕ
  /-- The frame of `vidmap_table[KVID_IDX]`. -/
  vidmap : ℕ
  isModex : ℕ
  isPacman : ℕ
  /-- What runs. -/
  cpu : Ctx
  /-- Not part of the source: the processes of each terminal, the last one first. -/
  procs : ℕ → List Process
  /-- Not part of the source: the number of processes started. -/
  serial : ℕ
  /-- Not part of the source: the arguments of the last call of `execute`. -/
  lastArgs : List UInt8

/-- What `execute` finds on its stack in the variables that it does not set. -/
structure Stale where
  pcb : Pcb
  buffer : ℕ → UInt8

/-! ### Commands -/

namespace CString

/-- The part of a command before its first space. -/
def word (c : CString) : CString where
  chars := c.chars.takeWhile (· ≠ 0x20)
  zero_notMem h := c.zero_notMem ((List.takeWhile_prefix _).subset h)

/-- The part of a command behind its first space. -/
def args (c : CString) : CString where
  chars := (c.chars.dropWhile (· ≠ 0x20)).tail
  zero_notMem h := c.zero_notMem ((List.dropWhile_suffix _).subset (List.mem_of_mem_tail h))

end CString

/-- `strcpy` -/
def strcpy (buf : ℕ → UInt8) (s : CString) : ℕ → UInt8 :=
  fun i => if i ≤ s.chars.length then s.mem i else buf i

/-- The four magic numbers of an executable. -/
def Magic (buffer : ℕ → UInt8) : Prop :=
  buffer 0 = 0x7F ∧ buffer 1 = 0x45 ∧ buffer 2 = 0x4C ∧ buffer 3 = 0x46

instance (buffer : ℕ → UInt8) : Decidable (Magic buffer) := inferInstanceAs (Decidable (_ ∧ _))

/-- `K_STACK_PTR-(EIGHT_KB*pid)-4` -/
def kStackOf (pid : ℕ) : ℕ := 0x800000 - 8192 * pid - 4

/-- Where `execute` puts the block of a process. -/
def pcbAddr (pid : ℕ) : ℕ := kStackOf pid + 4 - 8192

/-- The frame that `set_page(pid)` selects. -/
def pageOf4mb (pid : ℕ) : ℕ := (pid + 2) % 1024

/-- `KVID_IDX` -/
abbrev kvidIdx : ℕ := 0xB8

namespace Kernel

/-! ### Parts of the state -/

/-- Another record for a terminal. -/
def setTerm (k : Kernel) (t : ℕ) (x : Term) : Kernel :=
  { k with term := Function.update k.term t x }

/-- Another process in front of a terminal. -/
def setPcbLive (k : Kernel) (t : ℕ) (a : Option ℕ) : Kernel :=
  k.setTerm t { k.term t with pcbLive := a }

/-- The context that the timer has saved for a terminal. -/
def setSaved (k : Kernel) (t : ℕ) (c : Option Ctx) : Kernel :=
  k.setTerm t { k.term t with saved := c }

/-- Whether a terminal has been started. -/
def setActive (k : Kernel) (t v : ℕ) : Kernel := k.setTerm t { k.term t with activeFlag := v }

/-- Another control block at an address. -/
def setPcb (k : Kernel) (a : ℕ) (p : Pcb) : Kernel := { k with pcb := Function.update k.pcb a p }

/-- `set_page` -/
def setPage (k : Kernel) (pid : ℕ) : Kernel := { k with exePage := some (pageOf4mb pid) }

/-- `term[term_pit].pcb_live` -/
abbrev running (k : Kernel) : Option ℕ := (k.term k.termPit).pcbLive

/-- `term[term_live].pcb_live` -/
abbrev parentOf (k : Kernel) : Option ℕ := (k.term k.termLive).pcbLive

/-! ### `execute` -/

/-- The two parts of the command; each has a buffer of fixed size. -/
def setArgs (k : Kernel) (command : CString) : Option Kernel :=
  if command.word.chars.length ≥ 32 ∨ command.args.chars.length ≥ 200 then none
  else
    some { k with
      argBuf := if 0x20 ∈ command.chars then strcpy k.argBuf command.args
        else Function.update (Function.update k.argBuf 0 0) 1 0
      lastArgs := command.args.chars }

/-- The block that `execute` builds: `parent` is the block of the live terminal. -/
def newPcb (k : Kernel) (entry : ℕ) (stale : Pcb) : Pcb :=
  let root := (k.termLive = 1 ∨ k.termLive = 2) ∧ k.parentOf = none
  { stale with
    pid := k.pidMax + 1
    parent := if root then (k.term 0).pcbLive else k.parentOf
    shellFlag := if root then 1 else stale.shellFlag
    entryPoint := entry
    saveStack := none
    kStackPtr := kStackOf (k.pidMax + 1) }

/-- What `execute`, called by `caller`, writes into the parent's block. -/
def adopt (k : Kernel) (caller : Ctx) (child : ℕ) (parent : Option ℕ) (pcb : Pcb) : Kernel :=
  match parent with
  | none => k.setPcb child pcb
  | some q =>
    let k := k.setPcb q { k.pcb q with saveStack := some caller }
    let k := k.setPcb child pcb
    k.setPcb q { k.pcb q with child := some child }

/-- The part of `execute` that follows its checks. -/
def startProcess (k : Kernel) (caller : Ctx) (entry : ℕ) (stale : Pcb) : Kernel :=
  let k := k.setPage k.pidMax
  let pcb := k.newPcb entry stale
  let a := pcbAddr pcb.pid
  let k := (k.adopt caller a k.parentOf pcb).setPcbLive k.termLive (some a)
  let k := k.setPcb a (k.pcb a).initDescs
  let p : Process := ⟨k.serial, pcb.pid, k.lastArgs⟩
  { k with
    pidMax := pcb.pid
    esp0 := pcb.kStackPtr
    cpu := .user p
    procs := Function.update k.procs k.termLive (p :: k.procs k.termLive)
    serial := k.serial + 1 }

/-- The first bytes of the file that `get_entry` points to, over what was on the stack. -/
def header (f : Files) (stale : ℕ → UInt8) : Option (ℕ → UInt8) :=
  f.entry.map fun e => (f.readData e.inodeNum 0 stale 40).1

/-- `execute`, called by `caller`: the state afterwards, and what it returns unless it enters user
code. -/
def execute (k : Kernel) (caller : Ctx) (command : CString) (stale : Stale) :
    Option (Kernel × Option ℤ) := do
  let k ← k.setArgs command
  if k.pidMax ≥ 6 then some (k, some 256)
  else
    match k.files.fileOpen command.word.mem with
    | none => some (k, some (-1))
    | some f => do
      let k := { k with files := f }
      let buffer ← header f stale.buffer
      if Magic buffer then some (k.startProcess caller (le32 buffer 24) stale.pcb, none)
      else some (k, some (-1))

/-! ### Switches -/

/-- `shell` -/
def shellName : CString := ⟨[0x73, 0x68, 0x65, 0x6C, 0x6C], by decide⟩

/-- `pacman` -/
def pacmanName : CString := ⟨[0x70, 0x61, 0x63, 0x6D, 0x61, 0x6E], by decide⟩

/-- `gui` -/
def guiName : CString := ⟨[0x67, 0x75, 0x69], by decide⟩

/-- `context_switch` from a terminal without a process, where it starts one. -/
def launch (k : Kernel) (caller : Ctx) (newTerm : ℕ) (stale : Stale) : Option Kernel :=
  let k := (k.setActive newTerm 1).setSaved k.termPit (some caller)
  let k := { k with termPit := newTerm }
  if newTerm = 1 then (k.execute caller shellName stale).map Prod.fst
  else if newTerm = 2 then (k.execute caller pacmanName stale).map Prod.fst
  else some k

/-- The terminal is not the first one, and no other than the first is active. -/
def Drops (k : Kernel) (newTerm : ℕ) : Prop :=
  (newTerm = 1 ∨ newTerm = 2) ∧ (k.term 1).activeFlag = 0 ∧ (k.term 2).activeFlag = 0

instance (k : Kernel) (n : ℕ) : Decidable (k.Drops n) := inferInstanceAs (Decidable (_ ∧ _))

/-- What `context_switch` does to the saved stack of the first terminal. -/
def dropSaved (k : Kernel) (newTerm : ℕ) : Kernel :=
  if k.Drops newTerm then k.setSaved 0 none else k

/-- `context_switch`, called by `caller`. -/
def contextSwitch (k : Kernel) (caller : Ctx) (oldTerm newTerm : ℕ) (stale : Stale) :
    Option Kernel :=
  if oldTerm = newTerm then some k
  else
    let k := { k with termLive := newTerm }.dropSaved newTerm
    if (k.term newTerm).pcbLive = none then k.launch caller newTerm stale
    else some k

/-- `context_switch_pit` to a terminal with the block at `a`. -/
def contextSwitchPit (k : Kernel) (newTerm a : ℕ) : Option Kernel :=
  if k.termPit = newTerm then some k
  else do
    let k := { k.setSaved k.termPit (some k.cpu) with termPit := newTerm }
    let k := k.setPage ((k.pcb a).pid - 1)
    let c ← (k.term newTerm).saved
    some { k with
      esp0 := (k.pcb a).kStackPtr
      vidmap := if k.termLive = k.termPit then kvidIdx else newTerm + 0xD1
      cpu := c }

/-- The terminals in the order in which `pit_irq` looks at them. -/
def nextTerms (k : Kernel) : List ℕ :=
  [(k.termPit + 1) % 3, (k.termPit + 2) % 3, (k.termPit + 3) % 3]

/-- `pit_irq` : the next terminal with a process runs, if there is one. -/
def pitIrq (k : Kernel) : Option Kernel :=
  match k.nextTerms.find? fun t => (k.term t).pcbLive ≠ none with
  | none => some k
  | some t => do
    let a ← (k.term t).pcbLive
    k.contextSwitchPit t a

/-! ### `halt` -/

/-- One round of the loop of `halt` over the descriptors. -/
def closeFd (k : Kernel) (a fd : ℕ) : Kernel :=
  if ((k.pcb a).fileDesc fd).flags = 1 then
    let r := k.files.sysClose (k.pcb a) fd
    { k with files := r.1 }.setPcb a r.2.1
  else k

/-- The loop of `halt` over the descriptors of the block at `a`. -/
def closeAll (k : Kernel) (a : ℕ) : Kernel := (List.range' 2 6).foldl (fun k fd => k.closeFd a fd) k

/-- The first branch of `halt`, for the process with the block at `a`. -/
def haltShell (k : Kernel) (a : ℕ) : Option Kernel := do
  let k := k.closeAll a
  let t := k.termPit
  let k := (k.setActive t 0).setPcbLive t none
  let k := { k with
    pidMax := sub32 k.pidMax 1
    procs := Function.update k.procs t [] }
  -- there is no process to start on the first terminal, and what is on the stack is not read
  let k ← k.contextSwitch .spin t 0 ⟨k.pcb a, fun _ => 0⟩
  let k := k.setSaved k.termPit none
  some { k with
    isModex := if k.isModex = 0 then 1 else k.isModex
    cpu := .spin }

/-- `halt` of a process without a parent: its own last call of `execute` returns. -/
def haltRoot (k : Kernel) (a : ℕ) : Option Kernel := do
  let c ← (k.pcb a).saveStack
  some { k with
    esp0 := (k.pcb a).kStackPtr - 8192
    pidMax := sub32 k.pidMax 1
    cpu := c }

/-- `halt` of a process with the parent's block at `q`. -/
def haltChild (k : Kernel) (a q : ℕ) : Option Kernel := do
  let k := (k.closeAll a).setPcbLive k.termPit (some q)
  let k := k.setPage ((k.pcb q).pid - 1)
  let c ← (k.pcb q).saveStack
  some { k with
    esp0 := (k.pcb q).kStackPtr
    pidMax := sub32 k.pidMax 1
    procs := Function.update k.procs k.termPit (k.procs k.termPit).tail
    cpu := c }

/-- `halt` : a shell that a terminal was started with has no parent to go back to. -/
def halt (k : Kernel) : Option Kernel := do
  let a ← k.running
  if (k.pcb a).shellFlag = 1 then k.haltShell a
  else
    match (k.pcb a).parent with
    | none => k.haltRoot a
    | some q => k.haltChild a q

/-! ### Interrupts and calls -/

/-- Alt-F1 -/
def keyF1 (k : Kernel) (stale : Stale) : Option Kernel :=
  if k.isPacman = 0 then do
    let k ← k.contextSwitch k.cpu k.termLive 0 stale
    some { k with isModex := if k.isModex = 0 then 1 else k.isModex }
  else some k

/-- Alt-F2 -/
def keyF2 (k : Kernel) (stale : Stale) : Option Kernel :=
  if k.isPacman = 0 then
    if k.termLive = 2 ∧ (k.term 1).pcbLive = none then some k
    else
      let k := { k with isModex := if k.isModex = 1 then 0 else k.isModex }
      k.contextSwitch k.cpu k.termLive 1 stale
  else some k

/-- Escape -/
def keyEsc (k : Kernel) : Option Kernel :=
  if k.termLive = 2 ∧ k.termPit = 2 then { k with isPacman := 0 }.halt else some k

/-- The release of the button over the icon of the text terminal. -/
def mouseTerm (k : Kernel) (stale : Stale) : Option Kernel :=
  if k.isModex = 0 ∨ k.isPacman = 1 then some k
  else { k with isModex := 0 }.contextSwitch k.cpu k.termLive 1 stale

/-- The release of the button over the icon of the game. -/
def mousePacman (k : Kernel) (stale : Stale) : Option Kernel :=
  if k.isModex = 0 ∨ k.isPacman = 1 then some k
  else { k with isPacman := 1 }.contextSwitch k.cpu k.termLive 2 stale

end Kernel

/-- The system calls of the running process, and the interrupts. -/
inductive SysEvent
  | execute (command : CString) (stale : Stale)
  | halt
  | getargs
  | openName (name : CString)
  | close (fd : ℤ)
  | read (fd : ℤ) (buf : ℕ → UInt8) (nbytes : ℕ)
  | vidmap
  | pit
  | keyF1 (stale : Stale)
  | keyF2 (stale : Stale)
  | keyEsc
  | mouseTerm (stale : Stale)
  | mousePacman (stale : Stale)

namespace Kernel

/-- `read` of at least 0 bytes, for the process with the block at `a`. -/
def readFd (k : Kernel) (a : ℕ) (fd : ℤ) (buf : ℕ → UInt8) (nbytes : ℕ) : Option Kernel :=
  let p := k.pcb a
  if fd < 0 ∨ fd > 7 then some k
  else if (p.fileDesc fd.toNat).flags = 0 then some k
  else
    match (p.fileDesc fd.toNat).fops with
    | .file => (k.files.fileRead p fd buf nbytes).map fun r => k.setPcb a r.1
    | .dir => some { k with files := (k.files.dirRead buf).1 }
    | .stdin | .stdout | .rtc => some k

/-- A system call of the process `p` that runs. -/
def call (k : Kernel) (p : Process) : SysEvent → Option Kernel
  | .execute command stale => (k.execute (.user p) command stale).map Prod.fst
  | .halt => k.halt
  | .openName name => do
    let a ← k.running
    let (f, pcb, _) ← k.files.sysOpen (k.pcb a) name.mem
    some ({ k with files := f }.setPcb a pcb)
  | .close fd => do
    let a ← k.running
    let (f, pcb, _) := k.files.sysClose (k.pcb a) fd
    some ({ k with files := f }.setPcb a pcb)
  | .read fd buf n => do
    let a ← k.running
    k.readFd a fd buf n
  | .vidmap => some { k with vidmap := kvidIdx }
  | _ => some k

/-- What each event does to the kernel. -/
def step (k : Kernel) : SysEvent → Option Kernel
  | .pit => k.pitIrq
  | .keyF1 stale => k.keyF1 stale
  | .keyF2 stale => k.keyF2 stale
  | .keyEsc => k.keyEsc
  | .mouseTerm stale => k.mouseTerm stale
  | .mousePacman stale => k.mousePacman stale
  | e =>
    match k.cpu with
    | .user p => k.call p e
    | .spin => none

/-- The variables before the first process is started. -/
def init (d : Disk) : Kernel where
  files := fileInit d
  termLive := 0
  termPit := 0
  term t := ⟨if t = 0 then 1 else 0, none, none⟩
  pidMax := 0
  argBuf _ := 0
  pcb _ := ⟨0, none, none, 0, none, 0, 0, 0, fun _ => ⟨.file, 0, 0, 0⟩⟩
  exePage := none
  esp0 := 0x800000
  vidmap := kvidIdx
  isModex := 1
  isPacman := 0
  cpu := .spin
  procs _ := []
  serial := 0
  lastArgs := []

/-- The state in which the kernel leaves `entry`, which ends in a loop when there is no `gui`. -/
def boot (d : Disk) (stale : Stale) : Option Kernel :=
  ((init d).execute .spin guiName stale).map Prod.fst

end Kernel

/-- The system. -/
def kernelMachine : Machine Kernel SysEvent where
  step := Kernel.step

/-! ### A small system -/

/-- `ls` -/
def lsName : CString := ⟨[0x6C, 0x73], by decide⟩

/-- A memory with an image of four programs, which share one inode. -/
def programDisk : Disk where
  byte a :=
    if a = 0 then 4
    else if a = 4 ∨ a = 8 then 1
    else if 64 ≤ a ∧ a < 320 then
      let name := [Kernel.guiName, Kernel.shellName, Kernel.pacmanName, lsName].getD (a / 64 - 1)
        lsName
      if a % 64 < 32 then name.chars.getD (a % 64) 0 else if a % 64 = 32 then 2 else 0
    else if a = 4096 then 40
    else if a < 8192 then 0
    else [0x7F, 0x45, 0x4C, 0x46].getD (a - 8192) 0
  starter := 0

/-- A stack that holds only zeros. -/
def zeroStack : Stale where
  pcb := ⟨0, none, none, 0, none, 0, 0, 0, fun _ => ⟨.file, 0, 0, 0⟩⟩
  buffer _ := 0

end KTeamOS
