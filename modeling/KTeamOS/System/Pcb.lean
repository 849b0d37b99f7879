import Mathlib.Logic.Function.Basic
import KTeamOS.Word.Basic

/-!
# Process control blocks

`pcb_t` and its file descriptors.  What the saved stack and base pointers of a block stand for is
the code that runs once they are loaded again.
-/

namespace KTeamOS

/-- The operation tables. -/
inductive Ops
  | stdin | stdout | rtc | dir | file
  deriving DecidableEq

/-- `file_desc_t` -/
structure FileDesc where
  fops : Ops
  inode : ℕ
  filePos : ℕ
  flags : ℕ
  deriving DecidableEq

/-- A process: the call of `execute` that started it, the pid it got there and its arguments. -/
structure Process where
  serial : ℕ
  pid : ℕ
  args : List UInt8
  deriving DecidableEq

/-- What runs when a saved stack is loaded: the user code of a process, or the loop at the end of
the first branch of `halt`. -/
inductive Ctx
  | user (p : Process) | spin
  deriving DecidableEq

/-- `pcb_t`, with the blocks `parent` and `child` as addresses. -/
structure Pcb where
  pid : ℕ
  parent : Option ℕ
  child : Option ℕ
  entryPoint : ℕ
  /-- The stack that `save_stack_ptr` and `save_base_ptr` point to. -/
  saveStack : Option Ctx
  kStackPtr : ℕ
  shellFlag : ℕ
  currFd : ℕ
  fileDesc : ℕ → FileDesc

namespace Pcb

/-- `file_desc[fd] = d;` -/
def setDesc (p : Pcb) (fd : ℕ) (d : FileDesc) : Pcb :=
  { p with fileDesc := Function.update p.fileDesc fd d }

/-- `file_desc[fd].flags = v;` -/
def setFlags (p : Pcb) (fd v : ℕ) : Pcb := p.setDesc fd { p.fileDesc fd with flags := v }

/-- `file_desc[fd].fops = &o;` -/
def setFops (p : Pcb) (fd : ℕ) (o : Ops) : Pcb := p.setDesc fd { p.fileDesc fd with fops := o }

variable {p : Pcb} {fd fd' v : ℕ} {d : FileDesc}

@[simp] theorem setDesc_self : (p.setDesc fd d).fileDesc fd = d := Function.update_self ..

theorem setDesc_of_ne (h : fd' ≠ fd) : (p.setDesc fd d).fileDesc fd' = p.fileDesc fd' :=
  Function.update_of_ne h ..

@[simp] theorem setDesc_setDesc {d' : FileDesc} :
    (p.setDesc fd d).setDesc fd d' = p.setDesc fd d' := by
  simp [setDesc]

/-- The loop of `execute` over `LOWFD` to `HIGHFD - 1`, up to the `n`-th. -/
def freeDescs (p : Pcb) : ℕ → Pcb
  | 0 => p
  | n + 1 => (p.freeDescs n).setFlags (2 + n) 0

/-- The descriptors of a new process. -/
def initDescs (p : Pcb) : Pcb :=
  let p := { p with currFd := 2 }
  let p := (p.setFops 0 .stdin).setFlags 0 1
  let p := (p.setFops 1 .stdout).setFlags 1 1
  p.freeDescs 6

theorem freeDescs_apply {n : ℕ} : (p.freeDescs n).fileDesc fd =
    if 2 ≤ fd ∧ fd < 2 + n then { p.fileDesc fd with flags := 0 } else p.fileDesc fd := by
  induction n with
  | zero => rw [freeDescs, if_neg (by omega)]
  | succ n ih =>
    rw [freeDescs, setFlags]
    by_cases hfd : fd = 2 + n
    · subst hfd
      have hold : (p.freeDescs n).fileDesc (2 + n) = p.fileDesc (2 + n) := by
        rw [ih, if_neg (by omega)]
      rw [setDesc_self, hold, if_pos (by omega)]
    · rw [setDesc_of_ne hfd, ih]
      exact if_congr (by omega) rfl rfl

theorem initDescs_flags (hfd : 2 ≤ fd ∧ fd < 8) : (p.initDescs.fileDesc fd).flags = 0 := by
  rw [initDescs, freeDescs_apply, if_pos (by omega)]

end Pcb

end KTeamOS
