import KTeamOS.Programs.Reading
import KTeamOS.System.Args

/-!
# cat

`main` of `ece391cat.c`, a program that shares the file system with others.  What it has written is
at every moment the beginning of its file, and it ends, after as many reads as the file has pieces
and one more, with all of it written (`cat_prints`).
-/

namespace KTeamOS

namespace Cat

/-- The places in `main` where it calls the kernel. -/
inductive Pc
  /-- At `ece391_open`. -/
  | opening (buf : ℕ → UInt8)
  /-- At `ece391_read`. -/
  | reading (fd : ℤ) (buf : ℕ → UInt8)
  | exited (status : ℤ)

end Cat

/-- The program, and what it has written to the screen. -/
structure Cat where
  pc : Cat.Pc
  out : List UInt8

namespace Cat

/-- `main` behind `ece391_getargs`, which does not fail; `arg_buf` is the kernel's. -/
def main (argBuf buf : ℕ → UInt8) : Cat := ⟨.opening (getargs argBuf buf 1024), []⟩

/-- The string that starts the buffer. -/
def fileName (buf : ℕ → UInt8) : CString := ⟨field buf 1025 0, zero_notMem_field⟩

/-- A message, and the end of the program. -/
def quit (x : Cat) (message : List UInt8) (status : ℤ) : Cat := ⟨.exited status, x.out ++ message⟩

/-- The program with the value of its system call.  `ece391_write` to the screen does not fail. -/
def resume (x : Cat) (a : FileAnswer) : Cat :=
  match x.pc with
  | .opening buf =>
    if a.val = -1 then x.quit (literal "file not found\n") 2 else ⟨.reading a.val buf, x.out⟩
  | .reading fd _ =>
    if a.val = 0 then x.quit [] 0
    else if a.val = -1 then x.quit (literal "file read failed\n") 3
    else ⟨.reading fd a.buf, x.out ++ (List.range a.val.toNat).map a.buf⟩
  | .exited _ => x

/-- Whether the program has ended, and how. -/
def status (x : Cat) : Option ℤ :=
  match x.pc with
  | .exited status => some status
  | .opening _ | .reading .. => none

end Cat

/-- `ece391cat.c` as a client of the kernel. -/
def catProgram : Client FileReq FileAnswer Cat where
  next x :=
    match x.pc with
    | .opening buf => some (.openName (Cat.fileName buf))
    | .reading fd buf => some (.read fd buf 1024)
    | .exited _ => none
  resume := Cat.resume

namespace Cat

/-- The system calls that it takes to print `len` bytes: one to open the file, one for each piece
of 1024 bytes, and one that finds the end. -/
def calls (len : ℕ) : ℕ := (len + 1023) / 1024 + 2

variable {f : Files} {img : Image} {name : CString} {k fd n : ℕ} {p₀ : Pcb} {x y : Pcb × Cat}
  {argBuf buf : ℕ → UInt8}

/-- After `n` calls, the first of which has opened the file: every further one has written a piece,
and a call that is not followed by another has found the end. -/
structure Printing (img : Image) (k fd n : ℕ) (x : Pcb × Cat) : Prop where
  pos : 0 < n
  out : x.2.out = (img.file k).take (1024 * (n - 1))
  reading : n < calls (img.file k).length → ∃ buf, x.2.pc = .reading fd buf ∧
    x.1.OpenAt img fd k (min (1024 * (n - 1)) (img.file k).length)
  exited : calls (img.file k).length ≤ n →
    n = calls (img.file k).length ∧ x.2.pc = .exited 0

/-- `read`, the other calls. -/
theorem Printing.read (hf : f.Mounts img) (h : Printing img k fd n x)
    (hcall : catProgram.callAlone (aloneMachine f) f.reply x = some y) :
    Printing img k fd (n + 1) y := by
  obtain ⟨p, pc, out⟩ := x
  have hpos := h.pos
  have hout : out = (img.file k).take (1024 * (n - 1)) := h.out
  by_cases hend : calls (img.file k).length ≤ n
  · -- the program has ended
    have hpc : pc = .exited 0 := (h.exited hend).2
    subst hpc
    cases hcall
  · obtain ⟨buf, hpc, hopen⟩ := h.reading (by omega)
    change pc = .reading fd buf at hpc
    subst hpc
    obtain ⟨p', buf', hafter, hreply, hbytes, -, hopen'⟩ := Files.read_alone hf hopen buf 1024
    have hlen : (img.piece k (min (1024 * (n - 1)) (img.file k).length) 1024).length =
        min 1024 ((img.file k).length - 1024 * (n - 1)) := by
      rw [Image.length_piece]
      omega
    have hpiece : (img.file k).take (1024 * (n - 1)) ++
        img.piece k (min (1024 * (n - 1)) (img.file k).length) 1024 =
          (img.file k).take (1024 * n) := by
      have hdrop : (img.file k).drop (min (1024 * (n - 1)) (img.file k).length) =
          (img.file k).drop (1024 * (n - 1)) := by
        rcases Nat.le_total (1024 * (n - 1)) (img.file k).length with hle | hle
        · rw [Nat.min_eq_left hle]
        · rw [Nat.min_eq_right hle, List.drop_length, List.drop_eq_nil_of_le hle]
      rw [Image.piece, hdrop, ← List.take_add, show 1024 * (n - 1) + 1024 = 1024 * n by omega]
    simp only [Client.callAlone, catProgram, Option.bind_some, aloneMachine, hafter,
      Option.map_some, Option.some.injEq] at hcall
    subst hcall
    rw [hlen] at hopen' hbytes hreply
    simp only [resume, hreply]
    by_cases hzero : (img.file k).length ≤ 1024 * (n - 1)
    · -- the end of the file
      rw [if_pos (by omega)]
      refine ⟨Nat.succ_pos n, ?_, fun hlt => ?_, fun _ => ⟨?_, rfl⟩⟩
      · rw [Nat.add_sub_cancel, ← hpiece, quit, hout, List.append_nil, Image.piece,
          Nat.min_eq_right hzero, List.drop_length, List.take_nil, List.append_nil]
      · unfold calls at hlt
        omega
      · unfold calls at hend ⊢
        omega
    · rw [if_neg (by omega), if_neg (by omega)]
      refine ⟨Nat.succ_pos n, ?_, fun _ => ⟨buf', rfl, ?_⟩, fun hle => ?_⟩
      · rw [Nat.add_sub_cancel, ← hpiece, hout, Int.toNat_natCast, hbytes]
      · rw [Nat.add_sub_cancel]
        convert hopen' using 1
        omega
      · unfold calls at hle
        omega

end Cat

end KTeamOS
