import KTeamOS.Programs.Reading
import KTeamOS.Programs.Search

/-!
# grep

`do_one_file` of `ece391grep.c`, run by a program that shares the file system with others.  It reads
a text through a buffer of 1024 bytes, and prints the lines in which a string occurs
(`grep_prints`).
-/

namespace KTeamOS

namespace Grep

/-- The places in `do_one_file` where it calls the kernel. -/
inductive Pc
  /-- At `ece391_open`. -/
  | opening
  /-- At `ece391_read`. -/
  | reading (fd : ℤ)
  /-- At `ece391_close`. -/
  | closing (fd : ℤ)
  | returned (val : ℤ)
  /-- An access behind an array. -/
  | fault

end Grep

/-- The function, and what it has written to the screen. -/
structure Grep where
  pc : Grep.Pc
  data : ℕ → UInt8
  last : ℕ
  out : List UInt8

namespace Grep

open Buffer

/-- A message, and the end of the function. -/
def quit (x : Grep) (message : List UInt8) (val : ℤ) : Grep :=
  { x with
    pc := .returned val
    out := x.out ++ message }

/-- The buffer after a read into `data + last`. -/
def filled (x : Grep) (buf : ℕ → UInt8) : ℕ → UInt8 :=
  fun j => if j < x.last then x.data j else buf (j - x.last)

/-- The outer loop behind `ece391_read`, which has read `cnt` bytes. -/
def afterRead (s fname : CString) (x : Grep) (fd : ℤ) (cnt : ℕ) (buf : ℕ → UInt8) : Grep :=
  match scan s fname cnt (x.last + cnt) (bufSize + 1) 0 (x.filled buf) x.out with
  | none => { x with pc := .fault }
  | some (data, last, out) => ⟨if cnt = 0 then .closing fd else .reading fd, data, last, out⟩

/-- The function with the value of its system call. -/
def resume (s fname : CString) (x : Grep) (a : FileAnswer) : Grep :=
  match x.pc with
  | .opening =>
    if a.val = -1 then x.quit (literal "file open failed\n") (-1)
    else
      { x with
        pc := .reading a.val
        last := 0 }
  | .reading fd =>
    if a.val = -1 then x.quit (literal "file read failed\n") (-1)
    else afterRead s fname x fd a.val.toNat a.buf
  | .closing _ => if a.val = -1 then x.quit (literal "file close failed\n") (-1) else x.quit [] 0
  | .returned _ | .fault => x

/-- What it has returned. -/
def val (x : Grep) : Option ℤ :=
  match x.pc with
  | .returned val => some val
  | .opening | .reading _ | .closing _ | .fault => none

end Grep

/-- `do_one_file(s, fname)` as a client of the kernel. -/
def grepProgram (s fname : CString) : Client FileReq FileAnswer Grep where
  next x :=
    match x.pc with
    | .opening => some (.openName fname)
    | .reading fd => some (.read fd (fun j => x.data (x.last + j)) (Grep.bufSize - x.last))
    | .closing fd => some (.close fd)
    | .returned _ | .fault => none
  resume := Grep.resume s fname

namespace Grep

open Buffer

variable {f : Files} {img : Image} {s fname : CString} {k fd n : ℕ} {p₀ : Pcb} {x y : Pcb × Grep}
  {data : ℕ → UInt8}

/-- After `n` calls, while the file is read: the characters `l` in the buffer begin a line, and what
is to be printed for them and for the rest of the file has not been printed yet. -/
structure Reading (img : Image) (s fname : CString) (k fd n pos : ℕ) (l : List UInt8)
    (x : Pcb × Grep) : Prop where
  pc : x.2.pc = .reading fd
  openAt : x.1.OpenAt img fd k pos
  holds : Holds x.2.data 0 l
  last : x.2.last = l.length
  newline_notMem : 0x0A ∉ l
  zero_notMem : 0 ∉ l
  length_lt : l.length < bufSize
  stale : x.2.data bufSize ≠ 0x0A
  out : x.2.out ++ report s fname (l ++ (img.file k).drop pos) = report s fname (img.file k)
  calls : n ≤ pos + 1

/-- Behind the loop all is printed. -/
structure Closing (img : Image) (s fname : CString) (k fd n : ℕ) (x : Pcb × Grep) : Prop where
  pc : x.2.pc = .closing fd
  openAt : ∃ pos, x.1.OpenAt img fd k pos
  out : x.2.out = report s fname (img.file k)
  calls : n ≤ (img.file k).length + 2

/-- The state after `n` calls, the first of which has opened the file. -/
def Running (img : Image) (s fname : CString) (k fd n : ℕ) (x : Pcb × Grep) : Prop :=
  (∃ pos l, Reading img s fname k fd n pos l x) ∨ Closing img s fname k fd n x ∨
    x.2.pc = .returned 0 ∧ x.2.out = report s fname (img.file k) ∧ n ≤ (img.file k).length + 3

theorem holds_filled {l piece : List UInt8} {g : Grep} {buf : ℕ → UInt8} (hl : Holds g.data 0 l)
    (hlast : g.last = l.length) (hpiece : (List.range piece.length).map buf = piece) :
    Holds (g.filled buf) 0 (l ++ piece) := by
  refine holds_append.2 ⟨hl.congr fun j _ hj => if_pos (by omega), fun i hi => ?_⟩
  have hbuf : buf i = piece[i] := by
    have hget := List.getElem_of_eq hpiece.symm hi
    rw [hget, List.getElem_map, List.getElem_range]
  rw [← hbuf, filled, if_neg (by omega), hlast]
  congr 1
  omega

/-- One turn of the outer loop. -/
theorem Reading.read (hf : f.Mounts img) (htext : 0 ∉ img.file k) {pos : ℕ} {l : List UInt8}
    (h : Reading img s fname k fd n pos l x)
    (hcall : (grepProgram s fname).callAlone (aloneMachine f) f.reply x = some y) :
    Running img s fname k fd (n + 1) y := by
  obtain ⟨p, pc, data, last, out⟩ := x
  obtain ⟨hpc, hopen, hholds, hlast, hnl, hzero, hlt, hstale, hout, hcalls⟩ := h
  change pc = .reading fd at hpc
  change last = l.length at hlast
  subst hpc hlast
  obtain ⟨p', buf', hafter, hreply, hbytes, hrest, hopen'⟩ :=
    Files.read_alone hf hopen (fun j => data (l.length + j)) (bufSize - l.length)
  have hpos := hopen.pos_le
  have hcnt : (img.piece k pos (bufSize - l.length)).length =
      min (bufSize - l.length) ((img.file k).length - pos) := Image.length_piece
  have hsplit : (img.file k).drop pos = img.piece k pos (bufSize - l.length) ++
      (img.file k).drop (pos + (img.piece k pos (bufSize - l.length)).length) :=
    Image.drop_eq_piece
  have hpiece0 : 0 ∉ img.piece k pos (bufSize - l.length) := fun hmem =>
    htext (List.mem_of_mem_drop (List.mem_of_mem_take hmem))
  generalize img.piece k pos (bufSize - l.length) = piece at *
  simp only [Client.callAlone, grepProgram, Option.bind_some, aloneMachine, hafter,
    Option.map_some, Option.some.injEq] at hcall
  subst hcall
  have hfilled := holds_filled (g := ⟨.reading fd, data, l.length, out⟩) hholds rfl hbytes
  have hblock0 : 0 ∉ l ++ piece := fun hmem =>
    (List.mem_append.1 hmem).elim hzero hpiece0
  have hkept : Grep.filled ⟨.reading fd, data, l.length, out⟩ buf' bufSize ≠ 0x0A := by
    have hge : ¬ bufSize < l.length := by omega
    have hfill : Grep.filled ⟨.reading fd, data, l.length, out⟩ buf' bufSize =
        buf' (bufSize - l.length) := if_neg hge
    rw [hfill, hrest _ (by omega)]
    change data (l.length + (bufSize - l.length)) ≠ 0x0A
    rwa [Nat.add_sub_cancel' (Nat.le_of_lt hlt)]
  have htail : piece.length = 0 ∨ l.length + piece.length < bufSize →
      (img.file k).drop (pos + piece.length) = [] :=
    fun hend => List.drop_eq_nil_of_le (by omega)
  obtain ⟨data', l', out', hscan, hholds', hnl', hzero', hlt', hstale', hend, hout'⟩ :=
    scan_spec s fname (bufSize + 1) out (by omega) hkept hfilled
      (by rw [List.length_append, Nat.zero_add]) hblock0
      (by rw [List.length_append]; omega) htail
  have hresume : resume s fname ⟨.reading fd, data, l.length, out⟩ ⟨piece.length, buf'⟩ =
      ⟨if piece.length = 0 then .closing fd else .reading fd, data', l'.length, out'⟩ := by
    simp only [resume, afterRead, Int.toNat_natCast, hscan]
    rw [if_neg (by omega)]
  rw [List.append_assoc, ← hsplit] at hout'
  rw [hreply, hresume]
  by_cases hcnt0 : piece.length = 0
  · -- the end of the file
    obtain rfl : l' = [] := hend hcnt0
    have hdrop : (img.file k).drop (pos + piece.length) = [] := htail (.inl hcnt0)
    rw [hdrop, List.nil_append, report_nil, List.append_nil] at hout'
    rw [if_pos hcnt0]
    exact .inr (.inl ⟨rfl, ⟨_, hopen'⟩, hout'.trans hout, by omega⟩)
  · rw [if_neg hcnt0]
    exact .inl ⟨pos + piece.length, l', rfl, hopen', hholds', rfl, hnl', hzero', hlt', hstale',
      hout'.trans hout, by omega⟩

/-- `close`, the last call. -/
theorem Closing.close (h : Closing img s fname k fd n x)
    (hcall : (grepProgram s fname).callAlone (aloneMachine f) f.reply x = some y) :
    Running img s fname k fd (n + 1) y := by
  obtain ⟨p, pc, data, last, out⟩ := x
  obtain ⟨hpc, ⟨pos, hopen⟩, hout, hcalls⟩ := h
  change pc = .closing fd at hpc
  change out = report s fname (img.file k) at hout
  subst hpc
  obtain ⟨p', hafter, hval⟩ := Files.close_alone (f := f) hopen
  simp only [Client.callAlone, grepProgram, Option.bind_some, aloneMachine, hafter,
    Option.map_some, Option.some.injEq] at hcall
  subst hcall
  refine .inr (.inr ?_)
  simp only [resume, hval]
  rw [if_neg (by omega), quit, hout, List.append_nil]
  exact ⟨rfl, rfl, Nat.succ_le_succ hcalls⟩

theorem Running.step (hf : f.Mounts img) (htext : 0 ∉ img.file k)
    (h : Running img s fname k fd n x)
    (hcall : (grepProgram s fname).callAlone (aloneMachine f) f.reply x = some y) :
    Running img s fname k fd (n + 1) y := by
  obtain ⟨pos, l, hreading⟩ | hclosing | ⟨hpc, -⟩ := h
  · exact hreading.read hf htext hcall
  · exact hclosing.close hcall
  · simp only [Client.callAlone, grepProgram, hpc] at hcall
    cases hcall

end Grep

end KTeamOS
