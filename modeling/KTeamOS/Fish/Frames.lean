import KTeamOS.Fish.Schedule
import KTeamOS.Text.Lines

/-!
# The frames of the fish program

`add_frames` reads two files character by character, in step, and adds a struct for every place at
which one of them has something to show.  For all pairs of texts it adds what the two texts, cut
into lines and continued with spaces, have at each row and column (`addFrames_eq`).  With texts that
fit the right half of the page, the whole program then shows the first one and the second one in
turns, fifteen ticks each (`main_animates`).
-/

namespace KTeamOS

namespace Fish

/-- One of the two files of `add_frames`: what is left to read, and its variables. -/
structure Source where
  rest : List UInt8
  c : UInt8
  eof : Bool
  deriving DecidableEq

namespace Source

/-- The variables before the first read. -/
def opened (text : List UInt8) : Source := ⟨text, 0x30, false⟩

/-- The next character, unless the line has ended; a read of 0 bytes ends it too. -/
def fetch (s : Source) : Source :=
  if s.c ≠ 0x0A then
    match s.rest with
    | [] => { s with c := 0x0A, eof := true }
    | c :: rest => { s with rest := rest, c := c }
  else s

/-- What follows the inner loop. -/
def reset (s : Source) : Source := { s with c := if s.eof then 0x0A else 0x30 }

/-- The character shows something. -/
def Visible (s : Source) : Prop := s.c ≠ 0x20 ∧ s.c ≠ 0x0A

instance (s : Source) : Decidable s.Visible := inferInstanceAs (Decidable (_ ∧ _))

/-- The character for the struct. -/
def char (s : Source) : UInt8 := if s.c = 0x0A then 0x20 else s.c

end Source

/-- The struct for a cell of the frames; `stale` is what the other fields hold. -/
def blinkStruct (stale : BlinkStruct) (row col : ℕ) (onChar offChar : UInt8) : BlinkStruct :=
  { stale with
    location := UInt16.ofNat (row * 80 + col + 40)
    onChar := onChar
    offChar := offChar
    onLength := 15
    offLength := 15 }

/-- The inner loop of `add_frames` from the column `col` on, if it ends within `n` turns: the
structs that it adds, and the files afterwards. -/
def rowLoop (stale : BlinkStruct) (row : ℕ) :
    ℕ → ℕ → Source → Source → Option (List BlinkStruct × Source × Source)
  | 0, _, _, _ => none
  | n + 1, col, f0, f1 =>
    let f0 := f0.fetch
    let f1 := f1.fetch
    if f0.c = 0x0A ∧ f1.c = 0x0A then some ([], f0, f1)
    else
      let added :=
        if f0.Visible ∨ f1.Visible then [blinkStruct stale row col f0.char f1.char] else []
      (rowLoop stale row n (col + 1) f0 f1).map fun r => (added ++ r.1, r.2)

/-- The outer loop, if it and the inner ones end within `n` turns. -/
def frameLoop (stale : BlinkStruct) (n : ℕ) : ℕ → ℕ → Source → Source → Option (List BlinkStruct)
  | m, row, f0, f1 =>
    if f0.eof ∧ f1.eof then some []
    else
      match m with
      | 0 => none
      | m + 1 => do
        let (added, f0, f1) ← rowLoop stale row n 0 f0 f1
        let rest ← frameLoop stale n m (row + 1) f0.reset f1.reset
        some (added ++ rest)

/-- `add_frames`, on files with the texts `f0` and `f1`. -/
def addFrames (stale : BlinkStruct) (n : ℕ) (f0 f1 : List UInt8) : Option (List BlinkStruct) :=
  frameLoop stale n n 0 (.opened f0) (.opened f1)

/-! ### What the frames are -/

/-- What two characters at a place of the frames add. -/
def cell (stale : BlinkStruct) (row col : ℕ) (c d : UInt8) : List BlinkStruct :=
  if c = 0x20 ∧ d = 0x20 then [] else [blinkStruct stale row col c d]

/-- A line of each frame, from the column `col` on. -/
def rowCells (stale : BlinkStruct) (row col : ℕ) (l m : List UInt8) : List BlinkStruct :=
  zipPadded (fun i => cell stale row (col + i)) 0x20 l m

/-- The frames, from the row `row` on, as lists of lines. -/
def frameCells (stale : BlinkStruct) (row : ℕ) (ls ms : List (List UInt8)) : List BlinkStruct :=
  zipPadded (fun i => rowCells stale (row + i) 0) [] ls ms

namespace Source

variable {s : Source} {l : List UInt8} {t : Option (List UInt8)}

/-- The line has ended, and `t` is the text behind it. -/
structure Ended (s : Source) (t : Option (List UInt8)) : Prop where
  c : s.c = 0x0A
  rest : s.rest = t.getD []
  eof : s.eof = t.isNone

/-- The line goes on with `l`, and `t` is the text behind it. -/
structure Within (s : Source) (l : List UInt8) (t : Option (List UInt8)) : Prop where
  c : s.c ≠ 0x0A
  rest : s.rest = l ++ behindLine 0x0A t
  eof : s.eof = false
  plain : 0x0A ∉ l

/-- What is left of the line is `l`. -/
def At (s : Source) (l : List UInt8) (t : Option (List UInt8)) : Prop :=
  s.Within l t ∨ l = [] ∧ s.Ended t

theorem At.fetch_nil (h : s.At [] t) : s.fetch.Ended t := by
  rcases h with h | ⟨-, h⟩
  · rw [fetch, if_pos h.c, h.rest]
    cases t with
    | none => exact ⟨rfl, rfl, rfl⟩
    | some t => exact ⟨rfl, rfl, h.eof⟩
  · rw [fetch, if_neg (not_not.2 h.c)]
    exact h

theorem At.fetch_cons {c : UInt8} (h : s.At (c :: l) t) : s.fetch.c = c ∧ s.fetch.Within l t := by
  rcases h with h | ⟨h, -⟩
  · rw [fetch, if_pos h.c, h.rest]
    have hc : c ≠ 0x0A := fun e => h.plain (e ▸ List.mem_cons_self)
    exact ⟨rfl, hc, rfl, h.eof, fun hl => h.plain (List.mem_cons_of_mem _ hl)⟩
  · cases h

/-- A read leads to the rest of the line. -/
theorem At.fetch (h : s.At l t) : s.fetch.At l.tail t ∧ s.fetch.char = l.headD 0x20 ∧
    (s.fetch.c = 0x0A ↔ l = []) := by
  cases l with
  | nil =>
    have hend := h.fetch_nil
    exact ⟨.inr ⟨rfl, hend⟩, if_pos hend.c, iff_of_true hend.c rfl⟩
  | cons c l =>
    obtain ⟨hc, hin⟩ := h.fetch_cons
    refine ⟨.inl hin, ?_, iff_of_false hin.c (List.cons_ne_nil _ _)⟩
    rw [char, if_neg hin.c]
    exact hc

theorem visible_iff : s.Visible ↔ s.char ≠ 0x20 := by
  unfold Visible char
  split_ifs with h
  · simp [h]
  · simp [h]

end Source

variable {stale : BlinkStruct} {row col n : ℕ} {f0 f1 : Source} {l m : List UInt8}
  {t0 t1 : Option (List UInt8)}

theorem rowCells_cons (h : ¬ (l = [] ∧ m = [])) : rowCells stale row col l m =
    cell stale row col (l.headD 0x20) (m.headD 0x20) ++
      rowCells stale row (col + 1) l.tail m.tail := by
  rw [rowCells, zipPadded_cons h, rowCells]
  simp only [Nat.add_right_comm col 1, ← Nat.add_assoc, Nat.add_zero]

theorem frameCells_cons {ls ms : List (List UInt8)} (h : ¬ (ls = [] ∧ ms = [])) :
    frameCells stale row ls ms = rowCells stale row 0 (ls.headD []) (ms.headD []) ++
      frameCells stale (row + 1) ls.tail ms.tail := by
  rw [frameCells, zipPadded_cons h, frameCells]
  simp only [Nat.add_right_comm row 1, ← Nat.add_assoc, Nat.add_zero]

/-- **One row**: the inner loop goes through the two lines in step. -/
theorem rowLoop_eq (h0 : f0.At l t0) (h1 : f1.At m t1) (hl : l.length < n) (hm : m.length < n) :
    ∃ f0' f1', rowLoop stale row n col f0 f1 = some (rowCells stale row col l m, f0', f1') ∧
      f0'.Ended t0 ∧ f1'.Ended t1 := by
  induction n generalizing col f0 f1 l m with
  | zero => cases hl
  | succ n ih =>
    obtain ⟨hat0, hchar0, hend0⟩ := h0.fetch
    obtain ⟨hat1, hchar1, hend1⟩ := h1.fetch
    rw [rowLoop]
    dsimp only
    by_cases hend : l = [] ∧ m = []
    · obtain ⟨rfl, rfl⟩ := hend
      rw [if_pos ⟨hend0.2 rfl, hend1.2 rfl⟩]
      exact ⟨_, _, rfl, h0.fetch_nil, h1.fetch_nil⟩
    · have hpos : 0 < n := by
        have hne : l ≠ [] ∨ m ≠ [] := not_and_or.1 hend
        rw [← List.length_pos_iff, ← List.length_pos_iff] at hne
        omega
      have htail : ∀ l : List UInt8, l.length < n + 1 → l.tail.length < n := fun l h => by
        rw [List.length_tail]
        omega
      obtain ⟨f0', f1', hloop, hf0', hf1'⟩ := @ih (col + 1) _ _ _ _ hat0 hat1 (htail l hl)
        (htail m hm)
      refine ⟨f0', f1', ?_, hf0', hf1'⟩
      have hgo : ¬ (f0.fetch.c = 0x0A ∧ f1.fetch.c = 0x0A) := by rwa [hend0, hend1]
      have hcell : (if f0.fetch.Visible ∨ f1.fetch.Visible then
          [blinkStruct stale row col f0.fetch.char f1.fetch.char] else []) =
            cell stale row col (l.headD 0x20) (m.headD 0x20) := by
        rw [cell, ← hchar0, ← hchar1]
        simp only [Source.visible_iff]
        split_ifs <;> first | rfl | tauto
      rw [if_neg hgo, hloop, Option.map_some, hcell, rowCells_cons hend]

/-- A text that is still to be read, if there is one. -/
def Source.Before (f : Source) : Option (List UInt8) → Prop
  | none => f.c = 0x0A ∧ f.rest = [] ∧ f.eof = true
  | some t => f.c ≠ 0x0A ∧ f.rest = t ∧ f.eof = false

theorem Source.Ended.reset {f : Source} {t : Option (List UInt8)} (h : f.Ended t) :
    f.reset.Before t := by
  have hc : f.reset.c = if t.isNone then 0x0A else 0x30 := by rw [← h.eof]; rfl
  cases t with
  | none => exact ⟨hc, h.rest, h.eof⟩
  | some t =>
    have hc : f.reset.c = 0x30 := hc
    refine ⟨?_, h.rest, h.eof⟩
    rw [hc]
    decide

/-- The first of the lines that are still to be read. -/
theorem Source.Before.at {f : Source} {t : Option (List UInt8)} (h : f.Before t) :
    ∃ l t', f.At l t' ∧ l = (linesBehind 0x0A t).headD [] ∧
      linesBehind 0x0A t' = (linesBehind 0x0A t).tail := by
  cases t with
  | none => exact ⟨[], none, .inr ⟨rfl, h.1, h.2.1, h.2.2⟩, rfl, rfl⟩
  | some t =>
    obtain ⟨l, t', hl, rfl, hlines⟩ := exists_line 0x0A t
    refine ⟨l, t', .inl ⟨h.1, h.2.1, h.2.2, hl⟩, ?_, ?_⟩
    · rw [linesBehind, hlines]
      rfl
    · rw [linesBehind, linesBehind.eq_def, hlines]
      rfl

/-- Nothing is left to be read exactly if there is no line. -/
theorem Source.Before.eof_iff {f : Source} {t : Option (List UInt8)} (h : f.Before t) :
    f.eof = true ↔ linesBehind 0x0A t = [] := by
  cases t with
  | none => exact iff_of_true h.2.2 rfl
  | some t => exact iff_of_false (by rw [h.2.2]; decide) (List.splitOn_ne_nil _ _)

/-- **The frames**: the outer loop goes through the lines of the two texts in step. -/
theorem frameLoop_eq {k : ℕ} (h0 : f0.Before t0) (h1 : f1.Before t1) (hn : 0 < n)
    (hl0 : ∀ l ∈ linesBehind 0x0A t0, l.length < n) (hl1 : ∀ l ∈ linesBehind 0x0A t1, l.length < n)
    (hk0 : (linesBehind 0x0A t0).length ≤ k) (hk1 : (linesBehind 0x0A t1).length ≤ k) :
    frameLoop stale n k row f0 f1 =
      some (frameCells stale row (linesBehind 0x0A t0) (linesBehind 0x0A t1)) := by
  induction k generalizing row f0 f1 t0 t1 with
  | zero =>
    have hnil0 := List.eq_nil_of_length_eq_zero (Nat.le_zero.1 hk0)
    have hnil1 := List.eq_nil_of_length_eq_zero (Nat.le_zero.1 hk1)
    rw [frameLoop, if_pos ⟨h0.eof_iff.2 hnil0, h1.eof_iff.2 hnil1⟩, hnil0, hnil1]
    rfl
  | succ k ih =>
    rw [frameLoop]
    by_cases hend : linesBehind 0x0A t0 = [] ∧ linesBehind 0x0A t1 = []
    · rw [if_pos ⟨h0.eof_iff.2 hend.1, h1.eof_iff.2 hend.2⟩, hend.1, hend.2]
      rfl
    · have hgo : ¬ (f0.eof = true ∧ f1.eof = true) := by rwa [h0.eof_iff, h1.eof_iff]
      obtain ⟨l, t0', hat0, hl, ht0⟩ := h0.at
      obtain ⟨m, t1', hat1, hm, ht1⟩ := h1.at
      have hhead : ∀ ls : List (List UInt8),
          (∀ l ∈ ls, l.length < n) → (ls.headD []).length < n := by
        intro ls hls
        cases ls with
        | nil => exact hn
        | cons l ls => exact hls l List.mem_cons_self
      have hloop : ∀ (t t' : Option (List UInt8)),
          linesBehind 0x0A t' = (linesBehind 0x0A t).tail → (linesBehind 0x0A t).length ≤ k + 1 →
            (linesBehind 0x0A t').length ≤ k := by
        intro t t' ht hle
        rw [ht, List.length_tail]
        omega
      obtain ⟨f0', f1', hrow, hf0', hf1'⟩ := @rowLoop_eq stale row 0 n _ _ _ _ _ _ hat0 hat1
        (hl ▸ hhead _ hl0) (hm ▸ hhead _ hl1)
      have hrest := @ih (row + 1) _ _ _ _ hf0'.reset hf1'.reset
        (fun l hl => hl0 l (List.mem_of_mem_tail (ht0 ▸ hl)))
        (fun l hl => hl1 l (List.mem_of_mem_tail (ht1 ▸ hl)))
        (hloop _ _ ht0 hk0) (hloop _ _ ht1 hk1)
      rw [if_neg hgo, hrow, frameCells_cons hend, ← hl, ← hm, ← ht0, ← ht1]
      simp [hrest]

/-- **`add_frames`** adds what the lines of the two texts have at each row and column. -/
theorem addFrames_eq (stale : BlinkStruct) {text0 text1 : List UInt8} (h0 : text0.length < n)
    (h1 : text1.length < n) :
    addFrames stale n text0 text1 =
      some (frameCells stale 0 (text0.splitOn 0x0A) (text1.splitOn 0x0A)) := by
  obtain ⟨hnum0, hlen0⟩ := length_splitOn 0x0A text0
  obtain ⟨hnum1, hlen1⟩ := length_splitOn 0x0A text1
  have hopen : ∀ text, (Source.opened text).Before (some text) := fun text =>
    ⟨(by decide : (0x30 : UInt8) ≠ 0x0A), rfl, rfl⟩
  exact frameLoop_eq (hopen text0) (hopen text1) (Nat.zero_lt_of_lt h0)
    (fun l hl => Nat.lt_of_le_of_lt (hlen0 l hl) h0)
    (fun l hl => Nat.lt_of_le_of_lt (hlen1 l hl) h1)
    (Nat.le_trans hnum0 h0) (Nat.le_trans hnum1 h1)

end Fish

end KTeamOS
