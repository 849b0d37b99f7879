import KTeamOS.Programs.Support
import KTeamOS.Text.Rows

/-!
# Searching a buffer

The body of the loop of `do_one_file` in `ece391grep.c`.  It searches the lines that end in the
buffer, and moves what is behind them to the start of it.  What it prints then, and what it will
print for the rest, is what it prints for the text in the buffer and the rest of the file
(`scan_spec`): a line goes on in the next buffer, unless it fills one.

## Main definitions

* `Grep.scan` : the inner loop.
* `Grep.report` : what is to be printed for a text.
-/

namespace KTeamOS

namespace Grep

open Buffer

/-- `BUFSIZE`; the buffer has one byte more. -/
abbrev bufSize : ℕ := 1024

/-! ### The code -/

/-- `while (line_end < last && '\n' != data[line_end]) line_end++;`, with `n` bytes to go. -/
def findEnd (data : ℕ → UInt8) : (n lineEnd : ℕ) → Option ℕ
  | 0, lineEnd => some lineEnd
  | n + 1, lineEnd => do
    let c ← readIn (bufSize + 1) data lineEnd
    if c = 0x0A then some lineEnd else findEnd data n (lineEnd + 1)

/-- A `char` as an `int`: the first half of the bytes are themselves. -/
def charInt (c : UInt8) : ℤ := if c < 0x80 then c.toNat else c.toNat - 256

/-- The loop over `check`, with `n` bytes of the line to go: whether it finds `s`.  The string is of
`char`s, and the buffer of `uint8_t`s. -/
def search (data s : ℕ → UInt8) (sLen : ℕ) : (n check : ℕ) → Option Bool
  | 0, _ => some false
  | n + 1, check => do
    let c ← readIn (bufSize + 1) data check
    if charInt (s 0) = c.toNat then do
      let v ← Support.strncmp (bufSize + 1) data s sLen check 0
      if v = 0 then some true else search data s sLen n (check + 1)
    else search data s sLen n (check + 1)

/-- A line as it is printed. -/
def entry (fname : CString) (line : List UInt8) : List UInt8 :=
  fname.chars ++ 0x3A :: line ++ [0x0A]

/-- The inner `while (1)`, if it ends within `n` turns: the buffer, `last` and what has been
printed. -/
def scan (s fname : CString) (cnt last : ℕ) : (n lineStart : ℕ) → (ℕ → UInt8) → List UInt8 →
    Option ((ℕ → UInt8) × ℕ × List UInt8)
  | 0, _, _, _ => none
  | n + 1, lineStart, data, out => do
    let lineEnd ← findEnd data (last - lineStart) lineStart
    let c ← readIn (bufSize + 1) data lineEnd
    let data ← writeIn (bufSize + 1) data lineEnd 0
    if c ≠ 0x0A ∧ cnt ≠ 0 ∧ lineStart ≠ 0 then do
      let data ← Support.strcpy (bufSize + 1) (bufSize + 1) 0 lineStart data
      some (data, last - lineStart, out)
    else do
      let found ← search data s.mem s.chars.length (lineEnd - lineStart) lineStart
      let out ← (if found then
          (stringIn (bufSize + 1) data 0 (bufSize + 1) lineStart).map (out ++ entry fname ·)
        else some out)
      if lineEnd + 1 ≥ last then some (data, 0, out)
      else scan s fname cnt last n (lineEnd + 1) data out

/-! ### What is to be printed -/

/-- The line is to be printed.  A string that starts with a negative `char` is in no line. -/
def Matches (s line : List UInt8) : Prop := s.head?.any (· < 0x80) ∧ s <:+: line

instance (s line : List UInt8) : Decidable (Matches s line) := inferInstanceAs (Decidable (_ ∧ _))

/-- What is printed for one line. -/
def printed (s fname : CString) (line : List UInt8) : List UInt8 :=
  if Matches s.chars line then entry fname line else []

/-- What is printed for a text: the lines in which `s` occurs.  A line of more than 1024 characters
counts as several. -/
def report (s fname : CString) (text : List UInt8) : List UInt8 :=
  (breakRows bufSize (· = 0x0A) [] text).flatMap (printed s fname)

variable {s fname : CString} {data : ℕ → UInt8} {l line rest tail out : List UInt8}
  {i n cnt last lineStart : ℕ}

theorem charInt_eq {a c : UInt8} : charInt a = c.toNat ↔ a < 0x80 ∧ a = c := by
  have ha : a.toNat < 256 := a.toNat_lt
  rw [charInt, ← UInt8.toNat_inj]
  split_ifs with h
  · rw [and_iff_right h, Int.natCast_inj]
  · exact iff_of_false (by omega) fun hac => h hac.1

theorem not_matches_nil {s : List UInt8} : ¬ Matches s [] := by
  rintro ⟨hhead, hin⟩
  rw [List.infix_nil.1 hin] at hhead
  cases hhead

theorem report_nil : report s fname [] = [] := by
  rw [report, breakRows, List.flatMap_singleton, printed, if_neg not_matches_nil]

theorem breakRows_append {brk : UInt8 → Prop} [DecidablePred brk] {w : ℕ} {row : List UInt8}
    (hbrk : ∀ c ∈ line, ¬ brk c) (hlen : row.length + line.length < w) :
    breakRows w brk row (line ++ rest) = breakRows w brk (row ++ line) rest := by
  induction line generalizing row with
  | nil => rw [List.nil_append, List.append_nil]
  | cons c line ih =>
    rw [List.length_cons] at hlen
    rw [List.cons_append, breakRows_plain _ (hbrk c (List.mem_cons_self ..)) (by omega),
      ih (fun c hc => hbrk c (List.mem_cons_of_mem _ hc))
        (by rw [List.length_append, List.length_singleton]; omega),
      List.append_assoc, List.singleton_append]

/-- A line that ends at a newline. -/
theorem report_line (hline : 0x0A ∉ line) (hlen : line.length < bufSize) :
    report s fname (line ++ 0x0A :: rest) = printed s fname line ++ report s fname rest := by
  have hbrk : ∀ c ∈ line, ¬ c = 0x0A := fun c hc h => hline (h ▸ hc)
  rw [report, breakRows_append hbrk (by simpa using hlen), List.nil_append,
    breakRows_brk (fun c => c = 0x0A) rfl, List.flatMap_cons, report]

/-- A line that fills the buffer, or that the text ends with. -/
theorem report_last (hline : 0x0A ∉ line)
    (hlen : line.length = bufSize ∨ line.length < bufSize ∧ rest = []) :
    report s fname (line ++ rest) = printed s fname line ++ report s fname rest := by
  have hbrk : ∀ c ∈ line, ¬ c = 0x0A := fun c hc h => hline (h ▸ hc)
  rcases hlen with hfull | ⟨hshort, rfl⟩
  · -- the last character of a full line ends it
    obtain ⟨init, c, rfl⟩ : ∃ init c, line = init ++ [c] := by
      refine ⟨line.dropLast, line.getLast ?_, (List.dropLast_concat_getLast _).symm⟩
      rintro rfl
      cases hfull
    rw [List.length_append, List.length_singleton] at hfull
    have hinit : ∀ x ∈ init, ¬ x = 0x0A := fun x hx => hbrk x (List.mem_append_left _ hx)
    have hc : ¬ c = 0x0A := hbrk c (List.mem_append_right _ (List.mem_singleton_self c))
    have hilen : ([] : List UInt8).length + init.length < bufSize := by
      rw [List.length_nil]
      omega
    rw [report, List.append_assoc, breakRows_append hinit hilen, List.nil_append,
      List.singleton_append, breakRows_full (fun c => c = 0x0A) hc hfull, List.flatMap_cons, report]
  · rw [report, breakRows_append hbrk (by simpa using hshort), List.nil_append, breakRows,
      List.flatMap_singleton, report_nil, List.append_nil]

/-! ### The loops -/

/-- The loop for the end of a line finds a newline, or `last`. -/
theorem findEnd_eq (hl : Holds data i l) (hline : 0x0A ∉ l) (hsize : i + l.length ≤ bufSize)
    (hend : n = l.length ∨ l.length < n ∧ data (i + l.length) = 0x0A) :
    findEnd data n i = some (i + l.length) := by
  induction l generalizing i n with
  | nil =>
    rcases hend with rfl | ⟨hn, hnl⟩
    · rfl
    · obtain ⟨n, rfl⟩ := Nat.exists_eq_succ_of_ne_zero (Nat.ne_of_gt hn)
      have hi : i < bufSize + 1 := Nat.lt_succ_of_le hsize
      change data i = 0x0A at hnl
      rw [findEnd, readIn_eq hi, Option.bind_eq_bind, Option.bind_some, if_pos hnl]
      rfl
  | cons c l ih =>
    rw [List.length_cons] at hsize hend ⊢
    obtain ⟨n, rfl⟩ : ∃ m, n = m + 1 := ⟨n - 1, by omega⟩
    rw [List.mem_cons, not_or] at hline
    obtain ⟨hc, hrest⟩ := holds_cons.1 hl
    have hne : ¬ data i = 0x0A := fun h => hline.1 (h.symm.trans hc)
    have hsum : i + (l.length + 1) = i + 1 + l.length := by omega
    have hi : i < bufSize + 1 := by omega
    rw [hsum] at hend ⊢
    rw [findEnd, readIn_eq hi, Option.bind_eq_bind, Option.bind_some, if_neg hne,
      ih hrest hline.2 (by omega) (hend.imp Nat.succ.inj (And.imp_left Nat.lt_of_succ_lt_succ))]

/-- The loop over `check` decides whether the string occurs in the line. -/
theorem search_eq (hl : Holds data i (l ++ [0])) (h0 : 0 ∉ l) (hsize : i + l.length ≤ bufSize) :
    search data s.mem s.chars.length l.length i = some (decide (Matches s.chars l)) := by
  induction l generalizing i with
  | nil =>
    rw [decide_eq_false not_matches_nil]
    rfl
  | cons c l ih =>
    have hsize' : i + l.length + 1 ≤ bufSize := hsize
    obtain ⟨v, hv, hprefixed⟩ := Support.strncmp_spec (s := s) (n := s.chars.length) (j := 0) hl h0
      (by rw [List.length_cons]; unfold bufSize at *; omega : i + (c :: l).length < bufSize + 1)
      (Nat.zero_add _).symm
    rw [List.mem_cons, not_or] at h0
    obtain ⟨hc, hrest⟩ := holds_cons.1 hl
    have hrec := ih hrest h0.2 (by omega)
    have hmatch : Matches s.chars (c :: l) ↔
        (charInt (s.mem 0) = c.toNat ∧ v = 0) ∨ Matches s.chars l := by
      rw [Matches, List.infix_cons_iff, hprefixed, List.drop_zero, Matches, charInt_eq]
      constructor
      · rintro ⟨hhead, hpre | hin⟩
        · refine .inl ⟨?_, hpre⟩
          rcases hs : s.chars with _ | ⟨a, t⟩
          · rw [hs] at hhead
            cases hhead
          · rw [hs] at hhead hpre
            rw [CString.mem, hs]
            exact ⟨of_decide_eq_true hhead, (List.cons_prefix_cons.1 hpre).1⟩
        · exact .inr ⟨hhead, hin⟩
      · rintro (⟨⟨hlt, hmem⟩, hpre⟩ | ⟨hhead, hin⟩)
        · refine ⟨?_, .inl hpre⟩
          rcases hs : s.chars with _ | ⟨a, t⟩
          · refine absurd ?_ h0.1
            rw [← hmem, CString.mem, hs]
            rfl
          · rw [CString.mem, hs] at hlt
            exact decide_eq_true hlt
        · exact ⟨hhead, .inr hin⟩
    rw [List.length_cons, search, readIn_eq (by omega), Option.bind_eq_bind, Option.bind_some, hc]
    by_cases hmem : charInt (s.mem 0) = c.toNat
    · rw [if_pos hmem, hv, Option.bind_eq_bind, Option.bind_some]
      by_cases hzero : v = 0
      · rw [if_pos hzero, decide_eq_true (hmatch.2 (.inl ⟨hmem, hzero⟩))]
      · rw [if_neg hzero, hrec, decide_eq_decide.2 (hmatch.trans (or_iff_right fun h => hzero h.2))]
    · rw [if_neg hmem, hrec, decide_eq_decide.2 (hmatch.trans (or_iff_right fun h => hmem h.1))]

/-- **One turn of the inner loop**: what the line that starts at `lineStart` is. -/
theorem scan_turn (s fname : CString) (cnt n : ℕ) (out : List UInt8)
    (hl : Holds data lineStart line) (hline : 0x0A ∉ line) (h0 : 0 ∉ line)
    (hend : last = lineStart + line.length ∨
      lineStart + line.length < last ∧ data (lineStart + line.length) = 0x0A)
    (hlast : last ≤ bufSize) :
    scan s fname cnt last (n + 1) lineStart data out =
      if data (lineStart + line.length) ≠ 0x0A ∧ cnt ≠ 0 ∧ lineStart ≠ 0 then
        (Support.strcpy (bufSize + 1) (bufSize + 1) 0 lineStart
          (Function.update data (lineStart + line.length) 0)).map
            fun data => (data, last - lineStart, out)
      else if lineStart + line.length + 1 ≥ last then
        some (Function.update data (lineStart + line.length) 0, 0, out ++ printed s fname line)
      else scan s fname cnt last n (lineStart + line.length + 1)
        (Function.update data (lineStart + line.length) 0) (out ++ printed s fname line) := by
  have hle : lineStart + line.length ≤ bufSize := by omega
  have hin : lineStart + line.length < bufSize + 1 := by omega
  have hfind : findEnd data (last - lineStart) lineStart = some (lineStart + line.length) := by
    refine findEnd_eq hl hline hle ?_
    rcases hend with rfl | ⟨hlt, hnl⟩
    · exact .inl (by omega)
    · exact .inr ⟨by omega, hnl⟩
  have hstring : Holds (Function.update data (lineStart + line.length) 0) lineStart
      (line ++ [0]) := hl.concat
  have hsearch := search_eq (s := s) hstring h0 hle
  have hchars := stringIn_eq (n := bufSize + 1) hstring h0 hin (by omega)
  have hlen : lineStart + line.length - lineStart = line.length := by omega
  rw [scan, hfind, Option.bind_eq_bind, Option.bind_some, readIn_eq hin, Option.bind_eq_bind,
    Option.bind_some, writeIn_eq hin, Option.bind_eq_bind, Option.bind_some, hlen, hsearch, hchars,
    Option.map_some]
  refine if_congr Iff.rfl ?_ ?_
  · cases Support.strcpy (bufSize + 1) (bufSize + 1) 0 lineStart
      (Function.update data (lineStart + line.length) 0) <;> rfl
  · have hout : (if decide (Matches s.chars line) = true then some (out ++ entry fname line)
        else some out) = some (out ++ printed s fname line) := by
      unfold printed
      by_cases hm : Matches s.chars line
      · rw [if_pos (decide_eq_true hm), if_pos hm]
      · rw [if_neg (by simpa using hm), if_neg hm, List.append_nil]
    rw [Option.bind_eq_bind, Option.bind_some, hout, Option.bind_eq_bind, Option.bind_some]

/-- **The inner loop.**  What has been printed, and what is to be printed for the characters that
are kept and for the rest of the file, is what was to be printed before. -/
theorem scan_spec (s fname : CString) (n : ℕ) (out : List UInt8) (hlast : last ≤ bufSize)
    (hstale : data bufSize ≠ 0x0A)
    (hl : Holds data lineStart rest) (hlen : last = lineStart + rest.length) (h0 : 0 ∉ rest)
    (hn : rest.length < n) (htail : cnt = 0 ∨ last < bufSize → tail = []) :
    ∃ data' l out', scan s fname cnt last n lineStart data out = some (data', l.length, out') ∧
      Holds data' 0 l ∧ 0x0A ∉ l ∧ 0 ∉ l ∧ l.length < bufSize ∧ data' bufSize ≠ 0x0A ∧
      (cnt = 0 → l = []) ∧
      out' ++ report s fname (l ++ tail) = out ++ report s fname (rest ++ tail) := by
  induction n generalizing lineStart data rest out with
  | zero => exact absurd hn (Nat.not_lt_zero _)
  | succ n ih =>
    by_cases hnl : 0x0A ∈ rest
    · -- a line that ends in the buffer
      obtain ⟨line, rest', rfl, hline⟩ := List.eq_append_cons_of_mem hnl
      rw [List.length_append, List.length_cons] at hlen hn
      obtain ⟨hholds, hbehind⟩ := holds_append.1 hl
      obtain ⟨hbreak, hrest⟩ := holds_cons.1 hbehind
      have h0line : 0 ∉ line := fun h => h0 (List.mem_append_left _ h)
      have h0rest : 0 ∉ rest' := fun h => h0 (List.mem_append_right _ (List.mem_cons_of_mem _ h))
      have hturn := scan_turn s fname cnt n out hholds hline h0line (.inr ⟨by omega, hbreak⟩) hlast
      rw [if_neg fun h => h.1 hbreak] at hturn
      have hreport : report s fname (line ++ 0x0A :: rest' ++ tail) =
          printed s fname line ++ report s fname (rest' ++ tail) := by
        rw [List.append_assoc, List.cons_append]
        exact report_line hline (by omega)
      have hstale' : Function.update data (lineStart + line.length) 0 bufSize ≠ 0x0A := by
        rwa [Function.update_of_ne (by omega)]
      by_cases hdone : lineStart + line.length + 1 ≥ last
      · obtain rfl : rest' = [] := List.length_eq_zero_iff.1 (by omega)
        rw [if_pos hdone] at hturn
        refine ⟨_, [], _, hturn, holds_nil, by simp, by simp, by simp, hstale', fun _ => rfl, ?_⟩
        rw [hreport, List.append_assoc]
      · rw [if_neg hdone] at hturn
        have hkept : Holds (Function.update data (lineStart + line.length) 0)
            (lineStart + line.length + 1) rest' :=
          hrest.congr fun j hj _ => Function.update_of_ne (by omega) ..
        obtain ⟨data', l, out', hscan, hspec⟩ := ih (out ++ printed s fname line) hstale'
          hkept (by omega) h0rest (by omega)
        refine ⟨data', l, out', hturn.trans hscan, ?_⟩
        rw [hreport, ← List.append_assoc]
        exact hspec
    · have hturn := scan_turn s fname cnt n out hl hnl h0 (.inl hlen) hlast
      rw [← hlen] at hturn
      by_cases hcopy : data last ≠ 0x0A ∧ cnt ≠ 0 ∧ lineStart ≠ 0
      · -- the beginning of a line is moved to the start of the buffer
        rw [if_pos hcopy] at hturn
        have hstring : Holds (Function.update data last 0) lineStart (rest ++ [0]) := by
          rw [hlen]
          exact hl.concat
        obtain ⟨data', hdata', hholds, hframe⟩ := Support.strcpy_spec (bufSize + 1)
          (bufSize + 1) 0 hstring h0 (by omega) (by omega) (by omega)
        rw [hdata', Option.map_some] at hturn
        refine ⟨data', rest, out, ?_, (holds_append.1 hholds).1, hnl, h0, by omega, ?_,
          fun h => absurd h hcopy.2.1, rfl⟩
        · rw [hturn, show last - lineStart = rest.length by omega]
        · rw [hframe bufSize (by omega)]
          by_cases hfull : last = bufSize
          · rw [hfull, Function.update_self]
            decide
          · rwa [Function.update_of_ne (Ne.symm hfull)]
      · rw [if_neg hcopy, if_pos (Nat.le_succ last)] at hturn
        have hends : rest.length = bufSize ∨ rest.length < bufSize ∧ tail = [] := by
          by_cases hshort : cnt = 0 ∨ last < bufSize
          · have hnil := htail hshort
            rcases Nat.lt_or_ge rest.length bufSize with hlt | hge
            · exact .inr ⟨hlt, hnil⟩
            · exact .inl (by omega)
          · -- the buffer is full, and the line starts where it does
            have hfull : last = bufSize := by omega
            have hzero : lineStart = 0 := by
              by_contra hne
              exact hcopy ⟨hfull ▸ hstale, fun h => hshort (.inl h), hne⟩
            exact .inl (by omega)
        refine ⟨_, [], _, hturn, holds_nil, by simp, by simp, by simp, ?_, fun _ => rfl, ?_⟩
        · by_cases hfull : last = bufSize
          · rw [hfull, Function.update_self]
            decide
          · rwa [Function.update_of_ne (Ne.symm hfull)]
        · rw [report_last hnl hends, List.append_assoc, List.nil_append]

end Grep

end KTeamOS
