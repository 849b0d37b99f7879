import Mathlib.Data.List.GetD
import KTeamOS.Heap.Disjoint
import KTeamOS.System.Args
import KTeamOS.Text.Itoa

/-!
# Addresses on the screen

A user gets the address of a block from the program `malloc` or from the list of `pmap`, and gives
it to the program `free`.

`malloc` writes the digits above 9 with lowercase letters, `itoa` with capital ones, and `free`
reads only the latter.  So `free` takes an address that `malloc` has printed exactly if it has none
of these digits (`roundTrips_iff`), and in the arena every address has one
(`not_roundTrips_malloc`).
-/

namespace KTeamOS

/-! ### The programs -/

/-- What `main` of one of the programs does at its end. -/
inductive ProgramEnd
  /-- It prints a message and returns 3. -/
  | refuse (message : String)
  /-- It writes to the screen and returns 0. -/
  | print (out : List UInt8)
  /-- It calls `ece391_free` and returns 0. -/
  | free (ptr : ℕ)
  deriving DecidableEq

/-- The loop of `malloc` that reads the number of bytes; `none` is a character that is not a
digit. -/
def countLoop (cnt : ℕ) : List UInt8 → Option ℕ
  | [] => some cnt
  | c :: cs =>
    if c = 0x20 then some cnt
    else if c < 0x30 ∨ 0x39 < c then none
    else countLoop ((cnt * 10 + (c.toNat - 0x30)) % 2 ^ 32) cs

/-- The digit `temp` as `malloc` writes it. -/
def tempDigit (temp : ℕ) : UInt8 :=
  if 9 < temp then (0x61 + (temp - 10)).toUInt8 else (0x30 + temp).toUInt8

/-- The loop of `malloc` that writes the digits `j - 1` to 0 of the address `cnt`, which is signed
there. -/
def addressLoop (cnt : ℕ) (buf : ℕ → UInt8) (i : ℕ) : ℕ → ℕ → UInt8
  | 0 => buf
  | j + 1 =>
    if cnt < 2 ^ 31 then
      addressLoop cnt (Function.update buf i (tempDigit ((cnt >>> (4 * j)) % 16))) (i + 1) j
    else buf

/-- What `malloc` leaves in `buf` for an address. -/
def addressBuf (buf : ℕ → UInt8) (ptr : ℕ) : ℕ → UInt8 :=
  let buf := Function.update (Function.update buf 0 0x30) 1 0x78
  Function.update (addressLoop ptr buf 2 8) 10 0x0A

/-- `main` of `ece391malloc.c`, with the arguments in `argBuf`. -/
def mallocProgram (malloc : ℕ → ℕ) (argBuf buf : ℕ → UInt8) : ProgramEnd :=
  let buf := getargs argBuf buf 1024
  match countLoop 0 (field buf 1025 0) with
  | none => .refuse "Argument should be a number\n"
  | some cnt =>
    let ptr := malloc cnt
    if ptr = 0 then .refuse "Malloc failed\n"
    else .print ((List.range 11).map (addressBuf buf ptr))

/-- The digit that a character is to `free`. -/
def freeDigit (c : UInt8) : Option ℕ :=
  if 0x30 ≤ c ∧ c ≤ 0x39 then some (c.toNat - 0x30)
  else if 0x41 ≤ c ∧ c ≤ 0x46 then some (c.toNat - 0x37)
  else none

/-- The loop of `free`; `none` is a character that is not a digit. -/
def ptrLoop (cnt : ℕ) : List UInt8 → Option ℕ
  | [] => some cnt
  | c :: cs =>
    if c = 0x20 ∨ c = 0x0A then some cnt
    else
      match freeDigit c with
      | some d => ptrLoop ((cnt * 16 + d) % 2 ^ 32) cs
      | none => none

/-- `main` of `ece391free.c`, with the arguments in `argBuf`. -/
def freeProgram (argBuf buf : ℕ → UInt8) : ProgramEnd :=
  let buf := getargs argBuf buf 1024
  if buf 0 ≠ 0x30 ∨ buf 1 ≠ 0x78 then .refuse "Argument should be in hex\n"
  else
    match ptrLoop 0 (field buf 1023 2) with
    | none => .refuse "Argument should be a hex number\n"
    | some cnt => .free cnt

/-! ### The list -/

/-- `0x%x` -/
def pmapAddress (convBuf : ℕ → UInt8) (p : ℕ) : Option (List UInt8) :=
  (printfHex convBuf p).map (ascii "0x" ++ ·)

/-- The line of `pmap` for the block number `i`. -/
def pmapLine (convBuf : ℕ → UInt8) (i : ℕ) (b : Block) : Option (List UInt8) := do
  let index ← printfInt convBuf i
  let memStart ← pmapAddress convBuf b.memStart
  let memEnd ← pmapAddress convBuf b.memEnd
  let size ← printfInt convBuf (int32 (b.memEnd - b.memStart - 1))
  some (ascii (if 9 < i then " " else "  ") ++ index ++ ascii ":       " ++ memStart ++
    ascii "           " ++ memEnd ++ ascii "       " ++ size ++ ascii " \n")

/-- The loop of `pmap` over the blocks behind the first `i`. -/
def pmapLoop (convBuf : ℕ → UInt8) (i : ℕ) : List Block → Option (List UInt8)
  | [] => some []
  | b :: bs => do
    let line ← pmapLine convBuf (i + 1) b
    let rest ← pmapLoop convBuf (i + 1) bs
    some (line ++ rest)

/-- `pmap` -/
def pmap (convBuf : ℕ → UInt8) (h : Heap) : Option (List UInt8) :=
  (pmapLoop convBuf 0 h.blocks).map
    (ascii "-Index-----Start Address-------End Address-----Size-\n" ++ ·)

/-! ### Typing an address -/

/-- A program that shows the address of a block. -/
inductive Printer
  | malloc | pmap
  deriving DecidableEq

/-- The text in which an address is shown, `b` being what lies in the buffer it is made in. -/
def Printer.text (b : ℕ → UInt8) (p : ℕ) : Printer → Option (List UInt8)
  | malloc => some ((List.range 10).map (addressBuf b p))
  | pmap => pmapAddress b p

/-- With the text in `arg_buf`, `free` calls `ece391_free` with `p`. -/
def Accepts (text : List UInt8) (p : ℕ) : Prop :=
  ∀ argBuf buf, Buffer.Holds argBuf 0 (text ++ [0]) → freeProgram argBuf buf = .free p

/-- The address is shown in a text that `free` takes for it. -/
def RoundTrips (b : ℕ → UInt8) (p : ℕ) (pr : Printer) : Prop :=
  ∃ text, pr.text b p = some text ∧ Accepts text p

section free

variable {cs : List UInt8} {argBuf buf : ℕ → UInt8} {a p : ℕ} {ds : List ℕ} {f : ℕ → UInt8}

/-- What `free` does with an argument that starts with `0x`. -/
theorem freeProgram_eq (h : Buffer.Holds argBuf 0 (0x30 :: 0x78 :: cs ++ [0])) (h0 : 0 ∉ cs)
    (hlen : cs.length ≤ 8) :
    freeProgram argBuf buf = match ptrLoop 0 cs with
      | none => .refuse "Argument should be a hex number\n"
      | some cnt => .free cnt := by
  have hnul : 0 ∉ 0x30 :: 0x78 :: cs := by
    rw [List.mem_cons, List.mem_cons]
    rintro (h | h | h)
    · cases h
    · cases h
    · exact h0 h
  obtain ⟨s, hs⟩ : ∃ s : CString, s.chars = 0x30 :: 0x78 :: cs := ⟨⟨_, hnul⟩, rfl⟩
  rw [← hs] at h
  have hfit : s.chars.length ≤ 1024 := by
    rw [hs, List.length_cons, List.length_cons]
    omega
  obtain ⟨hchars, hend⟩ := Buffer.holds_concat.1 h
  have harg : ∀ i ≤ s.chars.length, argBuf i = s.mem i := by
    intro i hi
    rcases Nat.lt_or_eq_of_le hi with hlt | rfl
    · rw [CString.mem_of_lt hlt, ← hchars i hlt, Nat.zero_add]
    · rw [CString.mem_eq_zero_iff.2 (Nat.le_refl _), ← hend, Nat.zero_add]
  have hfield : field (getargs argBuf buf 1024) 1025 0 = s.chars.take 1024 :=
    field_getargs harg (by decide)
  rw [List.take_of_length_le hfit, hs] at hfield
  obtain ⟨hzero, hfield⟩ := field_cons hfield
  obtain ⟨hx, hfield⟩ := field_cons hfield
  rw [freeProgram, if_neg (by rw [hzero, hx]; decide), hfield]

/-- A text that starts with `0x` is accepted as what the loop reads behind that. -/
theorem accepts_cons (h0 : 0 ∉ cs) (hlen : cs.length ≤ 8) :
    Accepts (0x30 :: 0x78 :: cs) p ↔ ptrLoop 0 cs = some p := by
  constructor
  · intro h
    have hholds : Buffer.Holds (fun i => (0x30 :: 0x78 :: cs ++ [0])[i]?.getD 0) 0
        (0x30 :: 0x78 :: cs ++ [0]) := by
      intro i hi
      rw [Nat.zero_add]
      exact congrArg (·.getD 0) (List.getElem?_eq_getElem hi)
    have hfree := h _ (fun _ => 0) hholds
    rw [freeProgram_eq hholds h0 hlen] at hfree
    cases hptr : ptrLoop 0 cs with
    | none =>
      rw [hptr] at hfree
      cases hfree
    | some cnt =>
      rw [hptr] at hfree
      cases hfree
      rfl
  · intro hptr argBuf buf hholds
    rw [freeProgram_eq hholds h0 hlen, hptr]

/-- Digits that are all read give their value, from the highest one on. -/
theorem ptrLoop_digits
    (hf : ∀ d ∈ ds, freeDigit (f d) = some d ∧ ¬ (f d = 0x20 ∨ f d = 0x0A)) :
    ptrLoop (a % 2 ^ 32) (ds.map f) = some (ds.foldl (fun v d => v * 16 + d) a % 2 ^ 32) := by
  induction ds generalizing a with
  | nil => rfl
  | cons d ds ih =>
    obtain ⟨hread, hgo⟩ := hf d List.mem_cons_self
    have hstep : (a % 2 ^ 32 * 16 + d) % 2 ^ 32 = (a * 16 + d) % 2 ^ 32 := by omega
    rw [List.map_cons, ptrLoop, if_neg hgo, hread, List.foldl_cons]
    dsimp only
    rw [hstep]
    exact ih fun d' hd' => hf d' (List.mem_cons_of_mem _ hd')

/-- One character that is not read is enough. -/
theorem ptrLoop_none {c : UInt8} (hc : c ∈ cs) (hread : freeDigit c = none)
    (hgo : ∀ c ∈ cs, ¬ (c = 0x20 ∨ c = 0x0A)) : ptrLoop a cs = none := by
  induction cs generalizing a with
  | nil => exact absurd hc List.not_mem_nil
  | cons c' cs ih =>
    rw [ptrLoop, if_neg (hgo c' List.mem_cons_self)]
    rcases List.mem_cons.1 hc with rfl | hc
    · rw [hread]
    · cases freeDigit c' with
      | none => rfl
      | some d => exact ih hc fun c'' hc'' => hgo c'' (List.mem_cons_of_mem _ hc'')

end free

section print

variable {b : ℕ → UInt8} {d i j n p : ℕ}

/-- What `malloc` prints is the text of the address that it gets. -/
theorem mallocProgram_print {malloc : ℕ → ℕ} {argBuf buf : ℕ → UInt8} {out : List UInt8}
    (h : mallocProgram malloc argBuf buf = .print out) :
    ∃ cnt, malloc cnt ≠ 0 ∧
      Printer.malloc.text (getargs argBuf buf 1024) (malloc cnt) = some (out.take 10) := by
  unfold mallocProgram at h
  dsimp only at h
  cases hcount : countLoop 0 (field (getargs argBuf buf 1024) 1025 0) with
  | none =>
    rw [hcount] at h
    cases h
  | some cnt =>
    rw [hcount] at h
    dsimp only at h
    split_ifs at h with h0
    cases h
    refine ⟨cnt, h0, congrArg some ?_⟩
    rw [← List.map_take, List.take_range]
    rfl

theorem lookup_read : ∀ d < 16, freeDigit (lookup d) = some d ∧
    ¬ (lookup d = 0x20 ∨ lookup d = 0x0A) := by
  decide +kernel

theorem tempDigit_read : ∀ d < 16, d ≤ 9 → freeDigit (tempDigit d) = some d := by
  decide

theorem tempDigit_unread : ∀ d < 16, 9 < d → freeDigit (tempDigit d) = none := by
  decide

theorem tempDigit_ne : ∀ d < 16, tempDigit d ≠ 0 ∧
    ¬ (tempDigit d = 0x20 ∨ tempDigit d = 0x0A) := by
  decide

/-! ### `pmap` -/

theorem pmapAddress_eq (hp : p < 2 ^ 32) :
    pmapAddress b p = some (0x30 :: 0x78 :: numeral 16 p) := by
  rw [pmapAddress, printfHex_eq hp]
  rfl

theorem ptrLoop_numeral (hp : p < 2 ^ 32) : ptrLoop 0 (numeral 16 p) = some p := by
  unfold numeral
  split_ifs with h0
  · rw [h0]
    rfl
  · have hlt : ∀ d ∈ (Nat.digits 16 p).reverse, d < 16 := fun d hd =>
      Nat.digits_lt_base (by decide) (List.mem_reverse.1 hd)
    have hread := ptrLoop_digits (a := 0) (f := lookup) fun d hd => lookup_read d (hlt d hd)
    rw [foldl_reverse_digits, Nat.ofDigits_digits, Nat.mod_eq_of_lt hp, List.map_reverse] at hread
    exact hread

theorem pmapAddress_infix_line {line : List UInt8} {c : Block} (h : pmapLine b i c = some line) :
    ∃ text, pmapAddress b c.memStart = some text ∧ text <:+: line := by
  obtain ⟨index, -, h⟩ := Option.bind_eq_some_iff.1 h
  obtain ⟨text, htext, h⟩ := Option.bind_eq_some_iff.1 h
  obtain ⟨memEnd, -, h⟩ := Option.bind_eq_some_iff.1 h
  obtain ⟨size, -, h⟩ := Option.bind_eq_some_iff.1 h
  cases h
  refine ⟨text, htext, ascii (if 9 < i then " " else "  ") ++ index ++ ascii ":       ",
    ascii "           " ++ memEnd ++ ascii "       " ++ size ++ ascii " \n", ?_⟩
  simp only [List.append_assoc]

/-- The list that is printed has the address of every block. -/
theorem pmapAddress_infix {bs : List Block} {out : List UInt8} {c : Block}
    (h : pmapLoop b i bs = some out) (hc : c ∈ bs) :
    ∃ text, pmapAddress b c.memStart = some text ∧ text <:+: out := by
  induction bs generalizing i out with
  | nil => exact absurd hc List.not_mem_nil
  | cons c' bs ih =>
    obtain ⟨line, hline, h⟩ := Option.bind_eq_some_iff.1 h
    obtain ⟨rest, hrest, h⟩ := Option.bind_eq_some_iff.1 h
    cases h
    rcases List.mem_cons.1 hc with rfl | hc
    · obtain ⟨text, htext, hin⟩ := pmapAddress_infix_line hline
      exact ⟨text, htext, hin.trans (List.prefix_append line rest).isInfix⟩
    · obtain ⟨text, htext, hin⟩ := ih hrest hc
      exact ⟨text, htext, hin.trans (List.suffix_append line rest).isInfix⟩

/-! ### `malloc` -/

theorem addressLoop_of_lt (h : j < i) : addressLoop p b i n j = b j := by
  induction n generalizing i b with
  | zero => rfl
  | succ n ih =>
    rw [addressLoop]
    split_ifs
    · rw [ih (by omega), Function.update_of_ne (by omega)]
    · rfl

/-- The digits, from the highest one on. -/
theorem addressLoop_holds (hp : p < 2 ^ 31) : Buffer.Holds (addressLoop p b i n) i
    ((List.range n).reverse.map fun j => tempDigit ((p >>> (4 * j)) % 16)) := by
  induction n generalizing i b with
  | zero => exact Buffer.holds_nil
  | succ n ih =>
    rw [List.range_succ, List.reverse_append, List.reverse_singleton, List.singleton_append,
      List.map_cons, addressLoop, if_pos hp, Buffer.holds_cons]
    refine ⟨?_, ih⟩
    rw [addressLoop_of_lt (Nat.lt_succ_self i), Function.update_self]

/-- They are the digits of the address, with zeros in front. -/
theorem digitsAppend_eq (hp : p < 16 ^ n) :
    Nat.digitsAppend 16 n p = (List.range n).map fun j => (p >>> (4 * j)) % 16 := by
  have hlen : (Nat.digitsAppend 16 n p).length = n := Nat.length_digitsAppend (by decide) n hp
  refine List.ext_getElem (by rw [hlen, List.length_map, List.length_range]) fun j hj _ => ?_
  have hdigit : (Nat.digitsAppend 16 n p).getD j 0 = (Nat.digits 16 p).getD j 0 := by
    rw [Nat.digitsAppend]
    by_cases hin : j < (Nat.digits 16 p).length
    · rw [List.getD_append _ _ _ _ hin]
    · rw [List.getD_append_right _ _ _ _ (by omega), List.getD_eq_getElem?_getD,
        List.getElem?_getD_replicate_default_eq, List.getD_eq_default _ _ (by omega)]
  have hshift : p >>> (4 * j) = p / 16 ^ j := by
    rw [Nat.shiftRight_eq_div_pow, Nat.pow_mul]
  rw [List.getElem_map, List.getElem_range, hshift, ← Nat.getD_digits p j (by decide), ← hdigit,
    List.getD_eq_getElem _ _ hj]

theorem text_malloc (hp : p < 2 ^ 31) : Printer.malloc.text b p =
    some (0x30 :: 0x78 :: (Nat.digitsAppend 16 8 p).reverse.map tempDigit) := by
  have hdigits : Nat.digitsAppend 16 8 p = (List.range 8).map fun j => (p >>> (4 * j)) % 16 :=
    digitsAppend_eq (Nat.lt_of_lt_of_le hp (by decide))
  have hloop := addressLoop_holds (b := Function.update (Function.update b 0 0x30) 1 0x78) (i := 2)
    (n := 8) hp
  have hholds : Buffer.Holds (addressBuf b p) 0
      (0x30 :: 0x78 :: (Nat.digitsAppend 16 8 p).reverse.map tempDigit) := by
    have hlt : ∀ j < 2, addressBuf b p j = Function.update (Function.update b 0 0x30) 1 0x78 j := by
      intro j hj
      rw [addressBuf, Function.update_of_ne (by omega), addressLoop_of_lt hj]
    rw [Buffer.holds_cons, Buffer.holds_cons]
    refine ⟨hlt 0 (by decide), hlt 1 (by decide), ?_⟩
    rw [hdigits, ← List.map_reverse, List.map_map]
    exact hloop.congr fun j _ hj => Function.update_of_ne (by simp at hj; omega) ..
  have hten : (0x30 :: 0x78 :: (Nat.digitsAppend 16 8 p).reverse.map tempDigit).length = 10 := by
    simp [hdigits]
  have htext := hholds.map_range
  rw [hten] at htext
  exact congrArg some htext

/-- No letter is read. -/
theorem ptrLoop_tempDigits (hp : p < 2 ^ 31) :
    ptrLoop 0 ((Nat.digitsAppend 16 8 p).reverse.map tempDigit) = some p ↔
      ∀ d ∈ Nat.digits 16 p, d ≤ 9 := by
  have hlt : ∀ d ∈ (Nat.digitsAppend 16 8 p).reverse, d < 16 := fun d hd =>
    Nat.lt_of_mem_digitsAppend (by decide) 8 d (List.mem_reverse.1 hd)
  constructor
  · intro hread d hd
    by_contra hletter
    have hmem : d ∈ (Nat.digitsAppend 16 8 p).reverse :=
      List.mem_reverse.2 (List.mem_append_left _ hd)
    rw [ptrLoop_none (List.mem_map_of_mem hmem)
      (tempDigit_unread d (hlt d hmem) (Nat.not_le.1 hletter)) fun c hc => ?_] at hread
    · cases hread
    · obtain ⟨d', hd', rfl⟩ := List.mem_map.1 hc
      exact (tempDigit_ne d' (hlt d' hd')).2
  · intro hsmall
    -- the zeros in front are read as well
    have hle : ∀ d ∈ (Nat.digitsAppend 16 8 p).reverse, d ≤ 9 := by
      intro d hd
      rcases List.mem_append.1 (List.mem_reverse.1 hd) with hd | hd
      · exact hsmall d hd
      · rw [List.eq_of_mem_replicate hd]
        exact Nat.zero_le 9
    have hread := ptrLoop_digits (a := 0) (f := tempDigit) fun d hd =>
      ⟨tempDigit_read d (hlt d hd) (hle d hd), (tempDigit_ne d (hlt d hd)).2⟩
    have hvalue : Nat.ofDigits 16 (Nat.digitsAppend 16 8 p) = p := by
      rw [Nat.digitsAppend, Nat.ofDigits_append_replicate_zero, Nat.ofDigits_digits]
    have hmod : p % 2 ^ 32 = p := Nat.mod_eq_of_lt (by omega)
    rw [foldl_reverse_digits, hvalue, hmod] at hread
    exact hread

theorem roundTrips_malloc_iff (hp : p < 2 ^ 31) :
    RoundTrips b p .malloc ↔ ∀ d ∈ Nat.digits 16 p, d ≤ 9 := by
  have hlen : ((Nat.digitsAppend 16 8 p).reverse.map tempDigit).length ≤ 8 := by
    rw [List.length_map, List.length_reverse,
      Nat.length_digitsAppend (by decide) 8 (Nat.lt_of_lt_of_le hp (by decide))]
  have hnul : 0 ∉ (Nat.digitsAppend 16 8 p).reverse.map tempDigit := by
    intro h
    obtain ⟨d, hd, h0⟩ := List.mem_map.1 h
    exact (tempDigit_ne d (Nat.lt_of_mem_digitsAppend (by decide) 8 d (List.mem_reverse.1 hd))).1 h0
  rw [← ptrLoop_tempDigits hp, ← accepts_cons hnul hlen, RoundTrips, text_malloc hp]
  constructor
  · rintro ⟨text, htext, h⟩
    cases htext
    exact h
  · exact fun h => ⟨_, rfl, h⟩

theorem roundTrips_pmap (hp : p < 2 ^ 32) : RoundTrips b p .pmap := by
  refine ⟨_, pmapAddress_eq hp, ?_⟩
  exact (accepts_cons (zero_notMem_numeral (by decide) (by decide))
    (numeral_length_le_eight hp)).2 (ptrLoop_numeral hp)

end print

/-- **Addresses given to `free`.**  The text in which an address is shown is taken for it by `free`
exactly if `pmap` shows it, or no digit of the address is above 9. -/
theorem roundTrips_iff (pr : Printer) (b : ℕ → UInt8) {p : ℕ} (hp : p < 2 ^ 31) :
    RoundTrips b p pr ↔ pr = .pmap ∨ ∀ d ∈ Nat.digits 16 p, d ≤ 9 := by
  cases pr with
  | malloc =>
    rw [roundTrips_malloc_iff hp]
    exact (or_iff_right (by decide)).symm
  | pmap => exact iff_of_true (roundTrips_pmap (by omega)) (.inl rfl)

/-- An address without letters. -/
theorem roundTrips_letterless : RoundTrips (fun _ => 0) 0x9000000 .malloc :=
  (roundTrips_iff .malloc _ (by decide)).2 (.inr (by decide))

/-- The address of the first block of a byte, `0x0efffffd`, is not taken for it. -/
theorem not_roundTrips : ¬ ∀ s : HeapState, heapMachine.Reachable .init s →
    ∀ c ∈ s.live, c.1 < 2 ^ 31 → ∀ b pr, RoundTrips b c.1 pr := by
  intro h
  have hrun : ((heapMachine.exec .init [.malloc 1 0]).map HeapState.live) =
      some [(0xEFFFFFD, 1)] := by decide
  obtain ⟨s, hs, hlive⟩ := Option.map_eq_some_iff.1 hrun
  have hmem : (0xEFFFFFD, 1) ∈ s.live := by rw [hlive]; exact List.mem_singleton_self _
  have htrip := h s (Machine.reachable_of_exec hs) _ hmem (by decide) (fun _ => 0) .malloc
  exact absurd ((roundTrips_malloc_iff (by decide)).1 htrip) (by decide)

/-- **The arena has letters in its addresses.**  While every request finds room, `free` takes no
address that `malloc` has printed. -/
theorem not_roundTrips_malloc {s : HeapState} (h : heapMachine.Reach RoomStep .init s) {c : ℕ × ℕ}
    (hc : c ∈ s.live) (b : ℕ → UInt8) : ¬ RoundTrips b c.1 .malloc := by
  obtain ⟨hfloor, hceil⟩ := (HeapInv.of_reach h).safe.arena c hc
  change 0x9FFFFFF ≤ c.1 at hfloor
  change c.1 + c.2 ≤ 0xEFFFFFF at hceil
  intro htrip
  have hsmall := (roundTrips_malloc_iff (by omega)).1 htrip
  have hdigit : ∀ i, c.1 / 16 ^ i % 16 ≤ 9 := by
    intro i
    rw [← Nat.getD_digits c.1 i (by decide), List.getD_eq_getElem?_getD]
    cases hi : (Nat.digits 16 c.1)[i]? with
    | none => exact Nat.zero_le 9
    | some d => exact hsmall d (List.mem_of_getElem? hi)
  -- the addresses from `0x0a000000` on have a letter in the second place, `0x09ffffff` has others
  have h6 := hdigit 6
  have h5 := hdigit 5
  omega

end KTeamOS
