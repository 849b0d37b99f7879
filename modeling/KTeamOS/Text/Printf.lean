import KTeamOS.Buffer.Checked
import KTeamOS.Text.Itoa

/-!
# `printf`

`printf` of `lib.c` makes its numbers in arrays on the stack.  `%#x` pads them by hand: `itoa`
writes the digits from index 8 on, and zeros go into the gap in front of them, from the index that
is the number of digits.  The functions of this file are those of the source on an array of a fixed
size; `none` is an access behind it.

## Main results

* `printf_isSome_iff` : no conversion leaves its array, for any arguments; `printf` fails only for
  a format that ends in the middle of a conversion.
* `numerals_printed` : `itoa` writes the numeral of its value, and `%#x` prints it with 8 digits.
-/

namespace KTeamOS

/-! ### Functions on an array of a fixed size -/

/-- `strlen` -/
def strlenIn (size : ℕ) (b : ℕ → UInt8) (s : ℕ) : Option ℕ :=
  (Buffer.stringIn size b 0 size s).map List.length

/-- The characters that `puts` prints. -/
def putsIn (size : ℕ) (b : ℕ → UInt8) (s : ℕ) : Option (List UInt8) :=
  Buffer.stringIn size b 0 size s

/-- `strrev` -/
def strrevIn (size : ℕ) (b : ℕ → UInt8) (s : ℕ) : Option (ℕ → UInt8) := do
  let len ← strlenIn size b s
  Buffer.reverseIn size b s 0 (len - 1)

/-- The loop of `itoa`, if it ends within `n` turns: the array, and `newbuf`. -/
def itoaLoopIn (size radix : ℕ) : ℕ → ℕ → (ℕ → UInt8) → ℕ → Option ((ℕ → UInt8) × ℕ)
  | 0, newval, b, newbuf => if newval = 0 then some (b, newbuf) else none
  | n + 1, newval, b, newbuf =>
    if newval = 0 then some (b, newbuf)
    else do
      let b ← Buffer.writeIn size b newbuf (lookup (newval % radix))
      itoaLoopIn size radix n (newval / radix) b (newbuf + 1)

/-- `itoa` -/
def itoaIn (size value : ℕ) (b : ℕ → UInt8) (buf radix : ℕ) : Option (ℕ → UInt8) :=
  if value = 0 then do
    let b ← Buffer.writeIn size b buf 0x30
    Buffer.writeIn size b (buf + 1) 0
  else do
    let (b, newbuf) ← itoaLoopIn size radix maxDigits value b buf
    let b ← Buffer.writeIn size b newbuf 0
    strrevIn size b buf

/-! ### `printf` -/

/-- What `printf` finds in memory. -/
structure PrintfCall where
  /-- The words behind the format. -/
  esp : ℕ → UInt32
  /-- The string at an address. -/
  text : UInt32 → Option CString
  /-- What lies in `conv_buf` before the conversion of a word. -/
  convBuf : ℕ → ℕ → UInt8

namespace PrintfCall

variable (e : PrintfCall)

/-- The switch behind `%` for the specifier `c`, the word `k` being the next one: the characters
that it prints, and the next word then. -/
def convert (alternate : Bool) (c : UInt8) (k : ℕ) : Option (List UInt8 × ℕ) :=
  if c = 0x25 then some ([0x25], k)
  else if c = 0x78 then
    if alternate then do
      let b ← itoaIn 64 (e.esp k).toNat (e.convBuf k) 8 16
      let startingIndex ← strlenIn 64 b 8
      let b ← Buffer.fillIn 64 b startingIndex 0x30 (8 - startingIndex)
      let out ← putsIn 64 b startingIndex
      some (out, k + 1)
    else do
      let b ← itoaIn 64 (e.esp k).toNat (e.convBuf k) 0 16
      let out ← putsIn 64 b 0
      some (out, k + 1)
  else if c = 0x75 then do
    let b ← itoaIn 36 (e.esp k).toNat (e.convBuf k) 0 10
    let out ← putsIn 36 b 0
    some (out, k + 1)
  else if c = 0x64 then do
    let value := int32 (e.esp k).toNat
    let b ←
      if value < 0 then do
        let b ← Buffer.writeIn 36 (e.convBuf k) 0 0x2D
        itoaIn 36 (uint32 (-value)).toNat b 1 10
      else itoaIn 36 value.toNat (e.convBuf k) 0 10
    let out ← putsIn 36 b 0
    some (out, k + 1)
  else if c = 0x63 then some ([(e.esp k).toUInt8], k + 1)
  else if c = 0x73 then (e.text (e.esp k)).map fun s => (s.chars, k + 1)
  else some ([], k)

/-- The loop over the rest of the format.  The first argument is `alternate` behind a `%`. -/
def printfLoop : Option Bool → List UInt8 → ℕ → Option (List UInt8)
  | none, [], _ => some []
  | some _, [], _ => none -- the NUL is the specifier, and the loop goes on behind it
  | none, c :: cs, k =>
    if c = 0x25 then printfLoop (some false) cs k
    else (printfLoop none cs k).map (c :: ·)
  | some alternate, c :: cs, k =>
    if c = 0x23 then printfLoop (some true) cs k
    else do
      let (out, k) ← e.convert alternate c k
      let rest ← printfLoop none cs k
      some (out ++ rest)

/-- What `printf` prints, and its result. -/
def printf (format : CString) : Option (List UInt8 × ℕ) :=
  (e.printfLoop none format.chars 0).map fun out => (out, format.chars.length)

end PrintfCall

/-! ### Inside of the array -/

section

variable {size radix value n p : ℕ} {b : ℕ → UInt8} {cs : List UInt8}

theorem putsIn_eq (h : Buffer.Holds b p (cs ++ [0])) (h0 : 0 ∉ cs) (hsize : p + cs.length < size) :
    putsIn size b p = some cs :=
  Buffer.stringIn_eq h h0 hsize (by omega)

theorem strlenIn_eq (h : Buffer.Holds b p (cs ++ [0])) (h0 : 0 ∉ cs)
    (hsize : p + cs.length < size) : strlenIn size b p = some cs.length :=
  congrArg (Option.map List.length) (putsIn_eq h h0 hsize)

theorem itoaLoopIn_eq (hr : 2 ≤ radix) (hsize : p + (Nat.digits radix value).length ≤ size) :
    itoaLoopIn size radix n value b p = itoaLoop radix n value b p := by
  induction n generalizing value b p with
  | zero => rfl
  | succ n ih =>
    rw [itoaLoopIn, itoaLoop]
    by_cases h0 : value = 0
    · rw [if_pos h0, if_pos h0]
    · rw [Nat.digits_eq_cons_digits_div hr h0, List.length_cons] at hsize
      rw [if_neg h0, if_neg h0, Buffer.writeIn_eq (by omega), Option.bind_eq_bind, Option.bind_some]
      exact ih (by omega)

theorem strrevIn_eq (h : Buffer.Holds b p (cs ++ [0])) (h0 : 0 ∉ cs) (hlen : cs.length ≤ maxDigits)
    (hsize : p + cs.length < size) : strrevIn size b p = some (strrev b p) := by
  rw [strrevIn, strlenIn_eq h h0 hsize, strrev_eq h h0 hlen, Option.bind_eq_bind, Option.bind_some,
    Buffer.reverseIn_eq (by omega)]

/-- `itoa` needs room for the numeral and a NUL. -/
theorem itoaIn_eq (hr : 2 ≤ radix) (hr' : radix ≤ 36) (hv : value < 2 ^ 32)
    (hsize : p + (numeral radix value).length < size) :
    itoaIn size value b p radix = itoa value b p radix := by
  by_cases h0 : value = 0
  · have hone : (numeral radix value).length = 1 := by rw [numeral, if_pos h0]; rfl
    rw [itoaIn, itoa, if_pos h0, if_pos h0, Buffer.writeIn_eq (by omega), Option.bind_eq_bind,
      Option.bind_some, Buffer.writeIn_eq (by omega)]
  · obtain ⟨b', cs, hloop, hstr, hnul, hlen, -, hnum, -⟩ :=
      itoaLoop_string (b := b) (p := p) hr hr' hv h0
    rw [← hnum, List.length_reverse] at hsize
    have hroom : p + (Nat.digits radix value).length ≤ size := by
      have hcs := congrArg List.length hnum
      rw [numeral, if_neg h0, List.length_reverse, List.length_reverse, List.length_map] at hcs
      omega
    rw [itoaIn, itoa, if_neg h0, if_neg h0, itoaLoopIn_eq hr hroom, hloop]
    simp only [Option.bind_eq_bind, Option.bind_some, Buffer.writeIn_eq hsize]
    exact strrevIn_eq hstr hnul hlen hsize

/-- `itoa` and `puts` together, in an array with room for the numeral. -/
theorem itoaIn_spec (hr : 2 ≤ radix) (hr' : radix ≤ 36) (hv : value < 2 ^ 32)
    (hsize : p + maxDigits < size) :
    ∃ b', itoaIn size value b p radix = some b' ∧ Buffer.Holds b' p (numeral radix value ++ [0]) ∧
      ∀ j, j < p ∨ p + (numeral radix value).length < j → b' j = b j := by
  have hlen := numeral_length_le hr hv
  rw [itoaIn_eq hr hr' hv (by omega)]
  exact itoa_spec hr hr' hv

/-- `itoa`, and then `puts` of the same string. -/
theorem putsIn_itoaIn (hr : 2 ≤ radix) (hr' : radix ≤ 36) (hv : value < 2 ^ 32)
    (hsize : p + maxDigits < size) : ∃ b', itoaIn size value b p radix = some b' ∧
      putsIn size b' p = some (numeral radix value) := by
  obtain ⟨b', hitoa, hholds, -⟩ := itoaIn_spec (b := b) hr hr' hv hsize
  have hlen := numeral_length_le hr hv
  exact ⟨b', hitoa, putsIn_eq hholds (zero_notMem_numeral hr hr') (by omega)⟩

end

namespace PrintfCall

/-- What the loop is in the middle of at the end of the format. -/
def formatMode : Option Bool → List UInt8 → Option Bool
  | m, [] => m
  | none, c :: cs => if c = 0x25 then formatMode (some false) cs else formatMode none cs
  | some _, c :: cs => if c = 0x23 then formatMode (some true) cs else formatMode none cs

/-- What `%#x` prints. -/
def paddedHex (value : ℕ) : List UInt8 :=
  List.replicate (8 - (numeral 16 value).length) 0x30 ++ numeral 16 value

/-- What `%d` prints. -/
def signedNumeral (value : ℤ) : List UInt8 :=
  if value < 0 then 0x2D :: numeral 10 (uint32 (-value)).toNat else numeral 10 value.toNat

section

variable {e : PrintfCall} {alternate : Bool} {c : UInt8} {k : ℕ} {format : CString}

theorem convert_hex : e.convert false 0x78 k = some (numeral 16 (e.esp k).toNat, k + 1) := by
  obtain ⟨b, hitoa, hputs⟩ : ∃ b, itoaIn 64 (e.esp k).toNat (e.convBuf k) 0 16 = some b ∧
      putsIn 64 b 0 = some (numeral 16 (e.esp k).toNat) :=
    putsIn_itoaIn (by decide) (by decide) (e.esp k).toNat_lt (by decide)
  rw [convert, if_neg (by decide), if_pos rfl, if_neg (by decide), hitoa, Option.bind_eq_bind,
    Option.bind_some, hputs, Option.bind_eq_bind, Option.bind_some]

/-- `%#x`: the zeros fill the gap exactly. -/
theorem convert_alternate : e.convert true 0x78 k = some (paddedHex (e.esp k).toNat, k + 1) := by
  have hr : 2 ≤ 16 := by decide
  have hv : (e.esp k).toNat < 2 ^ 32 := (e.esp k).toNat_lt
  have hnul : 0 ∉ numeral 16 (e.esp k).toNat := zero_notMem_numeral hr (by decide)
  have hlen : (numeral 16 (e.esp k).toNat).length ≤ 8 := numeral_length_le_eight hv
  obtain ⟨b, hitoa, hholds, -⟩ : ∃ b, itoaIn 64 (e.esp k).toNat (e.convBuf k) 8 16 = some b ∧
      Buffer.Holds b 8 (numeral 16 (e.esp k).toNat ++ [0]) ∧ _ :=
    itoaIn_spec hr (by decide) hv (by decide)
  rw [convert, if_neg (by decide), if_pos rfl, if_pos rfl, hitoa, Option.bind_eq_bind,
    Option.bind_some, strlenIn_eq hholds hnul (by omega), Option.bind_eq_bind, Option.bind_some,
    Buffer.fillIn_eq (by omega), Option.bind_eq_bind, Option.bind_some, paddedHex]
  generalize numeral 16 (e.esp k).toNat = s at *
  have hpadded : Buffer.Holds (Buffer.fill b s.length 0x30 (8 - s.length)) s.length
      (List.replicate (8 - s.length) 0x30 ++ s ++ [0]) := by
    rw [List.append_assoc, Buffer.holds_append, List.length_replicate, Nat.add_sub_cancel' hlen]
    refine ⟨Buffer.holds_fill, hholds.congr fun j hj _ => ?_⟩
    rw [Buffer.fill_apply, if_neg (by omega)]
  have hputs : putsIn 64 (Buffer.fill b s.length 0x30 (8 - s.length)) s.length =
      some (List.replicate (8 - s.length) 0x30 ++ s) := by
    refine putsIn_eq hpadded (fun h => ?_) ?_
    · rcases List.mem_append.1 h with h | h
      · exact absurd (List.eq_of_mem_replicate h) (by decide)
      · exact hnul h
    · rw [List.length_append, List.length_replicate]
      omega
  rw [hputs, Option.bind_some]

theorem convert_unsigned :
    e.convert alternate 0x75 k = some (numeral 10 (e.esp k).toNat, k + 1) := by
  obtain ⟨b, hitoa, hputs⟩ : ∃ b, itoaIn 36 (e.esp k).toNat (e.convBuf k) 0 10 = some b ∧
      putsIn 36 b 0 = some (numeral 10 (e.esp k).toNat) :=
    putsIn_itoaIn (by decide) (by decide) (e.esp k).toNat_lt (by decide)
  rw [convert, if_neg (by decide), if_neg (by decide), if_pos rfl, hitoa, Option.bind_eq_bind,
    Option.bind_some, hputs, Option.bind_eq_bind, Option.bind_some]

theorem convert_signed :
    e.convert alternate 0x64 k = some (signedNumeral (int32 (e.esp k).toNat), k + 1) := by
  rw [convert, if_neg (by decide), if_neg (by decide), if_neg (by decide), if_pos rfl]
  generalize hvalue : int32 (e.esp k).toNat = value
  have hbound : value < 2 ^ 31 := hvalue ▸ int32_lt
  dsimp only
  rw [signedNumeral]
  split_ifs with hneg
  · have hv : (uint32 (-value)).toNat < 2 ^ 32 := uint32_toNat_lt
    obtain ⟨b, hitoa, hholds, hframe⟩ : ∃ b,
        itoaIn 36 (uint32 (-value)).toNat (Function.update (e.convBuf k) 0 0x2D) 1 10 = some b ∧
          Buffer.Holds b 1 (numeral 10 (uint32 (-value)).toNat ++ [0]) ∧ _ :=
      itoaIn_spec (by decide) (by decide) hv (by decide)
    have hminus : b 0 = 0x2D := by rw [hframe 0 (.inl Nat.zero_lt_one), Function.update_self]
    have hlen : (numeral 10 (uint32 (-value)).toNat).length ≤ 32 := numeral_length_le (by decide) hv
    have hnul : 0 ∉ numeral 10 (uint32 (-value)).toNat :=
      zero_notMem_numeral (by decide) (by decide)
    have hputs : putsIn 36 b 0 = some (0x2D :: numeral 10 (uint32 (-value)).toNat) := by
      refine putsIn_eq ?_ ?_ ?_
      · rw [List.cons_append, Buffer.holds_cons]
        exact ⟨hminus, hholds⟩
      · rw [List.mem_cons, not_or]
        exact ⟨by decide, hnul⟩
      · rw [List.length_cons, Nat.zero_add]
        exact Nat.lt_of_le_of_lt (Nat.succ_le_succ hlen) (by decide)
    rw [Buffer.writeIn_eq (by decide), Option.bind_eq_bind, Option.bind_some, hitoa,
      Option.bind_eq_bind, Option.bind_some, hputs, Option.bind_some]
  · obtain ⟨b, hitoa, hputs⟩ : ∃ b, itoaIn 36 value.toNat (e.convBuf k) 0 10 = some b ∧
        putsIn 36 b 0 = some (numeral 10 value.toNat) :=
      putsIn_itoaIn (by decide) (by decide) (by omega) (by decide)
    rw [hitoa, Option.bind_eq_bind, Option.bind_some, hputs, Option.bind_eq_bind, Option.bind_some]

/-- `%x` is what the list of `pmap` has its addresses from. -/
theorem convert_hex_eq : e.convert false 0x78 k =
    (printfHex (e.convBuf k) (e.esp k).toNat).map fun out => (out, k + 1) := by
  rw [convert_hex, printfHex_eq (e.esp k).toNat_lt]
  rfl

/-- No conversion leaves its array. -/
theorem convert_isSome (htext : ∀ a, (e.text a).isSome) : (e.convert alternate c k).isSome := by
  by_cases hx : c = 0x78
  · subst hx
    cases alternate with
    | false =>
      rw [convert_hex]
      rfl
    | true =>
      rw [convert_alternate]
      rfl
  by_cases hu : c = 0x75
  · rw [hu, convert_unsigned]
    rfl
  by_cases hd : c = 0x64
  · rw [hd, convert_signed]
    rfl
  rw [convert, if_neg hx, if_neg hu, if_neg hd]
  split_ifs
  · rfl
  · rfl
  · rw [Option.isSome_map]
    exact htext _
  · rfl

theorem printfLoop_isSome_iff (htext : ∀ a, (e.text a).isSome) (m : Option Bool)
    (cs : List UInt8) (k : ℕ) : (e.printfLoop m cs k).isSome ↔ formatMode m cs = none := by
  induction cs generalizing m k with
  | nil => cases m <;> simp [printfLoop, formatMode]
  | cons c cs ih =>
    cases m with
    | none =>
      rw [printfLoop, formatMode]
      split_ifs
      · exact ih ..
      · rw [Option.isSome_map]
        exact ih ..
    | some alternate =>
      rw [printfLoop, formatMode]
      split_ifs
      · exact ih ..
      · obtain ⟨⟨out, k'⟩, hconv⟩ :=
          Option.isSome_iff_exists.1 (convert_isSome htext : (e.convert alternate c k).isSome)
        rw [hconv, Option.bind_eq_bind, Option.bind_some, ← ih none k']
        dsimp only
        cases e.printfLoop none cs k' <;> rfl

/-- **No access of `printf` is behind an array**, and it fails only for a format that ends in the
middle of a conversion. -/
theorem printf_isSome_iff (htext : ∀ a, (e.text a).isSome) :
    (e.printf format).isSome ↔ formatMode none format.chars = none := by
  rw [printf, Option.isSome_map]
  exact printfLoop_isSome_iff htext ..

/-- `%#x`, wherever it stands in the format. -/
theorem printfLoop_alternate (cs : List UInt8) : e.printfLoop none (0x25 :: 0x23 :: 0x78 :: cs) k =
    (e.printfLoop none cs (k + 1)).map (paddedHex (e.esp k).toNat ++ ·) := by
  rw [printfLoop, if_pos rfl, printfLoop, if_pos rfl, printfLoop, if_neg (by decide),
    convert_alternate, Option.bind_eq_bind, Option.bind_some]
  dsimp only
  cases e.printfLoop none cs (k + 1) <;> rfl

theorem paddedHex_length {value : ℕ} (hv : value < 2 ^ 32) : (paddedHex value).length = 8 := by
  have hlen := numeral_length_le_eight hv
  rw [paddedHex, List.length_append, List.length_replicate]
  omega

theorem isNumeral_paddedHex (value : ℕ) : IsNumeral 16 value (paddedHex value) :=
  (isNumeral_numeral (by decide) (by decide)).replicate_append (by decide)

end

/-- **Numbers in text.**  `itoa` leaves the numeral of its value behind `buf`, with no zero in
front, a NUL behind it and nothing else changed; `%#x` prints 8 digits with the value of its
argument, and all its accesses are inside of `conv_buf`. -/
theorem numerals_printed :
    (∀ (v : UInt32) (radix : ℕ) (b : ℕ → UInt8) (buf : ℕ), 2 ≤ radix → radix ≤ 36 →
      ∃ b' s, itoa v.toNat b buf radix = some b' ∧ Buffer.Holds b' buf (s ++ [0]) ∧ 0 ∉ s ∧
        IsNumeral radix v.toNat s ∧ s ≠ [] ∧ (v = 0 → s = [0x30]) ∧
        (s.head? = some 0x30 → s = [0x30]) ∧ ∀ j, j < buf ∨ buf + s.length < j → b' j = b j) ∧
      ∀ e : PrintfCall, ∃ out, e.printf ⟨[0x25, 0x23, 0x78], by decide⟩ = some (out, 3) ∧
        out.length = 8 ∧ IsNumeral 16 (e.esp 0).toNat out := by
  refine ⟨fun v radix b buf hr hr' => ?_, fun e => ?_⟩
  · obtain ⟨b', hitoa, hholds, hframe⟩ := itoa_spec hr hr' v.toNat_lt
    exact ⟨b', numeral radix v.toNat, hitoa, hholds, zero_notMem_numeral hr hr',
      isNumeral_numeral hr hr', numeral_ne_nil, fun h0 => h0 ▸ rfl, numeral_head hr hr', hframe⟩
  · refine ⟨paddedHex (e.esp 0).toNat, ?_, paddedHex_length (e.esp 0).toNat_lt,
      isNumeral_paddedHex _⟩
    rw [printf, printfLoop_alternate, printfLoop, Option.map_some, List.append_nil]
    rfl

theorem numerals_printed_255 : ∃ b' s, itoa 255 (fun _ => 7) 3 16 = some b' ∧
    Buffer.Holds b' 3 (s ++ [0]) ∧ 0 ∉ s ∧ IsNumeral 16 255 s ∧ s ≠ [] ∧
    ((255 : UInt32) = 0 → s = [0x30]) ∧ (s.head? = some 0x30 → s = [0x30]) ∧
    ∀ j, j < 3 ∨ 3 + s.length < j → b' j = 7 :=
  numerals_printed.1 255 16 (fun _ => 7) 3 (by decide) (by decide)

end PrintfCall

end KTeamOS
