import Mathlib.Data.Nat.Digits.Lemmas
import KTeamOS.Buffer.Basic
import KTeamOS.Text.CString
import KTeamOS.Word.Signed

/-!
# Printing numbers

`itoa` and `strrev` of `lib.c`, and what `printf` prints with them.  `itoa` writes the digits from
the lowest one on and reverses them in place; `itoa_spec` says that it leaves the numeral of the
value, and nothing else changed.
-/

namespace KTeamOS

/-- The characters of a text in the source. -/
def ascii (s : String) : List UInt8 := s.toList.map fun c => c.toNat.toUInt8

/-- `lookup[i]` in `itoa` -/
def lookup (i : ℕ) : UInt8 := (ascii "0123456789ABCDEFGHIJKLMNOPQRSTUVWXYZ")[i]?.getD 0

/-- The most digits that a value can have. -/
abbrev maxDigits : ℕ := 32

/-- The loop of `itoa`, if it ends within `n` turns: the memory, and `newbuf`. -/
def itoaLoop (radix : ℕ) : ℕ → ℕ → (ℕ → UInt8) → ℕ → Option ((ℕ → UInt8) × ℕ)
  | 0, newval, b, newbuf => if newval = 0 then some (b, newbuf) else none
  | n + 1, newval, b, newbuf =>
    if newval = 0 then some (b, newbuf)
    else
      itoaLoop radix n (newval / radix) (Function.update b newbuf (lookup (newval % radix)))
        (newbuf + 1)

/-- `strrev`, of the string at `s`, which ends within `maxDigits` characters. -/
def strrev (b : ℕ → UInt8) (s : ℕ) : ℕ → UInt8 :=
  Buffer.reverse b s 0 ((field b (maxDigits + 1) s).length - 1)

/-- `itoa`, `buf` being an address in `b`. -/
def itoa (value : ℕ) (b : ℕ → UInt8) (buf radix : ℕ) : Option (ℕ → UInt8) :=
  if value = 0 then some (Function.update (Function.update b buf 0x30) (buf + 1) 0)
  else do
    let (b, newbuf) ← itoaLoop radix maxDigits value b buf
    some (strrev (Function.update b newbuf 0) buf)

/-- The numeral of a number, without leading zeros. -/
def numeral (radix value : ℕ) : List UInt8 :=
  if value = 0 then [0x30] else ((Nat.digits radix value).map lookup).reverse

/-- What `printf` prints for `%x`; `convBuf` is what lies in `conv_buf`. -/
def printfHex (convBuf : ℕ → UInt8) (value : ℕ) : Option (List UInt8) := do
  let b ← itoa value convBuf 0 16
  some (field b 64 0)

/-- What `printf` prints for `%d`. -/
def printfInt (convBuf : ℕ → UInt8) (value : ℤ) : Option (List UInt8) := do
  let b ←
    if value < 0 then itoa (uint32 (-value)).toNat (Function.update convBuf 0 0x2D) 1 10
    else itoa value.toNat convBuf 0 10
  some (field b 36 0)

/-- The digit that a character of `lookup` stands for. -/
def digitValue (c : UInt8) : ℕ := (ascii "0123456789ABCDEFGHIJKLMNOPQRSTUVWXYZ").idxOf c

/-- The value of a numeral. -/
def evaluate (radix : ℕ) (s : List UInt8) : ℕ := s.foldl (fun v c => v * radix + digitValue c) 0

/-- The digits of `s` are digits of the base, and their value is `value`. -/
structure IsNumeral (radix value : ℕ) (s : List UInt8) : Prop where
  digits : ∀ c ∈ s, ∃ d < radix, c = lookup d
  value_eq : evaluate radix s = value

section itoa

variable {radix value n p : ℕ} {b : ℕ → UInt8} {s : List UInt8}

theorem lookup_ne_zero {i : ℕ} (h : i < 36) : lookup i ≠ 0 := by
  revert i
  decide +kernel

theorem digitValue_lookup {d : ℕ} (h : d < 36) : digitValue (lookup d) = d := by
  revert d
  decide +kernel

/-- The value of the digits of a number. -/
theorem foldl_reverse_digits (radix : ℕ) (ds : List ℕ) :
    ds.reverse.foldl (fun v d => v * radix + d) 0 = Nat.ofDigits radix ds := by
  rw [List.foldl_reverse, Nat.ofDigits_eq_foldr]
  congr 1
  funext d v
  rw [Nat.cast_id, Nat.add_comm, Nat.mul_comm]

theorem evaluate_map_lookup {ds : List ℕ} (h : ∀ d ∈ ds, d < 36) :
    evaluate radix (ds.map lookup) = ds.foldl (fun v d => v * radix + d) 0 := by
  rw [evaluate, List.foldl_map]
  exact List.foldl_ext _ _ _ fun v d hd => by rw [digitValue_lookup (h d hd)]

theorem isNumeral_numeral (hr : 2 ≤ radix) (hr' : radix ≤ 36) :
    IsNumeral radix value (numeral radix value) := by
  unfold numeral
  split_ifs with h0
  · refine ⟨fun c hc => ⟨0, Nat.lt_of_lt_of_le Nat.zero_lt_two hr, List.mem_singleton.1 hc⟩, ?_⟩
    rw [h0, evaluate, List.foldl_cons, Nat.zero_mul]
    rfl
  · have hlt : ∀ d ∈ (Nat.digits radix value).reverse, d < radix := fun d hd =>
      Nat.digits_lt_base hr (List.mem_reverse.1 hd)
    rw [← List.map_reverse]
    refine ⟨fun c hc => ?_, ?_⟩
    · obtain ⟨d, hd, rfl⟩ := List.mem_map.1 hc
      exact ⟨d, hlt d hd, rfl⟩
    · rw [evaluate_map_lookup fun d hd => Nat.lt_of_lt_of_le (hlt d hd) hr', foldl_reverse_digits,
        Nat.ofDigits_digits]

theorem numeral_ne_nil : numeral radix value ≠ [] := by
  unfold numeral
  split_ifs with h0
  · decide
  · rw [ne_eq, List.reverse_eq_nil_iff, List.map_eq_nil_iff, Nat.digits_eq_nil_iff_eq_zero]
    exact h0

/-- Only the numeral of 0 starts with a 0. -/
theorem numeral_head (hr : 2 ≤ radix) (hr' : radix ≤ 36)
    (h : (numeral radix value).head? = some 0x30) : numeral radix value = [0x30] := by
  by_cases h0 : value = 0
  · exact if_pos h0
  · have hne : Nat.digits radix value ≠ [] := Nat.digits_ne_nil_iff_ne_zero.2 h0
    have hlast : (Nat.digits radix value).getLast hne < 36 :=
      Nat.lt_of_lt_of_le (Nat.digits_lt_base hr (List.getLast_mem hne)) hr'
    rw [numeral, if_neg h0, List.head?_reverse, List.getLast?_map,
      List.getLast?_eq_getLast_of_ne_nil hne, Option.map_some, Option.some.injEq] at h
    have hzero : (Nat.digits radix value).getLast hne = 0 := by
      rw [← digitValue_lookup hlast, h]
      rfl
    exact absurd hzero (Nat.getLast_digit_ne_zero radix h0)

/-- Zeros in front do not change the value. -/
theorem IsNumeral.replicate_append (hr : 0 < radix) (h : IsNumeral radix value s) :
    IsNumeral radix value (List.replicate n 0x30 ++ s) where
  digits c hc := by
    rcases List.mem_append.1 hc with hc | hc
    · exact ⟨0, hr, List.eq_of_mem_replicate hc⟩
    · exact h.digits c hc
  value_eq := by
    rw [← h.value_eq, evaluate, List.foldl_append]
    congr 1
    induction n with
    | zero => rfl
    | succ n ih =>
      rw [List.replicate_succ, List.foldl_cons, Nat.zero_mul]
      exact ih

/-- The digits, from the lowest one on. -/
theorem itoaLoop_spec (hr : 2 ≤ radix) (hv : value < radix ^ n) :
    ∃ b', itoaLoop radix n value b p = some (b', p + (Nat.digits radix value).length) ∧
      Buffer.Holds b' p ((Nat.digits radix value).map lookup) ∧
      ∀ j, j < p ∨ p + (Nat.digits radix value).length ≤ j → b' j = b j := by
  induction n generalizing value b p with
  | zero =>
    obtain rfl : value = 0 := Nat.lt_one_iff.1 hv
    rw [Nat.digits_zero]
    exact ⟨b, rfl, Buffer.holds_nil, fun _ _ => rfl⟩
  | succ n ih =>
    rw [itoaLoop]
    by_cases h0 : value = 0
    · rw [if_pos h0, h0, Nat.digits_zero]
      exact ⟨b, rfl, Buffer.holds_nil, fun _ _ => rfl⟩
    · have hdiv : value / radix < radix ^ n :=
        Nat.div_lt_of_lt_mul (by rwa [Nat.pow_succ'] at hv)
      obtain ⟨b', hloop, hholds, hframe⟩ :=
        ih (b := Function.update b p (lookup (value % radix))) (p := p + 1) hdiv
      rw [if_neg h0, Nat.digits_eq_cons_digits_div hr h0, List.map_cons, List.length_cons]
      refine ⟨b', ?_, Buffer.holds_cons.2 ⟨?_, hholds⟩, fun j hj => ?_⟩
      · rw [hloop, Nat.add_assoc, Nat.add_comm 1]
      · rw [hframe p (.inl (Nat.lt_succ_self p)), Function.update_self]
      · rw [hframe j (by omega), Function.update_of_ne (by omega)]

theorem zero_notMem_numeral (hr : 2 ≤ radix) (hr' : radix ≤ 36) : 0 ∉ numeral radix value := by
  unfold numeral
  split_ifs
  · decide
  · rw [List.mem_reverse, List.mem_map]
    rintro ⟨d, hd, h0⟩
    exact lookup_ne_zero (Nat.lt_of_lt_of_le (Nat.digits_lt_base hr hd) hr') h0

theorem numeral_length_le (hr : 2 ≤ radix) (hv : value < 2 ^ 32) :
    (numeral radix value).length ≤ maxDigits := by
  unfold numeral
  split_ifs
  · decide
  · rw [List.length_reverse, List.length_map, Nat.digits_length_le_iff hr]
    exact Nat.lt_of_lt_of_le hv (Nat.pow_le_pow_left hr _)

theorem numeral_length_le_eight (hv : value < 2 ^ 32) : (numeral 16 value).length ≤ 8 := by
  unfold numeral
  split_ifs
  · decide
  · rw [List.length_reverse, List.length_map, Nat.digits_length_le_iff (by decide)]
    exact hv

/-- The string that `itoa` reverses: the digits of a value other than 0, the lowest one first. -/
theorem itoaLoop_string (hr : 2 ≤ radix) (hr' : radix ≤ 36) (hv : value < 2 ^ 32) (h0 : value ≠ 0) :
    ∃ b' cs, itoaLoop radix maxDigits value b p = some (b', p + cs.length) ∧
      Buffer.Holds (Function.update b' (p + cs.length) 0) p (cs ++ [0]) ∧ 0 ∉ cs ∧
      cs.length ≤ maxDigits ∧ cs ≠ [] ∧ cs.reverse = numeral radix value ∧
      ∀ j, j < p ∨ p + cs.length ≤ j → b' j = b j := by
  have hnum : ((Nat.digits radix value).map lookup).reverse = numeral radix value :=
    (if_neg h0).symm
  have hlen := numeral_length_le hr hv
  have hnul : 0 ∉ numeral radix value := zero_notMem_numeral hr hr'
  rw [← hnum, List.length_reverse] at hlen
  rw [← hnum, List.mem_reverse] at hnul
  obtain ⟨b', hloop, hholds, hframe⟩ := itoaLoop_spec (b := b) (p := p) hr
    (Nat.lt_of_lt_of_le hv (Nat.pow_le_pow_left hr maxDigits))
  refine ⟨b', (Nat.digits radix value).map lookup, ?_, hholds.concat, hnul, hlen, ?_, hnum, ?_⟩
  · rw [hloop, List.length_map]
  · rw [ne_eq, List.map_eq_nil_iff]
    exact Nat.digits_ne_nil_iff_ne_zero.2 h0
  · rwa [List.length_map]

theorem strrev_eq (h : Buffer.Holds b p (s ++ [0])) (h0 : 0 ∉ s) (hlen : s.length ≤ maxDigits) :
    strrev b p = Buffer.reverse b p 0 (s.length - 1) := by
  obtain ⟨hchars, hend⟩ := Buffer.holds_concat.1 h
  rw [strrev, field_eq h0 (Nat.le_succ_of_le hlen) hchars fun _ => hend]

/-- **`itoa`** leaves the numeral with a NUL behind it, and the rest of the memory as it was. -/
theorem itoa_spec (hr : 2 ≤ radix) (hr' : radix ≤ 36) (hv : value < 2 ^ 32) :
    ∃ b', itoa value b p radix = some b' ∧ Buffer.Holds b' p (numeral radix value ++ [0]) ∧
      ∀ j, j < p ∨ p + (numeral radix value).length < j → b' j = b j := by
  by_cases h0 : value = 0
  · rw [numeral, if_pos h0]
    refine ⟨_, if_pos h0, ?_, fun j hj => ?_⟩
    · rw [Buffer.holds_concat, Buffer.holds_cons]
      refine ⟨⟨?_, Buffer.holds_nil⟩, Function.update_self ..⟩
      rw [Function.update_of_ne (Nat.ne_of_lt (Nat.lt_succ_self p)), Function.update_self]
    · change j < p ∨ p + 1 < j at hj
      rw [Function.update_of_ne (by omega), Function.update_of_ne (by omega)]
  · obtain ⟨b', cs, hloop, hstr, hnul, hlen, hne, hnum, hframe⟩ :=
      itoaLoop_string (b := b) (p := p) hr hr' hv h0
    have hpos := List.length_pos_iff.2 hne
    have hrev := strrev_eq hstr hnul hlen
    obtain ⟨hchars, hend⟩ := Buffer.holds_concat.1 hstr
    refine ⟨strrev (Function.update b' (p + cs.length) 0) p, ?_, ?_, fun j hj => ?_⟩
    · rw [itoa, if_neg h0, hloop]
      rfl
    · rw [← hnum, Buffer.holds_concat, hrev]
      refine ⟨hchars.reverse, ?_⟩
      rw [List.length_reverse, Buffer.reverse_apply, if_neg (by omega), hend]
    · rw [← hnum, List.length_reverse] at hj
      rw [hrev, Buffer.reverse_apply, if_neg (by omega), Function.update_of_ne (by omega),
        hframe j (by omega)]

/-- **`%x`** prints the numeral in base 16. -/
theorem printfHex_eq (hv : value < 2 ^ 32) : printfHex b value = some (numeral 16 value) := by
  have hr : 2 ≤ 16 := by decide
  have hr' : 16 ≤ 36 := by decide
  obtain ⟨b', hitoa, hholds, -⟩ := itoa_spec (b := b) (p := 0) hr hr' hv
  obtain ⟨hholds, hend⟩ := Buffer.holds_concat.1 hholds
  have hlen : (numeral 16 value).length ≤ 64 :=
    Nat.le_trans (numeral_length_le hr hv) (by decide)
  have hfield : field b' 64 0 = numeral 16 value :=
    field_eq (zero_notMem_numeral hr hr') hlen hholds fun _ => hend
  rw [printfHex, hitoa, ← hfield]
  rfl

end itoa

end KTeamOS
