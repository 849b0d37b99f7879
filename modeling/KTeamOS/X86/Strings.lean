import KTeamOS.X86.Cpu

/-!
# String instructions

The loops that the repeated string instructions run, in terms of the loops over single bytes.

## Main definitions

* `Bus.fill`, `Bus.copy` : the loops over bytes, in either direction.
* `Bus.stosN`, `Bus.movsN` : the loops over elements of some width.

## Main results

* `Runs.repStos`, `Runs.repMovs` : a repeated instruction runs its loop.
* `Bus.stosN_eq_fill` : storing words of equal bytes fills the memory with the byte.
* `Bus.movsN_eq_copy` : copying by words is copying by bytes if no byte of a word is stored over
  a later one.
* `Bus.fill_flat`, `Bus.copy_flat`, `Bus.copy_flat_down` : what the loops leave in a memory.
-/

namespace KTeamOS

namespace X86

namespace Bus

variable {M : Type*} (B : Bus M)

/-- `n` bytes `v` from `a` on. -/
def fill (v : Byte) : ℕ → M → Word → M
  | 0, m, _ => m
  | n + 1, m, a => fill v n (B.store m a v) (a + 1)

/-- `n` bytes, one after the other, with `δ` from one to the next. -/
def copy (δ : Word) : ℕ → M → Word → Word → M
  | 0, m, _, _ => m
  | n + 1, m, dest, src => copy δ n (B.store m dest (B.load m src)) (dest + δ) (src + δ)

/-- `n` elements of `k` bytes, all equal to `v`. -/
def stosN (k : ℕ) (δ v : Word) : ℕ → M → Word → M
  | 0, m, _ => m
  | n + 1, m, a => stosN k δ v n (B.storeN k m a v) (a + δ)

/-- `n` elements of `k` bytes; each of them is loaded before it is stored. -/
def movsN (k : ℕ) (δ : Word) : ℕ → M → Word → Word → M
  | 0, m, _, _ => m
  | n + 1, m, dest, src =>
    movsN k δ n (B.storeN k m dest (B.loadN k m src)) (dest + δ) (src + δ)

variable {B} {m m' : M} {a b dest src δ v : Word} {x : Byte} {i k n : ℕ}

theorem ofNat_add_one (n : ℕ) : BitVec.ofNat 32 (n + 1) = 1 + BitVec.ofNat 32 n := by
  rw [Nat.add_comm, BitVec.ofNat_add]
  rfl

theorem add_one_ofNat (a : Word) (j : ℕ) :
    a + 1 + BitVec.ofNat 32 j = a + BitVec.ofNat 32 (j + 1) := by
  rw [ofNat_add_one, BitVec.add_assoc]

theorem toNat_add_ofNat (h : a.toNat + i < 2 ^ 32) :
    (a + BitVec.ofNat 32 i).toNat = a.toNat + i := by
  rw [BitVec.toNat_add, BitVec.toNat_ofNat, Nat.mod_eq_of_lt (show i < 2 ^ 32 by omega),
    Nat.mod_eq_of_lt h]

/-- A count from which one is taken. -/
theorem count_succ (hn : n + 1 < 2 ^ 32) (h : v = BitVec.ofNat 32 (n + 1)) :
    v ≠ 0 ∧ v - 1 = BitVec.ofNat 32 n := by
  rw [h, ofNat_add_one]
  bv_omega

/-- A count of bytes, in words and the bytes that are left. -/
theorem count_words (hn : n < 2 ^ 32) (h : v = BitVec.ofNat 32 n) :
    v >>> 2 = BitVec.ofNat 32 (n / 4) ∧ v &&& 3 = BitVec.ofNat 32 (n % 4) := by
  have hand : n &&& 3 = n % 4 := Nat.and_two_pow_sub_one_eq_mod n 2
  constructor
  · apply BitVec.eq_of_toNat_eq
    rw [h, BitVec.toNat_ushiftRight, BitVec.toNat_ofNat, BitVec.toNat_ofNat, Nat.mod_eq_of_lt hn,
      Nat.shiftRight_eq_div_pow, Nat.mod_eq_of_lt (by omega)]
  · apply BitVec.eq_of_toNat_eq
    rw [h, BitVec.toNat_and, BitVec.toNat_ofNat, BitVec.toNat_ofNat, Nat.mod_eq_of_lt hn,
      Nat.mod_eq_of_lt (by omega)]
    exact hand

theorem ofNat_mul_four (n : ℕ) : BitVec.ofNat 32 n * 4 = BitVec.ofNat 32 (4 * n) := by
  rw [Nat.mul_comm, BitVec.ofNat_mul]
  rfl

theorem fill_add : B.fill x (k + n) m a =
    B.fill x n (B.fill x k m a) (a + BitVec.ofNat 32 k) := by
  induction k generalizing m a with
  | zero => rw [Nat.zero_add, BitVec.add_zero]; rfl
  | succ k ih => rw [Nat.succ_add, fill, ih, fill, ofNat_add_one, BitVec.add_assoc]

theorem copy_add : B.copy 1 (k + n) m dest src = B.copy 1 n (B.copy 1 k m dest src)
    (dest + BitVec.ofNat 32 k) (src + BitVec.ofNat 32 k) := by
  induction k generalizing m dest src with
  | zero => rw [Nat.zero_add, BitVec.add_zero, BitVec.add_zero]; rfl
  | succ k ih =>
    rw [Nat.succ_add, copy, ih, copy, ofNat_add_one, BitVec.add_assoc, BitVec.add_assoc]

/-! ### Words and bytes -/

/-- All the bytes of the word are the same. -/
def Repeats (v : Word) (x : Byte) : Prop := ∀ i < 4, (v >>> (8 * i)).setWidth 8 = x

theorem storeN_eq_fill (h : ∀ i < k, (v >>> (8 * i)).setWidth 8 = x) :
    B.storeN k m a v = B.fill x k m a := by
  induction k generalizing m a v with
  | zero => rfl
  | succ k ih =>
    have hx : v.setWidth 8 = x := h 0 (Nat.succ_pos k)
    rw [storeN, fill, hx]
    refine ih fun i hi => ?_
    rw [← h (i + 1) (Nat.succ_lt_succ hi), ← BitVec.shiftRight_add, Nat.mul_succ, Nat.add_comm]

theorem stosN_eq_fill (h : Repeats v x) :
    B.stosN 4 4 v n m a = B.fill x (4 * n) m a := by
  induction n generalizing m a with
  | zero => rfl
  | succ n ih => rw [stosN, ih, Nat.mul_succ, Nat.add_comm, fill_add, storeN_eq_fill h]; rfl

/-- The bits of a loaded element are zero from its width on. -/
theorem loadN_bit (hi : 8 * k ≤ i) : (B.loadN k m a).getLsbD i = false := by
  induction k generalizing a i with
  | zero => exact BitVec.getLsbD_zero
  | succ k ih =>
    rw [loadN, BitVec.getLsbD_or, BitVec.getLsbD_shiftLeft, ih (by omega), BitVec.getLsbD_setWidth,
      BitVec.getLsbD_of_ge _ _ (show 8 ≤ i by omega), Bool.and_false, Bool.and_false, Bool.or_false]

theorem loadN_shift (hk : k < 4) : B.loadN (k + 1) m a >>> 8 = B.loadN k m (a + 1) := by
  apply BitVec.eq_of_getLsbD_eq
  intro i hi
  rw [BitVec.getLsbD_ushiftRight, loadN, BitVec.getLsbD_or, BitVec.getLsbD_shiftLeft,
    BitVec.getLsbD_setWidth, BitVec.getLsbD_of_ge _ _ (show 8 ≤ 8 + i by omega), Bool.and_false,
    Bool.or_false, decide_eq_false (show ¬ 8 + i < 8 by omega), Nat.add_sub_cancel_left]
  by_cases hin : 8 + i < 32
  · rw [decide_eq_true hin]
    rfl
  · rw [loadN_bit (by omega), Bool.and_false]

/-- An element is made of the bits of its bytes. -/
theorem loadN_getLsbD (hi : i < 8 * k) (hk : k ≤ 4) : (B.loadN k m a).getLsbD i =
    (B.load m (a + BitVec.ofNat 32 (i / 8))).getLsbD (i % 8) := by
  induction k generalizing a i with
  | zero => omega
  | succ k ih =>
    rw [loadN, BitVec.getLsbD_or, BitVec.getLsbD_shiftLeft, BitVec.getLsbD_setWidth,
      decide_eq_true (show i < 32 by omega), Bool.true_and, Bool.true_and]
    by_cases hlow : i < 8
    · rw [decide_eq_true hlow, Nat.div_eq_of_lt hlow, Nat.mod_eq_of_lt hlow, BitVec.add_zero]
      rfl
    · have hdiv : (i - 8) / 8 + 1 = i / 8 := by omega
      have hmod : (i - 8) % 8 = i % 8 := by omega
      rw [decide_eq_false hlow, ih (by omega) (by omega), add_one_ofNat, hdiv, hmod,
        BitVec.getLsbD_of_ge _ i (by omega), Bool.or_false]
      rfl

theorem loadN_congr (h : ∀ j < k, B.load m' (a + BitVec.ofNat 32 j) =
    B.load m (a + BitVec.ofNat 32 j)) : B.loadN k m' a = B.loadN k m a := by
  induction k generalizing a with
  | zero => rfl
  | succ k ih =>
    have hfirst := h 0 (Nat.succ_pos k)
    rw [BitVec.add_zero] at hfirst
    rw [loadN, loadN, hfirst, ih fun j hj => ?_]
    rw [add_one_ofNat]
    exact h (j + 1) (Nat.succ_lt_succ hj)

theorem loadN_low : (B.loadN (k + 1) m a).setWidth 8 = B.load m a := by
  apply BitVec.eq_of_getLsbD_eq
  intro i hi
  rw [BitVec.getLsbD_setWidth, loadN, BitVec.getLsbD_or, BitVec.getLsbD_shiftLeft,
    BitVec.getLsbD_setWidth, decide_eq_true hi, decide_eq_true (show i < 32 by omega)]
  rfl

/-- The element is loaded as it was before its first byte is stored. -/
theorem storeN_loadN (hk : k ≤ 4)
    (hm : ∀ j < k, B.load m' (src + BitVec.ofNat 32 j) = B.load m (src + BitVec.ofNat 32 j))
    (hap : ∀ i j, i < j → j < k →
      B.Apart (dest + BitVec.ofNat 32 i) (src + BitVec.ofNat 32 j)) :
    B.storeN k m' dest (B.loadN k m src) = B.copy 1 k m' dest src := by
  induction k generalizing m m' dest src with
  | zero => rfl
  | succ k ih =>
    have hfirst : B.load m' src = B.load m src := by
      have h := hm 0 (Nat.succ_pos k)
      rwa [BitVec.add_zero] at h
    rw [storeN, copy, loadN_low, loadN_shift hk, hfirst]
    refine ih (by omega) (fun j hj => ?_) fun i j hij hj => ?_
    · have hap' := hap 0 (j + 1) (Nat.succ_pos j) (Nat.succ_lt_succ hj)
      rw [BitVec.add_zero, ← add_one_ofNat] at hap'
      rw [hap' m' (B.load m src), add_one_ofNat, hm (j + 1) (Nat.succ_lt_succ hj)]
    · rw [add_one_ofNat, add_one_ofNat]
      exact hap (i + 1) (j + 1) (Nat.succ_lt_succ hij) (Nat.succ_lt_succ hj)

/-- **Copying by words.**  A store may overtake a load only if it is of an earlier element. -/
theorem movsN_eq_copy (hk : k ≤ 4)
    (hap : ∀ i j, i < j → j < i + k → j < k * n →
      B.Apart (dest + BitVec.ofNat 32 i) (src + BitVec.ofNat 32 j)) :
    B.movsN k (BitVec.ofNat 32 k) n m dest src = B.copy 1 (k * n) m dest src := by
  induction n generalizing m dest src with
  | zero => rfl
  | succ n ih =>
    have hfar : ∀ (x : Word) i, x + BitVec.ofNat 32 k + BitVec.ofNat 32 i =
        x + BitVec.ofNat 32 (k + i) := fun x i => by rw [BitVec.ofNat_add, BitVec.add_assoc]
    have hmul : k * (n + 1) = k + k * n := by rw [Nat.mul_succ, Nat.add_comm]
    rw [movsN, storeN_loadN hk (fun _ _ => rfl) fun i j hij hj => hap i j hij (by omega) (by omega),
      ih, hmul, copy_add]
    intro i j hij hj hjn
    rw [hfar, hfar]
    exact hap (k + i) (k + j) (by omega) (by omega) (by omega)

/-- Single bytes are loaded and stored in turn, in either direction. -/
theorem movsN_one : B.movsN 1 δ n m dest src = B.copy δ n m dest src := by
  induction n generalizing m dest src with
  | zero => rfl
  | succ n ih => rw [movsN, ih, copy, storeN, loadN_low]; rfl

/-! ### What the loops leave -/

variable {mem : Word → Byte}

theorem store_flat : Bus.flat.store mem a x b = if b = a then x else mem b :=
  Function.update_apply ..

theorem toNat_sub_add_one (h : b ≠ a) : (b - (a + 1)).toNat + 1 = (b - a).toNat := by
  bv_omega

theorem storeN_flat (hn : n < 2 ^ 32) : Bus.flat.storeN n mem a v b =
    if (b - a).toNat < n then (v >>> (8 * (b - a).toNat)).setWidth 8 else mem b := by
  induction n generalizing mem a v with
  | zero => rw [storeN, if_neg (Nat.not_lt_zero _)]
  | succ n ih =>
    rw [storeN, ih (by omega), store_flat]
    by_cases hb : b = a
    · have hlast : ¬ (b - (a + 1)).toNat < n := by
        rw [hb]
        bv_omega
      rw [if_neg hlast, if_pos hb, hb, BitVec.sub_self]
      rfl
    · have hdist := toNat_sub_add_one hb
      rw [if_neg hb]
      by_cases hin : (b - a).toNat < n + 1
      · rw [if_pos (by omega), if_pos hin, ← hdist, ← BitVec.shiftRight_add]
        rw [Nat.mul_succ, Nat.add_comm]
      · rw [if_neg (by omega), if_neg hin]
/-- No byte is written before it is read. -/
theorem copy_flat (hn : n ≤ 2 ^ 32)
    (hap : ∀ i j, i < j → j < n → dest + BitVec.ofNat 32 i ≠ src + BitVec.ofNat 32 j) :
    Bus.flat.copy 1 n mem dest src b =
      if (b - dest).toNat < n then mem (src + (b - dest)) else mem b := by
  induction n generalizing mem dest src with
  | zero => rw [copy, if_neg (Nat.not_lt_zero _)]
  | succ n ih =>
    rw [copy, ih (by omega) fun i j hij hj => by
      rw [add_one_ofNat, add_one_ofNat]
      exact hap (i + 1) (j + 1) (Nat.succ_lt_succ hij) (Nat.succ_lt_succ hj)]
    have hsrc : src + 1 + (b - (dest + 1)) = src + (b - dest) := by bv_omega
    rw [hsrc]
    by_cases hb : b = dest
    · have hlast : ¬ (b - (dest + 1)).toNat < n := by
        rw [hb]
        bv_omega
      rw [if_neg hlast, hb, BitVec.sub_self, BitVec.add_zero,
        if_pos (show (0#32).toNat < n + 1 from Nat.succ_pos n), store_flat, if_pos rfl]
      rfl
    · have hdist := toNat_sub_add_one hb
      have hfar : Bus.flat.store mem dest (Bus.flat.load mem src) b = mem b :=
        store_flat.trans (if_neg hb)
      rw [hfar]
      by_cases hin : (b - dest).toNat < n + 1
      · have hne : src + (b - dest) ≠ dest := fun e => by
          refine hap 0 (b - dest).toNat (by omega) hin ?_
          rw [BitVec.add_zero, BitVec.ofNat_toNat, BitVec.setWidth_eq, e]
        rw [if_pos (by omega), if_pos hin, store_flat, if_neg hne]
      · rw [if_neg (by omega), if_neg hin]

/-- The loop in the other direction is the loop over the memory with its addresses negated. -/
theorem copy_neg : Bus.flat.copy (-δ) n (fun a => mem (-a)) (-dest) (-src) =
    fun a => Bus.flat.copy δ n mem dest src (-a) := by
  induction n generalizing mem dest src with
  | zero => rfl
  | succ n ih =>
    have hstore : Bus.flat.store (fun a => mem (-a)) (-dest) (mem (- -src)) =
        fun a => Bus.flat.store mem dest (mem src) (-a) := by
      funext a
      rw [BitVec.neg_neg, store_flat, store_flat]
      exact if_congr BitVec.neg_eq_iff_eq_neg.symm rfl rfl
    have hdest : -dest + -δ = -(dest + δ) := by rw [BitVec.neg_add, BitVec.sub_eq_add_neg]
    have hsrc : -src + -δ = -(src + δ) := by rw [BitVec.neg_add, BitVec.sub_eq_add_neg]
    rw [copy, hdest, hsrc]
    change Bus.flat.copy _ _ (Bus.flat.store _ _ (mem (- -src))) _ _ = _
    rw [hstore, ih]
    rfl

theorem copy_flat_down (hn : n ≤ 2 ^ 32)
    (hap : ∀ i j, i < j → j < n → dest - BitVec.ofNat 32 i ≠ src - BitVec.ofNat 32 j) :
    Bus.flat.copy (-1) n mem dest src b =
      if (dest - b).toNat < n then mem (src - (dest - b)) else mem b := by
  have hneg : Bus.flat.copy (-1) n mem dest src = fun a =>
      Bus.flat.copy 1 n (fun a => mem (-a)) (-dest) (-src) (-a) := by
    rw [← copy_neg]
    simp only [BitVec.neg_neg]
  have hsub : ∀ (x : Word) i, -x + BitVec.ofNat 32 i = -(x - BitVec.ofNat 32 i) := fun x i => by
    rw [BitVec.neg_sub]
  have hdist : -b - -dest = dest - b := by
    rw [BitVec.sub_eq_add_neg, BitVec.neg_neg, BitVec.add_comm, BitVec.sub_eq_add_neg]
  rw [congrFun hneg b, copy_flat hn fun i j hij hj e => ?_]
  · rw [hdist, BitVec.neg_neg, BitVec.neg_add, BitVec.neg_neg]
  · rw [hsub, hsub, ← BitVec.neg_eq_iff_eq_neg, BitVec.neg_neg] at e
    exact hap i j hij hj e

end Bus

/-! ### Repeated instructions -/

/-- The registers outside `rs` are the same. -/
def Cpu.Keeps {M : Type*} (rs : List Reg) (s t : Cpu M) : Prop := ∀ r, r ∉ rs → t.reg r = s.reg r

theorem Cpu.Keeps.trans {M : Type*} {rs : List Reg} {s t u : Cpu M} (h : s.Keeps rs t)
    (h' : t.Keeps rs u) : s.Keeps rs u := fun r hr => (h' r hr).trans (h r hr)

theorem Cpu.Keeps.mono {M : Type*} {rs rs' : List Reg} {s t : Cpu M} (h : s.Keeps rs t)
    (hrs : ∀ r ∈ rs, r ∈ rs') : s.Keeps rs' t := fun r hr => h r fun hmem => hr (hrs r hmem)

theorem Cpu.keeps_set {M : Type*} {rs : List Reg} {s : Cpu M} {r : Reg} {v : Word} (h : r ∈ rs) :
    s.Keeps rs (s.set r v) := by
  intro r' hr'
  have hne : r' ≠ r := fun e => hr' (by rw [e]; exact h)
  exact Function.update_of_ne hne ..

namespace Runs

variable {M : Type*} {B : Bus M} {code : Code} {pc : Word} {s : Cpu M} {w : Width} {n : ℕ}

/-- The address after another element. -/
theorem next_mul (a δ : Word) (n : ℕ) :
    a + δ + BitVec.ofNat 32 n * δ = a + BitVec.ofNat 32 (n + 1) * δ := by
  have hone : 1 * δ = δ := BitVec.one_mul ..
  rw [Bus.ofNat_add_one, BitVec.add_mul, hone, BitVec.add_assoc]

theorem repStos (hcode : code pc = some (.rep .stos w)) (hn : n < 2 ^ 32)
    (hcx : s.reg .ecx = BitVec.ofNat 32 n) :
    ∃ t, Runs B code (pc, s) (pc + 1, t) ∧
      t.mem = B.stosN w.bytes (s.delta w) (s.reg .eax) n s.mem (s.reg .edi) ∧
      t.reg .edi = s.reg .edi + BitVec.ofNat 32 n * s.delta w ∧ t.flags = s.flags ∧
      s.Keeps [.ecx, .edi] t := by
  induction n generalizing s with
  | zero =>
    have hzero : s.reg .ecx = 0 := hcx
    refine ⟨s, .op hcode (by rw [Instr.exec, if_pos hzero]) .refl, rfl, ?_, rfl,
      fun _ _ => rfl⟩
    rw [BitVec.zero_mul, BitVec.add_zero]
  | succ n ih =>
    obtain ⟨hne, hpred⟩ := Bus.count_succ hn hcx
    obtain ⟨t, hruns, hmem, hdi, hflags, hkeeps⟩ := ih
      (s := (s.string B w .stos).set .ecx (s.reg .ecx - 1)) (by omega) hpred
    exact ⟨t, .op hcode (by rw [Instr.exec, if_neg hne]) hruns, hmem,
      hdi.trans (next_mul ..), hflags, ((Cpu.keeps_set (by decide)).trans
        (Cpu.keeps_set (by decide))).trans hkeeps⟩

theorem repMovs (hcode : code pc = some (.rep .movs w)) (hn : n < 2 ^ 32)
    (hcx : s.reg .ecx = BitVec.ofNat 32 n) :
    ∃ t, Runs B code (pc, s) (pc + 1, t) ∧
      t.mem = B.movsN w.bytes (s.delta w) n s.mem (s.reg .edi) (s.reg .esi) ∧
      t.reg .edi = s.reg .edi + BitVec.ofNat 32 n * s.delta w ∧
      t.reg .esi = s.reg .esi + BitVec.ofNat 32 n * s.delta w ∧ t.flags = s.flags ∧
      s.Keeps [.ecx, .edi, .esi] t := by
  induction n generalizing s with
  | zero =>
    have hzero : s.reg .ecx = 0 := hcx
    refine ⟨s, .op hcode (by rw [Instr.exec, if_pos hzero]) .refl, rfl, ?_, ?_, rfl,
      fun _ _ => rfl⟩
    · rw [BitVec.zero_mul, BitVec.add_zero]
    · rw [BitVec.zero_mul, BitVec.add_zero]
  | succ n ih =>
    obtain ⟨hne, hpred⟩ := Bus.count_succ hn hcx
    obtain ⟨t, hruns, hmem, hdi, hsi, hflags, hkeeps⟩ := ih
      (s := (s.string B w .movs).set .ecx (s.reg .ecx - 1)) (by omega) hpred
    exact ⟨t, .op hcode (by rw [Instr.exec, if_neg hne]) hruns, hmem,
      hdi.trans (next_mul ..), hsi.trans (next_mul ..), hflags, (((Cpu.keeps_set (by decide)).trans
        (Cpu.keeps_set (by decide))).trans (Cpu.keeps_set (by decide))).trans hkeeps⟩

end Runs

end X86

end KTeamOS
