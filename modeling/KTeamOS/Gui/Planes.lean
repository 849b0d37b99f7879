import KTeamOS.Gui.Draw

/-!
# Planes of the screen

In mode X a byte written to the video memory goes to the planes that the map mask selects, and the
pixel in the column `c` is in the plane `c & 3`.  The build buffer has the planes in the opposite
order, one behind the other, and `show_screen` copies them; where the window begins in the middle of
four pixels, some planes begin one byte later.

## Main definitions

* `Vga`, `showScreen`, `showSmallBlock` : the video memory and what is written to it.
* `Vga.Shows` : the screen shows a window of the build buffer.

## Main results

* `showScreen_shows` : `show_screen` shows every pixel at its place.
* `showSmallBlock_planes` : the direct way to draw a small block and the one through the build
  buffer lead to the same planes.
-/

namespace KTeamOS

/-- The video memory. -/
structure Vga where
  /-- The byte of a plane at an address from `mem_image` on. -/
  mem : ℕ × ℤ → UInt8
  /-- The map mask: a bit for each plane. -/
  mask : ℕ

namespace Vga

/-- `SET_WRITE_MASK`: the high byte is written to the map mask, which has four bits. -/
def setWriteMask (v : Vga) (maskHiBits : ℕ) : Vga := { v with mask := maskHiBits / 256 % 16 }

/-- `mem_image[a] = c` -/
def write (v : Vga) (a : ℤ) (c : UInt8) : Vga :=
  { v with mem := fun p => if v.mask.testBit p.1 ∧ p.2 = a then c else v.mem p }

/-- `if (c != 0) mem_image[a] = c` -/
def put (v : Vga) (a : ℤ) (c : UInt8) : Vga := if c ≠ 0 then v.write a c else v

end Vga

/-- `rep movsb` from the build buffer to the video memory. -/
def repMovsb (build : ℤ → UInt8) : (ecx : ℕ) → (esi edi : ℤ) → Vga → Vga
  | 0, _, _, v => v
  | ecx + 1, esi, edi, v => repMovsb build ecx (esi + 1) (edi + 1) (v.write edi (build esi))

/-- `copy_image` : the bytes of one plane, from the build buffer to the display. -/
def copyImage (build : ℤ → UInt8) (img : ℤ) (v : Vga) : Vga := repMovsb build 16000 img 0 v

/-- `show_screen` -/
def showScreen (showX showY : ℤ) (build : ℤ → UInt8) (v : Vga) : Vga :=
  let pOff := 3 - showX % 4
  let addr := showX / 4 + showY * 80
  (List.range 4).foldl (fun v (i : ℕ) =>
    copyImage build (addr + (pOff - i + 4) % 4 * 16000 + if pOff < i then 1 else 0)
      (v.setWriteMask (1 <<< (i + 8)))) v

/-- The loop over `y` in `show_small_block`, in the column `i`; the block has 8 rows. -/
def smallColumn (blk : ℤ → UInt8) (x yPos i : ℤ) (v : Vga) : Vga :=
  (List.range 8).foldl (fun v (y : ℕ) =>
    (v.put (x.tdiv 4 + (y + yPos) * 80) (blk (i + 8 * y))).put
      (x.tdiv 4 + (y + yPos) * 80 + 1) (blk (i + 4 + 8 * y))) v

/-- `show_small_block` -/
def showSmallBlock (blk : ℤ → UInt8) (xPos yPos : ℤ) (v : Vga) : Vga :=
  let pOff := xPos.tmod 4
  (List.range 4).foldl (fun v (i : ℕ) =>
    smallColumn blk (xPos + i) yPos i (v.setWriteMask (1 <<< ((pOff + i).tmod 4 + 8).toNat)))
    (v.setWriteMask pOff.toNat)

/-! ### The copy -/

/-- The place of a pixel in the video memory. -/
def screenPlace (q : ℤ × ℤ) : ℕ × ℤ := ((q.1 % 4).toNat, q.1 / 4 + 80 * q.2)

/-- The screen shows the build buffer from the pixel `(showX, showY)` on. -/
def Vga.Shows (v : Vga) (showX showY : ℤ) (build : ℤ → UInt8) : Prop := ∀ c r, OnScreen c r →
  v.mem (screenPlace (c, r)) = build (planeOffset (showX + c) (showY + r))

section Copy

variable {build : ℤ → UInt8} {v : Vga} {c : UInt8} {n k : ℕ} {showX showY esi edi a b : ℤ}

@[simp] theorem Vga.setWriteMask_mem : (v.setWriteMask n).mem = v.mem := rfl

@[simp] theorem Vga.write_mask : (v.write a c).mask = v.mask := rfl

theorem Vga.write_mem :
    (v.write a c).mem (k, b) = if v.mask.testBit k ∧ b = a then c else v.mem (k, b) := rfl

theorem Vga.setWriteMask_mask (hk : k < 4) : (v.setWriteMask (1 <<< (k + 8))).mask = 2 ^ k := by
  have hmask : ∀ k < 4, 1 <<< (k + 8) / 256 % 16 = 2 ^ k := by decide
  exact hmask k hk

theorem repMovsb_mem : (repMovsb build n esi edi v).mem (k, a) =
    if v.mask.testBit k ∧ edi ≤ a ∧ a < edi + n then build (esi + (a - edi)) else v.mem (k, a) := by
  induction n generalizing esi edi v with
  | zero => exact (if_neg (by omega)).symm
  | succ n ih =>
    rw [repMovsb, ih, Vga.write_mem, Vga.write_mask]
    by_cases hfirst : v.mask.testBit k ∧ a = edi
    · obtain ⟨hk, rfl⟩ := hfirst
      rw [if_neg (by omega), if_pos ⟨hk, rfl⟩, if_pos ⟨hk, by omega⟩, Int.sub_self, Int.add_zero]
    · rw [if_neg hfirst]
      by_cases hlater : v.mask.testBit k ∧ edi + 1 ≤ a ∧ a < edi + 1 + n
      · rw [if_pos hlater, if_pos ⟨hlater.1, by omega⟩]
        congr 1
        omega
      · rw [if_neg hlater, if_neg]
        rintro ⟨hk, hle, hlt⟩
        rcases Int.lt_or_eq_of_le hle with h | h
        · exact hlater ⟨hk, by omega⟩
        · exact hfirst ⟨hk, h.symm⟩

/-- A plane is copied. -/
theorem copyImage_mem {img : ℤ} {i : ℕ} (hi : i < 4) :
    (copyImage build img (v.setWriteMask (1 <<< (i + 8)))).mem (k, a) =
      if k = i ∧ 0 ≤ a ∧ a < 16000 then build (img + a) else v.mem (k, a) := by
  rw [copyImage, repMovsb_mem, Vga.setWriteMask_mask hi, Vga.setWriteMask_mem, Int.sub_zero]
  refine if_congr (and_congr ?_ (and_congr_right fun _ => ?_)) rfl rfl
  · rw [Nat.testBit_two_pow, decide_eq_true_eq]
    exact eq_comm
  · omega

/-- The byte of the build buffer that `show_screen` copies to the address `a` of the plane `k`. -/
def sourceOf (showX showY : ℤ) (k : ℕ) (a : ℤ) : ℤ :=
  showX / 4 + showY * 80 + (3 - showX % 4 - k + 4) % 4 * 16000 +
    (if 3 - showX % 4 < k then 1 else 0) + a

theorem showScreen_mem (p : ℕ × ℤ) : (showScreen showX showY build v).mem p =
    if p.1 < 4 ∧ 0 ≤ p.2 ∧ p.2 < 16000 then build (sourceOf showX showY p.1 p.2)
      else v.mem p := by
  obtain ⟨k, a⟩ := p
  have hfold : ∀ n ≤ 4, ((List.range n).foldl (fun v (i : ℕ) =>
      copyImage build (showX / 4 + showY * 80 + (3 - showX % 4 - i + 4) % 4 * 16000 +
        if 3 - showX % 4 < i then 1 else 0) (v.setWriteMask (1 <<< (i + 8)))) v).mem (k, a) =
      if k < n ∧ 0 ≤ a ∧ a < 16000 then build (sourceOf showX showY k a) else v.mem (k, a) := by
    intro n hn
    induction n with
    | zero => exact (if_neg fun h => Nat.not_lt_zero k h.1).symm
    | succ n ih =>
      rw [List.range_succ, List.foldl_append, List.foldl_cons, List.foldl_nil,
        copyImage_mem hn, ih (Nat.le_of_succ_le hn)]
      by_cases hlast : k = n ∧ 0 ≤ a ∧ a < 16000
      · obtain ⟨rfl, ha⟩ := hlast
        rw [if_pos ⟨rfl, ha⟩]
        exact (if_pos ⟨Nat.lt_succ_self k, ha⟩).symm
      · rw [if_neg hlast]
        exact if_congr (by omega) rfl rfl
  simp only [showScreen]
  exact hfold 4 (Nat.le_refl 4)

/-- The plane that is copied is the one that `draw_full_block` writes: the plane number and the
carry into the address add up in the same way. -/
theorem sourceOf_screenPlace {c r : ℤ} :
    sourceOf showX showY (screenPlace (c, r)).1 (screenPlace (c, r)).2 =
      planeOffset (showX + c) (showY + r) := by
  unfold sourceOf screenPlace planeOffset
  split_ifs <;> omega

/-- **`show_screen` shows the window** at `(showX, showY)`, pixel by pixel. -/
theorem showScreen_shows (showX showY : ℤ) (build : ℤ → UInt8) (v : Vga) :
    (showScreen showX showY build v).Shows showX showY build := by
  rintro c r ⟨hc, hc', hr, hr'⟩
  simp only [scrollXDim, scrollYDim] at hc' hr'
  have hplace : (screenPlace (c, r)).1 < 4 ∧ 0 ≤ (screenPlace (c, r)).2 ∧
      (screenPlace (c, r)).2 < 16000 := by
    simp only [screenPlace]
    omega
  rw [showScreen_mem, if_pos hplace, sourceOf_screenPlace]

end Copy

/-! ### A small block -/

/-- Two pixels of the screen have different bytes of the video memory. -/
theorem screenPlace_injOn : Set.InjOn screenPlace {q | OnScreen q.1 q.2} := by
  rintro ⟨x, y⟩ hq ⟨x', y'⟩ hq' heq
  obtain ⟨hplane, haddr⟩ := Prod.mk.inj heq
  obtain ⟨hx, hx', -, -⟩ : OnScreen x y := hq
  obtain ⟨hu, hu', -, -⟩ : OnScreen x' y' := hq'
  simp only [scrollXDim] at hx' hu' hplane haddr
  have hplane' : x % 4 = x' % 4 := by omega
  have hquarter : x / 4 = x' / 4 ∧ y = y' := by omega
  exact Prod.ext (by simp only; omega) hquarter.2

/-- Every byte of the four planes that is copied belongs to a pixel. -/
theorem exists_screenPlace {k : ℕ} {a : ℤ} (hk : k < 4) (ha : 0 ≤ a) (ha' : a < 16000) :
    ∃ q : ℤ × ℤ, OnScreen q.1 q.2 ∧ screenPlace q = (k, a) := by
  refine ⟨(4 * (a % 80) + k, a / 80), ?_, Prod.ext ?_ ?_⟩
  · simp only [OnScreen, scrollXDim, scrollYDim]
    omega
  · simp only [screenPlace]
    omega
  · simp only [screenPlace]
    omega

section Small

variable {build blk : ℤ → UInt8} {v : Vga} {k : ℕ} {posX posY a i : ℤ} {c : UInt8} {q : ℤ × ℤ}

@[simp] theorem put_mask : (v.put a c).mask = v.mask := by
  unfold Vga.put
  split_ifs <;> rfl

/-- A byte that is not 0 is written to the one plane that is selected. -/
theorem put_overlay (val : ℤ × ℤ → UInt8) (hmask : v.mask = 2 ^ k) (hq : screenPlace q = (k, a))
    (hc : val q = c) :
    Overlay screenPlace {q' | q' = q ∧ val q' ≠ 0} val v.mem (v.put a c).mem := by
  unfold Vga.put
  split_ifs with hne
  · have hwrite : (v.write a c).mem = Function.update v.mem (screenPlace q) (val q) := by
      funext p
      rw [Function.update_apply, hc, hq]
      refine if_congr ?_ rfl rfl
      rw [hmask, Nat.testBit_two_pow, decide_eq_true_eq, eq_comm (a := k), Prod.ext_iff]
    rw [hwrite]
    refine (Overlay.update q).congr (fun q' => ⟨fun h => h.1, fun h => ⟨h, ?_⟩⟩) fun _ _ => rfl
    rwa [show q' = q from h, hc]
  · refine Overlay.empty ?_
    rintro q' ⟨rfl, hne'⟩
    exact hne (hc ▸ hne')

/-- Two pixels of the row `y` of the block. -/
theorem smallRow_overlay (blk : ℤ → UInt8) {y : ℕ} (hmask : v.mask = 2 ^ k)
    (hk : k = (posX + i) % 4) (hx : 0 ≤ posX + i) (hx' : posX + i + 4 < scrollXDim)
    (hy : 0 ≤ y + posY) (hy' : y + posY < scrollYDim) :
    Overlay screenPlace {q | (q = (posX + i, y + posY) ∨ q = (posX + i + 4, y + posY)) ∧
        blk (blockIndex posX posY 8 q) ≠ 0} (fun q => blk (blockIndex posX posY 8 q)) v.mem
      ((v.put ((posX + i).tdiv 4 + (y + posY) * 80) (blk (i + 8 * y))).put
        ((posX + i).tdiv 4 + (y + posY) * 80 + 1) (blk (i + 4 + 8 * y))).mem := by
  simp only [scrollXDim, scrollYDim] at hx' hy'
  rw [Int.tdiv_eq_ediv_of_nonneg hx]
  have hleft := put_overlay (v := v) (q := (posX + i, y + posY)) (c := blk (i + 8 * y))
    (a := (posX + i) / 4 + (y + posY) * 80) (fun q => blk (blockIndex posX posY 8 q)) hmask
    (Prod.ext (by simp only [screenPlace]; omega) (by simp only [screenPlace]; omega))
    (congrArg blk (by simp only [blockIndex]; omega))
  have hright := put_overlay (q := (posX + i + 4, y + posY)) (c := blk (i + 4 + 8 * y))
    (a := (posX + i) / 4 + (y + posY) * 80 + 1)
    (v := v.put ((posX + i) / 4 + (y + posY) * 80) (blk (i + 8 * y)))
    (fun q => blk (blockIndex posX posY 8 q)) (by rw [put_mask, hmask])
    (Prod.ext (by simp only [screenPlace]; omega) (by simp only [screenPlace]; omega))
    (congrArg blk (by simp only [blockIndex]; omega))
  refine (hleft.append hright screenPlace_injOn ?_ ?_).congr (fun q => ?_) fun _ _ => rfl
  · rintro q ⟨rfl, -⟩
    exact ⟨hx, by simp only [scrollXDim]; omega, hy, hy'⟩
  · rintro q ⟨rfl, -⟩
    exact ⟨by simp only; omega, hx', hy, hy'⟩
  · exact or_and_right

/-- The pixels of the columns `i` and `i + 4` of the block. -/
theorem smallColumn_overlay (blk : ℤ → UInt8) (hmask : v.mask = 2 ^ k) (hk : k = (posX + i) % 4)
    (hx : 0 ≤ posX + i) (hx' : posX + i + 4 < scrollXDim) (hy : 0 ≤ posY)
    (hy' : posY + 8 ≤ scrollYDim) :
    Overlay screenPlace {q | ((q.1 = posX + i ∨ q.1 = posX + i + 4) ∧ posY ≤ q.2 ∧
        q.2 < posY + 8) ∧ blk (blockIndex posX posY 8 q) ≠ 0}
      (fun q => blk (blockIndex posX posY 8 q)) v.mem
      (smallColumn blk (posX + i) posY i v).mem := by
  simp only [scrollXDim, scrollYDim] at hx' hy'
  refine (Overlay.foldl (g := Vga.mem) (I := fun v => v.mask = 2 ^ k) (T := fun y : ℕ =>
      {q | (q = (posX + i, y + posY) ∨ q = (posX + i + 4, y + posY)) ∧
        blk (blockIndex posX posY 8 q) ≠ 0}) screenPlace_injOn ?_ (fun v y hmem hmask => ?_)
    hmask).2.congr (fun q => ?_) fun _ _ => rfl
  · rintro y hmem q ⟨hq, -⟩
    have hylt := List.mem_range.1 hmem
    change OnScreen q.1 q.2
    simp only [OnScreen, scrollXDim, scrollYDim]
    obtain rfl | rfl := hq
    · simp only
      omega
    · simp only
      omega
  · have hylt := List.mem_range.1 hmem
    exact ⟨by rw [put_mask, put_mask, hmask], smallRow_overlay blk hmask hk hx
      (by simp only [scrollXDim]; omega) (by omega) (by simp only [scrollYDim]; omega)⟩
  · constructor
    · rintro ⟨hq, hne⟩
      refine ⟨(q.2 - posY).toNat, List.mem_range.2 (by omega), ?_, hne⟩
      refine hq.1.imp (fun h => Prod.ext h ?_) fun h => Prod.ext h ?_ <;>
      · simp only
        omega
    · rintro ⟨y, hmem, hq, hne⟩
      have hylt := List.mem_range.1 hmem
      refine ⟨?_, hne⟩
      obtain rfl | rfl := hq
      · exact ⟨.inl rfl, by simp only; omega, by simp only; omega⟩
      · exact ⟨.inr rfl, by simp only; omega, by simp only; omega⟩

theorem showSmallBlock_overlay (blk : ℤ → UInt8) (v : Vga) (hx : 0 ≤ posX) (hx' : posX ≤ 312)
    (hy : 0 ≤ posY) (hy' : posY ≤ 192) :
    Overlay screenPlace {q | InBlock posX posY 8 8 q.1 q.2 ∧ blk (blockIndex posX posY 8 q) ≠ 0}
      (fun q => blk (blockIndex posX posY 8 q)) v.mem (showSmallBlock blk posX posY v).mem := by
  unfold showSmallBlock
  rw [← Vga.setWriteMask_mem (v := v) (n := (posX.tmod 4).toNat)]
  refine (Overlay.foldl (g := Vga.mem) (I := fun _ => True) (T := fun i : ℕ =>
      {q | ((q.1 = posX + i ∨ q.1 = posX + i + 4) ∧ posY ≤ q.2 ∧ q.2 < posY + 8) ∧
        blk (blockIndex posX posY 8 q) ≠ 0}) screenPlace_injOn ?_ (fun v i hmem _ => ?_)
    trivial).2.congr (fun q => ?_) fun _ _ => rfl
  · rintro i hmem q ⟨hq, -⟩
    have hi := List.mem_range.1 hmem
    change OnScreen q.1 q.2
    simp only [OnScreen, scrollXDim, scrollYDim]
    omega
  · have hi := List.mem_range.1 hmem
    -- the mask is rotated with the column
    have hplane : ((posX.tmod 4 + i).tmod 4 + 8).toNat = ((posX + i) % 4).toNat + 8 := by
      rw [Int.tmod_eq_emod_of_nonneg hx, Int.tmod_eq_emod_of_nonneg (by omega)]
      omega
    rw [hplane]
    exact ⟨trivial, smallColumn_overlay blk (Vga.setWriteMask_mask (by omega)) (by omega)
      (by omega) (by simp only [scrollXDim]; omega) hy (by simp only [scrollYDim]; omega)⟩
  · simp only [InBlock, OnScreen, scrollXDim, scrollYDim]
    constructor
    · rintro ⟨hq, hne⟩
      refine ⟨((q.1 - posX) % 4).toNat, List.mem_range.2 (by omega), ⟨?_, by omega, by omega⟩, hne⟩
      omega
    · rintro ⟨i, hmem, hq, hne⟩
      have hi := List.mem_range.1 hmem
      exact ⟨by omega, hne⟩

/-- What `show_screen` changes on a screen that shows the build buffer is what has changed in the
build buffer. -/
theorem showScreen_overlay {S : Set (ℤ × ℤ)} {val : ℤ × ℤ → UInt8} {build' : ℤ → UInt8}
    (hshown : v.Shows 0 0 build) (hS : ∀ q ∈ S, OnScreen q.1 q.2)
    (hbuild : Overlay bufferPlace S val build build') :
    Overlay screenPlace S val v.mem (showScreen 0 0 build' v).mem := by
  have hpixel : ∀ (v : Vga) (b : ℤ → UInt8), v.Shows 0 0 b → ∀ q : ℤ × ℤ, OnScreen q.1 q.2 →
      v.mem (screenPlace q) = b (bufferPlace q) := by
    intro v b hv q hq
    rw [hv q.1 q.2 hq, Int.zero_add, Int.zero_add]
    rfl
  refine ⟨fun q hq => ?_, fun p hp => ?_⟩
  · rw [hpixel _ _ (showScreen_shows 0 0 build' v) q (hS q hq), hbuild.shown q hq]
  · by_cases hcopied : p.1 < 4 ∧ 0 ≤ p.2 ∧ p.2 < 16000
    · obtain ⟨q, hq, hplace⟩ := exists_screenPlace hcopied.1 hcopied.2.1 hcopied.2.2
      obtain rfl : screenPlace q = p := hplace
      have hqS : q ∉ S := fun hmem => hp q hmem rfl
      rw [hpixel _ _ (showScreen_shows 0 0 build' v) q hq, hpixel _ _ hshown q hq,
        hbuild.kept bufferPlace_injOn hS hq hqS]
    · rw [showScreen_mem, if_neg hcopied]

/-- **Small blocks.**  On a screen that shows the build buffer, `show_small_block` leads to the
planes that `draw_full_block` and `show_screen` would lead to. -/
theorem showSmallBlock_planes (build blk : ℤ → UInt8) (v : Vga) (hshown : v.Shows 0 0 build)
    (x y : ℤ) (hx : 0 ≤ x) (hx' : x ≤ 312) (hy : 0 ≤ y) (hy' : y ≤ 192) :
    (showSmallBlock blk x y v).mem =
      (showScreen 0 0 (drawFullBlock 0 0 x y blk 8 8 ⟨build, []⟩).build v).mem := by
  have hon : ¬ OffScreen 0 0 x y 8 8 := by
    simp only [OffScreen, uint32, scrollXDim, scrollYDim]
    omega
  refine (showSmallBlock_overlay blk v hx hx' hy hy').unique
    (showScreen_overlay hshown (fun q hq => hq.1.1) ?_)
  exact drawFullBlock_overlay blk (by simp only [scrollXDim]; omega)
    (by simp only [scrollYDim]; omega) (by decide) hon ⟨build, []⟩

end Small

/-- A block on a blank screen. -/
theorem showSmallBlock_planes_blank : (showSmallBlock (fun _ => 7) 3 5 ⟨fun _ => 0, 0⟩).mem =
    (showScreen 0 0 (drawFullBlock 0 0 3 5 (fun _ => 7) 8 8 ⟨fun _ => 0, []⟩).build
      ⟨fun _ => 0, 0⟩).mem :=
  showSmallBlock_planes (fun _ => 0) (fun _ => 7) ⟨fun _ => 0, 0⟩ (fun _ _ _ => rfl) 3 5
    (by decide) (by decide) (by decide) (by decide)

end KTeamOS
