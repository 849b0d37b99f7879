import Mathlib.Data.List.GetD
import KTeamOS.Fish.Frames

/-!
# The fish program

`main` clears the slots, adds the frames, and then lets them blink; in between it adds one more
struct, gives it the clock of another one, and removes a third.  With texts of at most 25 lines of
at most 40 characters, the right half of the page shows the first text and the second one in turns
(`main_animates`): at every moment of the program, in all cells but the two that the later calls
name, and with no other byte of the page changed.
-/

namespace KTeamOS

namespace Board

variable {us : List BlinkStruct} {x : Board} {user : BlinkStruct}

theorem exec_eq (x : Board) (calls : List Blink.Call) :
    boardMachine.exec x calls = some (calls.foldl call x) := by
  induction calls generalizing x with
  | nil => rfl
  | cons c calls ih => exact ih (x.call c)

/-- Adding leaves the lamps that are there, and new ones for some of the structs. -/
theorem lamps_of_adds (us : List BlinkStruct) (x : Board) :
    ((us.map Blink.Call.add).foldl call x).lamps.length ≤ x.lamps.length + us.length ∧
      ∀ y ∈ ((us.map Blink.Call.add).foldl call x).lamps,
        y ∈ x.lamps ∨ ∃ u ∈ us, y.location = u.location := by
  induction us generalizing x with
  | nil => exact ⟨Nat.le_refl _, fun y hy => .inl hy⟩
  | cons u us ih =>
    obtain ⟨hlen, hmem⟩ := ih (x.call (.add u))
    have hadd : (x.call (.add u)).lamps.length ≤ x.lamps.length + 1 ∧
        ∀ y ∈ (x.call (.add u)).lamps, y ∈ x.lamps ∨ y.location = u.location := by
      change (if x.Accepts u then x.add u else x).lamps.length ≤ _ ∧
        ∀ y ∈ (if x.Accepts u then x.add u else x).lamps, _
      split_ifs
      · refine ⟨Nat.le_refl _, fun y hy => ?_⟩
        rcases List.mem_cons.1 hy with rfl | hy
        · exact .inr rfl
        · exact .inl hy
      · exact ⟨Nat.le_succ _, fun y hy => .inl hy⟩
    rw [List.map_cons, List.foldl_cons, List.length_cons]
    refine ⟨by omega, fun y hy => ?_⟩
    rcases hmem y hy with hy | ⟨v, hv, hloc⟩
    · exact (hadd.2 y hy).imp_right fun hloc => ⟨u, List.mem_cons_self, hloc⟩
    · exact .inr ⟨v, List.mem_cons_of_mem _ hv, hloc⟩

/-- Structs for different cells of the page are not more than the page has. -/
theorem length_le_of_pairwise (hne : us.Pairwise fun u v => u.location ≠ v.location)
    (hlt : ∀ u ∈ us, u.location.toNat < blinkSlots) : us.length ≤ blinkSlots := by
  have hnd : (us.map fun u => u.location.toNat).Nodup :=
    List.pairwise_map.2 (hne.imp fun h e => h (UInt16.toNat_inj.1 e))
  have hsub : (us.map fun u => u.location.toNat) ⊆ List.range blinkSlots := by
    intro a ha
    obtain ⟨u, hu, rfl⟩ := List.mem_map.1 ha
    exact List.mem_range.2 (hlt u hu)
  have hle := (List.Nodup.subperm hnd hsub).length_le
  rwa [List.length_map, List.length_range] at hle

/-- Structs for different cells are all shown, each on its own. -/
theorem shows_added (page : ℕ → UInt8) (rest : List Blink.Call)
    (hne : us.Pairwise fun u v => u.location ≠ v.location)
    (hlt : ∀ u ∈ us, u.location.toNat < blinkSlots) (hu : user ∈ us)
    (hrest : ∀ c ∈ rest, ¬ c.Touches user.location) :
    ((us.map Blink.Call.add ++ rest).foldl call ⟨[], page⟩).page (2 * user.location.toNat) =
      if ticksIn rest % Lamp.period user < ticks user.onLength then user.onChar
      else user.offChar := by
  have hlen := length_le_of_pairwise hne hlt
  obtain ⟨us₁, us₂, rfl⟩ := List.append_of_mem hu
  obtain ⟨-, htail, hcross⟩ := List.pairwise_append.1 hne
  obtain ⟨hcount, hold⟩ := lamps_of_adds us₁ ⟨[], page⟩
  generalize hx : (us₁.map Blink.Call.add).foldl call ⟨[], page⟩ = x at hcount hold
  have haccepts : x.Accepts user := by
    refine ⟨hlt user hu, fun hfull => ?_⟩
    rw [Full] at hfull
    rw [List.length_append, List.length_cons] at hlen
    rw [hfull, List.length_nil] at hcount
    omega
  have hnew : ∀ y ∈ x.lamps, y.location ≠ user.location := by
    intro y hy
    rcases hold y hy with h | ⟨u, hmem, hloc⟩
    · cases h
    · rw [hloc]
      exact hcross u hmem user List.mem_cons_self
  have hothers : ∀ c ∈ us₂.map Blink.Call.add ++ rest, ¬ c.Touches user.location := by
    intro c hc
    rcases List.mem_append.1 hc with hc | hc
    · obtain ⟨u, hmem, rfl⟩ := List.mem_map.1 hc
      exact fun h => (List.pairwise_cons.1 htail).1 u hmem h.symm
    · exact hrest c hc
  have hwatch := (Watches.add haccepts hnew).exec hothers (exec_eq _ _)
  have hticks : ticksIn (us₂.map Blink.Call.add ++ rest) = ticksIn rest := by
    rw [ticksIn, List.countP_append, List.countP_map]
    simp [ticksIn, Function.comp_def, Blink.Call.isTick]
  rw [List.map_append, List.map_cons, List.append_assoc, List.foldl_append, hx, List.cons_append,
    List.foldl_cons, hwatch.page, Lamp.after_shown, hticks, Nat.zero_add]

end Board

namespace Fish

/-- The struct that `main` adds; `stale` is what the other fields hold. -/
def mainStruct (stale : BlinkStruct) : BlinkStruct :=
  { stale with
    onChar := 0x49
    offChar := 0x4D
    onLength := 7
    offLength := 6
    location := 6 * 80 + 60 }

/-- What `main` does behind `add_frames`: it ticks after each read of the clock. -/
def mainCalls (stale : BlinkStruct) : List Blink.Call :=
  List.replicate 200 .tasklet ++ .add (mainStruct stale) :: (List.replicate 200 .tasklet ++
    .sync ((40 : UInt32) <<< 16 ||| (6 * 80 + 60)) :: (List.replicate 200 .tasklet ++
      .remove 200 :: List.replicate (80 * 25) .tasklet))

/-- The character of a text at a row and a column; lines go on with spaces. -/
def charOf (text : List UInt8) (row col : ℕ) : UInt8 :=
  ((text.splitOn 0x0A).getD row []).getD col 0x20

/-- The text fits 25 rows of 40 characters. -/
structure Fits (text : List UInt8) : Prop where
  rows : (text.splitOn 0x0A).length ≤ 25
  cols : ∀ l ∈ text.splitOn 0x0A, l.length ≤ 40

/-- The location of a cell of the right half of the page. -/
def cellAt (row col : ℕ) : ℕ := row * 80 + col + 40

variable {stale user : BlinkStruct} {text0 text1 : List UInt8} {row col n : ℕ}

theorem mem_cell {c d : UInt8} : user ∈ cell stale row col c d ↔
    ¬ (c = 0x20 ∧ d = 0x20) ∧ user = blinkStruct stale row col c d := by
  unfold cell
  split_ifs with h
  · exact iff_of_false nofun fun h' => h'.1 h
  · rw [List.mem_singleton, and_iff_right h]

/-- What `add_frames` adds are the places at which a text has a character. -/
theorem mem_frameCells : user ∈ frameCells stale 0 (text0.splitOn 0x0A) (text1.splitOn 0x0A) ↔
    ∃ row col, ¬ (charOf text0 row col = 0x20 ∧ charOf text1 row col = 0x20) ∧
      user = blinkStruct stale row col (charOf text0 row col) (charOf text1 row col) := by
  simp only [frameCells, rowCells, mem_zipPadded, mem_cell, Nat.zero_add]
  constructor
  · rintro ⟨row, -, col, -, h⟩
    exact ⟨row, col, h⟩
  · rintro ⟨row, col, hvis, huser⟩
    have hout : ∀ (l : List UInt8) (j : ℕ), l.length ≤ j → l.getD j 0x20 = 0x20 :=
      fun l j h => List.getD_eq_default _ _ h
    have houtRow : ∀ (ls : List (List UInt8)) (i : ℕ), ls.length ≤ i → ls.getD i [] = [] :=
      fun ls i h => List.getD_eq_default _ _ h
    refine ⟨row, ?_, col, ?_, hvis, huser⟩
    · by_contra hlen
      refine hvis ⟨?_, ?_⟩
      · rw [charOf, houtRow _ _ (by omega)]
        rfl
      · rw [charOf, houtRow _ _ (by omega)]
        rfl
    · by_contra hlen
      exact hvis ⟨hout _ _ (by omega), hout _ _ (by omega)⟩

/-- A text that fits has spaces outside of its rows and columns. -/
theorem Fits.char_eq {text : List UInt8} (h : Fits text) (hout : ¬ (row < 25 ∧ col < 40)) :
    charOf text row col = 0x20 := by
  have hrows := h.rows
  unfold charOf
  by_cases hrow : row < (text.splitOn 0x0A).length
  · refine List.getD_eq_default _ _ ?_
    have hcols := h.cols _ (List.getElem_mem hrow)
    rw [List.getD_eq_getElem _ _ hrow]
    omega
  · rw [List.getD_eq_default _ _ (Nat.le_of_not_lt hrow), List.getD_nil]

@[simp] theorem blinkStruct_location (stale : BlinkStruct) {c d : UInt8} (hrow : row < 25)
    (hcol : col < 40) :
    (blinkStruct stale row col c d).location.toNat = cellAt row col := by
  have hlt : row * 80 + col + 40 < 2 ^ 16 := by omega
  exact UInt16.toNat_ofNat_of_lt' hlt

/-- The lines of a row of texts that fit. -/
theorem Fits.row_length {text : List UInt8} (h : Fits text) (row : ℕ) :
    ((text.splitOn 0x0A).getD row []).length ≤ 40 := by
  by_cases hrow : row < (text.splitOn 0x0A).length
  · rw [List.getD_eq_getElem _ _ hrow]
    exact h.cols _ (List.getElem_mem hrow)
  · rw [List.getD_eq_default _ _ (Nat.le_of_not_lt hrow)]
    exact Nat.zero_le _

/-- The structs are for different cells. -/
theorem pairwise_frameCells (stale : BlinkStruct) (h0 : Fits text0) (h1 : Fits text1) :
    (frameCells stale 0 (text0.splitOn 0x0A) (text1.splitOn 0x0A)).Pairwise
      fun u v => u.location ≠ v.location := by
  have hrows0 := h0.rows
  have hrows1 := h1.rows
  have hcell : ∀ row < 25, ∀ col < max ((text0.splitOn 0x0A).getD row []).length
      ((text1.splitOn 0x0A).getD row []).length, ∀ c d,
        ∀ u ∈ cell stale (0 + row) (0 + col) c d, col < 40 ∧ u.location.toNat = cellAt row col := by
    intro row hrow col hcol c d u hu
    have hlen0 := h0.row_length row
    have hlen1 := h1.row_length row
    rw [Nat.zero_add, Nat.zero_add, mem_cell] at hu
    have hcol : col < 40 := by omega
    exact ⟨hcol, by rw [hu.2, blinkStruct_location stale hrow hcol]⟩
  refine pairwise_zipPadded (fun row hrow => pairwise_zipPadded (fun col _ => ?_) ?_) ?_
  · rw [cell]
    split_ifs
    · exact .nil
    · exact List.pairwise_singleton ..
  · intro i j hij hj u hu v hv e
    obtain ⟨-, hui⟩ := hcell row (by omega) i (by omega) _ _ u hu
    obtain ⟨-, hvj⟩ := hcell row (by omega) j hj _ _ v hv
    rw [e, hvj, cellAt, cellAt] at hui
    omega
  · intro i j hij hj u hu v hv e
    obtain ⟨a, ha, hu⟩ := mem_zipPadded.1 hu
    obtain ⟨b, hb, hv⟩ := mem_zipPadded.1 hv
    obtain ⟨hacol, hui⟩ := hcell i (by omega) a ha _ _ u hu
    obtain ⟨hbcol, hvj⟩ := hcell j (by omega) b hb _ _ v hv
    rw [e, hvj, cellAt, cellAt] at hui
    omega

/-- What the calls of `main` behind `add_frames` name are two cells, and they add nothing in the
upper left corner. -/
theorem mainCalls_touches {a : UInt16} {c : Blink.Call} (hc : c ∈ mainCalls stale)
    (h : c.Touches a) : a.toNat = 6 * 80 + 60 ∨ a.toNat = 200 := by
  simp only [mainCalls, List.mem_append, List.mem_cons, List.mem_replicate] at hc
  obtain ⟨-, rfl⟩ | rfl | ⟨-, rfl⟩ | rfl | ⟨-, rfl⟩ | rfl | ⟨-, rfl⟩ := hc
  · exact h.elim
  · exact .inl (congrArg UInt16.toNat h.symm)
  · exact h.elim
  · exact .inl (congrArg UInt16.toNat h.symm)
  · exact h.elim
  · exact .inr (congrArg UInt16.toNat h.symm)
  · exact h.elim

/-- Two places with one location are the same. -/
theorem cellAt_inj {row' col' : ℕ} (hcol : col < 40) (hcol' : col' < 40)
    (h : cellAt row col = cellAt row' col') : row = row' ∧ col = col' := by
  unfold cellAt at h
  omega

/-- The structs are for different cells, those in which a text has a character. -/
structure Covers (stale : BlinkStruct) (text0 text1 : List UInt8) (us : List BlinkStruct) :
    Prop where
  pairwise : us.Pairwise fun u v => u.location ≠ v.location
  place : ∀ u ∈ us, ∃ row < 25, ∃ col < 40,
    ¬ (charOf text0 row col = 0x20 ∧ charOf text1 row col = 0x20) ∧
      u.location.toNat = cellAt row col
  mem : ∀ row col, ¬ (charOf text0 row col = 0x20 ∧ charOf text1 row col = 0x20) →
    blinkStruct stale row col (charOf text0 row col) (charOf text1 row col) ∈ us

theorem covers_frameCells (stale : BlinkStruct) (h0 : Fits text0) (h1 : Fits text1) :
    Covers stale text0 text1 (frameCells stale 0 (text0.splitOn 0x0A) (text1.splitOn 0x0A)) where
  pairwise := pairwise_frameCells stale h0 h1
  place u hu := by
    obtain ⟨row, col, hvis, rfl⟩ := mem_frameCells.1 hu
    have hin : row < 25 ∧ col < 40 := by
      by_contra hout
      exact hvis ⟨h0.char_eq hout, h1.char_eq hout⟩
    exact ⟨row, hin.1, col, hin.2, hvis, blinkStruct_location stale hin.1 hin.2⟩
  mem _ _ hvis := mem_frameCells.2 ⟨_, _, hvis, rfl⟩

namespace Covers

variable {us : List BlinkStruct} {calls : List Blink.Call} {vmem : ℕ → UInt8}

/-- Neither `add_frames` nor `main` adds a struct in the upper left corner. -/
theorem steps (h : Covers stale text0 text1 us) (vmem : ℕ → UInt8)
    (hcalls : ∀ c ∈ calls, ∀ a, c.Touches a → a.toNat = 6 * 80 + 60 ∨ a.toNat = 200) :
    blinking.Steps Blink.FreeBelowCorner (Blink.start vmem)
      (us.map Blink.Call.add ++ calls) := by
  refine Blink.linked_start.steps nofun fun user hu hcorner => ?_
  rcases List.mem_append.1 hu with hu | hu
  · obtain ⟨u, hmem, heq⟩ := List.mem_map.1 hu
    obtain rfl := Blink.Call.add.inj heq
    obtain ⟨row, -, col, -, -, hloc⟩ := h.place u hmem
    rw [hcorner, cellAt] at hloc
    exact absurd hloc (by simp)
  · have hloc := hcalls _ hu user.location rfl
    rw [hcorner] at hloc
    exact absurd hloc (by decide)

/-- A byte that no call names. -/
theorem rests (hcalls : ∀ c ∈ calls, ∀ a, c.Touches a → a.toNat = 6 * 80 + 60 ∨ a.toNat = 200)
    {a : ℕ} (hus : ∀ u ∈ us, 2 * u.location.toNat ≠ a) (hsync : 2 * (6 * 80 + 60) ≠ a)
    (hremove : 2 * 200 ≠ a) :
    ((us.map Blink.Call.add ++ calls).foldl Board.call ⟨[], vmem⟩).page a = vmem a := by
  have hrest : Board.Rests ⟨[], vmem⟩ a (vmem a) := ⟨nofun, rfl⟩
  refine (hrest.exec (fun c hc loc hloc => ?_) (Board.exec_eq _ _)).page
  rcases List.mem_append.1 hc with hc | hc
  · obtain ⟨u, hu, rfl⟩ := List.mem_map.1 hc
    obtain rfl : u.location = loc := hloc
    exact hus u hu
  · obtain h | h := hcalls c hc loc hloc
    · rwa [h]
    · rwa [h]

/-- A cell in which a text has a character. -/
theorem shows (h : Covers stale text0 text1 us)
    (hcalls : ∀ c ∈ calls, ∀ a, c.Touches a → a.toNat = 6 * 80 + 60 ∨ a.toNat = 200)
    (hrow : row < 25) (hcol : col < 40)
    (hvis : ¬ (charOf text0 row col = 0x20 ∧ charOf text1 row col = 0x20))
    (hsync : cellAt row col ≠ 6 * 80 + 60) (hremove : cellAt row col ≠ 200) :
    ((us.map Blink.Call.add ++ calls).foldl Board.call ⟨[], vmem⟩).page (2 * cellAt row col) =
      if Board.ticksIn calls % 30 < 15 then charOf text0 row col else charOf text1 row col := by
  have hloc := blinkStruct_location stale (c := charOf text0 row col)
    (d := charOf text1 row col) hrow hcol
  have hlt : ∀ u ∈ us, u.location.toNat < blinkSlots := by
    intro u hu
    obtain ⟨row', hrow', col', hcol', -, hloc'⟩ := h.place u hu
    rw [hloc', cellAt]
    change _ < 80 * 25
    omega
  have hshown := Board.shows_added vmem calls h.pairwise hlt (h.mem row col hvis) fun c hc ht => by
    have hcell := hcalls c hc _ ht
    rw [hloc] at hcell
    omega
  rw [hloc] at hshown
  exact hshown

end Covers

/-- **The fish program.**  At every moment of `main` behind `add_frames`, each cell of the right
half of the page shows the first text for fifteen ticks, then the second one for fifteen ticks, and
so on, except for the cells that `main` itself names later, and what is blank in both texts; no
other byte of the page has changed. -/
theorem main_animates (vmem : ℕ → UInt8) (stale stale' : BlinkStruct) (h0 : Fits text0)
    (h1 : Fits text1) (hn0 : text0.length < n) (hn1 : text1.length < n) {calls : List Blink.Call}
    (hcalls : calls <+: mainCalls stale') :
    ∃ added b, addFrames stale n text0 text1 = some added ∧
      blinking.exec (Blink.start vmem) (added.map .add ++ calls) = some b ∧
      (∀ row < 25, ∀ col < 40, cellAt row col ≠ 6 * 80 + 60 → cellAt row col ≠ 200 →
        b.vmem (2 * cellAt row col) =
          if charOf text0 row col = 0x20 ∧ charOf text1 row col = 0x20 then
            vmem (2 * cellAt row col)
          else if Board.ticksIn calls % 30 < 15 then charOf text0 row col
          else charOf text1 row col) ∧
      ∀ a, (∀ row < 25, ∀ col < 40, a ≠ 2 * cellAt row col) → b.vmem a = vmem a := by
  have hcovers := covers_frameCells stale h0 h1
  generalize hus : frameCells stale 0 (text0.splitOn 0x0A) (text1.splitOn 0x0A) = us at hcovers
  have hadd : addFrames stale n text0 text1 = some us := hus ▸ addFrames_eq stale hn0 hn1
  have htouch : ∀ c ∈ calls, ∀ a, c.Touches a → a.toNat = 6 * 80 + 60 ∨ a.toNat = 200 :=
    fun c hc a => mainCalls_touches (hcalls.subset hc)
  obtain ⟨b, x, hb, hx, ⟨l, hshow⟩, -⟩ :=
    Blink.refines_board.run (Blink.holds_start vmem) (hcovers.steps vmem htouch)
  obtain rfl := Option.some.inj ((Board.exec_eq _ _).symm.trans hx)
  refine ⟨us, b, hadd, hb, fun row hrow col hcol hsync hremove => ?_, fun a ha => ?_⟩
  · rw [hshow.page]
    by_cases hblank : charOf text0 row col = 0x20 ∧ charOf text1 row col = 0x20
    · rw [if_pos hblank]
      refine Covers.rests htouch (fun u hu h => ?_) (by omega) (by omega)
      obtain ⟨row', -, col', hcol', hvis, hloc⟩ := hcovers.place u hu
      have hsame : cellAt row' col' = cellAt row col := by omega
      obtain ⟨rfl, rfl⟩ := cellAt_inj hcol' hcol hsame
      exact hvis hblank
    · rw [if_neg hblank]
      exact hcovers.shows htouch hrow hcol hblank hsync hremove
  · rw [hshow.page]
    refine Covers.rests htouch (fun u hu h => ?_) (ha 6 (by omega) 20 (by omega)).symm
      (ha 2 (by omega) 0 (by omega)).symm
    obtain ⟨row, hrow, col, hcol, -, hloc⟩ := hcovers.place u hu
    exact ha row hrow col hcol (by rw [← h, hloc])

/-- Two texts of one line each, after the first twenty ticks. -/
theorem main_animates_line : ∃ added b,
    addFrames Blink.memsetZero 9 [0x3C, 0x3E] [0x20, 0x2D, 0x2D] = some added ∧
      blinking.exec (Blink.start fun _ => 0) (added.map .add ++ List.replicate 20 .tasklet) =
        some b ∧
      (∀ row < 25, ∀ col < 40, cellAt row col ≠ 6 * 80 + 60 → cellAt row col ≠ 200 →
        b.vmem (2 * cellAt row col) =
          if charOf [0x3C, 0x3E] row col = 0x20 ∧ charOf [0x20, 0x2D, 0x2D] row col = 0x20 then 0
          else if Board.ticksIn (List.replicate 20 .tasklet) % 30 < 15 then
            charOf [0x3C, 0x3E] row col
          else charOf [0x20, 0x2D, 0x2D] row col) ∧
      ∀ a, (∀ row < 25, ∀ col < 40, a ≠ 2 * cellAt row col) → b.vmem a = 0 := by
  refine main_animates (fun _ => 0) Blink.memsetZero Blink.memsetZero ⟨by decide, by decide⟩
    ⟨by decide, by decide⟩ (by decide) (by decide) ?_
  exact (List.prefix_append (List.replicate 20 _) (List.replicate 180 _)).trans
    (List.prefix_append (List.replicate 200 _) _)

end Fish

end KTeamOS
