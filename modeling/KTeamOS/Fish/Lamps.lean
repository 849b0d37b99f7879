import Mathlib.Data.List.Basic
import KTeamOS.Fish.Blink
import KTeamOS.LTS.Refinement

/-!
# What the blink list is for

A board of lamps over a text page.  A lamp is at a location, shows one of two characters, and knows
how many ticks are left until it shows the other one; a new lamp comes in front of the others, and
a call that names a location means the first lamp there.  The list in memory, its links, slots and
16-bit counters refine the board in every run that keeps the list in order (`blinking_refines`).

A length of `n` ticks is `n` for `n` from 1 to `2 ^ 15`; the counter is compared as a signed word,
so that any other length is 1.
-/

namespace KTeamOS

/-- A blinking character. -/
structure Lamp where
  location : UInt16
  onChar : UInt8
  offChar : UInt8
  onTicks : ℕ
  offTicks : ℕ
  lit : Bool
  /-- The ticks until it changes. -/
  left : ℕ
  deriving DecidableEq

/-- The ticks that the length of a phase stands for. -/
def ticks (length : UInt16) : ℕ :=
  if 0 < length.toNat ∧ length.toNat ≤ 2 ^ 15 then length.toNat else 1

/-- The lamp of a struct. -/
def BlinkStruct.lamp (s : BlinkStruct) : Lamp where
  location := s.location
  onChar := s.onChar
  offChar := s.offChar
  onTicks := ticks s.onLength
  offTicks := ticks s.offLength
  lit := s.status &&& 1 ≠ 0
  left := ticks s.countdown

namespace Lamp

/-- The lamp that a call of add puts on the board. -/
def fresh (user : BlinkStruct) : Lamp where
  location := user.location
  onChar := user.onChar
  offChar := user.offChar
  onTicks := ticks user.onLength
  offTicks := ticks user.offLength
  lit := true
  left := ticks user.onLength

variable (x : Lamp)

/-- The character that the lamp shows. -/
def shown : UInt8 := if x.lit then x.onChar else x.offChar

/-- The phase of a lamp changes with the last of its ticks. -/
def tick : Lamp :=
  if x.left ≤ 1 then
    if x.lit then { x with lit := false, left := x.offTicks }
    else { x with lit := true, left := x.onTicks }
  else { x with left := x.left - 1 }

/-- A lamp is drawn when it changes. -/
def drawTick (page : ℕ → UInt8) : ℕ → UInt8 :=
  if x.left ≤ 1 then Function.update page (2 * x.location.toNat) x.tick.shown else page

/-- The lamp with the clock of `y`. -/
def withClock (y : Lamp) : Lamp :=
  { x with onTicks := y.onTicks, offTicks := y.offTicks, lit := y.lit, left := y.left }

end Lamp

/-- The lamps, the last one first, and the page. -/
structure Board where
  lamps : List Lamp
  page : ℕ → UInt8

namespace Board

/-- What a call returns, and the lamp that it copies to its argument. -/
abbrev Answer := Option (ℤ × Option Lamp)

variable (b : Board)

/-- The lamp at a location. -/
def at? (location : UInt16) : Option Lamp := b.lamps.find? fun x => x.location = location

/-- There is no slot left. -/
def Full : Prop := b.lamps.length = blinkSlots

instance : Decidable b.Full := inferInstanceAs (Decidable (_ = _))

/-- The call adds a lamp: its location is on the page, and there is a slot left. -/
def Accepts (user : BlinkStruct) : Prop := user.location.toNat < blinkSlots ∧ ¬ b.Full

instance (user : BlinkStruct) : Decidable (b.Accepts user) := inferInstanceAs (Decidable (_ ∧ _))

/-- A new lamp, which begins with its on character. -/
def add (user : BlinkStruct) : Board where
  lamps := Lamp.fresh user :: b.lamps
  page := Function.update b.page (2 * user.location.toNat) user.onChar

/-- The lamp at the location goes; its last character stays on the page. -/
def remove (location : UInt16) : Board :=
  { b with lamps := b.lamps.eraseP fun x => x.location = location }

/-- The lamp at `dst` gets the clock of `y`; what is drawn is its off character. -/
def sync (y : Lamp) (dst : UInt16) : Board :=
  match b.at? dst with
  | none => b
  | some d =>
    { lamps := b.lamps.replaceF fun x => if x.location = dst then some (x.withClock y) else none
      page := Function.update b.page (2 * dst.toNat) d.offChar }

/-- All lamps tick, each in its own cell. -/
def tick : Board where
  lamps := b.lamps.map Lamp.tick
  page := b.lamps.foldl (fun page x => x.drawTick page) b.page

/-- What a call does to the board. -/
def call : Blink.Call → Board
  | .add user => if b.Accepts user then b.add user else b
  | .remove arg => b.remove arg.toUInt16
  | .find _ => b
  | .sync arg =>
    match b.at? (arg >>> 16).toUInt16 with
    | none => b
    | some y => b.sync y (arg &&& 0xFFFF).toUInt16
  | .tasklet => b.tick

theorem call_sync (arg : UInt32) : b.call (.sync arg) =
    (b.at? (arg >>> 16).toUInt16).elim b fun y => b.sync y (arg &&& 0xFFFF).toUInt16 := by
  rw [call]
  cases b.at? (arg >>> 16).toUInt16 with
  | none => rfl
  | some y => rfl

/-- What a call returns, and the lamp that `find` has found. -/
def answer : Blink.Call → Answer
  | .add user => some (if b.Accepts user then 0 else -1, none)
  | .remove arg => some (if (b.at? arg.toUInt16).isSome then 0 else -1, none)
  | .find location =>
    match b.at? location with
    | none => some (-1, none)
    | some x => some (0, some x)
  | .sync arg =>
    some (if (b.at? (arg >>> 16).toUInt16).isSome ∧ (b.at? (arg &&& 0xFFFF).toUInt16).isSome then 0
      else -1, none)
  | .tasklet => none

end Board

/-- The board under the calls of the program. -/
def boardMachine : Machine Board Blink.Call := ⟨fun b c => some (b.call c)⟩

/-- What the call of the program returns. -/
def Blink.answer (b : Blink) : Call → Board.Answer
  | .add user => some ((b.mp1IoctlAdd user).2, none)
  | .remove arg => (b.mp1IoctlRemove blinkSlots arg).map fun r => (r.2, none)
  | .find location =>
    (b.mp1IoctlFind blinkSlots location).map fun r => (r.2, r.1.map BlinkStruct.lamp)
  | .sync arg => (b.mp1IoctlSync blinkSlots arg).map fun r => (r.2, none)
  | .tasklet => none

/-! ### One turn of the tasklet -/

/-- The signed counter runs for the ticks of its length. -/
theorem ticks_step (c : UInt16) :
    (0 < (c - 1).toNat ∧ (c - 1).toNat < 2 ^ 15 ∧ 1 < ticks c ∧ ticks (c - 1) = ticks c - 1) ∨
      (¬ (0 < (c - 1).toNat ∧ (c - 1).toNat < 2 ^ 15) ∧ ticks c = 1) := by
  have hlt := c.toNat_lt
  have hsub : (c - 1).toNat = (65535 + c.toNat) % 65536 := by simp [UInt16.toNat_sub]
  unfold ticks
  rw [hsub]
  split_ifs <;> omega

theorem status_xor {status : UInt16} : (status ^^^ 1) &&& 1 = 0 ↔ ¬ status &&& 1 = 0 := by
  simp only [← UInt16.toNat_inj, UInt16.toNat_and, UInt16.toNat_xor, UInt16.toNat_one,
    UInt16.toNat_zero, Nat.and_one_is_mod]
  have hxor := @Nat.xor_mod_two_eq_one status.toNat 1
  omega

namespace Blink

variable {b b' : Blink} {s user : BlinkStruct} {i n : ℕ} {p : Option ℕ} {l : List ℕ}

/-- The body of the loop ticks the lamp of its slot. -/
theorem taskletBody_spec (b : Blink) (i : ℕ) :
    ∃ s, s.lamp = (b.blinkArray i).lamp.tick ∧ s.next = b.next i ∧
      (b.taskletBody i).blinkArray = Function.update b.blinkArray i s ∧
      (b.taskletBody i).vmem = (b.blinkArray i).lamp.drawTick b.vmem := by
  unfold taskletBody
  dsimp only
  obtain ⟨hpos, hlt, hleft, hsub⟩ | ⟨hend, hleft⟩ := ticks_step (b.blinkArray i).countdown
  · have hwait : ¬ (b.blinkArray i).lamp.left ≤ 1 := Nat.not_le.2 hleft
    rw [if_pos ⟨hpos, hlt⟩]
    refine ⟨{ b.blinkArray i with countdown := (b.blinkArray i).countdown - 1 }, ?_, rfl, rfl, ?_⟩
    · rw [Lamp.tick, if_neg hwait, BlinkStruct.lamp, hsub]
      rfl
    · rw [Lamp.drawTick, if_neg hwait]
      rfl
  · have hdue : (b.blinkArray i).lamp.left ≤ 1 := Nat.le_of_eq hleft
    rw [if_neg hend]
    by_cases hstatus : (b.blinkArray i).status &&& 1 = 0
    · have hlit : (b.blinkArray i).lamp.lit = false := by simp [BlinkStruct.lamp, hstatus]
      have hlit' : ((b.blinkArray i).status ^^^ 1) &&& 1 ≠ 0 := fun h => status_xor.1 h hstatus
      rw [if_pos hstatus]
      refine ⟨{ b.blinkArray i with
        countdown := (b.blinkArray i).onLength
        status := (b.blinkArray i).status ^^^ 1 }, ?_, rfl, rfl, ?_⟩
      · rw [Lamp.tick, if_pos hdue, hlit]
        simp [BlinkStruct.lamp, hlit']
      · simp only [Lamp.drawTick, Lamp.tick, Lamp.shown, hdue, hlit]
        rfl
    · have hlit : (b.blinkArray i).lamp.lit = true := by simp [BlinkStruct.lamp, hstatus]
      have hlit' : ((b.blinkArray i).status ^^^ 1) &&& 1 = 0 := status_xor.2 hstatus
      rw [if_neg hstatus]
      refine ⟨{ b.blinkArray i with
        countdown := (b.blinkArray i).offLength
        status := (b.blinkArray i).status ^^^ 1 }, ?_, rfl, rfl, ?_⟩
      · rw [Lamp.tick, if_pos hdue, hlit]
        simp [BlinkStruct.lamp, hlit']
      · simp only [Lamp.drawTick, Lamp.tick, Lamp.shown, hdue, hlit]
        rfl

/-- The lamps of the slots `l`. -/
def lamps (b : Blink) (l : List ℕ) : List Lamp := l.map fun i => (b.blinkArray i).lamp

theorem lamps_congr (h : ∀ i ∈ l, b'.blinkArray i = b.blinkArray i) : b'.lamps l = b.lamps l :=
  List.map_congr_left fun i hi => by rw [h i hi]

/-- The tasklet ticks all lamps of the list. -/
theorem taskletLoop_lamps (h : Links.IsList b.next p l) (hnd : l.Nodup)
    (hst : taskletLoop n b p = some b') : b'.lamps l = (b.lamps l).map Lamp.tick ∧
      b'.vmem = (b.lamps l).foldl (fun page x => x.drawTick page) b.vmem ∧
      ∀ i, i ∉ l → b'.blinkArray i = b.blinkArray i := by
  induction l generalizing n b p with
  | nil =>
    obtain rfl : p = none := h
    obtain rfl : b = b' := by cases n <;> exact Option.some.inj hst
    exact ⟨rfl, rfl, fun _ _ => rfl⟩
  | cons i l ih =>
    obtain ⟨rfl, h⟩ := h
    obtain ⟨hil, hnd⟩ := List.nodup_cons.1 hnd
    cases n with
    | zero => cases hst
    | succ n =>
      obtain ⟨s, hs, -, harray, hvmem⟩ := taskletBody_spec b i
      have hsame : SameLinks b (b.taskletBody i) := sameLinks_taskletBody
      rw [← hsame.next] at h
      obtain ⟨hlamps, hpage, hrest⟩ := ih h hnd hst
      have htail : (b.taskletBody i).lamps l = b.lamps l := lamps_congr fun j hj => by
        rw [harray, Function.update_of_ne (ne_of_mem_of_not_mem hj hil)]
      rw [htail] at hlamps hpage
      refine ⟨?_, ?_, fun j hj => ?_⟩
      · have hhead : b'.blinkArray i = s := by rw [hrest i hil, harray, Function.update_self]
        change (b'.blinkArray i).lamp :: b'.lamps l = _ :: (b.lamps l).map Lamp.tick
        rw [hlamps, hhead, hs]
      · rw [hpage, hvmem]
        rfl
      · rw [List.mem_cons, not_or] at hj
        rw [hrest j hj.2, harray, Function.update_of_ne hj.1]

/-! ### The calls -/

/-- The node that a search finds gets other data. -/
theorem map_replaceF {α β : Type*} {l : List α} {f g : α → β} {P : α → Bool} {q : β → Option β}
    {a : α} (hnd : l.Nodup) (hfind : l.find? P = some a) (hP : ∀ x, (q (f x)).isSome = P x)
    (ha : q (f a) = some (g a)) (hg : ∀ x, x ≠ a → g x = f x) :
    l.map g = (l.map f).replaceF q := by
  induction l with
  | nil => cases hfind
  | cons x l ih =>
    obtain ⟨hx, hnd⟩ := List.nodup_cons.1 hnd
    rw [List.map_cons, List.map_cons]
    by_cases hPx : P x
    · obtain rfl : x = a := by rw [List.find?_cons_of_pos hPx] at hfind; exact Option.some.inj hfind
      rw [List.replaceF_cons_of_some q ha]
      exact congrArg (g x :: ·) (List.map_congr_left fun y hy => hg y (ne_of_mem_of_not_mem hy hx))
    · have hne : x ≠ a := fun e => hPx (e ▸ List.find?_some hfind)
      have hnone : q (f x) = none := by
        rw [← Option.not_isSome_iff_eq_none, hP x]
        exact hPx
      rw [List.replaceF_cons_of_none q hnone, hg x hne]
      rw [List.find?_cons_of_neg hPx] at hfind
      exact congrArg (f x :: ·) (ih hnd hfind)

/-- The first node that passes a test is not among those that are left. -/
theorem ne_of_mem_eraseP {α : Type*} {l : List α} {P : α → Bool} {a x : α} (hnd : l.Nodup)
    (hfind : l.find? P = some a) (hx : x ∈ l.eraseP P) : x ≠ a := by
  obtain ⟨ha, l₁, l₂, rfl, hl₁⟩ := List.find?_eq_some_iff_append.1 hfind
  rw [List.eraseP_append_right _ (by simpa using hl₁), List.eraseP_cons_of_pos ha] at hx
  rintro rfl
  exact (List.nodup_middle.1 hnd).notMem hx

@[simp] theorem setPointer_lamp {c : Option ℕ} :
    ((b.setPointer c p).blinkArray i).lamp = (b.blinkArray i).lamp := by
  cases c with
  | none => rfl
  | some j =>
    change (Function.update b.blinkArray j _ i).lamp = _
    by_cases h : i = j
    · subst h
      rw [Function.update_self]
      rfl
    · rw [Function.update_of_ne h]

@[simp] theorem setPointer_vmem {c : Option ℕ} : (b.setPointer c p).vmem = b.vmem := by
  cases c <;> rfl

/-- The list `l` in memory and the page are those of the board `x`. -/
structure Shows (b : Blink) (l : List ℕ) (x : Board) : Prop where
  linked : Linked b l
  lamps : b.lamps l = x.lamps
  page : b.vmem = x.page

namespace Shows

variable {x : Board} {c : Call} (h : Shows b l x)
include h

theorem at? (ax : UInt16) :
    x.at? ax = (l.find? fun i => b.location i = ax).map fun i => (b.blinkArray i).lamp := by
  rw [Board.at?, ← h.lamps, Blink.lamps, List.find?_map]
  rfl

theorem isSome_at? (ax : UInt16) :
    (x.at? ax).isSome = (l.find? fun i => b.location i = ax).isSome := by
  rw [h.at?, Option.isSome_map]

theorem length_eq : x.lamps.length = l.length := by rw [← h.lamps, Blink.lamps, List.length_map]

/-- Without a free slot all of them are on the list. -/
theorem full (hm : b.mp1Malloc = none) : x.Full := by
  have hsub : List.range blinkSlots ⊆ l := fun i hi => by
    have hi := List.mem_range.1 hi
    by_contra hil
    exact mp1Malloc_eq_none.1 hm i hi (h.linked.free i hi hil)
  have hle := (List.Nodup.subperm List.nodup_range hsub).length_le
  rw [List.length_range] at hle
  rw [Board.Full, h.length_eq]
  exact Nat.le_antisymm h.linked.length_le hle

theorem add (hC : FreeBelowCorner b (.add user)) :
    b.answer (.add user) = x.answer (.add user) ∧
      ∃ l', Shows (b.mp1IoctlAdd user).1 l' (x.call (.add user)) := by
  unfold Blink.answer Board.answer Board.call
  dsimp only
  by_cases hacc : x.Accepts user
  · rw [if_pos hacc, if_pos hacc]
    cases hm : b.mp1Malloc with
    | none => exact absurd (h.full hm) hacc.2
    | some m =>
      have hml : m ∉ l := fun hl =>
        h.linked.mallocFresh_iff.2 hC hacc.1 m hm (h.linked.listed_iff.2 hl)
      have hlinked := h.linked.add hacc.1 hm hml
      rw [mp1IoctlAdd, if_neg (Nat.not_le_of_lt hacc.1), hm] at hlinked ⊢
      refine ⟨rfl, m :: l, hlinked, ?_, ?_⟩
      · refine congrArg₂ List.cons ?_ ((lamps_congr fun i hi => ?_).trans h.lamps)
        · simp [setSlot, mp1Poke, BlinkStruct.lamp, Lamp.fresh]
        · have hne := ne_of_mem_of_not_mem hi hml
          simp [setSlot, mp1Poke, hne]
      · simp [setSlot, mp1Poke, location, Board.add, h.page]
  · have hrefused : b.mp1IoctlAdd user = (b, -1) := by
      refine mp1IoctlAdd_refused fun hloc => Option.eq_none_iff_forall_ne_some.2 fun m hm => hacc ?_
      have hml : m ∉ l := fun hl =>
        h.linked.mallocFresh_iff.2 hC hloc m hm (h.linked.listed_iff.2 hl)
      have hlen := (h.linked.add hloc hm hml).length_le
      refine ⟨hloc, ?_⟩
      rw [Board.Full, h.length_eq]
      rw [List.length_cons] at hlen
      exact Nat.ne_of_lt hlen
    rw [hrefused, if_neg hacc, if_neg hacc]
    exact ⟨rfl, l, h⟩

theorem remove (arg : UInt32) : b.answer (.remove arg) = x.answer (.remove arg) ∧
    ∀ b', b.call (.remove arg) = some b' → ∃ l', Shows b' l' (x.call (.remove arg)) := by
  obtain ⟨b₁, r, hr, hlinked, -⟩ := h.linked.remove arg
  simp only [Blink.answer, Board.answer, Blink.call, Board.call, hr, Option.map_some,
    h.isSome_at? arg.toUInt16]
  have hlamps : ∀ l', (x.remove arg.toUInt16).lamps = l' ↔
      (l.eraseP fun i => b.location i = arg.toUInt16).map
        (fun i => (b.blinkArray i).lamp) = l' := by
    intro l'
    rw [Board.remove, ← h.lamps, Blink.lamps, List.eraseP_map]
    rfl
  rw [mp1IoctlRemove, h.linked.find] at hr
  cases hfind : l.find? fun i => b.location i = arg.toUInt16 with
  | none =>
    rw [hfind] at hr
    cases hr
    refine ⟨rfl, fun b' hb' => ?_⟩
    cases hb'
    exact ⟨_, hlinked, ((hlamps _).2 rfl).symm, h.page⟩
  | some i =>
    rw [hfind, Option.bind_eq_bind, Option.bind_some] at hr
    obtain ⟨edx, -, heq⟩ := Option.bind_eq_some_iff.1 hr
    cases heq
    refine ⟨rfl, fun b' hb' => ?_⟩
    cases hb'
    refine ⟨_, hlinked, ((hlamps _).2 ?_).symm, ?_⟩
    · refine List.map_congr_left fun j hj => ?_
      have hne := ne_of_mem_eraseP h.linked.isList.nodup hfind hj
      rw [mp1Free, setSlot]
      dsimp only
      rw [Function.update_of_ne hne, setPointer_lamp]
    · exact setPointer_vmem.trans h.page

theorem sync (arg : UInt32) : b.answer (.sync arg) = x.answer (.sync arg) ∧
    ∀ b', b.call (.sync arg) = some b' → ∃ l', Shows b' l' (x.call (.sync arg)) := by
  obtain ⟨b₁, r, hr, hsame⟩ := h.linked.sync arg
  simp only [Blink.answer, Board.answer, Blink.call, Board.call, hr, Option.map_some, Board.sync,
    h.isSome_at?]
  simp only [h.at?]
  rw [mp1IoctlSync, h.linked.find, h.linked.find] at hr
  cases hsrc : l.find? fun i => b.location i = (arg >>> 16).toUInt16 with
  | none =>
    rw [hsrc] at hr
    cases hr
    refine ⟨rfl, fun b' hb' => ?_⟩
    cases hb'
    exact ⟨l, h⟩
  | some esi =>
    cases hdst : l.find? fun i => b.location i = (arg &&& 0xFFFF).toUInt16 with
    | none =>
      rw [hsrc, hdst] at hr
      cases hr
      refine ⟨rfl, fun b' hb' => ?_⟩
      cases hb'
      exact ⟨l, h⟩
    | some edi =>
      rw [hsrc, hdst] at hr
      cases hr
      refine ⟨rfl, fun b' hb' => ?_⟩
      cases hb'
      have hloc : b.location edi = (arg &&& 0xFFFF).toUInt16 := by simpa using List.find?_some hdst
      refine ⟨l, h.linked.of_sameLinks hsame, ?_, ?_⟩
      · rw [Option.map_some, Option.map_some]
        dsimp only
        rw [← h.lamps]
        refine map_replaceF h.linked.isList.nodup hdst (fun j => ?_) ?_ fun j hj => ?_
        · change (if b.location j = _ then some _ else none).isSome = _
          split_ifs with hj
          · rw [hj, decide_eq_true rfl]
            rfl
          · rw [decide_eq_false hj]
            rfl
        · refine (if_pos hloc).trans (congrArg some ?_)
          simp [setSlot, mp1Poke, BlinkStruct.lamp, Lamp.withClock]
        · simp [setSlot, mp1Poke, hj]
      · rw [Option.map_some, Option.map_some]
        dsimp only
        rw [← h.page, ← hloc]
        rfl

theorem tasklet (hst : b.call .tasklet = some b') : Shows b' l x.tick := by
  obtain ⟨b₁, hb₁, hsame⟩ := taskletLoop_isList h.linked.isList h.linked.length_le
  obtain rfl : b₁ = b' := Option.some.inj (hb₁.symm.trans hst)
  obtain ⟨hlamps, hpage, -⟩ := taskletLoop_lamps h.linked.isList h.linked.isList.nodup hb₁
  refine ⟨h.linked.of_sameLinks hsame, ?_, ?_⟩
  · rw [hlamps, h.lamps]
    rfl
  · rw [hpage, h.lamps, h.page]
    rfl

/-- **One call** does on the list what it does on the board, and answers the same. -/
theorem call (hC : FreeBelowCorner b c) (hst : b.call c = some b') :
    b.answer c = x.answer c ∧ ∃ l', Shows b' l' (x.call c) := by
  cases c with
  | add user =>
    obtain rfl : (b.mp1IoctlAdd user).1 = b' := Option.some.inj hst
    exact h.add hC
  | remove arg =>
    obtain ⟨hans, hshows⟩ := h.remove arg
    exact ⟨hans, hshows b' hst⟩
  | find ax =>
    rw [Blink.call, Option.map_eq_some_iff] at hst
    obtain ⟨-, -, rfl⟩ := hst
    refine ⟨?_, l, h⟩
    rw [Blink.answer, Board.answer, mp1IoctlFind, h.linked.find, h.at?]
    cases l.find? fun i => b.location i = ax <;> rfl
  | sync arg =>
    obtain ⟨hans, hshows⟩ := h.sync arg
    exact ⟨hans, hshows b' hst⟩
  | tasklet => exact ⟨rfl, l, h.tasklet hst⟩

end Shows

/-- The memory `b` holds the board `x`. -/
def Holds (b : Blink) (x : Board) : Prop := ∃ l, Shows b l x

theorem refines_board :
    blinking.Refines boardMachine Blink.answer Board.answer FreeBelowCorner Holds where
  progress := by
    rintro b x c ⟨l, h⟩
    exact h.linked.call_isSome c
  step := by
    rintro b x c b' ⟨l, h⟩ hC hst
    obtain ⟨hans, hshows⟩ := h.call hC hst
    exact ⟨hans, x.call c, rfl, hshows⟩

theorem holds_start (vmem : ℕ → UInt8) : Holds (start vmem) ⟨[], vmem⟩ :=
  ⟨[], linked_start, rfl, rfl⟩

/-- A run that adds nothing in the upper left corner keeps the list in order. -/
theorem Linked.steps (h : Linked b l) (h0 : ∀ i ∈ l, b.location i ≠ 0) {calls : List Call}
    (hcalls : ∀ user, .add user ∈ calls → user.location ≠ 0) :
    blinking.Steps FreeBelowCorner b calls := by
  induction calls generalizing b l with
  | nil => trivial
  | cons c calls ih =>
    intro b' hst
    obtain ⟨hkeep, -⟩ := h.fresh_step_iff h0 hst
    have hno : NoCorner b c := by
      cases c with
      | add user => exact fun hloc => absurd hloc (hcalls user List.mem_cons_self)
      | _ => trivial
    obtain ⟨l', h', h0'⟩ := hkeep hno
    refine ⟨?_, ih h' h0' fun user hu => hcalls user (List.mem_cons_of_mem _ hu)⟩
    cases c with
    | add user => exact fun _ i hi hi0 => absurd hi0 (h0 i (h.listed_iff.1 hi))
    | _ => trivial

/-- **The blink list is a board of lamps.**  Every run that adds no struct while one with location 0
is listed below all free slots ends, in the memory, with the lamps and the page of the board, and
each of its calls has returned and copied what it does on the board. -/
theorem blinking_refines (vmem : ℕ → UInt8) (calls : List Call)
    (hC : blinking.Steps FreeBelowCorner (start vmem) calls) :
    ∃ b x, blinking.exec (start vmem) calls = some b ∧
      boardMachine.exec ⟨[], vmem⟩ calls = some x ∧ Holds b x ∧
      blinking.answers answer (start vmem) calls =
        boardMachine.answers Board.answer ⟨[], vmem⟩ calls :=
  refines_board.run (holds_start vmem) hC

/-- Two characters, the second of them taken away again. -/
theorem blinking_refines_two : ∃ b x,
    blinking.exec (start fun _ => 0) [.add (blinkAt 5), .tasklet, .add (blinkAt 6), .remove 5] =
      some b ∧
    boardMachine.exec ⟨[], fun _ => 0⟩
      [.add (blinkAt 5), .tasklet, .add (blinkAt 6), .remove 5] = some x ∧ Holds b x ∧
    blinking.answers answer (start fun _ => 0)
      [.add (blinkAt 5), .tasklet, .add (blinkAt 6), .remove 5] =
      boardMachine.answers Board.answer ⟨[], fun _ => 0⟩
        [.add (blinkAt 5), .tasklet, .add (blinkAt 6), .remove 5] := by
  refine blinking_refines _ _ (linked_start.steps nofun fun user hu => ?_)
  simp only [List.mem_cons, List.not_mem_nil, or_false, Call.add.injEq, reduceCtorEq,
    false_or] at hu
  obtain rfl | rfl := hu <;> decide

end Blink

end KTeamOS
