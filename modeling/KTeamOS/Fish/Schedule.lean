import Mathlib.Logic.Function.Iterate
import KTeamOS.Fish.Lamps

/-!
# When a character blinks

From the call that puts a lamp on the board until one that names its location again, the cell at the
location shows the on character for the ticks of its first length, then the off character for those
of the second one, and so on (`blink_schedule`).  Calls for other locations do not matter.
-/

namespace KTeamOS

namespace Lamp

variable {user : BlinkStruct} {x : Lamp} {k : ℕ} {page : ℕ → UInt8}

theorem ticks_pos (length : UInt16) : 0 < ticks length := by
  unfold ticks
  split_ifs with h
  · exact h.1
  · exact Nat.one_pos

@[simp] theorem tick_location : x.tick.location = x.location := by
  unfold tick
  split_ifs <;> rfl

/-- The lamp after `k` ticks. -/
abbrev after (user : BlinkStruct) (k : ℕ) : Lamp := tick^[k] (fresh user)

/-- The ticks after which a lamp starts again. -/
def period (user : BlinkStruct) : ℕ := ticks user.onLength + ticks user.offLength

/-- The lamp `r` ticks into its period. -/
def inPeriod (user : BlinkStruct) (r : ℕ) : Lamp :=
  if r < ticks user.onLength then { fresh user with lit := true, left := ticks user.onLength - r }
  else { fresh user with lit := false, left := period user - r }

theorem inPeriod_tick (hr : k < period user) :
    (inPeriod user k).tick = inPeriod user ((k + 1) % period user) := by
  have hon := ticks_pos user.onLength
  have hoff := ticks_pos user.offLength
  unfold period at hr ⊢
  by_cases hlit : k < ticks user.onLength
  · rw [inPeriod, if_pos hlit]
    by_cases hlast : k + 1 = ticks user.onLength
    · rw [Nat.mod_eq_of_lt (by omega), inPeriod, if_neg (by omega), tick,
        if_pos (by dsimp only; omega)]
      simp only [if_true, period, fresh, Lamp.mk.injEq, true_and]
      omega
    · rw [Nat.mod_eq_of_lt (by omega), inPeriod, if_pos (by omega), tick,
        if_neg (by dsimp only; omega)]
      simp only [fresh, Lamp.mk.injEq, true_and]
      omega
  · rw [inPeriod, if_neg hlit]
    by_cases hlast : k + 1 = ticks user.onLength + ticks user.offLength
    · rw [hlast, Nat.mod_self, inPeriod, if_pos hon, tick,
        if_pos (by dsimp only [period]; omega)]
      simp [fresh]
    · rw [Nat.mod_eq_of_lt (by omega), inPeriod, if_neg (by omega), tick,
        if_neg (by dsimp only [period]; omega)]
      simp only [period, fresh, Lamp.mk.injEq, true_and]
      omega

/-- **The clock of a lamp**: it goes through its period again and again. -/
theorem after_eq (user : BlinkStruct) (k : ℕ) : after user k = inPeriod user (k % period user) := by
  have hpos : 0 < period user := Nat.add_pos_left (ticks_pos _) _
  induction k with
  | zero =>
    rw [Nat.zero_mod, inPeriod, if_pos (ticks_pos _)]
    rfl
  | succ k ih =>
    rw [after] at ih ⊢
    rw [Function.iterate_succ_apply', ih, inPeriod_tick (Nat.mod_lt k hpos), Nat.mod_add_mod]

/-- What the lamp shows after `k` ticks. -/
theorem after_shown (user : BlinkStruct) (k : ℕ) : (after user k).shown =
    if k % period user < ticks user.onLength then user.onChar else user.offChar := by
  rw [after_eq, inPeriod]
  split_ifs <;> rfl

theorem after_location (user : BlinkStruct) (k : ℕ) : (after user k).location = user.location := by
  rw [after_eq, inPeriod]
  split_ifs <;> rfl

end Lamp

namespace Blink.Call

/-- The call names the location `a`, as the one that it changes. -/
def Touches (a : UInt16) : Blink.Call → Prop
  | .add user => user.location = a
  | .remove arg => arg.toUInt16 = a
  | .sync arg => (arg &&& 0xFFFF).toUInt16 = a
  | .find _ | .tasklet => False

/-- The call is a tick of the clock. -/
def isTick : Blink.Call → Bool
  | .tasklet => true
  | _ => false

end Blink.Call

namespace Board

variable {x : Board} {a : UInt16} {user : BlinkStruct} {y : Lamp} {c : Blink.Call} {k : ℕ}

/-- The lamps at the location `a`. -/
def lampsAt (x : Board) (a : UInt16) : List Lamp := x.lamps.filter fun y => y.location = a

theorem two_mul_ne {a b : UInt16} (h : a ≠ b) : 2 * a.toNat ≠ 2 * b.toNat := fun e =>
  h (UInt16.toNat_inj.1 (by omega))

/-- An element that fails a test may go. -/
theorem filter_eraseP {α : Type*} {l : List α} {P Q : α → Bool} (h : ∀ x, P x → ¬ Q x) :
    (l.eraseP P).filter Q = l.filter Q := by
  induction l with
  | nil => rfl
  | cons x l ih =>
    by_cases hP : P x
    · rw [List.eraseP_cons_of_pos hP, List.filter_cons_of_neg (h x hP)]
    · rw [List.eraseP_cons_of_neg hP, List.filter_cons, List.filter_cons, ih]

/-- An element that fails a test may become another one that fails it. -/
theorem filter_replaceF {α : Type*} {l : List α} {q : α → Option α} {Q : α → Bool}
    (h : ∀ x y, q x = some y → ¬ Q x ∧ ¬ Q y) : (l.replaceF q).filter Q = l.filter Q := by
  induction l with
  | nil => rfl
  | cons x l ih =>
    cases hq : q x with
    | none => rw [List.replaceF_cons_of_none q hq, List.filter_cons, List.filter_cons, ih]
    | some y =>
      obtain ⟨hx, hy⟩ := h x y hq
      rw [List.replaceF_cons_of_some q hq, List.filter_cons_of_neg hx, List.filter_cons_of_neg hy]

/-- An element of the list afterwards is one of before, or takes the place of one. -/
theorem mem_replaceF {α : Type*} {l : List α} {q : α → Option α} {x : α}
    (h : x ∈ l.replaceF q) : x ∈ l ∨ ∃ y ∈ l, q y = some x := by
  induction l with
  | nil => cases h
  | cons y l ih =>
    cases hq : q y with
    | none =>
      rw [List.replaceF_cons_of_none q hq] at h
      rcases List.mem_cons.1 h with rfl | h
      · exact .inl List.mem_cons_self
      · refine (ih h).imp (List.mem_cons_of_mem _) ?_
        exact fun ⟨z, hz, hqz⟩ => ⟨z, List.mem_cons_of_mem _ hz, hqz⟩
    | some z =>
      rw [List.replaceF_cons_of_some q hq] at h
      rcases List.mem_cons.1 h with rfl | h
      · exact .inr ⟨y, List.mem_cons_self, hq⟩
      · exact .inl (List.mem_cons_of_mem _ h)

/-- A call that does not name a location leaves the lamps there, but for their ticks, and, apart
from the tasklet, their cell. -/
theorem call_lampsAt (hc : ¬ c.Touches a) : (x.call c).lampsAt a =
    if c.isTick then (x.lampsAt a).map Lamp.tick else x.lampsAt a := by
  cases c with
  | add user =>
    change (if x.Accepts user then x.add user else x).lampsAt a = x.lampsAt a
    split_ifs
    · refine List.filter_cons_of_neg fun h => hc ?_
      exact of_decide_eq_true (p := user.location = a) h
    · rfl
  | remove arg =>
    refine filter_eraseP fun y hy => ?_
    rw [decide_eq_true_eq] at hy ⊢
    exact fun e => hc (hy.symm.trans e)
  | find _ => rfl
  | sync arg =>
    rw [call_sync]
    cases x.at? (arg >>> 16).toUInt16 with
    | none => rfl
    | some y =>
      rw [Option.elim_some, sync]
      cases x.at? (arg &&& 0xFFFF).toUInt16 with
      | none => rfl
      | some d =>
        refine filter_replaceF fun z z' hz => ?_
        split_ifs at hz with hloc
        cases hz
        have hne : z.location ≠ a := fun e => hc (hloc.symm.trans e)
        have hno : ¬ decide (z.location = a) = true := fun h => hne (of_decide_eq_true h)
        exact ⟨hno, hno⟩
  | tasklet =>
    change (x.lamps.map Lamp.tick).filter _ = _
    rw [List.filter_map]
    simp [lampsAt, Function.comp_def, Blink.Call.isTick]

theorem call_page (hc : ¬ c.Touches a) (ht : c.isTick = false) :
    (x.call c).page (2 * a.toNat) = x.page (2 * a.toNat) := by
  cases c with
  | add user =>
    change (if x.Accepts user then x.add user else x).page _ = _
    split_ifs
    · exact Function.update_of_ne (two_mul_ne (Ne.symm hc)) ..
    · rfl
  | remove _ => rfl
  | find _ => rfl
  | sync arg =>
    rw [call_sync]
    cases x.at? (arg >>> 16).toUInt16 with
    | none => rfl
    | some y =>
      rw [Option.elim_some, sync]
      cases x.at? (arg &&& 0xFFFF).toUInt16 with
      | none => rfl
      | some d => exact Function.update_of_ne (two_mul_ne (Ne.symm hc)) ..
  | tasklet => cases ht

theorem drawTick_apply {page : ℕ → UInt8} : y.drawTick page (2 * a.toNat) =
    if y.location = a ∧ y.left ≤ 1 then y.tick.shown else page (2 * a.toNat) := by
  unfold Lamp.drawTick
  by_cases hdue : y.left ≤ 1
  · rw [if_pos hdue]
    by_cases hloc : y.location = a
    · rw [if_pos ⟨hloc, hdue⟩, hloc, Function.update_self]
    · rw [if_neg fun h => hloc h.1, Function.update_of_ne (two_mul_ne (Ne.symm hloc))]
  · rw [if_neg hdue, if_neg fun h => hdue h.2]

/-- Only the lamps at a location draw its cell. -/
theorem foldl_drawTick {l : List Lamp} {page page' : ℕ → UInt8}
    (h : page (2 * a.toNat) = page' (2 * a.toNat)) :
    l.foldl (fun page y => y.drawTick page) page (2 * a.toNat) =
      (l.filter fun y => y.location = a).foldl (fun page y => y.drawTick page) page'
        (2 * a.toNat) := by
  induction l generalizing page page' with
  | nil => exact h
  | cons y l ih =>
    by_cases hloc : y.location = a
    · rw [List.filter_cons_of_pos (by simpa using hloc)]
      refine ih ?_
      dsimp only
      rw [drawTick_apply, drawTick_apply, h]
    · rw [List.filter_cons_of_neg (by simpa using hloc)]
      refine ih ?_
      dsimp only
      rw [drawTick_apply, if_neg fun hy => hloc hy.1, h]

/-- The only lamp at its location is the one of `user`, `k` ticks after it was added. -/
structure Watches (x : Board) (user : BlinkStruct) (k : ℕ) : Prop where
  lampsAt : x.lampsAt user.location = [Lamp.after user k]
  page : x.page (2 * user.location.toNat) = (Lamp.after user k).shown

theorem Watches.call (h : Watches x user k) (hc : ¬ c.Touches user.location) :
    Watches (x.call c) user (if c.isTick then k + 1 else k) := by
  cases ht : c.isTick with
  | false =>
    refine ⟨?_, ?_⟩
    · rw [call_lampsAt hc, ht]
      exact h.lampsAt
    · rw [call_page hc ht]
      exact h.page
  | true =>
    obtain rfl : c = .tasklet := by cases c <;> first | rfl | cases ht
    have hnext : Lamp.after user (k + 1) = (Lamp.after user k).tick := by
      rw [Lamp.after, Lamp.after, Function.iterate_succ_apply']
    rw [if_pos rfl]
    refine ⟨?_, ?_⟩
    · rw [call_lampsAt hc, if_pos ht, h.lampsAt, hnext]
      rfl
    · change x.lamps.foldl _ x.page _ = _
      rw [foldl_drawTick rfl]
      change (x.lampsAt user.location).foldl _ x.page _ = _
      rw [h.lampsAt, hnext]
      change (Lamp.after user k).drawTick x.page _ = _
      rw [Lamp.drawTick, Lamp.after_location]
      split_ifs with hdue
      · exact Function.update_self ..
      · rw [h.page, Lamp.tick, if_neg hdue]
        rfl

/-- The ticks among the calls. -/
def ticksIn (calls : List Blink.Call) : ℕ := calls.countP Blink.Call.isTick

theorem Watches.exec {calls : List Blink.Call} {x' : Board} (h : Watches x user k)
    (hcalls : ∀ c ∈ calls, ¬ c.Touches user.location)
    (hst : boardMachine.exec x calls = some x') : Watches x' user (k + ticksIn calls) := by
  induction calls generalizing x k with
  | nil =>
    cases hst
    exact h
  | cons c calls ih =>
    have hnext := h.call (hcalls c List.mem_cons_self)
    have hrest := ih hnext (fun c' hc' => hcalls c' (List.mem_cons_of_mem _ hc')) hst
    rw [ticksIn, List.countP_cons]
    cases hc : c.isTick with
    | false =>
      rw [hc] at hrest
      exact hrest
    | true =>
      rw [hc, if_pos rfl, Nat.add_assoc, Nat.add_comm 1] at hrest
      exact hrest

/-- No lamp draws the byte `a` of the page, which is `v`. -/
structure Rests (x : Board) (a : ℕ) (v : UInt8) : Prop where
  lamps : ∀ y ∈ x.lamps, 2 * y.location.toNat ≠ a
  page : x.page a = v

theorem Rests.call {n : ℕ} {v : UInt8} (h : Rests x n v)
    (hc : ∀ a, c.Touches a → 2 * a.toNat ≠ n) : Rests (x.call c) n v := by
  cases c with
  | add user =>
    change Rests (if x.Accepts user then x.add user else x) n v
    split_ifs
    · have hne : 2 * user.location.toNat ≠ n := hc _ rfl
      refine ⟨List.forall_mem_cons.2 ⟨hne, h.lamps⟩, ?_⟩
      exact (Function.update_of_ne (Ne.symm hne) ..).trans h.page
    · exact h
  | remove arg => exact ⟨fun y hy => h.lamps y (List.mem_of_mem_eraseP hy), h.page⟩
  | find _ => exact h
  | sync arg =>
    rw [call_sync]
    cases x.at? (arg >>> 16).toUInt16 with
    | none => exact h
    | some y =>
      rw [Option.elim_some, sync]
      cases x.at? (arg &&& 0xFFFF).toUInt16 with
      | none => exact h
      | some d =>
        refine ⟨fun z hz => ?_, ?_⟩
        · obtain hz | ⟨z', hz', hq⟩ := mem_replaceF hz
          · exact h.lamps z hz
          · split_ifs at hq
            cases hq
            exact h.lamps z' hz'
        · exact (Function.update_of_ne (Ne.symm (hc _ rfl)) ..).trans h.page
  | tasklet =>
    have hpage : ∀ (l : List Lamp) (page : ℕ → UInt8), (∀ y ∈ l, 2 * y.location.toNat ≠ n) →
        l.foldl (fun page y => y.drawTick page) page n = page n := by
      intro l
      induction l with
      | nil => exact fun _ _ => rfl
      | cons y l ih =>
        intro page hl
        obtain ⟨hy, hl⟩ := List.forall_mem_cons.1 hl
        refine (ih _ hl).trans ?_
        change y.drawTick page n = page n
        unfold Lamp.drawTick
        split_ifs
        · exact Function.update_of_ne (Ne.symm hy) ..
        · rfl
    refine ⟨fun y hy => ?_, (hpage _ _ h.lamps).trans h.page⟩
    obtain ⟨z, hz, rfl⟩ := List.mem_map.1 hy
    rw [Lamp.tick_location]
    exact h.lamps z hz

theorem Rests.exec {calls : List Blink.Call} {x' : Board} {n : ℕ} {v : UInt8} (h : Rests x n v)
    (hcalls : ∀ c ∈ calls, ∀ a, c.Touches a → 2 * a.toNat ≠ n)
    (hst : boardMachine.exec x calls = some x') : Rests x' n v := by
  induction calls generalizing x with
  | nil =>
    cases hst
    exact h
  | cons c calls ih =>
    exact ih (h.call (hcalls c List.mem_cons_self))
      (fun c' hc' => hcalls c' (List.mem_cons_of_mem _ hc')) hst

/-- A new lamp at a location without one. -/
theorem Watches.add (hacc : x.Accepts user) (hnew : ∀ y ∈ x.lamps, y.location ≠ user.location) :
    Watches (x.call (.add user)) user 0 := by
  have hcall : x.call (.add user) = x.add user := if_pos hacc
  rw [hcall]
  refine ⟨?_, Function.update_self ..⟩
  have hnone : x.lamps.filter (fun y => y.location = user.location) = [] := by
    rw [List.filter_eq_nil_iff]
    exact fun y hy h => hnew y hy (of_decide_eq_true h)
  change (Lamp.fresh user :: x.lamps).filter _ = _
  rw [List.filter_cons_of_pos (by exact decide_eq_true rfl), hnone]
  rfl

end Board

namespace Blink

/-- **When a character blinks.**  The cell of a struct that is added where no other one is shows
its on character for the ticks of its first length, then its off character for those of the second
one, and so on, until a call names its location again. -/
theorem blink_schedule (vmem : ℕ → UInt8) (before after : List Call) (user : BlinkStruct)
    (hC : blinking.Steps FreeBelowCorner (start vmem) (before ++ .add user :: after)) {b₀ : Blink}
    (hb₀ : blinking.exec (start vmem) before = some b₀) (hacc : (b₀.mp1IoctlAdd user).2 = 0)
    (hnew : ∀ i, b₀.Listed i → b₀.location i ≠ user.location)
    (hafter : ∀ c ∈ after, ¬ c.Touches user.location) :
    ∃ b, blinking.exec (start vmem) (before ++ .add user :: after) = some b ∧
      b.vmem (2 * user.location.toNat) =
        if Board.ticksIn after % (ticks user.onLength + ticks user.offLength) < ticks user.onLength
        then user.onChar else user.offChar := by
  obtain ⟨hfirst, hsecond⟩ := hC.append hb₀
  obtain ⟨b₁, x₀, hb₁, -, ⟨l, h₀⟩, -⟩ := refines_board.run (holds_start vmem) hfirst
  obtain rfl : b₁ = b₀ := Option.some.inj (hb₁.symm.trans hb₀)
  obtain ⟨b, x, hb, hx, ⟨l', h⟩, -⟩ := refines_board.run ⟨l, h₀⟩ hsecond
  refine ⟨b, Machine.exec_append hb₀ hb, ?_⟩
  have haccepts : x₀.Accepts user := by
    have hans := (h₀.call (hsecond _ rfl).1 rfl).1
    by_contra hno
    simp [answer, Board.answer, hno, hacc] at hans
  have hlamps : ∀ y ∈ x₀.lamps, y.location ≠ user.location := by
    rw [← h₀.lamps]
    rintro y hy
    obtain ⟨i, hi, rfl⟩ := List.mem_map.1 hy
    exact hnew i (h₀.linked.listed_iff.2 hi)
  have hwatch := (Board.Watches.add haccepts hlamps).exec hafter hx
  rw [h.page, hwatch.page, Lamp.after_shown, Nat.zero_add]
  rfl

/-- The first character of two, after two ticks. -/
theorem blink_schedule_two : ∃ b,
    blinking.exec (start fun _ => 0)
      ([] ++ .add (blinkAt 5) :: [.tasklet, .add (blinkAt 6), .tasklet]) = some b ∧
    b.vmem (2 * (blinkAt 5).location.toNat) =
      if Board.ticksIn [.tasklet, .add (blinkAt 6), .tasklet] %
        (ticks (blinkAt 5).onLength + ticks (blinkAt 5).offLength) < ticks (blinkAt 5).onLength
      then (blinkAt 5).onChar else (blinkAt 5).offChar := by
  refine blink_schedule _ [] _ _ (linked_start.steps nofun fun user hu => ?_) rfl ?_
    (fun i hi => absurd (linked_start.listed_iff.1 hi) nofun) fun c hc => ?_
  · simp only [List.nil_append, List.mem_cons, List.not_mem_nil, or_false, Call.add.injEq,
      reduceCtorEq, false_or] at hu
    obtain rfl | rfl := hu <;> decide
  · have hm : (start fun _ => 0).mp1Malloc = some 0 :=
      mp1Malloc_eq_some.2 ⟨by decide, rfl, fun j hj => absurd hj (Nat.not_lt_zero j)⟩
    rw [mp1IoctlAdd, if_neg (by decide), hm]
  · simp only [List.mem_cons, List.not_mem_nil, or_false] at hc
    obtain rfl | rfl | rfl := hc <;> simp [Call.Touches, blinkAt]

end Blink

end KTeamOS
