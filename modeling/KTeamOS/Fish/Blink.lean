import Mathlib.Algebra.Group.Int.Defs
import Mathlib.Algebra.Group.Nat.Defs
import Mathlib.Data.List.Perm.Subperm
import KTeamOS.LTS.Basic
import KTeamOS.Links.Basic

/-!
# The blink list of the fish program

`fish.c` and `blink.S` keep the blinking characters of the screen in the slots of `blink_array`,
on a list headed by `mp1_list_head`.  The list is spliced through the field `next` of a slot,
while `mp1_malloc` takes the first slot whose `location` is 0: location 0 is a legal one, so a
struct for the upper left corner looks free while it is on the list.

## Main results

* `blinking_sound_iff` : in a run of calls the list stays finite, `mp1_malloc` returns no listed
  slot and all loops end, exactly if no struct is added while one with location 0 is listed below
  every free slot.
* `blinking_fresh_iff` : in all states of a run `mp1_malloc` would return no listed slot exactly
  if every struct for location 0 is refused.
-/

namespace KTeamOS

/-- `struct mp1_blink_struct`.  A pointer is the index of a slot, `none` is NULL. -/
structure BlinkStruct where
  location : UInt16
  onChar : UInt8
  offChar : UInt8
  onLength : UInt16
  offLength : UInt16
  countdown : UInt16
  status : UInt16
  next : Option ℕ
  deriving DecidableEq

/-- The length of `blink_array`. -/
abbrev blinkSlots : ℕ := 80 * 25

/-- The data of the program. -/
structure Blink where
  /-- The slots from `blinkSlots` on do not exist. -/
  blinkArray : ℕ → BlinkStruct
  mp1ListHead : Option ℕ
  /-- The bytes from `vmem_base_addr` on. -/
  vmem : ℕ → UInt8

namespace Blink

variable (b : Blink)

/-- The location of a slot; 0 stands for a free one. -/
def location (i : ℕ) : UInt16 := (b.blinkArray i).location

/-- The slot behind another one on the list. -/
def next (i : ℕ) : Option ℕ := (b.blinkArray i).next

/-- `blink_array[i] = s` -/
def setSlot (i : ℕ) (s : BlinkStruct) : Blink :=
  { b with blinkArray := Function.update b.blinkArray i s }

/-- `mp1_poke` -/
def mp1Poke (eax : ℕ) (cl : UInt8) : Blink :=
  { b with vmem := Function.update b.vmem eax cl }

/-- A slot behind `ece391_memset`. -/
def memsetZero : BlinkStruct where
  location := 0
  onChar := 0
  offChar := 0
  onLength := 0
  offLength := 0
  countdown := 0
  status := 0
  next := none

/-- The program before its first call. -/
def start (vmem : ℕ → UInt8) : Blink where
  blinkArray _ := memsetZero
  mp1ListHead := none
  vmem := vmem

/-- `mp1_malloc` : the first slot with location 0. -/
def mp1Malloc : Option ℕ := (List.range blinkSlots).find? fun i => b.location i = 0

/-- `mp1_free` : the slot is cleared. -/
def mp1Free (memory : ℕ) : Blink := b.setSlot memory memsetZero

/-- `mp1_find_helper`, if its loop ends within `n` turns. -/
def mp1FindHelper (n : ℕ) (ax : UInt16) : Option (Option ℕ) :=
  Links.walk b.next (fun ebx => b.location ebx = ax) n b.mp1ListHead

/-- The body of `tasklet_loop`. -/
def taskletBody (ebx : ℕ) : Blink :=
  let s := b.blinkArray ebx
  let s := { s with countdown := s.countdown - 1 }
  -- `jg` compares signed words
  if 0 < s.countdown.toNat ∧ s.countdown.toNat < 2 ^ 15 then b.setSlot ebx s
  else
    let eax := 2 * s.location.toNat
    if s.status &&& 1 = 0 then
      (b.mp1Poke eax s.onChar).setSlot ebx
        { s with countdown := s.onLength, status := s.status ^^^ 1 }
    else
      (b.mp1Poke eax s.offChar).setSlot ebx
        { s with countdown := s.offLength, status := s.status ^^^ 1 }

/-- `tasklet_loop`, if it ends within `n` turns. -/
def taskletLoop : ℕ → Blink → Option ℕ → Option Blink
  | _, b, none => some b
  | 0, _, some _ => none
  | n + 1, b, some ebx => taskletLoop n (b.taskletBody ebx) ((b.taskletBody ebx).next ebx)

/-- `mp1_rtc_tasklet`, over at most `n` structs of the list. -/
def mp1RtcTasklet (n : ℕ) : Option Blink := taskletLoop n b b.mp1ListHead

/-- `mp1_ioctl_add`, `user` being the struct at its argument. -/
def mp1IoctlAdd (user : BlinkStruct) : Blink × ℤ :=
  if blinkSlots ≤ user.location.toNat then (b, -1)
  else
    let temp := { user with status := 1, countdown := user.onLength }
    match b.mp1Malloc with
    | none => (b, -1)
    | some edx =>
      let b := b.setSlot edx temp
      let b := b.setSlot edx { b.blinkArray edx with next := b.mp1ListHead }
      let b := { b with mp1ListHead := some edx }
      (b.mp1Poke (2 * (b.location edx).toNat) (b.blinkArray edx).onChar, 0)

/-- The pointer at the address `edx`, which is `&mp1_list_head` (`none`) or that of a `next`. -/
abbrev pointer : Option ℕ → Option ℕ := Links.cell b.next b.mp1ListHead

/-- `movl %ecx, (%edx)` -/
def setPointer : Option ℕ → Option ℕ → Blink
  | none, ecx => { b with mp1ListHead := ecx }
  | some i, ecx => b.setSlot i { b.blinkArray i with next := ecx }

/-- `remove_find_prev`, if it ends within `n` turns; it faults behind the end of the list. -/
def removeFindPrev (eax : ℕ) : ℕ → Option ℕ → Option (Option ℕ)
  | 0, _ => none
  | n + 1, edx =>
    if b.pointer edx = some eax then some edx
    else (b.pointer edx).bind fun i => removeFindPrev eax n (some i)

/-- `mp1_ioctl_remove` -/
def mp1IoctlRemove (n : ℕ) (arg : UInt32) : Option (Blink × ℤ) := do
  match ← b.mp1FindHelper n arg.toUInt16 with
  | none => some (b, -1)
  | some eax =>
    let edx ← b.removeFindPrev eax n none
    some ((b.setPointer edx (b.next eax)).mp1Free eax, 0)

/-- `mp1_ioctl_find`: the struct that it copies to its argument, and the result. -/
def mp1IoctlFind (n : ℕ) (location : UInt16) : Option (Option BlinkStruct × ℤ) := do
  match ← b.mp1FindHelper n location with
  | none => some (none, -1)
  | some eax => some (some (b.blinkArray eax), 0)

/-- `mp1_ioctl_sync` : the location to copy from is in the upper half of the argument. -/
def mp1IoctlSync (n : ℕ) (arg : UInt32) : Option (Blink × ℤ) := do
  match ← b.mp1FindHelper n (arg >>> 16).toUInt16 with
  | none => some (b, -1)
  | some esi =>
    match ← b.mp1FindHelper n (arg &&& 0xFFFF).toUInt16 with
    | none => some (b, -1)
    | some edi =>
      let s := b.blinkArray esi
      let d := { b.blinkArray edi with
        onLength := s.onLength, offLength := s.offLength, countdown := s.countdown,
        status := s.status }
      -- behind a `testb` with 1 the condition of `cmovl` never holds
      some ((b.setSlot edi d).mp1Poke (2 * d.location.toNat) d.offChar, 0)

/-- The calls of the program, with what they read. -/
inductive Call
  | add (user : BlinkStruct)
  | remove (arg : UInt32)
  | find (location : UInt16)
  | sync (arg : UInt32)
  | tasklet

/-- A loop on a list without a circle ends within `blinkSlots` turns. -/
def call : Call → Option Blink
  | .add user => some (b.mp1IoctlAdd user).1
  | .remove arg => (b.mp1IoctlRemove blinkSlots arg).map Prod.fst
  | .find location => (b.mp1IoctlFind blinkSlots location).map fun _ => b
  | .sync arg => (b.mp1IoctlSync blinkSlots arg).map Prod.fst
  | .tasklet => b.mp1RtcTasklet blinkSlots

end Blink

/-- The calls of the module as steps. -/
def blinking : Machine Blink Blink.Call := ⟨Blink.call⟩

namespace Blink

/-! ### The effect of the calls on the list -/

section

variable {b b' : Blink} {s user : BlinkStruct} {i j m n : ℕ} {p : Option ℕ} {l l₁ l₂ : List ℕ}
  {vmem : ℕ → UInt8}

@[simp] theorem setSlot_next : (b.setSlot i s).next = Function.update b.next i s.next :=
  Function.comp_update BlinkStruct.next b.blinkArray i s

@[simp] theorem setSlot_location :
    (b.setSlot i s).location = Function.update b.location i s.location :=
  Function.comp_update BlinkStruct.location b.blinkArray i s

theorem mp1Malloc_eq_some :
    b.mp1Malloc = some m ↔ m < blinkSlots ∧ b.location m = 0 ∧ ∀ j < m, b.location j ≠ 0 := by
  rw [mp1Malloc, List.find?_range_eq_some, decide_eq_true_eq, List.mem_range]
  simp only [Bool.not_eq_true', decide_eq_false_iff_not]
  exact and_left_comm

theorem mp1Malloc_eq_none : b.mp1Malloc = none ↔ ∀ i < blinkSlots, b.location i ≠ 0 := by
  rw [mp1Malloc, List.find?_range_eq_none]
  simp only [Bool.not_eq_true', decide_eq_false_iff_not]

theorem mp1Malloc_congr (h : b'.location = b.location) : b'.mp1Malloc = b.mp1Malloc := by
  rw [mp1Malloc, mp1Malloc, h]

/-- The links and the locations of two states are the same. -/
structure SameLinks (b b' : Blink) : Prop where
  head : b'.mp1ListHead = b.mp1ListHead
  next : b'.next = b.next
  location : b'.location = b.location

theorem SameLinks.trans {b'' : Blink} (h : SameLinks b b') (h' : SameLinks b' b'') :
    SameLinks b b'' :=
  ⟨h'.head.trans h.head, h'.next.trans h.next, h'.location.trans h.location⟩

/-- A slot may get other data, as long as its location and link stay. -/
theorem sameLinks_setSlot (hn : s.next = b.next i) (hl : s.location = b.location i) :
    SameLinks b (b.setSlot i s) where
  head := rfl
  next := by rw [setSlot_next, hn, Function.update_eq_self]
  location := by rw [setSlot_location, hl, Function.update_eq_self]

theorem sameLinks_poke {eax : ℕ} {cl : UInt8} : SameLinks b (b.mp1Poke eax cl) := ⟨rfl, rfl, rfl⟩

theorem sameLinks_taskletBody : SameLinks b (b.taskletBody i) := by
  unfold taskletBody
  dsimp only
  split_ifs
  · exact sameLinks_setSlot rfl rfl
  · exact sameLinks_poke.trans (sameLinks_setSlot rfl rfl)
  · exact sameLinks_poke.trans (sameLinks_setSlot rfl rfl)

/-- The tasklet passes over the list once, and leaves it as it is. -/
theorem taskletLoop_isList (h : Links.IsList b.next p l) (hn : l.length ≤ n) :
    ∃ b', taskletLoop n b p = some b' ∧ SameLinks b b' := by
  induction l generalizing n b p with
  | nil =>
    obtain rfl : p = none := h
    cases n <;> exact ⟨b, rfl, rfl, rfl, rfl⟩
  | cons i l ih =>
    obtain ⟨rfl, h⟩ := h
    cases n with
    | zero => cases hn
    | succ n =>
      have hsame : SameLinks b (b.taskletBody i) := sameLinks_taskletBody
      rw [← hsame.next] at h
      obtain ⟨b', hloop, hsame'⟩ := ih h (Nat.le_of_succ_le_succ hn)
      exact ⟨b', hloop, hsame.trans hsame'⟩

/-- Only a list that reaches NULL lets the tasklet end. -/
theorem isList_of_taskletLoop (h : (taskletLoop n b p).isSome) :
    ∃ l, Links.IsList b.next p l := by
  induction n generalizing b p with
  | zero =>
    cases p with
    | none => exact ⟨[], rfl⟩
    | some i => cases h
  | succ n ih =>
    cases p with
    | none => exact ⟨[], rfl⟩
    | some i =>
      obtain ⟨l, hl⟩ := ih h
      rw [sameLinks_taskletBody.next] at hl
      exact ⟨i :: l, rfl, hl⟩

/-- The loop of `mp1_ioctl_remove` finds the pointer to the node, which is on the list. -/
theorem removeFindPrev_isList {edx : Option ℕ}
    (h : Links.IsList b.next (b.pointer edx) (l₁ ++ i :: l₂)) (hi : i ∉ l₁) (hn : l₁.length < n) :
    b.removeFindPrev i n edx = some (l₁.getLast?.or edx) := by
  induction l₁ generalizing n edx with
  | nil =>
    obtain ⟨n, rfl⟩ := Nat.exists_eq_succ_of_ne_zero (Nat.ne_of_gt hn)
    rw [removeFindPrev, if_pos h.1]
    rfl
  | cons j l₁ ih =>
    obtain ⟨n, rfl⟩ := Nat.exists_eq_succ_of_ne_zero (Nat.ne_of_gt (Nat.zero_lt_of_lt hn))
    rw [List.mem_cons, not_or] at hi
    obtain ⟨hj, h⟩ := h
    change Links.IsList b.next (b.pointer (some j)) (l₁ ++ i :: l₂) at h
    have hne : ¬ some j = some i := fun e => hi.1 (Option.some.inj e).symm
    rw [removeFindPrev, hj, if_neg hne, Option.bind_some,
      ih h hi.2 (Nat.lt_of_succ_lt_succ hn), List.getLast?_cons]
    cases l₁.getLast? <;> rfl

/-- The list is `l`, and every other slot is free. -/
structure Linked (b : Blink) (l : List ℕ) : Prop where
  isList : Links.IsList b.next b.mp1ListHead l
  lt : ∀ i ∈ l, i < blinkSlots
  free : ∀ i < blinkSlots, i ∉ l → b.location i = 0

theorem linked_start : Linked (start vmem) [] := ⟨rfl, nofun, fun _ _ _ => rfl⟩

theorem Linked.length_le (h : Linked b l) : l.length ≤ blinkSlots := by
  have hsub : l ⊆ List.range blinkSlots := fun i hi => List.mem_range.2 (h.lt i hi)
  have hlen := (List.Nodup.subperm h.isList.nodup hsub).length_le
  rwa [List.length_range] at hlen

theorem Linked.find (h : Linked b l) (ax : UInt16) :
    b.mp1FindHelper blinkSlots ax = some (l.find? fun i => b.location i = ax) :=
  h.isList.walk h.length_le

theorem Linked.of_sameLinks (h : Linked b l) (hb : SameLinks b b') : Linked b' l where
  isList := by
    rw [hb.next, hb.head]
    exact h.isList
  lt := h.lt
  free := by
    rw [hb.location]
    exact h.free

@[simp] theorem setSlot_pointer :
    (b.setSlot i s).pointer = Function.update b.pointer (some i) s.next := by
  funext c
  cases c with
  | none =>
    rw [Function.update_of_ne (Option.some_ne_none i).symm]
    rfl
  | some j =>
    change (b.setSlot i s).next j = _
    rw [setSlot_next]
    by_cases h : j = i
    · rw [h, Function.update_self, Function.update_self]
    · rw [Function.update_of_ne h, Function.update_of_ne fun e => h (Option.some.inj e)]
      rfl

@[simp] theorem setPointer_pointer {c : Option ℕ} :
    (b.setPointer c p).pointer = Function.update b.pointer c p := by
  cases c with
  | none =>
    funext c
    cases c with
    | none =>
      rw [Function.update_self]
      rfl
    | some j =>
      rw [Function.update_of_ne (Option.some_ne_none j)]
      rfl
  | some i => exact setSlot_pointer

theorem setPointer_location {c : Option ℕ} : (b.setPointer c p).location = b.location := by
  cases c with
  | none => rfl
  | some i =>
    change (b.setSlot i _).location = _
    rw [setSlot_location]
    exact Function.update_eq_self ..

/-- What a successful `mp1_ioctl_add` does to links and locations. -/
theorem mp1IoctlAdd_fst (hloc : user.location.toNat < blinkSlots) (hm : b.mp1Malloc = some m) :
    (b.mp1IoctlAdd user).1.mp1ListHead = some m ∧
      (b.mp1IoctlAdd user).1.next = Function.update b.next m b.mp1ListHead ∧
      (b.mp1IoctlAdd user).1.location = Function.update b.location m user.location := by
  rw [mp1IoctlAdd, if_neg (Nat.not_le_of_lt hloc), hm]
  refine ⟨rfl, ?_, ?_⟩
  · change ((b.setSlot m _).setSlot m _).next = _
    rw [setSlot_next, setSlot_next, Function.update_idem]
    rfl
  · change ((b.setSlot m _).setSlot m _).location = _
    rw [setSlot_location, setSlot_location, Function.update_idem]
    simp [setSlot]

theorem mp1IoctlAdd_refused (h : user.location.toNat < blinkSlots → b.mp1Malloc = none) :
    b.mp1IoctlAdd user = (b, -1) := by
  unfold mp1IoctlAdd
  split_ifs with hloc
  · rfl
  · rw [h (Nat.lt_of_not_le hloc)]

/-- A struct in a slot that is not on the list becomes its first node. -/
theorem Linked.add (h : Linked b l) (hloc : user.location.toNat < blinkSlots)
    (hm : b.mp1Malloc = some m) (hml : m ∉ l) : Linked (b.mp1IoctlAdd user).1 (m :: l) := by
  obtain ⟨hhead, hnext, hlocation⟩ := mp1IoctlAdd_fst hloc hm
  refine ⟨?_, ?_, fun i hi hil => ?_⟩
  · rw [hhead]
    refine h.isList.push hml ?_ fun i hi => ?_
    · rw [hnext, Function.update_self]
    · rw [hnext, Function.update_of_ne hi]
  · exact List.forall_mem_cons.2 ⟨(mp1Malloc_eq_some.1 hm).1, h.lt⟩
  · rw [List.mem_cons, not_or] at hil
    rw [hlocation, Function.update_of_ne hil.1]
    exact h.free i hi hil.2

/-- A struct in a slot that is on the list makes it a circle. -/
theorem Linked.add_mem (h : Linked b l) (hloc : user.location.toNat < blinkSlots)
    (hm : b.mp1Malloc = some m) (hml : m ∈ l) :
    ¬ Links.IsList (b.mp1IoctlAdd user).1.next (b.mp1IoctlAdd user).1.mp1ListHead l₁ := by
  obtain ⟨hhead, hnext, -⟩ := mp1IoctlAdd_fst hloc hm
  rw [hhead]
  have hself : (b.mp1IoctlAdd user).1.next m = b.mp1ListHead := by rw [hnext, Function.update_self]
  have hother : ∀ i, i ≠ m → (b.mp1IoctlAdd user).1.next i = b.next i := fun i hi => by
    rw [hnext, Function.update_of_ne hi]
  obtain ⟨s, hs⟩ := h.isList.push_mem hml hself hother
  exact hs.not_isList

/-- `mp1_ioctl_remove` takes the first node with the location out of the list. -/
theorem Linked.remove (h : Linked b l) (arg : UInt32) :
    ∃ b' r, b.mp1IoctlRemove blinkSlots arg = some (b', r) ∧
      Linked b' (l.eraseP fun i => b.location i = arg.toUInt16) ∧
      ∀ i ∈ l.eraseP fun i => b.location i = arg.toUInt16, b'.location i = b.location i := by
  rw [mp1IoctlRemove, h.find]
  cases hfind : l.find? fun i => b.location i = arg.toUInt16 with
  | none =>
    refine ⟨b, -1, rfl, ?_, fun _ _ => rfl⟩
    rwa [List.eraseP_of_forall_not (by simpa using hfind)]
  | some i =>
    obtain ⟨hi, l₁, l₂, rfl, hl₁⟩ := List.find?_eq_some_iff_append.1 hfind
    have hnd := h.isList.nodup
    have hil₁ : i ∉ l₁ := fun hmem => (List.nodup_append.1 hnd).2.2 i hmem i List.mem_cons_self rfl
    have hlen : l₁.length < blinkSlots := by
      have hle := h.length_le
      rw [List.length_append, List.length_cons] at hle
      omega
    have hprev : b.removeFindPrev i blinkSlots none = some l₁.getLast? := by
      rw [removeFindPrev_isList h.isList hil₁ hlen, Option.or_none]
    refine ⟨_, 0, by simp [hprev]; rfl, ?_⟩
    rw [List.eraseP_append_right _ (by simpa using hl₁),
      List.eraseP_cons_of_pos (p := fun i => decide (b.location i = arg.toUInt16)) hi]
    have hptr : ((b.setPointer l₁.getLast? (b.next i)).mp1Free i).pointer =
        Function.update (Function.update b.pointer l₁.getLast? (b.next i)) (some i) none := by
      rw [mp1Free, setSlot_pointer, setPointer_pointer]
      rfl
    have hlast : l₁.getLast? ≠ some i := fun e => hil₁ (List.mem_of_getLast? e)
    have hil₂ : i ∉ l₂ := (List.nodup_cons.1 (List.nodup_append.1 hnd).2.1).1
    have hloc : ∀ j, j ≠ i →
        ((b.setPointer l₁.getLast? (b.next i)).mp1Free i).location j = b.location j := by
      intro j hj
      rw [mp1Free, setSlot_location, setPointer_location, Function.update_of_ne hj]
    refine ⟨⟨h.isList.erase ?_ fun c hc hci => ?_, fun j hj => ?_, fun j hj hjl => ?_⟩,
      fun j hj => hloc j ?_⟩
    · change ((b.setPointer l₁.getLast? (b.next i)).mp1Free i).pointer _ = _
      rw [hptr, Function.update_of_ne hlast, Function.update_self]
    · change ((b.setPointer l₁.getLast? (b.next i)).mp1Free i).pointer _ = _
      rw [hptr, Function.update_of_ne hci, Function.update_of_ne hc]
    · refine h.lt j ?_
      rw [List.mem_append] at hj ⊢
      exact hj.imp_right (List.mem_cons_of_mem i)
    · by_cases hji : j = i
      · rw [hji, mp1Free, setSlot_location, Function.update_self]
        rfl
      · rw [hloc j hji]
        refine h.free j hj ?_
        rw [List.mem_append] at hjl
        rw [List.mem_append, List.mem_cons]
        tauto
    · rintro rfl
      exact (List.mem_append.1 hj).elim hil₁ hil₂

theorem Linked.sync (h : Linked b l) (arg : UInt32) :
    ∃ b' r, b.mp1IoctlSync blinkSlots arg = some (b', r) ∧ SameLinks b b' := by
  simp only [mp1IoctlSync, h.find, Option.bind_eq_bind, Option.bind_some]
  cases l.find? fun i => b.location i = (arg >>> 16).toUInt16 with
  | none => exact ⟨b, -1, rfl, rfl, rfl, rfl⟩
  | some esi =>
    cases l.find? fun i => b.location i = (arg &&& 0xFFFF).toUInt16 with
    | none => exact ⟨b, -1, rfl, rfl, rfl, rfl⟩
    | some edi =>
      refine ⟨_, 0, rfl, SameLinks.trans ?_ sameLinks_poke⟩
      exact sameLinks_setSlot rfl rfl

/-- No call hangs on such a list. -/
theorem Linked.call_isSome (h : Linked b l) (c : Call) : (b.call c).isSome := by
  cases c with
  | add user => rfl
  | remove arg =>
    obtain ⟨b', r, hr, -⟩ := h.remove arg
    rw [call, hr]
    rfl
  | find ax =>
    rw [call, mp1IoctlFind, h.find]
    cases l.find? fun i => b.location i = ax <;> rfl
  | sync arg =>
    obtain ⟨b', r, hr, -⟩ := h.sync arg
    rw [call, hr]
    rfl
  | tasklet =>
    obtain ⟨b', hb', -⟩ := taskletLoop_isList h.isList h.length_le
    rw [call, mp1RtcTasklet, hb']
    rfl

end

/-! ### Runs -/

/-- Slot `i` is on the list. -/
def Listed (b : Blink) (i : ℕ) : Prop := ∃ l, Links.Path b.next b.mp1ListHead l (some i)

/-- The list is finite and without a circle, has every slot at most once, and no loop on it runs
forever. -/
structure Sound (b : Blink) : Prop where
  acyclic : ∃ l, Links.IsList b.next b.mp1ListHead l ∧ l.Nodup ∧ ∀ i ∈ l, i < blinkSlots
  tasklet_ends : ∃ n, (b.mp1RtcTasklet n).isSome
  find_ends : ∀ ax, ∃ n, (b.mp1FindHelper n ax).isSome
  call_ends : ∀ c, (b.call c).isSome

/-- In the call, `mp1_malloc` returns no slot that is on the list. -/
def MallocFresh (b : Blink) : Call → Prop
  | .add user => user.location.toNat < blinkSlots → ∀ m, b.mp1Malloc = some m → ¬ b.Listed m
  | _ => True

/-- If the call adds a struct, then below every listed slot with location 0 there is one that is not
on the list. -/
def FreeBelowCorner (b : Blink) : Call → Prop
  | .add user => user.location.toNat < blinkSlots →
      ∀ i, b.Listed i → b.location i = 0 → ∃ j < i, ¬ b.Listed j
  | _ => True

/-- In the next call, `mp1_malloc` would return no slot that is on the list. -/
def NextFresh (b : Blink) : Prop := ∀ m, b.mp1Malloc = some m → ¬ b.Listed m

/-- A struct for location 0 finds no free slot. -/
def NoCorner (b : Blink) : Call → Prop
  | .add user => user.location = 0 → ∀ i < blinkSlots, b.location i ≠ 0
  | _ => True

section

variable {b b' : Blink} {c : Call} {user : BlinkStruct} {i m : ℕ} {l : List ℕ} {vmem : ℕ → UInt8}

theorem Linked.listed_iff (h : Linked b l) : b.Listed i ↔ i ∈ l := h.isList.mem_iff.symm

theorem Linked.sound (h : Linked b l) : Sound b where
  acyclic := ⟨l, h.isList, h.isList.nodup, h.lt⟩
  tasklet_ends := by
    obtain ⟨b', hb', -⟩ := taskletLoop_isList h.isList h.length_le
    exact ⟨blinkSlots, by rw [mp1RtcTasklet, hb']; rfl⟩
  find_ends ax := ⟨blinkSlots, by rw [h.find]; rfl⟩
  call_ends := h.call_isSome

/-- All slots that are not on the list have location 0, so `mp1_malloc` takes the first of them
unless it meets a listed slot with location 0 before. -/
theorem Linked.mallocFresh_iff (h : Linked b l) : MallocFresh b c ↔ FreeBelowCorner b c := by
  cases c with
  | add user =>
    refine forall_congr' fun _ => ?_
    simp only [h.listed_iff]
    constructor
    · intro hfresh i hi hi0
      cases hm : b.mp1Malloc with
      | none => exact absurd hi0 (mp1Malloc_eq_none.1 hm i (h.lt i hi))
      | some m =>
        obtain ⟨-, -, hfirst⟩ := mp1Malloc_eq_some.1 hm
        have hml : m ∉ l := hfresh m hm
        have hne : m ≠ i := fun e => hml (e ▸ hi)
        have hle : ¬ i < m := fun hlt => hfirst i hlt hi0
        exact ⟨m, by omega, hml⟩
    · intro hcorner m hm hml
      obtain ⟨hlt, h0, hfirst⟩ := mp1Malloc_eq_some.1 hm
      obtain ⟨j, hj, hjl⟩ := hcorner m hml h0
      exact hfirst j hj (h.free j (Nat.lt_trans hj hlt) hjl)
  | _ => exact Iff.rfl

/-- What an add does to the list, if `mp1_malloc` returns no slot of it. -/
theorem Linked.add_cases (h : Linked b l) (hC : FreeBelowCorner b (.add user)) :
    ((user.location.toNat < blinkSlots → b.mp1Malloc = none) ∧ (b.mp1IoctlAdd user).1 = b) ∨
      ∃ m, b.mp1Malloc = some m ∧
        (b.mp1IoctlAdd user).1.location = Function.update b.location m user.location ∧
        m ∉ l ∧ Linked (b.mp1IoctlAdd user).1 (m :: l) := by
  by_cases hloc : user.location.toNat < blinkSlots
  · cases hm : b.mp1Malloc with
    | none => exact .inl ⟨fun _ => rfl, by rw [mp1IoctlAdd_refused fun _ => hm]⟩
    | some m =>
      have hml : m ∉ l := fun hl => h.mallocFresh_iff.2 hC hloc m hm (h.listed_iff.2 hl)
      exact .inr ⟨m, rfl, (mp1IoctlAdd_fst hloc hm).2.2, hml, h.add hloc hm hml⟩
  · exact .inl ⟨fun hlt => absurd hlt hloc, by rw [mp1IoctlAdd_refused fun hlt => absurd hlt hloc]⟩

/-- The calls other than add leave a part of the list, and the locations in it. -/
theorem Linked.call_sublist (h : Linked b l) (hc : ∀ user, c ≠ .add user)
    (hst : b.call c = some b') :
    ∃ l', l'.Sublist l ∧ Linked b' l' ∧ ∀ i ∈ l', b'.location i = b.location i := by
  cases c with
  | add user => exact absurd rfl (hc user)
  | remove arg =>
    obtain ⟨b₁, r, hr, h', hloc⟩ := h.remove arg
    rw [call, hr] at hst
    obtain rfl : b₁ = b' := Option.some.inj hst
    exact ⟨_, List.eraseP_sublist, h', hloc⟩
  | find ax =>
    rw [call, Option.map_eq_some_iff] at hst
    obtain ⟨_, -, rfl⟩ := hst
    exact ⟨l, .refl l, h, fun _ _ => rfl⟩
  | sync arg =>
    obtain ⟨b₁, r, hr, hsame⟩ := h.sync arg
    rw [call, hr] at hst
    obtain rfl : b₁ = b' := Option.some.inj hst
    exact ⟨l, .refl l, h.of_sameLinks hsame, fun i _ => by rw [hsame.location]⟩
  | tasklet =>
    obtain ⟨b₁, hb₁, hsame⟩ := taskletLoop_isList h.isList h.length_le
    rw [call, mp1RtcTasklet, hb₁] at hst
    obtain rfl : b₁ = b' := Option.some.inj hst
    exact ⟨l, .refl l, h.of_sameLinks hsame, fun i _ => by rw [hsame.location]⟩

theorem Linked.step (h : Linked b l) (hC : FreeBelowCorner b c) (hst : b.call c = some b') :
    ∃ l', Linked b' l' := by
  cases c with
  | add user =>
    obtain rfl : (b.mp1IoctlAdd user).1 = b' := Option.some.inj hst
    obtain ⟨-, heq⟩ | ⟨m, -, -, -, h'⟩ := h.add_cases hC
    · exact ⟨l, heq.symm ▸ h⟩
    · exact ⟨m :: l, h'⟩
  | _ =>
    obtain ⟨l', -, h', -⟩ := h.call_sublist (by nofun) hst
    exact ⟨l', h'⟩

/-- One call keeps the list in order exactly if it meets the condition. -/
theorem Linked.sound_step_iff (h : Linked b l) (hst : b.call c = some b') :
    Sound b' ↔ FreeBelowCorner b c := by
  refine ⟨fun hsound => ?_, fun hC => ?_⟩
  · rw [← h.mallocFresh_iff]
    cases c with
    | add user =>
      intro hloc m hm hml
      obtain rfl : (b.mp1IoctlAdd user).1 = b' := Option.some.inj hst
      obtain ⟨l', hl', -⟩ := hsound.acyclic
      exact h.add_mem hloc hm (h.listed_iff.1 hml) hl'
    | _ => trivial
  · obtain ⟨l', h'⟩ := h.step hC hst
    exact h'.sound

/-- A struct for location 0 that is not refused leaves `mp1_malloc` with its slot. -/
theorem Linked.fresh_step_iff (h : Linked b l) (h0 : ∀ i ∈ l, b.location i ≠ 0)
    (hst : b.call c = some b') :
    (NoCorner b c → ∃ l', Linked b' l' ∧ ∀ i ∈ l', b'.location i ≠ 0) ∧
      (NextFresh b' → NoCorner b c) := by
  have hC : FreeBelowCorner b c := by
    cases c with
    | add user => exact fun _ i hi hi0 => absurd hi0 (h0 i (h.listed_iff.1 hi))
    | _ => trivial
  cases c with
  | add user =>
    obtain rfl : (b.mp1IoctlAdd user).1 = b' := Option.some.inj hst
    obtain ⟨hrefused, heq⟩ | ⟨m, hm, hloc, hml, h'⟩ := h.add_cases hC
    · refine ⟨fun _ => heq.symm ▸ ⟨l, h, h0⟩, fun _ hcorner => mp1Malloc_eq_none.1 (hrefused ?_)⟩
      rw [hcorner]
      decide
    · obtain ⟨hlt, hm0, -⟩ := mp1Malloc_eq_some.1 hm
      refine ⟨fun hno => ⟨m :: l, h', List.forall_mem_cons.2 ⟨?_, fun i hi => ?_⟩⟩,
        fun hfresh hcorner => absurd (h'.listed_iff.2 List.mem_cons_self) (hfresh m ?_)⟩
      · rw [hloc, Function.update_self]
        exact fun hcorner => hno hcorner m hlt hm0
      · have hne : i ≠ m := fun e => hml (e ▸ hi)
        rw [hloc, Function.update_of_ne hne]
        exact h0 i hi
      · rw [hcorner, ← hm0, Function.update_eq_self] at hloc
        exact (mp1Malloc_congr hloc).trans hm
  | _ =>
    obtain ⟨l', hsub, h', hloc⟩ := h.call_sublist (by nofun) hst
    refine ⟨fun _ => ⟨l', h', fun i hi => ?_⟩, fun _ => trivial⟩
    rw [hloc i hi]
    exact h0 i (hsub.subset hi)

end

/-- **The blink list.**  In a run of calls from the empty list, the list stays finite and without
a circle, all loops on it end, and `mp1_malloc` never returns a slot of it, exactly if no struct
is added while one with location 0 is listed below all slots that are not on the list. -/
theorem blinking_sound_iff (vmem : ℕ → UInt8) (calls : List Call) :
    blinking.States Sound (start vmem) calls ∧ blinking.Steps MallocFresh (start vmem) calls ↔
      blinking.Steps FreeBelowCorner (start vmem) calls := by
  have hstates : blinking.States Sound (start vmem) calls ↔
      blinking.Steps FreeBelowCorner (start vmem) calls :=
    Machine.states_iff_steps (M := blinking) (P := Sound) (I := fun b => ∃ l, Linked b l)
      (fun b c b' ⟨l, h⟩ _ hst => h.sound_step_iff hst)
      (fun b c b' ⟨l, h⟩ _ hst hsound => h.step ((h.sound_step_iff hst).1 hsound) hst)
      ⟨[], linked_start⟩ linked_start.sound calls
  have hsteps : blinking.Steps MallocFresh (start vmem) calls ↔
      blinking.Steps FreeBelowCorner (start vmem) calls :=
    Machine.steps_iff_steps (M := blinking) (I := fun b => ∃ l, Linked b l)
      (fun b c b' ⟨l, h⟩ _ => h.mallocFresh_iff) (fun b c b' ⟨l, h⟩ hC hst => h.step hC hst)
      ⟨[], linked_start⟩ calls
  rw [hstates, hsteps, and_self_iff]

/-- The struct that `main` adds, for any location. -/
def blinkAt (location : UInt16) : BlinkStruct :=
  { memsetZero with
    location := location, onChar := 0x49, offChar := 0x4D, onLength := 7, offLength := 6 }

/-- Two structs, the first of them for location 0: both get slot 0, and the tasklet runs in a
circle. -/
theorem not_blinking_sound :
    (¬ blinking.States Sound (start fun _ => 0) [.add (blinkAt 0), .add (blinkAt 5)] ∧
      ¬ blinking.Steps MallocFresh (start fun _ => 0) [.add (blinkAt 0), .add (blinkAt 5)]) ∧
      ∃ b, blinking.exec (start fun _ => 0) [.add (blinkAt 0), .add (blinkAt 5)] = some b ∧
        ∀ n, b.mp1RtcTasklet n = none := by
  have hm : (start fun _ => 0).mp1Malloc = some 0 :=
    mp1Malloc_eq_some.2 ⟨by decide, rfl, fun j hj => absurd hj (Nat.not_lt_zero j)⟩
  have hloc : ∀ k : UInt16, k.toNat < blinkSlots → (blinkAt k).location.toNat < blinkSlots :=
    fun _ h => h
  have hlocation := (mp1IoctlAdd_fst (hloc 0 (by decide)) hm).2.2
  have h₁ : Linked ((start fun _ => 0).mp1IoctlAdd (blinkAt 0)).1 [0] :=
    linked_start.add (hloc 0 (by decide)) hm nofun
  have hm₁ : ((start fun _ => 0).mp1IoctlAdd (blinkAt 0)).1.mp1Malloc = some 0 := by
    refine mp1Malloc_eq_some.2 ⟨by decide, ?_, fun j hj => absurd hj (Nat.not_lt_zero j)⟩
    rw [hlocation, Function.update_self]
    rfl
  generalize hb₁ : ((start fun _ => 0).mp1IoctlAdd (blinkAt 0)).1 = b₁ at h₁ hm₁
  have hcircle : ∀ l, ¬ Links.IsList (b₁.mp1IoctlAdd (blinkAt 5)).1.next
      (b₁.mp1IoctlAdd (blinkAt 5)).1.mp1ListHead l :=
    fun l => h₁.add_mem (hloc 5 (by decide)) hm₁ List.mem_cons_self
  have hstep₁ : blinking.step (start fun _ => 0) (.add (blinkAt 0)) = some b₁ := congrArg some hb₁
  refine ⟨⟨fun h => ?_, fun h => ?_⟩, (b₁.mp1IoctlAdd (blinkAt 5)).1, ?_, fun n => ?_⟩
  · obtain ⟨l, hl, -⟩ := ((h.2 b₁ hstep₁).2 _ rfl).acyclic
    exact hcircle l hl
  · have hfresh : MallocFresh b₁ (.add (blinkAt 5)) := ((h b₁ hstep₁).2 _ rfl).1
    exact hfresh (hloc 5 (by decide)) 0 hm₁ (h₁.listed_iff.2 List.mem_cons_self)
  · rw [Machine.exec, hstep₁]
    rfl
  · by_contra hne
    obtain ⟨l, hl⟩ := isList_of_taskletLoop (Option.ne_none_iff_isSome.1 hne)
    exact hcircle l hl

/-- In all states of a run `mp1_malloc` would return no slot of the list exactly if no struct for
location 0 gets a slot. -/
theorem blinking_fresh_iff (vmem : ℕ → UInt8) (calls : List Call) :
    blinking.States (fun b => Sound b ∧ NextFresh b) (start vmem) calls ↔
      blinking.Steps NoCorner (start vmem) calls := by
  refine Machine.states_iff_steps (M := blinking)
    (I := fun b => ∃ l, Linked b l ∧ ∀ i ∈ l, b.location i ≠ 0) ?_ ?_ ⟨[], linked_start, nofun⟩ ?_
    calls
  · rintro b c b' ⟨l, h, h0⟩ - hst
    obtain ⟨hkeep, hno⟩ := h.fresh_step_iff h0 hst
    refine ⟨fun h' => hno h'.2, fun hC => ?_⟩
    obtain ⟨l', h', h0'⟩ := hkeep hC
    exact ⟨h'.sound, fun m hm hml => h0' m (h'.listed_iff.1 hml) (mp1Malloc_eq_some.1 hm).2.1⟩
  · rintro b c b' ⟨l, h, h0⟩ - hst h'
    obtain ⟨hkeep, hno⟩ := h.fresh_step_iff h0 hst
    exact hkeep (hno h'.2)
  · exact ⟨linked_start.sound, fun m _ hml => absurd (linked_start.listed_iff.1 hml) nofun⟩

end Blink

end KTeamOS
