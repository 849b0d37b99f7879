import KTeamOS.LTS.Basic
import KTeamOS.Links.Basic
import KTeamOS.Word.Basic

/-!
# The heap

`malloc` and `free` of `paging.c`.  The allocated blocks are kept on a singly linked list, from
high to low addresses, whose nodes are handed out one after the other from the page at
`34 * 4 MB` and never reused; a node is named by its index there.

`malloc` reads its local `mem_end` also on the one path on which no branch assigned it.  What it
then finds there is the parameter `stale`, and its result says whether that happened.
`none` as a result is a NULL dereference, a loop that never ends or a list node outside the
page of the list.
-/

namespace KTeamOS

/-- `FOURMEG` -/
def fourMeg : ℕ := 0x400000

/-- `mem_cache` -/
def memCache : ℕ := 60

/-- The end of the arena, `bottom` in `malloc`. -/
def heapBottom : ℕ := memCache * fourMeg - 1

/-- The floor of the arena, `top` in `malloc`. -/
def heapTop : ℕ := (memCache - 20) * fourMeg - 1

/-- The bounds in a `mem_list_t`. -/
structure Block where
  memStart : ℕ
  memEnd : ℕ
  deriving DecidableEq, Repr

/-- `mem_list_t` -/
structure MemList extends Block where
  next : Option ℕ

/-- The global variables of the heap. -/
structure Heap where
  /-- The array at `list_addr`. -/
  node : ℕ → MemList
  memHead : Option ℕ
  memTail : Option ℕ
  listIdx : ℕ
  /-- The field `present` of the entries of `page_directory`. -/
  present : ℕ → Bool

/-- What a call of `malloc` gives: NULL, a block, or a page fault in its `memset`. -/
inductive MallocResult
  | null | block (p : ℕ) | fault
  deriving DecidableEq, Repr

namespace Heap

/-- The heap after `paging_init` and the first `set_page`. -/
def init : Heap where
  node _ := ⟨⟨0, 0⟩, none⟩
  memHead := none
  memTail := none
  listIdx := 0
  present i := i ∈ [0, 1, 32, 33, 34]

/-- Another node of the list page. -/
def setNode (h : Heap) (i : ℕ) (m : MemList) : Heap :=
  { h with node := Function.update h.node i m }

/-- `i->next = p` -/
def setNext (h : Heap) (i : ℕ) (p : Option ℕ) : Heap :=
  h.setNode i { h.node i with next := p }

/-- `i->mem_end = e; i->mem_start = s` -/
def setBlock (h : Heap) (i : ℕ) (b : Block) : Heap :=
  h.setNode i { h.node i with toBlock := b }

/-- The nodes `list_addr + i` (12 bytes each) in the page at `34 * 4 MB`; the next page is not
present. -/
def listCap : ℕ := fourMeg / 12

/-- The loop of `malloc` that looks for a gap: `front` and `back` where it stops, `back` being
NULL if it ran to the end. -/
def scan (h : Heap) (nBytes : ℕ) : ℕ → Option ℕ → Option ℕ → Option (Option ℕ × Option ℕ)
  | _, front, none => some (front, none)
  | 0, _, some _ => none
  | n + 1, front, some back => do
    let front ← front
    let freeSize := sub32 (add32 (h.node front).memStart 1) (h.node back).memEnd
    if nBytes ≤ freeSize then some (some front, some back)
    else h.scan nBytes n (h.node front).next (h.node back).next

/-- The assignments the loop makes on `break`, if it stopped at a `back`, and those after it.
`mem_end` and `front->next` are assigned again by the latter. -/
def linkBehind (h : Heap) (newNode front : ℕ) (back : Option ℕ) : Heap :=
  let h := if back = none then h else (h.setNext newNode back).setNext front (some newNode)
  { h.setNext front (some newNode) with memTail := some newNode }

/-- The branches of `malloc` that link `newNode` in, with the `mem_end` they assign, if any. -/
def link (h : Heap) (nBytes newNode : ℕ) : Option (Heap × Option ℕ) :=
  match h.memHead with
  | none => some ({ h with memTail := some newNode, memHead := some newNode }, some heapBottom)
  | some head =>
    let freeSize := sub32 heapBottom (h.node head).memEnd
    if (h.node head).memEnd ≠ heapBottom then
      if nBytes ≤ freeSize then
        some ({ h.setNext newNode (some head) with memHead := some newNode }, some heapBottom)
      else some (h, none)
    else if (h.node head).next = none then
      if freeSize < nBytes then
        some ({ h.setNext head (some newNode) with memTail := some newNode },
          some (add32 (h.node head).memStart 1))
      else
        some ({ h.setNext newNode (some head) with memHead := some newNode }, some heapBottom)
    else do
      let (front, back) ← h.scan nBytes h.listIdx (some head) (h.node head).next
      let front ← front
      let h := h.linkBehind newNode front back
      some (h, some (add32 (h.node front).memStart 1))

/-- The loop that maps the pages of a block. -/
def mapPages (h : Heap) (startAddrIdx endAddrIdx : ℕ) : Heap :=
  { h with present := fun i => h.present i || (startAddrIdx ≤ i && i ≤ endAddrIdx) }

/-- Every page with a byte of `[p, p + n)`, addresses taken modulo `2 ^ 32`, is present. -/
def writable (h : Heap) (p n : ℕ) : Bool :=
  (List.range ((p % fourMeg + n - 1) / fourMeg + 1)).all
    fun i => h.present ((p / fourMeg + i) % 1024)

/-- The call `malloc(nBytes)`, and whether it read `mem_end` unassigned. -/
def malloc (h : Heap) (nBytes stale : ℕ) : Option (Heap × MallocResult × Bool) :=
  if nBytes = 0 then some (h, .null, false)
  else if listCap ≤ h.listIdx then none
  else do
    let newNode := h.listIdx
    let h := { h with listIdx := h.listIdx + 1 }
    let h := h.setNode newNode ⟨⟨0, 0⟩, none⟩
    let (h, memEnd) ← h.link nBytes newNode
    let e := memEnd.getD stale
    let s := sub32 (sub32 e nBytes) 1
    let h := h.setBlock newNode ⟨s, e⟩
    if s < heapTop then some (h, .null, memEnd.isNone)
    else
      let h := h.mapPages (s / fourMeg) (e / fourMeg)
      some (h, if h.writable s nBytes then .block s else .fault, memEnd.isNone)

/-- The loop of `free`. -/
def freeLoop (ptr : ℕ) : ℕ → Heap → Option ℕ → Option ℕ → Option Heap
  | _, h, _, none => some h
  | 0, _, _, some _ => none
  | n + 1, h, front, some back => do
    let front ← front
    let h :=
      if (h.node back).memStart = ptr then
        let h := h.setNext front (h.node back).next
        if (h.node front).next = none then { h with memTail := some front } else h
      else h
    freeLoop ptr n h (h.node front).next (h.node back).next

/-- `free` : the first node is compared before the loop. -/
def free (h : Heap) (ptr : ℕ) : Option Heap :=
  match h.memHead with
  | none => some h
  | some head =>
    if (h.node head).memStart = ptr then
      if (h.node head).next = none then some { h with memHead := none, memTail := none }
      else some { h with memHead := (h.node head).next }
    else freeLoop ptr h.listIdx h (some head) (h.node head).next

/-- The first `n` nodes from `p` on. -/
def chain (h : Heap) : ℕ → Option ℕ → List ℕ
  | 0, _ | _, none => []
  | n + 1, some i => i :: h.chain n (h.node i).next

/-- The bounds on the list from `mem_head`. -/
def blocks (h : Heap) : List Block :=
  (h.chain h.listIdx h.memHead).map fun i => (h.node i).toBlock

end Heap

/-- The calls on the heap; `stale` is what lies in the place of `mem_end`. -/
inductive HeapOp
  | malloc (nBytes stale : UInt32) | free (ptr : UInt32)

/-- The heap with the blocks `(p, n)` that were returned and not yet freed. -/
structure HeapState where
  heap : Heap
  live : List (ℕ × ℕ)
  /-- Some call has read its `mem_end` unassigned. -/
  usedStale : Bool

/-- The heap after the boot, with nothing allocated. -/
def HeapState.init : HeapState := ⟨.init, [], false⟩

/-- The heap under calls of `malloc` and `free`. -/
def heapMachine : Machine HeapState HeapOp where
  step s
    | .malloc n stale => do
      let (h, r, unassigned) ← s.heap.malloc n.toNat stale.toNat
      let live := match r with
        | .block p => (p, n.toNat) :: s.live
        | _ => s.live
      some ⟨h, live, s.usedStale || unassigned⟩
    | .free ptr => do
      let h ← s.heap.free ptr.toNat
      some { s with heap := h, live := s.live.filter fun b => b.1 ≠ ptr.toNat }

section Calls

variable {h h' : Heap} {s : HeapState} {n stale : ℕ}

theorem Heap.malloc_zero (hn : n = 0) : h.malloc n stale = some (h, .null, false) := if_pos hn

theorem Heap.malloc_full (hn : n ≠ 0) (hcap : listCap ≤ h.listIdx) : h.malloc n stale = none := by
  rw [malloc, if_neg hn, if_pos hcap]

theorem heap_step_malloc {n stale : UInt32} {r : MallocResult} {unassigned : Bool}
    (hcall : s.heap.malloc n.toNat stale.toNat = some (h', r, unassigned)) :
    ∃ live, heapMachine.step s (.malloc n stale) = some ⟨h', live, s.usedStale || unassigned⟩ :=
  ⟨_, by simp only [heapMachine, hcall, Option.bind_eq_bind, Option.bind_some]; rfl⟩

theorem heap_step_free {ptr : UInt32} (hcall : s.heap.free ptr.toNat = some h') :
    heapMachine.step s (.free ptr) =
      some { s with heap := h', live := s.live.filter fun b => b.1 ≠ ptr.toNat } := by
  simp only [heapMachine, hcall, Option.bind_eq_bind, Option.bind_some]

end Calls

end KTeamOS
