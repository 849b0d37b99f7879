import Mathlib.Data.Fin.Basic
import KTeamOS.LTS.Basic
import KTeamOS.Mmu.Walk

/-!
# The page tables

`paging.c`: the page directory, the table of the first 4 MB and the one of the video page, and the
functions that change them.  The entries are the bit fields of the source; `word` is what the memory
management unit reads.

## Main definitions

* `DirEntry`, `TableEntry` : the entries.
* `Paging` : the three tables, set up by `pagingInit`.
* `PagingEvent`, `pagingMachine` : calls of the functions, accesses of programs, and what the unit
  does with its cache.
-/

namespace KTeamOS

/-- `page_directory_entry_4mb_t` -/
structure DirEntry where
  present : Bool
  readWrite : Bool
  userSupervisor : Bool
  writeThrough : Bool
  cacheDisable : Bool
  accessed : Bool
  dirty : Bool
  pageSize : Bool
  global : Bool
  available : Fin (2 ^ 3)
  pat : Fin 2
  reserved : Fin (2 ^ 9)
  addr : Fin (2 ^ 10)

/-- `page_table_entry_t` -/
structure TableEntry where
  present : Bool
  readWrite : Bool
  userSupervisor : Bool
  writeThrough : Bool
  cacheDisable : Bool
  accessed : Bool
  dirty : Bool
  pat : Bool
  global : Bool
  available : Fin (2 ^ 3)
  addr : Fin (2 ^ 20)

/-- The fields in the word, the first one in the lowest bits. -/
def DirEntry.word (e : DirEntry) : ℕ :=
  e.present.toNat + 2 * (e.readWrite.toNat + 2 * (e.userSupervisor.toNat +
    2 * (e.writeThrough.toNat + 2 * (e.cacheDisable.toNat + 2 * (e.accessed.toNat +
      2 * (e.dirty.toNat + 2 * (e.pageSize.toNat + 2 * (e.global.toNat +
        2 * (e.available + 2 ^ 3 * (e.pat + 2 * (e.reserved + 2 ^ 9 * e.addr)))))))))))

/-- The bit fields of `page_table_entry_t`, the first one being the lowest. -/
def TableEntry.word (e : TableEntry) : ℕ :=
  e.present.toNat + 2 * (e.readWrite.toNat + 2 * (e.userSupervisor.toNat +
    2 * (e.writeThrough.toNat + 2 * (e.cacheDisable.toNat + 2 * (e.accessed.toNat +
      2 * (e.dirty.toNat + 2 * (e.pat.toNat + 2 * (e.global.toNat +
        2 * (e.available + 2 ^ 3 * e.addr)))))))))

/-- The tables of `paging.c`. -/
structure Paging where
  pageDirectory : ℕ → DirEntry
  pageTable4kb : ℕ → TableEntry
  vidmapTable : ℕ → TableEntry

/-- Where the linker has put the two page tables. -/
structure TablePlaces where
  pageTable4kb : ℕ
  vidmapTable : ℕ
  /-- What the unit reads as the table at another address. -/
  elsewhere : ℕ → ℕ → ℕ
  pageTable4kb_lt : pageTable4kb < 2 ^ 32
  vidmapTable_lt : vidmapTable < 2 ^ 32
  pageTable4kb_aligned : pageTable4kb % 4096 = 0
  vidmapTable_aligned : vidmapTable % 4096 = 0
  ne : pageTable4kb ≠ vidmapTable

/-- The tables as the memory management unit finds them. -/
def Paging.tables (p : Paging) (place : TablePlaces) : Mmu.Tables where
  dir i := (p.pageDirectory i).word
  table base i :=
    if base = place.pageTable4kb then (p.pageTable4kb i).word
    else if base = place.vidmapTable then (p.vidmapTable i).word
    else place.elsewhere base i

/-! ### `paging_init` -/

/-- `EXE_IDX` -/
abbrev Paging.exeIdx : ℕ := 32

/-- `VID_IDX` -/
abbrev Paging.vidIdx : ℕ := 33

/-- The entry `i` of the directory behind the first loop of `paging_init`. -/
def initialDir (i : ℕ) : DirEntry where
  present := false
  readWrite := true
  userSupervisor := false
  writeThrough := false
  cacheDisable := false
  accessed := false
  dirty := false
  pageSize := true
  global := false
  available := 0
  pat := 0
  reserved := 0
  addr := Fin.ofNat _ (i * 0x400000 % 2 ^ 32 / 2 ^ 22)

/-- The entry `i` of a table, with the fields that `paging_init` sets to other values in different
places. -/
def tablePage (present readWrite userSupervisor : Bool) (i : ℕ) : TableEntry where
  present := present
  readWrite := readWrite
  userSupervisor := userSupervisor
  writeThrough := false
  cacheDisable := false
  accessed := false
  dirty := false
  pat := false
  global := false
  available := 0
  addr := Fin.ofNat _ (i * 4096 / 2 ^ 12)

/-- `for(i = first; i < first + n; i++)`: the entry `i` is present. -/
def openPages (t : ℕ → TableEntry) (first : ℕ) : ℕ → ℕ → TableEntry
  | 0 => t
  | n + 1 =>
    Function.update (openPages t first n) (first + n) (tablePage true true true (first + n))

/-- The fields that make a directory entry point to the table at `temp`. -/
def DirEntry.pointTo (e : DirEntry) (temp : ℕ) : DirEntry :=
  { e with
    addr := Fin.ofNat _ (temp / 2 ^ 22)
    reserved := Fin.ofNat _ (temp / 2 ^ 13)
    pat := Fin.ofNat _ (temp / 2 ^ 12) }

namespace Paging

/-- Another entry of the page directory. -/
def setDir (p : Paging) (i : ℕ) (e : DirEntry) : Paging :=
  { p with pageDirectory := Function.update p.pageDirectory i e }

/-- Another entry of the page table of the kernel. -/
def setTable (p : Paging) (i : ℕ) (e : TableEntry) : Paging :=
  { p with pageTable4kb := Function.update p.pageTable4kb i e }

/-- Another entry of the page table of the programs. -/
def setVidmap (p : Paging) (i : ℕ) (e : TableEntry) : Paging :=
  { p with vidmapTable := Function.update p.vidmapTable i e }

/-- `page_table_4kb[i].addr = frame;` -/
def setFrame (p : Paging) (i frame : ℕ) : Paging :=
  p.setTable i { p.pageTable4kb i with addr := Fin.ofNat _ frame }

/-- `vidmap_table[KVID_IDX].addr = frame;` -/
def setScreen (p : Paging) (frame : ℕ) : Paging :=
  p.setVidmap 0xB8 { p.vidmapTable 0xB8 with addr := Fin.ofNat _ frame }

end Paging

/-- `paging_init`, up to the control registers. -/
def pagingInit (place : TablePlaces) : Paging :=
  let p : Paging :=
    { pageDirectory := initialDir
      pageTable4kb := openPages (openPages (tablePage false false false) 16 33) 160 33
      vidmapTable := tablePage false false true }
  let p := p.setDir 0
    { (p.pageDirectory 0).pointTo place.pageTable4kb with present := true, pageSize := false }
  let p := p.setTable 0xB8 { p.pageTable4kb 0xB8 with present := true, readWrite := true }
  let p := p.setDir 1 { p.pageDirectory 1 with present := true }
  let p := p.setDir Paging.vidIdx
    { (p.pageDirectory Paging.vidIdx).pointTo place.vidmapTable with
      present := true, pageSize := false, userSupervisor := true }
  let p := p.setVidmap 0xB8 { p.vidmapTable 0xB8 with present := true, readWrite := true }
  let p := { p with pageTable4kb := openPages p.pageTable4kb 0xD1 3 }
  let p := (p.setFrame 0xD1 0xB8).setFrame 0xB8 0xB8
  p.setDir 34
    { p.pageDirectory 34 with
      present := true, readWrite := true, userSupervisor := true, pageSize := true }

/-! ### The other functions -/

namespace Paging

/-- `set_page` -/
def setPage (p : Paging) (pid : ℕ) : Paging :=
  p.setDir Paging.exeIdx
    { p.pageDirectory Paging.exeIdx with
      present := true
      addr := Fin.ofNat _ ((pid + 2) * 0x400000 % 2 ^ 32 / 2 ^ 22)
      userSupervisor := true }

/-- `map_vid` -/
def mapVid (p : Paging) : Paging := p.setScreen 0xB8

/-- `context_switch`, before the screens are copied. -/
def hideTerm (p : Paging) (oldTerm : ℕ) : Paging := p.setFrame (oldTerm + 0xD1) (oldTerm + 0xD1)

/-- `context_switch`, behind that. -/
def showTerm (p : Paging) (newTerm : ℕ) : Paging := p.setFrame (newTerm + 0xD1) (0xB8000 / 2 ^ 12)

/-- `context_switch_pit` to the process with the number `pid` on the terminal `newTerm`, which is
the live one or not. -/
def contextSwitchPit (p : Paging) (pid newTerm termLive : ℕ) : Paging :=
  let p := (p.setPage (pid - 1)).setScreen (newTerm + 0xD1)
  if termLive = newTerm then p.setScreen 0xB8 else p

/-- The loop of `malloc` over the pages of a block: `n` of them from `i` on. -/
def mapBlock (p : Paging) (i : ℕ) : ℕ → Paging
  | 0 => p
  | n + 1 =>
    let p := p.mapBlock i n
    p.setDir (i + n)
      { p.pageDirectory (i + n) with
        addr := Fin.ofNat _ ((i + n) * 0x400000 % 2 ^ 32 / 2 ^ 22)
        present := true, readWrite := true, userSupervisor := true, pageSize := true }

end Paging

/-- What happens to the tables and their cache. -/
inductive PagingEvent
  /-- A read or write at an address. -/
  | access (x : Mmu.Access) (a : ℕ)
  /-- The unit caches the translation of a page. -/
  | fill (page : ℕ)
  /-- The unit forgets it. -/
  | evict (page : ℕ)
  | setPage (pid : ℕ)
  | mapVid
  /-- The two halves of `context_switch`. -/
  | hideTerm (oldTerm : ℕ)
  | showTerm (newTerm : ℕ)
  | contextSwitchPit (pid newTerm termLive : ℕ)
  /-- The loop of `malloc`. -/
  | mapBlock (first n : ℕ)
  /-- `flush_tlb` behind it. -/
  | flush

/-- The tables and the cache. -/
structure PagingState where
  paging : Paging
  tlb : Mmu.Tlb

namespace PagingState

/-- The end of the functions that change an entry: `flush_tlb`. -/
def flushed (p : Paging) : PagingState := ⟨p, fun _ => none⟩

/-- The address that an access reaches. -/
def answer (place : TablePlaces) (s : PagingState) : PagingEvent → Option ℕ
  | .access x a => Mmu.translate s.tlb (s.paging.tables place) x a
  | _ => none

end PagingState

open PagingState in

/-- The functions of the kernel as steps, with what the unit does in between. -/
def pagingMachine (place : TablePlaces) : Machine PagingState PagingEvent where
  step s
    | .access .. => some s
    | .fill page => some { s with
        tlb := Function.update s.tlb page ((s.paging.tables place).lookup page) }
    | .evict page => some { s with tlb := Function.update s.tlb page none }
    | .setPage pid => some (flushed (s.paging.setPage pid))
    | .mapVid => some (flushed s.paging.mapVid)
    | .hideTerm oldTerm => some (flushed (s.paging.hideTerm oldTerm))
    | .showTerm newTerm => some (flushed (s.paging.showTerm newTerm))
    | .contextSwitchPit pid newTerm termLive =>
      some (flushed (s.paging.contextSwitchPit pid newTerm termLive))
    | .mapBlock first n => some { s with paging := s.paging.mapBlock first n }
    | .flush => some (flushed s.paging)

end KTeamOS
