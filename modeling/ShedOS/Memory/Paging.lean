import ShedOS.Memory.AddrUtil
import ShedOS.Memory.Pmm
import ShedOS.Libk.MemUtil
import ShedOS.Lib.Loops

/-!
# Page tables

`paging.c` and `palloc`. Tables are frames of physical memory and are reached
through the higher-half direct map; `pmm_request_pages` is a parameter, so that
any frame allocator can stand behind it. TLB flushes have no part in the
contents of memory and are left out here.
-/

namespace ShedOS.Memory

open Bytes Libk Loops

/-- What stands behind `pmm_request_pages`: the address, 0 for NULL. -/
class FrameSource (σ : Type) where
  pmmRequestPages : σ → Nat → U64 × σ

/-- Physical memory, the frame allocator's state, `kernel_table`, and the
register CR3. `handed` only records the answers of `pmm_request_pages`, latest
first; nothing reads it. -/
structure Machine (σ : Type) where
  mem : Mem
  frames : σ
  kernelTable : U64
  cr3 : U64
  handed : List U64

def PAGING_PRESENT : U64 := 1#64 <<< 0
def PAGING_WRITABLE : U64 := 1#64 <<< 1
def PAGING_USER : U64 := 1#64 <<< 2
def PAGING_HUGE : U64 := 1#64 <<< 7

variable {σ : Type}

-- ---------------------------------------------------------------------------
-- Memory through kernel pointers
-- ---------------------------------------------------------------------------

namespace Machine

def entry (s : Machine σ) (table : U64) (i : Nat) : U64 :=
  s.mem.read64 (physical (table + BitVec.ofNat 64 (8 * i)))

def setEntry (s : Machine σ) (table : U64) (i : Nat) (e : U64) : Machine σ :=
  { s with mem := s.mem.write64 (physical (table + BitVec.ofNat 64 (8 * i))) e }

def memset (s : Machine σ) (dst : U64) (c : BitVec 8) (n : Nat) : Machine σ :=
  { s with mem := Libk.memset s.mem (physical dst) c n }

def memcpy (s : Machine σ) (dst src : U64) (n : Nat) : Machine σ :=
  { s with mem := Libk.memcpy s.mem (physical dst) (physical src) n }

def requestPages [FrameSource σ] (s : Machine σ) (n : Nat) : U64 × Machine σ :=
  let (p, frames) := FrameSource.pmmRequestPages s.frames n
  (p, { s with frames, handed := p :: s.handed })

end Machine

def palloc [FrameSource σ] (s : Machine σ) (n : Nat) : U64 × Machine σ :=
  let (p, s) := s.requestPages n
  (addrOffsetHigher p, s)

-- ---------------------------------------------------------------------------
-- Walking
-- ---------------------------------------------------------------------------

/-- `vaddr_to_index`: the index into the table of the given level. -/
def vaddrToIndex (vaddr : U64) : (level : Nat) → Nat
  | 0 => ((vaddr >>> 12) &&& 0x1ff).toNat
  | level + 1 => vaddrToIndex (vaddr >>> 9) level

def present (e : U64) : Bool := decide (e &&& PAGING_PRESENT ≠ 0)

def huge (e : U64) : Bool := decide (e &&& PAGING_HUGE ≠ 0)

def childTable (e : U64) : U64 := addrEnsureHigher (e &&& ~~~0xfff)

/-- The walk of `paging_map` from the given level down to the last table. -/
def pagingMapWalk [FrameSource σ] (vaddr : U64) : (level : Nat) → Machine σ → U64 → Machine σ × U64
  | 0, s, table => (s, table)
  | level + 1, s, table =>
    let i := vaddrToIndex vaddr (level + 1)
    let child := s.entry table i
    if !present child then
      let (child, s) := palloc s 1
      let s := s.memset child 0 0x1000
      let s := s.setEntry table i (addrOffsetLower child ||| PAGING_PRESENT)
      let s := if vaddr < VADDR_HIGHER then
          s.setEntry table i (s.entry table i ||| (PAGING_WRITABLE ||| PAGING_USER))
        else s
      pagingMapWalk vaddr level s (childTable child)
    else pagingMapWalk vaddr level s (childTable child)

def pagingMap [FrameSource σ] (s : Machine σ) (table vaddr paddr : U64) (flags : BitVec 8) :
    Machine σ :=
  let (s, table) := pagingMapWalk vaddr 3 s table
  s.setEntry table (vaddrToIndex vaddr 0) (paddr ||| flags.setWidth 64 ||| PAGING_PRESENT)

/-- The walk of `paging_unmap`; `none` where it returns early. -/
def pagingUnmapWalk (vaddr : U64) : (level : Nat) → Machine σ → U64 → Option U64
  | 0, _, table => some table
  | level + 1, s, table =>
    let child := s.entry table (vaddrToIndex vaddr (level + 1))
    if !present child then none
    else pagingUnmapWalk vaddr level s (childTable child)

def pagingUnmap (s : Machine σ) (table vaddr : U64) : Machine σ :=
  match pagingUnmapWalk vaddr 3 s table with
  | none => s
  | some table => s.setEntry table (vaddrToIndex vaddr 0) 0

def pagingGetFrom (s : Machine σ) (vaddr : U64) : (level : Nat) → U64 → U64
  | 0, table => s.entry table (vaddrToIndex vaddr 0)
  | level + 1, table =>
    let child := s.entry table (vaddrToIndex vaddr (level + 1))
    if !present child then 0
    else if huge child then child
    else pagingGetFrom s vaddr level (childTable child)

def pagingGet (s : Machine σ) (table vaddr : U64) : U64 := pagingGetFrom s vaddr 3 table

-- ---------------------------------------------------------------------------
-- Whole tables
-- ---------------------------------------------------------------------------

def pagingCreateEmpty [FrameSource σ] (s : Machine σ) : U64 × Machine σ :=
  let (newTable, s) := palloc s 1
  let s := s.memset newTable 0 0x1000
  let s := s.memcpy (newTable + 0x800) (s.kernelTable + 0x800) 0x800
  (newTable, s)

/-- The fan-out of the recursions over the user half. -/
def userSlots (level : Nat) : Nat := if level = 4 then 256 else 512

/-- Levels count from 4 at the top to 1 at the tables of leaf entries. -/
def pagingCopyRecursive [FrameSource σ] : (level : Nat) → Machine σ → (dst src : U64) → Machine σ
  | 0, s, _, _ => s
  | 1, s, dst, src => s.memcpy dst src 0x1000
  | level + 2, s, dst, src =>
    upto (fun i s =>
      if !present (s.entry src i) then s
      else
        let newSrc := childTable (s.entry src i)
        let (newDst, s) := palloc s 1
        let s := pagingCopyRecursive (level + 1) s newDst newSrc
        s.setEntry dst i (addrOffsetLower newDst ||| (s.entry src i &&& 0xfff))) s
      (userSlots (level + 2))

def pagingCopy [FrameSource σ] (s : Machine σ) (parent : U64) : U64 × Machine σ :=
  let (newTable, s) := pagingCreateEmpty s
  (newTable, pagingCopyRecursive 4 s newTable parent)

def pagingMakeReadonlyRecursive : (level : Nat) → Machine σ → (table : U64) → Machine σ
  | 0, s, _ => s
  | 1, s, table =>
    upto (fun i s => s.setEntry table i (s.entry table i &&& ~~~PAGING_WRITABLE)) s 512
  | level + 2, s, table =>
    upto (fun i s =>
      if !present (s.entry table i) then s
      else pagingMakeReadonlyRecursive (level + 1) s (childTable (s.entry table i))) s
      (userSlots (level + 2))

def pagingMakeReadonly (s : Machine σ) (table : U64) : Machine σ :=
  pagingMakeReadonlyRecursive 4 s table

def pagingWriteCr3 (s : Machine σ) (table : U64) : Machine σ :=
  { s with cr3 := addrEnsureLower table }

-- ---------------------------------------------------------------------------
-- Initialisation
-- ---------------------------------------------------------------------------

/-- The loop over the kernel's top-level entries. -/
def createKernelEntry [FrameSource σ] (i : Nat) (s : Machine σ) : Machine σ :=
  let (child, s) := palloc s 1
  let s := s.memset child 0 0x1000
  s.setEntry s.kernelTable (256 + i) (PAGING_PRESENT ||| addrOffsetLower child)

def hugeEntry (i : Nat) : U64 :=
  BitVec.ofNat 64 (i * 0x40000000) ||| PAGING_PRESENT ||| PAGING_WRITABLE ||| PAGING_HUGE

/-- The loop over the pages of one memory map entry. `none` is a loop that has
not ended after `fuel` rounds. -/
def mapEntryLoop [FrameSource σ] (stop : U64) : (fuel : Nat) → Machine σ → (paddr : U64) →
    Option (Machine σ)
  | 0, s, paddr => if paddr < stop then none else some s
  | fuel + 1, s, paddr =>
    if paddr < stop then
      let s := if paddr < 0x100000000#64 then s
        else pagingMap s s.kernelTable (VADDR_HIGHER + paddr) paddr (PAGING_WRITABLE.setWidth 8)
      mapEntryLoop stop fuel s (paddr + 0x1000)
    else some s

def mapEntries [FrameSource σ] : List MmapEntry → Machine σ → Option (Machine σ)
  | [], s => some s
  | entry :: rest, s => do
    let base := BitVec.ofNat 64 entry.base
    let s ← mapEntryLoop (base + BitVec.ofNat 64 entry.length) (entry.length / 0x1000 + 1) s base
    mapEntries rest s

def pagingInitialize [FrameSource σ] (s : Machine σ) (mmap : List MmapEntry) :
    Option (Machine σ) := do
  let (kernelTable, s) := palloc s 1
  let s := { s with kernelTable }
  let s := s.memset s.kernelTable 0 0x1000
  let s := upto createKernelEntry s 256
  let parent := childTable (s.entry s.kernelTable 256)
  let s := upto (fun i s => s.setEntry parent i (hugeEntry i)) s 4
  let parent := childTable (s.entry s.kernelTable 511)
  let s := upto (fun i s => s.setEntry parent (510 + i) (hugeEntry i)) s 2
  let s ← mapEntries mmap s
  let s := pagingUnmap s s.kernelTable 0
  return pagingWriteCr3 s s.kernelTable

end ShedOS.Memory
