import ShedOS.Lib.Bytes
import ShedOS.Lib.Loops
import ShedOS.Memory.AddrUtil

/-!
# The kernel heap

`alloc.c` on the bytes that the kernel finds at virtual addresses, with the
pages that its table maps: an access to another page faults. Frames for new
pages are there, and hold what they held before.
-/

namespace ShedOS.Heap

open Bytes Loops
open Memory (U64 addrPageAlignUp)

def KERNEL_HEAP_VIRTUAL_START : U64 := 0xffff810000000000#64
def KERNEL_HEAP_VIRTUAL_END : U64 := 0xffff810200000000#64

def allocSize : U64 := 0x1000

structure Space where
  mem : Mem
  pages : U64 → Bool

namespace Space

variable (s : Space)

def mapped (a : U64) : Bool := s.pages (a >>> 12)

def loadBool (a : U64) : Option Bool := if s.mapped a then some (s.mem a.toNat != 0) else none

def load (a : U64) : Option U64 := if s.mapped a && s.mapped (a + 7) then some (s.mem.read64 a.toNat) else none

def storeBool (a : U64) (b : Bool) : Option Space :=
  if s.mapped a then some { s with mem := s.mem.setByte a.toNat (if b then 1 else 0) } else none

def store (a v : U64) : Option Space :=
  if s.mapped a && s.mapped (a + 7) then some { s with mem := s.mem.write64 a.toNat v } else none

-- ---------------------------------------------------------------------------
-- struct chunk_hdr
-- ---------------------------------------------------------------------------

def inUse (hdr : U64) : Option Bool := s.loadBool hdr
def size (hdr : U64) : Option U64 := s.load (hdr + 8)
def sizePrev (hdr : U64) : Option U64 := s.load (hdr + 16)
def setInUse (hdr : U64) (b : Bool) : Option Space := s.storeBool hdr b
def setSize (hdr v : U64) : Option Space := s.store (hdr + 8) v
def setSizePrev (hdr v : U64) : Option Space := s.store (hdr + 16) v

end Space

def sizeofChunkHdr : U64 := 24

def chunkHdr (addr : U64) : U64 := addr - sizeofChunkHdr

def nextHdr (s : Space) (hdr : U64) : Option U64 := do
  return hdr + (← s.size hdr) + sizeofChunkHdr

/-- With the size of `hdr` itself, as `PREV_HDR` has it. -/
def prevHdr (s : Space) (hdr : U64) : Option U64 := do
  return hdr - (← s.size hdr) - sizeofChunkHdr

-- ---------------------------------------------------------------------------
-- vmm_request_at
-- ---------------------------------------------------------------------------

def Space.mapPage (s : Space) (vaddr : U64) : Space :=
  { s with pages := fun p => s.pages p || p == vaddr >>> 12 }

def vmmRequestAt (s : Space) (vaddr : U64) (n : Nat) : Space :=
  upto (fun i s =>
    let target := vaddr + BitVec.ofNat 64 i * 0x1000
    if s.mapped target then s else s.mapPage target) s n

-- ---------------------------------------------------------------------------
-- malloc and mfree
-- ---------------------------------------------------------------------------

def mallocInit (s : Space) : Option Space := do
  let head := KERNEL_HEAP_VIRTUAL_START
  let s := vmmRequestAt s head (allocSize / 0x1000).toNat
  let s ← s.setSize head (allocSize - 2 * sizeofChunkHdr)
  let s ← s.setInUse head false
  let s ← s.setSizePrev head 0
  let tail ← nextHdr s head
  let s ← s.setSize tail 0
  let s ← s.setInUse tail true
  s.setSizePrev tail (← s.size head)

/-- The loop of `malloc`: the first header that is the last one, or that of a
free chunk with `size` bytes. -/
def findChunk (s : Space) (size hdr : U64) : (fuel : Nat) → Option U64
  | 0 => none
  | fuel + 1 => do
    let hdrSize ← s.size hdr
    if hdrSize = 0 then return hdr
    if (← s.inUse hdr) || hdrSize < size then findChunk s size (← nextHdr s hdr) fuel
    else return hdr

/-- What `malloc` does at the end of the list: append `newPageCount` pages, and
make the last header that of a chunk. -/
def growHeap (s : Space) (hdr newPageCount : U64) : Option Space := do
  let regionEnd := hdr + sizeofChunkHdr
  let s := vmmRequestAt s regionEnd newPageCount.toNat
  let s ← s.setSize hdr (newPageCount * 0x1000 - sizeofChunkHdr)
  let newTail ← nextHdr s hdr
  let s ← s.setSize newTail 0
  let s ← s.setInUse newTail true
  s.setSizePrev newTail (← s.size hdr)

/-- What `malloc` does with the chunk it takes: `size` bytes of it and a header
for the rest. -/
def splitChunk (s : Space) (hdr size : U64) : Option Space := do
  let sizeOld ← s.size hdr
  let s ← s.setSize hdr (size - sizeofChunkHdr)
  let s ← s.setInUse hdr true
  let hdrNew ← nextHdr s hdr
  let s ← s.setSize hdrNew (sizeOld - size)
  let s ← s.setInUse hdrNew false
  s.setSizePrev hdrNew (← s.size hdr)

/-- The alignment is not used. `NULL` is 0. -/
def malloc (s : Space) (n : U64) (fuel : Nat) : Option (Space × U64) := do
  if n = 0 then return (s, 0)
  let size := n + sizeofChunkHdr
  let hdr ← findChunk s size KERNEL_HEAP_VIRTUAL_START fuel
  if (← s.size hdr) = 0 then
    if hdr + sizeofChunkHdr > KERNEL_HEAP_VIRTUAL_END then return (s, 0)
    let s ← growHeap s hdr (addrPageAlignUp size / 0x1000)
    let s ← splitChunk s hdr size
    return (s, hdr + sizeofChunkHdr)
  let s ← splitChunk s hdr size
  return (s, hdr + sizeofChunkHdr)

def mergeNext (s : Space) (hdr : U64) : Option Space := do
  let hdrNext ← nextHdr s hdr
  if !(← s.inUse hdrNext) && (← s.size hdrNext) ≠ 0 then
    let s ← s.setSize hdr ((← s.size hdr) + ((← s.size hdrNext) + sizeofChunkHdr))
    let nextnext ← nextHdr s hdrNext
    s.setSizePrev nextnext (← s.size hdrNext)
  else return s

/-- The first half of `mfree`: the chunk goes into the one before it. -/
def mergePrev (s : Space) (hdr : U64) : Option (Space × U64) := do
  if (← s.sizePrev hdr) ≠ 0 then
    let hdrPrev ← prevHdr s hdr
    if !(← s.inUse hdrPrev) then
      let s ← s.setSize hdrPrev ((← s.size hdrPrev) + ((← s.size hdr) + sizeofChunkHdr))
      return (s, hdrPrev)
  return (s, hdr)

def mfree (s : Space) (addr : U64) : Option Space := do
  let hdr := chunkHdr addr
  let s ← s.setInUse hdr false
  let (s, hdr) ← mergePrev s hdr
  mergeNext s hdr

end ShedOS.Heap
