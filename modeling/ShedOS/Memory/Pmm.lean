import ShedOS.Memory.Bitmap

/-!
# The physical memory manager

`pmm.c`, function by function. Addresses, counts and sizes are `Nat`s below
`2 ^ 64`, with `% 2 ^ 64` where the C arithmetic can wrap. `none` is an access
outside the bitmap (or, in `pmmInitialize`, through the NULL `largest_entry`).
-/

namespace ShedOS.Memory

/-- `size_t` and `uint64_t` arithmetic is modulo `2 ^ 64`. -/
abbrev wordSize : Nat := 2 ^ 64

def STIVALE2_MMAP_USABLE : Nat := 1

/-- `struct stivale2_mmap_entry`; the padding field `unused` is left out. -/
structure MmapEntry where
  base : Nat
  length : Nat
  type : Nat
  base_lt : base < wordSize := by decide
  length_lt : length < wordSize := by decide

/-- The variables of `pmm.c`. `lastFree` is what the search of
`pmmRequestPages` starts from. -/
structure Pmm where
  pageBitmap : Bitmap
  lastFree : Nat
  freeMemory : Nat
  totalMemory : Nat
  deriving DecidableEq, Repr

-- ---------------------------------------------------------------------------
-- Locking and unlocking
-- ---------------------------------------------------------------------------

def lockPage (s : Pmm) (paddr : Nat) : Option (Nat × Pmm) := do
  let pi := paddr / 0x1000
  if !(← bitmapIsset s.pageBitmap pi) then
    let bm ← bitmapSet s.pageBitmap pi
    return (1, { s with
      pageBitmap := bm
      freeMemory := (s.freeMemory + (wordSize - 0x1000)) % wordSize })
  return (0, s)

def unlockPage (s : Pmm) (paddr : Nat) : Option (Nat × Pmm) := do
  let pi := paddr / 0x1000
  if ← bitmapIsset s.pageBitmap pi then
    let bm ← bitmapUnset s.pageBitmap pi
    return (1, { s with
      pageBitmap := bm
      freeMemory := (s.freeMemory + 0x1000) % wordSize })
  return (0, s)

/-- `for (p = paddr; p < stop; p += 0x1000) acc += page(p)`, at most `fuel`
times round. -/
def pagesLoop (page : Pmm → Nat → Option (Nat × Pmm)) :
    (fuel p stop acc : Nat) → Pmm → Option (Nat × Pmm)
  | 0, _, _, acc, s => some (acc, s)
  | fuel + 1, p, stop, acc, s =>
    if p < stop then do
      let (k, s) ← page s p
      pagesLoop page fuel ((p + 0x1000) % wordSize) stop (acc + k) s
    else some (acc, s)

/-- The bound `paddr + 0x1000 * n` of both loops, as `uint64_t`. -/
def pagesEnd (paddr n : Nat) : Nat := (paddr + 0x1000 * n) % wordSize

def lockPages (s : Pmm) (paddr n : Nat) : Option (Nat × Pmm) :=
  pagesLoop lockPage n paddr (pagesEnd paddr n) 0 s

def unlockPages (s : Pmm) (paddr n : Nat) : Option (Nat × Pmm) :=
  pagesLoop unlockPage n paddr (pagesEnd paddr n) 0 s

-- ---------------------------------------------------------------------------
-- Initialisation
-- ---------------------------------------------------------------------------

def mmapTotal (mmap : List MmapEntry) : Nat :=
  mmap.foldl (fun total entry => (total + entry.length) % wordSize) 0

def largerEntry (largest : Option MmapEntry) (entry : MmapEntry) : Option MmapEntry :=
  if entry.type ≠ STIVALE2_MMAP_USABLE then largest
  else match largest with
    | none => some entry
    | some l => if entry.length > l.length then some entry else some l

def mmapLargest (mmap : List MmapEntry) : Option MmapEntry :=
  mmap.foldl largerEntry none

def bitmapLen (total : Nat) : Nat := total / (0x1000 * 8) + 1

def unlockUsable : List MmapEntry → Pmm → Option Pmm
  | [], s => some s
  | entry :: rest, s =>
    if entry.type = STIVALE2_MMAP_USABLE then do
      let (_, s) ← unlockPages s entry.base (entry.length / 0x1000)
      unlockUsable rest s
    else unlockUsable rest s

def addrEnsureHigherNat (p : Nat) : Nat := p ||| 0xffff800000000000

def pmmInitialize (mmap : List MmapEntry) : Option Pmm := do
  let total := mmapTotal mmap
  let largest ← mmapLargest mmap
  let len := bitmapLen total
  let s : Pmm :=
    { pageBitmap := ⟨largest.base, List.replicate len 0xff#8⟩
      lastFree := 0, freeMemory := 0, totalMemory := total }
  let s ← unlockUsable mmap s
  let (_, s) ← lockPages s largest.base (len / 0x1000)
  return { s with pageBitmap := { s.pageBitmap with buf := addrEnsureHigherNat largest.base } }

-- ---------------------------------------------------------------------------
-- Requests and releases
-- ---------------------------------------------------------------------------

/-- The inner loop of `pmm_request_pages`: `is_free`, over `i` from the given
start for `remaining` frames more. -/
def runIsFree (bm : Bitmap) (pi : Nat) : (remaining i : Nat) → Option Bool
  | 0, _ => some true
  | remaining + 1, i => do
    if ← bitmapIsset bm (pi + i) then return false
    runIsFree bm pi remaining (i + 1)

/-- The outer loop of `pmm_request_pages`, `fuel` frames before the end. -/
def requestLoop (s : Pmm) (count : Nat) : (fuel pi : Nat) → Option (Nat × Pmm)
  | 0, _ => some (0, s)
  | fuel + 1, pi => do
    if ← runIsFree s.pageBitmap pi count 0 then
      let addr := pi * 0x1000
      let (_, s) ← lockPages { s with lastFree := pi + count } addr count
      return (addr, s)
    requestLoop s count fuel (pi + 1)

def Pmm.frames (s : Pmm) : Nat := s.totalMemory / 0x1000

/-- The address of the first of `count` frames, 0 for NULL. -/
def pmmRequestPages (s : Pmm) (count : Nat) : Option (Nat × Pmm) :=
  requestLoop s count (s.frames - s.lastFree) s.lastFree

def pmmReleasePages (s : Pmm) (page count : Nat) : Option Pmm := do
  let (_, s) ← unlockPages s page count
  -- an address is compared with, and stored as, the frame index to start from
  if page < s.lastFree then return { s with lastFree := page }
  return s

end ShedOS.Memory
