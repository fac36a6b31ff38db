import ShedOS.Memory.UserMap
import ShedOS.Task.Task

/-!
# ELF images

`task_create`, which loads an image through the address space it is loaded
into: all pointers go through the MMU, those to the image as well.
-/

namespace ShedOS.Task

open Bytes Layout Memory

-- ---------------------------------------------------------------------------
-- Headers
-- ---------------------------------------------------------------------------

inductive EhdrField where
  | eIdent | eType | eMachine | eVersion | eEntry | ePhoff | eShoff | eFlags | eEhsize | ePhentsize | ePhnum
  | eShentsize | eShnum | eShstrndx
  deriving DecidableEq, Repr

/-- `Elf64_Ehdr`; its fields are aligned without padding. -/
def elf64Ehdr : Packed EhdrField :=
  [(.eIdent, 16), (.eType, 2), (.eMachine, 2), (.eVersion, 4), (.eEntry, 8), (.ePhoff, 8), (.eShoff, 8), (.eFlags, 4),
    (.eEhsize, 2), (.ePhentsize, 2), (.ePhnum, 2), (.eShentsize, 2), (.eShnum, 2), (.eShstrndx, 2)]

inductive PhdrField where
  | pType | pFlags | pOffset | pVaddr | pPaddr | pFilesz | pMemsz | pAlign
  deriving DecidableEq, Repr

def elf64Phdr : Packed PhdrField :=
  [(.pType, 4), (.pFlags, 4), (.pOffset, 8), (.pVaddr, 8), (.pPaddr, 8), (.pFilesz, 8), (.pMemsz, 8), (.pAlign, 8)]

theorem elf64Ehdr_size : elf64Ehdr.size = 64 := by decide

theorem elf64Phdr_size : elf64Phdr.size = 56 := by decide

def PT_LOAD : U64 := 1

-- ---------------------------------------------------------------------------
-- Accesses through the MMU
-- ---------------------------------------------------------------------------

variable {σ η : Type}

/-- `n` bytes from `v` on, the lowest address least significant. -/
def loadVirtual (m : Mem) (root : Nat) (v : U64) : (n : Nat) → Option (BitVec (8 * n))
  | 0 => some 0#0
  | n + 1 => do
    let high ← loadVirtual m root (v + 1) n
    let low ← readByte m root v
    return high ++ low

def loadField {F : Type} [DecidableEq F] (s : Machine σ) (L : Packed F) (base : U64) (f : F) : Option U64 :=
  (loadVirtual s.mem s.root (base + BitVec.ofNat 64 (L.offset f)) (L.fieldSize f)).map (·.setWidth 64)

def memsetVirtual (m : Mem) (root : Nat) (dst : U64) (c : BitVec 8) : (n : Nat) → Option Mem
  | 0 => some m
  | n + 1 => do
    let m ← memsetVirtual m root dst c n
    let a ← mmu m root (dst + BitVec.ofNat 64 n)
    return m.setByte a c

def copyReads (src : U64) (n : Nat) : List U64 := (List.range n).map fun i => src + BitVec.ofNat 64 i

-- ---------------------------------------------------------------------------
-- task_create
-- ---------------------------------------------------------------------------

section Create

variable [FrameSource σ] [HeapSource η]

/-- `p_memsz + p_vaddr % 0x1000`, up to whole pages. -/
def toAlloc (memsz vaddr : U64) : U64 := addrPageAlignUp (memsz + vaddr % 0x1000)

/-- One program header; `none` is a page fault. -/
def loadSegment (s : Machine σ) (vmap elfData phdr : U64) : Option (Machine σ) := do
  let pType ← loadField s elf64Phdr phdr .pType
  if pType = PT_LOAD then
    let flags := (PAGING_USER ||| PAGING_WRITABLE).setWidth 8
    let pages := toAlloc (← loadField s elf64Phdr phdr .pMemsz) (← loadField s elf64Phdr phdr .pVaddr) / 0x1000
    let s := vmmRequestAt s vmap (← loadField s elf64Phdr phdr .pVaddr) pages.toNat flags
    let mem ← memsetVirtual s.mem s.root (← loadField s elf64Phdr phdr .pVaddr) 0
      (← loadField s elf64Phdr phdr .pFilesz).toNat
    let s := { s with mem }
    let mem ← copyVirtual s.mem s.root (← loadField s elf64Phdr phdr .pVaddr)
      (elfData + (← loadField s elf64Phdr phdr .pOffset)) (← loadField s elf64Phdr phdr .pMemsz).toNat
    return { s with mem }
  else return s

def loadSegments (vmap elfData phdrs : U64) : (fuel i : Nat) → Machine σ → Option (Machine σ)
  | 0, _, _ => none
  | fuel + 1, i, s => do
    let phnum ← loadField s elf64Ehdr elfData .ePhnum
    if i < phnum.toNat then
      let s ← loadSegment s vmap elfData (phdrs + BitVec.ofNat 64 (i * elf64Phdr.size))
      loadSegments vmap elfData phdrs fuel (i + 1) s
    else return s

/-- Loading into an address space that is active: the loop, with `e_phnum` a
number of 16 bits, and the stack. -/
def loadElf (s : Machine σ) (vmap elfData : U64) : Option (Machine σ) := do
  let phoff ← loadField s elf64Ehdr elfData .ePhoff
  let s ← loadSegments vmap elfData (elfData + phoff) 0x10000 0 s
  return vmmRequestAt s vmap (addrPageAlignDown 0x7ffffffffff0) 1 ((PAGING_USER ||| PAGING_WRITABLE).setWidth 8)

def taskCreate (k : Kernel σ η) (vmapParent elfData : U64) : Option (U64 × Kernel σ η) := do
  let (task, heap) := HeapSource.malloc k.heap (BitVec.ofNat 64 structTask.size)
  let k := { k with heap, kmem := Libk.memset k.kmem task.toNat 0 structTask.size }
  let (vmap, machine) := pagingCopy k.machine vmapParent
  let k := { k with machine }.set task .vmap vmap
  let machine ← loadElf (pagingWriteCr3 k.machine vmap) vmap elfData
  let k := { k with machine }.set task .rsp 0x7ffffffffff0
  return (task, k.set task .rip (← loadField k.machine elf64Ehdr elfData .eEntry))

end Create

end ShedOS.Task
