import ShedOS.Memory.VmmLaws

/-!
# The single accesses of the paging code

What the functions of `paging.c` and their callers do to memory, the frame
allocator and the TLB, one access after the other in the order of the source.
Taken together those of `paging_map` and `paging_unmap` are the functions of the
model.
-/

namespace ShedOS.Memory

open Bytes Loops

/-- A store to a table is a link above the last level and a leaf at it; the
leaf stores name the address whose page they are for. -/
inductive Access where
  | request (p : U64)
  | clear (table : U64)
  | link (table : U64) (i : Nat) (e : U64)
  | leaf (vaddr table : U64) (i : Nat) (e : U64)
  | flush (vaddr : U64)
  deriving DecidableEq, Repr

variable {σ : Type} [FrameSource σ] {s : Machine σ} {level n : Nat} {v vaddr table paddr : U64} {flags : BitVec 8}

/-- The answer of `pmm_request_pages` is the allocator's, whatever is noted. -/
def Access.run (s : Machine σ) : Access → Machine σ
  | request _ => (s.requestPages 1).2
  | clear table => s.memset table 0 0x1000
  | link table i e => s.setEntry table i e
  | leaf _ table i e => s.setEntry table i e
  | flush _ => s

def runAccesses (s : Machine σ) (log : List Access) : Machine σ := log.foldl Access.run s

-- ---------------------------------------------------------------------------
-- paging_map and paging_unmap
-- ---------------------------------------------------------------------------

/-- The branch of `paging_map` that creates a table, for slot `i`. -/
def createTableAccesses (p table vaddr : U64) (i : Nat) : List Access :=
  let child := addrOffsetHigher p
  let e := addrOffsetLower child ||| PAGING_PRESENT
  [.request p, .clear child, .link table i e] ++
    if vaddr < VADDR_HIGHER then [.link table i (e ||| (PAGING_WRITABLE ||| PAGING_USER))] else []

def mapWalkAccesses (vaddr : U64) : (level : Nat) → Machine σ → U64 → List Access
  | 0, _, _ => []
  | level + 1, s, table =>
    let i := vaddrToIndex vaddr (level + 1)
    let child := s.entry table i
    if !present child then
      createTableAccesses (s.requestPages 1).1 table vaddr i ++
        mapWalkAccesses vaddr level (createTable s table vaddr i) (childTable (palloc s 1).1)
    else mapWalkAccesses vaddr level s (childTable child)

def pagingMapAccesses (s : Machine σ) (table vaddr paddr : U64) (flags : BitVec 8) : List Access :=
  mapWalkAccesses vaddr 3 s table ++
    [.leaf vaddr (pagingMapWalk vaddr 3 s table).2 (vaddrToIndex vaddr 0) (paddr ||| flags.setWidth 64 ||| PAGING_PRESENT),
      .flush vaddr]

omit [FrameSource σ] in
def pagingUnmapAccesses (s : Machine σ) (table vaddr : U64) : List Access :=
  match pagingUnmapWalk vaddr 3 s table with
  | none => []
  | some table => [.leaf vaddr table (vaddrToIndex vaddr 0) 0, .flush vaddr]

theorem runAccesses_append (log log' : List Access) :
    runAccesses s (log ++ log') = runAccesses (runAccesses s log) log' := List.foldl_append

omit [FrameSource σ] in
theorem entry_setEntry (s : Machine σ) (table e : U64) (i : Nat) : (s.setEntry table i e).entry table i = e :=
  Mem.read64_write64

theorem run_createTable (s : Machine σ) (table : U64) (i : Nat) :
    runAccesses s (createTableAccesses (s.requestPages 1).1 table vaddr i) = createTable s table vaddr i := by
  unfold createTableAccesses createTable
  simp only
  split
  · simp only [List.cons_append, List.nil_append, runAccesses, List.foldl_cons, List.foldl_nil, Access.run,
      entry_setEntry]
    rfl
  · rfl

theorem run_mapWalk : ∀ (level : Nat) (s : Machine σ) (table : U64),
    runAccesses s (mapWalkAccesses vaddr level s table) = (pagingMapWalk vaddr level s table).1
  | 0, _, _ => rfl
  | level + 1, s, table => by
    rw [mapWalkAccesses]
    cases hp : present (s.entry table (vaddrToIndex vaddr (level + 1))) with
    | true =>
      rw [pagingMapWalk_present hp]
      simpa using run_mapWalk level s _
    | false =>
      rw [pagingMapWalk_absent hp, ← run_mapWalk level, ← run_createTable, ← runAccesses_append, run_createTable]
      simp

theorem run_pagingMap (s : Machine σ) (table vaddr paddr : U64) (flags : BitVec 8) :
    runAccesses s (pagingMapAccesses s table vaddr paddr flags) = pagingMap s table vaddr paddr flags := by
  rw [pagingMapAccesses, runAccesses_append, run_mapWalk]
  rfl

theorem run_pagingUnmap (s : Machine σ) (table vaddr : U64) :
    runAccesses s (pagingUnmapAccesses s table vaddr) = pagingUnmap s table vaddr := by
  unfold pagingUnmapAccesses pagingUnmap
  cases pagingUnmapWalk vaddr 3 s table <;> rfl

-- ---------------------------------------------------------------------------
-- vmm.c and cow.c
-- ---------------------------------------------------------------------------

def vmmPageAccesses (s : Machine σ) (table targetVaddr : U64) (flags : BitVec 8) : List Access :=
  let entry := pagingGet s table targetVaddr
  if present entry then []
  else
    let (memory, s) := s.requestPages 1
    .request memory :: pagingMapAccesses s table targetVaddr memory flags

def vmmAccesses (s : Machine σ) (table vaddr : U64) (flags : BitVec 8) : (n : Nat) → List Access
  | 0 => []
  | n + 1 => vmmAccesses s table vaddr flags n ++
      vmmPageAccesses (vmmRequestAt s table vaddr n flags) table (vaddr + BitVec.ofNat 64 (n * 0x1000)) flags

/-- `cow_copy_on_write` up to the copy. -/
def cowRemapAccesses (s : Machine σ) (vmap vaddr : U64) : List Access :=
  let entry := pagingGet s vmap (pageStart vaddr)
  let s₁ := pagingMap s s.kernelTable kernelCopyVaddr (entry &&& ~~~0xfff#64) 0
  let s₂ := pagingUnmap s₁ vmap (pageStart vaddr)
  pagingMapAccesses s s.kernelTable kernelCopyVaddr (entry &&& ~~~0xfff#64) 0 ++
    (pagingUnmapAccesses s₁ vmap (pageStart vaddr) ++ vmmAccesses s₂ vmap (pageStart vaddr) (cowFlags entry) 1)

/-- `cow_copy_on_write` but for the copy itself. -/
def cowAccesses (s : Machine σ) (vmap vaddr : U64) : List Access :=
  if !present (pagingGet s vmap (pageStart vaddr)) then []
  else
    let t := cowRemap s vmap vaddr
    cowRemapAccesses s vmap vaddr ++
      match copyVirtual t.mem t.root (pageStart vaddr) kernelCopyVaddr 0x1000 with
      | none => []
      | some mem => pagingUnmapAccesses { t with mem } t.kernelTable kernelCopyVaddr

-- ---------------------------------------------------------------------------
-- Requests
-- ---------------------------------------------------------------------------

def requests (log : List Access) : List U64 :=
  log.filterMap fun
    | .request p => some p
    | _ => none

omit [FrameSource σ] in
@[simp] theorem requests_append (log log' : List Access) : requests (log ++ log') = requests log ++ requests log' :=
  List.filterMap_append

@[simp] theorem requests_request (p : U64) (log : List Access) : requests (.request p :: log) = p :: requests log := rfl

omit [FrameSource σ] in
theorem requests_createTable (p table vaddr : U64) (i : Nat) :
    requests (createTableAccesses p table vaddr i) = [p] := by
  unfold createTableAccesses
  simp only
  split <;> rfl

omit [FrameSource σ] in
theorem requests_pagingUnmap (s : Machine σ) (table vaddr : U64) : requests (pagingUnmapAccesses s table vaddr) = [] := by
  unfold pagingUnmapAccesses
  split <;> rfl

theorem handed_mapWalk : ∀ (level : Nat) (s : Machine σ) (table : U64),
    (pagingMapWalk vaddr level s table).1.handed = (requests (mapWalkAccesses vaddr level s table)).reverse ++ s.handed
  | 0, _, _ => rfl
  | level + 1, s, table => by
    rw [mapWalkAccesses]
    cases hp : present (s.entry table (vaddrToIndex vaddr (level + 1))) with
    | true =>
      rw [pagingMapWalk_present hp]
      simpa using handed_mapWalk level s _
    | false =>
      rw [pagingMapWalk_absent hp, handed_mapWalk level, createTable_handed]
      simp [requests_createTable]

theorem requests_pagingMap (s : Machine σ) (table vaddr paddr : U64) (flags : BitVec 8) :
    requests (pagingMapAccesses s table vaddr paddr flags) = requests (mapWalkAccesses vaddr 3 s table) := by
  rw [pagingMapAccesses, requests_append]
  exact List.append_nil _

theorem handed_pagingMap (s : Machine σ) (table vaddr paddr : U64) (flags : BitVec 8) :
    (pagingMap s table vaddr paddr flags).handed =
      (requests (pagingMapAccesses s table vaddr paddr flags)).reverse ++ s.handed := by
  rw [requests_pagingMap]
  exact handed_mapWalk 3 s table

theorem handed_vmmPage (s : Machine σ) (table v : U64) (flags : BitVec 8) :
    (vmmRequestPage s table v flags).handed = (requests (vmmPageAccesses s table v flags)).reverse ++ s.handed := by
  unfold vmmPageAccesses vmmRequestPage
  simp only
  split
  · rfl
  · rw [handed_pagingMap]
    simp [requests, Machine.requestPages]

theorem handed_vmm (s : Machine σ) (table v : U64) (flags : BitVec 8) : ∀ n : Nat,
    (vmmRequestAt s table v n flags).handed = (requests (vmmAccesses s table v flags n)).reverse ++ s.handed
  | 0 => rfl
  | n + 1 => by
    rw [vmmAccesses, requests_append, List.reverse_append, List.append_assoc, ← handed_vmm s table v flags n,
      ← handed_vmmPage]
    rfl

theorem handed_cowRemap (s : Machine σ) (vmap vaddr : U64) :
    (cowRemap s vmap vaddr).handed = (requests (cowRemapAccesses s vmap vaddr)).reverse ++ s.handed := by
  unfold cowRemap cowRemapAccesses
  simp only [requests_append, requests_pagingUnmap, List.nil_append, List.reverse_append, List.append_assoc]
  rw [handed_vmm, pagingUnmap_handed, handed_pagingMap]

theorem requests_cow {vmap : U64} (hp : present (pagingGet s vmap (pageStart vaddr)) = true) :
    requests (cowAccesses s vmap vaddr) = requests (cowRemapAccesses s vmap vaddr) := by
  rw [cowAccesses]
  simp only [hp, Bool.not_true, Bool.false_eq_true, if_false, requests_append]
  split
  · exact List.append_nil _
  · rw [requests_pagingUnmap, List.append_nil]

end ShedOS.Memory
