import ShedOS.Memory.PagingRuns

/-!
# Virtual memory

`vmm_request_at` and `cow_copy_on_write`, and the accesses that go through the
MMU. The MMU reads the same tables as `paging_get`; what the TLB may still hold
is not considered here.
-/

namespace ShedOS.Memory

open Bytes Libk Loops

variable {σ : Type} {m m' : Mem} {n r k level i : Nat} {v v' : U64} {e : U64}

-- ---------------------------------------------------------------------------
-- The MMU
-- ---------------------------------------------------------------------------

/-- The walk of the MMU from the table in frame `n` down: the physical address
for `v`, `none` for a page fault. The huge bit is reserved in the uppermost
table. -/
def mmuFrom (m : Mem) (v : U64) : (level n : Nat) → Option Nat
  | 0, n =>
    let e := entryAt m n (vaddrToIndex v 0)
    if present e then some (0x1000 * frameOf e + v.toNat % 0x1000) else none
  | level + 1, n =>
    let e := entryAt m n (vaddrToIndex v (level + 1))
    if !present e then none
    else if huge e then
      if level < 2 then some (0x1000 * frameOf e + v.toNat % 2 ^ (12 + 9 * (level + 1))) else none
    else mmuFrom m v level (frameOf e)

def mmu (m : Mem) (root : Nat) (v : U64) : Option Nat := mmuFrom m v 3 root

/-- `memcpy` on virtual addresses; `none` is a page fault. -/
def copyVirtual (m : Mem) (root : Nat) (dst src : U64) : (n : Nat) → Option Mem
  | 0 => some m
  | n + 1 => do
    let m ← copyVirtual m root dst src n
    let x ← mmu m root (src + BitVec.ofNat 64 n)
    let y ← mmu m root (dst + BitVec.ofNat 64 n)
    return m.setByte y (m x)

def Machine.root (s : Machine σ) : Nat := frameOf s.cr3

-- ---------------------------------------------------------------------------
-- vmm.c and cow.c
-- ---------------------------------------------------------------------------

/-- One round of the loop of `vmm_request_at`. -/
def vmmRequestPage [FrameSource σ] (s : Machine σ) (table targetVaddr : U64) (flags : BitVec 8) : Machine σ :=
  let entry := pagingGet s table targetVaddr
  if present entry then s
  else
    let (memory, s) := s.requestPages 1
    pagingMap s table targetVaddr memory flags

def vmmRequestAt [FrameSource σ] (s : Machine σ) (table vaddr : U64) (n : Nat) (flags : BitVec 8) : Machine σ :=
  upto (fun i s => vmmRequestPage s table (vaddr + BitVec.ofNat 64 (i * 0x1000)) flags) s n

def kernelCopyVaddr : U64 := 0xffff810200000000#64

/-- `vmap` is `current_task->vmap`; `none` where the copy faults. -/
def cowCopyOnWrite [FrameSource σ] (s : Machine σ) (vmap vaddr : U64) : Option (Bool × Machine σ) := do
  let offendingPage := vaddr &&& ~~~0xfff#64
  let entry := pagingGet s vmap offendingPage
  if !present entry then return (false, s)
  let s := pagingMap s s.kernelTable kernelCopyVaddr (entry &&& ~~~0xfff#64) 0
  let s := pagingUnmap s vmap offendingPage
  let s := vmmRequestAt s vmap offendingPage 1 (((entry &&& 0xfff#64) ||| PAGING_WRITABLE).setWidth 8)
  let mem ← copyVirtual s.mem s.root offendingPage kernelCopyVaddr 0x1000
  let s := pagingUnmap { s with mem } s.kernelTable kernelCopyVaddr
  return (true, s)

-- ---------------------------------------------------------------------------
-- Translations and lookups
-- ---------------------------------------------------------------------------

def leafAddr (e v : U64) : Option Nat :=
  if present e then some (0x1000 * frameOf e + v.toNat % 0x1000) else none

theorem mmuFrom_absent (hp : present (tableRead m n (tableIndex v (level + 1))) = false) : mmuFrom m v (level + 1) n = none := by
  have hp : present (entryAt m n (vaddrToIndex v (level + 1))) = false := hp
  simp only [mmuFrom, hp, Bool.not_false, if_true]

theorem mmuFrom_huge (hp : present (tableRead m n (tableIndex v (level + 1))) = true)
    (hh : huge (tableRead m n (tableIndex v (level + 1))) = true) : mmuFrom m v (level + 1) n =
      if level < 2 then some (0x1000 * frameOf (tableRead m n (tableIndex v (level + 1))) + v.toNat % 2 ^ (12 + 9 * (level + 1)))
      else none := by
  have hp : present (entryAt m n (vaddrToIndex v (level + 1))) = true := hp
  have hh : huge (entryAt m n (vaddrToIndex v (level + 1))) = true := hh
  simp only [mmuFrom, hp, hh, Bool.not_true, Bool.false_eq_true, if_false, if_true]
  rfl

theorem mmuFrom_next {c : Nat} (h : nextTable (tableRead m n (tableIndex v (level + 1))) = some c) :
    mmuFrom m v (level + 1) n = mmuFrom m v level c := by
  obtain ⟨hp, hh, rfl⟩ := nextTable_eq_some.mp h
  have hp : present (entryAt m n (vaddrToIndex v (level + 1))) = true := hp
  have hh : huge (entryAt m n (vaddrToIndex v (level + 1))) = false := hh
  simp only [mmuFrom, hp, hh, Bool.not_true, Bool.false_eq_true, if_false]
  rfl

/-- Away from huge entries the MMU finds what `paging_get` finds. -/
theorem mmuFrom_eq : ∀ {level n : Nat}, MeetsNoHuge m n v level →
    mmuFrom m v level n = leafAddr (walkValue (tableWalk m n (tableIndex v level) (indicesBelow v level))) v
  | 0, n, _ => rfl
  | level + 1, n, hh => by
    rw [indicesBelow]
    cases hp : present (tableRead m n (tableIndex v (level + 1))) with
    | false =>
      have hnone : nextTable (tableRead m n (tableIndex v (level + 1))) = none := by simp [nextTable, hp]
      rw [mmuFrom_absent hp, tableWalk, Radix.walk_none hnone]
      simp [walkValue, leafAddr, hp]
    | true =>
      obtain ⟨c, hnext, hh⟩ := meetsNoHuge_succ.mp hh hp
      rw [mmuFrom_next hnext, tableWalk, Radix.walk_some hnext]
      exact mmuFrom_eq hh

theorem mmu_lookup (hh : MeetsNoHuge m r v 3) : mmu m r v = leafAddr (lookup m r v) v := mmuFrom_eq hh

end ShedOS.Memory
