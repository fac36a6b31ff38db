import ShedOS.Heap.Contents
import ShedOS.Memory.BootKeeps

/-!
# The heap from the start of the kernel

`paging_initialize` leaves the addresses of the heap empty, `_malloc_init` makes
the first chunk there, and from then on clients have their blocks.
-/

namespace ShedOS.Heap

open Memory (U64 Machine Pmm framePtr frameOf frameLimit lookup Labels Backed Enough Served MmapEntry BootInv DistinctFrames
  VADDR_HIGHER tableRead tableIndex nextTable UpperHalf pagingMap mapEntries bootWindows bootTables pagingInitialize)

variable {s s' : Machine Pmm} {k : Nat} {label : Labels} {paddr : U64} {flags : BitVec 8} {mmap : List MmapEntry}
  {child : Nat → Nat}

-- ---------------------------------------------------------------------------
-- The addresses of the heap while the tables are made
-- ---------------------------------------------------------------------------

structure Vacant (k : Nat) (s : Machine Pmm) (label : Labels) : Prop extends BootInv k s label where
  vacant : ∀ v, InHeap v → lookup s.mem k v = 0

theorem InHeap.slot {v : U64} (h : InHeap v) : (tableIndex v 3).val = 258 := by
  unfold InHeap heapStart heapEnd at h
  show Memory.vaddrToIndex v 3 = 258
  rw [Memory.vaddrToIndex_eq]
  omega

/-- The direct map ends below the heap. -/
theorem Vacant.map (h : Vacant k s label) (hlow : 0x100000000 ≤ paddr.toNat) (hhigh : paddr.toNat < 2 ^ 40)
    (hd : DistinctFrames (pagingMap s s.kernelTable (VADDR_HIGHER + paddr) paddr flags).handed) :
    ∃ label', Vacant k (pagingMap s s.kernelTable (VADDR_HIGHER + paddr) paddr flags) label' := by
  have hnat : (VADDR_HIGHER + paddr).toNat = 0xffff800000000000 + paddr.toNat := by
    have := Memory.toNat_higher hhigh
    rwa [BitVec.ofNat_toNat, BitVec.setWidth_eq] at this
  have hv := Memory.not_inWindow hlow (Nat.lt_trans hhigh (by decide))
  have hkeeps := Memory.pagingMap_keeps s s.kernelTable (VADDR_HIGHER + paddr) paddr flags
  obtain ⟨new, hnew⟩ := hkeeps.handed
  have hfresh := h.fresh (hnew ▸ hd)
  rw [h.kernelTable] at hkeeps hnew ⊢
  obtain ⟨label', hu⟩ := Memory.pagingMap_spec h.forest h.forest.kernel (h.windows _ hv) hnew hfresh
  refine ⟨label', ⟨hu.inv h.toPagingInv hkeeps hnew, fun w hw => hu.stops k w h.forest.kernel (h.windows w hw)⟩,
    fun w hw => ?_⟩
  rw [hu.lookup k w h.forest.kernel, if_neg]
  · exact h.vacant w hw
  · intro hsame
    have hpage := congrArg BitVec.toNat (Memory.samePage_iff.mp hsame).1
    rw [Memory.toNat_pageOf, Memory.toNat_pageOf, hnat] at hpage
    unfold InHeap heapStart heapEnd at hw
    omega

theorem Vacant.unmapNull (h : Vacant k s label) : Vacant k (Memory.pagingUnmap s s.kernelTable 0) label := by
  have hnull : ¬ Memory.InWindow 0 := by
    simp only [Memory.InWindow, Memory.vaddrToIndex_eq]
    decide
  have hkeeps := Memory.pagingUnmap_keeps s s.kernelTable 0
  have hu := Memory.pagingUnmap_spec h.forest h.forest.kernel (h.windows 0 hnull)
  have hhanded : (Memory.pagingUnmap s s.kernelTable 0).handed = [] ++ s.handed := by
    rw [Memory.pagingUnmap]
    split <;> rfl
  rw [h.kernelTable] at hkeeps hhanded ⊢
  refine ⟨⟨hu.inv h.toPagingInv hkeeps hhanded, fun w hw => hu.stops k w h.forest.kernel (h.windows w hw)⟩, fun w hw => ?_⟩
  rw [hu.lookup k w h.forest.kernel, h.vacant w hw, ite_self]

theorem bootWindows_vacant (h : UpperHalf k 256 s child) {v : U64} (hv : InHeap v) : lookup (bootWindows s).mem k v = 0 := by
  have hslot : tableIndex v 3 = (258 : Fin 512) := Fin.ext hv.slot
  have hread : ∀ n i, n ≠ child 256 → n ≠ child 511 → tableRead (bootWindows s).mem n i = tableRead s.mem n i :=
    fun n i h256 h511 => Memory.tableRead_congr fun a ha =>
      h.bootWindows_mem (by rw [ha]; exact h256) (by rw [ha]; exact h511)
  have hroot : tableRead (bootWindows s).mem k (tableIndex v 3) = Memory.linkEntry (child 258) Memory.PAGING_PRESENT := by
    rw [hread k _ (h.apart 256 (by decide) (by decide)).1.symm (h.apart 511 (by decide) (by decide)).1.symm, h.read, hslot,
      if_pos (by decide)]
    rfl
  have hchild : ∀ i, tableRead (bootWindows s).mem (child 258) i = 0 := fun i => by
    have happart := (h.apart 258 (by decide) (by decide)).2
    rw [hread _ _ (fun e => absurd (happart 256 (by decide) (by decide) e) (by decide))
      fun e => absurd (happart 511 (by decide) (by decide) e) (by decide)]
    exact h.empty 258 (by decide) (by decide) i
  have hnext : nextTable (tableRead (bootWindows s).mem k (tableIndex v 3)) = some (child 258) := by
    rw [hroot]
    exact Memory.nextTable_linkEntry (h.frame 258 (by decide) (by decide)).1 Memory.linkFlags_kernel
  have hnone : nextTable (tableRead (bootWindows s).mem (child 258) (tableIndex v 2)) = none := by
    rw [hchild, Memory.nextTable_zero]
  rw [lookup, Memory.indicesBelow, Memory.tableWalk, Radix.walk_some hnext, Memory.indicesBelow, Radix.walk_none hnone,
    Memory.walkValue, hchild]
  rfl

-- ---------------------------------------------------------------------------
-- The first chunk
-- ---------------------------------------------------------------------------

structure HeapStart (k : Nat) (s : Machine Pmm) (label : Labels) : Prop where
  backed : Backed k s label
  root : s.root = k
  vacant : ∀ v, InHeap v → lookup s.mem k v = 0

theorem heapStart_boot (hm : ∀ e ∈ mmap, e.base + e.length ≤ 2 ^ 40) (hboot : pagingInitialize s mmap = some s')
    (hempty : s.handed = []) (hw : s.frames.Walled) (hreach : s.frames.frames ≤ frameLimit) (hs : Served s s') :
    ∃ k label, HeapStart k s' label := by
  have hdirect : Memory.DirectMapped mmap := fun e he => (hm e he).trans (by decide)
  obtain ⟨k, label, hback⟩ := Memory.backed_boot hdirect hboot hempty hw hreach hs
  have hd : DistinctFrames s'.handed := by
    obtain ⟨c, hframes, hhanded, -⟩ := Memory.pagingInitialize_answers hboot
    have ha := Memory.nextFrames_pmm hw (fun h0 => hs _ hhanded (List.mem_reverse.mpr h0))
    rw [hempty, List.append_nil] at hhanded
    rw [hhanded]
    exact ha.distinct hw hreach
  rw [Memory.pagingInitialize_eq] at hboot
  obtain ⟨t, ht, heq⟩ := Option.map_eq_some_iff.mp hboot
  obtain ⟨u, hu⟩ : ∃ u, u = Memory.pagingUnmap t t.kernelTable 0 := ⟨_, rfl⟩
  simp only [← hu] at heq
  rw [← heq, Memory.writeCr3_handed, hu] at hd
  have hdt := (Memory.pagingUnmap_keeps t t.kernelTable 0).distinct hd
  have hdw := (Memory.mapEntries_keeps ht).distinct hdt
  obtain ⟨k', child, hupper⟩ := Memory.bootTables_spec ((Memory.bootWindows_keeps _).distinct hdw)
  obtain ⟨label₁, hwin, -⟩ := Memory.bootWindows_spec hupper
  obtain ⟨label₂, h₂⟩ := Memory.mapEntries_rule (P := fun t => ∃ label, Vacant k' t label)
    (fun _ _ ⟨_, h⟩ hlow hhigh hd => h.map hlow hhigh hd) ⟨label₁, hwin, fun v hv => bootWindows_vacant hupper hv⟩ hm ht hdt
  have h₃ := h₂.unmapNull
  rw [← hu] at h₃
  have hk' := h₃.forest.bound k' _ h₃.forest.kernel
  have hkernel : ∀ (r : Machine Pmm) table, (Memory.pagingWriteCr3 r table).kernelTable = r.kernelTable := fun _ _ => rfl
  have htable : s'.kernelTable = framePtr k' := by rw [← heq, hkernel, h₃.kernelTable]
  obtain rfl : k = k' := by
    rw [← Memory.frameOf_framePtr (hback.forest.bound k _ hback.forest.kernel), ← hback.kernelTable, htable,
      Memory.frameOf_framePtr hk']
  refine ⟨k, label, hback, ?_, fun v hv => ?_⟩
  · rw [← heq, h₃.kernelTable, Memory.root_writeCr3 hk']
  · rw [← heq, Memory.writeCr3_mem]
    exact h₃.vacant v hv

theorem HeapStart.backs (h : HeapStart k s label) : Backs blank s k label := by
  refine ⟨⟨h.backed, ?_, fun v hv => ?_, fun v hv => ?_, fun v hv => ?_, fun v w hv => ?_⟩, fun v hv => ?_⟩
  · rw [h.root]
    exact h.backed.forest.kernel
  · rw [h.vacant v hv]
    rfl
  all_goals cases hv

theorem HeapStart.mallocInit (h : HeapStart k s label) (hframes : Enough s 4) :
    ∃ s' label', HeapMemory.mallocInit s = some s' ∧ Serves k label' ⟨s', [], [s'.kernelTable]⟩ (fun _ => none) ∧
      Represents (heapSpace s') initialChunks := by
  obtain ⟨S, hS⟩ : ∃ S, S = blank.grown s k KERNEL_HEAP_VIRTUAL_START 1 := ⟨_, rfl⟩
  have hb : Backs S s k label := hS ▸ h.backs.agree (agree_foretold _ _)
  obtain ⟨S', hinit, hrep, -⟩ := mallocInit_spec S
  have hinside : ∀ i < 1, InHeap (KERNEL_HEAP_VIRTUAL_START + BitVec.ofNat 64 i * 0x1000) := fun i hi => by
    obtain rfl : i = 0 := by omega
    exact ⟨by decide, by decide⟩
  obtain ⟨s', label', hrun, hb'⟩ := hb.mallocInit ((mallocInit_space S).trans hinit)
    ⟨hinside, served_request hframes, hS ▸ foresees_grown⟩
  have hag := hb'.agree_heapSpace
  have hrep' := hag.represents hrep
  refine ⟨s', label', hrun, ⟨hb'.agree hag, ⟨_, hrep', fun e he => (by cases he), List.Pairwise.nil⟩, fun t ht => ?_,
    fun y b hy => (by cases hy)⟩, hrep'⟩
  exact ⟨k, (List.mem_singleton.mp ht).trans hb'.backed.kernelTable, hb'.backed.forest.kernel⟩

-- ---------------------------------------------------------------------------
-- The theorem
-- ---------------------------------------------------------------------------

end ShedOS.Heap
