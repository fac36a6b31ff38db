import ShedOS.Memory.PagingInit
import ShedOS.Lib.Transition

/-!
# Page tables over whole runs

After `paging_initialize` tables are made, mapped and unmapped in any order.
Each table behaves as a map from pages to entries; the upper half of that map
is common to all tables, the lower half belongs to one table alone.
-/

namespace ShedOS.Memory

open Bytes Loops
open Relation (ReflTransGen)

variable {σ : Type} [FrameSource σ] {s s' : Machine σ} {k n r r' : Nat} {label label' : Labels}
  {v v' table table' : U64} {tables tables' : List U64}

-- ---------------------------------------------------------------------------
-- Pages
-- ---------------------------------------------------------------------------

def pageOf (v : U64) : BitVec 36 := v.extractLsb' 12 36

def kernelHalf (v : U64) : Bool := decide (256 ≤ vaddrToIndex v 3)

theorem toNat_pageOf (v : U64) : (pageOf v).toNat = v.toNat / 2 ^ 12 % 2 ^ 36 := by
  rw [pageOf, BitVec.extractLsb'_toNat, Nat.shiftRight_eq_div_pow]

def pageAddr (p : Nat) : U64 := BitVec.ofNat 64 (p * 0x1000)

theorem pageOf_pageAddr {p : Nat} : pageOf (pageAddr p) = BitVec.ofNat 36 p := by
  apply BitVec.eq_of_toNat_eq
  rw [toNat_pageOf, pageAddr, BitVec.toNat_ofNat, BitVec.toNat_ofNat]
  omega

theorem pageOf_eq_iff : pageOf v = pageOf v' ↔ ∀ level ≤ 3, tableIndex v level = tableIndex v' level := by
  simp only [← BitVec.toNat_inj, toNat_pageOf, tableIndex, Fin.mk.injEq, vaddrToIndex_eq]
  constructor
  · intro h
    refine forall_level ?_ ?_ ?_ ?_ <;> omega
  · intro h
    have h0 := h 0 (by decide)
    have h1 := h 1 (by decide)
    have h2 := h 2 (by decide)
    have h3 := h 3 (by decide)
    omega

theorem kernelHalf_congr (h : pageOf v = pageOf v') : kernelHalf v = kernelHalf v' := by
  have hi : vaddrToIndex v 3 = vaddrToIndex v' 3 :=
    congrArg (fun i : Fin 512 => i.val) (pageOf_eq_iff.mp h 3 (by decide))
  rw [kernelHalf, kernelHalf, hi]

theorem samePage_iff :
    SamePage k r v r' v' ↔ pageOf v = pageOf v' ∧ (r = r' ∨ kernelHalf v = true) := by
  rw [pageOf_eq_iff]
  constructor
  · intro h
    have hi := samePage_indices h
    refine ⟨hi, ?_⟩
    have hroot := congrArg Label.root h.1
    simp only [leafLabel, Label.home, ← hi 3 (by decide)] at hroot
    split at hroot
    next hge => exact .inr (decide_eq_true hge)
    next => exact .inl hroot
  · rintro ⟨hi, hr⟩
    refine ⟨?_, hi 0 (by decide)⟩
    simp only [leafLabel, indicesAbove, hi 3 (by decide), hi 2 (by decide), hi 1 (by decide)]
    congr 1
    rcases hr with rfl | hge
    · rfl
    · have hge : 256 ≤ (tableIndex v 3).val := of_decide_eq_true hge
      rw [hi 3 (by decide)] at hge
      simp [Label.home, hge]

-- ---------------------------------------------------------------------------
-- Operations
-- ---------------------------------------------------------------------------

def meetsHuge (s : Machine σ) (vaddr : U64) : (level : Nat) → U64 → Bool
  | 0, _ => false
  | level + 1, table =>
    let child := s.entry table (vaddrToIndex vaddr (level + 1))
    present child && (huge child || meetsHuge s vaddr level (childTable child))

inductive TableOp where
  | map (vaddr paddr : U64) (flags : BitVec 8)
  | unmap (vaddr : U64)
  deriving DecidableEq, Repr

namespace TableOp

def vaddr : TableOp → U64
  | map v _ _ => v
  | unmap v => v

/-- The entry an operation leaves for its page. -/
def entry : TableOp → U64
  | map _ p f => p ||| f.setWidth 64 ||| PAGING_PRESENT
  | unmap _ => 0

def run (s : Machine σ) (table : U64) : TableOp → Machine σ
  | map v p f => pagingMap s table v p f
  | unmap v => pagingUnmap s table v

end TableOp

/-- One call, with the tables that `paging_create_empty` has made so far. -/
inductive PagingStep : Machine σ × List U64 → Machine σ × List U64 → Prop
  | create (s : Machine σ) (tables : List U64) :
    PagingStep (s, tables) ((pagingCreateEmpty s).2, (pagingCreateEmpty s).1 :: tables)
  | op (s : Machine σ) (tables : List U64) (table : U64) (o : TableOp)
      (htable : table ∈ s.kernelTable :: tables) (hhuge : meetsHuge s o.vaddr 3 table = false) :
    PagingStep (s, tables) (o.run s table, tables)

omit [FrameSource σ] in
theorem meetsHuge_eq : ∀ {level n : Nat}, n < frameLimit →
    meetsHuge s v level (framePtr n) =
      stopsHuge (tableWalk s.mem n (tableIndex v level) (indicesBelow v level)) := by
  intro level
  induction level with
  | zero => exact fun _ => rfl
  | succ level ih =>
    intro n hn
    have hentry : s.entry (framePtr n) (vaddrToIndex v (level + 1)) =
        tableRead s.mem n (tableIndex v (level + 1)) :=
      Machine.entry_framePtr hn (vaddrToIndex_lt v (level + 1))
    rw [meetsHuge, indicesBelow]
    simp only [hentry]
    cases hnext : nextTable (tableRead s.mem n (tableIndex v (level + 1))) with
    | none =>
      rw [tableWalk, Radix.walk_none hnext]
      unfold nextTable at hnext
      cases hp : present (tableRead s.mem n (tableIndex v (level + 1))) <;>
        cases hh : huge (tableRead s.mem n (tableIndex v (level + 1))) <;>
        simp [hp, hh, stopsHuge] at hnext ⊢
    | some c =>
      obtain ⟨hp, hh, rfl⟩ := nextTable_eq_some.mp hnext
      rw [tableWalk, Radix.walk_some hnext, hp, hh, childTable_eq]
      exact ih (nextTable_lt hnext)

-- ---------------------------------------------------------------------------
-- What one step preserves
-- ---------------------------------------------------------------------------

structure TablesInv (k : Nat) (s : Machine σ) (tables : List U64) (label : Labels) : Prop
    extends PagingInv k s label where
  roots : ∀ t ∈ tables, ∃ r, t = framePtr r ∧ label r = some ⟨r, []⟩

omit [FrameSource σ] in
theorem TablesInv.root (h : TablesInv k s tables label) (ht : table ∈ s.kernelTable :: tables) :
    ∃ r, table = framePtr r ∧ label r = some ⟨r, []⟩ := by
  rcases List.mem_cons.mp ht with rfl | ht
  · exact ⟨k, h.kernelTable, h.forest.kernel⟩
  · exact h.roots table ht

theorem TableOp.keeps (s : Machine σ) (table : U64) (o : TableOp) : s.Keeps (o.run s table) := by
  cases o with
  | map v p f => exact pagingMap_keeps s table v p f
  | unmap v => exact pagingUnmap_keeps s table v

theorem TableOp.updates {o : TableOp} (h : PagingInv k s label) (hn : label n = some ⟨n, []⟩)
    (hh : meetsHuge s o.vaddr 3 (framePtr n) = false)
    (hd : DistinctFrames (o.run s (framePtr n)).handed) :
    ∃ new label', Updates k new n o.vaddr o.entry s.mem label (o.run s (framePtr n)).mem label' ∧
      PagingInv k (o.run s (framePtr n)) label' := by
  have hkeeps := o.keeps s (framePtr n)
  rw [meetsHuge_eq (h.forest.bound n _ hn)] at hh
  cases o with
  | map v p f =>
    obtain ⟨new, hnew⟩ := hkeeps.handed
    obtain ⟨label', hu⟩ := pagingMap_spec h.forest hn hh hnew (h.fresh (hnew ▸ hd))
    exact ⟨new, label', hu, hu.inv h hkeeps hnew⟩
  | unmap v =>
    have hu := pagingUnmap_spec h.forest hn hh
    refine ⟨[], label, hu, hu.inv h hkeeps ?_⟩
    show (pagingUnmap s (framePtr n) v).handed = s.handed
    rw [pagingUnmap]
    split <;> rfl

/-- Lookups after an operation, in all tables. No walk meets a new huge entry. -/
theorem TablesInv.op {o : TableOp} (h : TablesInv k s tables label)
    (ht : table ∈ s.kernelTable :: tables) (hh : meetsHuge s o.vaddr 3 table = false)
    (hd : DistinctFrames (o.run s table).handed) :
    (∃ label', TablesInv k (o.run s table) tables label') ∧
      ∀ t ∈ s.kernelTable :: tables, ∀ v,
        (pagingGet (o.run s table) t v =
          if pageOf v = pageOf o.vaddr ∧ (t = table ∨ kernelHalf v = true) then o.entry
          else pagingGet s t v) ∧
        (meetsHuge s v 3 t = false → meetsHuge (o.run s table) v 3 t = false) := by
  obtain ⟨n, rfl, hn⟩ := h.root ht
  obtain ⟨new, label', hu, hinv⟩ := TableOp.updates h.toPagingInv hn hh hd
  refine ⟨⟨label', hinv, fun t ht => ?_⟩, fun t ht v => ⟨?_, ?_⟩⟩
  · obtain ⟨r, rfl, hr⟩ := h.roots t ht
    exact ⟨r, rfl, hu.keeps r _ hr⟩
  · obtain ⟨r, rfl, hr⟩ := h.root ht
    have hrb := h.forest.bound r _ hr
    have hptr : framePtr r = framePtr n ↔ n = r := by
      constructor
      · intro e
        rw [← frameOf_framePtr hrb, e, frameOf_framePtr (h.forest.bound n _ hn)]
      · exact fun e => congrArg framePtr e.symm
    rw [pagingGet_lookup hrb, pagingGet_lookup hrb, hu.lookup r v hr]
    refine if_congr ?_ rfl rfl
    rw [samePage_iff, hptr, @eq_comm _ (pageOf v)]
    exact and_congr_right fun hp => by rw [kernelHalf_congr hp]
  · obtain ⟨r, rfl, hr⟩ := h.root ht
    rw [meetsHuge_eq (h.forest.bound r _ hr), meetsHuge_eq (h.forest.bound r _ hr)]
    exact hu.stops r v hr

theorem TablesInv.create (h : TablesInv k s tables label)
    (hd : DistinctFrames (pagingCreateEmpty s).2.handed) :
    (∃ label', TablesInv k (pagingCreateEmpty s).2 ((pagingCreateEmpty s).1 :: tables) label') ∧
      (pagingCreateEmpty s).1 ∉ s.kernelTable :: tables ∧
      (∀ t ∈ s.kernelTable :: tables, ∀ v, pagingGet (pagingCreateEmpty s).2 t v = pagingGet s t v) ∧
      (∀ v, pagingGet (pagingCreateEmpty s).2 (pagingCreateEmpty s).1 v =
        if kernelHalf v = true then pagingGet s s.kernelTable v else 0) ∧
      ∀ v, kernelHalf v = false → meetsHuge (pagingCreateEmpty s).2 v 3 (pagingCreateEmpty s).1 = false := by
  have hhanded : (pagingCreateEmpty s).2.handed = [(s.requestPages 1).1] ++ s.handed := rfl
  obtain ⟨c, hp, hc, hcb⟩ := (h.fresh (hhanded ▸ hd)).single
  have hf := h.forest
  have hkb := hf.bound k _ hf.kernel
  have heq := pagingCreateEmpty_eq h.kernelTable hkb hcb hp
  have hptr : (pagingCreateEmpty s).1 = framePtr c := by rw [heq]
  have hmem : (pagingCreateEmpty s).2.mem = emptyTable s.mem k c := by rw [heq]
  have hkeep : ∀ n l, label n = some l → rootLabel label c n = some l := fun n l => rootLabel_keeps hc
  have hself : rootLabel label c c = some ⟨c, []⟩ := if_pos rfl
  have hmemc : c ∈ (pagingCreateEmpty s).2.handed.map frameNo := by
    rw [hhanded, hp]
    simp only [List.cons_append, List.nil_append, List.map_cons, List.mem_cons]
    exact .inl (by rw [frameNo, toNat_frame hcb]; omega)
  refine ⟨⟨rootLabel label c, ⟨?_, ?_, ?_⟩, ?_⟩, ?_, ?_, ?_, ?_⟩
  · rw [hmem]
    exact emptyTable_forest hf hc hcb
  · exact h.kernelTable
  · intro n l hn
    unfold rootLabel at hn
    split at hn
    next e => exact e ▸ hmemc
    next => exact List.mem_cons_of_mem _ (h.handed n l hn)
  · intro t ht
    rcases List.mem_cons.mp ht with rfl | ht
    · exact ⟨c, hptr, hself⟩
    · obtain ⟨r, rfl, hr⟩ := h.roots t ht
      exact ⟨r, rfl, hkeep r _ hr⟩
  · rw [hptr]
    intro ht
    obtain ⟨r, he, hr⟩ := h.root ht
    have : c = r := by rw [← frameOf_framePtr hcb, he, frameOf_framePtr (hf.bound r _ hr)]
    rw [← this, hc] at hr
    cases hr
  · intro t ht v
    obtain ⟨r, rfl, hr⟩ := h.root ht
    have hrb := hf.bound r _ hr
    rw [pagingGet_lookup hrb, pagingGet_lookup hrb, hmem, lookup, lookup,
      emptyTable_walk hf hc hr (by simp [Label.depth])]
  · intro v
    rw [hptr, pagingGet_lookup hcb, hmem, h.kernelTable, pagingGet_lookup hkb, emptyTable_lookup hf hc hcb]
    exact if_congr (by rw [kernelHalf, decide_eq_true_iff]; rfl) rfl rfl
  · intro v hv
    have hi : ¬ 256 ≤ (tableIndex v 3).val := of_decide_eq_false hv
    have hread : tableRead (emptyTable s.mem k c) c (tableIndex v 3) = 0 := by
      rw [tableRead_emptyTable (fresh_ne_kernel hf hc), if_pos rfl, if_neg hi]
    rw [hptr, meetsHuge_eq hcb, hmem, indicesBelow, tableWalk,
      Radix.walk_none (by rw [hread, nextTable_zero]), hread]
    rfl

-- ---------------------------------------------------------------------------
-- Runs
-- ---------------------------------------------------------------------------

theorem PagingStep.keeps {x y : Machine σ × List U64} (h : PagingStep x y) : x.1.Keeps y.1 := by
  cases h with
  | create s tables => exact ⟨rfl, rfl, .single (.request _ _ 1)⟩
  | op s tables table o _ _ => exact o.keeps s table

theorem PagingStep.preserved : Transition.Preserved (@PagingStep σ _) fun x =>
    DistinctFrames x.1.handed → ∃ label, TablesInv k x.1 x.2 label := by
  intro x y hx hstep hd
  obtain ⟨label, h⟩ := hx (hstep.keeps.distinct hd)
  cases hstep with
  | create s tables => exact (h.create hd).1
  | op s tables table o htable hhuge => exact (h.op htable hhuge hd).1

theorem tablesInv_run {mmap : List MmapEntry} {s₀ s₁ : Machine σ} (hm : DirectMapped mmap)
    (hinit : pagingInitialize s₀ mmap = some s₁)
    (hrun : ReflTransGen PagingStep (s₁, []) (s, tables)) (hd : DistinctFrames s.handed) :
    ∃ k label, TablesInv k s tables label := by
  have hstart : DistinctFrames s₁.handed → ∃ k label, PagingInv k s₁ label :=
    pagingInitialize_spec hm hinit
  have hkeeps : s₁.Keeps s := by
    have hstep : Transition.Preserved PagingStep fun x : Machine σ × List U64 => s₁.Keeps x.1 :=
      fun _ _ h hstep => h.trans hstep.keeps
    exact hstep.run (.refl s₁) hrun
  obtain ⟨k, label, h⟩ := hstart (hkeeps.distinct hd)
  exact ⟨k, PagingStep.preserved.run (fun _ => ⟨label, h, by simp⟩) hrun hd⟩

def runOps (s : Machine σ) (table : U64) (ops : List TableOp) : Machine σ :=
  ops.foldl (fun s o => o.run s table) s

def NoneMeetsHuge (table : U64) : Machine σ → List TableOp → Prop
  | _, [] => True
  | s, o :: ops => meetsHuge s o.vaddr 3 table = false ∧ NoneMeetsHuge table (o.run s table) ops

/-- The specification: the entry of the last operation on the page of `v`. -/
def lastEntry (v old : U64) (ops : List TableOp) : U64 :=
  ops.foldl (fun e o => if pageOf v = pageOf o.vaddr then o.entry else e) old

theorem runOps_keeps (table : U64) : ∀ (ops : List TableOp) (s : Machine σ), s.Keeps (runOps s table ops)
  | [], s => .refl s
  | o :: ops, s => (o.keeps s table).trans (runOps_keeps table ops _)

theorem runOps_get : ∀ {ops : List TableOp} {s : Machine σ} {label : Labels},
    TablesInv k s tables label → table ∈ tables → NoneMeetsHuge table s ops →
    DistinctFrames (runOps s table ops).handed →
    pagingGet (runOps s table ops) table v = lastEntry v (pagingGet s table v) ops
  | [], _, _, _, _, _, _ => rfl
  | o :: ops, s, label, h, ht, hh, hd => by
    have ht' : table ∈ s.kernelTable :: tables := List.mem_cons_of_mem _ ht
    obtain ⟨⟨label', h'⟩, hget⟩ := h.op ht' hh.1 ((runOps_keeps table ops _).distinct hd)
    have := (hget table ht' v).1
    simp only [true_or, and_true] at this
    rw [lastEntry, List.foldl_cons, ← this]
    exact runOps_get h' ht hh.2 hd

/-- It is enough to look at the addresses in the first state. -/
theorem noneMeetsHuge_of_first : ∀ {ops : List TableOp} {s : Machine σ} {label : Labels},
    TablesInv k s tables label → table ∈ tables →
    (∀ o ∈ ops, meetsHuge s o.vaddr 3 table = false) → DistinctFrames (runOps s table ops).handed →
    NoneMeetsHuge table s ops
  | [], _, _, _, _, _, _ => trivial
  | o :: ops, s, label, h, ht, hh, hd => by
    have ht' : table ∈ s.kernelTable :: tables := List.mem_cons_of_mem _ ht
    have ho := hh o List.mem_cons_self
    obtain ⟨⟨label', h'⟩, hget⟩ := h.op ht' ho ((runOps_keeps table ops _).distinct hd)
    refine ⟨ho, noneMeetsHuge_of_first h' ht (fun o' ho' => ?_) hd⟩
    exact (hget table ht' o'.vaddr).2 (hh o' (List.mem_cons_of_mem _ ho'))

/-- A page table is a map from pages to entries. -/
theorem page_table_is_map {mmap : List MmapEntry} (s₀ : Machine σ) (hm : DirectMapped mmap) :
    ∃ s₁, pagingInitialize s₀ mmap = some s₁ ∧ ∀ (s₂ : Machine σ) (tables : List U64),
      ReflTransGen PagingStep (s₁, []) (s₂, tables) →
      ∀ table s₃, pagingCreateEmpty s₂ = (table, s₃) →
      ∀ ops, NoneMeetsHuge table s₃ ops → DistinctFrames (runOps s₃ table ops).handed →
      ∀ v, pagingGet (runOps s₃ table ops) table v = lastEntry v (pagingGet s₃ table v) ops := by
  obtain ⟨s₁, hinit⟩ := pagingInitialize_returns (s := s₀) hm
  refine ⟨s₁, hinit, fun s₂ tables hrun table s₃ hcreate ops hh hd v => ?_⟩
  have hstep := PagingStep.create s₂ tables
  rw [hcreate] at hstep
  obtain ⟨k, label, h⟩ :=
    tablesInv_run hm hinit (hrun.tail hstep) ((runOps_keeps table ops s₃).distinct hd)
  exact runOps_get h List.mem_cons_self hh hd

/-- All tables share the kernel half; an operation in the user half concerns
one table only. -/
theorem kernel_half_coherent {mmap : List MmapEntry} (s₀ : Machine σ) (hm : DirectMapped mmap) :
    ∃ s₁, pagingInitialize s₀ mmap = some s₁ ∧ ∀ (s : Machine σ) (tables : List U64),
      ReflTransGen PagingStep (s₁, []) (s, tables) → DistinctFrames s.handed →
      (∀ t ∈ tables,
        (∀ i, 256 ≤ i → i < 512 → s.entry t i = s.entry s.kernelTable i) ∧
        ∀ v, kernelHalf v = true → pagingGet s t v = pagingGet s s.kernelTable v) ∧
      ∀ table ∈ s.kernelTable :: tables, ∀ o : TableOp, kernelHalf o.vaddr = false →
        meetsHuge s o.vaddr 3 table = false → DistinctFrames (o.run s table).handed →
        ∀ t ∈ s.kernelTable :: tables, t ≠ table → ∀ v,
          pagingGet (o.run s table) t v = pagingGet s t v := by
  obtain ⟨s₁, hinit⟩ := pagingInitialize_returns (s := s₀) hm
  refine ⟨s₁, hinit, fun s tables hrun hd => ?_⟩
  obtain ⟨k, label, h⟩ := tablesInv_run hm hinit hrun hd
  have hf := h.forest
  have hkb := hf.bound k _ hf.kernel
  refine ⟨fun t ht => ?_, fun table htable o ho hh hd t ht hne v => ?_⟩
  · obtain ⟨r, rfl, hr⟩ := h.roots t ht
    have hrb := hf.bound r _ hr
    rw [h.kernelTable]
    refine ⟨fun i hi hi' => ?_, fun v hv => ?_⟩
    · rw [Machine.entry_framePtr hrb hi', Machine.entry_framePtr hkb hi']
      exact hf.shared r hr ⟨i, hi'⟩ hi
    · rw [pagingGet_lookup hrb, pagingGet_lookup hkb, lookup, lookup,
        hf.walk_samePage hr hf.kernel (samePage_iff.mpr ⟨rfl, .inr hv⟩)]
  · rw [((h.op htable hh hd).2 t ht v).1, if_neg]
    rintro ⟨hp, rfl | hv⟩
    · exact hne rfl
    · rw [kernelHalf_congr hp, ho] at hv
      cases hv

-- ---------------------------------------------------------------------------
-- An allocator that hands out one frame after the other
-- ---------------------------------------------------------------------------

structure Bump where
  next : Nat

instance : FrameSource Bump where
  pmmRequestPages f n := (BitVec.ofNat 64 (0x1000 * f.next), ⟨f.next + max n 1⟩)

def Bumped (x : Bump × List U64) : Prop :=
  x.1.next ≤ frameLimit → DistinctFrames x.2 ∧ ∀ p ∈ x.2, frameNo p < x.1.next

theorem bumped_preserved : Transition.Preserved RequestStep Bumped := by
  rintro _ _ hx ⟨f, handed, n⟩ hle
  have hlt : f.next < f.next + max n 1 := by omega
  have hb : f.next < frameLimit := Nat.lt_of_lt_of_le hlt hle
  obtain ⟨hd, hmax⟩ := hx (Nat.le_of_lt hb)
  have hno : frameNo (BitVec.ofNat 64 (0x1000 * f.next)) = f.next := by
    rw [frameNo, toNat_frame hb]
    omega
  refine ⟨⟨?_, ?_, ?_⟩, ?_⟩
  · rintro p (_ | ⟨_, hp⟩)
    · show (BitVec.ofNat 64 (0x1000 * f.next)).toNat % 0x1000 = 0
      rw [toNat_frame hb]
      omega
    · exact hd.aligned p hp
  · rintro p (_ | ⟨_, hp⟩)
    · exact hno.symm ▸ hb
    · exact hd.bound p hp
  · refine List.nodup_cons.mpr ⟨fun hmem => ?_, hd.nodup⟩
    obtain ⟨p, hp, he⟩ := List.mem_map.mp hmem
    have := hmax p hp
    rw [he, show frameNo (FrameSource.pmmRequestPages f n).1 = f.next from hno] at this
    exact Nat.lt_irrefl _ this
  · rintro p (_ | ⟨_, hp⟩)
    · exact hno.symm ▸ hlt
    · exact Nat.lt_trans (hmax p hp) hlt

def freshMachine : Machine Bump := ⟨fun _ => 0, ⟨0⟩, 0, 0, []⟩

theorem distinct_bump {s : Machine Bump}
    (h : ReflTransGen RequestStep (freshMachine.frames, freshMachine.handed) (s.frames, s.handed))
    (hle : s.frames.next ≤ frameLimit) : DistinctFrames s.handed := by
  have hstart : Bumped (freshMachine.frames, freshMachine.handed) := by
    refine fun _ => ⟨⟨?_, ?_, List.nodup_nil⟩, ?_⟩
    all_goals
      intro p hp
      cases hp
  exact (bumped_preserved.run hstart h hle).1

theorem createKernelEntry_loop_bump (s : Machine Bump) (n : Nat) :
    (upto createKernelEntry s n).frames.next = s.frames.next + n :=
  upto_rule (fun i (t : Machine Bump) => t.frames.next = s.frames.next + i) rfl fun i t _ h => by
    show t.frames.next + 1 = s.frames.next + (i + 1)
    rw [h, Nat.add_assoc]

theorem bootWindows_frames (s : Machine Bump) : (bootWindows s).frames = s.frames := by
  have hloop : ∀ (t : Machine Bump) (table : U64) (slot : Nat → Nat) (n : Nat),
      (upto (fun i s => s.setEntry table (slot i) (hugeEntry i)) t n).frames = t.frames :=
    fun t table slot n => upto_rule (fun _ (t' : Machine Bump) => t'.frames = t.frames) rfl
      fun _ _ _ h => h
  exact (hloop _ _ (fun i => 510 + i) 2).trans (hloop s _ (fun i => i) 4)

omit [FrameSource σ] in
theorem pagingUnmap_frames (s : Machine σ) : (pagingUnmap s table v).frames = s.frames := by
  rw [pagingUnmap]
  split <;> rfl

theorem pagingInitialize_bump {s s' : Machine Bump} (h : pagingInitialize s [] = some s') :
    s'.frames.next = s.frames.next + 257 := by
  rw [pagingInitialize_eq] at h
  obtain ⟨t, ht, rfl⟩ := Option.map_eq_some_iff.mp h
  have htables : t.frames = (bootTables s).frames := by
    rw [← Option.some.inj ht, bootWindows_frames]
  have hroot : (bootRoot s).frames.next = s.frames.next + 1 := rfl
  show (pagingUnmap t t.kernelTable 0).frames.next = _
  rw [pagingUnmap_frames, htables, bootTables, createKernelEntry_loop_bump, hroot]

theorem pagingMapWalk_bump : ∀ (level : Nat) (s : Machine Bump) (table : U64),
    (pagingMapWalk v level s table).1.frames.next ≤ s.frames.next + level
  | 0, _, _ => Nat.le_refl _
  | level + 1, s, table => by
    cases h : present (s.entry table (vaddrToIndex v (level + 1))) with
    | true =>
      rw [pagingMapWalk_present h]
      exact Nat.le_succ_of_le (pagingMapWalk_bump level s _)
    | false =>
      rw [pagingMapWalk_absent h]
      have hframes : (createTable s table v (vaddrToIndex v (level + 1))).frames.next =
          s.frames.next + 1 := by
        simp only [createTable]
        split <;> rfl
      have := pagingMapWalk_bump level (createTable s table v (vaddrToIndex v (level + 1)))
        (childTable (palloc s 1).1)
      omega

theorem TableOp.run_bump (s : Machine Bump) (table : U64) (o : TableOp) :
    (o.run s table).frames.next ≤ s.frames.next + 3 := by
  cases o with
  | map v p f => exact pagingMapWalk_bump 3 s table
  | unmap v =>
    rw [TableOp.run, pagingUnmap_frames]
    omega

theorem runOps_bump (table : U64) : ∀ (ops : List TableOp) (s : Machine Bump),
    (runOps s table ops).frames.next ≤ s.frames.next + 3 * ops.length
  | [], _ => Nat.le_refl _
  | o :: ops, s => by
    have hstep := o.run_bump s table
    have hrest := runOps_bump table ops (o.run s table)
    rw [List.length_cons]
    exact Nat.le_trans hrest (by omega)

theorem bump_create {s₁ s : Machine Bump} (hinit : pagingInitialize freshMachine [] = some s₁)
    (hcreate : pagingCreateEmpty s₁ = (table, s)) (ops : List TableOp) (hops : ops.length ≤ 1000)
    (huser : ∀ o ∈ ops, kernelHalf o.vaddr = false) :
    NoneMeetsHuge table s ops ∧ DistinctFrames (runOps s table ops).handed := by
  have hframes : s.frames.next = 258 := by
    have : (pagingCreateEmpty s₁).2.frames.next = s₁.frames.next + 1 := rfl
    rw [hcreate, pagingInitialize_bump hinit] at this
    exact this
  have hstep := PagingStep.create s₁ []
  rw [hcreate] at hstep
  have hd : DistinctFrames (runOps s table ops).handed := by
    refine distinct_bump (((pagingInitialize_requests hinit).trans hstep.keeps.requests).trans
      (runOps_keeps table ops s).requests) ?_
    have hle := runOps_bump table ops s
    rw [hframes] at hle
    have : 258 + 3 * 1000 ≤ frameLimit := by decide
    omega
  have hds := (runOps_keeps table ops s).distinct hd
  obtain ⟨k, label, h⟩ := pagingInitialize_spec directMapped_nil hinit (hstep.keeps.distinct hds)
  have h : TablesInv k s₁ [] label := ⟨h, by simp⟩
  rw [show s = (pagingCreateEmpty s₁).2 by rw [hcreate]] at hds
  obtain ⟨⟨label', h'⟩, -, -, -, hhuge⟩ := h.create hds
  rw [hcreate] at h' hhuge
  exact ⟨noneMeetsHuge_of_first h' List.mem_cons_self (fun o ho => hhuge _ (huser o ho)) hd, hd⟩

def smallOps : List TableOp :=
  [.map 0x400000 0x5000 6, .map 0x7fff00201000 0x6000 4, .unmap 0x400abc]

theorem page_table_is_map_small :
    ∃ (s : Machine Bump) (table : U64),
      pagingGet (runOps s table smallOps) table 0x7fff00201fff = 0x6005 ∧
      pagingGet (runOps s table smallOps) table 0x400000 = 0 := by
  obtain ⟨s₁, hinit, h⟩ := page_table_is_map freshMachine directMapped_nil
  obtain ⟨⟨table, s⟩, hcreate⟩ : ∃ p, pagingCreateEmpty s₁ = p := ⟨_, rfl⟩
  obtain ⟨hh, hd⟩ := bump_create hinit hcreate smallOps (by decide) (by decide)
  have hget := h s₁ [] .refl table s hcreate smallOps hh hd
  exact ⟨s, table, hget _, hget _⟩

theorem kernel_half_coherent_small :
    ∃ (s : Machine Bump) (a b : U64), a ≠ b ∧
      (∀ v, kernelHalf v = true → pagingGet s a v = pagingGet s s.kernelTable v) ∧
      ∀ v, pagingGet ((TableOp.map 0x400000 0x5000 6).run s b) a v = pagingGet s a v := by
  obtain ⟨s₁, hinit, h⟩ := kernel_half_coherent freshMachine directMapped_nil
  have hstep := PagingStep.create s₁ []
  have hstep' := PagingStep.create (pagingCreateEmpty s₁).2 [(pagingCreateEmpty s₁).1]
  obtain ⟨a, ha⟩ : ∃ a, a = (pagingCreateEmpty s₁).1 := ⟨_, rfl⟩
  obtain ⟨s₂, hs₂⟩ : ∃ s, s = (pagingCreateEmpty s₁).2 := ⟨_, rfl⟩
  rw [← ha, ← hs₂] at hstep hstep'
  obtain ⟨b, hb⟩ : ∃ b, b = (pagingCreateEmpty s₂).1 := ⟨_, rfl⟩
  obtain ⟨s, hs⟩ : ∃ s, s = (pagingCreateEmpty s₂).2 := ⟨_, rfl⟩
  rw [← hb, ← hs] at hstep'
  have hrun : ReflTransGen PagingStep (s₁, []) (s, [b, a]) := .tail (.single hstep) hstep'
  have hframes : s.frames.next = 259 := by
    have : s.frames.next = s₁.frames.next + 1 + 1 := by rw [hs, hs₂]; rfl
    rw [this, pagingInitialize_bump hinit]
    rfl
  have hop := (TableOp.map 0x400000 0x5000 6).keeps s b
  have hd : DistinctFrames ((TableOp.map 0x400000 0x5000 6).run s b).handed := by
    refine distinct_bump (((pagingInitialize_requests hinit).trans
      ((hstep.keeps.trans hstep'.keeps).trans hop).requests)) ?_
    have := (TableOp.map 0x400000 0x5000 6).run_bump s b
    rw [hframes] at this
    exact Nat.le_trans this (by decide)
  have hds := hop.distinct hd
  obtain ⟨k, label, hinv⟩ := tablesInv_run directMapped_nil hinit (.single hstep)
    (hstep'.keeps.distinct hds)
  obtain ⟨-, hnew, -, -, hhuge⟩ := hinv.create (hs ▸ hds)
  rw [← hb] at hnew hhuge
  rw [← hs] at hhuge
  have hab : a ≠ b := fun e => hnew (by simp [← e])
  obtain ⟨hshare, hother⟩ := h s [b, a] hrun hds
  exact ⟨s, a, b, hab, (hshare a (by simp)).2, hother b (by simp) (.map 0x400000 0x5000 6) (by decide)
    (hhuge _ (by decide)) hd a (by simp) hab⟩

end ShedOS.Memory
