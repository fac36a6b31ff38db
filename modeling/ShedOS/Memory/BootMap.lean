import ShedOS.Memory.VmmRuns

/-!
# What the boot page table translates

The direct map of `kernel_table` is made of 1 GiB entries below 4 GiB and of
4 KiB entries above, the kernel's own addresses of 1 GiB entries. The 4 KiB
entries never come near the other ones.
-/

namespace ShedOS.Memory

open Bytes Loops

variable {σ : Type} {s s' : Machine σ} {m m' : Mem} {k n i a : Nat} {label label' : Labels} {new : List U64}
  {v paddr : U64} {done : Nat → Prop}

-- ---------------------------------------------------------------------------
-- Translations
-- ---------------------------------------------------------------------------

/-- The MMU gets from `v` to `a`, and the entry where it stops allows writes. -/
structure MapsTo (m : Mem) (root : Nat) (v : U64) (a : Nat) : Prop where
  translates : mmu m root v = some a
  writable : lookup m root v &&& PAGING_WRITABLE ≠ 0

abbrev directFlags : BitVec 8 := PAGING_WRITABLE.setWidth 8

theorem writable_of_bit {e : U64} (h : e.getLsbD 1 = true) : e &&& PAGING_WRITABLE ≠ 0 := by
  intro h0
  have hbit : (e &&& PAGING_WRITABLE).getLsbD 1 = false := by rw [h0]; rfl
  rw [BitVec.getLsbD_and, h] at hbit
  exact absurd hbit (by decide)

theorem hugeEntry_flags : ∀ i < 4, present (hugeEntry i) = true ∧ huge (hugeEntry i) = true ∧
    (hugeEntry i).getLsbD 1 = true ∧ frameOf (hugeEntry i) = i * 0x40000 := by decide

theorem Window.mapsTo {top : Fin 512} {first count : Nat} (h : Window k m label top first count) (hcount : count ≤ 4)
    (htop : vaddrToIndex v 3 = top.val) (hslot : vaddrToIndex v 2 = first + i) (hi : i < count) :
    MapsTo m k v (i * 0x40000000 + v.toNat % 0x40000000) := by
  obtain ⟨c, hnext, -, hentries⟩ := h
  obtain ⟨hpresent, hhuge, hwrite, hframe⟩ := hugeEntry_flags i (by omega)
  have htop : tableIndex v 3 = top := Fin.ext htop
  have hentry := hentries i (tableIndex v 2) hi hslot
  have hlast : nextTable (tableRead m c (tableIndex v 2)) = none := by rw [hentry, nextTable_hugeEntry]
  refine ⟨?_, ?_⟩
  · have hupper : nextTable (tableRead m k (tableIndex v (2 + 1))) = some c := by rw [htop, hnext]
    have hentry : tableRead m c (tableIndex v (1 + 1)) = hugeEntry i := hentry
    rw [mmu, mmuFrom_next hupper, mmuFrom_huge (hentry ▸ hpresent) (hentry ▸ hhuge), hentry, hframe,
      if_pos (by decide), Option.some.injEq]
    omega
  · rw [lookup, htop, indicesBelow, tableWalk, Radix.walk_some hnext, indicesBelow, Radix.walk_none hlast, walkValue, hentry,
      if_pos hpresent]
    exact writable_of_bit hwrite

theorem toNat_higher (h : a < 2 ^ 40) : (VADDR_HIGHER + BitVec.ofNat 64 a).toNat = 0xffff800000000000 + a := by
  rw [BitVec.toNat_add, BitVec.toNat_ofNat]
  simp only [VADDR_HIGHER, BitVec.toNat_ofNat]
  omega

theorem toNat_kernel (h : a < 2 ^ 31) : (VADDR_KERNEL + BitVec.ofNat 64 a).toNat = 0xffffffff80000000 + a := by
  rw [BitVec.toNat_add, BitVec.toNat_ofNat]
  simp only [VADDR_KERNEL, BitVec.toNat_ofNat]
  omega

theorem kernelHalf_higher (h : a < 2 ^ 40) : kernelHalf (VADDR_HIGHER + BitVec.ofNat 64 a) = true := by
  rw [kernelHalf, vaddrToIndex_eq, toNat_higher h]
  exact decide_eq_true (by omega)

theorem mapsTo_direct (hh : MeetsNoHuge m k (VADDR_HIGHER + BitVec.ofNat 64 a) 3) (ha : a < 2 ^ 40)
    (hlookup : lookup m k (VADDR_HIGHER + BitVec.ofNat 64 a) = dataEntry (a / 0x1000) directFlags) :
    MapsTo m k (VADDR_HIGHER + BitVec.ofNat 64 a) a := by
  have hframe : a / 0x1000 < frameLimit := by
    unfold frameLimit
    omega
  refine ⟨?_, ?_⟩
  · rw [mmu_lookup hh, hlookup, leafAddr, present_dataEntry, if_pos rfl, frameOf_dataEntry hframe, toNat_higher ha,
      Option.some.injEq]
    omega
  · rw [hlookup, dataEntry, BitVec.or_assoc]
    refine writable_of_bit ?_
    rw [getLsbD_frame_or (by decide)]
    decide

-- ---------------------------------------------------------------------------
-- The tables while they are made
-- ---------------------------------------------------------------------------

/-- `done` are the addresses of the memory map that have their entries. -/
structure BootMap (k : Nat) (s : Machine σ) (label : Labels) (done : Nat → Prop) : Prop extends BootInv k s label where
  direct : Window k s.mem label 256 0 4
  kernel : Window k s.mem label 511 510 2
  user : ∀ v, kernelHalf v = false → lookup s.mem k v = 0
  pages : ∀ a, done a → 2 ^ 32 ≤ a → a < 2 ^ 40 →
    lookup s.mem k (VADDR_HIGHER + BitVec.ofNat 64 a) = dataEntry (a / 0x1000) directFlags

theorem BootMap.mono {done' : Nat → Prop} (h : BootMap k s label done) (hle : ∀ a, 2 ^ 32 ≤ a → done' a → done a) :
    BootMap k s label done' :=
  ⟨h.toBootInv, h.direct, h.kernel, h.user, fun a ha hlow hhigh => h.pages a (hle a hlow ha) hlow hhigh⟩

def KeepsUpper (m : Mem) (label : Labels) (m' : Mem) : Prop :=
  ∀ n l i, label n = some l → l.depth < 3 → present (tableRead m n i) = true → tableRead m' n i = tableRead m n i

theorem keepsUpper_writeLeaf {g : Nat} {i : Fin 512} {e : U64} {l : Label} (hg : label g = some l) (hl : l.depth = 3) :
    KeepsUpper m label (writeEntry m g i e) := by
  intro n l' j hn hd _
  rw [tableRead_writeEntry, if_neg]
  rintro ⟨rfl, -⟩
  rw [hg] at hn
  obtain rfl := Option.some.inj hn
  omega

theorem KeepsUpper.trans {m'' : Mem} (h : KeepsUpper m label m') (h' : KeepsUpper m' label' m'')
    (hkeeps : ∀ n l, label n = some l → label' n = some l) : KeepsUpper m label m'' := by
  intro n l i hn hd hp
  have he := h n l i hn hd hp
  rw [h' n l i (hkeeps n l hn) hd (by rwa [he]), he]

theorem Window.keeps {top : Fin 512} {first count : Nat} (h : Window k m label top first count) (hcount : count ≤ 4)
    (hk : label k = some ⟨k, []⟩) (hm : KeepsUpper m label m') (hkeeps : ∀ n l, label n = some l → label' n = some l) :
    Window k m' label' top first count := by
  obtain ⟨c, hnext, hc, hentries⟩ := h
  refine ⟨c, ?_, hkeeps c _ hc, fun i x hi hx => ?_⟩
  · rw [hm k _ top hk (by simp [Label.depth]) (nextTable_eq_some.mp hnext).1, hnext]
  · have hentry := hentries i x hi hx
    rw [hm c _ x hc (by simp [Label.depth]) (by rw [hentry]; exact (hugeEntry_flags i (by omega)).1), hentry]

section Steps

variable [FrameSource σ]

theorem pagingMap_bootMap (h : BootMap k s label done) (hlow : 2 ^ 32 ≤ paddr.toNat) (hhigh : paddr.toNat < 2 ^ 40)
    (halign : paddr.toNat % 0x1000 = 0)
    (hd : DistinctFrames (pagingMap s s.kernelTable (VADDR_HIGHER + paddr) paddr directFlags).handed) :
    ∃ label', BootMap k (pagingMap s s.kernelTable (VADDR_HIGHER + paddr) paddr directFlags) label'
      fun a => done a ∨ a / 0x1000 = paddr.toNat / 0x1000 := by
  have hv : VADDR_HIGHER + paddr = VADDR_HIGHER + BitVec.ofNat 64 paddr.toNat := by
    rw [BitVec.ofNat_toNat, BitVec.setWidth_eq]
  have hhuge := h.windows _ (@not_inWindow paddr (by omega) (by omega))
  have hkeeps := pagingMap_keeps s s.kernelTable (VADDR_HIGHER + paddr) paddr directFlags
  obtain ⟨new, hnew⟩ := hkeeps.handed
  have hfresh := h.fresh (hnew ▸ hd)
  rw [h.kernelTable] at hkeeps hnew ⊢
  obtain ⟨m', g, label', hg, hleaf, hlabel, hmem⟩ := pagingMap_grows h.forest h.forest.kernel hhuge hnew hfresh
  have hu := hmem ▸ hg.update (e := paddr ||| directFlags.setWidth 64 ||| PAGING_PRESENT) h.forest.kernel hleaf
  have hupper : KeepsUpper s.mem label (pagingMap s (framePtr k) (VADDR_HIGHER + paddr) paddr directFlags).mem := by
    rw [hmem]
    exact KeepsUpper.trans (fun n l i hn _ hp => hg.entries n l i hn (.inl hp))
      (keepsUpper_writeLeaf hlabel depth_leafLabel) hg.keeps
  have hentry : paddr ||| directFlags.setWidth 64 ||| PAGING_PRESENT = dataEntry (paddr.toNat / 0x1000) directFlags := by
    rw [dataEntry]
    congr 2
    exact eq_frame_of_aligned halign
  refine ⟨label', ⟨hu.inv h.toPagingInv hkeeps hnew, fun v hv => hu.stops k v h.forest.kernel (h.windows v hv)⟩,
    h.direct.keeps (by decide) h.forest.kernel hupper hg.keeps,
    h.kernel.keeps (by decide) h.forest.kernel hupper hg.keeps, fun v hv' => ?_, fun a ha halow hahigh => ?_⟩
  · rw [hu.lookup k v h.forest.kernel, if_neg]
    · exact h.user v hv'
    · intro hsame
      have := kernelHalf_congr (samePage_iff.mp hsame).1
      rw [hv, kernelHalf_higher hhigh, hv'] at this
      cases this
  · have hsame : SamePage k k (VADDR_HIGHER + paddr) k (VADDR_HIGHER + BitVec.ofNat 64 a) ↔
        a / 0x1000 = paddr.toNat / 0x1000 := by
      rw [samePage_iff, ← BitVec.toNat_inj, toNat_pageOf, toNat_pageOf, hv, toNat_higher hhigh, toNat_higher hahigh]
      simp only [true_or, and_true]
      omega
    rw [hu.lookup k _ h.forest.kernel]
    split
    next hpage => rw [hsame.mp hpage, hentry]
    next hpage =>
      rcases ha with ha | ha
      · exact h.pages a ha halow hahigh
      · exact absurd (hsame.mpr ha) hpage

theorem pagingUnmap_bootMap (h : BootMap k s label done) : BootMap k (pagingUnmap s s.kernelTable 0) label done := by
  have hnull : ¬ InWindow 0 := by
    simp only [InWindow, vaddrToIndex_eq]
    decide
  have hhuge := h.windows 0 hnull
  have hkeeps := pagingUnmap_keeps s s.kernelTable 0
  have hhanded : (pagingUnmap s s.kernelTable 0).handed = [] ++ s.handed := by
    rw [pagingUnmap]
    split <;> rfl
  rw [h.kernelTable] at hkeeps hhanded ⊢
  have hu := pagingUnmap_spec h.forest h.forest.kernel hhuge
  have hupper : KeepsUpper s.mem label (pagingUnmap s (framePtr k) 0).mem := by
    rw [pagingUnmap, pagingUnmapWalk_descend (h.forest.bound k _ h.forest.kernel) hhuge]
    cases hleaf : tableDescend s.mem k (indicesAbove 0 3) with
    | none => exact fun n l i _ _ _ => rfl
    | some g =>
      have hlabel := Radix.descend_label h.forest.labelled (Label.depth_step k) h.forest.kernel (by simp [Label.depth])
        hleaf
      rw [foldl_step_indices] at hlabel
      simp only [Option.map_some]
      rw [Machine.setEntry_framePtr (h.forest.bound g _ hlabel) (vaddrToIndex_lt 0 0)]
      exact keepsUpper_writeLeaf (i := tableIndex 0 0) hlabel depth_leafLabel
  have hother : ∀ v, kernelHalf v = true → ¬ SamePage k k 0 k v := fun v hv hsame => by
    have := kernelHalf_congr (samePage_iff.mp hsame).1
    rw [hv] at this
    exact absurd this (by decide)
  refine ⟨⟨hu.inv h.toPagingInv hkeeps hhanded, fun v hv => hu.stops k v h.forest.kernel (h.windows v hv)⟩,
    h.direct.keeps (by decide) h.forest.kernel hupper fun _ _ hn => hn,
    h.kernel.keeps (by decide) h.forest.kernel hupper fun _ _ hn => hn, fun v hv => ?_, fun a ha hlow hhigh => ?_⟩
  · rw [hu.lookup k v h.forest.kernel, h.user v hv, ite_self]
  · rw [hu.lookup k _ h.forest.kernel, if_neg (hother _ (kernelHalf_higher hhigh))]
    exact h.pages a ha hlow hhigh

theorem mapEntryLoop_bootMap {stop : U64} (hstop : stop.toNat ≤ 2 ^ 40) :
    ∀ {fuel : Nat} {s s' : Machine σ} {paddr : U64} {label : Labels} {done : Nat → Prop}, BootMap k s label done →
      mapEntryLoop stop fuel s paddr = some s' → DistinctFrames s'.handed →
      (2 ^ 32 < stop.toNat → paddr.toNat % 0x1000 = 0) →
      ∃ label', BootMap k s' label' fun a => done a ∨ paddr.toNat ≤ a ∧ a < stop.toNat := by
  intro fuel
  induction fuel with
  | zero =>
    intro s s' paddr label done h hloop _ _
    rw [mapEntryLoop] at hloop
    split at hloop
    next => contradiction
    next hge =>
      obtain rfl := Option.some.inj hloop
      have hge : ¬ paddr.toNat < stop.toNat := fun hlt => hge (BitVec.lt_def.mpr hlt)
      exact ⟨label, h.mono fun a _ ha => ha.resolve_right (by omega)⟩
  | succ fuel ih =>
    intro s s' paddr label done h hloop hd halign
    rw [mapEntryLoop] at hloop
    split at hloop
    next hlt =>
      have hd' := (mapEntryLoop_keeps hloop).distinct hd
      have hnext := toNat_next hlt (by omega)
      have hlt := BitVec.lt_def.mp hlt
      have halign' : 2 ^ 32 < stop.toNat → (paddr + 0x1000).toNat % 0x1000 = 0 := fun habove => by
        have := halign habove
        omega
      split at hloop
      next hlow =>
        have hlow := BitVec.lt_def.mp hlow
        simp only [BitVec.toNat_ofNat] at hlow
        obtain ⟨label', h'⟩ := ih h hloop hd halign'
        refine ⟨label', h'.mono fun a habove ha => ha.imp_right fun ha => ⟨?_, ha.2⟩⟩
        -- a page that starts below 4 GiB ends there too
        have := halign (by omega)
        omega
      next hlow =>
        rw [if_neg hlow] at hd'
        rw [BitVec.lt_def] at hlow
        simp only [BitVec.toNat_ofNat] at hlow
        have haligned := halign (by omega)
        obtain ⟨label₁, h₁⟩ := pagingMap_bootMap h (by omega) (by omega) haligned hd'
        obtain ⟨label', h'⟩ := ih h₁ hloop hd halign'
        refine ⟨label', h'.mono fun a _ ha => ?_⟩
        rcases ha with ha | ha
        · exact .inl (.inl ha)
        · by_cases hpage : a / 0x1000 = paddr.toNat / 0x1000
          · exact .inl (.inr hpage)
          · exact .inr ⟨by omega, ha.2⟩
    next hge =>
      obtain rfl := Option.some.inj hloop
      have hge : ¬ paddr.toNat < stop.toNat := fun hlt => hge (BitVec.lt_def.mpr hlt)
      exact ⟨label, h.mono fun a _ ha => ha.resolve_right (by omega)⟩

/-- What the memory map has to be: it ends at 1 TiB, and above 4 GiB it consists
of pages. -/
structure Mappable (mmap : List MmapEntry) : Prop where
  ends : ∀ e ∈ mmap, e.base + e.length ≤ 2 ^ 40
  aligned : ∀ e ∈ mmap, 2 ^ 32 < e.base + e.length → e.base % 0x1000 = 0 ∧ e.length % 0x1000 = 0

theorem Mappable.directMapped {mmap : List MmapEntry} (h : Mappable mmap) : DirectMapped mmap :=
  fun e he => (h.ends e he).trans (by decide)

/-- The address belongs to an entry of the memory map. -/
def Covered (mmap : List MmapEntry) (a : Nat) : Prop := ∃ e ∈ mmap, e.base ≤ a ∧ a < e.base + e.length

theorem mapEntries_bootMap : ∀ {mmap : List MmapEntry} {s s' : Machine σ} {label : Labels} {done : Nat → Prop},
    Mappable mmap → BootMap k s label done → mapEntries mmap s = some s' → DistinctFrames s'.handed →
      ∃ label', BootMap k s' label' fun a => done a ∨ Covered mmap a
  | [], s, s', label, done, _, h, hmap, _ => by
    obtain rfl := Option.some.inj hmap
    refine ⟨label, h.mono fun a _ ha => ha.resolve_right ?_⟩
    rintro ⟨e, he, -⟩
    cases he
  | e :: rest, s, s', label, done, hm, h, hmap, hd => by
    obtain ⟨t, ht, hmap⟩ := Option.bind_eq_some_iff.mp hmap
    have hends := hm.ends e List.mem_cons_self
    have hstop := toNat_stop (hends.trans (by decide))
    have hbase : (BitVec.ofNat 64 e.base).toNat = e.base := by
      rw [BitVec.toNat_ofNat, Nat.mod_eq_of_lt]
      omega
    obtain ⟨label₁, h₁⟩ := mapEntryLoop_bootMap (by rw [hstop]; exact hends) h ht ((mapEntries_keeps hmap).distinct hd)
      fun habove => by
        rw [hbase]
        exact (hm.aligned e List.mem_cons_self (hstop ▸ habove)).1
    rw [hbase, hstop] at h₁
    obtain ⟨label', h'⟩ := mapEntries_bootMap ⟨fun e' he' => hm.ends e' (List.mem_cons_of_mem _ he'),
      fun e' he' => hm.aligned e' (List.mem_cons_of_mem _ he')⟩ h₁ hmap hd
    refine ⟨label', h'.mono fun a _ ha => ?_⟩
    rcases ha with ha | ⟨e', he', ha⟩
    · exact .inl (.inl ha)
    · rcases List.mem_cons.mp he' with rfl | he'
      · exact .inl (.inr ha)
      · exact .inr ⟨e', he', ha⟩

omit [FrameSource σ] in
theorem bootWindows_bootMap {child : Nat → Nat} (h : UpperHalf k 256 s child) :
    ∃ label, BootMap k (bootWindows s) label fun _ => False := by
  obtain ⟨label, hboot, -, hdirect, hkernel, hempty⟩ := bootWindows_spec h
  refine ⟨label, hboot, hdirect, hkernel, fun v hv => ?_, fun _ ha => ha.elim⟩
  have hslot : (tableIndex v 3).val < 256 := Nat.lt_of_not_le (of_decide_eq_false hv)
  have hnone : nextTable (tableRead (bootWindows s).mem k (tableIndex v 3)) = none := by
    rw [hempty _ hslot, nextTable_zero]
  rw [lookup, indicesBelow, tableWalk, Radix.walk_none hnone, walkValue, hempty _ hslot]
  rfl

end Steps

-- ---------------------------------------------------------------------------
-- paging_initialize
-- ---------------------------------------------------------------------------

/-- The address space of paging.h, walked from `kernel_table`. -/
structure IdentityMap (s : Machine σ) (mmap : List MmapEntry) : Prop where
  low : ∀ a < 0x100000000, MapsTo s.mem (frameOf s.kernelTable) (VADDR_HIGHER + BitVec.ofNat 64 a) a
  entries : ∀ a, Covered mmap a → MapsTo s.mem (frameOf s.kernelTable) (VADDR_HIGHER + BitVec.ofNat 64 a) a
  kernel : ∀ a < 0x80000000, MapsTo s.mem (frameOf s.kernelTable) (VADDR_KERNEL + BitVec.ofNat 64 a) a
  user : ∀ v, kernelHalf v = false → mmu s.mem (frameOf s.kernelTable) v = none

theorem BootMap.identityMap {mmap : List MmapEntry} (h : BootMap k s label (Covered mmap)) (hm : Mappable mmap) :
    IdentityMap s mmap := by
  have hroot : frameOf s.kernelTable = k := by
    rw [h.kernelTable, frameOf_framePtr (h.forest.bound k _ h.forest.kernel)]
  have hlow : ∀ a < 0x100000000, MapsTo s.mem k (VADDR_HIGHER + BitVec.ofNat 64 a) a := by
    intro a ha
    have hv := toNat_higher (a := a) (by omega)
    have hmaps := h.direct.mapsTo (v := VADDR_HIGHER + BitVec.ofNat 64 a) (i := a / 0x40000000) (by decide)
      (by rw [vaddrToIndex_eq, hv]; change _ = 256; omega) (by rw [vaddrToIndex_eq, hv]; omega) (by omega)
    rwa [hv, show a / 0x40000000 * 0x40000000 + (0xffff800000000000 + a) % 0x40000000 = a by omega] at hmaps
  have hkernel : ∀ a < 0x80000000, MapsTo s.mem k (VADDR_KERNEL + BitVec.ofNat 64 a) a := by
    intro a ha
    have hv := toNat_kernel (a := a) (by omega)
    have hmaps := h.kernel.mapsTo (v := VADDR_KERNEL + BitVec.ofNat 64 a) (i := a / 0x40000000) (by decide)
      (by rw [vaddrToIndex_eq, hv]; change _ = 511; omega) (by rw [vaddrToIndex_eq, hv]; omega) (by omega)
    rwa [hv, show a / 0x40000000 * 0x40000000 + (0xffffffff80000000 + a) % 0x40000000 = a by omega] at hmaps
  refine ⟨hroot.symm ▸ hlow, fun a ha => ?_, hroot.symm ▸ hkernel, fun v hv => ?_⟩
  · rw [hroot]
    by_cases hbelow : a < 0x100000000
    · exact hlow a hbelow
    · obtain ⟨e, he, hin⟩ := id ha
      have hends := hm.ends e he
      have hdirect := toNat_higher (a := a) (by omega)
      have habove : ¬ InWindow (VADDR_HIGHER + BitVec.ofNat 64 a) :=
        not_inWindow (by rw [BitVec.toNat_ofNat]; omega) (by rw [BitVec.toNat_ofNat]; omega)
      exact mapsTo_direct (h.windows _ habove) (by omega) (h.pages a ha (by omega) (by omega))
  · have hwin : ¬ InWindow v := by
      have hslot : ¬ 256 ≤ vaddrToIndex v 3 := of_decide_eq_false hv
      rintro (⟨htop, -⟩ | ⟨htop, -⟩) <;> omega
    rw [hroot, mmu_lookup (h.windows v hwin), h.user v hv]
    rfl

section Initialize

variable [FrameSource σ] {mmap : List MmapEntry}

theorem pagingInitialize_bootMap (hm : Mappable mmap) (hinit : pagingInitialize s mmap = some s')
    (hd : DistinctFrames s'.handed) : ∃ k label, BootMap k s' label (Covered mmap) := by
  rw [pagingInitialize_eq] at hinit
  obtain ⟨t, ht, rfl⟩ := Option.map_eq_some_iff.mp hinit
  have hdt := (pagingUnmap_keeps t t.kernelTable 0).distinct hd
  have hdw := (mapEntries_keeps ht).distinct hdt
  obtain ⟨k, child, hupper⟩ := bootTables_spec ((bootWindows_keeps _).distinct hdw)
  obtain ⟨label, hboot⟩ := bootWindows_bootMap hupper
  obtain ⟨label', hboot'⟩ := mapEntries_bootMap hm hboot ht hdt
  have h := pagingUnmap_bootMap hboot'
  exact ⟨k, label', ⟨⟨⟨h.forest, h.kernelTable, h.handed⟩, h.windows⟩, h.direct, h.kernel, h.user,
    fun a ha => h.pages a (.inr ha)⟩⟩

/-- Whatever the memory map, as long as its frames are fresh, `kernel_table`
translates as it is documented. -/
theorem paging_initialize_identity (hm : Mappable mmap)
    (hd : ∀ s', pagingInitialize s mmap = some s' → DistinctFrames s'.handed) :
    ∃ s', pagingInitialize s mmap = some s' ∧ IdentityMap s' mmap := by
  obtain ⟨s', hinit⟩ := pagingInitialize_returns (s := s) hm.directMapped
  obtain ⟨k, label, h⟩ := pagingInitialize_bootMap hm hinit (hd s' hinit)
  exact ⟨s', hinit, h.identityMap hm⟩

end Initialize

theorem mapEntryLoop_bump {stop : U64} : ∀ {fuel : Nat} {s s' : Machine Bump} {paddr : U64},
    mapEntryLoop stop fuel s paddr = some s' → s'.frames.next ≤ s.frames.next + 3 * fuel := by
  intro fuel
  induction fuel with
  | zero =>
    intro s s' paddr h
    rw [mapEntryLoop] at h
    split at h
    next => contradiction
    next => exact (congrArg (·.frames.next) (Option.some.inj h)).ge
  | succ fuel ih =>
    intro s s' paddr h
    rw [mapEntryLoop] at h
    split at h
    next =>
      have hrest := ih h
      split at hrest
      next => omega
      next =>
        have hpage := TableOp.run_bump s s.kernelTable (.map (VADDR_HIGHER + paddr) paddr directFlags)
        have hpage : (pagingMap s s.kernelTable (VADDR_HIGHER + paddr) paddr directFlags).frames.next ≤
          s.frames.next + 3 := hpage
        have hrest : s'.frames.next ≤ (pagingMap s s.kernelTable (VADDR_HIGHER + paddr) paddr directFlags).frames.next +
          3 * fuel := hrest
        omega
    next =>
      obtain rfl := Option.some.inj h
      omega

def straddlingMap : List MmapEntry := [{ base := 0xfffff000, length := 0x2000, type := 1 }]

theorem straddlingMap_mappable : Mappable straddlingMap := ⟨by decide, by decide⟩

theorem paging_initialize_identity_straddling :
    ∃ s', pagingInitialize freshMachine straddlingMap = some s' ∧ IdentityMap s' straddlingMap := by
  refine paging_initialize_identity straddlingMap_mappable fun s' hinit => ?_
  refine distinct_bump (pagingInitialize_requests hinit) ?_
  rw [pagingInitialize_eq] at hinit
  obtain ⟨t, ht, rfl⟩ := Option.map_eq_some_iff.mp hinit
  rw [straddlingMap, mapEntries] at ht
  obtain ⟨t', ht', hrest⟩ := Option.bind_eq_some_iff.mp ht
  obtain rfl := Option.some.inj hrest
  have hle := mapEntryLoop_bump ht'
  have hroot : (bootRoot freshMachine).frames.next = 1 := rfl
  rw [bootWindows_frames, bootTables, createKernelEntry_loop_bump, hroot] at hle
  change (pagingUnmap t' t'.kernelTable 0).frames.next ≤ frameLimit
  rw [pagingUnmap_frames]
  exact hle.trans (by decide)

end ShedOS.Memory
