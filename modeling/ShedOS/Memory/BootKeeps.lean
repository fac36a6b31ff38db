import ShedOS.Memory.BootMap

/-!
# What `paging_initialize` leaves alone

It stores in the frames it was handed and in no other, and the lower half of
`kernel_table` stays empty.
-/

namespace ShedOS.Memory

open Bytes Loops

variable {σ : Type} {s s₀ s' : Machine σ} {label : Labels} {k n r c : Nat} {v paddr : U64} {flags : BitVec 8}
  {new : List U64}

-- ---------------------------------------------------------------------------
-- One mapping
-- ---------------------------------------------------------------------------

section Map

variable [FrameSource σ]

/-- The walk stores in one slot of a root at most, the one of its address. -/
theorem pagingMapWalk_row : ∀ {level : Nat} {s : Machine σ} {n : Nat} {l : Label} {label : Labels} {new : List U64},
    Forest k s.mem label → label n = some l → l.depth + level = 3 → MeetsNoHuge s.mem n v level →
    (pagingMapWalk v level s (framePtr n)).1.handed = new ++ s.handed → FreshFrames label new →
    ∀ {r : Nat} {i : Fin 512}, label r = some ⟨r, []⟩ → i ≠ tableIndex v 3 →
      tableRead (pagingMapWalk v level s (framePtr n)).1.mem r i = tableRead s.mem r i := by
  intro level
  induction level with
  | zero => exact fun _ _ _ _ _ _ _ _ _ _ => rfl
  | succ level ih =>
    intro s n l label new hf hn hd hh hnew hfresh r i hr hi
    have hnb := hf.bound n l hn
    have hentry : s.entry (framePtr n) (vaddrToIndex v (level + 1)) = tableRead s.mem n (tableIndex v (level + 1)) :=
      Machine.entry_framePtr hnb (vaddrToIndex_lt v (level + 1))
    cases hp : present (tableRead s.mem n (tableIndex v (level + 1))) with
    | true =>
      obtain ⟨c, hnext, hh⟩ := meetsNoHuge_succ.mp hh hp
      have hc := hf.labelled n l _ c hn (by omega) hnext
      rw [pagingMapWalk_present (by rw [hentry, hp]), hentry, childTable_eq, (nextTable_eq_some.mp hnext).2.2] at hnew ⊢
      exact ih hf hc (by rw [Label.depth_step]; omega) hh hnew hfresh hr hi
    | false =>
      obtain ⟨t, c, p, new', label₁, hwalk, rfl, -, -, hc, hmem, hnew', hgrow, hlabel⟩ :=
        pagingMapWalk_attach hf hn hd hp hnew hfresh
      have hnc : c ≠ n := fun e => by
        rw [e, hn] at hc
        contradiction
      have hrc : r ≠ c := fun e => by
        rw [← e, hr] at hc
        contradiction
      have hzero : ∀ j, tableRead t.mem c j = 0 := fun j => by
        rw [hmem, tableRead_attach, if_neg (fun h => hnc h.1), if_pos rfl]
      rw [hwalk, ih hgrow.forest hlabel (by rw [Label.depth_step]; omega) (meetsNoHuge_empty hzero) hnew'
        (hfresh.later hgrow) (hgrow.keeps r _ hr) hi, hmem, tableRead_attach, if_neg, if_neg hrc]
      -- a new table hangs below a root only at the first level
      rintro ⟨rfl, rfl⟩
      obtain rfl := Option.some.inj (hn.symm.trans hr)
      obtain rfl : level = 2 := by
        simp only [Label.depth, List.length_nil] at hd
        omega
      exact hi rfl

theorem pagingMap_row {i : Fin 512} (hf : Forest k s.mem label) (hn : label n = some ⟨n, []⟩)
    (hh : MeetsNoHuge s.mem n v 3) (hnew : (pagingMap s (framePtr n) v paddr flags).handed = new ++ s.handed)
    (hfresh : FreshFrames label new) (hr : label r = some ⟨r, []⟩) (hi : i ≠ tableIndex v 3) :
    tableRead (pagingMap s (framePtr n) v paddr flags).mem r i = tableRead s.mem r i := by
  have hdepth : (⟨n, []⟩ : Label).depth + 3 = 3 := rfl
  have hrow := pagingMapWalk_row hf hn hdepth hh hnew hfresh hr hi
  obtain ⟨s', g, label', hwalk, hg, hleaf⟩ := pagingMapWalk_spec hf hn hdepth hh hnew hfresh
  have hlabel := Radix.descend_label hg.forest.labelled (Label.depth_step k) (hg.keeps n _ hn) (by simp [Label.depth]) hleaf
  rw [foldl_step_indices] at hlabel
  have hrg : r ≠ g := fun e => by
    have hpath := leaf_path_ne (depth_leafLabel (k := k) (r := n) (v := v))
    have hroot := hg.keeps r _ hr
    rw [e, hlabel] at hroot
    exact hpath (congrArg Label.path (Option.some.inj hroot))
  rw [hwalk] at hrow
  simp only [pagingMap, hwalk]
  rw [Machine.setEntry_framePtr (hg.forest.bound g _ hlabel) (vaddrToIndex_lt v 0)]
  exact (tableRead_congr fun a ha => writeEntry_byte (vaddrToIndex_lt v 0) (by rw [ha]; exact hrg)).trans hrow

end Map

-- ---------------------------------------------------------------------------
-- The loops over the memory map
-- ---------------------------------------------------------------------------

section Loops

variable [FrameSource σ] {P : Machine σ → Prop}

theorem mapEntryLoop_rule {stop : U64} (hstop : stop.toNat ≤ 2 ^ 40)
    (hmap : ∀ t paddr, P t → 0x100000000 ≤ paddr.toNat → paddr.toNat < 2 ^ 40 →
      DistinctFrames (pagingMap t t.kernelTable (VADDR_HIGHER + paddr) paddr directFlags).handed →
      P (pagingMap t t.kernelTable (VADDR_HIGHER + paddr) paddr directFlags)) :
    ∀ {fuel : Nat} {s s' : Machine σ} {paddr : U64}, P s → mapEntryLoop stop fuel s paddr = some s' →
      DistinctFrames s'.handed → P s'
  | 0, s, s', paddr, h, hloop, _ => by
    rw [mapEntryLoop] at hloop
    split at hloop
    · cases hloop
    · exact Option.some.inj hloop ▸ h
  | fuel + 1, s, s', paddr, h, hloop, hd => by
    rw [mapEntryLoop] at hloop
    split at hloop
    next hlt =>
      have hd' := (mapEntryLoop_keeps hloop).distinct hd
      have hlt := BitVec.lt_def.mp hlt
      split at hloop
      next => exact mapEntryLoop_rule hstop hmap h hloop hd
      next hlow =>
        rw [if_neg hlow] at hd'
        have hlow : 0x100000000 ≤ paddr.toNat := Nat.le_of_not_lt fun hlt => hlow (BitVec.lt_def.mpr hlt)
        exact mapEntryLoop_rule hstop hmap (hmap s paddr h hlow (by omega) hd') hloop hd
    next => exact Option.some.inj hloop ▸ h

theorem mapEntries_rule (hmap : ∀ t paddr, P t → 0x100000000 ≤ paddr.toNat → paddr.toNat < 2 ^ 40 →
      DistinctFrames (pagingMap t t.kernelTable (VADDR_HIGHER + paddr) paddr directFlags).handed →
      P (pagingMap t t.kernelTable (VADDR_HIGHER + paddr) paddr directFlags)) :
    ∀ {mmap : List MmapEntry} {s s' : Machine σ}, P s → (∀ e ∈ mmap, e.base + e.length ≤ 2 ^ 40) →
      mapEntries mmap s = some s' → DistinctFrames s'.handed → P s'
  | [], _, _, h, _, hentries, _ => Option.some.inj hentries ▸ h
  | e :: rest, s, s', h, hm, hentries, hd => by
    obtain ⟨t, ht, hentries⟩ := Option.bind_eq_some_iff.mp hentries
    have he := hm e List.mem_cons_self
    have hstop := toNat_stop (he.trans (by decide))
    have hnext := mapEntryLoop_rule (by rw [hstop]; exact he) hmap h ht ((mapEntries_keeps hentries).distinct hd)
    exact mapEntries_rule hmap hnext (fun e' he' => hm e' (List.mem_cons_of_mem _ he')) hentries hd

end Loops

-- ---------------------------------------------------------------------------
-- The invariant
-- ---------------------------------------------------------------------------

/-- Since `s₀`, stores went to frames that were handed out, and to the upper half
of `kernel_table`. -/
structure KeptAtBoot (k : Nat) (s₀ s : Machine σ) (label : Labels) : Prop extends BootInv k s label where
  low : ∀ i : Fin 512, i.val < 256 → tableRead s.mem k i = 0
  bytes : ∀ a, a / 0x1000 ∉ s.handed.map frameNo → s.mem a = s₀.mem a

section Steps

variable [FrameSource σ]

theorem KeptAtBoot.map {label : Labels} (h : KeptAtBoot k s₀ s label) (hlow : 0x100000000 ≤ paddr.toNat) (hhigh : paddr.toNat < 2 ^ 40)
    (hd : DistinctFrames (pagingMap s s.kernelTable (VADDR_HIGHER + paddr) paddr flags).handed) :
    ∃ label', KeptAtBoot k s₀ (pagingMap s s.kernelTable (VADDR_HIGHER + paddr) paddr flags) label' := by
  have hv := not_inWindow hlow (Nat.lt_trans hhigh (by decide))
  have hkeeps := pagingMap_keeps s s.kernelTable (VADDR_HIGHER + paddr) paddr flags
  obtain ⟨new, hnew⟩ := hkeeps.handed
  have hfresh := h.fresh (hnew ▸ hd)
  rw [h.kernelTable] at hkeeps hnew ⊢
  obtain ⟨label', hu⟩ := pagingMap_spec h.forest h.forest.kernel (h.windows _ hv) hnew hfresh
  have hinv := hu.inv h.toPagingInv hkeeps hnew
  refine ⟨label', ⟨hinv, fun w hw => hu.stops k w h.forest.kernel (h.windows w hw)⟩, fun i hi => ?_, fun a ha => ?_⟩
  · rw [pagingMap_row h.forest h.forest.kernel (h.windows _ hv) hnew hfresh h.forest.kernel]
    · exact h.low i hi
    · rintro rfl
      have hhalf : kernelHalf (VADDR_HIGHER + BitVec.ofNat 64 paddr.toNat) = true := kernelHalf_higher hhigh
      rw [BitVec.ofNat_toNat, BitVec.setWidth_eq] at hhalf
      exact absurd (of_decide_eq_true hhalf) (Nat.not_le_of_lt hi)
  · have hnone : label' (a / 0x1000) = none := Option.eq_none_iff_forall_ne_some.mpr fun l hl => ha (hinv.handed _ l hl)
    rw [hnew, List.map_append, List.mem_append, not_or] at ha
    rw [hu.bytes a hnone ha.1]
    exact h.bytes a ha.2

omit [FrameSource σ] in
theorem KeptAtBoot.unmapNull (h : KeptAtBoot k s₀ s label) : pagingUnmap s s.kernelTable 0 = s := by
  have hentry : s.entry s.kernelTable (vaddrToIndex 0 3) = 0 := by
    rw [h.kernelTable, Machine.entry_framePtr (h.forest.bound k _ h.forest.kernel) (vaddrToIndex_lt 0 3)]
    exact h.low ⟨vaddrToIndex 0 3, vaddrToIndex_lt 0 3⟩ (by decide)
  have hwalk : pagingUnmapWalk 0 3 s s.kernelTable = none := by
    rw [pagingUnmapWalk, hentry]
    rfl
  rw [pagingUnmap, hwalk]

end Steps

-- ---------------------------------------------------------------------------
-- The tables before the memory map
-- ---------------------------------------------------------------------------

theorem windows_bytes (slot : Nat → Nat) (count : Nat) (hc : c < frameLimit) (hslot : ∀ i < count, slot i < 512) :
    (upto (fun i s => s.setEntry (framePtr c) (slot i) (hugeEntry i)) s count).kernelTable = s.kernelTable ∧
      ∀ a, a / 0x1000 ≠ c →
        (upto (fun i s => s.setEntry (framePtr c) (slot i) (hugeEntry i)) s count).mem a = s.mem a := by
  refine upto_rule (fun _ (t : Machine σ) => t.kernelTable = s.kernelTable ∧ ∀ a, a / 0x1000 ≠ c → t.mem a = s.mem a)
    ⟨rfl, fun _ _ => rfl⟩ fun i t hi ih => ?_
  rw [Machine.setEntry_framePtr hc (hslot i hi)]
  exact ⟨ih.1, fun a ha => (writeEntry_byte (hslot i hi) ha).trans (ih.2 a ha)⟩

theorem UpperHalf.bootWindows_mem {child : Nat → Nat} {a : Nat} (h : UpperHalf k 256 s child) (h256 : a / 0x1000 ≠ child 256)
    (h511 : a / 0x1000 ≠ child 511) : (bootWindows s).mem a = s.mem a := by
  have hparent : ∀ (t : Machine σ) (j : Nat) (hj : j < 512), 256 ≤ j → t.kernelTable = framePtr k →
      tableRead t.mem k ⟨j, hj⟩ = tableRead s.mem k ⟨j, hj⟩ →
      childTable (t.entry t.kernelTable j) = framePtr (child j) := by
    intro t j hj hj' hk hread
    rw [hk, Machine.entry_framePtr h.kernelFrame.1 hj]
    rw [show entryAt t.mem k j = tableRead t.mem k ⟨j, hj⟩ from rfl, hread, h.read,
      if_pos ⟨hj', by simpa using hj⟩, childTable_eq, linkEntry,
      frameOf_frame_or (h.frame j hj' (by omega)).1 (by decide)]
  obtain ⟨hk₁, hmem₁⟩ := windows_bytes (s := s) (fun i => i) 4 (h.frame 256 (by decide) (by decide)).1
    fun i hi => by omega
  obtain ⟨t, ht⟩ : ∃ t, t = upto (fun i (s : Machine σ) => s.setEntry (framePtr (child 256)) i (hugeEntry i)) s 4 :=
    ⟨_, rfl⟩
  rw [← ht] at hk₁ hmem₁
  have hrow : ∀ i, tableRead t.mem k i = tableRead s.mem k i := fun i =>
    tableRead_congr fun a ha => hmem₁ a (by rw [ha]; exact (h.apart 256 (by decide) (by decide)).1.symm)
  obtain ⟨-, hmem₂⟩ := windows_bytes (s := t) (fun i => 510 + i) 2 (h.frame 511 (by decide) (by decide)).1
    fun i hi => by omega
  have hwin : bootWindows s =
      upto (fun i (s : Machine σ) => s.setEntry (framePtr (child 511)) (510 + i) (hugeEntry i)) t 2 := by
    unfold bootWindows
    rw [hparent s 256 (by decide) (by decide) h.kernelTable rfl]
    simp only
    rw [← ht, hparent t 511 (by decide) (by decide) (hk₁.trans h.kernelTable) (hrow _)]
  rw [hwin, hmem₂ a h511, hmem₁ a h256]

variable [FrameSource σ]

theorem bootTables_bytes (hd : DistinctFrames (bootTables s).handed) :
    ∀ a, a / 0x1000 ∉ (bootTables s).handed.map frameNo → (bootTables s).mem a = s.mem a := by
  have hhanded : (bootRoot s).handed = (s.requestPages 1).1 :: s.handed := rfl
  obtain ⟨hp, hk, -⟩ := DistinctFrames.newest (hhanded ▸ (bootTables_keeps s).distinct hd)
  have hptr : (palloc s 1).1 = framePtr (frameNo (s.requestPages 1).1) := congrArg addrOffsetHigher hp
  have hmem : (bootRoot s).mem = zeroFrame s.mem (frameNo (s.requestPages 1).1) := by
    simp only [bootRoot, hptr, Machine.memset_framePtr hk]
    rfl
  have htable : (bootRoot s).kernelTable = framePtr (frameNo (s.requestPages 1).1) := hptr
  have hmember : frameNo (s.requestPages 1).1 ∈ (bootRoot s).handed.map frameNo := by simp [hhanded]
  obtain ⟨k, hkdef⟩ : ∃ k, k = frameNo (s.requestPages 1).1 := ⟨_, rfl⟩
  rw [← hkdef] at hk hmem htable hmember
  refine (upto_rule (fun _ (t : Machine σ) => DistinctFrames t.handed → t.kernelTable = framePtr k ∧
    k ∈ t.handed.map frameNo ∧ ∀ a, a / 0x1000 ∉ t.handed.map frameNo → t.mem a = s.mem a)
    (fun _ => ⟨htable, hmember, fun a ha => ?_⟩) (fun i t hi ih hd => ?_) hd).2.2
  · rw [hmem, zeroFrame_byte fun e => ha (e ▸ hmember)]
  · obtain ⟨ht, hmember, hbytes⟩ := ih ((createKernelEntry_keeps i t).distinct hd)
    obtain ⟨hp, hc, -⟩ := DistinctFrames.newest (p := (t.requestPages 1).1) hd
    have heq := createKernelEntry_eq ht hk hi hc hp
    have hnew : (createKernelEntry i t).handed.map frameNo =
      frameNo (t.requestPages 1).1 :: t.handed.map frameNo := rfl
    refine ⟨(createKernelEntry_keeps i t).kernelTable.trans ht, hnew ▸ List.mem_cons_of_mem _ hmember, fun a ha => ?_⟩
    rw [hnew, List.mem_cons, not_or] at ha
    rw [heq]
    exact (writeEntry_byte (by omega) fun e => ha.2 (e ▸ hmember)).trans ((zeroFrame_byte ha.1).trans (hbytes a ha.2))

-- ---------------------------------------------------------------------------
-- paging_initialize
-- ---------------------------------------------------------------------------

theorem pagingInitialize_kept {mmap : List MmapEntry} (hm : ∀ e ∈ mmap, e.base + e.length ≤ 2 ^ 40)
    (hboot : pagingInitialize s mmap = some s') (hd : DistinctFrames s'.handed) :
    ∃ k label, KeptAtBoot k s s' label := by
  rw [pagingInitialize_eq] at hboot
  obtain ⟨t, ht, rfl⟩ := Option.map_eq_some_iff.mp hboot
  have hdt := (pagingUnmap_keeps t t.kernelTable 0).distinct hd
  have hdw := (mapEntries_keeps ht).distinct hdt
  obtain ⟨k, child, hupper⟩ := bootTables_spec ((bootWindows_keeps _).distinct hdw)
  obtain ⟨label, hinv, hhanded, -, -, hlow⟩ := bootWindows_spec hupper
  have hbytes := bootTables_bytes ((bootWindows_keeps _).distinct hdw)
  have hstart : KeptAtBoot k s (bootWindows (bootTables s)) label := ⟨hinv, hlow, fun a ha => by
    rw [hhanded] at ha
    have hout : ∀ j, 256 ≤ j → j < 512 → a / 0x1000 ≠ child j := fun j hj hj' e => ha (e ▸ (hupper.frame j hj hj').2)
    rw [hupper.bootWindows_mem (hout 256 (by decide) (by decide)) (hout 511 (by decide) (by decide)), hbytes a ha]⟩
  obtain ⟨label', h⟩ := mapEntries_rule (P := fun t => ∃ label, KeptAtBoot k s t label)
    (fun _ _ ⟨_, h⟩ hlow hhigh hd => h.map hlow hhigh hd) ⟨label, hstart⟩ hm ht hdt
  rw [h.unmapNull]
  exact ⟨k, label', ⟨⟨⟨h.forest, h.kernelTable, h.handed⟩, h.windows⟩, h.low, h.bytes⟩⟩

end ShedOS.Memory
