import ShedOS.Memory.PagingCopyFaithful
import ShedOS.Memory.PmmRuns
import ShedOS.Memory.VmmLaws

/-!
# Page tables over the frame allocator

From here on `pmm.c` stands behind `pmm_request_pages`. Every frame in use as a
table is locked in its bitmap, so what it hands out is no table, and as long as
no answer is NULL a stretch of code takes free frames one after the other.
-/

namespace ShedOS.Memory

open Bytes Loops

/-- The pointer as the code sees it; `none` cannot happen behind a wall. -/
instance : FrameSource Pmm where
  pmmRequestPages s n :=
    match pmmRequestPages s n with
    | some (addr, s') => (BitVec.ofNat 64 addr, s')
    | none => (0, s)

variable {f f' : Pmm} {s s' t : Machine Pmm} {k c n j q : Nat} {label label' : Labels} {l : Label}
  {new : List U64} {v table paddr p : U64} {flags : BitVec 8}

-- ---------------------------------------------------------------------------
-- Counting requests
-- ---------------------------------------------------------------------------

section Allocates

variable {σ : Type} [FrameSource σ]

theorem createTable_allocates (s : Machine σ) (table v : U64) (i : Nat) :
    Allocates 1 s (createTable s table v i) := by
  simp only [createTable]
  split <;> exact ⟨rfl, rfl, rfl, rfl⟩

theorem pagingMapWalk_allocates (v : U64) : ∀ (level : Nat) (s : Machine σ) (table : U64),
    ∃ c ≤ level, Allocates c s (pagingMapWalk v level s table).1
  | 0, s, _ => ⟨0, Nat.le_refl 0, .refl s⟩
  | level + 1, s, table => by
    cases h : present (s.entry table (vaddrToIndex v (level + 1))) with
    | true =>
      rw [pagingMapWalk_present h]
      obtain ⟨c, hc, ha⟩ := pagingMapWalk_allocates v level s _
      exact ⟨c, Nat.le_succ_of_le hc, ha⟩
    | false =>
      rw [pagingMapWalk_absent h]
      obtain ⟨c, hc, ha⟩ := pagingMapWalk_allocates v level (createTable s table v _) _
      exact ⟨1 + c, by omega, (createTable_allocates s table v _).trans ha⟩

theorem pagingMap_allocates (s : Machine σ) (table v paddr : U64) (flags : BitVec 8) :
    ∃ c ≤ 3, Allocates c s (pagingMap s table v paddr flags) := by
  obtain ⟨c, hc, h⟩ := pagingMapWalk_allocates v 3 s table
  exact ⟨c, hc, h.kernelTable, h.cr3, h.frames, h.handed⟩

theorem pagingUnmap_allocates (s : Machine σ) (table v : U64) :
    Allocates 0 s (pagingUnmap s table v) := by
  rw [pagingUnmap]
  split <;> exact ⟨rfl, rfl, rfl, rfl⟩

theorem vmmRequestPage_allocates (s : Machine σ) (table v : U64) (flags : BitVec 8) :
    ∃ c ≤ 4, Allocates c s (vmmRequestPage s table v flags) := by
  unfold vmmRequestPage
  simp only
  split
  · exact ⟨0, by decide, .refl s⟩
  · obtain ⟨c, hc, h⟩ := pagingMap_allocates (s.requestPages 1).2 table v (s.requestPages 1).1 flags
    exact ⟨1 + c, by omega, (allocates_palloc s).trans h⟩

theorem vmmRequestAt_allocates (s : Machine σ) (table v : U64) (flags : BitVec 8) : ∀ n : Nat,
    ∃ c ≤ 4 * n, Allocates c s (vmmRequestAt s table v n flags)
  | 0 => ⟨0, Nat.le_refl 0, .refl s⟩
  | n + 1 => by
    obtain ⟨c, hc, h⟩ := vmmRequestAt_allocates s table v flags n
    obtain ⟨d, hd, h'⟩ := vmmRequestPage_allocates (vmmRequestAt s table v n flags) table
      (v + BitVec.ofNat 64 (n * 0x1000)) flags
    exact ⟨c + d, by omega, h.trans h'⟩

theorem cowRemap_allocates (s : Machine σ) (vmap v : U64) :
    ∃ c ≤ 7, Allocates c s (cowRemap s vmap v) := by
  unfold cowRemap
  simp only
  rw [vmmRequestAt_one]
  obtain ⟨c, hc, h⟩ := pagingMap_allocates s s.kernelTable kernelCopyVaddr
    (pagingGet s vmap (pageStart v) &&& ~~~0xfff#64) 0
  obtain ⟨d, hd, h'⟩ := vmmRequestPage_allocates (pagingUnmap (pagingMap s s.kernelTable kernelCopyVaddr
    (pagingGet s vmap (pageStart v) &&& ~~~0xfff#64) 0) vmap (pageStart v)) vmap (pageStart v)
    (cowFlags (pagingGet s vmap (pageStart v)))
  exact ⟨c + 0 + d, by omega, (h.trans (pagingUnmap_allocates _ _ _)).trans h'⟩

/-- No request between `s` and `s'` was answered with NULL. -/
def Served (s s' : Machine σ) : Prop := ∀ new, s'.handed = new ++ s.handed → 0 ∉ new

omit [FrameSource σ] in
theorem Served.split {s t s' : Machine σ} {earlier later : List U64} (h : Served s s')
    (he : t.handed = earlier ++ s.handed) (hl : s'.handed = later ++ t.handed) :
    Served s t ∧ Served t s' := by
  have h0 := h (later ++ earlier) (by rw [hl, he, List.append_assoc])
  rw [List.mem_append, not_or] at h0
  constructor
  · intro new hnew
    rw [List.append_cancel_right (hnew.symm.trans he)]
    exact h0.2
  · intro new hnew
    rw [List.append_cancel_right (hnew.symm.trans hl)]
    exact h0.1

theorem Allocates.served {s s' : Machine σ} (h : Allocates c s s') (hs : Served s s') :
    0 ∉ nextFrames s.frames c := fun h0 =>
  hs _ h.handed (List.mem_reverse.mpr h0)

/-- None of the next `count` requests for a page is answered with NULL. -/
def Enough (s : Machine σ) (count : Nat) : Prop := 0 ∉ nextFrames s.frames count

theorem Enough.mono {s : Machine σ} {count count' : Nat} (h : Enough s count) (hle : count' ≤ count) : Enough s count' := by
  obtain ⟨d, rfl⟩ := Nat.exists_eq_add_of_le hle
  rw [Enough, nextFrames_add, List.mem_append, not_or] at h
  exact h.1

theorem Enough.split {s t : Machine σ} {bound rest : Nat} (h : Enough s (bound + rest)) (ha : Allocates c s t)
    (hc : c ≤ bound) : Served s t ∧ Enough t rest := by
  obtain ⟨d, rfl⟩ := Nat.exists_eq_add_of_le hc
  rw [Enough, Nat.add_assoc, nextFrames_add, List.mem_append, not_or] at h
  constructor
  · intro new hnew
    rw [← List.append_cancel_right (ha.handed.symm.trans hnew)]
    exact fun hmem => h.1 (List.mem_reverse.mp hmem)
  · have hrest : Enough t (d + rest) := by
      rw [Enough, ha.frames]
      exact h.2
    exact hrest.mono (Nat.le_add_left rest d)

end Allocates

-- ---------------------------------------------------------------------------
-- What pmm.c hands out
-- ---------------------------------------------------------------------------

theorem Pmm.Walled.frame_lt (hw : f.Walled) (h : q < f.frames) : 0x1000 * q < wordSize := by
  have := hw.total_lt
  unfold Pmm.frames at h
  omega

/-- An answer other than NULL is a frame that was free and is locked now. -/
theorem pmm_answer (hw : f.Walled) (h0 : (FrameSource.pmmRequestPages f 1).1 ≠ 0) :
    ∃ q f', FrameSource.pmmRequestPages f 1 = (BitVec.ofNat 64 (0x1000 * q), f') ∧
      q ∈ f.freeFrames ∧ f'.Walled ∧ f'.frames = f.frames ∧
      ∀ j, f'.bit j = (decide (j = q) || f.bit j) := by
  rcases pmmRequestPages_cases 1 hw with ⟨q, f', hreq, -, hlt, hrun, -, hsame, hbits⟩ | ⟨hreq, -⟩
  · have hbits : ∀ j, f'.bit j = (decide (j = q) || f.bit j) := fun j => by
      rw [hbits]
      congr 1
      exact decide_eq_decide.mpr (by omega)
    refine ⟨q, f', by simp only [FrameSource.pmmRequestPages, hreq], ⟨hlt, hrun 0 (by decide)⟩, ?_, ?_, hbits⟩
    · exact hw.of_same hsame.len hsame.totalMemory (by rw [hbits, hw.wall, Bool.or_true])
    · rw [Pmm.frames, hsame.totalMemory]
      rfl
  · exact absurd (by simp only [FrameSource.pmmRequestPages, hreq]; rfl) h0

structure Answers (f f' : Pmm) (new : List U64) : Prop where
  walled : f'.Walled
  frames : f'.frames = f.frames
  aligned : ∀ p ∈ new, p = BitVec.ofNat 64 (0x1000 * frameNo p)
  free : ∀ p ∈ new, frameNo p ∈ f.freeFrames
  nodup : (new.map frameNo).Nodup
  bits : ∀ j, f'.bit j = (decide (j ∈ new.map frameNo) || f.bit j)

theorem Answers.distinct (h : Answers f f' new) (hw : f.Walled) (hreach : f.frames ≤ frameLimit) :
    DistinctFrames new where
  aligned p hp := by
    rw [h.aligned p hp, BitVec.toNat_ofNat, Nat.mod_eq_of_lt (hw.frame_lt (h.free p hp).1)]
    exact Nat.mul_mod_right _ _
  bound p hp := Nat.lt_of_lt_of_le (h.free p hp).1 hreach
  nodup := h.nodup

theorem frameNo_frame (h : 0x1000 * q < wordSize) : frameNo (BitVec.ofNat 64 (0x1000 * q)) = q := by
  rw [frameNo, BitVec.toNat_ofNat, Nat.mod_eq_of_lt h]
  omega

theorem nextFrames_pmm : ∀ {n : Nat} {f : Pmm}, f.Walled → 0 ∉ nextFrames f n →
    Answers f (afterFrames f n) (nextFrames f n).reverse
  | 0, f, hw, _ => ⟨hw, rfl, by simp [nextFrames], by simp [nextFrames], by simp [nextFrames],
      by simp [nextFrames, afterFrames]⟩
  | n + 1, f, hw, h0 => by
    rw [nextFrames, List.mem_cons, not_or] at h0
    obtain ⟨q, f', hreq, hq, hw', hframes, hbits⟩ := pmm_answer hw (Ne.symm h0.1)
    rw [hreq] at h0
    have h := nextFrames_pmm hw' h0.2
    have hno : frameNo (BitVec.ofNat 64 (0x1000 * q)) = q := frameNo_frame (hw.frame_lt hq.1)
    have hlocked : q ∉ f'.freeFrames := fun hmem => by
      have := hmem.2
      rw [hbits, decide_eq_true rfl, Bool.true_or] at this
      contradiction
    rw [nextFrames, afterFrames, hreq, List.reverse_cons]
    refine ⟨h.walled, h.frames.trans hframes, fun p hp => ?_, fun p hp => ?_, ?_, fun j => ?_⟩
    · rcases List.mem_append.mp hp with hp | hp
      · exact h.aligned p hp
      · rw [List.mem_singleton.mp hp, hno]
    · rcases List.mem_append.mp hp with hp | hp
      · obtain ⟨hlt, hbit⟩ := h.free p hp
        rw [hbits, Bool.or_eq_false_iff] at hbit
        exact ⟨hframes ▸ hlt, hbit.2⟩
      · rwa [List.mem_singleton.mp hp, hno]
    · rw [List.map_append, List.map_singleton, hno, List.nodup_append]
      refine ⟨h.nodup, List.nodup_singleton q, fun x hx y hy => ?_⟩
      rw [List.mem_singleton.mp hy]
      rintro rfl
      obtain ⟨p, hp, he⟩ := List.mem_map.mp hx
      exact hlocked (he ▸ h.free p hp)
    · rw [h.bits, hbits, ← Bool.or_assoc, ← Bool.decide_or]
      congr 1
      rw [List.map_append, List.map_singleton, hno]
      exact decide_eq_decide.mpr (by rw [List.mem_append, List.mem_singleton])

-- ---------------------------------------------------------------------------
-- Tables in locked frames
-- ---------------------------------------------------------------------------

/-- A forest with huge entries in the windows only, in locked frames. -/
structure Backed (k : Nat) (s : Machine Pmm) (label : Labels) : Prop extends PagingInv k s label where
  windows : ∀ r v, label r = some ⟨r, []⟩ → ¬ InWindow v → MeetsNoHuge s.mem r v 3
  walled : s.frames.Walled
  reach : s.frames.frames ≤ frameLimit
  locked : ∀ n l, label n = some l → s.frames.bit n = true

theorem not_inWindow_user (h : kernelHalf v = false) : ¬ InWindow v := by
  have hi : vaddrToIndex v 3 < 256 := Nat.lt_of_not_le (of_decide_eq_false h)
  rintro (⟨h, -⟩ | ⟨h, -⟩) <;> omega

theorem noHugeBelow_backed (h : Backed k s label) (hn : label n = some ⟨n, []⟩) : NoHugeBelow s.mem 4 n := by
  have hnb := h.forest.bound n _ hn
  refine noHugeBelow_of_user hnb fun v hv => ?_
  rw [meetsHuge_eq hnb]
  exact h.windows n v hn (not_inWindow_user hv)

theorem Allocates.answers (ha : Allocates c s s') (hw : s.frames.Walled) (hs : Served s s') :
    ∃ new, s'.handed = new ++ s.handed ∧ Answers s.frames s'.frames new :=
  ⟨_, ha.handed, ha.frames ▸ nextFrames_pmm hw (ha.served hs)⟩

theorem Backed.fresh (h : Backed k s label) (ha : Answers s.frames s'.frames new) : FreshFrames label new where
  aligned := (ha.distinct h.walled h.reach).aligned
  bound := (ha.distinct h.walled h.reach).bound
  unused p hp := by
    cases hl : label (frameNo p) with
    | none => rfl
    | some l =>
      have := (ha.free p hp).2
      rw [h.locked _ l hl] at this
      contradiction
  nodup := ha.nodup

/-- The forest grew into frames that the allocator handed out. -/
theorem Backed.step (h : Backed k s label) (ha : Answers s.frames s'.frames new) (hinv : PagingInv k s' label')
    (hfresh : ∀ n l, label' n = some l → label n = some l ∨ (l.path ≠ [] ∧ n ∈ new.map frameNo))
    (hstops : ∀ r v, label r = some ⟨r, []⟩ → MeetsNoHuge s.mem r v 3 → MeetsNoHuge s'.mem r v 3) :
    Backed k s' label' where
  toPagingInv := hinv
  windows r v hr hv := by
    rcases hfresh r _ hr with hr | ⟨hpath, -⟩
    · exact hstops r v hr (h.windows r v hr hv)
    · exact absurd rfl hpath
  walled := ha.walled
  reach := ha.frames ▸ h.reach
  locked n l hn := by
    rw [ha.bits]
    rcases hfresh n l hn with hn | ⟨-, hmem⟩
    · rw [h.locked n l hn, Bool.or_true]
    · rw [decide_eq_true hmem, Bool.true_or]

-- ---------------------------------------------------------------------------
-- From the start
-- ---------------------------------------------------------------------------

section Boot

variable {σ : Type} [FrameSource σ]

theorem upto_allocates {body : Nat → Machine σ → Machine σ} {c : Nat} {s : Machine σ}
    (hbody : ∀ i t, Allocates c t (body i t)) : ∀ n, Allocates (c * n) s (upto body s n)
  | 0 => .refl s
  | n + 1 => (upto_allocates hbody n).trans (hbody n _)

theorem bootTables_allocates (s : Machine σ) : ∃ t, t.frames = s.frames ∧ t.handed = s.handed ∧
    Allocates 257 t (bootTables s) := by
  have hroot : Allocates 1 { s with kernelTable := (palloc s 1).1 } (bootRoot s) := ⟨rfl, rfl, rfl, rfl⟩
  have hentry : ∀ i (t : Machine σ), Allocates 1 t (createKernelEntry i t) := fun _ _ => ⟨rfl, rfl, rfl, rfl⟩
  have hloop := upto_allocates (s := bootRoot s) hentry 256
  exact ⟨{ s with kernelTable := (palloc s 1).1 }, rfl, rfl, hroot.trans hloop⟩

theorem bootWindows_allocates (s : Machine σ) : Allocates 0 s (bootWindows s) := by
  have hloop : ∀ (t : Machine σ) (table : U64) (slot : Nat → Nat) (n : Nat),
      Allocates 0 t (upto (fun i s => s.setEntry table (slot i) (hugeEntry i)) t n) := fun t table slot n => by
    have hentry : ∀ i (t : Machine σ), Allocates 0 t (t.setEntry table (slot i) (hugeEntry i)) :=
      fun _ _ => ⟨rfl, rfl, rfl, rfl⟩
    have hall := upto_allocates (s := t) hentry n
    rwa [Nat.zero_mul] at hall
  exact (hloop s _ (fun i => i) 4).trans (hloop _ _ (fun i => 510 + i) 2)

theorem mapEntryLoop_allocates {stop : U64} : ∀ {fuel : Nat} {s s' : Machine σ} {paddr : U64},
    mapEntryLoop stop fuel s paddr = some s' → ∃ c, Allocates c s s'
  | 0, s, s', paddr, h => by
    rw [mapEntryLoop] at h
    split at h
    · cases h
    · exact ⟨0, Option.some.inj h ▸ .refl s⟩
  | fuel + 1, s, s', paddr, h => by
    rw [mapEntryLoop] at h
    split at h
    · obtain ⟨c, hc⟩ := mapEntryLoop_allocates h
      split at hc
      · exact ⟨c, hc⟩
      · obtain ⟨d, -, hd⟩ := pagingMap_allocates s s.kernelTable (VADDR_HIGHER + paddr) paddr
          (PAGING_WRITABLE.setWidth 8)
        exact ⟨d + c, hd.trans hc⟩
    · exact ⟨0, Option.some.inj h ▸ .refl s⟩

theorem mapEntries_allocates : ∀ {mmap : List MmapEntry} {s s' : Machine σ}, mapEntries mmap s = some s' →
    ∃ c, Allocates c s s' ∧ (mmap = [] → c = 0)
  | [], s, s', h => ⟨0, Option.some.inj h ▸ .refl s, fun _ => rfl⟩
  | e :: rest, s, s', h => by
    obtain ⟨t, ht, h⟩ := Option.bind_eq_some_iff.mp h
    obtain ⟨c, hc⟩ := mapEntryLoop_allocates ht
    obtain ⟨d, hd, -⟩ := mapEntries_allocates h
    exact ⟨c + d, hc.trans hd, fun h => by cases h⟩

theorem pagingInitialize_answers {mmap : List MmapEntry} {s s' : Machine σ} (h : pagingInitialize s mmap = some s') :
    ∃ c, s'.frames = afterFrames s.frames (257 + c) ∧
      s'.handed = (nextFrames s.frames (257 + c)).reverse ++ s.handed ∧ (mmap = [] → c = 0) := by
  rw [pagingInitialize_eq] at h
  obtain ⟨t, ht, rfl⟩ := Option.map_eq_some_iff.mp h
  obtain ⟨t₀, hf, hh, htables⟩ := bootTables_allocates s
  obtain ⟨c, hc, hnil⟩ := mapEntries_allocates ht
  have hall := ((htables.trans (bootWindows_allocates _)).trans hc).trans
    (pagingUnmap_allocates t t.kernelTable 0)
  exact ⟨c, by rw [← hf]; exact hall.frames, by rw [← hf, ← hh]; exact hall.handed, hnil⟩

end Boot

def kernelOnly (k : Nat) (label : Labels) : Labels := fun n =>
  if n ≠ k ∧ label n = some ⟨n, []⟩ then none else label n

theorem kernelOnly_of (h : kernelOnly k label n = some l) : label n = some l ∧ (l = ⟨n, []⟩ → n = k) := by
  unfold kernelOnly at h
  split at h
  · cases h
  next hn =>
    refine ⟨h, fun he => ?_⟩
    by_contra hk
    exact hn ⟨hk, he ▸ h⟩

theorem Forest.kernelOnly {m : Mem} (hf : Forest k m label) : Forest k m (kernelOnly k label) where
  labelled n l i c hn hd hc := by
    have h := hf.labelled n l i c (kernelOnly_of hn).1 hd hc
    rw [Memory.kernelOnly, if_neg, h]
    rintro ⟨-, he⟩
    exact Label.step_path_ne k l i (congrArg Label.path (Option.some.inj (h.symm.trans he)))
  bound n l hn := hf.bound n l (kernelOnly_of hn).1
  root n r hn := hf.root n r (kernelOnly_of hn).1
  kernel := by rw [Memory.kernelOnly, if_neg (by simp), hf.kernel]
  upper := hf.upper
  shared r hr := hf.shared r (kernelOnly_of hr).1

theorem backed_boot {mmap : List MmapEntry} (hm : DirectMapped mmap) (hinit : pagingInitialize s mmap = some s')
    (hempty : s.handed = []) (hw : s.frames.Walled) (hreach : s.frames.frames ≤ frameLimit) (hs : Served s s') :
    ∃ k label, Backed k s' label := by
  obtain ⟨c, hframes, hhanded, -⟩ := pagingInitialize_answers hinit
  have ha := nextFrames_pmm hw (fun h0 => hs _ hhanded (List.mem_reverse.mpr h0))
  rw [← hframes] at ha
  rw [hempty, List.append_nil] at hhanded
  rw [← hhanded] at ha
  have hd := ha.distinct hw hreach
  obtain ⟨k, label, h⟩ := pagingInitialize_boot hm hinit hd
  refine ⟨k, kernelOnly k label, ⟨h.forest.kernelOnly, h.kernelTable, fun n l hn => h.handed n l (kernelOnly_of hn).1⟩,
    fun r v hr hv => ?_, ha.walled, ha.frames ▸ hreach, fun n l hn => ?_⟩
  · obtain rfl := (kernelOnly_of hr).2 rfl
    exact h.windows v hv
  · rw [ha.bits, decide_eq_true (h.handed n l (kernelOnly_of hn).1), Bool.true_or]

structure NewRoot (k c : Nat) (s : Machine Pmm) (label : Labels) (s' : Machine Pmm) (label' : Labels) : Prop where
  backed : Backed k s' label'
  table : label' c = some ⟨c, []⟩
  free : c ∈ s.frames.freeFrames
  unused : label c = none
  bits : ∀ f, s'.frames.bit f = (decide (f = c) || s.frames.bit f)
  keeps : ∀ n l, label n = some l → label' n = some l
  fresh : ∀ n l, label' n = some l → label n = some l ∨ n = c
  lookup : ∀ r v, label r = some ⟨r, []⟩ → lookup s'.mem r v = lookup s.mem r v
  slots : ∀ i : Fin 512, tableRead s'.mem c i = if 256 ≤ i.val then tableRead s.mem k i else 0
  own : ∀ v, Memory.lookup s'.mem c v = if kernelHalf v = true then Memory.lookup s.mem k v else 0
  stops : ∀ r v, label r = some ⟨r, []⟩ → MeetsNoHuge s.mem r v 3 → MeetsNoHuge s'.mem r v 3
  bytes : ∀ a, a / 0x1000 ≠ c → s'.mem a = s.mem a

theorem Backed.newRoot (h : Backed k s label) (hs : Served s (pagingCreateEmpty s).2) :
    ∃ c label', (pagingCreateEmpty s).1 = framePtr c ∧ NewRoot k c s label (pagingCreateEmpty s).2 label' := by
  have hframes : Allocates 1 s (pagingCreateEmpty s).2 := ⟨rfl, rfl, rfl, rfl⟩
  obtain ⟨new, hnew, ha⟩ := hframes.answers h.walled hs
  obtain rfl : new = [(s.requestPages 1).1] := List.append_cancel_right (hnew.symm.trans rfl)
  obtain ⟨c, hp, hc, hcb⟩ := (h.fresh ha).single
  have hf := h.forest
  have hkb := hf.bound k _ hf.kernel
  have heq := pagingCreateEmpty_eq h.kernelTable hkb hcb hp
  have hmem : (pagingCreateEmpty s).2.mem = emptyTable s.mem k c := by rw [heq]
  have hkeep : ∀ n l, label n = some l → rootLabel label c n = some l := fun n l => rootLabel_keeps hc
  have hno : frameNo (s.requestPages 1).1 = c := by
    rw [hp, frameNo, toNat_frame hcb]
    omega
  have hmemc : c ∈ [(s.requestPages 1).1].map frameNo := List.mem_singleton.mpr hno.symm
  have hlookup : ∀ v, Memory.lookup (emptyTable s.mem k c) c v =
      if kernelHalf v = true then Memory.lookup s.mem k v else 0 := fun v => by
    rw [emptyTable_lookup hf hc hcb]
    exact if_congr (by rw [kernelHalf, decide_eq_true_iff]; rfl) rfl rfl
  refine ⟨c, rootLabel label c, by rw [heq], ⟨⟨⟨?_, h.kernelTable, ?_⟩, ?_, ha.walled, ha.frames ▸ h.reach, ?_⟩, if_pos rfl,
    ?_, hc, fun f => ?_, hkeep, fun n l hn => ?_, ?_, fun i => ?_, fun v => by rw [hmem, hlookup],
    fun r v hr hh => ?_, fun a ha => ?_⟩⟩
  · rw [hmem]
    exact emptyTable_forest hf hc hcb
  · intro n l hn
    rw [hnew, List.map_append, List.mem_append]
    unfold rootLabel at hn
    split at hn
    next e => exact .inl (e ▸ hmemc)
    next => exact .inr (h.handed n l hn)
  · intro r v hr hv
    unfold rootLabel at hr
    rw [hmem]
    split at hr
    next e =>
      subst e
      by_cases hhalf : 256 ≤ (tableIndex v 3).val
      · have hf' := emptyTable_forest hf hc hcb
        have hpage : SamePage k r v k v := samePage_iff.mpr ⟨rfl, .inr (decide_eq_true hhalf)⟩
        rw [MeetsNoHuge, hf'.walk_samePage (if_pos rfl) (hkeep k _ hf.kernel) hpage,
          emptyTable_walk hf hc hf.kernel (by simp [Label.depth])]
        exact h.windows k v hf.kernel hv
      · have hread : tableRead (emptyTable s.mem k r) r (tableIndex v 3) = 0 := by
          rw [tableRead_emptyTable (fresh_ne_kernel hf hc), if_pos rfl, if_neg hhalf]
        rw [MeetsNoHuge, indicesBelow, tableWalk, Radix.walk_none (by rw [hread, nextTable_zero]), hread]
        rfl
    next =>
      rw [MeetsNoHuge, emptyTable_walk hf hc hr (by simp [Label.depth])]
      exact h.windows r v hr hv
  · intro n l hn
    rw [ha.bits]
    unfold rootLabel at hn
    split at hn
    next e => rw [e, decide_eq_true hmemc, Bool.true_or]
    next => rw [h.locked n l hn, Bool.or_true]
  · rw [← hno]
    exact ha.free _ (List.mem_singleton_self _)
  · rw [ha.bits]
    congr 1
    rw [List.map_singleton, hno]
    exact decide_eq_decide.mpr List.mem_singleton
  · unfold rootLabel at hn
    split at hn
    next e => exact .inr e
    next => exact .inl hn
  · intro r v hr
    rw [hmem, Memory.lookup, emptyTable_walk hf hc hr (by simp [Label.depth])]
    rfl
  · rw [hmem, tableRead_emptyTable (fresh_ne_kernel hf hc), if_pos rfl]
  · rw [hmem, MeetsNoHuge, emptyTable_walk hf hc hr (by simp [Label.depth])]
    exact hh
  · rw [hmem, emptyTable_byte ha]

theorem writeCr3_mem : (pagingWriteCr3 s table).mem = s.mem := rfl

theorem writeCr3_frames : (pagingWriteCr3 s table).frames = s.frames := rfl

theorem writeCr3_handed : (pagingWriteCr3 s table).handed = s.handed := rfl

theorem Backed.writeCr3 (h : Backed k s label) (table : U64) : Backed k (pagingWriteCr3 s table) label :=
  ⟨⟨h.forest, h.kernelTable, h.handed⟩, h.windows, h.walled, h.reach, h.locked⟩

theorem root_writeCr3 (hn : n < frameLimit) : (pagingWriteCr3 s (framePtr n)).root = n := by
  have hmod : n % frameLimit = n := Nat.mod_eq_of_lt hn
  rw [pagingWriteCr3, Machine.root, addrEnsureLower_framePtr hn, frameOf, toNat_frame hn,
    Nat.mul_div_cancel_left n (by decide), hmod]

-- ---------------------------------------------------------------------------
-- An allocator with free frames behind the hint
-- ---------------------------------------------------------------------------

structure Pmm.Untouched (f : Pmm) : Prop where
  walled : f.Walled
  hint : 0 < f.lastFree
  free : ∀ j, f.lastFree ≤ j → j < f.frames → f.bit j = false

theorem Pmm.Untouched.request (h : f.Untouched) (hlt : f.lastFree < f.frames) :
    ∃ f', FrameSource.pmmRequestPages f 1 = (BitVec.ofNat 64 (0x1000 * f.lastFree), f') ∧ f'.Untouched ∧
      f'.lastFree = f.lastFree + 1 ∧ f'.frames = f.frames := by
  have hrun : f.FreeRun f.lastFree 1 := fun j hj => h.free _ (by omega) (by omega)
  rcases pmmRequestPages_cases 1 h.walled with ⟨q, f', hreq, hle, -, -, hmin, hsame, hbits⟩ | ⟨-, hnone⟩
  · obtain rfl : q = f.lastFree := by
      by_contra hne
      exact hmin _ (Nat.le_refl _) (by omega) hrun
    have hframes : f'.frames = f.frames := by rw [Pmm.frames, hsame.totalMemory]; rfl
    have hhint : f'.lastFree = f.lastFree + 1 := hsame.lastFree
    refine ⟨f', by simp only [FrameSource.pmmRequestPages, hreq], ⟨?_, by omega, fun j hj hlt => ?_⟩, hhint, hframes⟩
    · exact h.walled.of_same hsame.len hsame.totalMemory (by rw [hbits, h.walled.wall, Bool.or_true])
    · rw [hbits, decide_eq_false (by omega), Bool.false_or]
      exact h.free j (by omega) (by omega)
  · exact absurd hrun (hnone _ (Nat.le_refl _) hlt)

theorem Pmm.Untouched.requests : ∀ {n : Nat} {f : Pmm}, f.Untouched → f.lastFree + n ≤ f.frames →
    0 ∉ nextFrames f n ∧ (afterFrames f n).Untouched ∧ (afterFrames f n).lastFree = f.lastFree + n ∧
      (afterFrames f n).frames = f.frames
  | 0, f, h, _ => ⟨List.not_mem_nil, h, rfl, rfl⟩
  | n + 1, f, h, hle => by
    obtain ⟨f', hreq, h', hhint, hframes⟩ := h.request (by omega)
    obtain ⟨h0, hu, hlast, hf⟩ := h'.requests (n := n) (by omega)
    rw [nextFrames, afterFrames, hreq]
    refine ⟨fun hmem => ?_, hu, hlast.trans (by omega), hf.trans hframes⟩
    rcases List.mem_cons.mp hmem with he | hmem
    · have := congrArg BitVec.toNat he
      rw [BitVec.toNat_ofNat, Nat.mod_eq_of_lt (h.walled.frame_lt (by omega))] at this
      have := h.hint
      simp at *
      omega
    · exact h0 hmem

theorem Pmm.Untouched.nextFrames_three {f : Pmm} (h : f.Untouched) (hroom : f.lastFree + 3 ≤ f.frames) :
    nextFrames f 3 = [BitVec.ofNat 64 (0x1000 * f.lastFree), BitVec.ofNat 64 (0x1000 * (f.lastFree + 1)),
      BitVec.ofNat 64 (0x1000 * (f.lastFree + 2))] := by
  obtain ⟨f₁, hr₁, h₁, hhint₁, hlen₁⟩ := h.request (by omega)
  obtain ⟨f₂, hr₂, h₂, hhint₂, hlen₂⟩ := h₁.request (by omega)
  obtain ⟨f₃, hr₃, -⟩ := h₂.request (by omega)
  simp only [nextFrames, hr₁, hr₂, hr₃]
  rw [hhint₂, hhint₁]

theorem Allocates.served_untouched (ha : Allocates c s s') (h : s.frames.Untouched)
    (hle : s.frames.lastFree + c ≤ s.frames.frames) :
    Served s s' ∧ s'.frames.Untouched ∧ s'.frames.lastFree = s.frames.lastFree + c ∧
      s'.frames.frames = s.frames.frames := by
  obtain ⟨h0, h'⟩ := h.requests hle
  refine ⟨fun new hnew => ?_, ha.frames ▸ h'⟩
  rw [← List.append_cancel_right (ha.handed.symm.trans hnew)]
  exact fun hmem => h0 (List.mem_reverse.mp hmem)

def openPmmOf (count : Nat) : Pmm :=
  ⟨⟨0xffff800000001000, 0x01#8 :: List.replicate count 0x00#8 ++ [0xff#8]⟩, 1, 0x1000 * (8 * count + 7),
    0x1000 * (8 * count + 8)⟩

theorem openPmmOf_frames {count : Nat} : (openPmmOf count).frames = 8 * count + 8 :=
  Nat.mul_div_cancel_left _ (by decide)

theorem openPmmOf_byte {count i : Nat} (hi : i ≤ count) :
    (openPmmOf count).pageBitmap.bytes.getD i 0 = if i = 0 then 0x01#8 else 0x00#8 := by
  cases i with
  | zero => rfl
  | succ i =>
    rw [if_neg (Nat.succ_ne_zero i)]
    show ((0x01#8 :: List.replicate count 0x00#8) ++ [0xff#8]).getD (i + 1) 0 = 0x00#8
    rw [List.cons_append, List.getD_cons_succ, List.getD_append _ _ _ _ (by simpa using hi), List.getD_replicate _ hi]

theorem openPmmOf_untouched {count : Nat} (hcount : 8 * count + 8 ≤ frameLimit) : (openPmmOf count).Untouched where
  walled := by
    have hlen : (openPmmOf count).pageBitmap.len = count + 2 := by simp [openPmmOf, Bitmap.len]
    refine ⟨?_, ?_, ?_⟩
    · show 0x1000 * (8 * count + 8) < wordSize
      unfold frameLimit at hcount
      unfold wordSize
      omega
    · rw [openPmmOf_frames, hlen]
      omega
    · rw [openPmmOf_frames, Pmm.bit, Bitmap.bit]
      have hdiv : (8 * count + 8) / 8 = count + 1 := by omega
      have hmod : (8 * count + 8) % 8 = 0 := by omega
      rw [hdiv, hmod]
      show (((0x01#8 :: List.replicate count 0x00#8) ++ [0xff#8]).getD (count + 1) 0).getLsbD 0 = true
      rw [List.getD_append_right _ _ _ _ (by simp)]
      simp
  hint := Nat.one_pos
  free j hj hlt := by
    have hj : 1 ≤ j := hj
    rw [openPmmOf_frames] at hlt
    rw [Pmm.bit, Bitmap.bit, openPmmOf_byte (by omega)]
    split
    next h =>
      have hbits : ∀ j < 8, 1 ≤ j → (0x01#8).getLsbD j = false := by decide
      rw [Nat.mod_eq_of_lt (by omega)]
      exact hbits j (by omega) hj
    next => simp

def openPmm : Pmm := ⟨⟨0xffff800000001000, 0x01#8 :: List.replicate 47 0x00#8 ++ [0xff#8]⟩, 1, 0x17f000, 0x180000⟩

structure SmallStart (s : Machine Pmm) (k r : Nat) (label : Labels) : Prop where
  backed : Backed k s label
  table : label r = some ⟨r, []⟩
  root : s.root = r
  slots : ∀ i : Fin 512, i.val < 256 → tableRead s.mem r i = 0
  empty : ∀ v, kernelHalf v = false → lookup s.mem r v = 0
  untouched : s.frames.Untouched
  room : s.frames.lastFree + 64 ≤ s.frames.frames
  handed : DistinctFrames s.handed
  noNull : 0 ∉ s.handed
  taken : ∀ p ∈ s.handed, s.frames.bit (frameNo p) = true

theorem startWith {f : Pmm} (hu₀ : f.Untouched) (hroom : f.lastFree + 322 ≤ f.frames) (hreach : f.frames ≤ frameLimit) :
    ∃ (s : Machine Pmm) (k r : Nat) (label : Labels), SmallStart s k r label ∧
      s.frames.lastFree = f.lastFree + 258 ∧ s.frames.frames = f.frames := by
  obtain ⟨s₀, hs₀⟩ : ∃ s : Machine Pmm, s = ⟨fun _ => 0, f, 0, 0, []⟩ := ⟨_, rfl⟩
  have hf₀ : s₀.frames = f := by rw [hs₀]
  have hempty : s₀.handed = [] := by rw [hs₀]
  rw [← hf₀] at hu₀ hroom hreach ⊢
  obtain ⟨s₁, hinit⟩ := pagingInitialize_returns (s := s₀) directMapped_nil
  obtain ⟨c, hframes, hhanded, hc⟩ := pagingInitialize_answers hinit
  obtain ⟨n, hn⟩ : ∃ n, n = 257 + c := ⟨_, rfl⟩
  have hn257 : n = 257 := by rw [hn, hc rfl]
  rw [← hn] at hframes hhanded
  obtain ⟨-, hu₁, hhint₁, hlen₁⟩ := hu₀.requests (n := n) (by omega)
  rw [← hframes] at hu₁ hhint₁ hlen₁
  rw [hempty, List.append_nil] at hhanded
  -- a table next to the kernel's, and all answers up to it
  obtain ⟨s₂, hs₂⟩ : ∃ s₂, s₂ = (pagingCreateEmpty s₁).2 := ⟨_, rfl⟩
  have ha : Allocates 1 s₁ s₂ := by rw [hs₂]; exact ⟨rfl, rfl, rfl, rfl⟩
  obtain ⟨hserved, hu, hhint, hlen⟩ := ha.served_untouched hu₁ (by omega)
  obtain ⟨h0, -⟩ := hu₀.requests (n := n + 1) (by omega)
  have hall : s₂.handed = (nextFrames s₀.frames (n + 1)).reverse := by
    rw [ha.handed, hhanded, hframes, nextFrames_add, List.reverse_append]
  have hserved₁ : Served s₀ s₁ := fun new hnew hmem => by
    rw [hempty, List.append_nil] at hnew
    have hlater : 0 ∈ s₂.handed := by
      rw [ha.handed, hnew]
      exact List.mem_append_right _ hmem
    rw [hall] at hlater
    exact h0 (List.mem_reverse.mp hlater)
  obtain ⟨k, label₁, h₁⟩ := backed_boot directMapped_nil hinit hempty hu₀.walled hreach hserved₁
  rw [hs₂] at hserved
  obtain ⟨r, label, -, hr⟩ := h₁.newRoot hserved
  rw [← hs₂] at hr
  have h := hr.backed
  refine ⟨pagingWriteCr3 s₂ (framePtr r), k, r, label, ⟨h.writeCr3 (framePtr r), hr.table,
    root_writeCr3 (h.forest.bound r _ hr.table), fun i hi => ?_, fun v hv => ?_, ?_, ?_, ?_, ?_, fun p hp => ?_⟩, ?_, ?_⟩
  · rw [writeCr3_mem, hr.slots, if_neg (Nat.not_le_of_lt hi)]
  · rw [writeCr3_mem, hr.own, hv, if_neg Bool.false_ne_true]
  · rwa [writeCr3_frames]
  · rw [writeCr3_frames]
    omega
  · rw [writeCr3_handed, hall]
    exact (nextFrames_pmm hu₀.walled h0).distinct hu₀.walled hreach
  · rw [writeCr3_handed, hall]
    exact fun hmem => h0 (List.mem_reverse.mp hmem)
  · rw [writeCr3_handed, hall] at hp
    rw [writeCr3_frames, ha.frames, hframes, ← afterFrames_add, (nextFrames_pmm hu₀.walled h0).bits,
      decide_eq_true (List.mem_map_of_mem hp), Bool.true_or]
  · rw [writeCr3_frames]
    omega
  · rw [writeCr3_frames]
    omega

theorem smallStart : ∃ (s : Machine Pmm) (k r : Nat) (label : Labels), SmallStart s k r label := by
  have hopen : (openPmmOf 47).Untouched := openPmmOf_untouched (by decide)
  have hframes : openPmm.frames = 384 := rfl
  obtain ⟨s, k, r, label, h, -⟩ := startWith (f := openPmm) hopen
    (by rw [hframes]; decide) (by rw [hframes]; decide)
  exact ⟨s, k, r, label, h⟩

end ShedOS.Memory
