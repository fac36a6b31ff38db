import ShedOS.Memory.PmmLaws
import ShedOS.Lib.Ranges

/-!
# Runs of the frame allocator

The allocator refines the range allocator of `Ranges`: the free points are the
frames whose bit is clear, the ledger is what callers hold. Its soundness
gives that no frame is handed out twice.
-/

namespace ShedOS.Memory

open Ranges
open Relation (ReflTransGen)

-- ---------------------------------------------------------------------------
-- The state pmm_initialize leaves
-- ---------------------------------------------------------------------------

/-- The memory maps the allocator is started from. -/
structure UsableMap (mmap : List MmapEntry) : Prop where
  some_usable : ∃ e ∈ mmap, e.type = STIVALE2_MMAP_USABLE
  aligned : ∀ e ∈ mmap, e.type = STIVALE2_MMAP_USABLE → e.base % 0x1000 = 0 ∧ e.length % 0x1000 = 0
  inside : ∀ e ∈ mmap, e.type = STIVALE2_MMAP_USABLE → e.base + e.length ≤ mmapTotal mmap
  holds : ∀ e, mmapLargest mmap = some e → bitmapLen (mmapTotal mmap) ≤ e.length

theorem largerEntry_cases (largest : Option MmapEntry) (entry : MmapEntry) :
    (largerEntry largest entry = largest ∧
      (entry.type = STIVALE2_MMAP_USABLE → largest.isSome)) ∨
    (largerEntry largest entry = some entry ∧ entry.type = STIVALE2_MMAP_USABLE) := by
  unfold largerEntry
  split
  next h => exact .inl ⟨rfl, fun h' => absurd h' h⟩
  next h =>
    have h : entry.type = STIVALE2_MMAP_USABLE := not_not.mp h
    cases largest with
    | none => exact .inr ⟨rfl, h⟩
    | some l =>
      simp only
      split
      · exact .inr ⟨rfl, h⟩
      · exact .inl ⟨rfl, fun _ => rfl⟩

theorem foldl_larger_mem {entries : List MmapEntry} :
    ∀ {start : Option MmapEntry} {e : MmapEntry}, entries.foldl largerEntry start = some e →
      start = some e ∨ (e ∈ entries ∧ e.type = STIVALE2_MMAP_USABLE) := by
  induction entries with
  | nil => exact fun h => .inl h
  | cons x rest ih =>
    intro start e h
    rcases ih h with h | ⟨hmem, ht⟩
    · rcases largerEntry_cases start x with ⟨hx, -⟩ | ⟨hx, ht⟩
      · exact .inl (hx ▸ h)
      · obtain rfl := Option.some.inj (hx.symm.trans h)
        exact .inr ⟨List.mem_cons_self, ht⟩
    · exact .inr ⟨List.mem_cons_of_mem _ hmem, ht⟩

theorem foldl_larger_isSome {entries : List MmapEntry} :
    ∀ (start : Option MmapEntry),
      start.isSome ∨ (∃ e ∈ entries, e.type = STIVALE2_MMAP_USABLE) →
      (entries.foldl largerEntry start).isSome := by
  induction entries with
  | nil => simp
  | cons x rest ih =>
    intro start h
    refine ih _ ?_
    rcases largerEntry_cases start x with ⟨hx, himp⟩ | ⟨hx, ht⟩
    · rw [hx]
      rcases h with h | ⟨e, he, ht⟩
      · exact .inl h
      · rcases List.mem_cons.mp he with rfl | he
        · exact .inl (himp ht)
        · exact .inr ⟨e, he, ht⟩
    · exact .inl (by simp [hx])

variable {mmap : List MmapEntry}

theorem UsableMap.largest (hm : UsableMap mmap) :
    ∃ e, mmapLargest mmap = some e ∧ e ∈ mmap ∧ e.type = STIVALE2_MMAP_USABLE := by
  obtain ⟨e, he⟩ := Option.isSome_iff_exists.mp
    (foldl_larger_isSome none (.inr hm.some_usable))
  rcases foldl_larger_mem he with h | ⟨hmem, ht⟩
  · contradiction
  · exact ⟨e, he, hmem, ht⟩

theorem mmapTotal_lt : mmapTotal mmap < wordSize := by
  have h : ∀ (entries : List MmapEntry) (start : Nat), start < wordSize →
      entries.foldl (fun total entry => (total + entry.length) % wordSize) start < wordSize := by
    intro entries
    induction entries with
    | nil => exact fun start h => h
    | cons e rest ih => exact fun start _ => ih _ (Nat.mod_lt _ (by decide))
  exact h mmap 0 (by decide)

theorem unlockUsable_spec {entries : List MmapEntry} :
    ∀ {s : Pmm}, s.Walled →
      (∀ e ∈ entries, e.type = STIVALE2_MMAP_USABLE →
        e.base % 0x1000 = 0 ∧ e.length % 0x1000 = 0 ∧ e.base + e.length ≤ s.totalMemory) →
      ∃ s', unlockUsable entries s = some s' ∧ s.SameBounds s' ∧ s'.Walled := by
  induction entries with
  | nil => exact fun hw _ => ⟨_, rfl, .refl _, hw⟩
  | cons e rest ih =>
    intro s hw hok
    by_cases ht : e.type = STIVALE2_MMAP_USABLE
    · obtain ⟨hbase, hlen, hin⟩ := hok e List.mem_cons_self ht
      have hb : e.base = 0x1000 * (e.base / 0x1000) := by omega
      have hle : e.base / 0x1000 + e.length / 0x1000 ≤ s.frames := by unfold Pmm.frames; omega
      obtain ⟨k, s₁, hun, hsame, hbits⟩ := unlockPages_spec (s := s) (hw.end_lt hle)
        (by have := hw.slack; omega)
      have hw₁ : s₁.Walled := by
        refine hw.of_same hsame.len hsame.totalMemory ?_
        rw [hbits, hw.wall]
        simp
        omega
      obtain ⟨s', hrest, hsame', hw'⟩ := ih hw₁ fun x hx => by
        rw [hsame.totalMemory]
        exact hok x (List.mem_cons_of_mem _ hx)
      refine ⟨s', ?_, hsame.trans hsame', hw'⟩
      rw [← hb] at hun
      simp [unlockUsable, ht, hun, hrest]
    · obtain ⟨s', hrest, h⟩ := ih hw fun x hx => hok x (List.mem_cons_of_mem _ hx)
      exact ⟨s', by simp [unlockUsable, ht, hrest], h⟩

theorem walled_allLocked (buf : Nat) {total : Nat} (htotal : total < wordSize) :
    Pmm.Walled ⟨⟨buf, List.replicate (bitmapLen total) 0xff#8⟩, 0, 0, total⟩ := by
  have hlt : total / 0x1000 < 8 * bitmapLen total := by unfold bitmapLen; omega
  exact ⟨htotal, by simpa [Pmm.frames, Bitmap.len] using hlt, Bitmap.bit_replicate hlt⟩

theorem pmmInitialize_spec (hm : UsableMap mmap) :
    ∃ s, pmmInitialize mmap = some s ∧ s.Walled ∧ s.lastFree = 0 ∧
      s.totalMemory = mmapTotal mmap := by
  obtain ⟨e, he, hmem, ht⟩ := hm.largest
  obtain ⟨hbase, hlen⟩ := hm.aligned e hmem ht
  have hin := hm.inside e hmem ht
  have hholds := hm.holds e he
  obtain ⟨s₁, hun, hsame₁, hw₁⟩ := unlockUsable_spec (walled_allLocked e.base mmapTotal_lt)
    fun x hx htx => ⟨(hm.aligned x hx htx).1, (hm.aligned x hx htx).2, hm.inside x hx htx⟩
  have htot : s₁.totalMemory = mmapTotal mmap := hsame₁.totalMemory
  have hb : e.base = 0x1000 * (e.base / 0x1000) := by omega
  have hle : e.base / 0x1000 + bitmapLen (mmapTotal mmap) / 0x1000 ≤ s₁.frames := by
    unfold Pmm.frames; omega
  obtain ⟨k, s₂, hlock, hsame₂, hbits₂⟩ := lockPages_spec (s := s₁) (hw₁.end_lt hle)
    (by have := hw₁.slack; omega)
  rw [← hb] at hlock
  refine ⟨{ s₂ with pageBitmap := { s₂.pageBitmap with buf := addrEnsureHigherNat e.base } }, ?_,
    ?_, ?_, ?_⟩
  · simp [pmmInitialize, he, hun, hlock]
  · refine hw₁.of_same hsame₂.len hsame₂.totalMemory ?_
    have hwall := hbits₂ s₁.frames
    rw [hw₁.wall, Bool.or_true] at hwall
    exact hwall
  · exact hsame₂.lastFree.trans hsame₁.lastFree
  · exact hsame₂.totalMemory.trans htot

-- ---------------------------------------------------------------------------
-- Runs
-- ---------------------------------------------------------------------------

/-- A request, or the release of a part of a range a caller holds. A NULL
answer gives the caller nothing. -/
inductive PmmStep : Pmm × Ledger → Pmm × Ledger → Prop
  | request {s s' : Pmm} {addr : Nat} {out : Ledger} (count : Nat)
      (h : pmmRequestPages s count = some (addr, s')) :
      PmmStep (s, out) (s', if addr = 0 then out else ⟨addr / 0x1000, count⟩ :: out)
  | release {s s' : Pmm} {front back : Ledger} {r : Range} (q : Range) (hq : q.Within r)
      (h : pmmReleasePages s (0x1000 * q.start) q.count = some s') :
      PmmStep (s, front ++ r :: back) (s', Ledger.giveBack front r q back)

theorem PmmStep.granted {s s' : Pmm} {out : Ledger} {q count : Nat} (hq : q ≠ 0)
    (h : pmmRequestPages s count = some (0x1000 * q, s')) :
    PmmStep (s, out) (s', ⟨q, count⟩ :: out) := by
  have hstep := @PmmStep.request s s' _ out count h
  rwa [if_neg (by omega), Nat.mul_div_cancel_left _ (by decide)] at hstep

def Pmm.freeFrames (s : Pmm) : Set Nat := {k | k < s.frames ∧ s.bit k = false}

def pmmStore (x : Pmm × Ledger) : Store := ⟨x.1.freeFrames, x.2⟩

/-- What holds between any two operations of a run from `s₀`. -/
structure PmmInv (s₀ : Pmm) (x : Pmm × Ledger) : Prop where
  walled : x.1.Walled
  frames : x.1.frames = s₀.frames
  bounded : ∀ r ∈ x.2, r.start + r.count ≤ x.1.frames
  sound : (pmmStore x).Sound s₀.freeFrames

variable {s s₀ s' : Pmm} {x y : Pmm × Ledger} {out : Ledger} {count q : Nat}

theorem PmmInv.init (hw : s₀.Walled) : PmmInv s₀ (s₀, []) :=
  ⟨hw, rfl, by simp, by simp [pmmStore, Ledger.Sound], by simp [pmmStore], by simp [pmmStore],
    fun _ h => h⟩

theorem freeFrames_lock (hframes : s'.frames = s.frames) (r : Range)
    (hbits : ∀ j, s'.bit j = (decide (r.start ≤ j ∧ j < r.start + r.count) || s.bit j)) :
    s'.freeFrames = s.freeFrames \ {k | r.Mem k} := by
  ext k
  simp only [Pmm.freeFrames, Set.mem_ofPred_eq, Set.mem_sdiff, hframes, hbits, Range.Mem,
    Bool.or_eq_false_iff, decide_eq_false_iff_not]
  tauto

theorem freeFrames_unlock (hframes : s'.frames = s.frames) (r : Range)
    (hle : r.start + r.count ≤ s.frames)
    (hbits : ∀ j, s'.bit j = (!decide (r.start ≤ j ∧ j < r.start + r.count) && s.bit j)) :
    s'.freeFrames = s.freeFrames ∪ {k | r.Mem k} := by
  ext k
  simp only [Pmm.freeFrames, Set.mem_ofPred_eq, Set.mem_union, hframes, hbits, Range.Mem,
    Bool.and_eq_false_iff, Bool.not_eq_false', decide_eq_true_eq]
  constructor
  · rintro ⟨hk, hr | hbit⟩
    · exact .inr hr
    · exact .inl ⟨hk, hbit⟩
  · rintro (⟨hk, hbit⟩ | hr)
    · exact ⟨hk, .inr hbit⟩
    · exact ⟨by omega, .inl hr⟩

theorem PmmInv.refines (hi : PmmInv s₀ x) (hstep : PmmStep x y) :
    Ranges.Step (pmmStore x) (pmmStore y) ∧ y.1.Walled ∧ y.1.frames = x.1.frames ∧
      ∀ r ∈ y.2, r.start + r.count ≤ x.1.frames := by
  have hw := hi.walled
  cases hstep with
  | @request s s' addr out count h =>
    rcases pmmRequestPages_cases count hw with
      ⟨q, t, hreq, -, hlt, hrun, -, hsame, hbits⟩ | ⟨hreq, -⟩
    · obtain ⟨rfl, rfl⟩ := Prod.mk.inj (Option.some.inj (hreq.symm.trans h))
      have hle : q + count ≤ s.frames := hw.freeRun_le (Nat.le_of_lt hlt) hrun
      have hframes : t.frames = s.frames := by simp [Pmm.frames, hsame.totalMemory]
      have hwall : t.Walled := hw.of_same hsame.len hsame.totalMemory (by rw [hbits, hw.wall]; simp)
      have hfree := freeFrames_lock hframes ⟨q, count⟩ hbits
      have htaken : ∀ k, (⟨q, count⟩ : Range).Mem k → k ∈ s.freeFrames := by
        rintro k ⟨hk, hk'⟩
        simp only at hk hk'
        refine ⟨by omega, ?_⟩
        have := hrun (k - q) (by omega)
        rwa [show q + (k - q) = k by omega] at this
      by_cases hq : q = 0
      · subst hq
        refine ⟨?_, hwall, hframes, hi.bounded⟩
        have := Ranges.Step.lose (s := pmmStore (s, out)) ⟨0, count⟩
        simpa [pmmStore, hfree] using this
      · have hne : ¬ 0x1000 * q = 0 := by omega
        have hdiv : 0x1000 * q / 0x1000 = q := by omega
        refine ⟨?_, hwall, hframes, ?_⟩
        · have := Ranges.Step.take (s := pmmStore (s, out)) ⟨q, count⟩ htaken
          simpa only [pmmStore, hfree, hne, if_false, hdiv] using this
        · intro r hr
          simp only [hne, if_false, hdiv, List.mem_cons] at hr
          rcases hr with rfl | hr
          · exact hle
          · exact hi.bounded r hr
    · obtain ⟨rfl, rfl⟩ := Prod.mk.inj (Option.some.inj (hreq.symm.trans h))
      exact ⟨.idle, hw, rfl, hi.bounded⟩
  | @release s s' front back r q hq h =>
    have hle : q.start + q.count ≤ s.frames := hq.2.trans (hi.bounded r (by simp))
    obtain ⟨t, hrel, hlen, htotal, -, hbits⟩ := pmmReleasePages_spec hw hle
    obtain rfl := Option.some.inj (hrel.symm.trans h)
    have hframes : t.frames = s.frames := by simp [Pmm.frames, htotal]
    refine ⟨?_, hw.of_same hlen htotal ?_, hframes, ?_⟩
    · have : Ranges.Step ⟨s.freeFrames, front ++ r :: back⟩ _ := .giveBack q hq
      simpa only [pmmStore, freeFrames_unlock hframes q hle hbits] using this
    · rw [hbits, hw.wall]
      simp
      omega
    · intro z hz
      obtain ⟨⟨w, hmem, hzw⟩, -⟩ := Ledger.giveBack_from hi.sound.apart hq hz
      exact hzw.2.trans (hi.bounded w hmem)

theorem PmmInv.preserved (s₀ : Pmm) : Transition.Preserved PmmStep (PmmInv s₀) := by
  intro x y hi hstep
  obtain ⟨hup, hw, hframes, hbounded⟩ := hi.refines hstep
  exact ⟨hw, hframes.trans hi.frames, by rw [hframes]; exact hbounded,
    Store.Sound.preserved _ _ _ hi.sound hup⟩

theorem PmmInv.run (hm : UsableMap mmap) (hinit : pmmInitialize mmap = some s₀)
    (hrun : ReflTransGen PmmStep (s₀, []) x) : PmmInv s₀ x := by
  obtain ⟨s, hs, hw, -, -⟩ := pmmInitialize_spec hm
  obtain rfl := Option.some.inj (hs.symm.trans hinit)
  exact (PmmInv.preserved s).run (.init hw) hrun

theorem PmmInv.simulates (s₀ : Pmm) :
    Transition.Simulates PmmStep Ranges.Step fun x a => PmmInv s₀ x ∧ a = pmmStore x := by
  rintro x y _ ⟨hi, rfl⟩ hstep
  exact ⟨pmmStore y, (hi.refines hstep).1, PmmInv.preserved s₀ x y hi hstep, rfl⟩

/-- A run of the frame allocator is a run of the range allocator. -/
theorem pmm_run_refines (hm : UsableMap mmap) (hinit : pmmInitialize mmap = some s₀)
    (hrun : ReflTransGen PmmStep (s₀, []) x) : ReflTransGen Ranges.Step ⟨s₀.freeFrames, []⟩ (pmmStore x) := by
  obtain ⟨s, hs, hw, -, -⟩ := pmmInitialize_spec hm
  obtain rfl := Option.some.inj (hs.symm.trans hinit)
  obtain ⟨_, hup, -, rfl⟩ := (PmmInv.simulates s).run ⟨.init hw, rfl⟩ hrun
  exact hup

theorem PmmInv.request_isSome (hi : PmmInv s₀ x) (count : Nat) :
    (pmmRequestPages x.1 count).isSome := by
  rcases pmmRequestPages_cases count hi.walled with ⟨q, t, hreq, -⟩ | ⟨hreq, -⟩ <;>
    simp [hreq]

/-- Ranges that callers hold never overlap, lie below the last frame, consist
of frames that were free at the start, and no search leaves the bitmap. -/
theorem pmm_no_double_allocation (hm : UsableMap mmap) (hinit : pmmInitialize mmap = some s₀)
    (hrun : ReflTransGen PmmStep (s₀, []) (s, out)) :
    out.Pairwise Range.Apart ∧
      (∀ r ∈ out, ∀ k, r.Mem k → k < s₀.totalMemory / 0x1000 ∧ s₀.bit k = false) ∧
      (∀ count, (pmmRequestPages s count).isSome) ∧
      ∀ r ∈ out, ∀ q : Range, q.Within r → (pmmReleasePages s (0x1000 * q.start) q.count).isSome := by
  have hi := PmmInv.run hm hinit hrun
  refine ⟨hi.sound.apart, fun r hr k hk => hi.sound.outPool r hr k hk, hi.request_isSome, ?_⟩
  intro r hr q hq
  obtain ⟨t, hrel, -⟩ := pmmReleasePages_spec hi.walled (hq.2.trans (hi.bounded r hr))
  simp [hrel]

def smallMap : List MmapEntry := [{ base := 0, length := 0x1000, type := 2 },
  { base := 0x1000, length := 0x3000, type := STIVALE2_MMAP_USABLE }]

/-- A reserved frame, a hole, and three usable frames behind it: the first
index is 0x100, the bitmap has one byte. -/
def holeMap : List MmapEntry := [{ base := 0, length := 0x1000, type := 2 },
  { base := 0x100000, length := 0x3000, type := STIVALE2_MMAP_USABLE }]

def smallPmm : Pmm := ⟨⟨0xffff800000001000, [0xf1#8]⟩, 0, 0x3000, 0x4000⟩

theorem smallMap_usable : UsableMap smallMap where
  some_usable := ⟨_, List.mem_cons_of_mem _ List.mem_cons_self, rfl⟩
  aligned := by simp [smallMap, STIVALE2_MMAP_USABLE]
  inside := by simp [smallMap, STIVALE2_MMAP_USABLE, mmapTotal, wordSize]
  holds := by
    intro e he
    obtain rfl := Option.some.inj he
    decide

theorem smallMap_init : pmmInitialize smallMap = some smallPmm := by rfl

theorem smallPmm_request : ReflTransGen PmmStep (smallPmm, [])
    ({ smallPmm with pageBitmap.bytes := [0xf7#8], lastFree := 3, freeMemory := 0x1000 },
      [⟨1, 2⟩]) :=
  .single (.granted (q := 1) (by decide) (by decide))

theorem pmm_no_double_allocation_small :
    ([⟨1, 2⟩] : Ledger).Pairwise Range.Apart ∧
      ∀ r ∈ ([⟨1, 2⟩] : Ledger), ∀ k, r.Mem k → k < 4 ∧ smallPmm.bit k = false :=
  have h := pmm_no_double_allocation smallMap_usable smallMap_init smallPmm_request
  ⟨h.1, h.2.1⟩

end ShedOS.Memory
