import ShedOS.Memory.PmmRuns

/-!
# What pmm_initialize touches

The bitmap gets a bit for each frame of `total_memory`, the sum of the entry
lengths, but is indexed by address. This module describes the start of the
allocator for arbitrary memory maps and says exactly when every index stays
inside the bitmap, and when the bitmap's own frames stay locked.
-/

namespace ShedOS.Memory

open Ranges
open Relation (ReflTransGen)

variable {s s' : Pmm} {mmap : List MmapEntry} {e l : MmapEntry} {a p n k m acc : Nat}

-- ---------------------------------------------------------------------------
-- The page loops from any address
-- ---------------------------------------------------------------------------

theorem lockPage_floor (s : Pmm) (p : Nat) : lockPage s p = lockPage s (0x1000 * (p / 0x1000)) := by
  simp only [lockPage, Nat.mul_div_cancel_left _ (show 0 < 0x1000 by decide)]

theorem unlockPage_floor (s : Pmm) (p : Nat) :
    unlockPage s p = unlockPage s (0x1000 * (p / 0x1000)) := by
  simp only [unlockPage, Nat.mul_div_cancel_left _ (show 0 < 0x1000 by decide)]

theorem lockPage_inside {r : Nat × Pmm} (h : lockPage s p = some r) :
    p / 0x1000 < 8 * s.pageBitmap.len ∧ s.SameBounds r.2 := by
  by_cases hin : p / 0x1000 < 8 * s.pageBitmap.len
  · obtain ⟨k, s', hlock, hsame, -⟩ := lockPage_spec hin
    rw [lockPage_floor, hlock] at h
    exact ⟨hin, Option.some.inj h ▸ hsame⟩
  · simp [lockPage, Bitmap.isset_none (Nat.le_of_not_lt hin)] at h

theorem unlockPage_inside {r : Nat × Pmm} (h : unlockPage s p = some r) :
    p / 0x1000 < 8 * s.pageBitmap.len ∧ s.SameBounds r.2 := by
  by_cases hin : p / 0x1000 < 8 * s.pageBitmap.len
  · obtain ⟨k, s', hlock, hsame, -⟩ := unlockPage_spec hin
    rw [unlockPage_floor, hlock] at h
    exact ⟨hin, Option.some.inj h ▸ hsame⟩
  · simp [unlockPage, Bitmap.isset_none (Nat.le_of_not_lt hin)] at h

theorem pagesLoop_step {page : Pmm → Nat → Option (Nat × Pmm)} {fuel stop : Nat} (hp : p < stop)
    (hnext : p + 0x1000 < wordSize) :
    pagesLoop page (fuel + 1) p stop acc s =
      (page s p).bind fun r => pagesLoop page fuel (p + 0x1000) stop (acc + r.1) r.2 := by
  simp only [pagesLoop, hp, if_true, Nat.mod_eq_of_lt hnext]
  rfl

theorem lockLoop_inside {fuel stop : Nat} {r : Nat × Pmm} (hstop : stop < wordSize)
    (hm : p + 0x1000 * m = stop) (hfuel : m ≤ fuel)
    (h : pagesLoop lockPage fuel p stop acc s = some r) :
    m = 0 ∨ p / 0x1000 + m ≤ 8 * s.pageBitmap.len := by
  induction fuel generalizing p m acc s with
  | zero => exact .inl (by omega)
  | succ fuel ih =>
    cases m with
    | zero => exact .inl rfl
    | succ m =>
      rw [pagesLoop_step (by omega) (by omega)] at h
      obtain ⟨x, hpage, hrest⟩ := Option.bind_eq_some_iff.mp h
      obtain ⟨hin, hsame⟩ := lockPage_inside hpage
      have hm' : p + 0x1000 + 0x1000 * m = stop := by omega
      rcases ih hm' (by omega) hrest with rfl | hle
      · exact .inr (by omega)
      · rw [hsame.len] at hle
        exact .inr (by omega)

theorem pagesLoop_done {page : Pmm → Nat → Option (Nat × Pmm)} {stop : Nat} (h : stop ≤ p)
    (fuel : Nat) : pagesLoop page fuel p stop acc s = some (acc, s) := by
  cases fuel with
  | zero => rfl
  | succ fuel => simp [pagesLoop, Nat.not_lt.mpr h]

theorem pagesLoop_keeps {page : Pmm → Nat → Option (Nat × Pmm)} {stop acc' : Nat}
    (P : Nat → Pmm → Prop)
    (hstep : ∀ acc s p k s', p < stop → P acc s → page s p = some (k, s') → P (acc + k) s') :
    ∀ fuel p acc s, P acc s → pagesLoop page fuel p stop acc s = some (acc', s') → P acc' s' := by
  intro fuel
  induction fuel with
  | zero =>
    intro p acc s hP h
    obtain ⟨rfl, rfl⟩ := Prod.mk.inj (Option.some.inj h)
    exact hP
  | succ fuel ih =>
    intro p acc s hP h
    by_cases hp : p < stop
    · simp only [pagesLoop, hp, if_true] at h
      obtain ⟨⟨k, s₁⟩, hpage, hrest⟩ := Option.bind_eq_some_iff.mp h
      exact ih _ _ _ (hstep acc s p k s₁ hp hP hpage) hrest
    · rw [pagesLoop_done (Nat.le_of_not_lt hp)] at h
      obtain ⟨rfl, rfl⟩ := Prod.mk.inj (Option.some.inj h)
      exact hP

theorem lockPages_isSome_iff :
    (lockPages s (0x1000 * a) n).isSome ↔
      pagesEnd (0x1000 * a) n ≤ max (0x1000 * a) (0x8000 * s.pageBitmap.len) := by
  have hstop : pagesEnd (0x1000 * a) n < wordSize := Nat.mod_lt _ (by decide)
  by_cases hle : pagesEnd (0x1000 * a) n ≤ 0x1000 * a
  · simp [lockPages, pagesLoop_done hle, hle]
  · obtain ⟨m, hm, hmn⟩ := pagesEnd_gap (Nat.lt_of_not_le hle)
    constructor
    · intro h
      obtain ⟨r, hr⟩ := Option.isSome_iff_exists.mp h
      have := lockLoop_inside hstop hm hmn hr
      omega
    · intro h
      have hin : a + m ≤ 8 * s.pageBitmap.len := by omega
      obtain ⟨k, s', hlock, -⟩ := lockPages_spec (s := s) (a := a) (n := m) (by omega) hin
      have hend : pagesEnd (0x1000 * a) m = pagesEnd (0x1000 * a) n := by
        rw [pagesEnd_eq (by omega), ← hm, Nat.mul_add]
      obtain ⟨extra, rfl⟩ := Nat.exists_eq_add_of_le hmn
      rw [lockPages, ← hend, pagesLoop_enough]
      simp only [lockPages] at hlock
      simp [hlock]

/-- Only the frame of an address counts. -/
theorem pagesLoop_floor {page : Pmm → Nat → Option (Nat × Pmm)}
    (hpage : ∀ s p, page s p = page s (0x1000 * (p / 0x1000))) (fuel : Nat) :
    ∀ p m acc s, p + 0x1000 * m < wordSize →
      pagesLoop page fuel p (p + 0x1000 * m) acc s =
        pagesLoop page fuel (0x1000 * (p / 0x1000)) (0x1000 * (p / 0x1000) + 0x1000 * m) acc s := by
  induction fuel with
  | zero => exact fun _ _ _ _ _ => rfl
  | succ fuel ih =>
    intro p m acc s hend
    cases m with
    | zero => rw [pagesLoop_done (by omega), pagesLoop_done (by omega)]
    | succ m =>
      have hstop : p + 0x1000 * (m + 1) = p + 0x1000 + 0x1000 * m := by ring
      have hfloor : 0x1000 * (p / 0x1000) + 0x1000 = 0x1000 * ((p + 0x1000) / 0x1000) := by
        rw [Nat.add_div_right p (by decide), Nat.mul_succ]
      have hstop' : 0x1000 * (p / 0x1000) + 0x1000 * (m + 1) =
          0x1000 * ((p + 0x1000) / 0x1000) + 0x1000 * m := by
        rw [← hfloor]
        ring
      have hpos : 0 < 0x1000 * (m + 1) := Nat.mul_pos (by decide) (Nat.succ_pos m)
      have hnext : p + 0x1000 < wordSize :=
        Nat.lt_of_le_of_lt (by rw [hstop]; exact Nat.le_add_right _ _) hend
      have hnext' : 0x1000 * (p / 0x1000) + 0x1000 < wordSize :=
        Nat.lt_of_le_of_lt (Nat.add_le_add_right (Nat.mul_div_le p _) _) hnext
      rw [pagesLoop_step (Nat.lt_add_of_pos_right hpos) hnext,
        pagesLoop_step (Nat.lt_add_of_pos_right hpos) hnext', ← hpage s p, hfloor, hstop, hstop']
      exact congrArg _ (funext fun r => ih _ _ _ _ (hstop ▸ hend))

theorem unlockPages_floor (h : p + 0x1000 * n < wordSize) :
    unlockPages s p n = unlockPages s (0x1000 * (p / 0x1000)) n := by
  have hend : pagesEnd p n = p + 0x1000 * n := Nat.mod_eq_of_lt h
  have hend' : pagesEnd (0x1000 * (p / 0x1000)) n = 0x1000 * (p / 0x1000) + 0x1000 * n :=
    Nat.mod_eq_of_lt (by omega)
  rw [unlockPages, unlockPages, hend, hend']
  exact pagesLoop_floor unlockPage_floor _ _ _ _ _ h

-- ---------------------------------------------------------------------------
-- The state after the two loops
-- ---------------------------------------------------------------------------

/-- Frame `k` is one of those `unlock_pages` visits for the entry. -/
def MmapEntry.Frame (e : MmapEntry) (k : Nat) : Prop :=
  e.base / 0x1000 ≤ k ∧ k < e.base / 0x1000 + e.length / 0x1000

def Usable (mmap : List MmapEntry) (k : Nat) : Prop :=
  ∃ e ∈ mmap, e.type = STIVALE2_MMAP_USABLE ∧ e.Frame k

/-- The entry has no whole page, or ends below an index `bound`. -/
def MmapEntry.Within (e : MmapEntry) (bound : Nat) : Prop :=
  e.length / 0x1000 = 0 ∨
    (e.base + 0x1000 * (e.length / 0x1000) < wordSize ∧
      e.base / 0x1000 + e.length / 0x1000 ≤ bound)

theorem unlockEntry_spec (h : e.Within (8 * s.pageBitmap.len)) :
    ∃ k s', unlockPages s e.base (e.length / 0x1000) = some (k, s') ∧ s.SameBounds s' ∧
      ∀ j, s'.bit j = false ↔ s.bit j = false ∨ e.Frame j := by
  rcases h with h | ⟨hend, hin⟩
  · rw [h]
    refine ⟨0, s, rfl, .refl s, fun j => ⟨.inl, fun hj => hj.resolve_right ?_⟩⟩
    rintro ⟨hj, hj'⟩
    omega
  · obtain ⟨k, s', hun, hsame, hbits⟩ := unlockPages_spec (s := s) (a := e.base / 0x1000)
      (n := e.length / 0x1000) (by omega) hin
    refine ⟨k, s', by rw [unlockPages_floor hend, hun], hsame, fun j => ?_⟩
    rw [hbits, Bool.and_eq_false_iff, Bool.not_eq_false', decide_eq_true_eq, or_comm]
    rfl

theorem unlockUsable_bits {entries : List MmapEntry} :
    ∀ {s : Pmm}, (∀ e ∈ entries, e.type = STIVALE2_MMAP_USABLE → e.Within (8 * s.pageBitmap.len)) →
      ∃ s', unlockUsable entries s = some s' ∧ s.SameBounds s' ∧
        ∀ j, s'.bit j = false ↔ s.bit j = false ∨ Usable entries j := by
  induction entries with
  | nil => exact fun _ => ⟨_, rfl, .refl _, fun j => by simp [Usable]⟩
  | cons e rest ih =>
    intro s hok
    have hrest : ∀ x ∈ rest, x.type = STIVALE2_MMAP_USABLE → x.Within (8 * s.pageBitmap.len) :=
      fun x hx => hok x (List.mem_cons_of_mem _ hx)
    by_cases ht : e.type = STIVALE2_MMAP_USABLE
    · obtain ⟨k, s₁, hun, hsame, hbits⟩ := unlockEntry_spec (hok e List.mem_cons_self ht)
      obtain ⟨s', hrec, hsame', hbits'⟩ := ih (s := s₁) (by rwa [hsame.len])
      refine ⟨s', by simp [unlockUsable, ht, hun, hrec], hsame.trans hsame', fun j => ?_⟩
      rw [hbits', hbits]
      simp [Usable, ht, or_assoc]
    · obtain ⟨s', hrec, hsame', hbits'⟩ := ih hrest
      refine ⟨s', by simp [unlockUsable, ht, hrec], hsame', fun j => ?_⟩
      rw [hbits']
      simp [Usable, ht]

def pmmLocked (buf total : Nat) : Pmm :=
  ⟨⟨buf, List.replicate (bitmapLen total) 0xff#8⟩, 0, 0, total⟩

theorem pmmLocked_len (buf total : Nat) :
    (pmmLocked buf total).pageBitmap.len = bitmapLen total := List.length_replicate

theorem pmmLocked_bit {buf total j : Nat} (hj : j < 8 * bitmapLen total) :
    (pmmLocked buf total).bit j = true := Bitmap.bit_replicate hj

theorem lockPages_same {r : Nat × Pmm} (h : lockPages s p n = some r) : s.SameBounds r.2 :=
  pagesLoop_keeps (fun _ t => s.SameBounds t)
    (fun _ _ _ _ _ _ hP hpage => hP.trans (lockPage_inside hpage).2) _ _ _ _ (.refl s) h

theorem unlockUsable_same {entries : List MmapEntry} :
    ∀ {s : Pmm}, unlockUsable entries s = some s' → s.SameBounds s' := by
  induction entries with
  | nil => exact fun h => Option.some.inj h ▸ .refl _
  | cons e rest ih =>
    intro s h
    by_cases ht : e.type = STIVALE2_MMAP_USABLE
    · simp only [unlockUsable, ht, if_true] at h
      obtain ⟨⟨k, s₁⟩, hun, hrest⟩ := Option.bind_eq_some_iff.mp h
      have hsame : s.SameBounds s₁ := pagesLoop_keeps (fun _ t => s.SameBounds t)
        (fun _ _ _ _ _ _ hP hpage => hP.trans (unlockPage_inside hpage).2) _ _ _ _ (.refl s) hun
      exact hsame.trans (ih hrest)
    · simp only [unlockUsable, ht, if_false] at h
      exact ih h

/-- `we want the bitmap mapped high`. -/
def Pmm.withHighBitmap (s : Pmm) (base : Nat) : Pmm :=
  { s with pageBitmap := { s.pageBitmap with buf := addrEnsureHigherNat base } }

theorem pmmInitialize_eq (hl : mmapLargest mmap = some l) :
    pmmInitialize mmap = (unlockUsable mmap (pmmLocked l.base (mmapTotal mmap))).bind fun s =>
      (lockPages s l.base (bitmapLen (mmapTotal mmap) / 0x1000)).map fun r =>
        r.2.withHighBitmap l.base := by
  simp only [pmmInitialize, hl, Option.map_eq_bind]
  rfl

theorem pmmInitialize_total (hl : mmapLargest mmap = some l) (h : pmmInitialize mmap = some s) :
    s.totalMemory = mmapTotal mmap ∧ s.pageBitmap.len = bitmapLen (mmapTotal mmap) := by
  rw [pmmInitialize_eq hl] at h
  obtain ⟨s₁, hun, h⟩ := Option.bind_eq_some_iff.mp h
  obtain ⟨r, hlock, rfl⟩ := Option.map_eq_some_iff.mp h
  have hsame := (unlockUsable_same hun).trans (lockPages_same hlock)
  exact ⟨hsame.totalMemory, hsame.len.trans (pmmLocked_len _ _)⟩

theorem pmmInitialize_bits (hl : mmapLargest mmap = some l) (hbase : l.base % 0x1000 = 0)
    (hok : ∀ e ∈ mmap, e.type = STIVALE2_MMAP_USABLE → e.Within (8 * bitmapLen (mmapTotal mmap)))
    (hin : l.base / 0x1000 + bitmapLen (mmapTotal mmap) / 0x1000 ≤ 8 * bitmapLen (mmapTotal mmap))
    (hend : l.base + 0x1000 * (bitmapLen (mmapTotal mmap) / 0x1000) < wordSize) :
    ∃ s, pmmInitialize mmap = some s ∧ s.lastFree = 0 ∧
      ∀ j, j < 8 * bitmapLen (mmapTotal mmap) →
        (s.bit j = false ↔ Usable mmap j ∧
          ¬ (l.base / 0x1000 ≤ j ∧
            j < l.base / 0x1000 + bitmapLen (mmapTotal mmap) / 0x1000)) := by
  have hb : l.base = 0x1000 * (l.base / 0x1000) := by omega
  obtain ⟨s₁, hun, hsame₁, hbits₁⟩ := unlockUsable_bits
    (s := pmmLocked l.base (mmapTotal mmap)) (by rwa [pmmLocked_len])
  obtain ⟨k, s₂, hlock, hsame₂, hbits₂⟩ := lockPages_spec (s := s₁) (a := l.base / 0x1000)
    (n := bitmapLen (mmapTotal mmap) / 0x1000) (by omega) (by rwa [hsame₁.len, pmmLocked_len])
  rw [← hb] at hlock
  refine ⟨s₂.withHighBitmap l.base, ?_, hsame₂.lastFree.trans hsame₁.lastFree, fun j hj => ?_⟩
  · rw [pmmInitialize_eq hl, hun, Option.bind_some, hlock, Option.map_some]
  · show s₂.bit j = false ↔ _
    rw [hbits₂, Bool.or_eq_false_iff, decide_eq_false_iff_not, hbits₁, pmmLocked_bit hj]
    simp [and_comm]

-- ---------------------------------------------------------------------------
-- Staying inside the bitmap
-- ---------------------------------------------------------------------------

/-- Page-aligned USABLE entries, at least one, anywhere. -/
structure AlignedMap (mmap : List MmapEntry) : Prop where
  some_usable : ∃ e ∈ mmap, e.type = STIVALE2_MMAP_USABLE
  aligned : ∀ e ∈ mmap, e.type = STIVALE2_MMAP_USABLE → e.base % 0x1000 = 0 ∧ e.length % 0x1000 = 0

/-- `pmm_initialize` tests, sets and clears bits of the bitmap only, and
afterwards each frame of a USABLE entry has its bit and is within reach. -/
def StaysInside (mmap : List MmapEntry) : Prop :=
  ∃ s, pmmInitialize mmap = some s ∧
    ∀ e ∈ mmap, e.type = STIVALE2_MMAP_USABLE → ∀ k, k < e.length / 0x1000 →
      e.base / 0x1000 + k < 8 * s.pageBitmap.len ∧
      e.base / 0x1000 + k < s.totalMemory / 0x1000

/-- No USABLE entry ends behind the sum of the lengths, and the bitmap's own
frames have bits. The end of these is the one `lock_pages` computes. -/
structure AddressesFit (mmap : List MmapEntry) : Prop where
  usable : ∀ e ∈ mmap, e.type = STIVALE2_MMAP_USABLE → e.length = 0 ∨
    e.base + e.length ≤ mmapTotal mmap
  bitmap : ∀ l, mmapLargest mmap = some l →
    pagesEnd l.base (bitmapLen (mmapTotal mmap) / 0x1000) ≤
      max l.base (0x8000 * bitmapLen (mmapTotal mmap))

theorem AlignedMap.largest (hm : AlignedMap mmap) :
    ∃ l, mmapLargest mmap = some l ∧ l ∈ mmap ∧ l.type = STIVALE2_MMAP_USABLE := by
  obtain ⟨l, hl⟩ := Option.isSome_iff_exists.mp (foldl_larger_isSome none (.inr hm.some_usable))
  rcases foldl_larger_mem hl with h | ⟨hmem, ht⟩
  · contradiction
  · exact ⟨l, hl, hmem, ht⟩

theorem frames_lt_bits (total : Nat) : total / 0x1000 < 8 * bitmapLen total := by
  unfold bitmapLen
  omega

theorem within_of_fits (h : e.length = 0 ∨ e.base + e.length ≤ mmapTotal mmap) :
    e.Within (8 * bitmapLen (mmapTotal mmap)) := by
  have hlt : mmapTotal mmap < wordSize := mmapTotal_lt
  have hbits := frames_lt_bits (mmapTotal mmap)
  rcases h with h | h
  · exact .inl (by omega)
  · exact .inr ⟨by omega, by omega⟩

theorem pmmInitialize_isSome_iff (hl : mmapLargest mmap = some l) (hbase : l.base % 0x1000 = 0)
    (hok : ∀ e ∈ mmap, e.type = STIVALE2_MMAP_USABLE → e.Within (8 * bitmapLen (mmapTotal mmap))) :
    (pmmInitialize mmap).isSome ↔
      pagesEnd l.base (bitmapLen (mmapTotal mmap) / 0x1000) ≤
        max l.base (0x8000 * bitmapLen (mmapTotal mmap)) := by
  have hb : l.base = 0x1000 * (l.base / 0x1000) := by omega
  obtain ⟨s₁, hun, hsame, -⟩ := unlockUsable_bits
    (s := pmmLocked l.base (mmapTotal mmap)) (by rwa [pmmLocked_len])
  have hlen : s₁.pageBitmap.len = bitmapLen (mmapTotal mmap) :=
    hsame.len.trans (pmmLocked_len _ _)
  rw [pmmInitialize_eq hl, hun, Option.bind_some, Option.isSome_map, hb, lockPages_isSome_iff, hlen]

/-- For maps with holes anywhere: everything stays inside exactly when the
addresses fit. -/
theorem stays_inside_iff_addresses_fit (hm : AlignedMap mmap) :
    StaysInside mmap ↔ AddressesFit mmap := by
  obtain ⟨l, hl, hmem, ht⟩ := hm.largest
  have hbase := (hm.aligned l hmem ht).1
  constructor
  · rintro ⟨s, hs, hreach⟩
    obtain ⟨htotal, hlen⟩ := pmmInitialize_total hl hs
    have husable : ∀ e ∈ mmap, e.type = STIVALE2_MMAP_USABLE → e.length = 0 ∨
        e.base + e.length ≤ mmapTotal mmap := by
      intro e he het
      obtain ⟨hb, hlen⟩ := hm.aligned e he het
      by_cases h0 : e.length = 0
      · exact .inl h0
      · have := (hreach e he het (e.length / 0x1000 - 1) (by omega)).2
        exact .inr (by omega)
    refine ⟨husable, fun l' hl' => ?_⟩
    obtain rfl := Option.some.inj (hl.symm.trans hl')
    have hfit : ∀ e ∈ mmap, e.type = STIVALE2_MMAP_USABLE →
        e.Within (8 * bitmapLen (mmapTotal mmap)) := fun e he het => within_of_fits (husable e he het)
    exact (pmmInitialize_isSome_iff hl hbase hfit).mp (by simp [hs])
  · intro hf
    have hfit : ∀ e ∈ mmap, e.type = STIVALE2_MMAP_USABLE →
        e.Within (8 * bitmapLen (mmapTotal mmap)) :=
      fun e he het => within_of_fits (hf.usable e he het)
    obtain ⟨s, hs⟩ := Option.isSome_iff_exists.mp
      ((pmmInitialize_isSome_iff hl hbase hfit).mpr (hf.bitmap l hl))
    obtain ⟨htotal, hlen⟩ := pmmInitialize_total hl hs
    refine ⟨s, hs, fun e he het k hk => ?_⟩
    have hbits := frames_lt_bits (mmapTotal mmap)
    rw [htotal, hlen]
    rcases hf.usable e he het with h | h <;> omega

theorem holeMap_leaves_bitmap : AlignedMap holeMap ∧ ¬ StaysInside holeMap := by
  refine ⟨⟨⟨_, List.mem_cons_of_mem _ List.mem_cons_self, rfl⟩, ?_⟩, ?_⟩
  · simp [holeMap, STIVALE2_MMAP_USABLE]
  · rintro ⟨s, hs, -⟩
    have hnone : pmmInitialize holeMap = none := by rfl
    simp [hnone] at hs

theorem smallMap_aligned : AlignedMap smallMap := ⟨smallMap_usable.some_usable, smallMap_usable.aligned⟩

theorem stays_inside_iff_addresses_fit_small : StaysInside smallMap ↔ AddressesFit smallMap :=
  stays_inside_iff_addresses_fit smallMap_aligned

-- ---------------------------------------------------------------------------
-- The bitmap's own frames
-- ---------------------------------------------------------------------------

/-- The entries fill `[0, total_memory)`; the largest USABLE one is page
aligned and holds the bitmap. -/
structure GaplessMap (mmap : List MmapEntry) : Prop where
  some_usable : ∃ e ∈ mmap, e.type = STIVALE2_MMAP_USABLE
  inside : ∀ e ∈ mmap, e.base + e.length ≤ mmapTotal mmap
  covers : ∀ a, a < mmapTotal mmap → ∃ e ∈ mmap, e.base ≤ a ∧ a < e.base + e.length
  aligned : ∀ l, mmapLargest mmap = some l → l.base % 0x1000 = 0 ∧ l.length % 0x1000 = 0
  holds : ∀ l, mmapLargest mmap = some l → bitmapLen (mmapTotal mmap) ≤ l.length

def FrameOverlaps (base len k : Nat) : Prop := 0x1000 * k < base + len ∧ base < 0x1000 * (k + 1)

/-- No run of requests and matching releases ever hands out a frame of the
`len` bytes from `base`. Address 0 is NULL: it hands out nothing. -/
def NeverHandsOut (s₀ : Pmm) (base len : Nat) : Prop :=
  ∀ x, ReflTransGen PmmStep (s₀, []) x → ∀ count addr s',
    pmmRequestPages x.1 count = some (addr, s') → addr ≠ 0 →
    ∀ k, addr / 0x1000 ≤ k → k < addr / 0x1000 + count → ¬ FrameOverlaps base len k

theorem GaplessMap.initialize (hm : GaplessMap mmap) (hl : mmapLargest mmap = some l)
    (hinit : pmmInitialize mmap = some s) :
    s.Walled ∧ s.lastFree = 0 ∧
      ∀ j, j < s.frames →
        (s.bit j = false ↔ Usable mmap j ∧
          ¬ (l.base / 0x1000 ≤ j ∧
            j < l.base / 0x1000 + bitmapLen (mmapTotal mmap) / 0x1000)) := by
  obtain ⟨hbase, hlength⟩ := hm.aligned l hl
  have hholds := hm.holds l hl
  have hmem : l ∈ mmap := by
    rcases foldl_larger_mem hl with h | ⟨hmem, -⟩
    · contradiction
    · exact hmem
  have hin := hm.inside l hmem
  have hlt : mmapTotal mmap < wordSize := mmapTotal_lt
  have hslack := frames_lt_bits (mmapTotal mmap)
  obtain ⟨t, ht, hhint, hbits⟩ := pmmInitialize_bits hl hbase
    (fun e he _ => within_of_fits (.inr (hm.inside e he))) (by omega) (by omega)
  obtain rfl := Option.some.inj (ht.symm.trans hinit)
  obtain ⟨htotal, hlen⟩ := pmmInitialize_total hl ht
  have hframes : t.frames = mmapTotal mmap / 0x1000 := by rw [Pmm.frames, htotal]
  refine ⟨⟨by rwa [htotal], by rwa [hframes, hlen], ?_⟩, hhint,
    fun j hj => hbits j (by omega)⟩
  -- no entry reaches the frame behind the last one
  by_contra hwall
  obtain ⟨⟨e, he, -, hframe⟩, -⟩ :=
    (hbits t.frames (by omega)).mp (Bool.not_eq_true _ ▸ hwall)
  have := hm.inside e he
  obtain ⟨-, hlt'⟩ := hframe
  omega

theorem reaches_frame {f : Nat} (fuel : Nat) :
    ∀ {s₀ : Pmm} {x : Pmm × Ledger}, ReflTransGen PmmStep (s₀, []) x → x.1.Walled →
      f < x.1.lastFree + fuel → x.1.lastFree ≤ f → f < x.1.frames → x.1.bit f = false →
      ∃ y s', ReflTransGen PmmStep (s₀, []) y ∧ pmmRequestPages y.1 1 = some (0x1000 * f, s') := by
  induction fuel with
  | zero => exact fun _ _ hlt hle => by omega
  | succ fuel ih =>
    intro s₀ x hrun hw hfuel hle hf hfree
    have hrunf : x.1.FreeRun f 1 := by
      intro j hj
      rwa [show f + j = f by omega]
    rcases pmmRequestPages_cases 1 hw with
      ⟨q, t, hreq, hq, hqf, -, hmin, hsame, hbits⟩ | ⟨-, hnone⟩
    · by_cases hqe : q = f
      · exact ⟨x, t, hrun, hqe ▸ hreq⟩
      · have hlt : q < f := by
          by_contra hge
          exact hmin f hle (by omega) hrunf
        have hhint : t.lastFree = q + 1 := hsame.lastFree
        have htotal : t.totalMemory = x.1.totalMemory := hsame.totalMemory
        have hframes : t.frames = x.1.frames := by rw [Pmm.frames, htotal]; rfl
        refine ih (hrun.tail (PmmStep.request 1 hreq)) ?_ ?_ ?_ ?_ ?_
        · exact hw.of_same hsame.len htotal (by rw [hbits, hw.wall, Bool.or_true])
        · show f < t.lastFree + fuel
          omega
        · show t.lastFree ≤ f
          omega
        · show f < t.frames
          rwa [hframes]
        · show t.bit f = false
          rw [hbits, hfree, Bool.or_false, decide_eq_false_iff_not]
          omega
    · exact absurd hrunf (hnone f hle hf)

/-- The allocator keeps its own storage exactly when the length is a whole
number of frames (a page frame at address 0 is never handed out anyway). -/
theorem own_frames_kept_iff_whole (hm : GaplessMap mmap) (hl : mmapLargest mmap = some l)
    (hinit : pmmInitialize mmap = some s) :
    NeverHandsOut s l.base (bitmapLen (mmapTotal mmap)) ↔
      bitmapLen (mmapTotal mmap) % 0x1000 = 0 ∨
        (l.base = 0 ∧ bitmapLen (mmapTotal mmap) < 0x1000) := by
  obtain ⟨hw, hhint, hbits⟩ := hm.initialize hl hinit
  obtain ⟨hbase, hlength⟩ := hm.aligned l hl
  have hholds := hm.holds l hl
  obtain ⟨hmem, ht⟩ : l ∈ mmap ∧ l.type = STIVALE2_MMAP_USABLE := by
    rcases foldl_larger_mem hl with h | h
    · contradiction
    · exact h
  have hin := hm.inside l hmem
  have hframes : s.frames = mmapTotal mmap / 0x1000 := by
    rw [Pmm.frames, (pmmInitialize_total hl hinit).1]
  constructor
  · intro hkeep
    by_contra hbad
    -- the frame `lock_pages` leaves out
    obtain ⟨f, hf⟩ : ∃ f, f = l.base / 0x1000 + bitmapLen (mmapTotal mmap) / 0x1000 := ⟨_, rfl⟩
    have hfree : s.bit f = false := by
      refine (hbits f (by omega)).mpr ⟨⟨l, hmem, ht, by omega, by omega⟩, by omega⟩
    have hfs : f < s.frames := by omega
    have hstart : s.lastFree ≤ f := by omega
    have hfuel : f < s.lastFree + (f + 1) := by omega
    obtain ⟨y, s', hrun, hreq⟩ := reaches_frame (f + 1) .refl hw hfuel hstart hfs hfree
    exact hkeep y hrun 1 _ s' hreq (by omega) f (by omega) (by omega) ⟨by omega, by omega⟩
  · intro hcond x hrun count addr s' hreq hnull k hk hk' hover
    have hi : PmmInv s x := (PmmInv.preserved s).run (.init hw) hrun
    rcases pmmRequestPages_cases count hi.walled with ⟨q, t, hreq', -, hlt, hfree, -⟩ | ⟨hreq', -⟩
    · obtain ⟨haddr, -⟩ := Prod.mk.inj (Option.some.inj (hreq'.symm.trans hreq))
      subst haddr
      obtain ⟨hover, hover'⟩ := hover
      -- what is free now was free at the start
      have hstart : s.bit k = false := by
        have hkf : k ∈ x.1.freeFrames := by
          refine ⟨?_, ?_⟩
          · have := hi.walled.freeRun_le (Nat.le_of_lt hlt) hfree
            omega
          · have := hfree (k - q) (by omega)
            rwa [show q + (k - q) = k by omega] at this
        exact (hi.sound.freePool hkf).2
      have hkf : k < s.frames := by omega
      have := ((hbits k hkf).mp hstart).2
      omega
    · exact hnull (Prod.mk.inj (Option.some.inj (hreq'.symm.trans hreq))).1.symm

theorem smallMap_gapless : GaplessMap smallMap where
  some_usable := smallMap_usable.some_usable
  inside := by simp [smallMap, STIVALE2_MMAP_USABLE, mmapTotal, wordSize]
  covers := by
    intro a ha
    have ha : a < 0x4000 := ha
    by_cases h : a < 0x1000
    · exact ⟨_, List.mem_cons_self, by simp, by simpa using h⟩
    · exact ⟨_, List.mem_cons_of_mem _ List.mem_cons_self, by simp; omega, by simp; omega⟩
  aligned := by
    intro l hl
    obtain rfl := Option.some.inj hl
    decide
  holds := smallMap_usable.holds

/-- Four frames need one byte; its frame is the first to be handed out. -/
theorem smallPmm_hands_out_bitmap :
    GaplessMap smallMap ∧ pmmInitialize smallMap = some smallPmm ∧
      ¬ NeverHandsOut smallPmm 0x1000 (bitmapLen (mmapTotal smallMap)) := by
  refine ⟨smallMap_gapless, smallMap_init, fun h => ?_⟩
  have hreq : pmmRequestPages smallPmm 1 =
      some (0x1000, { smallPmm with pageBitmap.bytes := [0xf3#8], lastFree := 2, freeMemory := 0x2000 }) := by
    decide
  exact h _ .refl 1 0x1000 _ hreq (by decide) 1 (by decide) (by decide) ⟨by decide, by decide⟩

theorem own_frames_kept_iff_whole_small :
    NeverHandsOut smallPmm 0x1000 (bitmapLen (mmapTotal smallMap)) ↔
      bitmapLen (mmapTotal smallMap) % 0x1000 = 0 ∨
        ((0x1000 : Nat) = 0 ∧ bitmapLen (mmapTotal smallMap) < 0x1000) :=
  own_frames_kept_iff_whole smallMap_gapless
    (l := { base := 0x1000, length := 0x3000, type := STIVALE2_MMAP_USABLE }) rfl smallMap_init

end ShedOS.Memory
