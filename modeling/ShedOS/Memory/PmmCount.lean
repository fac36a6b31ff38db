import ShedOS.Memory.PmmStart

/-!
# The free-memory counter

`free_memory` follows the clear bits: every page that `lock_page` or
`unlock_page` really changes moves both by one, and pages that already are as
asked move neither. This needs no discipline of the callers.
-/

namespace ShedOS.Memory

open Relation (ReflTransGen)

variable {s s' s₀ t : Pmm} {mmap : List MmapEntry} {l : MmapEntry} {p n k a count addr : Nat}

def Pmm.clearBits (s : Pmm) : Finset Nat :=
  (Finset.range (8 * s.pageBitmap.len)).filter fun k => s.bit k = false

theorem Pmm.mem_clearBits : k ∈ s.clearBits ↔ k < 8 * s.pageBitmap.len ∧ s.bit k = false := by
  simp [clearBits]

theorem clearBits_lock (hlen : s'.pageBitmap.len = s.pageBitmap.len)
    (hbits : ∀ j, s'.bit j = (decide (j = a) || s.bit j)) :
    s'.clearBits = s.clearBits.erase a := by
  ext j
  rw [Finset.mem_erase, Pmm.mem_clearBits, Pmm.mem_clearBits, hlen, hbits, Bool.or_eq_false_iff,
    decide_eq_false_iff_not]
  tauto

theorem clearBits_unlock (hlen : s'.pageBitmap.len = s.pageBitmap.len)
    (ha : a < 8 * s.pageBitmap.len) (hbits : ∀ j, s'.bit j = (!decide (j = a) && s.bit j)) :
    s'.clearBits = insert a s.clearBits := by
  ext j
  rw [Finset.mem_insert, Pmm.mem_clearBits, Pmm.mem_clearBits, hlen, hbits, Bool.and_eq_false_iff,
    Bool.not_eq_false', decide_eq_true_eq, and_or_left]
  constructor
  · exact fun h => h.imp And.right id
  · rintro (rfl | h)
    · exact .inl ⟨ha, rfl⟩
    · exact .inr h

/-- The counter is right, and no bit behind the last frame is clear. -/
structure Pmm.Accounted (s : Pmm) : Prop where
  total_lt : s.totalMemory < wordSize
  slack : s.frames < 8 * s.pageBitmap.len
  inside : ∀ k ∈ s.clearBits, k < s.frames
  counted : s.freeMemory = 0x1000 * s.clearBits.card

theorem Pmm.Accounted.free_le (h : s.Accounted) : s.freeMemory ≤ s.totalMemory := by
  have hcard : s.clearBits.card ≤ s.frames := by
    have := Finset.card_le_card (t := Finset.range s.frames)
      fun k hk => Finset.mem_range.mpr (h.inside k hk)
    simpa using this
  rw [h.counted]
  unfold Pmm.frames at hcard
  omega

theorem Pmm.Accounted.walled (h : s.Accounted) : s.Walled := by
  refine ⟨h.total_lt, h.slack, ?_⟩
  by_contra hwall
  have hmem : s.frames ∈ s.clearBits := Pmm.mem_clearBits.mpr ⟨h.slack, by simpa using hwall⟩
  exact Nat.lt_irrefl _ (h.inside _ hmem)

-- ---------------------------------------------------------------------------
-- One page
-- ---------------------------------------------------------------------------

theorem lockPage_cases (h : lockPage s p = some (k, s')) :
    (s' = s ∧ k = 0) ∨
      (p / 0x1000 ∈ s.clearBits ∧ k = 1 ∧ s.SameBounds s' ∧
        s'.clearBits = s.clearBits.erase (p / 0x1000) ∧
        s'.freeMemory = (s.freeMemory + (wordSize - 0x1000)) % wordSize) := by
  have hin := (lockPage_inside h).1
  cases hbit : s.bit (p / 0x1000) with
  | true =>
    have hset : bitmapIsset s.pageBitmap (p / 0x1000) = some true :=
      (Bitmap.isset_eq hin).trans (congrArg some hbit)
    simp only [lockPage, hset] at h
    obtain ⟨rfl, rfl⟩ := Prod.mk.inj (Option.some.inj h)
    exact .inl ⟨rfl, rfl⟩
  | false =>
    have hset : bitmapIsset s.pageBitmap (p / 0x1000) = some false :=
      (Bitmap.isset_eq hin).trans (congrArg some hbit)
    obtain ⟨bm, hbm, hlen, -, hbits⟩ := Bitmap.set_spec hin
    simp only [lockPage, hset, hbm] at h
    obtain ⟨rfl, rfl⟩ := Prod.mk.inj (Option.some.inj h)
    exact .inr ⟨Pmm.mem_clearBits.mpr ⟨hin, hbit⟩, rfl, ⟨hlen, rfl, rfl⟩,
      clearBits_lock hlen hbits, rfl⟩

theorem unlockPage_cases (h : unlockPage s p = some (k, s')) :
    (s' = s ∧ k = 0) ∨
      (p / 0x1000 ∉ s.clearBits ∧ k = 1 ∧ s.SameBounds s' ∧
        s'.clearBits = insert (p / 0x1000) s.clearBits ∧
        s'.freeMemory = (s.freeMemory + 0x1000) % wordSize) := by
  have hin := (unlockPage_inside h).1
  cases hbit : s.bit (p / 0x1000) with
  | false =>
    have hset : bitmapIsset s.pageBitmap (p / 0x1000) = some false :=
      (Bitmap.isset_eq hin).trans (congrArg some hbit)
    simp only [unlockPage, hset] at h
    obtain ⟨rfl, rfl⟩ := Prod.mk.inj (Option.some.inj h)
    exact .inl ⟨rfl, rfl⟩
  | true =>
    have hset : bitmapIsset s.pageBitmap (p / 0x1000) = some true :=
      (Bitmap.isset_eq hin).trans (congrArg some hbit)
    obtain ⟨bm, hbm, hlen, -, hbits⟩ := Bitmap.unset_spec hin
    simp only [unlockPage, hset, hbm] at h
    obtain ⟨rfl, rfl⟩ := Prod.mk.inj (Option.some.inj h)
    refine .inr ⟨fun hmem => ?_, rfl, ⟨hlen, rfl, rfl⟩, clearBits_unlock hlen hin hbits, rfl⟩
    simp [Pmm.mem_clearBits, hbit] at hmem

/-- A page that is locked was counted, so the subtraction does not wrap. -/
theorem lockPage_accounted (hs : s.Accounted) (h : lockPage s p = some (k, s')) :
    s'.Accounted ∧ s'.freeMemory + 0x1000 * k = s.freeMemory := by
  rcases lockPage_cases h with ⟨rfl, rfl⟩ | ⟨hmem, rfl, hsame, hclear, hfree⟩
  · exact ⟨hs, by omega⟩
  · have hcard := Finset.card_erase_of_mem hmem
    have hpos : 0 < s.clearBits.card := Finset.card_pos.mpr ⟨_, hmem⟩
    have hle := hs.free_le
    have hlt := hs.total_lt
    have hcount := hs.counted
    have hfree' : s'.freeMemory + 0x1000 = s.freeMemory := by
      have hmod : (s.freeMemory + (wordSize - 0x1000)) % wordSize = s.freeMemory - 0x1000 := by
        rw [show s.freeMemory + (wordSize - 0x1000) = s.freeMemory - 0x1000 + wordSize by omega,
          Nat.add_mod_right, Nat.mod_eq_of_lt (by omega)]
      omega
    refine ⟨⟨by rw [hsame.totalMemory]; exact hlt, ?_, fun j hj => ?_, ?_⟩, by omega⟩
    · rw [Pmm.frames, hsame.totalMemory, hsame.len]
      exact hs.slack
    · rw [Pmm.frames, hsame.totalMemory]
      exact hs.inside j (Finset.mem_of_mem_erase (hclear ▸ hj))
    · rw [hclear, hcard]
      omega

theorem unlockPage_accounted (hs : s.Accounted) (hp : p / 0x1000 < s.frames)
    (h : unlockPage s p = some (k, s')) :
    s'.Accounted ∧ s'.freeMemory = s.freeMemory + 0x1000 * k := by
  rcases unlockPage_cases h with ⟨rfl, rfl⟩ | ⟨hmem, rfl, hsame, hclear, hfree⟩
  · exact ⟨hs, by omega⟩
  · have hcard := Finset.card_insert_of_notMem hmem
    have hlt := hs.total_lt
    have hcount := hs.counted
    have hinside : ∀ j ∈ s'.clearBits, j < s'.frames := by
      intro j hj
      rw [Pmm.frames, hsame.totalMemory]
      rcases Finset.mem_insert.mp (hclear ▸ hj) with rfl | hj
      · exact hp
      · exact hs.inside j hj
    -- one more clear bit is still a frame, so the sum stays below the total
    have hle : s.clearBits.card + 1 ≤ s.frames := by
      have := Finset.card_le_card (t := Finset.range s'.frames)
        fun j hj => Finset.mem_range.mpr (hinside j hj)
      rw [hclear, hcard, Finset.card_range, Pmm.frames, hsame.totalMemory] at this
      exact this
    have hfree' : s'.freeMemory = s.freeMemory + 0x1000 := by
      rw [hfree, Nat.mod_eq_of_lt]
      unfold Pmm.frames at hle
      omega
    refine ⟨⟨by rw [hsame.totalMemory]; exact hlt, ?_, hinside, ?_⟩, by omega⟩
    · rw [Pmm.frames, hsame.totalMemory, hsame.len]
      exact hs.slack
    · rw [hclear, hcard]
      omega

-- ---------------------------------------------------------------------------
-- The page loops
-- ---------------------------------------------------------------------------

/-- However far `lock_pages` gets, it has taken away 0x1000 for each page it
locked, without a borrow. -/
def Pmm.LocksExactly (s : Pmm) : Prop :=
  ∀ p n rounds k t, pagesLoop lockPage rounds p (pagesEnd p n) 0 s = some (k, t) →
    t.freeMemory + 0x1000 * k = s.freeMemory

theorem lockLoop_accounted {rounds stop : Nat} (hs : s.Accounted)
    (h : pagesLoop lockPage rounds p stop 0 s = some (k, t)) :
    t.Accounted ∧ t.freeMemory + 0x1000 * k = s.freeMemory := by
  refine pagesLoop_keeps (fun acc t => t.Accounted ∧ t.freeMemory + 0x1000 * acc = s.freeMemory)
    ?_ rounds p 0 s ⟨hs, by omega⟩ h
  rintro acc t p k t' - ⟨ht, hfree⟩ hpage
  obtain ⟨ht', hfree'⟩ := lockPage_accounted ht hpage
  exact ⟨ht', by omega⟩

theorem Pmm.Accounted.locksExactly (hs : s.Accounted) : s.LocksExactly :=
  fun _ _ _ _ _ h => (lockLoop_accounted hs h).2

theorem unlockPages_accounted (hs : s.Accounted) (hend : pagesEnd p n ≤ 0x1000 * s.frames)
    (h : unlockPages s p n = some (k, t)) : t.Accounted ∧ s.SameBounds t := by
  refine pagesLoop_keeps (fun _ t => t.Accounted ∧ s.SameBounds t) ?_ n p 0 s ⟨hs, .refl s⟩ h
  rintro acc t p k t' hp ⟨ht, hsame⟩ hpage
  have hframes : t.frames = s.frames := by rw [Pmm.frames, hsame.totalMemory]; rfl
  exact ⟨(unlockPage_accounted ht (by omega) hpage).1, hsame.trans (unlockPage_inside hpage).2⟩

theorem Pmm.Accounted.moved (hs : s.Accounted) (hlen : s'.pageBitmap.len = s.pageBitmap.len)
    (hbit : ∀ k, s'.bit k = s.bit k) (htotal : s'.totalMemory = s.totalMemory)
    (hfree : s'.freeMemory = s.freeMemory) : s'.Accounted := by
  have hclear : s'.clearBits = s.clearBits := by
    ext k
    rw [mem_clearBits, mem_clearBits, hlen, hbit]
  have hframes : s'.frames = s.frames := by rw [frames, htotal]; rfl
  refine ⟨by rw [htotal]; exact hs.total_lt, by rw [hframes, hlen]; exact hs.slack, fun k hk => ?_,
    by rw [hfree, hclear]; exact hs.counted⟩
  rw [hframes]
  exact hs.inside k (hclear ▸ hk)

-- ---------------------------------------------------------------------------
-- The calls
-- ---------------------------------------------------------------------------

theorem pmmLocked_accounted {buf total : Nat} (htotal : total < wordSize) :
    (pmmLocked buf total).Accounted := by
  have hclear : (pmmLocked buf total).clearBits = ∅ := by
    ext k
    rw [Pmm.mem_clearBits, pmmLocked_len]
    simp only [Finset.notMem_empty, iff_false, not_and, Bool.not_eq_false]
    exact pmmLocked_bit
  refine ⟨htotal, ?_, by simp [hclear], by rw [hclear]; rfl⟩
  rw [pmmLocked_len]
  exact frames_lt_bits total

theorem unlockUsable_accounted {entries : List MmapEntry} :
    ∀ {s : Pmm}, s.Accounted →
      (∀ e ∈ entries, e.type = STIVALE2_MMAP_USABLE →
        e.base % 0x1000 = 0 ∧ e.length % 0x1000 = 0 ∧ e.base + e.length ≤ s.totalMemory) →
      unlockUsable entries s = some s' → s'.Accounted := by
  induction entries with
  | nil =>
    intro s hs _ h
    exact Option.some.inj h ▸ hs
  | cons e rest ih =>
    intro s hs hok h
    by_cases ht : e.type = STIVALE2_MMAP_USABLE
    · simp only [unlockUsable, ht, if_true] at h
      obtain ⟨⟨k, s₁⟩, hun, hrest⟩ := Option.bind_eq_some_iff.mp h
      obtain ⟨hbase, hlen, hin⟩ := hok e List.mem_cons_self ht
      have hend : pagesEnd e.base (e.length / 0x1000) ≤ 0x1000 * s.frames := by
        refine (Nat.mod_le _ _).trans ?_
        unfold Pmm.frames
        omega
      obtain ⟨hs₁, hsame⟩ := unlockPages_accounted hs hend hun
      refine ih hs₁ (fun x hx => ?_) hrest
      rw [hsame.totalMemory]
      exact hok x (List.mem_cons_of_mem _ hx)
    · simp only [unlockUsable, ht, if_false] at h
      exact ih hs (fun x hx => hok x (List.mem_cons_of_mem _ hx)) h

theorem UsableMap.unlocked_accounted (hm : UsableMap mmap) {buf : Nat}
    (h : unlockUsable mmap (pmmLocked buf (mmapTotal mmap)) = some s) : s.Accounted :=
  unlockUsable_accounted (pmmLocked_accounted mmapTotal_lt)
    (fun e he ht => ⟨(hm.aligned e he ht).1, (hm.aligned e he ht).2, hm.inside e he ht⟩) h

theorem pmmInitialize_accounted (hm : UsableMap mmap) (h : pmmInitialize mmap = some s) :
    s.Accounted := by
  obtain ⟨l, hl, -⟩ := hm.largest
  rw [pmmInitialize_eq hl] at h
  obtain ⟨s₁, hun, h⟩ := Option.bind_eq_some_iff.mp h
  obtain ⟨⟨k, s₂⟩, hlock, rfl⟩ := Option.map_eq_some_iff.mp h
  exact (lockLoop_accounted (hm.unlocked_accounted hun) hlock).1.moved rfl (fun _ => rfl) rfl rfl

theorem requestLoop_inv : ∀ fuel pi, requestLoop s count fuel pi = some (addr, s') →
    s' = s ∨ ∃ q k, lockPages { s with lastFree := q + count } (q * 0x1000) count = some (k, s') := by
  intro fuel
  induction fuel with
  | zero =>
    intro pi h
    exact .inl (Prod.mk.inj (Option.some.inj h)).2.symm
  | succ fuel ih =>
    intro pi h
    obtain ⟨b, -, h⟩ := Option.bind_eq_some_iff.mp h
    cases b with
    | true =>
      obtain ⟨⟨k, t⟩, hlock, h⟩ := Option.bind_eq_some_iff.mp h
      obtain ⟨-, rfl⟩ := Prod.mk.inj (Option.some.inj h)
      exact .inr ⟨pi, k, hlock⟩
    | false => exact ih (pi + 1) h

theorem pmmRequestPages_accounted (hs : s.Accounted)
    (h : pmmRequestPages s count = some (addr, s')) : s'.Accounted ∧ s'.frames = s.frames := by
  rcases requestLoop_inv _ _ h with rfl | ⟨q, k, hlock⟩
  · exact ⟨hs, rfl⟩
  · have hs₁ : ({ s with lastFree := q + count } : Pmm).Accounted :=
      hs.moved rfl (fun _ => rfl) rfl rfl
    refine ⟨(lockLoop_accounted hs₁ hlock).1, ?_⟩
    rw [Pmm.frames, (lockPages_same hlock).totalMemory]
    rfl

theorem pmmReleasePages_accounted (hs : s.Accounted) (hle : a + n ≤ s.frames)
    (h : pmmReleasePages s (0x1000 * a) n = some s') : s'.Accounted ∧ s'.frames = s.frames := by
  obtain ⟨⟨k, t⟩, hun, h⟩ := Option.bind_eq_some_iff.mp h
  have hend : pagesEnd (0x1000 * a) n ≤ 0x1000 * s.frames :=
    (Nat.mod_le _ _).trans (by omega)
  obtain ⟨ht, hsame⟩ := unlockPages_accounted hs hend hun
  have hframes : t.frames = s.frames := by rw [Pmm.frames, hsame.totalMemory]; rfl
  simp only at h
  split at h
  · obtain rfl := Option.some.inj h
    exact ⟨ht.moved rfl (fun _ => rfl) rfl rfl, hframes⟩
  · obtain rfl := Option.some.inj h
    exact ⟨ht, hframes⟩

-- ---------------------------------------------------------------------------
-- Runs
-- ---------------------------------------------------------------------------

/-- A request, or a release of any frames below the last one: held, free,
released before or never requested. -/
inductive FrameCall : Pmm → Pmm → Prop
  | request {s s' : Pmm} {addr : Nat} (count : Nat)
      (h : pmmRequestPages s count = some (addr, s')) : FrameCall s s'
  | release {s s' : Pmm} (a n : Nat) (hle : a + n ≤ s.frames)
      (h : pmmReleasePages s (0x1000 * a) n = some s') : FrameCall s s'

theorem Pmm.Accounted.preserved : Transition.Preserved FrameCall Pmm.Accounted := by
  intro s s' hs hcall
  cases hcall with
  | request count h => exact (pmmRequestPages_accounted hs h).1
  | release a n hle h => exact (pmmReleasePages_accounted hs hle h).1

/-- In every state of every run the counter is 0x1000 times the number of clear
bits, no `lock_pages`, of `pmm_initialize` or later, wraps it, and the next call
stays inside the bitmap. -/
theorem free_memory_counts_clear_bits (hm : UsableMap mmap) (hinit : pmmInitialize mmap = some s₀)
    (hrun : ReflTransGen FrameCall s₀ s) :
    s.freeMemory = 0x1000 * s.clearBits.card ∧ s.freeMemory ≤ s.totalMemory ∧
      (∀ hint, ({ s with lastFree := hint } : Pmm).LocksExactly) ∧
      (∀ buf s₁, unlockUsable mmap (pmmLocked buf (mmapTotal mmap)) = some s₁ →
        s₁.LocksExactly) ∧
      (∀ count, (pmmRequestPages s count).isSome) ∧
      ∀ a n, a + n ≤ s.frames → (pmmReleasePages s (0x1000 * a) n).isSome := by
  have hs := Pmm.Accounted.preserved.run (pmmInitialize_accounted hm hinit) hrun
  refine ⟨hs.counted, hs.free_le, fun hint => ?_, fun buf s₁ hun => ?_, fun count => ?_,
    fun a n hle => ?_⟩
  · have hmoved : ({ s with lastFree := hint } : Pmm).Accounted :=
      hs.moved rfl (fun _ => rfl) rfl rfl
    exact hmoved.locksExactly
  · exact (hm.unlocked_accounted hun).locksExactly
  · rcases pmmRequestPages_cases count hs.walled with ⟨q, t, hreq, -⟩ | ⟨hreq, -⟩ <;>
      simp [hreq]
  · obtain ⟨t, hrel, -⟩ := pmmReleasePages_spec hs.walled hle
    simp [hrel]

theorem free_memory_counts_clear_bits_small : ∃ s : Pmm,
    ReflTransGen FrameCall smallPmm s ∧ s.freeMemory = 0x2000 ∧ s.freeMemory = 0x1000 * s.clearBits.card := by
  let taken : Pmm := { smallPmm with pageBitmap.bytes := [0xf7#8], lastFree := 3, freeMemory := 0x1000 }
  let released : Pmm := { smallPmm with pageBitmap.bytes := [0xf3#8], lastFree := 3, freeMemory := 0x2000 }
  have hrequest : FrameCall smallPmm taken := @FrameCall.request smallPmm taken 0x1000 2 (by decide)
  have hrelease : FrameCall taken released := .release 2 2 (by decide) (by decide)
  have hrun : ReflTransGen FrameCall smallPmm released := .tail (.single hrequest) hrelease
  exact ⟨released, hrun, rfl, (free_memory_counts_clear_bits smallMap_usable smallMap_init hrun).1⟩

end ShedOS.Memory
