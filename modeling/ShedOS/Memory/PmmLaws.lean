import ShedOS.Memory.Pmm

/-!
# What the frame allocator does

Frames are seen through `Pmm.bit`. Every operation is described once, as the
set of frames whose bit it changes, for a state whose bitmap has a set bit
right behind the last frame (`Walled`).
-/

namespace ShedOS.Memory

variable {s s' : Pmm} {a n count p k : Nat}

def Pmm.bit (s : Pmm) (n : Nat) : Bool := s.pageBitmap.bit n

/-- Only bits and the free-memory counter differ. -/
structure Pmm.SameBounds (s s' : Pmm) : Prop where
  len : s'.pageBitmap.len = s.pageBitmap.len
  lastFree : s'.lastFree = s.lastFree
  totalMemory : s'.totalMemory = s.totalMemory

theorem Pmm.SameBounds.refl (s : Pmm) : s.SameBounds s := ⟨rfl, rfl, rfl⟩

theorem Pmm.SameBounds.trans {t : Pmm} (h : s.SameBounds t) (h' : t.SameBounds s') :
    s.SameBounds s' :=
  ⟨h'.len.trans h.len, h'.lastFree.trans h.lastFree, h'.totalMemory.trans h.totalMemory⟩

-- ---------------------------------------------------------------------------
-- One page
-- ---------------------------------------------------------------------------

theorem lockPage_spec (h : a < 8 * s.pageBitmap.len) :
    ∃ k s', lockPage s (0x1000 * a) = some (k, s') ∧ s.SameBounds s' ∧
      ∀ j, s'.bit j = (decide (j = a) || s.bit j) := by
  have hpi : 0x1000 * a / 0x1000 = a := by omega
  cases hbit : s.bit a
  · obtain ⟨bm, hset, hlen, -, hbits⟩ := Bitmap.set_spec h
    refine ⟨1, { s with
      pageBitmap := bm
      freeMemory := (s.freeMemory + (wordSize - 0x1000)) % wordSize },
      ?_, ⟨hlen, rfl, rfl⟩, hbits⟩
    simp only [lockPage, hpi, Bitmap.isset_eq h, hset]
    simp only [Pmm.bit] at hbit
    simp [hbit]
  · refine ⟨0, s, ?_, .refl s, ?_⟩
    · simp only [lockPage, hpi, Bitmap.isset_eq h]
      simp only [Pmm.bit] at hbit
      simp [hbit]
    · intro j
      by_cases hj : j = a
      · simp [hj, hbit]
      · simp [hj]

theorem unlockPage_spec (h : a < 8 * s.pageBitmap.len) :
    ∃ k s', unlockPage s (0x1000 * a) = some (k, s') ∧ s.SameBounds s' ∧
      ∀ j, s'.bit j = (!decide (j = a) && s.bit j) := by
  have hpi : 0x1000 * a / 0x1000 = a := by omega
  cases hbit : s.bit a
  · refine ⟨0, s, ?_, .refl s, ?_⟩
    · simp only [unlockPage, hpi, Bitmap.isset_eq h]
      simp only [Pmm.bit] at hbit
      simp [hbit]
    · intro j
      by_cases hj : j = a
      · simp [hj, hbit]
      · simp [hj]
  · obtain ⟨bm, hset, hlen, -, hbits⟩ := Bitmap.unset_spec h
    refine ⟨1, { s with
      pageBitmap := bm
      freeMemory := (s.freeMemory + 0x1000) % wordSize }, ?_, ⟨hlen, rfl, rfl⟩, hbits⟩
    simp only [unlockPage, hpi, Bitmap.isset_eq h, hset]
    simp only [Pmm.bit] at hbit
    simp [hbit]

-- ---------------------------------------------------------------------------
-- The page loops
-- ---------------------------------------------------------------------------

theorem pagesLoop_rule {page : Pmm → Nat → Option (Nat × Pmm)} (P : Nat → Pmm → Prop)
    (hend : 0x1000 * (a + n) < wordSize)
    (hstep : ∀ j s, j < n → P j s →
      ∃ k s', page s (0x1000 * (a + j)) = some (k, s') ∧ P (j + 1) s') :
    ∀ fuel j acc s, n = j + fuel → P j s →
      ∃ acc' s', pagesLoop page fuel (0x1000 * (a + j)) (0x1000 * (a + n)) acc s =
        some (acc', s') ∧ P n s' := by
  intro fuel
  induction fuel with
  | zero =>
    intro j acc s hj hP
    exact ⟨acc, s, rfl, by simpa [hj] using hP⟩
  | succ fuel ih =>
    intro j acc s hj hP
    obtain ⟨k, s₁, hpage, hP₁⟩ := hstep j s (by omega) hP
    obtain ⟨acc', s', hloop, hP'⟩ := ih (j + 1) (acc + k) s₁ (by omega) hP₁
    refine ⟨acc', s', ?_, hP'⟩
    have hlt : 0x1000 * (a + j) < 0x1000 * (a + n) := by omega
    have hnext : (0x1000 * (a + j) + 0x1000) % wordSize = 0x1000 * (a + (j + 1)) := by
      rw [Nat.mod_eq_of_lt] <;> omega
    simp [pagesLoop, hlt, hpage, hnext, hloop]

theorem pagesEnd_eq (hend : 0x1000 * (a + n) < wordSize) :
    pagesEnd (0x1000 * a) n = 0x1000 * (a + n) := by
  unfold pagesEnd
  rw [Nat.mod_eq_of_lt] <;> omega

theorem pagesLoop_fuel {page : Pmm → Nat → Option (Nat × Pmm)} {stop : Nat}
    (hstop : stop < wordSize) (hgap : (∃ m, p + 0x1000 * m = stop ∧ m ≤ n) ∨ stop ≤ p) :
    ∀ extra acc s, pagesLoop page (n + extra) p stop acc s = pagesLoop page n p stop acc s := by
  induction n generalizing p with
  | zero =>
    intro extra acc s
    have : ¬ p < stop := by omega
    cases extra <;> simp [pagesLoop, this]
  | succ n ih =>
    intro extra acc s
    rw [Nat.succ_add]
    by_cases hp : p < stop
    · obtain ⟨m, hm, hmn⟩ : ∃ m, p + 0x1000 * m = stop ∧ m ≤ n + 1 := by
        rcases hgap with hgap | hgap
        · exact hgap
        · omega
      have hnext : (p + 0x1000) % wordSize = p + 0x1000 := Nat.mod_eq_of_lt (by omega)
      have hgap' : (∃ m, p + 0x1000 + 0x1000 * m = stop ∧ m ≤ n) ∨ stop ≤ p + 0x1000 :=
        .inl ⟨m - 1, by omega, by omega⟩
      simp only [pagesLoop, hp, if_true, hnext]
      cases page s p with
      | none => rfl
      | some r => exact ih hgap' extra _ _
    · simp [pagesLoop, hp]

theorem pagesEnd_gap (h : p < pagesEnd p n) : ∃ m, p + 0x1000 * m = pagesEnd p n ∧ m ≤ n := by
  have hdiv := Nat.div_add_mod (p + 0x1000 * n) wordSize
  refine ⟨n - 0x10000000000000 * ((p + 0x1000 * n) / wordSize), ?_, by omega⟩
  simp only [pagesEnd, wordSize] at h hdiv ⊢
  omega

/-- `n` rounds are enough for both loops, wherever the bound wraps: going round
more often changes nothing. -/
theorem pagesLoop_enough (page : Pmm → Nat → Option (Nat × Pmm))
    (p n extra acc : Nat) (s : Pmm) :
    pagesLoop page (n + extra) p (pagesEnd p n) acc s = pagesLoop page n p (pagesEnd p n) acc s := by
  refine pagesLoop_fuel (Nat.mod_lt _ (by decide)) ?_ extra acc s
  by_cases hle : pagesEnd p n ≤ p
  · exact .inr hle
  · exact .inl (pagesEnd_gap (Nat.lt_of_not_le hle))

theorem lockPages_spec (hend : 0x1000 * (a + n) < wordSize) (hlen : a + n ≤ 8 * s.pageBitmap.len) :
    ∃ k s', lockPages s (0x1000 * a) n = some (k, s') ∧ s.SameBounds s' ∧
      ∀ j, s'.bit j = (decide (a ≤ j ∧ j < a + n) || s.bit j) := by
  have hstep : ∀ j t, j < n →
      (s.SameBounds t ∧ ∀ i, t.bit i = (decide (a ≤ i ∧ i < a + j) || s.bit i)) →
      ∃ k t', lockPage t (0x1000 * (a + j)) = some (k, t') ∧
        (s.SameBounds t' ∧ ∀ i, t'.bit i = (decide (a ≤ i ∧ i < a + (j + 1)) || s.bit i)) := by
    rintro j t hj ⟨hsame, hbits⟩
    obtain ⟨k, t', hlock, hsame', hbits'⟩ :=
      lockPage_spec (s := t) (a := a + j) (by rw [hsame.len]; omega)
    refine ⟨k, t', hlock, hsame.trans hsame', fun i => ?_⟩
    rw [hbits', hbits, ← Bool.or_assoc, ← Bool.decide_or]
    congr 1
    exact decide_eq_decide.mpr (by omega)
  obtain ⟨k, s', hloop, hsame, hbits⟩ := pagesLoop_rule
    (fun j t => s.SameBounds t ∧ ∀ i, t.bit i = (decide (a ≤ i ∧ i < a + j) || s.bit i))
    hend hstep n 0 0 s (by omega) ⟨.refl s, fun i => by simp⟩
  exact ⟨k, s', by rw [lockPages, pagesEnd_eq hend]; exact hloop, hsame, hbits⟩

theorem unlockPages_spec (hend : 0x1000 * (a + n) < wordSize)
    (hlen : a + n ≤ 8 * s.pageBitmap.len) :
    ∃ k s', unlockPages s (0x1000 * a) n = some (k, s') ∧ s.SameBounds s' ∧
      ∀ j, s'.bit j = (!decide (a ≤ j ∧ j < a + n) && s.bit j) := by
  have hstep : ∀ j t, j < n →
      (s.SameBounds t ∧ ∀ i, t.bit i = (!decide (a ≤ i ∧ i < a + j) && s.bit i)) →
      ∃ k t', unlockPage t (0x1000 * (a + j)) = some (k, t') ∧
        (s.SameBounds t' ∧ ∀ i, t'.bit i = (!decide (a ≤ i ∧ i < a + (j + 1)) && s.bit i)) := by
    rintro j t hj ⟨hsame, hbits⟩
    obtain ⟨k, t', hunlock, hsame', hbits'⟩ :=
      unlockPage_spec (s := t) (a := a + j) (by rw [hsame.len]; omega)
    refine ⟨k, t', hunlock, hsame.trans hsame', fun i => ?_⟩
    rw [hbits', hbits, ← Bool.and_assoc, ← Bool.not_or, ← Bool.decide_or]
    congr 2
    exact decide_eq_decide.mpr (by omega)
  obtain ⟨k, s', hloop, hsame, hbits⟩ := pagesLoop_rule
    (fun j t => s.SameBounds t ∧ ∀ i, t.bit i = (!decide (a ≤ i ∧ i < a + j) && s.bit i))
    hend hstep n 0 0 s (by omega) ⟨.refl s, fun i => by simp; omega⟩
  exact ⟨k, s', by rw [unlockPages, pagesEnd_eq hend]; exact hloop, hsame, hbits⟩

-- ---------------------------------------------------------------------------
-- The search
-- ---------------------------------------------------------------------------

/-- The bit behind the last frame exists and is set: no search for free frames
runs past it. -/
structure Pmm.Walled (s : Pmm) : Prop where
  total_lt : s.totalMemory < wordSize
  slack : s.frames < 8 * s.pageBitmap.len
  wall : s.bit s.frames = true

def Pmm.FreeRun (s : Pmm) (p count : Nat) : Prop := ∀ j, j < count → s.bit (p + j) = false

theorem Pmm.Walled.freeRun_le (hw : s.Walled) (hp : p ≤ s.frames) (hrun : s.FreeRun p count) :
    p + count ≤ s.frames := by
  by_contra hgt
  have := hrun (s.frames - p) (by omega)
  rw [show p + (s.frames - p) = s.frames by omega, hw.wall] at this
  contradiction

theorem Pmm.Walled.end_lt (hw : s.Walled) (h : a + n ≤ s.frames) : 0x1000 * (a + n) < wordSize := by
  have := hw.total_lt
  unfold Pmm.frames at h
  omega

theorem runIsFree_spec (hw : s.Walled) :
    ∀ remaining i, p + i ≤ s.frames →
      ∃ b, runIsFree s.pageBitmap p remaining i = some b ∧
        (b = true ↔ ∀ j, j < remaining → s.bit (p + i + j) = false) := by
  intro remaining
  induction remaining with
  | zero => exact fun i _ => ⟨true, rfl, by simp⟩
  | succ remaining ih =>
    intro i hi
    have hin : p + i < 8 * s.pageBitmap.len := Nat.lt_of_le_of_lt hi hw.slack
    have hset : bitmapIsset s.pageBitmap (p + i) = some (s.bit (p + i)) := Bitmap.isset_eq hin
    cases hbit : s.bit (p + i)
    · have hne : p + i ≠ s.frames := fun e => by simp [e, hw.wall] at hbit
      obtain ⟨b, hb, hiff⟩ := ih (i + 1) (by omega)
      refine ⟨b, by simp [runIsFree, hset, hbit, hb], hiff.trans ⟨?_, ?_⟩⟩
      · intro h j hj
        cases j with
        | zero => exact hbit
        | succ j =>
          rw [show p + i + (j + 1) = p + (i + 1) + j by omega]
          exact h j (by omega)
      · intro h j hj
        rw [show p + (i + 1) + j = p + i + (j + 1) by omega]
        exact h (j + 1) (by omega)
    · refine ⟨false, by simp [runIsFree, hset, hbit], ?_⟩
      simp only [Bool.false_eq_true, false_iff, not_forall]
      exact ⟨0, by omega, by simp [hbit]⟩

/-- What a request can do: hand out the first free run at or after the hint
and move the hint behind it, or find none and change nothing. -/
theorem requestLoop_spec (hw : s.Walled) :
    ∀ fuel p, p + fuel = s.frames →
      (∃ q s', requestLoop s count fuel p = some (0x1000 * q, s') ∧ p ≤ q ∧ q < s.frames ∧
        s.FreeRun q count ∧ (∀ r, p ≤ r → r < q → ¬ s.FreeRun r count) ∧
        { s with lastFree := q + count : Pmm }.SameBounds s' ∧
        ∀ j, s'.bit j = (decide (q ≤ j ∧ j < q + count) || s.bit j)) ∨
      (requestLoop s count fuel p = some (0, s) ∧
        ∀ r, p ≤ r → r < s.frames → ¬ s.FreeRun r count) := by
  intro fuel
  induction fuel with
  | zero => exact fun p hp => .inr ⟨rfl, fun r _ _ => by omega⟩
  | succ fuel ih =>
    intro p hp
    obtain ⟨b, hb, hiff⟩ := runIsFree_spec (p := p) hw count 0 (by omega)
    simp only [Nat.add_zero] at hiff
    cases b with
    | true =>
      have hrun : s.FreeRun p count := hiff.mp rfl
      have hle := hw.freeRun_le (by omega) hrun
      obtain ⟨k, s', hlock, hsame, hbits⟩ := lockPages_spec
        (s := { s with lastFree := p + count }) (a := p) (n := count) (hw.end_lt hle)
        (by have := hw.slack; simp only; omega)
      refine .inl ⟨p, s', ?_, Nat.le_refl _, by omega, hrun, fun r _ _ => by omega, hsame, hbits⟩
      rw [Nat.mul_comm] at hlock ⊢
      simp [requestLoop, hb, hlock]
    | false =>
      have hnot : ¬ s.FreeRun p count := fun h => by simpa using hiff.mpr h
      have hskip : requestLoop s count (fuel + 1) p = requestLoop s count fuel (p + 1) := by
        simp [requestLoop, hb]
      rw [hskip]
      rcases ih (p + 1) (by omega) with ⟨q, s', hreq, hle, hlt, hrun, hmin, hsame, hbits⟩ | ⟨hreq, hnone⟩
      · refine .inl ⟨q, s', hreq, by omega, hlt, hrun, fun r hr hrq => ?_, hsame, hbits⟩
        by_cases he : r = p
        · exact he ▸ hnot
        · exact hmin r (by omega) hrq
      · refine .inr ⟨hreq, fun r hr hrf => ?_⟩
        by_cases he : r = p
        · exact he ▸ hnot
        · exact hnone r (by omega) hrf

theorem pmmRequestPages_cases (count : Nat) (hw : s.Walled) :
    (∃ q s', pmmRequestPages s count = some (0x1000 * q, s') ∧ s.lastFree ≤ q ∧ q < s.frames ∧
        s.FreeRun q count ∧ (∀ r, s.lastFree ≤ r → r < q → ¬ s.FreeRun r count) ∧
        { s with lastFree := q + count : Pmm }.SameBounds s' ∧
        ∀ j, s'.bit j = (decide (q ≤ j ∧ j < q + count) || s.bit j)) ∨
      (pmmRequestPages s count = some (0, s) ∧
        ∀ r, s.lastFree ≤ r → r < s.frames → ¬ s.FreeRun r count) := by
  by_cases h : s.lastFree ≤ s.frames
  · exact requestLoop_spec hw _ _ (by omega)
  · refine .inr ⟨?_, fun r hr hlt => by omega⟩
    rw [pmmRequestPages, show s.frames - s.lastFree = 0 by omega]
    rfl

theorem pmmReleasePages_spec (hw : s.Walled) (h : a + n ≤ s.frames) :
    ∃ s', pmmReleasePages s (0x1000 * a) n = some s' ∧
      s'.pageBitmap.len = s.pageBitmap.len ∧ s'.totalMemory = s.totalMemory ∧
      s'.lastFree = min s.lastFree (0x1000 * a) ∧
      ∀ j, s'.bit j = (!decide (a ≤ j ∧ j < a + n) && s.bit j) := by
  obtain ⟨k, s₁, hun, hsame, hbits⟩ := unlockPages_spec (s := s) (hw.end_lt h)
    (by have := hw.slack; omega)
  have hhint := hsame.lastFree
  by_cases hlt : 0x1000 * a < s₁.lastFree
  · refine ⟨{ s₁ with lastFree := 0x1000 * a }, ?_, hsame.len, hsame.totalMemory, ?_, hbits⟩
    · simp [pmmReleasePages, hun, hlt]
    · simp only; omega
  · refine ⟨s₁, ?_, hsame.len, hsame.totalMemory, by omega, hbits⟩
    simp [pmmReleasePages, hun, hlt]

theorem Pmm.Walled.of_same (hw : s.Walled) (hlen : s'.pageBitmap.len = s.pageBitmap.len)
    (htotal : s'.totalMemory = s.totalMemory) (hwall : s'.bit s.frames = true) : s'.Walled := by
  have hframes : s'.frames = s.frames := by simp [Pmm.frames, htotal]
  exact ⟨by rw [htotal]; exact hw.total_lt, by rw [hframes, hlen]; exact hw.slack,
    by rw [hframes]; exact hwall⟩

end ShedOS.Memory
