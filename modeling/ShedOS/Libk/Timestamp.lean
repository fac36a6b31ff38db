import Mathlib.Data.Nat.Digits.Lemmas
import ShedOS.Libk.Format

/-!
# Timestamps

When `timer_format` stays in its buffer: it puts the seconds right-aligned
before a fixed point, whatever their length.
-/

namespace ShedOS.Libk

open Memory (U64)

variable {m m' : VMem} {a buf t v x : U64} {c : Chr} {l : List Chr} {i k base : Nat}

-- ---------------------------------------------------------------------------
-- Widths
-- ---------------------------------------------------------------------------

theorem numeral_length_le_iff (hbase : 1 < base) (hk : 0 < k) : (numeral base i).length ≤ k ↔ i < base ^ k := by
  unfold numeral
  split
  next h0 =>
    subst h0
    exact iff_of_true hk (Nat.pow_pos (by omega))
  next h0 =>
    rw [List.length_map, List.length_reverse]
    exact Nat.digits_length_le_iff hbase i

theorem lastFour_eq (h : l.length ≤ 4) : lastFour (List.replicate 4 c ++ l) = l.leftpad 4 c := by
  unfold lastFour List.leftpad
  rw [List.length_append, List.length_replicate, Nat.add_sub_cancel_left, List.drop_append, List.drop_replicate,
    List.length_replicate, Nat.sub_eq_zero_of_le h, List.drop_zero]

theorem utos_int_nat (h : v.toNat < 2 ^ 31) : utos (ofInt v) 10 0 = numeral 10 v.toNat := by
  have hlow : (v.setWidth 32).toNat = v.toNat := by
    rw [BitVec.toNat_setWidth]
    omega
  rw [utos_int (by decide) (by decide) (hlow ▸ h), hlow]

-- ---------------------------------------------------------------------------
-- Stores that did not fault
-- ---------------------------------------------------------------------------

theorem storeAll_some (h : storeAll m a l = some m') :
    (∀ x, (m' x).isSome = (m x).isSome) ∧ ∀ c ∈ l.head?, (m a).isSome = true := by
  induction l generalizing m a with
  | nil => exact ⟨fun x => Option.some.inj h ▸ rfl, fun c hc => by cases hc⟩
  | cons c l ih =>
    obtain ⟨m₁, hm₁, h⟩ := Option.bind_eq_some_iff.mp h
    unfold store at hm₁
    split at hm₁
    next ha =>
      refine ⟨fun x => ?_, fun _ _ => ha⟩
      rw [(ih h).1 x, ← Option.some.inj hm₁]
      by_cases hx : x = a
      · rw [hx, Function.update_self, ha]
        rfl
      · rw [Function.update_of_ne hx]
    next => cases hm₁

-- ---------------------------------------------------------------------------
-- timer_format
-- ---------------------------------------------------------------------------

/-- The whole seconds and the tenths of milliseconds, as they should stand. -/
def timeText (t : U64) : List Chr :=
  (numeral 10 (t.toNat / 1000000)).leftpad 4 (chr ' ') ++ chr '.' ::
    (numeral 10 (t.toNat % 1000000 / 100)).leftpad 4 (chr '0')

/-- Whatever else is mapped, the sixteen bytes of the buffer are enough, and
only they change. -/
def FormatsTime (t : U64) : Prop := ∀ (m : VMem) (buf : U64), Mapped m buf 16 → ∃ m',
  timerFormat m buf t = some m' ∧ (∀ x, (∀ i < 16, x ≠ buf + BitVec.ofNat 64 i) → m' x = m x) ∧
    Reads m' buf (timeText t ++ [0])

theorem tenths_lt : (t % 1000000 / 100).toNat < 10000 := by
  rw [BitVec.toNat_udiv, BitVec.toNat_umod]
  have := Nat.mod_lt t.toNat (show 0 < 1000000 by decide)
  simp
  omega

theorem timestamp_eq (h : t.toNat / 1000000 < 10000) : timestamp t = timeText t := by
  have hseconds : (t / 1000000).toNat = t.toNat / 1000000 := BitVec.toNat_udiv
  have htenths : (t % 1000000 / 100).toNat = t.toNat % 1000000 / 100 := by
    rw [BitVec.toNat_udiv, BitVec.toNat_umod]
    rfl
  have hlt := tenths_lt (t := t)
  rw [htenths] at hlt
  rw [timestamp, utos_int_nat (hseconds ▸ Nat.lt_trans h (by decide)), hseconds,
    utos_int_nat (htenths ▸ Nat.lt_trans hlt (by decide)), htenths,
    lastFour_eq ((numeral_length_le_iff (by decide) (by decide)).mpr h),
    lastFour_eq ((numeral_length_le_iff (by decide) (by decide)).mpr hlt), timeText]

theorem timestampStart_eq (h : t.toNat / 1000000 < 10000) : timestampStart t = 16 := by
  have hseconds : (t / 1000000).toNat = t.toNat / 1000000 := BitVec.toNat_udiv
  have hlen : (numeral 10 (t.toNat / 1000000)).length ≤ 4 := (numeral_length_le_iff (by decide) (by decide)).mpr h
  rw [timestampStart, utos_int_nat (hseconds ▸ Nat.lt_trans h (by decide)), hseconds]
  omega

theorem formatsTime_of_lt (h : t.toNat / 1000000 < 10000) : FormatsTime t := by
  intro m buf hbuf
  have hmapped : Mapped m (buf - 16 + BitVec.ofNat 64 (timestampStart t)) (26 - timestampStart t) := by
    rw [timestampStart_eq h, show buf - 16 + BitVec.ofNat 64 16 = buf by bv_omega]
    exact hbuf.mono (by decide)
  obtain ⟨m', hrun, hreads, hframe, -⟩ := timerFormat_eq hmapped
  refine ⟨m', hrun, fun x hx => hframe x fun i hi hstart heq => ?_, timestamp_eq h ▸ hreads⟩
  rw [timestampStart_eq h] at hstart
  refine hx (i - 16) (by omega) (heq.trans ?_)
  bv_omega

def island : VMem := fun x => if 0x1000 ≤ x ∧ x < 0x1010 then some 0 else none

theorem island_isSome : (island x).isSome = decide (0x1000 ≤ x ∧ x < 0x1010) := by
  unfold island
  split
  next h => rw [decide_eq_true h]; rfl
  next h => rw [decide_eq_false h]; rfl

theorem island_mapped : Mapped island 0x1000 16 := fun i hi => by
  rw [island_isSome, decide_eq_true_iff]
  constructor <;> bv_omega

theorem timerFormat_none (hlong : 4 < (utos (ofInt (t / 1000000)) 10 0).length)
    (hgap : ∀ i < 16, m (buf - 16 + BitVec.ofNat 64 i) = none) : timerFormat m buf t = none := by
  obtain ⟨s, hs⟩ : ∃ s, s = utos (ofInt (t / 1000000)) 10 0 := ⟨_, rfl⟩
  have hs20 : s.length ≤ 20 := hs ▸ utos_ten_length_le
  have hs0 : s ≠ [] := fun e => absurd (hs ▸ utos_ten_length_pos (v := ofInt (t / 1000000))) (by simp [e])
  rw [← hs] at hlong
  refine Option.eq_none_iff_forall_ne_some.mpr fun m' hrun => ?_
  unfold timerFormat at hrun
  simp only at hrun
  rw [← hs] at hrun
  obtain ⟨m₁, hm₁, hrun⟩ := Option.bind_eq_some_iff.mp hrun
  obtain ⟨m₂, hm₂, hrun⟩ := Option.bind_eq_some_iff.mp hrun
  obtain ⟨m₃, hm₃, -⟩ := Option.bind_eq_some_iff.mp hrun
  obtain ⟨c, s', rfl⟩ := List.exists_cons_of_ne_nil hs0
  have hfirst := (storeAll_some hm₃).2 c rfl
  have hbefore : buf + 4 - BitVec.ofNat 64 (c :: s').length = buf - 16 + BitVec.ofNat 64 (20 - (c :: s').length) := by bv_omega
  rw [(storeAll_some hm₂).1, (storeAll_some hm₁).1, hbefore, hgap _ (by omega)] at hfirst
  cases hfirst

theorem formatsTime_lt (hint : t.toNat / 1000000 < 2 ^ 31) (h : FormatsTime t) : t.toNat / 1000000 < 10000 := by
  have hseconds : (t / 1000000).toNat = t.toNat / 1000000 := BitVec.toNat_udiv
  refine (numeral_length_le_iff (show 1 < 10 by decide) (show 0 < 4 by decide)).mp ?_
  rw [← hseconds, ← utos_int_nat (hseconds ▸ hint)]
  refine Nat.le_of_not_lt fun hlong => ?_
  obtain ⟨m', hrun, -⟩ := h island 0x1000 island_mapped
  rw [timerFormat_none hlong fun i hi => ?_] at hrun
  · cases hrun
  · refine if_neg fun h => ?_
    obtain ⟨hlo, -⟩ := h
    bv_omega

/-- The uptime is below 10000 s. -/
theorem timerFormat_iff (hint : t.toNat / 1000000 < 2 ^ 31) : FormatsTime t ↔ t.toNat / 1000000 < 10000 :=
  ⟨formatsTime_lt hint, formatsTime_of_lt⟩

theorem timerFormat_iff_first : FormatsTime 1234567 ↔ (1234567 : U64).toNat / 1000000 < 10000 :=
  timerFormat_iff (by decide)

example : timeText 1234567 = "   1.2345".toList.map chr := by
  simp [timeText, numeral, chr, digit, List.leftpad]

/-- Two hours, 46 minutes and 40 seconds after the timer was started. -/
theorem timerFormat_leaves_buffer : (10000000000 : U64).toNat / 1000000 < 2 ^ 31 ∧ ¬ FormatsTime 10000000000 :=
  ⟨by decide, fun h => absurd (formatsTime_lt (by decide) h) (by decide)⟩

end ShedOS.Libk
