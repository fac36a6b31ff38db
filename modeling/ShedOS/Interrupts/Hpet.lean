import Mathlib.Data.Option.Basic
import ShedOS.Memory.AddrUtil

/-!
# The HPET as a clock

`hpet_initialize` and `hpet_read_counter`: when the clock counts microseconds.
-/

namespace ShedOS.Interrupts

open Memory (U64)

def HPET_REG_GENERAL_CAPABILITIES : Nat := 0x0
def HPET_REG_GENERAL_CONFIGURATION : Nat := 0x02
def HPET_REG_MAIN_COUNTER_VALUE : Nat := 0x1e
def HPET_REG_TIMER_N_CONF_CAP (n : Nat) : Nat := 0x20 + 0x4 * n
def HPET_REG_TIMER_N_COMPARATOR (n : Nat) : Nat := 0x21 + 0x4 * n

def MAIN_CAP_LEGACY_CAPABLE : U64 := 0x0f
def MAIN_CAP_CLOCK_PERIOD : Nat := 0x20
def MAIN_CONF_COUNTER_ENABLE : U64 := 1 <<< 0
def MAIN_CONF_LEGACY_ENABLE : U64 := 1 <<< 1
def TIMER_CONF_IRQ_ENABLE : U64 := 1 <<< 2
def TIMER_CONF_PERIODIC_ENABLE : U64 := 1 <<< 3
def TIMER_CONF_PERIODIC_CAPABLE : U64 := 1 <<< 4
def TIMER_CONF_DIRECT_ACCUM_SET : U64 := 1 <<< 6

/-- The registers behind `hpet_mmio_regs`, and `main_frequency`. -/
structure Hpet where
  regs : Nat → U64
  mainFrequency : BitVec 32

def clockPeriod (regs : Nat → U64) : BitVec 32 := (regs HPET_REG_GENERAL_CAPABILITIES >>> MAIN_CAP_CLOCK_PERIOD).setWidth 32

/-- `none` is a failed assertion, or a division by zero. -/
def hpetInitialize (regs : Nat → U64) : Option Hpet := do
  let mainCap := regs HPET_REG_GENERAL_CAPABILITIES
  guard (mainCap ||| MAIN_CAP_LEGACY_CAPABLE > 0)
  let period := clockPeriod regs
  guard (period ≠ 0)
  let mainFrequency := BitVec.ofNat 32 (1000000000000000 / period.toNat)
  let timer0 := regs (HPET_REG_TIMER_N_CONF_CAP 0)
  guard (timer0 &&& TIMER_CONF_PERIODIC_CAPABLE > 0)
  let timer0 := timer0 ||| TIMER_CONF_IRQ_ENABLE ||| TIMER_CONF_PERIODIC_ENABLE ||| TIMER_CONF_DIRECT_ACCUM_SET
  let regs := Function.update regs (HPET_REG_TIMER_N_CONF_CAP 0) timer0
  let regs := Function.update regs (HPET_REG_TIMER_N_COMPARATOR 0) ((mainFrequency / 300).setWidth 64)
  let regs := Function.update regs HPET_REG_MAIN_COUNTER_VALUE 0
  let mainConf := regs HPET_REG_GENERAL_CONFIGURATION ||| MAIN_CONF_COUNTER_ENABLE ||| MAIN_CONF_LEGACY_ENABLE
  let regs := Function.update regs HPET_REG_GENERAL_CONFIGURATION mainConf
  return ⟨regs, mainFrequency⟩

def hpetReadCounter (h : Hpet) : Option U64 := do
  let ticks := h.mainFrequency / 1000000
  guard (ticks ≠ 0)
  return h.regs HPET_REG_MAIN_COUNTER_VALUE / ticks.setWidth 64

def Hpet.countTo (h : Hpet) (c : U64) : Hpet := { h with regs := Function.update h.regs HPET_REG_MAIN_COUNTER_VALUE c }

variable {regs : Nat → U64} {h : Hpet} {c : U64} {d n p k : Nat}

-- ---------------------------------------------------------------------------
-- Two scales
-- ---------------------------------------------------------------------------

/-- Counts divided by `d` stay close to counts times `p / n` only if the two
scales are the same. -/
theorem scales_near_iff (hd : 0 < d) (hn : 0 < n) (hk : 2 * (n * d) ≤ k) :
    (∀ c ≤ k, c / d ≤ c * p / n + 1 ∧ c * p / n ≤ c / d + 1) ↔ d * p = n := by
  constructor
  · intro h
    -- both divisions are exact here, and a difference counts twice
    obtain ⟨hle, hge⟩ := h (2 * (n * d)) hk
    have hleft : 2 * (n * d) / d = 2 * n := by
      rw [← Nat.mul_assoc]
      exact Nat.mul_div_cancel _ hd
    have hright : 2 * (n * d) * p / n = 2 * (d * p) := by
      rw [show 2 * (n * d) * p = n * (2 * (d * p)) by ring]
      exact Nat.mul_div_cancel_left _ hn
    omega
  · rintro rfl c -
    have hp : 0 < p := Nat.pos_of_mul_pos_left hn
    have hsame : c * p / (d * p) = c / d := Nat.mul_div_mul_right c d hp
    omega

-- ---------------------------------------------------------------------------
-- The clock
-- ---------------------------------------------------------------------------

theorem hpetInitialize_frequency (hinit : hpetInitialize regs = some h) :
    (clockPeriod regs).toNat ≠ 0 ∧ h.mainFrequency.toNat = 1000000000000000 / (clockPeriod regs).toNat % 2 ^ 32 := by
  obtain ⟨-, -, hinit⟩ := Option.bind_eq_some_iff.mp hinit
  obtain ⟨_, hperiod, hinit⟩ := Option.bind_eq_some_iff.mp hinit
  obtain ⟨-, -, hinit⟩ := Option.bind_eq_some_iff.mp hinit
  have hperiod : clockPeriod regs ≠ 0 := (Option.guard_eq_some' _).mp hperiod
  refine ⟨fun h0 => hperiod (BitVec.eq_of_toNat_eq h0), ?_⟩
  rw [← Option.some.inj hinit, BitVec.toNat_ofNat]

/-- The counts in a microsecond, as the divisor of `hpet_read_counter`. -/
def Hpet.divisor (h : Hpet) : Nat := h.mainFrequency.toNat / 1000000

theorem hpetReadCounter_some (h0 : h.divisor ≠ 0) :
    ∃ v, hpetReadCounter (h.countTo c) = some v ∧ v.toNat = c.toNat / h.divisor := by
  have hticks : (h.mainFrequency / 1000000).toNat = h.divisor := BitVec.toNat_udiv
  have hne : h.mainFrequency / 1000000 ≠ 0 := fun e => h0 (by rw [← hticks, e]; rfl)
  refine ⟨c / (h.mainFrequency / 1000000).setWidth 64, ?_, ?_⟩
  · unfold hpetReadCounter Hpet.countTo
    simp only [Function.update_self, hne, ne_eq, not_false_eq_true, guard_true]
    rfl
  · rw [BitVec.toNat_udiv, BitVec.toNat_setWidth_of_le (by decide), hticks]

theorem hpetReadCounter_none (h0 : h.divisor = 0) : hpetReadCounter h = none := by
  have hticks : h.mainFrequency / 1000000 = 0 := BitVec.eq_of_toNat_eq (BitVec.toNat_udiv.trans h0)
  unfold hpetReadCounter
  simp only [hticks, ne_eq, not_true_eq_false, guard_false]
  rfl

/-- Every reading is there, and at most one microsecond off. -/
def MeasuresMicroseconds (h : Hpet) (period : Nat) : Prop := ∀ c : U64, ∃ v, hpetReadCounter (h.countTo c) = some v ∧
  v.toNat ≤ c.toNat * period / 10 ^ 9 + 1 ∧ c.toNat * period / 10 ^ 9 ≤ v.toNat + 1

/-- The HPET counts whole microseconds, and its frequency fits into 32 bits. -/
theorem hpet_measures_microseconds_iff (hinit : hpetInitialize regs = some h) :
    MeasuresMicroseconds h (clockPeriod regs).toNat ↔
      (clockPeriod regs).toNat ∣ 10 ^ 9 ∧ 10 ^ 15 / (clockPeriod regs).toNat < 2 ^ 32 := by
  obtain ⟨hp0, hfreq⟩ := hpetInitialize_frequency hinit
  obtain ⟨p, hp⟩ : ∃ p, p = (clockPeriod regs).toNat := ⟨_, rfl⟩
  rw [← hp] at hp0 hfreq ⊢
  have hdivisor : h.divisor = 10 ^ 15 / p % 2 ^ 32 / 10 ^ 6 := congrArg (· / 1000000) hfreq
  have hsmall : h.divisor ≤ 4294 := by omega
  have hmeasures : MeasuresMicroseconds h p ↔ h.divisor * p = 10 ^ 9 := by
    rcases Nat.eq_zero_or_pos h.divisor with h0 | hpos
    · rw [h0, Nat.zero_mul]
      refine iff_of_false (fun hall => ?_) (by decide)
      obtain ⟨v, hv, -⟩ := hall 0
      rw [hpetReadCounter_none (h := h.countTo 0) h0] at hv
      cases hv
    · rw [← scales_near_iff hpos (by decide) (show 2 * (10 ^ 9 * h.divisor) ≤ 2 ^ 64 - 1 by omega)]
      constructor
      · intro hall c hc
        obtain ⟨v, hv, hbounds⟩ := hall (BitVec.ofNat 64 c)
        obtain ⟨v', hv', heq⟩ := hpetReadCounter_some (c := BitVec.ofNat 64 c) (Nat.ne_of_gt hpos)
        obtain rfl := Option.some.inj (hv.symm.trans hv')
        rwa [heq, BitVec.toNat_ofNat, Nat.mod_eq_of_lt (by omega)] at hbounds
      · intro hall c
        obtain ⟨v, hv, heq⟩ := hpetReadCounter_some (c := c) (Nat.ne_of_gt hpos)
        exact ⟨v, hv, heq ▸ hall c.toNat (by omega)⟩
  rw [hmeasures, hdivisor]
  constructor
  · intro heq
    refine ⟨⟨_, heq.symm.trans (Nat.mul_comm _ _)⟩, ?_⟩
    rw [← hdivisor] at heq
    have hfrequency : 10 ^ 15 / p = h.divisor * 10 ^ 6 := by
      rw [show 10 ^ 15 = p * (h.divisor * 10 ^ 6) by rw [← Nat.mul_assoc, Nat.mul_comm p, heq]; rfl]
      exact Nat.mul_div_cancel_left _ (Nat.pos_of_ne_zero hp0)
    omega
  · rintro ⟨⟨e, he⟩, hlt⟩
    have hfrequency : 10 ^ 15 / p = e * 10 ^ 6 := by
      rw [show 10 ^ 15 = p * (e * 10 ^ 6) by rw [← Nat.mul_assoc, ← he]; rfl]
      exact Nat.mul_div_cancel_left _ (Nat.pos_of_ne_zero hp0)
    rw [hfrequency] at hlt ⊢
    rw [Nat.mod_eq_of_lt hlt, Nat.mul_div_cancel _ (by decide), he, Nat.mul_comm]

def resetRegs (period : BitVec 32) : Nat → U64 := fun n =>
  if n = HPET_REG_GENERAL_CAPABILITIES then period.setWidth 64 <<< MAIN_CAP_CLOCK_PERIOD
  else if n = HPET_REG_TIMER_N_CONF_CAP 0 then TIMER_CONF_PERIODIC_CAPABLE
  else 0

theorem hpet_measures_microseconds_iff_100MHz : ∃ h, hpetInitialize (resetRegs 10000000) = some h ∧
    (MeasuresMicroseconds h (clockPeriod (resetRegs 10000000)).toNat ↔
      (clockPeriod (resetRegs 10000000)).toNat ∣ 10 ^ 9 ∧ 10 ^ 15 / (clockPeriod (resetRegs 10000000)).toNat < 2 ^ 32) :=
  ⟨_, rfl, hpet_measures_microseconds_iff rfl⟩

/-- 14.31818 MHz: the clock counts 14 to the microsecond, and gains 22 ms in a second. -/
theorem hpet_gains : ∃ h, hpetInitialize (resetRegs 69841279) = some h ∧ (clockPeriod (resetRegs 69841279)).toNat = 69841279 ∧
    hpetReadCounter (h.countTo 14318180) = some 1022727 ∧ 14318180 * 69841279 / 10 ^ 9 = 1000000 ∧
    ¬ MeasuresMicroseconds h 69841279 := by
  refine ⟨_, rfl, by decide, by decide, by decide, fun hall => ?_⟩
  obtain ⟨v, hv, hle, -⟩ := hall 14318180
  obtain rfl : 1022727 = v := Option.some.inj ((show _ = _ by decide).symm.trans hv)
  exact absurd hle (by decide)

end ShedOS.Interrupts
