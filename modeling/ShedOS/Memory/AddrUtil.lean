import Mathlib.Tactic

/-!
# Addresses

`addrutil.c` on 64-bit words, and what the conversions between physical and
higher-half addresses do to frame numbers.
-/

namespace ShedOS.Memory

abbrev U64 := BitVec 64

def VADDR_HIGHER : U64 := 0xffff800000000000#64
def VADDR_KERNEL : U64 := 0xffffffff80000000#64

def addrOffsetHigher (p : U64) : U64 := p + VADDR_HIGHER
def addrOffsetLower (p : U64) : U64 := p - VADDR_HIGHER
def addrEnsureHigher (p : U64) : U64 := p ||| VADDR_HIGHER
def addrEnsureLower (p : U64) : U64 := p &&& ~~~VADDR_HIGHER
def addrAlignUp (p a : U64) : U64 := (p + a - 1) &&& ~~~(a - 1)
def addrAlignDown (p a : U64) : U64 := p &&& ~~~(a - 1)
def addrPageAlignUp (p : U64) : U64 := addrAlignUp p 0x1000
def addrPageAlignDown (p : U64) : U64 := addrAlignDown p 0x1000

def ptrIsUser (ptr : U64) : Bool := decide (ptr ≤ 0x7ffffffffff0#64)

def physical (p : U64) : Nat := (addrOffsetLower p).toNat

def framePtr (n : Nat) : U64 := addrOffsetHigher (BitVec.ofNat 64 (0x1000 * n))

/-- Frames the direct map reaches: physical addresses below `2 ^ 47`. -/
def frameLimit : Nat := 2 ^ 35

variable {n i : Nat} {e : U64}

theorem toNat_addrEnsureLower (p : U64) : (addrEnsureLower p).toNat = p.toNat % 2 ^ 47 := by
  rw [addrEnsureLower, show ~~~VADDR_HIGHER = 0x00007fffffffffff#64 from rfl, BitVec.toNat_and]
  exact Nat.and_two_pow_sub_one_eq_mod _ 47

theorem addrOffsetLower_higher (p : U64) : addrOffsetLower (addrOffsetHigher p) = p :=
  BitVec.add_sub_cancel p VADDR_HIGHER

theorem toNat_frame (hn : n < frameLimit) : (BitVec.ofNat 64 (0x1000 * n)).toNat = 0x1000 * n := by
  rw [BitVec.toNat_ofNat, Nat.mod_eq_of_lt]
  unfold frameLimit at hn
  omega

theorem physical_framePtr_add (hn : n < frameLimit) (hi : i < 0x1000) :
    physical (framePtr n + BitVec.ofNat 64 i) = 0x1000 * n + i := by
  unfold frameLimit at hn
  have h : addrOffsetLower (framePtr n + BitVec.ofNat 64 i) = BitVec.ofNat 64 (0x1000 * n + i) := by
    simp only [addrOffsetLower, framePtr, addrOffsetHigher]
    bv_omega
  rw [physical, h, BitVec.toNat_ofNat, Nat.mod_eq_of_lt (by omega)]

theorem physical_framePtr (hn : n < frameLimit) : physical (framePtr n) = 0x1000 * n := by
  have h := physical_framePtr_add (i := 0) hn (by decide)
  simpa using h

theorem and_not_fff : (e &&& ~~~0xfff#64) = BitVec.ofNat 64 (0x1000 * (e.toNat / 0x1000)) := by
  refine BitVec.eq_of_getLsbD_eq fun k hk => ?_
  have hmask : ∀ k, k < 64 → (~~~0xfff#64).getLsbD k = decide (12 ≤ k) := by decide
  rw [BitVec.getLsbD_and, hmask k hk, BitVec.getLsbD_ofNat]
  simp only [hk, decide_true, Bool.true_and]
  rw [show 0x1000 = 2 ^ 12 by rfl, Nat.mul_comm, Nat.testBit_mul_two_pow, Nat.testBit_div_two_pow]
  by_cases h : 12 ≤ k
  · simp [h, BitVec.getLsbD, show k - 12 + 12 = k by omega]
  · simp [h]

theorem addrPageAlignUp_div (h : n + 0xfff < 2 ^ 64) :
    (addrPageAlignUp (BitVec.ofNat 64 n) / 0x1000).toNat = (n + 0xfff) / 0x1000 := by
  have hsum : BitVec.ofNat 64 n + 0x1000 - 1 = BitVec.ofNat 64 (n + 0xfff) := by bv_omega
  rw [addrPageAlignUp, addrAlignUp, show (0x1000 : U64) - 1 = 0xfff#64 by decide, and_not_fff, hsum, BitVec.toNat_udiv,
    BitVec.toNat_ofNat, BitVec.toNat_ofNat, Nat.mod_eq_of_lt h, Nat.mod_eq_of_lt (by omega)]
  exact Nat.mul_div_cancel_left _ (by decide)

/-- The frame number an entry refers to through the direct map: bits 12..46. -/
def frameOf (e : U64) : Nat := e.toNat / 0x1000 % frameLimit

theorem frameOf_lt : frameOf e < frameLimit := Nat.mod_lt _ (by decide)

theorem frame_and_higher (hn : n < frameLimit) : BitVec.ofNat 64 (0x1000 * n) &&& VADDR_HIGHER = 0 := by
  refine BitVec.eq_of_getLsbD_eq fun k hk => ?_
  have hmask : ∀ k, k < 64 → VADDR_HIGHER.getLsbD k = decide (47 ≤ k) := by decide
  rw [BitVec.getLsbD_and, hmask k hk, BitVec.getLsbD_ofNat]
  by_cases h : 47 ≤ k
  · have hlt : 0x1000 * n < 2 ^ k := by
      have : 2 ^ 47 ≤ 2 ^ k := Nat.pow_le_pow_right (by decide) h
      unfold frameLimit at hn
      omega
    simp [Nat.testBit_lt_two_pow hlt]
  · simp [h]

theorem framePtr_eq_or (hn : n < frameLimit) : framePtr n = BitVec.ofNat 64 (0x1000 * n) ||| VADDR_HIGHER :=
  BitVec.add_eq_or_of_and_eq_zero _ _ (frame_and_higher hn)

theorem addrEnsureLower_framePtr (hn : n < frameLimit) : addrEnsureLower (framePtr n) = BitVec.ofNat 64 (0x1000 * n) := by
  have hand := frame_and_higher hn
  rw [framePtr_eq_or hn, addrEnsureLower]
  refine BitVec.eq_of_getLsbD_eq fun k hk => ?_
  have hbit := congrArg (·.getLsbD k) hand
  simp only [BitVec.getLsbD_and, BitVec.getLsbD_or, BitVec.getLsbD_not, hk, decide_true, Bool.true_and] at hbit ⊢
  revert hbit
  cases (BitVec.ofNat 64 (0x1000 * n)).getLsbD k <;> cases VADDR_HIGHER.getLsbD k <;> simp

theorem addrEnsureHigher_and_not_fff : addrEnsureHigher (e &&& ~~~0xfff#64) = framePtr (frameOf e) := by
  rw [framePtr_eq_or frameOf_lt]
  refine BitVec.eq_of_getLsbD_eq fun k hk => ?_
  have hmask : ∀ k, k < 64 → VADDR_HIGHER.getLsbD k = decide (47 ≤ k) := by decide
  have hfff : ∀ k, k < 64 → (~~~0xfff#64).getLsbD k = decide (12 ≤ k) := by decide
  rw [addrEnsureHigher, BitVec.getLsbD_or, BitVec.getLsbD_or, BitVec.getLsbD_and, hmask k hk,
    hfff k hk, BitVec.getLsbD_ofNat]
  by_cases h : 47 ≤ k
  · simp [h]
  · simp only [h, decide_false, Bool.or_false, hk, decide_true, Bool.true_and]
    rw [frameOf, frameLimit, show 0x1000 = 2 ^ 12 by rfl, Nat.mul_comm, Nat.testBit_mul_two_pow,
      Nat.testBit_mod_two_pow, Nat.testBit_div_two_pow]
    by_cases h12 : 12 ≤ k
    · simp [h12, BitVec.getLsbD, show k - 12 + 12 = k by omega, show k - 12 < 35 by omega]
    · simp [h12]

theorem toNat_frame_or {w : U64} (hn : n < frameLimit) (hw : w.toNat < 0x1000) :
    (BitVec.ofNat 64 (0x1000 * n) ||| w).toNat = 0x1000 * n + w.toNat := by
  rw [BitVec.toNat_or, toNat_frame hn]
  exact (Nat.two_pow_add_eq_or_of_lt (i := 12) hw n).symm

theorem frameOf_frame_or {w : U64} (hn : n < frameLimit) (hw : w.toNat < 0x1000) :
    frameOf (BitVec.ofNat 64 (0x1000 * n) ||| w) = n := by
  rw [frameOf, toNat_frame_or hn hw, Nat.mod_eq_of_lt] <;> omega

theorem getLsbD_frame_or {w : U64} (hi : i < 12) :
    (BitVec.ofNat 64 (0x1000 * n) ||| w).getLsbD i = w.getLsbD i := by
  rw [BitVec.getLsbD_or, BitVec.getLsbD_ofNat, show 0x1000 = 2 ^ 12 by rfl, Nat.mul_comm,
    Nat.testBit_mul_two_pow]
  simp [Nat.not_le.mpr hi]

end ShedOS.Memory
