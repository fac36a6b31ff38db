import Mathlib.Data.List.GetD
import Mathlib.Tactic

/-!
# The frame bitmap

`bitmap.c`, with an access outside the buffer as `none`: a bit index `n` is
legal exactly when the byte `n / 8` exists.
-/

namespace ShedOS.Memory

/-- `struct bitmap`. The pointer `buf` is the address of the first byte, the
bytes themselves are `bytes`; `len` is their number. -/
structure Bitmap where
  buf : Nat
  bytes : List (BitVec 8)
  deriving DecidableEq, Repr

namespace Bitmap

def len (bm : Bitmap) : Nat := bm.bytes.length

def mask (n : Nat) : BitVec 8 := 1#8 <<< (n % 8)

end Bitmap

def bitmapIsset (bm : Bitmap) (n : Nat) : Option Bool :=
  bm.bytes[n / 8]?.map fun byte => decide (byte &&& Bitmap.mask n ≠ 0)

def bitmapSet (bm : Bitmap) (n : Nat) : Option Bitmap :=
  bm.bytes[n / 8]?.map fun byte =>
    { bm with bytes := bm.bytes.set (n / 8) (byte ||| Bitmap.mask n) }

def bitmapUnset (bm : Bitmap) (n : Nat) : Option Bitmap :=
  bm.bytes[n / 8]?.map fun byte =>
    { bm with bytes := bm.bytes.set (n / 8) (byte &&& ~~~(Bitmap.mask n)) }

namespace Bitmap

variable {bm : Bitmap} {n k : Nat}

def bit (bm : Bitmap) (n : Nat) : Bool := (bm.bytes.getD (n / 8) 0).getLsbD (n % 8)

theorem getLsbD_mask {i : Nat} (hi : i < 8) : (mask n).getLsbD i = decide (i = n % 8) := by
  have hn : n % 8 < 8 := Nat.mod_lt _ (by decide)
  simp only [mask, BitVec.getLsbD_shiftLeft, hi, decide_true, Bool.true_and]
  by_cases h : i < n % 8
  · simp [h, Nat.ne_of_lt h]
  · have : (i - n % 8 = 0) ↔ i = n % 8 := by omega
    simp [h, this]

theorem and_mask_ne_zero {byte : BitVec 8} :
    byte &&& mask n ≠ 0 ↔ byte.getLsbD (n % 8) = true := by
  have hn : n % 8 < 8 := Nat.mod_lt _ (by decide)
  constructor
  · intro h
    by_contra hbit
    refine h (BitVec.eq_of_getLsbD_eq fun i hi => ?_)
    rw [BitVec.getLsbD_and, getLsbD_mask hi]
    by_cases hin : i = n % 8
    · simp [hin, Bool.eq_false_iff.mpr hbit]
    · simp [hin]
  · intro h hz
    have := congrArg (·.getLsbD (n % 8)) hz
    simp [BitVec.getLsbD_and, getLsbD_mask hn, h] at this

theorem isset_eq (hn : n < 8 * bm.len) : bitmapIsset bm n = some (bm.bit n) := by
  have hlt : n / 8 < bm.bytes.length := by unfold len at hn; omega
  simp only [bitmapIsset, bit, List.getElem?_eq_getElem hlt, Option.map_some,
    List.getD_eq_getElem _ _ hlt, and_mask_ne_zero, Bool.decide_eq_true]

theorem isset_none (hn : 8 * bm.len ≤ n) : bitmapIsset bm n = none := by
  have : bm.bytes.length ≤ n / 8 := by unfold len at hn; omega
  simp [bitmapIsset, List.getElem?_eq_none this]

theorem bit_set_byte {byte : BitVec 8} (hn : n < 8 * bm.len) :
    bit { bm with bytes := bm.bytes.set (n / 8) byte } k =
      if k / 8 = n / 8 then byte.getLsbD (k % 8) else bm.bit k := by
  have hlt : n / 8 < bm.bytes.length := by unfold len at hn; omega
  by_cases h : k / 8 = n / 8
  · simp [bit, h, hlt]
  · have h' : n / 8 ≠ k / 8 := Ne.symm h
    simp [bit, h, h']

theorem getD_byte (h : k / 8 = n / 8) :
    (bm.bytes.getD (n / 8) 0).getLsbD (k % 8) = bm.bit k := by
  rw [bit, h]

theorem mod_eq_iff (h : k / 8 = n / 8) : k % 8 = n % 8 ↔ k = n := by omega

theorem set_spec (hn : n < 8 * bm.len) :
    ∃ bm', bitmapSet bm n = some bm' ∧ bm'.len = bm.len ∧ bm'.buf = bm.buf ∧
      ∀ k, bm'.bit k = (decide (k = n) || bm.bit k) := by
  have hlt : n / 8 < bm.bytes.length := by unfold len at hn; omega
  refine ⟨{ bm with bytes := bm.bytes.set (n / 8) (bm.bytes[n / 8] ||| mask n) },
    by simp only [bitmapSet, List.getElem?_eq_getElem hlt, Option.map_some], ?_, rfl, ?_⟩
  · simp [len]
  · intro k
    rw [bit_set_byte hn]
    split
    next h =>
      have hk : k % 8 < 8 := Nat.mod_lt _ (by decide)
      rw [BitVec.getLsbD_or, getLsbD_mask hk, ← List.getD_eq_getElem _ 0 hlt, getD_byte h,
        Bool.or_comm]
      simp only [mod_eq_iff h]
    next h =>
      have : k ≠ n := fun e => h (by rw [e])
      simp [this]

theorem unset_spec (hn : n < 8 * bm.len) :
    ∃ bm', bitmapUnset bm n = some bm' ∧ bm'.len = bm.len ∧ bm'.buf = bm.buf ∧
      ∀ k, bm'.bit k = (!decide (k = n) && bm.bit k) := by
  have hlt : n / 8 < bm.bytes.length := by unfold len at hn; omega
  refine ⟨{ bm with bytes := bm.bytes.set (n / 8) (bm.bytes[n / 8] &&& ~~~(mask n)) },
    by simp only [bitmapUnset, List.getElem?_eq_getElem hlt, Option.map_some], ?_, rfl, ?_⟩
  · simp [len]
  · intro k
    rw [bit_set_byte hn]
    split
    next h =>
      have hk : k % 8 < 8 := Nat.mod_lt _ (by decide)
      rw [BitVec.getLsbD_and, BitVec.getLsbD_not, getLsbD_mask hk, ← List.getD_eq_getElem _ 0 hlt,
        getD_byte h, Bool.and_comm]
      simp only [mod_eq_iff h, hk, decide_true, Bool.true_and]
    next h =>
      have : k ≠ n := fun e => h (by rw [e])
      simp [this]

theorem bit_replicate {buf len : Nat} (hn : n < 8 * len) :
    bit ⟨buf, List.replicate len 0xff#8⟩ n = true := by
  have hlt : n / 8 < len := by omega
  have hm : n % 8 < 8 := Nat.mod_lt _ (by decide)
  have hff : ∀ i, i < 8 → (0xff#8).getLsbD i = true := by decide
  simp [bit, hlt, hff _ hm]

end Bitmap

end ShedOS.Memory
