import Mathlib.Tactic

/-!
# Byte memory with little-endian words

Memory is a byte for every address. A 64-bit access touches eight consecutive
bytes; two accesses interfere only when these overlap.
-/

namespace Bytes

abbrev Mem := Nat → BitVec 8

variable {m m' : Mem} {a b k n : Nat} {v : BitVec 64} {x : BitVec 8}

def Mem.setByte (m : Mem) (a : Nat) (x : BitVec 8) : Mem := fun k => if k = a then x else m k

/-- `n` bytes from `a` on, the lowest address least significant. -/
def Mem.readBytes (m : Mem) (a : Nat) : (n : Nat) → BitVec (8 * n)
  | 0 => 0#0
  | n + 1 => m.readBytes (a + 1) n ++ m a

def Mem.read64 (m : Mem) (a : Nat) : BitVec 64 := m.readBytes a 8

def Mem.write64 (m : Mem) (a : Nat) (v : BitVec 64) : Mem :=
  fun k => if a ≤ k ∧ k < a + 8 then v.extractLsb' (8 * (k - a)) 8 else m k

theorem Mem.getLsbD_readBytes : ∀ {n a i : Nat}, i < 8 * n →
    (m.readBytes a n).getLsbD i = (m (a + i / 8)).getLsbD (i % 8) := by
  intro n
  induction n with
  | zero => intro a i hi; omega
  | succ n ih =>
    intro a i hi
    rw [Mem.readBytes, BitVec.getLsbD_append]
    by_cases h : i < 8
    · simp [h, Nat.div_eq_of_lt h, Nat.mod_eq_of_lt h]
    · simp only [h, if_false]
      rw [ih (by omega), show a + 1 + (i - 8) / 8 = a + i / 8 by omega,
        show (i - 8) % 8 = i % 8 by omega]

theorem Mem.readBytes_congr : ∀ {n a : Nat}, (∀ k, a ≤ k → k < a + n → m k = m' k) →
    m.readBytes a n = m'.readBytes a n := by
  intro n
  induction n with
  | zero => exact fun _ => rfl
  | succ n ih =>
    intro a h
    rw [Mem.readBytes, Mem.readBytes, h a (Nat.le_refl _) (by omega),
      ih fun k hk hk' => h k (by omega) (by omega)]

theorem Mem.read64_congr (h : ∀ k, a ≤ k → k < a + 8 → m k = m' k) : m.read64 a = m'.read64 a :=
  Mem.readBytes_congr h

theorem Mem.read64_write64 : (m.write64 a v).read64 a = v := by
  refine BitVec.eq_of_getLsbD_eq fun i hi => ?_
  rw [Mem.read64, Mem.getLsbD_readBytes hi]
  have hin : a ≤ a + i / 8 ∧ a + i / 8 < a + 8 := by omega
  have hmod : i % 8 < 8 := Nat.mod_lt _ (by decide)
  simp only [Mem.write64, hin, and_self, if_true, BitVec.getLsbD_extractLsb', hmod, decide_true,
    Bool.true_and]
  rw [show 8 * (a + i / 8 - a) + i % 8 = i by omega]

theorem Mem.write64_outside (h : k < a ∨ a + 8 ≤ k) : m.write64 a v k = m k := by
  unfold Mem.write64
  rw [if_neg (by omega)]

theorem Mem.write64_write64 {w : BitVec 64} : (m.write64 a v).write64 a w = m.write64 a w := by
  funext k
  unfold Mem.write64
  by_cases h : a ≤ k ∧ k < a + 8 <;> simp [h]

theorem Mem.write64_read64 : m.write64 a (m.read64 a) = m := by
  funext k
  unfold Mem.write64
  split
  next h =>
    refine BitVec.eq_of_getLsbD_eq fun i hi => ?_
    rw [BitVec.getLsbD_extractLsb', Mem.read64, Mem.getLsbD_readBytes (by omega),
      show a + (8 * (k - a) + i) / 8 = k by omega, show (8 * (k - a) + i) % 8 = i by omega]
    simp [hi]
  next => rfl

theorem Mem.read64_write64_apart (h : a + 8 ≤ b ∨ b + 8 ≤ a) :
    (m.write64 a v).read64 b = m.read64 b :=
  Mem.read64_congr fun _ _ _ => Mem.write64_outside (by omega)

theorem Mem.read64_zero (h : ∀ k, a ≤ k → k < a + 8 → m k = 0) : m.read64 a = 0 := by
  refine BitVec.eq_of_getLsbD_eq fun i hi => ?_
  rw [Mem.read64, Mem.getLsbD_readBytes hi, h _ (by omega) (by omega)]
  simp

theorem Mem.setByte_same : m.setByte a x a = x := if_pos rfl

theorem Mem.setByte_ne (h : k ≠ a) : m.setByte a x k = m k := if_neg h

theorem Mem.read64_shift (h : ∀ j, j < 8 → m (a + j) = m' (b + j)) : m.read64 a = m'.read64 b := by
  refine BitVec.eq_of_getLsbD_eq fun i hi => ?_
  rw [Mem.read64, Mem.read64, Mem.getLsbD_readBytes hi, Mem.getLsbD_readBytes hi,
    h _ (by omega)]

end Bytes
