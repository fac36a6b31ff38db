import ShedOS.Lib.Bytes

/-!
# memset and memcpy

The byte loops of `memutil.c`, on addresses.
-/

namespace ShedOS.Libk

open Bytes

def memset (m : Mem) (dst : Nat) (c : BitVec 8) : (n : Nat) → Mem
  | 0 => m
  | n + 1 => (memset m dst c n).setByte (dst + n) c

def memcpy (m : Mem) (dst src : Nat) : (n : Nat) → Mem
  | 0 => m
  | n + 1 => (memcpy m dst src n).setByte (dst + n) (memcpy m dst src n (src + n))

variable {m : Mem} {dst src n k : Nat} {c : BitVec 8}

theorem memset_apply : memset m dst c n k = if dst ≤ k ∧ k < dst + n then c else m k := by
  induction n with
  | zero => simp [memset]
  | succ n ih =>
    by_cases h : k = dst + n
    · subst h
      rw [memset, Mem.setByte_same, if_pos (by omega)]
    · rw [memset, Mem.setByte_ne h, ih]
      congr 1
      exact propext (by omega)

theorem memset_outside (h : k < dst ∨ dst + n ≤ k) : memset m dst c n k = m k := by
  rw [memset_apply, if_neg (by omega)]

/-- Source and destination must not overlap: the loop copies what it wrote
before otherwise. -/
theorem memcpy_apply (h : src + n ≤ dst ∨ dst + n ≤ src) :
    memcpy m dst src n k = if dst ≤ k ∧ k < dst + n then m (src + (k - dst)) else m k := by
  induction n generalizing k with
  | zero => simp [memcpy]
  | succ n ih =>
    have ih := fun k => ih (k := k) (by omega)
    by_cases hk : k = dst + n
    · subst hk
      rw [memcpy, Mem.setByte_same, ih, if_neg (by omega), if_pos (by omega)]
      congr 1
      omega
    · rw [memcpy, Mem.setByte_ne hk, ih]
      congr 1
      exact propext (by omega)

theorem memcpy_outside (hk : k < dst ∨ dst + n ≤ k) : memcpy m dst src n k = m k := by
  induction n with
  | zero => rfl
  | succ n ih => rw [memcpy, Mem.setByte_ne (by omega), ih (by omega)]

-- ---------------------------------------------------------------------------
-- Through a translation
-- ---------------------------------------------------------------------------

def memsetVia (place : BitVec 64 → Nat) (m : Mem) (dst : BitVec 64) (c : BitVec 8) : (n : Nat) → Mem
  | 0 => m
  | n + 1 => (memsetVia place m dst c n).setByte (place (dst + BitVec.ofNat 64 n)) c

def memcpyVia (place : BitVec 64 → Nat) (m : Mem) (dst src : BitVec 64) : (n : Nat) → Mem
  | 0 => m
  | n + 1 =>
    let m := memcpyVia place m dst src n
    m.setByte (place (dst + BitVec.ofNat 64 n)) (m (place (src + BitVec.ofNat 64 n)))

variable {place : BitVec 64 → Nat} {p q : BitVec 64} {a : Nat}

theorem memcpyVia_outside (h : ∀ i < n, a ≠ place (p + BitVec.ofNat 64 i)) : memcpyVia place m p q n a = m a := by
  induction n with
  | zero => rfl
  | succ n ih =>
    refine (Mem.setByte_ne (h n (Nat.lt_succ_self n))).trans (ih fun i hi => h i ?_)
    exact Nat.lt_succ_of_lt hi

theorem memcpyVia_apply
    (hinj : ∀ i < n, ∀ j < n, place (p + BitVec.ofNat 64 i) = place (p + BitVec.ofNat 64 j) → i = j)
    (hapart : ∀ i < n, ∀ j < n, place (p + BitVec.ofNat 64 i) ≠ place (q + BitVec.ofNat 64 j)) {i : Nat}
    (hi : i < n) : memcpyVia place m p q n (place (p + BitVec.ofNat 64 i)) = m (place (q + BitVec.ofNat 64 i)) := by
  induction n with
  | zero => exact absurd hi (Nat.not_lt_zero i)
  | succ n ih =>
    have hlast : ∀ {j}, j < n → j < n + 1 := Nat.lt_succ_of_lt
    by_cases hin : i = n
    · subst hin
      refine Mem.setByte_same.trans (memcpyVia_outside fun j hj => ?_)
      exact (hapart j (hlast hj) i hi).symm
    · have hlt : i < n := by omega
      refine (Mem.setByte_ne fun e => hin (hinj i hi n (Nat.lt_succ_self n) e)).trans ?_
      exact ih (fun i hi j hj => hinj i (hlast hi) j (hlast hj)) (fun i hi j hj => hapart i (hlast hi) j (hlast hj))
        hlt

end ShedOS.Libk
