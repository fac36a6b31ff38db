import Mathlib.Data.List.Infix
import Mathlib.Logic.Function.Basic
import ShedOS.Memory.AddrUtil

/-!
# Strings

What `printf.c` uses of `strutil.c`. Memory is what the kernel finds at virtual
addresses, and a string may lie anywhere. Loops that need not end take `fuel`.
-/

namespace ShedOS.Libk

open Memory (U64)

abbrev Chr := BitVec 8

def chr (c : Char) : Chr := BitVec.ofNat 8 c.toNat

/-- `none` is a page fault. -/
abbrev VMem := U64 → Option Chr

variable {m m' : VMem} {a x dst src : U64} {i o k fuel : Nat} {c : Chr} {l w : List Chr}

-- ---------------------------------------------------------------------------
-- Strings
-- ---------------------------------------------------------------------------

def store (m : VMem) (a : U64) (c : Chr) : Option VMem :=
  if (m a).isSome then some (Function.update m a (some c)) else none

def storeAll : VMem → U64 → List Chr → Option VMem
  | m, _, [] => some m
  | m, a, c :: l => do
    let m ← store m a c
    storeAll m (a + 1) l

def strlen (m : VMem) : (str : U64) → (fuel : Nat) → Option Nat
  | _, 0 => none
  | str, fuel + 1 => do
    let c ← m str
    if c = 0 then return 0
    let len ← strlen m (str + 1) fuel
    return len + 1

def strcpy : VMem → (dst src : U64) → (fuel : Nat) → Option VMem
  | _, _, _, 0 => none
  | m, dst, src, fuel + 1 => do
    let c ← m src
    let m ← store m dst c
    if c = 0 then return m
    strcpy m (dst + 1) (src + 1) fuel

/-- The loop for `%S`, over 16-bit characters. -/
def copyWide : VMem → (dst src : U64) → (fuel : Nat) → Option VMem
  | _, _, _, 0 => none
  | m, dst, src, fuel + 1 => do
    let low ← m src
    let high ← m (src + 1)
    if low = 0 ∧ high = 0 then store m dst 0
    else
      let m ← store m dst low
      copyWide m (dst + 1) (src + 2) fuel

/-- `strncmp` on the characters behind the two pointers; `n` is not 0. -/
def strncmp (s1 s2 : Nat → Chr) : (n : Nat) → Int
  | 0 => 0
  | n + 1 =>
    if s1 0 ≠ 0 ∧ s1 0 = s2 0 ∧ n ≠ 0 then strncmp (fun i => s1 (i + 1)) (fun i => s2 (i + 1)) n
    else (s1 0).toInt - (s2 0).toInt

def puts : VMem → (str : U64) → (fuel : Nat) → List Chr × Bool
  | _, _, 0 => ([], false)
  | m, str, fuel + 1 =>
    match m str with
    | none => ([], false)
    | some c =>
      if c = 0 then ([], true)
      else
        let (out, done) := puts m (str + 1) fuel
        (c :: out, done)

theorem strncmp_same {s1 s2 : Nat → Chr} {n : Nat} (h : ∀ i < n, s1 i = s2 i) : strncmp s1 s2 n = 0 := by
  induction n generalizing s1 s2 with
  | zero => rfl
  | succ n ih =>
    rw [strncmp]
    split
    · exact ih fun i hi => h (i + 1) (Nat.succ_lt_succ hi)
    · rw [h 0 (Nat.succ_pos n), Int.sub_self]

-- ---------------------------------------------------------------------------
-- More fuel
-- ---------------------------------------------------------------------------

theorem strcpy_succ : strcpy m dst src fuel = some m' → strcpy m dst src (fuel + 1) = some m' := by
  induction fuel generalizing m dst src with
  | zero => exact fun h => by cases h
  | succ fuel ih =>
    intro h
    rw [strcpy] at h ⊢
    cases hc : m src with
    | none => simp [hc] at h
    | some c =>
      cases hm : store m dst c with
      | none => simp [hc, hm] at h
      | some m₁ =>
        simp only [hc, hm, Option.bind_eq_bind, Option.bind_some] at h ⊢
        split at h
        next h0 => rwa [if_pos h0]
        next h0 =>
          rw [if_neg h0]
          exact ih h

theorem copyWide_succ : copyWide m dst src fuel = some m' → copyWide m dst src (fuel + 1) = some m' := by
  induction fuel generalizing m dst src with
  | zero => exact fun h => by cases h
  | succ fuel ih =>
    intro h
    rw [copyWide] at h ⊢
    cases hlow : m src with
    | none => simp [hlow] at h
    | some low =>
      cases hhigh : m (src + 1) with
      | none => simp only [hlow, hhigh, Option.bind_eq_bind, Option.bind_some, Option.bind_none, reduceCtorEq] at h
      | some high =>
        simp only [hlow, hhigh, Option.bind_eq_bind, Option.bind_some] at h ⊢
        split at h
        next h0 => rwa [if_pos h0]
        next h0 =>
          rw [if_neg h0]
          cases hm : store m dst low with
          | none => simp [hm] at h
          | some m₁ =>
            simp only [hm, Option.bind_some] at h ⊢
            exact ih h

theorem puts_succ : (puts m a fuel).1 <+: (puts m a (fuel + 1)).1 ∧
    ((puts m a fuel).2 = true → puts m a (fuel + 1) = puts m a fuel) := by
  induction fuel generalizing a with
  | zero => exact ⟨List.nil_prefix, fun h => Bool.noConfusion h⟩
  | succ fuel ih =>
    rw [puts, puts]
    cases m a with
    | none => exact ⟨List.prefix_rfl, fun _ => rfl⟩
    | some c =>
      by_cases hc : c = 0
      · simp only [hc, if_true]
        exact ⟨List.prefix_rfl, fun _ => trivial⟩
      · simp only [hc, if_false]
        exact ⟨List.cons_prefix_cons.mpr ⟨rfl, (ih (a := a + 1)).1⟩, fun h => by rw [(ih (a := a + 1)).2 h]⟩

-- ---------------------------------------------------------------------------
-- What the loops leave in memory
-- ---------------------------------------------------------------------------

def poke (m : VMem) (a : U64) (l : List Chr) : VMem := fun x => l[(x - a).toNat]?.or (m x)

def Reads (m : VMem) (a : U64) (l : List Chr) : Prop := ∀ i < l.length, m (a + BitVec.ofNat 64 i) = l[i]?

def Mapped (m : VMem) (a : U64) (n : Nat) : Prop := ∀ i < n, (m (a + BitVec.ofNat 64 i)).isSome

theorem add_one_add : a + 1 + BitVec.ofNat 64 i = a + BitVec.ofNat 64 (i + 1) := by
  bv_omega

theorem reads_cons : Reads m a (c :: l) ↔ m a = some c ∧ Reads m (a + 1) l := by
  constructor
  · intro h
    refine ⟨by simpa using h 0 (Nat.succ_pos _), fun i hi => ?_⟩
    rw [add_one_add]
    exact h (i + 1) (Nat.succ_lt_succ hi)
  · rintro ⟨h0, h⟩ i hi
    cases i with
    | zero => simpa using h0
    | succ i =>
      rw [← add_one_add]
      exact h i (Nat.lt_of_succ_lt_succ hi)

theorem Reads.mapped (h : Reads m a l) : Mapped m a l.length := fun i hi => by
  rw [h i hi, List.getElem?_eq_getElem hi]
  rfl

theorem Reads.congr (h : Reads m a l) (hm : ∀ i < l.length, m' (a + BitVec.ofNat 64 i) = m (a + BitVec.ofNat 64 i)) :
    Reads m' a l := fun i hi => (hm i hi).trans (h i hi)

theorem Reads.drop (h : Reads m a l) : Reads m (a + BitVec.ofNat 64 o) (l.drop o) := fun i hi => by
  rw [List.length_drop] at hi
  rw [BitVec.add_assoc, ← BitVec.ofNat_add, h (o + i) (by omega), List.getElem?_drop]

theorem Reads.left (h : Reads m a (l ++ w)) : Reads m a l := fun i hi => by
  rw [h i (by rw [List.length_append]; omega), List.getElem?_append_left hi]

theorem Mapped.mono {n : Nat} (h : Mapped m a n) (hk : k ≤ n) : Mapped m a k :=
  fun i hi => h i (Nat.lt_of_lt_of_le hi hk)

theorem Mapped.shift {n : Nat} (h : Mapped m a n) (hk : o + k ≤ n) : Mapped m (a + BitVec.ofNat 64 o) k :=
  fun i hi => by
    have h := h (o + i) (by omega)
    rwa [BitVec.ofNat_add, ← BitVec.add_assoc] at h

theorem poke_apply (hk : k < 2 ^ 63) (ho : o < 2 ^ 63) (hl : l.length < 2 ^ 63) :
    poke m (a + BitVec.ofNat 64 o) l (a + BitVec.ofNat 64 k) =
      if o ≤ k then l[k - o]?.or (m (a + BitVec.ofNat 64 k)) else m (a + BitVec.ofNat 64 k) := by
  unfold poke
  split
  · congr 2
    bv_omega
  · rw [List.getElem?_eq_none]
    · rfl
    · bv_omega

theorem poke_skip (hk : k < 2 ^ 63) (hl : o + l.length < 2 ^ 63) (h : k < o ∨ o + l.length ≤ k) :
    poke m (a + BitVec.ofNat 64 o) l (a + BitVec.ofNat 64 k) = m (a + BitVec.ofNat 64 k) := by
  rw [poke_apply hk (by omega) (by omega)]
  split
  · rw [List.getElem?_eq_none (by omega)]
    rfl
  · rfl

theorem poke_in (hl : o + l.length < 2 ^ 63) (h : o ≤ k ∧ k < o + l.length) :
    poke m (a + BitVec.ofNat 64 o) l (a + BitVec.ofNat 64 k) = l[k - o]? := by
  rw [poke_apply (by omega) (by omega) (by omega), if_pos h.1, List.getElem?_eq_getElem (by omega)]
  rfl

theorem reads_poke (hl : l.length ≤ 2 ^ 64) : Reads (poke m a l) a l := fun i hi => by
  have hlt : i < 2 ^ 64 := Nat.lt_of_lt_of_le hi hl
  have hoff : (a + BitVec.ofNat 64 i - a).toNat = i := by bv_omega
  rw [poke, hoff, List.getElem?_eq_getElem hi]
  rfl

theorem poke_outside (hx : ∀ i < l.length, x ≠ a + BitVec.ofNat 64 i) : poke m a l x = m x := by
  unfold poke
  rw [List.getElem?_eq_none]
  · rfl
  · refine Nat.le_of_not_lt fun h => hx _ h ?_
    bv_omega

theorem poke_isSome (h : (m x).isSome) : (poke m a l x).isSome := by
  unfold poke
  cases l[(x - a).toNat]? with
  | none => exact h
  | some c => rfl

theorem Mapped.poke {n : Nat} {b : U64} (h : Mapped m a n) : Mapped (poke m b l) a n := fun i hi => poke_isSome (h i hi)

theorem poke_cons (hl : l.length < 2 ^ 63) : poke m a (c :: l) = poke (Function.update m a (some c)) (a + 1) l := by
  funext x
  unfold poke
  by_cases hx : x = a
  · subst hx
    rw [Function.update_self, List.getElem?_eq_none (l := l)]
    · simp
    · bv_omega
  · rw [Function.update_of_ne hx, show (x - a).toNat = (x - (a + 1)).toNat + 1 by bv_omega, List.getElem?_cons_succ]

theorem le_sub_of_lt {n : Nat} (hx : (x - a).toNat < o) (ho : o + n ≤ 2 ^ 64) :
    n ≤ (x - (a + BitVec.ofNat 64 o)).toNat := by
  bv_omega

theorem poke_append :
    poke m a (l ++ w) = poke (poke m (a + BitVec.ofNat 64 l.length) w) a l := by
  funext x
  unfold poke
  by_cases hx : (x - a).toNat < l.length
  · rw [List.getElem?_append_left hx, List.getElem?_eq_getElem hx]
    rfl
  · have hlen : l.length < 2 ^ 64 := by omega
    rw [List.getElem?_append_right (by omega), List.getElem?_eq_none (l := l) (by omega), Option.none_or]
    congr 2
    bv_omega

theorem poke_single : poke m a [c] = Function.update m a (some c) := by
  funext x
  unfold poke
  by_cases hx : x = a
  · subst hx
    rw [Function.update_self, BitVec.sub_self]
    rfl
  · rw [Function.update_of_ne hx, List.getElem?_eq_none]
    · rfl
    · simp only [List.length_singleton]
      bv_omega

theorem poke_comm {b : U64} (h : ∀ x : U64, (x - a).toNat < l.length → w.length ≤ (x - b).toNat) :
    poke (poke m b w) a l = poke (poke m a l) b w := by
  funext x
  unfold poke
  by_cases hx : (x - a).toNat < l.length
  · rw [List.getElem?_eq_none (h x hx), Option.none_or, Option.none_or]
  · rw [List.getElem?_eq_none (l := l) (by omega), Option.none_or, Option.none_or]

theorem poke_behind (hlen : l.length + w.length ≤ 2 ^ 64) :
    poke (poke m a l) (a + BitVec.ofNat 64 l.length) w = poke m a (l ++ w) := by
  rw [poke_append]
  exact (poke_comm fun x hx => le_sub_of_lt hx hlen).symm

theorem store_eq (h : (m a).isSome) : store m a c = some (Function.update m a (some c)) := if_pos h

theorem mapped_update {n : Nat} {b : U64} (h : Mapped m a n) : Mapped (Function.update m b (some c)) a n := fun i hi => by
  by_cases hb : a + BitVec.ofNat 64 i = b
  · rw [hb, Function.update_self]
    rfl
  · rw [Function.update_of_ne hb]
    exact h i hi

theorem storeAll_eq (hl : l.length < 2 ^ 63) (h : Mapped m a l.length) : storeAll m a l = some (poke m a l) := by
  induction l generalizing m a with
  | nil => rfl
  | cons c l ih =>
    have hl' : l.length < 2 ^ 63 := Nat.lt_of_succ_lt hl
    have ha : (m a).isSome := by simpa using h 0 (Nat.succ_pos _)
    have htail : Mapped m (a + 1) l.length := fun i hi => by
      rw [add_one_add]
      exact h (i + 1) (Nat.succ_lt_succ hi)
    rw [storeAll, store_eq ha, poke_cons hl']
    exact ih hl' (mapped_update htail)

theorem strlen_eq (h : Reads m a (l ++ [0])) (h0 : 0 ∉ l) (hfuel : l.length < fuel) : strlen m a fuel = some l.length := by
  induction l generalizing a fuel with
  | nil =>
    obtain ⟨fuel, rfl⟩ : ∃ fuel', fuel = fuel' + 1 := ⟨fuel - 1, by omega⟩
    rw [strlen, (reads_cons.mp h).1]
    rfl
  | cons c l ih =>
    obtain ⟨fuel, rfl⟩ : ∃ fuel', fuel = fuel' + 1 := ⟨fuel - 1, by omega⟩
    obtain ⟨hc, htail⟩ := reads_cons.mp h
    obtain ⟨hc0, h0⟩ : 0 ≠ c ∧ 0 ∉ l := by simpa using h0
    rw [strlen, hc]
    simp only [Option.bind_eq_bind, Option.bind_some, if_neg (Ne.symm hc0), ih htail h0 (Nat.lt_of_succ_lt_succ hfuel)]
    rfl

theorem strlen_unique {n : Nat} (h : Reads m a (l ++ [0])) (h0 : 0 ∉ l) (hlen : strlen m a fuel = some n) : n = l.length := by
  induction l generalizing a fuel n with
  | nil =>
    cases fuel with
    | zero => cases hlen
    | succ fuel =>
      rw [strlen, (reads_cons.mp h).1] at hlen
      exact (Option.some.inj hlen).symm
  | cons c l ih =>
    cases fuel with
    | zero => cases hlen
    | succ fuel =>
      obtain ⟨hc, htail⟩ := reads_cons.mp h
      obtain ⟨hc0, h0⟩ : 0 ≠ c ∧ 0 ∉ l := by simpa using h0
      rw [strlen, hc] at hlen
      simp only [Option.bind_eq_bind, Option.bind_some, if_neg (Ne.symm hc0)] at hlen
      obtain ⟨k, hk, he⟩ := Option.bind_eq_some_iff.mp hlen
      rw [← Option.some.inj he, ih htail h0 hk, List.length_cons]

def Apart (src dst : U64) (n : Nat) : Prop := ∀ i < n, ∀ j < n, src + BitVec.ofNat 64 i ≠ dst + BitVec.ofNat 64 j

theorem Apart.tail (h : Apart src dst (k + 1)) : Apart (src + 1) (dst + 1) k := fun i hi j hj => by
  rw [add_one_add, add_one_add]
  exact h (i + 1) (Nat.succ_lt_succ hi) (j + 1) (Nat.succ_lt_succ hj)

theorem Reads.update {b : U64} (h : Reads m a l) (hb : ∀ i < l.length, a + BitVec.ofNat 64 i ≠ b) :
    Reads (Function.update m b (some c)) a l :=
  h.congr fun i hi => Function.update_of_ne (hb i hi) _ _

theorem strcpy_eq (hsrc : Reads m src (l ++ [0])) (h0 : 0 ∉ l) (hl : l.length + 1 < 2 ^ 63)
    (hdst : Mapped m dst (l.length + 1)) (hapart : Apart src dst (l.length + 1)) (hfuel : l.length < fuel) :
    strcpy m dst src fuel = some (poke m dst (l ++ [0])) := by
  obtain ⟨fuel, rfl⟩ : ∃ fuel', fuel = fuel' + 1 := ⟨fuel - 1, by omega⟩
  induction l generalizing m dst src fuel with
  | nil =>
    obtain ⟨hc, -⟩ := reads_cons.mp hsrc
    have hd : (m dst).isSome := by simpa using hdst 0 (Nat.succ_pos _)
    rw [strcpy, hc, List.nil_append, poke_cons (by decide)]
    simp only [Option.bind_eq_bind, Option.bind_some, store_eq hd, if_true]
    rfl
  | cons c l ih =>
    obtain ⟨hc, htail⟩ := reads_cons.mp hsrc
    obtain ⟨hc0, h0⟩ : 0 ≠ c ∧ 0 ∉ l := by simpa using h0
    simp only [List.length_cons] at hl hapart hfuel hdst
    have hd : (m dst).isSome := by simpa using hdst 0 (Nat.succ_pos _)
    rw [strcpy, hc]
    simp only [Option.bind_eq_bind, Option.bind_some, store_eq hd, if_neg (Ne.symm hc0)]
    obtain ⟨fuel, rfl⟩ : ∃ fuel', fuel = fuel' + 1 := ⟨fuel - 1, by omega⟩
    rw [List.cons_append, poke_cons (by simp; omega)]
    refine ih ?_ h0 (by omega) ?_ hapart.tail fuel (by omega)
    · refine htail.update fun i hi => ?_
      rw [add_one_add]
      simpa using hapart (i + 1) (by simp at hi; omega) 0 (Nat.succ_pos _)
    · refine mapped_update fun i hi => ?_
      rw [add_one_add]
      exact hdst (i + 1) (Nat.succ_lt_succ hi)

/-- 16-bit characters in memory: the low byte first. -/
def wide : List (Chr × Chr) → List Chr
  | [] => [0, 0]
  | p :: l => p.1 :: p.2 :: wide l

theorem copyWide_eq {l : List (Chr × Chr)} (hsrc : Reads m src (wide l)) (h0 : (0, 0) ∉ l)
    (hl : l.length + 1 < 2 ^ 63) (hdst : Mapped m dst (l.length + 1))
    (hapart : ∀ i < (wide l).length, ∀ j < l.length + 1, src + BitVec.ofNat 64 i ≠ dst + BitVec.ofNat 64 j)
    (hfuel : l.length < fuel) : copyWide m dst src fuel = some (poke m dst (l.map Prod.fst ++ [0])) := by
  obtain ⟨fuel, rfl⟩ : ∃ fuel', fuel = fuel' + 1 := ⟨fuel - 1, by omega⟩
  induction l generalizing m dst src fuel with
  | nil =>
    obtain ⟨hlow, hsrc⟩ := reads_cons.mp hsrc
    obtain ⟨hhigh, -⟩ := reads_cons.mp hsrc
    have hd : (m dst).isSome := by simpa using hdst 0 (Nat.succ_pos _)
    rw [copyWide, hlow, hhigh, List.map_nil, List.nil_append, poke_cons (by decide)]
    simp only [Option.bind_eq_bind, Option.bind_some, and_self, if_true, store_eq hd]
    rfl
  | cons p l ih =>
    obtain ⟨hlow, hsrc⟩ := reads_cons.mp hsrc
    obtain ⟨hhigh, htail⟩ := reads_cons.mp hsrc
    obtain ⟨hp, h0⟩ : (0, 0) ≠ p ∧ (0, 0) ∉ l := by simpa using h0
    have hp : ¬(p.1 = 0 ∧ p.2 = 0) := fun h => hp (Prod.ext h.1.symm h.2.symm)
    simp only [List.length_cons, wide] at hl hapart hfuel hdst
    have hd : (m dst).isSome := by simpa using hdst 0 (Nat.succ_pos _)
    rw [copyWide, hlow, hhigh]
    simp only [Option.bind_eq_bind, Option.bind_some, if_neg hp, store_eq hd]
    obtain ⟨fuel, rfl⟩ : ∃ fuel', fuel = fuel' + 1 := ⟨fuel - 1, by omega⟩
    have htwo : ∀ i, src + 1 + 1 + BitVec.ofNat 64 i = src + BitVec.ofNat 64 (i + 2) := fun i => by
      rw [add_one_add, add_one_add]
    rw [List.map_cons, List.cons_append, poke_cons (by simp; omega), show src + 2 = src + 1 + 1 by bv_omega]
    refine ih ?_ h0 (by omega) ?_ ?_ fuel (by omega)
    · refine htail.update fun i hi => ?_
      rw [htwo]
      simpa using hapart (i + 2) (by omega) 0 (Nat.succ_pos _)
    · refine mapped_update fun i hi => ?_
      rw [add_one_add]
      exact hdst (i + 1) (Nat.succ_lt_succ hi)
    · intro i hi j hj
      rw [htwo, add_one_add]
      exact hapart (i + 2) (by omega) (j + 1) (by omega)

theorem puts_eq (h : Reads m a (l ++ [0])) (h0 : 0 ∉ l) (hfuel : l.length < fuel) : puts m a fuel = (l, true) := by
  obtain ⟨fuel, rfl⟩ : ∃ fuel', fuel = fuel' + 1 := ⟨fuel - 1, by omega⟩
  induction l generalizing a fuel with
  | nil =>
    obtain ⟨hc, -⟩ := reads_cons.mp h
    rw [puts, hc]
    rfl
  | cons c l ih =>
    obtain ⟨hc, htail⟩ := reads_cons.mp h
    obtain ⟨hc0, h0⟩ : 0 ≠ c ∧ 0 ∉ l := by simpa using h0
    simp only [List.length_cons] at hfuel
    obtain ⟨fuel, rfl⟩ : ∃ fuel', fuel = fuel' + 1 := ⟨fuel - 1, by omega⟩
    rw [puts, hc]
    simp only [if_neg (Ne.symm hc0), ih htail h0 fuel (by omega)]

end ShedOS.Libk
