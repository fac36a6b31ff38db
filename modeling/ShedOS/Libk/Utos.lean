import Mathlib.Data.Nat.Digits.Lemmas
import Mathlib.Data.BitVec
import ShedOS.Libk.Format

/-!
# utos and stou

The two conversions of `strutil.c` on memory. `utos` writes the last digit
first, behind everything else; `stou` reads the last digit first as well, and
takes no letter and no prefix.
-/

namespace ShedOS.Libk

open Memory (U64)

variable {m m' : VMem} {i base buf minLen str : U64} {n len left fuel : Nat} {c : Chr} {l w : List Chr}

-- ---------------------------------------------------------------------------
-- The source
-- ---------------------------------------------------------------------------

def utosLoop (base buf strLen : U64) : VMem → (i : U64) → (n : Nat) → (left : Nat) → Option VMem
  | m, _, _, 0 => some m
  | m, i, n, left + 1 => do
    let m ← store m (buf + (strLen - BitVec.ofNat 64 n - 1)) (digit (i % base).toNat)
    utosLoop base buf strLen m (i / base) (n + 1) left

def utosPrefix (m : VMem) (base buf : U64) : Option VMem :=
  if base = 16 then storeAll m buf [chr '0', chr 'x'] else some m

/-- `utos`, for a base that is not 0: the memory and the length it returns. -/
def utosTo (m : VMem) (i base buf minLen : U64) : Option (VMem × U64) := do
  let len := max (valLen base.toNat 64 i.toNat) minLen.toNat
  let strLen := if base = 16 then BitVec.ofNat 64 len + 2 else BitVec.ofNat 64 len
  let m ← utosPrefix m base buf
  let m ← store m (buf + strLen) 0
  let m ← utosLoop base buf strLen m i 0 len
  return (m, strLen)

/-- The value that `stou` takes a character for; `char` is signed. -/
def stouDigit (c : Chr) : BitVec 8 :=
  if (chr '9').slt c then
    if (chr 'Z').slt c then c - chr 'a' else c - chr 'z'
  else c - chr '0'

def stouLoop (m : VMem) (str base len : U64) : (value digit : U64) → (i : Nat) → (left : Nat) → Option U64
  | value, _, _, 0 => some value
  | value, digit, i, left + 1 => do
    let c ← m (str + (len - BitVec.ofNat 64 i - 1))
    let v := (stouDigit c).setWidth 64
    if base ≤ v then return 0
    stouLoop m str base len (value + v * digit) (digit * base) (i + 1) left

def stou (m : VMem) (str base : U64) (fuel : Nat) : Option U64 := do
  let len ← strlen m str fuel
  stouLoop m str base (BitVec.ofNat 64 len) 0 1 0 len

-- ---------------------------------------------------------------------------
-- What utos writes
-- ---------------------------------------------------------------------------

structure Room (m : VMem) (a : U64) (n : Nat) : Prop where
  fits : n ≤ 2 ^ 64
  mapped : Mapped m a n

def numberPrefix (base : U64) : List Chr := if base = 16 then [chr '0', chr 'x'] else []

theorem utos_append : utos i base.toNat n = numberPrefix base ++ digits base.toNat (max (valLen base.toNat 64 i.toNat) n) i.toNat := by
  have h16 : base.toNat = 16 ↔ base = 16 := ⟨fun h => BitVec.eq_of_toNat_eq h, fun h => h ▸ rfl⟩
  unfold utos numberPrefix
  simp only [h16]
  split <;> rfl

theorem utosLoop_eq {strLen : Nat} (hn : n + left ≤ strLen)
    (hm : Mapped m (buf + BitVec.ofNat 64 (strLen - n - left)) left) :
    utosLoop base buf (BitVec.ofNat 64 strLen) m i n left =
      some (poke m (buf + BitVec.ofNat 64 (strLen - n - left)) (digits base.toNat left i.toNat)) := by
  induction left generalizing m i n with
  | zero => rfl
  | succ left ih =>
    have haddr : buf + (BitVec.ofNat 64 strLen - BitVec.ofNat 64 n - 1) =
        buf + BitVec.ofNat 64 (strLen - n - (left + 1)) + BitVec.ofNat 64 (digits base.toNat left (i / base).toNat).length := by
      rw [digits_length]
      bv_omega
    have hlast : (m (buf + (BitVec.ofNat 64 strLen - BitVec.ofNat 64 n - 1))).isSome := by
      rw [haddr, digits_length]
      exact hm left (Nat.lt_succ_self left)
    have hrest : strLen - (n + 1) - left = strLen - n - (left + 1) := by omega
    rw [utosLoop, store_eq hlast]
    simp only [Option.bind_eq_bind, Option.bind_some]
    rw [ih (by omega), hrest, digits, ← BitVec.toNat_udiv, ← BitVec.toNat_umod, poke_append, poke_single, haddr]
    rw [hrest]
    exact mapped_update (hm.mono (Nat.le_succ left))

theorem poke_three {a : U64} {v : List Chr} (hlen : l.length + w.length + v.length ≤ 2 ^ 64) :
    poke (poke (poke m a l) (a + BitVec.ofNat 64 (l.length + w.length)) v) (a + BitVec.ofNat 64 l.length) w =
      poke m a (l ++ w ++ v) := by
  have haddr : a + BitVec.ofNat 64 (l.length + w.length) =
      a + BitVec.ofNat 64 l.length + BitVec.ofNat 64 w.length := by
    rw [BitVec.ofNat_add, BitVec.add_assoc]
  have hbehind := poke_behind (m := m) (a := a) (l := l) (w := w ++ v)
    (by rw [List.length_append, ← Nat.add_assoc]; exact hlen)
  rw [List.append_assoc, ← hbehind, poke_append, ← haddr]

theorem utosPrefix_eq (hm : Mapped m buf (numberPrefix base).length) :
    utosPrefix m base buf = some (poke m buf (numberPrefix base)) := by
  unfold utosPrefix numberPrefix at *
  split
  next h16 =>
    rw [if_pos h16] at hm
    exact storeAll_eq (by simp) hm
  next => rfl

theorem utosTo_eq (hroom : Room m buf ((utos i base.toNat minLen.toNat).length + 1)) :
    utosTo m i base buf minLen = some (poke m buf (utos i base.toNat minLen.toNat ++ [0]),
      BitVec.ofNat 64 (utos i base.toNat minLen.toNat).length) := by
  obtain ⟨hfits, hmapped⟩ := hroom
  rw [utos_append] at hfits hmapped ⊢
  obtain ⟨len, hlen⟩ : ∃ len, len = max (valLen base.toNat 64 i.toNat) minLen.toNat := ⟨_, rfl⟩
  rw [← hlen, List.length_append, digits_length] at hfits hmapped
  have hstr : (if base = 16 then BitVec.ofNat 64 len + 2 else BitVec.ofNat 64 len) =
      BitVec.ofNat 64 ((numberPrefix base).length + len) := by
    unfold numberPrefix
    split
    · rw [BitVec.ofNat_add, BitVec.add_comm]
      rfl
    · rw [List.length_nil, Nat.zero_add]
  have hend : (poke m buf (numberPrefix base) (buf + BitVec.ofNat 64 ((numberPrefix base).length + len))).isSome :=
    poke_isSome (hmapped _ (Nat.lt_succ_self _))
  have hshift : (numberPrefix base).length + len - 0 - len = (numberPrefix base).length := by omega
  rw [utosTo]
  simp only [← hlen, hstr, utosPrefix_eq (hmapped.mono (Nat.le_trans (Nat.le_add_right _ len) (Nat.le_succ _))),
    Option.bind_eq_bind, Option.bind_some, store_eq hend]
  rw [utosLoop_eq (by omega), hshift, ← poke_single, Option.bind_some]
  · have hthree := poke_three (m := m) (a := buf) (l := numberPrefix base) (w := digits base.toNat len i.toNat) (v := [0])
      (by simp only [digits_length, List.length_singleton]; omega)
    rw [digits_length] at hthree
    rw [hthree, List.length_append, digits_length]
    rfl
  · rw [hshift]
    exact mapped_update (Mapped.poke (hmapped.shift (by omega)))

-- ---------------------------------------------------------------------------
-- The numeral
-- ---------------------------------------------------------------------------

def hexDigits : List Chr := "0123456789ABCDEF".toList.map chr

theorem digit_hex {d : Nat} (hd : d < 16) : some (digit d) = hexDigits[d]? := by
  revert d
  decide

def digitCount (base n : Nat) : Nat := max 1 (Nat.digits base n).length

def shownDigits (base n minLen : Nat) : List Nat := (Nat.digits base n).reverse.leftpad (max 1 minLen) 0

theorem numeral_leftpad (base n minLen : Nat) : (numeral base n).leftpad minLen (chr '0') = (shownDigits base n minLen).map digit := by
  unfold numeral shownDigits List.leftpad
  split
  next h0 =>
    subst h0
    simp only [List.map_cons, List.map_nil, List.length_singleton, Nat.digits_zero, List.reverse_nil, List.length_nil,
      Nat.sub_zero, List.append_nil, List.map_replicate]
    change List.replicate (minLen - 1) (chr '0') ++ List.replicate 1 (chr '0') = List.replicate (max 1 minLen) (chr '0')
    rw [← List.replicate_add]
    congr 1
    omega
  next h0 =>
    have hpos : 0 < (Nat.digits base n).length := List.length_pos_iff.mpr (Nat.digits_ne_nil_iff_ne_zero.mpr h0)
    rw [List.map_append, List.map_replicate, List.length_map, List.length_reverse]
    change List.replicate _ (chr '0') ++ _ = List.replicate _ (chr '0') ++ _
    congr 2
    omega

theorem shownDigits_length (base n minLen : Nat) : (shownDigits base n minLen).length = max (digitCount base n) minLen := by
  rw [shownDigits, List.length_leftpad, List.length_reverse, digitCount]
  omega

theorem mem_shownDigits {d : Nat} (h : d ∈ shownDigits base.toNat n left) : d = 0 ∨ d ∈ Nat.digits base.toNat n := by
  unfold shownDigits List.leftpad at h
  rcases List.mem_append.mp h with h | h
  · exact .inl (List.mem_replicate.mp h).2
  · exact .inr (List.mem_reverse.mp h)

theorem ofDigits_shownDigits (base n minLen : Nat) : Nat.ofDigits base (shownDigits base n minLen).reverse = n := by
  rw [shownDigits, List.leftpad, List.reverse_append, List.reverse_reverse, List.reverse_replicate,
    Nat.ofDigits_append, Nat.ofDigits_replicate_zero, Nat.ofDigits_digits, Nat.mul_zero, Nat.add_zero]

theorem utos_shown (hbase : 2 ≤ base.toNat) :
    utos i base.toNat n = numberPrefix base ++ (shownDigits base.toNat i.toNat n).map digit := by
  have h16 : base.toNat = 16 ↔ base = 16 := ⟨fun h => BitVec.eq_of_toNat_eq h, fun h => h ▸ rfl⟩
  rw [utos_eq hbase, numeral_leftpad, numberPrefix]
  simp only [h16]

theorem shownDigits_lt (hbase : 2 ≤ base.toNat) {d : Nat} (h : d ∈ shownDigits base.toNat n left) : d < base.toNat := by
  rcases mem_shownDigits h with rfl | h
  · exact Nat.lt_of_lt_of_le Nat.zero_lt_two hbase
  · exact Nat.digits_lt_base hbase h

theorem utosTo_shown (hbase : 2 ≤ base.toNat)
    (hroom : Room m buf ((numberPrefix base).length + max (digitCount base.toNat i.toNat) minLen.toNat + 1)) :
    utosTo m i base buf minLen =
      some (poke m buf (numberPrefix base ++ (shownDigits base.toNat i.toNat minLen.toNat).map digit ++ [0]),
        BitVec.ofNat 64 ((numberPrefix base).length + (shownDigits base.toNat i.toNat minLen.toNat).length)) := by
  have hlen : (utos i base.toNat minLen.toNat).length =
      (numberPrefix base).length + (shownDigits base.toNat i.toNat minLen.toNat).length := by
    rw [utos_shown hbase, List.length_append, List.length_map]
  rw [← shownDigits_length, ← hlen] at hroom
  rw [utosTo_eq hroom, hlen, utos_shown hbase]

/-- `utos` writes the numeral of `i` with its prefix, its padding and a NUL,
and touches no other byte: the rest of memory need not even be there. -/
theorem utos_numeral (hbase : 2 ≤ base.toNat) (h16 : base.toNat ≤ 16)
    (hroom : Room m buf ((numberPrefix base).length + max (digitCount base.toNat i.toNat) minLen.toNat + 1)) :
    ∃ m' r ds, utosTo m i base buf minLen = some (m', r) ∧ r.toNat = (numberPrefix base).length + ds.length ∧
      Reads m' buf (numberPrefix base ++ ds.map digit ++ [0]) ∧ (∀ x, r.toNat < (x - buf).toNat → m' x = m x) ∧
      ds.length = max (digitCount base.toNat i.toNat) minLen.toNat ∧ (∀ d ∈ ds, d < base.toNat ∧ some (digit d) = hexDigits[d]?) ∧
      Nat.ofDigits base.toNat ds.reverse = i.toNat ∧
      ∃ zeroes, ds = List.replicate zeroes 0 ++ (Nat.digits base.toNat i.toNat).reverse := by
  have hfits := hroom.fits
  obtain ⟨ds, hds⟩ : ∃ ds, ds = shownDigits base.toNat i.toNat minLen.toNat := ⟨_, rfl⟩
  have hlen : ds.length = max (digitCount base.toNat i.toNat) minLen.toNat := hds ▸ shownDigits_length _ _ _
  have hr : (BitVec.ofNat 64 ((numberPrefix base).length + ds.length)).toNat = (numberPrefix base).length + ds.length := by
    rw [BitVec.toNat_ofNat, Nat.mod_eq_of_lt]
    omega
  refine ⟨_, _, ds, hds ▸ utosTo_shown hbase hroom, hr, reads_poke ?_, fun x hx => ?_, hlen, fun d hd => ?_, ?_, ?_⟩
  · simp only [List.length_append, List.length_map, List.length_singleton]
    omega
  · rw [hr] at hx
    rw [poke, List.getElem?_eq_none, Option.none_or]
    simp only [List.length_append, List.length_map, List.length_singleton]
    omega
  · have hlt : d < base.toNat := shownDigits_lt hbase (hds ▸ hd)
    exact ⟨hlt, digit_hex (by omega)⟩
  · rw [hds, ofDigits_shownDigits]
  · exact ⟨_, hds⟩

def zeroMem : VMem := fun _ => some 0

theorem zeroMem_room {a : U64} (hn : n ≤ 2 ^ 64) : Room zeroMem a n := ⟨hn, fun _ _ => rfl⟩

theorem utos_numeral_padded : ∃ m' r ds, utosTo zeroMem 0xAB 16 0x1000 4 = some (m', r) ∧
    r.toNat = (numberPrefix 16).length + ds.length ∧ Reads m' 0x1000 (numberPrefix 16 ++ ds.map digit ++ [0]) ∧
    (∀ x, r.toNat < (x - 0x1000).toNat → m' x = zeroMem x) ∧
    ds.length = max (digitCount (16 : U64).toNat (0xAB : U64).toNat) (4 : U64).toNat ∧
    (∀ d ∈ ds, d < (16 : U64).toNat ∧ some (digit d) = hexDigits[d]?) ∧
    Nat.ofDigits (16 : U64).toNat ds.reverse = (0xAB : U64).toNat ∧
    ∃ zeroes, ds = List.replicate zeroes 0 ++ (Nat.digits (16 : U64).toNat (0xAB : U64).toNat).reverse :=
  utos_numeral (by decide) (by decide) (zeroMem_room (by simp [numberPrefix, digitCount]))

-- ---------------------------------------------------------------------------
-- Reading it back
-- ---------------------------------------------------------------------------

def decode (base : U64) : (value digit : U64) → List Chr → U64
  | value, _, [] => value
  | value, digit, c :: l =>
    if base ≤ (stouDigit c).setWidth 64 then 0
    else decode base (value + (stouDigit c).setWidth 64 * digit) (digit * base) l

variable {value weight : U64}

theorem stouLoop_eq (h : Reads m str w) (hleft : n + left = w.length) :
    stouLoop m str base (BitVec.ofNat 64 w.length) value weight n left =
      some (decode base value weight (w.take left).reverse) := by
  induction left generalizing value weight n with
  | zero => rfl
  | succ left ih =>
    have hlt : left < w.length := by omega
    have haddr : str + (BitVec.ofNat 64 w.length - BitVec.ofNat 64 n - 1) = str + BitVec.ofNat 64 left := by
      rw [← hleft]
      bv_omega
    have hc : m (str + BitVec.ofNat 64 left) = some w[left] := (h left hlt).trans (List.getElem?_eq_getElem hlt)
    rw [stouLoop, haddr, hc, List.take_succ_eq_append_getElem hlt, List.reverse_append, List.reverse_singleton,
      List.singleton_append, decode]
    simp only [Option.bind_eq_bind, Option.bind_some]
    split
    · rfl
    · exact ih (by omega)

theorem stou_eq (h : Reads m str (w ++ [0])) (h0 : 0 ∉ w) (hfuel : w.length < fuel) :
    stou m str base fuel = some (decode base 0 1 w.reverse) := by
  rw [stou, strlen_eq h h0 hfuel]
  simp only [Option.bind_eq_bind, Option.bind_some]
  rw [stouLoop_eq h.left (Nat.zero_add _), List.take_length]

theorem stouDigit_digit {d : Nat} (hd : d < 10) : (stouDigit (digit d)).setWidth 64 = BitVec.ofNat 64 d := by
  revert d
  decide

theorem stouDigit_letter {d : Nat} (hd : 10 ≤ d) (h16 : d < 16) : 16 ≤ ((stouDigit (digit d)).setWidth 64 : U64) := by
  revert d
  decide

theorem decode_digits {ds : List Nat} (h : ∀ d ∈ ds, d < base.toNat ∧ d < 10) :
    decode base value weight (ds.map digit) = value + weight * BitVec.ofNat 64 (Nat.ofDigits base.toNat ds) := by
  induction ds generalizing value weight with
  | nil =>
    rw [Nat.ofDigits_nil]
    change value = value + weight * 0#64
    rw [BitVec.mul_zero, BitVec.add_zero]
  | cons d ds ih =>
    obtain ⟨hlt, hten⟩ := h d List.mem_cons_self
    have hle : ¬ base ≤ BitVec.ofNat 64 d := by
      rw [BitVec.le_def, BitVec.toNat_ofNat]
      omega
    rw [List.map_cons, decode, stouDigit_digit hten, if_neg hle, ih fun e he => h e (List.mem_cons_of_mem _ he),
      Nat.ofDigits_cons, BitVec.ofNat_add, BitVec.ofNat_mul, BitVec.ofNat_toNat, BitVec.setWidth_eq]
    ring

theorem decode_other (hc : c ∈ l) (hother : base ≤ (stouDigit c).setWidth 64) : decode base value weight l = 0 := by
  induction l generalizing value weight with
  | nil => cases hc
  | cons a l ih =>
    rw [decode]
    split
    · rfl
    next hle =>
      rcases List.mem_cons.mp hc with rfl | hc
      · exact absurd hother hle
      · exact ih hc

theorem decode_shown (hbase : 2 ≤ base.toNat) (h16 : base.toNat ≤ 16) :
    decode base 0 1 (numberPrefix base ++ (shownDigits base.toNat i.toNat n).map digit).reverse = i ↔
      (base = 16 → i = 0) ∧ ∀ d ∈ Nat.digits base.toNat i.toNat, d < 10 := by
  have hle : ∀ {v : U64}, 16 ≤ v → base ≤ v := fun hv => by bv_omega
  by_cases hprefix : base = 16
  · -- the `x` of the prefix
    have hx : chr 'x' ∈ (numberPrefix base ++ (shownDigits base.toNat i.toNat n).map digit).reverse := by
      simp [numberPrefix, hprefix]
    rw [decode_other hx (hle (by decide))]
    constructor
    · rintro rfl
      exact ⟨fun _ => rfl, fun d hd => by simp at hd⟩
    · exact fun h => (h.1 hprefix).symm
  have hnone : numberPrefix base = [] := if_neg hprefix
  rw [hnone, List.nil_append, ← List.map_reverse]
  by_cases hten : ∀ d ∈ Nat.digits base.toNat i.toNat, d < 10
  · have hsum : decode base 0 1 ((shownDigits base.toNat i.toNat n).reverse.map digit) = i := by
      rw [decode_digits, ofDigits_shownDigits, BitVec.ofNat_toNat, BitVec.setWidth_eq, one_mul, zero_add]
      intro d hd
      have hd := List.mem_reverse.mp hd
      refine ⟨shownDigits_lt hbase hd, ?_⟩
      rcases mem_shownDigits hd with rfl | hd
      · decide
      · exact hten d hd
    exact ⟨fun _ => ⟨fun h => absurd h hprefix, hten⟩, fun _ => hsum⟩
  · -- a letter, so `i` is not 0
    obtain ⟨d, hd, hlarge⟩ : ∃ d ∈ Nat.digits base.toNat i.toNat, 10 ≤ d := by simpa using hten
    have hlt : d < base.toNat := Nat.digits_lt_base hbase hd
    have hmem : digit d ∈ (shownDigits base.toNat i.toNat n).reverse.map digit := by
      refine List.mem_map_of_mem (List.mem_reverse.mpr (List.mem_append_right _ (List.mem_reverse.mpr hd)))
    rw [decode_other hmem (hle (stouDigit_letter hlarge (by omega)))]
    constructor
    · rintro rfl
      simp at hd
    · exact fun h => absurd h.2 hten

/-- `stou` gives back what `utos` wrote exactly when there is no prefix and no
letter in it, but for a 0. -/
theorem stou_utos (hbase : 2 ≤ base.toNat) (h16 : base.toNat ≤ 16)
    (hroom : Room m buf ((numberPrefix base).length + max (digitCount base.toNat i.toNat) minLen.toNat + 1))
    (hfuel : (numberPrefix base).length + max (digitCount base.toNat i.toNat) minLen.toNat < fuel) :
    ∃ m' r v, utosTo m i base buf minLen = some (m', r) ∧ stou m' buf base fuel = some v ∧
      (v = i ↔ (base = 16 → i = 0) ∧ ∀ d ∈ Nat.digits base.toNat i.toNat, d < 10) := by
  have hfits := hroom.fits
  have hreads : Reads (poke m buf (numberPrefix base ++ (shownDigits base.toNat i.toNat minLen.toNat).map digit ++ [0])) buf
      (numberPrefix base ++ (shownDigits base.toNat i.toNat minLen.toNat).map digit ++ [0]) := by
    refine reads_poke ?_
    simp only [List.length_append, List.length_map, List.length_singleton, shownDigits_length]
    exact hfits
  have h0 : 0 ∉ numberPrefix base ++ (shownDigits base.toNat i.toNat minLen.toNat).map digit := by
    rw [← utos_shown hbase]
    exact utos_nonzero (by omega) h16
  refine ⟨_, _, _, utosTo_shown hbase hroom, stou_eq hreads h0 ?_, decode_shown hbase h16⟩
  simp only [List.length_append, List.length_map, shownDigits_length]
  exact hfuel

theorem stou_utos_padded : ∃ m' r v, utosTo zeroMem 234 10 0x1000 5 = some (m', r) ∧ stou m' 0x1000 10 6 = some v ∧
    (v = 234 ↔ ((10 : U64) = 16 → (234 : U64) = 0) ∧ ∀ d ∈ Nat.digits (10 : U64).toNat (234 : U64).toNat, d < 10) :=
  stou_utos (by decide) (by decide) (zeroMem_room (by simp [numberPrefix, digitCount])) (by simp [numberPrefix, digitCount])

theorem stou_utos_one : ¬ ∀ (m : VMem) (i base buf minLen : U64) (fuel : Nat), 2 ≤ base.toNat → base.toNat ≤ 16 →
    Room m buf ((numberPrefix base).length + max (digitCount base.toNat i.toNat) minLen.toNat + 1) →
    (numberPrefix base).length + max (digitCount base.toNat i.toNat) minLen.toNat < fuel →
    ∃ m' r, utosTo m i base buf minLen = some (m', r) ∧ stou m' buf base fuel = some i := by
  intro h
  obtain ⟨m', r, hutos, hstou⟩ := h zeroMem 1 16 0x1000 0 10 (by decide) (by decide)
    (zeroMem_room (by simp [numberPrefix, digitCount])) (by simp [numberPrefix, digitCount])
  have hrun : (utosTo zeroMem 1 16 0x1000 0).bind (fun s => stou s.1 0x1000 16 10) = some 0 := by decide
  rw [hutos, Option.bind_some, hstou] at hrun
  exact absurd hrun (by decide)

end ShedOS.Libk
