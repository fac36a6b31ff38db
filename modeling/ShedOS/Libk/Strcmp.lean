import ShedOS.Libk.Strings

/-!
# strcmp and strncmp

Both loops stop at the first two characters that differ, at the NULs or, for
`strncmp`, at the last character it may look at. `strcmp` subtracts them as
`unsigned char`, `strncmp` as `char`, which is signed.
-/

namespace ShedOS.Libk

open Memory (U64)

variable {m m' : VMem} {s1 s2 t1 t2 n : U64} {fuel k : Nat} {c : Chr} {l1 l2 : List Chr}

-- ---------------------------------------------------------------------------
-- The source
-- ---------------------------------------------------------------------------

def strcmpAt (m : VMem) : (s1 s2 : U64) → (fuel : Nat) → Option Int
  | _, _, 0 => none
  | s1, s2, fuel + 1 => do
    let c1 ← m s1
    let c2 ← m s2
    if c1 ≠ 0 ∧ c1 = c2 then strcmpAt m (s1 + 1) (s2 + 1) fuel else return (c1.toNat : Int) - c2.toNat

/-- `strncmp` on memory; a count of 0 wraps around. -/
def strncmpAt (m : VMem) : (s1 s2 n : U64) → (fuel : Nat) → Option Int
  | _, _, _, 0 => none
  | s1, s2, n, fuel + 1 => do
    let c1 ← m s1
    let c2 ← m s2
    if c1 ≠ 0 ∧ c1 = c2 ∧ n - 1 ≠ 0 then strncmpAt m (s1 + 1) (s2 + 1) (n - 1) fuel
    else return c1.toInt - c2.toInt

-- ---------------------------------------------------------------------------
-- Where the loops stop
-- ---------------------------------------------------------------------------

/-- How far two strings go together: the index of the first characters that
differ, or of the NULs. -/
def together : List Chr → List Chr → Nat
  | c1 :: l1, c2 :: l2 => if c1 = c2 then together l1 l2 + 1 else 0
  | _, _ => 0

def charAt (l : List Chr) (k : Nat) : Chr := l.getD k 0

/-- The string `l` is at `s` up to its character `k`. The rest of it need not be
there. -/
def Seen (m : VMem) (s : U64) (l : List Chr) (k : Nat) : Prop :=
  ∀ i ≤ k, m (s + BitVec.ofNat 64 i) = some (charAt l i)

def Same (l1 l2 : List Chr) (k : Nat) : Prop := charAt l1 k ≠ 0 ∧ charAt l1 k = charAt l2 k

theorem Seen.first (h : Seen m s1 l1 k) : m s1 = some (charAt l1 0) := by
  simpa using h 0 (Nat.zero_le k)

theorem charAt_tail : charAt l1.tail k = charAt l1 (k + 1) := by
  cases l1 with
  | nil => rfl
  | cons c l => rfl

theorem Seen.tail (h : Seen m s1 l1 (k + 1)) : Seen m (s1 + 1) l1.tail k := fun i hi => by
  rw [add_one_add, charAt_tail]
  exact h (i + 1) (Nat.succ_le_succ hi)

theorem same_tail : Same l1.tail l2.tail k ↔ Same l1 l2 (k + 1) := by
  unfold Same
  rw [charAt_tail, charAt_tail]

theorem strcmpAt_stop (hs1 : Seen m s1 l1 k) (hs2 : Seen m s2 l2 k) (hsame : ∀ i < k, Same l1 l2 i) (hstop : ¬Same l1 l2 k)
    (hfuel : k < fuel) : strcmpAt m s1 s2 fuel = some (((charAt l1 k).toNat : Int) - (charAt l2 k).toNat) := by
  obtain ⟨fuel, rfl⟩ : ∃ fuel', fuel = fuel' + 1 := ⟨fuel - 1, by omega⟩
  induction k generalizing s1 s2 l1 l2 fuel with
  | zero =>
    rw [strcmpAt, hs1.first, hs2.first]
    exact if_neg hstop
  | succ k ih =>
    obtain ⟨fuel, rfl⟩ : ∃ fuel', fuel = fuel' + 1 := ⟨fuel - 1, by omega⟩
    rw [strcmpAt, hs1.first, hs2.first]
    refine (if_pos (hsame 0 (Nat.succ_pos k))).trans ?_
    rw [ih hs1.tail hs2.tail (fun i hi => same_tail.mpr (hsame (i + 1) (Nat.succ_lt_succ hi))) (mt same_tail.mp hstop) fuel
      (by omega), charAt_tail, charAt_tail]

theorem strncmpAt_stop (hs1 : Seen m s1 l1 k) (hs2 : Seen m s2 l2 k) (hsame : ∀ i < k, Same l1 l2 i) (hk : k < n.toNat)
    (hstop : ¬Same l1 l2 k ∨ n.toNat = k + 1) (hfuel : k < fuel) :
    strncmpAt m s1 s2 n fuel = some ((charAt l1 k).toInt - (charAt l2 k).toInt) := by
  obtain ⟨fuel, rfl⟩ : ∃ fuel', fuel = fuel' + 1 := ⟨fuel - 1, by omega⟩
  induction k generalizing s1 s2 l1 l2 n fuel with
  | zero =>
    rw [strncmpAt, hs1.first, hs2.first]
    refine if_neg fun h => ?_
    rcases hstop with hstop | hn
    · exact hstop ⟨h.1, h.2.1⟩
    · have hlast : n - 1 = 0 := by bv_omega
      exact h.2.2 hlast
  | succ k ih =>
    obtain ⟨fuel, rfl⟩ : ∃ fuel', fuel = fuel' + 1 := ⟨fuel - 1, by omega⟩
    obtain ⟨hne, heq⟩ := hsame 0 (Nat.succ_pos k)
    have hpred : (n - 1).toNat = n.toNat - 1 := by bv_omega
    have hmore : n - 1 ≠ 0 := by bv_omega
    rw [strncmpAt, hs1.first, hs2.first]
    refine (if_pos ⟨hne, heq, hmore⟩).trans ?_
    rw [ih hs1.tail hs2.tail (fun i hi => same_tail.mpr (hsame (i + 1) (Nat.succ_lt_succ hi))) (by omega) ?_ fuel (by omega),
      charAt_tail, charAt_tail]
    exact hstop.imp (mt same_tail.mp) fun hn => by omega

theorem together_same (l2 : List Chr) (h1 : 0 ∉ l1) : (∀ i < together l1 l2, Same l1 l2 i) ∧ ¬Same l1 l2 (together l1 l2) := by
  induction l1, l2 using together.induct with
  | case1 l1 c l2 ih =>
    obtain ⟨hc, h1⟩ : 0 ≠ c ∧ 0 ∉ l1 := by simpa using h1
    obtain ⟨hbefore, hstop⟩ := ih h1
    rw [together, if_pos rfl]
    refine ⟨fun i hi => ?_, mt same_tail.mpr hstop⟩
    cases i with
    | zero => exact ⟨Ne.symm hc, rfl⟩
    | succ i => exact same_tail.mp (hbefore i (Nat.lt_of_succ_lt_succ hi))
  | case2 c1 l1 c2 l2 hne =>
    rw [together, if_neg hne]
    exact ⟨fun i hi => absurd hi (Nat.not_lt_zero i), fun h => hne h.2⟩
  | case3 l1 l2 hnil =>
    have hzero : together l1 l2 = 0 := by
      cases l1 <;> cases l2
      all_goals first | rfl | exact (hnil _ _ _ _ rfl rfl).elim
    rw [hzero]
    refine ⟨fun i hi => absurd hi (Nat.not_lt_zero i), ?_⟩
    rintro ⟨hne, heq⟩
    cases l1 with
    | nil => exact hne rfl
    | cons c1 l1 =>
      cases l2 with
      | nil => exact hne heq
      | cons c2 l2 => exact hnil _ _ _ _ rfl rfl

-- ---------------------------------------------------------------------------
-- The order
-- ---------------------------------------------------------------------------

structure Orders (l1 l2 : List Chr) (d : Int) : Prop where
  less : d < 0 ↔ l1 < l2
  equal : d = 0 ↔ l1 = l2
  greater : 0 < d ↔ l2 < l1

def SameSign (d d' : Int) : Prop := (d < 0 ↔ d' < 0) ∧ (0 < d ↔ 0 < d')

theorem orders_together (h1 : 0 ∉ l1) (h2 : 0 ∉ l2) :
    Orders l1 l2 (((charAt l1 (together l1 l2)).toNat : Int) - (charAt l2 (together l1 l2)).toNat) := by
  induction l1, l2 using together.induct with
  | case1 l1 c l2 ih =>
    obtain ⟨-, h1⟩ : 0 ≠ c ∧ 0 ∉ l1 := by simpa using h1
    obtain ⟨-, h2⟩ : 0 ≠ c ∧ 0 ∉ l2 := by simpa using h2
    obtain ⟨hless, hequal, hgreater⟩ := ih h1 h2
    rw [together, if_pos rfl, ← charAt_tail, ← charAt_tail]
    refine ⟨hless.trans ?_, hequal.trans ?_, hgreater.trans ?_⟩
    · rw [List.cons_lt_cons_iff]
      simp
    · simp
    · rw [List.cons_lt_cons_iff]
      simp
  | case2 c1 l1 c2 l2 hne =>
    rw [together, if_neg hne]
    change Orders (c1 :: l1) (c2 :: l2) ((c1.toNat : Int) - c2.toNat)
    have hnat : c1.toNat ≠ c2.toNat := fun h => hne (BitVec.eq_of_toNat_eq h)
    refine ⟨?_, ?_, ?_⟩
    · rw [List.cons_lt_cons_iff, BitVec.lt_def]
      simp only [hne, false_and, or_false]
      omega
    · simp only [List.cons.injEq, hne, false_and, iff_false]
      omega
    · rw [List.cons_lt_cons_iff, BitVec.lt_def]
      simp only [Ne.symm hne, false_and, or_false]
      omega
  | case3 l1 l2 hnil =>
    have hpos : ∀ {c : Chr} {l : List Chr}, 0 ∉ c :: l → 0 < c.toNat := fun {c l} h0 => by
      refine Nat.pos_of_ne_zero fun hc => h0 ?_
      rw [BitVec.eq_of_toNat_eq (y := (0 : Chr)) hc]
      exact List.mem_cons_self
    cases l1 with
    | nil =>
      cases l2 with
      | nil => exact ⟨by decide, by decide, by decide⟩
      | cons c l2 =>
        have hc := hpos h2
        change Orders [] (c :: l2) (0 - c.toNat)
        refine ⟨iff_of_true (by omega) (List.nil_lt_cons c l2), iff_of_false (by omega) (by simp),
          iff_of_false (by omega) (List.not_lt_nil _)⟩
    | cons c l1 =>
      cases l2 with
      | nil =>
        have hc := hpos h1
        change Orders (c :: l1) [] (c.toNat - 0)
        refine ⟨iff_of_false (by omega) (List.not_lt_nil _), iff_of_false (by omega) (by simp),
          iff_of_true (by omega) (List.nil_lt_cons c l1)⟩
      | cons c2 l2 => exact (hnil _ _ _ _ rfl rfl).elim

/-- Signed and unsigned characters are ordered alike on each half of their
range. -/
theorem sameSign_sub {a b : Chr} : SameSign (a.toInt - b.toInt) ((a.toNat : Int) - b.toNat) ↔
    (a.toNat < 128 ↔ b.toNat < 128) := by
  unfold SameSign
  rw [BitVec.toInt_eq_toNat_cond, BitVec.toInt_eq_toNat_cond]
  have := a.isLt
  have := b.isLt
  split <;> split <;> omega

theorem charAt_take {n : Nat} : charAt (l1.take n) k = if k < n then charAt l1 k else 0 := by
  unfold charAt
  rw [List.getD_eq_getElem?_getD, List.getElem?_take]
  split <;> rfl

theorem together_take {n : Nat} : together (l1.take n) (l2.take n) = min (together l1 l2) n := by
  induction l1, l2 using together.induct generalizing n with
  | case1 l1 c l2 ih =>
    cases n with
    | zero => simp [together]
    | succ n =>
      rw [List.take_succ_cons, List.take_succ_cons, together, together, if_pos rfl, if_pos rfl, ih]
      omega
  | case2 c1 l1 c2 l2 hne =>
    cases n with
    | zero => simp [together]
    | succ n => simp [together, hne]
  | case3 l1 l2 hnil =>
    cases l1 with
    | nil => simp [together]
    | cons c1 l1 =>
      cases l2 with
      | nil => cases n <;> simp [together]
      | cons c2 l2 => exact (hnil _ _ _ _ rfl rfl).elim

theorem strcmpAt_orders (h1 : 0 ∉ l1) (h2 : 0 ∉ l2) (hs1 : Seen m s1 l1 (together l1 l2)) (hs2 : Seen m s2 l2 (together l1 l2))
    (hfuel : together l1 l2 < fuel) : ∃ d, strcmpAt m s1 s2 fuel = some d ∧ Orders l1 l2 d := by
  obtain ⟨hsame, hstop⟩ := together_same l2 h1
  exact ⟨_, strcmpAt_stop hs1 hs2 hsame hstop hfuel, orders_together h1 h2⟩

/-- The character pair that decides, within the first `n`, is on one side of
0x80. -/
def OneSided (l1 l2 : List Chr) (n : Nat) : Prop :=
  together l1 l2 < n → ((charAt l1 (together l1 l2)).toNat < 128 ↔ (charAt l2 (together l1 l2)).toNat < 128)

theorem strncmpAt_cut (hn : 1 ≤ n.toNat) (h1 : 0 ∉ l1) (hs1 : Seen m s1 l1 (min (together l1 l2) (n.toNat - 1)))
    (hs2 : Seen m s2 l2 (min (together l1 l2) (n.toNat - 1)))
    (ht1 : Seen m' t1 (l1.take n.toNat) (min (together l1 l2) n.toNat))
    (ht2 : Seen m' t2 (l2.take n.toNat) (min (together l1 l2) n.toNat)) (hfuel : min (together l1 l2) n.toNat < fuel) :
    ∃ d d', strncmpAt m s1 s2 n fuel = some d ∧ strcmpAt m' t1 t2 fuel = some d' ∧
      (SameSign d d' ↔ OneSided l1 l2 n.toNat) := by
  obtain ⟨hsame, hstop⟩ := together_same l2 h1
  have h1' : 0 ∉ l1.take n.toNat := fun h => h1 (List.mem_of_mem_take h)
  obtain ⟨hsame', hstop'⟩ := together_same (l2.take n.toNat) h1'
  rw [together_take] at hsame' hstop'
  have hcut := strcmpAt_stop ht1 ht2 hsame' hstop' hfuel
  rw [charAt_take, charAt_take] at hcut
  rcases Nat.lt_or_ge (together l1 l2) n.toNat with hlt | hge
  · -- both stop at the same characters
    rw [Nat.min_eq_left (by omega)] at hs1 hs2
    rw [Nat.min_eq_left (Nat.le_of_lt hlt), if_pos hlt, if_pos hlt] at hcut
    refine ⟨_, _, strncmpAt_stop hs1 hs2 hsame hlt (.inl hstop) (by omega), hcut, sameSign_sub.trans ?_⟩
    exact ⟨fun h _ => h, fun h => h hlt⟩
  · -- the strings are the same up to the last character
    rw [Nat.min_eq_right (by omega)] at hs1 hs2
    rw [Nat.min_eq_right hge, if_neg (Nat.lt_irrefl _), if_neg (Nat.lt_irrefl _)] at hcut
    have hlast : Same l1 l2 (n.toNat - 1) := hsame _ (by omega)
    refine ⟨_, _, strncmpAt_stop hs1 hs2 (fun i hi => hsame i (by omega)) (by omega) (.inr (by omega)) (by omega), hcut, ?_⟩
    rw [hlast.2, Int.sub_self]
    exact iff_of_true ⟨by simp, by simp⟩ fun h => absurd h (Nat.not_lt.mpr hge)

/-- `strcmp` orders strings by their bytes. `strncmp` does the same with the cut
strings exactly when the bytes that decide are on one side of 0x80. Neither
reads further than where it stops. -/
theorem strncmp_strcmp (hn : 1 ≤ n.toNat) (h1 : 0 ∉ l1) (h2 : 0 ∉ l2) :
    (∀ (m : VMem) (s1 s2 : U64) (fuel : Nat), Seen m s1 l1 (together l1 l2) → Seen m s2 l2 (together l1 l2) →
      together l1 l2 < fuel → ∃ d, strcmpAt m s1 s2 fuel = some d ∧ Orders l1 l2 d) ∧
    ∀ (m m' : VMem) (s1 s2 t1 t2 : U64) (fuel : Nat), Seen m s1 l1 (min (together l1 l2) (n.toNat - 1)) →
      Seen m s2 l2 (min (together l1 l2) (n.toNat - 1)) →
      Seen m' t1 (l1.take n.toNat) (min (together l1 l2) n.toNat) →
      Seen m' t2 (l2.take n.toNat) (min (together l1 l2) n.toNat) → min (together l1 l2) n.toNat < fuel →
      ∃ d d', strncmpAt m s1 s2 n fuel = some d ∧ strcmpAt m' t1 t2 fuel = some d' ∧
        (SameSign d d' ↔ OneSided l1 l2 n.toNat) :=
  ⟨fun _ _ _ _ hs1 hs2 hfuel => strcmpAt_orders h1 h2 hs1 hs2 hfuel,
    fun _ _ _ _ _ _ _ hs1 hs2 ht1 ht2 hfuel => strncmpAt_cut hn h1 hs1 hs2 ht1 ht2 hfuel⟩

def twoStrings (l w : List Chr) : VMem := fun x =>
  some (if x.toNat < 0x2000 then charAt l (x.toNat - 0x1000) else charAt w (x.toNat - 0x2000))

theorem seen_twoStrings (hk : k < 0x1000) : Seen (twoStrings l1 l2) 0x1000 l1 k ∧ Seen (twoStrings l1 l2) 0x2000 l2 k := by
  constructor
  · intro i hi
    have haddr : ((0x1000 : U64) + BitVec.ofNat 64 i).toNat = 0x1000 + i := by bv_omega
    unfold twoStrings
    rw [haddr, if_pos (by omega), Nat.add_sub_cancel_left]
  · intro i hi
    have haddr : ((0x2000 : U64) + BitVec.ofNat 64 i).toNat = 0x2000 + i := by bv_omega
    unfold twoStrings
    rw [haddr, if_neg (by omega), Nat.add_sub_cancel_left]

theorem strncmp_strcmp_ab : (∃ d, strcmpAt (twoStrings [0x61, 0x62] [0x61, 0x64]) 0x1000 0x2000 3 = some d ∧
      Orders [0x61, 0x62] [0x61, 0x64] d) ∧
    ∃ d d', strncmpAt (twoStrings [0x61, 0x62] [0x61, 0x64]) 0x1000 0x2000 2 3 = some d ∧
      strcmpAt (twoStrings [0x61, 0x62] [0x61, 0x64]) 0x1000 0x2000 3 = some d' ∧
      (SameSign d d' ↔ OneSided [0x61, 0x62] [0x61, 0x64] 2) :=
  have hab : (0 : Chr) ∉ [0x61, 0x62] := by decide
  have had : (0 : Chr) ∉ [0x61, 0x64] := by decide
  have h := strncmp_strcmp (n := 2) (by decide) hab had
  ⟨h.1 _ 0x1000 0x2000 3 (seen_twoStrings (by decide)).1 (seen_twoStrings (by decide)).2 (by decide),
    h.2 _ _ 0x1000 0x2000 0x1000 0x2000 3 (seen_twoStrings (by decide)).1 (seen_twoStrings (by decide)).2
      (seen_twoStrings (by decide)).1 (seen_twoStrings (by decide)).2 (by decide)⟩

/-- A byte from 0x80 on is the larger one for `strcmp` and the smaller one for
`strncmp`. -/
theorem strncmp_strcmp_differ : ¬ ∀ (l1 l2 : List Chr) (n : U64), 1 ≤ n.toNat → 0 ∉ l1 → 0 ∉ l2 →
    ∀ (m m' : VMem) (s1 s2 t1 t2 : U64) (fuel : Nat), Seen m s1 l1 l1.length → Seen m s2 l2 l2.length →
      Seen m' t1 (l1.take n.toNat) (l1.take n.toNat).length → Seen m' t2 (l2.take n.toNat) (l2.take n.toNat).length →
      l1.length < fuel → ∃ d d', strncmpAt m s1 s2 n fuel = some d ∧ strcmpAt m' t1 t2 fuel = some d' ∧ SameSign d d' := by
  intro h
  obtain ⟨d, d', hd, hd', hsign⟩ := h [0x80] [0x01] 1 (by decide) (by decide) (by decide) (twoStrings [0x80] [0x01])
    (twoStrings [0x80] [0x01]) 0x1000 0x2000 0x1000 0x2000 2 (seen_twoStrings (by decide)).1 (seen_twoStrings (by decide)).2
    (seen_twoStrings (by decide)).1 (seen_twoStrings (by decide)).2 (by decide)
  have hstrncmp : strncmpAt (twoStrings [0x80] [0x01]) 0x1000 0x2000 1 2 = some (-129) := by decide
  have hstrcmp : strcmpAt (twoStrings [0x80] [0x01]) 0x1000 0x2000 2 = some 127 := by decide
  rw [← Option.some.inj (hstrncmp.symm.trans hd), ← Option.some.inj (hstrcmp.symm.trans hd')] at hsign
  exact absurd (hsign.1.mp (by decide)) (by decide)

end ShedOS.Libk
