import ShedOS.Memory.Paging
import ShedOS.Lib.Radix

/-!
# Page tables as frames

The functions of `paging.c` see pointers; here a table is the number of its
frame and an entry is read with `entryAt`. A lookup is then a walk in the sense
of `Radix`.
-/

namespace ShedOS.Memory

open Bytes Libk Loops

def entryAt (m : Mem) (n i : Nat) : U64 := m.read64 (0x1000 * n + 8 * i)

def writeEntry (m : Mem) (n i : Nat) (e : U64) : Mem := m.write64 (0x1000 * n + 8 * i) e

def zeroFrame (m : Mem) (n : Nat) : Mem := memset m (0x1000 * n) 0 0x1000

variable {σ : Type} {s : Machine σ} {m m' : Mem} {n n' i j k level : Nat} {e v : U64}

-- ---------------------------------------------------------------------------
-- Entries
-- ---------------------------------------------------------------------------

theorem writeEntry_writeEntry {e' : U64} :
    writeEntry (writeEntry m n i e) n i e' = writeEntry m n i e' :=
  Mem.write64_write64

theorem entryAt_writeEntry (hi : i < 512) (hj : j < 512) :
    entryAt (writeEntry m n i e) n' j = if n' = n ∧ j = i then e else entryAt m n' j := by
  by_cases h : n' = n ∧ j = i
  · obtain ⟨rfl, rfl⟩ := h
    rw [if_pos ⟨rfl, rfl⟩]
    exact Mem.read64_write64
  · rw [if_neg h]
    exact Mem.read64_write64_apart (by omega)

theorem writeEntry_byte (hi : i < 512) (hk : k / 0x1000 ≠ n) : writeEntry m n i e k = m k :=
  Mem.write64_outside (by omega)

theorem zeroFrame_byte (hk : k / 0x1000 ≠ n) : zeroFrame m n k = m k :=
  memset_outside (by omega)

theorem entryAt_congr (hj : j < 512) (h : ∀ k, k / 0x1000 = n → m k = m' k) :
    entryAt m n j = entryAt m' n j :=
  Mem.read64_congr fun k _ _ => h k (by omega)

theorem entryAt_zeroFrame (hj : j < 512) :
    entryAt (zeroFrame m n) n' j = if n' = n then 0 else entryAt m n' j := by
  split
  next h =>
    subst h
    exact Mem.read64_zero fun k _ _ => by rw [zeroFrame, memset_apply, if_pos (by omega)]
  next h => exact entryAt_congr hj fun k hk => zeroFrame_byte (by omega)

namespace Machine

theorem entry_framePtr (hn : n < frameLimit) (hi : i < 512) :
    s.entry (framePtr n) i = entryAt s.mem n i := by
  rw [entry, physical_framePtr_add hn (by omega)]
  rfl

theorem setEntry_framePtr (hn : n < frameLimit) (hi : i < 512) :
    s.setEntry (framePtr n) i e = { s with mem := writeEntry s.mem n i e } := by
  rw [setEntry, physical_framePtr_add hn (by omega)]
  rfl

theorem memset_framePtr (hn : n < frameLimit) :
    s.memset (framePtr n) 0 0x1000 = { s with mem := zeroFrame s.mem n } := by
  rw [memset, physical_framePtr hn]
  rfl

end Machine

theorem and_bit_ne_zero {x : U64} (hk : k < 64) (hx : ∀ i, i < 64 → x.getLsbD i = decide (i = k)) :
    decide (e &&& x ≠ 0) = e.getLsbD k := by
  cases hbit : e.getLsbD k
  · refine decide_eq_false fun h => h (BitVec.eq_of_getLsbD_eq fun i hi => ?_)
    rw [BitVec.getLsbD_and, hx i hi]
    by_cases h : i = k
    · simp [h, hbit]
    · simp [h]
  · refine decide_eq_true fun h => ?_
    have := congrArg (·.getLsbD k) h
    simp [BitVec.getLsbD_and, hx k hk, hbit] at this

theorem present_eq : present e = e.getLsbD 0 := and_bit_ne_zero (by decide) (by decide)

theorem huge_eq : huge e = e.getLsbD 7 := and_bit_ne_zero (by decide) (by decide)

theorem frameOf_framePtr (hn : n < frameLimit) : frameOf (framePtr n) = n := by
  have h : (framePtr n).toNat = 0x1000 * n + 0xffff800000000000 := by
    unfold frameLimit at hn
    rw [framePtr, addrOffsetHigher, BitVec.toNat_add, toNat_frame hn]
    simp only [VADDR_HIGHER, BitVec.toNat_ofNat]
    omega
  unfold frameLimit at hn
  rw [frameOf, h, frameLimit]
  omega

theorem framePtr_inj {b g : Nat} (hb : b < frameLimit) (hg : g < frameLimit) (h : framePtr b = framePtr g) : b = g := by
  rw [← frameOf_framePtr hb, h, frameOf_framePtr hg]

theorem childTable_eq : childTable e = framePtr (frameOf e) := addrEnsureHigher_and_not_fff

def linkEntry (n : Nat) (flags : U64) : U64 := BitVec.ofNat 64 (0x1000 * n) ||| flags

@[simp] theorem present_zero : present 0#64 = false := by decide

def nextTable (e : U64) : Option Nat := if present e && !huge e then some (frameOf e) else none

theorem nextTable_zero : nextTable 0 = none := rfl

theorem nextTable_eq_some :
    nextTable e = some n ↔ present e = true ∧ huge e = false ∧ frameOf e = n := by
  unfold nextTable
  cases present e <;> cases huge e <;> simp

theorem nextTable_lt (h : nextTable e = some n) : n < frameLimit :=
  (nextTable_eq_some.mp h).2.2 ▸ frameOf_lt

structure LinkFlags (flags : U64) : Prop where
  low : flags.toNat < 0x1000
  present : flags.getLsbD 0 = true
  small : flags.getLsbD 7 = false

theorem linkFlags_kernel : LinkFlags PAGING_PRESENT := ⟨by decide, by decide, by decide⟩

theorem linkFlags_user : LinkFlags (PAGING_PRESENT ||| (PAGING_WRITABLE ||| PAGING_USER)) :=
  ⟨by decide, by decide, by decide⟩

theorem nextTable_linkEntry {flags : U64} (hn : n < frameLimit) (hf : LinkFlags flags) :
    nextTable (linkEntry n flags) = some n := by
  refine nextTable_eq_some.mpr ⟨?_, ?_, frameOf_frame_or hn hf.low⟩
  · rw [present_eq, linkEntry, getLsbD_frame_or (by decide), hf.present]
  · rw [huge_eq, linkEntry, getLsbD_frame_or (by decide), hf.small]

-- ---------------------------------------------------------------------------
-- Indices
-- ---------------------------------------------------------------------------

theorem and_1ff (x : U64) : (x &&& 0x1ff).toNat = x.toNat % 512 := by
  rw [BitVec.toNat_and]
  exact Nat.and_two_pow_sub_one_eq_mod x.toNat 9

theorem vaddrToIndex_eq : ∀ (level : Nat) (v : U64),
    vaddrToIndex v level = v.toNat / 2 ^ (12 + 9 * level) % 512
  | 0, v => by
    rw [vaddrToIndex, and_1ff, BitVec.toNat_ushiftRight, Nat.shiftRight_eq_div_pow]
  | level + 1, v => by
    rw [vaddrToIndex, vaddrToIndex_eq level, BitVec.toNat_ushiftRight, Nat.shiftRight_eq_div_pow,
      Nat.div_div_eq_div_mul, ← Nat.pow_add]
    congr 3
    omega

theorem vaddrToIndex_lt (v : U64) (level : Nat) : vaddrToIndex v level < 512 := by
  rw [vaddrToIndex_eq]
  exact Nat.mod_lt _ (by decide)

def tableIndex (v : U64) (level : Nat) : Fin 512 := ⟨vaddrToIndex v level, vaddrToIndex_lt v level⟩

theorem forall_level {P : Nat → Prop} (h0 : P 0) (h1 : P 1) (h2 : P 2) (h3 : P 3) : ∀ level ≤ 3, P level := by
  intro level hlevel
  obtain rfl | rfl | rfl | rfl : level = 0 ∨ level = 1 ∨ level = 2 ∨ level = 3 := by omega
  all_goals assumption

def indicesBelow (v : U64) : (level : Nat) → List (Fin 512)
  | 0 => []
  | level + 1 => tableIndex v level :: indicesBelow v level

@[simp] theorem length_indicesBelow : (indicesBelow v level).length = level := by
  induction level with
  | zero => rfl
  | succ level ih => simp [indicesBelow, ih]

-- ---------------------------------------------------------------------------
-- Lookups as walks
-- ---------------------------------------------------------------------------

def tableRead (m : Mem) (n : Nat) (i : Fin 512) : U64 := entryAt m n i

abbrev tableWalk (m : Mem) (n : Nat) (i : Fin 512) (path : List (Fin 512)) : U64 × List (Fin 512) :=
  Radix.walk nextTable (tableRead m) n i path

/-- What `paging_get` makes of the end of a walk: a walk that stopped above
the leaf found a huge entry or nothing. -/
def walkValue : U64 × List (Fin 512) → U64
  | (e, []) => e
  | (e, _ :: _) => if present e then e else 0

theorem pagingGetFrom_walk : ∀ {level n : Nat}, n < frameLimit →
    pagingGetFrom s v level (framePtr n) =
      walkValue (tableWalk s.mem n (tableIndex v level) (indicesBelow v level)) := by
  intro level
  induction level with
  | zero => exact fun hn => Machine.entry_framePtr hn (vaddrToIndex_lt v 0)
  | succ level ih =>
    intro n hn
    have hentry : s.entry (framePtr n) (vaddrToIndex v (level + 1)) =
        tableRead s.mem n (tableIndex v (level + 1)) :=
      Machine.entry_framePtr hn (vaddrToIndex_lt v (level + 1))
    rw [pagingGetFrom, indicesBelow]
    simp only [hentry]
    cases hp : present (tableRead s.mem n (tableIndex v (level + 1))) with
    | false =>
      have hnone : nextTable (tableRead s.mem n (tableIndex v (level + 1))) = none := by
        simp [nextTable, hp]
      rw [tableWalk, Radix.walk_none hnone]
      simp [walkValue, hp]
    | true =>
      cases hh : huge (tableRead s.mem n (tableIndex v (level + 1))) with
      | true =>
        have hnone : nextTable (tableRead s.mem n (tableIndex v (level + 1))) = none := by
          simp [nextTable, hp, hh]
        rw [tableWalk, Radix.walk_none hnone]
        simp [walkValue, hp]
      | false =>
        have hsome := nextTable_eq_some.mpr ⟨hp, hh, rfl⟩
        rw [tableWalk, Radix.walk_some hsome, childTable_eq]
        exact ih (nextTable_lt hsome)

def lookup (m : Mem) (n : Nat) (v : U64) : U64 :=
  walkValue (tableWalk m n (tableIndex v 3) (indicesBelow v 3))

theorem pagingGet_lookup (hn : n < frameLimit) : pagingGet s (framePtr n) v = lookup s.mem n v :=
  pagingGetFrom_walk hn

def indicesAbove (v : U64) : (level : Nat) → List (Fin 512)
  | 0 => []
  | level + 1 => tableIndex v (level + 1) :: indicesAbove v level

@[simp] theorem length_indicesAbove : (indicesAbove v level).length = level := by
  induction level with
  | zero => rfl
  | succ level ih => simp [indicesAbove, ih]

abbrev tableDescend (m : Mem) (n : Nat) (path : List (Fin 512)) : Option Nat :=
  Radix.descend nextTable (tableRead m) n path

def stopsHuge : U64 × List (Fin 512) → Bool
  | (_, []) => false
  | (e, _ :: _) => present e

/-- The walk ends at a leaf entry or at an entry that is not present. -/
def MeetsNoHuge (m : Mem) (n : Nat) (v : U64) (level : Nat) : Prop :=
  stopsHuge (tableWalk m n (tableIndex v level) (indicesBelow v level)) = false

theorem meetsNoHuge_succ :
    MeetsNoHuge m n v (level + 1) ↔
      (present (tableRead m n (tableIndex v (level + 1))) = true →
        ∃ c, nextTable (tableRead m n (tableIndex v (level + 1))) = some c ∧
          MeetsNoHuge m c v level) := by
  unfold MeetsNoHuge
  rw [indicesBelow]
  cases hnext : nextTable (tableRead m n (tableIndex v (level + 1))) with
  | none =>
    rw [tableWalk, Radix.walk_none hnext]
    simp [stopsHuge]
  | some c =>
    rw [tableWalk, Radix.walk_some hnext]
    simp [(nextTable_eq_some.mp hnext).1]

theorem tableWalk_leaf : ∀ {level n g : Nat}, tableDescend m n (indicesAbove v level) = some g →
    tableWalk m n (tableIndex v level) (indicesBelow v level) = (tableRead m g (tableIndex v 0), [])
  | 0, n, g, h => by
    obtain rfl := Option.some.inj h
    rfl
  | level + 1, n, g, h => by
    obtain ⟨c, hc, h⟩ := Option.bind_eq_some_iff.mp h
    rw [indicesBelow, tableWalk, Radix.walk_some hc]
    exact tableWalk_leaf h

/-- Without a leaf table and without huge entries there is nothing to find. -/
theorem walkValue_noLeaf : ∀ {level n : Nat}, MeetsNoHuge m n v level →
    tableDescend m n (indicesAbove v level) = none →
    walkValue (tableWalk m n (tableIndex v level) (indicesBelow v level)) = 0
  | 0, n, _, h => by contradiction
  | level + 1, n, hh, h => by
    rw [indicesBelow]
    cases hnext : nextTable (tableRead m n (tableIndex v (level + 1))) with
    | none =>
      have hp : present (tableRead m n (tableIndex v (level + 1))) = false := by
        cases hp : present (tableRead m n (tableIndex v (level + 1))) with
        | false => rfl
        | true =>
          obtain ⟨c, hc, -⟩ := meetsNoHuge_succ.mp hh hp
          rw [hnext] at hc
          contradiction
      rw [tableWalk, Radix.walk_none hnext]
      simp [walkValue, hp]
    | some c =>
      rw [tableWalk, Radix.walk_some hnext]
      obtain ⟨c', hc, hh⟩ := meetsNoHuge_succ.mp hh (nextTable_eq_some.mp hnext).1
      obtain rfl := Option.some.inj (hnext.symm.trans hc)
      refine walkValue_noLeaf hh ?_
      simpa [tableDescend, indicesAbove, Radix.descend, hnext] using h

end ShedOS.Memory
