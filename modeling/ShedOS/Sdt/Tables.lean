import ShedOS.Lib.Bytes
import ShedOS.Lib.Loops
import ShedOS.Libk.Strings

/-!
# System description tables

`do_checksum_sdt` and `find_sdt`. The number of slots comes from a length field
that nothing but a checksum over that very length has vouched for.
-/

namespace ShedOS.Sdt

open Bytes Libk
open Memory (U64 addrEnsureHigher)

/-- `sizeof(struct sdt_header)`; the structs are packed. `struct rsdt` and
`struct xsdt` consist of the header. -/
def sizeofSdtHeader : Nat := 36

def sdtLength (m : Mem) (hdr : U64) : BitVec 32 := m.readBytes (hdr + 4).toNat 4

def byteAt (m : Mem) (hdr : U64) (offset : Nat) : BitVec 8 := m (hdr + BitVec.ofNat 64 offset).toNat

def doChecksumSdt (m : Mem) (hdr : U64) : Bool :=
  Loops.upto (fun i sum => sum + byteAt m hdr i) 0 (sdtLength m hdr).toNat == 0

/-- The two root tables: `use_xsdt` with `xsdt` or `rsdt`. -/
structure Root where
  useXsdt : Bool
  table : U64

def Root.entrySize (root : Root) : Nat := if root.useXsdt then 8 else 4

def Root.entry (root : Root) (m : Mem) (i : Nat) : U64 :=
  let slot := root.table + BitVec.ofNat 64 (sizeofSdtHeader + root.entrySize * i)
  if root.useXsdt then addrEnsureHigher (m.read64 slot.toNat)
  else addrEnsureHigher ((m.readBytes slot.toNat 4).setWidth 64)

/-- The subtraction is one of `size_t`. -/
def Root.numSdts (root : Root) (m : Mem) : U64 :=
  ((sdtLength m root.table).setWidth 64 - BitVec.ofNat 64 sizeofSdtHeader) / BitVec.ofNat 64 root.entrySize

/-- The loop of `find_sdt` from slot `i` on, for `n` slots: the slots that it
reads, and what it returns. -/
def findLoop (entry : Nat → U64) (found : U64 → Bool) : (i n : Nat) → List Nat × U64
  | _, 0 => ([], 0)
  | i, n + 1 =>
    let hdr := entry i
    if found hdr then ([i], hdr)
    else
      let (slots, r) := findLoop entry found (i + 1) n
      (i :: slots, r)

def findSdt (m : Mem) (root : Root) (signature : Nat → Chr) : List Nat × U64 :=
  findLoop (root.entry m) (fun hdr => strncmp signature (byteAt m hdr) 4 == 0) 0 (root.numSdts m).toNat

variable {m : Mem} {root : Root} {signature s1 s2 : Nat → Chr} {entry : Nat → U64} {found : U64 → Bool} {i k n : Nat}

-- ---------------------------------------------------------------------------
-- What the lookup is for
-- ---------------------------------------------------------------------------

/-- The tables that fit into the length of the root table. -/
def Root.listed (root : Root) (m : Mem) : List U64 :=
  (List.range (((sdtLength m root.table).toNat - sizeofSdtHeader) / root.entrySize)).map (root.entry m)

def HasSignature (m : Mem) (signature : Nat → Chr) (hdr : U64) : Prop := ∀ i < 4, signature i = byteAt m hdr i

instance (hdr : U64) : Decidable (HasSignature m signature hdr) := inferInstanceAs (Decidable (∀ i < 4, _))

/-- The lookup reads slots in the table only, and returns the first listed table
with the signature, or NULL if there is none. -/
structure FindsExactly (m : Mem) (root : Root) (signature : Nat → Chr) : Prop where
  inside : ∀ i ∈ (findSdt m root signature).1, sizeofSdtHeader + root.entrySize * i + root.entrySize ≤ (sdtLength m root.table).toNat
  first : (findSdt m root signature).2 = ((root.listed m).find? (HasSignature m signature ·)).getD 0
  null : (findSdt m root signature).2 = 0 ↔ ∀ hdr ∈ root.listed m, ¬ HasSignature m signature hdr

-- ---------------------------------------------------------------------------
-- The comparison
-- ---------------------------------------------------------------------------

/-- Strings without a NUL are compared in full. -/
theorem strncmp_eq_zero_iff (h0 : ∀ i < n + 1, s1 i ≠ 0) : strncmp s1 s2 (n + 1) = 0 ↔ ∀ i < n + 1, s1 i = s2 i := by
  refine ⟨fun h => ?_, strncmp_same⟩
  induction n generalizing s1 s2 with
  | zero =>
    rw [strncmp, if_neg fun hgo => hgo.2.2 rfl] at h
    intro i hi
    obtain rfl : i = 0 := Nat.lt_one_iff.mp hi
    exact BitVec.toInt_inj.mp (Int.sub_eq_zero.mp h)
  | succ n ih =>
    rw [strncmp] at h
    split at h
    next hgo =>
      have htail := ih (fun i hi => h0 (i + 1) (Nat.succ_lt_succ hi)) h
      intro i hi
      cases i with
      | zero => exact hgo.2.1
      | succ i => exact htail i (Nat.lt_of_succ_lt_succ hi)
    next hstop =>
      have hsame : s1 0 = s2 0 := BitVec.toInt_inj.mp (Int.sub_eq_zero.mp h)
      exact absurd ⟨h0 0 (Nat.succ_pos _), hsame, Nat.succ_ne_zero n⟩ hstop

theorem found_eq (h0 : ∀ i < 4, signature i ≠ 0) (hdr : U64) :
    (strncmp signature (byteAt m hdr) 4 == 0) = decide (HasSignature m signature hdr) := by
  rw [Bool.eq_iff_iff, beq_iff_eq, decide_eq_true_iff]
  exact strncmp_eq_zero_iff h0

-- ---------------------------------------------------------------------------
-- The loop
-- ---------------------------------------------------------------------------

theorem findLoop_slots : ∀ k ∈ (findLoop entry found i n).1, i ≤ k ∧ k < i + n := by
  induction n generalizing i with
  | zero => exact fun _ hk => by cases hk
  | succ n ih =>
    intro k hk
    rw [findLoop] at hk
    simp only at hk
    split at hk
    · rw [List.mem_singleton.mp hk]
      omega
    · rcases List.mem_cons.mp hk with rfl | hk
      · omega
      · have := ih k hk
        omega

/-- The first slot is read whenever there is one. -/
theorem findLoop_reads_first : i ∈ (findLoop entry found i (n + 1)).1 := by
  rw [findLoop]
  simp only
  split <;> exact List.mem_cons_self

theorem findLoop_eq : (findLoop entry found i n).2 = (((List.range' i n).map entry).find? found).getD 0 := by
  induction n generalizing i with
  | zero => rfl
  | succ n ih =>
    rw [findLoop, List.range'_succ, List.map_cons, List.find?_cons]
    simp only
    cases found (entry i) with
    | true => rfl
    | false => exact ih

-- ---------------------------------------------------------------------------
-- When the lookup is exact
-- ---------------------------------------------------------------------------

theorem numSdts_toNat (h : sizeofSdtHeader ≤ (sdtLength m root.table).toNat) :
    (root.numSdts m).toNat = ((sdtLength m root.table).toNat - sizeofSdtHeader) / root.entrySize := by
  have hsize : (BitVec.ofNat 64 root.entrySize).toNat = root.entrySize := by
    unfold Root.entrySize
    split <;> rfl
  have hheader : (BitVec.ofNat 64 sizeofSdtHeader).toNat = sizeofSdtHeader := rfl
  have hlength : ((sdtLength m root.table).setWidth 64).toNat = (sdtLength m root.table).toNat :=
    BitVec.toNat_setWidth_of_le (by decide)
  have hle : BitVec.ofNat 64 sizeofSdtHeader ≤ (sdtLength m root.table).setWidth 64 := by
    rw [BitVec.le_def, hlength, hheader]
    exact h
  rw [Root.numSdts, BitVec.toNat_udiv, hsize, BitVec.toNat_sub_of_le hle, hlength, hheader]

/-- A length below that of the header makes the difference wrap around. -/
theorem numSdts_pos (h : (sdtLength m root.table).toNat < sizeofSdtHeader) : 0 < (root.numSdts m).toNat := by
  have hlength : ((sdtLength m root.table).setWidth 64).toNat = (sdtLength m root.table).toNat :=
    BitVec.toNat_setWidth_of_le (by decide)
  have hwrap : 2 ^ 63 ≤ ((sdtLength m root.table).setWidth 64 - BitVec.ofNat 64 sizeofSdtHeader).toNat := by
    rw [← hlength] at h
    unfold sizeofSdtHeader at h ⊢
    bv_omega
  rw [Root.numSdts, BitVec.toNat_udiv]
  refine Nat.div_pos (Nat.le_trans ?_ hwrap) ?_
  · unfold Root.entrySize
    split <;> decide
  · unfold Root.entrySize
    split <;> decide

theorem entry_ne_zero : root.entry m i ≠ 0 := by
  have hhigher : ∀ p, addrEnsureHigher p ≠ 0 := fun p h0 => by
    have hbit : (addrEnsureHigher p).getLsbD 63 = true := by
      rw [addrEnsureHigher, BitVec.getLsbD_or]
      exact Bool.or_eq_true _ _ |>.mpr (.inr (by decide))
    rw [h0] at hbit
    exact absurd hbit (by decide)
  unfold Root.entry
  simp only
  split
  · exact hhigher _
  · exact hhigher _

theorem findsExactly_of_le (h0 : ∀ i < 4, signature i ≠ 0) (h : sizeofSdtHeader ≤ (sdtLength m root.table).toNat) :
    FindsExactly m root signature := by
  have hnum : (root.numSdts m).toNat = _ := numSdts_toNat h
  have hfound : (fun hdr => strncmp signature (byteAt m hdr) 4 == 0) = (HasSignature m signature ·) :=
    funext fun hdr => found_eq h0 hdr
  have hfirst : (findSdt m root signature).2 = ((root.listed m).find? (HasSignature m signature ·)).getD 0 := by
    rw [findSdt, findLoop_eq, hfound, hnum, ← List.range_eq_range', Root.listed]
  refine ⟨fun i hi => ?_, hfirst, ?_⟩
  · obtain ⟨-, hlt⟩ := findLoop_slots i hi
    rw [hnum, Nat.zero_add] at hlt
    have hmul : root.entrySize * (i + 1) ≤ (sdtLength m root.table).toNat - sizeofSdtHeader :=
      (Nat.mul_le_mul_left _ hlt).trans (Nat.mul_div_le _ _)
    rw [Nat.mul_succ] at hmul
    omega
  · rw [hfirst]
    cases hfind : (root.listed m).find? (HasSignature m signature ·) with
    | none => exact iff_of_true rfl (by simpa using hfind)
    | some hdr =>
      obtain ⟨i, -, rfl⟩ := List.mem_map.mp (List.mem_of_find?_eq_some hfind)
      refine iff_of_false entry_ne_zero fun hnone => hnone _ (List.mem_of_find?_eq_some hfind) ?_
      simpa using List.find?_some hfind

theorem FindsExactly.le (h : FindsExactly m root signature) : sizeofSdtHeader ≤ (sdtLength m root.table).toNat := by
  refine Nat.le_of_not_lt fun hlt => ?_
  obtain ⟨n, hn⟩ : ∃ n, (root.numSdts m).toNat = n + 1 := ⟨_, (Nat.sub_add_cancel (numSdts_pos hlt)).symm⟩
  have hinside := h.inside 0 (by
    rw [findSdt, hn]
    exact findLoop_reads_first)
  omega

/-- The length of the root table is that of its header at least; the checksum
does not matter. -/
theorem findSdt_exact_iff (h0 : ∀ i < 4, signature i ≠ 0) :
    FindsExactly m root signature ↔ sizeofSdtHeader ≤ (sdtLength m root.table).toNat :=
  ⟨FindsExactly.le, findsExactly_of_le h0⟩

def apicSignature (i : Nat) : Chr := ("APIC".toList.map chr).getD i 0

def sampleTables : Mem := fun a =>
  if a = 0x1004 then 40 else if a = 0x1025 then 0x20 else if 0xffff800000002000 ≤ a then apicSignature (a - 0xffff800000002000) else 0

theorem findSdt_exact_iff_sample : FindsExactly sampleTables ⟨false, 0x1000⟩ apicSignature ↔
    sizeofSdtHeader ≤ (sdtLength sampleTables 0x1000).toNat :=
  findSdt_exact_iff (by decide)

example : findSdt sampleTables ⟨false, 0x1000⟩ apicSignature = ([0], 0xffff800000002000) := by decide

/-- The sum of no bytes is 0. -/
theorem findSdt_runs_out : doChecksumSdt (fun _ => 0) 0x1000 = true ∧ (∀ i < 4, apicSignature i ≠ 0) ∧
    ¬ FindsExactly (fun _ => 0) ⟨false, 0x1000⟩ apicSignature :=
  ⟨by decide, by decide, fun h => absurd h.le (by decide)⟩

end ShedOS.Sdt
