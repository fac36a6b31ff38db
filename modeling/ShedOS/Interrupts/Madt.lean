import ShedOS.Lib.Tiling
import ShedOS.Lib.While
import ShedOS.Sdt.Tables

/-!
# The records of the MADT

The record loop of `apic_initialize` with `parse_madt_entry`. Where the next
record begins is a byte of the record, and where the records end the length of
the table.
-/

namespace ShedOS.Interrupts

open Bytes Sdt Tiling
open Memory (U64)
open While (Ends Goes)
open Relation (ReflTransGen)

def MET_LAPIC : BitVec 8 := 0x0
def MET_IOAPIC : BitVec 8 := 0x1
def MET_ISO : BitVec 8 := 0x2

def sizeofMadt : Nat := 44

structure MadtEntryHeader where
  entryType : BitVec 8
  recordLength : BitVec 8
  deriving DecidableEq, Inhabited

structure MadtEntryIoapic where
  hdr : MadtEntryHeader
  ioapicId : BitVec 8
  reserved : BitVec 8
  ioapicAddr : BitVec 32
  gsib : BitVec 32
  deriving DecidableEq, Inhabited

structure MadtEntryIso where
  hdr : MadtEntryHeader
  busSource : BitVec 8
  irqSource : BitVec 8
  gsi : BitVec 32
  flags : BitVec 16
  deriving DecidableEq, Inhabited

def readHeader (m : Mem) (hdr : U64) : MadtEntryHeader := ⟨byteAt m hdr 0, byteAt m hdr 1⟩

def readIoapic (m : Mem) (hdr : U64) : MadtEntryIoapic where
  hdr := readHeader m hdr
  ioapicId := byteAt m hdr 2
  reserved := byteAt m hdr 3
  ioapicAddr := m.readBytes (hdr + 4).toNat 4
  gsib := m.readBytes (hdr + 8).toNat 4

def readIso (m : Mem) (hdr : U64) : MadtEntryIso where
  hdr := readHeader m hdr
  busSource := byteAt m hdr 2
  irqSource := byteAt m hdr 3
  gsi := m.readBytes (hdr + 4).toNat 4
  flags := m.readBytes (hdr + 8).toNat 2

/-- What the records are parsed into. The arrays are those of C, which does not
look at their ends: `ioapics` has 8 entries, `isos` has 24. -/
structure Apic where
  coreCount : BitVec 16
  ioapicCount : U64
  ioapics : Nat → MadtEntryIoapic
  isoCount : U64
  isos : Nat → MadtEntryIso

def Apic.start : Apic := ⟨0, 0, fun _ => default, 0, fun _ => default⟩

def parseMadtEntry (m : Mem) (hdr : U64) (s : Apic) : U64 × Apic :=
  let entry := readHeader m hdr
  let s :=
    if entry.entryType = MET_LAPIC then { s with coreCount := s.coreCount + 1 }
    else if entry.entryType = MET_IOAPIC then
      { s with ioapics := Function.update s.ioapics s.ioapicCount.toNat (readIoapic m hdr), ioapicCount := s.ioapicCount + 1 }
    else if entry.entryType = MET_ISO then
      { s with isos := Function.update s.isos s.isoCount.toNat (readIso m hdr), isoCount := s.isoCount + 1 }
    else s
  (entry.recordLength.setWidth 64, s)

/-- `madt->hdr.length - sizeof(struct madt)`, a difference of `size_t`. -/
def recordSize (m : Mem) (madt : U64) : U64 := (sdtLength m madt).setWidth 64 - BitVec.ofNat 64 sizeofMadt

structure Walk where
  offset : U64
  apic : Apic

def recordAt (madt offset : U64) : U64 := madt + BitVec.ofNat 64 sizeofMadt + offset

def madtRound (m : Mem) (madt : U64) (w : Walk) : Walk ⊕ Apic :=
  if w.offset < recordSize m madt then
    let (length, apic) := parseMadtEntry m (recordAt madt w.offset) w.apic
    .inl ⟨w.offset + length, apic⟩
  else .inr w.apic

def parseMadt (m : Mem) (madt : U64) (s : Apic) (fuel : Nat) : List Walk × Option Apic :=
  While.run (madtRound m madt) fuel ⟨0, { s with coreCount := 0 }⟩

variable {m : Mem} {madt offset : U64} {s s' : Apic} {w w' : Walk} {visited : List Walk} {lens : List Nat} {x y n : Nat}

def recordLength (m : Mem) (madt offset : U64) : BitVec 8 := (readHeader m (recordAt madt offset)).recordLength

theorem round_record (h : w.offset < recordSize m madt) : madtRound m madt w =
    .inl ⟨w.offset + (recordLength m madt w.offset).setWidth 64, (parseMadtEntry m (recordAt madt w.offset) w.apic).2⟩ :=
  if_pos h

theorem round_end (h : ¬ w.offset < recordSize m madt) : madtRound m madt w = .inr w.apic := if_neg h

theorem toNat_recordSize (h : sizeofMadt ≤ (sdtLength m madt).toNat) :
    (recordSize m madt).toNat = (sdtLength m madt).toNat - sizeofMadt := by
  have hlength : ((sdtLength m madt).setWidth 64).toNat = (sdtLength m madt).toNat := BitVec.toNat_setWidth_of_le (by decide)
  unfold recordSize sizeofMadt at *
  bv_omega

theorem recordSize_pos (h : (sdtLength m madt).toNat < sizeofMadt) : 0 < recordSize m madt := by
  have hlength : ((sdtLength m madt).setWidth 64).toNat = (sdtLength m madt).toNat := BitVec.toNat_setWidth_of_le (by decide)
  unfold recordSize sizeofMadt at *
  bv_omega

-- ---------------------------------------------------------------------------
-- A table that is made of records
-- ---------------------------------------------------------------------------

/-- From `x` on the records have the lengths `lens`, and fill the table. -/
structure RecordsFrom (m : Mem) (madt : U64) (x : Nat) (lens : List Nat) : Prop where
  length : ∀ y n, (y, n) ∈ places id x lens → 2 ≤ n ∧ (recordLength m madt (BitVec.ofNat 64 y)).toNat = n
  fills : sizeofMadt + stop id x lens = (sdtLength m madt).toNat

def Records (m : Mem) (madt : U64) (lens : List Nat) : Prop := RecordsFrom m madt 0 lens

def statesFrom (m : Mem) (madt : U64) : (x : Nat) → List Nat → Apic → List Walk
  | x, [], s => [⟨BitVec.ofNat 64 x, s⟩]
  | x, n :: lens, s =>
    ⟨BitVec.ofNat 64 x, s⟩ :: statesFrom m madt (x + n) lens (parseMadtEntry m (recordAt madt (BitVec.ofNat 64 x)) s).2

def parsedFrom (m : Mem) (madt : U64) : (x : Nat) → List Nat → Apic → Apic
  | _, [], s => s
  | x, n :: lens, s => parsedFrom m madt (x + n) lens (parseMadtEntry m (recordAt madt (BitVec.ofNat 64 x)) s).2

theorem RecordsFrom.toNat_recordSize (h : RecordsFrom m madt x lens) : (recordSize m madt).toNat = stop id x lens := by
  have hfills := h.fills
  rw [Interrupts.toNat_recordSize (by omega)]
  omega

theorem RecordsFrom.tail (h : RecordsFrom m madt x (n :: lens)) : RecordsFrom m madt (x + n) lens :=
  ⟨fun y k hy => h.length y k (List.mem_cons_of_mem _ hy), h.fills⟩

theorem RecordsFrom.stop_lt (h : RecordsFrom m madt x lens) : stop id x lens < 2 ^ 32 := by
  have hfills := h.fills
  have := (sdtLength m madt).isLt
  omega

theorem RecordsFrom.head (h : RecordsFrom m madt x (n :: lens)) : BitVec.ofNat 64 x < recordSize m madt ∧
    BitVec.ofNat 64 x + (recordLength m madt (BitVec.ofNat 64 x)).setWidth 64 = BitVec.ofNat 64 (x + n) := by
  obtain ⟨hn, hlen⟩ := h.length x n List.mem_cons_self
  have hsize := h.toNat_recordSize
  have hlt := h.stop_lt
  have hle : x + n ≤ stop id x (n :: lens) := le_stop
  constructor
  · bv_omega
  · rw [BitVec.ofNat_add]
    congr 1
    refine BitVec.eq_of_toNat_eq ?_
    rw [BitVec.toNat_setWidth_of_le (by decide), hlen, BitVec.toNat_ofNat, Nat.mod_eq_of_lt (by omega)]

theorem RecordsFrom.last (h : RecordsFrom m madt x []) : ¬ BitVec.ofNat 64 x < recordSize m madt := by
  have hsize : (recordSize m madt).toNat = x := h.toNat_recordSize
  have hlt : x < 2 ^ 32 := h.stop_lt
  bv_omega

theorem RecordsFrom.ends (h : RecordsFrom m madt x lens) :
    Ends (madtRound m madt) ⟨BitVec.ofNat 64 x, s⟩ (statesFrom m madt x lens s) (parsedFrom m madt x lens s) := by
  induction lens generalizing x s with
  | nil => exact (While.ends_inr (round_end h.last)).mpr ⟨rfl, rfl⟩
  | cons n lens ih =>
    obtain ⟨hlt, hnext⟩ := h.head
    refine (While.ends_inl (round_record hlt)).mpr ⟨_, rfl, ?_⟩
    rw [hnext]
    exact ih h.tail

-- ---------------------------------------------------------------------------
-- When the loop ends
-- ---------------------------------------------------------------------------

def examined (m : Mem) (madt : U64) (visited : List Walk) : List Nat :=
  (visited.filter fun w => w.offset < recordSize m madt).map fun w => w.offset.toNat

/-- The loop ends, examines records in the table only, and each record once if
the table is made of records. -/
def WalksTable (m : Mem) (madt : U64) (s : Apic) : Prop := ∃ fuel visited r, parseMadt m madt s fuel = (visited, some r) ∧
  (∀ x ∈ examined m madt visited, sizeofMadt + x < (sdtLength m madt).toNat) ∧
  ∀ lens, Records m madt lens → examined m madt visited = (places id 0 lens).map Prod.fst

inductive Leads (m : Mem) (madt : U64) : U64 → Prop
  | first : Leads m madt 0
  | next {offset : U64} (h : Leads m madt offset) (hlt : offset < recordSize m madt) :
      Leads m madt (offset + (recordLength m madt offset).setWidth 64)

theorem leads_of_reach (h : ReflTransGen (Goes (madtRound m madt)) ⟨0, s⟩ w) : Leads m madt w.offset := by
  induction h with
  | refl => exact .first
  | @tail w w' _ hgoes ih =>
    by_cases hlt : w.offset < recordSize m madt
    · obtain rfl := Sum.inl.inj ((round_record hlt).symm.trans hgoes)
      exact .next ih hlt
    · cases (round_end hlt).symm.trans hgoes

theorem reach_of_leads (h : Leads m madt offset) :
    ∃ s', ReflTransGen (Goes (madtRound m madt)) ⟨0, s⟩ ⟨offset, s'⟩ := by
  induction h with
  | first => exact ⟨s, .refl⟩
  | @next offset _ hlt ih =>
    obtain ⟨s', hreach⟩ := ih
    exact ⟨_, hreach.tail (round_record (w := ⟨offset, s'⟩) hlt)⟩

theorem examined_statesFrom (h : RecordsFrom m madt x lens) :
    examined m madt (statesFrom m madt x lens s) = (places id x lens).map Prod.fst := by
  induction lens generalizing x s with
  | nil =>
    rw [statesFrom, examined, List.filter_cons_of_neg (by simpa using h.last)]
    rfl
  | cons n lens ih =>
    have hx : x < 2 ^ 64 := by
      have hlt := h.stop_lt
      have hle : x ≤ stop id x (n :: lens) := le_stop
      omega
    rw [statesFrom, examined, List.filter_cons_of_pos (by simpa using h.head.1), List.map_cons, places, List.map_cons]
    congr 1
    · rw [BitVec.toNat_ofNat, Nat.mod_eq_of_lt hx]
    · exact ih h.tail

theorem mem_examined : x ∈ examined m madt visited ↔ ∃ w ∈ visited, w.offset < recordSize m madt ∧ w.offset.toNat = x := by
  unfold examined
  simp only [List.mem_map, List.mem_filter, decide_eq_true_eq, and_assoc]

def Proceeds (m : Mem) (madt : U64) : Prop :=
  ∀ offset, Leads m madt offset → offset < recordSize m madt → recordLength m madt offset ≠ 0

theorem WalksTable.le (h : WalksTable m madt s) : sizeofMadt ≤ (sdtLength m madt).toNat := by
  obtain ⟨fuel, visited, r, hrun, hinside, -⟩ := h
  have hends : Ends (madtRound m madt) _ visited r := ⟨fuel, hrun⟩
  refine Nat.le_of_not_lt fun hlt => ?_
  have hfirst := hinside 0 (mem_examined.mpr ⟨_, hends.mem_iff.mpr .refl, recordSize_pos hlt, rfl⟩)
  omega

theorem WalksTable.proceeds (h : WalksTable m madt s) : Proceeds m madt := by
  obtain ⟨fuel, visited, r, hrun, -⟩ := h
  intro offset hleads hlt h0
  obtain ⟨s', hreach⟩ := reach_of_leads (s := { s with coreCount := 0 }) hleads
  refine While.not_ends_of_preserved (fun w => w.offset = offset) hreach rfl ?_ ⟨fuel, hrun⟩
  rintro ⟨_, s₁⟩ rfl
  refine ⟨_, round_record hlt, ?_⟩
  simp only [h0]
  bv_omega

theorem walksTable_of (hle : sizeofMadt ≤ (sdtLength m madt).toNat) (h : Proceeds m madt) : WalksTable m madt s := by
  have hsize := toNat_recordSize hle
  have hbound := (sdtLength m madt).isLt
  obtain ⟨visited, r, hends⟩ : ∃ visited r, Ends (madtRound m madt) ⟨0, { s with coreCount := 0 }⟩ visited r := by
    -- a round brings the offset nearer to the end
    refine While.ends_of_measure (fun w => (recordSize m madt).toNat - w.offset.toNat) fun w w' hreach hgoes => ?_
    by_cases hlt : w.offset < recordSize m madt
    · obtain rfl := Sum.inl.inj ((round_record hlt).symm.trans hgoes)
      have hne := h _ (leads_of_reach hreach) hlt
      simp only
      generalize recordLength m madt w.offset = len at hne
      bv_omega
    · cases (round_end hlt).symm.trans hgoes
  obtain ⟨fuel, hrun⟩ := hends
  refine ⟨fuel, visited, r, hrun, fun x hx => ?_, fun lens hlens => ?_⟩
  · obtain ⟨w, -, hlt, rfl⟩ := mem_examined.mp hx
    bv_omega
  · obtain ⟨rfl, -⟩ := Ends.unique ⟨fuel, hrun⟩ hlens.ends
    exact examined_statesFrom hlens

def zeroRecord : Mem := fun a => if a = 0x1004 then 46 else if a = 0x1009 then 210 else 0

section Entries

variable {α : Type} {view : Apic → U64 × (Nat → α)} {type : BitVec 8} {read : U64 → α} {l : List α} {k : Nat}

def Filled (array : U64 × (Nat → α)) (l : List α) : Prop := array.1.toNat = l.length ∧ ∀ i v, l[i]? = some v → array.2 i = v

def pushEntry (array : U64 × (Nat → α)) (v : α) : U64 × (Nat → α) := (array.1 + 1, Function.update array.2 array.1.toNat v)

theorem Filled.push {array : U64 × (Nat → α)} {v : α} (h : Filled array l) (hlt : l.length + 1 < 2 ^ 64) :
    Filled (pushEntry array v) (l ++ [v]) := by
  obtain ⟨hcount, hentries⟩ := h
  refine ⟨?_, fun i u hi => ?_⟩
  · rw [pushEntry, List.length_append, List.length_singleton]
    bv_omega
  · rw [pushEntry, hcount]
    rcases Nat.lt_trichotomy i l.length with hlt | rfl | hlt
    · rw [List.getElem?_append_left hlt] at hi
      simp only
      rw [Function.update_of_ne (Nat.ne_of_lt hlt)]
      exact hentries i u hi
    · rw [List.getElem?_concat_length] at hi
      simp only
      rw [Function.update_self]
      exact Option.some.inj hi
    · rw [List.getElem?_eq_none (by simp; omega)] at hi
      cases hi

/-- A record goes into the array if it is of the type, and into no other array. -/
def Collects (m : Mem) (view : Apic → U64 × (Nat → α)) (type : BitVec 8) (read : U64 → α) : Prop :=
  ∀ hdr s, view (parseMadtEntry m hdr s).2 = if (readHeader m hdr).entryType = type then pushEntry (view s) (read hdr) else view s

def entryTypeAt (m : Mem) (madt : U64) (x : Nat) : BitVec 8 := (readHeader m (recordAt madt (BitVec.ofNat 64 x))).entryType

def entriesFrom (m : Mem) (madt : U64) (type : BitVec 8) (read : U64 → α) (x : Nat) (lens : List Nat) : List α :=
  ((places id x lens).filter fun p => entryTypeAt m madt p.1 = type).map fun p => read (recordAt madt (BitVec.ofNat 64 p.1))

theorem entriesFrom_cons : entriesFrom m madt type read x (n :: lens) =
    (if entryTypeAt m madt x = type then [read (recordAt madt (BitVec.ofNat 64 x))] else []) ++
      entriesFrom m madt type read (x + n) lens := by
  unfold entriesFrom
  rw [places, List.filter_cons]
  simp only [decide_eq_true_eq]
  split <;> rfl

theorem Collects.record (h : Collects m view type read) (madt : U64) (x : Nat) (s : Apic) :
    view (parseMadtEntry m (recordAt madt (BitVec.ofNat 64 x)) s).2 =
    if entryTypeAt m madt x = type then pushEntry (view s) (read (recordAt madt (BitVec.ofNat 64 x))) else view s := h _ s

theorem Collects.filled (h : Collects m view type read) (hf : Filled (view s) l) (hlt : l.length + lens.length < 2 ^ 64) :
    Filled (view (parsedFrom m madt x lens s)) (l ++ entriesFrom m madt type read x lens) := by
  induction lens generalizing x s l with
  | nil => rwa [entriesFrom, places, List.filter_nil, List.map_nil, List.append_nil]
  | cons n lens ih =>
    rw [List.length_cons] at hlt
    rw [parsedFrom, entriesFrom_cons, ← List.append_assoc]
    have hparse := h.record madt x s
    split
    next htype =>
      rw [if_pos htype] at hparse
      refine ih ?_ (by simp; omega)
      rw [hparse]
      exact hf.push (by omega)
    next htype =>
      rw [if_neg htype] at hparse
      rw [List.append_nil]
      exact ih (hparse ▸ hf) (by omega)

theorem Collects.inside_iff (h : Collects m view type read) (hr : RecordsFrom m madt x lens) (hf : Filled (view s) l)
    (hle : l.length ≤ k) (hk : k + 1 < 2 ^ 64) :
    (∀ w ∈ statesFrom m madt x lens s, w.offset < recordSize m madt →
      (readHeader m (recordAt madt w.offset)).entryType = type → (view w.apic).1.toNat < k) ↔
      l.length + (entriesFrom m madt type read x lens).length ≤ k := by
  induction lens generalizing x s l with
  | nil =>
    refine iff_of_true (fun w hw hlt => ?_) hle
    rw [List.mem_singleton.mp hw] at hlt
    exact absurd hlt hr.last
  | cons n lens ih =>
    have hparse := h.record madt x s
    rw [statesFrom, List.forall_mem_cons, entriesFrom_cons, List.length_append]
    simp only [hr.head.1, true_implies]
    rw [hf.1]
    by_cases htype : entryTypeAt m madt x = type
    · rw [if_pos htype] at hparse ⊢
      rw [List.length_singleton]
      by_cases hroom : l.length < k
      · have hpushed : Filled (view (parseMadtEntry m (recordAt madt (BitVec.ofNat 64 x)) s).2)
            (l ++ [read (recordAt madt (BitVec.ofNat 64 x))]) := hparse ▸ hf.push (by omega)
        rw [ih hr.tail hpushed (by simp; omega), List.length_append, List.length_singleton, Nat.add_assoc]
        exact and_iff_right fun _ => hroom
      · exact iff_of_false (fun hall => hroom (hall.1 htype)) (by omega)
    · rw [if_neg htype] at hparse ⊢
      rw [ih hr.tail (hparse ▸ hf) hle, List.length_nil, Nat.zero_add]
      exact and_iff_right fun he => absurd he htype

end Entries

theorem ioapic_collects : Collects m (fun s => (s.ioapicCount, s.ioapics)) MET_IOAPIC (readIoapic m) := by
  intro hdr s
  unfold parseMadtEntry
  simp only
  split
  next h => rw [if_neg (by rw [h]; decide)]
  next =>
    split
    · rfl
    · split <;> rfl

theorem iso_collects : Collects m (fun s => (s.isoCount, s.isos)) MET_ISO (readIso m) := by
  intro hdr s
  unfold parseMadtEntry
  simp only
  split
  next h => rw [if_neg (by rw [h]; decide)]
  next =>
    split
    next h => rw [if_neg (by rw [h]; decide)]
    next => split <;> rfl

/-- The store that the record at `w` makes, if it makes one, is to an entry of
the array. -/
def StoresInside (m : Mem) (madt : U64) (w : Walk) : Prop :=
  ((readHeader m (recordAt madt w.offset)).entryType = MET_IOAPIC → w.apic.ioapicCount.toNat < 8) ∧
    ((readHeader m (recordAt madt w.offset)).entryType = MET_ISO → w.apic.isoCount.toNat < 24)

def ioapicRecords (m : Mem) (madt : U64) (lens : List Nat) : List MadtEntryIoapic :=
  entriesFrom m madt MET_IOAPIC (readIoapic m) 0 lens

def isoRecords (m : Mem) (madt : U64) (lens : List Nat) : List MadtEntryIso :=
  entriesFrom m madt MET_ISO (readIso m) 0 lens

/-- The loop ends with the records in the arrays, and has not left these. -/
def ParsesExactly (m : Mem) (madt : U64) (lens : List Nat) : Prop := ∃ fuel visited r,
  parseMadt m madt .start fuel = (visited, some r) ∧
    (∀ w ∈ visited, w.offset < recordSize m madt → StoresInside m madt w) ∧
      Filled (r.ioapicCount, r.ioapics) (ioapicRecords m madt lens) ∧ Filled (r.isoCount, r.isos) (isoRecords m madt lens)

theorem RecordsFrom.length_le (h : RecordsFrom m madt x lens) : x + 2 * lens.length ≤ stop id x lens := by
  induction lens generalizing x with
  | nil => exact Nat.le_refl _
  | cons n lens ih =>
    obtain ⟨hn, -⟩ := h.length x n List.mem_cons_self
    have := ih h.tail
    rw [List.length_cons, stop, id]
    omega

theorem filled_nil {α : Type} {slots : Nat → α} : Filled ((0 : U64), slots) [] := ⟨rfl, fun _ _ hi => by cases hi⟩

theorem storesInside_iff (h : Records m madt lens) :
    (∀ w ∈ statesFrom m madt 0 lens .start, w.offset < recordSize m madt → StoresInside m madt w) ↔
      (ioapicRecords m madt lens).length ≤ 8 ∧ (isoRecords m madt lens).length ≤ 24 := by
  have hioapics := ioapic_collects.inside_iff (s := Apic.start) h filled_nil (Nat.zero_le 8) (by decide)
  have hisos := iso_collects.inside_iff (s := Apic.start) h filled_nil (Nat.zero_le 24) (by decide)
  rw [List.length_nil, Nat.zero_add] at hioapics hisos
  rw [ioapicRecords, isoRecords, ← hioapics, ← hisos]
  exact ⟨fun hall => ⟨fun w hw hlt => (hall w hw hlt).1, fun w hw hlt => (hall w hw hlt).2⟩,
    fun hall w hw hlt => ⟨hall.1 w hw hlt, hall.2 w hw hlt⟩⟩

theorem ParsesExactly.few (h : ParsesExactly m madt lens) (hr : Records m madt lens) :
    (ioapicRecords m madt lens).length ≤ 8 ∧ (isoRecords m madt lens).length ≤ 24 := by
  obtain ⟨fuel, visited, r, hrun, hstores, -⟩ := h
  obtain ⟨rfl, -⟩ := Ends.unique ⟨fuel, hrun⟩ (RecordsFrom.ends hr)
  exact (storesInside_iff hr).mp hstores

/-- There are at most 8 I/O APICs and 24 source overrides in the table. -/
theorem parseMadt_exact_iff (h : Records m madt lens) : ParsesExactly m madt lens ↔
    (ioapicRecords m madt lens).length ≤ 8 ∧ (isoRecords m madt lens).length ≤ 24 := by
  refine ⟨fun hexact => hexact.few h, fun hfew => ?_⟩
  have hshort : lens.length < 2 ^ 32 := by
    have hlt := RecordsFrom.stop_lt h
    have hle := RecordsFrom.length_le h
    omega
  obtain ⟨fuel, hrun⟩ : Ends (madtRound m madt) ⟨0, .start⟩ _ _ := RecordsFrom.ends h
  have hroom : ([] : List Nat).length + lens.length < 2 ^ 64 := by
    rw [List.length_nil]
    omega
  obtain ⟨r, hr⟩ : ∃ r, r = parsedFrom m madt 0 lens .start := ⟨_, rfl⟩
  have hioapics : Filled (r.ioapicCount, r.ioapics) ([] ++ ioapicRecords m madt lens) :=
    hr ▸ ioapic_collects.filled filled_nil hroom
  have hisos : Filled (r.isoCount, r.isos) ([] ++ isoRecords m madt lens) := hr ▸ iso_collects.filled filled_nil hroom
  rw [← hr] at hrun
  exact ⟨fuel, _, _, hrun, (storesInside_iff h).mpr hfew, hioapics, hisos⟩

def mixedTable : Mem := fun a =>
  if a = 0x1004 then 84
  else if a = 0x102c then MET_LAPIC
  else if a = 0x102d then 8
  else if a = 0x1034 then MET_IOAPIC
  else if a = 0x1035 then 12
  else if a = 0x1040 ∨ a = 0x104a then MET_ISO
  else if a = 0x1041 ∨ a = 0x104b then 10
  else 0

theorem mixedTable_records : Records mixedTable 0x1000 [8, 12, 10, 10] := by
  have hall : ∀ p ∈ places id 0 [8, 12, 10, 10], 2 ≤ p.2 ∧
      (recordLength mixedTable 0x1000 (BitVec.ofNat 64 p.1)).toNat = p.2 := by decide
  exact ⟨fun y n hy => hall (y, n) hy, by decide⟩

theorem parseMadt_exact_iff_mixed : (ioapicRecords mixedTable 0x1000 [8, 12, 10, 10]).length = 1 ∧
    (isoRecords mixedTable 0x1000 [8, 12, 10, 10]).length = 2 ∧ ParsesExactly mixedTable 0x1000 [8, 12, 10, 10] :=
  ⟨by decide, by decide, (parseMadt_exact_iff mixedTable_records).mpr (by decide)⟩

def ioapicTable (n : Nat) : Mem := fun a =>
  if a = 0x1004 then BitVec.ofNat 8 (44 + 12 * n)
  else if a < 0x102c then 0
  else if (a - 0x102c) % 12 = 0 then MET_IOAPIC
  else if (a - 0x102c) % 12 = 1 then 12
  else 0

theorem ioapicTable_records : Records (ioapicTable 9) 0x1000 (List.replicate 9 12) := by
  have hall : ∀ p ∈ places id 0 (List.replicate 9 12), 2 ≤ p.2 ∧
      (recordLength (ioapicTable 9) 0x1000 (BitVec.ofNat 64 p.1)).toNat = p.2 := by decide
  exact ⟨fun y n hy => hall (y, n) hy, by decide⟩

theorem parseMadt_leaves_arrays : Records (ioapicTable 9) 0x1000 (List.replicate 9 12) ∧
    ¬ ParsesExactly (ioapicTable 9) 0x1000 (List.replicate 9 12) :=
  ⟨ioapicTable_records, fun h => absurd (h.few ioapicTable_records).1 (by decide)⟩

end ShedOS.Interrupts
