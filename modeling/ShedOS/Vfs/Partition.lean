import ShedOS.Device.Drive
import ShedOS.Lib.Layout
import ShedOS.Lib.Loops
import ShedOS.Libk.Strings

/-!
# Partition tables

`partition_load_drive`: the header from block 1, room for the entries, the 32
blocks of the table, and the loop that keeps the entries in use and prints their
names. The structure that describes the table is a record here; `place`
translates kernel pointers.
-/

namespace ShedOS.Vfs

open Bytes Libk Memory Layout Loops Device

-- ---------------------------------------------------------------------------
-- The structures on the disk
-- ---------------------------------------------------------------------------

inductive HdrField where
  | signature | revision | hdrSize | hdrCrc32 | reserved0 | currentLba | backupLba | firstUsableLba | lastUsableLba
  | diskGuid | pentryStartLba | pentryCount | pentrySize | pentryCrc32 | reserved1
  deriving DecidableEq, Repr

def gptHdr : Packed HdrField :=
  [(.signature, 8), (.revision, 4), (.hdrSize, 4), (.hdrCrc32, 4), (.reserved0, 4), (.currentLba, 8), (.backupLba, 8),
    (.firstUsableLba, 8), (.lastUsableLba, 8), (.diskGuid, 16), (.pentryStartLba, 8), (.pentryCount, 4),
    (.pentrySize, 4), (.pentryCrc32, 4), (.reserved1, 420)]

inductive EntryField where
  | typeGuid | partGuid | firstLba | lastLba | attrs | name
  deriving DecidableEq, Repr

def gptEntry : Packed EntryField :=
  [(.typeGuid, 16), (.partGuid, 16), (.firstLba, 8), (.lastLba, 8), (.attrs, 8), (.name, 72)]

/-- `sizeof(struct gpt)`: the header, `id` and three words. -/
def sizeofGpt : Nat := 544

structure GptHdr where
  pentryStartLba : U64
  pentryCount : BitVec 32
  pentrySize : BitVec 32
  deriving DecidableEq, Repr

def view (place : U64 → Nat) (m : Mem) (p : U64) : Mem := fun k => m (place (p + BitVec.ofNat 64 k))

def readHdr (place : U64 → Nat) (m : Mem) (gpt : U64) : GptHdr where
  pentryStartLba := (view place m gpt).read64 (gptHdr.offset .pentryStartLba)
  pentryCount := (view place m gpt).readBytes (gptHdr.offset .pentryCount) 4
  pentrySize := (view place m gpt).readBytes (gptHdr.offset .pentrySize) 4

-- ---------------------------------------------------------------------------
-- The kernel's allocators
-- ---------------------------------------------------------------------------

/-- What stands behind `malloc`: the pointer, 0 for NULL. A heap that grows
takes frames and writes page tables. -/
class KernelHeap (η : Type) where
  malloc : η → Mem → Pmm → (n : U64) → U64 × η × Mem × Pmm

/-- `partitions` is the table of loaded ones, 255 pointers. -/
structure State (η : Type) where
  mem : Mem
  pmm : Pmm
  heap : η
  partitions : List U64

variable {η : Type} [KernelHeap η]

def malloc (s : State η) (n : U64) : U64 × State η :=
  let (p, heap, mem, pmm) := KernelHeap.malloc s.heap s.mem s.pmm n
  (p, { s with mem, pmm, heap })

def zmalloc (place : U64 → Nat) (s : State η) (n : U64) : U64 × State η :=
  let (p, s) := malloc s n
  (p, { s with mem := memsetVia place s.mem p 0 n.toNat })

def palloc (s : State η) (n : U64) : Option (U64 × State η) := do
  let (p, pmm) ← pmmRequestPages s.pmm n.toNat
  return (addrOffsetHigher (BitVec.ofNat 64 p), { s with pmm })

-- ---------------------------------------------------------------------------
-- partition_load_drive
-- ---------------------------------------------------------------------------

def readHeader (place : U64 → Nat) (drive : Drive) (s : State η) : Option (U64 × State η) := do
  let (gpt, s) := zmalloc place s (BitVec.ofNat 64 sizeofGpt)
  let (mem, pmm) ← driveRead place s.mem s.pmm gpt (BitVec.ofNat 64 gptHdr.size) drive.blockSize drive
  return (gpt, { s with mem, pmm })

/-- The argument of `malloc`: a product of two `uint32_t`. -/
def entriesSize (hdr : GptHdr) : U64 := (hdr.pentryCount * hdr.pentrySize).setWidth 64

def tableLen (bs : U64) : U64 := bs * 32

def tablePages (bs : U64) : U64 := (bs * 32 + 0xfff) / 0x1000

def releasedPages (bs : U64) : U64 := (bs + 0xfff) / 0x1000

structure Table (η : Type) where
  gpt : U64
  hdr : GptHdr
  entries : U64
  lba2 : U64
  state : State η

def allocTable (place : U64 → Nat) (drive : Drive) (gpt : U64) (s : State η) : Option (Table η) := do
  let hdr := readHdr place s.mem gpt
  let (entries, s) := malloc s (entriesSize hdr)
  let (lba2, s) ← palloc s (tablePages drive.blockSize)
  return ⟨gpt, hdr, entries, lba2, s⟩

def signature : List Chr := "EFI PART".toList.map chr

/-- Everything before the loop. `none` is also the panic, which does not
return. -/
def openTable (place : U64 → Nat) (drive : Drive) (s : State η) : Option (Table η) := do
  let (gpt, s) ← readHeader place drive s
  if strncmp (view place s.mem gpt) (fun i => signature.getD i 0) 8 ≠ 0 then none
  let t ← allocTable place drive gpt s
  let (mem, pmm) ← driveRead place t.state.mem t.state.pmm t.lba2 (tableLen drive.blockSize)
    (drive.blockSize * t.hdr.pentryStartLba) drive
  return { t with state := { t.state with mem, pmm } }

def bufSize : Nat := 64

/-- The loop for `%S` on the name of the entry at `o`: `buf[i]` gets character
`i` of 16 bits, and then the next ones up to one that is 0. It fails where it
takes one from behind the `len` bytes of the blocks or puts one behind `buf`. -/
def printName (blocks : Mem) (len o : Nat) : (i room : Nat) → Bool
  | _, 0 => false
  | i, room + 1 =>
    let a := o + gptEntry.offset .name + 2 * i
    if len < a + 2 then false
    else if blocks.readBytes a 2 = 0 then true
    else printName blocks len o (i + 1) room

/-- The loop's state, with the places where it has read an entry of `lba2` and
written one of `gpt->entries`. -/
structure Scan where
  mem : Mem
  entriesCount : U64
  examined : List Nat
  stored : List Nat

def Table.off (t : Table η) (i : Nat) : U64 := BitVec.ofNat 64 i * t.hdr.pentrySize.setWidth 64

/-- `none` is a name that `printf` does not get through with. What it leaves in
`buf` is not read here. -/
def scanEntry (place : U64 → Nat) (bs : U64) (t : Table η) (i : Nat) (c : Scan) : Option Scan :=
  let entry := t.lba2 + t.off i
  let c := { c with examined := (t.off i).toNat :: c.examined }
  if (view place c.mem entry).read64 (gptEntry.offset .firstLba) = 0 then some c
  else if printName (view place c.mem t.lba2) (tableLen bs).toNat (t.off i).toNat 0 bufSize then
    let slot := c.entriesCount * BitVec.ofNat 64 gptEntry.size
    some { c with
      mem := memcpyVia place c.mem (t.entries + slot) entry gptEntry.size
      entriesCount := c.entriesCount + 1
      stored := slot.toNat :: c.stored }
  else none

def scanTo (place : U64 → Nat) (bs : U64) (t : Table η) (n : Nat) : Option Scan :=
  uptoM (scanEntry place bs t) ⟨t.state.mem, 0, [], []⟩ n

def scan (place : U64 → Nat) (bs : U64) (t : Table η) : Option Scan := scanTo place bs t t.hdr.pentryCount.toNat

structure Gpt where
  hdr : GptHdr
  id : BitVec 8
  entriesCount : U64
  entries : U64

structure Loaded (η : Type) where
  gpt : Gpt
  scan : Scan
  state : State η

def partitionLoadDrive (place : U64 → Nat) (drive : Drive) (s : State η) : Option (Loaded η) := do
  let t ← openTable place drive s
  let c ← scan place drive.blockSize t
  let slot := t.state.partitions.findIdx? (· = 0)
  let partitions := match slot with
    | some id => t.state.partitions.set id t.gpt
    | none => t.state.partitions
  let pmm ← pmmReleasePages t.state.pmm (addrEnsureLower t.lba2).toNat (releasedPages drive.blockSize).toNat
  return ⟨⟨t.hdr, BitVec.ofNat 8 (slot.getD 0), c.entriesCount, t.entries⟩, c,
    ⟨c.mem, pmm, t.state.heap, partitions⟩⟩

-- ---------------------------------------------------------------------------
-- Names
-- ---------------------------------------------------------------------------

section Name

variable {blocks blocks' : Mem} {len o i room : Nat}

def NameEnds (blocks : Mem) (len o : Nat) : Prop := ∃ i < bufSize,
  o + gptEntry.offset .name + 2 * i + 2 ≤ len ∧ blocks.readBytes (o + gptEntry.offset .name + 2 * i) 2 = 0

instance : Decidable (NameEnds blocks len o) := inferInstanceAs (Decidable (∃ i < bufSize, _ ∧ _))

theorem printName_from : printName blocks len o i room = true ↔ ∃ j, i ≤ j ∧ j < i + room ∧
    o + gptEntry.offset .name + 2 * j + 2 ≤ len ∧ blocks.readBytes (o + gptEntry.offset .name + 2 * j) 2 = 0 := by
  induction room generalizing i with
  | zero => exact iff_of_false Bool.false_ne_true fun ⟨j, hi, hj, _⟩ => by omega
  | succ room ih =>
    rw [printName]
    split
    next hlen => exact iff_of_false Bool.false_ne_true fun ⟨j, hi, _, hj, _⟩ => by omega
    next hlen =>
      split
      next h0 => exact iff_of_true rfl ⟨i, Nat.le_refl i, by omega, by omega, h0⟩
      next h0 =>
        rw [ih]
        constructor
        · exact fun ⟨j, hi, hj, hend⟩ => ⟨j, by omega, by omega, hend⟩
        · rintro ⟨j, hi, hj, hend⟩
          have hne : j ≠ i := fun e => h0 (e ▸ hend.2)
          exact ⟨j, by omega, by omega, hend⟩

theorem printName_iff : printName blocks len o 0 bufSize = true ↔ NameEnds blocks len o := by
  rw [printName_from, NameEnds]
  simp only [Nat.zero_le, true_and, Nat.zero_add]

theorem readBytes_two : blocks.readBytes o 2 = 0 ↔ blocks o = 0 ∧ blocks (o + 1) = 0 := by
  constructor
  · intro h
    have hbit : ∀ j < 16, (blocks (o + j / 8)).getLsbD (j % 8) = false := fun j hj => by
      rw [← Mem.getLsbD_readBytes (n := 2) (by omega), h]
      exact BitVec.getLsbD_zero
    refine ⟨BitVec.eq_of_getLsbD_eq fun j hj => ?_, BitVec.eq_of_getLsbD_eq fun j hj => ?_⟩
    · have hlow := hbit j (by omega)
      rw [Nat.div_eq_of_lt hj, Nat.mod_eq_of_lt hj] at hlow
      exact hlow.trans BitVec.getLsbD_zero.symm
    · have hhigh := hbit (8 + j) (by omega)
      rw [show (8 + j) / 8 = 1 by omega, show (8 + j) % 8 = j by omega] at hhigh
      exact hhigh.trans BitVec.getLsbD_zero.symm
  · rintro ⟨h0, h1⟩
    simp only [Mem.readBytes, h0, h1]
    rfl

/-- What `printf` has around it when it copies: the bytes of the blocks from
character `i` of the name on, and `room` bytes of `buf`. -/
structure CopiesFrom (blocks : Mem) (len o i room : Nat) (m : VMem) (buf src : U64) : Prop where
  name : ∀ j < 2 * room, m (src + BitVec.ofNat 64 j) = if o + gptEntry.offset .name + 2 * i + j < len then
    some (blocks (o + gptEntry.offset .name + 2 * i + j)) else none
  mapped : ∀ j < room, (m (buf + BitVec.ofNat 64 j)).isSome
  full : m (buf + BitVec.ofNat 64 room) = none
  apart : ∀ j < 2 * room, ∀ j' < room, src + BitVec.ofNat 64 j ≠ buf + BitVec.ofNat 64 j'

theorem CopiesFrom.next {m : VMem} {buf src : U64} {c : Chr} (h : CopiesFrom blocks len o i (room + 1) m buf src) :
    CopiesFrom blocks len o (i + 1) room (Function.update m buf (some c)) (buf + 1) (src + 2) := by
  have hsrc : ∀ j, src + 2 + BitVec.ofNat 64 j = src + BitVec.ofNat 64 (j + 2) := fun j => by bv_omega
  have hfirst : (m buf).isSome := by simpa using h.mapped 0 (Nat.succ_pos _)
  have hnot : buf + BitVec.ofNat 64 (room + 1) ≠ buf := fun e => by
    have hfull := h.full
    rw [e] at hfull
    rw [hfull] at hfirst
    cases hfirst
  refine ⟨fun j hj => ?_, fun j hj => ?_, ?_, fun j hj j' hj' => ?_⟩
  · have hne : src + BitVec.ofNat 64 (j + 2) ≠ buf := by simpa using h.apart (j + 2) (by omega) 0 (Nat.succ_pos _)
    rw [hsrc, Function.update_of_ne hne, h.name _ (by omega),
      show o + gptEntry.offset .name + 2 * i + (j + 2) = o + gptEntry.offset .name + 2 * (i + 1) + j by omega]
  · have hmapped : Libk.Mapped m buf (room + 1) := h.mapped
    have hj := mapped_update (b := buf) (c := c) hmapped (j + 1) (by omega)
    rwa [← add_one_add] at hj
  · rw [add_one_add, Function.update_of_ne hnot, h.full]
  · rw [hsrc, add_one_add]
    exact h.apart _ (by omega) _ (by omega)

theorem CopiesFrom.overruns {m m' : VMem} {buf src : U64} {fuel : Nat} (h : CopiesFrom blocks len o i 0 m buf src) :
    copyWide m buf src fuel ≠ some m' := by
  intro hcopy
  have hfull : m buf = none := (congrArg m (BitVec.add_zero buf)).symm.trans h.full
  have hstore : ∀ c, store m buf c = none := fun c => if_neg (by rw [hfull]; exact Bool.false_ne_true)
  cases fuel with
  | zero => cases hcopy
  | succ fuel =>
    simp only [copyWide, Option.bind_eq_bind, Option.bind_eq_some_iff] at hcopy
    obtain ⟨low, -, high, -, hcopy⟩ := hcopy
    simp only [hstore] at hcopy
    split at hcopy <;> cases hcopy

theorem CopiesFrom.runs_out {m m' : VMem} {buf src : U64} {fuel : Nat} (h : CopiesFrom blocks len o i (room + 1) m buf src)
    (hlen : len < o + gptEntry.offset .name + 2 * i + 2) : copyWide m buf src fuel ≠ some m' := by
  intro hcopy
  have hhigh : m (src + 1) = none := (h.name 1 (by omega)).trans (if_neg (by omega))
  cases fuel with
  | zero => cases hcopy
  | succ fuel =>
    simp only [copyWide, hhigh, Option.bind_eq_bind, Option.bind_none, Option.bind_eq_some_iff] at hcopy
    obtain ⟨_, -, hcopy⟩ := hcopy
    cases hcopy

theorem CopiesFrom.round {m : VMem} {buf src : U64} (h : CopiesFrom blocks len o i (room + 1) m buf src)
    (hlen : o + gptEntry.offset .name + 2 * i + 2 ≤ len) (fuel : Nat) : copyWide m buf src (fuel + 1) =
      if blocks.readBytes (o + gptEntry.offset .name + 2 * i) 2 = 0 then some (Function.update m buf (some 0))
      else copyWide (Function.update m buf (some (blocks (o + gptEntry.offset .name + 2 * i)))) (buf + 1) (src + 2) fuel := by
  have hlow : m src = some (blocks (o + gptEntry.offset .name + 2 * i)) :=
    (congrArg m (BitVec.add_zero src)).symm.trans ((h.name 0 (by omega)).trans (if_pos (by omega)))
  have hhigh : m (src + 1) = some (blocks (o + gptEntry.offset .name + 2 * i + 1)) :=
    (h.name 1 (by omega)).trans (if_pos (by omega))
  have hfirst : (m buf).isSome := by simpa using h.mapped 0 (Nat.succ_pos _)
  simp only [copyWide, hlow, hhigh, Option.bind_eq_bind, Option.bind_some, store_eq hfirst, readBytes_two]

/-- The loop is that of `printf`, on a memory with nothing but the blocks around
the name, and nothing behind `buf`. -/
theorem printName_copyWide {m : VMem} {buf src : U64} (h : CopiesFrom blocks len o i room m buf src) :
    printName blocks len o i room = true ↔ ∃ fuel m', copyWide m buf src fuel = some m' := by
  induction room generalizing i m buf src with
  | zero => exact iff_of_false Bool.false_ne_true fun ⟨_, _, hcopy⟩ => h.overruns hcopy
  | succ room ih =>
    rw [printName]
    split
    next hlen => exact iff_of_false Bool.false_ne_true fun ⟨_, _, hcopy⟩ => h.runs_out (by omega) hcopy
    next hlen =>
      have hround := h.round (by omega)
      split
      next h0 => exact iff_of_true rfl ⟨1, _, by rw [hround, if_pos h0]⟩
      next h0 =>
        refine (ih (h.next (c := blocks (o + gptEntry.offset .name + 2 * i)))).trans ?_
        constructor
        · rintro ⟨fuel, m', hcopy⟩
          exact ⟨fuel + 1, m', by rw [hround, if_neg h0, hcopy]⟩
        · rintro ⟨fuel, m', hcopy⟩
          cases fuel with
          | zero => cases hcopy
          | succ fuel =>
            rw [hround, if_neg h0] at hcopy
            exact ⟨fuel, m', hcopy⟩

theorem NameEnds.congr (h : ∀ k < len, blocks' k = blocks k) : NameEnds blocks' len o ↔ NameEnds blocks len o := by
  refine exists_congr fun i => and_congr_right fun _ => and_congr_right fun hlen => ?_
  rw [Mem.readBytes_congr fun k _ hk => h k (by omega)]

end Name

-- ---------------------------------------------------------------------------
-- The loop
-- ---------------------------------------------------------------------------

section Loop

omit [KernelHeap η]

variable {place : U64 → Nat} {t : Table η} {c c' : Scan} {n i k o : Nat} {bs : U64}

def Table.used (place : U64 → Nat) (t : Table η) (i : Nat) : Bool :=
  (view place t.state.mem (t.lba2 + t.off i)).read64 (gptEntry.offset .firstLba) ≠ 0

def Table.NameEnds (place : U64 → Nat) (t : Table η) (bs : U64) (i : Nat) : Prop :=
  Vfs.NameEnds (view place t.state.mem t.lba2) (tableLen bs).toNat (t.off i).toNat

def Table.usedSlots (place : U64 → Nat) (t : Table η) (n : Nat) : List Nat := (List.range n).filter (t.used place)

def Table.allocated (t : Table η) : Nat := if t.entries = 0 then 0 else (entriesSize t.hdr).toNat

/-- `malloc` gave bytes of its own, none of them among the blocks. -/
structure Table.Apart (place : U64 → Nat) (t : Table η) (bs : U64) : Prop where
  inj : ∀ i < t.allocated, ∀ j < t.allocated,
    place (t.entries + BitVec.ofNat 64 i) = place (t.entries + BitVec.ofNat 64 j) → i = j
  apart : ∀ i < t.allocated, ∀ j < (tableLen bs).toNat,
    place (t.entries + BitVec.ofNat 64 i) ≠ place (t.lba2 + BitVec.ofNat 64 j)

theorem toNat_off (h : i < 2 ^ 32) : (t.off i).toNat = i * t.hdr.pentrySize.toNat := by
  have hsize := t.hdr.pentrySize.isLt
  have hlt : i * t.hdr.pentrySize.toNat < 2 ^ 64 :=
    Nat.lt_of_le_of_lt (Nat.mul_le_mul (Nat.le_of_lt_succ h) (Nat.le_of_lt_succ hsize)) (by decide)
  have hi : (BitVec.ofNat 64 i).toNat = i := by
    rw [BitVec.toNat_ofNat]
    omega
  rw [Table.off, BitVec.toNat_mul, hi, BitVec.toNat_setWidth_of_le (by decide), Nat.mod_eq_of_lt hlt]

theorem usedSlots_succ : t.usedSlots place (n + 1) = t.usedSlots place n ++ if t.used place n then [n] else [] := by
  unfold Table.usedSlots
  rw [List.range_succ, List.filter_append, List.filter_singleton]
  cases t.used place n <;> rfl

theorem usedSlots_length_le : (t.usedSlots place n).length ≤ n :=
  (List.length_filter_le _ _).trans List.length_range.le

structure Scanned (place : U64 → Nat) (t : Table η) (bs : U64) (n : Nat) (c : Scan) : Prop where
  entriesCount : c.entriesCount = BitVec.ofNat 64 (t.usedSlots place n).length
  stored : c.stored = ((List.range (t.usedSlots place n).length).map (128 * ·)).reverse
  table : ∀ j < (tableLen bs).toNat, c.mem (place (t.lba2 + BitVec.ofNat 64 j)) =
    t.state.mem (place (t.lba2 + BitVec.ofNat 64 j))
  entries : ∀ j i, (t.usedSlots place n)[j]? = some i → ∀ b < 128,
    c.mem (place (t.entries + BitVec.ofNat 64 (128 * j + b))) =
      t.state.mem (place (t.lba2 + t.off i + BitVec.ofNat 64 b))

theorem scanTo_succ : scanTo place bs t (n + 1) = (scanTo place bs t n).bind (scanEntry place bs t n) := rfl

theorem scanEntry_cases (h : scanEntry place bs t n c = some c') :
    c'.examined = (t.off n).toNat :: c.examined ∧
      ((view place c.mem (t.lba2 + t.off n)).read64 (gptEntry.offset .firstLba) = 0 ∧
        c' = { c with examined := (t.off n).toNat :: c.examined } ∨
      (view place c.mem (t.lba2 + t.off n)).read64 (gptEntry.offset .firstLba) ≠ 0 ∧
        NameEnds (view place c.mem t.lba2) (tableLen bs).toNat (t.off n).toNat ∧
        c'.stored = (c.entriesCount * BitVec.ofNat 64 gptEntry.size).toNat :: c.stored) := by
  unfold scanEntry at h
  simp only at h
  split at h
  next hfree =>
    obtain rfl := Option.some.inj h
    exact ⟨rfl, .inl ⟨hfree, rfl⟩⟩
  next hused =>
    split at h
    next hname =>
      obtain rfl := Option.some.inj h
      exact ⟨rfl, .inr ⟨hused, printName_iff.mp hname, rfl⟩⟩
    next => cases h

theorem scanTo_examined (h : scanTo place bs t n = some c) :
    c.examined = ((List.range n).map fun i => (t.off i).toNat).reverse := by
  induction n generalizing c with
  | zero =>
    obtain rfl := Option.some.inj h
    rfl
  | succ n ih =>
    obtain ⟨c₀, hc₀, hround⟩ := Option.bind_eq_some_iff.mp h
    rw [(scanEntry_cases hround).1, ih hc₀, List.range_succ, List.map_append, List.reverse_append]
    rfl

theorem scanTo_prefix (hn : n ≤ k) (h : scanTo place bs t k = some c') :
    ∃ c, scanTo place bs t n = some c ∧ ∀ o ∈ c.stored, o ∈ c'.stored := by
  induction hn generalizing c' with
  | refl => exact ⟨c', h, fun _ ho => ho⟩
  | @step k _ ih =>
    obtain ⟨c₁, hc₁, hround⟩ := Option.bind_eq_some_iff.mp h
    obtain ⟨c, hc, hsub⟩ := ih hc₁
    refine ⟨c, hc, fun o ho => ?_⟩
    rcases (scanEntry_cases hround).2 with ⟨-, rfl⟩ | ⟨-, -, hstored⟩
    · exact hsub o ho
    · exact hstored ▸ List.mem_cons_of_mem _ (hsub o ho)

theorem lba2_off (hn : n < 2 ^ 32) {b : Nat} :
    t.lba2 + t.off n + BitVec.ofNat 64 b = t.lba2 + BitVec.ofNat 64 (n * t.hdr.pentrySize.toNat + b) := by
  have hoff : t.off n = BitVec.ofNat 64 (n * t.hdr.pentrySize.toNat) := by
    rw [← toNat_off hn, BitVec.ofNat_toNat, BitVec.setWidth_eq]
  rw [hoff, BitVec.add_assoc, ← BitVec.ofNat_add]

theorem Scanned.reads (h : Scanned place t bs n c) (hn : n < 2 ^ 32)
    (hin : n * t.hdr.pentrySize.toNat + 128 ≤ (tableLen bs).toNat) {b : Nat} (hb : b < 128) :
    c.mem (place (t.lba2 + t.off n + BitVec.ofNat 64 b)) =
      t.state.mem (place (t.lba2 + t.off n + BitVec.ofNat 64 b)) := by
  rw [lba2_off hn]
  exact h.table _ (by omega)

theorem Scanned.used_iff (h : Scanned place t bs n c) (hn : n < 2 ^ 32)
    (hin : n * t.hdr.pentrySize.toNat + 128 ≤ (tableLen bs).toNat) :
    (view place c.mem (t.lba2 + t.off n)).read64 (gptEntry.offset .firstLba) = 0 ↔ t.used place n = false := by
  have hsame : (view place c.mem (t.lba2 + t.off n)).read64 (gptEntry.offset .firstLba) =
      (view place t.state.mem (t.lba2 + t.off n)).read64 (gptEntry.offset .firstLba) :=
    Mem.read64_congr fun b _ hb => h.reads hn hin (Nat.lt_of_lt_of_le hb (by decide))
  rw [hsame]
  simp [Table.used]

theorem Scanned.nameEnds_iff (h : Scanned place t bs n c) :
    NameEnds (view place c.mem t.lba2) (tableLen bs).toNat (t.off i).toNat ↔ t.NameEnds place bs i :=
  NameEnds.congr h.table

theorem scanned_zero : Scanned place t bs 0 ⟨t.state.mem, 0, [], []⟩ :=
  ⟨rfl, rfl, fun _ _ => rfl, fun _ _ h => by cases h⟩

theorem Scanned.store (h : Scanned place t bs n c) (hgiven : t.Apart place bs) (hn : n < 2 ^ 32)
    (hin : n * t.hdr.pentrySize.toNat + 128 ≤ (tableLen bs).toNat)
    (hfit : 128 * (t.usedSlots place n).length + 128 ≤ t.allocated) (hused : t.used place n = true) :
    Scanned place t bs (n + 1) ⟨memcpyVia place c.mem (t.entries + BitVec.ofNat 64 (128 * (t.usedSlots place n).length))
      (t.lba2 + t.off n) 128, c.entriesCount + 1, (t.off n).toNat :: c.examined,
      128 * (t.usedSlots place n).length :: c.stored⟩ := by
  obtain ⟨k, hk⟩ : ∃ k, k = (t.usedSlots place n).length := ⟨_, rfl⟩
  have hslots : t.usedSlots place (n + 1) = t.usedSlots place n ++ [n] := by rw [usedSlots_succ, if_pos hused]
  have hlen : (t.usedSlots place (n + 1)).length = k + 1 := by rw [hslots, List.length_append, ← hk]; rfl
  rw [← hk] at hfit ⊢
  have hdst : ∀ b, t.entries + BitVec.ofNat 64 (128 * k) + BitVec.ofNat 64 b = t.entries + BitVec.ofNat 64 (128 * k + b) :=
    fun b => by rw [BitVec.add_assoc, ← BitVec.ofNat_add]
  refine ⟨?_, ?_, fun j hj => ?_, fun j i hj b hb => ?_⟩
  · rw [hlen, h.entriesCount, ← hk, BitVec.ofNat_add]
    rfl
  · rw [hlen, h.stored, ← hk, List.range_succ, List.map_append, List.reverse_append]
    rfl
  · refine (memcpyVia_outside fun b hb e => ?_).trans (h.table j hj)
    rw [hdst] at e
    exact hgiven.apart _ (by omega) j hj e.symm
  · rw [hslots] at hj
    rcases Nat.lt_or_ge j k with hlt | hge
    · rw [List.getElem?_append_left (hk ▸ hlt)] at hj
      refine (memcpyVia_outside fun b' hb' e => ?_).trans (h.entries j i hj b hb)
      rw [hdst] at e
      have := hgiven.inj _ (by omega) _ (by omega) e
      omega
    · rw [List.getElem?_append_right (hk ▸ hge), ← hk] at hj
      obtain ⟨hj0, rfl⟩ : j - k = 0 ∧ n = i := by
        obtain ⟨hlt, he⟩ := List.getElem?_eq_some_iff.mp hj
        have hj0 : j - k = 0 := Nat.lt_one_iff.mp hlt
        exact ⟨hj0, by simpa [hj0] using he⟩
      obtain rfl : j = k := by omega
      have hcopy : memcpyVia place c.mem (t.entries + BitVec.ofNat 64 (128 * j)) (t.lba2 + t.off n) 128
          (place (t.entries + BitVec.ofNat 64 (128 * j) + BitVec.ofNat 64 b)) = _ :=
        memcpyVia_apply (fun b hb b' hb' e => ?_) (fun b hb b' hb' e => ?_) hb
      · rw [hdst] at hcopy
        exact hcopy.trans (h.reads hn hin hb)
      · rw [hdst, hdst] at e
        have := hgiven.inj _ (by omega) _ (by omega) e
        omega
      · rw [hdst, lba2_off hn] at e
        exact hgiven.apart _ (by omega) _ (by omega) e

theorem Scanned.step (h : Scanned place t bs n c) (hgiven : t.Apart place bs) (hn : n < 2 ^ 32)
    (hin : n * t.hdr.pentrySize.toNat + 128 ≤ (tableLen bs).toNat)
    (hfit : 128 * (t.usedSlots place (n + 1)).length ≤ t.allocated) (hname : t.used place n = true → t.NameEnds place bs n) :
    ∃ c', scanEntry place bs t n c = some c' ∧ Scanned place t bs (n + 1) c' := by
  have hkn : (t.usedSlots place n).length ≤ n := usedSlots_length_le
  unfold scanEntry
  simp only
  split
  next hfree =>
    have hslots : t.usedSlots place (n + 1) = t.usedSlots place n := by
      rw [usedSlots_succ, (h.used_iff hn hin).mp hfree]
      simp
    exact ⟨_, rfl, hslots ▸ h.entriesCount, hslots ▸ h.stored, h.table, hslots ▸ h.entries⟩
  next hfree =>
    have hused : t.used place n = true := Bool.eq_true_of_not_eq_false fun e => hfree ((h.used_iff hn hin).mpr e)
    have hlen : (t.usedSlots place (n + 1)).length = (t.usedSlots place n).length + 1 := by
      rw [usedSlots_succ, if_pos hused, List.length_append]
      rfl
    have hslot : c.entriesCount * BitVec.ofNat 64 gptEntry.size = BitVec.ofNat 64 (128 * (t.usedSlots place n).length) := by
      rw [h.entriesCount, ← BitVec.ofNat_mul, Nat.mul_comm]
      rfl
    have hnat : (BitVec.ofNat 64 (128 * (t.usedSlots place n).length)).toNat = 128 * (t.usedSlots place n).length := by
      rw [BitVec.toNat_ofNat]
      omega
    refine ⟨_, if_pos (printName_iff.mpr (h.nameEnds_iff.mpr (hname hused))), ?_⟩
    rw [hslot, hnat]
    exact h.store hgiven hn hin (by omega) hused

theorem usedSlots_length_mono : (t.usedSlots place n).length ≤ (t.usedSlots place (n + 1)).length := by
  rw [usedSlots_succ, List.length_append]
  exact Nat.le_add_right _ _

theorem scanned (hgiven : t.Apart place bs) (hn : n ≤ 2 ^ 32)
    (hin : ∀ i < n, i * t.hdr.pentrySize.toNat + 128 ≤ (tableLen bs).toNat)
    (hfit : 128 * (t.usedSlots place n).length ≤ t.allocated)
    (hnames : ∀ i < n, t.used place i = true → t.NameEnds place bs i) :
    ∃ c, scanTo place bs t n = some c ∧ Scanned place t bs n c := by
  induction n with
  | zero => exact ⟨_, rfl, scanned_zero⟩
  | succ n ih =>
    have hle : (t.usedSlots place n).length ≤ (t.usedSlots place (n + 1)).length := usedSlots_length_mono
    obtain ⟨c, hc, h⟩ := ih (by omega) (fun i hi => hin i (by omega)) (by omega) fun i hi => hnames i (by omega)
    obtain ⟨c', hc', h'⟩ := h.step hgiven (by omega) (hin n (Nat.lt_succ_self n)) hfit (hnames n (Nat.lt_succ_self n))
    exact ⟨c', by rw [scanTo_succ, hc, Option.bind_some, hc'], h'⟩

theorem Scanned.round (h : Scanned place t bs n c) (hn : n < 2 ^ 32)
    (hin : n * t.hdr.pentrySize.toNat + 128 ≤ (tableLen bs).toNat) (hround : scanEntry place bs t n c = some c')
    (hused : t.used place n = true) :
    t.NameEnds place bs n ∧ 128 * (t.usedSlots place n).length ∈ c'.stored := by
  have hle : (t.usedSlots place n).length ≤ n := usedSlots_length_le
  rcases (scanEntry_cases hround).2 with ⟨hfree, -⟩ | ⟨-, hname, hstored⟩
  · rw [(h.used_iff hn hin).mp hfree] at hused
    cases hused
  · refine ⟨h.nameEnds_iff.mp hname, ?_⟩
    have hslot : (c.entriesCount * BitVec.ofNat 64 gptEntry.size).toNat = 128 * (t.usedSlots place n).length := by
      rw [h.entriesCount, ← BitVec.ofNat_mul, Nat.mul_comm, BitVec.toNat_ofNat, show gptEntry.size = 128 from rfl]
      omega
    rw [hstored, hslot]
    exact List.mem_cons_self

theorem scanTo_names (hgiven : t.Apart place bs) (hn : n ≤ 2 ^ 32)
    (hin : ∀ i < n, i * t.hdr.pentrySize.toNat + 128 ≤ (tableLen bs).toNat)
    (hfit : 128 * (t.usedSlots place n).length ≤ t.allocated) (h : scanTo place bs t n = some c) :
    ∀ i < n, t.used place i = true → t.NameEnds place bs i := by
  induction n generalizing c with
  | zero => exact fun i hi => absurd hi (Nat.not_lt_zero i)
  | succ n ih =>
    have hle : (t.usedSlots place n).length ≤ (t.usedSlots place (n + 1)).length := usedSlots_length_mono
    obtain ⟨c₀, hc₀, hround⟩ := Option.bind_eq_some_iff.mp h
    have hnames := ih (by omega) (fun i hi => hin i (by omega)) (by omega) hc₀
    obtain ⟨c₁, hc₁, hscanned⟩ := scanned hgiven (by omega) (fun i hi => hin i (by omega)) (by omega) hnames
    obtain rfl := Option.some.inj (hc₁.symm.trans hc₀)
    intro i hi hused
    rcases Nat.lt_succ_iff_lt_or_eq.mp hi with hi | rfl
    · exact hnames i hi hused
    · exact (hscanned.round (by omega) (hin i (Nat.lt_succ_self i)) hround hused).1

-- ---------------------------------------------------------------------------
-- Accesses
-- ---------------------------------------------------------------------------

/-- Every entry that the loop looks at lies inside the blocks, and every one
that it writes inside what `malloc` gave. -/
structure Safe (t : Table η) (bs : U64) (c : Scan) : Prop where
  examined : ∀ o ∈ c.examined, o + gptEntry.size ≤ (tableLen bs).toNat
  stored : ∀ o ∈ c.stored, o + gptEntry.size ≤ t.allocated

/-- The last entry of the table ends inside the blocks, there is room for all
entries in use, and their names end. -/
structure Table.Fits (place : U64 → Nat) (t : Table η) (bs : U64) : Prop where
  table : t.hdr.pentryCount = 0 ∨
    (t.hdr.pentryCount.toNat - 1) * t.hdr.pentrySize.toNat + gptEntry.size ≤ (tableLen bs).toNat
  entries : gptEntry.size * (t.usedSlots place t.hdr.pentryCount.toNat).length ≤ t.allocated
  names : ∀ i < t.hdr.pentryCount.toNat, t.used place i = true → t.NameEnds place bs i

theorem gptEntry_size : gptEntry.size = 128 := rfl

theorem inside_of_last {hdr : GptHdr}
    (h : hdr.pentryCount = 0 ∨ (hdr.pentryCount.toNat - 1) * hdr.pentrySize.toNat + gptEntry.size ≤ n)
    (hi : i < hdr.pentryCount.toNat) : i * hdr.pentrySize.toNat + 128 ≤ n := by
  rcases h with h0 | hlast
  · rw [h0] at hi
    exact absurd hi (Nat.not_lt_zero i)
  · have hmul : i * hdr.pentrySize.toNat ≤ (hdr.pentryCount.toNat - 1) * hdr.pentrySize.toNat :=
      Nat.mul_le_mul_right _ (by omega)
    rw [gptEntry_size] at hlast
    omega

theorem Table.Fits.inside (h : t.Fits place bs) (hi : i < t.hdr.pentryCount.toNat) :
    i * t.hdr.pentrySize.toNat + 128 ≤ (tableLen bs).toNat := inside_of_last h.table hi

theorem Table.Fits.scanned (h : t.Fits place bs) (hgiven : t.Apart place bs) :
    ∃ c, scan place bs t = some c ∧ Scanned place t bs t.hdr.pentryCount.toNat c :=
  Vfs.scanned hgiven (Nat.le_of_lt t.hdr.pentryCount.isLt) (fun _ hi => h.inside hi) h.entries h.names

theorem Safe.entries (h : Safe t bs c) (hscan : scan place bs t = some c) (hgiven : t.Apart place bs)
    (hin : ∀ i < t.hdr.pentryCount.toNat, i * t.hdr.pentrySize.toNat + 128 ≤ (tableLen bs).toNat)
    (hn : n ≤ t.hdr.pentryCount.toNat) : 128 * (t.usedSlots place n).length ≤ t.allocated ∧
      ∀ i < n, t.used place i = true → t.NameEnds place bs i := by
  have hcount := t.hdr.pentryCount.isLt
  induction n with
  | zero => exact ⟨Nat.zero_le _, fun i hi => absurd hi (Nat.not_lt_zero i)⟩
  | succ n ih =>
    obtain ⟨hroom, hnames⟩ := ih (by omega)
    obtain ⟨c₀, hc₀, hscanned⟩ := Vfs.scanned hgiven (n := n) (by omega) (fun i hi => hin i (by omega)) hroom hnames
    obtain ⟨c₁, hc₁, hsub⟩ := scanTo_prefix hn hscan
    have hround : scanEntry place bs t n c₀ = some c₁ := by rwa [scanTo_succ, hc₀, Option.bind_some] at hc₁
    by_cases hused : t.used place n = true
    · -- The store behind the entries so far is one of those that are inside.
      have hlen : (t.usedSlots place (n + 1)).length = (t.usedSlots place n).length + 1 := by
        rw [usedSlots_succ, if_pos hused, List.length_append]
        rfl
      obtain ⟨hname, hstored⟩ := hscanned.round (by omega) (hin n (by omega)) hround hused
      have hinside := h.stored _ (hsub _ hstored)
      rw [gptEntry_size] at hinside
      refine ⟨by omega, fun i hi hused => ?_⟩
      rcases Nat.lt_succ_iff_lt_or_eq.mp hi with hi | rfl
      · exact hnames i hi hused
      · exact hname
    · refine ⟨by rwa [usedSlots_succ, if_neg hused, List.append_nil], fun i hi hi' => ?_⟩
      rcases Nat.lt_succ_iff_lt_or_eq.mp hi with hi | rfl
      · exact hnames i hi hi'
      · exact absurd hi' hused

theorem scan_safe_iff (hgiven : t.Apart place bs) :
    (∃ c, scan place bs t = some c ∧ Safe t bs c) ↔ t.Fits place bs := by
  have hcount := t.hdr.pentryCount.isLt
  constructor
  · rintro ⟨c, hscan, h⟩
    have hin : ∀ i < t.hdr.pentryCount.toNat, i * t.hdr.pentrySize.toNat + 128 ≤ (tableLen bs).toNat := by
      intro i hi
      have hmem : (t.off i).toNat ∈ c.examined := by
        rw [scanTo_examined hscan, List.mem_reverse]
        exact List.mem_map.mpr ⟨i, List.mem_range.mpr hi, rfl⟩
      have := h.examined _ hmem
      rwa [toNat_off (by omega), gptEntry_size] at this
    obtain ⟨hroom, hnames⟩ := h.entries hscan hgiven hin (Nat.le_refl _)
    refine ⟨?_, hroom, hnames⟩
    by_cases h0 : t.hdr.pentryCount.toNat = 0
    · exact .inl (BitVec.eq_of_toNat_eq h0)
    · exact .inr (hin _ (by omega))
  · intro h
    obtain ⟨c, hscan, hs⟩ := h.scanned hgiven
    refine ⟨c, hscan, fun o ho => ?_, fun o ho => ?_⟩
    · rw [scanTo_examined hscan, List.mem_reverse] at ho
      obtain ⟨i, hi, rfl⟩ := List.mem_map.mp ho
      have hi := List.mem_range.mp hi
      rw [toNat_off (by omega)]
      exact h.inside hi
    · rw [hs.stored, List.mem_reverse] at ho
      obtain ⟨j, hj, rfl⟩ := List.mem_map.mp ho
      have hj := List.mem_range.mp hj
      have hroom := h.entries
      rw [gptEntry_size] at hroom ⊢
      omega

end Loop

variable {place : U64 → Nat} {drive : Drive} {s : State η}

/-- `partition_load_drive` reads and writes entries only where it may, and gets
through with their names. -/
def MemorySafe (place : U64 → Nat) (drive : Drive) (s : State η) : Prop :=
  ∀ t, openTable place drive s = some t → ∃ c, scan place drive.blockSize t = some c ∧ Safe t drive.blockSize c

/-- Whatever header and table the drive delivers: the accesses are safe if and
only if `pentry_count` and `pentry_size` fit the blocks, the entries in use what
`malloc` gave, and their names `buf`. -/
theorem partition_safe_iff
    (hgiven : ∀ t, openTable place drive s = some t → t.Apart place drive.blockSize) :
    MemorySafe place drive s ↔ ∀ t, openTable place drive s = some t → t.Fits place drive.blockSize := by
  constructor
  · exact fun h t ht => (scan_safe_iff (hgiven t ht)).mp (h t ht)
  · exact fun h t ht => (scan_safe_iff (hgiven t ht)).mpr (h t ht)

end ShedOS.Vfs
