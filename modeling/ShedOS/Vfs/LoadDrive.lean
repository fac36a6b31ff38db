import ShedOS.Memory.PmmStart
import ShedOS.Vfs.Partition

/-!
# Loading a partition table

`partition_load_drive` on a drive with a partition table: what it keeps of the
table, and which frames it keeps.
-/

namespace ShedOS.Vfs

open Bytes Libk Memory Layout Loops Device
open Relation (ReflTransGen)

variable {η : Type} [KernelHeap η] {place : U64 → Nat} {drive : Drive} {s s' : State η} {t : Table η} {gpt : U64}
  {disk : Nat → BitVec 8} {size n i : Nat} {m : Mem}

-- ---------------------------------------------------------------------------
-- What the function is given
-- ---------------------------------------------------------------------------

/-- A call of `malloc` gives `n` bytes of memory; it takes frames by requests
only. -/
structure Served (place : U64 → Nat) (s : State η) (n : U64) : Prop where
  buffer : Buffer place (malloc s n).2.pmm (malloc s n).1 n
  nonnull : n ≠ 0 → (malloc s n).1 ≠ 0
  steps : ∃ out, ReflTransGen PmmStep (s.pmm, []) ((malloc s n).2.pmm, out)

abbrev gptAlloc (s : State η) : U64 × State η := malloc s (BitVec.ofNat 64 sizeofGpt)

abbrev entriesAlloc (place : U64 → Nat) (gpt : U64) (s : State η) : U64 × State η :=
  malloc s (entriesSize (readHdr place s.mem gpt))

/-- Every call of an allocator finds what it looks for. -/
structure Provided (place : U64 → Nat) (drive : Drive) (s : State η) : Prop where
  gpt : Served place s (BitVec.ofNat 64 sizeofGpt)
  headerBounce : Granted (gptAlloc s).2.pmm
    (pageCount drive.blockSize (BitVec.ofNat 64 gptHdr.size) drive.blockSize).toNat
  entries : ∀ s', readHeader place drive s = some ((gptAlloc s).1, s') →
    Served place s' (entriesSize (readHdr place s'.mem (gptAlloc s).1))
  table : ∀ s', readHeader place drive s = some ((gptAlloc s).1, s') →
    Granted (entriesAlloc place (gptAlloc s).1 s').2.pmm (tablePages drive.blockSize).toNat
  tableBounce : ∀ s' t, readHeader place drive s = some ((gptAlloc s).1, s') →
    allocTable place drive (gptAlloc s).1 s' = some t → Granted t.state.pmm
      (pageCount drive.blockSize (tableLen drive.blockSize) (drive.blockSize * t.hdr.pentryStartLba)).toNat

-- ---------------------------------------------------------------------------
-- Frames
-- ---------------------------------------------------------------------------

theorem Served.frames {n : U64} (h : Served place s n) (hw : s.pmm.Walled) :
    (malloc s n).2.pmm.Walled ∧ (malloc s n).2.pmm.frames = s.pmm.frames ∧
      (malloc s n).2.pmm.freeFrames ⊆ s.pmm.freeFrames := by
  obtain ⟨out, hrun⟩ := h.steps
  have hi := (PmmInv.preserved s.pmm).run (.init hw) hrun
  exact ⟨hi.walled, hi.frames, hi.sound.freePool⟩

structure Opened (place : U64 → Nat) (drive : Drive) (s s' : State η) (t₀ t : Table η) (q : Nat) : Prop where
  opened : openTable place drive s = some t
  header : readHeader place drive s = some ((gptAlloc s).1, s')
  headerRead : driveRead place (zmalloc place s (BitVec.ofNat 64 sizeofGpt)).2.mem (gptAlloc s).2.pmm (gptAlloc s).1
    (BitVec.ofNat 64 gptHdr.size) drive.blockSize drive = some (s'.mem, s'.pmm)
  headerWalled : s'.pmm.Walled
  headerFrames : s'.pmm.frames = s.pmm.frames
  headerFree : s'.pmm.freeFrames = (gptAlloc s).2.pmm.freeFrames
  alloc : allocTable place drive (gptAlloc s).1 s' = some t₀
  sameHdr : t₀.hdr = t.hdr
  hdr : t.hdr = readHdr place s'.mem (gptAlloc s).1
  entries : t.entries = (entriesAlloc place (gptAlloc s).1 s').1
  lba2 : t.lba2 = framePtr q
  inside : q + (tablePages drive.blockSize).toNat ≤ s.pmm.frames
  fresh : ∀ k, q ≤ k → k < q + (tablePages drive.blockSize).toNat →
    k ∈ (entriesAlloc place (gptAlloc s).1 s').2.pmm.freeFrames
  allocWalled : t₀.state.pmm.Walled
  allocFrames : t₀.state.pmm.frames = s.pmm.frames
  allocFree : t₀.state.pmm.freeFrames = (entriesAlloc place (gptAlloc s).1 s').2.pmm.freeFrames \
    {k | q ≤ k ∧ k < q + (tablePages drive.blockSize).toNat}
  tableRead : driveRead place t₀.state.mem t₀.state.pmm t.lba2 (tableLen drive.blockSize)
    (drive.blockSize * t.hdr.pentryStartLba) drive = some (t.state.mem, t.state.pmm)
  walled : t.state.pmm.Walled
  frames : t.state.pmm.frames = s.pmm.frames
  free : t.state.pmm.freeFrames = t₀.state.pmm.freeFrames

theorem readHeader_spec (hw : s.pmm.Walled) (hlimit : s.pmm.frames ≤ frameLimit)
    (hserved : Served place s (BitVec.ofNat 64 sizeofGpt))
    (hgranted : Granted (gptAlloc s).2.pmm
      (pageCount drive.blockSize (BitVec.ofNat 64 gptHdr.size) drive.blockSize).toNat) :
    ∃ s', readHeader place drive s = some ((gptAlloc s).1, s') ∧
      driveRead place (zmalloc place s (BitVec.ofNat 64 sizeofGpt)).2.mem
        (gptAlloc s).2.pmm (gptAlloc s).1
        (BitVec.ofNat 64 gptHdr.size) drive.blockSize drive = some (s'.mem, s'.pmm) ∧
      s'.pmm.Walled ∧ s'.pmm.frames = s.pmm.frames ∧
      s'.pmm.freeFrames = (gptAlloc s).2.pmm.freeFrames ∧
      ∀ r, (gptAlloc s).2.pmm.lastFree ≤ r →
        (gptAlloc s).2.pmm.FreeRun r
          (pageCount drive.blockSize (BitVec.ofNat 64 gptHdr.size) drive.blockSize).toNat →
        s'.pmm.lastFree ≤ r + (pageCount drive.blockSize (BitVec.ofNat 64 gptHdr.size) drive.blockSize).toNat := by
  obtain ⟨hw₁, hframes₁, -⟩ := hserved.frames hw
  obtain ⟨pmm, q, hread, -, -, hfree, hw₂, hframes₂, hhint⟩ := driveRead_run place
    (zmalloc place s (BitVec.ofNat 64 sizeofGpt)).2.mem (gptAlloc s).1 hw₁ (hframes₁ ▸ hlimit) hgranted
  refine ⟨{ (gptAlloc s).2 with mem := _, pmm }, ?_, hread, hw₂, hframes₂.trans hframes₁, hfree,
    hhint⟩
  unfold readHeader
  change (driveRead place (zmalloc place s (BitVec.ofNat 64 sizeofGpt)).2.mem
    (gptAlloc s).2.pmm (gptAlloc s).1
    (BitVec.ofNat 64 gptHdr.size) drive.blockSize drive).bind _ = _
  rw [hread]
  rfl

theorem allocTable_spec (hw : s'.pmm.Walled)
    (hserved : Served place s' (entriesSize (readHdr place s'.mem gpt)))
    (hgranted : Granted (entriesAlloc place gpt s').2.pmm (tablePages drive.blockSize).toNat) :
    ∃ pmm q, allocTable place drive gpt s' = some ⟨gpt, readHdr place s'.mem gpt, (entriesAlloc place gpt s').1,
        framePtr q, { (entriesAlloc place gpt s').2 with pmm }⟩ ∧
      q + (tablePages drive.blockSize).toNat ≤ s'.pmm.frames ∧
      (∀ k, q ≤ k → k < q + (tablePages drive.blockSize).toNat → k ∈ (entriesAlloc place gpt s').2.pmm.freeFrames) ∧
      pmm.Walled ∧ pmm.frames = s'.pmm.frames ∧
      pmm.freeFrames = (entriesAlloc place gpt s').2.pmm.freeFrames \
        {k | q ≤ k ∧ k < q + (tablePages drive.blockSize).toNat} ∧
      ∀ r, (entriesAlloc place gpt s').2.pmm.lastFree ≤ r →
        (entriesAlloc place gpt s').2.pmm.FreeRun r (tablePages drive.blockSize).toNat →
        q ≤ r ∧ pmm.lastFree = q + (tablePages drive.blockSize).toNat := by
  obtain ⟨hw₁, hframes₁, -⟩ := hserved.frames hw
  obtain ⟨n, hn⟩ : ∃ n, n = (tablePages drive.blockSize).toNat := ⟨_, rfl⟩
  rw [← hn] at hgranted ⊢
  obtain ⟨r, hr, hrlt, hrfree⟩ := hgranted
  rcases pmmRequestPages_cases n hw₁ with ⟨q, pmm, hrequest, -, hq, hfree, hfirst, hsame, hbits⟩ | ⟨-, hnone⟩
  · have hqn := hw₁.freeRun_le hq.le hfree
    have hframes : pmm.frames = (entriesAlloc place gpt s').2.pmm.frames := by simp [Pmm.frames, hsame.totalMemory]
    refine ⟨pmm, q, ?_, hframes₁ ▸ hqn, fun k hk hk' => ?_, ?_, hframes.trans hframes₁, ?_,
      fun r hr hrun => ⟨Nat.le_of_not_lt fun hlt => hfirst r hr hlt hrun, hsame.lastFree⟩⟩
    · unfold allocTable palloc
      rw [← hn]
      change (pmmRequestPages (entriesAlloc place gpt s').2.pmm n).bind _ >>= _ = _
      rw [hrequest]
      rfl
    · refine ⟨Nat.lt_of_lt_of_le hk' hqn, ?_⟩
      have := hfree (k - q) (by omega)
      rwa [show q + (k - q) = k by omega] at this
    · exact hw₁.of_same hsame.len hsame.totalMemory (by rw [hbits, hw₁.wall, Bool.or_true])
    · exact freeFrames_lock hframes ⟨q, n⟩ hbits
  · exact absurd hrfree (hnone r hr hrlt)

theorem openTable_opened (hw : s.pmm.Walled) (hlimit : s.pmm.frames ≤ frameLimit) (h : Provided place drive s)
    (hsig : ∀ s', readHeader place drive s = some ((gptAlloc s).1, s') →
      strncmp (view place s'.mem (gptAlloc s).1) (fun i => signature.getD i 0) 8 = 0) :
    ∃ s' t₀ t q, Opened place drive s s' t₀ t q := by
  obtain ⟨s', hheader, hread, hw', hframes', hfree', -⟩ := readHeader_spec hw hlimit h.gpt h.headerBounce
  obtain ⟨pmm, q, halloc, hinside, hfresh, hw₀, hframes₀, hfree₀, -⟩ := allocTable_spec hw'
    (h.entries s' hheader) (h.table s' hheader)
  have hbounce := h.tableBounce s' _ hheader halloc
  obtain ⟨m', pmm', hrun, hfree, hw₂, hframes₂⟩ : ∃ m' pmm',
      driveRead place (entriesAlloc place (gptAlloc s).1 s').2.mem pmm (framePtr q) (tableLen drive.blockSize)
        (drive.blockSize * (readHdr place s'.mem (gptAlloc s).1).pentryStartLba) drive = some (m', pmm') ∧
      pmm'.freeFrames = pmm.freeFrames ∧ pmm'.Walled ∧ pmm'.frames = pmm.frames := by
    obtain ⟨pmm', q', hrun, -, -, hfree, hw, hframes, -⟩ := driveRead_run place
      (entriesAlloc place (gptAlloc s).1 s').2.mem (framePtr q) hw₀ (hframes₀ ▸ hframes' ▸ hlimit) hbounce
    exact ⟨_, pmm', hrun, hfree, hw, hframes⟩
  obtain ⟨table, htable⟩ : ∃ table : State η → Table η, table = fun x =>
    ⟨(gptAlloc s).1, readHdr place s'.mem (gptAlloc s).1, (entriesAlloc place (gptAlloc s).1 s').1, framePtr q, x⟩ := ⟨_, rfl⟩
  have hopen : openTable place drive s =
      some (table { (entriesAlloc place (gptAlloc s).1 s').2 with mem := m', pmm := pmm' }) := by
    unfold openTable
    rw [hheader]
    simp only [Option.bind_eq_bind, Option.bind_some, hsig s' hheader, ne_eq, not_true_eq_false, if_false]
    rw [halloc]
    simp only [Option.bind_some]
    rw [hrun, htable]
    rfl
  refine ⟨s', table { (entriesAlloc place (gptAlloc s).1 s').2 with pmm },
    table { (entriesAlloc place (gptAlloc s).1 s').2 with mem := m', pmm := pmm' }, q, ?_⟩
  subst htable
  exact ⟨hopen, hheader, hread, hw', hframes', hfree', halloc, rfl, rfl, rfl, rfl, hframes' ▸ hinside, hfresh, hw₀,
    hframes₀.trans hframes', hfree₀, hrun, hw₂, hframes₂.trans (hframes₀.trans hframes'), hfree⟩

theorem pmmReleasePages_keeps {pmm pmm' : Pmm} {p : Nat} (h : pmmReleasePages pmm p n = some pmm') :
    pmm'.frames = pmm.frames ∧ ∀ j, pmm'.bit j = true → pmm.bit j = true := by
  obtain ⟨⟨k, pmm₁⟩, hloop, h⟩ := Option.bind_eq_some_iff.mp h
  have hkeeps : pmm₁.frames = pmm.frames ∧ ∀ j, pmm₁.bit j = true → pmm.bit j = true := by
    refine pagesLoop_keeps (fun _ x => x.frames = pmm.frames ∧ ∀ j, x.bit j = true → pmm.bit j = true)
      (fun acc x p k x' _ hx hpage => ?_) _ _ _ _ ⟨rfl, fun _ hj => hj⟩ hloop
    obtain ⟨hin, hsame⟩ := unlockPage_inside hpage
    obtain ⟨k', x'', hunlock, -, hbits⟩ := unlockPage_spec (s := x) hin
    rw [unlockPage_floor, hunlock] at hpage
    obtain ⟨rfl, rfl⟩ := Prod.mk.inj (Option.some.inj hpage)
    have htotal : x''.totalMemory = x.totalMemory := hsame.totalMemory
    have hframes : x''.frames = x.frames := by simp [Pmm.frames, htotal]
    refine ⟨hframes.trans hx.1, fun j hj => hx.2 j ?_⟩
    rw [hbits, Bool.and_eq_true] at hj
    exact hj.2
  simp only at h
  split at h <;> obtain rfl := Option.some.inj h
  · exact hkeeps
  · exact hkeeps

def heapFrames (place : U64 → Nat) (drive : Drive) (s : State η) : Set Nat :=
  {k | (k ∈ s.pmm.freeFrames ∧ k ∉ (gptAlloc s).2.pmm.freeFrames) ∨
    ∃ s', readHeader place drive s = some ((gptAlloc s).1, s') ∧ k ∈ s'.pmm.freeFrames ∧
      k ∉ (entriesAlloc place (gptAlloc s).1 s').2.pmm.freeFrames}

/-- What is locked behind the function was locked before it, or is the heap's. -/
def NoLeak (place : U64 → Nat) (drive : Drive) (s : State η) (r : Loaded η) : Prop :=
  ∀ k < s.pmm.frames, k ∉ r.state.pmm.freeFrames → k ∉ s.pmm.freeFrames ∨ k ∈ heapFrames place drive s

section Pages

variable {bs : U64}

theorem toNat_tablePages : (tablePages bs).toNat = (bs.toNat * 32 % 2 ^ 64 + 0xfff) % 2 ^ 64 / 0x1000 := by
  rw [tablePages, BitVec.toNat_udiv, BitVec.toNat_add, BitVec.toNat_mul]
  rfl

theorem toNat_releasedPages : (releasedPages bs).toNat = (bs.toNat + 0xfff) % 2 ^ 64 / 0x1000 := by
  rw [releasedPages, BitVec.toNat_udiv, BitVec.toNat_add]
  rfl

theorem pages_le_iff (hpower : ∃ k < 59, bs.toNat = 2 ^ k) :
    (tablePages bs).toNat ≤ (releasedPages bs).toNat ↔ bs.toNat ≤ 128 := by
  obtain ⟨k, hk, hpow⟩ := hpower
  rw [toNat_tablePages, toNat_releasedPages, hpow]
  interval_cases k <;> decide

theorem pages_eq (hpower : ∃ k < 59, bs.toNat = 2 ^ k) (h : (tablePages bs).toNat ≤ (releasedPages bs).toNat) :
    (releasedPages bs).toNat = (tablePages bs).toNat := by
  obtain ⟨k, hk, hpow⟩ := hpower
  rw [toNat_tablePages, toNat_releasedPages, hpow] at h ⊢
  revert h
  interval_cases k <;> decide

theorem pageCount_header_huge (hk : n < 64) (hlarge : 59 ≤ n) (hpow : bs.toNat = 2 ^ n) :
    2 ^ 47 ≤ (pageCount bs (BitVec.ofNat 64 gptHdr.size) bs).toNat := by
  obtain rfl : bs = BitVec.ofNat 64 (2 ^ n) := by rw [← hpow, BitVec.ofNat_toNat, BitVec.setWidth_eq]
  interval_cases n <;> decide

theorem granted_le {pmm : Pmm} (h : Granted pmm n) (hw : pmm.Walled) : n ≤ pmm.frames := by
  obtain ⟨r, -, hr, hrun⟩ := h
  have := hw.freeRun_le hr.le hrun
  omega

theorem Provided.power (h : Provided place drive s) (hw : s.pmm.Walled) (hlimit : s.pmm.frames ≤ frameLimit)
    (hpower : ∃ k < 64, drive.blockSize.toNat = 2 ^ k) : ∃ k < 59, drive.blockSize.toNat = 2 ^ k := by
  obtain ⟨k, hk, hpow⟩ := hpower
  refine ⟨k, ?_, hpow⟩
  by_contra hlarge
  obtain ⟨hw₁, hframes₁, -⟩ := h.gpt.frames hw
  have hle := granted_le h.headerBounce hw₁
  have hhuge := pageCount_header_huge hk (by omega) hpow
  rw [hframes₁] at hle
  unfold frameLimit at hlimit
  omega

end Pages

theorem partitionLoadDrive_some {r : Loaded η} (h : partitionLoadDrive place drive s = some r) :
    ∃ t, openTable place drive s = some t ∧ scan place drive.blockSize t = some r.scan ∧
      pmmReleasePages t.state.pmm (addrEnsureLower t.lba2).toNat (releasedPages drive.blockSize).toNat =
        some r.state.pmm := by
  unfold partitionLoadDrive at h
  obtain ⟨t, hopen, h⟩ := Option.bind_eq_some_iff.mp h
  obtain ⟨c, hscan, h⟩ := Option.bind_eq_some_iff.mp h
  obtain ⟨pmm, hrelease, h⟩ := Option.bind_eq_some_iff.mp h
  obtain rfl := Option.some.inj h
  exact ⟨t, hopen, hscan, hrelease⟩

theorem openTable_signature (h : openTable place drive s = some t) (hheader : readHeader place drive s = some (gpt, s')) :
    strncmp (view place s'.mem gpt) (fun i => signature.getD i 0) 8 = 0 := by
  unfold openTable at h
  rw [hheader] at h
  simp only [Option.bind_eq_bind, Option.bind_some] at h
  by_contra hne
  rw [if_pos hne] at h
  cases h

-- ---------------------------------------------------------------------------
-- The disk
-- ---------------------------------------------------------------------------

def diskHdr (disk : Nat → BitVec 8) (bs : Nat) : GptHdr where
  pentryStartLba := Mem.read64 (fun k => disk (bs + k)) (gptHdr.offset .pentryStartLba)
  pentryCount := Mem.readBytes (fun k => disk (bs + k)) (gptHdr.offset .pentryCount) 4
  pentrySize := Mem.readBytes (fun k => disk (bs + k)) (gptHdr.offset .pentrySize) 4

def diskTable (disk : Nat → BitVec 8) (bs : Nat) : Mem := fun b => disk ((diskHdr disk bs).pentryStartLba.toNat * bs + b)

def diskEntry (disk : Nat → BitVec 8) (bs : Nat) (i : Nat) : Mem :=
  let hdr := diskHdr disk bs
  fun b => disk (hdr.pentryStartLba.toNat * bs + i * hdr.pentrySize.toNat + b)

def diskUsed (disk : Nat → BitVec 8) (bs : Nat) : List Nat :=
  (List.range (diskHdr disk bs).pentryCount.toNat).filter fun i =>
    (diskEntry disk bs i).read64 (gptEntry.offset .firstLba) ≠ 0

/-- The name of every entry in use has a character that is 0 among its first 64,
inside the 32 blocks. -/
def NamesEnd (disk : Nat → BitVec 8) (bs : Nat) : Prop := ∀ i ∈ diskUsed disk bs,
  NameEnds (diskTable disk bs) (32 * bs) (i * (diskHdr disk bs).pentrySize.toNat)

instance (disk : Nat → BitVec 8) (bs : Nat) : Decidable (NamesEnd disk bs) := inferInstanceAs (Decidable (∀ i ∈ _, _))

/-- A drive with a header and 32 blocks behind `pentry_start_lba`. -/
structure GptDisk (place : U64 → Nat) (drive : Drive) (disk : Nat → BitVec 8) (size : Nat) : Prop where
  power : ∃ k < 64, drive.blockSize.toNat = 2 ^ k
  least : 512 ≤ drive.blockSize.toNat
  reads : ReadsBlocks place drive disk size
  blocks : drive.blockSize.toNat ∣ size
  bytes : size < 2 ^ 64
  header : 2 * drive.blockSize.toNat ≤ size
  signature : ∀ i < 8, disk (drive.blockSize.toNat + i) = signature.getD i 0
  table : ((diskHdr disk drive.blockSize.toNat).pentryStartLba.toNat + 32) * drive.blockSize.toNat ≤ size

/-- The sizes in the header are those of a table of whole entries in 32 blocks. -/
structure EntriesFit (hdr : GptHdr) (bs : Nat) : Prop where
  entrySize : 128 ≤ hdr.pentrySize.toNat
  table : hdr.pentryCount.toNat * hdr.pentrySize.toNat ≤ 32 * bs

def entryBytes (m : Mem) : List (BitVec 8) := (List.range gptEntry.size).map m

/-- `gpt->entries` is an array in the memory that was asked for, and holds the
entries in use. -/
structure LoadedExactly (place : U64 → Nat) (disk : Nat → BitVec 8) (bs : Nat) (r : Loaded η) : Prop where
  room : gptEntry.size * r.gpt.entriesCount.toNat ≤ (entriesSize r.gpt.hdr).toNat
  entries : ((List.range r.gpt.entriesCount.toNat).map fun j =>
      entryBytes (view place r.state.mem (r.gpt.entries + BitVec.ofNat 64 (gptEntry.size * j)))) =
    (diskUsed disk bs).map fun i => entryBytes (diskEntry disk bs i)

section Sizes

variable {bs : U64}

theorem toNat_tableLen (h : bs.toNat * 32 < 2 ^ 64) : (tableLen bs).toNat = 32 * bs.toNat := by
  rw [tableLen, BitVec.toNat_mul, Nat.mul_comm]
  exact Nat.mod_eq_of_lt (by rwa [Nat.mul_comm] at h)

theorem tablePages_room (hpower : ∃ k < 64, bs.toNat = 2 ^ k) (h : bs.toNat * 32 < 2 ^ 64) :
    32 * bs.toNat ≤ 0x1000 * (tablePages bs).toNat ∧ (releasedPages bs).toNat ≤ (tablePages bs).toNat := by
  obtain ⟨k, hk, hpow⟩ := hpower
  rw [hpow] at h
  rw [toNat_tablePages, toNat_releasedPages, hpow]
  revert h
  interval_cases k <;> decide

end Sizes

theorem GptDisk.wrap (h : GptDisk place drive disk size) : drive.blockSize.toNat * 32 < 2 ^ 64 := by
  have htable := h.table
  have hsize := h.bytes
  rw [Nat.add_mul] at htable
  omega

theorem GptDisk.headerRequest (h : GptDisk place drive disk size) :
    Request drive.blockSize (BitVec.ofNat 64 gptHdr.size) drive.blockSize ∧
      (pageCount drive.blockSize (BitVec.ofNat 64 gptHdr.size) drive.blockSize).toNat =
        bouncePages drive.blockSize.toNat (BitVec.ofNat 64 gptHdr.size).toNat drive.blockSize.toNat ∧
      bouncePages drive.blockSize.toNat (BitVec.ofNat 64 gptHdr.size).toNat drive.blockSize.toNat =
        (drive.blockSize.toNat + 0xfff) / 0x1000 := by
  have hlen : (BitVec.ofNat 64 gptHdr.size).toNat = 512 := rfl
  have hleast := h.least
  have hheader := h.header
  have hsize := h.bytes
  have hreq : Request drive.blockSize (BitVec.ofNat 64 gptHdr.size) drive.blockSize :=
    ⟨h.power, by rw [hlen]; decide, by rw [hlen]; omega⟩
  have hblock : blockBytes drive.blockSize.toNat 512 drive.blockSize.toNat = drive.blockSize.toNat := by
    have := blockBytes_one (a := 1) (show 0 < 512 by decide) hleast
    rwa [Nat.one_mul] at this
  refine ⟨hreq, toNat_pageCount hreq (by rw [hlen, hblock]; omega), ?_⟩
  rw [bouncePages, hlen, hblock]

theorem GptDisk.tableRequest (h : GptDisk place drive disk size) {start : U64}
    (hstart : start = (diskHdr disk drive.blockSize.toNat).pentryStartLba) :
    (drive.blockSize * start).toNat = start.toNat * drive.blockSize.toNat ∧
      Request drive.blockSize (tableLen drive.blockSize) (drive.blockSize * start) ∧
      (pageCount drive.blockSize (tableLen drive.blockSize) (drive.blockSize * start)).toNat =
        bouncePages drive.blockSize.toNat (tableLen drive.blockSize).toNat (drive.blockSize * start).toNat ∧
      bouncePages drive.blockSize.toNat (tableLen drive.blockSize).toNat (drive.blockSize * start).toNat =
        (tablePages drive.blockSize).toNat := by
  have hwrap := h.wrap
  have hlen := toNat_tableLen hwrap
  have hleast := h.least
  have htable := h.table
  have hsize := h.bytes
  rw [← hstart, Nat.add_mul] at htable
  have hoffset : (drive.blockSize * start).toNat = start.toNat * drive.blockSize.toNat := by
    rw [BitVec.toNat_mul, Nat.mul_comm, Nat.mod_eq_of_lt (by omega)]
  have hreq : Request drive.blockSize (tableLen drive.blockSize) (drive.blockSize * start) :=
    ⟨h.power, by omega, by omega⟩
  have hblock : blockBytes drive.blockSize.toNat (tableLen drive.blockSize).toNat (drive.blockSize * start).toNat =
      32 * drive.blockSize.toNat := by
    rw [hlen, hoffset]
    exact blockBytes_aligned (by omega) (by decide)
  -- The last power of two whose 32 blocks do not wrap leaves room for the rounding.
  have hround : 32 * drive.blockSize.toNat + 0xfff < 2 ^ 64 := by
    obtain ⟨k, hk, hpow⟩ := h.power
    rw [hpow] at hwrap ⊢
    have hk : k < 59 := (Nat.pow_lt_pow_iff_right (by decide : 1 < 2)).mp (by omega)
    have := Nat.pow_le_pow_right (show 0 < 2 by decide) (Nat.le_of_lt_succ hk)
    omega
  refine ⟨hoffset, hreq, toNat_pageCount hreq (hblock.symm ▸ hround), ?_⟩
  rw [bouncePages, hblock, toNat_tablePages]
  omega

theorem readHdr_eq (h : ∀ k < 512, view place m gpt k = disk (n + k)) : readHdr place m gpt = diskHdr disk n := by
  have hsame : ∀ f, gptHdr.offset f + 8 ≤ 512 → ∀ k, gptHdr.offset f ≤ k → k < gptHdr.offset f + 8 →
      view place m gpt k = disk (n + k) := fun f hf k _ hk => h k (by omega)
  unfold readHdr diskHdr
  congr 1
  · exact Mem.read64_congr (hsame .pentryStartLba (by decide))
  · exact Mem.readBytes_congr fun k hk hk' => hsame .pentryCount (by decide) k hk (by omega)
  · exact Mem.readBytes_congr fun k hk hk' => hsame .pentrySize (by decide) k hk (by omega)

theorem header_delivered (hw : s.pmm.Walled) (hmap : DirectMap place s.pmm) (hdisk : GptDisk place drive disk size)
    (hserved : Served place s (BitVec.ofNat 64 sizeofGpt))
    (hgranted : Granted (gptAlloc s).2.pmm
      (pageCount drive.blockSize (BitVec.ofNat 64 gptHdr.size) drive.blockSize).toNat)
    (hheader : readHeader place drive s = some ((gptAlloc s).1, s')) :
    ∀ k < 512, view place s'.mem (gptAlloc s).1 k = disk (drive.blockSize.toNat + k) := by
  obtain ⟨s₁, hheader₁, hread, -⟩ := readHeader_spec hw hmap.frames hserved hgranted
  obtain rfl := (Prod.mk.inj (Option.some.inj (hheader.symm.trans hheader₁))).2
  obtain ⟨hw₁, hframes₁, -⟩ := hserved.frames hw
  have hmap₁ : DirectMap place (gptAlloc s).2.pmm := ⟨hframes₁ ▸ hmap.frames, hframes₁ ▸ hmap.place⟩
  have hlen : (BitVec.ofNat 64 gptHdr.size).toNat = 512 := rfl
  have hleast := hdisk.least
  have hheaderSize := hdisk.header
  obtain ⟨hreq, hpages, -⟩ := hdisk.headerRequest
  obtain ⟨m', pmm', q, hdelivered⟩ := driveRead_delivered
    (m := (zmalloc place s (BitVec.ofNat 64 sizeofGpt)).2.mem) hw₁ hmap₁ (hserved.buffer.mono (by decide)) hreq
    hdisk.reads hdisk.blocks (by rw [hlen]; omega) hpages hgranted
  obtain ⟨hm, -⟩ := Prod.mk.inj (Option.some.inj (hread.symm.trans hdelivered.run))
  intro k hk
  rw [hm]
  exact hdelivered.bytes k hk

section Loading

variable {t₀ : Table η} {q : Nat}

theorem Opened.hdr_eq (h : Opened place drive s s' t₀ t q) (hw : s.pmm.Walled) (hmap : DirectMap place s.pmm)
    (hdisk : GptDisk place drive disk size) (hgiven : Provided place drive s) :
    t.hdr = diskHdr disk drive.blockSize.toNat :=
  h.hdr.trans (readHdr_eq (header_delivered hw hmap hdisk hgiven.gpt hgiven.headerBounce h.header))

theorem openTable_gptDisk (hw : s.pmm.Walled) (hmap : DirectMap place s.pmm) (hdisk : GptDisk place drive disk size)
    (hgiven : Provided place drive s) :
    ∃ s' t₀ t q, Opened place drive s s' t₀ t q := by
  refine openTable_opened hw hmap.frames hgiven fun s' hs' => strncmp_same fun i hi => ?_
  rw [header_delivered hw hmap hdisk hgiven.gpt hgiven.headerBounce hs' i (by omega), hdisk.signature i hi]

theorem Opened.lba2_place (h : Opened place drive s s' t₀ t q) (hmap : DirectMap place s.pmm) {j : Nat}
    (hj : j < 0x1000 * (tablePages drive.blockSize).toNat) :
    place (t.lba2 + BitVec.ofNat 64 j) = 0x1000 * q + j := by
  have hinside := h.inside
  rw [h.lba2]
  exact hmap.framePtr (by omega)

theorem Opened.table_delivered (h : Opened place drive s s' t₀ t q) (hw : s.pmm.Walled) (hmap : DirectMap place s.pmm)
    (hdisk : GptDisk place drive disk size) (hgiven : Provided place drive s) :
    ∀ j < 32 * drive.blockSize.toNat, t.state.mem (place (t.lba2 + BitVec.ofNat 64 j)) =
      disk (t.hdr.pentryStartLba.toNat * drive.blockSize.toNat + j) := by
  have hlen := toNat_tableLen hdisk.wrap
  obtain ⟨hroom, -⟩ := tablePages_room hdisk.power hdisk.wrap
  have hhdr := h.hdr_eq hw hmap hdisk hgiven
  have htable := hdisk.table
  rw [← hhdr, Nat.add_mul] at htable
  obtain ⟨hoffset, hreq, hpages, -⟩ := hdisk.tableRequest (congrArg GptHdr.pentryStartLba hhdr)
  have hmap₀ : DirectMap place t₀.state.pmm := ⟨h.allocFrames ▸ hmap.frames, h.allocFrames ▸ hmap.place⟩
  have hbuf : Buffer place t₀.state.pmm t.lba2 (tableLen drive.blockSize) := by
    refine ⟨fun i hi j hj heq => ?_, fun i hi hmem => ?_⟩
    · rw [h.lba2_place hmap (by omega), h.lba2_place hmap (by omega)] at heq
      omega
    · rw [h.lba2_place hmap (by omega), h.allocFree] at hmem
      exact hmem.2 ⟨by omega, by omega⟩
  have hbounce := hgiven.tableBounce s' t₀ h.header h.alloc
  rw [h.sameHdr] at hbounce
  obtain ⟨m', pmm', q', hdelivered⟩ := driveRead_delivered (m := t₀.state.mem) h.allocWalled hmap₀ hbuf hreq
    hdisk.reads hdisk.blocks (by omega) hpages hbounce
  obtain ⟨hm, -⟩ := Prod.mk.inj (Option.some.inj (h.tableRead.symm.trans hdelivered.run))
  intro j hj
  rw [hm, hdelivered.bytes j (by omega), hoffset]

theorem Opened.apart (h : Opened place drive s s' t₀ t q) (hmap : DirectMap place s.pmm)
    (hdisk : GptDisk place drive disk size) (hgiven : Provided place drive s) : t.Apart place drive.blockSize := by
  obtain ⟨hroom, -⟩ := tablePages_room hdisk.power hdisk.wrap
  have hlen := toNat_tableLen hdisk.wrap
  have hbuf := (hgiven.entries s' h.header).buffer
  rw [← h.hdr] at hbuf
  have hentries : t.entries = (malloc s' (entriesSize t.hdr)).1 := by rw [h.entries, h.hdr]
  have hle : t.allocated ≤ (entriesSize t.hdr).toNat := by
    unfold Table.allocated
    split <;> omega
  rw [← hentries] at hbuf
  refine ⟨fun i hi j hj => hbuf.inj i (by omega) j (by omega), fun i hi j hj heq => hbuf.notFree i (by omega) ?_⟩
  have hfresh := h.fresh (q + j / 0x1000) (by omega) (by omega)
  rw [heq, h.lba2_place hmap (by omega), show (0x1000 * q + j) / 0x1000 = q + j / 0x1000 by omega, h.hdr]
  exact hfresh

theorem EntriesFit.inside {hdr : GptHdr} {bs : Nat} (h : EntriesFit hdr bs) (hi : i < hdr.pentryCount.toNat) :
    i * hdr.pentrySize.toNat + 128 ≤ 32 * bs := by
  have htable := h.table
  have hsize := h.entrySize
  have hmul : (i + 1) * hdr.pentrySize.toNat ≤ hdr.pentryCount.toNat * hdr.pentrySize.toNat := Nat.mul_le_mul_right _ hi
  rw [Nat.add_mul, Nat.one_mul] at hmul
  omega

theorem Opened.entry_eq (h : Opened place drive s s' t₀ t q) (hw : s.pmm.Walled) (hmap : DirectMap place s.pmm)
    (hdisk : GptDisk place drive disk size) (hgiven : Provided place drive s) (hi : i < t.hdr.pentryCount.toNat)
    (hin : i * t.hdr.pentrySize.toNat + 128 ≤ 32 * drive.blockSize.toNat) {b : Nat} (hb : b < 128) :
    t.state.mem (place (t.lba2 + t.off i + BitVec.ofNat 64 b)) = diskEntry disk drive.blockSize.toNat i b := by
  have hcount := t.hdr.pentryCount.isLt
  have hhdr := h.hdr_eq hw hmap hdisk hgiven
  rw [lba2_off (by omega), h.table_delivered hw hmap hdisk hgiven _ (by omega), hhdr, ← Nat.add_assoc]
  rfl

theorem Opened.usedSlots_eq (h : Opened place drive s s' t₀ t q) (hw : s.pmm.Walled) (hmap : DirectMap place s.pmm)
    (hdisk : GptDisk place drive disk size) (hgiven : Provided place drive s)
    (hin : ∀ i < t.hdr.pentryCount.toNat, i * t.hdr.pentrySize.toNat + 128 ≤ 32 * drive.blockSize.toNat) :
    t.usedSlots place t.hdr.pentryCount.toNat = diskUsed disk drive.blockSize.toNat := by
  unfold Table.usedSlots diskUsed
  rw [← h.hdr_eq hw hmap hdisk hgiven]
  refine List.filter_congr fun i hi => ?_
  have hi := List.mem_range.mp hi
  have hread : (view place t.state.mem (t.lba2 + t.off i)).read64 (gptEntry.offset .firstLba) =
      (diskEntry disk drive.blockSize.toNat i).read64 (gptEntry.offset .firstLba) :=
    Mem.read64_congr fun b _ hb =>
      h.entry_eq hw hmap hdisk hgiven hi (hin i hi) (Nat.lt_of_lt_of_le hb (by decide))
  rw [Table.used, hread]

theorem Opened.nameEnds_iff (h : Opened place drive s s' t₀ t q) (hw : s.pmm.Walled) (hmap : DirectMap place s.pmm)
    (hdisk : GptDisk place drive disk size) (hgiven : Provided place drive s) (hi : i < t.hdr.pentryCount.toNat) :
    t.NameEnds place drive.blockSize i ↔ NameEnds (diskTable disk drive.blockSize.toNat) (32 * drive.blockSize.toNat)
      (i * (diskHdr disk drive.blockSize.toNat).pentrySize.toNat) := by
  have hcount := t.hdr.pentryCount.isLt
  have hhdr := h.hdr_eq hw hmap hdisk hgiven
  have hdelivered := h.table_delivered hw hmap hdisk hgiven
  rw [Table.NameEnds, toNat_off (by omega), toNat_tableLen hdisk.wrap, ← hhdr]
  refine NameEnds.congr fun k hk => ?_
  rw [view, hdelivered k hk, hhdr]
  rfl

theorem Opened.namesEnd_iff (h : Opened place drive s s' t₀ t q) (hw : s.pmm.Walled) (hmap : DirectMap place s.pmm)
    (hdisk : GptDisk place drive disk size) (hgiven : Provided place drive s)
    (hslots : t.usedSlots place t.hdr.pentryCount.toNat = diskUsed disk drive.blockSize.toNat) :
    (∀ i < t.hdr.pentryCount.toNat, t.used place i = true → t.NameEnds place drive.blockSize i) ↔
      NamesEnd disk drive.blockSize.toNat := by
  rw [NamesEnd, ← hslots]
  simp only [Table.usedSlots, List.mem_filter, List.mem_range, and_imp]
  exact forall_congr' fun i => forall_congr' fun hi => imp_congr_right fun _ => h.nameEnds_iff hw hmap hdisk hgiven hi

theorem Opened.allocated_eq (h : Opened place drive s s' t₀ t q) (hgiven : Provided place drive s) :
    t.allocated = (entriesSize t.hdr).toNat := by
  have hnonnull := (hgiven.entries s' h.header).nonnull
  rw [← h.hdr] at hnonnull
  have hentries : t.entries = (malloc s' (entriesSize t.hdr)).1 := by rw [h.entries, h.hdr]
  unfold Table.allocated
  split
  next h0 =>
    by_contra hne
    refine hnonnull (fun e => hne ?_) (hentries ▸ h0)
    rw [e]
    rfl
  next => rfl

end Loading

-- ---------------------------------------------------------------------------
-- A machine with room
-- ---------------------------------------------------------------------------

def roomyPmm (bytes : Nat) : Pmm :=
  ⟨⟨0, 0x01#8 :: (List.replicate bytes 0 ++ [0xff#8])⟩, 0, 0, 0x1000 * (8 * (bytes + 1))⟩

theorem roomyPmm_frames {bytes : Nat} : (roomyPmm bytes).frames = 8 * (bytes + 1) := by
  simp [Pmm.frames, roomyPmm]

theorem roomyPmm_bit {bytes j : Nat} (h0 : 0 < j) (hj : j < 8 * (bytes + 1)) : (roomyPmm bytes).bit j = false := by
  unfold Pmm.bit Bitmap.bit roomyPmm
  have hm : j % 8 < 8 := Nat.mod_lt _ (by decide)
  cases hdiv : j / 8 with
  | zero =>
    have hlow : ∀ i < 8, 0 < i → (0x01#8).getLsbD i = false := by decide
    exact hlow _ hm (by omega)
  | succ d =>
    have hd : d < bytes := by omega
    simp [List.getD, List.getElem?_append, hd]

theorem roomyPmm_walled {bytes : Nat} (h : bytes < 2 ^ 20) : (roomyPmm bytes).Walled where
  total_lt := by
    simp only [roomyPmm, wordSize]
    omega
  slack := by
    rw [roomyPmm_frames]
    simp [Bitmap.len, roomyPmm]
  wall := by
    rw [roomyPmm_frames]
    unfold Pmm.bit Bitmap.bit roomyPmm
    rw [Nat.mul_div_cancel_left _ (by decide), Nat.mul_mod_right]
    simp [List.getD]

structure Area where
  next : U64

instance : KernelHeap Area where
  malloc heap mem pmm n := if n = 0 then (0, heap, mem, pmm) else (heap.next, ⟨heap.next + n⟩, mem, pmm)

def bootState (bytes : Nat) : State Area :=
  ⟨fun _ => 0, roomyPmm bytes, ⟨0xffff810000000000⟩, List.replicate 255 0⟩

theorem area_pmm {s : State Area} {n : U64} : (malloc s n).2.pmm = s.pmm := by
  unfold malloc
  simp only [KernelHeap.malloc]
  split <;> rfl

theorem area_served {s : State Area} {n : U64} (hframes : s.pmm.frames ≤ 2 ^ 28) (hn : n.toNat < 2 ^ 32)
    (hlow : 0xffff810000000000 ≤ s.heap.next.toNat) (hhigh : s.heap.next.toNat < 0xffff810000001000) :
    Served physical s n := by
  have hpmm : (malloc s n).2.pmm = s.pmm := area_pmm
  by_cases h0 : n = 0
  · subst h0
    refine ⟨⟨fun i hi => absurd hi (Nat.not_lt_zero i), fun i hi => absurd hi (Nat.not_lt_zero i)⟩, fun h => absurd rfl h,
      [], ?_⟩
    rw [hpmm]
  · have hp : (malloc s n).1 = s.heap.next := by
      unfold malloc
      simp only [KernelHeap.malloc, if_neg h0]
    have hplace : ∀ i < n.toNat, physical (s.heap.next + BitVec.ofNat 64 i) = s.heap.next.toNat - 0xffff800000000000 + i := by
      intro i hi
      unfold physical addrOffsetLower VADDR_HIGHER
      bv_omega
    rw [← hp] at hplace
    refine ⟨⟨fun i hi j hj heq => ?_, fun i hi hmem => ?_⟩, fun _ => ?_, [], by rw [hpmm]⟩
    · rw [hplace i hi, hplace j hj] at heq
      omega
    · rw [hplace i hi, hp] at hmem
      have hlt := hmem.1
      rw [hpmm] at hlt
      omega
    · rw [hp]
      intro h
      rw [h] at hlow
      exact absurd hlow (by decide)

theorem physical_directMap {pmm : Pmm} (h : pmm.frames ≤ frameLimit) : DirectMap physical pmm := by
  refine ⟨h, fun p hp => ?_⟩
  unfold frameLimit at h
  rw [physical, addrOffsetLower_higher, BitVec.toNat_ofNat, Nat.mod_eq_of_lt (by omega)]

theorem readHeader_heap (h : readHeader place drive s = some (gpt, s')) : s'.heap = (gptAlloc s).2.heap := by
  obtain ⟨r, -, h⟩ := Option.bind_eq_some_iff.mp h
  obtain ⟨-, rfl⟩ := Prod.mk.inj (Option.some.inj h)
  rfl

theorem granted_of_free {pmm : Pmm} {a n : Nat} (hlast : pmm.lastFree ≤ a) (hlt : a < pmm.frames)
    (h : ∀ k, a ≤ k → k < a + n → k ∈ pmm.freeFrames) : Granted pmm n :=
  ⟨a, hlast, hlt, fun j hj => (h (a + j) (by omega) (by omega)).2⟩

section Boot

variable {bs : U64} {bytes k n₁ n₂ : Nat}

theorem bootState_frames : (bootState bytes).pmm.frames = 8 * (bytes + 1) := roomyPmm_frames

theorem bootState_walled (hbytes : bytes < 2 ^ 20) : (bootState bytes).pmm.Walled := roomyPmm_walled hbytes

theorem bootState_free (hk : 1 ≤ k) (hk' : k < 8 * (bytes + 1)) : k ∈ (bootState bytes).pmm.freeFrames :=
  ⟨by rw [bootState_frames]; exact hk', roomyPmm_bit hk hk'⟩

theorem bootState_served (hbytes : bytes < 2 ^ 20) : Served physical (bootState bytes) (BitVec.ofNat 64 sizeofGpt) := by
  have hnext : (bootState bytes).heap.next = 0xffff810000000000 := rfl
  refine area_served ?_ (by decide) ?_ ?_
  · rw [bootState_frames]
    omega
  · rw [hnext]
    decide
  · rw [hnext]
    decide

variable (bs disk) in
theorem bootState_header (hbytes : bytes < 2 ^ 20) (hroom : 1 + n₁ ≤ 8 * (bytes + 1))
    (hn : (pageCount bs (BitVec.ofNat 64 gptHdr.size) bs).toNat = n₁) :
    Granted (gptAlloc (bootState bytes)).2.pmm
      (pageCount (diskDrive bs disk).blockSize (BitVec.ofNat 64 gptHdr.size) (diskDrive bs disk).blockSize).toNat := by
  rw [area_pmm, diskDrive_blockSize, hn]
  refine granted_of_free (a := 1) (Nat.zero_le 1) ?_ fun k hk hk' => bootState_free hk (by omega)
  rw [bootState_frames]
  omega

structure HeaderRead (bytes n₁ : Nat) (s' : State Area) : Prop where
  walled : s'.pmm.Walled
  frames : s'.pmm.frames = 8 * (bytes + 1)
  free : ∀ k, 1 ≤ k → k < 8 * (bytes + 1) → k ∈ s'.pmm.freeFrames
  hint : s'.pmm.lastFree ≤ 1 + n₁
  next : s'.heap.next = 0xffff810000000220

variable (bs disk) in
theorem bootState_headerRead (hbytes : bytes < 2 ^ 20) (hroom : 1 + n₁ ≤ 8 * (bytes + 1))
    (hn : (pageCount bs (BitVec.ofNat 64 gptHdr.size) bs).toNat = n₁) :
    ∃ s', readHeader physical (diskDrive bs disk) (bootState bytes) = some ((gptAlloc (bootState bytes)).1, s') ∧
      HeaderRead bytes n₁ s' := by
  have hlimit : (bootState bytes).pmm.frames ≤ frameLimit := by
    rw [bootState_frames, frameLimit]
    omega
  obtain ⟨s', hs', -, hw, hframes, hfree, hhint⟩ := readHeader_spec (bootState_walled hbytes) hlimit
    (bootState_served hbytes) (bootState_header disk bs hbytes hroom hn)
  rw [area_pmm, diskDrive_blockSize, hn] at hhint
  refine ⟨s', hs', hw, hframes.trans bootState_frames, fun k hk hk' => ?_, ?_, ?_⟩
  · rw [hfree, area_pmm]
    exact bootState_free hk hk'
  · exact hhint 1 (Nat.zero_le 1) fun j hj => (bootState_free (by omega) (by omega)).2
  · rw [readHeader_heap hs']
    rfl

theorem HeaderRead.served {s' : State Area} {gpt : U64} (h : HeaderRead bytes n₁ s') (hbytes : bytes < 2 ^ 20) :
    Served physical s' (entriesSize (readHdr physical s'.mem gpt)) := by
  refine area_served ?_ ?_ ?_ ?_
  · rw [h.frames]
    omega
  · rw [entriesSize, BitVec.toNat_setWidth_of_le (by decide)]
    exact BitVec.isLt _
  · rw [h.next]
    decide
  · rw [h.next]
    decide

variable (disk) in
theorem HeaderRead.table {s' : State Area} (h : HeaderRead bytes n₁ s') (gpt : U64)
    (hroom : 1 + n₁ + n₂ < 8 * (bytes + 1)) (hn₂ : (tablePages bs).toNat = n₂) :
    Granted (entriesAlloc physical gpt s').2.pmm (tablePages (diskDrive bs disk).blockSize).toNat := by
  rw [area_pmm, diskDrive_blockSize, hn₂]
  refine granted_of_free h.hint ?_ fun k hk hk' => h.free k (by omega) (by omega)
  rw [h.frames]
  omega

theorem HeaderRead.tableBounce {s' : State Area} {gpt : U64} {t : Table Area} (h : HeaderRead bytes n₁ s')
    (hbytes : bytes < 2 ^ 20) (hroom : 1 + n₁ + 2 * n₂ < 8 * (bytes + 1)) (hn₂ : (tablePages bs).toNat = n₂)
    (ht : allocTable physical (diskDrive bs disk) gpt s' = some t) : Granted t.state.pmm n₂ := by
  obtain ⟨pmm, q, halloc, -, -, -, hframes, hfree, hhint⟩ := allocTable_spec h.walled (h.served hbytes)
    (h.table disk gpt (by omega) hn₂)
  obtain rfl := Option.some.inj (halloc.symm.trans ht)
  rw [area_pmm, diskDrive_blockSize, hn₂] at hfree hhint
  obtain ⟨hq, hlast⟩ := hhint _ h.hint fun j hj => (h.free _ (by omega) (by omega)).2
  refine granted_of_free (a := 1 + n₁ + n₂) ?_ ?_ fun k hk hk' => ?_
  · change pmm.lastFree ≤ _
    omega
  · change _ < pmm.frames
    rw [hframes, h.frames]
    omega
  · change k ∈ pmm.freeFrames
    rw [hfree]
    exact ⟨h.free k (by omega) (by omega), fun hmem => by have := hmem.2; omega⟩

theorem bootState_provided (hdisk : GptDisk physical (diskDrive bs disk) disk size) (hbytes : bytes < 2 ^ 20)
    (hroom : 1 + (bs.toNat + 0xfff) / 0x1000 + 2 * (tablePages bs).toNat < 8 * (bytes + 1)) :
    Provided physical (diskDrive bs disk) (bootState bytes) := by
  have hn₁ : (pageCount bs (BitVec.ofNat 64 gptHdr.size) bs).toNat = (bs.toNat + 0xfff) / 0x1000 := by
    obtain ⟨-, hpages, hbounce⟩ := hdisk.headerRequest
    exact hpages.trans hbounce
  obtain ⟨n₁, hn⟩ : ∃ n, n = (bs.toNat + 0xfff) / 0x1000 := ⟨_, rfl⟩
  obtain ⟨n₂, hn₂⟩ : ∃ n, (tablePages bs).toNat = n := ⟨_, rfl⟩
  rw [← hn] at hn₁ hroom
  rw [hn₂] at hroom
  have hlimit : (bootState bytes).pmm.frames ≤ frameLimit := by
    rw [bootState_frames, frameLimit]
    omega
  have hserved := bootState_served hbytes
  have hheader := bootState_header disk bs hbytes (by omega) hn₁
  obtain ⟨s', hs', h⟩ := bootState_headerRead disk bs hbytes (by omega) hn₁
  have hunique : ∀ s'', readHeader physical (diskDrive bs disk) (bootState bytes) =
      some ((gptAlloc (bootState bytes)).1, s'') → s'' = s' := fun s'' h =>
    (Prod.mk.inj (Option.some.inj (h.symm.trans hs'))).2
  refine ⟨hserved, hheader, fun s'' h' => hunique s'' h' ▸ h.served hbytes,
    fun s'' h' => hunique s'' h' ▸ h.table disk _ (by omega) hn₂, fun s'' t h' ht => ?_⟩
  obtain rfl := hunique s'' h'
  have hhdr : t.hdr = diskHdr disk bs.toNat := by
    obtain ⟨pmm, q, halloc, -⟩ := allocTable_spec h.walled (h.served hbytes)
      (h.table disk (gptAlloc (bootState bytes)).1 (by omega) hn₂)
    obtain rfl := Option.some.inj (halloc.symm.trans ht)
    exact readHdr_eq (header_delivered (bootState_walled hbytes) (physical_directMap hlimit) hdisk hserved hheader hs')
  obtain ⟨-, -, hpages, hbounce⟩ := hdisk.tableRequest (congrArg GptHdr.pentryStartLba hhdr)
  have hcount := hpages.trans hbounce
  rw [diskDrive_blockSize, hn₂] at hcount
  rw [diskDrive_blockSize, hcount]
  exact h.tableBounce hbytes hroom hn₂ ht

end Boot

-- ---------------------------------------------------------------------------
-- Disks
-- ---------------------------------------------------------------------------

def gptHeader (fields : List (BitVec 8)) : List (BitVec 8) :=
  signature ++ List.replicate 64 0 ++ [2, 0, 0, 0, 0, 0, 0, 0] ++ fields

def gptDisk (bs : Nat) (header : List (BitVec 8)) (a : Nat) : BitVec 8 :=
  if a < bs then 0 else if a = 2 * bs + 32 then 1 else header.getD (a - bs) 0

section Disks

variable {bs k : Nat} {header fields : List (BitVec 8)}

theorem gptDisk_header (hbs : 512 ≤ bs) (hk : k < 512) : gptDisk bs header (bs + k) = header.getD k 0 := by
  rw [gptDisk, if_neg (by omega), if_neg (by omega), Nat.add_sub_cancel_left]

theorem gptDisk_signature (hbs : 512 ≤ bs) (hk : k < 8) : gptDisk bs (gptHeader fields) (bs + k) = signature.getD k 0 := by
  rw [gptDisk_header hbs (by omega), gptHeader, List.append_assoc, List.append_assoc, List.getD_append _ _ _ _ hk]

theorem diskHdr_gptDisk (hbs : 512 ≤ bs) : diskHdr (gptDisk bs header) bs = diskHdr (fun a => header.getD a 0) 0 := by
  have hsame : ∀ f, gptHdr.offset f + 8 ≤ 512 → ∀ k, gptHdr.offset f ≤ k → k < gptHdr.offset f + 8 →
      gptDisk bs header (bs + k) = header.getD (0 + k) 0 := fun f hf k _ hk => by
    rw [Nat.zero_add]
    exact gptDisk_header hbs (by omega)
  unfold diskHdr
  congr 1
  · exact Mem.read64_congr (hsame .pentryStartLba (by decide))
  · exact Mem.readBytes_congr fun k hk hk' => hsame .pentryCount (by decide) k hk (by omega)
  · exact Mem.readBytes_congr fun k hk hk' => hsame .pentrySize (by decide) k hk (by omega)

theorem gptDisk_table (blockSize : U64) (hpower : ∃ k < 59, blockSize.toNat = 2 ^ k) (hbs : 512 ≤ blockSize.toNat)
    (hsize : 34 * blockSize.toNat < 2 ^ 64)
    (hstart : (diskHdr (fun a => (gptHeader fields).getD a 0) 0).pentryStartLba = 2) :
    GptDisk physical (diskDrive blockSize (gptDisk blockSize.toNat (gptHeader fields)))
      (gptDisk blockSize.toNat (gptHeader fields)) (34 * blockSize.toNat) where
  power := by
    obtain ⟨k, hk, hpow⟩ := hpower
    exact ⟨k, by omega, hpow⟩
  least := hbs
  reads := diskDrive_reads hsize
  blocks := Nat.dvd_mul_left _ _
  bytes := hsize
  header := Nat.mul_le_mul_right _ (by decide)
  signature := fun k hk => gptDisk_signature hbs hk
  table := by
    rw [diskDrive_blockSize, diskHdr_gptDisk hbs, hstart]
    exact Nat.le_refl _

end Disks

def tidyDisk : Nat → BitVec 8 := gptDisk 512 (gptHeader [1, 0, 0, 0, 0x80, 0, 0, 0])

theorem tidyDisk_hdr : diskHdr tidyDisk 512 = ⟨2, 1, 128⟩ :=
  (diskHdr_gptDisk (Nat.le_refl 512)).trans (by decide)

theorem tidyDisk_used : diskUsed tidyDisk 512 = [0] := by
  unfold diskUsed diskEntry
  rw [tidyDisk_hdr]
  decide +kernel

theorem tidyDisk_names : NamesEnd tidyDisk 512 := by
  rw [NamesEnd, tidyDisk_used, tidyDisk_hdr]
  unfold diskTable
  rw [tidyDisk_hdr]
  decide +kernel

theorem tidyDisk_table : GptDisk physical (diskDrive 512 tidyDisk) tidyDisk 0x4400 :=
  gptDisk_table 512 ⟨9, by decide, by decide⟩ (by decide) (by decide) (by decide)

theorem tidyDisk_provided : Provided physical (diskDrive 512 tidyDisk) (bootState 2) :=
  bootState_provided tidyDisk_table (by decide) (by decide)

def longDisk : Nat → BitVec 8 := gptDisk 512 (gptHeader [0, 1, 0, 0, 0x80, 0, 0, 0])

theorem longDisk_hdr : diskHdr longDisk 512 = ⟨2, 256, 128⟩ :=
  (diskHdr_gptDisk (Nat.le_refl 512)).trans (by decide)

theorem longDisk_table : GptDisk physical (diskDrive 512 longDisk) longDisk 0x4400 :=
  gptDisk_table 512 ⟨9, by decide, by decide⟩ (by decide) (by decide) (by decide)

def wideDisk : Nat → BitVec 8 := gptDisk 0x8000000 (gptHeader [2, 0, 0, 0, 0, 0, 0, 0x80])

theorem wideDisk_hdr : diskHdr wideDisk 0x8000000 = ⟨2, 2, 0x80000000⟩ :=
  (diskHdr_gptDisk (by decide)).trans (by decide)

theorem wideDisk_used : diskUsed wideDisk 0x8000000 = [0] := by
  unfold diskUsed diskEntry
  rw [wideDisk_hdr]
  decide +kernel

theorem wideDisk_names : NamesEnd wideDisk 0x8000000 := by
  rw [NamesEnd, wideDisk_used, wideDisk_hdr]
  unfold diskTable
  rw [wideDisk_hdr]
  decide +kernel

theorem wideDisk_table : GptDisk physical (diskDrive 0x8000000 wideDisk) wideDisk 0x110000000 :=
  gptDisk_table 0x8000000 ⟨27, by decide, by decide⟩ (by decide) (by decide) (by decide)

theorem bootState_directMap {bytes : Nat} (hbytes : bytes < 2 ^ 20) : DirectMap physical (bootState bytes).pmm := by
  refine physical_directMap ?_
  rw [bootState_frames, frameLimit]
  omega

-- ---------------------------------------------------------------------------
-- Accesses
-- ---------------------------------------------------------------------------

/-- The table's header and entries fit: the last entry ends inside the 32
blocks, those in use inside what the 32-bit product asks for, and their names
inside `buf`. -/
structure DiskFits (disk : Nat → BitVec 8) (bs : Nat) : Prop where
  table : (diskHdr disk bs).pentryCount = 0 ∨
    ((diskHdr disk bs).pentryCount.toNat - 1) * (diskHdr disk bs).pentrySize.toNat + gptEntry.size ≤ 32 * bs
  entries : gptEntry.size * (diskUsed disk bs).length ≤ (entriesSize (diskHdr disk bs)).toNat
  names : NamesEnd disk bs

theorem Opened.fits_iff {t₀ : Table η} {q : Nat} (h : Opened place drive s s' t₀ t q) (hw : s.pmm.Walled)
    (hmap : DirectMap place s.pmm) (hdisk : GptDisk place drive disk size) (hgiven : Provided place drive s) :
    t.Fits place drive.blockSize ↔ DiskFits disk drive.blockSize.toNat := by
  have hhdr := h.hdr_eq hw hmap hdisk hgiven
  have hlen := toNat_tableLen hdisk.wrap
  constructor
  · intro hfits
    have hslots := h.usedSlots_eq hw hmap hdisk hgiven fun i hi => hlen ▸ hfits.inside hi
    refine ⟨?_, ?_, (h.namesEnd_iff hw hmap hdisk hgiven hslots).mp hfits.names⟩
    · rw [← hhdr, ← hlen]
      exact hfits.table
    · rw [← hslots, ← hhdr, ← h.allocated_eq hgiven]
      exact hfits.entries
  · rintro ⟨htable, hentries, hnames⟩
    have htable : t.hdr.pentryCount = 0 ∨ (t.hdr.pentryCount.toNat - 1) * t.hdr.pentrySize.toNat + gptEntry.size ≤
        (tableLen drive.blockSize).toNat := by rwa [hhdr, hlen]
    have hin : ∀ i < t.hdr.pentryCount.toNat, i * t.hdr.pentrySize.toNat + 128 ≤ 32 * drive.blockSize.toNat :=
      fun i hi => hlen ▸ inside_of_last htable hi
    have hslots := h.usedSlots_eq hw hmap hdisk hgiven hin
    refine ⟨htable, ?_, (h.namesEnd_iff hw hmap hdisk hgiven hslots).mpr hnames⟩
    rw [hslots, h.allocated_eq hgiven, hhdr]
    exact hentries

/-- Whatever header and table the drive delivers: the accesses are safe if and
only if `pentry_count` and `pentry_size` fit the blocks, the entries in use what
`malloc` gave, and their names `buf`. On a disk that has the table these are its
own. -/
theorem partition_memorySafe_iff
    (hgiven : ∀ t, openTable place drive s = some t → t.Apart place drive.blockSize) :
    (MemorySafe place drive s ↔ ∀ t, openTable place drive s = some t → t.Fits place drive.blockSize) ∧
      ∀ disk size, GptDisk place drive disk size → s.pmm.Walled → DirectMap place s.pmm → Provided place drive s →
        (MemorySafe place drive s ↔ DiskFits disk drive.blockSize.toNat) := by
  refine ⟨partition_safe_iff hgiven, fun disk size hdisk hw hmap hprovided => (partition_safe_iff hgiven).trans ?_⟩
  obtain ⟨s', t₀, t, q, h⟩ := openTable_gptDisk hw hmap hdisk hprovided
  rw [← h.fits_iff hw hmap hdisk hprovided]
  exact ⟨fun hfits => hfits t h.opened, fun hfits t' ht' => Option.some.inj (h.opened.symm.trans ht') ▸ hfits⟩

theorem bootState_apart {bs : U64} {bytes : Nat} (hdisk : GptDisk physical (diskDrive bs disk) disk size)
    (hbytes : bytes < 2 ^ 20) (hgiven : Provided physical (diskDrive bs disk) (bootState bytes)) :
    ∀ t, openTable physical (diskDrive bs disk) (bootState bytes) = some t → t.Apart physical bs := by
  obtain ⟨s', t₀, t, q, h⟩ := openTable_gptDisk (bootState_walled hbytes) (bootState_directMap hbytes) hdisk hgiven
  intro t' ht'
  obtain rfl := Option.some.inj (h.opened.symm.trans ht')
  exact h.apart (bootState_directMap hbytes) hdisk hgiven

theorem partition_memorySafe_tidy : MemorySafe physical (diskDrive 512 tidyDisk) (bootState 2) := by
  obtain ⟨-, h⟩ := partition_memorySafe_iff (bootState_apart tidyDisk_table (by decide) tidyDisk_provided)
  refine (h tidyDisk 0x4400 tidyDisk_table (bootState_walled (by decide)) (bootState_directMap (by decide))
    tidyDisk_provided).mpr ⟨.inr ?_, ?_, tidyDisk_names⟩
  · change _ ≤ 32 * 512
    rw [diskDrive_blockSize, show (512 : U64).toNat = 512 from rfl, tidyDisk_hdr]
    decide
  · rw [diskDrive_blockSize, show (512 : U64).toNat = 512 from rfl, tidyDisk_hdr, tidyDisk_used]
    decide

/-- The 129th entry of the table is read behind the blocks. -/
theorem partition_not_memorySafe : ¬ MemorySafe physical (diskDrive 512 longDisk) (bootState 2) := by
  have hgiven := bootState_provided longDisk_table (by decide : 2 < 2 ^ 20) (by decide)
  have hw := bootState_walled (by decide : 2 < 2 ^ 20)
  have hmap := bootState_directMap (by decide : 2 < 2 ^ 20)
  obtain ⟨s', t₀, t, q, h⟩ := openTable_gptDisk hw hmap longDisk_table hgiven
  intro hsafe
  have hfits := (scan_safe_iff (h.apart hmap longDisk_table hgiven)).mp (hsafe t h.opened)
  have htable := ((h.fits_iff hw hmap longDisk_table hgiven).mp hfits).table
  rw [diskDrive_blockSize, show (512 : U64).toNat = 512 from rfl, longDisk_hdr] at htable
  exact absurd htable (by decide)

-- ---------------------------------------------------------------------------
-- Entries
-- ---------------------------------------------------------------------------

structure LoadedFrom (t : Table η) (c : Scan) (r : Loaded η) : Prop where
  hdr : r.gpt.hdr = t.hdr
  entriesCount : r.gpt.entriesCount = c.entriesCount
  entries : r.gpt.entries = t.entries
  mem : r.state.mem = c.mem

theorem partitionLoadDrive_gptDisk (hw : s.pmm.Walled) (hmap : DirectMap place s.pmm)
    (hdisk : GptDisk place drive disk size) (hgiven : Provided place drive s) :
    ∃ s' t₀ t q, Opened place drive s s' t₀ t q ∧ ∀ c, scan place drive.blockSize t = some c →
      ∃ r, partitionLoadDrive place drive s = some r ∧ LoadedFrom t c r := by
  obtain ⟨s', t₀, t, q, h⟩ := openTable_gptDisk hw hmap hdisk hgiven
  refine ⟨s', t₀, t, q, h, fun c hscan => ?_⟩
  have hlen := toNat_tableLen hdisk.wrap
  obtain ⟨hroom, hreleased⟩ := tablePages_room hdisk.power hdisk.wrap
  have hinside := h.inside
  have hlimit := hmap.frames
  have hleast := hdisk.least
  have hq : q < frameLimit := by omega
  obtain ⟨pmm, hrelease, -⟩ := pmmReleasePages_spec (a := q) (n := (releasedPages drive.blockSize).toNat) h.walled
    (by rw [h.frames]; omega)
  have hrelease : pmmReleasePages t.state.pmm (addrEnsureLower t.lba2).toNat (releasedPages drive.blockSize).toNat =
      some pmm := by rw [h.lba2, addrEnsureLower_framePtr hq, toNat_frame hq, hrelease]
  unfold partitionLoadDrive
  simp only [h.opened, hscan, Option.bind_eq_bind, Option.bind_some, hrelease]
  exact ⟨_, rfl, rfl, rfl, rfl, rfl⟩

omit [KernelHeap η] in
theorem LoadedExactly.used_le {r : Loaded η} {bs : Nat} (h : LoadedExactly place disk bs r) :
    gptEntry.size * (diskUsed disk bs).length ≤ (entriesSize r.gpt.hdr).toNat := by
  have hcount := congrArg List.length h.entries
  rw [List.length_map, List.length_map, List.length_range] at hcount
  rw [← hcount]
  exact h.room

theorem EntriesFit.last {hdr : GptHdr} {bs : Nat} (h : EntriesFit hdr bs) :
    hdr.pentryCount = 0 ∨ (hdr.pentryCount.toNat - 1) * hdr.pentrySize.toNat + gptEntry.size ≤ 32 * bs := by
  by_cases h0 : hdr.pentryCount.toNat = 0
  · exact .inl (BitVec.eq_of_toNat_eq h0)
  · exact .inr (h.inside (by omega))

theorem Opened.loadedExactly {t₀ : Table η} {q : Nat} {r : Loaded η} {c : Scan} (h : Opened place drive s s' t₀ t q)
    (hscan : Scanned place t drive.blockSize t.hdr.pentryCount.toNat c) (hr : LoadedFrom t c r) (hw : s.pmm.Walled)
    (hmap : DirectMap place s.pmm) (hdisk : GptDisk place drive disk size)
    (hsizes : EntriesFit (diskHdr disk drive.blockSize.toNat) drive.blockSize.toNat) (hgiven : Provided place drive s)
    (hle : gptEntry.size * (diskUsed disk drive.blockSize.toNat).length ≤ (entriesSize r.gpt.hdr).toNat) :
    LoadedExactly place disk drive.blockSize.toNat r := by
  have hhdr := h.hdr_eq hw hmap hdisk hgiven
  rw [← hhdr] at hsizes
  have hslots := h.usedSlots_eq hw hmap hdisk hgiven fun i hi => hsizes.inside hi
  have hcount : r.gpt.entriesCount.toNat = (diskUsed disk drive.blockSize.toNat).length := by
    have hbound : (t.usedSlots place t.hdr.pentryCount.toNat).length ≤ t.hdr.pentryCount.toNat := usedSlots_length_le
    have := t.hdr.pentryCount.isLt
    rw [hr.entriesCount, hscan.entriesCount, BitVec.toNat_ofNat, ← hslots]
    omega
  refine ⟨by rw [hcount]; exact hle, List.ext_getElem (by simp [hcount]) fun j hj _ => ?_⟩
  have hj : j < (diskUsed disk drive.blockSize.toNat).length := by simpa [hcount] using hj
  rw [List.getElem_map, List.getElem_map, List.getElem_range]
  obtain ⟨i, hi⟩ : ∃ i, i = (diskUsed disk drive.blockSize.toNat)[j] := ⟨_, rfl⟩
  have hmem : (t.usedSlots place t.hdr.pentryCount.toNat)[j]? = some i := by
    rw [hslots, hi, List.getElem?_eq_getElem hj]
  have hlt : i < t.hdr.pentryCount.toNat := List.mem_range.mp (List.mem_of_mem_filter (List.mem_of_getElem? hmem))
  rw [← hi]
  refine List.map_congr_left fun b hb => ?_
  have hb : b < 128 := List.mem_range.mp hb
  rw [view, hr.entries, hr.mem, BitVec.add_assoc, ← BitVec.ofNat_add]
  exact (hscan.entries j i hmem b hb).trans (h.entry_eq hw hmap hdisk hgiven hlt (hsizes.inside hlt) hb)

/-- The function returns with exactly the entries in use if and only if they fit
the product that went to `malloc`, which is a 32-bit one, and their names
`buf`. -/
theorem partition_exact_iff (hw : s.pmm.Walled) (hmap : DirectMap place s.pmm) (hdisk : GptDisk place drive disk size)
    (hsizes : EntriesFit (diskHdr disk drive.blockSize.toNat) drive.blockSize.toNat) (hgiven : Provided place drive s) :
    (∃ r, partitionLoadDrive place drive s = some r ∧ LoadedExactly place disk drive.blockSize.toNat r) ↔
      NamesEnd disk drive.blockSize.toNat ∧ gptEntry.size * (diskUsed disk drive.blockSize.toNat).length ≤
        (entriesSize (diskHdr disk drive.blockSize.toNat)).toNat := by
  obtain ⟨s', t₀, t, q, h, hreturns⟩ := partitionLoadDrive_gptDisk hw hmap hdisk hgiven
  have hhdr := h.hdr_eq hw hmap hdisk hgiven
  have hlen := toNat_tableLen hdisk.wrap
  have hin : ∀ i < t.hdr.pentryCount.toNat, i * t.hdr.pentrySize.toNat + 128 ≤ 32 * drive.blockSize.toNat :=
    fun i hi => EntriesFit.inside (hhdr ▸ hsizes) hi
  have hslots := h.usedSlots_eq hw hmap hdisk hgiven hin
  have hcount := Nat.le_of_lt t.hdr.pentryCount.isLt
  constructor
  · rintro ⟨r, hload, hexact⟩
    obtain ⟨t', hopen, hscan, -⟩ := partitionLoadDrive_some hload
    obtain rfl : t' = t := Option.some.inj (hopen.symm.trans h.opened)
    obtain ⟨r', hload', hr⟩ := hreturns _ hscan
    obtain rfl := Option.some.inj (hload'.symm.trans hload)
    have hle := hexact.used_le
    rw [hr.hdr] at hle
    refine ⟨?_, hhdr ▸ hle⟩
    rw [← h.namesEnd_iff hw hmap hdisk hgiven hslots]
    refine scanTo_names (h.apart hmap hdisk hgiven) hcount (fun i hi => hlen ▸ hin i hi) ?_ hscan
    rwa [hslots, h.allocated_eq hgiven]
  · rintro ⟨hnames, hle⟩
    have hfits := (h.fits_iff hw hmap hdisk hgiven).mpr ⟨hsizes.last, hle, hnames⟩
    obtain ⟨c, hscan, hscanned⟩ := hfits.scanned (h.apart hmap hdisk hgiven)
    obtain ⟨r, hload, hr⟩ := hreturns c hscan
    refine ⟨r, hload, h.loadedExactly hscanned hr hw hmap hdisk hsizes hgiven ?_⟩
    rwa [hr.hdr, hhdr]

theorem partition_exact_tidy : ∃ r, partitionLoadDrive physical (diskDrive 512 tidyDisk) (bootState 2) = some r ∧
    LoadedExactly physical tidyDisk 512 r := by
  have hhdr : diskHdr tidyDisk (diskDrive 512 tidyDisk).blockSize.toNat = ⟨2, 1, 128⟩ := tidyDisk_hdr
  have hused : diskUsed tidyDisk (diskDrive 512 tidyDisk).blockSize.toNat = [0] := tidyDisk_used
  refine (partition_exact_iff (bootState_walled (by decide)) (bootState_directMap (by decide))
    tidyDisk_table (by rw [hhdr]; exact ⟨by decide, by decide⟩) tidyDisk_provided).mpr ⟨tidyDisk_names, ?_⟩
  rw [hhdr, hused]
  decide

/-- The product is 0, and `malloc` gives no memory for the entry in use. -/
theorem partition_not_exact : EntriesFit (diskHdr wideDisk 0x8000000) 0x8000000 ∧ NamesEnd wideDisk 0x8000000 ∧
    ¬ ∃ r, partitionLoadDrive physical (diskDrive 0x8000000 wideDisk) (bootState 0x7ffff) = some r ∧
      LoadedExactly physical wideDisk 0x8000000 r := by
  have hhdr : diskHdr wideDisk (diskDrive 0x8000000 wideDisk).blockSize.toNat = ⟨2, 2, 0x80000000⟩ := wideDisk_hdr
  have hfits : EntriesFit (diskHdr wideDisk 0x8000000) 0x8000000 := by
    rw [wideDisk_hdr]
    exact ⟨by decide, by decide⟩
  have hgiven := bootState_provided wideDisk_table (by decide : 0x7ffff < 2 ^ 20) (by decide)
  have hw := bootState_walled (by decide : 0x7ffff < 2 ^ 20)
  have hmap := bootState_directMap (by decide : 0x7ffff < 2 ^ 20)
  refine ⟨hfits, wideDisk_names, ?_⟩
  rintro ⟨r, hload, hexact⟩
  obtain ⟨s', t₀, t, q, h, hreturns⟩ := partitionLoadDrive_gptDisk hw hmap wideDisk_table hgiven
  obtain ⟨t', hopen, hscan, -⟩ := partitionLoadDrive_some hload
  obtain rfl : t' = t := Option.some.inj (hopen.symm.trans h.opened)
  obtain ⟨r', hload', hr⟩ := hreturns _ hscan
  obtain rfl := Option.some.inj (hload'.symm.trans hload)
  have hroom : gptEntry.size * (diskUsed wideDisk 0x8000000).length ≤ (entriesSize r'.gpt.hdr).toNat := hexact.used_le
  rw [hr.hdr, h.hdr_eq hw hmap wideDisk_table hgiven, hhdr, wideDisk_used] at hroom
  exact absurd hroom (by decide)

-- ---------------------------------------------------------------------------
-- Frames that stay locked
-- ---------------------------------------------------------------------------

theorem Opened.released {t₀ : Table η} {q : Nat} {r : Loaded η} (h : Opened place drive s s' t₀ t q)
    (hlimit : s.pmm.frames ≤ frameLimit)
    (hrelease : pmmReleasePages t.state.pmm (addrEnsureLower t.lba2).toNat (releasedPages drive.blockSize).toNat =
      some r.state.pmm)
    (hn : (tablePages drive.blockSize).toNat ≠ 0)
    (hle : (releasedPages drive.blockSize).toNat ≤ (tablePages drive.blockSize).toNat) (k : Nat) :
    r.state.pmm.bit k =
      (!decide (q ≤ k ∧ k < q + (releasedPages drive.blockSize).toNat) && t.state.pmm.bit k) := by
  have hinside := h.inside
  have hq : q < frameLimit := by omega
  obtain ⟨pmm, hspec, -, -, -, hbits⟩ := pmmReleasePages_spec (a := q) (n := (releasedPages drive.blockSize).toNat)
    h.walled (by rw [h.frames]; omega)
  rw [h.lba2, addrEnsureLower_framePtr hq, toNat_frame hq, hspec] at hrelease
  obtain rfl := Option.some.inj hrelease
  exact hbits k

theorem Opened.leaks {t₀ : Table η} {q : Nat} {r : Loaded η} (h : Opened place drive s s' t₀ t q)
    (hw : s.pmm.Walled) (hlimit : s.pmm.frames ≤ frameLimit) (hgiven : Provided place drive s)
    (hrelease : pmmReleasePages t.state.pmm (addrEnsureLower t.lba2).toNat (releasedPages drive.blockSize).toNat =
      some r.state.pmm)
    (hlt : (releasedPages drive.blockSize).toNat < (tablePages drive.blockSize).toNat) : ¬ NoLeak place drive s r := by
  intro hno
  have hreleased := h.released hlimit hrelease (by omega) (Nat.le_of_lt hlt)
  obtain ⟨n, hn⟩ : ∃ n, n = (tablePages drive.blockSize).toNat := ⟨_, rfl⟩
  obtain ⟨rel, hrel⟩ : ∃ rel, rel = (releasedPages drive.blockSize).toNat := ⟨_, rfl⟩
  have hinside := h.inside
  have hfresh := h.fresh
  have hfree := h.free.trans h.allocFree
  rw [← hn] at hinside hfresh hfree hlt
  rw [← hrel] at hreleased hlt
  -- No frame is free behind `malloc` that was not free before it.
  have hsub : (entriesAlloc place (gptAlloc s).1 s').2.pmm.freeFrames ⊆ s'.pmm.freeFrames :=
    ((hgiven.entries s' h.header).frames h.headerWalled).2.2
  rw [h.headerFree] at hsub
  have hk : q + rel ∈ (entriesAlloc place (gptAlloc s).1 s').2.pmm.freeFrames := hfresh _ (by omega) (by omega)
  have hlocked : q + rel ∉ r.state.pmm.freeFrames := fun hmem => by
    have hbit := hmem.2
    rw [hreleased, decide_eq_false (by omega), Bool.not_false, Bool.true_and] at hbit
    have hfreed : q + rel ∈ t.state.pmm.freeFrames := ⟨by rw [h.frames]; omega, hbit⟩
    rw [hfree] at hfreed
    exact hfreed.2 ⟨by omega, by omega⟩
  rcases hno _ (by omega) hlocked with hbefore | ⟨-, hheap⟩ | ⟨s'', hheader, -, hheap⟩
  · exact hbefore ((hgiven.gpt.frames hw).2.2 (hsub hk))
  · exact hheap (hsub hk)
  · obtain rfl := (Prod.mk.inj (Option.some.inj (hheader.symm.trans h.header))).2
    exact hheap hk

theorem Opened.noLeak {t₀ : Table η} {q : Nat} {r : Loaded η} (h : Opened place drive s s' t₀ t q)
    (hlimit : s.pmm.frames ≤ frameLimit)
    (hrelease : pmmReleasePages t.state.pmm (addrEnsureLower t.lba2).toNat (releasedPages drive.blockSize).toNat =
      some r.state.pmm)
    (heq : (releasedPages drive.blockSize).toNat = (tablePages drive.blockSize).toNat) : NoLeak place drive s r := by
  intro k hk hlocked
  obtain ⟨hkframes, hkeeps⟩ := pmmReleasePages_keeps hrelease
  rw [h.frames] at hkframes
  have hfree := h.free.trans h.allocFree
  have hbit : r.state.pmm.bit k = true := Bool.eq_true_of_not_eq_false fun e => hlocked ⟨hkframes ▸ hk, e⟩
  have hnotFree : k ∉ t.state.pmm.freeFrames := fun hmem => by
    have := hmem.2
    rw [hkeeps k hbit] at this
    cases this
  have hnotBlocks : ¬(q ≤ k ∧ k < q + (tablePages drive.blockSize).toNat) := by
    rintro ⟨hqk, hkq⟩
    have hclear := h.released hlimit hrelease (by omega) heq.le k
    rw [hbit, decide_eq_true ⟨hqk, heq.symm ▸ hkq⟩] at hclear
    cases hclear
  have hnotAlloc : k ∉ (entriesAlloc place (gptAlloc s).1 s').2.pmm.freeFrames := fun hmem =>
    hnotFree (hfree ▸ ⟨hmem, hnotBlocks⟩)
  by_cases hheader : k ∈ s'.pmm.freeFrames
  · exact .inr (.inr ⟨s', h.header, hheader, hnotAlloc⟩)
  · rw [h.headerFree] at hheader
    by_cases hbefore : k ∈ s.pmm.freeFrames
    · exact .inr (.inl ⟨hbefore, hheader⟩)
    · exact .inl hbefore

theorem tidyDisk_loads : ∃ r, partitionLoadDrive physical (diskDrive 512 tidyDisk) (bootState 2) = some r := by
  have hw := bootState_walled (by decide : 2 < 2 ^ 20)
  have hmap := bootState_directMap (by decide : 2 < 2 ^ 20)
  obtain ⟨s', t₀, t, q, h, hreturns⟩ := partitionLoadDrive_gptDisk hw hmap tidyDisk_table tidyDisk_provided
  have hhdr : diskHdr tidyDisk (diskDrive 512 tidyDisk).blockSize.toNat = ⟨2, 1, 128⟩ := tidyDisk_hdr
  have hused : diskUsed tidyDisk (diskDrive 512 tidyDisk).blockSize.toNat = [0] := tidyDisk_used
  have hfits : t.Fits physical (diskDrive 512 tidyDisk).blockSize :=
    (h.fits_iff hw hmap tidyDisk_table tidyDisk_provided).mpr
      ⟨.inr (by rw [hhdr]; decide), by rw [hhdr, hused]; decide, tidyDisk_names⟩
  obtain ⟨c, hscan, -⟩ := hfits.scanned (h.apart hmap tidyDisk_table tidyDisk_provided)
  obtain ⟨r, hload, -⟩ := hreturns c hscan
  exact ⟨r, hload⟩

end ShedOS.Vfs
