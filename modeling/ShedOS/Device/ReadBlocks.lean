import ShedOS.Device.Nvme
import ShedOS.Memory.AddrUtil

/-!
# Reading blocks

`read_blocks` cuts a request into commands of at most 16 blocks, and
`read_blocks_nvme` builds each of them. This module says for which requests
the commands transfer exactly what was asked for, and for which the data
pointer of a command describes the whole transfer.
-/

namespace ShedOS.Device.Nvme

open Memory

structure ReadCall where
  buf : U64
  blockCount : U64
  blockOffset : U64
  deriving DecidableEq, Repr

def maxBlocks : U64 := 16

def transferCount (blockCount : U64) : U64 := (blockCount + (maxBlocks - 1)) / maxBlocks

def readBlocks (buf blockCount blockOffset blockSize : U64) : List ReadCall :=
  (List.range (transferCount blockCount).toNat).map fun ct =>
    { buf := buf + BitVec.ofNat 64 ct * maxBlocks * blockSize
      blockCount := if blockCount < maxBlocks then blockCount else maxBlocks
      blockOffset := blockOffset + BitVec.ofNat 64 ct * maxBlocks }

/-- The command of `read_blocks_nvme`; fields the initialiser leaves out are 0. -/
def readBlocksNvme (nsid : BitVec 32) (call : ReadCall) : SqEntry :=
  { cdw0 := 0x2
    nsid
    mptr := 0
    prp1 := addrEnsureLower call.buf
    prp2 := 0
    cdw10 := (call.blockOffset &&& 0xffffffff).truncate 32
    cdw11 := ((call.blockOffset >>> 32) &&& 0xffffffff).truncate 32
    cdw12 := (call.blockCount - 1).truncate 32
    cdw13 := 0
    cdw14 := 0
    cdw15 := 0 }

variable {buf blockCount blockOffset blockSize : U64} {call : ReadCall} {nsid : BitVec 32} {m w : Nat}

-- ---------------------------------------------------------------------------
-- Which blocks go where
-- ---------------------------------------------------------------------------

/-- The blocks a call transfers, each with the address it goes to. -/
def ReadCall.transfers (blockSize : U64) (call : ReadCall) : List (U64 × U64) :=
  (List.range call.blockCount.toNat).map fun i =>
    (call.blockOffset + BitVec.ofNat 64 i, call.buf + BitVec.ofNat 64 i * blockSize)

def requested (buf blockCount blockOffset blockSize : U64) : List (U64 × U64) :=
  (List.range blockCount.toNat).map fun k =>
    (blockOffset + BitVec.ofNat 64 k, buf + BitVec.ofNat 64 k * blockSize)

def transferred (buf blockCount blockOffset blockSize : U64) : List (U64 × U64) :=
  (readBlocks buf blockCount blockOffset blockSize).flatMap (·.transfers blockSize)

/-- Every block of the request once, to its place, no other block, and no byte
outside the buffer. -/
structure ExactCover (buf blockCount blockOffset blockSize : U64) : Prop where
  once : (transferred buf blockCount blockOffset blockSize).Perm
    (requested buf blockCount blockOffset blockSize)
  inside : ∀ t ∈ transferred buf blockCount blockOffset blockSize, ∀ j, j < blockSize.toNat →
    ∃ i, i < blockCount.toNat * blockSize.toNat ∧ t.2 + BitVec.ofNat 64 j = buf + BitVec.ofNat 64 i

theorem requested_inside {t : U64 × U64} (ht : t ∈ requested buf blockCount blockOffset blockSize)
    {j : Nat} (hj : j < blockSize.toNat) :
    ∃ i, i < blockCount.toNat * blockSize.toNat ∧ t.2 + BitVec.ofNat 64 j = buf + BitVec.ofNat 64 i := by
  obtain ⟨k, hk, rfl⟩ := List.mem_map.mp ht
  rw [List.mem_range] at hk
  refine ⟨k * blockSize.toNat + j, ?_, ?_⟩
  · have hle : (k + 1) * blockSize.toNat ≤ blockCount.toNat * blockSize.toNat :=
      Nat.mul_le_mul_right _ hk
    rw [Nat.succ_mul] at hle
    omega
  · rw [BitVec.ofNat_add, BitVec.ofNat_mul, BitVec.ofNat_toNat, BitVec.setWidth_eq, BitVec.add_assoc]

theorem map_range_mul {α : Type} (f : Nat → α) (m w : Nat) :
    (List.range (m * w)).map f =
      (List.range m).flatMap fun ct => (List.range w).map fun i => f (ct * w + i) := by
  induction m with
  | zero => simp
  | succ m ih =>
    rw [Nat.succ_mul, List.range_add, List.map_append, ih, List.range_succ, List.flatMap_append]
    simp

theorem transferred_of_chunks (hcount : (transferCount blockCount).toNat = m)
    (hw : (if blockCount < maxBlocks then blockCount else maxBlocks).toNat = w)
    (hall : m * w = blockCount.toNat) (hstride : m = 1 ∨ w = 16) :
    transferred buf blockCount blockOffset blockSize =
      requested buf blockCount blockOffset blockSize := by
  rw [requested, ← hall, map_range_mul, transferred, readBlocks, hcount, List.flatMap_map]
  refine List.flatMap_congr fun ct hct => ?_
  rw [List.mem_range] at hct
  have hplace : BitVec.ofNat 64 ct * maxBlocks = BitVec.ofNat 64 (ct * w) := by
    rcases hstride with rfl | rfl
    · obtain rfl : ct = 0 := by omega
      simp
    · rw [BitVec.ofNat_mul]
      rfl
  simp only [ReadCall.transfers, hw, hplace]
  refine List.map_congr_left fun i _ => ?_
  rw [BitVec.ofNat_add, BitVec.add_mul, BitVec.add_assoc, BitVec.add_assoc]

theorem transferred_length :
    (transferred buf blockCount blockOffset blockSize).length =
      (transferCount blockCount).toNat *
        (if blockCount < maxBlocks then blockCount else maxBlocks).toNat := by
  simp [transferred, readBlocks, ReadCall.transfers, List.length_flatMap, Function.comp_def]

theorem toNat_transferCount (hlt : blockCount.toNat + 15 < 2 ^ 64) :
    (transferCount blockCount).toNat = (blockCount.toNat + 15) / 16 := by
  have hsum : (blockCount + (maxBlocks - 1)).toNat = blockCount.toNat + 15 := by
    rw [BitVec.toNat_add, show (maxBlocks - 1).toNat = 15 from rfl, Nat.mod_eq_of_lt hlt]
  rw [transferCount, BitVec.toNat_udiv, hsum]
  rfl

theorem toNat_chunk :
    (if blockCount < maxBlocks then blockCount else maxBlocks).toNat = min blockCount.toNat 16 := by
  have hiff : blockCount < maxBlocks ↔ blockCount.toNat < 16 := BitVec.lt_def
  by_cases h : blockCount < maxBlocks
  · rw [if_pos h]
    have := hiff.mp h
    omega
  · rw [if_neg h]
    have := mt hiff.mpr h
    show 16 = _
    omega

/-- A request is covered exactly if it fits into one command or is a whole
number of full ones: every command but a lone one asks for 16 blocks. -/
theorem exact_cover_iff (hcount : 1 ≤ blockCount.toNat) :
    ExactCover buf blockCount blockOffset blockSize ↔
      blockCount.toNat ≤ 16 ∨ 16 ∣ blockCount.toNat := by
  have hlt := blockCount.isLt
  constructor
  · intro h
    by_contra hbad
    have hlen := h.once.length_eq
    rw [transferred_length, toNat_chunk, requested, List.length_map, List.length_range] at hlen
    have hmin : min blockCount.toNat 16 = 16 := by omega
    rw [hmin] at hlen
    exact hbad (.inr ⟨_, (hlen.symm.trans (Nat.mul_comm _ _))⟩)
  · intro h
    have hcover : transferred buf blockCount blockOffset blockSize =
        requested buf blockCount blockOffset blockSize := by
      rcases h with h | ⟨m, hm⟩
      · have hone : (transferCount blockCount).toNat = 1 := by
          rw [toNat_transferCount (by omega)]
          omega
        exact transferred_of_chunks hone toNat_chunk (by omega) (.inl rfl)
      · have hm' : (transferCount blockCount).toNat = m := by
          rw [toNat_transferCount (by omega)]
          omega
        have hmin : min blockCount.toNat 16 = 16 := by omega
        refine transferred_of_chunks hm' toNat_chunk ?_ (.inr hmin)
        rw [hmin, hm, Nat.mul_comm]
    refine ⟨hcover ▸ .refl _, fun t ht j hj => ?_⟩
    exact requested_inside (hcover ▸ ht) hj

theorem exact_cover_seventeen : ¬ ExactCover 0xffff800000100000 17 0 512 := by
  intro h
  have hlen := h.once.length_eq
  revert hlen
  decide

theorem exact_cover_iff_thirty_two :
    ExactCover 0xffff800000100000 32 0 512 ↔ (32#64).toNat ≤ 16 ∨ 16 ∣ (32#64).toNat :=
  exact_cover_iff (by decide)

-- ---------------------------------------------------------------------------
-- The data pointer
-- ---------------------------------------------------------------------------

def transferBytes (blockSize : U64) (c : SqEntry) : Nat :=
  (c.cdw12.toNat % 0x10000 + 1) * blockSize.toNat

/-- Where the controller puts byte `i` of `len`: PRP1 serves the rest of its
page; a second and last page is PRP2; for more pages PRP2 points to their list
in physical memory, which `mem` reads. -/
def prpAddress (mem : U64 → U64) (c : SqEntry) (len i : Nat) : U64 :=
  let offset := c.prp1.toNat % 0x1000
  let pages := (offset + len + 0xfff) / 0x1000
  let page := (offset + i) / 0x1000
  let inPage := BitVec.ofNat 64 ((offset + i) % 0x1000)
  if page = 0 then c.prp1 + BitVec.ofNat 64 i
  else if pages = 2 then c.prp2 + inPage
  else mem (c.prp2 + BitVec.ofNat 64 (8 * (page - 1))) + inPage

/-- Every command asks for the bytes of its blocks, and each of them goes to its
place in the buffer, whatever the memory holds. -/
def DescribesBuffer (nsid : BitVec 32) (buf blockCount blockOffset blockSize : U64) : Prop :=
  ∀ call ∈ readBlocks buf blockCount blockOffset blockSize,
    transferBytes blockSize (readBlocksNvme nsid call) = call.blockCount.toNat * blockSize.toNat ∧
    ∀ mem i, i < call.blockCount.toNat * blockSize.toNat →
      prpAddress mem (readBlocksNvme nsid call) (transferBytes blockSize (readBlocksNvme nsid call)) i =
        addrEnsureLower call.buf + BitVec.ofNat 64 i

def OnePageChunks (blockCount blockSize : U64) : Prop :=
  ∀ ct, ct < (transferCount blockCount).toNat →
    ct * 16 * blockSize.toNat % 0x1000 + min blockCount.toNat 16 * blockSize.toNat ≤ 0x1000

theorem mem_readBlocks (h : call ∈ readBlocks buf blockCount blockOffset blockSize) :
    ∃ ct, ct < (transferCount blockCount).toNat ∧
      call.buf = buf + BitVec.ofNat 64 ct * maxBlocks * blockSize ∧
      call.blockCount.toNat = min blockCount.toNat 16 := by
  obtain ⟨ct, hct, rfl⟩ := List.mem_map.mp h
  exact ⟨ct, List.mem_range.mp hct, rfl, toNat_chunk⟩

theorem one_le_of_transferCount {ct : Nat} (h : ct < (transferCount blockCount).toNat) :
    1 ≤ blockCount.toNat := by
  by_contra h0
  have hzero : blockCount = 0#64 := BitVec.eq_of_toNat_eq (by simpa using h0)
  rw [hzero, show (transferCount 0#64).toNat = 0 from rfl] at h
  exact Nat.not_lt_zero _ h

theorem exists_readBlocks {ct : Nat} (h : ct < (transferCount blockCount).toNat) :
    ∃ call ∈ readBlocks buf blockCount blockOffset blockSize,
      call.buf = buf + BitVec.ofNat 64 ct * maxBlocks * blockSize ∧
      call.blockCount.toNat = min blockCount.toNat 16 :=
  ⟨_, List.mem_map.mpr ⟨ct, List.mem_range.mpr h, rfl⟩, rfl, toNat_chunk⟩

theorem chunk_offset (hbuf : buf.toNat % 0x1000 = 0) (ct : Nat) :
    (addrEnsureLower (buf + BitVec.ofNat 64 ct * maxBlocks * blockSize)).toNat % 0x1000 =
      ct * 16 * blockSize.toNat % 0x1000 := by
  have hword : (buf + BitVec.ofNat 64 ct * maxBlocks * blockSize).toNat =
      (buf.toNat + ct * 16 * blockSize.toNat) % 2 ^ 64 := by
    rw [BitVec.toNat_add, BitVec.toNat_mul, BitVec.toNat_mul, BitVec.toNat_ofNat,
      show maxBlocks.toNat = 16 from rfl]
    simp only [Nat.mod_mul_mod, Nat.add_mod_mod]
  rw [toNat_addrEnsureLower, hword]
  omega

theorem prpAddress_first {mem : U64 → U64} {c : SqEntry} {len i : Nat}
    (h : c.prp1.toNat % 0x1000 + i < 0x1000) :
    prpAddress mem c len i = c.prp1 + BitVec.ofNat 64 i := by
  have hpage : (c.prp1.toNat % 0x1000 + i) / 0x1000 = 0 := by omega
  simp only [prpAddress, hpage, if_true]

theorem prpAddress_second {len i : Nat} (h : (readBlocksNvme nsid call).prp1.toNat % 0x1000 + i = 0x1000) :
    prpAddress (fun _ => 0) (readBlocksNvme nsid call) len i = 0#64 := by
  simp only [prpAddress, h, show (0x1000 : Nat) / 0x1000 = 1 from rfl, one_ne_zero, if_false]
  split <;> rfl

theorem transferBytes_readBlocksNvme (h : 1 ≤ call.blockCount.toNat) (h' : call.blockCount.toNat ≤ 16) :
    transferBytes blockSize (readBlocksNvme nsid call) = call.blockCount.toNat * blockSize.toNat := by
  have hone : (1#64).toNat ≤ call.blockCount.toNat := h
  have hsub : (call.blockCount - 1).toNat = call.blockCount.toNat - 1 :=
    BitVec.toNat_sub_of_le (BitVec.le_def.mpr hone)
  have hcdw : (readBlocksNvme nsid call).cdw12.toNat = call.blockCount.toNat - 1 := by
    show ((call.blockCount - 1).truncate 32).toNat = _
    rw [BitVec.truncate_eq_setWidth, BitVec.toNat_setWidth, hsub]
    omega
  rw [transferBytes, hcdw]
  congr 1
  omega

/-- The data pointer describes every transfer exactly if no chunk leaves its
page: PRP2 is never set. -/
theorem describes_buffer_iff (hbuf : buf.toNat % 0x1000 = 0) :
    DescribesBuffer nsid buf blockCount blockOffset blockSize ↔
      OnePageChunks blockCount blockSize := by
  constructor
  · intro h ct hct
    by_contra hlong
    obtain ⟨call, hcall, hplace, hlen⟩ : ∃ call ∈ readBlocks buf blockCount blockOffset blockSize,
        call.buf = buf + BitVec.ofNat 64 ct * maxBlocks * blockSize ∧
          call.blockCount.toNat = min blockCount.toNat 16 := exists_readBlocks hct
    have hoff : (addrEnsureLower call.buf).toNat % 0x1000 = ct * 16 * blockSize.toNat % 0x1000 := by
      rw [hplace, chunk_offset hbuf]
    -- the first byte of the second page
    obtain ⟨i, hi⟩ : ∃ i, (addrEnsureLower call.buf).toNat % 0x1000 + i = 0x1000 :=
      ⟨0x1000 - (addrEnsureLower call.buf).toNat % 0x1000, by omega⟩
    have hin : i < call.blockCount.toNat * blockSize.toNat := by
      rw [hlen]
      omega
    have hbyte := (h call hcall).2 (fun _ => 0) i hin
    rw [prpAddress_second hi] at hbyte
    have hnat := congrArg BitVec.toNat hbyte
    have hlow : (addrEnsureLower call.buf).toNat < 2 ^ 47 := by
      rw [toNat_addrEnsureLower]
      exact Nat.mod_lt _ (by decide)
    rw [BitVec.toNat_add, BitVec.toNat_ofNat i] at hnat
    have hzero : (0#64).toNat = 0 := rfl
    omega
  · intro h call hcall
    obtain ⟨ct, hct, hplace, hlen⟩ := mem_readBlocks hcall
    have hone : 1 ≤ call.blockCount.toNat := by
      rw [hlen]
      exact Nat.le_min.mpr ⟨one_le_of_transferCount hct, by decide⟩
    refine ⟨transferBytes_readBlocksNvme hone (hlen ▸ Nat.min_le_right _ _), fun mem i hi => ?_⟩
    have hoff : (addrEnsureLower call.buf).toNat % 0x1000 = ct * 16 * blockSize.toNat % 0x1000 := by
      rw [hplace, chunk_offset hbuf]
    have hpage := h ct hct
    refine prpAddress_first ?_
    show (addrEnsureLower call.buf).toNat % 0x1000 + i < 0x1000
    rw [hlen] at hi
    omega

theorem describes_buffer_two_pages : ¬ DescribesBuffer 1 0xffff800000100000 16 0 512 := by
  intro h
  have hbyte := (h ⟨0xffff800000100000, 16, 0⟩ (by decide)).2 (fun _ => 0) 0x1000 (by decide)
  revert hbyte
  decide

theorem describes_buffer_iff_one_block :
    DescribesBuffer 1 0xffff800000100000 1 0 512 ↔ OnePageChunks 1 512 :=
  describes_buffer_iff (by decide)

end ShedOS.Device.Nvme
