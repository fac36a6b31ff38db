import ShedOS.Libk.MemUtil
import ShedOS.Memory.AddrUtil
import ShedOS.Memory.PmmRuns

/-!
# Drives

`drive_read`: whole blocks go to a bounce buffer of fresh frames, the requested
bytes from there to the caller's buffer. `place` is the translation of kernel
pointers to physical memory.
-/

namespace ShedOS.Device

open Bytes Libk Memory
open Relation (ReflTransGen)

/-- `struct drive`; `read_blocks` works on memory. -/
structure Drive where
  blockSize : U64
  readBlocks : Mem → (buf blockCount blockOffset : U64) → Mem

variable {place : U64 → Nat} {drive : Drive} {m m' : Mem} {s s' : Pmm} {buf len offset : U64}

section Sizes

variable (bs len offset : U64)

def lbaStart : U64 := offset / bs
def lbaStartOffset : U64 := offset &&& (bs - 1)
def lbaEnd : U64 := (offset + (len - 1)) / bs
def blockCount : U64 := lbaEnd bs len offset - lbaStart bs offset + 1
def pageCount : U64 := (blockCount bs len offset * bs + 0xfff) / 0x1000

end Sizes

/-- `none` is an access outside the frame bitmap. -/
def driveRead (place : U64 → Nat) (m : Mem) (s : Pmm) (buf len offset : U64) (drive : Drive) :
    Option (Mem × Pmm) := do
  let bs := drive.blockSize
  let pages := (pageCount bs len offset).toNat
  let (p, s) ← pmmRequestPages s pages
  let bufBlocks := addrOffsetHigher (BitVec.ofNat 64 p)
  let m := drive.readBlocks m bufBlocks (blockCount bs len offset) (lbaStart bs offset)
  let m := memcpyVia place m buf (bufBlocks + lbaStartOffset bs offset) len.toNat
  let s ← pmmReleasePages s (addrEnsureLower bufBlocks).toNat pages
  return (m, s)

-- ---------------------------------------------------------------------------
-- Sizes
-- ---------------------------------------------------------------------------

def blockBytes (bs len offset : Nat) : Nat := ((offset + len - 1) / bs - offset / bs + 1) * bs

def bouncePages (bs len offset : Nat) : Nat := (blockBytes bs len offset + 0xfff) / 0x1000

structure Request (bs len offset : U64) : Prop where
  power : ∃ k < 64, bs.toNat = 2 ^ k
  nonempty : 1 ≤ len.toNat
  fits : offset.toNat + len.toNat < 2 ^ 64

section Sizes

variable {bs : U64}

theorem Request.pos (h : Request bs len offset) : 0 < bs.toNat := by
  obtain ⟨k, -, hk⟩ := h.power
  exact hk ▸ Nat.two_pow_pos k

theorem toNat_lbaStart : (lbaStart bs offset).toNat = offset.toNat / bs.toNat := BitVec.toNat_udiv

theorem toNat_lbaStartOffset (h : Request bs len offset) :
    (lbaStartOffset bs offset).toNat = offset.toNat % bs.toNat := by
  obtain ⟨k, -, hk⟩ := h.power
  have hone : (1#64).toNat ≤ bs.toNat := h.pos
  have hsub : (bs - 1).toNat = bs.toNat - 1 := BitVec.toNat_sub_of_le (BitVec.le_def.mpr hone)
  rw [lbaStartOffset, BitVec.toNat_and, hsub, hk]
  exact Nat.and_two_pow_sub_one_eq_mod _ k

theorem toNat_lbaEnd (h : Request bs len offset) :
    (lbaEnd bs len offset).toNat = (offset.toNat + len.toNat - 1) / bs.toNat := by
  have hone : (1#64).toNat ≤ len.toNat := h.nonempty
  have hfits := h.fits
  have hsub : (len - 1).toNat = len.toNat - 1 := BitVec.toNat_sub_of_le (BitVec.le_def.mpr hone)
  have hlen := h.nonempty
  rw [lbaEnd, BitVec.toNat_udiv, BitVec.toNat_add, hsub, Nat.mod_eq_of_lt (by omega)]
  congr 1
  omega

theorem toNat_blockCount (h : Request bs len offset) :
    (blockCount bs len offset).toNat = (offset.toNat + len.toNat - 1) / bs.toNat - offset.toNat / bs.toNat + 1 := by
  have hfits := h.fits
  have hlen := h.nonempty
  have hle : offset.toNat / bs.toNat ≤ (offset.toNat + len.toNat - 1) / bs.toNat :=
    Nat.div_le_div_right (by omega)
  have hend : (offset.toNat + len.toNat - 1) / bs.toNat ≤ offset.toNat + len.toNat - 1 := Nat.div_le_self _ _
  have hle' : lbaStart bs offset ≤ lbaEnd bs len offset := by
    rw [BitVec.le_def, toNat_lbaStart, toNat_lbaEnd h]
    exact hle
  rw [blockCount, BitVec.toNat_add, BitVec.toNat_sub_of_le hle', toNat_lbaStart, toNat_lbaEnd h]
  have hdiff := Nat.sub_le ((offset.toNat + len.toNat - 1) / bs.toNat) (offset.toNat / bs.toNat)
  refine Nat.mod_eq_of_lt ?_
  show _ + 1 < _
  omega

theorem Request.inside (h : Request bs len offset) :
    offset.toNat % bs.toNat + len.toNat ≤ blockBytes bs.toNat len.toNat offset.toNat := by
  have hlen := h.nonempty
  have hstart := Nat.div_add_mod' offset.toNat bs.toNat
  have hend := Nat.lt_div_mul_add (a := offset.toNat + len.toNat - 1) h.pos
  have hle : offset.toNat / bs.toNat ≤ (offset.toNat + len.toNat - 1) / bs.toNat :=
    Nat.div_le_div_right (by omega)
  unfold blockBytes
  rw [Nat.add_mul, Nat.sub_mul, Nat.one_mul]
  have hmul := Nat.mul_le_mul_right bs.toNat hle
  omega

theorem blockBytes_aligned {bs a c : Nat} (hbs : 0 < bs) (hc : 0 < c) : blockBytes bs (c * bs) (a * bs) = c * bs := by
  have hlast : (a * bs + c * bs - 1) / bs = a + c - 1 := by
    obtain ⟨c, rfl⟩ : ∃ c', c = c' + 1 := ⟨c - 1, by omega⟩
    have hsum : a * bs + (c + 1) * bs - 1 = (a + c) * bs + (bs - 1) := by
      rw [Nat.add_mul c, Nat.add_mul a, Nat.one_mul]
      omega
    rw [hsum, Nat.add_comm, Nat.add_mul_div_right _ _ hbs, Nat.div_eq_of_lt (by omega)]
    omega
  unfold blockBytes
  rw [hlast, Nat.mul_div_cancel _ hbs]
  congr 1
  omega

theorem blockBytes_one {bs len a : Nat} (hlen : 0 < len) (hle : len ≤ bs) : blockBytes bs len (a * bs) = bs := by
  have hbs : 0 < bs := Nat.lt_of_lt_of_le hlen hle
  have hlast : (a * bs + len - 1) / bs = a := by
    rw [show a * bs + len - 1 = len - 1 + a * bs by omega, Nat.add_mul_div_right _ _ hbs, Nat.div_eq_of_lt (by omega),
      Nat.zero_add]
  unfold blockBytes
  rw [hlast, Nat.mul_div_cancel _ hbs, Nat.sub_self, Nat.zero_add, Nat.one_mul]

theorem toNat_pageCount (h : Request bs len offset)
    (hroom : blockBytes bs.toNat len.toNat offset.toNat + 0xfff < 2 ^ 64) :
    (pageCount bs len offset).toNat = bouncePages bs.toNat len.toNat offset.toNat := by
  have hbytes : (blockCount bs len offset * bs).toNat = blockBytes bs.toNat len.toNat offset.toNat := by
    rw [BitVec.toNat_mul, toNat_blockCount h]
    exact Nat.mod_eq_of_lt (by
      unfold blockBytes at hroom
      omega)
  rw [pageCount, BitVec.toNat_udiv, BitVec.toNat_add, hbytes]
  show (_ + 0xfff) % _ / 0x1000 = _
  rw [Nat.mod_eq_of_lt hroom]
  rfl

end Sizes

-- ---------------------------------------------------------------------------
-- What drive_read does
-- ---------------------------------------------------------------------------

/-- `read_blocks` puts whole blocks of the disk, which has `size` bytes, to the
start of its buffer and writes nothing else. -/
def ReadsBlocks (place : U64 → Nat) (drive : Drive) (disk : Nat → BitVec 8) (size : Nat) : Prop :=
  ∀ m buf count lba, (lba.toNat + count.toNat) * drive.blockSize.toNat ≤ size →
    (∀ i < count.toNat * drive.blockSize.toNat, drive.readBlocks m buf count lba (place (buf + BitVec.ofNat 64 i)) =
      disk (lba.toNat * drive.blockSize.toNat + i)) ∧
    ∀ a, (∀ i < count.toNat * drive.blockSize.toNat, a ≠ place (buf + BitVec.ofNat 64 i)) →
      drive.readBlocks m buf count lba a = m a

structure DirectMap (place : U64 → Nat) (s : Pmm) : Prop where
  frames : s.frames ≤ frameLimit
  place : ∀ p < 0x1000 * s.frames, place (addrOffsetHigher (BitVec.ofNat 64 p)) = p

/-- The caller's buffer: `len` bytes of memory, none in a free frame. -/
structure Buffer (place : U64 → Nat) (s : Pmm) (buf len : U64) : Prop where
  inj : ∀ i < len.toNat, ∀ j < len.toNat,
    place (buf + BitVec.ofNat 64 i) = place (buf + BitVec.ofNat 64 j) → i = j
  notFree : ∀ i < len.toNat, place (buf + BitVec.ofNat 64 i) / 0x1000 ∉ s.freeFrames

theorem Buffer.mono {len' : U64} (h : Buffer place s buf len) (hle : len'.toNat ≤ len.toNat) : Buffer place s buf len' :=
  ⟨fun i hi j hj => h.inj i (by omega) j (by omega), fun i hi => h.notFree i (by omega)⟩

theorem framePtr_add {q i : Nat} : framePtr q + BitVec.ofNat 64 i = addrOffsetHigher (BitVec.ofNat 64 (0x1000 * q + i)) := by
  rw [framePtr, addrOffsetHigher, addrOffsetHigher, BitVec.ofNat_add, BitVec.add_assoc, BitVec.add_comm VADDR_HIGHER,
    ← BitVec.add_assoc]

theorem DirectMap.framePtr {q i : Nat} (h : DirectMap place s) (hi : 0x1000 * q + i < 0x1000 * s.frames) :
    place (framePtr q + BitVec.ofNat 64 i) = 0x1000 * q + i := by
  rw [framePtr_add]
  exact h.place _ hi

/-- What a call of `drive_read` leaves, its bounce buffer at frame `q`. -/
structure Delivered (place : U64 → Nat) (drive : Drive) (disk : Nat → BitVec 8) (buf len offset : U64) (m : Mem) (s : Pmm)
    (m' : Mem) (s' : Pmm) (q : Nat) : Prop where
  run : driveRead place m s buf len offset drive = some (m', s')
  bytes : ∀ i < len.toNat, m' (place (buf + BitVec.ofNat 64 i)) = disk (offset.toNat + i)
  fresh : ∀ k, q ≤ k → k < q + (pageCount drive.blockSize len offset).toNat → k ∈ s.freeFrames
  kept : ∀ a, (∀ i < len.toNat, a ≠ place (buf + BitVec.ofNat 64 i)) →
    (a / 0x1000 < q ∨ q + (pageCount drive.blockSize len offset).toNat ≤ a / 0x1000) → m' a = m a
  blocksFit : (blockCount drive.blockSize len offset).toNat * drive.blockSize.toNat ≤
    0x1000 * (pageCount drive.blockSize len offset).toNat
  requestFits : (lbaStartOffset drive.blockSize offset).toNat + len.toNat ≤
    0x1000 * (pageCount drive.blockSize len offset).toNat
  free : s'.freeFrames = s.freeFrames
  walled : s'.Walled
  frames : s'.frames = s.frames

def Granted (s : Pmm) (n : Nat) : Prop := ∃ r, s.lastFree ≤ r ∧ r < s.frames ∧ s.FreeRun r n

variable (place m buf) in
theorem driveRead_run (hw : s.Walled) (hlimit : s.frames ≤ frameLimit)
    (havail : Granted s (pageCount drive.blockSize len offset).toNat) :
    ∃ s' q, driveRead place m s buf len offset drive =
        some (memcpyVia place (drive.readBlocks m (framePtr q) (blockCount drive.blockSize len offset)
          (lbaStart drive.blockSize offset)) buf (framePtr q + lbaStartOffset drive.blockSize offset) len.toNat, s') ∧
      q + (pageCount drive.blockSize len offset).toNat ≤ s.frames ∧
      s.FreeRun q (pageCount drive.blockSize len offset).toNat ∧
      s'.freeFrames = s.freeFrames ∧ s'.Walled ∧ s'.frames = s.frames ∧
      ∀ r, s.lastFree ≤ r → s.FreeRun r (pageCount drive.blockSize len offset).toNat →
        s'.lastFree ≤ r + (pageCount drive.blockSize len offset).toNat := by
  obtain ⟨n, hn⟩ : ∃ n, n = (pageCount drive.blockSize len offset).toNat := ⟨_, rfl⟩
  rw [← hn] at havail ⊢
  obtain ⟨r, hr, hrlt, hrfree⟩ := havail
  rcases pmmRequestPages_cases n hw with ⟨q, s₁, hrequest, -, hq, hfree, hfirst, hsame, hbits⟩ | ⟨-, hnone⟩
  · have hqn := hw.freeRun_le hq.le hfree
    have hframes₁ : s₁.frames = s.frames := by simp [Pmm.frames, hsame.totalMemory]
    have hw₁ : s₁.Walled := hw.of_same hsame.len hsame.totalMemory (by rw [hbits, hw.wall, Bool.or_true])
    obtain ⟨s₂, hrelease, hlen₂, htotal₂, hhint₂, hbits₂⟩ := pmmReleasePages_spec (n := n) hw₁ (hframes₁.symm ▸ hqn)
    have hptr : addrOffsetHigher (BitVec.ofNat 64 (0x1000 * q)) = framePtr q := rfl
    have hlower : (addrEnsureLower (framePtr q)).toNat = 0x1000 * q := by
      have hqlt : q < frameLimit := Nat.lt_of_lt_of_le hq hlimit
      rw [addrEnsureLower_framePtr hqlt, toNat_frame hqlt]
    have hframes₂ : s₂.frames = s.frames := by
      rw [← hframes₁]
      simp [Pmm.frames, htotal₂]
    have hwall₂ : s₂.bit s₁.frames = true := by
      rw [hbits₂, hw₁.wall, decide_eq_false (by omega)]
      rfl
    refine ⟨s₂, q, ?_, hqn, hfree, ?_, hw₁.of_same hlen₂ htotal₂ hwall₂, hframes₂, fun r hr hrun => ?_⟩
    · unfold driveRead
      simp only [← hn, hrequest, Option.bind_eq_bind, Option.bind_some, hptr, hlower, hrelease]
      rfl
    · ext k
      simp only [Pmm.freeFrames, Set.mem_ofPred_eq, hframes₂, hbits₂, hbits]
      by_cases hk : q ≤ k ∧ k < q + n
      · have := hfree (k - q) (by omega)
        rw [show q + (k - q) = k by omega] at this
        simp [hk, this]
      · simp [hk]
    · -- The search starts at the hint and takes the first run that it finds.
      have hqr : q ≤ r := Nat.le_of_not_lt fun hlt => hfirst r hr hlt hrun
      have hhint₁ : s₁.lastFree = q + n := hsame.lastFree
      rw [hhint₂, hhint₁]
      omega
  · exact absurd hrfree (hnone r hr hrlt)

theorem Request.blocks_inside {blockSize : U64} {size : Nat} (hreq : Request blockSize len offset)
    (hblocks : blockSize.toNat ∣ size) (hinside : offset.toNat + len.toNat ≤ size) :
    ((lbaStart blockSize offset).toNat + (blockCount blockSize len offset).toNat) * blockSize.toNat ≤ size := by
  obtain ⟨blocks, rfl⟩ := hblocks
  have hpos := hreq.pos
  have hlen := hreq.nonempty
  have hle : offset.toNat / blockSize.toNat ≤ (offset.toNat + len.toNat - 1) / blockSize.toNat :=
    Nat.div_le_div_right (by omega)
  have hend : (offset.toNat + len.toNat - 1) / blockSize.toNat < blocks :=
    (Nat.div_lt_iff_lt_mul hpos).mpr (by
      rw [Nat.mul_comm]
      omega)
  rw [toNat_lbaStart, toNat_blockCount hreq, Nat.mul_comm]
  refine Nat.mul_le_mul_left _ ?_
  omega

theorem driveRead_delivered {disk : Nat → BitVec 8} {size : Nat} (hw : s.Walled)
    (hmap : DirectMap place s) (hbuf : Buffer place s buf len) (hreq : Request drive.blockSize len offset)
    (hdisk : ReadsBlocks place drive disk size) (hblocks : drive.blockSize.toNat ∣ size)
    (hinside : offset.toNat + len.toNat ≤ size)
    (hpages : (pageCount drive.blockSize len offset).toNat = bouncePages drive.blockSize.toNat len.toNat offset.toNat)
    (havail : Granted s (pageCount drive.blockSize len offset).toNat) :
    ∃ m' s' q, Delivered place drive disk buf len offset m s m' s' q := by
  obtain ⟨n, hn⟩ : ∃ n, n = bouncePages drive.blockSize.toNat len.toNat offset.toNat := ⟨_, rfl⟩
  obtain ⟨b, hb⟩ : ∃ b, b = blockBytes drive.blockSize.toNat len.toNat offset.toNat := ⟨_, rfl⟩
  have hlimit := hmap.frames
  have hceil : b ≤ 0x1000 * n ∧ 0x1000 * n ≤ b + 0xfff := by
    rw [hn, bouncePages, ← hb]
    omega
  obtain ⟨s₂, q, hread, hqn, hfree, hsame, hw₂, hframes₂, -⟩ := driveRead_run place m buf hw hlimit havail
  rw [← hn] at hpages
  rw [hpages] at hqn hfree
  have hcount : (blockCount drive.blockSize len offset).toNat * drive.blockSize.toNat = b := by
    rw [toNat_blockCount hreq, hb]
    rfl
  have hoffset := toNat_lbaStartOffset hreq
  have hrequested : offset.toNat % drive.blockSize.toNat + len.toNat ≤ b := hb ▸ hreq.inside
  -- the bytes of the bounce buffer
  have hplace : ∀ i < 0x1000 * n, place (framePtr q + BitVec.ofNat 64 i) = 0x1000 * q + i := fun i hi =>
    hmap.framePtr (by omega)
  obtain ⟨m₁, hm₁⟩ : ∃ m₁, m₁ = drive.readBlocks m (framePtr q) (blockCount drive.blockSize len offset)
    (lbaStart drive.blockSize offset) := ⟨_, rfl⟩
  rw [← hm₁] at hread
  have hsource : ∀ i < len.toNat, place (framePtr q + lbaStartOffset drive.blockSize offset + BitVec.ofNat 64 i) =
      0x1000 * q + (offset.toNat % drive.blockSize.toNat + i) := by
    intro i hi
    have hsum : lbaStartOffset drive.blockSize offset + BitVec.ofNat 64 i =
        BitVec.ofNat 64 (offset.toNat % drive.blockSize.toNat + i) := by
      rw [BitVec.ofNat_add, ← hoffset, BitVec.ofNat_toNat, BitVec.setWidth_eq]
    rw [BitVec.add_assoc, hsum]
    exact hplace _ (by omega)
  have hmine : ∀ i < len.toNat, ∀ j < 0x1000 * n, place (buf + BitVec.ofNat 64 i) ≠ 0x1000 * q + j := by
    intro i hi j hj heq
    apply hbuf.notFree i hi
    have hbit := hfree ((0x1000 * q + j) / 0x1000 - q) (by omega)
    rw [heq]
    refine ⟨by omega, ?_⟩
    rwa [show q + ((0x1000 * q + j) / 0x1000 - q) = (0x1000 * q + j) / 0x1000 by omega] at hbit
  obtain ⟨hfill, hrest⟩ := hdisk m (framePtr q) _ _ (hreq.blocks_inside hblocks hinside)
  rw [← hm₁, hcount] at hfill hrest
  refine ⟨_, s₂, q, hread, fun i hi => ?_, fun k hk hk' => ?_, fun a ha ha' => ?_, ?_, ?_, hsame, hw₂, hframes₂⟩
  · rw [memcpyVia_apply hbuf.inj (fun i hi j hj => ?_) hi, hsource i hi, ← hplace _ (by omega), hfill _ (by omega),
      toNat_lbaStart]
    · congr 1
      have := Nat.div_add_mod' offset.toNat drive.blockSize.toNat
      omega
    · rw [hsource j hj]
      exact hmine i hi _ (by omega)
  · rw [hpages] at hk'
    refine ⟨by omega, ?_⟩
    have := hfree (k - q) (by omega)
    rwa [show q + (k - q) = k by omega] at this
  · rw [hpages] at ha'
    rw [memcpyVia_outside ha, hrest]
    intro i hi
    rw [hplace i (by omega)]
    omega
  · rw [hpages, hcount]
    exact hceil.1
  · rw [hpages, hoffset]
    omega

def diskDrive (bs : U64) (disk : Nat → BitVec 8) : Drive where
  blockSize := bs
  readBlocks m buf blockCount blockOffset a :=
    let i := (BitVec.ofNat 64 a - addrOffsetLower buf).toNat
    if a < 2 ^ 64 ∧ i < blockCount.toNat * bs.toNat then disk (blockOffset.toNat * bs.toNat + i) else m a

@[simp] theorem diskDrive_blockSize {bs : U64} {disk : Nat → BitVec 8} : (diskDrive bs disk).blockSize = bs := rfl

theorem diskDrive_reads {bs : U64} {disk : Nat → BitVec 8} {size : Nat} (hsize : size < 2 ^ 64) :
    ReadsBlocks physical (diskDrive bs disk) disk size := by
  intro m buf count lba hin
  have hindex : ∀ i, i < 2 ^ 64 →
      (BitVec.ofNat 64 (physical (buf + BitVec.ofNat 64 i)) - addrOffsetLower buf).toNat = i := by
    intro i hi
    rw [physical, BitVec.ofNat_toNat, BitVec.setWidth_eq]
    unfold addrOffsetLower
    have hcancel : buf + BitVec.ofNat 64 i - VADDR_HIGHER - (buf - VADDR_HIGHER) = BitVec.ofNat 64 i := by bv_omega
    rw [hcancel, BitVec.toNat_ofNat, Nat.mod_eq_of_lt hi]
  change (lba.toNat + count.toNat) * bs.toNat ≤ size at hin
  rw [Nat.add_mul] at hin
  refine ⟨fun i hi => ?_, fun a ha => ?_⟩
  · have hi : i < count.toNat * bs.toNat := hi
    have hlt : physical (buf + BitVec.ofNat 64 i) < 2 ^ 64 := BitVec.isLt _
    unfold diskDrive
    simp only
    rw [hindex i (by omega), if_pos ⟨hlt, hi⟩]
  · refine if_neg fun h => ha _ h.2 ?_
    rw [BitVec.ofNat_toNat, BitVec.setWidth_eq, physical, addrOffsetLower]
    have hcancel : buf + (BitVec.ofNat 64 a - addrOffsetLower buf) - VADDR_HIGHER = BitVec.ofNat 64 a := by
      unfold addrOffsetLower
      bv_omega
    rw [hcancel, BitVec.toNat_ofNat, Nat.mod_eq_of_lt h.1]

def countingDisk (i : Nat) : BitVec 8 := BitVec.ofNat 8 i

def smallDrive : Drive where
  blockSize := 512
  readBlocks m buf blockCount blockOffset a :=
    let i := (BitVec.ofNat 64 a - addrOffsetLower buf).toNat
    if a < 2 ^ 64 ∧ i < blockCount.toNat * 512 then countingDisk (blockOffset.toNat * 512 + i) else m a

theorem smallDrive_reads : ReadsBlocks physical smallDrive countingDisk 1024 :=
  show ReadsBlocks physical (diskDrive 512 countingDisk) countingDisk 1024 from diskDrive_reads (by decide)

end ShedOS.Device
