import ShedOS.Heap.Chunks
import ShedOS.Lib.Transition

/-!
# malloc

What `malloc` does to the list of chunks, and when a run of calls keeps the
blocks apart.
-/

namespace ShedOS.Heap

open Bytes Tiling
open Memory (U64 addrPageAlignUp)

def tailOf (l : List Chunk) : Nat := stop Chunk.width heapStart l

def heapEnd : Nat := 0xffff810200000000

/-- The list that the headers in memory make. -/
structure Decodes (s : Space) (l : List Chunk) : Prop where
  chunks : Chunks s.mem heapStart l
  tail : s.mem.read64 (tailOf l + 8) = 0

/-- The chunks and the last header fill whole pages, all mapped. -/
structure Represents (s : Space) (l : List Chunk) : Prop extends Decodes s l where
  mapped : Mapped s heapStart (tailOf l + 24)
  le : tailOf l + 24 ≤ heapEnd
  aligned : (tailOf l + 24) % 0x1000 = 0

def Chunk.fits (size : Nat) (c : Chunk) : Bool := !c.inUse && decide (size ≤ c.size)

variable {s s' : Space} {m m' : Mem} {a b n k x old : Nat} {v w size : U64} {u : Bool} {c d : Chunk} {l pre post : List Chunk}

theorem Chunk.fits_iff : c.fits n = true ↔ c.inUse = false ∧ n ≤ c.size := by
  rw [Chunk.fits, Bool.and_eq_true, Bool.not_eq_true', decide_eq_true_iff]

theorem tailOf_append : tailOf (pre ++ post) = stop Chunk.width (tailOf pre) post := stop_append

theorem tailOf_concat : tailOf (pre ++ [c]) = tailOf pre + 24 + c.size := by
  rw [tailOf_append]
  exact (Nat.add_assoc _ 24 c.size).symm

theorem heapStart_le : heapStart ≤ tailOf l := le_stop

theorem tailOf_le : tailOf pre ≤ tailOf (pre ++ post) := by
  rw [tailOf_append]
  exact le_stop

-- ---------------------------------------------------------------------------
-- The loop
-- ---------------------------------------------------------------------------

theorem findChunk_eq (hc : Chunks s.mem a (pre ++ post)) (ht : s.mem.read64 (stop Chunk.width a (pre ++ post) + 8) = 0)
    (hm : Mapped s a (stop Chunk.width a (pre ++ post) + 24)) (hb : stop Chunk.width a (pre ++ post) + 24 ≤ 2 ^ 64)
    (hpre : ∀ c ∈ pre, c.fits size.toNat = false) (hpost : ∀ c ∈ post.head?, c.fits size.toNat)
    (hfuel : pre.length < k) : findChunk s size (BitVec.ofNat 64 a) k = some (BitVec.ofNat 64 (stop Chunk.width a pre)) := by
  induction pre generalizing a k with
  | nil =>
    obtain ⟨k, rfl⟩ : ∃ k', k = k' + 1 := ⟨k - 1, by omega⟩
    simp only [List.nil_append] at hc ht hm hb
    have hle : a ≤ stop Chunk.width a post := le_stop
    have hma : Mapped s a (a + 24) := hm.mono (Nat.le_refl a) (by omega)
    rw [findChunk, size_eq hma (by omega)]
    simp only [Option.bind_eq_bind, Option.bind_some]
    cases post with
    | nil =>
      rw [stop] at ht
      rw [if_pos ht]
      rfl
    | cons c post =>
      obtain ⟨⟨⟨hu, hsize⟩, h0⟩, -⟩ := chunks_cons.mp hc
      have hfit := hpost c rfl
      rw [Chunk.fits, ← hu, ← hsize, Bool.and_eq_true, decide_eq_true_iff] at hfit
      have hne : s.mem.read64 (a + 8) ≠ 0 := fun e => h0 (by rw [← hsize, e]; rfl)
      have hlt : ¬ s.mem.read64 (a + 8) < size := BitVec.not_lt.mpr hfit.2
      rw [if_neg hne, inUse_eq hma (by omega), Option.bind_some]
      simp only [Bool.not_eq_true'] at hfit
      simp only [hfit.1, hlt, decide_false, Bool.or_self, Bool.false_eq_true, if_false]
      rfl
  | cons c pre ih =>
    obtain ⟨k, rfl⟩ : ∃ k', k = k' + 1 := ⟨k - 1, by omega⟩
    rw [List.cons_append] at hc ht hm hb
    obtain ⟨⟨⟨hu, hsize⟩, h0⟩, hrest⟩ := chunks_cons.mp hc
    have hwidth : a + c.width = a + 24 + c.size := (Nat.add_assoc a 24 c.size).symm
    have hle : a + c.width ≤ stop Chunk.width a (c :: (pre ++ post)) := le_stop
    have hma : Mapped s a (a + 24) := hm.mono (Nat.le_refl a) (by omega)
    have hunfit := hpre c List.mem_cons_self
    have hne : s.mem.read64 (a + 8) ≠ 0 := fun e => h0 (by rw [← hsize, e]; rfl)
    have hnext : nextHdr s (BitVec.ofNat 64 a) = some (BitVec.ofNat 64 (a + c.width)) := by
      rw [nextHdr_eq hma (by omega), hsize, hwidth]
    have hskip : ((s.mem a != 0) || decide (s.mem.read64 (a + 8) < size)) = true := by
      rw [Chunk.fits, ← hu, ← hsize] at hunfit
      rw [Bool.or_eq_true, decide_eq_true_iff]
      by_cases hin : (s.mem a != 0) = true
      · exact .inl hin
      · refine .inr (BitVec.not_le.mp fun hle => ?_)
        simp only [Bool.not_eq_true] at hin
        rw [hin] at hunfit
        simp [BitVec.le_def.mp hle] at hunfit
    rw [findChunk, size_eq hma (by omega)]
    simp only [Option.bind_eq_bind, Option.bind_some, if_neg hne, inUse_eq hma (show a + 24 ≤ 2 ^ 64 by omega), hnext,
      hskip, if_true]
    exact ih hrest ht (hm.mono (Nat.le_add_right a _) (Nat.le_refl _)) hb
      (fun d hd => hpre d (List.mem_cons_of_mem _ hd)) (Nat.lt_of_succ_lt_succ hfuel)

-- ---------------------------------------------------------------------------
-- Taking a chunk
-- ---------------------------------------------------------------------------

/-- `n` bytes of the chunk at `a`, and a header for the rest behind them. -/
theorem splitChunk_eq (hm : Mapped s a (a + 24 + n + 24)) (hb : a + 24 + n + 24 ≤ 2 ^ 64)
    (hold : (s.mem.read64 (a + 8)).toNat = old) :
    splitChunk s (BitVec.ofNat 64 a) (BitVec.ofNat 64 n + sizeofChunkHdr) =
      some { s with
        mem := putHeader ((s.mem.write64 (a + 8) (BitVec.ofNat 64 n)).setByte a 1) (a + 24 + n)
          (BitVec.ofNat 64 old - (BitVec.ofNat 64 n + sizeofChunkHdr)) (BitVec.ofNat 64 n) false } := by
  have hma : Mapped s a (a + 24) := hm.mono (Nat.le_refl a) (by omega)
  have hmn : Mapped s (a + 24 + n) (a + 24 + n + 24) := hm.mono (by omega) (Nat.le_refl _)
  have hba : a + 24 ≤ 2 ^ 64 := by omega
  have hn : BitVec.ofNat 64 n + sizeofChunkHdr - sizeofChunkHdr = BitVec.ofNat 64 n := BitVec.add_sub_cancel _ _
  have hread : ∀ m' : Mem, (∀ k, a ≤ k → k < a + 24 → k ≠ a → m' k = s.mem.write64 (a + 8) (BitVec.ofNat 64 n) k) →
      m'.read64 (a + 8) = BitVec.ofNat 64 n := fun m' h => by
    rw [Mem.read64_congr fun k hk hk' => h k (by omega) (by omega) (by omega), Mem.read64_write64]
  have hold' : s.mem.read64 (a + 8) = BitVec.ofNat 64 old := by rw [← hold, BitVec.ofNat_toNat, BitVec.setWidth_eq]
  rw [splitChunk, size_eq hma hba, hold']
  simp only [Option.bind_eq_bind, Option.bind_some, hn]
  rw [setSize_eq hma hba, Option.bind_some, setInUse_eq hma.mem hba, Option.bind_some,
    nextHdr_eq hma.mem.mem hba, Option.bind_some]
  simp only [if_true]
  rw [hread _ fun k _ _ hk => Mem.setByte_ne hk, toNat_ofNat_lt (by omega), setSize_eq hmn.mem hb, Option.bind_some,
    setInUse_eq hmn.mem hb, Option.bind_some, size_eq hma.mem hba]
  simp only [Option.bind_some]
  rw [hread, setSizePrev_eq hmn.mem hb]
  · rfl
  · intro k hk hk' hne
    rw [Mem.setByte_ne (by omega), Mem.write64_outside (by omega), Mem.setByte_ne hne]

def splitMem (m : Mem) (a n old : Nat) : Mem :=
  putHeader ((m.write64 (a + 8) (BitVec.ofNat 64 n)).setByte a 1) (a + 24 + n)
    (BitVec.ofNat 64 old - (BitVec.ofNat 64 n + sizeofChunkHdr)) (BitVec.ofNat 64 n) false

theorem splitMem_outside (hk : k < a ∨ a + 24 + n + 24 ≤ k) : splitMem m a n old k = m k := by
  rw [splitMem, putHeader_outside (by omega), Mem.setByte_ne (by omega), Mem.write64_outside (by omega)]

theorem splitMem_header (hn : n < 2 ^ 64) : Header (splitMem m a n old) a ⟨true, n⟩ := by
  refine ⟨?_, ?_⟩
  · rw [splitMem, putHeader_outside (by omega), Mem.setByte_same]
    rfl
  · have hkept : ∀ k, a + 8 ≤ k → k < a + 8 + 8 →
        splitMem m a n old k = m.write64 (a + 8) (BitVec.ofNat 64 n) k := fun k hk hk' => by
      rw [splitMem, putHeader_outside (by omega), Mem.setByte_ne (by omega)]
    rw [Mem.read64_congr hkept, Mem.read64_write64, toNat_ofNat_lt hn]

theorem splitMem_chunks (hn : n ≠ 0) (hlt : n + 24 < old) (hold : old < 2 ^ 64) :
    Chunks (splitMem m a n old) a [⟨true, n⟩, ⟨false, old - (n + 24)⟩] := by
  refine chunks_cons.mpr ⟨⟨splitMem_header (by omega), hn⟩, chunks_cons.mpr ⟨⟨?_, ?_⟩, chunks_nil⟩⟩
  · have hwidth : a + (Chunk.mk true n).width = a + 24 + n := (Nat.add_assoc a 24 n).symm
    have hrest : (BitVec.ofNat 64 old - (BitVec.ofNat 64 n + sizeofChunkHdr)).toNat = old - (n + 24) := by
      rw [sizeofChunkHdr]
      bv_omega
    rw [hwidth]
    have h := putHeader_header (m := (m.write64 (a + 8) (BitVec.ofNat 64 n)).setByte a 1) (a := a + 24 + n)
      (v := BitVec.ofNat 64 old - (BitVec.ofNat 64 n + sizeofChunkHdr)) (w := BitVec.ofNat 64 n) (u := false)
    rwa [hrest] at h
  · simp only
    omega

-- ---------------------------------------------------------------------------
-- Appending pages
-- ---------------------------------------------------------------------------

def growMem (m : Mem) (a k : Nat) : Mem :=
  putHeader (m.write64 (a + 8) (BitVec.ofNat 64 (0x1000 * k - 24))) (a + 0x1000 * k) 0
    (BitVec.ofNat 64 (0x1000 * k - 24)) true

theorem growMem_outside (hk : 0 < k) (hx : x < a ∨ a + 0x1000 * k + 24 ≤ x) : growMem m a k x = m x := by
  rw [growMem, putHeader_outside (by omega), Mem.write64_outside (by omega)]

theorem growMem_chunk (hk : 0 < k) (hb : 0x1000 * k < 2 ^ 64) :
    Chunks (growMem m a k) a [⟨m a != 0, 0x1000 * k - 24⟩] := by
  refine chunks_cons.mpr ⟨⟨⟨?_, ?_⟩, ?_⟩, chunks_nil⟩
  · rw [growMem, putHeader_outside (by omega), Mem.write64_outside (by omega)]
  · have hkept : ∀ j, a + 8 ≤ j → j < a + 8 + 8 →
        growMem m a k j = m.write64 (a + 8) (BitVec.ofNat 64 (0x1000 * k - 24)) j :=
      fun j hj hj' => putHeader_outside (by omega)
    rw [Mem.read64_congr hkept, Mem.read64_write64, toNat_ofNat_lt (by omega)]
  · simp only
    omega

theorem growMem_tail : (growMem m a k).read64 (a + 0x1000 * k + 8) = 0 := putHeader_size

theorem growHeap_eq {count : U64} (hcount : count.toNat = k) (hk : 0 < k) (hm : Mapped s a (a + 24))
    (ha : (a + 24) % 0x1000 = 0) (hb : a + 24 + 0x1000 * k < 2 ^ 64) :
    growHeap s (BitVec.ofNat 64 a) count =
      some { vmmRequestAt s (BitVec.ofNat 64 (a + 24)) k with mem := growMem s.mem a k } := by
  have hold : Mapped (vmmRequestAt s (BitVec.ofNat 64 (a + 24)) k) a (a + 24) :=
    fun x hx hx' => vmmRequestAt_mapped_of (hm x hx hx')
  have hnew : Mapped (vmmRequestAt s (BitVec.ofNat 64 (a + 24)) k) (a + 0x1000 * k) (a + 0x1000 * k + 24) := by
    intro x hx hx'
    exact vmmRequestAt_mapped ha (Nat.le_of_lt hb) x (by omega) (by omega)
  have hba : a + 24 ≤ 2 ^ 64 := by omega
  have hbn : a + 0x1000 * k + 24 ≤ 2 ^ 64 := by omega
  have hsize : count * 0x1000 - sizeofChunkHdr = BitVec.ofNat 64 (0x1000 * k - 24) := by
    subst hcount
    rw [sizeofChunkHdr]
    bv_omega
  have hend : a + 24 + (0x1000 * k - 24) = a + 0x1000 * k := by omega
  have hregion : BitVec.ofNat 64 a + sizeofChunkHdr = BitVec.ofNat 64 (a + 24) := ofNat_add
  rw [growHeap, hregion, hsize, hcount]
  simp only
  obtain ⟨t, ht⟩ : ∃ t, t = vmmRequestAt s (BitVec.ofNat 64 (a + 24)) k := ⟨_, rfl⟩
  have hmem : t.mem = s.mem := by rw [ht, vmmRequestAt_mem]
  rw [← ht] at hold hnew ⊢
  simp only [Option.bind_eq_bind]
  rw [setSize_eq hold hba, Option.bind_some, nextHdr_eq hold.mem hba, Option.bind_some]
  simp only
  rw [Mem.read64_write64, toNat_ofNat_lt (by omega), hend, setSize_eq hnew.mem hbn, Option.bind_some,
    setInUse_eq hnew.mem hbn, Option.bind_some, size_eq hold.mem hba, Option.bind_some]
  simp only [if_true]
  rw [setSizePrev_eq hnew.mem hbn, growMem, ← hmem]
  congr 3
  have hkept : ∀ j, a + 8 ≤ j → j < a + 8 + 8 →
      ((t.mem.write64 (a + 8) (BitVec.ofNat 64 (0x1000 * k - 24))).write64 (a + 0x1000 * k + 8) 0).setByte
        (a + 0x1000 * k) 1 j = t.mem.write64 (a + 8) (BitVec.ofNat 64 (0x1000 * k - 24)) j := fun j hj hj' => by
    rw [Mem.setByte_ne (by omega), Mem.write64_outside (by omega)]
  rw [Mem.read64_congr hkept, Mem.read64_write64]

-- ---------------------------------------------------------------------------
-- One call
-- ---------------------------------------------------------------------------

def pageCount (size : Nat) : Nat := (size + 0xfff) / 0x1000

/-- The call finds a chunk that has more than `n` bytes and a header, or
appends pages that have and that end within the heap. -/
def Roomy (l : List Chunk) (n : Nat) : Prop :=
  n = 0 ∨ n + 24 < 2 ^ 64 ∧
    match l.find? (Chunk.fits (n + 24)) with
    | some c => n + 24 < c.size
    | none => n + 24 < 0x1000 * pageCount (n + 24) - 24 ∧ tailOf l + 24 + 0x1000 * pageCount (n + 24) ≤ heapEnd

theorem tailOf_cons : tailOf (pre ++ c :: post) = stop Chunk.width (tailOf pre + (24 + c.size)) post := tailOf_append

theorem tailOf_split (hlt : n + 24 ≤ c.size) :
    tailOf (pre ++ ⟨true, n⟩ :: ⟨false, c.size - (n + 24)⟩ :: post) = tailOf (pre ++ c :: post) := by
  rw [tailOf_cons, tailOf_append]
  simp only [stop, Chunk.width]
  congr 1
  omega

theorem tailOf_grow (hk : 0 < k) : tailOf (l ++ [⟨u, 0x1000 * k - 24⟩]) = tailOf l + 0x1000 * k := by
  rw [tailOf_append]
  simp only [stop, Chunk.width]
  omega

theorem Decodes.split {pages : U64 → Bool} (h : Decodes s (pre ++ c :: post)) (hn : n ≠ 0) (hlt : n + 24 < c.size)
    (hb : tailOf (pre ++ c :: post) + 24 ≤ 2 ^ 64) :
    Decodes ⟨splitMem s.mem (tailOf pre) n c.size, pages⟩ (pre ++ ⟨true, n⟩ :: ⟨false, c.size - (n + 24)⟩ :: post) := by
  have hstop : tailOf pre + (24 + c.size) ≤ tailOf (pre ++ c :: post) := tailOf_cons ▸ le_stop
  obtain ⟨hpre, hrest⟩ := chunks_append.mp h.chunks
  have hpost : Chunks s.mem (tailOf pre + (24 + c.size)) post := (chunks_cons.mp hrest).2
  refine ⟨chunks_append.mpr ⟨hpre.congr_range fun k _ hk => splitMem_outside (.inl hk), ?_⟩, ?_⟩
  · refine chunks_append.mpr ⟨splitMem_chunks hn hlt (by omega), ?_⟩
    have hat : stop Chunk.width (tailOf pre) [⟨true, n⟩, ⟨false, c.size - (n + 24)⟩] = tailOf pre + (24 + c.size) := by
      simp only [stop, Chunk.width]
      omega
    change Chunks _ (stop Chunk.width (tailOf pre) _) post
    rw [hat]
    exact hpost.congr_range fun k hk _ => splitMem_outside (.inr (by omega))
  · change (splitMem s.mem (tailOf pre) n c.size).read64 _ = 0
    rw [tailOf_split (Nat.le_of_lt hlt), Mem.read64_congr fun k hk _ => splitMem_outside (.inr (by omega))]
    exact h.tail

theorem Decodes.grow {pages : U64 → Bool} (h : Decodes s l) (hk : 0 < k) (hb : 0x1000 * k < 2 ^ 64) :
    Decodes ⟨growMem s.mem (tailOf l) k, pages⟩ (l ++ [⟨s.mem (tailOf l) != 0, 0x1000 * k - 24⟩]) := by
  refine ⟨chunks_append.mpr ⟨?_, growMem_chunk hk hb⟩, ?_⟩
  · exact h.chunks.congr_range fun x _ hx => growMem_outside hk (.inl hx)
  · rw [tailOf_grow hk]
    exact growMem_tail

theorem Represents.split (h : Represents s (pre ++ c :: post)) (hn : n ≠ 0) (hlt : n + 24 < c.size) :
    ∃ s', splitChunk s (BitVec.ofNat 64 (tailOf pre)) (BitVec.ofNat 64 n + sizeofChunkHdr) = some s' ∧
      Represents s' (pre ++ ⟨true, n⟩ :: ⟨false, c.size - (n + 24)⟩ :: post) := by
  have hstart : heapStart ≤ tailOf pre := heapStart_le
  have hstop : tailOf pre + (24 + c.size) ≤ tailOf (pre ++ c :: post) := tailOf_cons ▸ le_stop
  have hle := h.le
  unfold heapEnd at hle
  have hsize : (s.mem.read64 (tailOf pre + 8)).toNat = c.size :=
    (chunks_cons.mp (chunks_append.mp h.chunks).2).1.1.2
  have htail : tailOf (pre ++ ⟨true, n⟩ :: ⟨false, c.size - (n + 24)⟩ :: post) = tailOf (pre ++ c :: post) :=
    tailOf_split (Nat.le_of_lt hlt)
  refine ⟨_, splitChunk_eq (h.mapped.mono hstart (by omega)) (by omega) hsize,
    ⟨h.toDecodes.split hn hlt (by omega), ?_, ?_, ?_⟩⟩
  · rw [htail]
    exact h.mapped.mem
  · rw [htail]
    exact h.le
  · rw [htail]
    exact h.aligned

theorem Represents.grow (h : Represents s l) {count : U64} (hcount : count.toNat = k) (hk : 0 < k)
    (hle : tailOf l + 24 + 0x1000 * k ≤ heapEnd) : ∃ s' u, growHeap s (BitVec.ofNat 64 (tailOf l)) count = some s' ∧
      Represents s' (l ++ [⟨u, 0x1000 * k - 24⟩]) := by
  have hstart : heapStart ≤ tailOf l := heapStart_le
  have hb : tailOf l + 24 + 0x1000 * k < 2 ^ 64 := Nat.lt_of_le_of_lt hle (by decide)
  refine ⟨_, s.mem (tailOf l) != 0, growHeap_eq hcount hk (h.mapped.mono hstart (Nat.le_refl _)) h.aligned hb,
    ⟨h.toDecodes.grow hk (by omega), ?_, ?_, ?_⟩⟩
  · rw [tailOf_grow hk]
    intro x hx hx'
    by_cases hin : x < tailOf l + 24
    · exact vmmRequestAt_mapped_of (h.mapped x hx hin)
    · exact vmmRequestAt_mapped h.aligned (Nat.le_of_lt hb) x (by omega) (by omega)
  · rw [tailOf_grow hk]
    omega
  · rw [tailOf_grow hk]
    have := h.aligned
    omega

/-- How the list changes: the block of `n` bytes begins behind the header at
`tailOf pre`. -/
inductive Takes (l : List Chunk) (n : Nat) : (pre : List Chunk) → (l' : List Chunk) → Prop
  | found {pre post : List Chunk} {c : Chunk} (hl : l = pre ++ c :: post) (hc : c.inUse = false) (hlt : n + 24 < c.size) :
      Takes l n pre (pre ++ ⟨true, n⟩ :: ⟨false, c.size - (n + 24)⟩ :: post)
  | grown {k : Nat} (hlt : n + 24 < k) : Takes l n l (l ++ [⟨true, n⟩, ⟨false, k - (n + 24)⟩])

theorem malloc_zero : malloc s 0 k = some (s, 0) := rfl

theorem ofNat_ne_zero (hn : n ≠ 0) (hlt : n < 2 ^ 64) : BitVec.ofNat 64 n ≠ 0 := fun e => hn (by
  rw [← toNat_ofNat_lt hlt, e]
  rfl)

theorem malloc_append {s₁ : Space} (h : Represents s l) (hn : n ≠ 0) (hwrap : n + 24 < 2 ^ 64)
    (hfind : l.find? (Chunk.fits (n + 24)) = none)
    (hgrow : growHeap s (BitVec.ofNat 64 (tailOf l)) (addrPageAlignUp (BitVec.ofNat 64 (n + 24)) / 0x1000) = some s₁)
    (hsplit : splitChunk s₁ (BitVec.ofNat 64 (tailOf l)) (BitVec.ofNat 64 n + sizeofChunkHdr) = some s') :
    malloc s (BitVec.ofNat 64 n) (l.length + 1) = some (s', BitVec.ofNat 64 (tailOf l + 24)) := by
  have hsum : BitVec.ofNat 64 n + sizeofChunkHdr = BitVec.ofNat 64 (n + 24) := ofNat_add
  have hptr : BitVec.ofNat 64 (tailOf l) + sizeofChunkHdr = BitVec.ofNat 64 (tailOf l + 24) := ofNat_add
  have hsize : (BitVec.ofNat 64 n + sizeofChunkHdr).toNat = n + 24 := by rw [hsum, toNat_ofNat_lt hwrap]
  have hstart : BitVec.ofNat 64 heapStart = KERNEL_HEAP_VIRTUAL_START := by decide
  have hb : tailOf l + 24 ≤ 2 ^ 64 := Nat.le_trans h.le (by decide)
  have hchunk : findChunk s (BitVec.ofNat 64 n + sizeofChunkHdr) _ (l.length + 1) =
      some (BitVec.ofNat 64 (stop Chunk.width heapStart l)) := findChunk_eq
    (show Chunks s.mem heapStart (l ++ []) by rw [List.append_nil]; exact h.chunks) (by rw [List.append_nil]; exact h.tail)
    (by rw [List.append_nil]; exact h.mapped) (by rw [List.append_nil]; exact hb)
    (by simpa [hsize] using List.find?_eq_none.mp hfind) (fun _ hc => by cases hc) (Nat.lt_succ_self _)
  have hmapped : Mapped s (tailOf l) (tailOf l + 24) := h.mapped.mono heapStart_le (Nat.le_refl _)
  have hroom : ¬ BitVec.ofNat 64 (tailOf l) + sizeofChunkHdr > KERNEL_HEAP_VIRTUAL_END := by
    rw [hptr, gt_iff_lt, BitVec.not_lt, BitVec.le_def, toNat_ofNat_lt (Nat.lt_of_le_of_lt h.le (by decide))]
    exact h.le
  rw [malloc, if_neg (ofNat_ne_zero hn (by omega)), ← hstart]
  simp only [Option.bind_eq_bind]
  rw [hchunk, Option.bind_some]
  change (s.size (BitVec.ofNat 64 (tailOf l))).bind _ = _
  rw [size_eq hmapped hb, Option.bind_some, if_pos h.tail]
  change (if BitVec.ofNat 64 (tailOf l) + sizeofChunkHdr > KERNEL_HEAP_VIRTUAL_END then _ else
    (growHeap s (BitVec.ofNat 64 (tailOf l)) _).bind _) = _
  rw [if_neg hroom, hsum, hgrow, Option.bind_some, ← hsum]
  change (splitChunk s₁ (BitVec.ofNat 64 (tailOf l)) _).bind _ = _
  rw [hsplit, ← hptr]
  rfl

theorem malloc_spec (h : Represents s l) (hr : Roomy l n) (hn : n ≠ 0) : ∃ k s' pre l',
    malloc s (BitVec.ofNat 64 n) k = some (s', BitVec.ofNat 64 (tailOf pre + 24)) ∧ Takes l n pre l' ∧ Represents s' l' := by
  obtain ⟨hwrap, hr⟩ := hr.resolve_left hn
  have hsize : (BitVec.ofNat 64 n + sizeofChunkHdr).toNat = n + 24 := by
    rw [sizeofChunkHdr]
    bv_omega
  have hstart : BitVec.ofNat 64 heapStart = KERNEL_HEAP_VIRTUAL_START := by decide
  have hb : tailOf l + 24 ≤ 2 ^ 64 := Nat.le_trans h.le (by decide)
  have hptr : ∀ {a}, BitVec.ofNat 64 a + sizeofChunkHdr = BitVec.ofNat 64 (a + 24) := ofNat_add
  cases hfind : l.find? (Chunk.fits (n + 24)) with
  | some c =>
    rw [hfind] at hr
    obtain ⟨hfits, pre, post, rfl, hpre⟩ := List.find?_eq_some_iff_append.mp hfind
    have hchunk : findChunk s (BitVec.ofNat 64 n + sizeofChunkHdr) _ (pre.length + 1) = _ := findChunk_eq h.chunks h.tail
      h.mapped hb (by simpa [hsize] using hpre) (by simpa [hsize] using hfits) (Nat.lt_succ_self _)
    obtain ⟨s', hsplit, hrep⟩ := h.split hn hr
    have hc := (Chunk.fits_iff.mp hfits).1
    refine ⟨pre.length + 1, s', pre, _, ?_, .found rfl hc hr, hrep⟩
    have hle : tailOf pre + (24 + c.size) ≤ tailOf (pre ++ c :: post) := tailOf_cons ▸ le_stop
    have hmapped : Mapped s (tailOf pre) (tailOf pre + 24) := h.mapped.mono heapStart_le (by omega)
    obtain ⟨⟨hcsize, hc0⟩, -⟩ : (Header s.mem (tailOf pre) c ∧ c.size ≠ 0) ∧ _ :=
      chunks_cons.mp (chunks_append.mp h.chunks).2
    have hne : s.mem.read64 (tailOf pre + 8) ≠ 0 := fun e => hc0 (by
      rw [← hcsize.2, e]
      rfl)
    rw [malloc, if_neg (ofNat_ne_zero hn (by omega)), ← hstart]
    simp only [Option.bind_eq_bind]
    rw [hchunk, Option.bind_some]
    change (s.size (BitVec.ofNat 64 (tailOf pre))).bind _ = _
    rw [size_eq hmapped (by omega), Option.bind_some, if_neg hne]
    change (splitChunk s (BitVec.ofNat 64 (tailOf pre)) _).bind _ = _
    rw [hsplit, ← hptr]
    rfl
  | none =>
    rw [hfind] at hr
    obtain ⟨hlt, hend⟩ := hr
    have hcount : (addrPageAlignUp (BitVec.ofNat 64 (n + 24)) / 0x1000).toNat = pageCount (n + 24) := by
      refine Memory.addrPageAlignUp_div ?_
      unfold pageCount heapEnd at hend
      omega
    obtain ⟨s₁, u, hgrow, hrep₁⟩ := h.grow hcount (by omega) hend
    obtain ⟨s', hsplit, hrep⟩ := hrep₁.split hn hlt
    exact ⟨l.length + 1, s', l, _, malloc_append h hn hwrap hfind hgrow hsplit, .grown hlt, hrep⟩

-- ---------------------------------------------------------------------------
-- Runs
-- ---------------------------------------------------------------------------

def MallocStep (s : Space) (e : U64 × U64) (s' : Space) : Prop := ∃ fuel, malloc s e.1 fuel = some (s', e.2)

def RoomyIn (s : Space) (n : U64) : Prop := ∃ l, Decodes s l ∧ Roomy l n.toNat

def RoomyStep (s : Space) (e : U64 × U64) (s' : Space) : Prop := RoomyIn s e.1 ∧ MallocStep s e s'

inductive Reached (s : Space) : U64 → Prop
  | first : Reached s KERNEL_HEAP_VIRTUAL_START
  | next {hdr hdr' v : U64} (h : Reached s hdr) (hsize : s.size hdr = some v) (hv : v ≠ 0)
      (hnext : nextHdr s hdr = some hdr') : Reached s hdr'

def Owns (e : U64 × U64) (y : U64) : Prop := e.2 ≠ 0 ∧ ∃ i < e.1.toNat, y = e.2 + BitVec.ofNat 64 i

/-- Every block that was returned lies in the mapped part of the heap, apart
from the other blocks and from every header. -/
structure Safe (s : Space) (es : List (U64 × U64)) : Prop where
  inside : ∀ e ∈ es, ∀ y, Owns e y →
    s.mapped y ∧ KERNEL_HEAP_VIRTUAL_START ≤ y ∧ y < KERNEL_HEAP_VIRTUAL_END
  apart : es.Pairwise fun e e' => ∀ y, Owns e y → ¬Owns e' y
  headers : ∀ hdr, Reached s hdr → ∀ i < 24, ∀ e ∈ es, ¬Owns e (hdr + BitVec.ofNat 64 i)

theorem chunks_unique {l' : List Chunk} (hc : Chunks m a l) (ht : m.read64 (stop Chunk.width a l + 8) = 0)
    (hc' : Chunks m a l') (ht' : m.read64 (stop Chunk.width a l' + 8) = 0) : l = l' := by
  induction l generalizing a l' with
  | nil =>
    cases l' with
    | nil => rfl
    | cons c l' =>
      obtain ⟨⟨⟨-, hsize⟩, h0⟩, -⟩ := chunks_cons.mp hc'
      rw [stop] at ht
      rw [ht] at hsize
      exact absurd hsize.symm h0
  | cons c l ih =>
    obtain ⟨⟨⟨hu, hsize⟩, h0⟩, hrest⟩ := chunks_cons.mp hc
    cases l' with
    | nil =>
      rw [stop] at ht'
      rw [ht'] at hsize
      exact absurd hsize.symm h0
    | cons c' l' =>
      obtain ⟨⟨⟨hu', hsize'⟩, -⟩, hrest'⟩ := chunks_cons.mp hc'
      obtain rfl : c = c' := by
        cases c
        cases c'
        simp_all
      rw [ih hrest ht hrest' ht']

theorem Decodes.unique {l' : List Chunk} (h : Decodes s l) (h' : Decodes s l') : l = l' :=
  chunks_unique h.chunks h.tail h'.chunks h'.tail

theorem Represents.at_chunk (h : Represents s l) (hx : (x, c) ∈ places Chunk.width heapStart l) :
    heapStart ≤ x ∧ x + 24 + c.size ≤ tailOf l ∧ s.size (BitVec.ofNat 64 x) = some (BitVec.ofNat 64 c.size) ∧
      nextHdr s (BitVec.ofNat 64 x) = some (BitVec.ofNat 64 (x + 24 + c.size)) := by
  obtain ⟨hlo, hhi⟩ := within hx
  have hwidth : c.width = 24 + c.size := rfl
  have hle : x + 24 + c.size ≤ tailOf l := by
    unfold tailOf
    omega
  have hend := h.le
  unfold heapEnd at hend
  have hm : Mapped s x (x + 24) := h.mapped.mono hlo (by omega)
  have hsize := (h.chunks x c hx).1.2
  refine ⟨hlo, hle, ?_, ?_⟩
  · rw [size_eq hm (by omega), ← hsize, BitVec.ofNat_toNat, BitVec.setWidth_eq]
  · rw [nextHdr_eq hm (by omega), hsize]

theorem Represents.reached (h : Represents s l) {hdr : U64} (hr : Reached s hdr) :
    ∃ x, hdr = BitVec.ofNat 64 x ∧ ((∃ c, (x, c) ∈ places Chunk.width heapStart l) ∨ x = tailOf l) := by
  induction hr with
  | first =>
    refine ⟨heapStart, by decide, ?_⟩
    cases l with
    | nil => exact .inr rfl
    | cons c l => exact .inl ⟨c, List.mem_cons_self⟩
  | next _ hsize hv hnext ih =>
    obtain ⟨x, rfl, ⟨c, hx⟩ | rfl⟩ := ih
    · obtain ⟨-, -, -, hnext'⟩ := h.at_chunk hx
      obtain ⟨pre, post, rfl, rfl⟩ := Tiling.split hx
      refine ⟨stop Chunk.width heapStart pre + 24 + c.size, Option.some.inj (hnext.symm.trans hnext'), ?_⟩
      have hstop : stop Chunk.width heapStart (pre ++ [c]) = stop Chunk.width heapStart pre + 24 + c.size := by
        rw [stop_append]
        exact (Nat.add_assoc _ 24 c.size).symm
      rw [← hstop]
      cases post with
      | nil => exact .inr rfl
      | cons d post =>
        refine .inl ⟨d, ?_⟩
        rw [List.append_cons]
        exact mem_places
    · have hm : Mapped s (tailOf l) (tailOf l + 24) := h.mapped.mono heapStart_le (Nat.le_refl _)
      rw [size_eq hm (Nat.le_trans h.le (by decide)), h.tail] at hsize
      exact absurd (Option.some.inj hsize).symm hv

theorem Takes.keeps {l' : List Chunk} (h : Takes l n pre l') (hx : (x, c) ∈ places Chunk.width heapStart l)
    (hc : c.inUse = true) : (x, c) ∈ places Chunk.width heapStart l' ∧ x ≠ tailOf pre := by
  have hbefore : ∀ {q}, (x, c) ∈ places Chunk.width heapStart q → x ≠ tailOf q := fun {q} hq => by
    have hhi : x + (24 + c.size) ≤ tailOf q := (within hq).2
    omega
  cases h with
  | grown =>
    rw [places_append]
    exact ⟨List.mem_append_left _ hx, hbefore hx⟩
  | @found pre post d hl hd hlt =>
    subst hl
    rw [places_append] at hx ⊢
    rcases List.mem_append.mp hx with hx | hx
    · exact ⟨List.mem_append_left _ hx, hbefore hx⟩
    rcases List.mem_cons.mp hx with hx | hx
    · obtain ⟨-, rfl⟩ := Prod.ext_iff.mp hx
      rw [hd] at hc
      cases hc
    · have hat : tailOf pre + (24 + n) + (24 + (d.size - (n + 24))) = tailOf pre + (24 + d.size) := by omega
      have hlo : tailOf pre + (24 + d.size) ≤ x := (within hx).1
      refine ⟨List.mem_append_right _ (List.mem_cons_of_mem _ (List.mem_cons_of_mem _ ?_)), by omega⟩
      change (x, c) ∈ places Chunk.width (tailOf pre + (24 + n) + (24 + (d.size - (n + 24)))) post
      rw [hat]
      exact hx

theorem Takes.block {l' : List Chunk} (h : Takes l n pre l') :
    (tailOf pre, ⟨true, n⟩) ∈ places Chunk.width heapStart l' := by
  cases h with
  | found => exact mem_places
  | grown => exact mem_places

/-- Every block that was returned is that of a chunk in use, and of one only. -/
structure Holds (s : Space) (es : List (U64 × U64)) (l : List Chunk) : Prop where
  heap : Represents s l
  block : ∀ e ∈ es, e.2 ≠ 0 → ∃ x, (x, ⟨true, e.1.toNat⟩) ∈ places Chunk.width heapStart l ∧ e.2 = BitVec.ofNat 64 (x + 24)
  distinct : es.Pairwise fun e e' => e.2 ≠ 0 → e'.2 ≠ 0 → e.2 ≠ e'.2

variable {es : List (U64 × U64)} {e : U64 × U64} {y : U64}

theorem Holds.owns (h : Holds s es l) (he : e ∈ es) (hy : Owns e y) : ∃ x, (x, ⟨true, e.1.toNat⟩) ∈ places Chunk.width heapStart l ∧
    e.2 = BitVec.ofNat 64 (x + 24) ∧ x + 24 ≤ y.toNat ∧ y.toNat < x + 24 + e.1.toNat ∧ x + 24 + e.1.toNat ≤ tailOf l := by
  obtain ⟨h0, i, hi, rfl⟩ := hy
  obtain ⟨x, hx, he2⟩ := h.block e he h0
  obtain ⟨-, hle, -⟩ := h.heap.at_chunk hx
  have hend := h.heap.le
  unfold heapEnd at hend
  simp only at hle
  have hnat : (e.2 + BitVec.ofNat 64 i).toNat = x + 24 + i := by
    rw [he2, ofNat_add, toNat_ofNat_lt (by omega)]
  exact ⟨x, hx, he2, by omega, by omega, hle⟩

theorem Holds.safe (h : Holds s es l) : Safe s es := by
  have hend := h.heap.le
  refine ⟨fun e he y hy => ?_, ?_, fun hdr hreach i hi e he hy => ?_⟩
  · obtain ⟨x, hx, -, hlo, hhi, hle⟩ := h.owns he hy
    obtain ⟨hstart, -⟩ := within hx
    refine ⟨?_, ?_, ?_⟩
    · have hm := h.heap.mapped y.toNat (by omega) (by omega)
      rwa [BitVec.ofNat_toNat, BitVec.setWidth_eq] at hm
    · exact BitVec.le_def.mpr (show heapStart ≤ y.toNat by omega)
    · exact BitVec.lt_def.mpr (show y.toNat < heapEnd by omega)
  · refine (List.Pairwise.and_mem.mp h.distinct).imp fun {e e'} hee y hy hy' => ?_
    obtain ⟨he, he', hne⟩ := hee
    obtain ⟨x, hx, he2, hlo, hhi, -⟩ := h.owns he hy
    obtain ⟨x', hx', he2', hlo', hhi', -⟩ := h.owns he' hy'
    rcases Tiling.apart hx hx' with heq | happart
    · obtain ⟨rfl, -⟩ := Prod.ext_iff.mp heq
      exact hne hy.1 hy'.1 (he2.trans he2'.symm)
    · have hw : (Chunk.mk true e.1.toNat).width = 24 + e.1.toNat := rfl
      have hw' : (Chunk.mk true e'.1.toNat).width = 24 + e'.1.toNat := rfl
      omega
  · obtain ⟨x, hx, -, hlo, hhi, hle⟩ := h.owns he hy
    obtain ⟨a, rfl, ha⟩ := h.heap.reached hreach
    unfold heapEnd at hend
    have hw : (Chunk.mk true e.1.toNat).width = 24 + e.1.toNat := rfl
    have hatail : a ≤ tailOf l := by
      rcases ha with ⟨c, ha⟩ | rfl
      · have hle : a + (24 + c.size) ≤ tailOf l := (within ha).2
        omega
      · exact Nat.le_refl _
    rw [ofNat_add, toNat_ofNat_lt (by omega)] at hlo hhi
    rcases ha with ⟨c, ha⟩ | rfl
    · have hwc : c.width = 24 + c.size := rfl
      rcases Tiling.apart hx ha with heq | happart
      · obtain ⟨rfl, -⟩ := Prod.ext_iff.mp heq
        omega
      · omega
    · omega

theorem findChunk_mono {size hdr r : U64} {k' : Nat} (h : findChunk s size hdr k = some r) (hk : k ≤ k') :
    findChunk s size hdr k' = some r := by
  induction k generalizing hdr k' with
  | zero => cases h
  | succ k ih =>
    obtain ⟨k', rfl⟩ : ∃ j, k' = j + 1 := ⟨k' - 1, by omega⟩
    rw [findChunk] at h ⊢
    obtain ⟨v, hv, h⟩ := Option.bind_eq_some_iff.mp h
    rw [Option.bind_eq_bind, hv, Option.bind_some]
    split at h
    next h0 => rwa [if_pos h0]
    next h0 =>
      obtain ⟨u, hu, h⟩ := Option.bind_eq_some_iff.mp h
      rw [if_neg h0, Option.bind_eq_bind, hu, Option.bind_some]
      split at h
      next hskip =>
        obtain ⟨hdr', hnext, h⟩ := Option.bind_eq_some_iff.mp h
        rw [if_pos hskip, hnext, Option.bind_some]
        exact ih h (Nat.le_of_succ_le_succ hk)
      next hskip => rwa [if_neg hskip]

theorem malloc_mono {r : Space × U64} {k' : Nat} (h : malloc s v k = some r) (hk : k ≤ k') : malloc s v k' = some r := by
  unfold malloc at h ⊢
  split at h
  next h0 => rwa [if_pos h0]
  next h0 =>
    rw [if_neg h0]
    obtain ⟨hdr, hfind, h⟩ := Option.bind_eq_some_iff.mp h
    simp only [Option.bind_eq_bind]
    rw [findChunk_mono hfind hk]
    exact h

theorem malloc_unique {r r' : Space × U64} {k' : Nat} (h : malloc s v k = some r) (h' : malloc s v k' = some r') : r = r' := by
  rcases Nat.le_total k k' with hk | hk
  · exact Option.some.inj ((malloc_mono h hk).symm.trans h')
  · exact Option.some.inj (h.symm.trans (malloc_mono h' hk))

theorem Holds.step (h : Holds s es l) (hstep : RoomyStep s e s') : ∃ l', Holds s' (es ++ [e]) l' := by
  obtain ⟨⟨l₀, hdec, hroom⟩, fuel, hrun⟩ := hstep
  obtain rfl := h.heap.toDecodes.unique hdec
  obtain ⟨n, p⟩ := e
  by_cases hn : n = 0
  · subst hn
    rw [malloc_zero] at hrun
    obtain ⟨rfl, rfl⟩ : s = s' ∧ (0 : U64) = p := by simpa using hrun
    refine ⟨l, h.heap, fun e he h0 => ?_, ?_⟩
    · rcases List.mem_append.mp he with he | he
      · exact h.block e he h0
      · rw [List.mem_singleton.mp he] at h0
        exact absurd rfl h0
    · refine List.pairwise_append.mpr ⟨h.distinct, List.pairwise_singleton _ _, fun e _ e' he' _ h0 => ?_⟩
      rw [List.mem_singleton.mp he'] at h0
      exact absurd rfl h0
  have hnat : n.toNat ≠ 0 := fun e => hn (BitVec.eq_of_toNat_eq e)
  obtain ⟨k, s₁, pre, l', hspec, htakes, hrep⟩ := malloc_spec h.heap hroom hnat
  rw [BitVec.ofNat_toNat, BitVec.setWidth_eq] at hspec
  have heq := malloc_unique hrun hspec
  obtain rfl : s' = s₁ := congrArg Prod.fst heq
  obtain rfl : p = BitVec.ofNat 64 (tailOf pre + 24) := congrArg Prod.snd heq
  refine ⟨l', hrep, fun e he h0 => ?_, ?_⟩
  · rcases List.mem_append.mp he with he | he
    · obtain ⟨x, hx, he2⟩ := h.block e he h0
      exact ⟨x, (htakes.keeps hx rfl).1, he2⟩
    · rw [List.mem_singleton.mp he]
      exact ⟨tailOf pre, htakes.block, rfl⟩
  · refine List.pairwise_append.mpr ⟨h.distinct, List.pairwise_singleton _ _, fun e he e' he' h0 _ heq => ?_⟩
    obtain ⟨x, hx, he2⟩ := h.block e he h0
    obtain ⟨-, hxle, -⟩ := h.heap.at_chunk hx
    obtain ⟨-, hple, -⟩ := hrep.at_chunk htakes.block
    have hle := h.heap.le
    have hle' := hrep.le
    unfold heapEnd at hle hle'
    rw [List.mem_singleton.mp he', he2] at heq
    have hnum := congrArg BitVec.toNat heq
    simp only at hxle hple hnum
    rw [toNat_ofNat_lt (by omega), toNat_ofNat_lt (by omega)] at hnum
    exact (htakes.keeps hx rfl).2 (by omega)

def initialChunks : List Chunk := [⟨false, 0x1000 - 48⟩]

theorem mallocInit_spec (s : Space) : ∃ s', mallocInit s = some s' ∧ Represents s' initialChunks ∧
    s'.mem.read64 (tailOf initialChunks + 16) = 4048 ∧
    s'.pages = (vmmRequestAt s KERNEL_HEAP_VIRTUAL_START 1).pages := by
  obtain ⟨t, ht⟩ : ∃ t, t = vmmRequestAt s KERNEL_HEAP_VIRTUAL_START 1 := ⟨_, rfl⟩
  have hstart : KERNEL_HEAP_VIRTUAL_START = BitVec.ofNat 64 heapStart := by decide
  have hmap : Mapped t heapStart (heapStart + 0x1000) := by
    rw [ht, hstart]
    exact vmmRequestAt_mapped (n := 1) (by decide) (by decide)
  have hhead : Mapped t heapStart (heapStart + 24) := hmap.mono (Nat.le_refl _) (by decide)
  have htail : Mapped t (heapStart + 4072) (heapStart + 4072 + 24) := hmap.mono (by decide) (by decide)
  have hsize : allocSize - 2 * sizeofChunkHdr = 4048 := by decide
  have hpages : (allocSize / 0x1000).toNat = 1 := by decide
  have hhdr : Header (putHeader t.mem heapStart 4048 0 false) heapStart ⟨false, 4048⟩ := putHeader_header
  refine ⟨{ t with mem := putHeader (putHeader t.mem heapStart 4048 0 false) (heapStart + 4072) 0 4048 true }, ?_,
    ⟨⟨?_, ?_⟩, hmap.mem.mono (Nat.le_refl _) (by decide), by decide, by decide⟩, putHeader_sizePrev, by rw [ht]⟩
  · rw [mallocInit]
    simp only [Option.bind_eq_bind, hpages, hsize]
    rw [← ht, hstart, setSize_eq hhead (by decide), Option.bind_some, setInUse_eq hhead.mem (by decide), Option.bind_some,
      setSizePrev_eq hhead.mem (by decide), Option.bind_some]
    have hput : ((t.mem.write64 (heapStart + 8) 4048).setByte heapStart (if false then 1 else 0)).write64
        (heapStart + 16) 0 = putHeader t.mem heapStart 4048 0 false := rfl
    simp only [hput]
    rw [nextHdr_eq hhead.mem (by decide), Option.bind_some]
    simp only
    rw [hhdr.2, show heapStart + 24 + (Chunk.mk false 4048).size = heapStart + 4072 by rfl, setSize_eq htail.mem (by decide), Option.bind_some, setInUse_eq htail.mem (by decide), Option.bind_some,
      size_eq hhead.mem (by decide), Option.bind_some, setSizePrev_eq htail.mem (by decide)]
    have hkept : ∀ k, heapStart + 8 ≤ k → k < heapStart + 8 + 8 →
        ((putHeader t.mem heapStart 4048 0 false).write64 (heapStart + 4072 + 8) 0).setByte (heapStart + 4072) 1 k =
          putHeader t.mem heapStart 4048 0 false k := fun k hk hk' => by
      rw [Mem.setByte_ne (by omega), Mem.write64_outside (by omega)]
    simp only [if_true]
    rw [Mem.read64_congr hkept, putHeader_size]
    rfl
  · refine chunks_cons.mpr ⟨⟨hhdr.congr fun k hk hk' => ?_, by decide⟩, chunks_nil⟩
    exact putHeader_outside (by omega)
  · exact putHeader_size

/-- In a run of calls that all find room, every block that was returned is the
caller's alone, and the next call with room returns. -/
theorem malloc_safe {s₀ : Space} (hinit : mallocInit s₀ = some s) (hrun : Transition.Trace RoomyStep s es s') :
    Safe s' es ∧ ∀ n, RoomyIn s' n → ∃ e s'', e.1 = n ∧ MallocStep s' e s'' := by
  obtain ⟨s₁, hinit', hrep, -⟩ := mallocInit_spec s₀
  obtain rfl := Option.some.inj (hinit.symm.trans hinit')
  have hholds : ∃ l, Holds s' es l := by
    clear hinit hinit'
    induction hrun with
    | nil => exact ⟨_, hrep, fun e he => (by cases he), List.Pairwise.nil⟩
    | snoc _ hstep ih =>
      obtain ⟨l, hl⟩ := ih
      exact hl.step hstep
  obtain ⟨l, hl⟩ := hholds
  refine ⟨hl.safe, fun n ⟨l₀, hdec, hroom⟩ => ?_⟩
  obtain rfl := hl.heap.toDecodes.unique hdec
  by_cases hn : n = 0
  · subst hn
    exact ⟨(0, 0), s', rfl, 0, malloc_zero⟩
  · obtain ⟨k, s'', pre, -, hspec, -⟩ := malloc_spec hl.heap hroom fun e => hn (BitVec.eq_of_toNat_eq e)
    rw [BitVec.ofNat_toNat, BitVec.setWidth_eq] at hspec
    exact ⟨(n, _), s'', rfl, k, hspec⟩

def blank : Space := ⟨fun _ => 0, fun _ => false⟩

theorem Takes.block_ne_zero {l' : List Chunk} (h : Takes l n pre l') (hrep : Represents s' l') :
    BitVec.ofNat 64 (tailOf pre + 24) ≠ 0 := by
  have hle := hrep.le
  have hin := within h.block
  unfold heapEnd at hle
  simp only [Chunk.width, tailOf] at hin hle
  exact ofNat_ne_zero (Nat.succ_ne_zero _) (by unfold tailOf; omega)

theorem Takes.roomy_again {l' : List Chunk} (h : Takes initialChunks 100 pre l') : Roomy l' 100 := by
  cases h with
  | @found _ post c hl hc hlt =>
    cases pre with
    | nil =>
      obtain ⟨rfl, rfl⟩ := List.cons.inj hl
      exact .inr ⟨by decide, show 100 + 24 < 4096 - 48 - 124 by decide⟩
    | cons b pre => exact absurd (List.cons.inj hl).2 (by simp)
  | grown => exact .inr ⟨by decide, show 100 + 24 < 4096 - 48 by decide⟩

theorem two_calls (s₀ : Space) : ∃ s s' s'' e e', mallocInit s₀ = some s ∧ RoomyStep s e s' ∧ RoomyStep s' e' s'' ∧
    (e.1 = 100#64 ∧ e.2 ≠ 0) ∧ e'.1 = 100#64 ∧ e'.2 ≠ 0 := by
  obtain ⟨s, hinit, hrep, -⟩ := mallocInit_spec s₀
  have hroom : Roomy initialChunks 100 := .inr ⟨by decide, show 100 + 24 < 4096 - 48 by decide⟩
  obtain ⟨k, s', pre, l', hrun, htakes, hrep'⟩ := malloc_spec hrep hroom (by decide)
  obtain ⟨k', s'', pre', l'', hrun', htakes', hrep''⟩ := malloc_spec hrep' htakes.roomy_again (by decide)
  exact ⟨s, s', s'', (100#64, _), (100#64, _), hinit, ⟨⟨_, hrep.toDecodes, hroom⟩, k, hrun⟩,
    ⟨⟨_, hrep'.toDecodes, htakes.roomy_again⟩, k', hrun'⟩, ⟨rfl, htakes.block_ne_zero hrep'⟩, rfl,
    htakes'.block_ne_zero hrep''⟩

theorem malloc_safe_first : ∃ s s' e e', mallocInit blank = some s ∧ Transition.Trace RoomyStep s [e, e'] s' ∧
    (e.1 = 100#64 ∧ e.2 ≠ 0) ∧ (e'.1 = 100#64 ∧ e'.2 ≠ 0) ∧ Safe s' [e, e'] := by
  obtain ⟨s, s₁, s', e, e', hinit, hfirst, hsecond, he, he'⟩ := two_calls blank
  have hrun : Transition.Trace RoomyStep s [e, e'] s' := .snoc (.single hfirst) hsecond
  exact ⟨s, s', e, e', hinit, hrun, he, he', (malloc_safe hinit hrun).1⟩

/-- `n` plus the size of a header wraps around: the block would reach over all
of memory. -/
theorem malloc_wraps : ∃ s s' e, mallocInit blank = some s ∧ Transition.Trace MallocStep s [e] s' ∧ ¬Safe s' [e] := by
  have hrun : ((mallocInit blank).bind fun s => (malloc s (BitVec.allOnes 64) 1).map fun r => (s, r)).map (·.2.2) =
      some (KERNEL_HEAP_VIRTUAL_START + sizeofChunkHdr) := by decide +kernel
  obtain ⟨⟨s, s', p⟩, hrun, rfl⟩ := Option.map_eq_some_iff.mp hrun
  obtain ⟨s₁, hinit, hmalloc⟩ := Option.bind_eq_some_iff.mp hrun
  obtain ⟨r, hmalloc, hr⟩ := Option.map_eq_some_iff.mp hmalloc
  obtain ⟨rfl, rfl⟩ : s₁ = s ∧ r = (s', KERNEL_HEAP_VIRTUAL_START + sizeofChunkHdr) := by simpa using hr
  refine ⟨s₁, s', (BitVec.allOnes 64, _), hinit, .single ⟨1, hmalloc⟩, fun h => ?_⟩
  have hzero : Owns (BitVec.allOnes 64, KERNEL_HEAP_VIRTUAL_START + sizeofChunkHdr) 0 :=
    ⟨by decide, 0x7effffffffe8, by decide, by decide⟩
  exact absurd (h.inside _ List.mem_cons_self 0 hzero).2.1 (by decide)

end ShedOS.Heap
