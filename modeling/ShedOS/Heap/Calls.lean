import ShedOS.Heap.Malloc

/-!
# Calls of malloc that return

What a call has done to the list of chunks when it comes back, whatever pages
are mapped: an access that did not fault was to memory that was there.
-/

namespace ShedOS.Heap

open Bytes Tiling
open Memory (U64 addrPageAlignUp)

variable {s s' : Space} {a b n k x old fuel : Nat} {v w size p : U64} {u : Bool} {c : Chunk} {l pre post : List Chunk}

-- ---------------------------------------------------------------------------
-- Accesses that did not fault
-- ---------------------------------------------------------------------------

section Accesses

variable (hb : a + 24 ≤ 2 ^ 64)

include hb

theorem size_some (h : s.size (BitVec.ofNat 64 a) = some v) : s.mem.read64 (a + 8) = v := by
  rw [Space.size, Space.load, show BitVec.ofNat 64 a + 8 = BitVec.ofNat 64 (a + 8) from ofNat_add,
    toNat_ofNat_lt (by omega)] at h
  split at h
  · exact Option.some.inj h
  · cases h

theorem sizePrev_some (h : s.sizePrev (BitVec.ofNat 64 a) = some v) : s.mem.read64 (a + 16) = v := by
  rw [Space.sizePrev, Space.load, show BitVec.ofNat 64 a + 16 = BitVec.ofNat 64 (a + 16) from ofNat_add,
    toNat_ofNat_lt (by omega)] at h
  split at h
  · exact Option.some.inj h
  · cases h

theorem inUse_some (h : s.inUse (BitVec.ofNat 64 a) = some u) : (s.mem a != 0) = u := by
  rw [Space.inUse, Space.loadBool, toNat_ofNat_lt (by omega)] at h
  split at h
  · exact Option.some.inj h
  · cases h

theorem setSize_some (h : s.setSize (BitVec.ofNat 64 a) v = some s') : s' = { s with mem := s.mem.write64 (a + 8) v } := by
  rw [Space.setSize, Space.store, show BitVec.ofNat 64 a + 8 = BitVec.ofNat 64 (a + 8) from ofNat_add,
    toNat_ofNat_lt (by omega)] at h
  split at h
  · exact (Option.some.inj h).symm
  · cases h

theorem setSizePrev_some (h : s.setSizePrev (BitVec.ofNat 64 a) v = some s') :
    s' = { s with mem := s.mem.write64 (a + 16) v } := by
  rw [Space.setSizePrev, Space.store, show BitVec.ofNat 64 a + 16 = BitVec.ofNat 64 (a + 16) from ofNat_add,
    toNat_ofNat_lt (by omega)] at h
  split at h
  · exact (Option.some.inj h).symm
  · cases h

theorem setInUse_some (h : s.setInUse (BitVec.ofNat 64 a) u = some s') :
    s' = { s with mem := s.mem.setByte a (if u then 1 else 0) } := by
  rw [Space.setInUse, Space.storeBool, toNat_ofNat_lt (by omega)] at h
  split at h
  · exact (Option.some.inj h).symm
  · cases h

theorem nextHdr_some (h : nextHdr s (BitVec.ofNat 64 a) = some v) :
    v = BitVec.ofNat 64 (a + 24 + (s.mem.read64 (a + 8)).toNat) := by
  obtain ⟨w, hw, h⟩ := Option.bind_eq_some_iff.mp h
  obtain rfl := Option.some.inj h
  rw [size_some hb hw, sizeofChunkHdr]
  bv_omega

end Accesses

-- ---------------------------------------------------------------------------
-- The parts of malloc
-- ---------------------------------------------------------------------------

theorem findChunk_some (hc : Chunks s.mem a l) (ht : s.mem.read64 (stop Chunk.width a l + 8) = 0)
    (hb : stop Chunk.width a l + 24 ≤ 2 ^ 64) (h : findChunk s size (BitVec.ofNat 64 a) fuel = some w) :
    ∃ pre post, l = pre ++ post ∧ w = BitVec.ofNat 64 (stop Chunk.width a pre) ∧
      (∀ c ∈ pre, c.fits size.toNat = false) ∧ ∀ c ∈ post.head?, c.fits size.toNat = true := by
  induction l generalizing a fuel with
  | nil =>
    cases fuel with
    | zero => cases h
    | succ fuel =>
      obtain ⟨v, hv, h⟩ := Option.bind_eq_some_iff.mp h
      rw [stop] at ht hb
      rw [← size_some hb hv, if_pos ht] at h
      exact ⟨[], [], rfl, (Option.some.inj h).symm, fun _ hc => (by cases hc), fun _ hc => (by cases hc)⟩
  | cons c l ih =>
    obtain ⟨⟨⟨hu, hsize⟩, h0⟩, hrest⟩ := chunks_cons.mp hc
    have hle : a + c.width ≤ stop Chunk.width a (c :: l) := le_stop
    have hwidth : a + c.width = a + 24 + c.size := (Nat.add_assoc a 24 c.size).symm
    have hba : a + 24 ≤ 2 ^ 64 := by omega
    cases fuel with
    | zero => cases h
    | succ fuel =>
      obtain ⟨v, hv, h⟩ := Option.bind_eq_some_iff.mp h
      have hne : s.mem.read64 (a + 8) ≠ 0 := fun e => h0 (by rw [← hsize, e]; rfl)
      rw [← size_some hba hv, if_neg hne] at h
      obtain ⟨u, hin, h⟩ := Option.bind_eq_some_iff.mp h
      obtain rfl : c.inUse = u := hu.symm.trans (inUse_some hba hin)
      have hfits : c.fits size.toNat = !(c.inUse || decide (s.mem.read64 (a + 8) < size)) := by
        have hlt : s.mem.read64 (a + 8) < size ↔ c.size < size.toNat := by rw [BitVec.lt_def, hsize]
        rw [Chunk.fits, Bool.not_or, decide_eq_decide.mpr hlt, ← decide_not]
        simp only [Nat.not_lt]
      split at h
      next hskip =>
        obtain ⟨v', hnext, h⟩ := Option.bind_eq_some_iff.mp h
        have hv' := nextHdr_some hba hnext
        rw [hsize, ← hwidth] at hv'
        subst hv'
        obtain ⟨pre, post, rfl, hw, hpre, hpost⟩ := ih hrest ht hb h
        refine ⟨c :: pre, post, rfl, hw, fun d hd => ?_, hpost⟩
        rcases List.mem_cons.mp hd with rfl | hd
        · rw [hfits, hskip]
          rfl
        · exact hpre d hd
      next hskip =>
        refine ⟨[], c :: l, rfl, (Option.some.inj h).symm, fun _ hc => (by cases hc), fun d hd => ?_⟩
        obtain rfl := Option.some.inj hd
        rw [hfits, Bool.not_eq_true _ |>.mp hskip]
        rfl

theorem newHeader_some (hab : a + 24 ≤ b) (hb : b + 24 ≤ 2 ^ 64)
    (h : (do
      let s ← s.setSize (BitVec.ofNat 64 b) v
      let s ← s.setInUse (BitVec.ofNat 64 b) u
      s.setSizePrev (BitVec.ofNat 64 b) (← s.size (BitVec.ofNat 64 a))) = some s') :
    s' = { s with mem := putHeader s.mem b v (s.mem.read64 (a + 8)) u } := by
  obtain ⟨s₁, hs₁, h⟩ := Option.bind_eq_some_iff.mp h
  obtain ⟨s₂, hs₂, h⟩ := Option.bind_eq_some_iff.mp h
  obtain ⟨w, hw, h⟩ := Option.bind_eq_some_iff.mp h
  have hs₁ := setSize_some hb hs₁
  have hs₂ := setInUse_some hb hs₂
  have hw := size_some (by omega) hw
  have hkept : ∀ k, a + 8 ≤ k → k < a + 8 + 8 → s₂.mem k = s.mem k := fun k hk hk' => by
    rw [hs₂, hs₁]
    simp only
    rw [Mem.setByte_ne (by omega), Mem.write64_outside (by omega)]
  rw [Mem.read64_congr hkept] at hw
  rw [setSizePrev_some hb h, hs₂, hs₁, hw]
  rfl

theorem splitChunk_some (hb : a + 24 + n + 24 ≤ 2 ^ 64) (hold : (s.mem.read64 (a + 8)).toNat = old)
    (h : splitChunk s (BitVec.ofNat 64 a) (BitVec.ofNat 64 n + sizeofChunkHdr) = some s') :
    s' = { s with mem := splitMem s.mem a n old } := by
  have hba : a + 24 ≤ 2 ^ 64 := by omega
  have hn : BitVec.ofNat 64 n + sizeofChunkHdr - sizeofChunkHdr = BitVec.ofNat 64 n := BitVec.add_sub_cancel _ _
  have hold' : s.mem.read64 (a + 8) = BitVec.ofNat 64 old := by rw [← hold, BitVec.ofNat_toNat, BitVec.setWidth_eq]
  obtain ⟨v₀, hv₀, h⟩ := Option.bind_eq_some_iff.mp h
  obtain ⟨s₁, hs₁, h⟩ := Option.bind_eq_some_iff.mp h
  obtain ⟨s₂, hs₂, h⟩ := Option.bind_eq_some_iff.mp h
  obtain ⟨hdr, hhdr, h⟩ := Option.bind_eq_some_iff.mp h
  have hv₀ := (size_some hba hv₀).symm.trans hold'
  have hs₁ := setSize_some hba hs₁
  have hs₂ := setInUse_some hba hs₂
  rw [hn] at hs₁
  have hread : s₂.mem.read64 (a + 8) = BitVec.ofNat 64 n := by
    rw [hs₂, hs₁]
    simp only
    rw [Mem.read64_congr fun k hk hk' => Mem.setByte_ne (by omega), Mem.read64_write64]
  obtain rfl : hdr = BitVec.ofNat 64 (a + 24 + n) := by
    rw [nextHdr_some hba hhdr, hread, toNat_ofNat_lt (by omega)]
  rw [newHeader_some (by omega) hb h, hread, hs₂, hs₁, hv₀]
  rfl

theorem growHeap_some {count : U64} (hcount : count.toNat = k) (hk : 0 < k) (hb : a + 24 + 0x1000 * k < 2 ^ 64)
    (h : growHeap s (BitVec.ofNat 64 a) count = some s') :
    s' = { vmmRequestAt s (BitVec.ofNat 64 (a + 24)) k with mem := growMem s.mem a k } := by
  have hba : a + 24 ≤ 2 ^ 64 := by omega
  have hbn : a + 0x1000 * k + 24 ≤ 2 ^ 64 := by omega
  have hsize : count * 0x1000 - sizeofChunkHdr = BitVec.ofNat 64 (0x1000 * k - 24) := by
    subst hcount
    rw [sizeofChunkHdr]
    bv_omega
  have hregion : BitVec.ofNat 64 a + sizeofChunkHdr = BitVec.ofNat 64 (a + 24) := ofNat_add
  rw [growHeap, hregion, hsize, hcount] at h
  obtain ⟨s₁, hs₁, h⟩ := Option.bind_eq_some_iff.mp h
  obtain ⟨hdr, hhdr, h⟩ := Option.bind_eq_some_iff.mp h
  have hs₁ := setSize_some hba hs₁
  rw [vmmRequestAt_mem] at hs₁
  have hread : s₁.mem.read64 (a + 8) = BitVec.ofNat 64 (0x1000 * k - 24) := by
    rw [hs₁]
    exact Mem.read64_write64
  obtain rfl : hdr = BitVec.ofNat 64 (a + 0x1000 * k) := by
    rw [nextHdr_some hba hhdr, hread, toNat_ofNat_lt (by omega)]
    congr 1
    omega
  rw [newHeader_some (by omega) hbn h, hread, hs₁]
  rfl

-- ---------------------------------------------------------------------------
-- malloc
-- ---------------------------------------------------------------------------

/-- What a call for `n` bytes has done to a heap with the chunks `l`. -/
inductive Did (s : Space) (l : List Chunk) (n : Nat) : Space → U64 → Prop
  | nothing (hn : n = 0) : Did s l n s 0
  | full (hnone : ∀ c ∈ l, c.fits (n + 24) = false) (hfull : heapEnd < tailOf l + 24) : Did s l n s 0
  | found {pre post : List Chunk} {c : Chunk} (hn : n ≠ 0) (hl : l = pre ++ c :: post) (hpre : ∀ d ∈ pre, d.fits (n + 24) = false)
      (hc : c.fits (n + 24) = true) : Did s l n { s with mem := splitMem s.mem (tailOf pre) n c.size }
        (BitVec.ofNat 64 (tailOf pre + 24))
  | grown {k : Nat} (hn : n ≠ 0) (hk : k = pageCount (n + 24)) (hnone : ∀ c ∈ l, c.fits (n + 24) = false)
      (hle : tailOf l + 24 ≤ heapEnd) :
      Did s l n { vmmRequestAt s (BitVec.ofNat 64 (tailOf l + 24)) k with
          mem := splitMem (growMem s.mem (tailOf l) k) (tailOf l) n (0x1000 * k - 24) }
        (BitVec.ofNat 64 (tailOf l + 24))

def Appendable (l : List Chunk) (n : Nat) : Prop :=
  n + 24 < 2 ^ 64 ∧ ((∀ c ∈ l, c.fits (n + 24) = false) → tailOf l + 24 ≤ heapEnd →
    tailOf l + 24 + 0x1000 * pageCount (n + 24) < 2 ^ 64)

/-- The branch of `malloc` that grows the heap. -/
theorem Did.of_grow {s₁ : Space} (hb : tailOf l + 24 < 2 ^ 64) (hn : n ≠ 0) (hnone : ∀ c ∈ l, c.fits (n + 24) = false)
    (hroom : tailOf l + 24 ≤ heapEnd) (hend : tailOf l + 24 + 0x1000 * pageCount (n + 24) < 2 ^ 64)
    (hgrow : growHeap s (BitVec.ofNat 64 (tailOf l)) (addrPageAlignUp (BitVec.ofNat 64 (n + 24)) / 0x1000) = some s₁)
    (hsplit : splitChunk s₁ (BitVec.ofNat 64 (tailOf l)) (BitVec.ofNat 64 n + sizeofChunkHdr) = some s') :
    Did s l n s' (BitVec.ofNat 64 (tailOf l + 24)) := by
  have hceil : n + 24 ≤ 0x1000 * pageCount (n + 24) := by
    unfold pageCount
    omega
  have hcount : (addrPageAlignUp (BitVec.ofNat 64 (n + 24)) / 0x1000).toNat = pageCount (n + 24) := by
    refine Memory.addrPageAlignUp_div ?_
    unfold pageCount heapEnd at *
    have hstart : heapStart ≤ tailOf l := heapStart_le
    unfold heapStart at hstart
    omega
  obtain ⟨k, hk⟩ : ∃ k, k = pageCount (n + 24) := ⟨_, rfl⟩
  rw [← hk] at hcount hceil hend
  have hs₁ := growHeap_some hcount (by omega) hend hgrow
  have hlast : (s₁.mem.read64 (tailOf l + 8)).toNat = 0x1000 * k - 24 := by
    have hchunk := growMem_chunk (m := s.mem) (a := tailOf l) (k := k) (by omega) (by omega)
    rw [hs₁]
    exact (chunks_cons.mp hchunk).1.1.2
  rw [splitChunk_some (by omega) hlast hsplit, hs₁]
  exact .grown hn hk hnone hroom

theorem malloc_did (h : Decodes s l) (hb : tailOf l + 24 < 2 ^ 64) (happend : n ≠ 0 → Appendable l n)
    (hrun : malloc s (BitVec.ofNat 64 n) fuel = some (s', p)) (hn64 : n < 2 ^ 64) : Did s l n s' p := by
  by_cases hn : n = 0
  · subst hn
    obtain ⟨rfl, rfl⟩ := Prod.mk.inj (Option.some.inj hrun)
    exact .nothing rfl
  obtain ⟨hwrap, happend⟩ := happend hn
  have hn0 : BitVec.ofNat 64 n ≠ 0 := fun e => hn (by
    rw [← toNat_ofNat_lt hn64, e]
    rfl)
  have hsum : BitVec.ofNat 64 n + sizeofChunkHdr = BitVec.ofNat 64 (n + 24) := ofNat_add
  have hsize : (BitVec.ofNat 64 n + sizeofChunkHdr).toNat = n + 24 := by rw [hsum, toNat_ofNat_lt hwrap]
  have hptr : ∀ {a}, BitVec.ofNat 64 a + sizeofChunkHdr = BitVec.ofNat 64 (a + 24) := ofNat_add
  rw [malloc, if_neg hn0, show KERNEL_HEAP_VIRTUAL_START = BitVec.ofNat 64 heapStart by decide] at hrun
  obtain ⟨hdr, hfind, hrun⟩ := Option.bind_eq_some_iff.mp hrun
  obtain ⟨pre, post, rfl, rfl, hpre, hpost⟩ := findChunk_some h.chunks h.tail (Nat.le_of_lt hb) hfind
  rw [hsize] at hpre hpost
  obtain ⟨v, hv, hrun⟩ := Option.bind_eq_some_iff.mp hrun
  have hbpre : tailOf pre + 24 ≤ 2 ^ 64 := by
    have hpre : tailOf pre ≤ tailOf (pre ++ post) := tailOf_le
    omega
  obtain rfl := size_some hbpre hv
  cases post with
  | nil =>
    rw [List.append_nil] at h hb happend ⊢
    rw [if_pos (show s.mem.read64 (tailOf pre + 8) = 0 from h.tail)] at hrun
    have hcompare : (BitVec.ofNat 64 (tailOf pre) + sizeofChunkHdr > KERNEL_HEAP_VIRTUAL_END) ↔
        heapEnd < tailOf pre + 24 := by
      rw [hptr, gt_iff_lt, BitVec.lt_def, toNat_ofNat_lt hb]
      rfl
    split at hrun
    next hfull =>
      obtain ⟨rfl, rfl⟩ := Prod.mk.inj (Option.some.inj hrun)
      exact .full hpre (hcompare.mp hfull)
    next hroom =>
      have hroom : tailOf pre + 24 ≤ heapEnd := Nat.le_of_not_lt fun hlt => hroom (hcompare.mpr hlt)
      have hend := happend hpre hroom
      obtain ⟨s₁, hgrow, hrun⟩ := Option.bind_eq_some_iff.mp hrun
      obtain ⟨s₂, hsplit, hrun⟩ := Option.bind_eq_some_iff.mp hrun
      obtain ⟨rfl, rfl⟩ := Prod.mk.inj (Option.some.inj hrun)
      rw [hsum] at hgrow
      rw [hptr]
      exact .of_grow hb hn hpre hroom hend hgrow hsplit
  | cons c post =>
    obtain ⟨⟨⟨-, hcsize⟩, hc0⟩, -⟩ := chunks_cons.mp (chunks_append.mp h.chunks).2
    have hcsize : (s.mem.read64 (tailOf pre + 8)).toNat = c.size := hcsize
    have hne : s.mem.read64 (tailOf pre + 8) ≠ 0 := fun e => hc0 (by
      rw [← hcsize, e]
      rfl)
    have hfits := hpost c rfl
    have hle : tailOf pre + (24 + c.size) ≤ tailOf (pre ++ c :: post) := by
      rw [tailOf_append]
      exact le_stop
    have hnle := (Chunk.fits_iff.mp hfits).2
    rw [if_neg hne] at hrun
    obtain ⟨s₂, hsplit, hrun⟩ := Option.bind_eq_some_iff.mp hrun
    obtain ⟨rfl, rfl⟩ := Prod.mk.inj (Option.some.inj hrun)
    rw [splitChunk_some (by omega) hcsize hsplit, hptr]
    exact .found hn rfl hpre hfits

end ShedOS.Heap
