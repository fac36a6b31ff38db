import ShedOS.Heap.Malloc

/-!
# mfree

When freeing a block of a well-formed heap leaves it well formed. `PREV_HDR`
takes the size of the wrong chunk, and a merge leaves a wrong `size_prev`
behind.
-/

namespace ShedOS.Heap

open Bytes Tiling
open Memory (U64)

/-- Every header has the size of the chunk before it, the last one too. -/
def Links (m : Mem) (prev a : Nat) : List Chunk → Prop
  | [] => (m.read64 (a + 16)).toNat = prev
  | c :: l => (m.read64 (a + 16)).toNat = prev ∧ Links m c.size (a + c.width) l

/-- The chunks fill the region up to a last header with size 0, in use. -/
structure WellFormed (s : Space) (l : List Chunk) : Prop extends Decodes s l where
  tailInUse : (s.mem (tailOf l) != 0) = true
  links : Links s.mem 0 heapStart l
  mapped : Mapped s heapStart (tailOf l + 24)
  le : tailOf l + 24 ≤ 2 ^ 64

def Coalesced (l : List Chunk) : Prop := l.IsChain fun c d => c.inUse = true ∨ d.inUse = true

variable {s s' : Space} {m m' : Mem} {a b n k x z prev : Nat} {v : U64} {c d : Chunk} {l l' pre post : List Chunk}

theorem links_append : Links m prev a (pre ++ c :: post) →
    Links m c.size (stop Chunk.width a pre + c.width) post := by
  intro h
  induction pre generalizing a prev with
  | nil => exact h.2
  | cons b pre ih => exact ih h.2

theorem links_head (h : Links m prev a l) : (m.read64 (a + 16)).toNat = prev := by
  cases l with
  | nil => exact h
  | cons c l => exact h.1

theorem Links.congr (h : Links m prev a l)
    (hm : ∀ x, (x = stop Chunk.width a l ∨ ∃ c, (x, c) ∈ places Chunk.width a l) → ∀ k, x + 16 ≤ k → k < x + 24 → m' k = m k) :
    Links m' prev a l := by
  induction l generalizing a prev with
  | nil =>
    unfold Links at h ⊢
    rwa [Mem.read64_congr fun k hk hk' => hm a (.inl rfl) k hk (by omega)]
  | cons c l ih =>
    refine ⟨?_, ih h.2 fun x hx => hm x (hx.imp id fun ⟨d, hd⟩ => ⟨d, List.mem_cons_of_mem _ hd⟩)⟩
    rw [Mem.read64_congr fun k hk hk' => hm a (.inr ⟨c, List.mem_cons_self⟩) k hk (by omega)]
    exact h.1

theorem chunks_prefix (hc : Chunks m a l) (ht : m.read64 (stop Chunk.width a l + 8) = 0) (hpre : Chunks m a pre) :
    ∃ l', l = pre ++ l' := by
  induction pre generalizing a l with
  | nil => exact ⟨l, rfl⟩
  | cons c pre ih =>
    obtain ⟨⟨⟨hu, hsize⟩, h0⟩, hrest⟩ := chunks_cons.mp hpre
    cases l with
    | nil =>
      rw [stop] at ht
      rw [ht] at hsize
      exact absurd hsize.symm h0
    | cons c' l =>
      obtain ⟨⟨⟨hu', hsize'⟩, -⟩, hrest'⟩ := chunks_cons.mp hc
      obtain rfl : c = c' := by
        cases c
        cases c'
        simp_all
      obtain ⟨l', rfl⟩ := ih hrest' ht hrest
      exact ⟨l', rfl⟩

theorem not_wellFormed (pre : List Chunk) (hpre : Chunks s.mem heapStart pre)
    (hz : (s.mem.read64 (tailOf pre + 8)).toNat = z) (h0 : z ≠ 0)
    (hlink : (s.mem.read64 (tailOf pre + (24 + z) + 16)).toNat ≠ z) : ¬WellFormed s l := by
  intro h
  obtain ⟨l', rfl⟩ := chunks_prefix h.chunks h.tail hpre
  have hlinks := h.links
  cases l' with
  | nil =>
    have htail := h.tail
    rw [List.append_nil] at htail
    rw [htail] at hz
    exact h0 hz.symm
  | cons c l' =>
    obtain ⟨⟨⟨-, hsize⟩, -⟩, -⟩ := chunks_cons.mp (chunks_append.mp h.chunks).2
    obtain rfl : c.size = z := hsize.symm.trans hz
    exact hlink (links_head (links_append hlinks))

-- ---------------------------------------------------------------------------
-- The two merges
-- ---------------------------------------------------------------------------

theorem mergeNext_keep (hm : Mapped s a (a + 24 + z + 24)) (hb : a + 24 + z + 24 ≤ 2 ^ 64)
    (hz : (s.mem.read64 (a + 8)).toNat = z)
    (hnext : (s.mem (a + 24 + z) != 0) = true) : mergeNext s (BitVec.ofNat 64 a) = some s := by
  have hma : Mapped s a (a + 24) := hm.mono (Nat.le_refl a) (by omega)
  have hmn : Mapped s (a + 24 + z) (a + 24 + z + 24) := hm.mono (by omega) (Nat.le_refl _)
  rw [mergeNext]
  simp only [Option.bind_eq_bind]
  rw [nextHdr_eq hma (by omega), Option.bind_some, hz, inUse_eq hmn hb, Option.bind_some, size_eq hmn hb,
    Option.bind_some, hnext]
  rfl

theorem mergeNext_merge (hm : Mapped s a (a + 24 + z + 24 + n + 24)) (hb : a + 24 + z + 24 + n + 24 ≤ 2 ^ 64)
    (hz : (s.mem.read64 (a + 8)).toNat = z) (hfree : (s.mem (a + 24 + z) != 0) = false)
    (hn : (s.mem.read64 (a + 24 + z + 8)).toNat = n) (hn0 : n ≠ 0) : mergeNext s (BitVec.ofNat 64 a) =
      some { s with
        mem := (s.mem.write64 (a + 8) (BitVec.ofNat 64 (z + (n + 24)))).write64 (a + 24 + z + 24 + n + 16)
          (BitVec.ofNat 64 n) } := by
  have hma : Mapped s a (a + 24) := hm.mono (Nat.le_refl a) (by omega)
  have hmn : Mapped s (a + 24 + z) (a + 24 + z + 24) := hm.mono (by omega) (by omega)
  have hmnn : Mapped s (a + 24 + z + 24 + n) (a + 24 + z + 24 + n + 24) := hm.mono (by omega) (Nat.le_refl _)
  have hzv : s.mem.read64 (a + 8) = BitVec.ofNat 64 z := by rw [← hz, BitVec.ofNat_toNat, BitVec.setWidth_eq]
  have hnv : s.mem.read64 (a + 24 + z + 8) = BitVec.ofNat 64 n := by
    rw [← hn, BitVec.ofNat_toNat, BitVec.setWidth_eq]
  have hne : BitVec.ofNat 64 n ≠ 0 := fun e => hn0 (by
    rw [← toNat_ofNat_lt (show n < 2 ^ 64 by omega), e]
    rfl)
  have hsum : BitVec.ofNat 64 z + (BitVec.ofNat 64 n + sizeofChunkHdr) = BitVec.ofNat 64 (z + (n + 24)) := by
    rw [sizeofChunkHdr]
    bv_omega
  have hkept : (s.mem.write64 (a + 8) (BitVec.ofNat 64 (z + (n + 24)))).read64 (a + 24 + z + 8) = BitVec.ofNat 64 n := by
    rw [Mem.read64_write64_apart (by omega), hnv]
  rw [mergeNext]
  simp only [Option.bind_eq_bind]
  rw [nextHdr_eq hma (by omega), Option.bind_some, hz, inUse_eq hmn (by omega), Option.bind_some, size_eq hmn (by omega),
    Option.bind_some, hfree, hnv]
  simp only [Bool.not_false, hne, ne_eq, not_false_eq_true, decide_true, Bool.and_self, if_true]
  rw [size_eq hma (by omega), Option.bind_some, hzv, Option.bind_some, hsum, setSize_eq hma (by omega), Option.bind_some,
    nextHdr_eq hmn.mem (by omega), Option.bind_some]
  simp only
  rw [hkept, toNat_ofNat_lt (by omega), size_eq hmn.mem (by omega), Option.bind_some, setSizePrev_eq hmnn.mem hb]
  simp only
  rw [hkept]

/-- Where `PREV_HDR` finds the chunk before the one at `a`: the size is that of
the chunk itself. -/
def wrongPrev (a size : Nat) : U64 := BitVec.ofNat 64 a - BitVec.ofNat 64 size - sizeofChunkHdr

theorem mergePrev_keep (hm : Mapped s a (a + 24)) (hb : a + 24 ≤ 2 ^ 64) (hz : (s.mem.read64 (a + 8)).toNat = z)
    (h : s.mem.read64 (a + 16) = 0 ∨ s.inUse (wrongPrev a z) = some true) :
    mergePrev s (BitVec.ofNat 64 a) = some (s, BitVec.ofNat 64 a) := by
  rw [mergePrev]
  simp only [Option.bind_eq_bind]
  rw [sizePrev_eq hm hb, Option.bind_some]
  by_cases h0 : s.mem.read64 (a + 16) = 0
  · rw [if_neg (not_not_intro h0)]
    rfl
  · have hzv : s.mem.read64 (a + 8) = BitVec.ofNat 64 z := by rw [← hz, BitVec.ofNat_toNat, BitVec.setWidth_eq]
    rw [if_pos h0, prevHdr]
    simp only [Option.bind_eq_bind, Option.pure_def]
    rw [size_eq hm hb, Option.bind_some, hzv, Option.bind_some]
    change (s.inUse (wrongPrev a z)).bind _ = _
    rw [h.resolve_left h0]
    rfl

theorem mergePrev_some (hm : Mapped s a (a + 24)) (hb : a + 24 ≤ 2 ^ 64) (hz : (s.mem.read64 (a + 8)).toNat = z)
    (h0 : s.mem.read64 (a + 16) ≠ 0) {r : Space × U64} (h : mergePrev s (BitVec.ofNat 64 a) = some r) :
    ∃ u, s.inUse (wrongPrev a z) = some u := by
  have hzv : s.mem.read64 (a + 8) = BitVec.ofNat 64 z := by rw [← hz, BitVec.ofNat_toNat, BitVec.setWidth_eq]
  rw [mergePrev] at h
  simp only [Option.bind_eq_bind] at h
  rw [sizePrev_eq hm hb, Option.bind_some, if_pos h0, prevHdr] at h
  simp only [Option.bind_eq_bind, Option.pure_def] at h
  rw [size_eq hm hb, Option.bind_some, hzv, Option.bind_some] at h
  obtain ⟨u, hu, -⟩ := Option.bind_eq_some_iff.mp h
  exact ⟨u, hu⟩

theorem mergePrev_merge (hm : Mapped s b (b + 24 + z + 24)) (hb : b + 24 + z + 24 ≤ 2 ^ 64) (ha : a = b + 24 + z)
    (hz : (s.mem.read64 (a + 8)).toNat = z) (hzb : (s.mem.read64 (b + 8)).toNat = z) (h0 : s.mem.read64 (a + 16) ≠ 0)
    (hfree : (s.mem b != 0) = false) : mergePrev s (BitVec.ofNat 64 a) =
      some ({ s with mem := s.mem.write64 (b + 8) (BitVec.ofNat 64 (z + (z + 24))) }, BitVec.ofNat 64 b) := by
  subst ha
  have hmb : Mapped s b (b + 24) := hm.mono (Nat.le_refl b) (by omega)
  have hma : Mapped s (b + 24 + z) (b + 24 + z + 24) := hm.mono (by omega) (Nat.le_refl _)
  have hzv : s.mem.read64 (b + 24 + z + 8) = BitVec.ofNat 64 z := by
    rw [← hz, BitVec.ofNat_toNat, BitVec.setWidth_eq, hz]
  have hzbv : s.mem.read64 (b + 8) = BitVec.ofNat 64 z := by rw [← hzb, BitVec.ofNat_toNat, BitVec.setWidth_eq]
  have hprev : BitVec.ofNat 64 (b + 24 + z) - BitVec.ofNat 64 z - sizeofChunkHdr = BitVec.ofNat 64 b := by
    rw [sizeofChunkHdr]
    bv_omega
  have hsum : BitVec.ofNat 64 z + (BitVec.ofNat 64 z + sizeofChunkHdr) = BitVec.ofNat 64 (z + (z + 24)) := by
    rw [sizeofChunkHdr]
    bv_omega
  rw [mergePrev]
  simp only [Option.bind_eq_bind]
  rw [sizePrev_eq hma hb, Option.bind_some, if_pos h0, prevHdr]
  simp only [Option.bind_eq_bind, Option.pure_def]
  rw [size_eq hma hb, Option.bind_some, hzv, Option.bind_some, hprev, inUse_eq hmb (by omega), Option.bind_some, hfree]
  simp only [Bool.not_false, if_true]
  rw [size_eq hmb (by omega), Option.bind_some, hzbv, Option.bind_some, hsum, setSize_eq hmb (by omega)]
  rfl

-- ---------------------------------------------------------------------------
-- Freeing a block
-- ---------------------------------------------------------------------------

/-- The chunk `c` at `a` is a free chunk of `l`, or a part of one. -/
def Freed (l : List Chunk) (a : Nat) (c : Chunk) : Prop :=
  ∃ x d, (x, d) ∈ places Chunk.width heapStart l ∧ d.inUse = false ∧ x ≤ a ∧ a + c.width ≤ x + d.width

def FreesSoundly (s : Space) (l : List Chunk) (a : Nat) : Prop :=
  ∃ s' l', mfree s (BitVec.ofNat 64 (a + 24)) = some s' ∧ WellFormed s' l' ∧
    (∀ x d, (x, d) ∈ places Chunk.width heapStart l → d.inUse = true → x ≠ a →
      (x, d) ∈ places Chunk.width heapStart l' ∧ ∀ k, x + 24 ≤ k → k < x + 24 + d.size → s'.mem k = s.mem k) ∧
    (∀ c, (a, c) ∈ places Chunk.width heapStart l → Freed l' a c) ∧ (Coalesced l → Coalesced l')

/-- `mfree` has nothing to merge, and sees it. -/
structure FreesAlone (s : Space) (pre : List Chunk) (c : Chunk) (post : List Chunk) : Prop where
  next : ∀ d ∈ post.head?, d.inUse = true
  prev : pre = [] ∨ s.inUse (wrongPrev (tailOf pre) c.size) = some true
  apart : (∀ d ∈ pre.getLast?, d.inUse = true) ∨ ¬Coalesced (pre ++ c :: post)

/-- The byte that `mfree` takes for the previous chunk's `in_use` is another
one, and zero. -/
structure Misdirected (s : Space) (pre : List Chunk) (c : Chunk) : Prop where
  notFirst : pre ≠ []
  other : ∀ d ∈ pre.getLast?, d.size ≠ c.size
  zero : s.inUse (wrongPrev (tailOf pre) c.size) = some false

def clearInUse (s : Space) (a : Nat) : Space := { s with mem := s.mem.setByte a 0 }

theorem mfree_eq (hm : Mapped s a (a + 24)) (hb : a + 24 ≤ 2 ^ 64) : mfree s (BitVec.ofNat 64 (a + 24)) =
    (mergePrev (clearInUse s a) (BitVec.ofNat 64 a)).bind fun r => mergeNext r.1 r.2 := by
  have hhdr : chunkHdr (BitVec.ofNat 64 (a + 24)) = BitVec.ofNat 64 a := by
    rw [chunkHdr, sizeofChunkHdr]
    bv_omega
  rw [mfree, hhdr]
  simp only [Option.bind_eq_bind]
  rw [setInUse_eq hm hb, Option.bind_some]
  rfl

@[simp] theorem clearInUse_mem : (clearInUse s a).mem = s.mem.setByte a 0 := rfl

theorem clearInUse_mapped {lo hi : Nat} (h : Mapped s lo hi) : Mapped (clearInUse s a) lo hi := h

theorem read64_setByte {y : BitVec 8} (h : a < x ∨ x + 8 ≤ a) : (m.setByte a y).read64 x = m.read64 x :=
  Mem.read64_congr fun _ _ _ => Mem.setByte_ne (by omega)

theorem clearInUse_inUse {w : U64} (hw : w.toNat ≠ a) : (clearInUse s a).inUse w = s.inUse w := by
  rw [Space.inUse, Space.loadBool, clearInUse_mem, Mem.setByte_ne hw]
  rfl

theorem wrongPrev_toNat_ne (hn : n + 24 < 2 ^ 64) : (wrongPrev a n).toNat ≠ a := by
  rw [wrongPrev, sizeofChunkHdr]
  bv_omega

theorem links_prev (h : Links m prev a (pre ++ l)) :
    (m.read64 (stop Chunk.width a pre + 16)).toNat = (pre.getLast?.map Chunk.size).getD prev := by
  induction pre generalizing a prev with
  | nil => exact links_head h
  | cons b pre ih =>
    rw [stop, ih h.2]
    cases pre with
    | nil => rfl
    | cons d pre =>
      rw [List.getLast?_cons_cons, List.getLast?_eq_some_getLast (List.cons_ne_nil d pre)]
      rfl

theorem WellFormed.link (h : WellFormed s ((pre ++ [c]) ++ post)) : (s.mem.read64 (tailOf (pre ++ [c]) + 16)).toNat = c.size := by
  rw [tailOf, links_prev h.links, List.getLast?_append]
  rfl

/-- The size is the wrong one, but the same. -/
theorem wrongPrev_concat (h : d.size = c.size) : wrongPrev (tailOf (pre ++ [d])) c.size = BitVec.ofNat 64 (tailOf pre) := by
  rw [wrongPrev, tailOf_concat, h, sizeofChunkHdr]
  bv_omega

theorem WellFormed.at_chunk (h : WellFormed s (pre ++ c :: post)) :
    heapStart ≤ tailOf pre ∧ tailOf pre + 24 + c.size ≤ tailOf (pre ++ c :: post) ∧ Header s.mem (tailOf pre) c ∧
      c.size ≠ 0 ∧ (s.mem (tailOf pre + 24 + c.size) != 0) = (post.head?.map Chunk.inUse).getD true := by
  obtain ⟨-, hrest⟩ := chunks_append.mp h.chunks
  obtain ⟨⟨hc, h0⟩, hpost⟩ := chunks_cons.mp hrest
  have hat : tailOf pre + c.width = tailOf pre + 24 + c.size := (Nat.add_assoc _ 24 c.size).symm
  have hend : tailOf (pre ++ c :: post) = stop Chunk.width (tailOf pre + c.width) post := tailOf_append
  refine ⟨heapStart_le, ?_, hc, h0, ?_⟩
  · rw [hend, ← hat]
    exact le_stop
  · cases post with
    | nil =>
      have htail := h.tailInUse
      rw [hend, hat] at htail
      exact htail
    | cons d post =>
      obtain ⟨⟨hd, -⟩, -⟩ := chunks_cons.mp hpost
      rw [← hat]
      exact hd.1

theorem links_inUse {u : Bool} : Links m prev a (pre ++ c :: post) → Links m prev a (pre ++ ⟨u, c.size⟩ :: post) := by
  intro h
  induction pre generalizing a prev with
  | nil => exact h
  | cons b pre ih => exact ⟨h.1, ih h.2⟩

theorem tailOf_inUse {u : Bool} : tailOf (pre ++ ⟨u, c.size⟩ :: post) = tailOf (pre ++ c :: post) := by
  rw [tailOf_append, tailOf_append]
  rfl

theorem Decodes.clear (h : Decodes s (pre ++ c :: post)) :
    Decodes (clearInUse s (tailOf pre)) (pre ++ ⟨false, c.size⟩ :: post) := by
  obtain ⟨hpre, hrest⟩ := chunks_append.mp h.chunks
  obtain ⟨⟨hc, h0⟩, hpost⟩ := chunks_cons.mp hrest
  have hwidth : c.width = 24 + c.size := rfl
  have hle : tailOf pre + (24 + c.size) ≤ tailOf (pre ++ c :: post) := tailOf_cons ▸ le_stop
  have hother : ∀ x, x ≠ tailOf pre → (s.mem.setByte (tailOf pre) 0) x = s.mem x := fun x hx => Mem.setByte_ne hx
  refine ⟨chunks_append.mpr ⟨hpre.congr_range fun k _ hk => hother k (Nat.ne_of_lt hk), ?_⟩, ?_⟩
  · refine chunks_cons.mpr ⟨⟨⟨?_, ?_⟩, h0⟩, hpost.congr_range fun k hk _ => hother k ?_⟩
    · rw [clearInUse_mem]
      exact congrArg (· != 0) Mem.setByte_same
    · rw [clearInUse_mem, read64_setByte (.inl (by unfold tailOf; omega))]
      exact hc.2
    · unfold tailOf
      omega
  · rw [tailOf_inUse, clearInUse_mem, read64_setByte (.inl (by omega))]
    exact h.tail

theorem WellFormed.clear (h : WellFormed s (pre ++ c :: post)) :
    WellFormed (clearInUse s (tailOf pre)) (pre ++ ⟨false, c.size⟩ :: post) := by
  obtain ⟨-, hle, -⟩ := h.at_chunk
  have hwidth : c.width = 24 + c.size := rfl
  have hother : ∀ x, x ≠ tailOf pre → (s.mem.setByte (tailOf pre) 0) x = s.mem x := fun x hx => Mem.setByte_ne hx
  refine ⟨h.toDecodes.clear, ?_, ?_, ?_, ?_⟩
  · rw [tailOf_inUse, clearInUse_mem, hother _ (by omega)]
    exact h.tailInUse
  · refine links_inUse (h.links.congr fun x hx k hk hk' => hother k ?_)
    rcases hx with rfl | ⟨d, hd⟩
    · change tailOf (pre ++ c :: post) + 16 ≤ k at hk
      omega
    · have hwd : d.width = 24 + d.size := rfl
      rcases Tiling.apart hd (mem_places (c := c) (l := pre) (w := post)) with heq | happart
      · obtain ⟨rfl, -⟩ := Prod.ext_iff.mp heq
        unfold tailOf
        omega
      · unfold tailOf
        omega
  · rw [tailOf_inUse]
    exact clearInUse_mapped h.mapped
  · rw [tailOf_inUse]
    exact h.le

theorem WellFormed.mfree_next (h : WellFormed s (pre ++ c :: post))
    (hprev : pre = [] ∨ s.inUse (wrongPrev (tailOf pre) c.size) = some true) :
    mfree s (BitVec.ofNat 64 (tailOf pre + 24)) =
      mergeNext (clearInUse s (tailOf pre)) (BitVec.ofNat 64 (tailOf pre)) := by
  obtain ⟨hstart, hle, hc, -⟩ := h.at_chunk
  have hmap : Mapped s (tailOf pre) (tailOf pre + 24) := h.mapped.mono hstart (by omega)
  have hb := h.le
  have hsize : ((clearInUse s (tailOf pre)).mem.read64 (tailOf pre + 8)).toNat = c.size := by
    rw [clearInUse_mem, read64_setByte (.inl (by omega))]
    exact hc.2
  rw [mfree_eq hmap (by omega), mergePrev_keep (clearInUse_mapped hmap) (by omega) hsize, Option.bind_some]
  rcases hprev with rfl | hprev
  · refine .inl (BitVec.eq_of_toNat_eq ?_)
    rw [clearInUse_mem, read64_setByte (.inl (by omega))]
    exact links_head h.links
  · refine .inr ?_
    rwa [clearInUse_inUse (wrongPrev_toNat_ne (by omega))]

theorem WellFormed.mfree_alone (h : WellFormed s (pre ++ c :: post)) (hnext : ∀ d ∈ post.head?, d.inUse = true)
    (hprev : pre = [] ∨ s.inUse (wrongPrev (tailOf pre) c.size) = some true) :
    mfree s (BitVec.ofNat 64 (tailOf pre + 24)) = some (clearInUse s (tailOf pre)) := by
  obtain ⟨hstart, hle, hc, h0, hbehind⟩ := h.at_chunk
  have hmap : Mapped s (tailOf pre) (tailOf pre + 24 + c.size + 24) := h.mapped.mono hstart (by omega)
  have hb := h.le
  have hsize : ((clearInUse s (tailOf pre)).mem.read64 (tailOf pre + 8)).toNat = c.size := by
    rw [clearInUse_mem, read64_setByte (.inl (by omega))]
    exact hc.2
  rw [h.mfree_next hprev, mergeNext_keep (clearInUse_mapped hmap) (by omega) hsize]
  rw [clearInUse_mem, Mem.setByte_ne (by omega), hbehind]
  cases post with
  | nil => rfl
  | cons d post => exact hnext d rfl

theorem chunk_eq (h : (tailOf pre, d) ∈ places Chunk.width heapStart (pre ++ c :: post)) : d = c := by
  have hc : (tailOf pre, c) ∈ places Chunk.width heapStart (pre ++ c :: post) := mem_places
  have hwd : d.width = 24 + d.size := rfl
  have hwc : c.width = 24 + c.size := rfl
  rcases Tiling.apart h hc with heq | happart
  · exact (Prod.ext_iff.mp heq).2
  · omega

theorem FreesAlone.sound (hwf : WellFormed s (pre ++ c :: post)) (h : FreesAlone s pre c post) :
    FreesSoundly s (pre ++ c :: post) (tailOf pre) := by
  refine ⟨_, _, hwf.mfree_alone h.next h.prev, hwf.clear, fun x d hx hd hne => ⟨?_, fun k hk hk' => ?_⟩, fun d hd => ?_,
    fun hco => ?_⟩
  · rw [places_append] at hx ⊢
    rcases List.mem_append.mp hx with hx | hx
    · exact List.mem_append_left _ hx
    rcases List.mem_cons.mp hx with hx | hx
    · exact absurd (Prod.ext_iff.mp hx).1 hne
    · exact List.mem_append_right _ (List.mem_cons_of_mem _ hx)
  · rw [clearInUse_mem]
    refine Mem.setByte_ne ?_
    have hw : d.width = 24 + d.size := rfl
    have hwc : c.width = 24 + c.size := rfl
    rcases Tiling.apart hx (mem_places (c := c) (l := pre) (w := post)) with heq | happart
    · exact absurd (Prod.ext_iff.mp heq).1 hne
    · unfold tailOf
      omega
  · obtain rfl := chunk_eq hd
    exact ⟨_, _, mem_places, rfl, Nat.le_refl _, Nat.le_refl _⟩
  · obtain ⟨hpre, hrest, -⟩ := List.isChain_append.mp hco
    obtain ⟨-, hpost⟩ := List.isChain_cons.mp hrest
    refine List.isChain_append.mpr ⟨hpre, List.isChain_cons.mpr ⟨fun d hd => .inr (h.next d hd), hpost⟩, ?_⟩
    exact fun d hd _ _ => .inl ((h.apart.resolve_right (not_not_intro hco)) d hd)

/-- After a merge with the chunk behind, the header behind that one has the
wrong `size_prev`. -/
theorem mergeNext_not_wellFormed (hpre : Chunks s.mem heapStart pre)
    (hm : Mapped s (tailOf pre) (tailOf pre + 24 + z + 24 + n + 24)) (hb : tailOf pre + 24 + z + 24 + n + 24 ≤ 2 ^ 64)
    (hz : (s.mem.read64 (tailOf pre + 8)).toNat = z) (hfree : (s.mem (tailOf pre + 24 + z) != 0) = false)
    (hn : (s.mem.read64 (tailOf pre + 24 + z + 8)).toNat = n) (hn0 : n ≠ 0)
    (hrun : mergeNext s (BitVec.ofNat 64 (tailOf pre)) = some s') : ¬WellFormed s' l := by
  rw [mergeNext_merge hm hb hz hfree hn hn0] at hrun
  obtain rfl := Option.some.inj hrun
  refine not_wellFormed pre (z := z + (n + 24)) ?_ ?_ (by omega) ?_
  · refine hpre.congr_range fun k _ hk => ?_
    unfold tailOf
    simp only
    rw [Mem.write64_outside (by omega), Mem.write64_outside (by omega)]
  · simp only
    rw [Mem.read64_write64_apart (by omega), Mem.read64_write64, toNat_ofNat_lt (by omega)]
  · simp only
    rw [show tailOf pre + (24 + (z + (n + 24))) + 16 = tailOf pre + 24 + z + 24 + n + 16 by omega, Mem.read64_write64,
      toNat_ofNat_lt (by omega)]
    omega

theorem WellFormed.next_cases (h : WellFormed s (pre ++ c :: post)) : (∀ d ∈ post.head?, d.inUse = true) ∨
    ∃ n, (s.mem (tailOf pre + 24 + c.size) != 0) = false ∧ (s.mem.read64 (tailOf pre + 24 + c.size + 8)).toNat = n ∧
      n ≠ 0 ∧ tailOf pre + 24 + c.size + 24 + n ≤ tailOf (pre ++ c :: post) := by
  cases post with
  | nil => exact .inl fun d hd => by cases hd
  | cons d post =>
    cases hd : d.inUse with
    | true =>
      refine .inl fun e he => ?_
      obtain rfl : d = e := Option.some.inj he
      exact hd
    | false =>
      rw [List.append_cons] at h ⊢
      obtain ⟨-, hle, hhdr, h0, -⟩ := h.at_chunk
      rw [tailOf_concat] at hle hhdr
      exact .inr ⟨d.size, hhdr.1.trans hd, hhdr.2, h0, hle⟩

theorem FreesSoundly.prev_cases (hwf : WellFormed s (pre ++ c :: post))
    (h : FreesSoundly s (pre ++ c :: post) (tailOf pre)) :
    (pre = [] ∨ s.inUse (wrongPrev (tailOf pre) c.size) = some true) ∨
      (∃ pre₀ b, pre = pre₀ ++ [b] ∧ b.size = c.size ∧ b.inUse = false) ∨ Misdirected s pre c := by
  obtain ⟨s', l', hrun, -⟩ := h
  obtain ⟨hstart, hle, hc, h0, -⟩ := hwf.at_chunk
  have hb := hwf.le
  have hm : Mapped s (tailOf pre) (tailOf pre + 24) := hwf.mapped.mono hstart (by omega)
  rcases List.eq_nil_or_concat pre with rfl | ⟨pre₀, b, rfl⟩
  · exact .inl (.inl rfl)
  rw [List.concat_eq_append] at *
  obtain ⟨-, hleb, hhdr, hb0, -⟩ := (show WellFormed s (pre₀ ++ b :: (c :: post)) by simpa using hwf).at_chunk
  have hlink := hwf.link
  have hne : (clearInUse s (tailOf (pre₀ ++ [b]))).mem.read64 (tailOf (pre₀ ++ [b]) + 16) ≠ 0 := fun e => hb0 (by
    rw [clearInUse_mem, read64_setByte (.inl (by omega))] at e
    rw [← hlink, e]
    rfl)
  have hsize : ((clearInUse s (tailOf (pre₀ ++ [b]))).mem.read64 (tailOf (pre₀ ++ [b]) + 8)).toNat = c.size := by
    rw [clearInUse_mem, read64_setByte (.inl (by omega))]
    exact hc.2
  rw [mfree_eq hm (by omega)] at hrun
  obtain ⟨r, hprev, -⟩ := Option.bind_eq_some_iff.mp hrun
  obtain ⟨u, hu⟩ := mergePrev_some (clearInUse_mapped hm) (by omega) hsize hne hprev
  rw [clearInUse_inUse (wrongPrev_toNat_ne (by omega))] at hu
  cases u with
  | true => exact .inl (.inr hu)
  | false =>
    by_cases heq : b.size = c.size
    · refine .inr (.inl ⟨pre₀, b, rfl, heq, ?_⟩)
      have hat : tailOf (pre₀ ++ [b]) = tailOf pre₀ + 24 + b.size := tailOf_concat
      rw [wrongPrev_concat heq, inUse_eq (hwf.mapped.mono heapStart_le (by omega)) (by omega)] at hu
      exact hhdr.1.symm.trans (Option.some.inj hu)
    · refine .inr (.inr ⟨by simp, fun d hd => ?_, hu⟩)
      rw [List.getLast?_append] at hd
      obtain rfl : b = d := Option.some.inj hd
      exact heq

/-- `mfree` on the second of two chunks of one size, the first of them free. -/
theorem mfree_prev (hm : Mapped s x (x + 24 + z + 24)) (hb : x + 24 + z + 24 + z < 2 ^ 64) (hz0 : z ≠ 0)
    (hsize : (s.mem.read64 (x + 24 + z + 8)).toNat = z) (hlink : (s.mem.read64 (x + 24 + z + 16)).toNat = z)
    (hsizePrev : (s.mem.read64 (x + 8)).toNat = z) (hfree : (s.mem x != 0) = false) :
    ∃ t, mfree s (BitVec.ofNat 64 (x + 24 + z + 24)) = mergeNext t (BitVec.ofNat 64 x) ∧
      (∀ {lo hi}, Mapped s lo hi → Mapped t lo hi) ∧ (t.mem.read64 (x + 8)).toNat = z + (z + 24) ∧
      ∀ k, k ≠ x + 24 + z → k < x + 8 ∨ x + 16 ≤ k → t.mem k = s.mem k := by
  have hma : Mapped s (x + 24 + z) (x + 24 + z + 24) := hm.mono (by omega) (Nat.le_refl _)
  have hclear : ∀ {y}, x + 24 + z < y ∨ y + 8 ≤ x + 24 + z →
      (clearInUse s (x + 24 + z)).mem.read64 y = s.mem.read64 y := fun hy => read64_setByte hy
  have hne : s.mem.read64 (x + 24 + z + 16) ≠ 0 := fun e => hz0 (by
    rw [← hlink, e]
    rfl)
  have hbyte : ((clearInUse s (x + 24 + z)).mem x != 0) = false := by
    rwa [clearInUse_mem, Mem.setByte_ne (by omega)]
  refine ⟨{ clearInUse s (x + 24 + z) with
    mem := (clearInUse s (x + 24 + z)).mem.write64 (x + 8) (BitVec.ofNat 64 (z + (z + 24))) }, ?_, fun h => h, ?_,
    fun k hk hk' => ?_⟩
  · rw [mfree_eq hma (by omega), mergePrev_merge (clearInUse_mapped hm) (by omega) rfl (by rwa [hclear (.inl (by omega))])
      (by rwa [hclear (.inr (by omega))]) (by rwa [hclear (.inl (by omega))]) hbyte, Option.bind_some]
  · rw [Mem.read64_write64, toNat_ofNat_lt (by omega)]
  · exact (Mem.write64_outside (by omega)).trans (Mem.setByte_ne hk)

/-- A merge with the chunk before leaves a wrong `size_prev` behind. -/
theorem not_freesSoundly_of_prev {pre₀ : List Chunk} {b : Chunk} (hwf : WellFormed s ((pre₀ ++ [b]) ++ c :: post))
    (heq : b.size = c.size) (hfree : b.inUse = false) :
    ¬FreesSoundly s ((pre₀ ++ [b]) ++ c :: post) (tailOf (pre₀ ++ [b])) := by
  rintro ⟨s', l', hrun, hwf', -⟩
  obtain ⟨-, hle, hc, h0, hbehind⟩ := hwf.at_chunk
  have hnext := hwf.next_cases
  obtain ⟨hpre₀, -⟩ := chunks_append.mp (chunks_append.mp hwf.chunks).1
  obtain ⟨hstart, -, hhdr, -⟩ := (show WellFormed s (pre₀ ++ b :: (c :: post)) by simpa using hwf).at_chunk
  have hlink := hwf.link
  have hlinkc : (s.mem.read64 (tailOf (pre₀ ++ [b]) + 24 + c.size + 16)).toNat = c.size := by
    rw [← tailOf_concat]
    exact (show WellFormed s (((pre₀ ++ [b]) ++ [c]) ++ post) by simpa using hwf).link
  have hb := hwf.le
  have hmapped := hwf.mapped
  have hat : tailOf (pre₀ ++ [b]) = tailOf pre₀ + 24 + c.size := heq ▸ tailOf_concat
  -- Numbers only from here on: `x` is the first of the two headers, `z` their size.
  obtain ⟨x, hx⟩ : ∃ x, x = tailOf pre₀ := ⟨_, rfl⟩
  obtain ⟨e, he⟩ : ∃ e, e = tailOf ((pre₀ ++ [b]) ++ c :: post) := ⟨_, rfl⟩
  have hc2 := hc.2
  have hhdr2 := hhdr.2
  obtain ⟨z, hz⟩ : ∃ z, z = c.size := ⟨_, rfl⟩
  rw [heq] at hlink hhdr2
  rw [hat] at hle hlink hlinkc hrun hnext hc2 hbehind
  rw [← hx] at hle hlink hlinkc hrun hnext hc2 hbehind hhdr2 hstart
  rw [← he] at hle hb hmapped hnext
  rw [← hz] at hle hlink hlinkc hrun hnext hc2 hbehind hhdr2 h0
  obtain ⟨t, ht, hmap, hsize, hold⟩ := mfree_prev (hmapped.mono hstart (by omega)) (by omega) h0 hc2 hlink hhdr2
    (hx ▸ hhdr.1.trans hfree)
  rw [ht] at hrun
  have hold64 : ∀ y, x + 24 + z < y → t.mem.read64 y = s.mem.read64 y :=
    fun y hy => Mem.read64_congr fun k hk _ => hold k (by omega) (by omega)
  have htm : Mapped t x (e + 24) := hmap (hmapped.mono hstart (Nat.le_refl _))
  have hchunks : Chunks t.mem heapStart pre₀ := hpre₀.congr_range fun k _ hk => by
    replace hk : k < tailOf pre₀ := hk
    exact hold k (by omega) (.inl (by omega))
  have hnx : x + 24 + (z + (z + 24)) = x + 24 + z + 24 + z := by omega
  rcases hnext with huse | ⟨n, hnfree, hn, hn0, hnle⟩
  · have hnextUse : (t.mem (x + 24 + (z + (z + 24))) != 0) = true := by
      rw [hnx, hold _ (by omega) (by omega), hbehind]
      cases post with
      | nil => rfl
      | cons d post => exact huse d rfl
    rw [mergeNext_keep (htm.mono (Nat.le_refl x) (by omega)) (by omega) hsize hnextUse] at hrun
    obtain rfl := Option.some.inj hrun
    refine not_wellFormed pre₀ (z := z + (z + 24)) hchunks (by rw [← hx]; exact hsize) (by omega) ?_ hwf'
    rw [← hx, show x + (24 + (z + (z + 24))) + 16 = x + 24 + z + 24 + z + 16 by omega, hold64 _ (by omega), hlinkc]
    omega
  · rw [← hnx] at hnfree hn hnle
    rw [hx] at hrun hsize htm hnfree hn hnle hold hold64
    refine mergeNext_not_wellFormed (z := z + (z + 24)) (n := n) hchunks (htm.mono (Nat.le_refl _) (by omega)) (by omega)
      hsize ?_ ?_ hn0 hrun hwf'
    · rwa [hold _ (by omega) (by omega)]
    · rwa [hold64 _ (by omega)]

/-- Without the two slips `mfree` has nothing to do but to mark the chunk
free. -/
theorem FreesSoundly.alone (hwf : WellFormed s (pre ++ c :: post))
    (h : FreesSoundly s (pre ++ c :: post) (tailOf pre)) : FreesAlone s pre c post ∨ Misdirected s pre c := by
  rcases h.prev_cases hwf with hprev | ⟨pre₀, b, rfl, heq, hfree⟩ | hmis
  · left
    obtain ⟨hstart, hle, hc, h0, -⟩ := hwf.at_chunk
    have hb := hwf.le
    have hmapped := hwf.mapped
    rcases hwf.next_cases with hnext | ⟨n, hnfree, hn, hn0, hnle⟩
    · refine ⟨hnext, hprev, ?_⟩
      by_contra hno
      obtain ⟨hprevFree, hco⟩ := not_or.mp hno
      obtain ⟨s', l', hrun, hwf', -, -, hco'⟩ := h
      rw [hwf.mfree_alone hnext hprev] at hrun
      obtain rfl := Option.some.inj hrun
      obtain rfl := hwf'.toDecodes.unique hwf.clear.toDecodes
      obtain ⟨-, -, hadj⟩ := List.isChain_append.mp (hco' (not_not.mp hco))
      refine hprevFree fun d hd => (hadj d hd ⟨false, c.size⟩ rfl).resolve_right Bool.false_ne_true
    · obtain ⟨s', l', hrun, hwf', -⟩ := h
      rw [hwf.mfree_next hprev] at hrun
      obtain ⟨hpre, -⟩ := chunks_append.mp hwf.chunks
      have hclear : ∀ {y}, tailOf pre < y → (clearInUse s (tailOf pre)).mem.read64 y = s.mem.read64 y :=
        fun hy => read64_setByte (.inl hy)
      refine absurd hwf' (mergeNext_not_wellFormed (z := c.size) (n := n) ?_
        (clearInUse_mapped (hmapped.mono hstart (by omega))) (by omega) ?_ ?_ ?_ hn0 hrun)
      · exact hpre.congr_range fun k _ hk => Mem.setByte_ne (Nat.ne_of_lt hk)
      · rw [hclear (by omega)]
        exact hc.2
      · rw [clearInUse_mem, Mem.setByte_ne (by omega)]
        exact hnfree
      · rwa [hclear (by omega)]
  · exact absurd h (not_freesSoundly_of_prev hwf heq hfree)
  · exact .inr hmis

def putHeaders (m : Mem) (prev a : Nat) : List Chunk → Mem
  | [] => putHeader m a 0 (BitVec.ofNat 64 prev) true
  | c :: l => putHeaders (putHeader m a (BitVec.ofNat 64 c.size) (BitVec.ofNat 64 prev) c.inUse) c.size (a + c.width) l

theorem putHeaders_below (hk : k < a) : putHeaders m prev a l k = m k := by
  induction l generalizing m prev a with
  | nil => exact putHeader_outside (.inl hk)
  | cons c l ih => exact (ih (Nat.lt_add_right _ hk)).trans (putHeader_outside (.inl hk))

theorem putHeaders_spec (h0 : ∀ c ∈ l, c.size ≠ 0) (hb : stop Chunk.width a l ≤ 2 ^ 64) (hprev : prev < 2 ^ 64) :
    Chunks (putHeaders m prev a l) a l ∧ Links (putHeaders m prev a l) prev a l ∧
      (putHeaders m prev a l).read64 (stop Chunk.width a l + 8) = 0 ∧
      (putHeaders m prev a l (stop Chunk.width a l) != 0) = true := by
  induction l generalizing m prev a with
  | nil =>
    refine ⟨chunks_nil, ?_, putHeader_size, putHeader_inUse⟩
    unfold Links putHeaders
    rw [putHeader_sizePrev, toNat_ofNat_lt hprev]
  | cons c l ih =>
    have hwidth : c.width = 24 + c.size := rfl
    have hle : a + c.width ≤ stop Chunk.width a (c :: l) := le_stop
    have hsize : c.size < 2 ^ 64 := by omega
    obtain ⟨hchunks, hlinks, htail⟩ := ih (m := putHeader m a (BitVec.ofNat 64 c.size) (BitVec.ofNat 64 prev) c.inUse)
      (fun d hd => h0 d (List.mem_cons_of_mem _ hd)) hb hsize
    have hkept : ∀ k, k < a + 24 → putHeaders m prev a (c :: l) k =
        putHeader m a (BitVec.ofNat 64 c.size) (BitVec.ofNat 64 prev) c.inUse k :=
      fun k hk => putHeaders_below (show k < a + c.width by omega)
    refine ⟨chunks_cons.mpr ⟨⟨?_, h0 c List.mem_cons_self⟩, hchunks⟩, ⟨?_, hlinks⟩, htail⟩
    · have hhdr := putHeader_header (m := m) (a := a) (v := BitVec.ofNat 64 c.size) (w := BitVec.ofNat 64 prev)
        (u := c.inUse)
      rw [toNat_ofNat_lt hsize] at hhdr
      exact hhdr.congr fun k _ hk => hkept k (by omega)
    · rw [Mem.read64_congr fun k _ hk => hkept k (by omega), putHeader_sizePrev, toNat_ofNat_lt hprev]

def heapOf (l : List Chunk) : Space := ⟨putHeaders (fun _ => 0) 0 heapStart l, fun _ => true⟩

theorem heapOf_wellFormed (h0 : ∀ c ∈ l, c.size ≠ 0) (hb : tailOf l + 24 ≤ 2 ^ 64) : WellFormed (heapOf l) l := by
  obtain ⟨hchunks, hlinks, htail, huse⟩ := putHeaders_spec (m := fun _ => 0) h0 (Nat.le_of_add_right_le hb)
    (show 0 < 2 ^ 64 by decide)
  exact ⟨⟨hchunks, htail⟩, huse, hlinks, fun _ _ _ => rfl, hb⟩

end ShedOS.Heap
