import ShedOS.Heap.Paged

/-!
# Clients of the heap

Code that asks for blocks, and loads and stores bytes in its own ones. Behind
the page tables every byte of a block has the value that was last stored there.
-/

namespace ShedOS.Heap

open Bytes Tiling
open Memory (U64 Machine Pmm addrPageAlignUp framePtr frameOf frameLimit lookup present mmu Labels Backed Served Enough
  readByte)

variable {S S' T : Space} {s s' : Machine Pmm} {k n x fuel : Nat} {label : Labels} {v w y p size : U64} {b : BitVec 8}
  {l l' pre : List Chunk} {es : List (U64 × U64)} {e : U64 × U64}

-- ---------------------------------------------------------------------------
-- Spaces that agree on what is mapped
-- ---------------------------------------------------------------------------

structure Agree (S T : Space) : Prop where
  mapped : ∀ v, S.mapped v = T.mapped v
  bytes : ∀ v, S.mapped v → T.mem v.toNat = S.mem v.toNat

theorem Agree.represents (h : Agree S T) (hs : Represents S l) : Represents T l := by
  have hend := hs.le
  unfold heapEnd at hend
  have hmem : ∀ a, heapStart ≤ a → a < tailOf l + 24 → T.mem a = S.mem a := fun a hlo hhi => by
    have := h.bytes (BitVec.ofNat 64 a) (hs.mapped a hlo hhi)
    rwa [toNat_ofNat_lt (by omega)] at this
  refine ⟨⟨hs.chunks.congr_range fun a hlo hhi => hmem a hlo (Nat.lt_add_right 24 hhi), ?_⟩, fun a hlo hhi => ?_, hs.le,
    hs.aligned⟩
  · have hlo : heapStart ≤ tailOf l := heapStart_le
    rw [Mem.read64_congr fun a ha ha' => hmem a (by omega) (by omega)]
    exact hs.tail
  · rw [← h.mapped]
    exact hs.mapped a hlo hhi

theorem Agree.holds (h : Agree S T) (hs : Holds S es l) : Holds T es l :=
  ⟨h.represents hs.heap, hs.block, hs.distinct⟩

theorem Backs.agree (hb : Backs S s k label) (h : Agree S T) : Backs T s k label := by
  have hm : ∀ v, T.mapped v → S.mapped v := fun v hv => (h.mapped v).trans hv
  refine ⟨⟨hb.backed, hb.root, fun v hv => ?_, fun v hv => hb.inside v (hm v hv), fun v hv => hb.data v (hm v hv),
    fun v w hv hw => hb.exclusive v w (hm v hv) (hm w hw)⟩, fun v hv => ?_⟩
  · rw [← h.mapped]
    exact hb.pages v hv
  · rw [h.bytes v (hm v hv)]
    exact hb.bytes v (hm v hv)

/-- The space with other bytes on the pages that are not there yet. -/
def Space.foretold (S : Space) (m : Mem) : Space :=
  { S with mem := fun a => if S.mapped (BitVec.ofNat 64 a) then S.mem a else m a }

theorem agree_foretold (S : Space) (m : Mem) : Agree S (S.foretold m) where
  mapped _ := rfl
  bytes v hv := by
    show (if S.mapped (BitVec.ofNat 64 v.toNat) then _ else _) = _
    rw [BitVec.ofNat_toNat, BitVec.setWidth_eq, if_pos hv]

theorem foretold_new {m : Mem} (hv : ¬ S.mapped v) : (S.foretold m).mem v.toNat = m v.toNat := by
  show (if S.mapped (BitVec.ofNat 64 v.toNat) then _ else _) = _
  rw [BitVec.ofNat_toNat, BitVec.setWidth_eq, if_neg hv]

-- ---------------------------------------------------------------------------
-- Blocks and bytes
-- ---------------------------------------------------------------------------

theorem Holds.setByte (h : Holds S es l) (he : e ∈ es) (hy : Owns e y) :
    Holds { S with mem := S.mem.setByte y.toNat b } es l := by
  obtain ⟨x, hx, -, hlo, hhi, hle⟩ := h.owns he hy
  have hw : (Chunk.mk true e.1.toNat).width = 24 + e.1.toNat := rfl
  have hrep := h.heap
  refine ⟨⟨⟨hrep.chunks.congr fun a c ha j hj hj' => Mem.setByte_ne ?_, ?_⟩, hrep.mapped, hrep.le, hrep.aligned⟩, h.block,
    h.distinct⟩
  · have hwc : c.width = 24 + c.size := rfl
    rcases Tiling.apart hx ha with heq | happart
    · obtain ⟨rfl, -⟩ := Prod.ext_iff.mp heq
      omega
    · omega
  · rw [← hrep.tail]
    exact Mem.read64_congr fun j hj _ => Mem.setByte_ne (by omega)

theorem Did.keeps {c : Chunk} (h : Did S l n S' p) (hx : (x, c) ∈ places Chunk.width heapStart l) (hc : c.inUse = true)
    {a : Nat} (hlo : x ≤ a) (hhi : a < x + 24 + c.size) : S'.mem a = S.mem a := by
  have hw : c.width = 24 + c.size := rfl
  cases h with
  | nothing => rfl
  | full => rfl
  | @found pre post d hn hl hpre hd =>
    subst hl
    obtain ⟨hfree, hle⟩ := Chunk.fits_iff.mp hd
    have hwd : d.width = 24 + d.size := rfl
    have hplace : (tailOf pre, d) ∈ places Chunk.width heapStart (pre ++ d :: post) := mem_places
    refine splitMem_outside ?_
    rcases Tiling.apart hx hplace with heq | happart
    · obtain ⟨-, rfl⟩ := Prod.ext_iff.mp heq
      rw [hfree] at hc
      cases hc
    · omega
  | @grown k hn hk hnone hle =>
    have hbefore : x + c.width ≤ tailOf l := (within hx).2
    have hpos : 0 < k := by
      rw [hk]
      unfold pageCount
      omega
    show splitMem (growMem S.mem (tailOf l) k) (tailOf l) n (0x1000 * k - 24) a = S.mem a
    rw [splitMem_outside (by omega), growMem_outside hpos (by omega)]

-- ---------------------------------------------------------------------------
-- A call behind the tables
-- ---------------------------------------------------------------------------

/-- Room for `n` bytes, and frames for the pages that the call appends and for
the tables to map them. -/
structure RoomFor (s : Machine Pmm) (l : List Chunk) (n : Nat) : Prop where
  roomy : Roomy l n
  frames : l.find? (Chunk.fits (n + 24)) = none → Enough s (4 * pageCount (n + 24))

theorem served_of_enough {count c : Nat} (hf : Enough s count) (ha : Memory.Allocates c s s') (hc : c ≤ count) :
    Served s s' :=
  (Enough.split (show Enough s (count + 0) from hf) ha hc).1

theorem served_request {count : Nat} (hf : Enough s (4 * count)) : Served s (HeapMemory.requestAt s v count) := by
  obtain ⟨c, hc, ha⟩ := Memory.vmmRequestAt_allocates s s.kernelTable v heapFlags count
  exact served_of_enough hf ha hc

def Space.grown (S : Space) (s : Machine Pmm) (k : Nat) (v : U64) (count : Nat) : Space :=
  S.foretold fun a =>
    (HeapMemory.requestAt s v count : Machine Pmm).mem (physOf (HeapMemory.requestAt s v count) k (BitVec.ofNat 64 a))

theorem foresees_grown {count : Nat} : Foresees (S.grown s k v count) S' (HeapMemory.requestAt s v count) k := by
  intro w _ hw
  have hw : ¬ S.mapped w := hw
  rw [Space.grown, foretold_new hw, BitVec.ofNat_toNat, BitVec.setWidth_eq]

theorem findChunk_last (h : Represents S l) (hroom : Roomy l size.toNat) (hn : size ≠ 0) {hdr : U64}
    (hfind : HeapMemory.findChunk S (size + sizeofChunkHdr) KERNEL_HEAP_VIRTUAL_START fuel = some hdr)
    (hz : HeapMemory.size S hdr = some 0) :
    hdr = BitVec.ofNat 64 (tailOf l) ∧ l.find? (Chunk.fits (size.toNat + 24)) = none ∧
      tailOf l + 24 + 0x1000 * pageCount (size.toNat + 24) ≤ heapEnd ∧
      (addrPageAlignUp (size + sizeofChunkHdr) / 0x1000).toNat = pageCount (size.toNat + 24) := by
  have hb := h.le
  unfold heapEnd at hb
  have hn0 : size.toNat ≠ 0 := fun e => hn (BitVec.eq_of_toNat_eq e)
  obtain ⟨hwrap, hr⟩ := hroom.resolve_left hn0
  have hwanted : (size + sizeofChunkHdr).toNat = size.toNat + 24 := by
    rw [sizeofChunkHdr]
    bv_omega
  rw [findChunk_space, show KERNEL_HEAP_VIRTUAL_START = BitVec.ofNat 64 heapStart by decide] at hfind
  obtain ⟨pre, post, rfl, rfl, hpre, -⟩ := findChunk_some h.chunks h.tail (by unfold tailOf at hb; omega) hfind
  have hle : tailOf pre ≤ tailOf (pre ++ post) := tailOf_le
  have hzero : S.mem.read64 (tailOf pre + 8) = 0 := size_some (a := tailOf pre) (by omega) hz
  cases post with
  | cons c post =>
    obtain ⟨⟨⟨-, hsize⟩, hc0⟩, -⟩ := chunks_cons.mp (chunks_append.mp h.chunks).2
    refine absurd ?_ hc0
    rw [← hsize, show stop Chunk.width heapStart pre = tailOf pre from rfl, hzero]
    rfl
  | nil =>
    rw [List.append_nil] at hr ⊢
    have hnone : pre.find? (Chunk.fits (size.toNat + 24)) = none :=
      List.find?_eq_none.mpr fun c hc => by
        have := hpre c hc
        rw [hwanted] at this
        rw [this]
        exact Bool.false_ne_true
    rw [hnone] at hr
    obtain ⟨-, hend⟩ := hr
    refine ⟨rfl, hnone, hend, ?_⟩
    have hsum : size + sizeofChunkHdr = BitVec.ofNat 64 (size.toNat + 24) :=
      BitVec.eq_of_toNat_eq (hwanted.trans (toNat_ofNat_lt hwrap).symm)
    rw [hsum]
    refine Memory.addrPageAlignUp_div ?_
    unfold pageCount heapEnd at hend
    omega

structure Called (S : Space) (es : List (U64 × U64)) (label : Labels) (k : Nat) (n : U64) (S' : Space) (s' : Machine Pmm)
    (p : U64) : Prop where
  backs : ∃ label', (∀ n l, label n = some l → label' n = some l) ∧ Backs S' s' k label'
  holds : ∃ l', Holds S' (es ++ [(n, p)]) l'
  kept : ∀ e ∈ es, ∀ y, Owns e y → S'.mem y.toNat = S.mem y.toNat
  some : n ≠ 0 → p ≠ 0

theorem Backs.call (hb : Backs S s k label) (hh : Holds S es l) (hr : RoomFor s l size.toNat) :
    ∃ fuel s' p S', HeapMemory.malloc s size fuel = some (s', p) ∧ Called S es label k size S' s' p := by
  obtain ⟨hroom, hf⟩ := hr
  by_cases h0 : size = 0
  · subst h0
    refine ⟨0, s, 0, S, rfl, ⟨⟨label, fun _ _ hl => hl, hb⟩, ⟨l, ?_⟩, fun _ _ _ _ => rfl, fun h => absurd rfl h⟩⟩
    refine ⟨hh.heap, fun e he hne => ?_, List.pairwise_append.mpr ⟨hh.distinct, List.pairwise_singleton _ _, ?_⟩⟩
    · rcases List.mem_append.mp he with he | he
      · exact hh.block e he hne
      · rw [List.mem_singleton.mp he] at hne
        exact absurd rfl hne
    · intro e _ e' he' _ hne
      rw [List.mem_singleton.mp he'] at hne
      exact absurd rfl hne
  have hn0 : size.toNat ≠ 0 := fun e => h0 (BitVec.eq_of_toNat_eq e)
  obtain ⟨T, hT⟩ : ∃ T, T = S.grown s k (BitVec.ofNat 64 (tailOf l) + sizeofChunkHdr) (pageCount (size.toNat + 24)) :=
    ⟨_, rfl⟩
  have hag : Agree S T := hT ▸ agree_foretold S _
  have hbT := hb.agree hag
  have hhT := hag.holds hh
  obtain ⟨fuel, S', pre, l', hrun, htakes, hrep⟩ := malloc_spec hhT.heap hroom hn0
  rw [BitVec.ofNat_toNat, BitVec.setWidth_eq] at hrun
  obtain ⟨p, hp⟩ : ∃ p, p = BitVec.ofNat 64 (tailOf pre + 24) := ⟨_, rfl⟩
  rw [← hp] at hrun
  have hgrants : ∀ hdr, HeapMemory.findChunk T (size + sizeofChunkHdr) KERNEL_HEAP_VIRTUAL_START fuel = some hdr →
      HeapMemory.size T hdr = some 0 → ¬ hdr + sizeofChunkHdr > KERNEL_HEAP_VIRTUAL_END →
      Grants T s k (hdr + sizeofChunkHdr) (addrPageAlignUp (size + sizeofChunkHdr) / 0x1000).toNat := by
    intro hdr hfind hz _
    obtain ⟨rfl, hnone, hend, hcount⟩ := findChunk_last hhT.heap hroom h0 hfind hz
    rw [hcount]
    refine ⟨fun i hi => ?_, served_request (hf hnone), hT ▸ foresees_grown⟩
    have hlo : heapStart ≤ tailOf l := heapStart_le
    have hnat : (BitVec.ofNat 64 (tailOf l) + sizeofChunkHdr + BitVec.ofNat 64 i * 0x1000).toNat =
        tailOf l + 24 + i * 0x1000 := by
      unfold heapEnd at hend
      rw [show BitVec.ofNat 64 (tailOf l) + sizeofChunkHdr = BitVec.ofNat 64 (tailOf l + 24) from ofNat_add,
        show BitVec.ofNat 64 i * 0x1000 = BitVec.ofNat 64 (i * 0x1000) from (BitVec.ofNat_mul i 0x1000).symm, ofNat_add,
        toNat_ofNat_lt (by omega)]
    unfold InHeap
    omega
  obtain ⟨s', label', hcall, hkeeps, hback, -⟩ := hbT.malloc ((malloc_space T size fuel).trans hrun) hgrants
  have hstep : RoomyStep T (size, p) S' := ⟨⟨l, hhT.heap.toDecodes, hroom⟩, fuel, hrun⟩
  obtain ⟨l'', hholds⟩ := hhT.step hstep
  have hle := hhT.heap.le
  unfold heapEnd at hle
  have happend : size.toNat ≠ 0 → Appendable l size.toNat := fun _ => by
    obtain ⟨hwrap, hr⟩ := hroom.resolve_left hn0
    refine ⟨hwrap, fun hnone _ => ?_⟩
    rw [List.find?_eq_none.mpr fun c hc => by rw [hnone c hc]; exact Bool.false_ne_true] at hr
    have := hr.2
    unfold heapEnd at this
    omega
  have hdid : Did T l size.toNat S' p := malloc_did hhT.heap.toDecodes (by omega) happend
    (by rw [BitVec.ofNat_toNat, BitVec.setWidth_eq]; exact hrun) size.isLt
  refine ⟨fuel, s', p, S', hcall, ⟨label', hkeeps, hback⟩, ⟨l'', hholds⟩, fun e he y hy => ?_, fun _ => ?_⟩
  · obtain ⟨x, hx, -, hlo, hhi, -⟩ := hhT.owns he hy
    rw [hdid.keeps hx rfl (by omega) hhi]
    have hm := (hh.safe.inside e he y hy).1
    exact hag.bytes y hm
  · obtain ⟨-, hple, -⟩ := hrep.at_chunk htakes.block
    have hend := hrep.le
    unfold heapEnd at hend
    simp only at hple
    rw [hp]
    exact ofNat_ne_zero (by omega) (by omega)

-- ---------------------------------------------------------------------------
-- zmalloc
-- ---------------------------------------------------------------------------

theorem Backs.fill (hb : Backs S s k label) (hh : Holds S es l) (he : e ∈ es) (h0 : e.2 ≠ 0) : ∀ {j : Nat}, j ≤ e.1.toNat →
    ∃ s' S', HeapMemory.fill s e.2 0 j = some s' ∧ Backs S' s' k label ∧ Holds S' es l ∧
      (∀ i < j, S'.mem (e.2 + BitVec.ofNat 64 i).toNat = 0) ∧
      ∀ y, (∀ i < j, y ≠ (e.2 + BitVec.ofNat 64 i).toNat) → S'.mem y = S.mem y
  | 0, _ => ⟨s, S, rfl, hb, hh, fun _ hi => absurd hi (Nat.not_lt_zero _), fun _ _ => rfl⟩
  | j + 1, hj => by
    obtain ⟨s₁, S₁, hfill, hb₁, hh₁, hzero, hsame⟩ := hb.fill hh he h0 (Nat.le_of_succ_le hj)
    have hy : Owns e (e.2 + BitVec.ofNat 64 j) := ⟨h0, j, hj, rfl⟩
    have hm : S₁.mapped (e.2 + BitVec.ofNat 64 j) := (hh₁.safe.inside e he _ hy).1
    obtain ⟨s', hstore, hst⟩ := hb₁.storeByte (a := e.2 + BitVec.ofNat 64 j) (x := 0) (if_pos hm)
    refine ⟨s', _, ?_, hst.backs, hh₁.setByte he hy, fun i hi => ?_, fun y hne => ?_⟩
    · rw [HeapMemory.fill, hfill]
      exact hstore
    · by_cases hij : (e.2 + BitVec.ofNat 64 i).toNat = (e.2 + BitVec.ofNat 64 j).toNat
      · rw [hij]
        exact Mem.setByte_same
      · refine (Mem.setByte_ne hij).trans (hzero i (Nat.lt_of_le_of_ne (Nat.le_of_lt_succ hi) ?_))
        rintro rfl
        exact hij rfl
    · exact (Mem.setByte_ne (hne j (Nat.lt_succ_self j))).trans (hsame y fun i hi => hne i (Nat.lt_succ_of_lt hi))

theorem Backs.zcall (hb : Backs S s k label) (hh : Holds S es l) (hr : RoomFor s l size.toNat) :
    ∃ fuel s' p S', HeapMemory.zmalloc s size fuel = some (s', p) ∧ Called S es label k size S' s' p ∧
      ∀ y, Owns (size, p) y → S'.mem y.toNat = 0 := by
  obtain ⟨fuel, s₁, p, S₁, hcall, ⟨label₁, hkeeps, hb₁⟩, ⟨l₁, hh₁⟩, hkept, hsome⟩ := hb.call hh hr
  have hmem : (size, p) ∈ es ++ [(size, p)] := List.mem_append_right _ (List.mem_singleton_self _)
  by_cases hp : p = 0
  · have hsize : size = 0 := Classical.not_not.mp fun h => hsome h hp
    subst hsize
    refine ⟨fuel, s₁, p, S₁, ?_, ⟨⟨label₁, hkeeps, hb₁⟩, ⟨l₁, hh₁⟩, hkept, hsome⟩, fun y hy => absurd hp hy.1⟩
    rw [HeapMemory.zmalloc, hcall]
    rfl
  · obtain ⟨s', S', hfill, hb', hh', hzero, hsame⟩ := hb₁.fill hh₁ hmem hp (Nat.le_refl _)
    refine ⟨fuel, s', p, S', ?_, ⟨⟨label₁, hkeeps, hb'⟩, ⟨l₁, hh'⟩, fun e he y hy => ?_, hsome⟩, fun y hy => ?_⟩
    · rw [HeapMemory.zmalloc, hcall]
      show (HeapMemory.fill s₁ p 0 size.toNat).bind _ = _
      rw [hfill]
      rfl
    · refine (hsame y.toNat fun i hi heq => ?_).trans (hkept e he y hy)
      have happart := (List.pairwise_append.mp hh₁.safe.apart).2.2 e he _ (List.mem_singleton_self _) y hy
      exact happart ⟨hp, i, hi, BitVec.eq_of_toNat_eq heq⟩
    · obtain ⟨-, i, hi, rfl⟩ := hy
      exact hzero i hi

-- ---------------------------------------------------------------------------
-- What else the kernel does meanwhile
-- ---------------------------------------------------------------------------

theorem Backs.extends (h : Backs S s k label) {label' : Labels} (he : Extends S S s s' k label label') :
    Backs S s' k label' := by
  refine ⟨he.laid, fun v hv => ?_⟩
  have hd := h.data v hv
  have hphys : physOf s' k v = physOf s k v := by
    unfold physOf
    rw [he.lookup v hv]
  rw [hphys, he.bytes _ (by rw [physOf_div]; exact hd.locked) (by rw [physOf_div]; exact hd.noTable)]
  exact h.bytes v hv

theorem Laid.kept {label' : Labels} (h : Laid S s k label) (hb : Backed k s' label')
    (hroot : label' s'.root = some ⟨s'.root, []⟩) (hlookup : ∀ w, InHeap w → lookup s'.mem k w = lookup s.mem k w)
    (hlock : ∀ g, s.frames.bit g = true → s'.frames.bit g = true)
    (hno : ∀ g, s.frames.bit g = true → label g = none → label' g = none) : Laid S s' k label' where
  backed := hb
  root := hroot
  pages v hv := by rw [hlookup v hv, h.pages v hv]
  inside := h.inside
  data v hv := by
    have hd := h.data v hv
    refine ⟨?_, ?_⟩ <;> rw [hlookup v (h.inside v hv)]
    · exact hlock _ hd.locked
    · exact hno _ hd.locked hd.noTable
  exclusive v w hv hw he := by
    rw [hlookup v (h.inside v hv), hlookup w (h.inside w hw)] at he
    exact h.exclusive v w hv hw he

theorem Laid.create (h : Laid S s k label) (hs : Served s (Memory.pagingCreateEmpty s).2) :
    ∃ c label', (Memory.pagingCreateEmpty s).1 = framePtr c ∧ label' c = some ⟨c, []⟩ ∧
      Extends S S s (Memory.pagingCreateEmpty s).2 k label label' := by
  obtain ⟨c, label', hp, hc⟩ := h.backed.newRoot hs
  have hne : ∀ g, s.frames.bit g = true → g ≠ c := fun g hg he => by
    rw [he, hc.free.2] at hg
    cases hg
  have hno : ∀ g, s.frames.bit g = true → label g = none → label' g = none := fun g hg hl => by
    cases hl' : label' g with
    | none => rfl
    | some l =>
      rcases hc.fresh g l hl' with hl' | rfl
      · rw [hl] at hl'
        cases hl'
      · exact absurd rfl (hne g hg)
  have hlock : ∀ g, s.frames.bit g = true → (Memory.pagingCreateEmpty s).2.frames.bit g = true := fun g hg => by
    rw [hc.bits, hg, Bool.or_true]
  exact ⟨c, label', hp, hc.table, h.kept hc.backed (hc.keeps _ _ h.root)
    (fun w _ => hc.lookup k w h.backed.forest.kernel) hlock hno, hc.keeps, fun w _ => hc.lookup k w h.backed.forest.kernel,
    hlock, hno, fun y hy _ => hc.bytes y (hne _ hy)⟩

theorem Laid.userPage {flags : BitVec 8} (h : Laid S s k label) (hn : label n = some ⟨n, []⟩)
    (hv : Memory.kernelHalf v = false) (hs : Served s (Memory.vmmRequestPage s (framePtr n) v flags)) :
    ∃ label', Extends S S s (Memory.vmmRequestPage s (framePtr n) v flags) k label label' := by
  cases hp : present (lookup s.mem n v) with
  | true =>
    have hsame : Memory.vmmRequestPage s (framePtr n) v flags = s := by
      rw [Memory.vmmRequestPage, Memory.pagingGet_lookup (h.backed.forest.bound n _ hn)]
      simp only [hp, if_true]
    rw [hsame]
    exact ⟨label, h.refl⟩
  | false =>
    obtain ⟨f, new, label', hnew⟩ := Memory.vmmRequestPage_new h.backed hn hp hs
    have hkeeps := Memory.vmmRequestPage_keeps s (framePtr n) v flags
    have hno : ∀ g, s.frames.bit g = true → label g = none → label' g = none := fun g hg hl => by
      cases hl' : label' g with
      | none => rfl
      | some l =>
        rcases hnew.fresh g l hl' with hl' | ⟨-, hfree⟩
        · rw [hl] at hl'
          cases hl'
        · rw [hg] at hfree
          cases hfree
    have hlock : ∀ g, s.frames.bit g = true → (Memory.vmmRequestPage s (framePtr n) v flags).frames.bit g = true := by
      intro g hg
      rw [hnew.answers.bits, hg, Bool.or_true]
    have hlookup : ∀ w, InHeap w → lookup (Memory.vmmRequestPage s (framePtr n) v flags).mem k w = lookup s.mem k w := by
      intro w hw
      rw [hnew.lookup k w h.backed.forest.kernel, if_neg]
      intro hsame
      have hhalf := Memory.kernelHalf_congr (Memory.samePage_iff.mp hsame).1
      rw [hv, hw.kernelHalf] at hhalf
      cases hhalf
    have hroot : (Memory.vmmRequestPage s (framePtr n) v flags).root = s.root := by
      rw [Machine.root, hkeeps.cr3]
      rfl
    exact ⟨label', h.kept hnew.backed (by rw [hroot]; exact hnew.keeps _ _ h.root) hlookup hlock hno, hnew.keeps,
      fun w hw => hlookup w (h.inside w hw), hlock, hno, fun y hy hl => vmmRequestPage_data h.backed hn hs hy hl rfl⟩

theorem Laid.userPages {flags : BitVec 8} (h : Laid S s k label) (hn : label n = some ⟨n, []⟩) : ∀ {count : Nat},
    (∀ i < count, Memory.kernelHalf (Memory.rangePage v i) = false) →
    Served s (Memory.vmmRequestAt s (framePtr n) v count flags) →
    ∃ label', Extends S S s (Memory.vmmRequestAt s (framePtr n) v count flags) k label label'
  | 0, _, _ => ⟨label, h.refl⟩
  | count + 1, huser, hs => by
    obtain ⟨t, ht⟩ : ∃ t, t = Memory.vmmRequestAt s (framePtr n) v count flags := ⟨_, rfl⟩
    have hstep : Memory.vmmRequestAt s (framePtr n) v (count + 1) flags =
        Memory.vmmRequestPage t (framePtr n) (Memory.rangePage v count) flags := by rw [ht]; rfl
    obtain ⟨c, -, hc⟩ := Memory.vmmRequestAt_allocates s (framePtr n) v flags count
    obtain ⟨d, -, hd⟩ := Memory.vmmRequestPage_allocates t (framePtr n) (Memory.rangePage v count) flags
    rw [← ht] at hc
    rw [hstep] at hs ⊢
    obtain ⟨hs₁, hs₂⟩ := hs.split hc.handed hd.handed
    obtain ⟨label₁, h₁⟩ := h.userPages hn (fun i hi => huser i (Nat.lt_succ_of_lt hi)) (ht ▸ hs₁)
    rw [← ht] at h₁
    obtain ⟨label', h₂⟩ := h₁.laid.userPage (h₁.keeps n _ hn) (huser count (Nat.lt_succ_self count)) hs₂
    exact ⟨label', h₁.trans h₂ fun _ hw => hw⟩

theorem Laid.switch (h : Laid S s k label) (hn : label n = some ⟨n, []⟩) :
    Extends S S s (Memory.pagingWriteCr3 s (framePtr n)) k label label := by
  obtain ⟨t, ht⟩ : ∃ t, t = Memory.pagingWriteCr3 s (framePtr n) := ⟨_, rfl⟩
  have hroot : (Memory.pagingWriteCr3 s (framePtr n)).root = n := Memory.root_writeCr3 (h.backed.forest.bound n _ hn)
  have hb := h.backed.writeCr3 (framePtr n)
  have hmem : (Memory.pagingWriteCr3 s (framePtr n)).mem = s.mem := Memory.writeCr3_mem
  have hframes : (Memory.pagingWriteCr3 s (framePtr n)).frames = s.frames := Memory.writeCr3_frames
  rw [← ht] at hroot hb hmem hframes ⊢
  have hlookup : ∀ w, lookup t.mem k w = lookup s.mem k w := fun w => by rw [hmem]
  have hlock : ∀ g, s.frames.bit g = true → t.frames.bit g = true := fun g hg => by rw [hframes, hg]
  exact ⟨h.kept hb (by rw [hroot]; exact hn) (fun w _ => hlookup w) hlock fun _ _ hl => hl, fun _ _ hl => hl,
    fun w _ => hlookup w, hlock, fun _ _ hl => hl, fun y _ _ => by rw [hmem]⟩

end ShedOS.Heap
