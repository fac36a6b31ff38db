import ShedOS.Heap.Calls
import ShedOS.Heap.Mfree

/-!
# The limit of the heap

`malloc` compares the end of the heap with `KERNEL_HEAP_VIRTUAL_END` before it
appends pages, and not the end of the pages.
-/

namespace ShedOS.Heap

open Bytes Tiling
open Memory (U64 addrPageAlignUp)
open Relation (ReflTransGen)

variable {s s' s₀ t t' : Space} {a k x fuel n : Nat} {v p : U64} {c d : Chunk} {l pre post : List Chunk} {u : Bool}

-- ---------------------------------------------------------------------------
-- Pages
-- ---------------------------------------------------------------------------

theorem vmmRequestAt_new {vaddr y : U64} (h : (vmmRequestAt s vaddr n).mapped y) :
    s.mapped y ∨ ∃ i < n, y >>> 12 = (vaddr + BitVec.ofNat 64 i * 0x1000) >>> 12 := by
  refine Loops.upto_rule (fun j (t : Space) => t.mapped y → s.mapped y ∨
    ∃ i < j, y >>> 12 = (vaddr + BitVec.ofNat 64 i * 0x1000) >>> 12) (fun h => .inl h) (fun j t hj ih hy => ?_) h
  have hold : t.mapped y → s.mapped y ∨ ∃ i < j + 1, y >>> 12 = (vaddr + BitVec.ofNat 64 i * 0x1000) >>> 12 := fun hy =>
    (ih hy).imp id fun ⟨i, hi, he⟩ => ⟨i, Nat.lt_succ_of_lt hi, he⟩
  simp only at hy
  split at hy
  · exact hold hy
  · rw [mapPage_mapped, Bool.or_eq_true, beq_iff_eq] at hy
    exact hy.elim hold fun he => .inr ⟨j, Nat.lt_succ_self j, he⟩

theorem vmmRequestAt_below {y : U64} (hle : a + 0x1000 * n ≤ heapEnd) (hy : KERNEL_HEAP_VIRTUAL_END ≤ y)
    (h : (vmmRequestAt s (BitVec.ofNat 64 a) n).mapped y) : s.mapped y := by
  unfold heapEnd at hle
  refine (vmmRequestAt_new h).resolve_right ?_
  rintro ⟨i, hi, he⟩
  have hlast : 0x1000 * i + 0x1000 ≤ 0x1000 * n := Nat.mul_le_mul_left 0x1000 hi
  have htarget : (BitVec.ofNat 64 a + BitVec.ofNat 64 i * 0x1000).toNat = a + 0x1000 * i := by
    rw [BitVec.toNat_add, BitVec.toNat_mul, toNat_ofNat_lt (by omega), toNat_ofNat_lt (by omega)]
    simp
    omega
  have hnat := congrArg BitVec.toNat he
  rw [BitVec.toNat_ushiftRight, BitVec.toNat_ushiftRight, htarget, Nat.shiftRight_eq_div_pow,
    Nat.shiftRight_eq_div_pow] at hnat
  have hy : heapEnd ≤ y.toNat := BitVec.le_def.mp hy
  unfold heapEnd at hy
  omega

-- ---------------------------------------------------------------------------
-- Runs
-- ---------------------------------------------------------------------------

def Ordered (s : Space) : Prop := ∃ l, Decodes s l ∧ tailOf l + 24 ≤ heapEnd

/-- A call that came back with `p`: it did nothing, or the heap is below the
limit, with the pages it has taken since `s₀`. -/
def LimitKept (s₀ s s' : Space) (p : U64) : Prop :=
  p = 0 ∧ s' = s ∨ (∀ y, KERNEL_HEAP_VIRTUAL_END ≤ y → s'.mapped y → s₀.mapped y) ∧ Ordered s'

/-- `p` is a block of the list. `PREV_HDR` is not asked for, or finds a byte
other than zero, or has the right size by chance. -/
def FreesInOrder (s : Space) (l : List Chunk) (p : U64) : Prop := ∃ pre c post, l = pre ++ c :: post ∧
  p = BitVec.ofNat 64 (tailOf pre + 24) ∧ (s.mem.read64 (tailOf pre + 16) = 0 ∨
    s.inUse (wrongPrev (tailOf pre) c.size) = some true ∨ ∃ d ∈ pre.getLast?, d.size = c.size)

def FreesInOrderIn (s : Space) (p : U64) : Prop := ∃ l, Decodes s l ∧ FreesInOrder s l p

/-- Calls with room below the limit, and frees that go back to the chunk before or to none. -/
inductive HeapStep : Space → Space → Prop
  | malloc {s s' : Space} {n p : U64} {fuel : Nat} (hn : RoomyIn s n) (h : malloc s n fuel = some (s', p)) :
      HeapStep s s'
  | mfree {s s' : Space} {p : U64} (hp : FreesInOrderIn s p) (h : mfree s p = some s') : HeapStep s s'

structure Below (s₀ s : Space) : Prop where
  heap : ∃ l, Represents s l
  pages : ∀ y, KERNEL_HEAP_VIRTUAL_END ≤ y → s.mapped y → s₀.mapped y

theorem Represents.ordered (h : Represents s l) : Ordered s := ⟨l, h.toDecodes, h.le⟩

theorem Represents.malloc_pages (h : Represents s l) (hr : Roomy l n) (hn64 : n < 2 ^ 64)
    (hrun : malloc s (BitVec.ofNat 64 n) fuel = some (s', p)) {y : U64} (hy : KERNEL_HEAP_VIRTUAL_END ≤ y)
    (hmapped : s'.mapped y) : s.mapped y := by
  have hend : heapEnd < 2 ^ 64 := by decide
  have hle := h.le
  have hgrows : n ≠ 0 → (∀ c ∈ l, c.fits (n + 24) = false) → tailOf l + 24 + 0x1000 * pageCount (n + 24) ≤ heapEnd :=
    fun hn hnone => by
      have hroom := (hr.resolve_left hn).2
      rw [List.find?_eq_none.mpr (by simpa using hnone)] at hroom
      exact hroom.2
  have happend : n ≠ 0 → Appendable l n := fun hn =>
    ⟨(hr.resolve_left hn).1, fun hnone _ => (hgrows hn hnone).trans_lt hend⟩
  cases malloc_did h.toDecodes (by omega) happend hrun hn64 with
  | nothing => exact hmapped
  | full => exact hmapped
  | found => exact hmapped
  | @grown k hn hk hnone => exact vmmRequestAt_below (hk ▸ hgrows hn hnone) hy hmapped

theorem Below.malloc (h : Below s₀ s) (hn : RoomyIn s v) : (∃ fuel s' p, malloc s v fuel = some (s', p)) ∧
    ∀ fuel s' p, malloc s v fuel = some (s', p) → Below s₀ s' := by
  obtain ⟨l, hrep⟩ := h.heap
  obtain ⟨l₀, hdec₀, hroom⟩ := hn
  obtain rfl := hrep.toDecodes.unique hdec₀
  obtain ⟨n, hv⟩ : ∃ n, n = v.toNat := ⟨_, rfl⟩
  obtain rfl : v = BitVec.ofNat 64 n := by rw [hv, BitVec.ofNat_toNat, BitVec.setWidth_eq]
  have hn64 : n < 2 ^ 64 := hv ▸ BitVec.isLt _
  rw [← hv] at hroom
  by_cases hn0 : n = 0
  · subst hn0
    refine ⟨⟨0, s, 0, malloc_zero⟩, fun fuel s' p hrun => ?_⟩
    obtain ⟨rfl, -⟩ := Prod.mk.inj (Option.some.inj hrun)
    exact h
  · obtain ⟨k, s₁, pre, l', hrun₁, -, hrep'⟩ := malloc_spec hrep hroom hn0
    refine ⟨⟨k, s₁, _, hrun₁⟩, fun fuel s' p hrun => ⟨⟨l', ?_⟩, fun y hy hmapped => ?_⟩⟩
    · obtain ⟨rfl, -⟩ := Prod.mk.inj (malloc_unique hrun₁ hrun)
      exact hrep'
    · exact h.pages y hy (hrep.malloc_pages hroom hn64 hrun hy hmapped)

-- ---------------------------------------------------------------------------
-- mfree
-- ---------------------------------------------------------------------------

/-- A `size_prev`, of a chunk or of the last header, is not read by the list. -/
theorem Decodes.setSizePrev {pages : U64 → Bool} (h : Decodes s l)
    (hx : x = tailOf l ∨ ∃ c, (x, c) ∈ places Chunk.width heapStart l) : Decodes ⟨s.mem.write64 (x + 16) v, pages⟩ l := by
  have hapart : ∀ y d, (y, d) ∈ places Chunk.width heapStart l → y + 24 ≤ x ∨ x = y ∨ x + 24 ≤ y := by
    intro y d hy
    have hwidth : d.width = 24 + d.size := rfl
    rcases hx with rfl | ⟨c, hc⟩
    · have hin : y + d.width ≤ tailOf l := (within hy).2
      omega
    · have hwidth' : c.width = 24 + c.size := rfl
      rcases Tiling.apart hc hy with heq | happart
      · exact .inr (.inl (congrArg Prod.fst heq))
      · omega
  refine ⟨h.chunks.congr fun y d hy k hk hk' => Mem.write64_outside ?_, ?_⟩
  · have := hapart y d hy
    omega
  · have htail : x ≤ tailOf l := by
      rcases hx with rfl | ⟨c, hc⟩
      · exact Nat.le_refl _
      · exact (Nat.le_add_right x _).trans (within hc).2
    have hfar : x = tailOf l ∨ x + 24 ≤ tailOf l := by
      rcases hx with rfl | ⟨c, hc⟩
      · exact .inl rfl
      · have hin : x + (24 + c.size) ≤ tailOf l := (within hc).2
        omega
    change (s.mem.write64 (x + 16) v).read64 (tailOf l + 8) = 0
    rw [Mem.read64_write64_apart (by omega)]
    exact h.tail

theorem tailOf_join : tailOf (pre ++ ⟨u, c.size + (d.size + 24)⟩ :: post) = tailOf (pre ++ c :: d :: post) := by
  rw [tailOf_cons, tailOf_cons, stop]
  congr 1
  simp only [Chunk.width]
  omega

theorem Decodes.join {pages : U64 → Bool} (h : Decodes s (pre ++ c :: d :: post))
    (hb : tailOf (pre ++ c :: d :: post) < 2 ^ 64) :
    Decodes ⟨s.mem.write64 (tailOf pre + 8) (BitVec.ofNat 64 (c.size + (d.size + 24))), pages⟩
      (pre ++ ⟨c.inUse, c.size + (d.size + 24)⟩ :: post) := by
  obtain ⟨hpre, hrest⟩ := chunks_append.mp h.chunks
  obtain ⟨⟨hc, h0⟩, hrest⟩ := chunks_cons.mp hrest
  obtain ⟨-, hpost⟩ := chunks_cons.mp hrest
  have hat : stop Chunk.width heapStart pre + c.width + d.width = tailOf pre + (24 + (c.size + (d.size + 24))) := by
    simp only [Chunk.width, tailOf]
    omega
  have hle : tailOf pre + (24 + c.size) + (24 + d.size) ≤ tailOf (pre ++ c :: d :: post) := by
    rw [tailOf_cons, stop]
    exact le_stop
  refine ⟨chunks_append.mpr ⟨hpre.congr_range fun k _ hk => Mem.write64_outside (.inl (by unfold tailOf; omega)),
    chunks_cons.mpr ⟨⟨⟨?_, ?_⟩, by simp only; omega⟩, ?_⟩⟩, ?_⟩
  · change (s.mem.write64 (tailOf pre + 8) _ (tailOf pre) != 0) = _
    rw [Mem.write64_outside (by omega)]
    exact hc.1
  · change ((s.mem.write64 (tailOf pre + 8) _).read64 (tailOf pre + 8)).toNat = _
    rw [Mem.read64_write64, toNat_ofNat_lt (by omega)]
  · rw [hat] at hpost
    exact hpost.congr_range fun k hk _ => Mem.write64_outside (.inr (by omega))
  · rw [tailOf_join]
    change (s.mem.write64 (tailOf pre + 8) _).read64 _ = 0
    rw [Mem.read64_write64_apart (by omega)]
    exact h.tail

theorem mergeNext_ends (h : Decodes s (pre ++ c :: post)) (hle : tailOf (pre ++ c :: post) + 24 ≤ heapEnd)
    (hrun : mergeNext s (BitVec.ofNat 64 (tailOf pre)) = some s') :
    ∃ l, Decodes s' l ∧ tailOf l = tailOf (pre ++ c :: post) := by
  have hend : heapEnd < 2 ^ 64 := by decide
  have hstop : tailOf pre + (24 + c.size) ≤ tailOf (pre ++ c :: post) := tailOf_cons ▸ le_stop
  obtain ⟨-, hrest⟩ := chunks_append.mp h.chunks
  obtain ⟨⟨hc, -⟩, hpost⟩ := chunks_cons.mp hrest
  have hc : (s.mem.read64 (tailOf pre + 8)).toNat = c.size := hc.2
  obtain ⟨hdrNext, hnext, hrun⟩ := Option.bind_eq_some_iff.mp hrun
  obtain ⟨u, hu, hrun⟩ := Option.bind_eq_some_iff.mp hrun
  obtain ⟨w, hw, hrun⟩ := Option.bind_eq_some_iff.mp hrun
  obtain rfl : hdrNext = BitVec.ofNat 64 (tailOf pre + 24 + c.size) := by rw [nextHdr_some (by omega) hnext, hc]
  have hw := size_some (by omega) hw
  split at hrun
  case isFalse => exact ⟨_, Option.some.inj hrun ▸ h, rfl⟩
  case isTrue hmerge =>
    rw [Bool.and_eq_true, decide_eq_true_iff] at hmerge
    cases post with
    | nil =>
      exact absurd (hw.symm.trans (tailOf_concat ▸ h.tail)) hmerge.2
    | cons d post =>
      have hat : tailOf pre + c.width = tailOf pre + 24 + c.size := by
        simp only [Chunk.width]
        omega
      have hstop' : tailOf pre + (24 + c.size) + (24 + d.size) ≤ tailOf (pre ++ c :: d :: post) := by
        rw [tailOf_cons, stop]
        exact le_stop
      have hd : (s.mem.read64 (tailOf pre + 24 + c.size + 8)).toNat = d.size := hat ▸ (chunks_cons.mp hpost).1.1.2
      obtain ⟨w₁, hw₁, hrun⟩ := Option.bind_eq_some_iff.mp hrun
      obtain ⟨w₂, hw₂, hrun⟩ := Option.bind_eq_some_iff.mp hrun
      obtain ⟨s₁, hs₁, hrun⟩ := Option.bind_eq_some_iff.mp hrun
      obtain ⟨nextnext, hnextnext, hrun⟩ := Option.bind_eq_some_iff.mp hrun
      obtain ⟨w₃, -, hrun⟩ := Option.bind_eq_some_iff.mp hrun
      have hsum : w₁ + (w₂ + sizeofChunkHdr) = BitVec.ofNat 64 (c.size + (d.size + 24)) := by
        have hw₁ := congrArg BitVec.toNat (size_some (by omega) hw₁)
        have hw₂ := congrArg BitVec.toNat (size_some (by omega) hw₂)
        rw [hc] at hw₁
        rw [hd] at hw₂
        rw [sizeofChunkHdr, hw₁, hw₂]
        bv_omega
      have hs₁ := setSize_some (by omega) hs₁
      rw [hsum] at hs₁
      have hjoin : Decodes s₁ (pre ++ ⟨c.inUse, c.size + (d.size + 24)⟩ :: post) := hs₁ ▸ h.join (by omega)
      have hread : (s₁.mem.read64 (tailOf pre + 24 + c.size + 8)).toNat = d.size := by
        rw [hs₁]
        change ((s.mem.write64 (tailOf pre + 8) _).read64 _).toNat = _
        rw [Mem.read64_write64_apart (by omega), hd]
      obtain rfl : nextnext = BitVec.ofNat 64 (tailOf pre + 24 + c.size + 24 + d.size) := by
        rw [nextHdr_some (by omega) hnextnext, hread]
      have hbehind : tailOf pre + 24 + c.size + 24 + d.size = tailOf (pre ++ [⟨c.inUse, c.size + (d.size + 24)⟩]) := by
        rw [tailOf_concat]
        simp only
        omega
      refine ⟨_, setSizePrev_some (by omega) hrun ▸ hjoin.setSizePrev ?_, tailOf_join⟩
      rw [hbehind]
      cases post with
      | nil => exact .inl rfl
      | cons e post =>
        refine .inr ⟨e, ?_⟩
        rw [List.append_cons]
        exact mem_places

/-- `mergePrev` goes on with a chunk of a list that has the same end. -/
theorem mergePrev_ends {hdr : U64} (h : Decodes s (pre ++ c :: post)) (hle : tailOf (pre ++ c :: post) + 24 ≤ heapEnd)
    (hprev : s.mem.read64 (tailOf pre + 16) = 0 ∨ s.inUse (wrongPrev (tailOf pre) c.size) = some true ∨
      ∃ d ∈ pre.getLast?, d.size = c.size)
    (hrun : mergePrev s (BitVec.ofNat 64 (tailOf pre)) = some (s', hdr)) :
    ∃ pre' c', hdr = BitVec.ofNat 64 (tailOf pre') ∧ Decodes s' (pre' ++ c' :: post) ∧
      tailOf (pre' ++ c' :: post) = tailOf (pre ++ c :: post) := by
  have hend : heapEnd < 2 ^ 64 := by decide
  have hstop : tailOf pre + (24 + c.size) ≤ tailOf (pre ++ c :: post) := tailOf_cons ▸ le_stop
  have hsize : (s.mem.read64 (tailOf pre + 8)).toNat = c.size :=
    (chunks_cons.mp (chunks_append.mp h.chunks).2).1.1.2
  obtain ⟨w, hw, hrun⟩ := Option.bind_eq_some_iff.mp hrun
  split at hrun
  case isFalse =>
    obtain ⟨rfl, rfl⟩ := Prod.mk.inj (Option.some.inj hrun)
    exact ⟨pre, c, rfl, h, rfl⟩
  case isTrue hasked =>
    obtain ⟨hdrPrev, hdrPrev_eq, hrun⟩ := Option.bind_eq_some_iff.mp hrun
    obtain ⟨u, hu, hrun⟩ := Option.bind_eq_some_iff.mp hrun
    obtain ⟨v, hv, hdrPrev_eq⟩ := Option.bind_eq_some_iff.mp hdrPrev_eq
    obtain rfl : v = BitVec.ofNat 64 c.size := by
      rw [← hsize, ← size_some (by omega) hv, BitVec.ofNat_toNat, BitVec.setWidth_eq]
    obtain rfl : wrongPrev (tailOf pre) c.size = hdrPrev := Option.some.inj hdrPrev_eq
    cases u with
    | true =>
      obtain ⟨rfl, rfl⟩ := Prod.mk.inj (Option.some.inj hrun)
      exact ⟨pre, c, rfl, h, rfl⟩
    | false =>
      obtain ⟨d, hd, heq⟩ : ∃ d ∈ pre.getLast?, d.size = c.size := by
        refine (hprev.resolve_left fun h0 => hasked ?_).resolve_left fun htrue => ?_
        · rw [← sizePrev_some (by omega) hw, h0]
        · rw [htrue] at hu
          exact absurd (Option.some.inj hu) (by decide)
      obtain ⟨pre₀, rfl⟩ := List.getLast?_eq_some_iff.mp hd
      have hat : tailOf (pre₀ ++ [d]) = tailOf pre₀ + 24 + d.size := tailOf_concat
      rw [wrongPrev_concat heq] at hrun
      rw [List.append_assoc, List.singleton_append] at h
      obtain ⟨hsized, -⟩ := (chunks_cons.mp (chunks_append.mp h.chunks).2).1
      have hsized : (s.mem.read64 (tailOf pre₀ + 8)).toNat = d.size := hsized.2
      obtain ⟨w₁, hw₁, hrun⟩ := Option.bind_eq_some_iff.mp hrun
      obtain ⟨w₂, hw₂, hrun⟩ := Option.bind_eq_some_iff.mp hrun
      obtain ⟨s₁, hs₁, hrun⟩ := Option.bind_eq_some_iff.mp hrun
      obtain ⟨rfl, rfl⟩ := Prod.mk.inj (Option.some.inj hrun)
      have hsum : w₁ + (w₂ + sizeofChunkHdr) = BitVec.ofNat 64 (d.size + (c.size + 24)) := by
        have hw₁ := congrArg BitVec.toNat (size_some (by omega) hw₁)
        have hw₂ := congrArg BitVec.toNat (size_some (by omega) hw₂)
        rw [hsized] at hw₁
        rw [hsize] at hw₂
        rw [sizeofChunkHdr, hw₁, hw₂]
        bv_omega
      have hs₁ := setSize_some (by omega) hs₁
      rw [hsum] at hs₁
      rw [List.append_assoc, List.singleton_append] at hle ⊢
      exact ⟨pre₀, ⟨d.inUse, d.size + (c.size + 24)⟩, rfl, hs₁ ▸ h.join (by omega), tailOf_join⟩

theorem Decodes.mfree (hdec : Decodes s l) (hle : tailOf l + 24 ≤ heapEnd) (hp : FreesInOrderIn s p)
    (hrun : mfree s p = some s') : ∃ l', Decodes s' l' ∧ tailOf l' = tailOf l := by
  have hend : heapEnd < 2 ^ 64 := by decide
  obtain ⟨l₀, hdec₀, pre, c, post, rfl, rfl, hprev⟩ := hp
  obtain rfl := hdec.unique hdec₀
  have hstop : tailOf pre + (24 + c.size) ≤ tailOf (pre ++ c :: post) := tailOf_cons ▸ le_stop
  have hhdr : chunkHdr (BitVec.ofNat 64 (tailOf pre + 24)) = BitVec.ofNat 64 (tailOf pre) := by
    rw [chunkHdr, sizeofChunkHdr]
    bv_omega
  rw [Heap.mfree, hhdr] at hrun
  obtain ⟨s₁, hs₁, hrun⟩ := Option.bind_eq_some_iff.mp hrun
  obtain ⟨⟨s₂, hdr⟩, hs₂, hrun⟩ := Option.bind_eq_some_iff.mp hrun
  obtain rfl : s₁ = clearInUse s (tailOf pre) := setInUse_some (by omega) hs₁
  -- neither the tag nor the byte that `PREV_HDR` finds is the one that was cleared
  have hprev : (clearInUse s (tailOf pre)).mem.read64 (tailOf pre + 16) = 0 ∨
      (clearInUse s (tailOf pre)).inUse (wrongPrev (tailOf pre) c.size) = some true ∨
        ∃ d ∈ pre.getLast?, d.size = c.size := by
    rwa [clearInUse_mem, read64_setByte (.inl (by omega)), clearInUse_inUse (wrongPrev_toNat_ne (by omega))]
  have hle' : tailOf (pre ++ ⟨false, c.size⟩ :: post) + 24 ≤ heapEnd := tailOf_inUse.symm ▸ hle
  obtain ⟨pre', c', rfl, hdec', hat⟩ := mergePrev_ends hdec.clear hle' hprev hs₂
  obtain ⟨l', hl', htail⟩ := mergeNext_ends hdec' (hat ▸ hle') hrun
  exact ⟨l', hl', htail.trans (hat.trans tailOf_inUse)⟩

theorem setInUse_pages {u : Bool} (h : s.setInUse v u = some s') : s'.pages = s.pages := by
  unfold Space.setInUse Space.storeBool at h
  split at h
  · rw [← Option.some.inj h]
  · cases h

theorem store_pages (h : s.store v p = some s') : s'.pages = s.pages := by
  unfold Space.store at h
  split at h
  · rw [← Option.some.inj h]
  · cases h

theorem mergePrev_pages {hdr : U64} (h : mergePrev s v = some (s', hdr)) : s'.pages = s.pages := by
  obtain ⟨w, -, h⟩ := Option.bind_eq_some_iff.mp h
  split at h
  · obtain ⟨hdrPrev, -, h⟩ := Option.bind_eq_some_iff.mp h
    obtain ⟨u, -, h⟩ := Option.bind_eq_some_iff.mp h
    split at h
    · obtain ⟨w₁, -, h⟩ := Option.bind_eq_some_iff.mp h
      obtain ⟨w₂, -, h⟩ := Option.bind_eq_some_iff.mp h
      obtain ⟨s₁, hs₁, h⟩ := Option.bind_eq_some_iff.mp h
      obtain ⟨rfl, -⟩ := Prod.mk.inj (Option.some.inj h)
      exact store_pages hs₁
    · obtain ⟨rfl, -⟩ := Prod.mk.inj (Option.some.inj h)
      rfl
  · obtain ⟨rfl, -⟩ := Prod.mk.inj (Option.some.inj h)
    rfl

theorem mergeNext_pages (h : mergeNext s v = some s') : s'.pages = s.pages := by
  obtain ⟨hdrNext, -, h⟩ := Option.bind_eq_some_iff.mp h
  obtain ⟨u, -, h⟩ := Option.bind_eq_some_iff.mp h
  obtain ⟨w, -, h⟩ := Option.bind_eq_some_iff.mp h
  split at h
  · obtain ⟨w₁, -, h⟩ := Option.bind_eq_some_iff.mp h
    obtain ⟨w₂, -, h⟩ := Option.bind_eq_some_iff.mp h
    obtain ⟨s₁, hs₁, h⟩ := Option.bind_eq_some_iff.mp h
    obtain ⟨nextnext, -, h⟩ := Option.bind_eq_some_iff.mp h
    obtain ⟨w₃, -, h⟩ := Option.bind_eq_some_iff.mp h
    exact (store_pages h).trans (store_pages hs₁)
  · rw [← Option.some.inj h]

theorem mfree_pages (h : mfree s v = some s') : s'.pages = s.pages := by
  obtain ⟨s₁, hs₁, h⟩ := Option.bind_eq_some_iff.mp h
  obtain ⟨⟨s₂, hdr⟩, hs₂, h⟩ := Option.bind_eq_some_iff.mp h
  exact (mergeNext_pages h).trans ((mergePrev_pages hs₂).trans (setInUse_pages hs₁))

theorem below_preserved (s₀ : Space) : Transition.Preserved HeapStep (Below s₀) := by
  intro s s' h hstep
  cases hstep with
  | malloc hn hrun => exact (h.malloc hn).2 _ _ _ hrun
  | mfree hp hrun =>
    obtain ⟨l, hrep⟩ := h.heap
    obtain ⟨l', hdec, htail⟩ := hrep.toDecodes.mfree hrep.le hp hrun
    have hmapped : ∀ y, s'.mapped y = s.mapped y := fun y => by rw [Space.mapped, mfree_pages hrun, Space.mapped]
    refine ⟨⟨l', hdec, fun x hx hx' => ?_, htail ▸ hrep.le, htail ▸ hrep.aligned⟩, fun y hy hy' => h.pages y hy ?_⟩
    · rw [hmapped]
      exact hrep.mapped x hx (htail ▸ hx')
    · rwa [hmapped] at hy'

/-- In every run of calls with room, every call with room comes back and keeps
the limit. -/
theorem malloc_keeps_limit (hinit : mallocInit s₀ = some s) (hrun : ReflTransGen HeapStep s t) (hn : RoomyIn t v) :
    (∃ fuel t' p, malloc t v fuel = some (t', p)) ∧
      ∀ fuel t' p, malloc t v fuel = some (t', p) → LimitKept s₀ t t' p := by
  obtain ⟨s₁, hinit', hrep, -, hpages⟩ := mallocInit_spec s₀
  obtain rfl := Option.some.inj (hinit.symm.trans hinit')
  have hstart : Below s₀ s := by
    refine ⟨⟨_, hrep⟩, fun y hy hmapped => ?_⟩
    rw [Space.mapped, hpages, show KERNEL_HEAP_VIRTUAL_START = BitVec.ofNat 64 heapStart by decide] at hmapped
    exact vmmRequestAt_below (by decide) hy hmapped
  obtain ⟨hreturns, hbelow⟩ := ((below_preserved s₀).run hstart hrun).malloc hn
  refine ⟨hreturns, fun fuel t' p h => ?_⟩
  obtain ⟨⟨l, hrep'⟩, hpages'⟩ := hbelow fuel t' p h
  exact .inr ⟨hpages', hrep'.ordered⟩

theorem malloc_keeps_limit_second : ∃ s t k t' p, mallocInit blank = some s ∧ HeapStep s t ∧
    malloc t 100 k = some (t', p) ∧ LimitKept blank t t' p := by
  obtain ⟨s, t, s'', e, e', hinit, ⟨hroom, fuel, hrun⟩, ⟨hroom', -⟩, -, he', -⟩ := two_calls blank
  have hstep : HeapStep s t := .malloc hroom hrun
  obtain ⟨⟨k, t', p, hcall⟩, hkept⟩ := malloc_keeps_limit hinit (.single hstep) (he' ▸ hroom')
  exact ⟨s, t, k, t', p, hinit, hstep, hcall, hkept k t' p hcall⟩

theorem malloc_grown (h : Represents s l) (hn : n ≠ 0) (hnone : l.find? (Chunk.fits (n + 24)) = none) (hk : k = pageCount (n + 24))
    (hlt : n + 24 < 0x1000 * k - 24) (hb : tailOf l + 24 + 0x1000 * k < 2 ^ 64) : ∃ s', malloc s (BitVec.ofNat 64 n) (l.length + 1) =
      some (s', BitVec.ofNat 64 (tailOf l + 24)) ∧ Decodes s' (l ++ [⟨true, n⟩, ⟨false, 0x1000 * k - 24 - (n + 24)⟩]) := by
  have hcount : (addrPageAlignUp (BitVec.ofNat 64 (n + 24)) / 0x1000).toNat = k := by
    rw [hk]
    refine Memory.addrPageAlignUp_div ?_
    rw [hk] at hb
    unfold pageCount at hb
    omega
  have hold : Mapped s (tailOf l) (tailOf l + 24) := h.mapped.mono heapStart_le (Nat.le_refl _)
  obtain ⟨t, ht⟩ : ∃ t, t = vmmRequestAt s (BitVec.ofNat 64 (tailOf l + 24)) k := ⟨_, rfl⟩
  have hgrow := growHeap_eq hcount (by omega) hold h.aligned hb
  rw [← ht] at hgrow
  have hmapped : Mapped { t with mem := growMem s.mem (tailOf l) k } (tailOf l) (tailOf l + 24 + n + 24) := fun x hx hx' => by
    change t.mapped (BitVec.ofNat 64 x)
    by_cases hin : x < tailOf l + 24
    · exact ht ▸ vmmRequestAt_mapped_of (hold x hx hin)
    · exact ht ▸ vmmRequestAt_mapped h.aligned (Nat.le_of_lt hb) x (by omega) (by omega)
  have hdec : Decodes { t with mem := growMem s.mem (tailOf l) k } (l ++ ⟨s.mem (tailOf l) != 0, 0x1000 * k - 24⟩ :: []) :=
    h.toDecodes.grow (by omega) (by omega)
  have hsize := (chunks_cons.mp (chunks_append.mp hdec.chunks).2).1.1.2
  refine ⟨_, malloc_append h hn (by omega) hnone hgrow (splitChunk_eq hmapped (by omega) hsize), ?_⟩
  refine hdec.split hn hlt ?_
  rw [tailOf_grow (by omega)]
  omega

/-- The first call asks for all of the heap's 8 GiB: the check is made at its
first page. -/
theorem malloc_passes_limit : ∃ s k s' p, mallocInit blank = some s ∧ malloc s 0x200000000 k = some (s', p) ∧
    ¬ LimitKept blank s s' p := by
  obtain ⟨s, hinit, hrep, -⟩ := mallocInit_spec blank
  obtain ⟨s', hrun, hdec⟩ := malloc_grown (n := 0x200000000) hrep (by decide) (by decide) rfl (by decide) (by decide)
  refine ⟨s, _, s', _, hinit, hrun, ?_⟩
  rintro (⟨h0, -⟩ | ⟨-, l, hl, hle⟩)
  · exact absurd h0 (by decide)
  · rw [← hdec.unique hl] at hle
    exact absurd hle (by decide)

end ShedOS.Heap
