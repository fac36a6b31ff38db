import ShedOS.Heap.Alloc
import ShedOS.Lib.Tiling

/-!
# The heap as a list of chunks

Addresses are numbers here, below `2 ^ 64`: no chunk wraps around.
-/

namespace ShedOS.Heap

open Bytes Tiling Loops
open Memory (U64)

structure Chunk where
  inUse : Bool
  size : Nat
  deriving DecidableEq, Repr

def Chunk.width (c : Chunk) : Nat := 24 + c.size

def heapStart : Nat := 0xffff810000000000

/-- The header at `a` is that of `c`, but for `size_prev`. -/
def Header (m : Mem) (a : Nat) (c : Chunk) : Prop := (m a != 0) = c.inUse ∧ (m.read64 (a + 8)).toNat = c.size

def Chunks (m : Mem) (a : Nat) (l : List Chunk) : Prop :=
  ∀ x c, (x, c) ∈ places Chunk.width a l → Header m x c ∧ c.size ≠ 0

def Mapped (s : Space) (lo hi : Nat) : Prop := ∀ x, lo ≤ x → x < hi → s.mapped (BitVec.ofNat 64 x)

variable {s s' : Space} {m m' : Mem} {a b lo hi x n k : Nat} {v w : U64} {c : Chunk} {l pre post : List Chunk} {u : Bool}

theorem Header.congr (h : Header m a c) (hm : ∀ k, a ≤ k → k < a + 16 → m' k = m k) : Header m' a c := by
  refine ⟨?_, ?_⟩
  · rw [hm a (Nat.le_refl a) (by omega)]
    exact h.1
  · rw [Mem.read64_congr fun k hk hk' => hm k (by omega) (by omega)]
    exact h.2

theorem chunks_nil : Chunks m a [] := fun _ _ h => by cases h

theorem chunks_append :
    Chunks m a (pre ++ post) ↔ Chunks m a pre ∧ Chunks m (stop Chunk.width a pre) post := by
  simp only [Chunks, places_append, List.mem_append]
  exact ⟨fun h => ⟨fun x c hx => h x c (.inl hx), fun x c hx => h x c (.inr hx)⟩,
    fun h x c hx => hx.elim (h.1 x c) (h.2 x c)⟩

theorem chunks_cons : Chunks m a (c :: l) ↔ (Header m a c ∧ c.size ≠ 0) ∧ Chunks m (a + c.width) l := by
  constructor
  · exact fun h => ⟨h a c List.mem_cons_self, fun x d hx => h x d (List.mem_cons_of_mem _ hx)⟩
  · rintro ⟨hc, hl⟩ x d hx
    rcases List.mem_cons.mp hx with hx | hx
    · obtain ⟨rfl, rfl⟩ := Prod.ext_iff.mp hx
      exact hc
    · exact hl x d hx

theorem Chunks.congr (h : Chunks m a l)
    (hm : ∀ x c, (x, c) ∈ places Chunk.width a l → ∀ k, x ≤ k → k < x + 16 → m' k = m k) : Chunks m' a l :=
  fun x c hx => ⟨(h x c hx).1.congr (hm x c hx), (h x c hx).2⟩

theorem Chunks.congr_range (h : Chunks m a l) (hm : ∀ k, a ≤ k → k < stop Chunk.width a l → m' k = m k) : Chunks m' a l :=
  h.congr fun x c hx k hk hk' => by
    have hw := within hx
    have hwidth : c.width = 24 + c.size := rfl
    exact hm k (by omega) (by omega)

-- ---------------------------------------------------------------------------
-- Accesses to mapped memory
-- ---------------------------------------------------------------------------

theorem Mapped.mono (h : Mapped s lo hi) (hlo : lo ≤ a) (hhi : b ≤ hi) : Mapped s a b :=
  fun x hx hx' => h x (Nat.le_trans hlo hx) (Nat.lt_of_lt_of_le hx' hhi)

theorem ofNat_add : BitVec.ofNat 64 a + BitVec.ofNat 64 k = BitVec.ofNat 64 (a + k) := (BitVec.ofNat_add a k).symm

theorem toNat_ofNat_lt (ha : a < 2 ^ 64) : (BitVec.ofNat 64 a).toNat = a := by
  rw [BitVec.toNat_ofNat, Nat.mod_eq_of_lt ha]

theorem load_eq (h : Mapped s a (a + 8)) (hb : a + 8 ≤ 2 ^ 64) :
    s.load (BitVec.ofNat 64 a) = some (s.mem.read64 a) := by
  have h7 : BitVec.ofNat 64 a + 7 = BitVec.ofNat 64 (a + 7) := ofNat_add
  rw [Space.load, h7, h a (Nat.le_refl a) (by omega), h (a + 7) (by omega) (by omega), toNat_ofNat_lt (by omega)]
  rfl

theorem store_eq (h : Mapped s a (a + 8)) (hb : a + 8 ≤ 2 ^ 64) :
    s.store (BitVec.ofNat 64 a) v = some { s with mem := s.mem.write64 a v } := by
  have h7 : BitVec.ofNat 64 a + 7 = BitVec.ofNat 64 (a + 7) := ofNat_add
  rw [Space.store, h7, h a (Nat.le_refl a) (by omega), h (a + 7) (by omega) (by omega), toNat_ofNat_lt (by omega)]
  rfl

theorem inUse_eq (h : Mapped s a (a + 24)) (hb : a + 24 ≤ 2 ^ 64) :
    s.inUse (BitVec.ofNat 64 a) = some (s.mem a != 0) := by
  rw [Space.inUse, Space.loadBool, if_pos (h a (Nat.le_refl a) (by omega)), toNat_ofNat_lt (by omega)]

theorem size_eq (h : Mapped s a (a + 24)) (hb : a + 24 ≤ 2 ^ 64) :
    s.size (BitVec.ofNat 64 a) = some (s.mem.read64 (a + 8)) := by
  rw [Space.size, show BitVec.ofNat 64 a + 8 = BitVec.ofNat 64 (a + 8) from ofNat_add]
  exact load_eq (h.mono (by omega) (by omega)) (by omega)

theorem sizePrev_eq (h : Mapped s a (a + 24)) (hb : a + 24 ≤ 2 ^ 64) :
    s.sizePrev (BitVec.ofNat 64 a) = some (s.mem.read64 (a + 16)) := by
  rw [Space.sizePrev, show BitVec.ofNat 64 a + 16 = BitVec.ofNat 64 (a + 16) from ofNat_add]
  exact load_eq (h.mono (by omega) (by omega)) (by omega)

theorem setInUse_eq (h : Mapped s a (a + 24)) (hb : a + 24 ≤ 2 ^ 64) :
    s.setInUse (BitVec.ofNat 64 a) u = some { s with mem := s.mem.setByte a (if u then 1 else 0) } := by
  rw [Space.setInUse, Space.storeBool, if_pos (h a (Nat.le_refl a) (by omega)), toNat_ofNat_lt (by omega)]

theorem setSize_eq (h : Mapped s a (a + 24)) (hb : a + 24 ≤ 2 ^ 64) :
    s.setSize (BitVec.ofNat 64 a) v = some { s with mem := s.mem.write64 (a + 8) v } := by
  rw [Space.setSize, show BitVec.ofNat 64 a + 8 = BitVec.ofNat 64 (a + 8) from ofNat_add]
  exact store_eq (h.mono (by omega) (by omega)) (by omega)

theorem setSizePrev_eq (h : Mapped s a (a + 24)) (hb : a + 24 ≤ 2 ^ 64) :
    s.setSizePrev (BitVec.ofNat 64 a) v = some { s with mem := s.mem.write64 (a + 16) v } := by
  rw [Space.setSizePrev, show BitVec.ofNat 64 a + 16 = BitVec.ofNat 64 (a + 16) from ofNat_add]
  exact store_eq (h.mono (by omega) (by omega)) (by omega)

theorem nextHdr_eq (h : Mapped s a (a + 24)) (hb : a + 24 ≤ 2 ^ 64) :
    nextHdr s (BitVec.ofNat 64 a) = some (BitVec.ofNat 64 (a + 24 + (s.mem.read64 (a + 8)).toNat)) := by
  rw [nextHdr, size_eq h hb]
  simp only [Option.bind_eq_bind, Option.bind_some, Option.pure_def, sizeofChunkHdr, Option.some.injEq]
  bv_omega

theorem Mapped.mem (h : Mapped s lo hi) : Mapped { s with mem := m } lo hi := h

def putHeader (m : Mem) (a : Nat) (size prev : U64) (u : Bool) : Mem :=
  ((m.write64 (a + 8) size).setByte a (if u then 1 else 0)).write64 (a + 16) prev

theorem putHeader_outside (h : k < a ∨ a + 24 ≤ k) : putHeader m a v w u k = m k := by
  rw [putHeader, Mem.write64_outside (by omega), Mem.setByte_ne (by omega), Mem.write64_outside (by omega)]

theorem putHeader_inUse : (putHeader m a v w u a != 0) = u := by
  rw [putHeader, Mem.write64_outside (by omega), Mem.setByte_same]
  cases u <;> rfl

theorem putHeader_size : (putHeader m a v w u).read64 (a + 8) = v := by
  have hbyte : ∀ k, a + 8 ≤ k → k < a + 8 + 8 →
      (m.write64 (a + 8) v).setByte a (if u then 1 else 0) k = m.write64 (a + 8) v k :=
    fun k hk _ => Mem.setByte_ne (by omega)
  rw [putHeader, Mem.read64_write64_apart (by omega), Mem.read64_congr hbyte, Mem.read64_write64]

theorem putHeader_sizePrev : (putHeader m a v w u).read64 (a + 16) = w := Mem.read64_write64

theorem putHeader_header : Header (putHeader m a v w u) a ⟨u, v.toNat⟩ :=
  ⟨putHeader_inUse, congrArg BitVec.toNat putHeader_size⟩

-- ---------------------------------------------------------------------------
-- vmm_request_at
-- ---------------------------------------------------------------------------

theorem mapPage_mapped {vaddr y : U64} :
    (s.mapPage vaddr).mapped y = (s.mapped y || y >>> 12 == vaddr >>> 12) := rfl

theorem vmmRequestAt_mem {vaddr : U64} : (vmmRequestAt s vaddr n).mem = s.mem := by
  refine upto_rule (fun _ (t : Space) => t.mem = s.mem) rfl fun i t _ ht => ?_
  simp only
  split
  · exact ht
  · exact ht

theorem vmmRequestAt_mapped_of {vaddr y : U64} (h : s.mapped y) : (vmmRequestAt s vaddr n).mapped y := by
  refine upto_rule (fun _ (t : Space) => t.mapped y) h fun i t _ ht => ?_
  simp only
  split
  · exact ht
  · rw [mapPage_mapped, ht]
    rfl

theorem vmmRequestAt_mapped (ha : a % 0x1000 = 0) (hb : a + 0x1000 * n ≤ 2 ^ 64) :
    Mapped (vmmRequestAt s (BitVec.ofNat 64 a) n) a (a + 0x1000 * n) := by
  have h0 : Mapped s a (a + 0x1000 * 0) := fun x hx hx' => absurd hx (Nat.not_le.mpr hx')
  refine upto_rule (fun i t => Mapped t a (a + 0x1000 * i)) h0 fun i t hi ht => ?_
  have hi64 : i < 2 ^ 64 := by omega
  have hlast : 0x1000 * i + 0x1000 ≤ 0x1000 * n := Nat.mul_le_mul_left 0x1000 hi
  have htarget : (BitVec.ofNat 64 a + BitVec.ofNat 64 i * 0x1000).toNat = a + 0x1000 * i := by
    rw [BitVec.toNat_add, BitVec.toNat_mul, toNat_ofNat_lt (by omega), toNat_ofNat_lt hi64]
    simp
    omega
  intro x hx hx'
  rw [Nat.mul_succ, ← Nat.add_assoc] at hx'
  have hpage : a + 0x1000 * i ≤ x →
      BitVec.ofNat 64 x >>> 12 = (BitVec.ofNat 64 a + BitVec.ofNat 64 i * 0x1000) >>> 12 := by
    intro hin
    refine BitVec.eq_of_toNat_eq ?_
    rw [BitVec.toNat_ushiftRight, BitVec.toNat_ushiftRight, toNat_ofNat_lt (by omega), htarget,
      Nat.shiftRight_eq_div_pow, Nat.shiftRight_eq_div_pow]
    omega
  simp only
  split
  next hm =>
    by_cases hin : a + 0x1000 * i ≤ x
    · rwa [Space.mapped, ← hpage hin] at hm
    · exact ht x hx (Nat.lt_of_not_le hin)
  next =>
    rw [mapPage_mapped]
    by_cases hin : a + 0x1000 * i ≤ x
    · simp [hpage hin]
    · simp [ht x hx (Nat.lt_of_not_le hin)]

end ShedOS.Heap
