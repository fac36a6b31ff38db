import ShedOS.Heap.Calls
import ShedOS.Memory.CowEffect
import ShedOS.Memory.UserMap

/-!
# The heap behind the page tables

`alloc.c` over whatever it takes for its memory: the bytes at virtual addresses
of the model above, or the physical memory behind the tables of the kernel,
with frames from the frame allocator. As long as there are frames, the second
follows the first.
-/

namespace ShedOS.Heap

open Bytes Loops
open Memory (U64 Machine Pmm addrPageAlignUp PAGING_WRITABLE framePtr frameOf frameLimit lookup present mmu Labels Backed
  FrameSource Served pageOf kernelHalf HasData Forest MeetsNoHuge)

-- ---------------------------------------------------------------------------
-- The code
-- ---------------------------------------------------------------------------

/-- What `alloc.c` asks for; `none` is a page fault. -/
class HeapMemory (μ : Type) where
  loadBool : μ → U64 → Option Bool
  load : μ → U64 → Option U64
  storeByte : μ → U64 → BitVec 8 → Option μ
  store : μ → U64 → U64 → Option μ
  /-- `vmm_request_at` on `kernel_table`, with `PAGING_WRITABLE` -/
  requestAt : μ → U64 → Nat → μ

namespace HeapMemory

variable {μ : Type} [HeapMemory μ]

def inUse (s : μ) (hdr : U64) : Option Bool := loadBool s hdr
def size (s : μ) (hdr : U64) : Option U64 := load s (hdr + 8)
def setInUse (s : μ) (hdr : U64) (b : Bool) : Option μ := storeByte s hdr (if b then 1 else 0)
def setSize (s : μ) (hdr v : U64) : Option μ := store s (hdr + 8) v
def setSizePrev (s : μ) (hdr v : U64) : Option μ := store s (hdr + 16) v

def nextHdr (s : μ) (hdr : U64) : Option U64 := do
  return hdr + (← size s hdr) + sizeofChunkHdr

def mallocInit (s : μ) : Option μ := do
  let head := KERNEL_HEAP_VIRTUAL_START
  let s := requestAt s head (allocSize / 0x1000).toNat
  let s ← setSize s head (allocSize - 2 * sizeofChunkHdr)
  let s ← setInUse s head false
  let s ← setSizePrev s head 0
  let tail ← nextHdr s head
  let s ← setSize s tail 0
  let s ← setInUse s tail true
  setSizePrev s tail (← size s head)

def findChunk (s : μ) (wanted hdr : U64) : (fuel : Nat) → Option U64
  | 0 => none
  | fuel + 1 => do
    let hdrSize ← size s hdr
    if hdrSize = 0 then return hdr
    if (← inUse s hdr) || hdrSize < wanted then findChunk s wanted (← nextHdr s hdr) fuel
    else return hdr

def appendChunk (s : μ) (hdr newPageCount : U64) : Option μ := do
  let s ← setSize s hdr (newPageCount * 0x1000 - sizeofChunkHdr)
  let newTail ← nextHdr s hdr
  let s ← setSize s newTail 0
  let s ← setInUse s newTail true
  setSizePrev s newTail (← size s hdr)

def growHeap (s : μ) (hdr newPageCount : U64) : Option μ :=
  appendChunk (requestAt s (hdr + sizeofChunkHdr) newPageCount.toNat) hdr newPageCount

def splitChunk (s : μ) (hdr wanted : U64) : Option μ := do
  let sizeOld ← size s hdr
  let s ← setSize s hdr (wanted - sizeofChunkHdr)
  let s ← setInUse s hdr true
  let hdrNew ← nextHdr s hdr
  let s ← setSize s hdrNew (sizeOld - wanted)
  let s ← setInUse s hdrNew false
  setSizePrev s hdrNew (← size s hdr)

def malloc (s : μ) (n : U64) (fuel : Nat) : Option (μ × U64) := do
  if n = 0 then return (s, 0)
  let wanted := n + sizeofChunkHdr
  let hdr ← findChunk s wanted KERNEL_HEAP_VIRTUAL_START fuel
  if (← size s hdr) = 0 then
    if hdr + sizeofChunkHdr > KERNEL_HEAP_VIRTUAL_END then return (s, 0)
    let s ← growHeap s hdr (addrPageAlignUp wanted / 0x1000)
    let s ← splitChunk s hdr wanted
    return (s, hdr + sizeofChunkHdr)
  let s ← splitChunk s hdr wanted
  return (s, hdr + sizeofChunkHdr)

def fill (s : μ) (a : U64) (c : BitVec 8) : (n : Nat) → Option μ
  | 0 => some s
  | n + 1 => do storeByte (← fill s a c n) (a + BitVec.ofNat 64 n) c

/-- `memset` does not ask whether `malloc` has returned NULL. -/
def zmalloc (s : μ) (n : U64) (fuel : Nat) : Option (μ × U64) := do
  let (s, mem) ← malloc s n fuel
  return (← fill s mem 0 n.toNat, mem)

variable {s : μ} {wanted hdr n r : U64} {fuel fuel' : Nat}

theorem findChunk_mono (h : findChunk s wanted hdr fuel = some r) (hle : fuel ≤ fuel') :
    findChunk s wanted hdr fuel' = some r := by
  induction fuel generalizing hdr fuel' with
  | zero => cases h
  | succ fuel ih =>
    obtain ⟨fuel', rfl⟩ : ∃ j, fuel' = j + 1 := ⟨fuel' - 1, by omega⟩
    rw [findChunk] at h ⊢
    obtain ⟨z, hz, h⟩ := Option.bind_eq_some_iff.mp h
    rw [Option.bind_eq_bind, hz, Option.bind_some]
    split at h
    next h0 => rwa [if_pos h0]
    next h0 =>
      obtain ⟨u, hu, h⟩ := Option.bind_eq_some_iff.mp h
      rw [if_neg h0, Option.bind_eq_bind, hu, Option.bind_some]
      split at h
      next hskip =>
        obtain ⟨hdr', hnext, h⟩ := Option.bind_eq_some_iff.mp h
        rw [if_pos hskip, hnext, Option.bind_some]
        exact ih h (Nat.le_of_succ_le_succ hle)
      next hskip => rwa [if_neg hskip]

theorem malloc_mono {res : μ × U64} (h : malloc s n fuel = some res) (hle : fuel ≤ fuel') : malloc s n fuel' = some res := by
  unfold malloc at h ⊢
  split at h
  next h0 => rwa [if_pos h0]
  next h0 =>
    rw [if_neg h0]
    obtain ⟨hdr, hfind, h⟩ := Option.bind_eq_some_iff.mp h
    simp only [Option.bind_eq_bind]
    rw [findChunk_mono hfind hle]
    exact h

theorem malloc_unique {res res' : μ × U64} (h : malloc s n fuel = some res) (h' : malloc s n fuel' = some res') :
    res = res' := by
  rcases Nat.le_total fuel fuel' with hle | hle
  · exact Option.some.inj ((malloc_mono h hle).symm.trans h')
  · exact Option.some.inj (h.symm.trans (malloc_mono h' hle))

theorem zmalloc_unique {res res' : μ × U64} (h : zmalloc s n fuel = some res) (h' : zmalloc s n fuel' = some res') :
    res = res' := by
  obtain ⟨⟨t, p⟩, hm, h⟩ := Option.bind_eq_some_iff.mp h
  obtain ⟨r, hm', h'⟩ := Option.bind_eq_some_iff.mp h'
  obtain rfl := malloc_unique hm hm'
  exact Option.some.inj (h.symm.trans h')

end HeapMemory

-- ---------------------------------------------------------------------------
-- Bytes at virtual addresses
-- ---------------------------------------------------------------------------

def Space.storeByte (s : Space) (a : U64) (x : BitVec 8) : Option Space :=
  if s.mapped a then some { s with mem := s.mem.setByte a.toNat x } else none

instance : HeapMemory Space where
  loadBool := Space.loadBool
  load := Space.load
  storeByte := Space.storeByte
  store := Space.store
  requestAt := vmmRequestAt

theorem mallocInit_space (s : Space) : HeapMemory.mallocInit s = mallocInit s := rfl

theorem findChunk_space {s : Space} {wanted : U64} : ∀ {fuel : Nat} {hdr : U64},
    HeapMemory.findChunk s wanted hdr fuel = findChunk s wanted hdr fuel
  | 0, _ => rfl
  | fuel + 1, hdr => by
    rw [HeapMemory.findChunk, findChunk]
    simp only [findChunk_space]
    rfl

theorem malloc_space (s : Space) (n : U64) (fuel : Nat) : HeapMemory.malloc s n fuel = malloc s n fuel := by
  rw [HeapMemory.malloc, malloc]
  simp only [findChunk_space]
  rfl

-- ---------------------------------------------------------------------------
-- Bytes behind the tables
-- ---------------------------------------------------------------------------

/-- A load of `n` bytes; every byte has its own translation. -/
def loadBytes (m : Mem) (root : Nat) (a : U64) : (n : Nat) → Option (BitVec (8 * n))
  | 0 => some 0#0
  | n + 1 => do
    let rest ← loadBytes m root (a + 1) n
    let x ← mmu m root a
    return rest ++ m x

def storeBytes (m : Mem) (root : Nat) (a v : U64) : (n : Nat) → Option Mem
  | 0 => some m
  | n + 1 => do
    let m ← storeBytes m root a v n
    let x ← mmu m root (a + BitVec.ofNat 64 n)
    return m.setByte x (v.extractLsb' (8 * n) 8)

instance : HeapMemory (Machine Pmm) where
  loadBool s a := (mmu s.mem s.root a).map fun x => s.mem x != 0
  load s a := loadBytes s.mem s.root a 8
  storeByte s a x := (mmu s.mem s.root a).map fun y => { s with mem := s.mem.setByte y x }
  store s a v := (storeBytes s.mem s.root a v 8).map fun mem => { s with mem }
  requestAt s a n := Memory.vmmRequestAt s s.kernelTable a n (PAGING_WRITABLE.setWidth 8)

-- ---------------------------------------------------------------------------
-- The heap in physical memory
-- ---------------------------------------------------------------------------

variable {S S' : Space} {s s' : Machine Pmm} {k f n r : Nat} {label label' : Labels} {v w a : U64} {x : BitVec 8}

def InHeap (v : U64) : Prop := heapStart ≤ v.toNat ∧ v.toNat < heapEnd

theorem InHeap.kernelHalf (h : InHeap v) : kernelHalf v = true := by
  unfold InHeap heapStart at h
  refine decide_eq_true ?_
  rw [Memory.vaddrToIndex_eq]
  have := v.isLt
  omega

theorem InHeap.not_inWindow (h : InHeap v) : ¬ Memory.InWindow v := by
  unfold InHeap heapStart heapEnd at h
  unfold Memory.InWindow
  simp only [Memory.vaddrToIndex_eq]
  omega

theorem toNat_page : (v >>> 12).toNat = v.toNat / 0x1000 := by
  rw [BitVec.toNat_ushiftRight, Nat.shiftRight_eq_div_pow]

theorem InHeap.pageOf_iff (h : InHeap v) (h' : InHeap w) : pageOf v = pageOf w ↔ v >>> 12 = w >>> 12 := by
  unfold InHeap heapStart heapEnd at h h'
  rw [← BitVec.toNat_inj, ← BitVec.toNat_inj, Memory.toNat_pageOf, Memory.toNat_pageOf, toNat_page, toNat_page]
  omega

/-- The mapped pages of the space are those of the kernel's table, and each has
a frame of its own that is no table. -/
structure Laid (S : Space) (s : Machine Pmm) (k : Nat) (label : Labels) : Prop where
  backed : Backed k s label
  root : label s.root = some ⟨s.root, []⟩
  pages : ∀ v, InHeap v → S.mapped v = present (lookup s.mem k v)
  inside : ∀ v, S.mapped v → InHeap v
  data : ∀ v, S.mapped v → HasData s label k v
  exclusive : ∀ v w, S.mapped v → S.mapped w → frameOf (lookup s.mem k v) = frameOf (lookup s.mem k w) → v >>> 12 = w >>> 12

def physOf (s : Machine Pmm) (k : Nat) (v : U64) : Nat := 0x1000 * frameOf (lookup s.mem k v) + v.toNat % 0x1000

/-- The bytes of the space are those behind the tables. -/
structure Backs (S : Space) (s : Machine Pmm) (k : Nat) (label : Labels) : Prop extends Laid S s k label where
  bytes : ∀ v, S.mapped v → S.mem v.toNat = s.mem (physOf s k v)

theorem Laid.isPresent (h : Laid S s k label) (hv : S.mapped v) : present (lookup s.mem k v) = true :=
  (h.pages v (h.inside v hv)).symm.trans hv

/-- The processor goes the same way under any top-level table. -/
theorem Laid.walk (h : Laid S s k label) (hv : S.mapped v) : mmu s.mem s.root v = some (physOf s k v) := by
  have hin := h.inside v hv
  have hsame : Memory.SamePage k s.root v k v := Memory.samePage_iff.mpr ⟨rfl, .inr hin.kernelHalf⟩
  have hlookup : lookup s.mem s.root v = lookup s.mem k v := by
    rw [lookup, h.backed.forest.walk_samePage h.root h.backed.forest.kernel hsame]
    rfl
  rw [Memory.mmu_lookup (h.backed.windows _ _ h.root hin.not_inWindow), hlookup, Memory.leafAddr, if_pos (h.isPresent hv)]
  rfl

theorem physOf_div : physOf s k v / 0x1000 = frameOf (lookup s.mem k v) := by
  unfold physOf
  omega

theorem Laid.physOf_inj (h : Laid S s k label) (hv : S.mapped v) (hw : S.mapped w) (he : physOf s k v = physOf s k w) :
    v = w := by
  have hframe : frameOf (lookup s.mem k v) = frameOf (lookup s.mem k w) := by rw [← physOf_div, he, physOf_div]
  have hpage := congrArg BitVec.toNat (h.exclusive v w hv hw hframe)
  rw [toNat_page, toNat_page] at hpage
  unfold physOf at he
  rw [hframe] at he
  exact BitVec.eq_of_toNat_eq (by omega)

-- ---------------------------------------------------------------------------
-- Loads and stores
-- ---------------------------------------------------------------------------

theorem Space.mapped_page (h : v >>> 12 = w >>> 12) : S.mapped v = S.mapped w := congrArg S.pages h

theorem Backs.setByte (h : Backs S s k label) (hv : S.mapped v) :
    Backs { S with mem := S.mem.setByte v.toNat x } { s with mem := s.mem.setByte (physOf s k v) x } k label := by
  have hdata := h.data v hv
  have hout : ∀ a, a / 0x1000 ≠ frameOf (lookup s.mem k v) → s.mem.setByte (physOf s k v) x a = s.mem a := fun a ha =>
    Mem.setByte_ne fun e => ha (by rw [e, physOf_div])
  have hlookup : ∀ w, lookup (s.mem.setByte (physOf s k v) x) k w = lookup s.mem k w := fun w =>
    h.backed.forest.lookup_congr h.backed.forest.kernel (Memory.tableRead_outside hdata.noTable hout)
  refine ⟨⟨h.backed.store hdata.noTable hout, h.root, fun w hw => ?_, h.inside, fun w hw => ?_, fun w w' hw hw' => ?_⟩,
    fun w hw => ?_⟩
  · exact (h.pages w hw).trans (by rw [hlookup])
  · obtain ⟨hlocked, htable⟩ := h.data w hw
    exact ⟨by rw [hlookup]; exact hlocked, by rw [hlookup]; exact htable⟩
  · rw [hlookup, hlookup]
    exact h.exclusive w w' hw hw'
  · have hphys : physOf { s with mem := s.mem.setByte (physOf s k v) x } k w = physOf s k w :=
      congrArg (fun e => 0x1000 * frameOf e + w.toNat % 0x1000) (hlookup w)
    rw [hphys]
    show S.mem.setByte v.toNat x w.toNat = s.mem.setByte (physOf s k v) x (physOf s k w)
    by_cases he : w = v
    · rw [he, Mem.setByte_same, Mem.setByte_same]
    · rw [Mem.setByte_ne fun e => he (BitVec.eq_of_toNat_eq e), Mem.setByte_ne fun e => he (h.physOf_inj hw hv e)]
      exact h.bytes w hw

theorem Backs.loadBytes (h : Backs S s k label) : ∀ {n : Nat} {a : U64}, a.toNat + n ≤ 2 ^ 64 →
    (∀ i < n, S.mapped (a + BitVec.ofNat 64 i)) → loadBytes s.mem s.root a n = some (S.mem.readBytes a.toNat n)
  | 0, _, _, _ => rfl
  | n + 1, a, ha, hm => by
    have h0 : S.mapped a := by simpa using hm 0 (Nat.succ_pos n)
    rw [Heap.loadBytes, h.walk h0, Mem.readBytes, h.bytes a h0]
    cases n with
    | zero => rfl
    | succ n =>
      have hnext : (a + 1).toNat = a.toNat + 1 := by
        rw [BitVec.toNat_add]
        exact Nat.mod_eq_of_lt (by simp; omega)
      have hrest := h.loadBytes (n := n + 1) (a := a + 1) (by omega) fun i hi => by
        have hi' := hm (i + 1) (by omega)
        rwa [Nat.add_comm, BitVec.ofNat_add, ← BitVec.add_assoc] at hi'
      rw [hrest, hnext]
      rfl

theorem mapped_word (ha : S.mapped a) (ha' : S.mapped (a + 7)) (hb : a.toNat + 8 ≤ 2 ^ 64) :
    ∀ i < 8, S.mapped (a + BitVec.ofNat 64 i) := by
  intro i hi
  have hsum : ∀ {j : Nat}, j < 8 → (a + BitVec.ofNat 64 j).toNat = a.toNat + j := fun {j} hj => by
    rw [BitVec.toNat_add, BitVec.toNat_ofNat, Nat.mod_eq_of_lt (show j < 2 ^ 64 by omega), Nat.mod_eq_of_lt (by omega)]
  have hlast := hsum (show 7 < 8 by decide)
  rcases Nat.lt_or_ge ((a.toNat + i) / 0x1000) ((a.toNat + 7) / 0x1000) with hlt | hge
  · refine (Space.mapped_page (BitVec.eq_of_toNat_eq ?_)).trans ha
    rw [toNat_page, toNat_page, hsum hi]
    omega
  · refine (Space.mapped_page (BitVec.eq_of_toNat_eq ?_)).trans ha'
    rw [toNat_page, toNat_page, hsum hi, show a + 7 = a + BitVec.ofNat 64 7 from rfl, hlast]
    omega

theorem Laid.toNat_le (h : Laid S s k label) (ha : S.mapped a) : a.toNat + 8 ≤ 2 ^ 64 := by
  have := (h.inside a ha).2
  unfold heapEnd at this
  omega

theorem Backs.storeBytes {v : U64} (h : Backs S s k label) (hb : a.toNat + 8 ≤ 2 ^ 64) : ∀ {n : Nat}, n ≤ 8 →
    (∀ i < n, S.mapped (a + BitVec.ofNat 64 i)) → ∃ m, storeBytes s.mem s.root a v n = some m ∧
      Backs { S with mem := fun y => if a.toNat ≤ y ∧ y < a.toNat + n then v.extractLsb' (8 * (y - a.toNat)) 8 else S.mem y }
        { s with mem := m } k label
  | 0, _, _ => by
    refine ⟨s.mem, rfl, ?_⟩
    have hmem : (fun y => if a.toNat ≤ y ∧ y < a.toNat + 0 then v.extractLsb' (8 * (y - a.toNat)) 8 else S.mem y) = S.mem :=
      funext fun y => if_neg (by omega)
    rw [hmem]
    exact h
  | n + 1, hn, hm => by
    obtain ⟨m, hstore, hback⟩ := h.storeBytes hb (Nat.le_of_succ_le hn) fun i hi => hm i (Nat.lt_succ_of_lt hi)
    have hv := hm n (Nat.lt_succ_self n)
    have hnat : (a + BitVec.ofNat 64 n).toNat = a.toNat + n := by
      rw [BitVec.toNat_add, BitVec.toNat_ofNat, Nat.mod_eq_of_lt (show n < 2 ^ 64 by omega), Nat.mod_eq_of_lt (by omega)]
    have hset := hback.setByte (x := v.extractLsb' (8 * n) 8) hv
    have hmmu : mmu m s.root (a + BitVec.ofNat 64 n) = some (physOf { s with mem := m } k (a + BitVec.ofNat 64 n)) :=
      hback.walk hv
    refine ⟨_, by rw [Heap.storeBytes, hstore, Option.bind_eq_bind, Option.bind_some, hmmu]; rfl, ?_⟩
    have hmem : (fun y => if a.toNat ≤ y ∧ y < a.toNat + (n + 1) then v.extractLsb' (8 * (y - a.toNat)) 8 else S.mem y) =
        Mem.setByte (fun y => if a.toNat ≤ y ∧ y < a.toNat + n then v.extractLsb' (8 * (y - a.toNat)) 8 else S.mem y)
          (a + BitVec.ofNat 64 n).toNat (v.extractLsb' (8 * n) 8) := by
      funext y
      rw [hnat, Mem.setByte]
      by_cases hy : y = a.toNat + n
      · rw [if_pos hy, if_pos (by omega), hy, Nat.add_sub_cancel_left]
      · rw [if_neg hy]
        exact if_congr (by omega) rfl rfl
    rw [hmem]
    exact hset

theorem Backs.loadBool {b : Bool} (h : Backs S s k label) (hl : HeapMemory.loadBool S a = some b) :
    HeapMemory.loadBool s a = some b := by
  have hl : Space.loadBool S a = some b := hl
  unfold Space.loadBool at hl
  split at hl
  next hm =>
    show (mmu s.mem s.root a).map _ = _
    rw [h.walk hm, Option.map_some, ← h.bytes a hm]
    exact hl
  next => cases hl

theorem Backs.load (h : Backs S s k label) (hl : HeapMemory.load S a = some v) : HeapMemory.load s a = some v := by
  have hl : Space.load S a = some v := hl
  unfold Space.load at hl
  split at hl
  next hm =>
    obtain ⟨hm, hm'⟩ := Bool.and_eq_true_iff.mp hm
    have hb := h.toNat_le hm
    exact (h.loadBytes hb (mapped_word hm hm' hb)).trans hl
  next => cases hl

structure Stores (S' : Space) (s s' : Machine Pmm) (k : Nat) (label : Labels) : Prop where
  backs : Backs S' s' k label
  same : s' = { s with mem := s'.mem }

theorem Backs.storeByte (h : Backs S s k label) (hs : HeapMemory.storeByte S a x = some S') :
    ∃ s', HeapMemory.storeByte s a x = some s' ∧ Stores S' s s' k label := by
  have hs : Space.storeByte S a x = some S' := hs
  unfold Space.storeByte at hs
  split at hs
  next hm =>
    obtain rfl := Option.some.inj hs
    refine ⟨_, ?_, h.setByte hm, rfl⟩
    show (mmu s.mem s.root a).map _ = _
    rw [h.walk hm]
    rfl
  next => cases hs

theorem Backs.store (h : Backs S s k label) (hs : HeapMemory.store S a v = some S') :
    ∃ s', HeapMemory.store s a v = some s' ∧ Stores S' s s' k label := by
  have hs : Space.store S a v = some S' := hs
  unfold Space.store at hs
  split at hs
  next hm =>
    obtain rfl := Option.some.inj hs
    obtain ⟨hm, hm'⟩ := Bool.and_eq_true_iff.mp hm
    have hb := h.toNat_le hm
    obtain ⟨m, hstore, hback⟩ := h.storeBytes (v := v) hb (Nat.le_refl 8) (mapped_word hm hm' hb)
    refine ⟨{ s with mem := m }, ?_, hback, rfl⟩
    show (Heap.storeBytes s.mem s.root a v 8).map _ = _
    rw [hstore]
    rfl
  next => cases hs

-- ---------------------------------------------------------------------------
-- New pages
-- ---------------------------------------------------------------------------

abbrev heapFlags : BitVec 8 := PAGING_WRITABLE.setWidth 8

theorem vmmRequestPage_data {g : Nat} {flags : BitVec 8} (h : Backed k s label) (hk : label n = some ⟨n, []⟩)
    (hs : Served s (Memory.vmmRequestPage s (framePtr n) v flags)) (hbit : s.frames.bit g = true) (hg : label g = none)
    {y : Nat} (hy : y / 0x1000 = g) : (Memory.vmmRequestPage s (framePtr n) v flags).mem y = s.mem y := by
  cases hp : present (lookup s.mem n v) with
  | true =>
    rw [Memory.vmmRequestPage, Memory.pagingGet_lookup (h.forest.bound n _ hk)]
    simp only [hp, if_true]
  | false =>
    obtain ⟨c, -, hc⟩ := Memory.vmmRequestPage_allocates s (framePtr n) v flags
    obtain ⟨new, hnew, ha⟩ := hc.answers h.walled hs
    obtain ⟨p, new', label', rfl, hu, -, -⟩ := Memory.vmmRequestPage_spec h.toPagingInv hk
      (Memory.meetsNoHuge_of_absent hp) hp hnew (h.fresh ha)
    -- frames that were handed out were free
    have hold : g ∉ new'.map Memory.frameNo := fun hmem => by
      obtain ⟨q, hq, rfl⟩ := List.mem_map.mp hmem
      have hfree := (ha.free q (List.mem_append_left _ hq)).2
      rw [hbit] at hfree
      cases hfree
    refine hu.bytes y ?_ (hy ▸ hold)
    rw [hy]
    cases hl : label' g with
    | none => rfl
    | some l =>
      rcases hu.fresh g l hl with hl | ⟨-, hmem⟩
      · rw [hg] at hl
        cases hl
      · exact absurd hmem hold

structure Extends (S S' : Space) (s s' : Machine Pmm) (k : Nat) (label label' : Labels) : Prop where
  laid : Laid S' s' k label'
  keeps : ∀ n l, label n = some l → label' n = some l
  lookup : ∀ w, S.mapped w → lookup s'.mem k w = lookup s.mem k w
  locked : ∀ g, s.frames.bit g = true → s'.frames.bit g = true
  noTable : ∀ g, s.frames.bit g = true → label g = none → label' g = none
  bytes : ∀ y, s.frames.bit (y / 0x1000) = true → label (y / 0x1000) = none → s'.mem y = s.mem y

theorem Laid.refl (h : Laid S s k label) : Extends S S s s k label label :=
  ⟨h, fun _ _ hl => hl, fun _ _ => rfl, fun _ hg => hg, fun _ _ hl => hl, fun _ _ _ => rfl⟩

theorem Extends.trans {S₁ : Space} {s₁ : Machine Pmm} {label₁ : Labels} (h : Extends S S₁ s s₁ k label label₁)
    (h' : Extends S₁ S' s₁ s' k label₁ label') (hm : ∀ w, S.mapped w → S₁.mapped w) : Extends S S' s s' k label label' where
  laid := h'.laid
  keeps n l hl := h'.keeps n l (h.keeps n l hl)
  lookup w hw := (h'.lookup w (hm w hw)).trans (h.lookup w hw)
  locked g hg := h'.locked g (h.locked g hg)
  noTable g hg hl := h'.noTable g (h.locked g hg) (h.noTable g hg hl)
  bytes y hy hl := (h'.bytes y (h.locked _ hy) (h.noTable _ hy hl)).trans (h.bytes y hy hl)

theorem Laid.page (h : Laid S s k label) (hv : InHeap v) (hs : Served s (Memory.vmmRequestPage s (framePtr k) v heapFlags)) :
    ∃ label', Extends S (if S.mapped v then S else S.mapPage v) s (Memory.vmmRequestPage s (framePtr k) v heapFlags) k label
      label' := by
  have hk := h.backed.forest.kernel
  have hroot : (Memory.vmmRequestPage s (framePtr k) v heapFlags).root = s.root := by
    have hkeeps := Memory.vmmRequestPage_keeps s (framePtr k) v heapFlags
    rw [Machine.root, hkeeps.cr3]
    rfl
  cases hp : present (lookup s.mem k v) with
  | true =>
    have hsame : Memory.vmmRequestPage s (framePtr k) v heapFlags = s := by
      rw [Memory.vmmRequestPage, Memory.pagingGet_lookup (h.backed.forest.bound k _ hk)]
      simp only [hp, if_true]
    rw [if_pos ((h.pages v hv).trans hp), hsame]
    exact ⟨label, h.refl⟩
  | false =>
    have hm : ¬ S.mapped v := by rw [h.pages v hv, hp]; exact Bool.false_ne_true
    rw [if_neg hm]
    obtain ⟨f, new, label', hnew⟩ := Memory.vmmRequestPage_new h.backed hk hp hs
    obtain ⟨s', hs'⟩ : ∃ s', s' = Memory.vmmRequestPage s (framePtr k) v heapFlags := ⟨_, rfl⟩
    have hdata := fun g => vmmRequestPage_data (g := g) h.backed hk hs
    rw [← hs'] at hnew hroot hdata ⊢
    have hlock : ∀ g, s.frames.bit g = true → s'.frames.bit g = true := fun g hg => by
      rw [hnew.answers.bits, hg, Bool.or_true]
    have hnoTable : ∀ g, s.frames.bit g = true → label g = none → label' g = none := fun g hg hl => by
      cases hl' : label' g with
      | none => rfl
      | some l =>
        rcases hnew.fresh g l hl' with hl' | ⟨-, hfree⟩
        · rw [hl] at hl'
          cases hl'
        · rw [hg] at hfree
          cases hfree
    have hlookup : ∀ w, lookup s'.mem k w = if pageOf v = pageOf w then Memory.dataEntry f heapFlags else lookup s.mem k w :=
      fun w => (hnew.lookup k w hk).trans (if_congr (by rw [Memory.samePage_iff]; exact and_iff_left (.inl rfl)) rfl rfl)
    have hold : ∀ w, S.mapped w → pageOf v ≠ pageOf w := fun w hw he =>
      hm ((Space.mapped_page ((hv.pageOf_iff (h.inside w hw)).mp he)).trans hw)
    have hkept : ∀ w, S.mapped w → lookup s'.mem k w = lookup s.mem k w := fun w hw => by rw [hlookup, if_neg (hold w hw)]
    have hpage : ∀ w, (S.mapPage v).mapped w ↔ S.mapped w ∨ w >>> 12 = v >>> 12 := fun w => by
      rw [mapPage_mapped, Bool.or_eq_true, beq_iff_eq]
    have hfb : f < frameLimit := Nat.lt_of_lt_of_le hnew.free.1 h.backed.reach
    have hnewPage : ∀ w : U64, w >>> 12 = v >>> 12 → InHeap w ∧ lookup s'.mem k w = Memory.dataEntry f heapFlags := by
      intro w hw
      have hnat := congrArg BitVec.toNat hw
      rw [toNat_page, toNat_page] at hnat
      have hin : InHeap w := by
        unfold InHeap heapStart heapEnd at hv ⊢
        omega
      exact ⟨hin, by rw [hlookup, if_pos ((hv.pageOf_iff hin).mpr hw.symm)]⟩
    have hframe : ∀ w : U64, w >>> 12 = v >>> 12 → frameOf (lookup s'.mem k w) = f := fun w hw => by
      rw [(hnewPage w hw).2, Memory.frameOf_dataEntry hfb]
    have hne : ∀ w, S.mapped w → frameOf (lookup s'.mem k w) ≠ f := fun w hw he => by
      have hbit := (h.data w hw).locked
      rw [← hkept w hw, he, hnew.free.2] at hbit
      cases hbit
    refine ⟨label', ⟨hnew.backed, ?_, fun w hw => ?_, fun w hw => ?_, fun w hw => ?_, fun w w' hw hw' he => ?_⟩, hnew.keeps,
      hkept, hlock, hnoTable, fun y hy hl => hdata _ hy hl rfl⟩
    · rw [hroot]
      exact hnew.keeps _ _ h.root
    · refine Bool.eq_iff_iff.mpr ((hpage w).trans ?_)
      rw [hlookup]
      split
      next he => exact iff_of_true (.inr ((hv.pageOf_iff hw).mp he).symm) Memory.present_dataEntry
      next hne =>
        rw [← h.pages w hw]
        exact or_iff_left fun he => hne ((hv.pageOf_iff hw).mpr he.symm)
    · rcases (hpage w).mp hw with hw | hw
      · exact h.inside w hw
      · exact (hnewPage w hw).1
    · rcases (hpage w).mp hw with hw | hw
      · have hd := h.data w hw
        exact ⟨by rw [hkept w hw]; exact hlock _ hd.locked, by rw [hkept w hw]; exact hnoTable _ hd.locked hd.noTable⟩
      · exact ⟨by rw [hframe w hw]; exact hnew.taken, by rw [hframe w hw]; exact hnew.noTable⟩
    · rcases (hpage w).mp hw with hw | hw <;> rcases (hpage w').mp hw' with hw' | hw'
      · rw [hkept w hw, hkept w' hw'] at he
        exact h.exclusive w w' hw hw' he
      · exact absurd (he.trans (hframe w' hw')) (hne w hw)
      · exact absurd (he.symm.trans (hframe w hw)) (hne w' hw')
      · exact hw.trans hw'.symm

theorem Laid.request (h : Laid S s k label) : ∀ {n : Nat}, (∀ i < n, InHeap (v + BitVec.ofNat 64 i * 0x1000)) →
    Served s (Memory.vmmRequestAt s (framePtr k) v n heapFlags) →
    ∃ label', Extends S (vmmRequestAt S v n) s (Memory.vmmRequestAt s (framePtr k) v n heapFlags) k label label'
  | 0, _, _ => ⟨label, h.refl⟩
  | n + 1, hin, hs => by
    obtain ⟨t, ht⟩ : ∃ t, t = Memory.vmmRequestAt s (framePtr k) v n heapFlags := ⟨_, rfl⟩
    have htarget : v + BitVec.ofNat 64 (n * 0x1000) = v + BitVec.ofNat 64 n * 0x1000 := by
      rw [BitVec.ofNat_mul]
      rfl
    have hstep : Memory.vmmRequestAt s (framePtr k) v (n + 1) heapFlags =
        Memory.vmmRequestPage t (framePtr k) (v + BitVec.ofNat 64 n * 0x1000) heapFlags := by rw [ht, ← htarget]; rfl
    obtain ⟨c, -, hc⟩ := Memory.vmmRequestAt_allocates s (framePtr k) v heapFlags n
    obtain ⟨d, -, hd⟩ := Memory.vmmRequestPage_allocates t (framePtr k) (v + BitVec.ofNat 64 n * 0x1000) heapFlags
    rw [← ht] at hc
    rw [hstep] at hs ⊢
    obtain ⟨hs₁, hs₂⟩ := hs.split hc.handed hd.handed
    obtain ⟨label₁, h₁⟩ := h.request (fun i hi => hin i (Nat.lt_succ_of_lt hi)) (ht ▸ hs₁)
    rw [← ht] at h₁
    obtain ⟨label', h₂⟩ := h₁.laid.page (hin n (Nat.lt_succ_self n)) hs₂
    exact ⟨label', h₁.trans h₂ fun w hw => vmmRequestAt_mapped_of hw⟩

def Foresees (S S' : Space) (s' : Machine Pmm) (k : Nat) : Prop :=
  ∀ w, S'.mapped w → ¬ S.mapped w → S.mem w.toNat = s'.mem (physOf s' k w)

theorem Backs.request (h : Backs S s k label) (hin : ∀ i < n, InHeap (v + BitVec.ofNat 64 i * 0x1000))
    (hs : Served s (HeapMemory.requestAt s v n))
    (hfore : Foresees S (vmmRequestAt S v n) (HeapMemory.requestAt s v n) k) :
    ∃ label', (∀ n l, label n = some l → label' n = some l) ∧
      Backs (vmmRequestAt S v n) (HeapMemory.requestAt s v n) k label' := by
  have hrequest : HeapMemory.requestAt s v n = Memory.vmmRequestAt s (framePtr k) v n heapFlags := by
    rw [← h.backed.kernelTable]
    rfl
  rw [hrequest] at hs hfore ⊢
  obtain ⟨label', hext⟩ := h.toLaid.request hin hs
  refine ⟨label', hext.keeps, hext.laid, fun w hw => ?_⟩
  rw [vmmRequestAt_mem]
  by_cases hm : S.mapped w
  · have hdata := h.data w hm
    have hphys : physOf (Memory.vmmRequestAt s (framePtr k) v n heapFlags) k w = physOf s k w := by
      unfold physOf
      rw [hext.lookup w hm]
    rw [hphys, hext.bytes _ (by rw [physOf_div]; exact hdata.locked) (by rw [physOf_div]; exact hdata.noTable)]
    exact h.bytes w hm
  · exact hfore w hw hm

-- ---------------------------------------------------------------------------
-- The parts of malloc
-- ---------------------------------------------------------------------------

section Follows

variable {b : Bool} {p q wanted hdr count : U64} {fuel : Nat}

theorem Stores.trans {S₁ : Space} {s₁ : Machine Pmm} (h : Stores S₁ s s₁ k label) (h' : Stores S' s₁ s' k label) :
    Stores S' s s' k label where
  backs := h'.backs
  same := by rw [h'.same, h.same]

theorem Backs.setSize (h : Backs S s k label) (hs : HeapMemory.setSize S hdr v = some S') :
    ∃ s', HeapMemory.setSize s hdr v = some s' ∧ Stores S' s s' k label := h.store hs

theorem Backs.setSizePrev (h : Backs S s k label) (hs : HeapMemory.setSizePrev S hdr v = some S') :
    ∃ s', HeapMemory.setSizePrev s hdr v = some s' ∧ Stores S' s s' k label := h.store hs

theorem Backs.setInUse (h : Backs S s k label) (hs : HeapMemory.setInUse S hdr b = some S') :
    ∃ s', HeapMemory.setInUse s hdr b = some s' ∧ Stores S' s s' k label := h.storeByte hs

theorem Backs.size (h : Backs S s k label) (hl : HeapMemory.size S hdr = some v) : HeapMemory.size s hdr = some v :=
  h.load hl

theorem Backs.nextHdr (h : Backs S s k label) (hn : HeapMemory.nextHdr S hdr = some p) :
    HeapMemory.nextHdr s hdr = some p := by
  obtain ⟨z, hz, hp⟩ := Option.bind_eq_some_iff.mp hn
  rw [HeapMemory.nextHdr, HeapMemory.size, h.load hz]
  exact hp

theorem Backs.findChunk (h : Backs S s k label) : ∀ {fuel : Nat} {hdr : U64},
    HeapMemory.findChunk S wanted hdr fuel = some p → HeapMemory.findChunk s wanted hdr fuel = some p
  | 0, _, hf => hf
  | fuel + 1, hdr, hf => by
    obtain ⟨z, hz, hf⟩ := Option.bind_eq_some_iff.mp hf
    rw [HeapMemory.findChunk, HeapMemory.size, h.load hz, Option.bind_eq_bind, Option.bind_some]
    by_cases h0 : z = 0
    · rw [if_pos h0] at hf ⊢
      exact hf
    · rw [if_neg h0] at hf ⊢
      obtain ⟨u, hu, hf⟩ := Option.bind_eq_some_iff.mp hf
      rw [HeapMemory.inUse, h.loadBool hu, Option.bind_eq_bind, Option.bind_some]
      split at hf
      next hskip =>
        obtain ⟨q, hq, hf⟩ := Option.bind_eq_some_iff.mp hf
        rw [if_pos hskip, h.nextHdr hq, Option.bind_some]
        exact h.findChunk hf
      next hstop =>
        rw [if_neg hstop]
        exact hf

theorem Backs.appendChunk (h : Backs S s k label) (hs : HeapMemory.appendChunk S hdr count = some S') :
    ∃ s', HeapMemory.appendChunk s hdr count = some s' ∧ Stores S' s s' k label := by
  obtain ⟨S₁, h₁, hs⟩ := Option.bind_eq_some_iff.mp hs
  obtain ⟨tail, htail, hs⟩ := Option.bind_eq_some_iff.mp hs
  obtain ⟨S₂, h₂, hs⟩ := Option.bind_eq_some_iff.mp hs
  obtain ⟨S₃, h₃, hs⟩ := Option.bind_eq_some_iff.mp hs
  obtain ⟨z, hz, hs⟩ := Option.bind_eq_some_iff.mp hs
  obtain ⟨s₁, h₁, hb₁⟩ := h.setSize h₁
  obtain ⟨s₂, h₂, hb₂⟩ := hb₁.backs.setSize h₂
  obtain ⟨s₃, h₃, hb₃⟩ := hb₂.backs.setInUse h₃
  obtain ⟨s', h₄, hb₄⟩ := hb₃.backs.setSizePrev hs
  refine ⟨s', ?_, ((hb₁.trans hb₂).trans hb₃).trans hb₄⟩
  simp only [HeapMemory.appendChunk, Option.bind_eq_bind, Option.bind_some, h₁, hb₁.backs.nextHdr htail, h₂, h₃,
    hb₃.backs.size hz]
  exact h₄

theorem Backs.splitChunk (h : Backs S s k label) (hs : HeapMemory.splitChunk S hdr wanted = some S') :
    ∃ s', HeapMemory.splitChunk s hdr wanted = some s' ∧ Stores S' s s' k label := by
  obtain ⟨old, hold, hs⟩ := Option.bind_eq_some_iff.mp hs
  obtain ⟨S₁, h₁, hs⟩ := Option.bind_eq_some_iff.mp hs
  obtain ⟨S₂, h₂, hs⟩ := Option.bind_eq_some_iff.mp hs
  obtain ⟨rest, hrest, hs⟩ := Option.bind_eq_some_iff.mp hs
  obtain ⟨S₃, h₃, hs⟩ := Option.bind_eq_some_iff.mp hs
  obtain ⟨S₄, h₄, hs⟩ := Option.bind_eq_some_iff.mp hs
  obtain ⟨z, hz, hs⟩ := Option.bind_eq_some_iff.mp hs
  obtain ⟨s₁, h₁, hb₁⟩ := h.setSize h₁
  obtain ⟨s₂, h₂, hb₂⟩ := hb₁.backs.setInUse h₂
  obtain ⟨s₃, h₃, hb₃⟩ := hb₂.backs.setSize h₃
  obtain ⟨s₄, h₄, hb₄⟩ := hb₃.backs.setInUse h₄
  obtain ⟨s', h₅, hb₅⟩ := hb₄.backs.setSizePrev hs
  refine ⟨s', ?_, (((hb₁.trans hb₂).trans hb₃).trans hb₄).trans hb₅⟩
  simp only [HeapMemory.splitChunk, Option.bind_eq_bind, Option.bind_some, h.size hold, h₁, h₂, hb₂.backs.nextHdr hrest, h₃,
    h₄, hb₄.backs.size hz]
  exact h₅

-- ---------------------------------------------------------------------------
-- malloc
-- ---------------------------------------------------------------------------

structure Grants (S : Space) (s : Machine Pmm) (k : Nat) (v : U64) (n : Nat) : Prop where
  inside : ∀ i < n, InHeap (v + BitVec.ofNat 64 i * 0x1000)
  served : Served s (HeapMemory.requestAt s v n)
  foresees : Foresees S (vmmRequestAt S v n) (HeapMemory.requestAt s v n) k

theorem Backs.malloc {size : U64} (h : Backs S s k label) (hm : HeapMemory.malloc S size fuel = some (S', p))
    (hgrants : ∀ hdr, HeapMemory.findChunk S (size + sizeofChunkHdr) KERNEL_HEAP_VIRTUAL_START fuel = some hdr →
      HeapMemory.size S hdr = some 0 → ¬ hdr + sizeofChunkHdr > KERNEL_HEAP_VIRTUAL_END →
      Grants S s k (hdr + sizeofChunkHdr) (addrPageAlignUp (size + sizeofChunkHdr) / 0x1000).toNat) :
    ∃ s' label', HeapMemory.malloc s size fuel = some (s', p) ∧ (∀ n l, label n = some l → label' n = some l) ∧
      Backs S' s' k label' ∧ s'.cr3 = s.cr3 := by
  rw [HeapMemory.malloc] at hm ⊢
  by_cases h0 : size = 0
  · rw [if_pos h0] at hm ⊢
    obtain ⟨rfl, rfl⟩ := Prod.mk.inj (Option.some.inj hm)
    exact ⟨s, label, rfl, fun _ _ hl => hl, h, rfl⟩
  rw [if_neg h0] at hm ⊢
  obtain ⟨hdr, hfind, hm⟩ := Option.bind_eq_some_iff.mp hm
  obtain ⟨z, hz, hm⟩ := Option.bind_eq_some_iff.mp hm
  simp only [Option.bind_eq_bind, h.findChunk hfind, Option.bind_some, h.size hz]
  by_cases hz0 : z = 0
  · subst hz0
    rw [if_pos rfl] at hm ⊢
    by_cases hend : hdr + sizeofChunkHdr > KERNEL_HEAP_VIRTUAL_END
    · rw [if_pos hend] at hm ⊢
      obtain ⟨rfl, rfl⟩ := Prod.mk.inj (Option.some.inj hm)
      exact ⟨s, label, rfl, fun _ _ hl => hl, h, rfl⟩
    rw [if_neg hend] at hm ⊢
    obtain ⟨S₂, hgrow, hm⟩ := Option.bind_eq_some_iff.mp hm
    obtain ⟨S₃, hsplit, hm⟩ := Option.bind_eq_some_iff.mp hm
    obtain ⟨rfl, rfl⟩ := Prod.mk.inj (Option.some.inj hm)
    obtain ⟨hin, hserved, hfore⟩ := hgrants hdr hfind hz hend
    obtain ⟨label', hkeeps, h₁⟩ := h.request hin hserved hfore
    obtain ⟨s₂, hgrow', h₂⟩ := h₁.appendChunk hgrow
    obtain ⟨s₃, hsplit', h₃⟩ := h₂.backs.splitChunk hsplit
    refine ⟨s₃, label', ?_, hkeeps, h₃.backs, ?_⟩
    · rw [HeapMemory.growHeap, hgrow', Option.bind_some, hsplit']
      rfl
    · rw [(h₂.trans h₃).same]
      exact (Memory.vmmRequestAt_allocates s s.kernelTable (hdr + sizeofChunkHdr) heapFlags _).choose_spec.2.cr3
  · rw [if_neg hz0] at hm ⊢
    obtain ⟨S₂, hsplit, hm⟩ := Option.bind_eq_some_iff.mp hm
    obtain ⟨rfl, rfl⟩ := Prod.mk.inj (Option.some.inj hm)
    obtain ⟨s₂, hsplit', h₂⟩ := h.splitChunk hsplit
    refine ⟨s₂, label, ?_, fun _ _ hl => hl, h₂.backs, by rw [h₂.same]⟩
    rw [hsplit']
    rfl

theorem Backs.mallocInit (h : Backs S s k label) (hm : HeapMemory.mallocInit S = some S')
    (hgrants : Grants S s k KERNEL_HEAP_VIRTUAL_START 1) :
    ∃ s' label', HeapMemory.mallocInit s = some s' ∧ Backs S' s' k label' := by
  obtain ⟨hin, hserved, hfore⟩ := hgrants
  obtain ⟨label', -, h₀⟩ := h.request hin hserved hfore
  obtain ⟨S₁, h₁, hm⟩ := Option.bind_eq_some_iff.mp hm
  obtain ⟨S₂, h₂, hm⟩ := Option.bind_eq_some_iff.mp hm
  obtain ⟨S₃, h₃, hm⟩ := Option.bind_eq_some_iff.mp hm
  obtain ⟨tail, htail, hm⟩ := Option.bind_eq_some_iff.mp hm
  obtain ⟨S₄, h₄, hm⟩ := Option.bind_eq_some_iff.mp hm
  obtain ⟨S₅, h₅, hm⟩ := Option.bind_eq_some_iff.mp hm
  obtain ⟨z, hz, hm⟩ := Option.bind_eq_some_iff.mp hm
  obtain ⟨s₁, h₁, hb₁⟩ := h₀.setSize h₁
  obtain ⟨s₂, h₂, hb₂⟩ := hb₁.backs.setInUse h₂
  obtain ⟨s₃, h₃, hb₃⟩ := hb₂.backs.setSizePrev h₃
  obtain ⟨s₄, h₄, hb₄⟩ := hb₃.backs.setSize h₄
  obtain ⟨s₅, h₅, hb₅⟩ := hb₄.backs.setInUse h₅
  obtain ⟨s', h₆, hb₆⟩ := hb₅.backs.setSizePrev hm
  refine ⟨s', label', ?_, hb₆.backs⟩
  have hone : (allocSize / 0x1000).toNat = 1 := by decide
  simp only [HeapMemory.mallocInit, Option.bind_eq_bind, hone, h₁, Option.bind_some, h₂, h₃, hb₃.backs.nextHdr htail, h₄, h₅,
    hb₅.backs.size hz]
  exact h₆

end Follows

end ShedOS.Heap
