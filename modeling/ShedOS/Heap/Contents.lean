import ShedOS.Heap.Clients
import ShedOS.Lib.Transition

/-!
# What clients of the heap read back

Every byte of a block is what was last stored to it, whichever table is in CR3,
and whatever else is mapped in between.
-/

namespace ShedOS.Heap

open Bytes Tiling
open Memory (U64 Machine Pmm framePtr lookup present mmu Labels Backed Enough)

variable {S S' : Space} {s s' : Machine Pmm} {k n x fuel : Nat} {label : Labels} {v w y p : U64} {b : BitVec 8}
  {l : List Chunk} {es : List (U64 × U64)} {e : U64 × U64}

-- ---------------------------------------------------------------------------
-- The space behind a machine
-- ---------------------------------------------------------------------------

@[irreducible] def heapSpace (s : Machine Pmm) : Space where
  mem a := ((mmu s.mem s.root (BitVec.ofNat 64 a)).map s.mem).getD 0
  pages page := decide (heapStart ≤ (page <<< 12).toNat ∧ (page <<< 12).toNat < heapEnd) &&
    (mmu s.mem s.root (page <<< 12)).isSome

theorem toNat_pageBase : (v >>> 12 <<< 12).toNat = v.toNat / 0x1000 * 0x1000 := by
  rw [BitVec.toNat_shiftLeft, toNat_page, Nat.shiftLeft_eq, Nat.mod_eq_of_lt]
  have := v.isLt
  omega

theorem inHeap_pageBase : InHeap (v >>> 12 <<< 12) ↔ InHeap v := by
  unfold InHeap heapStart heapEnd
  rw [toNat_pageBase]
  omega

theorem heapSpace_pages : (heapSpace s).mapped v = true ↔
    InHeap (v >>> 12 <<< 12) ∧ (mmu s.mem s.root (v >>> 12 <<< 12)).isSome = true := by
  unfold heapSpace Space.mapped InHeap
  rw [Bool.and_eq_true, decide_eq_true_eq]

theorem heapSpace_mem : (heapSpace s).mem v.toNat = ((mmu s.mem s.root v).map s.mem).getD 0 := by
  unfold heapSpace
  simp only [BitVec.ofNat_toNat, BitVec.setWidth_eq]

theorem Laid.heapSpace_mapped (h : Laid S s k label) (v : U64) : (heapSpace s).mapped v = S.mapped v := by
  have hpage : v >>> 12 <<< 12 >>> 12 = v >>> 12 := BitVec.eq_of_toNat_eq (by
    rw [toNat_page, toNat_pageBase, toNat_page]
    omega)
  have hbase : S.mapped (v >>> 12 <<< 12) = S.mapped v := Space.mapped_page hpage
  refine Bool.eq_iff_iff.mpr (heapSpace_pages.trans ⟨?_, fun hm => ?_⟩)
  · rintro ⟨hin, hsome⟩
    rw [← hbase, h.pages _ hin]
    have hk := h.backed.forest.kernel
    have hsame : Memory.SamePage k s.root (v >>> 12 <<< 12) k (v >>> 12 <<< 12) :=
      Memory.samePage_iff.mpr ⟨rfl, .inr hin.kernelHalf⟩
    have hlookup : lookup s.mem s.root (v >>> 12 <<< 12) = lookup s.mem k (v >>> 12 <<< 12) := by
      rw [lookup, h.backed.forest.walk_samePage h.root hk hsame]
      rfl
    rw [Memory.mmu_lookup (h.backed.windows _ _ h.root hin.not_inWindow), hlookup, Memory.leafAddr] at hsome
    split at hsome
    · assumption
    · cases hsome
  · refine ⟨inHeap_pageBase.mpr (h.inside v hm), ?_⟩
    rw [h.walk (hbase.trans hm)]
    rfl

theorem Backs.agree_heapSpace (h : Backs S s k label) : Agree S (heapSpace s) where
  mapped v := (h.heapSpace_mapped v).symm
  bytes v hv := by
    rw [heapSpace_mem, h.walk hv, h.bytes v hv]
    rfl

-- ---------------------------------------------------------------------------
-- Clients
-- ---------------------------------------------------------------------------

/-- What the kernel does while its heap is in use; no block is given back. -/
inductive ClientEvent
  | malloc (n p : U64)
  | zmalloc (n p : U64)
  | store (a : U64) (b : BitVec 8)
  | load (a : U64) (b : BitVec 8)
  /-- `paging_create_empty` -/
  | create (table : U64)
  /-- `vmm_request_at` for a process -/
  | request (table v : U64) (count : Nat) (flags : BitVec 8)
  /-- `paging_write_cr3` -/
  | switch (table : U64)

structure ClientState where
  machine : Machine Pmm
  /-- The calls, with the pointers they returned -/
  blocks : List (U64 × U64)
  tables : List U64

def loadByte (s : Machine Pmm) (a : U64) : Option (BitVec 8) := (mmu s.mem s.root a).map s.mem

def Owned (c : ClientState) (y : U64) : Prop := ∃ e ∈ c.blocks, Owns e y

def Callable (s : Machine Pmm) (n : U64) : Prop := ∃ l, Decodes (heapSpace s) l ∧ RoomFor s l n.toNat

/-- Calls have room and frames, and a client stays in its own blocks. -/
inductive ClientStep : ClientState → ClientEvent → ClientState → Prop
  | malloc {c : ClientState} {s' : Machine Pmm} {n p : U64} {fuel : Nat} (hroom : Callable c.machine n)
      (h : HeapMemory.malloc c.machine n fuel = some (s', p)) :
      ClientStep c (.malloc n p) { c with machine := s', blocks := c.blocks ++ [(n, p)] }
  | zmalloc {c : ClientState} {s' : Machine Pmm} {n p : U64} {fuel : Nat} (hroom : Callable c.machine n)
      (h : HeapMemory.zmalloc c.machine n fuel = some (s', p)) :
      ClientStep c (.zmalloc n p) { c with machine := s', blocks := c.blocks ++ [(n, p)] }
  | store {c : ClientState} {s' : Machine Pmm} {a : U64} {b : BitVec 8} (hown : Owned c a)
      (h : HeapMemory.storeByte c.machine a b = some s') : ClientStep c (.store a b) { c with machine := s' }
  | load {c : ClientState} {a : U64} {b : BitVec 8} (hown : Owned c a) (h : loadByte c.machine a = some b) :
      ClientStep c (.load a b) c
  | create {c : ClientState} (hframes : Enough c.machine 1) :
      ClientStep c (.create (Memory.pagingCreateEmpty c.machine).1)
        { c with
          machine := (Memory.pagingCreateEmpty c.machine).2
          tables := (Memory.pagingCreateEmpty c.machine).1 :: c.tables }
  | request {c : ClientState} {table v : U64} {count : Nat} {flags : BitVec 8} (htable : table ∈ c.tables)
      (huser : ∀ i < count, Memory.kernelHalf (Memory.rangePage v i) = false) (hframes : Enough c.machine (4 * count)) :
      ClientStep c (.request table v count flags) { c with machine := Memory.vmmRequestAt c.machine table v count flags }
  | switch {c : ClientState} {table : U64} (htable : table ∈ c.tables) :
      ClientStep c (.switch table) { c with machine := Memory.pagingWriteCr3 c.machine table }

/-- What a client knows of the byte at `y` after an event. -/
def learn (known : U64 → Option (BitVec 8)) : ClientEvent → U64 → Option (BitVec 8)
  | .zmalloc n p, y => if y - p < n then some 0 else known y
  | .store a b, y => if y = a then some b else known y
  | .load a b, y => if y = a then some b else known y
  | _, y => known y

def contents (es : List ClientEvent) : U64 → Option (BitVec 8) := es.foldl learn fun _ => none

theorem contents_snoc {es : List ClientEvent} {e : ClientEvent} : contents (es ++ [e]) = learn (contents es) e :=
  List.foldl_concat learn _ e es

-- ---------------------------------------------------------------------------
-- The invariant
-- ---------------------------------------------------------------------------

variable {c c' : ClientState} {known : U64 → Option (BitVec 8)} {ev : ClientEvent} {label' : Labels}

theorem owns_iff : Owns (w, p) y ↔ p ≠ 0 ∧ y - p < w := by
  refine and_congr_right fun _ => ⟨?_, fun h => ⟨(y - p).toNat, BitVec.lt_def.mp h, ?_⟩⟩
  · rintro ⟨i, hi, rfl⟩
    have hi64 : i < 2 ^ 64 := Nat.lt_trans hi w.isLt
    have hi : i < w.toNat := hi
    rw [BitVec.add_comm, BitVec.add_sub_cancel, BitVec.lt_def, toNat_ofNat_lt hi64]
    exact hi
  · rw [BitVec.ofNat_toNat, BitVec.setWidth_eq, BitVec.add_comm, BitVec.sub_add_cancel]

structure Serves (k : Nat) (label : Labels) (c : ClientState) (known : U64 → Option (BitVec 8)) : Prop where
  backs : Backs (heapSpace c.machine) c.machine k label
  holds : ∃ l, Holds (heapSpace c.machine) c.blocks l
  tables : ∀ t ∈ c.tables, ∃ r, t = framePtr r ∧ label r = some ⟨r, []⟩
  known : ∀ y b, known y = some b → Owned c y ∧ (heapSpace c.machine).mem y.toNat = b

theorem Holds.owned (h : Holds S c.blocks l) (hy : Owned c y) : S.mapped y :=
  let ⟨e, he, hown⟩ := hy
  (h.safe.inside e he y hown).1

theorem Backs.loadByte (h : Backs S s k label) (hv : S.mapped v) : loadByte s v = some (S.mem v.toNat) := by
  rw [Heap.loadByte, h.walk hv, h.bytes v hv]
  rfl

theorem Serves.tables_keep (h : Serves k label c known) (hkeeps : ∀ n l, label n = some l → label' n = some l) :
    ∀ t ∈ c.tables, ∃ r, t = framePtr r ∧ label' r = some ⟨r, []⟩ := fun t ht =>
  let ⟨r, hr, hl⟩ := h.tables t ht
  ⟨r, hr, hkeeps r _ hl⟩

theorem Serves.call {s' : Machine Pmm} {q : U64} (h : Serves k label c known)
    (hcall : Called (heapSpace c.machine) c.blocks label k p S' s' q) {known' : U64 → Option (BitVec 8)}
    (hknown : ∀ y b, known' y = some b → known y = some b ∨ Owns (p, q) y ∧ S'.mem y.toNat = b) :
    ∃ label', Serves k label' { c with machine := s', blocks := c.blocks ++ [(p, q)] } known' := by
  obtain ⟨⟨label', hkeeps, hb⟩, ⟨l', hh⟩, hkept, -⟩ := hcall
  have hag := hb.agree_heapSpace
  have hh' := hag.holds hh
  refine ⟨label', hb.agree hag, ⟨l', hh'⟩, h.tables_keep hkeeps, fun y b hy => ?_⟩
  rcases hknown y b hy with hy | ⟨hown, hb⟩
  · obtain ⟨⟨e, he, hown⟩, hmem⟩ := h.known y b hy
    have hin := List.mem_append_left [(p, q)] he
    refine ⟨⟨e, hin, hown⟩, ?_⟩
    rw [hag.bytes y (hh.safe.inside e hin y hown).1, hkept e he y hown, hmem]
  · have hin := List.mem_append_right c.blocks (List.mem_singleton_self (p, q))
    exact ⟨⟨(p, q), hin, hown⟩, by rw [hag.bytes y (hh.safe.inside _ hin y hown).1, hb]⟩

theorem Serves.extends {s' : Machine Pmm} {tables : List U64} (h : Serves k label c known)
    (he : Extends (heapSpace c.machine) (heapSpace c.machine) c.machine s' k label label')
    (htables : ∀ t ∈ tables, ∃ r, t = framePtr r ∧ label' r = some ⟨r, []⟩) :
    Serves k label' { c with machine := s', tables := tables } known := by
  have hb := h.backs.extends he
  have hag := hb.agree_heapSpace
  obtain ⟨l, hh⟩ := h.holds
  refine ⟨hb.agree hag, ⟨l, hag.holds hh⟩, htables, fun y b hy => ?_⟩
  obtain ⟨hown, hmem⟩ := h.known y b hy
  exact ⟨hown, by rw [hag.bytes y (hh.owned hown), hmem]⟩

theorem Serves.step (h : Serves k label c known) (hstep : ClientStep c ev c') :
    ∃ label', Serves k label' c' (learn known ev) := by
  obtain ⟨l, hh⟩ := h.holds
  cases hstep with
  | @malloc s' n p fuel hroom hrun =>
    obtain ⟨l₀, hdec, hroom⟩ := hroom
    obtain rfl := hh.heap.toDecodes.unique hdec
    obtain ⟨fuel', s₁, q, S', hcall, hcalled⟩ := h.backs.call hh hroom
    obtain ⟨rfl, rfl⟩ := Prod.mk.inj (HeapMemory.malloc_unique hrun hcall)
    exact h.call hcalled fun y b hy => .inl hy
  | @zmalloc s' n p fuel hroom hrun =>
    obtain ⟨l₀, hdec, hroom⟩ := hroom
    obtain rfl := hh.heap.toDecodes.unique hdec
    obtain ⟨fuel', s₁, q, S', hcall, hcalled, hzero⟩ := h.backs.zcall hh hroom
    obtain ⟨rfl, rfl⟩ := Prod.mk.inj (HeapMemory.zmalloc_unique hrun hcall)
    refine h.call hcalled fun y b hy => ?_
    rw [learn] at hy
    split at hy
    next hin =>
      have hn : n ≠ 0 := fun e => by
        rw [e] at hin
        exact absurd hin (by simp)
      have hown : Owns (n, p) y := owns_iff.mpr ⟨hcalled.some hn, hin⟩
      exact .inr ⟨hown, (hzero y hown).trans (Option.some.inj hy)⟩
    next => exact .inl hy
  | @store s' a b hown hrun =>
    obtain ⟨e, he, hown⟩ := hown
    have hm : (heapSpace c.machine).mapped a := (hh.safe.inside e he a hown).1
    obtain ⟨s₁, hstore, hst⟩ := h.backs.storeByte (a := a) (x := b) (if_pos hm)
    obtain rfl := Option.some.inj (hrun.symm.trans hstore)
    have hag := hst.backs.agree_heapSpace
    have hh' := hh.setByte (b := b) he hown
    refine ⟨label, hst.backs.agree hag, ⟨l, hag.holds hh'⟩, h.tables, fun y b' hy => ?_⟩
    rw [learn] at hy
    split at hy
    next heq =>
      subst heq
      refine ⟨⟨e, he, hown⟩, ?_⟩
      rw [hag.bytes y hm]
      exact Mem.setByte_same.trans (Option.some.inj hy)
    next hne =>
      obtain ⟨hown', hmem⟩ := h.known y b' hy
      refine ⟨hown', ?_⟩
      rw [hag.bytes y (hh.owned hown')]
      exact (Mem.setByte_ne fun e => hne (BitVec.eq_of_toNat_eq e)).trans hmem
  | @load a b hown hrun =>
    refine ⟨label, h.backs, h.holds, h.tables, fun y b' hy => ?_⟩
    rw [learn] at hy
    split at hy
    next heq =>
      subst heq
      refine ⟨hown, Option.some.inj ?_⟩
      rw [← h.backs.loadByte (hh.owned hown), hrun, hy]
    next => exact h.known y b' hy
  | create hframes =>
    have hs : Memory.Served c.machine (Memory.pagingCreateEmpty c.machine).2 :=
      served_of_enough (c := 1) hframes ⟨rfl, rfl, rfl, rfl⟩ (Nat.le_refl 1)
    obtain ⟨r, label', hp, hr, he⟩ := h.backs.create hs
    refine ⟨label', h.extends he fun t ht => ?_⟩
    rcases List.mem_cons.mp ht with rfl | ht
    · exact ⟨r, hp, hr⟩
    · exact h.tables_keep he.keeps t ht
  | @request table v count flags htable huser hframes =>
    obtain ⟨r, rfl, hr⟩ := h.tables table htable
    obtain ⟨c', hc, ha⟩ := Memory.vmmRequestAt_allocates c.machine (framePtr r) v flags count
    obtain ⟨label', he⟩ := h.backs.userPages hr huser (served_of_enough hframes ha hc)
    exact ⟨label', h.extends he (h.tables_keep he.keeps)⟩
  | @switch table htable =>
    obtain ⟨r, rfl, hr⟩ := h.tables table htable
    exact ⟨label, h.extends (h.backs.switch hr) h.tables⟩

theorem Serves.run {c₀ : ClientState} {evs : List ClientEvent} (h : Serves k label c₀ fun _ => none)
    (hrun : Transition.Trace ClientStep c₀ evs c) : ∃ label', Serves k label' c (contents evs) := by
  induction hrun with
  | nil => exact ⟨label, h⟩
  | snoc _ hstep ih =>
    obtain ⟨label₁, h₁⟩ := ih
    rw [contents_snoc]
    exact h₁.step hstep

-- ---------------------------------------------------------------------------
-- What clients rely on
-- ---------------------------------------------------------------------------

structure HeapKept (c : ClientState) (evs : List ClientEvent) : Prop where
  safe : Safe (heapSpace c.machine) c.blocks
  accessible : ∀ y, Owned c y → (loadByte c.machine y).isSome ∧ ∀ b, (HeapMemory.storeByte c.machine y b).isSome
  physical : ∀ y y' a, Owned c y → Owned c y' → mmu c.machine.mem c.machine.root y = some a →
    mmu c.machine.mem c.machine.root y' = some a → y = y'
  taken : ∀ y a, Owned c y → mmu c.machine.mem c.machine.root y = some a → c.machine.frames.bit (a / 0x1000) = true
  reads : ∀ y b, contents evs y = some b → loadByte c.machine y = some b
  calls : ∀ n, Callable c.machine n → (∃ p c', ClientStep c (.malloc n p) c' ∧ (n ≠ 0 → p ≠ 0)) ∧
    ∃ p c', ClientStep c (.zmalloc n p) c' ∧ (n ≠ 0 → p ≠ 0)

theorem Serves.kept {evs : List ClientEvent} (h : Serves k label c (contents evs)) : HeapKept c evs := by
  obtain ⟨l, hh⟩ := h.holds
  have hwalk : ∀ y, Owned c y → mmu c.machine.mem c.machine.root y = some (physOf c.machine k y) := fun y hy =>
    h.backs.walk (hh.owned hy)
  refine ⟨hh.safe, fun y hy => ⟨?_, fun b => ?_⟩, fun y y' a hy hy' ha ha' => ?_, fun y a hy ha => ?_, fun y b hy => ?_,
    fun n hn => ?_⟩
  · rw [h.backs.loadByte (hh.owned hy)]
    rfl
  · obtain ⟨s', hs', -⟩ := h.backs.storeByte (a := y) (x := b) (if_pos (hh.owned hy))
    rw [hs']
    rfl
  · rw [hwalk y hy] at ha
    rw [hwalk y' hy'] at ha'
    exact h.backs.physOf_inj (hh.owned hy) (hh.owned hy') (Option.some.inj (ha.trans ha'.symm))
  · rw [hwalk y hy] at ha
    rw [← Option.some.inj ha, physOf_div]
    exact (h.backs.data y (hh.owned hy)).locked
  · obtain ⟨hown, hmem⟩ := h.known y b hy
    rw [h.backs.loadByte (hh.owned hown), hmem]
  · obtain ⟨l₀, hdec, hroom⟩ := id hn
    obtain rfl := hh.heap.toDecodes.unique hdec
    obtain ⟨fuel, s', p, S', hrun, hcalled⟩ := h.backs.call hh hroom
    obtain ⟨fuel', t', q, T', hrun', hcalled', -⟩ := h.backs.zcall hh hroom
    exact ⟨⟨p, _, .malloc hn hrun, hcalled.some⟩, q, _, .zmalloc hn hrun', hcalled'.some⟩

end ShedOS.Heap
