import ShedOS.Lib.Cache
import ShedOS.Memory.Accesses
import ShedOS.Memory.Readonly
import ShedOS.Memory.VmmRuns

/-!
# The TLB beside the page tables

The processor may load the translation of a page of the active table at any
moment. `paging_map` and `paging_unmap` store the entry and flush its page then.
`paging_make_readonly` flushes before it stores: the page is exposed in between.
-/

namespace ShedOS.Memory

open Bytes Loops

variable {σ : Type} {s t : Machine σ} {m m' : Mem} {a b g i k n p level P : Nat} {v w e : U64} {j : Fin 512}
  {label : Labels} {log : List Access}

-- ---------------------------------------------------------------------------
-- The accesses of paging_make_readonly
-- ---------------------------------------------------------------------------

def uptoLog (body : Nat → Machine σ → Machine σ) (log : Nat → Machine σ → List Access) (s : Machine σ) :
    (n : Nat) → List Access
  | 0 => []
  | n + 1 => uptoLog body log s n ++ log n (upto body s n)

def extendVaddr (vaddr : U64) (i : Nat) : U64 := (vaddr <<< 9) ||| BitVec.ofNat 64 i

def makeReadonlyAccesses : (level : Nat) → Machine σ → (table vaddr : U64) → List Access
  | 0, _, _, _ => []
  | 1, s, table, vaddr =>
    uptoLog (fun i s => s.setEntry table i (s.entry table i &&& ~~~PAGING_WRITABLE))
      (fun i s =>
        let finalVaddr := extendVaddr vaddr i <<< 12
        [.flush finalVaddr, .leaf finalVaddr table i (s.entry table i &&& ~~~PAGING_WRITABLE)])
      s 512
  | level + 2, s, table, vaddr =>
    uptoLog (readonlySlot level table)
      (fun i s =>
        if !present (s.entry table i) then []
        else makeReadonlyAccesses (level + 1) s (childTable (s.entry table i)) (extendVaddr vaddr i))
      s (userSlots (level + 2))

theorem run_uptoLog [FrameSource σ] {body : Nat → Machine σ → Machine σ} {log : Nat → Machine σ → List Access}
    (h : ∀ i t, runAccesses t (log i t) = body i t) : ∀ n, runAccesses s (uptoLog body log s n) = upto body s n
  | 0 => rfl
  | n + 1 => by rw [uptoLog, runAccesses_append, run_uptoLog h n, h, upto_succ]

/-- Taken together the accesses are the function. -/
theorem run_makeReadonly [FrameSource σ] : ∀ (level : Nat) (s : Machine σ) (table vaddr : U64),
    runAccesses s (makeReadonlyAccesses level s table vaddr) = pagingMakeReadonlyRecursive level s table
  | 0, _, _, _ => rfl
  | 1, s, table, vaddr => by
    rw [makeReadonlyAccesses, pagingMakeReadonlyRecursive]
    refine run_uptoLog (fun i t => ?_) _
    simp only [runAccesses, List.foldl_cons, List.foldl_nil, Access.run]
  | level + 2, s, table, vaddr => by
    rw [makeReadonlyAccesses, pagingMakeReadonlyRecursive]
    refine run_uptoLog (fun i t => ?_) _
    rw [readonlySlot]
    split
    · rfl
    · exact run_makeReadonly (level + 1) t _ _

-- ---------------------------------------------------------------------------
-- The pages on the way
-- ---------------------------------------------------------------------------

/-- The page numbers below the table in frame `a`, which covers the numbers
with the leading part `P`, each with the frame of its leaf table. -/
def userLeaves (m : Mem) : (level : Nat) → (a P : Nat) → List (Nat × Nat)
  | 0, _, _ => []
  | 1, a, P => (List.range 512).map fun i => (P * 512 + i, a)
  | level + 2, a, P => (List.range (userSlots (level + 2))).flatMap fun i =>
    match nextTable (tableRead m a (slot i)) with
    | none => []
    | some c => userLeaves m (level + 1) c (P * 512 + i)

def leafSteps (m : Mem) (x : Nat × Nat) : List Access :=
  [.flush (pageAddr x.1), .leaf (pageAddr x.1) (framePtr x.2) (x.1 % 512) (readonly (tableRead m x.2 (slot (x.1 % 512))))]

theorem extendVaddr_ofNat (hi : i < 512) : extendVaddr (BitVec.ofNat 64 P) i = BitVec.ofNat 64 (P * 512 + i) := by
  apply BitVec.eq_of_toNat_eq
  rw [extendVaddr, BitVec.toNat_or, BitVec.toNat_shiftLeft, BitVec.toNat_ofNat, BitVec.toNat_ofNat, BitVec.toNat_ofNat,
    Nat.shiftLeft_eq]
  have hmul : P % 2 ^ 64 * 2 ^ 9 % 2 ^ 64 = 2 ^ 9 * (P % 2 ^ 55) := by omega
  rw [hmul, Nat.mod_eq_of_lt (by omega : i < 2 ^ 64), ← Nat.two_pow_add_eq_or_of_lt hi]
  omega

theorem shift_page : BitVec.ofNat 64 p <<< 12 = pageAddr p := by
  apply BitVec.eq_of_toNat_eq
  rw [pageAddr, BitVec.toNat_shiftLeft, BitVec.toNat_ofNat, BitVec.toNat_ofNat, Nat.shiftLeft_eq]
  omega

theorem Fades.userLeaves (h : Fades m m') : ∀ {level a P : Nat}, userLeaves m' level a P = userLeaves m level a P
  | 0, _, _ => rfl
  | 1, _, _ => rfl
  | level + 2, a, P => by
    unfold Memory.userLeaves
    simp only [h.nextTable, h.userLeaves]

theorem Fades.leafSteps (h : Fades m m') : leafSteps m' = leafSteps m := by
  funext x
  rw [Memory.leafSteps, h.readonly, Memory.leafSteps]

theorem entriesLog_eq (ha : a < frameLimit) : ∀ n, n ≤ 512 →
    uptoLog (fun i s => s.setEntry (framePtr a) i (s.entry (framePtr a) i &&& ~~~PAGING_WRITABLE))
      (fun i s =>
        let finalVaddr := extendVaddr (BitVec.ofNat 64 P) i <<< 12
        [.flush finalVaddr, .leaf finalVaddr (framePtr a) i (s.entry (framePtr a) i &&& ~~~PAGING_WRITABLE)]) s n =
      ((List.range n).map fun i => (P * 512 + i, a)).flatMap (leafSteps s.mem)
  | 0, _ => rfl
  | n + 1, hn => by
    obtain ⟨m', ht, hm⟩ := makeReadonly_entries (s := s) ha (Nat.le_of_succ_le hn)
    have hentry : entryAt m' a n = tableRead s.mem a (slot n) := by
      have := hm.read (slot n)
      rwa [tableRead, slot_val hn, if_neg (Nat.lt_irrefl n)] at this
    have hmod : (P * 512 + n) % 512 = n := by omega
    rw [uptoLog, entriesLog_eq ha n (Nat.le_of_succ_le hn), List.range_succ, List.map_append, List.flatMap_append, ht,
      Machine.entry_framePtr ha hn, hentry, extendVaddr_ofNat hn, shift_page]
    simp only [List.map_singleton, List.flatMap_singleton, leafSteps, hmod, Memory.readonly]

theorem slotsLog_eq (hrec : ∀ (t : Machine σ) (c Q : Nat), c < frameLimit → NoHugeBelow t.mem (level + 1) c →
      makeReadonlyAccesses (level + 1) t (framePtr c) (BitVec.ofNat 64 Q) =
        (userLeaves t.mem (level + 1) c Q).flatMap (leafSteps t.mem))
    (ha : a < frameLimit) (hno : NoHugeBelow s.mem (level + 2) a) : ∀ n, n ≤ userSlots (level + 2) →
    uptoLog (readonlySlot level (framePtr a))
      (fun i s =>
        if !present (s.entry (framePtr a) i) then []
        else makeReadonlyAccesses (level + 1) s (childTable (s.entry (framePtr a) i))
          (extendVaddr (BitVec.ofNat 64 P) i)) s n =
      ((List.range n).flatMap fun i =>
        match nextTable (tableRead s.mem a (slot i)) with
        | none => []
        | some c => userLeaves s.mem (level + 1) c (P * 512 + i)).flatMap (leafSteps s.mem)
  | 0, _ => rfl
  | n + 1, hn => by
    have hn512 : n < 512 := Nat.lt_of_lt_of_le hn (userSlots_le _)
    obtain ⟨m', ht, hm⟩ := makeReadonly_slots (s := s) (fun _ _ hc hno' => makeReadonly_cleared hc hno') ha hno
      (Nat.le_of_succ_le hn)
    have hentry : ({ s with mem := m' } : Machine σ).entry (framePtr a) n = tableRead m' a (slot n) := by
      rw [Machine.entry_framePtr ha hn512, tableRead, slot_val hn512]
    rw [uptoLog, slotsLog_eq hrec ha hno n (Nat.le_of_succ_le hn), List.range_succ, List.flatMap_append,
      List.flatMap_append, ht, List.flatMap_singleton]
    congr 1
    simp only [hentry]
    cases hp : present (tableRead m' a (slot n)) with
    | false =>
      have hnone : nextTable (tableRead s.mem a (slot n)) = none := by
        rw [← hm.fades.nextTable, nextTable, hp, Bool.false_and, if_neg Bool.false_ne_true]
      rw [hnone]
      rfl
    | true =>
      obtain ⟨hsmall, hno'⟩ := hm.fades.noHugeBelow hno (slot n) (by rwa [slot_val hn512]) hp
      have hnext := nextTable_eq_some.mpr ⟨hp, hsmall, rfl⟩
      simp only [Bool.not_true, Bool.false_eq_true, if_false, childTable_eq]
      rw [extendVaddr_ofNat hn512, hrec { s with mem := m' } _ _ (nextTable_lt hnext) hno', hm.fades.leafSteps,
        hm.fades.userLeaves, ← hm.fades.nextTable, hnext]

/-- The recursion flushes and stores page after page. -/
theorem makeReadonlyAccesses_eq : ∀ {level : Nat} {s : Machine σ} {a P : Nat}, a < frameLimit →
    NoHugeBelow s.mem level a →
    makeReadonlyAccesses level s (framePtr a) (BitVec.ofNat 64 P) =
      (userLeaves s.mem level a P).flatMap (leafSteps s.mem)
  | 0, _, _, _, _, _ => rfl
  | 1, _, _, _, ha, _ => entriesLog_eq ha 512 (Nat.le_refl 512)
  | _ + 2, _, _, _, ha, hno =>
    slotsLog_eq (fun _ _ _ hc hno' => makeReadonlyAccesses_eq hc hno') ha hno _ (Nat.le_refl _)

-- ---------------------------------------------------------------------------
-- One page for each number
-- ---------------------------------------------------------------------------

/-- The address that the recursion rebuilds is the one whose walk reaches the entry. -/
theorem tableIndex_pageAddr (hlevel : level ≤ 3) : (tableIndex (pageAddr p) level).val = p / 512 ^ level % 512 := by
  have hto : (pageAddr p).toNat = p * 0x1000 % 2 ^ 64 := BitVec.toNat_ofNat _ _
  change vaddrToIndex (pageAddr p) level = _
  rw [vaddrToIndex_eq, hto]
  refine forall_level (P := fun level => p * 0x1000 % 2 ^ 64 / 2 ^ (12 + 9 * level) % 512 = p / 512 ^ level % 512)
    ?_ ?_ ?_ ?_ level hlevel <;> omega

theorem mem_userLeaves : ∀ {level a P : Nat}, level ≤ 3 →
    ((p, g) ∈ userLeaves m (level + 1) a P ↔
      p / 512 ^ (level + 1) = P ∧ (level = 3 → p / 512 ^ 3 % 512 < 256) ∧
        tableDescend m a (indicesAbove (pageAddr p) level) = some g)
  | 0, a, P, _ => by
    simp only [userLeaves, List.mem_map, List.mem_range, Prod.mk.injEq]
    constructor
    · rintro ⟨i, hi, rfl, rfl⟩
      exact ⟨by omega, fun h => absurd h (by decide), rfl⟩
    · rintro ⟨hP, -, hg⟩
      exact ⟨p % 512, by omega, by omega, Option.some.inj hg⟩
  | level + 1, a, P, hlevel => by
    rw [userLeaves, List.mem_flatMap]
    have hidx := tableIndex_pageAddr (p := p) hlevel
    have hpow : p / 512 ^ (level + 1 + 1) = p / 512 ^ (level + 1) / 512 := by
      rw [Nat.div_div_eq_div_mul, ← Nat.pow_succ]
    constructor
    · rintro ⟨i, hi, hmem⟩
      rw [List.mem_range] at hi
      have hi512 := Nat.lt_of_lt_of_le hi (userSlots_le _)
      cases hnext : nextTable (tableRead m a (slot i)) with
      | none =>
        rw [hnext] at hmem
        cases hmem
      | some c =>
        rw [hnext] at hmem
        obtain ⟨hP, -, hd⟩ := (mem_userLeaves (by omega)).mp hmem
        have hslot : tableIndex (pageAddr p) (level + 1) = slot i := by
          apply Fin.ext
          rw [hidx, slot_val hi512, hP]
          omega
        refine ⟨by rw [hpow, hP]; omega, fun h3 => ?_, ?_⟩
        · obtain rfl : level = 2 := by omega
          rw [hP]
          have : i < 256 := hi
          omega
        · rw [indicesAbove, hslot, tableDescend, Radix.descend, hnext]
          exact hd
    · rintro ⟨hP, h256, hd⟩
      rw [indicesAbove, tableDescend, Radix.descend] at hd
      obtain ⟨c, hnext, hd⟩ := Option.bind_eq_some_iff.mp hd
      have hslot : slot (tableIndex (pageAddr p) (level + 1)).val = tableIndex (pageAddr p) (level + 1) :=
        Fin.ext (slot_val (tableIndex (pageAddr p) (level + 1)).isLt)
      refine ⟨(tableIndex (pageAddr p) (level + 1)).val, ?_, ?_⟩
      · rw [List.mem_range, userSlots]
        split
        next h =>
          obtain rfl : level = 2 := by omega
          rw [hidx]
          exact h256 rfl
        next => exact (tableIndex (pageAddr p) (level + 1)).isLt
      · rw [hslot, hnext]
        refine (mem_userLeaves (by omega)).mpr ⟨?_, fun h3 => absurd h3 (by omega), hd⟩
        rw [hidx]
        rw [hpow] at hP
        omega

theorem userLeaves_sorted : ∀ {level a P : Nat}, level ≤ 4 →
    (userLeaves m level a P).Pairwise fun x y => x.1 < y.1
  | 0, _, _, _ => .nil
  | 1, a, P, _ => by
    rw [userLeaves, List.pairwise_map]
    exact List.pairwise_lt_range.imp fun h => Nat.add_lt_add_left h _
  | level + 2, a, P, hlevel => by
    rw [userLeaves, List.pairwise_flatMap]
    constructor
    · intro i _
      split
      · exact .nil
      · exact userLeaves_sorted (by omega)
    · refine List.pairwise_lt_range.imp fun {i j} hij x hx y hy => ?_
      have hpart : ∀ {i : Nat} {x : Nat × Nat}, x ∈ (match nextTable (tableRead m a (slot i)) with
          | none => []
          | some c => userLeaves m (level + 1) c (P * 512 + i)) → x.1 / 512 ^ (level + 1) = P * 512 + i := by
        intro i x hx
        split at hx
        · cases hx
        · exact ((mem_userLeaves (by omega)).mp hx).1
      have hlt : x.1 / 512 ^ (level + 1) < y.1 / 512 ^ (level + 1) := by
        rw [hpart hx, hpart hy]
        omega
      by_contra hle
      exact absurd (Nat.div_le_div_right (Nat.le_of_not_lt hle)) (Nat.not_le_of_lt hlt)

-- ---------------------------------------------------------------------------
-- After some of the stores
-- ---------------------------------------------------------------------------

def Flushed (q : BitVec 36) (log : List Access) : Prop := ∃ w, .flush w ∈ log ∧ pageOf w = q

def Stored (q : BitVec 36) (log : List Access) : Prop := ∃ w table i e, .leaf w table i e ∈ log ∧ pageOf w = q

def StoredAt (b : Nat) (i : Fin 512) (log : List Access) : Prop := ∃ w e, .leaf w (framePtr b) i.val e ∈ log

/-- The machine, with the entries in the slots stored to without their write bit. -/
structure Fading (s t : Machine σ) (log : List Access) : Prop where
  keeps : t = { s with mem := t.mem }
  fades : Fades s.mem t.mem
  stored : ∀ b i, b < frameLimit → StoredAt b i log → tableRead t.mem b i = readonly (tableRead s.mem b i)
  kept : ∀ b i, b < frameLimit → ¬ StoredAt b i log → tableRead t.mem b i = tableRead s.mem b i

theorem storedAt_snoc_flush : StoredAt b j (log ++ [.flush w]) ↔ StoredAt b j log := by
  simp [StoredAt]

theorem storedAt_snoc_leaf {r : Fin 512} (hb : b < frameLimit) (hg : g < frameLimit) :
    StoredAt b j (log ++ [.leaf w (framePtr g) r.val e]) ↔ StoredAt b j log ∨ (b = g ∧ j = r) := by
  constructor
  · rintro ⟨w', e', hmem⟩
    rw [List.mem_append, List.mem_singleton] at hmem
    rcases hmem with hmem | hmem
    · exact .inl ⟨w', e', hmem⟩
    · obtain ⟨-, hptr, hj, -⟩ := Access.leaf.inj hmem
      exact .inr ⟨framePtr_inj hb hg hptr, Fin.ext hj⟩
  · rintro (⟨w', e', hmem⟩ | ⟨rfl, rfl⟩)
    · exact ⟨w', e', List.mem_append_left _ hmem⟩
    · exact ⟨w, e, List.mem_append_right _ List.mem_cons_self⟩

theorem Fading.store [FrameSource σ] {r : Fin 512} (h : Fading s t log) (hg : g < frameLimit)
    (he : e = readonly (tableRead s.mem g r)) :
    Fading s (Access.run t (.leaf w (framePtr g) r.val e)) (log ++ [.leaf w (framePtr g) r.val e]) := by
  have hrun : Access.run t (.leaf w (framePtr g) r.val e) = { t with mem := writeEntry t.mem g r.val e } := by
    rw [Access.run, Machine.setEntry_framePtr hg r.isLt]
  rw [hrun]
  refine ⟨by rw [h.keeps], fun b j => ?_, fun b j hb hs => ?_, fun b j hb hs => ?_⟩
  · rw [tableRead_writeEntry]
    split
    next hslot =>
      obtain ⟨rfl, rfl⟩ := hslot
      exact .inr he
    next => exact h.fades b j
  · rw [tableRead_writeEntry]
    split
    next hslot =>
      obtain ⟨rfl, rfl⟩ := hslot
      exact he
    next hslot => exact h.stored b j hb (((storedAt_snoc_leaf hb hg).mp hs).resolve_right hslot)
  · rw [storedAt_snoc_leaf hb hg, not_or] at hs
    rw [tableRead_writeEntry, if_neg hs.2]
    exact h.kept b j hb hs.1

theorem fading_of_steps [FrameSource σ] (hn : n < frameLimit) : ∀ log : List Access,
    (∀ x ∈ log, x ∈ (userLeaves s.mem 4 n 0).flatMap (leafSteps s.mem)) → Fading s (runAccesses s log) log := by
  intro log hlog
  induction log using List.reverseRecOn with
  | nil =>
    refine ⟨rfl, fun _ _ => .inl rfl, fun b i _ hs => ?_, fun _ _ _ _ => rfl⟩
    obtain ⟨w, e, h⟩ := hs
    cases h
  | append_singleton log x ih =>
    have ih := ih fun y hy => hlog y (List.mem_append_left _ hy)
    obtain ⟨⟨p, g⟩, hpg, hx⟩ := List.mem_flatMap.mp (hlog x (List.mem_append_right _ List.mem_cons_self))
    have hg := descend_lt hn ((mem_userLeaves (Nat.le_refl 3)).mp hpg).2.2
    have hslot : (slot (p % 512)).val = p % 512 := slot_val (Nat.mod_lt _ (by decide))
    rw [runAccesses_append]
    simp only [leafSteps, List.mem_cons, List.not_mem_nil, or_false] at hx
    rcases hx with rfl | rfl
    · exact ⟨ih.keeps, ih.fades, fun b i hb hs => ih.stored b i hb (storedAt_snoc_flush.mp hs),
        fun b i hb hs => ih.kept b i hb fun h => hs (storedAt_snoc_flush.mpr h)⟩
    · rw [← hslot]
      exact ih.store hg (by rw [hslot])

theorem indicesAbove_of_page (h : pageOf v = pageOf w) : indicesAbove v 3 = indicesAbove w 3 := by
  have hi := pageOf_eq_iff.mp h
  simp only [indicesAbove, hi 3 (by decide), hi 2 (by decide), hi 1 (by decide)]

theorem mem_userLeaves_page (hv : kernelHalf v = false) :
    ((pageOf v).toNat, g) ∈ userLeaves m 4 n 0 ↔ tableDescend m n (indicesAbove v 3) = some g := by
  have hpage : pageOf (pageAddr (pageOf v).toNat) = pageOf v := by
    rw [pageOf_pageAddr, BitVec.ofNat_toNat, BitVec.setWidth_eq]
  rw [mem_userLeaves (Nat.le_refl 3), indicesAbove_of_page hpage]
  have h256 : vaddrToIndex v 3 < 256 := Nat.lt_of_not_le (of_decide_eq_false hv)
  rw [vaddrToIndex_eq] at h256
  constructor
  · exact fun h => h.2.2
  · refine fun h => ⟨?_, fun _ => ?_, h⟩
    · exact Nat.div_eq_of_lt (pageOf v).isLt
    · rw [toNat_pageOf]
      omega

theorem leaf_of_steps {table : U64} {r : Nat} (h : .leaf w table r e ∈ (userLeaves m 4 n 0).flatMap (leafSteps m)) :
    ∃ p g, (p, g) ∈ userLeaves m 4 n 0 ∧ w = pageAddr p ∧ table = framePtr g ∧ r = p % 512 := by
  obtain ⟨⟨p, g⟩, hpg, hx⟩ := List.mem_flatMap.mp h
  simp only [leafSteps, List.mem_cons, List.not_mem_nil, or_false, reduceCtorEq, false_or] at hx
  obtain ⟨rfl, rfl, rfl, -⟩ := Access.leaf.inj hx
  exact ⟨p, g, hpg, rfl, rfl, rfl⟩

theorem tableIndex_pageAddr_zero : (tableIndex (pageAddr p) 0).val = p % 512 := by
  rw [tableIndex_pageAddr (by decide), Nat.pow_zero, Nat.div_one]

section Lookup

variable (hn : n < frameLimit) (hno : NoHugeBelow s.mem 4 n) (ht : TablesApart s.mem n)
  (hlog : ∀ x ∈ log, x ∈ (userLeaves s.mem 4 n 0).flatMap (leafSteps s.mem))

include hn ht hlog

theorem storedAt_iff (hd : tableDescend s.mem n (indicesAbove v 3) = some g) :
    StoredAt g (tableIndex v 0) log ↔ Stored (pageOf v) log := by
  constructor
  · rintro ⟨w, e, hmem⟩
    obtain ⟨p, g', hpg, rfl, hptr, hp⟩ := leaf_of_steps (hlog _ hmem)
    have hd' := ((mem_userLeaves (Nat.le_refl 3)).mp hpg).2.2
    obtain rfl := framePtr_inj (descend_lt hn hd) (descend_lt hn hd') hptr
    have hpath := ht _ _ _ (by simp) (by simp) hd hd'
    simp only [indicesAbove, List.cons.injEq, and_true] at hpath
    have h0 : tableIndex v 0 = tableIndex (pageAddr p) 0 := Fin.ext (hp.trans tableIndex_pageAddr_zero.symm)
    exact ⟨pageAddr p, _, _, _, hmem, pageOf_eq_iff.mpr
      (forall_level h0.symm hpath.2.2.symm hpath.2.1.symm hpath.1.symm)⟩
  · rintro ⟨w, table, i, e, hmem, hw⟩
    obtain ⟨p, g', hpg, rfl, rfl, rfl⟩ := leaf_of_steps (hlog _ hmem)
    have hd' := ((mem_userLeaves (Nat.le_refl 3)).mp hpg).2.2
    rw [indicesAbove_of_page hw, hd] at hd'
    obtain rfl := Option.some.inj hd'
    have h0 : (tableIndex v 0).val = p % 512 := by
      rw [← pageOf_eq_iff.mp hw 0 (by decide), tableIndex_pageAddr_zero]
    exact ⟨_, e, by rwa [h0]⟩

variable [FrameSource σ] (hv : kernelHalf v = false)

include hno hv

theorem lookup_between : lookup (runAccesses s log).mem n v = lookup s.mem n v ∧ ¬ Stored (pageOf v) log ∨
    lookup (runAccesses s log).mem n v = readonly (lookup s.mem n v) ∧
      (Stored (pageOf v) log ∨ lookup s.mem n v = 0) := by
  have hf := fading_of_steps hn log hlog
  have hi : 3 = 3 → (tableIndex v 3).val < 256 := fun _ => Nat.lt_of_not_le (of_decide_eq_false hv)
  cases hd : tableDescend s.mem n (indicesAbove v 3) with
  | none =>
    have hzero : lookup s.mem n v = 0 := walkValue_noLeaf (noHugeBelow_meets (Nat.le_refl 3) hno hi) hd
    refine .inr ⟨?_, .inr hzero⟩
    rw [hzero, readonly_zero]
    exact walkValue_noLeaf (noHugeBelow_meets (Nat.le_refl 3) (hf.fades.noHugeBelow hno) hi)
      ((hf.fades.descend _ _).trans hd)
  | some g =>
    rw [lookup_leaf ((hf.fades.descend _ _).trans hd), lookup_leaf hd]
    by_cases hs : Stored (pageOf v) log
    · exact .inr ⟨hf.stored g _ (descend_lt hn hd) ((storedAt_iff hn ht hlog hd).mpr hs), .inl hs⟩
    · exact .inl ⟨hf.kept g _ (descend_lt hn hd) fun h => hs ((storedAt_iff hn ht hlog hd).mp h), hs⟩

theorem lookup_stored (hs : Stored (pageOf v) log) :
    lookup (runAccesses s log).mem n v = readonly (lookup s.mem n v) := by
  rcases lookup_between hn hno ht hlog hv with ⟨-, hne⟩ | ⟨h, -⟩
  · exact absurd hs hne
  · exact h

theorem lookup_kept (hs : ¬ Stored (pageOf v) log) : lookup (runAccesses s log).mem n v = lookup s.mem n v := by
  rcases lookup_between hn hno ht hlog hv with ⟨h, -⟩ | ⟨h, hst⟩
  · exact h
  · rw [h, hst.resolve_left hs, readonly_zero]

end Lookup

-- ---------------------------------------------------------------------------
-- Each page once
-- ---------------------------------------------------------------------------

def flushedPage : Access → Option (BitVec 36)
  | .flush v => some (pageOf v)
  | _ => none

def storedPage : Access → Option (BitVec 36)
  | .leaf v _ _ _ => some (pageOf v)
  | _ => none

theorem flushed_iff {q : BitVec 36} : Flushed q log ↔ q ∈ log.filterMap flushedPage := by
  rw [List.mem_filterMap]
  constructor
  · rintro ⟨w, hmem, rfl⟩
    exact ⟨_, hmem, rfl⟩
  · rintro ⟨x, hmem, hx⟩
    cases x with
    | flush w => exact ⟨w, hmem, Option.some.inj hx⟩
    | _ => cases hx

theorem stored_iff {q : BitVec 36} : Stored q log ↔ q ∈ log.filterMap storedPage := by
  rw [List.mem_filterMap]
  constructor
  · rintro ⟨w, table, i, e, hmem, rfl⟩
    exact ⟨_, hmem, rfl⟩
  · rintro ⟨x, hmem, hx⟩
    cases x with
    | leaf w table i e => exact ⟨w, table, i, e, hmem, Option.some.inj hx⟩
    | _ => cases hx

theorem pages_nodup : ((userLeaves m 4 n 0).map fun x => BitVec.ofNat 36 x.1).Nodup := by
  rw [List.Nodup, List.pairwise_map]
  refine (userLeaves_sorted (m := m) (a := n) (P := 0) (Nat.le_refl 4)).imp_of_mem fun {x y} hx hy hlt he => ?_
  have hx0 := ((mem_userLeaves (Nat.le_refl 3)).mp hx).1
  have hy0 := ((mem_userLeaves (Nat.le_refl 3)).mp hy).1
  have he := congrArg BitVec.toNat he
  rw [BitVec.toNat_ofNat, BitVec.toNat_ofNat] at he
  omega

theorem pages_flushed : ((userLeaves m 4 n 0).flatMap (leafSteps m)).filterMap flushedPage =
    (userLeaves m 4 n 0).map fun x => BitVec.ofNat 36 x.1 := by
  rw [List.filterMap_flatMap, ← List.flatMap_pure_eq_map]
  congr 1
  funext x
  change [pageOf (pageAddr x.1)] = _
  rw [pageOf_pageAddr]
  rfl

theorem pages_stored : ((userLeaves m 4 n 0).flatMap (leafSteps m)).filterMap storedPage =
    (userLeaves m 4 n 0).map fun x => BitVec.ofNat 36 x.1 := by
  rw [List.filterMap_flatMap, ← List.flatMap_pure_eq_map]
  congr 1
  funext x
  change [pageOf (pageAddr x.1)] = _
  rw [pageOf_pageAddr]
  rfl

section Once

variable {log' : List Access} {q : BitVec 36} (hlog : log ++ log' = (userLeaves m 4 n 0).flatMap (leafSteps m))

include hlog

theorem flushed_once (h : Flushed q log) : ¬ Flushed q log' := by
  have hnd : ((log ++ log').filterMap flushedPage).Nodup := by
    rw [hlog, pages_flushed]
    exact pages_nodup
  rw [List.filterMap_append] at hnd
  rw [flushed_iff] at h ⊢
  exact List.disjoint_of_nodup_append hnd h

theorem stored_once (h : Stored q log') : ¬ Stored q log := by
  have hnd : ((log ++ log').filterMap storedPage).Nodup := by
    rw [hlog, pages_stored]
    exact pages_nodup
  rw [List.filterMap_append] at hnd
  rw [stored_iff] at h ⊢
  exact fun h' => List.disjoint_of_nodup_append hnd h' h

theorem touched_of_leaf (hv : kernelHalf v = false) (hd : tableDescend m n (indicesAbove v 3) = some g) :
    (Flushed (pageOf v) log ∨ Flushed (pageOf v) log') ∧ (Stored (pageOf v) log ∨ Stored (pageOf v) log') := by
  have hmem : pageOf v ∈ (userLeaves m 4 n 0).map fun x => BitVec.ofNat 36 x.1 :=
    List.mem_map.mpr ⟨_, (mem_userLeaves_page hv).mpr hd, by rw [BitVec.ofNat_toNat, BitVec.setWidth_eq]⟩
  rw [flushed_iff, flushed_iff, stored_iff, stored_iff, ← List.mem_append, ← List.mem_append, ← List.filterMap_append,
    ← List.filterMap_append, hlog, pages_flushed, pages_stored]
  exact ⟨hmem, hmem⟩

end Once

-- ---------------------------------------------------------------------------
-- The TLB
-- ---------------------------------------------------------------------------

section Tlb

open Cache

variable [FrameSource σ]

/-- The active table, cached by pages. A translation is loaded when it is present. -/
def tlbOf (σ : Type) [FrameSource σ] : Translation (Machine σ) Access (BitVec 36) U64 where
  run := Access.run
  flushes
    | .flush v => some (pageOf v)
    | _ => none
  entry s q := pagingGet s (framePtr s.root) (pageAddr q.toNat)
  valid := present

abbrev Cpu (σ : Type) := Cached (Machine σ) (BitVec 36) U64

abbrev TlbEvent := Event Access (BitVec 36)

/-- Every cached translation of a page whose entry changed is the current one. -/
def NoStale (s : Machine σ) (c : Cpu σ) : Prop :=
  ∀ v e, pagingGet c.machine (framePtr s.root) v ≠ pagingGet s (framePtr s.root) v → c.held (pageOf v) = some e →
    e = pagingGet c.machine (framePtr s.root) v

/-- No cached translation of the user half is writable. -/
def NoWritable (c : Cpu σ) : Prop :=
  ∀ v e, kernelHalf v = false → c.held (pageOf v) = some e → e &&& PAGING_WRITABLE = 0

/-- At the start of a call the TLB holds what the active table says. -/
def TlbCurrent (c : Cpu σ) : Prop :=
  ∀ v e, c.held (pageOf v) = some e → present e = true ∧ e = pagingGet c.machine (framePtr c.machine.root) v

/-- The last load of a page that was mapped writable falls between the flush
of the page and the store of its entry. -/
def Exposed (s : Machine σ) (events : List TlbEvent) : Prop :=
  ∃ pre post v, events = pre ++ .load (pageOf v) :: post ∧ kernelHalf v = false ∧
    present (pagingGet s (framePtr s.root) v) = true ∧ pagingGet s (framePtr s.root) v &&& PAGING_WRITABLE ≠ 0 ∧
    Flushed (pageOf v) (steps pre) ∧ Stored (pageOf v) (steps post) ∧ .load (pageOf v) ∉ post

theorem tlb_machine {c : Cpu σ} {events : List TlbEvent} :
    ((tlbOf σ).runAll c events).machine = runAccesses c.machine (steps events) :=
  Translation.runAll_machine _

theorem root_runAccesses (log : List Access) : (runAccesses s log).root = s.root := by
  induction log using List.reverseRecOn with
  | nil => rfl
  | append_singleton log x ih =>
    rw [runAccesses_append, ← ih]
    cases x <;> rfl

theorem tlb_entry (hroot : s.root < frameLimit) : (tlbOf σ).entry s (pageOf v) = lookup s.mem s.root v := by
  have hpage : pageOf (pageAddr (pageOf v).toNat) = pageOf v := by
    rw [pageOf_pageAddr, BitVec.ofNat_toNat, BitVec.setWidth_eq]
  change pagingGet s (framePtr s.root) (pageAddr (pageOf v).toNat) = _
  rw [pagingGet_lookup hroot, lookup_of_page hpage]

-- paging_map and paging_unmap

theorem noStale_of_update {s' : Machine σ} {new : List U64} {label' : Labels} {c : Cpu σ} {events : List TlbEvent}
    (hc : c.machine = s) (hroot : s.root = n) (hn : label n = some ⟨n, []⟩) (hb : n < frameLimit)
    (hu : Updates k new n v e s.mem label s'.mem label') (hs' : runAccesses s log = s') {as : List Access}
    (hlog : log = as ++ [.flush v]) (hev : steps events = log) : NoStale s ((tlbOf σ).runAll c events) := by
  intro w e' hne hheld
  have hmach : ((tlbOf σ).runAll c events).machine = s' := by rw [tlb_machine, hev, hc, hs']
  have hroot' : s'.root = n := by rw [← hs', root_runAccesses, hroot]
  rw [hmach] at hne ⊢
  rw [hroot, pagingGet_lookup hb, pagingGet_lookup hb, hu.lookup n w hn] at hne
  split at hne
  next hpage =>
    have hvw := (samePage_iff.mp hpage).1
    rw [← hvw] at hheld
    have he := Translation.held_flush (hev.trans hlog) rfl hheld
    rw [hmach, tlb_entry (by rwa [hroot']), hroot'] at he
    rw [he, hroot, pagingGet_lookup hb, lookup_of_page hvw]
  next => exact absurd rfl hne

-- paging_make_readonly

omit [FrameSource σ] in
theorem readonly_eq_self : readonly e = e ↔ e &&& PAGING_WRITABLE = 0 := by
  constructor
  · intro h
    have hzero : ~~~PAGING_WRITABLE &&& PAGING_WRITABLE = (0 : U64) := by decide
    rw [← h, readonly, BitVec.and_assoc, hzero]
    exact BitVec.and_zero
  · intro h
    apply BitVec.eq_of_getLsbD_eq
    intro i hi
    by_cases h1 : i = 1
    · have hw : PAGING_WRITABLE.getLsbD 1 = true := by decide
      have hbit : (e &&& PAGING_WRITABLE).getLsbD 1 = false := by rw [h]; rfl
      rw [BitVec.getLsbD_and, hw, Bool.and_true] at hbit
      rw [h1, readonly, BitVec.getLsbD_and, hbit, Bool.false_and]
    · exact getLsbD_readonly hi h1

omit [FrameSource σ] in
theorem lookup_absent (hno : NoHugeBelow m 4 n) (hv : kernelHalf v = false)
    (hd : tableDescend m n (indicesAbove v 3) = none) : lookup m n v = 0 :=
  walkValue_noLeaf (noHugeBelow_meets (Nat.le_refl 3) hno fun _ => Nat.lt_of_not_le (of_decide_eq_false hv)) hd

theorem unflushed_iff {q : BitVec 36} {events : List TlbEvent} :
    (tlbOf σ).Unflushed q events ↔ ¬ Flushed q (steps events) := by
  constructor
  · rintro h ⟨w, hmem, rfl⟩
    exact h _ hmem rfl
  · intro h a ha hf
    cases a with
    | flush w => exact h ⟨w, ha, Option.some.inj hf⟩
    | _ => cases hf

section Readonly

variable {c : Cpu σ} {events : List TlbEvent} (hc : c.machine = s) (hroot : s.root = n) (hn : n < frameLimit)
  (hno : NoHugeBelow s.mem 4 n) (ht : TablesApart s.mem n)
  (hev : steps events = makeReadonlyAccesses 4 s (framePtr n) 0)

include hc hroot hn hno ht hev

omit hroot in
theorem readonly_end (hv : kernelHalf v = false) :
    lookup ((tlbOf σ).runAll c events).machine.mem n v = readonly (lookup s.mem n v) := by
  have hlog := hev.trans (makeReadonlyAccesses_eq (P := 0) hn hno)
  rw [tlb_machine, hc, hlog]
  rcases lookup_between hn hno ht (fun _ hx => hx) hv with ⟨h, hs⟩ | ⟨h, -⟩
  · rw [h]
    cases hd : tableDescend s.mem n (indicesAbove v 3) with
    | some g =>
      rcases (touched_of_leaf (List.nil_append _) hv hd).2 with ⟨_, _, _, _, hmem, _⟩ | hmem
      · cases hmem
      · exact absurd hmem hs
    | none => rw [lookup_absent hno hv hd, readonly_zero]
  · exact h

theorem readonly_load {pre post : List TlbEvent} (hsplit : events = pre ++ .load (pageOf v) :: post)
    (hv : kernelHalf v = false) :
    let e := (tlbOf σ).entry ((tlbOf σ).runAll c pre).machine (pageOf v)
    (Stored (pageOf v) (steps pre) → e = readonly (lookup s.mem n v)) ∧
      (¬ Stored (pageOf v) (steps pre) → e = lookup s.mem n v) := by
  have hlog := hev.trans (makeReadonlyAccesses_eq (P := 0) hn hno)
  have hall : ∀ x ∈ steps pre, x ∈ (userLeaves s.mem 4 n 0).flatMap (leafSteps s.mem) := fun x hx => by
    rw [← hlog, hsplit, steps_append]
    exact List.mem_append_left _ hx
  have hroot' : (runAccesses c.machine (steps pre)).root = n := by rw [root_runAccesses, hc, hroot]
  simp only [tlb_machine]
  rw [tlb_entry (by rwa [hroot']), hroot', hc]
  exact ⟨lookup_stored hn hno ht hall hv, lookup_kept hn hno ht hall hv⟩

theorem exposed_of_held (htlb : TlbCurrent c) (hv : kernelHalf v = false)
    (hheld : ((tlbOf σ).runAll c events).held (pageOf v) = some e) (hne : e ≠ readonly (lookup s.mem n v)) :
    Exposed s events := by
  have hlog := hev.trans (makeReadonlyAccesses_eq (P := 0) hn hno)
  -- a present entry is in a leaf table, which the recursion visits
  have hleaf : present (lookup s.mem n v) = true → ∃ g, tableDescend s.mem n (indicesAbove v 3) = some g := by
    intro hp
    cases hd : tableDescend s.mem n (indicesAbove v 3) with
    | some g => exact ⟨g, rfl⟩
    | none =>
      rw [lookup_absent hno hv hd] at hp
      cases hp
  rcases Translation.held_cases hheld with ⟨h0, hu⟩ | ⟨pre, post, rfl, hu, hp, he, hlast⟩
  · obtain ⟨hp, he⟩ := htlb v e h0
    rw [hc, hroot, pagingGet_lookup hn] at he
    obtain ⟨g, hd⟩ := hleaf (he ▸ hp)
    rcases (touched_of_leaf (List.nil_append _) hv hd).1 with ⟨_, hmem, _⟩ | hmem
    · cases hmem
    · exact absurd (hlog ▸ hmem) (unflushed_iff.mp hu)
  · have hload := readonly_load hc hroot hn hno ht hev rfl hv
    have hpre : ¬ Stored (pageOf v) (steps pre) := fun h => hne (he.trans (hload.1 h))
    have he := he.trans (hload.2 hpre)
    have hp : present (lookup s.mem n v) = true := he ▸ hp
    obtain ⟨g, hd⟩ := hleaf hp
    have hsteps : steps pre ++ steps post = (userLeaves s.mem 4 n 0).flatMap (leafSteps s.mem) := by
      rw [← hlog, steps_append]
      rfl
    obtain ⟨hflush, hstore⟩ := touched_of_leaf hsteps hv hd
    refine ⟨pre, post, v, rfl, hv, ?_, ?_, hflush.resolve_right (unflushed_iff.mp hu), hstore.resolve_left hpre, ?_⟩
    · rwa [hroot, pagingGet_lookup hn]
    · rw [hroot, pagingGet_lookup hn, ← he]
      exact fun h => hne ((readonly_eq_self.mpr h).symm.trans (congrArg readonly he))
    · -- a later load would have found the entry present
      intro hmem
      obtain ⟨mid, rest, hpost⟩ := List.append_of_mem hmem
      have hlate := hlast mid rest hpost
      have hagain : pre ++ .load (pageOf v) :: post = (pre ++ .load (pageOf v) :: mid) ++ .load (pageOf v) :: rest := by
        rw [hpost]
        simp
      have hload' := readonly_load hc hroot hn hno ht hev hagain hv
      by_cases hs : Stored (pageOf v) (steps (pre ++ .load (pageOf v) :: mid))
      · rw [hload'.1 hs] at hlate
        exact absurd (hlate.symm.trans (present_readonly.trans hp)) Bool.false_ne_true
      · rw [hload'.2 hs] at hlate
        exact absurd (hlate.symm.trans hp) Bool.false_ne_true

theorem stale_of_exposed (hx : Exposed s events) : ¬ NoStale s ((tlbOf σ).runAll c events) := by
  obtain ⟨pre, post, v, hsplit, hv, hp, hw, hflush, hstore, hlast⟩ := hx
  have hlog := hev.trans (makeReadonlyAccesses_eq (P := 0) hn hno)
  rw [hroot, pagingGet_lookup hn] at hp hw
  have hsteps : steps pre ++ steps post = (userLeaves s.mem 4 n 0).flatMap (leafSteps s.mem) := by
    rw [← hlog, hsplit, steps_append]
    rfl
  have hload := (readonly_load hc hroot hn hno ht hev hsplit hv).2 (stored_once hsteps hstore)
  have hend := readonly_end hc hn hno ht hev hv
  have hheld : ((tlbOf σ).runAll c events).held (pageOf v) = some (lookup s.mem n v) := by
    rw [← hload, hsplit]
    refine Translation.held_load pre ?_ (unflushed_iff.mpr (flushed_once hsteps hflush)) hlast
    rw [hload]
    exact hp
  intro hstale
  have hne : readonly (lookup s.mem n v) ≠ lookup s.mem n v := fun h => hw (readonly_eq_self.mp h)
  have heq := hstale v _ (by rwa [hroot, pagingGet_lookup hn, pagingGet_lookup hn, hend]) hheld
  rw [hroot, pagingGet_lookup hn, hend] at heq
  exact hne heq.symm

omit hroot in
theorem kernel_end (hv : kernelHalf v = true) :
    pagingGet ((tlbOf σ).runAll c events).machine (framePtr n) v = pagingGet s (framePtr n) v := by
  have hh : ∀ v, kernelHalf v = false → meetsHuge s v 3 (framePtr n) = false := fun v hv => by
    rw [meetsHuge_eq hn]
    exact noHugeBelow_meets (Nat.le_refl 3) hno fun _ => Nat.lt_of_not_le (of_decide_eq_false hv)
  rw [tlb_machine, hc, hev, run_makeReadonly]
  exact (make_readonly_exact s hn ht hh).kernel v hv

theorem readonly_stale_iff (htlb : TlbCurrent c) :
    NoStale s ((tlbOf σ).runAll c events) ∧ NoWritable ((tlbOf σ).runAll c events) ↔ ¬ Exposed s events := by
  constructor
  · rintro ⟨hstale, -⟩ hx
    exact stale_of_exposed hc hroot hn hno ht hev hx hstale
  · intro hx
    have hcur : ∀ v e, kernelHalf v = false → ((tlbOf σ).runAll c events).held (pageOf v) = some e →
        e = readonly (lookup s.mem n v) := fun v e hv hheld => by
      by_contra hne
      exact hx (exposed_of_held hc hroot hn hno ht hev htlb hv hheld hne)
    refine ⟨fun v e hne hheld => ?_, fun v e hv hheld => ?_⟩
    · rw [hroot] at hne ⊢
      cases hv : kernelHalf v with
      | false => rw [hcur v e hv hheld, pagingGet_lookup hn, readonly_end hc hn hno ht hev hv]
      | true => exact absurd (kernel_end hc hn hno ht hev hv) hne
    · rw [hcur v e hv hheld]
      exact readonly_eq_self.mp readonly_readonly

end Readonly

omit [FrameSource σ] in
theorem exposable (hn : n < frameLimit) (hno : NoHugeBelow s.mem 4 n) (hroot : s.root = n) (hv : kernelHalf v = false)
    (hp : present (lookup s.mem n v) = true) (hw : lookup s.mem n v &&& PAGING_WRITABLE ≠ 0) :
    ∃ events : List TlbEvent, steps events = makeReadonlyAccesses 4 s (framePtr n) 0 ∧ Exposed s events := by
  obtain ⟨g, hd⟩ : ∃ g, tableDescend s.mem n (indicesAbove v 3) = some g := by
    cases hd : tableDescend s.mem n (indicesAbove v 3) with
    | some g => exact ⟨g, rfl⟩
    | none =>
      rw [lookup_absent hno hv hd] at hp
      cases hp
  obtain ⟨before, after, hsplit⟩ := List.append_of_mem ((mem_userLeaves_page hv).mpr hd)
  have hpage : pageOf (pageAddr (pageOf v).toNat) = pageOf v := by
    rw [pageOf_pageAddr, BitVec.ofNat_toNat, BitVec.setWidth_eq]
  have hlog : makeReadonlyAccesses 4 s (framePtr n) 0 = (userLeaves s.mem 4 n 0).flatMap (leafSteps s.mem) :=
    makeReadonlyAccesses_eq hn hno
  rw [hsplit, List.flatMap_append, List.flatMap_cons] at hlog
  -- the load comes right between the two
  obtain ⟨flush, hflush⟩ : ∃ x, x = Access.flush (pageAddr (pageOf v).toNat) := ⟨_, rfl⟩
  obtain ⟨store, hstore⟩ : ∃ x, x = Access.leaf (pageAddr (pageOf v).toNat) (framePtr g) ((pageOf v).toNat % 512)
    (readonly (tableRead s.mem g (slot ((pageOf v).toNat % 512)))) := ⟨_, rfl⟩
  have hpair : leafSteps s.mem ((pageOf v).toNat, g) = [flush, store] := by rw [hflush, hstore, leafSteps]
  rw [hpair] at hlog
  refine ⟨(before.flatMap (leafSteps s.mem) ++ [flush]).map .step ++
      .load (pageOf v) :: (store :: after.flatMap (leafSteps s.mem)).map .step, ?_, _, _, v, rfl, hv, ?_, ?_, ?_, ?_, ?_⟩
  · have hcons : ∀ l : List TlbEvent, steps (.load (pageOf v) :: l) = steps l := fun _ => rfl
    rw [steps_append, hcons, steps_map, steps_map, hlog, List.append_assoc, List.singleton_append, List.cons_append,
      List.cons_append, List.nil_append]
  · rw [hroot, pagingGet_lookup hn]
    exact hp
  · rw [hroot, pagingGet_lookup hn]
    exact hw
  · rw [steps_map]
    exact ⟨_, List.mem_append_right _ (List.mem_singleton.mpr hflush.symm), hpage⟩
  · rw [steps_map, hstore]
    exact ⟨_, _, _, _, List.mem_cons_self, hpage⟩
  · intro hmem
    obtain ⟨a, -, ha⟩ := List.mem_map.mp hmem
    cases ha

end Tlb

-- ---------------------------------------------------------------------------
-- The calls
-- ---------------------------------------------------------------------------

section Calls

open Cache

variable {s : Machine Pmm}

/-- On the active table, whatever the TLB loads and whenever: `paging_map` and
`paging_unmap` leave nothing stale, and `paging_make_readonly` does so exactly
if no page is exposed. -/
theorem no_stale_iff (h : Backed k s label) (hn : label n = some ⟨n, []⟩) (hroot : s.root = n)
    (tlb : BitVec 36 → Option U64) :
    (∀ (vaddr paddr : U64) (flags : BitVec 8) (events : List TlbEvent),
      meetsHuge s vaddr 3 (framePtr n) = false → Served s (pagingMap s (framePtr n) vaddr paddr flags) →
      steps events = pagingMapAccesses s (framePtr n) vaddr paddr flags →
      NoStale s ((tlbOf Pmm).runAll ⟨s, tlb⟩ events)) ∧
    (∀ (vaddr : U64) (events : List TlbEvent), meetsHuge s vaddr 3 (framePtr n) = false →
      steps events = pagingUnmapAccesses s (framePtr n) vaddr → NoStale s ((tlbOf Pmm).runAll ⟨s, tlb⟩ events)) ∧
    ∀ events : List TlbEvent, TlbCurrent (⟨s, tlb⟩ : Cpu Pmm) →
      steps events = makeReadonlyAccesses 4 s (framePtr n) 0 →
      (NoStale s ((tlbOf Pmm).runAll ⟨s, tlb⟩ events) ∧ NoWritable ((tlbOf Pmm).runAll ⟨s, tlb⟩ events) ↔
        ¬ Exposed s events) := by
  have hnb := h.forest.bound n _ hn
  refine ⟨fun vaddr paddr flags events hh hs hev => ?_, fun vaddr events hh hev => ?_, fun events htlb hev => ?_⟩
  · obtain ⟨c, -, ha⟩ := pagingMap_allocates s (framePtr n) vaddr paddr flags
    obtain ⟨new, hnew, hans⟩ := ha.answers h.walled hs
    rw [meetsHuge_eq hnb] at hh
    obtain ⟨label', hu⟩ := pagingMap_spec h.forest hn hh hnew (h.fresh hans)
    exact noStale_of_update rfl hroot hn hnb hu (run_pagingMap s (framePtr n) vaddr paddr flags)
      (by rw [pagingMapAccesses, List.append_cons]) hev
  · rw [meetsHuge_eq hnb] at hh
    have hrun := run_pagingUnmap s (framePtr n) vaddr
    cases hwalk : pagingUnmapWalk vaddr 3 s (framePtr n) with
    | none =>
      rw [pagingUnmapAccesses, hwalk] at hev
      intro w e hne
      rw [tlb_machine, hev] at hne
      exact absurd rfl hne
    | some table =>
      have hlog : pagingUnmapAccesses s (framePtr n) vaddr =
          [.leaf vaddr table (vaddrToIndex vaddr 0) 0] ++ [.flush vaddr] := by
        rw [pagingUnmapAccesses, hwalk]
        rfl
      exact noStale_of_update rfl hroot hn hnb (pagingUnmap_spec h.forest hn hh) hrun hlog hev
  · exact readonly_stale_iff rfl hroot hnb (noHugeBelow_backed h hn) (h.forest.tablesApart hn) hev htlb

theorem dataEntry_writable {f : Nat} : dataEntry f 7 &&& PAGING_WRITABLE ≠ 0 := by
  intro h
  have hw : PAGING_WRITABLE.getLsbD 1 = true := by decide
  have h7 : ((7 : BitVec 8).setWidth 64).getLsbD 1 = true := by decide
  have hbit : (dataEntry f 7 &&& PAGING_WRITABLE).getLsbD 1 = false := by rw [h]; rfl
  rw [BitVec.getLsbD_and, dataEntry, BitVec.getLsbD_or, BitVec.getLsbD_or, hw, h7] at hbit
  simp at hbit

theorem tlbCurrent_empty : TlbCurrent (⟨s, fun _ => none⟩ : Cpu Pmm) := by
  intro v e hheld
  cases hheld

/-- The page at 4 MiB is loaded after it was flushed and before its entry is stored. -/
theorem exposed_page_stays_writable : ∃ (s : Machine Pmm) (k n : Nat) (label : Labels) (events : List TlbEvent),
    (Backed k s label ∧ label n = some ⟨n, []⟩ ∧ s.root = n) ∧ TlbCurrent (⟨s, fun _ => none⟩ : Cpu Pmm) ∧
      steps events = makeReadonlyAccesses 4 s (framePtr n) 0 ∧
      ¬ (NoStale s ((tlbOf Pmm).runAll ⟨s, fun _ => none⟩ events) ∧
        NoWritable ((tlbOf Pmm).runAll ⟨s, fun _ => none⟩ events)) := by
  obtain ⟨s, k, n, f, label, ⟨h, hn⟩, hroot, hf, -, -, hget, -, -⟩ := mapped_entry_small 7
  have hnb := h.forest.bound n _ hn
  obtain ⟨events, hev, hx⟩ := exposable (v := 0x400123) hnb (noHugeBelow_backed h hn) hroot (by decide)
    (by rw [hget]; exact present_dataEntry) (by rw [hget]; exact dataEntry_writable)
  have hc : (⟨s, fun _ => none⟩ : Cpu Pmm).machine = s := rfl
  have hstale := stale_of_exposed hc hroot hnb (noHugeBelow_backed h hn) (h.forest.tablesApart hn) hev hx
  exact ⟨s, k, n, label, events, ⟨h, hn, hroot⟩, tlbCurrent_empty, hev, fun hboth => hstale hboth.1⟩

theorem no_stale_small : ∃ (s : Machine Pmm) (n : Nat) (events : List TlbEvent),
    NoStale s ((tlbOf Pmm).runAll ⟨s, fun _ => none⟩ events) ∧
      NoWritable ((tlbOf Pmm).runAll ⟨s, fun _ => none⟩ events) ∧
      steps events = makeReadonlyAccesses 4 s (framePtr n) 0 := by
  obtain ⟨s, k, n, f, label, ⟨h, hn⟩, hroot, -⟩ := mapped_entry_small 7
  have hev : steps ((makeReadonlyAccesses 4 s (framePtr n) 0).map Event.step : List TlbEvent) =
      makeReadonlyAccesses 4 s (framePtr n) 0 := steps_map
  obtain ⟨hstale, hwritable⟩ := ((no_stale_iff h hn hroot fun _ => none).2.2 _
    tlbCurrent_empty hev).mpr fun ⟨pre, post, v, hsplit, _⟩ => by
      have hmem : Event.load (pageOf v) ∈ ((makeReadonlyAccesses 4 s (framePtr n) 0).map Event.step : List TlbEvent) :=
        hsplit ▸ List.mem_append_right _ List.mem_cons_self
      obtain ⟨a, -, ha⟩ := List.mem_map.mp hmem
      cases ha
  exact ⟨s, n, _, hstale, hwritable, hev⟩

end Calls

end ShedOS.Memory
