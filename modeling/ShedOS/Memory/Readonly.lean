import ShedOS.Memory.PagingCopyFaithful

/-!
# Clearing the write bits of the user half

`paging_make_readonly` visits the leaf tables of the user half and nothing
else. As clearing the bit changes no link, what the recursion visits later does
not depend on what it wrote before.
-/

namespace ShedOS.Memory

open Bytes Loops

variable {σ : Type} {s : Machine σ} {m m' m'' : Mem} {a b c n level : Nat} {e v : U64}
  {path p q : List (Fin 512)} {i : Fin 512} {V W : Nat → Prop}

-- ---------------------------------------------------------------------------
-- Entries
-- ---------------------------------------------------------------------------

def readonly (e : U64) : U64 := e &&& ~~~PAGING_WRITABLE

theorem getLsbD_readonly {k : Nat} (hk : k < 64) (hne : k ≠ 1) :
    (readonly e).getLsbD k = e.getLsbD k := by
  have hbit : PAGING_WRITABLE.getLsbD k = false := by
    rw [PAGING_WRITABLE, BitVec.getLsbD_shiftLeft, BitVec.getLsbD_one]
    simp
    omega
  rw [readonly, BitVec.getLsbD_and, BitVec.getLsbD_not, hbit, decide_eq_true hk]
  simp

theorem readonly_readonly : readonly (readonly e) = readonly e := by
  rw [readonly, readonly, BitVec.and_assoc, BitVec.and_self]

@[simp] theorem readonly_zero : readonly 0 = 0 := BitVec.zero_and

theorem frameOf_readonly : frameOf (readonly e) = frameOf e := by
  have h : childTable (readonly e) = childTable e := by
    have hmask : ~~~PAGING_WRITABLE &&& ~~~0xfff = (~~~0xfff : U64) := by decide
    rw [childTable, readonly, BitVec.and_assoc, hmask, childTable]
  rw [childTable_eq, childTable_eq] at h
  rw [← frameOf_framePtr frameOf_lt, h, frameOf_framePtr frameOf_lt]

theorem nextTable_readonly : nextTable (readonly e) = nextTable e := by
  rw [nextTable, nextTable, present_eq, huge_eq, present_eq, huge_eq, frameOf_readonly,
    getLsbD_readonly (by decide) (by decide), getLsbD_readonly (by decide) (by decide)]

theorem present_readonly : present (readonly e) = present e := by
  rw [present_eq, present_eq, getLsbD_readonly (by decide) (by decide)]

theorem huge_readonly : huge (readonly e) = huge e := by
  rw [huge_eq, huge_eq, getLsbD_readonly (by decide) (by decide)]

-- ---------------------------------------------------------------------------
-- Memories that differ in write bits
-- ---------------------------------------------------------------------------

def Fades (m m' : Mem) : Prop :=
  ∀ b i, tableRead m' b i = tableRead m b i ∨ tableRead m' b i = readonly (tableRead m b i)

namespace Fades

theorem nextTable (h : Fades m m') : nextTable (tableRead m' b i) = Memory.nextTable (tableRead m b i) := by
  rcases h b i with h | h
  · rw [h]
  · rw [h, nextTable_readonly]

theorem present (h : Fades m m') : present (tableRead m' b i) = Memory.present (tableRead m b i) := by
  rcases h b i with h | h
  · rw [h]
  · rw [h, present_readonly]

theorem huge (h : Fades m m') : huge (tableRead m' b i) = Memory.huge (tableRead m b i) := by
  rcases h b i with h | h
  · rw [h]
  · rw [h, huge_readonly]

theorem frameOf (h : Fades m m') : frameOf (tableRead m' b i) = Memory.frameOf (tableRead m b i) := by
  rcases h b i with h | h
  · rw [h]
  · rw [h, frameOf_readonly]

/-- What a store of the cleared entry writes does not depend on earlier stores. -/
theorem readonly (h : Fades m m') : readonly (tableRead m' b i) = Memory.readonly (tableRead m b i) := by
  rcases h b i with h | h
  · rw [h]
  · rw [h, readonly_readonly]

theorem descend (h : Fades m m') (path : List (Fin 512)) :
    ∀ a, tableDescend m' a path = tableDescend m a path := by
  induction path with
  | nil => exact fun _ => rfl
  | cons i path ih =>
    intro a
    rw [tableDescend, Radix.descend, h.nextTable, tableDescend, Radix.descend]
    cases Memory.nextTable (tableRead m a i) with
    | none => rw [Option.bind_none, Option.bind_none]
    | some c =>
      rw [Option.bind_some, Option.bind_some]
      exact ih c

theorem noHugeBelow (h : Fades m m') : ∀ {level a : Nat},
    NoHugeBelow m level a → NoHugeBelow m' level a
  | 0, _, _ => trivial
  | 1, _, _ => trivial
  | level + 2, a, hno => by
    intro i hi hp
    rw [h.present] at hp
    obtain ⟨hsmall, hno⟩ := hno i hi hp
    rw [h.huge, h.frameOf]
    exact ⟨hsmall, h.noHugeBelow hno⟩

end Fades

/-- The entries of the tables in `V` lost their write bit; no other byte changed. -/
structure Cleared (V : Nat → Prop) (m m' : Mem) : Prop where
  inside : ∀ b, V b → ∀ i, tableRead m' b i = readonly (tableRead m b i)
  outside : ∀ y, ¬ V (y / 0x1000) → m' y = m y

namespace Cleared

theorem other (h : Cleared V m m') (hb : ¬ V b) : tableRead m' b i = tableRead m b i :=
  tableRead_congr fun y hy => h.outside y (hy ▸ hb)

theorem fades (h : Cleared V m m') : Fades m m' := fun b i => by
  by_cases hb : V b
  · exact .inr (h.inside b hb i)
  · exact .inl (h.other hb)

theorem congr (h : Cleared V m m') (hVW : ∀ b, V b ↔ W b) : Cleared W m m' :=
  ⟨fun b hb => h.inside b ((hVW b).mpr hb), fun y hy => h.outside y fun hV => hy ((hVW _).mp hV)⟩

theorem refl : Cleared (fun _ => False) m m := ⟨fun _ h => h.elim, fun _ _ => rfl⟩

/-- A table may be visited twice, as the bit is cleared for good. -/
theorem trans (h : Cleared V m m') (h' : Cleared W m' m'') : Cleared (fun b => V b ∨ W b) m m'' where
  inside b hb i := by
    by_cases hW : W b
    · rw [h'.inside b hW]
      by_cases hV : V b
      · rw [h.inside b hV, readonly_readonly]
      · rw [h.other hV]
    · rw [h'.other hW, h.inside b (hb.resolve_right hW)]
  outside y hy := by
    rw [not_or] at hy
    rw [h'.outside y hy.2, h.outside y hy.1]

end Cleared

-- ---------------------------------------------------------------------------
-- The recursion
-- ---------------------------------------------------------------------------

def LeafBelow (m : Mem) : (level : Nat) → (a b : Nat) → Prop
  | 0, _, _ => False
  | 1, a, b => b = a
  | level + 2, a, b => ∃ i : Fin 512, i.val < userSlots (level + 2) ∧
    ∃ c, nextTable (tableRead m a i) = some c ∧ LeafBelow m (level + 1) c b

def LeafBehind (m : Mem) (level a n b : Nat) : Prop :=
  ∃ i : Fin 512, i.val < n ∧ ∃ c, nextTable (tableRead m a i) = some c ∧ LeafBelow m (level + 1) c b

theorem Cleared.leafBelow (h : Cleared V m m') : ∀ {level a : Nat},
    LeafBelow m' level a b ↔ LeafBelow m level a b
  | 0, _ => Iff.rfl
  | 1, _ => Iff.rfl
  | level + 2, a => by
    unfold LeafBelow
    simp only [h.fades.nextTable, h.leafBelow]

theorem leafBehind_succ (hn : n < 512) : LeafBehind m level a (n + 1) b ↔
    LeafBehind m level a n b ∨
      ∃ c, nextTable (tableRead m a (slot n)) = some c ∧ LeafBelow m (level + 1) c b := by
  constructor
  · rintro ⟨i, hi, h⟩
    rcases Nat.lt_succ_iff_lt_or_eq.mp hi with hi | rfl
    · exact .inl ⟨i, hi, h⟩
    · rw [show slot i.val = i from Fin.ext (slot_val hn)]
      exact .inr h
  · rintro (⟨i, hi, h⟩ | h)
    · exact ⟨i, Nat.lt_succ_of_lt hi, h⟩
    · exact ⟨slot n, by rw [slot_val hn]; exact Nat.lt_succ_self n, h⟩

structure ClearedUpTo (a n : Nat) (m m' : Mem) : Prop where
  read : ∀ i : Fin 512, tableRead m' a i = if i.val < n then readonly (tableRead m a i) else tableRead m a i
  outside : ∀ y, y / 0x1000 ≠ a → m' y = m y

theorem ClearedUpTo.next (h : ClearedUpTo a n m m') (hn : n < 512) :
    ClearedUpTo a (n + 1) m (writeEntry m' a n (readonly (entryAt m' a n))) := by
  have hentry : entryAt m' a n = tableRead m a (slot n) := by
    have := h.read (slot n)
    rwa [tableRead, slot_val hn, if_neg (Nat.lt_irrefl n)] at this
  refine ⟨fun i => ?_, fun y hy => by rw [writeEntry_byte hn hy, h.outside y hy]⟩
  rw [tableRead, entryAt_writeEntry hn i.isLt, hentry]
  by_cases hi : i.val = n
  · rw [if_pos ⟨rfl, hi⟩, if_pos (by omega), show slot n = i from Fin.ext ((slot_val hn).trans hi.symm)]
  · have hread := h.read i
    rw [tableRead] at hread
    rw [if_neg fun h => hi h.2, hread]
    congr 1
    exact propext (by omega)

theorem makeReadonly_entries (ha : a < frameLimit) (hn : n ≤ 512) :
    ∃ m', upto (fun i (t : Machine σ) => t.setEntry (framePtr a) i (t.entry (framePtr a) i &&& ~~~PAGING_WRITABLE)) s n =
      { s with mem := m' } ∧ ClearedUpTo a n s.mem m' := by
  refine upto_rule (fun n (t : Machine σ) => ∃ m', t = { s with mem := m' } ∧ ClearedUpTo a n s.mem m')
    ⟨s.mem, rfl, fun _ => rfl, fun _ _ => rfl⟩ ?_
  rintro i _ hi ⟨m', rfl, h⟩
  have hi := Nat.lt_of_lt_of_le hi hn
  refine ⟨_, ?_, h.next hi⟩
  rw [Machine.entry_framePtr ha hi, Machine.setEntry_framePtr ha hi, readonly]

theorem makeReadonly_leaf (ha : a < frameLimit) :
    ∃ m', pagingMakeReadonlyRecursive 1 s (framePtr a) = { s with mem := m' } ∧
      Cleared (LeafBelow s.mem 1 a) s.mem m' := by
  obtain ⟨m', ht, h⟩ := makeReadonly_entries (s := s) ha (Nat.le_refl 512)
  refine ⟨m', ht, ?_, h.outside⟩
  rintro b rfl i
  rw [h.read, if_pos i.isLt]

def readonlySlot (level : Nat) (table : U64) (i : Nat) (s : Machine σ) : Machine σ :=
  if !present (s.entry table i) then s
  else pagingMakeReadonlyRecursive (level + 1) s (childTable (s.entry table i))

/-- The turns of the loop over a table of links, for a recursion that is right below. -/
theorem makeReadonly_slots (hbelow : ∀ (t : Machine σ) (c : Nat), c < frameLimit → NoHugeBelow t.mem (level + 1) c →
      ∃ m', pagingMakeReadonlyRecursive (level + 1) t (framePtr c) = { t with mem := m' } ∧
        Cleared (LeafBelow t.mem (level + 1) c) t.mem m')
    (ha : a < frameLimit) (hno : NoHugeBelow s.mem (level + 2) a) (hn : n ≤ userSlots (level + 2)) :
    ∃ m', upto (readonlySlot level (framePtr a)) s n = { s with mem := m' } ∧
      Cleared (LeafBehind s.mem level a n) s.mem m' := by
  refine upto_rule (fun n t => ∃ m', t = { s with mem := m' } ∧ Cleared (LeafBehind s.mem level a n) s.mem m') ?_ ?_
  · exact ⟨s.mem, rfl, Cleared.refl.congr fun b => ⟨False.elim, fun ⟨_, hi, _⟩ => absurd hi (Nat.not_lt_zero _)⟩⟩
  rintro i _ hi ⟨m', rfl, hm⟩
  have hi := Nat.lt_of_lt_of_le hi hn
  have hi512 := Nat.lt_of_lt_of_le hi (userSlots_le _)
  have hentry : ({ s with mem := m' } : Machine σ).entry (framePtr a) i = tableRead m' a (slot i) := by
    rw [Machine.entry_framePtr ha hi512, tableRead, slot_val hi512]
  simp only [readonlySlot, hentry]
  cases hp : present (tableRead m' a (slot i)) with
  | false =>
    have hnone : nextTable (tableRead s.mem a (slot i)) = none := by
      rw [← hm.fades.nextTable, nextTable, hp, Bool.false_and, if_neg Bool.false_ne_true]
    refine ⟨m', rfl, hm.congr fun b => ?_⟩
    rw [leafBehind_succ hi512, hnone]
    simp
  | true =>
    obtain ⟨hsmall, hno'⟩ := hm.fades.noHugeBelow hno (slot i) (by rwa [slot_val hi512]) hp
    have hnext := nextTable_eq_some.mpr ⟨hp, hsmall, rfl⟩
    obtain ⟨m'', ht, hm''⟩ := hbelow { s with mem := m' } _ (nextTable_lt hnext) hno'
    simp only [Bool.not_true, Bool.false_eq_true, if_false, childTable_eq]
    refine ⟨m'', ht, (hm.trans hm'').congr fun b => ?_⟩
    rw [leafBehind_succ hi512, ← hm.fades.nextTable, hnext]
    simp [hm.leafBelow]

theorem makeReadonly_cleared : ∀ {level : Nat} {s : Machine σ} {a : Nat}, a < frameLimit →
    NoHugeBelow s.mem level a →
    ∃ m', pagingMakeReadonlyRecursive level s (framePtr a) = { s with mem := m' } ∧
      Cleared (LeafBelow s.mem level a) s.mem m'
  | 0, s, _, _, _ => ⟨s.mem, rfl, Cleared.refl⟩
  | 1, _, _, ha, _ => makeReadonly_leaf ha
  | _ + 2, _, _, ha, hno =>
    makeReadonly_slots (fun _ _ hc hno' => makeReadonly_cleared hc hno') ha hno (Nat.le_refl _)

theorem makeReadonly_fixed : ∀ {level : Nat} {s : Machine σ} {a : Nat}, a < frameLimit →
    NoHugeBelow s.mem level a →
    (∀ b, LeafBelow s.mem level a b → ∀ i, readonly (tableRead s.mem b i) = tableRead s.mem b i) →
    pagingMakeReadonlyRecursive level s (framePtr a) = s
  | 0, _, _, _, _, _ => rfl
  | 1, s, a, ha, _, h => by
    rw [pagingMakeReadonlyRecursive]
    refine upto_rule (fun _ t => t = s) rfl ?_
    rintro n t hn rfl
    have hclear : entryAt t.mem a n &&& ~~~PAGING_WRITABLE = entryAt t.mem a n := h a rfl ⟨n, hn⟩
    rw [Machine.entry_framePtr ha hn, hclear, Machine.setEntry_framePtr ha hn, writeEntry, entryAt,
      Mem.write64_read64]
  | level + 2, s, a, ha, hno, h => by
    rw [pagingMakeReadonlyRecursive]
    refine upto_rule (fun _ t => t = s) rfl ?_
    rintro n t hn rfl
    have hn512 := Nat.lt_of_lt_of_le hn (userSlots_le _)
    have hentry : t.entry (framePtr a) n = tableRead t.mem a (slot n) := by
      rw [Machine.entry_framePtr ha hn512, tableRead, slot_val hn512]
    have hslot : (slot n).val < userSlots (level + 2) := by rwa [slot_val hn512]
    simp only [hentry]
    cases hp : present (tableRead t.mem a (slot n)) with
    | false => rfl
    | true =>
      obtain ⟨hsmall, hbelow⟩ := hno (slot n) hslot hp
      have hnext := nextTable_eq_some.mpr ⟨hp, hsmall, rfl⟩
      simp only [Bool.not_true, Bool.false_eq_true, if_false, childTable_eq]
      exact makeReadonly_fixed (nextTable_lt hnext) hbelow fun b hb =>
        h b ⟨slot n, hslot, _, hnext, hb⟩

-- ---------------------------------------------------------------------------
-- Paths
-- ---------------------------------------------------------------------------

theorem leafBelow_iff : ∀ {level a : Nat}, level ≤ 3 →
    (LeafBelow m (level + 1) a b ↔
      ∃ path, path.length = level ∧ (level = 3 → UserPath path) ∧ tableDescend m a path = some b)
  | 0, a, _ => by
    constructor
    · rintro rfl
      exact ⟨[], rfl, fun _ => trivial, rfl⟩
    · rintro ⟨path, hlen, -, hd⟩
      obtain rfl := List.length_eq_zero_iff.mp hlen
      exact (Option.some.inj hd).symm
  | level + 1, a, hlevel => by
    constructor
    · rintro ⟨i, hi, c, hc, hb⟩
      obtain ⟨path, hlen, -, hd⟩ := (leafBelow_iff (by omega)).mp hb
      refine ⟨i :: path, by rw [List.length_cons, hlen], fun h3 => ?_, ?_⟩
      · obtain rfl : level = 2 := by omega
        exact hi
      · rw [tableDescend, Radix.descend, hc]
        exact hd
    · rintro ⟨path, hlen, huser, hd⟩
      cases path with
      | nil => cases hlen
      | cons i path =>
        obtain ⟨c, hc, hd⟩ := Option.bind_eq_some_iff.mp hd
        refine ⟨i, ?_, c, hc, (leafBelow_iff (by omega)).mpr
          ⟨path, Nat.succ.inj hlen, fun h => absurd h (by omega), hd⟩⟩
        unfold userSlots
        split
        next h => exact huser (by omega)
        next => exact i.isLt

def TablesApart (m : Mem) (n : Nat) : Prop :=
  ∀ p q c, p.length ≤ 3 → q.length ≤ 3 → tableDescend m n p = some c →
    tableDescend m n q = some c → p = q

theorem Cleared.walk (h : Cleared V m m') : ∀ {path : List (Fin 512)} {a : Nat} {i : Fin 512},
    (∀ p q c, p ++ q = i :: path → q ≠ [] → tableDescend m a p = some c → ¬ V c) →
    tableWalk m' a i path = tableWalk m a i path
  | [], a, i, hV => by
    rw [tableWalk, Radix.walk, h.other (hV [] [i] a rfl (by simp) rfl), tableWalk, Radix.walk]
  | j :: path, a, i, hV => by
    rw [tableWalk, Radix.walk, h.other (hV [] (i :: j :: path) a rfl (by simp) rfl), tableWalk, Radix.walk]
    cases hc : Memory.nextTable (tableRead m a i) with
    | none => rfl
    | some c =>
      refine h.walk fun p q b hpq hq hd => hV (i :: p) q b (by rw [List.cons_append, hpq]) hq ?_
      rw [tableDescend, Radix.descend, hc]
      exact hd

structure MadeReadonly (s s' : Machine σ) (n : Nat) : Prop where
  user : ∀ v, kernelHalf v = false →
    pagingGet s' (framePtr n) v = pagingGet s (framePtr n) v &&& ~~~PAGING_WRITABLE
  kernel : ∀ v, kernelHalf v = true → pagingGet s' (framePtr n) v = pagingGet s (framePtr n) v
  links : ∀ path c, path.length < 3 → tableDescend s.mem n path = some c →
    ∀ i : Fin 512, s'.entry (framePtr c) i = s.entry (framePtr c) i
  elsewhere : ∀ y, (∀ path, path.length = 3 → UserPath path →
    tableDescend s.mem n path ≠ some (y / 0x1000)) → s'.mem y = s.mem y
  again : pagingMakeReadonly s' (framePtr n) = s'

theorem descend_lt : ∀ {path : List (Fin 512)} {a : Nat}, a < frameLimit →
    tableDescend m a path = some c → c < frameLimit
  | [], _, ha, h => Option.some.inj h ▸ ha
  | _ :: _, _, _, h => by
    obtain ⟨b, hb, h⟩ := Option.bind_eq_some_iff.mp h
    exact descend_lt (nextTable_lt hb) h

theorem make_readonly_exact (s : Machine σ) (hn : n < frameLimit) (ht : TablesApart s.mem n)
    (hh : ∀ v, kernelHalf v = false → meetsHuge s v 3 (framePtr n) = false) :
    MadeReadonly s (pagingMakeReadonly s (framePtr n)) n := by
  have hno := noHugeBelow_of_user hn hh
  obtain ⟨m', hs', hm⟩ := makeReadonly_cleared hn hno
  rw [pagingMakeReadonly, hs']
  have hleaf : ∀ b, LeafBelow s.mem 4 n b ↔
      ∃ path, path.length = 3 ∧ UserPath path ∧ tableDescend s.mem n path = some b := fun b => by
    simpa using leafBelow_iff (m := s.mem) (a := n) (b := b) (Nat.le_refl 3)
  refine ⟨fun v hv => ?_, fun v hv => ?_, fun path c hlen hc i => ?_, fun y hy => ?_, ?_⟩
  · rw [pagingGet_lookup hn, pagingGet_lookup hn]
    have hi : (tableIndex v 3).val < 256 := Nat.lt_of_not_le (of_decide_eq_false hv)
    cases hg : tableDescend s.mem n (indicesAbove v 3) with
    | none =>
      have hmeets := noHugeBelow_meets (Nat.le_refl 3) hno fun _ => hi
      have hmeets' := noHugeBelow_meets (Nat.le_refl 3) (hm.fades.noHugeBelow hno) fun _ => hi
      rw [lookup, walkValue_noLeaf hmeets' ((hm.fades.descend _ _).trans hg), lookup, walkValue_noLeaf hmeets hg]
      exact readonly_zero.symm
    | some g =>
      rw [lookup_leaf ((hm.fades.descend _ _).trans hg), lookup_leaf hg]
      exact hm.inside g ((hleaf g).mpr ⟨_, length_indicesAbove, hi, hg⟩) _
  · rw [pagingGet_lookup hn, pagingGet_lookup hn, lookup, lookup]
    have hi : 256 ≤ (tableIndex v 3).val := of_decide_eq_true hv
    refine congrArg walkValue (hm.walk fun p q c hpq hq hd hV => ?_)
    -- a table on the way to `v` that is also a leaf of the user half
    obtain ⟨path, hlen, huser, hd'⟩ := (hleaf c).mp hV
    have hle : p.length ≤ 3 := by
      have := congrArg List.length hpq
      have := List.length_pos_iff.mpr hq
      simp at *
      omega
    obtain rfl := ht p path c hle (by omega) hd hd'
    cases p with
    | nil => cases hlen
    | cons j p =>
      have hj : j = tableIndex v 3 := (List.cons.inj hpq).1
      have : j.val < 256 := huser
      rw [hj] at this
      omega
  · have hcb := descend_lt hn hc
    rw [Machine.entry_framePtr hcb i.isLt, Machine.entry_framePtr hcb i.isLt]
    refine hm.other fun hV => ?_
    obtain ⟨path', hlen', -, hc'⟩ := (hleaf c).mp hV
    obtain rfl := ht path path' c (by omega) (by omega) hc hc'
    omega
  · exact hm.outside y fun hV => by
      obtain ⟨path, hlen, huser, hd⟩ := (hleaf _).mp hV
      exact hy path hlen huser hd
  · refine makeReadonly_fixed hn (hm.fades.noHugeBelow hno) fun b hb i => ?_
    rw [hm.inside b (hm.leafBelow.mp hb), readonly_readonly]

/-- The tables of a forest are apart: the label of a table gives its path. -/
theorem Forest.tablesApart {k : Nat} {label : Labels} (hf : Forest k m label)
    (hn : label n = some ⟨n, []⟩) : TablesApart m n := by
  intro p q c hp hq hc hc'
  have hl := Radix.descend_label hf.labelled (Label.depth_step k) hn (by simpa [Label.depth] using hp) hc
  have hl' := Radix.descend_label hf.labelled (Label.depth_step k) hn (by simpa [Label.depth] using hq) hc'
  have := congrArg Label.path (Option.some.inj (hl.symm.trans hl'))
  rwa [Label.path_foldl, Label.path_foldl] at this

theorem make_readonly_exact_onePage : ∃ s : Machine Bump,
    MadeReadonly s (pagingMakeReadonly s (framePtr 257)) 257 := by
  obtain ⟨s, k, label, h, hn, hh, -⟩ := onePage_machine
  exact ⟨s, make_readonly_exact s (h.forest.bound _ _ hn) (h.forest.tablesApart hn) hh⟩

end ShedOS.Memory
