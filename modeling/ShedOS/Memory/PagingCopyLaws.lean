import ShedOS.Memory.PagingCopy

/-!
# When paging_copy is faithful

A copy that was made slot by slot leads where the source leads. It leads
nowhere else when the frames it was made in held no present entry in the slots
that are absent in the source.
-/

namespace ShedOS.Memory

open Bytes Loops

variable {σ : Type} [FrameSource σ] {s t : Machine σ} {m m' : Mem} {a b c d k n r level : Nat}
  {label : Labels} {l : Label} {path rest : List (Fin 512)} {f : σ} {i j : Fin 512} {v : U64}
  {plan : CopyPlan} {x : SubTable} {y : SubTable × Nat}

-- ---------------------------------------------------------------------------
-- The source
-- ---------------------------------------------------------------------------

def UserPath : List (Fin 512) → Prop
  | [] => True
  | i :: _ => i.val < 256

theorem userSlots_le (level : Nat) : userSlots level ≤ 512 := by
  unfold userSlots
  split <;> omega

theorem subTables_congr (hm : TablesOf k m label)
    (hread : ∀ n l i, label n = some l → tableRead m' n i = tableRead m n i) :
    ∀ {level : Nat} {path : List (Fin 512)} {a : Nat} {l : Label}, label a = some l →
      l.depth + level = 4 → NoHugeBelow m level a → subTables m' level path a = subTables m level path a
  | 0, _, _, _, _, _, _ => rfl
  | 1, _, _, _, _, _, _ => rfl
  | level + 2, path, a, l, ha, hd, hno => by
    rw [subTables_succ, subTables_succ, slotTables, slotTables]
    refine upto_congr fun i hi ts => ?_
    have hslot := slot_val (Nat.lt_of_lt_of_le hi (userSlots_le _))
    simp only [hread a l (slot i) ha]
    cases hp : present (tableRead m a (slot i)) with
    | false => simp only [Bool.false_eq_true, if_false]
    | true =>
      obtain ⟨hsmall, hno'⟩ := hno (slot i) (hslot.symm ▸ hi) hp
      have ha' := hm.labelled a l (slot i) _ ha (by omega) (nextTable_eq_some.mpr ⟨hp, hsmall, rfl⟩)
      rw [subTables_congr hm hread ha' (by rw [Label.depth_step]; omega) hno']

theorem noHugeBelow_congr (hm : TablesOf k m label)
    (hread : ∀ n l i, label n = some l → tableRead m' n i = tableRead m n i) :
    ∀ {level : Nat} {a : Nat} {l : Label}, label a = some l → l.depth + level = 4 →
      NoHugeBelow m level a → NoHugeBelow m' level a
  | 0, _, _, _, _, _ => trivial
  | 1, _, _, _, _, _ => trivial
  | level + 2, a, l, ha, hd, hno => by
    intro i hi hp
    rw [hread a l i ha] at hp ⊢
    obtain ⟨hsmall, hno'⟩ := hno i hi hp
    have ha' := hm.labelled a l i _ ha (by omega) (nextTable_eq_some.mpr ⟨hp, hsmall, rfl⟩)
    exact ⟨hsmall, noHugeBelow_congr hm hread ha' (by rw [Label.depth_step]; omega) hno'⟩

theorem TablesOf.congr (hm : TablesOf k m label)
    (hread : ∀ n l i, label n = some l → tableRead m' n i = tableRead m n i) :
    TablesOf k m' label where
  labelled n l i c hn hd hc := hm.labelled n l i c hn hd (by rwa [hread n l i hn] at hc)
  bound := hm.bound

/-- The table lies below `a`, less than `level` links away. -/
def SubTable.Reached (m : Mem) (level : Nat) (path : List (Fin 512)) (a : Nat) (x : SubTable) : Prop :=
  ∃ rest, x.path = path ++ rest ∧ rest ≠ [] ∧ rest.length < level ∧ (level = 4 → UserPath rest) ∧
    tableDescend m a rest = some x.frame

theorem mem_subTables {level : Nat} {path : List (Fin 512)} {a : Nat} (hno : NoHugeBelow m level a) :
    ∀ x ∈ subTables m level path a, x.Reached m level path a := by
  induction level using Nat.twoStepInduction generalizing path a with
  | zero => exact fun _ h => absurd h List.not_mem_nil
  | one => exact fun _ h => absurd h List.not_mem_nil
  | more level _ ih' =>
    intro x hx
    rw [subTables_succ, slotTables] at hx
    refine upto_rule (fun n ts => n ≤ userSlots (level + 2) →
      ∀ x ∈ ts, x.Reached m (level + 2) path a) (fun _ _ h => absurd h List.not_mem_nil) ?_ (Nat.le_refl _) x hx
    intro i ts hi ih hle x hx
    have hslot := slot_val (Nat.lt_of_lt_of_le hi (userSlots_le _))
    simp only at hx
    split at hx
    next hp =>
      obtain ⟨hsmall, hno'⟩ := hno (slot i) (hslot.symm ▸ hi) hp
      have hnext := nextTable_eq_some.mpr ⟨hp, hsmall, rfl⟩
      have huser : level + 2 = 4 → (slot i).val < 256 := fun h4 => by
        rw [hslot]
        simpa [userSlots, h4] using hi
      rcases List.mem_append.mp hx with hx | hx
      · exact ih (by omega) x hx
      · rcases List.mem_cons.mp hx with rfl | hx
        · exact ⟨[slot i], rfl, List.cons_ne_nil _ _, by simp, huser,
            by simp [tableDescend, Radix.descend, hnext]⟩
        · obtain ⟨rest, hpath, hne, hlen, -, hdesc⟩ := ih' hno' x hx
          refine ⟨slot i :: rest, by rw [hpath, List.append_assoc]; rfl, List.cons_ne_nil _ _,
            by rw [List.length_cons]; omega, huser, ?_⟩
          simpa [tableDescend, Radix.descend, hnext] using hdesc
    next => exact ih (by omega) x hx

theorem UserPath.of_append (h : UserPath (path ++ rest)) : UserPath path := by
  cases path with
  | nil => trivial
  | cons i path => exact h

theorem UserPath.slot (h : UserPath (path ++ [i])) : i.val < userSlots (4 - path.length) := by
  cases path with
  | nil => exact h
  | cons j path =>
    have hne : 4 - (j :: path).length ≠ 4 := by rw [List.length_cons]; omega
    rw [userSlots, if_neg hne]
    exact i.isLt

theorem noHugeBelow_descend (hno : NoHugeBelow m 4 n) :
    ∀ {path : List (Fin 512)} {a : Nat}, UserPath path → path.length ≤ 3 →
      tableDescend m n path = some a → NoHugeBelow m (4 - path.length) a := by
  intro path
  induction path using List.reverseRecOn with
  | nil =>
    intro a _ _ h
    obtain rfl := Option.some.inj h
    exact hno
  | append_singleton path i ih =>
    intro a hpath hlen h
    rw [List.length_append, List.length_singleton] at hlen ⊢
    rw [tableDescend, Radix.descend_snoc] at h
    obtain ⟨a', ha', hnext⟩ := Option.bind_eq_some_iff.mp h
    have := ih hpath.of_append (by omega) ha'
    obtain ⟨hp, -, rfl⟩ := nextTable_eq_some.mp hnext
    obtain ⟨level, hlevel⟩ : ∃ level, 4 - path.length = level + 2 := ⟨2 - path.length, by omega⟩
    have hslot := hpath.slot
    rw [hlevel] at this hslot
    rw [show 4 - (path.length + 1) = level + 1 by omega]
    exact (this i hslot hp).2

theorem noHugeBelow_meets : ∀ {level : Nat} {a : Nat}, level ≤ 3 → NoHugeBelow m (level + 1) a →
    (level = 3 → (tableIndex v 3).val < 256) → MeetsNoHuge m a v level
  | 0, _, _, _, _ => rfl
  | level + 1, a, hlevel, hno, hv => by
    refine meetsNoHuge_succ.mpr fun hp => ?_
    have hslot : (tableIndex v (level + 1)).val < userSlots (level + 2) := by
      unfold userSlots
      split
      next h =>
        obtain rfl : level = 2 := by omega
        exact hv rfl
      next => exact (tableIndex v (level + 1)).isLt
    obtain ⟨hsmall, hno'⟩ := hno _ hslot hp
    exact ⟨_, nextTable_eq_some.mpr ⟨hp, hsmall, rfl⟩, noHugeBelow_meets (by omega) hno' fun h => by omega⟩

def vaddrOf (w : Nat → Fin 512) : U64 :=
  BitVec.ofNat 64 ((w 3).val * 2 ^ 39 + (w 2).val * 2 ^ 30 + (w 1).val * 2 ^ 21 + (w 0).val * 2 ^ 12)

theorem tableIndex_vaddrOf {w : Nat → Fin 512} : ∀ level, level ≤ 3 → tableIndex (vaddrOf w) level = w level := by
  have hv : (vaddrOf w).toNat =
      (w 3).val * 2 ^ 39 + (w 2).val * 2 ^ 30 + (w 1).val * 2 ^ 21 + (w 0).val * 2 ^ 12 := by
    rw [vaddrOf, BitVec.toNat_ofNat, Nat.mod_eq_of_lt]
    omega
  have hindex : ∀ level ≤ 3, (vaddrOf w).toNat / 2 ^ (12 + 9 * level) % 512 = (w level).val := by
    rw [hv]
    refine forall_level ?_ ?_ ?_ ?_ <;> omega
  intro level hlevel
  exact Fin.ext ((vaddrToIndex_eq ..).trans (hindex level hlevel))

theorem noHugeBelow_of_meets : ∀ {level : Nat} {a : Nat} {u : Nat → Fin 512}, level ≤ 3 →
    (level < 3 → (u 3).val < 256) →
    (∀ w : Nat → Fin 512, (∀ j, level < j → w j = u j) → (w 3).val < 256 →
      MeetsNoHuge m a (vaddrOf w) level) → NoHugeBelow m (level + 1) a
  | 0, _, _, _, _, _ => trivial
  | level + 1, a, u, hlevel, hu, h => by
    intro i hi hp
    have huser : ∀ w : Nat → Fin 512, (∀ j, level < j → w j = Function.update u (level + 1) i j) →
        (w 3).val < 256 := by
      intro w hw
      rw [hw 3 (by omega)]
      by_cases h3 : level = 2
      · subst h3
        rw [Function.update_self]
        exact hi
      · rw [Function.update_of_ne (by omega)]
        exact hu (by omega)
    have hmeets : ∀ w : Nat → Fin 512, (∀ j, level < j → w j = Function.update u (level + 1) i j) →
        nextTable (tableRead m a i) = some (frameOf (tableRead m a i)) ∧
          MeetsNoHuge m (frameOf (tableRead m a i)) (vaddrOf w) level := by
      intro w hw
      have hi : tableIndex (vaddrOf w) (level + 1) = i := by
        rw [tableIndex_vaddrOf _ hlevel, hw _ (by omega), Function.update_self]
      have := h w (fun j hj => by rw [hw j (by omega), Function.update_of_ne (by omega)]) (huser w hw)
      rw [meetsNoHuge_succ, hi] at this
      obtain ⟨c, hc, hmeets⟩ := this hp
      obtain rfl := (nextTable_eq_some.mp hc).2.2
      exact ⟨hc, hmeets⟩
    refine ⟨(nextTable_eq_some.mp (hmeets _ fun _ _ => rfl).1).2.1, ?_⟩
    refine noHugeBelow_of_meets (u := Function.update u (level + 1) i) (by omega)
      (fun _ => huser _ fun _ _ => rfl) fun w hw _ => (hmeets w hw).2

-- ---------------------------------------------------------------------------
-- The copy
-- ---------------------------------------------------------------------------

structure CopyDone (k : Nat) (m m' : Mem) (label : Labels) (n d : Nat) (plan : CopyPlan) : Prop where
  tables : TablesOf k m label
  source : label n = some ⟨n, []⟩
  noHuge : NoHugeBelow m 4 n
  copies : ∀ y ∈ (⟨[], n⟩, d) :: plan, Copies m m' plan y
  paths : ∀ y ∈ plan, y.1.Reached m 4 [] n
  frames : ∀ y ∈ (⟨[], n⟩, d) :: plan, label y.2 = none ∧ y.2 < frameLimit
  nodup : (((⟨[], n⟩, d) :: plan).map (·.2)).Nodup
  empty : ∀ i : Fin 512, i.val < 256 → tableRead m d i = 0
  upper : ∀ i : Fin 512, 256 ≤ i.val → tableRead m d i = tableRead m n i
  kept : ∀ a, label (a / 0x1000) ≠ none → m' a = m a

/-- Where the source has no entry, neither had the frame of the copy. -/
def StaleFree (m : Mem) (plan : CopyPlan) : Prop :=
  ∀ y ∈ plan, y.1.path.length < 3 → ∀ i, present (tableRead m y.1.frame i) = false →
    present (tableRead m y.2 i) = false

theorem linkFlags_copy {e : U64} (hp : present e = true) (hh : huge e = false) :
    LinkFlags (e &&& 0xfff) := by
  have hmask : ∀ i, i < 12 → (0xfff : U64).getLsbD i = true := by decide
  refine ⟨?_, ?_, ?_⟩
  · rw [BitVec.toNat_and]
    exact Nat.lt_of_le_of_lt Nat.and_le_right (by decide)
  · rw [BitVec.getLsbD_and, hmask 0 (by decide), ← present_eq, hp]
    rfl
  · rw [BitVec.getLsbD_and, ← huge_eq, hh]
    rfl

namespace CopyDone

variable (h : CopyDone k m m' label n d plan)

include h

theorem reached (hy : y ∈ (⟨[], n⟩, d) :: plan) :
    UserPath y.1.path ∧ y.1.path.length ≤ 3 ∧ tableDescend m n y.1.path = some y.1.frame := by
  rcases List.mem_cons.mp hy with rfl | hy
  · exact ⟨trivial, Nat.zero_le _, rfl⟩
  · obtain ⟨rest, hpath, -, hlen, huser, hdesc⟩ := h.paths y hy
    rw [List.nil_append] at hpath
    rw [hpath]
    exact ⟨huser rfl, by omega, hdesc⟩

theorem ne_dst (hy : y ∈ plan) : y.2 ≠ d := fun e =>
  (List.nodup_cons.mp h.nodup).1 (List.mem_map.mpr ⟨y, hy, e⟩)

theorem slot (hy : (⟨path, a⟩, b) ∈ (⟨[], n⟩, d) :: plan) (hlen : path.length < 3)
    (hi : UserPath (path ++ [i])) (hp : present (tableRead m a i) = true) :
    nextTable (tableRead m a i) = some (frameOf (tableRead m a i)) ∧
      ∃ c, (⟨path ++ [i], frameOf (tableRead m a i)⟩, c) ∈ plan ∧
        nextTable (tableRead m' b i) = some c ∧
        tableRead m' b i = linkEntry c (tableRead m a i &&& 0xfff) := by
  obtain ⟨hpath, hlen', hdesc⟩ := h.reached hy
  have hno := noHugeBelow_descend h.noHuge hpath hlen' hdesc
  simp only at hno hlen'
  obtain ⟨level, hlevel⟩ : ∃ level, 4 - path.length = level + 2 := ⟨2 - path.length, by omega⟩
  rw [hlevel] at hno
  have hsmall := (hno i (hlevel ▸ hi.slot) hp).1
  obtain ⟨c, hc, he⟩ := (h.copies _ hy).link hlen i hi.slot hp
  refine ⟨nextTable_eq_some.mpr ⟨hp, hsmall, rfl⟩, c, hc, ?_, he⟩
  rw [he]
  exact nextTable_linkEntry (h.frames _ (List.mem_cons_of_mem _ hc)).2 (linkFlags_copy hp hsmall)

theorem descend : ∀ {path : List (Fin 512)} {a : Nat}, UserPath path → path.length ≤ 3 →
    tableDescend m n path = some a →
    ∃ b, (⟨path, a⟩, b) ∈ (⟨[], n⟩, d) :: plan ∧ tableDescend m' d path = some b := by
  intro path
  induction path using List.reverseRecOn with
  | nil =>
    intro a _ _ ha
    obtain rfl := Option.some.inj ha
    exact ⟨d, List.mem_cons_self, rfl⟩
  | append_singleton path i ih =>
    intro a hpath hlen ha
    rw [List.length_append, List.length_singleton] at hlen
    rw [tableDescend, Radix.descend_snoc] at ha
    obtain ⟨a', ha', hnext⟩ := Option.bind_eq_some_iff.mp ha
    obtain ⟨b', hb', hdesc⟩ := ih hpath.of_append (by omega) ha'
    obtain ⟨hp, -, rfl⟩ := nextTable_eq_some.mp hnext
    obtain ⟨-, c, hc, hnext', -⟩ := h.slot hb' (by omega) hpath hp
    refine ⟨c, List.mem_cons_of_mem _ hc, ?_⟩
    rw [tableDescend, Radix.descend_snoc]
    exact Option.bind_eq_some_iff.mpr ⟨b', hdesc, hnext'⟩

theorem stale_slot (hy : (⟨path, a⟩, b) ∈ (⟨[], n⟩, d) :: plan) (hlen : path.length < 3)
    (hp : present (tableRead m a i) = false) : tableRead m' b i = tableRead m b i :=
  (h.copies _ hy).stale hlen i (.inr hp)

/-- Where a walk through the copy finds a present entry, the source has one. -/
def NothingStale (m m' : Mem) (n d : Nat) (plan : CopyPlan) : Prop :=
  ∀ ⦃path : List (Fin 512)⦄ ⦃a b : Nat⦄ ⦃i : Fin 512⦄, (⟨path, a⟩, b) ∈ (⟨[], n⟩, d) :: plan →
    tableDescend m' d path = some b → path.length < 3 → UserPath (path ++ [i]) →
    present (tableRead m a i) = false → present (tableRead m' b i) = false

theorem nothingStale (hclean : StaleFree m plan) : NothingStale m m' n d plan := by
  intro path a b i hy _ hlen hi hp
  rw [h.stale_slot hy hlen hp]
  rcases List.mem_cons.mp hy with he | hy
  · obtain ⟨⟨rfl, -⟩, rfl⟩ : (path = [] ∧ a = n) ∧ b = d := by simpa using he
    rw [h.empty i hi]
    rfl
  · exact hclean _ hy hlen i hp

section Clean

variable (hclean : NothingStale m m' n d plan)

include hclean

theorem descend_back : ∀ {path : List (Fin 512)} {b : Nat}, UserPath path → path.length ≤ 3 →
    tableDescend m' d path = some b →
    ∃ a, (⟨path, a⟩, b) ∈ (⟨[], n⟩, d) :: plan ∧ tableDescend m n path = some a := by
  intro path
  induction path using List.reverseRecOn with
  | nil =>
    intro b _ _ hb
    obtain rfl := Option.some.inj hb
    exact ⟨n, List.mem_cons_self, rfl⟩
  | append_singleton path i ih =>
    intro b hpath hlen hb
    rw [List.length_append, List.length_singleton] at hlen
    rw [tableDescend, Radix.descend_snoc] at hb
    obtain ⟨b', hb', hnext⟩ := Option.bind_eq_some_iff.mp hb
    obtain ⟨a', ha', hdesc⟩ := ih hpath.of_append (by omega) hb'
    cases hp : present (tableRead m a' i) with
    | false =>
      rw [nextTable_eq_some, hclean ha' hb' (by omega) hpath hp] at hnext
      cases hnext.1
    | true =>
      obtain ⟨hsource, c, hc, hnext', -⟩ := h.slot ha' (by omega) hpath hp
      obtain rfl := Option.some.inj (hnext'.symm.trans hnext)
      refine ⟨_, List.mem_cons_of_mem _ hc, ?_⟩
      rw [tableDescend, Radix.descend_snoc]
      exact Option.bind_eq_some_iff.mpr ⟨a', hdesc, hsource⟩

theorem meetsNoHuge : ∀ {level : Nat} {path : List (Fin 512)} {a b : Nat},
    (⟨path, a⟩, b) ∈ (⟨[], n⟩, d) :: plan → tableDescend m' d path = some b → path.length + level = 3 →
    (path = [] → (tableIndex v 3).val < 256) → MeetsNoHuge m' b v level
  | 0, _, _, _, _, _, _, _ => rfl
  | level + 1, path, a, b, hy, hb, hlen, hv => by
    have hi : UserPath (path ++ [tableIndex v (level + 1)]) := by
      cases path with
      | nil =>
        obtain rfl : level = 2 := by simpa using hlen
        exact hv rfl
      | cons j path => exact (h.reached hy).1
    refine meetsNoHuge_succ.mpr fun hp => ?_
    cases hsource : present (tableRead m a (tableIndex v (level + 1))) with
    | false =>
      rw [hclean hy hb (by omega) hi hsource] at hp
      cases hp
    | true =>
      obtain ⟨-, c, hc, hnext, -⟩ := h.slot hy (by omega) hi hsource
      have hdesc : tableDescend m' d (path ++ [tableIndex v (level + 1)]) = some c := by
        rw [tableDescend, Radix.descend_snoc]
        exact Option.bind_eq_some_iff.mpr ⟨b, hb, hnext⟩
      refine ⟨c, hnext, meetsNoHuge (List.mem_cons_of_mem _ hc) hdesc ?_ fun e => ?_⟩
      · rw [List.length_append, List.length_singleton]
        omega
      · exact absurd e (List.append_ne_nil_of_right_ne_nil _ (List.cons_ne_nil _ _))

theorem lookup_user (hv : (tableIndex v 3).val < 256) : lookup m' d v = lookup m n v := by
  have huser : UserPath (indicesAbove v 3) := hv
  have hmeets : MeetsNoHuge m n v 3 := noHugeBelow_meets (Nat.le_refl _) h.noHuge fun _ => hv
  cases hleaf : tableDescend m n (indicesAbove v 3) with
  | some a =>
    obtain ⟨b, hb, hdesc⟩ := h.descend huser (by simp) hleaf
    rw [lookup_leaf hleaf, lookup_leaf hdesc]
    exact (h.copies _ hb).leaf (by simp) _
  | none =>
    have hdesc : tableDescend m' d (indicesAbove v 3) = none := by
      by_contra hne
      obtain ⟨b, hb⟩ := Option.ne_none_iff_exists'.mp hne
      obtain ⟨a, -, ha⟩ := h.descend_back hclean huser (by simp) hb
      rw [hleaf] at ha
      cases ha
    rw [lookup, lookup, walkValue_noLeaf hmeets hleaf,
      walkValue_noLeaf (h.meetsNoHuge hclean List.mem_cons_self rfl rfl fun _ => hv) hdesc]

end Clean

theorem kept_read {l : Label} (ha : label a = some l) : tableRead m' a i = tableRead m a i :=
  tableRead_congr fun z hz => h.kept z (by rw [hz, ha]; exact Option.some_ne_none l)

theorem lookup_old (hr : label r = some ⟨r, []⟩) : lookup m' r v = lookup m r v := by
  have hwalk : tableWalk m' r (tableIndex v 3) (indicesBelow v 3) =
      tableWalk m r (tableIndex v 3) (indicesBelow v 3) :=
    Radix.walk_congr h.tables.labelled (Label.depth_step k) hr (by simp [Label.depth])
      fun n l i hn _ => h.kept_read hn
  rw [lookup, lookup, hwalk]

theorem lookup_kernel (hv : 256 ≤ (tableIndex v 3).val) : lookup m' d v = lookup m' n v := by
  have hread : tableRead m' d (tableIndex v 3) = tableRead m' n (tableIndex v 3) := by
    rw [(h.copies _ List.mem_cons_self).stale (Nat.zero_lt_succ 2) _ (.inl hv), h.kept_read h.source]
    exact h.upper _ hv
  simp only [lookup, indicesBelow, tableWalk, Radix.walk, hread]

/-- A stale huge entry is found by lookups. -/
theorem lookup_stale (hpath : UserPath path) (hlen : path.length < 3)
    (hsource : tableDescend m n path = some a) (hp : present (tableRead m a i) = false)
    (hstale : ∀ b, (⟨path, a⟩, b) ∈ (⟨[], n⟩, d) :: plan →
      present (tableRead m b i) = true ∧ huge (tableRead m b i) = true)
    (hv : tableIndex v 3 :: indicesBelow v 3 = path ++ i :: rest) (hrest : rest ≠ []) :
    lookup m n v = 0 ∧ lookup m' d v ≠ 0 := by
  obtain ⟨j, rest, rfl⟩ := List.exists_cons_of_ne_nil hrest
  obtain ⟨b, hb, hdesc⟩ := h.descend hpath (Nat.le_of_lt hlen) hsource
  obtain ⟨hpb, hhb⟩ := hstale b hb
  have hread := h.stale_slot hb hlen hp
  constructor
  · rw [lookup, tableWalk, Radix.walk_descend hsource hv.symm,
      Radix.walk_none (by simp [nextTable, hp])]
    simp [walkValue, hp]
  · rw [lookup, tableWalk, Radix.walk_descend hdesc hv.symm,
      Radix.walk_none (by rw [hread]; simp [nextTable, hhb]), hread]
    simp only [walkValue, hpb, if_true]
    intro e
    rw [e] at hpb
    cases hpb

end CopyDone

end ShedOS.Memory
