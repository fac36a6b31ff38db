import ShedOS.Memory.PagingCopyLaws

/-!
# paging_copy as a whole

`paging_copy` never clears the frames of the copied tables, so an entry that a
frame held before stays where the source has none. The copy is faithful when no
such entry is present, and for all old contents of the frames only when the
source leaves no slot of these tables empty.
-/

namespace ShedOS.Memory

open Bytes Loops
open Relation (ReflTransGen)

variable {σ : Type} [FrameSource σ] {s s' t : Machine σ} {m m' : Mem} {a b c d k n r level : Nat}
  {label : Labels} {l : Label} {path rest : List (Fin 512)} {i j : Fin 512} {v table : U64}
  {x : SubTable} {y : SubTable × Nat}

-- ---------------------------------------------------------------------------
-- Statement
-- ---------------------------------------------------------------------------

/-- The tables below the top level that the user half of `table` leads to, with
level 3 for the uppermost of them. -/
inductive UserTable (s : Machine σ) (table : U64) : Nat → U64 → Prop
  | top (i : Nat) (hi : i < 256) (hp : present (s.entry table i) = true)
      (hh : huge (s.entry table i) = false) : UserTable s table 3 (childTable (s.entry table i))
  | next {level : Nat} {t : U64} (h : UserTable s table (level + 2) t) (i : Nat) (hi : i < 512)
      (hp : present (s.entry t i) = true) (hh : huge (s.entry t i) = false) :
      UserTable s table (level + 1) (childTable (s.entry t i))

/-- `dst` is a faithful copy of `src`, made between `s` and `s'`. -/
structure Faithful (s s' : Machine σ) (src dst : U64) : Prop where
  lookups : ∀ v, pagingGet s' dst v = pagingGet s' src v
  source : ∀ v, pagingGet s' src v = pagingGet s src v
  apart : ∀ level level' t, UserTable s' dst level t → ¬ UserTable s' src level' t

def CopyFaithful (s : Machine σ) (src : U64) : Prop :=
  Faithful s (pagingCopy s src).2 src (pagingCopy s src).1

def copyTables (s : Machine σ) (n : Nat) : List SubTable := subTables s.mem 4 [] n

def copyCount (s : Machine σ) (n : Nat) : Nat := 1 + (copyTables s n).length

def copyFrames (s : Machine σ) (n : Nat) : List U64 := nextFrames s.frames (copyCount s n)

def copyPlan (s : Machine σ) (n : Nat) : CopyPlan := planOf (afterFrames s.frames 1) (copyTables s n)

-- ---------------------------------------------------------------------------
-- The run of paging_copy
-- ---------------------------------------------------------------------------

theorem copyFrames_eq : copyFrames s n =
    (s.requestPages 1).1 :: nextFrames (s.requestPages 1).2.frames (copyTables s n).length := by
  rw [copyFrames, copyCount, nextFrames_add]
  rfl

omit [FrameSource σ] in
theorem emptyTable_tables (h : PagingInv k s label) (hd : label d = none) :
    TablesOf k (emptyTable s.mem k d) label :=
  TablesOf.congr ⟨h.forest.labelled, h.forest.bound⟩ fun _ _ _ hn =>
    tableRead_emptyTable_old h.forest hd hn

theorem pagingCopy_done (h : PagingInv k s label) (hn : label n = some ⟨n, []⟩)
    (hno : NoHugeBelow s.mem 4 n) (hfresh : FreshFrames label (copyFrames s n)) :
    ∃ d, (pagingCopy s (framePtr n)).1 = framePtr d ∧
      CopyDone k (emptyTable s.mem k d) (pagingCopy s (framePtr n)).2.mem label n d (copyPlan s n) ∧
      Allocates (copyCount s n) s (pagingCopy s (framePtr n)).2 ∧
      (∀ z, z / 0x1000 ∉ (copyFrames s n).map frameNo →
        (pagingCopy s (framePtr n)).2.mem z = s.mem z) ∧
      ∀ y ∈ (⟨[], n⟩, d) :: copyPlan s n, y.2 ∈ (copyFrames s n).map frameNo := by
  have hf := h.forest
  have htables : TablesOf k s.mem label := ⟨hf.labelled, hf.bound⟩
  rw [copyFrames_eq] at hfresh ⊢
  obtain ⟨p, hp⟩ : ∃ p, p = (s.requestPages 1).1 := ⟨_, rfl⟩
  obtain ⟨d, hd⟩ : ∃ d, d = frameNo p := ⟨_, rfl⟩
  rw [← hp] at hfresh ⊢
  have hdb : d < frameLimit := hd ▸ hfresh.bound p List.mem_cons_self
  have hdnone : label d = none := hd ▸ hfresh.unused p List.mem_cons_self
  have hpd : p = BitVec.ofNat 64 (0x1000 * d) :=
    hd ▸ eq_frame_of_aligned (hfresh.aligned p List.mem_cons_self)
  have hnodup := hfresh.nodup
  rw [List.map_cons, List.nodup_cons, ← hd] at hnodup
  have hkd := fresh_ne_kernel hf hdnone
  have hread : ∀ n l i, label n = some l →
      tableRead (emptyTable s.mem k d) n i = tableRead s.mem n i := fun _ _ _ hn =>
    tableRead_emptyTable_old hf hdnone hn
  have hempty := pagingCreateEmpty_eq h.kernelTable (hf.bound k _ hf.kernel) hdb (hp ▸ hpd)
  obtain ⟨s₁, hs₁⟩ : ∃ s₁, s₁ = (pagingCreateEmpty s).2 := ⟨_, rfl⟩
  have hmem₁ : s₁.mem = emptyTable s.mem k d := by rw [hs₁, hempty]
  have hframes₁ : s₁.frames = (s.requestPages 1).2.frames := by rw [hs₁]; rfl
  have halloc₁ : Allocates 1 s s₁ := by rw [hs₁]; exact ⟨rfl, rfl, rfl, rfl⟩
  have hts : subTables (emptyTable s.mem k d) 4 [] n = copyTables s n :=
    subTables_congr htables hread hn rfl hno
  have hno₁ : NoHugeBelow (emptyTable s.mem k d) 4 n := noHugeBelow_congr htables hread hn rfl hno
  have hcopy : pagingCopy s (framePtr n) =
      (framePtr d, pagingCopyRecursive 4 s₁ (framePtr d) (framePtr n)) := by
    simp only [pagingCopy, hs₁, hempty]
  have hrest : FreshFrames label (nextFrames s₁.frames (copyTables s n).length) := by
    rw [hframes₁]
    exact ⟨fun q hq => hfresh.aligned q (List.mem_cons_of_mem _ hq),
      fun q hq => hfresh.bound q (List.mem_cons_of_mem _ hq),
      fun q hq => hfresh.unused q (List.mem_cons_of_mem _ hq), hnodup.2⟩
  have hrun := pagingCopyRecursive_spec (emptyTable_tables h hdnone) 4 (by decide) s₁ [] n d _ hn rfl rfl
    hno₁ (by
      rw [hts]
      refine ⟨⟨hdnone, hdb⟩, hrest, hframes₁ ▸ hnodup.1, fun y _ => by rw [hmem₁]⟩)
  rw [hts] at hrun
  have hplan : planOf s₁.frames (copyTables s n) = copyPlan s n := by rw [hframes₁]; rfl
  rw [hcopy]
  refine ⟨d, rfl, ⟨emptyTable_tables h hdnone, hn, hno₁, fun y hy => ?_, fun y hy => ?_, fun y hy => ?_,
    ?_, fun i hi => ?_, fun i hi => ?_, fun z hz => ?_⟩, halloc₁.trans hrun.alloc, fun z hz => ?_, fun y hy => ?_⟩
  · rw [← hplan] at hy ⊢
    rcases List.mem_cons.mp hy with rfl | hy
    · exact hrun.top
    · exact hrun.below y hy
  · exact mem_subTables hno₁ y.1 (hts ▸ (List.of_mem_zip hy).1)
  · rcases List.mem_cons.mp hy with rfl | hy
    · exact ⟨hdnone, hdb⟩
    · obtain ⟨q, hq, he⟩ := List.mem_map.mp (planOf_frame (hplan ▸ hy))
      exact he ▸ ⟨hrest.unused q hq, hrest.bound q hq⟩
  · rw [← hplan, planOf, List.map_cons, List.map_snd_zip (by simp), hframes₁]
    exact List.nodup_cons.mpr hnodup
  · rw [tableRead_emptyTable hkd, if_pos rfl, if_neg (by omega)]
  · rw [hread n _ i hn, tableRead_emptyTable hkd, if_pos rfl, if_pos hi]
    exact (hf.shared n hn i hi).symm
  · rw [hrun.outside z (fun e => hz (by rw [e]; exact hdnone)) fun e => ?_, hmem₁]
    obtain ⟨q, hq, he⟩ := List.mem_map.mp e
    exact hz (he ▸ hrest.unused q hq)
  · rw [List.map_cons, List.mem_cons, not_or, ← hd] at hz
    rw [hrun.outside z hz.1 (hframes₁ ▸ hz.2), hmem₁, emptyTable_byte hz.1]
  · rw [List.map_cons, ← hd]
    rcases List.mem_cons.mp hy with rfl | hy
    · exact List.mem_cons_self
    · exact List.mem_cons_of_mem _ (planOf_frame hy)

-- ---------------------------------------------------------------------------
-- Faithful copies
-- ---------------------------------------------------------------------------

omit [FrameSource σ] in
theorem userTable_descend (hn : n < frameLimit) (h : UserTable s (framePtr n) level table) :
    ∃ path a, (UserPath path ∧ path ≠ []) ∧ path.length + level = 4 ∧ a < frameLimit ∧
      table = framePtr a ∧ tableDescend s.mem n path = some a := by
  induction h with
  | top i hi hp hh =>
    have hi' : i < 512 := by omega
    rw [Machine.entry_framePtr hn hi'] at hp hh ⊢
    have hnext := nextTable_eq_some.mpr ⟨hp, hh, rfl⟩
    refine ⟨[⟨i, hi'⟩], _, ⟨hi, List.cons_ne_nil _ _⟩, rfl, nextTable_lt hnext, childTable_eq, ?_⟩
    simp only [tableDescend, Radix.descend]
    exact Option.bind_eq_some_iff.mpr ⟨_, hnext, rfl⟩
  | next _ i hi hp hh ih =>
    obtain ⟨path, a, ⟨hpath, hne⟩, hlen, ha, rfl, hdesc⟩ := ih
    rw [Machine.entry_framePtr ha hi] at hp hh ⊢
    have hnext := nextTable_eq_some.mpr ⟨hp, hh, rfl⟩
    refine ⟨path ++ [⟨i, hi⟩], _, ⟨?_, by simp⟩, ?_, nextTable_lt hnext, childTable_eq, ?_⟩
    · cases path with
      | nil => exact absurd rfl hne
      | cons j path => exact hpath
    · rw [List.length_append, List.length_singleton]
      omega
    · rw [tableDescend, Radix.descend_snoc]
      exact Option.bind_eq_some_iff.mpr ⟨a, hdesc, hnext⟩

omit [FrameSource σ] in
theorem copyTables_label (h : PagingInv k s label) (hn : label n = some ⟨n, []⟩)
    (hno : NoHugeBelow s.mem 4 n) (hx : x ∈ copyTables s n) : ∃ l, label x.frame = some l := by
  obtain ⟨rest, -, -, hlen, -, hdesc⟩ := mem_subTables hno x hx
  exact ⟨_, Radix.descend_label h.forest.labelled (Label.depth_step k) hn
    (by simp only [Label.depth, List.length_nil]; omega) hdesc⟩

omit [FrameSource σ] in
theorem CopyDone.faithful (h : PagingInv k s label) (hn : label n = some ⟨n, []⟩)
    (hs' : s'.mem = m') (hd : label d = none ∧ d < frameLimit) {plan : CopyPlan}
    (hdone : CopyDone k (emptyTable s.mem k d) m' label n d plan)
    (hclean : StaleFree (emptyTable s.mem k d) plan) : Faithful s s' (framePtr n) (framePtr d) := by
  have hnb := h.forest.bound n _ hn
  refine ⟨fun v => ?_, fun v => ?_, fun level level' table ht ht' => ?_⟩
  · rw [pagingGet_lookup hnb, pagingGet_lookup hd.2, hs']
    by_cases hv : 256 ≤ (tableIndex v 3).val
    · exact hdone.lookup_kernel hv
    · rw [hdone.lookup_user (hdone.nothingStale hclean) (by omega), hdone.lookup_old hn]
  · rw [pagingGet_lookup hnb, pagingGet_lookup hnb, hs', hdone.lookup_old hn, lookup, lookup,
      emptyTable_walk h.forest hd.1 hn (by simp [Label.depth])]
  · -- tables of the copy were free, those of the source in use
    obtain ⟨path, b, ⟨hpath, -⟩, hlen, hb, rfl, hdesc⟩ := userTable_descend hd.2 ht
    obtain ⟨path', a, -, hlen', ha, he, hdesc'⟩ := userTable_descend hnb ht'
    rw [hs'] at hdesc hdesc'
    have hlevel : ∀ {t : U64} {s : Machine σ} {table : U64} {level}, UserTable s table level t →
        1 ≤ level := fun h => by cases h <;> omega
    have h1 := hlevel ht
    have h1' := hlevel ht'
    obtain ⟨c, hc, -⟩ := hdone.descend_back (hdone.nothingStale hclean) hpath (by omega) hdesc
    have hlabelled : Radix.Labelled nextTable (Label.step k) Label.depth 3 (tableRead m') label :=
      fun n l i c hl hd hnext => hdone.tables.labelled n l i c hl hd (by rwa [hdone.kept_read hl] at hnext)
    have hlabel := Radix.descend_label hlabelled (Label.depth_step k) hn
      (by simp only [Label.depth, List.length_nil]; omega) hdesc'
    have hab : b = a := by rw [← frameOf_framePtr hb, he, frameOf_framePtr ha]
    rw [← hab, (hdone.frames _ hc).1] at hlabel
    cases hlabel

theorem copyFaithful_of_staleFree (h : PagingInv k s label) (hn : label n = some ⟨n, []⟩)
    (hno : NoHugeBelow s.mem 4 n) (hfresh : FreshFrames label (copyFrames s n))
    (hclean : StaleFree s.mem (copyPlan s n)) : CopyFaithful s (framePtr n) := by
  obtain ⟨d, hptr, hdone, -, -⟩ := pagingCopy_done h hn hno hfresh
  have hd := hdone.frames _ List.mem_cons_self
  rw [CopyFaithful, hptr]
  refine hdone.faithful h hn rfl hd fun y hy hlen i hp => ?_
  obtain ⟨l, hl⟩ := copyTables_label h hn hno (List.of_mem_zip hy).1
  rw [tableRead_emptyTable_old h.forest hd.1 hl] at hp
  rw [tableRead_emptyTable (fresh_ne_kernel h.forest hd.1), if_neg (hdone.ne_dst hy)]
  exact hclean y hy hlen i hp

-- ---------------------------------------------------------------------------
-- All old contents of the frames
-- ---------------------------------------------------------------------------

/-- The free frames with other old contents. -/
def SameElsewhere (s : Machine σ) (n : Nat) (m : Mem) : Prop :=
  ∀ z, z / 0x1000 ∉ (copyFrames s n).map frameNo → m z = s.mem z

/-- The old contents with every byte `0x81`: every entry present and huge. -/
def staleMem (s : Machine σ) (n : Nat) : Mem :=
  fun z => if z / 0x1000 ∈ (copyFrames s n).map frameNo then 0x81 else s.mem z

theorem staleMem_same : SameElsewhere s n (staleMem s n) := fun _ hz => if_neg hz

theorem SameElsewhere.read (h : SameElsewhere s n m) (hfresh : FreshFrames label (copyFrames s n))
    (ha : label a = some l) : tableRead m a i = tableRead s.mem a i := by
  refine tableRead_congr fun z hz => h z fun e => ?_
  obtain ⟨q, hq, he⟩ := List.mem_map.mp e
  have := hfresh.unused q hq
  rw [he, hz, ha] at this
  cases this

theorem SameElsewhere.inv (hm : SameElsewhere s n m) (hfresh : FreshFrames label (copyFrames s n))
    (h : PagingInv k s label) : PagingInv k { s with mem := m } label :=
  ⟨h.forest.congr fun _ _ _ ha => hm.read hfresh ha, h.kernelTable, h.handed⟩

theorem SameElsewhere.tables (hm : SameElsewhere s n m) (hfresh : FreshFrames label (copyFrames s n))
    (h : PagingInv k s label) (hn : label n = some ⟨n, []⟩) (hno : NoHugeBelow s.mem 4 n) :
    copyTables { s with mem := m } n = copyTables s n ∧ NoHugeBelow m 4 n :=
  have htables : TablesOf k s.mem label := ⟨h.forest.labelled, h.forest.bound⟩
  ⟨subTables_congr htables (fun _ _ _ ha => hm.read hfresh ha) hn rfl hno,
    noHugeBelow_congr htables (fun _ _ _ ha => hm.read hfresh ha) hn rfl hno⟩

theorem exists_vaddr : ∀ full : List (Fin 512), full.length = 4 →
    ∃ v : U64, tableIndex v 3 :: indicesBelow v 3 = full
  | [i₃, i₂, i₁, i₀], _ => by
    refine ⟨vaddrOf fun level => if level = 3 then i₃ else if level = 2 then i₂
      else if level = 1 then i₁ else i₀, ?_⟩
    simp only [indicesBelow, tableIndex_vaddrOf 3 (by decide), tableIndex_vaddrOf 2 (by decide),
      tableIndex_vaddrOf 1 (by decide), tableIndex_vaddrOf 0 (by decide)]
    rfl

theorem read64_stale {z : Nat} (h : ∀ y, z ≤ y → y < z + 8 → m y = 0x81) :
    present (m.read64 z) = true ∧ huge (m.read64 z) = true := by
  have hbit : ∀ i, i < 8 → (m.read64 z).getLsbD i = (0x81#8).getLsbD i := fun i hi => by
    rw [Mem.read64, Mem.getLsbD_readBytes (by omega), h _ (by omega) (by omega), Nat.mod_eq_of_lt hi]
    rfl
  rw [present_eq, huge_eq, hbit 0 (by decide), hbit 7 (by decide)]
  decide

theorem not_faithful_stale (h : PagingInv k s label) (hn : label n = some ⟨n, []⟩)
    (hno : NoHugeBelow s.mem 4 n) (hfresh : FreshFrames label (copyFrames s n))
    (hx : x ∈ copyTables s n) (hlen : x.path.length < 3)
    (hp : present (tableRead s.mem x.frame i) = false) :
    ¬ CopyFaithful { s with mem := staleMem s n } (framePtr n) := by
  intro hfaithful
  have hm : SameElsewhere s n (staleMem s n) := staleMem_same
  have h' := hm.inv hfresh h
  obtain ⟨hts, hno'⟩ := hm.tables hfresh h hn hno
  obtain ⟨l, hl⟩ := copyTables_label h hn hno hx
  have hcount : copyFrames { s with mem := staleMem s n } n = copyFrames s n := by
    rw [copyFrames, copyCount, hts]
    rfl
  obtain ⟨d, hptr, hdone, -, -⟩ := pagingCopy_done h' hn hno' (hcount ▸ hfresh)
  have hd := hdone.frames _ List.mem_cons_self
  have hnb := h.forest.bound n _ hn
  rw [CopyFaithful, hptr] at hfaithful
  -- the slot in the memory from which the copy starts
  obtain ⟨rest, hpath, hne, -, huser, hdesc⟩ := mem_subTables hdone.noHuge x
    (by
      rw [subTables_congr ⟨h'.forest.labelled, h'.forest.bound⟩ (fun _ _ _ ha =>
        tableRead_emptyTable_old h'.forest hd.1 ha) hn rfl hno']
      exact hts ▸ hx)
  rw [List.nil_append] at hpath
  rw [← hpath] at hdesc hne
  have huser : UserPath x.path := hpath ▸ huser rfl
  have habsent : present (tableRead (emptyTable (staleMem s n) k d) x.frame i) = false := by
    rw [tableRead_emptyTable_old h'.forest hd.1 hl, hm.read hfresh hl, hp]
  have hstale : ∀ b, (x, b) ∈ (⟨[], n⟩, d) :: copyPlan { s with mem := staleMem s n } n →
      present (tableRead (emptyTable (staleMem s n) k d) b i) = true ∧
        huge (tableRead (emptyTable (staleMem s n) k d) b i) = true := by
    intro b hb
    rcases List.mem_cons.mp hb with he | hb
    · obtain ⟨rfl, -⟩ := Prod.mk.inj he
      exact absurd rfl hne
    · have hbd : b ≠ d := hdone.ne_dst hb
      have hbmem : b ∈ (copyFrames s n).map frameNo := by
        have := planOf_frame hb
        rw [← hcount, copyFrames_eq, List.map_cons]
        exact List.mem_cons_of_mem _ this
      rw [tableRead_emptyTable (fresh_ne_kernel h'.forest hd.1), if_neg hbd]
      refine read64_stale fun y hy hy' => if_pos ?_
      rwa [show y / 0x1000 = b by omega]
  obtain ⟨v, hv⟩ := exists_vaddr (x.path ++ i :: List.replicate (3 - x.path.length) 0) (by simp; omega)
  obtain ⟨hzero, hbad⟩ := hdone.lookup_stale huser hlen hdesc habsent hstale hv
    (fun e => by have := congrArg List.length e; simp at this; omega)
  have := hfaithful.lookups v
  rw [pagingGet_lookup hd.2, pagingGet_lookup hnb, hdone.lookup_old hn, hzero] at this
  exact hbad this

/-- Every slot of the PML3 and PML2 tables of the user half is taken. -/
def NoEmptySlot (s : Machine σ) (n : Nat) : Prop :=
  ∀ x ∈ copyTables s n, x.path.length < 3 → ∀ i, present (tableRead s.mem x.frame i) = true

omit [FrameSource σ] in
theorem FreshFrames.of_reverse {new : List U64} (h : FreshFrames label new.reverse) :
    FreshFrames label new where
  aligned p hp := h.aligned p (List.mem_reverse.mpr hp)
  bound p hp := h.bound p (List.mem_reverse.mpr hp)
  unused p hp := h.unused p (List.mem_reverse.mpr hp)
  nodup := by
    have := h.nodup
    rwa [List.map_reverse, List.nodup_reverse] at this

omit [FrameSource σ] in
theorem noHugeBelow_of_user (hn : n < frameLimit)
    (hh : ∀ v, kernelHalf v = false → meetsHuge s v 3 (framePtr n) = false) :
    NoHugeBelow s.mem 4 n := by
  refine noHugeBelow_of_meets (u := fun _ => 0) (Nat.le_refl 3) (fun h => absurd h (by decide))
    fun w _ hw => ?_
  have huser : kernelHalf (vaddrOf w) = false := by
    have hi : vaddrToIndex (vaddrOf w) 3 = (w 3).val := congrArg Fin.val (tableIndex_vaddrOf 3 (by decide))
    rw [kernelHalf, hi]
    exact decide_eq_false (by omega)
  have := hh _ huser
  rwa [meetsHuge_eq hn] at this

/-- For one memory: the copy is faithful if the frames held no present entry
where the source has none. For all old contents of the frames: it is faithful
exactly when the source has no such place. -/
theorem paging_copy_faithful_iff (h : PagingInv k s label) (hn : label n = some ⟨n, []⟩)
    (hh : ∀ v, kernelHalf v = false → meetsHuge s v 3 (framePtr n) = false)
    (hd : DistinctFrames ((copyFrames s n).reverse ++ s.handed)) :
    (StaleFree s.mem (copyPlan s n) → CopyFaithful s (framePtr n)) ∧
      ((∀ m, SameElsewhere s n m → CopyFaithful { s with mem := m } (framePtr n)) ↔
        NoEmptySlot s n) := by
  have hno := noHugeBelow_of_user (h.forest.bound n _ hn) hh
  have hfresh := (h.fresh hd).of_reverse
  refine ⟨copyFaithful_of_staleFree h hn hno hfresh, fun hall x hx hlen i => ?_, fun hfull m hm => ?_⟩
  · cases hp : present (tableRead s.mem x.frame i) with
    | true => rfl
    | false => exact absurd (hall _ staleMem_same) (not_faithful_stale h hn hno hfresh hx hlen hp)
  · obtain ⟨hts, hno'⟩ := hm.tables hfresh h hn hno
    have hcount : copyFrames { s with mem := m } n = copyFrames s n := by
      rw [copyFrames, copyCount, hts]
      rfl
    refine copyFaithful_of_staleFree (hm.inv hfresh h) hn hno' (hcount ▸ hfresh) fun y hy hlen i hp => ?_
    have hy : y.1 ∈ copyTables s n := hts ▸ (List.of_mem_zip hy).1
    obtain ⟨l, hl⟩ := copyTables_label h hn hno hy
    have := hm.read hfresh hl (i := i)
    rw [show ({ s with mem := m } : Machine σ).mem = m from rfl] at hp
    rw [this, hfull y.1 hy hlen i] at hp
    cases hp

-- ---------------------------------------------------------------------------
-- A table with one page
-- ---------------------------------------------------------------------------

theorem requests_nextFrames : ∀ {n : Nat} {f : σ} {handed : List U64},
    ReflTransGen RequestStep (f, handed) (afterFrames f n, (nextFrames f n).reverse ++ handed)
  | 0, _, _ => .refl
  | n + 1, f, handed => by
    rw [afterFrames, nextFrames, List.reverse_cons, List.append_assoc]
    exact .head (.request f handed 1) requests_nextFrames

theorem afterFrames_bump : ∀ {n : Nat} {f : Bump}, (afterFrames f n).next = f.next + n
  | 0, _ => rfl
  | n + 1, f => by
    rw [afterFrames, afterFrames_bump]
    show f.next + 1 + n = _
    omega

def maxTables : (level : Nat) → Nat
  | 0 => 0
  | 1 => 0
  | level + 2 => 512 * (1 + maxTables (level + 1))

omit [FrameSource σ] in
theorem length_subTables : ∀ {level : Nat} {path : List (Fin 512)} {a : Nat},
    (subTables m level path a).length ≤ maxTables level
  | 0, _, _ => Nat.le_refl _
  | 1, _, _ => Nat.le_refl _
  | level + 2, path, a => by
    have hslots : (slotTables m level path a (userSlots (level + 2))).length ≤
        userSlots (level + 2) * (1 + maxTables (level + 1)) := by
      refine upto_rule (fun i (ts : List SubTable) => ts.length ≤ i * (1 + maxTables (level + 1)))
        (Nat.zero_le _) fun i ts hi h => ?_
      have hsub : (subTables m (level + 1) (path ++ [slot i])
          (frameOf (tableRead m a (slot i)))).length ≤ maxTables (level + 1) := length_subTables
      simp only
      rw [Nat.succ_mul]
      split
      · rw [List.length_append, List.length_cons]
        omega
      · omega
    exact Nat.le_trans hslots (Nat.mul_le_mul_right _ (userSlots_le _))

omit [FrameSource σ] in
theorem mem_slotTables {i N : Nat} (hi : i < N) (hp : present (tableRead m a (slot i)) = true) :
    ⟨path ++ [slot i], frameOf (tableRead m a (slot i))⟩ ∈ slotTables m level path a N := by
  obtain ⟨rest, hrest⟩ : ∃ rest, slotTables m level path a N = slotTables m level path a (i + 1) ++ rest :=
    slotTables_prefix (Nat.succ_le_of_lt hi)
  rw [hrest, slotTables_present hp]
  simp

theorem pagingMap_new_tables {paddr : U64} {flags : BitVec 8} {c₁ c₂ c₃ : Nat} (hn : n < frameLimit)
    (hframes : nextFrames s.frames 3 = [BitVec.ofNat 64 (0x1000 * c₁), BitVec.ofNat 64 (0x1000 * c₂),
      BitVec.ofNat 64 (0x1000 * c₃)])
    (hb : c₁ < frameLimit ∧ c₂ < frameLimit ∧ c₃ < frameLimit) (hnd : [n, c₁, c₂, c₃].Nodup)
    (hp : present (tableRead s.mem n (tableIndex v 3)) = false) :
    (pagingMap s (framePtr n) v paddr flags).mem =
      writeEntry (attach (attach (attach s.mem n (tableIndex v 3) c₁ (newTableFlags v))
        c₁ (tableIndex v 2) c₂ (newTableFlags v)) c₂ (tableIndex v 1) c₃ (newTableFlags v))
        c₃ (tableIndex v 0) (paddr ||| flags.setWidth 64 ||| PAGING_PRESENT) := by
  obtain ⟨hb₁, hb₂, hb₃⟩ := hb
  simp only [List.nodup_cons, List.mem_cons, List.not_mem_nil, or_false, not_or] at hnd
  obtain ⟨⟨hn₁, hn₂, hn₃⟩, ⟨h₁₂, h₁₃⟩, h₂₃, -⟩ := hnd
  simp only [nextFrames, List.cons.injEq, and_true] at hframes
  obtain ⟨hf₁, hf₂, hf₃⟩ := hframes
  obtain ⟨t₁, hw₁, hm₁, hr₁, -⟩ := pagingMapWalk_new hn hb₁ hf₁ hp
  have hf₂' : (t₁.requestPages 1).1 = BitVec.ofNat 64 (0x1000 * c₂) := by
    rw [← hf₂]
    show (FrameSource.pmmRequestPages t₁.frames 1).1 = _
    rw [hr₁]
    rfl
  have hp₁ : present (tableRead t₁.mem c₁ (tableIndex v (1 + 1))) = false := by
    rw [hm₁, tableRead_attach, if_neg (fun e => hn₁ e.1.symm), if_pos rfl]
    rfl
  obtain ⟨t₂, hw₂, hm₂, hr₂, -⟩ := pagingMapWalk_new hb₁ hb₂ hf₂' hp₁
  have hf₃' : (t₂.requestPages 1).1 = BitVec.ofNat 64 (0x1000 * c₃) := by
    rw [← hf₃]
    show (FrameSource.pmmRequestPages t₂.frames 1).1 = _
    rw [hr₂]
    show (FrameSource.pmmRequestPages (FrameSource.pmmRequestPages t₁.frames 1).2 1).1 = _
    rw [hr₁]
    rfl
  have hp₂ : present (tableRead t₂.mem c₂ (tableIndex v (0 + 1))) = false := by
    rw [hm₂, tableRead_attach, if_neg (fun e => h₁₂ e.1.symm), if_pos rfl]
    rfl
  obtain ⟨t₃, hw₃, hm₃, -, -⟩ := pagingMapWalk_new hb₂ hb₃ hf₃' hp₂
  rw [pagingMap, hw₁, hw₂, hw₃]
  simp only [pagingMapWalk]
  rw [Machine.setEntry_framePtr hb₃ (vaddrToIndex_lt v 0), hm₃, hm₂, hm₁]
  rfl

theorem pagingCreateEmpty_bump {s : Machine Bump} :
    (pagingCreateEmpty s).1 = framePtr s.frames.next ∧
      (pagingCreateEmpty s).2.frames.next = s.frames.next + 1 :=
  ⟨rfl, rfl⟩

/-- A table with one page mapped at 4 MiB: its PML3 table, in frame 258, uses
slot 0 and no other. -/
theorem onePage_machine : ∃ (s : Machine Bump) (k : Nat) (label : Labels), PagingInv k s label ∧
    label 257 = some ⟨257, []⟩ ∧ (∀ v, kernelHalf v = false → meetsHuge s v 3 (framePtr 257) = false) ∧
    DistinctFrames ((copyFrames s 257).reverse ++ s.handed) ∧ ⟨[0], 258⟩ ∈ copyTables s 257 ∧
    present (tableRead s.mem 258 1) = false := by
  obtain ⟨s₁, hinit⟩ := pagingInitialize_returns (s := freshMachine) directMapped_nil
  have hnext : s₁.frames.next = 257 := pagingInitialize_bump hinit
  obtain ⟨s₂, hs₂⟩ : ∃ s, s = (pagingCreateEmpty s₁).2 := ⟨_, rfl⟩
  have htable : (pagingCreateEmpty s₁).1 = framePtr 257 := by rw [pagingCreateEmpty_bump.1, hnext]
  have hnext₂ : s₂.frames.next = 258 := by rw [hs₂, pagingCreateEmpty_bump.2, hnext]
  obtain ⟨o, ho⟩ : ∃ o, o = TableOp.map 0x400000 0x5000 7 := ⟨_, rfl⟩
  obtain ⟨s, hs⟩ : ∃ s, s = o.run s₂ (framePtr 257) := ⟨_, rfl⟩
  have hle : s.frames.next ≤ 261 := by
    have := o.run_bump s₂ (framePtr 257)
    rwa [hnext₂, ← hs] at this
  have hstep := PagingStep.create s₁ []
  rw [← hs₂, htable] at hstep
  have hkeeps : s₂.Keeps s := hs ▸ o.keeps s₂ (framePtr 257)
  have hrequests : ReflTransGen RequestStep (freshMachine.frames, freshMachine.handed)
      (s.frames, s.handed) :=
    (pagingInitialize_requests hinit).trans (hstep.keeps.trans hkeeps).requests
  have hd : DistinctFrames s.handed :=
    distinct_bump hrequests (Nat.le_trans hle (by decide))
  have hds₂ : DistinctFrames (pagingCreateEmpty s₁).2.handed := hs₂ ▸ hkeeps.distinct hd
  -- the invariant, and no huge entry in the user half
  obtain ⟨k, label₁, h₁⟩ := pagingInitialize_spec directMapped_nil hinit (hstep.keeps.distinct (hkeeps.distinct hd))
  have h₁ : TablesInv k s₁ [] label₁ := ⟨h₁, by simp⟩
  obtain ⟨⟨label₂, h₂⟩, -, -, -, hhuge₂⟩ := h₁.create hds₂
  rw [← hs₂, htable] at h₂ hhuge₂
  have hmem : framePtr 257 ∈ s₂.kernelTable :: [framePtr 257] := by simp
  obtain ⟨⟨label, h⟩, hget⟩ := h₂.op hmem (hhuge₂ o.vaddr (by rw [ho]; decide)) (hs ▸ hd)
  rw [← hs] at h hget
  obtain ⟨r, hr, hlabel⟩ := h.roots _ List.mem_cons_self
  obtain rfl : 257 = r := by
    rw [← frameOf_framePtr (show 257 < frameLimit by decide), hr, frameOf_framePtr (h.forest.bound r _ hlabel)]
  have hhuge : ∀ v, kernelHalf v = false → meetsHuge s v 3 (framePtr 257) = false :=
    fun v hv => (hget _ hmem v).2 (hhuge₂ v hv)
  -- the tables that the mapping made
  have hframe : (s₁.requestPages 1).1 = BitVec.ofNat 64 (0x1000 * 257) := by
    rw [← hnext]
    rfl
  obtain ⟨c, hp, hc, hcb⟩ := (h₁.toPagingInv.fresh
    (show DistinctFrames ([(s₁.requestPages 1).1] ++ s₁.handed) from hds₂)).single
  obtain rfl : c = 257 := by
    have := congrArg BitVec.toNat (hp.symm.trans hframe)
    rw [toNat_frame hcb, toNat_frame (by decide)] at this
    omega
  have hempty : tableRead s₂.mem 257 (tableIndex (0x400000 : U64) 3) = 0 := by
    rw [hs₂, pagingCreateEmpty_eq h₁.kernelTable (h₁.forest.bound k _ h₁.forest.kernel) hcb hframe,
      tableRead_emptyTable (fresh_ne_kernel h₁.forest hc), if_pos rfl, if_neg (by decide)]
  have hframes : s₂.frames = ⟨258⟩ := congrArg Bump.mk hnext₂
  have hnew : nextFrames s₂.frames 3 = [BitVec.ofNat 64 (0x1000 * 258), BitVec.ofNat 64 (0x1000 * 259),
      BitVec.ofNat 64 (0x1000 * 260)] := by
    rw [hframes]
    rfl
  have hmap : (pagingMap s₂ (framePtr 257) 0x400000 0x5000 7).mem = _ :=
    pagingMap_new_tables hcb hnew (by decide) (by decide) (by rw [hempty]; rfl)
  have hmem : s.mem = (pagingMap s₂ (framePtr 257) 0x400000 0x5000 7).mem := by rw [hs, ho]; rfl
  rw [← hmem] at hmap
  have hlink : tableRead s.mem 257 (slot 0) = linkEntry 258 (newTableFlags 0x400000) := by
    rw [hmap, tableRead_writeEntry, if_neg (by decide), tableRead_attach, if_neg (by decide),
      if_neg (by decide), tableRead_attach, if_neg (by decide), if_neg (by decide), tableRead_attach,
      if_pos (by decide)]
  refine ⟨s, k, label, h.toPagingInv, hlabel, hhuge, ?_, ?_, ?_⟩
  · have hcount : copyCount s 257 ≤ 1 + maxTables 4 := Nat.add_le_add_left length_subTables 1
    refine distinct_bump (s := ⟨s.mem, afterFrames s.frames (copyCount s 257), s.kernelTable, s.cr3, _⟩)
      (hrequests.trans requests_nextFrames) ?_
    rw [afterFrames_bump]
    have : 261 + (1 + maxTables 4) ≤ frameLimit := by decide
    omega
  · have hin : _ ∈ copyTables s 257 := mem_slotTables (show 0 < userSlots 4 by decide)
      (show present (tableRead s.mem 257 (slot 0)) = true by rw [hlink]; decide)
    rw [hlink] at hin
    exact hin
  · rw [hmap, tableRead_writeEntry, if_neg (by decide), tableRead_attach, if_neg (by decide),
      if_neg (by decide), tableRead_attach, if_neg (by decide), if_neg (by decide), tableRead_attach,
      if_neg (by decide), if_pos rfl]
    rfl

/-- Old contents show through an empty slot of the copy. -/
theorem paging_copy_keeps_stale_entries : ∃ (s : Machine Bump) (n k : Nat) (label : Labels),
    (PagingInv k s label ∧ label n = some ⟨n, []⟩) ∧
    (∀ v, kernelHalf v = false → meetsHuge s v 3 (framePtr n) = false) ∧
    DistinctFrames ((copyFrames s n).reverse ++ s.handed) ∧ ¬ CopyFaithful s (framePtr n) := by
  obtain ⟨s, k, label, h, hn, hh, hd, hx, hp⟩ := onePage_machine
  have hnb := h.forest.bound _ _ hn
  have hno := noHugeBelow_of_user hnb hh
  have hfresh := (h.fresh hd).of_reverse
  obtain ⟨hts, hno'⟩ := staleMem_same.tables hfresh h hn hno
  refine ⟨{ s with mem := staleMem s 257 }, 257, k, label, ⟨staleMem_same.inv hfresh h, hn⟩,
    fun v hv => ?_, ?_, not_faithful_stale h hn hno hfresh hx (by decide) hp⟩
  · rw [meetsHuge_eq hnb]
    have hi : (tableIndex v 3).val < 256 := Nat.lt_of_not_le (of_decide_eq_false hv)
    exact noHugeBelow_meets (Nat.le_refl 3) hno' fun _ => hi
  · rw [copyFrames, copyCount, hts]
    exact hd

theorem paging_copy_faithful_iff_onePage : ∃ (s : Machine Bump) (n : Nat),
    (StaleFree s.mem (copyPlan s n) → CopyFaithful s (framePtr n)) ∧
      ¬ ∀ m, SameElsewhere s n m → CopyFaithful { s with mem := m } (framePtr n) := by
  obtain ⟨s, k, label, h, hn, hh, hd, hx, hp⟩ := onePage_machine
  obtain ⟨hclean, hall⟩ := paging_copy_faithful_iff h hn hh hd
  refine ⟨s, 257, hclean, fun hm => ?_⟩
  have := hall.mp hm _ hx (by decide) 1
  rw [hp] at this
  cases this

end ShedOS.Memory
