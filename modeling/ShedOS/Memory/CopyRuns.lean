import ShedOS.Memory.Backing

/-!
# paging_copy over the frame allocator

The tables of a copy lie in frames that were free. Where a walk through the
copy finds no entry that its argument lacks, they are one more tree of the
forest.
-/

namespace ShedOS.Memory

open Bytes

variable {s s' : Machine Pmm} {m m' : Mem} {label label' : Labels} {l : Label} {k n d g : Nat}
  {path path' : List (Fin 512)} {i : Fin 512} {v : U64} {plan : CopyPlan} {new : List U64}

/-- The table in frame `d` reproduces the user half of the one in frame `n`:
every address has its translation, and no walk finds an entry in a table of the
copy that the table it was copied from lacks. -/
structure Reproduces (m m' : Mem) (n d : Nat) : Prop where
  lookups : ∀ v, kernelHalf v = false → lookup m' d v = lookup m n v
  walks : ∀ path a b i, UserPath (path ++ [i]) → path.length < 3 → tableDescend m n path = some a →
    tableDescend m' d path = some b → present (tableRead m a i) = false → present (tableRead m' b i) = false

-- ---------------------------------------------------------------------------
-- The labels of the copy
-- ---------------------------------------------------------------------------

def Below (m' : Mem) (d : Nat) (path : List (Fin 512)) (g : Nat) : Prop :=
  UserPath path ∧ path.length ≤ 3 ∧ tableDescend m' d path = some g

open Classical in
noncomputable def copyLabel (m' : Mem) (label : Labels) (d : Nat) : Labels := fun g =>
  if h : ∃ path, Below m' d path g then some ⟨d, h.choose⟩ else label g

theorem Below.snoc (h : Below m' d path g) (hi : UserPath (path ++ [i])) (hlen : path.length < 3) {c : Nat}
    (hc : nextTable (tableRead m' g i) = some c) : Below m' d (path ++ [i]) c := by
  refine ⟨hi, ?_, ?_⟩
  · rw [List.length_append, List.length_singleton]
    omega
  · rw [tableDescend, Radix.descend_snoc]
    exact Option.bind_eq_some_iff.mpr ⟨g, h.2.2, hc⟩

namespace CopyDone

variable (h : CopyDone k m m' label n d plan) (hclean : NothingStale m m' n d plan)

include h hclean

theorem below_mem (hb : Below m' d path g) : ∃ a, (⟨path, a⟩, g) ∈ (⟨[], n⟩, d) :: plan := by
  obtain ⟨a, ha, -⟩ := h.descend_back hclean hb.1 hb.2.1 hb.2.2
  exact ⟨a, ha⟩

theorem below_unused (hb : Below m' d path g) : label g = none ∧ g < frameLimit := by
  obtain ⟨a, ha⟩ := h.below_mem hclean hb
  exact h.frames _ ha

theorem below_unique (hb : Below m' d path g) (hb' : Below m' d path' g) : path = path' := by
  obtain ⟨a, ha⟩ := h.below_mem hclean hb
  obtain ⟨a', ha'⟩ := h.below_mem hclean hb'
  have he := List.inj_on_of_nodup_map h.nodup ha ha' rfl
  exact congrArg (fun y => y.1.path) he

theorem copyLabel_below (hb : Below m' d path g) : copyLabel m' label d g = some ⟨d, path⟩ := by
  have hex : ∃ path, Below m' d path g := ⟨path, hb⟩
  rw [copyLabel, dif_pos hex, h.below_unique hclean hb hex.choose_spec]

theorem copyLabel_old (hg : label g = some l) : copyLabel m' label d g = some l := by
  rw [copyLabel, dif_neg, hg]
  rintro ⟨path, hb⟩
  rw [(h.below_unused hclean hb).1] at hg
  cases hg

omit h hclean in
theorem copyLabel_cases (hg : copyLabel m' label d g = some l) :
    (∃ path, Below m' d path g ∧ l = ⟨d, path⟩) ∨ label g = some l := by
  rw [copyLabel] at hg
  split at hg
  next hex => exact .inl ⟨_, hex.choose_spec, (Option.some.inj hg).symm⟩
  next => exact .inr hg

omit h hclean in
theorem below_top : Below m' d [] d := ⟨trivial, Nat.zero_le _, rfl⟩

omit hclean in
theorem shared_top (hf : Forest k m label) (hi : 256 ≤ i.val) : tableRead m' d i = tableRead m k i := by
  rw [(h.copies _ List.mem_cons_self).stale (Nat.zero_lt_succ 2) _ (.inl hi), h.upper i hi]
  exact hf.shared n h.source i hi

theorem forest (hf : Forest k m label) : Forest k m' (copyLabel m' label d) := by
  have hroot : ∀ r, copyLabel m' label d r = some ⟨r, []⟩ → r = d ∨ label r = some ⟨r, []⟩ := fun r hr => by
    rcases copyLabel_cases hr with ⟨path, -, he⟩ | hr
    · exact .inl (congrArg Label.root he)
    · exact .inr hr
  refine ⟨?_, fun g l hg => ?_, fun g r hg => ?_, h.copyLabel_old hclean hf.kernel, fun i hi => ?_, fun r hr i hi => ?_⟩
  · intro b l i c hb hd hc
    rcases copyLabel_cases hb with ⟨path, hbelow, rfl⟩ | hb
    · have hlen : path.length < 3 := hd
      cases path with
      | nil =>
        obtain rfl : d = b := Option.some.inj hbelow.2.2
        by_cases hi : 256 ≤ i.val
        · rw [h.shared_top hf hi] at hc
          have hlabel := hf.labelled k _ i c hf.kernel (Nat.zero_lt_succ 2) hc
          rw [h.copyLabel_old hclean hlabel]
          exact congrArg some (congrArg (Label.mk · [i]) ((if_pos hi).trans (if_pos hi).symm))
        · have hnext := hbelow.snoc (i := i) (Nat.lt_of_not_le hi) hlen hc
          rw [h.copyLabel_below hclean hnext]
          exact congrArg some (congrArg (Label.mk · [i]) (if_neg hi).symm)
      | cons j path => exact h.copyLabel_below hclean (hbelow.snoc (i := i) hbelow.1 hlen hc)
    · rw [h.kept_read hb] at hc
      exact h.copyLabel_old hclean (hf.labelled b l i c hb hd hc)
  · rcases copyLabel_cases hg with ⟨path, hb, -⟩ | hg
    · exact (h.below_unused hclean hb).2
    · exact hf.bound g l hg
  · rcases copyLabel_cases hg with ⟨path, hb, he⟩ | hg
    · obtain ⟨rfl, rfl⟩ := Label.mk.inj he
      exact (Option.some.inj hb.2.2).symm
    · exact hf.root g r hg
  · rw [h.kept_read hf.kernel]
    exact hf.upper i hi
  · rw [h.kept_read hf.kernel]
    rcases hroot r hr with rfl | hr
    · exact h.shared_top hf hi
    · rw [h.kept_read hr]
      exact hf.shared r hr i hi

end CopyDone

-- ---------------------------------------------------------------------------
-- The call
-- ---------------------------------------------------------------------------

structure Copied (k n d : Nat) (new : List U64) (s : Machine Pmm) (label : Labels) (s' : Machine Pmm) (label' : Labels) :
    Prop where
  backed : Backed k s' label'
  table : label' d = some ⟨d, []⟩
  unused : label d = none
  answers : Answers s.frames s'.frames new
  frames : s'.frames = afterFrames s.frames (copyCount s n)
  cr3 : s'.cr3 = s.cr3
  keeps : ∀ g l, label g = some l → label' g = some l
  fresh : ∀ g l, label' g = some l → label g = some l ∨ g ∈ new.map frameNo
  own : ∀ v, kernelHalf v = false → lookup s'.mem d v = lookup s.mem n v
  lookup : ∀ r v, label r = some ⟨r, []⟩ → lookup s'.mem r v = lookup s.mem r v
  bytes : ∀ a, a / 0x1000 ∉ new.map frameNo → s'.mem a = s.mem a

theorem emptyTable_descend (hf : Forest k m label) (hn : label n = some ⟨n, []⟩) (hd : label d = none)
    (hlen : path.length ≤ 3) : tableDescend (emptyTable m k d) n path = tableDescend m n path := by
  have hread : ∀ c l j, label c = some l → l.depth < 3 → tableRead (emptyTable m k d) c j = tableRead m c j :=
    fun c l j hc _ => tableRead_emptyTable_old hf hd hc
  refine Radix.descend_congr hf.labelled (Label.depth_step k) hread hn ?_
  rw [Label.depth, List.length_nil]
  omega

theorem Reproduces.nothingStale (hf : Forest k m label) (hn : label n = some ⟨n, []⟩) (hd : label d = none)
    (h : CopyDone k (emptyTable m k d) m' label n d plan) (hr : Reproduces m m' n d) :
    CopyDone.NothingStale (emptyTable m k d) m' n d plan := by
  intro path a b i hy hb hlen hi hp
  have ha := (h.reached hy).2.2
  rw [emptyTable_descend hf hn hd (Nat.le_of_lt hlen)] at ha
  have hlabel := Radix.descend_label hf.labelled (Label.depth_step k) hn
    (by simp only [Label.depth, List.length_nil]; omega) ha
  rw [tableRead_emptyTable_old hf hd hlabel] at hp
  exact hr.walks path a b i hi hlen ha hb hp

theorem reproduces_of_nothingStale (hf : Forest k m label) (hn : label n = some ⟨n, []⟩) (hd : label d = none)
    (h : CopyDone k (emptyTable m k d) m' label n d plan) (hclean : CopyDone.NothingStale (emptyTable m k d) m' n d plan) :
    Reproduces m m' n d where
  lookups v hv := by
    have hread : ∀ c l j, label c = some l → tableRead (emptyTable m k d) c j = tableRead m c j := fun c l j =>
      tableRead_emptyTable_old hf hd
    rw [h.lookup_user hclean (Nat.lt_of_not_le (of_decide_eq_false hv)), hf.lookup_congr hn hread]
  walks path a b i hi hlen ha hb hp := by
    obtain ⟨a', hy, ha'⟩ := h.descend_back hclean hi.of_append (Nat.le_of_lt hlen) hb
    rw [emptyTable_descend hf hn hd (Nat.le_of_lt hlen)] at ha'
    obtain rfl := Option.some.inj (ha.symm.trans ha')
    have hlabel := Radix.descend_label hf.labelled (Label.depth_step k) hn
      (by simp only [Label.depth, List.length_nil]; omega) ha
    exact hclean hy hb hlen hi (by rwa [tableRead_emptyTable_old hf hd hlabel])

theorem Backed.copyDone (h : Backed k s label) (hn : label n = some ⟨n, []⟩) (henough : Enough s (copyCount s n)) :
    ∃ d, (pagingCopy s (framePtr n)).1 = framePtr d ∧
      CopyDone k (emptyTable s.mem k d) (pagingCopy s (framePtr n)).2.mem label n d (copyPlan s n) ∧
      Allocates (copyCount s n) s (pagingCopy s (framePtr n)).2 ∧
      Answers s.frames (pagingCopy s (framePtr n)).2.frames (copyFrames s n).reverse ∧
      (∀ a, a / 0x1000 ∉ (copyFrames s n).map frameNo → (pagingCopy s (framePtr n)).2.mem a = s.mem a) ∧
      ∀ y ∈ (⟨[], n⟩, d) :: copyPlan s n, y.2 ∈ (copyFrames s n).map frameNo := by
  have ha := nextFrames_pmm h.walled henough
  have ha' : Answers s.frames ({ s with frames := afterFrames s.frames (copyCount s n) } : Machine Pmm).frames
      (copyFrames s n).reverse := ha
  have hfresh := (h.fresh ha').of_reverse
  obtain ⟨d, hptr, hdone, halloc, hout, htaken⟩ := pagingCopy_done h.toPagingInv hn (noHugeBelow_backed h hn) hfresh
  exact ⟨d, hptr, hdone, halloc, halloc.frames ▸ ha, hout, htaken⟩

theorem Backed.copied (h : Backed k s label) (hn : label n = some ⟨n, []⟩) (henough : Enough s (copyCount s n))
    (hr : ∀ d < frameLimit, (pagingCopy s (framePtr n)).1 = framePtr d →
      Reproduces s.mem (pagingCopy s (framePtr n)).2.mem n d) :
    ∃ d new label', (pagingCopy s (framePtr n)).1 = framePtr d ∧
      Copied k n d new s label (pagingCopy s (framePtr n)).2 label' := by
  have hf := h.forest
  obtain ⟨d, hptr, hdone, halloc, ha, hout, htaken⟩ := h.copyDone hn henough
  obtain ⟨hd, hdb⟩ := hdone.frames _ List.mem_cons_self
  have hreproduces := hr d hdb hptr
  have hclean := hreproduces.nothingStale hf hn hd hdone
  obtain ⟨s', hs'⟩ : ∃ s', s' = (pagingCopy s (framePtr n)).2 := ⟨_, rfl⟩
  rw [← hs'] at hdone halloc ha hout hreproduces hclean ⊢
  have hread : ∀ b l i, label b = some l → tableRead s'.mem b i = tableRead s.mem b i := fun b l i hb => by
    rw [hdone.kept_read hb, tableRead_emptyTable_old hf hd hb]
  have hforest := hdone.forest hclean (hf.congr fun b l i hb => tableRead_emptyTable_old hf hd hb)
  have htop : copyLabel s'.mem label d d = some ⟨d, []⟩ := hdone.copyLabel_below hclean CopyDone.below_top
  have hkeeps : ∀ g l, label g = some l → copyLabel s'.mem label d g = some l := fun g l => hdone.copyLabel_old hclean
  have hmem : ∀ g, g ∈ (copyFrames s n).reverse.map frameNo ↔ g ∈ (copyFrames s n).map frameNo := fun g => by
    rw [List.map_reverse, List.mem_reverse]
  have hfresh : ∀ g l, copyLabel s'.mem label d g = some l →
      label g = some l ∨ g ∈ (copyFrames s n).reverse.map frameNo := fun g l hg => by
    rcases CopyDone.copyLabel_cases hg with ⟨path, hb, -⟩ | hg
    · obtain ⟨a, hy⟩ := hdone.below_mem hclean hb
      exact .inr ((hmem g).mpr (htaken _ hy))
    · exact .inl hg
  refine ⟨d, _, _, hptr, ⟨⟨⟨hforest, halloc.kernelTable.trans h.kernelTable, fun g l hg => ?_⟩, fun r v hv hw => ?_, ha.walled,
    ha.frames ▸ h.reach, fun g l hg => ?_⟩, htop, hd, ha, halloc.frames, halloc.cr3, hkeeps, hfresh, hreproduces.lookups,
    fun r v hrt => hf.lookup_congr hrt hread, fun a ha => hout a fun h => ha ((hmem _).mpr h)⟩⟩
  · rw [halloc.handed, List.map_append, List.mem_append]
    rcases hfresh g l hg with hg | hmem
    · exact .inr (h.handed g l hg)
    · exact .inl hmem
  · rcases CopyDone.copyLabel_cases hv with ⟨path, hb, he⟩ | hv
    · obtain rfl : r = d := congrArg Label.root he
      by_cases hhalf : 256 ≤ (tableIndex v 3).val
      · have hpage : SamePage k r v k v := samePage_iff.mpr ⟨rfl, .inr (decide_eq_true hhalf)⟩
        rw [MeetsNoHuge, hforest.walk_samePage htop (hkeeps k _ hf.kernel) hpage]
        exact (hf.meetsNoHuge_congr hf.kernel hread).mpr (h.windows k v hf.kernel hw)
      · exact hdone.meetsNoHuge hclean List.mem_cons_self rfl rfl fun _ => Nat.lt_of_not_le hhalf
    · exact (hf.meetsNoHuge_congr hv hread).mpr (h.windows r v hv hw)
  · rw [ha.bits]
    rcases hfresh g l hg with hg | hmem
    · rw [h.locked g l hg, Bool.or_true]
    · rw [decide_eq_true hmem, Bool.true_or]

/-- Frames without old entries are enough for `Reproduces`. -/
theorem reproduces_of_staleFree (h : Backed k s label) (hn : label n = some ⟨n, []⟩) (henough : Enough s (copyCount s n))
    (hclean : StaleFree s.mem (copyPlan s n)) (hd : d < frameLimit) (hptr : (pagingCopy s (framePtr n)).1 = framePtr d) :
    Reproduces s.mem (pagingCopy s (framePtr n)).2.mem n d := by
  have hf := h.forest
  have hno := noHugeBelow_backed h hn
  obtain ⟨d', hptr', hdone, -⟩ := h.copyDone hn henough
  obtain ⟨hd', hdb'⟩ := hdone.frames _ List.mem_cons_self
  obtain rfl : d = d' := framePtr_inj hd hdb' (hptr.symm.trans hptr')
  refine reproduces_of_nothingStale hf hn hd' hdone (hdone.nothingStale fun y hy hlen i hp => ?_)
  obtain ⟨l, hl⟩ := copyTables_label h.toPagingInv hn hno (List.of_mem_zip hy).1
  rw [tableRead_emptyTable_old hf hd' hl] at hp
  rw [tableRead_emptyTable (fresh_ne_kernel hf hd'), if_neg (hdone.ne_dst hy)]
  exact hclean y hy hlen i hp

end ShedOS.Memory
