import ShedOS.Memory.PageForest

/-!
# What mapping and unmapping do to the forest

`pagingMap` lets the forest grow down to the leaf table of its address and
writes the leaf entry; `pagingUnmap` writes a zero there if the table exists.
A lookup afterwards gives the new value on the page and the old one elsewhere.
-/

namespace ShedOS.Memory

open Bytes
open Relation (ReflTransGen)

variable {σ : Type} {s s' : Machine σ} {m : Mem} {k n r r' g level : Nat}
  {label label' : Labels} {l : Label} {v v' p table : U64} {new : List U64}

inductive RequestStep [FrameSource σ] : σ × List U64 → σ × List U64 → Prop
  | request (f : σ) (handed : List U64) (n : Nat) :
    RequestStep (f, handed)
      ((FrameSource.pmmRequestPages f n).2, (FrameSource.pmmRequestPages f n).1 :: handed)

/-- Registers and globals stay, and the allocator moves only by requests. -/
structure Machine.Keeps [FrameSource σ] (s s' : Machine σ) : Prop where
  kernelTable : s'.kernelTable = s.kernelTable
  cr3 : s'.cr3 = s.cr3
  requests : ReflTransGen RequestStep (s.frames, s.handed) (s'.frames, s'.handed)

theorem Machine.Keeps.refl [FrameSource σ] (s : Machine σ) : s.Keeps s := ⟨rfl, rfl, .refl⟩

theorem Machine.Keeps.trans [FrameSource σ] {t : Machine σ} (h : s.Keeps t) (h' : t.Keeps s') :
    s.Keeps s' :=
  ⟨h'.kernelTable.trans h.kernelTable, h'.cr3.trans h.cr3, h.requests.trans h'.requests⟩

theorem Machine.Keeps.handed [FrameSource σ] (h : s.Keeps s') : ∃ new, s'.handed = new ++ s.handed := by
  obtain ⟨-, -, hr⟩ := h
  generalize hx : (s.frames, s.handed) = x at hr
  generalize hy : (s'.frames, s'.handed) = y at hr
  rw [show s.handed = x.2 by rw [← hx], show s'.handed = y.2 by rw [← hy]]
  clear hx hy
  induction hr with
  | refl => exact ⟨[], rfl⟩
  | tail _ hstep ih =>
    obtain ⟨new, hnew⟩ := ih
    cases hstep with
    | request f handed n => exact ⟨_ :: new, congrArg _ hnew⟩

-- ---------------------------------------------------------------------------
-- The walk of paging_map
-- ---------------------------------------------------------------------------

section MapWalk

variable [FrameSource σ]

/-- The branch of `paging_map` that creates a table, for slot `i`. -/
def createTable (s : Machine σ) (table vaddr : U64) (i : Nat) : Machine σ :=
  let (child, s) := palloc s 1
  let s := s.memset child 0 0x1000
  let s := s.setEntry table i (addrOffsetLower child ||| PAGING_PRESENT)
  if vaddr < VADDR_HIGHER then
    s.setEntry table i (s.entry table i ||| (PAGING_WRITABLE ||| PAGING_USER))
  else s

theorem pagingMapWalk_present (h : present (s.entry table (vaddrToIndex v (level + 1))) = true) :
    pagingMapWalk v (level + 1) s table =
      pagingMapWalk v level s (childTable (s.entry table (vaddrToIndex v (level + 1)))) := by
  simp [pagingMapWalk, h]

theorem pagingMapWalk_absent (h : present (s.entry table (vaddrToIndex v (level + 1))) = false) :
    pagingMapWalk v (level + 1) s table =
      pagingMapWalk v level (createTable s table v (vaddrToIndex v (level + 1)))
        (childTable (palloc s 1).1) := by
  simp [pagingMapWalk, h, createTable]

theorem createTable_keeps (s : Machine σ) (table v : U64) (i : Nat) :
    s.Keeps (createTable s table v i) := by
  simp only [createTable]
  split <;> exact ⟨rfl, rfl, .single (.request _ _ 1)⟩

theorem pagingMapWalk_keeps : ∀ (level : Nat) (s : Machine σ) (table : U64),
    s.Keeps (pagingMapWalk v level s table).1
  | 0, s, _ => .refl s
  | level + 1, s, table => by
    cases h : present (s.entry table (vaddrToIndex v (level + 1))) with
    | true =>
      rw [pagingMapWalk_present h]
      exact pagingMapWalk_keeps level s _
    | false =>
      rw [pagingMapWalk_absent h]
      exact (createTable_keeps s table v _).trans (pagingMapWalk_keeps level _ _)

def newTableFlags (v : U64) : U64 :=
  if v < VADDR_HIGHER then PAGING_PRESENT ||| (PAGING_WRITABLE ||| PAGING_USER) else PAGING_PRESENT

theorem linkFlags_new : LinkFlags (newTableFlags v) := by
  unfold newTableFlags
  split
  · exact linkFlags_user
  · exact linkFlags_kernel

theorem eq_frame_of_aligned (h : p.toNat % 0x1000 = 0) : p = BitVec.ofNat 64 (0x1000 * frameNo p) := by
  refine BitVec.eq_of_toNat_eq ?_
  rw [BitVec.toNat_ofNat, frameNo, Nat.mod_eq_of_lt] <;> omega

theorem createTable_mem {i : Fin 512} {c : Nat} (hn : n < frameLimit) (hc : c < frameLimit)
    (hp : (s.requestPages 1).1 = BitVec.ofNat 64 (0x1000 * c)) :
    (createTable s (framePtr n) v i).mem = attach s.mem n i c (newTableFlags v) := by
  have hchild : (palloc s 1).1 = framePtr c := by simp [palloc, hp, framePtr]
  have hlower : addrOffsetLower (framePtr c) = BitVec.ofNat 64 (0x1000 * c) :=
    addrOffsetLower_higher _
  have hmem : (palloc s 1).2.mem = s.mem := rfl
  simp only [createTable, hchild, Machine.memset_framePtr hc, hlower,
    Machine.setEntry_framePtr hn i.isLt, hmem]
  unfold newTableFlags attach linkEntry
  split
  · simp only [Machine.entry_framePtr hn i.isLt]
    rw [writeEntry_writeEntry, entryAt_writeEntry i.isLt i.isLt, if_pos ⟨rfl, rfl⟩, BitVec.or_assoc]
  · rfl

theorem createTable_handed (s : Machine σ) (table v : U64) (i : Nat) :
    (createTable s table v i).handed = (s.requestPages 1).1 :: s.handed := by
  simp only [createTable]
  split <;> rfl

theorem pagingMapWalk_new {c : Nat} (hn : n < frameLimit) (hc : c < frameLimit)
    (hp : (s.requestPages 1).1 = BitVec.ofNat 64 (0x1000 * c))
    (habsent : present (tableRead s.mem n (tableIndex v (level + 1))) = false) :
    ∃ t, pagingMapWalk v (level + 1) s (framePtr n) = pagingMapWalk v level t (framePtr c) ∧
      t.mem = attach s.mem n (tableIndex v (level + 1)) c (newTableFlags v) ∧
      t.frames = (s.requestPages 1).2.frames ∧ t.handed = (s.requestPages 1).1 :: s.handed := by
  have hentry : s.entry (framePtr n) (vaddrToIndex v (level + 1)) =
      tableRead s.mem n (tableIndex v (level + 1)) :=
    Machine.entry_framePtr hn (vaddrToIndex_lt v (level + 1))
  have hchild : childTable (palloc s 1).1 = framePtr c := by
    rw [childTable_eq, show (palloc s 1).1 = framePtr c from congrArg addrOffsetHigher hp,
      frameOf_framePtr hc]
  refine ⟨createTable s (framePtr n) v (tableIndex v (level + 1)), ?_, createTable_mem hn hc hp, ?_,
    createTable_handed s (framePtr n) v (tableIndex v (level + 1))⟩
  · rw [pagingMapWalk_absent (by rw [hentry, habsent]), hchild]
    rfl
  · simp only [createTable]
    split <;> rfl

theorem FreshFrames.single (h : FreshFrames label [p]) :
    ∃ c, p = BitVec.ofNat 64 (0x1000 * c) ∧ label c = none ∧ c < frameLimit :=
  ⟨frameNo p, eq_frame_of_aligned (h.aligned p (List.mem_singleton.mpr rfl)),
    h.unused p (List.mem_singleton.mpr rfl), h.bound p (List.mem_singleton.mpr rfl)⟩

theorem meetsNoHuge_empty (h : ∀ j, tableRead m n j = 0) : MeetsNoHuge m n v level := by
  cases level with
  | zero => rfl
  | succ level =>
    refine meetsNoHuge_succ.mpr fun hp => ?_
    simp [h] at hp

/-- The first frame handed out becomes the table of this level. -/
theorem pagingMapWalk_attach {label : Labels} {l : Label} (hf : Forest k s.mem label) (hn : label n = some l)
    (hd : l.depth + (level + 1) = 3) (hp : present (tableRead s.mem n (tableIndex v (level + 1))) = false)
    (hnew : (pagingMapWalk v (level + 1) s (framePtr n)).1.handed = new ++ s.handed) (hfresh : FreshFrames label new) :
    ∃ t c p new' label', pagingMapWalk v (level + 1) s (framePtr n) = pagingMapWalk v level t (framePtr c) ∧
      new = new' ++ [p] ∧ p = BitVec.ofNat 64 (0x1000 * c) ∧ c < frameLimit ∧ label c = none ∧
      t.mem = attach s.mem n (tableIndex v (level + 1)) c (newTableFlags v) ∧
      (pagingMapWalk v level t (framePtr c)).1.handed = new' ++ t.handed ∧
      Grows k [p] s.mem label t.mem label' ∧ label' c = some (Label.step k l (tableIndex v (level + 1))) := by
  have hnb := hf.bound n l hn
  have hentry : s.entry (framePtr n) (vaddrToIndex v (level + 1)) =
      tableRead s.mem n (tableIndex v (level + 1)) :=
    Machine.entry_framePtr hnb (vaddrToIndex_lt v (level + 1))
  obtain ⟨c, hp1, hc, hcb⟩ : ∃ c, (s.requestPages 1).1 = BitVec.ofNat 64 (0x1000 * c) ∧
      label c = none ∧ c < frameLimit := by
    obtain ⟨new', hnew'⟩ := (pagingMapWalk_keeps (v := v) level
      (createTable s (framePtr n) v (vaddrToIndex v (level + 1))) (childTable (palloc s 1).1)).handed
    rw [pagingMapWalk_absent (by rw [hentry, hp]), hnew', createTable_handed] at hnew
    have hsplit : new = new' ++ [(s.requestPages 1).1] :=
      (List.append_left_inj s.handed).mp (by rw [← hnew]; simp)
    exact (hsplit ▸ hfresh).earlier.single
  obtain ⟨t, hwalk₁, hmem, -, hhanded⟩ := pagingMapWalk_new hnb hcb hp1 hp
  rw [hwalk₁] at hnew
  obtain ⟨new', hnew'⟩ := (pagingMapWalk_keeps (v := v) level t (framePtr c)).handed
  obtain rfl : new = new' ++ [(s.requestPages 1).1] := by
    refine (List.append_left_inj s.handed).mp ?_
    rw [← hnew, hnew', hhanded]
    simp
  have hgrow := attach_grows hf hn (by omega) hp hc hcb (linkFlags_new (v := v))
  rw [← hmem, ← hp1] at hgrow
  exact ⟨t, c, _, new', _, hwalk₁, rfl, hp1, hcb, hc, hmem, hnew', hgrow, if_pos rfl⟩

theorem pagingMapWalk_spec : ∀ {level : Nat} {s : Machine σ} {n : Nat} {l : Label} {label : Labels}
    {new : List U64}, Forest k s.mem label → label n = some l → l.depth + level = 3 →
    MeetsNoHuge s.mem n v level →
    (pagingMapWalk v level s (framePtr n)).1.handed = new ++ s.handed → FreshFrames label new →
    ∃ s' g label', pagingMapWalk v level s (framePtr n) = (s', framePtr g) ∧
      Grows k new s.mem label s'.mem label' ∧
      tableDescend s'.mem n (indicesAbove v level) = some g := by
  intro level
  induction level with
  | zero =>
    intro s n l label new hf _ _ _ hnew _
    obtain rfl : new = [] := List.append_cancel_right (hnew.symm.trans (List.nil_append _).symm)
    exact ⟨s, n, label, rfl, .refl hf, rfl⟩
  | succ level ih =>
    intro s n l label new hf hn hd hh hnew hfresh
    have hnb := hf.bound n l hn
    have hentry : s.entry (framePtr n) (vaddrToIndex v (level + 1)) =
        tableRead s.mem n (tableIndex v (level + 1)) :=
      Machine.entry_framePtr hnb (vaddrToIndex_lt v (level + 1))
    cases hp : present (tableRead s.mem n (tableIndex v (level + 1))) with
    | true =>
      obtain ⟨c, hnext, hh⟩ := meetsNoHuge_succ.mp hh hp
      have hc := hf.labelled n l _ c hn (by omega) hnext
      rw [pagingMapWalk_present (by rw [hentry, hp]), hentry, childTable_eq,
        (nextTable_eq_some.mp hnext).2.2] at hnew ⊢
      obtain ⟨s', g, label', hwalk, hg, hdesc⟩ :=
        ih hf hc (by rw [Label.depth_step]; omega) hh hnew hfresh
      refine ⟨s', g, label', hwalk, hg, ?_⟩
      have hentry' := hg.entries n l (tableIndex v (level + 1)) hn (.inl hp)
      simpa [tableDescend, indicesAbove, Radix.descend, hentry', hnext] using hdesc
    | false =>
      obtain ⟨t, c, p, new', label₁, hwalk₁, rfl, -, hcb, hc, hmem, hnew', hgrow, hlabel⟩ :=
        pagingMapWalk_attach hf hn hd hp hnew hfresh
      rw [hwalk₁]
      have hnc : c ≠ n := fun e => by rw [e, hn] at hc; contradiction
      have hzero : ∀ j, tableRead t.mem c j = 0 := fun j => by
        rw [hmem, tableRead_attach, if_neg (fun h => hnc h.1), if_pos rfl]
      obtain ⟨s', g, label', hwalk, hg, hdesc⟩ := ih (n := c) hgrow.forest hlabel
        (by rw [Label.depth_step]; omega) (meetsNoHuge_empty hzero) hnew' (hfresh.later hgrow)
      refine ⟨s', g, label', hwalk, hgrow.trans hg, ?_⟩
      have hlink : tableRead t.mem n (tableIndex v (level + 1)) = linkEntry c (newTableFlags v) := by
        rw [hmem, tableRead_attach, if_pos ⟨rfl, rfl⟩]
      have hnext := nextTable_linkEntry hcb (linkFlags_new (v := v))
      have hentry' := hg.entries n l (tableIndex v (level + 1)) (hgrow.keeps n l hn)
        (.inl (by rw [hlink]; exact (nextTable_eq_some.mp hnext).1))
      simpa [tableDescend, indicesAbove, Radix.descend, hentry', hlink, hnext] using hdesc

end MapWalk

-- ---------------------------------------------------------------------------
-- Lookups
-- ---------------------------------------------------------------------------

instance : Decidable (SamePage k r v r' v') := inferInstanceAs (Decidable (_ ∧ _))

theorem Forest.walk_samePage (hf : Forest k m label) (hr : label r = some ⟨r, []⟩)
    (hr' : label r' = some ⟨r', []⟩) (h : SamePage k r v r' v') :
    tableWalk m r (tableIndex v 3) (indicesBelow v 3) =
      tableWalk m r' (tableIndex v' 3) (indicesBelow v' 3) := by
  have hi := samePage_indices h
  have hbelow : indicesBelow v 3 = indicesBelow v' 3 := by
    simp only [indicesBelow, hi 2 (by decide), hi 1 (by decide), hi 0 (by decide)]
  have hroot := congrArg Label.root h.1
  simp only [leafLabel, Label.home, hi 3 (by decide)] at hroot
  rw [hi 3 (by decide), hbelow]
  split at hroot
  next hge =>
    -- the slot belongs to the kernel's table and is the same in both
    simp only [indicesBelow, tableWalk, Radix.walk, hf.shared r hr _ hge, hf.shared r' hr' _ hge]
  next => rw [hroot]

theorem lookup_leaf (h : tableDescend m r (indicesAbove v 3) = some g) :
    lookup m r v = tableRead m g (tableIndex v 0) := by
  rw [lookup, tableWalk_leaf h]
  rfl

/-- From one memory to the next the entry for the page of `v` below `n` became
`e` in every table that shares it, and fresh tables joined; nothing else. -/
structure Updates (k : Nat) (new : List U64) (n : Nat) (v e : U64) (m : Mem) (label : Labels)
    (m' : Mem) (label' : Labels) : Prop where
  forest : Forest k m' label'
  keeps : ∀ n l, label n = some l → label' n = some l
  fresh : ∀ n l, label' n = some l → label n = some l ∨ (l.path ≠ [] ∧ n ∈ new.map frameNo)
  lookup : ∀ r v', label r = some ⟨r, []⟩ →
    lookup m' r v' = if SamePage k n v r v' then e else lookup m r v'
  stops : ∀ r v', label r = some ⟨r, []⟩ → MeetsNoHuge m r v' 3 → MeetsNoHuge m' r v' 3
  bytes : ∀ a, label' (a / 0x1000) = none → a / 0x1000 ∉ new.map frameNo → m' a = m a

theorem Grows.update (hg : Grows k new m label m' label') (hn : label n = some ⟨n, []⟩)
    (hleaf : tableDescend m' n (indicesAbove v 3) = some g) :
    Updates k new n v e m label (writeEntry m' g (tableIndex v 0) e) label' := by
  have hf := hg.forest
  have hlabel : label' g = some (leafLabel k n v) := by
    have := Radix.descend_label hf.labelled (Label.depth_step k) (hg.keeps n _ hn)
      (by simp [Label.depth]) hleaf
    rwa [foldl_step_indices] at this
  have hpath := leaf_path_ne (depth_leafLabel (k := k) (r := n) (v := v))
  have hf' : Forest k (writeEntry m' g (tableIndex v 0) e) label' :=
    hf.writeOther hlabel hpath (by simp [depth_leafLabel])
  -- the walk to the new entry itself
  have hself : tableWalk (writeEntry m' g (tableIndex v 0) e) n (tableIndex v 3)
      (indicesBelow v 3) = (e, []) := by
    rw [tableWalk_leaf (g := g), tableRead_writeEntry, if_pos ⟨rfl, rfl⟩]
    rw [← hleaf]
    refine Radix.descend_congr hf.labelled (Label.depth_step k) ?_ (hg.keeps n _ hn)
      (by simp [Label.depth])
    intro n' l' j hn' hd'
    rw [tableRead_writeEntry, if_neg]
    rintro ⟨rfl, -⟩
    rw [hlabel] at hn'
    obtain rfl := Option.some.inj hn'
    rw [depth_leafLabel] at hd'
    contradiction
  have hother : ∀ r v', label r = some ⟨r, []⟩ → ¬ SamePage k n v r v' →
      tableWalk (writeEntry m' g (tableIndex v 0) e) r (tableIndex v' 3) (indicesBelow v' 3) =
        tableWalk m' r (tableIndex v' 3) (indicesBelow v' 3) := by
    intro r v' hr hpage
    refine hf.walk_writeEntry hlabel (hg.keeps r _ hr) (by simp [Label.depth]) ?_
    rwa [mem_slots_leaf]
  have hwalks := fun r v' hr => hg.walks r ⟨r, []⟩ (tableIndex v' 3) (indicesBelow v' 3) hr
    (by simp [Label.depth])
  refine ⟨hf', hg.keeps, hg.fresh, ?_, ?_, ?_⟩
  · intro r v' hr
    split
    next hpage =>
      rw [lookup, ← hf'.walk_samePage (hg.keeps n _ hn) (hg.keeps r _ hr) hpage, hself]
      rfl
    next hpage =>
      rw [lookup, hother r v' hr hpage]
      exact (hwalks r v' hr).1
  · intro r v' hr hh
    by_cases hpage : SamePage k n v r v'
    · rw [MeetsNoHuge, ← hf'.walk_samePage (hg.keeps n _ hn) (hg.keeps r _ hr) hpage, hself]
      rfl
    · rw [MeetsNoHuge, hother r v' hr hpage, (hwalks r v' hr).2]
      exact hh
  · intro a ha hnew
    have hag : a / 0x1000 ≠ g := fun h => by rw [h, hlabel] at ha; contradiction
    rw [writeEntry_byte (tableIndex v 0).isLt hag]
    refine hg.bytes a ?_ hnew
    cases hl : label (a / 0x1000) with
    | none => rfl
    | some l => rw [hg.keeps _ _ hl] at ha; contradiction

theorem Forest.update_absent (hf : Forest k m label) (hn : label n = some ⟨n, []⟩)
    (hh : MeetsNoHuge m n v 3) (hleaf : tableDescend m n (indicesAbove v 3) = none) :
    Updates k [] n v 0 m label m label := by
  refine ⟨hf, fun _ _ h => h, fun _ _ h => .inl h, ?_, fun _ _ _ h => h, fun _ _ _ => rfl⟩
  intro r v' hr
  split
  next hpage =>
    rw [lookup, ← hf.walk_samePage hn hr hpage]
    exact walkValue_noLeaf hh hleaf
  next => rfl

-- ---------------------------------------------------------------------------
-- paging_map and paging_unmap
-- ---------------------------------------------------------------------------

/-- The forest grows down to the leaf table, and then the entry is written. -/
theorem pagingMap_grows [FrameSource σ] {paddr : U64} {flags : BitVec 8} (hf : Forest k s.mem label)
    (hn : label n = some ⟨n, []⟩) (hh : MeetsNoHuge s.mem n v 3)
    (hnew : (pagingMap s (framePtr n) v paddr flags).handed = new ++ s.handed)
    (hfresh : FreshFrames label new) :
    ∃ m' g label', Grows k new s.mem label m' label' ∧ tableDescend m' n (indicesAbove v 3) = some g ∧
      label' g = some (leafLabel k n v) ∧ (pagingMap s (framePtr n) v paddr flags).mem =
        writeEntry m' g (tableIndex v 0) (paddr ||| flags.setWidth 64 ||| PAGING_PRESENT) := by
  obtain ⟨s', g, label', hwalk, hg, hleaf⟩ :=
    pagingMapWalk_spec hf hn (by simp [Label.depth]) hh hnew hfresh
  have hlabel := Radix.descend_label hg.forest.labelled (Label.depth_step k) (hg.keeps n _ hn)
    (by simp [Label.depth]) hleaf
  rw [foldl_step_indices] at hlabel
  refine ⟨s'.mem, g, label', hg, hleaf, hlabel, ?_⟩
  rw [pagingMap, hwalk]
  simp only
  rw [Machine.setEntry_framePtr (hg.forest.bound g _ hlabel) (vaddrToIndex_lt v 0)]
  rfl

theorem pagingMap_spec [FrameSource σ] {paddr : U64} {flags : BitVec 8} (hf : Forest k s.mem label)
    (hn : label n = some ⟨n, []⟩) (hh : MeetsNoHuge s.mem n v 3)
    (hnew : (pagingMap s (framePtr n) v paddr flags).handed = new ++ s.handed)
    (hfresh : FreshFrames label new) :
    ∃ label', Updates k new n v (paddr ||| flags.setWidth 64 ||| PAGING_PRESENT) s.mem label
      (pagingMap s (framePtr n) v paddr flags).mem label' := by
  obtain ⟨m', g, label', hg, hleaf, -, hmem⟩ := pagingMap_grows hf hn hh hnew hfresh
  exact ⟨label', hmem ▸ hg.update hn hleaf⟩

theorem pagingMap_keeps [FrameSource σ] (s : Machine σ) (table v paddr : U64) (flags : BitVec 8) :
    s.Keeps (pagingMap s table v paddr flags) :=
  let h := pagingMapWalk_keeps (v := v) 3 s table
  ⟨h.kernelTable, h.cr3, h.requests⟩

theorem pagingUnmapWalk_descend : ∀ {level n : Nat}, n < frameLimit → MeetsNoHuge s.mem n v level →
    pagingUnmapWalk v level s (framePtr n) =
      (tableDescend s.mem n (indicesAbove v level)).map framePtr := by
  intro level
  induction level with
  | zero => exact fun _ _ => rfl
  | succ level ih =>
    intro n hn hh
    have hentry : s.entry (framePtr n) (vaddrToIndex v (level + 1)) =
        tableRead s.mem n (tableIndex v (level + 1)) :=
      Machine.entry_framePtr hn (vaddrToIndex_lt v (level + 1))
    rw [pagingUnmapWalk, indicesAbove]
    simp only [hentry]
    cases hp : present (tableRead s.mem n (tableIndex v (level + 1))) with
    | false => simp [tableDescend, Radix.descend, nextTable, hp]
    | true =>
      obtain ⟨c, hnext, hh⟩ := meetsNoHuge_succ.mp hh hp
      have hc := (nextTable_eq_some.mp hnext).2.2
      rw [childTable_eq, hc]
      simpa [tableDescend, Radix.descend, hnext] using ih (nextTable_lt hnext) hh

theorem pagingUnmap_spec (hf : Forest k s.mem label) (hn : label n = some ⟨n, []⟩)
    (hh : MeetsNoHuge s.mem n v 3) :
    Updates k [] n v 0 s.mem label (pagingUnmap s (framePtr n) v).mem label := by
  rw [pagingUnmap, pagingUnmapWalk_descend (hf.bound n _ hn) hh]
  cases hleaf : tableDescend s.mem n (indicesAbove v 3) with
  | none => exact hf.update_absent hn hh hleaf
  | some g =>
    have hlabel := Radix.descend_label hf.labelled (Label.depth_step k) hn (by simp [Label.depth])
      hleaf
    simp only [Option.map_some]
    rw [Machine.setEntry_framePtr (hf.bound g _ hlabel) (vaddrToIndex_lt v 0)]
    exact (Grows.refl hf).update hn hleaf

theorem pagingUnmap_keeps [FrameSource σ] (s : Machine σ) (table v : U64) : s.Keeps (pagingUnmap s table v) := by
  rw [pagingUnmap]
  split <;> exact ⟨rfl, rfl, .refl⟩

-- ---------------------------------------------------------------------------
-- paging_create_empty
-- ---------------------------------------------------------------------------

def emptyTable (m : Mem) (k c : Nat) : Mem :=
  Libk.memcpy (zeroFrame m c) (0x1000 * c + 0x800) (0x1000 * k + 0x800) 0x800

theorem emptyTable_byte {c a : Nat} (ha : a / 0x1000 ≠ c) : emptyTable m k c a = m a := by
  rw [emptyTable, Libk.memcpy_outside (by omega), zeroFrame_byte ha]

theorem tableRead_emptyTable {c : Nat} {i : Fin 512} (hkc : k ≠ c) :
    tableRead (emptyTable m k c) n i =
      if n = c then (if 256 ≤ i.val then tableRead m k i else 0) else tableRead m n i := by
  split
  next hc =>
    subst hc
    split
    next hi =>
      rw [tableRead, tableRead, entryAt, entryAt]
      refine Mem.read64_shift fun b hb => ?_
      rw [emptyTable, Libk.memcpy_apply (by omega), if_pos (by omega), zeroFrame_byte (by omega)]
      exact congrArg m (by omega)
    next hi =>
      rw [tableRead, entryAt]
      refine Mem.read64_zero fun b _ _ => ?_
      rw [emptyTable, Libk.memcpy_apply (by omega), if_neg (by omega), zeroFrame,
        Libk.memset_apply, if_pos (by omega)]
  next hc => exact entryAt_congr i.isLt fun b hb => emptyTable_byte (by omega)

theorem pagingCreateEmpty_eq [FrameSource σ] {c : Nat} (hk : s.kernelTable = framePtr k) (hkl : k < frameLimit)
    (hc : c < frameLimit) (hp : (s.requestPages 1).1 = BitVec.ofNat 64 (0x1000 * c)) :
    pagingCreateEmpty s =
      (framePtr c, { (s.requestPages 1).2 with mem := emptyTable s.mem k c }) := by
  have hchild : (palloc s 1).1 = framePtr c := by simp [palloc, hp, framePtr]
  have hstate : (palloc s 1).2 = (s.requestPages 1).2 := rfl
  have hmem : (s.requestPages 1).2.mem = s.mem := rfl
  have hkernel : (s.requestPages 1).2.kernelTable = framePtr k := hk
  simp only [pagingCreateEmpty, hchild, hstate, Machine.memset_framePtr hc, hkernel, Machine.memcpy,
    hmem]
  rw [show (0x800 : U64) = BitVec.ofNat 64 0x800 from rfl, physical_framePtr_add hc (by decide),
    physical_framePtr_add hkl (by decide), emptyTable]

def rootLabel (label : Labels) (c : Nat) : Labels := fun n => if n = c then some ⟨c, []⟩ else label n

section EmptyTable

variable {c : Nat} {i : Fin 512} {path : List (Fin 512)} (hf : Forest k m label)
  (hc : label c = none)

include hc in
theorem rootLabel_keeps (h : label n = some l) : rootLabel label c n = some l := by
  have : n ≠ c := fun e => by rw [e, hc] at h; contradiction
  rw [rootLabel, if_neg this, h]

include hf hc

theorem fresh_ne_kernel : k ≠ c := fun e => by rw [← e, hf.kernel] at hc; contradiction

theorem tableRead_emptyTable_old (h : label n = some l) :
    tableRead (emptyTable m k c) n i = tableRead m n i := by
  have : n ≠ c := fun e => by rw [e, hc] at h; contradiction
  rw [tableRead_emptyTable (fresh_ne_kernel hf hc), if_neg this]

theorem emptyTable_forest (hcb : c < frameLimit) :
    Forest k (emptyTable m k c) (rootLabel label c) := by
  have hkc := fresh_ne_kernel hf hc
  have hnew : ∀ i, tableRead (emptyTable m k c) c i = if 256 ≤ i.val then tableRead m k i else 0 :=
    fun i => by rw [tableRead_emptyTable hkc, if_pos rfl]
  refine ⟨?_, ?_, ?_, rootLabel_keeps hc hf.kernel, ?_, ?_⟩
  · intro n l i b hn hd hnext
    unfold rootLabel at hn
    split at hn
    next h =>
      subst h
      obtain rfl := Option.some.inj hn
      rw [hnew] at hnext
      split at hnext
      next hi =>
        have hb := hf.labelled k _ i b hf.kernel (by simp [Label.depth]) hnext
        rw [rootLabel_keeps hc hb]
        simp [Label.step, Label.home, hi]
      next => contradiction
    next h =>
      rw [tableRead_emptyTable_old hf hc hn] at hnext
      exact rootLabel_keeps hc (hf.labelled n l i b hn hd hnext)
  · intro n l hn
    unfold rootLabel at hn
    split at hn
    next h => exact h ▸ hcb
    next => exact hf.bound n l hn
  · intro n r hn
    unfold rootLabel at hn
    split at hn
    next h => exact h.trans (congrArg Label.root (Option.some.inj hn))
    next => exact hf.root n r hn
  · exact fun i hi => by rw [tableRead_emptyTable_old hf hc hf.kernel]; exact hf.upper i hi
  · intro r hr i hi
    rw [tableRead_emptyTable_old hf hc hf.kernel]
    unfold rootLabel at hr
    split at hr
    next h => rw [h, hnew, if_pos hi]
    next => rw [tableRead_emptyTable_old hf hc hr, hf.shared r hr i hi]

theorem emptyTable_walk (hn : label n = some l) (hd : l.depth + path.length = 3) :
    tableWalk (emptyTable m k c) n i path = tableWalk m n i path :=
  Radix.walk_congr hf.labelled (Label.depth_step k) hn (Nat.le_of_eq hd) fun _ _ _ hn' _ =>
    tableRead_emptyTable_old hf hc hn'

theorem emptyTable_lookup (hcb : c < frameLimit) :
    lookup (emptyTable m k c) c v = if 256 ≤ (tableIndex v 3).val then lookup m k v else 0 := by
  have hf' := emptyTable_forest hf hc hcb
  split
  next hi =>
    -- the kernel's table shares the page
    have hpage : SamePage k c v k v := by simp [SamePage, leafLabel, Label.home, hi]
    rw [lookup, hf'.walk_samePage (if_pos rfl) (rootLabel_keeps hc hf.kernel) hpage,
      emptyTable_walk hf hc hf.kernel (by simp [Label.depth])]
    rfl
  next hi =>
    have hread : tableRead (emptyTable m k c) c (tableIndex v 3) = 0 := by
      rw [tableRead_emptyTable (fresh_ne_kernel hf hc), if_pos rfl, if_neg hi]
    rw [lookup, indicesBelow, tableWalk, Radix.walk_none (by rw [hread, nextTable_zero]), hread]
    rfl

end EmptyTable

-- ---------------------------------------------------------------------------
-- The frames handed out in a run
-- ---------------------------------------------------------------------------

/-- Every answer of `pmm_request_pages` was a page within reach of the direct
map, and none was given twice. -/
structure DistinctFrames (handed : List U64) : Prop where
  aligned : ∀ p ∈ handed, p.toNat % 0x1000 = 0
  bound : ∀ p ∈ handed, frameNo p < frameLimit
  nodup : (handed.map frameNo).Nodup

theorem DistinctFrames.of_append (h : DistinctFrames (new ++ s.handed)) : DistinctFrames s.handed where
  aligned p hp := h.aligned p (List.mem_append_right _ hp)
  bound p hp := h.bound p (List.mem_append_right _ hp)
  nodup := by
    have := h.nodup
    rw [List.map_append, List.nodup_append] at this
    exact this.2.1

theorem Machine.Keeps.distinct [FrameSource σ] (h : s.Keeps s') (hd : DistinctFrames s'.handed) :
    DistinctFrames s.handed := by
  obtain ⟨new, hnew⟩ := h.handed
  exact (hnew ▸ hd).of_append

/-- The tables of a running kernel: a forest in frames that were handed out. -/
structure PagingInv (k : Nat) (s : Machine σ) (label : Labels) : Prop where
  forest : Forest k s.mem label
  kernelTable : s.kernelTable = framePtr k
  handed : ∀ n l, label n = some l → n ∈ s.handed.map frameNo

theorem PagingInv.fresh (h : PagingInv k s label) (hd : DistinctFrames (new ++ s.handed)) :
    FreshFrames label new := by
  have hnd := hd.nodup
  rw [List.map_append, List.nodup_append] at hnd
  refine ⟨fun p hp => hd.aligned p (List.mem_append_left _ hp),
    fun p hp => hd.bound p (List.mem_append_left _ hp), fun p hp => ?_, hnd.1⟩
  cases hl : label (frameNo p) with
  | none => rfl
  | some l => exact absurd rfl (hnd.2.2 _ (List.mem_map_of_mem hp) _ (h.handed _ l hl))

theorem Updates.inv [FrameSource σ] {e : U64} (hu : Updates k new n v e s.mem label s'.mem label')
    (h : PagingInv k s label) (hkeeps : s.Keeps s') (hnew : s'.handed = new ++ s.handed) :
    PagingInv k s' label' := by
  refine ⟨hu.forest, hkeeps.kernelTable.trans h.kernelTable, fun n l hn => ?_⟩
  rw [hnew, List.map_append, List.mem_append]
  rcases hu.fresh n l hn with hn | ⟨-, hmem⟩
  · exact .inr (h.handed n l hn)
  · exact .inl hmem

end ShedOS.Memory
