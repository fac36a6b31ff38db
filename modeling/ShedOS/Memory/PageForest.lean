import ShedOS.Memory.PageTables

/-!
# The forest of page tables

Every frame in use as a table has a label: the top-level table it belongs to
and the indices that lead to it. Tables below the upper half belong to the
kernel's table, whichever top-level table they are reached from. The labels are
ghost state: no code reads them.
-/

namespace ShedOS.Memory

open Bytes

structure Label where
  root : Nat
  path : List (Fin 512)
  deriving DecidableEq, Repr

abbrev Labels := Nat → Option Label

namespace Label

/-- The owner of slot `i` of the top-level table `r`, with kernel table `k`. -/
def home (k r : Nat) (i : Fin 512) : Nat := if 256 ≤ i.val then k else r

def step (k : Nat) (l : Label) (i : Fin 512) : Label :=
  match l.path with
  | [] => ⟨home k l.root i, [i]⟩
  | _ :: _ => ⟨l.root, l.path ++ [i]⟩

def depth (l : Label) : Nat := l.path.length

theorem depth_step (k : Nat) (l : Label) (i : Fin 512) : (step k l i).depth = l.depth + 1 := by
  unfold step depth
  cases l.path <;> simp

theorem path_step (k : Nat) (l : Label) (i : Fin 512) : (step k l i).path = l.path ++ [i] := by
  unfold step
  cases l.path <;> simp

theorem step_path_ne (k : Nat) (l : Label) (i : Fin 512) : (step k l i).path ≠ [] := by
  unfold step
  cases l.path <;> simp

theorem path_foldl {k : Nat} (p : List (Fin 512)) : ∀ l : Label, (p.foldl (step k) l).path = l.path ++ p := by
  induction p with
  | nil => exact fun l => (List.append_nil _).symm
  | cons i p ih =>
    intro l
    rw [List.foldl_cons, ih, path_step, List.append_assoc]
    rfl

theorem root_foldl {k : Nat} (p : List (Fin 512)) : ∀ {l : Label}, l.path ≠ [] → (p.foldl (step k) l).root = l.root := by
  induction p with
  | nil => exact fun _ => rfl
  | cons i p ih =>
    intro l hl
    rw [List.foldl_cons, ih (step_path_ne k l i)]
    unfold step
    cases hp : l.path with
    | nil => exact absurd hp hl
    | cons j q => rfl

end Label

/-- Frames in use as page tables form one tree for each top-level table, with
a common upper half. -/
structure Forest (k : Nat) (m : Mem) (label : Labels) : Prop where
  labelled : Radix.Labelled nextTable (Label.step k) Label.depth 3 (tableRead m) label
  bound : ∀ n l, label n = some l → n < frameLimit
  root : ∀ n r, label n = some ⟨r, []⟩ → n = r
  kernel : label k = some ⟨k, []⟩
  upper : ∀ i : Fin 512, 256 ≤ i.val → (nextTable (tableRead m k i)).isSome
  shared : ∀ r, label r = some ⟨r, []⟩ → ∀ i : Fin 512, 256 ≤ i.val →
    tableRead m r i = tableRead m k i

variable {k n n' r c g level : Nat} {m m' m'' : Mem} {label label' label'' : Labels} {l l' : Label}
  {i j : Fin 512} {path : List (Fin 512)} {e v flags : U64} {new new' : List U64}

theorem Forest.congr (hf : Forest k m label)
    (hread : ∀ n l i, label n = some l → tableRead m' n i = tableRead m n i) : Forest k m' label where
  labelled n l i c hn hd hc := hf.labelled n l i c hn hd (by rwa [hread n l i hn] at hc)
  bound := hf.bound
  root := hf.root
  kernel := hf.kernel
  upper i hi := by rw [hread k _ i hf.kernel]; exact hf.upper i hi
  shared r hr i hi := by rw [hread r _ i hr, hread k _ i hf.kernel]; exact hf.shared r hr i hi

def frameNo (p : U64) : Nat := p.toNat / 0x1000

/-- What `palloc` is trusted with: page-aligned frames within reach of the
direct map, each handed out once, none in use as a page table. -/
structure FreshFrames (label : Labels) (new : List U64) : Prop where
  aligned : ∀ p ∈ new, p.toNat % 0x1000 = 0
  bound : ∀ p ∈ new, frameNo p < frameLimit
  unused : ∀ p ∈ new, label (frameNo p) = none
  nodup : (new.map frameNo).Nodup

/-- From one memory to the next the tables only gained fresh ones: no lookup
changed, and no byte outside of tables and fresh frames. -/
structure Grows (k : Nat) (new : List U64) (m : Mem) (label : Labels) (m' : Mem)
    (label' : Labels) : Prop where
  forest : Forest k m' label'
  keeps : ∀ n l, label n = some l → label' n = some l
  fresh : ∀ n l, label' n = some l → label n = some l ∨ (l.path ≠ [] ∧ n ∈ new.map frameNo)
  entries : ∀ n l i, label n = some l → (present (tableRead m n i) = true ∨ l.depth = 3) →
    tableRead m' n i = tableRead m n i
  walks : ∀ n l i path, label n = some l → l.depth + path.length = 3 →
    walkValue (tableWalk m' n i path) = walkValue (tableWalk m n i path) ∧
      stopsHuge (tableWalk m' n i path) = stopsHuge (tableWalk m n i path)
  bytes : ∀ a, label (a / 0x1000) = none → a / 0x1000 ∉ new.map frameNo → m' a = m a

theorem Grows.refl (hf : Forest k m label) : Grows k [] m label m label :=
  ⟨hf, fun _ _ h => h, fun _ _ h => .inl h, fun _ _ _ _ _ => rfl, fun _ _ _ _ _ _ => ⟨rfl, rfl⟩,
    fun _ _ _ => rfl⟩

theorem Grows.trans (h : Grows k new m label m' label') (h' : Grows k new' m' label' m'' label'') :
    Grows k (new' ++ new) m label m'' label'' where
  forest := h'.forest
  keeps n l hn := h'.keeps n l (h.keeps n l hn)
  fresh n l hn := by
    rcases h'.fresh n l hn with hn | ⟨hne, hmem⟩
    · rcases h.fresh n l hn with hn | ⟨hne, hmem⟩
      · exact .inl hn
      · exact .inr ⟨hne, by simp only [List.map_append, List.mem_append]; exact .inr hmem⟩
    · exact .inr ⟨hne, by simp only [List.map_append, List.mem_append]; exact .inl hmem⟩
  entries n l i hn hp := by
    have he := h.entries n l i hn hp
    rw [h'.entries n l i (h.keeps n l hn) (by rwa [he]), he]
  walks n l i path hn hd := by
    obtain ⟨hv, hs⟩ := h.walks n l i path hn hd
    obtain ⟨hv', hs'⟩ := h'.walks n l i path (h.keeps n l hn) hd
    exact ⟨hv'.trans hv, hs'.trans hs⟩
  bytes a ha hnew := by
    simp only [List.map_append, List.mem_append, not_or] at hnew
    rw [h'.bytes a ?_ hnew.1, h.bytes a ha hnew.2]
    cases hl : label' (a / 0x1000) with
    | none => rfl
    | some l =>
      rcases h.fresh _ l hl with h | ⟨-, h⟩
      · rw [ha] at h
        contradiction
      · exact absurd h hnew.2

theorem FreshFrames.earlier (h : FreshFrames label (new' ++ new)) : FreshFrames label new where
  aligned p hp := h.aligned p (List.mem_append_right _ hp)
  bound p hp := h.bound p (List.mem_append_right _ hp)
  unused p hp := h.unused p (List.mem_append_right _ hp)
  nodup := by
    have := h.nodup
    rw [List.map_append, List.nodup_append] at this
    exact this.2.1

theorem FreshFrames.later (h : FreshFrames label (new' ++ new))
    (hg : Grows k new m label m' label') : FreshFrames label' new' := by
  have hnd := h.nodup
  rw [List.map_append, List.nodup_append] at hnd
  refine ⟨fun p hp => h.aligned p (List.mem_append_left _ hp),
    fun p hp => h.bound p (List.mem_append_left _ hp), fun p hp => ?_, hnd.1⟩
  cases hl : label' (frameNo p) with
  | none => rfl
  | some l =>
    rcases hg.fresh _ l hl with hold | ⟨-, hmem⟩
    · rw [h.unused p (List.mem_append_left _ hp)] at hold
      contradiction
    · exact absurd rfl (hnd.2.2 _ (List.mem_map_of_mem hp) _ hmem)

-- ---------------------------------------------------------------------------
-- A new table
-- ---------------------------------------------------------------------------

def attach (m : Mem) (n : Nat) (i : Fin 512) (c : Nat) (flags : U64) : Mem :=
  writeEntry (zeroFrame m c) n i (linkEntry c flags)

theorem tableRead_attach :
    tableRead (attach m n i c flags) n' j =
      if n' = n ∧ j = i then linkEntry c flags else if n' = c then 0 else tableRead m n' j := by
  simp only [tableRead, attach, entryAt_writeEntry i.isLt j.isLt, entryAt_zeroFrame j.isLt,
    Fin.val_inj]

section Attach

variable (hf : Forest k m label) (hn : label n = some l) (hd : l.depth < 3)
  (hp : present (tableRead m n i) = false) (hc : label c = none) (hcb : c < frameLimit)
  (hflags : LinkFlags flags)

def attachLabel (k : Nat) (label : Labels) (l : Label) (i : Fin 512) (c : Nat) : Labels :=
  fun n => if n = c then some (Label.step k l i) else label n

include hc in
theorem attachLabel_keeps {n : Nat} {l' : Label} (h : label n = some l') :
    attachLabel k label l i c n = some l' := by
  have : n ≠ c := fun e => by rw [e, hc] at h; contradiction
  rw [attachLabel, if_neg this, h]

include hf hn hp in
theorem attach_lower (hpath : l.path = []) : i.val < 256 := by
  by_contra hge
  obtain ⟨r, path⟩ := l
  subst hpath
  obtain rfl := hf.root n r hn
  obtain ⟨c, hc⟩ := Option.isSome_iff_exists.mp (hf.upper i (by omega))
  rw [← hf.shared n hn i (by omega)] at hc
  rw [(nextTable_eq_some.mp hc).1] at hp
  contradiction

theorem attachLabel_self : attachLabel k label l i c c = some (Label.step k l i) := if_pos rfl

theorem attachLabel_other (h : n' ≠ c) : attachLabel k label l i c n' = label n' := if_neg h

theorem attachLabel_root (h : attachLabel k label l i c n' = some ⟨r, []⟩) : label n' = some ⟨r, []⟩ := by
  by_cases he : n' = c
  · rw [he, attachLabel_self] at h
    exact absurd (congrArg Label.path (Option.some.inj h)) (Label.step_path_ne k l i)
  · rwa [attachLabel_other he] at h

include hc in
theorem attach_ne (h : label n' = some l') : n' ≠ c := fun e => by
  rw [e, hc] at h
  contradiction

include hc in
theorem attach_read (h : label n' = some l') (hne : ¬ (n' = n ∧ j = i)) :
    tableRead (attach m n i c flags) n' j = tableRead m n' j := by
  rw [tableRead_attach, if_neg hne, if_neg (attach_ne hc h)]

include hf hn hp hc in
theorem attach_upper (hr : label r = some ⟨r, []⟩) (hj : 256 ≤ j.val) :
    tableRead (attach m n i c flags) r j = tableRead m r j := by
  refine attach_read hc hr ?_
  rintro ⟨rfl, rfl⟩
  have hpath : l.path = [] := by
    rw [hn] at hr
    exact congrArg Label.path (Option.some.inj hr)
  have := attach_lower hf hn hp hpath
  omega

include hf hn hp hc hcb hflags in
theorem attach_forest : Forest k (attach m n i c flags) (attachLabel k label l i c) where
  labelled n' l' j c' hn' hd' hnext := by
    rw [tableRead_attach] at hnext
    by_cases he : n' = n ∧ j = i
    · obtain ⟨rfl, rfl⟩ := he
      rw [if_pos ⟨rfl, rfl⟩, nextTable_linkEntry hcb hflags] at hnext
      obtain rfl := Option.some.inj hnext
      rw [attachLabel_other (attach_ne hc hn), hn] at hn'
      obtain rfl := Option.some.inj hn'
      exact attachLabel_self
    · rw [if_neg he] at hnext
      by_cases hn'c : n' = c
      · rw [if_pos hn'c, nextTable_zero] at hnext
        contradiction
      · rw [if_neg hn'c] at hnext
        rw [attachLabel_other hn'c] at hn'
        exact attachLabel_keeps hc (hf.labelled n' l' j c' hn' hd' hnext)
  bound n' l' hn' := by
    by_cases he : n' = c
    · exact he ▸ hcb
    · rw [attachLabel_other he] at hn'
      exact hf.bound n' l' hn'
  root n' r hn' := hf.root n' r (attachLabel_root hn')
  kernel := attachLabel_keeps hc hf.kernel
  upper j hj := by
    rw [attach_upper hf hn hp hc hf.kernel hj]
    exact hf.upper j hj
  shared r hr j hj := by
    have hr := attachLabel_root hr
    rw [attach_upper hf hn hp hc hr hj, attach_upper hf hn hp hc hf.kernel hj]
    exact hf.shared r hr j hj

include hf hn hd hp hc hcb hflags in
/-- A walk through the slot stopped there before, and stops in the empty table
now. -/
theorem attach_walks : label n' = some l' → l'.depth + path.length = 3 →
    walkValue (tableWalk (attach m n i c flags) n' j path) = walkValue (tableWalk m n' j path) ∧
      stopsHuge (tableWalk (attach m n i c flags) n' j path) = stopsHuge (tableWalk m n' j path) := by
  induction path generalizing n' l' j with
  | nil =>
    intro hn' hd'
    have he : ¬ (n' = n ∧ j = i) := by
      rintro ⟨rfl, -⟩
      rw [hn] at hn'
      obtain rfl := Option.some.inj hn'
      simp at hd'
      omega
    rw [tableWalk, tableWalk, Radix.walk_leaf, Radix.walk_leaf, attach_read hc hn' he]
    exact ⟨rfl, rfl⟩
  | cons j' path ih =>
    intro hn' hd'
    by_cases he : n' = n ∧ j = i
    · obtain ⟨rfl, rfl⟩ := he
      have hold : nextTable (tableRead m n' j) = none := by simp [nextTable, hp]
      have hnew : nextTable (tableRead (attach m n' j c flags) n' j) = some c := by
        rw [tableRead_attach, if_pos ⟨rfl, rfl⟩, nextTable_linkEntry hcb hflags]
      have hempty : tableRead (attach m n' j c flags) c j' = 0 := by
        rw [tableRead_attach, if_neg (fun h => attach_ne hc hn h.1.symm), if_pos rfl]
      rw [tableWalk, tableWalk, Radix.walk_none hold, Radix.walk_some hnew]
      cases path with
      | nil => simp [Radix.walk_leaf, hempty, walkValue, stopsHuge, hp]
      | cons j'' path =>
        rw [Radix.walk_none (by rw [hempty, nextTable_zero])]
        simp [hempty, walkValue, stopsHuge, hp]
    · have hread : tableRead (attach m n i c flags) n' j = tableRead m n' j := attach_read hc hn' he
      cases hnext : nextTable (tableRead m n' j) with
      | none =>
        rw [tableWalk, tableWalk, Radix.walk_none hnext, Radix.walk_none (by rw [hread, hnext]),
          hread]
        exact ⟨rfl, rfl⟩
      | some b =>
        rw [tableWalk, tableWalk, Radix.walk_some hnext, Radix.walk_some (by rw [hread, hnext])]
        simp only [List.length_cons] at hd'
        exact ih (hf.labelled n' l' j b hn' (by omega) hnext) (by rw [Label.depth_step]; omega)

include hf hn hd hp hc hcb hflags in
theorem attach_grows :
    Grows k [BitVec.ofNat 64 (0x1000 * c)] m label (attach m n i c flags)
      (attachLabel k label l i c) := by
  have hno : frameNo (BitVec.ofNat 64 (0x1000 * c)) = c := by
    rw [frameNo, toNat_frame hcb]; omega
  refine ⟨attach_forest hf hn hp hc hcb hflags, fun n' l' => attachLabel_keeps hc, fun n' l' hn' => ?_,
    fun n' l' j hn' hpd => ?_, fun n' l' j path => attach_walks hf hn hd hp hc hcb hflags, fun a ha hnew => ?_⟩
  · by_cases he : n' = c
    · rw [he, attachLabel_self] at hn'
      obtain rfl := Option.some.inj hn'
      exact .inr ⟨Label.step_path_ne k l i, by simp [hno, he]⟩
    · rw [attachLabel_other he] at hn'
      exact .inl hn'
  · refine attach_read hc hn' ?_
    rintro ⟨rfl, rfl⟩
    rw [hn] at hn'
    obtain rfl := Option.some.inj hn'
    rcases hpd with hpd | hpd
    · rw [hp] at hpd
      contradiction
    · omega
  · simp only [List.map_cons, List.map_nil, hno, List.mem_singleton] at hnew
    have han : a / 0x1000 ≠ n := fun e => by rw [e, hn] at ha; contradiction
    rw [attach, writeEntry_byte i.isLt han, zeroFrame_byte hnew]

end Attach

-- ---------------------------------------------------------------------------
-- A new leaf entry
-- ---------------------------------------------------------------------------

theorem tableRead_writeEntry :
    tableRead (writeEntry m g i e) n j = if n = g ∧ j = i then e else tableRead m n j := by
  simp only [tableRead, entryAt_writeEntry i.isLt j.isLt, Fin.val_inj]

theorem not_root (hg : label g = some l) (hl : l.path ≠ []) (hr : label r = some ⟨r, []⟩) :
    r ≠ g := by
  rintro rfl
  rw [hg] at hr
  obtain rfl := Option.some.inj hr
  contradiction

theorem leaf_path_ne (hd : l.depth = 3) : l.path ≠ [] := fun h => by
  rw [Label.depth, h] at hd
  contradiction

/-- Entries that link to no table are no part of the shape of the forest. -/
theorem Forest.writeOther (hf : Forest k m label) (hg : label g = some l) (hl : l.path ≠ [])
    (he : l.depth < 3 → nextTable e = none) : Forest k (writeEntry m g i e) label := by
  have hroot : ∀ r, label r = some ⟨r, []⟩ → ∀ j,
      tableRead (writeEntry m g i e) r j = tableRead m r j := by
    intro r hr j
    rw [tableRead_writeEntry, if_neg fun h => not_root hg hl hr h.1]
  refine ⟨?_, hf.bound, hf.root, hf.kernel, ?_, ?_⟩
  · intro n l' j c hn hd hnext
    rw [tableRead_writeEntry] at hnext
    split at hnext
    next h =>
      obtain ⟨rfl, -⟩ := h
      rw [hg] at hn
      obtain rfl := Option.some.inj hn
      rw [he hd] at hnext
      contradiction
    next => exact hf.labelled n l' j c hn hd hnext
  · exact fun j hj => by rw [hroot k hf.kernel]; exact hf.upper j hj
  · exact fun r hr j hj => by rw [hroot r hr, hroot k hf.kernel]; exact hf.shared r hr j hj

theorem Forest.walk_writeEntry (hf : Forest k m label) (hg : label g = some l)
    (hn : label n = some l') (hd : l'.depth + path.length = 3)
    (hslot : (l, i) ∉ Radix.slots (Label.step k) l' j path) :
    tableWalk (writeEntry m g i e) n j path = tableWalk m n j path := by
  refine Radix.walk_congr hf.labelled (Label.depth_step k) hn (Nat.le_of_eq hd) ?_
  intro n' l'' j' hn' hmem
  rw [tableRead_writeEntry, if_neg]
  rintro ⟨rfl, rfl⟩
  rw [hg] at hn'
  obtain rfl := Option.some.inj hn'
  exact hslot hmem

-- ---------------------------------------------------------------------------
-- Leaf tables and pages
-- ---------------------------------------------------------------------------

def leafLabel (k r : Nat) (v : U64) : Label :=
  ⟨Label.home k r (tableIndex v 3), indicesAbove v 3⟩

theorem foldl_step_indices : (indicesAbove v 3).foldl (Label.step k) ⟨r, []⟩ = leafLabel k r v := by
  simp [indicesAbove, Label.step, leafLabel]

theorem depth_leafLabel : (leafLabel k r v).depth = 3 := by simp [leafLabel, Label.depth]

/-- Two addresses are translated by the same leaf entry of the two tables. -/
def SamePage (k r : Nat) (v : U64) (r' : Nat) (v' : U64) : Prop :=
  leafLabel k r v = leafLabel k r' v' ∧ tableIndex v 0 = tableIndex v' 0

theorem mem_slots_leaf :
    (leafLabel k r v, tableIndex v 0) ∈
        Radix.slots (Label.step k) ⟨n, []⟩ (tableIndex e 3) (indicesBelow e 3) ↔
      SamePage k r v n e := by
  simp only [indicesBelow, Radix.slots, List.mem_cons, List.not_mem_nil, or_false, Prod.mk.injEq,
    Label.step, leafLabel, Label.mk.injEq, indicesAbove, SamePage]
  simp

theorem samePage_indices (h : SamePage k r v r' e) :
    ∀ level, level ≤ 3 → tableIndex v level = tableIndex e level := by
  obtain ⟨hl, h0⟩ := h
  have hpath := congrArg Label.path hl
  simp only [leafLabel, indicesAbove, List.cons.injEq] at hpath
  exact forall_level h0 hpath.2.2.1 hpath.2.1 hpath.1

end ShedOS.Memory
