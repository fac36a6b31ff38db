import ShedOS.Memory.PagingRuns

/-!
# What paging_copy_recursive writes

The tables of the source are reached in a fixed order, and each gets the next
frame that the allocator hands out. In the copy of a table a present slot holds
a link to the copy of its child; a slot that is absent in the source keeps what
the frame held before.
-/

namespace ShedOS.Memory

open Bytes Loops

variable {σ : Type} [FrameSource σ] {s t : Machine σ} {m m' m'' : Mem} {a b c k n level N : Nat}
  {label : Labels} {l : Label} {path : List (Fin 512)} {f : σ} {i j : Fin 512}

-- ---------------------------------------------------------------------------
-- The frames of successive requests
-- ---------------------------------------------------------------------------

def nextFrames : σ → (n : Nat) → List U64
  | _, 0 => []
  | f, n + 1 => (FrameSource.pmmRequestPages f 1).1 :: nextFrames (FrameSource.pmmRequestPages f 1).2 n

def afterFrames : σ → (n : Nat) → σ
  | f, 0 => f
  | f, n + 1 => afterFrames (FrameSource.pmmRequestPages f 1).2 n

@[simp] theorem length_nextFrames : ∀ {n : Nat} {f : σ}, (nextFrames f n).length = n
  | 0, _ => rfl
  | n + 1, f => by rw [nextFrames, List.length_cons, length_nextFrames]

theorem nextFrames_add : ∀ {n : Nat} {f : σ},
    nextFrames f (n + N) = nextFrames f n ++ nextFrames (afterFrames f n) N
  | 0, f => by simp [nextFrames, afterFrames]
  | n + 1, f => by
    rw [Nat.add_right_comm, nextFrames, nextFrames_add, nextFrames, afterFrames, List.cons_append]

theorem afterFrames_add : ∀ {n : Nat} {f : σ},
    afterFrames f (n + N) = afterFrames (afterFrames f n) N
  | 0, f => by simp [afterFrames]
  | n + 1, f => by rw [Nat.add_right_comm, afterFrames, afterFrames_add, afterFrames]

/-- From `s` to `t` the allocator answered `n` requests for one page. -/
structure Allocates (n : Nat) (s t : Machine σ) : Prop where
  kernelTable : t.kernelTable = s.kernelTable
  cr3 : t.cr3 = s.cr3
  frames : t.frames = afterFrames s.frames n
  handed : t.handed = (nextFrames s.frames n).reverse ++ s.handed

theorem Allocates.refl (s : Machine σ) : Allocates 0 s s := ⟨rfl, rfl, rfl, rfl⟩

theorem Allocates.trans {u : Machine σ} (h : Allocates n s t) (h' : Allocates N t u) :
    Allocates (n + N) s u where
  kernelTable := h'.kernelTable.trans h.kernelTable
  cr3 := h'.cr3.trans h.cr3
  frames := by rw [h'.frames, h.frames, afterFrames_add]
  handed := by
    rw [h'.handed, h.handed, h.frames, nextFrames_add, List.reverse_append, List.append_assoc]

theorem allocates_palloc (s : Machine σ) : Allocates 1 s (palloc s 1).2 := ⟨rfl, rfl, rfl, rfl⟩

-- ---------------------------------------------------------------------------
-- The tables of the source
-- ---------------------------------------------------------------------------

structure SubTable where
  path : List (Fin 512)
  frame : Nat

def slot (i : Nat) : Fin 512 := Fin.ofNat 512 i

theorem slot_val (h : n < 512) : (slot n).val = n := Nat.mod_eq_of_lt h

def subTables (m : Mem) : (level : Nat) → List (Fin 512) → (a : Nat) → List SubTable
  | 0, _, _ => []
  | 1, _, _ => []
  | level + 2, path, a =>
    upto (fun i ts =>
      let e := tableRead m a (slot i)
      if present e then
        ts ++ ⟨path ++ [slot i], frameOf e⟩ :: subTables m (level + 1) (path ++ [slot i]) (frameOf e)
      else ts) [] (userSlots (level + 2))

def slotTables (m : Mem) (level : Nat) (path : List (Fin 512)) (a i : Nat) : List SubTable :=
  upto (fun i ts =>
    let e := tableRead m a (slot i)
    if present e then
      ts ++ ⟨path ++ [slot i], frameOf e⟩ :: subTables m (level + 1) (path ++ [slot i]) (frameOf e)
    else ts) [] i

theorem subTables_succ :
    subTables m (level + 2) path a = slotTables m level path a (userSlots (level + 2)) := rfl

theorem slotTables_present (h : present (tableRead m a (slot n)) = true) :
    slotTables m level path a (n + 1) = slotTables m level path a n ++
      ⟨path ++ [slot n], frameOf (tableRead m a (slot n))⟩ ::
        subTables m (level + 1) (path ++ [slot n]) (frameOf (tableRead m a (slot n))) := by
  rw [slotTables, upto_succ]
  simp only [h, if_true]
  rfl

theorem slotTables_absent (h : present (tableRead m a (slot n)) = false) :
    slotTables m level path a (n + 1) = slotTables m level path a n := by
  rw [slotTables, upto_succ]
  simp only [h, Bool.false_eq_true, if_false]
  rfl

/-- No entry that the recursion follows from `a` is huge. -/
def NoHugeBelow (m : Mem) : (level : Nat) → (a : Nat) → Prop
  | 0, _ => True
  | 1, _ => True
  | level + 2, a => ∀ i : Fin 512, i.val < userSlots (level + 2) →
    present (tableRead m a i) = true →
      huge (tableRead m a i) = false ∧ NoHugeBelow m (level + 1) (frameOf (tableRead m a i))

-- ---------------------------------------------------------------------------
-- Copies
-- ---------------------------------------------------------------------------

/-- A table of the source with the frame of its copy. -/
abbrev CopyPlan := List (SubTable × Nat)

/-- The copy at `x.2` of the table `x.1`: `m` before, `m'` after. -/
structure Copies (m m' : Mem) (plan : CopyPlan) (x : SubTable × Nat) : Prop where
  leaf : x.1.path.length = 3 → ∀ i, tableRead m' x.2 i = tableRead m x.1.frame i
  link : x.1.path.length < 3 → ∀ i : Fin 512, i.val < userSlots (4 - x.1.path.length) →
    present (tableRead m x.1.frame i) = true →
      ∃ c, (⟨x.1.path ++ [i], frameOf (tableRead m x.1.frame i)⟩, c) ∈ plan ∧
        tableRead m' x.2 i = linkEntry c (tableRead m x.1.frame i &&& 0xfff)
  stale : x.1.path.length < 3 → ∀ i : Fin 512,
    (userSlots (4 - x.1.path.length) ≤ i.val ∨ present (tableRead m x.1.frame i) = false) →
      tableRead m' x.2 i = tableRead m x.2 i

theorem Copies.mono {plan plan' : CopyPlan} {x : SubTable × Nat} (h : Copies m m' plan x)
    (hplan : ∀ y ∈ plan, y ∈ plan') (hread : ∀ i, tableRead m'' x.2 i = tableRead m' x.2 i) :
    Copies m m'' plan' x where
  leaf hx i := (hread i).trans (h.leaf hx i)
  link hx i hi hp := by
    obtain ⟨c, hc, he⟩ := h.link hx i hi hp
    exact ⟨c, hplan _ hc, (hread i).trans he⟩
  stale hx i hi := (hread i).trans (h.stale hx i hi)

def planOf (f : σ) (ts : List SubTable) : CopyPlan := ts.zip ((nextFrames f ts.length).map frameNo)

theorem planOf_append {ts ts' : List SubTable} :
    planOf f (ts ++ ts') = planOf f ts ++ planOf (afterFrames f ts.length) ts' := by
  rw [planOf, List.length_append, nextFrames_add, List.map_append, List.zip_append (by simp)]
  rfl

theorem planOf_frame {ts : List SubTable} {x : SubTable × Nat} (h : x ∈ planOf f ts) :
    x.2 ∈ (nextFrames f ts.length).map frameNo := (List.of_mem_zip h).2

/-- What the recursion does for the table `x`, with `m` the contents of all
source tables and of all frames it takes. -/
structure CopyRun (m : Mem) (s s' : Machine σ) (ts : List SubTable) (x : SubTable × Nat) : Prop where
  alloc : Allocates ts.length s s'
  outside : ∀ y, y / 0x1000 ≠ x.2 → y / 0x1000 ∉ (nextFrames s.frames ts.length).map frameNo →
    s'.mem y = s.mem y
  top : Copies m s'.mem (planOf s.frames ts) x
  below : ∀ y ∈ planOf s.frames ts, Copies m s'.mem (planOf s.frames ts) y

structure CopyLoop (m : Mem) (s s' : Machine σ) (ts : List SubTable) (path : List (Fin 512))
    (a b i : Nat) : Prop where
  alloc : Allocates ts.length s s'
  outside : ∀ y, y / 0x1000 ≠ b → y / 0x1000 ∉ (nextFrames s.frames ts.length).map frameNo →
    s'.mem y = s.mem y
  link : ∀ j : Fin 512, j.val < i → present (tableRead m a j) = true →
    ∃ c, (⟨path ++ [j], frameOf (tableRead m a j)⟩, c) ∈ planOf s.frames ts ∧
      tableRead s'.mem b j = linkEntry c (tableRead m a j &&& 0xfff)
  stale : ∀ j : Fin 512, (i ≤ j.val ∨ present (tableRead m a j) = false) →
    tableRead s'.mem b j = tableRead m b j
  below : ∀ y ∈ planOf s.frames ts, Copies m s'.mem (planOf s.frames ts) y

-- ---------------------------------------------------------------------------
-- One slot
-- ---------------------------------------------------------------------------

def copySlot (level : Nat) (dst src : U64) (i : Nat) (s : Machine σ) : Machine σ :=
  if !present (s.entry src i) then s
  else
    let newSrc := childTable (s.entry src i)
    let (newDst, s) := palloc s 1
    let s := pagingCopyRecursive (level + 1) s newDst newSrc
    s.setEntry dst i (addrOffsetLower newDst ||| (s.entry src i &&& 0xfff))

theorem pagingCopyRecursive_succ (dst src : U64) :
    pagingCopyRecursive (level + 2) s dst src =
      upto (copySlot level dst src) s (userSlots (level + 2)) := rfl

theorem copySlot_absent {dst src : U64} (h : present (s.entry src n) = false) :
    copySlot level dst src n s = s := by
  simp [copySlot, h]

theorem copySlot_present {dst src : U64} (h : present (s.entry src n) = true)
    (hp : (s.requestPages 1).1 = BitVec.ofNat 64 (0x1000 * c)) :
    copySlot level dst src n s =
      let s' := pagingCopyRecursive (level + 1) (palloc s 1).2 (framePtr c) (childTable (s.entry src n))
      s'.setEntry dst n (linkEntry c (s'.entry src n &&& 0xfff)) := by
  have hchild : (palloc s 1).1 = framePtr c := by simp [palloc, hp, framePtr]
  have hlower : addrOffsetLower (framePtr c) = BitVec.ofNat 64 (0x1000 * c) :=
    addrOffsetLower_higher _
  simp only [copySlot, h, hchild, hlower, Bool.not_true, Bool.false_eq_true, if_false]
  rfl

/-- What the recursion may rely on: the source tables are labelled, the frames
to come are not. -/
structure CopyPre (m : Mem) (s : Machine σ) (label : Labels) (ts : List SubTable) (b : Nat) : Prop where
  dst : label b = none ∧ b < frameLimit
  fresh : FreshFrames label (nextFrames s.frames ts.length)
  apart : b ∉ (nextFrames s.frames ts.length).map frameNo
  agree : ∀ y, (label (y / 0x1000) ≠ none ∨ y / 0x1000 = b ∨
    y / 0x1000 ∈ (nextFrames s.frames ts.length).map frameNo) → s.mem y = m y

structure TablesOf (k : Nat) (m : Mem) (label : Labels) : Prop where
  labelled : Radix.Labelled nextTable (Label.step k) Label.depth 3 (tableRead m) label
  bound : ∀ n l, label n = some l → n < frameLimit

theorem tableRead_congr (h : ∀ y, y / 0x1000 = n → m y = m' y) : tableRead m n i = tableRead m' n i :=
  entryAt_congr i.isLt h

def CopySpec (σ : Type) [FrameSource σ] (m : Mem) (label : Labels) (level : Nat) : Prop :=
  ∀ (s : Machine σ) (path : List (Fin 512)) (a b : Nat) (l : Label), label a = some l →
    l.depth = path.length → path.length + level = 4 → NoHugeBelow m level a →
    CopyPre m s label (subTables m level path a) b →
    CopyRun m s (pagingCopyRecursive level s (framePtr b) (framePtr a)) (subTables m level path a)
      (⟨path, a⟩, b)

structure SlotFrames (label : Labels) (b c : Nat) (X Y : List U64) : Prop where
  bound : c < frameLimit
  unused : ∀ y, (y = b ∨ y = c ∨ y ∈ X.map frameNo ∨ y ∈ Y.map frameNo) → label y = none
  later : FreshFrames label Y
  notB : b ∉ X.map frameNo ∧ b ≠ c ∧ b ∉ Y.map frameNo
  notC : c ∉ X.map frameNo ∧ c ∉ Y.map frameNo
  disjoint : ∀ y ∈ X.map frameNo, y ∉ Y.map frameNo

omit [FrameSource σ] in
theorem slotFrames {X Y : List U64} {p : U64} (hfresh : FreshFrames label (X ++ p :: Y))
    (hb : label b = none) (hapart : b ∉ (X ++ p :: Y).map frameNo) :
    SlotFrames label b (frameNo p) X Y ∧ p = BitVec.ofNat 64 (0x1000 * frameNo p) := by
  have hnodup := hfresh.nodup
  simp only [List.map_append, List.map_cons, List.mem_append, List.mem_cons, not_or] at hapart hnodup
  obtain ⟨-, hcY, hX⟩ := List.nodup_append.mp hnodup
  obtain ⟨hcY, hYnd⟩ := List.nodup_cons.mp hcY
  have hpmem : p ∈ X ++ p :: Y := by simp
  have hY : FreshFrames label Y :=
    ⟨fun q hq => hfresh.aligned q (by simp [hq]), fun q hq => hfresh.bound q (by simp [hq]),
      fun q hq => hfresh.unused q (by simp [hq]), hYnd⟩
  refine ⟨⟨hfresh.bound p hpmem, ?_, hY, hapart, ⟨fun h => hX _ h _ List.mem_cons_self rfl, hcY⟩,
    fun y hx hy => hX y hx y (List.mem_cons_of_mem _ hy) rfl⟩,
    eq_frame_of_aligned (hfresh.aligned p hpmem)⟩
  rintro y (rfl | rfl | hy | hy)
  · exact hb
  · exact hfresh.unused p hpmem
  · obtain ⟨q, hq, rfl⟩ := List.mem_map.mp hy
    exact hfresh.unused q (by simp [hq])
  · obtain ⟨q, hq, rfl⟩ := List.mem_map.mp hy
    exact hY.unused q hq

theorem CopyPre.earlier {ts rest : List SubTable} (h : CopyPre m s label (ts ++ rest) b) :
    CopyPre m s label ts b := by
  obtain ⟨hdst, hfresh, hapart, hagree⟩ := h
  rw [List.length_append, nextFrames_add] at hfresh hapart hagree
  simp only [List.map_append, List.mem_append, not_or] at hapart hagree
  have hnodup := hfresh.nodup
  rw [List.map_append, List.nodup_append] at hnodup
  refine ⟨hdst, ⟨fun q hq => hfresh.aligned q (by simp [hq]), fun q hq => hfresh.bound q (by simp [hq]),
    fun q hq => hfresh.unused q (by simp [hq]), hnodup.1⟩, hapart.1, fun y hy => hagree y ?_⟩
  exact hy.imp_right fun hy => hy.imp_right .inl

theorem CopyLoop.source {ts : List SubTable} {i : Nat} (h : CopyLoop m s t ts path a b i)
    (pre : CopyPre m s label ts b) {y : Nat} (hy : label (y / 0x1000) ≠ none) : t.mem y = m y := by
  rw [h.outside y (fun e => hy (e ▸ pre.dst.1)) fun e => ?_, pre.agree y (.inl hy)]
  obtain ⟨q, hq, he⟩ := List.mem_map.mp e
  exact hy (he ▸ pre.fresh.unused q hq)

theorem CopyLoop.source_entry {ts : List SubTable} {i : Nat} (h : CopyLoop m s t ts path a b i)
    (hm : TablesOf k m label) (pre : CopyPre m s label ts b) (ha : label a = some l) (hn : n < 512) :
    t.entry (framePtr a) n = tableRead m a (slot n) := by
  have hread : entryAt t.mem a n = entryAt m a n := entryAt_congr hn fun y hy =>
    h.source pre (by rw [hy, ha]; exact Option.some_ne_none l)
  rw [Machine.entry_framePtr (hm.bound a l ha) hn, hread, tableRead, slot_val hn]

section Slot

variable {ts sub : List SubTable} {u : Machine σ} (hm : TablesOf k m label) (ha : label a = some l)
  (hdepth : l.depth = path.length) (hlevel : path.length + (level + 2) = 4)

theorem CopyLoop.absent (h : CopyLoop m s t (slotTables m level path a n) path a b n) (hn : n < 512)
    (hp : present (tableRead m a (slot n)) = false) :
    CopyLoop m s t (slotTables m level path a (n + 1)) path a b (n + 1) := by
  rw [slotTables_absent hp]
  refine ⟨h.alloc, h.outside, fun j hj hpj => ?_, fun j hj => h.stale j ?_, h.below⟩
  · have : j.val ≠ n := by
      rintro rfl
      rw [show slot j.val = j from Fin.ext (slot_val j.isLt)] at hp
      rw [hp] at hpj
      cases hpj
    exact h.link j (by omega) hpj
  · exact hj.imp_left fun h => by omega

theorem CopyLoop.link_child (h : CopyLoop m s t ts path a b n) (hn : n < 512)
    (hf : SlotFrames label b c (nextFrames s.frames ts.length)
      (nextFrames (palloc t 1).2.frames sub.length))
    (hc : c = frameNo (t.requestPages 1).1)
    (hp : present (tableRead m a (slot n)) = true) {x : SubTable}
    (hx : x = ⟨path ++ [slot n], frameOf (tableRead m a (slot n))⟩)
    (run : CopyRun m (palloc t 1).2 u sub (x, c)) :
    CopyLoop m s
      { u with mem := writeEntry u.mem b n (linkEntry c (tableRead m a (slot n) &&& 0xfff)) }
      (ts ++ x :: sub) path a b (n + 1) := by
  have hslot := slot_val hn
  have hplan : planOf s.frames (ts ++ x :: sub) =
      planOf s.frames ts ++ (x, c) :: planOf (palloc t 1).2.frames sub := by
    rw [planOf_append, ← h.alloc.frames, hc]
    rfl
  have hframes : nextFrames s.frames (ts ++ x :: sub).length = nextFrames s.frames ts.length ++
      (t.requestPages 1).1 :: nextFrames (palloc t 1).2.frames sub.length := by
    rw [List.length_append, List.length_cons, nextFrames_add, ← h.alloc.frames]
    rfl
  -- the recursion leaves the frames of the earlier slots and `b` alone
  have hkept : ∀ y, y ≠ c → y ∉ (nextFrames (palloc t 1).2.frames sub.length).map frameNo →
      ∀ i, tableRead u.mem y i = tableRead t.mem y i := fun y hyc hyY i =>
    tableRead_congr fun z hz => run.outside z (hz ▸ hyc) (hz ▸ hyY)
  have hwrite : ∀ y, y ≠ b → ∀ i, tableRead (writeEntry u.mem b n
      (linkEntry c (tableRead m a (slot n) &&& 0xfff))) y i = tableRead u.mem y i := by
    intro y hy i
    rw [tableRead, entryAt_writeEntry hn i.isLt, if_neg fun h => hy h.1]
    rfl
  have hself : ∀ j : Fin 512, tableRead (writeEntry u.mem b n
      (linkEntry c (tableRead m a (slot n) &&& 0xfff))) b j =
        if j = slot n then linkEntry c (tableRead m a (slot n) &&& 0xfff) else tableRead t.mem b j := by
    intro j
    rw [tableRead, entryAt_writeEntry hn j.isLt]
    by_cases hj : j = slot n
    · rw [if_pos ⟨rfl, by rw [hj, hslot]⟩, if_pos hj]
    · rw [if_neg hj, if_neg fun h => hj (Fin.ext (h.2.trans hslot.symm))]
      exact hkept b hf.notB.2.1 hf.notB.2.2 j
  refine ⟨?_, ?_, ?_, ?_, ?_⟩
  · have halloc := (h.alloc.trans (allocates_palloc t)).trans run.alloc
    rw [List.length_append, List.length_cons, show ts.length + (sub.length + 1) =
      ts.length + 1 + sub.length by omega]
    exact ⟨halloc.kernelTable, halloc.cr3, halloc.frames, halloc.handed⟩
  · intro y hyb hy
    rw [hframes] at hy
    simp only [List.map_append, List.map_cons, List.mem_append, List.mem_cons, not_or, ← hc] at hy
    show writeEntry u.mem b n _ y = s.mem y
    rw [writeEntry_byte hn hyb, run.outside y hy.2.1 hy.2.2]
    exact h.outside y hyb hy.1
  · intro j hj hpj
    rw [hself]
    by_cases hjn : j = slot n
    · subst hjn
      exact ⟨c, by rw [hplan, ← hx]; simp, if_pos rfl⟩
    · have : j.val ≠ n := fun e => hjn (Fin.ext (e.trans hslot.symm))
      obtain ⟨c', hc', he⟩ := h.link j (by omega) hpj
      exact ⟨c', by rw [hplan]; exact List.mem_append_left _ hc', by rw [if_neg hjn, he]⟩
  · intro j hj
    have hjn : j ≠ slot n := by
      rintro rfl
      rcases hj with hj | hj
      · omega
      · rw [hp] at hj
        cases hj
    rw [hself, if_neg hjn]
    refine h.stale j (hj.imp_left fun h => by omega)
  · intro y hy
    rw [hplan] at hy ⊢
    rcases List.mem_append.mp hy with hy | hy
    · have hyX := planOf_frame hy
      refine (h.below y hy).mono (fun z hz => List.mem_append_left _ hz) fun i => ?_
      rw [hwrite y.2 (fun e => hf.notB.1 (e ▸ hyX)),
        hkept y.2 (fun e => hf.notC.1 (e ▸ hyX)) (hf.disjoint y.2 hyX)]
    · have hmono : ∀ z ∈ planOf (palloc t 1).2.frames sub,
          z ∈ planOf s.frames ts ++ (x, c) :: planOf (palloc t 1).2.frames sub := fun z hz =>
        List.mem_append_right _ (List.mem_cons_of_mem _ hz)
      rcases List.mem_cons.mp hy with rfl | hy
      · exact run.top.mono hmono (hwrite c hf.notB.2.1.symm)
      · refine (run.below y hy).mono hmono (hwrite y.2 fun e => hf.notB.2.2 (e ▸ planOf_frame hy))

include hm ha hdepth hlevel in
theorem CopyLoop.present (ih : CopySpec σ m label (level + 1))
    (h : CopyLoop m s t (slotTables m level path a n) path a b n) (hn : n < userSlots (level + 2))
    (hno : NoHugeBelow m (level + 2) a)
    (pre : CopyPre m s label (slotTables m level path a (n + 1)) b)
    (hp : Memory.present (tableRead m a (slot n)) = true) :
    CopyLoop m s (copySlot level (framePtr b) (framePtr a) n t) (slotTables m level path a (n + 1))
      path a b (n + 1) := by
  have hn' : n < 512 := Nat.lt_of_lt_of_le hn (by unfold userSlots; split <;> omega)
  have hslot := slot_val hn'
  obtain ⟨hsmall, hno'⟩ := hno (slot n) (hslot.symm ▸ hn) hp
  have ha' := hm.labelled a l (slot n) _ ha (by omega) (nextTable_eq_some.mpr ⟨hp, hsmall, rfl⟩)
  rw [slotTables_present hp] at pre ⊢
  obtain ⟨ts, hts⟩ : ∃ ts, ts = slotTables m level path a n := ⟨_, rfl⟩
  obtain ⟨sub, hsub⟩ : ∃ sub, sub = subTables m (level + 1) (path ++ [slot n])
    (frameOf (tableRead m a (slot n))) := ⟨_, rfl⟩
  rw [← hts] at h pre ⊢
  rw [← hsub] at pre ⊢
  have hframes : nextFrames s.frames (ts ++ ⟨path ++ [slot n], frameOf (tableRead m a (slot n))⟩ ::
      sub).length = nextFrames s.frames ts.length ++
        (t.requestPages 1).1 :: nextFrames (palloc t 1).2.frames sub.length := by
    rw [List.length_append, List.length_cons, nextFrames_add, ← h.alloc.frames]
    rfl
  -- what the recursion reads has not changed since the start
  have ht : ∀ {y}, label (y / 0x1000) ≠ none → t.mem y = m y := h.source pre.earlier
  have hentry := h.source_entry hm pre.earlier ha hn'
  obtain ⟨⟨hbnone, hbb⟩, hfresh, hapart, hagree⟩ := pre
  rw [hframes] at hfresh hapart hagree
  obtain ⟨hf, hpc⟩ := slotFrames hfresh hbnone hapart
  simp only [List.map_append, List.map_cons, List.mem_append, List.mem_cons] at hagree
  obtain ⟨c, hc⟩ : ∃ c, c = frameNo (t.requestPages 1).1 := ⟨_, rfl⟩
  rw [← hc] at hf hpc hagree
  have pre' : CopyPre m (palloc t 1).2 label sub c := by
    refine ⟨⟨hf.unused c (.inr (.inl rfl)), hf.bound⟩, hf.later, hf.notC.2, fun y hy => ?_⟩
    show t.mem y = m y
    rcases hy with hy | hy | hy
    · exact ht hy
    · rw [h.outside y (fun e => hf.notB.2.1 (e.symm.trans hy)) (fun e => hf.notC.1 (hy ▸ e)),
        hagree y (.inr (.inr (.inr (.inl hy))))]
    · rw [h.outside y (fun e => hf.notB.2.2 (e ▸ hy)) (fun e => hf.disjoint _ e hy),
        hagree y (.inr (.inr (.inr (.inr hy))))]
  have run := ih (palloc t 1).2 (path ++ [slot n]) (frameOf (tableRead m a (slot n))) c _ ha'
    (by rw [Label.depth_step, hdepth, List.length_append]; rfl)
    (by rw [List.length_append, List.length_singleton]; omega) hno' (hsub ▸ pre')
  rw [← hsub] at run
  have hane : label a ≠ none := by rw [ha]; exact Option.some_ne_none l
  have hac : a ≠ c := fun e => hane (hf.unused a (.inr (.inl e)))
  have haY : a ∉ (nextFrames (palloc t 1).2.frames sub.length).map frameNo := fun e =>
    hane (hf.unused a (.inr (.inr (.inr e))))
  rw [copySlot_present (by rw [hentry, hp]) hpc, hentry, childTable_eq]
  have hentry' : (pagingCopyRecursive (level + 1) (palloc t 1).2 (framePtr c)
      (framePtr (frameOf (tableRead m a (slot n))))).entry (framePtr a) n = tableRead m a (slot n) := by
    refine Eq.trans ?_ hentry
    rw [Machine.entry_framePtr (hm.bound a l ha) hn', Machine.entry_framePtr (hm.bound a l ha) hn']
    exact entryAt_congr hn' fun y hy => run.outside y (by rw [hy]; exact hac) (by rw [hy]; exact haY)
  simp only [hentry']
  rw [Machine.setEntry_framePtr hbb hn']
  exact h.link_child hn' hf hc hp rfl run

end Slot

-- ---------------------------------------------------------------------------
-- The recursion
-- ---------------------------------------------------------------------------

omit [FrameSource σ] in
theorem memcpy_frame {a b : Nat} (ha : a < frameLimit) (hb : b < frameLimit) :
    s.memcpy (framePtr b) (framePtr a) 0x1000 =
      { s with mem := Libk.memcpy s.mem (0x1000 * b) (0x1000 * a) 0x1000 } := by
  rw [Machine.memcpy, physical_framePtr ha, physical_framePtr hb]

theorem slotTables_prefix (h : n ≤ N) :
    ∃ rest, slotTables m level path a N = slotTables m level path a n ++ rest := by
  induction h with
  | refl => exact ⟨[], (List.append_nil _).symm⟩
  | @step N _ ih =>
    obtain ⟨rest, hrest⟩ := ih
    cases hp : present (tableRead m a (slot N)) with
    | false => exact ⟨rest, by rw [slotTables_absent hp, hrest]⟩
    | true => exact ⟨_, by rw [slotTables_present hp, hrest, List.append_assoc]⟩

theorem copyRun_leaf (hm : TablesOf k m label) (ha : label a = some l) (hpath : path.length = 3)
    (pre : CopyPre m s label [] b) :
    CopyRun m s (s.memcpy (framePtr b) (framePtr a) 0x1000) [] (⟨path, a⟩, b) := by
  have hane : label a ≠ none := by rw [ha]; exact Option.some_ne_none l
  have hab : b ≠ a := fun e => hane (e ▸ pre.dst.1)
  have hagree : ∀ y, y / 0x1000 = a → s.mem y = m y := fun y hy => pre.agree y (.inl (hy.symm ▸ hane))
  rw [memcpy_frame (hm.bound a l ha) pre.dst.2]
  refine ⟨⟨rfl, rfl, rfl, rfl⟩, fun y hy _ => ?_, ⟨fun _ i => ?_, fun h => ?_, fun h => ?_⟩, nofun⟩
  · exact Libk.memcpy_outside (by simp only at hy; omega)
  · show entryAt (Libk.memcpy s.mem (0x1000 * b) (0x1000 * a) 0x1000) b i = entryAt m a i
    rw [entryAt, entryAt]
    refine Mem.read64_shift fun z hz => ?_
    rw [Libk.memcpy_apply (by omega), if_pos (by omega),
      show 0x1000 * a + (0x1000 * b + 8 * i.val + z - 0x1000 * b) = 0x1000 * a + 8 * i.val + z by omega]
    exact hagree _ (by omega)
  · exact absurd h (by simp only; omega)
  · exact absurd h (by simp only; omega)

theorem pagingCopyRecursive_spec (hm : TablesOf k m label) :
    ∀ level, 1 ≤ level → CopySpec σ m label level := by
  intro level hlevel
  induction level, hlevel using Nat.le_induction with
  | base => exact fun s path a b l ha _ hpath _ pre => copyRun_leaf hm ha (by omega) pre
  | succ level hlevel ih =>
    obtain ⟨level, rfl⟩ : ∃ j, level = j + 1 := ⟨level - 1, by omega⟩
    intro s path a b l ha hdepth hpath hno pre
    rw [subTables_succ] at pre ⊢
    rw [pagingCopyRecursive_succ]
    have hloop : CopyLoop m s (upto (copySlot level (framePtr b) (framePtr a)) s (userSlots (level + 2)))
        (slotTables m level path a (userSlots (level + 2))) path a b (userSlots (level + 2)) := by
      refine upto_rule (fun i t => CopyLoop m s t (slotTables m level path a i) path a b i) ?_ ?_
      · refine ⟨.refl s, fun _ _ _ => rfl, fun _ h => absurd h (Nat.not_lt_zero _), fun j _ => ?_,
          nofun⟩
        exact tableRead_congr fun y hy => pre.agree y (.inr (.inl hy))
      · intro i t hi h
        have hi' : i < 512 := Nat.lt_of_lt_of_le hi (by unfold userSlots; split <;> omega)
        have hpre : ∀ {i'}, i' ≤ userSlots (level + 2) →
            CopyPre m s label (slotTables m level path a i') b := fun hle => by
          obtain ⟨rest, hrest⟩ := slotTables_prefix (m := m) hle
          exact (hrest ▸ pre).earlier
        cases hp : present (tableRead m a (slot i)) with
        | false =>
          rw [copySlot_absent (by rw [h.source_entry hm (hpre (Nat.le_of_lt hi)) ha hi', hp])]
          exact h.absent hi' hp
        | true => exact h.present hm ha hdepth hpath ih hi hno (hpre hi) hp
    have hslots : userSlots (4 - path.length) = userSlots (level + 2) := by
      rw [show 4 - path.length = level + 2 by omega]
    refine ⟨hloop.alloc, hloop.outside, ⟨fun h => ?_, fun _ i hi => ?_, fun _ i hi => ?_⟩, hloop.below⟩
    · exact absurd h (by simp only; omega)
    · exact hloop.link i (hslots ▸ hi)
    · exact hloop.stale i (hslots ▸ hi)

end ShedOS.Memory
