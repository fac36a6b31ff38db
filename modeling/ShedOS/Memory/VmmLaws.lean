import ShedOS.Memory.Vmm

/-!
# What vmm_request_at and cow_copy_on_write do

Both in terms of lookups and of the bytes outside of tables, for tables that
form a forest and frames that are fresh.
-/

namespace ShedOS.Memory

open Bytes Libk Loops

variable {σ : Type} {s s' : Machine σ} {m m' : Mem} {f g n r k i : Nat} {label label' : Labels}
  {v v' p : U64} {e : U64} {new new' : List U64} {flags : BitVec 8}

-- ---------------------------------------------------------------------------
-- Lookups in memories with the same tables
-- ---------------------------------------------------------------------------

section Congr

variable (hf : Forest k m label) (hr : label r = some ⟨r, []⟩)
  (hread : ∀ n l i, label n = some l → tableRead m' n i = tableRead m n i)

include hf hr hread

theorem Forest.walk_congr :
    tableWalk m' r (tableIndex v 3) (indicesBelow v 3) = tableWalk m r (tableIndex v 3) (indicesBelow v 3) :=
  Radix.walk_congr hf.labelled (Label.depth_step k) hr (by simp [Label.depth]) fun n' l' j hn' _ =>
    hread n' l' j hn'

theorem Forest.lookup_congr : lookup m' r v = lookup m r v := by
  rw [lookup, hf.walk_congr hr hread]
  rfl

theorem Forest.meetsNoHuge_congr : MeetsNoHuge m' r v 3 ↔ MeetsNoHuge m r v 3 := by
  rw [MeetsNoHuge, hf.walk_congr hr hread]
  rfl

end Congr

theorem tableRead_outside (hg : label g = none) (hm : ∀ a, a / 0x1000 ≠ g → m' a = m a) :
    ∀ n l i, label n = some l → tableRead m' n i = tableRead m n i := by
  intro n l i hn
  refine entryAt_congr i.isLt fun a ha => hm a ?_
  rintro rfl
  rw [ha, hn] at hg
  contradiction

theorem meetsNoHuge_of_absent (h : present (lookup m n v) = false) : MeetsNoHuge m n v 3 := by
  unfold lookup at h
  unfold MeetsNoHuge
  cases hwalk : tableWalk m n (tableIndex v 3) (indicesBelow v 3) with
  | mk e rest =>
    rw [hwalk] at h
    cases rest with
    | nil => rfl
    | cons i rest =>
      cases hp : present e with
      | false => exact hp
      | true =>
        rw [walkValue, hp, if_pos rfl, hp] at h
        contradiction

-- ---------------------------------------------------------------------------
-- vmm_request_at
-- ---------------------------------------------------------------------------

theorem FreshFrames.left (h : FreshFrames label (new' ++ new)) : FreshFrames label new' where
  aligned p hp := h.aligned p (List.mem_append_left _ hp)
  bound p hp := h.bound p (List.mem_append_left _ hp)
  unused p hp := h.unused p (List.mem_append_left _ hp)
  nodup := by
    have hnd := h.nodup
    rw [List.map_append, List.nodup_append] at hnd
    exact hnd.1

theorem Updates.unused (hu : Updates k new' n v e m label m' label') (h : FreshFrames label (new' ++ p :: new)) :
    label' (frameNo p) = none := by
  cases hl : label' (frameNo p) with
  | none => rfl
  | some l =>
    rcases hu.fresh _ l hl with hold | ⟨-, hmem⟩
    · rw [h.unused p (by simp)] at hold
      contradiction
    · have hnd := h.nodup
      rw [List.map_append, List.nodup_append] at hnd
      exact absurd rfl (hnd.2.2 _ hmem _ List.mem_cons_self)

variable [FrameSource σ]

theorem PagingInv.requested (h : PagingInv k s label) : PagingInv k (s.requestPages 1).2 label :=
  ⟨h.forest, h.kernelTable, fun n l hn => List.mem_cons_of_mem _ (h.handed n l hn)⟩

theorem vmmRequestPage_keeps (s : Machine σ) (table v : U64) (flags : BitVec 8) :
    s.Keeps (vmmRequestPage s table v flags) := by
  unfold vmmRequestPage
  simp only
  split
  · exact .refl s
  · have hrequest : s.Keeps (s.requestPages 1).2 := ⟨rfl, rfl, .single (.request _ _ 1)⟩
    exact hrequest.trans (pagingMap_keeps _ table v _ flags)

theorem vmmRequestPage_split (h : PagingInv k s label) (hn : label n = some ⟨n, []⟩)
    (habsent : present (lookup s.mem n v) = false)
    (hnew : (vmmRequestPage s (framePtr n) v flags).handed = new ++ s.handed) :
    ∃ t p new', new = new' ++ [p] ∧ t.mem = s.mem ∧ PagingInv k t label ∧
      vmmRequestPage s (framePtr n) v flags = pagingMap t (framePtr n) v p flags ∧
      (pagingMap t (framePtr n) v p flags).handed = new' ++ t.handed := by
  obtain ⟨p, hp⟩ : ∃ p, p = (s.requestPages 1).1 := ⟨_, rfl⟩
  obtain ⟨t, ht⟩ : ∃ t, t = (s.requestPages 1).2 := ⟨_, rfl⟩
  have hcall : vmmRequestPage s (framePtr n) v flags = pagingMap t (framePtr n) v p flags := by
    rw [vmmRequestPage, pagingGet_lookup (h.forest.bound n _ hn)]
    simp only [habsent, Bool.false_eq_true, if_false, hp, ht]
  have hinv : PagingInv k t label := ht ▸ h.requested
  have hhanded : t.handed = p :: s.handed := by rw [ht, hp]; rfl
  rw [hcall] at hnew
  obtain ⟨new', hnew'⟩ := (pagingMap_keeps t (framePtr n) v p flags).handed
  obtain rfl : new = new' ++ [p] := by
    refine (List.append_left_inj s.handed).mp ?_
    rw [← hnew, hnew', hhanded]
    simp
  exact ⟨t, p, new', rfl, by rw [ht]; rfl, hinv, hcall, hnew'⟩

theorem vmmRequestPage_spec (h : PagingInv k s label) (hn : label n = some ⟨n, []⟩)
    (hh : MeetsNoHuge s.mem n v 3) (habsent : present (lookup s.mem n v) = false)
    (hnew : (vmmRequestPage s (framePtr n) v flags).handed = new ++ s.handed) (hfresh : FreshFrames label new) :
    ∃ p new' label', new = new' ++ [p] ∧
      Updates k new' n v (p ||| flags.setWidth 64 ||| PAGING_PRESENT) s.mem label
        (vmmRequestPage s (framePtr n) v flags).mem label' ∧
      PagingInv k (vmmRequestPage s (framePtr n) v flags) label' ∧ label' (frameNo p) = none := by
  obtain ⟨t, p, new', rfl, ht, hinv, hcall, hnew'⟩ := vmmRequestPage_split h hn habsent hnew
  obtain ⟨label', hu⟩ := pagingMap_spec (s := t) hinv.forest hn (by rw [ht]; exact hh) hnew' hfresh.left
  rw [hcall]
  refine ⟨p, new', label', rfl, ?_, hu.inv hinv (pagingMap_keeps t (framePtr n) v p flags) hnew', hu.unused hfresh⟩
  rw [ht] at hu
  exact hu

-- ---------------------------------------------------------------------------
-- Pages
-- ---------------------------------------------------------------------------

section Page

omit [FrameSource σ]

theorem indices_of_page (h : pageOf v = pageOf v') :
    tableIndex v 3 = tableIndex v' 3 ∧ indicesBelow v 3 = indicesBelow v' 3 := by
  have hi := pageOf_eq_iff.mp h
  refine ⟨hi 3 (by decide), ?_⟩
  simp only [indicesBelow, hi 2 (by decide), hi 1 (by decide), hi 0 (by decide)]

theorem lookup_of_page (h : pageOf v = pageOf v') : lookup m r v = lookup m r v' := by
  obtain ⟨h3, hbelow⟩ := indices_of_page h
  rw [lookup, lookup, h3, hbelow]

theorem meetsNoHuge_of_page (h : pageOf v = pageOf v') : MeetsNoHuge m r v 3 ↔ MeetsNoHuge m r v' 3 := by
  obtain ⟨h3, hbelow⟩ := indices_of_page h
  rw [MeetsNoHuge, MeetsNoHuge, h3, hbelow]

def pageStart (v : U64) : U64 := v &&& ~~~0xfff#64

theorem toNat_pageStart_add (hi : i < 0x1000) :
    (pageStart v + BitVec.ofNat 64 i).toNat = 0x1000 * (v.toNat / 0x1000) + i := by
  have hlt := v.isLt
  rw [pageStart, and_not_fff, ← BitVec.ofNat_add, BitVec.toNat_ofNat, Nat.mod_eq_of_lt (by omega)]

theorem pageOf_pageStart_add (hi : i < 0x1000) : pageOf (pageStart v + BitVec.ofNat 64 i) = pageOf v := by
  refine BitVec.eq_of_toNat_eq ?_
  rw [toNat_pageOf, toNat_pageOf, toNat_pageStart_add hi]
  omega

theorem pageOf_pageStart : pageOf (pageStart v) = pageOf v := by
  have h := pageOf_pageStart_add (v := v) (i := 0) (by decide)
  rwa [BitVec.add_zero] at h

theorem mmu_pageStart_add (hh : MeetsNoHuge m r v 3) (hp : present (lookup m r v) = true) (hi : i < 0x1000) :
    mmu m r (pageStart v + BitVec.ofNat 64 i) = some (0x1000 * frameOf (lookup m r v) + i) := by
  have hpage := pageOf_pageStart_add (v := v) hi
  rw [mmu_lookup ((meetsNoHuge_of_page hpage).mpr hh), lookup_of_page hpage, leafAddr, if_pos hp,
    toNat_pageStart_add hi]
  congr 2
  omega

end Page

-- ---------------------------------------------------------------------------
-- Copies through the MMU
-- ---------------------------------------------------------------------------

omit [FrameSource σ] in
/-- A copy from page to page, whatever the frame of the source: nothing that it
writes takes part in the translation. -/
theorem copyVirtual_eq (hf : Forest k m label) (hr : label r = some ⟨r, []⟩) (hg : label f = none)
    (hh : MeetsNoHuge m r v 3) (hh' : MeetsNoHuge m r v' 3) (hp : present (lookup m r v) = true)
    (hp' : present (lookup m r v') = true) (hv : frameOf (lookup m r v) = f) (hn : n ≤ 0x1000) :
    copyVirtual m r (pageStart v) (pageStart v') n =
      some (memcpy m (0x1000 * f) (0x1000 * frameOf (lookup m r v')) n) := by
  induction n with
  | zero => rfl
  | succ n ih =>
    have houtside : ∀ a, a / 0x1000 ≠ f →
        memcpy m (0x1000 * f) (0x1000 * frameOf (lookup m r v')) n a = m a := fun a ha =>
      memcpy_outside (by omega)
    have hread := tableRead_outside hg houtside
    have hmmu : ∀ {v}, MeetsNoHuge m r v 3 → present (lookup m r v) = true →
        mmu (memcpy m (0x1000 * f) (0x1000 * frameOf (lookup m r v')) n) r (pageStart v + BitVec.ofNat 64 n) =
          some (0x1000 * frameOf (lookup m r v) + n) := by
      intro v hh hp
      rw [mmu_pageStart_add ((hf.meetsNoHuge_congr hr hread).mpr hh) (by rwa [hf.lookup_congr hr hread]) hn,
        hf.lookup_congr hr hread]
    rw [copyVirtual, ih (Nat.le_of_succ_le hn)]
    simp only [Option.bind_eq_bind, Option.bind_some]
    rw [hmmu hh' hp', hmmu hh hp, hv]
    rfl

-- ---------------------------------------------------------------------------
-- cow_copy_on_write
-- ---------------------------------------------------------------------------

/-- The flags that `cow_copy_on_write` gives the new page. -/
def cowFlags (e : U64) : BitVec 8 := ((e &&& 0xfff#64) ||| PAGING_WRITABLE).setWidth 8

def cowEntry (p e : U64) : U64 := p ||| (cowFlags e).setWidth 64 ||| PAGING_PRESENT

def cowRemap (s : Machine σ) (vmap vaddr : U64) : Machine σ :=
  let entry := pagingGet s vmap (pageStart vaddr)
  let s := pagingMap s s.kernelTable kernelCopyVaddr (entry &&& ~~~0xfff#64) 0
  let s := pagingUnmap s vmap (pageStart vaddr)
  vmmRequestAt s vmap (pageStart vaddr) 1 (cowFlags entry)

theorem cowCopyOnWrite_absent {vmap vaddr : U64} (h : present (pagingGet s vmap (pageStart vaddr)) = false) :
    cowCopyOnWrite s vmap vaddr = some (false, s) := by
  unfold pageStart at h
  rw [cowCopyOnWrite]
  simp only [h, Bool.not_false, if_true]
  rfl

theorem cowCopyOnWrite_present {vmap vaddr : U64} (h : present (pagingGet s vmap (pageStart vaddr)) = true) :
    cowCopyOnWrite s vmap vaddr =
      (copyVirtual (cowRemap s vmap vaddr).mem (cowRemap s vmap vaddr).root (pageStart vaddr) kernelCopyVaddr
        0x1000).map fun mem =>
          (true, pagingUnmap { cowRemap s vmap vaddr with mem } (cowRemap s vmap vaddr).kernelTable kernelCopyVaddr) := by
  unfold pageStart at h
  unfold cowCopyOnWrite cowRemap pageStart cowFlags
  simp only [h, Bool.not_true, Bool.false_eq_true, if_false, Option.map_eq_bind]
  rfl

theorem vmmRequestAt_one (s : Machine σ) (table v : U64) (flags : BitVec 8) :
    vmmRequestAt s table v 1 flags = vmmRequestPage s table v flags := by
  simp [vmmRequestAt, upto_succ]

theorem cowRemap_keeps (s : Machine σ) (vmap v : U64) : s.Keeps (cowRemap s vmap v) := by
  unfold cowRemap
  simp only
  rw [vmmRequestAt_one]
  refine (pagingMap_keeps s _ _ _ _).trans ((pagingUnmap_keeps _ _ _).trans (vmmRequestPage_keeps _ _ _ _))

section Entries

omit [FrameSource σ]

theorem frameOf_or_low {w : U64} (hw : w.toNat < 0x1000) : frameOf (e ||| w) = frameOf e := by
  rw [frameOf, frameOf, BitVec.toNat_or, show 0x1000 = 2 ^ 12 by rfl, ← Nat.shiftRight_eq_div_pow,
    ← Nat.shiftRight_eq_div_pow, Nat.shiftRight_or_distrib, Nat.shiftRight_eq_div_pow w.toNat,
    Nat.div_eq_of_lt hw, Nat.or_zero]

theorem frameOf_and_not_fff : frameOf (e &&& ~~~0xfff#64) = frameOf e := by
  have hlt := e.isLt
  have hmod : 0x1000 * (e.toNat / 0x1000) % 2 ^ 64 = 0x1000 * (e.toNat / 0x1000) := Nat.mod_eq_of_lt (by omega)
  unfold frameOf
  rw [and_not_fff, BitVec.toNat_ofNat, hmod, Nat.mul_div_cancel_left _ (by decide)]

theorem toNat_flags (flags : BitVec 8) : (flags.setWidth 64 ||| PAGING_PRESENT).toNat < 0x1000 := by
  rw [BitVec.toNat_or, BitVec.toNat_setWidth]
  refine Nat.or_lt_two_pow (n := 12) ?_ (by decide)
  have := flags.isLt
  omega

theorem frameOf_leaf : frameOf (e ||| flags.setWidth 64 ||| PAGING_PRESENT) = frameOf e := by
  rw [BitVec.or_assoc, frameOf_or_low (toNat_flags flags)]

theorem present_leaf : present (e ||| flags.setWidth 64 ||| PAGING_PRESENT) = true := by
  rw [present_eq, BitVec.getLsbD_or, show PAGING_PRESENT.getLsbD 0 = true by decide, Bool.or_true]

theorem frameOf_frameNo (hb : frameNo p < frameLimit) : frameOf p = frameNo p :=
  Nat.mod_eq_of_lt hb

end Entries

/-- Before the copy: the page of `vaddr` under `n` has the fresh frame `p`, and
the old one shows at the address for copies. -/
structure Remapped (k n : Nat) (vaddr e p : U64) (new : List U64) (s : Machine σ) (label : Labels)
    (s' : Machine σ) (label' : Labels) : Prop where
  inv : PagingInv k s' label'
  keeps : ∀ n l, label n = some l → label' n = some l
  fresh : ∀ n l, label' n = some l → label n = some l ∨ (l.path ≠ [] ∧ n ∈ new.map frameNo)
  page : p ∈ new
  unused : label' (frameNo p) = none
  lookup : ∀ r v, label r = some ⟨r, []⟩ → lookup s'.mem r v =
    if pageOf v = pageOf vaddr ∧ r = n then cowEntry p e
    else if pageOf v = pageOf kernelCopyVaddr then (e &&& ~~~0xfff#64) ||| (0#8).setWidth 64 ||| PAGING_PRESENT
    else lookup s.mem r v
  stops : ∀ r v, label r = some ⟨r, []⟩ → MeetsNoHuge s.mem r v 3 → MeetsNoHuge s'.mem r v 3
  bytes : ∀ a, label' (a / 0x1000) = none → a / 0x1000 ∉ new.map frameNo → s'.mem a = s.mem a

/-- Between `s` and `s'` the user page of `vaddr` under `n` got the fresh frame
`p` and what the old one held; `new` are all frames handed out, latest first. -/
structure CowDone (k n : Nat) (vaddr e p : U64) (new : List U64) (s : Machine σ) (label : Labels)
    (s' : Machine σ) (label' : Labels) : Prop where
  inv : PagingInv k s' label'
  keeps : ∀ n l, label n = some l → label' n = some l
  fresh : ∀ n l, label' n = some l → label n = some l ∨ (l.path ≠ [] ∧ n ∈ new.map frameNo)
  page : p ∈ new
  unused : label' (frameNo p) = none
  lookup : ∀ r v, label r = some ⟨r, []⟩ → lookup s'.mem r v =
    if pageOf v = pageOf kernelCopyVaddr then 0
    else if pageOf v = pageOf vaddr ∧ r = n then cowEntry p e else lookup s.mem r v
  stops : ∀ r v, label r = some ⟨r, []⟩ → MeetsNoHuge s.mem r v 3 → MeetsNoHuge s'.mem r v 3
  bytes : ∀ a, label' (a / 0x1000) = none → a / 0x1000 ∉ new.map frameNo → s'.mem a = s.mem a
  copied : label' (frameOf e) = none → frameOf e ∉ new.map frameNo →
    ∀ i < 0x1000, s'.mem (0x1000 * frameNo p + i) = s.mem (0x1000 * frameOf e + i)

section Cow

omit [FrameSource σ]

theorem kernelHalf_copy : kernelHalf kernelCopyVaddr = true := by decide

theorem pageOf_ne_copy (h : kernelHalf v = false) : pageOf v ≠ pageOf kernelCopyVaddr := fun e => by
  rw [kernelHalf_congr e, kernelHalf_copy] at h
  contradiction

theorem samePage_copy : SamePage k k kernelCopyVaddr r v ↔ pageOf v = pageOf kernelCopyVaddr := by
  rw [samePage_iff]
  exact ⟨fun h => h.1.symm, fun h => ⟨h.symm, .inr kernelHalf_copy⟩⟩

theorem samePage_user (h : kernelHalf v = false) :
    SamePage k n (pageStart v) r v' ↔ pageOf v' = pageOf v ∧ r = n := by
  rw [samePage_iff, pageOf_pageStart, kernelHalf_congr pageOf_pageStart, h]
  simp only [Bool.false_eq_true, or_false]
  exact and_congr eq_comm eq_comm

theorem pageStart_copy : pageStart kernelCopyVaddr = kernelCopyVaddr := by decide

theorem Updates.later (hu : Updates k new n v e m label m' label') (h : FreshFrames label (new' ++ new)) :
    FreshFrames label' new' where
  aligned p hp := h.aligned p (List.mem_append_left _ hp)
  bound p hp := h.bound p (List.mem_append_left _ hp)
  unused p hp := by
    cases hl : label' (frameNo p) with
    | none => rfl
    | some l =>
      rcases hu.fresh _ l hl with hold | ⟨-, hmem⟩
      · rw [h.unused p (List.mem_append_left _ hp)] at hold
        contradiction
      · have hnd := h.nodup
        rw [List.map_append, List.nodup_append] at hnd
        exact absurd rfl (hnd.2.2 _ (List.mem_map_of_mem hp) _ hmem)
  nodup := h.left.nodup

theorem pagingUnmap_handed (s : Machine σ) (table v : U64) : (pagingUnmap s table v).handed = s.handed := by
  rw [pagingUnmap]
  split <;> rfl

end Cow

theorem Forest.meetsNoHuge_kernel (hf : Forest k m label) (hr : label r = some ⟨r, []⟩) (hv : kernelHalf v = true) :
    MeetsNoHuge m r v 3 ↔ MeetsNoHuge m k v 3 := by
  rw [MeetsNoHuge, MeetsNoHuge, hf.walk_samePage hr hf.kernel (samePage_iff.mpr ⟨rfl, .inr hv⟩)]

theorem cowRemap_spec (h : PagingInv k s label) (hn : label n = some ⟨n, []⟩) (huser : kernelHalf v = false)
    (hh : MeetsNoHuge s.mem n v 3) (hcopy : MeetsNoHuge s.mem k kernelCopyVaddr 3)
    (hnew : (cowRemap s (framePtr n) v).handed = new ++ s.handed) (hfresh : FreshFrames label new) :
    ∃ p label', Remapped k n v (lookup s.mem n v) p new s label (cowRemap s (framePtr n) v) label' := by
  have hk := h.forest.kernel
  obtain ⟨e, he⟩ : ∃ e, e = lookup s.mem n v := ⟨_, rfl⟩
  have hget : pagingGet s (framePtr n) (pageStart v) = e := by
    rw [pagingGet_lookup (h.forest.bound n _ hn), lookup_of_page pageOf_pageStart, he]
  obtain ⟨s₁, hs₁⟩ : ∃ s₁, s₁ = pagingMap s (framePtr k) kernelCopyVaddr (e &&& ~~~0xfff#64) 0 := ⟨_, rfl⟩
  obtain ⟨s₂, hs₂⟩ : ∃ s₂, s₂ = pagingUnmap s₁ (framePtr n) (pageStart v) := ⟨_, rfl⟩
  obtain ⟨s₃, hs₃⟩ : ∃ s₃, s₃ = vmmRequestPage s₂ (framePtr n) (pageStart v) (cowFlags e) := ⟨_, rfl⟩
  have hremap : cowRemap s (framePtr n) v = s₃ := by
    rw [cowRemap, hget, h.kernelTable, vmmRequestAt_one, hs₃, hs₂, hs₁]
  have hkeeps₁ : s.Keeps s₁ := hs₁ ▸ pagingMap_keeps s _ _ _ _
  have hkeeps₂ : s₁.Keeps s₂ := hs₂ ▸ pagingUnmap_keeps s₁ _ _
  have hkeeps₃ : s₂.Keeps s₃ := hs₃ ▸ vmmRequestPage_keeps s₂ _ _ _
  obtain ⟨new₁, hnew₁⟩ := hkeeps₁.handed
  have hhanded₂ : s₂.handed = s₁.handed := by rw [hs₂, pagingUnmap_handed]
  obtain ⟨new₃, hnew₃⟩ := hkeeps₃.handed
  obtain rfl : new = new₃ ++ new₁ := by
    refine (List.append_left_inj s.handed).mp ?_
    rw [← hnew, hremap, hnew₃, hhanded₂, hnew₁, List.append_assoc]
  -- the old frame becomes visible at the address for copies
  obtain ⟨label₁, hu₁⟩ : ∃ label₁, Updates k new₁ k kernelCopyVaddr
      ((e &&& ~~~0xfff#64) ||| (0#8).setWidth 64 ||| PAGING_PRESENT) s.mem label s₁.mem label₁ :=
    hs₁ ▸ pagingMap_spec h.forest hk hcopy (hs₁ ▸ hnew₁) hfresh.earlier
  have hinv₁ := hu₁.inv h hkeeps₁ hnew₁
  -- the page goes
  have hn₁ := hu₁.keeps n _ hn
  have hh₁ := hu₁.stops n _ hn ((meetsNoHuge_of_page pageOf_pageStart).mpr hh)
  have hu₂ := pagingUnmap_spec hinv₁.forest hn₁ hh₁
  rw [← hs₂] at hu₂
  have hinv₂ := hu₂.inv hinv₁ hkeeps₂ hhanded₂
  -- and comes back with a fresh frame
  have hself : SamePage k n (pageStart v) n (pageStart v) := (samePage_user huser).mpr ⟨pageOf_pageStart, rfl⟩
  have habsent : present (lookup s₂.mem n (pageStart v)) = false := by
    rw [hu₂.lookup n _ hn₁, if_pos hself]
    rfl
  obtain ⟨p, new₂, label₃, rfl, hu₃, hinv₃, hunused⟩ := vmmRequestPage_spec hinv₂ hn₁ (hu₂.stops n _ hn₁ hh₁) habsent
    (hs₃ ▸ hnew₃) (hu₁.later hfresh)
  rw [← hs₃] at hu₃ hinv₃
  rw [hremap, ← he]
  refine ⟨p, label₃, hinv₃, fun r l hr => hu₃.keeps r l (hu₁.keeps r l hr), ?_, by simp, hunused, ?_, ?_, ?_⟩
  · intro r l hr
    rcases hu₃.fresh r l hr with hr | ⟨hpath, hmem⟩
    · rcases hu₁.fresh r l hr with hr | ⟨hpath, hmem⟩
      · exact .inl hr
      · exact .inr ⟨hpath, by rw [List.map_append, List.mem_append]; exact .inr hmem⟩
    · exact .inr ⟨hpath, by rw [List.map_append, List.map_append, List.mem_append, List.mem_append]; exact .inl (.inl hmem)⟩
  · intro r v' hr
    have hr₁ := hu₁.keeps r _ hr
    rw [hu₃.lookup r v' hr₁, hu₂.lookup r v' hr₁, hu₁.lookup r v' hr]
    simp only [samePage_user huser, samePage_copy]
    split
    · rfl
    · rfl
  · intro r v' hr hh
    exact hu₃.stops r v' (hu₁.keeps r _ hr) (hu₂.stops r v' (hu₁.keeps r _ hr) (hu₁.stops r v' hr hh))
  · intro a ha hnew
    simp only [List.map_append, List.mem_append, not_or] at hnew
    have ha₁ : label₁ (a / 0x1000) = none := by
      cases hl : label₁ (a / 0x1000) with
      | none => rfl
      | some l =>
        rw [hu₃.keeps _ l hl] at ha
        contradiction
    rw [hu₃.bytes a ha hnew.1.1, hu₂.bytes a ha₁ List.not_mem_nil, hu₁.bytes a ha₁ hnew.2]

theorem cow_spec (h : PagingInv k s label) (hn : label n = some ⟨n, []⟩) (hroot : s.root = n)
    (huser : kernelHalf v = false) (hh : MeetsNoHuge s.mem n v 3) (hcopy : MeetsNoHuge s.mem k kernelCopyVaddr 3)
    (hp : present (lookup s.mem n v) = true) (hnew : (cowRemap s (framePtr n) v).handed = new ++ s.handed)
    (hfresh : FreshFrames label new) :
    ∃ s' p label', cowCopyOnWrite s (framePtr n) v = some (true, s') ∧ s'.handed = new ++ s.handed ∧
      s'.cr3 = s.cr3 ∧ CowDone k n v (lookup s.mem n v) p new s label s' label' := by
  obtain ⟨p, label', hr⟩ := cowRemap_spec h hn huser hh hcopy hnew hfresh
  have hkeeps := cowRemap_keeps s (framePtr n) v
  obtain ⟨e, he⟩ : ∃ e, e = lookup s.mem n v := ⟨_, rfl⟩
  obtain ⟨t, ht⟩ : ∃ t, t = cowRemap s (framePtr n) v := ⟨_, rfl⟩
  have hget : present (pagingGet s (framePtr n) (pageStart v)) = true := by
    rw [pagingGet_lookup (h.forest.bound n _ hn), lookup_of_page pageOf_pageStart, hp]
  rw [← he, ← ht] at hr
  rw [← ht] at hkeeps hnew
  have hf := hr.inv.forest
  have hn' := hr.keeps n _ hn
  have hk' := hr.keeps k _ h.forest.kernel
  have hcopy' : MeetsNoHuge t.mem k kernelCopyVaddr 3 := hr.stops k _ h.forest.kernel hcopy
  have hpage : lookup t.mem n v = cowEntry p e := by rw [hr.lookup n v hn, if_pos ⟨rfl, rfl⟩]
  have hold : lookup t.mem n kernelCopyVaddr = (e &&& ~~~0xfff#64) ||| (0#8).setWidth 64 ||| PAGING_PRESENT := by
    rw [hr.lookup n _ hn, if_neg fun hc => pageOf_ne_copy huser hc.1.symm, if_pos rfl]
  -- the copy writes the new frame, and no table
  have hcopied := copyVirtual_eq hf hn' hr.unused (hr.stops n _ hn hh)
    ((hf.meetsNoHuge_kernel hn' kernelHalf_copy).mpr hcopy') (by rw [hpage]; exact present_leaf)
    (by rw [hold]; exact present_leaf) (by rw [hpage, cowEntry, frameOf_leaf, frameOf_frameNo (hfresh.bound p hr.page)])
    (Nat.le_refl 0x1000)
  rw [pageStart_copy, hold, frameOf_leaf, frameOf_and_not_fff] at hcopied
  obtain ⟨m, hm⟩ : ∃ m, m = memcpy t.mem (0x1000 * frameNo p) (0x1000 * frameOf e) 0x1000 := ⟨_, rfl⟩
  have hbytes : ∀ a, a / 0x1000 ≠ frameNo p → m a = t.mem a := fun a ha => by
    rw [hm, memcpy_outside (by omega)]
  have hread := tableRead_outside hr.unused hbytes
  have hinv : PagingInv k { t with mem := m } label' := ⟨hf.congr hread, hr.inv.kernelTable, hr.inv.handed⟩
  have hu := pagingUnmap_spec (s := { t with mem := m }) hinv.forest hk' ((hf.meetsNoHuge_congr hk' hread).mpr hcopy')
  obtain ⟨s', hs'⟩ : ∃ s', s' = pagingUnmap { t with mem := m } (framePtr k) kernelCopyVaddr := ⟨_, rfl⟩
  have hlast : Machine.Keeps { t with mem := m } s' := hs' ▸ pagingUnmap_keeps _ _ _
  have hhanded : s'.handed = t.handed := by rw [hs', pagingUnmap_handed]
  have hcall : cowCopyOnWrite s (framePtr n) v = some (true, s') := by
    have hkernel : t.kernelTable = framePtr k := hr.inv.kernelTable
    have hroot' : t.root = n := by rw [← hroot, Machine.root, Machine.root, hkeeps.cr3]
    rw [cowCopyOnWrite_present hget, ← ht, hroot', hcopied, hkernel, Option.map_some, hs', hm]
  rw [← hs'] at hu
  refine ⟨s', p, label', hcall, hhanded.trans hnew, hlast.cr3.trans hkeeps.cr3, hu.inv hinv hlast hhanded, hr.keeps,
    hr.fresh, hr.page, hr.unused, ?_, ?_, ?_, ?_⟩
  · intro r v' hroot
    have hroot' := hr.keeps r _ hroot
    rw [hu.lookup r v' hroot', if_congr samePage_copy rfl rfl]
    split
    next => rfl
    next hne =>
      have hlookup : lookup m r v' = lookup t.mem r v' := hf.lookup_congr hroot' hread
      rw [← he, hlookup, hr.lookup r v' hroot, if_neg hne]
  · intro r v' hroot hh'
    have hroot' := hr.keeps r _ hroot
    exact hu.stops r v' hroot' ((hf.meetsNoHuge_congr hroot' hread).mpr (hr.stops r v' hroot hh'))
  · intro a ha hout
    have hap : a / 0x1000 ≠ frameNo p := fun e => hout (e ▸ List.mem_map_of_mem hr.page)
    rw [hu.bytes a ha List.not_mem_nil]
    exact (hbytes a hap).trans (hr.bytes a ha hout)
  · intro hunlabelled hout i hi
    rw [← he] at hunlabelled hout ⊢
    have hne : frameOf e ≠ frameNo p := fun h => hout (h ▸ List.mem_map_of_mem hr.page)
    have hdiv : ∀ f, (0x1000 * f + i) / 0x1000 = f := fun f => by omega
    rw [hu.bytes _ (by rw [hdiv]; exact hr.unused) List.not_mem_nil]
    change m _ = _
    rw [hm, memcpy_apply (by omega), if_pos (by omega), Nat.add_sub_cancel_left]
    exact hr.bytes _ (by rwa [hdiv]) (by rwa [hdiv])

end ShedOS.Memory
