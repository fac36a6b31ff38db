import ShedOS.Memory.Accesses
import ShedOS.Memory.Backing

/-!
# Running out of frames

`pmm_request_pages` answers NULL when no frame is left, and none of its callers
here looks at the answer. What a call owes its caller, and that it keeps it
exactly as long as no answer is NULL.
-/

namespace ShedOS.Memory

open Bytes Loops

structure Entry where
  table : U64
  index : Nat
  value : U64

/-- The links and leaves of a call, but for the leaves whose address is `given`
a page by the caller. -/
def created (given : U64 → Option U64) (log : List Access) : List Entry :=
  log.filterMap fun
    | .link table i e => some ⟨table, i, e⟩
    | .leaf v table i e => if present e && (given v).isNone then some ⟨table, i, e⟩ else none
    | _ => none

/-- Every entry refers to a frame that was handed out for it, or to the page
that was given for its address. -/
structure Grounded (given : U64 → Option U64) (log : List Access) : Prop where
  frames : ∀ x ∈ created given log, ∃ p ∈ requests log, p ≠ 0 ∧ pageStart x.value = p
  own : ∀ x ∈ created given log, ∀ y ∈ created given log, pageStart x.value = pageStart y.value →
    x.table = y.table ∧ x.index = y.index
  arguments : ∀ v table i e paddr, .leaf v table i e ∈ log → present e = true → given v = some paddr →
    pageStart e = pageStart paddr

variable {σ : Type} {s s' t : Machine σ} {label label' : Labels} {log log' : List Access}
  {given : U64 → Option U64} {v vaddr vmap table paddr p w : U64} {flags : BitVec 8} {k n i level : Nat}

def Written (s s' : Machine σ) : Prop :=
  ∀ a, s'.mem a ≠ s.mem a → ∃ p ∈ s'.handed, p ≠ 0 ∧ frameNo p = a / 0x1000

structure Sound (given : U64 → Option U64) (log : List Access) (s s' : Machine σ) : Prop where
  grounded : Grounded given log
  written : Written s s'

structure KeepsPage (s s' : Machine σ) (vmap vaddr : U64) : Prop where
  entry : pagingGet s' vmap vaddr = pagingGet s vmap vaddr
  contents : ∀ i < 0x1000, s'.mem (0x1000 * frameOf (pagingGet s vmap vaddr) + i) =
    s.mem (0x1000 * frameOf (pagingGet s vmap vaddr) + i)

/-- The page that `cow_copy_on_write` shows at the address for copies. -/
def cowGiven (s : Machine σ) (vmap vaddr : U64) : U64 → Option U64 :=
  fun v => if v = kernelCopyVaddr then some (pagingGet s vmap vaddr &&& ~~~0xfff#64) else none

def CowSound [FrameSource σ] (s : Machine σ) (vmap vaddr : U64) : Prop :=
  ∃ b s', cowCopyOnWrite s vmap vaddr = some (b, s') ∧
    Sound (cowGiven s vmap vaddr) (cowAccesses s vmap vaddr) s s' ∧
    (0 ∈ requests (cowAccesses s vmap vaddr) → KeepsPage s s' vmap vaddr)

/-- What is left of the promise of `pmm_request_pages`: the answers other than
NULL are pages within reach of the direct map, and none is given twice. -/
def Granted (s : Machine σ) (log : List Access) : Prop :=
  DistinctFrames (((requests log).reverse ++ s.handed).filter (· ≠ 0))

-- ---------------------------------------------------------------------------
-- Requests and entries
-- ---------------------------------------------------------------------------

/-- Each entry refers to an answer, each answer to an entry. -/
structure Serves (given : U64 → Option U64) (log : List Access) : Prop where
  frames : ∀ x ∈ created given log, ∃ p ∈ requests log, pageStart x.value = p
  used : ∀ p ∈ requests log, ∃ x ∈ created given log, pageStart x.value = p
  own : (requests log).Nodup → ∀ x ∈ created given log, ∀ y ∈ created given log,
    pageStart x.value = pageStart y.value → x.table = y.table ∧ x.index = y.index

theorem created_append : created given (log ++ log') = created given log ++ created given log' :=
  List.filterMap_append

theorem Serves.append (h : Serves given log) (h' : Serves given log') : Serves given (log ++ log') where
  frames x hx := by
    rw [created_append, List.mem_append] at hx
    rw [requests_append]
    rcases hx with hx | hx
    · obtain ⟨p, hp, he⟩ := h.frames x hx
      exact ⟨p, List.mem_append_left _ hp, he⟩
    · obtain ⟨p, hp, he⟩ := h'.frames x hx
      exact ⟨p, List.mem_append_right _ hp, he⟩
  used p hp := by
    rw [created_append]
    rw [requests_append, List.mem_append] at hp
    rcases hp with hp | hp
    · obtain ⟨x, hx, he⟩ := h.used p hp
      exact ⟨x, List.mem_append_left _ hx, he⟩
    · obtain ⟨x, hx, he⟩ := h'.used p hp
      exact ⟨x, List.mem_append_right _ hx, he⟩
  own hnd x hx y hy he := by
    rw [requests_append, List.nodup_append] at hnd
    obtain ⟨hnd₁, hnd₂, hne⟩ := hnd
    rw [created_append, List.mem_append] at hx hy
    rcases hx with hx | hx
    · rcases hy with hy | hy
      · exact h.own hnd₁ x hx y hy he
      · obtain ⟨p, hp, hxp⟩ := h.frames x hx
        obtain ⟨q, hq, hyq⟩ := h'.frames y hy
        exact absurd (hxp.symm.trans (he.trans hyq)) (hne p hp q hq)
    · rcases hy with hy | hy
      · obtain ⟨p, hp, hyp⟩ := h.frames y hy
        obtain ⟨q, hq, hxq⟩ := h'.frames x hx
        exact absurd (hyp.symm.trans (he.symm.trans hxq)) (hne p hp q hq)
      · exact h'.own hnd₂ x hx y hy he

theorem serves_nil (hr : requests log = []) (hc : created given log = []) : Serves given log := by
  refine ⟨fun x hx => ?_, fun p hp => ?_, fun _ x hx => ?_⟩
  · rw [hc] at hx
    cases hx
  · rw [hr] at hp
    cases hp
  · rw [hc] at hx
    cases hx

theorem serves_single (p table : U64) (i : Nat) (hr : requests log = [p]) (hne : created given log ≠ [])
    (hc : ∀ x ∈ created given log, pageStart x.value = p ∧ x.table = table ∧ x.index = i) : Serves given log where
  frames x hx := ⟨p, by rw [hr]; exact List.mem_singleton.mpr rfl, (hc x hx).1⟩
  used q hq := by
    rw [hr, List.mem_singleton] at hq
    obtain ⟨x, hx⟩ := List.exists_mem_of_ne_nil _ hne
    exact ⟨x, hx, hq ▸ (hc x hx).1⟩
  own _ x hx y hy _ := ⟨(hc x hx).2.1.trans (hc y hy).2.1.symm, (hc x hx).2.2.trans (hc y hy).2.2.symm⟩

theorem Serves.perm (h : Serves given log) (hperm : log.Perm log') : Serves given log' := by
  have hc := (hperm.filterMap _ : (created given log).Perm (created given log'))
  have hr := (hperm.filterMap _ : (requests log).Perm (requests log'))
  refine ⟨fun x hx => ?_, fun p hp => ?_, fun hnd x hx y hy => ?_⟩
  · obtain ⟨p, hp, he⟩ := h.frames x (hc.mem_iff.mpr hx)
    exact ⟨p, hr.mem_iff.mp hp, he⟩
  · obtain ⟨x, hx, he⟩ := h.used p (hr.mem_iff.mpr hp)
    exact ⟨x, hc.mem_iff.mp hx, he⟩
  · exact h.own (hr.nodup_iff.mpr hnd) x (hc.mem_iff.mpr hx) y (hc.mem_iff.mpr hy)

theorem pageStart_or (hw : w.toNat < 0x1000) : pageStart (p ||| w) = pageStart p := by
  have hdiv : (p ||| w).toNat / 0x1000 = p.toNat / 0x1000 := by
    rw [BitVec.toNat_or, show 0x1000 = 2 ^ 12 by rfl, ← Nat.shiftRight_eq_div_pow, Nat.shiftRight_or_distrib,
      Nat.shiftRight_eq_div_pow w.toNat, Nat.div_eq_of_lt hw, Nat.or_zero, Nat.shiftRight_eq_div_pow]
  rw [pageStart, pageStart, and_not_fff, and_not_fff, hdiv]

theorem pageStart_aligned (hp : p.toNat % 0x1000 = 0) : pageStart p = p := by
  rw [pageStart, and_not_fff]
  exact (eq_frame_of_aligned hp).symm

theorem pageStart_or_low (hp : p.toNat % 0x1000 = 0) (hw : w.toNat < 0x1000) : pageStart (p ||| w) = p :=
  (pageStart_or hw).trans (pageStart_aligned hp)

theorem pageStart_leaf : pageStart (p ||| flags.setWidth 64 ||| PAGING_PRESENT) = pageStart p := by
  rw [BitVec.or_assoc, pageStart_or (toNat_flags flags)]

theorem serves_createTable (hp : p.toNat % 0x1000 = 0) : Serves given (createTableAccesses p table vaddr i) := by
  refine serves_single p table i (requests_createTable p table vaddr i) ?_ fun x hx => ?_
  · unfold createTableAccesses created
    simp
  · unfold createTableAccesses at hx
    simp only [addrOffsetLower_higher] at hx
    have hlow := pageStart_or_low hp (w := PAGING_PRESENT) (by decide)
    have hlow' := pageStart_or_low hp (w := PAGING_PRESENT ||| (PAGING_WRITABLE ||| PAGING_USER)) (by decide)
    rw [← BitVec.or_assoc] at hlow'
    split at hx
    · simp only [created, List.cons_append, List.nil_append, List.filterMap_cons, List.filterMap_nil,
        List.mem_cons, List.not_mem_nil, or_false] at hx
      rcases hx with rfl | rfl
      · exact ⟨hlow, rfl, rfl⟩
      · exact ⟨hlow', rfl, rfl⟩
    · simp only [created, List.append_nil, List.filterMap_cons, List.filterMap_nil, List.mem_singleton] at hx
      subst hx
      exact ⟨hlow, rfl, rfl⟩

variable [FrameSource σ]

theorem serves_mapWalk : ∀ {level : Nat} {s : Machine σ} {table : U64},
    (∀ p ∈ requests (mapWalkAccesses vaddr level s table), p.toNat % 0x1000 = 0) →
    Serves given (mapWalkAccesses vaddr level s table)
  | 0, _, _, _ => serves_nil rfl rfl
  | level + 1, s, table, halign => by
    rw [mapWalkAccesses] at halign ⊢
    cases hp : present (s.entry table (vaddrToIndex vaddr (level + 1))) with
    | true =>
      simp only [hp, Bool.not_true, Bool.false_eq_true, if_false] at halign ⊢
      exact serves_mapWalk halign
    | false =>
      simp only [hp, Bool.not_false, if_true, requests_append, requests_createTable] at halign ⊢
      exact (serves_createTable (halign _ (by simp))).append
        (serves_mapWalk fun p hp => halign p (List.mem_append_right _ hp))

theorem serves_pagingMap (halign : ∀ p ∈ requests (pagingMapAccesses s table vaddr paddr flags), p.toNat % 0x1000 = 0)
    (hpage : given vaddr = some paddr) : Serves given (pagingMapAccesses s table vaddr paddr flags) := by
  rw [requests_pagingMap] at halign
  rw [pagingMapAccesses]
  refine (serves_mapWalk halign).append (serves_nil rfl ?_)
  simp [created, hpage]

theorem serves_vmmPage (halign : ∀ p ∈ requests (vmmPageAccesses s table vaddr flags), p.toNat % 0x1000 = 0)
    (hpage : given vaddr = none) : Serves given (vmmPageAccesses s table vaddr flags) := by
  rw [vmmPageAccesses] at halign ⊢
  simp only at halign ⊢
  split
  · exact serves_nil rfl rfl
  next habsent =>
    rw [if_neg habsent] at halign
    obtain ⟨p, hp⟩ : ∃ p, p = (s.requestPages 1).1 := ⟨_, rfl⟩
    obtain ⟨t, ht⟩ : ∃ t, t = (s.requestPages 1).2 := ⟨_, rfl⟩
    rw [← hp, ← ht] at halign ⊢
    rw [requests_request, requests_pagingMap] at halign
    have hwalk : Serves given (mapWalkAccesses vaddr 3 t table) := serves_mapWalk fun q hq =>
      halign q (List.mem_cons_of_mem p hq)
    have hleaf : ∀ table i, Serves given [.request p, .leaf vaddr table i (p ||| flags.setWidth 64 ||| PAGING_PRESENT),
        .flush vaddr] := by
      intro table i
      refine serves_single p table i rfl ?_ ?_
      · simp [created, hpage, present_leaf]
      · simp only [created, List.filterMap_cons, List.filterMap_nil, present_leaf, hpage, Option.isNone_none,
          Bool.and_self, if_true, List.mem_singleton]
        rintro x rfl
        exact ⟨pageStart_leaf.trans (pageStart_aligned (halign p List.mem_cons_self)), rfl, rfl⟩
    have hall := hwalk.append (hleaf (pagingMapWalk vaddr 3 t table).2 (vaddrToIndex vaddr 0))
    refine hall.perm ?_
    rw [pagingMapAccesses]
    exact List.perm_middle


theorem leaf_not_mem_mapWalk {w : U64} : ∀ (level : Nat) (s : Machine σ) (table : U64) (t : U64) (i : Nat) (e : U64),
    .leaf w t i e ∉ mapWalkAccesses vaddr level s table
  | 0, _, _, _, _, _ => List.not_mem_nil
  | level + 1, s, table, t, i, e => by
    rw [mapWalkAccesses]
    split
    · rw [List.mem_append, not_or]
      refine ⟨?_, leaf_not_mem_mapWalk level _ _ t i e⟩
      unfold createTableAccesses
      simp only
      split <;> simp
    · exact leaf_not_mem_mapWalk level _ _ t i e

theorem leaf_pagingMap {w t : U64} {j : Nat} {e : U64}
    (h : .leaf w t j e ∈ pagingMapAccesses s table vaddr paddr flags) : w = vaddr ∧ pageStart e = pageStart paddr := by
  rw [pagingMapAccesses, List.mem_append] at h
  rcases h with h | h
  · exact absurd h (leaf_not_mem_mapWalk 3 s table t j e)
  · simp only [List.mem_cons, Access.leaf.injEq, List.not_mem_nil, or_false, reduceCtorEq] at h
    obtain ⟨rfl, -, -, rfl⟩ := h
    exact ⟨rfl, pageStart_leaf⟩

omit [FrameSource σ] in
theorem leaf_pagingUnmap {w t : U64} {j : Nat} {e : U64} (h : .leaf w t j e ∈ pagingUnmapAccesses s table vaddr) :
    e = 0 := by
  unfold pagingUnmapAccesses at h
  split at h
  · cases h
  · simp only [List.mem_cons, Access.leaf.injEq, List.not_mem_nil, or_false, reduceCtorEq] at h
    exact h.2.2.2

omit [FrameSource σ] in
theorem serves_pagingUnmap : Serves given (pagingUnmapAccesses s table vaddr) := by
  refine serves_nil (requests_pagingUnmap s table vaddr) ?_
  unfold pagingUnmapAccesses
  split
  · rfl
  · simp [created]

theorem serves_vmm : ∀ {n : Nat},
    (∀ p ∈ requests (vmmAccesses s table vaddr flags n), p.toNat % 0x1000 = 0) →
    (∀ i < n, given (vaddr + BitVec.ofNat 64 (i * 0x1000)) = none) →
    Serves given (vmmAccesses s table vaddr flags n)
  | 0, _, _ => serves_nil rfl rfl
  | n + 1, halign, hpage => by
    rw [vmmAccesses] at halign ⊢
    rw [requests_append] at halign
    exact (serves_vmm (fun p hp => halign p (List.mem_append_left _ hp)) fun i hi => hpage i (Nat.lt_succ_of_lt hi)).append
      (serves_vmmPage (fun p hp => halign p (List.mem_append_right _ hp)) (hpage n (Nat.lt_succ_self n)))

theorem leaf_vmm {w t : U64} {j : Nat} {e : U64} : ∀ {n : Nat}, .leaf w t j e ∈ vmmAccesses s table vaddr flags n →
    ∃ i < n, w = vaddr + BitVec.ofNat 64 (i * 0x1000)
  | 0, h => by cases h
  | n + 1, h => by
    rw [vmmAccesses, List.mem_append] at h
    rcases h with h | h
    · obtain ⟨i, hi, hw⟩ := leaf_vmm h
      exact ⟨i, Nat.lt_succ_of_lt hi, hw⟩
    · rw [vmmPageAccesses] at h
      simp only at h
      split at h
      · cases h
      · rw [List.mem_cons] at h
        exact ⟨n, Nat.lt_succ_self n, (leaf_pagingMap (h.resolve_left (by simp))).1⟩

-- ---------------------------------------------------------------------------
-- Answers
-- ---------------------------------------------------------------------------

section Answers

omit [FrameSource σ]

theorem DistinctFrames.suffix {l l' : List U64} (h : DistinctFrames (l ++ l')) : DistinctFrames l' where
  aligned p hp := h.aligned p (List.mem_append_right _ hp)
  bound p hp := h.bound p (List.mem_append_right _ hp)
  nodup := by
    have hnd := h.nodup
    rw [List.map_append, List.nodup_append] at hnd
    exact hnd.2.1

theorem Granted.prior (h : Granted s (log ++ log')) : Granted s log := by
  rw [Granted, requests_append, List.reverse_append, List.append_assoc, List.filter_append] at h
  exact h.suffix

theorem Granted.rest (h : Granted s (log ++ log')) (ht : t.handed = (requests log).reverse ++ s.handed) :
    Granted t log' := by
  rw [Granted, requests_append, List.reverse_append, List.append_assoc, ← ht] at h
  exact h

theorem Granted.aligned (h : Granted s log) (hp : p ∈ requests log) : p.toNat % 0x1000 = 0 := by
  by_cases h0 : p = 0
  · rw [h0]
    rfl
  · exact DistinctFrames.aligned h p (List.mem_filter.mpr ⟨by simp [hp], decide_eq_true h0⟩)

theorem Granted.fresh (h : Granted s log) (hinv : PagingInv k s label) (hnull : label 0 = none)
    (h0 : 0 ∉ requests log) : FreshFrames label (requests log).reverse ∧ (requests log).Nodup := by
  have hfilter : (requests log).reverse.filter (· ≠ 0) = (requests log).reverse :=
    List.filter_eq_self.mpr fun p hp => decide_eq_true fun e => h0 (e ▸ List.mem_reverse.mp hp)
  rw [Granted, List.filter_append, hfilter] at h
  have hnd := h.nodup
  rw [List.map_append, List.nodup_append] at hnd
  refine ⟨⟨fun p hp => h.aligned p (List.mem_append_left _ hp), fun p hp => h.bound p (List.mem_append_left _ hp),
    fun p hp => ?_, hnd.1⟩, List.nodup_reverse.mp (List.Nodup.of_map _ hnd.1)⟩
  cases hl : label (frameNo p) with
  | none => rfl
  | some l =>
    obtain ⟨q, hq, he⟩ := List.mem_map.mp (hinv.handed _ l hl)
    have hq0 : q ≠ 0 := by
      rintro rfl
      rw [← he, show frameNo 0 = 0 by rfl, hnull] at hl
      contradiction
    exact absurd he.symm (hnd.2.2 _ (List.mem_map_of_mem hp) _
      (List.mem_map_of_mem (List.mem_filter.mpr ⟨hq, decide_eq_true hq0⟩)))

theorem Serves.grounded (h : Serves given log) (h0 : 0 ∉ requests log) (hnd : (requests log).Nodup)
    (harg : ∀ v table i e paddr, .leaf v table i e ∈ log → present e = true → given v = some paddr →
      pageStart e = pageStart paddr) : Grounded given log where
  frames x hx := by
    obtain ⟨p, hp, he⟩ := h.frames x hx
    exact ⟨p, hp, fun e => h0 (e ▸ hp), he⟩
  own := h.own hnd
  arguments := harg

/-- The entry that takes a NULL for a frame is not grounded. -/
theorem Serves.null_free (h : Serves given log) (hg : Grounded given log) : 0 ∉ requests log := by
  intro h0
  obtain ⟨x, hx, he⟩ := h.used 0 h0
  obtain ⟨p, -, hp, he'⟩ := hg.frames x hx
  exact hp (he'.symm.trans he)

-- ---------------------------------------------------------------------------
-- Bytes
-- ---------------------------------------------------------------------------

theorem Written.refl (s : Machine σ) : Written s s := fun _ h => absurd rfl h

theorem Written.trans (h : Written s t) (h' : Written t s') (hhanded : ∀ p ∈ t.handed, p ∈ s'.handed) : Written s s' := by
  intro a ha
  by_cases hst : t.mem a = s.mem a
  · exact h' a (by rwa [hst])
  · obtain ⟨p, hp, h0, hno⟩ := h a hst
    exact ⟨p, hhanded p hp, h0, hno⟩

theorem null_unlabelled {new : List U64} (hnull : label 0 = none) (hfresh : FreshFrames label new) (h0 : 0 ∉ new)
    (h : ∀ n l, label' n = some l → label n = some l ∨ (l.path ≠ [] ∧ n ∈ new.map frameNo)) : label' 0 = none := by
  cases hl : label' 0 with
  | none => rfl
  | some l =>
    rcases h 0 l hl with hold | ⟨-, hmem⟩
    · rw [hnull] at hold
      contradiction
    · obtain ⟨p, hp, he⟩ := List.mem_map.mp hmem
      have hzero := eq_frame_of_aligned (hfresh.aligned p hp)
      rw [he] at hzero
      have hzero : p = 0 := hzero
      exact absurd (hzero ▸ hp) h0

theorem written_of_inv {new : List U64} (hinv : PagingInv k s' label') (hnull : label' 0 = none)
    (hnew : ∀ p ∈ new, p ∈ s'.handed ∧ p ≠ 0)
    (hbytes : ∀ a, label' (a / 0x1000) = none → a / 0x1000 ∉ new.map frameNo → s'.mem a = s.mem a) : Written s s' := by
  intro a ha
  cases hl : label' (a / 0x1000) with
  | none =>
    by_cases hmem : a / 0x1000 ∈ new.map frameNo
    · obtain ⟨p, hp, he⟩ := List.mem_map.mp hmem
      exact ⟨p, (hnew p hp).1, (hnew p hp).2, he⟩
    · exact absurd (hbytes a hl hmem) ha
  | some l =>
    obtain ⟨p, hp, he⟩ := List.mem_map.mp (hinv.handed _ l hl)
    refine ⟨p, hp, ?_, he⟩
    rintro rfl
    rw [← he, show frameNo 0 = 0 by rfl, hnull] at hl
    contradiction

end Answers

-- ---------------------------------------------------------------------------
-- The calls
-- ---------------------------------------------------------------------------

section Calls

variable (h : PagingInv k s label) (hnull : label 0 = none) (hn : label n = some ⟨n, []⟩)

include h hnull hn

theorem pagingMap_written (hh : MeetsNoHuge s.mem n vaddr 3)
    (hg : Granted s (pagingMapAccesses s (framePtr n) vaddr paddr flags))
    (h0 : 0 ∉ requests (pagingMapAccesses s (framePtr n) vaddr paddr flags)) :
    Written s (pagingMap s (framePtr n) vaddr paddr flags) := by
  obtain ⟨hfresh, -⟩ := hg.fresh h hnull h0
  have hnew := handed_pagingMap s (framePtr n) vaddr paddr flags
  obtain ⟨label', hu⟩ := pagingMap_spec h.forest hn hh hnew hfresh
  refine written_of_inv (hu.inv h (pagingMap_keeps _ _ _ _ _) hnew)
    (null_unlabelled hnull hfresh (fun hmem => h0 (List.mem_reverse.mp hmem)) hu.fresh) (fun p hp => ⟨?_, ?_⟩) hu.bytes
  · rw [hnew]
    exact List.mem_append_left _ hp
  · rintro rfl
    exact h0 (List.mem_reverse.mp hp)

theorem vmmPage_written (hg : Granted s (vmmPageAccesses s (framePtr n) vaddr flags))
    (h0 : 0 ∉ requests (vmmPageAccesses s (framePtr n) vaddr flags)) :
    ∃ label', PagingInv k (vmmRequestPage s (framePtr n) vaddr flags) label' ∧ label' 0 = none ∧
      label' n = some ⟨n, []⟩ ∧ Written s (vmmRequestPage s (framePtr n) vaddr flags) := by
  cases hp : present (lookup s.mem n vaddr) with
  | true =>
    have hsame : vmmRequestPage s (framePtr n) vaddr flags = s := by
      rw [vmmRequestPage, pagingGet_lookup (h.forest.bound n _ hn)]
      simp only [hp, if_true]
    rw [hsame]
    exact ⟨label, h, hnull, hn, .refl s⟩
  | false =>
    obtain ⟨hfresh, -⟩ := hg.fresh h hnull h0
    have hnew := handed_vmmPage s (framePtr n) vaddr flags
    have h0' : 0 ∉ (requests (vmmPageAccesses s (framePtr n) vaddr flags)).reverse := fun hmem =>
      h0 (List.mem_reverse.mp hmem)
    obtain ⟨p, new', label', hsplit, hu, hinv, -⟩ := vmmRequestPage_spec h hn
      (meetsNoHuge_of_absent hp) hp hnew hfresh
    rw [hsplit] at hfresh h0' hnew
    have hnull' := null_unlabelled hnull hfresh.left (fun hmem => h0' (List.mem_append_left _ hmem)) hu.fresh
    refine ⟨label', hinv, hnull', hu.keeps n _ hn, written_of_inv hinv hnull' (fun q hq => ⟨?_, ?_⟩) hu.bytes⟩
    · rw [hnew]
      exact List.mem_append_left _ (List.mem_append_left _ hq)
    · rintro rfl
      exact h0' (List.mem_append_left _ hq)

theorem vmm_written : ∀ {count : Nat}, Granted s (vmmAccesses s (framePtr n) vaddr flags count) →
    0 ∉ requests (vmmAccesses s (framePtr n) vaddr flags count) →
    ∃ label', PagingInv k (vmmRequestAt s (framePtr n) vaddr count flags) label' ∧ label' 0 = none ∧
      label' n = some ⟨n, []⟩ ∧ Written s (vmmRequestAt s (framePtr n) vaddr count flags) := by
  intro count
  induction count with
  | zero => exact fun _ _ => ⟨label, h, hnull, hn, .refl s⟩
  | succ count ih =>
    intro hg h0
    rw [vmmAccesses] at hg h0
    rw [requests_append, List.mem_append, not_or] at h0
    obtain ⟨label₁, h₁, hnull₁, hn₁, hw₁⟩ := ih hg.prior h0.1
    obtain ⟨label₂, h₂, hnull₂, hn₂, hw₂⟩ := vmmPage_written h₁ hnull₁ hn₁ (hg.rest (handed_vmm _ _ _ _ _)) h0.2
    refine ⟨label₂, h₂, hnull₂, hn₂, hw₁.trans hw₂ fun p hp => ?_⟩
    obtain ⟨new, hnew⟩ := (vmmRequestPage_keeps (vmmRequestAt s (framePtr n) vaddr count flags) (framePtr n)
      (vaddr + BitVec.ofNat 64 (count * 0x1000)) flags).handed
    exact hnew ▸ List.mem_append_right _ hp

end Calls

-- ---------------------------------------------------------------------------
-- cow_copy_on_write
-- ---------------------------------------------------------------------------

section Cow

variable (hget : pagingGet s vmap (pageStart vaddr) = pagingGet s vmap vaddr)

include hget

theorem cowAccesses_present (hp : present (pagingGet s vmap vaddr) = true) :
    ∃ last, cowAccesses s vmap vaddr = cowRemapAccesses s vmap vaddr ++ last ∧ Serves given last ∧
      requests last = [] ∧ ∀ v t i e, .leaf v t i e ∈ last → e = 0 := by
  rw [cowAccesses, hget, hp]
  simp only [Bool.not_true, Bool.false_eq_true, if_false]
  split
  · exact ⟨[], rfl, serves_nil rfl rfl, rfl, fun _ _ _ _ h => by cases h⟩
  · exact ⟨_, rfl, serves_pagingUnmap, requests_pagingUnmap _ _ _, fun _ _ _ _ h => leaf_pagingUnmap h⟩

theorem cowAccesses_absent (hp : present (pagingGet s vmap vaddr) = false) : cowAccesses s vmap vaddr = [] := by
  rw [cowAccesses, hget, hp]
  rfl

theorem serves_cowRemap (hne : pageStart vaddr ≠ kernelCopyVaddr)
    (halign : ∀ p ∈ requests (cowRemapAccesses s vmap vaddr), p.toNat % 0x1000 = 0) :
    Serves (cowGiven s vmap vaddr) (cowRemapAccesses s vmap vaddr) := by
  unfold cowRemapAccesses at halign ⊢
  simp only [requests_append, List.mem_append] at halign ⊢
  refine (serves_pagingMap (fun p hp => halign p (.inl hp)) ?_).append (serves_pagingUnmap.append
    (serves_vmm (fun p hp => halign p (.inr (.inr hp))) fun i hi => ?_))
  · rw [cowGiven, if_pos rfl, hget]
  · obtain rfl := Nat.lt_one_iff.mp hi
    rw [cowGiven, Nat.zero_mul, show pageStart vaddr + BitVec.ofNat 64 0 = pageStart vaddr from BitVec.add_zero _,
      if_neg hne]

theorem arguments_cowRemap (hne : pageStart vaddr ≠ kernelCopyVaddr) {w t e paddr : U64} {j : Nat}
    (h : .leaf w t j e ∈ cowRemapAccesses s vmap vaddr) (hp : present e = true)
    (hpage : cowGiven s vmap vaddr w = some paddr) : pageStart e = pageStart paddr := by
  unfold cowRemapAccesses at h
  simp only [List.mem_append] at h
  rcases h with h | h | h
  · obtain ⟨rfl, he⟩ := leaf_pagingMap h
    rw [cowGiven, if_pos rfl, ← hget] at hpage
    rw [he, ← Option.some.inj hpage]
  · rw [leaf_pagingUnmap h] at hp
    contradiction
  · obtain ⟨i, hi, rfl⟩ := leaf_vmm h
    obtain rfl := Nat.lt_one_iff.mp hi
    rw [cowGiven, Nat.zero_mul, show pageStart vaddr + BitVec.ofNat 64 0 = pageStart vaddr from BitVec.add_zero _,
      if_neg hne] at hpage
    cases hpage

end Cow

omit [FrameSource σ] in
theorem pagingGet_pageStart (h : PagingInv k s label) (hn : label n = some ⟨n, []⟩) :
    pagingGet s (framePtr n) (pageStart vaddr) = pagingGet s (framePtr n) vaddr := by
  rw [pagingGet_lookup (h.forest.bound n _ hn), pagingGet_lookup (h.forest.bound n _ hn), lookup_of_page pageOf_pageStart]

theorem pageStart_ne_copy (huser : kernelHalf vaddr = false) : pageStart vaddr ≠ kernelCopyVaddr := fun he =>
  pageOf_ne_copy huser (by rw [← he, pageOf_pageStart])

section CowCall

variable (h : PagingInv k s label) (hn : label n = some ⟨n, []⟩) (huser : kernelHalf vaddr = false)
  (hg : Granted s (cowAccesses s (framePtr n) vaddr))

include h hn huser hg

theorem cow_serves (hp : present (pagingGet s (framePtr n) vaddr) = true) :
    Serves (cowGiven s (framePtr n) vaddr) (cowAccesses s (framePtr n) vaddr) ∧
      ∀ v t i e paddr, .leaf v t i e ∈ cowAccesses s (framePtr n) vaddr → present e = true →
        cowGiven s (framePtr n) vaddr v = some paddr → pageStart e = pageStart paddr := by
  have hget : pagingGet s (framePtr n) (pageStart vaddr) = pagingGet s (framePtr n) vaddr := pagingGet_pageStart h hn
  have hne := pageStart_ne_copy huser
  obtain ⟨last, heq, hlast, -, hzero⟩ : ∃ last, cowAccesses s (framePtr n) vaddr =
      cowRemapAccesses s (framePtr n) vaddr ++ last ∧ Serves (cowGiven s (framePtr n) vaddr) last ∧
      requests last = [] ∧ ∀ v t i e, .leaf v t i e ∈ last → e = 0 := cowAccesses_present hget hp
  have halign : ∀ p ∈ requests (cowRemapAccesses s (framePtr n) vaddr), p.toNat % 0x1000 = 0 := fun p hp =>
    hg.aligned (by rw [heq, requests_append]; exact List.mem_append_left _ hp)
  have hserves := (serves_cowRemap hget hne halign).append hlast
  rw [← heq] at hserves
  refine ⟨hserves, fun v t i e paddr hmem hpe hpage => ?_⟩
  rw [heq, List.mem_append] at hmem
  rcases hmem with hmem | hmem
  · exact arguments_cowRemap hget hne hmem hpe hpage
  · rw [hzero v t i e hmem] at hpe
    contradiction

theorem cow_null_free (hs : CowSound s (framePtr n) vaddr) : 0 ∉ requests (cowAccesses s (framePtr n) vaddr) := by
  obtain ⟨b, s', -, hsound, -⟩ := hs
  cases hp : present (pagingGet s (framePtr n) vaddr) with
  | false =>
    rw [cowAccesses_absent (pagingGet_pageStart h hn) hp]
    exact List.not_mem_nil
  | true => exact (cow_serves h hn huser hg hp).1.null_free hsound.grounded

theorem cow_sound (hnull : label 0 = none) (hroot : s.root = n) (hh : MeetsNoHuge s.mem n vaddr 3)
    (hcopy : MeetsNoHuge s.mem k kernelCopyVaddr 3) (h0 : 0 ∉ requests (cowAccesses s (framePtr n) vaddr)) :
    CowSound s (framePtr n) vaddr := by
  have hget : pagingGet s (framePtr n) (pageStart vaddr) = pagingGet s (framePtr n) vaddr := pagingGet_pageStart h hn
  obtain ⟨hfresh, hnd⟩ := hg.fresh h hnull h0
  cases hp : present (pagingGet s (framePtr n) vaddr) with
  | false =>
    have hnil := cowAccesses_absent hget hp
    refine ⟨false, s, cowCopyOnWrite_absent (by rw [hget, hp]), ⟨?_, .refl s⟩, fun hmem => absurd hmem h0⟩
    rw [hnil]
    exact (serves_nil rfl rfl).grounded List.not_mem_nil List.nodup_nil fun _ _ _ _ _ hmem => by cases hmem
  | true =>
    obtain ⟨hserves, hargs⟩ := cow_serves h hn huser hg hp
    have hlookup : present (lookup s.mem n vaddr) = true := by rwa [pagingGet_lookup (h.forest.bound n _ hn)] at hp
    have hnew := handed_cowRemap s (framePtr n) vaddr
    rw [← requests_cow (by rw [hget, hp])] at hnew
    obtain ⟨s', p, label', hcall, hhanded, -, hd⟩ := cow_spec h hn hroot huser hh hcopy hlookup hnew hfresh
    have h0' : 0 ∉ (requests (cowAccesses s (framePtr n) vaddr)).reverse := fun hmem => h0 (List.mem_reverse.mp hmem)
    refine ⟨true, s', hcall, ⟨hserves.grounded h0 hnd hargs, ?_⟩, fun hmem => absurd hmem h0⟩
    refine written_of_inv hd.inv (null_unlabelled hnull hfresh h0' hd.fresh) (fun q hq => ⟨?_, ?_⟩) hd.bytes
    · rw [hhanded]
      exact List.mem_append_left _ hq
    · rintro rfl
      exact h0' hq

end CowCall

-- ---------------------------------------------------------------------------
-- All three calls
-- ---------------------------------------------------------------------------

/-- The calls keep their promise exactly when no request is answered with NULL. -/
theorem exhaustion_sound_iff (h : PagingInv k s label) (hnull : label 0 = none) (hn : label n = some ⟨n, []⟩) :
    (∀ (vaddr paddr : U64) (flags : BitVec 8), meetsHuge s vaddr 3 (framePtr n) = false →
      Granted s (pagingMapAccesses s (framePtr n) vaddr paddr flags) →
      (Sound (fun _ => some paddr) (pagingMapAccesses s (framePtr n) vaddr paddr flags) s
          (pagingMap s (framePtr n) vaddr paddr flags) ↔
        0 ∉ requests (pagingMapAccesses s (framePtr n) vaddr paddr flags))) ∧
    (∀ (vaddr : U64) (count : Nat) (flags : BitVec 8), Granted s (vmmAccesses s (framePtr n) vaddr flags count) →
      (Sound (fun _ => none) (vmmAccesses s (framePtr n) vaddr flags count) s
          (vmmRequestAt s (framePtr n) vaddr count flags) ↔
        0 ∉ requests (vmmAccesses s (framePtr n) vaddr flags count))) ∧
    ∀ vaddr : U64, s.root = n → kernelHalf vaddr = false → meetsHuge s vaddr 3 (framePtr n) = false →
      meetsHuge s kernelCopyVaddr 3 s.kernelTable = false → Granted s (cowAccesses s (framePtr n) vaddr) →
      (CowSound s (framePtr n) vaddr ↔ 0 ∉ requests (cowAccesses s (framePtr n) vaddr)) := by
  have hnb := h.forest.bound n _ hn
  refine ⟨fun vaddr paddr flags hh hg => ?_, fun vaddr count flags hg => ?_, fun vaddr hroot huser hh hcopy hg => ?_⟩
  · rw [meetsHuge_eq hnb] at hh
    have hserves : Serves (fun _ => some paddr) (pagingMapAccesses s (framePtr n) vaddr paddr flags) :=
      serves_pagingMap (fun p hp => hg.aligned hp) rfl
    refine ⟨fun hs => hserves.null_free hs.grounded, fun h0 => ⟨?_, pagingMap_written h hnull hn hh hg h0⟩⟩
    refine hserves.grounded h0 (hg.fresh h hnull h0).2 fun v t i e p hmem _ hpage => ?_
    rw [(leaf_pagingMap hmem).2, Option.some.inj hpage]
  · have hserves : Serves (fun _ => none) (vmmAccesses s (framePtr n) vaddr flags count) :=
      serves_vmm (fun p hp => hg.aligned hp) fun _ _ => rfl
    refine ⟨fun hs => hserves.null_free hs.grounded, fun h0 => ⟨?_, ?_⟩⟩
    · exact hserves.grounded h0 (hg.fresh h hnull h0).2 fun _ _ _ _ _ _ _ hpage => by cases hpage
    · obtain ⟨-, -, -, -, hw⟩ := vmm_written h hnull hn hg h0
      exact hw
  · rw [meetsHuge_eq hnb] at hh
    rw [h.kernelTable, meetsHuge_eq (h.forest.bound k _ h.forest.kernel)] at hcopy
    exact ⟨cow_null_free h hn huser hg, cow_sound h hn huser hg hnull hroot hh hcopy⟩

-- ---------------------------------------------------------------------------
-- A full bitmap
-- ---------------------------------------------------------------------------

def fullPmm : Pmm := ⟨⟨0xffff800000001000, List.replicate 49 0xff#8⟩, 0, 0, 0x180000⟩

theorem getLsbD_ff {i : Nat} (h : i < 8) : (0xff#8).getLsbD i = true := by
  have hall : ∀ j : Fin 8, (0xff#8).getLsbD j = true := by decide
  exact hall ⟨i, h⟩

theorem fullPmm_null : FrameSource.pmmRequestPages fullPmm 1 = (0, fullPmm) := by
  have hw : fullPmm.Walled := ⟨by decide, by decide, by decide⟩
  rcases pmmRequestPages_cases 1 hw with ⟨q, f', -, -, hlt, hrun, -⟩ | ⟨hnull, -⟩
  · have hlt : q < 384 := hlt
    have hbit := hrun 0 Nat.one_pos
    rw [Nat.add_zero, Pmm.bit, Bitmap.bit] at hbit
    have hbyte : fullPmm.pageBitmap.bytes.getD (q / 8) 0 = 0xff#8 := List.getD_replicate _ (by omega)
    rw [hbyte, getLsbD_ff (Nat.mod_lt q (by decide))] at hbit
    contradiction
  · simp only [FrameSource.pmmRequestPages, hnull]
    rfl

theorem nextFrames_full : ∀ n : Nat, nextFrames fullPmm n = List.replicate n 0
  | 0 => rfl
  | n + 1 => by rw [nextFrames, fullPmm_null, nextFrames_full n, List.replicate_succ]

theorem SmallStart.null_unlabelled {s : Machine Pmm} (h : SmallStart s k n label) : label 0 = none := by
  cases hl : label 0 with
  | none => rfl
  | some l =>
    obtain ⟨p, hp, he⟩ := List.mem_map.mp (h.backed.handed _ l hl)
    have hzero := eq_frame_of_aligned (h.handed.aligned p hp)
    rw [he] at hzero
    have hzero : p = 0 := hzero
    exact absurd (hzero ▸ hp) h.noNull

/-- A page when the bitmap is full: NULL becomes the page at 4 MiB. -/
theorem null_becomes_page : ∃ (s : Machine Pmm) (k n : Nat) (label : Labels),
    (PagingInv k s label ∧ label 0 = none ∧ label n = some ⟨n, []⟩) ∧
      Granted s (vmmAccesses s (framePtr n) 0x400000 7 1) ∧
      ¬ Sound (fun _ => none) (vmmAccesses s (framePtr n) 0x400000 7 1) s (vmmRequestAt s (framePtr n) 0x400000 1 7) := by
  obtain ⟨t, k, n, label, h⟩ := smallStart
  obtain ⟨s, hs⟩ : ∃ s : Machine Pmm, s = { t with frames := fullPmm } := ⟨_, rfl⟩
  have hmem : s.mem = t.mem := by rw [hs]
  have hhanded : s.handed = t.handed := by rw [hs]
  have hinv : PagingInv k s label :=
    ⟨hmem ▸ h.backed.forest, by rw [hs]; exact h.backed.kernelTable, hhanded ▸ h.backed.handed⟩
  -- every answer is NULL
  obtain ⟨c, -, ha⟩ := vmmRequestAt_allocates s (framePtr n) 0x400000 7 1
  have hanswers := ha.handed
  rw [handed_vmm, show s.frames = fullPmm by rw [hs], nextFrames_full] at hanswers
  have hreq := List.reverse_inj.mp (List.append_cancel_right hanswers)
  have hg : Granted s (vmmAccesses s (framePtr n) 0x400000 7 1) := by
    have hnull : (List.replicate c (0 : U64)).reverse.filter (· ≠ 0) = [] := by simp
    have hkeep : t.handed.filter (· ≠ 0) = t.handed :=
      List.filter_eq_self.mpr fun p hp => decide_eq_true fun e => h.noNull (e ▸ hp)
    rw [Granted, hreq, List.filter_append, hnull, List.nil_append, hhanded, hkeep]
    exact h.handed
  refine ⟨s, k, n, label, ⟨hinv, h.null_unlabelled, h.table⟩, hg, fun hsound => ?_⟩
  have hserves : Serves (fun _ => none) (vmmAccesses s (framePtr n) 0x400000 7 1) :=
    serves_vmm (fun p hp => hg.aligned hp) fun _ _ => rfl
  have habsent : present (pagingGet s (framePtr n) 0x400000) = false := by
    rw [pagingGet_lookup (h.backed.forest.bound n _ h.table), hmem, h.empty _ (by decide)]
    rfl
  have hfirst : (s.requestPages 1).1 ∈ requests (vmmAccesses s (framePtr n) 0x400000 7 1) := by
    have hzero : vmmRequestAt s (framePtr n) 0x400000 0 7 = s := rfl
    rw [vmmAccesses, vmmAccesses, List.nil_append, hzero, Nat.zero_mul, BitVec.add_zero, vmmPageAccesses]
    simp only [habsent, Bool.false_eq_true, if_false]
    exact List.mem_cons_self
  rw [hreq] at hfirst
  refine hserves.null_free hsound.grounded ?_
  rw [hreq]
  exact List.eq_of_mem_replicate hfirst ▸ hfirst

theorem exhaustion_sound_small : ∃ (s : Machine Pmm) (n : Nat),
    Sound (fun _ => none) (vmmAccesses s (framePtr n) 0x400000 7 1) s (vmmRequestAt s (framePtr n) 0x400000 1 7) := by
  obtain ⟨s, k, n, label, h⟩ := smallStart
  obtain ⟨c, hc, ha⟩ := vmmRequestAt_allocates s (framePtr n) 0x400000 7 1
  have hroom := h.room
  have hserved := (ha.served_untouched h.untouched (by omega)).1
  have hanswers := handed_vmm s (framePtr n) 0x400000 7 1
  obtain ⟨new, hnew, hans⟩ := ha.answers h.backed.walled hserved
  have hreq := List.append_cancel_right (hanswers.symm.trans hnew)
  have h0 : 0 ∉ requests (vmmAccesses s (framePtr n) 0x400000 7 1) := fun hmem =>
    hserved new hnew (hreq ▸ List.mem_reverse.mpr hmem)
  refine ⟨s, n, ((exhaustion_sound_iff h.backed.toPagingInv h.null_unlabelled h.table).2.1 _ _ _ ?_).mpr h0⟩
  have hkeep : (new ++ s.handed).filter (· ≠ 0) = new ++ s.handed :=
    List.filter_eq_self.mpr fun p hp => decide_eq_true fun e => by
      rcases List.mem_append.mp hp with hp | hp
      · exact hserved new hnew (e ▸ hp)
      · exact h.noNull (e ▸ hp)
  rw [Granted, hreq, hkeep]
  have hd := hans.distinct h.backed.walled h.backed.reach
  refine ⟨fun p hp => ?_, fun p hp => ?_, ?_⟩
  · exact (List.mem_append.mp hp).elim (hd.aligned p) (h.handed.aligned p)
  · exact (List.mem_append.mp hp).elim (hd.bound p) (h.handed.bound p)
  · rw [List.map_append, List.nodup_append]
    refine ⟨hd.nodup, h.handed.nodup, fun a ha b hb he => ?_⟩
    obtain ⟨p, hp, rfl⟩ := List.mem_map.mp ha
    obtain ⟨q, hq, rfl⟩ := List.mem_map.mp hb
    have hfree := (hans.free p hp).2
    rw [he, h.taken q hq] at hfree
    contradiction

end ShedOS.Memory
