import ShedOS.Lib.Sharing
import ShedOS.Memory.CopyRuns
import ShedOS.Memory.CowEffect
import ShedOS.Memory.Protect
import ShedOS.Memory.UserMap

/-!
# Address spaces

The user pages of several tables, as pages shared until they are written: a
copy of a table with both write-protected is a duplicate, a handled fault moves
a page, and a byte that the MMU lets through is a store.
-/

namespace ShedOS.Memory

open Bytes Sharing

variable {τ : Type} {s s' : Machine Pmm} {m m' : Mem} {label label' : Labels} {tables : τ → Option Nat} {t u c : τ}
  {k n d r f g : Nat} {q : BitVec 36} {v w : U64} {e e' : U64} {b : Bool} {new : List U64}

-- ---------------------------------------------------------------------------
-- Pages of the user half
-- ---------------------------------------------------------------------------

def writable (e : U64) : Bool := decide (e &&& PAGING_WRITABLE ≠ 0)

theorem writable_eq : writable e = e.getLsbD 1 := and_bit_ne_zero (by decide) (by decide)

theorem writable_readonly : writable (readonly e) = false := by
  have hbit : PAGING_WRITABLE.getLsbD 1 = true := by decide
  rw [writable_eq, readonly, BitVec.getLsbD_and, BitVec.getLsbD_not, hbit]
  simp

def leafPage (e : U64) : Option (Nat × Bool) := if present e then some (frameOf e, writable e) else none

theorem leafPage_present (hp : present e = true) : leafPage e = some (frameOf e, writable e) := if_pos hp

theorem leafPage_readonly : leafPage (readonly e) = protect (leafPage e) := by
  rw [leafPage, leafPage, present_readonly, frameOf_readonly, writable_readonly]
  split <;> rfl

/-- The user pages under the tables of the tasks, and the bytes of the frames. -/
def sharing (m : Mem) (tables : τ → Option Nat) : State τ (BitVec 36) Nat (Fin 0x1000) (BitVec 8) where
  map t q := (tables t).bind fun n =>
    if kernelHalf (pageAddr q.toNat) then none else leafPage (lookup m n (pageAddr q.toNat))
  data f i := m (0x1000 * f + i)

theorem pageOf_pageAddr_toNat : pageOf (pageAddr q.toNat) = q := by
  rw [pageOf_pageAddr, BitVec.ofNat_toNat, BitVec.setWidth_eq]

theorem sharing_map (ht : tables t = some n) (hv : kernelHalf v = false) :
    (sharing m tables).map t (pageOf v) = leafPage (lookup m n v) := by
  have hpage : pageOf (pageAddr (pageOf v).toNat) = pageOf v := pageOf_pageAddr_toNat
  simp only [sharing, ht, Option.bind_some]
  rw [kernelHalf_congr hpage, hv, lookup_of_page hpage]
  rfl

theorem sharing_map_congr {tables' : τ → Option Nat} (ht : tables' t = tables t)
    (hl : ∀ n v, tables t = some n → kernelHalf v = false → pageOf v = q → lookup m' n v = lookup m n v) :
    (sharing m' tables').map t q = (sharing m tables).map t q := by
  simp only [sharing, ht]
  cases hn : tables t with
  | none => simp only [Option.bind_none]
  | some n =>
    simp only [Option.bind_some]
    cases hq : kernelHalf (pageAddr q.toNat) with
    | true => simp only [if_true]
    | false => rw [hl n _ hn hq pageOf_pageAddr_toNat]

theorem sharing_some : (sharing m tables).map t q = some (f, b) ↔ ∃ n v, tables t = some n ∧ kernelHalf v = false ∧
    pageOf v = q ∧ present (lookup m n v) = true ∧ frameOf (lookup m n v) = f ∧ writable (lookup m n v) = b := by
  constructor
  · intro h
    obtain ⟨n, ht, h⟩ := Option.bind_eq_some_iff.mp h
    split at h
    · cases h
    next hv =>
      rw [leafPage] at h
      split at h
      next hp =>
        obtain ⟨rfl, rfl⟩ := Prod.mk.inj (Option.some.inj h)
        exact ⟨n, _, ht, Bool.eq_false_iff.mpr hv, pageOf_pageAddr_toNat, hp, rfl, rfl⟩
      · cases h
  · rintro ⟨n, v, ht, hv, rfl, hp, rfl, rfl⟩
    rw [sharing_map ht hv, leafPage_present hp]

-- ---------------------------------------------------------------------------
-- The invariant
-- ---------------------------------------------------------------------------

/-- Every task has a table of its own, its pages are in locked frames that are
no tables, and a frame with a writable page has no other page. -/
structure Spaces (k : Nat) (s : Machine Pmm) (label : Labels) (tables : τ → Option Nat) : Prop where
  backed : Backed k s label
  table : ∀ t n, tables t = some n → label n = some ⟨n, []⟩
  own : ∀ t u n, tables t = some n → tables u = some n → t = u
  data : ∀ t n v, tables t = some n → kernelHalf v = false → present (lookup s.mem n v) = true → HasData s label n v
  exclusive : (sharing s.mem tables).Exclusive

theorem Spaces.locked (h : Spaces k s label tables) (hf : (sharing s.mem tables).Mapped f) :
    s.frames.bit f = true ∧ label f = none := by
  obtain ⟨t, q, b, hm⟩ := hf
  obtain ⟨n, v, ht, hv, -, hp, rfl, -⟩ := sharing_some.mp hm
  exact ⟨(h.data t n v ht hv hp).locked, (h.data t n v ht hv hp).noTable⟩

theorem Spaces.mapped (ht : tables t = some n) (hv : kernelHalf v = false) (hp : present (lookup s.mem n v) = true) :
    (sharing s.mem tables).Mapped (frameOf (lookup s.mem n v)) :=
  ⟨t, pageOf v, _, by rw [sharing_map ht hv, leafPage_present hp]⟩

theorem data_eq (i : Fin 0x1000) (h : m' (0x1000 * f + i) = m (0x1000 * g + i)) :
    (sharing m' tables).data f i = (sharing m tables).data g i := h

-- ---------------------------------------------------------------------------
-- Faults
-- ---------------------------------------------------------------------------

theorem frameOf_cowEntry (hf : f < frameLimit) : frameOf (cowEntry (BitVec.ofNat 64 (0x1000 * f)) e) = f := by
  have hdiv : 0x1000 * f / 0x1000 = f := Nat.mul_div_cancel_left f (by decide)
  rw [cowEntry, frameOf_leaf, frameOf, toNat_frame hf, hdiv, Nat.mod_eq_of_lt hf]

theorem leafPage_cowEntry (hp : present e = true) (hf : f < frameLimit) :
    leafPage (cowEntry (BitVec.ofNat 64 (0x1000 * f)) e) = some (f, true) := by
  have hpresent : present (cowEntry (BitVec.ofNat 64 (0x1000 * f)) e) = true := present_leaf
  have hwrite : writable (cowEntry (BitVec.ofNat 64 (0x1000 * f)) e) = true := by
    have hbit : PAGING_WRITABLE.getLsbD 1 = true := by decide
    rw [writable_eq, cowEntry_eq hp, BitVec.getLsbD_or, BitVec.getLsbD_or, hbit, Bool.or_true, Bool.or_true]
  rw [leafPage_present hpresent, hwrite, frameOf_cowEntry hf]

theorem Spaces.cow (h : Spaces k s label tables) (ht : tables t = some n) (hroot : s.root = n)
    (hv : kernelHalf v = false) (hp : present (lookup s.mem n v) = true) (hs : Served s (cowRemap s (framePtr n) v)) :
    ∃ s' f new label', CowCall k n f v new s label s' label' ∧ Spaces k s' label' tables ∧
      Moves t (pageOf v) f (sharing s.mem tables) (sharing s'.mem tables) := by
  have hn := h.table t n ht
  obtain ⟨s', f, new, label', hc⟩ := cow_call h.backed hn hroot hv hp hs
  obtain ⟨hfree, htaken⟩ := hc.taken
  have hframe := hc.frame h.backed
  have hflim : f < frameLimit := Nat.lt_of_lt_of_le hfree.1 h.backed.reach
  obtain ⟨e, he⟩ : ∃ e, e = lookup s.mem n v := ⟨_, rfl⟩
  have hlookup : ∀ u r w, tables u = some r → kernelHalf w = false → lookup s'.mem r w =
      if pageOf w = pageOf v ∧ r = n then cowEntry (BitVec.ofNat 64 (0x1000 * f)) e else lookup s.mem r w :=
    fun u r w hu hw => by rw [hc.done.lookup r w (h.table u r hu), if_neg (pageOf_ne_copy hw), he]
  have hpage : (sharing s'.mem tables).map t (pageOf v) = some (f, true) := by
    rw [sharing_map ht hv, hlookup t n v ht hv, if_pos ⟨rfl, rfl⟩, leafPage_cowEntry (he ▸ hp) hflim]
  have hfresh : ¬ (sharing s.mem tables).Mapped f := fun hm => by
    have hbit := (h.locked hm).1
    rw [hfree.2] at hbit
    cases hbit
  have hold := h.data t n v ht hv hp
  have hmoves : Moves t (pageOf v) f (sharing s.mem tables) (sharing s'.mem tables) := by
    refine ⟨⟨frameOf e, writable e, ?_, fun i => data_eq i ?_⟩, hfresh, hpage, fun u q hne => ?_, fun g i hg => data_eq i ?_⟩
    · rw [sharing_map ht hv, ← he, leafPage_present (he ▸ hp)]
    · have hcopied := hc.done.copied (hc.noTable hold.locked hold.noTable) (hc.not_new hold.locked) i i.isLt
      rwa [hframe, ← he] at hcopied
    · refine sharing_map_congr rfl fun r w hu hw hq => ?_
      rw [hlookup u r w hu hw, if_neg]
      rintro ⟨hwv, rfl⟩
      exact hne.elim (fun hne => hne (h.own u t r hu ht)) fun hne => hne (hq.symm.trans hwv)
    · exact hc.bytes (h.locked hg).1 (h.locked hg).2 i.isLt
  refine ⟨s', f, new, label', hc, ⟨hc.backed, fun u r hu => hc.done.keeps r _ (h.table u r hu), h.own,
    fun u r w hu hw hpw => ?_, hmoves.exclusive h.exclusive⟩, hmoves⟩
  rw [hlookup u r w hu hw] at hpw
  by_cases hsame : pageOf w = pageOf v ∧ r = n
  · have hf : frameOf (lookup s'.mem r w) = f := by rw [hlookup u r w hu hw, if_pos hsame, frameOf_cowEntry hflim]
    refine ⟨hf ▸ htaken, ?_⟩
    have hunused := hc.done.unused
    rwa [hframe, ← hf] at hunused
  · rw [if_neg hsame] at hpw
    have hdata := h.data u r w hu hw hpw
    have hkept : lookup s'.mem r w = lookup s.mem r w := by rw [hlookup u r w hu hw, if_neg hsame]
    refine ⟨?_, ?_⟩
    · rw [hkept, hc.answers.bits, hdata.locked, Bool.or_true]
    · rw [hkept]
      exact hc.noTable hdata.locked hdata.noTable

-- ---------------------------------------------------------------------------
-- Forks
-- ---------------------------------------------------------------------------

def forkSpace (s : Machine Pmm) (table : U64) : Machine Pmm :=
  pagingMakeReadonly (pagingMakeReadonly (pagingCopy s table).2 table) (pagingCopy s table).1

structure SpaceForked (k n d : Nat) (new : List U64) (s : Machine Pmm) (label : Labels) (s' : Machine Pmm) (label' : Labels) :
    Prop where
  backed : Backed k s' label'
  table : label' d = some ⟨d, []⟩
  unused : label d = none
  answers : Answers s.frames s'.frames new
  frames : s'.frames = afterFrames s.frames (copyCount s n)
  cr3 : s'.cr3 = s.cr3
  keeps : ∀ g l, label g = some l → label' g = some l
  fresh : ∀ g l, label' g = some l → label g = some l ∨ g ∈ new.map frameNo
  child : ∀ v, kernelHalf v = false → lookup s'.mem d v = readonly (lookup s.mem n v)
  parent : ∀ v, kernelHalf v = false → lookup s'.mem n v = readonly (lookup s.mem n v)
  others : ∀ r v, label r = some ⟨r, []⟩ → r ≠ n → lookup s'.mem r v = lookup s.mem r v
  bytes : ∀ a, a / 0x1000 ∉ new.map frameNo → label' (a / 0x1000) = none → s'.mem a = s.mem a

theorem Backed.fork (h : Backed k s label) (hn : label n = some ⟨n, []⟩) (henough : Enough s (copyCount s n))
    (hr : ∀ d < frameLimit, (pagingCopy s (framePtr n)).1 = framePtr d →
      Reproduces s.mem (pagingCopy s (framePtr n)).2.mem n d) :
    ∃ d new label', (pagingCopy s (framePtr n)).1 = framePtr d ∧
      SpaceForked k n d new s label (forkSpace s (framePtr n)) label' := by
  obtain ⟨d, new, label', hptr, hc⟩ := h.copied hn henough hr
  obtain ⟨s₁, hs₁⟩ : ∃ s₁, s₁ = (pagingCopy s (framePtr n)).2 := ⟨_, rfl⟩
  obtain ⟨s₂, hs₂⟩ : ∃ s₂, s₂ = pagingMakeReadonly s₁ (framePtr n) := ⟨_, rfl⟩
  obtain ⟨s₃, hs₃⟩ : ∃ s₃, s₃ = pagingMakeReadonly s₂ (framePtr d) := ⟨_, rfl⟩
  have hfork : forkSpace s (framePtr n) = s₃ := by rw [forkSpace, hptr, hs₃, hs₂, hs₁]
  rw [← hs₁] at hc
  have hp₁ : Protects k n label' s₁ s₂ := hs₂ ▸ protects hc.backed (hc.keeps n _ hn)
  have hp₂ : Protects k d label' s₂ s₃ := hs₃ ▸ protects hp₁.backed hc.table
  have hne : n ≠ d := fun e => by
    rw [e, hc.unused] at hn
    cases hn
  have hframes : s₃.frames = s₁.frames ∧ s₃.cr3 = s₁.cr3 := by
    rw [hp₂.others, hp₁.others]
    exact ⟨rfl, rfl⟩
  rw [hfork]
  refine ⟨d, new, label', hptr, hp₂.backed, hc.table, hc.unused, hframes.1 ▸ hc.answers, hframes.1.trans hc.frames,
    hframes.2.trans hc.cr3, hc.keeps, hc.fresh, fun v hv => ?_, fun v hv => ?_, fun r v hrt hrn => ?_, fun a hnew ha => ?_⟩
  · rw [hp₂.own v hv, hp₁.lookup d v hc.table (.inl hne.symm), hc.own v hv]
  · rw [hp₂.lookup n v (hc.keeps n _ hn) (.inl hne), hp₁.own v hv, hc.lookup n v hn]
  · have hrd : r ≠ d := fun e => by
      rw [e, hc.unused] at hrt
      cases hrt
    rw [hp₂.lookup r v (hc.keeps r _ hrt) (.inl hrd), hp₁.lookup r v (hc.keeps r _ hrt) (.inl hrn), hc.lookup r v hrt]
  · rw [hp₂.bytes a ha, hp₁.bytes a ha, hc.bytes a hnew]

theorem SpaceForked.locked (h : SpaceForked k n d new s label s' label') (hbit : s.frames.bit g = true) (hg : label g = none) :
    s'.frames.bit g = true ∧ label' g = none ∧ g ∉ new.map frameNo := by
  have hnew : g ∉ new.map frameNo := by
    intro hmem
    obtain ⟨p, hp, rfl⟩ := List.mem_map.mp hmem
    have hfree := (h.answers.free p hp).2
    rw [hbit] at hfree
    cases hfree
  refine ⟨by rw [h.answers.bits, hbit, Bool.or_true], ?_, hnew⟩
  cases hl : label' g with
  | none => rfl
  | some l =>
    rcases h.fresh g l hl with hold | hmem
    · rw [hg] at hold
      cases hold
    · exact absurd hmem hnew

theorem map_readonly {tables' : τ → Option Nat} (hu : tables' u = some d) (ht : tables t = some n)
    (hl : ∀ v, kernelHalf v = false → lookup m' d v = readonly (lookup m n v)) (q : BitVec 36) :
    (sharing m' tables').map u q = protect ((sharing m tables).map t q) := by
  simp only [sharing, hu, ht, Option.bind_some]
  split
  · rfl
  next hq => rw [hl _ (Bool.eq_false_iff.mpr hq), leafPage_readonly]

theorem Spaces.fork [DecidableEq τ] (h : Spaces k s label tables) (ht : tables t = some n) (hc : tables c = none)
    (henough : Enough s (copyCount s n))
    (hr : ∀ d < frameLimit, (pagingCopy s (framePtr n)).1 = framePtr d →
      Reproduces s.mem (pagingCopy s (framePtr n)).2.mem n d) :
    ∃ d new label', (pagingCopy s (framePtr n)).1 = framePtr d ∧
      SpaceForked k n d new s label (forkSpace s (framePtr n)) label' ∧
      Spaces k (forkSpace s (framePtr n)) label' (Function.update tables c (some d)) ∧
      Forks t c (sharing s.mem tables) (sharing (forkSpace s (framePtr n)).mem (Function.update tables c (some d))) := by
  have hn := h.table t n ht
  obtain ⟨d, new, label', hptr, hf⟩ := h.backed.fork hn henough hr
  obtain ⟨s', hs'⟩ : ∃ s', s' = forkSpace s (framePtr n) := ⟨_, rfl⟩
  obtain ⟨tables', htables'⟩ : ∃ tables', tables' = Function.update tables c (some d) := ⟨_, rfl⟩
  rw [← hs'] at hf ⊢
  have hchild : tables' c = some d := htables' ▸ Function.update_self ..
  have hold : ∀ u, u ≠ c → tables' u = tables u := fun u hu => htables' ▸ Function.update_of_ne hu ..
  have htc : t ≠ c := fun e => by
    rw [e, hc] at ht
    cases ht
  have hd : ∀ u, tables u ≠ some d := fun u hu => by
    have := h.table u d hu
    rw [hf.unused] at this
    cases this
  have hforks : Forks t c (sharing s.mem tables) (sharing s'.mem tables') := by
    refine ⟨fun q => ?_, map_readonly hchild ht hf.child, map_readonly ((hold t htc).trans ht) ht hf.parent,
      fun u q huc hut => ?_, fun g i hg => data_eq i ?_⟩
    · simp only [sharing, hc, Option.bind_none]
    · refine sharing_map_congr (hold u huc) fun r v hu _ _ => ?_
      exact hf.others r v (h.table u r hu) fun e => hut (h.own u t n (e ▸ hu) ht)
    · obtain ⟨hbit, hg⟩ := h.locked hg
      obtain ⟨-, hg', hnew⟩ := hf.locked hbit hg
      have hdiv : (0x1000 * g + i.val) / 0x1000 = g := by omega
      exact hf.bytes _ (by rwa [hdiv]) (by rwa [hdiv])
  refine ⟨d, new, label', hptr, hf, ?_⟩
  rw [← htables']
  refine ⟨⟨hf.backed, fun u r hu => ?_, fun u w r hu hw => ?_, fun u r v hu hv hp => ?_,
    hforks.exclusive h.exclusive⟩, hforks⟩
  · by_cases huc : u = c
    · obtain rfl := Option.some.inj (hchild.symm.trans (huc ▸ hu))
      exact hf.table
    · exact hf.keeps r _ (h.table u r (hold u huc ▸ hu))
  · by_cases huc : u = c
    · by_cases hwc : w = c
      · rw [huc, hwc]
      · obtain rfl := Option.some.inj (hchild.symm.trans (huc ▸ hu))
        exact absurd (hold w hwc ▸ hw) (hd w)
    · by_cases hwc : w = c
      · obtain rfl := Option.some.inj (hchild.symm.trans (hwc ▸ hw))
        exact absurd (hold u huc ▸ hu) (hd u)
      · exact h.own u w r (hold u huc ▸ hu) (hold w hwc ▸ hw)
  · -- the frame of the page is one of before
    have hm : (sharing s'.mem tables').Mapped (frameOf (lookup s'.mem r v)) := Spaces.mapped hu hv hp
    obtain ⟨hbit, hg⟩ := h.locked (hforks.mapped.mp hm)
    obtain ⟨hbit', hg', -⟩ := hf.locked hbit hg
    exact ⟨hbit', hg'⟩

-- ---------------------------------------------------------------------------
-- Accesses
-- ---------------------------------------------------------------------------

def pageOffset (v : U64) : Fin 0x1000 := ⟨v.toNat % 0x1000, Nat.mod_lt _ (by decide)⟩

theorem Spaces.read (h : Spaces k s label tables) (ht : tables t = some n) (hv : kernelHalf v = false) :
    readByte s.mem n v = (sharing s.mem tables).view t (pageOf v) (pageOffset v) := by
  have hhuge := h.backed.windows n v (h.table t n ht) (not_inWindow_user hv)
  rw [readByte, mmu_lookup hhuge, State.view, sharing_map ht hv, leafAddr, leafPage]
  split <;> rfl

theorem Spaces.write (h : Spaces k s label tables) (ht : tables t = some n) (hv : kernelHalf v = false)
    (hp : present (lookup s.mem n v) = true) (hw : writable (lookup s.mem n v) = true) (x : BitVec 8) :
    let m' := s.mem.setByte (0x1000 * frameOf (lookup s.mem n v) + v.toNat % 0x1000) x
    Spaces k { s with mem := m' } label tables ∧
      Stores t (pageOf v) (pageOffset v) x (frameOf (lookup s.mem n v)) (sharing s.mem tables) (sharing m' tables) := by
  intro m'
  obtain ⟨f, hf⟩ : ∃ f, f = frameOf (lookup s.mem n v) := ⟨_, rfl⟩
  have hdata := h.data t n v ht hv hp
  rw [← hf]
  have hm' : m' = s.mem.setByte (0x1000 * f + v.toNat % 0x1000) x := hf ▸ rfl
  have hout : ∀ a, a / 0x1000 ≠ f → m' a = s.mem a := fun a ha => hm' ▸ Mem.setByte_ne (by omega)
  have hnone : label f = none := hf ▸ hdata.noTable
  have hlookup : ∀ r w, label r = some ⟨r, []⟩ → lookup m' r w = lookup s.mem r w := fun r w hr =>
    h.backed.forest.lookup_congr hr (tableRead_outside hnone hout)
  have hstores : Stores t (pageOf v) (pageOffset v) x f (sharing s.mem tables) (sharing m' tables) := by
    refine ⟨?_, fun u q => ?_, ?_, fun g i hne => ?_⟩
    · rw [sharing_map ht hv, leafPage_present hp, hw, hf]
    · exact sharing_map_congr rfl fun r w hu _ _ => hlookup r w (h.table u r hu)
    · show m' (0x1000 * f + v.toNat % 0x1000) = x
      rw [hm']
      exact Mem.setByte_same
    · show m' (0x1000 * g + i.val) = s.mem (0x1000 * g + i.val)
      rw [hm']
      refine Mem.setByte_ne fun e => ?_
      have hi := i.isLt
      have hgf : g = f := by omega
      have hio : i = pageOffset v := Fin.ext (show i.val = v.toNat % 0x1000 by omega)
      exact hne.elim (fun hne => hne hgf) fun hne => hne hio
  refine ⟨⟨h.backed.store hnone hout, h.table, h.own, fun u r w hu hw hpw => ?_, hstores.exclusive h.exclusive⟩, hstores⟩
  rw [hlookup r w (h.table u r hu)] at hpw
  have hold := h.data u r w hu hw hpw
  have hkept : lookup m' r w = lookup s.mem r w := hlookup r w (h.table u r hu)
  exact ⟨by rw [hkept]; exact hold.locked, by rw [hkept]; exact hold.noTable⟩

end ShedOS.Memory
