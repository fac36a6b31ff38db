import ShedOS.Memory.VmmRuns

/-!
# Released pages

`vmm_release_at` looks at the first page of its range only. In every run whose
releases take one page each, a page that a request mapped has a frame of its own
until its release, and the next release undoes its request exactly for a single
page.
-/

namespace ShedOS.Memory

open Bytes Loops Ranges
open Relation (ReflTransGen)

variable {s s' t : Machine Pmm} {k n r f count : Nat} {label label' : Labels} {v w : U64} {flags : BitVec 8}

-- ---------------------------------------------------------------------------
-- Pages by table
-- ---------------------------------------------------------------------------

def tablePage (k r : Nat) (v : U64) : Nat × BitVec 36 := (if kernelHalf v then k else r, pageOf v)

def pageEntry (m : Mem) (p : Nat × BitVec 36) : U64 := lookup m p.1 (pageAddr p.2.toNat)

variable {p p' : Nat × BitVec 36}

theorem tablePage_eq_iff : tablePage k n v = tablePage k r w ↔ SamePage k n v r w := by
  rw [samePage_iff, tablePage, tablePage, Prod.mk.injEq]
  constructor
  · rintro ⟨hroot, hpage⟩
    refine ⟨hpage, ?_⟩
    rw [← kernelHalf_congr hpage] at hroot
    cases hv : kernelHalf v with
    | true => exact .inr rfl
    | false => exact .inl (by simpa [hv] using hroot)
  · rintro ⟨hpage, hroot⟩
    refine ⟨?_, hpage⟩
    rw [← kernelHalf_congr hpage]
    rcases hroot with rfl | hv
    · rfl
    · rw [hv, if_pos rfl, if_pos rfl]

/-- A page of a table in use, under its own address. -/
structure TablePage (k : Nat) (label : Labels) (p : Nat × BitVec 36) : Prop where
  root : label p.1 = some ⟨p.1, []⟩
  own : tablePage k p.1 (pageAddr p.2.toNat) = p

section Forest

variable {m : Mem} (hf : Forest k m label) (hr : label r = some ⟨r, []⟩)

include hf hr

theorem isTablePage : TablePage k label (tablePage k r v) := by
  have hpage : pageOf (pageAddr (pageOf v).toNat) = pageOf v := by
    rw [pageOf_pageAddr, BitVec.ofNat_toNat, BitVec.setWidth_eq]
  constructor
  · show label (if kernelHalf v then k else r) = some ⟨if kernelHalf v then k else r, []⟩
    split
    · exact hf.kernel
    · exact hr
  · show tablePage k (if kernelHalf v then k else r) (pageAddr (pageOf v).toNat) = tablePage k r v
    rw [tablePage_eq_iff, samePage_iff, kernelHalf_congr hpage]
    refine ⟨hpage, ?_⟩
    cases kernelHalf v with
    | true => exact .inr rfl
    | false => exact .inl rfl

theorem walk_tablePage : tableWalk m (tablePage k r v).1 (tableIndex (pageAddr (tablePage k r v).2.toNat) 3)
    (indicesBelow (pageAddr (tablePage k r v).2.toNat) 3) = tableWalk m r (tableIndex v 3) (indicesBelow v 3) := by
  have hp := isTablePage (v := v) hf hr
  exact hf.walk_samePage hp.root hr (tablePage_eq_iff.mp hp.own)

theorem pageEntry_tablePage : pageEntry m (tablePage k r v) = lookup m r v := by
  rw [pageEntry, lookup, walk_tablePage hf hr]
  rfl

end Forest

-- ---------------------------------------------------------------------------
-- vmm_release_at
-- ---------------------------------------------------------------------------

/-- `none` is an access of `pmm_release_pages` outside the bitmap. -/
def vmmReleaseAt (s : Machine Pmm) (table vaddr : U64) (n : Nat) : Option (Machine Pmm) := do
  let entry := pagingGet s table vaddr
  if !present entry then return s
  let frames ← pmmReleasePages s.frames (entry &&& ~~~0xfff#64).toNat n
  return pagingUnmap { s with frames } table vaddr

theorem vmmReleaseAt_data (hn : n < frameLimit) (hf : f < frameLimit) (hget : lookup s.mem n v = dataEntry f flags) :
    vmmReleaseAt s (framePtr n) v count =
      (pmmReleasePages s.frames (0x1000 * f) count).map fun frames => pagingUnmap { s with frames } (framePtr n) v := by
  have haddr : (dataEntry f flags &&& ~~~0xfff#64).toNat = 0x1000 * f := by
    have hlow := toNat_flags flags
    have hdiv : (0x1000 * f + (flags.setWidth 64 ||| PAGING_PRESENT).toNat) / 0x1000 = f := by omega
    rw [and_not_fff, dataEntry, BitVec.or_assoc, toNat_frame_or hf hlow, hdiv, toNat_frame hf]
  unfold vmmReleaseAt
  rw [pagingGet_lookup hn, hget]
  simp only [present_dataEntry, haddr, Bool.not_true, Bool.false_eq_true, if_false, Option.map_eq_bind]
  rfl

theorem vmmReleaseAt_absent (habsent : present (pagingGet s (framePtr n) v) = false) :
    vmmReleaseAt s (framePtr n) v count = some s := by
  unfold vmmReleaseAt
  simp only [habsent, Bool.not_false, if_true]
  rfl

/-- Neighbouring pages are different ones, also where the range wraps. -/
theorem pageOf_rangePage_one : pageOf (rangePage v 1) ≠ pageOf v := by
  intro h
  have h := congrArg BitVec.toNat h
  have hlt := v.isLt
  rw [toNat_pageOf, toNat_pageOf, rangePage, BitVec.toNat_add, BitVec.toNat_ofNat] at h
  omega

-- ---------------------------------------------------------------------------
-- Histories
-- ---------------------------------------------------------------------------

/-- The machine, the frames of its tables, the pages that requests have mapped
and no release has taken back, and the frames that other callers hold. -/
structure Vmm where
  machine : Machine Pmm
  roots : Set Nat
  requested : Set (Nat × BitVec 36)
  held : Set Nat

def Vmm.start (s : Machine Pmm) (label : Labels) : Vmm := ⟨s, {r | label r = some ⟨r, []⟩}, ∅, ∅⟩

def missingPages (k : Nat) (s : Machine Pmm) (n : Nat) (v : U64) (count : Nat) : Set (Nat × BitVec 36) :=
  {p | ∃ i < count, present (pagingGet s (framePtr n) (rangePage v i)) = false ∧ p = tablePage k n (rangePage v i)}

/-- A call that asks for frames or gives some back. A release finds its first
page absent, or takes back at most one page, which a request had mapped. -/
inductive VmmCall (k : Nat) : Vmm → Vmm → Prop
  | create (x : Vmm) (hs : Served x.machine (pagingCreateEmpty x.machine).2) :
    VmmCall k x { x with
      machine := (pagingCreateEmpty x.machine).2
      roots := insert (frameOf (pagingCreateEmpty x.machine).1) x.roots }
  | request (x : Vmm) {n : Nat} (hn : n ∈ x.roots) (v : U64) (count : Nat) (flags : BitVec 8)
    (hs : Served x.machine (vmmRequestAt x.machine (framePtr n) v count flags)) :
    VmmCall k x { x with
      machine := vmmRequestAt x.machine (framePtr n) v count flags
      requested := x.requested ∪ missingPages k x.machine n v count }
  | release (x : Vmm) {n : Nat} (hn : n ∈ x.roots) (v : U64) (count : Nat) {s' : Machine Pmm}
    (h : vmmReleaseAt x.machine (framePtr n) v count = some s')
    (hfirst : present (pagingGet x.machine (framePtr n) v) = false ∨ count ≤ 1 ∧ tablePage k n v ∈ x.requested) :
    VmmCall k x { x with machine := s', requested := x.requested \ {tablePage k n v} }
  | take (x : Vmm) (count : Nat) {addr : Nat} {frames : Pmm}
    (h : pmmRequestPages x.machine.frames count = some (addr, frames)) :
    VmmCall k x { x with
      machine := { x.machine with frames }
      held := if addr = 0 then x.held else x.held ∪ {f | Range.Mem ⟨addr / 0x1000, count⟩ f} }
  | giveBack (x : Vmm) (q : Range) (hq : ∀ f, q.Mem f → f ∈ x.held)
    (hle : q.start + q.count ≤ x.machine.frames.frames) {frames : Pmm}
    (h : pmmReleasePages x.machine.frames (0x1000 * q.start) q.count = some frames) :
    VmmCall k x { x with machine := { x.machine with frames }, held := x.held \ {f | q.Mem f} }

structure InUse (s : Machine Pmm) (label : Labels) (f : Nat) : Prop where
  inside : f < s.frames.frames
  locked : s.frames.bit f = true
  noTable : label f = none

theorem InUse.not_free (h : InUse s label f) : f ∉ s.frames.freeFrames := fun hfree => by
  have := h.locked
  rw [hfree.2] at this
  contradiction

structure PageFrame (k : Nat) (s : Machine Pmm) (label : Labels) (p : Nat × BitVec 36) (f : Nat) : Prop where
  page : TablePage k label p
  frame : InUse s label f
  entry : ∃ flags, pageEntry s.mem p = dataEntry f flags
  stops : MeetsNoHuge s.mem p.1 (pageAddr p.2.toNat) 3

structure VmmInv (k : Nat) (label : Labels) (x : Vmm) : Prop where
  backed : Backed k x.machine label
  roots : ∀ r ∈ x.roots, label r = some ⟨r, []⟩
  mapped : ∀ p ∈ x.requested, ∃ f, PageFrame k x.machine label p f ∧ f ∉ x.held
  distinct : ∀ p ∈ x.requested, ∀ p' ∈ x.requested,
    frameOf (pageEntry x.machine.mem p) = frameOf (pageEntry x.machine.mem p') → p = p'
  held : ∀ f ∈ x.held, InUse x.machine label f

theorem VmmInv.start (h : Backed k s label) : VmmInv k label (Vmm.start s label) where
  backed := h
  roots _ hr := hr
  mapped _ hp := absurd hp (Set.notMem_empty _)
  distinct _ hp := absurd hp (Set.notMem_empty _)
  held _ hf := absurd hf (Set.notMem_empty _)

variable {x y : Vmm}

theorem PageFrame.frameOf (h : PageFrame k s label p f) (hb : Backed k s label) : frameOf (pageEntry s.mem p) = f := by
  obtain ⟨flags, hentry⟩ := h.entry
  rw [hentry, frameOf_dataEntry (Nat.lt_of_lt_of_le h.frame.inside hb.reach)]

theorem VmmInv.next (h : VmmInv k label x) {roots held : Set Nat} {requested : Set (Nat × BitVec 36)}
    (hb : Backed k s' label') (hkeeps : ∀ n l, label n = some l → label' n = some l)
    (hroots : ∀ r ∈ roots, label' r = some ⟨r, []⟩) (hsub : requested ⊆ x.requested)
    (hentry : ∀ p ∈ requested, pageEntry s'.mem p = pageEntry x.machine.mem p ∧
      MeetsNoHuge s'.mem p.1 (pageAddr p.2.toNat) 3)
    (huse : ∀ p ∈ requested, ∀ f, PageFrame k x.machine label p f → f ∉ x.held → InUse s' label' f ∧ f ∉ held)
    (hheld : ∀ f ∈ held, InUse s' label' f) : VmmInv k label' ⟨s', roots, requested, held⟩ where
  backed := hb
  roots := hroots
  mapped p hp := by
    obtain ⟨f, hf, hnot⟩ := h.mapped p (hsub hp)
    obtain ⟨hframe, hout⟩ := huse p hp f hf hnot
    obtain ⟨flags, hflags⟩ := hf.entry
    obtain ⟨hsame, hstops⟩ := hentry p hp
    exact ⟨f, ⟨⟨hkeeps _ _ hf.page.root, hf.page.own⟩, hframe, ⟨flags, hsame.trans hflags⟩, hstops⟩, hout⟩
  distinct p hp p' hp' heq := by
    rw [(hentry p hp).1, (hentry p' hp').1] at heq
    exact h.distinct p (hsub hp) p' (hsub hp') heq
  held := hheld

-- ---------------------------------------------------------------------------
-- What one call preserves
-- ---------------------------------------------------------------------------

theorem VmmInv.create (h : VmmInv k label x) (hs : Served x.machine (pagingCreateEmpty x.machine).2) :
    ∃ label', VmmInv k label' { x with
      machine := (pagingCreateEmpty x.machine).2
      roots := insert (frameOf (pagingCreateEmpty x.machine).1) x.roots } := by
  obtain ⟨c, label', hptr, hc⟩ := h.backed.newRoot hs
  obtain ⟨t, ht⟩ : ∃ t, t = (pagingCreateEmpty x.machine).2 := ⟨_, rfl⟩
  have hcb := hc.backed.forest.bound c _ hc.table
  have ha : Allocates 1 x.machine t := by rw [ht]; exact ⟨rfl, rfl, rfl, rfl⟩
  obtain ⟨new, -, hanswers⟩ := ha.answers h.backed.walled (ht ▸ hs)
  have hframes : t.frames.frames = x.machine.frames.frames := hanswers.frames
  rw [hptr, frameOf_framePtr hcb, ← ht]
  rw [← ht] at hc
  have huse : ∀ f, InUse x.machine label f → InUse t label' f := fun f hf => by
    refine ⟨hframes ▸ hf.inside, by rw [hc.bits, hf.locked, Bool.or_true], ?_⟩
    cases hl : label' f with
    | none => rfl
    | some l =>
      rcases hc.fresh f l hl with hl | rfl
      · exact hl.symm.trans hf.noTable
      · exact absurd hc.free hf.not_free
  refine ⟨label', h.next hc.backed hc.keeps (fun r hr => ?_) subset_rfl (fun p hp => ?_)
    (fun p _ f hf hnot => ⟨huse f hf.frame, hnot⟩) fun f hf => huse f (h.held f hf)⟩
  · rcases Set.mem_insert_iff.mp hr with rfl | hr
    · exact hc.table
    · exact hc.keeps r _ (h.roots r hr)
  · obtain ⟨f, hf, -⟩ := h.mapped p hp
    exact ⟨hc.lookup _ _ hf.page.root, hc.stops _ _ hf.page.root hf.stops⟩

section Requests

variable (hl : RequestLoop k n v count flags s label t label')

include hl

theorem RequestLoop.inUse (hf : InUse s label f) : InUse t label' f := by
  refine ⟨hl.frames ▸ hf.inside, hl.locked f hf.locked, ?_⟩
  cases hl' : label' f with
  | none => rfl
  | some l =>
    rcases hl.fresh f l hl' with hold | hfree
    · exact hold.symm.trans hf.noTable
    · exact absurd hfree hf.not_free

theorem RequestLoop.pageFrame (hf : PageFrame k s label p f) : PageFrame k t label' p f := by
  obtain ⟨w, hw⟩ := hf.entry
  have hsame : pageEntry t.mem p = pageEntry s.mem p := by
    refine hl.same _ _ hf.page.root (.inl ?_)
    rw [← pageEntry, hw, present_dataEntry]
  exact ⟨⟨hl.keeps _ _ hf.page.root, hf.page.own⟩, hl.inUse hf.frame, ⟨w, hsame.trans hw⟩,
    hl.stops _ _ hf.page.root hf.stops⟩

variable (h : Backed k s label) (hn : label n = some ⟨n, []⟩)

include h hn

theorem RequestLoop.missing (hp : p ∈ missingPages k s n v count) :
    ∃ f ∈ s.frames.freeFrames, PageFrame k t label' p f := by
  obtain ⟨i, hi, habsent, rfl⟩ := hp
  have hn' := hl.keeps n _ hn
  rw [pagingGet_lookup (h.forest.bound n _ hn)] at habsent
  obtain ⟨f, hfree, hbit, htable, hget⟩ := hl.mapped (rangePage v i) ⟨i, hi, rfl, .inl rfl⟩ habsent
  refine ⟨f, hfree, isTablePage hl.backed.forest hn', ⟨hl.frames ▸ hfree.1, hbit, htable⟩, ⟨flags, ?_⟩, ?_⟩
  · rw [pageEntry_tablePage hl.backed.forest hn', hget]
  · rw [MeetsNoHuge, walk_tablePage hl.backed.forest hn']
    exact hl.stops n _ hn (meetsNoHuge_of_absent habsent)

theorem RequestLoop.missing_distinct (hp : p ∈ missingPages k s n v count) (hp' : p' ∈ missingPages k s n v count)
    (heq : frameOf (pageEntry t.mem p) = frameOf (pageEntry t.mem p')) : p = p' := by
  obtain ⟨i, hi, habsent, rfl⟩ := hp
  obtain ⟨j, hj, habsent', rfl⟩ := hp'
  have hnb := h.forest.bound n _ hn
  have hn' := hl.keeps n _ hn
  rw [pagingGet_lookup hnb] at habsent habsent'
  rw [pageEntry_tablePage hl.backed.forest hn', pageEntry_tablePage hl.backed.forest hn'] at heq
  have hpage := hl.distinct _ _ ⟨i, hi, rfl, .inl rfl⟩ ⟨j, hj, rfl, .inl rfl⟩ habsent habsent' heq
  exact tablePage_eq_iff.mpr (samePage_iff.mpr ⟨hpage, .inl rfl⟩)

end Requests

theorem VmmInv.request (h : VmmInv k label x) (hn : n ∈ x.roots)
    (hs : Served x.machine (vmmRequestAt x.machine (framePtr n) v count flags)) :
    ∃ label', VmmInv k label' { x with
      machine := vmmRequestAt x.machine (framePtr n) v count flags
      requested := x.requested ∪ missingPages k x.machine n v count } := by
  have hroot := h.roots n hn
  obtain ⟨label', hl⟩ := vmmRequestAt_loop h.backed hroot hs
  obtain ⟨t, ht⟩ : ∃ t, t = vmmRequestAt x.machine (framePtr n) v count flags := ⟨_, rfl⟩
  rw [← ht] at hl ⊢
  have hold : ∀ p ∈ x.requested, ∃ f, PageFrame k x.machine label p f ∧ f ∉ x.held ∧ PageFrame k t label' p f := by
    intro p hp
    obtain ⟨f, hf, hnot⟩ := h.mapped p hp
    exact ⟨f, hf, hnot, hl.pageFrame hf⟩
  have hapart : ∀ p ∈ x.requested, ∀ p' ∈ missingPages k x.machine n v count,
      frameOf (pageEntry t.mem p) ≠ frameOf (pageEntry t.mem p') := by
    intro p hp p' hp' heq
    obtain ⟨f, hf, -, hf'⟩ := hold p hp
    obtain ⟨g, hfree, hg⟩ := hl.missing h.backed hroot hp'
    rw [hf'.frameOf hl.backed, hg.frameOf hl.backed] at heq
    exact hf.frame.not_free (heq ▸ hfree)
  refine ⟨label', hl.backed, fun r hr => hl.keeps r _ (h.roots r hr), fun p hp => ?_, fun p hp p' hp' heq => ?_,
    fun f hf => hl.inUse (h.held f hf)⟩
  · rcases hp with hp | hp
    · obtain ⟨f, -, hnot, hf⟩ := hold p hp
      exact ⟨f, hf, hnot⟩
    · obtain ⟨f, hfree, hf⟩ := hl.missing h.backed hroot hp
      exact ⟨f, hf, fun hin => (h.held f hin).not_free hfree⟩
  · rcases hp with hp | hp <;> rcases hp' with hp' | hp'
    · obtain ⟨f, hf, -, hf'⟩ := hold p hp
      obtain ⟨g, hg, -, hg'⟩ := hold p' hp'
      rw [hf'.frameOf hl.backed, hg'.frameOf hl.backed] at heq
      exact h.distinct p hp p' hp' (by rw [hf.frameOf h.backed, hg.frameOf h.backed, heq])
    · exact absurd heq (hapart p hp p' hp')
    · exact absurd heq.symm (hapart p' hp' p hp)
    · exact hl.missing_distinct h.backed hroot hp hp' heq

theorem Backed.withFrames {frames : Pmm} (h : Backed k s label) (hw : frames.Walled)
    (hlen : frames.frames = s.frames.frames) (hlocked : ∀ n l, label n = some l → frames.bit n = true) :
    Backed k { s with frames } label :=
  ⟨⟨h.forest, h.kernelTable, h.handed⟩, h.windows, hw, hlen.trans_le h.reach, hlocked⟩

theorem Backed.unmap (h : Backed k s label) (hn : label n = some ⟨n, []⟩) (hh : MeetsNoHuge s.mem n v 3) :
    Backed k (pagingUnmap s (framePtr n) v) label := by
  have hu := pagingUnmap_spec h.forest hn hh
  have hframes : (pagingUnmap s (framePtr n) v).frames = s.frames := pagingUnmap_frames s
  refine ⟨hu.inv h.toPagingInv (pagingUnmap_keeps s (framePtr n) v) ?_, fun r w hr hw => hu.stops r w hr (h.windows r w hr hw),
    hframes ▸ h.walled, hframes ▸ h.reach, hframes ▸ h.locked⟩
  exact (pagingUnmap_allocates s (framePtr n) v).handed

theorem VmmInv.reframe (h : VmmInv k label x) {frames : Pmm} {held : Set Nat} (hw : frames.Walled)
    (hlen : frames.frames = x.machine.frames.frames)
    (hbits : ∀ f, x.machine.frames.bit f = true → (f ∈ x.held → f ∈ held) → frames.bit f = true)
    (hheld : ∀ f ∈ held, f ∈ x.held ∨ f ∈ x.machine.frames.freeFrames ∧ frames.bit f = true) :
    VmmInv k label { x with machine := { x.machine with frames }, held } := by
  have hnone : ∀ n l, label n = some l → n ∉ x.held := fun n l hn hin => by
    have := (h.held n hin).noTable
    rw [hn] at this
    contradiction
  have huse : ∀ f, InUse x.machine label f → (f ∈ x.held → f ∈ held) → InUse { x.machine with frames } label f :=
    fun f hf hin => ⟨Nat.lt_of_lt_of_eq hf.inside hlen.symm, hbits f hf.locked hin, hf.noTable⟩
  refine h.next (h.backed.withFrames hw hlen fun n l hn => ?_) (fun _ _ hl => hl) h.roots subset_rfl (fun p hp => ?_)
    (fun p hp f hf hnot => ?_) fun f hf => ?_
  · exact hbits n (h.backed.locked n l hn) fun hin => absurd hin (hnone n l hn)
  · obtain ⟨f, hf, -⟩ := h.mapped p hp
    exact ⟨rfl, hf.stops⟩
  · refine ⟨huse f hf.frame fun hin => absurd hin hnot, fun hin => ?_⟩
    rcases hheld f hin with hin | ⟨hfree, -⟩
    · exact hnot hin
    · exact hf.frame.not_free hfree
  · rcases hheld f hf with hin | ⟨hfree, hbit⟩
    · exact huse f (h.held f hin) fun _ => hf
    · refine ⟨Nat.lt_of_lt_of_eq hfree.1 hlen.symm, hbit, ?_⟩
      cases hl : label f with
      | none => rfl
      | some l =>
        have := h.backed.locked f l hl
        rw [hfree.2] at this
        contradiction

theorem VmmInv.take (h : VmmInv k label x) {addr : Nat} {frames : Pmm}
    (hcall : pmmRequestPages x.machine.frames count = some (addr, frames)) :
    VmmInv k label { x with
      machine := { x.machine with frames }
      held := if addr = 0 then x.held else x.held ∪ {f | Range.Mem ⟨addr / 0x1000, count⟩ f} } := by
  have hw := h.backed.walled
  rcases pmmRequestPages_cases count hw with ⟨q, frames', hreq, -, hlt, hrun, -, hsame, hbits⟩ | ⟨hreq, -⟩
  · obtain ⟨rfl, rfl⟩ := Prod.mk.inj (Option.some.inj (hreq.symm.trans hcall))
    have hle := hw.freeRun_le (Nat.le_of_lt hlt) hrun
    have hwall : frames'.Walled := hw.of_same hsame.len hsame.totalMemory (by rw [hbits, hw.wall, Bool.or_true])
    have hlen : frames'.frames = x.machine.frames.frames := by
      rw [Pmm.frames, hsame.totalMemory]
      rfl
    refine h.reframe hwall hlen (fun f hf _ => by rw [hbits, hf, Bool.or_true]) fun f hf => ?_
    split at hf
    next => exact .inl hf
    next =>
      rw [Nat.mul_div_cancel_left q (by decide)] at hf
      rcases hf with hf | ⟨hq, hqf⟩
      · exact .inl hf
      · simp only at hq hqf
        have hfree := hrun (f - q) (by omega)
        rw [Nat.add_sub_cancel' hq] at hfree
        exact .inr ⟨⟨by omega, hfree⟩, by rw [hbits, decide_eq_true ⟨hq, hqf⟩, Bool.true_or]⟩
  · obtain ⟨rfl, rfl⟩ := Prod.mk.inj (Option.some.inj (hreq.symm.trans hcall))
    exact h.reframe hw rfl (fun f hf _ => hf) fun f hf => .inl (by rwa [if_pos rfl] at hf)

theorem VmmInv.giveBack (h : VmmInv k label x) {q : Range} {frames : Pmm} (hq : ∀ f, q.Mem f → f ∈ x.held)
    (hle : q.start + q.count ≤ x.machine.frames.frames)
    (hcall : pmmReleasePages x.machine.frames (0x1000 * q.start) q.count = some frames) :
    VmmInv k label { x with machine := { x.machine with frames }, held := x.held \ {f | q.Mem f} } := by
  obtain ⟨frames', hrel, hbytes, htotal, -, hbits⟩ := pmmReleasePages_spec h.backed.walled hle
  obtain rfl := Option.some.inj (hrel.symm.trans hcall)
  have hlen : frames'.frames = x.machine.frames.frames := by
    rw [Pmm.frames, htotal]
    rfl
  have hwall : frames'.Walled := h.backed.walled.of_same hbytes htotal (by
    rw [hbits, h.backed.walled.wall, decide_eq_false (by omega)]
    rfl)
  refine h.reframe hwall hlen (fun f hf hin => ?_) fun f hf => .inl hf.1
  have hout : ¬ (q.start ≤ f ∧ f < q.start + q.count) := fun hmem => (hin (hq f hmem)).2 hmem
  rw [hbits, hf, decide_eq_false hout]
  rfl

/-- A frame that holds no table can go back. -/
theorem Backed.release {frames : Pmm} (h : Backed k s label) (hf : InUse s label f) (hcount : count ≤ 1)
    (hcall : pmmReleasePages s.frames (0x1000 * f) count = some frames) :
    Backed k { s with frames } label ∧ ∀ g, InUse s label g → g ≠ f → InUse { s with frames } label g := by
  have hin := hf.inside
  obtain ⟨frames', hrel, hbytes, htotal, -, hbits⟩ := pmmReleasePages_spec (a := f) (n := count) h.walled (by omega)
  obtain rfl := Option.some.inj (hrel.symm.trans hcall)
  have hlen : frames'.frames = s.frames.frames := by
    rw [Pmm.frames, htotal]
    rfl
  have hother : ∀ g, s.frames.bit g = true → g ≠ f → frames'.bit g = true := fun g hg hne => by
    rw [hbits, hg, decide_eq_false (by omega)]
    rfl
  have hwall : frames'.Walled := h.walled.of_same hbytes htotal (hother _ h.walled.wall (Nat.ne_of_gt hin))
  refine ⟨h.withFrames hwall hlen fun g l hg => hother g (h.locked g l hg) ?_, fun g hg hne =>
    ⟨Nat.lt_of_lt_of_eq hg.inside hlen.symm, hother g hg.locked hne, hg.noTable⟩⟩
  rintro rfl
  have := hf.noTable
  rw [hg] at this
  contradiction

/-- The frame of a requested page is locked once for it alone, so its release
frees nothing else. -/
theorem VmmInv.release (h : VmmInv k label x) (hn : n ∈ x.roots)
    (hcall : vmmReleaseAt x.machine (framePtr n) v count = some s')
    (hfirst : present (pagingGet x.machine (framePtr n) v) = false ∨ count ≤ 1 ∧ tablePage k n v ∈ x.requested) :
    VmmInv k label { x with machine := s', requested := x.requested \ {tablePage k n v} } := by
  have hroot := h.roots n hn
  have hforest := h.backed.forest
  have hnb := hforest.bound n _ hroot
  rcases hfirst with habsent | ⟨hcount, hp⟩
  · rw [vmmReleaseAt_absent habsent] at hcall
    obtain rfl := Option.some.inj hcall
    refine h.next h.backed (fun _ _ hl => hl) h.roots Set.sdiff_subset (fun p hp => ?_)
      (fun p _ f hf hnot => ⟨hf.frame, hnot⟩) h.held
    obtain ⟨f, hf, -⟩ := h.mapped p hp.1
    exact ⟨rfl, hf.stops⟩
  · obtain ⟨f, hf, hnot⟩ := h.mapped _ hp
    obtain ⟨flags, hflags⟩ := hf.entry
    have hget : lookup x.machine.mem n v = dataEntry f flags := by rw [← pageEntry_tablePage hforest hroot, hflags]
    rw [vmmReleaseAt_data hnb (Nat.lt_of_lt_of_le hf.frame.inside h.backed.reach) hget] at hcall
    obtain ⟨frames, hpmm, rfl⟩ := Option.map_eq_some_iff.mp hcall
    obtain ⟨hb, hothers⟩ := h.backed.release hf.frame hcount hpmm
    have hh : MeetsNoHuge x.machine.mem n v 3 := by
      have hstops := hf.stops
      rwa [MeetsNoHuge, walk_tablePage hforest hroot] at hstops
    have hu := pagingUnmap_spec hb.forest hroot hh
    have huse : ∀ g, InUse x.machine label g → g ≠ f →
        InUse (pagingUnmap { x.machine with frames } (framePtr n) v) label g := fun g hg hne => by
      obtain ⟨hin, hbit, htable⟩ := hothers g hg hne
      exact ⟨by rwa [pagingUnmap_frames], by rwa [pagingUnmap_frames], htable⟩
    refine h.next (hb.unmap hroot hh) (fun _ _ hl => hl) h.roots Set.sdiff_subset (fun p hp' => ?_)
      (fun p hp' g hg hnot => ⟨huse g hg.frame ?_, hnot⟩) fun g hg => huse g (h.held g hg) fun he => hnot (he ▸ hg)
    · obtain ⟨g, hg, -⟩ := h.mapped p hp'.1
      have hpage : ¬ SamePage k n v p.1 (pageAddr p.2.toNat) := fun hsame => by
        refine hp'.2 (Set.mem_singleton_iff.mpr ?_)
        rw [← hg.page.own, tablePage_eq_iff.mpr hsame]
      refine ⟨?_, hu.stops _ _ hg.page.root hg.stops⟩
      rw [pageEntry, hu.lookup _ _ hg.page.root, if_neg hpage]
      rfl
    · rintro rfl
      refine hp'.2 (Set.mem_singleton_iff.mpr (h.distinct p hp'.1 _ hp ?_))
      rw [hg.frameOf h.backed, hf.frameOf h.backed]

theorem VmmInv.preserved : Transition.Preserved (VmmCall k) fun x => ∃ label, VmmInv k label x := by
  rintro x y ⟨label, h⟩ hcall
  cases hcall with
  | create hs => exact h.create hs
  | request hn v count flags hs => exact h.request hn hs
  | release hn v count hcall hfirst => exact ⟨label, h.release hn hcall hfirst⟩
  | take count hcall => exact ⟨label, h.take hcall⟩
  | giveBack q hq hle hcall => exact ⟨label, h.giveBack hq hle hcall⟩

-- ---------------------------------------------------------------------------
-- A request and its release
-- ---------------------------------------------------------------------------

/-- A request mapped the page, or it is mapped to a locked frame. -/
def HasFrame (k : Nat) (x : Vmm) (r : Nat) (w : U64) : Prop :=
  tablePage k r w ∈ x.requested ∨
    present (pagingGet x.machine (framePtr r) w) = true ∧
      frameOf (pagingGet x.machine (framePtr r) w) ∉ x.machine.frames.freeFrames

/-- After the request in `x`, which led to `t`, and the release, which led to
`s'`, the pages are gone again: their frames and no others are free, and every
other page that had a frame still has it. -/
structure Undone (k n : Nat) (v : U64) (count : Nat) (x : Vmm) (t s' : Machine Pmm) : Prop where
  absent : ∀ i < count, present (pagingGet s' (framePtr n) (rangePage v i)) = false
  freed : s'.frames.freeFrames =
    t.frames.freeFrames ∪ {f | ∃ i < count, frameOf (pagingGet t (framePtr n) (rangePage v i)) = f}
  kept : ∀ r ∈ x.roots, ∀ w, ¬ InRange n v count r w → HasFrame k x r w →
    pagingGet s' (framePtr r) w = pagingGet x.machine (framePtr r) w ∧
      frameOf (pagingGet s' (framePtr r) w) ∉ s'.frames.freeFrames

def ReleaseUndoes (k n : Nat) (v : U64) (count : Nat) (flags : BitVec 8) (x : Vmm) : Prop :=
  ∃ s', vmmReleaseAt (vmmRequestAt x.machine (framePtr n) v count flags) (framePtr n) v count = some s' ∧
    Undone k n v count x (vmmRequestAt x.machine (framePtr n) v count flags) s'

structure FirstPage (k n f : Nat) (v : U64) (count : Nat) (flags : BitVec 8) (s t : Machine Pmm) (label label' : Labels) :
    Prop where
  loop : RequestLoop k n v count flags s label t label'
  free : f ∈ s.frames.freeFrames
  entry : lookup t.mem n v = dataEntry f flags
  release : vmmReleaseAt t (framePtr n) v count =
    (pmmReleasePages t.frames (0x1000 * f) count).map fun frames => pagingUnmap { t with frames } (framePtr n) v
  unmap : ∀ frames : Pmm, Updates k [] n v 0 t.mem label' (pagingUnmap { t with frames } (framePtr n) v).mem label'

theorem firstPage (h : Backed k s label) (hn : label n = some ⟨n, []⟩) (hcount : 1 ≤ count)
    (habsent : ∀ i < count, present (pagingGet s (framePtr n) (rangePage v i)) = false)
    (hs : Served s (vmmRequestAt s (framePtr n) v count flags)) :
    ∃ f label', FirstPage k n f v count flags s (vmmRequestAt s (framePtr n) v count flags) label label' := by
  obtain ⟨label', hl⟩ := vmmRequestAt_loop h hn hs
  have hnb := h.forest.bound n _ hn
  have hfirst : InRange n v count n v := ⟨0, hcount, by rw [rangePage_zero], .inl rfl⟩
  have habsent₀ : present (lookup s.mem n v) = false := by
    have := habsent 0 hcount
    rwa [rangePage_zero, pagingGet_lookup hnb] at this
  obtain ⟨f, hf, -, -, hget⟩ := hl.mapped v hfirst habsent₀
  have hmeets := hl.stops n v hn (meetsNoHuge_of_absent habsent₀)
  exact ⟨f, label', hl, hf, hget, vmmReleaseAt_data hnb (Nat.lt_of_lt_of_le hf.1 h.reach) hget, fun frames =>
    pagingUnmap_spec (s := { vmmRequestAt s (framePtr n) v count flags with frames }) hl.backed.forest
      (hl.keeps n _ hn) hmeets⟩

/-- The second page of a range is still there after the release. -/
theorem VmmInv.releaseUndoes_single (h : VmmInv k label x) (hn : n ∈ x.roots) (hcount : 1 ≤ count)
    (habsent : ∀ i < count, present (pagingGet x.machine (framePtr n) (rangePage v i)) = false)
    (hs : Served x.machine (vmmRequestAt x.machine (framePtr n) v count flags))
    (hu : ReleaseUndoes k n v count flags x) : count = 1 := by
  have hroot := h.roots n hn
  obtain ⟨f, label', hp⟩ := firstPage h.backed hroot hcount habsent hs
  obtain ⟨s', hs', hu⟩ := hu
  by_contra hne
  rw [hp.release] at hs'
  obtain ⟨frames, -, rfl⟩ := Option.map_eq_some_iff.mp hs'
  have hone := hu.absent 1 (by omega)
  have hpage : ¬ SamePage k n v n (rangePage v 1) := fun hp => pageOf_rangePage_one (samePage_iff.mp hp).1.symm
  rw [pagingGet_lookup (h.backed.forest.bound n _ hroot), (hp.unmap frames).lookup n _ (hp.loop.keeps n _ hroot),
    if_neg hpage, hp.loop.all 1 (by omega)] at hone
  contradiction

theorem VmmInv.hasFrame (h : VmmInv k label x) (hr : r ∈ x.roots) (hw : HasFrame k x r w) :
    present (lookup x.machine.mem r w) = true ∧ frameOf (lookup x.machine.mem r w) ∉ x.machine.frames.freeFrames := by
  have hroot := h.roots r hr
  rcases hw with hw | hw
  · obtain ⟨f, hf, -⟩ := h.mapped _ hw
    obtain ⟨flags, hflags⟩ := hf.entry
    have hframe := hf.frameOf h.backed
    rw [pageEntry_tablePage h.backed.forest hroot] at hflags hframe
    exact ⟨by rw [hflags, present_dataEntry], by rw [hframe]; exact hf.frame.not_free⟩
  · rwa [pagingGet_lookup (h.backed.forest.bound r _ hroot)] at hw

theorem VmmInv.single_releaseUndoes (h : VmmInv k label x) (hn : n ∈ x.roots)
    (habsent : ∀ i < 1, present (pagingGet x.machine (framePtr n) (rangePage v i)) = false)
    (hs : Served x.machine (vmmRequestAt x.machine (framePtr n) v 1 flags)) : ReleaseUndoes k n v 1 flags x := by
  have hroot := h.roots n hn
  obtain ⟨f, label', hp⟩ := firstPage h.backed hroot (Nat.le_refl 1) habsent hs
  obtain ⟨t, ht⟩ : ∃ t, t = vmmRequestAt x.machine (framePtr n) v 1 flags := ⟨_, rfl⟩
  unfold ReleaseUndoes
  rw [← ht] at hp ⊢
  obtain ⟨hl, hf, hget, hrelease, hunmap⟩ := hp
  have hnb := h.backed.forest.bound n _ hroot
  have hn' := hl.keeps n _ hroot
  have hfl : f + 1 ≤ t.frames.frames := by rw [hl.frames]; exact hf.1
  obtain ⟨frames, hpmm, hlen, htotal, -, hbits⟩ := pmmReleasePages_spec (n := 1) hl.backed.walled hfl
  have hframes : frames.frames = t.frames.frames := by rw [Pmm.frames, htotal]; rfl
  have hfree := freeFrames_unlock hframes ⟨f, 1⟩ hfl hbits
  have hself : SamePage k n v n v := samePage_iff.mpr ⟨rfl, .inl rfl⟩
  have hunmapped : (pagingUnmap { t with frames } (framePtr n) v).frames = frames := pagingUnmap_frames _
  refine ⟨_, by rw [hrelease, hpmm]; rfl, fun i hi => ?_, ?_, fun r hr w hw hp => ?_⟩
  · obtain rfl := Nat.lt_one_iff.mp hi
    rw [rangePage_zero, pagingGet_lookup hnb, (hunmap frames).lookup n _ hn', if_pos hself]
    rfl
  · rw [hunmapped, hfree]
    have hframe : frameOf (pagingGet t (framePtr n) (rangePage v 0)) = f := by
      rw [rangePage_zero, pagingGet_lookup hnb, hget, frameOf_dataEntry (Nat.lt_of_lt_of_le hf.1 h.backed.reach)]
    refine congrArg (t.frames.freeFrames ∪ ·) (Set.ext fun g => ?_)
    constructor
    · rintro ⟨hle, hlt⟩
      have hle : f ≤ g := hle
      have hlt : g < f + 1 := hlt
      exact ⟨0, Nat.one_pos, by omega⟩
    · rintro ⟨i, hi, he⟩
      obtain rfl := Nat.lt_one_iff.mp hi
      exact ⟨show f ≤ g by omega, show g < f + 1 by omega⟩
  · have hrt := h.roots r hr
    have hrb := h.backed.forest.bound r _ hrt
    obtain ⟨hpres, hg⟩ := h.hasFrame hr hp
    have hpage : ¬ SamePage k n v r w := fun hp => hw ⟨0, Nat.one_pos, by rw [rangePage_zero]; exact samePage_iff.mp hp⟩
    have hsame : pagingGet (pagingUnmap { t with frames } (framePtr n) v) (framePtr r) w = lookup x.machine.mem r w := by
      rw [pagingGet_lookup hrb, (hunmap frames).lookup r w (hl.keeps r _ hrt), if_neg hpage]
      exact hl.same r w hrt (.inl hpres)
    rw [hsame, pagingGet_lookup hrb, hunmapped, hfree]
    refine ⟨rfl, ?_⟩
    rintro (⟨hlt, hbit⟩ | ⟨hle, hlt⟩)
    · refine hg ⟨hl.frames ▸ hlt, ?_⟩
      cases hx : x.machine.frames.bit (frameOf (lookup x.machine.mem r w)) with
      | false => rfl
      | true => exact (hl.locked _ hx).symm.trans hbit
    · simp only at hle hlt
      have : frameOf (lookup x.machine.mem r w) = f := by omega
      exact hg (this ▸ hf)

theorem requestable_small (v : U64) (count : Nat) (hcount : count ≤ 16) (flags : BitVec 8)
    (huser : ∀ i < count, kernelHalf (rangePage v i) = false) :
    ∃ (s : Machine Pmm) (k n : Nat) (label : Labels), SmallStart s k n label ∧
      (∀ i < count, present (pagingGet s (framePtr n) (rangePage v i)) = false) ∧
      Served s (vmmRequestAt s (framePtr n) v count flags) := by
  obtain ⟨s, k, n, label, h⟩ := smallStart
  obtain ⟨c, hc, ha⟩ := vmmRequestAt_allocates s (framePtr n) v flags count
  have hroom := h.room
  refine ⟨s, k, n, label, h, fun i hi => ?_, (ha.served_untouched h.untouched (by omega)).1⟩
  rw [pagingGet_lookup (h.backed.forest.bound n _ h.table), h.empty _ (huser i hi)]
  rfl

theorem Pmm.Untouched.le_nextFrames : ∀ {n : Nat} {f : Pmm}, f.Untouched → f.lastFree + n ≤ f.frames →
    ∀ p ∈ nextFrames f n, f.lastFree ≤ frameNo p
  | 0, _, _, _, _, hp => absurd hp List.not_mem_nil
  | n + 1, f, h, hle, p, hp => by
    obtain ⟨f', hreq, h', hhint, hframes⟩ := h.request (by omega)
    rw [nextFrames, hreq, List.mem_cons] at hp
    rcases hp with rfl | hp
    · rw [frameNo_frame (h.walled.frame_lt (by omega))]
    · have := h'.le_nextFrames (by omega) p hp
      omega

/-- A frame given back from before the hint, which stays where it is. -/
theorem Pmm.Untouched.release {f f' : Pmm} {a : Nat} (h : f.Untouched) (ha : a < f.frames) (hhint : f.lastFree ≤ 0x1000 * a)
    (hcall : pmmReleasePages f (0x1000 * a) 1 = some f') :
    f'.Untouched ∧ f'.lastFree = f.lastFree ∧ f'.frames = f.frames := by
  obtain ⟨f₁, hrel, hbytes, htotal, hlast, hbits⟩ := pmmReleasePages_spec (n := 1) h.walled ha
  obtain rfl := Option.some.inj (hrel.symm.trans hcall)
  have hframes : f₁.frames = f.frames := by
    rw [Pmm.frames, htotal]
    rfl
  have hhint' : f₁.lastFree = f.lastFree := hlast.trans (Nat.min_eq_left hhint)
  refine ⟨⟨h.walled.of_same hbytes htotal ?_, hhint' ▸ h.hint, fun j hj hlt => ?_⟩, hhint', hframes⟩
  · rw [hbits, h.walled.wall, decide_eq_false (by omega)]
    rfl
  · rw [hbits, h.free j (hhint' ▸ hj) (hframes ▸ hlt), Bool.and_false]

theorem released_small (h : SmallStart s k n label)
    (habsent : ∀ i < 2, present (pagingGet s (framePtr n) (rangePage v i)) = false) (flags : BitVec 8) :
    ∃ s', vmmReleaseAt (vmmRequestAt s (framePtr n) v 2 flags) (framePtr n) v 1 = some s' ∧ s'.frames.Untouched ∧
      s'.frames.lastFree ≤ s.frames.lastFree + 8 ∧ s'.frames.frames = s.frames.frames ∧
      ∀ w, ¬ InRange n v 2 n w → lookup s'.mem n w = lookup s.mem n w := by
  have hroom := h.room
  obtain ⟨c, hc, ha⟩ := vmmRequestAt_allocates s (framePtr n) v flags 2
  obtain ⟨hs, hu, hhint, hlen⟩ := ha.served_untouched h.untouched (by omega)
  obtain ⟨f, label', hp⟩ := firstPage h.backed h.table (by decide) habsent hs
  obtain ⟨t, ht⟩ : ∃ t, t = vmmRequestAt s (framePtr n) v 2 flags := ⟨_, rfl⟩
  rw [← ht] at ha hu hhint hlen hp ⊢
  obtain ⟨hl, hfree, hget, -, hunmap⟩ := hp
  have hfirst : InRange n v 2 n v := ⟨0, by decide, by rw [rangePage_zero], .inl rfl⟩
  -- the frame is one of the answers, so it lies behind the old hint
  have hbehind : s.frames.lastFree ≤ f := by
    have hanswers := nextFrames_pmm h.backed.walled (ha.served (ht ▸ hs))
    rw [← ha.frames] at hanswers
    have habsent₀ : present (lookup s.mem n v) = false := by
      have := habsent 0 (by decide)
      rwa [rangePage_zero, pagingGet_lookup (h.backed.forest.bound n _ h.table)] at this
    obtain ⟨g, hg, hbit, -, hget'⟩ := hl.mapped v hfirst habsent₀
    obtain rfl : f = g := by
      have := congrArg frameOf (hget.symm.trans hget')
      rwa [frameOf_dataEntry (Nat.lt_of_lt_of_le hfree.1 h.backed.reach),
        frameOf_dataEntry (Nat.lt_of_lt_of_le hg.1 h.backed.reach)] at this
    rw [hanswers.bits, hg.2, Bool.or_false, decide_eq_true_iff, List.mem_map] at hbit
    obtain ⟨p, hp, rfl⟩ := hbit
    exact h.untouched.le_nextFrames (by omega) p (List.mem_reverse.mp hp)
  have hpos := h.untouched.hint
  have hin : f < t.frames.frames := hl.frames ▸ hfree.1
  obtain ⟨frames, hrel, -⟩ := pmmReleasePages_spec (a := f) (n := 1) hu.walled hin
  obtain ⟨hu', hhint', hlen'⟩ := hu.release hin (by omega) hrel
  have hnb := h.backed.forest.bound n _ h.table
  have hfb := Nat.lt_of_lt_of_le hfree.1 h.backed.reach
  refine ⟨_, by rw [vmmReleaseAt_data hnb hfb hget, hrel]; rfl, ?_, ?_, ?_, fun w hw => ?_⟩
  · rw [pagingUnmap_frames]
    exact hu'
  · rw [pagingUnmap_frames]
    exact hhint'.trans_le (by omega)
  · rw [pagingUnmap_frames]
    exact hlen'.trans hlen
  · have hpage : ¬ SamePage k n v n w := fun hsame =>
      hw ⟨0, by decide, by rw [rangePage_zero]; exact samePage_iff.mp hsame⟩
    rw [(hunmap frames).lookup n w (hl.keeps n _ h.table), if_neg hpage]
    exact hl.same n w h.table (.inr hw)

end ShedOS.Memory
