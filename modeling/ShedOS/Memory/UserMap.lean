import ShedOS.Memory.VmmRuns

/-!
# Filling the user half of a table

A page of the user half goes into the tables of its own top-level table and
into fresh frames. No other byte changes, so that the kernel half keeps its
translations, huge pages included. Stores through the new pages stay in the new
frames.
-/

namespace ShedOS.Memory

open Bytes Loops

variable {σ : Type} {m m' : Mem} {label label' : Labels} {l : Label} {k n c r a level : Nat} {v w : U64}
  {flags : BitVec 8} {new : List U64} {i : Fin 512}

/-- Outside of the tables that belong to `n`, and of the new frames. -/
def Foreign (n : Nat) (label : Labels) (new : List U64) (a : Nat) : Prop :=
  a / 0x1000 ∉ new.map frameNo ∧ ∀ l, label (a / 0x1000) = some l → l.root ≠ n

theorem Foreign.earlier {new' : List U64} (h : Foreign n label (new' ++ new) a) : Foreign n label new a :=
  ⟨fun hmem => h.1 (by rw [List.map_append]; exact List.mem_append_right _ hmem), h.2⟩

theorem Foreign.later {new' : List U64} (h : Foreign n label (new' ++ new) a)
    (hfresh : ∀ n l, label' n = some l → label n = some l ∨ (l.path ≠ [] ∧ n ∈ new.map frameNo)) :
    Foreign n label' new' a := by
  have hnew : a / 0x1000 ∉ new.map frameNo := h.earlier.1
  refine ⟨fun hmem => h.1 (by rw [List.map_append]; exact List.mem_append_left _ hmem), fun l hl => ?_⟩
  rcases hfresh _ l hl with hl | ⟨-, hmem⟩
  · exact h.2 l hl
  · exact absurd hmem hnew

theorem Label.root_step (hpath : l.path = [] → i.val < 256) : (Label.step k l i).root = l.root := by
  unfold Label.step
  cases hl : l.path with
  | nil => exact if_neg (Nat.not_le_of_lt (hpath hl))
  | cons _ _ => rfl

section Walk

variable [FrameSource σ]

theorem pagingMapWalk_foreign : ∀ {level : Nat} {s : Machine σ} {c : Nat} {l : Label} {label : Labels} {new : List U64},
    Forest k s.mem label → label c = some l → l.root = n → l.depth + level = 3 → MeetsNoHuge s.mem c v level →
    kernelHalf v = false → (pagingMapWalk v level s (framePtr c)).1.handed = new ++ s.handed → FreshFrames label new →
    Foreign n label new a → (pagingMapWalk v level s (framePtr c)).1.mem a = s.mem a := by
  intro level
  induction level with
  | zero => exact fun _ _ _ _ _ _ _ _ _ => rfl
  | succ level ih =>
    intro s c l label new hf hc hroot hd hh hv hnew hfresh ha
    have hcb := hf.bound c l hc
    have hentry : s.entry (framePtr c) (vaddrToIndex v (level + 1)) =
        tableRead s.mem c (tableIndex v (level + 1)) :=
      Machine.entry_framePtr hcb (vaddrToIndex_lt v (level + 1))
    -- in the uppermost table the slot is one of the user half
    have hstep : (Label.step k l (tableIndex v (level + 1))).root = n := by
      rw [Label.root_step fun hpath => ?_, hroot]
      have hlevel : level = 2 := by
        rw [Label.depth, hpath] at hd
        simpa using hd
      subst hlevel
      exact Nat.lt_of_not_le (of_decide_eq_false hv)
    cases hp : present (tableRead s.mem c (tableIndex v (level + 1))) with
    | true =>
      obtain ⟨d, hnext, hh⟩ := meetsNoHuge_succ.mp hh hp
      have hd' := hf.labelled c l _ d hc (by omega) hnext
      rw [pagingMapWalk_present (by rw [hentry, hp]), hentry, childTable_eq,
        (nextTable_eq_some.mp hnext).2.2] at hnew ⊢
      exact ih hf hd' hstep (by rw [Label.depth_step]; omega) hh hv hnew hfresh ha
    | false =>
      obtain ⟨t, d, p, new', label₁, hwalk, rfl, hpd, hdb, hdl, hmem, hnew', hgrow, hlabel⟩ :=
        pagingMapWalk_attach hf hc hd hp hnew hfresh
      have hzero : ∀ j, tableRead t.mem d j = 0 := fun j => by
        have hdc : d ≠ c := fun e => by rw [e, hc] at hdl; contradiction
        rw [hmem, tableRead_attach, if_neg (fun h => hdc h.1), if_pos rfl]
      have had : a / 0x1000 ≠ d := fun e => ha.1 (by
        rw [List.map_append, List.mem_append]
        refine .inr (List.mem_singleton.mpr ?_)
        rw [e, hpd, frameNo, toNat_frame hdb]
        omega)
      have hac : a / 0x1000 ≠ c := fun e => ha.2 l (by rw [e, hc]) hroot
      rw [hwalk, ih hgrow.forest hlabel hstep (by rw [Label.depth_step]; omega) (meetsNoHuge_empty hzero) hv hnew'
        (hfresh.later hgrow) (ha.later hgrow.fresh), hmem, attach, writeEntry_byte (tableIndex v (level + 1)).isLt hac,
        zeroFrame_byte had]

theorem pagingMap_foreign {s : Machine σ} {paddr : U64} (hf : Forest k s.mem label) (hn : label n = some ⟨n, []⟩)
    (hh : MeetsNoHuge s.mem n v 3) (hv : kernelHalf v = false)
    (hnew : (pagingMap s (framePtr n) v paddr flags).handed = new ++ s.handed) (hfresh : FreshFrames label new)
    (ha : Foreign n label new a) : (pagingMap s (framePtr n) v paddr flags).mem a = s.mem a := by
  have hwalk := pagingMapWalk_foreign hf hn rfl (by simp [Label.depth]) hh hv hnew hfresh ha
  obtain ⟨s', g, label', hspec, hg, hleaf⟩ := pagingMapWalk_spec hf hn (by simp [Label.depth]) hh hnew hfresh
  have hlabel := Radix.descend_label hg.forest.labelled (Label.depth_step k) (hg.keeps n _ hn)
    (by simp [Label.depth]) hleaf
  rw [foldl_step_indices] at hlabel
  -- the leaf table belongs to `n` as well
  have hhome : (leafLabel k n v).root = n := if_neg (of_decide_eq_false hv)
  have hag : a / 0x1000 ≠ g := by
    intro e
    rcases hg.fresh g _ hlabel with hold | ⟨-, hmem⟩
    · exact ha.2 _ (by rw [e, hold]) hhome
    · exact ha.1 (by rwa [e])
  rw [pagingMap, hspec]
  simp only
  rw [Machine.setEntry_framePtr (hg.forest.bound g _ hlabel) (vaddrToIndex_lt v 0)]
  rw [hspec] at hwalk
  exact (writeEntry_byte (vaddrToIndex_lt v 0) hag).trans hwalk

theorem vmmRequestPage_foreign {s : Machine σ} (h : PagingInv k s label) (hn : label n = some ⟨n, []⟩)
    (hv : kernelHalf v = false) (hnew : (vmmRequestPage s (framePtr n) v flags).handed = new ++ s.handed)
    (hfresh : FreshFrames label new) (ha : Foreign n label new a) :
    (vmmRequestPage s (framePtr n) v flags).mem a = s.mem a := by
  cases hp : present (lookup s.mem n v) with
  | true =>
    rw [vmmRequestPage, pagingGet_lookup (h.forest.bound n _ hn)]
    simp only [hp, if_true]
  | false =>
    obtain ⟨t, p, new', rfl, ht, hinv, hcall, hnew'⟩ := vmmRequestPage_split h hn hp hnew
    have ha' : Foreign n label new' a :=
      ⟨fun hmem => ha.1 (by rw [List.map_append]; exact List.mem_append_left _ hmem), ha.2⟩
    rw [hcall, pagingMap_foreign hinv.forest hn (by rw [ht]; exact meetsNoHuge_of_absent hp) hv hnew' hfresh.left ha', ht]

end Walk

-- ---------------------------------------------------------------------------
-- The MMU in tables that stay
-- ---------------------------------------------------------------------------

theorem mmuFrom_step {c c' : Nat} (he : tableRead m' c' (tableIndex v (level + 1)) = tableRead m c (tableIndex v (level + 1)))
    (hbelow : ∀ d, nextTable (tableRead m c (tableIndex v (level + 1))) = some d → mmuFrom m' v level d = mmuFrom m v level d) :
    mmuFrom m' v (level + 1) c' = mmuFrom m v (level + 1) c := by
  cases hp : present (tableRead m c (tableIndex v (level + 1))) with
  | false => rw [mmuFrom_absent (he ▸ hp), mmuFrom_absent hp]
  | true =>
    cases hh : huge (tableRead m c (tableIndex v (level + 1))) with
    | true => rw [mmuFrom_huge (he ▸ hp) (he ▸ hh), mmuFrom_huge hp hh, he]
    | false =>
      obtain ⟨d, hnext⟩ : ∃ d, nextTable (tableRead m c (tableIndex v (level + 1))) = some d := ⟨_, nextTable_eq_some.mpr ⟨hp, hh, rfl⟩⟩
      have hnext' : nextTable (tableRead m' c' (tableIndex v (level + 1))) = some d := he ▸ hnext
      rw [mmuFrom_next hnext', mmuFrom_next hnext]
      exact hbelow d hnext

theorem Forest.mmuFrom_congr {P : Label → Prop} (hf : Forest k m label)
    (hstep : ∀ l i, l.path ≠ [] → P l → P (Label.step k l i))
    (hsame : ∀ c l, label c = some l → P l → ∀ i, tableRead m' c i = tableRead m c i) :
    ∀ {level c : Nat} {l : Label}, label c = some l → P l → l.path ≠ [] → l.depth + level = 3 →
      mmuFrom m' v level c = mmuFrom m v level c
  | 0, c, l, hc, hl, _, _ => by
    have he : entryAt m' c (vaddrToIndex v 0) = entryAt m c (vaddrToIndex v 0) := hsame c l hc hl (tableIndex v 0)
    rw [mmuFrom, he, mmuFrom]
  | level + 1, c, l, hc, hl, hpath, hd => by
    refine mmuFrom_step (hsame c l hc hl (tableIndex v (level + 1))) fun d hnext => ?_
    have hlabel := hf.labelled c l (tableIndex v (level + 1)) d hc (by omega) hnext
    exact hf.mmuFrom_congr hstep hsame hlabel (hstep l _ hpath hl) (Label.step_path_ne _ _ _)
      (by rw [Label.depth_step]; omega)

theorem Forest.mmu_kernel {r : Nat} (hf : Forest k m label) (hf' : Forest k m' label')
    (hsame : ∀ c l, label c = some l → ∀ i, tableRead m' c i = tableRead m c i) (hn : label n = some ⟨n, []⟩)
    (hr : label' r = some ⟨r, []⟩) (hv : kernelHalf v = true) : mmu m' r v = mmu m n v := by
  have hi : 256 ≤ (tableIndex v 3).val := of_decide_eq_true hv
  have hk := hf.kernel
  have he : tableRead m' r (tableIndex v 3) = tableRead m n (tableIndex v 3) := by
    rw [hf'.shared r hr _ hi, hf.shared n hn _ hi, hsame k _ hk]
  refine mmuFrom_step he fun d hnext => ?_
  have hlabel := hf.labelled n _ (tableIndex v 3) d hn (by simp [Label.depth]) hnext
  exact hf.mmuFrom_congr (P := fun _ => True) (fun _ _ _ _ => trivial) (fun c l hc _ => hsame c l hc) hlabel trivial
    (Label.step_path_ne _ _ _) (by rw [Label.depth_step]; rfl)

-- ---------------------------------------------------------------------------
-- A table that is being filled
-- ---------------------------------------------------------------------------

variable {s s₀ s' : Machine Pmm} {label₀ : Labels} {x : BitVec 8}

/-- From `m` on the pages of `P` in the user half were mapped with `flags`, as
far as they were absent. -/
structure Maps (n : Nat) (flags : BitVec 8) (P : U64 → Prop) (m m' : Mem) : Prop where
  kept : ∀ w, kernelHalf w = false → present (lookup m n w) = true → lookup m' n w = lookup m n w
  only : ∀ w, kernelHalf w = false → present (lookup m' n w) = true →
    present (lookup m n w) = true ∨ P w ∧ ∃ f, lookup m' n w = dataEntry f flags
  all : ∀ w, kernelHalf w = false → P w → present (lookup m' n w) = true

theorem Maps.refl : Maps n flags (fun _ => False) m m := ⟨fun _ _ _ => rfl, fun _ _ h => .inl h, fun _ _ h => h.elim⟩

theorem Maps.trans {P Q : U64 → Prop} {m'' : Mem} (h : Maps n flags P m m') (h' : Maps n flags Q m' m'') :
    Maps n flags (fun w => P w ∨ Q w) m m'' where
  kept w hw hp := by
    have hkept := h.kept w hw hp
    rw [h'.kept w hw (by rwa [hkept]), hkept]
  only w hw hp := by
    rcases h'.only w hw hp with hp' | ⟨hq, f, hf⟩
    · rw [h'.kept w hw hp']
      exact (h.only w hw hp').imp_right fun ⟨hP, hf⟩ => ⟨.inl hP, hf⟩
    · exact .inr ⟨.inr hq, f, hf⟩
  all w hw hPQ := by
    rcases hPQ with hP | hQ
    · have hp := h.all w hw hP
      rwa [h'.kept w hw hp]
    · exact h'.all w hw hQ

theorem Maps.congr {P Q : U64 → Prop} (h : Maps n flags P m m') (hPQ : ∀ w, P w ↔ Q w) : Maps n flags Q m m' where
  kept := h.kept
  only w hw hp := (h.only w hw hp).imp_right fun ⟨hP, hf⟩ => ⟨(hPQ w).mp hP, hf⟩
  all w hw hQ := h.all w hw ((hPQ w).mpr hQ)

theorem Maps.stored {P : U64 → Prop} {m'' : Mem} (h : Maps n flags P m m') (hsame : ∀ w, lookup m'' n w = lookup m' n w) :
    Maps n flags P m m'' where
  kept w hw hp := by rw [hsame, h.kept w hw hp]
  only w hw hp := by
    rw [hsame] at hp ⊢
    exact h.only w hw hp
  all w hw hP := by
    rw [hsame]
    exact h.all w hw hP

/-- Since `s₀` pages of the user half of the table in frame `n` have been
mapped to frames that were free then, each to its own. No byte is foreign to
that but those of the frames taken since, and of the tables of `n`. -/
structure UserMap (k n : Nat) (s₀ : Machine Pmm) (label₀ : Labels) (s : Machine Pmm) (label : Labels) : Prop where
  backed : Backed k s label
  table : label n = some ⟨n, []⟩
  root : s.root = n
  locked : ∀ f, s₀.frames.bit f = true → s.frames.bit f = true
  keeps : ∀ f l, label₀ f = some l → label f = some l
  fresh : ∀ f l, label f = some l → label₀ f = some l ∨ s₀.frames.bit f = false
  others : ∀ r v, label₀ r = some ⟨r, []⟩ → (r ≠ n ∨ kernelHalf v = true) → lookup s.mem r v = lookup s₀.mem r v
  data : ∀ v, kernelHalf v = false → present (lookup s.mem n v) = true →
    s₀.frames.bit (frameOf (lookup s.mem n v)) = false ∧ s.frames.bit (frameOf (lookup s.mem n v)) = true ∧
      label (frameOf (lookup s.mem n v)) = none
  distinct : ∀ v w, kernelHalf v = false → kernelHalf w = false → present (lookup s.mem n v) = true →
    present (lookup s.mem n w) = true → frameOf (lookup s.mem n v) = frameOf (lookup s.mem n w) → pageOf v = pageOf w
  foreign : ∀ a, s.frames.bit (a / 0x1000) = s₀.frames.bit (a / 0x1000) →
    (∀ l, label₀ (a / 0x1000) = some l → l.root ≠ n) → s.mem a = s₀.mem a

theorem UserMap.start (h : Backed k s label) (hn : label n = some ⟨n, []⟩) (hroot : s.root = n)
    (hempty : ∀ v, kernelHalf v = false → present (lookup s.mem n v) = false) : UserMap k n s label s label where
  backed := h
  table := hn
  root := hroot
  locked _ hf := hf
  keeps _ _ hl := hl
  fresh _ _ hl := .inl hl
  others _ _ _ _ := rfl
  data v hv hp := by
    rw [hempty v hv] at hp
    contradiction
  distinct v _ hv _ hp := by
    rw [hempty v hv] at hp
    contradiction
  foreign _ _ _ := rfl

namespace UserMap

theorem mmu_user (h : UserMap k n s₀ label₀ s label) (hv : kernelHalf v = false) :
    mmu s.mem n v = leafAddr (lookup s.mem n v) v :=
  mmu_lookup (h.backed.windows n v h.table (not_inWindow_user hv))

theorem mmu_present (h : UserMap k n s₀ label₀ s label) (hv : kernelHalf v = false)
    (hp : present (lookup s.mem n v) = true) :
    mmu s.mem n v = some (0x1000 * frameOf (lookup s.mem n v) + v.toNat % 0x1000) := by
  rw [h.mmu_user hv, leafAddr, if_pos hp]

theorem present_of_mmu (h : UserMap k n s₀ label₀ s label) (hv : kernelHalf v = false)
    (hm : mmu s.mem n v = some a) : present (lookup s.mem n v) = true := by
  rw [h.mmu_user hv, leafAddr] at hm
  split at hm
  next hp => exact hp
  next => cases hm

theorem foreign_now {f : Nat} (h : UserMap k n s₀ label₀ s label) (hbit : s.frames.bit f = s₀.frames.bit f)
    (hl : ∀ l, label₀ f = some l → l.root ≠ n) : ∀ l, label f = some l → l.root ≠ n := by
  intro l hlab
  rcases h.fresh _ l hlab with hlab' | hfree
  · exact hl l hlab'
  · rw [hfree, h.backed.locked f l hlab] at hbit
    contradiction

theorem free_then (h : UserMap k n s₀ label₀ s label) {f : Nat} (hf : f ∈ s.frames.freeFrames) :
    s₀.frames.bit f = false := by
  cases hbit : s₀.frames.bit f with
  | false => rfl
  | true => exact absurd (h.locked f hbit) (by rw [hf.2]; exact Bool.false_ne_true)

theorem added (h : UserMap k n s₀ label₀ s label) (hv : kernelHalf v = false) {f : Nat}
    (hpage : NewPage k n f v flags new s label s' label') (hroot : s'.root = n)
    (hforeign : ∀ a, s'.frames.bit (a / 0x1000) = s.frames.bit (a / 0x1000) →
      (∀ l, label (a / 0x1000) = some l → l.root ≠ n) → s'.mem a = s.mem a) : UserMap k n s₀ label₀ s' label' := by
  have hlock : ∀ {x}, s.frames.bit x = true → s'.frames.bit x = true := fun hx => by
    rw [hpage.answers.bits, hx, Bool.or_true]
  have hfb : f < frameLimit := Nat.lt_of_lt_of_le hpage.free.1 h.backed.reach
  have hlookup : ∀ w, lookup s'.mem n w = if SamePage k n v n w then dataEntry f flags else lookup s.mem n w :=
    fun w => hpage.lookup n w h.table
  have hframe : ∀ {w}, SamePage k n v n w → frameOf (lookup s'.mem n w) = f := fun hw => by
    rw [hlookup, if_pos hw, frameOf_dataEntry hfb]
  -- the frames of the pages before are not the new one
  have hne : ∀ {w}, kernelHalf w = false → present (lookup s.mem n w) = true → frameOf (lookup s.mem n w) ≠ f := by
    intro w hw hp he
    have htaken := (h.data w hw hp).2.1
    rw [he, hpage.free.2] at htaken
    contradiction
  refine ⟨hpage.backed, hpage.keeps n _ h.table, hroot, fun x hx => hlock (h.locked x hx),
    fun x l hl => hpage.keeps x l (h.keeps x l hl), fun x l hl => ?_, fun r w hr hw => ?_, fun w hw hp => ?_,
    fun u w hu hw hpu hpw he => ?_, fun a hbit hl => ?_⟩
  · rcases hpage.fresh x l hl with hl | hfree
    · exact h.fresh x l hl
    · exact .inr (h.free_then hfree)
  · rw [hpage.lookup r w (h.keeps r _ hr), if_neg, h.others r w hr hw]
    rintro hsame
    obtain ⟨hpw, hrn⟩ := samePage_iff.mp hsame
    have hwu : kernelHalf w = false := by rw [← kernelHalf_congr hpw, hv]
    rcases hrn with rfl | hk
    · rcases hw with hw | hw
      · exact hw rfl
      · rw [hwu] at hw
        contradiction
    · rw [hv] at hk
      contradiction
  · by_cases hsame : SamePage k n v n w
    · rw [hframe hsame]
      exact ⟨h.free_then hpage.free, hpage.taken, hpage.noTable⟩
    · rw [hlookup, if_neg hsame] at hp ⊢
      obtain ⟨hfree, htaken, hnone⟩ := h.data w hw hp
      refine ⟨hfree, hlock htaken, ?_⟩
      cases hl : label' (frameOf (lookup s.mem n w)) with
      | none => rfl
      | some l =>
        rcases hpage.fresh _ l hl with hl | hmem
        · rw [hnone] at hl
          contradiction
        · rw [hmem.2] at htaken
          contradiction
  · by_cases hsu : SamePage k n v n u <;> by_cases hsw : SamePage k n v n w
    · exact (samePage_iff.mp hsu).1.symm.trans (samePage_iff.mp hsw).1
    · rw [hframe hsu, hlookup, if_neg hsw] at he
      rw [hlookup, if_neg hsw] at hpw
      exact absurd he.symm (hne hw hpw)
    · rw [hframe hsw, hlookup, if_neg hsu] at he
      rw [hlookup, if_neg hsu] at hpu
      exact absurd he (hne hu hpu)
    · rw [hlookup, if_neg hsu] at hpu he
      rw [hlookup, if_neg hsw] at hpw he
      exact h.distinct u w hu hw hpu hpw he
  · -- the bit has not changed on the way either
    have hmid : s.frames.bit (a / 0x1000) = s₀.frames.bit (a / 0x1000) := by
      cases hs₀ : s₀.frames.bit (a / 0x1000) with
      | true => exact h.locked _ hs₀
      | false =>
        refine Bool.eq_false_iff.mpr fun hs => ?_
        rw [hlock hs, hs₀] at hbit
        contradiction
    rw [hforeign a (hbit.trans hmid.symm) (h.foreign_now hmid hl), h.foreign a hmid hl]

theorem page (h : UserMap k n s₀ label₀ s label) (hv : kernelHalf v = false)
    (hs : Served s (vmmRequestPage s (framePtr n) v flags)) :
    ∃ label', UserMap k n s₀ label₀ (vmmRequestPage s (framePtr n) v flags) label' ∧
      Maps n flags (fun w => pageOf w = pageOf v) s.mem (vmmRequestPage s (framePtr n) v flags).mem ∧
      ∀ w, kernelHalf w = false → present (lookup s.mem n w) = true →
        ∀ a, a / 0x1000 = frameOf (lookup s.mem n w) → (vmmRequestPage s (framePtr n) v flags).mem a = s.mem a := by
  cases hp : present (lookup s.mem n v) with
  | true =>
    have hsame : vmmRequestPage s (framePtr n) v flags = s := by
      rw [vmmRequestPage, pagingGet_lookup (h.backed.forest.bound n _ h.table)]
      simp only [hp, if_true]
    rw [hsame]
    refine ⟨label, h, ⟨fun _ _ _ => rfl, fun w _ hpw => .inl hpw, fun w _ hw => ?_⟩, fun _ _ _ _ _ => rfl⟩
    rwa [lookup_of_page hw]
  | false =>
    obtain ⟨c, -, hc⟩ := vmmRequestPage_allocates s (framePtr n) v flags
    obtain ⟨new, hnew, ha⟩ := hc.answers h.backed.walled hs
    have hfresh := h.backed.fresh ha
    obtain ⟨f, new', label', hpage⟩ := vmmRequestPage_new h.backed h.table hp hs
    have hforeign : ∀ a, (vmmRequestPage s (framePtr n) v flags).frames.bit (a / 0x1000) = s.frames.bit (a / 0x1000) →
        (∀ l, label (a / 0x1000) = some l → l.root ≠ n) →
        (vmmRequestPage s (framePtr n) v flags).mem a = s.mem a := fun a hbit hl => by
      refine vmmRequestPage_foreign h.backed.toPagingInv h.table hv hnew hfresh ⟨fun hmem => ?_, hl⟩
      obtain ⟨p, hpm, he⟩ := List.mem_map.mp hmem
      have hfree := (ha.free p hpm).2
      rw [he, ← hbit, ha.bits, decide_eq_true hmem, Bool.true_or] at hfree
      contradiction
    have hroot : (vmmRequestPage s (framePtr n) v flags).root = n := by rw [Machine.root, hc.cr3]; exact h.root
    refine ⟨label', h.added hv hpage hroot hforeign, ⟨fun w hw hpw => ?_, fun w hw hpw => ?_, fun w hw he => ?_⟩,
      fun w hw hpw a ha => ?_⟩
    · rw [hpage.lookup n w h.table, if_neg]
      intro hsame
      rw [← lookup_of_page (samePage_iff.mp hsame).1, hp] at hpw
      contradiction
    · rw [hpage.lookup n w h.table] at hpw ⊢
      split at hpw
      next hsame =>
        rw [if_pos hsame]
        exact .inr ⟨(samePage_iff.mp hsame).1.symm, f, rfl⟩
      next => exact .inl hpw
    · rw [hpage.lookup n w h.table, if_pos (samePage_iff.mpr ⟨he.symm, .inl rfl⟩)]
      exact present_dataEntry
    · obtain ⟨-, htaken, hnone⟩ := h.data w hw hpw
      refine hforeign a ?_ fun l hl => ?_
      · rw [ha, htaken, hpage.answers.bits, htaken, Bool.or_true]
      · rw [ha, hnone] at hl
        contradiction

end UserMap

-- ---------------------------------------------------------------------------
-- Stores through the new pages
-- ---------------------------------------------------------------------------

/-- What a read at `v` under the table in frame `r` gives; `none` is a page fault. -/
def readByte (m : Mem) (r : Nat) (v : U64) : Option (BitVec 8) := (mmu m r v).map m

theorem kernelHalf_of_lt (h : v.toNat < 2 ^ 47) : kernelHalf v = false := by
  refine decide_eq_false (Nat.not_le_of_lt ?_)
  rw [vaddrToIndex_eq]
  omega

theorem Backed.withMem (h : Backed k s label) (hread : ∀ n l i, label n = some l → tableRead m' n i = tableRead s.mem n i) :
    Backed k { s with mem := m' } label where
  forest := h.forest.congr hread
  kernelTable := h.kernelTable
  handed := h.handed
  windows r v hr hv := (h.forest.meetsNoHuge_congr hr hread).mpr (h.windows r v hr hv)
  walled := h.walled
  reach := h.reach
  locked := h.locked

theorem Backed.store {g : Nat} (h : Backed k s label) (hg : label g = none) (hm : ∀ a, a / 0x1000 ≠ g → m' a = s.mem a) :
    Backed k { s with mem := m' } label :=
  h.withMem (tableRead_outside hg hm)

namespace UserMap

theorem store (h : UserMap k n s₀ label₀ s label) (hv : kernelHalf v = false)
    (hp : present (lookup s.mem n v) = true)
    (hm : ∀ a, a / 0x1000 ≠ frameOf (lookup s.mem n v) → m' a = s.mem a) :
    UserMap k n s₀ label₀ { s with mem := m' } label ∧
      ∀ r w, label r = some ⟨r, []⟩ → lookup m' r w = lookup s.mem r w := by
  obtain ⟨hfree, htaken, hnone⟩ := h.data v hv hp
  have hlookup : ∀ r w, label r = some ⟨r, []⟩ → lookup m' r w = lookup s.mem r w := fun r w hr =>
    h.backed.forest.lookup_congr hr (tableRead_outside hnone hm)
  have hn : ∀ w, lookup m' n w = lookup s.mem n w := fun w => hlookup n w h.table
  refine ⟨⟨h.backed.store hnone hm, h.table, h.root, h.locked, h.keeps, h.fresh, fun r w hr hw => ?_, fun w hw hpw => ?_,
    fun u w hu hw hpu hpw he => ?_, fun a hbit hl => ?_⟩, hlookup⟩
  · exact (hlookup r w (h.keeps r _ hr)).trans (h.others r w hr hw)
  · simp only [hn] at hpw ⊢
    exact h.data w hw hpw
  · simp only [hn] at hpu hpw he
    exact h.distinct u w hu hw hpu hpw he
  · refine (hm a fun e => ?_).trans (h.foreign a hbit hl)
    rw [e, htaken, hfree] at hbit
    contradiction

theorem setByte (h : UserMap k n s₀ label₀ s label) (hv : v.toNat < 2 ^ 47) (hm : mmu s.mem n v = some a) :
    UserMap k n s₀ label₀ { s with mem := s.mem.setByte a x } label ∧
      (∀ r w, label r = some ⟨r, []⟩ → lookup (s.mem.setByte a x) r w = lookup s.mem r w) ∧
      ∀ w : U64, w.toNat < 2 ^ 47 →
        readByte (s.mem.setByte a x) n w = if w = v then some x else readByte s.mem n w := by
  have huser := kernelHalf_of_lt hv
  have hp := h.present_of_mmu huser hm
  have ha : a = 0x1000 * frameOf (lookup s.mem n v) + v.toNat % 0x1000 :=
    Option.some.inj (hm.symm.trans (h.mmu_present huser hp))
  have hset : ∀ b, b / 0x1000 ≠ frameOf (lookup s.mem n v) → (s.mem.setByte a x) b = s.mem b := fun b hb =>
    Mem.setByte_ne (by omega)
  obtain ⟨h', hlookup⟩ := h.store huser hp hset
  refine ⟨h', hlookup, fun w hw => ?_⟩
  have hwu := kernelHalf_of_lt hw
  have hmmu : mmu (s.mem.setByte a x) n w = mmu s.mem n w := by
    rw [h.mmu_user hwu, ← hlookup n w h.table]
    exact h'.mmu_user hwu
  rw [readByte, hmmu]
  split
  next he =>
    rw [he, hm]
    exact congrArg some Mem.setByte_same
  next hne =>
    rw [readByte]
    cases hb : mmu s.mem n w with
    | none => rfl
    | some b =>
      refine congrArg some (Mem.setByte_ne fun hab => hne ?_)
      have hpw := h.present_of_mmu hwu hb
      have hb' := Option.some.inj (hb.symm.trans (h.mmu_present hwu hpw))
      have hframe : frameOf (lookup s.mem n w) = frameOf (lookup s.mem n v) := by omega
      have hpage := congrArg BitVec.toNat (h.distinct w v hwu huser hpw hp hframe)
      rw [toNat_pageOf, toNat_pageOf] at hpage
      exact BitVec.eq_of_toNat_eq (by omega)

-- ---------------------------------------------------------------------------
-- The kernel half meanwhile
-- ---------------------------------------------------------------------------

section Kernel

variable (h : UserMap k n s₀ label₀ s label) (h₀ : Backed k s₀ label₀)

include h h₀

theorem entry_foreign {c : Nat} {l : Label} (hc : label₀ c = some l) (hroot : l.root ≠ n) :
    tableRead s.mem c i = tableRead s₀.mem c i := by
  refine tableRead_congr fun a ha => ?_
  have hbit : s₀.frames.bit (a / 0x1000) = true := by
    rw [ha]
    exact h₀.locked c l hc
  refine h.foreign a ((h.locked _ hbit).trans hbit.symm) fun l' hl' => ?_
  rw [ha, hc] at hl'
  exact Option.some.inj hl' ▸ hroot

theorem mmu_kernel (hn : label₀ n = some ⟨n, []⟩) (hne : n ≠ k) (hv : kernelHalf v = true) :
    mmu s.mem n v = mmu s₀.mem n v := by
  have hi : 256 ≤ (tableIndex v 3).val := of_decide_eq_true hv
  have he : tableRead s.mem n (tableIndex v 3) = tableRead s₀.mem n (tableIndex v 3) := by
    rw [h.backed.forest.shared n h.table (tableIndex v 3) hi, h₀.forest.shared n hn (tableIndex v 3) hi]
    exact h.entry_foreign h₀ h₀.forest.kernel (Ne.symm hne)
  refine mmuFrom_step he fun d hnext => ?_
  have hlabel := h₀.forest.labelled n _ (tableIndex v 3) d hn (by simp [Label.depth]) hnext
  have hhome : (Label.step k ⟨n, []⟩ (tableIndex v 3)).root = k := if_pos hi
  refine h₀.forest.mmuFrom_congr (P := fun l => l.root ≠ n) (fun l i hpath hl => ?_)
    (fun c l hc hl _ => h.entry_foreign h₀ hc hl) hlabel (by rw [hhome]; exact Ne.symm hne) (Label.step_path_ne _ _ _)
    (by rw [Label.depth_step]; rfl)
  rw [Label.root_step fun e => absurd e hpath]
  exact hl

/-- A byte of the kernel half, in a frame that was in use and belongs to no
table of `n`, reads as at the start. -/
theorem readByte_kernel (hn : label₀ n = some ⟨n, []⟩) (hne : n ≠ k) (hv : kernelHalf v = true)
    (hm : mmu s₀.mem n v = some a) (hbit : s₀.frames.bit (a / 0x1000) = true)
    (hl : ∀ l, label₀ (a / 0x1000) = some l → l.root ≠ n) : readByte s.mem n v = some (s₀.mem a) := by
  rw [readByte, h.mmu_kernel h₀ hn hne hv, hm]
  exact congrArg some (h.foreign a ((h.locked _ hbit).trans hbit.symm) hl)

end Kernel

end UserMap

end ShedOS.Memory
