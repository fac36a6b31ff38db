import ShedOS.Memory.VmmRuns

/-!
# The effect of a copy-on-write fault

`cow_copy_on_write` on a page of the current task, with `pmm.c` behind it: the
page moves to a fresh frame with the same bytes, and no other page moves.
-/

namespace ShedOS.Memory

open Bytes Loops

variable {s s' : Machine Pmm} {k n r f : Nat} {label label' : Labels} {new : List U64} {e p v vmap : U64}

-- ---------------------------------------------------------------------------
-- The new entry
-- ---------------------------------------------------------------------------

/-- The low 8 flag bits of the old entry, with PAGING_WRITABLE. -/
theorem cowEntry_eq (hp : present e = true) : cowEntry p e = p ||| ((e &&& 0xff) ||| PAGING_WRITABLE) := by
  have hlow : ∀ i, i < 64 → (0xfff#64).getLsbD i = decide (i < 12) ∧ (0xff#64).getLsbD i = decide (i < 8) := by
    decide
  have hbits : ∀ i, i < 64 → PAGING_PRESENT.getLsbD i = decide (i = 0) ∧ PAGING_WRITABLE.getLsbD i = decide (i = 1) := by
    decide
  rw [present_eq] at hp
  rw [cowEntry, BitVec.or_assoc]
  congr 1
  refine BitVec.eq_of_getLsbD_eq fun i hi => ?_
  obtain ⟨h12, h8⟩ := hlow i hi
  obtain ⟨h0, h1⟩ := hbits i hi
  change ((cowFlags e).setWidth 64 ||| PAGING_PRESENT).getLsbD i = ((e &&& 0xff#64) ||| PAGING_WRITABLE).getLsbD i
  rw [cowFlags, BitVec.getLsbD_or, BitVec.getLsbD_setWidth, BitVec.getLsbD_setWidth, BitVec.getLsbD_or,
    BitVec.getLsbD_and, BitVec.getLsbD_or, BitVec.getLsbD_and, h12, h8, h0, h1]
  by_cases hi0 : i = 0
  · subst hi0
    simp [hp]
  · by_cases hi8 : i < 8
    · simp [hi, hi0, hi8, show i < 12 by omega]
    · simp [hi0, hi8, show i ≠ 1 by omega]

-- ---------------------------------------------------------------------------
-- The call
-- ---------------------------------------------------------------------------

structure HasData (s : Machine Pmm) (label : Labels) (r : Nat) (v : U64) : Prop where
  locked : s.frames.bit (frameOf (lookup s.mem r v)) = true
  noTable : label (frameOf (lookup s.mem r v)) = none

/-- The page of `v` under `n` has a copy of its own in a frame that was free;
every other page is where it was, and the address for copies is empty. -/
structure CowEffect (n : Nat) (v : U64) (label : Labels) (s s' : Machine Pmm) : Prop where
  page : ∃ f ∈ s.frames.freeFrames, s'.frames.bit f = true ∧
    pagingGet s' (framePtr n) v =
      BitVec.ofNat 64 (0x1000 * f) ||| ((pagingGet s (framePtr n) v &&& 0xff) ||| PAGING_WRITABLE) ∧
    ∀ i < 0x1000, s'.mem (0x1000 * f + i) = s.mem (0x1000 * frameOf (pagingGet s (framePtr n) v) + i)
  old : ∀ i < 0x1000, s'.mem (0x1000 * frameOf (pagingGet s (framePtr n) v) + i) =
    s.mem (0x1000 * frameOf (pagingGet s (framePtr n) v) + i)
  other : ∀ r w, label r = some ⟨r, []⟩ → (r ≠ n ∨ pageOf w ≠ pageOf v) → pageOf w ≠ pageOf kernelCopyVaddr →
    pagingGet s' (framePtr r) w = pagingGet s (framePtr r) w
  temporary : ∀ r w, label r = some ⟨r, []⟩ → pageOf w = pageOf kernelCopyVaddr → pagingGet s' (framePtr r) w = 0

theorem cowCopyOnWrite_frames {σ : Type} [FrameSource σ] {s s' : Machine σ}
    (hp : present (pagingGet s vmap (pageStart v)) = true) (h : cowCopyOnWrite s vmap v = some (true, s')) :
    s'.frames = (cowRemap s vmap v).frames := by
  rw [cowCopyOnWrite_present hp] at h
  obtain ⟨mem, -, h⟩ := Option.map_eq_some_iff.mp h
  obtain ⟨-, rfl⟩ := Prod.mk.inj h
  exact (pagingUnmap_allocates { cowRemap s vmap v with mem } _ _).frames

theorem not_inWindow_copy : ¬ InWindow kernelCopyVaddr := by
  simp only [InWindow, vaddrToIndex_eq]
  decide

structure CowCall (k n f : Nat) (v : U64) (new : List U64) (s : Machine Pmm) (label : Labels) (s' : Machine Pmm)
    (label' : Labels) : Prop where
  call : cowCopyOnWrite s (framePtr n) v = some (true, s')
  cr3 : s'.cr3 = s.cr3
  backed : Backed k s' label'
  answers : Answers s.frames s'.frames new
  mem : f ∈ new.map frameNo
  done : CowDone k n v (lookup s.mem n v) (BitVec.ofNat 64 (0x1000 * f)) new s label s' label'

theorem cow_call (h : Backed k s label) (hn : label n = some ⟨n, []⟩) (hroot : s.root = n) (huser : kernelHalf v = false)
    (hp : present (lookup s.mem n v) = true) (hs : Served s (cowRemap s (framePtr n) v)) :
    ∃ s' f new label', CowCall k n f v new s label s' label' := by
  have hpage : present (pagingGet s (framePtr n) (pageStart v)) = true := by
    rw [pagingGet_lookup (h.forest.bound n _ hn), lookup_of_page pageOf_pageStart, hp]
  obtain ⟨c, -, hc⟩ := cowRemap_allocates s (framePtr n) v
  obtain ⟨new, hnew, ha⟩ := hc.answers h.walled hs
  obtain ⟨s', p, label', hcall, -, hcr3, hd⟩ := cow_spec h.toPagingInv hn hroot huser
    (h.windows n v hn (not_inWindow_user huser)) (h.windows k _ h.forest.kernel not_inWindow_copy) hp hnew (h.fresh ha)
  rw [← cowCopyOnWrite_frames hpage hcall] at ha
  refine ⟨s', frameNo p, new, label', hcall, hcr3, h.step ha hd.inv hd.fresh hd.stops, ha,
    List.mem_map_of_mem hd.page, ?_⟩
  rwa [← ha.aligned p hd.page]

theorem CowCall.taken (hc : CowCall k n f v new s label s' label') : f ∈ s.frames.freeFrames ∧ s'.frames.bit f = true := by
  obtain ⟨p, hp, rfl⟩ := List.mem_map.mp hc.mem
  exact ⟨hc.answers.free p hp, by rw [hc.answers.bits, decide_eq_true hc.mem, Bool.true_or]⟩

theorem CowCall.not_new {g : Nat} (hc : CowCall k n f v new s label s' label') (hg : s.frames.bit g = true) :
    g ∉ new.map frameNo := by
  intro hmem
  obtain ⟨p, hp, rfl⟩ := List.mem_map.mp hmem
  have := (hc.answers.free p hp).2
  rw [hg] at this
  contradiction

theorem CowCall.noTable {g : Nat} (hc : CowCall k n f v new s label s' label') (hg : s.frames.bit g = true)
    (hl : label g = none) : label' g = none := by
  cases hl' : label' g with
  | none => rfl
  | some l =>
    rcases hc.done.fresh g l hl' with hold | ⟨-, hmem⟩
    · rw [hl] at hold
      contradiction
    · exact absurd hmem (hc.not_new hg)

theorem CowCall.bytes {g i : Nat} (hc : CowCall k n f v new s label s' label') (hg : s.frames.bit g = true)
    (hl : label g = none) (hi : i < 0x1000) : s'.mem (0x1000 * g + i) = s.mem (0x1000 * g + i) := by
  have hdiv : (0x1000 * g + i) / 0x1000 = g := by omega
  refine hc.done.bytes _ ?_ ?_
  · rw [hdiv]
    exact hc.noTable hg hl
  · rw [hdiv]
    exact hc.not_new hg

theorem CowCall.frame (h : Backed k s label) (hc : CowCall k n f v new s label s' label') :
    frameNo (BitVec.ofNat 64 (0x1000 * f)) = f := frameNo_frame (h.walled.frame_lt hc.taken.1.1)

theorem mapped_small : ∃ (s : Machine Pmm) (k n : Nat) (label : Labels), (Backed k s label ∧ label n = some ⟨n, []⟩) ∧
    s.root = n ∧ present (pagingGet s (framePtr n) 0x400123) = true ∧ HasData s label n 0x400123 ∧
    Served s (cowRemap s (framePtr n) 0x400123) := by
  obtain ⟨s, k, n, f, label, ⟨h, hn⟩, hroot, hf, hbit, htable, hget, hu, hroom⟩ := mapped_entry_small 5
  obtain ⟨c, hc, ha⟩ := cowRemap_allocates s (framePtr n) 0x400123
  refine ⟨s, k, n, label, ⟨h, hn⟩, hroot, ?_, ⟨?_, ?_⟩, (ha.served_untouched hu (by omega)).1⟩
  · rw [pagingGet_lookup (h.forest.bound n _ hn), hget]
    exact present_dataEntry
  · rwa [hget, frameOf_dataEntry hf]
  · rwa [hget, frameOf_dataEntry hf]

end ShedOS.Memory
