import ShedOS.Memory.PagingLaws

/-!
# The tables that paging_initialize leaves

The first loop gives `kernel_table` all of its upper half, the next two fill in
1 GiB windows, and the last one maps the memory map below the upper half. What
results is a forest whose only huge entries are those of the windows.
-/

namespace ShedOS.Memory

open Bytes Loops

variable {σ : Type} [FrameSource σ] {s t : Machine σ} {m : Mem} {k n : Nat} {label : Labels} {l : Label} {v : U64}

-- ---------------------------------------------------------------------------
-- The upper half of kernel_table
-- ---------------------------------------------------------------------------

/-- Before round `i` of the first loop, with `child` the tables made so far. -/
structure UpperHalf (k i : Nat) (s : Machine σ) (child : Nat → Nat) : Prop where
  kernelTable : s.kernelTable = framePtr k
  kernelFrame : k < frameLimit ∧ k ∈ s.handed.map frameNo
  read : ∀ j : Fin 512, tableRead s.mem k j =
    if 256 ≤ j.val ∧ j.val < 256 + i then linkEntry (child j) PAGING_PRESENT else 0
  empty : ∀ j, 256 ≤ j → j < 256 + i → ∀ x, tableRead s.mem (child j) x = 0
  frame : ∀ j, 256 ≤ j → j < 256 + i → child j < frameLimit ∧ child j ∈ s.handed.map frameNo
  apart : ∀ j, 256 ≤ j → j < 256 + i → child j ≠ k ∧ ∀ j', 256 ≤ j' → j' < 256 + i →
    child j = child j' → j = j'

omit [FrameSource σ] in
theorem DistinctFrames.newest {p : U64} {rest : List U64} (h : DistinctFrames (p :: rest)) :
    p = BitVec.ofNat 64 (0x1000 * frameNo p) ∧ frameNo p < frameLimit ∧
      frameNo p ∉ rest.map frameNo :=
  ⟨eq_frame_of_aligned (h.aligned p List.mem_cons_self), h.bound p List.mem_cons_self,
    (List.nodup_cons.mp h.nodup).1⟩

theorem createKernelEntry_keeps (i : Nat) (s : Machine σ) : s.Keeps (createKernelEntry i s) :=
  ⟨rfl, rfl, .single (.request _ _ 1)⟩

theorem createKernelEntry_eq {i c : Nat} (hk : s.kernelTable = framePtr k) (hkl : k < frameLimit)
    (hi : i < 256) (hc : c < frameLimit) (hp : (s.requestPages 1).1 = BitVec.ofNat 64 (0x1000 * c)) :
    createKernelEntry i s = { (s.requestPages 1).2 with
      mem := writeEntry (zeroFrame s.mem c) k (256 + i) (linkEntry c PAGING_PRESENT) } := by
  have hchild : (palloc s 1).1 = framePtr c := by simp [palloc, hp, framePtr]
  have hstate : (palloc s 1).2 = (s.requestPages 1).2 := rfl
  have hmem : (s.requestPages 1).2.mem = s.mem := rfl
  have hkernel : (s.requestPages 1).2.kernelTable = framePtr k := hk
  have hlower : addrOffsetLower (framePtr c) = BitVec.ofNat 64 (0x1000 * c) :=
    addrOffsetLower_higher _
  simp only [createKernelEntry, hchild, hstate, Machine.memset_framePtr hc, hkernel, hlower]
  rw [Machine.setEntry_framePtr hkl (by omega), BitVec.or_comm, hmem]
  rfl

theorem UpperHalf.step {i : Nat} {child : Nat → Nat} (h : UpperHalf k i s child) (hi : i < 256)
    (hd : DistinctFrames (createKernelEntry i s).handed) :
    ∃ child, UpperHalf k (i + 1) (createKernelEntry i s) child := by
  obtain ⟨hp, hc, hnew⟩ := DistinctFrames.newest (p := (s.requestPages 1).1) hd
  obtain ⟨c, hcdef⟩ : ∃ c, c = frameNo (s.requestPages 1).1 := ⟨_, rfl⟩
  rw [← hcdef] at hp hc hnew
  have heq := createKernelEntry_eq h.kernelTable h.kernelFrame.1 hi hc hp
  have hhanded : (createKernelEntry i s).handed.map frameNo = c :: s.handed.map frameNo := by
    rw [hcdef]; rfl
  have hmem : (createKernelEntry i s).mem =
      writeEntry (zeroFrame s.mem c) k (256 + i) (linkEntry c PAGING_PRESENT) := by rw [heq]
  have hkc : k ≠ c := fun e => hnew (e ▸ h.kernelFrame.2)
  have hread : ∀ n (x : Fin 512), tableRead (createKernelEntry i s).mem n x =
      if n = k ∧ x.val = 256 + i then linkEntry c PAGING_PRESENT
      else if n = c then 0 else tableRead s.mem n x := by
    intro n x
    rw [hmem, tableRead, entryAt_writeEntry (by omega) x.isLt, entryAt_zeroFrame x.isLt]
    rfl
  have hold : ∀ j, 256 ≤ j → j < 256 + i → child j ≠ c := fun j hj hji e =>
    hnew (e ▸ (h.frame j hj hji).2)
  refine ⟨fun j => if j = 256 + i then c else child j, ?_, ?_, ?_, ?_, ?_, ?_⟩
  · exact (createKernelEntry_keeps i s).kernelTable.trans h.kernelTable
  · exact ⟨h.kernelFrame.1, by rw [hhanded]; exact List.mem_cons_of_mem _ h.kernelFrame.2⟩
  · intro j
    rw [hread]
    by_cases hj : j.val = 256 + i
    · simp [hj]
    · rw [if_neg (by simp [hj]), if_neg hkc, h.read, if_neg hj]
      simp only [show (j.val < 256 + (i + 1)) = (j.val < 256 + i) from propext (by omega)]
  · intro j hj hji x
    rw [hread]
    by_cases hjc : j = 256 + i
    · simp [hjc, hkc.symm]
    · have := h.apart j hj (by omega)
      rw [if_neg hjc, if_neg (fun e => this.1 e.1), if_neg (hold j hj (by omega))]
      exact h.empty j hj (by omega) x
  · intro j hj hji
    rw [hhanded]
    by_cases hjc : j = 256 + i
    · simp [hjc, hc]
    · rw [if_neg hjc]
      have := h.frame j hj (by omega)
      exact ⟨this.1, List.mem_cons_of_mem _ this.2⟩
  · intro j hj hji
    by_cases hjc : j = 256 + i
    · rw [if_pos hjc]
      refine ⟨hkc.symm, fun j' hj' hji' e => ?_⟩
      by_cases hjc' : j' = 256 + i
      · rw [hjc, hjc']
      · rw [if_neg hjc'] at e
        exact absurd e.symm (hold j' hj' (by omega))
    · rw [if_neg hjc]
      refine ⟨(h.apart j hj (by omega)).1, fun j' hj' hji' e => ?_⟩
      by_cases hjc' : j' = 256 + i
      · rw [if_pos hjc'] at e
        exact absurd e (hold j hj (by omega))
      · rw [if_neg hjc'] at e
        exact (h.apart j hj (by omega)).2 j' hj' (by omega) e

theorem upperHalf_loop (child : Nat → Nat) (h : UpperHalf k 0 s child)
    (hd : DistinctFrames (upto createKernelEntry s 256).handed) :
    ∃ child, UpperHalf k 256 (upto createKernelEntry s 256) child := by
  refine upto_rule (fun i t => DistinctFrames t.handed → ∃ child, UpperHalf k i t child)
    (fun _ => ⟨child, h⟩) (fun i t hi ih hd => ?_) hd
  obtain ⟨child, h⟩ := ih ((createKernelEntry_keeps i t).distinct hd)
  exact h.step hi hd

def upperLabel (k : Nat) (child : Nat → Nat) : Labels := fun n =>
  if n = k then some ⟨k, []⟩
  else (Fin.find? fun j : Fin 512 => decide (256 ≤ j.val ∧ child j = n)).map fun j => ⟨k, [j]⟩

omit [FrameSource σ] in
theorem UpperHalf.label_iff {child : Nat → Nat} (h : UpperHalf k 256 s child) :
    upperLabel k child n = some l ↔
      (n = k ∧ l = ⟨k, []⟩) ∨ ∃ j : Fin 512, 256 ≤ j.val ∧ child j = n ∧ l = ⟨k, [j]⟩ := by
  by_cases hn : n = k
  · rw [upperLabel, if_pos hn]
    constructor
    · exact fun e => .inl ⟨hn, (Option.some.inj e).symm⟩
    · rintro (⟨-, rfl⟩ | ⟨j, hj, hc, -⟩)
      · rfl
      · exact absurd (hc.trans hn) (h.apart j hj (by omega)).1
  · rw [upperLabel, if_neg hn]
    constructor
    · intro e
      obtain ⟨j, hfind, rfl⟩ := Option.map_eq_some_iff.mp e
      have hj := of_decide_eq_true (Fin.eq_true_of_find?_eq_some hfind)
      exact .inr ⟨j, hj.1, hj.2, rfl⟩
    · rintro (⟨e, -⟩ | ⟨j, hj, hc, rfl⟩)
      · exact absurd e hn
      · -- the frames are distinct, so the search stops at `j`
        obtain ⟨j', hfind⟩ := Option.isSome_iff_exists.mp
          (Fin.isSome_find?_of_eq_true (p := fun j : Fin 512 => decide (256 ≤ j.val ∧ child j = n))
            (decide_eq_true ⟨hj, hc⟩))
        have hj' := of_decide_eq_true (Fin.eq_true_of_find?_eq_some hfind)
        have := (h.apart j hj (by omega)).2 j' hj'.1 (by omega) (hc.trans hj'.2.symm)
        rw [hfind, Option.map_some, Fin.ext this]

omit [FrameSource σ] in
theorem UpperHalf.inv {child : Nat → Nat} (h : UpperHalf k 256 s child) :
    ∃ label, PagingInv k s label ∧ ∀ j : Fin 512, 256 ≤ j.val → label (child j) = some ⟨k, [j]⟩ := by
  have hlabel := fun n l => h.label_iff (n := n) (l := l)
  have hroot := (hlabel k ⟨k, []⟩).mpr (.inl ⟨rfl, rfl⟩)
  have hnext : ∀ j : Fin 512, 256 ≤ j.val → nextTable (tableRead s.mem k j) = some (child j) := by
    intro j hj
    rw [h.read, if_pos ⟨hj, by omega⟩]
    exact nextTable_linkEntry (h.frame j hj (by omega)).1 linkFlags_kernel
  refine ⟨upperLabel k child, ⟨⟨?_, ?_, ?_, hroot, ?_, ?_⟩, h.kernelTable, ?_⟩, fun j hj =>
    (hlabel _ _).mpr (.inr ⟨j, hj, rfl, rfl⟩)⟩
  · intro n l i c hn hd hc
    rcases (hlabel n l).mp hn with ⟨rfl, rfl⟩ | ⟨j, hj, rfl, rfl⟩
    · by_cases hi : 256 ≤ i.val
      · rw [hnext i hi] at hc
        obtain rfl := Option.some.inj hc
        exact (hlabel _ _).mpr (.inr ⟨i, hi, rfl, by simp [Label.step, Label.home]⟩)
      · rw [h.read, if_neg (fun e => hi e.1), nextTable_zero] at hc
        contradiction
    · rw [h.empty j hj (by omega), nextTable_zero] at hc
      contradiction
  · intro n l hn
    rcases (hlabel n l).mp hn with ⟨rfl, -⟩ | ⟨j, hj, rfl, -⟩
    · exact h.kernelFrame.1
    · exact (h.frame j hj (by omega)).1
  · intro n r hn
    rcases (hlabel n _).mp hn with ⟨rfl, e⟩ | ⟨j, -, -, e⟩
    · exact (congrArg Label.root e).symm
    · cases congrArg Label.path e
  · exact fun j hj => by rw [hnext j hj]; rfl
  · intro r hr i _
    rcases (hlabel r _).mp hr with ⟨rfl, -⟩ | ⟨j, -, -, e⟩
    · rfl
    · cases congrArg Label.path e
  · intro n l hn
    rcases (hlabel n l).mp hn with ⟨rfl, -⟩ | ⟨j, hj, rfl, -⟩
    · exact h.kernelFrame.2
    · exact (h.frame j hj (by omega)).2

-- ---------------------------------------------------------------------------
-- The windows
-- ---------------------------------------------------------------------------

/-- The address lies in a 1 GiB window of the direct map or of the kernel. -/
def InWindow (v : U64) : Prop :=
  vaddrToIndex v 3 = 256 ∧ vaddrToIndex v 2 < 4 ∨ vaddrToIndex v 3 = 511 ∧ 510 ≤ vaddrToIndex v 2

theorem nextTable_hugeEntry (i : Nat) : nextTable (hugeEntry i) = none := by
  have : huge (hugeEntry i) = true := by
    rw [huge_eq, hugeEntry, BitVec.getLsbD_or]
    simp [PAGING_HUGE]
  simp [nextTable, this]

omit [FrameSource σ] in
theorem windows_loop (slot : Nat → Nat) (count : Nat) {l : Label} (h : PagingInv k s label)
    (hn : label n = some l) (hl : l.path ≠ []) (hslot : ∀ i, i < count → slot i < 512)
    (hinj : ∀ i j, slot i = slot j → i = j) :
    ∃ m', upto (fun i s => s.setEntry (framePtr n) (slot i) (hugeEntry i)) s count =
        { s with mem := m' } ∧ Forest k m' label ∧
      (∀ n' (x : Fin 512), (n' = n → ∀ i, i < count → x.val ≠ slot i) →
        tableRead m' n' x = tableRead s.mem n' x) ∧
      ∀ i (x : Fin 512), i < count → x.val = slot i → tableRead m' n x = hugeEntry i := by
  refine upto_rule (fun i t => ∃ m', t = { s with mem := m' } ∧ Forest k m' label ∧
    (∀ n' (x : Fin 512), (n' = n → ∀ j, j < i → x.val ≠ slot j) →
      tableRead m' n' x = tableRead s.mem n' x) ∧
    ∀ j (x : Fin 512), j < i → x.val = slot j → tableRead m' n x = hugeEntry j)
    ⟨s.mem, rfl, h.forest, fun _ _ _ => rfl, fun _ _ hj => absurd hj (Nat.not_lt_zero _)⟩ ?_
  rintro i t hi ⟨m', rfl, hf, hread, hentries⟩
  rw [Machine.setEntry_framePtr (hf.bound n l hn) (hslot i hi)]
  refine ⟨writeEntry m' n (slot i) (hugeEntry i), rfl,
    hf.writeOther (i := ⟨slot i, hslot i hi⟩) hn hl fun _ => nextTable_hugeEntry i, ?_, ?_⟩
  · intro n' x hx
    rw [tableRead, entryAt_writeEntry (hslot i hi) x.isLt, if_neg]
    · exact hread n' x fun e j hj => hx e j (by omega)
    · exact fun e => hx e.1 i (by omega) e.2
  · intro j x hj hx
    rw [tableRead, entryAt_writeEntry (hslot i hi) x.isLt]
    by_cases hji : j = i
    · rw [if_pos ⟨rfl, hji ▸ hx⟩, hji]
    · rw [if_neg fun e => hji (hinj j i (hx.symm.trans e.2))]
      exact hentries j x (by omega) hx

/-- The first `count` GiB of memory in 1 GiB entries from slot `first` on, in
the table below slot `top` of `kernel_table`. -/
def Window (k : Nat) (m : Mem) (label : Labels) (top : Fin 512) (first count : Nat) : Prop :=
  ∃ c, nextTable (tableRead m k top) = some c ∧ label c = some ⟨k, [top]⟩ ∧
    ∀ i (x : Fin 512), i < count → x.val = first + i → tableRead m c x = hugeEntry i

/-- The forest, with no huge entries but those of the windows. -/
structure BootInv (k : Nat) (s : Machine σ) (label : Labels) : Prop extends PagingInv k s label where
  windows : ∀ v, ¬ InWindow v → MeetsNoHuge s.mem k v 3

def bootRoot (s : Machine σ) : Machine σ :=
  let (kernelTable, s) := palloc s 1
  let s := { s with kernelTable }
  s.memset s.kernelTable 0 0x1000

def bootTables (s : Machine σ) : Machine σ := upto createKernelEntry (bootRoot s) 256

def bootWindows (s : Machine σ) : Machine σ :=
  let parent := childTable (s.entry s.kernelTable 256)
  let s := upto (fun i s => s.setEntry parent i (hugeEntry i)) s 4
  let parent := childTable (s.entry s.kernelTable 511)
  upto (fun i s => s.setEntry parent (510 + i) (hugeEntry i)) s 2

theorem pagingInitialize_eq (s : Machine σ) (mmap : List MmapEntry) :
    pagingInitialize s mmap = (mapEntries mmap (bootWindows (bootTables s))).map fun s =>
      let s := pagingUnmap s s.kernelTable 0
      pagingWriteCr3 s s.kernelTable := by
  simp only [pagingInitialize, bootRoot, bootTables, bootWindows]
  generalize (mapEntries mmap _ : Option (Machine σ)) = r
  cases r <;> rfl

theorem bootTables_keeps (s : Machine σ) : (bootRoot s).Keeps (bootTables s) :=
  upto_rule (fun _ t => (bootRoot s).Keeps t) (.refl _) fun i t _ h =>
    h.trans (createKernelEntry_keeps i t)

theorem bootTables_spec (hd : DistinctFrames (bootTables s).handed) :
    ∃ k child, UpperHalf k 256 (bootTables s) child := by
  have hhanded : (bootRoot s).handed = (s.requestPages 1).1 :: s.handed := rfl
  obtain ⟨hp, hk, -⟩ := DistinctFrames.newest (hhanded ▸ (bootTables_keeps s).distinct hd)
  have hptr : (palloc s 1).1 = framePtr (frameNo (s.requestPages 1).1) := congrArg addrOffsetHigher hp
  have hmem : (bootRoot s).mem = zeroFrame s.mem (frameNo (s.requestPages 1).1) := by
    simp only [bootRoot, hptr, Machine.memset_framePtr hk]
    rfl
  refine ⟨frameNo (s.requestPages 1).1, upperHalf_loop (fun _ => 0) ⟨?_, ?_, ?_, ?_, ?_, ?_⟩ hd⟩
  · exact hptr
  · exact ⟨hk, by simp [hhanded]⟩
  · intro j
    rw [if_neg (by omega), hmem, tableRead, entryAt_zeroFrame j.isLt, if_pos rfl]
  all_goals
    intro j hj hji
    omega

omit [FrameSource σ] in
theorem bootWindows_spec {child : Nat → Nat} (h : UpperHalf k 256 s child) :
    ∃ label, BootInv k (bootWindows s) label ∧ (bootWindows s).handed = s.handed ∧
      Window k (bootWindows s).mem label 256 0 4 ∧ Window k (bootWindows s).mem label 511 510 2 ∧
      ∀ i : Fin 512, i.val < 256 → tableRead (bootWindows s).mem k i = 0 := by
  obtain ⟨label, hinv, hlabel⟩ := h.inv
  have hchild : ∀ (t : Machine σ) (j : Nat) (hj : j < 512), 256 ≤ j → t.kernelTable = framePtr k →
      tableRead t.mem k ⟨j, hj⟩ = tableRead s.mem k ⟨j, hj⟩ →
      childTable (t.entry t.kernelTable j) = framePtr (child j) := by
    intro t j hj hj' hk hread
    rw [hk, Machine.entry_framePtr h.kernelFrame.1 hj]
    rw [show entryAt t.mem k j = tableRead t.mem k ⟨j, hj⟩ from rfl, hread, h.read,
      if_pos ⟨hj', by simpa using hj⟩, childTable_eq, linkEntry,
      frameOf_frame_or (h.frame j hj' (by omega)).1 (by decide)]
  have hpath : ∀ j : Fin 512, (⟨k, [j]⟩ : Label).path ≠ [] := fun j => List.cons_ne_nil j []
  have hne : ∀ j : Fin 512, 256 ≤ j.val → k ≠ child j := fun j hj e =>
    (h.apart j hj (by omega)).1 e.symm
  obtain ⟨m₁, heq₁, hf₁, hread₁, hentries₁⟩ := windows_loop (fun i => i) 4 hinv
    (n := child 256) (hlabel 256 (by decide)) (hpath 256) (fun i hi => by omega) fun _ _ e => e
  have hinv₁ : PagingInv k { s with mem := m₁ } label := ⟨hf₁, h.kernelTable, hinv.handed⟩
  obtain ⟨m₂, heq₂, hf₂, hread₂, hentries₂⟩ := windows_loop (fun i => 510 + i) 2 hinv₁
    (n := child 511) (hlabel 511 (by decide)) (hpath 511) (fun i hi => by omega) fun _ _ e => by omega
  have hwin : bootWindows s = { s with mem := m₂ } := by
    unfold bootWindows
    rw [hchild s 256 (by decide) (by decide) h.kernelTable rfl]
    simp only [heq₁]
    have := hchild { s with mem := m₁ } 511 (by decide) (by decide) h.kernelTable
      (hread₁ k _ fun e => absurd e (hne 256 (by decide)))
    simp only [this, heq₂]
  have htop : ∀ j, tableRead m₂ k j = tableRead s.mem k j := fun j => by
    rw [hread₂ k _ fun e => absurd e (hne 511 (by decide)),
      hread₁ k _ fun e => absurd e (hne 256 (by decide))]
  have hnext : ∀ j : Fin 512, 256 ≤ j.val → nextTable (tableRead m₂ k j) = some (child j) := by
    intro j hj
    rw [htop, h.read, if_pos ⟨hj, by omega⟩]
    exact nextTable_linkEntry (h.frame j hj (by omega)).1 linkFlags_kernel
  refine ⟨label, hwin ▸ ⟨⟨hf₂, h.kernelTable, hinv.handed⟩, fun v hv => ?_⟩, by rw [hwin], ?_, ?_, fun j hj => ?_⟩
  rotate_left
  · rw [hwin]
    refine ⟨child 256, hnext 256 (by decide), hlabel 256 (by decide), fun i x hi hx => ?_⟩
    rw [hread₂]
    · exact hentries₁ i x hi (by omega)
    · intro e
      have := (h.apart 256 (by decide) (by decide)).2 511 (by decide) (by decide) e
      omega
  · rw [hwin]
    exact ⟨child 511, hnext 511 (by decide), hlabel 511 (by decide), fun i x hi hx => hentries₂ i x hi hx⟩
  · rw [hwin, htop, h.read, if_neg (by omega)]
  -- outside of the windows the walk ends in an empty table
  refine meetsNoHuge_succ.mpr fun hp => ?_
  have hk := htop (tableIndex v 3)
  rw [hk, h.read] at hp ⊢
  by_cases hi : 256 ≤ (tableIndex v 3).val
  · rw [if_pos ⟨hi, by omega⟩] at hp ⊢
    refine ⟨child (tableIndex v 3), nextTable_linkEntry (h.frame _ hi (by omega)).1 linkFlags_kernel,
      meetsNoHuge_succ.mpr fun hp => ?_⟩
    have hzero : tableRead m₂ (child (tableIndex v 3)) (tableIndex v 2) = 0 := by
      rw [hread₂, hread₁]
      · exact h.empty _ hi (by omega) _
      · intro e i hi' hx
        have := (h.apart _ hi (by omega)).2 256 (by decide) (by decide) e
        exact hv (.inl ⟨this, by rw [show vaddrToIndex v 2 = i from hx]; exact hi'⟩)
      · intro e i hi' hx
        have := (h.apart _ hi (by omega)).2 511 (by decide) (by decide) e
        exact hv (.inr ⟨this, by rw [show vaddrToIndex v 2 = 510 + i from hx]; omega⟩)
    rw [hzero] at hp
    simp at hp
  · rw [if_neg fun e => hi e.1] at hp
    simp at hp

-- ---------------------------------------------------------------------------
-- The memory map
-- ---------------------------------------------------------------------------

/-- The memory map ends below the addresses that the window of the kernel takes
in the upper half. -/
def DirectMapped (mmap : List MmapEntry) : Prop :=
  ∀ e ∈ mmap, e.base + e.length ≤ 2 ^ 47 - 2 ^ 31

theorem directMapped_nil : DirectMapped [] := fun _ h => nomatch h

theorem not_inWindow {paddr : U64} (hlow : 0x100000000 ≤ paddr.toNat)
    (hhigh : paddr.toNat < 2 ^ 47 - 2 ^ 31) : ¬ InWindow (VADDR_HIGHER + paddr) := by
  have hv : (VADDR_HIGHER + paddr).toNat = 0xffff800000000000 + paddr.toNat := by
    rw [BitVec.toNat_add, Nat.mod_eq_of_lt]
    · rfl
    · simp only [VADDR_HIGHER, BitVec.toNat_ofNat]
      omega
  simp only [InWindow, vaddrToIndex_eq, hv]
  omega

theorem pagingMap_boot {paddr : U64} {flags : BitVec 8} (h : BootInv k s label) (hv : ¬ InWindow v)
    (hd : DistinctFrames (pagingMap s s.kernelTable v paddr flags).handed) :
    ∃ label', BootInv k (pagingMap s s.kernelTable v paddr flags) label' := by
  have hkeeps := pagingMap_keeps s s.kernelTable v paddr flags
  obtain ⟨new, hnew⟩ := hkeeps.handed
  have hfresh := h.fresh (hnew ▸ hd)
  rw [h.kernelTable] at hkeeps hnew ⊢
  obtain ⟨label', hu⟩ := pagingMap_spec h.forest h.forest.kernel (h.windows v hv) hnew hfresh
  exact ⟨label', hu.inv h.toPagingInv hkeeps hnew, fun v' hv' =>
    hu.stops k v' h.forest.kernel (h.windows v' hv')⟩

section MapEntries

variable {stop paddr : U64} {fuel : Nat}

theorem toNat_next (h : paddr < stop) (hstop : stop.toNat + 0x1000 ≤ 2 ^ 64) :
    (paddr + 0x1000).toNat = paddr.toNat + 0x1000 := by
  have := BitVec.lt_def.mp h
  have hpage : (0x1000 : U64).toNat = 0x1000 := rfl
  rw [BitVec.toNat_add, hpage, Nat.mod_eq_of_lt]
  omega

theorem mapEntryLoop_returns (hstop : stop.toNat + 0x1000 ≤ 2 ^ 64) :
    ∀ {fuel : Nat} {s : Machine σ} {paddr : U64}, stop.toNat ≤ paddr.toNat + 0x1000 * fuel →
      ∃ s', mapEntryLoop stop fuel s paddr = some s' := by
  intro fuel
  induction fuel with
  | zero =>
    intro s paddr h
    have : ¬ paddr < stop := fun hlt => by have := BitVec.lt_def.mp hlt; omega
    exact ⟨s, by rw [mapEntryLoop, if_neg this]⟩
  | succ fuel ih =>
    intro s paddr h
    rw [mapEntryLoop]
    split
    next hlt => exact ih (by rw [toNat_next hlt hstop]; omega)
    next => exact ⟨s, rfl⟩

theorem mapEntryLoop_keeps : ∀ {fuel : Nat} {s s' : Machine σ} {paddr : U64},
    mapEntryLoop stop fuel s paddr = some s' → s.Keeps s' := by
  intro fuel
  induction fuel with
  | zero =>
    intro s s' paddr h
    rw [mapEntryLoop] at h
    split at h
    next => contradiction
    next => exact Option.some.inj h ▸ .refl s
  | succ fuel ih =>
    intro s s' paddr h
    rw [mapEntryLoop] at h
    split at h
    next =>
      refine Machine.Keeps.trans ?_ (ih h)
      split
      · exact .refl s
      · exact pagingMap_keeps _ _ _ _ _
    next => exact Option.some.inj h ▸ .refl s

theorem mapEntryLoop_boot (hstop : stop.toNat ≤ 2 ^ 47 - 2 ^ 31) :
    ∀ {fuel : Nat} {s s' : Machine σ} {paddr : U64} {label : Labels}, BootInv k s label →
      mapEntryLoop stop fuel s paddr = some s' → DistinctFrames s'.handed →
      ∃ label', BootInv k s' label' := by
  intro fuel
  induction fuel with
  | zero =>
    intro s s' paddr label h hloop _
    rw [mapEntryLoop] at hloop
    split at hloop
    next => contradiction
    next => exact Option.some.inj hloop ▸ ⟨label, h⟩
  | succ fuel ih =>
    intro s s' paddr label h hloop hd
    rw [mapEntryLoop] at hloop
    split at hloop
    next hlt =>
      have hd' := (mapEntryLoop_keeps hloop).distinct hd
      have hlt := BitVec.lt_def.mp hlt
      split at hloop
      next => exact ih h hloop hd
      next hlow =>
        rw [if_neg hlow] at hd'
        have hlow : 0x100000000 ≤ paddr.toNat := by
          rw [BitVec.lt_def] at hlow
          simp only [BitVec.toNat_ofNat] at hlow
          omega
        obtain ⟨label', h'⟩ := pagingMap_boot h (not_inWindow hlow (by omega)) hd'
        exact ih h' hloop hd
    next => exact Option.some.inj hloop ▸ ⟨label, h⟩

end MapEntries

theorem mapEntries_keeps : ∀ {mmap : List MmapEntry} {s s' : Machine σ},
    mapEntries mmap s = some s' → s.Keeps s'
  | [], s, _, h => Option.some.inj h ▸ .refl s
  | _ :: rest, s, s', h => by
    obtain ⟨t, ht, h⟩ := Option.bind_eq_some_iff.mp h
    exact (mapEntryLoop_keeps ht).trans (mapEntries_keeps h)

theorem toNat_stop {e : MmapEntry} (h : e.base + e.length ≤ 2 ^ 47 - 2 ^ 31) :
    (BitVec.ofNat 64 e.base + BitVec.ofNat 64 e.length).toNat = e.base + e.length := by
  rw [← BitVec.ofNat_add, BitVec.toNat_ofNat, Nat.mod_eq_of_lt]
  omega

theorem mapEntries_returns : ∀ {mmap : List MmapEntry} {s : Machine σ}, DirectMapped mmap →
    ∃ s', mapEntries mmap s = some s'
  | [], s, _ => ⟨s, rfl⟩
  | e :: rest, s, h => by
    have he := h e List.mem_cons_self
    have hstop := toNat_stop he
    have hbase : (BitVec.ofNat 64 e.base).toNat = e.base := by
      rw [BitVec.toNat_ofNat, Nat.mod_eq_of_lt]
      omega
    obtain ⟨t, ht⟩ : ∃ t, mapEntryLoop (BitVec.ofNat 64 e.base + BitVec.ofNat 64 e.length)
        (e.length / 0x1000 + 1) s (BitVec.ofNat 64 e.base) = some t :=
      mapEntryLoop_returns (by rw [hstop]; omega) (by rw [hstop, hbase]; omega)
    obtain ⟨s', hs'⟩ := mapEntries_returns (s := t) fun e' he' => h e' (List.mem_cons_of_mem _ he')
    exact ⟨s', Option.bind_eq_some_iff.mpr ⟨t, ht, hs'⟩⟩

theorem mapEntries_boot : ∀ {mmap : List MmapEntry} {s s' : Machine σ} {label : Labels},
    DirectMapped mmap → BootInv k s label → mapEntries mmap s = some s' →
    DistinctFrames s'.handed → ∃ label', BootInv k s' label'
  | [], _, _, label, _, h, hmap, _ => Option.some.inj hmap ▸ ⟨label, h⟩
  | e :: rest, s, s', label, hm, h, hmap, hd => by
    obtain ⟨t, ht, hmap⟩ := Option.bind_eq_some_iff.mp hmap
    have he := hm e List.mem_cons_self
    obtain ⟨label', h'⟩ := mapEntryLoop_boot (by rw [toNat_stop he]; exact he) h ht
      ((mapEntries_keeps hmap).distinct hd)
    exact mapEntries_boot (fun e' he' => hm e' (List.mem_cons_of_mem _ he')) h' hmap hd

-- ---------------------------------------------------------------------------
-- paging_initialize
-- ---------------------------------------------------------------------------

theorem pagingInitialize_returns {mmap : List MmapEntry} (h : DirectMapped mmap) :
    ∃ s', pagingInitialize s mmap = some s' := by
  obtain ⟨t, ht⟩ := mapEntries_returns (s := bootWindows (bootTables s)) h
  exact ⟨_, by rw [pagingInitialize_eq, ht]; rfl⟩

theorem bootWindows_keeps (s : Machine σ) : s.Keeps (bootWindows s) := by
  have hloop : ∀ (t : Machine σ) (table : U64) (slot : Nat → Nat) (n : Nat),
      t.Keeps (upto (fun i s => s.setEntry table (slot i) (hugeEntry i)) t n) := fun t table slot n =>
    upto_rule (fun _ t' => t.Keeps t') (.refl t) fun _ _ _ h => h.trans ⟨rfl, rfl, .refl⟩
  exact (hloop s _ (fun i => i) 4).trans (hloop _ _ (fun i => 510 + i) 2)

theorem pagingInitialize_boot {s' : Machine σ} {mmap : List MmapEntry} (hm : DirectMapped mmap)
    (hinit : pagingInitialize s mmap = some s') (hd : DistinctFrames s'.handed) :
    ∃ k label, BootInv k s' label := by
  rw [pagingInitialize_eq] at hinit
  obtain ⟨t, ht, rfl⟩ := Option.map_eq_some_iff.mp hinit
  have hunmap := pagingUnmap_keeps t t.kernelTable 0
  have hdt := hunmap.distinct hd
  have hdw := (mapEntries_keeps ht).distinct hdt
  obtain ⟨k, child, hupper⟩ := bootTables_spec ((bootWindows_keeps _).distinct hdw)
  obtain ⟨label, hboot, -, -⟩ := bootWindows_spec hupper
  obtain ⟨label', hboot'⟩ := mapEntries_boot hm hboot ht hdt
  have hzero : ¬ InWindow 0 := by
    simp only [InWindow, vaddrToIndex_eq]
    decide
  have hu := pagingUnmap_spec hboot'.forest hboot'.forest.kernel (hboot'.windows 0 hzero)
  rw [← hboot'.kernelTable] at hu
  have hinv := hu.inv hboot'.toPagingInv hunmap (by rw [pagingUnmap]; split <;> rfl)
  exact ⟨k, label', ⟨hinv.forest, hinv.kernelTable, hinv.handed⟩, fun v hv =>
    hu.stops k v hboot'.forest.kernel (hboot'.windows v hv)⟩

theorem pagingInitialize_spec {s' : Machine σ} {mmap : List MmapEntry} (hm : DirectMapped mmap)
    (hinit : pagingInitialize s mmap = some s') (hd : DistinctFrames s'.handed) :
    ∃ k label, PagingInv k s' label :=
  let ⟨k, label, h⟩ := pagingInitialize_boot hm hinit hd
  ⟨k, label, h.toPagingInv⟩

theorem pagingInitialize_requests {s' : Machine σ} {mmap : List MmapEntry}
    (hinit : pagingInitialize s mmap = some s') :
    Relation.ReflTransGen RequestStep (s.frames, s.handed) (s'.frames, s'.handed) := by
  rw [pagingInitialize_eq] at hinit
  obtain ⟨t, ht, rfl⟩ := Option.map_eq_some_iff.mp hinit
  have hroot : RequestStep (s.frames, s.handed) ((bootRoot s).frames, (bootRoot s).handed) :=
    .request s.frames s.handed 1
  exact .head hroot ((((bootTables_keeps s).trans (bootWindows_keeps _)).trans
    (mapEntries_keeps ht)).trans (pagingUnmap_keeps t t.kernelTable 0)).requests

end ShedOS.Memory
