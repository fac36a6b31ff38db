import ShedOS.Task.RunQueue
import ShedOS.Task.SharedPages

/-!
# Isolation of tasks

Runs of tasks that share pages are runs of a system in which every task owns
its bytes: a fork duplicates them, and a write changes those of the writer only.
-/

namespace ShedOS.Task

open Bytes Memory Syscall Interrupts Transition Sharing

-- ---------------------------------------------------------------------------
-- The specification
-- ---------------------------------------------------------------------------

structure Private where
  current : U64
  bytes : U64 → U64 → Option (BitVec 8)

inductive PrivateStep : Private → MemEvent → Private → Prop
  | fork (y : Private) (child : U64) :
    PrivateStep y (.fork child) { y with bytes := Function.update y.bytes child (y.bytes y.current) }
  | switch (y : Private) (task : U64) : PrivateStep y (.switch task) { y with current := task }
  | fault (y : Private) (v : U64) : PrivateStep y (.fault v) y
  | read (y : Private) (v : U64) (b : BitVec 8) (hread : y.bytes y.current v = some b) : PrivateStep y (.read v b) y
  | write (y : Private) (v : U64) (b : BitVec 8) (hmapped : (y.bytes y.current v).isSome) :
    PrivateStep y (.write v b)
      { y with bytes := Function.update y.bytes y.current (Function.update (y.bytes y.current) v (some b)) }

-- ---------------------------------------------------------------------------
-- Every task has its own bytes
-- ---------------------------------------------------------------------------

variable {η : Type} [HeapSource η] {x y : TaskState η} {k : Kernel Pmm η} {kt n : Nat} {label : Labels} {p q child : U64}
  {v : U64} {b : BitVec 8} {e : MemEvent} {es : List MemEvent}

structure Sees (x : TaskState η) (y : Private) : Prop where
  current : y.current = x.kernel.currentTask
  bytes : ∀ q ∈ x.created, ∀ v, v.toNat < 2 ^ 47 → y.bytes q v = x.pages.view q (pageOf v) (pageOffset v)

def Refines (x : TaskState η) (y : Private) : Prop := (∃ kt label, MemInv x kt label) ∧ Sees x y

theorem place_inj {w : U64} (hv : v.toNat < 2 ^ 47) (hw : w.toNat < 2 ^ 47) (hpage : pageOf w = pageOf v)
    (hoff : pageOffset w = pageOffset v) : w = v := by
  have hpage := congrArg BitVec.toNat hpage
  have hoff : w.toNat % 0x1000 = v.toNat % 0x1000 := congrArg Fin.val hoff
  rw [toNat_pageOf, toNat_pageOf] at hpage
  bv_omega

omit [HeapSource η] in
theorem Sees.congr {x' : TaskState η} {y : Private} (h : Sees x y) (hcurrent : x'.kernel.currentTask = x.kernel.currentTask)
    (hcreated : x'.created = x.created) (hview : ∀ q p o, x'.pages.view q p o = x.pages.view q p o) : Sees x' y where
  current := h.current.trans hcurrent.symm
  bytes q hq v hv := by rw [hview, h.bytes q (hcreated ▸ hq) v hv]

theorem Refines.step {x' : TaskState η} {y : Private} (h : Refines x y) (hstep : MemStep x e x') :
    ∃ y', PrivateStep y e y' ∧ Refines x' y' := by
  obtain ⟨⟨kt, label, hinv⟩, hsees⟩ := h
  cases hstep with
  | fork frame hfresh hframes hcopy =>
    obtain ⟨⟨label', hinv'⟩, hcurrent, hforks, -⟩ := hinv.fork (y := ⟨(syscallFork x.kernel frame).1, _⟩) hfresh hframes hcopy rfl
    refine ⟨_, .fork y (newTask x.kernel), ⟨kt, label', hinv'⟩, hsees.current.trans hcurrent.symm, fun q hq v hv => ?_⟩
    change Function.update y.bytes (newTask x.kernel) (y.bytes y.current) q v = _
    rw [hforks.view]
    by_cases hq' : q = newTask x.kernel
    · rw [hq', Function.update_self, Function.update_self, hsees.current]
      exact hsees.bytes _ hinv.current v hv
    · rw [Function.update_of_ne hq', Function.update_of_ne hq']
      exact hsees.bytes q ((List.mem_cons.mp hq).resolve_left hq') v hv
  | switch k hcurrent hmachine hvmaps =>
    obtain ⟨hinv', hpages⟩ := hinv.switch hcurrent hmachine hvmaps rfl
    refine ⟨_, .switch y k.currentTask, ⟨kt, label, hinv'⟩, rfl, fun q hq v hv => ?_⟩
    rw [hpages]
    exact hsees.bytes q hq v hv
  | fault s v hfault hframes hcall =>
    obtain ⟨⟨label', hinv'⟩, hcurrent, ⟨f, -, hmoves⟩, -⟩ := hinv.fault hframes hcall rfl
    exact ⟨y, .fault y v, ⟨kt, label', hinv'⟩, hsees.congr hcurrent rfl hmoves.view⟩
  | read v b hv hread =>
    refine ⟨y, .read y v b ?_, ⟨kt, label, hinv⟩, hsees⟩
    rw [hsees.current, hsees.bytes _ hinv.current v hv, ← hinv.read hv, hread]
  | write v b a hv hwrite =>
    obtain ⟨hinv', f, hstores⟩ := hinv.write (b := b) hv hwrite
    have hmapped : (y.bytes y.current v).isSome := by
      rw [hsees.current, hsees.bytes _ hinv.current v hv, State.view, hstores.page]
      rfl
    refine ⟨_, .write y v b hmapped, ⟨kt, label, hinv'⟩, hsees.current, fun q hq w hw => ?_⟩
    change Function.update y.bytes y.current (Function.update (y.bytes y.current) v (some b)) q w = _
    rw [hsees.current]
    by_cases hq' : q = x.kernel.currentTask
    · rw [hq', Function.update_self]
      by_cases hwv : w = v
      · rw [hwv, Function.update_self, hstores.view_self]
      · rw [Function.update_of_ne hwv, hstores.view_other hinv.spaces.exclusive, hsees.bytes _ hinv.current w hw]
        refine .inr ?_
        by_contra hno
        obtain ⟨hpage, hoff⟩ : pageOf w = pageOf v ∧ pageOffset w = pageOffset v := by simpa using hno
        exact hwv (place_inj hv hw hpage hoff)
    · rw [Function.update_of_ne hq', hstores.view_other hinv.spaces.exclusive (.inl hq')]
      exact hsees.bytes q hq w hw

structure OneTask (x : TaskState η) (kt n : Nat) (label : Labels) : Prop where
  created : x.created = [x.kernel.currentTask]
  vmap : x.kernel.vmap = framePtr n
  root : x.kernel.machine.root = n
  backed : Backed kt x.kernel.machine label
  table : label n = some ⟨n, []⟩
  data : ∀ v, kernelHalf v = false → present (lookup x.kernel.machine.mem n v) = true → HasData x.kernel.machine label n v
  distinct : ∀ v w, kernelHalf v = false → kernelHalf w = false → present (lookup x.kernel.machine.mem n v) = true →
    present (lookup x.kernel.machine.mem n w) = true →
    frameOf (lookup x.kernel.machine.mem n v) = frameOf (lookup x.kernel.machine.mem n w) → pageOf v = pageOf w

def privateOf (x : TaskState η) : Private where
  current := x.kernel.currentTask
  bytes q v := if q = x.kernel.currentTask then readByte x.kernel.machine.mem x.kernel.machine.root v else none

omit [HeapSource η] in
theorem OneTask.inv (h : OneTask x kt n label) : MemInv x kt label := by
  have hn : n < frameLimit := h.backed.forest.bound n _ h.table
  have hvmap : frameOf (x.kernel.get x.kernel.currentTask .vmap) = n := (congrArg frameOf h.vmap).trans (frameOf_framePtr hn)
  have hmem : ∀ {q}, q ∈ x.created → q = x.kernel.currentTask := fun hq => by simpa [h.created] using hq
  have htable : ∀ {q r}, x.tables q = some r → q = x.kernel.currentTask ∧ r = n := fun hr => by
    obtain ⟨hq, rfl⟩ := TaskState.tables_some hr
    obtain rfl := hmem hq
    exact ⟨rfl, hvmap⟩
  refine ⟨fun p hp q hq hne => absurd ((hmem hp).trans (hmem hq).symm) hne, by rw [h.created]; exact List.mem_cons_self,
    ⟨h.backed, fun q r hr => ?_, fun p q r hp hq => ?_, fun q r v hr => ?_, ?_⟩, fun q hq => ?_, ?_⟩
  · obtain ⟨-, rfl⟩ := htable hr
    exact h.table
  · exact (htable hp).1.trans (htable hq).1.symm
  · obtain ⟨-, rfl⟩ := htable hr
    exact h.data v
  · intro q p f u p' w hq hu
    obtain ⟨r, v, hr, hv, rfl, hp, hf, -⟩ := sharing_some.mp hq
    obtain ⟨r', v', hr', hv', rfl, hp', hf', -⟩ := sharing_some.mp hu
    obtain ⟨rfl, rfl⟩ := htable hr
    obtain ⟨rfl, rfl⟩ := htable hr'
    exact ⟨rfl, h.distinct v' v hv' hv hp' hp (hf'.trans hf.symm)⟩
  · obtain rfl := hmem hq
    rw [hvmap]
    exact h.vmap
  · rw [h.root]
    exact hvmap.symm

omit [HeapSource η] in
theorem OneTask.refines (h : OneTask x kt n label) : Refines x (privateOf x) := by
  have hinv := h.inv
  refine ⟨⟨kt, label, hinv⟩, rfl, fun q hq v hv => ?_⟩
  obtain rfl : q = x.kernel.currentTask := by simpa [h.created] using hq
  exact (if_pos rfl).trans (hinv.read hv)

-- ---------------------------------------------------------------------------
-- A task with one page
-- ---------------------------------------------------------------------------

/-- A table with a page at 4 MiB and no other user page, and what `fork` asks for. -/
structure OnePage (s : Machine Pmm) (kt n : Nat) (label : Labels) : Prop where
  backed : Backed kt s label
  table : label n = some ⟨n, []⟩
  root : s.root = n
  data : HasData s label n 0x400000
  only : ∀ w, kernelHalf w = false → present (lookup s.mem n w) = true → pageOf w = pageOf 0x400000
  write : ∃ a, mmuWrite s.mem n 0x400000 = some a
  zeros : FreeZero s
  spare : Spare s (1 + maxTables 4 + 14)

theorem onePage : ∃ (s : Machine Pmm) (kt n : Nat) (label : Labels), OnePage s kt n label := by
  obtain ⟨count, hcount⟩ : ∃ c, c = 2 ^ 25 := ⟨_, rfl⟩
  have hlimit : 8 * count + 8 ≤ frameLimit := by rw [hcount]; decide
  have htables : 1 + maxTables 4 + 14 + 300 ≤ 8 * count + 8 := by rw [hcount]; decide
  have hframes : (openPmmOf count).frames = 8 * count + 8 := openPmmOf_frames
  obtain ⟨f, hf⟩ : ∃ f, f = openPmmOf count := ⟨_, rfl⟩
  have huf : f.Untouched := hf ▸ openPmmOf_untouched hlimit
  have hhintf : f.lastFree = 1 := hf ▸ rfl
  rw [← hf] at hframes
  obtain ⟨s, kt, n, label, h, hhint, hlen⟩ := startWith huf (by omega) (by omega)
  have hn := h.backed.forest.bound n _ h.table
  have hv : kernelHalf (0x400000 : U64) = false := by decide
  -- the page
  have habsent : present (lookup s.mem n 0x400000) = false := by
    rw [h.empty _ hv]
    rfl
  obtain ⟨c, hc, ha⟩ := vmmRequestPage_allocates s (framePtr n) 0x400000 7
  obtain ⟨hserved, hu, hhint', hlen'⟩ := ha.served_untouched h.untouched (by omega)
  obtain ⟨g, new, label', hpage⟩ := vmmRequestPage_new h.backed h.table habsent hserved
  obtain ⟨t, ht⟩ : ∃ t, t = vmmRequestPage s (framePtr n) 0x400000 7 := ⟨_, rfl⟩
  rw [← ht] at ha hu hhint' hlen' hpage
  have hnt := hpage.keeps n _ h.table
  have hwrite : ∃ a, mmuWrite t.mem n 0x400000 = some a := by
    obtain ⟨h0, hu₁, hhint₁, hlen₁⟩ := h.untouched.requests (n := 1) (by omega)
    obtain ⟨s₁, hs₁⟩ : ∃ s₁, s₁ = (s.requestPages 1).2 := ⟨_, rfl⟩
    have ht' : t = pagingMap s₁ (framePtr n) 0x400000 (s.requestPages 1).1 7 := by
      rw [ht, vmmRequestPage, pagingGet_lookup hn, habsent, hs₁]
      rfl
    have hframes₁ : s₁.frames = afterFrames s.frames 1 := hs₁ ▸ rfl
    have hbit : (afterFrames s.frames 1).bit n = true := by
      rw [(nextFrames_pmm h.backed.walled h0).bits, h.backed.locked n _ h.table, Bool.or_true]
    rw [← hframes₁] at hu₁ hhint₁ hlen₁ hbit
    rw [ht']
    refine mmuWrite_new_tables hn hu₁ (by omega) (by omega) hbit (by decide) ?_
    have hslot : tableRead s₁.mem n (tableIndex (0x400000 : U64) 3) = 0 := hs₁ ▸ h.slots _ (by decide)
    rw [hslot]
    rfl
  -- zeros in the frames that are free
  obtain ⟨m, hm⟩ : ∃ m : Mem, m = fun a => if t.frames.bit (a / 0x1000) then t.mem a else 0 := ⟨_, rfl⟩
  have hread : ∀ g l i, label' g = some l → tableRead m g i = tableRead t.mem g i := fun g l i hg =>
    entryAt_congr i.isLt fun a hag => by
      rw [hm]
      exact if_pos (hag ▸ hpage.backed.locked g l hg)
  have hlookup : ∀ w, lookup m n w = lookup t.mem n w := fun w => hpage.backed.forest.lookup_congr hnt hread
  have hg : g < frameLimit := Nat.lt_of_lt_of_le hpage.free.1 h.backed.reach
  have hentry : lookup m n 0x400000 = dataEntry g 7 := by
    rw [hlookup, hpage.lookup n _ h.table, if_pos (samePage_iff.mpr ⟨rfl, .inl rfl⟩)]
  refine ⟨{ t with mem := m }, kt, n, label', hpage.backed.withMem hread, hnt, ?_, ⟨?_, ?_⟩, fun w hw hp => ?_, ?_,
    fun a ha => ?_, ⟨hu, ?_⟩⟩
  · rw [Machine.root]
    show frameOf t.cr3 = n
    rw [ha.cr3]
    exact h.root
  · rw [hentry, frameOf_dataEntry hg]
    exact hpage.taken
  · rw [hentry, frameOf_dataEntry hg]
    exact hpage.noTable
  · by_contra hne
    have hsame : ¬ SamePage kt n 0x400000 n w := fun hs => hne (samePage_iff.mp hs).1.symm
    rw [hlookup, hpage.lookup n w h.table, if_neg hsame, h.empty w hw] at hp
    cases hp
  · obtain ⟨a, ha⟩ := hwrite
    exact ⟨a, (mmuWriteFrom_congr hpage.backed.forest hread hnt rfl).trans ha⟩
  · rw [hm]
    exact if_neg (Bool.eq_false_iff.mp ha)
  · show t.frames.lastFree + _ ≤ t.frames.frames
    omega

def onePageTask (s : Machine Pmm) (n : Nat) : TaskState BumpHeap where
  kernel := ⟨s, Mem.write64 (fun _ => 0) (taskAddr 0x1000 .vmap) (framePtr n), ⟨0x2000⟩, 0x1000, 0, 0, 0⟩
  created := [0x1000]

theorem OnePage.oneTask {s : Machine Pmm} (h : OnePage s kt n label) : OneTask (onePageTask s n) kt n label where
  created := rfl
  vmap := Mem.read64_write64
  root := h.root
  backed := h.backed
  table := h.table
  data v hv hp := by
    have hl : lookup s.mem n v = lookup s.mem n 0x400000 := lookup_of_page (h.only v hv hp)
    exact ⟨hl ▸ h.data.locked, hl ▸ h.data.noTable⟩
  distinct v w hv hw hp hp' _ := (h.only v hv hp).trans (h.only w hw hp').symm

theorem OnePage.page {s : Machine Pmm} (h : OnePage s kt n label) :
    (onePageTask s n).pages.map 0x1000 (pageOf 0x400000) =
      some (frameOf (lookup s.mem n 0x400000), writable (lookup s.mem n 0x400000)) ∧
      ∀ u r f w, (onePageTask s n).pages.map u r = some (f, w) → u = 0x1000 ∧ r = pageOf 0x400000 := by
  have htable : (onePageTask s n).tables 0x1000 = some s.root := h.oneTask.inv.table.1
  have hp : present (lookup s.mem n 0x400000) = true := by
    obtain ⟨a, ha⟩ := h.write
    exact (mmuWrite_some (h.backed.windows n _ h.table (not_inWindow_user (by decide))) ha).1
  constructor
  · have hmap := sharing_map (m := s.mem) (v := 0x400000) htable (by decide)
    rw [h.root, leafPage_present hp] at hmap
    exact hmap
  · intro u r f w hu
    obtain ⟨c, v, hc, hv, rfl, hpv, -⟩ := sharing_some.mp hu
    obtain ⟨hmem, hc'⟩ := TaskState.tables_some hc
    obtain rfl : u = 0x1000 := List.mem_singleton.mp hmem
    obtain rfl : c = n := by
      rw [Option.some.inj (hc.symm.trans htable)]
      exact h.root
    exact ⟨rfl, h.only v hv hpv⟩

-- ---------------------------------------------------------------------------
-- Isolation
-- ---------------------------------------------------------------------------

end ShedOS.Task
