import ShedOS.Task.Isolation

/-!
# Owners of frames

The frames that were allocated for user pages, along the runs of tasks that
share pages: a frame is lost where the last page in it is copied.
-/

namespace ShedOS.Task

open Bytes Memory Syscall Interrupts Transition Sharing

def TaskState.entry {η : Type} (x : TaskState η) (q v : U64) : U64 :=
  lookup x.kernel.machine.mem (frameOf (x.kernel.get q .vmap)) v

def TaskState.MapsFrame {η : Type} (x : TaskState η) (f : Nat) : Prop :=
  ∃ q ∈ x.created, ∃ v : U64, v.toNat < 2 ^ 47 ∧ present (x.entry q v) = true ∧ frameOf (x.entry q v) = f

/-- The tasks, and the frames that were allocated for user pages so far. -/
structure Owners (η : Type) where
  tasks : TaskState η
  allocated : Set Nat

def allocatedBy {η : Type} (e : MemEvent) (y : TaskState η) : Set Nat :=
  match e with
  | .fault v => {frameOf (y.entry y.kernel.currentTask v)}
  | _ => ∅

/-- A step, with the tasks before it on record. -/
inductive OwnStep {η : Type} [HeapSource η] : Owners η → TaskState η × MemEvent → Owners η → Prop
  | step (z : Owners η) (e : MemEvent) (y : TaskState η) (h : MemStep z.tasks e y) :
    OwnStep z (z.tasks, e) ⟨y, allocatedBy e y ∪ z.allocated⟩

def ownersOf {η : Type} (x : TaskState η) : Owners η := ⟨x, {f | x.MapsFrame f}⟩

def Owners.Owned {η : Type} (z : Owners η) : Prop :=
  ∀ f ∈ z.allocated, z.tasks.kernel.machine.frames.bit f = true → z.tasks.MapsFrame f

/-- A fault at `v` leaves the frame behind `v` to another page. -/
def LeavesOwner {η : Type} (a : TaskState η × MemEvent) : Prop :=
  match a with
  | (x, .fault v) => ∃ q ∈ x.created, ∃ w : U64, w.toNat < 2 ^ 47 ∧ (q ≠ x.kernel.currentTask ∨ pageOf w ≠ pageOf v) ∧
      present (x.entry q w) = true ∧ frameOf (x.entry q w) = frameOf (x.entry x.kernel.currentTask v)
  | _ => True

-- ---------------------------------------------------------------------------
-- In terms of pages
-- ---------------------------------------------------------------------------

variable {η : Type} {x y : TaskState η} {z z' : Owners η} {kt n f : Nat} {label : Labels} {q : U64} {v : U64}
  {p : BitVec 36} {w : Bool} {e : MemEvent} {a : TaskState η × MemEvent} {run : List (TaskState η × MemEvent)}

theorem TaskState.map_some : x.pages.map q p = some (f, w) ↔ q ∈ x.created ∧ ∃ v : U64, v.toNat < 2 ^ 47 ∧ pageOf v = p ∧
    present (x.entry q v) = true ∧ frameOf (x.entry q v) = f ∧ writable (x.entry q v) = w := by
  constructor
  · intro h
    obtain ⟨r, v, hr, hv, rfl, hp, hf, hw⟩ := sharing_some.mp h
    obtain ⟨hq, rfl⟩ := TaskState.tables_some hr
    -- the address itself may have bits above the 48 that count
    have hpage : pageOf (pageAddr (pageOf v).toNat) = pageOf v := pageOf_pageAddr_toNat
    have hsame : x.entry q (pageAddr (pageOf v).toNat) = x.entry q v := lookup_of_page hpage
    refine ⟨hq, pageAddr (pageOf v).toNat, ?_, hpage, hsame ▸ hp, hsame ▸ hf, hsame ▸ hw⟩
    have hhalf : kernelHalf (pageAddr (pageOf v).toNat) = false := (kernelHalf_congr hpage).trans hv
    have hlt := (pageOf v).isLt
    rw [kernelHalf, decide_eq_false_iff_not, vaddrToIndex_eq] at hhalf
    rw [pageAddr, BitVec.toNat_ofNat] at hhalf ⊢
    omega
  · rintro ⟨hq, v, hv, rfl, hp, hf, hw⟩
    exact sharing_some.mpr ⟨_, v, TaskState.tables_mem hq, kernelHalf_user hv, rfl, hp, hf, hw⟩

theorem TaskState.mapsFrame_iff : x.MapsFrame f ↔ x.pages.Mapped f := by
  constructor
  · rintro ⟨q, hq, v, hv, hp, hf⟩
    exact ⟨q, pageOf v, _, TaskState.map_some.mpr ⟨hq, v, hv, rfl, hp, hf, rfl⟩⟩
  · rintro ⟨q, p, w, h⟩
    obtain ⟨hq, v, hv, -, hp, hf, -⟩ := TaskState.map_some.mp h
    exact ⟨q, hq, v, hv, hp, hf⟩

theorem leavesOwner_iff (hcurrent : x.kernel.currentTask ∈ x.created) (hv : v.toNat < 2 ^ 47)
    (hp : present (x.entry x.kernel.currentTask v) = true) :
    LeavesOwner (x, .fault v) ↔ x.pages.MappedTwice x.kernel.currentTask (pageOf v) := by
  have hpage : x.pages.map x.kernel.currentTask (pageOf v) =
      some (frameOf (x.entry x.kernel.currentTask v), writable (x.entry x.kernel.currentTask v)) :=
    TaskState.map_some.mpr ⟨hcurrent, v, hv, rfl, hp, rfl, rfl⟩
  constructor
  · rintro ⟨q, hq, u, hu, hne, hpu, hf⟩
    exact ⟨_, _, q, pageOf u, _, hpage, hne, TaskState.map_some.mpr ⟨hq, u, hu, rfl, hpu, hf, rfl⟩⟩
  · rintro ⟨f, w, q, p, w', hold, hne, hm⟩
    obtain ⟨rfl, -⟩ := Prod.mk.inj (Option.some.inj (hpage.symm.trans hold))
    obtain ⟨hq, u, hu, rfl, hpu, hf, -⟩ := TaskState.map_some.mp hm
    exact ⟨q, hq, u, hu, hne, hpu, hf⟩

-- ---------------------------------------------------------------------------
-- Runs
-- ---------------------------------------------------------------------------

structure OwnInv (z : Owners η) (kt : Nat) : Prop where
  inv : ∃ label, MemInv z.tasks kt label
  mapped : ∀ f, z.tasks.pages.Mapped f → f ∈ z.allocated
  locked : ∀ f ∈ z.allocated, z.tasks.kernel.machine.frames.bit f = true

theorem OwnInv.owned_iff (h : OwnInv z kt) : z.Owned ↔ z.tasks.pages.Covers z.allocated :=
  ⟨fun ho f hf => TaskState.mapsFrame_iff.mp (ho f hf (h.locked f hf)), fun hc f hf _ =>
    TaskState.mapsFrame_iff.mpr (hc f hf)⟩

theorem OwnInv.keep (h : OwnInv z kt) (hz : z' = ⟨y, z.allocated⟩) (hinv : ∃ label, MemInv y kt label)
    (hmapped : ∀ f, y.pages.Mapped f ↔ z.tasks.pages.Mapped f)
    (hlocked : ∀ f, z.tasks.kernel.machine.frames.bit f = true → y.kernel.machine.frames.bit f = true) :
    OwnInv z' kt ∧ (z'.Owned ↔ z.Owned) := by
  have h' : OwnInv z' kt := by
    rw [hz]
    exact ⟨hinv, fun f hf => h.mapped f ((hmapped f).mp hf), fun f hf => hlocked f (h.locked f hf)⟩
  refine ⟨h', ?_⟩
  rw [h'.owned_iff, h.owned_iff, hz]
  exact forall₂_congr fun f _ => hmapped f

theorem OwnInv.move (h : OwnInv z kt) (hv : v.toNat < 2 ^ 47) (hp : present (z.tasks.entry z.tasks.kernel.currentTask v) = true)
    (hz : z' = ⟨y, allocatedBy (.fault v) y ∪ z.allocated⟩) (hm : Moved z.tasks y kt v) :
    OwnInv z' kt ∧ (z'.Owned ↔ z.Owned ∧ LeavesOwner (z.tasks, .fault v)) := by
  obtain ⟨label, hinv⟩ := h.inv
  obtain ⟨⟨label', hinv'⟩, hcurrent, ⟨f, hfree, hmoves⟩, -, hlocked⟩ := hm
  have hfresh : f ∉ z.allocated := fun hmem => by
    have hbit := h.locked f hmem
    rw [hfree.2] at hbit
    cases hbit
  have hnew : allocatedBy (.fault v) y = {f} := by
    have hpage := hmoves.page
    rw [← hcurrent] at hpage
    have hentry := sharing_map (m := y.kernel.machine.mem) (TaskState.tables_mem hinv'.current) (kernelHalf_user hv)
    rw [TaskState.pages, hentry, leafPage] at hpage
    split at hpage
    · exact congrArg (fun f => ({f} : Set Nat)) (congrArg Prod.fst (Option.some.inj hpage))
    · cases hpage
  have hall : z'.allocated = insert f z.allocated := by
    rw [hz, hnew]
    rfl
  have htasks : z'.tasks = y := by rw [hz]
  have h' : OwnInv z' kt := by
    refine ⟨htasks ▸ ⟨label', hinv'⟩, fun g hg => ?_, fun g hg => ?_⟩
    · rw [htasks] at hg
      rw [hall]
      rcases hmoves.mapped.mp hg with rfl | ⟨u, q, w, -, hu⟩
      · exact .inl rfl
      · exact .inr (h.mapped g ⟨u, q, w, hu⟩)
    · rw [htasks]
      rw [hall] at hg
      rcases hg with rfl | hg
      · exact (hinv'.spaces.locked ⟨_, _, _, hmoves.page⟩).1
      · exact hlocked g (h.locked g hg)
  refine ⟨h', ?_⟩
  rw [h'.owned_iff, h.owned_iff, leavesOwner_iff hinv.current hv hp, hall, htasks]
  exact hmoves.covers h.mapped hfresh

theorem OwnInv.step [HeapSource η] (h : OwnInv z kt) (hstep : OwnStep z a z') :
    OwnInv z' kt ∧ (z'.Owned ↔ z.Owned ∧ LeavesOwner a) := by
  obtain ⟨label, hinv⟩ := h.inv
  obtain ⟨x, A⟩ := z
  have hnone : ∀ y : TaskState η, (⟨y, ∅ ∪ A⟩ : Owners η) = ⟨y, A⟩ := fun y => congrArg _ (Set.empty_union A)
  cases hstep with
  | step e y hmem =>
    cases hmem with
    | fork frame hfresh hframes hcopy =>
      have hs := hinv.fork (y := ⟨(syscallFork x.kernel frame).1, _⟩) hfresh hframes hcopy rfl
      obtain ⟨h', hiff⟩ := h.keep (hnone _) hs.inv (fun f => hs.pages.mapped) hs.locked
      exact ⟨h', hiff.trans (and_iff_left trivial).symm⟩
    | switch k hcurrent hmachine hvmaps =>
      obtain ⟨hinv', hpages⟩ := hinv.switch hcurrent hmachine hvmaps rfl
      have hframes : k.machine.frames = x.kernel.machine.frames := by rw [hmachine]
      obtain ⟨h', hiff⟩ := h.keep (hnone _) ⟨label, hinv'⟩ (fun f => by rw [hpages]) (fun f hf => by rwa [hframes])
      exact ⟨h', hiff.trans (and_iff_left trivial).symm⟩
    | fault s v hfault hframes hcall =>
      obtain ⟨hv, hp, -⟩ := exceptionHandle_returned hcall
      have hv : v.toNat < 2 ^ 47 := Nat.lt_of_le_of_lt hv (by decide)
      have hentry : present (x.entry x.kernel.currentTask v) = true := by
        obtain ⟨htable, hvmap⟩ := hinv.table
        have hbound := hinv.spaces.backed.forest.bound _ _ (hinv.spaces.table _ _ htable)
        rwa [hvmap, pagingGet_lookup hbound, lookup_of_page pageOf_pageStart, hinv.root] at hp
      exact h.move hv hentry rfl (hinv.fault hframes hcall rfl)
    | read v b hv hread =>
      obtain ⟨h', hiff⟩ := h.keep (hnone _) ⟨label, hinv⟩ (fun f => Iff.rfl) (fun f hf => hf)
      exact ⟨h', hiff.trans (and_iff_left trivial).symm⟩
    | write v b a hv hwrite =>
      obtain ⟨hinv', f, hstores⟩ := hinv.write (b := b) hv hwrite
      obtain ⟨h', hiff⟩ := h.keep (hnone _) ⟨label, hinv'⟩ (fun f => hstores.mapped) (fun f hf => hf)
      exact ⟨h', hiff.trans (and_iff_left trivial).symm⟩

theorem owners_run [HeapSource η] {es : List MemEvent} {A : Set Nat} (h : Trace MemStep x es y) :
    ∃ run B, Trace OwnStep ⟨x, A⟩ run ⟨y, B⟩ ∧ run.map Prod.snd = es ∧ A ⊆ B := by
  induction h with
  | nil => exact ⟨[], A, .nil, rfl, Set.Subset.rfl⟩
  | @snoc es e t u _ hstep ih =>
    obtain ⟨run, B, hrun, hevents, hsub⟩ := ih
    refine ⟨run ++ [(t, e)], allocatedBy e u ∪ B, hrun.snoc (.step ⟨t, B⟩ e u hstep), ?_, fun f hf => .inr (hsub hf)⟩
    rw [List.map_append, hevents]
    rfl

theorem lost_frame : ∃ (x : TaskState BumpHeap) (kt n : Nat) (label : Labels) (run : List (TaskState BumpHeap × MemEvent))
    (z : Owners BumpHeap), OneTask x kt n label ∧ Trace OwnStep (ownersOf x) run z ∧
      run.map Prod.snd = [.fork 0x2000, .fault 0x400000, .switch 0x2000, .fault 0x400000] ∧ ¬ z.Owned := by
  obtain ⟨s, kt, n, label, h⟩ := onePage
  obtain ⟨x, hx⟩ : ∃ x, x = onePageTask s n := ⟨_, rfl⟩
  have hone : OneTask x kt n label := hx ▸ h.oneTask
  have hmachine : x.kernel.machine = s := hx ▸ rfl
  have hcreated : x.created = [0x1000] := hx ▸ rfl
  obtain ⟨hpage, honly⟩ := h.page
  rw [← hx] at hpage honly
  have hcurrent : x.kernel.currentTask = 0x1000 := hx ▸ rfl
  rw [← hcurrent] at hpage honly
  have hnew : newTask x.kernel = 0x2000 := by rw [hx]; rfl
  have hfresh : ∀ q ∈ x.created, Apart 0x2000 q := fun q hq => by
    obtain rfl : q = 0x1000 := List.mem_singleton.mp (hcreated ▸ hq)
    exact .inr (by decide)
  obtain ⟨y, htrace, -, -, -, hbit, hlost⟩ := hone.inv.both_fault (v := 0x400000) (by decide)
    hpage (fun u r w => honly u r _ w) (hmachine ▸ h.spare) (hmachine ▸ h.zeros) hnew hfresh
  obtain ⟨run, B, hrun, hevents, hsub⟩ := owners_run (A := {f | x.MapsFrame f}) htrace
  refine ⟨x, kt, n, label, run, _, hone, hrun, hevents, fun ho => ?_⟩
  have hold : x.MapsFrame _ := TaskState.mapsFrame_iff.mpr ⟨_, _, _, hpage⟩
  exact hlost (TaskState.mapsFrame_iff.mp (ho _ (hsub hold) hbit))

end ShedOS.Task
