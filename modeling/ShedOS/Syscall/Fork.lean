import ShedOS.Task.Sched

/-!
# fork

`syscall_fork`, and what it does to the tasks: the new structure goes behind
the current one.
-/

namespace ShedOS.Syscall

open Bytes Layout Memory
open ShedOS.Task

variable {σ η : Type} [FrameSource σ] [HeapSource η] {k : Kernel σ η} {p q frame : U64} {f : TaskField}
  {created : List U64}

/-- The start of `syscall_fork`: the context of the current process and its
own `vmap` go into the new task. -/
def fillTask (k : Kernel σ η) (newTask vmap frame : U64) : Kernel σ η :=
  let k := k.set newTask .vmap vmap
  let k := storeContext k newTask frame
  let (tid, k) := taskNewTid k
  k.setId newTask tid

/-- Its end: the new task goes behind the current one, and gets 0 in `rax`. -/
def linkTask (k : Kernel σ η) (newTask : U64) : Kernel σ η :=
  let k := k.set newTask .nextTask (k.get k.currentTask .nextTask)
  let k := k.set k.currentTask .nextTask newTask
  k.set newTask (.regs .rax) 0

def syscallFork (k : Kernel σ η) (frame : U64) : Kernel σ η × U64 :=
  let (newTask, heap) := HeapSource.malloc k.heap (BitVec.ofNat 64 structTask.size)
  let k := { k with heap }
  let (vmap, machine) := pagingCopy k.machine (k.get k.currentTask .vmap)
  let k := fillTask { k with machine } newTask vmap frame
  let k := { k with machine := pagingMakeReadonly k.machine (k.get k.currentTask .vmap) }
  let k := { k with machine := pagingMakeReadonly k.machine (k.get newTask .vmap) }
  (linkTask k newTask, 2)

def newTask (k : Kernel σ η) : U64 := (HeapSource.malloc k.heap (BitVec.ofNat 64 structTask.size)).1

def newVmap (k : Kernel σ η) : U64 × Machine σ := pagingCopy k.machine (k.get k.currentTask .vmap)

-- ---------------------------------------------------------------------------
-- The stores
-- ---------------------------------------------------------------------------

section Link

omit [FrameSource σ] [HeapSource η]

variable {vmap : U64}

theorem fillTask_kmem : (fillTask k p vmap frame).kmem =
    (storeContext (k.set p .vmap vmap) p frame).kmem.setByte (taskAddr p .id) k.tidNext := by
  unfold fillTask taskNewTid Kernel.setId
  rfl

@[simp] theorem fillTask_currentTask : (fillTask k p vmap frame).currentTask = k.currentTask := by
  unfold fillTask taskNewTid Kernel.setId storeContext Kernel.copyRegs Kernel.set
  rfl

@[simp] theorem fillTask_tidNext : (fillTask k p vmap frame).tidNext = k.tidNext + 1 := by
  unfold fillTask taskNewTid Kernel.setId storeContext Kernel.copyRegs Kernel.set
  rfl

theorem fillTask_outside : Outside p k.kmem (fillTask k p vmap frame).kmem := by
  rw [fillTask_kmem]
  have hvmap : Outside p k.kmem (k.set p .vmap vmap).kmem := outside_write (by decide)
  exact (hvmap.trans storeContext_outside).trans outside_setByte

theorem fillTask_new (hf : f ≠ .id) :
    (fillTask k p vmap frame).get p f = (storeContext (k.set p .vmap vmap) p frame).get p f := by
  rw [Kernel.get, fillTask_kmem]
  exact Kernel.get_setId hf

theorem fillTask_vmap : (fillTask k p vmap frame).get p .vmap = vmap := by
  rw [fillTask_new (by decide), storeContext_get (by simp) (.inl rfl), Kernel.get_set_same]

theorem fillTask_context (h : FrameApart frame p) :
    (fillTask k p vmap frame).context p = k.frameContext frame := by
  have hnew : (fillTask k p vmap frame).context p = (storeContext (k.set p .vmap vmap) p frame).context p :=
    Context.ext (funext fun _ => fillTask_new (by simp)) (fillTask_new (by decide))
      (fillTask_new (by decide)) (fillTask_new (by decide))
  have hvmap : Outside p k.kmem (k.set p .vmap vmap).kmem := outside_write (by decide)
  rw [hnew, storeContext_context h, hvmap.frameContext h]

theorem linkTask_next (hp : Apart p k.currentTask) : (linkTask k p).get k.currentTask .nextTask = p := by
  refine (Kernel.get_set (.inr hp) (by decide) (by decide)).trans ?_
  rw [if_neg (by simp)]
  exact Kernel.get_set_same

theorem linkTask_new (hp : Apart p k.currentTask) (hf : f ≠ .id) :
    (linkTask k p).get p f =
      if f = .regs .rax then 0 else if f = .nextTask then k.get k.currentTask .nextTask else k.get p f := by
  refine (Kernel.get_set (.inl rfl) (by decide) hf).trans ?_
  refine if_congr (and_iff_right rfl) rfl ?_
  refine (Kernel.get_set (.inr hp.symm) (by decide) hf).trans ?_
  rw [if_neg (fun e => hp.ne e.1)]
  refine (Kernel.get_set (.inl rfl) (by decide) hf).trans ?_
  exact if_congr (and_iff_right rfl) rfl rfl

theorem linkTask_frame {f : FrameField} (h : FrameApart frame p) (h' : FrameApart frame k.currentTask) :
    (linkTask k p).frameGet frame f = k.frameGet frame f := by
  have hset : ∀ {k : Kernel σ η} {q g v}, g ≠ .id → FrameApart frame q →
      (k.set q g v).frameGet frame f = k.frameGet frame f := fun hg hq =>
    Outside.frame (outside_write hg) hq
  exact ((hset (by decide) h).trans (hset (by decide) h')).trans (hset (by decide) h)

theorem linkTask_old (hq : Apart p q) (hcq : k.currentTask = q ∨ Apart k.currentTask q) (hf : f ≠ .id)
    (hne : q = k.currentTask → f ≠ .nextTask) : (linkTask k p).get q f = k.get q f := by
  refine (Kernel.get_set (.inr hq) (by decide) hf).trans ?_
  rw [if_neg (fun e => hq.ne e.1.symm)]
  refine (Kernel.get_set hcq (by decide) hf).trans ?_
  rw [if_neg (fun e => hne e.1 e.2)]
  refine (Kernel.get_set (.inr hq) (by decide) hf).trans ?_
  exact if_neg (fun e => hq.ne e.1.symm)

end Link

-- ---------------------------------------------------------------------------
-- What a fork does
-- ---------------------------------------------------------------------------

def childContext (c : Context) : Context := { c with regs := Function.update c.regs .rax 0 }

@[simp] theorem childContext_rax {c : Context} : (childContext c).regs .rax = 0 :=
  Function.update_self Reg.rax 0 c.regs

theorem childContext_regs {c : Context} {r : Reg} (h : r ≠ .rax) : (childContext c).regs r = c.regs r :=
  Function.update_of_ne h 0 c.regs

omit [FrameSource σ] [HeapSource η] in
theorem linkTask_context (hp : Apart p k.currentTask) : (linkTask k p).context p = childContext (k.context p) := by
  refine Context.ext (funext fun r => ?_) (linkTask_new hp (by decide)) (linkTask_new hp (by decide))
    (linkTask_new hp (by decide))
  refine (linkTask_new hp (by simp)).trans ?_
  by_cases hr : r = .rax
  · subst hr
    rw [if_pos rfl]
    exact childContext_rax.symm
  · rw [if_neg (fun e => hr (TaskField.regs.inj e)), if_neg (by simp)]
    exact (childContext_regs (c := k.context p) hr).symm

structure Forked (k : Kernel σ η) (frame : U64) (created : List U64) (k' : Kernel σ η) : Prop where
  current : k'.currentTask = k.currentTask
  child : FrameApart frame (newTask k) → k'.context (newTask k) = childContext (k.frameContext frame)
  contexts : ∀ q ∈ created, k'.context q = k.context q
  childLink : k'.get (newTask k) .nextTask = k.get k.currentTask .nextTask
  parentLink : k'.get k.currentTask .nextTask = newTask k
  links : ∀ q ∈ created, q ≠ k.currentTask → k'.get q .nextTask = k.get q .nextTask
  childVmap : k'.get (newTask k) .vmap = (newVmap k).1
  vmaps : ∀ q ∈ created, k'.get q .vmap = k.get q .vmap
  deadlines : ∀ q ∈ created, k'.get q .deadline = k.get q .deadline
  elapsed : k'.timerElapsedUs = k.timerElapsedUs
  machine : k'.machine = pagingMakeReadonly
    (pagingMakeReadonly (newVmap k).2 (k.get k.currentTask .vmap)) (newVmap k).1
  frame : FrameApart frame (newTask k) → FrameApart frame k.currentTask →
    ∀ f, k'.frameGet frame f = k.frameGet frame f

def forkFilled (k : Kernel σ η) (frame : U64) : Kernel σ η :=
  let k₁ := fillTask { k with
    heap := (HeapSource.malloc k.heap (BitVec.ofNat 64 structTask.size)).2
    machine := (newVmap k).2 } (newTask k) (newVmap k).1 frame
  { k₁ with
    machine := pagingMakeReadonly
      (pagingMakeReadonly k₁.machine (k₁.get k₁.currentTask .vmap)) (k₁.get (newTask k) .vmap) }

theorem syscallFork_eq (frame : U64) : syscallFork k frame = (linkTask (forkFilled k frame) (newTask k), 2) := by
  obtain ⟨p, hp⟩ : ∃ p, p = newTask k := ⟨_, rfl⟩
  obtain ⟨heap, hheap⟩ : ∃ h, h = (HeapSource.malloc k.heap (BitVec.ofNat 64 structTask.size)).2 := ⟨_, rfl⟩
  obtain ⟨⟨vmap, machine⟩, hvmap⟩ : ∃ x, x = newVmap k := ⟨_, rfl⟩
  obtain ⟨k₁, hk₁⟩ : ∃ k₁, k₁ = fillTask { k with heap, machine } p vmap frame := ⟨_, rfl⟩
  have hcopy : ({ k with heap } : Kernel σ η).get k.currentTask .vmap = k.get k.currentTask .vmap := rfl
  have hmalloc : HeapSource.malloc k.heap (BitVec.ofNat 64 structTask.size) = (p, heap) := by
    rw [hp, hheap]
    rfl
  have hcopy' : pagingCopy k.machine (({ k with heap } : Kernel σ η).get k.currentTask .vmap) =
      (vmap, machine) := hcopy ▸ hvmap.symm
  have hvm : ∀ m : Machine σ, ({ k₁ with machine := m } : Kernel σ η).get p .vmap = k₁.get p .vmap :=
    fun _ => Kernel.get_withMachine
  unfold syscallFork forkFilled
  simp only [hmalloc, hcopy']
  rw [← hvmap, ← hp, ← hk₁, hvm]

theorem syscallFork_spec (frame : U64) (ha : AllApart created) (hc : k.currentTask ∈ created)
    (hnew : ∀ q ∈ created, Apart (newTask k) q) :
    (syscallFork k frame).2 = 2 ∧ Forked k frame created (syscallFork k frame).1 := by
  obtain ⟨p, hp⟩ : ∃ p, p = newTask k := ⟨_, rfl⟩
  obtain ⟨heap, hheap⟩ : ∃ h, h = (HeapSource.malloc k.heap (BitVec.ofNat 64 structTask.size)).2 := ⟨_, rfl⟩
  obtain ⟨⟨vmap, machine⟩, hvmap⟩ : ∃ x, x = newVmap k := ⟨_, rfl⟩
  obtain ⟨k₁, hk₁⟩ : ∃ k₁, k₁ = fillTask { k with heap, machine } p vmap frame := ⟨_, rfl⟩
  obtain ⟨machine', hmachine'⟩ : ∃ m, m = pagingMakeReadonly
    (pagingMakeReadonly k₁.machine (k₁.get k₁.currentTask .vmap)) (k₁.get p .vmap) := ⟨_, rfl⟩
  obtain ⟨k₂, hk₂⟩ : ∃ k₂ : Kernel σ η, k₂ = { k₁ with machine := machine' } := ⟨_, rfl⟩
  have hfork : syscallFork k frame = (linkTask k₂ p, 2) := by
    rw [syscallFork_eq, forkFilled, hk₂, hmachine', hk₁, ← hvmap, hheap, hp]
  have hcur₁ : k₁.currentTask = k.currentTask := by rw [hk₁]; rfl
  have hcur₂ : k₂.currentTask = k.currentTask := by rw [hk₂]; exact hcur₁
  have hmach₁ : k₁.machine = machine := by rw [hk₁]; rfl
  have hget : ∀ q f, k₂.get q f = k₁.get q f := fun q f => by rw [hk₂, Kernel.get_withMachine]
  have hcontext : ∀ q, k₂.context q = k₁.context q := fun q => by
    unfold Kernel.context
    simp only [hget]
  have hout : Outside p k.kmem k₁.kmem := by
    rw [hk₁]
    exact fillTask_outside
  have hpc : Apart p k₂.currentTask := by
    rw [hcur₂, hp]
    exact hnew _ hc
  have hold : ∀ q ∈ created, ∀ f, f ≠ .id → (q = k.currentTask → f ≠ .nextTask) →
      (linkTask k₂ p).get q f = k.get q f := by
    intro q hq f hf hne
    have hpq : Apart p q := hp ▸ hnew q hq
    rw [linkTask_old hpq (hcur₂ ▸ ha.eq_or hc hq) hf (hcur₂ ▸ hne), hget]
    exact (hout.same hpq).read hf
  rw [hfork]
  refine ⟨rfl, ?_⟩
  simp only
  constructor
  · exact hcur₂
  · intro h
    rw [← hp] at h ⊢
    have hfill : k₂.context p = k.frameContext frame := by
      rw [hcontext, hk₁]
      exact fillTask_context h
    rw [← hfill]
    exact linkTask_context hpc
  · intro q hq
    exact Context.ext (funext fun r => hold q hq _ (by simp) (by simp))
      (hold q hq _ (by decide) (by simp)) (hold q hq _ (by decide) (by simp))
      (hold q hq _ (by decide) (by simp))
  · rw [← hp, linkTask_new hpc (by decide), if_neg (by decide), if_pos rfl, hcur₂, hget]
    exact (hout.same (hcur₂ ▸ hpc)).read (by decide)
  · rw [← hp, ← hcur₂]
    exact linkTask_next hpc
  · intro q hq hne
    exact hold q hq _ (by decide) (fun e => absurd e hne)
  · rw [← hp, linkTask_new hpc (by decide), if_neg (by decide), if_neg (by decide), hget, ← hvmap, hk₁]
    exact fillTask_vmap
  · intro q hq
    exact hold q hq _ (by decide) (by simp)
  · intro q hq
    exact hold q hq _ (by decide) (by simp)
  · show k₂.timerElapsedUs = k.timerElapsedUs
    rw [hk₂, hk₁]
    rfl
  · have hvmap₁ : k₁.get p .vmap = vmap := by rw [hk₁]; exact fillTask_vmap
    have hvmap₂ : k₁.get k.currentTask .vmap = k.get k.currentTask .vmap :=
      (hout.same (hcur₂ ▸ hpc)).read (by decide)
    rw [← hvmap, ← hvmap₂, ← hcur₁, ← hmach₁, ← hvmap₁, ← hmachine']
    show k₂.machine = machine'
    rw [hk₂]
  · intro h h' f
    rw [← hp] at h
    rw [linkTask_frame h (hcur₂ ▸ h'), ← hout.frame h, hk₂]
    rfl

end ShedOS.Syscall
