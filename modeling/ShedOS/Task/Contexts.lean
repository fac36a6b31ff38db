import ShedOS.Interrupts.Stubs
import ShedOS.Task.RunQueue

/-!
# Contexts across interrupts

Runs of the processor from user mode to user mode. Whatever the order of
ticks, switches and forks, a task goes on with the registers it had when it was
interrupted last, in its own address space.
-/

namespace ShedOS.Task

open Bytes Layout Memory Syscall Transition Interrupts

variable {σ η : Type} {s : Core σ η} {p q : U64} {created : List U64} {m m' m'' : Mem} {v : U64}

-- ---------------------------------------------------------------------------
-- The interrupt stack
-- ---------------------------------------------------------------------------

def StackOnly (s : Core σ η) (m m' : Mem) : Prop :=
  ∀ a, a < s.tssRsp0.toNat - stackSize ∨ s.tssRsp0.toNat ≤ a → m' a = m a

structure Placed (s : Core σ η) (p : U64) : Prop where
  fits : Core.Fits p
  apart : p.toNat + structTask.size ≤ s.tssRsp0.toNat - stackSize ∨ s.tssRsp0.toNat ≤ p.toNat

theorem StackOnly.trans (h : StackOnly s m m') (h' : StackOnly s m' m'') : StackOnly s m m'' :=
  fun a ha => (h' a ha).trans (h a ha)

theorem StackOnly.same (h : StackOnly s m m') (hp : Placed s p) : SameTask p m m' := by
  intro a ha ha'
  apply h
  have := hp.apart
  omega

theorem Placed.frame (hp : Placed s p) (h : stackSize ≤ s.tssRsp0.toNat) : FrameApart s.frame p := by
  have hframe := Core.toNat_frame h
  have hsize : interruptFrame.size = 160 := by decide
  have := hp.apart
  unfold stackSize at h this
  unfold FrameApart
  omega

theorem Placed.stack {rsp : U64} (hp : Placed s p) (h : s.tssRsp0.toNat - stackSize + 40 ≤ rsp.toNat)
    (h' : rsp.toNat ≤ s.frame.toNat) (hs : stackSize ≤ s.tssRsp0.toNat) : Core.StackApart rsp p := by
  have hframe := Core.toNat_frame hs
  have := hp.apart
  refine ⟨by omega, ?_⟩
  omega

theorem frame_room (h : stackSize ≤ s.tssRsp0.toNat) : s.frame.toNat + 160 < 2 ^ 64 := by
  have := Core.toNat_frame h
  have := s.tssRsp0.isLt
  omega

theorem StackOnly.clobber {k : Kernel σ η} {c : Leftover} {E : Core σ η} (hE : E.tssRsp0 = s.tssRsp0)
    (h : E.rsp.toNat ≤ s.tssRsp0.toNat) : StackOnly s k.kmem (E.clobber k.kmem c) := by
  intro a ha
  unfold Core.clobber
  rw [hE, if_neg (by omega)]

-- ---------------------------------------------------------------------------
-- CR3 and IF
-- ---------------------------------------------------------------------------

section Cr3

open Loops

variable {machine : Machine σ} {level : Nat} {dst src table : U64}

theorem pagingCopyRecursive_cr3 [FrameSource σ] :
    (pagingCopyRecursive level machine dst src).cr3 = machine.cr3 := by
  induction level using Nat.twoStepInduction generalizing machine dst src with
  | zero => rfl
  | one => rfl
  | more level _ ih =>
    rw [pagingCopyRecursive]
    refine upto_rule (fun _ (t : Machine σ) => t.cr3 = machine.cr3) rfl fun i t _ ht => ?_
    split
    · exact ht
    · exact ih.trans ht

theorem pagingMakeReadonlyRecursive_cr3 :
    (pagingMakeReadonlyRecursive level machine table).cr3 = machine.cr3 := by
  induction level using Nat.twoStepInduction generalizing machine table with
  | zero => rfl
  | one =>
    rw [pagingMakeReadonlyRecursive]
    exact upto_rule (fun _ (t : Machine σ) => t.cr3 = machine.cr3) rfl fun _ _ _ ht => ht
  | more level _ ih =>
    rw [pagingMakeReadonlyRecursive]
    refine upto_rule (fun _ (t : Machine σ) => t.cr3 = machine.cr3) rfl fun i t _ ht => ?_
    split
    · exact ht
    · exact ih.trans ht

end Cr3

theorem syscallFork_cr3 [FrameSource σ] [HeapSource η] {k k' : Kernel σ η} {frame : U64}
    (h : Forked k frame created k') : k'.machine.cr3 = k.machine.cr3 := by
  have hcopy : (newVmap k).2.cr3 = k.machine.cr3 := pagingCopyRecursive_cr3
  rw [h.machine]
  exact (pagingMakeReadonlyRecursive_cr3.trans pagingMakeReadonlyRecursive_cr3).trans hcopy

def IfSet (v : U64) : Prop := v &&& FLAG_IF = FLAG_IF

theorem IfSet.or (h : IfSet v) : v ||| FLAG_IF = v := by
  have hv : v ||| (v &&& FLAG_IF) = v := by
    refine BitVec.eq_of_getLsbD_eq fun i _ => ?_
    rw [BitVec.getLsbD_or, BitVec.getLsbD_and]
    cases v.getLsbD i <;> rfl
  rwa [h] at hv

theorem ifSet_or : IfSet (v ||| FLAG_IF) := by
  refine BitVec.eq_of_getLsbD_eq fun i _ => ?_
  rw [BitVec.getLsbD_and, BitVec.getLsbD_or]
  cases v.getLsbD i <;> cases FLAG_IF.getLsbD i <;> rfl

-- ---------------------------------------------------------------------------
-- Runs
-- ---------------------------------------------------------------------------

/-- The processor in user mode. `created` are the tasks so far, and `last` is
the record of the contexts: for a task that was interrupted, the registers at
that moment, and for one that has not run yet, those it was forked with. -/
structure UserState (σ η : Type) where
  core : Core σ η
  created : List U64
  last : U64 → Context

def UserState.current (x : UserState σ η) : U64 := x.core.kernel.currentTask

inductive UserEvent where
  | run | tick | fork
  deriving DecidableEq, Repr

/-- User code runs: it gives the registers any values and writes to its memory,
but cannot change IF (IOPL is 0). -/
def runUser (s : Core σ η) (c : Context) (mem : Mem) : Core σ η :=
  { s with
    regs := c.regs
    rsp := c.rsp
    rflags := c.rflags
    rip := c.rip
    kernel := { s.kernel with machine := { s.kernel.machine with mem } } }

variable [FrameSource σ] [HeapSource η]

inductive UserStep : UserState σ η → UserEvent → UserState σ η → Prop
  | run (x : UserState σ η) (c : Context) (mem : Mem)
      (hif : c.rflags &&& FLAG_IF = x.core.rflags &&& FLAG_IF) :
    UserStep x .run { x with core := runUser x.core c mem }
  | tick (x : UserState σ η) (counter : U64) (c : Leftover)
      (hlow : x.core.tssRsp0.toNat - stackSize + 40 ≤ c.rsp.toNat) (hhigh : c.rsp.toNat ≤ x.core.frame.toNat) :
    UserStep x .tick
      ⟨x.core.hpet counter c, x.created, Function.update x.last x.current x.core.context⟩
  | fork (x : UserState σ η) (c : Leftover) (core : Core σ η)
      (hid : ((x.core.regs .rax).setWidth 8).toNat = SYSCALL_FORK)
      (hfresh : ∀ q ∈ x.created, Apart (newTask x.core.kernel) q)
      (hplaced : Placed x.core (newTask x.core.kernel)) (hcall : x.core.syscall c = some core) :
    UserStep x .fork ⟨core, newTask x.core.kernel :: x.created,
      Function.update x.last (newTask x.core.kernel) (childContext x.core.context)⟩

/-- A step of the run queue; what runs between forks and ticks hands out no id. -/
def TaskStep (x : Kernel σ η × List U64) (e : QueueEvent) (y : Kernel σ η × List U64) : Prop :=
  QueueStep x e y ∧ (e = .other → y.1.tidNext = x.1.tidNext)

def UserState.tasks (x : UserState σ η) : Kernel σ η × List U64 := (x.core.kernel, x.created)

structure UserInv (x : UserState σ η) : Prop where
  queue : QueueInv x.core.kernel x.created
  placed : ∀ p ∈ x.created, Placed x.core p
  stack : stackSize ≤ x.core.tssRsp0.toNat
  ifSet : IfSet x.core.rflags
  cr3 : x.core.kernel.machine.cr3 = x.core.kernel.get x.current .vmap - VADDR_HIGHER
  saved : ∀ q ∈ x.created, q ≠ x.current → x.core.kernel.context q = x.last q ∧ IfSet (x.last q).rflags

theorem userInv_of {x y : UserState σ η} {k : Kernel σ η} (hq : QueueInv k y.created)
    (hplaced : ∀ p ∈ y.created, Placed x.core p) (hstack : stackSize ≤ x.core.tssRsp0.toNat)
    (htss : y.core.tssRsp0 = x.core.tssRsp0) (hmem : StackOnly x.core k.kmem y.core.kernel.kmem)
    (hcur : y.current = k.currentTask) (hif : IfSet y.core.rflags)
    (hcr3 : y.core.kernel.machine.cr3 = k.get k.currentTask .vmap - VADDR_HIGHER)
    (hsaved : ∀ q ∈ y.created, q ≠ k.currentTask → k.context q = y.last q ∧ IfSet (y.last q).rflags)
    (htid : y.core.kernel.tidNext = k.tidNext) :
    UserInv y ∧ TaskStep (k, y.created) .other y.tasks := by
  have hsame : ∀ q ∈ y.created, SameTask q k.kmem y.core.kernel.kmem := fun q hq => hmem.same (hplaced q hq)
  have hstep : QueueStep (k, y.created) .other y.tasks := .other k y.core.kernel y.created hcur hsame
  refine ⟨⟨hstep.inv hq, fun p hp => ?_, htss ▸ hstack, hif, ?_, fun q hq hne => ?_⟩, hstep, fun _ => htid⟩
  · obtain ⟨hfit, hapart⟩ := hplaced p hp
    exact ⟨hfit, by rwa [htss]⟩
  · rw [hcr3, hcur]
    exact congrArg (· - VADDR_HIGHER) ((hsame _ hq.current).read (by decide)).symm
  · rw [hcur] at hne
    rw [(hsame q hq).context]
    exact hsaved q hq hne

def resumed (c : Context) : Context := { c with rflags := c.rflags ||| FLAG_IF }

theorem resumed_of_ifSet {c : Context} (h : IfSet c.rflags) : resumed c = c := by
  unfold resumed
  rw [h.or]

/-- `E` is the processor in the handler of an interrupt from user mode, and `k`
the kernel there: only the interrupt stack has changed. -/
structure Entered (x : UserState σ η) (E : Core σ η) (k : Kernel σ η) : Prop where
  rsp : E.rsp = x.core.frame
  tss : E.tssRsp0 = x.core.tssRsp0
  current : k.currentTask = x.core.kernel.currentTask
  tid : k.tidNext = x.core.kernel.tidNext
  heap : k.heap = x.core.kernel.heap
  machine : k.machine = x.core.kernel.machine
  context : k.frameContext x.core.frame = x.core.context
  memory : StackOnly x.core x.core.kernel.kmem k.kmem

omit [FrameSource σ] [HeapSource η] in
theorem UserInv.entered {x : UserState σ η} (h : UserInv x) :
    Entered x (x.core.enter.run isrHead) (x.core.enter.run isrHead).kernel ∧
      (x.core.enter.run isrHead).regs .rdi = x.core.frame := by
  obtain ⟨m, fl, hE, hctx, -, -, hout⟩ := Core.enter_head h.stack
  rw [hE]
  exact ⟨⟨rfl, rfl, rfl, rfl, rfl, rfl, hctx, hout⟩, rfl⟩

namespace Entered

variable {x y : UserState σ η} {E : Core σ η} {k k' : Kernel σ η} {c : Leftover}

section Frame

omit [FrameSource σ] [HeapSource η]

theorem same (he : Entered x E k) (h : UserInv x) (hq : q ∈ x.created) : SameTask q x.core.kernel.kmem k.kmem :=
  he.memory.same (h.placed q hq)

theorem vmap (he : Entered x E k) (h : UserInv x) : k.get x.current .vmap = x.core.kernel.get x.current .vmap :=
  (he.same h h.queue.current).read (by decide)

theorem saved (he : Entered x E k) (h : UserInv x) (hq : q ∈ x.created) (hne : q ≠ x.current) :
    k.context q = x.last q ∧ IfSet (x.last q).rflags := by
  rw [(he.same h hq).context]
  exact h.saved q hq hne

theorem ticked (he : Entered x E k) (h : UserInv x) (ht : Ticked k x.core.frame x.created k') (hq : q ∈ x.created) :
    k'.context q = Function.update x.last x.current x.core.context q ∧
      IfSet (Function.update x.last x.current x.core.context q).rflags := by
  by_cases hqc : q = x.current
  · subst hqc
    have hcurrent : k.currentTask = x.current := he.current
    have hctx : k'.context x.current = x.core.context := by
      rw [← he.context, ← ht.saved (hcurrent ▸ (h.placed _ h.queue.current).frame h.stack), hcurrent]
    rw [hctx, Function.update_self]
    exact ⟨rfl, h.ifSet⟩
  · rw [Function.update_of_ne hqc, ht.contexts q hq fun e => hqc (e.trans he.current)]
    exact he.saved h hq hqc

theorem room (he : Entered x E k) (h : UserInv x) : E.rsp.toNat + 160 < 2 ^ 64 := by
  rw [he.rsp]
  exact frame_room h.stack

theorem clobber (he : Entered x E k) (h : UserInv x) : StackOnly x.core k'.kmem (E.clobber k'.kmem c) := by
  have hframe := Core.toNat_frame h.stack
  refine .clobber he.tss ?_
  rw [he.rsp]
  omega

end Frame

theorem step (he : Entered x E k) (h : UserInv x) : QueueStep x.tasks .other (k, x.created) :=
  .other x.core.kernel k x.created he.current fun _ hq => he.same h hq

theorem queue (he : Entered x E k) (h : UserInv x) : QueueInv k x.created :=
  (he.step h).inv h.queue

theorem trace (he : Entered x E k) (h : UserInv x) : Trace TaskStep x.tasks [.other] (k, x.created) :=
  .single ⟨he.step h, fun _ => he.tid⟩

theorem idle (he : Entered x E k) (h : UserInv x) (hidle : schedTick k x.core.frame = (k, none))
    (hy : y = ⟨(E.returned k c).run isrNoerrTail, x.created, Function.update x.last x.current x.core.context⟩) :
    UserInv y ∧ y.core.context = resumed (y.last y.current) ∧ ∃ es, Trace TaskStep x.tasks es y.tasks := by
  have hq := he.queue h
  rw [Core.returned_tail (he.room h), he.rsp, he.context] at hy
  have hycur : y.current = k.currentTask := by rw [hy]; rfl
  have hylast : y.last = Function.update x.last x.current x.core.context := by rw [hy]
  have hyctx : y.core.context = x.core.context := by rw [hy]; rfl
  have hcreated : y.created = x.created := by rw [hy]
  have htick : TaskStep (k, x.created) (.tick none) (k, x.created) := by
    have hstep := QueueStep.tick k x.created x.core.frame
    rw [hidle] at hstep
    exact ⟨hstep, fun e => by cases e⟩
  have hdone : UserInv y ∧ TaskStep (k, y.created) .other y.tasks := by
    refine userInv_of (x := x) (hcreated ▸ hq) (hcreated ▸ h.placed) h.stack (by rw [hy]; exact he.tss) ?_ hycur
      ?_ ?_ ?_ (by rw [hy]; rfl)
    · have hmem : y.core.kernel.kmem = E.clobber k.kmem c := by
        rw [hy]
        exact Core.returned_kmem
      rw [hmem]
      exact he.clobber h
    · have : y.core.rflags = x.core.rflags := congrArg Context.rflags hyctx
      exact this ▸ h.ifSet
    · have : y.core.kernel.machine = k.machine := by rw [hy]; rfl
      rw [this, he.machine, h.cr3, he.current]
      exact congrArg (· - VADDR_HIGHER) (he.vmap h).symm
    · intro q hqm hne
      have hne : q ≠ x.current := fun e => hne (e.trans he.current.symm)
      rw [hylast, Function.update_of_ne hne]
      exact he.saved h (hcreated ▸ hqm) hne
  refine ⟨hdone.1, ?_, _, ((he.trace h).snoc htick).snoc (hcreated ▸ hdone.2)⟩
  rw [hyctx, hylast, hycur, he.current]
  exact ((congrArg resumed (Function.update_self ..)).trans (resumed_of_ifSet h.ifSet)).symm

theorem switch (he : Entered x E k) (h : UserInv x) (hswitch : schedTick k x.core.frame = (k', some k'.currentTask))
    (ht : Ticked k x.core.frame x.created k')
    (hlow : x.core.tssRsp0.toNat - stackSize + 40 ≤ c.rsp.toNat) (hhigh : c.rsp.toNat ≤ x.core.frame.toNat)
    (hy : y = ⟨(E.calling k' k'.currentTask c).run switchToTask, x.created,
      Function.update x.last x.current x.core.context⟩) :
    UserInv y ∧ y.core.context = resumed (y.last y.current) ∧ (∃ es, Trace TaskStep x.tasks es y.tasks) ∧
      y.current = k'.currentTask := by
  have hframe := Core.toNat_frame h.stack
  have htick : TaskStep (k, x.created) (.tick (some k'.currentTask)) (k', x.created) := by
    have hstep := QueueStep.tick k x.created x.core.frame
    rw [hswitch] at hstep
    exact ⟨hstep, fun e => by cases e⟩
  have hq' : QueueInv k' x.created := htick.1.inv (he.queue h)
  have hplaced := h.placed _ hq'.current
  have hylast : y.last = Function.update x.last x.current x.core.context := by rw [hy]
  have hcreated : y.created = x.created := by rw [hy]
  have hall : ∀ q ∈ x.created, k'.context q = y.last q ∧ IfSet (y.last q).rflags := fun q hq =>
    hylast ▸ he.ticked h ht hq
  -- the code of switch_to_task
  obtain ⟨C, hC⟩ : ∃ C, C = E.calling k' k'.currentTask c := ⟨_, rfl⟩
  have hCmem : C.kernel.kmem = E.clobber k'.kmem c := by rw [hC, Core.calling_kmem]
  have hCrdi : C.regs .rdi = k'.currentTask := by rw [hC]; rfl
  have hCrsp : C.rsp = c.rsp := by rw [hC]; rfl
  have hstack : StackOnly x.core k'.kmem C.kernel.kmem := by
    rw [hCmem]
    exact he.clobber h
  have hCsame : SameTask k'.currentTask k'.kmem C.kernel.kmem := hstack.same hplaced
  obtain ⟨m, hrun, hout⟩ := Core.run_switchToTask (s := C) (by rw [hCrdi]; exact hplaced.fits)
    (by rw [hCrdi, hCrsp]; exact hplaced.stack hlow hhigh h.stack)
  rw [hCrdi, hCsame.context] at hrun
  rw [hCrsp] at hout
  have hvmap : C.kernel.get k'.currentTask .vmap = k'.get k'.currentTask .vmap := hCsame.read (by decide)
  rw [← hC, hrun, hvmap] at hy
  have hycur : y.current = k'.currentTask := by
    rw [hy]
    show C.kernel.currentTask = _
    rw [hC]
    rfl
  have hyctx : y.core.context = resumed (k'.context k'.currentTask) := by rw [hy]; rfl
  have hdone : UserInv y ∧ TaskStep (k', y.created) .other y.tasks := by
    refine userInv_of (x := x) (hcreated ▸ hq') (hcreated ▸ h.placed) h.stack ?_ ?_ hycur ?_ ?_
      (fun q hqm _ => hall q (hcreated ▸ hqm)) ?_
    · rw [hy]
      show C.tssRsp0 = _
      rw [hC]
      exact he.tss
    · have hmem : y.core.kernel.kmem = m := by rw [hy]; rfl
      rw [hmem]
      refine hstack.trans fun a ha => hout a ?_
      omega
    · have : y.core.rflags = (k'.context k'.currentTask).rflags ||| FLAG_IF := congrArg Context.rflags hyctx
      rw [this]
      exact ifSet_or
    · rw [hy]
      rfl
    · rw [hy]
      show C.kernel.tidNext = _
      rw [hC]
      rfl
  refine ⟨hdone.1, ?_, ⟨_, ((he.trace h).snoc htick).snoc (hcreated ▸ hdone.2)⟩, hycur⟩
  rw [hyctx, hycur, (hall _ hq'.current).1]

omit [FrameSource σ] in
theorem newTask_eq (he : Entered x E k) : newTask k = newTask x.core.kernel := by
  rw [newTask, he.heap, newTask]

theorem forked (he : Entered x E k) (h : UserInv x) (hf : Forked k x.core.frame x.created k')
    (hfresh : ∀ q ∈ x.created, Apart (newTask x.core.kernel) q) (hplaced : Placed x.core (newTask x.core.kernel))
    (hq : q ∈ newTask x.core.kernel :: x.created) (hne : q ≠ x.current) :
    k'.context q = Function.update x.last (newTask x.core.kernel) (childContext x.core.context) q ∧
      IfSet (Function.update x.last (newTask x.core.kernel) (childContext x.core.context) q).rflags := by
  rcases List.mem_cons.mp hq with rfl | hq
  · have hchild := hf.child (he.newTask_eq ▸ hplaced.frame h.stack)
    rw [he.newTask_eq, he.context] at hchild
    rw [Function.update_self]
    exact ⟨hchild, h.ifSet⟩
  · rw [Function.update_of_ne (hfresh q hq).ne.symm, hf.contexts q hq]
    exact he.saved h hq hne

/-- The stub returns 2 to the parent. -/
theorem fork (he : Entered x E k) (h : UserInv x) (hf : Forked k x.core.frame x.created k')
    (hforked : TaskStep (k, x.created) .fork (k', newTask x.core.kernel :: x.created))
    (hfresh : ∀ q ∈ x.created, Apart (newTask x.core.kernel) q) (hplaced : Placed x.core (newTask x.core.kernel))
    (hcontext : k'.frameContext x.core.frame = x.core.context)
    (hy : y = ⟨((E.returned k' c).setReg .rax 2).run isrSyscallTail, newTask x.core.kernel :: x.created,
      Function.update x.last (newTask x.core.kernel) (childContext x.core.context)⟩) :
    UserInv y ∧ y.core.context = { x.core.context with regs := Function.update x.core.context.regs .rax 2 } ∧
      (∃ es, Trace TaskStep x.tasks es y.tasks) ∧ StackOnly x.core k'.kmem y.core.kernel.kmem := by
  have hq' : QueueInv k' (newTask x.core.kernel :: x.created) := hforked.1.inv (he.queue h)
  have hcur : k'.currentTask = x.current := hf.current.trans he.current
  obtain ⟨m, hrun, hout⟩ := Core.returned_syscallTail (s := E) (k := k') (c := c) 2 (he.room h)
  rw [hrun, he.rsp, hcontext] at hy
  have hycur : y.current = k'.currentTask := by rw [hy]; rfl
  have hylast : y.last = Function.update x.last (newTask x.core.kernel) (childContext x.core.context) := by rw [hy]
  have hcreated : y.created = newTask x.core.kernel :: x.created := by rw [hy]
  have hyctx : y.core.context = { x.core.context with regs := Function.update x.core.context.regs .rax 2 } := by
    rw [hy]
    rfl
  have hmem : StackOnly x.core k'.kmem y.core.kernel.kmem := by
    have hm : y.core.kernel.kmem = m := by rw [hy]; rfl
    have hstack : StackOnly x.core k'.kmem (E.clobber k'.kmem c) := he.clobber h
    have hframe := Core.toNat_frame h.stack
    rw [hm]
    refine hstack.trans fun a ha => ?_
    rw [hout a (by
      rw [he.rsp]
      have := h.stack
      unfold stackSize at this ha
      omega), Core.returned_kmem]
  have hdone : UserInv y ∧ TaskStep (k', y.created) .other y.tasks := by
    refine userInv_of (x := x) (hcreated ▸ hq') (fun q hqm => ?_) h.stack (by rw [hy]; exact he.tss) hmem hycur ?_ ?_
      (fun q hqm hne => ?_) (by rw [hy]; rfl)
    · rw [hcreated] at hqm
      rcases List.mem_cons.mp hqm with rfl | hqm
      · exact hplaced
      · exact h.placed q hqm
    · have : y.core.rflags = x.core.rflags := congrArg Context.rflags hyctx
      exact this ▸ h.ifSet
    · have hycr3 : y.core.kernel.machine.cr3 = k'.machine.cr3 := by rw [hy]; rfl
      have hvmap : k'.get k'.currentTask .vmap = x.core.kernel.get x.current .vmap := by
        rw [hcur]
        exact (hf.vmaps _ h.queue.current).trans (he.vmap h)
      rw [hycr3, syscallFork_cr3 hf, he.machine, h.cr3, hvmap]
    · rw [hylast]
      exact he.forked h hf hfresh hplaced (hcreated ▸ hqm) (hcur ▸ hne)
  exact ⟨hdone.1, hyctx, ⟨_, ((he.trace h).snoc hforked).snoc (hcreated ▸ hdone.2)⟩, hmem⟩

theorem isr128_fork (he : Entered x E k) (hid : ((x.core.regs .rax).setWidth 8).toNat = SYSCALL_FORK) :
    isr128 k x.core.frame = some (syscallFork k x.core.frame) := by
  have hrax : k.frameGet x.core.frame (.gprs .rax) = x.core.regs .rax :=
    congrFun (congrArg Context.regs he.context) .rax
  unfold isr128
  simp only
  rw [hrax, hid, if_pos (by decide), if_neg (by decide), if_pos rfl]

end Entered

def elapsedAt (x : UserState σ η) (counter : U64) : U64 :=
  x.core.kernel.timerElapsedUs + ((counter - x.core.kernel.prevTime).setWidth 32).signExtend 64

structure AfterTick (x : UserState σ η) (counter : U64) (y : UserState σ η) : Prop where
  inv : UserInv y
  context : y.core.context = resumed (y.last y.current)
  tasks : ∃ es, Trace TaskStep x.tasks es y.tasks
  late : elapsedAt x counter > x.core.kernel.get x.current .deadline → y.current = x.core.kernel.nextTask x.current

theorem UserInv.tick {x : UserState σ η} (h : UserInv x) (counter : U64) (c : Leftover)
    (hlow : x.core.tssRsp0.toNat - stackSize + 40 ≤ c.rsp.toNat) (hhigh : c.rsp.toNat ≤ x.core.frame.toNat)
    {y : UserState σ η}
    (hy : y = ⟨x.core.hpet counter c, x.created, Function.update x.last x.current x.core.context⟩) :
    AfterTick x counter y := by
  obtain ⟨hentered, hrdi⟩ := h.entered
  have hclock : (x.core.enter.run isrHead).kernel.timerElapsedUs = x.core.kernel.timerElapsedUs ∧
      (x.core.enter.run isrHead).kernel.prevTime = x.core.kernel.prevTime := by
    obtain ⟨m, fl, hE, -⟩ := Core.enter_head h.stack
    rw [hE]
    exact ⟨rfl, rfl⟩
  obtain ⟨E, hE⟩ : ∃ E, E = x.core.enter.run isrHead := ⟨_, rfl⟩
  rw [← hE] at hentered hrdi hclock
  -- the clock comes first
  obtain ⟨k, hk⟩ : ∃ k : Kernel σ η, k = { E.kernel with
    prevTime := counter
    timerElapsedUs := elapsedAt x counter } := ⟨_, rfl⟩
  have he : Entered x E k := by
    obtain ⟨hrsp, htss, hcurrent, htid, hheap, hmachine, hcontext, hmemory⟩ := hentered
    rw [hk]
    exact ⟨hrsp, htss, hcurrent, htid, hheap, hmachine, hcontext, hmemory⟩
  have hsched : isr34 (x.core.enter.run isrHead).kernel ((x.core.enter.run isrHead).regs .rdi) counter =
      schedTick k x.core.frame := by
    rw [← hE, hrdi, hk, elapsedAt, ← hclock.1, ← hclock.2]
    rfl
  have hq := he.queue h
  have hcurrent := he.same h h.queue.current
  rcases schedTick_spec x.core.frame hq.apart hq.current (hq.next_mem hq.current) with hidle | ⟨k', hk', ht⟩
  · rw [Core.hpet_idle (hsched.trans hidle), ← hE] at hy
    obtain ⟨hinv, hcontext, htasks⟩ := he.idle h hidle hy
    refine ⟨hinv, hcontext, htasks, fun hlate => ?_⟩
    have hdeadline : k.get k.currentTask .deadline = x.core.kernel.get x.current .deadline := by
      rw [he.current]
      exact hcurrent.read (by decide)
    have htime : timerReadCounter k > k.get k.currentTask .deadline := by
      rw [hdeadline, timerReadCounter, hk]
      exact hlate
    unfold schedTick at hidle
    rw [if_pos htime] at hidle
    cases congrArg Prod.snd hidle
  · rw [Core.hpet_switch (hsched.trans hk'), ← hE] at hy
    obtain ⟨hinv, hcontext, htasks, hcur⟩ := he.switch h hk' ht hlow hhigh hy
    refine ⟨hinv, hcontext, htasks, fun _ => ?_⟩
    rw [hcur, ht.current, he.current]
    exact hcurrent.read (by decide)

theorem UserInv.syscall_fork {x : UserState σ η} (h : UserInv x) (c : Leftover)
    (hid : ((x.core.regs .rax).setWidth 8).toNat = SYSCALL_FORK) {E : Core σ η} (hE : E = x.core.enter.run isrHead) :
    x.core.syscall c = some (((E.returned (syscallFork E.kernel x.core.frame).1 c).setReg .rax
      (syscallFork E.kernel x.core.frame).2).run isrSyscallTail) := by
  subst hE
  obtain ⟨he, hrdi⟩ := h.entered
  unfold Core.syscall
  simp only
  rw [hrdi, he.isr128_fork hid]

theorem UserInv.syscall_some {x : UserState σ η} (h : UserInv x) (c : Leftover)
    (hid : ((x.core.regs .rax).setWidth 8).toNat = SYSCALL_FORK) : ∃ core, x.core.syscall c = some core :=
  ⟨_, h.syscall_fork c hid rfl⟩

/-- What a fork leads to: it returns to the parent, with the child behind it. -/
structure AfterFork (x y : UserState σ η) : Prop where
  inv : UserInv y
  current : y.current = x.current
  context : y.core.context = { x.core.context with regs := Function.update x.core.context.regs .rax 2 }
  tasks : ∃ es, Trace TaskStep x.tasks es y.tasks
  stack : y.core.tssRsp0 = x.core.tssRsp0
  next : y.core.kernel.nextTask x.current = newTask x.core.kernel
  deadline : y.core.kernel.get x.current .deadline = x.core.kernel.get x.current .deadline
  elapsed : y.core.kernel.timerElapsedUs = x.core.kernel.timerElapsedUs

theorem UserInv.fork {x : UserState σ η} (h : UserInv x) {c : Leftover} {core : Core σ η}
    (hid : ((x.core.regs .rax).setWidth 8).toNat = SYSCALL_FORK)
    (hfresh : ∀ q ∈ x.created, Apart (newTask x.core.kernel) q)
    (hplaced : Placed x.core (newTask x.core.kernel)) (hcall : x.core.syscall c = some core)
    {y : UserState σ η} (hy : y = ⟨core, newTask x.core.kernel :: x.created,
      Function.update x.last (newTask x.core.kernel) (childContext x.core.context)⟩) : AfterFork x y := by
  obtain ⟨he, -⟩ := h.entered
  obtain ⟨E, hE⟩ : ∃ E, E = x.core.enter.run isrHead := ⟨_, rfl⟩
  obtain ⟨k', hk'⟩ : ∃ k', k' = (syscallFork E.kernel x.core.frame).1 := ⟨_, rfl⟩
  rw [← hE] at he
  have hq := he.queue h
  have hfreshk : ∀ q ∈ x.created, Apart (newTask E.kernel) q := he.newTask_eq.symm ▸ hfresh
  obtain ⟨hresult, hf⟩ := syscallFork_spec x.core.frame hq.apart hq.current hfreshk
  rw [← hk'] at hf
  have hforked : TaskStep (E.kernel, x.created) .fork (k', newTask x.core.kernel :: x.created) := by
    have hstep := QueueStep.fork E.kernel x.created x.core.frame hfreshk
    rw [he.newTask_eq, ← hk'] at hstep
    exact ⟨hstep, fun e => by cases e⟩
  have hcontext : k'.frameContext x.core.frame = x.core.context := by
    have hold := hf.frame (he.newTask_eq ▸ hplaced.frame h.stack)
      (he.current ▸ (h.placed _ h.queue.current).frame h.stack)
    rw [← he.context]
    exact Context.ext (funext fun _ => hold _) (hold _) (hold _) (hold _)
  rw [h.syscall_fork c hid hE, hresult, ← hk', Option.some.injEq] at hcall
  rw [← hcall] at hy
  obtain ⟨hinv, hyctx, htasks, hmem⟩ := he.fork h hf hforked hfresh hplaced hcontext hy
  -- the links of the current task
  have hparent : SameTask x.current k'.kmem y.core.kernel.kmem := hmem.same (h.placed _ h.queue.current)
  refine ⟨hinv, ?_, hyctx, htasks, by rw [hy]; exact he.tss, ?_, ?_, ?_⟩
  · have hycur : y.current = k'.currentTask := by rw [hy]; rfl
    exact hycur.trans (hf.current.trans he.current)
  · rw [← he.newTask_eq, ← hf.parentLink, he.current]
    exact hparent.read (by decide)
  · refine (hparent.read (by decide)).trans ((hf.deadlines _ h.queue.current).trans ?_)
    exact (he.same h h.queue.current).read (by decide)
  · have hE' : E.kernel.timerElapsedUs = x.core.kernel.timerElapsedUs := by
      obtain ⟨m, fl, hhead, -⟩ := Core.enter_head h.stack
      rw [hE, hhead]
      rfl
    rw [← hE', ← hf.elapsed, hy]
    rfl

theorem UserStep.inv {x y : UserState σ η} {e : UserEvent} (h : UserInv x) (hstep : UserStep x e y) :
    UserInv y := by
  cases hstep with
  | run c mem hif =>
    refine (userInv_of (k := x.core.kernel) (x := x) (y := { x with core := runUser x.core c mem }) h.queue
      h.placed h.stack rfl (fun _ _ => rfl) rfl ?_ h.cr3 h.saved rfl).1
    have hset : c.rflags &&& FLAG_IF = FLAG_IF := hif.trans h.ifSet
    exact hset
  | tick counter c hlow hhigh => exact (h.tick counter c hlow hhigh rfl).inv
  | fork c core hid hfresh hplaced hcall => exact (h.fork hid hfresh hplaced hcall rfl).inv

theorem UserStep.tasks {x y : UserState σ η} {e : UserEvent} (h : UserInv x) (hstep : UserStep x e y) :
    ∃ es, Trace TaskStep x.tasks es y.tasks := by
  cases hstep with
  | run c mem hif => exact ⟨_, .single ⟨.other _ _ _ rfl fun _ _ => .refl _ _, fun _ => rfl⟩⟩
  | tick counter c hlow hhigh => exact (h.tick counter c hlow hhigh rfl).tasks
  | fork c core hid hfresh hplaced hcall => exact (h.fork hid hfresh hplaced hcall rfl).tasks

theorem UserInv.run {x y : UserState σ η} {es : List UserEvent} (h : UserInv x)
    (hrun : Trace UserStep x es y) : UserInv y :=
  hrun.preserved UserInv (fun _ _ _ hx hstep => hstep.inv hx) h

/-- `_start` ends in `sched_run(task_1)`; `s` is the processor when that calls
`switch_to_task`. -/
def booted (s : Core σ η) (task₁ : U64) : UserState σ η :=
  ⟨s.run switchToTask, [task₁], fun _ => s.kernel.context task₁⟩

structure Booting (s : Core σ η) (k₀ : Kernel σ η) (task₁ : U64) : Prop where
  kernel : s.kernel = (schedRun k₀ task₁).1
  rdi : s.regs .rdi = task₁
  linked : k₀.nextTask task₁ = task₁
  placed : Placed s task₁
  stack : stackSize ≤ s.tssRsp0.toNat
  rsp : Core.StackApart s.rsp task₁

theorem userInv_booted {k₀ : Kernel σ η} {task₁ : U64} (h : Booting s k₀ task₁) :
    UserInv (booted s task₁) ∧ TaskStep (s.kernel, [task₁]) .other (booted s task₁).tasks := by
  obtain ⟨m', hrun, hout⟩ := Core.run_switchToTask (s := s) (h.rdi ▸ h.placed.fits) (h.rdi ▸ h.rsp)
  rw [h.rdi] at hrun
  have hcur : s.kernel.currentTask = task₁ := by rw [h.kernel]; rfl
  have hq : QueueInv s.kernel [task₁] := h.kernel ▸ queueInv_start k₀ h.linked
  have hsame : SameTask task₁ s.kernel.kmem m' := by
    intro a ha ha'
    apply hout
    have := h.rsp.2
    omega
  obtain ⟨y, hy⟩ : ∃ y, y = booted s task₁ := ⟨_, rfl⟩
  have hcore : y.core = s.run switchToTask := by rw [hy]; rfl
  rw [hrun] at hcore
  have hkernel : y.core.kernel.currentTask = s.kernel.currentTask ∧ y.core.kernel.kmem = m' := by
    rw [hcore]
    exact ⟨rfl, rfl⟩
  have hcreated : y.created = [task₁] := by rw [hy]; rfl
  have hstep : QueueStep (s.kernel, [task₁]) .other (y.core.kernel, [task₁]) := by
    refine .other _ y.core.kernel _ hkernel.1 fun q hq => ?_
    rw [List.mem_singleton.mp hq, hkernel.2]
    exact hsame
  have htasks : TaskStep (s.kernel, [task₁]) .other y.tasks := by
    rw [UserState.tasks, hcreated]
    exact ⟨hstep, fun _ => by rw [hcore]; rfl⟩
  rw [← hy]
  refine ⟨⟨?_, fun p hp => ?_, ?_, ?_, ?_, fun q hq hne => ?_⟩, htasks⟩
  · rw [hcreated]
    exact hstep.inv hq
  · rw [hcreated] at hp
    rw [List.mem_singleton.mp hp]
    refine ⟨h.placed.fits, ?_⟩
    rw [hcore]
    exact h.placed.apart
  · rw [hcore]
    exact h.stack
  · rw [hcore]
    exact ifSet_or
  · have hvmap : y.core.kernel.get y.current .vmap = s.kernel.get task₁ .vmap := by
      rw [UserState.current, hkernel.1, hcur, Kernel.get, hkernel.2]
      exact hsame.read (by decide)
    rw [hvmap, hcore]
    rfl
  · rw [hcreated] at hq
    rw [UserState.current, hkernel.1, hcur] at hne
    exact absurd (List.mem_singleton.mp hq) hne

def StepWithout (p : U64) (x : UserState σ η) (e : UserEvent) (y : UserState σ η) : Prop :=
  UserStep x e y ∧ x.current ≠ p

theorem StepWithout.last {x y : UserState σ η} {e : UserEvent} (hp : p ∈ x.created)
    (hstep : StepWithout p x e y) : p ∈ y.created ∧ y.last p = x.last p := by
  obtain ⟨hstep, hne⟩ := hstep
  cases hstep with
  | run c mem hif => exact ⟨hp, rfl⟩
  | tick counter c hlow hhigh => exact ⟨hp, Function.update_of_ne hne.symm _ _⟩
  | fork c core hid hfresh hplaced hcall =>
    exact ⟨List.mem_cons_of_mem _ hp, Function.update_of_ne (hfresh p hp).ne.symm _ _⟩

/-- After a tick a task goes on as it was interrupted last, in its own address
space; a fork gives the parent everything but `rax` back, and the child, when
it runs first, the parent's registers with 0 in `rax`. -/
theorem context_preserved {k₀ : Kernel σ η} {task₁ : U64} {events : List UserEvent} {x : UserState σ η}
    (hboot : Booting s k₀ task₁) (hrun : Trace UserStep (booted s task₁) events x) :
    (∀ y, UserStep x .tick y →
      y.core.context = resumed (y.last y.current) ∧
      y.core.kernel.machine.cr3 = y.core.kernel.get y.current .vmap - VADDR_HIGHER) ∧
    (∀ y, UserStep x .fork y →
      y.current = x.current ∧
      y.core.context = { x.core.context with regs := Function.update x.core.context.regs .rax 2 } ∧
      ∃ child, y.created = child :: x.created ∧ child ∉ x.created ∧
        ∀ es z w, Trace (StepWithout child) y es z → StepWithout child z .tick w → w.current = child →
          w.core.context = childContext x.core.context) := by
  have h : UserInv x := (userInv_booted hboot).1.run hrun
  refine ⟨fun y hy => ?_, fun y hy => ?_⟩
  · cases hy with
    | tick counter c hlow hhigh =>
      have htick := h.tick counter c hlow hhigh rfl
      exact ⟨htick.context, htick.inv.cr3⟩
  · cases hy with
    | fork c core hid hfresh hplaced hcall =>
      have hfork := h.fork hid hfresh hplaced hcall rfl
      refine ⟨hfork.current, hfork.context, newTask x.core.kernel, rfl, fun hmem => (hfresh _ hmem).ne rfl, ?_⟩
      rintro es z w htrace hlast hw
      obtain ⟨y, hy⟩ : ∃ y : UserState σ η, y = ⟨core, newTask x.core.kernel :: x.created,
        Function.update x.last (newTask x.core.kernel) (childContext x.core.context)⟩ := ⟨_, rfl⟩
      rw [← hy] at htrace
      obtain ⟨hz, hmem, hrec⟩ := htrace.preserved
        (fun a => UserInv a ∧ newTask x.core.kernel ∈ a.created ∧
          a.last (newTask x.core.kernel) = childContext x.core.context)
        (fun a e b ha hab =>
          have hkeep := hab.last ha.2.1
          ⟨hab.1.inv ha.1, hkeep.1, hkeep.2.trans ha.2.2⟩)
        ⟨(h.fork hid hfresh hplaced hcall hy).inv, hy ▸ List.mem_cons_self, hy ▸ Function.update_self ..⟩
      have hrec' := (hlast.last hmem).2.trans hrec
      obtain ⟨hlast, -⟩ := hlast
      cases hlast with
      | tick counter c hlow hhigh =>
        rw [(hz.tick counter c hlow hhigh rfl).context, hw, hrec']
        exact resumed_of_ifSet (c := childContext x.core.context) h.ifSet

def oneCore : Core Bump BumpHeap where
  regs := Function.update (fun _ => 0) .rdi 0x1000
  rsp := 0x9000
  rip := 0
  rflags := 0
  cs := KERNEL_CODE
  ss := 0
  tssRsp0 := 0x9000
  kernel := (schedRun oneTask 0x1000).1

theorem booting_small : Booting oneCore oneTask 0x1000 where
  kernel := rfl
  rdi := rfl
  linked := Mem.read64_write64
  placed := ⟨by unfold Core.Fits; decide, .inl (by decide)⟩
  stack := by decide
  rsp := ⟨by decide, .inl (by decide)⟩

structure CallsFork (x : UserState Bump BumpHeap) : Prop where
  run : Trace UserStep (booted oneCore 0x1000) [.run] x
  number : ((x.core.regs .rax).setWidth 8).toNat = SYSCALL_FORK
  stack : x.core.tssRsp0 = 0x9000
  current : x.current = 0x1000
  created : x.created = [0x1000]
  child : newTask x.core.kernel = 0x2000
  elapsed : x.core.kernel.timerElapsedUs = 0
  deadline : x.core.kernel.get 0x1000 .deadline = 1000000

theorem callsFork_small : ∃ x, CallsFork x := by
  obtain ⟨-, hother, -⟩ := userInv_booted booting_small
  have hdeadline : (booted oneCore 0x1000).core.kernel.get 0x1000 .deadline = 1000000 := by
    cases hother with
    | other _ _ _ _ hsame => exact ((hsame 0x1000 List.mem_cons_self).read (by decide)).trans Kernel.get_set_same
  exact ⟨_, .single (.run _ { (booted oneCore 0x1000).core.context with regs := fun _ => 57 } (fun _ => 0) rfl),
    rfl, rfl, rfl, rfl, rfl, rfl, hdeadline⟩

/-- The only task forks, and the next tick is late: the child runs. -/
theorem context_preserved_small : ∃ x y z : UserState Bump BumpHeap,
    Trace UserStep (booted oneCore 0x1000) [.run] x ∧ UserStep x .fork y ∧ UserStep y .tick z ∧
      y.current = 0x1000 ∧ z.current = 0x2000 ∧ z.core.context = childContext x.core.context := by
  obtain ⟨x, hx⟩ := callsFork_small
  have hinv : UserInv x := (userInv_booted booting_small).1.run hx.run
  have hfresh : ∀ q ∈ x.created, Apart (newTask x.core.kernel) q := by
    intro q hq
    rw [hx.created, List.mem_singleton] at hq
    rw [hq, hx.child]
    exact .inr (by decide)
  have hplaced : Placed x.core (newTask x.core.kernel) := by
    rw [hx.child]
    refine ⟨by unfold Core.Fits; decide, .inl ?_⟩
    rw [hx.stack]
    decide
  obtain ⟨c, hc⟩ : ∃ c : Leftover, c = ⟨fun _ => 0, 0x8100, 0, fun _ => 0⟩ := ⟨_, rfl⟩
  obtain ⟨core, hcall⟩ := hinv.syscall_some c hx.number
  obtain ⟨y, hydef⟩ : ∃ y : UserState Bump BumpHeap, y = ⟨core, newTask x.core.kernel :: x.created,
    Function.update x.last (newTask x.core.kernel) (childContext x.core.context)⟩ := ⟨_, rfl⟩
  have hy : UserStep x .fork y := hydef ▸ .fork x c core hx.number hfresh hplaced hcall
  have hfork := hinv.fork hx.number hfresh hplaced hcall hydef
  have hycurrent : y.current = 0x1000 := hfork.current.trans hx.current
  -- two seconds later the parent is interrupted
  have hlow : y.core.tssRsp0.toNat - stackSize + 40 ≤ c.rsp.toNat := by
    rw [hfork.stack, hx.stack, hc]
    decide
  have hhigh : c.rsp.toNat ≤ y.core.frame.toNat := by
    rw [Core.frame, hfork.stack, hx.stack, hc]
    decide
  obtain ⟨counter, hcounter⟩ : ∃ counter, counter = y.core.kernel.prevTime + 2000000 := ⟨_, rfl⟩
  obtain ⟨z, hzdef⟩ : ∃ z : UserState Bump BumpHeap,
    z = ⟨y.core.hpet counter c, y.created, Function.update y.last y.current y.core.context⟩ := ⟨_, rfl⟩
  have hz : UserStep y .tick z := hzdef ▸ .tick y counter c hlow hhigh
  have hlate : elapsedAt y counter > y.core.kernel.get y.current .deadline := by
    rw [hfork.current, hfork.deadline, hx.current, hx.deadline, elapsedAt, hcounter, hfork.elapsed, hx.elapsed,
      BitVec.add_comm y.core.kernel.prevTime, BitVec.add_sub_cancel]
    decide
  have hzcurrent : z.current = 0x2000 := by
    rw [(hfork.inv.tick counter c hlow hhigh hzdef).late hlate, hfork.current, hfork.next, hx.child]
  obtain ⟨-, -, child, hchild, -, hfirst⟩ := (context_preserved booting_small hx.run).2 y hy
  obtain rfl : child = 0x2000 := by
    rw [hydef, hx.child] at hchild
    exact (List.cons.inj hchild).1.symm
  have hne : y.current ≠ 0x2000 := by
    rw [hycurrent]
    decide
  exact ⟨x, y, z, hx.run, hy, hz, hycurrent, hzcurrent, hfirst [] y z .nil ⟨hz, hne⟩ hzcurrent⟩

end ShedOS.Task
