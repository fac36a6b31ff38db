import ShedOS.Lib.Ring
import ShedOS.Lib.Transition
import ShedOS.Memory.PagingRuns
import ShedOS.Syscall.Fork

/-!
# The run queue

The `next_task` pointers close all tasks into one ring, whatever the order of
forks and ticks. Switching moves the head of the ring, and a fork puts the new
task behind the head.
-/

namespace ShedOS.Task

open Bytes Layout Memory Syscall Transition Ring

variable {σ η : Type} {k k' : Kernel σ η} {p q : U64} {created : List U64}

def Kernel.nextTask (k : Kernel σ η) (p : U64) : U64 := k.get p .nextTask

-- ---------------------------------------------------------------------------
-- The ring
-- ---------------------------------------------------------------------------

structure QueueInv (k : Kernel σ η) (created : List U64) : Prop where
  apart : AllApart created
  ring : ∃ l, IsRing k.nextTask k.currentTask l ∧ (k.currentTask :: l).Perm created

theorem QueueInv.current (h : QueueInv k created) : k.currentTask ∈ created := by
  obtain ⟨l, -, hperm⟩ := h.ring
  exact hperm.mem_iff.mp List.mem_cons_self

theorem QueueInv.next_mem (h : QueueInv k created) (hq : q ∈ created) : k.nextTask q ∈ created := by
  obtain ⟨l, hring, hperm⟩ := h.ring
  exact hperm.mem_iff.mp (hring.next_mem (hperm.mem_iff.mpr hq))

theorem QueueInv.nodup (h : QueueInv k created) : created.Nodup := by
  obtain ⟨l, hring, hperm⟩ := h.ring
  exact hperm.nodup_iff.mp hring.nodup

theorem queueInv_start (k₀ : Kernel σ η) {task₁ : U64} (hself : k₀.nextTask task₁ = task₁) :
    QueueInv (schedRun k₀ task₁).1 [task₁] := by
  refine ⟨fun p hp q hq hne => ?_, [], .singleton ?_, .refl _⟩
  · rw [List.mem_singleton.mp hp, List.mem_singleton.mp hq] at hne
    contradiction
  · exact (Kernel.get_set_ne (by decide) (by decide) (by decide)).trans hself

-- ---------------------------------------------------------------------------
-- Runs
-- ---------------------------------------------------------------------------

variable [FrameSource σ] [HeapSource η]

inductive QueueEvent where
  | fork
  | tick (switchedTo : Option U64)
  | other
  deriving DecidableEq, Repr

/-- Forks of the current task, ticks, and between them anything that leaves the
task structures and `current_task` alone: time passes, frames are built on the
stack. `created` are the tasks so far. -/
inductive QueueStep : Kernel σ η × List U64 → QueueEvent → Kernel σ η × List U64 → Prop
  | fork (k : Kernel σ η) (created : List U64) (frame : U64) (hfresh : ∀ q ∈ created, Apart (newTask k) q) :
    QueueStep (k, created) .fork ((syscallFork k frame).1, newTask k :: created)
  | tick (k : Kernel σ η) (created : List U64) (ifr : U64) :
    QueueStep (k, created) (.tick (schedTick k ifr).2) ((schedTick k ifr).1, created)
  | other (k k' : Kernel σ η) (created : List U64) (hcurrent : k'.currentTask = k.currentTask)
      (hsame : ∀ q ∈ created, SameTask q k.kmem k'.kmem) :
    QueueStep (k, created) .other (k', created)

def switches (es : List QueueEvent) : List U64 :=
  es.filterMap fun
    | .tick t => t
    | _ => none

theorem QueueStep.move {x y : Kernel σ η × List U64} {e : QueueEvent} (hstep : QueueStep x e y)
    (h : QueueInv x.1 x.2) (he : e ≠ .fork) :
    y.2 = x.2 ∧ (∀ q ∈ x.2, y.1.nextTask q = x.1.nextTask q) ∧
      ((switches [e] = [] ∧ y.1.currentTask = x.1.currentTask) ∨
        switches [e] = [x.1.nextTask x.1.currentTask] ∧ y.1.currentTask = x.1.nextTask x.1.currentTask) := by
  cases hstep with
  | fork k created frame hfresh => contradiction
  | tick k created ifr =>
    rcases schedTick_spec ifr h.apart h.current (h.next_mem h.current) with hidle | ⟨k', hk', ht⟩
    · rw [hidle]
      exact ⟨rfl, fun _ _ => rfl, .inl ⟨rfl, rfl⟩⟩
    · rw [hk']
      refine ⟨rfl, ht.links, .inr ⟨?_, ht.current⟩⟩
      show [k'.currentTask] = _
      rw [ht.current]
      rfl
  | other k k' created hcurrent hsame =>
    exact ⟨rfl, fun q hq => (hsame q hq).read (by decide), .inl ⟨rfl, hcurrent⟩⟩

theorem QueueInv.fork (h : QueueInv k created) (frame : U64)
    (hfresh : ∀ q ∈ created, Apart (newTask k) q) :
    QueueInv (syscallFork k frame).1 (newTask k :: created) := by
  obtain ⟨-, hf⟩ := syscallFork_spec frame h.apart h.current hfresh
  obtain ⟨l, hring, hperm⟩ := h.ring
  refine ⟨h.apart.cons hfresh, newTask k :: l, ?_, ?_⟩
  · rw [hf.current]
    refine hring.insert (fun hmem => ?_) hf.parentLink hf.childLink fun q hq => ?_
    · exact (hfresh _ (hperm.mem_iff.mp hmem)).ne rfl
    · refine hf.links q (hperm.mem_iff.mp (List.mem_cons_of_mem _ hq)) ?_
      rintro rfl
      exact (List.nodup_cons.mp hring.nodup).1 hq
  · rw [hf.current]
    exact (List.Perm.swap _ _ _).trans (hperm.cons _)

theorem QueueStep.inv {x y : Kernel σ η × List U64} {e : QueueEvent} (h : QueueInv x.1 x.2)
    (hstep : QueueStep x e y) : QueueInv y.1 y.2 := by
  by_cases he : e = .fork
  · subst he
    cases hstep with
    | fork k created frame hfresh => exact h.fork frame hfresh
  · obtain ⟨hcreated, hlinks, hmove⟩ := hstep.move h he
    obtain ⟨l, hring, hperm⟩ := h.ring
    have hring' : IsRing y.1.nextTask x.1.currentTask l :=
      hring.congr fun q hq => hlinks q (hperm.mem_iff.mp hq)
    rw [← hlinks _ h.current] at hmove
    refine ⟨hcreated ▸ h.apart, ?_⟩
    rw [hcreated]
    rcases hmove with ⟨-, hcur⟩ | ⟨-, hcur⟩
    · rw [hcur]
      exact ⟨l, hring', hperm⟩
    · obtain ⟨l', hring'', hperm'⟩ := hring'.rotate
      rw [hcur]
      exact ⟨l', hring'', hperm'.trans hperm⟩

theorem QueueInv.run {x y : Kernel σ η × List U64} {es : List QueueEvent} (h : QueueInv x.1 x.2)
    (hrun : Trace QueueStep x es y) : QueueInv y.1 y.2 :=
  hrun.preserved (fun x => QueueInv x.1 x.2) (fun _ _ _ hx hstep => hstep.inv hx) h

-- ---------------------------------------------------------------------------
-- Stretches without forks
-- ---------------------------------------------------------------------------

theorem switches_follow {x y : Kernel σ η × List U64} {es : List QueueEvent} (h : QueueInv x.1 x.2)
    (hrun : Trace QueueStep x es y) (hes : .fork ∉ es) :
    y.2 = x.2 ∧ (∀ q ∈ x.2, y.1.nextTask q = x.1.nextTask q) ∧
      switches es = List.iterate x.1.nextTask (x.1.nextTask x.1.currentTask) (switches es).length ∧
      y.1.currentTask = x.1.nextTask^[(switches es).length] x.1.currentTask := by
  induction hrun with
  | nil => exact ⟨rfl, fun _ _ => rfl, rfl, rfl⟩
  | @snoc es e y z hrun hstep ih =>
    simp only [List.mem_append, List.mem_singleton, not_or] at hes
    obtain ⟨hcreated, hlinks, hswitch, hcur⟩ := ih hes.1
    have hy : QueueInv y.1 y.2 := h.run hrun
    obtain ⟨hcreated', hlinks', hmove⟩ := hstep.move hy (Ne.symm hes.2)
    rw [hcreated] at hcreated' hlinks'
    refine ⟨hcreated', fun q hq => (hlinks' q hq).trans (hlinks q hq), ?_⟩
    have happ : switches (es ++ [e]) = switches es ++ switches [e] := List.filterMap_append ..
    have hnext : y.1.nextTask y.1.currentTask = x.1.nextTask^[(switches es).length + 1] x.1.currentTask := by
      rw [hlinks _ (hcreated ▸ hy.current), hcur, Function.iterate_succ_apply']
    rw [happ]
    rcases hmove with ⟨hnone, hcur'⟩ | ⟨hone, hcur'⟩
    · rw [hnone, List.append_nil]
      exact ⟨hswitch, hcur'.trans hcur⟩
    · rw [hone, hcur', hnext]
      refine ⟨?_, by rw [List.length_append]; rfl⟩
      rw [List.length_append, List.length_singleton, List.iterate_add, ← hswitch]
      rfl

/-- The run queue is one ring of all tasks, and `N` switches without a fork in
between schedule each of `N` tasks once. -/
theorem run_queue_is_cycle {k₀ : Kernel σ η} {task₁ : U64} {events : List QueueEvent}
    (hself : k₀.nextTask task₁ = task₁)
    (hrun : Trace QueueStep ((schedRun k₀ task₁).1, [task₁]) events (k, created)) :
    created.Nodup ∧
    (List.iterate k.nextTask k.currentTask created.length).Perm created ∧
    k.nextTask^[created.length] k.currentTask = k.currentTask ∧
    ∀ es y, Trace QueueStep (k, created) es y → .fork ∉ es →
      (switches es).length = created.length → (switches es).Perm created := by
  have h : QueueInv k created := (queueInv_start k₀ hself).run hrun
  obtain ⟨l, hring, hperm⟩ := h.ring
  obtain ⟨hvisit, hreturn⟩ := hring.iterate hperm
  refine ⟨h.nodup, hvisit, hreturn, fun es y hes hfork hlen => ?_⟩
  obtain ⟨-, -, hswitch, -⟩ := switches_follow h hes hfork
  obtain ⟨l', hring', hperm'⟩ := hring.rotate
  rw [hswitch, hlen]
  exact (hring'.iterate (hperm'.trans hperm)).1

-- ---------------------------------------------------------------------------
-- A heap that hands out one address after the other
-- ---------------------------------------------------------------------------

structure BumpHeap where
  next : U64

instance : HeapSource BumpHeap where
  malloc h n := (h.next, ⟨h.next + n⟩)

def oneTask : Kernel Bump BumpHeap where
  machine := freshMachine
  kmem := Mem.write64 (fun _ => 0) (taskAddr 0x1000 .nextTask) 0x1000
  heap := ⟨0x2000⟩
  currentTask := 0
  tidNext := 0
  timerElapsedUs := 0
  prevTime := 0

theorem run_queue_is_cycle_small :
    let k := (syscallFork (schedRun oneTask 0x1000).1 0x8000).1
    (List.iterate k.nextTask k.currentTask 2).Perm [0x2000, 0x1000] := by
  have hself : oneTask.nextTask 0x1000 = 0x1000 := Mem.read64_write64
  have hfresh : ∀ q ∈ [(0x1000 : U64)], Apart (newTask (schedRun oneTask 0x1000).1) q := by
    rintro q hq
    rw [List.mem_singleton.mp hq]
    exact .inr (by decide)
  exact (run_queue_is_cycle hself (.single (.fork _ [0x1000] 0x8000 hfresh))).2.1

end ShedOS.Task
