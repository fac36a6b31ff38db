import ShedOS.Task.Task

/-!
# The scheduler

`sched.c`, with the timer code that calls it. `switch_to_task` does not return,
so a call of it ends the function: `some task` is its argument.
-/

namespace ShedOS.Task

open Bytes Layout Memory

variable {σ η : Type} {k : Kernel σ η} {p q ifr : U64} {f : TaskField} {created : List U64}

def timerReadCounter (k : Kernel σ η) : U64 := k.timerElapsedUs

def schedRun (k : Kernel σ η) (initialTask : U64) : Kernel σ η × Option U64 :=
  let k := { k with currentTask := initialTask }
  let currentTime := timerReadCounter k
  let k := k.set k.currentTask .deadline (currentTime + 1000000)
  (k, some initialTask)

def takeNext (k : Kernel σ η) (currentTime : U64) : Kernel σ η :=
  let k := { k with currentTask := k.get k.currentTask .nextTask }
  k.set k.currentTask .deadline (currentTime + 1000000)

def schedTick (k : Kernel σ η) (ifr : U64) : Kernel σ η × Option U64 :=
  let currentTime := timerReadCounter k
  if currentTime > k.get k.currentTask .deadline then
    let k := takeNext (storeContext k k.currentTask ifr) currentTime
    (k, some k.currentTask)
  else (k, none)

def timerTick (k : Kernel σ η) (ifr : U64) (dus : BitVec 32) : Kernel σ η × Option U64 :=
  schedTick { k with timerElapsedUs := k.timerElapsedUs + dus.signExtend 64 } ifr

-- ---------------------------------------------------------------------------
-- What a tick does to the tasks
-- ---------------------------------------------------------------------------

structure Ticked (k : Kernel σ η) (ifr : U64) (created : List U64) (k' : Kernel σ η) : Prop where
  current : k'.currentTask = k.get k.currentTask .nextTask
  saved : FrameApart ifr k.currentTask → k'.context k.currentTask = k.frameContext ifr
  contexts : ∀ q ∈ created, q ≠ k.currentTask → k'.context q = k.context q
  links : ∀ q ∈ created, k'.get q .nextTask = k.get q .nextTask
  vmaps : ∀ q ∈ created, k'.get q .vmap = k.get q .vmap
  machine : k'.machine = k.machine
  heap : k'.heap = k.heap

theorem schedTick_spec (ifr : U64) (ha : AllApart created) (hc : k.currentTask ∈ created)
    (hn : k.get k.currentTask .nextTask ∈ created) :
    schedTick k ifr = (k, none) ∨
      ∃ k', schedTick k ifr = (k', some k'.currentTask) ∧ Ticked k ifr created k' := by
  by_cases htime : timerReadCounter k > k.get k.currentTask .deadline
  · refine .inr ⟨takeNext (storeContext k k.currentTask ifr) (timerReadCounter k), if_pos htime, ?_⟩
    obtain ⟨k₁, hk₁⟩ : ∃ k₁, k₁ = storeContext k k.currentTask ifr := ⟨_, rfl⟩
    have hcur : k₁.currentTask = k.currentTask := by rw [hk₁, storeContext_currentTask]
    have hlink : k₁.get k₁.currentTask .nextTask = k.get k.currentTask .nextTask := by
      rw [hcur, hk₁]
      exact storeContext_get (by simp) (.inl rfl)
    have hmachine : k₁.machine = k.machine ∧ k₁.heap = k.heap := hk₁ ▸ ⟨rfl, rfl⟩
    rw [← hk₁]
    -- the new deadline lies in the structure of the next task
    have hdeadline : ∀ {q}, q ∈ created → ∀ f, f ≠ .id → f ≠ .deadline →
        (takeNext k₁ (timerReadCounter k)).get q f = k₁.get q f := by
      intro q hq f hid hne
      refine (Kernel.get_set (ha.eq_or (hlink ▸ hn) hq) (by decide) hid).trans ?_
      rw [if_neg (fun e => hne e.2)]
      rfl
    have hcontext : ∀ {q}, q ∈ created →
        (takeNext k₁ (timerReadCounter k)).context q = k₁.context q := by
      intro q hq
      refine Context.ext (funext fun r => hdeadline hq _ (by simp) (by simp)) ?_ ?_ ?_
      all_goals exact hdeadline hq _ (by decide) (by decide)
    refine ⟨hlink, fun h => ?_, fun q hq hne => ?_, fun q hq => ?_, fun q hq => ?_, hmachine.1, hmachine.2⟩
    · rw [hcontext hc, hk₁]
      exact storeContext_context h
    · rw [hcontext hq, hk₁]
      exact (storeContext_outside.same (ha _ hc q hq hne.symm)).context
    · rw [hdeadline hq _ (by decide) (by decide), hk₁]
      exact storeContext_get (by simp) (ha.eq_or hc hq)
    · rw [hdeadline hq _ (by decide) (by decide), hk₁]
      exact storeContext_get (by simp) (ha.eq_or hc hq)
  · exact .inl (if_neg htime)

end ShedOS.Task
