import ShedOS.Interrupts.Interrupts
import ShedOS.Task.RunQueue

/-!
# The syscall table

`syscalls.c`, and which of its handlers `isr128` calls for what the task left
in `rax`. The handler's number is the low byte of `rax` only, and the table ends
with the entry of fork.
-/

namespace ShedOS.Syscall

open Bytes Memory Interrupts
open ShedOS.Task

variable {σ η : Type} [FrameSource σ] [HeapSource η] {k : Kernel σ η} {frame rax : U64} {i : Nat}

inductive Handler where
  | print
  | fork
  deriving DecidableEq, Repr

/-- The designated initialisers; every entry before the last one is there, and
NULL unless it is named. -/
def syscalls : List (Option Handler) :=
  ((List.replicate syscallsLength none).set SYSCALL_PRINT (some .print)).set SYSCALL_FORK (some .fork)

/-- What `isr128` finds in the table. -/
inductive Dispatch where
  | call (h : Handler)
  | invalid
  | outside
  deriving DecidableEq, Repr

def dispatch (rax : U64) : Dispatch :=
  let syscallId := (rax.setWidth 8).toNat
  match syscalls[syscallId]? with
  | some (some h) => .call h
  | some none => .invalid
  | none => .outside

def Handler.run (h : Handler) (k : Kernel σ η) (frame : U64) : Kernel σ η × U64 :=
  match h with
  | .print => (k, 0)
  | .fork => syscallFork k frame

omit [FrameSource σ] [HeapSource η] in
theorem syscalls_getElem? : syscalls[i]? =
    if i < syscallsLength then
      some (if i = SYSCALL_PRINT then some .print else if i = SYSCALL_FORK then some .fork else none)
    else none := by
  unfold syscalls
  rw [List.getElem?_set, List.getElem?_set, List.getElem?_replicate]
  simp only [List.length_set, List.length_replicate, eq_comm (b := i)]
  by_cases hlen : i < syscallsLength
  · rw [if_pos hlen]
    by_cases hfork : i = SYSCALL_FORK
    · subst hfork
      rfl
    · rw [if_neg hfork, if_neg hfork]
      by_cases hprint : i = SYSCALL_PRINT
      · subst hprint
        rfl
      · rw [if_neg hprint, if_neg hprint, if_pos hlen]
  · have hprint : i ≠ SYSCALL_PRINT := fun h => hlen (h ▸ by decide)
    have hfork : i ≠ SYSCALL_FORK := fun h => hlen (h ▸ by decide)
    rw [if_neg hfork, if_neg hprint, if_neg hlen, if_neg hlen]

theorem isr128_dispatch : isr128 k frame =
    match dispatch (k.frameGet frame (.gprs .rax)) with
    | .call h => some (h.run k frame)
    | .invalid => some (k, 1)
    | .outside => none := by
  unfold isr128 dispatch
  simp only
  rw [syscalls_getElem?]
  split
  · split
    · rfl
    · split <;> rfl
  · rfl

/-- The table holds exactly the two handlers under their numbers, and is read
nowhere else. -/
structure DispatchExact (k : Kernel σ η) (frame rax : U64) : Prop where
  print : dispatch rax = .call .print ↔ rax = BitVec.ofNat 64 SYSCALL_PRINT
  fork : dispatch rax = .call .fork ↔ rax = BitVec.ofNat 64 SYSCALL_FORK
  other : rax ≠ BitVec.ofNat 64 SYSCALL_PRINT → rax ≠ BitVec.ofNat 64 SYSCALL_FORK →
    dispatch rax = .invalid ∧ isr128 k frame = some (k, 1)
  inside : dispatch rax ≠ .outside ∧ isr128 k frame ≠ none

/-- Either `rax` is the number of a handler, or its low byte is that of an
empty entry. -/
def RaxFits (rax : U64) : Prop :=
  rax = BitVec.ofNat 64 SYSCALL_PRINT ∨ rax = BitVec.ofNat 64 SYSCALL_FORK ∨
    rax.toNat % 256 < syscallsLength ∧ rax.toNat % 256 ≠ SYSCALL_PRINT ∧ rax.toNat % 256 ≠ SYSCALL_FORK

instance : Decidable (RaxFits rax) := inferInstanceAs (Decidable (_ ∨ _ ∨ _))

section Table

omit [FrameSource σ] [HeapSource η]

theorem dispatch_eq : dispatch rax =
    if rax.toNat % 256 < syscallsLength then
      if rax.toNat % 256 = SYSCALL_PRINT then .call .print
      else if rax.toNat % 256 = SYSCALL_FORK then .call .fork else .invalid
    else .outside := by
  unfold dispatch
  simp only [BitVec.toNat_setWidth, Nat.reducePow]
  rw [syscalls_getElem?]
  by_cases hlen : rax.toNat % 256 < syscallsLength
  · rw [if_pos hlen, if_pos hlen]
    by_cases hprint : rax.toNat % 256 = SYSCALL_PRINT
    · rw [if_pos hprint, if_pos hprint]
    · rw [if_neg hprint, if_neg hprint]
      by_cases hfork : rax.toNat % 256 = SYSCALL_FORK
      · rw [if_pos hfork, if_pos hfork]
      · rw [if_neg hfork, if_neg hfork]
  · rw [if_neg hlen, if_neg hlen]

theorem dispatch_print : dispatch rax = .call .print ↔ rax.toNat % 256 = SYSCALL_PRINT := by
  rw [dispatch_eq]
  constructor
  · intro h
    split at h
    · split at h
      next hprint => exact hprint
      next => split at h <;> cases h
    · cases h
  · intro h
    rw [h]
    rfl

theorem dispatch_fork : dispatch rax = .call .fork ↔ rax.toNat % 256 = SYSCALL_FORK := by
  rw [dispatch_eq]
  constructor
  · intro h
    split at h
    · split at h
      next => cases h
      next =>
        split at h
        next hfork => exact hfork
        next => cases h
    · cases h
  · intro h
    rw [h]
    rfl

theorem dispatch_outside : dispatch rax = .outside ↔ syscallsLength ≤ rax.toNat % 256 := by
  rw [dispatch_eq]
  constructor
  · intro h
    split at h
    · split at h
      next => cases h
      next => split at h <;> cases h
    next hlen => exact Nat.le_of_not_lt hlen
  · intro h
    rw [if_neg (Nat.not_lt.mpr h)]

end Table

/-- Exactly for these values the number is taken for what it is. -/
theorem isr128_exact_iff : DispatchExact k frame (k.frameGet frame (.gprs .rax)) ↔
    RaxFits (k.frameGet frame (.gprs .rax)) := by
  have hrun : isr128 k frame = _ := isr128_dispatch
  obtain ⟨rax, hrax⟩ : ∃ rax, rax = k.frameGet frame (.gprs .rax) := ⟨_, rfl⟩
  rw [← hrax] at hrun ⊢
  constructor
  · intro h
    have hlen : rax.toNat % 256 < syscallsLength :=
      Nat.lt_of_not_le fun hle => h.inside.1 (dispatch_outside.mpr hle)
    by_cases hprint : rax.toNat % 256 = SYSCALL_PRINT
    · exact .inl (h.print.mp (dispatch_print.mpr hprint))
    · by_cases hfork : rax.toNat % 256 = SYSCALL_FORK
      · exact .inr (.inl (h.fork.mp (dispatch_fork.mpr hfork)))
      · exact .inr (.inr ⟨hlen, hprint, hfork⟩)
  · rintro (rfl | rfl | ⟨hlen, hprint, hfork⟩)
    · have hcall : dispatch (BitVec.ofNat 64 SYSCALL_PRINT) = .call .print := by decide
      refine ⟨by decide, by decide, fun h => absurd rfl h, by decide, ?_⟩
      rw [hrun, hcall]
      exact Option.some_ne_none _
    · have hcall : dispatch (BitVec.ofNat 64 SYSCALL_FORK) = .call .fork := by decide
      refine ⟨by decide, by decide, fun _ h => absurd rfl h, by decide, ?_⟩
      rw [hrun, hcall]
      exact Option.some_ne_none _
    · have hinvalid : dispatch rax = .invalid := by rw [dispatch_eq, if_pos hlen, if_neg hprint, if_neg hfork]
      have hisr : isr128 k frame = some (k, 1) := by rw [hrun, hinvalid]
      refine ⟨?_, ?_, fun _ _ => ⟨hinvalid, hisr⟩, by rw [hinvalid]; decide, by rw [hisr]; exact Option.some_ne_none _⟩
      · exact iff_of_false (by rw [hinvalid]; decide) fun h => hprint (h ▸ rfl)
      · exact iff_of_false (by rw [hinvalid]; decide) fun h => hfork (h ▸ rfl)

def withRax (rax : U64) : Kernel Bump BumpHeap :=
  { oneTask with kmem := Mem.write64 (fun _ => 0) (frameAddr 0x8000 (.gprs .rax)) rax }

omit [FrameSource σ] [HeapSource η] in
theorem withRax_rax : (withRax rax).frameGet 0x8000 (.gprs .rax) = rax := Mem.read64_write64

/-- 0x102 prints, and 58 is an entry that the table does not have. -/
theorem isr128_not_exact : dispatch 0x102 = .call .print ∧ isr128 (withRax 0x102) 0x8000 = some (withRax 0x102, 0) ∧
    dispatch 58 = .outside ∧ isr128 (withRax 58) 0x8000 = none ∧
    ¬DispatchExact (withRax 0x102) 0x8000 0x102 ∧ ¬DispatchExact (withRax 58) 0x8000 58 := by
  have hprint : dispatch 0x102 = .call .print := by decide
  have houtside : dispatch 58 = .outside := by decide
  refine ⟨hprint, ?_, houtside, ?_, fun h => absurd (h.print.mp hprint) (by decide), fun h => h.inside.1 houtside⟩
  · rw [isr128_dispatch, withRax_rax, hprint]
    rfl
  · rw [isr128_dispatch, withRax_rax, houtside]

end ShedOS.Syscall
