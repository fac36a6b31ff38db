import ShedOS.Lib.Layout
import ShedOS.Memory.Paging

/-!
# Tasks

`struct task` and the frames that the interrupt stubs build, as packed
structures in the kernel's memory, and the state that the kernel's C code works
on. What stands behind `malloc` is a parameter: the chunk headers and page
mappings of the heap are its own affair.
-/

namespace ShedOS.Task

open Bytes Layout Memory

-- ---------------------------------------------------------------------------
-- Structures
-- ---------------------------------------------------------------------------

/-- The general registers, as `struct registers` orders them. -/
inductive Reg where
  | r15 | r14 | r13 | r12 | r11 | r10 | r9 | r8 | rbp | rdi | rsi | rdx | rcx | rbx | rax
  deriving DecidableEq, Repr

def structRegisters : Packed Reg :=
  [(.r15, 8), (.r14, 8), (.r13, 8), (.r12, 8), (.r11, 8), (.r10, 8), (.r9, 8), (.r8, 8), (.rbp, 8),
    (.rdi, 8), (.rsi, 8), (.rdx, 8), (.rcx, 8), (.rbx, 8), (.rax, 8)]

inductive TaskField where
  | regs (r : Reg) | rsp | rflags | rip | nextTask | vmap | deadline | id
  deriving DecidableEq, Repr

def structTask : Packed TaskField :=
  structRegisters.map (fun (r, n) => (.regs r, n)) ++
    [(.rsp, 8), (.rflags, 8), (.rip, 8), (.nextTask, 8), (.vmap, 8), (.deadline, 8), (.id, 1)]

inductive FrameField where
  | gprs (r : Reg) | rip | cs | rflags | rsp | ss
  deriving DecidableEq, Repr

def interruptFrame : Packed FrameField :=
  structRegisters.map (fun (r, n) => (.gprs r, n)) ++
    [(.rip, 8), (.cs, 8), (.rflags, 8), (.rsp, 8), (.ss, 8)]

theorem mem_structTask (f : TaskField) : f ∈ structTask.map Prod.fst := by
  cases f with
  | regs r => cases r <;> decide
  | _ => decide

theorem structTask_size : structTask.size = 169 := by decide

theorem fieldSize_structTask {f : TaskField} (hf : f ≠ .id) : structTask.fieldSize f = 8 := by
  cases f with
  | regs r => cases r <;> rfl
  | id => contradiction
  | _ => rfl

@[simp] theorem offset_regs (r : Reg) : structTask.offset (.regs r) = structRegisters.offset r := by
  cases r <;> rfl

@[simp] theorem offset_gprs (r : Reg) : interruptFrame.offset (.gprs r) = structRegisters.offset r := by
  cases r <;> rfl

theorem offset_register_le (r : Reg) : structRegisters.offset r + 8 ≤ structRegisters.size := by
  cases r <;> decide

-- ---------------------------------------------------------------------------
-- The kernel's state
-- ---------------------------------------------------------------------------

/-- What stands behind `malloc`: the address, 0 for NULL. -/
class HeapSource (η : Type) where
  malloc : η → (n : U64) → U64 × η

/-- `kmem` is the kernel's memory at virtual addresses outside the direct map
(stacks and heap); the rest are the globals of the task, interrupt and memory
code. -/
structure Kernel (σ η : Type) where
  machine : Machine σ
  kmem : Mem
  heap : η
  currentTask : U64
  tidNext : BitVec 8
  timerElapsedUs : U64
  prevTime : U64

variable {σ η : Type} {k : Kernel σ η} {p q ifr : U64} {f g : TaskField} {r : Reg} {v : U64} {m m' : Mem}
  {created : List U64}

def taskAddr (p : U64) (f : TaskField) : Nat := p.toNat + structTask.offset f

def frameAddr (frame : U64) (f : FrameField) : Nat := frame.toNat + interruptFrame.offset f

namespace Kernel

def get (k : Kernel σ η) (p : U64) (f : TaskField) : U64 := k.kmem.read64 (taskAddr p f)

def set (k : Kernel σ η) (p : U64) (f : TaskField) (v : U64) : Kernel σ η :=
  { k with kmem := k.kmem.write64 (taskAddr p f) v }

def setId (k : Kernel σ η) (p : U64) (tid : BitVec 8) : Kernel σ η :=
  { k with kmem := k.kmem.setByte (taskAddr p .id) tid }

def copyRegs (k : Kernel σ η) (p frame : U64) : Kernel σ η :=
  let dst := taskAddr p (.regs .r15)
  let src := frameAddr frame (.gprs .r15)
  { k with kmem := Libk.memcpy k.kmem dst src structRegisters.size }

def frameGet (k : Kernel σ η) (frame : U64) (f : FrameField) : U64 :=
  k.kmem.read64 (frameAddr frame f)

end Kernel

def taskNewTid (k : Kernel σ η) : BitVec 8 × Kernel σ η :=
  (k.tidNext, { k with tidNext := k.tidNext + 1 })

-- ---------------------------------------------------------------------------
-- Fields and structures that do not overlap
-- ---------------------------------------------------------------------------

def Apart (p q : U64) : Prop :=
  p.toNat + structTask.size ≤ q.toNat ∨ q.toNat + structTask.size ≤ p.toNat

def SameTask (p : U64) (m m' : Mem) : Prop :=
  ∀ a, p.toNat ≤ a → a < p.toNat + structTask.size → m' a = m a

theorem Apart.symm (h : Apart p q) : Apart q p := h.elim .inr .inl

theorem Apart.ne (h : Apart p q) : p ≠ q := by
  rintro rfl
  have := structTask_size
  unfold Apart at h
  omega

theorem offset_le (f : TaskField) : structTask.offset f + structTask.fieldSize f ≤ structTask.size :=
  Packed.offset_add_fieldSize_le (mem_structTask f)

theorem SameTask.refl (p : U64) (m : Mem) : SameTask p m m := fun _ _ _ => rfl

theorem SameTask.read (h : SameTask p m m') (hf : f ≠ .id) :
    m'.read64 (taskAddr p f) = m.read64 (taskAddr p f) := by
  have hle := offset_le f
  rw [fieldSize_structTask hf] at hle
  refine Mem.read64_congr fun a ha ha' => h a ?_ ?_
  all_goals
    unfold taskAddr at ha ha'
    omega

def Outside (p : U64) (m m' : Mem) : Prop :=
  ∀ a, a < p.toNat ∨ p.toNat + structTask.size ≤ a → m' a = m a

theorem Outside.trans {m'' : Mem} (h : Outside p m m') (h' : Outside p m' m'') : Outside p m m'' :=
  fun a ha => (h' a ha).trans (h a ha)

theorem Outside.same (h : Outside p m m') (ha : Apart p q) : SameTask q m m' := by
  intro a hq hq'
  apply h
  unfold Apart at ha
  omega

theorem outside_write (hf : f ≠ .id) : Outside p m (m.write64 (taskAddr p f) v) := by
  intro a ha
  have hle := offset_le f
  rw [fieldSize_structTask hf] at hle
  apply Mem.write64_outside
  unfold taskAddr
  omega

theorem outside_setByte {b : BitVec 8} : Outside p m (m.setByte (taskAddr p .id) b) := by
  intro a ha
  have hle := offset_le .id
  have hsize : structTask.fieldSize .id = 1 := rfl
  apply Mem.setByte_ne
  unfold taskAddr
  omega

theorem outside_copyRegs {frame : U64} : Outside p k.kmem (k.copyRegs p frame).kmem := by
  intro a ha
  have hle : structRegisters.size ≤ structTask.size := by decide
  have h0 : structTask.offset (.regs .r15) = 0 := rfl
  apply Libk.memcpy_outside
  unfold taskAddr
  omega

namespace Kernel

@[simp] theorem get_withMachine {machine : Machine σ} :
    ({ k with machine } : Kernel σ η).get p f = k.get p f := by
  unfold get
  rfl

@[simp] theorem get_set_same : (k.set p f v).get p f = v := Mem.read64_write64

theorem get_set_ne (hf : f ≠ .id) (hg : g ≠ .id) (hne : g ≠ f) : (k.set p f v).get p g = k.get p g := by
  have h := Packed.fields_apart (mem_structTask g) (mem_structTask f) hne
  rw [fieldSize_structTask hf, fieldSize_structTask hg] at h
  refine Mem.read64_write64_apart ?_
  unfold taskAddr
  omega

theorem get_setId {tid : BitVec 8} (hg : g ≠ .id) : (k.setId p tid).get p g = k.get p g := by
  have h := Packed.fields_apart (mem_structTask g) (mem_structTask .id) hg
  have hid : structTask.fieldSize .id = 1 := rfl
  rw [fieldSize_structTask hg, hid] at h
  refine Mem.read64_congr fun a ha ha' => Mem.setByte_ne ?_
  unfold taskAddr at ha ha' ⊢
  omega

theorem get_copyRegs_regs {frame : U64}
    (h : frame.toNat + interruptFrame.size ≤ p.toNat ∨ p.toNat + structTask.size ≤ frame.toNat) :
    (k.copyRegs p frame).get p (.regs r) = k.frameGet frame (.gprs r) := by
  have hr := offset_register_le r
  have h0 : structTask.offset (.regs .r15) = 0 := rfl
  have h0' : interruptFrame.offset (.gprs .r15) = 0 := rfl
  have hsizes : structRegisters.size ≤ interruptFrame.size ∧ structRegisters.size ≤ structTask.size := by
    decide
  refine Mem.read64_shift fun j hj => ?_
  unfold taskAddr frameAddr
  rw [offset_regs, offset_gprs]
  refine (Libk.memcpy_apply ?_).trans ?_
  · unfold taskAddr frameAddr
    omega
  · unfold taskAddr frameAddr
    rw [if_pos (by omega), h0, h0']
    congr 1
    omega

theorem get_copyRegs_ne {frame : U64} (hg : g ≠ .id) (hregs : ∀ r, g ≠ .regs r) :
    (k.copyRegs p frame).get p g = k.get p g := by
  have h : structRegisters.size ≤ structTask.offset g := by
    cases g with
    | regs r => exact absurd rfl (hregs r)
    | _ => decide
  have h0 : structTask.offset (.regs .r15) = 0 := rfl
  refine Mem.read64_congr fun a ha ha' => Libk.memcpy_outside ?_
  unfold taskAddr at ha ha' ⊢
  omega

theorem get_set (h : p = q ∨ Apart p q) (hf : f ≠ .id) (hg : g ≠ .id) :
    (k.set p f v).get q g = if q = p ∧ g = f then v else k.get q g := by
  rcases h with rfl | h
  · by_cases hgf : g = f
    · subst hgf
      rw [if_pos ⟨rfl, rfl⟩, get_set_same]
    · rw [if_neg (fun e => hgf e.2), get_set_ne hf hg hgf]
  · rw [if_neg (fun e => h.ne e.1.symm)]
    exact ((outside_write hf).same h).read hg

end Kernel

-- ---------------------------------------------------------------------------
-- Contexts
-- ---------------------------------------------------------------------------

@[ext] structure Context where
  regs : Reg → U64
  rsp : U64
  rflags : U64
  rip : U64

def Kernel.context (k : Kernel σ η) (p : U64) : Context where
  regs r := k.get p (.regs r)
  rsp := k.get p .rsp
  rflags := k.get p .rflags
  rip := k.get p .rip

def Kernel.frameContext (k : Kernel σ η) (frame : U64) : Context where
  regs r := k.frameGet frame (.gprs r)
  rsp := k.frameGet frame .rsp
  rflags := k.frameGet frame .rflags
  rip := k.frameGet frame .rip

/-- `p->regs = ifr->gprs`, and the same for `rflags`, `rip` and `rsp`. -/
def storeContext (k : Kernel σ η) (p ifr : U64) : Kernel σ η :=
  let k := k.copyRegs p ifr
  let k := k.set p .rflags (k.frameGet ifr .rflags)
  let k := k.set p .rip (k.frameGet ifr .rip)
  k.set p .rsp (k.frameGet ifr .rsp)

def AllApart (created : List U64) : Prop := ∀ p ∈ created, ∀ q ∈ created, p ≠ q → Apart p q

def FrameApart (ifr p : U64) : Prop :=
  ifr.toNat + interruptFrame.size ≤ p.toNat ∨ p.toNat + structTask.size ≤ ifr.toNat

theorem AllApart.cons (h : AllApart created) (hp : ∀ q ∈ created, Apart p q) : AllApart (p :: created) := by
  intro a ha b hb hne
  rcases List.mem_cons.mp ha with rfl | ha' <;> rcases List.mem_cons.mp hb with rfl | hb'
  · contradiction
  · exact hp b hb'
  · exact (hp a ha').symm
  · exact h a ha' b hb' hne

theorem AllApart.eq_or (h : AllApart created) (hp : p ∈ created) (hq : q ∈ created) : p = q ∨ Apart p q :=
  or_iff_not_imp_left.mpr (h p hp q hq)

theorem Outside.frame {k' : Kernel σ η} {f : FrameField} (h : Outside p k.kmem k'.kmem)
    (hp : FrameApart ifr p) : k'.frameGet ifr f = k.frameGet ifr f := by
  have hle : interruptFrame.offset f + 8 ≤ interruptFrame.size := by
    cases f with
    | gprs r => cases r <;> decide
    | _ => decide
  refine Mem.read64_congr fun a ha ha' => h a ?_
  unfold FrameApart at hp
  unfold frameAddr at ha ha'
  omega

theorem Outside.frameContext {k' : Kernel σ η} (h : Outside p k.kmem k'.kmem) (hp : FrameApart ifr p) :
    k'.frameContext ifr = k.frameContext ifr :=
  Context.ext (funext fun _ => h.frame hp) (h.frame hp) (h.frame hp) (h.frame hp)

@[simp] theorem storeContext_currentTask : (storeContext k p ifr).currentTask = k.currentTask := rfl

@[simp] theorem storeContext_machine : (storeContext k p ifr).machine = k.machine := rfl

@[simp] theorem storeContext_heap : (storeContext k p ifr).heap = k.heap := rfl

theorem storeContext_outside : Outside p k.kmem (storeContext k p ifr).kmem :=
  ((outside_copyRegs.trans (outside_write (by decide))).trans (outside_write (by decide))).trans
    (outside_write (by decide))

theorem storeContext_eq (h : FrameApart ifr p) :
    storeContext k p ifr = (((k.copyRegs p ifr).set p .rflags
      (k.frameGet ifr .rflags)).set p .rip (k.frameGet ifr .rip)).set p .rsp
      (k.frameGet ifr .rsp) := by
  have hregs {g} : (k.copyRegs p ifr).frameGet ifr g = k.frameGet ifr g := outside_copyRegs.frame h
  have hset {k' : Kernel σ η} {f g v} (hf : f ≠ .id) :
      (k'.set p f v).frameGet ifr g = k'.frameGet ifr g :=
    Outside.frame (outside_write hf) h
  unfold storeContext
  simp only
  rw [hset (by decide), hset (by decide), hset (by decide), hregs, hregs, hregs]

theorem storeContext_context (h : FrameApart ifr p) :
    (storeContext k p ifr).context p = k.frameContext ifr := by
  rw [storeContext_eq h]
  refine Context.ext (funext fun r => ?_) ?_ ?_ ?_
  · show ((((k.copyRegs _ _).set _ _ _).set _ _ _).set _ _ _).get _ (.regs r) = _
    rw [Kernel.get_set_ne (by decide) (by simp) (by simp), Kernel.get_set_ne (by decide) (by simp) (by simp),
      Kernel.get_set_ne (by decide) (by simp) (by simp), Kernel.get_copyRegs_regs h]
    rfl
  · exact Kernel.get_set_same
  · show ((((k.copyRegs _ _).set _ _ _).set _ _ _).set _ _ _).get _ .rflags = _
    rw [Kernel.get_set_ne (by decide) (by decide) (by decide),
      Kernel.get_set_ne (by decide) (by decide) (by decide), Kernel.get_set_same]
    rfl
  · show ((((k.copyRegs _ _).set _ _ _).set _ _ _).set _ _ _).get _ .rip = _
    rw [Kernel.get_set_ne (by decide) (by decide) (by decide), Kernel.get_set_same]
    rfl

theorem storeContext_get (hf : f ∈ [.nextTask, .vmap, .deadline]) (h : p = q ∨ Apart p q) :
    (storeContext k p ifr).get q f = k.get q f := by
  rcases h with rfl | h
  · obtain ⟨hid, hflags, hrip, hrsp, hregs⟩ :
        f ≠ .id ∧ f ≠ .rflags ∧ f ≠ .rip ∧ f ≠ .rsp ∧ ∀ r, f ≠ .regs r := by
      simp only [List.mem_cons, List.not_mem_nil, or_false] at hf
      rcases hf with rfl | rfl | rfl <;> simp
    refine (Kernel.get_set_ne (by decide) hid hrsp).trans ?_
    refine (Kernel.get_set_ne (by decide) hid hrip).trans ?_
    refine (Kernel.get_set_ne (by decide) hid hflags).trans ?_
    exact Kernel.get_copyRegs_ne hid hregs
  · exact (storeContext_outside.same h).read (by rintro rfl; simp at hf)

theorem SameTask.context {k' : Kernel σ η} (h : SameTask q k.kmem k'.kmem) : k'.context q = k.context q :=
  Context.ext (funext fun _ => h.read (by simp)) (h.read (by decide)) (h.read (by decide))
    (h.read (by decide))

end ShedOS.Task
