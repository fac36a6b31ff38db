import Mathlib.Data.List.ReduceOption
import ShedOS.Task.Contexts

/-!
# Task ids

`task_new_tid` counts in eight bits, and `syscall_fork` answers 2 whatever the
id of the new task is.
-/

namespace ShedOS.Task

open Bytes Layout Memory Syscall Transition Interrupts

variable {σ η : Type} {k k' : Kernel σ η} {p q ifr : U64} {f : TaskField} {v : U64} {created : List U64}
  {m m' : Mem}

def Kernel.getId (k : Kernel σ η) (p : U64) : BitVec 8 := k.kmem (taskAddr p .id)

-- ---------------------------------------------------------------------------
-- Ids through the operations
-- ---------------------------------------------------------------------------

theorem SameTask.id (h : SameTask p m m') : m' (taskAddr p .id) = m (taskAddr p .id) :=
  h _ (Nat.le_add_right _ _) (Nat.add_lt_add_left (by decide) _)

theorem getId_set (h : p = q ∨ Apart p q) (hf : f ≠ .id) : (k.set p f v).getId q = k.getId q := by
  rcases h with rfl | h
  · have hid := Packed.fields_apart (mem_structTask f) (mem_structTask .id) hf
    rw [fieldSize_structTask hf, show structTask.fieldSize .id = 1 from rfl] at hid
    refine Mem.write64_outside ?_
    unfold taskAddr
    omega
  · exact ((outside_write hf).same h).id

theorem getId_storeContext (h : p = q ∨ Apart p q) : (storeContext k p ifr).getId q = k.getId q := by
  have hcopy : (k.copyRegs p ifr).getId q = k.getId q := by
    rcases h with rfl | h
    · have hid : structRegisters.size ≤ structTask.offset .id ∧ structTask.offset (.regs .r15) = 0 := by decide
      refine Libk.memcpy_outside ?_
      unfold taskAddr
      omega
    · exact (outside_copyRegs.same h).id
  refine (getId_set h (by decide)).trans ((getId_set h (by decide)).trans ?_)
  exact (getId_set h (by decide)).trans hcopy

theorem schedTick_ids (ifr : U64) (ha : AllApart created) (hc : k.currentTask ∈ created)
    (hn : k.get k.currentTask .nextTask ∈ created) :
    (schedTick k ifr).1.tidNext = k.tidNext ∧ ∀ q ∈ created, (schedTick k ifr).1.getId q = k.getId q := by
  unfold schedTick
  simp only
  split
  · obtain ⟨k₁, hk₁⟩ : ∃ k₁, k₁ = storeContext k k.currentTask ifr := ⟨_, rfl⟩
    have hlink : k₁.get k₁.currentTask .nextTask = k.get k.currentTask .nextTask := by
      rw [hk₁, storeContext_currentTask]
      exact storeContext_get (by simp) (.inl rfl)
    rw [← hk₁]
    refine ⟨by rw [hk₁]; rfl, fun q hq => ?_⟩
    refine (getId_set (ha.eq_or (hlink ▸ hn) hq) (by decide)).trans ?_
    show k₁.getId q = _
    rw [hk₁]
    exact getId_storeContext (ha.eq_or hc hq)
  · exact ⟨rfl, fun _ _ => rfl⟩

section Fork

variable [FrameSource σ] [HeapSource η]

theorem syscallFork_ids (frame : U64) (ha : AllApart created) (hc : k.currentTask ∈ created)
    (hnew : ∀ q ∈ created, Apart (newTask k) q) :
    (syscallFork k frame).1.tidNext = k.tidNext + 1 ∧ (syscallFork k frame).1.getId (newTask k) = k.tidNext ∧
      ∀ q ∈ created, (syscallFork k frame).1.getId q = k.getId q := by
  obtain ⟨p, hp⟩ : ∃ p, p = newTask k := ⟨_, rfl⟩
  obtain ⟨k₁, hk₁⟩ : ∃ k₁ : Kernel σ η, k₁ = { k with
    heap := (HeapSource.malloc k.heap (BitVec.ofNat 64 structTask.size)).2, machine := (newVmap k).2 } := ⟨_, rfl⟩
  obtain ⟨k₂, hk₂⟩ : ∃ k₂, k₂ = fillTask k₁ p (newVmap k).1 frame := ⟨_, rfl⟩
  obtain ⟨k₃, hk₃⟩ : ∃ k₃, k₃ = forkFilled k frame := ⟨_, rfl⟩
  have hfork : (syscallFork k frame).1 = linkTask k₃ p := by rw [syscallFork_eq, hk₃, hp]
  replace hk₃ : k₃.kmem = k₂.kmem ∧ k₃.currentTask = k₂.currentTask ∧ k₃.tidNext = k₂.tidNext := by
    rw [hk₃, hk₂, hk₁, hp]
    exact ⟨rfl, rfl, rfl⟩
  have hcur : k₃.currentTask = k.currentTask := by rw [hk₃.2.1, hk₂, fillTask_currentTask, hk₁]
  have hpc : Apart p k.currentTask := hp ▸ hnew _ hc
  have hlink : ∀ q, p = q ∨ Apart p q → k.currentTask = q ∨ Apart k.currentTask q →
      (linkTask k₃ p).getId q = k₂.getId q := by
    intro q hpq hcq
    refine (getId_set hpq (by simp)).trans ((getId_set (hcur ▸ hcq) (by decide)).trans ?_)
    refine (getId_set hpq (by decide)).trans ?_
    rw [Kernel.getId, hk₃.1, Kernel.getId]
  have hkmem : k₁.kmem = k.kmem := by rw [hk₁]
  rw [hfork]
  refine ⟨?_, ?_, fun q hq => ?_⟩
  · show k₃.tidNext = _
    rw [hk₃.2.2, hk₂, fillTask_tidNext, hk₁]
  · rw [← hp, hlink p (.inl rfl) (.inr hpc.symm), Kernel.getId, hk₂, fillTask_kmem, Mem.setByte_same, hk₁]
  · have hpq : Apart p q := hp ▸ hnew q hq
    rw [hlink q (.inr hpq) (ha.eq_or hc hq), hk₂]
    have hsame : SameTask q k₁.kmem (fillTask k₁ p (newVmap k).1 frame).kmem := fillTask_outside.same hpq
    rw [Kernel.getId, hsame.id, hkmem]
    rfl

-- ---------------------------------------------------------------------------
-- Ids over runs
-- ---------------------------------------------------------------------------

def idsBelow (n : Nat) : List (BitVec 8) := (List.range n).reverse.map (BitVec.ofNat 8)

theorem idsBelow_succ {n : Nat} : idsBelow (n + 1) = BitVec.ofNat 8 n :: idsBelow n := by
  rw [idsBelow, List.range_succ, List.reverse_append]
  rfl

theorem nodup_idsBelow {n : Nat} : (idsBelow n).Nodup ↔ n ≤ 256 := by
  rw [idsBelow, List.map_reverse, List.nodup_reverse]
  constructor
  · intro h
    by_contra hn
    have h0 := (List.nodup_iff_injective_get.mp h).eq_iff (a := ⟨0, by simp; omega⟩) (b := ⟨256, by simp; omega⟩)
    simp at h0
  · intro h
    refine List.Nodup.map_on (fun i hi j hj hij => ?_) List.nodup_range
    have hi := List.mem_range.mp hi
    have hj := List.mem_range.mp hj
    have := congrArg BitVec.toNat hij
    simp only [BitVec.toNat_ofNat] at this
    omega

structure IdInv (x : Kernel σ η × List U64) : Prop where
  next : x.1.tidNext = BitVec.ofNat 8 x.2.length
  ids : x.2.map x.1.getId = idsBelow x.2.length

theorem TaskStep.ids {x y : Kernel σ η × List U64} {e : QueueEvent} (h : QueueInv x.1 x.2) (hi : IdInv x)
    (hstep : TaskStep x e y) : IdInv y := by
  obtain ⟨hstep, htid⟩ := hstep
  obtain ⟨hnext, hids⟩ := hi
  cases hstep with
  | fork k created frame hfresh =>
    obtain ⟨htid, hchild, hold⟩ := syscallFork_ids frame h.apart h.current hfresh
    refine ⟨?_, ?_⟩
    · rw [htid, hnext, List.length_cons, BitVec.ofNat_add]
      rfl
    · rw [List.map_cons, List.map_congr_left hold, hids, hchild, hnext, List.length_cons, idsBelow_succ]
  | tick k created ifr =>
    obtain ⟨htid, hold⟩ := schedTick_ids ifr h.apart h.current (h.next_mem h.current)
    exact ⟨htid.trans hnext, (List.map_congr_left hold).trans hids⟩
  | other k k' created hcurrent hsame =>
    exact ⟨(htid rfl).trans hnext, (List.map_congr_left fun q hq => (hsame q hq).id).trans hids⟩

/-- `_start`, from `task_create` to `sched_run`. -/
def startTask (k : Kernel σ η) (task₁ : U64) : Kernel σ η :=
  let (tid, k) := taskNewTid k
  let k := k.setId task₁ tid
  k.set task₁ .nextTask task₁

omit [FrameSource σ] [HeapSource η] in
theorem idInv_start {k₀ : Kernel σ η} {task₁ : U64} (htid : k₀.tidNext = 0) :
    IdInv ((schedRun (startTask k₀ task₁) task₁).1, [task₁]) := by
  have hid : ((schedRun (startTask k₀ task₁) task₁).1).getId task₁ = 0 := by
    refine (getId_set (.inl rfl) (by decide)).trans ((getId_set (.inl rfl) (by decide)).trans ?_)
    exact Mem.setByte_same.trans htid
  refine ⟨?_, ?_⟩
  · show k₀.tidNext + 1 = _
    rw [htid]
    rfl
  · rw [List.map_singleton, hid]
    rfl

-- ---------------------------------------------------------------------------
-- What fork answers
-- ---------------------------------------------------------------------------

/-- `rax` in the parent and in the child, and the child's id. -/
structure ForkAnswer where
  rax : U64
  id : BitVec 8
  childRax : U64
  deriving DecidableEq

/-- The parent learns the child's id, which is not 0, and the child gets 0. -/
def ForkAnswer.Identifies (a : ForkAnswer) : Prop := a.rax = a.id.setWidth 64 ∧ a.rax ≠ 0 ∧ a.childRax = 0

inductive AnswerStep : UserState σ η → Option ForkAnswer → UserState σ η → Prop
  | fork (x y : UserState σ η) (child : U64) (hstep : UserStep x .fork y)
      (hchild : y.created = child :: x.created) :
    AnswerStep x (some ⟨y.core.regs .rax, y.core.kernel.getId child, (y.core.kernel.context child).regs .rax⟩) y
  | other (x y : UserState σ η) (e : UserEvent) (he : e ≠ .fork) (hstep : UserStep x e y) :
    AnswerStep x none y

def forkAnswers (n : Nat) : List ForkAnswer := (List.range n).map fun i => ⟨2, BitVec.ofNat 8 (i + 1), 0⟩

theorem forkAnswers_succ {n : Nat} : forkAnswers (n + 1) = forkAnswers n ++ [⟨2, BitVec.ofNat 8 (n + 1), 0⟩] := by
  rw [forkAnswers, List.range_succ, List.map_append]
  rfl

variable {s : Core σ η} {k₀ : Kernel σ η} {task₁ : U64} {answers : List (Option ForkAnswer)} {x y : UserState σ η}

structure AnswerInv (x : UserState σ η) (answers : List (Option ForkAnswer)) : Prop where
  user : UserInv x
  ids : IdInv x.tasks
  started : x.created ≠ []
  answers : answers.reduceOption = forkAnswers (x.created.length - 1)

theorem AnswerInv.step {a : Option ForkAnswer} (h : AnswerInv x answers) (hstep : AnswerStep x a y) :
    AnswerInv y (answers ++ [a]) := by
  have hids : ∀ {e}, UserStep x e y → UserInv y ∧ IdInv y.tasks := fun {e} he => by
    obtain ⟨es, hes⟩ := he.tasks h.user
    obtain ⟨-, hid⟩ := hes.preserved (fun x => QueueInv x.1 x.2 ∧ IdInv x)
      (fun _ _ _ hx hstep => ⟨hstep.1.inv hx.1, hstep.ids hx.1 hx.2⟩) ⟨h.user.queue, h.ids⟩
    exact ⟨he.inv h.user, hid⟩
  obtain ⟨n, hn⟩ : ∃ n, x.created.length = n + 1 :=
    Nat.exists_eq_succ_of_ne_zero (fun e => h.started (List.length_eq_zero_iff.mp e))
  have hanswers : answers.reduceOption = forkAnswers n := by
    rw [h.answers, hn]
    rfl
  cases hstep with
  | fork _ child hstep hchild =>
    obtain ⟨huser, hid⟩ := hids hstep
    have hrax : y.core.regs .rax = 2 ∧ (y.core.kernel.context child).regs .rax = 0 := by
      cases hstep with
      | fork c core hnumber hfresh hplaced hcall =>
        obtain ⟨hinv, hcur, hctx, -⟩ := h.user.fork hnumber hfresh hplaced hcall rfl
        obtain rfl : newTask x.core.kernel = child := (List.cons.inj hchild).1
        have hne : newTask x.core.kernel ≠ x.current := (hfresh _ h.user.queue.current).ne
        obtain ⟨hsaved, -⟩ := hinv.saved _ List.mem_cons_self (hcur ▸ hne)
        refine ⟨?_, ?_⟩
        · have := congrFun (congrArg Context.regs hctx) .rax
          exact this.trans (Function.update_self Reg.rax 2 x.core.context.regs)
        · rw [hsaved]
          simp only [Function.update_self]
          exact childContext_rax
    have hlen : y.created.length = n + 1 + 1 := by rw [hchild, List.length_cons, hn]
    have hchildId : y.core.kernel.getId child = BitVec.ofNat 8 (n + 1) := by
      have := hid.ids
      rw [UserState.tasks] at this
      simp only at this
      rw [hlen, idsBelow_succ, hchild, List.map_cons] at this
      exact (List.cons.inj this).1
    refine ⟨huser, hid, hchild ▸ List.cons_ne_nil _ _, ?_⟩
    rw [List.reduceOption_append, hanswers, hlen, hrax.1, hrax.2, hchildId]
    exact forkAnswers_succ.symm
  | other _ e he hstep =>
    obtain ⟨huser, hid⟩ := hids hstep
    have hcreated : y.created = x.created := by
      cases hstep with
      | run c mem hif => rfl
      | tick counter c hlow hhigh => rfl
      | fork c core hid hfresh hplaced hcall => contradiction
    refine ⟨huser, hid, hcreated ▸ h.started, ?_⟩
    rw [List.reduceOption_append, hanswers, hcreated, hn]
    exact List.append_nil _

theorem answerInv_of_run (hboot : Booting s (startTask k₀ task₁) task₁) (htid : k₀.tidNext = 0)
    (hrun : Trace AnswerStep (booted s task₁) answers x) : AnswerInv x answers := by
  induction hrun with
  | nil =>
    obtain ⟨huser, hstep⟩ := userInv_booted hboot
    have hids : IdInv (s.kernel, [task₁]) := hboot.kernel ▸ idInv_start htid
    have hqueue : QueueInv s.kernel [task₁] := hboot.kernel ▸ queueInv_start _ hboot.linked
    exact ⟨huser, hstep.ids hqueue hids, List.cons_ne_nil _ _, rfl⟩
  | snoc _ hstep ih => exact ih.step hstep

/-- The forks of a run identify their children, with ids that tell all tasks
apart, exactly if there are none: the first child has the id 1. The `n`th
fork answers 2, and its child has the id `n` modulo 256. -/
theorem fork_identifies_iff (hboot : Booting s (startTask k₀ task₁) task₁) (htid : k₀.tidNext = 0)
    (hrun : Trace AnswerStep (booted s task₁) answers x) :
    (((∀ a ∈ answers.reduceOption, a.Identifies) ∧ (x.created.map x.core.kernel.getId).Nodup) ↔
      answers.reduceOption = []) ∧
    answers.reduceOption = forkAnswers (x.created.length - 1) ∧
    ((x.created.map x.core.kernel.getId).Nodup ↔ x.created.length ≤ 256) := by
  have h := answerInv_of_run hboot htid hrun
  have hids : x.created.map x.core.kernel.getId = idsBelow x.created.length := h.ids.ids
  refine ⟨⟨fun hall => ?_, fun hnone => ⟨?_, ?_⟩⟩, h.answers, hids ▸ nodup_idsBelow⟩
  · rw [h.answers] at hall ⊢
    cases hn : x.created.length - 1 with
    | zero => rfl
    | succ n =>
      rw [hn] at hall
      have hfirst := (hall.1 ⟨2, BitVec.ofNat 8 1, 0⟩ (List.mem_map.mpr ⟨0, by simp, rfl⟩)).1
      exact absurd hfirst (by decide)
  · rw [hnone]
    exact fun a ha => absurd ha List.not_mem_nil
  · rw [hids, nodup_idsBelow]
    rw [h.answers, forkAnswers, List.map_eq_nil_iff, List.range_eq_nil] at hnone
    omega

end Fork

-- ---------------------------------------------------------------------------
-- The first fork
-- ---------------------------------------------------------------------------

def firstCore : Core Bump BumpHeap := { oneCore with kernel := (schedRun (startTask oneTask 0x1000) 0x1000).1 }

theorem booting_firstCore : Booting firstCore (startTask oneTask 0x1000) 0x1000 :=
  ⟨rfl, rfl, Mem.read64_write64, ⟨by unfold Core.Fits; decide, .inl (by decide)⟩, by decide, by decide,
    .inl (by decide)⟩

theorem firstCore_forks : ∃ x : UserState Bump BumpHeap,
    Trace AnswerStep (booted firstCore 0x1000) [none, some ⟨2, 1, 0⟩] x := by
  obtain ⟨x, hx⟩ : ∃ x, x = booted firstCore 0x1000 := ⟨_, rfl⟩
  have hinv : UserInv x := hx ▸ (userInv_booted booting_firstCore).1
  obtain ⟨c, hc⟩ : ∃ c : Context, c = ⟨fun _ => 57, 0, x.core.rflags, 0⟩ := ⟨_, rfl⟩
  have hrun : UserStep x .run { x with core := runUser x.core c x.core.kernel.machine.mem } := by
    refine .run x c _ ?_
    rw [hc]
  obtain ⟨y, hy⟩ : ∃ y : UserState Bump BumpHeap,
    y = { x with core := runUser x.core c x.core.kernel.machine.mem } := ⟨_, rfl⟩
  rw [← hy] at hrun
  have hyinv : UserInv y := hrun.inv hinv
  have hnew : newTask y.core.kernel = 0x2000 := by rw [hy, hx]; rfl
  have htss : y.core.tssRsp0 = 0x9000 := by rw [hy, hx]; rfl
  have hcreated : y.created = [0x1000] := by rw [hy, hx]; rfl
  have hnumber : ((y.core.regs .rax).setWidth 8).toNat = SYSCALL_FORK := by rw [hy, hc]; rfl
  obtain ⟨core, hcall⟩ := hyinv.syscall_some ⟨fun _ => 0, 0, 0, fun _ => 0⟩ hnumber
  obtain ⟨z, hz⟩ : ∃ z : UserState Bump BumpHeap, z = ⟨core, newTask y.core.kernel :: y.created,
    Function.update y.last (newTask y.core.kernel) (childContext y.core.context)⟩ := ⟨_, rfl⟩
  have hfork : UserStep y .fork z := by
    rw [hz]
    refine .fork y _ core hnumber (fun q hq => ?_) ⟨?_, .inl ?_⟩ hcall
    · rw [hcreated, List.mem_singleton] at hq
      rw [hnew, hq]
      exact .inr (by decide)
    · rw [hnew]
      unfold Core.Fits
      decide
    · rw [hnew, htss]
      decide
  have hchild : z.created = newTask y.core.kernel :: y.created := by rw [hz]
  have htrace := (Trace.single (AnswerStep.other x y .run (by decide) hrun)).snoc (.fork y z _ hfork hchild)
  have hlen : z.created.length = 2 := by rw [hchild, hcreated]; rfl
  have hanswer := (answerInv_of_run booting_firstCore rfl (hx ▸ htrace)).answers
  rw [hlen, List.reduceOption_append] at hanswer
  have hfirst : _ = (⟨2, 1, 0⟩ : ForkAnswer) := (List.cons.inj hanswer).1
  rw [hfirst] at htrace
  exact ⟨z, hx ▸ htrace⟩

/-- The first fork answers 2, and its child has the id 1. -/
theorem fork_misses_first_child : ¬ ∀ answers (x : UserState Bump BumpHeap),
    Trace AnswerStep (booted firstCore 0x1000) answers x → ∀ a ∈ answers.reduceOption, a.Identifies := by
  intro hall
  obtain ⟨x, hx⟩ := firstCore_forks
  have := (hall _ x hx ⟨2, 1, 0⟩ (by decide)).1
  exact absurd this (by decide)

theorem fork_identifies_iff_first : ∃ x : UserState Bump BumpHeap,
    ¬((∀ a ∈ [none, some (⟨2, 1, 0⟩ : ForkAnswer)].reduceOption, a.Identifies) ∧
      (x.created.map x.core.kernel.getId).Nodup) := by
  obtain ⟨x, hx⟩ := firstCore_forks
  refine ⟨x, fun h => ?_⟩
  have hnone := (fork_identifies_iff booting_firstCore rfl hx).1.mp h
  exact absurd hnone (List.cons_ne_nil _ _)

end ShedOS.Task
