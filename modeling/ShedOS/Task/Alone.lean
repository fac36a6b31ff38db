import ShedOS.Task.System

/-!
# Every task by itself

The events of one task, taken out of any run of the system, are a run of a
machine that has only this task. Its registers and its bytes do not depend on
what others do in between, nor on where it was interrupted.
-/

namespace ShedOS.Task

open Bytes Layout Memory Syscall Interrupts Transition Sharing

variable {η : Type} {s : Core Pmm η} {k₀ : Kernel Pmm η} {x y : SystemState η} {v w : Virtual} {kt n : Nat} {label : Labels}
  {q task₁ current : U64} {e : SystemEvent} {es es' : List SystemEvent}

-- ---------------------------------------------------------------------------
-- The events of a task
-- ---------------------------------------------------------------------------

def SystemEvent.next (current : U64) : SystemEvent → U64
  | .tick task => task
  | _ => current

def runner (current : U64) (es : List SystemEvent) : U64 := es.foldl SystemEvent.next current

/-- What happens while `q` runs, if `current` is the first to run. -/
def ownEvents (q : U64) : (current : U64) → List SystemEvent → List SystemEvent
  | _, [] => []
  | current, e :: es =>
    if current = q then e :: ownEvents q (e.next current) es else ownEvents q (e.next current) es

theorem runner_snoc : runner current (es ++ [e]) = e.next (runner current es) := List.foldl_concat ..

theorem ownEvents_snoc : ownEvents q current (es ++ [e]) =
    ownEvents q current es ++ if runner current es = q then [e] else [] := by
  induction es generalizing current with
  | nil =>
    show (if current = q then e :: [] else []) = [] ++ if current = q then [e] else []
    rw [List.nil_append]
  | cons d es ih =>
    rw [List.cons_append, ownEvents, ownEvents, ih]
    show _ = _ ++ if runner (d.next current) es = q then [e] else []
    by_cases hq : current = q
    · rw [if_pos hq, if_pos hq, List.cons_append]
    · rw [if_neg hq, if_neg hq]

-- ---------------------------------------------------------------------------
-- A machine with one task
-- ---------------------------------------------------------------------------

/-- Whether the event can happen to a task with these registers and bytes. -/
def View.Allows (w : View) : SystemEvent → Prop
  | .compute c => c.rflags &&& FLAG_IF = w.context.rflags &&& FLAG_IF
  | .read v b => w.bytes v = some b
  | .write v _ => (w.bytes v).isSome
  | .call => (callResult (w.context.regs .rax)).isSome
  | .fork _ => dispatch (w.context.regs .rax) = .call .fork
  | _ => True

def ViewStep (w : View) (e : SystemEvent) (w' : View) : Prop := w.Allows e ∧ w' = w.after e

/-- A step is one of the task that runs, and no other task notices. -/
theorem VirtualStep.alone (hstep : VirtualStep v e w) (hmem : v.current ∈ v.tasks) :
    w.current = e.next v.current ∧ w.current ∈ w.tasks ∧ (∀ q ∈ v.tasks, q ∈ w.tasks) ∧
      ViewStep (v.view v.current) e (w.view v.current) ∧
      ∀ q ∈ v.tasks, q ≠ v.current → w.view q = v.view q := by
  have hact : ∀ e, (v.act e).view v.current = (v.view v.current).after e := fun e => Function.update_self ..
  have hkeep : ∀ e, ∀ q ∈ v.tasks, q ≠ v.current → (v.act e).view q = v.view q := fun e q _ hne =>
    Function.update_of_ne hne ..
  cases hstep with
  | compute c hif => exact ⟨rfl, hmem, fun _ hq => hq, ⟨hif, hact _⟩, hkeep _⟩
  | read a b hread => exact ⟨rfl, hmem, fun _ hq => hq, ⟨hread, rfl⟩, fun _ _ _ => rfl⟩
  | write a b hmapped => exact ⟨rfl, hmem, fun _ hq => hq, ⟨hmapped, hact _⟩, hkeep _⟩
  | fault a => exact ⟨rfl, hmem, fun _ hq => hq, ⟨trivial, rfl⟩, fun _ _ _ => rfl⟩
  | debug => exact ⟨rfl, hmem, fun _ hq => hq, ⟨trivial, rfl⟩, fun _ _ _ => rfl⟩
  | call hid => exact ⟨rfl, hmem, fun _ hq => hq, ⟨hid, hact _⟩, hkeep _⟩
  | tick task htask => exact ⟨rfl, htask, fun _ hq => hq, ⟨trivial, rfl⟩, fun _ _ _ => rfl⟩
  | fork child hid hfresh =>
    have hspawn : ∀ q ∈ v.tasks, (v.spawn child).view q = v.view q := fun q hq =>
      Function.update_of_ne (show q ≠ child from fun e => hfresh (e ▸ hq)) ..
    refine ⟨rfl, List.mem_cons_of_mem _ hmem, fun _ hq => List.mem_cons_of_mem _ hq, ⟨hid, ?_⟩, fun q hq hne => ?_⟩
    · refine Eq.trans (Function.update_self ..) ?_
      exact congrArg (fun u => View.after u (.fork child)) (hspawn _ hmem)
    · exact (Function.update_of_ne hne ..).trans (hspawn q hq)

theorem virtual_alone (hrun : Trace VirtualStep v es w) (hmem : v.current ∈ v.tasks) (hq : q ∈ v.tasks) :
    w.current = runner v.current es ∧ w.current ∈ w.tasks ∧ q ∈ w.tasks ∧
      Trace ViewStep (v.view q) (ownEvents q v.current es) (w.view q) := by
  induction hrun with
  | nil => exact ⟨rfl, hmem, hq, .nil⟩
  | snoc _ hstep ih =>
    obtain ⟨hcurrent, hmem', hq', htrace⟩ := ih
    obtain ⟨hnext, hmem'', htasks, hown, hothers⟩ := hstep.alone hmem'
    refine ⟨by rw [runner_snoc, ← hcurrent, hnext], hmem'', htasks q hq', ?_⟩
    rw [ownEvents_snoc, ← hcurrent]
    split
    next hqc =>
      rw [hqc] at hown
      exact htrace.snoc hown
    next hqc =>
      rw [List.append_nil, hothers q hq' (Ne.symm hqc)]
      exact htrace

-- ---------------------------------------------------------------------------
-- Runs of the system
-- ---------------------------------------------------------------------------

/-- `switch_to_task`, called by `sched_run(task_1)`, has started the first task. -/
def start (s : Core Pmm η) (task₁ : U64) : SystemState η := ⟨s.run switchToTask, [task₁]⟩

structure Switched (s : Core Pmm η) (task₁ : U64) (x : SystemState η) : Prop where
  current : x.current = task₁
  created : x.created = [task₁]
  selectors : x.core.cs = USER_CODE ∧ x.core.ss = USER_DATA
  context : x.core.context = resumed (s.kernel.context task₁)
  vmap : x.core.kernel.vmap = s.kernel.get task₁ .vmap
  machine : x.machine = { s.kernel.machine with cr3 := s.kernel.get task₁ .vmap - VADDR_HIGHER }

theorem Booting.switched (h : Booting s k₀ task₁) : Switched s task₁ (start s task₁) := by
  obtain ⟨m', hrun, hout⟩ := Core.run_switchToTask (s := s) (h.rdi ▸ h.placed.fits) (h.rdi ▸ h.rsp)
  rw [h.rdi] at hrun
  have hcur : s.kernel.currentTask = task₁ := by rw [h.kernel]; rfl
  have hsame : SameTask task₁ s.kernel.kmem m' := by
    intro a ha ha'
    apply hout
    have := h.rsp.2
    omega
  obtain ⟨x, hx⟩ : ∃ x, x = start s task₁ := ⟨_, rfl⟩
  have hcore : x.core = s.run switchToTask := by rw [hx]; rfl
  rw [← hx]
  rw [hrun] at hcore
  have hcurrent : x.core.kernel.currentTask = task₁ := by rw [hcore]; exact hcur
  refine ⟨hcurrent, by rw [hx]; rfl, by rw [hcore]; exact ⟨rfl, rfl⟩, by rw [hcore]; rfl, ?_, ?_⟩
  · rw [Kernel.vmap, hcurrent, hcore]
    exact hsame.read (by decide)
  · rw [SystemState.machine, hcore]
    rfl

theorem Switched.root (h : Switched s task₁ x) (hvmap : s.kernel.get task₁ .vmap = framePtr n) (hn : n < frameLimit) :
    x.machine.root = n := by
  rw [Machine.root, h.machine, hvmap]
  show frameOf (addrOffsetLower (addrOffsetHigher _)) = n
  rw [addrOffsetLower_higher, frameOf, toNat_frame hn, Nat.mul_div_cancel_left _ (by decide), Nat.mod_eq_of_lt hn]

theorem Switched.oneTask (h : Switched s task₁ x) (hvmap : s.kernel.get task₁ .vmap = framePtr n)
    (hback : Backed kt s.kernel.machine label) (htable : label n = some ⟨n, []⟩)
    (hdata : ∀ v, kernelHalf v = false → present (lookup s.kernel.machine.mem n v) = true →
      HasData s.kernel.machine label n v)
    (hdistinct : ∀ v w, kernelHalf v = false → kernelHalf w = false → present (lookup s.kernel.machine.mem n v) = true →
      present (lookup s.kernel.machine.mem n w) = true →
      frameOf (lookup s.kernel.machine.mem n v) = frameOf (lookup s.kernel.machine.mem n w) → pageOf v = pageOf w) :
    OneTask x.tasks kt n label := by
  have hroot := h.root hvmap (hback.forest.bound n _ htable)
  refine ⟨h.created.trans (congrArg (fun q => [q]) h.current.symm), h.vmap.trans hvmap, hroot, ?_, htable, ?_, ?_⟩
  · show Backed kt x.machine label
    rw [h.machine]
    exact ⟨⟨hback.forest, hback.kernelTable, hback.handed⟩, hback.windows, hback.walled, hback.reach, hback.locked⟩
  · show ∀ v, kernelHalf v = false → present (lookup x.machine.mem n v) = true → HasData x.machine label n v
    rw [h.machine]
    exact fun v hv hp => ⟨(hdata v hv hp).locked, (hdata v hv hp).noTable⟩
  · show ∀ v w, kernelHalf v = false → kernelHalf w = false → present (lookup x.machine.mem n v) = true →
      present (lookup x.machine.mem n w) = true → frameOf (lookup x.machine.mem n v) = frameOf (lookup x.machine.mem n w) →
      pageOf v = pageOf w
    rw [h.machine]
    exact hdistinct

theorem systemInv_start [HeapSource η] (hboot : Booting s k₀ task₁) (hone : OneTask (start s task₁).tasks kt n label) :
    SystemInv (start s task₁) := by
  obtain ⟨huser, -⟩ := userInv_booted hboot
  refine ⟨huser.withLast fun q hq hne => ?_, kt, label, hone.inv⟩
  have hcurrent : (booted s task₁).current = task₁ := List.mem_singleton.mp huser.queue.current
  exact absurd ((List.mem_singleton.mp hq).trans hcurrent.symm) hne

theorem SystemInv.bytes (h : SystemInv x) (hq : q ∈ x.created) {a : U64} (ha : a.toNat < 2 ^ 47) :
    (x.view q).bytes a = readByte x.machine.mem (frameOf (x.core.kernel.get q .vmap)) a := by
  obtain ⟨kt, label, hmem⟩ := h.memory
  refine (bytes_user ha).trans (hmem.spaces.read (TaskState.tables_mem hq) (kernelHalf_user ha)).symm

variable [HeapSource η]

def onePageKernel (m : Machine Pmm) (n : Nat) : Kernel Pmm BumpHeap where
  machine := m
  kmem := Mem.write64 (Mem.write64 (fun _ => 0) (taskAddr 0x1000 .nextTask) 0x1000) (taskAddr 0x1000 .vmap) (framePtr n)
  heap := ⟨0x2000⟩
  currentTask := 0
  tidNext := 0
  timerElapsedUs := 0
  prevTime := 0

def onePageCore (m : Machine Pmm) (n : Nat) : Core Pmm BumpHeap where
  regs := Function.update (fun _ => 0) .rdi 0x1000
  rsp := 0x9000
  rip := 0
  rflags := 0
  cs := KERNEL_CODE
  ss := 0
  tssRsp0 := 0x9000
  kernel := (schedRun (onePageKernel m n) 0x1000).1

theorem onePage_booting (m : Machine Pmm) (n : Nat) : Booting (onePageCore m n) (onePageKernel m n) 0x1000 := by
  have hbelow : (0x1000 : U64).toNat + structTask.size ≤ (0x9000 : U64).toNat - stackSize := by decide
  have hroom : stackSize ≤ (0x9000 : U64).toNat ∧ 40 ≤ (0x9000 : U64).toNat ∧
      (0x1000 : U64).toNat + structTask.size ≤ (0x9000 : U64).toNat - 40 := by decide
  exact ⟨rfl, rfl, (Mem.read64_write64_apart (.inr (by decide))).trans Mem.read64_write64,
    ⟨by unfold Core.Fits; decide, .inl hbelow⟩, hroom.1, hroom.2.1, .inl hroom.2.2⟩

theorem OnePage.started {m : Machine Pmm} (h : OnePage m kt n label) :
    OneTask (start (onePageCore m n) 0x1000).tasks kt n label ∧
      (start (onePageCore m n) 0x1000).machine = { m with cr3 := framePtr n - VADDR_HIGHER } := by
  have hswitched := (onePage_booting m n).switched
  have hvmap : (onePageCore m n).kernel.get 0x1000 .vmap = framePtr n :=
    (Kernel.get_set_ne (by decide) (by decide) (by decide)).trans Mem.read64_write64
  have hone := h.oneTask
  have hmachine : (onePageCore m n).kernel.machine = m := rfl
  refine ⟨hswitched.oneTask hvmap ?_ h.table ?_ ?_, ?_⟩
  · rw [hmachine]
    exact h.backed
  · rw [hmachine]
    exact hone.data
  · rw [hmachine]
    exact hone.distinct
  · rw [hswitched.machine, hvmap, hmachine]

omit [HeapSource η] in
theorem run_heap {s : Core Pmm η} : ∀ (code : List Instr), (s.run code).kernel.heap = s.kernel.heap
  | [] => rfl
  | i :: code => by
    have hstep : (s.step i).kernel.heap = s.kernel.heap := by cases i <;> rfl
    exact (run_heap (s := s.step i) code).trans hstep

omit [HeapSource η] in
theorem run_tss {s : Core Pmm η} : ∀ (code : List Instr), (s.run code).tssRsp0 = s.tssRsp0
  | [] => rfl
  | i :: code => by
    have hstep : (s.step i).tssRsp0 = s.tssRsp0 := by cases i <;> rfl
    exact (run_tss (s := s.step i) code).trans hstep

theorem OnePage.run {m : Machine Pmm} (h : OnePage m kt n label) : ∃ c t x,
    Trace SystemStep (start (onePageCore m n) 0x1000) [.compute c, .fork 0x2000, .tick t] x := by
  obtain ⟨hone, hmachine⟩ := h.started
  have hinv := systemInv_start (onePage_booting m n) hone
  obtain ⟨x₀, hx₀⟩ : ∃ x, x = start (onePageCore m n) 0x1000 := ⟨_, rfl⟩
  have hheap₀ : x₀.core.kernel.heap = ⟨0x2000⟩ := by rw [hx₀]; exact run_heap _
  have htss₀ : x₀.core.tssRsp0 = 0x9000 := by rw [hx₀]; exact run_tss _
  rw [← hx₀] at hinv hmachine ⊢
  -- the number of fork
  obtain ⟨c, hc⟩ : ∃ c, c = x₀.core.context.withRax 57 := ⟨_, rfl⟩
  have hif : c.rflags &&& FLAG_IF = x₀.core.rflags &&& FLAG_IF := by rw [hc]; rfl
  have hstep₁ := SystemStep.compute x₀ c hif
  obtain ⟨x₁, hx₁⟩ : ∃ x : SystemState BumpHeap, x = { x₀ with core := runUser x₀.core c x₀.machine.mem } := ⟨_, rfl⟩
  rw [← hx₁] at hstep₁
  have hinv₁ := (hinv.step hstep₁).inv
  have hrax : x₁.core.regs .rax = 57 := by rw [hx₁, hc]; rfl
  have hnew : newTask x₁.core.kernel = 0x2000 := by
    have hheap₁ : x₁.core.kernel.heap = ⟨0x2000⟩ := by rw [hx₁, ← hheap₀]; rfl
    rw [newTask, hheap₁]
    rfl
  have htss₁ : x₁.core.tssRsp0 = 0x9000 := by rw [hx₁, ← htss₀]; rfl
  have hcreated : x₁.created = [0x1000] := by rw [hx₁, hx₀]; rfl
  have hmachine₁ : x₁.machine = { m with cr3 := framePtr n - VADDR_HIGHER } := by rw [hx₁, ← hmachine]; rfl
  -- the fork
  have hfresh : ∀ q ∈ x₁.created, Apart (newTask x₁.core.kernel) q := fun q hq => by
    rw [hcreated] at hq
    rw [List.mem_singleton.mp hq, hnew]
    exact .inr (by decide)
  have hplaced : Placed x₁.core (newTask x₁.core.kernel) := by
    have hbelow : (0x2000 : U64).toNat + structTask.size ≤ (0x9000 : U64).toNat - stackSize := by decide
    rw [hnew]
    exact ⟨by unfold Core.Fits; decide, .inl (by rw [htss₁]; exact hbelow)⟩
  have hspare : Spare x₁.machine (1 + maxTables 4 + 14) := by
    rw [hmachine₁]
    exact ⟨h.spare.untouched, h.spare.room⟩
  have hzero : FreeZero x₁.machine := by
    rw [hmachine₁]
    exact fun a ha => h.zeros a ha
  have hid : dispatch (x₁.core.regs .rax) = .call .fork := by
    rw [hrax]
    decide
  have hnum : ((x₁.core.regs .rax).setWidth 8).toNat = SYSCALL_FORK := by
    rw [hrax]
    decide
  obtain ⟨kt', label', hmem⟩ := hinv₁.memory
  obtain ⟨y, hfork, -⟩ := hmem.can_fork 14 hspare hzero hfresh 0
  obtain ⟨d, hd⟩ : ∃ d : Leftover, d = ⟨fun _ => 0, 0x8100, 0, fun _ => 0⟩ := ⟨_, rfl⟩
  obtain ⟨core, hcall⟩ := hinv₁.user.syscall_some d hnum
  have hstep₂ : SystemStep x₁ (.fork 0x2000) ⟨core, newTask x₁.core.kernel :: x₁.created⟩ := by
    rw [← hnew]
    cases hfork with
    | fork frame hfresh' hframes hcopy => exact .fork x₁ d core hid hfresh hplaced hframes hcopy hcall
  obtain ⟨x₂, hx₂⟩ : ∃ x : SystemState BumpHeap, x = ⟨core, newTask x₁.core.kernel :: x₁.created⟩ := ⟨_, rfl⟩
  rw [← hx₂] at hstep₂
  -- the tick
  have htss₂ : x₂.core.tssRsp0 = 0x9000 := by
    obtain ⟨-, -, -, -, -, -, -, htss, -⟩ := hinv₁.syscall hcall
    rw [hx₂, ← htss₁]
    exact htss
  have hframe : x₂.core.frame = 0x8f60 := by
    rw [Core.frame, htss₂]
    decide
  have hstep₃ := SystemStep.tick x₂ 0 d (by rw [htss₂, hd]; decide) (by rw [hframe, hd]; decide)
  exact ⟨c, _, _, ((Trace.single hstep₁).snoc hstep₂).snoc hstep₃⟩

end ShedOS.Task
