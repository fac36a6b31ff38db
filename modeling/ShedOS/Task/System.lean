import ShedOS.Interrupts.ExceptionStubs
import ShedOS.Syscall.Dispatch
import ShedOS.Task.Isolation

/-!
# The whole system

User code, loads and stores, page faults, ticks and syscalls on one processor
with one memory. Every step goes through the stubs and the page tables, and yet
it is a step of a machine where every task has registers and bytes of its own.
-/

namespace ShedOS.Task

open Bytes Layout Memory Syscall Interrupts Transition Sharing

-- ---------------------------------------------------------------------------
-- Steps of the processor
-- ---------------------------------------------------------------------------

structure SystemState (η : Type) where
  core : Core Pmm η
  created : List U64

inductive SystemEvent where
  | compute (c : Context)
  | read (v : U64) (b : BitVec 8)
  | write (v : U64) (b : BitVec 8)
  | fault (v : U64)
  | debug
  | call
  | fork (child : U64)
  | tick (task : U64)

variable {η : Type} {s : Core Pmm η} {x y : SystemState η} {k k' : Kernel Pmm η} {kt : Nat} {label : Labels}
  {q child v : U64} {b : BitVec 8} {created : List U64} {e : SystemEvent} {es : List SystemEvent}

namespace SystemState

def current (x : SystemState η) : U64 := x.core.kernel.currentTask

def tasks (x : SystemState η) : TaskState η := ⟨x.core.kernel, x.created⟩

def machine (x : SystemState η) : Machine Pmm := x.core.kernel.machine

def withUserMem (x : SystemState η) (mem : Mem) : SystemState η := { x with core := runUser x.core x.core.context mem }

end SystemState

/-- What the handlers that are no fork return; `none` is fork, or a read past
the end of the table. -/
def callResult (rax : U64) : Option U64 :=
  match dispatch rax with
  | .call .print => some 0
  | .invalid => some 1
  | _ => none

/-- Forks and faults find frames, and `paging_copy` reproduces the user half of
its argument; the rest is as the stubs and the handlers do it. -/
inductive SystemStep [HeapSource η] : SystemState η → SystemEvent → SystemState η → Prop
  | compute (x : SystemState η) (c : Context) (hif : c.rflags &&& FLAG_IF = x.core.rflags &&& FLAG_IF) :
    SystemStep x (.compute c) { x with core := runUser x.core c x.machine.mem }
  | read (x : SystemState η) (v : U64) (b : BitVec 8) (hv : v.toNat < 2 ^ 47)
      (hread : readByte x.machine.mem x.machine.root v = some b) :
    SystemStep x (.read v b) x
  | write (x : SystemState η) (v : U64) (b : BitVec 8) (a : Nat) (hv : v.toNat < 2 ^ 47)
      (hwrite : mmuWrite x.machine.mem x.machine.root v = some a) :
    SystemStep x (.write v b) (x.withUserMem (x.machine.mem.setByte a b))
  | fault (x : SystemState η) (v code : U64) (c : Leftover) (core : Core Pmm η)
      (hfault : mmuWrite x.machine.mem x.machine.root v = none)
      (hframes : Served x.machine (cowRemap x.machine x.core.kernel.vmap v))
      (hcall : x.core.exception 14 (some code) v c = some (.resumed core)) :
    SystemStep x (.fault v) { x with core }
  | debug (x : SystemState η) (v : U64) (c : Leftover) (core : Core Pmm η)
      (hcall : x.core.exception 1 none v c = some (.resumed core)) :
    SystemStep x .debug { x with core }
  | call (x : SystemState η) (c : Leftover) (core : Core Pmm η)
      (hid : dispatch (x.core.regs .rax) ≠ .call .fork) (hcall : x.core.syscall c = some core) :
    SystemStep x .call { x with core }
  | fork (x : SystemState η) (c : Leftover) (core : Core Pmm η)
      (hid : dispatch (x.core.regs .rax) = .call .fork)
      (hfresh : ∀ q ∈ x.created, Apart (newTask x.core.kernel) q) (hplaced : Placed x.core (newTask x.core.kernel))
      (hframes : Enough x.machine (copyCount x.machine (frameOf x.core.kernel.vmap)))
      (hcopy : Reproduces x.machine.mem (newVmap x.core.kernel).2.mem (frameOf x.core.kernel.vmap)
        (frameOf (newVmap x.core.kernel).1))
      (hcall : x.core.syscall c = some core) :
    SystemStep x (.fork (newTask x.core.kernel)) ⟨core, newTask x.core.kernel :: x.created⟩
  | tick (x : SystemState η) (counter : U64) (c : Leftover)
      (hlow : x.core.tssRsp0.toNat - stackSize + 40 ≤ c.rsp.toNat) (hhigh : c.rsp.toNat ≤ x.core.frame.toNat) :
    SystemStep x (.tick (x.core.hpet counter c).kernel.currentTask) { x with core := x.core.hpet counter c }

-- ---------------------------------------------------------------------------
-- The machine that the tasks see
-- ---------------------------------------------------------------------------

@[ext] structure View where
  context : Context
  bytes : U64 → Option (BitVec 8)

def Context.withRax (c : Context) (rax : U64) : Context := { c with regs := Function.update c.regs .rax rax }

/-- What an event of the task itself does to it; faults, debug exceptions and
ticks do nothing. -/
def View.after (w : View) : SystemEvent → View
  | .compute c => { w with context := c }
  | .write v b => { w with bytes := Function.update w.bytes v (some b) }
  | .call => { w with context := w.context.withRax ((callResult (w.context.regs .rax)).getD 0) }
  | .fork _ => { w with context := w.context.withRax 2 }
  | _ => w

/-- What a forked task starts with. -/
def View.forked (w : View) : View := { w with context := childContext w.context }

/-- The machine has one processor per task, as it were, and one of them runs. -/
@[ext] structure Virtual where
  current : U64
  tasks : List U64
  view : U64 → View

namespace Virtual

def act (y : Virtual) (e : SystemEvent) : Virtual :=
  { y with view := Function.update y.view y.current ((y.view y.current).after e) }

def spawn (y : Virtual) (child : U64) : Virtual :=
  { y with tasks := child :: y.tasks, view := Function.update y.view child (y.view y.current).forked }

end Virtual

inductive VirtualStep : Virtual → SystemEvent → Virtual → Prop
  | compute (y : Virtual) (c : Context) (hif : c.rflags &&& FLAG_IF = (y.view y.current).context.rflags &&& FLAG_IF) :
    VirtualStep y (.compute c) (y.act (.compute c))
  | read (y : Virtual) (v : U64) (b : BitVec 8) (hread : (y.view y.current).bytes v = some b) :
    VirtualStep y (.read v b) y
  | write (y : Virtual) (v : U64) (b : BitVec 8) (hmapped : ((y.view y.current).bytes v).isSome) :
    VirtualStep y (.write v b) (y.act (.write v b))
  | fault (y : Virtual) (v : U64) : VirtualStep y (.fault v) y
  | debug (y : Virtual) : VirtualStep y .debug y
  | call (y : Virtual) (hid : (callResult ((y.view y.current).context.regs .rax)).isSome) :
    VirtualStep y .call (y.act .call)
  | fork (y : Virtual) (child : U64) (hid : dispatch ((y.view y.current).context.regs .rax) = .call .fork)
      (hfresh : child ∉ y.tasks) :
    VirtualStep y (.fork child) ((y.spawn child).act (.fork child))
  | tick (y : Virtual) (task : U64) (hmem : task ∈ y.tasks) : VirtualStep y (.tick task) { y with current := task }

-- ---------------------------------------------------------------------------
-- What the tasks see of the system
-- ---------------------------------------------------------------------------

namespace SystemState

def context (x : SystemState η) (q : U64) : Context :=
  if q = x.current then x.core.context else x.core.kernel.context q

def bytes (x : SystemState η) (q v : U64) : Option (BitVec 8) :=
  if v.toNat < 2 ^ 47 then x.tasks.pages.view q (pageOf v) (pageOffset v) else none

def view (x : SystemState η) (q : U64) : View := ⟨x.context q, x.bytes q⟩

def blank : View := ⟨⟨fun _ => 0, 0, 0, 0⟩, fun _ => none⟩

def within {α β : Type} [DecidableEq α] (l : List α) (f : α → β) (b : β) (a : α) : β := if a ∈ l then f a else b

def virtual (x : SystemState η) : Virtual where
  current := x.current
  tasks := x.created
  view := within x.created x.view blank

def user (x : SystemState η) : UserState Pmm η := ⟨x.core, x.created, x.context⟩

end SystemState

structure SystemInv (x : SystemState η) : Prop where
  user : UserInv x.user
  memory : ∃ kt label, MemInv x.tasks kt label

-- ---------------------------------------------------------------------------
-- Steps that leave the tasks alone
-- ---------------------------------------------------------------------------

theorem UserInv.withLast {x : UserState Pmm η} {last : U64 → Context} (h : UserInv x)
    (hlast : ∀ q ∈ x.created, q ≠ x.current → last q = x.last q) : UserInv { x with last } where
  queue := h.queue
  placed := h.placed
  stack := h.stack
  ifSet := h.ifSet
  cr3 := h.cr3
  saved q hq hne := by
    show _ = last q ∧ IfSet (last q).rflags
    rw [hlast q hq hne]
    exact h.saved q hq hne

theorem UserInv.ifSet_last {x : UserState Pmm η} (h : UserInv x) (hcontext : x.last x.current = x.core.context)
    (hq : q ∈ x.created) : IfSet (x.last q).rflags := by
  by_cases hqc : q = x.current
  · rw [hqc, hcontext]
    exact h.ifSet
  · exact (h.saved q hq hqc).2

theorem MemInv.settle (h : MemInv ⟨k, created⟩ kt label) (k' : Kernel Pmm η) (hmachine : k'.machine = k.machine)
    (hcurrent : k'.currentTask = k.currentTask) (hvmaps : ∀ q ∈ created, k'.get q .vmap = k.get q .vmap) :
    MemInv ⟨k', created⟩ kt label ∧ (⟨k', created⟩ : TaskState η).pages = (⟨k, created⟩ : TaskState η).pages := by
  have htables : (⟨k', created⟩ : TaskState η).tables = (⟨k, created⟩ : TaskState η).tables := by
    funext q
    rw [TaskState.tables, TaskState.tables]
    by_cases hq : q ∈ created
    · rw [if_pos hq, if_pos hq, hvmaps q hq]
    · rw [if_neg hq, if_neg hq]
  have hvmap : k'.vmap = k.vmap := by
    rw [Kernel.vmap, hcurrent]
    exact hvmaps _ h.current
  refine ⟨⟨h.apart, ?_, ?_, fun q hq => ?_, ?_⟩, ?_⟩
  · rw [hcurrent]
    exact h.current
  · rw [htables, hmachine]
    exact h.spaces
  · rw [hvmaps q hq]
    exact h.vmaps q hq
  · rw [hmachine, hvmap]
    exact h.root
  · rw [TaskState.pages, TaskState.pages, htables, hmachine]

structure Settled (x y : SystemState η) : Prop where
  created : y.created = x.created
  current : y.current = x.current
  tss : y.core.tssRsp0 = x.core.tssRsp0
  memory : StackOnly x.core x.core.kernel.kmem y.core.kernel.kmem
  tid : y.core.kernel.tidNext = x.core.kernel.tidNext
  ifSet : IfSet y.core.rflags
  cr3 : y.machine.cr3 = x.machine.cr3

theorem Settled.same (hs : Settled x y) (h : UserInv x.user) (hq : q ∈ x.created) :
    SameTask q x.core.kernel.kmem y.core.kernel.kmem :=
  hs.memory.same (h.placed q hq)

theorem Settled.context (hs : Settled x y) (h : UserInv x.user) (hq : q ∈ x.created) (hne : q ≠ x.current) :
    y.context q = x.context q := by
  rw [SystemState.context, SystemState.context, hs.current, if_neg hne, if_neg hne]
  exact (hs.same h hq).context

variable [HeapSource η]

theorem Settled.user (hs : Settled x y) (h : UserInv x.user) : UserInv y.user := by
  have hmem : ∀ {q}, q ∈ y.created → q ∈ x.created := fun hq => hs.created ▸ hq
  have hof := (userInv_of (x := x.user) (y := ⟨y.core, y.created, x.context⟩) (k := x.core.kernel)
    (hs.created ▸ h.queue) (fun p hp => h.placed p (hmem hp)) h.stack hs.tss hs.memory hs.current hs.ifSet
    (hs.cr3.trans h.cr3) (fun q hq hne => h.saved q (hmem hq) hne) hs.tid).1
  exact hof.withLast fun q hq hne => hs.context h (hmem hq) fun hqc => hne (hqc.trans hs.current.symm)

-- ---------------------------------------------------------------------------
-- What becomes of the views
-- ---------------------------------------------------------------------------

omit [HeapSource η] in
theorem virtual_view (hq : q ∈ x.created) : x.virtual.view q = x.view q := if_pos hq

omit [HeapSource η] in
theorem context_current : x.context x.current = x.core.context := if_pos rfl

omit [HeapSource η] in
theorem bytes_congr {y : SystemState η} (h : ∀ p o, y.tasks.pages.view q p o = x.tasks.pages.view q p o) :
    y.bytes q = x.bytes q := by
  funext v
  rw [SystemState.bytes, SystemState.bytes, h]

omit [HeapSource η] in
theorem virtual_congr (hcreated : y.created = x.created) (hcurrent : y.current = x.current)
    (hview : ∀ q ∈ x.created, y.view q = x.view q) : y.virtual = x.virtual := by
  refine Virtual.ext hcurrent hcreated (funext fun q => ?_)
  show (if q ∈ y.created then y.view q else _) = if q ∈ x.created then x.view q else _
  rw [hcreated]
  by_cases hq : q ∈ x.created
  · rw [if_pos hq, if_pos hq, hview q hq]
  · rw [if_neg hq, if_neg hq]

omit [HeapSource η] in
theorem virtual_act (hmem : x.current ∈ x.created) (hcreated : y.created = x.created) (hcurrent : y.current = x.current)
    (hothers : ∀ q ∈ x.created, q ≠ x.current → y.view q = x.view q)
    (hown : y.view x.current = (x.view x.current).after e) : y.virtual = x.virtual.act e := by
  refine Virtual.ext hcurrent hcreated (funext fun q => ?_)
  show (if q ∈ y.created then y.view q else _) = Function.update x.virtual.view x.current
    ((x.virtual.view x.current).after e) q
  rw [hcreated, virtual_view hmem]
  by_cases hqc : q = x.current
  · rw [hqc, Function.update_self, if_pos hmem, hown]
  · rw [Function.update_of_ne hqc]
    show _ = if q ∈ x.created then x.view q else _
    by_cases hq : q ∈ x.created
    · rw [if_pos hq, if_pos hq, hothers q hq hqc]
    · rw [if_neg hq, if_neg hq]

omit [HeapSource η] in
theorem SystemInv.current (h : SystemInv x) : x.current ∈ x.created := h.user.queue.current

structure Matches (x : SystemState η) (e : SystemEvent) (y : SystemState η) : Prop where
  inv : SystemInv y
  step : VirtualStep x.virtual e y.virtual

-- ---------------------------------------------------------------------------
-- User code
-- ---------------------------------------------------------------------------

theorem SystemInv.compute (h : SystemInv x) {c : Context} (hif : c.rflags &&& FLAG_IF = x.core.rflags &&& FLAG_IF)
    (hy : y = { x with core := runUser x.core c x.machine.mem }) : Matches x (.compute c) y := by
  have hs : Settled x y := by
    rw [hy]
    exact ⟨rfl, rfl, rfl, fun _ _ => rfl, rfl, hif.trans h.user.ifSet, rfl⟩
  have htasks : y.tasks = x.tasks := by rw [hy]; rfl
  have hbytes : ∀ q, y.bytes q = x.bytes q := fun q => bytes_congr fun _ _ => by rw [htasks]
  have hcontext : y.context x.current = c := by
    rw [← hs.current, context_current, hy]
    rfl
  have hact : y.virtual = x.virtual.act (.compute c) :=
    virtual_act h.current hs.created hs.current (fun q hq hne => View.ext (hs.context h.user hq hne) (hbytes q))
      (View.ext hcontext (hbytes _))
  refine ⟨⟨hs.user h.user, htasks ▸ h.memory⟩, hact ▸ .compute _ c ?_⟩
  show c.rflags &&& FLAG_IF = (x.virtual.view x.current).context.rflags &&& FLAG_IF
  rw [virtual_view h.current, SystemState.view, context_current]
  exact hif

omit [HeapSource η] in
theorem bytes_user {p : U64} (hv : v.toNat < 2 ^ 47) : x.bytes p v = x.tasks.pages.view p (pageOf v) (pageOffset v) :=
  if_pos hv

omit [HeapSource η] in
theorem SystemInv.read (h : SystemInv x) (hv : v.toNat < 2 ^ 47)
    (hread : readByte x.machine.mem x.machine.root v = some b) : Matches x (.read v b) x := by
  obtain ⟨kt, label, hmem⟩ := h.memory
  refine ⟨h, .read _ v b ?_⟩
  show (x.virtual.view x.current).bytes v = some b
  rw [virtual_view h.current]
  exact (bytes_user hv).trans ((hmem.read hv).symm.trans hread)

theorem SystemInv.write (h : SystemInv x) {a : Nat} (hv : v.toNat < 2 ^ 47)
    (hwrite : mmuWrite x.machine.mem x.machine.root v = some a)
    (hy : y = x.withUserMem (x.machine.mem.setByte a b)) : Matches x (.write v b) y := by
  obtain ⟨kt, label, hmem⟩ := h.memory
  obtain ⟨hinv, f, hstores⟩ := hmem.write (b := b) hv hwrite
  have hs : Settled x y := by
    rw [hy]
    exact ⟨rfl, rfl, rfl, fun _ _ => rfl, rfl, h.user.ifSet, rfl⟩
  have htasks : y.tasks = x.tasks.store a b := by rw [hy]; rfl
  have hview : ∀ q w, w.toNat < 2 ^ 47 → (q = x.current ∧ w = v ∨
      y.tasks.pages.view q (pageOf w) (pageOffset w) = x.tasks.pages.view q (pageOf w) (pageOffset w)) := by
    intro q w hw
    by_cases hqw : q = x.current ∧ w = v
    · exact .inl hqw
    · refine .inr ?_
      rw [htasks]
      refine hstores.view_other hmem.spaces.exclusive ?_
      by_contra hno
      obtain ⟨hq, hpage, hoff⟩ : q = x.tasks.kernel.currentTask ∧ pageOf w = pageOf v ∧
          pageOffset w = pageOffset v := by simpa using hno
      exact hqw ⟨hq, place_inj hv hw hpage hoff⟩
  have hcontext : y.context x.current = x.context x.current := by
    rw [← hs.current, context_current, hs.current, context_current, hy]
    rfl
  have hothers : ∀ q ∈ x.created, q ≠ x.current → y.view q = x.view q := fun q hq hne => by
    refine View.ext (hs.context h.user hq hne) (funext fun w => ?_)
    show y.bytes q w = x.bytes q w
    unfold SystemState.bytes
    by_cases hw : w.toNat < 2 ^ 47
    · rw [if_pos hw, if_pos hw]
      exact (hview q w hw).resolve_left fun hqw => hne hqw.1
    · rw [if_neg hw, if_neg hw]
  have hown : y.view x.current = (x.view x.current).after (.write v b) := by
    refine View.ext hcontext (funext fun w => ?_)
    show y.bytes x.current w = Function.update (x.bytes x.current) v (some b) w
    by_cases hwv : w = v
    · rw [hwv, Function.update_self, bytes_user hv, htasks]
      exact hstores.view_self
    · rw [Function.update_of_ne hwv]
      unfold SystemState.bytes
      by_cases hw : w.toNat < 2 ^ 47
      · rw [if_pos hw, if_pos hw]
        exact (hview x.current w hw).resolve_left fun hqw => hwv hqw.2
      · rw [if_neg hw, if_neg hw]
  have hact : y.virtual = x.virtual.act (.write v b) := virtual_act h.current hs.created hs.current hothers hown
  refine ⟨⟨hs.user h.user, kt, label, htasks ▸ hinv⟩, hact ▸ .write _ v b ?_⟩
  have hpage : x.tasks.pages.map x.current (pageOf v) = some (f, true) := hstores.page
  show ((x.virtual.view x.current).bytes v).isSome
  rw [virtual_view h.current, show (x.view x.current).bytes v = _ from bytes_user hv, State.view, hpage]
  rfl

-- ---------------------------------------------------------------------------
-- Exceptions
-- ---------------------------------------------------------------------------

theorem cowCopyOnWrite_cr3 {s t : Machine Pmm} {vmap : U64} (h : cowCopyOnWrite s vmap v = some (true, t)) :
    t.cr3 = s.cr3 := by
  cases hp : present (pagingGet s vmap (pageStart v)) with
  | false =>
    rw [cowCopyOnWrite_absent hp] at h
    cases h
  | true =>
    rw [cowCopyOnWrite_present hp] at h
    obtain ⟨mem, -, ht⟩ := Option.map_eq_some_iff.mp h
    obtain ⟨c, -, ha⟩ := cowRemap_allocates s vmap v
    rw [← (Prod.mk.inj ht).2, ← ha.cr3]
    exact (pagingUnmap_allocates _ _ _).cr3

omit [HeapSource η] in
theorem back_settled {core : Core Pmm η} (hback : Back x.core core) (h : UserInv x.user)
    (hcr3 : core.kernel.machine.cr3 = x.machine.cr3) (hy : y = { x with core }) : Settled x y := by
  have hflags : core.rflags = x.core.rflags := congrArg Context.rflags hback.context
  have hcurrent : core.kernel.currentTask = x.core.kernel.currentTask := by rw [hback.kernel]
  have htid : core.kernel.tidNext = x.core.kernel.tidNext := by rw [hback.kernel]
  rw [hy]
  exact ⟨rfl, hcurrent, hback.tss, hback.memory, htid, hflags ▸ h.ifSet, hcr3⟩

theorem SystemInv.back (h : SystemInv x) {core : Core Pmm η} {kt : Nat} {label : Labels} (hback : Back x.core core)
    (hcr3 : core.kernel.machine.cr3 = x.machine.cr3) (hy : y = { x with core })
    (hmem : MemInv ⟨{ x.core.kernel with machine := core.kernel.machine }, x.created⟩ kt label)
    (hpages : ∀ q p o, (⟨{ x.core.kernel with machine := core.kernel.machine }, x.created⟩ : TaskState η).pages.view q p o =
      x.tasks.pages.view q p o) : SystemInv y ∧ y.virtual = x.virtual := by
  have hs := back_settled hback h.user hcr3 hy
  have hcore : y.core = core := by rw [hy]
  have hsettle := hmem.settle core.kernel rfl (by rw [hback.kernel]) fun q hq => by
    have hsame := hs.same h.user hq
    rw [hcore] at hsame
    exact hsame.read (by decide)
  obtain ⟨hinv, hsame⟩ := hsettle
  have htasks : y.tasks = ⟨core.kernel, x.created⟩ := by rw [hy]; rfl
  rw [← htasks] at hinv hsame
  refine ⟨⟨hs.user h.user, kt, label, hinv⟩, virtual_congr hs.created hs.current fun q hq => View.ext ?_ ?_⟩
  · by_cases hqc : q = x.current
    · show y.context q = x.context q
      rw [hqc, ← hs.current, context_current, hs.current, context_current, hcore]
      exact hback.context
    · exact hs.context h.user hq hqc
  · refine bytes_congr fun p o => ?_
    rw [hsame, hpages]

theorem SystemInv.fault (h : SystemInv x) {code : U64} {c : Leftover} {core : Core Pmm η}
    (hframes : Served x.machine (cowRemap x.machine x.core.kernel.vmap v))
    (hcall : x.core.exception 14 (some code) v c = some (.resumed core)) (hy : y = { x with core }) :
    Matches x (.fault v) y := by
  obtain ⟨kt, label, hmem⟩ := h.memory
  obtain ⟨hiff, hback, -⟩ := exception_transparent 14 (some code) v c h.user.stack (h.user.placed _ h.current)
    (by decide) rfl
  have hcomes := (hiff core.kernel.machine).mp ⟨core, hcall, rfl⟩
  have hhandled : exceptionHandle x.machine x.core.kernel.vmap EXCEPTION_PF v = some (.returned core.kernel.machine) :=
    (handled_returned (by decide)).mpr hcomes
  obtain ⟨-, -, hcow⟩ := hcomes.resolve_left fun hd => absurd hd.1 (by decide)
  obtain ⟨⟨label', hinv⟩, -, ⟨f, -, hmoves⟩, -⟩ := hmem.fault hframes hhandled rfl
  obtain ⟨hsys, hvirtual⟩ := h.back (hback core hcall) (cowCopyOnWrite_cr3 hcow) hy hinv hmoves.view
  exact ⟨hsys, hvirtual ▸ .fault _ v⟩

theorem SystemInv.debug (h : SystemInv x) {c : Leftover} {core : Core Pmm η}
    (hcall : x.core.exception 1 none v c = some (.resumed core)) (hy : y = { x with core }) : Matches x .debug y := by
  obtain ⟨kt, label, hmem⟩ := h.memory
  obtain ⟨hiff, hback, -⟩ := exception_transparent 1 none v c h.user.stack (h.user.placed _ h.current) (by decide) rfl
  have hcomes := (hiff core.kernel.machine).mp ⟨core, hcall, rfl⟩
  obtain ⟨-, hmachine⟩ := hcomes.resolve_right fun hf => absurd hf.1 (by decide)
  obtain ⟨hsys, hvirtual⟩ := h.back (hback core hcall) (congrArg Machine.cr3 hmachine) hy
    (by rw [hmachine]; exact hmem) fun _ _ _ => by rw [hmachine]; rfl
  exact ⟨hsys, hvirtual ▸ .debug _⟩

-- ---------------------------------------------------------------------------
-- Syscalls
-- ---------------------------------------------------------------------------

theorem isr128_call {k k' : Kernel Pmm η} {frame rax : U64} (hid : dispatch (k.frameGet frame (.gprs .rax)) ≠ .call .fork)
    (h : isr128 k frame = some (k', rax)) : k' = k ∧ callResult (k.frameGet frame (.gprs .rax)) = some rax := by
  rw [isr128_dispatch] at h
  unfold callResult
  rcases hd : dispatch (k.frameGet frame (.gprs .rax)) with (_ | _) | _ | _
  · rw [hd] at h
    obtain ⟨rfl, rfl⟩ := Prod.mk.inj (Option.some.inj h)
    exact ⟨rfl, rfl⟩
  · exact absurd hd hid
  · rw [hd] at h
    obtain ⟨rfl, rfl⟩ := Prod.mk.inj (Option.some.inj h)
    exact ⟨rfl, rfl⟩
  · rw [hd] at h
    cases h

theorem SystemInv.syscall (h : SystemInv x) {c : Leftover} {core : Core Pmm η} (hcall : x.core.syscall c = some core) :
    ∃ E k rax m, Entered x.user E E.kernel ∧ isr128 E.kernel x.core.frame = some (k, rax) ∧
      core.kernel = { k with kmem := m } ∧ core.tssRsp0 = x.core.tssRsp0 ∧ StackOnly x.core k.kmem m ∧
      core.context = (k.frameContext x.core.frame).withRax rax := by
  obtain ⟨hentered, hrdi⟩ := h.user.entered
  obtain ⟨E, hE⟩ : ∃ E, E = x.core.enter.run isrHead := ⟨_, rfl⟩
  rw [show x.user.core.enter.run isrHead = E from hE.symm] at hentered hrdi
  unfold Core.syscall at hcall
  simp only at hcall
  rw [← hE, hrdi] at hcall
  cases hisr : isr128 E.kernel x.user.core.frame with
  | none =>
    rw [hisr] at hcall
    cases hcall
  | some r =>
    obtain ⟨k, rax⟩ := r
    rw [hisr] at hcall
    have hcore := Option.some.inj hcall
    obtain ⟨m, hrun, hout⟩ := Core.returned_syscallTail (s := E) (k := k) (c := c) rax (hentered.room h.user)
    have hstack : stackSize ≤ x.core.tssRsp0.toNat := h.user.stack
    have hframe : x.core.frame.toNat + 160 = x.core.tssRsp0.toNat / 16 * 16 := Core.toNat_frame hstack
    refine ⟨E, k, rax, m, hentered, hisr, ?_, ?_, ?_, ?_⟩
    · rw [← hcore, hrun]
      rfl
    · rw [← hcore, hrun]
      exact hentered.tss
    · have hclobber : StackOnly x.core k.kmem (E.clobber k.kmem c) := hentered.clobber h.user
      refine hclobber.trans fun a ha => ?_
      rw [hout a ?_, Core.returned_kmem]
      have hrsp : E.rsp = x.core.frame := hentered.rsp
      have ha : a < x.core.tssRsp0.toNat - stackSize ∨ x.core.tssRsp0.toNat ≤ a := ha
      rw [hrsp]
      unfold stackSize at ha hstack
      omega
    · rw [← hcore, hrun, hentered.rsp]
      rfl

theorem SystemInv.call (h : SystemInv x) {c : Leftover} {core : Core Pmm η}
    (hid : dispatch (x.core.regs .rax) ≠ .call .fork) (hcall : x.core.syscall c = some core) (hy : y = { x with core }) :
    Matches x .call y := by
  obtain ⟨kt, label, hmem⟩ := h.memory
  obtain ⟨E, k, rax, m, he, hisr, hkernel, htss, hstack, hcontext⟩ := h.syscall hcall
  have hrax : E.kernel.frameGet x.core.frame (.gprs .rax) = x.core.regs .rax :=
    congrFun (congrArg Context.regs he.context) .rax
  have hctx : E.kernel.frameContext x.core.frame = x.core.context := he.context
  obtain ⟨rfl, hresult⟩ := isr128_call (hrax ▸ hid) hisr
  rw [hrax] at hresult
  have hs : Settled x y := by
    rw [hy]
    refine ⟨rfl, ?_, htss, ?_, ?_, ?_, ?_⟩
    · show core.kernel.currentTask = _
      rw [hkernel]
      exact he.current
    · show StackOnly x.core x.core.kernel.kmem core.kernel.kmem
      rw [hkernel]
      exact he.memory.trans hstack
    · show core.kernel.tidNext = _
      rw [hkernel]
      exact he.tid
    · have hflags : core.rflags = x.core.rflags := by
        have := congrArg Context.rflags hcontext
        rw [hctx] at this
        exact this
      exact hflags ▸ h.user.ifSet
    · show core.kernel.machine.cr3 = _
      rw [hkernel]
      exact congrArg Machine.cr3 he.machine
  have hcore : y.core = core := by rw [hy]
  have hsettle := hmem.settle core.kernel (by rw [hkernel]; exact he.machine) (by rw [← hcore]; exact hs.current)
    fun q hq => by
      have hsame := hs.same h.user hq
      rw [hcore] at hsame
      exact hsame.read (by decide)
  obtain ⟨hinv, hpages⟩ := hsettle
  have htasks : y.tasks = ⟨core.kernel, x.created⟩ := by rw [hy]; rfl
  rw [← htasks] at hinv hpages
  have hbytes : ∀ q, y.bytes q = x.bytes q := fun q => bytes_congr fun p o => by rw [hpages]; rfl
  have hown : y.context x.current = x.core.context.withRax rax := by
    rw [← hs.current, context_current, hcore, hcontext, hctx]
  have hact : y.virtual = x.virtual.act .call := by
    refine virtual_act h.current hs.created hs.current (fun q hq hne => View.ext (hs.context h.user hq hne) (hbytes q)) ?_
    refine View.ext (hown.trans ?_) (hbytes _)
    show _ = (x.context x.current).withRax ((callResult ((x.context x.current).regs .rax)).getD 0)
    rw [context_current, show x.core.context.regs .rax = x.core.regs .rax from rfl, hresult]
    rfl
  refine ⟨⟨hs.user h.user, kt, label, hinv⟩, hact ▸ .call _ ?_⟩
  show (callResult ((x.virtual.view x.current).context.regs .rax)).isSome
  rw [virtual_view h.current, SystemState.view, context_current]
  exact Option.isSome_iff_exists.mpr ⟨rax, hresult⟩

-- ---------------------------------------------------------------------------
-- fork
-- ---------------------------------------------------------------------------

theorem isr128_forks {k k' : Kernel Pmm η} {frame rax : U64} (hid : dispatch (k.frameGet frame (.gprs .rax)) = .call .fork)
    (h : isr128 k frame = some (k', rax)) : k' = (syscallFork k frame).1 := by
  rw [isr128_dispatch, hid] at h
  exact (congrArg Prod.fst (Option.some.inj h)).symm

structure Spawned (x y : SystemState η) (child : U64) : Prop where
  created : y.created = child :: x.created
  current : y.current = x.current
  fresh : child ∉ x.created
  forked : y.view child = (x.view x.current).forked
  parent : y.view x.current = (x.view x.current).after (.fork child)
  others : ∀ q ∈ x.created, q ≠ x.current → y.view q = x.view q

omit [HeapSource η] in
theorem Spawned.virtual (hs : Spawned x y child) (hmem : x.current ∈ x.created) :
    y.virtual = (x.virtual.spawn child).act (.fork child) := by
  have hne : x.current ≠ child := fun hc => hs.fresh (hc ▸ hmem)
  refine Virtual.ext hs.current hs.created (funext fun q => ?_)
  show (if q ∈ y.created then y.view q else _) = Function.update (x.virtual.spawn child).view x.current
    (((x.virtual.spawn child).view x.current).after (.fork child)) q
  have hspawn : ∀ u, (x.virtual.spawn child).view u =
      if u = child then (x.virtual.view x.current).forked else x.virtual.view u := fun u => by
    by_cases hu : u = child
    · rw [hu, if_pos rfl]
      exact Function.update_self ..
    · rw [if_neg hu]
      exact Function.update_of_ne hu ..
  rw [hs.created, hspawn, if_neg hne]
  by_cases hqc : q = x.current
  · rw [hqc, Function.update_self, if_pos (List.mem_cons_of_mem _ hmem), hs.parent, virtual_view hmem]
  · rw [Function.update_of_ne hqc, hspawn]
    by_cases hq : q = child
    · rw [if_pos hq, hq, if_pos List.mem_cons_self, hs.forked, virtual_view hmem]
    · rw [if_neg hq]
      show _ = if q ∈ x.created then x.view q else _
      by_cases hqm : q ∈ x.created
      · rw [if_pos hqm, if_pos (List.mem_cons_of_mem _ hqm), hs.others q hqm hqc]
      · rw [if_neg hqm, if_neg (by simp [hq, hqm])]

theorem SystemInv.fork (h : SystemInv x) {c : Leftover} {core : Core Pmm η}
    (hid : dispatch (x.core.regs .rax) = .call .fork)
    (hfresh : ∀ q ∈ x.created, Apart (newTask x.core.kernel) q) (hplaced : Placed x.core (newTask x.core.kernel))
    (hframes : Enough x.machine (copyCount x.machine (frameOf x.core.kernel.vmap)))
    (hcopy : Reproduces x.machine.mem (newVmap x.core.kernel).2.mem (frameOf x.core.kernel.vmap)
      (frameOf (newVmap x.core.kernel).1))
    (hcall : x.core.syscall c = some core) (hy : y = ⟨core, newTask x.core.kernel :: x.created⟩) :
    SystemInv y ∧ Spawned x y (newTask x.core.kernel) := by
  obtain ⟨kt, label, hmem⟩ := h.memory
  obtain ⟨p, hp⟩ : ∃ p, p = newTask x.core.kernel := ⟨_, rfl⟩
  -- the contexts
  have hnum : ((x.core.regs .rax).setWidth 8).toNat = SYSCALL_FORK := by
    rw [BitVec.toNat_setWidth]
    exact dispatch_fork.mp hid
  have hfork := h.user.fork hnum hfresh hplaced hcall (y := ⟨core, newTask x.core.kernel :: x.created,
    Function.update x.context (newTask x.core.kernel) (childContext x.core.context)⟩) rfl
  rw [← hp] at hfork hy
  obtain ⟨huser, hcurrent, hcontext, -⟩ := hfork
  have hcore : y.core = core := by rw [hy]
  have hcreated : y.created = p :: x.created := by rw [hy]
  have hcur : y.current = x.current := by rw [SystemState.current, hcore]; exact hcurrent
  have hcur' : core.kernel.currentTask = x.current := hcurrent
  have hother : ∀ q ∈ p :: x.created, q ≠ x.current →
      y.context q = Function.update x.context p (childContext x.core.context) q := fun q hq hne => by
    rw [SystemState.context, hcur, if_neg hne, hcore]
    exact (huser.saved q hq fun e => hne (e.trans hcur')).1
  have hpfresh : p ∉ x.created := fun hmem => (hfresh p hmem).ne hp.symm
  have hqp : ∀ {q}, q ∈ x.created → q ≠ p := fun hq e => hpfresh (e ▸ hq)
  have hpne : p ≠ x.current := (hqp h.current).symm
  have hyuser : UserInv y.user := by
    rw [SystemState.user, hcore, hcreated]
    exact huser.withLast fun q hq hne => hother q hq fun e => hne (e.trans hcur'.symm)
  -- the memory: up to the handler, the handler, and back
  obtain ⟨E, k, rax, m, he, hisr, hkernel, htss, hstack, -⟩ := h.syscall hcall
  have hrax : E.kernel.frameGet x.core.frame (.gprs .rax) = x.core.regs .rax :=
    congrFun (congrArg Context.regs he.context) .rax
  have hk := isr128_forks (hrax ▸ hid) hisr
  have hnew : newTask E.kernel = p := he.newTask_eq.trans hp.symm
  have hvmap : E.kernel.vmap = x.core.kernel.vmap := by
    rw [Kernel.vmap, he.current]
    exact he.vmap h.user
  have hmachine : E.kernel.machine = x.machine := he.machine
  have hnewVmap : newVmap E.kernel = newVmap x.core.kernel := by
    show pagingCopy E.kernel.machine E.kernel.vmap = pagingCopy x.machine x.core.kernel.vmap
    rw [hvmap, hmachine]
  obtain ⟨hinv₁, hpages₁⟩ := hmem.settle E.kernel he.machine he.current fun q hq =>
    (he.same h.user hq).read (by decide)
  have hforked : (⟨k, p :: x.created⟩ : TaskState η) =
      ⟨(syscallFork E.kernel x.core.frame).1, newTask E.kernel :: x.created⟩ := by rw [hk, hnew]
  obtain ⟨⟨label', hinv₂⟩, hcurrent₂, hforks, -⟩ := hinv₁.fork (fun q hq => hnew ▸ hp ▸ hfresh q hq)
    (by show Enough E.kernel.machine _; rwa [hvmap, hmachine])
    (by show Reproduces E.kernel.machine.mem _ _ _; rwa [hnewVmap, hvmap, hmachine]) hforked
  obtain ⟨hinv₃, hpages₃⟩ := hinv₂.settle core.kernel (by rw [hkernel]) (by rw [hkernel]) fun q hq => by
    rw [hkernel]
    exact (hstack.same (huser.placed q hq |> fun hpl => ⟨hpl.fits, htss ▸ hpl.apart⟩)).read (by decide)
  have hytasks : y.tasks = ⟨core.kernel, p :: x.created⟩ := by rw [hy]; rfl
  rw [← hytasks] at hinv₃ hpages₃
  have hcur₁ : E.kernel.currentTask = x.current := he.current
  have hview : ∀ q pg o, y.tasks.pages.view q pg o =
      Function.update x.tasks.pages.view p (x.tasks.pages.view x.current) q pg o := fun q pg o => by
    rw [hpages₃, hforks.view, hpages₁, hnew, hcur₁]
    rfl
  have hbytes : ∀ q, y.bytes q = if q = p then x.bytes x.current else x.bytes q := fun q => by
    funext w
    by_cases hq : q = p
    · rw [if_pos hq, hq, SystemState.bytes, hview, Function.update_self]
      rfl
    · rw [if_neg hq, SystemState.bytes, hview, Function.update_of_ne hq]
      rfl
  rw [← hp]
  refine ⟨⟨hyuser, kt, label', hinv₃⟩, hcreated, hcur, hpfresh, View.ext ?_ ?_, View.ext ?_ ?_, fun q hq hne => View.ext ?_ ?_⟩
  · show y.context p = childContext (x.context x.current)
    rw [hother p List.mem_cons_self hpne, Function.update_self, context_current]
  · exact (hbytes p).trans (if_pos rfl)
  · show y.context x.current = (x.context x.current).withRax 2
    rw [← hcur, context_current, hcore, hcur, context_current]
    exact hcontext
  · exact (hbytes _).trans (if_neg hpne.symm)
  · show y.context q = x.context q
    rw [hother q (List.mem_cons_of_mem _ hq) hne, Function.update_of_ne (hqp hq)]
  · exact (hbytes q).trans (if_neg (hqp hq))

-- ---------------------------------------------------------------------------
-- Ticks
-- ---------------------------------------------------------------------------

omit [HeapSource η] in
theorem run_machine {s : Core Pmm η} : ∀ (code : List Instr),
    (s.run code).kernel.machine = { s.kernel.machine with cr3 := (s.run code).kernel.machine.cr3 }
  | [] => rfl
  | i :: code => by
    have hstep : (s.step i).kernel.machine = { s.kernel.machine with cr3 := (s.step i).kernel.machine.cr3 } := by
      cases i <;> rfl
    have ih := run_machine (s := s.step i) code
    rw [hstep] at ih
    exact ih

omit [HeapSource η] in
theorem hpet_machine (h : UserInv x.user) (counter : U64) (c : Leftover) :
    (x.core.hpet counter c).kernel.machine =
      { x.machine with cr3 := (x.core.hpet counter c).kernel.machine.cr3 } := by
  obtain ⟨E, hE⟩ : ∃ E, E = x.core.enter.run isrHead := ⟨_, rfl⟩
  have hentered : E.kernel.machine = x.machine := by
    rw [hE]
    exact h.entered.1.machine
  obtain ⟨r, hr⟩ : ∃ r, isr34 (x.core.enter.run isrHead).kernel ((x.core.enter.run isrHead).regs .rdi) counter = r :=
    ⟨_, rfl⟩
  have hmachine : r.1.machine = x.machine := by
    rw [← hentered, ← hr, hE]
    unfold isr34 timerTick schedTick
    simp only
    split <;> rfl
  obtain ⟨k, task⟩ := r
  rw [← hmachine]
  cases task with
  | none =>
    rw [Core.hpet_idle hr]
    exact run_machine (s := (x.core.enter.run isrHead).returned k c) _
  | some task =>
    rw [Core.hpet_switch hr]
    exact run_machine (s := (x.core.enter.run isrHead).calling k task c) _

theorem trace_vmaps {σ : Type} [FrameSource σ] {x y : Kernel σ η × List U64} {es : List QueueEvent} (h : QueueInv x.1 x.2)
    (hrun : Trace TaskStep x es y) :
    x.2.length ≤ y.2.length ∧ (y.2.length = x.2.length → y.2 = x.2 ∧ ∀ q ∈ x.2, y.1.get q .vmap = x.1.get q .vmap) := by
  induction hrun with
  | nil => exact ⟨Nat.le_refl _, fun _ => ⟨rfl, fun _ _ => rfl⟩⟩
  | snoc hrun hstep ih =>
    have hz := hrun.preserved (fun z => QueueInv z.1 z.2) (fun _ _ _ hz hstep => hstep.1.inv hz) h
    obtain ⟨hle, hkeep⟩ := ih
    cases hstep.1 with
    | fork k created frame hfresh =>
      have hle : x.2.length ≤ created.length := hle
      simp only [List.length_cons]
      exact ⟨Nat.le_succ_of_le hle, fun he => absurd hle (by omega)⟩
    | tick k created ifr =>
      refine ⟨hle, fun he => ?_⟩
      obtain ⟨hcreated, hvmaps⟩ : created = x.2 ∧ _ := hkeep he
      refine ⟨hcreated, fun q hq => ?_⟩
      rcases schedTick_spec ifr hz.apart hz.current (hz.next_mem hz.current) with hidle | ⟨k', hk', ht⟩
      · rw [hidle]
        exact hvmaps q hq
      · rw [hk']
        exact (ht.vmaps q (hcreated ▸ hq)).trans (hvmaps q hq)
    | other k k' created hcurrent hsame =>
      refine ⟨hle, fun he => ?_⟩
      obtain ⟨hcreated, hvmaps⟩ : created = x.2 ∧ _ := hkeep he
      exact ⟨hcreated, fun q hq => ((hsame q (hcreated ▸ hq)).read (by decide)).trans (hvmaps q hq)⟩

theorem SystemInv.tick (h : SystemInv x) {counter : U64} {c : Leftover}
    (hlow : x.core.tssRsp0.toNat - stackSize + 40 ≤ c.rsp.toNat) (hhigh : c.rsp.toNat ≤ x.core.frame.toNat)
    (hy : y = { x with core := x.core.hpet counter c }) : Matches x (.tick y.current) y := by
  obtain ⟨kt, label, hmem⟩ := h.memory
  have hlast : Function.update x.context x.current x.core.context = x.context := by
    rw [← context_current, Function.update_eq_self]
  have htick := h.user.tick counter c hlow hhigh (y := ⟨x.core.hpet counter c, x.created,
    Function.update x.context x.current x.core.context⟩) rfl
  rw [hlast] at htick
  obtain ⟨huser, hcontext, ⟨es, htrace⟩, -⟩ := htick
  have hcore : y.core = x.core.hpet counter c := by rw [hy]
  have hcreated : y.created = x.created := by rw [hy]
  rw [← hcore] at huser hcontext htrace
  have hvmaps := ((trace_vmaps h.user.queue htrace).2 rfl).2
  -- every task is where it was
  have hcurrent : y.current ∈ x.created := huser.queue.current
  have hset : ∀ q ∈ x.created, IfSet (x.context q).rflags := fun q hq =>
    h.user.ifSet_last context_current hq
  have hcontexts : ∀ q ∈ x.created, y.context q = x.context q := fun q hq => by
    by_cases hqc : q = y.current
    · rw [hqc, context_current]
      exact hcontext.trans (resumed_of_ifSet (hset _ hcurrent))
    · rw [SystemState.context, if_neg hqc]
      exact (huser.saved q hq hqc).1
  have hyuser : UserInv y.user := by
    rw [SystemState.user, hcreated]
    exact huser.withLast fun q hq _ => hcontexts q hq
  obtain ⟨hinv, hpages⟩ := hmem.switch (y := y.tasks) (k := y.core.kernel) hcurrent
    (by
      rw [hcore, hpet_machine h.user, ← hcore]
      exact congrArg (fun cr3 => ({ x.machine with cr3 } : Machine Pmm))
        (huser.cr3.trans (congrArg (· - VADDR_HIGHER) (hvmaps _ hcurrent))))
    hvmaps (by rw [SystemState.tasks, hcreated]; rfl)
  refine ⟨⟨hyuser, kt, label, hinv⟩, ?_⟩
  have hvirtual : y.virtual = { x.virtual with current := y.current } := by
    refine Virtual.ext rfl hcreated (funext fun q => ?_)
    show (if q ∈ y.created then y.view q else _) = if q ∈ x.created then x.view q else _
    rw [hcreated]
    by_cases hq : q ∈ x.created
    · rw [if_pos hq, if_pos hq]
      exact View.ext (hcontexts q hq) (bytes_congr fun p o => by rw [hpages])
    · rw [if_neg hq, if_neg hq]
  rw [hvirtual]
  exact .tick _ _ hcurrent

-- ---------------------------------------------------------------------------
-- Runs
-- ---------------------------------------------------------------------------

theorem SystemInv.step (h : SystemInv x) (hstep : SystemStep x e y) : Matches x e y := by
  cases hstep with
  | compute c hif => exact h.compute hif rfl
  | read v b hv hread => exact h.read hv hread
  | write v b a hv hwrite => exact h.write hv hwrite rfl
  | fault v code c core hfault hframes hcall => exact h.fault hframes hcall rfl
  | debug v c core hcall => exact h.debug hcall rfl
  | call c core hid hcall => exact h.call hid hcall rfl
  | fork c core hid hfresh hplaced hframes hcopy hcall =>
    obtain ⟨hinv, hs⟩ := h.fork hid hfresh hplaced hframes hcopy hcall rfl
    refine ⟨hinv, hs.virtual h.current ▸ .fork _ _ ?_ hs.fresh⟩
    show dispatch ((x.virtual.view x.current).context.regs .rax) = _
    rw [virtual_view h.current, SystemState.view, context_current]
    exact hid
  | tick counter c hlow hhigh => exact h.tick hlow hhigh rfl

theorem SystemInv.run (h : SystemInv x) (hrun : Trace SystemStep x es y) :
    SystemInv y ∧ Trace VirtualStep x.virtual es y.virtual := by
  induction hrun with
  | nil => exact ⟨h, .nil⟩
  | snoc _ hstep ih =>
    have hmatch := ih.1.step hstep
    exact ⟨hmatch.inv, ih.2.snoc hmatch.step⟩

end ShedOS.Task
