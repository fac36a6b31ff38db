import ShedOS.Task.Alone
import ShedOS.Task.Create
import ShedOS.Task.Ids

/-!
# The first program

The end of `_start`: `task_create` loads an image, the task is linked to itself,
and `sched_run` switches to it. What user code finds then is what the image
says, and what it does from there on is a run of the machine of its own.
-/

namespace ShedOS.Task

open Bytes Layout Memory Syscall Interrupts Transition Sharing

variable {η : Type} {K K' : Kernel Pmm η} {m : Mem} {f : TaskField} {k n p size : Nat} {s₀ s' : Machine Pmm}
  {label label₀ : Labels} {task parent elf phoff e : U64} {headers : List Phdr}

-- ---------------------------------------------------------------------------
-- The structure of the task
-- ---------------------------------------------------------------------------

theorem read_cleared (hf : f ≠ .id) : (Libk.memset m task.toNat 0 structTask.size).read64 (taskAddr task f) = 0 := by
  have hle := offset_le f
  rw [fieldSize_structTask hf] at hle
  refine Mem.read64_zero fun a ha ha' => ?_
  unfold taskAddr at ha ha'
  rw [Libk.memset_apply, if_pos (by omega)]

def initial (entry : U64) : Context := ⟨fun _ => 0, 0x7ffffffffff0, 0, entry⟩

theorem read_write_ne {g : TaskField} {v : U64} (hf : f ≠ .id) (hg : g ≠ .id) (hne : g ≠ f) :
    (m.write64 (taskAddr task f) v).read64 (taskAddr task g) = m.read64 (taskAddr task g) := by
  have h := Packed.fields_apart (mem_structTask g) (mem_structTask f) hne
  rw [fieldSize_structTask hf, fieldSize_structTask hg] at h
  refine Mem.read64_write64_apart ?_
  unfold taskAddr
  omega

theorem taskCreate_kmem [HeapSource η] (h : taskCreate K parent elf = some (task, K')) :
    ∃ e, loadField K'.machine elf64Ehdr elf .eEntry = some e ∧
      K'.kmem = (((Libk.memset K.kmem task.toNat 0 structTask.size).write64 (taskAddr task .vmap)
        (pagingCopy K.machine parent).1).write64 (taskAddr task .rsp) 0x7ffffffffff0).write64 (taskAddr task .rip) e := by
  rw [taskCreate] at h
  simp only [Option.bind_eq_bind, Option.bind_eq_some_iff] at h
  obtain ⟨machine, -, e, he, h⟩ := h
  obtain ⟨rfl, rfl⟩ := Prod.mk.inj (Option.some.inj h)
  exact ⟨e, he, rfl⟩

theorem taskCreate_fields [HeapSource η] (h : taskCreate K parent elf = some (task, K')) :
    ∃ e, loadField K'.machine elf64Ehdr elf .eEntry = some e ∧ K'.get task .vmap = (pagingCopy K.machine parent).1 ∧
      K'.context task = initial e := by
  obtain ⟨e, he, hkmem⟩ := taskCreate_kmem h
  have hclear : ∀ f, f ≠ .id → f ≠ .vmap → f ≠ .rsp → f ≠ .rip → K'.get task f = 0 := by
    intro f hid hvmap hrsp hrip
    rw [Kernel.get, hkmem, read_write_ne (by decide) hid hrip, read_write_ne (by decide) hid hrsp,
      read_write_ne (by decide) hid hvmap, read_cleared hid]
  refine ⟨e, he, ?_, Context.ext (funext fun r => ?_) ?_ ?_ ?_⟩
  · rw [Kernel.get, hkmem, read_write_ne (by decide) (by decide) (by decide),
      read_write_ne (by decide) (by decide) (by decide), Mem.read64_write64]
  · exact hclear _ (by simp) (by simp) (by simp) (by simp)
  · show K'.get task .rsp = _
    rw [Kernel.get, hkmem, read_write_ne (by decide) (by decide) (by decide), Mem.read64_write64]
    rfl
  · exact hclear _ (by decide) (by decide) (by decide) (by decide)
  · show K'.get task .rip = _
    rw [Kernel.get, hkmem, Mem.read64_write64]
    rfl

theorem get_started (hid : f ≠ .id) (hnext : f ≠ .nextTask) (hdeadline : f ≠ .deadline) :
    (schedRun (startTask K task) task).1.get task f = K.get task f :=
  (Kernel.get_set_ne (by decide) hid hdeadline).trans
    ((Kernel.get_set_ne (by decide) hid hnext).trans (Kernel.get_setId hid))

theorem linked_started : (startTask K task).nextTask task = task := Kernel.get_set_same

theorem context_started : (schedRun (startTask K task) task).1.context task = K.context task :=
  Context.ext (funext fun _ => get_started (by simp) (by simp) (by simp)) (get_started (by decide) (by decide) (by decide))
    (get_started (by decide) (by decide) (by decide)) (get_started (by decide) (by decide) (by decide))

-- ---------------------------------------------------------------------------
-- The program
-- ---------------------------------------------------------------------------

structure Loadable (s : Machine Pmm) (label : Labels) (elf : U64) (ph : Phdr) : Prop where
  user : ph.InUser
  pos : 0 < ph.pMemsz.toNat
  filesz : ph.pFilesz.toNat ≤ ph.pMemsz.toNat
  source : InKernel s label (elf + ph.pOffset) ph.pMemsz.toNat

/-- User code starts at the entry with the top of its stack, and has the pages
of the segments and of the stack; in the segments there is what was in the image. -/
structure FirstView (w : View) (m : Machine Pmm) (elf e : U64) (headers : List Phdr) : Prop where
  context : w.context = resumed (initial e)
  mapped : ∀ a, (w.bytes a).isSome ↔ a.toNat < 2 ^ 47 ∧ ((∃ ph ∈ headers, ph.pType = PT_LOAD ∧
    ∃ j < ph.pMemsz.toNat, pageOf a = pageOf (ph.pVaddr + BitVec.ofNat 64 j)) ∨ pageOf a = pageOf 0x7ffffffffff0)
  loaded : headers.Pairwise Phdr.Apart → ∀ ph ∈ headers, ph.pType = PT_LOAD → ∀ j < ph.pMemsz.toNat,
    w.bytes (ph.pVaddr + BitVec.ofNat 64 j) = readByte m.mem m.root (elf + ph.pOffset + BitVec.ofNat 64 j)

/-- The program runs alone in ring 3, and what it does from there on is what the
machine that its tasks see does. -/
structure FirstProgram [HeapSource η] (x : SystemState η) (m : Machine Pmm) (task elf e : U64) (headers : List Phdr) :
    Prop where
  current : x.virtual.current = task
  tasks : x.virtual.tasks = [task]
  selectors : x.core.cs = USER_CODE ∧ x.core.ss = USER_DATA
  view : FirstView (x.virtual.view task) m elf e headers
  runs : ∀ es y, Trace SystemStep x es y → Trace VirtualStep x.virtual es y.virtual

theorem Loop.firstView {w : View} (h : Loop k n p K.machine label s₀ label₀ elf size phoff headers)
    (hready : Ready k p K.machine label elf size phoff headers) (hs : TaskServed K.machine (framePtr p) elf phoff headers)
    (hall : ∀ ph ∈ headers, ph.pType = PT_LOAD → Loadable K.machine label elf ph)
    (hload : loadElf (loopStart K.machine (framePtr p)) (pagingCopy K.machine (framePtr p)).1 elf = some s')
    (hcontext : w.context = resumed (initial e))
    (hbytes : ∀ a, w.bytes a = if a.toNat < 2 ^ 47 then readByte s'.mem n a else none) :
    FirstView w K.machine elf e headers := by
  obtain ⟨label', hmap, -⟩ := h.user hs (fun ph hph hl => .inl (hall ph hph hl).user) hload
  have hcovered := h.covered hs (fun ph hph hl => ⟨(hall ph hph hl).user, (hall ph hph hl).pos⟩) hload
  have hn := hmap.backed.forest.bound n _ hmap.table
  refine ⟨hcontext, fun a => ?_, fun happart ph hph hl j hj => ?_⟩
  · rw [hbytes]
    by_cases ha : a.toNat < 2 ^ 47
    · have hv := kernelHalf_user ha
      have hpages := hcovered.pages a hv
      rw [hmap.root, pagingGet_lookup hn] at hpages
      rw [if_pos ha, readByte, Option.isSome_map, ← hpages]
      constructor
      · intro hs
        obtain ⟨b, hb⟩ := Option.isSome_iff_exists.mp hs
        exact ⟨ha, hmap.present_of_mmu hv hb⟩
      · rintro ⟨-, hp⟩
        rw [hmap.mmu_present hv hp]
        rfl
    · rw [if_neg ha]
      exact ⟨fun hs => (Bool.false_ne_true hs).elim, fun hs => absurd hs.1 ha⟩
  · have hsegment := hall ph hph hl
    have hend := hsegment.user.memsz
    have hto := toNat_add_ofNat hend (by decide) hj
    rw [hbytes, if_pos (by omega)]
    obtain ⟨s₁, hs₁, hcopied⟩ := h.loads hs fun ph hph hl => ⟨(hall ph hph hl).user, (hall ph hph hl).filesz,
      (h.toCreated.inKernel hready.backed hready.current (hall ph hph hl).source).1⟩
    obtain rfl := Option.some.inj (hload.symm.trans hs₁)
    have hsame := (h.toCreated.inKernel hready.backed hready.current hsegment.source).2 j hj
    rw [h.root] at hsame
    rw [hcopied happart ph hph hl j hj, hsame]

variable [HeapSource η]

structure NewTask (k n p : Nat) (K K' : Kernel Pmm η) (label : Labels) (s₀ : Machine Pmm) (label₀ : Labels) (task elf e : U64)
    (size : Nat) (phoff : U64) (headers : List Phdr) : Prop where
  loop : Loop k n p K.machine label s₀ label₀ elf size phoff headers
  load : loadElf (loopStart K.machine (framePtr p)) (pagingCopy K.machine (framePtr p)).1 elf = some K'.machine
  create : taskCreate K (framePtr p) elf = some (task, K')
  entry : loadField K.machine elf64Ehdr elf .eEntry = some e
  vmap : K'.get task .vmap = framePtr n
  context : K'.context task = initial e

section Program

variable (h : Ready k p K.machine label elf size phoff headers) (hs : TaskServed K.machine (framePtr p) elf phoff headers)
  (hall : ∀ ph ∈ headers, ph.pType = PT_LOAD → Loadable K.machine label elf ph)

include h hs hall

theorem Ready.created :
    ∃ n s₀ label₀ task K' e, NewTask k n p K K' label s₀ label₀ task elf e size phoff headers := by
  obtain ⟨n, s₀, label₀, hloop⟩ := h.loop hs.table
  have huser : ∀ ph ∈ headers, ph.pType = PT_LOAD → ph.InUser ∨ ph.Idle := fun ph hph hl => .inl (hall ph hph hl).user
  obtain ⟨s', hs', -⟩ := hloop.loads hs fun ph hph hl => ⟨(hall ph hph hl).user, (hall ph hph hl).filesz,
    (hloop.toCreated.inKernel h.backed h.current (hall ph hph hl).source).1⟩
  obtain ⟨e₀, he₀⟩ := hloop.entry hs huser hs'
  obtain ⟨task, K', hcreate, hmachine⟩ := taskCreate_returns hs' he₀
  obtain ⟨e, he, hvmap, hctx⟩ := taskCreate_fields hcreate
  obtain ⟨label', hmap, -⟩ := hloop.user hs huser hs'
  rw [hloop.vmap] at hvmap
  refine ⟨n, s₀, label₀, task, K', e, hloop, by rw [hmachine, hs'], hcreate, ?_, hvmap, hctx⟩
  -- the entry was read at the end, where the image is still what it was
  rw [hmachine] at he
  have hend := hloop.image.ehdr_congr
    (fun _ hj => readByte_image hloop.backed hloop.table hloop.root hloop.ne hloop.image.bytes hmap hj) .eEntry
  have hbegin := h.image.ehdr_congr (hloop.toCreated.inKernel h.backed h.current h.image.bytes).2 .eEntry
  rw [← hbegin, ← hend, he]

theorem NewTask.firstProgram {s : Core Pmm η} (hc : NewTask k n p K K' label s₀ label₀ task elf e size phoff headers)
    (hboot : Booting s (startTask K' task) task) : FirstProgram (start s task) K.machine task elf e headers := by
  obtain ⟨s', hs'⟩ : ∃ s', s' = K'.machine := ⟨_, rfl⟩
  have hload := hc.load
  rw [← hs'] at hload
  obtain ⟨label', hmap, -⟩ := hc.loop.user hs (fun ph hph hl => .inl (hall ph hph hl).user) hload
  have hn := hmap.backed.forest.bound n _ hmap.table
  have hmachine : s.kernel.machine = s' := by rw [hboot.kernel, hs']; rfl
  have hvmap : s.kernel.get task .vmap = framePtr n := by
    rw [hboot.kernel, get_started (by decide) (by decide) (by decide), hc.vmap]
  have hcontext : s.kernel.context task = initial e := by rw [hboot.kernel, context_started, hc.context]
  have hswitched := hboot.switched
  have hone : OneTask (start s task).tasks k n label' := by
    refine hswitched.oneTask hvmap ?_ hmap.table ?_ ?_
    · rw [hmachine]
      exact hmap.backed
    · rw [hmachine]
      exact fun v hv hp => ⟨(hmap.data v hv hp).2.1, (hmap.data v hv hp).2.2⟩
    · rw [hmachine]
      exact hmap.distinct
  have hinv := systemInv_start hboot hone
  obtain ⟨x, hx⟩ : ∃ x, x = start s task := ⟨_, rfl⟩
  rw [← hx] at hswitched hinv ⊢
  have hmem : task ∈ x.created := by rw [hswitched.created]; exact List.mem_cons_self
  have hframe : frameOf (x.core.kernel.get task .vmap) = n := by
    have hkept := hswitched.vmap
    rw [Kernel.vmap, show x.core.kernel.currentTask = task from hswitched.current, hvmap] at hkept
    rw [hkept, frameOf_framePtr hn]
  have hbytes : x.machine.mem = s'.mem := by rw [hswitched.machine, hmachine]
  refine ⟨hswitched.current, hswitched.created, hswitched.selectors, ?_, fun es y hrun => (hinv.run hrun).2⟩
  rw [virtual_view hmem]
  refine hc.loop.firstView h hs hall hload ?_ fun a => ?_
  · show x.context task = _
    rw [SystemState.context, if_pos hswitched.current.symm, hswitched.context, hcontext]
  · split
    next ha =>
      rw [hinv.bytes hmem ha, hframe, hbytes]
    next ha => exact if_neg ha

end Program

def launchCore (k : Kernel Pmm η) : Core Pmm η where
  regs := Function.update (fun _ => 0) .rdi 0x2000
  rsp := 0x9000
  rip := 0
  rflags := 0
  cs := KERNEL_CODE
  ss := 0
  tssRsp0 := 0x9000
  kernel := (schedRun (startTask k 0x2000) 0x2000).1

omit [HeapSource η] in
theorem launch_booting (k : Kernel Pmm η) : Booting (launchCore k) (startTask k 0x2000) 0x2000 := by
  have hbelow : (0x2000 : U64).toNat + structTask.size ≤ (0x9000 : U64).toNat - stackSize := by decide
  have hroom : stackSize ≤ (0x9000 : U64).toNat ∧ 40 ≤ (0x9000 : U64).toNat ∧
      (0x2000 : U64).toNat + structTask.size ≤ (0x9000 : U64).toNat - 40 := by decide
  exact ⟨rfl, rfl, linked_started, ⟨by unfold Core.Fits; decide, .inl hbelow⟩, hroom.1, hroom.2.1, .inl hroom.2.2⟩

theorem taskCreate_task (h : taskCreate K parent elf = some (task, K')) :
    task = (HeapSource.malloc K.heap (BitVec.ofNat 64 structTask.size)).1 := by
  rw [taskCreate] at h
  simp only [Option.bind_eq_bind, Option.bind_eq_some_iff] at h
  obtain ⟨_, _, _, _, h⟩ := h
  exact (Prod.mk.inj (Option.some.inj h)).1.symm

end ShedOS.Task
