import ShedOS.Interrupts.Exceptions
import ShedOS.Lib.Transition
import ShedOS.Memory.Spaces
import ShedOS.Syscall.Fork
import ShedOS.Task.Sched

/-!
# Runs of tasks that share pages

Forks, task switches, page faults and accesses of the current task, what each
does to the pages of the tasks, and when it can be taken.
-/

namespace ShedOS.Task

open Bytes Memory Syscall Interrupts Transition Sharing

-- ---------------------------------------------------------------------------
-- Runs
-- ---------------------------------------------------------------------------

/-- Where the MMU lets a write through; every entry on the way has to be writable. -/
def mmuWriteFrom (m : Mem) (v : U64) : (level n : Nat) → Option Nat
  | 0, n =>
    let e := entryAt m n (vaddrToIndex v 0)
    if present e && writable e then some (0x1000 * frameOf e + v.toNat % 0x1000) else none
  | level + 1, n =>
    let e := entryAt m n (vaddrToIndex v (level + 1))
    if !(present e && writable e) then none
    else if huge e then
      if level < 2 then some (0x1000 * frameOf e + v.toNat % 2 ^ (12 + 9 * (level + 1))) else none
    else mmuWriteFrom m v level (frameOf e)

def mmuWrite (m : Mem) (root : Nat) (v : U64) : Option Nat := mmuWriteFrom m v 3 root

def Kernel.vmap {σ η : Type} (k : Kernel σ η) : U64 := k.get k.currentTask .vmap

structure TaskState (η : Type) where
  kernel : Kernel Pmm η
  created : List U64

inductive MemEvent where
  | fork (child : U64)
  | switch (task : U64)
  | fault (v : U64)
  | read (v : U64) (x : BitVec 8)
  | write (v : U64) (x : BitVec 8)
  deriving DecidableEq

def TaskState.store {η : Type} (x : TaskState η) (a : Nat) (b : BitVec 8) : TaskState η :=
  { x with kernel := { x.kernel with machine := { x.kernel.machine with mem := x.kernel.machine.mem.setByte a b } } }

/-- What runs while no frame is missing and `paging_copy` reproduces the user
half of its argument. A write that the MMU does not let through is a fault; a
handled fault comes back to the task, which may try again. -/
inductive MemStep {η : Type} [HeapSource η] : TaskState η → MemEvent → TaskState η → Prop
  | fork (x : TaskState η) (frame : U64) (hfresh : ∀ q ∈ x.created, Apart (newTask x.kernel) q)
      (hframes : Enough x.kernel.machine (copyCount x.kernel.machine (frameOf x.kernel.vmap)))
      (hcopy : Reproduces x.kernel.machine.mem (newVmap x.kernel).2.mem (frameOf x.kernel.vmap)
        (frameOf (newVmap x.kernel).1)) :
    MemStep x (.fork (newTask x.kernel)) ⟨(syscallFork x.kernel frame).1, newTask x.kernel :: x.created⟩
  | switch (x : TaskState η) (k : Kernel Pmm η) (hcurrent : k.currentTask ∈ x.created)
      (hmachine : k.machine = { x.kernel.machine with cr3 := x.kernel.get k.currentTask .vmap - VADDR_HIGHER })
      (hvmaps : ∀ q ∈ x.created, k.get q .vmap = x.kernel.get q .vmap) :
    MemStep x (.switch k.currentTask) { x with kernel := k }
  | fault (x : TaskState η) (s : Machine Pmm) (v : U64) (hfault : mmuWrite x.kernel.machine.mem x.kernel.machine.root v = none)
      (hframes : Served x.kernel.machine (cowRemap x.kernel.machine x.kernel.vmap v))
      (hcall : exceptionHandle x.kernel.machine x.kernel.vmap EXCEPTION_PF v = some (.returned s)) :
    MemStep x (.fault v) { x with kernel := { x.kernel with machine := s } }
  | read (x : TaskState η) (v : U64) (b : BitVec 8) (hv : v.toNat < 2 ^ 47)
      (hread : readByte x.kernel.machine.mem x.kernel.machine.root v = some b) :
    MemStep x (.read v b) x
  | write (x : TaskState η) (v : U64) (b : BitVec 8) (a : Nat) (hv : v.toNat < 2 ^ 47)
      (hwrite : mmuWrite x.kernel.machine.mem x.kernel.machine.root v = some a) :
    MemStep x (.write v b) (x.store a b)

-- ---------------------------------------------------------------------------
-- Writes that the MMU lets through
-- ---------------------------------------------------------------------------

theorem mmuWriteFrom_some {m : Mem} {v : U64} {a : Nat} : ∀ {level n : Nat}, MeetsNoHuge m n v level →
    mmuWriteFrom m v level n = some a →
    let e := walkValue (tableWalk m n (tableIndex v level) (indicesBelow v level))
    present e = true ∧ writable e = true ∧ a = 0x1000 * frameOf e + v.toNat % 0x1000
  | 0, n, _, h => by
    rw [mmuWriteFrom] at h
    split at h
    next hpw =>
      obtain ⟨hp, hw⟩ := Bool.and_eq_true_iff.mp hpw
      exact ⟨hp, hw, (Option.some.inj h).symm⟩
    · cases h
  | level + 1, n, hh, h => by
    rw [mmuWriteFrom] at h
    change (if !(present (tableRead m n (tableIndex v (level + 1))) && writable (tableRead m n (tableIndex v (level + 1)))) then none
      else if huge (tableRead m n (tableIndex v (level + 1))) then _
      else mmuWriteFrom m v level (frameOf (tableRead m n (tableIndex v (level + 1))))) = some a at h
    split at h
    · cases h
    next hpw =>
      obtain ⟨hp, -⟩ : present _ = true ∧ writable _ = true := by simpa using hpw
      obtain ⟨c, hnext, hh⟩ := meetsNoHuge_succ.mp hh hp
      obtain ⟨-, hsmall, rfl⟩ := nextTable_eq_some.mp hnext
      rw [hsmall, if_neg Bool.false_ne_true] at h
      rw [indicesBelow, tableWalk, Radix.walk_some hnext]
      exact mmuWriteFrom_some hh h

theorem mmuWrite_some {m : Mem} {v : U64} {a n : Nat} (hh : MeetsNoHuge m n v 3) (h : mmuWrite m n v = some a) :
    present (lookup m n v) = true ∧ writable (lookup m n v) = true ∧ a = 0x1000 * frameOf (lookup m n v) + v.toNat % 0x1000 :=
  mmuWriteFrom_some hh h

-- ---------------------------------------------------------------------------
-- The invariant
-- ---------------------------------------------------------------------------

variable {η : Type} [HeapSource η] {x y : TaskState η} {k : Kernel Pmm η} {kt n : Nat} {label : Labels} {p q child : U64}
  {v : U64} {b : BitVec 8} {e : MemEvent} {es : List MemEvent}

def TaskState.tables (x : TaskState η) (q : U64) : Option Nat :=
  if q ∈ x.created then some (frameOf (x.kernel.get q .vmap)) else none

def TaskState.pages (x : TaskState η) : State U64 (BitVec 36) Nat (Fin 0x1000) (BitVec 8) :=
  sharing x.kernel.machine.mem x.tables

structure MemInv (x : TaskState η) (kt : Nat) (label : Labels) : Prop where
  apart : AllApart x.created
  current : x.kernel.currentTask ∈ x.created
  spaces : Spaces kt x.kernel.machine label x.tables
  vmaps : ∀ q ∈ x.created, x.kernel.get q .vmap = framePtr (frameOf (x.kernel.get q .vmap))
  root : x.kernel.machine.root = frameOf x.kernel.vmap

omit [HeapSource η] in
theorem TaskState.tables_mem (hq : q ∈ x.created) : x.tables q = some (frameOf (x.kernel.get q .vmap)) := if_pos hq

omit [HeapSource η] in
theorem TaskState.tables_some (h : x.tables q = some n) : q ∈ x.created ∧ n = frameOf (x.kernel.get q .vmap) := by
  rw [tables] at h
  split at h
  next hq => exact ⟨hq, (Option.some.inj h).symm⟩
  · cases h

omit [HeapSource η] in
theorem MemInv.table (h : MemInv x kt label) :
    x.tables x.kernel.currentTask = some x.kernel.machine.root ∧ x.kernel.vmap = framePtr x.kernel.machine.root := by
  rw [h.root]
  exact ⟨TaskState.tables_mem h.current, h.vmaps _ h.current⟩

structure Shared (x y : TaskState η) (kt : Nat) (child : U64) : Prop where
  inv : ∃ label, MemInv y kt label
  current : y.kernel.currentTask = x.kernel.currentTask
  pages : Forks x.kernel.currentTask child x.pages y.pages
  frames : y.kernel.machine.frames =
    afterFrames x.kernel.machine.frames (copyCount x.kernel.machine x.kernel.machine.root)
  locked : ∀ f, x.kernel.machine.frames.bit f = true → y.kernel.machine.frames.bit f = true

theorem MemInv.fork (h : MemInv x kt label) {frame : U64} (hfresh : ∀ q ∈ x.created, Apart (newTask x.kernel) q)
    (hframes : Enough x.kernel.machine (copyCount x.kernel.machine (frameOf x.kernel.vmap)))
    (hcopy : Reproduces x.kernel.machine.mem (newVmap x.kernel).2.mem (frameOf x.kernel.vmap) (frameOf (newVmap x.kernel).1))
    (hy : y = ⟨(syscallFork x.kernel frame).1, newTask x.kernel :: x.created⟩) : Shared x y kt (newTask x.kernel) := by
  obtain ⟨-, hf⟩ := syscallFork_spec frame h.apart h.current hfresh
  obtain ⟨htable, hvmap⟩ := h.table
  obtain ⟨n, hn⟩ : ∃ n, n = x.kernel.machine.root := ⟨_, rfl⟩
  rw [← h.root, ← hn] at hframes hcopy
  rw [← hn] at htable hvmap
  have hnew : newVmap x.kernel = pagingCopy x.kernel.machine (framePtr n) := congrArg (pagingCopy _) hvmap
  have hcnew : newTask x.kernel ∉ x.created := fun hmem => (hfresh _ hmem).ne rfl
  obtain ⟨d, new, label', hptr, hspace, hspaces, hforks⟩ := h.spaces.fork htable (if_neg hcnew) hframes
    fun d hd hptr => by rwa [hnew, hptr, frameOf_framePtr hd] at hcopy
  have hd : d < frameLimit := hspace.backed.forest.bound d _ hspace.table
  have hkernel : y.kernel = (syscallFork x.kernel frame).1 ∧ y.created = newTask x.kernel :: x.created := hy ▸ ⟨rfl, rfl⟩
  have hmachine : y.kernel.machine = forkSpace x.kernel.machine (framePtr n) := by
    rw [hkernel.1, hf.machine, hnew, forkSpace]
    exact congrArg (fun vmap => pagingMakeReadonly (pagingMakeReadonly _ vmap) _) hvmap
  have hchild : y.kernel.get (newTask x.kernel) .vmap = framePtr d := by rw [hkernel.1, hf.childVmap, hnew, hptr]
  have hold : ∀ q ∈ x.created, y.kernel.get q .vmap = x.kernel.get q .vmap := hkernel.1 ▸ hf.vmaps
  have hcurrent : y.kernel.currentTask = x.kernel.currentTask := by rw [hkernel.1, hf.current]
  have htables : y.tables = Function.update x.tables (newTask x.kernel) (some d) := by
    funext q
    by_cases hq : q = newTask x.kernel
    · subst hq
      rw [TaskState.tables_mem (by rw [hkernel.2]; exact List.mem_cons_self), hchild, frameOf_framePtr hd, Function.update_self]
    · rw [Function.update_of_ne hq, TaskState.tables, TaskState.tables, hkernel.2]
      by_cases hmem : q ∈ x.created
      · rw [if_pos hmem, if_pos (List.mem_cons_of_mem _ hmem), hold q hmem]
      · rw [if_neg hmem, if_neg (by simp [hq, hmem])]
  refine ⟨⟨label', ?_, ?_, ?_, fun q hq => ?_, ?_⟩, hcurrent, ?_, ?_, fun f hf => ?_⟩
  · rw [hkernel.2]
    exact h.apart.cons hfresh
  · rw [hcurrent, hkernel.2]
    exact List.mem_cons_of_mem _ h.current
  · rw [hmachine, htables]
    exact hspaces
  · rw [hkernel.2] at hq
    rcases List.mem_cons.mp hq with rfl | hq
    · rw [hchild, frameOf_framePtr hd]
    · rw [hold q hq]
      exact h.vmaps q hq
  · rw [hmachine, Machine.root, hspace.cr3, Kernel.vmap, hcurrent, hold _ h.current]
    exact h.root
  · rw [TaskState.pages, TaskState.pages, hmachine, htables]
    exact hforks
  · rw [hmachine, ← hn]
    exact hspace.frames
  · rw [hmachine, hspace.answers.bits, hf, Bool.or_true]

omit [HeapSource η] in
theorem MemInv.switch (h : MemInv x kt label) (hcurrent : k.currentTask ∈ x.created)
    (hmachine : k.machine = { x.kernel.machine with cr3 := x.kernel.get k.currentTask .vmap - VADDR_HIGHER })
    (hvmaps : ∀ q ∈ x.created, k.get q .vmap = x.kernel.get q .vmap) (hy : y = { x with kernel := k }) :
    MemInv y kt label ∧ y.pages = x.pages := by
  have hkernel : y.kernel = k ∧ y.created = x.created := hy ▸ ⟨rfl, rfl⟩
  have htables : y.tables = x.tables := by
    funext q
    rw [TaskState.tables, TaskState.tables, hkernel.1, hkernel.2]
    by_cases hq : q ∈ x.created
    · rw [if_pos hq, if_pos hq, hvmaps q hq]
    · rw [if_neg hq, if_neg hq]
  have hs := h.spaces
  have hroot : k.machine.root = frameOf (x.kernel.get k.currentTask .vmap) := by
    have hlim : frameOf (x.kernel.get k.currentTask .vmap) < frameLimit := frameOf_lt
    rw [hmachine, Machine.root, h.vmaps _ hcurrent]
    show frameOf (addrOffsetLower (addrOffsetHigher _)) = _
    rw [addrOffsetLower_higher, frameOf_framePtr hlim, frameOf, toNat_frame hlim, Nat.mul_div_cancel_left _ (by decide),
      Nat.mod_eq_of_lt hlim]
  refine ⟨⟨hkernel.2 ▸ h.apart, ?_, ?_, fun q hq => ?_, ?_⟩, ?_⟩
  · rw [hkernel.1, hkernel.2]
    exact hcurrent
  · rw [htables, hkernel.1, hmachine]
    exact ⟨⟨⟨hs.backed.forest, hs.backed.kernelTable, hs.backed.handed⟩, hs.backed.windows, hs.backed.walled, hs.backed.reach,
      hs.backed.locked⟩, hs.table, hs.own, fun t n v ht hv hp => ⟨(hs.data t n v ht hv hp).locked,
      (hs.data t n v ht hv hp).noTable⟩, hs.exclusive⟩
  · rw [hkernel.2] at hq
    rw [hkernel.1, hvmaps q hq]
    exact h.vmaps q hq
  · rw [hkernel.1, hroot, Kernel.vmap, hvmaps _ hcurrent]
  · rw [TaskState.pages, TaskState.pages, htables, hkernel.1, hmachine]

theorem exceptionHandle_returned {s t : Machine Pmm} {vmap : U64} (h : exceptionHandle s vmap EXCEPTION_PF v = some (.returned t)) :
    v.toNat ≤ lastUserPtr ∧ present (pagingGet s vmap (pageStart v)) = true ∧ cowCopyOnWrite s vmap v = some (true, t) := by
  rw [exceptionHandle, if_pos rfl] at h
  split at h
  next huser =>
    obtain ⟨⟨copied, t'⟩, hcow, h⟩ := Option.bind_eq_some_iff.mp h
    cases copied with
    | false => cases h
    | true =>
      obtain rfl : t' = t := Handled.returned.inj (Option.some.inj h)
      refine ⟨ptrIsUser_iff.mp huser, ?_, hcow⟩
      cases hp : present (pagingGet s vmap (pageStart v)) with
      | true => rfl
      | false =>
        rw [cowCopyOnWrite_absent hp] at hcow
        cases hcow
  next => cases h

omit [HeapSource η] in
theorem MemInv.machine {s : Machine Pmm} {label' : Labels} (h : MemInv x kt label) (hspaces : Spaces kt s label' x.tables)
    (hcr3 : s.cr3 = x.kernel.machine.cr3) (hy : y = { x with kernel := { x.kernel with machine := s } }) :
    MemInv y kt label' ∧ y.pages = sharing s.mem x.tables ∧ y.kernel.currentTask = x.kernel.currentTask := by
  have hget : ∀ q f, y.kernel.get q f = x.kernel.get q f := fun q f => by rw [hy, Kernel.get_withMachine]
  have htables : y.tables = x.tables := by
    funext q
    rw [TaskState.tables, TaskState.tables, hget, hy]
  have hvmap : y.kernel.vmap = x.kernel.vmap := by
    rw [Kernel.vmap, Kernel.vmap, hget, hy]
  refine ⟨⟨hy ▸ h.apart, hy ▸ h.current, ?_, fun q hq => ?_, ?_⟩, ?_, hy ▸ rfl⟩
  · rw [htables, hy]
    exact hspaces
  · rw [hget]
    exact h.vmaps q (by rwa [hy] at hq)
  · rw [hvmap, ← h.root, hy]
    exact congrArg (fun cr3 => frameOf cr3) hcr3
  · rw [TaskState.pages, htables, hy]

structure Moved (x y : TaskState η) (kt : Nat) (v : U64) : Prop where
  inv : ∃ label, MemInv y kt label
  current : y.kernel.currentTask = x.kernel.currentTask
  pages : ∃ f ∈ x.kernel.machine.frames.freeFrames, Moves x.kernel.currentTask (pageOf v) f x.pages y.pages
  frames : y.kernel.machine.frames = (cowRemap x.kernel.machine x.kernel.vmap v).frames
  locked : ∀ f, x.kernel.machine.frames.bit f = true → y.kernel.machine.frames.bit f = true

omit [HeapSource η] in
theorem MemInv.fault (h : MemInv x kt label) {s : Machine Pmm}
    (hframes : Served x.kernel.machine (cowRemap x.kernel.machine x.kernel.vmap v))
    (hcall : exceptionHandle x.kernel.machine x.kernel.vmap EXCEPTION_PF v = some (.returned s))
    (hy : y = { x with kernel := { x.kernel with machine := s } }) : Moved x y kt v := by
  obtain ⟨htable, hvmap⟩ := h.table
  obtain ⟨hv, hp, hcow⟩ := exceptionHandle_returned hcall
  have hframes' := cowCopyOnWrite_frames hp hcow
  have hbound := h.spaces.backed.forest.bound _ _ (h.spaces.table _ _ htable)
  rw [hvmap, pagingGet_lookup hbound, lookup_of_page pageOf_pageStart] at hp
  rw [hvmap] at hframes hcow
  have huser : kernelHalf v = false := kernelHalf_user (Nat.lt_of_le_of_lt hv (by decide))
  obtain ⟨s', f, new, label', hc, hspaces, hmoves⟩ := h.spaces.cow htable rfl huser hp hframes
  obtain rfl : s = s' := congrArg Prod.snd (Option.some.inj (hcow.symm.trans hc.call))
  obtain ⟨hinv, hpages, hcurrent⟩ := h.machine hspaces hc.cr3 hy
  refine ⟨⟨label', hinv⟩, hcurrent, ⟨f, hc.taken.1, ?_⟩, hy ▸ hframes', fun g hg => ?_⟩
  · rw [hpages]
    exact hmoves
  · rw [hy]
    show s.frames.bit g = true
    rw [hc.answers.bits, hg, Bool.or_true]

omit [HeapSource η] in
theorem MemInv.read (h : MemInv x kt label) (hv : v.toNat < 2 ^ 47) :
    readByte x.kernel.machine.mem x.kernel.machine.root v = x.pages.view x.kernel.currentTask (pageOf v) (pageOffset v) :=
  h.spaces.read h.table.1 (kernelHalf_user hv)

omit [HeapSource η] in
theorem MemInv.write (h : MemInv x kt label) (hv : v.toNat < 2 ^ 47) {a : Nat}
    (hwrite : mmuWrite x.kernel.machine.mem x.kernel.machine.root v = some a) :
    MemInv (x.store a b) kt label ∧
      ∃ f, Stores x.kernel.currentTask (pageOf v) (pageOffset v) b f x.pages (x.store a b).pages := by
  obtain ⟨htable, -⟩ := h.table
  have huser := kernelHalf_user hv
  have hhuge := h.spaces.backed.windows _ v (h.spaces.table _ _ htable) (not_inWindow_user huser)
  obtain ⟨hp, hw, rfl⟩ := mmuWrite_some hhuge hwrite
  obtain ⟨hspaces, hstores⟩ := h.spaces.write htable huser hp hw b
  obtain ⟨hinv, hpages, -⟩ := h.machine hspaces rfl rfl
  refine ⟨hinv, frameOf (lookup x.kernel.machine.mem x.kernel.machine.root v), ?_⟩
  rw [TaskState.store, hpages]
  exact hstores

-- ---------------------------------------------------------------------------
-- Writes through new tables
-- ---------------------------------------------------------------------------

theorem mmuWriteFrom_link {m : Mem} {level c : Nat} {flags : U64} (hc : c < frameLimit) (hf : LinkFlags flags)
    (hw : flags.getLsbD 1 = true) (h : tableRead m n (tableIndex v (level + 1)) = linkEntry c flags) :
    mmuWriteFrom m v (level + 1) n = mmuWriteFrom m v level c := by
  have hread : entryAt m n (vaddrToIndex v (level + 1)) = linkEntry c flags := h
  obtain ⟨hp, hh, hframe⟩ := nextTable_eq_some.mp (nextTable_linkEntry hc hf)
  have hwrite : writable (linkEntry c flags) = true := by
    rw [writable_eq, linkEntry, getLsbD_frame_or (by decide), hw]
  rw [mmuWriteFrom, hread]
  simp only [hp, hh, hwrite, hframe, Bool.and_self, Bool.not_true, Bool.false_eq_true, if_false]

theorem mmuWriteFrom_congr {m m' : Mem} (hf : Forest kt m label)
    (hread : ∀ r l i, label r = some l → tableRead m' r i = tableRead m r i) :
    ∀ {level n : Nat} {l : Label}, label n = some l → l.depth + level = 3 →
      mmuWriteFrom m' v level n = mmuWriteFrom m v level n
  | 0, n, l, hn, _ => by
    have he : entryAt m' n (vaddrToIndex v 0) = entryAt m n (vaddrToIndex v 0) := hread n l (tableIndex v 0) hn
    rw [mmuWriteFrom, mmuWriteFrom, he]
  | level + 1, n, l, hn, hd => by
    have he : entryAt m' n (vaddrToIndex v (level + 1)) = entryAt m n (vaddrToIndex v (level + 1)) :=
      hread n l (tableIndex v (level + 1)) hn
    rw [mmuWriteFrom, mmuWriteFrom, he]
    split
    · rfl
    next hpw =>
      split
      · rfl
      next hsmall =>
        have hp : present (entryAt m n (vaddrToIndex v (level + 1))) = true := by
          by_contra hp
          simp [hp] at hpw
        have hnext : nextTable (tableRead m n (tableIndex v (level + 1))) =
            some (frameOf (entryAt m n (vaddrToIndex v (level + 1)))) :=
          nextTable_eq_some.mpr ⟨hp, Bool.eq_false_iff.mpr hsmall, rfl⟩
        have hlabel := hf.labelled n l _ _ hn (by omega) hnext
        have hdepth := Label.depth_step kt l (tableIndex v (level + 1))
        exact mmuWriteFrom_congr hf hread hlabel (by omega)

theorem mmuWrite_new_tables {s : Machine Pmm} {paddr : U64} (hn : n < frameLimit) (hu : s.frames.Untouched)
    (hroom : s.frames.lastFree + 3 ≤ s.frames.frames) (hreach : s.frames.frames ≤ frameLimit) (hbit : s.frames.bit n = true)
    (hv : v < VADDR_HIGHER) (hp : present (tableRead s.mem n (tableIndex v 3)) = false) :
    ∃ a, mmuWrite (pagingMap s (framePtr n) v paddr 7).mem n v = some a := by
  obtain ⟨c, hc⟩ : ∃ c, c = s.frames.lastFree := ⟨_, rfl⟩
  rw [← hc] at hroom
  have hne : ∀ i < 3, n ≠ c + i := fun i hi e => by
    have hfree := hu.free (c + i) (by omega) (by omega)
    rw [← e, hbit] at hfree
    cases hfree
  have hne₀ : n ≠ c := hne 0 (by decide)
  have hne₁ := hne 1 (by decide)
  have hne₂ := hne 2 (by decide)
  have hframes := hu.nextFrames_three (hc ▸ hroom)
  rw [← hc] at hframes
  have hflags : LinkFlags (newTableFlags v) := linkFlags_new
  have hwrite : (newTableFlags v).getLsbD 1 = true := by
    rw [newTableFlags, if_pos hv]
    decide
  have hb₀ : c < frameLimit := by omega
  have hb₁ : c + 1 < frameLimit := by omega
  have hb₂ : c + 2 < frameLimit := by omega
  rw [pagingMap_new_tables hn hframes ⟨hb₀, hb₁, hb₂⟩ (by simp; omega) hp, mmuWrite]
  obtain ⟨m, hm⟩ : ∃ m, m = writeEntry (attach (attach (attach s.mem n (tableIndex v 3) c (newTableFlags v))
      c (tableIndex v 2) (c + 1) (newTableFlags v)) (c + 1) (tableIndex v 1) (c + 2) (newTableFlags v))
      (c + 2) (tableIndex v 0) (paddr ||| (7 : BitVec 8).setWidth 64 ||| PAGING_PRESENT) := ⟨_, rfl⟩
  have h₃ : tableRead m n (tableIndex v 3) = linkEntry c (newTableFlags v) := by
    simp [hm, tableRead_writeEntry, tableRead_attach, hne₀, hne₁, hne₂]
  have h₂ : tableRead m c (tableIndex v 2) = linkEntry (c + 1) (newTableFlags v) := by
    simp [hm, tableRead_writeEntry, tableRead_attach]
  have h₁ : tableRead m (c + 1) (tableIndex v 1) = linkEntry (c + 2) (newTableFlags v) := by
    simp [hm, tableRead_writeEntry, tableRead_attach]
  obtain ⟨e, he⟩ : ∃ e, e = paddr ||| (7 : BitVec 8).setWidth 64 ||| PAGING_PRESENT := ⟨_, rfl⟩
  have h₀ : tableRead m (c + 2) (tableIndex v 0) = e := by simp [hm, he, tableRead_writeEntry]
  have hleaf : present e = true ∧ writable e = true := by
    have hbit : ((7 : BitVec 8).setWidth 64).getLsbD 1 = true := by decide
    refine ⟨he ▸ present_leaf, ?_⟩
    rw [he, writable_eq, BitVec.getLsbD_or, BitVec.getLsbD_or, hbit, Bool.or_true, Bool.true_or]
  refine ⟨0x1000 * frameOf e + v.toNat % 0x1000, ?_⟩
  rw [← hm, mmuWriteFrom_link hb₀ hflags hwrite h₃, mmuWriteFrom_link hb₁ hflags hwrite h₂,
    mmuWriteFrom_link hb₂ hflags hwrite h₁, mmuWriteFrom]
  change (if present (tableRead m (c + 2) (tableIndex v 0)) && writable (tableRead m (c + 2) (tableIndex v 0)) then
    some (0x1000 * frameOf (tableRead m (c + 2) (tableIndex v 0)) + _) else none) = _
  rw [h₀, hleaf.1, hleaf.2]
  rfl

-- ---------------------------------------------------------------------------
-- Steps that can be taken
-- ---------------------------------------------------------------------------

structure Spare (s : Machine Pmm) (count : Nat) : Prop where
  untouched : s.frames.Untouched
  room : s.frames.lastFree + count ≤ s.frames.frames

theorem Spare.enough {s : Machine Pmm} {c count : Nat} (h : Spare s count) (hc : c ≤ count) : Enough s c :=
  (h.untouched.requests (Nat.le_trans (Nat.add_le_add_left hc _) h.room)).1

theorem Spare.take {s s' : Machine Pmm} {c bound rest : Nat} (h : Spare s (bound + rest)) (hc : c ≤ bound)
    (hframes : s'.frames = afterFrames s.frames c) : Spare s' rest := by
  have hroom := h.room
  obtain ⟨-, hu, hhint, hlen⟩ := h.untouched.requests (n := c) (by omega)
  rw [← hframes] at hu hhint hlen
  exact ⟨hu, by omega⟩

/-- What no frame in use holds is zero. -/
def FreeZero (s : Machine Pmm) : Prop := ∀ a, s.frames.bit (a / 0x1000) = false → s.mem a = 0

theorem FreeZero.staleFree {s : Machine Pmm} (hzero : FreeZero s) (h : Backed kt s label) (hn : label n = some ⟨n, []⟩)
    (henough : Enough s (copyCount s n)) : StaleFree s.mem (copyPlan s n) := by
  obtain ⟨d, -, -, -, ha, -, htaken⟩ := h.copyDone hn henough
  intro z hz _ i _
  obtain ⟨p, hp, hframe⟩ := List.mem_map.mp (htaken _ (List.mem_cons_of_mem _ hz))
  have hfree := (ha.free p (List.mem_reverse.mpr hp)).2
  rw [hframe] at hfree
  have hread : tableRead s.mem z.2 i = 0 := Mem.read64_zero fun a hle hlt => hzero a (by
    have hi := i.isLt
    have hdiv : a / 0x1000 = z.2 := by omega
    rwa [hdiv])
  rw [hread]
  rfl

theorem MemInv.can_fork (h : MemInv x kt label) (rest : Nat) (hspare : Spare x.kernel.machine (1 + maxTables 4 + rest))
    (hzero : FreeZero x.kernel.machine) (hfresh : ∀ q ∈ x.created, Apart (newTask x.kernel) q) (frame : U64) :
    ∃ y, MemStep x (.fork (newTask x.kernel)) y ∧ Shared x y kt (newTask x.kernel) ∧
      y.created = newTask x.kernel :: x.created ∧ Spare y.kernel.machine rest := by
  obtain ⟨htable, hvmap⟩ := h.table
  have hn := h.spaces.table _ _ htable
  have hcount : copyCount x.kernel.machine x.kernel.machine.root ≤ 1 + maxTables 4 := Nat.add_le_add_left length_subTables 1
  have henough := hspare.enough (Nat.le_trans hcount (Nat.le_add_right _ rest))
  obtain ⟨d, hptr, hdone, -⟩ := h.spaces.backed.copyDone hn henough
  have hd := (hdone.frames _ List.mem_cons_self).2
  have hr := reproduces_of_staleFree h.spaces.backed hn henough (hzero.staleFree h.spaces.backed hn henough) hd hptr
  have hnew : newVmap x.kernel = pagingCopy x.kernel.machine (framePtr x.kernel.machine.root) := congrArg (pagingCopy _) hvmap
  obtain ⟨y, hy⟩ : ∃ y : TaskState η, y = ⟨(syscallFork x.kernel frame).1, newTask x.kernel :: x.created⟩ := ⟨_, rfl⟩
  have henough' : Enough x.kernel.machine (copyCount x.kernel.machine (frameOf x.kernel.vmap)) := by rwa [← h.root]
  have hcopy : Reproduces x.kernel.machine.mem (newVmap x.kernel).2.mem (frameOf x.kernel.vmap)
      (frameOf (newVmap x.kernel).1) := by
    rwa [← h.root, hnew, hptr, frameOf_framePtr hd]
  have hshared := h.fork hfresh henough' hcopy hy
  exact ⟨y, hy ▸ .fork x frame hfresh henough' hcopy, hshared, by rw [hy], hspare.take hcount hshared.frames⟩

theorem MemInv.can_switch (h : MemInv x kt label) (hq : q ∈ x.created) :
    ∃ y, MemStep x (.switch q) y ∧ MemInv y kt label ∧ y.pages = x.pages ∧ y.kernel.currentTask = q ∧
      y.created = x.created ∧ y.kernel.machine.frames = x.kernel.machine.frames := by
  obtain ⟨k, hk⟩ : ∃ k : Kernel Pmm η, k = { x.kernel with
    currentTask := q, machine := { x.kernel.machine with cr3 := x.kernel.get q .vmap - VADDR_HIGHER } } := ⟨_, rfl⟩
  have hcurrent : k.currentTask = q := by rw [hk]
  have hmachine : k.machine = { x.kernel.machine with cr3 := x.kernel.get k.currentTask .vmap - VADDR_HIGHER } := by
    rw [hcurrent, hk]
  have hvmaps : ∀ u ∈ x.created, k.get u .vmap = x.kernel.get u .vmap := fun u _ => by
    rw [hk]
    rfl
  have hstep := MemStep.switch x k (hcurrent ▸ hq) hmachine hvmaps
  obtain ⟨hinv, hpages⟩ := h.switch (hcurrent ▸ hq) hmachine hvmaps rfl
  rw [hcurrent] at hstep
  refine ⟨_, hstep, hinv, hpages, hcurrent, rfl, ?_⟩
  show k.machine.frames = _
  rw [hmachine]

theorem MemInv.can_fault (h : MemInv x kt label) {f : Nat} (rest : Nat) (hv : v.toNat ≤ lastUserPtr)
    (hpage : x.pages.map x.kernel.currentTask (pageOf v) = some (f, false))
    (hspare : Spare x.kernel.machine (7 + rest)) :
    ∃ y, MemStep x (.fault v) y ∧ Moved x y kt v ∧ y.created = x.created ∧ Spare y.kernel.machine rest := by
  obtain ⟨htable, hvmap⟩ := h.table
  have huser : kernelHalf v = false := kernelHalf_user (Nat.lt_of_le_of_lt hv (by decide))
  have hn := h.spaces.table _ _ htable
  obtain ⟨e, he⟩ : ∃ e, e = lookup x.kernel.machine.mem x.kernel.machine.root v := ⟨_, rfl⟩
  have hleaf : leafPage e = some (f, false) := by rw [he, ← sharing_map htable huser]; exact hpage
  obtain ⟨hp, hw⟩ : present e = true ∧ writable e = false := by
    unfold leafPage at hleaf
    split at hleaf
    next hp => exact ⟨hp, congrArg Prod.snd (Option.some.inj hleaf)⟩
    · cases hleaf
  obtain ⟨c, hc, ha⟩ := cowRemap_allocates x.kernel.machine x.kernel.vmap v
  have hserved : Served x.kernel.machine (cowRemap x.kernel.machine x.kernel.vmap v) := by
    have hroom := hspare.room
    exact (ha.served_untouched hspare.untouched (by omega)).1
  obtain ⟨s, g, new, label', hcow⟩ := cow_call h.spaces.backed hn rfl huser (he ▸ hp) (hvmap ▸ hserved)
  have hcall : exceptionHandle x.kernel.machine x.kernel.vmap EXCEPTION_PF v = some (.returned s) := by
    rw [exceptionHandle, if_pos rfl, if_pos (ptrIsUser_iff.mpr hv), hvmap, hcow.call]
    rfl
  have hfault : mmuWrite x.kernel.machine.mem x.kernel.machine.root v = none := by
    by_contra hno
    obtain ⟨a, ha⟩ := Option.ne_none_iff_exists'.mp hno
    obtain ⟨-, hwrite, -⟩ := mmuWrite_some (h.spaces.backed.windows _ v hn (not_inWindow_user huser)) ha
    rw [← he, hw] at hwrite
    cases hwrite
  have hmoved := h.fault hserved hcall rfl
  exact ⟨_, .fault x s v hfault hserved hcall, hmoved, rfl, hspare.take hc (hmoved.frames.trans ha.frames)⟩

/-- The current task forks, and it and its child write to page `v`: both have
a frame of their own then, and the old one is nobody's. -/
theorem MemInv.both_fault (h : MemInv x kt label) {f : Nat} {w : Bool} (hv : v.toNat ≤ lastUserPtr)
    (hpage : x.pages.map x.kernel.currentTask (pageOf v) = some (f, w))
    (honly : ∀ u r w, x.pages.map u r = some (f, w) → u = x.kernel.currentTask ∧ r = pageOf v)
    (hspare : Spare x.kernel.machine (1 + maxTables 4 + 14)) (hzero : FreeZero x.kernel.machine)
    (hc : newTask x.kernel = child) (hfresh : ∀ q ∈ x.created, Apart child q) :
    ∃ y, Trace MemStep x [.fork child, .fault v, .switch child, .fault v] y ∧ (∃ label', MemInv y kt label') ∧
      y.kernel.currentTask = child ∧
      (∀ o, y.pages.view child (pageOf v) o = x.pages.view x.kernel.currentTask (pageOf v) o) ∧
      y.kernel.machine.frames.bit f = true ∧ ¬ y.pages.Mapped f := by
  have hne : child ≠ x.kernel.currentTask := (hfresh _ h.current).ne
  -- the fork
  obtain ⟨x₁, hstep₁, ⟨⟨label₁, h₁⟩, hcurrent₁, hforks, -, hlocked₁⟩, hcreated₁, hspare₁⟩ :=
    h.can_fork 14 hspare hzero (hc ▸ hfresh) 0
  rw [hc] at hstep₁ hforks hcreated₁
  have hparent₁ : x₁.pages.map x₁.kernel.currentTask (pageOf v) = some (f, false) := by
    rw [hcurrent₁, hforks.kept, hpage]
    rfl
  have hchild₁ : x₁.pages.map child (pageOf v) = some (f, false) := by
    rw [hforks.copy, hpage]
    rfl
  -- the parent's fault
  obtain ⟨x₂, hstep₂, ⟨⟨label₂, h₂⟩, hcurrent₂, ⟨g₁, -, hmoves₁⟩, -, hlocked₂⟩, hcreated₂, hspare₂⟩ :=
    h₁.can_fault 7 hv hparent₁ hspare₁
  rw [hcurrent₁] at hmoves₁
  -- the switch
  obtain ⟨x₃, hstep₃, h₃, hpages₃, hcurrent₃, hcreated₃, hframes₃⟩ :=
    h₂.can_switch (q := child) (by rw [hcreated₂, hcreated₁]; exact List.mem_cons_self)
  have hchild₃ : x₃.pages.map x₃.kernel.currentTask (pageOf v) = some (f, false) := by
    rw [hcurrent₃, hpages₃, hmoves₁.others _ _ (.inl hne), hchild₁]
  have honly₃ : ∀ u r w, x₃.pages.map u r = some (f, w) → u = child ∧ r = pageOf v := by
    intro u r w hu
    rw [hpages₃] at hu
    rcases hmoves₁.origin hu with ⟨-, -, rfl, -⟩ | ⟨hother, hu⟩
    · exact absurd ⟨_, _, _, hparent₁⟩ hmoves₁.fresh
    · by_cases huc : u = child
      · rw [huc, hforks.copy, protect_eq_some] at hu
        obtain ⟨-, w', hu⟩ := hu
        exact ⟨huc, (honly _ _ _ hu).2⟩
      · by_cases hup : u = x.kernel.currentTask
        · rw [hup, hforks.kept, protect_eq_some] at hu
          obtain ⟨-, w', hu⟩ := hu
          exact absurd ((honly _ _ _ hu).2) (hother.resolve_left fun hn => hn hup)
        · rw [hforks.others u r huc hup] at hu
          exact absurd (honly _ _ _ hu).1 hup
  -- the child's fault
  obtain ⟨x₄, hstep₄, ⟨hinv₄, hcurrent₄, ⟨g₂, -, hmoves₂⟩, -, hlocked₄⟩, -, -⟩ :=
    h₃.can_fault 0 hv hchild₃ ⟨hframes₃ ▸ hspare₂.untouched, hframes₃ ▸ hspare₂.room⟩
  rw [hcurrent₃] at hmoves₂ hcurrent₄
  have hbit : x.kernel.machine.frames.bit f = true := (h.spaces.locked ⟨_, _, _, hpage⟩).1
  refine ⟨x₄, (((Trace.single hstep₁).snoc hstep₂).snoc hstep₃).snoc hstep₄, hinv₄, hcurrent₄, fun o => ?_, ?_, ?_⟩
  · rw [hmoves₂.view, hpages₃, hmoves₁.view, hforks.view, Function.update_self]
  · exact hlocked₄ f (hframes₃ ▸ hlocked₂ f (hlocked₁ f hbit))
  · exact hmoves₂.unmapped (fun e => hmoves₂.fresh (e ▸ ⟨_, _, _, hchild₃⟩)) honly₃

end ShedOS.Task
