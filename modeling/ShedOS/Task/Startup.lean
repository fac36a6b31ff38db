import ShedOS.Heap.Start
import ShedOS.Memory.BootKeeps
import ShedOS.Task.Boot

/-!
# From the memory map to the first program

`paging_initialize` makes `kernel_table` over what the boot loader left, and
`task_create` starts the module that the loader put into memory, under a copy of
that table.
-/

namespace ShedOS.Task

open Memory Syscall Interrupts Transition

variable {η : Type} {K : Kernel Pmm η} {s s' : Machine Pmm} {mmap : List MmapEntry} {label : Labels}
  {k size a : Nat} {phoff task elf e : U64} {headers : List Phdr} {m m' : Machine Pmm}

-- ---------------------------------------------------------------------------
-- The module
-- ---------------------------------------------------------------------------

def higher (a : Nat) : U64 := VADDR_HIGHER + BitVec.ofNat 64 a

/-- An image that the boot loader put at `a`, in frames that the memory map does
not count as free, and in the reach of the direct map. -/
structure LoaderModule (s : Machine Pmm) (mmap : List MmapEntry) (a size : Nat) (phoff : U64) (headers : List Phdr) :
    Prop where
  image : ElfImage s (fun _ => none) (higher a) size phoff headers
  place : ∀ j < size, mmu s.mem s.root (higher a + BitVec.ofNat 64 j) = some (a + j)
  mapped : ∀ j < size, a + j < 0x100000000 ∨ Memory.Covered mmap (a + j)

/-- A segment for the user half, with all that the loader reads of it in the image. -/
structure InImage (size : Nat) (ph : Phdr) : Prop where
  user : ph.InUser
  pos : 0 < ph.pMemsz.toNat
  filesz : ph.pFilesz.toNat ≤ ph.pMemsz.toNat
  inside : ph.pOffset.toNat + ph.pMemsz.toNat ≤ size

theorem higher_add (a j : Nat) : higher a + BitVec.ofNat 64 j = higher (a + j) := by
  rw [higher, higher, BitVec.ofNat_add, BitVec.add_assoc]

theorem LoaderModule.locked (h : LoaderModule s mmap a size phoff headers) {j : Nat} (hj : j < size) :
    s.frames.bit ((a + j) / 0x1000) = true := by
  obtain ⟨b, hb, hbit, -⟩ := h.image.bytes.inUse j hj
  obtain rfl := Option.some.inj ((h.place j hj).symm.trans hb)
  exact hbit

-- ---------------------------------------------------------------------------
-- Behind paging_initialize
-- ---------------------------------------------------------------------------

structure Before (s : Machine Pmm) (mmap : List MmapEntry) (s' : Machine Pmm) : Prop where
  map : Mappable mmap
  init : pagingInitialize s mmap = some s'
  none : s.handed = []
  walled : s.frames.Walled
  reach : s.frames.frames ≤ frameLimit
  served : Served s s'

theorem Before.answers (h : Before s mmap s') : Answers s.frames s'.frames s'.handed := by
  obtain ⟨c, hframes, hhanded, -⟩ := pagingInitialize_answers h.init
  have ha := nextFrames_pmm h.walled fun h0 => h.served _ hhanded (List.mem_reverse.mpr h0)
  rw [h.none, List.append_nil] at hhanded
  rw [← hframes, ← hhanded] at ha
  exact ha

theorem Before.not_handed (h : Before s mmap s') {f : Nat} (hf : s.frames.bit f = true) :
    f ∉ s'.handed.map frameNo := fun hmem => by
  obtain ⟨p, hp, rfl⟩ := List.mem_map.mp hmem
  exact absurd hf (Bool.eq_false_iff.mp (h.answers.free p hp).2)

/-- `kernel_table` is in use, maps nothing in the user half, and shows memory as
it was where the loader had used it. -/
structure Booted (k : Nat) (s : Machine Pmm) (mmap : List MmapEntry) (s' : Machine Pmm) (label : Labels) : Prop where
  backed : Backed k s' label
  root : s'.root = k
  empty : UserEmpty s' k
  shows : ∀ b, b < 0x100000000 ∨ Memory.Covered mmap b → mmu s'.mem k (higher b) = some b
  bytes : ∀ b, s.frames.bit (b / 0x1000) = true → s'.mem b = s.mem b
  locked : ∀ f, s.frames.bit f = true → s'.frames.bit f = true ∧ label f = none

theorem Before.booted (h : Before s mmap s') : ∃ k label, Booted k s mmap s' label := by
  have hd := h.answers.distinct h.walled h.reach
  obtain ⟨k, label, hstart⟩ := Heap.heapStart_boot h.map.ends h.init h.none h.walled h.reach h.served
  obtain ⟨k', label', hc⟩ := pagingInitialize_kept h.map.ends h.init hd
  obtain ⟨k'', label'', hmap⟩ := pagingInitialize_bootMap h.map h.init hd
  have hk : frameOf s'.kernelTable = k := by
    rw [hstart.backed.kernelTable, frameOf_framePtr (hstart.backed.forest.bound k _ hstart.backed.forest.kernel)]
  obtain rfl : k = k' := by
    rw [← hk, hc.kernelTable, frameOf_framePtr (hc.forest.bound k' _ hc.forest.kernel)]
  have hidentity := hmap.identityMap h.map
  refine ⟨k, label, hstart.backed, hstart.root, fun i hi => ?_, fun b hb => ?_, fun b hb => ?_, fun f hf => ⟨?_, ?_⟩⟩
  · rw [hc.low i hi]
    rfl
  · rw [← hk]
    exact (hb.elim (hidentity.low b) (hidentity.entries b)).translates
  · exact hc.bytes b (h.not_handed hb)
  · rw [h.answers.bits, hf, Bool.or_true]
  · exact Option.eq_none_iff_forall_ne_some.mpr fun l hl => h.not_handed hf (hstart.backed.handed f l hl)

section Booted

variable (h : Booted k s mmap s' label) (hmod : LoaderModule s mmap a size phoff headers)

include h hmod

theorem Booted.reads {j : Nat} (hj : j < size) :
    readByte s'.mem s'.root (higher a + BitVec.ofNat 64 j) = readByte s.mem s.root (higher a + BitVec.ofNat 64 j) := by
  rw [readByte, readByte, hmod.place j hj, h.root, higher_add, h.shows _ (hmod.mapped j hj)]
  exact congrArg some (h.bytes _ (hmod.locked hj))

theorem Booted.inKernel : InKernel s' label (higher a) size where
  kernel := hmod.image.bytes.kernel
  inUse j hj := by
    refine ⟨a + j, ?_, h.locked _ (hmod.locked hj)⟩
    rw [h.root, higher_add, h.shows _ (hmod.mapped j hj)]

theorem Booted.ready :
    Ready k k s' label (higher a) size phoff headers where
  backed := h.backed
  current := by rw [h.root]; exact h.backed.forest.kernel
  parent := h.backed.forest.kernel
  empty := h.empty
  image := hmod.image.congr (fun _ hj => h.reads hmod hj) (h.inKernel hmod)

end Booted

-- ---------------------------------------------------------------------------
-- The program
-- ---------------------------------------------------------------------------

theorem FirstProgram.of_image [HeapSource η] {x : SystemState η} (h : FirstProgram x m task elf e headers)
    (hsame : ∀ ph ∈ headers, ph.pType = PT_LOAD → ∀ j < ph.pMemsz.toNat,
      readByte m.mem m.root (elf + ph.pOffset + BitVec.ofNat 64 j) =
        readByte m'.mem m'.root (elf + ph.pOffset + BitVec.ofNat 64 j)) : FirstProgram x m' task elf e headers where
  current := h.current
  tasks := h.tasks
  selectors := h.selectors
  view := ⟨h.view.context, h.view.mapped, fun happart ph hph hl j hj =>
    (h.view.loaded happart ph hph hl j hj).trans (hsame ph hph hl j hj)⟩
  runs := h.runs

theorem before_small (hu : s.frames.Untouched) (hempty : s.handed = []) (hreach : s.frames.frames ≤ frameLimit)
    (hroom : s.frames.lastFree + 257 ≤ s.frames.frames) :
    ∃ s', Before s [] s' ∧ s'.frames.Untouched ∧ s'.frames.lastFree = s.frames.lastFree + 257 ∧
      s'.frames.frames = s.frames.frames := by
  obtain ⟨s', hinit⟩ := pagingInitialize_returns (s := s) directMapped_nil
  obtain ⟨c, hframes, hhanded, hc⟩ := pagingInitialize_answers hinit
  obtain ⟨n, hn⟩ : ∃ n, n = 257 + c := ⟨_, rfl⟩
  have hn257 : n = 257 := by rw [hn, hc rfl]
  rw [← hn] at hframes hhanded
  obtain ⟨h0, hu', hhint, hlen⟩ := hu.requests (n := n) (by omega)
  rw [← hframes] at hu' hhint hlen
  refine ⟨s', ⟨⟨fun _ he => (by cases he), fun _ he => (by cases he)⟩, hinit, hempty, hu.walled, hreach,
    fun new hnew hmem => ?_⟩, hu', by rw [hhint, hn257], hlen⟩
  rw [hempty, List.append_nil] at hnew hhanded
  rw [hnew] at hhanded
  exact h0 (List.mem_reverse.mp (hhanded ▸ hmem))

end ShedOS.Task
