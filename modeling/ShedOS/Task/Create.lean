import ShedOS.Memory.CowEffect
import ShedOS.Memory.VmmRelease
import ShedOS.Task.LoadElf
import ShedOS.Task.RunQueue

/-!
# task_create

What a new task finds in its user half, and what the loader does to the kernel.
-/

namespace ShedOS.Task

open Bytes Layout Loops Memory

variable {s s₀ s' t : Machine Pmm} {label label₀ label' : Labels} {m m' : Mem} {k n p i count size : Nat}
  {v w elf phdr phoff vmap : U64} {ph : Phdr} {headers : List Phdr} {η : Type} [HeapSource η] {K K' : Kernel Pmm η}

-- ---------------------------------------------------------------------------
-- The steps
-- ---------------------------------------------------------------------------

def stackPage : U64 := addrPageAlignDown 0x7ffffffffff0

theorem kernelHalf_stackPage : kernelHalf stackPage = false := by decide

theorem loadElf_eq (himage : ElfImage s label elf size phoff headers) :
    loadElf s vmap elf = (loadSegments vmap elf (elf + phoff) 0x10000 0 s).map fun s =>
      vmmRequestAt s vmap stackPage 1 segmentFlags := by
  rw [loadElf, himage.start]
  simp only [Option.bind_eq_bind, Option.bind_some]
  cases loadSegments vmap elf (elf + phoff) 0x10000 0 s <;> rfl

def loopStart (s : Machine Pmm) (parent : U64) : Machine Pmm :=
  pagingWriteCr3 (pagingCopy s parent).2 (pagingCopy s parent).1

theorem taskCreate_machine {parent task : U64} (h : taskCreate K parent elf = some (task, K')) :
    loadElf (loopStart K.machine parent) (pagingCopy K.machine parent).1 elf = some K'.machine := by
  rw [taskCreate] at h
  simp only [Option.bind_eq_bind, Option.bind_eq_some_iff] at h
  obtain ⟨machine, hload, e, -, h⟩ := h
  obtain ⟨-, rfl⟩ := Prod.mk.inj (Option.some.inj h)
  exact hload

theorem taskCreate_returns {parent e : U64}
    (hload : loadElf (loopStart K.machine parent) (pagingCopy K.machine parent).1 elf = some s')
    (hentry : loadField s' elf64Ehdr elf .eEntry = some e) :
    ∃ task K', taskCreate K parent elf = some (task, K') ∧ K'.machine = s' := by
  refine ⟨(HeapSource.malloc K.heap (BitVec.ofNat 64 structTask.size)).1, ?_⟩
  rw [taskCreate]
  simp only [Option.bind_eq_bind, Option.bind_eq_some_iff]
  refine ⟨_, ⟨s', hload, e, hentry, rfl⟩, rfl⟩

-- ---------------------------------------------------------------------------
-- The whole of loadElf
-- ---------------------------------------------------------------------------

/-- What `task_create` is called with: a parent that maps nothing in the user
half, and an image. -/
structure Ready (k p : Nat) (s : Machine Pmm) (label : Labels) (elf : U64) (size : Nat) (phoff : U64)
    (headers : List Phdr) : Prop where
  backed : Backed k s label
  current : label s.root = some ⟨s.root, []⟩
  parent : label p = some ⟨p, []⟩
  empty : UserEmpty s p
  image : ElfImage s label elf size phoff headers

/-- No request for a frame before the stack is answered with NULL. -/
structure LoopServed (s : Machine Pmm) (parent elf phoff : U64) (headers : List Phdr) : Prop where
  table : Served s (pagingCreateEmpty s).2
  segments : HeadersServed (pagingCopy s parent).1 elf (elf + phoff) headers 0 (loopStart s parent)

/-- And none for the stack. -/
structure TaskServed (s : Machine Pmm) (parent elf phoff : U64) (headers : List Phdr) : Prop
    extends LoopServed s parent elf phoff headers where
  stack : ∀ t, loadSegments (pagingCopy s parent).1 elf (elf + phoff) 0x10000 0 (loopStart s parent) = some t →
    Served t (vmmRequestAt t (pagingCopy s parent).1 stackPage 1 segmentFlags)

/-- The loop starts in `s₀`, on a new table in frame `n`. -/
structure Loop (k n p : Nat) (s : Machine Pmm) (label : Labels) (s₀ : Machine Pmm) (label₀ : Labels) (elf : U64)
    (size : Nat) (phoff : U64) (headers : List Phdr) : Prop extends Created k n s label s₀ label₀ where
  start : s₀ = loopStart s (framePtr p)
  vmap : (pagingCopy s (framePtr p)).1 = framePtr n
  image : ElfImage s₀ label₀ elf size phoff headers
  ne : n ≠ k

theorem Ready.loop (h : Ready k p s label elf size phoff headers) (hs : Served s (pagingCreateEmpty s).2) :
    ∃ n s₀ label₀, Loop k n p s label s₀ label₀ elf size phoff headers := by
  obtain ⟨n, label₀, hptr, hc⟩ := newSpace h.backed h.parent h.empty hs
  refine ⟨n, _, label₀, hc, ?_, hptr, hc.image h.backed h.current h.image, hc.ne h.backed⟩
  rw [loopStart, hptr]

theorem Ready.loopStart_frames (h : Ready k p s label elf size phoff headers) (hs : Served s (pagingCreateEmpty s).2) :
    (loopStart s (framePtr p)).frames = (pagingCreateEmpty s).2.frames := by
  rw [loopStart, writeCr3_frames, pagingCopy_empty h.backed h.parent h.empty hs]

theorem stack_request (h : UserMap k n s₀ label₀ s label)
    (hs : Served s (vmmRequestAt s (framePtr n) stackPage 1 segmentFlags)) :
    ∃ label', UserMap k n s₀ label₀ (vmmRequestAt s (framePtr n) stackPage 1 segmentFlags) label' ∧
      Gains n segmentFlags (fun w => pageOf w = pageOf stackPage) s.mem
        (vmmRequestAt s (framePtr n) stackPage 1 segmentFlags).mem := by
  have hone : ∀ i < 1, kernelHalf (rangePage stackPage i) = false := fun i hi => by
    obtain rfl := Nat.lt_one_iff.mp hi
    rw [rangePage_zero]
    exact kernelHalf_stackPage
  obtain ⟨label', h', hgains⟩ := request_user h hone hs
  refine ⟨label', h', hgains.toMaps.congr fun w => ⟨?_, fun he => ⟨0, Nat.one_pos, ?_⟩⟩, hgains.bytes⟩
  · rintro ⟨i, hi, he⟩
    obtain rfl := Nat.lt_one_iff.mp hi
    rwa [rangePage_zero] at he
  · rwa [rangePage_zero]

namespace Loop

variable (h : Loop k n p s label s₀ label₀ elf size phoff headers)

include h

theorem served (hs : LoopServed s (framePtr p) elf phoff headers) :
    HeadersServed (framePtr n) elf (elf + phoff) (headers.drop 0) 0 s₀ := by
  have hsegments := hs.segments
  rwa [h.vmap, ← h.start] at hsegments

theorem run : loadElf (loopStart s (framePtr p)) (pagingCopy s (framePtr p)).1 elf =
    (loadSegments (framePtr n) elf (elf + phoff) 0x10000 0 s₀).map fun s =>
      vmmRequestAt s (framePtr n) stackPage 1 segmentFlags := by
  rw [← h.start, h.vmap]
  exact loadElf_eq h.image

theorem stack (hs : TaskServed s (framePtr p) elf phoff headers)
    (hload : loadSegments (framePtr n) elf (elf + phoff) 0x10000 0 s₀ = some t) :
    Served t (vmmRequestAt t (framePtr n) stackPage 1 segmentFlags) := by
  have hstack := hs.stack
  rw [h.vmap, ← h.start] at hstack
  exact hstack t hload

variable (hs : TaskServed s (framePtr p) elf phoff headers)

include hs

theorem user (hu : ∀ ph ∈ headers, ph.pType = PT_LOAD → ph.InUser ∨ ph.Idle)
    (hload : loadElf (loopStart s (framePtr p)) (pagingCopy s (framePtr p)).1 elf = some s') :
    ∃ label', UserMap k n s₀ label₀ s' label' ∧
      Maps n segmentFlags (fun w => (∃ ph ∈ headers, ph.Covers w) ∨ pageOf w = pageOf stackPage) s₀.mem s'.mem := by
  rw [h.run] at hload
  obtain ⟨s₁, hs₁, rfl⟩ := Option.map_eq_some_iff.mp hload
  obtain ⟨label₁, h₁, -, hmaps⟩ := loop_user h.backed h.table h.root h.ne h.image (i := 0)
    h.toCreated.start (by rwa [List.drop_zero]) (h.served hs.toLoopServed) hs₁
  obtain ⟨label', h', hgains⟩ := stack_request h₁ (h.stack hs hs₁)
  rw [List.drop_zero] at hmaps
  exact ⟨label', h', hmaps.trans hgains.toMaps⟩

/-- The loader returns if the copies can read their sources, and then the user
half has them. -/
theorem loads (hall : ∀ ph ∈ headers, ph.pType = PT_LOAD → ph.InUser ∧ ph.pFilesz.toNat ≤ ph.pMemsz.toNat ∧
      InKernel s₀ label₀ (elf + ph.pOffset) ph.pMemsz.toNat) :
    ∃ s', loadElf (loopStart s (framePtr p)) (pagingCopy s (framePtr p)).1 elf = some s' ∧
      (headers.Pairwise Phdr.Apart → ∀ ph ∈ headers, ph.pType = PT_LOAD → ∀ j < ph.pMemsz.toNat,
        readByte s'.mem n (ph.pVaddr + BitVec.ofNat 64 j) =
          readByte s₀.mem n (elf + ph.pOffset + BitVec.ofNat 64 j)) := by
  obtain ⟨f, hf⟩ : ∃ f : Phdr → Nat → BitVec 8, f = fun ph j =>
    (readByte s₀.mem n (elf + ph.pOffset + BitVec.ofNat 64 j)).getD 0 := ⟨_, rfl⟩
  have hread : ∀ ph ∈ headers, ph.pType = PT_LOAD → ∀ j < ph.pMemsz.toNat,
      readByte s₀.mem n (elf + ph.pOffset + BitVec.ofNat 64 j) = some (f ph j) := fun ph hph hload j hj => by
    obtain ⟨-, -, hsrc⟩ := hall ph hph hload
    obtain ⟨a, ha, -⟩ := hsrc.inUse j hj
    have hx : readByte s₀.mem n (elf + ph.pOffset + BitVec.ofNat 64 j) = some (s₀.mem a) := by
      rw [readByte, ← h.root, ha]
      rfl
    simp only [hf, hx, Option.getD_some]
  have hserved := h.served hs.toLoopServed
  obtain ⟨s₁, hs₁, hbytes, -⟩ := loop_loads h.backed h.table h.root h.ne h.image (f := f) h.toCreated.start (Nat.zero_le _)
    (show headers.length < 0 + 0x10000 by rw [Nat.zero_add]; exact h.image.count) (by
      rw [List.drop_zero]
      intro ph hph hload
      obtain ⟨hu, hle, hsrc⟩ := hall ph hph hload
      refine ⟨hu, hle, fun s label hs j hj => ?_⟩
      have hsame := readByte_image h.backed h.table h.root h.ne hsrc hs hj
      rw [hs.root, h.root] at hsame
      rw [hsame, hread ph hph hload j hj])
    hserved
  rw [List.drop_zero] at hbytes
  obtain ⟨label₁, h₁, -⟩ := loop_user h.backed h.table h.root h.ne h.image h.toCreated.start
    (by rw [List.drop_zero]; exact fun ph hph hload => .inl (hall ph hph hload).1) hserved hs₁
  obtain ⟨-, -, hgains⟩ := stack_request h₁ (h.stack hs hs₁)
  refine ⟨_, h.run.trans (Option.map_eq_some_iff.mpr ⟨s₁, hs₁, rfl⟩), fun happart ph hph hload j hj => ?_⟩
  have hrange := (hall ph hph hload).1.memsz
  have hto := toNat_add_ofNat hrange (by decide) hj
  rw [hread ph hph hload j hj]
  exact hgains.bytes _ _ (kernelHalf_of_lt (by omega)) (hbytes happart ph hph hload j hj)

theorem entry (hu : ∀ ph ∈ headers, ph.pType = PT_LOAD → ph.InUser ∨ ph.Idle)
    (hload : loadElf (loopStart s (framePtr p)) (pagingCopy s (framePtr p)).1 elf = some s') :
    ∃ e, loadField s' elf64Ehdr elf .eEntry = some e := by
  obtain ⟨label', h', -⟩ := h.user hs hu hload
  obtain ⟨e, he⟩ := h.image.ehdr .eEntry
  have hnow := h.image.ehdr_congr (fun _ hj => readByte_image h.backed h.table h.root h.ne h.image.bytes h' hj) .eEntry
  exact ⟨e, hnow.trans he⟩

end Loop

/-- Frames to spare serve `task_create`. -/
theorem Ready.served (h : Ready k p s label elf size phoff headers)
    (hu : ∀ ph ∈ headers, ph.pType = PT_LOAD → ph.InUser ∨ ph.Idle) (henough : Enough s (1 + (requests headers + 4))) :
    TaskServed s (framePtr p) elf phoff headers := by
  have ha : Allocates 1 s (pagingCreateEmpty s).2 := ⟨rfl, rfl, rfl, rfl⟩
  obtain ⟨htable, hrest⟩ := henough.split ha (Nat.le_refl 1)
  obtain ⟨n, s₀, label₀, hloop⟩ := h.loop htable
  have hrest : Enough s₀ (requests headers + 4) := by rwa [Enough, hloop.start, h.loopStart_frames htable]
  have hsegments : HeadersServed (framePtr n) elf (elf + phoff) headers 0 s₀ :=
    headersServed_of_enough hloop.backed hloop.table hloop.root hloop.ne hloop.image List.drop_zero
      hloop.toCreated.start hu (hrest.mono (Nat.le_add_right _ _))
  refine ⟨⟨htable, ?_⟩, fun t ht => ?_⟩
  · rwa [hloop.vmap, ← hloop.start]
  · rw [hloop.vmap, ← hloop.start] at ht
    rw [hloop.vmap]
    obtain ⟨label₁, -, ⟨c, hc, ha⟩, -⟩ := loop_user hloop.backed hloop.table hloop.root hloop.ne hloop.image (i := 0)
      hloop.toCreated.start (by rwa [List.drop_zero]) hsegments ht
    obtain ⟨c', hc', ha'⟩ := vmmRequestAt_allocates t (framePtr n) stackPage segmentFlags 1
    rw [List.drop_zero] at hc
    exact (Enough.split (show Enough t (4 + 0) from (hrest.split ha hc).2) ha' hc').1

-- ---------------------------------------------------------------------------
-- An image in one page
-- ---------------------------------------------------------------------------

theorem InKernel.part {off len : Nat} (h : InKernel s label elf size) (hle : off + len ≤ size) :
    InKernel s label (elf + BitVec.ofNat 64 off) len := by
  have hat : ∀ j, elf + BitVec.ofNat 64 off + BitVec.ofNat 64 j = elf + BitVec.ofNat 64 (off + j) := fun j => by
    rw [BitVec.add_assoc, ← BitVec.ofNat_add]
  refine ⟨fun j hj => ?_, fun j hj => ?_⟩
  · rw [hat]
    exact h.kernel _ (by omega)
  · rw [hat]
    exact h.inUse _ (by omega)

/-- After the start, with the bytes `b` in a page of the kernel half and a table
`p` that maps nothing in the user half. -/
structure ImagePage (b : Nat → BitVec 8) (s : Machine Pmm) (k p f : Nat) (label : Labels) : Prop where
  backed : Backed k s label
  current : label s.root = some ⟨s.root, []⟩
  parent : label p = some ⟨p, []⟩
  empty : UserEmpty s p
  page : ∀ j < 0x1000, mmu s.mem s.root (kernelCopyVaddr + BitVec.ofNat 64 j) = some (0x1000 * f + j)
  inUse : s.frames.bit f = true
  noTable : label f = none
  read : ∀ j < 0x1000, s.mem (0x1000 * f + j) = b j
  enough : Enough s 32

theorem kernelHalf_copy_add {j : Nat} (hj : j < 0x1000) : kernelHalf (kernelCopyVaddr + BitVec.ofNat 64 j) = true := by
  have hhalf := pageOf_pageStart_add (v := kernelCopyVaddr) hj
  rw [pageStart_copy] at hhalf
  rw [kernelHalf_congr hhalf]
  exact kernelHalf_copy

theorem ImagePage.inKernel {b : Nat → BitVec 8} {f : Nat} (h : ImagePage b s k p f label) :
    InKernel s label kernelCopyVaddr 0x1000 where
  kernel j hj := kernelHalf_copy_add hj
  inUse j hj := by
    refine ⟨_, h.page j hj, ?_⟩
    rw [show (0x1000 * f + j) / 0x1000 = f by omega]
    exact ⟨h.inUse, h.noTable⟩

theorem imagePage (b : Nat → BitVec 8) : ∃ (s : Machine Pmm) (k p f : Nat) (label : Labels),
    ImagePage b s k p f label := by
  obtain ⟨s, k, r, label, h⟩ := smallStart
  have hroom := h.room
  have hcopy := not_inWindow_copy
  -- a page at the address for copies
  have hwindow := h.backed.windows r _ h.table hcopy
  have h₁ := h.backed.unmap h.table hwindow
  have habsent := (pagingUnmap_spec h.backed.forest h.table hwindow).lookup r kernelCopyVaddr h.table
  rw [if_pos (samePage_iff.mpr ⟨rfl, .inl rfl⟩)] at habsent
  have ha₁ := pagingUnmap_allocates s (framePtr r) kernelCopyVaddr
  obtain ⟨s₁, hs₁⟩ : ∃ s₁, s₁ = pagingUnmap s (framePtr r) kernelCopyVaddr := ⟨_, rfl⟩
  rw [← hs₁] at h₁ habsent ha₁
  obtain ⟨-, hu₁, hhint₁, hlen₁⟩ := ha₁.served_untouched h.untouched (by omega)
  have hroot₁ : s₁.root = r := by rw [Machine.root, ha₁.cr3]; exact h.root
  obtain ⟨c, hc, ha₂⟩ := vmmRequestPage_allocates s₁ (framePtr r) kernelCopyVaddr 3
  obtain ⟨hserved₂, hu₂, hhint₂, hlen₂⟩ := ha₂.served_untouched hu₁ (by omega)
  obtain ⟨f, new, label₂, hpage⟩ := vmmRequestPage_new h₁ h.table (by rw [habsent]; rfl) hserved₂
  obtain ⟨s₂, hs₂⟩ : ∃ s₂, s₂ = vmmRequestPage s₁ (framePtr r) kernelCopyVaddr 3 := ⟨_, rfl⟩
  rw [← hs₂] at ha₂ hu₂ hhint₂ hlen₂ hpage
  have hroot₂ : s₂.root = r := by rw [Machine.root, ha₂.cr3]; exact hroot₁
  -- its bytes
  obtain ⟨m, hm⟩ : ∃ m : Mem, m = fun a => if a / 0x1000 = f then b (a % 0x1000) else s₂.mem a := ⟨_, rfl⟩
  have hout : ∀ a, a / 0x1000 ≠ f → m a = s₂.mem a := fun a ha => by rw [hm]; exact if_neg ha
  have h₃ := hpage.backed.store hpage.noTable hout
  have hlookup : ∀ v, lookup m r v = lookup s₂.mem r v := fun v =>
    hpage.backed.forest.lookup_congr (hpage.keeps r _ h.table) (tableRead_outside hpage.noTable hout)
  obtain ⟨s₃, hs₃⟩ : ∃ s₃ : Machine Pmm, s₃ = { s₂ with mem := m } := ⟨_, rfl⟩
  have hmem₃ : s₃.mem = m := by rw [hs₃]
  have hframes₃ : s₃.frames = s₂.frames := by rw [hs₃]
  have hroot₃ : s₃.root = r := by rw [hs₃]; exact hroot₂
  rw [← hs₃] at h₃
  have hu₃ : s₃.frames.Untouched := hframes₃ ▸ hu₂
  -- a parent
  have ha₄ : Allocates 1 s₃ (pagingCreateEmpty s₃).2 := ⟨rfl, rfl, rfl, rfl⟩
  obtain ⟨hserved₄, hu₄, hhint₄, hlen₄⟩ := ha₄.served_untouched hu₃ (by rw [hframes₃]; omega)
  obtain ⟨p, label₄, -, hp⟩ := h₃.newRoot hserved₄
  obtain ⟨s₄, hs₄⟩ : ∃ s₄, s₄ = (pagingCreateEmpty s₃).2 := ⟨_, rfl⟩
  rw [← hs₄] at ha₄ hu₄ hhint₄ hlen₄ hp
  have hroot₄ : s₄.root = r := by rw [Machine.root, ha₄.cr3]; exact hroot₃
  have hr₃ := hpage.keeps r _ h.table
  have hr₄ := hp.keeps r _ hr₃
  have hfb : f < frameLimit := Nat.lt_of_lt_of_le hpage.free.1 h₁.reach
  have hbit₃ : s₃.frames.bit f = true := by rw [hframes₃, hpage.taken]
  have hfp : f ≠ p := fun e => by
    have hfree := hp.free.2
    rw [← e, hbit₃] at hfree
    contradiction
  have hentry : lookup s₄.mem r kernelCopyVaddr = dataEntry f 3 := by
    rw [hp.lookup r _ hr₃, hmem₃, hlookup, hpage.lookup r _ h.table, if_pos (samePage_iff.mpr ⟨rfl, .inl rfl⟩)]
  have hmmu : ∀ j < 0x1000, mmu s₄.mem s₄.root (kernelCopyVaddr + BitVec.ofNat 64 j) = some (0x1000 * f + j) := by
    intro j hj
    have hpageAddr := mmu_pageStart_add (hp.backed.windows r _ hr₄ hcopy) (by rw [hentry]; exact present_dataEntry) hj
    rwa [pageStart_copy, hentry, frameOf_dataEntry hfb, ← hroot₄] at hpageAddr
  refine ⟨s₄, k, p, f, label₄, hp.backed, hroot₄ ▸ hr₄, hp.table, fun i hi => ?_, hmmu, ?_, ?_, fun j hj => ?_, ?_⟩
  · rw [hp.slots, if_neg (Nat.not_le_of_lt hi)]
    rfl
  · rw [hp.bits, hbit₃, Bool.or_true]
  · cases hl : label₄ f with
    | none => rfl
    | some l =>
      rcases hp.fresh f l hl with hl | he
      · rw [hpage.noTable] at hl
        contradiction
      · exact absurd he hfp
  · have hdiv : (0x1000 * f + j) / 0x1000 = f := by omega
    have hmod : (0x1000 * f + j) % 0x1000 = j := by omega
    rw [hp.bytes _ (by rw [hdiv]; exact hfp), hmem₃, hm]
    simp only [hdiv, hmod, if_true]
  · exact (hu₄.requests (by rw [hlen₄, hhint₄, hframes₃]; omega)).1

def word (b : Nat → BitVec 8) (off : Nat) : (len : Nat) → BitVec (8 * len)
  | 0 => 0#0
  | len + 1 => word b (off + 1) len ++ b off

theorem loadVirtual_word {b : Nat → BitVec 8} {r : Nat} : ∀ {len off : Nat} {v : U64},
    (∀ i < len, readByte m r (v + BitVec.ofNat 64 i) = some (b (off + i))) → loadVirtual m r v len = some (word b off len)
  | 0, _, _, _ => rfl
  | len + 1, off, v, h => by
    have h0 := h 0 (Nat.succ_pos len)
    rw [BitVec.add_zero] at h0
    have hrest : loadVirtual m r (v + 1) len = some (word b (off + 1) len) := loadVirtual_word fun i hi => by
      rw [add_one_ofNat, h (i + 1) (Nat.succ_lt_succ hi), Nat.add_assoc, Nat.add_comm 1 i]
    rw [loadVirtual, hrest]
    simp only [Option.bind_eq_bind, Option.bind_some, h0]
    rfl

def field {F : Type} [DecidableEq F] (b : Nat → BitVec 8) (L : Packed F) (off : Nat) (f : F) : U64 :=
  (word b (off + L.offset f) (L.fieldSize f)).setWidth 64

structure OneHeader (b : Nat → BitVec 8) (ph : Phdr) : Prop where
  phoff : field b elf64Ehdr 0 .ePhoff = 64
  phnum : field b elf64Ehdr 0 .ePhnum = 1
  pType : field b elf64Phdr 64 .pType = ph.pType
  pOffset : field b elf64Phdr 64 .pOffset = ph.pOffset
  pVaddr : field b elf64Phdr 64 .pVaddr = ph.pVaddr
  pFilesz : field b elf64Phdr 64 .pFilesz = ph.pFilesz
  pMemsz : field b elf64Phdr 64 .pMemsz = ph.pMemsz

theorem loadField_page {F : Type} [DecidableEq F] {L : Packed F} {g : F} {b : Nat → BitVec 8} {off : Nat}
    (hread : ∀ j < 0x1000, readByte s.mem s.root (elf + BitVec.ofNat 64 j) = some (b j)) (hg : g ∈ L.map Prod.fst)
    (hfit : off + L.size ≤ 0x1000) : loadField s L (elf + BitVec.ofNat 64 off) g = some (field b L off g) := by
  have hend := Packed.offset_add_fieldSize_le hg
  have hword : loadVirtual s.mem s.root (elf + BitVec.ofNat 64 off + BitVec.ofNat 64 (L.offset g)) (L.fieldSize g) =
      some (word b (off + L.offset g) (L.fieldSize g)) := loadVirtual_word fun i hi => by
    rw [BitVec.add_assoc, BitVec.add_assoc, ← BitVec.ofNat_add, ← BitVec.ofNat_add, ← Nat.add_assoc]
    exact hread (off + L.offset g + i) (by omega)
  rw [loadField, hword]
  rfl

theorem OneHeader.image {b : Nat → BitVec 8} (hb : OneHeader b ph)
    (hread : ∀ j < 0x1000, readByte s.mem s.root (elf + BitVec.ofNat 64 j) = some (b j)) (hin : InKernel s label elf size)
    (hsize : 120 ≤ size) : ElfImage s label elf size 64 [ph] := by
  have hehdr : ∀ g, loadField s elf64Ehdr elf g = some (field b elf64Ehdr 0 g) := fun g => by
    have hg := loadField_page hread (mem_elf64Ehdr g) (show 0 + elf64Ehdr.size ≤ 0x1000 by decide)
    rwa [BitVec.add_zero] at hg
  have hphdr : ∀ g, loadField s elf64Phdr (elf + BitVec.ofNat 64 64) g = some (field b elf64Phdr 64 g) := fun g =>
    loadField_page hread (mem_elf64Phdr g) (by decide)
  refine ⟨hin, ?_, ?_, ?_, Nat.lt_of_lt_of_le Nat.one_lt_two (by decide), ?_, fun i hi => ?_⟩
  · rw [elf64Ehdr_size]
    omega
  · rw [hehdr, hb.phoff]
  · rw [hehdr, hb.phnum]
    rfl
  · rw [elf64Phdr_size]
    exact hsize
  · obtain rfl := Nat.lt_one_iff.mp hi
    have hat : elf + (64 : U64) + BitVec.ofNat 64 (0 * elf64Phdr.size) = elf + BitVec.ofNat 64 64 := by
      rw [Nat.zero_mul, BitVec.add_zero]
      rfl
    rw [hat]
    exact ⟨by rw [hphdr, hb.pType]; rfl, by rw [hphdr, hb.pOffset]; rfl, by rw [hphdr, hb.pVaddr]; rfl,
      by rw [hphdr, hb.pFilesz]; rfl, by rw [hphdr, hb.pMemsz]; rfl⟩

namespace ImagePage

variable {b : Nat → BitVec 8} {f : Nat} (h : ImagePage b s k p f label)

include h

theorem bytes {j : Nat} (hj : j < 0x1000) : readByte s.mem s.root (kernelCopyVaddr + BitVec.ofNat 64 j) = some (b j) := by
  rw [readByte, h.page j hj]
  exact congrArg some (h.read j hj)

theorem ready (hb : OneHeader b ph) {size : Nat} (hsize : 120 ≤ size) (hpage : size ≤ 0x1000) :
    Ready k p s label kernelCopyVaddr size 64 [ph] where
  backed := h.backed
  current := h.current
  parent := h.parent
  empty := h.empty
  image := by
    have hpart := h.inKernel.part (show 0 + size ≤ 0x1000 by omega)
    rw [BitVec.add_zero] at hpart
    exact hb.image (fun _ hj => h.bytes hj) hpart hsize

end ImagePage

def lowBytes (len : Nat) (x : U64) : List (BitVec 8) := (List.range len).map fun i => x.extractLsb' (8 * i) 8

def smallElf (vaddr filesz memsz : U64) : List (BitVec 8) :=
  List.replicate 32 0 ++ lowBytes 8 64 ++ List.replicate 16 0 ++ lowBytes 2 1 ++ List.replicate 6 0 ++
    lowBytes 4 PT_LOAD ++ lowBytes 4 6 ++ lowBytes 8 120 ++ lowBytes 8 vaddr ++ lowBytes 8 vaddr ++ lowBytes 8 filesz ++
    lowBytes 8 memsz ++ lowBytes 8 0x1000 ++ [1, 2, 3, 4]

def smallBytes (vaddr filesz memsz : U64) (j : Nat) : BitVec 8 :=
  if j = 0x800 then 1 else (smallElf vaddr filesz memsz).getD j 0

def smallPhdr (vaddr filesz memsz : U64) : Phdr := ⟨PT_LOAD, 120, vaddr, filesz, memsz⟩

theorem word_extract {b : Nat → BitVec 8} {x : U64} : ∀ {len off j : Nat},
    (∀ i < len, b (off + i) = x.extractLsb' (8 * (j + i)) 8) → word b off len = x.extractLsb' (8 * j) (8 * len)
  | 0, _, _, _ => BitVec.eq_of_getLsbD_eq fun i hi => absurd hi (by omega)
  | len + 1, off, j, h => by
    have hlow := h 0 (Nat.succ_pos len)
    have hhigh : word b (off + 1) len = x.extractLsb' (8 * (j + 1)) (8 * len) := word_extract fun i hi => by
      have hnext := h (i + 1) (Nat.succ_lt_succ hi)
      rwa [Nat.add_assoc, Nat.add_comm 1 i, Nat.add_assoc, Nat.add_comm 1 i]
    rw [word, hhigh, show off = off + 0 from rfl, hlow]
    refine BitVec.eq_of_getLsbD_eq fun i hi => ?_
    have hright : (x.extractLsb' (8 * j) (8 * (len + 1))).getLsbD i = (decide (i < 8 * (len + 1)) && x.getLsbD (8 * j + i)) :=
      BitVec.getLsbD_extractLsb' _ _ _ _
    rw [BitVec.getLsbD_append, BitVec.getLsbD_extractLsb', BitVec.getLsbD_extractLsb']
    refine Eq.trans ?_ hright.symm
    by_cases h8 : i < 8
    · simp [h8, show i < 8 * (len + 1) by omega]
    · simp [h8, show i - 8 < 8 * len by omega, show i < 8 * (len + 1) by omega,
        show 8 * (j + 1) + (i - 8) = 8 * j + i by omega]

theorem field_extract {F : Type} [DecidableEq F] {L : Packed F} {g : F} {b : Nat → BitVec 8} {off len : Nat} {x : U64}
    (hsize : L.fieldSize g = len) (hlt : x.toNat < 2 ^ (8 * len))
    (h : ∀ i < len, b (off + L.offset g + i) = x.extractLsb' (8 * i) 8) : field b L off g = x := by
  have hword : word b (off + L.offset g) len = x.extractLsb' (8 * 0) (8 * len) := word_extract fun i hi => by
    rw [Nat.zero_add]
    exact h i hi
  rw [field, hsize, hword]
  refine BitVec.eq_of_getLsbD_eq fun i hi => ?_
  rw [BitVec.getLsbD_setWidth, BitVec.getLsbD_extractLsb']
  by_cases hin : i < 8 * len
  · simp [hi, hin]
  · have hzero : x.getLsbD i = false :=
      Nat.testBit_lt_two_pow (Nat.lt_of_lt_of_le hlt (Nat.pow_le_pow_right (by decide) (Nat.le_of_not_lt hin)))
    simp [hin, hzero]

theorem oneHeader_small (vaddr filesz memsz : U64) :
    OneHeader (smallBytes vaddr filesz memsz) (smallPhdr vaddr filesz memsz) where
  phoff := field_extract rfl (BitVec.isLt _) fun i hi => by
    match i, hi with
    | 0, _ | 1, _ | 2, _ | 3, _ | 4, _ | 5, _ | 6, _ | 7, _ => rfl
  phnum := field_extract rfl (by decide : (1 : U64).toNat < 2 ^ (8 * 2)) fun i hi => by
    match i, hi with
    | 0, _ | 1, _ => rfl
  pType := field_extract rfl (by decide : PT_LOAD.toNat < 2 ^ (8 * 4)) fun i hi => by
    match i, hi with
    | 0, _ | 1, _ | 2, _ | 3, _ => rfl
  pOffset := field_extract rfl (BitVec.isLt _) fun i hi => by
    match i, hi with
    | 0, _ | 1, _ | 2, _ | 3, _ | 4, _ | 5, _ | 6, _ | 7, _ => rfl
  pVaddr := field_extract rfl (BitVec.isLt _) fun i hi => by
    match i, hi with
    | 0, _ | 1, _ | 2, _ | 3, _ | 4, _ | 5, _ | 6, _ | 7, _ => rfl
  pFilesz := field_extract rfl (BitVec.isLt _) fun i hi => by
    match i, hi with
    | 0, _ | 1, _ | 2, _ | 3, _ | 4, _ | 5, _ | 6, _ | 7, _ => rfl
  pMemsz := field_extract rfl (BitVec.isLt _) fun i hi => by
    match i, hi with
    | 0, _ | 1, _ | 2, _ | 3, _ | 4, _ | 5, _ | 6, _ | 7, _ => rfl

def kernelOf (s : Machine Pmm) : Kernel Pmm BumpHeap := ⟨s, fun _ => 0, ⟨0x2000⟩, 0, 0, 0, 0⟩

theorem smallReady (vaddr filesz memsz : U64) :
    ∃ (s : Machine Pmm) (k p f : Nat) (label : Labels), ImagePage (smallBytes vaddr filesz memsz) s k p f label ∧
      Ready k p s label kernelCopyVaddr 124 64 [smallPhdr vaddr filesz memsz] := by
  obtain ⟨s, k, p, f, label, hs⟩ := imagePage (smallBytes vaddr filesz memsz)
  exact ⟨s, k, p, f, label, hs, hs.ready (oneHeader_small vaddr filesz memsz) (by decide) (by decide)⟩

theorem smallServed {vaddr filesz memsz : U64} {b : Nat → BitVec 8} {f : Nat} (hs : ImagePage b s k p f label)
    (h : Ready k p s label kernelCopyVaddr size 64 [smallPhdr vaddr filesz memsz])
    (hu : (smallPhdr vaddr filesz memsz).InUser) (hreq : requests [smallPhdr vaddr filesz memsz] ≤ 27) :
    TaskServed s (framePtr p) kernelCopyVaddr 64 [smallPhdr vaddr filesz memsz] :=
  h.served (fun ph hph _ => .inl (List.mem_singleton.mp hph ▸ hu)) (hs.enough.mono (by omega))

-- ---------------------------------------------------------------------------
-- The pages of the task
-- ---------------------------------------------------------------------------

/-- The user half has the pages that the segments meet and the page of the
stack, each with a frame of its own. -/
structure Covered (headers : List Phdr) (s' : Machine Pmm) : Prop where
  pages : ∀ w, kernelHalf w = false → (present (pagingGet s' (framePtr s'.root) w) = true ↔
    (∃ ph ∈ headers, ph.pType = PT_LOAD ∧
      ∃ j < ph.pMemsz.toNat, pageOf w = pageOf (ph.pVaddr + BitVec.ofNat 64 j)) ∨ pageOf w = pageOf 0x7ffffffffff0)
  flags : ∀ w, kernelHalf w = false → present (pagingGet s' (framePtr s'.root) w) = true →
    ∃ f, pagingGet s' (framePtr s'.root) w = dataEntry f ((PAGING_USER ||| PAGING_WRITABLE).setWidth 8)
  distinct : ∀ w w', kernelHalf w = false → kernelHalf w' = false →
    present (pagingGet s' (framePtr s'.root) w) = true → present (pagingGet s' (framePtr s'.root) w') = true →
    frameOf (pagingGet s' (framePtr s'.root) w) = frameOf (pagingGet s' (framePtr s'.root) w') → pageOf w = pageOf w'

theorem Loop.covered (h : Loop k n p s label s₀ label₀ elf size phoff headers)
    (hs : TaskServed s (framePtr p) elf phoff headers)
    (hu : ∀ ph ∈ headers, ph.pType = PT_LOAD → ph.InUser ∧ 0 < ph.pMemsz.toNat)
    (hload : loadElf (loopStart s (framePtr p)) (pagingCopy s (framePtr p)).1 elf = some s') : Covered headers s' := by
  obtain ⟨label', h', hmaps⟩ := h.user hs (fun ph hph hload => .inl (hu ph hph hload).1) hload
  have hget : ∀ w, pagingGet s' (framePtr s'.root) w = lookup s'.mem n w := fun w => by
    rw [h'.root, pagingGet_lookup (h'.backed.forest.bound n _ h'.table)]
  have honly : ∀ w, kernelHalf w = false → present (lookup s'.mem n w) = true →
      ((∃ ph ∈ headers, ph.Covers w) ∨ pageOf w = pageOf stackPage) ∧ ∃ f, lookup s'.mem n w = dataEntry f segmentFlags :=
    fun w hw hp => (hmaps.only w hw hp).resolve_left fun h0 => by
      rw [h.own w hw] at h0
      contradiction
  have hstack : pageOf stackPage = pageOf 0x7ffffffffff0 := by decide
  refine ⟨fun w hw => ?_, fun w hw hp => ?_, fun w w' hw hw' hp hp' he => ?_⟩
  · rw [hget]
    constructor
    · intro hp
      rcases (honly w hw hp).1 with ⟨ph, hph, hload, hpages⟩ | he
      · obtain ⟨huser, hpos⟩ := hu ph hph hload
        exact .inl ⟨ph, hph, hload, byte_of_inPages huser.memsz hpos hpages⟩
      · exact .inr (he.trans hstack)
    · rintro (⟨ph, hph, hload, j, hj, he⟩ | he)
      · obtain ⟨i, hi, hpage⟩ := inPages_of_byte (hu ph hph hload).1.memsz hj
        exact hmaps.all w hw (.inl ⟨ph, hph, hload, i, hi, he.trans hpage⟩)
      · exact hmaps.all w hw (.inr (he.trans hstack.symm))
  · rw [hget] at hp ⊢
    exact (honly w hw hp).2
  · rw [hget] at hp hp' he
    rw [hget] at he
    exact h'.distinct w w' hw hw' hp hp' he

/-- What a loaded segment should be: the bytes of the file, then zeros, and
nothing read of the image but what comes before the segment's end. -/
structure SegmentLoaded (s s' : Machine Pmm) (elf : U64) (ph : Phdr) : Prop where
  file : ∀ j < ph.pFilesz.toNat, readByte s'.mem s'.root (ph.pVaddr + BitVec.ofNat 64 j) =
    readByte s.mem s.root (elf + BitVec.ofNat 64 (ph.pOffset.toNat + j))
  zero : ∀ j, ph.pFilesz.toNat ≤ j → j < ph.pMemsz.toNat →
    readByte s'.mem s'.root (ph.pVaddr + BitVec.ofNat 64 j) = some 0
  reads : ∀ a ∈ copyReads (elf + ph.pOffset) ph.pMemsz.toNat,
    ∃ j < ph.pOffset.toNat + ph.pFilesz.toNat, a = elf + BitVec.ofNat 64 j

def LoadsElf (K : Kernel Pmm η) (parent elf : U64) (headers : List Phdr) : Prop :=
  ∃ task K', taskCreate K parent elf = some (task, K') ∧
    ∀ ph ∈ headers, ph.pType = PT_LOAD → SegmentLoaded K.machine K'.machine elf ph

theorem InKernel.size_lt (h : InKernel s label elf size) : size < 2 ^ 64 := by
  by_contra hle
  obtain ⟨j, hj⟩ : ∃ j, j = (2 ^ 64 - elf.toNat) % 2 ^ 64 := ⟨_, rfl⟩
  have hzero : elf + BitVec.ofNat 64 j = 0 := by
    refine BitVec.eq_of_toNat_eq ?_
    have hlt := elf.isLt
    rw [BitVec.toNat_add, BitVec.toNat_ofNat]
    change _ = 0
    omega
  have hhalf := h.kernel j (by omega)
  rw [hzero] at hhalf
  exact absurd hhalf (by decide)

theorem add_offset (off : U64) (j : Nat) :
    elf + off + BitVec.ofNat 64 j = elf + BitVec.ofNat 64 (off.toNat + j) := by
  rw [BitVec.ofNat_add, BitVec.ofNat_toNat, BitVec.setWidth_eq, BitVec.add_assoc]

theorem SegmentLoaded.sizes (h : SegmentLoaded s s' elf ph) (hle : ph.pFilesz.toNat ≤ ph.pMemsz.toNat)
    (hfit : ph.pOffset.toNat + ph.pFilesz.toNat < 2 ^ 64) : ph.pMemsz = ph.pFilesz := by
  by_contra hne
  have hlt : ph.pFilesz.toNat < ph.pMemsz.toNat :=
    Nat.lt_of_le_of_ne hle fun e => hne (BitVec.eq_of_toNat_eq e.symm)
  obtain ⟨j, hj, he⟩ := h.reads (elf + ph.pOffset + BitVec.ofNat 64 ph.pFilesz.toNat)
    (List.mem_map.mpr ⟨_, List.mem_range.mpr hlt, rfl⟩)
  rw [add_offset] at he
  have hnat := congrArg BitVec.toNat ((BitVec.add_right_inj elf).mp he)
  rw [BitVec.toNat_ofNat, BitVec.toNat_ofNat, Nat.mod_eq_of_lt hfit, Nat.mod_eq_of_lt (by omega)] at hnat
  omega

section Loads

variable (h : Ready k p K.machine label elf size phoff headers) (hs : TaskServed K.machine (framePtr p) elf phoff headers)
  (hsegments : ∀ ph ∈ headers, ph.pType = PT_LOAD → ph.pVaddr.toNat + ph.pMemsz.toNat ≤ 2 ^ 47 ∧
    ph.pFilesz.toNat ≤ ph.pMemsz.toNat ∧ ph.pOffset.toNat + ph.pFilesz.toNat ≤ size)

include h hsegments

theorem LoadsElf.sizes (hloads : LoadsElf K (framePtr p) elf headers) :
    ∀ ph ∈ headers, ph.pType = PT_LOAD → ph.pMemsz = ph.pFilesz := by
  intro ph hph hload
  obtain ⟨-, hle, hfile⟩ := hsegments ph hph hload
  obtain ⟨task, K', -, hall⟩ := hloads
  exact (hall ph hph hload).sizes hle (Nat.lt_of_le_of_lt hfile h.image.bytes.size_lt)

include hs

theorem loadsElf (happart : headers.Pairwise Phdr.Apart)
    (hsizes : ∀ ph ∈ headers, ph.pType = PT_LOAD → ph.pMemsz = ph.pFilesz) : LoadsElf K (framePtr p) elf headers := by
  obtain ⟨n, s₀, label₀, hloop⟩ := h.loop hs.table
  have huser : ∀ ph ∈ headers, ph.pType = PT_LOAD → ph.InUser := fun ph hph hload => by
    obtain ⟨hend, hle, -⟩ := hsegments ph hph hload
    rwa [Phdr.InUser, Phdr.extent, Nat.max_eq_left hle]
  have hsource : ∀ ph ∈ headers, ph.pType = PT_LOAD → InKernel K.machine label (elf + ph.pOffset) ph.pMemsz.toNat :=
    fun ph hph hload => by
      have hfits : ph.pOffset.toNat + ph.pMemsz.toNat ≤ size := by
        rw [hsizes ph hph hload]
        exact (hsegments ph hph hload).2.2
      have hpart := h.image.bytes.part hfits
      rwa [BitVec.ofNat_toNat, BitVec.setWidth_eq] at hpart
  obtain ⟨s', hs', hbytes⟩ := hloop.loads hs fun ph hph hload => ⟨huser ph hph hload, (hsegments ph hph hload).2.1,
    (hloop.toCreated.inKernel h.backed h.current (hsource ph hph hload)).1⟩
  obtain ⟨e, he⟩ := hloop.entry hs (fun ph hph hload => .inl (huser ph hph hload)) hs'
  obtain ⟨task, K', hcreate, hmachine⟩ := taskCreate_returns hs' he
  obtain ⟨label', hmap, -⟩ := hloop.user hs (fun ph hph hload => .inl (huser ph hph hload)) hs'
  refine ⟨task, K', hcreate, fun ph hph hload => ⟨fun j hj => ?_, fun j hj hlt => ?_, fun a ha => ?_⟩⟩
  · have hj' : j < ph.pMemsz.toNat := by rwa [hsizes ph hph hload]
    have hsame := (hloop.toCreated.inKernel h.backed h.current (hsource ph hph hload)).2 j hj'
    rw [hmachine, hmap.root, hbytes happart ph hph hload j hj', ← add_offset, ← hsame, hloop.root]
  · rw [hsizes ph hph hload] at hlt
    omega
  · obtain ⟨j, hj, rfl⟩ := List.mem_map.mp ha
    rw [List.mem_range, hsizes ph hph hload] at hj
    exact ⟨_, Nat.add_lt_add_left hj _, add_offset _ _⟩

end Loads

/-- From `s₀` to `s₁` the kernel half stayed: its entries in every table and its
translations under the new one, in frame `n`, and all bytes but those of frame
`n` and of the frames taken since. -/
structure KernelUntouched (n : Nat) (label : Labels) (s₀ s₁ : Machine Pmm) : Prop where
  entries : ∀ r w, label r = some ⟨r, []⟩ ∨ r = n → kernelHalf w = true →
    pagingGet s₁ (framePtr r) w = pagingGet s₀ (framePtr r) w
  upper : ∀ i : Fin 512, 256 ≤ i.val → tableRead s₁.mem n i = tableRead s₀.mem n i
  mmu : ∀ w, kernelHalf w = true → mmu s₁.mem n w = mmu s₀.mem n w
  bytes : ∀ a, a / 0x1000 ≠ n → s₁.frames.bit (a / 0x1000) = s₀.frames.bit (a / 0x1000) → s₁.mem a = s₀.mem a

def loadLoop (s : Machine Pmm) (parent elf phoff : U64) : Option (Machine Pmm) :=
  loadSegments (pagingCopy s parent).1 elf (elf + phoff) 0x10000 0 (loopStart s parent)

/-- Whenever the loop comes to its end. -/
def LoopKeepsKernel (s : Machine Pmm) (label : Labels) (parent elf phoff : U64) : Prop :=
  ∀ n s₁, (pagingCopy s parent).1 = framePtr n → n < frameLimit → loadLoop s parent elf phoff = some s₁ →
    KernelUntouched n label (loopStart s parent) s₁

section Cleared

variable {b : Nat → BitVec 8} {f off : Nat} (hs : ImagePage b s k p f label)
  (hloop : Loop k n p s label s₀ label₀ kernelCopyVaddr size phoff headers) (hoff : off < 0x1000)

def clearedAt (s : Machine Pmm) (f off : Nat) : Machine Pmm := { s with mem := s.mem.setByte (0x1000 * f + off) 0 }

theorem clearedAt_outside (hoff : off < 0x1000) {a : Nat} (ha : a / 0x1000 ≠ f) : (clearedAt s f off).mem a = s.mem a :=
  Mem.setByte_ne (by omega)

include hs hloop

theorem mmu_image {j : Nat} (hj : j < 0x1000) :
    mmu s₀.mem n (kernelCopyVaddr + BitVec.ofNat 64 j) = some (0x1000 * f + j) := by
  have hdiv : (0x1000 * f + j) / 0x1000 = f := by omega
  have hread := (hloop.toCreated.readByte hs.backed hs.current (kernelHalf_copy_add hj) (hs.page j hj)
    (by rw [hdiv]; exact hs.inUse)).1
  rwa [hloop.root] at hread

theorem image_noTable : label₀ f = none := by
  cases hl : label₀ f with
  | none => rfl
  | some l =>
    rcases hloop.fresh f l hl with hl | he
    · rw [hs.noTable] at hl
      contradiction
    · exact absurd he (hloop.toCreated.other hs.inUse)

include hoff

theorem image_present (hwindow : ¬ InWindow (kernelCopyVaddr + BitVec.ofNat 64 off)) :
    present (lookup s₀.mem n (kernelCopyVaddr + BitVec.ofNat 64 off)) = true := by
  have hmmu := mmu_image hs hloop hoff
  rw [mmu_lookup (hloop.backed.windows n _ hloop.table hwindow), leafAddr] at hmmu
  split at hmmu
  next hp => exact hp
  next => cases hmmu

theorem cleared_backed : Backed k (clearedAt s₀ f off) label₀ :=
  hloop.backed.store (image_noTable hs hloop) fun _ ha => clearedAt_outside hoff ha

theorem mmu_cleared {j : Nat} (hj : j < 0x1000) :
    mmu (clearedAt s₀ f off).mem n (kernelCopyVaddr + BitVec.ofNat 64 j) = some (0x1000 * f + j) := by
  rw [← mmu_image hs hloop hj]
  exact hloop.backed.forest.mmu_kernel (cleared_backed hs hloop hoff).forest
    (fun c l hc i => tableRead_outside (image_noTable hs hloop) (fun _ ha => clearedAt_outside hoff ha) c l i hc)
    hloop.table hloop.table (kernelHalf_copy_add hj)

theorem cleared_inKernel (hsize : size ≤ off) : InKernel (clearedAt s₀ f off) label₀ kernelCopyVaddr size := by
  refine ⟨fun j hj => kernelHalf_copy_add (by omega), fun j hj => ⟨0x1000 * f + j, ?_, ?_, ?_⟩⟩
  · rw [show (clearedAt s₀ f off).root = n from hloop.root]
    exact mmu_cleared hs hloop hoff (by omega)
  · rw [show (0x1000 * f + j) / 0x1000 = f by omega]
    exact (hloop.bits f).trans (by rw [hs.inUse, Bool.or_true])
  · rw [show (0x1000 * f + j) / 0x1000 = f by omega, image_noTable hs hloop]

theorem cleared_image (hsize : size ≤ off) : ElfImage (clearedAt s₀ f off) label₀ kernelCopyVaddr size phoff headers := by
  refine hloop.image.congr (fun i hi => ?_) (cleared_inKernel hs hloop hoff hsize)
  rw [show (clearedAt s₀ f off).root = n from hloop.root, hloop.root, readByte, readByte,
    mmu_cleared hs hloop hoff (by omega), mmu_image hs hloop (by omega)]
  exact congrArg some (Mem.setByte_ne (by omega))

theorem request_image (hwindow : ¬ InWindow (kernelCopyVaddr + BitVec.ofNat 64 off)) :
    vmmRequestAt s₀ (framePtr n) (kernelCopyVaddr + BitVec.ofNat 64 off) 1 segmentFlags = s₀ := by
  rw [vmmRequestAt_one, vmmRequestPage, pagingGet_lookup (hloop.backed.forest.bound n _ hloop.table)]
  simp only [image_present hs hloop hoff hwindow, if_true]

theorem loadSegment_clears {ph : Phdr} {phdr : U64} (hwindow : ¬ InWindow (kernelCopyVaddr + BitVec.ofNat 64 off))
    (hload : ph.pType = PT_LOAD) (hvaddr : ph.pVaddr = kernelCopyVaddr + BitVec.ofNat 64 off) (hfilesz : ph.pFilesz = 1)
    (hmemsz : ph.pMemsz = 0) (hpages : ph.pages = 1) (hmeaning : Says s₀ phdr ph) (hmeaning' : Says (clearedAt s₀ f off) phdr ph) :
    loadSegment s₀ (framePtr n) kernelCopyVaddr phdr = some (clearedAt s₀ f off) := by
  have hrequest : s₀ = vmmRequestAt s₀ (framePtr n) ph.pVaddr ph.pages segmentFlags := by
    rw [hpages, hvaddr, request_image hs hloop hoff hwindow]
  have hset : memsetVirtual s₀.mem s₀.root ph.pVaddr 0 ph.pFilesz.toNat = some (clearedAt s₀ f off).mem := by
    rw [hvaddr, hfilesz, show (1 : U64).toNat = 1 from rfl, memsetVirtual, memsetVirtual, hloop.root]
    simp only [Option.bind_eq_bind, Option.bind_some, BitVec.add_zero, mmu_image hs hloop hoff]
    rfl
  rw [loadSegment_load hload hmeaning hrequest hmeaning fun m hm => ?_]
  · rw [hset, hmemsz]
    rfl
  · obtain rfl := Option.some.inj (hm.symm.trans hset)
    exact hmeaning'

section Run

variable (hrun : loadSegments (framePtr n) kernelCopyVaddr (kernelCopyVaddr + phoff) 0x10000 0 s₀ = some (clearedAt s₀ f off))

include hrun

theorem cleared_create (hsize : size ≤ off)
    (hstack : Served (clearedAt s₀ f off) (vmmRequestAt (clearedAt s₀ f off) (framePtr n) stackPage 1 segmentFlags)) :
    ∃ task K', taskCreate (kernelOf s) (framePtr p) kernelCopyVaddr = some (task, K') := by
  have himage := cleared_image hs hloop hoff hsize
  have hin := cleared_inKernel hs hloop hoff hsize
  have hback := cleared_backed hs hloop hoff
  have hempty : ∀ w, kernelHalf w = false → present (lookup (clearedAt s₀ f off).mem n w) = false := fun w hw => by
    rw [hloop.backed.forest.lookup_congr hloop.table
      (tableRead_outside (image_noTable hs hloop) fun _ ha => clearedAt_outside hoff ha), hloop.own w hw]
  obtain ⟨s₁, hs₁⟩ : ∃ s₁, s₁ = clearedAt s₀ f off := ⟨_, rfl⟩
  have hroot : s₁.root = n := by rw [hs₁]; exact hloop.root
  rw [← hs₁] at hrun hstack himage hin hback hempty
  obtain ⟨label', h', -⟩ := stack_request (.start hback hloop.table hroot hempty) hstack
  obtain ⟨e, he⟩ := himage.ehdr .eEntry
  have hentry := himage.ehdr_congr (fun _ hj => readByte_image hback hloop.table hroot hloop.ne hin h' hj) .eEntry
  obtain ⟨task, K', hcreate, -⟩ := taskCreate_returns (K := kernelOf s)
    (hloop.run.trans (by rw [hrun]; rfl)) (hentry.trans he)
  exact ⟨task, K', hcreate⟩

theorem cleared_not_kept (hbyte : b off ≠ 0) : ¬ LoopKeepsKernel s label (framePtr p) kernelCopyVaddr phoff := by
  intro hkeeps
  have hloop' : loadLoop s (framePtr p) kernelCopyVaddr phoff = some (clearedAt s₀ f off) := by
    rw [loadLoop, ← hloop.start, hloop.vmap]
    exact hrun
  have hk := hkeeps n (clearedAt s₀ f off) hloop.vmap (hloop.backed.forest.bound n _ hloop.table) hloop'
  rw [← hloop.start] at hk
  have hdiv : (0x1000 * f + off) / 0x1000 = f := by omega
  have hne : (0x1000 * f + off) / 0x1000 ≠ n := by
    rw [hdiv]
    exact hloop.toCreated.other hs.inUse
  have hkept := hk.bytes (0x1000 * f + off) hne rfl
  rw [hloop.bytes _ hne, hs.read off hoff] at hkept
  exact hbyte (hkept.symm.trans Mem.setByte_same)

end Run

end Cleared

end ShedOS.Task
