import ShedOS.Task.Loader

/-!
# Loading a program

Segment by segment: the pages that are mapped, and the bytes that are written,
while the kernel half stays as it is.
-/

namespace ShedOS.Task

open Bytes Layout Loops Memory

variable {s s₀ s' t : Machine Pmm} {label label₀ label' : Labels} {m m' : Mem} {k n i count size : Nat}
  {v w elf phdr phoff : U64} {ph : Phdr} {headers : List Phdr}

-- ---------------------------------------------------------------------------
-- The pages of a segment
-- ---------------------------------------------------------------------------

def Phdr.extent (ph : Phdr) : Nat := max ph.pMemsz.toNat ph.pFilesz.toNat

def Phdr.InUser (ph : Phdr) : Prop := ph.pVaddr.toNat + ph.extent ≤ 2 ^ 47

instance : Decidable ph.InUser := inferInstanceAs (Decidable (_ ≤ _))

theorem Phdr.InUser.memsz (h : ph.InUser) : ph.pVaddr.toNat + ph.pMemsz.toNat ≤ 2 ^ 47 :=
  Nat.le_trans (Nat.add_le_add_left (Nat.le_max_left _ _) _) h

theorem Phdr.InUser.filesz (h : ph.InUser) : ph.pVaddr.toNat + ph.pFilesz.toNat ≤ 2 ^ 47 :=
  Nat.le_trans (Nat.add_le_add_left (Nat.le_max_right _ _) _) h

theorem Phdr.pages_eq (h : ph.pVaddr.toNat + ph.pMemsz.toNat ≤ 2 ^ 47) :
    ph.pages = (ph.pMemsz.toNat + ph.pVaddr.toNat % 0x1000 + 0xfff) / 0x1000 := by
  have hsum : ph.pMemsz + ph.pVaddr % 0x1000 = BitVec.ofNat 64 (ph.pMemsz.toNat + ph.pVaddr.toNat % 0x1000) := by
    refine BitVec.eq_of_toNat_eq ?_
    rw [BitVec.toNat_add, BitVec.toNat_umod, BitVec.toNat_ofNat]
    rfl
  rw [Phdr.pages, toAlloc, hsum, addrPageAlignUp_div (by omega)]

theorem toNat_rangePage (h : v.toNat + i * 0x1000 < 2 ^ 64) : (rangePage v i).toNat = v.toNat + i * 0x1000 := by
  rw [rangePage, BitVec.toNat_add, BitVec.toNat_ofNat, Nat.mod_eq_of_lt (by omega : i * 0x1000 < 2 ^ 64),
    Nat.mod_eq_of_lt h]

theorem pageOf_eq_of_toNat (h : v.toNat / 0x1000 = w.toNat / 0x1000) : pageOf v = pageOf w := by
  refine BitVec.eq_of_toNat_eq ?_
  rw [toNat_pageOf, toNat_pageOf]
  exact congrArg (· % 2 ^ 36) h

section Pages

variable (h : ph.pVaddr.toNat + ph.pMemsz.toNat ≤ 2 ^ 47)

include h

theorem rangePage_user (hi : i < ph.pages) : kernelHalf (rangePage ph.pVaddr i) = false := by
  rw [Phdr.pages_eq h] at hi
  refine kernelHalf_of_lt ?_
  rw [toNat_rangePage (by omega)]
  omega

theorem inPages_of_byte {j : Nat} (hj : j < ph.pMemsz.toNat) :
    InPages ph.pVaddr ph.pages (ph.pVaddr + BitVec.ofNat 64 j) := by
  have hpages := Phdr.pages_eq h
  have hto := toNat_add_ofNat h (by decide) hj
  refine ⟨(ph.pVaddr.toNat % 0x1000 + j) / 0x1000, by omega, pageOf_eq_of_toNat ?_⟩
  rw [toNat_rangePage (by omega), hto]
  omega

theorem byte_of_inPages (hpos : 0 < ph.pMemsz.toNat) (hw : InPages ph.pVaddr ph.pages w) :
    ∃ j < ph.pMemsz.toNat, pageOf w = pageOf (ph.pVaddr + BitVec.ofNat 64 j) := by
  obtain ⟨i, hi, he⟩ := hw
  rw [Phdr.pages_eq h] at hi
  rw [he]
  -- from the second page on the first byte of the page is one of the segment
  obtain ⟨j, hj⟩ : ∃ j, j = i * 0x1000 - ph.pVaddr.toNat % 0x1000 := ⟨_, rfl⟩
  cases i with
  | zero => exact ⟨0, hpos, by rw [rangePage]⟩
  | succ i =>
    have hlt : j < ph.pMemsz.toNat := by omega
    refine ⟨j, hlt, pageOf_eq_of_toNat ?_⟩
    rw [toNat_rangePage (by omega), toNat_add_ofNat h (by decide) hlt]
    omega

end Pages

-- ---------------------------------------------------------------------------
-- One segment
-- ---------------------------------------------------------------------------

def Phdr.Covers (ph : Phdr) (w : U64) : Prop := ph.pType = PT_LOAD ∧ InPages ph.pVaddr ph.pages w

def Phdr.Apart (a b : Phdr) : Prop :=
  a.pType = PT_LOAD → b.pType = PT_LOAD →
    a.pVaddr.toNat + a.pMemsz.toNat ≤ b.pVaddr.toNat ∨ b.pVaddr.toNat + b.pMemsz.toNat ≤ a.pVaddr.toNat

def Phdr.Idle (ph : Phdr) : Prop := ph.pages = 0 ∧ ph.pMemsz = 0 ∧ ph.pFilesz = 0

def Phdr.requests (ph : Phdr) : Nat := if ph.pType = PT_LOAD then 4 * ph.pages else 0

/-- A header that says the same as long as the user half is filled. -/
def Steady (k n : Nat) (s₀ : Machine Pmm) (label₀ : Labels) (phdr : U64) (ph : Phdr) : Prop :=
  ∀ s label, UserMap k n s₀ label₀ s label → Says s phdr ph

/-- No frame for the segment is answered with NULL. -/
def Phdr.Served (ph : Phdr) (vmap : U64) (s : Machine Pmm) : Prop :=
  ph.pType = PT_LOAD → Memory.Served s (vmmRequestAt s vmap ph.pVaddr ph.pages segmentFlags)

structure Requested (k n : Nat) (s₀ : Machine Pmm) (label₀ : Labels) (ph : Phdr) (s t : Machine Pmm)
    (label' : Labels) : Prop where
  request : t = vmmRequestAt s (framePtr n) ph.pVaddr ph.pages segmentFlags
  map : UserMap k n s₀ label₀ t label'
  gains : Gains n segmentFlags (InPages ph.pVaddr ph.pages) s.mem t.mem

theorem segment_request (h : UserMap k n s₀ label₀ s label) (hu : ph.InUser) (hload : ph.pType = PT_LOAD)
    (hs : ph.Served (framePtr n) s) : ∃ t label', Requested k n s₀ label₀ ph s t label' := by
  obtain ⟨label', h', hgains⟩ := request_user h (fun i hi => rangePage_user hu.memsz hi) (hs hload)
  exact ⟨_, label', rfl, h', hgains⟩

namespace Requested

theorem present (h : Requested k n s₀ label₀ ph s t label') (hu : ph.InUser) {j : Nat} (hj : j < ph.pMemsz.toNat) :
    present (lookup t.mem n (ph.pVaddr + BitVec.ofNat 64 j)) = true := by
  have hto := toNat_add_ofNat hu.memsz (by decide) hj
  have hrange := hu.memsz
  exact h.gains.all _ (kernelHalf_of_lt (by omega)) (inPages_of_byte hu.memsz hj)

theorem eq (h : Requested k n s₀ label₀ ph s t label') (hmap : UserMap k n s₀ label₀ s label) (hu : ph.InUser)
    (hload : ph.pType = PT_LOAD) (hsteady : Steady k n s₀ label₀ phdr ph) :
    loadSegment s (framePtr n) elf phdr = (memsetVirtual t.mem n ph.pVaddr 0 ph.pFilesz.toNat).bind fun m =>
      (copyVirtual m n ph.pVaddr (elf + ph.pOffset) ph.pMemsz.toNat).map fun m' => { t with mem := m' } := by
  have hroot : t.root = n := h.map.root
  rw [loadSegment_load hload (hsteady s label hmap) h.request (hsteady t label' h.map) fun m hm => ?_, hroot]
  rw [hroot] at hm
  exact hsteady _ _ (memset_user h.map hu.filesz hm).map

end Requested

section Segment

variable (h : UserMap k n s₀ label₀ s label) (hsteady : Steady k n s₀ label₀ phdr ph) (hs : ph.Served (framePtr n) s)

include h hsteady

theorem segment_idle (hload : ph.pType = PT_LOAD) (hidle : ph.Idle) : loadSegment s (framePtr n) elf phdr = some s := by
  obtain ⟨hpages, hmemsz, hfilesz⟩ := hidle
  have hmeaning := hsteady s label h
  have hnone : s = vmmRequestAt s (framePtr n) ph.pVaddr ph.pages segmentFlags := by
    rw [hpages]
    rfl
  rw [loadSegment_load hload hmeaning hnone hmeaning fun m hm => ?_, hmemsz, hfilesz]
  · rfl
  · rw [hfilesz] at hm
    obtain rfl := Option.some.inj hm
    exact hmeaning

include hs

theorem segment_user (hu : ph.pType = PT_LOAD → ph.InUser ∨ ph.Idle) (hseg : loadSegment s (framePtr n) elf phdr = some s') :
    ∃ label', UserMap k n s₀ label₀ s' label' ∧ (∃ c ≤ ph.requests, Allocates c s s') ∧
      Maps n segmentFlags ph.Covers s.mem s'.mem := by
  by_cases hload : ph.pType = PT_LOAD
  · rw [Phdr.requests, if_pos hload]
    rcases hu hload with hu | hidle
    · obtain ⟨t, label', ht⟩ := segment_request h hu hload hs
      rw [ht.eq h hu hload hsteady] at hseg
      obtain ⟨m, hm, hseg⟩ := Option.bind_eq_some_iff.mp hseg
      obtain ⟨m', hm', rfl⟩ := Option.map_eq_some_iff.mp hseg
      have hset := memset_user ht.map hu.filesz hm
      obtain ⟨f, hcopy⟩ := memcpy_user hset.map hu.memsz hm'
      obtain ⟨c, hc, ha⟩ := vmmRequestAt_allocates s (framePtr n) ph.pVaddr segmentFlags ph.pages
      rw [← ht.request] at ha
      refine ⟨label', hcopy.map, ⟨c, hc, ha.kernelTable, ha.cr3, ha.frames, ha.handed⟩, ?_⟩
      refine (ht.gains.toMaps.stored fun w => (hcopy.lookup w).trans (hset.lookup w)).congr fun w => ?_
      exact ⟨fun hw => ⟨hload, hw⟩, fun hw => hw.2⟩
    · rw [segment_idle h hsteady hload hidle] at hseg
      obtain rfl := Option.some.inj hseg
      refine ⟨label, h, ⟨0, Nat.zero_le _, .refl s⟩, Maps.refl.congr fun w => ⟨False.elim, ?_⟩⟩
      rintro ⟨-, i, hi, -⟩
      rw [hidle.1] at hi
      exact Nat.not_lt_zero i hi
  · rw [loadSegment_skip (hsteady s label h) hload] at hseg
    obtain rfl := Option.some.inj hseg
    exact ⟨label, h, ⟨0, Nat.zero_le _, .refl s⟩, Maps.refl.congr fun w => ⟨False.elim, fun hw => hload hw.1⟩⟩

/-- The copy brings what was behind `elf + p_offset` at the start. -/
theorem segment_loads (hload : ph.pType = PT_LOAD) (hu : ph.InUser) (hle : ph.pFilesz.toNat ≤ ph.pMemsz.toNat) {f : Nat → BitVec 8}
    (hsrc : ∀ s label, UserMap k n s₀ label₀ s label → ∀ i < ph.pMemsz.toNat,
      readByte s.mem n (elf + ph.pOffset + BitVec.ofNat 64 i) = some (f i)) :
    ∃ s', loadSegment s (framePtr n) elf phdr = some s' ∧
      (∀ i < ph.pMemsz.toNat, readByte s'.mem n (ph.pVaddr + BitVec.ofNat 64 i) = some (f i)) ∧
      ∀ w x, w.toNat < 2 ^ 47 → w.toNat < ph.pVaddr.toNat ∨ ph.pVaddr.toNat + ph.pMemsz.toNat ≤ w.toNat →
        readByte s.mem n w = some x → readByte s'.mem n w = some x := by
  obtain ⟨t, label', ht⟩ := segment_request h hu hload hs
  obtain ⟨m, hm⟩ := memset_returns (c := 0) ht.map hu.filesz fun i hi => ht.present hu (Nat.lt_of_lt_of_le hi hle)
  have hset := memset_user ht.map hu.filesz hm
  obtain ⟨m', hm', hcopy⟩ := memcpy_returns hset.map hu.memsz (fun i hi => by
    rw [hset.lookup]
    exact ht.present hu hi) fun m hm i hi => hsrc _ _ hm i hi
  refine ⟨{ t with mem := m' }, ?_, hcopy.inside, fun w x hw hout hx => ?_⟩
  · rw [ht.eq h hu hload hsteady]
    exact Option.bind_eq_some_iff.mpr ⟨m, hm, Option.map_eq_some_iff.mpr ⟨m', hm', rfl⟩⟩
  · have hx₁ := ht.gains.bytes w x (kernelHalf_of_lt hw) hx
    exact (hcopy.outside w hw hout).trans ((hset.outside w hw (by omega)).trans hx₁)

/-- One header, loaded if it is a segment. -/
theorem segment_round {f : Nat → BitVec 8} (hall : ph.pType = PT_LOAD → ph.InUser ∧ ph.pFilesz.toNat ≤ ph.pMemsz.toNat ∧
      ∀ s label, UserMap k n s₀ label₀ s label → ∀ i < ph.pMemsz.toNat,
        readByte s.mem n (elf + ph.pOffset + BitVec.ofNat 64 i) = some (f i)) :
    ∃ s', loadSegment s (framePtr n) elf phdr = some s' ∧
      (ph.pType = PT_LOAD → ∀ i < ph.pMemsz.toNat, readByte s'.mem n (ph.pVaddr + BitVec.ofNat 64 i) = some (f i)) ∧
      ∀ w x, w.toNat < 2 ^ 47 → (ph.pType = PT_LOAD →
          w.toNat < ph.pVaddr.toNat ∨ ph.pVaddr.toNat + ph.pMemsz.toNat ≤ w.toNat) →
        readByte s.mem n w = some x → readByte s'.mem n w = some x := by
  by_cases hload : ph.pType = PT_LOAD
  · obtain ⟨hu, hle, hsrc⟩ := hall hload
    obtain ⟨t, ht, hbytes, hkept⟩ := segment_loads h hsteady hs hload hu hle hsrc
    exact ⟨t, ht, fun _ => hbytes, fun w x hw hout => hkept w x hw (hout hload)⟩
  · exact ⟨s, loadSegment_skip (hsteady s label h) hload, fun hl => absurd hl hload, fun _ _ _ _ hx => hx⟩

end Segment

-- ---------------------------------------------------------------------------
-- The loop
-- ---------------------------------------------------------------------------

/-- An image of `size` bytes at `elf`, with its header table. -/
structure ElfImage (s : Machine Pmm) (label : Labels) (elf : U64) (size : Nat) (phoff : U64) (headers : List Phdr) :
    Prop where
  bytes : InKernel s label elf size
  header : elf64Ehdr.size ≤ size
  start : loadField s elf64Ehdr elf .ePhoff = some phoff
  phnum : loadField s elf64Ehdr elf .ePhnum = some (BitVec.ofNat 64 headers.length)
  count : headers.length < 0x10000
  table : phoff.toNat + headers.length * elf64Phdr.size ≤ size
  rows : ∀ i (hi : i < headers.length), Says s (elf + phoff + BitVec.ofNat 64 (i * elf64Phdr.size)) headers[i]

section Congr

variable (himage : ElfImage s label elf size phoff headers)
  (hsame : ∀ i < size, readByte s'.mem s'.root (elf + BitVec.ofNat 64 i) = readByte s.mem s.root (elf + BitVec.ofNat 64 i))

include himage hsame

theorem ElfImage.row_congr (hi : i < headers.length) :
    Says s' (elf + phoff + BitVec.ofNat 64 (i * elf64Phdr.size)) headers[i] := by
  have hat : elf + phoff + BitVec.ofNat 64 (i * elf64Phdr.size) =
      elf + BitVec.ofNat 64 (phoff.toNat + i * elf64Phdr.size) := by
    rw [BitVec.ofNat_add, BitVec.ofNat_toNat, BitVec.setWidth_eq, BitVec.add_assoc]
  have hfit : phoff.toNat + i * elf64Phdr.size + elf64Phdr.size ≤ size := by
    have htable := himage.table
    have hrow := Nat.mul_le_mul_right elf64Phdr.size (Nat.succ_le_of_lt hi)
    rw [Nat.succ_mul] at hrow
    omega
  have hrow := himage.rows i hi
  rw [hat] at hrow ⊢
  have hfield : ∀ f, loadField s' elf64Phdr (elf + BitVec.ofNat 64 (phoff.toNat + i * elf64Phdr.size)) f =
      loadField s elf64Phdr (elf + BitVec.ofNat 64 (phoff.toNat + i * elf64Phdr.size)) f := fun f =>
    loadField_congr hsame (mem_elf64Phdr f) hfit
  exact ⟨(hfield _).trans hrow.pType, (hfield _).trans hrow.pOffset, (hfield _).trans hrow.pVaddr,
    (hfield _).trans hrow.pFilesz, (hfield _).trans hrow.pMemsz⟩

theorem ElfImage.ehdr_congr (f : EhdrField) : loadField s' elf64Ehdr elf f = loadField s elf64Ehdr elf f := by
  have hfield := loadField_congr (j := 0) hsame (mem_elf64Ehdr f) (by rw [Nat.zero_add]; exact himage.header)
  rwa [BitVec.add_zero] at hfield

theorem ElfImage.congr (hbytes : InKernel s' label' elf size) : ElfImage s' label' elf size phoff headers where
  bytes := hbytes
  header := himage.header
  start := (himage.ehdr_congr hsame .ePhoff).trans himage.start
  phnum := (himage.ehdr_congr hsame .ePhnum).trans himage.phnum
  count := himage.count
  table := himage.table
  rows _ hi := himage.row_congr hsame hi

end Congr

def requests (headers : List Phdr) : Nat := (headers.map Phdr.requests).sum

/-- No frame for one of the headers is answered with NULL, as the loop goes on
with header `i`. -/
def HeadersServed (vmap elf phdrs : U64) : List Phdr → Nat → Machine Pmm → Prop
  | [], _, _ => True
  | ph :: headers, i, s => ph.Served vmap s ∧ ∀ t,
      loadSegment s vmap elf (phdrs + BitVec.ofNat 64 (i * elf64Phdr.size)) = some t →
        HeadersServed vmap elf phdrs headers (i + 1) t

theorem ElfImage.ehdr (himage : ElfImage s label elf size phoff headers) (f : EhdrField) :
    ∃ e, loadField s elf64Ehdr elf f = some e := by
  have hend := Packed.offset_add_fieldSize_le (mem_elf64Ehdr f)
  have hheader := himage.header
  obtain ⟨e, he⟩ : ∃ e, loadVirtual s.mem s.root (elf + BitVec.ofNat 64 (elf64Ehdr.offset f)) (elf64Ehdr.fieldSize f) =
      some e := loadVirtual_some fun i hi => by
    obtain ⟨a, ha, -⟩ := himage.bytes.inUse (elf64Ehdr.offset f + i) (by omega)
    rw [BitVec.add_assoc, ← BitVec.ofNat_add, readByte, ha]
    exact ⟨_, rfl⟩
  rw [loadField, he]
  exact ⟨_, rfl⟩

theorem loadSegments_step {fuel : Nat} {vmap phdrs : U64}
    (hnum : loadField s elf64Ehdr elf .ePhnum = some (BitVec.ofNat 64 headers.length)) (hcount : headers.length < 0x10000) :
    loadSegments vmap elf phdrs (fuel + 1) i s = if i < headers.length then
      (loadSegment s vmap elf (phdrs + BitVec.ofNat 64 (i * elf64Phdr.size))).bind
        (loadSegments vmap elf phdrs fuel (i + 1)) else some s := by
  have hto : (BitVec.ofNat 64 headers.length).toNat = headers.length := by
    rw [BitVec.toNat_ofNat, Nat.mod_eq_of_lt (by omega)]
  rw [loadSegments, hnum]
  simp only [Option.bind_eq_bind, Option.bind_some, hto]
  rfl

section Loop

variable (h₀ : Backed k s₀ label₀) (hn : label₀ n = some ⟨n, []⟩) (hroot : s₀.root = n) (hne : n ≠ k)
  (himage : ElfImage s₀ label₀ elf size phoff headers)

include h₀ hn hroot hne himage

theorem ElfImage.steady (hi : i < headers.length) :
    Steady k n s₀ label₀ (elf + phoff + BitVec.ofNat 64 (i * elf64Phdr.size)) headers[i] := fun _ _ h =>
  himage.row_congr (fun _ hj => readByte_image h₀ hn hroot hne himage.bytes h hj) hi

theorem ElfImage.step {fuel : Nat} (h : UserMap k n s₀ label₀ s label) :
    loadSegments (framePtr n) elf (elf + phoff) (fuel + 1) i s = if i < headers.length then
      (loadSegment s (framePtr n) elf (elf + phoff + BitVec.ofNat 64 (i * elf64Phdr.size))).bind
        (loadSegments (framePtr n) elf (elf + phoff) fuel (i + 1)) else some s :=
  loadSegments_step ((himage.ehdr_congr (fun _ hj => readByte_image h₀ hn hroot hne himage.bytes h hj) .ePhnum).trans
    himage.phnum) himage.count

/-- Whatever the copies read: the pages of the segments are mapped. -/
theorem loop_user : ∀ {fuel i : Nat} {s : Machine Pmm} {label : Labels}, UserMap k n s₀ label₀ s label →
    (∀ ph ∈ headers.drop i, ph.pType = PT_LOAD → ph.InUser ∨ ph.Idle) →
    HeadersServed (framePtr n) elf (elf + phoff) (headers.drop i) i s →
    loadSegments (framePtr n) elf (elf + phoff) fuel i s = some s' →
    ∃ label', UserMap k n s₀ label₀ s' label' ∧ (∃ c ≤ requests (headers.drop i), Allocates c s s') ∧
      Maps n segmentFlags (fun w => ∃ ph ∈ headers.drop i, ph.Covers w) s.mem s'.mem := by
  intro fuel
  induction fuel with
  | zero => exact fun _ _ _ hseg => nomatch hseg
  | succ fuel ih =>
    intro i s label h hu hserved hseg
    rw [himage.step h₀ hn hroot hne h] at hseg
    split at hseg
    next hi =>
      obtain ⟨t, ht, hseg⟩ := Option.bind_eq_some_iff.mp hseg
      have hdrop : headers.drop i = headers[i] :: headers.drop (i + 1) := List.drop_eq_getElem_cons hi
      have hsum : requests (headers.drop i) = headers[i].requests + requests (headers.drop (i + 1)) := by
        rw [hdrop]
        rfl
      rw [hdrop] at hserved
      obtain ⟨label₁, h₁, ⟨c, hc, ha⟩, hmaps₁⟩ := segment_user h (himage.steady h₀ hn hroot hne hi) hserved.1
        (hu _ (by rw [hdrop]; exact List.mem_cons_self)) ht
      obtain ⟨label₂, h₂, ⟨c', hc', ha'⟩, hmaps₂⟩ := ih h₁ (fun ph hph => hu ph (by
        rw [hdrop]
        exact List.mem_cons_of_mem _ hph)) (hserved.2 t ht) hseg
      refine ⟨label₂, h₂, ⟨c + c', by omega, ha.trans ha'⟩, (hmaps₁.trans hmaps₂).congr fun w => ?_⟩
      rw [hdrop]
      simp only [List.mem_cons, exists_eq_or_imp]
    next hi =>
      obtain rfl := Option.some.inj hseg
      have hnil : headers.drop i = [] := List.drop_eq_nil_of_le (Nat.le_of_not_lt hi)
      rw [hnil]
      refine ⟨label, h, ⟨0, Nat.zero_le _, .refl s⟩, Maps.refl.congr fun w => ?_⟩
      exact ⟨False.elim, fun ⟨_, hmem, _⟩ => nomatch hmem⟩

/-- Frames to spare serve all headers. -/
theorem headersServed_of_enough : ∀ {rest : List Phdr} {i : Nat} {s : Machine Pmm} {label : Labels},
    headers.drop i = rest → UserMap k n s₀ label₀ s label →
    (∀ ph ∈ rest, ph.pType = PT_LOAD → ph.InUser ∨ ph.Idle) → Enough s (requests rest) →
    HeadersServed (framePtr n) elf (elf + phoff) rest i s := by
  intro rest
  induction rest with
  | nil => exact fun _ _ _ _ => trivial
  | cons ph rest ih =>
    intro i s label hdrop h hu henough
    have hi : i < headers.length := by
      by_contra hle
      rw [List.drop_eq_nil_of_le (Nat.le_of_not_lt hle)] at hdrop
      cases hdrop
    obtain ⟨hhead, htail⟩ := List.cons.inj ((List.drop_eq_getElem_cons hi).symm.trans hdrop)
    have henough : Enough s (ph.requests + requests rest) := henough
    have hserved : ph.Served (framePtr n) s := fun hload => by
      obtain ⟨c, hc, ha⟩ := vmmRequestAt_allocates s (framePtr n) ph.pVaddr segmentFlags ph.pages
      rw [Phdr.requests, if_pos hload] at henough
      exact (henough.split ha hc).1
    refine ⟨hserved, fun t ht => ?_⟩
    have hsteady := himage.steady h₀ hn hroot hne hi
    rw [hhead] at hsteady
    obtain ⟨label₁, h₁, ⟨c, hc, ha⟩, -⟩ := segment_user h hsteady hserved (hu ph List.mem_cons_self) ht
    exact ih htail h₁ (fun ph hph => hu ph (List.mem_cons_of_mem _ hph)) (henough.split ha hc).2

theorem loop_loads {f : Phdr → Nat → BitVec 8} : ∀ {fuel i : Nat} {s : Machine Pmm} {label : Labels},
    UserMap k n s₀ label₀ s label → i ≤ headers.length → headers.length < i + fuel →
    (∀ ph ∈ headers.drop i, ph.pType = PT_LOAD → ph.InUser ∧ ph.pFilesz.toNat ≤ ph.pMemsz.toNat ∧
      ∀ s label, UserMap k n s₀ label₀ s label → ∀ j < ph.pMemsz.toNat,
        readByte s.mem n (elf + ph.pOffset + BitVec.ofNat 64 j) = some (f ph j)) →
    HeadersServed (framePtr n) elf (elf + phoff) (headers.drop i) i s →
    ∃ s', loadSegments (framePtr n) elf (elf + phoff) fuel i s = some s' ∧
      ((headers.drop i).Pairwise Phdr.Apart → ∀ ph ∈ headers.drop i, ph.pType = PT_LOAD → ∀ j < ph.pMemsz.toNat,
        readByte s'.mem n (ph.pVaddr + BitVec.ofNat 64 j) = some (f ph j)) ∧
      ∀ w x, w.toNat < 2 ^ 47 → (∀ ph ∈ headers.drop i, ph.pType = PT_LOAD →
          w.toNat < ph.pVaddr.toNat ∨ ph.pVaddr.toNat + ph.pMemsz.toNat ≤ w.toNat) →
        readByte s.mem n w = some x → readByte s'.mem n w = some x := by
  intro fuel
  induction fuel with
  | zero =>
    intro i s label _ hi hfuel
    omega
  | succ fuel ih =>
    intro i s label h hi hfuel hall hserved
    rw [himage.step h₀ hn hroot hne h]
    by_cases hlt : i < headers.length
    · have hdrop : headers.drop i = headers[i] :: headers.drop (i + 1) := List.drop_eq_getElem_cons hlt
      have hhead : headers[i] ∈ headers.drop i := by
        rw [hdrop]
        exact List.mem_cons_self
      have htail : ∀ ph ∈ headers.drop (i + 1), ph ∈ headers.drop i := fun ph hph => by
        rw [hdrop]
        exact List.mem_cons_of_mem _ hph
      obtain ⟨hfirst, hafter⟩ : HeadersServed _ elf _ (headers[i] :: headers.drop (i + 1)) i s := hdrop ▸ hserved
      have hsteady := himage.steady h₀ hn hroot hne hlt
      have huser := fun hload => (hall _ hhead hload).1
      obtain ⟨t, ht, hbytes, hkept⟩ := segment_round h hsteady hfirst (hall _ hhead)
      obtain ⟨label₁, h₁, -⟩ := segment_user h hsteady hfirst (fun hload => .inl (huser hload)) ht
      obtain ⟨s', hs', hrest, hkept'⟩ := ih h₁ hlt (by omega) (fun ph hph => hall ph (htail ph hph)) (hafter t ht)
      refine ⟨s', ?_, fun happart ph hph hload j hj => ?_, fun w x hw hout hx => ?_⟩
      · rw [if_pos hlt, ht]
        exact hs'
      · rw [hdrop] at happart hph
        obtain ⟨happ, hpair⟩ := List.pairwise_cons.mp happart
        rcases List.mem_cons.mp hph with rfl | hph
        · have hrange := (huser hload).memsz
          have hto := toNat_add_ofNat hrange (by decide) hj
          refine hkept' _ _ (by omega) (fun ph' hph' hload' => ?_) (hbytes hload j hj)
          have := happ ph' hph' hload hload'
          omega
        · exact hrest hpair ph hph hload j hj
      · refine hkept' w x hw (fun ph hph => hout ph (htail ph hph)) (hkept w x hw (hout _ hhead) hx)
    · have hnil : headers.drop i = [] := List.drop_eq_nil_of_le (Nat.le_of_not_lt hlt)
      rw [if_neg hlt, hnil]
      exact ⟨s, rfl, fun _ ph hph => absurd hph List.not_mem_nil, fun _ _ _ _ hx => hx⟩

end Loop

-- ---------------------------------------------------------------------------
-- The new address space
-- ---------------------------------------------------------------------------

def UserEmpty (s : Machine Pmm) (p : Nat) : Prop :=
  ∀ i : Fin 512, i.val < 256 → present (tableRead s.mem p i) = false

theorem pagingCopy_empty {p : Nat} (h : Backed k s label) (hp : label p = some ⟨p, []⟩) (hempty : UserEmpty s p)
    (hs : Served s (pagingCreateEmpty s).2) : pagingCopy s (framePtr p) = pagingCreateEmpty s := by
  obtain ⟨c, label', hptr, hc⟩ := h.newRoot hs
  obtain ⟨t, ht⟩ : ∃ t, t = (pagingCreateEmpty s).2 := ⟨_, rfl⟩
  rw [← ht] at hc
  have hpb := h.forest.bound p _ hp
  have hslot : ∀ i, i < 256 → present (t.entry (framePtr p) i) = false := fun i hi => by
    have hpc : p ≠ c := fun e => by
      rw [e, hc.unused] at hp
      contradiction
    have hentry : t.entry (framePtr p) i = tableRead t.mem p ⟨i, by omega⟩ :=
      Machine.entry_framePtr hpb (by omega : i < 512)
    rw [hentry, tableRead_congr fun a ha => hc.bytes a (by rw [ha]; exact hpc)]
    exact hempty _ hi
  have hloop : upto (copySlot 2 (framePtr c) (framePtr p)) t 256 = t :=
    upto_rule (fun _ u => u = t) rfl fun i u hi hu => by
      rw [hu]
      exact copySlot_absent (hslot i hi)
  have hcopy : pagingCopyRecursive 4 t (framePtr c) (framePtr p) = t :=
    (pagingCopyRecursive_succ (framePtr c) (framePtr p)).trans hloop
  have hpair : pagingCreateEmpty s = (framePtr c, t) := Prod.ext hptr ht.symm
  rw [pagingCopy, hpair]
  exact congrArg (Prod.mk (framePtr c)) hcopy

def without (n : Nat) (label : Labels) : Labels := fun f => (label f).filter fun l => decide (l.root ≠ n)

theorem without_some {f : Nat} {l : Label} : without n label f = some l ↔ label f = some l ∧ l.root ≠ n := by
  rw [without, Option.filter_eq_some_iff, decide_eq_true_iff]

theorem without_forest (hf : Forest k m label) (hne : n ≠ k) : Forest k m (without n label) where
  labelled f l i c hl hd hnext := by
    obtain ⟨hl, hroot⟩ := without_some.mp hl
    refine without_some.mpr ⟨hf.labelled f l i c hl hd hnext, ?_⟩
    by_cases hi : l.path = [] → i.val < 256
    · rwa [Label.root_step hi]
    · have hk : (Label.step k l i).root = k := by
        unfold Label.step
        obtain ⟨hpath, hi⟩ := Classical.not_imp.mp hi
        rw [hpath]
        exact if_pos (Nat.le_of_not_lt hi)
      rw [hk]
      exact Ne.symm hne
  bound f l hl := hf.bound f l (without_some.mp hl).1
  root f r hl := hf.root f r (without_some.mp hl).1
  kernel := without_some.mpr ⟨hf.kernel, Ne.symm hne⟩
  upper := hf.upper
  shared r hr := hf.shared r (without_some.mp hr).1

theorem without_backed (h : Backed k s label) (hne : n ≠ k) : Backed k s (without n label) where
  forest := without_forest h.forest hne
  kernelTable := h.kernelTable
  handed f l hl := h.handed f l (without_some.mp hl).1
  windows r v hr := h.windows r v (without_some.mp hr).1
  walled := h.walled
  reach := h.reach
  locked f l hl := h.locked f l (without_some.mp hl).1

/-- The loop starts in `s₀`, under a new table in frame `n` that is the only
one of its address space. -/
structure Created (k n : Nat) (s : Machine Pmm) (label : Labels) (s₀ : Machine Pmm) (label₀ : Labels) : Prop where
  backed : Backed k s₀ label₀
  table : label₀ n = some ⟨n, []⟩
  root : s₀.root = n
  free : s.frames.bit n = false
  unused : label n = none
  bits : ∀ f, s₀.frames.bit f = (decide (f = n) || s.frames.bit f)
  fresh : ∀ f l, label₀ f = some l → label f = some l ∨ f = n
  alone : ∀ f l, label₀ f = some l → l.root = n → f = n
  roots : ∀ r, label r = some ⟨r, []⟩ → label₀ r = some ⟨r, []⟩
  own : ∀ v, kernelHalf v = false → present (lookup s₀.mem n v) = false
  bytes : ∀ a, a / 0x1000 ≠ n → s₀.mem a = s.mem a

theorem Created.switch (h : NewRoot k n s (without n label) t label') (hn : label n = none) :
    Created k n s label (pagingWriteCr3 t (framePtr n)) label' := by
  have hroot := root_writeCr3 (s := t) (h.backed.forest.bound n _ h.table)
  have hbacked := h.backed.writeCr3 (framePtr n)
  -- nothing but CR3 changes
  obtain ⟨u, hu⟩ : ∃ u, u = pagingWriteCr3 t (framePtr n) := ⟨_, rfl⟩
  have hmem : u.mem = t.mem := by rw [hu, writeCr3_mem]
  have hframes : u.frames = t.frames := by rw [hu, writeCr3_frames]
  rw [← hu] at hroot hbacked ⊢
  refine ⟨hbacked, h.table, hroot, h.free.2, hn, ?_, fun f l hl => ?_, fun f l hl he => ?_, fun r hr => ?_, fun v hv => ?_, ?_⟩
  · rw [hframes]
    exact h.bits
  · exact (h.fresh f l hl).imp_left fun hl => (without_some.mp hl).1
  · rcases h.fresh f l hl with hl | hf
    · exact absurd he (without_some.mp hl).2
    · exact hf
  · refine h.keeps r _ (without_some.mpr ⟨hr, fun e => ?_⟩)
    have e : r = n := e
    rw [e, hn] at hr
    contradiction
  · rw [hmem, h.own, hv, if_neg Bool.false_ne_true]
    rfl
  · rw [hmem]
    exact h.bytes

theorem newSpace {p : Nat} (h : Backed k s label) (hp : label p = some ⟨p, []⟩) (hempty : UserEmpty s p)
    (hs : Served s (pagingCreateEmpty s).2) :
    ∃ n label₀, (pagingCopy s (framePtr p)).1 = framePtr n ∧
      Created k n s label (pagingWriteCr3 (pagingCopy s (framePtr p)).2 (framePtr n)) label₀ := by
  obtain ⟨n, label₁, hptr, hn⟩ := h.newRoot hs
  have hne : n ≠ k := fun e => by
    have hk := h.forest.kernel
    rw [← e, hn.unused] at hk
    contradiction
  obtain ⟨n', label₀, hptr', hn'⟩ := (without_backed h hne).newRoot hs
  obtain rfl : n' = n := by
    have hphys := congrArg physical (hptr'.symm.trans hptr)
    rw [physical_framePtr (hn'.backed.forest.bound _ _ hn'.table), physical_framePtr (hn.backed.forest.bound _ _ hn.table)]
      at hphys
    omega
  obtain ⟨x, hx⟩ : ∃ x, x = pagingCreateEmpty s := ⟨_, rfl⟩
  rw [pagingCopy_empty h hp hempty hs]
  rw [← hx] at hptr hn' ⊢
  exact ⟨n', label₀, hptr, .switch hn' hn.unused⟩

namespace Created

variable (hc : Created k n s label s₀ label₀)

include hc

theorem start : UserMap k n s₀ label₀ s₀ label₀ :=
  .start hc.backed hc.table hc.root hc.own

theorem other {f : Nat} (hbit : s.frames.bit f = true) : f ≠ n := fun e => by
  have hfree := hc.free
  rw [← e, hbit] at hfree
  contradiction

variable (h : Backed k s label)

include h

theorem ne : n ≠ k := fun e => by
  have hk := h.forest.kernel
  rw [← e, hc.unused] at hk
  contradiction

variable (hr : label s.root = some ⟨s.root, []⟩)

include hr

theorem readByte {v : U64} {a : Nat} (hv : kernelHalf v = true) (hm : mmu s.mem s.root v = some a)
    (hbit : s.frames.bit (a / 0x1000) = true) :
    mmu s₀.mem s₀.root v = some a ∧ readByte s₀.mem s₀.root v = readByte s.mem s.root v := by
  have hsame : ∀ c l, label c = some l → ∀ i, tableRead s₀.mem c i = tableRead s.mem c i := fun c l hcl i =>
    tableRead_congr fun b hb => hc.bytes b (by rw [hb]; exact hc.other (h.locked c l hcl))
  have hmmu : mmu s₀.mem s₀.root v = some a := by
    rw [hc.root, ← hm]
    exact h.forest.mmu_kernel hc.backed.forest hsame hr hc.table hv
  refine ⟨hmmu, ?_⟩
  rw [Memory.readByte, Memory.readByte, hmmu, hm]
  exact congrArg some (hc.bytes a (hc.other hbit))

theorem inKernel (him : InKernel s label elf size) : InKernel s₀ label₀ elf size ∧ ∀ i < size,
    Memory.readByte s₀.mem s₀.root (elf + BitVec.ofNat 64 i) = Memory.readByte s.mem s.root (elf + BitVec.ofNat 64 i) := by
  refine ⟨⟨him.kernel, fun j hj => ?_⟩, fun j hj => ?_⟩
  · obtain ⟨a, ha, hbit, hnone⟩ := him.inUse j hj
    refine ⟨a, (hc.readByte h hr (him.kernel j hj) ha hbit).1, by rw [hc.bits, hbit, Bool.or_true], ?_⟩
    cases hl : label₀ (a / 0x1000) with
    | none => rfl
    | some l =>
      rcases hc.fresh _ l hl with hl | he
      · rw [hnone] at hl
        contradiction
      · exact absurd he (hc.other hbit)
  · obtain ⟨a, ha, hbit, -⟩ := him.inUse j hj
    exact (hc.readByte h hr (him.kernel j hj) ha hbit).2

theorem image (him : ElfImage s label elf size phoff headers) : ElfImage s₀ label₀ elf size phoff headers := by
  obtain ⟨hbytes, hsame⟩ := hc.inKernel h hr him.bytes
  exact him.congr hsame hbytes

end Created

end ShedOS.Task
