import ShedOS.Task.Elf

/-!
# What the loader writes

The pages of a segment and the two loops over it, on a table whose user half is
being filled. What the image says stays readable all the time: it is in the
kernel half.
-/

namespace ShedOS.Task

open Bytes Layout Loops Memory

variable {s s₀ s' : Machine Pmm} {label label₀ label' : Labels} {m m' : Mem} {k n r i count len size : Nat}
  {v w dst src elf phdr : U64} {flags : BitVec 8} {c x : BitVec 8} {f : Nat → BitVec 8}

theorem toNat_add_ofNat {b : Nat} (h : v.toNat + len ≤ b) (hb : b < 2 ^ 64) (hi : i < len) :
    (v + BitVec.ofNat 64 i).toNat = v.toNat + i := by
  rw [BitVec.toNat_add, BitVec.toNat_ofNat, Nat.mod_eq_of_lt (by omega : i < 2 ^ 64), Nat.mod_eq_of_lt (by omega)]

-- ---------------------------------------------------------------------------
-- vmm_request_at
-- ---------------------------------------------------------------------------

/-- The pages of `P` were mapped, and the bytes of the user half stayed. -/
structure Gains (n : Nat) (flags : BitVec 8) (P : U64 → Prop) (m m' : Mem) : Prop extends Maps n flags P m m' where
  bytes : ∀ w x, kernelHalf w = false → readByte m n w = some x → readByte m' n w = some x

theorem Gains.trans {P Q : U64 → Prop} {m'' : Mem} (h : Gains n flags P m m') (h' : Gains n flags Q m' m'') :
    Gains n flags (fun w => P w ∨ Q w) m m'' where
  toMaps := h.toMaps.trans h'.toMaps
  bytes w x hw hx := h'.bytes w x hw (h.bytes w x hw hx)

theorem request_page (h : UserMap k n s₀ label₀ s label) (hv : kernelHalf v = false)
    (hs : Served s (vmmRequestPage s (framePtr n) v flags)) :
    ∃ label', UserMap k n s₀ label₀ (vmmRequestPage s (framePtr n) v flags) label' ∧
      Gains n flags (fun w => pageOf w = pageOf v) s.mem (vmmRequestPage s (framePtr n) v flags).mem := by
  obtain ⟨label', h', hmaps, hkept⟩ := h.page hv hs
  refine ⟨label', h', hmaps, fun w x hw hx => ?_⟩
  obtain ⟨a, ha, rfl⟩ := Option.map_eq_some_iff.mp hx
  have hpw := h.present_of_mmu hw ha
  have hmmu : mmu (vmmRequestPage s (framePtr n) v flags).mem n w = some a := by
    rw [h'.mmu_user hw, hmaps.kept w hw hpw, ← h.mmu_user hw, ha]
  rw [readByte, hmmu]
  rw [h.mmu_present hw hpw] at ha
  exact congrArg some (hkept w hw hpw a (by have := Option.some.inj ha; omega))

def InPages (v : U64) (count : Nat) (w : U64) : Prop := ∃ i < count, pageOf w = pageOf (rangePage v i)

theorem inPages_succ : InPages v (count + 1) w ↔ InPages v count w ∨ pageOf w = pageOf (rangePage v count) := by
  constructor
  · rintro ⟨i, hi, he⟩
    rcases Nat.lt_succ_iff_lt_or_eq.mp hi with hi | rfl
    · exact .inl ⟨i, hi, he⟩
    · exact .inr he
  · rintro (⟨i, hi, he⟩ | he)
    · exact ⟨i, Nat.lt_succ_of_lt hi, he⟩
    · exact ⟨count, Nat.lt_succ_self count, he⟩

theorem request_user (h : UserMap k n s₀ label₀ s label) : ∀ {count : Nat},
    (∀ i < count, kernelHalf (rangePage v i) = false) → Served s (vmmRequestAt s (framePtr n) v count flags) →
    ∃ label', UserMap k n s₀ label₀ (vmmRequestAt s (framePtr n) v count flags) label' ∧
      Gains n flags (InPages v count) s.mem (vmmRequestAt s (framePtr n) v count flags).mem := by
  intro count
  induction count with
  | zero =>
    refine fun _ _ => ⟨label, h, ?_, fun _ _ _ hx => hx⟩
    exact Maps.refl.congr fun w => ⟨False.elim, fun ⟨_, hi, _⟩ => absurd hi (Nat.not_lt_zero _)⟩
  | succ count ih =>
    intro hv hs
    obtain ⟨t, ht⟩ : ∃ t, t = vmmRequestAt s (framePtr n) v count flags := ⟨_, rfl⟩
    have hstep : vmmRequestAt s (framePtr n) v (count + 1) flags =
        vmmRequestPage t (framePtr n) (rangePage v count) flags := by rw [ht]; rfl
    obtain ⟨c, -, hc⟩ := vmmRequestAt_allocates s (framePtr n) v flags count
    obtain ⟨d, -, hd⟩ := vmmRequestPage_allocates t (framePtr n) (rangePage v count) flags
    rw [← ht] at hc
    rw [hstep] at hs ⊢
    obtain ⟨hs₁, hs₂⟩ := hs.split hc.handed hd.handed
    obtain ⟨label₁, h₁, hgains⟩ := ih (fun i hi => hv i (Nat.lt_succ_of_lt hi)) (ht ▸ hs₁)
    rw [← ht] at h₁ hgains
    obtain ⟨label₂, h₂, hgains'⟩ := request_page h₁ (hv count (Nat.lt_succ_self count)) hs₂
    have hall := hgains.trans hgains'
    exact ⟨label₂, h₂, hall.toMaps.congr fun w => inPages_succ.symm, hall.bytes⟩

-- ---------------------------------------------------------------------------
-- memset and memcpy
-- ---------------------------------------------------------------------------

/-- On from `m`, the user half in `m'` shows `f` at the `len` bytes from `dst`
on, and elsewhere what it showed in `m`. -/
structure Filled (k n : Nat) (s₀ : Machine Pmm) (label₀ : Labels) (s : Machine Pmm) (label : Labels) (dst : U64)
    (len : Nat) (f : Nat → BitVec 8) (m' : Mem) : Prop where
  map : UserMap k n s₀ label₀ { s with mem := m' } label
  lookup : ∀ w, lookup m' n w = lookup s.mem n w
  inside : ∀ i < len, readByte m' n (dst + BitVec.ofNat 64 i) = some (f i)
  outside : ∀ w : U64, w.toNat < 2 ^ 47 → w.toNat < dst.toNat ∨ dst.toNat + len ≤ w.toNat →
    readByte m' n w = readByte s.mem n w

namespace Filled

theorem nil (h : UserMap k n s₀ label₀ s label) : Filled k n s₀ label₀ s label dst 0 f s.mem :=
  ⟨h, fun _ => rfl, fun _ hi => absurd hi (Nat.not_lt_zero _), fun _ _ _ => rfl⟩

theorem snoc {a : Nat} (h : Filled k n s₀ label₀ s label dst len f m) (hrange : dst.toNat + (len + 1) ≤ 2 ^ 47)
    (ha : mmu m n (dst + BitVec.ofNat 64 len) = some a) :
    Filled k n s₀ label₀ s label dst (len + 1) f (m.setByte a (f len)) := by
  have hto : ∀ i < len + 1, (dst + BitVec.ofNat 64 i).toNat = dst.toNat + i := fun i hi =>
    toNat_add_ofNat hrange (by decide) hi
  have hlast := hto len (Nat.lt_succ_self len)
  obtain ⟨hmap, hlookup, hread⟩ := h.map.setByte (x := f len) (by omega) ha
  refine ⟨hmap, fun w => (hlookup n w h.map.table).trans (h.lookup w), fun i hi => ?_, fun w hw hout => ?_⟩
  · have hi' := hto i hi
    have hreadi := hread (dst + BitVec.ofNat 64 i) (by omega)
    rcases Nat.lt_succ_iff_lt_or_eq.mp hi with hlt | rfl
    · have hne : dst + BitVec.ofNat 64 i ≠ dst + BitVec.ofNat 64 len := fun e => by
        have := congrArg BitVec.toNat e
        omega
      rw [if_neg hne] at hreadi
      exact hreadi.trans (h.inside i hlt)
    · rw [if_pos rfl] at hreadi
      exact hreadi
  · have hne : w ≠ dst + BitVec.ofNat 64 len := fun e => by
      have := congrArg BitVec.toNat e
      omega
    have hreadw := hread w hw
    rw [if_neg hne] at hreadw
    exact hreadw.trans (h.outside w hw (by omega))

end Filled

section Stores

variable (h : UserMap k n s₀ label₀ s label)

include h

theorem memset_user : ∀ {len : Nat} {m' : Mem}, dst.toNat + len ≤ 2 ^ 47 →
    memsetVirtual s.mem n dst c len = some m' → Filled k n s₀ label₀ s label dst len (fun _ => c) m'
  | 0, _, _, hm => Option.some.inj hm ▸ .nil h
  | len + 1, m', hrange, hm => by
    rw [memsetVirtual] at hm
    obtain ⟨m, hm₁, hm⟩ := Option.bind_eq_some_iff.mp hm
    obtain ⟨a, ha, hm⟩ := Option.bind_eq_some_iff.mp hm
    rw [← Option.some.inj hm]
    exact (memset_user (by omega) hm₁).snoc hrange ha

theorem memset_returns (hrange : dst.toNat + len ≤ 2 ^ 47)
    (hp : ∀ i < len, present (lookup s.mem n (dst + BitVec.ofNat 64 i)) = true) :
    ∃ m', memsetVirtual s.mem n dst c len = some m' := by
  induction len with
  | zero => exact ⟨_, rfl⟩
  | succ len ih =>
    obtain ⟨m, hm⟩ := ih (by omega) fun i hi => hp i (Nat.lt_succ_of_lt hi)
    have hf := memset_user h (by omega) hm
    have hto := toNat_add_ofNat hrange (by decide) (Nat.lt_succ_self len)
    have hmmu := hf.map.mmu_present (v := dst + BitVec.ofNat 64 len) (kernelHalf_of_lt (by omega)) (by
      rw [hf.lookup]
      exact hp len (Nat.lt_succ_self len))
    rw [memsetVirtual]
    exact ⟨_, Option.bind_eq_some_iff.mpr ⟨m, hm, Option.bind_eq_some_iff.mpr ⟨_, hmmu, rfl⟩⟩⟩

theorem memcpy_user : ∀ {len : Nat} {m' : Mem}, dst.toNat + len ≤ 2 ^ 47 →
    copyVirtual s.mem n dst src len = some m' → ∃ f, Filled k n s₀ label₀ s label dst len f m'
  | 0, _, _, hm => ⟨fun _ => 0, Option.some.inj hm ▸ .nil h⟩
  | len + 1, m', hrange, hm => by
    rw [copyVirtual] at hm
    obtain ⟨m, hm₁, hm⟩ := Option.bind_eq_some_iff.mp hm
    obtain ⟨x, -, hm⟩ := Option.bind_eq_some_iff.mp hm
    obtain ⟨y, hy, hm⟩ := Option.bind_eq_some_iff.mp hm
    obtain ⟨f, hf⟩ := memcpy_user (by omega) hm₁
    obtain ⟨g, hg⟩ : ∃ g : Nat → BitVec 8, g = fun i => if i < len then f i else m x := ⟨_, rfl⟩
    have hf' : Filled k n s₀ label₀ s label dst len g m :=
      ⟨hf.map, hf.lookup, fun i hi => by rw [hf.inside i hi, hg]; exact congrArg some (if_pos hi).symm, hf.outside⟩
    have hlast : g len = m x := by rw [hg]; exact if_neg (Nat.lt_irrefl len)
    have hsnoc := hf'.snoc hrange hy
    rw [hlast] at hsnoc
    rw [← Option.some.inj hm]
    exact ⟨g, hsnoc⟩

theorem memcpy_returns (hrange : dst.toNat + len ≤ 2 ^ 47)
    (hp : ∀ i < len, present (lookup s.mem n (dst + BitVec.ofNat 64 i)) = true)
    (hsrc : ∀ m, UserMap k n s₀ label₀ { s with mem := m } label → ∀ i < len,
      readByte m n (src + BitVec.ofNat 64 i) = some (f i)) :
    ∃ m', copyVirtual s.mem n dst src len = some m' ∧ Filled k n s₀ label₀ s label dst len f m' := by
  induction len with
  | zero => exact ⟨_, rfl, .nil h⟩
  | succ len ih =>
    obtain ⟨m, hm, hf⟩ := ih (by omega) (fun i hi => hp i (Nat.lt_succ_of_lt hi))
      fun m hm i hi => hsrc m hm i (Nat.lt_succ_of_lt hi)
    have hto := toNat_add_ofNat hrange (by decide) (Nat.lt_succ_self len)
    have hmmu := hf.map.mmu_present (v := dst + BitVec.ofNat 64 len) (kernelHalf_of_lt (by omega)) (by
      rw [hf.lookup]
      exact hp len (Nat.lt_succ_self len))
    obtain ⟨x, hx, hfx⟩ := Option.map_eq_some_iff.mp (hsrc m hf.map len (Nat.lt_succ_self len))
    refine ⟨_, ?_, hf.snoc hrange hmmu⟩
    rw [copyVirtual, ← hfx]
    exact Option.bind_eq_some_iff.mpr ⟨m, hm, Option.bind_eq_some_iff.mpr ⟨x, hx,
      Option.bind_eq_some_iff.mpr ⟨_, hmmu, rfl⟩⟩⟩

end Stores

-- ---------------------------------------------------------------------------
-- The image
-- ---------------------------------------------------------------------------

/-- `size` bytes from `elf` on are readable in the kernel half, in frames that
are in use and hold no tables. -/
structure InKernel (s : Machine Pmm) (label : Labels) (elf : U64) (size : Nat) : Prop where
  kernel : ∀ j < size, kernelHalf (elf + BitVec.ofNat 64 j) = true
  inUse : ∀ j < size, ∃ a, mmu s.mem s.root (elf + BitVec.ofNat 64 j) = some a ∧ s.frames.bit (a / 0x1000) = true ∧
    label (a / 0x1000) = none

theorem add_one_ofNat : v + 1 + BitVec.ofNat 64 i = v + BitVec.ofNat 64 (i + 1) := by
  rw [Nat.add_comm i 1, BitVec.ofNat_add, ← BitVec.add_assoc]
  rfl

theorem loadVirtual_congr {r' : Nat} : ∀ {len : Nat} {v : U64},
    (∀ i < len, readByte m' r' (v + BitVec.ofNat 64 i) = readByte m r (v + BitVec.ofNat 64 i)) →
    loadVirtual m' r' v len = loadVirtual m r v len
  | 0, _, _ => rfl
  | len + 1, v, h => by
    have h0 : readByte m' r' v = readByte m r v := by
      have := h 0 (Nat.succ_pos len)
      rwa [BitVec.add_zero] at this
    have hrest : loadVirtual m' r' (v + 1) len = loadVirtual m r (v + 1) len := loadVirtual_congr fun i hi => by
      rw [add_one_ofNat]
      exact h (i + 1) (Nat.succ_lt_succ hi)
    rw [loadVirtual, loadVirtual, h0, hrest]

theorem loadVirtual_some : ∀ {len : Nat} {v : U64}, (∀ i < len, ∃ x, readByte m r (v + BitVec.ofNat 64 i) = some x) →
    ∃ y, loadVirtual m r v len = some y
  | 0, _, _ => ⟨_, rfl⟩
  | len + 1, v, h => by
    obtain ⟨x, hx⟩ := h 0 (Nat.succ_pos len)
    rw [BitVec.add_zero] at hx
    obtain ⟨y, hy⟩ : ∃ y, loadVirtual m r (v + 1) len = some y := loadVirtual_some fun i hi => by
      obtain ⟨z, hz⟩ := h (i + 1) (Nat.succ_lt_succ hi)
      exact ⟨z, by rw [add_one_ofNat, hz]⟩
    rw [loadVirtual, hy]
    simp only [Option.bind_eq_bind, Option.bind_some, hx]
    exact ⟨_, rfl⟩

theorem loadField_congr {F : Type} [DecidableEq F] {L : Packed F} {f : F} {j : Nat}
    (hsame : ∀ i < size, readByte s'.mem s'.root (elf + BitVec.ofNat 64 i) = readByte s.mem s.root (elf + BitVec.ofNat 64 i))
    (hf : f ∈ L.map Prod.fst) (hfit : j + L.size ≤ size) :
    loadField s' L (elf + BitVec.ofNat 64 j) f = loadField s L (elf + BitVec.ofNat 64 j) f := by
  have hend := Packed.offset_add_fieldSize_le hf
  rw [loadField, loadField]
  refine congrArg _ (loadVirtual_congr fun i hi => ?_)
  have hsum : elf + BitVec.ofNat 64 j + BitVec.ofNat 64 (L.offset f) + BitVec.ofNat 64 i =
      elf + BitVec.ofNat 64 (j + L.offset f + i) := by
    rw [BitVec.add_assoc, BitVec.add_assoc, ← BitVec.ofNat_add, ← BitVec.ofNat_add, Nat.add_assoc]
  rw [hsum]
  exact hsame _ (by omega)

section Image

variable (h₀ : Backed k s₀ label₀) (hn : label₀ n = some ⟨n, []⟩) (hroot : s₀.root = n) (hne : n ≠ k)
  (himage : InKernel s₀ label₀ elf size) (h : UserMap k n s₀ label₀ s label)

include h₀ hn hroot hne himage h

theorem readByte_image (hi : i < size) :
    readByte s.mem s.root (elf + BitVec.ofNat 64 i) = readByte s₀.mem s₀.root (elf + BitVec.ofNat 64 i) := by
  obtain ⟨a, ha, hbit, hnone⟩ := himage.inUse i hi
  rw [hroot] at ha
  rw [h.root, hroot]
  have hl : ∀ l, label₀ (a / 0x1000) = some l → l.root ≠ n := fun l hl => by
    rw [hnone] at hl
    contradiction
  rw [h.readByte_kernel h₀ hn hne (himage.kernel i hi) ha hbit hl, readByte, ha]
  rfl

end Image

-- ---------------------------------------------------------------------------
-- A program header
-- ---------------------------------------------------------------------------

structure Phdr where
  pType : U64
  pOffset : U64
  pVaddr : U64
  pFilesz : U64
  pMemsz : U64

structure Says (s : Machine Pmm) (phdr : U64) (ph : Phdr) : Prop where
  pType : loadField s elf64Phdr phdr .pType = some ph.pType
  pOffset : loadField s elf64Phdr phdr .pOffset = some ph.pOffset
  pVaddr : loadField s elf64Phdr phdr .pVaddr = some ph.pVaddr
  pFilesz : loadField s elf64Phdr phdr .pFilesz = some ph.pFilesz
  pMemsz : loadField s elf64Phdr phdr .pMemsz = some ph.pMemsz

def Phdr.pages (ph : Phdr) : Nat := (toAlloc ph.pMemsz ph.pVaddr / 0x1000).toNat

def segmentFlags : BitVec 8 := (PAGING_USER ||| PAGING_WRITABLE).setWidth 8

theorem mem_elf64Phdr (f : PhdrField) : f ∈ elf64Phdr.map Prod.fst := by
  cases f <;> decide

theorem mem_elf64Ehdr (f : EhdrField) : f ∈ elf64Ehdr.map Prod.fst := by
  cases f <;> decide

theorem loadSegment_skip {ph : Phdr} (hmeaning : Says s phdr ph) (hne : ph.pType ≠ PT_LOAD) {vmap : U64} :
    loadSegment s vmap elf phdr = some s := by
  rw [loadSegment, hmeaning.pType]
  simp only [Option.bind_eq_bind, Option.bind_some, if_neg hne]
  rfl

/-- The three statements of a segment, when its header says the same all the time. -/
theorem loadSegment_load {ph : Phdr} {t : Machine Pmm} {vmap : U64} (hload : ph.pType = PT_LOAD) (hmeaning : Says s phdr ph)
    (ht : t = vmmRequestAt s vmap ph.pVaddr ph.pages segmentFlags) (hmeaning₁ : Says t phdr ph)
    (hmeaning₂ : ∀ m, memsetVirtual t.mem t.root ph.pVaddr 0 ph.pFilesz.toNat = some m → Says { t with mem := m } phdr ph) :
    loadSegment s vmap elf phdr = (memsetVirtual t.mem t.root ph.pVaddr 0 ph.pFilesz.toNat).bind fun m =>
      (copyVirtual m t.root ph.pVaddr (elf + ph.pOffset) ph.pMemsz.toNat).map fun m' => { t with mem := m' } := by
  have hpages : vmmRequestAt s vmap ph.pVaddr (toAlloc ph.pMemsz ph.pVaddr / 0x1000).toNat
      ((PAGING_USER ||| PAGING_WRITABLE).setWidth 8) = t := ht.symm
  rw [loadSegment, hmeaning.pType]
  simp only [Option.bind_eq_bind, Option.bind_some, if_pos hload, hmeaning.pMemsz, hmeaning.pVaddr, hpages, hmeaning₁.pVaddr,
    hmeaning₁.pFilesz]
  cases hm : memsetVirtual t.mem t.root ph.pVaddr 0 ph.pFilesz.toNat with
  | none => rfl
  | some m =>
    have hmeaning₂ := hmeaning₂ m hm
    have hroot : ({ t with mem := m } : Machine Pmm).root = t.root := rfl
    simp only [Option.bind_some, hmeaning₂.pVaddr, hmeaning₂.pOffset, hmeaning₂.pMemsz, hroot]
    cases copyVirtual m t.root ph.pVaddr (elf + ph.pOffset) ph.pMemsz.toNat <;> rfl

end ShedOS.Task
