import ShedOS.Interrupts.Stubs
import ShedOS.Lib.Loops
import ShedOS.Lib.Records

/-!
# Descriptor tables

The interrupt descriptor table of `idt.c`, and the global descriptor table and
the task state segment of `gdt.c`, as bytes in memory. What the processor reads
there is written at its own offsets, so that the packed structures of the code
have to agree with them.
-/

namespace ShedOS.Interrupts

open Bytes Layout Memory Loops
open ShedOS.Task

variable {m m' : Mem} {idt gdt tss callback kernelStack : U64} {vector : BitVec 8} {typeAttr : BitVec 8} {a k : Nat}

-- ---------------------------------------------------------------------------
-- The interrupt descriptor table
-- ---------------------------------------------------------------------------

inductive IdtField where
  | offset0 | selector | ist | typeAttr | offset1 | offset2 | reserved
  deriving DecidableEq, Repr

def idtDesc : Packed IdtField :=
  [(.offset0, 2), (.selector, 2), (.ist, 1), (.typeAttr, 1), (.offset1, 2), (.offset2, 4), (.reserved, 4)]

def IDT_TA_Interrupt : BitVec 8 := 0x8e
def IDT_TA_SystemCall : BitVec 8 := 0xee

def idtDescAddr (idt : U64) (vector : BitVec 8) : Nat := idt.toNat + idtDesc.size * vector.toNat

def loadInterrupt (m : Mem) (idt : U64) (vector : BitVec 8) (callback : U64) (typeAttr : BitVec 8) : Mem :=
  if callback = 0 then m
  else
    let desc := idtDescAddr idt vector
    let m := idtDesc.set m desc .offset0 (callback >>> 0 &&& 0xffff).toNat
    let m := idtDesc.set m desc .offset1 (callback >>> 16 &&& 0xffff).toNat
    let m := idtDesc.set m desc .offset2 (callback >>> 32 &&& 0xffffffff).toNat
    let m := idtDesc.set m desc .ist 0
    let m := idtDesc.set m desc .typeAttr typeAttr.toNat
    idtDesc.set m desc .selector 0x08

/-- The addresses of the stubs: `__exception_interrupts`, `__isr34` and `__isr128`. -/
structure StubAddrs where
  exceptions : Nat → U64
  isr34 : U64
  isr128 : U64

/-- The table is zero before that. -/
def idtInitialize (m : Mem) (idt : U64) (stubs : StubAddrs) : Mem :=
  let m := upto (fun i m => loadInterrupt m idt (BitVec.ofNat 8 i) (stubs.exceptions i) IDT_TA_Interrupt) m 31
  let m := loadInterrupt m idt 34 stubs.isr34 IDT_TA_Interrupt
  loadInterrupt m idt 128 stubs.isr128 IDT_TA_SystemCall

/-- `idt.size`. -/
def idtLimit : Nat := 0x1000 - 1

/-- A gate as the processor reads it. -/
structure Gate where
  offset : U64
  selector : Nat
  ist : Nat
  typeAttr : Nat
  deriving DecidableEq

def gateAt (m : Mem) (a : Nat) : Gate where
  offset := BitVec.ofNat 64 ((m.readBytes a 2).toNat + 2 ^ 16 * (m.readBytes (a + 6) 2).toNat +
    2 ^ 32 * (m.readBytes (a + 8) 4).toNat)
  selector := (m.readBytes (a + 2) 2).toNat
  ist := (m.readBytes (a + 4) 1).toNat
  typeAttr := (m.readBytes (a + 5) 1).toNat

theorem mem_idtDesc (f : IdtField) : f ∈ idtDesc.map Prod.fst := by cases f <;> decide

theorem gateAt_eq : gateAt m a =
    ⟨BitVec.ofNat 64 (idtDesc.get m a .offset0 + 2 ^ 16 * idtDesc.get m a .offset1 + 2 ^ 32 * idtDesc.get m a .offset2),
      idtDesc.get m a .selector, idtDesc.get m a .ist, idtDesc.get m a .typeAttr⟩ := rfl

theorem gateAt_congr (h : idtDesc.Same a m m') : gateAt m' a = gateAt m a := by
  simp only [gateAt_eq, h.get (mem_idtDesc _)]

theorem toNat_piece (x : U64) (n k : Nat) (hk : k < 64) : (x >>> n &&& BitVec.ofNat 64 (2 ^ k - 1)).toNat =
    x.toNat / 2 ^ n % 2 ^ k := by
  have hlt : 2 ^ k ≤ 2 ^ 63 := Nat.pow_le_pow_right (by decide) (Nat.le_of_lt_succ hk)
  rw [BitVec.toNat_and, BitVec.toNat_ushiftRight, BitVec.toNat_ofNat, Nat.mod_eq_of_lt (by omega),
    Nat.and_two_pow_sub_one_eq_mod, Nat.shiftRight_eq_div_pow]

theorem gateAt_loadInterrupt (h : callback ≠ 0) : gateAt (loadInterrupt m idt vector callback typeAttr)
    (idtDescAddr idt vector) = ⟨callback, 0x08, 0, typeAttr.toNat⟩ := by
  have hne : ∀ {f g : IdtField} {m : Mem} {a v : Nat}, f ≠ g → idtDesc.get (idtDesc.set m a g v) a f = idtDesc.get m a f :=
    fun hfg => Packed.get_set_ne (mem_idtDesc _) (mem_idtDesc _) hfg
  have h0 : (callback >>> 0 &&& 0xffff).toNat = callback.toNat / 2 ^ 0 % 2 ^ 16 := toNat_piece callback 0 16 (by decide)
  have h1 : (callback >>> 16 &&& 0xffff).toNat = callback.toNat / 2 ^ 16 % 2 ^ 16 := toNat_piece callback 16 16 (by decide)
  have h2 : (callback >>> 32 &&& 0xffffffff).toNat = callback.toNat / 2 ^ 32 % 2 ^ 32 := toNat_piece callback 32 32 (by decide)
  have hoffset : callback.toNat / 2 ^ 0 % 2 ^ 16 % 2 ^ (8 * 2) + 2 ^ 16 * (callback.toNat / 2 ^ 16 % 2 ^ 16 % 2 ^ (8 * 2)) +
      2 ^ 32 * (callback.toNat / 2 ^ 32 % 2 ^ 32 % 2 ^ (8 * 4)) = callback.toNat := by
    have := callback.isLt
    omega
  have hattr : typeAttr.toNat % 2 ^ (8 * 1) = typeAttr.toNat := Nat.mod_eq_of_lt typeAttr.isLt
  rw [loadInterrupt, if_neg h, gateAt_eq]
  simp only [hne, ne_eq, reduceCtorEq, not_false_eq_true, Packed.get_set_same, h0, h1, h2]
  show (⟨BitVec.ofNat 64 (_ % 2 ^ (8 * 2) + 2 ^ 16 * (_ % 2 ^ (8 * 2)) + 2 ^ 32 * (_ % 2 ^ (8 * 4))), _, _,
    typeAttr.toNat % 2 ^ (8 * 1)⟩ : Gate) = _
  rw [hoffset, hattr, BitVec.ofNat_toNat, BitVec.setWidth_eq]
  rfl

theorem loadInterrupt_outside (h : k < idtDescAddr idt vector ∨ idtDescAddr idt vector + 16 ≤ k) :
    loadInterrupt m idt vector callback typeAttr k = m k := by
  have hout : ∀ {f : IdtField} {m : Mem} {v : Nat}, idtDesc.set m (idtDescAddr idt vector) f v k = m k :=
    fun {f m v} => Packed.set_outside (mem_idtDesc f) h
  rw [loadInterrupt]
  split
  · rfl
  · simp only [hout]

theorem gateAt_loadInterrupt_ne {w : BitVec 8} (h : w ≠ vector) :
    gateAt (loadInterrupt m idt vector callback typeAttr) (idtDescAddr idt w) = gateAt m (idtDescAddr idt w) := by
  have hsize : idtDesc.size = 16 := rfl
  have hne : w.toNat ≠ vector.toNat := fun e => h (BitVec.eq_of_toNat_eq e)
  refine gateAt_congr fun k hk hk' => loadInterrupt_outside ?_
  unfold idtDescAddr at hk hk' ⊢
  rw [hsize] at hk hk' ⊢
  omega

def gateOf (stubs : StubAddrs) (vector : BitVec 8) : Option Gate :=
  if vector.toNat < 31 then some ⟨stubs.exceptions vector.toNat, 0x08, 0, IDT_TA_Interrupt.toNat⟩
  else if vector = 34 then some ⟨stubs.isr34, 0x08, 0, IDT_TA_Interrupt.toNat⟩
  else if vector = 128 then some ⟨stubs.isr128, 0x08, 0, IDT_TA_SystemCall.toNat⟩
  else none

structure StubAddrs.Linked (stubs : StubAddrs) : Prop where
  exceptions : ∀ i < 31, stubs.exceptions i ≠ 0
  isr34 : stubs.isr34 ≠ 0
  isr128 : stubs.isr128 ≠ 0

theorem gateAt_idtInitialize {stubs : StubAddrs} (h : stubs.Linked) (vector : BitVec 8) :
    gateAt (idtInitialize m idt stubs) (idtDescAddr idt vector) =
      (gateOf stubs vector).getD (gateAt m (idtDescAddr idt vector)) := by
  obtain ⟨m₁, hm₁⟩ : ∃ m₁, m₁ = upto (fun i m => loadInterrupt m idt (BitVec.ofNat 8 i) (stubs.exceptions i)
    IDT_TA_Interrupt) m 31 := ⟨_, rfl⟩
  have hexceptions : gateAt m₁ (idtDescAddr idt vector) =
      if vector.toNat < 31 then ⟨stubs.exceptions vector.toNat, 0x08, 0, IDT_TA_Interrupt.toNat⟩
      else gateAt m (idtDescAddr idt vector) := by
    rw [hm₁]
    refine upto_rule (fun i t => gateAt t (idtDescAddr idt vector) =
      if vector.toNat < i then ⟨stubs.exceptions vector.toNat, 0x08, 0, IDT_TA_Interrupt.toNat⟩
      else gateAt m (idtDescAddr idt vector)) rfl fun i t hi ht => ?_
    have hnum : (BitVec.ofNat 8 i).toNat = i := by
      rw [BitVec.toNat_ofNat]
      omega
    by_cases hv : vector.toNat = i
    · have hvec : vector = BitVec.ofNat 8 i := BitVec.eq_of_toNat_eq (hv.trans hnum.symm)
      rw [if_pos (by omega), hv]
      exact hvec ▸ gateAt_loadInterrupt (h.exceptions i hi)
    · rw [gateAt_loadInterrupt_ne (fun e => hv (by rw [e, hnum])), ht]
      exact if_congr (by omega) rfl rfl
  have hinit : idtInitialize m idt stubs = loadInterrupt (loadInterrupt m₁ idt 34 stubs.isr34 IDT_TA_Interrupt) idt 128
      stubs.isr128 IDT_TA_SystemCall := by rw [hm₁]; rfl
  rw [hinit, gateOf]
  by_cases h128 : vector = 128
  · subst h128
    rw [gateAt_loadInterrupt h.isr128, if_neg (by decide), if_neg (by decide), if_pos rfl]
    rfl
  · rw [gateAt_loadInterrupt_ne h128]
    by_cases h34 : vector = 34
    · subst h34
      rw [gateAt_loadInterrupt h.isr34, if_neg (by decide), if_pos rfl]
      rfl
    · rw [gateAt_loadInterrupt_ne h34, hexceptions, if_neg h34, if_neg h128]
      split <;> rfl

theorem idtInitialize_outside {stubs : StubAddrs} (h : k < idt.toNat ∨ idt.toNat + 0x1000 ≤ k) :
    idtInitialize m idt stubs k = m k := by
  have hout : ∀ {m : Mem} {v : BitVec 8} {c : U64} {ta : BitVec 8}, loadInterrupt m idt v c ta k = m k := fun {m v c ta} => by
    have hsize : idtDesc.size = 16 := rfl
    refine loadInterrupt_outside ?_
    unfold idtDescAddr
    rw [hsize]
    omega
  unfold idtInitialize
  simp only [hout]
  exact upto_rule (fun _ (t : Mem) => t k = m k) rfl fun i t _ ht => hout.trans ht

-- ---------------------------------------------------------------------------
-- The global descriptor table and the task state segment
-- ---------------------------------------------------------------------------

inductive SegmentField where
  | limit0 | base0 | base1 | access | limit1Flags | base2
  deriving DecidableEq, Repr

def gdtEntry : Packed SegmentField :=
  [(.limit0, 2), (.base0, 2), (.base1, 1), (.access, 1), (.limit1Flags, 1), (.base2, 1)]

inductive SystemField where
  | lower (f : SegmentField) | base3 | reserved0
  deriving DecidableEq, Repr

def gdtEntryX : Packed SystemField :=
  gdtEntry.map (fun (f, n) => (.lower f, n)) ++ [(.base3, 4), (.reserved0, 4)]

inductive GdtField where
  | null | kernelCode | kernelData | userCode | userData | tss
  deriving DecidableEq, Repr

def structGdt : Packed GdtField :=
  [(.null, 8), (.kernelCode, 8), (.kernelData, 8), (.userCode, 8), (.userData, 8), (.tss, 16)]

inductive TssField where
  | reserved0 | rsp0 | rsp1 | rsp2 | reserved1 | ist1 | ist2 | ist3 | ist4 | ist5 | ist6 | ist7 | reserved2 | iopbOffset
  deriving DecidableEq, Repr

def structTss : Packed TssField :=
  [(.reserved0, 4), (.rsp0, 8), (.rsp1, 8), (.rsp2, 8), (.reserved1, 8), (.ist1, 8), (.ist2, 8), (.ist3, 8), (.ist4, 8),
    (.ist5, 8), (.ist6, 8), (.ist7, 8), (.reserved2, 4), (.iopbOffset, 4)]

def DA_ACCESSED : U64 := 1 <<< 0
def DA_RW : U64 := 1 <<< 1
def DA_EXE : U64 := 1 <<< 3
def DA_CODE_DATA : U64 := 1 <<< 4
def DA_RING_3 : U64 := 1 <<< 5 ||| 1 <<< 6
def DA_PRESENT : U64 := 1 <<< 7

def DF_LONG_GRAN : U64 := 1 <<< 1
def DF_SIZE : U64 := 1 <<< 2

def GDT_ENTRY (base limit access flags : U64) : SegmentField → Nat
  | .limit0 => (limit &&& 0xffff).toNat
  | .base0 => (base &&& 0xffff).toNat
  | .base1 => (base >>> 16 &&& 0xff).toNat
  | .access => (access ||| DA_PRESENT).toNat
  | .limit1Flags => (limit >>> 16 ||| flags <<< 4).toNat
  | .base2 => (base >>> 24).toNat

def segmentFields : List SegmentField := gdtEntry.map Prod.fst

def segmentOf : GdtField → SegmentField → Nat
  | .null => GDT_ENTRY 0 0 0 0
  | .kernelCode => GDT_ENTRY 0 0xfffff (DA_RW ||| DA_CODE_DATA ||| DA_EXE) DF_LONG_GRAN
  | .kernelData => GDT_ENTRY 0 0xfffff (DA_RW ||| DA_CODE_DATA) 0
  | .userCode => GDT_ENTRY 0 0xfffff (DA_RW ||| DA_CODE_DATA ||| DA_EXE ||| DA_RING_3) DF_LONG_GRAN
  | .userData => GDT_ENTRY 0 0xfffff (DA_RW ||| DA_CODE_DATA ||| DA_RING_3) 0
  | .tss => fun _ => 0

def gdtImage (m : Mem) (gdt : U64) : Mem :=
  [GdtField.null, .kernelCode, .kernelData, .userCode, .userData].foldl
    (fun m f => gdtEntry.fill m (gdt.toNat + structGdt.offset f) (segmentOf f) segmentFields) m

def tssEntryAddr (gdt : U64) : Nat := gdt.toNat + structGdt.offset .tss

/-- `gdt.tss.lower_entry`. -/
def tssEntry (tss : U64) : SegmentField → Nat :=
  GDT_ENTRY (tss &&& 0xffffffff) (BitVec.ofNat 64 structTss.size) (DA_EXE ||| DA_ACCESSED) DF_SIZE

def gdtInitialize (m : Mem) (gdt tss kernelStack : U64) : Mem :=
  let m := gdtEntry.fill m (tssEntryAddr gdt) (tssEntry tss) segmentFields
  let m := gdtEntryX.set m (tssEntryAddr gdt) .base3 (tss >>> 32).toNat
  let m := gdtEntryX.set m (tssEntryAddr gdt) .reserved0 0
  let m := Libk.memset m tss.toNat 0 structTss.size
  let m := structTss.set m tss.toNat .rsp0 kernelStack.toNat
  let m := structTss.set m tss.toNat .ist1 0
  structTss.set m tss.toNat .iopbOffset structTss.size

structure Segment where
  base : Nat
  access : Nat
  flags : Nat
  limit : Nat
  deriving DecidableEq

def segmentAt (m : Mem) (a : Nat) : Segment where
  base := (m.readBytes (a + 2) 2).toNat + 2 ^ 16 * (m.readBytes (a + 4) 1).toNat + 2 ^ 24 * (m.readBytes (a + 7) 1).toNat
  access := (m.readBytes (a + 5) 1).toNat
  flags := (m.readBytes (a + 6) 1).toNat / 16
  limit := (m.readBytes a 2).toNat + 2 ^ 16 * ((m.readBytes (a + 6) 1).toNat % 16)

/-- The base in a descriptor of a task state segment, which is twice as long. -/
def systemBase (m : Mem) (a : Nat) : Nat := (segmentAt m a).base + 2 ^ 32 * (m.readBytes (a + 8) 4).toNat

theorem mem_gdtEntry (f : SegmentField) : f ∈ gdtEntry.map Prod.fst := by cases f <;> decide

theorem mem_gdtEntryX (f : SystemField) : f ∈ gdtEntryX.map Prod.fst := by
  cases f with
  | lower f => cases f <;> decide
  | _ => decide

theorem mem_structTss (f : TssField) : f ∈ structTss.map Prod.fst := by cases f <;> decide

theorem segmentAt_congr (h : gdtEntry.Same a m m') : segmentAt m' a = segmentAt m a := by
  have hread : ∀ {o n}, o + n ≤ 8 → m'.readBytes (a + o) n = m.readBytes (a + o) n := fun hn =>
    Mem.readBytes_congr fun k hk hk' => h k (by omega) (by
      have hsize : gdtEntry.size = 8 := rfl
      omega)
  have h0 : m'.readBytes a 2 = m.readBytes a 2 := hread (o := 0) (n := 2) (by decide)
  unfold segmentAt
  rw [hread (o := 2) (by decide), hread (o := 4) (by decide), hread (o := 7) (by decide), hread (o := 5) (by decide),
    hread (o := 6) (by decide), h0]

def Segment.ofEntry (val : SegmentField → Nat) : Segment where
  base := val .base0 % 2 ^ 16 + 2 ^ 16 * (val .base1 % 2 ^ 8) + 2 ^ 24 * (val .base2 % 2 ^ 8)
  access := val .access % 2 ^ 8
  flags := val .limit1Flags % 2 ^ 8 / 16
  limit := val .limit0 % 2 ^ 16 + 2 ^ 16 * (val .limit1Flags % 2 ^ 8 % 16)

theorem segmentAt_fill {val : SegmentField → Nat} :
    segmentAt (gdtEntry.fill m a val segmentFields) a = Segment.ofEntry val := by
  have hget : ∀ f, gdtEntry.get (gdtEntry.fill m a val segmentFields) a f = val f % 2 ^ (8 * gdtEntry.fieldSize f) :=
    fun f => Packed.get_fill (fun g _ => mem_gdtEntry g) (mem_gdtEntry f) (.inl (mem_gdtEntry f))
  have h : segmentAt (gdtEntry.fill m a val segmentFields) a =
      ⟨gdtEntry.get (gdtEntry.fill m a val segmentFields) a .base0 +
        2 ^ 16 * gdtEntry.get (gdtEntry.fill m a val segmentFields) a .base1 +
        2 ^ 24 * gdtEntry.get (gdtEntry.fill m a val segmentFields) a .base2,
      gdtEntry.get (gdtEntry.fill m a val segmentFields) a .access,
      gdtEntry.get (gdtEntry.fill m a val segmentFields) a .limit1Flags / 16,
      gdtEntry.get (gdtEntry.fill m a val segmentFields) a .limit0 +
        2 ^ 16 * (gdtEntry.get (gdtEntry.fill m a val segmentFields) a .limit1Flags % 16)⟩ := rfl
  rw [h]
  simp only [hget]
  rfl

theorem fill_segmentFields_outside {val : SegmentField → Nat} (h : k < a ∨ a + 8 ≤ k) :
    gdtEntry.fill m a val segmentFields k = m k :=
  Packed.fill_outside h fun g _ => mem_gdtEntry g

-- ---------------------------------------------------------------------------
-- The tables after `gdt_initialize`
-- ---------------------------------------------------------------------------

theorem mem_structGdt (f : GdtField) : f ∈ structGdt.map Prod.fst := by cases f <;> decide

theorem le_structGdt (f : GdtField) : 8 ≤ structGdt.fieldSize f := by cases f <;> decide

theorem segmentAt_image {fs : List GdtField} {f : GdtField} (hfs : ∀ g ∈ fs, g ∈ structGdt.map Prod.fst)
    (hf : f ∈ structGdt.map Prod.fst)
    (h : f ∈ fs ∨ segmentAt m (gdt.toNat + structGdt.offset f) = Segment.ofEntry (segmentOf f)) :
    segmentAt (fs.foldl (fun m f => gdtEntry.fill m (gdt.toNat + structGdt.offset f) (segmentOf f) segmentFields) m)
      (gdt.toNat + structGdt.offset f) = Segment.ofEntry (segmentOf f) := by
  induction fs generalizing m with
  | nil => exact h.resolve_left List.not_mem_nil
  | cons g fs ih =>
    refine ih (fun x hx => hfs x (List.mem_cons_of_mem _ hx)) ?_
    by_cases hfg : f = g
    · exact .inr (hfg ▸ segmentAt_fill)
    · refine h.imp (fun hm => (List.mem_cons.mp hm).resolve_left hfg) fun hm => ?_
      have hapart := Packed.fields_apart hf (hfs g List.mem_cons_self) hfg
      have h8 := le_structGdt f
      have h8' := le_structGdt g
      rw [← hm]
      refine segmentAt_congr fun k hk hk' => fill_segmentFields_outside ?_
      rw [show gdtEntry.size = 8 from rfl] at hk'
      omega

theorem segmentAt_gdtImage {f : GdtField} (h : f ≠ .tss) :
    segmentAt (gdtImage m gdt) (gdt.toNat + structGdt.offset f) = Segment.ofEntry (segmentOf f) :=
  segmentAt_image (fun g _ => mem_structGdt g) (mem_structGdt f) (.inl (by cases f <;> first | decide | exact absurd rfl h))

theorem gdtInitialize_entry (h : k < tss.toNat ∨ tss.toNat + 100 ≤ k) : gdtInitialize m gdt tss kernelStack k =
    gdtEntryX.set (gdtEntryX.set (gdtEntry.fill m (tssEntryAddr gdt) (tssEntry tss) segmentFields) (tssEntryAddr gdt)
      .base3 (tss >>> 32).toNat) (tssEntryAddr gdt) .reserved0 0 k := by
  have hout : ∀ {f : TssField} {m : Mem} {v : Nat}, structTss.set m tss.toNat f v k = m k :=
    fun {f m v} => Packed.set_outside (mem_structTss f) h
  unfold gdtInitialize
  simp only [hout]
  exact Libk.memset_outside h

theorem gdtInitialize_outside (hentry : k < tssEntryAddr gdt ∨ tssEntryAddr gdt + 16 ≤ k)
    (htss : k < tss.toNat ∨ tss.toNat + 100 ≤ k) : gdtInitialize m gdt tss kernelStack k = m k := by
  rw [gdtInitialize_entry htss, Packed.set_outside (mem_gdtEntryX _) hentry, Packed.set_outside (mem_gdtEntryX _) hentry,
    fill_segmentFields_outside (by omega)]

theorem segmentAt_tssEntry (m : Mem) (kernelStack : U64)
    (h : tssEntryAddr gdt + 16 ≤ tss.toNat ∨ tss.toNat + 100 ≤ tssEntryAddr gdt) :
    segmentAt (gdtInitialize m gdt tss kernelStack) (tssEntryAddr gdt) = Segment.ofEntry (tssEntry tss) := by
  obtain ⟨a, ha⟩ : ∃ a, a = tssEntryAddr gdt := ⟨_, rfl⟩
  rw [← ha] at h ⊢
  rw [← segmentAt_fill (m := m) (a := a)]
  refine segmentAt_congr fun k hk hk' => ?_
  rw [show gdtEntry.size = 8 from rfl] at hk'
  rw [gdtInitialize_entry (by omega), ← ha]
  exact (Mem.writeBytes_outside (.inl (show k < a + 12 by omega))).trans (Mem.writeBytes_outside (.inl hk'))

theorem base_tssEntry : (Segment.ofEntry (tssEntry tss)).base = tss.toNat % 2 ^ 32 := by
  have hlow32 : (tss &&& 0xffffffff).toNat = tss.toNat % 2 ^ 32 := by
    rw [BitVec.toNat_and]
    exact Nat.and_two_pow_sub_one_eq_mod _ 32
  have h0 : (tss &&& 0xffffffff &&& 0xffff).toNat = tss.toNat % 2 ^ 32 % 2 ^ 16 := by
    rw [BitVec.toNat_and, hlow32]
    exact Nat.and_two_pow_sub_one_eq_mod _ 16
  have h1 : ((tss &&& 0xffffffff) >>> 16 &&& 0xff).toNat = tss.toNat % 2 ^ 32 / 2 ^ 16 % 2 ^ 8 := by
    rw [← hlow32]
    exact toNat_piece (tss &&& 0xffffffff) 16 8 (by decide)
  have h2 : ((tss &&& 0xffffffff) >>> 24).toNat = tss.toNat % 2 ^ 32 / 2 ^ 24 := by
    rw [BitVec.toNat_ushiftRight, hlow32, Nat.shiftRight_eq_div_pow]
  show (tss &&& 0xffffffff &&& 0xffff).toNat % 2 ^ 16 + 2 ^ 16 * (((tss &&& 0xffffffff) >>> 16 &&& 0xff).toNat % 2 ^ 8) +
    2 ^ 24 * (((tss &&& 0xffffffff) >>> 24).toNat % 2 ^ 8) = _
  rw [h0, h1, h2]
  omega

theorem systemBase_tssEntry (m : Mem) (kernelStack : U64)
    (h : tssEntryAddr gdt + 16 ≤ tss.toNat ∨ tss.toNat + 100 ≤ tssEntryAddr gdt) :
    systemBase (gdtInitialize m gdt tss kernelStack) (tssEntryAddr gdt) = tss.toNat := by
  obtain ⟨a, ha⟩ : ∃ a, a = tssEntryAddr gdt := ⟨_, rfl⟩
  obtain ⟨m₁, hm₁⟩ : ∃ m₁, m₁ = gdtEntryX.set (gdtEntryX.set (gdtEntry.fill m a (tssEntry tss) segmentFields) a .base3
    (tss >>> 32).toNat) a .reserved0 0 := ⟨_, rfl⟩
  have hread : (gdtInitialize m gdt tss kernelStack).readBytes (a + 8) 4 = m₁.readBytes (a + 8) 4 :=
    Mem.readBytes_congr fun k hk hk' => by rw [gdtInitialize_entry (by omega), hm₁, ha]
  have hget : gdtEntryX.get m₁ a .base3 = (tss >>> 32).toNat % 2 ^ (8 * 4) := by
    rw [hm₁, Packed.get_set_ne (mem_gdtEntryX _) (mem_gdtEntryX _) (by decide)]
    exact Packed.get_set_same
  have hbase3 : ((gdtInitialize m gdt tss kernelStack).readBytes (a + 8) 4).toNat = tss.toNat / 2 ^ 32 := by
    rw [hread]
    refine Eq.trans hget ?_
    have := tss.isLt
    rw [BitVec.toNat_ushiftRight, Nat.shiftRight_eq_div_pow]
    omega
  rw [systemBase, segmentAt_tssEntry m kernelStack h, base_tssEntry, ← ha, hbase3]
  omega

theorem rsp0_gdtInitialize (m : Mem) (gdt tss kernelStack : U64) :
    (gdtInitialize m gdt tss kernelStack).read64 (tss.toNat + 4) = kernelStack := by
  refine BitVec.eq_of_toNat_eq ?_
  have hget : structTss.get (gdtInitialize m gdt tss kernelStack) tss.toNat .rsp0 = kernelStack.toNat % 2 ^ (8 * 8) := by
    unfold gdtInitialize
    rw [Packed.get_set_ne (mem_structTss _) (mem_structTss _) (by decide),
      Packed.get_set_ne (mem_structTss _) (mem_structTss _) (by decide)]
    exact Packed.get_set_same
  exact hget.trans (Nat.mod_eq_of_lt kernelStack.isLt)

end ShedOS.Interrupts
