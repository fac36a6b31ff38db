import ShedOS.Interrupts.Asm
import ShedOS.Interrupts.Descriptors

/-!
# Delivery

How the processor goes through the tables when user mode is interrupted, and
when it returns there. What comes out with the tables of the kernel is what
`Core.enter` takes for granted, and which stub runs.
-/

namespace ShedOS.Interrupts

open Bytes Layout Memory
open ShedOS.Task

variable {σ η : Type} {s : Core σ η} {m m' : Mem} {idt gdt tss kernelStack : U64} {stubs : StubAddrs} {k : Nat}

-- ---------------------------------------------------------------------------
-- The processor
-- ---------------------------------------------------------------------------

namespace Segment

def Present (d : Segment) : Prop := d.access / 128 = 1

def privilege (d : Segment) : Nat := d.access / 32 % 4

def LongCode (d : Segment) : Prop := d.access / 4 % 8 = 6 ∧ d.flags / 2 % 4 = 1

def WritableData (d : Segment) : Prop := d.access / 8 % 4 = 2 ∧ d.access / 2 % 2 = 1

instance (d : Segment) : Decidable d.Present := inferInstanceAs (Decidable (_ = _))
instance (d : Segment) : Decidable d.LongCode := inferInstanceAs (Decidable (_ ∧ _))
instance (d : Segment) : Decidable d.WritableData := inferInstanceAs (Decidable (_ ∧ _))

end Segment

/-- The table registers, with what `ltr` keeps of the descriptor. -/
structure Tables where
  idtr : Nat
  idtLimit : Nat
  gdtr : Nat
  gdtLimit : Nat
  trBase : Nat
  trLimit : Nat

namespace Tables

/-- `gdt_load`, `tss_load` and `lidt`. An available task state segment has type 9. -/
def load (m : Mem) (idt gdt : U64) : Option Tables :=
  let descriptor := segmentAt m (gdt.toNat + 0x28)
  if descriptor.Present ∧ descriptor.access % 32 = 9 then
    some
      { idtr := idt.toNat
        idtLimit := Interrupts.idtLimit
        gdtr := gdt.toNat
        gdtLimit := structGdt.size - 1
        trBase := systemBase m (gdt.toNat + 0x28)
        trLimit := descriptor.limit }
  else none

/-- The low three bits of a selector are the privilege asked for and which
table is meant. -/
def segment? (t : Tables) (m : Mem) (selector : Nat) : Option Segment :=
  if 8 ≤ selector ∧ selector % 8 < 4 ∧ selector / 8 * 8 + 7 ≤ t.gdtLimit then
    some (segmentAt m (t.gdtr + selector / 8 * 8))
  else none

theorem segment?_privilege {t : Tables} (selector rpl : Nat) (h : selector % 8 = 0) (hrpl : rpl < 4) :
    t.segment? m (selector + rpl) = t.segment? m selector := by
  unfold segment?
  rw [show (selector + rpl) / 8 = selector / 8 by omega]
  exact if_congr (by omega) rfl rfl

def stackOffset (ist : Nat) : Nat := if ist % 8 = 0 then 4 else 36 + 8 * (ist % 8 - 1)

/-- An interrupt gate or a trap gate to ring 0, from outside of it; `software`
is for the `int` instructions. Without a result the processor raises another
exception instead. -/
def deliver (t : Tables) (s : Core σ η) (software : Bool) (vector : BitVec 8) : Option (Core σ η) := do
  let m := s.kernel.kmem
  let gate := gateAt m (t.idtr + 16 * vector.toNat)
  guard (16 * vector.toNat + 15 ≤ t.idtLimit)
  guard (gate.typeAttr % 32 = 0xe ∨ gate.typeAttr % 32 = 0xf)
  guard (software → s.cs.toNat % 4 ≤ gate.typeAttr / 32 % 4)
  guard (gate.typeAttr / 128 = 1)
  let segment ← t.segment? m gate.selector
  guard (segment.LongCode ∧ segment.Present ∧ segment.privilege = 0 ∧ 0 < s.cs.toNat % 4)
  guard (stackOffset gate.ist + 7 ≤ t.trLimit)
  let user := s
  let s := s.withRsp (m.read64 (t.trBase + stackOffset gate.ist) &&& ~~~0xf)
  let s := ((((s.push user.ss).push user.rsp).push user.rflags).push user.cs).push user.rip
  some
    { s with
      rip := gate.offset
      rflags := if gate.typeAttr % 32 = 0xe then s.rflags &&& ~~~FLAG_IF else s.rflags
      cs := BitVec.ofNat 64 (gate.selector / 4 * 4)
      ss := 0 }

/-- What `iretq` asks of the segments, on the way out to ring 3. -/
def Returns (t : Tables) (m : Mem) (cs ss : U64) : Prop :=
  cs.toNat % 4 = 3 ∧ ss.toNat % 4 = 3 ∧
  (∃ code, t.segment? m cs.toNat = some code ∧ code.LongCode ∧ code.Present ∧ code.privilege = 3) ∧
  ∃ stack, t.segment? m ss.toNat = some stack ∧ stack.WritableData ∧ stack.Present ∧ stack.privilege = 3

end Tables

-- ---------------------------------------------------------------------------
-- The tables of the kernel
-- ---------------------------------------------------------------------------

structure TablesApart (idt gdt tss : U64) : Prop where
  idt_gdt : idt.toNat + 0x1000 ≤ gdt.toNat ∨ gdt.toNat + 56 ≤ idt.toNat
  idt_tss : idt.toNat + 0x1000 ≤ tss.toNat ∨ tss.toNat + 100 ≤ idt.toNat
  gdt_tss : gdt.toNat + 56 ≤ tss.toNat ∨ tss.toNat + 100 ≤ gdt.toNat

def InTables (idt gdt tss : U64) (k : Nat) : Prop :=
  (idt.toNat ≤ k ∧ k < idt.toNat + 0x1000) ∨ (gdt.toNat ≤ k ∧ k < gdt.toNat + 56) ∨
    (tss.toNat ≤ k ∧ k < tss.toNat + 100)

def bootTables (m : Mem) (idt gdt tss kernelStack : U64) (stubs : StubAddrs) : Mem :=
  idtInitialize (gdtInitialize (gdtImage m gdt) gdt tss kernelStack) idt stubs

theorem idtDescAddr_lt {vector : BitVec 8} : 16 * vector.toNat + 15 ≤ idtLimit := by
  have : vector.toNat ≤ 255 := Nat.le_of_lt_succ vector.isLt
  unfold idtLimit
  omega

theorem gdtImage_outside (h : k < gdt.toNat ∨ gdt.toNat + 56 ≤ k) : gdtImage m gdt k = m k := by
  have hout : ∀ {f : GdtField} {m : Mem}, gdtEntry.fill m (gdt.toNat + structGdt.offset f) (segmentOf f) segmentFields k =
      m k := fun {f m} => by
    have hle := Packed.offset_add_fieldSize_le (mem_structGdt f)
    have h8 := le_structGdt f
    rw [show structGdt.size = 56 from rfl] at hle
    exact fill_segmentFields_outside (by omega)
  simp only [gdtImage, List.foldl_cons, List.foldl_nil, hout]

theorem tssEntryAddr_eq : tssEntryAddr gdt = gdt.toNat + 40 := rfl

theorem gateAt_bootTables (h : TablesApart idt gdt tss) (hlinked : stubs.Linked)
    (hzero : ∀ k, idt.toNat ≤ k → k < idt.toNat + 0x1000 → m k = 0) (vector : BitVec 8) :
    gateAt (bootTables m idt gdt tss kernelStack stubs) (idtDescAddr idt vector) =
      (gateOf stubs vector).getD ⟨0, 0, 0, 0⟩ := by
  have hvector : vector.toNat ≤ 255 := Nat.le_of_lt_succ vector.isLt
  obtain ⟨hgdt, htss, -⟩ := h
  have hempty : gateAt (gdtInitialize (gdtImage m gdt) gdt tss kernelStack) (idtDescAddr idt vector) =
      gateAt (fun _ => 0) (idtDescAddr idt vector) := by
    refine gateAt_congr fun k hk hk' => ?_
    rw [idtDescAddr, show idtDesc.size = 16 from rfl] at hk hk'
    rw [gdtInitialize_outside (by rw [tssEntryAddr_eq]; omega) (by omega), gdtImage_outside (by omega),
      hzero k (by omega) (by omega)]
  rw [bootTables, gateAt_idtInitialize hlinked, hempty]
  congr 1
  have hread : ∀ {a n}, Mem.readBytes (fun _ => 0) a n = 0 := fun {a n} =>
    BitVec.eq_of_getLsbD_eq fun i hi => by
      rw [Mem.getLsbD_readBytes hi]
      simp
  simp only [gateAt, hread]
  rfl

theorem segmentAt_bootTables (h : TablesApart idt gdt tss) {f : GdtField} (hf : f ≠ .tss) :
    segmentAt (bootTables m idt gdt tss kernelStack stubs) (gdt.toNat + structGdt.offset f) =
      Segment.ofEntry (segmentOf f) := by
  obtain ⟨hgdt, -, htss⟩ := h
  have hoff : structGdt.offset f + 8 ≤ 40 := by cases f <;> first | decide | exact absurd rfl hf
  rw [← segmentAt_gdtImage (m := m) hf]
  refine segmentAt_congr fun k hk hk' => ?_
  rw [show gdtEntry.size = 8 from rfl] at hk'
  rw [bootTables, idtInitialize_outside (by omega), gdtInitialize_outside (by rw [tssEntryAddr_eq]; omega) (by omega)]

theorem rsp0_bootTables (h : TablesApart idt gdt tss) :
    (bootTables m idt gdt tss kernelStack stubs).read64 (tss.toNat + 4) = kernelStack := by
  refine Eq.trans ?_ (rsp0_gdtInitialize (gdtImage m gdt) gdt tss kernelStack)
  have := h.idt_tss
  exact Mem.read64_congr fun k hk hk' => idtInitialize_outside (by omega)

theorem load_gdtInitialize (h : TablesApart idt gdt tss) :
    Tables.load (gdtInitialize (gdtImage m gdt) gdt tss kernelStack) idt gdt =
      some ⟨idt.toNat, idtLimit, gdt.toNat, 55, tss.toNat, 100⟩ := by
  have happart : tssEntryAddr gdt + 16 ≤ tss.toNat ∨ tss.toNat + 100 ≤ tssEntryAddr gdt := by
    have := h.gdt_tss
    rw [tssEntryAddr_eq]
    omega
  have hentry := segmentAt_tssEntry (gdtImage m gdt) kernelStack happart
  have hbase := systemBase_tssEntry (gdtImage m gdt) kernelStack happart
  rw [tssEntryAddr_eq] at hentry hbase
  have haccess : (Segment.ofEntry (tssEntry tss)).access = 0x89 := rfl
  have hlimit : (Segment.ofEntry (tssEntry tss)).limit = 100 := by
    show (BitVec.ofNat 64 structTss.size &&& 0xffff).toNat % 2 ^ 16 +
      2 ^ 16 * ((BitVec.ofNat 64 structTss.size >>> 16 ||| DF_SIZE <<< 4).toNat % 2 ^ 8 % 16) = 100
    decide
  simp only [Tables.load, hentry, hbase, hlimit, Segment.Present, haccess]
  rfl

def stubOf (stubs : StubAddrs) (software : Bool) (vector : BitVec 8) : Option U64 :=
  if vector = 128 then some stubs.isr128
  else if software then none
  else if vector.toNat < 31 then some (stubs.exceptions vector.toNat)
  else if vector = 34 then some stubs.isr34
  else none

structure TablesOk (t : Tables) (m : Mem) (idt tss kernelStack : U64) (stubs : StubAddrs) : Prop where
  idtr : t.idtr = idt.toNat
  idtLimit : t.idtLimit = Interrupts.idtLimit
  trLimit : t.trLimit = 100
  gate : ∀ vector, gateAt m (idtDescAddr idt vector) = (gateOf stubs vector).getD ⟨0, 0, 0, 0⟩
  segment : ∀ f ≠ GdtField.tss, f ≠ .null → t.segment? m (structGdt.offset f) = some (Segment.ofEntry (segmentOf f))
  rsp0 : m.read64 (t.trBase + 4) = kernelStack

theorem tablesOk_boot (h : TablesApart idt gdt tss) (hlinked : stubs.Linked)
    (hzero : ∀ k, idt.toNat ≤ k → k < idt.toNat + 0x1000 → m k = 0)
    (hsame : ∀ k, InTables idt gdt tss k → m' k = bootTables m idt gdt tss kernelStack stubs k) :
    TablesOk ⟨idt.toNat, idtLimit, gdt.toNat, 55, tss.toNat, 100⟩ m' idt tss kernelStack stubs where
  idtr := rfl
  idtLimit := rfl
  trLimit := rfl
  gate vector := by
    have hvector : vector.toNat ≤ 255 := Nat.le_of_lt_succ vector.isLt
    refine (gateAt_congr (m := bootTables m idt gdt tss kernelStack stubs) fun k hk hk' => hsame k (.inl ?_)).trans
      (gateAt_bootTables h hlinked hzero vector)
    rw [idtDescAddr, show idtDesc.size = 16 from rfl] at hk hk'
    omega
  segment f hf hnull := by
    have hoff : 8 ≤ structGdt.offset f ∧ structGdt.offset f % 8 = 0 ∧ structGdt.offset f + 8 ≤ 40 := by
      cases f <;> first | decide | exact absurd rfl hf | exact absurd rfl hnull
    rw [Tables.segment?, if_pos ⟨hoff.1, by omega, by dsimp only; omega⟩,
      show structGdt.offset f / 8 * 8 = structGdt.offset f by omega, ← segmentAt_bootTables (m := m) h hf]
    refine congrArg some (segmentAt_congr fun k hk hk' => hsame k (.inr (.inl ?_)))
    rw [show gdtEntry.size = 8 from rfl] at hk'
    dsimp only at hk hk'
    omega
  rsp0 := (Mem.read64_congr fun k hk hk' => hsame k (.inr (.inr (by dsimp only at hk hk'; omega)))).trans
    (rsp0_bootTables h)

-- ---------------------------------------------------------------------------
-- What the processor makes of them
-- ---------------------------------------------------------------------------

section Deliver

variable {t : Tables} (ok : TablesOk t s.kernel.kmem idt tss kernelStack stubs) (hcs : s.cs = USER_CODE)
  (hrsp0 : s.tssRsp0 = kernelStack) {software : Bool} {vector : BitVec 8} {offset : U64} {typeAttr : BitVec 8}

include ok hcs hrsp0

theorem deliver_taken (hgate : gateOf stubs vector = some ⟨offset, 0x08, 0, typeAttr.toNat⟩)
    (htype : typeAttr.toNat % 32 = 0xe ∧ typeAttr.toNat / 128 = 1)
    (hdpl : software → 3 ≤ typeAttr.toNat / 32 % 4) :
    t.deliver s software vector = some { s.enter with rip := offset } := by
  have hread := ok.gate vector
  rw [hgate, Option.getD_some] at hread
  have haddr : t.idtr + 16 * vector.toNat = idtDescAddr idt vector := by rw [ok.idtr]; rfl
  have hsegment : t.segment? s.kernel.kmem 0x08 = some (Segment.ofEntry (segmentOf .kernelCode)) :=
    ok.segment .kernelCode (by decide) (by decide)
  have hcpl : s.cs.toNat % 4 = 3 := by rw [hcs]; rfl
  have hlimit : 16 * vector.toNat + 15 ≤ t.idtLimit := ok.idtLimit ▸ idtDescAddr_lt
  have hstack : s.kernel.kmem.read64 (t.trBase + Tables.stackOffset 0) &&& ~~~0xf = s.tssRsp0 &&& ~~~0xf := by
    rw [hrsp0, show Tables.stackOffset 0 = 4 from rfl, ok.rsp0]
  have htr : Tables.stackOffset 0 + 7 ≤ t.trLimit := by
    rw [ok.trLimit]
    decide
  simp only [Tables.deliver, haddr, hread, hsegment, hlimit, htype.1, htype.2, hcpl, htr, guard, true_or, ↓reduceIte]
  rw [if_pos hdpl]
  simp only [hstack]
  rfl

omit hcs hrsp0 in
theorem deliver_empty (hgate : gateOf stubs vector = none) : t.deliver s software vector = none := by
  have hread := ok.gate vector
  rw [hgate, Option.getD_none] at hread
  have haddr : t.idtr + 16 * vector.toNat = idtDescAddr idt vector := by rw [ok.idtr]; rfl
  simp only [Tables.deliver, haddr, hread, guard]
  split <;> rfl

omit hrsp0 in
/-- An `int` instruction takes no gate that only the processor may take. -/
theorem deliver_refused (hgate : gateOf stubs vector = some ⟨offset, 0x08, 0, typeAttr.toNat⟩)
    (hdpl : typeAttr.toNat / 32 % 4 < 3) : t.deliver s true vector = none := by
  have hread := ok.gate vector
  rw [hgate, Option.getD_some] at hread
  have haddr : t.idtr + 16 * vector.toNat = idtDescAddr idt vector := by rw [ok.idtr]; rfl
  have hcpl : s.cs.toNat % 4 = 3 := by rw [hcs]; rfl
  have hno : ¬ (True → 3 ≤ typeAttr.toNat / 32 % 4) := fun h => Nat.not_le_of_lt hdpl (h trivial)
  simp only [Tables.deliver, haddr, hread, hcpl, guard]
  rw [if_neg hno]
  split <;> split <;> rfl

theorem deliver_stubOf : t.deliver s software vector =
    (stubOf stubs software vector).map fun rip => { s.enter with rip } := by
  by_cases h128 : vector = 128
  · subst h128
    have hgate : gateOf stubs 128 = some ⟨stubs.isr128, 0x08, 0, IDT_TA_SystemCall.toNat⟩ := rfl
    exact deliver_taken ok hcs hrsp0 hgate (by decide) fun _ => by decide
  have hstub : stubOf stubs software vector = if software then none
      else if vector.toNat < 31 then some (stubs.exceptions vector.toNat)
      else if vector = 34 then some stubs.isr34 else none := if_neg h128
  cases hgate : gateOf stubs vector with
  | none =>
    rw [deliver_empty ok hgate, hstub]
    unfold gateOf at hgate
    split_ifs at hgate ⊢ with hsoftware hlt h34
    all_goals rfl
  | some gate =>
    obtain ⟨offset, rfl, hoffset⟩ : ∃ offset, gate = ⟨offset, 0x08, 0, IDT_TA_Interrupt.toNat⟩ ∧
        (if vector.toNat < 31 then some (stubs.exceptions vector.toNat)
          else if vector = 34 then some stubs.isr34 else none) = some offset := by
      unfold gateOf at hgate
      split_ifs at hgate ⊢ with hlt h34
      · exact ⟨_, (Option.some.inj hgate).symm, rfl⟩
      · exact ⟨_, (Option.some.inj hgate).symm, rfl⟩
    cases software with
    | true => rw [deliver_refused ok hcs hgate (by decide), hstub, if_pos rfl]; rfl
    | false =>
      rw [deliver_taken ok hcs hrsp0 hgate (by decide) fun h => absurd h Bool.false_ne_true, hstub, if_neg Bool.false_ne_true,
        hoffset]
      rfl

omit hcs hrsp0 in
theorem returns_user : t.Returns s.kernel.kmem USER_CODE USER_DATA := by
  refine ⟨by decide, by decide, ⟨Segment.ofEntry (segmentOf .userCode), ?_, by decide⟩,
    ⟨Segment.ofEntry (segmentOf .userData), ?_, by decide⟩⟩
  · exact (Tables.segment?_privilege 0x18 3 rfl (by decide)).trans (ok.segment .userCode (by decide) (by decide))
  · exact (Tables.segment?_privilege 0x20 3 rfl (by decide)).trans (ok.segment .userData (by decide) (by decide))

end Deliver

/-- After boot, and as long as nothing writes to the tables: an exception in
user mode, the timer and the system call reach their own stub on the interrupt
stack, no other vector and no other `int` reaches any, and user mode can be
returned to. -/
theorem delivery_exact (m : Mem) (h : TablesApart idt gdt tss) (hlinked : stubs.Linked)
    (hzero : ∀ k, idt.toNat ≤ k → k < idt.toNat + 0x1000 → m k = 0) :
    ∃ t, Tables.load (gdtInitialize (gdtImage m gdt) gdt tss kernelStack) idt gdt = some t ∧
      ∀ s : Core σ η,
        (∀ k, InTables idt gdt tss k → s.kernel.kmem k = bootTables m idt gdt tss kernelStack stubs k) →
        s.cs = USER_CODE → s.tssRsp0 = kernelStack →
        t.Returns s.kernel.kmem USER_CODE USER_DATA ∧
        ∀ software vector, t.deliver s software vector =
          (stubOf stubs software vector).map fun rip => { s.enter with rip } := by
  refine ⟨_, load_gdtInitialize h, fun s hsame hcs hrsp0 => ?_⟩
  have ok := tablesOk_boot h hlinked hzero hsame
  exact ⟨returns_user ok, fun software vector => deliver_stubOf ok hcs hrsp0⟩

def smallStubs : StubAddrs := ⟨fun i => 0x10000 + BitVec.ofNat 64 i, 0x200, 0x300⟩

def smallCore : Core Unit Unit where
  regs _ := 0
  rsp := 0x7000
  rip := 0x400000
  rflags := FLAG_IF
  cs := USER_CODE
  ss := USER_DATA
  tssRsp0 := 0x8000
  kernel := ⟨⟨fun _ => 0, (), 0, 0, []⟩, bootTables (fun _ => 0) 0x1000 0x3000 0x4000 0x8000 smallStubs, (), 0, 0, 0, 0⟩

theorem delivery_exact_small :
    ∃ t, Tables.load (gdtInitialize (gdtImage (fun _ => 0) 0x3000) 0x3000 0x4000 0x8000) 0x1000 0x3000 = some t ∧
      t.deliver smallCore true 34 = none ∧
      t.deliver smallCore false 34 = some { smallCore.enter with rip := 0x200 } := by
  have hlinked : smallStubs.Linked :=
    ⟨fun i hi h => by
      have := congrArg BitVec.toNat h
      rw [smallStubs, BitVec.toNat_add, BitVec.toNat_ofNat, show (0x10000 : U64).toNat = 0x10000 from rfl,
        show (0 : U64).toNat = 0 from rfl] at this
      omega, by decide, by decide⟩
  have hapart : TablesApart 0x1000 0x3000 0x4000 := ⟨by decide, by decide, by decide⟩
  obtain ⟨t, ht, h⟩ := delivery_exact (fun _ => 0) hapart hlinked fun _ _ _ => rfl
  obtain ⟨-, hdeliver⟩ := h smallCore (fun _ _ => rfl) rfl rfl
  exact ⟨t, ht, hdeliver true 34, hdeliver false 34⟩

end ShedOS.Interrupts
