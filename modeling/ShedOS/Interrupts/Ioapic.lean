import ShedOS.Interrupts.Madt
import ShedOS.Lib.Layout
import ShedOS.Memory.AddrUtil

/-!
# The redirection entries of the I/O APIC

`ioapic_ioredtbl_write` sends the first eight bytes of a `struct ioredtbl` as
the register of an entry. The structure is not packed: where its fields lie
follows from their alignment, and what lies between them was never stored.
-/

namespace ShedOS.Interrupts

open Bytes Layout
open Memory (U64 addrEnsureHigher)

def DEL_MODE_FIXED : U64 := 0x0
def DEST_MODE_PHYSICAL : U64 := 0 <<< 3
def POLARITY_ACTIVE_HIGH : U64 := 0 <<< 5
def POLARITY_ACTIVE_LOW : U64 := 1 <<< 5
def TRIGGER_EDGE : U64 := 0 <<< 7
def TRIGGER_LEVEL : U64 := 1 <<< 7

/-- `IOREDTBL_OFFSET`, as the `uint8_t` it is passed as. -/
def ioredtblOffset (n : BitVec 8) : BitVec 8 := 0x10 + n * 2

-- ---------------------------------------------------------------------------
-- `struct ioredtbl`
-- ---------------------------------------------------------------------------

inductive IoredtblField
  | vector | conf | mask | reserved0 | destination
  deriving DecidableEq

def ioredtbl : Natural IoredtblField := [(.vector, 1), (.conf, 1), (.mask, 1), (.reserved0, 4), (.destination, 1)]

/-- The bytes of a `struct ioredtbl`, from its address on. -/
abbrev Ioredtbl := Mem

variable {tbl stack : Ioredtbl} {f g : IoredtblField} {x : BitVec 8}

def Ioredtbl.get (tbl : Ioredtbl) (f : IoredtblField) : BitVec 8 := tbl (ioredtbl.offset f)

def Ioredtbl.set (tbl : Ioredtbl) (f : IoredtblField) (x : BitVec 8) : Ioredtbl := tbl.setByte (ioredtbl.offset f) x

@[simp] theorem Ioredtbl.get_set : (Ioredtbl.set tbl f x).get f = x := Mem.setByte_same

@[simp] theorem Ioredtbl.get_set_of_ne (hne : f ≠ g) : (Ioredtbl.set tbl f x).get g = Ioredtbl.get tbl g := by
  refine Mem.setByte_ne (Natural.offsetFrom_ne (by decide) ?_ hne.symm)
  cases g <;> decide

@[simp] theorem Ioredtbl.set_seven : Ioredtbl.set tbl f x 7 = tbl 7 := by
  refine Mem.setByte_ne ?_
  cases f <;> decide

-- ---------------------------------------------------------------------------
-- What is sent
-- ---------------------------------------------------------------------------

/-- The stores to the registers of every I/O APIC with this id: `IOREGSEL`
first, then `IOWIN`. -/
def ioapicRegisterWrite (s : Apic) (ioapicId : BitVec 32) (offset : BitVec 8) (val : BitVec 32) : List (U64 × BitVec 32) :=
  (List.range s.ioapicCount.toNat).flatMap fun i =>
    if (s.ioapics i).ioapicId.setWidth 32 = ioapicId then
      [(addrEnsureHigher (((s.ioapics i).ioapicAddr + 0x00).setWidth 64), offset.setWidth 32),
        (addrEnsureHigher (((s.ioapics i).ioapicAddr + 0x10).setWidth 64), val)]
    else []

def tableLow (tbl : Ioredtbl) : BitVec 32 := (tbl.read64 0).setWidth 32
def tableHigh (tbl : Ioredtbl) : BitVec 32 := (tbl.read64 0 >>> 32).setWidth 32

def ioapicIoredtblWrite (s : Apic) (ioapicId : BitVec 32) (irq : BitVec 8) (tbl : Ioredtbl) : List (U64 × BitVec 32) :=
  ioapicRegisterWrite s ioapicId (ioredtblOffset irq + 0) (tableLow tbl) ++
    ioapicRegisterWrite s ioapicId (ioredtblOffset irq + 1) (tableHigh tbl)

def redirectConf (iso : MadtEntryIso) : BitVec 8 :=
  (DEL_MODE_FIXED ||| DEST_MODE_PHYSICAL |||
    (if iso.flags &&& 0x2 ≠ 0 then POLARITY_ACTIVE_LOW else POLARITY_ACTIVE_HIGH) |||
    (if iso.flags &&& 0x8 ≠ 0 then TRIGGER_LEVEL else TRIGGER_EDGE)).setWidth 8

/-- `tbl` as `apic_initialize` fills it in; `stack` is what was there before. -/
def redirectTbl (iso : MadtEntryIso) (bspLapicId : BitVec 32) (stack : Ioredtbl) : Ioredtbl :=
  Ioredtbl.set
    (Ioredtbl.set
      (Ioredtbl.set
        (Ioredtbl.set stack .conf (redirectConf iso))
        .mask 0)
      .destination (bspLapicId.setWidth 8))
    .vector ((iso.gsi + 32).setWidth 8)

def redirect (s : Apic) (iso : MadtEntryIso) (bspLapicId : BitVec 32) (stack : Ioredtbl) : List (U64 × BitVec 32) :=
  ioapicIoredtblWrite s ((s.ioapics 0).ioapicId.setWidth 32) (iso.gsi.setWidth 8) (redirectTbl iso bspLapicId stack)

-- ---------------------------------------------------------------------------
-- What an I/O APIC makes of it
-- ---------------------------------------------------------------------------

structure Redirection where
  vector : BitVec 8
  deliveryMode : BitVec 3
  destinationMode : Bool
  polarity : Bool
  triggerMode : Bool
  mask : Bool
  destination : BitVec 8
  deriving DecidableEq

def decodeEntry (low high : BitVec 32) : Redirection where
  vector := low.extractLsb' 0 8
  deliveryMode := low.extractLsb' 8 3
  destinationMode := low.getLsbD 11
  polarity := low.getLsbD 13
  triggerMode := low.getLsbD 15
  mask := low.getLsbD 16
  destination := high.extractLsb' 24 8

/-- What the fields of the structure stand for: `conf` has its bits in the order of the entry. -/
def Ioredtbl.meaning (tbl : Ioredtbl) : Redirection where
  vector := tbl.get .vector
  deliveryMode := (tbl.get .conf).extractLsb' 0 3
  destinationMode := (tbl.get .conf).getLsbD 3
  polarity := (tbl.get .conf).getLsbD 5
  triggerMode := (tbl.get .conf).getLsbD 7
  mask := (tbl.get .mask).getLsbD 0
  destination := tbl.get .destination

theorem getLsbD_tableLow {i : Nat} (hi : i < 32) : (tableLow tbl).getLsbD i = (tbl (i / 8)).getLsbD (i % 8) := by
  rw [tableLow, BitVec.getLsbD_setWidth, Mem.read64, Mem.getLsbD_readBytes (by omega), Nat.zero_add, decide_eq_true hi,
    Bool.true_and]

theorem getLsbD_tableHigh {i : Nat} (hi : i < 32) : (tableHigh tbl).getLsbD i = (tbl (4 + i / 8)).getLsbD (i % 8) := by
  rw [tableHigh, BitVec.getLsbD_setWidth, BitVec.getLsbD_ushiftRight, Mem.read64, Mem.getLsbD_readBytes (by omega), Nat.zero_add,
    decide_eq_true hi, Bool.true_and, show (32 + i) / 8 = 4 + i / 8 by omega, show (32 + i) % 8 = i % 8 by omega]

theorem decode_destination : (decodeEntry (tableLow tbl) (tableHigh tbl)).destination = tbl 7 := by
  refine BitVec.eq_of_getLsbD_eq fun i hi => ?_
  rw [decodeEntry, BitVec.getLsbD_extractLsb', decide_eq_true hi, Bool.true_and, getLsbD_tableHigh (by omega)]
  congr 2 <;> omega

theorem low_vector : (tableLow tbl).extractLsb' 0 8 = tbl 0 := by
  refine BitVec.eq_of_getLsbD_eq fun i hi => ?_
  rw [BitVec.getLsbD_extractLsb', decide_eq_true hi, Bool.true_and, getLsbD_tableLow (by omega)]
  congr 2 <;> omega

theorem low_deliveryMode : (tableLow tbl).extractLsb' 8 3 = (tbl 1).extractLsb' 0 3 := by
  refine BitVec.eq_of_getLsbD_eq fun i hi => ?_
  rw [BitVec.getLsbD_extractLsb', BitVec.getLsbD_extractLsb', decide_eq_true hi, Bool.true_and, getLsbD_tableLow (by omega)]
  congr 2 <;> omega

/-- Every field but the destination arrives; that one does when the byte
behind `mask` and its padding happened to be right. -/
theorem decode_iff : decodeEntry (tableLow tbl) (tableHigh tbl) = Ioredtbl.meaning tbl ↔ tbl 7 = Ioredtbl.get tbl .destination := by
  have hlow : ∀ {i : Nat}, i < 32 → (tableLow tbl).getLsbD i = (tbl (i / 8)).getLsbD (i % 8) := getLsbD_tableLow
  refine ⟨fun h => ?_, fun h => ?_⟩
  · exact decode_destination.symm.trans (congrArg Redirection.destination h)
  · rw [Redirection.mk.injEq]
    refine ⟨low_vector, low_deliveryMode, hlow (by decide), hlow (by decide), hlow (by decide), hlow (by decide), ?_⟩
    exact decode_destination.trans h

-- ---------------------------------------------------------------------------
-- No override is sent faithfully
-- ---------------------------------------------------------------------------

section Sends

variable {s : Apic} {iso : MadtEntryIso} {id bspLapicId val val' : BitVec 32} {offset : BitVec 8}

theorem redirectTbl_seven : redirectTbl iso bspLapicId stack 7 = stack 7 := by
  simp [redirectTbl]

theorem redirect_decode_iff : decodeEntry (tableLow (redirectTbl iso bspLapicId stack)) (tableHigh (redirectTbl iso bspLapicId stack)) =
    (redirectTbl iso bspLapicId stack).meaning ↔ stack 7 = bspLapicId.setWidth 8 := by
  rw [decode_iff, redirectTbl_seven]
  simp [redirectTbl]

theorem flatMap_eq_at {α β : Type} {l : List α} {f g : α → List β} {x : α} (hlength : ∀ y, (f y).length = (g y).length)
    (h : l.flatMap f = l.flatMap g) (hx : x ∈ l) : f x = g x := by
  induction l with
  | nil => cases hx
  | cons y l ih =>
    obtain ⟨hhead, htail⟩ := List.append_inj h (hlength y)
    rcases List.mem_cons.mp hx with rfl | hx
    · exact hhead
    · exact ih htail hx

theorem length_ioapicRegisterWrite : (ioapicRegisterWrite s id offset val).length = (ioapicRegisterWrite s id offset val').length := by
  unfold ioapicRegisterWrite
  rw [List.length_flatMap, List.length_flatMap]
  congr 2
  funext i
  split <;> rfl

theorem ioapicRegisterWrite_inj {i : Nat} (hi : i < s.ioapicCount.toNat) (hid : (s.ioapics i).ioapicId.setWidth 32 = id)
    (h : ioapicRegisterWrite s id offset val = ioapicRegisterWrite s id offset val') : val = val' := by
  have hat := flatMap_eq_at (fun j => by split <;> rfl) h (List.mem_range.mpr hi)
  rw [if_pos hid, if_pos hid] at hat
  exact congrArg Prod.snd (List.cons.inj (List.cons.inj hat).2).1

/-- The two words `apic_initialize` sends for an override, whatever the stack
holds before, and what they are taken for. -/
def SendsFaithfully (s : Apic) (iso : MadtEntryIso) (bspLapicId : BitVec 32) : Prop :=
  ∃ low high, ∀ stack,
    redirect s iso bspLapicId stack =
      ioapicRegisterWrite s ((s.ioapics 0).ioapicId.setWidth 32) (ioredtblOffset (iso.gsi.setWidth 8) + 0) low ++
        ioapicRegisterWrite s ((s.ioapics 0).ioapicId.setWidth 32) (ioredtblOffset (iso.gsi.setWidth 8) + 1) high ∧
    decodeEntry low high = (redirectTbl iso bspLapicId stack).meaning

theorem sends_high {low high : BitVec 32} (h : s.ioapicCount ≠ 0)
    (hsent : redirect s iso bspLapicId stack =
      ioapicRegisterWrite s ((s.ioapics 0).ioapicId.setWidth 32) (ioredtblOffset (iso.gsi.setWidth 8) + 0) low ++
        ioapicRegisterWrite s ((s.ioapics 0).ioapicId.setWidth 32) (ioredtblOffset (iso.gsi.setWidth 8) + 1) high) :
    tableHigh (redirectTbl iso bspLapicId stack) = high := by
  have hpos : 0 < s.ioapicCount.toNat := Nat.pos_of_ne_zero fun h0 => h (BitVec.eq_of_toNat_eq h0)
  exact ioapicRegisterWrite_inj hpos rfl (List.append_inj hsent length_ioapicRegisterWrite).2

theorem not_sendsFaithfully (h : s.ioapicCount ≠ 0) : ¬ SendsFaithfully s iso bspLapicId := by
  rintro ⟨low, high, hall⟩
  have hdestination : ∀ stack : Ioredtbl, stack 7 = high.extractLsb' 24 8 := fun stack => calc
    stack 7 = redirectTbl iso bspLapicId stack 7 := redirectTbl_seven.symm
    _ = (tableHigh (redirectTbl iso bspLapicId stack)).extractLsb' 24 8 := decode_destination.symm
    _ = high.extractLsb' 24 8 := by rw [sends_high h (hall stack).1]
  have hsame := (hdestination fun _ => 0).trans (hdestination fun _ => 1).symm
  exact absurd hsame (by decide)

theorem redirect_never_faithful (h : s.ioapicCount ≠ 0) : ¬ SendsFaithfully s iso bspLapicId ∧
    ∀ stack, decodeEntry (tableLow (redirectTbl iso bspLapicId stack)) (tableHigh (redirectTbl iso bspLapicId stack)) =
      (redirectTbl iso bspLapicId stack).meaning ↔ stack 7 = bspLapicId.setWidth 8 :=
  ⟨not_sendsFaithfully h, fun _ => redirect_decode_iff⟩

end Sends

def sampleApic : Apic := { Apic.start with ioapicCount := 1, ioapics := fun _ => { (default : MadtEntryIoapic) with ioapicAddr := 0xfec00000 } }

def sampleIso : MadtEntryIso := { (default : MadtEntryIso) with gsi := 2, flags := 0xd }

theorem redirect_never_faithful_timer : ¬ SendsFaithfully sampleApic sampleIso 0 ∧
    ∀ stack, decodeEntry (tableLow (redirectTbl sampleIso 0 stack)) (tableHigh (redirectTbl sampleIso 0 stack)) =
      (redirectTbl sampleIso 0 stack).meaning ↔ stack 7 = (0 : BitVec 32).setWidth 8 :=
  redirect_never_faithful (by decide)

/-- The interrupt goes to 0xff, every processor, and not to processor 0. -/
theorem redirect_sends_stack : redirect sampleApic sampleIso 0 (fun _ => 0xff) =
      [(0xffff8000fec00000, 0x14), (0xffff8000fec00010, 0xff008022), (0xffff8000fec00000, 0x15), (0xffff8000fec00010, 0xffffffff)] ∧
    (redirectTbl sampleIso 0 (fun _ => 0xff)).meaning.destination = 0 ∧ ¬ SendsFaithfully sampleApic sampleIso 0 :=
  ⟨by decide, by decide, not_sendsFaithfully (by decide)⟩

end ShedOS.Interrupts
