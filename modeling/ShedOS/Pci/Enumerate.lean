import ShedOS.Lib.Loops
import ShedOS.Memory.AddrUtil

/-!
# The scan of the buses

`pci_init` looks at every function of its buses, in order, and calls
`nvme_initialize_device` for those whose headers say so, which stops at the
first controller that it does not support.
-/

namespace ShedOS.Pci

open Loops
open Memory (U64 addrEnsureHigher addrEnsureLower VADDR_HIGHER)

structure PciAddr where
  bus : BitVec 8
  device : BitVec 8
  function : BitVec 8
  deriving DecidableEq, Repr

/-- The part of `mcfg_csbaas` that the scan uses. -/
structure McfgCsbaas where
  baseAddress : U64
  startBusNumber : BitVec 8
  endBusNumber : BitVec 8

/-- The registers of all configuration spaces, the registers of the controller
that `controller` stands for, and the calls of `nvme_initialize_device` so far. -/
structure PciState where
  conf : U64 → BitVec 32
  regs : U64
  initialized : List (U64 × PciAddr)

def confAddr (base : U64) (addr : PciAddr) : U64 :=
  addrEnsureHigher (base + (addr.bus.zeroExtend 64 <<< 20 ||| addr.device.zeroExtend 64 <<< 15 |||
    addr.function.zeroExtend 64 <<< 12))

-- ---------------------------------------------------------------------------
-- The fields of a header
-- ---------------------------------------------------------------------------

section Header

variable (conf : U64 → BitVec 32) (hdr : U64)

def vendorId : BitVec 16 := (conf hdr).extractLsb' 0 16
def deviceId : BitVec 16 := (conf hdr).extractLsb' 16 16
def subclass : BitVec 8 := (conf (hdr + 0x8)).extractLsb' 16 8
def classCode : BitVec 8 := (conf (hdr + 0x8)).extractLsb' 24 8
def headerType : BitVec 8 := (conf (hdr + 0xc)).extractLsb' 16 8

def bar0Addr : U64 := (conf (hdr + 0x10) &&& 0xfffffff0).zeroExtend 64 + (conf (hdr + 0x14)).zeroExtend 64 <<< 32

end Header

def HEADER_ENDPOINT : BitVec 8 := 0x0
def NVME_CLASS : BitVec 8 := 0x1
def NVME_SUBCLASS : BitVec 8 := 0x8

def PHC_IO_SPACE : BitVec 32 := 1 <<< 0
def PHC_MEM_SPACE : BitVec 32 := 1 <<< 1
def PHC_BUS_MASTER : BitVec 32 := 1 <<< 2
def PHC_INTERRUPT_DISABLE : BitVec 32 := 1 <<< 10

def commandBits : BitVec 32 := PHC_BUS_MASTER ||| PHC_MEM_SPACE ||| PHC_IO_SPACE ||| PHC_INTERRUPT_DISABLE

def pageSizeMin (cap : U64) : BitVec 32 := ((1 : U64) <<< (12 + (cap >>> 48 &&& 0xf).toNat)).setWidth 32
def pageSizeMax (cap : U64) : BitVec 32 := ((1 : U64) <<< (12 + (cap >>> 52 &&& 0xf).toNat)).setWidth 32

/-- `nvme_initialize_device` up to its last assertion. The controller with its
registers at `r` has `cap r` in CAP; `none` is a panic. -/
def nvmeInitializeDevice (cap : U64 → U64) (s : PciState) (ep : U64) (addr : PciAddr) : Option PciState :=
  let conf := Function.update s.conf (ep + 0x4)
    (s.conf (ep + 0x4) ||| PHC_BUS_MASTER ||| PHC_MEM_SPACE ||| PHC_IO_SPACE ||| PHC_INTERRUPT_DISABLE)
  if conf (ep + 0x10) &&& 0x4 = 0 then none
  else
    -- BAR 0 has its old value again after the size of the BAR is read from it
    let regs := addrEnsureHigher (bar0Addr conf ep)
    if cap regs >>> 37 &&& 0x1 = 0 then none
    else if 0x1000 ≤ pageSizeMax (cap regs) ∧ pageSizeMin (cap regs) ≤ 0x1000 then
      some { conf, regs, initialized := s.initialized ++ [(ep, addr)] }
    else none

def enumerate (cap : U64 → U64) (base : U64) (s : PciState) (addr : PciAddr) : Option PciState :=
  let hdr := confAddr base addr
  if vendorId s.conf hdr = 0xffff ∨ deviceId s.conf hdr = 0xffff then some s
  else if headerType s.conf hdr = HEADER_ENDPOINT then
    if classCode s.conf hdr = NVME_CLASS ∧ subclass s.conf hdr = NVME_SUBCLASS then nvmeInitializeDevice cap s hdr addr
    else some s
  else some s

/-- The three loops; the counters are `uint8_t`. -/
def pciInit (cap : U64 → U64) (csbaas : McfgCsbaas) (s : PciState) : Option PciState :=
  uptoM (fun b s => uptoM (fun d s => uptoM (fun f s =>
    enumerate cap csbaas.baseAddress s ⟨csbaas.startBusNumber + BitVec.ofNat 8 b, BitVec.ofNat 8 d, BitVec.ofNat 8 f⟩)
      s 8) s 32) s (csbaas.endBusNumber.toNat - csbaas.startBusNumber.toNat)

-- ---------------------------------------------------------------------------
-- The functions
-- ---------------------------------------------------------------------------

def functions (csbaas : McfgCsbaas) : List PciAddr :=
  (List.range (csbaas.endBusNumber.toNat - csbaas.startBusNumber.toNat)).flatMap fun b =>
    (List.range 32).flatMap fun d => (List.range 8).map fun f =>
      ⟨csbaas.startBusNumber + BitVec.ofNat 8 b, BitVec.ofNat 8 d, BitVec.ofNat 8 f⟩

def IsNvme (conf : U64 → BitVec 32) (hdr : U64) : Prop :=
  ¬ (vendorId conf hdr = 0xffff ∨ deviceId conf hdr = 0xffff) ∧ headerType conf hdr = HEADER_ENDPOINT ∧
    classCode conf hdr = NVME_CLASS ∧ subclass conf hdr = NVME_SUBCLASS

instance (conf : U64 → BitVec 32) (hdr : U64) : Decidable (IsNvme conf hdr) := inferInstanceAs (Decidable (_ ∧ _))

/-- The assertions hold of the controller: a 64-bit BAR, the NVM command set, and
pages of 4 KiB. -/
def Supported (cap : U64 → U64) (conf : U64 → BitVec 32) (hdr : U64) : Prop :=
  conf (hdr + 0x10) &&& 0x4 ≠ 0 ∧ cap (addrEnsureHigher (bar0Addr conf hdr)) >>> 37 &&& 0x1 ≠ 0 ∧
    0x1000 ≤ pageSizeMax (cap (addrEnsureHigher (bar0Addr conf hdr))) ∧
    pageSizeMin (cap (addrEnsureHigher (bar0Addr conf hdr))) ≤ 0x1000

instance (cap : U64 → U64) (conf : U64 → BitVec 32) (hdr : U64) : Decidable (Supported cap conf hdr) :=
  inferInstanceAs (Decidable (_ ∧ _))

def initialized (s : PciState) (ep : U64) (addr : PciAddr) : PciState where
  conf := Function.update s.conf (ep + 0x4) (s.conf (ep + 0x4) ||| commandBits)
  regs := addrEnsureHigher (bar0Addr s.conf ep)
  initialized := s.initialized ++ [(ep, addr)]

def enumerated (base : U64) (s : PciState) (addr : PciAddr) : PciState :=
  if IsNvme s.conf (confAddr base addr) then initialized s (confAddr base addr) addr else s

variable {conf : U64 → BitVec 32} {cap : U64 → U64} {base hdr r r' reg ep : U64} {addr addr' : PciAddr} {s : PciState}
  {csbaas : McfgCsbaas} {l : List PciAddr}

theorem nvmeInitializeDevice_eq : nvmeInitializeDevice cap s ep addr =
    if Supported cap s.conf ep then some (initialized s ep addr) else none := by
  have hother : ∀ {r : U64}, r ≠ 4 → ∀ w, Function.update s.conf (ep + 0x4) w (ep + r) = s.conf (ep + r) := fun hr w =>
    Function.update_of_ne (fun e => hr ((BitVec.add_right_inj ep).mp e)) _ _
  have hbar : ∀ w, bar0Addr (Function.update s.conf (ep + 0x4) w) ep = bar0Addr s.conf ep := fun w => by
    rw [bar0Addr, hother (by decide), hother (by decide), bar0Addr]
  rw [nvmeInitializeDevice]
  simp only [hother (show (0x10 : U64) ≠ 4 by decide), hbar]
  have hiff : Supported cap s.conf ep ↔ ¬ s.conf (ep + 0x10) &&& 0x4 = 0 ∧
      ¬ cap (addrEnsureHigher (bar0Addr s.conf ep)) >>> 37 &&& 0x1 = 0 ∧
        (0x1000 ≤ pageSizeMax (cap (addrEnsureHigher (bar0Addr s.conf ep))) ∧
          pageSizeMin (cap (addrEnsureHigher (bar0Addr s.conf ep))) ≤ 0x1000) := Iff.rfl
  simp only [hiff]
  by_cases hbits : s.conf (ep + 0x10) &&& 0x4 = 0
  · rw [if_pos hbits, if_neg fun h => h.1 hbits]
  by_cases hnvm : cap (addrEnsureHigher (bar0Addr s.conf ep)) >>> 37 &&& 0x1 = 0
  · rw [if_neg hbits, if_pos hnvm, if_neg fun h => h.2.1 hnvm]
  · simp only [hbits, hnvm, if_false, not_false_eq_true, true_and, initialized, commandBits, BitVec.or_assoc]

theorem enumerate_eq : enumerate cap base s addr =
    if IsNvme s.conf (confAddr base addr) → Supported cap s.conf (confAddr base addr) then some (enumerated base s addr)
    else none := by
  have hiff : IsNvme s.conf (confAddr base addr) ↔
      ¬ (vendorId s.conf (confAddr base addr) = 0xffff ∨ deviceId s.conf (confAddr base addr) = 0xffff) ∧
        headerType s.conf (confAddr base addr) = HEADER_ENDPOINT ∧ classCode s.conf (confAddr base addr) = NVME_CLASS ∧
          subclass s.conf (confAddr base addr) = NVME_SUBCLASS := Iff.rfl
  have hcall : enumerate cap base s addr = if IsNvme s.conf (confAddr base addr) then
      nvmeInitializeDevice cap s (confAddr base addr) addr else some s := by
    simp only [enumerate, hiff]
    by_cases hid : vendorId s.conf (confAddr base addr) = 0xffff ∨ deviceId s.conf (confAddr base addr) = 0xffff
    · rw [if_pos hid, if_neg fun h => h.1 hid]
    · by_cases htype : headerType s.conf (confAddr base addr) = HEADER_ENDPOINT
      · simp only [hid, htype, if_true, if_false, not_false_eq_true, true_and]
      · simp only [hid, htype, if_false, false_and, and_false]
  rw [hcall, nvmeInitializeDevice_eq, enumerated]
  by_cases h : IsNvme s.conf (confAddr base addr)
  · simp only [h, if_true, forall_const]
  · rw [if_neg h, if_neg h, if_pos fun h' => absurd h' h]

theorem uptoM_foldlM {α : Type} (body : Nat → α → Option α) (s : α) :
    ∀ n, uptoM body s n = (List.range n).foldlM (fun s i => body i s) s
  | 0 => rfl
  | n + 1 => by
    rw [uptoM_succ, uptoM_foldlM body s n, List.range_succ, List.foldlM_append]
    simp only [List.foldlM_cons, List.foldlM_nil, bind_pure]
    rfl

theorem foldlM_flatMap {α β γ : Type} (f : α → γ → Option α) (g : β → List γ) (s : α) (l : List β) :
    (l.flatMap g).foldlM f s = l.foldlM (fun s b => (g b).foldlM f s) s := by
  induction l generalizing s with
  | nil => rfl
  | cons b l ih =>
    rw [List.flatMap_cons, List.foldlM_append, List.foldlM_cons]
    exact bind_congr fun t => ih t

theorem pciInit_eq : pciInit cap csbaas s = (functions csbaas).foldlM (enumerate cap csbaas.baseAddress) s := by
  simp only [pciInit, functions, uptoM_foldlM, foldlM_flatMap, List.foldlM_map]

theorem mem_functions : addr ∈ functions csbaas ↔ (csbaas.startBusNumber ≤ addr.bus ∧ addr.bus < csbaas.endBusNumber) ∧
    addr.device.toNat < 32 ∧ addr.function.toNat < 8 := by
  have hend := csbaas.endBusNumber.isLt
  simp only [functions, List.mem_flatMap, List.mem_map, List.mem_range]
  constructor
  · rintro ⟨b, hb, d, hd, f, hf, rfl⟩
    simp only [BitVec.le_def, BitVec.lt_def, BitVec.toNat_add, BitVec.toNat_ofNat]
    omega
  · rintro ⟨⟨hlow, hhigh⟩, hd, hf⟩
    rw [BitVec.le_def] at hlow
    rw [BitVec.lt_def] at hhigh
    refine ⟨addr.bus.toNat - csbaas.startBusNumber.toNat, by omega, addr.device.toNat, hd, addr.function.toNat, hf, ?_⟩
    have hbus : csbaas.startBusNumber + BitVec.ofNat 8 (addr.bus.toNat - csbaas.startBusNumber.toNat) = addr.bus := by
      refine BitVec.eq_of_toNat_eq ?_
      have := addr.bus.isLt
      rw [BitVec.toNat_add, BitVec.toNat_ofNat]
      omega
    simp only [hbus, BitVec.ofNat_toNat, BitVec.setWidth_eq]

-- ---------------------------------------------------------------------------
-- The windows
-- ---------------------------------------------------------------------------

def confOffset (addr : PciAddr) : Nat :=
  addr.bus.toNat * 0x100000 + addr.device.toNat * 0x8000 + addr.function.toNat * 0x1000

theorem confOffset_eq (hd : addr.device.toNat < 32) (hf : addr.function.toNat < 8) :
    (addr.bus.zeroExtend 64 <<< 20 ||| addr.device.zeroExtend 64 <<< 15 ||| addr.function.zeroExtend 64 <<< 12).toNat =
      confOffset addr := by
  have hbus := addr.bus.isLt
  have hfunction : addr.function.toNat <<< 12 < 2 ^ 15 := by
    rw [Nat.shiftLeft_eq]
    omega
  have hdevice : addr.device.toNat <<< 15 + addr.function.toNat <<< 12 < 2 ^ 20 := by
    rw [Nat.shiftLeft_eq, Nat.shiftLeft_eq]
    omega
  have hshift : ∀ (x : BitVec 8) (i : Nat), i ≤ 20 → (x.zeroExtend 64 <<< i).toNat = x.toNat <<< i := fun x i hi => by
    have hx := x.isLt
    have hpow : 2 ^ i ≤ 2 ^ 20 := Nat.pow_le_pow_right (by decide) hi
    have hle : x.toNat * 2 ^ i ≤ 255 * 2 ^ 20 := Nat.mul_le_mul (by omega) hpow
    rw [BitVec.toNat_shiftLeft, BitVec.toNat_setWidth, Nat.mod_eq_of_lt (by omega : x.toNat < 2 ^ 64), Nat.shiftLeft_eq,
      Nat.mod_eq_of_lt (by omega)]
  rw [BitVec.or_assoc, BitVec.toNat_or, BitVec.toNat_or, hshift _ _ (by decide), hshift _ _ (by decide),
    hshift _ _ (by decide), ← Nat.shiftLeft_add_eq_or_of_lt hfunction, ← Nat.shiftLeft_add_eq_or_of_lt hdevice,
    Nat.shiftLeft_eq, Nat.shiftLeft_eq, Nat.shiftLeft_eq, confOffset]
  omega

theorem confAddr_mod : (confAddr base addr).toNat % 0x1000 = base.toNat % 0x1000 := by
  have hshift : ∀ (x : BitVec 8) (i : Nat), 12 ≤ i → (x.zeroExtend 64 <<< i).toNat % 2 ^ 12 = 0 := fun x i hi => by
    obtain ⟨d, rfl⟩ := Nat.exists_eq_add_of_le hi
    rw [BitVec.toNat_shiftLeft, Nat.mod_mod_of_dvd _ (by decide), Nat.shiftLeft_eq, Nat.pow_add, Nat.mul_left_comm]
    exact Nat.mul_mod_right _ _
  show (confAddr base addr).toNat % 2 ^ 12 = base.toNat % 2 ^ 12
  rw [confAddr, addrEnsureHigher, BitVec.toNat_or, Nat.or_mod_two_pow, BitVec.toNat_add, Nat.mod_mod_of_dvd _ (by decide),
    Nat.add_mod, BitVec.toNat_or, BitVec.toNat_or, Nat.or_mod_two_pow, Nat.or_mod_two_pow, hshift _ _ (by decide),
    hshift _ _ (by decide), hshift _ _ (by decide)]
  simp [VADDR_HIGHER]

theorem confAddr_add_ne (hr : r.toNat % 0x1000 ≠ r'.toNat % 0x1000) :
    confAddr base addr + r ≠ confAddr base addr' + r' := by
  intro he
  have hmod : (confAddr base addr).toNat % 0x1000 = base.toNat % 0x1000 := confAddr_mod
  have hmod' : (confAddr base addr').toNat % 0x1000 = base.toNat % 0x1000 := confAddr_mod
  have he := congrArg BitVec.toNat he
  rw [BitVec.toNat_add, BitVec.toNat_add] at he
  omega

theorem confAddr_injective (hd : addr.device.toNat < 32) (hf : addr.function.toNat < 8) (hd' : addr'.device.toNat < 32)
    (hf' : addr'.function.toNat < 8) (he : confAddr base addr = confAddr base addr') : addr = addr' := by
  have hlower : ∀ p, addrEnsureLower (addrEnsureHigher p) = addrEnsureLower p := fun p => by
    rw [addrEnsureLower, addrEnsureLower, addrEnsureHigher]
    refine BitVec.eq_of_getLsbD_eq fun i hi => ?_
    simp only [BitVec.getLsbD_and, BitVec.getLsbD_or, BitVec.getLsbD_not, hi, decide_true, Bool.true_and]
    cases p.getLsbD i <;> cases VADDR_HIGHER.getLsbD i <;> rfl
  have hsum := congrArg (fun p => (addrEnsureLower p).toNat) he
  simp only [confAddr, hlower, Memory.toNat_addrEnsureLower, BitVec.toNat_add, confOffset_eq hd hf,
    confOffset_eq hd' hf'] at hsum
  have hb := addr.bus.isLt
  have hb' := addr'.bus.isLt
  simp only [confOffset] at hsum
  obtain ⟨hbus, hdevice, hfunction⟩ : addr.bus.toNat = addr'.bus.toNat ∧ addr.device.toNat = addr'.device.toNat ∧
      addr.function.toNat = addr'.function.toNat := by omega
  cases addr
  cases addr'
  simp only [PciAddr.mk.injEq]
  exact ⟨BitVec.eq_of_toNat_eq hbus, BitVec.eq_of_toNat_eq hdevice, BitVec.eq_of_toNat_eq hfunction⟩

-- ---------------------------------------------------------------------------
-- The scan
-- ---------------------------------------------------------------------------

theorem enumerated_conf : (enumerated base s addr).conf reg =
    if IsNvme s.conf (confAddr base addr) ∧ reg = confAddr base addr + 0x4 then s.conf reg ||| commandBits
    else s.conf reg := by
  rw [enumerated]
  by_cases h : IsNvme s.conf (confAddr base addr)
  · by_cases hreg : reg = confAddr base addr + 0x4
    · rw [if_pos h, if_pos ⟨h, hreg⟩, hreg]
      exact Function.update_self _ _ _
    · rw [if_pos h, if_neg fun e => hreg e.2]
      exact Function.update_of_ne hreg _ _
  · rw [if_neg h, if_neg fun e => h e.1]

theorem enumerated_other (hr : r.toNat % 0x1000 ≠ 4) :
    (enumerated base s addr).conf (confAddr base addr' + r) = s.conf (confAddr base addr' + r) := by
  rw [enumerated_conf, if_neg fun e => confAddr_add_ne hr e.2]

theorem enumerated_isNvme :
    IsNvme (enumerated base s addr).conf (confAddr base addr') ↔ IsNvme s.conf (confAddr base addr') := by
  have hid : (enumerated base s addr).conf (confAddr base addr') = s.conf (confAddr base addr') := by
    have h : (enumerated base s addr).conf (confAddr base addr' + 0) = s.conf (confAddr base addr' + 0) :=
      enumerated_other (by decide)
    rwa [show ∀ x : U64, x + 0 = x from BitVec.add_zero] at h
  simp only [IsNvme, vendorId, deviceId, headerType, classCode, subclass, hid, enumerated_other (r := 0x8) (by decide),
    enumerated_other (r := 0xc) (by decide)]

theorem enumerated_bar0Addr :
    bar0Addr (enumerated base s addr).conf (confAddr base addr') = bar0Addr s.conf (confAddr base addr') := by
  simp only [bar0Addr, enumerated_other (r := 0x10) (by decide), enumerated_other (r := 0x14) (by decide)]

def controllers (conf : U64 → BitVec 32) (base : U64) (l : List PciAddr) : List PciAddr :=
  l.filter fun addr => IsNvme conf (confAddr base addr)

theorem controllers_enumerated : controllers (enumerated base s addr).conf base l = controllers s.conf base l :=
  List.filter_congr fun _ _ => decide_eq_decide.mpr enumerated_isNvme

structure Scanned (base : U64) (s : PciState) (l : List PciAddr) (s' : PciState) : Prop where
  initialized : s'.initialized = s.initialized ++ (controllers s.conf base l).map fun addr => (confAddr base addr, addr)
  regs : s'.regs = ((controllers s.conf base l).getLast?.map fun addr =>
    addrEnsureHigher (bar0Addr s.conf (confAddr base addr))).getD s.regs
  conf : ∀ reg, s'.conf reg = if ∃ addr ∈ controllers s.conf base l, reg = confAddr base addr + 0x4 then
    s.conf reg ||| commandBits else s.conf reg

theorem scanned_run : ∀ {l : List PciAddr} {s : PciState}, Scanned base s l (l.foldl (enumerated base) s)
  | [], s => ⟨(List.append_nil _).symm, rfl, fun _ => (if_neg (by rintro ⟨_, h, -⟩; cases h)).symm⟩
  | addr :: l, s => by
    have ih := scanned_run (l := l) (s := enumerated base s addr)
    have hlist : controllers (enumerated base s addr).conf base l = controllers s.conf base l := controllers_enumerated
    obtain ⟨s', hs'⟩ : ∃ s', s' = l.foldl (enumerated base) (enumerated base s addr) := ⟨_, rfl⟩
    rw [List.foldl_cons, ← hs']
    rw [← hs'] at ih
    have hcons : controllers s.conf base (addr :: l) =
        if IsNvme s.conf (confAddr base addr) then addr :: controllers s.conf base l else controllers s.conf base l := by
      simp only [controllers, List.filter_cons, decide_eq_true_eq]
    by_cases h : IsNvme s.conf (confAddr base addr)
    · have hcall : enumerated base s addr = initialized s (confAddr base addr) addr := by
        rw [enumerated, if_pos h]
      rw [if_pos h] at hcons
      refine ⟨?_, ?_, fun reg => ?_⟩
      · rw [ih.initialized, hlist, hcons, hcall, initialized, List.map_cons, List.append_assoc]
        rfl
      · rw [ih.regs, hlist, hcons, List.getLast?_cons]
        simp only [enumerated_bar0Addr]
        cases (controllers s.conf base l).getLast? with
        | none =>
          simp only [hcall, initialized, Option.map_none, Option.getD_none, Option.map_some, Option.getD_some]
        | some last => rfl
      · rw [ih.conf, hlist, hcons, enumerated_conf]
        by_cases hl : ∃ addr' ∈ controllers s.conf base l, reg = confAddr base addr' + 0x4
        · rw [if_pos hl, if_pos (hl.imp fun _ h => ⟨List.mem_cons_of_mem _ h.1, h.2⟩)]
          split
          · rw [BitVec.or_assoc, BitVec.or_self]
          · rfl
        · rw [if_neg hl]
          by_cases hreg : reg = confAddr base addr + 0x4
          · rw [if_pos ⟨h, hreg⟩, if_pos ⟨addr, List.mem_cons_self, hreg⟩]
          · rw [if_neg fun e => hreg e.2, if_neg]
            rintro ⟨addr', hmem, he⟩
            rcases List.mem_cons.mp hmem with rfl | hmem
            · exact hreg he
            · exact hl ⟨addr', hmem, he⟩
    · have hcall : enumerated base s addr = s := by rw [enumerated, if_neg h]
      rw [if_neg h] at hcons
      rw [hcall] at ih
      exact ⟨by rw [hcons]; exact ih.initialized, by rw [hcons]; exact ih.regs, by rw [hcons]; exact ih.conf⟩

theorem enumerated_supported :
    Supported cap (enumerated base s addr).conf (confAddr base addr') ↔ Supported cap s.conf (confAddr base addr') := by
  simp only [Supported, enumerated_bar0Addr, enumerated_other (r := 0x10) (by decide)]

theorem scan_eq : ∀ {l : List PciAddr} {s : PciState}, l.foldlM (enumerate cap base) s =
    if ∀ addr ∈ controllers s.conf base l, Supported cap s.conf (confAddr base addr) then some (l.foldl (enumerated base) s)
    else none
  | [], s => (if_pos (by rintro _ ⟨⟩)).symm
  | addr :: l, s => by
    have hcons : (∀ addr' ∈ controllers s.conf base (addr :: l), Supported cap s.conf (confAddr base addr')) ↔
        (IsNvme s.conf (confAddr base addr) → Supported cap s.conf (confAddr base addr)) ∧
          ∀ addr' ∈ controllers (enumerated base s addr).conf base l,
            Supported cap (enumerated base s addr).conf (confAddr base addr') := by
      rw [controllers_enumerated]
      simp only [enumerated_supported]
      simp only [controllers, List.mem_filter, List.mem_cons, decide_eq_true_eq, and_imp, forall_eq_or_imp]
    rw [List.foldlM_cons, enumerate_eq]
    simp only [hcons]
    by_cases h : IsNvme s.conf (confAddr base addr) → Supported cap s.conf (confAddr base addr)
    · rw [if_pos h]
      refine (scan_eq (l := l) (s := enumerated base s addr)).trans ?_
      exact (if_congr (and_iff_right h) rfl rfl).symm
    · rw [if_neg h, if_neg fun h' => h h'.1]
      rfl

theorem functions_nodup : (functions csbaas).Nodup := by
  have hend := csbaas.endBusNumber.isLt
  have hof : ∀ {n m : Nat}, n < 256 → m < 256 → BitVec.ofNat 8 n = BitVec.ofNat 8 m → n = m := fun {n m} hn hm he => by
    have := congrArg BitVec.toNat he
    rw [BitVec.toNat_ofNat, BitVec.toNat_ofNat] at this
    omega
  refine List.nodup_flatMap.mpr ⟨fun b hb => List.nodup_flatMap.mpr ⟨fun d hd => ?_, ?_⟩, ?_⟩
  · refine List.Nodup.map_on (fun f hf f' hf' he => ?_) List.nodup_range
    have hf := List.mem_range.mp hf
    have hf' := List.mem_range.mp hf'
    exact hof (by omega) (by omega) (PciAddr.mk.inj he).2.2
  · refine List.nodup_range.imp_of_mem fun {d d'} hd hd' hne => ?_
    intro addr haddr haddr'
    obtain ⟨f, -, rfl⟩ := List.mem_map.mp haddr
    obtain ⟨f', -, he⟩ := List.mem_map.mp haddr'
    have hd := List.mem_range.mp hd
    have hd' := List.mem_range.mp hd'
    exact hne (hof (by omega) (by omega) (PciAddr.mk.inj he).2.1.symm)
  · refine List.nodup_range.imp_of_mem fun {b b'} hb hb' hne => ?_
    intro addr haddr haddr'
    obtain ⟨d, -, hmem⟩ := List.mem_flatMap.mp haddr
    obtain ⟨f, -, rfl⟩ := List.mem_map.mp hmem
    obtain ⟨d', -, hmem'⟩ := List.mem_flatMap.mp haddr'
    obtain ⟨f', -, he⟩ := List.mem_map.mp hmem'
    have hb := List.mem_range.mp hb
    have hb' := List.mem_range.mp hb'
    exact hne (hof (by omega) (by omega) ((BitVec.add_right_inj _).mp (PciAddr.mk.inj he).1).symm)

end ShedOS.Pci
