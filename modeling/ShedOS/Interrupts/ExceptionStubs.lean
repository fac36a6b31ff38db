import ShedOS.Interrupts.Exceptions
import ShedOS.Task.Contexts

/-!
# The stubs of the exceptions

`isr_err_code` and `isr_err_nocode` of `interrupts.S`, from user mode to the
handler and back. The processor pushes an error code for some vectors, and the
stubs push one for the others; whether they agree decides what the handler
finds.
-/

namespace ShedOS.Interrupts

open Bytes Layout Memory
open ShedOS.Task

variable {σ η : Type} {s : Core σ η} {r : Reg} {vector : Nat} {code : Option U64} {m : Mem}

-- ---------------------------------------------------------------------------
-- Code
-- ---------------------------------------------------------------------------

inductive ExceptionField where
  | gprs (r : Reg) | intNo | errorCode | rip | cs | rflags | rsp | ss
  deriving DecidableEq, Repr

def exceptionFrame : Packed ExceptionField :=
  structRegisters.map (fun (r, n) => (.gprs r, n)) ++
    [(.intNo, 8), (.errorCode, 8), (.rip, 8), (.cs, 8), (.rflags, 8), (.rsp, 8), (.ss, 8)]

@[simp] theorem offset_exceptionGprs (r : Reg) : exceptionFrame.offset (.gprs r) = structRegisters.offset r := by
  cases r <;> rfl

/-- How many stubs there are, and entries of the table of them. -/
def exceptionVectors : Nat := 31

/-- The vectors of `isr_err_code`; the others are those of `isr_err_nocode`. -/
def errCodeVectors : List Nat := [8, 10, 11, 12, 13, 14, 15, 17, 30]

/-- The vectors for which the processor pushes an error code. -/
def pushesErrorCode (vector : Nat) : Bool := vector ∈ [8, 10, 11, 12, 13, 14, 17, 21, 29, 30]

def exceptionHead (vector : Nat) : List Instr :=
  (if vector ∈ errCodeVectors then [] else [.pushqImm 0]) ++ .pushqImm (BitVec.ofNat 64 vector) :: isrHead

namespace Core

/-- An exception in user mode, with the error code if there is one. -/
def raise (s : Core σ η) (code : Option U64) : Core σ η :=
  match code with
  | none => s.enter
  | some code => s.enter.push code

def addqRsp (s : Core σ η) (n : U64) : Core σ η := s.withRsp (s.rsp + n)

/-- The stubs after the call: error code and number are dropped. -/
def exceptionReturn (s : Core σ η) : Core σ η := ((s.run popAll).addqRsp 16).step .iretq

end Core

def exceptionGet (k : Kernel σ η) (frame : U64) (f : ExceptionField) : U64 :=
  k.kmem.read64 (frame.toNat + exceptionFrame.offset f)

def exceptionContext (k : Kernel σ η) (frame : U64) : Context where
  regs r := exceptionGet k frame (.gprs r)
  rsp := exceptionGet k frame .rsp
  rflags := exceptionGet k frame .rflags
  rip := exceptionGet k frame .rip

inductive Trapped (σ η : Type)
  | resumed (s : Core σ η)
  | halted (s : Core σ η)

def Core.exception [FrameSource σ] (s : Core σ η) (vector : Nat) (code : Option U64) (cr2 : U64) (c : Leftover) :
    Option (Trapped σ η) :=
  let s := (s.raise code).run (exceptionHead vector)
  let k := s.kernel
  let frame := s.regs .rdi
  match exceptionHandle k.machine (k.get k.currentTask .vmap) (exceptionGet k frame .intNo) cr2 with
  | none => none
  | some (.returned machine) => some (.resumed (s.returned { k with machine } c).exceptionReturn)
  | some (.halted machine) => some (.halted (s.returned { k with machine } c))

-- ---------------------------------------------------------------------------
-- What the handler finds
-- ---------------------------------------------------------------------------

namespace Core

/-- What lies above number and registers: the processor's words, and the error
code of the stub. -/
def pushedFirst (s : Core σ η) (vector : Nat) (code : Option U64) : List U64 :=
  [s.ss, s.rsp, s.rflags, s.cs, s.rip] ++ code.toList ++ if vector ∈ errCodeVectors then [] else [0]

def pushedAll (s : Core σ η) (vector : Nat) (code : Option U64) : List U64 :=
  s.pushedFirst vector code ++ BitVec.ofNat 64 vector :: pushOrder.map s.regs

def trapFrame (s : Core σ η) (vector : Nat) (code : Option U64) : U64 :=
  (s.tssRsp0 &&& ~~~0xf) - BitVec.ofNat 64 (8 * (s.pushedAll vector code).length)

theorem length_pushedAll (s : Core σ η) (vector : Nat) (code : Option U64) :
    (s.pushedAll vector code).length = (s.pushedFirst vector code).length + 16 := by
  rw [pushedAll, List.length_append, List.length_cons, List.length_map]
  rfl

theorem length_pushedFirst : 5 ≤ (s.pushedFirst vector code).length ∧ (s.pushedFirst vector code).length ≤ 7 := by
  rw [pushedFirst, List.length_append, List.length_append]
  cases code <;> split <;> simp

theorem pushes_append {vs ws : List U64} : s.pushes (vs ++ ws) = (s.pushes vs).pushes ws := List.foldl_append ..

theorem pushes_segments {vs : List U64} {rflags cs ss : U64} :
    ({ s with rflags, cs, ss } : Core σ η).pushes vs = { s.pushes vs with rflags, cs, ss } := by
  induction vs generalizing s with
  | nil => rfl
  | cons v vs ih => exact ih (s := s.push v)

theorem pushes_regs {vs : List U64} : (s.pushes vs).regs = s.regs := by
  induction vs generalizing s with
  | nil => rfl
  | cons v vs ih => exact ih (s := s.push v)

theorem raise_pushes : (s.raise code).run ((if vector ∈ errCodeVectors then [] else [.pushqImm 0]) ++
      [.pushqImm (BitVec.ofNat 64 vector)]) =
    { (s.withRsp (s.tssRsp0 &&& ~~~0xf)).pushes (s.pushedFirst vector code ++ [BitVec.ofNat 64 vector]) with
      rflags := s.rflags &&& ~~~FLAG_IF, cs := KERNEL_CODE, ss := 0 } := by
  rw [pushedFirst]
  cases code <;> split <;> rfl

theorem toNat_trapFrame (vector : Nat) (code : Option U64) (h : stackSize ≤ s.tssRsp0.toNat) :
    (s.trapFrame vector code).toNat + 8 * (s.pushedAll vector code).length = s.tssRsp0.toNat / 16 * 16 := by
  have hlen : (s.pushedAll vector code).length ≤ 23 := by
    rw [length_pushedAll]
    exact Nat.add_le_add_right length_pushedFirst.2 16
  have htop : (s.tssRsp0 &&& ~~~0xf).toNat = s.tssRsp0.toNat / 16 * 16 := toNat_stackTop
  have hwords : (BitVec.ofNat 64 (8 * (s.pushedAll vector code).length)).toNat = 8 * (s.pushedAll vector code).length := by
    rw [BitVec.toNat_ofNat]
    omega
  unfold stackSize at h
  rw [trapFrame, BitVec.toNat_sub_of_le, hwords, htop]
  · omega
  · rw [BitVec.le_def, hwords, htop]
    omega

theorem exception_head (vector : Nat) (code : Option U64) (h : stackSize ≤ s.tssRsp0.toNat) :
    ∃ m rflags, (s.raise code).run (exceptionHead vector) =
        { s with
          regs := Function.update s.regs .rdi (s.trapFrame vector code)
          rsp := s.trapFrame vector code
          rflags := rflags
          cs := KERNEL_CODE
          ss := 0
          kernel := (s.withMem m).kernel } ∧
      (∀ i (hi : i < (s.pushedAll vector code).length),
        m.read64 ((s.trapFrame vector code).toNat + 8 * ((s.pushedAll vector code).length - (i + 1))) =
          (s.pushedAll vector code)[i]) ∧
      ∀ a, a < s.tssRsp0.toNat - stackSize ∨ s.tssRsp0.toNat ≤ a → m a = s.kernel.kmem a := by
  obtain ⟨top, htop⟩ : ∃ t, t = s.tssRsp0 &&& ~~~0xf := ⟨_, rfl⟩
  have hlen : (s.pushedAll vector code).length ≤ 23 := by
    rw [length_pushedAll]
    exact Nat.add_le_add_right length_pushedFirst.2 16
  have hnat : top.toNat = s.tssRsp0.toNat / 16 * 16 := by rw [htop, toNat_stackTop]
  have hbase := toNat_trapFrame vector code h
  unfold stackSize at h ⊢
  obtain ⟨m, hm, hread, hout⟩ := pushes_spec (s := s.withRsp top) (s.pushedAll vector code) (by
    show 8 * _ ≤ top.toNat
    omega)
  refine ⟨m, s.rflags &&& ~~~FLAG_IF &&& ~~~FLAG_DF, ?_, fun i hi => ?_, fun a ha => ?_⟩
  · have hhead : exceptionHead vector = ((if vector ∈ errCodeVectors then [] else [.pushqImm 0]) ++
        [.pushqImm (BitVec.ofNat 64 vector)]) ++ (pushOrder.map .pushq ++ [.cld, .movqRsp .rdi]) := by
      rw [exceptionHead, List.append_assoc]
      rfl
    rw [hhead, run_append, raise_pushes, run_append, run_pushq, pushes_segments, pushes_regs, ← pushes_append,
      List.append_assoc]
    show ({ (s.withRsp (s.tssRsp0 &&& ~~~0xf)).pushes (s.pushedAll vector code) with
      rflags := s.rflags &&& ~~~FLAG_IF, cs := KERNEL_CODE, ss := 0 } : Core σ η).run [.cld, .movqRsp .rdi] = _
    rw [← htop, hm, trapFrame, ← htop]
    rfl
  · rw [← hread i hi]
    congr 1
    show _ = top.toNat - 8 * (i + 1)
    omega
  · refine hout a ?_
    show a < top.toNat - 8 * _ ∨ top.toNat ≤ a
    omega

/-- Number and registers lie where `struct exception_frame` has them, whatever
was pushed before. -/
structure Numbered (s : Core σ η) (vector : Nat) (frame : U64) (k : Kernel σ η) : Prop where
  intNo : exceptionGet k frame .intNo = BitVec.ofNat 64 vector
  regs : ∀ r, exceptionGet k frame (.gprs r) = s.regs r

structure Dumped (s : Core σ η) (vector : Nat) (code : Option U64) (frame : U64) (k : Kernel σ η) : Prop
    extends Numbered s vector frame k where
  context : exceptionContext k frame = s.context
  errorCode : exceptionGet k frame .errorCode = code.getD 0
  cs : exceptionGet k frame .cs = s.cs
  ss : exceptionGet k frame .ss = s.ss

def Words (s : Core σ η) (vector : Nat) (code : Option U64) (m : Mem) : Prop :=
  ∀ i (hi : i < (s.pushedAll vector code).length),
    m.read64 ((s.trapFrame vector code).toNat + 8 * ((s.pushedAll vector code).length - (i + 1))) =
      (s.pushedAll vector code)[i]

theorem Words.numbered (h : s.Words vector code m) : s.Numbered vector (s.trapFrame vector code) (s.withMem m).kernel := by
  have hlen := length_pushedAll s vector code
  constructor
  · have hword := h (s.pushedFirst vector code).length (by omega)
    rw [List.getElem_of_eq (pushedAll.eq_1 ..), List.getElem_append_right (Nat.le_refl _)] at hword
    simp only [Nat.sub_self, List.getElem_cons_zero] at hword
    rw [← hword]
    refine congrArg (fun a => m.read64 ((s.trapFrame vector code).toNat + a)) ?_
    rw [hlen, show exceptionFrame.offset .intNo = 120 from rfl]
    omega
  · intro r
    obtain ⟨hi, hoff⟩ := offset_pushOrder r
    have hword := h ((s.pushedFirst vector code).length + 1 + pushOrder.idxOf r) (by omega)
    rw [List.getElem_of_eq (pushedAll.eq_1 ..), List.getElem_append_right (by omega)] at hword
    have hidx : (s.pushedFirst vector code).length + 1 + pushOrder.idxOf r - (s.pushedFirst vector code).length =
        pushOrder.idxOf r + 1 := by omega
    simp only [hidx, List.getElem_cons_succ, pushed_register] at hword
    rw [← hword]
    refine congrArg (fun a => m.read64 ((s.trapFrame vector code).toNat + a)) ?_
    rw [hlen, offset_exceptionGprs]
    omega

def Matched (vector : Nat) (code : Option U64) : Prop := code.isSome = decide (vector ∈ errCodeVectors)

instance : Decidable (Matched vector code) := inferInstanceAs (Decidable (_ = _))

theorem Matched.pushedFirst (h : Matched vector code) :
    s.pushedFirst vector code = [s.ss, s.rsp, s.rflags, s.cs, s.rip, code.getD 0] := by
  rw [Core.pushedFirst]
  cases code with
  | none =>
    have hout : vector ∉ errCodeVectors := of_decide_eq_false h.symm
    rw [if_neg hout]
    rfl
  | some e =>
    have hin : vector ∈ errCodeVectors := of_decide_eq_true h.symm
    rw [if_pos hin]
    rfl

theorem Words.dumped (h : s.Words vector code m) (hmatch : Matched vector code) :
    s.Dumped vector code (s.trapFrame vector code) (s.withMem m).kernel := by
  have hnum := h.numbered
  have hfirst := hmatch.pushedFirst (s := s)
  have hlen : (s.pushedAll vector code).length = 22 := by rw [length_pushedAll, hfirst]; rfl
  have hword : ∀ (f : ExceptionField) i (hi : i < 6), exceptionFrame.offset f + 8 * (i + 1) = 176 →
      exceptionGet (s.withMem m).kernel (s.trapFrame vector code) f =
        [s.ss, s.rsp, s.rflags, s.cs, s.rip, code.getD 0][i] := by
    intro f i hi hf
    have hword := h i (by omega)
    rw [List.getElem_of_eq (pushedAll.eq_1 ..), List.getElem_append_left (by rw [hfirst]; exact hi),
      List.getElem_of_eq hfirst] at hword
    rw [← hword]
    refine congrArg (fun a => m.read64 ((s.trapFrame vector code).toNat + a)) ?_
    omega
  exact ⟨hnum, Context.ext (funext hnum.regs) (hword .rsp 1 (by decide) rfl) (hword .rflags 2 (by decide) rfl)
    (hword .rip 4 (by decide) rfl), hword .errorCode 5 (by decide) rfl, hword .cs 3 (by decide) rfl,
    hword .ss 0 (by decide) rfl⟩

-- ---------------------------------------------------------------------------
-- The way back
-- ---------------------------------------------------------------------------

theorem run_exceptionReturn (h : s.rsp.toNat + 176 < 2 ^ 64) :
    s.exceptionReturn =
      { s with
        regs := (exceptionContext s.kernel s.rsp).regs
        rsp := (exceptionContext s.kernel s.rsp).rsp
        rip := (exceptionContext s.kernel s.rsp).rip
        rflags := (exceptionContext s.kernel s.rsp).rflags
        cs := exceptionGet s.kernel s.rsp .cs
        ss := exceptionGet s.kernel s.rsp .ss } := by
  have hpops := run_popq (s := s) popOrder (by decide) (show s.rsp.toNat + 120 < 2 ^ 64 by omega)
  have hregs : (fun r => if r ∈ popOrder then s.kernel.kmem.read64 (s.rsp.toNat + 8 * popOrder.idxOf r)
      else s.regs r) = (exceptionContext s.kernel s.rsp).regs := by
    funext r
    obtain ⟨hmem, hoff⟩ := offset_popOrder r
    rw [if_pos hmem, hoff, ← offset_exceptionGprs]
    rfl
  have hword : ∀ (f : ExceptionField) (i : Nat), 136 + 8 * i = exceptionFrame.offset f → i < 5 →
      s.read (s.rsp + 120#64 + 16#64 + BitVec.ofNat 64 (8 * i)) = exceptionGet s.kernel s.rsp f := by
    intro f i hf hi
    have hsum : s.rsp + 120#64 + 16#64 + BitVec.ofNat 64 (8 * i) = s.rsp + BitVec.ofNat 64 (8 * (17 + i)) := by
      rw [BitVec.add_assoc, BitVec.add_assoc, Nat.mul_add, BitVec.ofNat_add, ← BitVec.add_assoc 120#64]
      rfl
    rw [hsum, read_pop (by omega)]
    show _ = s.kernel.kmem.read64 (s.rsp.toNat + exceptionFrame.offset f)
    rw [← hf, Nat.mul_add]
  have hrip : s.read (s.rsp + 120#64 + 16#64) = exceptionGet s.kernel s.rsp .rip := by
    have := hword .rip 0 rfl (by decide)
    rwa [show BitVec.ofNat 64 (8 * 0) = 0#64 from rfl, BitVec.add_zero] at this
  have hcs : s.read (s.rsp + 120#64 + 16#64 + 8#64) = _ := hword .cs 1 rfl (by decide)
  have hrflags : s.read (s.rsp + 120#64 + 16#64 + 16#64) = _ := hword .rflags 2 rfl (by decide)
  have hrsp : s.read (s.rsp + 120#64 + 16#64 + 24#64) = _ := hword .rsp 3 rfl (by decide)
  have hss : s.read (s.rsp + 120#64 + 16#64 + 32#64) = _ := hword .ss 4 rfl (by decide)
  rw [exceptionReturn, popAll, hpops, hregs]
  show ({ s with
    regs := (exceptionContext s.kernel s.rsp).regs
    rip := s.read (s.rsp + 120#64 + 16#64)
    cs := s.read (s.rsp + 120#64 + 16#64 + 8#64)
    rflags := s.read (s.rsp + 120#64 + 16#64 + 16#64)
    rsp := s.read (s.rsp + 120#64 + 16#64 + 24#64)
    ss := s.read (s.rsp + 120#64 + 16#64 + 32#64) } : Core σ η) = _
  rw [hrip, hcs, hrflags, hrsp, hss]
  rfl

theorem exceptionGet_returned {k : Kernel σ η} {c : Leftover} {f : ExceptionField} :
    exceptionGet (s.returned k c).kernel s.rsp f = exceptionGet k s.rsp f := by
  unfold exceptionGet
  rw [returned_kmem]
  refine Mem.read64_congr fun a ha _ => ?_
  unfold clobber
  rw [if_neg (by omega)]

end Core

-- ---------------------------------------------------------------------------
-- Exceptions from user mode
-- ---------------------------------------------------------------------------

variable [FrameSource σ] {t : Core σ η} {cr2 : U64} {c : Leftover}

/-- `t` is the processor where it was in `s`; the kernel's machine may have
changed, and its interrupt stack. -/
structure Back (s t : Core σ η) : Prop where
  context : t.context = s.context
  cs : t.cs = s.cs
  ss : t.ss = s.ss
  tss : t.tssRsp0 = s.tssRsp0
  memory : StackOnly s s.kernel.kmem t.kernel.kmem
  kernel : t.kernel = { s.kernel with machine := t.kernel.machine, kmem := t.kernel.kmem }

def handled (s : Core σ η) (vector : Nat) (cr2 : U64) : Option (Handled σ) :=
  exceptionHandle s.kernel.machine (s.kernel.get s.kernel.currentTask .vmap) (BitVec.ofNat 64 vector) cr2

/-- The stub calls the handler with the vector's number, and goes back where
the exception came from if the handler returns. -/
structure Dispatched (s : Core σ η) (vector : Nat) (code : Option U64) (cr2 : U64) (c : Leftover) : Prop where
  faults : handled s vector cr2 = none → s.exception vector code cr2 c = none
  halts : ∀ machine, handled s vector cr2 = some (.halted machine) →
    ∃ t, s.exception vector code cr2 c = some (.halted t) ∧ t.kernel.machine = machine
  returns : ∀ machine, handled s vector cr2 = some (.returned machine) → Core.Matched vector code →
    ∃ t, s.exception vector code cr2 c = some (.resumed t) ∧ t.kernel.machine = machine ∧ Back s t

omit [FrameSource σ] in
theorem back_exceptionReturn {E : Core σ η} {k : Kernel σ η} {machine : Machine σ} (hstack : stackSize ≤ s.tssRsp0.toNat)
    (hmatch : Core.Matched vector code) (hrsp : E.rsp = s.trapFrame vector code) (htss : E.tssRsp0 = s.tssRsp0)
    (hwords : s.Words vector code m) (hout : StackOnly s s.kernel.kmem m)
    (hk : k = { (s.withMem m).kernel with machine }) :
    (E.returned k c).exceptionReturn.kernel.machine = machine ∧ Back s (E.returned k c).exceptionReturn := by
  have hdump := hwords.dumped hmatch
  have hget : ∀ f, exceptionGet (E.returned k c).kernel (E.returned k c).rsp f =
      exceptionGet (s.withMem m).kernel (s.trapFrame vector code) f := fun f => by
    refine Core.exceptionGet_returned.trans ?_
    rw [hrsp, hk]
    rfl
  have hcontext : exceptionContext (E.returned k c).kernel (E.returned k c).rsp = s.context := by
    rw [← hdump.context]
    exact Context.ext (funext fun _ => hget _) (hget _) (hget _) (hget _)
  have hbase := Core.toNat_trapFrame vector code hstack
  have hlen := Core.length_pushedAll s vector code
  have hroom : (E.returned k c).rsp.toNat + 176 < 2 ^ 64 := by
    have hlt := s.tssRsp0.isLt
    rw [hmatch.pushedFirst] at hlen
    simp only [List.length_cons, List.length_nil] at hlen
    rw [show (E.returned k c).rsp = _ from hrsp]
    omega
  rw [Core.run_exceptionReturn hroom, hcontext, hget, hget, hdump.cs, hdump.ss]
  have hmachine : k.machine = machine := by rw [hk]
  refine ⟨hmachine, rfl, rfl, rfl, htss, ?_, ?_⟩
  · show StackOnly s s.kernel.kmem (E.clobber k.kmem c)
    have hkmem : k.kmem = m := by rw [hk]; rfl
    refine StackOnly.trans (hkmem ▸ hout) (.clobber htss ?_)
    rw [hrsp]
    omega
  · show ({ k with kmem := E.clobber k.kmem c } : Kernel σ η) = _
    rw [hk]
    rfl

theorem exception_dispatched (vector : Nat) (code : Option U64) (cr2 : U64) (c : Leftover)
    (hstack : stackSize ≤ s.tssRsp0.toNat) (htask : Placed s s.kernel.currentTask) :
    Dispatched s vector code cr2 c := by
  obtain ⟨m, rflags, hrun, hwords, hout⟩ := Core.exception_head vector code hstack
  obtain ⟨E, hE⟩ : ∃ E, E = (s.raise code).run (exceptionHead vector) := ⟨_, rfl⟩
  have hnum := Core.Words.numbered hwords
  rw [← hE] at hrun
  have hrsp : E.rsp = s.trapFrame vector code := by rw [hrun]
  have hrdi : E.regs .rdi = s.trapFrame vector code := by rw [hrun]; rfl
  have hkernel : E.kernel = (s.withMem m).kernel := by rw [hrun]
  have hvmap : E.kernel.get E.kernel.currentTask .vmap = s.kernel.get s.kernel.currentTask .vmap := by
    rw [hkernel]
    exact (StackOnly.same hout htask).read (by decide)
  have hcall : exceptionHandle E.kernel.machine (E.kernel.get E.kernel.currentTask .vmap)
      (exceptionGet E.kernel (E.regs .rdi) .intNo) cr2 = handled s vector cr2 := by
    rw [hvmap, hrdi, hkernel, hnum.intNo]
    rfl
  have hexc : s.exception vector code cr2 c = match handled s vector cr2 with
      | none => none
      | some (.returned machine) => some (.resumed (E.returned { E.kernel with machine } c).exceptionReturn)
      | some (.halted machine) => some (.halted (E.returned { E.kernel with machine } c)) := by
    rw [← hcall, hE]
    rfl
  refine ⟨fun h => ?_, fun machine h => ?_, fun machine h hmatch => ?_⟩
  · rw [hexc, h]
  · rw [hexc, h]
    exact ⟨_, rfl, rfl⟩
  · rw [hexc, h]
    exact ⟨_, rfl, back_exceptionReturn hstack hmatch hrsp (by rw [hrun]) hwords hout (by rw [hkernel])⟩

/-- A fault of the user half whose page was copied, or a debug exception. -/
def ComesBack (s : Core σ η) (vector : Nat) (cr2 : U64) (machine : Machine σ) : Prop :=
  vector = 1 ∧ machine = s.kernel.machine ∨
    vector = 14 ∧ ptrIsUser cr2 = true ∧
      cowCopyOnWrite s.kernel.machine (s.kernel.get s.kernel.currentTask .vmap) cr2 = some (true, machine)

theorem handled_returned {machine : Machine σ} (hvector : vector < exceptionVectors) :
    handled s vector cr2 = some (.returned machine) ↔ ComesBack s vector cr2 machine := by
  have hnum : ∀ n, n < 31 → (BitVec.ofNat 64 vector = BitVec.ofNat 64 n ↔ vector = n) := fun n hn => by
    unfold exceptionVectors at hvector
    refine ⟨fun h => ?_, fun h => h ▸ rfl⟩
    have := congrArg BitVec.toNat h
    simp only [BitVec.toNat_ofNat] at this
    omega
  have hpf : BitVec.ofNat 64 vector = EXCEPTION_PF ↔ vector = 14 := hnum 14 (by decide)
  have hdb : BitVec.ofNat 64 vector = EXCEPTION_DB ↔ vector = 1 := hnum 1 (by decide)
  unfold handled exceptionHandle ComesBack
  by_cases hv : vector = 14
  · rw [if_pos (hpf.mpr hv)]
    have hne : vector ≠ 1 := by omega
    by_cases huser : ptrIsUser cr2 = true
    · rw [if_pos huser]
      refine Option.bind_eq_some_iff.trans ⟨?_, ?_⟩
      · rintro ⟨⟨copied, t⟩, hcow, h⟩
        cases copied with
        | false => cases h
        | true =>
          obtain rfl : t = machine := Handled.returned.inj (Option.some.inj h)
          exact .inr ⟨hv, huser, hcow⟩
      · rintro (⟨h, -⟩ | ⟨-, -, hcow⟩)
        · exact absurd h hne
        · exact ⟨_, hcow, rfl⟩
    · rw [if_neg huser]
      constructor
      · intro h
        cases h
      · rintro (⟨h, -⟩ | ⟨-, h, -⟩)
        · exact absurd h hne
        · exact absurd h huser
  · rw [if_neg (fun h => hv (hpf.mp h))]
    by_cases hd : vector = 1
    · rw [if_pos (hdb.mpr hd)]
      constructor
      · intro h
        exact .inl ⟨hd, (Handled.returned.inj (Option.some.inj h)).symm⟩
      · rintro (⟨-, rfl⟩ | ⟨h, -⟩)
        · rfl
        · exact absurd h hv
    · rw [if_neg (fun h => hd (hdb.mp h))]
      constructor
      · intro h
        cases h
      · rintro (⟨h, -⟩ | ⟨h, -⟩)
        · exact absurd h hd
        · exact absurd h hv

/-- Where the processor pushes an error code and its stub does not, or the other
way round. -/
def mismatched : List Nat := [15, 21, 29]

theorem matched_iff (hvector : vector < exceptionVectors) (hcode : code.isSome = pushesErrorCode vector) :
    Core.Matched vector code ↔ vector ∉ mismatched := by
  unfold Core.Matched
  rw [hcode]
  have hall : ∀ v < exceptionVectors, pushesErrorCode v = decide (v ∈ errCodeVectors) ↔ v ∉ mismatched := by decide
  exact hall vector hvector

/-- An exception comes back only as #DB, or as a page fault that copied its page;
then the task goes on where it was, with all its registers. The handler finds
number and registers in any case, and the rest unless the stub is one of three. -/
theorem exception_transparent (vector : Nat) (code : Option U64) (cr2 : U64) (c : Leftover)
    (hstack : stackSize ≤ s.tssRsp0.toNat) (htask : Placed s s.kernel.currentTask)
    (hvector : vector < exceptionVectors) (hcode : code.isSome = pushesErrorCode vector) :
    (∀ machine, (∃ t, s.exception vector code cr2 c = some (.resumed t) ∧ t.kernel.machine = machine) ↔
      ComesBack s vector cr2 machine) ∧
    (∀ t, s.exception vector code cr2 c = some (.resumed t) → Back s t) ∧
    (let E := (s.raise code).run (exceptionHead vector)
     s.Numbered vector (E.regs .rdi) E.kernel ∧
      (vector ∉ mismatched → s.Dumped vector code (E.regs .rdi) E.kernel)) := by
  obtain ⟨hfault, hhalt, hreturn⟩ := exception_dispatched vector code cr2 c hstack htask
  have hmatch : ∀ machine, ComesBack s vector cr2 machine → Core.Matched vector code := fun machine h => by
    refine (matched_iff hvector hcode).mpr ?_
    rcases h with ⟨rfl, -⟩ | ⟨rfl, -⟩ <;> decide
  have hresumed : ∀ t, s.exception vector code cr2 c = some (.resumed t) →
      ComesBack s vector cr2 t.kernel.machine ∧ Back s t := fun t ht => by
    rcases hh : handled s vector cr2 with _ | (machine | machine)
    · rw [hfault hh] at ht
      cases ht
    · have hback := (handled_returned hvector).mp hh
      obtain ⟨t', ht', rfl, h⟩ := hreturn machine hh (hmatch machine hback)
      obtain rfl : t' = t := Trapped.resumed.inj (Option.some.inj (ht'.symm.trans ht))
      exact ⟨hback, h⟩
    · obtain ⟨t', ht', -⟩ := hhalt machine hh
      rw [ht'] at ht
      cases ht
  refine ⟨fun machine => ⟨?_, fun h => ?_⟩, fun t ht => (hresumed t ht).2, ?_⟩
  · rintro ⟨t, ht, rfl⟩
    exact (hresumed t ht).1
  · obtain ⟨t, ht, hm, -⟩ := hreturn machine ((handled_returned hvector).mpr h) (hmatch machine h)
    exact ⟨t, ht, hm⟩
  · obtain ⟨m, rflags, hrun, hwords, -⟩ := Core.exception_head (s := s) vector code hstack
    intro E
    have hE : E = _ := hrun
    have hkernel : E.kernel = (s.withMem m).kernel := by rw [hE]
    have hrdi : E.regs .rdi = s.trapFrame vector code := by
      rw [hE]
      exact Function.update_self Reg.rdi _ s.regs
    rw [hkernel, hrdi]
    exact ⟨Core.Words.numbered hwords, fun hv => Core.Words.dumped hwords ((matched_iff hvector hcode).mpr hv)⟩

theorem exception_transparent_small : ∃ t, oneCore.exception 1 none 0 ⟨fun _ => 0, 0x8100, 0, fun _ => 0⟩ = some (.resumed t) ∧
    Back oneCore t ∧ t.kernel.machine = oneCore.kernel.machine := by
  have hplaced : Placed oneCore oneCore.kernel.currentTask := ⟨by unfold Core.Fits; decide, .inl (by decide)⟩
  obtain ⟨hiff, hback, -⟩ := exception_transparent 1 none 0
    ⟨fun _ => 0, 0x8100, 0, fun _ => 0⟩ (by decide) hplaced (by decide) rfl
  obtain ⟨t, ht, hm⟩ := (hiff oneCore.kernel.machine).mpr (.inl ⟨rfl, rfl⟩)
  exact ⟨t, ht, hback t ht, hm⟩

end ShedOS.Interrupts
