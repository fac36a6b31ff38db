import ShedOS.Interrupts.Asm
import ShedOS.Interrupts.Interrupts

/-!
# The assembly around the handlers

`push_all`, `pop_all` and the stubs of `interrupts.S`, and `switch_to_task`.
The order of pushes and pops and the literal offsets have to agree with the
packed structures that the C code uses.
-/

namespace ShedOS.Interrupts

open Bytes Layout Memory Syscall
open ShedOS.Task

variable {σ η : Type} {s : Core σ η} {r : Reg} {p v : U64} {rs : List Reg} {m : Mem} {f : TaskField}

-- ---------------------------------------------------------------------------
-- Code
-- ---------------------------------------------------------------------------

def pushOrder : List Reg :=
  [.rax, .rbx, .rcx, .rdx, .rsi, .rdi, .rbp, .r8, .r9, .r10, .r11, .r12, .r13, .r14, .r15]

def popOrder : List Reg :=
  [.r15, .r14, .r13, .r12, .r11, .r10, .r9, .r8, .rbp, .rdi, .rsi, .rdx, .rcx, .rbx, .rax]

def pushAll : List Instr := pushOrder.map .pushq

def popAll : List Instr := popOrder.map .popq

def isrHead : List Instr := pushAll ++ [.cld, .movqRsp .rdi]

def isrNoerrTail : List Instr := popAll ++ [.iretq]

def isrSyscallTail : List Instr := .storeRsp .rax 112 :: (popAll ++ [.iretq])

def switchSegments : List Instr :=
  [.movw 0x23 .rax, .movwSegment .rax, .movwSegment .rax, .movwSegment .rax, .movwSegment .rax]

def switchVmap : List Instr :=
  [.load 152 .rdi .rax, .movqImm 0xffff800000000000 .rbx, .subq .rbx .rax, .movqCr3 .rax]

def switchStack : List Instr :=
  [.pushqImm 0x23, .load 120 .rdi .rax, .pushq .rax, .load 128 .rdi .rax, .orqImm 0x200 .rax, .pushq .rax,
    .pushqImm 0x1b, .load 136 .rdi .rax, .pushq .rax]

def switchRegs : List Instr :=
  [.load 0 .rdi .r15, .load 8 .rdi .r14, .load 16 .rdi .r13, .load 24 .rdi .r12, .load 32 .rdi .r11,
    .load 40 .rdi .r10, .load 48 .rdi .r9, .load 56 .rdi .r8, .load 64 .rdi .rbp, .load 80 .rdi .rsi,
    .load 88 .rdi .rdx, .load 96 .rdi .rcx, .load 104 .rdi .rbx, .load 112 .rdi .rax]

def switchToTask : List Instr :=
  switchSegments ++ switchVmap ++ switchStack ++ switchRegs ++ [.load 72 .rdi .rdi, .iretq]

-- ---------------------------------------------------------------------------
-- Calls of C functions
-- ---------------------------------------------------------------------------

def stackSize : Nat := 0x1000

/-- What compiled code leaves behind besides its result: registers, flags, its
part of the stack, and the stack pointer when it calls on. -/
structure Leftover where
  regs : Reg → U64
  rsp : U64
  rflags : U64
  stack : Mem

def calleeSaved : List Reg := [.rbx, .rbp, .r12, .r13, .r14, .r15]

namespace Core

/-- Memory after a C function: its stack frames lie below the stack pointer. -/
def clobber (s : Core σ η) (m : Mem) (c : Leftover) : Mem := fun a =>
  if s.tssRsp0.toNat ≤ a + stackSize ∧ a < s.rsp.toNat then c.stack a else m a

/-- A C function returned, with the kernel in state `k`. -/
def returned (s : Core σ η) (k : Kernel σ η) (c : Leftover) : Core σ η :=
  { s with
    regs := fun r => if r ∈ calleeSaved then s.regs r else c.regs r
    rflags := c.rflags
    kernel := { k with kmem := s.clobber k.kmem c } }

/-- A C function calls `switch_to_task(task)`. -/
def calling (s : Core σ η) (k : Kernel σ η) (task : U64) (c : Leftover) : Core σ η :=
  { s with
    regs := Function.update c.regs .rdi task
    rsp := c.rsp
    rflags := c.rflags
    kernel := { k with kmem := s.clobber k.kmem c } }

def hpet (s : Core σ η) (counter : U64) (c : Leftover) : Core σ η :=
  let s := s.enter.run isrHead
  match isr34 s.kernel (s.regs .rdi) counter with
  | (k, none) => (s.returned k c).run isrNoerrTail
  | (k, some task) => (s.calling k task c).run switchToTask

theorem hpet_idle {s : Core σ η} {counter : U64} {c : Leftover} {k : Kernel σ η}
    (h : isr34 (s.enter.run isrHead).kernel ((s.enter.run isrHead).regs .rdi) counter = (k, none)) :
    s.hpet counter c = ((s.enter.run isrHead).returned k c).run isrNoerrTail := by
  unfold hpet
  simp only [h]

theorem hpet_switch {s : Core σ η} {counter : U64} {c : Leftover} {k : Kernel σ η} {task : U64}
    (h : isr34 (s.enter.run isrHead).kernel ((s.enter.run isrHead).regs .rdi) counter = (k, some task)) :
    s.hpet counter c = ((s.enter.run isrHead).calling k task c).run switchToTask := by
  unfold hpet
  simp only [h]

def syscall [FrameSource σ] [HeapSource η] (s : Core σ η) (c : Leftover) : Option (Core σ η) :=
  let s := s.enter.run isrHead
  match isr128 s.kernel (s.regs .rdi) with
  | none => none
  | some (k, rax) => some (((s.returned k c).setReg .rax rax).run isrSyscallTail)

-- ---------------------------------------------------------------------------
-- The frame
-- ---------------------------------------------------------------------------

def frame (s : Core σ η) : U64 := (s.tssRsp0 &&& ~~~0xf) - BitVec.ofNat 64 interruptFrame.size

theorem offset_pushOrder (r : Reg) :
    pushOrder.idxOf r < 15 ∧ structRegisters.offset r + 8 * (pushOrder.idxOf r + 1) = 120 := by
  cases r <;> decide

theorem offset_popOrder (r : Reg) : r ∈ popOrder ∧ 8 * popOrder.idxOf r = structRegisters.offset r := by
  cases r <;> decide

theorem pushed_register (g : Reg → U64) (r : Reg) (h : pushOrder.idxOf r < (pushOrder.map g).length) :
    (pushOrder.map g)[pushOrder.idxOf r] = g r := by
  rw [List.getElem_map, List.getElem_idxOf]

theorem toNat_stackTop {x : U64} : (x &&& ~~~0xf).toNat = x.toNat / 16 * 16 := by
  have h : x &&& ~~~0xf#64 = (x >>> 4) <<< 4 := by
    refine BitVec.eq_of_getLsbD_eq fun i hi => ?_
    have hmask : ∀ i, i < 64 → (~~~0xf#64).getLsbD i = decide (4 ≤ i) := by decide
    rw [BitVec.getLsbD_and, hmask i hi, BitVec.getLsbD_shiftLeft, BitVec.getLsbD_ushiftRight]
    by_cases h4 : 4 ≤ i
    · have : 4 + (i - 4) = i := by omega
      simp [h4, hi, this]
    · simp [h4]
  have hx := x.isLt
  refine (congrArg BitVec.toNat h).trans ?_
  rw [BitVec.toNat_shiftLeft, BitVec.toNat_ushiftRight, Nat.shiftLeft_eq, Nat.shiftRight_eq_div_pow]
  omega

theorem toNat_frame (h : stackSize ≤ s.tssRsp0.toNat) :
    s.frame.toNat + 160 = s.tssRsp0.toNat / 16 * 16 := by
  have htop : (s.tssRsp0 &&& ~~~0xf).toNat = s.tssRsp0.toNat / 16 * 16 := toNat_stackTop
  unfold stackSize at h
  rw [frame, BitVec.toNat_sub_of_le, htop]
  · show _ - 160 + 160 = _
    omega
  · rw [BitVec.le_def, htop]
    show 160 ≤ _
    omega

/-- What the handler finds: its argument is a frame with the state of the
interrupted code. -/
theorem enter_head (h : stackSize ≤ s.tssRsp0.toNat) :
    ∃ m rflags, s.enter.run isrHead =
        { s with
          regs := Function.update s.regs .rdi s.frame
          rsp := s.frame
          rflags := rflags
          cs := KERNEL_CODE
          ss := 0
          kernel := (s.withMem m).kernel } ∧
      (s.withMem m).kernel.frameContext s.frame = s.context ∧
      (s.withMem m).kernel.frameGet s.frame .cs = s.cs ∧
      (s.withMem m).kernel.frameGet s.frame .ss = s.ss ∧
      ∀ a, a < s.tssRsp0.toNat - stackSize ∨ s.tssRsp0.toNat ≤ a → m a = s.kernel.kmem a := by
  have hframe := toNat_frame h
  obtain ⟨top, htop⟩ : ∃ t, t = s.tssRsp0 &&& ~~~0xf := ⟨_, rfl⟩
  have hnat : top.toNat = s.tssRsp0.toNat / 16 * 16 := by rw [htop, toNat_stackTop]
  unfold stackSize at h ⊢
  -- the processor's five words, then the fifteen registers
  obtain ⟨m₁, hm₁, hread₁, hout₁⟩ :=
    pushes_spec (s := s.withRsp top) [s.ss, s.rsp, s.rflags, s.cs, s.rip]
      (show 40 ≤ top.toNat by omega)
  have henter : s.enter = { s with
      rsp := top - 40#64, rflags := s.rflags &&& ~~~FLAG_IF, cs := KERNEL_CODE, ss := 0,
      kernel := (s.withMem m₁).kernel } := by
    have : s.enter = { (s.withRsp top).pushes [s.ss, s.rsp, s.rflags, s.cs, s.rip] with
        rflags := s.rflags &&& ~~~FLAG_IF, cs := KERNEL_CODE, ss := 0 } := by
      rw [htop]
      rfl
    rw [this, hm₁]
    rfl
  have hrsp : (top - 40#64).toNat = top.toNat - 40 := BitVec.toNat_sub_of_le (by
    rw [BitVec.le_def]
    show 40 ≤ _
    omega)
  obtain ⟨m₂, hm₂, hread₂, hout₂⟩ :=
    pushes_spec (s := s.enter) (pushOrder.map s.regs) (by
      rw [henter]
      show 120 ≤ (top - 40#64).toNat
      omega)
  have hrsp' : s.enter.rsp.toNat = top.toNat - 40 := by rw [henter]; exact hrsp
  have hregs : s.enter.regs = s.regs := by rw [henter]
  have hkmem : s.enter.kernel.kmem = m₁ := by rw [henter]; rfl
  rw [hrsp'] at hread₂ hout₂
  rw [hkmem] at hout₂
  have hword : ∀ (f : FrameField) i (hi : i < 5), interruptFrame.offset f + 8 * (i + 1) = 160 →
      (s.withMem m₂).kernel.frameGet s.frame f =
        [s.ss, s.rsp, s.rflags, s.cs, s.rip][i] := by
    intro f i hi hf
    rw [← hread₁ i hi]
    have haddr : frameAddr s.frame f = top.toNat - 8 * (i + 1) := by
      unfold frameAddr
      omega
    show m₂.read64 (frameAddr s.frame f) = m₁.read64 (top.toNat - 8 * (i + 1))
    rw [haddr]
    refine Mem.read64_congr fun a ha _ => hout₂ a ?_
    omega
  refine ⟨m₂, s.rflags &&& ~~~FLAG_IF &&& ~~~FLAG_DF, ?_, ?_, hword .cs 3 (by decide) rfl,
    hword .ss 0 (by decide) rfl, fun a ha => ?_⟩
  · have hbase : top - 40#64 - BitVec.ofNat 64 (8 * (pushOrder.map s.regs).length) = s.frame := by
      rw [frame, ← htop, BitVec.sub_sub]
      rfl
    rw [isrHead, run_append, pushAll, run_pushq, hregs, hm₂, henter]
    show _ = _
    simp only [withMem, withRsp, run_cons, run_nil, step, setReg, hbase]
  · refine Context.ext (funext fun r => ?_) (hword .rsp 1 (by decide) rfl) (hword .rflags 2 (by decide) rfl)
      (hword .rip 4 (by decide) rfl)
    obtain ⟨hi, hoff⟩ := offset_pushOrder r
    refine Eq.trans ?_ ((hread₂ (pushOrder.idxOf r) hi).trans (pushed_register s.regs r hi))
    show m₂.read64 (frameAddr s.frame (.gprs r)) = _
    congr 1
    unfold frameAddr
    rw [offset_gprs]
    omega
  · have hlen : 8 * (pushOrder.map s.regs).length = 120 := by rw [List.length_map]; rfl
    rw [hlen] at hout₂
    refine (hout₂ a (by omega)).trans (hout₁ a ?_)
    show a < top.toNat - 40 ∨ top.toNat ≤ a
    omega

/-- The end of a stub: the processor resumes what the frame says. -/
theorem run_tail (h : s.rsp.toNat + 160 < 2 ^ 64) :
    s.run (popAll ++ [.iretq]) =
      { s with
        regs := (s.kernel.frameContext s.rsp).regs
        rsp := (s.kernel.frameContext s.rsp).rsp
        rip := (s.kernel.frameContext s.rsp).rip
        rflags := (s.kernel.frameContext s.rsp).rflags
        cs := s.kernel.frameGet s.rsp .cs
        ss := s.kernel.frameGet s.rsp .ss } := by
  have hpops := run_popq (s := s) popOrder (by decide) (show s.rsp.toNat + 120 < 2 ^ 64 by omega)
  have hregs : (fun r => if r ∈ popOrder then s.kernel.kmem.read64 (s.rsp.toNat + 8 * popOrder.idxOf r)
      else s.regs r) = (s.kernel.frameContext s.rsp).regs := by
    funext r
    obtain ⟨hmem, hoff⟩ := offset_popOrder r
    rw [if_pos hmem, hoff, ← offset_gprs]
    rfl
  have hword : ∀ (f : FrameField) (i : Nat), 120 + 8 * i = interruptFrame.offset f → i < 5 →
      s.read (s.rsp + 120#64 + BitVec.ofNat 64 (8 * i)) = s.kernel.frameGet s.rsp f := by
    intro f i hf hi
    have hsum : s.rsp + 120#64 + BitVec.ofNat 64 (8 * i) = s.rsp + BitVec.ofNat 64 (8 * (15 + i)) := by
      rw [BitVec.add_assoc, Nat.mul_add, BitVec.ofNat_add]
    rw [hsum, read_pop (by omega)]
    show _ = s.kernel.kmem.read64 (s.rsp.toNat + interruptFrame.offset f)
    rw [← hf, Nat.mul_add]
  rw [run_append, popAll, hpops, hregs]
  have hrip : s.read (s.rsp + 120#64) = s.kernel.frameGet s.rsp .rip := by
    have := hword .rip 0 rfl (by decide)
    rwa [show BitVec.ofNat 64 (8 * 0) = 0#64 from rfl, BitVec.add_zero] at this
  have hcs : s.read (s.rsp + 120#64 + 8#64) = _ := hword .cs 1 rfl (by decide)
  have hrflags : s.read (s.rsp + 120#64 + 16#64) = _ := hword .rflags 2 rfl (by decide)
  have hrsp : s.read (s.rsp + 120#64 + 24#64) = _ := hword .rsp 3 rfl (by decide)
  have hss : s.read (s.rsp + 120#64 + 32#64) = _ := hword .ss 4 rfl (by decide)
  show ({ s with
    regs := (s.kernel.frameContext s.rsp).regs
    rip := s.read (s.rsp + 120#64)
    cs := s.read (s.rsp + 120#64 + 8#64)
    rflags := s.read (s.rsp + 120#64 + 16#64)
    rsp := s.read (s.rsp + 120#64 + 24#64)
    ss := s.read (s.rsp + 120#64 + 32#64) } : Core σ η) = _
  rw [hrip, hcs, hrflags, hrsp, hss]
  rfl

-- ---------------------------------------------------------------------------
-- switch_to_task
-- ---------------------------------------------------------------------------

def Fits (p : U64) : Prop := p.toNat + structTask.size ≤ 2 ^ 64

def StackApart (rsp p : U64) : Prop :=
  40 ≤ rsp.toNat ∧ (p.toNat + structTask.size ≤ rsp.toNat - 40 ∨ rsp.toNat ≤ p.toNat)

theorem read_task (hfit : Fits p) (hf : f ≠ .id) :
    s.read (p + BitVec.ofNat 64 (structTask.offset f)) = s.kernel.get p f := by
  have hle := offset_le f
  rw [fieldSize_structTask hf] at hle
  have hsize := structTask_size
  unfold Fits at hfit
  rw [read, BitVec.toNat_add, BitVec.toNat_ofNat, Nat.mod_eq_of_lt (a := structTask.offset f) (by omega),
    Nat.mod_eq_of_lt (by omega)]
  rfl

theorem step_load (hfit : Fits (s.regs .rdi)) (hf : f ≠ .id) :
    s.step (.load (structTask.offset f) .rdi r) = s.setReg r (s.kernel.get (s.regs .rdi) f) :=
  congrArg (s.setReg r) (read_task hfit hf)

/-- The literal offsets of `switch_to_task` are those of `struct registers`. -/
theorem switchRegs_eq : switchRegs =
    (popOrder.erase .rdi).map fun r => .load (structTask.offset (.regs r)) .rdi r := by decide

theorem run_loads (rs : List Reg) (hrdi : .rdi ∉ rs) (hfit : Fits (s.regs .rdi)) :
    s.run (rs.map fun r => .load (structTask.offset (.regs r)) .rdi r) =
      { s with regs := fun r => if r ∈ rs then s.kernel.get (s.regs .rdi) (.regs r) else s.regs r } := by
  induction rs generalizing s with
  | nil => simp
  | cons x rs ih =>
    simp only [List.mem_cons, not_or] at hrdi
    have hbase : (s.step (.load (structTask.offset (.regs x)) .rdi x)).regs .rdi = s.regs .rdi :=
      Function.update_of_ne hrdi.1 _ _
    rw [List.map_cons, run_cons, ih hrdi.2 (hbase ▸ hfit), hbase, step_load hfit (by simp)]
    refine congrArg (fun g => ({ s with regs := g } : Core σ η)) (funext fun r => ?_)
    by_cases hr : r ∈ rs
    · rw [if_pos hr, if_pos (List.mem_cons_of_mem _ hr)]
      rfl
    · rw [if_neg hr]
      by_cases hx : r = x
      · subst hx
        rw [if_pos List.mem_cons_self]
        exact Function.update_self r _ _
      · rw [if_neg (by simp [hx, hr])]
        exact Function.update_of_ne hx _ _

theorem run_switchVmap (hfit : Fits (s.regs .rdi)) :
    ∃ g, s.run (switchSegments ++ switchVmap) =
        (s.withCr3 (s.kernel.get (s.regs .rdi) .vmap - VADDR_HIGHER)).withRegs g ∧
      g .rdi = s.regs .rdi := by
  obtain ⟨x, hx⟩ : ∃ x, s.run switchSegments = s.setReg .rax x := ⟨_, rfl⟩
  obtain ⟨v, hv⟩ : ∃ v, v = s.kernel.get (s.regs .rdi) .vmap := ⟨_, rfl⟩
  have hrdi : (s.setReg .rax x).regs .rdi = s.regs .rdi := rfl
  have hload : (s.setReg .rax x).step (.load 152 .rdi .rax) = (s.setReg .rax x).setReg .rax v := by
    rw [hv, ← hrdi]
    exact step_load (f := .vmap) (hrdi ▸ hfit) (by decide)
  rw [run_append, hx, switchVmap, run_cons, hload, ← hv]
  exact ⟨_, rfl, rfl⟩

theorem step_load_push {g : Reg → U64} {vs : List U64} (offset : Nat) (f : TaskField)
    (hoff : offset = structTask.offset f) (hf : f ≠ .id) (hg : g .rdi = s.regs .rdi) (hvs : vs.length ≤ 5)
    (hfit : Fits (s.regs .rdi)) (hstack : StackApart s.rsp (s.regs .rdi)) :
    ((s.pushes vs).withRegs g).step (.load offset .rdi .rax) =
      (s.pushes vs).withRegs (Function.update g .rax (s.kernel.get (s.regs .rdi) f)) := by
  subst hoff
  obtain ⟨hroom, hapart⟩ := hstack
  obtain ⟨m, hm, -, hout⟩ := pushes_spec (s := s) vs (by omega)
  have hread : ((s.pushes vs).withRegs g).kernel.get (s.regs .rdi) f = s.kernel.get (s.regs .rdi) f := by
    rw [hm]
    refine SameTask.read (fun a ha ha' => hout a ?_) hf
    omega
  have hstep := step_load (s := (s.pushes vs).withRegs g) (r := .rax) (f := f)
    (show Fits (g .rdi) from hg ▸ hfit) hf
  rw [hstep, show ((s.pushes vs).withRegs g).regs .rdi = s.regs .rdi from hg, hread]
  rfl

def taskFrame (s : Core σ η) : List U64 :=
  [USER_DATA, s.kernel.get (s.regs .rdi) .rsp, s.kernel.get (s.regs .rdi) .rflags ||| FLAG_IF, USER_CODE,
    s.kernel.get (s.regs .rdi) .rip]

theorem push_pushes {g : Reg → U64} {vs : List U64} :
    ((s.pushes vs).withRegs g).push v = (s.pushes (vs ++ [v])).withRegs g := by
  unfold pushes
  rw [List.foldl_append]
  rfl

theorem run_switchStack (hfit : Fits (s.regs .rdi)) (hstack : StackApart s.rsp (s.regs .rdi)) :
    ∃ g, s.run switchStack = (s.pushes s.taskFrame).withRegs g ∧ g .rdi = s.regs .rdi := by
  obtain ⟨sp, hsp⟩ : ∃ v, v = s.kernel.get (s.regs .rdi) .rsp := ⟨_, rfl⟩
  obtain ⟨flags, hflags⟩ : ∃ v, v = s.kernel.get (s.regs .rdi) .rflags := ⟨_, rfl⟩
  obtain ⟨ip, hip⟩ : ∃ v, v = s.kernel.get (s.regs .rdi) .rip := ⟨_, rfl⟩
  obtain ⟨g₁, hg₁⟩ : ∃ g, g = Function.update s.regs .rax sp := ⟨_, rfl⟩
  obtain ⟨g₂, hg₂⟩ : ∃ g, g = Function.update g₁ .rax flags := ⟨_, rfl⟩
  obtain ⟨g₃, hg₃⟩ : ∃ g, g = Function.update g₂ .rax (flags ||| FLAG_IF) := ⟨_, rfl⟩
  obtain ⟨g₄, hg₄⟩ : ∃ g, g = Function.update g₃ .rax ip := ⟨_, rfl⟩
  have hrdi₁ : g₁ .rdi = s.regs .rdi := by rw [hg₁]; rfl
  have hrdi₃ : g₃ .rdi = s.regs .rdi := by rw [hg₃, hg₂]; exact hrdi₁
  have hstart : s.step (.pushqImm 0x23) = (s.pushes [USER_DATA]).withRegs s.regs := rfl
  have hload₁ : ((s.pushes [USER_DATA]).withRegs s.regs).step (.load 120 .rdi .rax) =
      (s.pushes [USER_DATA]).withRegs g₁ := by
    rw [hg₁, hsp]
    exact step_load_push 120 .rsp rfl (by decide) rfl (by decide) hfit hstack
  have hload₂ : ((s.pushes [USER_DATA, sp]).withRegs g₁).step (.load 128 .rdi .rax) =
      (s.pushes [USER_DATA, sp]).withRegs g₂ := by
    rw [hg₂, hflags]
    exact step_load_push 128 .rflags rfl (by decide) hrdi₁ (show 2 ≤ 5 by decide) hfit hstack
  have hor : ((s.pushes [USER_DATA, sp]).withRegs g₂).step (.orqImm 0x200 .rax) =
      (s.pushes [USER_DATA, sp]).withRegs g₃ := by
    rw [hg₃, hg₂]
    rfl
  have hload₃ : ((s.pushes [USER_DATA, sp, flags ||| FLAG_IF, USER_CODE]).withRegs g₃).step
      (.load 136 .rdi .rax) = (s.pushes [USER_DATA, sp, flags ||| FLAG_IF, USER_CODE]).withRegs g₄ := by
    rw [hg₄, hip]
    exact step_load_push 136 .rip rfl (by decide) hrdi₃ (show 4 ≤ 5 by decide) hfit hstack
  have hpush : ∀ {g : Reg → U64} {vs x}, g .rax = x → ((s.pushes vs).withRegs g).step (.pushq .rax) =
      (s.pushes (vs ++ [x])).withRegs g := by
    rintro g vs x rfl
    exact push_pushes
  have himm : ∀ {g : Reg → U64} {vs x}, ((s.pushes vs).withRegs g).step (.pushqImm x) =
      (s.pushes (vs ++ [x])).withRegs g := push_pushes
  refine ⟨g₄, ?_, by rw [hg₄]; exact hrdi₃⟩
  rw [taskFrame, ← hsp, ← hflags, ← hip, switchStack, run_cons, hstart, run_cons, hload₁, run_cons,
    hpush (show g₁ .rax = sp by rw [hg₁]; rfl)]
  simp only [List.cons_append, List.nil_append]
  rw [run_cons, hload₂, run_cons, hor, run_cons, hpush (show g₃ .rax = flags ||| FLAG_IF by rw [hg₃]; rfl)]
  simp only [List.cons_append, List.nil_append]
  rw [run_cons, himm]
  simp only [List.cons_append, List.nil_append]
  rw [run_cons, show (0x1b : U64) = USER_CODE from rfl, hload₃, run_cons,
    hpush (show g₄ .rax = ip by rw [hg₄]; rfl)]
  rfl

/-- `iretq` takes back the five words that were pushed last. -/
theorem iretq_pushed {sp ss usp flags cs ip : U64} (hrsp : s.rsp = sp - 40#64) (hroom : 40 ≤ sp.toNat)
    (hread : ∀ i (hi : i < 5), s.kernel.kmem.read64 (sp.toNat - 8 * (i + 1)) = [ss, usp, flags, cs, ip][i]) :
    s.step .iretq = { s with rip := ip, cs := cs, rflags := flags, rsp := usp, ss := ss } := by
  have hnat : (sp - 40#64).toNat = sp.toNat - 40 :=
    BitVec.toNat_sub_of_le (by rw [BitVec.le_def]; exact hroom)
  have hword : ∀ i (hi : i < 5), s.read (s.rsp + BitVec.ofNat 64 (8 * (4 - i))) = [ss, usp, flags, cs, ip][i] := by
    intro i hi
    have hlt := sp.isLt
    rw [read_pop (by rw [hrsp, hnat]; omega), hrsp, hnat, ← hread i hi]
    congr 1
    omega
  have hip : s.read s.rsp = ip := by
    have := hword 4 (by decide)
    rwa [show BitVec.ofNat 64 (8 * (4 - 4)) = 0#64 from rfl, BitVec.add_zero] at this
  have hcs : s.read (s.rsp + 8#64) = _ := hword 3 (by decide)
  have hflags : s.read (s.rsp + 16#64) = _ := hword 2 (by decide)
  have hsp : s.read (s.rsp + 24#64) = _ := hword 1 (by decide)
  have hss : s.read (s.rsp + 32#64) = _ := hword 0 (by decide)
  show ({ s with
    rip := s.read s.rsp
    cs := s.read (s.rsp + 8#64)
    rflags := s.read (s.rsp + 16#64)
    rsp := s.read (s.rsp + 24#64)
    ss := s.read (s.rsp + 32#64) } : Core σ η) = _
  rw [hip, hcs, hflags, hsp, hss]
  rfl

theorem run_switchRegs (hfit : Fits (s.regs .rdi)) :
    (s.run switchRegs).step (.load 72 .rdi .rdi) = s.withRegs (s.kernel.context (s.regs .rdi)).regs := by
  obtain ⟨p, hp⟩ : ∃ p, p = s.regs .rdi := ⟨_, rfl⟩
  have hrun := run_loads (s := s) (popOrder.erase .rdi) (by decide) hfit
  rw [← switchRegs_eq, ← hp] at hrun
  obtain ⟨g, hg⟩ : ∃ g : Reg → U64, g = fun r =>
    if r ∈ popOrder.erase .rdi then s.kernel.get p (.regs r) else s.regs r := ⟨_, rfl⟩
  rw [← hg] at hrun
  have hrdi : g .rdi = p := by
    rw [hg, hp]
    exact if_neg (by decide)
  have hload : (s.withRegs g).step (.load 72 .rdi .rdi) =
      s.withRegs (Function.update g .rdi (s.kernel.get p (.regs .rdi))) := by
    have := step_load (s := s.withRegs g) (r := .rdi) (f := .regs .rdi)
      (show Fits (g .rdi) from hrdi.trans hp ▸ hfit) (by decide)
    rw [show (s.withRegs g).regs .rdi = p from hrdi] at this
    exact this
  have hregs : Function.update g .rdi (s.kernel.get p (.regs .rdi)) = (s.kernel.context p).regs := by
    funext r
    by_cases hr : r = .rdi
    · subst hr
      rw [Function.update_self]
      rfl
    · rw [Function.update_of_ne hr, hg]
      have hmem : r ∈ popOrder.erase .rdi := by
        cases r <;> first | exact absurd rfl hr | decide
      exact if_pos hmem
  rw [hrun, ← hp]
  exact hload.trans (congrArg s.withRegs hregs)

/-- `switch_to_task`: the context of the task, with IF set, in its address
space. -/
theorem run_switchToTask (hfit : Fits (s.regs .rdi)) (hstack : StackApart s.rsp (s.regs .rdi)) :
    ∃ m, s.run switchToTask = { (s.withCr3 (s.kernel.get (s.regs .rdi) .vmap - VADDR_HIGHER)).withMem m with
        regs := (s.kernel.context (s.regs .rdi)).regs
        rsp := (s.kernel.context (s.regs .rdi)).rsp
        rip := (s.kernel.context (s.regs .rdi)).rip
        rflags := (s.kernel.context (s.regs .rdi)).rflags ||| FLAG_IF
        cs := USER_CODE
        ss := USER_DATA } ∧
      ∀ a, a < s.rsp.toNat - 40 ∨ s.rsp.toNat ≤ a → m a = s.kernel.kmem a := by
  obtain ⟨p, hp⟩ : ∃ p, p = s.regs .rdi := ⟨_, rfl⟩
  obtain ⟨c, hc⟩ : ∃ c, c = s.kernel.get p .vmap - VADDR_HIGHER := ⟨_, rfl⟩
  have hroom : 40 ≤ s.rsp.toNat := hstack.1
  obtain ⟨g₁, hrun₁, hg₁⟩ := run_switchVmap hfit
  rw [← hp] at hrun₁ hg₁ hfit hstack ⊢
  rw [← hc] at hrun₁ ⊢
  obtain ⟨s₁, hs₁⟩ : ∃ s₁, s₁ = (s.withCr3 c).withRegs g₁ := ⟨_, rfl⟩
  have hrdi₁ : s₁.regs .rdi = p := by rw [hs₁]; exact hg₁
  have hget₁ : ∀ f, s₁.kernel.get p f = s.kernel.get p f := fun f => by rw [hs₁]; rfl
  have hrsp₁ : s₁.rsp = s.rsp := by rw [hs₁]; rfl
  have hkmem₁ : s₁.kernel.kmem = s.kernel.kmem := by rw [hs₁]; rfl
  obtain ⟨g₂, hrun₂, hg₂⟩ := run_switchStack (s := s₁) (hrdi₁ ▸ hfit) (hrdi₁ ▸ hrsp₁ ▸ hstack)
  obtain ⟨m, hm, hread, hout⟩ := pushes_spec (s := s₁) s₁.taskFrame (show 40 ≤ _ by rwa [hrsp₁])
  rw [hrsp₁, hkmem₁] at hout
  rw [hrsp₁] at hread
  obtain ⟨s₂, hs₂⟩ : ∃ s₂, s₂ = ((s₁.withMem m).withRsp (s₁.rsp - 40#64)).withRegs g₂ := ⟨_, rfl⟩
  have hrun₂ : s₁.run switchStack = s₂ := by rw [hrun₂, hm, hs₂]; rfl
  have hrdi₂ : s₂.regs .rdi = p := by rw [hs₂]; exact hg₂.trans hrdi₁
  have hget₂ : ∀ f, f ≠ .id → s₂.kernel.get p f = s.kernel.get p f := by
    intro f hf
    rw [hs₂]
    refine SameTask.read (fun a ha ha' => hout a ?_) hf
    show a < s.rsp.toNat - 40 ∨ s.rsp.toNat ≤ a
    have := hstack.2
    omega
  have hctx₂ : s₂.kernel.context p = s.kernel.context p :=
    Context.ext (funext fun r => hget₂ (.regs r) (by simp)) (hget₂ .rsp (by decide)) (hget₂ .rflags (by decide))
      (hget₂ .rip (by decide))
  have hrun₃ := run_switchRegs (s := s₂) (hrdi₂ ▸ hfit)
  rw [hrdi₂, hctx₂] at hrun₃
  refine ⟨m, ?_, fun a ha => hout a ha⟩
  rw [switchToTask, run_append, run_append, run_append, hrun₁, ← hs₁, hrun₂, run_cons, hrun₃]
  -- the five words that were pushed
  have hframe : s₁.taskFrame = [USER_DATA, s.kernel.get p .rsp, s.kernel.get p .rflags ||| FLAG_IF,
      USER_CODE, s.kernel.get p .rip] := by
    rw [taskFrame, hrdi₁, hget₁, hget₁, hget₁]
  obtain ⟨t, ht⟩ : ∃ t, t = s₂.withRegs (s.kernel.context p).regs := ⟨_, rfl⟩
  have hrsp : t.rsp = s.rsp - 40#64 := by rw [ht, hs₂, ← hrsp₁]; rfl
  have hmem : t.kernel.kmem = m := by rw [ht, hs₂]; rfl
  have hiretq := iretq_pushed hrsp hroom fun i hi => by
    rw [hmem]
    exact (hread i hi).trans (List.getElem_of_eq hframe hi)
  rw [← ht]
  refine hiretq.trans ?_
  rw [ht, hs₂, hs₁]
  rfl

-- ---------------------------------------------------------------------------
-- Returning from a handler
-- ---------------------------------------------------------------------------

section Return

variable {k : Kernel σ η} {c : Leftover}

theorem returned_kmem : (s.returned k c).kernel.kmem = s.clobber k.kmem c := by
  simp only [returned]

theorem calling_kmem {task : U64} : (s.calling k task c).kernel.kmem = s.clobber k.kmem c := by
  simp only [calling]

theorem frameGet_returned {f : FrameField} : (s.returned k c).kernel.frameGet s.rsp f = k.frameGet s.rsp f := by
  unfold Kernel.frameGet
  rw [returned_kmem]
  refine Mem.read64_congr fun a ha _ => ?_
  unfold frameAddr at ha
  unfold clobber
  rw [if_neg (by omega)]

theorem frameContext_returned : (s.returned k c).kernel.frameContext s.rsp = k.frameContext s.rsp :=
  Context.ext (funext fun _ => frameGet_returned) frameGet_returned frameGet_returned frameGet_returned

theorem returned_tail (h : s.rsp.toNat + 160 < 2 ^ 64) :
    (s.returned k c).run isrNoerrTail =
      { s.returned k c with
        regs := (k.frameContext s.rsp).regs
        rsp := (k.frameContext s.rsp).rsp
        rip := (k.frameContext s.rsp).rip
        rflags := (k.frameContext s.rsp).rflags
        cs := k.frameGet s.rsp .cs
        ss := k.frameGet s.rsp .ss } := by
  rw [isrNoerrTail, run_tail (s := s.returned k c) h]
  show ({ s.returned k c with
    regs := ((s.returned k c).kernel.frameContext s.rsp).regs
    rsp := ((s.returned k c).kernel.frameContext s.rsp).rsp
    rip := ((s.returned k c).kernel.frameContext s.rsp).rip
    rflags := ((s.returned k c).kernel.frameContext s.rsp).rflags
    cs := (s.returned k c).kernel.frameGet s.rsp .cs
    ss := (s.returned k c).kernel.frameGet s.rsp .ss } : Core σ η) = _
  rw [frameContext_returned, frameGet_returned, frameGet_returned]

theorem returned_syscallTail (rax : U64) (h : s.rsp.toNat + 160 < 2 ^ 64) :
    ∃ m, ((s.returned k c).setReg .rax rax).run isrSyscallTail =
        { (s.returned k c).withMem m with
          regs := Function.update (k.frameContext s.rsp).regs .rax rax
          rsp := (k.frameContext s.rsp).rsp
          rip := (k.frameContext s.rsp).rip
          rflags := (k.frameContext s.rsp).rflags
          cs := k.frameGet s.rsp .cs
          ss := k.frameGet s.rsp .ss } ∧
      ∀ a, a < s.rsp.toNat ∨ s.rsp.toNat + 160 ≤ a → m a = (s.returned k c).kernel.kmem a := by
  obtain ⟨t, ht⟩ : ∃ t, t = (s.returned k c).setReg .rax rax := ⟨_, rfl⟩
  have hrsp : t.rsp = s.rsp := by rw [ht]; rfl
  have hrax : t.regs .rax = rax := by rw [ht]; rfl
  have haddr : (s.rsp + 112#64).toNat = frameAddr s.rsp (.gprs .rax) := by
    rw [BitVec.toNat_add]
    exact Nat.mod_eq_of_lt (by
      show s.rsp.toNat + 112 < _
      omega)
  obtain ⟨m, hm⟩ : ∃ m, m = t.kernel.kmem.write64 (frameAddr s.rsp (.gprs .rax)) rax := ⟨_, rfl⟩
  have hstore : t.step (.storeRsp .rax 112) = t.withMem m := by
    rw [hm, ← hrax, ← haddr, ← hrsp]
    rfl
  have hget : ∀ f, f ≠ .gprs .rax → (t.withMem m).kernel.frameGet s.rsp f = k.frameGet s.rsp f := by
    intro f hf
    rw [← frameGet_returned (s := s) (k := k) (c := c)]
    have hold : t.kernel.kmem = (s.returned k c).kernel.kmem := by rw [ht]; rfl
    rw [hold] at hm
    show m.read64 _ = _
    rw [hm]
    refine Mem.read64_write64_apart ?_
    have hoff : interruptFrame.offset f + 8 ≤ 112 ∨ 120 ≤ interruptFrame.offset f := by
      cases f with
      | gprs r => cases r <;> first | exact absurd rfl hf | decide
      | _ => decide
    unfold frameAddr
    rw [show interruptFrame.offset (.gprs .rax) = 112 from rfl]
    omega
  have hgetRax : (t.withMem m).kernel.frameGet s.rsp (.gprs .rax) = rax := by
    show m.read64 _ = _
    rw [hm]
    exact Mem.read64_write64
  have hregs : ((t.withMem m).kernel.frameContext s.rsp).regs =
      Function.update (k.frameContext s.rsp).regs .rax rax := by
    funext r
    by_cases hr : r = .rax
    · subst hr
      rw [Function.update_self]
      exact hgetRax
    · rw [Function.update_of_ne hr]
      exact hget _ (by simpa using hr)
  refine ⟨m, ?_, fun a ha => ?_⟩
  · rw [isrSyscallTail, run_cons, ← ht, hstore, run_tail (by
      show t.rsp.toNat + 160 < _
      rwa [hrsp])]
    rw [show (t.withMem m).rsp = s.rsp from hrsp, hregs]
    show ({ t.withMem m with
      regs := Function.update (k.frameContext s.rsp).regs .rax rax
      rsp := (t.withMem m).kernel.frameGet s.rsp .rsp
      rip := (t.withMem m).kernel.frameGet s.rsp .rip
      rflags := (t.withMem m).kernel.frameGet s.rsp .rflags
      cs := (t.withMem m).kernel.frameGet s.rsp .cs
      ss := (t.withMem m).kernel.frameGet s.rsp .ss } : Core σ η) = _
    rw [hget _ (by simp), hget _ (by simp), hget _ (by simp), hget _ (by simp), hget _ (by simp), ht]
    rfl
  · rw [hm, ht]
    refine Mem.write64_outside ?_
    unfold frameAddr
    rw [show interruptFrame.offset (.gprs .rax) = 112 from rfl]
    omega

end Return

end Core

end ShedOS.Interrupts
