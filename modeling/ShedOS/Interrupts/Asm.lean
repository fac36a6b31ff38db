import ShedOS.Task.Task

/-!
# The processor

The registers that the hand-written assembly moves, the instructions it uses,
and interrupt entry from user mode. Status flags are not followed inside the
kernel: `iretq` loads them all.
-/

namespace ShedOS.Interrupts

open Bytes Layout Memory
open ShedOS.Task

/-- `tssRsp0` is the stack pointer that the task state segment holds for
interrupts from user mode; CR3 is part of the machine. -/
structure Core (σ η : Type) where
  regs : Reg → U64
  rsp : U64
  rip : U64
  rflags : U64
  cs : U64
  ss : U64
  tssRsp0 : U64
  kernel : Kernel σ η

inductive Instr where
  | pushq (r : Reg)
  | pushqImm (v : U64)
  | popq (r : Reg)
  /-- `movq %rsp, %dst` -/
  | movqRsp (dst : Reg)
  /-- `movq offset(%base), %dst` -/
  | load (offset : Nat) (base dst : Reg)
  /-- `movq %src, offset(%rsp)` -/
  | storeRsp (src : Reg) (offset : Nat)
  /-- a move to the low word of a register -/
  | movw (v : BitVec 16) (dst : Reg)
  /-- a move to one of the data segment registers, which are not followed -/
  | movwSegment (src : Reg)
  | movqImm (v : U64) (dst : Reg)
  | subq (src dst : Reg)
  | orqImm (v : U64) (dst : Reg)
  | movqCr3 (src : Reg)
  | cld
  | iretq
  deriving DecidableEq, Repr

variable {σ η : Type} {s : Core σ η} {r : Reg} {v : U64} {vs : List U64} {rs : List Reg} {m : Mem}

def FLAG_IF : U64 := 0x200
def FLAG_DF : U64 := 0x400

def KERNEL_CODE : U64 := 0x08
def USER_CODE : U64 := 0x1b
def USER_DATA : U64 := 0x23

namespace Core

def setReg (s : Core σ η) (r : Reg) (v : U64) : Core σ η :=
  { s with regs := Function.update s.regs r v }

def withRegs (s : Core σ η) (regs : Reg → U64) : Core σ η := { s with regs }

def withRsp (s : Core σ η) (rsp : U64) : Core σ η := { s with rsp }

def withMem (s : Core σ η) (m : Mem) : Core σ η := { s with kernel := { s.kernel with kmem := m } }

def withCr3 (s : Core σ η) (cr3 : U64) : Core σ η :=
  { s with kernel := { s.kernel with machine := { s.kernel.machine with cr3 } } }

def read (s : Core σ η) (a : U64) : U64 := s.kernel.kmem.read64 a.toNat

def push (s : Core σ η) (v : U64) : Core σ η :=
  (s.withMem (s.kernel.kmem.write64 (s.rsp - 8).toNat v)).withRsp (s.rsp - 8)

def step (s : Core σ η) : Instr → Core σ η
  | .pushq r => s.push (s.regs r)
  | .pushqImm v => s.push v
  | .popq r => (s.setReg r (s.read s.rsp)).withRsp (s.rsp + 8)
  | .movqRsp dst => s.setReg dst s.rsp
  | .load offset base dst => s.setReg dst (s.read (s.regs base + BitVec.ofNat 64 offset))
  | .storeRsp src offset =>
    s.withMem (s.kernel.kmem.write64 (s.rsp + BitVec.ofNat 64 offset).toNat (s.regs src))
  | .movw v dst => s.setReg dst ((s.regs dst).extractLsb' 16 48 ++ v)
  | .movwSegment _ => s
  | .movqImm v dst => s.setReg dst v
  | .subq src dst => s.setReg dst (s.regs dst - s.regs src)
  | .orqImm v dst => s.setReg dst (s.regs dst ||| v)
  | .movqCr3 src => s.withCr3 (s.regs src)
  | .cld => { s with rflags := s.rflags &&& ~~~FLAG_DF }
  | .iretq =>
    { s with
      rip := s.read s.rsp
      cs := s.read (s.rsp + 8)
      rflags := s.read (s.rsp + 16)
      rsp := s.read (s.rsp + 24)
      ss := s.read (s.rsp + 32) }

def run (s : Core σ η) (code : List Instr) : Core σ η := code.foldl step s

/-- An interrupt gate, taken in user mode: the processor switches to the
aligned interrupt stack, saves where it was and clears IF. -/
def enter (s : Core σ η) : Core σ η :=
  let user := s
  let s := s.withRsp (s.tssRsp0 &&& ~~~0xf)
  let s := ((((s.push user.ss).push user.rsp).push user.rflags).push user.cs).push user.rip
  { s with rflags := s.rflags &&& ~~~FLAG_IF, cs := KERNEL_CODE, ss := 0 }

def context (s : Core σ η) : Context := ⟨s.regs, s.rsp, s.rflags, s.rip⟩

@[simp] theorem run_nil : s.run [] = s := rfl

@[simp] theorem run_cons (i : Instr) (code : List Instr) : s.run (i :: code) = (s.step i).run code := rfl

theorem run_append (code code' : List Instr) : s.run (code ++ code') = (s.run code).run code' :=
  List.foldl_append ..

-- ---------------------------------------------------------------------------
-- Pushing and popping
-- ---------------------------------------------------------------------------

def pushes (s : Core σ η) (vs : List U64) : Core σ η := vs.foldl push s

theorem run_pushq : ∀ {rs : List Reg} {s : Core σ η}, s.run (rs.map .pushq) = s.pushes (rs.map s.regs)
  | [], _ => rfl
  | r :: rs, s => by
    rw [List.map_cons, run_cons]
    exact run_pushq

theorem pushes_spec (vs : List U64) (h : 8 * vs.length ≤ s.rsp.toNat) :
    ∃ m, s.pushes vs = (s.withMem m).withRsp (s.rsp - BitVec.ofNat 64 (8 * vs.length)) ∧
      (∀ i (hi : i < vs.length), m.read64 (s.rsp.toNat - 8 * (i + 1)) = vs[i]) ∧
      ∀ a, a < s.rsp.toNat - 8 * vs.length ∨ s.rsp.toNat ≤ a → m a = s.kernel.kmem a := by
  induction vs generalizing s with
  | nil =>
    refine ⟨s.kernel.kmem, ?_, fun i hi => absurd hi (Nat.not_lt_zero i), fun a _ => rfl⟩
    show s = (s.withMem s.kernel.kmem).withRsp (s.rsp - 0#64)
    rw [BitVec.sub_zero]
    rfl
  | cons v vs ih =>
    rw [List.length_cons] at h
    have hrsp : (s.rsp - 8).toNat = s.rsp.toNat - 8 := BitVec.toNat_sub_of_le (by
      rw [BitVec.le_def]
      show 8 ≤ _
      omega)
    obtain ⟨m, hm, hread, hout⟩ := ih (s := s.push v) (by
      show _ ≤ (s.rsp - 8).toNat
      omega)
    have hpush : (s.push v).rsp.toNat = s.rsp.toNat - 8 := hrsp
    rw [hpush] at hread hout
    refine ⟨m, ?_, ?_, ?_⟩
    · refine Eq.trans hm ?_
      have : (s.push v).rsp - BitVec.ofNat 64 (8 * vs.length) =
          s.rsp - BitVec.ofNat 64 (8 * (v :: vs).length) := by
        show s.rsp - 8 - _ = _
        rw [BitVec.sub_sub, List.length_cons, Nat.mul_succ, Nat.add_comm, BitVec.ofNat_add]
        rfl
      rw [this]
      rfl
    · rintro (_ | i) hi
      · have hkeep : m.read64 (s.rsp.toNat - 8) = (s.push v).kernel.kmem.read64 (s.rsp.toNat - 8) :=
          Mem.read64_congr fun a ha _ => hout a (.inr ha)
        refine Eq.trans hkeep ?_
        rw [← hrsp]
        exact Mem.read64_write64
      · have := hread i (Nat.lt_of_succ_lt_succ hi)
        rwa [Nat.sub_sub, Nat.add_comm, ← Nat.mul_succ] at this
    · intro a ha
      rw [List.length_cons] at ha
      refine (hout a (by omega)).trans (Mem.write64_outside ?_)
      omega

theorem read_pop {i : Nat} (h : s.rsp.toNat + 8 * i < 2 ^ 64) :
    s.read (s.rsp + BitVec.ofNat 64 (8 * i)) = s.kernel.kmem.read64 (s.rsp.toNat + 8 * i) := by
  rw [read, BitVec.toNat_add, BitVec.toNat_ofNat, Nat.mod_eq_of_lt (a := 8 * i) (by omega),
    Nat.mod_eq_of_lt h]

theorem run_popq (rs : List Reg) (hnodup : rs.Nodup) (h : s.rsp.toNat + 8 * rs.length < 2 ^ 64) :
    s.run (rs.map .popq) =
      { s with
        rsp := s.rsp + BitVec.ofNat 64 (8 * rs.length)
        regs := fun r => if r ∈ rs then s.kernel.kmem.read64 (s.rsp.toNat + 8 * rs.idxOf r) else s.regs r } := by
  induction rs generalizing s with
  | nil =>
    show s = { s with rsp := s.rsp + 0#64, regs := _ }
    rw [BitVec.add_zero]
    simp
  | cons x rs ih =>
    obtain ⟨hx, hnodup⟩ := List.nodup_cons.mp hnodup
    rw [List.length_cons] at h
    have hrsp : (s.step (.popq x)).rsp.toNat = s.rsp.toNat + 8 := by
      show (s.rsp + 8).toNat = _
      rw [BitVec.toNat_add]
      show (s.rsp.toNat + 8) % _ = _
      exact Nat.mod_eq_of_lt (by omega)
    rw [List.map_cons, run_cons, ih hnodup (by omega)]
    have hrsp' : (s.step (.popq x)).rsp + BitVec.ofNat 64 (8 * rs.length) =
        s.rsp + BitVec.ofNat 64 (8 * (x :: rs).length) := by
      show s.rsp + 8 + _ = _
      rw [BitVec.add_assoc, List.length_cons, Nat.mul_succ, Nat.add_comm (8 * rs.length), BitVec.ofNat_add]
      rfl
    have hregs : (fun r => if r ∈ rs then (s.step (.popq x)).kernel.kmem.read64
          ((s.step (.popq x)).rsp.toNat + 8 * rs.idxOf r) else (s.step (.popq x)).regs r) =
        fun r => if r ∈ x :: rs then s.kernel.kmem.read64 (s.rsp.toNat + 8 * (x :: rs).idxOf r)
          else s.regs r := by
      funext r
      by_cases hr : r = x
      · subst hr
        rw [if_neg hx, if_pos List.mem_cons_self, List.idxOf_cons_self]
        exact Function.update_self r _ s.regs
      · have hmem : r ∈ x :: rs ↔ r ∈ rs := by simp [hr]
        refine if_congr hmem.symm ?_ (Function.update_of_ne hr _ s.regs)
        rw [hrsp, List.idxOf_cons_ne _ (Ne.symm hr)]
        show s.kernel.kmem.read64 _ = _
        congr 1
        omega
    rw [hrsp', hregs]
    rfl

end Core

end ShedOS.Interrupts
