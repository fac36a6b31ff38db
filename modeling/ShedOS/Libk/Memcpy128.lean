import ShedOS.Libk.Strings
import ShedOS.Task.Task

/-!
# memcpy_128

`memutil.S` copies blocks of 128 bytes through the vector registers. Its loop
is tested at the bottom, and it keeps the divisor in `r12`.
-/

namespace ShedOS.Libk

open Memory (U64)
open ShedOS.Task (Reg)

variable {m m' : VMem} {a dst src x : U64} {n k j : Nat} {l w : List Chr}

-- ---------------------------------------------------------------------------
-- The source
-- ---------------------------------------------------------------------------

/-- The registers that `memcpy_128` uses, and memory. A vector register holds 16
bytes. -/
structure Cpu where
  regs : Reg → U64
  rsp : U64
  xmm : Nat → List Chr
  mem : VMem

inductive Instr where
  | movq (src dst : Reg)
  | xorq (src dst : Reg)
  | movqImm (v : U64) (dst : Reg)
  | divq (src : Reg)
  | prefetchnta (offset : Nat) (base : Reg)
  | movdqa (offset : Nat) (base : Reg) (dst : Nat)
  | movntdq (src : Nat) (offset : Nat) (base : Reg)
  | addq (v : U64) (dst : Reg)
  deriving DecidableEq, Repr

def loadAll (m : VMem) : (a : U64) → (n : Nat) → Option (List Chr)
  | _, 0 => some []
  | a, n + 1 => do
    let c ← m a
    let l ← loadAll m (a + 1) n
    return c :: l

namespace Cpu

def set (s : Cpu) (r : Reg) (v : U64) : Cpu := { s with regs := Function.update s.regs r v }

@[simp] theorem set_self {s : Cpu} {r : Reg} {v : U64} : (s.set r v).regs r = v := Function.update_self _ _ _

theorem set_ne {s : Cpu} {r r' : Reg} {v : U64} (h : r' ≠ r) : (s.set r v).regs r' = s.regs r' := Function.update_of_ne h _ _

@[simp] theorem set_mem {s : Cpu} {r : Reg} {v : U64} : (s.set r v).mem = s.mem := rfl

/-- `none` is an exception: a division that does not fit, an address that is not
aligned, or a page fault. -/
def step (s : Cpu) : Instr → Option Cpu
  | .movq src dst => some (s.set dst (s.regs src))
  | .xorq src dst => some (s.set dst (s.regs dst ^^^ s.regs src))
  | .movqImm v dst => some (s.set dst v)
  | .divq src =>
    let n := (s.regs .rdx).toNat * 2 ^ 64 + (s.regs .rax).toNat
    let d := (s.regs src).toNat
    if d = 0 ∨ 2 ^ 64 ≤ n / d then none
    else some ((s.set .rax (BitVec.ofNat 64 (n / d))).set .rdx (BitVec.ofNat 64 (n % d)))
  | .prefetchnta _ _ => some s
  | .movdqa offset base dst => do
    let a := s.regs base + BitVec.ofNat 64 offset
    if a.toNat % 16 ≠ 0 then none
    let l ← loadAll s.mem a 16
    return { s with xmm := Function.update s.xmm dst l }
  | .movntdq src offset base => do
    let a := s.regs base + BitVec.ofNat 64 offset
    if a.toNat % 16 ≠ 0 then none
    let m ← storeAll s.mem a (s.xmm src)
    return { s with mem := m }
  | .addq v dst => some (s.set dst (s.regs dst + v))

def run (s : Cpu) (code : List Instr) : Option Cpu := code.foldlM step s

end Cpu

def memcpyHead : List Instr :=
  [.movq .rdx .rax, .xorq .rdx .rdx, .movqImm 128 .r12, .divq .r12, .movq .rax .rcx]

def copyLoop : List Instr :=
  [.prefetchnta 128 .rsi, .prefetchnta 160 .rsi, .prefetchnta 192 .rsi, .prefetchnta 224 .rsi,
    .movdqa 0 .rsi 0, .movdqa 16 .rsi 1, .movdqa 32 .rsi 2, .movdqa 48 .rsi 3,
    .movdqa 64 .rsi 4, .movdqa 80 .rsi 5, .movdqa 96 .rsi 6, .movdqa 112 .rsi 7,
    .movntdq 0 0 .rdi, .movntdq 1 16 .rdi, .movntdq 2 32 .rdi, .movntdq 3 48 .rdi,
    .movntdq 4 64 .rdi, .movntdq 5 80 .rdi, .movntdq 6 96 .rdi, .movntdq 7 112 .rdi,
    .addq 128 .rsi, .addq 128 .rdi]

/-- `loop copy_loop` counts `rcx` down before it looks at it. -/
def copyBlocks (s : Cpu) : (fuel : Nat) → Option Cpu
  | 0 => none
  | fuel + 1 => do
    let s ← s.run copyLoop
    let s := s.set .rcx (s.regs .rcx - 1)
    if s.regs .rcx ≠ 0 then copyBlocks s fuel else return s

/-- A call of `memcpy_128(rdi, rsi, rdx)`, up to its `ret`. -/
def memcpy128 (s : Cpu) (fuel : Nat) : Option Cpu := do
  let s ← s.run memcpyHead
  copyBlocks s fuel

def memcpyAt (m : VMem) (dst src : U64) : (n : Nat) → Option VMem
  | 0 => some m
  | n + 1 => do
    let m ← memcpyAt m dst src n
    let c ← m (src + BitVec.ofNat 64 n)
    store m (dst + BitVec.ofNat 64 n) c

/-- What the System V convention makes a callee preserve, next to `rsp`. -/
def calleeSaved : List Reg := [.rbx, .rbp, .r12, .r13, .r14, .r15]

-- ---------------------------------------------------------------------------
-- Bytes
-- ---------------------------------------------------------------------------

def bytesAt (m : VMem) (a : U64) (n : Nat) : List Chr := (List.range n).map fun i => (m (a + BitVec.ofNat 64 i)).getD 0

@[simp] theorem bytesAt_length : (bytesAt m a n).length = n := by
  simp [bytesAt]

theorem bytesAt_add : bytesAt m a (n + k) = bytesAt m a n ++ bytesAt m (a + BitVec.ofNat 64 n) k := by
  unfold bytesAt
  rw [List.range_add, List.map_append, List.map_map]
  congr 2
  funext i
  rw [Function.comp_apply, BitVec.ofNat_add, BitVec.add_assoc]

theorem bytesAt_congr (h : ∀ i < n, m' (a + BitVec.ofNat 64 i) = m (a + BitVec.ofNat 64 i)) : bytesAt m' a n = bytesAt m a n :=
  List.map_congr_left fun i hi => by rw [h i (List.mem_range.mp hi)]

theorem loadAll_eq (h : Mapped m a n) : loadAll m a n = some (bytesAt m a n) := by
  induction n generalizing a with
  | zero => rfl
  | succ n ih =>
    obtain ⟨c, hc⟩ : ∃ c, m a = some c := Option.isSome_iff_exists.mp (by simpa using h 0 (Nat.succ_pos n))
    have htail : Mapped m (a + 1) n := fun i hi => by
      rw [add_one_add]
      exact h (i + 1) (Nat.succ_lt_succ hi)
    rw [loadAll, hc, ih htail, Nat.add_comm n 1, bytesAt_add]
    simp [bytesAt, hc]

theorem memcpyAt_eq (hn : n ≤ 2 ^ 64) (hsrc : Mapped m src n) (hdst : Mapped m dst n) (hapart : Apart src dst n) :
    memcpyAt m dst src n = some (poke m dst (bytesAt m src n)) := by
  induction n with
  | zero => rfl
  | succ n ih =>
    have hbefore : Apart src dst n := fun i hi j hj => hapart i (Nat.lt_succ_of_lt hi) j (Nat.lt_succ_of_lt hj)
    have hlast : poke m dst (bytesAt m src n) (src + BitVec.ofNat 64 n) = m (src + BitVec.ofNat 64 n) :=
      poke_outside fun j hj => hapart n (Nat.lt_succ_self n) j (by rw [bytesAt_length] at hj; omega)
    obtain ⟨c, hc⟩ : ∃ c, m (src + BitVec.ofNat 64 n) = some c := Option.isSome_iff_exists.mp (hsrc n (Nat.lt_succ_self n))
    have hbehind := poke_behind (m := m) (a := dst) (l := bytesAt m src n) (w := [c]) (by simpa using hn)
    rw [bytesAt_length, poke_single] at hbehind
    rw [memcpyAt, ih (by omega) (hsrc.mono (Nat.le_succ n)) (hdst.mono (Nat.le_succ n)) hbefore]
    simp only [Option.bind_eq_bind, Option.bind_some, hlast, hc]
    rw [store_eq (poke_isSome (hdst n (Nat.lt_succ_self n))), hbehind, bytesAt_add]
    simp [bytesAt, hc]

-- ---------------------------------------------------------------------------
-- One block
-- ---------------------------------------------------------------------------

variable {s s' : Cpu} {p q : U64} {fuel : Nat}

namespace Cpu

theorem run_append {code code' : List Instr} : s.run (code ++ code') = (s.run code).bind fun s => s.run code' := by
  unfold run
  rw [List.foldlM_append]
  rfl

theorem run_nil : s.run [] = some s := rfl

theorem run_cons {i : Instr} {code : List Instr} : s.run (i :: code) = (s.step i).bind fun s => s.run code := rfl

theorem run_single {i : Instr} : s.run [i] = s.step i := by
  unfold run
  rw [List.foldlM_cons]
  exact bind_pure _

theorem step_movq {src dst : Reg} : s.step (.movq src dst) = some (s.set dst (s.regs src)) := rfl

theorem step_xorq {src dst : Reg} : s.step (.xorq src dst) = some (s.set dst (s.regs dst ^^^ s.regs src)) := rfl

theorem step_movqImm {v : U64} {dst : Reg} : s.step (.movqImm v dst) = some (s.set dst v) := rfl

theorem step_movdqa (offset dst : Nat) (base : Reg) (halign : (s.regs base + BitVec.ofNat 64 offset).toNat % 16 = 0)
    (hm : Mapped s.mem (s.regs base + BitVec.ofNat 64 offset) 16) : s.step (.movdqa offset base dst) =
      some { s with xmm := Function.update s.xmm dst (bytesAt s.mem (s.regs base + BitVec.ofNat 64 offset) 16) } := by
  rw [step]
  simp only [ne_eq, halign, not_true, if_false, loadAll_eq hm]
  rfl

theorem step_movntdq (offset src : Nat) (base : Reg) (halign : (s.regs base + BitVec.ofNat 64 offset).toNat % 16 = 0)
    (hlen : (s.xmm src).length = 16) (hm : Mapped s.mem (s.regs base + BitVec.ofNat 64 offset) 16) :
    s.step (.movntdq src offset base) =
      some { s with mem := poke s.mem (s.regs base + BitVec.ofNat 64 offset) (s.xmm src) } := by
  have hstore : storeAll s.mem (s.regs base + BitVec.ofNat 64 offset) (s.xmm src) =
      some (poke s.mem (s.regs base + BitVec.ofNat 64 offset) (s.xmm src)) :=
    storeAll_eq (by rw [hlen]; decide) (by rwa [hlen])
  rw [step]
  simp only [ne_eq, halign, not_true, if_false, hstore]
  rfl

theorem aligned (h : p.toNat % 16 = 0) : (p + BitVec.ofNat 64 (16 * j)).toNat % 16 = 0 := by
  bv_omega

theorem run_loads (halign : (s.regs .rsi).toNat % 16 = 0) (hm : Mapped s.mem (s.regs .rsi) (16 * k)) :
    s.run ((List.range k).map fun j => .movdqa (16 * j) .rsi j) =
      some { s with
        xmm := fun j => if j < k then bytesAt s.mem (s.regs .rsi + BitVec.ofNat 64 (16 * j)) 16 else s.xmm j } := by
  induction k with
  | zero => rfl
  | succ k ih =>
    rw [List.range_succ, List.map_append, run_append, ih (hm.mono (by omega)), Option.bind_some]
    have hload := step_movdqa (16 * k) k .rsi
      (s := { s with xmm := fun j => if j < k then bytesAt s.mem (s.regs .rsi + BitVec.ofNat 64 (16 * j)) 16 else s.xmm j })
      (aligned halign) (hm.shift (by omega))
    refine run_single.trans (hload.trans ?_)
    congr 2
    funext j
    by_cases hj : j = k
    · subst hj
      rw [Function.update_self, if_pos (Nat.lt_succ_self j)]
    · rw [Function.update_of_ne hj]
      exact if_congr (by omega) rfl rfl

/-- `m` is the memory that the vector registers were loaded from. -/
theorem run_stores (halign : (s.regs .rdi).toNat % 16 = 0) (hm : Mapped s.mem (s.regs .rdi) (16 * k)) (hk : k ≤ 8)
    (hxmm : ∀ j < k, s.xmm j = bytesAt m (p + BitVec.ofNat 64 (16 * j)) 16) :
    s.run ((List.range k).map fun j => .movntdq j (16 * j) .rdi) =
      some { s with mem := poke s.mem (s.regs .rdi) (bytesAt m p (16 * k)) } := by
  induction k with
  | zero => rfl
  | succ k ih =>
    have hlast := hxmm k (Nat.lt_succ_self k)
    rw [List.range_succ, List.map_append, run_append, ih (hm.mono (by omega)) (by omega)
      (fun j hj => hxmm j (Nat.lt_succ_of_lt hj)), Option.bind_some]
    have hstore := step_movntdq (16 * k) k .rdi
      (s := { s with mem := poke s.mem (s.regs .rdi) (bytesAt m p (16 * k)) }) (aligned halign)
      (by rw [hlast, bytesAt_length]) (Mapped.poke (hm.shift (by omega)))
    refine run_single.trans (hstore.trans ?_)
    have hbehind := poke_behind (m := s.mem) (a := s.regs .rdi) (l := bytesAt m p (16 * k))
      (w := bytesAt m (p + BitVec.ofNat 64 (16 * k)) 16) (by simp only [bytesAt_length]; omega)
    rw [bytesAt_length] at hbehind
    rw [Nat.mul_succ, bytesAt_add, ← hbehind]
    simp only [hlast]

end Cpu

theorem copyLoop_eq (hsrc : (s.regs .rsi).toNat % 16 = 0) (hdst : (s.regs .rdi).toNat % 16 = 0)
    (hm : Mapped s.mem (s.regs .rsi) 128) (hm' : Mapped s.mem (s.regs .rdi) 128) : ∃ t, s.run copyLoop = some t ∧
      t.mem = poke s.mem (s.regs .rdi) (bytesAt s.mem (s.regs .rsi) 128) ∧ t.regs .rsi = s.regs .rsi + 128 ∧
      t.regs .rdi = s.regs .rdi + 128 ∧ t.regs .rcx = s.regs .rcx := by
  have hcode : copyLoop = [.prefetchnta 128 .rsi, .prefetchnta 160 .rsi, .prefetchnta 192 .rsi, .prefetchnta 224 .rsi] ++
      ((List.range 8).map (fun j => .movdqa (16 * j) .rsi j) ++
        ((List.range 8).map (fun j => .movntdq j (16 * j) .rdi) ++ [.addq 128 .rsi, .addq 128 .rdi])) := by decide
  have hloads := Cpu.run_loads (k := 8) hsrc hm
  obtain ⟨xmm, hxmm⟩ : ∃ xmm : Nat → List Chr, xmm = fun j =>
    if j < 8 then bytesAt s.mem (s.regs .rsi + BitVec.ofNat 64 (16 * j)) 16 else s.xmm j := ⟨_, rfl⟩
  rw [← hxmm] at hloads
  have hstores := Cpu.run_stores (s := { s with xmm }) (m := s.mem) (p := s.regs .rsi) (k := 8) hdst hm' (Nat.le_refl 8)
    fun j hj => by rw [hxmm]; exact if_pos hj
  obtain ⟨u, hu⟩ : ∃ u : Cpu, u = { s with xmm, mem := poke s.mem (s.regs .rdi) (bytesAt s.mem (s.regs .rsi) (16 * 8)) } :=
    ⟨_, rfl⟩
  have hregs : u.regs = s.regs := hu ▸ rfl
  have hrun : s.run copyLoop = some ((u.set .rsi (u.regs .rsi + 128)).set .rdi ((u.set .rsi (u.regs .rsi + 128)).regs .rdi + 128)) := by
    rw [hcode, Cpu.run_append, show s.run _ = some s from rfl, Option.bind_some, Cpu.run_append, hloads, Option.bind_some,
      Cpu.run_append, hstores, Option.bind_some, ← hu]
    rfl
  refine ⟨_, hrun, ?_, ?_, ?_, ?_⟩
  · rw [Cpu.set_mem, Cpu.set_mem, hu]
  · rw [Cpu.set_ne (by decide), Cpu.set_self, hregs]
  · rw [Cpu.set_self, Cpu.set_ne (by decide), hregs]
  · rw [Cpu.set_ne (by decide), Cpu.set_ne (by decide), hregs]

-- ---------------------------------------------------------------------------
-- What every run leaves alone
-- ---------------------------------------------------------------------------

def Instr.writes : Instr → List Reg
  | .movq _ dst => [dst]
  | .xorq _ dst => [dst]
  | .movqImm _ dst => [dst]
  | .divq _ => [.rax, .rdx]
  | .prefetchnta _ _ => []
  | .movdqa _ _ _ => []
  | .movntdq _ _ _ => []
  | .addq _ dst => [dst]

theorem storeAll_isSome (h : storeAll m a l = some m') : (m' x).isSome = (m x).isSome := by
  induction l generalizing m a with
  | nil => rw [← Option.some.inj h]
  | cons c l ih =>
    obtain ⟨m₁, hstore, h⟩ := Option.bind_eq_some_iff.mp h
    rw [ih h]
    unfold store at hstore
    split at hstore
    next ha =>
      rw [← Option.some.inj hstore]
      by_cases hx : x = a
      · rw [hx, Function.update_self, ha]
        rfl
      · rw [Function.update_of_ne hx]
    next => cases hstore

theorem loadAll_first (h : loadAll m a (n + 1) = some l) : (m a).isSome := by
  obtain ⟨c, hc, -⟩ := Option.bind_eq_some_iff.mp h
  rw [hc]
  rfl

namespace Cpu

structure Keeps (s t : Cpu) (written : List Reg) : Prop where
  mapped : ∀ x, (t.mem x).isSome = (s.mem x).isSome
  regs : ∀ r ∉ written, t.regs r = s.regs r
  rsp : t.rsp = s.rsp

variable {t u : Cpu} {written : List Reg}

theorem Keeps.refl : Keeps s s written := ⟨fun _ => rfl, fun _ _ => rfl, rfl⟩

theorem Keeps.trans (h : Keeps s t written) (h' : Keeps t u written) : Keeps s u written where
  mapped x := (h'.mapped x).trans (h.mapped x)
  regs r hr := (h'.regs r hr).trans (h.regs r hr)
  rsp := h'.rsp.trans h.rsp

theorem Keeps.set {r : Reg} {v : U64} (hr : r ∈ written) : Keeps s (s.set r v) written where
  mapped _ := rfl
  regs _ hr' := Function.update_of_ne (ne_of_mem_of_not_mem hr hr').symm _ _
  rsp := rfl

theorem step_keeps {i : Instr} (h : s.step i = some t) (hi : ∀ r ∈ i.writes, r ∈ written) : Keeps s t written := by
  cases i with
  | movq src dst =>
    rw [← Option.some.inj h]
    exact .set (hi dst List.mem_cons_self)
  | xorq src dst =>
    rw [← Option.some.inj h]
    exact .set (hi dst List.mem_cons_self)
  | movqImm v dst =>
    rw [← Option.some.inj h]
    exact .set (hi dst List.mem_cons_self)
  | divq src =>
    rw [step] at h
    split at h
    · cases h
    · rw [← Option.some.inj h]
      exact .trans (.set (hi .rax List.mem_cons_self)) (.set (hi .rdx (List.mem_cons_of_mem _ List.mem_cons_self)))
  | prefetchnta offset base =>
    rw [← Option.some.inj h]
    exact .refl
  | movdqa offset base dst =>
    rw [step] at h
    simp only [Option.bind_eq_bind] at h
    split at h
    · cases h
    · obtain ⟨-, -, h⟩ := Option.bind_eq_some_iff.mp h
      obtain ⟨l, -, h⟩ := Option.bind_eq_some_iff.mp h
      rw [← Option.some.inj h]
      exact ⟨fun _ => rfl, fun _ _ => rfl, rfl⟩
  | movntdq src offset base =>
    rw [step] at h
    simp only [Option.bind_eq_bind] at h
    split at h
    · cases h
    · obtain ⟨-, -, h⟩ := Option.bind_eq_some_iff.mp h
      obtain ⟨m, hstore, h⟩ := Option.bind_eq_some_iff.mp h
      rw [← Option.some.inj h]
      exact ⟨fun x => storeAll_isSome hstore, fun _ _ => rfl, rfl⟩
  | addq v dst =>
    rw [← Option.some.inj h]
    exact .set (hi dst List.mem_cons_self)

theorem run_keeps {code : List Instr} (h : s.run code = some t) (hcode : ∀ i ∈ code, ∀ r ∈ i.writes, r ∈ written) :
    Keeps s t written := by
  induction code generalizing s with
  | nil => rw [← Option.some.inj h]; exact .refl
  | cons i code ih =>
    obtain ⟨t₁, hstep, hrun⟩ := Option.bind_eq_some_iff.mp h
    exact (step_keeps hstep (hcode i List.mem_cons_self)).trans (ih hrun fun i hi => hcode i (List.mem_cons_of_mem _ hi))

end Cpu

theorem copyBlocks_keeps (h : copyBlocks s fuel = some s') : s.Keeps s' [.rcx, .rsi, .rdi] := by
  induction fuel generalizing s with
  | zero => cases h
  | succ fuel ih =>
    obtain ⟨t, hrun, h⟩ := Option.bind_eq_some_iff.mp h
    have hround : s.Keeps (t.set .rcx (t.regs .rcx - 1)) [.rcx, .rsi, .rdi] :=
      (Cpu.run_keeps hrun (by decide)).trans (.set (by decide))
    simp only at h
    split at h
    · exact hround.trans (ih h)
    · rwa [← Option.some.inj h]

theorem copyLoop_visits (h : s.run copyLoop = some s') : (s.mem (s.regs .rsi)).isSome ∧
    s'.regs .rsi = s.regs .rsi + 128 ∧ s'.regs .rcx = s.regs .rcx := by
  have hcode : copyLoop = copyLoop.take 4 ++ (.movdqa 0 .rsi 0 :: ((copyLoop.drop 5).take 15 ++ [.addq 128 .rsi, .addq 128 .rdi])) := by
    decide
  rw [hcode, Cpu.run_append, show s.run (copyLoop.take 4) = some s from rfl, Option.bind_some] at h
  obtain ⟨t, hload, h⟩ := Option.bind_eq_some_iff.mp h
  have hkeeps : s.Keeps t [] := Cpu.step_keeps hload (by decide)
  refine ⟨?_, ?_, ?_⟩
  · rw [Cpu.step] at hload
    simp only [Option.bind_eq_bind] at hload
    split at hload
    · cases hload
    · obtain ⟨-, -, hload⟩ := Option.bind_eq_some_iff.mp hload
      obtain ⟨l, hl, -⟩ := Option.bind_eq_some_iff.mp hload
      simpa using loadAll_first hl
  all_goals
    change t.run _ = some s' at h
    rw [Cpu.run_append] at h
    obtain ⟨u, hmid, hend⟩ := Option.bind_eq_some_iff.mp h
    have hregs := (hkeeps.trans (Cpu.run_keeps hmid (by decide))).regs
    obtain rfl := Option.some.inj hend
  · exact congrArg (· + 128) (hregs .rsi List.not_mem_nil)
  · exact hregs .rcx List.not_mem_nil

/-- A run that ends has read as many blocks as `rcx` says; with 0 these are
2^64. -/
theorem copyBlocks_visits (h : copyBlocks s fuel = some s') {i : Nat} (hi : i ≤ (s.regs .rcx - 1).toNat) :
    (s.mem (s.regs .rsi + BitVec.ofNat 64 (128 * i))).isSome := by
  induction fuel generalizing s i with
  | zero => cases h
  | succ fuel ih =>
    obtain ⟨t, hrun, h⟩ := Option.bind_eq_some_iff.mp h
    obtain ⟨hfirst, hrsi, hrcx⟩ := copyLoop_visits hrun
    cases i with
    | zero => simpa using hfirst
    | succ i =>
      have hmore : (t.set .rcx (t.regs .rcx - 1)).regs .rcx ≠ 0 := by
        change t.regs .rcx - 1 ≠ 0
        rw [hrcx]
        intro h0
        rw [h0] at hi
        exact absurd hi (Nat.not_succ_le_zero i)
      rw [if_pos hmore] at h
      have hpred : i ≤ ((t.set .rcx (t.regs .rcx - 1)).regs .rcx - 1).toNat := by
        change i ≤ (t.regs .rcx - 1 - 1).toNat
        rw [hrcx]
        bv_omega
      have hvisit := ih h hpred
      have haddr : (t.set .rcx (t.regs .rcx - 1)).regs .rsi + BitVec.ofNat 64 (128 * i) =
          s.regs .rsi + BitVec.ofNat 64 (128 * (i + 1)) := by
        change t.regs .rsi + _ = _
        rw [hrsi]
        bv_omega
      rw [haddr] at hvisit
      have hkeeps : s.Keeps t [.rsi, .rdi] := Cpu.run_keeps hrun (by decide)
      rwa [← hkeeps.mapped]

theorem divq_eq {t : Cpu} (hrdx : t.regs .rdx = 0) (hr12 : t.regs .r12 = 128) : t.step (.divq .r12) =
    some ((t.set .rax (BitVec.ofNat 64 ((t.regs .rax).toNat / 128))).set .rdx (BitVec.ofNat 64 ((t.regs .rax).toNat % 128))) := by
  have hlt := (t.regs .rax).isLt
  rw [Cpu.step]
  simp only [hrdx, hr12]
  rw [show (0 : U64).toNat * 2 ^ 64 + (t.regs .rax).toNat = (t.regs .rax).toNat by simp, show (128 : U64).toNat = 128 from rfl,
    if_neg (by omega)]

theorem memcpyHead_eq : ∃ t, s.run memcpyHead = some t ∧ s.Keeps t [.rax, .rdx, .r12, .rcx] ∧ t.mem = s.mem ∧
    t.regs .r12 = 128 ∧ t.regs .rcx = BitVec.ofNat 64 ((s.regs .rdx).toNat / 128) := by
  obtain ⟨t₁, ht₁⟩ : ∃ t₁, t₁ = ((s.set .rax (s.regs .rdx)).set .rdx (s.regs .rdx ^^^ s.regs .rdx)).set .r12 128 := ⟨_, rfl⟩
  have hrax : t₁.regs .rax = s.regs .rdx := by
    rw [ht₁, Cpu.set_ne (by decide), Cpu.set_ne (by decide), Cpu.set_self]
  have hrdx : t₁.regs .rdx = 0 := by
    rw [ht₁, Cpu.set_ne (by decide), Cpu.set_self, BitVec.xor_self]
    rfl
  have hr12 : t₁.regs .r12 = 128 := by rw [ht₁, Cpu.set_self]
  have hrdx' : (s.set .rax (s.regs .rdx)).regs .rdx = s.regs .rdx := Cpu.set_ne (by decide)
  have hrun : s.run memcpyHead = (t₁.step (.divq .r12)).bind fun t => some (t.set .rcx (t.regs .rax)) := by
    rw [memcpyHead, Cpu.run_cons, Cpu.step_movq, Option.bind_some, Cpu.run_cons, Cpu.step_xorq, Option.bind_some, hrdx',
      Cpu.run_cons, Cpu.step_movqImm, Option.bind_some, ← ht₁, Cpu.run_cons]
    simp only [Cpu.run_single, Cpu.step_movq]
  rw [divq_eq hrdx hr12, Option.bind_some, hrax] at hrun
  refine ⟨_, hrun, Cpu.run_keeps hrun (by decide), ?_, ?_, ?_⟩
  · rw [Cpu.set_mem, Cpu.set_mem, Cpu.set_mem, ht₁]
    rfl
  · rw [Cpu.set_ne (by decide), Cpu.set_ne (by decide), Cpu.set_ne (by decide), hr12]
  · rw [Cpu.set_self, Cpu.set_ne (by decide), Cpu.set_self]

theorem copyBlocks_eq (hrcx : (s.regs .rcx).toNat = k + 1) (hsrc : (s.regs .rsi).toNat % 16 = 0)
    (hdst : (s.regs .rdi).toNat % 16 = 0) (hm : Mapped s.mem (s.regs .rsi) (128 * (k + 1)))
    (hm' : Mapped s.mem (s.regs .rdi) (128 * (k + 1))) (hapart : Apart (s.regs .rsi) (s.regs .rdi) (128 * (k + 1)))
    (hlen : 128 * (k + 1) ≤ 2 ^ 64) : ∃ s', copyBlocks s (k + 1) = some s' ∧
      s'.mem = poke s.mem (s.regs .rdi) (bytesAt s.mem (s.regs .rsi) (128 * (k + 1))) := by
  induction k generalizing s with
  | zero =>
    obtain ⟨t, hrun, hmem, -, -, hrcx'⟩ := copyLoop_eq hsrc hdst hm hm'
    have hlast : (t.set .rcx (t.regs .rcx - 1)).regs .rcx = 0 := by
      rw [Cpu.set_self, hrcx']
      bv_omega
    refine ⟨t.set .rcx (t.regs .rcx - 1), ?_, hmem⟩
    rw [copyBlocks, hrun]
    exact if_neg (not_not_intro hlast)
  | succ k ih =>
    obtain ⟨t, hrun, hmem, hrsi, hrdi, hrcx'⟩ := copyLoop_eq hsrc hdst (hm.mono (by omega)) (hm'.mono (by omega))
    obtain ⟨u, hu⟩ : ∃ u, u = t.set .rcx (t.regs .rcx - 1) := ⟨_, rfl⟩
    have hursi : u.regs .rsi = s.regs .rsi + BitVec.ofNat 64 128 := by rw [hu, Cpu.set_ne (by decide), hrsi]; rfl
    have hurdi : u.regs .rdi = s.regs .rdi + BitVec.ofNat 64 128 := by rw [hu, Cpu.set_ne (by decide), hrdi]; rfl
    have hurcx : (u.regs .rcx).toNat = k + 1 := by
      rw [hu, Cpu.set_self, hrcx']
      bv_omega
    have humem : u.mem = poke s.mem (s.regs .rdi) (bytesAt s.mem (s.regs .rsi) 128) := by rw [hu]; exact hmem
    -- the rest of the source was not written yet
    have hkept : bytesAt u.mem (u.regs .rsi) (128 * (k + 1)) =
        bytesAt s.mem (s.regs .rsi + BitVec.ofNat 64 128) (128 * (k + 1)) := by
      rw [hursi, humem]
      refine bytesAt_congr fun i hi => ?_
      rw [BitVec.add_assoc, ← BitVec.ofNat_add]
      exact poke_outside fun j hj => hapart _ (by omega) j (by rw [bytesAt_length] at hj; omega)
    obtain ⟨s', hrest, hmem'⟩ := ih hurcx (by rw [hursi]; bv_omega) (by rw [hurdi]; bv_omega)
      (by rw [hursi, humem]; exact Mapped.poke (hm.shift (by omega)))
      (by rw [hurdi, humem]; exact Mapped.poke (hm'.shift (by omega)))
      (by
        intro i hi j hj
        rw [hursi, hurdi, BitVec.add_assoc, BitVec.add_assoc, ← BitVec.ofNat_add, ← BitVec.ofNat_add]
        exact hapart _ (by omega) _ (by omega)) (by omega)
    refine ⟨s', ?_, ?_⟩
    · rw [copyBlocks, hrun]
      simp only [Option.bind_eq_bind, Option.bind_some, ← hu]
      rw [if_pos, hrest]
      intro h0
      rw [h0] at hurcx
      cases hurcx
    · have hbehind := poke_behind (m := s.mem) (a := s.regs .rdi) (l := bytesAt s.mem (s.regs .rsi) 128)
        (w := bytesAt s.mem (s.regs .rsi + BitVec.ofNat 64 128) (128 * (k + 1))) (by simp only [bytesAt_length]; omega)
      rw [bytesAt_length] at hbehind
      rw [hmem', hkept, humem, hurdi, hbehind, ← bytesAt_add]
      congr 2
      omega

-- ---------------------------------------------------------------------------
-- The two copies
-- ---------------------------------------------------------------------------

/-- What a caller passes: aligned buffers of whole blocks that do not overlap.
No memory is mapped between the two halves of the address space. -/
structure CopyArgs (s : Cpu) : Prop where
  blocks : (s.regs .rdx).toNat % 128 = 0
  srcAligned : (s.regs .rsi).toNat % 16 = 0
  dstAligned : (s.regs .rdi).toNat % 16 = 0
  src : Mapped s.mem (s.regs .rsi) (s.regs .rdx).toNat
  dst : Mapped s.mem (s.regs .rdi) (s.regs .rdx).toNat
  apart : Apart (s.regs .rsi) (s.regs .rdi) (s.regs .rdx).toNat
  canonical : ∀ x, (s.mem x).isSome → x.toNat < 2 ^ 47 ∨ 2 ^ 64 - 2 ^ 47 ≤ x.toNat

theorem memcpy128_r12 (h : memcpy128 s fuel = some s') : s'.regs .r12 = 128 := by
  obtain ⟨t, hhead, -, -, hr12, -⟩ := memcpyHead_eq (s := s)
  rw [memcpy128, hhead, Option.bind_eq_bind, Option.bind_some] at h
  rw [(copyBlocks_keeps h).regs .r12 (by decide), hr12]

/-- With no bytes to copy the loop runs through all of memory, and meets an
address that is not there. -/
theorem memcpy128_zero (h : CopyArgs s) (h0 : s.regs .rdx = 0) : memcpy128 s fuel = none := by
  obtain ⟨t, hhead, hkeeps, hmem, -, hrcx⟩ := memcpyHead_eq (s := s)
  have hrsi : t.regs .rsi = s.regs .rsi := hkeeps.regs .rsi (by decide)
  have hzero : t.regs .rcx = 0 := by rw [hrcx, h0]; rfl
  rw [memcpy128, hhead, Option.bind_eq_bind, Option.bind_some]
  by_contra hsome
  obtain ⟨s', hrun⟩ := Option.ne_none_iff_exists'.mp hsome
  obtain ⟨a, ha⟩ : ∃ a, a = s.regs .rsi := ⟨_, rfl⟩
  obtain ⟨i, hi⟩ : ∃ i, i = (BitVec.ofNat 64 (2 ^ 63 + a.toNat % 128) - a).toNat / 128 := ⟨_, rfl⟩
  have hmiddle : (a + BitVec.ofNat 64 (128 * i)).toNat = 2 ^ 63 + a.toNat % 128 := by
    rw [hi]
    bv_omega
  have hvisit := copyBlocks_visits hrun (i := i) (by rw [hzero]; bv_omega)
  rw [hrsi, hmem, ← ha] at hvisit
  have := h.canonical _ hvisit
  omega

theorem memcpy128_eq (h : CopyArgs s) (h0 : s.regs .rdx ≠ 0) : ∃ fuel s', memcpy128 s fuel = some s' ∧
    memcpyAt s.mem (s.regs .rdi) (s.regs .rsi) (s.regs .rdx).toNat = some s'.mem ∧
    (∀ r ∉ [Reg.rax, .rdx, .r12, .rcx, .rsi, .rdi], s'.regs r = s.regs r) ∧ s'.rsp = s.rsp := by
  obtain ⟨t, hhead, hkeeps, hmem, -, hrcx⟩ := memcpyHead_eq (s := s)
  have hrsi : t.regs .rsi = s.regs .rsi := hkeeps.regs .rsi (by decide)
  have hrdi : t.regs .rdi = s.regs .rdi := hkeeps.regs .rdi (by decide)
  have hlt := (s.regs .rdx).isLt
  have hblocks := h.blocks
  obtain ⟨k, hk⟩ : ∃ k, (s.regs .rdx).toNat = 128 * (k + 1) := by
    have hpos : 0 < (s.regs .rdx).toNat := Nat.pos_of_ne_zero fun he => h0 (BitVec.eq_of_toNat_eq he)
    exact ⟨(s.regs .rdx).toNat / 128 - 1, by omega⟩
  have hrcx' : (t.regs .rcx).toNat = k + 1 := by
    rw [hrcx, hk, BitVec.toNat_ofNat]
    omega
  have hsrc := h.src
  have hdst := h.dst
  have hapart := h.apart
  rw [hk] at hsrc hdst hapart
  obtain ⟨s', hrun, hmem'⟩ := copyBlocks_eq hrcx' (by rw [hrsi]; exact h.srcAligned) (by rw [hrdi]; exact h.dstAligned)
    (by rw [hrsi, hmem]; exact hsrc) (by rw [hrdi, hmem]; exact hdst) (by rw [hrsi, hrdi]; exact hapart) (by omega)
  have hlast := copyBlocks_keeps hrun
  refine ⟨k + 1, s', ?_, ?_, fun r hr => ?_, hlast.rsp.trans hkeeps.rsp⟩
  · rw [memcpy128, hhead, Option.bind_eq_bind, Option.bind_some, hrun]
  · rw [hk, memcpyAt_eq (by omega) hsrc hdst hapart, hmem', hrsi, hrdi, hmem]
  · simp only [List.mem_cons, List.not_mem_nil, or_false, not_or] at hr
    rw [hlast.regs r (by simp [hr]), hkeeps.regs r (by simp [hr])]

/-- The vector copy does what the plain one does and keeps its caller's
registers exactly when there is something to copy and `r12` holds the divisor
already. -/
theorem memcpy128_memcpy (h : CopyArgs s) : (∃ fuel s', memcpy128 s fuel = some s' ∧
      memcpyAt s.mem (s.regs .rdi) (s.regs .rsi) (s.regs .rdx).toNat = some s'.mem ∧
      (∀ r ∈ calleeSaved, s'.regs r = s.regs r) ∧ s'.rsp = s.rsp) ↔
    s.regs .rdx ≠ 0 ∧ s.regs .r12 = 128 := by
  constructor
  · rintro ⟨fuel, s', hrun, -, hsaved, -⟩
    refine ⟨fun h0 => ?_, ?_⟩
    · rw [memcpy128_zero h h0] at hrun
      cases hrun
    · rw [← hsaved .r12 (by decide), memcpy128_r12 hrun]
  · rintro ⟨h0, hr12⟩
    obtain ⟨fuel, s', hrun, hmem, hregs, hrsp⟩ := memcpy128_eq h h0
    refine ⟨fuel, s', hrun, hmem, fun r hr => ?_, hrsp⟩
    by_cases hr' : r = .r12
    · rw [hr', memcpy128_r12 hrun, hr12]
    · refine hregs r ?_
      revert hr hr'
      cases r <;> decide

def copyCall (r12 : U64) : Cpu where
  regs
    | .rdi => 0x2000
    | .rsi => 0x1000
    | .rdx => 128
    | .r12 => r12
    | _ => 0
  rsp := 0x8000
  xmm _ := []
  mem x := if x.toNat < 0x10000 then some (x.setWidth 8) else none

theorem copyCall_mem {r12 : U64} : ((copyCall r12).mem x).isSome ↔ x.toNat < 0x10000 := by
  unfold copyCall
  simp only
  split <;> simp_all

theorem copyCall_args (r12 : U64) : CopyArgs (copyCall r12) where
  blocks := by
    change (128 : U64).toNat % 128 = 0
    decide
  srcAligned := by
    change (0x1000 : U64).toNat % 16 = 0
    decide
  dstAligned := by
    change (0x2000 : U64).toNat % 16 = 0
    decide
  src i hi := by
    replace hi : i < 128 := hi
    rw [copyCall_mem]
    change (0x1000#64 + BitVec.ofNat 64 i).toNat < 0x10000
    bv_omega
  dst i hi := by
    replace hi : i < 128 := hi
    rw [copyCall_mem]
    change (0x2000#64 + BitVec.ofNat 64 i).toNat < 0x10000
    bv_omega
  apart i hi j hj := by
    replace hi : i < 128 := hi
    replace hj : j < 128 := hj
    change 0x1000#64 + BitVec.ofNat 64 i ≠ 0x2000#64 + BitVec.ofNat 64 j
    bv_omega
  canonical x hx := by
    rw [copyCall_mem] at hx
    omega

theorem memcpy128_memcpy_call : (∃ fuel s', memcpy128 (copyCall 128) fuel = some s' ∧
      memcpyAt (copyCall 128).mem ((copyCall 128).regs .rdi) ((copyCall 128).regs .rsi) ((copyCall 128).regs .rdx).toNat =
        some s'.mem ∧
      (∀ r ∈ calleeSaved, s'.regs r = (copyCall 128).regs r) ∧ s'.rsp = (copyCall 128).rsp) ↔
    (copyCall 128).regs .rdx ≠ 0 ∧ (copyCall 128).regs .r12 = 128 :=
  memcpy128_memcpy (copyCall_args 128)

/-- The caller finds 128 in `r12`. -/
theorem memcpy128_clobbers : ¬ ∀ s : Cpu, CopyArgs s → ∃ fuel s', memcpy128 s fuel = some s' ∧
    memcpyAt s.mem (s.regs .rdi) (s.regs .rsi) (s.regs .rdx).toNat = some s'.mem ∧
    (∀ r ∈ calleeSaved, s'.regs r = s.regs r) ∧ s'.rsp = s.rsp := by
  intro h
  obtain ⟨fuel, s', hrun, -, hsaved, -⟩ := h (copyCall 0) (copyCall_args 0)
  have hr12 := (memcpy128_r12 hrun).symm.trans (hsaved .r12 (by decide))
  exact absurd hr12 (by decide)

end ShedOS.Libk
