import ShedOS.Device.Namespaces
import ShedOS.Memory.Backing

/-!
# Bringing up the controller

`nvme_initialize_device` from the store that disables the controller to the
loop that waits for it to be ready again, one access after the other, and the
controller meanwhile: it stops, takes over the rings in its registers, and says
that it is ready, each in its own time.
-/

namespace ShedOS.Device.Nvme

open Memory Transition

-- ---------------------------------------------------------------------------
-- The controller's side
-- ---------------------------------------------------------------------------

structure CtrlRegs where
  cc : BitVec 32
  csts : BitVec 32
  asq : U64
  acq : U64
  aqa : BitVec 32
  deriving DecidableEq, Repr

/-- `CC.EN`. -/
def CtrlRegs.enabled (r : CtrlRegs) : Bool := r.cc.getLsbD 0

/-- `CSTS.RDY`. -/
def CtrlRegs.ready (r : CtrlRegs) : Bool := r.csts.getLsbD 0

/-- What the controller works on: the admin rings with their entries, the sizes
of an entry, and the size of a page. -/
structure AdminRings where
  sq : U64
  cq : U64
  sqEntries : Nat
  cqEntries : Nat
  sqEntrySize : Nat
  cqEntrySize : Nat
  pageSize : Nat
  deriving DecidableEq, Repr

def CtrlRegs.rings (r : CtrlRegs) : AdminRings where
  sq := r.asq
  cq := r.acq
  sqEntries := (r.aqa.extractLsb' 0 12).toNat + 1
  cqEntries := (r.aqa.extractLsb' 16 12).toNat + 1
  sqEntrySize := 2 ^ (r.cc.extractLsb' 16 4).toNat
  cqEntrySize := 2 ^ (r.cc.extractLsb' 20 4).toNat
  pageSize := 2 ^ (12 + (r.cc.extractLsb' 7 4).toNat)

-- ---------------------------------------------------------------------------
-- The driver's side
-- ---------------------------------------------------------------------------

/-- Where the driver is; at `identify` the controller is up. -/
inductive Stage where
  | clearEnable
  | waitDisabled
  | storeAsq
  | storeAcq
  | storeAqa
  | setQueue
  | setEnable
  | waitReady
  | identify
  deriving DecidableEq, Repr

/-- Both parties. `active` is what the controller works on. -/
structure BringUp (σ : Type) where
  stage : Stage
  regs : CtrlRegs
  active : Option AdminRings
  queue : IoQueue
  pages : σ

def adminQueue (r : Regs) (asq acq : U64) (queue : IoQueue) : IoQueue :=
  { queue with
    sq := addrEnsureHigher asq
    cq := addrEnsureHigher acq
    sqTail := 0
    cqHead := 0
    sqTailDbl := r.base + 0x1000 + ((2 * 0 + 0) * doorbellStride r).zeroExtend 64
    cqHeadDbl := r.base + 0x1000 + ((2 * 0 + 1) * doorbellStride r).zeroExtend 64 }

def adminAttributes : BitVec 32 := 255 <<< 0 ||| 255 <<< 16

def enableConfiguration : BitVec 32 := 1 <<< 0 ||| 0 <<< 4 ||| 0 <<< 7 ||| 0 <<< 11 ||| 0 <<< 14 ||| 6 <<< 16 ||| 4 <<< 20

namespace BringUp

variable {σ : Type} [FrameSource σ]

def waits (b : BringUp σ) : Bool :=
  match b.stage with
  | .waitDisabled => b.regs.ready
  | .waitReady => !b.regs.ready
  | _ => false

/-- The driver's next access, when it does not wait. -/
def next (r : Regs) (b : BringUp σ) : BringUp σ :=
  match b.stage with
  | .clearEnable => { b with stage := .waitDisabled, regs := { b.regs with cc := b.regs.cc &&& ~~~(1#32 <<< 0) } }
  | .waitDisabled => { b with stage := .storeAsq }
  | .storeAsq =>
    let (asq, pages) := FrameSource.pmmRequestPages b.pages (64 * 256 / 0x1000)
    { b with stage := .storeAcq, regs := { b.regs with asq }, pages }
  | .storeAcq =>
    let (acq, pages) := FrameSource.pmmRequestPages b.pages (16 * 256 / 0x1000)
    { b with stage := .storeAqa, regs := { b.regs with acq }, pages }
  | .storeAqa => { b with stage := .setQueue, regs := { b.regs with aqa := adminAttributes } }
  | .setQueue => { b with stage := .setEnable, queue := adminQueue r b.regs.asq b.regs.acq b.queue }
  | .setEnable => { b with stage := .waitReady, regs := { b.regs with cc := enableConfiguration } }
  | .waitReady => { b with stage := .identify }
  | .identify => b

end BringUp

inductive BringUpEvent where
  | driver
  | poll
  | latch
  | ready
  | stop
  deriving DecidableEq, Repr

/-- The registers are read and written by the driver, and the controller acts
on `CC.EN` when it likes. -/
inductive BringUpStep {σ : Type} [FrameSource σ] (r : Regs) : BringUp σ → BringUpEvent → BringUp σ → Prop
  | driver (b : BringUp σ) (hgo : b.waits = false) (hup : b.stage ≠ .identify) : BringUpStep r b .driver (b.next r)
  | poll (b : BringUp σ) (hwait : b.waits = true) : BringUpStep r b .poll b
  | latch (b : BringUp σ) (henabled : b.regs.enabled = true) (hnone : b.active = none) :
    BringUpStep r b .latch { b with active := some b.regs.rings }
  | ready (b : BringUp σ) (henabled : b.regs.enabled = true) (hactive : b.active.isSome) (hnot : b.regs.ready = false) :
    BringUpStep r b .ready { b with regs := { b.regs with csts := b.regs.csts ||| 1 } }
  | stop (b : BringUp σ) (hdisabled : b.regs.enabled = false) (hrunning : b.active.isSome ∨ b.regs.ready = true) :
    BringUpStep r b .stop { b with active := none, regs := { b.regs with csts := b.regs.csts &&& ~~~1 } }

-- ---------------------------------------------------------------------------
-- The invariant
-- ---------------------------------------------------------------------------

section Invariant

variable {σ : Type} {r : Regs} {b b' b₀ : BringUp σ} {e : BringUpEvent} {es : List BringUpEvent}

/-- Firmware has left the controller alone or up, not on its way. -/
structure Settled (regs : CtrlRegs) (active : Option AdminRings) : Prop where
  enabled : regs.enabled = true → regs.ready = true
  active : active.isSome → regs.ready = true

structure Quiet (regs : CtrlRegs) (active : Option AdminRings) : Prop where
  disabled : regs.enabled = false
  notReady : regs.ready = false
  inactive : active = none

structure Starting (regs : CtrlRegs) (active : Option AdminRings) : Prop where
  enabled : regs.enabled = true
  latched : ∀ a, active = some a → a = regs.rings
  ready : regs.ready = true → active.isSome

theorem Quiet.congr {regs regs' : CtrlRegs} {active : Option AdminRings} (h : Quiet regs active) (hcc : regs'.cc = regs.cc)
    (hcsts : regs'.csts = regs.csts) : Quiet regs' active :=
  ⟨by rw [CtrlRegs.enabled, hcc]; exact h.disabled, by rw [CtrlRegs.ready, hcsts]; exact h.notReady, h.inactive⟩

theorem Quiet.not_running {regs : CtrlRegs} {active : Option AdminRings} (h : Quiet regs active) :
    ¬ (active.isSome = true ∨ regs.ready = true) := by
  rintro (hactive | hready)
  · rw [h.inactive] at hactive
    exact Bool.false_ne_true hactive
  · exact Bool.false_ne_true (h.notReady.symm.trans hready)

variable [FrameSource σ]

def adminPages (pages : σ) : U64 × U64 × σ :=
  let (asq, pages) := FrameSource.pmmRequestPages pages (64 * 256 / 0x1000)
  let (acq, pages) := FrameSource.pmmRequestPages pages (16 * 256 / 0x1000)
  (asq, acq, pages)

structure Configured (r : Regs) (b₀ : BringUp σ) (regs : CtrlRegs) (queue : IoQueue) (pages : σ) : Prop where
  asq : regs.asq = (adminPages b₀.pages).1
  acq : regs.acq = (adminPages b₀.pages).2.1
  pages : pages = (adminPages b₀.pages).2.2
  aqa : regs.aqa = adminAttributes
  queue : queue = adminQueue r regs.asq regs.acq b₀.queue

def Phase (r : Regs) (b₀ b : BringUp σ) : Prop :=
  match b.stage with
  | .clearEnable => Settled b.regs b.active ∧ b.pages = b₀.pages ∧ b.queue = b₀.queue
  | .waitDisabled => b.regs.enabled = false ∧ (b.active.isSome → b.regs.ready = true) ∧ b.pages = b₀.pages ∧
    b.queue = b₀.queue
  | .storeAsq => Quiet b.regs b.active ∧ b.pages = b₀.pages ∧ b.queue = b₀.queue
  | .storeAcq => Quiet b.regs b.active ∧ (b.regs.asq, b.pages) = FrameSource.pmmRequestPages b₀.pages (64 * 256 / 0x1000) ∧
    b.queue = b₀.queue
  | .storeAqa => Quiet b.regs b.active ∧ (b.regs.asq, b.regs.acq, b.pages) = adminPages b₀.pages ∧ b.queue = b₀.queue
  | .setQueue => Quiet b.regs b.active ∧ (b.regs.asq, b.regs.acq, b.pages) = adminPages b₀.pages ∧
    b.regs.aqa = adminAttributes ∧ b.queue = b₀.queue
  | .setEnable => Quiet b.regs b.active ∧ Configured r b₀ b.regs b.queue b.pages
  | .waitReady => Starting b.regs b.active ∧ b.regs.cc = enableConfiguration ∧ Configured r b₀ b.regs b.queue b.pages
  | .identify => Starting b.regs b.active ∧ b.regs.ready = true ∧ b.regs.cc = enableConfiguration ∧
    Configured r b₀ b.regs b.queue b.pages

theorem Phase.start (hstage : b₀.stage = .clearEnable) (hsettled : Settled b₀.regs b₀.active) : Phase r b₀ b₀ := by
  unfold Phase
  rw [hstage]
  exact ⟨hsettled, rfl, rfl⟩

theorem Phase.driver (h : Phase r b₀ b) (hgo : b.waits = false) (hup : b.stage ≠ .identify) : Phase r b₀ (b.next r) := by
  obtain ⟨stage, regs, active, queue, pages⟩ := b
  cases stage with
  | clearEnable =>
    obtain ⟨hsettled, hpages, hqueue⟩ := h
    refine ⟨?_, hsettled.active, hpages, hqueue⟩
    simp [CtrlRegs.enabled, BringUp.next]
  | waitDisabled =>
    obtain ⟨hdisabled, hactive, hpages, hqueue⟩ := h
    refine ⟨⟨hdisabled, hgo, ?_⟩, hpages, hqueue⟩
    cases active with
    | none => rfl
    | some a => exact absurd (hgo.symm.trans (hactive rfl)) Bool.false_ne_true
  | storeAsq =>
    obtain ⟨hquiet, hpages, hqueue⟩ := h
    obtain rfl : pages = b₀.pages := hpages
    exact ⟨hquiet.congr rfl rfl, rfl, hqueue⟩
  | storeAcq =>
    obtain ⟨hquiet, hpages, hqueue⟩ := h
    refine ⟨hquiet.congr rfl rfl, ?_, hqueue⟩
    have hfirst := congrArg Prod.fst hpages
    have hsecond := congrArg Prod.snd hpages
    simp only at hfirst hsecond
    show (regs.asq, (FrameSource.pmmRequestPages pages (16 * 256 / 0x1000)).1,
      (FrameSource.pmmRequestPages pages (16 * 256 / 0x1000)).2) = _
    rw [hfirst, hsecond]
    rfl
  | storeAqa =>
    obtain ⟨hquiet, hpages, hqueue⟩ := h
    exact ⟨hquiet.congr rfl rfl, hpages, rfl, hqueue⟩
  | setQueue =>
    obtain ⟨hquiet, hpages, haqa, hqueue⟩ := h
    have hasq := congrArg Prod.fst hpages
    have hrest := congrArg Prod.snd hpages
    refine ⟨hquiet.congr rfl rfl, hasq, congrArg Prod.fst hrest, congrArg Prod.snd hrest, haqa, ?_⟩
    rw [← hqueue]
    rfl
  | setEnable =>
    obtain ⟨hquiet, hconf⟩ := h
    refine ⟨⟨(by decide : enableConfiguration.getLsbD 0 = true), fun a ha => ?_, fun hready => ?_⟩, rfl, hconf.asq, hconf.acq,
      hconf.pages, hconf.aqa, hconf.queue⟩
    · rw [show active = none from hquiet.inactive] at ha
      cases ha
    · exact absurd (hquiet.notReady.symm.trans hready) Bool.false_ne_true
  | waitReady =>
    obtain ⟨hstarting, hcc, hconf⟩ := h
    have hready : regs.ready = true := by
      cases hr : regs.ready with
      | true => rfl
      | false =>
        have hwaits : (!regs.ready) = false := hgo
        rw [hr] at hwaits
        cases hwaits
    exact ⟨hstarting, hready, hcc, hconf⟩
  | identify => exact absurd rfl hup

theorem Phase.latch (h : Phase r b₀ b) (henabled : b.regs.enabled = true) :
    Phase r b₀ { b with active := some b.regs.rings } := by
  have hquiet : ¬ Quiet b.regs b.active := fun hq => by
    rw [hq.disabled] at henabled
    contradiction
  have hstarting : Starting b.regs b.active → Starting b.regs (some b.regs.rings) := fun hs =>
    ⟨hs.enabled, fun a ha => (Option.some.inj ha).symm, fun _ => rfl⟩
  obtain ⟨stage, regs, active, queue, pages⟩ := b
  cases stage with
  | clearEnable =>
    obtain ⟨hsettled, hrest⟩ := h
    exact ⟨⟨hsettled.enabled, fun _ => hsettled.enabled henabled⟩, hrest⟩
  | waitDisabled => exact absurd (h.1.symm.trans henabled) Bool.false_ne_true
  | waitReady => exact ⟨hstarting h.1, h.2⟩
  | identify => exact ⟨hstarting h.1, h.2⟩
  | _ => exact absurd h.1 hquiet

theorem Phase.ready (h : Phase r b₀ b) (henabled : b.regs.enabled = true) (hactive : b.active.isSome)
    (hnot : b.regs.ready = false) : Phase r b₀ { b with regs := { b.regs with csts := b.regs.csts ||| 1 } } := by
  have hquiet : ¬ Quiet b.regs b.active := fun hq => by
    rw [hq.disabled] at henabled
    contradiction
  obtain ⟨stage, regs, active, queue, pages⟩ := b
  cases stage with
  | clearEnable => exact absurd (hnot.symm.trans (h.1.enabled henabled)) Bool.false_ne_true
  | waitDisabled => exact absurd (h.1.symm.trans henabled) Bool.false_ne_true
  | waitReady =>
    obtain ⟨hstarting, hcc, hconf⟩ := h
    exact ⟨⟨hstarting.enabled, hstarting.latched, fun _ => hactive⟩, hcc, hconf.asq, hconf.acq, hconf.pages, hconf.aqa,
      hconf.queue⟩
  | identify => exact absurd (hnot.symm.trans h.2.1) Bool.false_ne_true
  | _ => exact absurd h.1 hquiet

theorem Phase.stop (h : Phase r b₀ b) (hdisabled : b.regs.enabled = false) (hrunning : b.active.isSome ∨ b.regs.ready = true) :
    Phase r b₀ { b with active := none, regs := { b.regs with csts := b.regs.csts &&& ~~~1 } } := by
  have hquiet : ¬ Quiet b.regs b.active := fun hq => hq.not_running hrunning
  have hstarting : ¬ Starting b.regs b.active := fun hs => by
    rw [hs.enabled] at hdisabled
    contradiction
  obtain ⟨stage, regs, active, queue, pages⟩ := b
  cases stage with
  | clearEnable =>
    obtain ⟨hsettled, hrest⟩ := h
    refine ⟨⟨fun henabled => ?_, fun hactive => ?_⟩, hrest⟩
    · exact absurd (hdisabled.symm.trans henabled) Bool.false_ne_true
    · cases hactive
  | waitDisabled => exact ⟨hdisabled, fun hactive => (by cases hactive), h.2.2⟩
  | waitReady => exact absurd h.1 hstarting
  | identify => exact absurd h.1 hstarting
  | _ => exact absurd h.1 hquiet

theorem Phase.step (h : Phase r b₀ b) (hstep : BringUpStep r b e b') : Phase r b₀ b' := by
  cases hstep with
  | driver hgo hup => exact h.driver hgo hup
  | poll => exact h
  | latch henabled => exact h.latch henabled
  | ready henabled hactive hnot => exact h.ready henabled hactive hnot
  | stop hdisabled hrunning => exact h.stop hdisabled hrunning

-- ---------------------------------------------------------------------------
-- How long it takes
-- ---------------------------------------------------------------------------

def Stage.left : Stage → Nat
  | .clearEnable => 8
  | .waitDisabled => 7
  | .storeAsq => 6
  | .storeAcq => 5
  | .storeAqa => 4
  | .setQueue => 3
  | .setEnable => 2
  | .waitReady => 1
  | .identify => 0

def controllerLeft (stage : Stage) (regs : CtrlRegs) (active : Option AdminRings) : Nat :=
  match stage with
  | .clearEnable | .waitDisabled =>
    (if regs.enabled = true ∧ active = none then 1 else 0) + (if regs.ready then 1 else 0) + 2
  | .waitReady | .identify => (if active = none then 1 else 0) + (if regs.ready then 0 else 1)
  | _ => 2

def BringUp.left (b : BringUp σ) : Nat := b.stage.left + controllerLeft b.stage b.regs b.active

omit [FrameSource σ] in
theorem left_le (b : BringUp σ) : b.left ≤ 12 := by
  have hstage : b.stage.left ≤ 8 := by cases b.stage <;> decide
  have hctrl : controllerLeft b.stage b.regs b.active ≤ 4 := by
    unfold controllerLeft
    split <;> try split_ifs
    all_goals omega
  exact Nat.add_le_add hstage hctrl

theorem Phase.left_driver (h : Phase r b₀ b) (hgo : b.waits = false) (hup : b.stage ≠ .identify) :
    (b.next r).left + 1 ≤ b.left := by
  obtain ⟨stage, regs, active, queue, pages⟩ := b
  cases stage with
  | clearEnable =>
    obtain ⟨hcleared, -⟩ := h.driver hgo hup
    have hcleared : ({ regs with cc := regs.cc &&& ~~~(1#32 <<< 0) } : CtrlRegs).enabled = false := hcleared
    have hready : ({ regs with cc := regs.cc &&& ~~~(1#32 <<< 0) } : CtrlRegs).ready = regs.ready := rfl
    simp only [BringUp.left, BringUp.next, Stage.left, controllerLeft, hcleared, hready, Bool.false_eq_true, false_and, if_false]
    omega
  | waitDisabled =>
    show 6 + 2 + 1 ≤ 7 + ((if _ then 1 else 0) + (if _ then 1 else 0) + 2)
    omega
  | setEnable =>
    show 1 + ((if _ then 1 else 0) + (if _ then 0 else 1)) + 1 ≤ 2 + 2
    split_ifs <;> omega
  | waitReady =>
    obtain ⟨hstarting, hready, -⟩ := h.driver hgo hup
    have hactive := Option.isSome_iff_ne_none.mp (hstarting.ready hready)
    have hactive : active ≠ none := hactive
    have hready : regs.ready = true := hready
    show 0 + ((if active = none then 1 else 0) + (if regs.ready then 0 else 1)) + 1 ≤ 1 + _
    rw [if_neg hactive, if_pos hready]
    omega
  | identify => exact absurd rfl hup
  | _ => exact Nat.le_refl _

theorem Phase.left_step (h : Phase r b₀ b) (hstep : BringUpStep r b e b') (he : e ≠ .poll) : b'.left + 1 ≤ b.left := by
  cases hstep with
  | driver hgo hup => exact h.left_driver hgo hup
  | poll => exact absurd rfl he
  | latch henabled hnone =>
    obtain ⟨stage, regs, active, queue, pages⟩ := b
    obtain rfl : active = none := hnone
    have henabled : regs.enabled = true := henabled
    cases stage with
    | clearEnable => simp [BringUp.left, controllerLeft, henabled]
    | waitDisabled => exact absurd (h.1.symm.trans henabled) Bool.false_ne_true
    | waitReady => simp [BringUp.left, controllerLeft]
    | identify => exact (Bool.false_ne_true (h.1.ready h.2.1)).elim
    | _ => exact absurd (h.1.disabled.symm.trans henabled) Bool.false_ne_true
  | ready henabled hactive hnot =>
    obtain ⟨stage, regs, active, queue, pages⟩ := b
    have hnot : regs.ready = false := hnot
    have hset : ({ regs with csts := regs.csts ||| 1 } : CtrlRegs).ready = true := by simp [CtrlRegs.ready]
    cases stage with
    | clearEnable => exact absurd (hnot.symm.trans (h.1.enabled henabled)) Bool.false_ne_true
    | waitDisabled => exact absurd (h.1.symm.trans henabled) Bool.false_ne_true
    | waitReady =>
      simp only [BringUp.left, controllerLeft, hset, hnot, Bool.false_eq_true, if_false, if_true]
      omega
    | identify => exact absurd (hnot.symm.trans h.2.1) Bool.false_ne_true
    | _ => exact absurd (h.1.disabled.symm.trans henabled) Bool.false_ne_true
  | stop hdisabled hrunning =>
    obtain ⟨stage, regs, active, queue, pages⟩ := b
    have hdisabled : regs.enabled = false := hdisabled
    have hcleared : ({ regs with csts := regs.csts &&& ~~~1 } : CtrlRegs).ready = false := by simp [CtrlRegs.ready]
    have hstill : ({ regs with csts := regs.csts &&& ~~~1 } : CtrlRegs).enabled = false := hdisabled
    have hready : (active.isSome → regs.ready = true) → regs.ready = true := fun hactive => hrunning.elim hactive id
    cases stage with
    | clearEnable =>
      simp only [BringUp.left, controllerLeft, hdisabled, hcleared, hstill, hready h.1.active, Bool.false_eq_true,
        false_and, if_false, if_true]
      omega
    | waitDisabled =>
      simp only [BringUp.left, controllerLeft, hdisabled, hcleared, hstill, hready h.2.1, Bool.false_eq_true,
        false_and, if_false, if_true]
      omega
    | waitReady => exact absurd (hdisabled.symm.trans h.1.enabled) Bool.false_ne_true
    | identify => exact absurd (hdisabled.symm.trans h.1.enabled) Bool.false_ne_true
    | _ => exact absurd hrunning h.1.not_running

theorem Phase.progress (h : Phase r b₀ b) (hup : b.stage ≠ .identify) : ∃ e b', e ≠ .poll ∧ BringUpStep r b e b' := by
  by_cases hwait : b.waits = true
  · obtain ⟨stage, regs, active, queue, pages⟩ := b
    cases stage with
    | waitDisabled => exact ⟨.stop, _, by decide, .stop _ h.1 (.inr hwait)⟩
    | waitReady =>
      have hnot : regs.ready = false := by
        cases hr : regs.ready with
        | false => rfl
        | true =>
          have hwait : (!regs.ready) = true := hwait
          rw [hr] at hwait
          cases hwait
      cases active with
      | none => exact ⟨.latch, _, by decide, .latch _ h.1.enabled rfl⟩
      | some a => exact ⟨.ready, _, by decide, .ready _ h.1.enabled rfl hnot⟩
    | _ => exact absurd hwait Bool.false_ne_true
  · exact ⟨.driver, _, by decide, .driver b (Bool.eq_false_iff.mpr hwait) hup⟩

def moves (es : List BringUpEvent) : Nat := es.countP (· ≠ .poll)

theorem moves_snoc : moves (es ++ [e]) = moves es + if e = .poll then 0 else 1 := by
  rw [moves, List.countP_append, List.countP_singleton]
  cases e <;> rfl

theorem Phase.run (h : Phase r b₀ b) (hrun : Trace (BringUpStep r) b es b') :
    Phase r b₀ b' ∧ moves es + b'.left ≤ b.left := by
  induction hrun with
  | nil => exact ⟨h, Nat.le_of_eq (Nat.zero_add _)⟩
  | @snoc es e t u _ hstep ih =>
    obtain ⟨ht, hle⟩ := ih
    refine ⟨ht.step hstep, ?_⟩
    rw [moves_snoc]
    by_cases he : e = .poll
    · subst he
      cases hstep
      exact hle
    · have hless := ht.left_step hstep he
      rw [if_neg he]
      omega

theorem Phase.finishes (h : Phase r b₀ b) : ∃ es b', Trace (BringUpStep r) b es b' ∧ b'.stage = .identify := by
  obtain ⟨n, hn⟩ : ∃ n, n = b.left := ⟨_, rfl⟩
  induction n using Nat.strong_induction_on generalizing b with
  | _ n ih =>
    by_cases hup : b.stage = .identify
    · exact ⟨[], b, .nil, hup⟩
    · obtain ⟨e, b', he, hstep⟩ := h.progress hup
      have hless := h.left_step hstep he
      obtain ⟨es, b'', hrun, hdone⟩ := ih b'.left (by omega) (h.step hstep) rfl
      exact ⟨_, b'', (Trace.single hstep).append hrun, hdone⟩

end Invariant

-- ---------------------------------------------------------------------------
-- The rings
-- ---------------------------------------------------------------------------

section Rings

variable {f : Pmm} {count : Nat} {r : Regs} {b b₀ : BringUp Pmm} {es : List BringUpEvent}

structure Taken (f : Pmm) (count : Nat) (f' : Pmm) (q : Nat) : Prop where
  le : q + count ≤ f.frames
  free : f.FreeRun q count
  walled : f'.Walled
  frames : f'.frames = f.frames
  bits : ∀ j, f'.bit j = (decide (q ≤ j ∧ j < q + count) || f.bit j)

theorem request_taken (hw : f.Walled) (hne : (FrameSource.pmmRequestPages f count).1 ≠ 0) :
    ∃ q, (FrameSource.pmmRequestPages f count).1 = BitVec.ofNat 64 (0x1000 * q) ∧
      Taken f count (FrameSource.pmmRequestPages f count).2 q := by
  rcases pmmRequestPages_cases count hw with ⟨q, f', hreq, -, hlt, hfree, -, hsame, hbits⟩ | ⟨hreq, -⟩
  · have hanswer : FrameSource.pmmRequestPages f count = (BitVec.ofNat 64 (0x1000 * q), f') := by
      simp only [FrameSource.pmmRequestPages, hreq]
    rw [hanswer]
    have hwall : f'.bit f.frames = true := by rw [hbits, hw.wall, Bool.or_true]
    have htotal : f'.totalMemory = f.totalMemory := hsame.totalMemory
    exact ⟨q, rfl, hw.freeRun_le (Nat.le_of_lt hlt) hfree, hfree, hw.of_same hsame.len htotal hwall,
      congrArg (· / 0x1000) htotal, hbits⟩
  · have hnone : (FrameSource.pmmRequestPages f count).1 = 0 := by
      simp only [FrameSource.pmmRequestPages, hreq]
      rfl
    exact absurd hnone hne

/-- Two rings in frames that were free, and the driver and the controller mean
the same two. -/
structure BroughtUp (r : Regs) (b₀ b : BringUp Pmm) (sq cq : Nat) : Prop where
  ready : b.regs.ready = true
  active : b.active = some ⟨BitVec.ofNat 64 (0x1000 * sq), BitVec.ofNat 64 (0x1000 * cq), 256, 256, 64, 16, 0x1000⟩
  queue : b.queue = { b₀.queue with
    sq := framePtr sq
    cq := framePtr cq
    sqTail := 0
    cqHead := 0
    sqTailDbl := r.base + 0x1000
    cqHeadDbl := r.base + 0x1000 + (doorbellStride r).zeroExtend 64 }
  free : b₀.pages.FreeRun sq 4 ∧ b₀.pages.bit cq = false
  apart : ¬ (sq ≤ cq ∧ cq < sq + 4)
  taken : ∀ j, b.pages.bit j = (decide (j = cq) || (decide (sq ≤ j ∧ j < sq + 4) || b₀.pages.bit j))

theorem addrEnsureHigher_frame {n : Nat} (hn : n < frameLimit) : addrEnsureHigher (BitVec.ofNat 64 (0x1000 * n)) = framePtr n :=
  (framePtr_eq_or hn).symm

theorem Configured.broughtUp (h : Configured r b₀ b.regs b.queue b.pages) (hstarting : Starting b.regs b.active)
    (hready : b.regs.ready = true) (hcc : b.regs.cc = enableConfiguration) (hw : b₀.pages.Walled)
    (hreach : b₀.pages.frames ≤ frameLimit) (hasq : (adminPages b₀.pages).1 ≠ 0) (hacq : (adminPages b₀.pages).2.1 ≠ 0) :
    ∃ sq cq, BroughtUp r b₀ b sq cq := by
  obtain ⟨sq, hsq, hfirst⟩ := request_taken hw hasq
  obtain ⟨cq, hcq, hsecond⟩ := request_taken hfirst.walled hacq
  have hasq' : b.regs.asq = BitVec.ofNat 64 (0x1000 * sq) := h.asq.trans hsq
  have hacq' : b.regs.acq = BitVec.ofNat 64 (0x1000 * cq) := h.acq.trans hcq
  have hsqLimit : sq < frameLimit := by
    have := hfirst.le
    omega
  have hcqLimit : cq < frameLimit := by
    have := hsecond.le
    have := hfirst.frames
    omega
  have hbit := hsecond.free 0 Nat.one_pos
  rw [Nat.add_zero, hfirst.bits, Bool.or_eq_false_iff] at hbit
  refine ⟨sq, cq, hready, ?_, ?_, ⟨hfirst.free, hbit.2⟩, of_decide_eq_false hbit.1, fun j => ?_⟩
  · obtain ⟨a, ha⟩ := Option.isSome_iff_exists.mp (hstarting.ready hready)
    rw [ha, hstarting.latched a ha, CtrlRegs.rings, hasq', hacq', h.aqa, hcc]
    rfl
  · rw [h.queue, hasq', hacq', adminQueue, addrEnsureHigher_frame hsqLimit, addrEnsureHigher_frame hcqLimit]
    simp
  · have hone : decide (cq ≤ j ∧ j < cq + 1) = decide (j = cq) := decide_eq_decide.mpr (by omega)
    have hlast := hsecond.bits j
    rw [hfirst.bits, hone] at hlast
    rw [h.pages]
    exact hlast

def Stage.configures : Stage → Bool
  | .storeAsq | .storeAcq | .storeAqa | .setQueue | .setEnable => true
  | _ => false

/-- The registers of the rings are written while the controller is off; when
the driver goes on, both work on the same rings; until then somebody can move,
and there are few moves. -/
structure BringsUp (r : Regs) (b₀ b : BringUp Pmm) (es : List BringUpEvent) : Prop where
  quiet : b.stage.configures = true → Quiet b.regs b.active
  up : b.stage = .identify → ∃ sq cq, BroughtUp r b₀ b sq cq
  progress : b.stage ≠ .identify → ∃ e b', e ≠ .poll ∧ BringUpStep r b e b'
  bounded : moves es ≤ 12
  finishes : ∃ es' b', Trace (BringUpStep r) b es' b' ∧ b'.stage = .identify

theorem controller_brought_up (hstage : b₀.stage = .clearEnable) (hsettled : Settled b₀.regs b₀.active)
    (hw : b₀.pages.Walled) (hreach : b₀.pages.frames ≤ frameLimit) (hasq : (adminPages b₀.pages).1 ≠ 0)
    (hacq : (adminPages b₀.pages).2.1 ≠ 0) (hrun : Trace (BringUpStep r) b₀ es b) : BringsUp r b₀ b es := by
  obtain ⟨hphase, hmoves⟩ := (Phase.start hstage hsettled).run hrun
  have hmost := left_le b₀
  refine ⟨fun hconf => ?_, fun hup => ?_, hphase.progress, by omega, hphase.finishes⟩
  · obtain ⟨stage, regs, active, queue, pages⟩ := b
    cases stage with
    | storeAsq => exact hphase.1
    | storeAcq => exact hphase.1
    | storeAqa => exact hphase.1
    | setQueue => exact hphase.1
    | setEnable => exact hphase.1
    | _ => cases hconf
  · rw [Phase, hup] at hphase
    obtain ⟨hstarting, hready, hcc, hconf⟩ := hphase
    exact hconf.broughtUp hstarting hready hcc hw hreach hasq hacq

def bootedController : BringUp Pmm where
  stage := .clearEnable
  regs := ⟨enableConfiguration, 1, 0x5000, 0x6000, 0x1f001f⟩
  active := some ⟨0x5000, 0x6000, 32, 32, 64, 16, 0x1000⟩
  queue := .zero
  pages := openPmm

theorem controller_brought_up_small : ∃ (es : List BringUpEvent) (b : BringUp Pmm),
    Trace (BringUpStep sampleRegs) bootedController es b ∧ b.stage = .identify ∧
      BringsUp sampleRegs bootedController b es := by
  have hsettled : Settled bootedController.regs bootedController.active := ⟨fun _ => rfl, fun _ => rfl⟩
  obtain ⟨es, b, hrun, hup⟩ := (Phase.start (r := sampleRegs) rfl hsettled).finishes
  have hopen : (openPmmOf 47).Untouched := openPmmOf_untouched (by decide)
  have hasq : (adminPages openPmm).1 ≠ 0 := by decide
  have hacq : (adminPages openPmm).2.1 ≠ 0 := by decide
  exact ⟨es, b, hrun, hup, controller_brought_up rfl hsettled hopen.walled (by decide) hasq hacq hrun⟩

end Rings

end ShedOS.Device.Nvme
