import ShedOS.Lib.Transition
import Mathlib.Tactic

/-!
# NVMe queues

A queue of `nvme.c`, the driver that sends one command after the other on it,
and the controller at the other end.
-/

namespace ShedOS.Device.Nvme

open Transition (Trace)

structure SqEntry where
  cdw0 : BitVec 32
  nsid : BitVec 32
  mptr : BitVec 64
  prp1 : BitVec 64
  prp2 : BitVec 64
  cdw10 : BitVec 32
  cdw11 : BitVec 32
  cdw12 : BitVec 32
  cdw13 : BitVec 32
  cdw14 : BitVec 32
  cdw15 : BitVec 32
  deriving DecidableEq, Repr

structure CqEntry where
  cmdSpecific : BitVec 32
  sqHeadPtr : BitVec 16
  sqIdentifier : BitVec 16
  cmdIdentifier : BitVec 16
  statusField : BitVec 16
  deriving DecidableEq, Repr

def CqEntry.phase (e : CqEntry) : Bool := e.statusField.getLsbD 0

-- ---------------------------------------------------------------------------
-- The driver
-- ---------------------------------------------------------------------------

structure Queue where
  sqTail : Nat
  cqHead : Nat
  sq : Nat → SqEntry
  cq : Nat → CqEntry
  sqTailDbl : Nat
  cqHeadDbl : Nat

/-- What `create_admin_queue` and `create_io_queue` set up. The pages for the
two rings come from `pmm_request_pages` and are not cleared. -/
def createQueue (sq : Nat → SqEntry) (cq : Nat → CqEntry) : Queue :=
  { sqTail := 0, cqHead := 0, sq, cq, sqTailDbl := 0, cqHeadDbl := 0 }

/-- `send_cmd_sync` up to the wait. -/
def Queue.submit (q : Queue) (command : SqEntry) : Queue :=
  { q with
    sq := Function.update q.sq q.sqTail command
    sqTailDbl := (q.sqTail + 1) % 256
    sqTail := (q.sqTail + 1) % 256 }

def Queue.ready (q : Queue) : Bool := (q.cq q.cqHead).phase

def CqEntry.clearPhase (e : CqEntry) : CqEntry := { e with statusField := e.statusField &&& ~~~1 }

/-- `send_cmd_sync` behind the wait, and the entry for `*result`. -/
def Queue.finish (q : Queue) : Queue × CqEntry :=
  let entry := (q.cq q.cqHead).clearPhase
  ({ q with
     cq := Function.update q.cq q.cqHead entry
     cqHeadDbl := (q.cqHead + 1) % 256
     cqHead := (q.cqHead + 1) % 256 }, entry)

-- ---------------------------------------------------------------------------
-- The controller
-- ---------------------------------------------------------------------------

/-- The next entry to fetch and to post, the commands it works on, and the
phase tag of this pass over the completion queue. -/
structure Controller where
  sqHead : Nat
  cqTail : Nat
  phase : Bool
  pending : List SqEntry

def completion (c : SqEntry) (r : CqEntry) (phase : Bool) : CqEntry :=
  { r with
    cmdIdentifier := c.cdw0.extractLsb' 16 16
    statusField := r.statusField &&& ~~~1 ||| (if phase then 1 else 0) }

/-- Both parties. `waiting` is set while the driver is in its wait;
`submitted` and `posted` record what happened so far. -/
structure System where
  queue : Queue
  ctrl : Controller
  waiting : Bool
  submitted : List SqEntry
  posted : List (SqEntry × CqEntry)

inductive Event where
  | submit (command : SqEntry)
  | fetch
  | post
  | finish (result : CqEntry)

inductive Step : System → Event → System → Prop
  | submit {s : System} (command : SqEntry) (h : s.waiting = false) :
      Step s (.submit command)
        { s with queue := s.queue.submit command, waiting := true, submitted := s.submitted ++ [command] }
  | fetch {s : System} (h : s.ctrl.sqHead ≠ s.queue.sqTailDbl) :
      Step s .fetch
        { s with ctrl := { s.ctrl with
            sqHead := (s.ctrl.sqHead + 1) % 256
            pending := s.ctrl.pending ++ [s.queue.sq s.ctrl.sqHead] } }
  | post {s : System} {c : SqEntry} {rest : List SqEntry} (r : CqEntry) (h : s.ctrl.pending = c :: rest) :
      Step s .post
        { s with
          queue := { s.queue with
            cq := Function.update s.queue.cq s.ctrl.cqTail (completion c r s.ctrl.phase) }
          ctrl := { s.ctrl with
            pending := rest
            cqTail := (s.ctrl.cqTail + 1) % 256
            phase := if s.ctrl.cqTail = 255 then !s.ctrl.phase else s.ctrl.phase }
          posted := s.posted ++ [(c, completion c r s.ctrl.phase)] }
  | finish {s : System} (h : s.waiting = true) (hready : s.queue.ready = true) :
      Step s (.finish s.queue.finish.2) { s with queue := s.queue.finish.1, waiting := false }

def start (sq : Nat → SqEntry) (cq : Nat → CqEntry) : System :=
  { queue := createQueue sq cq
    ctrl := { sqHead := 0, cqTail := 0, phase := true, pending := [] }
    waiting := false
    submitted := []
    posted := [] }

/-- What should hold at any time of a run: between two calls, and in the wait
of the last one that was submitted. -/
structure Agrees (s : System) : Prop where
  idle : s.waiting = false →
    s.queue.sqTail = s.submitted.length % 256 ∧ s.queue.cqHead = s.submitted.length % 256
  ready : s.waiting = true → (s.queue.ready = true ↔ s.posted.length = s.submitted.length)
  entry : s.waiting = true → s.queue.ready = true →
    ∃ c, s.submitted.getLast? = some c ∧ s.posted.getLast? = some (c, s.queue.cq s.queue.cqHead)

variable {s s' : System} {e : Event} {es : List Event} {sq : Nat → SqEntry} {cq : Nat → CqEntry} {K n : Nat}
  {c : SqEntry} {r : CqEntry} {b : Bool}

theorem completion_phase : (completion c r b).phase = b := by
  cases b <;> simp [completion, CqEntry.phase]

-- ---------------------------------------------------------------------------
-- The first pass over the rings
-- ---------------------------------------------------------------------------

/-- The state while at most 256 commands have been sent: the driver is one
call ahead of the controller at most, and slots without a completion hold what
they held at first. -/
structure FirstPass (cq : Nat → CqEntry) (s : System) : Prop where
  le : s.submitted.length ≤ 256
  sqTail : s.queue.sqTail = s.submitted.length % 256
  sqTailDbl : s.queue.sqTailDbl = s.submitted.length % 256
  postedLe : s.posted.length ≤ s.submitted.length
  cqTail : s.ctrl.cqTail = s.posted.length % 256
  phase : s.ctrl.phase = decide (s.posted.length < 256)
  untouched : ∀ j, s.posted.length ≤ j → j < 256 → s.queue.cq j = cq j
  idle : s.waiting = false → s.posted.length = s.submitted.length ∧ s.queue.cqHead = s.submitted.length % 256
  wait : s.waiting = true → s.queue.cqHead + 1 = s.submitted.length
  rest : s.posted.length = s.submitted.length → s.ctrl.pending = [] ∧ s.ctrl.sqHead = s.submitted.length % 256
  done : s.waiting = true → s.posted.length = s.submitted.length → ∃ c, s.submitted.getLast? = some c ∧
    s.posted.getLast? = some (c, s.queue.cq s.queue.cqHead) ∧ (s.queue.cq s.queue.cqHead).phase = true
  work : s.posted.length ≠ s.submitted.length → s.waiting = true ∧ s.posted.length + 1 = s.submitted.length ∧
    ∃ c, s.submitted.getLast? = some c ∧
      (s.ctrl.pending = [] ∧ s.ctrl.sqHead = s.posted.length % 256 ∧ s.queue.sq (s.posted.length % 256) = c ∨
        s.ctrl.pending = [c] ∧ s.ctrl.sqHead = s.submitted.length % 256)

theorem firstPass_start : FirstPass cq (start sq cq) := by
  refine ⟨Nat.zero_le _, rfl, rfl, Nat.le_refl _, rfl, rfl, fun _ _ _ => rfl, fun _ => ⟨rfl, rfl⟩, fun h => ?_, fun _ => ⟨rfl, rfl⟩,
    fun h => ?_, fun h => absurd rfl h⟩
  all_goals cases h

def Clear (cq : Nat → CqEntry) (K : Nat) : Prop := ∀ j < K, (cq j).phase = false

theorem FirstPass.ready_iff (h : FirstPass cq s) (hclear : Clear cq s.submitted.length) (hw : s.waiting = true) :
    s.queue.ready = true ↔ s.posted.length = s.submitted.length := by
  have hhead := h.wait hw
  constructor
  · intro hready
    by_contra hne
    obtain ⟨-, hsucc, -⟩ := h.work hne
    have hle := h.le
    rw [Queue.ready, h.untouched _ (by omega) (by omega), hclear _ (by omega)] at hready
    cases hready
  · intro heq
    obtain ⟨c, -, -, hphase⟩ := h.done hw heq
    exact hphase

theorem FirstPass.agrees (h : FirstPass cq s) (hclear : Clear cq s.submitted.length) : Agrees s := by
  refine ⟨fun hw => ⟨h.sqTail, (h.idle hw).2⟩, h.ready_iff hclear, fun hw hready => ?_⟩
  obtain ⟨c, hc, hposted, -⟩ := h.done hw ((h.ready_iff hclear hw).mp hready)
  exact ⟨c, hc, hposted⟩

theorem FirstPass.step (h : FirstPass cq s) (hclear : Clear cq s.submitted.length) (hstep : Step s e s')
    (hle : s'.submitted.length ≤ 256) : FirstPass cq s' := by
  cases hstep with
  | submit command hw =>
    obtain ⟨heq, hhead⟩ := h.idle hw
    obtain ⟨hpending, hsqHead⟩ := h.rest heq
    simp only [List.length_append, List.length_singleton] at hle
    have hmod : s.submitted.length % 256 = s.submitted.length := Nat.mod_eq_of_lt (by omega)
    refine ⟨by simpa using hle, ?_, ?_, ?_, h.cqTail, h.phase, h.untouched, fun hw' => Bool.noConfusion hw', fun _ => ?_, ?_, ?_, ?_⟩
    · simp only [Queue.submit, h.sqTail, List.length_append, List.length_singleton]
      omega
    · simp only [Queue.submit, h.sqTail, List.length_append, List.length_singleton]
      omega
    · simp only [List.length_append, List.length_singleton]
      omega
    · simp only [Queue.submit, List.length_append, List.length_singleton]
      omega
    · simp only [List.length_append, List.length_singleton]
      omega
    · simp only [List.length_append, List.length_singleton]
      omega
    · intro _
      refine ⟨rfl, by simp [heq], command, by simp, .inl ⟨hpending, ?_, ?_⟩⟩
      · simp only [hsqHead, heq]
      · simp [Queue.submit, h.sqTail, heq]
  | fetch hne =>
    have hwork : s.posted.length ≠ s.submitted.length := fun heq => hne (by rw [(h.rest heq).2, h.sqTailDbl])
    obtain ⟨hw, hsucc, c, hc, ⟨hpending, hsqHead, hsq⟩ | ⟨-, hsqHead⟩⟩ := h.work hwork
    · refine ⟨hle, h.sqTail, h.sqTailDbl, h.postedLe, h.cqTail, h.phase, h.untouched, h.idle, h.wait,
        fun heq => absurd heq hwork, fun _ heq => absurd heq hwork, fun _ => ⟨hw, hsucc, c, hc, .inr ⟨?_, ?_⟩⟩⟩
      · simp only [hpending, hsqHead, hsq, List.nil_append]
      · simp only [hsqHead]
        omega
    · exact absurd (hsqHead.trans h.sqTailDbl.symm) hne
  | @post c rest r hpending =>
    have hwork : s.posted.length ≠ s.submitted.length := fun heq => by
      rw [(h.rest heq).1] at hpending
      cases hpending
    obtain ⟨hw, hsucc, c', hc, ⟨hnil, -⟩ | ⟨hone, hsqHead⟩⟩ := h.work hwork
    · rw [hnil] at hpending
      cases hpending
    have hhead := h.wait hw
    have hlt : s.posted.length < 256 := by have := h.le; omega
    have hmod : s.posted.length % 256 = s.posted.length := Nat.mod_eq_of_lt hlt
    have hphase : s.ctrl.phase = true := by rw [h.phase, decide_eq_true hlt]
    obtain ⟨rfl, rfl⟩ : c' = c ∧ rest = [] := by
      rw [hone] at hpending
      simpa [eq_comm] using hpending
    have hslot : s.queue.cqHead = s.ctrl.cqTail := by rw [h.cqTail, hmod]; omega
    refine ⟨hle, h.sqTail, h.sqTailDbl, ?_, ?_, ?_, ?_, fun hw' => ?_, h.wait, fun _ => ⟨rfl, hsqHead⟩, ?_, ?_⟩
    · simp only [List.length_append, List.length_singleton]
      omega
    · simp only [List.length_append, List.length_singleton, h.cqTail]
      omega
    · simp only [List.length_append, List.length_singleton, h.cqTail, hmod, hphase]
      by_cases hlast : s.posted.length = 255
      · simp [hlast]
      · simp [hlast]
        omega
    · intro j hj hj'
      simp only [List.length_append, List.length_singleton] at hj
      have hne : j ≠ s.ctrl.cqTail := by
        rw [h.cqTail, hmod]
        omega
      exact (Function.update_of_ne hne _ _).trans (h.untouched j (by omega) hj')
    · exact absurd (hw'.symm.trans hw) Bool.false_ne_true
    · intro _ _
      refine ⟨c', hc, ?_, ?_⟩
      · simp [hslot]
      · simp only [hslot, Function.update_self]
        rw [completion_phase, hphase]
    · intro hne
      simp only [List.length_append, List.length_singleton] at hne
      exact absurd hsucc hne
  | finish hw hready =>
    have heq := (h.ready_iff hclear hw).mp hready
    have hhead := h.wait hw
    refine ⟨hle, h.sqTail, h.sqTailDbl, h.postedLe, h.cqTail, h.phase, ?_, fun _ => ⟨heq, ?_⟩, fun hw' => Bool.noConfusion hw', h.rest,
      fun hw' => Bool.noConfusion hw', fun hne => absurd heq hne⟩
    · intro j hj hj'
      have hne : j ≠ s.queue.cqHead := by
        simp only at hj
        omega
      exact (Function.update_of_ne hne _ _).trans (h.untouched j hj hj')
    · simp only [Queue.finish]
      omega

theorem Step.submitted_le (hstep : Step s e s') : s.submitted.length ≤ s'.submitted.length := by
  cases hstep with
  | submit command hw => simp
  | fetch hne => exact Nat.le_refl _
  | post r hpending => exact Nat.le_refl _
  | finish hw hready => exact Nat.le_refl _

theorem Clear.mono (h : Clear cq K) (hn : n ≤ K) : Clear cq n := fun j hj => h j (Nat.lt_of_lt_of_le hj hn)

theorem FirstPass.run (hK : K ≤ 256) (hclear : Clear cq K) (h : Trace Step (start sq cq) es s)
    (hle : s.submitted.length ≤ K) : FirstPass cq s := by
  induction h with
  | nil => exact firstPass_start
  | snoc _ hstep ih =>
    have hbefore := Nat.le_trans hstep.submitted_le hle
    exact (ih hbefore).step (hclear.mono hbefore) hstep (Nat.le_trans hle hK)

theorem exists_call (h : FirstPass cq s) (hidle : s.waiting = false) (c : SqEntry) (r : CqEntry) :
    ∃ s', Trace Step s [.submit c, .fetch, .post] s' ∧ s'.waiting = true ∧ s'.submitted = s.submitted ++ [c] ∧
      s'.posted = s.posted ++ [(c, completion c r s.ctrl.phase)] ∧
      s'.queue.cq s'.queue.cqHead = completion c r s.ctrl.phase := by
  obtain ⟨hposted, hcqHead⟩ := h.idle hidle
  obtain ⟨hpending, hsqHead⟩ := h.rest hposted
  have hslot : s.queue.cqHead = s.ctrl.cqTail := by rw [h.cqTail, hposted, hcqHead]
  have hne : s.ctrl.sqHead ≠ (s.queue.sqTail + 1) % 256 := by
    rw [hsqHead, h.sqTail]
    omega
  have hfetched : s.ctrl.pending ++ [(s.queue.submit c).sq s.ctrl.sqHead] = c :: [] := by
    rw [hpending, hsqHead, ← h.sqTail]
    simp [Queue.submit]
  have hsubmit := Trace.single (Step.submit c hidle)
  refine ⟨_, (hsubmit.snoc (.fetch hne)).snoc (.post r hfetched), rfl, rfl, rfl, ?_⟩
  simp only [Queue.submit, hslot, Function.update_self]

theorem exists_run (sq : Nat → SqEntry) (c : SqEntry) (r : CqEntry) (hn : n ≤ 256) (hclear : Clear cq n) :
    ∃ es s, Trace Step (start sq cq) es s ∧ FirstPass cq s ∧ s.waiting = false ∧ s.submitted.length = n := by
  induction n with
  | zero => exact ⟨[], _, .nil, firstPass_start, rfl, rfl⟩
  | succ n ih =>
    obtain ⟨es, s, hrun, hs, hidle, hlen⟩ := ih (Nat.le_of_succ_le hn) (hclear.mono (Nat.le_succ n))
    obtain ⟨s', hcall, hwait, hsubmitted, -, hentry⟩ := exists_call hs hidle c r
    have hphase : s.ctrl.phase = true := by
      rw [hs.phase, (hs.idle hidle).1]
      exact decide_eq_true (by omega)
    have hready : s'.queue.ready = true := by rw [Queue.ready, hentry, completion_phase, hphase]
    have hrun' := (hrun.append hcall).snoc (.finish hwait hready)
    have hlen' : s'.submitted.length = n + 1 := by rw [hsubmitted, List.length_append, hlen, List.length_singleton]
    exact ⟨_, _, hrun', FirstPass.run hn hclear hrun' (Nat.le_of_eq hlen'), rfl, hlen'⟩

-- ---------------------------------------------------------------------------
-- When the driver and the controller agree
-- ---------------------------------------------------------------------------

theorem not_agrees_of_phase (sq : Nat → SqEntry) (hn : n < 256) (hclear : Clear cq n) (hphase : (cq n).phase = true) :
    ∃ es s, Trace Step (start sq cq) es s ∧ s.submitted.length = n + 1 ∧ ¬Agrees s := by
  obtain ⟨es, s, hrun, hs, hidle, hlen⟩ := exists_run sq (sq 0) (cq 0) (Nat.le_of_lt hn) hclear
  obtain ⟨hposted, hcqHead⟩ := hs.idle hidle
  refine ⟨_, _, hrun.snoc (.submit (sq 0) hidle), by simp [hlen], fun hag => ?_⟩
  have hready : (s.queue.submit (sq 0)).ready = true := by
    change (s.queue.cq s.queue.cqHead).phase = true
    rw [hcqHead, hs.untouched _ (by omega) (by omega), hlen, Nat.mod_eq_of_lt hn, hphase]
  have hlens := (hag.ready rfl).mp hready
  simp only [List.length_append, List.length_singleton] at hlens
  omega

/-- On the second pass the phase tag is inverted: the wait never ends. -/
theorem not_agrees_of_pass (sq : Nat → SqEntry) (hclear : Clear cq 256) :
    ∃ es s, Trace Step (start sq cq) es s ∧ s.submitted.length = 257 ∧ ¬Agrees s := by
  obtain ⟨es, s, hrun, hs, hidle, hlen⟩ := exists_run sq (sq 0) (cq 0) (Nat.le_refl 256) hclear
  obtain ⟨s', hcall, hwait, hsubmitted, hposted, hentry⟩ := exists_call hs hidle (sq 0) (cq 0)
  refine ⟨_, s', hrun.append hcall, by rw [hsubmitted, List.length_append, hlen]; rfl, fun hag => ?_⟩
  have hphase : s.ctrl.phase = false := by rw [hs.phase, (hs.idle hidle).1, hlen]; rfl
  have hready := (hag.ready hwait).mpr (by
    rw [hposted, hsubmitted, List.length_append, List.length_append, (hs.idle hidle).1]
    rfl)
  rw [Queue.ready, hentry, completion_phase, hphase] at hready
  cases hready

/-- The two parties agree in every run of at most `K` calls exactly if these
fit into the first pass and no slot they use looks posted from the start. -/
theorem protocol_iff (sq : Nat → SqEntry) (cq : Nat → CqEntry) (K : Nat) :
    (∀ es s, Trace Step (start sq cq) es s → s.submitted.length ≤ K → Agrees s) ↔
      K ≤ 256 ∧ ∀ j < K, (cq j).phase = false := by
  constructor
  · intro hall
    have hclear : ∀ j, j < K → j < 256 → (cq j).phase = false := by
      intro j
      induction j using Nat.strong_induction_on with
      | _ j ih =>
        intro hjK hj
        by_contra hset
        obtain ⟨es, s, hrun, hlen, hno⟩ := not_agrees_of_phase sq hj
          (fun i hi => ih i hi (Nat.lt_trans hi hjK) (Nat.lt_trans hi hj)) (Bool.not_eq_false _ ▸ hset)
        exact hno (hall es s hrun (hlen ▸ hjK))
    have hK : K ≤ 256 := by
      by_contra hlt
      obtain ⟨es, s, hrun, hlen, hno⟩ := not_agrees_of_pass sq (fun j hj => hclear j (by omega) hj)
      exact hno (hall es s hrun (by omega))
    exact ⟨hK, fun j hj => hclear j hj (by omega)⟩
  · rintro ⟨hK, hclear⟩ es s hrun hle
    exact (FirstPass.run hK hclear hrun hle).agrees (Clear.mono hclear hle)

def zeroSq : SqEntry := ⟨0, 0, 0, 0, 0, 0, 0, 0, 0, 0, 0⟩

def zeroCq : CqEntry := ⟨0, 0, 0, 0, 0⟩

theorem protocol_disagrees : ∃ es s, Trace Step (start (fun _ => zeroSq) fun _ => zeroCq) es s ∧
    s.submitted.length = 257 ∧ ¬Agrees s :=
  not_agrees_of_pass _ fun _ _ => rfl

end ShedOS.Device.Nvme
