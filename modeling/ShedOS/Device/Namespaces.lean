import ShedOS.Device.Nvme
import ShedOS.Memory.AddrUtil

/-!
# Namespaces

`namespaces_identify` registers a drive for each active namespace and creates
its I/O queue. The driver keeps the rings and doorbells of a queue; the
controller keeps the rings it was told to use, by queue identifier, and rejects
an identifier that is in use.
-/

namespace ShedOS.Device.Nvme

open Memory

/-- What `palloc` and `pfree` ask for pages. -/
class PageSource (σ : Type) where
  palloc : Nat → σ → U64 × σ
  pfree : U64 → Nat → σ → σ

structure IoQueue where
  id : BitVec 32
  sqTail : BitVec 32
  cqHead : BitVec 32
  sq : U64
  cq : U64
  sqTailDbl : U64
  cqHeadDbl : U64
  deriving DecidableEq, Repr

def IoQueue.zero : IoQueue := ⟨0, 0, 0, 0, 0, 0, 0⟩

structure NamespaceId where
  flbas : BitVec 8
  lbads : List (BitVec 8)

structure NvmeDrive where
  nsid : BitVec 32
  ioQueue : IoQueue
  id : U64
  deriving DecidableEq, Repr

structure BlockDrive where
  blockSize : U64
  data : NvmeDrive
  deriving DecidableEq, Repr

inductive DeviceClass where
  | kernel
  | drive
  deriving DecidableEq, Repr

structure DeviceRecord where
  cls : DeviceClass
  id : Nat
  data : Option BlockDrive
  deriving DecidableEq, Repr

structure Regs where
  base : U64
  cap : U64

-- ---------------------------------------------------------------------------
-- The controller's side
-- ---------------------------------------------------------------------------

structure Rings where
  cqs : BitVec 16 → Option U64
  sqs : BitVec 16 → Option U64

def Rings.reset : Rings := ⟨fun _ => none, fun _ => none⟩

def SqEntry.opcode (c : SqEntry) : BitVec 8 := c.cdw0.extractLsb' 0 8

def SqEntry.queueId (c : SqEntry) : BitVec 16 := c.cdw10.extractLsb' 0 16

/-- What an admin command does to the I/O queues. Identifier 0 is that of the
admin queue; a submission queue needs its completion queue. -/
def Rings.execute (r : Rings) (c : SqEntry) : Rings :=
  if c.opcode = 0x5 then
    if c.queueId = 0 ∨ (r.cqs c.queueId).isSome then r
    else { r with cqs := Function.update r.cqs c.queueId (some c.prp1) }
  else if c.opcode = 0x1 then
    if c.queueId = 0 ∨ (r.sqs c.queueId).isSome ∨ (r.cqs (c.cdw11.extractLsb' 16 16)).isNone then r
    else { r with sqs := Function.update r.sqs c.queueId (some c.prp1) }
  else r

-- ---------------------------------------------------------------------------
-- The driver's side
-- ---------------------------------------------------------------------------

def doorbellStride (regs : Regs) : BitVec 32 := 1 <<< (2 + (regs.cap >>> 32 &&& 0xf).toNat)

def createCompletionQueue (cq : U64) : SqEntry :=
  { cdw0 := 0x5, nsid := 0, mptr := 0
    prp1 := addrEnsureLower cq >>> 0
    prp2 := addrEnsureLower cq >>> 32
    cdw10 := 1 <<< 0 ||| 255 <<< 16
    cdw11 := 1 <<< 0 ||| 0 <<< 1 ||| 0 <<< 16
    cdw12 := 0, cdw13 := 0, cdw14 := 0, cdw15 := 0 }

def createSubmissionQueue (sq : U64) : SqEntry :=
  { cdw0 := 0x1, nsid := 0, mptr := 0
    prp1 := addrEnsureLower sq >>> 0
    prp2 := addrEnsureLower sq >>> 32
    cdw10 := 1 <<< 0 ||| 255 <<< 16
    cdw11 := 1 <<< 0 ||| 1 <<< 16
    cdw12 := 0, cdw13 := 0, cdw14 := 0, cdw15 := 0 }

def identifyCommand (buf : U64) (cns nsid : BitVec 32) : SqEntry :=
  { cdw0 := 0x06, nsid, mptr := 0
    prp1 := addrEnsureLower buf
    prp2 := 0
    cdw10 := cns
    cdw11 := 0, cdw12 := 0, cdw13 := 0, cdw14 := 0, cdw15 := 0 }

section Driver

variable {σ : Type} [PageSource σ]

def createIoQueue (regs : Regs) (queue : IoQueue) (a : σ) : IoQueue × σ :=
  let (sq, a) := PageSource.palloc (64 * 256 / 0x1000) a
  let (cq, a) := PageSource.palloc (16 * 256 / 0x1000) a
  ({ queue with
     sq, cq
     sqTail := 0
     cqHead := 0
     sqTailDbl := regs.base + 0x1000 + ((2 * 1 + 0) * doorbellStride regs).zeroExtend 64
     cqHeadDbl := regs.base + 0x1000 + ((2 * 1 + 1) * doorbellStride regs).zeroExtend 64 }, a)

/-- `device_register`; `none` is the panic when all slots are taken. -/
def deviceRegister (devices : List (Option DeviceRecord)) : Option Nat := devices.findIdx? Option.isNone

/-- A registered drive with the create-queue commands that were sent for it. -/
structure Registered where
  drive : NvmeDrive
  createCq : SqEntry
  createSq : SqEntry

structure Namespaces (σ : Type) where
  devices : List (Option DeviceRecord)
  rings : Rings
  pages : σ
  drives : List Registered

def registerNamespace (regs : Regs) (identify : BitVec 32 → NamespaceId) (nsid : BitVec 32)
    (s : Namespaces σ) : Option (Namespaces σ) := do
  let id ← deviceRegister s.devices
  let (ioQueue, pages) := createIoQueue regs .zero s.pages
  let createCq := createCompletionQueue ioQueue.cq
  let createSq := createSubmissionQueue ioQueue.sq
  let rings := (s.rings.execute createCq).execute createSq
  let (page, pages) := PageSource.palloc 1 pages
  let rings := rings.execute (identifyCommand page 0 nsid)
  let current := (identify nsid).lbads.getD ((identify nsid).flbas &&& 0x3).toNat 0
  let drive : NvmeDrive := { nsid, ioQueue, id := page }
  let data : BlockDrive := { blockSize := (1#32 <<< current.toNat).signExtend 64, data := drive }
  return { devices := s.devices.set id (some { cls := .drive, id, data := some data })
           rings, pages
           drives := s.drives ++ [{ drive, createCq, createSq }] }

/-- The loop, over what the page of identifiers holds: it ends at a 0. -/
def namespacesLoop (regs : Regs) (identify : BitVec 32 → NamespaceId) :
    (nsids : List (BitVec 32)) → Namespaces σ → Option (Namespaces σ)
  | [], s => some s
  | nsid :: rest, s =>
    if nsid = 0 then some s
    else do
      let s ← registerNamespace regs identify nsid s
      namespacesLoop regs identify rest s

/-- `namespaces_identify`, where the controller reports `nsids`. -/
def namespacesIdentify (regs : Regs) (identify : BitVec 32 → NamespaceId) (nsids : List (BitVec 32))
    (devices : List (Option DeviceRecord)) (rings : Rings) (pages : σ) : Option (Namespaces σ) := do
  let (buf, pages) := PageSource.palloc 1 pages
  let rings := rings.execute (identifyCommand buf 2 0)
  let s ← namespacesLoop regs identify nsids { devices, rings, pages, drives := [] }
  return { s with pages := PageSource.pfree buf 1 s.pages }

end Driver

def activeNamespaces (nsids : List (BitVec 32)) : List (BitVec 32) := nsids.takeWhile (· ≠ 0)

-- ---------------------------------------------------------------------------
-- One queue for each drive
-- ---------------------------------------------------------------------------

/-- No two drives share a queue identifier or a doorbell, and for each drive
the controller uses the rings the driver uses. -/
structure OwnQueues (rings : Rings) (drives : List Registered) : Prop where
  ids : drives.Pairwise fun a b => a.createSq.queueId ≠ b.createSq.queueId ∧
    a.createCq.queueId ≠ b.createCq.queueId
  doorbells : drives.Pairwise fun a b => a.drive.ioQueue.sqTailDbl ≠ b.drive.ioQueue.sqTailDbl ∧
    a.drive.ioQueue.cqHeadDbl ≠ b.drive.ioQueue.cqHeadDbl
  rings : ∀ d ∈ drives,
    rings.sqs d.createSq.queueId = some (addrEnsureLower d.drive.ioQueue.sq) ∧
      rings.cqs d.createCq.queueId = some (addrEnsureLower d.drive.ioQueue.cq)

section Runs

variable {σ : Type} [PageSource σ] {regs : Regs} {identify : BitVec 32 → NamespaceId} {nsid : BitVec 32}
  {nsids : List (BitVec 32)} {devices : List (Option DeviceRecord)} {rings : Rings} {pages : σ}
  {s s' : Namespaces σ}

structure Registered.Made (regs : Regs) (d : Registered) : Prop where
  createCq : d.createCq = createCompletionQueue d.drive.ioQueue.cq
  createSq : d.createSq = createSubmissionQueue d.drive.ioQueue.sq
  sqTailDbl : d.drive.ioQueue.sqTailDbl =
    regs.base + 0x1000 + ((2 * 1 + 0) * doorbellStride regs).zeroExtend 64
  cqHeadDbl : d.drive.ioQueue.cqHeadDbl =
    regs.base + 0x1000 + ((2 * 1 + 1) * doorbellStride regs).zeroExtend 64

theorem createCompletionQueue_queueId (cq : U64) : (createCompletionQueue cq).queueId = 1 := by
  simp only [SqEntry.queueId, createCompletionQueue]
  decide

theorem createSubmissionQueue_queueId (sq : U64) : (createSubmissionQueue sq).queueId = 1 := by
  simp only [SqEntry.queueId, createSubmissionQueue]
  decide

theorem Registered.Made.ids {d : Registered} (h : d.Made regs) :
    d.createSq.queueId = 1 ∧ d.createCq.queueId = 1 :=
  ⟨h.createSq ▸ createSubmissionQueue_queueId _, h.createCq ▸ createCompletionQueue_queueId _⟩

theorem registerNamespace_spec (h : registerNamespace regs identify nsid s = some s') :
    ∃ d : Registered, d.Made regs ∧ d.drive.nsid = nsid ∧ s'.drives = s.drives ++ [d] ∧
      s'.rings = (s.rings.execute d.createCq).execute d.createSq ∧
      ∃ k, deviceRegister s.devices = some k ∧ ∃ b : BlockDrive, b.data = d.drive ∧
        s'.devices = s.devices.set k (some ⟨.drive, k, some b⟩) := by
  obtain ⟨k, hk, h⟩ := Option.bind_eq_some_iff.mp h
  obtain rfl := Option.some.inj h
  exact ⟨_, ⟨rfl, rfl, rfl, rfl⟩, rfl, rfl, rfl, k, hk, _, rfl, rfl⟩

theorem namespacesLoop_spec :
    ∀ {nsids : List (BitVec 32)} {s : Namespaces σ}, namespacesLoop regs identify nsids s = some s' →
      ∃ ds : List Registered, s'.drives = s.drives ++ ds ∧ (∀ d ∈ ds, d.Made regs) ∧
        ds.map (·.drive.nsid) = activeNamespaces nsids ∧
        s'.rings = ds.foldl (fun r d => (r.execute d.createCq).execute d.createSq) s.rings := by
  intro nsids
  induction nsids with
  | nil =>
    intro s h
    obtain rfl := Option.some.inj h
    exact ⟨[], by simp, by simp, rfl, rfl⟩
  | cons nsid rest ih =>
    intro s h
    by_cases h0 : nsid = 0
    · simp only [namespacesLoop, h0, if_true] at h
      obtain rfl := Option.some.inj h
      exact ⟨[], by simp, by simp, by simp [activeNamespaces, h0], rfl⟩
    · simp only [namespacesLoop, h0, if_false] at h
      obtain ⟨s₁, hone, hrest⟩ := Option.bind_eq_some_iff.mp h
      obtain ⟨d, hmade, hnsid, hdrives, hrings, -⟩ := registerNamespace_spec hone
      obtain ⟨ds, hds, hall, hids, hfold⟩ := ih hrest
      refine ⟨d :: ds, ?_, ?_, ?_, ?_⟩
      · rw [hds, hdrives, List.append_assoc, List.singleton_append]
      · exact List.forall_mem_cons.mpr ⟨hmade, hall⟩
      · rw [List.map_cons, hnsid, hids, activeNamespaces, activeNamespaces,
          List.takeWhile_cons_of_pos (by simpa using h0)]
      · rw [hfold, hrings, List.foldl_cons]

theorem namespacesIdentify_spec
    (h : namespacesIdentify regs identify nsids devices rings pages = some s) :
    (∀ d ∈ s.drives, d.Made regs) ∧ s.drives.map (·.drive.nsid) = activeNamespaces nsids ∧
      s.rings = s.drives.foldl (fun r d => (r.execute d.createCq).execute d.createSq) rings := by
  obtain ⟨s₁, hloop, h⟩ := Option.bind_eq_some_iff.mp h
  obtain rfl := Option.some.inj h
  obtain ⟨ds, hds, hall, hids, hfold⟩ := namespacesLoop_spec hloop
  obtain rfl : s₁.drives = ds := by simpa using hds
  exact ⟨hall, hids, hfold⟩

theorem execute_createCompletionQueue (cq : U64) : Rings.reset.execute (createCompletionQueue cq) =
    { Rings.reset with cqs := Function.update Rings.reset.cqs 1 (some (addrEnsureLower cq)) } := by
  have hop : (createCompletionQueue cq).opcode = 0x5 := by
    simp only [SqEntry.opcode, createCompletionQueue]
    decide
  simp only [Rings.execute, hop, createCompletionQueue_queueId, if_true]
  rfl

theorem execute_createSubmissionQueue (r : Rings) (sq : U64) (hcq : (r.cqs 1).isSome) (hsq : r.sqs 1 = none) :
    r.execute (createSubmissionQueue sq) =
      { r with sqs := Function.update r.sqs 1 (some (addrEnsureLower sq)) } := by
  have hop : (createSubmissionQueue sq).opcode = 0x1 := by
    simp only [SqEntry.opcode, createSubmissionQueue]
    decide
  have hcqid : (createSubmissionQueue sq).cdw11.extractLsb' 16 16 = 1 := by
    simp only [createSubmissionQueue]
    decide
  obtain ⟨ring, hring⟩ := Option.isSome_iff_exists.mp hcq
  simp only [Rings.execute, hop, createSubmissionQueue_queueId, hcqid, hsq, hring]
  rfl

theorem Registered.Made.told {d : Registered} (h : d.Made regs) :
    ((Rings.reset.execute d.createCq).execute d.createSq).sqs d.createSq.queueId =
        some (addrEnsureLower d.drive.ioQueue.sq) ∧
      ((Rings.reset.execute d.createCq).execute d.createSq).cqs d.createCq.queueId =
        some (addrEnsureLower d.drive.ioQueue.cq) := by
  rw [h.ids.1, h.ids.2, h.createCq, execute_createCompletionQueue, h.createSq,
    execute_createSubmissionQueue _ _ rfl rfl]
  exact ⟨by simp, by simp⟩

/-- Every queue is created with identifier 1 and its doorbells, so the drives
have queues of their own exactly if there is at most one. -/
theorem own_queues_iff
    (h : namespacesIdentify regs identify nsids devices .reset pages = some s) :
    OwnQueues s.rings s.drives ↔ (activeNamespaces nsids).length ≤ 1 := by
  obtain ⟨hall, hids, hfold⟩ := namespacesIdentify_spec h
  rw [← hids, List.length_map]
  generalize s.drives = ds at hall hfold ⊢
  constructor
  · intro hown
    match ds, hall, hown with
    | [], _, _ => exact Nat.zero_le _
    | [_], _, _ => exact Nat.le_refl _
    | a :: b :: rest, hall, hown =>
      have hne := (List.pairwise_cons.mp hown.ids).1 b List.mem_cons_self
      have ha := (hall a List.mem_cons_self).ids.1
      have hb := (hall b (List.mem_cons_of_mem _ List.mem_cons_self)).ids.1
      exact absurd (ha.trans hb.symm) hne.1
  · intro hlen
    match ds, hall, hfold, hlen with
    | [], _, _, _ => exact ⟨.nil, .nil, by simp⟩
    | [d], hall, hfold, _ =>
      refine ⟨List.pairwise_singleton _ _, List.pairwise_singleton _ _, fun d' hd' => ?_⟩
      obtain rfl := List.mem_singleton.mp hd'
      rw [hfold]
      exact (hall d' List.mem_cons_self).told

end Runs

-- ---------------------------------------------------------------------------
-- Two namespaces
-- ---------------------------------------------------------------------------

/-- Pages one after the other. -/
instance : PageSource Nat where
  palloc n next := (addrOffsetHigher (BitVec.ofNat 64 (0x1000 * next)), next + n)
  pfree _ _ next := next

def sampleRegs : Regs := ⟨0xffff8000fe000000, 0⟩

def sampleIdentify (nsids : List (BitVec 32)) : Option (Namespaces Nat) :=
  namespacesIdentify sampleRegs (fun _ => ⟨0, [9]⟩) nsids (List.replicate 255 none) .reset 0x100

theorem own_queues_two : ∃ s, sampleIdentify [1, 2, 0] = some s ∧ ¬ OwnQueues s.rings s.drives := by
  obtain ⟨s, hs⟩ : ∃ s, sampleIdentify [1, 2, 0] = some s := ⟨_, rfl⟩
  refine ⟨s, hs, fun h => ?_⟩
  have hids := (namespacesIdentify_spec hs).2.1
  have hall := (namespacesIdentify_spec hs).1
  obtain ⟨ds, hds⟩ : ∃ ds, s.drives = ds := ⟨_, rfl⟩
  rw [hds] at h hids hall
  match ds, hids, hall, h with
  | a :: b :: rest, _, hall, h =>
    have hne := (List.pairwise_cons.mp h.ids).1 b List.mem_cons_self
    have ha := (hall a List.mem_cons_self).ids.1
    have hb := (hall b (List.mem_cons_of_mem _ List.mem_cons_self)).ids.1
    exact hne.1 (ha.trans hb.symm)
  | [_], hids, _, _ => simp [activeNamespaces] at hids
  | [], hids, _, _ => simp [activeNamespaces] at hids

theorem own_queues_one : ∃ s, sampleIdentify [1, 0] = some s ∧
    (OwnQueues s.rings s.drives ↔ (activeNamespaces [1, 0]).length ≤ 1) := by
  obtain ⟨s, hs⟩ : ∃ s, sampleIdentify [1, 0] = some s := ⟨_, rfl⟩
  exact ⟨s, hs, own_queues_iff hs⟩

end ShedOS.Device.Nvme
