import ShedOS.Memory.CowEffect
import ShedOS.Memory.Protect

/-!
# Exceptions

`exception_handle`, and which page faults it hands to `cow_copy_on_write`. The
pages that a fork write-protects are those of the user half, chosen by table
indices; the faults that are handled are chosen by `ptr_is_user`.
-/

namespace ShedOS.Interrupts

open Bytes Memory

def EXCEPTION_DB : U64 := 1
def EXCEPTION_PF : U64 := 14

/-- Back to where the exception came from, or in the loop around `hlt`, the
registers printed. -/
inductive Handled (σ : Type)
  | returned (s : Machine σ)
  | halted (s : Machine σ)

variable {σ : Type}

/-- `vmap` is `current_task->vmap`, `faultingAddress` what CR2 holds; `none`
where the copy of the page faults. -/
def exceptionHandle [FrameSource σ] (s : Machine σ) (vmap intNo faultingAddress : U64) : Option (Handled σ) :=
  if intNo = EXCEPTION_PF then
    if ptrIsUser faultingAddress then do
      let (copied, s) ← cowCopyOnWrite s vmap faultingAddress
      if copied then return .returned s
      return .halted s
    else some (.halted s)
  else if intNo = EXCEPTION_DB then some (.returned s)
  else some (.halted s)

/-- The last address that `ptr_is_user` takes for one of a user. -/
def lastUserPtr : Nat := 0x7ffffffffff0

theorem ptrIsUser_iff {v : U64} : ptrIsUser v = true ↔ v.toNat ≤ lastUserPtr := by
  rw [ptrIsUser, decide_eq_true_iff, BitVec.le_def]
  rfl

section Faults

variable [FrameSource σ] {s : Machine σ} {vmap v : U64} {n : Nat}

theorem exceptionHandle_user (h : v.toNat ≤ lastUserPtr) (hp : present (pagingGet s vmap (pageStart v)) = true) :
    exceptionHandle s vmap EXCEPTION_PF v = (cowCopyOnWrite s vmap v).map (.returned ·.2) := by
  rw [exceptionHandle, if_pos rfl, if_pos (ptrIsUser_iff.mpr h), cowCopyOnWrite_present hp]
  cases copyVirtual (cowRemap s vmap v).mem (cowRemap s vmap v).root (pageStart v) kernelCopyVaddr 0x1000 with
  | none => rfl
  | some mem => rfl

theorem exceptionHandle_beyond (h : lastUserPtr < v.toNat) : exceptionHandle s vmap EXCEPTION_PF v = some (.halted s) := by
  rw [exceptionHandle, if_pos rfl, if_neg (fun hv => absurd (ptrIsUser_iff.mp hv) (Nat.not_le.mpr h))]

theorem kernelHalf_beyond (h : kernelHalf v = true) : lastUserPtr < v.toNat := by
  have hle : 256 ≤ vaddrToIndex v 3 := of_decide_eq_true h
  rw [vaddrToIndex_eq] at hle
  unfold lastUserPtr
  omega

/-- The page of `v` is present, and as `paging_make_readonly` left it. -/
def Protected (s : Machine σ) (n : Nat) (v : U64) : Prop :=
  present (pagingGet s (framePtr n) v) = true ∧ ∃ t : Machine σ, MadeReadonly t (pagingMakeReadonly t (framePtr n)) n ∧
    pagingGet s (framePtr n) v = pagingGet (pagingMakeReadonly t (framePtr n)) (framePtr n) v

end Faults

-- ---------------------------------------------------------------------------
-- Which faults are handled
-- ---------------------------------------------------------------------------

variable {s : Machine Pmm} {label : Labels} {k n : Nat} {v : U64}

/-- A write fault at `v`, a page of the task whose table is in frame `n`: a
protected page is copied and the task goes on, unless frames run out; for the
kernel's half nothing of this happens. -/
structure HandlesFault (s : Machine Pmm) (n : Nat) (v : U64) : Prop where
  user : v.toNat < 2 ^ 47 → Protected s n v →
    exceptionHandle s (framePtr n) EXCEPTION_PF v = (cowCopyOnWrite s (framePtr n) v).map (.returned ·.2) ∧
      (Served s (cowRemap s (framePtr n) v) → ∃ s', exceptionHandle s (framePtr n) EXCEPTION_PF v = some (.returned s'))
  kernel : kernelHalf v = true → ∀ s', exceptionHandle s (framePtr n) EXCEPTION_PF v ≠ some (.returned s')

theorem kernelHalf_user (h : v.toNat < 2 ^ 47) : kernelHalf v = false := by
  refine decide_eq_false ?_
  rw [vaddrToIndex_eq]
  omega

theorem not_handlesFault (hp : Protected s n v) (hlast : lastUserPtr < v.toNat) (hv : v.toNat < 2 ^ 47) :
    ¬ HandlesFault s n v := by
  intro h
  have hcow := (h.user hv hp).1
  rw [exceptionHandle_beyond hlast] at hcow
  obtain ⟨_, -, he⟩ := Option.map_eq_some_iff.mp hcow.symm
  cases he

theorem handlesFault_of_le (h : Backed k s label) (hn : label n = some ⟨n, []⟩) (hroot : s.root = n)
    (hle : Protected s n v → v.toNat < 2 ^ 47 → v.toNat ≤ lastUserPtr) : HandlesFault s n v where
  user hv hp := by
    have hnb := h.forest.bound n _ hn
    have hpresent : present (lookup s.mem n v) = true := by
      rw [← pagingGet_lookup hnb]
      exact hp.1
    have hpage : present (pagingGet s (framePtr n) (pageStart v)) = true := by
      rw [pagingGet_lookup hnb, lookup_of_page pageOf_pageStart, hpresent]
    have hcow := exceptionHandle_user (hle hp hv) hpage
    refine ⟨hcow, fun hs => ?_⟩
    obtain ⟨s', f, new, label', hc⟩ := cow_call h hn hroot (kernelHalf_user hv) hpresent hs
    rw [hc.call] at hcow
    exact ⟨s', hcow⟩
  kernel hv s' hs' := by
    rw [exceptionHandle_beyond (kernelHalf_beyond hv)] at hs'
    cases hs'

theorem exceptionHandle_covers_iff (h : Backed k s label) (hn : label n = some ⟨n, []⟩) (hroot : s.root = n) :
    HandlesFault s n v ↔ ¬ (Protected s n v ∧ lastUserPtr < v.toNat ∧ v.toNat < 2 ^ 47) :=
  ⟨fun hh ⟨hp, hlast, hv⟩ => not_handlesFault hp hlast hv hh,
    fun hno => handlesFault_of_le h hn hroot fun hp hv => Nat.le_of_not_lt fun hlast => hno ⟨hp, hlast, hv⟩⟩

theorem protected_makeReadonly (h : Backed k s label) (hn : label n = some ⟨n, []⟩) (hv : kernelHalf v = false)
    (hp : present (pagingGet s (framePtr n) v) = true) : Protected (pagingMakeReadonly s (framePtr n)) n v := by
  have hnb := h.forest.bound n _ hn
  have hdone := make_readonly_exact s hnb (h.forest.tablesApart hn) fun w hw => by
    rw [meetsHuge_eq hnb]
    exact h.windows n w hn (not_inWindow_user hw)
  refine ⟨?_, s, hdone, rfl⟩
  rw [hdone.user v hv, ← hp]
  exact present_readonly

theorem exceptionHandle_covers_iff_small : ∃ (s : Machine Pmm) (n : Nat), Protected s n 0x400123 ∧
    (HandlesFault s n 0x400123 ↔
      ¬ (Protected s n 0x400123 ∧ lastUserPtr < (0x400123 : U64).toNat ∧ (0x400123 : U64).toNat < 2 ^ 47)) := by
  obtain ⟨s, k, n, f, label, ⟨h, hn⟩, hroot, -, -, -, hget, -⟩ := mapped_entry_small 7
  have hp : present (pagingGet s (framePtr n) 0x400123) = true := by
    rw [pagingGet_lookup (h.forest.bound n _ hn), hget]
    exact present_dataEntry
  have hdone := protects h hn
  refine ⟨_, n, protected_makeReadonly h hn (by decide) hp, exceptionHandle_covers_iff hdone.backed hn ?_⟩
  rw [hdone.others]
  exact hroot

theorem exceptionHandle_misses_stack : ∃ (s : Machine Pmm) (n : Nat), Protected s n 0x7fffffffffff ∧
    exceptionHandle s (framePtr n) EXCEPTION_PF 0x7fffffffffff = some (.halted s) ∧ ¬ HandlesFault s n 0x7fffffffffff := by
  obtain ⟨s, k, n, f, label, ⟨h, hn⟩, -, -, -, -, hget, -⟩ :=
    mapped_page_small 0x7ffffffff000 0x7fffffffffff (by decide) (by decide) 7
  have hp : present (pagingGet s (framePtr n) 0x7fffffffffff) = true := by
    rw [pagingGet_lookup (h.forest.bound n _ hn), hget]
    exact present_dataEntry
  have hprotected := protected_makeReadonly h hn (by decide) hp
  exact ⟨_, n, hprotected, exceptionHandle_beyond (by decide), not_handlesFault hprotected (by decide) (by decide)⟩

end ShedOS.Interrupts
