import ShedOS.Memory.PmmRuns

/-!
# The search hint

`last_free` is compared with and set to byte addresses by a release, and to
frame indices by a request, and a request that passes over a short gap moves it
past that gap. Frames behind the hint are not found again; this module says
exactly when that costs a request its answer.
-/

namespace ShedOS.Memory

open Ranges
open Relation (ReflTransGen)

variable {s s₀ s' : Pmm} {out : Ledger} {mmap : List MmapEntry} {count p : Nat}

/-- A NULL answer means that there is no such run of free frames. -/
def Pmm.Complete (s : Pmm) (count : Nat) : Prop :=
  ∀ s', pmmRequestPages s count = some (0, s') →
    ∀ p, p + count ≤ s.frames → ¬ s.FreeRun p count

/-- A run of `count` free frames behind the hint has a companion in front of
it, and the first fit is not frame 0, whose address is NULL. -/
structure Pmm.HintCovers (s : Pmm) (count : Nat) : Prop where
  ahead : (∃ p, p < s.lastFree ∧ p + count ≤ s.frames ∧ s.FreeRun p count) →
    ∃ p, s.lastFree ≤ p ∧ p + count ≤ s.frames ∧ s.FreeRun p count
  notNull : s.lastFree = 0 → ¬ s.FreeRun 0 count

theorem complete_of_covers (hw : s.Walled) (hcount : 1 ≤ count) (hc : s.HintCovers count) :
    s.Complete count := by
  intro s' hnull p hp hrun
  have hahead : ∃ p, s.lastFree ≤ p ∧ p + count ≤ s.frames ∧ s.FreeRun p count := by
    by_cases hlt : p < s.lastFree
    · exact hc.ahead ⟨p, hlt, hp, hrun⟩
    · exact ⟨p, by omega, hp, hrun⟩
  obtain ⟨r, hr, hrle, hrrun⟩ := hahead
  rcases pmmRequestPages_cases count hw with
    ⟨q, t, hreq, hq, -, hqrun, -⟩ | ⟨hreq, hnone⟩
  · have hq0 : 0x1000 * q = 0 := (Prod.mk.inj (Option.some.inj (hreq.symm.trans hnull))).1
    obtain rfl : q = 0 := by omega
    exact hc.notNull (by omega) hqrun
  · exact hnone r hr (by omega) hrrun

theorem covers_of_complete (hw : s.Walled) (hc : s.Complete count) :
    s.HintCovers count := by
  rcases pmmRequestPages_cases count hw with
    ⟨q, t, hreq, hq, hlt, hqrun, hmin, -⟩ | ⟨hreq, hnone⟩
  · refine ⟨fun _ => ⟨q, hq, hw.freeRun_le (Nat.le_of_lt hlt) hqrun, hqrun⟩, fun hhint hrun => ?_⟩
    -- with the hint at 0 the first fit is frame 0 itself
    have hq0 : q = 0 := by
      by_contra hne
      exact hmin 0 (by omega) (by omega) hrun
    subst hq0
    exact hc t hreq 0 (hw.freeRun_le (Nat.zero_le _) hrun) hrun
  · refine ⟨fun ⟨p, _, hp, hrun⟩ => absurd hrun (hc s hreq p hp), fun _ hrun => ?_⟩
    exact hc s hreq 0 (hw.freeRun_le (Nat.zero_le _) hrun) hrun

/-- In every state of every run, and for every request: a NULL answer means
that there is no such run of free frames exactly when the hint covers it. -/
theorem pmm_complete_iff_covers (hm : UsableMap mmap) (hinit : pmmInitialize mmap = some s₀)
    (hrun : ReflTransGen PmmStep (s₀, []) (s, out)) (hcount : 1 ≤ count) :
    s.Complete count ↔ s.HintCovers count :=
  have hw := (PmmInv.run hm hinit hrun).walled
  ⟨covers_of_complete hw, complete_of_covers hw hcount⟩

/-- `smallPmm` after a request for one frame, after its release, and after one
and two more requests for one frame. -/
def afterFirst : Pmm := { smallPmm with pageBitmap.bytes := [0xf3#8], lastFree := 2, freeMemory := 0x2000 }
def afterRelease : Pmm := { smallPmm with lastFree := 2 }
def afterSecond : Pmm := { smallPmm with pageBitmap.bytes := [0xf5#8], lastFree := 3, freeMemory := 0x2000 }
def afterThird : Pmm := { smallPmm with pageBitmap.bytes := [0xfd#8], lastFree := 4, freeMemory := 0x1000 }

theorem afterRelease_run : ReflTransGen PmmStep (smallPmm, []) (afterRelease, [⟨1, 0⟩, ⟨2, 0⟩]) := by
  have hrequest : PmmStep (smallPmm, []) (afterFirst, [⟨1, 1⟩]) :=
    .granted (by decide) (by decide)
  have hrelease : PmmStep (afterFirst, [⟨1, 1⟩]) (afterRelease, [⟨1, 0⟩, ⟨2, 0⟩]) :=
    @PmmStep.release afterFirst afterRelease [] [] ⟨1, 1⟩ ⟨1, 1⟩ ⟨Nat.le_refl _, Nat.le_refl _⟩ (by decide)
  exact .tail (.single hrequest) hrelease

theorem pmm_complete_iff_covers_small : afterRelease.Complete 2 := by
  have hrun : afterRelease.FreeRun 2 2 := by
    unfold Pmm.FreeRun
    decide
  refine (pmm_complete_iff_covers smallMap_usable smallMap_init afterRelease_run (by decide)).mpr
    ⟨fun _ => ⟨2, by decide, by decide, hrun⟩, fun hhint => ?_⟩
  contradiction

/-- Take a frame, give it back, take the other two: frame 1 is free again, the
hint stands behind it, and the next request fails. -/
theorem pmm_forgets_released_frame :
    ∃ s out, ReflTransGen PmmStep (smallPmm, []) (s, out) ∧ ¬ s.Complete 1 := by
  have hsecond : PmmStep (afterRelease, [⟨1, 0⟩, ⟨2, 0⟩]) (afterSecond, [⟨2, 1⟩, ⟨1, 0⟩, ⟨2, 0⟩]) :=
    .granted (by decide) (by decide)
  have hthird : PmmStep (afterSecond, [⟨2, 1⟩, ⟨1, 0⟩, ⟨2, 0⟩])
      (afterThird, [⟨3, 1⟩, ⟨2, 1⟩, ⟨1, 0⟩, ⟨2, 0⟩]) :=
    .granted (by decide) (by decide)
  refine ⟨afterThird, _, (afterRelease_run.tail hsecond).tail hthird, fun hc => ?_⟩
  refine hc afterThird (by decide) 1 (by decide) ?_
  intro j hj
  obtain rfl : j = 0 := by omega
  show afterThird.bit 1 = false
  decide

end ShedOS.Memory
