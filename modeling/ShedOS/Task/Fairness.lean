import ShedOS.Task.RunQueue

/-!
# Whose turn it is

How long a task waits for the processor, and how long it keeps it. A switch
brings every waiting task one place nearer, a fork puts it one place back, and
a tick switches exactly when more than a second has passed on the timer.
-/

namespace ShedOS.Task

open Bytes Layout Memory Syscall Transition Ring

variable {σ η : Type} {k k' : Kernel σ η} {x y z : Kernel σ η × List U64} {q task₁ : U64} {created : List U64} {d : Nat}
  {e : QueueEvent} {es : List QueueEvent}

-- ---------------------------------------------------------------------------
-- Waiting
-- ---------------------------------------------------------------------------

/-- `q` is `d` switches away, as the links are. -/
def Ahead (x : Kernel σ η × List U64) (q : U64) (d : Nat) : Prop :=
  ∃ l, IsRing x.1.nextTask x.1.currentTask l ∧ (x.1.currentTask :: l).Perm x.2 ∧ (x.1.currentTask :: l)[d]? = some q

def forks (es : List QueueEvent) : Nat := es.count .fork

theorem QueueInv.ahead (h : QueueInv k created) (hq : q ∈ created) :
    ∃ d, d < created.length ∧ k.nextTask^[d] k.currentTask = q ∧ Ahead (k, created) q d := by
  obtain ⟨l, hring, hperm⟩ := h.ring
  obtain ⟨d, hd, hget⟩ := List.getElem_of_mem (hperm.mem_iff.mpr hq)
  have hlen : d < created.length := hperm.length_eq ▸ hd
  refine ⟨d, hlen, ?_, l, hring, hperm, List.getElem?_eq_some_iff.mpr ⟨hd, hget⟩⟩
  have hl := hring.path.iterate.1
  rw [← hget, List.getElem_of_eq hl.symm, List.getElem_iterate]

variable [FrameSource σ] [HeapSource η]

theorem Ahead.step (h : Ahead x q (d + 1)) (hinv : QueueInv x.1 x.2) (hstep : QueueStep x e y)
    (hnot : q ∉ switches [e]) :
    ∃ d', Ahead y q (d' + 1) ∧ d' + (switches [e]).length = d + forks [e] := by
  obtain ⟨l, hring, hperm, hget⟩ := h
  by_cases he : e = .fork
  · subst he
    cases hstep with
    | fork k created frame hfresh =>
      obtain ⟨-, hf⟩ := syscallFork_spec frame hinv.apart hinv.current hfresh
      have hring' : IsRing (syscallFork k frame).1.nextTask k.currentTask (newTask k :: l) := by
        refine hring.insert (fun hmem => (hfresh _ (hperm.mem_iff.mp hmem)).ne rfl) hf.parentLink hf.childLink
          fun q hq => hf.links q (hperm.mem_iff.mp (List.mem_cons_of_mem _ hq)) ?_
        rintro rfl
        exact (List.nodup_cons.mp hring.nodup).1 hq
      refine ⟨d + 1, ⟨newTask k :: l, ?_, ?_, ?_⟩, rfl⟩
      · show IsRing _ (syscallFork k frame).1.currentTask _
        rw [hf.current]
        exact hring'
      · show ((syscallFork k frame).1.currentTask :: _).Perm _
        rw [hf.current]
        exact (List.Perm.swap _ _ _).trans (hperm.cons _)
      · rw [List.getElem?_cons_succ] at hget ⊢
        rw [List.getElem?_cons_succ, hget]
  · obtain ⟨hcreated, hlinks, hmove⟩ := hstep.move hinv he
    have hforks : forks [e] = 0 := List.count_eq_zero.mpr (by simpa using Ne.symm he)
    have hlinks' : ∀ {a l}, IsRing x.1.nextTask a l → (a :: l).Perm x.2 → IsRing y.1.nextTask a l := fun hr hp =>
      hr.congr fun q hq => hlinks q (hp.mem_iff.mp hq)
    rcases hmove with ⟨hnone, hcur⟩ | ⟨hone, hcur⟩
    · refine ⟨d, ⟨l, ?_, ?_, ?_⟩, ?_⟩
      · rw [hcur]
        exact hlinks' hring hperm
      · rw [hcur, hcreated]
        exact hperm
      · rw [hcur]
        exact hget
      · rw [hnone, hforks]
        rfl
    · have hd : d ≠ 0 := fun hd => by
        rw [hone, (hring.next_eq_iff hget).mpr hd] at hnot
        exact hnot List.mem_cons_self
      obtain ⟨d', rfl⟩ := Nat.exists_eq_succ_of_ne_zero hd
      obtain ⟨l', hring', hperm', hget'⟩ := hring.rotate_getElem? hget
      refine ⟨d', ⟨l', ?_, ?_, ?_⟩, ?_⟩
      · rw [hcur]
        exact hlinks' hring' (hperm'.trans hperm)
      · rw [hcur, hcreated]
        exact hperm'.trans hperm
      · rw [hcur]
        exact hget'
      · rw [hone, hforks]
        rfl

theorem Ahead.run (h : Ahead x q (d + 1)) (hinv : QueueInv x.1 x.2) (hrun : Trace QueueStep x es y)
    (hnot : q ∉ switches es) : ∃ d', Ahead y q (d' + 1) ∧ d' + (switches es).length = d + forks es := by
  induction hrun with
  | nil => exact ⟨d, h, rfl⟩
  | @snoc es e y z hrun hstep ih =>
    have happ : switches (es ++ [e]) = switches es ++ switches [e] := List.filterMap_append ..
    rw [happ, List.mem_append, not_or] at hnot
    obtain ⟨d₁, h₁, hsum₁⟩ := ih hnot.1
    obtain ⟨d₂, h₂, hsum₂⟩ := h₁.step (hinv.run hrun) hstep hnot.2
    refine ⟨d₂, h₂, ?_⟩
    have hforks : forks (es ++ [e]) = forks es + forks [e] := List.count_append ..
    rw [happ, List.length_append, hforks]
    omega

/-- A task that is `d` links behind the running one waits for `d` switches, and
one more for each fork in the meantime, no more and no less. -/
theorem waits_exactly {k₀ : Kernel σ η} {task₁ : U64} {events : List QueueEvent} (hself : k₀.nextTask task₁ = task₁)
    (hrun : Trace QueueStep ((schedRun k₀ task₁).1, [task₁]) events (k, created)) (hq : q ∈ created)
    (hne : q ≠ k.currentTask) :
    ∃ d, 0 < d ∧ d < created.length ∧ k.nextTask^[d] k.currentTask = q ∧
      ∀ es y, Trace QueueStep (k, created) es y → q ∉ switches es →
        (switches es).length < d + forks es ∧
        ∀ t z, QueueStep y (.tick (some t)) z → (t = q ↔ (switches es).length + 1 = d + forks es) := by
  have h : QueueInv k created := (queueInv_start k₀ hself).run hrun
  obtain ⟨d, hlen, hreach, hahead⟩ := h.ahead hq
  have hd : d ≠ 0 := fun hd => hne (by rw [← hreach, hd]; rfl)
  obtain ⟨d, rfl⟩ := Nat.exists_eq_succ_of_ne_zero hd
  refine ⟨d + 1, Nat.succ_pos d, hlen, hreach, fun es y hes hnot => ?_⟩
  obtain ⟨d', ⟨l, hring, hperm, hget⟩, hsum⟩ := hahead.run h hes hnot
  refine ⟨by omega, fun t z ht => ?_⟩
  have hy : QueueInv y.1 y.2 := h.run hes
  obtain ⟨-, -, hmove⟩ := ht.move hy (by simp)
  have hnext : t = y.1.nextTask y.1.currentTask := by
    rcases hmove with ⟨hnone, -⟩ | ⟨hone, -⟩
    · cases hnone
    · exact List.singleton_inj.mp hone
  rw [hnext, hring.next_eq_iff hget]
  omega

theorem waits_exactly_small :
    let k := (syscallFork (schedRun oneTask 0x1000).1 0x8000).1
    ∃ d, 0 < d ∧ d < 2 ∧ k.nextTask^[d] k.currentTask = 0x2000 := by
  have hself : oneTask.nextTask 0x1000 = 0x1000 := Mem.read64_write64
  have hinv := queueInv_start oneTask hself
  have hfresh : ∀ q ∈ [(0x1000 : U64)], Apart (newTask (schedRun oneTask 0x1000).1) q := by
    rintro q hq
    rw [List.mem_singleton.mp hq]
    exact .inr (by decide)
  have hcurrent := (syscallFork_spec 0x8000 hinv.apart hinv.current hfresh).2.current
  have hne : (0x2000 : U64) ≠ (syscallFork (schedRun oneTask 0x1000).1 0x8000).1.currentTask := by
    rw [hcurrent]
    decide
  obtain ⟨d, hd, hlen, hreach, -⟩ := waits_exactly hself (.single (.fork _ [0x1000] 0x8000 hfresh)) List.mem_cons_self hne
  exact ⟨d, hd, hlen, hreach⟩

-- ---------------------------------------------------------------------------
-- The quantum
-- ---------------------------------------------------------------------------

/-- The task that runs got the processor at time `t`. -/
def RunsSince (k : Kernel σ η) (t : U64) : Prop := k.get k.currentTask .deadline = t + 1000000

section Deadline

omit [FrameSource σ] [HeapSource η]

theorem runsSince_start (k₀ : Kernel σ η) (task₁ : U64) : RunsSince (schedRun k₀ task₁).1 k₀.timerElapsedUs :=
  Kernel.get_set_same

theorem schedTick_some {k k' : Kernel σ η} {ifr t : U64} (h : schedTick k ifr = (k', some t)) :
    k.timerElapsedUs > k.get k.currentTask .deadline ∧ k'.timerElapsedUs = k.timerElapsedUs ∧
      RunsSince k' k.timerElapsedUs := by
  unfold schedTick timerReadCounter at h
  simp only at h
  split at h
  next htime =>
    obtain ⟨rfl, -⟩ := Prod.mk.inj h
    exact ⟨htime, rfl, Kernel.get_set_same⟩
  next => cases h

theorem schedTick_none {k k' : Kernel σ η} {ifr : U64} (h : schedTick k ifr = (k', none)) :
    ¬ k.timerElapsedUs > k.get k.currentTask .deadline ∧ k' = k := by
  unfold schedTick timerReadCounter at h
  simp only at h
  split at h
  next => cases h
  next htime => exact ⟨htime, (Prod.mk.inj h).1.symm⟩

end Deadline

theorem queueStep_tick {r : Option U64} (hstep : QueueStep x (.tick r) y) :
    ∃ ifr, schedTick x.1 ifr = (y.1, r) ∧ y.2 = x.2 := by
  generalize he : QueueEvent.tick r = e at hstep
  cases hstep with
  | fork k created frame hfresh => cases he
  | other k k' created hcurrent hsame => cases he
  | tick k created ifr =>
    obtain rfl := QueueEvent.tick.inj he
    exact ⟨ifr, rfl, rfl⟩

theorem RunsSince.step {t : U64} (h : RunsSince x.1 t) (hinv : QueueInv x.1 x.2) (hstep : QueueStep x e y)
    (hnone : switches [e] = []) : RunsSince y.1 t := by
  cases e with
  | fork =>
    cases hstep with
    | fork k created frame hfresh =>
      obtain ⟨-, hf⟩ := syscallFork_spec frame hinv.apart hinv.current hfresh
      rw [RunsSince, hf.current, hf.deadlines _ hinv.current]
      exact h
  | tick r =>
    obtain ⟨ifr, hr, -⟩ := queueStep_tick hstep
    cases r with
    | none => rwa [(schedTick_none hr).2]
    | some task => cases hnone
  | other =>
    cases hstep with
    | other k k' created hcurrent hsame =>
      rw [RunsSince, hcurrent]
      exact ((hsame _ hinv.current).read (by decide)).trans h

theorem RunsSince.run {t : U64} (h : RunsSince x.1 t) (hinv : QueueInv x.1 x.2) (hrun : Trace QueueStep x es y)
    (hnone : switches es = []) : RunsSince y.1 t := by
  induction hrun with
  | nil => exact h
  | @snoc es e y z hrun hstep ih =>
    have happ : switches (es ++ [e]) = switches es ++ switches [e] := List.filterMap_append ..
    rw [happ, List.append_eq_nil_iff] at hnone
    exact (ih hnone.1).step (hinv.run hrun) hstep hnone.2

theorem RunsSince.tick {t : U64} {r : Option U64} (h : RunsSince x.1 t) (hstep : QueueStep x (.tick r) y) :
    r.isSome ↔ x.1.timerElapsedUs > t + 1000000 := by
  obtain ⟨ifr, hr, -⟩ := queueStep_tick hstep
  rw [← h]
  cases r with
  | none => exact iff_of_false Bool.false_ne_true (schedTick_none hr).1
  | some task => exact iff_of_true rfl (schedTick_some hr).1

/-- A tick takes the processor away exactly when more than a second has passed
on the timer since the task got it; that is `sched_run` for the first task, and
the switch for the others, whatever their structures held before. -/
theorem quantum_exact {k₀ : Kernel σ η} {task₁ : U64} {events : List QueueEvent} (hself : k₀.nextTask task₁ = task₁)
    (hrun : Trace QueueStep ((schedRun k₀ task₁).1, [task₁]) events x) :
    (switches events = [] → ∀ r y, QueueStep x (.tick r) y →
      (r.isSome ↔ x.1.timerElapsedUs > k₀.timerElapsedUs + 1000000)) ∧
    ∀ t y es z r w, QueueStep x (.tick (some t)) y → Trace QueueStep y es z → switches es = [] →
      QueueStep z (.tick r) w →
        y.1.timerElapsedUs = x.1.timerElapsedUs ∧ (r.isSome ↔ z.1.timerElapsedUs > x.1.timerElapsedUs + 1000000) := by
  have hstart := queueInv_start k₀ hself
  have h : QueueInv x.1 x.2 := hstart.run hrun
  refine ⟨fun hnone r y hy => ?_, fun t y es z r w hy hes hnone hw => ?_⟩
  · have hsince := RunsSince.run (x := ((schedRun k₀ task₁).1, [task₁])) (runsSince_start k₀ task₁) hstart hrun hnone
    exact hsince.tick hy
  · obtain ⟨ifr, hr, -⟩ := queueStep_tick hy
    obtain ⟨-, helapsed, hsince⟩ := schedTick_some hr
    exact ⟨helapsed, (hsince.run (hy.inv h) hes hnone).tick hw⟩

/-- The only task forks. A tick after more than a second switches; the task that
it switches to keeps the processor for a second as well. -/
theorem quantum_exact_small :
    let k := { (syscallFork (schedRun oneTask 0x1000).1 0x8000).1 with timerElapsedUs := 1000001 }
    let next := (schedTick k 0x8000).1
    (schedTick k 0x8000).2.isSome ∧ (schedTick { next with timerElapsedUs := 2000001 } 0x8000).2 = none ∧
      (schedTick { next with timerElapsedUs := 2000002 } 0x8000).2.isSome := by
  intro k next
  have hself : oneTask.nextTask 0x1000 = 0x1000 := Mem.read64_write64
  have hfresh : ∀ q ∈ [(0x1000 : U64)], Apart (newTask (schedRun oneTask 0x1000).1) q := by
    rintro q hq
    rw [List.mem_singleton.mp hq]
    exact .inr (by decide)
  have hlater : ∀ (k : Kernel Bump BumpHeap) (created : List U64) (time : U64),
      QueueStep (k, created) .other ({ k with timerElapsedUs := time }, created) :=
    fun k created time => .other k _ created rfl fun q _ => .refl q k.kmem
  have hrun := (Trace.single (.fork (schedRun oneTask 0x1000).1 [0x1000] 0x8000 hfresh)).snoc (hlater _ _ 1000001)
  obtain ⟨hfirst, hnext⟩ := quantum_exact hself hrun
  have htick : (schedTick k 0x8000).2.isSome := (hfirst rfl _ _ (.tick k _ 0x8000)).mpr (by decide)
  obtain ⟨t, ht⟩ := Option.isSome_iff_exists.mp htick
  have hstep := QueueStep.tick k [newTask (schedRun oneTask 0x1000).1, 0x1000] 0x8000
  rw [ht] at hstep
  have hquantum : ∀ time, (schedTick { next with timerElapsedUs := time } 0x8000).2.isSome ↔ time > 2000001 := fun time =>
    (hnext t _ [.other] _ _ _ hstep (.single (hlater next _ time)) rfl (.tick _ _ 0x8000)).2
  exact ⟨htick, Option.not_isSome_iff_eq_none.mp fun h => absurd ((hquantum _).mp h) (by decide), (hquantum _).mpr (by decide)⟩

end ShedOS.Task
