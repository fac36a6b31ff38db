import Mathlib.Data.List.Induction
import Mathlib.Tactic.TypeStar

/-!
# A cache beside a machine

A program runs on a machine whose state says what each page stands for. At any
moment between its steps a cache may load the entry of a page; a step of the
program may flush one. What the cache holds of a page in the end was loaded
last, or was there before and never flushed.
-/

namespace Cache

variable {σ α π ε : Type*}

/-- A machine, the pages its steps flush, and the entries of its pages. Only a
valid entry is ever held. -/
structure Translation (σ α π ε : Type*) where
  run : σ → α → σ
  flushes : α → Option π
  entry : σ → π → ε
  valid : ε → Bool

inductive Event (α π : Type*) where
  | step (a : α)
  | load (p : π)

structure Cached (σ π ε : Type*) where
  machine : σ
  held : π → Option ε

/-- The program of an interleaving. -/
def steps (events : List (Event α π)) : List α :=
  events.filterMap fun
    | .step a => some a
    | .load _ => none

theorem steps_append {es es' : List (Event α π)} : steps (es ++ es') = steps es ++ steps es' :=
  List.filterMap_append

theorem steps_map {as : List α} : steps (as.map Event.step : List (Event α π)) = as := by
  rw [steps, List.filterMap_map]
  exact List.filterMap_some

namespace Translation

variable [DecidableEq π] (T : Translation σ α π ε) {c : Cached σ π ε} {es post : List (Event α π)} {p : π} {a : α} {e : ε}

def next (c : Cached σ π ε) : Event α π → Cached σ π ε
  | .step a =>
    ⟨T.run c.machine a, match T.flushes a with
      | none => c.held
      | some p => Function.update c.held p none⟩
  | .load p =>
    if T.valid (T.entry c.machine p) then
      { c with held := Function.update c.held p (some (T.entry c.machine p)) }
    else c

def runAll (c : Cached σ π ε) (es : List (Event α π)) : Cached σ π ε := es.foldl T.next c

theorem runAll_append {es' : List (Event α π)} : T.runAll c (es ++ es') = T.runAll (T.runAll c es) es' :=
  List.foldl_append

theorem runAll_snoc {x : Event α π} : T.runAll c (es ++ [x]) = T.next (T.runAll c es) x :=
  T.runAll_append

theorem next_machine {x : Event α π} : (T.next c x).machine = (steps [x]).foldl T.run c.machine := by
  cases x with
  | step a => rfl
  | load p =>
    rw [next]
    split <;> rfl

theorem runAll_machine : (T.runAll c es).machine = (steps es).foldl T.run c.machine := by
  induction es using List.reverseRecOn with
  | nil => rfl
  | append_singleton es x ih => rw [runAll_snoc, next_machine, ih, steps_append, List.foldl_append]

def Unflushed (p : π) (es : List (Event α π)) : Prop := ∀ a ∈ steps es, T.flushes a ≠ some p

variable {T}

omit [DecidableEq π] in
theorem Unflushed.snoc {x : Event α π} (h : T.Unflushed p es) (hx : T.Unflushed p [x]) : T.Unflushed p (es ++ [x]) := by
  intro a ha
  rw [steps_append, List.mem_append] at ha
  exact ha.elim (h a) (hx a)

theorem next_held_step (h : T.flushes a ≠ some p) : (T.next c (.step a)).held p = c.held p := by
  rw [next]
  cases hq : T.flushes a with
  | none => rfl
  | some q => exact Function.update_of_ne (fun e => h (by rw [hq, e])) _ _

theorem next_held_load {q : π} (h : q ≠ p) : (T.next c (.load q)).held p = c.held p := by
  rw [next]
  split
  · exact Function.update_of_ne (Ne.symm h) _ _
  · rfl

/-- The entry was there from the start, or it was valid at its last load. -/
theorem held_cases (h : (T.runAll c es).held p = some e) :
    (c.held p = some e ∧ T.Unflushed p es) ∨
    ∃ pre post, es = pre ++ .load p :: post ∧ T.Unflushed p post ∧ T.valid e = true ∧
      e = T.entry (T.runAll c pre).machine p ∧
      ∀ mid rest, post = mid ++ .load p :: rest →
        T.valid (T.entry (T.runAll c (pre ++ .load p :: mid)).machine p) = false := by
  induction es using List.reverseRecOn with
  | nil => exact .inl ⟨h, fun a ha => by cases ha⟩
  | append_singleton es x ih =>
    rw [runAll_snoc] at h
    -- events that neither load nor flush the page keep what was found before
    have hkeep : (T.runAll c es).held p = some e → T.Unflushed p [x] →
        (x = .load p → T.valid (T.entry (T.runAll c es).machine p) = false) →
        (c.held p = some e ∧ T.Unflushed p (es ++ [x])) ∨
        ∃ pre post, es ++ [x] = pre ++ .load p :: post ∧ T.Unflushed p post ∧ T.valid e = true ∧
          e = T.entry (T.runAll c pre).machine p ∧
          ∀ mid rest, post = mid ++ .load p :: rest →
            T.valid (T.entry (T.runAll c (pre ++ .load p :: mid)).machine p) = false := by
      intro h hx hload
      rcases ih h with ⟨hc, hu⟩ | ⟨pre, post, rfl, hu, hv, he, hlast⟩
      · exact .inl ⟨hc, hu.snoc hx⟩
      · refine .inr ⟨pre, post ++ [x], by simp, hu.snoc hx, hv, he, fun mid rest hpost => ?_⟩
        rcases List.eq_nil_or_concat rest with rfl | ⟨rest, y, rfl⟩
        · obtain ⟨rfl, hxe⟩ := List.append_inj' hpost rfl
          exact hload (List.cons.inj hxe).1
        · rw [List.concat_eq_append, ← List.cons_append, ← List.append_assoc] at hpost
          exact hlast mid rest (List.append_inj' hpost rfl).1
    cases x with
    | step a =>
      by_cases hf : T.flushes a = some p
      · rw [next, hf] at h
        simp at h
      · refine hkeep (next_held_step hf ▸ h) (fun b hb => ?_) fun hx => by cases hx
        obtain rfl := List.mem_singleton.mp hb
        exact hf
    | load q =>
      have hnone : T.Unflushed p [.load q] := fun b hb => by cases hb
      by_cases hq : q = p
      · obtain rfl := hq
        cases hv : T.valid (T.entry (T.runAll c es).machine q) with
        | false =>
          rw [next, hv, if_neg Bool.false_ne_true] at h
          exact hkeep h hnone fun _ => hv
        | true =>
          rw [next, hv, if_pos rfl] at h
          have he : T.entry (T.runAll c es).machine q = e := by simpa using h
          refine .inr ⟨es, [], rfl, fun b hb => ?_, he ▸ hv, he.symm, fun mid rest hpost => ?_⟩
          · cases hb
          · cases mid <;> cases hpost
      · exact hkeep (next_held_load hq ▸ h) hnone fun hx => absurd (Event.load.inj hx) hq

theorem held_untouched (hflush : T.Unflushed p es) (hload : .load p ∉ es) : (T.runAll c es).held p = c.held p := by
  induction es using List.reverseRecOn with
  | nil => rfl
  | append_singleton es x ih =>
    rw [List.mem_append, not_or] at hload
    rw [runAll_snoc, ← ih (fun a ha => hflush a (by rw [steps_append]; exact List.mem_append_left _ ha)) hload.1]
    cases x with
    | step a => exact next_held_step (hflush a (by rw [steps_append]; exact List.mem_append_right _ List.mem_cons_self))
    | load q => exact next_held_load fun e => hload.2 (e ▸ List.mem_cons_self)

theorem held_load (pre : List (Event α π)) (hv : T.valid (T.entry (T.runAll c pre).machine p) = true)
    (hflush : T.Unflushed p post) (hload : .load p ∉ post) :
    (T.runAll c (pre ++ .load p :: post)).held p = some (T.entry (T.runAll c pre).machine p) := by
  rw [← List.singleton_append, ← List.append_assoc, runAll_append, held_untouched hflush hload, runAll_snoc, next, hv,
    if_pos rfl]
  exact Function.update_self _ _ _

theorem held_flush {as : List α} (hes : steps es = as ++ [a]) (ha : T.flushes a = some p)
    (h : (T.runAll c es).held p = some e) : e = T.entry (T.runAll c es).machine p := by
  rcases held_cases h with ⟨-, hu⟩ | ⟨pre, post, rfl, hu, -, he, -⟩
  · exact absurd ha (hu a (by simp [hes]))
  · have hsteps : steps (pre ++ .load p :: post) = steps pre ++ steps post := steps_append
    rcases List.eq_nil_or_concat (steps post) with hnil | ⟨rest, b, hb⟩
    · rw [he, runAll_machine, runAll_machine, hsteps, hnil, List.append_nil]
    · rw [hsteps, hb, List.concat_eq_append, ← List.append_assoc] at hes
      obtain rfl := (List.cons.inj (List.append_inj' hes rfl).2).1
      exact absurd ha (hu b (by simp [hb]))

end Translation

end Cache
