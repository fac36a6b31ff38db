import Mathlib.Logic.Relation
import Mathlib.Tactic.TypeStar

/-!
# Runs of a transition relation

A system is a step relation on states; a run is its reflexive transitive
closure. One preserved predicate gives a fact about every state of every run,
and one forward simulation carries a run of the lower system to a run of the
upper one. Where it matters what happened on the way, steps carry an event and
a trace is a run with its events.
-/

namespace Transition

open Relation (ReflTransGen)

universe u v

variable {σ : Type u} {τ : Type v} {step : σ → σ → Prop} {Inv : σ → Prop} {s t : σ}

def Preserved (step : σ → σ → Prop) (Inv : σ → Prop) : Prop :=
  ∀ s t, Inv s → step s t → Inv t

theorem Preserved.run (h : Preserved step Inv) (hs : Inv s) (hr : ReflTransGen step s t) :
    Inv t := by
  induction hr with
  | refl => exact hs
  | tail _ hstep ih => exact h _ _ ih hstep

/-- Every step of the lower system from a related state is matched by a step
of the upper one, and the results are related again. -/
def Simulates (step : σ → σ → Prop) (up : τ → τ → Prop) (R : σ → τ → Prop) : Prop :=
  ∀ s t a, R s a → step s t → ∃ b, up a b ∧ R t b

theorem Simulates.run {up : τ → τ → Prop} {R : σ → τ → Prop} {a : τ}
    (h : Simulates step up R) (hs : R s a) (hr : ReflTransGen step s t) :
    ∃ b, ReflTransGen up a b ∧ R t b := by
  induction hr with
  | refl => exact ⟨a, .refl, hs⟩
  | tail _ hstep ih =>
    obtain ⟨b, hb, hR⟩ := ih
    obtain ⟨c, hc, hR'⟩ := h _ _ _ hR hstep
    exact ⟨c, hb.tail hc, hR'⟩

variable {ε : Type*} {lstep : σ → ε → σ → Prop} {es es' : List ε} {e : ε} {u : σ}

inductive Trace (lstep : σ → ε → σ → Prop) (s : σ) : List ε → σ → Prop
  | nil : Trace lstep s [] s
  | snoc {es : List ε} {e : ε} {t u : σ} : Trace lstep s es t → lstep t e u → Trace lstep s (es ++ [e]) u

namespace Trace

theorem preserved (Inv : σ → Prop) (hInv : ∀ s e t, Inv s → lstep s e t → Inv t) (hs : Inv s)
    (h : Trace lstep s es t) : Inv t := by
  induction h with
  | nil => exact hs
  | snoc _ hstep ih => exact hInv _ _ _ ih hstep

theorem single (h : lstep s e t) : Trace lstep s [e] t := snoc nil h

theorem append (h : Trace lstep s es t) (h' : Trace lstep t es' u) : Trace lstep s (es ++ es') u := by
  induction h' with
  | nil => rwa [List.append_nil]
  | snoc _ hstep ih =>
    rw [← List.append_assoc]
    exact ih.snoc hstep

/-- A lockstep simulation takes a trace to a trace with the same events. -/
theorem simulates {up : τ → ε → τ → Prop} {R : σ → τ → Prop} {a : τ}
    (hR : ∀ s a e t, R s a → lstep s e t → ∃ b, up a e b ∧ R t b) (hs : R s a)
    (h : Trace lstep s es t) : ∃ b, Trace up a es b ∧ R t b := by
  induction h with
  | nil => exact ⟨a, nil, hs⟩
  | snoc _ hstep ih =>
    obtain ⟨b, hb, hRb⟩ := ih
    obtain ⟨c, hc, hRc⟩ := hR _ _ _ _ hRb hstep
    exact ⟨c, hb.snoc hc, hRc⟩

end Trace

end Transition
