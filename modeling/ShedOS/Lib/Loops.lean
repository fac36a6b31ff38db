import Mathlib.Tactic

/-!
# Counted loops
-/

namespace Loops

universe u

variable {α : Type u} {body : Nat → α → α} {s : α} {n : Nat}

/-- `for (i = 0; i < n; i++) s = body(i, s)`. -/
def upto (body : Nat → α → α) (s : α) : (n : Nat) → α
  | 0 => s
  | n + 1 => body n (upto body s n)

@[simp] theorem upto_zero : upto body s 0 = s := rfl

theorem upto_succ : upto body s (n + 1) = body n (upto body s n) := rfl

/-- The loop rule: `P i` holds before round `i`. -/
theorem upto_rule (P : Nat → α → Prop) (h0 : P 0 s)
    (hstep : ∀ i t, i < n → P i t → P (i + 1) (body i t)) : P n (upto body s n) := by
  induction n with
  | zero => exact h0
  | succ n ih =>
    exact hstep n _ (Nat.lt_succ_self n) (ih fun i t hi => hstep i t (Nat.lt_succ_of_lt hi))

theorem upto_congr {body' : Nat → α → α} (h : ∀ i, i < n → ∀ t, body i t = body' i t) :
    upto body s n = upto body' s n := by
  induction n with
  | zero => rfl
  | succ n ih =>
    rw [upto_succ, upto_succ, ih fun i hi => h i (Nat.lt_succ_of_lt hi), h n (Nat.lt_succ_self n)]

/-- The rule for a loop in a loop: `P i j` holds before round `j` of the inner
loop in round `i` of the outer one. -/
theorem upto_upto_rule {body : Nat → Nat → α → α} {k : Nat} (P : Nat → Nat → α → Prop) (h0 : P 0 0 s)
    (hstep : ∀ i j t, i < n → j < k → P i j t → P i (j + 1) (body i j t))
    (hnext : ∀ i t, i < n → P i k t → P (i + 1) 0 t) :
    P n 0 (upto (fun i t => upto (body i) t k) s n) :=
  upto_rule (fun i t => P i 0 t) h0 fun i _ hi ht =>
    hnext i _ hi (upto_rule (P i) ht fun j t hj htj => hstep i j t hi hj htj)

-- ---------------------------------------------------------------------------
-- Rounds that may fail
-- ---------------------------------------------------------------------------

section Option

variable {body : Nat → α → Option α} {t : α}

/-- `upto`, as far as every round returns. -/
def uptoM (body : Nat → α → Option α) (s : α) : (n : Nat) → Option α
  | 0 => some s
  | n + 1 => (uptoM body s n).bind (body n)

theorem uptoM_succ : uptoM body s (n + 1) = (uptoM body s n).bind (body n) := rfl

theorem uptoM_rule (P : Nat → α → Prop) (h0 : P 0 s)
    (hstep : ∀ i t, i < n → P i t → ∃ t', body i t = some t' ∧ P (i + 1) t') : ∃ t, uptoM body s n = some t ∧ P n t := by
  induction n with
  | zero => exact ⟨s, rfl, h0⟩
  | succ n ih =>
    obtain ⟨t, ht, hP⟩ := ih fun i t hi => hstep i t (Nat.lt_succ_of_lt hi)
    obtain ⟨t', ht', hP'⟩ := hstep n t (Nat.lt_succ_self n) hP
    exact ⟨t', by rw [uptoM_succ, ht, Option.bind_some, ht'], hP'⟩

theorem uptoM_map {β : Type u} {f : Nat → β → β} {b : β} (g : β → α) (h : ∀ i b, i < n → body i (g b) = some (g (f i b))) :
    uptoM body (g b) n = some (g (upto f b n)) := by
  induction n with
  | zero => rfl
  | succ n ih =>
    rw [uptoM_succ, ih fun i b hi => h i b (Nat.lt_succ_of_lt hi), Option.bind_some, upto_succ]
    exact h n _ (Nat.lt_succ_self n)

theorem uptoM_rounds (P : Nat → α → Prop) (h0 : P 0 s)
    (hstep : ∀ i u u', i < n → P i u → body i u = some u' → P (i + 1) u') (h : uptoM body s n = some t) :
    P n t ∧ ∀ i < n, ∃ u u', P i u ∧ body i u = some u' := by
  induction n generalizing t with
  | zero => exact ⟨Option.some.inj h ▸ h0, fun i hi => absurd hi (Nat.not_lt_zero i)⟩
  | succ n ih =>
    obtain ⟨u, hu, ht⟩ := Option.bind_eq_some_iff.mp h
    obtain ⟨hP, hrounds⟩ := ih (fun i u u' hi => hstep i u u' (Nat.lt_succ_of_lt hi)) hu
    refine ⟨hstep n u t (Nat.lt_succ_self n) hP ht, fun i hi => ?_⟩
    rcases Nat.lt_succ_iff_lt_or_eq.mp hi with hi | rfl
    · exact hrounds i hi
    · exact ⟨u, t, hP, ht⟩

end Option

end Loops
