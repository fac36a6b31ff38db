import Mathlib.Logic.Relation
import Mathlib.Tactic.TypeStar

/-!
# Loops that need not end

A round of a loop goes on with a new state or ends the loop with a result. A
run takes fuel and lists the states that it comes to; a loop ends if some fuel
is enough.
-/

namespace While

open Relation (ReflTransGen)

universe u v

variable {σ : Type u} {ρ : Type v} {round : σ → σ ⊕ ρ} {s t : σ} {r r' : ρ} {l l' : List σ} {fuel : Nat}

def run (round : σ → σ ⊕ ρ) : (fuel : Nat) → σ → List σ × Option ρ
  | 0, _ => ([], none)
  | fuel + 1, s =>
    match round s with
    | .inl t =>
      let (visited, r) := run round fuel t
      (s :: visited, r)
    | .inr r => ([s], some r)

/-- The loop ends from `s` on with `r`; `l` are the states on the way. -/
def Ends (round : σ → σ ⊕ ρ) (s : σ) (l : List σ) (r : ρ) : Prop := ∃ fuel, run round fuel s = (l, some r)

def Goes (round : σ → σ ⊕ ρ) (s t : σ) : Prop := round s = .inl t

theorem ends_inr (h : round s = .inr r) : Ends round s l r' ↔ l = [s] ∧ r' = r := by
  constructor
  · rintro ⟨fuel, hrun⟩
    cases fuel with
    | zero => cases hrun
    | succ fuel =>
      rw [run, h] at hrun
      obtain ⟨rfl, hr⟩ := Prod.mk.inj hrun
      exact ⟨rfl, (Option.some.inj hr).symm⟩
  · rintro ⟨rfl, rfl⟩
    refine ⟨1, ?_⟩
    rw [run, h]

theorem ends_inl (h : round s = .inl t) : Ends round s l r ↔ ∃ l', l = s :: l' ∧ Ends round t l' r := by
  constructor
  · rintro ⟨fuel, hrun⟩
    cases fuel with
    | zero => cases hrun
    | succ fuel =>
      rw [run, h] at hrun
      obtain ⟨rfl, hr⟩ := Prod.mk.inj hrun
      exact ⟨_, rfl, fuel, Prod.ext rfl hr⟩
  · rintro ⟨l', rfl, fuel, hrun⟩
    refine ⟨fuel + 1, ?_⟩
    rw [run, h]
    simp only [hrun]

theorem Ends.unique (h : Ends round s l r) (h' : Ends round s l' r') : l = l' ∧ r = r' := by
  induction l generalizing s l' with
  | nil =>
    cases hs : round s with
    | inl t =>
      obtain ⟨_, hl, -⟩ := (ends_inl hs).mp h
      cases hl
    | inr _ => cases ((ends_inr hs).mp h).1
  | cons s₀ l ih =>
    cases hs : round s with
    | inl t =>
      obtain ⟨l₁, hl, ht⟩ := (ends_inl hs).mp h
      obtain ⟨l₂, hl', ht'⟩ := (ends_inl hs).mp h'
      obtain ⟨rfl, rfl⟩ := List.cons.inj hl
      obtain ⟨rfl, hr⟩ := ih ht ht'
      exact ⟨hl'.symm, hr⟩
    | inr r₀ =>
      obtain ⟨hl, hr⟩ := (ends_inr hs).mp h
      obtain ⟨hl', hr'⟩ := (ends_inr hs).mp h'
      exact ⟨hl.trans hl'.symm, hr.trans hr'.symm⟩

theorem Ends.mem_iff (h : Ends round s l r) : t ∈ l ↔ ReflTransGen (Goes round) s t := by
  induction l generalizing s with
  | nil =>
    cases hs : round s with
    | inl _ =>
      obtain ⟨_, hl, -⟩ := (ends_inl hs).mp h
      cases hl
    | inr _ => cases ((ends_inr hs).mp h).1
  | cons s₀ l ih =>
    rw [List.mem_cons]
    cases hs : round s with
    | inl s₁ =>
      obtain ⟨_, hl, hs₁⟩ := (ends_inl hs).mp h
      obtain ⟨rfl, rfl⟩ := List.cons.inj hl
      rw [ih hs₁]
      constructor
      · rintro (rfl | hreach)
        · exact .refl
        · exact .head hs hreach
      · intro hreach
        rcases ReflTransGen.cases_head_iff.mp hreach with rfl | ⟨s₂, hgoes, hreach⟩
        · exact .inl rfl
        · obtain rfl := Sum.inl.inj (hs.symm.trans hgoes)
          exact .inr hreach
    | inr r₀ =>
      obtain ⟨rfl, rfl⟩ := List.cons.inj ((ends_inr hs).mp h).1
      constructor
      · rintro (rfl | hnil)
        · exact .refl
        · cases hnil
      · intro hreach
        rcases ReflTransGen.cases_head_iff.mp hreach with rfl | ⟨s₂, hgoes, -⟩
        · exact .inl rfl
        · cases hs.symm.trans hgoes

theorem ends_of_measure (μ : σ → Nat) (h : ∀ t t', ReflTransGen (Goes round) s t → round t = .inl t' → μ t' < μ t) :
    ∃ l r, Ends round s l r := by
  obtain ⟨n, hn⟩ : ∃ n, μ s < n := ⟨_, Nat.lt_succ_self _⟩
  induction n generalizing s with
  | zero => exact absurd hn (Nat.not_lt_zero _)
  | succ n ih =>
    cases hs : round s with
    | inl t =>
      have hlt := h s t .refl hs
      obtain ⟨l, r, ht⟩ := ih (s := t) (fun t₁ t₂ hreach => h t₁ t₂ (hreach.head hs)) (by omega)
      exact ⟨_, r, (ends_inl hs).mpr ⟨l, rfl, ht⟩⟩
    | inr r => exact ⟨_, r, (ends_inr hs).mpr ⟨rfl, rfl⟩⟩

/-- A loop does not end once it comes to a state of `same`, which no round
leaves. -/
theorem not_ends_of_preserved (same : σ → Prop) (hstart : ReflTransGen (Goes round) s t) (ht : same t)
    (hround : ∀ t, same t → ∃ t', round t = .inl t' ∧ same t') : ¬ Ends round s l r := by
  intro h
  -- each round leaves a shorter list
  have hnever : ∀ (l : List σ) (t : σ), same t → ¬ Ends round t l r := by
    intro l
    induction l with
    | nil =>
      intro t ht h
      obtain ⟨t', hgoes, -⟩ := hround t ht
      obtain ⟨_, hl, -⟩ := (ends_inl hgoes).mp h
      cases hl
    | cons t₀ l ih =>
      intro t ht h
      obtain ⟨t', hgoes, ht'⟩ := hround t ht
      obtain ⟨_, hl, h⟩ := (ends_inl hgoes).mp h
      obtain ⟨-, rfl⟩ := List.cons.inj hl
      exact ih t' ht' h
  induction hstart using ReflTransGen.head_induction_on generalizing l with
  | refl => exact hnever l t ht h
  | head hgoes _ ih =>
    obtain ⟨l', -, h⟩ := (ends_inl hgoes).mp h
    exact ih h

end While
