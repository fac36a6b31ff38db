import Mathlib.Tactic

/-!
# Tilings

Tiles of given widths, one behind the other from a first address on.
-/

namespace Tiling

universe u

variable {α : Type u} (width : α → Nat)

def stop (a : Nat) : List α → Nat
  | [] => a
  | c :: l => stop (a + width c) l

/-- Every tile with its address. -/
def places (a : Nat) : List α → List (Nat × α)
  | [] => []
  | c :: l => (a, c) :: places (a + width c) l

variable {width} {a x y : Nat} {c d : α} {l w : List α}

theorem stop_append : stop width a (l ++ w) = stop width (stop width a l) w := by
  induction l generalizing a with
  | nil => rfl
  | cons c l ih => exact ih

theorem places_append : places width a (l ++ w) = places width a l ++ places width (stop width a l) w := by
  induction l generalizing a with
  | nil => rfl
  | cons c l ih => exact congrArg _ ih

theorem le_stop : a ≤ stop width a l := by
  induction l generalizing a with
  | nil => exact Nat.le_refl a
  | cons c l ih => exact Nat.le_trans (Nat.le_add_right a _) ih

theorem within (h : (x, c) ∈ places width a l) : a ≤ x ∧ x + width c ≤ stop width a l := by
  induction l generalizing a with
  | nil => cases h
  | cons d l ih =>
    rcases List.mem_cons.mp h with h | h
    · obtain ⟨rfl, rfl⟩ := Prod.ext_iff.mp h
      exact ⟨Nat.le_refl _, le_stop⟩
    · obtain ⟨hlo, hhi⟩ := ih h
      exact ⟨Nat.le_trans (Nat.le_add_right a _) hlo, hhi⟩

theorem apart (hc : (x, c) ∈ places width a l) (hd : (y, d) ∈ places width a l) :
    (x, c) = (y, d) ∨ x + width c ≤ y ∨ y + width d ≤ x := by
  induction l generalizing a with
  | nil => cases hc
  | cons b l ih =>
    rcases List.mem_cons.mp hc with hc | hc <;> rcases List.mem_cons.mp hd with hd | hd
    · exact .inl (hc.trans hd.symm)
    · obtain ⟨rfl, rfl⟩ := Prod.ext_iff.mp hc
      exact .inr (.inl (within hd).1)
    · obtain ⟨rfl, rfl⟩ := Prod.ext_iff.mp hd
      exact .inr (.inr (within hc).1)
    · exact ih hc hd

theorem next_place (h : (x, c) ∈ places width a l) :
    x + width c = stop width a l ∨ ∃ d, (x + width c, d) ∈ places width a l := by
  induction l generalizing a with
  | nil => cases h
  | cons d l ih =>
    rcases List.mem_cons.mp h with h | h
    · obtain ⟨rfl, rfl⟩ := Prod.ext_iff.mp h
      cases l with
      | nil => exact .inl rfl
      | cons d l => exact .inr ⟨d, List.mem_cons_of_mem _ List.mem_cons_self⟩
    · exact (ih h).imp id fun ⟨d, hd⟩ => ⟨d, List.mem_cons_of_mem _ hd⟩

theorem split (h : (x, c) ∈ places width a l) : ∃ pre post, l = pre ++ c :: post ∧ x = stop width a pre := by
  induction l generalizing a with
  | nil => cases h
  | cons d l ih =>
    rcases List.mem_cons.mp h with h | h
    · obtain ⟨rfl, rfl⟩ := Prod.ext_iff.mp h
      exact ⟨[], l, rfl, rfl⟩
    · obtain ⟨pre, post, rfl, hx⟩ := ih h
      exact ⟨d :: pre, post, rfl, hx⟩

theorem mem_places : (stop width a l, c) ∈ places width a (l ++ c :: w) := by
  rw [places_append]
  exact List.mem_append_right _ List.mem_cons_self

end Tiling
