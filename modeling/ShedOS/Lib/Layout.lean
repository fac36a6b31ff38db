import Mathlib.Tactic

/-!
# Structures

A C structure is its list of fields with their sizes. In a packed one a field
lies behind the fields before it, without padding; otherwise it is moved up to
the next multiple of its alignment, which for the scalar types is their size.
-/

namespace Layout

universe u

variable {F : Type u} [DecidableEq F]

abbrev Packed (F : Type u) := List (F × Nat)

namespace Packed

variable {L : Packed F} {f g : F}

/-- `sizeof`. -/
def size (L : Packed F) : Nat := (L.map Prod.snd).sum

/-- `offsetof`. -/
def offset : Packed F → F → Nat
  | [], _ => 0
  | (g, n) :: L, f => if f = g then 0 else n + offset L f

def fieldSize : Packed F → F → Nat
  | [], _ => 0
  | (g, n) :: L, f => if f = g then n else fieldSize L f

theorem offset_add_fieldSize_le (hf : f ∈ L.map Prod.fst) : L.offset f + L.fieldSize f ≤ L.size := by
  induction L with
  | nil => cases hf
  | cons x L ih =>
    obtain ⟨g, n⟩ := x
    simp only [offset, fieldSize, size, List.map_cons, List.sum_cons]
    split
    · omega
    · next hne =>
      have hf : f ∈ L.map Prod.fst := (List.mem_cons.mp hf).resolve_left hne
      have := ih hf
      unfold size at this
      omega

theorem fields_apart (hf : f ∈ L.map Prod.fst) (hg : g ∈ L.map Prod.fst) (hne : f ≠ g) :
    L.offset f + L.fieldSize f ≤ L.offset g ∨ L.offset g + L.fieldSize g ≤ L.offset f := by
  induction L with
  | nil => cases hf
  | cons x L ih =>
    obtain ⟨h, n⟩ := x
    simp only [offset, fieldSize]
    by_cases hfh : f = h <;> by_cases hgh : g = h
    · exact absurd (hfh.trans hgh.symm) hne
    · rw [if_pos hfh, if_pos hfh, if_neg hgh, if_neg hgh]
      omega
    · rw [if_neg hfh, if_neg hfh, if_pos hgh, if_pos hgh]
      omega
    · have := ih ((List.mem_cons.mp hf).resolve_left hfh) ((List.mem_cons.mp hg).resolve_left hgh)
      rw [if_neg hfh, if_neg hfh, if_neg hgh, if_neg hgh]
      omega

end Packed

def alignUp (n a : Nat) : Nat := (n + a - 1) / a * a

theorem le_alignUp {n a : Nat} (ha : 0 < a) : n ≤ alignUp n a := by
  have h := Nat.div_add_mod (n + a - 1) a
  have hlt := Nat.mod_lt (n + a - 1) ha
  unfold alignUp
  rw [Nat.mul_comm]
  omega

abbrev Natural (F : Type u) := List (F × Nat)

namespace Natural

variable {L : Natural F} {f g : F} {o : Nat}

/-- `offsetof` in a structure whose first `o` bytes are taken. -/
def offsetFrom : Natural F → Nat → F → Nat
  | [], o, _ => o
  | (g, n) :: L, o, f => if f = g then alignUp o n else offsetFrom L (alignUp o n + n) f

def offset (L : Natural F) (f : F) : Nat := offsetFrom L 0 f

theorem le_offsetFrom (hL : ∀ x ∈ L, 0 < x.2) : o ≤ offsetFrom L o f := by
  induction L generalizing o with
  | nil => exact Nat.le_refl o
  | cons x L ih =>
    obtain ⟨g, n⟩ := x
    have hle : o ≤ alignUp o n := le_alignUp (hL _ List.mem_cons_self)
    have hrest := ih (o := alignUp o n + n) fun y hy => hL y (List.mem_cons_of_mem _ hy)
    simp only [offsetFrom]
    split <;> omega

theorem offsetFrom_ne (hL : ∀ x ∈ L, 0 < x.2) (hf : f ∈ L.map Prod.fst) (hne : f ≠ g) :
    offsetFrom L o f ≠ offsetFrom L o g := by
  induction L generalizing o with
  | nil => cases hf
  | cons x L ih =>
    obtain ⟨h, n⟩ := x
    have hn : 0 < n := hL _ List.mem_cons_self
    have hL' : ∀ y ∈ L, 0 < y.2 := fun y hy => hL y (List.mem_cons_of_mem _ hy)
    simp only [offsetFrom]
    by_cases hfh : f = h <;> by_cases hgh : g = h
    · exact absurd (hfh.trans hgh.symm) hne
    · have hle := le_offsetFrom (f := g) (o := alignUp o n + n) hL'
      rw [if_pos hfh, if_neg hgh]
      omega
    · have hle := le_offsetFrom (f := f) (o := alignUp o n + n) hL'
      rw [if_neg hfh, if_pos hgh]
      omega
    · rw [if_neg hfh, if_neg hgh]
      exact ih hL' ((List.mem_cons.mp hf).resolve_left hfh)

end Natural

end Layout
