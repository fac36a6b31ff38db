import Mathlib.Tactic

/-!
# Walks through radix tables

A memory gives every slot of every node a value; some values name a further
node. A walk follows a path of indices until the path or the nodes end. A
labelling assigns to each node in use the path that owns it. When every edge
extends the label, two walks that meet in one slot have come the same way, so
a write to a slot concerns the walks through that slot and no others.
-/

namespace Radix

universe u

variable {N ι V Λ : Type u} {next : V → Option N} {step : Λ → ι → Λ} {depth : Λ → Nat}
  {height : Nat} {read read' : N → ι → V} {label : N → Option Λ} {n c : N} {l : Λ} {i j : ι}
  {path : List ι}

/-- The last value on the path, and the part of the path that was not walked. -/
def walk (next : V → Option N) (read : N → ι → V) : N → ι → List ι → V × List ι
  | n, i, [] => (read n i, [])
  | n, i, j :: path =>
    match next (read n i) with
    | none => (read n i, j :: path)
    | some c => walk next read c j path

def descend (next : V → Option N) (read : N → ι → V) : N → List ι → Option N
  | n, [] => some n
  | n, i :: path => (next (read n i)).bind fun c => descend next read c path

def slots (step : Λ → ι → Λ) : Λ → ι → List ι → List (Λ × ι)
  | l, i, [] => [(l, i)]
  | l, i, j :: path => (l, i) :: slots step (step l i) j path

/-- Nodes of depth `height` hold values only; above it every edge out of a
labelled node leads to the node of the extended label. -/
def Labelled (next : V → Option N) (step : Λ → ι → Λ) (depth : Λ → Nat) (height : Nat)
    (read : N → ι → V) (label : N → Option Λ) : Prop :=
  ∀ n l i c, label n = some l → depth l < height → next (read n i) = some c →
    label c = some (step l i)

theorem walk_leaf : walk next read n i [] = (read n i, []) := rfl

theorem walk_none (h : next (read n i) = none) :
    walk next read n i (j :: path) = (read n i, j :: path) := by
  rw [walk, h]

theorem walk_some (h : next (read n i) = some c) :
    walk next read n i (j :: path) = walk next read c j path := by
  rw [walk, h]

theorem descend_snoc : ∀ {path : List ι} {n : N},
    descend next read n (path ++ [i]) = (descend next read n path).bind fun c => next (read c i)
  | [], n => by cases h : next (read n i) <;> simp [descend, h]
  | j :: path, n => by
    rw [List.cons_append, descend, descend]
    cases next (read n j) with
    | none => rfl
    | some c => exact descend_snoc

theorem walk_descend : ∀ {path : List ι} {n : N}, descend next read n path = some c →
    ∀ {j : ι} {rest rest' : List ι}, path ++ i :: rest = j :: rest' →
      walk next read n j rest' = walk next read c i rest
  | [], n, h, j, rest, rest', he => by
    obtain rfl := Option.some.inj h
    obtain ⟨rfl, rfl⟩ := List.cons.inj he
    rfl
  | k :: path, n, h, j, rest, rest', he => by
    obtain ⟨rfl, rfl⟩ := List.cons.inj he
    obtain ⟨b, hb, h⟩ := Option.bind_eq_some_iff.mp h
    cases path with
    | nil =>
      obtain rfl := Option.some.inj h
      exact walk_some hb
    | cons j path => exact (walk_some hb).trans (walk_descend h rfl)

theorem descend_label (hl : Labelled next step depth height read label)
    (hdepth : ∀ l i, depth (step l i) = depth l + 1) :
    ∀ {path : List ι} {n c : N} {l : Λ}, label n = some l → depth l + path.length ≤ height →
      descend next read n path = some c → label c = some (path.foldl step l) := by
  intro path
  induction path with
  | nil =>
    intro n c l hn _ h
    obtain rfl := Option.some.inj h
    exact hn
  | cons i path ih =>
    intro n c l hn hd h
    obtain ⟨b, hb, h⟩ := Option.bind_eq_some_iff.mp h
    simp only [List.length_cons] at hd
    exact ih (hl n l i b hn (by omega) hb) (by rw [hdepth]; omega) h

/-- A walk sees only the slots of its path. -/
theorem walk_congr (hl : Labelled next step depth height read label)
    (hdepth : ∀ l i, depth (step l i) = depth l + 1) :
    ∀ {n : N} {l : Λ} {i : ι} {path : List ι}, label n = some l →
      depth l + path.length ≤ height →
      (∀ n' l' k, label n' = some l' → (l', k) ∈ slots step l i path → read' n' k = read n' k) →
      walk next read' n i path = walk next read n i path := by
  intro n l i path
  induction path generalizing n l i with
  | nil =>
    intro hn _ h
    rw [walk, walk, h n l i hn (List.mem_singleton.mpr rfl)]
  | cons j path ih =>
    intro hn hd h
    simp only [List.length_cons] at hd
    have hhere := h n l i hn List.mem_cons_self
    rw [walk, walk, hhere]
    cases hnext : next (read n i) with
    | none => rfl
    | some c =>
      refine ih (hl n l i c hn (by omega) hnext) (by rw [hdepth]; omega) ?_
      exact fun n' l' k hn' hk => h n' l' k hn' (List.mem_cons_of_mem _ hk)

theorem descend_congr (hl : Labelled next step depth height read label)
    (hdepth : ∀ l i, depth (step l i) = depth l + 1)
    (h : ∀ n l i, label n = some l → depth l < height → read' n i = read n i) :
    ∀ {path : List ι} {n : N} {l : Λ}, label n = some l → depth l + path.length ≤ height →
      descend next read' n path = descend next read n path := by
  intro path
  induction path with
  | nil => exact fun _ _ => rfl
  | cons i path ih =>
    intro n l hn hd
    simp only [List.length_cons] at hd
    rw [descend, descend, h n l i hn (by omega)]
    cases hnext : next (read n i) with
    | none => rfl
    | some c => exact ih (hl n l i c hn (by omega) hnext) (by rw [hdepth]; omega)

end Radix
