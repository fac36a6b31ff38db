import Mathlib.Data.Set.Insert
import Mathlib.Logic.Function.Basic
import Mathlib.Tactic.TypeStar

/-!
# Pages shared until they are written

Owners map pages to frames, each writable or not, and frames hold data. A
duplicate shares all frames of the original, and neither may write to them; a
page is moved to a frame of its own before it is written. As long as a
writable page is the only one in its frame, every owner sees a private map:
that of the original at the time of the duplication, with its own stores.
-/

namespace Sharing

variable {τ π φ ο β : Type*}

/-- Who maps what where, with `true` for writable, and what is there. -/
structure State (τ π φ ο β : Type*) where
  map : τ → π → Option (φ × Bool)
  data : φ → ο → β

namespace State

def Mapped (s : State τ π φ ο β) (f : φ) : Prop := ∃ t p w, s.map t p = some (f, w)

def Covers (s : State τ π φ ο β) (A : Set φ) : Prop := ∀ f ∈ A, s.Mapped f

/-- The frame of page `p` of `t` has another page. -/
def MappedTwice (s : State τ π φ ο β) (t : τ) (p : π) : Prop :=
  ∃ f w u q w', s.map t p = some (f, w) ∧ (u ≠ t ∨ q ≠ p) ∧ s.map u q = some (f, w')

/-- A writable page is the only one in its frame. -/
def Exclusive (s : State τ π φ ο β) : Prop :=
  ∀ {t p f u q w}, s.map t p = some (f, true) → s.map u q = some (f, w) → u = t ∧ q = p

def view (s : State τ π φ ο β) (t : τ) (p : π) (o : ο) : Option β := (s.map t p).map fun x => s.data x.1 o

end State

def protect (x : Option (φ × Bool)) : Option (φ × Bool) := x.map fun x => (x.1, false)

variable {s s' : State τ π φ ο β} {t u parent child : τ} {p q : π} {f g : φ} {o : ο} {x : β} {w : Bool}

theorem protect_eq_some {x : Option (φ × Bool)} : protect x = some (f, w) ↔ w = false ∧ ∃ w', x = some (f, w') := by
  cases x with
  | none => simp [protect]
  | some y =>
    obtain ⟨g, v⟩ := y
    simp only [protect, Option.map_some, Option.some.injEq, Prod.mk.injEq]
    constructor
    · rintro ⟨rfl, rfl⟩
      exact ⟨rfl, v, rfl, rfl⟩
    · rintro ⟨rfl, -, rfl, -⟩
      exact ⟨rfl, rfl⟩

-- ---------------------------------------------------------------------------
-- Duplicates
-- ---------------------------------------------------------------------------

/-- `child` gets the pages of `parent`. -/
structure Forks (parent child : τ) (s s' : State τ π φ ο β) : Prop where
  fresh : ∀ p, s.map child p = none
  copy : ∀ p, s'.map child p = protect (s.map parent p)
  kept : ∀ p, s'.map parent p = protect (s.map parent p)
  others : ∀ t p, t ≠ child → t ≠ parent → s'.map t p = s.map t p
  data : ∀ f o, s.Mapped f → s'.data f o = s.data f o

namespace Forks

theorem origin (h : Forks parent child s s') (hm : s'.map t p = some (f, w)) :
    (∃ u w', s.map u p = some (f, w')) ∧ (w = true → s.map t p = some (f, true) ∧ t ≠ parent) := by
  by_cases hc : t = child
  · subst hc
    rw [h.copy, protect_eq_some] at hm
    obtain ⟨rfl, hm⟩ := hm
    exact ⟨⟨parent, hm⟩, fun e => absurd e Bool.false_ne_true⟩
  · by_cases hp : t = parent
    · subst hp
      rw [h.kept, protect_eq_some] at hm
      obtain ⟨rfl, hm⟩ := hm
      exact ⟨⟨t, hm⟩, fun e => absurd e Bool.false_ne_true⟩
    · rw [h.others t p hc hp] at hm
      exact ⟨⟨t, w, hm⟩, fun e => ⟨e ▸ hm, hp⟩⟩

theorem exclusive (h : Forks parent child s s') (he : s.Exclusive) : s'.Exclusive := by
  intro t p f u q w ht hu
  obtain ⟨hold, hp⟩ := (h.origin ht).2 rfl
  by_cases hc : u = child
  · subst hc
    rw [h.copy, protect_eq_some] at hu
    obtain ⟨-, w', hu⟩ := hu
    exact absurd (he hold hu).1.symm hp
  · by_cases hup : u = parent
    · subst hup
      rw [h.kept, protect_eq_some] at hu
      obtain ⟨-, w', hu⟩ := hu
      exact absurd (he hold hu).1.symm hp
    · rw [h.others u q hc hup] at hu
      exact he hold hu

theorem mapped (h : Forks parent child s s') : s'.Mapped f ↔ s.Mapped f := by
  constructor
  · rintro ⟨t, p, w, hm⟩
    obtain ⟨⟨u, w', hu⟩, -⟩ := h.origin hm
    exact ⟨u, p, w', hu⟩
  · rintro ⟨t, p, w, hm⟩
    have hc : t ≠ child := by
      rintro rfl
      rw [h.fresh] at hm
      cases hm
    by_cases hp : t = parent
    · subst hp
      exact ⟨t, p, false, by rw [h.kept, hm]; rfl⟩
    · exact ⟨t, p, w, by rw [h.others t p hc hp, hm]⟩

theorem view_protect (h : Forks parent child s s') (hm : s'.map t p = protect (s.map u p)) :
    s'.view t p o = s.view u p o := by
  rw [State.view, State.view, hm]
  cases hu : s.map u p with
  | none => rfl
  | some y =>
    obtain ⟨f, w⟩ := y
    exact congrArg some (h.data f o ⟨u, p, w, hu⟩)

variable [DecidableEq τ]

theorem view (h : Forks parent child s s') (t : τ) (p : π) (o : ο) :
    s'.view t p o = Function.update s.view child (s.view parent) t p o := by
  by_cases hc : t = child
  · subst hc
    rw [Function.update_self]
    exact h.view_protect (h.copy p)
  · rw [Function.update_of_ne hc]
    by_cases hp : t = parent
    · subst hp
      exact h.view_protect (h.kept p)
    · rw [State.view, State.view, h.others t p hc hp]
      cases hm : s.map t p with
      | none => rfl
      | some y =>
        obtain ⟨f, w⟩ := y
        exact congrArg some (h.data f o ⟨t, p, w, hm⟩)

end Forks

-- ---------------------------------------------------------------------------
-- Moves
-- ---------------------------------------------------------------------------

/-- Page `p` of `t` moves to frame `f`. -/
structure Moves (t : τ) (p : π) (f : φ) (s s' : State τ π φ ο β) : Prop where
  old : ∃ g w, s.map t p = some (g, w) ∧ ∀ o, s'.data f o = s.data g o
  fresh : ¬ s.Mapped f
  page : s'.map t p = some (f, true)
  others : ∀ u q, u ≠ t ∨ q ≠ p → s'.map u q = s.map u q
  data : ∀ g o, s.Mapped g → s'.data g o = s.data g o

namespace Moves

theorem origin (h : Moves t p f s s') (hm : s'.map u q = some (g, w)) :
    (u = t ∧ q = p ∧ g = f ∧ w = true) ∨ ((u ≠ t ∨ q ≠ p) ∧ s.map u q = some (g, w)) := by
  by_cases hu : u = t ∧ q = p
  · obtain ⟨rfl, rfl⟩ := hu
    rw [h.page] at hm
    obtain ⟨rfl, rfl⟩ := Prod.mk.inj (Option.some.inj hm)
    exact .inl ⟨rfl, rfl, rfl, rfl⟩
  · have hne : u ≠ t ∨ q ≠ p := not_and_or.mp hu
    rw [h.others u q hne] at hm
    exact .inr ⟨hne, hm⟩

theorem exclusive (h : Moves t p f s s') (he : s.Exclusive) : s'.Exclusive := by
  intro a i c b j w ha hb
  rcases h.origin ha with ⟨rfl, rfl, rfl, -⟩ | ⟨-, ha⟩
  · rcases h.origin hb with ⟨rfl, rfl, -⟩ | ⟨-, hb⟩
    · exact ⟨rfl, rfl⟩
    · exact absurd ⟨_, _, _, hb⟩ h.fresh
  · rcases h.origin hb with ⟨rfl, rfl, rfl, -⟩ | ⟨-, hb⟩
    · exact absurd ⟨_, _, _, ha⟩ h.fresh
    · exact he ha hb

theorem mapped (h : Moves t p f s s') :
    s'.Mapped g ↔ g = f ∨ ∃ u q w, (u ≠ t ∨ q ≠ p) ∧ s.map u q = some (g, w) := by
  constructor
  · rintro ⟨u, q, w, hm⟩
    rcases h.origin hm with ⟨-, -, rfl, -⟩ | ⟨hne, hm⟩
    · exact .inl rfl
    · exact .inr ⟨u, q, w, hne, hm⟩
  · rintro (rfl | ⟨u, q, w, hne, hm⟩)
    · exact ⟨t, p, true, h.page⟩
    · exact ⟨u, q, w, by rw [h.others u q hne, hm]⟩

theorem unmapped (h : Moves t p f s s') (hne : g ≠ f) (honly : ∀ u q w, s.map u q = some (g, w) → u = t ∧ q = p) :
    ¬ s'.Mapped g := by
  intro hm
  rcases h.mapped.mp hm with rfl | ⟨u, q, w, hother, hu⟩
  · exact hne rfl
  · obtain ⟨rfl, rfl⟩ := honly u q w hu
    simp at hother

theorem covers {A : Set φ} (h : Moves t p f s s') (hA : ∀ g, s.Mapped g → g ∈ A) (hf : f ∉ A) :
    s'.Covers (insert f A) ↔ s.Covers A ∧ s.MappedTwice t p := by
  constructor
  · intro hc
    have hother : ∀ g ∈ A, ∃ u q w, (u ≠ t ∨ q ≠ p) ∧ s.map u q = some (g, w) := fun g hg =>
      (h.mapped.mp (hc g (.inr hg))).resolve_left fun e => hf (e ▸ hg)
    obtain ⟨g, w, hold, -⟩ := h.old
    obtain ⟨u, q, w', hne, hu⟩ := hother g (hA g ⟨t, p, w, hold⟩)
    refine ⟨fun g hg => ?_, g, w, u, q, w', hold, hne, hu⟩
    obtain ⟨u, q, w, -, hu⟩ := hother g hg
    exact ⟨u, q, w, hu⟩
  · rintro ⟨hc, g, w, u, q, w', hold, hne, hu⟩ i (rfl | hi)
    · exact h.mapped.mpr (.inl rfl)
    · obtain ⟨a, b, c, hm⟩ := hc i hi
      refine h.mapped.mpr (.inr ?_)
      by_cases hab : a = t ∧ b = p
      · obtain ⟨rfl, rfl⟩ := hab
        obtain ⟨rfl, -⟩ := Prod.mk.inj (Option.some.inj (hold.symm.trans hm))
        exact ⟨u, q, w', hne, hu⟩
      · exact ⟨a, b, c, not_and_or.mp hab, hm⟩

theorem view (h : Moves t p f s s') (u : τ) (q : π) (o : ο) : s'.view u q o = s.view u q o := by
  by_cases hu : u = t ∧ q = p
  · obtain ⟨rfl, rfl⟩ := hu
    obtain ⟨g, w, hm, hcopied⟩ := h.old
    rw [State.view, State.view, h.page, hm]
    exact congrArg some (hcopied o)
  · rw [State.view, State.view, h.others u q (not_and_or.mp hu)]
    cases hm : s.map u q with
    | none => rfl
    | some y =>
      obtain ⟨g, w⟩ := y
      exact congrArg some (h.data g o ⟨u, q, w, hm⟩)

end Moves

-- ---------------------------------------------------------------------------
-- Stores
-- ---------------------------------------------------------------------------

/-- `t` stores `x` in its writable page `p`, which is in frame `f`. -/
structure Stores (t : τ) (p : π) (o : ο) (x : β) (f : φ) (s s' : State τ π φ ο β) : Prop where
  page : s.map t p = some (f, true)
  map : ∀ u q, s'.map u q = s.map u q
  stored : s'.data f o = x
  data : ∀ g i, g ≠ f ∨ i ≠ o → s'.data g i = s.data g i

namespace Stores

theorem exclusive (h : Stores t p o x f s s') (he : s.Exclusive) : s'.Exclusive := by
  intro a i c b j w ha hb
  rw [h.map] at ha hb
  exact he ha hb

theorem mapped (h : Stores t p o x f s s') : s'.Mapped g ↔ s.Mapped g := by
  simp only [State.Mapped, h.map]

theorem view_self (h : Stores t p o x f s s') : s'.view t p o = some x := by
  rw [State.view, h.map, h.page]
  exact congrArg some h.stored

/-- No other owner, page or place sees the store. -/
theorem view_other {i : ο} (h : Stores t p o x f s s') (he : s.Exclusive) (hne : u ≠ t ∨ q ≠ p ∨ i ≠ o) :
    s'.view u q i = s.view u q i := by
  rw [State.view, State.view, h.map]
  cases hm : s.map u q with
  | none => rfl
  | some y =>
    obtain ⟨g, w⟩ := y
    refine congrArg some (h.data g i ?_)
    by_contra hno
    obtain ⟨rfl, rfl⟩ : g = f ∧ i = o := by simpa using hno
    obtain ⟨rfl, rfl⟩ := he h.page hm
    simp at hne

end Stores

end Sharing
