import Mathlib.Data.List.Iterate
import Mathlib.Logic.Function.Iterate
import Mathlib.Tactic

/-!
# Circular lists

A function `next` closes a list into a ring when following it from the head
passes through the list once and comes back to the head.
-/

namespace Ring

universe u

variable {α : Type u} {next next' : α → α} {a b c p : α} {l : List α}

/-- Following `next` from `a` passes through `l` and ends in `b`. -/
def Path (next : α → α) : α → List α → α → Prop
  | a, [], b => next a = b
  | a, c :: l, b => next a = c ∧ Path next c l b

theorem Path.snoc (h : Path next a l b) : Path next a (l ++ [b]) (next b) := by
  induction l generalizing a with
  | nil => exact ⟨h, rfl⟩
  | cons c l ih => exact ⟨h.1, ih h.2⟩

theorem Path.congr (h : Path next a l b) (hnext : ∀ x ∈ a :: l, next' x = next x) :
    Path next' a l b := by
  induction l generalizing a with
  | nil => exact (hnext a (by simp)).trans h
  | cons c l ih =>
    refine ⟨(hnext a (by simp)).trans h.1, ih h.2 ?_⟩
    rintro x hx
    exact hnext x (List.mem_cons_of_mem _ hx)

theorem Path.iterate (h : Path next a l b) :
    List.iterate next a (l.length + 1) = a :: l ∧ next^[l.length + 1] a = b := by
  induction l generalizing a with
  | nil => exact ⟨rfl, h⟩
  | cons c l ih =>
    obtain ⟨rfl, h⟩ := h
    obtain ⟨hl, hb⟩ := ih h
    refine ⟨?_, ?_⟩
    · rw [List.length_cons, List.iterate, hl]
    · rw [List.length_cons, Function.iterate_succ_apply, hb]

theorem Path.next_mem (h : Path next a l b) : ∀ x ∈ a :: l, next x ∈ l ++ [b] := by
  induction l generalizing a with
  | nil =>
    rintro x hx
    rw [List.mem_singleton.mp hx]
    exact List.mem_singleton.mpr h
  | cons c l ih =>
    obtain ⟨rfl, h⟩ := h
    rintro x (_ | ⟨_, hx⟩)
    · exact List.mem_cons_self
    · exact List.mem_cons_of_mem _ (ih h x hx)

structure IsRing (next : α → α) (a : α) (l : List α) : Prop where
  path : Path next a l a
  nodup : (a :: l).Nodup

namespace IsRing

theorem singleton (h : next a = a) : IsRing next a [] := ⟨h, List.nodup_singleton a⟩

theorem congr (h : IsRing next a l) (hnext : ∀ x ∈ a :: l, next' x = next x) : IsRing next' a l :=
  ⟨h.path.congr hnext, h.nodup⟩

theorem rotate (h : IsRing next a l) :
    ∃ l', IsRing next (next a) l' ∧ (next a :: l').Perm (a :: l) := by
  obtain ⟨hpath, hnodup⟩ := h
  cases l with
  | nil =>
    have hnext : next a = a := hpath
    exact ⟨[], ⟨by rw [hnext]; exact hpath, List.nodup_singleton _⟩, by rw [hnext]⟩
  | cons c l =>
    obtain ⟨rfl, hpath⟩ := hpath
    have hperm : (next a :: (l ++ [a])).Perm (a :: next a :: l) :=
      (List.perm_append_singleton a (next a :: l))
    exact ⟨l ++ [a], ⟨hpath.snoc, hperm.nodup_iff.mpr hnodup⟩, hperm⟩

theorem next_mem (h : IsRing next a l) {x : α} (hx : x ∈ a :: l) : next x ∈ a :: l := by
  have := h.path.next_mem x hx
  simp only [List.mem_append, List.mem_singleton] at this
  exact List.mem_cons.mpr this.symm

theorem insert (h : IsRing next a l) (hp : p ∉ a :: l) (hhead : next' a = p) (hnew : next' p = next a)
    (hrest : ∀ x ∈ l, next' x = next x) : IsRing next' a (p :: l) := by
  obtain ⟨hpath, hnodup⟩ := h
  refine ⟨⟨hhead, ?_⟩, ?_⟩
  · cases l with
    | nil => exact hnew.trans hpath
    | cons c l => exact ⟨hnew.trans hpath.1, hpath.2.congr hrest⟩
  · have hperm : (a :: p :: l).Perm (p :: a :: l) := .swap p a l
    exact hperm.nodup_iff.mpr (List.nodup_cons.mpr ⟨hp, hnodup⟩)

/-- Following `next` visits everything once and returns. -/
theorem iterate (h : IsRing next a l) {created : List α} (hperm : (a :: l).Perm created) :
    (List.iterate next a created.length).Perm created ∧ next^[created.length] a = a := by
  have hlen : created.length = l.length + 1 := hperm.length_eq.symm
  obtain ⟨hl, ha⟩ := h.path.iterate
  rw [hlen, hl]
  exact ⟨hperm, ha⟩

theorem rotate_getElem? (h : IsRing next a l) {d : Nat} (hb : (a :: l)[d + 1]? = some b) :
    ∃ l', IsRing next (next a) l' ∧ (next a :: l').Perm (a :: l) ∧ (next a :: l')[d]? = some b := by
  obtain ⟨hpath, hnodup⟩ := h
  rw [List.getElem?_cons_succ] at hb
  cases l with
  | nil => cases hb
  | cons c l =>
    obtain ⟨rfl, hpath⟩ := hpath
    have hperm : (next a :: (l ++ [a])).Perm (a :: next a :: l) := List.perm_append_singleton a (next a :: l)
    refine ⟨l ++ [a], ⟨hpath.snoc, hperm.nodup_iff.mpr hnodup⟩, hperm, ?_⟩
    have hlen : d < (next a :: l).length := (List.getElem?_eq_some_iff.mp hb).1
    rw [← List.cons_append, List.getElem?_append_left hlen, hb]

theorem next_eq_iff (h : IsRing next a l) {d : Nat} (hb : (a :: l)[d + 1]? = some b) : next a = b ↔ d = 0 := by
  obtain ⟨hpath, hnodup⟩ := h
  rw [List.getElem?_cons_succ] at hb
  cases l with
  | nil => cases hb
  | cons c l =>
    obtain ⟨rfl, -⟩ := hpath
    obtain ⟨hlen, hget⟩ := List.getElem?_eq_some_iff.mp hb
    have hinj : (next a :: l)[0] = (next a :: l)[d] ↔ 0 = d := (List.nodup_cons.mp hnodup).2.getElem_inj_iff
    rw [← hget]
    exact hinj.trans eq_comm

end IsRing

end Ring
