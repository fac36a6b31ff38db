import Mathlib.Data.Set.Basic
import ShedOS.Lib.Transition

/-!
# Range allocators

A range is a start and a length. A ledger is the list of ranges an allocator
has handed out; it is sound when no two of them share a point. `Step` is what
any allocator of ranges may do with its free points, and `Sound` is what holds
in every run of it.
-/

namespace Ranges

structure Range where
  start : Nat
  count : Nat
  deriving DecidableEq, Repr

def Range.Mem (r : Range) (k : Nat) : Prop := r.start ≤ k ∧ k < r.start + r.count

def Range.Apart (r q : Range) : Prop := ∀ k, r.Mem k → ¬ q.Mem k

def Range.Within (q r : Range) : Prop := r.start ≤ q.start ∧ q.start + q.count ≤ r.start + r.count

def Range.before (r q : Range) : Range := ⟨r.start, q.start - r.start⟩
def Range.after (r q : Range) : Range :=
  ⟨q.start + q.count, r.start + r.count - (q.start + q.count)⟩

theorem Range.Within.mem {q r : Range} {k : Nat} (h : q.Within r) (hk : q.Mem k) : r.Mem k := by
  unfold Range.Within at h
  unfold Range.Mem at hk ⊢
  omega

theorem Range.before_within {q r : Range} (h : q.Within r) : (r.before q).Within r := by
  unfold Range.Within Range.before at *
  simp only
  omega

theorem Range.after_within {q r : Range} (h : q.Within r) : (r.after q).Within r := by
  unfold Range.Within Range.after at *
  simp only
  omega

theorem Range.before_apart_after {q r : Range} (h : q.Within r) :
    (r.before q).Apart (r.after q) := by
  intro k hb ha
  unfold Range.Within at h
  unfold Range.Mem Range.before at hb
  unfold Range.Mem Range.after at ha
  simp only at hb ha
  omega

theorem Range.before_apart {q r : Range} : (r.before q).Apart q := by
  intro k hb hq
  unfold Range.Mem Range.before at hb
  unfold Range.Mem at hq
  simp only at hb
  omega

theorem Range.after_apart {q r : Range} : (r.after q).Apart q := by
  intro k ha hq
  unfold Range.Mem Range.after at ha
  unfold Range.Mem at hq
  simp only at ha
  omega

abbrev Ledger := List Range

def Ledger.Sound (l : Ledger) : Prop := l.Pairwise Range.Apart

/-- The ledger after the part `q` of `r` went back. -/
def Ledger.giveBack (front : Ledger) (r q : Range) (back : Ledger) : Ledger :=
  front ++ r.before q :: r.after q :: back

theorem Ledger.giveBack_from {front back : Ledger} {r q x : Range}
    (hs : (front ++ r :: back : Ledger).Sound) (hq : q.Within r)
    (hx : x ∈ Ledger.giveBack front r q back) :
    (∃ y ∈ front ++ r :: back, x.Within y) ∧ x.Apart q := by
  have hs := List.pairwise_append.mp hs
  have self (y : Range) : y.Within y := ⟨Nat.le_refl _, Nat.le_refl _⟩
  have hmem : x ∈ front ∨ x = r.before q ∨ x = r.after q ∨ x ∈ back := by
    simpa [Ledger.giveBack] using hx
  rcases hmem with hx | rfl | rfl | hx
  · refine ⟨⟨x, by simp [hx], self x⟩, fun k hk hkq => ?_⟩
    exact hs.2.2 x hx r (by simp) k hk (hq.mem hkq)
  · exact ⟨⟨r, by simp, Range.before_within hq⟩, Range.before_apart⟩
  · exact ⟨⟨r, by simp, Range.after_within hq⟩, Range.after_apart⟩
  · refine ⟨⟨x, by simp [hx], self x⟩, fun k hk hkq => ?_⟩
    exact (List.pairwise_cons.mp hs.2.1).1 x hx k (hq.mem hkq) hk

theorem Ledger.giveBack_sound {front back : Ledger} {r q : Range}
    (hs : (front ++ r :: back : Ledger).Sound) (hq : q.Within r) :
    (Ledger.giveBack front r q back).Sound := by
  obtain ⟨hf, hrb, hfr⟩ := List.pairwise_append.mp hs
  obtain ⟨hr, hb⟩ := List.pairwise_cons.mp hrb
  have hbw := Range.before_within hq
  have haw := Range.after_within hq
  refine List.pairwise_append.mpr ⟨hf, ?_, ?_⟩
  · refine List.pairwise_cons.mpr ⟨?_, List.pairwise_cons.mpr ⟨?_, hb⟩⟩
    · intro x hx
      rcases List.mem_cons.mp hx with rfl | hx
      · exact Range.before_apart_after hq
      · exact fun k hk => hr x hx k (hbw.mem hk)
    · exact fun x hx k hk => hr x hx k (haw.mem hk)
  · intro x hx y hy
    have hxr := hfr x hx r (by simp)
    rcases List.mem_cons.mp hy with rfl | hy
    · exact fun k hk hy => hxr k hk (hbw.mem hy)
    rcases List.mem_cons.mp hy with rfl | hy
    · exact fun k hk hy => hxr k hk (haw.mem hy)
    · exact hfr x hx y (by simp [hy])

/-- The free points and the ranges handed out. -/
structure Store where
  free : Set Nat
  out : Ledger

/-- One operation of a range allocator. `lose` takes points out of the free
ones without recording them. -/
inductive Step : Store → Store → Prop
  | idle {s} : Step s s
  | take {s} (r : Range) (h : ∀ k, r.Mem k → k ∈ s.free) :
      Step s ⟨s.free \ {k | r.Mem k}, r :: s.out⟩
  | lose {s} (r : Range) : Step s ⟨s.free \ {k | r.Mem k}, s.out⟩
  | giveBack {free front r back} (q : Range) (h : q.Within r) :
      Step ⟨free, front ++ r :: back⟩ ⟨free ∪ {k | q.Mem k}, Ledger.giveBack front r q back⟩

/-- Nothing is out twice, nothing out is free, and both come from `pool`. -/
structure Store.Sound (pool : Set Nat) (s : Store) : Prop where
  apart : s.out.Sound
  notFree : ∀ r ∈ s.out, ∀ k, r.Mem k → k ∉ s.free
  outPool : ∀ r ∈ s.out, ∀ k, r.Mem k → k ∈ pool
  freePool : s.free ⊆ pool

theorem Store.Sound.preserved (pool : Set Nat) :
    Transition.Preserved Step (Store.Sound pool) := by
  intro s t hs hstep
  cases hstep with
  | idle => exact hs
  | take r h =>
    refine ⟨List.pairwise_cons.mpr ⟨?_, hs.apart⟩, ?_, ?_, ?_⟩
    · exact fun x hx k hk hkx => hs.notFree x hx k hkx (h k hk)
    · intro x hx k hk hfree
      rcases List.mem_cons.mp hx with rfl | hx
      · exact hfree.2 hk
      · exact hs.notFree x hx k hk hfree.1
    · intro x hx k hk
      rcases List.mem_cons.mp hx with rfl | hx
      · exact hs.freePool (h k hk)
      · exact hs.outPool x hx k hk
    · exact fun k hk => hs.freePool hk.1
  | lose r =>
    exact ⟨hs.apart, fun x hx k hk hfree => hs.notFree x hx k hk hfree.1, hs.outPool,
      fun k hk => hs.freePool hk.1⟩
  | giveBack q h =>
    rename_i free front r back
    have hpool : ∀ k, q.Mem k → k ∈ pool := fun k hk => hs.outPool r (by simp) k (h.mem hk)
    refine ⟨Ledger.giveBack_sound hs.apart h, ?_, ?_, ?_⟩
    · intro x hx k hk hfree
      obtain ⟨⟨y, hy, hxy⟩, hapart⟩ := Ledger.giveBack_from hs.apart h hx
      rcases hfree with hfree | hq
      · exact hs.notFree y hy k (hxy.mem hk) hfree
      · exact hapart k hk hq
    · intro x hx k hk
      obtain ⟨⟨y, hy, hxy⟩, -⟩ := Ledger.giveBack_from hs.apart h hx
      exact hs.outPool y hy k (hxy.mem hk)
    · rintro k (hk | hk)
      · exact hs.freePool hk
      · exact hpool k hk

end Ranges
