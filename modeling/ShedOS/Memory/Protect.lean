import ShedOS.Memory.Backing
import ShedOS.Memory.Readonly

/-!
# What is left by paging_make_readonly

The tables stay those they were, the user pages of one table lose their write
bit, and every other translation stays.
-/

namespace ShedOS.Memory

open Bytes

variable {s : Machine Pmm} {m m' : Mem} {label : Labels} {V : Nat → Prop} {k n r b y level : Nat} {v : U64}

theorem Fades.meetsNoHuge (h : Fades m m') : ∀ {level b : Nat}, MeetsNoHuge m b v level → MeetsNoHuge m' b v level
  | 0, _, _ => rfl
  | level + 1, b, hh => by
    refine meetsNoHuge_succ.mpr fun hp => ?_
    rw [h.present] at hp
    obtain ⟨c, hc, hh⟩ := meetsNoHuge_succ.mp hh hp
    exact ⟨c, by rw [h.nextTable, hc], h.meetsNoHuge hh⟩

theorem Label.root_user {p : List (Fin 512)} (hp : UserPath p) : (p.foldl (Label.step k) ⟨r, []⟩).root = r := by
  cases p with
  | nil => rfl
  | cons i p =>
    have hi : ¬ 256 ≤ i.val := Nat.not_le.mpr hp
    rw [List.foldl_cons, Label.root_foldl _ (Label.step_path_ne k _ i)]
    exact if_neg hi

def UserLeaf (m : Mem) (n b : Nat) : Prop := ∃ path, path.length = 3 ∧ UserPath path ∧ tableDescend m n path = some b

theorem UserLeaf.labelled (hf : Forest k m label) (hn : label n = some ⟨n, []⟩) (hb : UserLeaf m n b) :
    ∃ path, path.length = 3 ∧ UserPath path ∧ label b = some ⟨n, path⟩ := by
  obtain ⟨path, hlen, huser, hd⟩ := hb
  have hl := Radix.descend_label hf.labelled (Label.depth_step k) hn (by simp [Label.depth, hlen]) hd
  have hpath := Label.path_foldl (k := k) path ⟨n, []⟩
  have hroot := Label.root_user (k := k) (r := n) huser
  refine ⟨path, hlen, huser, hl.trans (congrArg some ?_)⟩
  cases hlabel : path.foldl (Label.step k) ⟨n, []⟩ with
  | mk root p =>
    rw [hlabel] at hpath hroot
    exact congrArg₂ Label.mk hroot hpath

structure Protects (k n : Nat) (label : Labels) (s s' : Machine Pmm) : Prop where
  backed : Backed k s' label
  others : s' = { s with mem := s'.mem }
  own : ∀ v, kernelHalf v = false → lookup s'.mem n v = readonly (lookup s.mem n v)
  lookup : ∀ r v, label r = some ⟨r, []⟩ → (r ≠ n ∨ kernelHalf v = true) → lookup s'.mem r v = lookup s.mem r v
  bytes : ∀ y, label (y / 0x1000) = none → s'.mem y = s.mem y

theorem protects (h : Backed k s label) (hn : label n = some ⟨n, []⟩) :
    Protects k n label s (pagingMakeReadonly s (framePtr n)) := by
  have hnb := h.forest.bound n _ hn
  obtain ⟨m', hs', hm⟩ := makeReadonly_cleared hnb (noHugeBelow_backed h hn)
  have hleaf : ∀ b, LeafBelow s.mem 4 n b ↔ UserLeaf s.mem n b := fun b => by
    simpa [UserLeaf] using leafBelow_iff (m := s.mem) (a := n) (b := b) (Nat.le_refl 3)
  have hm : Cleared (UserLeaf s.mem n) s.mem m' := hm.congr hleaf
  have hdone := make_readonly_exact s hnb (h.forest.tablesApart hn) fun v hv => by
    rw [meetsHuge_eq hnb]
    exact h.windows n v hn (not_inWindow_user hv)
  rw [pagingMakeReadonly, hs'] at hdone ⊢
  -- the root tables are no leaf tables
  have hroot : ∀ r i, label r = some ⟨r, []⟩ → tableRead m' r i = tableRead s.mem r i := fun r i hr => by
    refine hm.other fun hb => ?_
    obtain ⟨path, hlen, -, hl⟩ := hb.labelled h.forest hn
    obtain rfl : [] = path := congrArg Label.path (Option.some.inj (hr.symm.trans hl))
    cases hlen
  refine ⟨⟨⟨⟨?_, h.forest.bound, h.forest.root, h.forest.kernel, ?_, ?_⟩, h.kernelTable, h.handed⟩, ?_, h.walled, h.reach, h.locked⟩,
    rfl, fun v hv => ?_, fun r v hr hne => ?_, fun y hy => ?_⟩
  · intro c l i g hc hd hg
    rw [hm.fades.nextTable] at hg
    exact h.forest.labelled c l i g hc hd hg
  · intro i hi
    rw [hm.fades.nextTable]
    exact h.forest.upper i hi
  · intro r hr i hi
    rw [hroot r i hr, hroot k i h.forest.kernel]
    exact h.forest.shared r hr i hi
  · exact fun r v hr hw => hm.fades.meetsNoHuge (h.windows r v hr hw)
  · have := hdone.user v hv
    rwa [pagingGet_lookup hnb, pagingGet_lookup hnb] at this
  · refine congrArg walkValue (hm.walk fun p q c hpq hq hd hb => ?_)
    obtain ⟨path, hlen, huser, hl⟩ := hb.labelled h.forest hn
    have hle : p.length ≤ 3 := by
      have hsum := congrArg List.length hpq
      have hpos := List.length_pos_iff.mpr hq
      simp at *
      omega
    have hl' := Radix.descend_label h.forest.labelled (Label.depth_step k) hr (by simpa [Label.depth] using hle) hd
    have hlabel := Option.some.inj (hl'.symm.trans hl)
    obtain rfl : p = path := by
      have := congrArg Label.path hlabel
      rwa [Label.path_foldl] at this
    rcases hne with hne | hkernel
    · have hrn := congrArg Label.root hlabel
      rw [Label.root_user huser] at hrn
      exact hne hrn
    · cases p with
      | nil => cases hlen
      | cons j p =>
        have hj : j = tableIndex v 3 := (List.cons.inj hpq).1
        have hlt : (tableIndex v 3).val < 256 := hj ▸ huser
        exact absurd (of_decide_eq_true hkernel) (Nat.not_le.mpr hlt)
  · refine hm.outside y fun hb => ?_
    obtain ⟨path, -, -, hl⟩ := hb.labelled h.forest hn
    rw [hy] at hl
    cases hl

end ShedOS.Memory
