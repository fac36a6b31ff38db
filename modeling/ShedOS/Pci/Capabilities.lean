import ShedOS.Lib.While
import ShedOS.Memory.AddrUtil

/-!
# PCI capabilities

`pci_get_cap` follows offsets, but looks for the end of the list at a pointer.
-/

namespace ShedOS.Pci

open Memory (U64)
open While (Ends Goes)
open Relation (ReflTransGen)

abbrev ConfSpace := U64 → BitVec 8

/-- The fields of the `pci_cap_hdr` at `hdr`. -/
def capId (conf : ConfSpace) (hdr : U64) : BitVec 8 := conf hdr
def next (conf : ConfSpace) (hdr : U64) : BitVec 8 := conf (hdr + 1)

/-- A round of the loop, at `hdr`: the comparison is one of ints. -/
def pciGetCapRound (conf : ConfSpace) (confBase : U64) (cap : BitVec 16) (hdr : U64) : U64 ⊕ Option U64 :=
  if hdr = 0 then .inr none
  else if (capId conf hdr).setWidth 16 = cap then .inr (some hdr)
  else .inl ((next conf hdr).setWidth 64 + confBase)

/-- The pointers that the loop comes to, and what it finds: `some none` is
`false`. -/
def pciGetCap (conf : ConfSpace) (capPtr confBase : U64) (cap : BitVec 16) (fuel : Nat) : List U64 × Option (Option U64) :=
  While.run (pciGetCapRound conf confBase cap) fuel (capPtr + confBase)

/-- The offsets of the list, from the capabilities pointer `ptr` on. -/
def CapList (conf : ConfSpace) (base : U64) : (ptr : U64) → List U64 → Prop
  | ptr, [] => ptr = 0
  | ptr, o :: l => ptr = o ∧ o ≠ 0 ∧ CapList conf base ((next conf (o + base)).setWidth 64) l

variable {conf : ConfSpace} {base ptr o hdr : U64} {cap : BitVec 16} {l pre post visited : List U64} {r : Option U64}

def Matches (conf : ConfSpace) (base : U64) (cap : BitVec 16) (o : U64) : Prop := (capId conf (o + base)).setWidth 16 = cap

instance (o : U64) : Decidable (Matches conf base cap o) := inferInstanceAs (Decidable (_ = _))

/-- The search ends, has looked at capabilities of the list only, and finds the
first one with the id, if there is one. -/
def SearchesExactly (conf : ConfSpace) (ptr base : U64) (cap : BitVec 16) (l : List U64) : Prop := ∃ fuel visited r,
  pciGetCap conf ptr base cap fuel = (visited, some r) ∧ (∀ hdr ∈ visited, hdr ≠ 0 → ∃ o ∈ l, hdr = o + base) ∧
    r = (l.find? (Matches conf base cap ·)).map (· + base)

def Stops (conf : ConfSpace) (base : U64) (cap : BitVec 16) (o : U64) : Prop := o + base = 0 ∨ Matches conf base cap o

instance (o : U64) : Decidable (Stops conf base cap o) := inferInstanceAs (Decidable (_ ∨ _))

-- ---------------------------------------------------------------------------
-- The loop on the list
-- ---------------------------------------------------------------------------

theorem round_stop (h : Stops conf base cap o) :
    pciGetCapRound conf base cap (o + base) = .inr (if o + base = 0 then none else some (o + base)) := by
  unfold pciGetCapRound
  split
  · rfl
  next h0 => exact if_pos (h.resolve_left h0)

theorem round_go (h : ¬ Stops conf base cap o) :
    pciGetCapRound conf base cap (o + base) = .inl ((next conf (o + base)).setWidth 64 + base) := by
  unfold pciGetCapRound
  rw [if_neg fun h0 => h (.inl h0)]
  exact if_neg fun hmatch => h (.inr hmatch)

theorem ends_at_stop (hl : CapList conf base ptr (pre ++ o :: post)) (hpre : ∀ p ∈ pre, ¬ Stops conf base cap p)
    (ho : Stops conf base cap o) : Ends (pciGetCapRound conf base cap) (ptr + base) ((pre ++ [o]).map (· + base))
      (if o + base = 0 then none else some (o + base)) := by
  induction pre generalizing ptr with
  | nil =>
    obtain ⟨rfl, -, -⟩ := hl
    exact (While.ends_inr (round_stop ho)).mpr ⟨rfl, rfl⟩
  | cons p pre ih =>
    obtain ⟨rfl, -, hl⟩ := hl
    have htail := ih hl fun q hq => hpre q (List.mem_cons_of_mem _ hq)
    exact (While.ends_inl (round_go (hpre _ List.mem_cons_self))).mpr ⟨_, rfl, htail⟩

theorem reaches_base (hl : CapList conf base ptr l) (h : ∀ p ∈ l, ¬ Stops conf base cap p) :
    ReflTransGen (Goes (pciGetCapRound conf base cap)) (ptr + base) base := by
  induction l generalizing ptr with
  | nil =>
    obtain rfl : ptr = 0 := hl
    rw [show 0 + base = base by bv_omega]
  | cons p l ih =>
    obtain ⟨rfl, -, hl⟩ := hl
    exact .head (round_go (h _ List.mem_cons_self)) (ih hl fun q hq => h q (List.mem_cons_of_mem _ hq))

theorem CapList.nonzero (hl : CapList conf base ptr l) (ho : o ∈ l) : o ≠ 0 := by
  induction l generalizing ptr with
  | nil => cases ho
  | cons p l ih =>
    obtain ⟨-, h0, hl⟩ := hl
    rcases List.mem_cons.mp ho with rfl | ho
    · exact h0
    · exact ih hl ho

-- ---------------------------------------------------------------------------
-- When the search is exact
-- ---------------------------------------------------------------------------

/-- Some capability of the list stops the loop, and the first one that does is
not in the way of a later one: it is found, or lies at address 0 in a list
without the id. -/
def StopsRightly (conf : ConfSpace) (base : U64) (cap : BitVec 16) (l : List U64) : Prop :=
  match l.find? (Stops conf base cap ·) with
  | none => False
  | some o => o + base ≠ 0 ∨ ∀ p ∈ l, ¬ Matches conf base cap p

theorem pciGetCap_exact_iff (hbase : base ≠ 0) (hl : CapList conf base ptr l) :
    SearchesExactly conf ptr base cap l ↔ StopsRightly conf base cap l := by
  unfold StopsRightly
  cases hfind : l.find? (Stops conf base cap ·) with
  | none =>
    refine iff_of_false ?_ not_false
    rintro ⟨fuel, visited, r, hrun, hvisited, -⟩
    have hnone : ∀ p ∈ l, ¬ Stops conf base cap p := by simpa using hfind
    have hends : Ends _ _ visited r := ⟨fuel, hrun⟩
    obtain ⟨o, ho, heq⟩ := hvisited base (hends.mem_iff.mpr (reaches_base hl hnone)) hbase
    refine hl.nonzero ho ?_
    bv_omega
  | some o =>
    obtain ⟨ho, pre, post, rfl, hpre⟩ := List.find?_eq_some_iff_append.mp hfind
    have ho : Stops conf base cap o := of_decide_eq_true ho
    have hpre : ∀ p ∈ pre, ¬ Stops conf base cap p := by simpa using hpre
    have hends := ends_at_stop hl hpre ho
    constructor
    · rintro ⟨fuel, visited, r, hrun, -, hr⟩
      obtain ⟨-, hresult⟩ := hends.unique ⟨fuel, hrun⟩
      by_cases h0 : o + base = 0
      · rw [if_pos h0, hr, eq_comm, Option.map_eq_none_iff, List.find?_eq_none] at hresult
        exact .inr (by simpa using hresult)
      · exact .inl h0
    · intro hright
      obtain ⟨fuel, hrun⟩ := hends
      refine ⟨fuel, _, _, hrun, fun hdr hhdr _ => ?_, ?_⟩
      · obtain ⟨p, hp, rfl⟩ := List.mem_map.mp hhdr
        refine ⟨p, ?_, rfl⟩
        rcases List.mem_append.mp hp with hp | hp
        · exact List.mem_append_left _ hp
        · rw [List.mem_singleton.mp hp]
          exact List.mem_append_right _ List.mem_cons_self
      · by_cases h0 : o + base = 0
        · have hnone := hright.resolve_left (not_not_intro h0)
          rw [if_pos h0, eq_comm, Option.map_eq_none_iff, List.find?_eq_none]
          simpa using hnone
        · have hfirst : (pre ++ o :: post).find? (Matches conf base cap ·) = some o := by
            refine List.find?_eq_some_iff_append.mpr ⟨decide_eq_true (ho.resolve_left h0), pre, post, rfl, ?_⟩
            intro p hp
            simpa using fun hmatch => hpre p hp (.inr hmatch)
          rw [if_neg h0, hfirst]
          rfl

def sampleConf : ConfSpace := fun a =>
  if a = 0xe0000040 then 0x05 else if a = 0xe0000041 then 0x50 else if a = 0xe0000050 then 0x11 else 0

theorem sampleConf_list : CapList sampleConf 0xe0000000 0x40 [0x40, 0x50] := by
  have hnext : (next sampleConf (0x40 + 0xe0000000)).setWidth 64 = (0x50 : U64) := by decide
  have hlast : (next sampleConf (0x50 + 0xe0000000)).setWidth 64 = (0 : U64) := by decide
  exact ⟨rfl, by decide, hnext, by decide, hlast⟩

theorem pciGetCap_exact_iff_msix : SearchesExactly sampleConf 0x40 0xe0000000 0x11 [0x40, 0x50] ↔
    StopsRightly sampleConf 0xe0000000 0x11 [0x40, 0x50] :=
  pciGetCap_exact_iff (by decide) sampleConf_list

/-- Capability 0x10 is not there: the loop goes on with the vendor id of the device. -/
theorem pciGetCap_leaves_list : CapList sampleConf 0xe0000000 0x40 [0x40, 0x50] ∧
    (pciGetCap sampleConf 0x40 0xe0000000 0x10 3).1 = [0xe0000040, 0xe0000050, 0xe0000000] ∧
    ¬ SearchesExactly sampleConf 0x40 0xe0000000 0x10 [0x40, 0x50] := by
  refine ⟨sampleConf_list, by decide, ?_⟩
  rintro ⟨fuel, visited, r, hrun, hvisited, -⟩
  have hends : Ends _ _ visited r := ⟨fuel, hrun⟩
  have hreach : ReflTransGen (Goes (pciGetCapRound sampleConf 0xe0000000 0x10)) (0x40 + 0xe0000000) 0xe0000000 :=
    reaches_base sampleConf_list (List.forall_mem_cons.mpr ⟨by decide, List.forall_mem_singleton.mpr (by decide)⟩)
  obtain ⟨o, ho, heq⟩ := hvisited _ (hends.mem_iff.mpr hreach) (by decide)
  refine sampleConf_list.nonzero ho ?_
  bv_omega

end ShedOS.Pci
