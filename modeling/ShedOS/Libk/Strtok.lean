import ShedOS.Libk.Strings

/-!
# strtok

`strtok` keeps where it is between two calls, and cuts the string by writing a
NUL over each delimiter. One tokenisation is a call with the string and then
calls with NULL, until one returns NULL.
-/

namespace ShedOS.Libk

open Memory (U64)

variable {m m' : VMem} {a s x : U64} {delim c : Chr} {fuel calls : Nat} {l w : List Chr}

-- ---------------------------------------------------------------------------
-- The source
-- ---------------------------------------------------------------------------

/-- Memory with the static `strtok_s`; NULL is 0. -/
structure Strtok where
  mem : VMem
  strtokS : U64

/-- The loop of `strtok`: where `strtok_s` stops. -/
def strtokScan (m : VMem) (delim : Chr) : (strtokS : U64) → (fuel : Nat) → Option U64
  | _, 0 => none
  | strtokS, fuel + 1 => do
    let c ← m strtokS
    if c ≠ 0 ∧ c ≠ delim then strtokScan m delim (strtokS + 1) fuel else return strtokS

def strtok (st : Strtok) (s : U64) (delim : Chr) (fuel : Nat) : Option (U64 × Strtok) :=
  if st.strtokS = 0 ∧ s = 0 then some (0, st)
  else do
    let start := if st.strtokS = 0 then s else st.strtokS
    let strtokS ← strtokScan st.mem delim start fuel
    let c ← st.mem strtokS
    if c = 0 then return (start, { st with strtokS := 0 })
    let m ← store st.mem strtokS 0
    return (start, ⟨m, strtokS + 1⟩)

def strtokAll (delim : Chr) (fuel : Nat) : Strtok → (s : U64) → (calls : Nat) → Option (List (U64 × VMem) × Strtok)
  | _, _, 0 => none
  | st, s, calls + 1 => do
    let (p, st) ← strtok st s delim fuel
    if p = 0 then return ([], st)
    let (rest, last) ← strtokAll delim fuel st 0 calls
    return ((p, st.mem) :: rest, last)

-- ---------------------------------------------------------------------------
-- One call
-- ---------------------------------------------------------------------------

structure CString (m : VMem) (s : U64) (l : List Chr) : Prop where
  reads : Reads m s (l ++ [0])
  nonzero : 0 ∉ l
  start : s ≠ 0
  fits : s.toNat + l.length < 2 ^ 64

def cut (m : VMem) (s : U64) (delim : Chr) (l : List Chr) : VMem :=
  fun x => if l[(x - s).toNat]? = some delim then some 0 else m x

theorem strtokScan_eq (h : Reads m a (w ++ [c])) (hw : ∀ c ∈ w, c ≠ 0 ∧ c ≠ delim) (hc : ¬(c ≠ 0 ∧ c ≠ delim))
    (hfuel : w.length < fuel) : strtokScan m delim a fuel = some (a + BitVec.ofNat 64 w.length) := by
  obtain ⟨fuel, rfl⟩ : ∃ fuel', fuel = fuel' + 1 := ⟨fuel - 1, by omega⟩
  induction w generalizing a fuel with
  | nil =>
    rw [strtokScan, (reads_cons.mp h).1]
    simp only [Option.bind_eq_bind, Option.bind_some, if_neg hc]
    rw [List.length_nil, BitVec.add_zero]
    rfl
  | cons d w ih =>
    obtain ⟨hd, htail⟩ := reads_cons.mp h
    rw [List.length_cons] at hfuel
    obtain ⟨fuel, rfl⟩ : ∃ fuel', fuel = fuel' + 1 := ⟨fuel - 1, by omega⟩
    rw [strtokScan, hd]
    simp only [Option.bind_eq_bind, Option.bind_some, if_pos (hw d List.mem_cons_self)]
    rw [ih htail (fun c hc => hw c (List.mem_cons_of_mem _ hc)) fuel (by omega), add_one_add]
    rfl

variable {st : Strtok}

def At (st : Strtok) (s a : U64) : Prop := a ≠ 0 ∧ (if st.strtokS = 0 then s else st.strtokS) = a

theorem strtok_idle (h : st.strtokS = 0) : strtok st 0 delim fuel = some (0, st) := if_pos ⟨h, rfl⟩

theorem At.ne (h : At st s a) : ¬(st.strtokS = 0 ∧ s = 0) := by
  rintro ⟨h0, rfl⟩
  obtain ⟨ha, hat⟩ := h
  rw [if_pos h0] at hat
  exact ha hat.symm

theorem strtok_last (hat : At st s a) (h : Reads st.mem a (w ++ [0])) (hw : ∀ c ∈ w, c ≠ 0 ∧ c ≠ delim)
    (hfuel : w.length < fuel) : strtok st s delim fuel = some (a, { st with strtokS := 0 }) := by
  have hend : st.mem (a + BitVec.ofNat 64 w.length) = some 0 := by
    rw [h w.length (by simp)]
    simp
  rw [strtok, if_neg hat.ne]
  simp only [hat.2, strtokScan_eq h hw (by simp) hfuel, Option.bind_eq_bind, Option.bind_some, hend, if_true]
  rfl

theorem strtok_field (hat : At st s a) (h : Reads st.mem a (w ++ [delim])) (hdelim : delim ≠ 0)
    (hw : ∀ c ∈ w, c ≠ 0 ∧ c ≠ delim) (hfuel : w.length < fuel) :
    strtok st s delim fuel = some (a, ⟨Function.update st.mem (a + BitVec.ofNat 64 w.length) (some 0),
      a + BitVec.ofNat 64 (w.length + 1)⟩) := by
  have hend : st.mem (a + BitVec.ofNat 64 w.length) = some delim := by
    rw [h w.length (by simp)]
    simp
  have hstore : store st.mem (a + BitVec.ofNat 64 w.length) 0 =
      some (Function.update st.mem (a + BitVec.ofNat 64 w.length) (some 0)) := store_eq (by rw [hend]; rfl)
  rw [strtok, if_neg hat.ne]
  simp only [hat.2, strtokScan_eq h hw (by simp) hfuel, Option.bind_eq_bind, Option.bind_some, hend, if_neg hdelim, hstore]
  rw [BitVec.ofNat_add, ← BitVec.add_assoc]
  rfl

-- ---------------------------------------------------------------------------
-- One tokenisation
-- ---------------------------------------------------------------------------

def fieldStarts (a : U64) : List (List Chr) → List U64
  | [] => []
  | field :: fields => a :: fieldStarts (a + BitVec.ofNat 64 (field.length + 1)) fields

/-- The calls returned the fields of the string at `s`. Each field is there when
its call returns and when the last one does. -/
structure Splits (m : VMem) (s : U64) (delim : Chr) (l : List Chr) (returned : List (U64 × VMem)) (m' : VMem) : Prop where
  starts : returned.map Prod.fst = fieldStarts s (l.splitOn delim)
  fields : List.Forall₂ (fun r field => Reads r.2 r.1 (field ++ [0]) ∧ Reads m' r.1 (field ++ [0])) returned
    (l.splitOn delim)
  mem : m' = cut m s delim l

theorem cut_none (h : delim ∉ l) : cut m s delim l = m := by
  funext x
  unfold cut
  rw [if_neg]
  exact fun hx => h (List.mem_of_getElem? hx)

theorem cut_outside (h : l.length ≤ (x - s).toNat) : cut m s delim l x = m x := by
  unfold cut
  rw [List.getElem?_eq_none h, if_neg (by simp)]

theorem cut_field (hw : delim ∉ w) (hlen : w.length + 1 + l.length ≤ 2 ^ 64) :
    cut m a delim (w ++ delim :: l) =
      cut (Function.update m (a + BitVec.ofNat 64 w.length) (some 0)) (a + BitVec.ofNat 64 (w.length + 1)) delim l := by
  funext x
  by_cases hx : x = a + BitVec.ofNat 64 w.length
  · have hk : (x - a).toNat = w.length := by bv_omega
    have hend : l.length ≤ (x - (a + BitVec.ofNat 64 (w.length + 1))).toNat := le_sub_of_lt (by omega) hlen
    rw [cut_outside hend, hx, Function.update_self, cut, ← hx, hk, List.getElem?_append_right (Nat.le_refl _),
      Nat.sub_self, List.getElem?_cons_zero, if_pos rfl]
  have hkeep : Function.update m (a + BitVec.ofNat 64 w.length) (some 0) x = m x := Function.update_of_ne hx _ _
  have hne : (x - a).toNat ≠ w.length := by
    intro he
    refine hx ?_
    rw [← he, BitVec.ofNat_toNat, BitVec.setWidth_eq]
    bv_omega
  by_cases hlt : (x - a).toNat < w.length
  · have hend : l.length ≤ (x - (a + BitVec.ofNat 64 (w.length + 1))).toNat := le_sub_of_lt (by omega) hlen
    rw [cut_outside hend, hkeep, cut, List.getElem?_append_left hlt, if_neg]
    exact fun he => hw (List.mem_of_getElem? he)
  · have hoff : (x - a).toNat - w.length = (x - (a + BitVec.ofNat 64 (w.length + 1))).toNat + 1 := by bv_omega
    rw [cut, cut, hkeep, List.getElem?_append_right (by omega), hoff, List.getElem?_cons_succ]

theorem CString.rest (h : CString m a (w ++ delim :: l)) :
    CString (Function.update m (a + BitVec.ofNat 64 w.length) (some 0)) (a + BitVec.ofNat 64 (w.length + 1)) l := by
  have hfits := h.fits
  have hreads := h.reads
  rw [List.length_append, List.length_cons] at hfits
  refine ⟨?_, fun h0 => h.nonzero (List.mem_append_right _ (List.mem_cons_of_mem _ h0)), ?_, ?_⟩
  · have hdrop : Reads m (a + BitVec.ofNat 64 (w.length + 1)) (l ++ [0]) := by
      have hsplit : w ++ delim :: l ++ [0] = (w ++ [delim]) ++ (l ++ [0]) := by simp
      have hdrop := hreads.drop (o := w.length + 1)
      rwa [hsplit, List.drop_left' (by simp)] at hdrop
    refine hdrop.update fun i hi => ?_
    simp only [List.length_append, List.length_singleton] at hi
    bv_omega
  · bv_omega
  · bv_omega

theorem CString.field (h : CString m a (w ++ delim :: l)) :
    Reads (Function.update m (a + BitVec.ofNat 64 w.length) (some 0)) a (w ++ [0]) := by
  have hfits := h.fits
  rw [List.length_append, List.length_cons] at hfits
  intro i hi
  rw [List.length_append, List.length_singleton] at hi
  by_cases hlast : i = w.length
  · rw [hlast, Function.update_self, List.getElem?_concat_length]
  · have hne : a + BitVec.ofNat 64 i ≠ a + BitVec.ofNat 64 w.length := by bv_omega
    have hlt : i < w.length := by omega
    rw [Function.update_of_ne hne, h.reads i (by simp; omega), List.append_assoc, List.getElem?_append_left hlt,
      List.getElem?_append_left hlt]

theorem Reads.cut {b : U64} (h : Reads m a w) (hb : b = a + BitVec.ofNat 64 w.length) (hlen : w.length + l.length ≤ 2 ^ 64) :
    Reads (cut m b delim l) a w :=
  h.congr fun i hi => cut_outside (hb ▸ le_sub_of_lt (by bv_omega) hlen)

theorem strtokAll_splits (hdelim : delim ≠ 0) (hat : At st s a) (h : CString st.mem a l) (hfuel : l.length < fuel)
    (hcalls : l.length + 1 < calls) : ∃ returned, strtokAll delim fuel st s calls = some (returned, ⟨cut st.mem a delim l, 0⟩) ∧
      Splits st.mem a delim l returned (cut st.mem a delim l) := by
  -- by what is left of the string
  induction hn : l.length using Nat.strong_induction_on generalizing l st s a calls with
  | _ n ih =>
    subst hn
    obtain ⟨calls, rfl⟩ : ∃ calls', calls = calls' + 1 := ⟨calls - 1, by omega⟩
    by_cases hmem : delim ∈ l
    · obtain ⟨w, rest, rfl, hw⟩ := List.eq_append_cons_of_mem hmem
      have hfits := h.fits
      simp only [List.length_append, List.length_cons] at hfits hfuel hcalls ih
      have hchars : ∀ c ∈ w, c ≠ 0 ∧ c ≠ delim := fun c hc =>
        ⟨fun h0 => h.nonzero (List.mem_append_left _ (h0 ▸ hc)), fun he => hw (he ▸ hc)⟩
      have hreads : Reads st.mem a (w ++ [delim]) := by
        have hreads := h.reads
        rw [List.append_assoc, List.cons_append, List.append_cons] at hreads
        exact hreads.left
      have hcut := cut_field (m := st.mem) (a := a) (l := rest) hw (by omega)
      have hnext : a + BitVec.ofNat 64 (w.length + 1) ≠ 0 := h.rest.start
      have hat' : At ⟨Function.update st.mem (a + BitVec.ofNat 64 w.length) (some 0), a + BitVec.ofNat 64 (w.length + 1)⟩
          0 (a + BitVec.ofNat 64 (w.length + 1)) := ⟨hnext, if_neg hnext⟩
      obtain ⟨returned, hrest, hsplits⟩ := ih rest.length (by omega) hat' h.rest (by omega)
        (show rest.length + 1 < calls by omega) rfl
      refine ⟨(a, Function.update st.mem (a + BitVec.ofNat 64 w.length) (some 0)) :: returned, ?_, ?_⟩
      · rw [strtokAll, strtok_field hat hreads hdelim hchars (by omega)]
        simp only [Option.bind_eq_bind, Option.bind_some, if_neg hat.1, hrest, hcut]
        rfl
      · have hkept : Reads (cut st.mem a delim (w ++ delim :: rest)) a (w ++ [0]) := by
          rw [hcut]
          exact h.field.cut (by rw [List.length_append]; rfl) (by simp; omega)
        refine ⟨?_, ?_, rfl⟩
        · rw [List.splitOn_append_cons_self_of_not_mem hw, List.map_cons, hsplits.starts]
          rfl
        · rw [List.splitOn_append_cons_self_of_not_mem hw]
          refine .cons ⟨h.field, hkept⟩ ?_
          rw [hcut]
          exact hsplits.fields
    · have hchars : ∀ c ∈ l, c ≠ 0 ∧ c ≠ delim := fun c hc => ⟨fun h0 => h.nonzero (h0 ▸ hc), fun he => hmem (he ▸ hc)⟩
      obtain ⟨calls, rfl⟩ : ∃ calls', calls = calls' + 1 := ⟨calls - 1, by omega⟩
      rw [cut_none hmem]
      refine ⟨[(a, st.mem)], ?_, ?_, ?_, (cut_none hmem).symm⟩
      · rw [strtokAll, strtok_last hat h.reads hchars hfuel]
        simp only [Option.bind_eq_bind, Option.bind_some, if_neg hat.1]
        rw [strtokAll, strtok_idle rfl]
        rfl
      · rw [List.splitOn_eq_singleton hmem]
        rfl
      · rw [List.splitOn_eq_singleton hmem]
        exact .cons ⟨h.reads, h.reads⟩ .nil

-- ---------------------------------------------------------------------------
-- One after the other
-- ---------------------------------------------------------------------------

structure Job where
  s : U64
  delim : Chr
  text : List Chr

/-- Each string is there when its turn comes; that may be a field of an earlier
one. -/
def Ready : VMem → List Job → Prop
  | _, [] => True
  | m, job :: jobs => job.delim ≠ 0 ∧ CString m job.s job.text ∧ Ready (cut m job.s job.delim job.text) jobs

inductive SplitsAll (fuel : Nat) : Strtok → List Job → Strtok → Prop
  | nil {st : Strtok} : SplitsAll fuel st [] st
  | cons {st st₁ st' : Strtok} {job : Job} {jobs : List Job} {returned : List (U64 × VMem)}
    (run : strtokAll job.delim fuel st job.s fuel = some (returned, st₁))
    (splits : Splits st.mem job.s job.delim job.text returned st₁.mem) (idle : st₁.strtokS = 0)
    (rest : SplitsAll fuel st₁ jobs st') : SplitsAll fuel st (job :: jobs) st'

/-- From the idle state any number of strings are split, with nothing but their
delimiters written: a byte outside of them need not be there. -/
theorem strtok_splits {jobs : List Job} (hidle : st.strtokS = 0) (hready : Ready st.mem jobs)
    (hfuel : ∀ job ∈ jobs, job.text.length + 1 < fuel) : ∃ st', SplitsAll fuel st jobs st' ∧ st'.strtokS = 0 := by
  induction jobs generalizing st with
  | nil => exact ⟨st, .nil, hidle⟩
  | cons job jobs ih =>
    obtain ⟨hdelim, hstring, hready⟩ := hready
    have hlt := hfuel job List.mem_cons_self
    obtain ⟨returned, hrun, hsplits⟩ := strtokAll_splits hdelim ⟨hstring.start, if_pos hidle⟩ hstring
      (Nat.lt_of_succ_lt hlt) hlt
    have hidle₁ : (⟨cut st.mem job.s job.delim job.text, 0⟩ : Strtok).strtokS = 0 := rfl
    obtain ⟨st', hrest, hidle'⟩ := ih hidle₁ hready fun job hjob =>
      hfuel job (List.mem_cons_of_mem _ hjob)
    exact ⟨st', .cons hrun hsplits rfl hrest, hidle'⟩

def listMem : VMem := fun x => some (("a,,bc,".toList.map chr).getD (x.toNat - 0x1000) 0)

def listJobs : List Job := [⟨0x1000, chr ',', "a,,bc,".toList.map chr⟩, ⟨0x1003, chr 'c', "bc".toList.map chr⟩]

theorem listJobs_ready : Ready listMem listJobs := by
  refine ⟨by decide, ⟨fun i hi => ?_, by decide, by decide, by decide⟩, by decide,
    ⟨fun i hi => ?_, by decide, by decide, by decide⟩, trivial⟩
  · replace hi : i < 7 := hi
    interval_cases i <;> rfl
  · replace hi : i < 3 := hi
    interval_cases i <;> rfl

theorem strtok_splits_list : ∃ st', SplitsAll 10 ⟨listMem, 0⟩ listJobs st' ∧ st'.strtokS = 0 :=
  strtok_splits rfl listJobs_ready (by decide)

end ShedOS.Libk
