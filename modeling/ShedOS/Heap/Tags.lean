import ShedOS.Heap.Calls

/-!
# The boundary tags

`malloc` never writes the `size_prev` of the header behind a chunk that it has
split: the tag is too large from the first block on.
-/

namespace ShedOS.Heap

open Bytes Tiling
open Memory (U64)

variable {s s' : Space} {m : Mem} {a n k x fuel : Nat} {p : U64} {c : Chunk} {l pre post : List Chunk}
  {es : List (U64 × U64)} {e : U64 × U64}

def tagBehind (m : Mem) (x : Nat) (c : Chunk) : Nat := (m.read64 (x + c.width + 16)).toNat

/-- Every header has the size of the chunk before it, the last one too. -/
def Tagged (m : Mem) (l : List Chunk) : Prop := ∀ x c, (x, c) ∈ places Chunk.width heapStart l → tagBehind m x c = c.size

/-- No header has less than the size of the chunk before it. -/
def Lagging (m : Mem) (l : List Chunk) : Prop := ∀ x c, (x, c) ∈ places Chunk.width heapStart l → c.size ≤ tagBehind m x c

theorem Tagged.lagging (h : Tagged m l) : Lagging m l := fun x c hx => (h x c hx).ge

theorem tagBehind_congr {m' : Mem} (hm : ∀ k, x + c.width + 16 ≤ k → k < x + c.width + 16 + 8 → m' k = m k) :
    tagBehind m' x c = tagBehind m x c := by
  rw [tagBehind, Mem.read64_congr hm, tagBehind]

-- ---------------------------------------------------------------------------
-- The two changes of the list
-- ---------------------------------------------------------------------------

theorem splitMem_tag (hx : x + c.width = a ∨ x + c.width + 24 ≤ a ∨ a + 24 + n + 24 ≤ x + c.width) (old : Nat) :
    tagBehind (splitMem m a n old) x c = tagBehind m x c := by
  refine tagBehind_congr fun k hk hk' => ?_
  rw [splitMem, putHeader_outside (by omega), Mem.setByte_ne (by omega), Mem.write64_outside (by omega)]

theorem header_behind (h : (x, c) ∈ places Chunk.width heapStart l) : x + c.width = tailOf l ∨ x + c.width + 24 ≤ tailOf l := by
  refine (next_place h).imp id fun ⟨d, hd⟩ => ?_
  have hhi : x + c.width + (24 + d.size) ≤ tailOf l := (within hd).2
  omega

theorem Lagging.split (h : Lagging m (pre ++ c :: post)) (hn : n + 24 < c.size)
    (hb : tailOf (pre ++ c :: post) + 24 ≤ 2 ^ 64) :
    Lagging (splitMem m (tailOf pre) n c.size) (pre ++ ⟨true, n⟩ :: ⟨false, c.size - (n + 24)⟩ :: post) ∧
      ¬ Tagged (splitMem m (tailOf pre) n c.size) (pre ++ ⟨true, n⟩ :: ⟨false, c.size - (n + 24)⟩ :: post) := by
  have hstop : tailOf pre + (24 + c.size) ≤ tailOf (pre ++ c :: post) := tailOf_cons ▸ le_stop
  have hplaces : ∀ y d, (y, d) ∈ places Chunk.width heapStart (pre ++ ⟨true, n⟩ :: ⟨false, c.size - (n + 24)⟩ :: post) ↔
      (y, d) ∈ places Chunk.width heapStart pre ∨ (y, d) = (tailOf pre, ⟨true, n⟩) ∨
        (y, d) = (tailOf pre + (24 + n), ⟨false, c.size - (n + 24)⟩) ∨
        (y, d) ∈ places Chunk.width (tailOf pre + (24 + c.size)) post := by
    intro y d
    have hat : tailOf pre + (24 + n) + (24 + (c.size - (n + 24))) = tailOf pre + (24 + c.size) := by omega
    rw [places_append, List.mem_append, ← hat]
    exact or_congr_right (List.mem_cons.trans (or_congr_right List.mem_cons))
  have hold : (tailOf pre, c) ∈ places Chunk.width heapStart (pre ++ c :: post) := mem_places
  have hrest : c.size ≤ tagBehind (splitMem m (tailOf pre) n c.size) (tailOf pre + (24 + n)) ⟨false, c.size - (n + 24)⟩ := by
    have hsame : tagBehind m (tailOf pre + (24 + n)) ⟨false, c.size - (n + 24)⟩ = tagBehind m (tailOf pre) c := by
      simp only [tagBehind, Chunk.width]
      congr 3
      omega
    rw [splitMem_tag (.inr (.inr (by simp only [Chunk.width]; omega))), hsame]
    exact h _ _ hold
  constructor
  · intro y d hy
    rcases (hplaces y d).mp hy with hy | hy | hy | hy
    · rw [splitMem_tag ((header_behind hy).imp id .inl)]
      refine h y d ?_
      rw [places_append]
      exact List.mem_append_left _ hy
    · obtain ⟨rfl, rfl⟩ := Prod.ext_iff.mp hy
      have htag : tagBehind (splitMem m (tailOf pre) n c.size) (tailOf pre) ⟨true, n⟩ = n := by
        rw [tagBehind, splitMem, show tailOf pre + (Chunk.mk true n).width + 16 = tailOf pre + 24 + n + 16 by
          simp only [Chunk.width]; omega, putHeader_sizePrev, toNat_ofNat_lt (by omega)]
      exact htag.ge
    · obtain ⟨rfl, rfl⟩ := Prod.ext_iff.mp hy
      exact (Nat.sub_le _ _).trans hrest
    · have hlo : tailOf pre + (24 + c.size) ≤ y := (within hy).1
      rw [splitMem_tag (.inr (.inr (by simp only [Chunk.width]; omega)))]
      refine h y d ?_
      rw [places_append]
      exact List.mem_append_right _ (List.mem_cons_of_mem _ hy)
  · intro htagged
    have := htagged _ _ ((hplaces _ _).mpr (.inr (.inr (.inl rfl))))
    simp only at this
    omega

theorem growMem_tag (hk : 0 < k) (hx : x + c.width = a ∨ x + c.width + 24 ≤ a) : tagBehind (growMem m a k) x c = tagBehind m x c := by
  refine tagBehind_congr fun j hj hj' => ?_
  rw [growMem, putHeader_outside (by omega), Mem.write64_outside (by omega)]

theorem Lagging.grow (h : Lagging m l) {u : Bool} (hk : 0 < k) (hb : 0x1000 * k < 2 ^ 64) :
    Lagging (growMem m (tailOf l) k) (l ++ [⟨u, 0x1000 * k - 24⟩]) := by
  intro y d hy
  rw [places_append, List.mem_append] at hy
  rcases hy with hy | hy
  · rw [growMem_tag hk (header_behind hy)]
    exact h y d hy
  · obtain ⟨rfl, rfl⟩ := Prod.ext_iff.mp (List.mem_singleton.mp hy)
    have hat : stop Chunk.width heapStart l + (Chunk.mk u (0x1000 * k - 24)).width + 16 = tailOf l + 0x1000 * k + 16 := by
      simp only [Chunk.width, tailOf]
      omega
    rw [tagBehind, hat, growMem, putHeader_sizePrev, toNat_ofNat_lt (by omega)]

-- ---------------------------------------------------------------------------
-- Runs
-- ---------------------------------------------------------------------------

/-- The call finds a chunk with more than `n` bytes and a header, or appends
pages, within the address space, that have more. -/
def LeavesRest (l : List Chunk) (n : Nat) : Prop :=
  n = 0 ∨ Appendable l n ∧
    match l.find? (Chunk.fits (n + 24)) with
    | some c => n + 24 < c.size
    | none => heapEnd < tailOf l + 24 ∨ n + 24 < 0x1000 * pageCount (n + 24) - 24

def LeavesRestIn (s : Space) (n : U64) : Prop := ∃ l, Decodes s l ∧ LeavesRest l n.toNat

def RestStep (s : Space) (e : U64 × U64) (s' : Space) : Prop := LeavesRestIn s e.1 ∧ MallocStep s e s'

/-- A list in memory whose tags may be too large. -/
structure Kept (s : Space) (l : List Chunk) : Prop extends Decodes s l where
  lt : tailOf l + 24 < 2 ^ 64
  lagging : Lagging s.mem l

theorem Kept.step (h : Kept s l) (hstep : RestStep s e s') :
    s' = s ∧ (e.1 = 0 ∨ heapEnd < tailOf l + 24) ∨ e.1 ≠ 0 ∧ ∃ l', Kept s' l' ∧ ¬ Tagged s'.mem l' := by
  obtain ⟨⟨l₀, hdec, hleaves⟩, fuel, hrun⟩ := hstep
  obtain rfl := h.toDecodes.unique hdec
  obtain ⟨v, p⟩ := e
  obtain ⟨n, hn⟩ : ∃ n, n = v.toNat := ⟨_, rfl⟩
  obtain rfl : v = BitVec.ofNat 64 n := by rw [hn, BitVec.ofNat_toNat, BitVec.setWidth_eq]
  have hn64 : n < 2 ^ 64 := hn ▸ BitVec.isLt _
  simp only [← hn] at hleaves
  cases malloc_did h.toDecodes h.lt (fun hn0 => (hleaves.resolve_left hn0).1) hrun hn64 with
  | nothing hn => exact .inl ⟨rfl, .inl (congrArg (BitVec.ofNat 64) hn)⟩
  | full _ hfull => exact .inl ⟨rfl, .inr hfull⟩
  | @found pre post c hn hl hpre hc =>
    subst hl
    have hlt : n + 24 < c.size := by
      have hrest := (hleaves.resolve_left hn).2
      rwa [List.find?_append, List.find?_eq_none.mpr (by simpa using hpre), Option.none_or, List.find?_cons_of_pos hc] at hrest
    have hb := Nat.le_of_lt h.lt
    obtain ⟨hlag, htag⟩ := h.lagging.split hlt hb
    refine .inr ⟨ofNat_ne_zero hn hn64, _, ⟨h.toDecodes.split hn hlt hb, ?_, hlag⟩, htag⟩
    rw [tailOf_split (Nat.le_of_lt hlt)]
    exact h.lt
  | @grown k hn hk hnone hle =>
    obtain ⟨hwrap, happend⟩ := (hleaves.resolve_left hn).1
    have hend := happend hnone hle
    have hlt : n + 24 < 0x1000 * k - 24 := by
      have hrest := (hleaves.resolve_left hn).2
      rw [List.find?_eq_none.mpr (by simpa using hnone)] at hrest
      exact hk ▸ hrest.resolve_left (by omega)
    rw [← hk] at hend
    have hk0 : 0 < k := by omega
    have hgrown : Decodes ⟨growMem s.mem (tailOf l) k, (vmmRequestAt s (BitVec.ofNat 64 (tailOf l + 24)) k).pages⟩ _ :=
      h.toDecodes.grow hk0 (by omega)
    have hlagging := h.lagging.grow (u := s.mem (tailOf l) != 0) hk0 (by omega)
    have hb : tailOf (l ++ [⟨s.mem (tailOf l) != 0, 0x1000 * k - 24⟩]) + 24 < 2 ^ 64 := by
      rw [tailOf_grow hk0]
      omega
    obtain ⟨hlag, htag⟩ := hlagging.split hlt (Nat.le_of_lt hb)
    refine .inr ⟨ofNat_ne_zero hn hn64, _, ⟨hgrown.split hn hlt (Nat.le_of_lt hb), ?_, hlag⟩, htag⟩
    rw [tailOf_split (Nat.le_of_lt hlt)]
    exact hb

theorem mallocInit_kept {s₀ : Space} (hinit : mallocInit s₀ = some s) : Kept s initialChunks ∧ Tagged s.mem initialChunks := by
  obtain ⟨s₁, hinit', hrep, htag, -⟩ := mallocInit_spec s₀
  obtain rfl := Option.some.inj (hinit.symm.trans hinit')
  have htagged : Tagged s.mem initialChunks := by
    intro x c hx
    obtain ⟨rfl, rfl⟩ := Prod.ext_iff.mp (List.mem_singleton.mp hx)
    exact congrArg BitVec.toNat htag
  exact ⟨⟨hrep.toDecodes, by decide, htagged.lagging⟩, htagged⟩

/-- Once a call has left a wrong tag, there is one after every call. -/
theorem Kept.stays (h : Kept s l) (htag : ¬ Tagged s.mem l) (hstep : RestStep s e s') :
    ∃ l', Kept s' l' ∧ ¬ Tagged s'.mem l' := by
  rcases h.step hstep with ⟨rfl, -⟩ | ⟨-, hwrong⟩
  · exact ⟨l, h, htag⟩
  · exact hwrong

theorem Kept.first (h : Kept s initialChunks) (hstep : RestStep s e s') :
    s' = s ∧ e.1 = 0 ∨ e.1 ≠ 0 ∧ ∃ l', Kept s' l' ∧ ¬ Tagged s'.mem l' :=
  (h.step hstep).imp_left fun ⟨hs, h0⟩ => ⟨hs, h0.resolve_right (by decide)⟩

theorem malloc_first (s₀ : Space) : ∃ s s' e, mallocInit s₀ = some s ∧ e.1 = 100#64 ∧ RestStep s e s' := by
  obtain ⟨s, s', -, e, -, hinit, ⟨-, hrun⟩, -, ⟨he, -⟩, -⟩ := two_calls s₀
  have hrest : LeavesRest initialChunks 100 := .inr ⟨⟨by decide, fun _ _ => by decide⟩, show 100 + 24 < 4096 - 48 by decide⟩
  exact ⟨s, s', e, hinit, he, ⟨_, (mallocInit_kept hinit).1.toDecodes, he ▸ hrest⟩, hrun⟩

/-- In every run of calls with a rest the tags are right if and only if every
call asked for 0 bytes. -/
theorem malloc_tags_iff {s₀ : Space} (hinit : mallocInit s₀ = some s) (hrun : Transition.Trace RestStep s es s') :
    ∃ l, Decodes s' l ∧ (Tagged s'.mem l ↔ ∀ e ∈ es, e.1 = 0) := by
  obtain ⟨hkept, htagged⟩ := mallocInit_kept hinit
  have hruns : (s' = s ∧ ∀ e ∈ es, e.1 = 0) ∨ (∃ e ∈ es, e.1 ≠ 0) ∧ ∃ l, Kept s' l ∧ ¬ Tagged s'.mem l := by
    clear hinit
    induction hrun with
    | nil => exact .inl ⟨rfl, fun e he => by cases he⟩
    | snoc _ hstep ih =>
      rcases ih with ⟨rfl, hall⟩ | ⟨⟨e, he, h0⟩, l, hl, htag⟩
      · rcases hkept.first hstep with ⟨rfl, h0⟩ | ⟨h0, hwrong⟩
        · refine .inl ⟨rfl, fun e he => ?_⟩
          rcases List.mem_append.mp he with he | he
          · exact hall e he
          · rwa [List.mem_singleton.mp he]
        · exact .inr ⟨⟨_, List.mem_append_right _ (List.mem_singleton.mpr rfl), h0⟩, hwrong⟩
      · exact .inr ⟨⟨e, List.mem_append_left _ he, h0⟩, hl.stays htag hstep⟩
  rcases hruns with ⟨rfl, hall⟩ | ⟨⟨e, he, h0⟩, l, hl, htag⟩
  · exact ⟨_, hkept.toDecodes, iff_of_true htagged hall⟩
  · exact ⟨l, hl.toDecodes, iff_of_false htag fun hall => h0 (hall e he)⟩

theorem malloc_tags_iff_first : ∃ s s' e l, mallocInit blank = some s ∧ Transition.Trace RestStep s [e] s' ∧ e.1 = 100#64 ∧
    Decodes s' l ∧ (Tagged s'.mem l ↔ ∀ e' ∈ [e], e'.1 = 0) := by
  obtain ⟨s, s', e, hinit, hn, hstep⟩ := malloc_first blank
  obtain ⟨l, hdec, hiff⟩ := malloc_tags_iff hinit (.single hstep)
  exact ⟨s, s', e, l, hinit, .single hstep, hn, hdec, hiff⟩

/-- The last header still has the size that the first chunk had. -/
theorem malloc_breaks_tags : ∃ s s' e, mallocInit blank = some s ∧ Transition.Trace RestStep s [e] s' ∧ e.1 = 100#64 ∧
    ∀ l, Decodes s' l → ¬ Tagged s'.mem l := by
  obtain ⟨s, s', e, hinit, hn, hstep⟩ := malloc_first blank
  refine ⟨s, s', e, hinit, .single hstep, hn, fun l hdec htagged => ?_⟩
  rcases (mallocInit_kept hinit).1.first hstep with ⟨-, h0⟩ | ⟨-, l', hl', htag⟩
  · exact absurd (hn.symm.trans h0) (by decide)
  · exact htag (hl'.toDecodes.unique hdec ▸ htagged)

end ShedOS.Heap
