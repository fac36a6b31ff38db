import ShedOS.Memory.Backing

/-!
# Ranges of pages

What `vmm_request_at` maps. It draws the frames for data and for tables from
one allocator, page by page.
-/

namespace ShedOS.Memory

open Bytes Loops

variable {s s' t : Machine Pmm} {k n r f i count : Nat} {label label' : Labels} {new : List U64}
  {v v' w w' : U64} {flags : BitVec 8}

-- ---------------------------------------------------------------------------
-- One page
-- ---------------------------------------------------------------------------

/-- The entry that `vmm_request_at` makes for the frame `f`. -/
def dataEntry (f : Nat) (flags : BitVec 8) : U64 :=
  BitVec.ofNat 64 (0x1000 * f) ||| flags.setWidth 64 ||| PAGING_PRESENT

theorem present_dataEntry : present (dataEntry f flags) = true := present_leaf

theorem frameOf_dataEntry (hf : f < frameLimit) : frameOf (dataEntry f flags) = f := by
  rw [dataEntry, BitVec.or_assoc, frameOf_frame_or hf (toNat_flags flags)]

structure NewPage (k n f : Nat) (v : U64) (flags : BitVec 8) (new : List U64) (s : Machine Pmm) (label : Labels)
    (s' : Machine Pmm) (label' : Labels) : Prop where
  backed : Backed k s' label'
  answers : Answers s.frames s'.frames new
  free : f ∈ s.frames.freeFrames
  taken : s'.frames.bit f = true
  noTable : label' f = none
  keeps : ∀ n l, label n = some l → label' n = some l
  fresh : ∀ n l, label' n = some l → label n = some l ∨ n ∈ s.frames.freeFrames
  lookup : ∀ r w, label r = some ⟨r, []⟩ →
    lookup s'.mem r w = if SamePage k n v r w then dataEntry f flags else lookup s.mem r w
  stops : ∀ r w, label r = some ⟨r, []⟩ → MeetsNoHuge s.mem r w 3 → MeetsNoHuge s'.mem r w 3

theorem vmmRequestPage_new (h : Backed k s label) (hn : label n = some ⟨n, []⟩)
    (habsent : present (lookup s.mem n v) = false) (hs : Served s (vmmRequestPage s (framePtr n) v flags)) :
    ∃ f new label', NewPage k n f v flags new s label (vmmRequestPage s (framePtr n) v flags) label' := by
  obtain ⟨c, -, hc⟩ := vmmRequestPage_allocates s (framePtr n) v flags
  obtain ⟨new, hnew, ha⟩ := hc.answers h.walled hs
  obtain ⟨p, new', label', rfl, hu, hinv, hunused⟩ := vmmRequestPage_spec h.toPagingInv hn
    (meetsNoHuge_of_absent habsent) habsent hnew (h.fresh ha)
  have hp : p ∈ new' ++ [p] := by simp
  have hfree := ha.free p hp
  have hfresh : ∀ n l, label' n = some l → label n = some l ∨ (l.path ≠ [] ∧ n ∈ (new' ++ [p]).map frameNo) := by
    intro n l hl
    rcases hu.fresh n l hl with hl | ⟨hpath, hmem⟩
    · exact .inl hl
    · exact .inr ⟨hpath, by rw [List.map_append]; exact List.mem_append_left _ hmem⟩
  refine ⟨frameNo p, new' ++ [p], label', h.step ha hinv hfresh hu.stops, ha, hfree, ?_, hunused, hu.keeps, ?_, ?_,
    hu.stops⟩
  · rw [ha.bits, decide_eq_true (List.mem_map_of_mem hp), Bool.true_or]
  · intro n l hl
    refine (hfresh n l hl).imp_right ?_
    rintro ⟨-, hmem⟩
    obtain ⟨q, hq, rfl⟩ := List.mem_map.mp hmem
    exact ha.free q hq
  · intro r w hr
    rw [hu.lookup r w hr, ha.aligned p hp, frameNo_frame (h.walled.frame_lt hfree.1)]
    rfl

-- ---------------------------------------------------------------------------
-- vmm_request_at
-- ---------------------------------------------------------------------------

def rangePage (v : U64) (i : Nat) : U64 := v + BitVec.ofNat 64 (i * 0x1000)

theorem rangePage_zero : rangePage v 0 = v := by
  rw [rangePage, Nat.zero_mul]
  exact BitVec.add_zero v

def InRange (n : Nat) (v : U64) (count r : Nat) (w : U64) : Prop :=
  ∃ i < count, pageOf (rangePage v i) = pageOf w ∧ (n = r ∨ kernelHalf (rangePage v i) = true)

/-- Between `s` and `s'` the missing pages among `count` from `v` on were mapped. -/
structure MapsMissing (n : Nat) (v : U64) (count : Nat) (flags : BitVec 8) (label : Labels)
    (s s' : Machine Pmm) : Prop where
  all : ∀ i < count, present (pagingGet s' (framePtr n) (rangePage v i)) = true
  kept : ∀ r w, label r = some ⟨r, []⟩ → present (pagingGet s (framePtr r) w) = true →
    pagingGet s' (framePtr r) w = pagingGet s (framePtr r) w
  other : ∀ r w, label r = some ⟨r, []⟩ → ¬ InRange n v count r w →
    pagingGet s' (framePtr r) w = pagingGet s (framePtr r) w
  mapped : ∀ w, InRange n v count n w → present (pagingGet s (framePtr n) w) = false →
    ∃ f ∈ s.frames.freeFrames, s'.frames.bit f = true ∧
      pagingGet s' (framePtr n) w = dataEntry f flags ∧
      ∀ r path, label r = some ⟨r, []⟩ → path.length ≤ 3 → tableDescend s'.mem r path ≠ some f
  distinct : ∀ w w', InRange n v count n w → InRange n v count n w' →
    present (pagingGet s (framePtr n) w) = false → present (pagingGet s (framePtr n) w') = false →
    frameOf (pagingGet s' (framePtr n) w) = frameOf (pagingGet s' (framePtr n) w') → pageOf w = pageOf w'

structure RequestLoop (k n : Nat) (v : U64) (count : Nat) (flags : BitVec 8) (s : Machine Pmm) (label : Labels)
    (s' : Machine Pmm) (label' : Labels) : Prop where
  backed : Backed k s' label'
  keeps : ∀ n l, label n = some l → label' n = some l
  fresh : ∀ n l, label' n = some l → label n = some l ∨ n ∈ s.frames.freeFrames
  frames : s'.frames.frames = s.frames.frames
  locked : ∀ f, s.frames.bit f = true → s'.frames.bit f = true
  all : ∀ i < count, present (lookup s'.mem n (rangePage v i)) = true
  same : ∀ r w, label r = some ⟨r, []⟩ → (present (lookup s.mem r w) = true ∨ ¬ InRange n v count r w) →
    lookup s'.mem r w = lookup s.mem r w
  mapped : ∀ w, InRange n v count n w → present (lookup s.mem n w) = false →
    ∃ f ∈ s.frames.freeFrames, s'.frames.bit f = true ∧ label' f = none ∧ lookup s'.mem n w = dataEntry f flags
  distinct : ∀ w w', InRange n v count n w → InRange n v count n w' →
    present (lookup s.mem n w) = false → present (lookup s.mem n w') = false →
    frameOf (lookup s'.mem n w) = frameOf (lookup s'.mem n w') → pageOf w = pageOf w'
  stops : ∀ r w, label r = some ⟨r, []⟩ → MeetsNoHuge s.mem r w 3 → MeetsNoHuge s'.mem r w 3

theorem RequestLoop.start (h : Backed k s label) : RequestLoop k n v 0 flags s label s label where
  backed := h
  keeps _ _ hl := hl
  fresh _ _ hl := .inl hl
  frames := rfl
  locked _ hf := hf
  all _ hi := absurd hi (Nat.not_lt_zero _)
  same _ _ _ _ := rfl
  mapped w hw := by
    obtain ⟨i, hi, -⟩ := hw
    exact absurd hi (Nat.not_lt_zero _)
  distinct w w' hw := by
    obtain ⟨i, hi, -⟩ := hw
    exact absurd hi (Nat.not_lt_zero _)
  stops _ _ _ hw := hw

theorem InRange.succ (h : InRange n v count r w) : InRange n v (count + 1) r w := by
  obtain ⟨i, hi, h⟩ := h
  exact ⟨i, Nat.lt_succ_of_lt hi, h⟩

theorem inRange_last (h : InRange n v (count + 1) r w) :
    InRange n v count r w ∨ SamePage k n (rangePage v count) r w := by
  obtain ⟨i, hi, h⟩ := h
  rcases Nat.lt_succ_iff_lt_or_eq.mp hi with hi | rfl
  · exact .inl ⟨i, hi, h⟩
  · exact .inr (samePage_iff.mpr h)

theorem RequestLoop.lookup_last (h : RequestLoop k n v count flags s label t label') (hn : label n = some ⟨n, []⟩)
    (hr : label r = some ⟨r, []⟩) (hw : SamePage k n (rangePage v count) r w) :
    lookup t.mem r w = lookup t.mem n (rangePage v count) := by
  rw [lookup, ← h.backed.forest.walk_samePage (h.keeps n _ hn) (h.keeps r _ hr) hw]
  rfl

theorem RequestLoop.skip (h : RequestLoop k n v count flags s label t label') (hn : label n = some ⟨n, []⟩)
    (hp : present (lookup t.mem n (rangePage v count)) = true) :
    RequestLoop k n v (count + 1) flags s label t label' := by
  -- a page of the last round that was absent at the start was mapped in an earlier round
  have hearlier : ∀ w, InRange n v (count + 1) n w → present (lookup s.mem n w) = false → InRange n v count n w := by
    intro w hw habsent
    rcases inRange_last (k := k) hw with hw | hlast
    · exact hw
    · by_contra hnot
      rw [← h.same n w hn (.inr hnot), h.lookup_last hn hn hlast, hp] at habsent
      contradiction
  refine ⟨h.backed, h.keeps, h.fresh, h.frames, h.locked, fun i hi => ?_, fun r w hr hw => ?_, fun w hw habsent => ?_,
    fun w w' hw hw' habsent habsent' => ?_, h.stops⟩
  · rcases Nat.lt_succ_iff_lt_or_eq.mp hi with hi | rfl
    · exact h.all i hi
    · exact hp
  · exact h.same r w hr (hw.imp_right fun hw hin => hw hin.succ)
  · exact h.mapped w (hearlier w hw habsent) habsent
  · exact h.distinct w w' (hearlier w hw habsent) (hearlier w' hw' habsent') habsent habsent'

theorem RequestLoop.earlier {label₁ : Labels} (h : RequestLoop k n v count flags s label t label₁)
    (hn : label n = some ⟨n, []⟩) (hnew : NewPage k n f (rangePage v count) flags new t label₁ s' label')
    (hw : InRange n v count n w) (habsent : present (lookup s.mem n w) = false)
    (hne : ¬ SamePage k n (rangePage v count) n w) :
    ∃ g ∈ s.frames.freeFrames, s'.frames.bit g = true ∧ label' g = none ∧ g ≠ f ∧
      lookup s'.mem n w = dataEntry g flags := by
  obtain ⟨g, hg, hbit, htable, hget⟩ := h.mapped w hw habsent
  refine ⟨g, hg, by rw [hnew.answers.bits, hbit, Bool.or_true], ?_, ?_, ?_⟩
  · cases hl : label' g with
    | none => rfl
    | some l =>
      rcases hnew.fresh g l hl with hl | ⟨-, hfree⟩
      · rw [htable] at hl
        contradiction
      · rw [hbit] at hfree
        contradiction
  · rintro rfl
    have := hnew.free.2
    rw [hbit] at this
    contradiction
  · rw [hnew.lookup n w (h.keeps n _ hn), if_neg hne, hget]

theorem RequestLoop.map {label₁ : Labels} (h : RequestLoop k n v count flags s label t label₁)
    (hs : Backed k s label) (hn : label n = some ⟨n, []⟩)
    (hp : present (lookup t.mem n (rangePage v count)) = false)
    (hnew : NewPage k n f (rangePage v count) flags new t label₁ s' label') :
    RequestLoop k n v (count + 1) flags s label s' label' := by
  have hfree : ∀ {x}, x ∈ t.frames.freeFrames → x ∈ s.frames.freeFrames := by
    rintro x ⟨hlt, hbit⟩
    refine ⟨h.frames ▸ hlt, ?_⟩
    cases hx : s.frames.bit x with
    | false => rfl
    | true => exact (h.locked x hx).symm.trans hbit
  have hlock : ∀ {x}, t.frames.bit x = true → s'.frames.bit x = true := fun hx => by
    rw [hnew.answers.bits, hx, Bool.or_true]
  have hlookup : ∀ {r w}, label r = some ⟨r, []⟩ → lookup s'.mem r w =
      if SamePage k n (rangePage v count) r w then dataEntry f flags else lookup t.mem r w :=
    fun {r w} hr => hnew.lookup r w (h.keeps r _ hr)
  have hlast : ∀ {w}, SamePage k n (rangePage v count) n w → lookup s'.mem n w = dataEntry f flags := fun hw => by
    rw [hlookup hn, if_pos hw]
  have hself : SamePage k n (rangePage v count) n (rangePage v count) := samePage_iff.mpr ⟨rfl, .inl rfl⟩
  have hfb : f < frameLimit := Nat.lt_of_lt_of_le (h.frames ▸ hnew.free.1) hs.reach
  have hcases : ∀ w, InRange n v (count + 1) n w → present (lookup s.mem n w) = false →
      SamePage k n (rangePage v count) n w ∨
        (¬ SamePage k n (rangePage v count) n w ∧ InRange n v count n w) := by
    intro w hw habsent
    by_cases hsame : SamePage k n (rangePage v count) n w
    · exact .inl hsame
    · exact .inr ⟨hsame, (inRange_last (k := k) hw).resolve_right hsame⟩
  refine ⟨hnew.backed, fun n l hl => hnew.keeps n l (h.keeps n l hl),
    fun g l hl => (hnew.fresh g l hl).elim (h.fresh g l) fun hg => .inr (hfree hg),
    hnew.answers.frames.trans h.frames, fun x hx => hlock (h.locked x hx), fun i hi => ?_, fun r w hr hw => ?_, fun w hw habsent => ?_,
    fun w w' hw hw' habsent habsent' heq => ?_,
    fun r w hr hw => hnew.stops r w (h.keeps r _ hr) (h.stops r w hr hw)⟩
  · rcases Nat.lt_succ_iff_lt_or_eq.mp hi with hi | rfl
    · rw [hlookup hn]
      split
      · exact present_dataEntry
      · exact h.all i hi
    · rw [hlast hself]
      exact present_dataEntry
  · have hne : ¬ SamePage k n (rangePage v count) r w := by
      intro hsame
      rcases hw with hw | hw
      · have hkept := h.same r w hr (.inl hw)
        rw [h.lookup_last hn hr hsame] at hkept
        rw [← hkept, hp] at hw
        contradiction
      · exact hw ⟨count, Nat.lt_succ_self count, samePage_iff.mp hsame⟩
    rw [hlookup hr, if_neg hne]
    exact h.same r w hr (hw.imp_right fun hw hin => hw hin.succ)
  · rcases hcases w hw habsent with hsame | ⟨hne, hw⟩
    · exact ⟨f, hfree hnew.free, hnew.taken, hnew.noTable, hlast hsame⟩
    · obtain ⟨g, hg, hbit, htable, -, hget⟩ := h.earlier hn hnew hw habsent hne
      exact ⟨g, hg, hbit, htable, hget⟩
  · rcases hcases w hw habsent with hsame | ⟨hne, hw⟩
    · rcases hcases w' hw' habsent' with hsame' | ⟨hne', hw'⟩
      · exact (samePage_iff.mp hsame).1.symm.trans (samePage_iff.mp hsame').1
      · obtain ⟨g, hg, -, -, hgf, hget⟩ := h.earlier hn hnew hw' habsent' hne'
        rw [hlast hsame, hget, frameOf_dataEntry hfb, frameOf_dataEntry (Nat.lt_of_lt_of_le hg.1 hs.reach)] at heq
        exact absurd heq.symm hgf
    · obtain ⟨g, hg, -, -, hgf, hget⟩ := h.earlier hn hnew hw habsent hne
      rcases hcases w' hw' habsent' with hsame' | ⟨hne', hw'⟩
      · rw [hlast hsame', hget, frameOf_dataEntry hfb, frameOf_dataEntry (Nat.lt_of_lt_of_le hg.1 hs.reach)] at heq
        exact absurd heq hgf
      · rw [hlookup hn, if_neg hne, hlookup hn, if_neg hne'] at heq
        exact h.distinct w w' hw hw' habsent habsent' heq

theorem vmmRequestAt_loop (h : Backed k s label) (hn : label n = some ⟨n, []⟩) : ∀ {count : Nat},
    Served s (vmmRequestAt s (framePtr n) v count flags) →
    ∃ label', RequestLoop k n v count flags s label (vmmRequestAt s (framePtr n) v count flags) label'
  | 0, _ => ⟨label, .start h⟩
  | count + 1, hs => by
    obtain ⟨t, ht⟩ : ∃ t, t = vmmRequestAt s (framePtr n) v count flags := ⟨_, rfl⟩
    have hstep : vmmRequestAt s (framePtr n) v (count + 1) flags =
        vmmRequestPage t (framePtr n) (rangePage v count) flags := by rw [ht]; rfl
    obtain ⟨c, -, hc⟩ := vmmRequestAt_allocates s (framePtr n) v flags count
    obtain ⟨d, -, hd⟩ := vmmRequestPage_allocates t (framePtr n) (rangePage v count) flags
    rw [← ht] at hc
    rw [hstep] at hs ⊢
    obtain ⟨hs₁, hs₂⟩ := hs.split hc.handed hd.handed
    obtain ⟨label₁, hloop⟩ := vmmRequestAt_loop h hn (ht ▸ hs₁)
    rw [← ht] at hloop
    have hn₁ := hloop.keeps n _ hn
    have hget := pagingGet_lookup (s := t) (v := rangePage v count) (hloop.backed.forest.bound n _ hn₁)
    cases hp : present (lookup t.mem n (rangePage v count)) with
    | true =>
      have hsame : vmmRequestPage t (framePtr n) (rangePage v count) flags = t := by
        rw [vmmRequestPage, hget]
        simp only [hp, if_true]
      rw [hsame]
      exact ⟨label₁, hloop.skip hn hp⟩
    | false =>
      obtain ⟨f, new, label', hnew⟩ := vmmRequestPage_new hloop.backed hn₁ hp hs₂
      exact ⟨label', hloop.map h hn hp hnew⟩

theorem Backed.descend_ne (h : Backed k s label) (hr : label r = some ⟨r, []⟩) {path : List (Fin 512)}
    (hlen : path.length ≤ 3) (hf : label f = none) : tableDescend s.mem r path ≠ some f := by
  intro hd
  rw [Radix.descend_label h.forest.labelled (Label.depth_step k) hr (by simpa [Label.depth] using hlen) hd] at hf
  contradiction

theorem mapped_page_small (v w : U64) (huser : kernelHalf v = false) (hpage : pageOf v = pageOf w) (flags : BitVec 8) :
    ∃ (s : Machine Pmm) (k n f : Nat) (label : Labels), (Backed k s label ∧ label n = some ⟨n, []⟩) ∧ s.root = n ∧
      f < frameLimit ∧ s.frames.bit f = true ∧ label f = none ∧ lookup s.mem n w = dataEntry f flags ∧
      s.frames.Untouched ∧ s.frames.lastFree + 32 ≤ s.frames.frames := by
  obtain ⟨s, k, n, label, h⟩ := smallStart
  have hroom := h.room
  obtain ⟨c, hc, ha⟩ := vmmRequestAt_allocates s (framePtr n) v flags 1
  obtain ⟨t, ht⟩ : ∃ t, t = vmmRequestAt s (framePtr n) v 1 flags := ⟨_, rfl⟩
  rw [← ht] at ha
  obtain ⟨hs, hu, hhint, hlen⟩ := ha.served_untouched h.untouched (by omega)
  obtain ⟨label', hl⟩ : ∃ label', RequestLoop k n v 1 flags s label t label' :=
    ht ▸ vmmRequestAt_loop h.backed h.table (ht ▸ hs)
  have hin : InRange n v 1 n w := ⟨0, Nat.one_pos, by rwa [rangePage, Nat.zero_mul, BitVec.add_zero], .inl rfl⟩
  have habsent : present (lookup s.mem n w) = false := by
    rw [← lookup_of_page hpage, h.empty _ huser]
    rfl
  obtain ⟨f, hf, hbit, htable, hget⟩ := hl.mapped _ hin habsent
  refine ⟨t, k, n, f, label', ⟨hl.backed, hl.keeps n _ h.table⟩, ?_, Nat.lt_of_lt_of_le hf.1 h.backed.reach, hbit,
    htable, hget, hu, by omega⟩
  rw [Machine.root, ha.cr3]
  exact h.root

theorem mapped_entry_small (flags : BitVec 8) : ∃ (s : Machine Pmm) (k n f : Nat) (label : Labels),
    (Backed k s label ∧ label n = some ⟨n, []⟩) ∧ s.root = n ∧ f < frameLimit ∧ s.frames.bit f = true ∧
      label f = none ∧ lookup s.mem n 0x400123 = dataEntry f flags ∧ s.frames.Untouched ∧
      s.frames.lastFree + 32 ≤ s.frames.frames :=
  mapped_page_small 0x400000 0x400123 (by decide) (by decide) flags

end ShedOS.Memory
