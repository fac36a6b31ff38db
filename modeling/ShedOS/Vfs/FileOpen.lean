import ShedOS.Lib.Loops
import ShedOS.Libk.Log

/-!
# Opening a file

`vfs_file_open`, which so far only prints the path behind its drive prefix.
Which paths it gets through with nothing but the path and the buffers of
`printf` around it.
-/

namespace ShedOS.Vfs

open Libk Loops
open Memory (U64)

def MAX_PATH_LENGTH : Nat := 126

def tooLongText : List Chr := "path too long, can't open file\n".toList.map chr
def processingText : List Chr := "processing path %s\n".toList.map chr

structure Literals where
  tooLong : U64
  processing : U64

/-- With `_path + 2` as the argument of the message. -/
def passing (f : Formatter) (path : U64) : Formatter := { f with varargs := Function.update f.varargs 0 (path + 2) }

/-- `times` are the readings of the timer, one a message. -/
def vfsFileOpen (f : Formatter) (lit : Literals) (times : Nat → U64) (path : U64) (fuel : Nat) : Option (Int × VMem) := do
  let len ← strlen f.mem path fuel
  if MAX_PATH_LENGTH < len then
    let m ← printfLog f f.mem (times 0) lit.tooLong fuel
    return (-1, m)
  let _partition ← f.mem path
  let m ← uptoM (fun mi m => printfLog (passing f path) m (times mi) lit.processing fuel) f.mem 26
  return (0, m)

variable {f : Formatter} {lit : Literals} {times : Nat → U64} {m : VMem} {path a : U64} {l w : List Chr} {args : List Arg}
  {n fuel : Nat}

def OutsideBuffers (f : Formatter) (a : U64) (n : Nat) : Prop :=
  ∀ i < n, (∀ j < 64, a + BitVec.ofNat 64 i ≠ f.buf + BitVec.ofNat 64 j) ∧
    ∀ j < 16, a + BitVec.ofNat 64 i ≠ f.timestampBuf + BitVec.ofNat 64 j

/-- The path `l` at `path`, the two texts and the two buffers of `printf`.
Nothing is said of what lies around them, behind the NUL of the path for one. -/
structure PathAt (f : Formatter) (lit : Literals) (path : U64) (l : List Chr) : Prop where
  text : Reads f.mem path (l ++ [0])
  tooLong : Reads f.mem lit.tooLong (tooLongText ++ [0])
  processing : Reads f.mem lit.processing (processingText ++ [0])
  buf : Mapped f.mem f.buf 64
  timestampBuf : Mapped f.mem f.timestampBuf 16
  apart : BuffersApart f
  pathOutside : OutsideBuffers f path (l.length + 1)
  tooLongOutside : OutsideBuffers f lit.tooLong (tooLongText.length + 1)
  processingOutside : OutsideBuffers f lit.processing (processingText.length + 1)

/-- Wherever the path lies and whatever is mapped besides, the call returns,
and nothing but the two buffers changed. -/
def OpensSafely (times : Nat → U64) (l : List Chr) : Prop := ∀ f lit path, PathAt f lit path l →
  ∃ fuel r m', vfsFileOpen f lit times path fuel = some (r, m') ∧
    ∀ x, (∀ i < 64, x ≠ f.buf + BitVec.ofNat 64 i) → (∀ i < 16, x ≠ f.timestampBuf + BitVec.ofNat 64 i) → m' x = f.mem x

def messages (len : Nat) : Nat := if MAX_PATH_LENGTH < len then 1 else 26

-- ---------------------------------------------------------------------------
-- The two messages
-- ---------------------------------------------------------------------------

theorem wellFormed_text (hplain : ∀ c ∈ l, c ≠ 0 ∧ c ≠ chr '%') (hw : WellFormed w args) : WellFormed (l ++ w) args := by
  induction l with
  | nil => exact hw
  | cons c l ih =>
    obtain ⟨h0, hpercent⟩ := hplain c List.mem_cons_self
    exact .char h0 hpercent (ih fun c hc => hplain c (List.mem_cons_of_mem _ hc))

def processingPrefix : List Chr := "processing path ".toList.map chr

theorem processingText_eq : processingText = processingPrefix ++ [chr '%', chr 's', chr '\n'] := by decide

theorem processingPrefix_plain : ∀ c ∈ processingPrefix, c ≠ 0 ∧ c ≠ chr '%' := by decide

theorem tooLong_wellFormed : WellFormed tooLongText [] := by
  have h : WellFormed (tooLongText ++ []) [] := wellFormed_text (by decide) .nil
  rwa [List.append_nil] at h

theorem processing_wellFormed (hlen : w.length < 64) (h0 : 0 ∉ w) : WellFormed processingText [.string w] := by
  rw [processingText_eq]
  exact wellFormed_text processingPrefix_plain (.conversion ⟨hlen, h0⟩ (.char (by decide) (by decide) .nil))

theorem tooLong_message (h : PathAt f lit path l) : Message f lit.tooLong tooLongText [] where
  given := ⟨tooLong_wellFormed, h.tooLong, fun i hi => (h.tooLongOutside i hi).1, fun _ _ hi => (by cases hi), h.buf⟩
  outside x hx := by
    rcases hx with ⟨i, hi, rfl⟩ | ⟨k, arg, harg, -⟩
    · exact (h.tooLongOutside i (by omega)).2
    · cases harg

theorem processing_message (h : PathAt f lit path l) (h0 : 0 ∉ l) (h2 : 2 ≤ l.length) (hlen : l.length ≤ 65) :
    Message (passing f path) lit.processing processingText [.string (l.drop 2)] := by
  have hpath : path + 2 = path + BitVec.ofNat 64 2 := rfl
  have hnul : 0 ∉ l.drop 2 := fun hm => h0 (List.mem_of_mem_drop hm)
  have hdrop : (l.drop 2).length = l.length - 2 := List.length_drop
  have hreads : Reads f.mem (path + 2) (l.drop 2 ++ [0]) := by
    have := h.text.drop (o := 2)
    rwa [List.drop_append_of_le_length h2] at this
  have hplace : ∀ i ≤ (l.drop 2).length, ∃ j < l.length + 1, path + 2 + BitVec.ofNat 64 i = path + BitVec.ofNat 64 j :=
    fun i hi => ⟨2 + i, by omega, by rw [hpath, BitVec.add_assoc, ← BitVec.ofNat_add]⟩
  refine ⟨⟨processing_wellFormed (by omega) hnul, h.processing, fun i hi => (h.processingOutside i hi).1, fun i arg hi => ?_, h.buf⟩,
    fun x hx => ?_⟩
  · cases i with
    | succ i => cases hi
    | zero =>
      cases hi
      refine ⟨hreads, fun i hi => ?_⟩
      obtain ⟨j, hj, he⟩ := hplace i (by omega)
      change ∀ j < 64, path + 2 + BitVec.ofNat 64 i ≠ f.buf + BitVec.ofNat 64 j
      rw [he]
      exact (h.pathOutside j hj).1
  · rcases hx with ⟨i, hi, rfl⟩ | ⟨k, arg, harg, i, rfl, hi⟩
    · exact (h.processingOutside i (by omega)).2
    · cases k with
      | succ k => cases harg
      | zero =>
        cases harg
        obtain ⟨j, hj, he⟩ := hplace i hi
        change ∀ j < 16, path + 2 + BitVec.ofNat 64 i ≠ f.timestampBuf + BitVec.ofNat 64 j
        rw [he]
        exact (h.pathOutside j hj).2

-- ---------------------------------------------------------------------------
-- Paths that are opened safely
-- ---------------------------------------------------------------------------

theorem opensSafely_of (h0 : 0 ∉ l) (hlen : 2 ≤ l.length ∧ l.length ≤ 65 ∨ MAX_PATH_LENGTH < l.length)
    (htimes : ∀ i < messages l.length, FourDigits (times i)) : OpensSafely times l := by
  intro f lit path h
  obtain ⟨fuel, hfuel⟩ : ∃ fuel, fuel = l.length + 200 := ⟨_, rfl⟩
  have hstrlen : strlen f.mem path fuel = some l.length := strlen_eq h.text h0 (by omega)
  have hu : Undisturbed f f.mem := ⟨fun _ _ _ => rfl, h.buf, h.timestampBuf⟩
  rcases Nat.lt_or_ge MAX_PATH_LENGTH l.length with hlong | hshort
  · have hmessages : messages l.length = 1 := if_pos hlong
    obtain ⟨m', hrun, hu'⟩ := printfLog_returns hu h.apart (htimes 0 (by omega)) (tooLong_message h)
      (show tooLongText.length + 65 ≤ fuel by rw [show tooLongText.length = 31 by decide]; omega)
    refine ⟨fuel, -1, m', ?_, hu'.other⟩
    rw [vfsFileOpen, hstrlen]
    simp only [Option.bind_eq_bind, Option.bind_some, if_pos hlong, hrun]
    rfl
  · have hmessages : messages l.length = 26 := if_neg (Nat.not_lt.mpr hshort)
    have hbounds := hlen.resolve_right (Nat.not_lt.mpr hshort)
    have hmessage := processing_message h h0 hbounds.1 hbounds.2
    have hu : Undisturbed (passing f path) f.mem := ⟨fun _ _ _ => rfl, h.buf, h.timestampBuf⟩
    obtain ⟨m', hrun, hu'⟩ := uptoM_rule (n := 26) (fun _ m => Undisturbed (passing f path) m) hu fun i m hi hm =>
      printfLog_returns hm h.apart (htimes i (by omega)) hmessage
        (show processingText.length + 65 ≤ fuel by rw [show processingText.length = 19 by decide]; omega)
    obtain ⟨c, hc⟩ := Option.isSome_iff_exists.mp (show (f.mem path).isSome by simpa using h.text.mapped 0 (by simp))
    refine ⟨fuel, 0, m', ?_, hu'.other⟩
    rw [vfsFileOpen, hstrlen]
    simp only [Option.bind_eq_bind, Option.bind_some, if_neg (Nat.not_lt.mpr hshort), hc, hrun]
    rfl

-- ---------------------------------------------------------------------------
-- Nothing but what has to be there
-- ---------------------------------------------------------------------------

def gapMem (l : List Chr) : VMem :=
  poke (poke (poke (poke (poke (fun _ => none)
    0x1000 (List.replicate 64 0)) 0x2000 (List.replicate 16 0))
    0x3000 (tooLongText ++ [0])) 0x4000 (processingText ++ [0])) 0x10000 (l ++ [0])

def gapFormatter (l : List Chr) : Formatter := ⟨gapMem l, 0x1000, 0x2000, fun _ => 0, 0⟩

theorem reads_poke_apart {b : U64} (h : Reads m a w) (hout : ∀ i < w.length, ∀ j < l.length, a + BitVec.ofNat 64 i ≠ b + BitVec.ofNat 64 j) :
    Reads (poke m b l) a w :=
  h.congr fun i hi => poke_outside fun j hj => hout i hi j hj

theorem poke_none {b x : U64} (h : m x = none) (hout : ∀ j < l.length, x ≠ b + BitVec.ofNat 64 j) : poke m b l x = none :=
  (poke_outside hout).trans h

theorem tooLong_length : (tooLongText ++ [0]).length = 32 := by decide

theorem processing_length : (processingText ++ [0]).length = 20 := by decide

theorem gapMem_none {x : U64} (hlen : l.length < 2 ^ 62)
    (hx : x.toNat < 0x1000 ∨ 0x1040 ≤ x.toNat ∧ x.toNat < 0x2000 ∨ 0x10000 + l.length < x.toNat ∧ x.toNat < 2 ^ 63) :
    gapMem l x = none := by
  have hpath : (l ++ [0]).length = l.length + 1 := List.length_append
  refine poke_none (poke_none (poke_none (poke_none (poke_none rfl ?_) ?_) ?_) ?_) ?_
  · intro j hj
    rw [List.length_replicate] at hj
    bv_omega
  · intro j hj
    rw [List.length_replicate] at hj
    bv_omega
  · intro j hj
    rw [tooLong_length] at hj
    bv_omega
  · intro j hj
    rw [processing_length] at hj
    bv_omega
  · intro j hj
    rw [hpath] at hj
    bv_omega

theorem gap_pathAt (hlen : l.length < 2 ^ 62) : PathAt (gapFormatter l) ⟨0x3000, 0x4000⟩ 0x10000 l where
  text := reads_poke (by simp; omega)
  tooLong := by
    refine reads_poke_apart (reads_poke_apart (reads_poke (by decide)) fun i hi j hj => ?_) fun i hi j hj => ?_
    · rw [tooLong_length] at hi
      rw [processing_length] at hj
      bv_omega
    · rw [tooLong_length] at hi
      rw [List.length_append, List.length_singleton] at hj
      bv_omega
  processing := by
    refine reads_poke_apart (reads_poke (by decide)) fun i hi j hj => ?_
    rw [processing_length] at hi
    rw [List.length_append, List.length_singleton] at hj
    bv_omega
  buf := by
    have h : Reads (poke (fun _ => none) 0x1000 (List.replicate 64 0)) 0x1000 (List.replicate 64 0) := reads_poke (by decide)
    have hm := h.mapped
    rw [List.length_replicate] at hm
    exact hm.poke.poke.poke.poke
  timestampBuf := by
    have h : Reads (poke (poke (fun _ => none) 0x1000 (List.replicate 64 0)) 0x2000 (List.replicate 16 0)) 0x2000
      (List.replicate 16 0) := reads_poke (by decide)
    have hm := h.mapped
    rw [List.length_replicate] at hm
    exact hm.poke.poke.poke
  apart i hi j hj := by
    change (0x2000 : U64) + BitVec.ofNat 64 i ≠ 0x1000 + BitVec.ofNat 64 j
    bv_omega
  pathOutside i hi := by
    constructor <;> intro j hj
    · change (0x10000 : U64) + BitVec.ofNat 64 i ≠ 0x1000 + BitVec.ofNat 64 j
      bv_omega
    · change (0x10000 : U64) + BitVec.ofNat 64 i ≠ 0x2000 + BitVec.ofNat 64 j
      bv_omega
  tooLongOutside i hi := by
    rw [show tooLongText.length + 1 = 32 by decide] at hi
    constructor <;> intro j hj
    · change (0x3000 : U64) + BitVec.ofNat 64 i ≠ 0x1000 + BitVec.ofNat 64 j
      bv_omega
    · change (0x3000 : U64) + BitVec.ofNat 64 i ≠ 0x2000 + BitVec.ofNat 64 j
      bv_omega
  processingOutside i hi := by
    rw [show processingText.length + 1 = 20 by decide] at hi
    constructor <;> intro j hj
    · change (0x4000 : U64) + BitVec.ofNat 64 i ≠ 0x1000 + BitVec.ofNat 64 j
      bv_omega
    · change (0x4000 : U64) + BitVec.ofNat 64 i ≠ 0x2000 + BitVec.ofNat 64 j
      bv_omega

theorem gap_timestamp (hlen : l.length < 2 ^ 62) (hm : SameMap (gapMem l) m) :
    ∀ i < 16, m ((0x2000 : U64) - 16 + BitVec.ofNat 64 i) = none := fun i hi => by
  refine Option.not_isSome_iff_eq_none.mp ?_
  rw [hm, gapMem_none hlen (by bv_omega)]
  exact Bool.false_ne_true

theorem gap_message {f' : Formatter} {sent : Sent} (hfits : l.length < 2 ^ 62) (h0 : 0 ∉ l)
    (hu : Undisturbed (passing (gapFormatter l) 0x10000) m) (hbuf : f'.buf = 0x1000) (hargs : f'.varargs 0 = 0x10002)
    (hrun : printfRun f' m 0 0x4000 fuel = some sent) : 2 ≤ l.length ∧ l.length ≤ 65 := by
  have hlayout := gap_pathAt hfits
  have hother : ∀ x : U64, 0x2010 ≤ x.toNat ∨ 0x1040 ≤ x.toNat ∧ x.toNat < 0x2000 → m x = gapMem l x := fun x hx => by
    refine hu.other x (fun i hi => ?_) fun i hi => ?_
    · change x ≠ 0x1000 + BitVec.ofNat 64 i
      bv_omega
    · change x ≠ 0x2000 + BitVec.ofNat 64 i
      bv_omega
  have htext : Reads m 0x4000 (processingPrefix ++ ([chr '%', chr 's', chr '\n'] ++ [0])) := by
    have h := hlayout.processing
    rw [processingText_eq, List.append_assoc] at h
    refine h.congr fun i hi => hother _ ?_
    replace hi : i < 20 := hi
    bv_omega
  obtain ⟨fuel', r, hrun⟩ := printfRun_text htext.left processingPrefix_plain hrun
  have hpercent := htext 16 (by decide)
  have hs := htext 17 (by decide)
  obtain ⟨fuel', m', hcopy⟩ := printfRun_string hpercent hs hrun
  rw [hbuf, hargs] at hcopy
  have hpath : ∀ i < l.length, m (0x10000 + BitVec.ofNat 64 i) = l[i]? := fun i hi => by
    rw [hother _ (by bv_omega)]
    exact hlayout.text.left i hi
  have h2 : 2 ≤ l.length := Nat.le_of_not_lt fun hshort => by
    have hsource := strcpy_source hcopy
    rw [hother _ (by decide), gapMem_none hfits (by bv_omega)] at hsource
    cases hsource
  refine ⟨h2, Nat.le_of_not_lt fun hlong => ?_⟩
  -- the 65th character goes behind the buffer
  have htake : ((l.drop 2).take 64).length = 64 := by
    rw [List.length_take, List.length_drop]
    omega
  have hreads : Reads m 0x10002 ((l.drop 2).take 64) := fun i hi => by
    rw [htake] at hi
    rw [List.getElem?_take, if_pos hi, List.getElem?_drop, show (0x10002 : U64) = 0x10000 + BitVec.ofNat 64 2 from rfl,
      BitVec.add_assoc, ← BitVec.ofNat_add]
    exact hpath (2 + i) (by omega)
  have hreach := strcpy_reach hcopy hreads (fun h => h0 (List.mem_of_mem_drop (List.mem_of_mem_take h))) fun i hi j hj => by
    rw [htake] at hi hj
    bv_omega
  rw [htake, hother _ (by decide), gapMem_none hfits (.inr (.inl (by decide)))] at hreach
  cases hreach

theorem OpensSafely.bounds (hfits : l.length < 2 ^ 62) (h0 : 0 ∉ l) (h : OpensSafely times l) :
    (2 ≤ l.length ∧ l.length ≤ 65 ∨ MAX_PATH_LENGTH < l.length) ∧ ∀ i < messages l.length, FourDigits (times i) := by
  have hlayout := gap_pathAt hfits
  obtain ⟨fuel, r, m', hrun, -⟩ := h _ _ _ hlayout
  obtain ⟨len, hlen, hrun⟩ := Option.bind_eq_some_iff.mp hrun
  obtain rfl := strlen_unique hlayout.text h0 hlen
  have hrefl : SameMap (gapMem l) (gapMem l) := fun _ => rfl
  split at hrun
  next hlong =>
    obtain ⟨m₁, hlog, -⟩ := Option.bind_eq_some_iff.mp hrun
    have hmessages : messages l.length = 1 := if_pos hlong
    refine ⟨.inr hlong, fun i hi => ?_⟩
    obtain rfl : i = 0 := by omega
    exact printfLog_fourDigits hlog (gap_timestamp hfits hrefl)
  next hshort =>
    obtain ⟨c, -, hrun⟩ := Option.bind_eq_some_iff.mp hrun
    obtain ⟨m₁, hloop, -⟩ := Option.bind_eq_some_iff.mp hrun
    have hmessages : messages l.length = 26 := if_neg hshort
    obtain ⟨-, hrounds⟩ := uptoM_rounds (fun i m => SameMap (gapMem l) m ∧ (i = 0 → m = gapMem l)) ⟨hrefl, fun _ => rfl⟩
      (fun i u u' _ hu hlog => ⟨hu.1.trans (printfLog_sameMap hlog), fun hi => absurd hi (Nat.succ_ne_zero i)⟩) hloop
    refine ⟨.inl ?_, fun i hi => ?_⟩
    · obtain ⟨u, u', hu, hlog⟩ := hrounds 0 (by decide)
      obtain rfl := hu.2 rfl
      have hundisturbed : Undisturbed (passing (gapFormatter l) 0x10000) (gapMem l) :=
        ⟨fun _ _ _ => rfl, hlayout.buf, hlayout.timestampBuf⟩
      obtain ⟨f', m₂, sent, hbuf, hargs, hu₂, hsent⟩ :=
        printfLog_prefix hlog hundisturbed hlayout.apart (gap_timestamp hfits hrefl)
      exact gap_message hfits h0 hu₂ hbuf (by rw [hargs]; rfl) hsent
    · obtain ⟨u, u', hu, hlog⟩ := hrounds i (by omega)
      exact printfLog_fourDigits hlog (gap_timestamp hfits hu.1)

theorem vfsFileOpen_safe_iff (hfits : l.length < 2 ^ 62) (h0 : 0 ∉ l) : OpensSafely times l ↔
    (2 ≤ l.length ∧ l.length ≤ 65 ∨ MAX_PATH_LENGTH < l.length) ∧ ∀ i < messages l.length, FourDigits (times i) :=
  ⟨OpensSafely.bounds hfits h0, fun h => opensSafely_of h0 h.1 h.2⟩

theorem vfsFileOpen_safe_iff_root : OpensSafely (fun _ => 0) ("0:/".toList.map chr) ↔
    (2 ≤ ("0:/".toList.map chr).length ∧ ("0:/".toList.map chr).length ≤ 65 ∨ MAX_PATH_LENGTH < ("0:/".toList.map chr).length) ∧
      ∀ i < messages ("0:/".toList.map chr).length, FourDigits ((fun _ => 0) i) :=
  vfsFileOpen_safe_iff (by decide) (by decide)

/-- An empty path, whose prefix is skipped all the same, and one of 66
characters: neither is too long for `vfs_file_open`. -/
theorem vfsFileOpen_unsafe : ¬ OpensSafely (fun _ => 0) [] ∧ ¬ OpensSafely (fun _ => 0) (List.replicate 66 (chr 'a')) := by
  constructor
  · intro h
    exact absurd (h.bounds (by decide) (by decide)).1 (by decide)
  · intro h
    exact absurd (h.bounds (by decide) (by decide)).1 (by decide)

end ShedOS.Vfs
