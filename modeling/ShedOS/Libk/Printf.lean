import ShedOS.Libk.Strings

/-!
# printf

`printf.c` with `utos` and `timer_format`. The format string and its arguments
may lie anywhere, in the buffer of the formatter as well. A run that is out of
`fuel` has sent a part of its characters.
-/

namespace ShedOS.Libk

open Memory (U64)

variable {m m' : VMem} {k fuel fuel' : Nat} {c : Chr} {l w : List Chr}

-- ---------------------------------------------------------------------------
-- Numbers
-- ---------------------------------------------------------------------------

/-- The first loop of `utos`: how many digits `i` has, 64 at most. -/
def valLen (base : Nat) : (fuel i : Nat) → Nat
  | 0, _ => 0
  | fuel + 1, i => if i / base > 0 then valLen base fuel (i / base) + 1 else 1

def digit (i : Nat) : Chr := if i < 10 then BitVec.ofNat 8 (0x30 + i) else BitVec.ofNat 8 (0x37 + i)

/-- The second loop: the last `n` digits of `i`. -/
def digits (base : Nat) : (n i : Nat) → List Chr
  | 0, _ => []
  | n + 1, i => digits base n (i / base) ++ [digit (i % base)]

def utos (i : U64) (base minLen : Nat) : List Chr :=
  let len := max (valLen base 64 i.toNat) minLen
  let str := digits base len i.toNat
  if base = 16 then chr '0' :: chr 'x' :: str else str

/-- An `int` argument, as the `uint64_t` that `utos` takes. -/
def ofInt (v : U64) : U64 := (v.setWidth 32).signExtend 64

def timerFormat (m : VMem) (buf timerElapsedUs : U64) : Option VMem := do
  let seconds := ofInt (timerElapsedUs / 1000000)
  let milliseconds := ofInt (timerElapsedUs % 1000000 / 100)
  let m ← storeAll m buf (List.replicate 4 (chr ' '))
  let m ← storeAll m (buf + 5) (List.replicate 4 (chr '0'))
  let tmp := utos seconds 10 0
  let m ← storeAll m (buf + 4 - BitVec.ofNat 64 tmp.length) (tmp ++ [0])
  let tmp := utos milliseconds 10 0
  let m ← storeAll m (buf + 4) [chr '.']
  storeAll m (buf + 9 - BitVec.ofNat 64 tmp.length) (tmp ++ [0])

-- ---------------------------------------------------------------------------
-- printf
-- ---------------------------------------------------------------------------

/-- What `printf` works with besides its format string. `varargs` are the words
that `va_arg` finds where nothing was passed: registers and words of the kernel
stack. -/
structure Formatter where
  mem : VMem
  buf : U64
  timestampBuf : U64
  varargs : Nat → U64
  timerElapsedUs : U64

/-- The switch of `_printf`: what it leaves in `buf`, and the next argument. -/
def convert (f : Formatter) (m : VMem) (k : Nat) (fmtc : Chr) (fuel : Nat) : Option (VMem × Nat) :=
  let arg := f.varargs k
  match fmtc with
  | 0x61#8 => (storeAll m f.buf (utos arg 16 16 ++ [0])).map (·, k + 1)
  | 0x64#8 => (storeAll m f.buf (utos (ofInt arg) 10 0 ++ [0])).map (·, k + 1)
  | 0x62#8 => (storeAll m f.buf (utos (ofInt arg) 2 0 ++ [0])).map (·, k + 1)
  | 0x78#8 => (storeAll m f.buf (utos arg 16 0 ++ [0])).map (·, k + 1)
  | 0x63#8 => (storeAll m f.buf [arg.setWidth 8, 0]).map (·, k + 1)
  | 0x73#8 => (strcpy m f.buf arg fuel).map (·, k + 1)
  | 0x53#8 => (copyWide m f.buf arg fuel).map (·, k + 1)
  | _ => some (m, k)

/-- The loop of `printf`: the characters it sends. -/
def printfLoop (f : Formatter) : VMem → (k : Nat) → (fmt : U64) → (fuel : Nat) → List Chr
  | _, _, _, 0 => []
  | m, k, fmt, fuel + 1 =>
    match m fmt with
    | none => []
    | some c =>
      if c = 0 then []
      else if c = chr '%' then
        match (m (fmt + 1)).bind fun fmtc => convert f m k fmtc fuel with
        | none => []
        | some (m, k) =>
          let (out, done) := puts m f.buf fuel
          if done then
            match m (fmt + 1) with
            | none => out
            | some c => out ++ printfLoop f m k (if c ≠ 0 then fmt + 2 else fmt + 1) fuel
          else out
      else c :: printfLoop f m k (fmt + 1) fuel

/-- The log prefix: it formats the time into `timestamp_buf`, and that with
`%s` into `buf`. -/
def logPrefix (f : Formatter) (fuel : Nat) : Option VMem := do
  let m ← timerFormat f.mem f.timestampBuf f.timerElapsedUs
  strcpy m f.buf f.timestampBuf fuel

/-- The characters that `printf` sends after the log prefix. -/
def printf (f : Formatter) (fmt : U64) (fuel : Nat) : List Chr :=
  match logPrefix f fuel with
  | none => []
  | some m => printfLoop f m 0 fmt fuel

-- ---------------------------------------------------------------------------
-- More fuel
-- ---------------------------------------------------------------------------

variable {f : Formatter} {fmt : U64} {fmtc : Chr} {r : VMem × Nat}

theorem convert_succ (h : convert f m k fmtc fuel = some r) : convert f m k fmtc (fuel + 1) = some r := by
  unfold convert at h ⊢
  simp only at h ⊢
  split
  all_goals simp only at h
  case h_6 =>
    obtain ⟨m₁, hm, rfl⟩ := Option.map_eq_some_iff.mp h
    rw [strcpy_succ hm]
    rfl
  case h_7 =>
    obtain ⟨m₁, hm, rfl⟩ := Option.map_eq_some_iff.mp h
    rw [copyWide_succ hm]
    rfl
  all_goals exact h

theorem printfLoop_succ : printfLoop f m k fmt fuel <+: printfLoop f m k fmt (fuel + 1) := by
  induction fuel generalizing m k fmt with
  | zero => exact List.nil_prefix
  | succ fuel ih =>
    rw [printfLoop, printfLoop]
    cases m fmt with
    | none => exact List.prefix_rfl
    | some c =>
      simp only
      split
      · exact List.prefix_rfl
      split
      · cases hconv : (m (fmt + 1)).bind fun fmtc => convert f m k fmtc fuel with
        | none => exact List.nil_prefix
        | some r =>
          obtain ⟨fmtc, hfmtc, hr⟩ := Option.bind_eq_some_iff.mp hconv
          simp only [hfmtc, Option.bind_some, convert_succ hr]
          obtain ⟨hout, hdone⟩ : (puts r.1 f.buf fuel).1 <+: (puts r.1 f.buf (fuel + 1)).1 ∧ _ := puts_succ
          cases hd : (puts r.1 f.buf fuel).2 with
          | false =>
            simp only [Bool.false_eq_true, if_false]
            split
            · split
              · exact hout
              · exact hout.trans (List.prefix_append _ _)
            · exact hout
          | true =>
            rw [hdone hd]
            simp only [hd, if_true]
            split
            · exact List.prefix_rfl
            · exact (List.prefix_append_right_inj _).mpr ih
      · exact List.cons_prefix_cons.mpr ⟨rfl, ih⟩

theorem logPrefix_succ (h : logPrefix f fuel = some m) : logPrefix f (fuel + 1) = some m := by
  obtain ⟨m₁, htime, hcopy⟩ := Option.bind_eq_some_iff.mp h
  exact Option.bind_eq_some_iff.mpr ⟨m₁, htime, strcpy_succ hcopy⟩

theorem printf_mono (h : fuel ≤ fuel') : printf f fmt fuel <+: printf f fmt fuel' := by
  induction h with
  | refl => exact List.prefix_rfl
  | @step n _ ih =>
    refine ih.trans ?_
    unfold printf
    cases hlog : logPrefix f n with
    | none => exact List.nil_prefix
    | some m =>
      rw [logPrefix_succ hlog]
      exact printfLoop_succ

theorem getElem?_of_extends {i : Nat} (h : l <+: w) (hc : l[i]? = some c) : w[i]? = some c := by
  obtain ⟨t, rfl⟩ := h
  rw [List.getElem?_append_left (List.getElem?_eq_some_iff.mp hc).1, hc]

-- ---------------------------------------------------------------------------
-- The timestamp
-- ---------------------------------------------------------------------------

variable {base i n : Nat} {t a v : U64}

theorem digit_ne_zero (hi : i < 16) : digit i ≠ 0 := by
  revert i
  decide

theorem digits_length : (digits base n i).length = n := by
  induction n generalizing i with
  | zero => rfl
  | succ n ih => simp [digits, ih]

theorem digits_nonzero (h0 : 0 < base) (h : base ≤ 16) : 0 ∉ digits base n i := by
  induction n generalizing i with
  | zero => exact List.not_mem_nil
  | succ n ih =>
    have hlast : digit (i % base) ≠ 0 := digit_ne_zero (Nat.lt_of_lt_of_le (Nat.mod_lt i h0) h)
    simp only [digits, List.mem_append, List.mem_singleton, not_or]
    exact ⟨ih, hlast.symm⟩

theorem utos_nonzero (h0 : 0 < base) (h : base ≤ 16) : 0 ∉ utos v base n := by
  unfold utos
  split
  · simp only [List.mem_cons, not_or]
    exact ⟨by decide, by decide, digits_nonzero h0 h⟩
  · exact digits_nonzero h0 h

theorem valLen_le (hi : i < base ^ (n + 1)) : valLen base fuel i ≤ n + 1 := by
  induction fuel generalizing i n with
  | zero => exact Nat.zero_le _
  | succ fuel ih =>
    rw [valLen]
    split
    next hpos =>
      cases n with
      | zero =>
        rw [Nat.zero_add, Nat.pow_one] at hi
        rw [Nat.div_eq_of_lt hi] at hpos
        exact absurd hpos (Nat.lt_irrefl 0)
      | succ n =>
        refine Nat.succ_le_succ (ih ?_)
        rw [Nat.pow_succ] at hi
        exact Nat.div_lt_of_lt_mul (by rwa [Nat.mul_comm])
    next => exact Nat.succ_le_succ (Nat.zero_le n)

theorem utos_ten_length : (utos v 10 0).length = valLen 10 64 v.toNat := by
  unfold utos
  simp [digits_length]

theorem utos_ten_length_pos : 0 < (utos v 10 0).length := by
  rw [utos_ten_length, valLen]
  split <;> omega

theorem utos_ten_length_le : (utos v 10 0).length ≤ 20 := by
  rw [utos_ten_length]
  refine valLen_le (n := 19) ?_
  have := v.isLt
  omega

def lastFour (l : List Chr) : List Chr := l.drop (l.length - 4)

/-- What `timer_format` leaves: four characters for the seconds, a point, and
four for the rest. -/
def timestamp (timerElapsedUs : U64) : List Chr :=
  lastFour (List.replicate 4 (chr ' ') ++ utos (ofInt (timerElapsedUs / 1000000)) 10 0) ++ chr '.' ::
    lastFour (List.replicate 4 (chr '0') ++ utos (ofInt (timerElapsedUs % 1000000 / 100)) 10 0)

theorem lastFour_length : (lastFour (List.replicate 4 c ++ l)).length = 4 := by
  rw [lastFour, List.length_drop, List.length_append, List.length_replicate]
  omega

theorem lastFour_getElem? (hk : k < 4) :
    (lastFour (List.replicate 4 c ++ l))[k]? = if k + l.length < 4 then some c else l[k + l.length - 4]? := by
  unfold lastFour
  rw [List.getElem?_drop, List.getElem?_append]
  simp only [List.length_append, List.length_replicate]
  split
  · rw [if_pos (by omega), List.getElem?_replicate, if_pos (by assumption)]
  · rw [if_neg (by omega)]
    congr 1
    omega

theorem lastFour_nonzero (hc : c ≠ 0) (hl : 0 ∉ l) : 0 ∉ lastFour (List.replicate 4 c ++ l) := fun h => by
  have h := List.mem_of_mem_drop h
  rw [List.mem_append, List.mem_replicate] at h
  rcases h with ⟨_, h⟩ | h
  · exact hc h.symm
  · exact hl h

theorem timestamp_length : (timestamp t).length = 9 := by
  rw [timestamp, List.length_append, List.length_cons, lastFour_length, lastFour_length]

theorem timestamp_nonzero : 0 ∉ timestamp t := by
  simp only [timestamp, List.mem_append, List.mem_cons, not_or]
  exact ⟨lastFour_nonzero (by decide) (utos_nonzero (by decide) (by decide)), by decide,
    lastFour_nonzero (by decide) (utos_nonzero (by decide) (by decide))⟩

theorem milliseconds_length : (utos (ofInt (t % 1000000 / 100)) 10 0).length ≤ 4 := by
  have hlt : (t % 1000000 / 100).toNat < 10000 := by
    rw [BitVec.toNat_udiv, BitVec.toNat_umod]
    have := Nat.mod_lt t.toNat (show 0 < 1000000 by decide)
    simp
    omega
  have hint : (ofInt (t % 1000000 / 100)).toNat = (t % 1000000 / 100).toNat := by
    obtain ⟨v, hv⟩ : ∃ v, v = t % 1000000 / 100 := ⟨_, rfl⟩
    rw [← hv] at hlt ⊢
    have hmsb : (v.setWidth 32).msb = false := by
      rw [BitVec.msb_eq_false_iff_two_mul_lt, BitVec.toNat_setWidth]
      omega
    rw [ofInt, BitVec.toNat_signExtend, hmsb]
    simp only [BitVec.toNat_setWidth, Bool.false_eq_true, if_false]
    omega
  rw [utos_ten_length, hint]
  exact valLen_le (n := 3) hlt

/-- The first character that `timer_format` writes, counted from the 16th one
before its buffer: a time that is too long begins before the buffer. -/
def timestampStart (timerElapsedUs : U64) : Nat := min 16 (20 - (utos (ofInt (timerElapsedUs / 1000000)) 10 0).length)

theorem timerFormat_eq (h : Mapped m (a - 16 + BitVec.ofNat 64 (timestampStart t)) (26 - timestampStart t)) : ∃ m',
    timerFormat m a t = some m' ∧
    Reads m' a (timestamp t ++ [0]) ∧
    (∀ x, (∀ i < 26, timestampStart t ≤ i → x ≠ a - 16 + BitVec.ofNat 64 i) → m' x = m x) ∧
    ∀ x, (m x).isSome → (m' x).isSome := by
  obtain ⟨r, rfl⟩ : ∃ r, a = r + BitVec.ofNat 64 16 := ⟨a - 16, by bv_omega⟩
  rw [show r + BitVec.ofNat 64 16 - 16 = r by bv_omega] at h ⊢
  unfold timerFormat
  simp only
  obtain ⟨s, hs⟩ : ∃ s, s = utos (ofInt (t / 1000000)) 10 0 := ⟨_, rfl⟩
  obtain ⟨ms, hms⟩ : ∃ ms, ms = utos (ofInt (t % 1000000 / 100)) 10 0 := ⟨_, rfl⟩
  have hs20 : s.length ≤ 20 := hs ▸ utos_ten_length_le
  have hs0 : 0 < s.length := hs ▸ utos_ten_length_pos
  have hms4 : ms.length ≤ 4 := hms ▸ milliseconds_length
  have hms0 : 0 < ms.length := hms ▸ utos_ten_length_pos
  obtain ⟨o, hstart⟩ : ∃ o, o = timestampStart t := ⟨_, rfl⟩
  have ho : o ≤ 16 ∧ o ≤ 20 - s.length := by
    rw [hstart, timestampStart, hs]
    omega
  rw [← hstart, ← hs, ← hms, show r + BitVec.ofNat 64 16 + 5 = r + BitVec.ofNat 64 21 by bv_omega,
    show r + BitVec.ofNat 64 16 + 4 - BitVec.ofNat 64 s.length = r + BitVec.ofNat 64 (20 - s.length) by bv_omega,
    show r + BitVec.ofNat 64 16 + 4 = r + BitVec.ofNat 64 20 by bv_omega,
    show r + BitVec.ofNat 64 16 + 9 - BitVec.ofNat 64 ms.length = r + BitVec.ofNat 64 (25 - ms.length) by bv_omega]
  rw [← hstart] at h
  have hrun : ∀ {m : VMem} {k : Nat} {l : List Chr}, Mapped m (r + BitVec.ofNat 64 o) (26 - o) → o ≤ k →
      k + l.length ≤ 26 → storeAll m (r + BitVec.ofNat 64 k) l = some (poke m (r + BitVec.ofNat 64 k) l) := by
    intro m k l hm hk hkl
    have hshift : Mapped m (r + BitVec.ofNat 64 o + BitVec.ofNat 64 (k - o)) l.length := hm.shift (by omega)
    rw [BitVec.add_assoc, ← BitVec.ofNat_add, Nat.add_sub_cancel' hk] at hshift
    exact storeAll_eq (by omega) hshift
  have hout : ∀ {m : VMem} {k : Nat} {l : List Chr} {x : U64},
      (∀ i < 26, o ≤ i → x ≠ r + BitVec.ofNat 64 i) → o ≤ k ∧ k + l.length ≤ 26 →
      poke m (r + BitVec.ofNat 64 k) l x = m x := fun hx hk =>
    poke_outside fun i hi => by
      rw [BitVec.add_assoc, ← BitVec.ofNat_add]
      exact hx _ (by omega) (by omega)
  have hin : ∀ {m : VMem} {o : Nat} {l : List Chr} {k : Nat}, o + l.length ≤ 26 → o ≤ k ∧ k < o + l.length →
      poke m (r + BitVec.ofNat 64 o) l (r + BitVec.ofNat 64 k) = l[k - o]? := fun ho hk => poke_in (by omega) hk
  have hskip : ∀ {m : VMem} {o : Nat} {l : List Chr} {k : Nat}, o + l.length ≤ 26 ∧ k < 26 →
      (k < o ∨ o + l.length ≤ k) →
      poke m (r + BitVec.ofNat 64 o) l (r + BitVec.ofNat 64 k) = m (r + BitVec.ofNat 64 k) :=
    fun ho hk => poke_skip (by omega) (by omega) hk
  have hslen : (s ++ [0]).length = s.length + 1 := List.length_append
  have hmslen : (ms ++ [0]).length = ms.length + 1 := List.length_append
  simp only [Option.bind_eq_bind]
  rw [hrun h (by omega) (by simp), Option.bind_some, hrun h.poke (by omega) (by simp), Option.bind_some,
    hrun h.poke.poke (by omega) (by omega), Option.bind_some, hrun h.poke.poke.poke (by omega) (by simp), Option.bind_some,
    hrun h.poke.poke.poke.poke (by omega) (by omega)]
  refine ⟨_, rfl, fun i hi => ?_, fun x hx => ?_, fun x hx => ?_⟩
  · rw [List.length_append, timestamp_length, List.length_singleton] at hi
    rw [BitVec.add_assoc, ← BitVec.ofNat_add, timestamp, ← hs, ← hms, List.append_assoc, List.getElem?_append,
      lastFour_length]
    rcases Nat.lt_or_ge i 4 with h4 | h4
    · rw [if_pos h4, lastFour_getElem? h4, hskip (by omega) (by omega), hskip (by simp; omega) (by simp; omega)]
      split
      · rw [hskip (by omega) (by omega), hskip (by simp; omega) (by simp; omega), hin (by simp) (by simp; omega),
          List.getElem?_replicate, if_pos (by omega)]
      · rw [hin (by omega) (by omega), List.getElem?_append_left (by omega)]
        congr 1
        omega
    rw [if_neg (by omega)]
    obtain ⟨i, rfl⟩ : ∃ i', i = 4 + i' := ⟨i - 4, by omega⟩
    rw [Nat.add_sub_cancel_left, List.cons_append]
    cases i with
    | zero =>
      rw [hskip (by omega) (by omega), hin (by simp) (by simp)]
      rfl
    | succ i =>
      rw [List.getElem?_cons_succ, List.getElem?_append, lastFour_length]
      rcases Nat.lt_or_ge i 4 with hi4 | hi4
      · rw [if_pos hi4, lastFour_getElem? hi4]
        split
        · rw [hskip (by omega) (by omega), hskip (by simp; omega) (by simp; omega), hskip (by omega) (by omega),
            hin (by simp) (by simp; omega), List.getElem?_replicate, if_pos (by omega)]
        · rw [hin (by omega) (by omega), List.getElem?_append_left (by omega)]
          congr 1
          omega
      · obtain rfl : i = 4 := by omega
        rw [if_neg (by omega), hin (by omega) (by omega), List.getElem?_append_right (by omega)]
        congr 1
        omega
  · rw [hout hx (by omega), hout hx (by simp; omega), hout hx (by omega), hout hx (by simp; omega),
      hout hx (by simp; omega)]
  · exact poke_isSome (poke_isSome (poke_isSome (poke_isSome (poke_isSome hx))))

structure Formatter.Ready (f : Formatter) : Prop where
  buf : Mapped f.mem f.buf 64
  timestampBuf : Mapped f.mem (f.timestampBuf - 16) 26
  apart : Apart f.timestampBuf f.buf 16

theorem Apart.mono {src dst : U64} (h : Apart src dst n) (hk : k ≤ n) : Apart src dst k :=
  fun i hi j hj => h i (Nat.lt_of_lt_of_le hi hk) j (Nat.lt_of_lt_of_le hj hk)

theorem logPrefix_mapped (hf : Mapped f.mem f.buf 64) (hapart : Apart f.timestampBuf f.buf 16)
    (hstart : Mapped f.mem (f.timestampBuf - 16 + BitVec.ofNat 64 (timestampStart f.timerElapsedUs))
      (26 - timestampStart f.timerElapsedUs)) (hfuel : 9 < fuel) : ∃ m', logPrefix f fuel = some m' ∧
    Reads m' f.timestampBuf (timestamp f.timerElapsedUs ++ [0]) ∧
    Reads m' f.buf (timestamp f.timerElapsedUs ++ [0]) ∧
    (∀ x, (∀ i < 26, timestampStart f.timerElapsedUs ≤ i → x ≠ f.timestampBuf - 16 + BitVec.ofNat 64 i) →
      (∀ i < 10, x ≠ f.buf + BitVec.ofNat 64 i) → m' x = f.mem x) ∧
    ∀ x, (f.mem x).isSome → (m' x).isSome := by
  obtain ⟨m₁, htime, hreads, hframe, hmapped⟩ := timerFormat_eq hstart
  have hlen : (timestamp f.timerElapsedUs ++ [0]).length = 10 := by
    rw [List.length_append, timestamp_length]
    rfl
  have hbuf : Mapped m₁ f.buf 64 := fun i hi => hmapped _ (hf i hi)
  have hcopy : strcpy m₁ f.buf f.timestampBuf fuel = some (poke m₁ f.buf (timestamp f.timerElapsedUs ++ [0])) :=
    strcpy_eq hreads timestamp_nonzero (by rw [timestamp_length]; decide)
      (hbuf.mono (by rw [timestamp_length]; decide)) (hapart.mono (by rw [timestamp_length]; decide))
      (by rwa [timestamp_length])
  refine ⟨_, by rw [logPrefix, htime]; exact hcopy, hreads.congr fun i hi => ?_, reads_poke (by omega), ?_, ?_⟩
  · rw [hlen] at hi
    refine poke_outside fun j hj => ?_
    exact hapart i (by omega) j (by omega)
  · intro x hx hxbuf
    rw [poke_outside fun i hi => hxbuf i (by omega)]
    exact hframe x hx
  · exact fun x hx => poke_isSome (hmapped x hx)

theorem logPrefix_eq (hf : f.Ready) (hfuel : 9 < fuel) : ∃ m', logPrefix f fuel = some m' ∧
    Reads m' f.timestampBuf (timestamp f.timerElapsedUs ++ [0]) ∧
    Reads m' f.buf (timestamp f.timerElapsedUs ++ [0]) ∧
    (∀ x, (∀ i < 26, timestampStart f.timerElapsedUs ≤ i → x ≠ f.timestampBuf - 16 + BitVec.ofNat 64 i) →
      (∀ i < 10, x ≠ f.buf + BitVec.ofNat 64 i) → m' x = f.mem x) ∧
    ∀ x, (f.mem x).isSome → (m' x).isSome :=
  logPrefix_mapped hf.buf hf.apart (hf.timestampBuf.shift (by
    have := Nat.min_le_left 16 (20 - (utos (ofInt (f.timerElapsedUs / 1000000)) 10 0).length)
    unfold timestampStart
    omega)) hfuel

end ShedOS.Libk
