import Mathlib.Data.Nat.Digits.Defs
import ShedOS.Libk.Printf

/-!
# The formatter

A pure formatter over a format string and a list of arguments, and `printf` at
loglevel NONE: it sends what the formatter gives, takes one argument for each
conversion, and writes nothing but its buffer.
-/

namespace ShedOS.Libk

open Memory (U64)

variable {m m' : VMem} {k fuel n i base minLen : Nat} {c fmtc : Chr} {l w : List Chr} {v word a fmt : U64}
  {f : Formatter}

-- ---------------------------------------------------------------------------
-- The reference
-- ---------------------------------------------------------------------------

/-- An argument as the caller means it: what a pointer points to, not where. -/
inductive Arg where
  | size (v : U64)
  | int (v : BitVec 32)
  | string (s : List Chr)
  | wide (s : List (Chr × Chr))
  deriving DecidableEq, Repr

variable {arg : Arg} {args : List Arg}

def numeral (base n : Nat) : List Chr := (if n = 0 then [0] else (Nat.digits base n).reverse).map digit

def render (fmtc : Chr) (arg : Arg) : List Chr :=
  match fmtc, arg with
  | 0x61#8, .size v => chr '0' :: chr 'x' :: (numeral 16 v.toNat).leftpad 16 (chr '0')
  | 0x64#8, .int v => numeral 10 v.toNat
  | 0x62#8, .int v => numeral 2 v.toNat
  | 0x78#8, .size v => chr '0' :: chr 'x' :: numeral 16 v.toNat
  | 0x63#8, .int v => if v.setWidth 8 = (0 : Chr) then [] else [v.setWidth 8]
  | 0x73#8, .string s => s
  | 0x53#8, .wide s => s.map Prod.fst
  | _, _ => []

def format : List Chr → List Arg → List Chr
  | [], _ => []
  | c :: l, args =>
    if c = chr '%' then
      match l, args with
      | fmtc :: l, arg :: args => render fmtc arg ++ format l args
      | _, _ => []
    else c :: format l args

theorem format_char (h : c ≠ chr '%') : format (c :: l) args = c :: format l args := by
  rw [format.eq_def]
  exact if_neg h

theorem format_conversion : format (chr '%' :: fmtc :: l) (arg :: args) = render fmtc arg ++ format l args := by
  rw [format.eq_def]
  exact if_pos rfl

def Accepts (fmtc : Chr) (arg : Arg) : Prop :=
  match fmtc, arg with
  | 0x61#8, .size _ => True
  | 0x64#8, .int v => v.toNat < 2 ^ 31
  | 0x62#8, .int v => v.toNat < 2 ^ 31
  | 0x78#8, .size _ => True
  | 0x63#8, .int _ => True
  | 0x73#8, .string s => s.length < 64 ∧ 0 ∉ s
  | 0x53#8, .wide s => s.length < 64 ∧ ∀ unit ∈ s, unit.1 ≠ 0
  | _, _ => False

/-- A format string, each of its percent signs in front of a conversion, and
the arguments that match these. -/
inductive WellFormed : List Chr → List Arg → Prop
  | nil : WellFormed [] []
  | char {c : Chr} {l : List Chr} {args : List Arg} (h0 : c ≠ 0) (hpercent : c ≠ chr '%') (tail : WellFormed l args) :
    WellFormed (c :: l) args
  | conversion {fmtc : Chr} {l : List Chr} {arg : Arg} {args : List Arg} (haccepts : Accepts fmtc arg)
    (tail : WellFormed l args) : WellFormed (chr '%' :: fmtc :: l) (arg :: args)

-- ---------------------------------------------------------------------------
-- Digits
-- ---------------------------------------------------------------------------

theorem numeral_small (h : i < base) : numeral base i = [digit i] := by
  unfold numeral
  split
  next h0 => rw [h0]; rfl
  next h0 => rw [Nat.digits_of_lt base i h0 h]; rfl

theorem numeral_large (hbase : 1 < base) (h : base ≤ i) :
    numeral base i = numeral base (i / base) ++ [digit (i % base)] := by
  have hi : 0 < i := by omega
  have hdiv : i / base ≠ 0 := (Nat.div_pos h (by omega)).ne'
  unfold numeral
  rw [if_neg hi.ne', if_neg hdiv, Nat.digits_def' hbase hi, List.reverse_cons, List.map_append]
  rfl

theorem numeral_length_pos : 0 < (numeral base i).length := by
  unfold numeral
  split
  · simp
  next h0 => simp [Nat.digits_ne_nil_iff_ne_zero.mpr h0, List.length_pos_iff]

theorem valLen_eq (hbase : 1 < base) (h : i < base ^ (fuel + 1)) :
    valLen base (fuel + 1) i = (numeral base i).length := by
  induction fuel generalizing i with
  | zero =>
    rw [Nat.zero_add, Nat.pow_one] at h
    rw [valLen, Nat.div_eq_of_lt h, if_neg (Nat.lt_irrefl 0), numeral_small h]
    rfl
  | succ fuel ih =>
    rcases Nat.lt_or_ge i base with hlt | hge
    · rw [valLen, Nat.div_eq_of_lt hlt, if_neg (Nat.lt_irrefl 0), numeral_small hlt]
      rfl
    · rw [valLen, if_pos (Nat.div_pos hge (by omega)), ih, numeral_large hbase hge, List.length_append]
      · rfl
      · exact Nat.div_lt_of_lt_mul (by rwa [Nat.pow_succ, Nat.mul_comm] at h)

theorem digits_zero : digits base n 0 = List.replicate n (chr '0') := by
  induction n with
  | zero => rfl
  | succ n ih =>
    rw [digits, Nat.zero_div, Nat.zero_mod, ih, List.replicate_succ']
    rfl

theorem digits_eq (hbase : 1 < base) (h : (numeral base i).length ≤ n) :
    digits base n i = (numeral base i).leftpad n (chr '0') := by
  induction n generalizing i with
  | zero => exact absurd numeral_length_pos (Nat.not_lt.mpr h)
  | succ n ih =>
    rw [digits]
    rcases Nat.lt_or_ge i base with hlt | hge
    · rw [Nat.div_eq_of_lt hlt, digits_zero, Nat.mod_eq_of_lt hlt, numeral_small hlt]
      rfl
    · rw [numeral_large hbase hge] at h ⊢
      rw [ih (by simpa using h)]
      simp [List.leftpad]

theorem utos_eq (hbase : 1 < base) : utos v base minLen =
    (if base = 16 then [chr '0', chr 'x'] else []) ++ (numeral base v.toNat).leftpad minLen (chr '0') := by
  have hlt : v.toNat < base ^ (63 + 1) :=
    Nat.lt_of_lt_of_le v.isLt (Nat.pow_le_pow_left (show 2 ≤ base from hbase) 64)
  have hpad : (numeral base v.toNat).leftpad (max (numeral base v.toNat).length minLen) (chr '0') =
      (numeral base v.toNat).leftpad minLen (chr '0') := by
    unfold List.leftpad
    congr 2
    omega
  unfold utos
  simp only
  rw [valLen_eq hbase hlt, digits_eq hbase (Nat.le_max_left _ _), hpad]
  split <;> rfl

theorem numeral_length_le (hbase : 1 < base) (h : i < base ^ (n + 1)) : (numeral base i).length ≤ n + 1 := by
  rw [← valLen_eq hbase h]
  exact valLen_le h

theorem leftpad_zero : l.leftpad 0 c = l := by
  simp [List.leftpad]

theorem toNat_ofInt (h : (word.setWidth 32).toNat < 2 ^ 31) : (ofInt word).toNat = (word.setWidth 32).toNat := by
  have hmsb : (word.setWidth 32).msb = false := by
    rw [BitVec.msb_eq_false_iff_two_mul_lt]
    omega
  rw [ofInt, BitVec.toNat_signExtend, hmsb, BitVec.toNat_setWidth_of_le (by decide)]
  rfl

-- ---------------------------------------------------------------------------
-- printf at loglevel NONE
-- ---------------------------------------------------------------------------

/-- What a run of the loop sends and leaves: the memory, and the next argument. -/
structure Sent where
  out : List Chr
  mem : VMem
  next : Nat

/-- The loop of `printf` with what it leaves. `none` is a page fault, or a run
that is out of fuel. -/
def printfRun (f : Formatter) : VMem → (k : Nat) → (fmt : U64) → (fuel : Nat) → Option Sent
  | _, _, _, 0 => none
  | m, k, fmt, fuel + 1 => do
    let c ← m fmt
    if c = 0 then return ⟨[], m, k⟩
    else if c = chr '%' then
      let fmtc ← m (fmt + 1)
      let (m, k) ← convert f m k fmtc fuel
      let (out, done) := puts m f.buf fuel
      if done then
        let c ← m (fmt + 1)
        let rest ← printfRun f m k (if c ≠ 0 then fmt + 2 else fmt + 1) fuel
        return { rest with out := out ++ rest.out }
      else none
    else
      let rest ← printfRun f m k (fmt + 1) fuel
      return { rest with out := c :: rest.out }

theorem printfRun_out {r : Sent} (h : printfRun f m k fmt fuel = some r) : printfLoop f m k fmt fuel = r.out := by
  induction fuel generalizing m k fmt r with
  | zero => cases h
  | succ fuel ih =>
    rw [printfRun] at h
    rw [printfLoop]
    obtain ⟨c, hc, h⟩ := Option.bind_eq_some_iff.mp h
    rw [hc]
    simp only
    split at h
    next h0 =>
      rw [if_pos h0, ← Option.some.inj h]
    next h0 =>
      rw [if_neg h0]
      split at h
      next hpercent =>
        obtain ⟨fmtc, hfmtc, h⟩ := Option.bind_eq_some_iff.mp h
        obtain ⟨⟨m', k'⟩, hconv, h⟩ := Option.bind_eq_some_iff.mp h
        rw [if_pos hpercent, hfmtc, Option.bind_some, hconv]
        simp only at h ⊢
        split at h
        next hdone =>
          obtain ⟨c', hc', h⟩ := Option.bind_eq_some_iff.mp h
          obtain ⟨rest, hrest, h⟩ := Option.bind_eq_some_iff.mp h
          rw [if_pos hdone, hc', ← Option.some.inj h]
          exact congrArg _ (ih hrest)
        next => cases h
      next hpercent =>
        obtain ⟨rest, hrest, h⟩ := Option.bind_eq_some_iff.mp h
        rw [if_neg hpercent, ← Option.some.inj h]
        exact congrArg _ (ih hrest)

-- ---------------------------------------------------------------------------
-- What is given
-- ---------------------------------------------------------------------------

def OutsideBuf (f : Formatter) (a : U64) (n : Nat) : Prop :=
  ∀ i < n, ∀ j < 64, a + BitVec.ofNat 64 i ≠ f.buf + BitVec.ofNat 64 j

def Passed (f : Formatter) (m : VMem) (word : U64) : Arg → Prop
  | .size v => word = v
  | .int v => word.setWidth 32 = v
  | .string s => Reads m word (s ++ [0]) ∧ OutsideBuf f word (s.length + 1)
  | .wide s => Reads m word (wide s) ∧ OutsideBuf f word (wide s).length

/-- A format string at `fmt` with its arguments, from the `k`th on. -/
structure Given (f : Formatter) (m : VMem) (k : Nat) (fmt : U64) (l : List Chr) (args : List Arg) : Prop where
  wellFormed : WellFormed l args
  text : Reads m fmt (l ++ [0])
  outside : OutsideBuf f fmt (l.length + 1)
  passed : ∀ i arg, args[i]? = some arg → Passed f m (f.varargs (k + i)) arg
  buf : Mapped m f.buf 64

def OnlyBuf (f : Formatter) (m m' : VMem) : Prop := ∀ x, (∀ j < 64, x ≠ f.buf + BitVec.ofNat 64 j) → m' x = m x

theorem OnlyBuf.poke (h : w.length ≤ 64) : OnlyBuf f m (poke m f.buf w) := fun _ hx =>
  poke_outside fun j hj => hx j (by omega)

theorem OnlyBuf.reads (h : OnlyBuf f m m') (hr : Reads m a l) (ho : OutsideBuf f a l.length) : Reads m' a l :=
  hr.congr fun i hi => h _ fun j hj => ho i hi j hj

theorem Passed.onlyBuf (h : OnlyBuf f m m') (hp : Passed f m word arg) : Passed f m' word arg := by
  cases arg with
  | size v => exact hp
  | int v => exact hp
  | string s => exact ⟨h.reads hp.1 (by simpa using hp.2), hp.2⟩
  | wide s => exact ⟨h.reads hp.1 hp.2, hp.2⟩

-- ---------------------------------------------------------------------------
-- One conversion
-- ---------------------------------------------------------------------------

structure Converts (f : Formatter) (m : VMem) (k fuel : Nat) (fmtc : Chr) (out : List Chr) (m' : VMem) : Prop where
  run : convert f m k fmtc fuel = some (m', k + 1)
  sends : puts m' f.buf fuel = (out, true)
  onlyBuf : OnlyBuf f m m'
  buf : Mapped m' f.buf 64

theorem Converts.ofPoke (hbuf : Mapped m f.buf 64) (h0 : 0 ∉ w) (hlen : w.length < 64) (hfuel : 63 < fuel)
    (hrun : convert f m k fmtc fuel = some (poke m f.buf (w ++ [0]), k + 1)) :
    Converts f m k fuel fmtc w (poke m f.buf (w ++ [0])) where
  run := hrun
  sends := puts_eq (reads_poke (by simp; omega)) h0 (by omega)
  onlyBuf := .poke (by simp; omega)
  buf := hbuf.poke

theorem Converts.ofUtos (hbuf : Mapped m f.buf 64) (h0 : 0 < base) (h16 : base ≤ 16) (hlen : (utos v base n).length < 64)
    (hfuel : 63 < fuel)
    (hrun : convert f m k fmtc fuel = (storeAll m f.buf (utos v base n ++ [0])).map (·, k + 1)) :
    Converts f m k fuel fmtc (utos v base n) (poke m f.buf (utos v base n ++ [0])) := by
  refine .ofPoke hbuf (utos_nonzero h0 h16) hlen hfuel ?_
  rw [hrun, storeAll_eq (by simp; omega) (hbuf.mono (by simp; omega))]
  rfl

theorem utos_sixteen : utos v 16 n = chr '0' :: chr 'x' :: (numeral 16 v.toNat).leftpad n (chr '0') := by
  rw [utos_eq (by decide), if_pos rfl]
  rfl

theorem utos_int (hbase : 1 < base) (hne : base ≠ 16) (h : (word.setWidth 32).toNat < 2 ^ 31) :
    utos (ofInt word) base 0 = numeral base (word.setWidth 32).toNat := by
  rw [utos_eq hbase, if_neg hne, leftpad_zero, toNat_ofInt h]
  rfl

theorem utos_sixteen_length (hn : n ≤ 16) : (utos v 16 n).length ≤ 18 := by
  have hlen : (numeral 16 v.toNat).length ≤ 15 + 1 := numeral_length_le (by decide) v.isLt
  rw [utos_sixteen, List.length_cons, List.length_cons, List.length_leftpad]
  omega

theorem converts (hacc : Accepts fmtc arg) (hp : Passed f m (f.varargs k) arg) (hbuf : Mapped m f.buf 64)
    (hfuel : 63 < fuel) : ∃ m', Converts f m k fuel fmtc (render fmtc arg) m' := by
  unfold Accepts at hacc
  split at hacc
  · -- %a
    obtain rfl : f.varargs k = _ := hp
    have hlen : (utos (f.varargs k) 16 16).length < 64 := Nat.lt_of_le_of_lt (utos_sixteen_length (by decide)) (by decide)
    have h : Converts f m k fuel 0x61#8 (utos (f.varargs k) 16 16) _ := .ofUtos hbuf (by decide) (by decide) hlen hfuel rfl
    rw [utos_sixteen] at h
    exact ⟨_, h⟩
  · -- %d
    obtain rfl : (f.varargs k).setWidth 32 = _ := hp
    have hnum : utos (ofInt (f.varargs k)) 10 0 = _ := utos_int (by decide) (by decide) hacc
    have hlen : (utos (ofInt (f.varargs k)) 10 0).length < 64 := Nat.lt_of_le_of_lt utos_ten_length_le (by decide)
    have h : Converts f m k fuel 0x64#8 (utos (ofInt (f.varargs k)) 10 0) _ := .ofUtos hbuf (by decide) (by decide) hlen hfuel rfl
    rw [hnum] at h
    exact ⟨_, h⟩
  · -- %b
    obtain rfl : (f.varargs k).setWidth 32 = _ := hp
    have hnum : utos (ofInt (f.varargs k)) 2 0 = _ := utos_int (by decide) (by decide) hacc
    have hlen : (utos (ofInt (f.varargs k)) 2 0).length < 64 := by
      rw [hnum]
      exact Nat.lt_of_le_of_lt (numeral_length_le (n := 30) (by decide) hacc) (by decide)
    have h : Converts f m k fuel 0x62#8 (utos (ofInt (f.varargs k)) 2 0) _ := .ofUtos hbuf (by decide) (by decide) hlen hfuel rfl
    rw [hnum] at h
    exact ⟨_, h⟩
  · -- %x
    obtain rfl : f.varargs k = _ := hp
    have hlen : (utos (f.varargs k) 16 0).length < 64 := Nat.lt_of_le_of_lt (utos_sixteen_length (by decide)) (by decide)
    have h : Converts f m k fuel 0x78#8 (utos (f.varargs k) 16 0) _ := .ofUtos hbuf (by decide) (by decide) hlen hfuel rfl
    rw [utos_sixteen, leftpad_zero] at h
    exact ⟨_, h⟩
  · -- %c: a NUL ends the string at once
    obtain rfl : (f.varargs k).setWidth 32 = _ := hp
    have hchar : ((f.varargs k).setWidth 32).setWidth 8 = ((f.varargs k).setWidth 8 : Chr) :=
      BitVec.setWidth_setWidth_of_le _ (by decide)
    have hrun : convert f m k 0x63#8 fuel = some (poke m f.buf [(f.varargs k).setWidth 8, 0], k + 1) := by
      change (storeAll m f.buf [(f.varargs k).setWidth 8, 0]).map (·, k + 1) = _
      rw [storeAll_eq (by simp) (hbuf.mono (by simp))]
      rfl
    change ∃ m', Converts f m k fuel 0x63#8
      (if ((f.varargs k).setWidth 32).setWidth 8 = (0 : Chr) then [] else [((f.varargs k).setWidth 32).setWidth 8]) m'
    rw [hchar]
    refine ⟨_, hrun, ?_, .poke (by simp), hbuf.poke⟩
    obtain ⟨hfirst, hrest⟩ := reads_cons.mp (reads_poke (m := m) (a := f.buf) (l := [(f.varargs k).setWidth 8, 0]) (by simp))
    split
    next h0 =>
      rw [h0] at hfirst ⊢
      exact puts_eq (l := []) (reads_cons.mpr ⟨hfirst, fun i hi => absurd hi (Nat.not_lt_zero i)⟩) List.not_mem_nil
        (by simp; omega)
    next h0 =>
      exact puts_eq (reads_cons.mpr ⟨hfirst, hrest⟩) (by simpa using Ne.symm h0) (by simp; omega)
  · -- %s
    obtain ⟨hreads, hout⟩ := hp
    obtain ⟨hlen, h0⟩ := hacc
    refine ⟨_, .ofPoke hbuf h0 hlen hfuel ?_⟩
    change (strcpy m f.buf (f.varargs k) fuel).map (·, k + 1) = _
    rw [strcpy_eq hreads h0 (by omega) (hbuf.mono (by omega)) (fun i hi j hj => hout i hi j (by omega)) (by omega)]
    rfl
  next s =>
    -- %S
    obtain ⟨hreads, hout⟩ := hp
    obtain ⟨hlen, h0⟩ := hacc
    have hlow : (0 : Chr) ∉ s.map Prod.fst := fun h => by
      obtain ⟨unit, hunit, hz⟩ := List.mem_map.mp h
      exact h0 unit hunit hz
    refine ⟨_, .ofPoke hbuf hlow ((List.length_map _).trans_lt hlen) hfuel ?_⟩
    change (copyWide m f.buf (f.varargs k) fuel).map (·, k + 1) = _
    rw [copyWide_eq hreads (fun h => h0 _ h rfl) (by omega) (hbuf.mono (by omega))
      (fun i hi j hj => hout i hi j (by omega)) (by omega)]
    rfl
  · exact hacc.elim

-- ---------------------------------------------------------------------------
-- The whole format string
-- ---------------------------------------------------------------------------

theorem Accepts.nonzero (h : Accepts fmtc arg) : fmtc ≠ 0 := by
  rintro rfl
  exact h

theorem OutsideBuf.tail (h : OutsideBuf f a (n + 1)) : OutsideBuf f (a + 1) n := fun i hi j hj => by
  rw [add_one_add]
  exact h (i + 1) (Nat.succ_lt_succ hi) j hj

theorem Given.char (h : Given f m k fmt (c :: l) args) (hwf : WellFormed l args) : Given f m k (fmt + 1) l args where
  wellFormed := hwf
  text := (reads_cons.mp h.text).2
  outside := h.outside.tail
  passed := h.passed
  buf := h.buf

theorem Given.conversion {m' : VMem} (h : Given f m k fmt (chr '%' :: fmtc :: l) (arg :: args)) (hwf : WellFormed l args)
    (hm : OnlyBuf f m m') (hbuf : Mapped m' f.buf 64) : Given f m' (k + 1) (fmt + 2) l args := by
  have htext : Reads m (fmt + 2) (l ++ [0]) := by
    rw [show fmt + 2 = fmt + 1 + 1 by bv_omega]
    exact (reads_cons.mp (reads_cons.mp h.text).2).2
  have hout : OutsideBuf f (fmt + 2) (l.length + 1) := by
    rw [show fmt + 2 = fmt + 1 + 1 by bv_omega]
    exact h.outside.tail.tail
  refine ⟨hwf, hm.reads htext (by simpa using hout), hout, fun i arg' hi => ?_, hbuf⟩
  have hp := h.passed (i + 1) arg' (by simpa using hi)
  rw [show k + 1 + i = k + (i + 1) by omega]
  exact hp.onlyBuf hm

theorem printfRun_eq_format (h : Given f m k fmt l args) (hfuel : l.length + 65 ≤ fuel) : ∃ m',
    printfRun f m k fmt fuel = some ⟨format l args, m', k + args.length⟩ ∧ OnlyBuf f m m' := by
  have hwf := h.wellFormed
  induction hwf generalizing m k fmt fuel with
  | nil =>
    obtain ⟨fuel, rfl⟩ : ∃ fuel', fuel = fuel' + 1 := ⟨fuel - 1, by omega⟩
    obtain ⟨hc, -⟩ := reads_cons.mp h.text
    refine ⟨m, ?_, fun _ _ => rfl⟩
    rw [printfRun, hc]
    rfl
  | @char c l args h0 hpercent tail ih =>
    rw [List.length_cons] at hfuel
    obtain ⟨fuel, rfl⟩ : ∃ fuel', fuel = fuel' + 1 := ⟨fuel - 1, by omega⟩
    obtain ⟨hc, -⟩ := reads_cons.mp h.text
    obtain ⟨m', hrun, hm⟩ := ih (h.char tail) (show l.length + 65 ≤ fuel by omega)
    refine ⟨m', ?_, hm⟩
    rw [printfRun, hc, format_char hpercent]
    simp only [Option.bind_eq_bind, Option.bind_some, if_neg h0, if_neg hpercent, hrun]
    rfl
  | @conversion fmtc l arg args haccepts tail ih =>
    rw [List.length_cons, List.length_cons] at hfuel
    obtain ⟨fuel, rfl⟩ : ∃ fuel', fuel = fuel' + 1 := ⟨fuel - 1, by omega⟩
    obtain ⟨hpercent, htext⟩ := reads_cons.mp h.text
    obtain ⟨hfmtc, -⟩ := reads_cons.mp htext
    obtain ⟨m₁, hconv⟩ : ∃ m₁, Converts f m k fuel fmtc (render fmtc arg) m₁ :=
      converts haccepts (h.passed 0 arg rfl) h.buf (by omega)
    -- The switch reads the letter again after the conversion; it is still there.
    have hfmtc₁ : m₁ (fmt + 1) = some fmtc := by
      rw [← hfmtc]
      refine hconv.onlyBuf _ fun j hj => ?_
      have hne := h.outside 1 (by simp) j hj
      rwa [show BitVec.ofNat 64 1 = (1 : U64) from rfl] at hne
    obtain ⟨m', hrun, hm⟩ := ih (h.conversion tail hconv.onlyBuf hconv.buf) (show l.length + 65 ≤ fuel by omega)
    refine ⟨m', ?_, fun x hx => (hm x hx).trans (hconv.onlyBuf x hx)⟩
    rw [printfRun, hpercent, format_conversion]
    simp only [Option.bind_eq_bind, Option.bind_some, show chr '%' ≠ 0 by decide, if_false, if_true, hfmtc, hconv.run,
      hconv.sends, hfmtc₁, if_pos haccepts.nonzero, hrun]
    rw [List.length_cons, Nat.add_assoc, Nat.add_comm 1]
    rfl

def Named (f : Formatter) (fmt : U64) (l : List Chr) (args : List Arg) (x : U64) : Prop :=
  (∃ i ≤ l.length, x = fmt + BitVec.ofNat 64 i) ∨
    ∃ k arg, args[k]? = some arg ∧ ∃ i, x = f.varargs k + BitVec.ofNat 64 i ∧
      match arg with
      | .string s => i ≤ s.length
      | .wide s => i < (wide s).length
      | _ => False

theorem Given.congr (h : Given f m 0 fmt l args) (hm : ∀ x, Named f fmt l args x → m' x = m x)
    (hbuf : Mapped m' f.buf 64) : Given f m' 0 fmt l args := by
  refine ⟨h.wellFormed, h.text.congr fun i hi => hm _ (.inl ⟨i, by simp at hi; omega, rfl⟩), h.outside,
    fun i arg hi => ?_, hbuf⟩
  have hp := h.passed i arg hi
  rw [Nat.zero_add] at hp ⊢
  cases arg with
  | size v => exact hp
  | int v => exact hp
  | string s =>
    exact ⟨hp.1.congr fun j hj => hm _ (.inr ⟨i, _, hi, j, rfl, by simp at hj; omega⟩), hp.2⟩
  | wide s =>
    exact ⟨hp.1.congr fun j hj => hm _ (.inr ⟨i, _, hi, j, rfl, hj⟩), hp.2⟩

/-- `printf(KMSG_LOGLEVEL_NONE, fmt, …)` sends what the formatter gives. Only
the text up to its NUL, the strings of the arguments and the buffer have to be
there: `m` may hold anything in the buffer, and nothing elsewhere. -/
theorem printf_eq_format (h : Given f f.mem 0 fmt l args) (hm : ∀ x, Named f fmt l args x → m x = f.mem x)
    (hbuf : Mapped m f.buf 64) (hfuel : l.length + 65 ≤ fuel) : ∃ m',
    printfRun f m 0 fmt fuel = some ⟨format l args, m', args.length⟩ ∧
      printfLoop f m 0 fmt fuel = format l args ∧ OnlyBuf f m m' := by
  obtain ⟨m', hrun, hbuf⟩ := printfRun_eq_format (h.congr hm hbuf) hfuel
  rw [Nat.zero_add] at hrun
  exact ⟨m', hrun, printfRun_out hrun, hbuf⟩

def sample : Formatter where
  mem x := some (("n=%x %s".toList.map chr ++ 0 :: "ok".toList.map chr).getD (x.toNat - 0x400000) 0)
  buf := 0xffffffff80100000
  timestampBuf := 0xffffffff80100040
  varargs k := if k = 0 then 0x2A else 0x400008
  timerElapsedUs := 0

theorem sample_outside (ha : a.toNat + n ≤ 0x400100) : OutsideBuf sample a n := fun i hi j hj => by
  change a + BitVec.ofNat 64 i ≠ 0xffffffff80100000#64 + BitVec.ofNat 64 j
  bv_omega

theorem sample_given : Given sample sample.mem 0 0x400000 ("n=%x %s".toList.map chr)
    [.size 0x2A, .string ("ok".toList.map chr)] where
  wellFormed := by
    refine .char (by decide) (by decide) (.char (by decide) (by decide) (.conversion trivial ?_))
    exact .char (by decide) (by decide) (.conversion ⟨by decide, by decide⟩ .nil)
  text := by
    intro i hi
    replace hi : i < 8 := hi
    interval_cases i <;> rfl
  outside := sample_outside (by decide)
  passed i arg hi := by
    rcases i with _ | _ | i
    · cases hi
      rfl
    · cases hi
      refine ⟨fun i hi => ?_, sample_outside (by decide)⟩
      replace hi : i < 3 := hi
      interval_cases i <;> rfl
    · cases hi
  buf i _ := rfl

theorem printf_eq_format_sample : ∃ m',
    printfRun sample sample.mem 0 0x400000 100 =
      some ⟨format ("n=%x %s".toList.map chr) [.size 0x2A, .string ("ok".toList.map chr)], m', 2⟩ ∧
      printfLoop sample sample.mem 0 0x400000 100 =
        format ("n=%x %s".toList.map chr) [.size 0x2A, .string ("ok".toList.map chr)] ∧
      OnlyBuf sample sample.mem m' :=
  printf_eq_format sample_given (fun _ _ => rfl) (fun _ _ => rfl) (by decide)

example : format ("n=%x %s".toList.map chr) [.size 0x2A, .string ("ok".toList.map chr)] =
    "n=0x2A ok".toList.map chr := by
  simp [format, render, numeral, chr, digit]

end ShedOS.Libk
