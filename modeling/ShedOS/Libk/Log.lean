import ShedOS.Libk.Timestamp

/-!
# printf with a log level

What a logged message touches: its own buffers, the text, and the strings among
its arguments.
-/

namespace ShedOS.Libk

open Memory (U64)

variable {m m' : VMem} {a dst src fmt time : U64} {k fuel i : Nat} {c fmtc : Chr} {l w : List Chr} {f f' : Formatter}
  {args : List Arg}

/-- `printf(loglevel, fmt, …)` at a level other than NONE, called at this time. -/
def printfLog (f : Formatter) (m : VMem) (time fmt : U64) (fuel : Nat) : Option VMem := do
  let f := { f with mem := m, timerElapsedUs := time }
  let m ← logPrefix f fuel
  let sent ← printfRun f m 0 fmt fuel
  return sent.mem

/-- The whole seconds, as the `int` that they are passed as, have four digits at most. -/
def FourDigits (time : U64) : Prop := ((time / 1000000).setWidth 32).toNat < 10000

theorem fourDigits_iff : FourDigits time ↔ (utos (ofInt (time / 1000000)) 10 0).length ≤ 4 := by
  obtain ⟨v, hv⟩ : ∃ v, v = time / 1000000 := ⟨_, rfl⟩
  rw [FourDigits, ← hv]
  have hlt := (v.setWidth 32).isLt
  have hfour : ∀ n, (numeral 10 n).length ≤ 4 ↔ n < 10 ^ 4 := fun n => numeral_length_le_iff (by decide) (by decide)
  rcases Nat.lt_or_ge (v.setWidth 32).toNat (2 ^ 31) with h | h
  · rw [utos_int (by decide) (by decide) h]
    exact (hfour _).symm
  · -- a negative one is a large `uint64_t`
    have hmsb : (v.setWidth 32).msb = true := by
      rw [BitVec.msb_eq_true_iff_two_mul_ge]
      omega
    have hlarge : 10000 ≤ (ofInt v).toNat := by
      rw [ofInt, BitVec.toNat_signExtend, hmsb]
      simp only [if_true, BitVec.toNat_setWidth] at h ⊢
      omega
    rw [utos_eq (by decide), if_neg (by decide), leftpad_zero]
    refine iff_of_false (by omega) fun hle => ?_
    exact absurd ((hfour _).mp hle) (Nat.not_lt.mpr hlarge)

theorem FourDigits.start (h : FourDigits time) : timestampStart time = 16 := by
  have hle := fourDigits_iff.mp h
  unfold timestampStart
  omega

-- ---------------------------------------------------------------------------
-- Stores do not map anything
-- ---------------------------------------------------------------------------

def SameMap (m m' : VMem) : Prop := ∀ x, (m' x).isSome = (m x).isSome

theorem SameMap.trans {m'' : VMem} (h : SameMap m m') (h' : SameMap m' m'') : SameMap m m'' := fun x => (h' x).trans (h x)

theorem storeAll_sameMap (h : storeAll m a l = some m') : SameMap m m' := (storeAll_some h).1

theorem store_sameMap (h : store m a c = some m') : SameMap m m' := by
  refine storeAll_sameMap (a := a) (l := [c]) ?_
  rw [storeAll, h]
  rfl

theorem strcpy_sameMap (h : strcpy m dst src fuel = some m') : SameMap m m' := by
  induction fuel generalizing m dst src with
  | zero => cases h
  | succ fuel ih =>
    obtain ⟨c, -, h⟩ := Option.bind_eq_some_iff.mp h
    obtain ⟨m₁, hm₁, h⟩ := Option.bind_eq_some_iff.mp h
    refine (store_sameMap hm₁).trans ?_
    split at h
    · obtain rfl := Option.some.inj h
      exact fun _ => rfl
    · exact ih h

theorem copyWide_sameMap (h : copyWide m dst src fuel = some m') : SameMap m m' := by
  induction fuel generalizing m dst src with
  | zero => cases h
  | succ fuel ih =>
    obtain ⟨low, -, h⟩ := Option.bind_eq_some_iff.mp h
    obtain ⟨high, -, h⟩ := Option.bind_eq_some_iff.mp h
    split at h
    · exact store_sameMap h
    · obtain ⟨m₁, hm₁, h⟩ := Option.bind_eq_some_iff.mp h
      exact (store_sameMap hm₁).trans (ih h)

theorem convert_sameMap {k' : Nat} (h : convert f m k fmtc fuel = some (m', k')) : SameMap m m' := by
  have hmap : ∀ {r : Option VMem}, (∀ {m'}, r = some m' → SameMap m m') → r.map (·, k + 1) = some (m', k') → SameMap m m' := by
    intro r hr h
    obtain ⟨m₁, hm₁, he⟩ := Option.map_eq_some_iff.mp h
    obtain ⟨rfl, -⟩ := Prod.mk.inj he
    exact hr hm₁
  unfold convert at h
  simp only at h
  split at h
  · exact hmap storeAll_sameMap h
  · exact hmap storeAll_sameMap h
  · exact hmap storeAll_sameMap h
  · exact hmap storeAll_sameMap h
  · exact hmap storeAll_sameMap h
  · exact hmap strcpy_sameMap h
  · exact hmap copyWide_sameMap h
  · obtain ⟨rfl, -⟩ := Prod.mk.inj (Option.some.inj h)
    exact fun _ => rfl

theorem printfRun_sameMap {r : Sent} (h : printfRun f m k fmt fuel = some r) : SameMap m r.mem := by
  induction fuel generalizing m k fmt r with
  | zero => cases h
  | succ fuel ih =>
    rw [printfRun] at h
    obtain ⟨c, -, h⟩ := Option.bind_eq_some_iff.mp h
    split at h
    next =>
      obtain rfl := Option.some.inj h
      exact fun _ => rfl
    split at h
    next =>
      obtain ⟨fmtc, -, h⟩ := Option.bind_eq_some_iff.mp h
      obtain ⟨⟨m₁, k'⟩, hconv, h⟩ := Option.bind_eq_some_iff.mp h
      simp only at h
      split at h
      next =>
        obtain ⟨c', -, h⟩ := Option.bind_eq_some_iff.mp h
        obtain ⟨rest, hrest, h⟩ := Option.bind_eq_some_iff.mp h
        obtain rfl := Option.some.inj h
        have htail : SameMap m₁ rest.mem := ih hrest
        exact (convert_sameMap hconv).trans htail
      next => cases h
    next =>
      obtain ⟨rest, hrest, h⟩ := Option.bind_eq_some_iff.mp h
      obtain rfl := Option.some.inj h
      have htail : SameMap m rest.mem := ih hrest
      exact htail

theorem timerFormat_sameMap (h : timerFormat m a time = some m') : SameMap m m' := by
  unfold timerFormat at h
  obtain ⟨m₁, hm₁, h⟩ := Option.bind_eq_some_iff.mp h
  obtain ⟨m₂, hm₂, h⟩ := Option.bind_eq_some_iff.mp h
  obtain ⟨m₃, hm₃, h⟩ := Option.bind_eq_some_iff.mp h
  obtain ⟨m₄, hm₄, h⟩ := Option.bind_eq_some_iff.mp h
  have h₂ := (storeAll_sameMap hm₁).trans (storeAll_sameMap hm₂)
  exact (h₂.trans (storeAll_sameMap hm₃)).trans ((storeAll_sameMap hm₄).trans (storeAll_sameMap h))

theorem printfLog_split (h : printfLog f m time fmt fuel = some m') :
    ∃ (f' : Formatter) (m₀ m₁ : VMem) (sent : Sent), f'.buf = f.buf ∧ f'.varargs = f.varargs ∧
      timerFormat m f.timestampBuf time = some m₀ ∧ strcpy m₀ f.buf f.timestampBuf fuel = some m₁ ∧
      printfRun f' m₁ 0 fmt fuel = some sent ∧ sent.mem = m' := by
  obtain ⟨m₁, hlog, h⟩ := Option.bind_eq_some_iff.mp h
  obtain ⟨sent, hsent, h⟩ := Option.bind_eq_some_iff.mp h
  obtain ⟨m₀, htime, hcopy⟩ := Option.bind_eq_some_iff.mp hlog
  exact ⟨{ f with mem := m, timerElapsedUs := time }, m₀, m₁, sent, rfl, rfl, htime, hcopy, hsent, Option.some.inj h⟩

theorem printfLog_sameMap (h : printfLog f m time fmt fuel = some m') : SameMap m m' := by
  obtain ⟨f', m₀, m₁, sent, -, -, htime, hcopy, hsent, rfl⟩ := printfLog_split h
  exact ((timerFormat_sameMap htime).trans (strcpy_sameMap hcopy)).trans (printfRun_sameMap hsent)

-- ---------------------------------------------------------------------------
-- A message whose time and strings fit
-- ---------------------------------------------------------------------------

structure Undisturbed (f : Formatter) (m : VMem) : Prop where
  other : ∀ x, (∀ i < 64, x ≠ f.buf + BitVec.ofNat 64 i) → (∀ i < 16, x ≠ f.timestampBuf + BitVec.ofNat 64 i) → m x = f.mem x
  buf : Mapped m f.buf 64
  timestampBuf : Mapped m f.timestampBuf 16

def BuffersApart (f : Formatter) : Prop :=
  ∀ i < 16, ∀ j < 64, f.timestampBuf + BitVec.ofNat 64 i ≠ f.buf + BitVec.ofNat 64 j

structure Message (f : Formatter) (fmt : U64) (l : List Chr) (args : List Arg) : Prop where
  given : Given f f.mem 0 fmt l args
  outside : ∀ x, Named f fmt l args x → ∀ i < 16, x ≠ f.timestampBuf + BitVec.ofNat 64 i

theorem Given.outside_of_named {x : U64} (h : Given f m 0 fmt l args) (hx : Named f fmt l args x) :
    ∀ j < 64, x ≠ f.buf + BitVec.ofNat 64 j := by
  intro j hj
  rcases hx with ⟨i, hi, rfl⟩ | ⟨n, arg, harg, i, rfl, hi⟩
  · exact h.outside i (by omega) j hj
  · have hp := h.passed n arg harg
    rw [Nat.zero_add] at hp
    cases arg with
    | size v => exact hi.elim
    | int v => exact hi.elim
    | string s => exact hp.2 i (by omega) j hj
    | wide s => exact hp.2 i hi j hj

theorem Given.of (h : Given f m k fmt l args) (hbuf : f'.buf = f.buf) (hargs : f'.varargs = f.varargs) :
    Given f' m k fmt l args where
  wellFormed := h.wellFormed
  text := h.text
  outside i hi j hj := hbuf ▸ h.outside i hi j hj
  passed i arg hi := by
    have hp := h.passed i arg hi
    rw [hargs]
    cases arg with
    | size v => exact hp
    | int v => exact hp
    | string s => exact ⟨hp.1, fun i hi j hj => hbuf ▸ hp.2 i hi j hj⟩
    | wide s => exact ⟨hp.1, fun i hi j hj => hbuf ▸ hp.2 i hi j hj⟩
  buf := hbuf ▸ h.buf

theorem logPrefix_undisturbed (hu : Undisturbed f m) (hapart : BuffersApart f) (ht : FourDigits time) (hfuel : 9 < fuel) :
    ∃ m₁, logPrefix { f with mem := m, timerElapsedUs := time } fuel = some m₁ ∧ Undisturbed f m₁ := by
  have hstart : Mapped m (f.timestampBuf - 16 + BitVec.ofNat 64 (timestampStart time)) (26 - timestampStart time) := by
    rw [ht.start, show f.timestampBuf - 16 + BitVec.ofNat 64 16 = f.timestampBuf by bv_omega]
    exact hu.timestampBuf.mono (by decide)
  obtain ⟨f', hf'⟩ : ∃ f' : Formatter, f' = { f with mem := m, timerElapsedUs := time } := ⟨_, rfl⟩
  obtain ⟨m₁, hrun, -, -, hframe, hmapped⟩ : ∃ m₁, logPrefix f' fuel = some m₁ ∧ _ ∧ _ ∧ _ ∧ _ :=
    logPrefix_mapped (by rw [hf']; exact hu.buf) (by rw [hf']; exact fun i hi j hj => hapart i hi j (by omega))
      (by rw [hf']; exact hstart) hfuel
  rw [hf'] at hrun hframe hmapped
  refine ⟨m₁, hrun, fun x hbuf htimestamp => ?_, fun i hi => hmapped _ (hu.buf i hi), fun i hi => hmapped _ (hu.timestampBuf i hi)⟩
  refine (hframe x (fun i hi hle he => htimestamp (i - 16) (by omega) (he.trans ?_)) fun i hi => hbuf i (by omega)).trans
    (hu.other x hbuf htimestamp)
  rw [ht.start] at hle
  bv_omega

theorem Message.given_of (h : Message f fmt l args) (hu : Undisturbed f m) : Given f m 0 fmt l args :=
  h.given.congr (fun x hx => hu.other x (h.given.outside_of_named hx) (h.outside x hx)) hu.buf

theorem printfLog_returns (hu : Undisturbed f m) (hapart : BuffersApart f) (ht : FourDigits time) (h : Message f fmt l args)
    (hfuel : l.length + 65 ≤ fuel) : ∃ m', printfLog f m time fmt fuel = some m' ∧ Undisturbed f m' := by
  obtain ⟨m₁, hlog, hu₁⟩ := logPrefix_undisturbed hu hapart ht (show 9 < fuel by omega)
  obtain ⟨f', hf'⟩ : ∃ f' : Formatter, f' = { f with mem := m, timerElapsedUs := time } := ⟨_, rfl⟩
  have hgiven : Given f' m₁ 0 fmt l args := (h.given_of hu₁).of (by rw [hf']) (by rw [hf'])
  obtain ⟨m', hrun, honly⟩ := printfRun_eq_format hgiven hfuel
  have hsame := printfRun_sameMap hrun
  have hbuf : f'.buf = f.buf := by rw [hf']
  rw [hf'] at hrun
  refine ⟨m', ?_, fun x hx hx' => ?_, fun i hi => ?_, fun i hi => ?_⟩
  · rw [printfLog]
    simp only [hlog, Option.bind_eq_bind, Option.bind_some, hrun]
    rfl
  · exact (honly x (by rw [hbuf]; exact hx)).trans (hu₁.other x hx hx')
  · exact (hsame _).trans (hu₁.buf i hi)
  · exact (hsame _).trans (hu₁.timestampBuf i hi)

-- ---------------------------------------------------------------------------
-- What a message that was sent found mapped
-- ---------------------------------------------------------------------------

theorem printfLog_fourDigits (h : printfLog f m time fmt fuel = some m')
    (hgap : ∀ i < 16, m (f.timestampBuf - 16 + BitVec.ofNat 64 i) = none) : FourDigits time := by
  obtain ⟨-, m₀, -, -, -, -, htime, -⟩ := printfLog_split h
  refine fourDigits_iff.mpr (Nat.le_of_not_lt fun hlong => ?_)
  rw [timerFormat_none hlong hgap] at htime
  cases htime

theorem logPrefix_add (h : logPrefix f fuel = some m) : ∀ n, logPrefix f (fuel + n) = some m
  | 0 => h
  | n + 1 => logPrefix_succ (logPrefix_add h n)

theorem strcpy_source (h : strcpy m dst src fuel = some m') : (m src).isSome := by
  cases fuel with
  | zero => cases h
  | succ fuel =>
    obtain ⟨c, hc, -⟩ := Option.bind_eq_some_iff.mp h
    rw [hc]
    rfl

/-- A copy stores a character behind those that are not NUL. -/
theorem strcpy_reach (h : strcpy m dst src fuel = some m') (hr : Reads m src l) (h0 : 0 ∉ l)
    (hapart : ∀ i < l.length, ∀ j < l.length, src + BitVec.ofNat 64 i ≠ dst + BitVec.ofNat 64 j) :
    (m (dst + BitVec.ofNat 64 l.length)).isSome := by
  induction l generalizing m dst src fuel with
  | nil =>
    cases fuel with
    | zero => cases h
    | succ fuel =>
      obtain ⟨c, -, h⟩ := Option.bind_eq_some_iff.mp h
      obtain ⟨m₁, hm₁, -⟩ := Option.bind_eq_some_iff.mp h
      have hfirst : ∃ m₂, storeAll m dst [c] = some m₂ := ⟨m₁, by rw [storeAll, hm₁]; rfl⟩
      obtain ⟨m₂, hm₂⟩ := hfirst
      rw [List.length_nil, BitVec.add_zero]
      exact (storeAll_some hm₂).2 c rfl
  | cons c l ih =>
    cases fuel with
    | zero => cases h
    | succ fuel =>
      obtain ⟨hc, htail⟩ := reads_cons.mp hr
      obtain ⟨hc0, h0⟩ : 0 ≠ c ∧ 0 ∉ l := by simpa using h0
      obtain ⟨c', hc', h⟩ := Option.bind_eq_some_iff.mp h
      obtain ⟨m₁, hm₁, h⟩ := Option.bind_eq_some_iff.mp h
      obtain rfl := Option.some.inj (hc.symm.trans hc')
      rw [if_neg (Ne.symm hc0)] at h
      have hsame := store_sameMap hm₁
      have htail₁ : Reads m₁ (src + 1) l := by
        unfold store at hm₁
        split at hm₁
        · rw [← Option.some.inj hm₁]
          refine htail.update fun i hi => ?_
          rw [add_one_add]
          have hne := hapart (i + 1) (Nat.succ_lt_succ hi) 0 (Nat.succ_pos _)
          rwa [show dst + BitVec.ofNat 64 0 = dst from BitVec.add_zero dst] at hne
        · cases hm₁
      have hreach := ih h htail₁ h0 fun i hi j hj => by
        rw [add_one_add, add_one_add]
        exact hapart (i + 1) (Nat.succ_lt_succ hi) (j + 1) (Nat.succ_lt_succ hj)
      rwa [hsame, add_one_add] at hreach

theorem printfRun_text {r : Sent} (hr : Reads m fmt l) (hplain : ∀ c ∈ l, c ≠ 0 ∧ c ≠ chr '%')
    (h : printfRun f m k fmt fuel = some r) :
    ∃ fuel' r', printfRun f m k (fmt + BitVec.ofNat 64 l.length) fuel' = some r' := by
  induction l generalizing fmt fuel r with
  | nil => exact ⟨fuel, r, by rwa [List.length_nil, show fmt + BitVec.ofNat 64 0 = fmt from BitVec.add_zero fmt]⟩
  | cons c l ih =>
    obtain ⟨hc, htail⟩ := reads_cons.mp hr
    obtain ⟨h0, hpercent⟩ := hplain c List.mem_cons_self
    cases fuel with
    | zero => cases h
    | succ fuel =>
      rw [printfRun, hc] at h
      simp only [Option.bind_eq_bind, Option.bind_some, if_neg h0, if_neg hpercent] at h
      obtain ⟨rest, hrest, -⟩ := Option.bind_eq_some_iff.mp h
      obtain ⟨fuel', r', hrun⟩ := ih htail (fun c hc => hplain c (List.mem_cons_of_mem _ hc)) hrest
      exact ⟨fuel', r', by rwa [add_one_add] at hrun⟩

theorem printfRun_string {r : Sent} (hpercent : m fmt = some (chr '%')) (hs : m (fmt + 1) = some (chr 's'))
    (h : printfRun f m k fmt fuel = some r) : ∃ fuel' m', strcpy m f.buf (f.varargs k) fuel' = some m' := by
  cases fuel with
  | zero => cases h
  | succ fuel =>
    rw [printfRun, hpercent, hs] at h
    simp only [Option.bind_eq_bind, Option.bind_some, show chr '%' ≠ 0 by decide, if_false, if_true] at h
    obtain ⟨⟨m₁, k'⟩, hconv, -⟩ := Option.bind_eq_some_iff.mp h
    obtain ⟨m', hcopy, -⟩ := Option.map_eq_some_iff.mp (show (strcpy m f.buf (f.varargs k) fuel).map (·, k + 1) = _ from hconv)
    exact ⟨fuel, m', hcopy⟩

theorem printfLog_prefix (h : printfLog f m time fmt fuel = some m') (hu : Undisturbed f m) (hapart : BuffersApart f)
    (hgap : ∀ i < 16, m (f.timestampBuf - 16 + BitVec.ofNat 64 i) = none) :
    ∃ (f' : Formatter) (m₁ : VMem) (sent : Sent), f'.buf = f.buf ∧ f'.varargs = f.varargs ∧ Undisturbed f m₁ ∧
      printfRun f' m₁ 0 fmt fuel = some sent := by
  obtain ⟨m₁, hlog, hrun⟩ := Option.bind_eq_some_iff.mp h
  obtain ⟨sent, hsent, -⟩ := Option.bind_eq_some_iff.mp hrun
  obtain ⟨m₂, hlog', hu'⟩ := logPrefix_undisturbed hu hapart (printfLog_fourDigits h hgap) (show 9 < fuel + 10 by omega)
  obtain rfl := Option.some.inj ((logPrefix_add hlog 10).symm.trans hlog')
  exact ⟨{ f with mem := m, timerElapsedUs := time }, m₁, sent, rfl, rfl, hu', hsent⟩

end ShedOS.Libk
