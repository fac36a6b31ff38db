import ShedOS.Libk.Printf

/-!
# syscall_print

`syscall/print.c`: the user's pointer is the format string of `printf`. What
the terminal shows is compared between two states that agree on what the task
can read.
-/

namespace ShedOS.Syscall

open Libk Memory

/-- The characters after the log prefix. -/
def syscallPrint (f : Formatter) (rdi : U64) (fuel : Nat) : List Chr := printf f rdi fuel

/-- What the page tables of a task map with `PAGING_USER`, and its bytes. -/
structure UserView where
  user : U64 → Bool
  mem : U64 → Chr

def Prints (f : Formatter) (rdi : U64) (i : Nat) (c : Chr) : Prop := ∃ fuel, (syscallPrint f rdi fuel)[i]? = some c

structure Buffers (u : UserView) (buf timestampBuf : U64) : Prop where
  bufKernel : ∀ i < 64, u.user (buf + BitVec.ofNat 64 i) = false
  timestampKernel : ∀ i < 32, u.user (timestampBuf - 16 + BitVec.ofNat 64 i) = false
  apart : Apart timestampBuf buf 16

/-- A state in which the task has this view. -/
structure Agrees (u : UserView) (buf timestampBuf : U64) (f : Formatter) : Prop where
  buf : f.buf = buf
  timestampBuf : f.timestampBuf = timestampBuf
  ready : f.Ready
  mem : ∀ x, u.user x → f.mem x = some (u.mem x)

/-- All states with this view print the same. -/
def Confined (u : UserView) (buf timestampBuf rdi : U64) : Prop :=
  ∀ f f', Agrees u buf timestampBuf f → Agrees u buf timestampBuf f' → ∀ i c, Prints f rdi i c ↔ Prints f' rdi i c

def PlainText (u : UserView) (rdi : U64) : Prop :=
  ∃ n, (∀ i ≤ n, u.user (rdi + BitVec.ofNat 64 i)) ∧
    (∀ i < n, u.mem (rdi + BitVec.ofNat 64 i) ≠ 0 ∧ u.mem (rdi + BitVec.ofNat 64 i) ≠ chr '%') ∧
    u.mem (rdi + BitVec.ofNat 64 n) = 0

variable {u : UserView} {buf timestampBuf rdi : U64} {f f' : Formatter} {m m' : VMem} {k fuel i n o : Nat} {c c' : Chr}
  {l w out : List Chr}

-- ---------------------------------------------------------------------------
-- The loop on a text
-- ---------------------------------------------------------------------------

theorem printfLoop_text (h : Reads m rdi l) (hplain : ∀ c ∈ l, c ≠ 0 ∧ c ≠ chr '%') :
    printfLoop f m k rdi (l.length + fuel) = l ++ printfLoop f m k (rdi + BitVec.ofNat 64 l.length) fuel := by
  induction l generalizing rdi with
  | nil => simp
  | cons c l ih =>
    obtain ⟨hc, htail⟩ := reads_cons.mp h
    obtain ⟨h0, hpercent⟩ := hplain c List.mem_cons_self
    have ih := ih htail fun c hc => hplain c (List.mem_cons_of_mem _ hc)
    rw [List.length_cons, Nat.add_right_comm, printfLoop, hc]
    simp only [if_neg h0, if_neg hpercent]
    rw [ih, add_one_add]
    rfl

theorem printfLoop_end (h : m rdi = some 0) : printfLoop f m k rdi fuel = [] := by
  cases fuel with
  | zero => rfl
  | succ fuel =>
    rw [printfLoop, h]
    rfl

theorem printfLoop_percent (hpercent : m rdi = some (chr '%')) (hfmtc : m (rdi + 1) = some c)
    (hconv : convert f m k c fuel = some (m', i)) (hout : Reads m' f.buf (out ++ [0])) (h0 : 0 ∉ out)
    (hfuel : out.length < fuel) : out <+: printfLoop f m k rdi (fuel + 1) := by
  rw [printfLoop, hpercent]
  simp only [show chr '%' ≠ 0 by decide, if_false, if_true, hfmtc, Option.bind_some, hconv, puts_eq hout h0 hfuel]
  split
  · exact List.prefix_rfl
  · exact List.prefix_append _ _

-- ---------------------------------------------------------------------------
-- A task's own text
-- ---------------------------------------------------------------------------

def UserView.text (u : UserView) (a : U64) (n : Nat) : List Chr := (List.range n).map fun i => u.mem (a + BitVec.ofNat 64 i)

theorem text_length : (u.text rdi n).length = n := by
  simp [UserView.text]

theorem reads_text (hm : ∀ x, u.user x → m x = some (u.mem x)) (h : ∀ i < n, u.user (rdi + BitVec.ofNat 64 i)) :
    Reads m rdi (u.text rdi n) := fun i hi => by
  rw [text_length] at hi
  rw [hm _ (h i hi), UserView.text, List.getElem?_map, List.getElem?_range hi]
  rfl

theorem logPrefix_user (hb : Buffers u buf timestampBuf) (hf : Agrees u buf timestampBuf f)
    (hlog : logPrefix f fuel = some m) (hfuel : 9 < fuel) (x : U64) (hx : u.user x) : m x = some (u.mem x) := by
  obtain ⟨m', hlog', -, -, hframe, -⟩ := logPrefix_eq hf.ready hfuel
  obtain rfl := Option.some.inj (hlog.symm.trans hlog')
  rw [hframe x ?_ ?_, hf.mem x hx]
  · rintro i hi - rfl
    rw [hf.timestampBuf, hb.timestampKernel i (by omega)] at hx
    cases hx
  · rintro i hi rfl
    rw [hf.buf, hb.bufKernel i (by omega)] at hx
    cases hx

theorem printfLoop_user (hm : ∀ x, u.user x → m x = some (u.mem x)) (huser : ∀ i < n, u.user (rdi + BitVec.ofNat 64 i))
    (hplain : ∀ i < n, u.mem (rdi + BitVec.ofNat 64 i) ≠ 0 ∧ u.mem (rdi + BitVec.ofNat 64 i) ≠ chr '%') :
    printfLoop f m k rdi (n + fuel) = u.text rdi n ++ printfLoop f m k (rdi + BitVec.ofNat 64 n) fuel := by
  have h : printfLoop f m k rdi ((u.text rdi n).length + fuel) = _ := printfLoop_text (reads_text hm huser) fun c hc => by
    obtain ⟨i, hi, rfl⟩ := List.mem_map.mp hc
    exact hplain i (List.mem_range.mp hi)
  rwa [text_length] at h

theorem prints_unique (h : Prints f rdi i c) (h' : Prints f rdi i c') : c = c' := by
  obtain ⟨fuel, hc⟩ := h
  obtain ⟨fuel', hc'⟩ := h'
  rcases Nat.le_total fuel fuel' with hle | hle
  · exact Option.some.inj ((getElem?_of_extends (printf_mono hle) hc).symm.trans hc')
  · exact Option.some.inj (hc.symm.trans (getElem?_of_extends (printf_mono hle) hc'))

theorem prints_iff (h : ∀ fuel, n ≤ fuel → syscallPrint f rdi fuel = l) : Prints f rdi i c ↔ l[i]? = some c := by
  constructor
  · rintro ⟨fuel, hc⟩
    rw [← h (max n fuel) (Nat.le_max_left _ _)]
    exact getElem?_of_extends (printf_mono (Nat.le_max_right _ _)) hc
  · intro hc
    exact ⟨n, by rw [h n (Nat.le_refl n), hc]⟩

theorem confined_of (h : ∀ f, Agrees u buf timestampBuf f → ∀ fuel, n ≤ fuel → syscallPrint f rdi fuel = l) :
    Confined u buf timestampBuf rdi := fun f f' hf hf' _ _ => (prints_iff (h f hf)).trans (prints_iff (h f' hf')).symm

theorem syscallPrint_plainText (hb : Buffers u buf timestampBuf) (hf : Agrees u buf timestampBuf f)
    (huser : ∀ i ≤ n, u.user (rdi + BitVec.ofNat 64 i))
    (hplain : ∀ i < n, u.mem (rdi + BitVec.ofNat 64 i) ≠ 0 ∧ u.mem (rdi + BitVec.ofNat 64 i) ≠ chr '%')
    (h0 : u.mem (rdi + BitVec.ofNat 64 n) = 0) (hfuel : n + 10 ≤ fuel) : syscallPrint f rdi fuel = u.text rdi n := by
  obtain ⟨m, hlog, -⟩ := logPrefix_eq hf.ready (show 9 < fuel by omega)
  have hm := logPrefix_user hb hf hlog (by omega)
  obtain ⟨fuel, rfl⟩ : ∃ fuel', fuel = n + fuel' := ⟨fuel - n, by omega⟩
  rw [syscallPrint, printf, hlog]
  simp only
  rw [printfLoop_user hm (fun i hi => huser i (Nat.le_of_lt hi)) hplain, printfLoop_end, List.append_nil]
  rw [hm _ (huser n (Nat.le_refl n)), h0]

theorem syscallPrint_end (hf : Agrees u buf timestampBuf f)
    (hrdi : rdi = buf + BitVec.ofNat 64 9 ∨ rdi = timestampBuf + BitVec.ofNat 64 9) (hfuel : 10 ≤ fuel) :
    syscallPrint f rdi fuel = [] := by
  obtain ⟨m, hlog, htime, hbuf, -⟩ := logPrefix_eq hf.ready hfuel
  have hend : (timestamp f.timerElapsedUs ++ [0])[9]? = some 0 := by
    rw [List.getElem?_append_right (by rw [timestamp_length]), timestamp_length]
    rfl
  have hlen : 9 < (timestamp f.timerElapsedUs ++ [0]).length := (List.getElem?_eq_some_iff.mp hend).1
  rw [syscallPrint, printf, hlog]
  refine printfLoop_end ?_
  rcases hrdi with rfl | rfl
  · rw [← hf.buf, hbuf 9 hlen, hend]
  · rw [← hf.timestampBuf, htime 9 hlen, hend]

-- ---------------------------------------------------------------------------
-- What other pointers show
-- ---------------------------------------------------------------------------

/-- A state with this view: all kernel memory holds `fill`, every word that
`va_arg` finds is `v`. -/
def kernelState (u : UserView) (buf timestampBuf : U64) (fill : Chr) (v t : U64) : Formatter :=
  ⟨fun x => some (if u.user x then u.mem x else fill), buf, timestampBuf, fun _ => v, t⟩

variable {fill : Chr} {v t : U64}

@[simp] theorem kernelState_mem {x : U64} :
    (kernelState u buf timestampBuf fill v t).mem x = some (if u.user x then u.mem x else fill) := rfl

@[simp] theorem kernelState_timerElapsedUs : (kernelState u buf timestampBuf fill v t).timerElapsedUs = t := rfl

@[simp] theorem kernelState_timestampBuf :
    (kernelState u buf timestampBuf fill v t).timestampBuf = timestampBuf := rfl

theorem kernelState_agrees (hb : Buffers u buf timestampBuf) :
    Agrees u buf timestampBuf (kernelState u buf timestampBuf fill v t) := by
  refine ⟨rfl, rfl, ⟨fun i _ => rfl, fun i _ => rfl, hb.apart⟩, fun x hx => ?_⟩
  rw [kernelState_mem, if_pos hx]

theorem kernelState_logPrefix (hb : Buffers u buf timestampBuf) (fill : Chr) (ht : timestampStart t = 16)
    (hfuel : 9 < fuel) :
    ∃ m, logPrefix (kernelState u buf timestampBuf fill v t) fuel = some m ∧
      Reads m timestampBuf (timestamp t ++ [0]) ∧ Reads m buf (timestamp t ++ [0]) ∧
      (∀ x, u.user x → m x = some (u.mem x)) ∧ (∀ x, (m x).isSome) ∧
      ∀ x, u.user x = false → (∀ i < 10, x ≠ timestampBuf + BitVec.ofNat 64 i ∧ x ≠ buf + BitVec.ofNat 64 i) →
        m x = some fill := by
  have hf : Agrees u buf timestampBuf (kernelState u buf timestampBuf fill v t) := kernelState_agrees hb
  obtain ⟨m, hlog, htime, hbuf, hframe, hmapped⟩ := logPrefix_eq hf.ready hfuel
  refine ⟨m, hlog, htime, hbuf, logPrefix_user hb hf hlog hfuel, fun x => hmapped x rfl, fun x hx hout => ?_⟩
  rw [hframe x ?_ fun i hi => (hout i hi).2, kernelState_mem, if_neg (by simp [hx])]
  rintro i hi h16 rfl
  rw [kernelState_timerElapsedUs, ht] at h16
  refine (hout (i - 16) (by omega)).1 ?_
  rw [kernelState_timestampBuf]
  bv_omega

theorem not_confined (hb : Buffers u buf timestampBuf) {fill fill' d : Chr} {v v' t t' : U64} {w w' : List Chr}
    (h : ∃ m, logPrefix (kernelState u buf timestampBuf fill v t) fuel = some m ∧
      w <+: printfLoop (kernelState u buf timestampBuf fill v t) m 0 rdi fuel)
    (h' : ∃ m, logPrefix (kernelState u buf timestampBuf fill' v' t') fuel = some m ∧
      w' <+: printfLoop (kernelState u buf timestampBuf fill' v' t') m 0 rdi fuel)
    (hc : w[i]? = some c) (hd : w'[i]? = some d) (hne : c ≠ d) : ¬Confined u buf timestampBuf rdi := by
  have hprints : ∀ {fill v t w c}, (∃ m, logPrefix (kernelState u buf timestampBuf fill v t) fuel = some m ∧
      w <+: printfLoop (kernelState u buf timestampBuf fill v t) m 0 rdi fuel) → w[i]? = some c →
      Prints (kernelState u buf timestampBuf fill v t) rdi i c := by
    rintro fill v t w c ⟨m, hlog, hw⟩ hc
    refine ⟨fuel, ?_⟩
    rw [syscallPrint, printf, hlog]
    exact getElem?_of_extends hw hc
  intro hconf
  refine hne (prints_unique (hprints h hc) ?_)
  exact (hconf _ _ (kernelState_agrees hb) (kernelState_agrees hb) i d).mpr (hprints h' hd)

theorem timestamp_zero : timestamp 0 = "   0.0000".toList.map chr := by decide

theorem timestamp_hundred : timestamp 100 = "   0.0001".toList.map chr := by decide

/-- The first `n` characters are the task's own, with no conversion and no NUL
among them. -/
structure Reaches (u : UserView) (rdi : U64) (n : Nat) : Prop where
  user : ∀ i < n, u.user (rdi + BitVec.ofNat 64 i)
  plain : ∀ i < n, u.mem (rdi + BitVec.ofNat 64 i) ≠ 0 ∧ u.mem (rdi + BitVec.ofNat 64 i) ≠ chr '%'

theorem getElem?_text_append (hc : w[i]? = some c) : (u.text rdi n ++ w)[n + i]? = some c := by
  rw [List.getElem?_append_right (by rw [text_length]; omega), text_length, Nat.add_sub_cancel_left, hc]

theorem leak_timestamp (hb : Buffers u buf timestampBuf) (hr : Reaches u rdi n) (ho : o < 9) {a : U64}
    (ha : a = buf ∨ a = timestampBuf) (hx : rdi + BitVec.ofNat 64 n = a + BitVec.ofNat 64 o) :
    ¬Confined u buf timestampBuf rdi := by
  have hrun : ∀ {t}, timestampStart t = 16 → (∀ c ∈ timestamp t, c ≠ chr '%') →
      ∃ m, logPrefix (kernelState u buf timestampBuf 0 0 t) (n + (9 - o + 10)) = some m ∧
        u.text rdi n ++ (timestamp t).drop o <+:
          printfLoop (kernelState u buf timestampBuf 0 0 t) m 0 rdi (n + (9 - o + 10)) := by
    intro t ht hplain
    have hfuel : 9 < n + (9 - o + 10) := by omega
    obtain ⟨m, hlog, htime, hbuf, hm, -⟩ := kernelState_logPrefix hb 0 ht hfuel
    refine ⟨m, hlog, ?_⟩
    have hreads : Reads m a (timestamp t) := by
      rcases ha with rfl | rfl
      · exact hbuf.left
      · exact htime.left
    have hlen : ((timestamp t).drop o).length = 9 - o := by rw [List.length_drop, timestamp_length]
    rw [printfLoop_user hm hr.user hr.plain, hx, ← hlen, printfLoop_text hreads.drop fun c hc => ?_]
    · exact (List.prefix_append_right_inj _).mpr (List.prefix_append _ _)
    · have hc := List.mem_of_mem_drop hc
      exact ⟨fun h0 => timestamp_nonzero (h0 ▸ hc), hplain c hc⟩
  refine not_confined hb (hrun (t := 0) (by decide) (by decide)) (hrun (t := 100) (by decide) (by decide))
    (i := n + (8 - o)) (c := chr '0') (d := chr '1') (getElem?_text_append ?_) (getElem?_text_append ?_) (by decide)
  · rw [List.getElem?_drop, show o + (8 - o) = 8 by omega]
    decide
  · rw [List.getElem?_drop, show o + (8 - o) = 8 by omega]
    decide

theorem leak_kernel (hb : Buffers u buf timestampBuf) (hr : Reaches u rdi n)
    (huser : u.user (rdi + BitVec.ofNat 64 n) = false)
    (hout : ∀ i < 10, rdi + BitVec.ofNat 64 n ≠ timestampBuf + BitVec.ofNat 64 i ∧
      rdi + BitVec.ofNat 64 n ≠ buf + BitVec.ofNat 64 i) : ¬Confined u buf timestampBuf rdi := by
  have hrun : ∀ fill, fill ≠ 0 → fill ≠ chr '%' →
      ∃ m, logPrefix (kernelState u buf timestampBuf fill 0 0) (n + (1 + 10)) = some m ∧
        u.text rdi n ++ [fill] <+: printfLoop (kernelState u buf timestampBuf fill 0 0) m 0 rdi (n + (1 + 10)) := by
    intro fill h0 hpercent
    have hfuel : 9 < n + (1 + 10) := by omega
    obtain ⟨m, hlog, -, -, hm, -, hkernel⟩ := kernelState_logPrefix hb fill (t := 0) (by decide) hfuel
    refine ⟨m, hlog, ?_⟩
    have hreads : Reads m (rdi + BitVec.ofNat 64 n) [fill] := reads_cons.mpr ⟨hkernel _ huser hout, fun i hi => by cases hi⟩
    rw [printfLoop_user hm hr.user hr.plain]
    refine (List.prefix_append_right_inj _).mpr ?_
    rw [show 1 = [fill].length by rfl, printfLoop_text hreads fun c hc => ?_]
    · exact List.prefix_append _ _
    · rw [List.mem_singleton.mp hc]
      exact ⟨h0, hpercent⟩
  exact not_confined hb (hrun (chr 'A') (by decide) (by decide)) (hrun (chr 'B') (by decide) (by decide))
    (i := n + 0) (getElem?_text_append rfl) (getElem?_text_append rfl) (by decide)

def shown (fmtc : Chr) (v : U64) : Option (List Chr) :=
  match fmtc with
  | 0x61#8 => some (utos v 16 16)
  | 0x64#8 => some (utos (ofInt v) 10 0)
  | 0x62#8 => some (utos (ofInt v) 2 0)
  | 0x78#8 => some (utos v 16 0)
  | 0x63#8 => some [v.setWidth 8]
  | _ => none

theorem convert_shown {fmtc : Chr} (h : shown fmtc (f.varargs k) = some w) :
    convert f m k fmtc fuel = (storeAll m f.buf (w ++ [0])).map (·, k + 1) := by
  unfold shown at h
  split at h
  case h_6 => cases h
  all_goals
    cases h
    rfl

theorem convert_other {fmtc : Chr} (h : shown fmtc v = none) (hs : fmtc ≠ 0x73) (hwide : fmtc ≠ 0x53) :
    convert f m k fmtc fuel = some (m, k) := by
  unfold convert
  simp only
  split
  case h_6 => exact absurd rfl hs
  case h_7 => exact absurd rfl hwide
  case h_8 => rfl
  all_goals cases h

theorem shown_differs {fmtc : Chr} (h : (shown fmtc 0).isSome) : ∃ (w w' : List Chr) (i : Nat) (c c' : Chr),
    shown fmtc 0x41 = some w ∧ shown fmtc 0x42 = some w' ∧ 0 ∉ w ∧ 0 ∉ w' ∧ w.length < 60 ∧ w'.length < 60 ∧
      w[i]? = some c ∧ w'[i]? = some c' ∧ c ≠ c' := by
  unfold shown at h
  split at h
  · exact ⟨_, _, 17, _, _, rfl, rfl, by decide, by decide, by decide, by decide, rfl, rfl, by decide⟩
  · exact ⟨_, _, 1, _, _, rfl, rfl, by decide, by decide, by decide, by decide, rfl, rfl, by decide⟩
  · exact ⟨_, _, 5, _, _, rfl, rfl, by decide, by decide, by decide, by decide, rfl, rfl, by decide⟩
  · exact ⟨_, _, 3, _, _, rfl, rfl, by decide, by decide, by decide, by decide, rfl, rfl, by decide⟩
  · exact ⟨_, _, 0, _, _, rfl, rfl, by decide, by decide, by decide, by decide, rfl, rfl, by decide⟩
  · cases h

def fmtcAt (u : UserView) (buf timestampBuf x : U64) : Chr :=
  if u.user x then u.mem x else if x = buf ∨ x = timestampBuf then chr ' ' else 0

theorem percent_run (hb : Buffers u buf timestampBuf) (hr : Reaches u rdi n)
    (huser : u.user (rdi + BitVec.ofNat 64 n)) (hpercent : u.mem (rdi + BitVec.ofNat 64 n) = chr '%')
    (ht : timestampStart t = 16) (hspace : (timestamp t)[0]? = some (chr ' ')) (hw : 0 ∉ w) (hlen : w.length < 60)
    (hconv : ∀ m, Reads m timestampBuf (timestamp t ++ [0]) → Reads m buf (timestamp t ++ [0]) → (∀ x, (m x).isSome) →
      (∀ x, u.user x = false → (∀ i < 10, x ≠ timestampBuf + BitVec.ofNat 64 i ∧ x ≠ buf + BitVec.ofNat 64 i) →
        m x = some 0) →
      ∃ m' k, convert (kernelState u buf timestampBuf 0 v t) m 0
        (fmtcAt u buf timestampBuf (rdi + BitVec.ofNat 64 n + 1)) 60 = some (m', k) ∧ Reads m' buf (w ++ [0])) :
    ∃ m, logPrefix (kernelState u buf timestampBuf 0 v t) (n + 61) = some m ∧
      u.text rdi n ++ w <+: printfLoop (kernelState u buf timestampBuf 0 v t) m 0 rdi (n + 61) := by
  have hfuel : 9 < n + 61 := by omega
  obtain ⟨m, hlog, htime, hbuf, hm, hmapped, hkernel⟩ := kernelState_logPrefix hb 0 (v := v) ht hfuel
  obtain ⟨m', k, hrun, hout⟩ := hconv m htime hbuf hmapped hkernel
  obtain ⟨x, hx⟩ : ∃ x, x = rdi + BitVec.ofNat 64 n := ⟨_, rfl⟩
  rw [← hx] at huser hpercent hrun
  have hlen0 : 0 < (timestamp t).length := by
    rw [timestamp_length]
    decide
  have hfirst : (timestamp t ++ [0])[0]? = some (chr ' ') := by rw [List.getElem?_append_left hlen0, hspace]
  have hlen1 : 0 < (timestamp t ++ [0]).length := (List.getElem?_eq_some_iff.mp hfirst).1
  have hfmtc : m (x + 1) = some (fmtcAt u buf timestampBuf (x + 1)) := by
    unfold fmtcAt
    split
    next h1 => exact hm _ h1
    next h1 =>
      have h1 := Bool.eq_false_iff.mpr h1
      split
      next hx1 =>
        rcases hx1 with hx1 | hx1
        · rw [hx1, ← hfirst, ← hbuf 0 hlen1, BitVec.add_zero]
        · rw [hx1, ← hfirst, ← htime 0 hlen1, BitVec.add_zero]
      next hx1 =>
        -- A place further in would have a `%` of the kernel's before it.
        refine hkernel _ h1 fun i hi => ⟨fun e => ?_, fun e => ?_⟩
        · cases i with
          | zero => exact hx1 (.inr (by rwa [BitVec.add_zero] at e))
          | succ i =>
            have hxi : x = timestampBuf - 16 + BitVec.ofNat 64 (16 + i) := by bv_omega
            rw [hxi, hb.timestampKernel _ (by omega)] at huser
            cases huser
        · cases i with
          | zero => exact hx1 (.inl (by rwa [BitVec.add_zero] at e))
          | succ i =>
            have hxi : x = buf + BitVec.ofNat 64 i := by bv_omega
            rw [hxi, hb.bufKernel _ (by omega)] at huser
            cases huser
  refine ⟨m, hlog, ?_⟩
  rw [printfLoop_user hm hr.user hr.plain, ← hx]
  refine (List.prefix_append_right_inj _).mpr ?_
  exact printfLoop_percent (by rw [hm x huser, hpercent]) hfmtc hrun hout hw hlen

/-- `%S` of the timestamp: the low byte of every second character. -/
theorem wide_timestamp {d : Chr} (hb : Buffers u buf timestampBuf) (ht : timestamp t = "   0.000".toList.map chr ++ [d])
    (hd : d ≠ 0) (htime : Reads m timestampBuf (timestamp t ++ [0])) (hm : ∀ x, (m x).isSome)
    (hkernel : ∀ x, u.user x = false → (∀ i < 10, x ≠ timestampBuf + BitVec.ofNat 64 i ∧ x ≠ buf + BitVec.ofNat 64 i) →
      m x = some 0) :
    ∃ m' k, convert (kernelState u buf timestampBuf 0 timestampBuf t) m 0 0x53 60 = some (m', k) ∧
      Reads m' buf ("  .0".toList.map chr ++ [d] ++ [0]) := by
  have hreads : Reads m timestampBuf
      (wide [(chr ' ', chr ' '), (chr ' ', chr '0'), (chr '.', chr '0'), (chr '0', chr '0'), (d, 0)]) := by
    intro i hi
    replace hi : i < 12 := hi
    by_cases h10 : i < 10
    · rw [htime i (by rwa [List.length_append, timestamp_length]), ht]
      interval_cases i <;> rfl
    · rw [hkernel]
      · interval_cases i <;> rfl
      · rw [show timestampBuf + BitVec.ofNat 64 i = timestampBuf - 16 + BitVec.ofNat 64 (16 + i) by bv_omega]
        exact hb.timestampKernel _ (by omega)
      · refine fun j hj => ⟨fun e => ?_, hb.apart i (by omega) j (by omega)⟩
        bv_omega
  have hpairs : (0, 0) ∉ [(chr ' ', chr ' '), (chr ' ', chr '0'), (chr '.', chr '0'), (chr '0', chr '0'), (d, 0)] := by
    have hd : (0, 0) ≠ (d, (0 : Chr)) := fun e => hd (Prod.ext_iff.mp e).1.symm
    simp only [List.mem_cons, List.not_mem_nil, or_false, not_or]
    exact ⟨by decide, by decide, by decide, by decide, hd⟩
  have hcopy : copyWide m buf timestampBuf 60 = some (poke m buf ("  .0".toList.map chr ++ [d] ++ [0])) :=
    copyWide_eq hreads hpairs (by simp) (fun i _ => hm _)
      (fun i hi j hj => hb.apart i (by simp [wide] at hi; omega) j (by simp at hj; omega)) (by simp)
  refine ⟨_, 1, ?_, reads_poke (m := m) (by simp)⟩
  change (copyWide m buf timestampBuf 60).map (·, 1) = _
  rw [hcopy]
  rfl

theorem leak_percent (hb : Buffers u buf timestampBuf) (hr : Reaches u rdi n)
    (huser : u.user (rdi + BitVec.ofNat 64 n)) (hpercent : u.mem (rdi + BitVec.ofNat 64 n) = chr '%') :
    ¬Confined u buf timestampBuf rdi := by
  have hrun := fun {w v t} => percent_run (w := w) (v := v) (t := t) hb hr huser hpercent
  have htime : ∀ {t}, (timestamp t ++ [0]).length = 10 := by
    intro t
    rw [List.length_append, timestamp_length]
    rfl
  obtain ⟨fmtc, hfmtc⟩ : ∃ c, c = fmtcAt u buf timestampBuf (rdi + BitVec.ofNat 64 n + 1) := ⟨_, rfl⟩
  rw [← hfmtc] at hrun
  by_cases hshown : (shown fmtc 0).isSome
  · -- A number or a character: the words that `va_arg` finds.
    obtain ⟨w, w', i, c, c', hw, hw', h0, h0', hlen, hlen', hc, hc', hne⟩ := shown_differs hshown
    have hconv : ∀ {v w}, shown fmtc v = some w → w.length < 60 → ∀ m : VMem, (∀ x, (m x).isSome) →
        ∃ m' k, convert (kernelState u buf timestampBuf 0 v 0) m 0 fmtc 60 = some (m', k) ∧ Reads m' buf (w ++ [0]) := by
      intro v w hw hlen m hm
      have hlen : (w ++ [0]).length < 2 ^ 63 := by
        rw [List.length_append]
        exact Nat.lt_of_lt_of_le (Nat.add_lt_add_right hlen 1) (by decide)
      refine ⟨poke m buf (w ++ [0]), 1, ?_, reads_poke (by omega)⟩
      rw [convert_shown hw]
      exact congrArg _ (storeAll_eq hlen fun i _ => hm _)
    exact not_confined hb
      (hrun (by decide) (by decide) h0 hlen fun m _ _ hm _ => hconv hw hlen m hm)
      (hrun (by decide) (by decide) h0' hlen' fun m _ _ hm _ => hconv hw' hlen' m hm)
      (getElem?_text_append hc) (getElem?_text_append hc') hne
  have hnone : ∀ v, shown fmtc v = none := by
    intro v
    unfold shown at hshown ⊢
    split at hshown
    case h_6 => simp_all
    all_goals exact absurd rfl hshown
  have hdiffer : ∀ {v}, (∀ {t}, ∀ m, Reads m timestampBuf (timestamp t ++ [0]) → Reads m buf (timestamp t ++ [0]) →
        (∀ x, (m x).isSome) → ∃ m' k, convert (kernelState u buf timestampBuf 0 v t) m 0 fmtc 60 = some (m', k) ∧
          Reads m' buf (timestamp t ++ [0])) → ¬Confined u buf timestampBuf rdi := by
    intro v hconv
    refine not_confined hb
      (hrun (w := timestamp 0) (v := v) (t := 0) (by decide) (by decide) timestamp_nonzero (by rw [timestamp_length]; decide)
        fun m ht hbuf hm _ => hconv m ht hbuf hm)
      (hrun (w := timestamp 100) (v := v) (t := 100) (by decide) (by decide) timestamp_nonzero
        (by rw [timestamp_length]; decide) fun m ht hbuf hm _ => hconv m ht hbuf hm)
      (i := n + 8) (c := chr '0') (d := chr '1') (getElem?_text_append (by decide)) (getElem?_text_append (by decide))
      (by decide)
  by_cases hs : fmtc = 0x73
  · -- A string: the argument may point to the timestamp.
    refine hdiffer (v := timestampBuf) fun {t} m ht hbuf hm => ⟨poke m buf (timestamp t ++ [0]), 1, ?_, reads_poke ?_⟩
    · have hcopy : strcpy m buf timestampBuf 60 = some (poke m buf (timestamp t ++ [0])) := by
        refine strcpy_eq ht timestamp_nonzero ?_ (fun i _ => hm _) ?_ ?_ <;> rw [timestamp_length]
        · decide
        · exact hb.apart.mono (by decide)
        · decide
      rw [hs]
      change (strcpy m buf timestampBuf 60).map (·, 1) = _
      rw [hcopy]
      rfl
    · rw [htime]
      decide
  by_cases hwide : fmtc = 0x53
  · -- A wide string: the timestamp again, two characters as one.
    have hconv := fun {m t d} => wide_timestamp (m := m) (t := t) (d := d) hb
    rw [← hwide] at hconv
    exact not_confined hb
      (hrun (t := 0) (by decide) (by decide) (by decide) (by decide) fun _ ht _ hm hk =>
        hconv timestamp_zero (by decide) ht hm hk)
      (hrun (t := 100) (by decide) (by decide) (by decide) (by decide) fun _ ht _ hm hk =>
        hconv timestamp_hundred (by decide) ht hm hk)
      (i := n + 4) (c := chr '0') (d := chr '1') (getElem?_text_append (by decide)) (getElem?_text_append (by decide))
      (by decide)
  · -- No conversion: the buffer still holds the time.
    exact hdiffer (v := 0) fun {t} m _ hbuf _ => ⟨m, 0, convert_other (hnone 0) hs hwide, hbuf⟩

-- ---------------------------------------------------------------------------
-- When nothing leaks
-- ---------------------------------------------------------------------------

theorem exists_stop (hb : Buffers u buf timestampBuf) (rdi : U64) : ∃ n, Reaches u rdi n ∧
    (u.user (rdi + BitVec.ofNat 64 n) = false ∨ u.mem (rdi + BitVec.ofNat 64 n) = 0 ∨
      u.mem (rdi + BitVec.ofNat 64 n) = chr '%') := by
  classical
  have h : ∃ n, u.user (rdi + BitVec.ofNat 64 n) = false ∨ u.mem (rdi + BitVec.ofNat 64 n) = 0 ∨
      u.mem (rdi + BitVec.ofNat 64 n) = chr '%' := by
    refine ⟨(buf - rdi).toNat, .inl ?_⟩
    rw [BitVec.ofNat_toNat, BitVec.setWidth_eq, show rdi + (buf - rdi) = buf + BitVec.ofNat 64 0 by bv_omega]
    exact hb.bufKernel 0 (by decide)
  have hbefore : ∀ i < Nat.find h, u.user (rdi + BitVec.ofNat 64 i) ∧ u.mem (rdi + BitVec.ofNat 64 i) ≠ 0 ∧
      u.mem (rdi + BitVec.ofNat 64 i) ≠ chr '%' := fun i hi => by
    have hmin := Nat.find_min h hi
    rw [not_or, not_or, Bool.not_eq_false] at hmin
    exact hmin
  exact ⟨Nat.find h, ⟨fun i hi => (hbefore i hi).1, fun i hi => (hbefore i hi).2⟩, Nat.find_spec h⟩

/-- `syscall_print` shows the task's own text only, unless the pointer is to
the end of a string that the log prefix has just written. -/
theorem print_confined_iff (hb : Buffers u buf timestampBuf) : Confined u buf timestampBuf rdi ↔
    PlainText u rdi ∨ rdi = buf + BitVec.ofNat 64 9 ∨ rdi = timestampBuf + BitVec.ofNat 64 9 := by
  constructor
  · intro hconf
    obtain ⟨n, hr, hstop⟩ := exists_stop hb rdi
    by_cases huser : u.user (rdi + BitVec.ofNat 64 n)
    · rcases hstop with hstop | hstop | hstop
      · rw [huser] at hstop
        cases hstop
      · refine .inl ⟨n, fun i hi => ?_, hr.plain, hstop⟩
        rcases Nat.lt_or_eq_of_le hi with hi | rfl
        · exact hr.user i hi
        · exact huser
      · exact absurd hconf (leak_percent hb hr huser hstop)
    · have huser := Bool.eq_false_iff.mpr huser
      -- A buffer is entered at its first character, or `rdi` points into it.
      have hedge : ∀ {a : U64} {o : Nat}, (∀ i < 10, u.user (a + BitVec.ofNat 64 i) = false) → o < 10 →
          rdi + BitVec.ofNat 64 n = a + BitVec.ofNat 64 o → o = 0 ∨ rdi = a + BitVec.ofNat 64 o := by
        intro a o ha ho h
        cases n with
        | zero => exact .inr (by rwa [BitVec.add_zero] at h)
        | succ n =>
          cases o with
          | zero => exact .inl rfl
          | succ o =>
            have hprev : rdi + BitVec.ofNat 64 n = a + BitVec.ofNat 64 o := by bv_omega
            have hlast := hr.user n (Nat.lt_succ_self n)
            rw [hprev, ha o (by omega)] at hlast
            cases hlast
      by_cases hout : ∀ i < 10, rdi + BitVec.ofNat 64 n ≠ timestampBuf + BitVec.ofNat 64 i ∧
          rdi + BitVec.ofNat 64 n ≠ buf + BitVec.ofNat 64 i
      · exact absurd hconf (leak_kernel hb hr huser hout)
      have hin : ∃ a, (a = buf ∨ a = timestampBuf) ∧ ∃ o < 10, rdi + BitVec.ofNat 64 n = a + BitVec.ofNat 64 o := by
        by_contra hno
        exact hout fun i hi => ⟨fun e => hno ⟨_, .inr rfl, i, hi, e⟩, fun e => hno ⟨_, .inl rfl, i, hi, e⟩⟩
      obtain ⟨a, ha, o, ho, hx⟩ := hin
      by_cases ho9 : o < 9
      · exact absurd hconf (leak_timestamp hb hr ho9 ha hx)
      obtain rfl : o = 9 := by omega
      have hkernel : ∀ i < 10, u.user (a + BitVec.ofNat 64 i) = false := by
        rcases ha with rfl | rfl
        · exact fun i hi => hb.bufKernel i (by omega)
        · intro i hi
          rw [show a + BitVec.ofNat 64 i = a - 16 + BitVec.ofNat 64 (16 + i) by bv_omega]
          exact hb.timestampKernel _ (by omega)
      rcases hedge hkernel (by decide) hx with h | h
      · cases h
      · rcases ha with rfl | rfl
        · exact .inr (.inl h)
        · exact .inr (.inr h)
  · rintro (⟨n, huser, hplain, h0⟩ | hrdi)
    · exact confined_of fun f hf fuel hfuel => syscallPrint_plainText hb hf huser hplain h0 hfuel
    · exact confined_of fun f hf fuel hfuel => syscallPrint_end hf hrdi hfuel

def onePage (l : List Chr) : UserView :=
  ⟨fun x => decide (0x400000 ≤ x.toNat ∧ x.toNat < 0x401000), fun x => l.getD (x.toNat - 0x400000) 0⟩

theorem onePage_buffers : Buffers (onePage l) 0xffffffff80100000#64 0xffffffff80100040#64 := by
  refine ⟨fun i hi => decide_eq_false ?_, fun i hi => decide_eq_false ?_, fun i hi j hj => ?_⟩
  all_goals bv_omega

theorem print_confined_iff_onePage :
    Confined (onePage ("hi".toList.map chr)) 0xffffffff80100000#64 0xffffffff80100040#64 0x400000#64 :=
  (print_confined_iff onePage_buffers).mpr (.inl ⟨2, by decide, by decide, by decide⟩)

theorem print_leaks_kernel :
    ¬Confined (onePage []) 0xffffffff80100000#64 0xffffffff80100040#64 0xffffffff80200000#64 :=
  leak_kernel (n := 0) onePage_buffers ⟨fun i hi => absurd hi (Nat.not_lt_zero i), fun i hi => absurd hi (Nat.not_lt_zero i)⟩
    (by decide) (by decide)

-- ---------------------------------------------------------------------------
-- Verbatim
-- ---------------------------------------------------------------------------

structure UserString (u : UserView) (rdi : U64) (n : Nat) : Prop where
  user : ∀ i ≤ n, u.user (rdi + BitVec.ofNat 64 i)
  nonzero : ∀ i < n, u.mem (rdi + BitVec.ofNat 64 i) ≠ 0
  nul : u.mem (rdi + BitVec.ofNat 64 n) = 0

/-- In every state with this view, exactly the string's characters are sent. -/
def Verbatim (u : UserView) (buf timestampBuf rdi : U64) (n : Nat) : Prop :=
  ∀ f, Agrees u buf timestampBuf f → ∃ enough, ∀ fuel, enough ≤ fuel → syscallPrint f rdi fuel = u.text rdi n

theorem Verbatim.confined (h : Verbatim u buf timestampBuf rdi n) : Confined u buf timestampBuf rdi := by
  intro f f' hf hf' i c
  obtain ⟨enough, hout⟩ := h f hf
  obtain ⟨enough', hout'⟩ := h f' hf'
  exact (prints_iff hout).trans (prints_iff hout').symm

theorem UserString.reaches (hs : UserString u rdi n) (hi : i < n)
    (hbefore : ∀ j < i, u.mem (rdi + BitVec.ofNat 64 j) ≠ chr '%') : Reaches u rdi i where
  user j hj := hs.user j (by omega)
  plain j hj := ⟨hs.nonzero j (by omega), hbefore j hj⟩

/-- The task's string is printed as it is if and only if it has no `%`. -/
theorem print_verbatim_iff (hb : Buffers u buf timestampBuf) (hs : UserString u rdi n) :
    Verbatim u buf timestampBuf rdi n ↔ ∀ i < n, u.mem (rdi + BitVec.ofNat 64 i) ≠ chr '%' := by
  constructor
  · intro h
    by_contra hno
    push Not at hno
    classical
    -- The first `%` is where the output begins to depend on the state.
    obtain ⟨hi, hpercent⟩ := Nat.find_spec hno
    have hbefore : ∀ j < Nat.find hno, u.mem (rdi + BitVec.ofNat 64 j) ≠ chr '%' := fun j hj hj' =>
      Nat.find_min hno hj ⟨hj.trans hi, hj'⟩
    exact leak_percent hb (hs.reaches hi hbefore) (hs.user _ (Nat.le_of_lt hi)) hpercent h.confined
  · intro hplain f hf
    exact ⟨n + 10, fun fuel hfuel =>
      syscallPrint_plainText hb hf hs.user (fun i hi => ⟨hs.nonzero i hi, hplain i hi⟩) hs.nul hfuel⟩

theorem print_verbatim_iff_onePage :
    Verbatim (onePage ("hi".toList.map chr)) 0xffffffff80100000#64 0xffffffff80100040#64 0x400000#64 2 :=
  (print_verbatim_iff onePage_buffers ⟨by decide, by decide, by decide⟩).mpr (by decide)

/-- A `%` at the end shows what the buffer still holds. -/
theorem print_percent_not_verbatim : UserString (onePage ("100%".toList.map chr)) 0x400000#64 4 ∧
    ¬Verbatim (onePage ("100%".toList.map chr)) 0xffffffff80100000#64 0xffffffff80100040#64 0x400000#64 4 :=
  ⟨⟨by decide, by decide, by decide⟩, fun h =>
    leak_percent (n := 3) onePage_buffers ⟨by decide, by decide⟩ (by decide) (by decide) h.confined⟩

end ShedOS.Syscall
