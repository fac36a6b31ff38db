import ShedOS.Terminal.Terminal

/-!
# An endless tape of text

What the terminal is for: every character goes to a cell of its own on a tape
without end, and the screen is a window on the tape that moves down row by row.
-/

namespace ShedOS.Terminal

-- ---------------------------------------------------------------------------
-- The tape
-- ---------------------------------------------------------------------------

structure Cell where
  ch : BitVec 8
  fg : U32
  bg : U32
  deriving DecidableEq, Repr

structure Tape where
  pos : Nat
  cells : Nat → Option Cell
  fg : U32
  bg : U32

inductive Event where
  | putchar (ch : BitVec 8)
  | setcolor (fg bg : U32)
  deriving DecidableEq, Repr

def Tape.feed (width : Nat) (t : Tape) : Event → Tape
  | .putchar ch =>
    let pos := t.pos + 1
    if ch = 0x0a then { t with pos := pos + (width - pos % width) }
    else { t with pos, cells := Function.update t.cells pos (some ⟨ch, t.fg, t.bg⟩) }
  | .setcolor fg bg => { t with fg, bg }

def Tape.start : Tape where
  pos := 0
  cells _ := none
  fg := 0xffffff
  bg := 0

def Tape.target (t : Tape) : Event → Option Nat
  | .putchar ch => if ch = 0x0a then none else some (t.pos + 1)
  | .setcolor _ _ => none

-- ---------------------------------------------------------------------------
-- The terminal on the same events
-- ---------------------------------------------------------------------------

def feed (font : Font) (c : Screen) (t : Term) : Event → Term
  | .putchar ch => terminalPutchar font c t ch
  | .setcolor fg bg => terminalSetcolor t fg bg

def scrolls (c : Screen) (t : Term) : Event → Bool
  | .putchar _ => t.isready && decide (t.chrIndex + 1 ≥ c.width * c.height)
  | .setcolor _ _ => false

structure Run where
  term : Term
  tape : Tape
  scrolls : Nat

def Run.start (c : Screen) (t : Term) : Run := ⟨terminalInitialize c t, .start, 0⟩

def Run.feed (font : Font) (c : Screen) (r : Run) (e : Event) : Run where
  term := Terminal.feed font c r.term e
  tape := r.tape.feed c.width e
  scrolls := r.scrolls + if Terminal.scrolls c r.term e then 1 else 0

def run (font : Font) (c : Screen) (t : Term) (events : List Event) : Run :=
  events.foldl (Run.feed font c) (.start c t)

-- ---------------------------------------------------------------------------
-- The picture of a tape
-- ---------------------------------------------------------------------------

/-- Pixel `(ix, iy)` of cell `n`. A cell that was never written shows `init` in
the first `height` rows, and black below. -/
def Tape.shows (font : Font) (c : Screen) (init : Nat → Nat → U32) (t : Tape) (n ix iy : Nat) : U32 :=
  match t.cells n with
  | some cell => if fontIsSet font cell.ch ix (iy / 2) then cell.fg else cell.bg
  | none => if n / c.width < c.height then init (8 * (n % c.width) + ix) (16 * (n / c.width) + iy) else 0

/-- Pixel `(x, y)` of the tape, laid out in rows without end. -/
def Tape.picture (font : Font) (c : Screen) (init : Nat → Nat → U32) (t : Tape) (x y : Nat) : U32 :=
  t.shows font c init (y / 16 * c.width + x / 8) (x % 8) (y % 16)

variable {font : Font} {c : Screen} {t₀ : Term} {init : Nat → Nat → U32} {r : Run} {x y a b n : Nat} {tape : Tape}
  {ch : BitVec 8} {events : List Event}

theorem cell_iff (h : a < c.width) : b * c.width + a = n ↔ a = n % c.width ∧ b = n / c.width := by
  constructor
  · rintro rfl
    rw [Nat.mul_comm, Nat.mul_add_mod, Nat.mod_eq_of_lt h, Nat.mul_add_div (by omega), Nat.div_eq_of_lt h]
    exact ⟨rfl, rfl⟩
  · rintro ⟨rfl, rfl⟩
    exact Nat.div_add_mod' n c.width

theorem picture_start (h : InText c x y) : Tape.start.picture font c init x y = init x y := by
  obtain ⟨hx, hy⟩ := h
  obtain ⟨hmod, hdiv⟩ := (cell_iff (c := c) (a := x / 8) (b := y / 16) (by omega)).mp rfl
  unfold Tape.picture Tape.shows
  simp only [Tape.start]
  rw [← hmod, ← hdiv, if_pos (by omega), Nat.div_add_mod, Nat.div_add_mod]

theorem picture_below (hn : ∀ i, tape.cells i ≠ none → i < b * c.width) (hb : c.height ≤ b) (hx : x < 8 * c.width)
    (hy : b ≤ y / 16) : tape.picture font c init x y = 0 := by
  obtain ⟨hmod, hdiv⟩ := (cell_iff (c := c) (a := x / 8) (b := y / 16) (by omega)).mp rfl
  have hrow : b * c.width ≤ y / 16 * c.width := Nat.mul_le_mul_right _ hy
  have hnone : tape.cells (y / 16 * c.width + x / 8) = none := by
    by_contra hsome
    have := hn _ hsome
    omega
  unfold Tape.picture Tape.shows
  rw [hnone]
  simp only
  rw [← hdiv, if_neg (by omega)]

theorem picture_put {cell : Cell} (hx : x < 8 * c.width) :
    ({ tape with pos := n, cells := Function.update tape.cells n (some cell) } : Tape).picture font c init x y =
      if x / 8 = n % c.width ∧ y / 16 = n / c.width then
        if fontIsSet font cell.ch (x % 8) (y % 16 / 2) then cell.fg else cell.bg
      else tape.picture font c init x y := by
  have hcell := cell_iff (c := c) (a := x / 8) (b := y / 16) (n := n) (by omega)
  unfold Tape.picture Tape.shows
  by_cases h : x / 8 = n % c.width ∧ y / 16 = n / c.width
  · rw [if_pos h, hcell.mpr h]
    simp only [Function.update_self]
  · rw [if_neg h]
    simp only [Function.update_of_ne (fun e => h (hcell.mp e))]

-- ---------------------------------------------------------------------------
-- Refinement
-- ---------------------------------------------------------------------------

/-- The screen is the window of `height` rows from row `scrolls` of the tape
on. The cursor may rest one past its last cell. -/
structure Refines (font : Font) (c : Screen) (t₀ : Term) (r : Run) : Prop where
  ready : r.term.isready = true
  colours : r.term.fg = r.tape.fg ∧ r.term.bg = r.tape.bg
  cursor : r.scrolls * c.width + r.term.chrIndex = r.tape.pos
  bound : r.term.chrIndex ≤ c.width * c.height
  cells : ∀ i, r.tape.cells i ≠ none → i ≤ r.tape.pos ∧ i < (r.scrolls + c.height) * c.width
  draws : Draws c t₀.fb r.term.fb fun x y =>
    r.tape.picture font c (framebufferGetpixel c t₀.fb) x (16 * r.scrolls + y)

theorem refines_start (h : t₀.isready = false) : Refines font c t₀ (.start c t₀) := by
  rw [Run.start, terminalInitialize_eq h]
  refine ⟨rfl, ⟨rfl, rfl⟩, Nat.zero_mul _, Nat.zero_le _, fun i hi => absurd rfl hi, ?_⟩
  refine (Draws.refl _).congr fun x y hxy => ?_
  rw [Nat.mul_zero, Nat.zero_add]
  exact (picture_start hxy).symm

theorem Refines.advance (h : Refines font c t₀ r) (ch : BitVec 8) :
    ∃ t s, t = Terminal.advance c r.term ∧ (s = r.scrolls + if scrolls c r.term (.putchar ch) then 1 else 0) ∧
      t.isready = true ∧ t.fg = r.tape.fg ∧ t.bg = r.tape.bg ∧
      s * c.width + t.chrIndex = r.tape.pos + 1 ∧ t.chrIndex < c.width * c.height ∧
      (∀ i, r.tape.cells i ≠ none → i ≤ r.tape.pos ∧ i < (s + c.height) * c.width) ∧
      Draws c t₀.fb t.fb fun x y =>
        r.tape.picture font c (framebufferGetpixel c t₀.fb) x (16 * s + y) := by
  have hwide := c.wide
  have hhigh := c.high
  have harea : c.width ≤ c.width * c.height := Nat.le_mul_of_pos_right _ hhigh
  have hcursor := h.cursor
  have hbound := h.bound
  refine ⟨_, _, (advance_eq h.ready).symm, rfl, ?_⟩
  unfold scrolls
  simp only [h.ready, Bool.true_and, decide_eq_true_eq]
  by_cases hscroll : r.term.chrIndex + 1 ≥ c.width * c.height
  · rw [if_pos hscroll, if_pos hscroll]
    refine ⟨rfl, h.colours.1, h.colours.2, ?_, ?_, fun i hi => ?_, ?_⟩
    · simp only
      rw [Nat.succ_mul]
      omega
    · simp only
      omega
    · obtain ⟨hpos, hlt⟩ := h.cells i hi
      refine ⟨hpos, hlt.trans_le (Nat.mul_le_mul_right _ ?_)⟩
      omega
    · refine (h.draws.trans draws_scroll).congr fun x y hxy => ?_
      unfold scrolled
      by_cases hlast : (c.height - 1) * 16 ≤ y
      · rw [if_pos hlast]
        refine (picture_below (fun i hi => (h.cells i hi).2) (by omega) hxy.1 ?_).symm
        omega
      · obtain ⟨hx, hy⟩ := hxy
        rw [if_neg hlast, h.draws.text x (y + 16) ⟨hx, by omega⟩]
        congr 1
        omega
  · rw [if_neg hscroll, if_neg hscroll]
    refine ⟨rfl, h.colours.1, h.colours.2, ?_, ?_, h.cells, h.draws⟩
    · simp only [Nat.add_zero]
      omega
    · simp only
      omega

theorem Refines.putchar (h : Refines font c t₀ r) : Refines font c t₀ (r.feed font c (.putchar ch)) := by
  obtain ⟨t, s, ht, hs, hready, hfg, hbg, hcursor, hlt, hcells, hdraws⟩ := h.advance ch
  have hwidth : 0 < c.width := by
    have := c.wide
    omega
  have hterm : terminalPutchar font c r.term ch =
      if ch = 0x0a then { t with chrIndex := t.chrIndex + (c.width - t.chrIndex % c.width) }
      else { t with fb := drawGlyph font c t.fb ch (t.chrIndex % c.width) (t.chrIndex / c.width) t.fg t.bg } := by
    rw [terminalPutchar, ht]
    simp only [h.ready, Bool.not_true, Bool.false_eq_true, if_false]
  have hmod : (r.tape.pos + 1) % c.width = t.chrIndex % c.width := by
    rw [← hcursor, Nat.mul_comm, Nat.mul_add_mod]
  have hdiv : (r.tape.pos + 1) / c.width = s + t.chrIndex / c.width := by
    rw [← hcursor, Nat.mul_comm, Nat.mul_add_div hwidth]
  have hrow : t.chrIndex / c.width < c.height := (Nat.div_lt_iff_lt_mul hwidth).mpr (Nat.mul_comm _ _ ▸ hlt)
  have hcol : t.chrIndex % c.width < c.width := Nat.mod_lt _ hwidth
  unfold Run.feed Terminal.feed Tape.feed
  simp only
  rw [hterm, ← hs]
  by_cases hnewline : ch = 0x0a
  · rw [if_pos hnewline, if_pos hnewline]
    refine ⟨hready, ⟨hfg, hbg⟩, ?_, ?_, fun i hi => ?_, hdraws⟩
    · simp only
      omega
    · have hnext : (t.chrIndex / c.width + 1) * c.width ≤ c.height * c.width := Nat.mul_le_mul_right _ hrow
      have hparts := Nat.div_add_mod' t.chrIndex c.width
      rw [Nat.succ_mul] at hnext
      simp only
      rw [Nat.mul_comm c.width]
      omega
    · obtain ⟨hpos, hend⟩ := hcells i hi
      exact ⟨by simp only; omega, hend⟩
  · rw [if_neg hnewline, if_neg hnewline]
    refine ⟨hready, ⟨hfg, hbg⟩, hcursor, hlt.le, fun i hi => ?_, ?_⟩
    · by_cases hi' : i = r.tape.pos + 1
      · subst hi'
        refine ⟨Nat.le_refl _, ?_⟩
        simp only
        rw [← hcursor, Nat.add_mul, Nat.mul_comm c.height]
        omega
      · simp only [Function.update_of_ne hi'] at hi
        obtain ⟨hpos, hend⟩ := hcells i hi
        exact ⟨by simp only; omega, hend⟩
    · refine (hdraws.trans (draws_glyph hcol hrow)).congr fun x y hxy => ?_
      rw [picture_put hxy.1, hdraws.text x y hxy, hmod, hdiv, hfg, hbg]
      simp only
      rw [show (16 * s + y) / 16 = s + y / 16 by omega, show (16 * s + y) % 16 = y % 16 by omega]
      exact if_congr (and_congr_right' (Nat.add_left_cancel_iff).symm) rfl rfl

theorem Refines.feed (h : Refines font c t₀ r) (e : Event) : Refines font c t₀ (r.feed font c e) := by
  cases e with
  | putchar ch => exact h.putchar
  | setcolor fg bg => exact ⟨h.ready, ⟨rfl, rfl⟩, h.cursor, h.bound, h.cells, h.draws⟩

theorem refines_run (h : t₀.isready = false) : Refines font c t₀ (run font c t₀ events) := by
  induction events using List.reverseRecOn with
  | nil => exact refines_start h
  | append_singleton events e ih =>
    rw [run, List.foldl_append]
    exact ih.feed e

/-- The screen is a window on the tape after any characters and colours, the
rest of the screen is left alone, and no character goes to a cell that holds
one. -/
theorem terminal_refines_tape {c : Screen} {t₀ : Term} (h : t₀.isready = false)
    (hsynced : ∀ i, t₀.fb.written i = true → t₀.fb.fbMmio i = t₀.fb.fbBuffer i) :
    let r := run font c t₀ events
    (∀ x < c.width, ∀ y < c.height, ∀ ix < 8, ∀ iy < 16,
      framebufferGetpixel c r.term.fb (8 * x + ix) (16 * y + iy) =
        r.tape.shows font c (framebufferGetpixel c t₀.fb) ((r.scrolls + y) * c.width + x) ix iy) ∧
    r.scrolls * c.width + r.term.chrIndex = r.tape.pos ∧
    (∀ i, r.term.fb.written i = true → r.term.fb.fbMmio i = r.term.fb.fbBuffer i) ∧
    (∀ i, OutsideText c i → r.term.fb.fbBuffer i = t₀.fb.fbBuffer i ∧ r.term.fb.fbMmio i = t₀.fb.fbMmio i) ∧
    ∀ e n, r.tape.target e = some n → r.tape.cells n = none := by
  intro r
  have hr : Refines font c t₀ r := refines_run h
  refine ⟨fun x hx y hy ix hix iy hiy => ?_, hr.cursor, hr.draws.synced hsynced, hr.draws.outside, fun e n he => ?_⟩
  · rw [hr.draws.text _ _ ⟨by omega, by omega⟩, Tape.picture]
    congr 1
    · congr 1
      · congr 1
        omega
      · omega
    · omega
    · omega
  · by_contra hsome
    have hpos := (hr.cells n hsome).1
    cases e with
    | putchar ch =>
      rw [Tape.target] at he
      by_cases hnewline : ch = 0x0a
      · rw [if_pos hnewline] at he
        contradiction
      · rw [if_neg hnewline] at he
        have := Option.some.inj he
        omega
    | setcolor fg bg => contradiction

def smallScreen : Screen where
  fbWidth := 32
  fbHeight := 32
  fbPitch := 128
  width := 2
  height := 1
  pitch := by decide
  bytes := by decide
  columns := by decide
  rows := by decide
  wide := by decide
  high := by decide

def blank : Term := ⟨⟨fun _ => 0, fun _ => 0, fun _ => false⟩, 0, 0, 0, false⟩

def blockFont : Font := fun _ _ => 0xff

/-- The third character of this text scrolls the second one away. -/
theorem terminal_refines_tape_small :
    let r := run blockFont smallScreen blank [.putchar 0x41, .putchar 0x42, .putchar 0x43]
    (∀ x < smallScreen.width, ∀ y < smallScreen.height, ∀ ix < 8, ∀ iy < 16,
      framebufferGetpixel smallScreen r.term.fb (8 * x + ix) (16 * y + iy) =
        r.tape.shows blockFont smallScreen (framebufferGetpixel smallScreen blank.fb)
          ((r.scrolls + y) * smallScreen.width + x) ix iy) ∧
    r.tape.pos = 3 := by
  intro r
  exact ⟨(terminal_refines_tape rfl fun _ hi => Bool.noConfusion hi).1, rfl⟩

end ShedOS.Terminal
