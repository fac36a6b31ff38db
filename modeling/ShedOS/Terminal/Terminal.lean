import ShedOS.Terminal.Framebuffer

/-!
# The terminal

`terminal.c` and `font_is_set`. `chr_index` is an int that stays between 0 and
`width * height + 1`.
-/

namespace ShedOS.Terminal

open Loops

structure Term where
  fb : Framebuffer
  chrIndex : Nat
  fg : U32
  bg : U32
  isready : Bool

abbrev Font := Nat → Nat → BitVec 8

/-- `c` is a signed char. -/
def fontIsSet (font8x8Basic : Font) (ch : BitVec 8) (x y : Nat) : Bool :=
  if ch.toInt < 0x20 then false
  else
    let row := font8x8Basic ch.toNat y
    (row >>> x) &&& 0x1 ≠ 0

def terminalClear (c : Screen) (t : Term) : Term :=
  if !t.isready then t
  else
    let fb := upto (fun x fb => upto (fun y fb => framebufferPutpixel c fb x y 0) fb (16 * c.height)) t.fb
      (8 * c.width)
    { t with fb, chrIndex := 0 }

def terminalInitialize (c : Screen) (t : Term) : Term :=
  let t := { t with chrIndex := 0, fg := 0xffffff, bg := 0 }
  let t := terminalClear c t
  { t with isready := true }

def terminalSetcolor (t : Term) (fg bg : U32) : Term := { t with fg, bg }

def copyLines (c : Screen) (fb : Framebuffer) : Framebuffer :=
  upto (fun py fb =>
    upto (fun px fb =>
      let color := framebufferGetpixel c fb px (py + 16)
      framebufferPutpixel c fb px py color) fb (c.width * 8)) fb ((c.height - 1) * 16)

def clearLastLine (c : Screen) (fb : Framebuffer) : Framebuffer :=
  upto (fun py fb =>
    upto (fun px fb => framebufferPutpixel c fb px ((c.height - 1) * 16 + py) 0) fb (c.width * 8)) fb 16

def terminalScroll (c : Screen) (t : Term) : Term :=
  if !t.isready then t
  else
    let fb := copyLines c t.fb
    let fb := clearLastLine c fb
    { t with fb, chrIndex := t.chrIndex - c.width }

def drawGlyph (font : Font) (c : Screen) (fb : Framebuffer) (ch : BitVec 8) (ciX ciY : Nat) (fg bg : U32) :
    Framebuffer :=
  upto (fun ix fb =>
    upto (fun iy fb =>
      let x := ciX * 8 + ix
      let y := ciY * 16 + iy
      framebufferPutpixel c fb x y (if fontIsSet font ch ix (iy / 2) then fg else bg)) fb 16) fb 8

def advance (c : Screen) (t : Term) : Term :=
  let t := { t with chrIndex := t.chrIndex + 1 }
  if t.chrIndex ≥ c.width * c.height then terminalScroll c t else t

def terminalPutchar (font : Font) (c : Screen) (t : Term) (ch : BitVec 8) : Term :=
  if !t.isready then t
  else
    let t := advance c t
    if ch = 0x0a then { t with chrIndex := t.chrIndex + (c.width - t.chrIndex % c.width) }
    else
      let ciX := t.chrIndex % c.width
      let ciY := t.chrIndex / c.width
      { t with fb := drawGlyph font c t.fb ch ciX ciY t.fg t.bg }

variable {font : Font} {c : Screen} {fb : Framebuffer} {t : Term} {ch : BitVec 8}

-- ---------------------------------------------------------------------------
-- What the loops draw
-- ---------------------------------------------------------------------------

theorem draws_copyLines : Draws c fb (copyLines c fb) fun x y =>
    framebufferGetpixel c fb x (if y < (c.height - 1) * 16 then y + 16 else y) := by
  refine (draws_upto_upto (fun x y => framebufferGetpixel c fb x (y + 16))
    (fun i j x y => y < i ∨ y = i ∧ x < j) ?_ ?_ ?_).congr ?_
  · omega
  · intro i j t hi hj ht
    refine ⟨j, i, ⟨by omega, by omega⟩, ?_, by omega⟩
    -- the row below was not overwritten yet
    have hbelow : framebufferGetpixel c t j (i + 16) = framebufferGetpixel c fb j (i + 16) := by
      rw [ht.text j (i + 16) ⟨by omega, by omega⟩]
      exact if_neg (by omega)
    simp only [hbelow]
  · rintro i x y ⟨hx, hy⟩
    omega
  · intro x y hxy
    unfold paint
    simp only [Nat.not_lt_zero, and_false, or_false]
    split <;> rfl

theorem draws_clearLastLine : Draws c fb (clearLastLine c fb) fun x y =>
    if (c.height - 1) * 16 ≤ y then 0 else framebufferGetpixel c fb x y := by
  refine (draws_upto_upto (fun _ _ => 0)
    (fun i j x y => (c.height - 1) * 16 ≤ y ∧ (y < (c.height - 1) * 16 + i ∨ y = (c.height - 1) * 16 + i ∧ x < j))
    ?_ ?_ ?_).congr ?_
  · omega
  · intro i j t hi hj ht
    have hhigh := c.high
    exact ⟨j, (c.height - 1) * 16 + i, ⟨by omega, by omega⟩, rfl, by omega⟩
  · rintro i x y ⟨hx, hy⟩
    omega
  · rintro x y ⟨hx, hy⟩
    unfold paint
    exact if_congr (by omega) rfl rfl

theorem draws_glyph {ciX ciY : Nat} {fg bg : U32} (hx : ciX < c.width) (hy : ciY < c.height) :
    Draws c fb (drawGlyph font c fb ch ciX ciY fg bg) fun x y =>
      if x / 8 = ciX ∧ y / 16 = ciY then if fontIsSet font ch (x % 8) (y % 16 / 2) then fg else bg
      else framebufferGetpixel c fb x y := by
  refine (draws_upto_upto (fun x y => if fontIsSet font ch (x % 8) (y % 16 / 2) then fg else bg)
    (fun i j x y => x / 8 = ciX ∧ y / 16 = ciY ∧ (x % 8 < i ∨ x % 8 = i ∧ y % 16 < j)) ?_ ?_ ?_).congr ?_
  · omega
  · intro i j t hi hj ht
    refine ⟨ciX * 8 + i, ciY * 16 + j, ⟨by omega, by omega⟩, ?_, by omega⟩
    simp only
    rw [show (ciX * 8 + i) % 8 = i by omega, show (ciY * 16 + j) % 16 = j by omega]
  · rintro i x y ⟨hx, hy⟩
    omega
  · rintro x y ⟨hx, hy⟩
    unfold paint
    exact if_congr (by omega) rfl rfl

/-- A scroll moves the picture up by one row of text; the last row is black. -/
def scrolled (c : Screen) (picture : Nat → Nat → U32) (x y : Nat) : U32 :=
  if (c.height - 1) * 16 ≤ y then 0 else picture x (y + 16)

theorem draws_scroll : Draws c fb (clearLastLine c (copyLines c fb)) (scrolled c (framebufferGetpixel c fb)) := by
  refine (draws_copyLines.trans draws_clearLastLine).congr fun x y hxy => ?_
  unfold scrolled
  split
  · rfl
  · rw [draws_copyLines.text x y hxy, if_pos (by omega)]

theorem advance_eq (h : t.isready = true) : advance c t =
    if t.chrIndex + 1 ≥ c.width * c.height then
      ⟨clearLastLine c (copyLines c t.fb), t.chrIndex + 1 - c.width, t.fg, t.bg, true⟩
    else ⟨t.fb, t.chrIndex + 1, t.fg, t.bg, true⟩ := by
  unfold advance terminalScroll
  simp only [h, Bool.not_true, Bool.false_eq_true, if_false]

theorem terminalInitialize_eq (h : t.isready = false) :
    terminalInitialize c t = ⟨t.fb, 0, 0xffffff, 0, true⟩ := by
  unfold terminalInitialize terminalClear
  simp only [h, Bool.not_false, if_true]

end ShedOS.Terminal
