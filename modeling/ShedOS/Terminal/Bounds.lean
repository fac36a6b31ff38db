import ShedOS.Terminal.Tape

/-!
# The bounds of the framebuffer

`framebuffer.c` and `terminal.c` with the ints of C, which may be negative and
overflow, and with the end of the buffers. From the start on, no run gets into
any of these cases, and what it does is what the terminal on natural numbers
does.
-/

namespace ShedOS.Terminal

open Loops

def int (x : Int) : Option Int := if -0x80000000 ≤ x ∧ x < 0x80000000 then some x else none

/-- `x / y` and `x % y` round towards 0. -/
def intDiv (x y : Int) : Option Int := if y = 0 then none else int (x.tdiv y)

def intMod (x y : Int) : Option Int := if y = 0 then none else int (x.tmod y)

structure FramebufferTag where
  framebufferWidth : BitVec 16
  framebufferHeight : BitVec 16
  framebufferPitch : BitVec 16

-- ---------------------------------------------------------------------------
-- framebuffer.c
-- ---------------------------------------------------------------------------

namespace Checked

/-- The variables of `framebuffer.c`. The buffer and the memory of the screen
have `fb_height * fb_pitch` bytes each. -/
structure Fb where
  fbWidth : Int
  fbHeight : Int
  fbPitch : BitVec 16
  pixels : Framebuffer

def pixelIndex (s : Fb) (x y : Int) : Option Nat := do
  let x ← int x
  let y ← int y
  let x ← int (x + 8)
  let y ← int (y + 8)
  let row ← int (y * s.fbPitch.toNat)
  let i ← int (row.tdiv 4 + x)
  if 0 ≤ 4 * i ∧ 4 * i ≤ s.fbHeight * s.fbPitch.toNat - 4 then some i.toNat else none

def framebufferPutpixel (s : Fb) (x y : Int) (px : U32) : Option Fb := do
  let i ← pixelIndex s x y
  return { s with
    pixels := {
      fbBuffer := Function.update s.pixels.fbBuffer i px
      fbMmio := Function.update s.pixels.fbMmio i px
      written := Function.update s.pixels.written i true } }

def framebufferGetpixel (s : Fb) (x y : Int) : Option U32 := (pixelIndex s x y).map s.pixels.fbBuffer

def borderRow (color : U32) (x y : Nat) (s : Fb) : Option Fb := do
  let s ← framebufferPutpixel s (x - 8) (y - 8) color
  framebufferPutpixel s (x - 8) (y - 16 + s.fbHeight) color

def borderCol (color : U32) (y x : Nat) (s : Fb) : Option Fb := do
  let s ← framebufferPutpixel s (x - 8) (y - 8) color
  framebufferPutpixel s (x - 16 + s.fbWidth) (y - 8) color

def framebufferDrawborder (s : Fb) (color : U32) : Option Fb := do
  let s ← uptoM (fun x s => uptoM (fun y s => borderRow color x y s) s 8) s s.fbWidth.toNat
  uptoM (fun y s => uptoM (fun x s => borderCol color y x s) s 8) s s.fbHeight.toNat

/-- `pixels` is what the two buffers hold before. -/
def framebufferInitialize (tag : FramebufferTag) (pixels : Framebuffer) : Option Fb := do
  let _bytes ← int (tag.framebufferHeight.toNat * tag.framebufferPitch.toNat)
  framebufferDrawborder ⟨tag.framebufferWidth.toNat, tag.framebufferHeight.toNat, tag.framebufferPitch, pixels⟩ 0x1c8aa6

-- ---------------------------------------------------------------------------
-- terminal.c
-- ---------------------------------------------------------------------------

structure Term where
  screen : Fb
  width : Int
  height : Int
  chrIndex : Int
  fg : U32
  bg : U32
  isready : Bool

def terminalClear (t : Term) : Option Term := do
  if !t.isready then return t
  let columns ← int (8 * t.width)
  let rows ← int (16 * t.height)
  let screen ← uptoM (fun x s => uptoM (fun y s => framebufferPutpixel s x y 0) s rows.toNat) t.screen columns.toNat
  return { t with screen, chrIndex := 0 }

def terminalInitialize (t : Term) (width height : Int) : Option Term := do
  let t := { t with width, height, chrIndex := 0, fg := 0xffffff, bg := 0 }
  let t ← terminalClear t
  return { t with isready := true }

def terminalScroll (t : Term) : Option Term := do
  if !t.isready then return t
  let rows ← int ((t.height - 1) * 16)
  let columns ← int (t.width * 8)
  let screen ← uptoM (fun py s =>
    uptoM (fun px s => do
      let color ← framebufferGetpixel s px (py + 16)
      framebufferPutpixel s px py color) s columns.toNat) t.screen rows.toNat
  let screen ← uptoM (fun py s =>
    uptoM (fun px s => framebufferPutpixel s px (rows + py) 0) s columns.toNat) screen 16
  let chrIndex ← int (t.chrIndex - t.width)
  return { t with screen, chrIndex }

def advance (t : Term) : Option Term := do
  let chrIndex ← int (t.chrIndex + 1)
  let size ← int (t.width * t.height)
  if chrIndex ≥ size then terminalScroll { t with chrIndex } else some { t with chrIndex }

def drawGlyph (font : Font) (s : Fb) (ch : BitVec 8) (ciX ciY : Int) (fg bg : U32) : Option Fb :=
  uptoM (fun ix s =>
    uptoM (fun iy s => do
      let x ← int (ciX * 8 + ix)
      let y ← int (ciY * 16 + iy)
      framebufferPutpixel s x y (if fontIsSet font ch ix (iy / 2) then fg else bg)) s 16) s 8

/-- Also gives the column and the row of the cell, where a glyph is drawn. -/
def terminalPutchar (font : Font) (t : Term) (ch : BitVec 8) : Option (Term × Option (Int × Int)) := do
  if !t.isready then return (t, none)
  let t ← advance t
  if ch = 0x0a then
    let column ← intMod t.chrIndex t.width
    let chrIndex ← int (t.chrIndex + (t.width - column))
    return ({ t with chrIndex }, none)
  let ciX ← intMod t.chrIndex t.width
  let ciY ← intDiv t.chrIndex t.width
  let screen ← drawGlyph font t.screen ch ciX ciY t.fg t.bg
  return ({ t with screen }, some (ciX, ciY))

def feed (font : Font) (t : Term) : Event → Option (Term × Option (Int × Int))
  | .putchar ch => terminalPutchar font t ch
  | .setcolor fg bg => some ({ t with fg, bg }, none)

def feedAll (font : Font) (t : Term) : List Event → Option (Term × List (Int × Int))
  | [] => some (t, [])
  | e :: events => do
    let (t, cell) ← feed font t e
    let (t, cells) ← feedAll font t events
    return (t, cell.toList ++ cells)

/-- What `_start` does with the framebuffer of the bootloader; `t` are the
variables as they are before. -/
def start (tag : FramebufferTag) (t : Term) : Option Term := do
  let screen ← framebufferInitialize tag t.screen.pixels
  let width ← intDiv (tag.framebufferWidth.toNat - 16) 8
  let height ← intDiv (tag.framebufferHeight.toNat - 16) 16
  terminalInitialize { t with screen } width height

end Checked

-- ---------------------------------------------------------------------------
-- The screens in question
-- ---------------------------------------------------------------------------

/-- A mode of 32 bits a pixel that is large enough for the text. -/
structure Usable (tag : FramebufferTag) : Prop where
  wide : 32 ≤ tag.framebufferWidth.toNat
  high : 32 ≤ tag.framebufferHeight.toNat
  pitch : 4 * tag.framebufferWidth.toNat ≤ tag.framebufferPitch.toNat
  bytes : tag.framebufferHeight.toNat * tag.framebufferPitch.toNat < 2 ^ 31

variable {tag : FramebufferTag} {fb : Framebuffer} {t : Terminal.Term} {font : Font} {ch : BitVec 8} {x y : Int} {X Y : Nat}
  {px color : U32}

def Usable.screen (h : Usable tag) : Screen where
  fbWidth := tag.framebufferWidth.toNat
  fbHeight := tag.framebufferHeight.toNat
  fbPitch := tag.framebufferPitch.toNat
  width := (tag.framebufferWidth.toNat - 16) / 8
  height := (tag.framebufferHeight.toNat - 16) / 16
  pitch := h.pitch
  bytes := h.bytes
  columns := by
    have := h.wide
    omega
  rows := by
    have := h.high
    omega
  wide := by
    have := h.wide
    omega
  high := by
    have := h.high
    omega

namespace Checked

def showFb (tag : FramebufferTag) (fb : Framebuffer) : Fb :=
  ⟨tag.framebufferWidth.toNat, tag.framebufferHeight.toNat, tag.framebufferPitch, fb⟩

theorem int_eq (h : -0x80000000 ≤ x ∧ x < 0x80000000) : int x = some x := if_pos h

theorem intDiv_eq (hx : X < 2 ^ 31) (hY : 0 < Y) : intDiv X Y = some ((X / Y : Nat) : Int) := by
  have hle : X / Y ≤ X := Nat.div_le_self X Y
  obtain ⟨q, hq⟩ : ∃ q, q = X / Y := ⟨_, rfl⟩
  have hdiv : (X : Int).tdiv Y = q := hq ▸ rfl
  rw [intDiv, if_neg (by omega), hdiv, ← hq]
  exact int_eq (by omega)

theorem intMod_eq (hx : X < 2 ^ 31) (hY : 0 < Y) : intMod X Y = some ((X % Y : Nat) : Int) := by
  have hle : X % Y ≤ X := Nat.mod_le X Y
  obtain ⟨r, hr⟩ : ∃ r, r = X % Y := ⟨_, rfl⟩
  have hmod : (X : Int).tmod Y = r := hr ▸ rfl
  rw [intMod, if_neg (by omega), hmod, ← hr]
  exact int_eq (by omega)

theorem pixelIndex_eq (h : Usable tag) (hX : X < tag.framebufferWidth.toNat) (hY : Y < tag.framebufferHeight.toNat)
    (hx : x = X - 8) (hy : y = Y - 8) :
    pixelIndex (showFb tag fb) x y = some (Y * tag.framebufferPitch.toNat / 4 + X) := by
  have hwidth := tag.framebufferWidth.isLt
  have hheight := tag.framebufferHeight.isLt
  have hpitch := h.pitch
  have hbytes := h.bytes
  obtain ⟨n, hn⟩ : ∃ n, n = Y * tag.framebufferPitch.toNat := ⟨_, rfl⟩
  have hrow : n + tag.framebufferPitch.toNat ≤ tag.framebufferHeight.toNat * tag.framebufferPitch.toNat := by
    rw [hn, ← Nat.succ_mul]
    exact Nat.mul_le_mul_right _ hY
  have hx8 : int (x + 8) = some (X : Int) := by
    rw [show x + 8 = (X : Int) by omega]
    exact int_eq (by omega)
  have hy8 : int (y + 8) = some (Y : Int) := by
    rw [show y + 8 = (Y : Int) by omega]
    exact int_eq (by omega)
  have hmul : int ((Y : Int) * tag.framebufferPitch.toNat) = some (n : Int) := by
    rw [← Int.natCast_mul, ← hn]
    exact int_eq (by omega)
  have hindex : int ((n : Int).tdiv 4 + X) = some ((n / 4 + X : Nat) : Int) := by
    rw [Int.tdiv_eq_ediv_of_nonneg (Int.natCast_nonneg n), show (n : Int) / 4 + X = (n / 4 + X : Nat) by omega]
    exact int_eq (by omega)
  have htotal : (tag.framebufferHeight.toNat : Int) * tag.framebufferPitch.toNat =
      (tag.framebufferHeight.toNat * tag.framebufferPitch.toNat : Nat) := (Int.natCast_mul _ _).symm
  have hxint : int x = some x := int_eq (by omega)
  have hyint : int y = some y := int_eq (by omega)
  refine Option.bind_eq_some_iff.mpr ⟨x, hxint, Option.bind_eq_some_iff.mpr ⟨y, hyint, ?_⟩⟩
  refine Option.bind_eq_some_iff.mpr ⟨X, hx8, Option.bind_eq_some_iff.mpr ⟨Y, hy8, ?_⟩⟩
  refine Option.bind_eq_some_iff.mpr ⟨n, hmul, Option.bind_eq_some_iff.mpr ⟨(n / 4 + X : Nat), hindex, ?_⟩⟩
  change (if 0 ≤ 4 * ((n / 4 + X : Nat) : Int) ∧ 4 * ((n / 4 + X : Nat) : Int) ≤
    (tag.framebufferHeight.toNat : Int) * tag.framebufferPitch.toNat - 4 then some ((n / 4 + X : Nat) : Int).toNat else none) = _
  rw [htotal, if_pos (by omega), Int.toNat_natCast, hn]

theorem putpixel_screen (h : Usable tag) (hX : X < tag.framebufferWidth.toNat) (hY : Y < tag.framebufferHeight.toNat)
    (hx : x = X - 8) (hy : y = Y - 8) : ∃ fb', framebufferPutpixel (showFb tag fb) x y px = some (showFb tag fb') := by
  rw [framebufferPutpixel, pixelIndex_eq h hX hY hx hy]
  exact ⟨_, rfl⟩

theorem loops_screen {body : Nat → Nat → Fb → Option Fb} {n k : Nat}
    (h : ∀ i j fb, i < n → j < k → ∃ fb', body i j (showFb tag fb) = some (showFb tag fb')) :
    ∃ fb', uptoM (fun i s => uptoM (fun j s => body i j s) s k) (showFb tag fb) n = some (showFb tag fb') := by
  obtain ⟨s, hs, fb', rfl⟩ := uptoM_rule (fun _ s => ∃ fb, s = showFb tag fb) ⟨fb, rfl⟩ fun i s hi hs =>
    uptoM_rule (n := k) (fun _ s => ∃ fb, s = showFb tag fb) hs fun j s hj hs => by
      obtain ⟨fb, rfl⟩ := hs
      obtain ⟨fb', hbody⟩ := h i j fb hi hj
      exact ⟨_, hbody, fb', rfl⟩
  exact ⟨fb', hs⟩

theorem framebufferDrawborder_returns (h : Usable tag) :
    ∃ fb', framebufferDrawborder (showFb tag fb) color = some (showFb tag fb') := by
  have hwide := h.wide
  have hhigh := h.high
  have hwidth : (showFb tag fb).fbWidth.toNat = tag.framebufferWidth.toNat := Int.toNat_natCast _
  obtain ⟨fb₁, hrows⟩ : ∃ fb₁, uptoM (fun x s => uptoM (fun y s => borderRow color x y s) s 8) (showFb tag fb)
      tag.framebufferWidth.toNat = some (showFb tag fb₁) := loops_screen fun x y fb hx hy => by
    obtain ⟨fb₁, h₁⟩ : ∃ fb₁, framebufferPutpixel (showFb tag fb) _ _ color = some (showFb tag fb₁) :=
      putpixel_screen h hx (show y < tag.framebufferHeight.toNat by omega) rfl rfl
    obtain ⟨fb₂, h₂⟩ : ∃ fb₂, framebufferPutpixel (showFb tag fb₁) _ _ color = some (showFb tag fb₂) :=
      putpixel_screen h hx
        (show tag.framebufferHeight.toNat + y - 8 < tag.framebufferHeight.toNat by omega) rfl
        (show (y : Int) - 16 + tag.framebufferHeight.toNat = _ by omega)
    exact ⟨fb₂, Option.bind_eq_some_iff.mpr ⟨_, h₁, h₂⟩⟩
  have hheight : (showFb tag fb₁).fbHeight.toNat = tag.framebufferHeight.toNat := Int.toNat_natCast _
  obtain ⟨fb₂, hcols⟩ : ∃ fb₂, uptoM (fun y s => uptoM (fun x s => borderCol color y x s) s 8) (showFb tag fb₁)
      tag.framebufferHeight.toNat = some (showFb tag fb₂) := loops_screen fun y x fb hy hx => by
    obtain ⟨fb₁, h₁⟩ : ∃ fb₁, framebufferPutpixel (showFb tag fb) _ _ color = some (showFb tag fb₁) :=
      putpixel_screen h (show x < tag.framebufferWidth.toNat by omega) hy rfl rfl
    obtain ⟨fb₂, h₂⟩ : ∃ fb₂, framebufferPutpixel (showFb tag fb₁) _ _ color = some (showFb tag fb₂) :=
      putpixel_screen h
        (show tag.framebufferWidth.toNat + x - 8 < tag.framebufferWidth.toNat by omega) hy
        (show (x : Int) - 16 + tag.framebufferWidth.toNat = _ by omega) rfl
    exact ⟨fb₂, Option.bind_eq_some_iff.mpr ⟨_, h₁, h₂⟩⟩
  exact ⟨fb₂, Option.bind_eq_some_iff.mpr ⟨_, hwidth ▸ hrows, hheight ▸ hcols⟩⟩

-- ---------------------------------------------------------------------------
-- The text area
-- ---------------------------------------------------------------------------

theorem pixelIndex_text (h : Usable tag) (htext : InText h.screen X Y) :
    pixelIndex (showFb tag fb) X Y = some (Terminal.pixelIndex h.screen X Y) := by
  have hcolumn : X + 8 < tag.framebufferWidth.toNat := htext.column
  have hrow : Y + 8 < tag.framebufferHeight.toNat := by
    have hrows : 16 * h.screen.height + 16 ≤ tag.framebufferHeight.toNat := h.screen.rows
    have hy := htext.2
    omega
  exact pixelIndex_eq h hcolumn hrow (by omega) (by omega)

theorem putpixel_text (h : Usable tag) (htext : InText h.screen X Y) :
    framebufferPutpixel (showFb tag fb) X Y px = some (showFb tag (Terminal.framebufferPutpixel h.screen fb X Y px)) := by
  rw [framebufferPutpixel, pixelIndex_text h htext]
  rfl

theorem getpixel_text (h : Usable tag) (htext : InText h.screen X Y) :
    framebufferGetpixel (showFb tag fb) X Y = some (Terminal.framebufferGetpixel h.screen fb X Y) := by
  rw [framebufferGetpixel, pixelIndex_text h htext]
  rfl

def showTerm (h : Usable tag) (t : Terminal.Term) : Term :=
  ⟨showFb tag t.fb, h.screen.width, h.screen.height, t.chrIndex, t.fg, t.bg, t.isready⟩

theorem text_small (h : Usable tag) : h.screen.width < 2 ^ 13 ∧ h.screen.height < 2 ^ 12 ∧
    h.screen.width * h.screen.height < 2 ^ 25 := by
  have hwidth := tag.framebufferWidth.isLt
  have hheight := tag.framebufferHeight.isLt
  have hw : h.screen.width < 2 ^ 13 := by
    change (tag.framebufferWidth.toNat - 16) / 8 < 2 ^ 13
    omega
  have hh : h.screen.height < 2 ^ 12 := by
    change (tag.framebufferHeight.toNat - 16) / 16 < 2 ^ 12
    omega
  exact ⟨hw, hh, Nat.lt_of_lt_of_le (Nat.mul_lt_mul'' hw hh) (by decide)⟩

theorem terminalScroll_eq (h : Usable tag) (hready : t.isready = true) (hle : h.screen.width ≤ t.chrIndex)
    (hmax : t.chrIndex < 2 ^ 31) :
    terminalScroll (showTerm h t) = some (showTerm h (Terminal.terminalScroll h.screen t)) := by
  obtain ⟨hw, hh, -⟩ := text_small h
  have hhigh := h.screen.high
  have hrows : int (((showTerm h t).height - 1) * 16) = some (((h.screen.height - 1) * 16 : Nat) : Int) := by
    change int (((h.screen.height : Int) - 1) * 16) = _
    rw [show ((h.screen.height : Int) - 1) * 16 = ((h.screen.height - 1) * 16 : Nat) by omega]
    exact int_eq (by omega)
  have hcolumns : int ((showTerm h t).width * 8) = some ((h.screen.width * 8 : Nat) : Int) := by
    change int ((h.screen.width : Int) * 8) = _
    rw [show (h.screen.width : Int) * 8 = (h.screen.width * 8 : Nat) by omega]
    exact int_eq (by omega)
  have hcursor : int ((showTerm h t).chrIndex - (showTerm h t).width) = some ((t.chrIndex - h.screen.width : Nat) : Int) := by
    change int ((t.chrIndex : Int) - h.screen.width) = _
    rw [show (t.chrIndex : Int) - h.screen.width = (t.chrIndex - h.screen.width : Nat) by omega]
    exact int_eq (by omega)
  have hcopy : uptoM (fun py s =>
      uptoM (fun px s => do
        let color ← framebufferGetpixel s px (py + 16)
        framebufferPutpixel s px py color) s (h.screen.width * 8)) (showFb tag t.fb) ((h.screen.height - 1) * 16) =
      some (showFb tag (copyLines h.screen t.fb)) :=
    uptoM_map (showFb tag) fun py fb hpy => uptoM_map (showFb tag) fun px fb hpx => by
      have hget : framebufferGetpixel (showFb tag fb) px (py + 16) = some (Terminal.framebufferGetpixel h.screen fb px (py + 16)) :=
        getpixel_text (Y := py + 16) h ⟨by omega, by omega⟩
      exact Option.bind_eq_some_iff.mpr ⟨_, hget, putpixel_text h ⟨by omega, by omega⟩⟩
  have hclear : uptoM (fun py s =>
      uptoM (fun px s => framebufferPutpixel s px ((((h.screen.height - 1) * 16 : Nat) : Int) + py) 0) s (h.screen.width * 8))
        (showFb tag (copyLines h.screen t.fb)) 16 =
      some (showFb tag (clearLastLine h.screen (copyLines h.screen t.fb))) :=
    uptoM_map (showFb tag) fun py fb hpy => uptoM_map (showFb tag) fun px fb hpx =>
      putpixel_text (Y := (h.screen.height - 1) * 16 + py) h ⟨by omega, by omega⟩
  have hdone : showTerm h (Terminal.terminalScroll h.screen t) =
      ⟨showFb tag (clearLastLine h.screen (copyLines h.screen t.fb)), h.screen.width, h.screen.height,
        ((t.chrIndex - h.screen.width : Nat) : Int), t.fg, t.bg, t.isready⟩ := by
    unfold Terminal.terminalScroll
    rw [hready]
    rfl
  rw [terminalScroll, hdone]
  have hnot : (!(showTerm h t).isready) = false := by
    change (!t.isready) = false
    rw [hready]
    rfl
  rw [if_neg (by rw [hnot]; exact Bool.false_ne_true)]
  refine Option.bind_eq_some_iff.mpr ⟨_, hrows, Option.bind_eq_some_iff.mpr ⟨_, hcolumns, ?_⟩⟩
  rw [Int.toNat_natCast, Int.toNat_natCast]
  refine Option.bind_eq_some_iff.mpr ⟨_, hcopy, Option.bind_eq_some_iff.mpr ⟨_, hclear, ?_⟩⟩
  exact Option.bind_eq_some_iff.mpr ⟨_, hcursor, rfl⟩

theorem drawGlyph_eq {ciX ciY : Nat} {fg bg : U32} (h : Usable tag) (hx : ciX < h.screen.width) (hy : ciY < h.screen.height) :
    drawGlyph font (showFb tag fb) ch ciX ciY fg bg =
      some (showFb tag (Terminal.drawGlyph font h.screen fb ch ciX ciY fg bg)) := by
  obtain ⟨hw, hh, -⟩ := text_small h
  refine uptoM_map (showFb tag) fun ix fb hix => uptoM_map (showFb tag) fun iy fb hiy => ?_
  have hxint : int ((ciX : Int) * 8 + ix) = some ((ciX * 8 + ix : Nat) : Int) := by
    rw [show (ciX : Int) * 8 + ix = (ciX * 8 + ix : Nat) by omega]
    exact int_eq (by omega)
  have hyint : int ((ciY : Int) * 16 + iy) = some ((ciY * 16 + iy : Nat) : Int) := by
    rw [show (ciY : Int) * 16 + iy = (ciY * 16 + iy : Nat) by omega]
    exact int_eq (by omega)
  exact Option.bind_eq_some_iff.mpr ⟨_, hxint, Option.bind_eq_some_iff.mpr ⟨_, hyint,
    putpixel_text h ⟨by omega, by omega⟩⟩⟩

end Checked

-- ---------------------------------------------------------------------------
-- The cursor
-- ---------------------------------------------------------------------------

/-- The cursor may rest behind the last cell; one scroll is enough then. -/
theorem advance_cursor {c : Screen} (hready : t.isready = true) (hle : t.chrIndex ≤ c.width * c.height) :
    (advance c t).chrIndex < c.width * c.height ∧ (advance c t).isready = true := by
  have hwide := c.wide
  have hrow : c.width ≤ c.width * c.height := Nat.le_mul_of_pos_right _ c.high
  rw [advance_eq hready]
  split
  · exact ⟨by simp only; omega, rfl⟩
  · exact ⟨by simp only; omega, rfl⟩

theorem terminalPutchar_cursor {c : Screen} (hready : t.isready = true) (hle : t.chrIndex ≤ c.width * c.height) :
    (terminalPutchar font c t ch).chrIndex ≤ c.width * c.height ∧ (terminalPutchar font c t ch).isready = true := by
  obtain ⟨hlt, hready'⟩ := advance_cursor hready hle
  have hnot : ¬ (!t.isready) = true := by
    rw [hready]
    exact Bool.false_ne_true
  rw [terminalPutchar, if_neg hnot]
  simp only
  split
  · refine ⟨?_, hready'⟩
    have hdiv := Nat.div_add_mod (advance c t).chrIndex c.width
    have hmod := Nat.mod_lt (advance c t).chrIndex (show 0 < c.width by have := c.wide; omega)
    have hquot : c.width * ((advance c t).chrIndex / c.width + 1) ≤ c.width * c.height :=
      Nat.mul_le_mul_left _ (Nat.div_lt_of_lt_mul hlt)
    rw [Nat.mul_succ] at hquot
    simp only
    omega
  · exact ⟨Nat.le_of_lt hlt, hready'⟩

namespace Checked

def InCell (c : Screen) (p : Int × Int) : Prop := (0 ≤ p.1 ∧ p.1 < c.width) ∧ 0 ≤ p.2 ∧ p.2 < c.height

theorem advance_some (h : Usable tag) (hready : t.isready = true) (hle : t.chrIndex ≤ h.screen.width * h.screen.height) :
    advance (showTerm h t) = some (showTerm h (Terminal.advance h.screen t)) := by
  obtain ⟨-, -, hsmall⟩ := text_small h
  have hrow : h.screen.width ≤ h.screen.width * h.screen.height := Nat.le_mul_of_pos_right _ h.screen.high
  have hcursor : int ((showTerm h t).chrIndex + 1) = some ((t.chrIndex + 1 : Nat) : Int) := by
    change int ((t.chrIndex : Int) + 1) = _
    rw [show (t.chrIndex : Int) + 1 = (t.chrIndex + 1 : Nat) by omega]
    exact int_eq (by omega)
  have hsize : int ((showTerm h t).width * (showTerm h t).height) = some ((h.screen.width * h.screen.height : Nat) : Int) := by
    change int ((h.screen.width : Int) * h.screen.height) = _
    rw [← Int.natCast_mul]
    exact int_eq (by omega)
  rw [advance]
  refine Option.bind_eq_some_iff.mpr ⟨((t.chrIndex + 1 : Nat) : Int), hcursor, ?_⟩
  refine Option.bind_eq_some_iff.mpr ⟨((h.screen.width * h.screen.height : Nat) : Int), hsize, ?_⟩
  obtain ⟨u, hu⟩ : ∃ u : Terminal.Term, u = { t with chrIndex := t.chrIndex + 1 } := ⟨_, rfl⟩
  have hshow : { showTerm h t with chrIndex := ((t.chrIndex + 1 : Nat) : Int) } = showTerm h u := hu ▸ rfl
  have hadvance : Terminal.advance h.screen t =
      if h.screen.width * h.screen.height ≤ t.chrIndex + 1 then Terminal.terminalScroll h.screen u else u := hu ▸ rfl
  have hnext : u.chrIndex = t.chrIndex + 1 := hu ▸ rfl
  rw [hshow, hadvance]
  by_cases hscroll : h.screen.width * h.screen.height ≤ t.chrIndex + 1
  · rw [if_pos hscroll]
    refine (if_pos (Int.ofNat_le.mpr hscroll)).trans (terminalScroll_eq h (hu ▸ hready) ?_ ?_)
    · omega
    · omega
  · rw [if_neg hscroll]
    exact if_neg fun hle => hscroll (Int.ofNat_le.mp hle)

theorem terminalPutchar_eq (h : Usable tag) (hready : t.isready = true) (hle : t.chrIndex ≤ h.screen.width * h.screen.height) :
    ∃ cell, terminalPutchar font (showTerm h t) ch = some (showTerm h (Terminal.terminalPutchar font h.screen t ch), cell) ∧
      ∀ p ∈ cell, InCell h.screen p := by
  obtain ⟨hw, -, hsmall⟩ := text_small h
  have hwide := h.screen.wide
  obtain ⟨hlt, -⟩ := advance_cursor hready hle
  obtain ⟨u, hu⟩ : ∃ u, u = Terminal.advance h.screen t := ⟨_, rfl⟩
  rw [← hu] at hlt
  have hadvance : advance (showTerm h t) = some (showTerm h u) := hu ▸ advance_some h hready hle
  have hmod : intMod (showTerm h u).chrIndex (showTerm h u).width = some ((u.chrIndex % h.screen.width : Nat) : Int) :=
    intMod_eq (by omega) (by omega)
  have hdiv : intDiv (showTerm h u).chrIndex (showTerm h u).width = some ((u.chrIndex / h.screen.width : Nat) : Int) :=
    intDiv_eq (by omega) (by omega)
  have hcolumn : u.chrIndex % h.screen.width < h.screen.width := Nat.mod_lt _ (by omega)
  have hrow : u.chrIndex / h.screen.width < h.screen.height := Nat.div_lt_of_lt_mul hlt
  have hnot : ¬ (!(showTerm h t).isready) = true := by
    change ¬ (!t.isready) = true
    rw [hready]
    exact Bool.false_ne_true
  have hnot' : ¬ (!t.isready) = true := hnot
  rw [terminalPutchar, Terminal.terminalPutchar, if_neg hnot, if_neg hnot', ← hu]
  simp only
  by_cases hnewline : ch = 0x0a
  · rw [if_pos hnewline]
    refine ⟨none, Option.bind_eq_some_iff.mpr ⟨_, hadvance, ?_⟩, fun p hp => by cases hp⟩
    rw [if_pos hnewline]
    have hnext : int ((showTerm h u).chrIndex + ((showTerm h u).width - ((u.chrIndex % h.screen.width : Nat) : Int))) =
        some ((u.chrIndex + (h.screen.width - u.chrIndex % h.screen.width) : Nat) : Int) := by
      change int ((u.chrIndex : Int) + ((h.screen.width : Int) - ((u.chrIndex % h.screen.width : Nat) : Int))) = _
      rw [show (u.chrIndex : Int) + ((h.screen.width : Int) - ((u.chrIndex % h.screen.width : Nat) : Int)) =
        ((u.chrIndex + (h.screen.width - u.chrIndex % h.screen.width) : Nat) : Int) by omega]
      exact int_eq (by omega)
    exact Option.bind_eq_some_iff.mpr ⟨_, hmod, Option.bind_eq_some_iff.mpr ⟨_, hnext, rfl⟩⟩
  · rw [if_neg hnewline]
    refine ⟨some ((u.chrIndex % h.screen.width : Nat), (u.chrIndex / h.screen.width : Nat)),
      Option.bind_eq_some_iff.mpr ⟨_, hadvance, ?_⟩, fun p hp => ?_⟩
    · rw [if_neg hnewline]
      exact Option.bind_eq_some_iff.mpr ⟨_, hmod, Option.bind_eq_some_iff.mpr ⟨_, hdiv,
        Option.bind_eq_some_iff.mpr ⟨_, drawGlyph_eq h hcolumn hrow, rfl⟩⟩⟩
    · obtain rfl := Option.some.inj hp
      exact ⟨⟨Int.natCast_nonneg _, Int.ofNat_lt.mpr hcolumn⟩, Int.natCast_nonneg _, Int.ofNat_lt.mpr hrow⟩

-- ---------------------------------------------------------------------------
-- Runs
-- ---------------------------------------------------------------------------

variable {e : Event} {events : List Event}

theorem feed_eq (h : Usable tag) (hready : t.isready = true) (hle : t.chrIndex ≤ h.screen.width * h.screen.height) :
    ∃ cell, feed font (showTerm h t) e = some (showTerm h (Terminal.feed font h.screen t e), cell) ∧
      ∀ p ∈ cell, InCell h.screen p := by
  cases e with
  | putchar ch => exact terminalPutchar_eq h hready hle
  | setcolor fg bg => exact ⟨none, rfl, fun p hp => by cases hp⟩

theorem feed_cursor (h : Usable tag) (hready : t.isready = true) (hle : t.chrIndex ≤ h.screen.width * h.screen.height) :
    (Terminal.feed font h.screen t e).chrIndex ≤ h.screen.width * h.screen.height ∧
      (Terminal.feed font h.screen t e).isready = true := by
  cases e with
  | putchar ch => exact terminalPutchar_cursor hready hle
  | setcolor fg bg => exact ⟨hle, hready⟩

theorem feedAll_eq (h : Usable tag) (hready : t.isready = true) (hle : t.chrIndex ≤ h.screen.width * h.screen.height) :
    ∃ cells, feedAll font (showTerm h t) events = some (showTerm h (events.foldl (Terminal.feed font h.screen) t), cells) ∧
      (events.foldl (Terminal.feed font h.screen) t).chrIndex ≤ h.screen.width * h.screen.height ∧
      ∀ p ∈ cells, InCell h.screen p := by
  induction events generalizing t with
  | nil => exact ⟨[], rfl, hle, fun p hp => by cases hp⟩
  | cons e events ih =>
    obtain ⟨cell, hfeed, hcell⟩ : ∃ cell, feed font (showTerm h t) e = _ ∧ _ := feed_eq h hready hle
    obtain ⟨hle', hready'⟩ := (feed_cursor h hready hle : (Terminal.feed font h.screen t e).chrIndex ≤ _ ∧ _)
    obtain ⟨cells, hrest, hcursor, hcells⟩ := ih hready' hle'
    refine ⟨cell.toList ++ cells, Option.bind_eq_some_iff.mpr ⟨_, hfeed, Option.bind_eq_some_iff.mpr ⟨_, hrest, rfl⟩⟩,
      hcursor, fun p hp => ?_⟩
    rcases List.mem_append.mp hp with hp | hp
    · exact hcell p (Option.mem_toList.mp hp)
    · exact hcells p hp

theorem start_eq {t : Term} (h : Usable tag) (hready : t.isready = false) :
    ∃ fb, start tag t = some (showTerm h ⟨fb, 0, 0xffffff, 0, true⟩) := by
  have hbytes := h.bytes
  have hwide := h.wide
  have hhigh := h.high
  have hmalloc : int ((tag.framebufferHeight.toNat : Int) * tag.framebufferPitch.toNat) =
      some ((tag.framebufferHeight.toNat * tag.framebufferPitch.toNat : Nat) : Int) := by
    rw [← Int.natCast_mul]
    exact int_eq (by omega)
  obtain ⟨fb, hborder⟩ : ∃ fb, framebufferDrawborder (showFb tag t.screen.pixels) 0x1c8aa6 = some (showFb tag fb) :=
    framebufferDrawborder_returns h
  have hfb : framebufferInitialize tag t.screen.pixels = some (showFb tag fb) := by
    rw [framebufferInitialize, hmalloc]
    exact hborder
  have hwidth : intDiv ((tag.framebufferWidth.toNat : Int) - 16) 8 = some (h.screen.width : Int) := by
    rw [show (tag.framebufferWidth.toNat : Int) - 16 = (tag.framebufferWidth.toNat - 16 : Nat) by omega]
    have := tag.framebufferWidth.isLt
    exact intDiv_eq (Y := 8) (by omega) (by decide)
  have hheight : intDiv ((tag.framebufferHeight.toNat : Int) - 16) 16 = some (h.screen.height : Int) := by
    rw [show (tag.framebufferHeight.toNat : Int) - 16 = (tag.framebufferHeight.toNat - 16 : Nat) by omega]
    have := tag.framebufferHeight.isLt
    exact intDiv_eq (Y := 16) (by omega) (by decide)
  refine ⟨fb, ?_⟩
  rw [start]
  refine Option.bind_eq_some_iff.mpr ⟨_, hfb, Option.bind_eq_some_iff.mpr ⟨_, hwidth, ?_⟩⟩
  refine Option.bind_eq_some_iff.mpr ⟨_, hheight, ?_⟩
  -- nothing is cleared before the terminal is ready
  rw [terminalInitialize, terminalClear]
  simp only [hready, Bool.not_false, if_true]
  rfl

/-- From the start over the events no int overflows and no access leaves the
buffers; the cursor rests on a cell or right behind the last one, and every
glyph was drawn in a cell. -/
def StaysInside (font : Font) (tag : FramebufferTag) (t : Term) (events : List Event) : Prop :=
  ∃ t₁ t' cells, start tag t = some t₁ ∧ feedAll font t₁ events = some (t', cells) ∧
    t'.width = ((tag.framebufferWidth.toNat - 16) / 8 : Nat) ∧ t'.height = ((tag.framebufferHeight.toNat - 16) / 16 : Nat) ∧
    0 ≤ t'.chrIndex ∧ t'.chrIndex ≤ t'.width * t'.height ∧
    ∀ p ∈ cells, (0 ≤ p.1 ∧ p.1 < t'.width) ∧ 0 ≤ p.2 ∧ p.2 < t'.height

theorem run_term {c : Screen} {t₀ : Terminal.Term} :
    (run font c t₀ events).term = events.foldl (Terminal.feed font c) (Terminal.terminalInitialize c t₀) := by
  induction events using List.reverseRecOn with
  | nil => rfl
  | append_singleton events e ih =>
    rw [run, List.foldl_append, List.foldl_append, ← ih]
    rfl

theorem start_run {t : Term} (h : Usable tag) (hready : t.isready = false) : ∃ (t₀ : Terminal.Term) (cells : List (Int × Int)),
    t₀.isready = false ∧ start tag t = some (showTerm h (Terminal.terminalInitialize h.screen t₀)) ∧
      feedAll font (showTerm h (Terminal.terminalInitialize h.screen t₀)) events =
        some (showTerm h (run font h.screen t₀ events).term, cells) ∧
      (run font h.screen t₀ events).term.chrIndex ≤ h.screen.width * h.screen.height ∧ ∀ p ∈ cells, InCell h.screen p := by
  obtain ⟨fb, hstart⟩ := start_eq h hready
  obtain ⟨t₀, ht₀⟩ : ∃ t₀ : Terminal.Term, t₀ = ⟨fb, 0, 0, 0, false⟩ := ⟨_, rfl⟩
  have hready₀ : t₀.isready = false := ht₀ ▸ rfl
  have hinit : Terminal.terminalInitialize h.screen t₀ = ⟨fb, 0, 0xffffff, 0, true⟩ := by
    rw [terminalInitialize_eq hready₀, ht₀]
  obtain ⟨cells, hrun, hcursor, hcells⟩ : ∃ cells, feedAll font (showTerm h ⟨fb, 0, 0xffffff, 0, true⟩) events = _ ∧ _ :=
    feedAll_eq h rfl (Nat.zero_le _)
  rw [← hinit] at hstart hrun hcursor
  rw [← run_term] at hrun hcursor
  exact ⟨t₀, cells, hready₀, hstart, hrun, hcursor, hcells⟩

theorem terminal_stays_inside {t : Term} (h : Usable tag) (hready : t.isready = false) (events : List Event) :
    StaysInside font tag t events := by
  obtain ⟨t₀, cells, -, hstart, hrun, hcursor, hcells⟩ : ∃ t₀ cells, _ ∧ _ ∧ feedAll font _ events = _ ∧ _ := start_run h hready
  refine ⟨_, _, cells, hstart, hrun, rfl, rfl, Int.natCast_nonneg _, ?_, hcells⟩
  change ((Nat.cast _ : Int)) ≤ (h.screen.width : Int) * h.screen.height
  rw [← Int.natCast_mul]
  exact Int.ofNat_le.mpr hcursor

def smallTag : FramebufferTag := ⟨32, 32, 128⟩

/-- One row of two characters; the third character scrolls, the newline puts the cursor behind the last cell. -/
theorem terminal_stays_inside_small : StaysInside blockFont smallTag ⟨⟨0, 0, 0, blank.fb⟩, 0, 0, 0, 0, 0, false⟩
    [.putchar 0x41, .putchar 0x42, .putchar 0x43, .putchar 0x0a] :=
  terminal_stays_inside ⟨by decide, by decide, by decide, by decide⟩ rfl _

end Checked

end ShedOS.Terminal
