import Mathlib.Logic.Function.Basic
import ShedOS.Lib.Loops

/-!
# The framebuffer

`framebuffer.c`: a shadow buffer and the memory of the screen behind the same
index. The coordinates and products are ints in C; in the text area they are
not negative, and below `fb_height * fb_pitch`.
-/

namespace ShedOS.Terminal

open Loops

abbrev U32 := BitVec 32

/-- The mode that the bootloader set, and the text area that `_start` puts into
it, of two columns and one row at least. The shadow buffer has
`fb_height * fb_pitch` bytes, an int. -/
structure Screen where
  fbWidth : Nat
  fbHeight : Nat
  fbPitch : Nat
  width : Nat
  height : Nat
  pitch : 4 * fbWidth ≤ fbPitch
  bytes : fbHeight * fbPitch < 2 ^ 31
  columns : 8 * width + 16 ≤ fbWidth
  rows : 16 * height + 16 ≤ fbHeight
  wide : 2 ≤ width
  high : 1 ≤ height

/-- `written` only records which pixels were written so far; nothing reads it. -/
structure Framebuffer where
  fbBuffer : Nat → U32
  fbMmio : Nat → U32
  written : Nat → Bool

variable {c : Screen} {s t : Framebuffer} {x y x' y' i : Nat} {px : U32}

def pixelIndex (c : Screen) (x y : Nat) : Nat :=
  let x := x + 8
  let y := y + 8
  y * c.fbPitch / 4 + x

def framebufferPutpixel (c : Screen) (s : Framebuffer) (x y : Nat) (px : U32) : Framebuffer where
  fbBuffer := Function.update s.fbBuffer (pixelIndex c x y) px
  fbMmio := Function.update s.fbMmio (pixelIndex c x y) px
  written := Function.update s.written (pixelIndex c x y) true

def framebufferGetpixel (c : Screen) (s : Framebuffer) (x y : Nat) : U32 := s.fbBuffer (pixelIndex c x y)

-- ---------------------------------------------------------------------------
-- The text area
-- ---------------------------------------------------------------------------

def InText (c : Screen) (x y : Nat) : Prop := x < 8 * c.width ∧ y < 16 * c.height

theorem rows_apart (x' : Nat) (hx : x + 8 < c.fbWidth) (hy : y < y') : pixelIndex c x y < pixelIndex c x' y' := by
  have hrow : (y + 8) * c.fbPitch / 4 + c.fbWidth ≤ (y' + 8) * c.fbPitch / 4 := by
    have hpitch := c.pitch
    have hnext : (y + 8 + 1) * c.fbPitch ≤ (y' + 8) * c.fbPitch := Nat.mul_le_mul_right _ (by omega)
    rw [Nat.succ_mul] at hnext
    omega
  unfold pixelIndex
  simp only
  omega

theorem pixelIndex_inj (hx : x + 8 < c.fbWidth) (hx' : x' + 8 < c.fbWidth)
    (h : pixelIndex c x y = pixelIndex c x' y') : x = x' ∧ y = y' := by
  rcases Nat.lt_trichotomy y y' with hy | rfl | hy
  · have := rows_apart x' hx hy
    omega
  · unfold pixelIndex at h
    simp only at h
    omega
  · have := rows_apart x hx' hy
    omega

theorem InText.column (h : InText c x y) : x + 8 < c.fbWidth := by
  have hcolumns := c.columns
  have := h.1
  omega

def OutsideText (c : Screen) (i : Nat) : Prop := ∀ x y, InText c x y → i ≠ pixelIndex c x y

-- ---------------------------------------------------------------------------
-- Pictures
-- ---------------------------------------------------------------------------

/-- From `s` to `t` only pixels of the text area were written; it shows
`picture` now. -/
structure Draws (c : Screen) (s t : Framebuffer) (picture : Nat → Nat → U32) : Prop where
  text : ∀ x y, InText c x y → framebufferGetpixel c t x y = picture x y
  synced : (∀ i, s.written i = true → s.fbMmio i = s.fbBuffer i) → ∀ i, t.written i = true → t.fbMmio i = t.fbBuffer i
  outside : ∀ i, OutsideText c i → t.fbBuffer i = s.fbBuffer i ∧ t.fbMmio i = s.fbMmio i

theorem Draws.refl (s : Framebuffer) : Draws c s s (framebufferGetpixel c s) :=
  ⟨fun _ _ _ => rfl, id, fun _ _ => ⟨rfl, rfl⟩⟩

theorem Draws.trans {u : Framebuffer} {p p' : Nat → Nat → U32} (h : Draws c s t p) (h' : Draws c t u p') :
    Draws c s u p' where
  text := h'.text
  synced hs := h'.synced (h.synced hs)
  outside i hi := ⟨((h'.outside i hi).1).trans (h.outside i hi).1, ((h'.outside i hi).2).trans (h.outside i hi).2⟩

theorem Draws.congr {p p' : Nat → Nat → U32} (h : Draws c s t p) (hp : ∀ x y, InText c x y → p x y = p' x y) :
    Draws c s t p' :=
  ⟨fun x y hxy => (h.text x y hxy).trans (hp x y hxy), h.synced, h.outside⟩

theorem draws_putpixel (h : InText c x y) :
    Draws c s (framebufferPutpixel c s x y px) fun x' y' =>
      if x' = x ∧ y' = y then px else framebufferGetpixel c s x' y' where
  text x' y' h' := by
    by_cases heq : x' = x ∧ y' = y
    · obtain ⟨rfl, rfl⟩ := heq
      rw [if_pos ⟨rfl, rfl⟩]
      exact Function.update_self ..
    · rw [if_neg heq]
      exact Function.update_of_ne (fun e => heq (pixelIndex_inj h'.column h.column e)) _ _
  synced hs i hi := by
    unfold framebufferPutpixel at hi ⊢
    by_cases heq : i = pixelIndex c x y
    · subst heq
      simp only [Function.update_self]
    · simp only [Function.update_of_ne heq] at hi ⊢
      exact hs i hi
  outside i hi := ⟨Function.update_of_ne (hi x y h) _ _, Function.update_of_ne (hi x y h) _ _⟩

/-- `picture` where `region` holds, and what `s` shows elsewhere. -/
def paint (c : Screen) (s : Framebuffer) (region : Nat → Nat → Prop) [∀ x y, Decidable (region x y)]
    (picture : Nat → Nat → U32) (x y : Nat) : U32 :=
  if region x y then picture x y else framebufferGetpixel c s x y

/-- The rule for loops that write one pixel of `picture` in every round;
`region i j` is what was written before round `j` of round `i`. -/
theorem draws_upto_upto {body : Nat → Nat → Framebuffer → Framebuffer} {n k : Nat} (picture : Nat → Nat → U32)
    (region : Nat → Nat → Nat → Nat → Prop) [∀ i j x y, Decidable (region i j x y)]
    (h0 : ∀ x y, InText c x y → ¬region 0 0 x y)
    (hstep : ∀ i j t, i < n → j < k → Draws c s t (paint c s (region i j) picture) →
      ∃ x y, InText c x y ∧ body i j t = framebufferPutpixel c t x y (picture x y) ∧
        ∀ x' y', InText c x' y' → (region i (j + 1) x' y' ↔ region i j x' y' ∨ x' = x ∧ y' = y))
    (hnext : ∀ i x y, InText c x y → (region (i + 1) 0 x y ↔ region i k x y)) :
    Draws c s (upto (fun i t => upto (body i) t k) s n) (paint c s (region n 0) picture) := by
  refine upto_upto_rule (fun i j t => Draws c s t (paint c s (region i j) picture)) ?_ ?_ ?_
  · exact (Draws.refl s).congr fun x y hxy => (if_neg (h0 x y hxy)).symm
  · intro i j t hi hj ht
    obtain ⟨x, y, htext, hbody, hregion⟩ := hstep i j t hi hj ht
    rw [hbody]
    refine (ht.trans (draws_putpixel htext)).congr fun x' y' hxy => ?_
    unfold paint
    rw [ht.text x' y' hxy]
    by_cases heq : x' = x ∧ y' = y
    · obtain ⟨rfl, rfl⟩ := heq
      rw [if_pos ⟨rfl, rfl⟩, if_pos ((hregion _ _ hxy).mpr (.inr ⟨rfl, rfl⟩))]
    · rw [if_neg heq, paint]
      exact if_congr (by rw [hregion _ _ hxy, or_iff_left heq]) rfl rfl
  · intro i t hi ht
    exact ht.congr fun x y hxy => if_congr (hnext i x y hxy).symm rfl rfl

end ShedOS.Terminal
