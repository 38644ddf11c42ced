import BabOs.Terminal.Bounds

/-!
# Pixels

This module says what the terminal does to the visible pixels of a mode with
32 bits per pixel: a glyph sets the pixels of its bits, and a scroll moves every
row up by ten and leaves ten blank ones.
-/

namespace BabOs.Terminal

open Memory

/-- The modes with a word for each pixel. -/
structure TrueColor (vbe : VbeModeInfo) : Prop where
  width : 16 ≤ vbe.width
  height : 20 ≤ vbe.height
  bpp : vbe.bpp = 32
  pitch : 4 * vbe.width ≤ vbe.pitch
  range : vbe.framebuffer + vbe.height * vbe.pitch ≤ 2 ^ 32

theorem TrueColor.geometry {vbe : VbeModeInfo} (hmode : TrueColor vbe) :
    Geometry vbe := by
  obtain ⟨hwidth, hheight, hbpp, hpitch, hrange⟩ := hmode
  refine ⟨hwidth, hheight, Or.inr hbpp, ?_, hrange⟩
  rw [hbpp]
  omega

/-- The pixel at `(x, y)`. -/
def pixel (vbe : VbeModeInfo) (m : Memory) (x y : ℕ) : ℕ :=
  m.load32 (vbe.framebuffer + y * vbe.pitch + 4 * x)

section Pixels

variable {vbe : VbeModeInfo} {m : Memory} {x y x' y' v : ℕ}

/-- A visible pixel lies in its row. -/
theorem TrueColor.pixel_le (hmode : TrueColor vbe) (hx : x < vbe.width) :
    4 * x + 4 ≤ vbe.pitch := by
  have hpitch := hmode.pitch
  omega

theorem row_cases (hne : y ≠ y') (pitch : ℕ) :
    y * pitch + pitch ≤ y' * pitch ∨ y' * pitch + pitch ≤ y * pitch := by
  rcases Nat.lt_or_gt_of_ne hne with hlt | hlt
  · exact Or.inl (row_le hlt)
  · exact Or.inr (row_le hlt)

theorem pixel_store32 (hmode : TrueColor vbe) (hx : x < vbe.width)
    (hx' : x' < vbe.width) :
    pixel vbe (m.store32 (vbe.framebuffer + y' * vbe.pitch + 4 * x') v) x y =
      if x = x' ∧ y = y' then uint32 v else pixel vbe m x y := by
  have hpixel := hmode.pixel_le hx
  have hpixel' := hmode.pixel_le hx'
  split_ifs with hsame
  · obtain ⟨rfl, rfl⟩ := hsame
    exact load32_store32
  · apply load32_store32_of_disjoint
    by_cases hy : y = y'
    · subst hy
      omega
    · have hrows := row_cases hy vbe.pitch
      omega

/-- A cleared row is blank, and the others are as before. -/
theorem pixel_fill (hmode : TrueColor vbe) (hx : x < vbe.width) :
    pixel vbe (m.fill (vbe.framebuffer + y' * vbe.pitch) 0 (vbe.width * 4)) x y =
      if y = y' then 0 else pixel vbe m x y := by
  have hpixel := hmode.pixel_le hx
  have hpitch := hmode.pitch
  split_ifs with hy
  · subst hy
    exact load32_fill_zero (by omega) (by omega)
  · apply load32_fill_of_disjoint
    have hrows := row_cases hy vbe.pitch
    omega

theorem clearRows_cons (ys : List ℕ) :
    clearRows vbe (y :: ys) m =
      clearRows vbe ys
        (m.fill (uint32 (vbe.framebuffer + uint32 (y * vbe.pitch))) 0
          (vbe.width * (vbe.bpp / 8))) :=
  rfl

theorem pixel_clearRows (hmode : TrueColor vbe) (hx : x < vbe.width)
    {ys : List ℕ} (hys : ∀ y ∈ ys, y < vbe.height) :
    pixel vbe (clearRows vbe ys m) x y =
      if y ∈ ys then 0 else pixel vbe m x y := by
  induction ys generalizing m with
  | nil => rw [if_neg List.not_mem_nil]; rfl
  | cons y' ys ih =>
      rw [List.forall_mem_cons] at hys
      obtain ⟨haddress, -⟩ := hmode.geometry.rowAddress hys.1
      have hbytes : vbe.bpp / 8 = 4 := by rw [hmode.bpp]
      rw [clearRows_cons, haddress, hbytes, ih hys.2, pixel_fill hmode hx]
      by_cases hrest : y ∈ ys
      · rw [if_pos hrest, if_pos (List.mem_cons_of_mem y' hrest)]
      · simp only [List.mem_cons, hrest, or_false, if_false]

/-- A copy to the start of the framebuffer moves the rows up. -/
theorem pixel_copy (hmode : TrueColor vbe) (hx : x < vbe.width) {n : ℕ}
    (hy : y < n) :
    pixel vbe (m.copy vbe.framebuffer (vbe.framebuffer + 10 * vbe.pitch)
        (n * vbe.pitch)) x y = pixel vbe m x (y + 10) := by
  have hpixel := hmode.pixel_le hx
  have hrow : y * vbe.pitch + vbe.pitch ≤ n * vbe.pitch := row_le hy
  have hsource : vbe.framebuffer + (y + 10) * vbe.pitch + 4 * x =
      vbe.framebuffer + 10 * vbe.pitch + (y * vbe.pitch + 4 * x) := by
    ring
  rw [pixel, pixel, hsource, add_assoc vbe.framebuffer]
  exact load32_copy (by omega) (by omega)

end Pixels

/-! ## The operations -/

section Operations

variable {font : Font} {t : State} {x y x' y' v : ℕ}

theorem pixel_putPixel (hmode : TrueColor t.vbe) (hx : x < t.vbe.width)
    (hx' : x' < t.vbe.width) (hy' : y' < t.vbe.height) :
    pixel t.vbe (putPixel x' y' v t).mem x y =
      if x = x' ∧ y = y' then uint32 v else pixel t.vbe t.mem x y := by
  obtain ⟨haddress, -⟩ := hmode.geometry.pixelAddress hx' hy'
  have hbytes : t.vbe.bpp / 8 = 4 := by rw [hmode.bpp]
  rw [putPixel, haddress, if_pos hmode.bpp, hbytes, Nat.mul_comm x' 4]
  exact pixel_store32 hmode hx hx'

theorem pixel_terminalScroll (hmode : TrueColor t.vbe) (hx : x < t.vbe.width)
    (hy : y < t.vbe.height) :
    pixel t.vbe (terminalScroll t).mem x y =
      if y < t.vbe.height - 10 then pixel t.vbe t.mem x (y + 10) else 0 := by
  obtain ⟨hsrc, hlen, -⟩ := hmode.geometry.block
  have hheight := hmode.height
  have hmem : (terminalScroll t).mem =
      clearRows t.vbe (List.range' (t.vbe.height - 10)
          (t.vbe.height - (t.vbe.height - 10)))
        (t.mem.copy t.vbe.framebuffer (t.vbe.framebuffer + 10 * t.vbe.pitch)
          ((t.vbe.height - 10) * t.vbe.pitch)) := by
    simp only [terminalScroll, hmode.geometry.first, hsrc, hlen]
  have hrows : ∀ y' ∈ List.range' (t.vbe.height - 10)
      (t.vbe.height - (t.vbe.height - 10)), y' < t.vbe.height := by
    intro y' hy'
    rw [List.mem_range'_1] at hy'
    omega
  rw [hmem, pixel_clearRows hmode hx hrows]
  simp only [List.mem_range'_1]
  by_cases hmoved : y < t.vbe.height - 10
  · rw [if_neg (by omega), if_pos hmoved]
    exact pixel_copy hmode hx hmoved
  · rw [if_pos (by omega), if_neg hmoved]

/-- The bit `ij` of a glyph at the cursor is the pixel at `(x, y)`. -/
def Font.covers (font : Font) (index : ℤ) (row column x y : ℕ)
    (ij : Fin 8 × ℕ) : Prop :=
  font.bit index ij ∧ x = column + ij.2 ∧ y = row + ij.1

instance {index : ℤ} {row column : ℕ} {ij : Fin 8 × ℕ} :
    Decidable (font.covers index row column x y ij) :=
  inferInstanceAs (Decidable (_ ∧ _))

variable {index : ℤ} {row column : ℕ} {ij : Fin 8 × ℕ}

theorem pixel_putBit (hmode : TrueColor t.vbe)
    (hcolumn : column + 8 < t.vbe.width) (hrow : row + 10 < t.vbe.height)
    (hx : x < t.vbe.width) (hj : ij.2 < 8) :
    pixel t.vbe (putBit font index row column t ij).mem x y =
      if font.covers index row column x y ij then uint32 t.color
      else pixel t.vbe t.mem x y := by
  have hi := ij.1.isLt
  have hwidth := t.vbe.width_lt
  have hheight := t.vbe.height_lt
  rw [putBit]
  dsimp only
  rw [uint32_eq_of_lt (by omega), uint32_eq_of_lt (by omega)]
  by_cases hbit : font.bit index ij
  · have hput := pixel_putPixel (t := { t with loads := t.loads ++ [.glyph index] })
      (y := y)
      (v := t.color) hmode hx (show column + ij.2 < t.vbe.width by omega)
      (show row + ij.1 < t.vbe.height by omega)
    rw [if_pos hbit]
    simp only [Font.covers, hbit, true_and]
    exact hput
  · have hcovers : ¬font.covers index row column x y ij := fun h => hbit h.1
    rw [if_neg hbit, if_neg hcovers]

theorem pixel_putBits (hmode : TrueColor t.vbe)
    (hcolumn : column + 8 < t.vbe.width) (hrow : row + 10 < t.vbe.height)
    (hx : x < t.vbe.width) {l : List (Fin 8 × ℕ)} (hl : ∀ ij ∈ l, ij.2 < 8) :
    pixel t.vbe (l.foldl (putBit font index row column) t).mem x y =
      if ∃ ij ∈ l, font.covers index row column x y ij then uint32 t.color
      else pixel t.vbe t.mem x y := by
  induction l generalizing t with
  | nil => simp
  | cons ij l ih =>
      rw [List.forall_mem_cons] at hl
      have hfirst : pixel t.vbe (putBit font index row column t ij).mem x y = _ :=
        pixel_putBit hmode hcolumn hrow hx hl.1
      have hvbe : (putBit font index row column t ij).vbe = t.vbe := by
        rw [putBit_eq]
      have hcolor : (putBit font index row column t ij).color = t.color := by
        rw [putBit_eq]
      have hrest := @ih (putBit font index row column t ij)
        (by rwa [hvbe]) (by rwa [hvbe]) (by rwa [hvbe]) (by rwa [hvbe]) hl.2
      rw [hvbe, hcolor, hfirst] at hrest
      rw [List.foldl_cons, hrest]
      simp only [List.exists_mem_cons_iff]
      by_cases hlater : ∃ ij' ∈ l, font.covers index row column x y ij'
      · rw [if_pos hlater, if_pos (Or.inr hlater)]
      · simp only [hlater, or_false, if_false]

theorem pixel_drawGlyph (hmode : TrueColor t.vbe) (hplaced : Placed t)
    (hx : x < t.vbe.width) :
    pixel t.vbe (drawGlyph font index t).mem x y =
      if ∃ ij ∈ glyphBits, font.covers index t.row t.column x y ij then
        uint32 t.color
      else pixel t.vbe t.mem x y := by
  apply pixel_putBits hmode hplaced.column hplaced.row hx
  intro ij hij
  exact mem_glyphBits_iff.mp hij

end Operations

end BabOs.Terminal
