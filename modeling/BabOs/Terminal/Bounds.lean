import BabOs.Terminal.Model

/-!
# What the terminal touches

All stores and copies of the terminal stay inside the framebuffer, whatever
text it writes, because the cursor stays on the screen.  The rows of the font
that it reads lie in the table for the bytes below `128` only.
-/

namespace BabOs.Terminal

open Memory

/-- The modes that the terminal is used in. -/
structure Geometry (vbe : VbeModeInfo) : Prop where
  width : 16 ≤ vbe.width
  height : 20 ≤ vbe.height
  bpp : vbe.bpp = 24 ∨ vbe.bpp = 32
  pitch : vbe.width * vbe.bpp / 8 ≤ vbe.pitch
  range : vbe.framebuffer + vbe.height * vbe.pitch ≤ 2 ^ 32

/-- The bytes of the framebuffer. -/
def VbeModeInfo.range (vbe : VbeModeInfo) : Set ℕ :=
  Set.Ico vbe.framebuffer (vbe.framebuffer + vbe.height * vbe.pitch)

/-- A load that stays in the table or in the framebuffer. -/
def Load.Inside (vbe : VbeModeInfo) : Load → Prop
  | .glyph index => 0 ≤ index ∧ index < 128
  | .block start len => Set.Ico start (start + len) ⊆ vbe.range

/-- The cursor is on the screen, with room for a glyph and for a line. -/
structure Placed (t : State) : Prop where
  geometry : Geometry t.vbe
  column : t.column + 8 < t.vbe.width
  row : t.row + 10 < t.vbe.height

/-! ## Addresses -/

section Addresses

variable {vbe : VbeModeInfo} {x y : ℕ}

theorem Geometry.bytes (hgeometry : Geometry vbe) :
    vbe.bpp / 8 = 3 ∧ vbe.bpp = 24 ∨ vbe.bpp / 8 = 4 ∧ vbe.bpp = 32 := by
  have hbpp := hgeometry.bpp
  omega

theorem Geometry.line (hgeometry : Geometry vbe) :
    vbe.width * (vbe.bpp / 8) ≤ vbe.pitch := by
  have hpitch := hgeometry.pitch
  rcases hgeometry.bytes with ⟨hbytes, hbpp⟩ | ⟨hbytes, hbpp⟩
  · rw [hbpp] at hpitch
    rw [hbytes]
    omega
  · rw [hbpp] at hpitch
    rw [hbytes]
    omega

theorem row_le {y y' pitch : ℕ} (h : y < y') : y * pitch + pitch ≤ y' * pitch := by
  rw [← Nat.succ_mul]
  exact Nat.mul_le_mul_right pitch h

theorem Geometry.rowAddress (hgeometry : Geometry vbe) (hy : y < vbe.height) :
    uint32 (vbe.framebuffer + uint32 (y * vbe.pitch)) =
        vbe.framebuffer + y * vbe.pitch ∧
      vbe.framebuffer + y * vbe.pitch + vbe.pitch ≤
        vbe.framebuffer + vbe.height * vbe.pitch := by
  have hrow : y * vbe.pitch + vbe.pitch ≤ vbe.height * vbe.pitch := row_le hy
  have hrange := hgeometry.range
  have hline := hgeometry.line
  have hwidth := hgeometry.width
  have hpos : 0 < vbe.width * (vbe.bpp / 8) := by
    rcases hgeometry.bytes with ⟨hbytes, -⟩ | ⟨hbytes, -⟩ <;>
      (rw [hbytes]; omega)
  rw [uint32_eq_of_lt (n := y * vbe.pitch) (by omega),
    uint32_eq_of_lt (by omega)]
  exact ⟨rfl, by omega⟩

theorem Geometry.pixelAddress (hgeometry : Geometry vbe) (hx : x < vbe.width)
    (hy : y < vbe.height) :
    uint32 (vbe.framebuffer + y * vbe.pitch + x * (vbe.bpp / 8)) =
        vbe.framebuffer + y * vbe.pitch + x * (vbe.bpp / 8) ∧
      vbe.framebuffer + y * vbe.pitch + x * (vbe.bpp / 8) + vbe.bpp / 8 ≤
        vbe.framebuffer + vbe.height * vbe.pitch := by
  obtain ⟨-, hrow⟩ := hgeometry.rowAddress hy
  have hline := hgeometry.line
  have hpixel : x * (vbe.bpp / 8) + vbe.bpp / 8 ≤ vbe.width * (vbe.bpp / 8) :=
    row_le hx
  have hrange := hgeometry.range
  have hpos : 0 < vbe.bpp / 8 := by
    rcases hgeometry.bytes with ⟨hbytes, -⟩ | ⟨hbytes, -⟩ <;> omega
  rw [uint32_eq_of_lt (by omega)]
  exact ⟨rfl, by omega⟩

/-- An interval inside the framebuffer does not meet the rest of memory. -/
theorem disjoint_range {a n : ℕ} (hlo : vbe.framebuffer ≤ a)
    (hhi : a + n ≤ vbe.framebuffer + vbe.height * vbe.pitch) :
    Disjoint (Set.Ico a (a + n)) vbe.rangeᶜ :=
  Set.disjoint_compl_right_iff_subset.mpr (Set.Ico_subset_Ico hlo hhi)

end Addresses

/-! ## Steps -/

/-- `t'` comes from `t` by output that stores inside the framebuffer, and whose
loads stay inside if and only if `P`. -/
structure Emits (P : Prop) (t t' : State) : Prop where
  vbe : t'.vbe = t.vbe
  stores : WritesOutside t.vbe.rangeᶜ t.mem t'.mem
  loads : ∃ l, t'.loads = t.loads ++ l ∧ ((∀ x ∈ l, x.Inside t.vbe) ↔ P)

section Emits

variable {P Q : Prop} {t t' t'' : State}

theorem Emits.refl (t : State) : Emits True t t :=
  ⟨rfl, .refl _ _, [], by simp, by simp⟩

theorem Emits.trans (h : Emits P t t') (h' : Emits Q t' t'') :
    Emits (P ∧ Q) t t'' := by
  obtain ⟨hvbe, hstores, l, hl, hP⟩ := h
  obtain ⟨hvbe', hstores', l', hl', hQ⟩ := h'
  rw [hvbe] at hstores' hQ
  refine ⟨hvbe'.trans hvbe, hstores.trans hstores', l ++ l', ?_, ?_⟩
  · rw [hl', hl, List.append_assoc]
  · rw [List.forall_mem_append, hP, hQ]

theorem Emits.congr (h : Emits P t t') (hPQ : P ↔ Q) : Emits Q t t' :=
  ⟨h.vbe, h.stores, by simpa only [hPQ] using h.loads⟩

theorem emits_foldl {α : Type*} {f : State → α → State} {P : α → Prop}
    {I : State → Prop} {l : List α}
    (hstep : ∀ a ∈ l, ∀ t, I t → Emits (P a) t (f t a) ∧ I (f t a))
    (hI : I t) :
    Emits (∀ a ∈ l, P a) t (l.foldl f t) ∧ I (l.foldl f t) := by
  induction l generalizing t with
  | nil => exact ⟨(Emits.refl t).congr (by simp), hI⟩
  | cons a l ih =>
      obtain ⟨hfirst, hI'⟩ := hstep a List.mem_cons_self t hI
      obtain ⟨hrest, hI''⟩ :=
        ih (fun b hb => hstep b (List.mem_cons_of_mem a hb)) hI'
      refine ⟨(hfirst.trans hrest).congr ?_, hI''⟩
      rw [List.forall_mem_cons]

end Emits

/-! ## Pixels and rows -/

section Pixels

variable {t : State} {x y v : ℕ}

theorem putPixel_eq (x y color : ℕ) (t : State) :
    putPixel x y color t = { t with mem := (putPixel x y color t).mem } := by
  rw [putPixel]
  split_ifs <;> rfl

theorem putPixel_writesOutside (hgeometry : Geometry t.vbe)
    (hx : x < t.vbe.width) (hy : y < t.vbe.height) :
    WritesOutside t.vbe.rangeᶜ t.mem (putPixel x y v t).mem := by
  obtain ⟨haddress, hend⟩ := hgeometry.pixelAddress hx hy
  have hrange := hgeometry.range
  rw [putPixel, haddress]
  rcases hgeometry.bytes with ⟨hbytes, hbpp⟩ | ⟨hbytes, hbpp⟩
  · rw [hbytes] at hend ⊢
    rw [if_neg (by omega), if_pos hbpp]
    dsimp only
    rw [uint32_eq_of_lt (by omega), uint32_eq_of_lt (by omega)]
    refine (((WritesOutside.refl _ _).store8 ?_).store8 ?_).store8 ?_ <;>
      exact disjoint_range (by omega) (by omega)
  · rw [hbytes] at hend ⊢
    rw [if_pos hbpp]
    exact (WritesOutside.refl _ _).store32
      (disjoint_range (by omega) (by omega))

theorem clearRows_writesOutside {vbe : VbeModeInfo} (hgeometry : Geometry vbe)
    {ys : List ℕ} (hys : ∀ y ∈ ys, y < vbe.height) (m : Memory) :
    WritesOutside vbe.rangeᶜ m (clearRows vbe ys m) := by
  induction ys generalizing m with
  | nil => exact .refl _ _
  | cons y ys ih =>
      rw [List.forall_mem_cons] at hys
      obtain ⟨haddress, hend⟩ := hgeometry.rowAddress hys.1
      have hline := hgeometry.line
      have hfirst : WritesOutside vbe.rangeᶜ m
          (m.fill (vbe.framebuffer + y * vbe.pitch) 0
            (vbe.width * (vbe.bpp / 8))) :=
        (WritesOutside.refl _ _).fill (disjoint_range (by omega) (by omega))
      rw [clearRows, List.foldl_cons, haddress]
      exact hfirst.trans (ih hys.2 _)

end Pixels

/-! ## The cursor -/

section Cursor

variable {t : State}

/-- The last row of a scroll. -/
theorem Geometry.first {vbe : VbeModeInfo} (hgeometry : Geometry vbe) :
    sub32 vbe.height 10 = vbe.height - 10 := by
  have hheight := hgeometry.height
  have hlt := vbe.height_lt
  exact sub32_eq_of_le (by omega) (by omega)

theorem Geometry.last {vbe : VbeModeInfo} (hgeometry : Geometry vbe) :
    sub32 vbe.width 8 = vbe.width - 8 := by
  have hwidth := hgeometry.width
  have hlt := vbe.width_lt
  exact sub32_eq_of_le (by omega) (by omega)

/-- What a scroll copies. -/
theorem Geometry.block {vbe : VbeModeInfo} (hgeometry : Geometry vbe) :
    uint32 (vbe.framebuffer + uint32 (10 * vbe.pitch)) =
        vbe.framebuffer + 10 * vbe.pitch ∧
      uint32 ((vbe.height - 10) * vbe.pitch) =
        (vbe.height - 10) * vbe.pitch ∧
      10 * vbe.pitch + (vbe.height - 10) * vbe.pitch =
        vbe.height * vbe.pitch := by
  have hheight := hgeometry.height
  have hrange := hgeometry.range
  have hsplit : 10 * vbe.pitch + (vbe.height - 10) * vbe.pitch =
      vbe.height * vbe.pitch := by
    rw [← Nat.add_mul, Nat.add_sub_cancel' (by omega)]
  obtain ⟨haddress, hend⟩ := hgeometry.rowAddress (y := 10) (by omega)
  have hpos := hgeometry.line
  refine ⟨haddress, uint32_eq_of_lt ?_, hsplit⟩
  have hpitch : 0 < vbe.pitch := by
    have hwidth := hgeometry.width
    rcases hgeometry.bytes with ⟨hbytes, -⟩ | ⟨hbytes, -⟩ <;>
      (rw [hbytes] at hpos; omega)
  omega

@[simp] theorem terminalScroll_vbe : (terminalScroll t).vbe = t.vbe := by
  rw [terminalScroll]

@[simp] theorem terminalScroll_column :
    (terminalScroll t).column = t.column := by
  rw [terminalScroll]

theorem terminalScroll_row : (terminalScroll t).row = sub32 t.row 10 := by
  rw [terminalScroll]

theorem terminalScroll_emits (hgeometry : Geometry t.vbe) :
    Emits True t (terminalScroll t) := by
  obtain ⟨hsrc, hlen, hsplit⟩ := hgeometry.block
  have hheight := hgeometry.height
  simp only [terminalScroll, hgeometry.first, hsrc, hlen]
  refine ⟨rfl, ?_, _, rfl, ?_⟩
  · have hcopy : WritesOutside t.vbe.rangeᶜ t.mem
        (t.mem.copy t.vbe.framebuffer (t.vbe.framebuffer + 10 * t.vbe.pitch)
          ((t.vbe.height - 10) * t.vbe.pitch)) :=
      (WritesOutside.refl _ _).copy (disjoint_range le_rfl (by omega))
    apply hcopy.trans
    apply clearRows_writesOutside hgeometry
    intro y hy
    rw [List.mem_range'_1] at hy
    omega
  · rw [List.forall_mem_singleton, iff_true]
    exact Set.Ico_subset_Ico (by omega) (by omega)

/-- The state on a new line, before the scroll. -/
def lineBelow (t : State) : State :=
  { t with column := 0, row := t.row + 10 }

theorem newline_eq (hgeometry : Geometry t.vbe)
    (hrow : t.row + 10 < t.vbe.height) :
    newline t =
      if t.vbe.height - 10 ≤ t.row + 10 then terminalScroll (lineBelow t)
      else lineBelow t := by
  have hlt := t.vbe.height_lt
  rw [newline, uint32_eq_of_lt (by omega)]
  dsimp only
  rw [hgeometry.first, lineBelow]

theorem lineBelow_emits (t : State) : Emits True t (lineBelow t) :=
  ⟨rfl, .refl _ _, [], by simp [lineBelow], by simp⟩

theorem newline_emits (hgeometry : Geometry t.vbe)
    (hrow : t.row + 10 < t.vbe.height) :
    Emits True t (newline t) ∧ Placed (newline t) := by
  rw [newline_eq hgeometry hrow]
  have hheight := hgeometry.height
  have hwidth := hgeometry.width
  have hlt := t.vbe.height_lt
  have hmove := lineBelow_emits t
  have hgeometry' : Geometry (lineBelow t).vbe := hgeometry
  have hrow' : (lineBelow t).row = t.row + 10 := rfl
  split_ifs with hscroll
  · refine ⟨(hmove.trans (terminalScroll_emits hgeometry')).congr (by simp), ?_⟩
    constructor
    · rw [terminalScroll_vbe]
      exact hgeometry
    · rw [terminalScroll_vbe, terminalScroll_column]
      change 0 + 8 < t.vbe.width
      omega
    · rw [terminalScroll_vbe, terminalScroll_row, hrow',
        sub32_eq_of_le (by omega) (by omega)]
      change t.row + 10 - 10 + 10 < t.vbe.height
      omega
  · refine ⟨hmove, hgeometry, ?_, ?_⟩
    · change 0 + 8 < t.vbe.width
      omega
    · change t.row + 10 + 10 < t.vbe.height
      omega

end Cursor

/-! ## Characters -/

section Characters

variable {font : Font} {t : State} {index : ℤ} {row column : ℕ}
variable {ij : Fin 8 × ℕ} {c : BitVec 8} {data : List (BitVec 8)}

theorem mem_glyphBits_iff : ij ∈ glyphBits ↔ ij.2 < 8 := by
  simp [glyphBits, Prod.ext_iff]

/-- A bit of a glyph changes the memory, and one row of the glyph is read. -/
theorem putBit_eq (font : Font) (index : ℤ) (row column : ℕ) (t : State)
    (ij : Fin 8 × ℕ) :
    putBit font index row column t ij =
      { t with
        mem := (putBit font index row column t ij).mem
        loads := t.loads ++ [.glyph index] } := by
  rw [putBit]
  dsimp only
  split_ifs
  · rw [putPixel_eq]
  · rfl

theorem putBit_emits (hgeometry : Geometry t.vbe)
    (hcolumn : column + 8 < t.vbe.width) (hrow : row + 10 < t.vbe.height)
    (hj : ij.2 < 8) :
    Emits (0 ≤ index ∧ index < 128) t (putBit font index row column t ij) := by
  have hi := ij.1.isLt
  have hwidth := t.vbe.width_lt
  have hheight := t.vbe.height_lt
  rw [putBit_eq]
  refine ⟨rfl, ?_, _, rfl, List.forall_mem_singleton⟩
  rw [putBit]
  dsimp only
  rw [uint32_eq_of_lt (by omega), uint32_eq_of_lt (by omega)]
  split_ifs
  · exact putPixel_writesOutside (t := { t with loads := _ }) hgeometry
      (show column + ij.2 < t.vbe.width by omega)
      (show row + ij.1 < t.vbe.height by omega)
  · exact .refl _ _

/-- The cursor and the colour stay while a glyph is drawn. -/
structure SameCursor (t t' : State) : Prop where
  vbe : t'.vbe = t.vbe
  row : t'.row = t.row
  column : t'.column = t.column
  color : t'.color = t.color

theorem drawGlyph_emits (hplaced : Placed t) :
    Emits (0 ≤ index ∧ index < 128) t (drawGlyph font index t) ∧
      SameCursor t (drawGlyph font index t) := by
  obtain ⟨hgeometry, hcolumn, hrow⟩ := hplaced
  have hloop := emits_foldl (t := t) (l := glyphBits)
    (f := putBit font index t.row t.column) (I := SameCursor t)
    (P := fun _ => 0 ≤ index ∧ index < 128) ?_ ⟨rfl, rfl, rfl, rfl⟩
  · refine ⟨hloop.1.congr ⟨fun h => ?_, fun h _ _ => h⟩, hloop.2⟩
    exact h (0, 0) (mem_glyphBits_iff.mpr (by norm_num))
  · intro ij hij t' hsame
    rw [mem_glyphBits_iff] at hij
    constructor
    · apply putBit_emits
      · rwa [hsame.vbe]
      · rwa [hsame.vbe]
      · rwa [hsame.vbe]
      · exact hij
    · rw [putBit_eq]
      exact ⟨hsame.vbe, hsame.row, hsame.column, hsame.color⟩

/-- The state after the glyph of a character. -/
def afterGlyph (font : Font) (c : BitVec 8) (t : State) : State :=
  { drawGlyph font c.toInt t with column := t.column + 8 }

theorem terminalPutchar_eq (hplaced : Placed t) (hc : c ≠ 10) :
    terminalPutchar font t c =
      if t.vbe.width - 8 ≤ t.column + 8 then newline (afterGlyph font c t)
      else afterGlyph font c t := by
  obtain ⟨-, hsame⟩ := @drawGlyph_emits font t c.toInt hplaced
  have hcolumn := hplaced.column
  have hlt := t.vbe.width_lt
  rw [terminalPutchar, if_neg hc]
  dsimp only
  have hwidth : (drawGlyph font c.toInt t).vbe.width = t.vbe.width := by
    rw [hsame.vbe]
  rw [hsame.column, uint32_eq_of_lt (by omega), hwidth, hplaced.geometry.last,
    afterGlyph]

/-- A signed character is an index of the table if it is below `128`. -/
theorem index_iff : (0 ≤ c.toInt ∧ c.toInt < 128) ↔ c.toNat < 128 := by
  have hlt := c.isLt
  rw [BitVec.toInt_eq_toNat_cond]
  split_ifs <;> omega

/-- The glyph of a character is drawn inside the framebuffer, and it is in the
table if the character is below `128`. -/
theorem afterGlyph_emits (hplaced : Placed t) :
    Emits (c.toNat < 128) t (afterGlyph font c t) ∧
      (afterGlyph font c t).vbe = t.vbe ∧
      (afterGlyph font c t).row = t.row := by
  obtain ⟨hglyph, hsame⟩ :=
    @drawGlyph_emits font t c.toInt hplaced
  refine ⟨?_, hsame.vbe, hsame.row⟩
  rw [← index_iff]
  exact ⟨hglyph.vbe, hglyph.stores, hglyph.loads⟩

/-- A character is drawn inside the framebuffer, and its glyph is in the table
if it is below `128`. -/
theorem terminalPutchar_emits (hplaced : Placed t) :
    Emits (c.toNat < 128) t (terminalPutchar font t c) ∧
      Placed (terminalPutchar font t c) := by
  have hgeometry := hplaced.geometry
  have hrow := hplaced.row
  by_cases hc : c = 10
  · obtain ⟨hnewline, hplaced'⟩ := newline_emits hgeometry hrow
    rw [terminalPutchar, if_pos hc]
    exact ⟨hnewline.congr (by simp [hc]), hplaced'⟩
  · obtain ⟨hglyph, hvbe, hrow'⟩ := afterGlyph_emits (c := c) hplaced
    have hcolumn' : (afterGlyph font c t).column = t.column + 8 := rfl
    rw [terminalPutchar_eq hplaced hc]
    split_ifs with hfull
    · obtain ⟨hnewline, hplaced'⟩ := @newline_emits (afterGlyph font c t)
        (by rwa [hvbe]) (by rwa [hvbe, hrow'])
      exact ⟨(hglyph.trans hnewline).congr (by simp), hplaced'⟩
    · refine ⟨hglyph, ?_, ?_, ?_⟩
      · rwa [hvbe]
      · rw [hvbe, hcolumn']
        omega
      · rwa [hvbe, hrow']

theorem terminalInitialize_emits {vbe : VbeModeInfo}
    (hgeometry : Geometry vbe) (mem : Memory) :
    WritesOutside vbe.rangeᶜ mem (terminalInitialize vbe mem).mem ∧
      Placed (terminalInitialize vbe mem) := by
  have hwidth := hgeometry.width
  have hheight := hgeometry.height
  constructor
  · exact clearRows_writesOutside hgeometry (fun y hy => List.mem_range.mp hy) mem
  · refine ⟨hgeometry, ?_, ?_⟩
    · change 0 + 8 < vbe.width
      omega
    · change 0 + 10 < vbe.height
      omega

end Characters

/-! ## A mode -/

/-- The mode that the boot loader asks for. -/
def xga : VbeModeInfo where
  framebuffer := 0xFD000000
  pitch := 4096
  width := 1024
  height := 768
  bpp := 32
  framebuffer_lt := by norm_num
  pitch_lt := by norm_num
  width_lt := by norm_num
  height_lt := by norm_num
  bpp_lt := by norm_num

theorem geometry_xga : Geometry xga := by
  constructor <;> norm_num [xga]

end BabOs.Terminal
