import BabOs.Terminal.Pixels

/-!
# The lines on the screen

The framebuffer shows the last lines of the text.  A character only sets pixels,
so what carries the result is that the band of the cursor is blank to the right
of the cursor, and that a scroll leaves a blank band at the bottom.
-/

namespace BabOs.Terminal

abbrev Line := List (Fin 128)

def byte (c : Fin 128) : BitVec 8 := BitVec.ofNat 8 c

/-- The lines of a text of which `line` has been read: a line ends at a newline,
and when the column after a character is `width - 8` or more. -/
def splitLines (width : ℕ) : (line : Line) → List (Fin 128) → List Line
  | line, [] => [line]
  | line, c :: text =>
      if c = 10 then line :: splitLines width [] text
      else if width - 8 ≤ 8 * (line ++ [c]).length then
        (line ++ [c]) :: splitLines width [] text
      else splitLines width (line ++ [c]) text

/-- The number of multiples of `10` below `height - 10`. -/
def bandCount (height : ℕ) : ℕ :=
  ((List.range (height - 10)).filter (10 ∣ ·)).length

/-- The last lines, as many as there are bands. -/
def shownLines (height : ℕ) (lines : List Line) : List Line :=
  lines.drop (lines.length - bandCount height)

/-- The pixel `(x, y)` lies on a set bit of the glyph of the character at column
`x / 8` of the line in band `y / 10`. -/
def Lit (font : Font) (shown : List Line) (x y : ℕ) : Prop :=
  ∃ text c, shown[y / 10]? = some text ∧ text[x / 8]? = some c ∧
    ∃ i : Fin 8, y % 10 = i ∧
      (font.basic c i).toNat &&& (0x80 >>> (x % 8)) ≠ 0

/-! ## Bands -/

section Bands

variable {height : ℕ} {lines : List Line} {line : Line}

theorem length_multiples (n : ℕ) :
    ((List.range n).filter (10 ∣ ·)).length = (n + 9) / 10 := by
  induction n with
  | zero => rfl
  | succ n ih =>
      rw [List.range_succ, List.filter_append, List.length_append, ih]
      by_cases hn : 10 ∣ n
      · rw [List.filter_cons_of_pos (by simpa using hn)]
        simp only [List.filter_nil, List.length_singleton]
        omega
      · rw [List.filter_cons_of_neg (by simpa using hn)]
        simp only [List.filter_nil, List.length_nil]
        omega

/-- The bands are those that a cursor above the last ten rows can be in. -/
theorem bandCount_bounds (hheight : 20 ≤ height) :
    0 < bandCount height ∧ 10 * bandCount height < height ∧
      height ≤ 10 * bandCount height + 10 := by
  rw [bandCount, length_multiples]
  omega

theorem shownLines_snoc (hheight : 20 ≤ height) (done : List Line)
    (line : Line) :
    ∃ above, shownLines height (done ++ [line]) = above ++ [line] ∧
      above.length + 1 = min (bandCount height) (done.length + 1) ∧
      ∀ line', shownLines height (done ++ [line']) = above ++ [line'] := by
  have hpos := (bandCount_bounds hheight).1
  have hshown : ∀ line', shownLines height (done ++ [line']) =
      done.drop (done.length + 1 - bandCount height) ++ [line'] := by
    intro line'
    rw [shownLines, List.length_append, List.length_singleton,
      List.drop_append_of_le_length (by omega)]
  refine ⟨_, hshown line, ?_, hshown⟩
  rw [List.length_drop]
  omega

end Bands

/-! ## Lit pixels -/

section Lit

variable {font : Font} {shown above : List Line} {line : Line} {c : Fin 128}
variable {x y : ℕ}

theorem not_lit_of_le (h : shown.length ≤ y / 10) : ¬Lit font shown x y := by
  rintro ⟨line, c, hline, -⟩
  rw [List.getElem?_eq_none h] at hline
  cases hline

theorem lit_snoc_nil : Lit font (shown ++ [[]]) x y ↔ Lit font shown x y := by
  rcases Nat.lt_or_ge (y / 10) shown.length with hy | hy
  · rw [Lit, Lit, List.getElem?_append_left hy]
  · refine iff_of_false ?_ (not_lit_of_le hy)
    rintro ⟨line, c, hline, hc, -⟩
    rw [List.getElem?_append_right hy, List.getElem?_singleton] at hline
    split_ifs at hline
    obtain rfl := Option.some.inj hline
    cases hc

/-- Without its first line the screen is ten rows higher. -/
theorem lit_tail : Lit font shown.tail x y ↔ Lit font shown x (y + 10) := by
  have hdiv : (y + 10) / 10 = y / 10 + 1 := by omega
  have hmod : (y + 10) % 10 = y % 10 := by omega
  rw [Lit, Lit, hdiv, hmod, List.getElem?_tail]

/-- A character at the end of the last line adds its glyph. -/
theorem lit_snoc :
    Lit font (above ++ [line ++ [c]]) x y ↔
      Lit font (above ++ [line]) x y ∨
        (y / 10 = above.length ∧ x / 8 = line.length ∧
          ∃ i : Fin 8, y % 10 = i ∧
            (font.basic c i).toNat &&& (0x80 >>> (x % 8)) ≠ 0) := by
  rcases Nat.lt_trichotomy (y / 10) above.length with hy | hy | hy
  · have hne : y / 10 ≠ above.length := hy.ne
    simp only [Lit, List.getElem?_append_left hy, hne, false_and, or_false]
  · have hband (l : Line) : (above ++ [l])[above.length]? = some l := by
      rw [List.getElem?_append_right le_rfl, Nat.sub_self]
      rfl
    simp only [Lit, hy, hband, Option.some.injEq, true_and]
    constructor
    · rintro ⟨_, d, rfl, hd, hbit⟩
      rcases Nat.lt_trichotomy (x / 8) line.length with hx | hx | hx
      · rw [List.getElem?_append_left hx] at hd
        exact Or.inl ⟨line, d, rfl, hd, hbit⟩
      · rw [hx, List.getElem?_append_right le_rfl, Nat.sub_self] at hd
        obtain rfl := Option.some.inj hd
        exact Or.inr ⟨hx, hbit⟩
      · rw [List.getElem?_eq_none (by simpa using hx)] at hd
        cases hd
    · rintro (⟨_, d, rfl, hd, hbit⟩ | ⟨hx, hbit⟩)
      · have hlt := (List.getElem?_eq_some_iff.mp hd).1
        rw [← List.getElem?_append_left hlt] at hd
        exact ⟨_, d, rfl, hd, hbit⟩
      · refine ⟨_, c, rfl, ?_, hbit⟩
        rw [hx, List.getElem?_append_right le_rfl, Nat.sub_self]
        rfl
  · have hne : y / 10 ≠ above.length := hy.ne'
    have hlen (l : Line) : (above ++ [l]).length ≤ y / 10 := by
      rw [List.length_append, List.length_singleton]
      exact hy
    simp only [not_lit_of_le (hlen _), hne, false_and, or_false]

end Lit

/-! ## The screen -/

section Screen

variable {font : Font} {lines done : List Line} {line : Line} {c : Fin 128}
variable {t : State} {x y : ℕ}

/-- The framebuffer shows the last of `lines`, and the cursor is in the band of
the last one. -/
structure Screen (font : Font) (lines : List Line) (t : State) : Prop where
  mode : TrueColor t.vbe
  color : t.color = 0x00FFFFFF
  row : t.row + 10 = 10 * min (bandCount t.vbe.height) lines.length
  lit : ∀ x y, x < t.vbe.width → y < t.vbe.height →
    Lit font (shownLines t.vbe.height lines) x y →
      pixel t.vbe t.mem x y = t.color
  blank : ∀ x y, x < t.vbe.width → y < t.vbe.height →
    ¬Lit font (shownLines t.vbe.height lines) x y → pixel t.vbe t.mem x y = 0

theorem Screen.row_lt (h : Screen font lines t) :
    t.row + 10 < t.vbe.height := by
  have hrow := h.row
  have hbands := bandCount_bounds h.mode.height
  omega

theorem row_byte (font : Font) (c : Fin 128) (i : Fin 8) :
    font.row (byte c).toInt i = font.basic c i := by
  have hlt := c.isLt
  have hindex : (byte c).toInt = c := by
    rw [byte, BitVec.toInt_eq_toNat_cond, BitVec.toNat_ofNat]
    omega
  have hrange : 0 ≤ (byte c).toInt ∧ (byte c).toInt < 128 := by omega
  rw [Font.row, dif_pos hrange]
  congr
  omega

theorem exists_covers_iff {band column : ℕ} :
    (∃ ij ∈ glyphBits,
        font.covers (byte c).toInt (10 * band) (8 * column) x y ij) ↔
      y / 10 = band ∧ x / 8 = column ∧
        ∃ i : Fin 8, y % 10 = i ∧
          (font.basic c i).toNat &&& (0x80 >>> (x % 8)) ≠ 0 := by
  constructor
  · rintro ⟨⟨i, j⟩, hij, hbit, hx, hy⟩
    rw [mem_glyphBits_iff] at hij
    rw [Font.bit, row_byte] at hbit
    dsimp only at hij hx hy hbit
    have hi := i.isLt
    have hmod : x % 8 = j := by omega
    exact ⟨by omega, by omega, i, by omega, hmod.symm ▸ hbit⟩
  · rintro ⟨hy, hx, i, hi, hbit⟩
    refine ⟨(i, x % 8), mem_glyphBits_iff.mpr (by omega), ?_, ?_, ?_⟩
    · rwa [Font.bit, row_byte]
    · dsimp only
      omega
    · dsimp only
      omega

theorem Screen.afterGlyph (h : Screen font (done ++ [line]) t)
    (hplaced : Placed t) (hcolumn : t.column = 8 * line.length) (c : Fin 128) :
    Screen font (done ++ [line ++ [c]]) (Terminal.afterGlyph font (byte c) t) := by
  obtain ⟨above, hshown, habove, hshown'⟩ :=
    shownLines_snoc h.mode.height done line
  have hrow : t.row = 10 * above.length := by
    have hrow := h.row
    rw [List.length_append, List.length_singleton, ← habove] at hrow
    omega
  obtain ⟨-, hsame⟩ := @drawGlyph_emits font t (byte c).toInt hplaced
  have hvbe : (Terminal.afterGlyph font (byte c) t).vbe = t.vbe := hsame.vbe
  have hcolor : (Terminal.afterGlyph font (byte c) t).color = t.color :=
    hsame.color
  have hword : uint32 t.color = t.color := by
    rw [h.color]
    rfl
  have hpixel : ∀ x y, x < t.vbe.width →
      pixel t.vbe (Terminal.afterGlyph font (byte c) t).mem x y = _ :=
    fun x y hx => pixel_drawGlyph (y := y) h.mode hplaced hx
  rw [hrow, hcolumn, hword] at hpixel
  simp only [exists_covers_iff] at hpixel
  constructor
  · rw [hvbe]
    exact h.mode
  · rw [hcolor]
    exact h.color
  · have hrow' : (Terminal.afterGlyph font (byte c) t).row = t.row := hsame.row
    have hlen : (done ++ [line ++ [c]]).length = (done ++ [line]).length := by
      rw [List.length_append, List.length_append]
      rfl
    rw [hvbe, hrow', hlen]
    exact h.row
  · rw [hvbe, hcolor]
    intro x y hx hy hlit
    rw [hshown', lit_snoc] at hlit
    rw [hpixel x y hx]
    split_ifs with hcovers
    · rfl
    · apply h.lit x y hx hy
      rw [hshown]
      exact hlit.resolve_right hcovers
  · rw [hvbe]
    intro x y hx hy hlit
    rw [hshown', lit_snoc, not_or] at hlit
    rw [hpixel x y hx, if_neg hlit.2]
    apply h.blank x y hx hy
    rw [hshown]
    exact hlit.1

theorem Screen.lineBelow (h : Screen font lines t)
    (hfew : lines.length < bandCount t.vbe.height) :
    Screen font (lines ++ [[]]) (Terminal.lineBelow t) := by
  have hshown (k : List Line) (hk : k.length ≤ bandCount t.vbe.height) :
      shownLines t.vbe.height k = k := by
    rw [shownLines, Nat.sub_eq_zero_of_le hk, List.drop_zero]
  have hlen : (lines ++ [[]]).length = lines.length + 1 :=
    List.length_append
  have hlit {x y : ℕ} :
      Lit font (shownLines t.vbe.height (lines ++ [[]])) x y ↔
        Lit font (shownLines t.vbe.height lines) x y := by
    rw [hshown _ (by omega), hshown _ (by omega), lit_snoc_nil]
  refine ⟨h.mode, h.color, ?_, ?_, ?_⟩
  · have hrow := h.row
    change t.row + 10 + 10 = 10 * min (bandCount t.vbe.height) _
    omega
  · intro x y hx hy hlit'
    exact h.lit x y hx hy (hlit.mp hlit')
  · intro x y hx hy hlit'
    exact h.blank x y hx hy (mt hlit.mpr hlit')

theorem Screen.scroll (h : Screen font lines t)
    (hmany : bandCount t.vbe.height ≤ lines.length) :
    Screen font (lines ++ [[]]) (terminalScroll (Terminal.lineBelow t)) := by
  have hheight := h.mode.height
  have hbands := bandCount_bounds hheight
  have hlen : (lines ++ [[]]).length = lines.length + 1 :=
    List.length_append
  have hshown : shownLines t.vbe.height (lines ++ [[]]) =
      (shownLines t.vbe.height lines).tail ++ [[]] := by
    rw [shownLines, shownLines, hlen, List.tail_drop,
      List.drop_append_of_le_length (by omega)]
    congr 2
    omega
  have htail : (shownLines t.vbe.height lines).tail.length + 1 =
      bandCount t.vbe.height := by
    rw [shownLines, List.length_tail, List.length_drop]
    omega
  have hmode : TrueColor (Terminal.lineBelow t).vbe := h.mode
  have hpixel {x y : ℕ} (hx : x < t.vbe.width) (hy : y < t.vbe.height) :
      pixel t.vbe (terminalScroll (Terminal.lineBelow t)).mem x y = _ :=
    pixel_terminalScroll hmode hx hy
  have hcolor : (terminalScroll (Terminal.lineBelow t)).color = t.color := by
    rw [terminalScroll]
    rfl
  constructor
  · rw [terminalScroll_vbe]
    exact h.mode
  · rw [hcolor]
    exact h.color
  · have hrow := h.row
    have hlt := h.row_lt
    have hword := t.vbe.height_lt
    have hbelow : (Terminal.lineBelow t).row = t.row + 10 := rfl
    rw [terminalScroll_row, terminalScroll_vbe, hbelow,
      sub32_eq_of_le (by omega) (by omega), hlen]
    change t.row + 10 - 10 + 10 = 10 * min (bandCount t.vbe.height) _
    omega
  · rw [terminalScroll_vbe, hcolor]
    intro x y hx hy hlit
    change Lit font (shownLines t.vbe.height _) x y at hlit
    change pixel t.vbe _ x y = _
    rw [hshown, lit_snoc_nil] at hlit
    have hband : y / 10 < (shownLines t.vbe.height lines).tail.length := by
      by_contra hge
      exact not_lit_of_le (not_lt.mp hge) hlit
    rw [hpixel hx hy, if_pos (by omega)]
    apply h.lit x (y + 10) hx (by omega)
    exact lit_tail.mp hlit
  · rw [terminalScroll_vbe]
    intro x y hx hy hlit
    change ¬Lit font (shownLines t.vbe.height _) x y at hlit
    change pixel t.vbe _ x y = _
    rw [hshown, lit_snoc_nil, lit_tail] at hlit
    rw [hpixel hx hy]
    split_ifs with hmoved
    · change y < t.vbe.height - 10 at hmoved
      exact h.blank x (y + 10) hx (by omega) hlit
    · rfl

theorem Screen.newline (h : Screen font lines t) :
    Screen font (lines ++ [[]]) (Terminal.newline t) ∧
      (Terminal.newline t).column = 0 := by
  have hrow := h.row
  have hbands := bandCount_bounds h.mode.height
  rw [newline_eq h.mode.geometry h.row_lt]
  split_ifs with hscroll
  · refine ⟨h.scroll (by omega), ?_⟩
    rw [terminalScroll_column]
    rfl
  · exact ⟨h.lineBelow (by omega), rfl⟩

/-! ## Text -/

/-- `terminal_putchar` for each character of the text. -/
def putText (font : Font) (text : List (Fin 128)) (t : State) : State :=
  text.foldl (fun t c => terminalPutchar font t (byte c)) t

theorem byte_eq_iff : byte c = 10 ↔ c = 10 := by
  have hlt := c.isLt
  rw [byte, ← BitVec.toNat_inj, BitVec.toNat_ofNat, Nat.mod_eq_of_lt (by omega)]
  exact (Fin.ext_iff (b := 10)).symm

theorem Screen.putchar (h : Screen font (done ++ [line]) t) (hplaced : Placed t)
    (hcolumn : t.column = 8 * line.length) (c : Fin 128) :
    ∃ done' line', Screen font (done' ++ [line'])
        (terminalPutchar font t (byte c)) ∧
      (terminalPutchar font t (byte c)).column = 8 * line'.length ∧
      ∀ text, done ++ splitLines t.vbe.width line (c :: text) =
        done' ++ splitLines t.vbe.width line' text := by
  by_cases hc : c = 10
  · obtain ⟨hscreen, hcolumn'⟩ := h.newline
    rw [terminalPutchar, if_pos (byte_eq_iff.mpr hc)]
    refine ⟨_, [], hscreen, hcolumn', fun text => ?_⟩
    rw [splitLines, if_pos hc, List.append_assoc, List.singleton_append]
  · have hscreen := h.afterGlyph hplaced hcolumn c
    have hwidth := h.mode.width
    have hlen : (line ++ [c]).length = line.length + 1 := List.length_append
    rw [terminalPutchar_eq hplaced (mt byte_eq_iff.mp hc)]
    split_ifs with hfull
    · obtain ⟨hscreen', hcolumn'⟩ := hscreen.newline
      refine ⟨_, [], hscreen', hcolumn', fun text => ?_⟩
      rw [splitLines, if_neg hc, if_pos (by omega), List.append_assoc,
        List.singleton_append]
    · refine ⟨done, _, hscreen, ?_, fun text => ?_⟩
      · change t.column + 8 = _
        omega
      · rw [splitLines, if_neg hc, if_neg (by omega)]

theorem Screen.putText (h : Screen font (done ++ [line]) t) (hplaced : Placed t)
    (hcolumn : t.column = 8 * line.length) (text : List (Fin 128)) :
    Screen font (done ++ splitLines t.vbe.width line text)
        (Terminal.putText font text t) ∧
      (Terminal.putText font text t).vbe = t.vbe := by
  induction text generalizing t done line with
  | nil => exact ⟨h, rfl⟩
  | cons c text ih =>
      obtain ⟨hemits, hplaced'⟩ :=
        @terminalPutchar_emits font t (byte c) hplaced
      obtain ⟨done', line', h', hcolumn', hlines⟩ :=
        h.putchar hplaced hcolumn c
      obtain ⟨hscreen, hvbe⟩ := ih h' hplaced' hcolumn'
      rw [hemits.vbe] at hscreen hvbe
      rw [hlines]
      exact ⟨hscreen, hvbe⟩

theorem screen_terminalInitialize {vbe : VbeModeInfo} (hmode : TrueColor vbe)
    (mem : Memory) : Screen font ([] ++ [[]]) (terminalInitialize vbe mem) := by
  have hbands := bandCount_bounds hmode.height
  have hblank : ∀ x y,
      ¬Lit font (shownLines vbe.height ([] ++ [[]])) x y := by
    intro x y
    have hone : ([] ++ [[]] : List Line).length ≤ bandCount vbe.height :=
      hbands.1
    rw [shownLines, Nat.sub_eq_zero_of_le hone, List.drop_zero, lit_snoc_nil]
    exact not_lit_of_le (Nat.zero_le _)
  have hrow : 0 + 10 = 10 * min (bandCount vbe.height) 1 := by omega
  refine ⟨hmode, rfl, hrow, ?_, ?_⟩
  · intro x y hx hy hlit
    exact absurd hlit (hblank x y)
  · intro x y hx hy hlit
    change x < vbe.width at hx
    change y < vbe.height at hy
    have hpixel := pixel_clearRows (m := mem) (y := y) hmode hx
      (fun y' => List.mem_range.mp)
    rw [if_pos (List.mem_range.mpr hy)] at hpixel
    exact hpixel

/-- A visible pixel has the colour of the terminal exactly when it lies on a set
bit of a glyph, and all others are `0`. -/
theorem Screen.shows (h : Screen font lines t) (hx : x < t.vbe.width)
    (hy : y < t.vbe.height) :
    (pixel t.vbe t.mem x y = t.color ↔
        Lit font (shownLines t.vbe.height lines) x y) ∧
      (pixel t.vbe t.mem x y ≠ t.color → pixel t.vbe t.mem x y = 0) := by
  have hcolor : t.color ≠ 0 := by
    rw [h.color]
    norm_num
  have hlit := h.lit x y hx hy
  have hblank := h.blank x y hx hy
  refine ⟨⟨fun hpixel => ?_, hlit⟩, fun hpixel => hblank (mt hlit hpixel)⟩
  by_contra hnot
  exact hcolor (hpixel.symm.trans (hblank hnot))

theorem screen_putText {vbe : VbeModeInfo} (hmode : TrueColor vbe) (font : Font)
    (mem : Memory) (text : List (Fin 128)) :
    let t := Terminal.putText font text (terminalInitialize vbe mem)
    Screen font (splitLines vbe.width [] text) t ∧ t.vbe = vbe := by
  obtain ⟨-, hplaced⟩ := terminalInitialize_emits hmode.geometry mem
  exact (@screen_terminalInitialize font vbe hmode mem).putText hplaced rfl text

end Screen

/-- The framebuffer shows the last lines of the text: a visible pixel has the
colour of the terminal exactly when it lies on a set bit of a glyph, and all
others are `0`. -/
theorem putText_shows {vbe : VbeModeInfo} (hmode : TrueColor vbe) (font : Font)
    (mem : Memory) (text : List (Fin 128)) {x y : ℕ} (hx : x < vbe.width)
    (hy : y < vbe.height) :
    let t := putText font text (terminalInitialize vbe mem)
    let shown := shownLines vbe.height (splitLines vbe.width [] text)
    (pixel vbe t.mem x y = t.color ↔ Lit font shown x y) ∧
      (pixel vbe t.mem x y ≠ t.color → pixel vbe t.mem x y = 0) := by
  intro t shown
  obtain ⟨hscreen, hvbe⟩ := screen_putText hmode font mem text
  have hshows := hscreen.shows (x := x) (y := y)
  rw [hvbe] at hshows
  exact hshows hx hy

theorem trueColor_xga : TrueColor xga := by
  constructor <;> norm_num [xga]

/-- A text of 78 lines, of which the last but one is full. -/
def scrolledText : List (Fin 128) :=
  List.replicate 76 10 ++ List.replicate 128 0x41

theorem shownLines_scrolledText :
    shownLines xga.height (splitLines xga.width [] scrolledText) =
      List.replicate 74 [] ++ [List.replicate 127 0x41, [0x41]] := by
  have hbands : bandCount xga.height = 76 := length_multiples 758
  rw [shownLines, hbands]
  decide +kernel

/-- After a scroll and a wrap the last line shows one letter. -/
theorem putText_shows_lastLine :
    ∃ font mem t, t = putText font scrolledText (terminalInitialize xga mem) ∧
      pixel xga t.mem 3 754 = t.color ∧ pixel xga t.mem 11 754 = 0 := by
  let font : Font := ⟨fun _ _ => 0xFF, fun _ _ => 0⟩
  let mem : Memory := ⟨fun _ => 0, []⟩
  have hletter := putText_shows (x := 3) (y := 754) trueColor_xga font mem
    scrolledText (by norm_num [xga]) (by norm_num [xga])
  have hblank := putText_shows (x := 11) (y := 754) trueColor_xga font mem
    scrolledText (by norm_num [xga]) (by norm_num [xga])
  rw [shownLines_scrolledText] at hletter hblank
  refine ⟨font, mem, _, rfl,
    hletter.1.mpr ⟨[0x41], 0x41, rfl, rfl, 4, rfl, by decide⟩,
    hblank.2 fun hpixel => ?_⟩
  obtain ⟨line, c, hline, hc, -⟩ := hblank.1.mp hpixel
  obtain rfl : [0x41] = line := Option.some.inj hline
  cases hc

end BabOs.Terminal
