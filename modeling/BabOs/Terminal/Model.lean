import BabOs.Library.Copy
import Mathlib.Data.Nat.Digits.Defs

/-!
# The framebuffer terminal

This module embeds `terminal.c`.  The cursor, the colour and the addresses are
words of 32 bits; a product of two `int`s that does not fit wraps around, as it
does in the compiled kernel.
-/

namespace BabOs.Terminal

open Memory

/-- The fields of `vbe_mode_info` that the terminal reads. -/
structure VbeModeInfo where
  framebuffer : ℕ
  pitch : ℕ
  width : ℕ
  height : ℕ
  bpp : ℕ
  framebuffer_lt : framebuffer < 2 ^ 32
  pitch_lt : pitch < 2 ^ 16
  width_lt : width < 2 ^ 16
  height_lt : height < 2 ^ 16
  bpp_lt : bpp < 2 ^ 8

/-- `font8x8_basic`, and the bytes that lie around it. -/
structure Font where
  basic : Fin 128 → Fin 8 → UInt8
  around : ℤ → Fin 8 → UInt8

/-- `font8x8_basic[index][i]` -/
def Font.row (font : Font) (index : ℤ) (i : Fin 8) : UInt8 :=
  if h : 0 ≤ index ∧ index < 128 then font.basic ⟨index.toNat, by omega⟩ i
  else font.around index i

/-- A read of a glyph row, or of the source of a block copy. -/
inductive Load where
  | glyph (index : ℤ)
  | block (start len : ℕ)
  deriving DecidableEq

/-- The variables of the terminal, the memory, and the loads made. -/
structure State where
  vbe : VbeModeInfo
  row : ℕ
  column : ℕ
  color : ℕ
  mem : Memory
  loads : List Load

/-! ## Pixels -/

def putPixel (x y color : ℕ) (t : State) : State :=
  let ptr := uint32 (t.vbe.framebuffer + y * t.vbe.pitch +
    x * (t.vbe.bpp / 8))
  if t.vbe.bpp = 32 then { t with mem := t.mem.store32 ptr color }
  else if t.vbe.bpp = 24 then
    { t with
      mem := ((t.mem.store8 ptr (color &&& 0xFF)).store8 (uint32 (ptr + 1))
        ((color >>> 8) &&& 0xFF)).store8 (uint32 (ptr + 2))
          ((color >>> 16) &&& 0xFF) }
  else t

/-- The loops that clear the visible part of the rows `ys`. -/
def clearRows (vbe : VbeModeInfo) (ys : List ℕ) (m : Memory) : Memory :=
  ys.foldl (fun m y =>
    m.fill (uint32 (vbe.framebuffer + uint32 (y * vbe.pitch))) 0
      (vbe.width * (vbe.bpp / 8))) m

def terminalClear (t : State) : State :=
  { t with mem := clearRows t.vbe (List.range t.vbe.height) t.mem }

def terminalInitialize (vbe : VbeModeInfo) (mem : Memory) : State :=
  terminalClear
    { vbe := vbe, row := 0, column := 0, color := 0x00FFFFFF, mem := mem
      loads := [] }

def terminalScroll (t : State) : State :=
  let rowHeight := 10
  let fb := t.vbe.framebuffer
  let pitch := t.vbe.pitch
  let screenHeight := t.vbe.height
  let src := uint32 (fb + uint32 (rowHeight * pitch))
  let len := uint32 (sub32 screenHeight rowHeight * pitch)
  let first := sub32 screenHeight rowHeight
  { t with
    mem := clearRows t.vbe (List.range' first (screenHeight - first))
      (t.mem.copy fb src len)
    loads := t.loads ++ [.block src len]
    row := sub32 t.row rowHeight }

/-! ## Characters -/

section Output

variable (font : Font)

def Font.bit (font : Font) (index : ℤ) (ij : Fin 8 × ℕ) : Prop :=
  (font.row index ij.1).toNat &&& (0x80 >>> ij.2) ≠ 0

instance {index : ℤ} {ij : Fin 8 × ℕ} : Decidable (font.bit index ij) :=
  inferInstanceAs (Decidable (_ ≠ _))

/-- The body of the loops over the glyph; `glyph[i]` is read each time. -/
def putBit (index : ℤ) (row column : ℕ) (t : State) (ij : Fin 8 × ℕ) : State :=
  let t := { t with loads := t.loads ++ [.glyph index] }
  if font.bit index ij then
    putPixel (uint32 (column + ij.2)) (uint32 (row + ij.1)) t.color t
  else t

/-- The values of `i` and `j` in the loops over the glyph. -/
def glyphBits : List (Fin 8 × ℕ) :=
  (List.finRange 8).flatMap fun i => (List.range 8).map fun j => (i, j)

/-- The loops over the glyph. -/
def drawGlyph (index : ℤ) (t : State) : State :=
  glyphBits.foldl (putBit font index t.row t.column) t

/-- The start of a new line. -/
def newline (t : State) : State :=
  let t := { t with column := 0, row := uint32 (t.row + 10) }
  if sub32 t.vbe.height 10 ≤ t.row then terminalScroll t else t

/-- `terminal_putchar`; a `char` is signed. -/
def terminalPutchar (t : State) (c : BitVec 8) : State :=
  if c = 10 then newline t
  else
    let t := drawGlyph font c.toInt t
    let t := { t with column := uint32 (t.column + 8) }
    if sub32 t.vbe.width 8 ≤ t.column then newline t else t

def terminalWrite (data : List (BitVec 8)) (t : State) : State :=
  data.foldl (terminalPutchar font) t

/-- `terminal_writestring`, for the bytes that `data` points to; a list that
ends stands for a string that does. -/
def terminalWritestring : (data : List (BitVec 8)) → State → State
  | [], t => t
  | c :: data, t =>
      if c = 0 then t else terminalWritestring data (terminalPutchar font t c)

def itoa (value : BitVec 32) (base : ℕ) : List (BitVec 8) :=
  if base < 2 ∨ 36 < base then []
  else
    let negative := value.toInt < 0 ∧ base = 10
    let v := if negative then (-value).toNat else value.toNat
    let digit (d : ℕ) : BitVec 8 :=
      BitVec.ofNat 8 (if d < 10 then d + 48 else d - 10 + 97)
    (if negative then [45] else []) ++
      if v = 0 then [48] else ((Nat.digits base v).map digit).reverse

/-- An argument of `printf`. -/
inductive Arg where
  | string (s : List (BitVec 8))
  | word (v : BitVec 32)

/-- `printf`; `none` where the arguments do not fit the format. -/
def printf : (format : List (BitVec 8)) → List Arg → State → Option State
  | [], _, t => some t
  | c :: format, args, t =>
      if c = 0 then some t
      else if c = 0x25 then
        match format, args with
        | [], _ => none
        | 0x73 :: format, .string s :: args =>
            printf format args (terminalWritestring font s t)
        | 0x64 :: format, .word d :: args =>
            printf format args (terminalWritestring font (itoa d 10) t)
        | 0x78 :: format, .word x :: args =>
            printf format args (terminalWritestring font (itoa x 16)
              (terminalWritestring font [0x30, 0x78] t))
        | 0x63 :: format, .word c :: args =>
            printf format args (terminalPutchar font t (c.setWidth 8))
        | 0x25 :: format, args => printf format args (terminalPutchar font t 0x25)
        | d :: format, args =>
            if d = 0 ∨ d ∈ [0x73, 0x64, 0x78, 0x63] then none
            else printf format args t
      else printf format args (terminalPutchar font t c)

end Output

end BabOs.Terminal
