import BabOs.Common.Itoa

/-!
# `printf` and its format

This module embeds `printf` of `terminal.c` together with the pointer that it
moves over the format.  The bytes of the format are read from memory, so that
nothing keeps the pointer from passing the end of the string.
-/

namespace BabOs.Terminal.Printf

open Memory

/-- What a call finds on the stack: the words of its arguments, and the
buffers of `%d` and `%x`. -/
structure Frame where
  arg : ℕ → BitVec 32
  decimal : ℕ
  hex : ℕ

def Frame.buffers (frame : Frame) : Set ℕ :=
  Set.Ico frame.decimal (frame.decimal + 32) ∪
    Set.Ico frame.hex (frame.hex + 32)

/-- The pointer into the format, the number of arguments taken so far and the
memory; and the addresses at which the format was read and the bytes that were
sent to the terminal. -/
structure State where
  format : ℕ
  taken : ℕ
  mem : Memory
  reads : List ℕ
  output : List UInt8

/-- `*format` -/
def State.char (p : State) : UInt8 := p.mem.byte p.format

/-- The byte at the pointer has been read. -/
def State.look (p : State) : State :=
  { p with reads := p.reads ++ [p.format] }

/-- `terminal_putchar`, for each of the bytes. -/
def State.send (p : State) (cs : List UInt8) : State :=
  { p with output := p.output ++ cs }

/-- `format++` -/
def State.advance (p : State) : State := { p with format := p.format + 1 }

/-- The bytes that `terminal_writestring` sends. -/
def writestring (m : Memory) : (fuel data : ℕ) → Option (List UInt8)
  | 0, _ => none
  | fuel + 1, data =>
      if m.byte data = 0 then some []
      else (writestring m fuel (data + 1)).map (m.byte data :: ·)

/-- A number is written to a buffer, and the buffer to the terminal. -/
def writeNumber (fuel : ℕ) (value : BitVec 32) (buf : ℕ) (base : ℤ)
    (p : State) : Option State := do
  let (buf, mem) ← Common.itoa fuel value buf base p.mem
  let text ← writestring mem fuel buf
  some ({ p with mem := mem }.send text)

/-- The branches for the letter behind a `%`. -/
def convert (frame : Frame) (fuel : ℕ) (p : State) : Option State :=
  let c := p.char
  let p := p.look
  let arg := frame.arg p.taken
  let next := { p with taken := p.taken + 1 }
  if c = 0x73 then
    (writestring p.mem fuel arg.toNat).map next.send
  else if c = 0x64 then writeNumber fuel arg frame.decimal 10 next
  else if c = 0x78 then
    writeNumber fuel arg frame.hex 16 (next.send [0x30, 0x78])
  else if c = 0x63 then some (next.send [UInt8.ofBitVec (arg.setWidth 8)])
  else if c = 0x25 then some (p.send [0x25])
  else some p

/-- The body of the loop. -/
def body (frame : Frame) (fuel : ℕ) (p : State) : Option State :=
  let c := p.char
  let p := p.look
  if c = 0x25 then (convert frame fuel p.advance).map State.advance
  else some (p.send [c]).advance

/-- The loop, which makes fewer than `rounds` rounds; each of the loops inside
makes fewer than `fuel`. -/
def printfLoop (frame : Frame) (fuel : ℕ) :
    (rounds : ℕ) → State → Option State
  | 0, _ => none
  | rounds + 1, p =>
      if p.char = 0 then some p.look
      else (body frame fuel p.look).bind (printfLoop frame fuel rounds)

def printf (frame : Frame) (fuel format : ℕ) (m : Memory) : Option State :=
  printfLoop frame fuel fuel ⟨format, 0, m, [], []⟩

end BabOs.Terminal.Printf
