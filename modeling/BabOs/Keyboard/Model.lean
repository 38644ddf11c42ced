import BabOs.Sync.Model
import BabOs.Terminal.Model

/-!
# The keyboard

This module embeds `keyboard.c` and the functions of `monitor.c` that it calls.
A call that would have to wait, for the monitor or for a key, has no result
here.
-/

namespace BabOs.Keyboard

open BabOs.Sync

/-! ## The tables -/

/-- The entries of `kbd_us` up to the last key that has a name in the source;
the others are `0`, too. -/
def usEntries : List (BitVec 8) :=
  [0x00, 0x1B, 0x31, 0x32, 0x33, 0x34, 0x35, 0x36,  -- . escape 1 2 3 4 5 6
    0x37, 0x38, 0x39, 0x30, 0x2D, 0x3D, 0x08, 0x09,  -- 7 8 9 0 - = backspace tab
    0x71, 0x77, 0x65, 0x72, 0x74, 0x79, 0x75, 0x69,  -- q w e r t y u i
    0x6F, 0x70, 0x5B, 0x5D, 0x0A, 0x00, 0x61, 0x73,  -- o p [ ] enter . a s
    0x64, 0x66, 0x67, 0x68, 0x6A, 0x6B, 0x6C, 0x3B,  -- d f g h j k l ;
    0x27, 0x60, 0x00, 0x5C, 0x7A, 0x78, 0x63, 0x76,  -- quote backtick . \ z x c v
    0x62, 0x6E, 0x6D, 0x2C, 0x2E, 0x2F, 0x00, 0x2A,  -- b n m , . / . *
    0x00, 0x20, 0x00, 0x00, 0x00, 0x00, 0x00, 0x00,  -- . space . . . . . .
    0x00, 0x00, 0x00, 0x00, 0x00, 0x00, 0x00, 0x00,
    0x00, 0x00, 0x2D, 0x00, 0x00, 0x00, 0x2B, 0x00,  -- . . - . . . + .
    0x00, 0x00, 0x00, 0x00, 0x00, 0x00, 0x00, 0x00,
    0x00, 0x00]

/-- The entries of `kbd_us_shift`. -/
def usShiftEntries : List (BitVec 8) :=
  [0x00, 0x1B, 0x21, 0x40, 0x23, 0x24, 0x25, 0x5E,  -- . escape ! @ # $ % ^
    0x26, 0x2A, 0x28, 0x29, 0x5F, 0x2B, 0x08, 0x09,  -- & * ( ) _ + backspace tab
    0x51, 0x57, 0x45, 0x52, 0x54, 0x59, 0x55, 0x49,  -- Q W E R T Y U I
    0x4F, 0x50, 0x7B, 0x7D, 0x0A, 0x00, 0x41, 0x53,  -- O P { } enter . A S
    0x44, 0x46, 0x47, 0x48, 0x4A, 0x4B, 0x4C, 0x3A,  -- D F G H J K L :
    0x22, 0x7E, 0x00, 0x7C, 0x5A, 0x58, 0x43, 0x56,  -- quotes ~ . | Z X C V
    0x42, 0x4E, 0x4D, 0x3C, 0x3E, 0x3F, 0x00, 0x2A,  -- B N M < > ? . *
    0x00, 0x20, 0x00, 0x00, 0x00, 0x00, 0x00, 0x00,  -- . space . . . . . .
    0x00, 0x00, 0x00, 0x00, 0x00, 0x00, 0x00, 0x00,
    0x00, 0x00, 0x2D, 0x00, 0x00, 0x00, 0x2B, 0x00,  -- . . - . . . + .
    0x00, 0x00, 0x00, 0x00, 0x00, 0x00, 0x00, 0x00,
    0x00, 0x00]

/-- `kbd_us[scancode]` -/
def kbdUs (scancode : BitVec 8) : BitVec 8 :=
  usEntries.getD scancode.toNat 0

/-- `kbd_us_shift[scancode]` -/
def kbdUsShift (scancode : BitVec 8) : BitVec 8 :=
  usShiftEntries.getD scancode.toNat 0

/-! ## The state -/

/-- The variables of `keyboard.c` other than `kbd_monitor`. -/
structure Vars where
  buffer : ℤ → BitVec 8
  head : ℤ
  tail : ℤ
  count : ℤ
  leftShiftPressed : Bool
  rightShiftPressed : Bool
  capsLock : Bool

/-- The variables, the tasks with the lock and the conditions of `kbd_monitor`,
and the terminal. -/
structure State extends Vars where
  kernel : Kernel Unit (Fin 8)
  terminal : Terminal.State

def bufferSize : ℕ := 256

def monitorInit (k : Kernel Unit (Fin 8)) : Kernel Unit (Fin 8) :=
  { k with
    mutex := fun _ => { locked := 0, owner := none, waiters := none }
    cond := fun _ => none }

/-- `monitor_enter`, called by the task `current`. -/
def monitorEnter (fuel current : ℕ) (k : Kernel Unit (Fin 8)) :
    Option (Kernel Unit (Fin 8)) :=
  match mutexTest fuel () current k with
  | some (true, k) => some k
  | _ => none

def monitorNotify (condIdx : ℤ) (k : Kernel Unit (Fin 8)) :
    Kernel Unit (Fin 8) :=
  if h : 0 ≤ condIdx ∧ condIdx < 8 then
    condSignal ⟨condIdx.toNat, by omega⟩ k
  else k

def monitorExit (k : Kernel Unit (Fin 8)) : Kernel Unit (Fin 8) :=
  mutexUnlock () k

/-- The variables with the values that `keyboard.c` gives them. -/
def initialVars (buffer : ℤ → BitVec 8) : Vars where
  buffer := buffer
  head := 0
  tail := 0
  count := 0
  leftShiftPressed := false
  rightShiftPressed := false
  capsLock := false

/-- The state as it is when `keyboard_init` returns. -/
def keyboardInit (k : Kernel Unit (Fin 8)) (buffer : ℤ → BitVec 8)
    (terminal : Terminal.State) : State where
  toVars := initialVars buffer
  kernel := monitorInit k
  terminal := terminal

/-! ## The functions -/

/-- The branch of `keyboard_callback` for a release. -/
def release (releasedScancode : BitVec 8) (v : Vars) : Vars :=
  let v :=
    if releasedScancode = 0x2A then { v with leftShiftPressed := false } else v
  if releasedScancode = 0x36 then { v with rightShiftPressed := false } else v

/-- The variable `c` of `keyboard_callback` before it is tested. -/
def keyChar (scancode : BitVec 8) (v : Vars) : BitVec 8 :=
  let shift := v.leftShiftPressed || v.rightShiftPressed
  let c := if shift then kbdUsShift scancode else kbdUs scancode
  if v.capsLock ∧ 97 ≤ c.toInt ∧ c.toInt ≤ 122 then
    if ¬shift then kbdUsShift scancode else c
  else if v.capsLock ∧ 65 ≤ c.toInt ∧ c.toInt ≤ 90 then
    if shift then kbdUs scancode else c
  else c

/-- The part of `keyboard_callback` before the monitor is entered, which is
done with the character that it returns. -/
def decode (scancode : BitVec 8) (v : Vars) : Vars × Option (BitVec 8) :=
  if scancode &&& 0x80 ≠ 0 then (release (scancode &&& 0x7F) v, none)
  else if scancode = 0x2A then ({ v with leftShiftPressed := true }, none)
  else if scancode = 0x36 then ({ v with rightShiftPressed := true }, none)
  else if scancode = 0x3A then ({ v with capsLock := !v.capsLock }, none)
  else
    let c := keyChar scancode v
    if 0 < c.toInt then (v, some c) else (v, none)

/-- The statements that put `c` into the buffer. -/
def push (c : BitVec 8) (s : State) : State :=
  if s.count < bufferSize then
    { s with
      buffer := Function.update s.buffer s.tail c
      tail := (s.tail + 1).tmod bufferSize
      count := s.count + 1
      kernel := monitorNotify 0 s.kernel }
  else s

section Functions

variable (font : Terminal.Font) (fuel current : ℕ)

/-- `keyboard_callback` in the task `current`, where `inb` has returned
`scancode`; it returns `regs`. -/
def keyboardCallback (regs : ℕ) (scancode : BitVec 8) (s : State) :
    Option (ℕ × State) :=
  match decode scancode s.toVars with
  | (v, none) => some (regs, { s with toVars := v })
  | (v, some c) =>
      match monitorEnter fuel current s.kernel with
      | none => none
      | some k =>
          let s := push c { s with toVars := v, kernel := k }
          some (regs, { s with
            kernel := monitorExit s.kernel
            terminal := Terminal.terminalPutchar font s.terminal c })

/-- `getchar`, called by the task `current`. -/
def getchar (s : State) : Option (BitVec 8 × State) :=
  match monitorEnter fuel current s.kernel with
  | none => none
  | some k =>
      if s.count = 0 then none
      else
        some (s.buffer s.head, { s with
          head := (s.head + 1).tmod bufferSize
          count := s.count - 1
          kernel := monitorExit k })

end Functions

end BabOs.Keyboard
