import BabOs.Common.Compare
import BabOs.Initrd.Model
import BabOs.Kheap.Model
import BabOs.Terminal.Printf

/-!
# The shell

This module embeds `shell_task` of `main.c` with all that a line sets in
motion: the comparisons of strings, the calls of the file system, of the heap
and of `printf`.  They work on one memory, in which the buffer of the line and
the string constants lie as well.
-/

namespace BabOs.Shell

open Memory Initrd

/-! ## String constants -/

def ascii (s : String) : List UInt8 :=
  s.toList.map fun c => UInt8.ofNat c.toNat

/-- The string constants of `shell_task`. -/
inductive Literal where
  | banner | ls | entry | dir | file | cat | content | notFound | unknown | prompt
  deriving DecidableEq

def Literal.text : Literal → List UInt8
  | banner =>
      ascii "Shell started. Type 'ls', 'cat <file>', or just type characters!\n> "
  | ls => ascii "ls"
  | entry => ascii "%s  "
  | dir => ascii "(dir)\n"
  | file => ascii "(file, size %d)\n"
  | cat => ascii "cat "
  | content => ascii "%s\n"
  | notFound => ascii "File not found: %s\n"
  | unknown => ascii "Unknown command: %s\n"
  | prompt => ascii "> "

/-! ## The state -/

/-- The addresses that the linker and the stack of the task give to what the
shell works with: the string constants, `cmd_buffer`, the two buffers of
`printf`, and the words that lie behind its arguments. -/
structure Link where
  fs : Initrd.Link
  literal : Literal → ℕ
  cmdBuffer : ℕ
  decimal : ℕ
  hex : ℕ
  behind : ℕ → BitVec 32

/-- The state of the kernel as far as the shell reaches; the memory is that of
the heap, and `output` is what was sent to `terminal_putchar`. -/
structure State (σ : Type) where
  heap : Kheap.State σ
  ramdisk : Initrd.State
  fsRoot : ℕ
  cmdIdx : ℕ
  output : List UInt8

namespace State

variable {σ : Type}

def mem (s : State σ) : Memory := s.heap.mem

def setMem (m : Memory) (s : State σ) : State σ :=
  { s with heap := { s.heap with mem := m } }

/-- The ramdisk on the memory. -/
def fs (s : State σ) : Initrd.State := { s.ramdisk with mem := s.heap.mem }

def setFs (fs : Initrd.State) (s : State σ) : State σ :=
  { s.setMem fs.mem with ramdisk := fs }

end State

/-- What a call of `printf` with the arguments finds on the stack. -/
def Link.frame (link : Link) (args : List (BitVec 32)) :
    Terminal.Printf.Frame where
  arg := fun i => args.getD i (link.behind i)
  decimal := link.decimal
  hex := link.hex

/-! ## Commands -/

section Commands

variable {σ : Type} (mapPage : σ → ℕ → σ) (link : Link) (fuel : ℕ)

/-- `printf`, with one of the constants as its format. -/
def print (l : Literal) (args : List (BitVec 32)) (s : State σ) :
    Option (State σ) := do
  let p ← Terminal.Printf.printf (link.frame args) fuel (link.literal l) s.mem
  some { s.setMem p.mem with output := s.output ++ p.output }

/-- The body of the loop of `ls`; `name` is the first field of the entry. -/
def printEntry (node : ℕ) (s : State σ) : Option (State σ) := do
  let s ← print link fuel .entry [BitVec.ofNat 32 node] s
  let fsnode ← vfsFinddir fuel link.fs s.fsRoot (.ptr node) s.fs
  if s.mem.load32 (fsnode + VfsNode.flags) &&& 0x7 = vfsDirectory then
    print link fuel .dir [] s
  else
    print link fuel .file
      [BitVec.ofNat 32 (s.mem.load32 (fsnode + VfsNode.length))] s

/-- The loop of `ls`, from the entry `i` on. -/
def list : (rounds i : ℕ) → State σ → Option (State σ)
  | 0, _, _ => none
  | rounds + 1, i, s => do
      let (node, fs) ← vfsReaddir fuel link.fs s.fsRoot i s.fs
      let s := s.setFs fs
      if node ≠ 0 then (printEntry link fuel node s).bind (list rounds (i + 1))
      else some s

/-- The branch of `cat` for a node that was found. -/
def catNode (fsnode : ℕ) (s : State σ) : Option (State σ) := do
  let size := uint32 (s.mem.load32 (fsnode + VfsNode.length) + 1)
  let (buf, heap) ← Kheap.kmalloc mapPage fuel size s.heap
  let s := { s with heap := heap }
  let length := s.mem.load32 (fsnode + VfsNode.length)
  let (sz, fs) ← vfsRead link.fs fsnode 0 length buf s.fs
  let s := s.setFs fs
  let s := s.setMem (s.mem.store8 (uint32 (buf + sz)) 0)
  let s ← print link fuel .content [BitVec.ofNat 32 buf] s
  some { s with heap := Kheap.kfree buf s.heap }

/-- The branch of `cat`. -/
def cat (filename : ℕ) (s : State σ) : Option (State σ) := do
  let fsnode ← vfsFinddir fuel link.fs s.fsRoot (.ptr filename) s.fs
  if fsnode ≠ 0 then catNode mapPage link fuel fsnode s
  else print link fuel .notFound [BitVec.ofNat 32 filename] s

/-- The branches on the content of `cmd_buffer`. -/
def command (s : State σ) : Option (State σ) := do
  let order ← Common.strcmp s.mem fuel link.cmdBuffer (link.literal .ls)
  if order.value = 0 then list link fuel fuel 0 s
  else if (Common.strncmp s.mem 4 link.cmdBuffer (link.literal .cat)).value = 0 then
    cat mapPage link fuel (link.cmdBuffer + 4) s
  else if 0 < s.cmdIdx then
    print link fuel .unknown [BitVec.ofNat 32 link.cmdBuffer] s
  else some s

/-- The body of the loop, after `getchar` has returned `c`. -/
def step (c : UInt8) (s : State σ) : Option (State σ) :=
  if c = 0x0A then do
    let s := s.setMem (s.mem.store8 (link.cmdBuffer + s.cmdIdx) 0)
    let s ← command mapPage link fuel s
    let s ← print link fuel .prompt [] s
    some { s with cmdIdx := 0 }
  else if c = 0x08 then
    if 0 < s.cmdIdx then some { s with cmdIdx := s.cmdIdx - 1 } else some s
  else if s.cmdIdx < 127 then
    some { s.setMem (s.mem.store8 (link.cmdBuffer + s.cmdIdx) c.toNat) with
      cmdIdx := s.cmdIdx + 1 }
  else some s

/-- The loop, for the characters that `getchar` returns. -/
def loop : (keys : List UInt8) → State σ → Option (State σ)
  | [], s => some s
  | c :: keys, s => (step mapPage link fuel c s).bind (loop keys)

/-- `shell_task`, up to the call of `getchar` behind the characters. -/
def shellTask (keys : List UInt8) (s : State σ) : Option (State σ) := do
  let s ← print link fuel .banner [] { s with cmdIdx := 0 }
  loop mapPage link fuel keys s

end Commands

end BabOs.Shell
