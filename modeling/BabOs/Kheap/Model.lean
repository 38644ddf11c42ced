import BabOs.Library.Chain
import BabOs.Library.Memory

/-!
# The kernel heap

This module embeds `kheap.c`.  The heap lives in the byte-addressed memory of
the kernel: a `header_t *` is an address, the null pointer is `0`, and the
fields of a header are loaded and stored at their offsets.  All sums are those
of `uint32_t`.
-/

namespace BabOs.Kheap

open BabOs.Chain

def kheapStart : ℕ := 0xD0000000

def kheapInitialSize : ℕ := 0x100000

def kheapMagic : ℕ := 0x12345678

def pageSize : ℕ := 4096

/-- `sizeof(header_t)`: `is_hole` is one byte, padded to the next word. -/
def headerSize : ℕ := 20

/-! ## Headers in memory -/

structure Header where
  magic : ℕ
  isHole : ℕ
  size : ℕ
  next : ℕ
  prev : ℕ
  deriving DecidableEq

/-- The header at address `b`. -/
def header (m : Memory) (b : ℕ) : Header where
  magic := m.load32 b
  isHole := m.load8 (b + 4)
  size := m.load32 (b + 8)
  next := m.load32 (b + 12)
  prev := m.load32 (b + 16)

def setMagic (m : Memory) (b v : ℕ) : Memory := m.store32 b v

def setIsHole (m : Memory) (b v : ℕ) : Memory := m.store8 (b + 4) v

def setSize (m : Memory) (b v : ℕ) : Memory := m.store32 (b + 8) v

def setNext (m : Memory) (b v : ℕ) : Memory := m.store32 (b + 12) v

def setPrev (m : Memory) (b v : ℕ) : Memory := m.store32 (b + 16) v

def pointer (n : ℕ) : Option ℕ := if n = 0 then none else some n

/-- The links of all headers. -/
def links (m : Memory) : Links ℕ where
  next := fun b => pointer (header m b).next
  prev := fun b => pointer (header m b).prev

/-! ## The state -/

/-- The heap and what it stands on.  `backing` is the state of the physical
allocator and the page tables.  `wrapped` records whether a sum that depends
on a requested size has left the 32-bit range, and `console` what was written
to the terminal; no operation reads either. -/
structure State (σ : Type*) where
  mem : Memory
  heapStart : ℕ
  heapEnd : ℕ
  backing : σ
  wrapped : Bool
  console : List String

namespace State

variable {σ : Type*}

/-- Note that the sum `n` is evaluated. -/
def noteSum (s : State σ) (n : ℕ) : State σ :=
  { s with wrapped := s.wrapped || decide (2 ^ 32 ≤ n) }

@[simp] theorem mem_noteSum (s : State σ) (n : ℕ) :
    (s.noteSum n).mem = s.mem :=
  rfl

end State

/-! ## Operations

The parameter `mapPage` is what `pmm_alloc_pages(0)` followed by
`vmm_map_page` at the given address does to the backing state.  A frame shows
whatever it holds when it is mapped, so the memory beyond the end of the heap
is not constrained. -/

section Operations

variable {σ : Type*} (mapPage : σ → ℕ → σ)

/-- The loops that back `n` bytes from `start` on, page by page. -/
def mapRange (start n : ℕ) (backing : σ) : σ :=
  (List.range (n / pageSize)).foldl
    (fun backing i => mapPage backing (uint32 (start + i * pageSize))) backing

def kheapInit (s : State σ) : State σ :=
  let m := s.mem
  let m := setMagic m kheapStart kheapMagic
  let m := setIsHole m kheapStart 1
  let m := setSize m kheapStart (kheapInitialSize - headerSize)
  let m := setNext m kheapStart 0
  let m := setPrev m kheapStart 0
  { s with
    mem := m
    heapStart := kheapStart
    heapEnd := kheapStart + kheapInitialSize
    backing := mapRange mapPage kheapStart kheapInitialSize s.backing }

def splitBlock (m : Memory) (block size : ℕ) : Memory :=
  if (header m block).size ≤ uint32 (size + headerSize) then m
  else
    let newHole := uint32 (block + headerSize + size)
    let m := setMagic m newHole kheapMagic
    let m := setIsHole m newHole 1
    let m := setSize m newHole
      (sub32 (sub32 (header m block).size size) headerSize)
    let m := setNext m newHole (header m block).next
    let m := setPrev m newHole block
    let m :=
      if (header m block).next ≠ 0 then
        setPrev m (header m block).next newHole
      else m
    let m := setNext m block newHole
    setSize m block size

/-- The end of `expand_heap`: the last block takes the new bytes, or they
become a hole behind it. -/
def growLast (m : Memory) (last oldHeapEnd newSize : ℕ) : Memory :=
  if (header m last).isHole ≠ 0 then
    setSize m last (uint32 ((header m last).size + newSize))
  else
    let m := setMagic m oldHeapEnd kheapMagic
    let m := setIsHole m oldHeapEnd 1
    let m := setSize m oldHeapEnd (sub32 newSize headerSize)
    let m := setPrev m oldHeapEnd last
    let m := setNext m oldHeapEnd 0
    setNext m last oldHeapEnd

/-- The statements of `expand_heap` after the rounding.  The walk to the last
header takes `fuel` steps at most. -/
def expandBy (fuel newSize : ℕ) (s : State σ) : Option (State σ) :=
  let oldHeapEnd := s.heapEnd
  let backing := mapRange mapPage oldHeapEnd newSize s.backing
  let s := s.noteSum (oldHeapEnd + newSize)
  match lastFrom (links s.mem).next fuel s.heapStart with
  | none => none
  | some last =>
      some { s with
        mem := growLast s.mem last oldHeapEnd newSize
        heapEnd := uint32 (oldHeapEnd + newSize)
        backing := backing }

def expandHeap (fuel newSize : ℕ) (s : State σ) : Option (State σ) :=
  if newSize % pageSize ≠ 0 then
    let rounded := (newSize / pageSize + 1) * pageSize
    expandBy mapPage fuel (uint32 rounded) (s.noteSum rounded)
  else expandBy mapPage fuel newSize s

def adjustedAddr (align : Bool) (dataAddr : ℕ) : ℕ :=
  if align && dataAddr &&& 0xFFF ≠ 0 then
    uint32 (dataAddr + 0xFFF) &&& 0xFFFFF000
  else dataAddr

/-- The end of the loop body of `kmalloc_internal`, for the block that is
handed out. -/
def takeBlock (size curr : ℕ) (s : State σ) : Option ℕ × State σ :=
  let m := splitBlock s.mem curr size
  (some (uint32 (curr + headerSize)), { s with mem := setIsHole m curr 0 })

/-- The loop body of `kmalloc_internal`; `none` stands for `continue`. -/
def tryBlock (size : ℕ) (align : Bool) (curr : ℕ) (s : State σ) :
    Option ℕ × State σ :=
  let h := header s.mem curr
  if h.isHole = 0 then (none, s)
  else
    let dataAddr := uint32 (curr + headerSize)
    let padding := sub32 (adjustedAddr align dataAddr) dataAddr
    let s := s.noteSum (padding + size)
    if h.size < uint32 (padding + size) then (none, s)
    else if headerSize < padding then
      let m := splitBlock s.mem curr (padding - headerSize)
      takeBlock size (header m curr).next { s with mem := m }
    else if 0 < padding then (none, s)
    else takeBlock size curr s

/-- The argument of `expand_heap` in `kmalloc_internal`. -/
def expandSize (size : ℕ) (align : Bool) : ℕ :=
  size + (if align then pageSize else 0) + headerSize

/-- `kmalloc_internal` with `curr` as the next header to look at.  When the
chain is used up the heap is expanded and the call starts again. -/
def kmallocLoop (size : ℕ) (align : Bool) :
    (fuel curr : ℕ) → State σ → Option (ℕ × State σ)
  | 0, _, _ => none
  | fuel + 1, curr, s =>
      if curr = 0 then
        let newSize := expandSize size align
        match expandHeap mapPage fuel (uint32 newSize) (s.noteSum newSize) with
        | none => none
        | some s => kmallocLoop size align fuel s.heapStart s
      else
        match tryBlock size align curr s with
        | (some ptr, s) => some (ptr, s)
        | (none, s) =>
            kmallocLoop size align fuel (header s.mem curr).next s

def kmallocInternal (fuel size : ℕ) (align : Bool) (s : State σ) :
    Option (ℕ × State σ) :=
  kmallocLoop mapPage size align fuel s.heapStart s

def kmalloc (fuel size : ℕ) (s : State σ) : Option (ℕ × State σ) :=
  kmallocInternal mapPage fuel size false s

def kmallocA (fuel size : ℕ) (s : State σ) : Option (ℕ × State σ) :=
  kmallocInternal mapPage fuel size true s

def mergeNext (m : Memory) (b : ℕ) : Memory :=
  let h := header m b
  if h.next ≠ 0 ∧ (header m h.next).isHole ≠ 0 then
    let m := setSize m b
      (uint32 (h.size + ((header m h.next).size + headerSize)))
    let m := setNext m b (header m (header m b).next).next
    let next := (header m b).next
    if next ≠ 0 then setPrev m next b else m
  else m

def mergePrev (m : Memory) (b : ℕ) : Memory :=
  let h := header m b
  if h.prev ≠ 0 ∧ (header m h.prev).isHole ≠ 0 then
    let m := setSize m h.prev
      (uint32 ((header m h.prev).size + (h.size + headerSize)))
    let m := setNext m (header m b).prev (header m b).next
    let next := (header m b).next
    if next ≠ 0 then setPrev m next (header m b).prev else m
  else m

def kfree (ptr : ℕ) (s : State σ) : State σ :=
  if ptr = 0 ∨ ptr < kheapStart ∨ s.heapEnd ≤ ptr then s
  else
    let b := ptr - headerSize
    if (header s.mem b).magic ≠ kheapMagic then
      { s with console := s.console ++ ["kfree: INVALID MAGIC!\n"] }
    else
      let m := setIsHole s.mem b 1
      { s with mem := mergePrev (mergeNext m b) b }

end Operations

end BabOs.Kheap
