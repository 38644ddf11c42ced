import BabOs.Library.Memory

/-!
# Page tables

This module embeds the page-table code of `vmm.c`.  The directory and the
tables lie in memory and are reached at their physical addresses.  Frames come
from `pmm_alloc_pages(0)`, which is a parameter; flushing the entry of a page
from the translation buffer has no effect on the tables.
-/

namespace BabOs.Vmm

def pageSize : ℕ := 4096

def pagePresent : ℕ := 0x1

def pageRw : ℕ := 0x2

def pageUser : ℕ := 0x4

/-- `sizeof(page_directory_t)` and `sizeof(page_table_t)`: 1024 entries of
four bytes. -/
def tableSize : ℕ := 4096

/-- `frames` is the state of the physical allocator; `tables` records the
frames that were made into tables, and no operation reads it. -/
structure State (σ : Type*) where
  mem : Memory
  kernelDirectory : ℕ
  currentDirectory : ℕ
  frames : σ
  tables : List ℕ

/-- `virtual >> 22` -/
def pdIndex (virtual : ℕ) : ℕ := virtual >>> 22

/-- `(virtual >> 12) & 0x3FF` -/
def ptIndex (virtual : ℕ) : ℕ := (virtual >>> 12) &&& 0x3FF

section Operations

variable {σ : Type*} (allocPage : σ → ℕ × σ)

/-- The first step of `vmm_init`: an empty kernel directory. -/
def createDirectory (s : State σ) : State σ :=
  let r := allocPage s.frames
  { mem := s.mem.fill r.1 0 tableSize
    kernelDirectory := r.1
    currentDirectory := r.1
    frames := r.2
    tables := [] }

/-- The address of the directory entry for `virtual`. -/
def pdeAddr (s : State σ) (virtual : ℕ) : ℕ :=
  s.currentDirectory + 4 * pdIndex virtual

def pde (s : State σ) (virtual : ℕ) : ℕ :=
  s.mem.load32 (pdeAddr s virtual)

/-- The branch of `vmm_map_page` that finds no table: a new one is zeroed and
entered in the directory. -/
def addTable (virtual flags : ℕ) (s : State σ) : State σ :=
  let r := allocPage s.frames
  let m := s.mem.fill r.1 0 tableSize
  { s with
    mem := m.store32 (pdeAddr s virtual) (r.1 ||| flags ||| pagePresent)
    frames := r.2
    tables := r.1 :: s.tables }

/-- `pt->entries[index] = entry` -/
def setEntry (pt index entry : ℕ) (s : State σ) : State σ :=
  { s with mem := s.mem.store32 (pt + 4 * index) entry }

def vmmMapPage (virtual physical flags : ℕ) (s : State σ) : State σ :=
  let entry := (physical &&& 0xFFFFF000) ||| flags
  if pde s virtual &&& pagePresent = 0 then
    let pt := (allocPage s.frames).1
    setEntry pt (ptIndex virtual) entry (addTable allocPage virtual flags s)
  else
    let pt := pde s virtual &&& 0xFFFFF000
    setEntry pt (ptIndex virtual) entry s

end Operations

/-! ## The walk -/

/-- What the processor makes of a table entry for `virtual`: the address it
translates to and the flags, or nothing when the entry is not present. -/
def decode (virtual pte : ℕ) : Option (ℕ × ℕ) :=
  if pte &&& pagePresent = 0 then none
  else some ((pte &&& 0xFFFFF000) + (virtual &&& 0xFFF), pte &&& 0xFFF)

def walk {σ : Type*} (s : State σ) (virtual : ℕ) : Option (ℕ × ℕ) :=
  if pde s virtual &&& pagePresent = 0 then none
  else
    let pt := pde s virtual &&& 0xFFFFF000
    decode virtual (s.mem.load32 (pt + 4 * ptIndex virtual))

end BabOs.Vmm
