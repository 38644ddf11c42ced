import BabOs.Kheap.Model
import BabOs.Library.Blocks

/-!
# Headers and blocks

The headers of the heap, read off the memory, spell a list of blocks.
`Linked` says which list, and the lemmas here say how a store to a field of
one header changes what the memory spells.
-/

namespace BabOs.Kheap

open BabOs.Blocks BabOs.Chain

/-! ## Stores to header fields -/

def Apart (b c : ℕ) : Prop := b + headerSize ≤ c ∨ c + headerSize ≤ b

theorem Apart.symm {b c : ℕ} (h : Apart b c) : Apart c b :=
  Or.symm h

section Fields

variable {m m' : Memory} {b c v : ℕ} {S : Set ℕ}

@[simp] theorem header_setMagic_self :
    header (setMagic m b v) b = { header m b with magic := uint32 v } := by
  simp [header, setMagic, Memory.load8_store32_of_disjoint,
    Memory.load32_store32_of_disjoint]

@[simp] theorem header_setIsHole_self :
    header (setIsHole m b v) b = { header m b with isHole := v % 256 } := by
  simp [header, setIsHole, Memory.load32_store8_of_disjoint]

@[simp] theorem header_setSize_self :
    header (setSize m b v) b = { header m b with size := uint32 v } := by
  simp [header, setSize, Memory.load8_store32_of_disjoint,
    Memory.load32_store32_of_disjoint]

@[simp] theorem header_setNext_self :
    header (setNext m b v) b = { header m b with next := uint32 v } := by
  simp [header, setNext, Memory.load8_store32_of_disjoint,
    Memory.load32_store32_of_disjoint]

@[simp] theorem header_setPrev_self :
    header (setPrev m b v) b = { header m b with prev := uint32 v } := by
  simp [header, setPrev, Memory.load8_store32_of_disjoint,
    Memory.load32_store32_of_disjoint]

/-- A store inside one header leaves the headers apart from it alone. -/
theorem header_store32_of_apart {a : ℕ} (h : Apart b c) (hle : b ≤ a)
    (hlt : a + 4 ≤ b + headerSize) :
    header (m.store32 a v) c = header m c := by
  have hsep : a + 4 ≤ c ∨ c + headerSize ≤ a := by
    rcases h with h | h <;> omega
  rw [headerSize] at hsep
  simp only [header]
  congr 1
  · exact Memory.load32_store32_of_disjoint (by omega)
  · exact Memory.load8_store32_of_disjoint (by omega)
  · exact Memory.load32_store32_of_disjoint (by omega)
  · exact Memory.load32_store32_of_disjoint (by omega)
  · exact Memory.load32_store32_of_disjoint (by omega)

theorem header_setMagic (h : Apart b c) :
    header (setMagic m b v) c = header m c :=
  header_store32_of_apart h le_rfl (by rw [headerSize]; omega)

theorem header_setSize (h : Apart b c) :
    header (setSize m b v) c = header m c :=
  header_store32_of_apart h (Nat.le_add_right _ _) (by rw [headerSize]; omega)

theorem header_setNext (h : Apart b c) :
    header (setNext m b v) c = header m c :=
  header_store32_of_apart h (Nat.le_add_right _ _) (by rw [headerSize]; omega)

theorem header_setPrev (h : Apart b c) :
    header (setPrev m b v) c = header m c :=
  header_store32_of_apart h (Nat.le_add_right _ _) (by rw [headerSize])

theorem header_setIsHole (h : Apart b c) :
    header (setIsHole m b v) c = header m c := by
  rw [Apart, headerSize] at h
  simp only [header, setIsHole]
  congr 1
  · exact Memory.load32_store8_of_disjoint (by omega)
  · exact Memory.load8_store8_of_ne (by omega)
  · exact Memory.load32_store8_of_disjoint (by omega)
  · exact Memory.load32_store8_of_disjoint (by omega)
  · exact Memory.load32_store8_of_disjoint (by omega)

/-- The bytes of the header at `b` do not meet `S`. -/
def HeaderOutside (S : Set ℕ) (b : ℕ) : Prop :=
  Disjoint (Set.Ico b (b + headerSize)) S

section Footprint

variable (hb : HeaderOutside S b) (h : m.WritesOutside S m')

include hb h

theorem HeaderOutside.store32 {a : ℕ} (hle : b ≤ a)
    (hlt : a + 4 ≤ b + headerSize) :
    m.WritesOutside S (m'.store32 a v) :=
  h.store32 (hb.mono_left (Set.Ico_subset_Ico hle hlt))

theorem HeaderOutside.setMagic : m.WritesOutside S (setMagic m' b v) :=
  hb.store32 h le_rfl (by rw [headerSize]; omega)

theorem HeaderOutside.setSize : m.WritesOutside S (setSize m' b v) :=
  hb.store32 h (Nat.le_add_right _ _) (by rw [headerSize]; omega)

theorem HeaderOutside.setNext : m.WritesOutside S (setNext m' b v) :=
  hb.store32 h (Nat.le_add_right _ _) (by rw [headerSize]; omega)

theorem HeaderOutside.setPrev : m.WritesOutside S (setPrev m' b v) :=
  hb.store32 h (Nat.le_add_right _ _) (by rw [headerSize])

theorem HeaderOutside.setIsHole : m.WritesOutside S (setIsHole m' b v) :=
  h.store8 (hb.mono_left
    (Set.Ico_subset_Ico (Nat.le_add_right _ _) (by rw [headerSize]; omega)))

end Footprint

end Fields

/-! ## Linked blocks -/

/-- The address of the first block, or `n` when there is none. -/
def headAddr : List Blk → ℕ → ℕ
  | [], n => n
  | b :: _, _ => b.addr

/-- The address of the last block, or `p` when there is none. -/
def lastAddr : ℕ → List Blk → ℕ
  | p, [] => p
  | _, b :: bs => lastAddr b.addr bs

/-- The header of a block between `p` and `n`. -/
def blkHeader (b : Blk) (n p : ℕ) : Header where
  magic := kheapMagic
  isHole := if b.hole then 1 else 0
  size := b.size
  next := n
  prev := p

/-- The headers in memory spell the blocks of the list, linked both ways;
`p` comes before them and `n` after them. -/
def Linked (m : Memory) : ℕ → List Blk → ℕ → Prop
  | _, [], _ => True
  | p, b :: bs, n =>
      header m b.addr = blkHeader b (headAddr bs n) p ∧
        Linked m b.addr bs n

section LinkedBlocks

variable {m m' : Memory} {p n q : ℕ} {b : Blk} {bs u v : List Blk}

@[simp] theorem linked_nil : Linked m p [] n :=
  trivial

@[simp] theorem linked_cons :
    Linked m p (b :: bs) n ↔
      header m b.addr = blkHeader b (headAddr bs n) p ∧
        Linked m b.addr bs n :=
  Iff.rfl

@[simp] theorem headAddr_nil : headAddr [] n = n :=
  rfl

@[simp] theorem headAddr_cons : headAddr (b :: bs) n = b.addr :=
  rfl

@[simp] theorem headAddr_append :
    headAddr (u ++ v) n = headAddr u (headAddr v n) := by
  cases u <;> rfl

@[simp] theorem lastAddr_append :
    lastAddr p (u ++ v) = lastAddr (lastAddr p u) v := by
  induction u generalizing p with
  | nil => rfl
  | cons b u ih => exact ih

theorem linked_append :
    Linked m p (u ++ v) n ↔
      Linked m p u (headAddr v n) ∧ Linked m (lastAddr p u) v n := by
  induction u generalizing p with
  | nil => simp [lastAddr]
  | cons b u ih => simp [ih, lastAddr, and_assoc]

theorem Linked.congr (h : Linked m p bs n)
    (heq : ∀ b ∈ bs, header m' b.addr = header m b.addr) :
    Linked m' p bs n := by
  induction bs generalizing p with
  | nil => trivial
  | cons b bs ih =>
      refine ⟨?_, ih h.2 fun c hc => heq c (List.mem_cons_of_mem _ hc)⟩
      rw [heq b List.mem_cons_self, h.1]

/-- A linked list of blocks under new management: only the back link of its
first block changes. -/
theorem Linked.relink (h : Linked m p bs n)
    (hhead : ∀ b ∈ bs.head?,
      header m' b.addr = { header m b.addr with prev := q })
    (htail : ∀ b ∈ bs.tail, header m' b.addr = header m b.addr) :
    Linked m' q bs n := by
  cases bs with
  | nil => trivial
  | cons b bs =>
      refine ⟨?_, h.2.congr htail⟩
      rw [hhead b rfl, h.1]
      rfl

/-- Replacing the middle of a linked list by blocks that start at the same
address. -/
theorem Linked.splice (mid mid' : List Blk)
    (h : Linked m p (u ++ (mid ++ v)) n)
    (hu : ∀ b ∈ u, header m' b.addr = header m b.addr)
    (hstart : headAddr mid' (headAddr v n) = headAddr mid (headAddr v n))
    (hmid : Linked m' (lastAddr p u) mid' (headAddr v n))
    (hhead : ∀ b ∈ v.head?, header m' b.addr =
      { header m b.addr with prev := lastAddr (lastAddr p u) mid' })
    (htail : ∀ b ∈ v.tail, header m' b.addr = header m b.addr) :
    Linked m' p (u ++ (mid' ++ v)) n := by
  obtain ⟨hu', hrest⟩ := linked_append.mp h
  obtain ⟨-, hv⟩ := linked_append.mp hrest
  refine linked_append.mpr ⟨?_, linked_append.mpr ⟨hmid, ?_⟩⟩
  · rw [headAddr_append, hstart, ← headAddr_append]
    exact hu'.congr hu
  · exact hv.relink hhead htail

theorem Linked.header_eq (h : Linked m p (u ++ b :: v) n) :
    header m b.addr = blkHeader b (headAddr v n) (lastAddr p u) :=
  (linked_append.mp h).2.1

end LinkedBlocks

end BabOs.Kheap
