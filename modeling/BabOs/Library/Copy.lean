import BabOs.Library.Memory

/-!
# Block copies

The bytewise forward copy is the one that `memcpy` makes.  Its source and its
target may overlap: what comes out is right as long as the target does not
begin after the source.
-/

namespace BabOs

namespace Memory

/-- `memcpy`: one byte after the other, from the lowest address on. -/
def copy (m : Memory) (dest src : ℕ) : (len : ℕ) → Memory
  | 0 => m
  | len + 1 => copy (m.store8 dest (m.load8 src)) (dest + 1) (src + 1) len

section Bytes

variable {m : Memory} {dest src a v n : ℕ}

theorem byte_store8 :
    (store8 m a v).byte a = UInt8.ofNat v :=
  if_pos rfl

theorem byte_copy_of_disjoint (h : a < dest ∨ dest + n ≤ a) :
    (copy m dest src n).byte a = m.byte a := by
  induction n generalizing m dest src with
  | zero => rfl
  | succ n ih =>
      rw [copy, ih (by omega), byte_store8_of_ne (by omega)]

/-- A copy to lower addresses, or between blocks that lie apart, moves every
byte. -/
theorem byte_copy (h : dest ≤ src ∨ src + n ≤ dest) {i : ℕ} (hi : i < n) :
    (copy m dest src n).byte (dest + i) = m.byte (src + i) := by
  induction n generalizing m dest src i with
  | zero => exact absurd hi (Nat.not_lt_zero i)
  | succ n ih =>
      rw [copy]
      cases i with
      | zero =>
          rw [add_zero, byte_copy_of_disjoint (by omega), byte_store8, load8,
            UInt8.ofNat_toNat, add_zero]
      | succ i =>
          have hdest : dest + (i + 1) = dest + 1 + i := by omega
          have hsrc : src + (i + 1) = src + 1 + i := by omega
          rw [hdest, ih (by omega) (by omega), ← hsrc,
            byte_store8_of_ne (by omega)]

theorem load32_copy (hle : dest ≤ src) {i : ℕ} (hi : i + 4 ≤ n) :
    load32 (copy m dest src n) (dest + i) = load32 m (src + i) := by
  simp only [load32, load8, add_assoc]
  rw [byte_copy (Or.inl hle) (by omega), byte_copy (Or.inl hle) (by omega),
    byte_copy (Or.inl hle) (by omega), byte_copy (Or.inl hle) (by omega)]

end Bytes

/-! ## Footprints -/

section Footprints

variable {S : Set ℕ} {m m' : Memory} {a v dest src n : ℕ}

theorem WritesOutside.fill (h : WritesOutside S m m')
    (ha : Disjoint (Set.Ico a (a + n)) S) :
    WritesOutside S m (m'.fill a v n) :=
  h.trans ⟨[(a, n)], rfl, by simpa using ha⟩

theorem WritesOutside.copy (h : WritesOutside S m m')
    (ha : Disjoint (Set.Ico dest (dest + n)) S) :
    WritesOutside S m (m'.copy dest src n) := by
  induction n generalizing m' dest src with
  | zero => exact h
  | succ n ih =>
      apply ih
      · apply h.store8
        exact ha.mono_left (Set.Ico_subset_Ico_right (by omega))
      · exact ha.mono_left (Set.Ico_subset_Ico (by omega) (by omega))

end Footprints

end Memory

end BabOs
