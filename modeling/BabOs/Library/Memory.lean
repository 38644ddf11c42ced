import Mathlib.Tactic
import Mathlib.Data.Nat.Bitwise
import Mathlib.Order.CompletePartialOrder
import Mathlib.Order.Interval.Set.Disjoint

/-!
# Byte-addressed memory

A memory is a function from addresses to bytes, together with a log of the
stores made to it.  Words have 32 bits and lie in memory least significant
byte first.  The log is there for statements about what a program writes: a
store that puts the old value back leaves the bytes as they were but is a
store all the same.
-/

namespace BabOs

/-! ## Words -/

/-- Conversion to a 32-bit unsigned integer. -/
def uint32 (n : ℕ) : ℕ := n % 2 ^ 32

theorem uint32_lt (n : ℕ) : uint32 n < 2 ^ 32 :=
  Nat.mod_lt n (Nat.two_pow_pos 32)

theorem uint32_eq_of_lt {n : ℕ} (h : n < 2 ^ 32) : uint32 n = n :=
  Nat.mod_eq_of_lt h

/-- Subtraction of 32-bit unsigned integers. -/
def sub32 (a b : ℕ) : ℕ := uint32 (a + 2 ^ 32 - b)

theorem sub32_eq_of_le {a b : ℕ} (ha : a < 2 ^ 32) (h : b ≤ a) :
    sub32 a b = a - b := by
  rw [sub32, uint32]
  omega

@[simp] theorem uint32_uint32 (n : ℕ) : uint32 (uint32 n) = uint32 n :=
  Nat.mod_mod n _

/-- The low twelve bits of a word. -/
theorem and_low (n : ℕ) : n &&& 0xFFF = n % 4096 :=
  Nat.and_two_pow_sub_one_eq_mod n 12

/-- A word without its low twelve bits. -/
theorem and_high {n : ℕ} (h : n < 2 ^ 32) :
    n &&& 0xFFFFF000 = n / 4096 * 4096 := by
  have hmask : 0xFFFFF000 = (2 ^ 20 - 1) * 2 ^ 12 := by norm_num
  have hpage : 4096 = 2 ^ 12 := by norm_num
  rw [hmask, hpage]
  refine Nat.eq_of_testBit_eq fun i => ?_
  rw [Nat.testBit_and, Nat.testBit_mul_two_pow, Nat.testBit_mul_two_pow,
    Nat.testBit_two_pow_sub_one, Nat.testBit_div_two_pow]
  rcases lt_or_ge i 12 with hlow | hlow
  · have hlow' : ¬12 ≤ i := hlow.not_ge
    simp [hlow']
  · rw [Nat.sub_add_cancel hlow]
    rcases lt_or_ge i 32 with hi | hi
    · have h20 : i - 12 < 20 := by omega
      simp [hlow, h20]
    · have hbit : n.testBit i = false :=
        Nat.testBit_lt_two_pow
          (h.trans_le (Nat.pow_le_pow_right (by norm_num) hi))
      simp [hbit]

/-- Low bits put beside a page address. -/
theorem page_or {a f : ℕ} (ha : 4096 ∣ a) (hf : f < 4096) :
    a ||| f = a + f := by
  obtain ⟨k, rfl⟩ := ha
  exact (Nat.two_pow_add_eq_or_of_lt (i := 12) hf k).symm

/-! ## Loads and stores -/

/-- `stores` lists the address and the length of every store, the last one
first. -/
structure Memory where
  byte : ℕ → UInt8
  stores : List (ℕ × ℕ)

namespace Memory

def load8 (m : Memory) (a : ℕ) : ℕ := (m.byte a).toNat

def load32 (m : Memory) (a : ℕ) : ℕ :=
  load8 m a + 256 * load8 m (a + 1) + 65536 * load8 m (a + 2) +
    16777216 * load8 m (a + 3)

def store8 (m : Memory) (a v : ℕ) : Memory where
  byte := fun x => if x = a then UInt8.ofNat v else m.byte x
  stores := (a, 1) :: m.stores

def store32 (m : Memory) (a v : ℕ) : Memory where
  byte := fun x =>
    if a ≤ x ∧ x < a + 4 then UInt8.ofNat (v / 256 ^ (x - a)) else m.byte x
  stores := (a, 4) :: m.stores

/-- `memset` -/
def fill (m : Memory) (a v n : ℕ) : Memory where
  byte := fun x => if a ≤ x ∧ x < a + n then UInt8.ofNat v else m.byte x
  stores := (a, n) :: m.stores

section Access

variable {m m' : Memory} {a b v : ℕ}

@[simp] theorem stores_store8 :
    (store8 m a v).stores = (a, 1) :: m.stores :=
  rfl

@[simp] theorem stores_store32 :
    (store32 m a v).stores = (a, 4) :: m.stores :=
  rfl

theorem load8_lt (m : Memory) (a : ℕ) : load8 m a < 256 :=
  UInt8.toNat_lt _

theorem load32_lt (m : Memory) (a : ℕ) : load32 m a < 2 ^ 32 := by
  have h₀ := load8_lt m a
  have h₁ := load8_lt m (a + 1)
  have h₂ := load8_lt m (a + 2)
  have h₃ := load8_lt m (a + 3)
  rw [load32]
  omega

theorem load8_congr (h : m.byte a = m'.byte a) : load8 m a = load8 m' a :=
  congrArg UInt8.toNat h

/-- A load depends only on the bytes it reads. -/
theorem load32_congr (h : ∀ x, a ≤ x → x < a + 4 → m.byte x = m'.byte x) :
    load32 m a = load32 m' a := by
  simp only [load32, load8]
  rw [h a (by omega) (by omega), h (a + 1) (by omega) (by omega),
    h (a + 2) (by omega) (by omega), h (a + 3) (by omega) (by omega)]

@[simp] theorem load8_store8 : load8 (store8 m a v) a = v % 256 := by
  simp [load8, store8]

theorem byte_store8_of_ne (h : b ≠ a) : (store8 m a v).byte b = m.byte b :=
  if_neg h

theorem load8_store8_of_ne (h : b ≠ a) :
    load8 (store8 m a v) b = load8 m b :=
  load8_congr (byte_store8_of_ne h)

theorem load32_store8_of_disjoint (h : a < b ∨ b + 4 ≤ a) :
    load32 (store8 m a v) b = load32 m b :=
  load32_congr fun _ _ _ => byte_store8_of_ne (by omega)

theorem load8_store32_of_mem {i : ℕ} (hi : i < 4) :
    load8 (store32 m a v) (a + i) = v / 256 ^ i % 256 := by
  have hin : a ≤ a + i ∧ a + i < a + 4 := by omega
  simp [load8, store32, hin]

/-- A load gives back the word that was stored. -/
@[simp] theorem load32_store32 : load32 (store32 m a v) a = uint32 v := by
  have h₀ := load8_store32_of_mem (m := m) (a := a) (v := v) (i := 0)
    (by norm_num)
  have h₁ := load8_store32_of_mem (m := m) (a := a) (v := v) (i := 1)
    (by norm_num)
  have h₂ := load8_store32_of_mem (m := m) (a := a) (v := v) (i := 2)
    (by norm_num)
  have h₃ := load8_store32_of_mem (m := m) (a := a) (v := v) (i := 3)
    (by norm_num)
  norm_num at h₀ h₁ h₂ h₃
  rw [load32, h₀, h₁, h₂, h₃, uint32]
  omega

theorem byte_store32_of_disjoint (h : b < a ∨ a + 4 ≤ b) :
    (store32 m a v).byte b = m.byte b :=
  if_neg (by omega)

theorem load8_store32_of_disjoint (h : b < a ∨ a + 4 ≤ b) :
    load8 (store32 m a v) b = load8 m b :=
  load8_congr (byte_store32_of_disjoint h)

theorem load32_store32_of_disjoint (h : a + 4 ≤ b ∨ b + 4 ≤ a) :
    load32 (store32 m a v) b = load32 m b :=
  load32_congr fun _ _ _ => byte_store32_of_disjoint (by omega)

theorem byte_fill_of_disjoint {n : ℕ} (h : b < a ∨ a + n ≤ b) :
    (fill m a v n).byte b = m.byte b :=
  if_neg (by omega)

theorem load32_fill_of_disjoint {n : ℕ} (h : a + n ≤ b ∨ b + 4 ≤ a) :
    load32 (fill m a v n) b = load32 m b :=
  load32_congr fun _ _ _ => byte_fill_of_disjoint (by omega)

/-- Zeroed bytes load as zero. -/
theorem load32_fill_zero {n : ℕ} (ha : a ≤ b) (hb : b + 4 ≤ a + n) :
    load32 (fill m a 0 n) b = 0 := by
  have hbyte : ∀ i < 4, load8 (fill m a 0 n) (b + i) = 0 := by
    intro i hi
    have hin : a ≤ b + i ∧ b + i < a + n := by omega
    simp [load8, fill, hin]
  have h₀ := hbyte 0 (by norm_num)
  rw [add_zero] at h₀
  rw [load32, h₀, hbyte 1 (by norm_num), hbyte 2 (by norm_num),
    hbyte 3 (by norm_num)]

end Access

/-! ## Footprints -/

/-- `m'` is `m` after stores none of which meets `S`. -/
def WritesOutside (S : Set ℕ) (m m' : Memory) : Prop :=
  ∃ l, m'.stores = l ++ m.stores ∧
    ∀ x ∈ l, Disjoint (Set.Ico x.1 (x.1 + x.2)) S

section Footprints

variable {S T : Set ℕ} {m m' m'' : Memory} {a v : ℕ}

theorem WritesOutside.refl (S : Set ℕ) (m : Memory) : WritesOutside S m m :=
  ⟨[], rfl, by simp⟩

theorem WritesOutside.trans (h : WritesOutside S m m')
    (h' : WritesOutside S m' m'') : WritesOutside S m m'' := by
  obtain ⟨l, hl, hS⟩ := h
  obtain ⟨l', hl', hS'⟩ := h'
  refine ⟨l' ++ l, by rw [hl', hl, List.append_assoc], ?_⟩
  intro x hx
  rcases List.mem_append.mp hx with hx | hx
  · exact hS' x hx
  · exact hS x hx

theorem WritesOutside.mono (h : WritesOutside T m m') (hST : S ⊆ T) :
    WritesOutside S m m' := by
  obtain ⟨l, hl, hT⟩ := h
  exact ⟨l, hl, fun x hx => (hT x hx).mono_right hST⟩

theorem WritesOutside.store8 (h : WritesOutside S m m')
    (ha : Disjoint (Set.Ico a (a + 1)) S) :
    WritesOutside S m (m'.store8 a v) :=
  h.trans ⟨[(a, 1)], rfl, by simpa using ha⟩

theorem WritesOutside.store32 (h : WritesOutside S m m')
    (ha : Disjoint (Set.Ico a (a + 4)) S) :
    WritesOutside S m (m'.store32 a v) :=
  h.trans ⟨[(a, 4)], rfl, by simpa using ha⟩

end Footprints

end Memory

end BabOs
