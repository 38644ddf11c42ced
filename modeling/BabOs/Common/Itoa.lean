import BabOs.Library.Numerals

/-!
# Numbers as strings

This module embeds `itoa` of `stdlib.c`.  The first loop stores the digits of
the number from the least significant one on, and the second one reverses them
in place.
-/

namespace BabOs.Common

open Memory

/-! ## The function -/

/-- The loop that stores the digits of `v` from `ptr` on; it makes fewer than
`fuel` rounds. -/
def digitLoop (base : ℕ) : (fuel v ptr : ℕ) → Memory → Option (ℕ × Memory)
  | 0, _, _, _ => none
  | fuel + 1, v, ptr, m =>
      if v = 0 then some (ptr, m)
      else
        let digit := v % base
        let c := if digit < 10 then digit + 48 else digit - 10 + 97
        digitLoop base fuel (v / base) (ptr + 1) (m.store8 ptr c)

/-- The loop that exchanges the bytes at `low` and `ptr` until the pointers
meet; it makes fewer than `fuel` rounds. -/
def reverseLoop : (fuel low ptr : ℕ) → Memory → Option Memory
  | 0, _, _, _ => none
  | fuel + 1, low, ptr, m =>
      if low < ptr then
        let tmp := m.load8 low
        let m := m.store8 low (m.load8 ptr)
        reverseLoop fuel (low + 1) (ptr - 1) (m.store8 ptr tmp)
      else some m

def storeDigits (base fuel v low : ℕ) (m : Memory) : Option (ℕ × Memory) :=
  if v = 0 then some (low + 1, m.store8 low 48)
  else digitLoop base fuel v low m

/-- The part of `itoa` behind the sign: the digits of `v`, the terminating
`0`, and the reversal. -/
def writeDigits (base fuel v low : ℕ) (m : Memory) : Option Memory := do
  let (ptr, m) ← storeDigits base fuel v low m
  reverseLoop fuel low (ptr - 1) (m.store8 ptr 0)

def itoa (fuel : ℕ) (value : BitVec 32) (str : ℕ) (base : ℤ) (m : Memory) :
    Option (ℕ × Memory) :=
  if base < 2 ∨ 36 < base then some (str, m.store8 str 0)
  else
    let signed := value.toInt < 0 ∧ base = 10
    let m := if signed then m.store8 str 45 else m
    let low := if signed then str + 1 else str
    let v := if signed then (-value).toNat else value.toNat
    (writeDigits base.toNat fuel v low m).map fun m => (str, m)

/-! ## The loops -/

section Loops

variable {m m' : Memory} {base fuel v ptr ptr' low : ℕ}

/-- The digits are stored behind each other, the least significant one
first. -/
theorem digitLoop_stores (hbase : 2 ≤ base)
    (hfuel : (Nat.digits base v).length < fuel) :
    ∃ m', digitLoop base fuel v ptr m =
        some (ptr + (Nat.digits base v).length, m') ∧
      Holds m' ptr ((Nat.digits base v).map digitChar) ∧
      WritesWithin (Set.Ico ptr (ptr + (Nat.digits base v).length)) m m' := by
  induction fuel generalizing v ptr m with
  | zero => exact absurd hfuel (Nat.not_lt_zero _)
  | succ fuel ih =>
      rw [digitLoop]
      by_cases hv : v = 0
      · subst hv
        rw [if_pos rfl]
        refine ⟨m, ?_, ?_, WritesWithin.refl _ m⟩
        · rw [Nat.digits_zero, List.length_nil, add_zero]
        · rw [Nat.digits_zero]
          exact holds_nil m ptr
      · have hdigits := Nat.digits_def' hbase (Nat.pos_of_ne_zero hv)
        rw [if_neg hv]
        rw [hdigits, List.length_cons] at hfuel
        obtain ⟨m', hloop, hholds, hwrites⟩ :=
          @ih (m.store8 ptr (if v % base < 10 then v % base + 48
            else v % base - 10 + 97)) (v / base) (ptr + 1)
            (Nat.lt_of_succ_lt_succ hfuel)
        have hfirst : m'.byte ptr = digitChar (v % base) := by
          rw [hwrites.byte (by simp), byte_store8]
          rfl
        refine ⟨m', ?_, ?_, ?_⟩
        · rw [hloop, hdigits, List.length_cons]
          congr 2
          omega
        · rw [hdigits, List.map_cons, ← List.singleton_append, holds_append]
          refine ⟨fun i hi => ?_, hholds⟩
          obtain rfl : i = 0 := by
            rw [List.length_singleton] at hi
            omega
          exact hfirst
        · rw [hdigits, List.length_cons]
          refine ((WritesWithin.refl _ m).store8 ?_).trans (hwrites.mono ?_)
          · rw [Set.mem_Ico]
            omega
          · exact Set.Ico_subset_Ico (by omega) (by omega)

theorem reverseLoop_reverses (hle : low ≤ ptr + 1)
    (hfuel : ptr + 1 < low + fuel) :
    ∃ m', reverseLoop fuel low ptr m = some m' ∧
      (∀ x, low ≤ x → x ≤ ptr → m'.byte x = m.byte (low + ptr - x)) ∧
      WritesWithin (Set.Icc low ptr) m m' := by
  induction fuel generalizing low ptr m with
  | zero => exact absurd hfuel (by omega)
  | succ fuel ih =>
      rw [reverseLoop]
      by_cases hlt : low < ptr
      · rw [if_pos hlt]
        obtain ⟨m', hloop, hinner, hwrites⟩ :=
          @ih ((m.store8 low (m.load8 ptr)).store8 ptr (m.load8 low))
            (ptr - 1) (low + 1) (by omega) (by omega)
        refine ⟨m', hloop, fun x hlo hhi => ?_, ?_⟩
        · rcases Nat.eq_or_lt_of_le hlo with rfl | hlo
          · rw [hwrites.byte (by simp), byte_store8_of_ne hlt.ne, byte_store8,
              load8, UInt8.ofNat_toNat, Nat.add_sub_cancel_left]
          · rcases Nat.eq_or_lt_of_le hhi with rfl | hhi
            · rw [hwrites.byte (by simp; omega), byte_store8, load8,
                UInt8.ofNat_toNat, Nat.add_sub_cancel]
            · have hmirror : low + 1 + (ptr - 1) - x = low + ptr - x := by
                omega
              rw [hinner x hlo (by omega), hmirror,
                byte_store8_of_ne (by omega), byte_store8_of_ne (by omega)]
        · have hends := ((WritesWithin.refl (Set.Icc low ptr) m).store8
            (v := m.load8 ptr) (Set.left_mem_Icc.mpr hlt.le)).store8
              (v := m.load8 low) (Set.right_mem_Icc.mpr hlt.le)
          exact hends.trans
            (hwrites.mono (Set.Icc_subset_Icc (by omega) (by omega)))
      · rw [if_neg hlt]
        refine ⟨m, rfl, fun x hlo hhi => ?_, WritesWithin.refl _ m⟩
        congr 1
        omega

theorem storeDigits_stores (hbase : 2 ≤ base)
    (hfuel : (numeral base v).length < fuel) :
    ∃ m', storeDigits base fuel v low m =
        some (low + (numeral base v).length, m') ∧
      Holds m' low (numeral base v).reverse ∧
      WritesWithin (Set.Ico low (low + (numeral base v).length)) m m' := by
  by_cases hv : v = 0
  · subst hv
    refine ⟨m.store8 low 48, rfl, fun i hi => ?_, ?_⟩
    · obtain rfl : i = 0 := Nat.lt_one_iff.mp hi
      exact byte_store8
    · exact (WritesWithin.refl _ m).store8 ⟨le_rfl, Nat.lt_succ_self low⟩
  · have hnumeral : numeral base v =
        ((Nat.digits base v).map digitChar).reverse := if_neg hv
    rw [hnumeral, List.length_reverse, List.length_map] at hfuel
    rw [storeDigits, if_neg hv, hnumeral, List.reverse_reverse,
      List.length_reverse, List.length_map]
    exact digitLoop_stores hbase hfuel

/-- The bytes at `low` become the string that they are backwards. -/
theorem reverseLoop_reads {ds : List UInt8} (hholds : Holds m low ds)
    (hds : ds ≠ []) (hnul : 0 ∉ ds) (hfuel : ds.length < fuel) :
    ∃ m', reverseLoop fuel low (low + ds.length - 1)
        (m.store8 (low + ds.length) 0) = some m' ∧
      (Str.ptr low).Reads m' ds.reverse ∧
      WritesWithin (Set.Icc low (low + ds.length)) m m' := by
  have hpos := List.length_pos_iff.mpr hds
  obtain ⟨m', hloop, hbytes, hwrites⟩ :=
    reverseLoop_reverses (m := m.store8 (low + ds.length) 0)
      (show low ≤ low + ds.length - 1 + 1 by omega)
      (show low + ds.length - 1 + 1 < low + fuel by omega)
  refine ⟨m', hloop, Holds.reads (fun i hi => ?_) ?_ ?_, ?_⟩
  · rw [List.length_reverse] at hi
    have hmirror : low + (low + ds.length - 1) - (low + i) =
        low + (ds.length - 1 - i) := by
      omega
    rw [hbytes _ (by omega) (by omega), hmirror, byte_store8_of_ne (by omega),
      hholds _ (by omega), List.getElem_reverse]
  · rw [List.length_reverse, hwrites.byte (by simp; omega), byte_store8]
    rfl
  · rwa [List.mem_reverse]
  · exact ((WritesWithin.refl _ m).store8 (by simp)).trans
      (hwrites.mono (Set.Icc_subset_Icc_right (by omega)))

theorem writeDigits_reads (m : Memory) (low : ℕ) (hlo : 2 ≤ base)
    (hhi : base ≤ 36) (hfuel : (numeral base v).length < fuel) :
    ∃ m', writeDigits base fuel v low m = some m' ∧
      (Str.ptr low).Reads m' (numeral base v) ∧
      WritesWithin (Set.Ico low (low + ((numeral base v).length + 1)))
        m m' := by
  obtain ⟨m₁, hstored, hholds, hwrites⟩ :=
    storeDigits_stores hlo hfuel
  obtain ⟨m', hloop, hreads, hwrites'⟩ := reverseLoop_reads hholds
    (by simpa using numeral_ne_nil)
    (by simpa using zero_notMem_numeral hlo hhi) (by simpa using hfuel)
  rw [List.length_reverse] at hloop hwrites'
  rw [List.reverse_reverse] at hreads
  refine ⟨m', ?_, hreads, (hwrites.mono ?_).trans (hwrites'.mono ?_)⟩
  · rw [writeDigits, hstored]
    exact hloop
  · exact Set.Ico_subset_Ico_right (by omega)
  · exact fun x hx => ⟨hx.1, by have := hx.2; omega⟩

end Loops

/-! ## The numeral -/

def Signed (value : BitVec 32) (base : ℤ) : Prop :=
  value.toInt < 0 ∧ base = 10

instance (value : BitVec 32) (base : ℤ) : Decidable (Signed value base) :=
  inferInstanceAs (Decidable (_ ∧ _))

/-- The number that `itoa` writes behind the sign. -/
def magnitude (value : BitVec 32) (base : ℤ) : ℕ :=
  if Signed value base then (-value).toNat else value.toNat

def itoaText (value : BitVec 32) (base : ℤ) : List UInt8 :=
  (if Signed value base then [45] else []) ++
    numeral base.toNat (magnitude value base)

section Itoa

variable {m : Memory} {value : BitVec 32} {base : ℤ} {fuel str : ℕ}

theorem magnitude_lt : magnitude value base < 2 ^ 32 := by
  rw [magnitude]
  split_ifs
  · exact BitVec.isLt _
  · exact BitVec.isLt _

theorem length_numeral_magnitude_le (value : BitVec 32) {k : ℕ}
    (hlo : 2 ≤ base) (hk : 0 < k) (hpow : 2 ^ 32 ≤ base.toNat ^ k) :
    (numeral base.toNat (magnitude value base)).length ≤ k :=
  length_numeral_le (by omega) hk (magnitude_lt.trans_le hpow)

theorem length_numeral_magnitude_le_32 (value : BitVec 32) (hlo : 2 ≤ base) :
    (numeral base.toNat (magnitude value base)).length ≤ 32 := by
  apply length_numeral_magnitude_le value hlo (by norm_num)
  exact Nat.pow_le_pow_left (by omega) 32

/-- `itoa` writes its text at `str`, and nothing behind it. -/
theorem itoa_reads (m : Memory) (value : BitVec 32) (str : ℕ)
    (hlo : 2 ≤ base) (hhi : base ≤ 36) (hfuel : 32 < fuel) :
    ∃ m', itoa fuel value str base m = some (str, m') ∧
      (Str.ptr str).Reads m' (itoaText value base) ∧
      WritesWithin (Set.Ico str (str + ((itoaText value base).length + 1)))
        m m' := by
  have hbase : ¬(base < 2 ∨ 36 < base) := by omega
  have hdigits (low : ℕ) (m₁ : Memory) :=
    writeDigits_reads m₁ low (show 2 ≤ base.toNat by omega)
      (show base.toNat ≤ 36 by omega)
      ((length_numeral_magnitude_le_32 value hlo).trans_lt hfuel)
  rw [itoa, if_neg hbase, itoaText]
  by_cases hsigned : value.toInt < 0 ∧ base = 10
  · have hmagnitude : magnitude value base = (-value).toNat := if_pos hsigned
    obtain ⟨m', hwrite, hreads, hwrites⟩ :=
      hdigits (str + 1) (m.store8 str 45)
    have hsign : m'.byte str = 45 := by
      rw [hwrites.byte (by simp), byte_store8]
      rfl
    rw [hmagnitude] at hwrite hreads hwrites ⊢
    simp only [if_pos hsigned, if_pos (show Signed value base from hsigned),
      List.singleton_append, List.length_cons]
    refine ⟨m', ?_, hreads.cons hsign (by decide), ?_⟩
    · rw [hwrite, Option.map_some]
    · refine ((WritesWithin.refl _ m).store8 ?_).trans (hwrites.mono ?_)
      · rw [Set.mem_Ico]
        omega
      · exact Set.Ico_subset_Ico (by omega) (by omega)
  · have hmagnitude : magnitude value base = value.toNat := if_neg hsigned
    obtain ⟨m', hwrite, hreads, hwrites⟩ := hdigits str m
    rw [hmagnitude] at hwrite hreads hwrites ⊢
    simp only [if_neg hsigned, if_neg (show ¬Signed value base from hsigned),
      List.nil_append]
    refine ⟨m', ?_, hreads, hwrites⟩
    rw [hwrite, Option.map_some]

/-- The number behind the sign, with the sign. -/
theorem magnitude_signed :
    (if Signed value base then -(magnitude value base : ℤ)
      else magnitude value base) =
    if base = 10 then value.toInt else value.toInt % 2 ^ 32 := by
  have hlt := value.isLt
  have hneg := BitVec.toNat_neg value
  have hint := BitVec.toInt_eq_toNat_cond value
  rw [magnitude]
  by_cases hsigned : Signed value base
  · rw [if_pos hsigned, if_pos hsigned, if_pos hsigned.2, hneg]
    have hnegative := hsigned.1
    split_ifs at hint <;> omega
  · rw [if_neg hsigned, if_neg hsigned]
    split_ifs with hbase
    · have hpos : ¬value.toInt < 0 := fun hnegative =>
        hsigned ⟨hnegative, hbase⟩
      split_ifs at hint <;> omega
    · split_ifs at hint <;> omega

theorem length_itoaText_le (value : BitVec 32) {k : ℕ} (hlo : 2 ≤ base)
    (hk : 0 < k) (hpow : 2 ^ 32 ≤ base.toNat ^ k) :
    (itoaText value base).length ≤ (if base = 10 then 1 else 0) + k := by
  have hdigits := length_numeral_magnitude_le value hlo hk hpow
  rw [itoaText, List.length_append]
  apply Nat.add_le_add _ hdigits
  split_ifs with hsigned hten
  · exact le_rfl
  · exact absurd hsigned.2 hten
  · exact Nat.zero_le 1
  · exact le_rfl

theorem length_itoaText_ten : (itoaText value 10).length ≤ 11 :=
  length_itoaText_le value (show (2 : ℤ) ≤ 10 by norm_num)
    (show 0 < 10 by norm_num) (show 2 ^ 32 ≤ 10 ^ 10 by norm_num)

theorem length_itoaText_sixteen : (itoaText value 16).length ≤ 8 :=
  length_itoaText_le value (show (2 : ℤ) ≤ 16 by norm_num)
    (show 0 < 8 by norm_num) (show 2 ^ 32 ≤ 16 ^ 8 by norm_num)

theorem length_itoaText_le_32 (hlo : 2 ≤ base) :
    (itoaText value base).length ≤ 32 := by
  by_cases hten : base = 10
  · subst hten
    exact length_itoaText_ten.trans (by norm_num)
  · have hlength := length_itoaText_le value hlo
      (show 0 < 32 by norm_num) (Nat.pow_le_pow_left (by omega) 32)
    rwa [if_neg hten] at hlength

/-- `itoa` writes a correct numeral: lower-case digits below the base, with a
sign for a negative number in base ten and without a leading zero, that read
back as the number; and it writes no more than the numeral and a `0`. -/
theorem itoa_numeral (m : Memory) (value : BitVec 32) (str : ℕ)
    (hlo : 2 ≤ base) (hhi : base ≤ 36) (hfuel : 32 < fuel) :
    ∃ m' text digits, itoa fuel value str base m = some (str, m') ∧
      (Str.ptr str).Reads m' text ∧
      WritesWithin (Set.Ico str (str + (text.length + 1))) m m' ∧
      text = (if value.toInt < 0 ∧ base = 10 then [45] else []) ++ digits ∧
      digits ≠ [] ∧ (∀ c ∈ digits, ∃ d < base.toNat, c = digitChar d) ∧
      (digits.head? = some 48 → digits = [48]) ∧
      (if value.toInt < 0 ∧ base = 10 then -(ofNumeral base.toNat digits : ℤ)
        else ofNumeral base.toNat digits) =
          (if base = 10 then value.toInt else value.toInt % 2 ^ 32) ∧
      text.length + 1 ≤ 33 ∧ (base = 10 → text.length + 1 ≤ 12) ∧
      (base = 16 → text.length + 1 ≤ 9) := by
  obtain ⟨m', hitoa, hreads, hwrites⟩ :=
    itoa_reads m value str hlo hhi hfuel
  refine ⟨m', itoaText value base, numeral base.toNat (magnitude value base),
    hitoa, hreads, hwrites, rfl, numeral_ne_nil,
    fun c hc => mem_numeral (by omega) hc, head_numeral (by omega) (by omega),
    ?_, Nat.succ_le_succ (length_itoaText_le_32 hlo), ?_, ?_⟩
  · rw [ofNumeral_numeral (by omega) (by omega)]
    exact magnitude_signed
  · rintro rfl
    exact Nat.succ_le_succ length_itoaText_ten
  · rintro rfl
    exact Nat.succ_le_succ length_itoaText_sixteen

end Itoa

/-- The smallest number is written with eleven characters. -/
theorem itoa_numeral_minimum :
    ∃ m' text, itoa 33 0x80000000 100 10 ⟨fun _ => 0, []⟩ = some (100, m') ∧
      (Str.ptr 100).Reads m' text ∧ text.length ≤ 11 ∧
      text.head? = some 45 := by
  obtain ⟨m', text, digits, hitoa, hreads, -, htext, -, -, -, -, -, hten, -⟩ :=
    itoa_numeral ⟨fun _ => 0, []⟩ 0x80000000 100
      (show (2 : ℤ) ≤ 10 by norm_num) (by norm_num) (show 32 < 33 by norm_num)
  refine ⟨m', text, hitoa, hreads, ?_, ?_⟩
  · exact Nat.le_of_succ_le_succ (hten rfl)
  · rw [htext]
    rfl

end BabOs.Common
