import BabOs.Library.Strings
import Mathlib.Data.Nat.Digits.Lemmas

/-!
# Numerals

A numeral is written with the digits `0` to `9` and the lower-case letters, the
most significant digit first.  Reading a numeral gives back the number.
-/

namespace BabOs

/-- The character for a digit. -/
def digitChar (d : ℕ) : UInt8 :=
  UInt8.ofNat (if d < 10 then d + 48 else d - 10 + 97)

/-- The digit that a character stands for. -/
def digitValue (c : UInt8) : ℕ :=
  if c.toNat < 58 then c.toNat - 48 else c.toNat - 97 + 10

/-- The digits of `n`, and `0` for zero. -/
def numeral (base n : ℕ) : List UInt8 :=
  if n = 0 then [48] else ((Nat.digits base n).map digitChar).reverse

/-- The number that a numeral stands for. -/
def ofNumeral (base : ℕ) (cs : List UInt8) : ℕ :=
  cs.foldl (fun n c => n * base + digitValue c) 0

section Numerals

variable {base n d k : ℕ}

theorem digitValue_digitChar (hd : d < 36) : digitValue (digitChar d) = d := by
  rw [digitValue, digitChar, UInt8.toNat_ofNat']
  split_ifs <;> omega

theorem digitChar_ne_zero (hd : d < 36) : digitChar d ≠ 0 := by
  intro hzero
  have hnat := congrArg UInt8.toNat hzero
  rw [digitChar, UInt8.toNat_ofNat', UInt8.toNat_zero] at hnat
  split_ifs at hnat <;> omega

theorem ofNumeral_concat (cs : List UInt8) (c : UInt8) :
    ofNumeral base (cs ++ [c]) = ofNumeral base cs * base + digitValue c := by
  rw [ofNumeral, List.foldl_concat]
  rfl

theorem ofNumeral_digits (hbase : base ≤ 36) {ds : List ℕ}
    (hds : ∀ d ∈ ds, d < base) :
    ofNumeral base (ds.map digitChar).reverse = Nat.ofDigits base ds := by
  induction ds with
  | nil => rfl
  | cons d ds ih =>
      have hd := hds d List.mem_cons_self
      have hrest := ih fun x hx => hds x (List.mem_cons_of_mem d hx)
      rw [List.map_cons, List.reverse_cons, ofNumeral_concat, hrest,
        digitValue_digitChar (hd.trans_le hbase), Nat.ofDigits_cons]
      ring

/-- A numeral reads back as its number. -/
theorem ofNumeral_numeral (hlo : 2 ≤ base) (hhi : base ≤ 36) :
    ofNumeral base (numeral base n) = n := by
  rw [numeral]
  split_ifs with hn
  · rw [hn]
    simp [ofNumeral, digitValue]
  · rw [ofNumeral_digits hhi fun d hd => Nat.digits_lt_base hlo hd,
      Nat.ofDigits_digits]

theorem numeral_ne_nil : numeral base n ≠ [] := by
  rw [numeral]
  split_ifs with hn
  · exact List.cons_ne_nil 48 []
  · rw [ne_eq, List.reverse_eq_nil_iff, List.map_eq_nil_iff]
    exact Nat.digits_ne_nil_iff_ne_zero.mpr hn

theorem mem_numeral (hlo : 2 ≤ base) {c : UInt8} (hc : c ∈ numeral base n) :
    ∃ d < base, c = digitChar d := by
  rw [numeral] at hc
  split_ifs at hc with hn
  · exact ⟨0, by omega, List.mem_singleton.mp hc⟩
  · rw [List.mem_reverse, List.mem_map] at hc
    obtain ⟨d, hd, rfl⟩ := hc
    exact ⟨d, Nat.digits_lt_base hlo hd, rfl⟩

theorem zero_notMem_numeral (hlo : 2 ≤ base) (hhi : base ≤ 36) :
    0 ∉ numeral base n := by
  intro hmem
  obtain ⟨d, hd, hzero⟩ := mem_numeral hlo hmem
  exact digitChar_ne_zero (hd.trans_le hhi) hzero.symm

/-- There is no leading zero but in the numeral of zero. -/
theorem head_numeral (hlo : 2 ≤ base) (hhi : base ≤ 36)
    (hhead : (numeral base n).head? = some 48) : numeral base n = [48] := by
  by_cases hn : n = 0
  · rw [numeral, if_pos hn]
  · rw [numeral, if_neg hn] at hhead
    have hlast := Nat.getLast_digit_ne_zero base hn
    have hlt := Nat.digits_lt_base hlo
      (List.getLast_mem (Nat.digits_ne_nil_iff_ne_zero.mpr hn))
    rw [List.head?_reverse, List.getLast?_map,
      List.getLast?_eq_getLast_of_ne_nil
        (Nat.digits_ne_nil_iff_ne_zero.mpr hn)] at hhead
    have hvalue := congrArg digitValue (Option.some.inj hhead)
    rw [digitValue_digitChar (hlt.trans_le hhi)] at hvalue
    exact absurd hvalue hlast

/-- A number below `base ^ k` has at most `k` digits. -/
theorem length_numeral_le (hlo : 2 ≤ base) (hk : 0 < k) (hn : n < base ^ k) :
    (numeral base n).length ≤ k := by
  rw [numeral]
  split_ifs
  · exact hk
  · rw [List.length_reverse, List.length_map]
    exact (Nat.digits_length_le_iff hlo n).mpr hn

end Numerals

end BabOs
