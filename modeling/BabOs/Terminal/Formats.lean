import BabOs.Library.Numerals
import Mathlib.Data.List.TakeWhile

/-!
# Formats

A format and the values for its conversions stand for a text.  This module
says which one, and when a format ends in a `%` that nothing follows.
-/

namespace BabOs.Terminal.Printf

/-! ## Formats -/

inductive Value where
  | string (text : List UInt8)
  | number (v : BitVec 32)

/-- A number in base ten, with its sign. -/
def signedNumeral (v : ℤ) : List UInt8 :=
  (if v < 0 then [0x2D] else []) ++ numeral 10 v.natAbs

/-- The text that a conversion stands for; `none` if the value is not of its
kind. -/
def conversion (d : UInt8) : Value → Option (List UInt8)
  | .string text => if d = 0x73 then some text else none
  | .number v =>
      if d = 0x64 then some (signedNumeral v.toInt)
      else if d = 0x78 then some ([0x30, 0x78] ++ numeral 16 v.toNat)
      else if d = 0x63 then some [UInt8.ofBitVec (v.setWidth 8)]
      else none

def TakesValue (d : UInt8) : Prop :=
  d = 0x73 ∨ d = 0x64 ∨ d = 0x78 ∨ d = 0x63

instance (d : UInt8) : Decidable (TakesValue d) :=
  inferInstanceAs (Decidable (_ ∨ _))

/-- The text that a format stands for; `none` if the values do not match its
conversions. -/
def expand : (format : List UInt8) → List Value → Option (List UInt8)
  | [], _ => some []
  | c :: format, values =>
      if c = 0x25 then
        match format with
        | [] => some []
        | d :: format =>
            if TakesValue d then
              match values with
              | [] => none
              | v :: values => do
                  let text ← conversion d v
                  (expand format values).map (text ++ ·)
            else
              (expand format values).map
                ((if d = 0x25 then [0x25] else []) ++ ·)
      else (expand format values).map (c :: ·)

/-- Does the format end in a `%` that is not the second one of a pair, nor the
letter of a conversion? -/
def Dangling : (format : List UInt8) → Prop
  | [] => False
  | c :: format =>
      if c = 0x25 then
        match format with
        | [] => True
        | _ :: format => Dangling format
      else Dangling format

/-- The number of `%` at the end of a format. -/
def trailingPercents (format : List UInt8) : ℕ :=
  (format.reverse.takeWhile (· = 0x25)).length

section Formats

variable {format : List UInt8} {values : List Value}

/-- A format is read one byte or one conversion at a time. -/
theorem format_induction {P : List UInt8 → Prop} (nil : P [])
    (percent : P [0x25])
    (conversion : ∀ d format, P format → P (0x25 :: d :: format))
    (byte : ∀ c format, c ≠ 0x25 → P format → P (c :: format)) :
    ∀ format, P format
  | [] => nil
  | [c] => by
      by_cases hc : c = 0x25
      · rw [hc]
        exact percent
      · exact byte c [] hc nil
  | c :: d :: format => by
      by_cases hc : c = 0x25
      · rw [hc]
        exact conversion d format
          (format_induction nil percent conversion byte format)
      · exact byte c (d :: format) hc
          (format_induction nil percent conversion byte (d :: format))

theorem expand_byte {c : UInt8} (hc : c ≠ 0x25) :
    expand (c :: format) values = (expand format values).map (c :: ·) := by
  rw [expand.eq_def]
  exact if_neg hc

theorem expand_conversion {d : UInt8} {v : Value} (hd : TakesValue d) :
    expand (0x25 :: d :: format) (v :: values) =
      (conversion d v).bind fun text =>
        (expand format values).map (text ++ ·) := by
  rw [expand, if_pos rfl]
  exact if_pos hd

theorem expand_conversion_nil {d : UInt8} (hd : TakesValue d) :
    expand (0x25 :: d :: format) [] = none := by
  rw [expand, if_pos rfl]
  exact if_pos hd

theorem expand_other {d : UInt8} (hd : ¬TakesValue d) :
    expand (0x25 :: d :: format) values =
      (expand format values).map ((if d = 0x25 then [0x25] else []) ++ ·) := by
  rw [expand.eq_def]
  exact if_neg hd

theorem dangling_byte {c : UInt8} (hc : c ≠ 0x25) :
    Dangling (c :: format) ↔ Dangling format := by
  rw [Dangling.eq_def]
  exact iff_of_eq (if_neg hc)

theorem dangling_percent : Dangling [0x25] := by
  rw [Dangling, if_pos rfl]
  trivial

theorem dangling_conversion {d : UInt8} :
    Dangling (0x25 :: d :: format) ↔ Dangling format := by
  rw [Dangling, if_pos rfl]

theorem trailingPercents_of_forall (h : ∀ x ∈ format, x = 0x25) :
    trailingPercents format = format.length := by
  have hself : format.reverse.takeWhile (· = 0x25) = format.reverse := by
    rw [List.takeWhile_eq_self_iff]
    intro x hx
    exact decide_eq_true (h x (List.mem_reverse.mp hx))
  rw [trailingPercents, hself, List.length_reverse]

/-- A further byte in front counts only when the whole format is `%`. -/
theorem trailingPercents_cons {c : UInt8}
    (h : c = 0x25 → ∃ x ∈ format, x ≠ 0x25) :
    trailingPercents (c :: format) = trailingPercents format := by
  rw [trailingPercents, trailingPercents, List.reverse_cons,
    List.takeWhile_append]
  split_ifs with hall
  · have hformat : ∀ x ∈ format, x = 0x25 := by
      have hself := List.takeWhile_eq_self_iff.mp
        ((List.takeWhile_prefix _).eq_of_length hall)
      intro x hx
      exact of_decide_eq_true (hself x (List.mem_reverse.mpr hx))
    have hc : c ≠ 0x25 := by
      intro hc
      obtain ⟨x, hx, hne⟩ := h hc
      exact hne (hformat x hx)
    rw [List.takeWhile_cons_of_neg (by simpa using hc), List.append_nil, hall]
  · rfl

/-- The format ends in an odd number of `%`. -/
theorem dangling_iff : Dangling format ↔ Odd (trailingPercents format) := by
  induction format using format_induction with
  | nil => exact iff_of_false id (by decide)
  | percent => exact iff_of_true dangling_percent (by decide)
  | conversion d format ih =>
      rw [dangling_conversion, ih]
      by_cases hall : ∀ x ∈ d :: format, x = 0x25
      · have hformat : ∀ x ∈ format, x = 0x25 := fun x hx =>
          hall x (List.mem_cons_of_mem d hx)
        have hwhole : ∀ x ∈ 0x25 :: d :: format, x = 0x25 :=
          List.forall_mem_cons.mpr ⟨rfl, hall⟩
        rw [trailingPercents_of_forall hformat,
          trailingPercents_of_forall hwhole, List.length_cons,
          List.length_cons, add_assoc, Nat.odd_add]
        simp
      · have hother : ∃ x ∈ d :: format, x ≠ 0x25 := by
          push Not at hall
          exact hall
        rw [trailingPercents_cons fun _ => hother, trailingPercents_cons]
        rintro rfl
        obtain ⟨x, hx, hne⟩ := hother
        exact ⟨x, (List.mem_cons.mp hx).resolve_left hne, hne⟩
  | byte c format hc ih =>
      rw [dangling_byte hc, ih, trailingPercents_cons fun heq => absurd heq hc]

end Formats

end BabOs.Terminal.Printf
