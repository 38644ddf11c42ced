import BabOs.Library.Strings

/-!
# Comparing strings

This module embeds `strcmp` and `strncmp` of `string.c` with the addresses they
read.  On strings they compute the lexicographic order of the bytes, taken as
unsigned numbers.
-/

namespace BabOs.Common

open Memory

/-! ## The functions -/

/-- A result, with the addresses read through `s1` and through `s2`. -/
structure Compared where
  value : ℤ
  reads₁ : List ℕ
  reads₂ : List ℕ

/-- The test of the loops reads `*s1` twice and `*s2` once before the pointers
move on. -/
def Compared.after (s1 s2 : ℕ) (x : Compared) : Compared where
  value := x.value
  reads₁ := s1 :: s1 :: x.reads₁
  reads₂ := s2 :: x.reads₂

/-- A `char` is signed. -/
def char (m : Memory) (a : ℕ) : ℤ := (m.byte a).toInt8.toInt

/-- `*(unsigned char*)s1 - *(unsigned char*)s2` -/
def byteDifference (m : Memory) (s1 s2 : ℕ) : ℤ := m.load8 s1 - m.load8 s2

/-- `strcmp`; the loop makes fewer than `fuel` rounds. -/
def strcmp (m : Memory) : (fuel s1 s2 : ℕ) → Option Compared
  | 0, _, _ => none
  | fuel + 1, s1, s2 =>
      if char m s1 ≠ 0 then
        if char m s1 = char m s2 then
          (strcmp m fuel (s1 + 1) (s2 + 1)).map (Compared.after s1 s2)
        else some ⟨byteDifference m s1 s2, [s1, s1, s1], [s2, s2]⟩
      else some ⟨byteDifference m s1 s2, [s1, s1], [s2]⟩

def strncmp (m : Memory) : (n s1 s2 : ℕ) → Compared
  | 0, _, _ => ⟨0, [], []⟩
  | n + 1, s1, s2 =>
      if char m s1 ≠ 0 then
        if char m s1 = char m s2 then
          (strncmp m n (s1 + 1) (s2 + 1)).after s1 s2
        else ⟨byteDifference m s1 s2, [s1, s1, s1], [s2, s2]⟩
      else ⟨byteDifference m s1 s2, [s1, s1], [s2]⟩

/-! ## The order of strings -/

/-- The difference of two strings at the first place where they differ; a
string ends in a `0`. -/
def difference : List UInt8 → List UInt8 → ℤ
  | [], [] => 0
  | [], y :: _ => -y.toNat
  | x :: _, [] => x.toNat
  | x :: xs, y :: ys => if x = y then difference xs ys else x.toNat - y.toNat

section Order

variable {a b : List UInt8}

theorem difference_self (a : List UInt8) : difference a a = 0 := by
  induction a with
  | nil => rfl
  | cons x xs ih => rw [difference, if_pos rfl, ih]

theorem difference_swap (a b : List UInt8) :
    difference b a = -difference a b := by
  induction a generalizing b with
  | nil =>
      cases b with
      | nil => rfl
      | cons y ys => rw [difference, difference, neg_neg]
  | cons x xs ih =>
      cases b with
      | nil => rw [difference, difference]
      | cons y ys =>
          rw [difference, difference]
          by_cases hxy : x = y
          · rw [if_pos hxy, if_pos hxy.symm, ih]
          · rw [if_neg hxy, if_neg (Ne.symm hxy), neg_sub]

/-- The bytes of a string as unsigned numbers. -/
def unsigned (a : List UInt8) : List ℕ := a.map UInt8.toNat

theorem unsigned_inj : unsigned a = unsigned b ↔ a = b :=
  (List.map_injective_iff.mpr fun _ _ => UInt8.toNat_inj.mp).eq_iff

theorem difference_neg_iff (ha : 0 ∉ a) (hb : 0 ∉ b) :
    difference a b < 0 ↔ unsigned a < unsigned b := by
  induction a generalizing b with
  | nil =>
      cases b with
      | nil => simp [difference, unsigned]
      | cons y ys =>
          have hy : y ≠ 0 := fun heq => hb (heq ▸ List.mem_cons_self)
          have hpos : 0 < y.toNat := Nat.pos_of_ne_zero fun hzero =>
            hy (UInt8.toNat_inj.mp hzero)
          simp [difference, unsigned, hpos]
  | cons x xs ih =>
      cases b with
      | nil => simp [difference, unsigned]
      | cons y ys =>
          have htails := ih (fun hmem => ha (List.mem_cons_of_mem x hmem))
            (fun hmem => hb (List.mem_cons_of_mem y hmem))
          rw [unsigned, unsigned] at htails
          rw [difference, unsigned, unsigned, List.map_cons, List.map_cons,
            List.cons_lt_cons_iff]
          by_cases hxy : x = y
          · subst hxy
            rw [if_pos rfl, htails]
            simp
          · have hne : x.toNat ≠ y.toNat := fun heq =>
              hxy (UInt8.toNat_inj.mp heq)
            rw [if_neg hxy]
            constructor
            · intro hneg
              exact Or.inl (by omega)
            · rintro (hlt | ⟨heq, -⟩)
              · omega
              · exact absurd heq hne

theorem difference_pos_iff (ha : 0 ∉ a) (hb : 0 ∉ b) :
    0 < difference a b ↔ unsigned b < unsigned a := by
  rw [← difference_neg_iff hb ha, difference_swap a b, neg_lt_zero]

theorem difference_eq_zero_iff (ha : 0 ∉ a) (hb : 0 ∉ b) :
    difference a b = 0 ↔ a = b := by
  constructor
  · intro hzero
    rw [← unsigned_inj]
    apply le_antisymm
    · rw [← not_lt, ← difference_pos_iff ha hb, hzero]
      exact lt_irrefl 0
    · rw [← not_lt, ← difference_neg_iff ha hb, hzero]
      exact lt_irrefl 0
  · rintro rfl
    exact difference_self a

theorem difference_trans {c : List UInt8} (ha : 0 ∉ a) (hb : 0 ∉ b)
    (hc : 0 ∉ c) (hab : difference a b ≤ 0) (hbc : difference b c ≤ 0) :
    difference a c ≤ 0 := by
  rw [← not_lt, difference_pos_iff ha hb, not_lt] at hab
  rw [← not_lt, difference_pos_iff hb hc, not_lt] at hbc
  rw [← not_lt, difference_pos_iff ha hc, not_lt]
  exact hab.trans hbc

/-- What lies behind the end of the first string does not matter. -/
theorem difference_take {n : ℕ} (hn : a.length < n) :
    difference (a.take n) (b.take n) = difference a b := by
  induction n generalizing a b with
  | zero => exact absurd hn (Nat.not_lt_zero _)
  | succ n ih =>
      cases a with
      | nil =>
          cases b with
          | nil => rfl
          | cons y ys =>
              rw [List.take_nil, List.take_succ_cons, difference, difference]
      | cons x xs =>
          cases b with
          | nil => rw [List.take_nil, List.take_succ_cons, difference,
              difference]
          | cons y ys =>
              rw [List.take_succ_cons, List.take_succ_cons, difference,
                difference, ih (Nat.lt_of_succ_lt_succ hn)]

end Order

/-! ## What the functions compute -/

section Strings

variable {m : Memory} {s s1 s2 : ℕ} {a b xs : List UInt8} {x : UInt8}

/-- Equality does not depend on the sign that a `char` has. -/
theorem toInt_toInt8_inj {x y : UInt8} :
    x.toInt8.toInt = y.toInt8.toInt ↔ x = y := by
  rw [Int8.toInt_inj]
  exact ⟨congrArg Int8.toUInt8, congrArg UInt8.toInt8⟩

theorem char_eq_iff : char m s1 = char m s2 ↔ m.byte s1 = m.byte s2 :=
  toInt_toInt8_inj

theorem char_eq_zero_iff : char m s = 0 ↔ m.byte s = 0 :=
  toInt_toInt8_inj (y := 0)

/-- A comparison of `a` and `b` that looks at no byte behind either of them,
nor at more than `n` bytes of each. -/
structure Compares (s1 s2 : ℕ) (a b : List UInt8) (n : ℕ) (x : Compared) :
    Prop where
  value : x.value = difference (a.take n) (b.take n)
  reads₁ : ∀ y ∈ x.reads₁, s1 ≤ y ∧ y ≤ s1 + a.length ∧ y < s1 + n
  reads₂ : ∀ y ∈ x.reads₂, s2 ≤ y ∧ y ≤ s2 + b.length ∧ y < s2 + n

theorem Compares.after {x : UInt8} {n : ℕ} {y : Compared}
    (h : Compares (s1 + 1) (s2 + 1) a b n y) :
    Compares s1 s2 (x :: a) (x :: b) (n + 1) (y.after s1 s2) := by
  refine ⟨?_, fun z hz => ?_, fun z hz => ?_⟩
  · rw [List.take_succ_cons, List.take_succ_cons, difference, if_pos rfl]
    exact h.value
  · rw [List.length_cons]
    rcases List.mem_cons.mp hz with rfl | hz
    · omega
    · rcases List.mem_cons.mp hz with rfl | hz
      · omega
      · have hrest := h.reads₁ z hz
        omega
  · rw [List.length_cons]
    rcases List.mem_cons.mp hz with rfl | hz
    · omega
    · have hrest := h.reads₂ z hz
      omega

/-- The strings differ at the pointers, or both end there. -/
theorem compares_byteDifference {n : ℕ} {reads₁ reads₂ : List ℕ}
    (ha : (Str.ptr s1).Reads m a) (hb : (Str.ptr s2).Reads m b)
    (hstop : m.byte s1 = 0 ∨ m.byte s1 ≠ m.byte s2)
    (hreads₁ : ∀ y ∈ reads₁, y = s1) (hreads₂ : ∀ y ∈ reads₂, y = s2) :
    Compares s1 s2 a b (n + 1) ⟨byteDifference m s1 s2, reads₁, reads₂⟩ := by
  refine ⟨?_, fun y hy => ?_, fun y hy => ?_⟩
  · change byteDifference m s1 s2 = _
    rw [byteDifference, load8, load8]
    cases a with
    | nil =>
        rw [reads_nil ha]
        cases b with
        | nil =>
            rw [reads_nil hb]
            rfl
        | cons y ys =>
            rw [(reads_cons hb).1, List.take_nil, List.take_succ_cons,
              difference]
            exact zero_sub _
    | cons x xs =>
        obtain ⟨hx, hx0, -⟩ := reads_cons ha
        rw [hx] at hstop ⊢
        have hne := hstop.resolve_left hx0
        cases b with
        | nil =>
            rw [reads_nil hb, List.take_nil, List.take_succ_cons, difference]
            exact sub_zero _
        | cons y ys =>
            rw [(reads_cons hb).1] at hne ⊢
            rw [List.take_succ_cons, List.take_succ_cons, difference,
              if_neg hne]
  · rw [hreads₁ y hy]
    omega
  · rw [hreads₂ y hy]
    omega

theorem strncmp_compares {n : ℕ} (ha : (Str.ptr s1).Reads m a)
    (hb : (Str.ptr s2).Reads m b) :
    Compares s1 s2 a b n (strncmp m n s1 s2) := by
  induction n generalizing s1 s2 a b with
  | zero =>
      refine ⟨?_, fun y hy => ?_, fun y hy => ?_⟩
      · rw [List.take_zero, List.take_zero]
        rfl
      · exact absurd hy List.not_mem_nil
      · exact absurd hy List.not_mem_nil
  | succ n ih =>
      rw [strncmp]
      split_ifs with hend heq
      · rw [ne_eq, char_eq_zero_iff] at hend
        rw [char_eq_iff] at heq
        cases a with
        | nil => exact absurd (reads_nil ha) hend
        | cons x xs =>
            obtain ⟨hx, hx0, hxs⟩ := reads_cons ha
            cases b with
            | nil =>
                rw [hx, reads_nil hb] at heq
                exact absurd heq hx0
            | cons y ys =>
                obtain ⟨hy, -, hys⟩ := reads_cons hb
                obtain rfl : x = y := hx.symm.trans (heq.trans hy)
                exact (ih hxs hys).after
      · rw [char_eq_iff] at heq
        exact compares_byteDifference ha hb (Or.inr heq) (by simp) (by simp)
      · rw [ne_eq, char_eq_zero_iff, not_not] at hend
        exact compares_byteDifference ha hb (Or.inl hend) (by simp) (by simp)

/-- `strcmp` is `strncmp` with a bound that the first string does not
reach. -/
theorem strcmp_eq_strncmp {fuel : ℕ} (ha : (Str.ptr s1).Reads m a)
    (hfuel : a.length < fuel) :
    strcmp m fuel s1 s2 = some (strncmp m fuel s1 s2) := by
  induction fuel generalizing s1 s2 a with
  | zero => exact absurd hfuel (Nat.not_lt_zero _)
  | succ fuel ih =>
      rw [strcmp, strncmp]
      split_ifs with hend heq
      · cases a with
        | nil => exact absurd (char_eq_zero_iff.mpr (reads_nil ha)) hend
        | cons x xs =>
            rw [ih (reads_cons ha).2.2 (Nat.lt_of_succ_lt_succ hfuel)]
            rfl
      · rfl
      · rfl

/-- `strcmp` computes the difference of the strings and reads no byte behind
either of them. -/
theorem strcmp_spec {fuel : ℕ} (ha : (Str.ptr s1).Reads m a)
    (hb : (Str.ptr s2).Reads m b) (hfuel : a.length < fuel) :
    ∃ x, strcmp m fuel s1 s2 = some x ∧ x.value = difference a b ∧
      (∀ y ∈ x.reads₁, s1 ≤ y ∧ y ≤ s1 + a.length) ∧
      ∀ y ∈ x.reads₂, s2 ≤ y ∧ y ≤ s2 + b.length := by
  have hcompares := strncmp_compares (n := fuel) ha hb
  refine ⟨_, strcmp_eq_strncmp ha hfuel, ?_, fun y hy => ?_, fun y hy => ?_⟩
  · rw [hcompares.value, difference_take hfuel]
  · exact ⟨(hcompares.reads₁ y hy).1, (hcompares.reads₁ y hy).2.1⟩
  · exact ⟨(hcompares.reads₂ y hy).1, (hcompares.reads₂ y hy).2.1⟩

/-- The result is the one of the string library. -/
theorem strcmp_value (m : Memory) (fuel s1 s2 : ℕ) :
    (strcmp m fuel s1 s2).map Compared.value =
      Memory.strcmp fuel (.ptr s1) (.ptr s2) m := by
  have hfrom : ∀ i, (strcmp m fuel (s1 + i) (s2 + i)).map Compared.value =
      strcmpFrom (.ptr s1) (.ptr s2) m fuel i := by
    induction fuel with
    | zero => exact fun i => rfl
    | succ fuel ih =>
        intro i
        rw [strcmp, strcmpFrom]
        by_cases hend : m.byte (s1 + i) = 0
        · rw [if_neg (not_not.mpr (char_eq_zero_iff.mpr hend)),
            if_neg fun hand => hand.1 hend]
          rfl
        · rw [if_pos fun hzero => hend (char_eq_zero_iff.mp hzero)]
          by_cases heq : m.byte (s1 + i) = m.byte (s2 + i)
          · rw [if_pos (char_eq_iff.mpr heq), if_pos ⟨hend, heq⟩,
              Option.map_map]
            exact ih (i + 1)
          · rw [if_neg fun hchar => heq (char_eq_iff.mp hchar),
              if_neg fun hand => heq hand.2]
            rfl
  exact hfrom 0

/-- `strcmp` orders the strings by their bytes as unsigned numbers and reads
no byte behind them; `strncmp` orders their prefixes in the same way and reads
at most `n` bytes of each. -/
theorem strcmp_ordersStrings {s3 fuel : ℕ} {c : List UInt8}
    (ha : (Str.ptr s1).Reads m a) (hb : (Str.ptr s2).Reads m b)
    (hc : (Str.ptr s3).Reads m c) (hafuel : a.length < fuel)
    (hbfuel : b.length < fuel) :
    ∃ ab ba bc ac, strcmp m fuel s1 s2 = some ab ∧
      strcmp m fuel s2 s1 = some ba ∧ strcmp m fuel s2 s3 = some bc ∧
      strcmp m fuel s1 s3 = some ac ∧
      (ab.value = 0 ↔ a = b) ∧
      (ab.value < 0 ↔ unsigned a < unsigned b) ∧
      (0 < ab.value ↔ unsigned b < unsigned a) ∧
      ba.value = -ab.value ∧
      (ab.value ≤ 0 → bc.value ≤ 0 → ac.value ≤ 0) ∧
      (∀ y ∈ ab.reads₁, s1 ≤ y ∧ y ≤ s1 + a.length) ∧
      (∀ y ∈ ab.reads₂, s2 ≤ y ∧ y ≤ s2 + b.length) ∧
      ∀ n, (∀ y ∈ (strncmp m n s1 s2).reads₁, s1 ≤ y ∧ y < s1 + n) ∧
        (∀ y ∈ (strncmp m n s1 s2).reads₂, s2 ≤ y ∧ y < s2 + n) ∧
        ∀ m' p1 p2, (Str.ptr p1).Reads m' (a.take n) →
          (Str.ptr p2).Reads m' (b.take n) →
          ∃ x, strcmp m' fuel p1 p2 = some x ∧
            (strncmp m n s1 s2).value.sign = x.value.sign := by
  obtain ⟨ab, hab, habValue, hreads₁, hreads₂⟩ := strcmp_spec ha hb hafuel
  obtain ⟨ba, hba, hbaValue, -⟩ := strcmp_spec hb ha hbfuel
  obtain ⟨bc, hbc, hbcValue, -⟩ := strcmp_spec hb hc hbfuel
  obtain ⟨ac, hac, hacValue, -⟩ := strcmp_spec ha hc hafuel
  refine ⟨ab, ba, bc, ac, hab, hba, hbc, hac, ?_, ?_, ?_, ?_, ?_, hreads₁,
    hreads₂, fun n => ?_⟩
  · rw [habValue, difference_eq_zero_iff ha.text hb.text]
  · rw [habValue, difference_neg_iff ha.text hb.text]
  · rw [habValue, difference_pos_iff ha.text hb.text]
  · rw [habValue, hbaValue, difference_swap]
  · rw [habValue, hbcValue, hacValue]
    exact difference_trans ha.text hb.text hc.text
  · have hcompares := strncmp_compares (n := n) ha hb
    refine ⟨fun y hy => ?_, fun y hy => ?_, fun m' p1 p2 hp1 hp2 => ?_⟩
    · exact ⟨(hcompares.reads₁ y hy).1, (hcompares.reads₁ y hy).2.2⟩
    · exact ⟨(hcompares.reads₂ y hy).1, (hcompares.reads₂ y hy).2.2⟩
    · have hlength : (a.take n).length < fuel :=
        (List.length_take_le' n a).trans_lt hafuel
      obtain ⟨x, hx, hvalue, -⟩ := strcmp_spec hp1 hp2 hlength
      exact ⟨x, hx, by rw [hcompares.value, hvalue]⟩

end Strings

/-- The strings `a` followed by the byte `0x80`, `a`, and `b`. -/
def threeStrings : Memory where
  byte x := [0x61, 0x80, 0, 0x61, 0, 0x62, 0].getD x 0
  stores := []

/-- A byte from `0x80` on counts as a large one. -/
theorem strcmp_ordersStrings_threeStrings :
    ∃ ab bc, strcmp threeStrings 4 0 3 = some ab ∧
      strcmp threeStrings 4 3 5 = some bc ∧ 0 < ab.value ∧ bc.value < 0 := by
  have ha : (Str.ptr 0).Reads threeStrings [0x61, 0x80] :=
    ⟨by decide, by decide⟩
  have hb : (Str.ptr 3).Reads threeStrings [0x61] := ⟨by decide, by decide⟩
  have hc : (Str.ptr 5).Reads threeStrings [0x62] := ⟨by decide, by decide⟩
  obtain ⟨ab, -, -, -, hab, -, -, -, -, -, hpos, -⟩ :=
    strcmp_ordersStrings ha hb hc (by decide : _ < 4) (by decide)
  obtain ⟨bc, -, -, -, hbc, -, -, -, -, hneg, -⟩ :=
    strcmp_ordersStrings hb hc ha (by decide : _ < 4) (by decide)
  exact ⟨ab, bc, hab, hbc, hpos.mpr (by decide), hneg.mpr (by decide)⟩

end BabOs.Common
