import BabOs.Library.Copy

/-!
# Byte strings in memory

This module says what it means that a list of bytes, or a string with its
terminating `0`, lies in memory, and what `strcpy` and `strcmp` do with it.
-/

namespace BabOs

namespace Memory

/-! ## Memories that agree -/

/-- `m'` has the bytes of `m` on `S`. -/
def SameOn (S : Set ℕ) (m m' : Memory) : Prop :=
  ∀ a ∈ S, m'.byte a = m.byte a

section SameOn

variable {S T : Set ℕ} {m m' m'' : Memory} {a v dest src n : ℕ}

theorem SameOn.refl (S : Set ℕ) (m : Memory) : SameOn S m m :=
  fun _ _ => rfl

theorem SameOn.trans (h : SameOn S m m') (h' : SameOn S m' m'') :
    SameOn S m m'' :=
  fun a ha => (h' a ha).trans (h a ha)

theorem SameOn.mono (h : SameOn T m m') (hST : S ⊆ T) : SameOn S m m' :=
  fun a ha => h a (hST ha)

theorem SameOn.store32 (h : SameOn S m m')
    (ha : Disjoint S (Set.Ico a (a + 4))) : SameOn S m (m'.store32 a v) := by
  intro b hb
  rw [← h b hb]
  apply byte_store32_of_disjoint
  have hout := Set.disjoint_left.mp ha hb
  rw [Set.mem_Ico] at hout
  omega

theorem SameOn.copy (h : SameOn S m m')
    (hdest : Disjoint S (Set.Ico dest (dest + n))) :
    SameOn S m (m'.copy dest src n) := by
  intro b hb
  rw [← h b hb]
  apply byte_copy_of_disjoint
  have hout := Set.disjoint_left.mp hdest hb
  rw [Set.mem_Ico] at hout
  omega

theorem SameOn.load32 (h : SameOn S m m') (ha : Set.Ico a (a + 4) ⊆ S) :
    load32 m' a = load32 m a :=
  load32_congr fun b hlo hhi => h b (ha ⟨hlo, hhi⟩)

theorem SameOn.store8 (h : SameOn S m m') (ha : a ∉ S) :
    SameOn S m (m'.store8 a v) := by
  intro b hb
  rw [← h b hb]
  exact byte_store8_of_ne (ne_of_mem_of_not_mem hb ha)

/-- `m'` is `m` after stores all of which lie in `S`. -/
structure WritesWithin (S : Set ℕ) (m m' : Memory) : Prop where
  same : SameOn Sᶜ m m'
  stores : WritesOutside Sᶜ m m'

theorem WritesWithin.refl (S : Set ℕ) (m : Memory) : WritesWithin S m m :=
  ⟨SameOn.refl _ m, WritesOutside.refl _ m⟩

theorem WritesWithin.trans (h : WritesWithin S m m')
    (h' : WritesWithin S m' m'') : WritesWithin S m m'' :=
  ⟨h.same.trans h'.same, h.stores.trans h'.stores⟩

theorem WritesWithin.mono (h : WritesWithin S m m') (hST : S ⊆ T) :
    WritesWithin T m m' :=
  ⟨h.same.mono (Set.compl_subset_compl.mpr hST),
    h.stores.mono (Set.compl_subset_compl.mpr hST)⟩

theorem WritesWithin.store8 (h : WritesWithin S m m') (ha : a ∈ S) :
    WritesWithin S m (m'.store8 a v) := by
  refine ⟨h.same.store8 fun hout => hout ha, h.stores.store8 ?_⟩
  rw [Set.disjoint_compl_right_iff_subset]
  intro x hx
  obtain rfl : x = a := by
    rw [Set.mem_Ico] at hx
    omega
  exact ha

theorem WritesWithin.byte (h : WritesWithin S m m') (ha : a ∉ S) :
    m'.byte a = m.byte a :=
  h.same a ha

end SameOn

/-! ## Bytes -/

def Holds (m : Memory) (a : ℕ) (bs : List UInt8) : Prop :=
  ∀ i (hi : i < bs.length), m.byte (a + i) = bs[i]

section Holds

variable {m m' : Memory} {S : Set ℕ} {a dest n : ℕ} {bs xs ys : List UInt8}

theorem holds_nil (m : Memory) (a : ℕ) : Holds m a [] :=
  fun i hi => absurd hi (Nat.not_lt_zero i)

theorem holds_append :
    Holds m a (xs ++ ys) ↔ Holds m a xs ∧ Holds m (a + xs.length) ys := by
  constructor
  · intro h
    constructor
    · intro i hi
      rw [h i (by rw [List.length_append]; omega), List.getElem_append_left hi]
    · intro i hi
      have hlt : xs.length + i < (xs ++ ys).length := by
        rw [List.length_append]
        omega
      rw [add_assoc, h _ hlt, List.getElem_append_right (by omega)]
      congr 1
      omega
  · rintro ⟨hxs, hys⟩ i hi
    rw [List.length_append] at hi
    rcases Nat.lt_or_ge i xs.length with hlt | hge
    · rw [List.getElem_append_left hlt, hxs i hlt]
    · rw [List.getElem_append_right hge, ← hys (i - xs.length) (by omega)]
      congr 1
      omega

theorem Holds.congr (h : Holds m a bs) (hsame : SameOn S m m')
    (hS : Set.Ico a (a + bs.length) ⊆ S) : Holds m' a bs := by
  intro i hi
  rw [← h i hi]
  exact hsame _ (hS ⟨Nat.le_add_right a i, Nat.add_lt_add_left hi a⟩)

/-- A copy between blocks that lie apart. -/
theorem Holds.copy {src : ℕ} (h : Holds m src bs)
    (hapart : src + bs.length ≤ dest ∨ dest + bs.length ≤ src) :
    Holds (m.copy dest src bs.length) dest bs := by
  intro i hi
  rw [byte_copy (by omega) hi, h i hi]

/-- The parts of a concatenation. -/
theorem Holds.flatten {parts : List (List UInt8)} (h : Holds m a parts.flatten)
    {i : ℕ} {part : List UInt8} (hi : parts[i]? = some part) :
    Holds m (a + ((parts.take i).map List.length).sum) part := by
  induction parts generalizing a i with
  | nil => cases hi
  | cons first parts ih =>
      rw [List.flatten_cons, holds_append] at h
      cases i with
      | zero =>
          obtain rfl : first = part := Option.some.inj hi
          exact h.1
      | succ i =>
          rw [List.take_succ_cons, List.map_cons, List.sum_cons, ← add_assoc]
          exact ih h.2 hi

/-- The four bytes of a word, the least significant one first. -/
def wordBytes (n : ℕ) : List UInt8 :=
  (List.range 4).map fun i => UInt8.ofNat (n / 256 ^ i)

@[simp] theorem length_wordBytes (n : ℕ) : (wordBytes n).length = 4 := by
  rw [wordBytes, List.length_map, List.length_range]

theorem Holds.load32 {n : ℕ} (h : Holds m a (wordBytes n)) :
    load32 m a = uint32 n := by
  have hbyte : ∀ i (hi : i < 4), load8 m (a + i) = n / 256 ^ i % 256 := by
    intro i hi
    have hlt : i < (wordBytes n).length := by rwa [length_wordBytes]
    have hword : (wordBytes n)[i] = UInt8.ofNat (n / 256 ^ i) := by
      simp [wordBytes]
    rw [load8, h i hlt, hword, UInt8.toNat_ofNat']
  have h₀ := hbyte 0 (by norm_num)
  have h₁ := hbyte 1 (by norm_num)
  have h₂ := hbyte 2 (by norm_num)
  have h₃ := hbyte 3 (by norm_num)
  norm_num at h₀ h₁ h₂ h₃
  rw [Memory.load32, h₀, h₁, h₂, h₃, uint32]
  omega

end Holds

/-! ## Strings -/

/-- The argument of a string function: a literal, or a pointer. -/
inductive Str where
  | lit (s : List UInt8)
  | ptr (a : ℕ)

def Str.byte (m : Memory) : Str → ℕ → UInt8
  | .lit s, i => s.getD i 0
  | .ptr a, i => m.byte (a + i)

/-- `strcpy`, from the byte `i` on. -/
def strcpyFrom (dest : ℕ) (src : Str) :
    (fuel i : ℕ) → Memory → Option Memory
  | 0, _, _ => none
  | fuel + 1, i, m =>
      let c := src.byte m i
      let m := m.store8 (dest + i) c.toNat
      if c = 0 then some m else strcpyFrom dest src fuel (i + 1) m

def strcpy (fuel dest : ℕ) (src : Str) (m : Memory) : Option Memory :=
  strcpyFrom dest src fuel 0 m

/-- `strcmp`, from the byte `i` on. -/
def strcmpFrom (s₁ s₂ : Str) (m : Memory) : (fuel i : ℕ) → Option ℤ
  | 0, _ => none
  | fuel + 1, i =>
      if s₁.byte m i ≠ 0 ∧ s₁.byte m i = s₂.byte m i then
        strcmpFrom s₁ s₂ m fuel (i + 1)
      else some ((s₁.byte m i).toNat - (s₂.byte m i).toNat)

def strcmp (fuel : ℕ) (s₁ s₂ : Str) (m : Memory) : Option ℤ :=
  strcmpFrom s₁ s₂ m fuel 0

/-- `s` is the string `text`. -/
structure Str.Reads (m : Memory) (s : Str) (text : List UInt8) : Prop where
  byte : ∀ i ≤ text.length, s.byte m i = text.getD i 0
  text : 0 ∉ text

section Strings

variable {m m' : Memory} {S : Set ℕ} {s s₁ s₂ src : Str}
variable {text t₁ t₂ : List UInt8} {a dest fuel : ℕ}

theorem reads_lit (h : 0 ∉ text) : (Str.lit text).Reads m text :=
  ⟨fun _ _ => rfl, h⟩

/-- Bytes with a `0` behind them are a string. -/
theorem Holds.reads (h : Holds m a text) (hnul : m.byte (a + text.length) = 0)
    (htext : 0 ∉ text) : (Str.ptr a).Reads m text := by
  refine ⟨fun i hi => ?_, htext⟩
  rcases Nat.eq_or_lt_of_le hi with rfl | hlt
  · rw [List.getD_eq_default _ _ le_rfl]
    exact hnul
  · rw [List.getD_eq_getElem _ _ hlt]
    exact h i hlt

theorem Str.Reads.cons {c : UInt8} (h : (Str.ptr (a + 1)).Reads m text)
    (hc : m.byte a = c) (hc0 : c ≠ 0) : (Str.ptr a).Reads m (c :: text) := by
  refine ⟨fun i hi => ?_, ?_⟩
  · cases i with
    | zero => exact hc
    | succ i =>
        have hbyte := h.byte i (Nat.le_of_succ_le_succ hi)
        have haddr : a + (i + 1) = a + 1 + i := by omega
        rwa [Str.byte, haddr, List.getD_cons_succ]
  · rintro (_ | ⟨_, hmem⟩)
    · exact hc0 rfl
    · exact h.text hmem

theorem reads_nil (h : (Str.ptr a).Reads m []) : m.byte a = 0 :=
  h.byte 0 le_rfl

theorem reads_cons {c : UInt8} (h : (Str.ptr a).Reads m (c :: text)) :
    m.byte a = c ∧ c ≠ 0 ∧ (Str.ptr (a + 1)).Reads m text := by
  refine ⟨h.byte 0 (Nat.zero_le _), ?_, fun i hi => ?_, ?_⟩
  · rintro rfl
    exact h.text List.mem_cons_self
  · have hbyte := h.byte (i + 1) (Nat.succ_le_succ hi)
    have haddr : a + (i + 1) = a + 1 + i := by omega
    rwa [Str.byte, haddr] at hbyte
  · exact fun hmem => h.text (List.mem_cons_of_mem c hmem)

/-- The bytes that a string occupies; a literal has none of its own. -/
def Str.range (s : Str) (n : ℕ) : Set ℕ :=
  match s with
  | .lit _ => ∅
  | .ptr a => Set.Ico a (a + n)

theorem Str.byte_congr (hsame : SameOn S m m') {i n : ℕ}
    (hS : s.range n ⊆ S) (hi : i < n) : s.byte m' i = s.byte m i := by
  cases s with
  | lit s => rfl
  | ptr a =>
      exact hsame _ (hS ⟨Nat.le_add_right a i, Nat.add_lt_add_left hi a⟩)

theorem Str.Reads.congr (h : s.Reads m text) (hsame : SameOn S m m')
    (hS : s.range (text.length + 1) ⊆ S) : s.Reads m' text := by
  refine ⟨fun i hi => ?_, h.text⟩
  rw [Str.byte_congr hsame hS (Nat.lt_succ_of_le hi), h.byte i hi]

theorem getD_eq_zero_iff (h : 0 ∉ text) {i : ℕ} :
    text.getD i 0 = 0 ↔ text.length ≤ i := by
  rw [List.getD_eq_getElem?_getD]
  constructor
  · intro hzero
    by_contra hlt
    rw [List.getElem?_eq_getElem (not_le.mp hlt), Option.getD_some] at hzero
    exact h (hzero ▸ List.getElem_mem _)
  · intro hle
    rw [List.getElem?_eq_none hle]
    rfl

/-- A string is determined by its bytes. -/
theorem eq_of_getD_eq (h₁ : 0 ∉ t₁) (h₂ : 0 ∉ t₂)
    (h : ∀ i, t₁.getD i 0 = t₂.getD i 0) : t₁ = t₂ := by
  have hlen : t₁.length = t₂.length := by
    apply le_antisymm
    · rw [← getD_eq_zero_iff h₁, h, getD_eq_zero_iff h₂]
    · rw [← getD_eq_zero_iff h₂, ← h, getD_eq_zero_iff h₁]
  refine List.ext_getElem hlen fun i hi₁ hi₂ => ?_
  have hi := h i
  rwa [List.getD_eq_getElem _ _ hi₁, List.getD_eq_getElem _ _ hi₂] at hi

/-- There is one string at a place. -/
theorem Str.Reads.unique (h₁ : s.Reads m t₁) (h₂ : s.Reads m t₂) : t₁ = t₂ := by
  have hlen {t t' : List UInt8} (h : s.Reads m t) (h' : s.Reads m t') :
      t.length ≤ t'.length := by
    by_contra hlt
    rw [not_le] at hlt
    have hnul : s.byte m t'.length = 0 := by
      rw [h'.byte _ le_rfl, List.getD_eq_default _ _ le_rfl]
    rw [h.byte _ hlt.le, getD_eq_zero_iff h.text] at hnul
    omega
  have heq := le_antisymm (hlen h₁ h₂) (hlen h₂ h₁)
  refine List.ext_getElem heq fun i hi₁ hi₂ => ?_
  have hbyte := (h₁.byte i hi₁.le).symm.trans (h₂.byte i hi₂.le)
  rwa [List.getD_eq_getElem _ _ hi₁, List.getD_eq_getElem _ _ hi₂] at hbyte

theorem strcpyFrom_reads {i : ℕ} (h : src.Reads m text)
    (hapart : Disjoint (src.range (text.length + 1))
      (Set.Ico dest (dest + (text.length + 1))))
    (hi : i ≤ text.length) (hfuel : text.length - i < fuel) :
    ∃ m', strcpyFrom dest src fuel i m = some m' ∧
      (∀ j, i ≤ j → j ≤ text.length → m'.byte (dest + j) = text.getD j 0) ∧
      ∀ x, x < dest + i ∨ dest + (text.length + 1) ≤ x →
        m'.byte x = m.byte x := by
  induction fuel generalizing i m with
  | zero => exact absurd hfuel (Nat.not_lt_zero _)
  | succ fuel ih =>
      have hbyte := h.byte i hi
      have hsame : SameOn (src.range (text.length + 1)) m
          (m.store8 (dest + i) (src.byte m i).toNat) := by
        intro x hx
        apply byte_store8_of_ne
        rintro rfl
        exact Set.disjoint_left.mp hapart hx ⟨by omega, by omega⟩
      have hstore : (m.store8 (dest + i) (src.byte m i).toNat).byte (dest + i) =
          text.getD i 0 := by
        rw [byte_store8, UInt8.ofNat_toNat, hbyte]
      rw [strcpyFrom]
      by_cases hzero : src.byte m i = 0
      · have hend : text.length ≤ i := by
          rwa [← getD_eq_zero_iff h.text, ← hbyte]
        rw [if_pos hzero]
        refine ⟨_, rfl, fun j hij hj => ?_, fun x hx => ?_⟩
        · obtain rfl : j = i := by omega
          exact hstore
        · exact byte_store8_of_ne (by omega)
      · have hlt : i < text.length := by
          by_contra hge
          rw [hbyte, getD_eq_zero_iff h.text] at hzero
          exact hzero (not_lt.mp hge)
        obtain ⟨m', hcopy, hin, hout⟩ :=
          ih (h.congr hsame subset_rfl) (show i + 1 ≤ _ from hlt) (by omega)
        rw [if_neg hzero]
        refine ⟨m', hcopy, fun j hij hj => ?_, fun x hx => ?_⟩
        · rcases Nat.eq_or_lt_of_le hij with rfl | hlater
          · rw [hout _ (by omega), hstore]
          · exact hin j hlater hj
        · rw [hout x (by omega), byte_store8_of_ne (by omega)]

/-- `strcpy` makes the string at `dest`, and changes nothing else. -/
theorem strcpy_reads (h : src.Reads m text)
    (hapart : Disjoint (src.range (text.length + 1))
      (Set.Ico dest (dest + (text.length + 1))))
    (hfuel : text.length < fuel) :
    ∃ m', strcpy fuel dest src m = some m' ∧ (Str.ptr dest).Reads m' text ∧
      SameOn (Set.Ico dest (dest + (text.length + 1)))ᶜ m m' := by
  obtain ⟨m', hcopy, hin, hout⟩ :=
    strcpyFrom_reads h hapart (Nat.zero_le _)
      (show text.length - 0 < fuel from hfuel)
  refine ⟨m', hcopy, ⟨fun i hi => hin i (Nat.zero_le i) hi, h.text⟩, ?_⟩
  intro x hx
  rw [Set.mem_compl_iff, Set.mem_Ico] at hx
  exact hout x (by omega)

theorem strcmpFrom_reads {i : ℕ} (h₁ : s₁.Reads m t₁) (h₂ : s₂.Reads m t₂)
    (hi : i ≤ t₁.length) (hi₂ : i ≤ t₂.length)
    (hbefore : ∀ j < i, t₁.getD j 0 = t₂.getD j 0)
    (hfuel : t₁.length - i < fuel) :
    ∃ v, strcmpFrom s₁ s₂ m fuel i = some v ∧ (v = 0 ↔ t₁ = t₂) := by
  induction fuel generalizing i with
  | zero => exact absurd hfuel (Nat.not_lt_zero _)
  | succ fuel ih =>
      rw [strcmpFrom, h₁.byte i hi, h₂.byte i hi₂]
      by_cases hnext : t₁.getD i 0 ≠ 0 ∧ t₁.getD i 0 = t₂.getD i 0
      · have hlt : i < t₁.length := by
          rw [← not_le, ← getD_eq_zero_iff h₁.text]
          exact hnext.1
        have hlt₂ : i < t₂.length := by
          rw [← not_le, ← getD_eq_zero_iff h₂.text, ← hnext.2]
          exact hnext.1
        rw [if_pos hnext]
        apply ih hlt hlt₂
        · intro j hj
          rcases Nat.eq_or_lt_of_le (Nat.le_of_lt_succ hj) with rfl | hlt
          · exact hnext.2
          · exact hbefore j hlt
        · omega
      · rw [if_neg hnext]
        refine ⟨_, rfl, ?_⟩
        constructor
        · intro hzero
          have heq : t₁.getD i 0 = t₂.getD i 0 := by
            apply UInt8.toNat_inj.mp
            omega
          have hnul : t₁.getD i 0 = 0 := by
            by_contra hne
            exact hnext ⟨hne, heq⟩
          have hend := (getD_eq_zero_iff h₁.text).mp hnul
          have hend₂ := (getD_eq_zero_iff h₂.text).mp (heq ▸ hnul)
          apply eq_of_getD_eq h₁.text h₂.text
          intro j
          rcases Nat.lt_or_ge j i with hj | hj
          · exact hbefore j hj
          · rw [(getD_eq_zero_iff h₁.text).mpr (hend.trans hj),
              (getD_eq_zero_iff h₂.text).mpr (hend₂.trans hj)]
        · rintro rfl
          exact sub_self _

/-- `strcmp` is `0` on equal strings only. -/
theorem strcmp_reads (h₁ : s₁.Reads m t₁) (h₂ : s₂.Reads m t₂)
    (hfuel : t₁.length < fuel) :
    ∃ v, strcmp fuel s₁ s₂ m = some v ∧ (v = 0 ↔ t₁ = t₂) := by
  apply strcmpFrom_reads h₁ h₂ (Nat.zero_le _) (Nat.zero_le _)
  · intro j hj
    exact absurd hj (Nat.not_lt_zero j)
  · exact hfuel

end Strings

end Memory

end BabOs
