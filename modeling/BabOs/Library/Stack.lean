import BabOs.Library.Strings

/-!
# Words on a stack

The words of a stack lie one above the other from the address in the stack
pointer on.  The stack pointer is a 32-bit register, so addresses wrap around;
a stack of fewer than `2 ^ 30` words does not reach round to itself.
-/

namespace BabOs

namespace Memory

/-- The word at an address held in a register. -/
def word (m : Memory) (a : UInt32) : UInt32 := UInt32.ofNat (m.load32 a.toNat)

def setWord (m : Memory) (a v : UInt32) : Memory := m.store32 a.toNat v.toNat

/-- The words from `a` on are `ws`. -/
def HoldsWords (m : Memory) : (a : UInt32) → (ws : List UInt32) → Prop
  | _, [] => True
  | a, w :: ws => m.word a = w ∧ HoldsWords m (a + 4) ws

/-- The bytes of `n` words from `a` on. -/
def wordsAt : (a : UInt32) → (n : ℕ) → Set ℕ
  | _, 0 => ∅
  | a, n + 1 => Set.Ico a.toNat (a.toNat + 4) ∪ wordsAt (a + 4) n

section Words

variable {m m' : Memory} {a v w : UInt32} {ws : List UInt32} {n : ℕ}

@[simp] theorem holdsWords_nil : m.HoldsWords a [] :=
  trivial

@[simp] theorem holdsWords_cons :
    m.HoldsWords a (w :: ws) ↔ m.word a = w ∧ m.HoldsWords (a + 4) ws :=
  Iff.rfl

@[simp] theorem word_setWord : (m.setWord a v).word a = v := by
  rw [word, setWord, load32_store32, uint32_eq_of_lt v.toNat_lt,
    UInt32.ofNat_toNat]

theorem mem_wordsAt_iff {x : ℕ} :
    x ∈ wordsAt a n ↔ ∃ i < n, ∃ k < 4,
      x = (a.toNat + 4 * i) % 2 ^ 32 + k := by
  induction n generalizing a with
  | zero => simp [wordsAt]
  | succ n ih =>
      have ha := a.toNat_lt
      rw [wordsAt, Set.mem_union, Set.mem_Ico, ih]
      have hnext : (a + 4).toNat = (a.toNat + 4) % 2 ^ 32 :=
        UInt32.toNat_add a 4
      rw [hnext]
      constructor
      · rintro (⟨hlo, hhi⟩ | ⟨i, hi, k, hk, rfl⟩)
        · exact ⟨0, by omega, x - a.toNat, by omega, by omega⟩
        · exact ⟨i + 1, by omega, k, hk, by omega⟩
      · rintro ⟨i, hi, k, hk, rfl⟩
        cases i with
        | zero => exact Or.inl ⟨by omega, by omega⟩
        | succ i => exact Or.inr ⟨i, by omega, k, hk, by omega⟩

/-- The word below a stack is not a word of it. -/
theorem disjoint_wordsAt_below (hn : n < 2 ^ 30) :
    Disjoint (wordsAt a n) (Set.Ico (a - 4).toNat ((a - 4).toNat + 4)) := by
  refine Set.disjoint_left.mpr fun x hx hbelow => ?_
  obtain ⟨i, hi, k, hk, rfl⟩ := mem_wordsAt_iff.mp hx
  have ha := a.toNat_lt
  have hsub : (a - 4).toNat = (2 ^ 32 - 4 + a.toNat) % 2 ^ 32 :=
    UInt32.toNat_sub a 4
  rw [Set.mem_Ico, hsub] at hbelow
  omega

theorem SameOn.setWord {S : Set ℕ} (h : SameOn S m m')
    (ha : Disjoint S (Set.Ico a.toNat (a.toNat + 4))) :
    SameOn S m (m'.setWord a v) :=
  h.store32 ha

theorem SameOn.word {S : Set ℕ} (h : SameOn S m m')
    (ha : Set.Ico a.toNat (a.toNat + 4) ⊆ S) : m'.word a = m.word a :=
  congrArg UInt32.ofNat (h.load32 ha)

/-- Words stay where their bytes are left alone. -/
theorem HoldsWords.sameOn (h : m.HoldsWords a ws) {S : Set ℕ} (hsame : SameOn S m m')
    (hS : wordsAt a ws.length ⊆ S) : m'.HoldsWords a ws := by
  induction ws generalizing a with
  | nil => trivial
  | cons w ws ih =>
      rw [List.length_cons, wordsAt, Set.union_subset_iff] at hS
      rw [holdsWords_cons] at h ⊢
      exact ⟨(hsame.word hS.1).trans h.1, ih h.2 hS.2⟩

/-- A word is pushed below the others. -/
theorem HoldsWords.push (h : m.HoldsWords a ws) (hlen : ws.length < 2 ^ 30) :
    (m.setWord (a - 4) v).HoldsWords (a - 4) (v :: ws) := by
  rw [holdsWords_cons, UInt32.sub_add_cancel]
  have hsame : SameOn (wordsAt a ws.length) m (m.setWord (a - 4) v) :=
    (SameOn.refl _ m).setWord (disjoint_wordsAt_below hlen)
  exact ⟨word_setWord, h.sameOn hsame Set.Subset.rfl⟩

end Words

/-! ## Pushing -/

/-- `v` is stored below the stack at `p.1` in the memory `p.2`. -/
def pushWord (p : UInt32 × Memory) (v : UInt32) : UInt32 × Memory :=
  (p.1 - 4, p.2.setWord (p.1 - 4) v)

/-- The words `vs` are pushed one after the other. -/
def pushWords (p : UInt32 × Memory) (vs : List UInt32) : UInt32 × Memory :=
  vs.foldl pushWord p

section Pushing

variable {p : UInt32 × Memory} {ws vs : List UInt32} {v : UInt32}

theorem pushWords_cons :
    pushWords p (v :: vs) = pushWords (pushWord p v) vs :=
  rfl

theorem pushWords_concat :
    pushWords p (vs ++ [v]) = pushWord (pushWords p vs) v := by
  rw [pushWords, List.foldl_concat]
  rfl

/-- What has been pushed last lies lowest. -/
theorem holdsWords_pushWords (h : p.2.HoldsWords p.1 ws)
    (hlen : ws.length + vs.length ≤ 2 ^ 30) :
    (pushWords p vs).2.HoldsWords (pushWords p vs).1
      (vs.reverse ++ ws) := by
  induction vs generalizing p ws with
  | nil => exact h
  | cons v vs ih =>
      rw [List.length_cons] at hlen
      have hpush : (pushWord p v).2.HoldsWords (pushWord p v).1 (v :: ws) :=
        h.push (by omega)
      rw [pushWords_cons, List.reverse_cons, List.append_assoc]
      apply ih hpush
      rw [List.length_cons]
      omega

theorem fst_pushWords :
    (pushWords p vs).1 = p.1 - 4 * UInt32.ofNat vs.length := by
  induction vs generalizing p with
  | nil => simp [pushWords]
  | cons v vs ih =>
      have hfst : (pushWord p v).1 = p.1 - 4 := rfl
      have hone : UInt32.ofNat (vs.length + 1) = UInt32.ofNat vs.length + 1 :=
        UInt32.ofNat_add _ _
      rw [pushWords_cons, ih, hfst, List.length_cons, hone, UInt32.mul_add,
        UInt32.mul_one, UInt32.sub_eq_add_neg, UInt32.sub_eq_add_neg,
        UInt32.sub_eq_add_neg, UInt32.neg_add, UInt32.sub_eq_add_neg,
        UInt32.add_assoc, UInt32.add_comm (-4)]

/-- Only the bytes of the new words are written. -/
theorem sameOn_pushWords {S : Set ℕ}
    (hS : Disjoint S (wordsAt (pushWords p vs).1 vs.length)) :
    SameOn S p.2 (pushWords p vs).2 := by
  induction vs using List.reverseRecOn with
  | nil => exact SameOn.refl S p.2
  | append_singleton vs v ih =>
      rw [pushWords_concat] at hS ⊢
      have hfst : (pushWord (pushWords p vs) v).1 = (pushWords p vs).1 - 4 :=
        rfl
      rw [hfst, List.length_append, List.length_singleton, wordsAt,
        UInt32.sub_add_cancel, Set.disjoint_union_right] at hS
      exact (ih hS.2).setWord hS.1

end Pushing

end Memory

end BabOs
