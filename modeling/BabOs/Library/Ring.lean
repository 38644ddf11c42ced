import Mathlib.Tactic

/-!
# Ring buffers

A queue in an array whose indices wrap around.  The indices are signed
integers, whose remainder truncates.
-/

namespace BabOs.Ring

/-- The `count` elements from `head` on are the queue `q`; the next element
goes to `tail`. -/
structure Holds {α : Type*} (capacity : ℕ) (buffer : ℤ → α)
    (head tail count : ℤ) (q : List α) : Prop where
  head_nonneg : 0 ≤ head
  head_lt : head < capacity
  count_eq : count = q.length
  length_le : q.length ≤ capacity
  tail_eq : tail = (head + count) % capacity
  get : ∀ i (hi : i < q.length), buffer ((head + i) % capacity) = q[i]

section Ring

variable {α : Type*} {capacity : ℕ} {buffer : ℤ → α} {head tail count : ℤ}
variable {q : List α} {x : α}

theorem holds_nil (buffer : ℤ → α) (hcapacity : 0 < capacity) :
    Holds capacity buffer 0 0 0 [] where
  head_nonneg := le_rfl
  head_lt := Int.natCast_pos.mpr hcapacity
  count_eq := rfl
  length_le := Nat.zero_le _
  tail_eq := rfl
  get i hi := absurd hi (Nat.not_lt_zero i)

theorem Holds.capacity_pos (h : Holds capacity buffer head tail count q) :
    0 < (capacity : ℤ) :=
  h.head_nonneg.trans_lt h.head_lt

theorem Holds.tail_nonneg (h : Holds capacity buffer head tail count q) :
    0 ≤ tail := by
  rw [h.tail_eq]
  exact Int.emod_nonneg _ h.capacity_pos.ne'

/-- Less than a round apart, two elements have different places. -/
theorem index_ne {i j : ℕ} (hij : i < j) (hj : j < i + capacity) :
    (head + i) % capacity ≠ (head + j) % capacity := by
  intro heq
  have hsub : (capacity : ℤ) ∣ (head + j) - (head + i) :=
    Int.ModEq.dvd heq
  have hpos : 0 < (head + j) - (head + i) := by omega
  have hle := Int.le_of_dvd hpos hsub
  omega

/-- An element is put behind the others. -/
theorem Holds.push (h : Holds capacity buffer head tail count q)
    (hroom : count < capacity) (x : α) :
    Holds capacity (Function.update buffer tail x) head
      ((tail + 1).tmod capacity) (count + 1) (q ++ [x]) where
  head_nonneg := h.head_nonneg
  head_lt := h.head_lt
  count_eq := by
    rw [h.count_eq, List.length_append, List.length_singleton]
    rfl
  length_le := by
    have hcount := h.count_eq
    rw [List.length_append, List.length_singleton]
    omega
  tail_eq := by
    have hnonneg := h.tail_nonneg
    rw [Int.tmod_eq_emod_of_nonneg (by omega), h.tail_eq, Int.emod_add_emod,
      add_assoc]
  get i hi := by
    have hcount := h.count_eq
    have hplace : tail = (head + q.length) % capacity := by
      rw [h.tail_eq, hcount]
    rw [List.length_append, List.length_singleton] at hi
    rcases Nat.eq_or_lt_of_le (Nat.le_of_lt_succ hi) with rfl | hlt
    · rw [← hplace, Function.update_self, List.getElem_append_right le_rfl]
      simp
    · rw [Function.update_of_ne, List.getElem_append_left hlt, h.get i hlt]
      rw [hplace]
      exact index_ne hlt (by omega)

/-- The first element is taken away. -/
theorem Holds.pop (h : Holds capacity buffer head tail count (x :: q)) :
    buffer head = x ∧
      Holds capacity buffer ((head + 1).tmod capacity) tail (count - 1) q := by
  have hnonneg := h.head_nonneg
  have hcount := h.count_eq
  have hlength := h.length_le
  have hhead : (head + 1).tmod capacity = (head + 1) % capacity :=
    Int.tmod_eq_emod_of_nonneg (by omega)
  rw [List.length_cons] at hcount hlength
  refine ⟨?_, ?_, ?_, ?_, ?_, ?_, fun i hi => ?_⟩
  · have hfirst := h.get 0 (Nat.zero_lt_succ _)
    rwa [Nat.cast_zero, add_zero, Int.emod_eq_of_lt hnonneg h.head_lt]
      at hfirst
  · rw [hhead]
    exact Int.emod_nonneg _ h.capacity_pos.ne'
  · rw [hhead]
    exact Int.emod_lt_of_pos _ h.capacity_pos
  · omega
  · omega
  · rw [h.tail_eq, hhead, Int.emod_add_emod]
    congr 1
    omega
  · have hnext := h.get (i + 1) (Nat.succ_lt_succ hi)
    have hplace : head + 1 + (i : ℤ) = head + ((i + 1 : ℕ) : ℤ) := by
      push_cast
      ring
    rw [hhead, Int.emod_add_emod, hplace, hnext, List.getElem_cons_succ]

end Ring

end BabOs.Ring
