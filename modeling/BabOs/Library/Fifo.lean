import Mathlib.Tactic

/-!
# Bounded queues

What a queue does that drops an element when it is full, as the histories of
the calls that it allows.
-/

namespace BabOs.Fifo

/-- A call of the queue: an element is offered, or the first one is taken. -/
inductive Call (α : Type*)
  | offer (x : α)
  | take (x : α)
  deriving DecidableEq

def offered {α : Type*} (calls : List (Call α)) : List α :=
  calls.filterMap fun
    | .offer x => some x
    | .take _ => none

def taken {α : Type*} (calls : List (Call α)) : List α :=
  calls.filterMap fun
    | .offer _ => none
    | .take x => some x

/-- The queue holds `q` after the calls. -/
inductive History {α : Type*} (capacity : ℕ) :
    (calls : List (Call α)) → (q : List α) → Prop
  | nil : History capacity [] []
  | accept {calls : List (Call α)} {q : List α} (x : α)
      (h : History capacity calls q) (hroom : q.length < capacity) :
      History capacity (calls ++ [.offer x]) (q ++ [x])
  | drop {calls : List (Call α)} {q : List α} (x : α)
      (h : History capacity calls q) (hfull : q.length = capacity) :
      History capacity (calls ++ [.offer x]) q
  | take {calls : List (Call α)} {q : List α} {x : α}
      (h : History capacity calls (x :: q)) :
      History capacity (calls ++ [.take x]) q

section History

variable {α : Type*} {capacity : ℕ} {calls : List (Call α)} {q : List α} {x : α}

@[simp] theorem offered_append (calls calls' : List (Call α)) :
    offered (calls ++ calls') = offered calls ++ offered calls' :=
  List.filterMap_append

@[simp] theorem taken_append (calls calls' : List (Call α)) :
    taken (calls ++ calls') = taken calls ++ taken calls' :=
  List.filterMap_append

@[simp] theorem offered_offer (x : α) : offered [.offer x] = [x] := rfl

@[simp] theorem offered_take (x : α) : offered [.take x] = [] := rfl

@[simp] theorem taken_offer (x : α) : taken [.offer x] = [] := rfl

@[simp] theorem taken_take (x : α) : taken [.take x] = [x] := rfl

/-- What is taken and what is queued was offered, in this order and each
element once. -/
theorem History.sublist (h : History capacity calls q) :
    (taken calls ++ q).Sublist (offered calls) := by
  induction h with
  | nil => exact List.Sublist.refl _
  | accept x _ _ ih =>
      rw [taken_append, taken_offer, List.append_nil, ← List.append_assoc,
        offered_append]
      exact ih.append (List.Sublist.refl _)
  | drop x _ _ ih =>
      rw [taken_append, taken_offer, List.append_nil, offered_append]
      exact ih.trans (List.sublist_append_left _ _)
  | take _ ih =>
      rw [taken_append, taken_take, List.append_assoc, offered_append,
        offered_take, List.append_nil]
      exact ih

/-- Nothing is dropped before more is offered than there is room for. -/
theorem History.eq_of_length_le (h : History capacity calls q)
    (hfew : (offered calls).length ≤ capacity) :
    taken calls ++ q = offered calls := by
  induction h with
  | nil => rfl
  | accept x _ _ ih =>
      rw [offered_append, List.length_append] at hfew
      rw [taken_append, taken_offer, List.append_nil, ← List.append_assoc,
        offered_append, ih ((Nat.le_add_right _ _).trans hfew), offered_offer]
  | @drop calls q x h hfull _ =>
      have hlength := h.sublist.length_le
      rw [List.length_append] at hlength
      rw [offered_append, List.length_append, offered_offer,
        List.length_singleton] at hfew
      omega
  | take _ ih =>
      rw [offered_append, offered_take, List.append_nil] at hfew ⊢
      rw [taken_append, taken_take, List.append_assoc]
      exact ih hfew

end History

end BabOs.Fifo
