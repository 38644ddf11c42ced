import Mathlib.Tactic
import Mathlib.Data.List.Nodup

/-!
# Chains of nodes linked through pointer fields

A linked list in a store is a head pointer and a `next` field.  This module
keeps the fields abstract, as functions from nodes to optional nodes, and
relates them to the list of nodes they visit.  `IsSegment` is the general
form; a segment that ends in the null pointer is a chain, and a chain whose
`prev` field points back is a doubly linked list.
-/

namespace BabOs.Chain

variable {ι : Type*}

/-- Following `next` from `head` visits exactly the nodes of the list and then
arrives at `tail`. -/
def IsSegment (next : ι → Option ι) :
    Option ι → List ι → Option ι → Prop
  | head, [], tail => head = tail
  | head, x :: xs, tail => head = some x ∧ IsSegment next (next x) xs tail

/-- A segment that ends in the null pointer. -/
def IsChain (next : ι → Option ι) (head : Option ι) (l : List ι) : Prop :=
  IsSegment next head l none

/-- `x` is met when `next` is followed from `head`. -/
inductive OnChain (next : ι → Option ι) : Option ι → ι → Prop
  | here (x : ι) : OnChain next (some x) x
  | there {x y : ι} : OnChain next (next x) y → OnChain next (some x) y

/-! ## Segments -/

section Segments

variable {next next' : ι → Option ι} {head tail : Option ι} {l : List ι}

@[simp] theorem isSegment_nil :
    IsSegment next head [] tail ↔ head = tail :=
  Iff.rfl

@[simp] theorem isSegment_cons {x : ι} {xs : List ι} :
    IsSegment next head (x :: xs) tail ↔
      head = some x ∧ IsSegment next (next x) xs tail :=
  Iff.rfl

theorem isSegment_append {a b : List ι} :
    IsSegment next head (a ++ b) tail ↔
      ∃ mid, IsSegment next head a mid ∧ IsSegment next mid b tail := by
  induction a generalizing head with
  | nil => simp
  | cons x xs ih => simp [ih, and_assoc]

/-- A segment only reads the links of its own nodes. -/
theorem IsSegment.congr (h : IsSegment next head l tail)
    (heq : ∀ x ∈ l, next' x = next x) : IsSegment next' head l tail := by
  induction l generalizing head with
  | nil => exact h
  | cons x xs ih =>
      refine ⟨h.1, ?_⟩
      rw [heq x List.mem_cons_self]
      exact ih h.2 fun y hy => heq y (List.mem_cons_of_mem _ hy)

/-- Redirecting the last node of a segment redirects the segment. -/
theorem IsSegment.redirect [DecidableEq ι] {a : List ι} {p : ι}
    {tail' : Option ι} (h : IsSegment next head (a ++ [p]) tail)
    (hp : p ∉ a) :
    IsSegment (Function.update next p tail') head (a ++ [p]) tail' := by
  obtain ⟨mid, ha, hmid, -⟩ := isSegment_append.mp h
  refine isSegment_append.mpr ⟨mid, ha.congr ?_, hmid, ?_⟩
  · intro x hx
    have hxp : x ≠ p := ne_of_mem_of_not_mem hx hp
    exact Function.update_of_ne hxp _ _
  · simp

end Segments

/-! ## Singly linked chains -/

section Chains

variable {next next' : ι → Option ι} {head : Option ι} {l l' : List ι}

@[simp] theorem isChain_nil : IsChain next head [] ↔ head = none :=
  Iff.rfl

@[simp] theorem isChain_cons {x : ι} {xs : List ι} :
    IsChain next head (x :: xs) ↔ head = some x ∧ IsChain next (next x) xs :=
  Iff.rfl

theorem isChain_none_iff : IsChain next none l ↔ l = [] := by
  cases l <;> simp

theorem IsChain.head_eq (h : IsChain next head l) :
    head = l.head? := by
  cases l with
  | nil => exact h
  | cons x xs => exact h.1

theorem not_onChain_none {x : ι} : ¬OnChain next none x := by
  intro h
  cases h

/-- Two chains from one head are the same list. -/
theorem IsChain.unique (h : IsChain next head l) (h' : IsChain next head l') :
    l = l' := by
  induction l generalizing head l' with
  | nil =>
      rw [isChain_nil] at h
      subst h
      exact (isChain_none_iff.mp h').symm
  | cons x xs ih =>
      obtain ⟨rfl, hxs⟩ := h
      cases l' with
      | nil => exact absurd h' (by simp)
      | cons y ys =>
          obtain ⟨hy, hys⟩ := h'
          obtain rfl := Option.some.inj hy
          rw [ih hxs hys]

/-- The part of a chain from one of its nodes on is a chain. -/
theorem IsChain.suffix {a b : List ι} {x : ι}
    (h : IsChain next head (a ++ x :: b)) :
    IsChain next (some x) (x :: b) := by
  obtain ⟨mid, -, rfl, hb⟩ := isSegment_append.mp h
  exact ⟨rfl, hb⟩

/-- A chain that ends meets no node twice. -/
theorem IsChain.nodup (h : IsChain next head l) : l.Nodup := by
  induction l generalizing head with
  | nil => exact List.nodup_nil
  | cons x xs ih =>
      refine List.nodup_cons.mpr ⟨?_, ih h.2⟩
      intro hmem
      obtain ⟨a, b, rfl⟩ := List.append_of_mem hmem
      have hshort : IsChain next (some x) (x :: b) := IsChain.suffix h.2
      have hlong : IsChain next (some x) (x :: (a ++ x :: b)) := ⟨rfl, h.2⟩
      have hlen := congrArg List.length (hshort.unique hlong)
      simp only [List.length_cons, List.length_append] at hlen
      omega

theorem IsChain.onChain_iff (h : IsChain next head l) {x : ι} :
    OnChain next head x ↔ x ∈ l := by
  induction l generalizing head with
  | nil =>
      rw [isChain_nil] at h
      subst h
      simp [not_onChain_none]
  | cons y ys ih =>
      obtain ⟨rfl, hys⟩ := h
      constructor
      · intro hx
        cases hx with
        | here => exact List.mem_cons_self
        | there hx => exact List.mem_cons_of_mem _ ((ih hys).mp hx)
      · intro hx
        rcases List.mem_cons.mp hx with rfl | hx
        · exact OnChain.here x
        · exact OnChain.there ((ih hys).mpr hx)

/-- The successor of a node of a chain is a node of the chain. -/
theorem IsChain.next_mem (h : IsChain next head l) {x y : ι} (hx : x ∈ l)
    (hy : next x = some y) : y ∈ l := by
  obtain ⟨a, b, rfl⟩ := List.append_of_mem hx
  obtain ⟨mid, -, -, hb⟩ := isSegment_append.mp h
  have hhead : some y = b.head? := hy ▸ IsChain.head_eq hb
  exact List.mem_append_right _
    (List.mem_cons_of_mem _ (List.mem_of_mem_head? hhead.symm))

/-- The link of a node of a chain names the node at the next position. -/
theorem IsChain.next_eq_getElem? (h : IsChain next head l) {i : ℕ} {x : ι}
    (hx : l[i]? = some x) : next x = l[i + 1]? := by
  induction l generalizing head i with
  | nil => simp at hx
  | cons y ys ih =>
      cases i with
      | zero =>
          obtain rfl : y = x := by simpa using hx
          have hhead := IsChain.head_eq h.2
          rw [List.getElem?_cons_succ, ← List.head?_eq_getElem?]
          exact hhead
      | succ i =>
          rw [List.getElem?_cons_succ] at hx ⊢
          exact ih h.2 hx

theorem IsChain.congr (h : IsChain next head l)
    (heq : ∀ x ∈ l, next' x = next x) : IsChain next' head l :=
  IsSegment.congr h heq

/-- Appending a node: the last node of a chain is redirected to a node whose
own link is null. -/
theorem IsChain.enqueue [DecidableEq ι] {a : List ι} {p x : ι}
    (h : IsChain next head (a ++ [p])) (hx : x ∉ a ++ [p]) :
    IsChain (Function.update (Function.update next x none) p (some x))
      head (a ++ [p] ++ [x]) := by
  have hxp : x ≠ p := fun hxp => hx (by simp [hxp])
  have hp : p ∉ a := by
    have hnodup := h.nodup
    rw [List.nodup_append] at hnodup
    intro hpa
    exact hnodup.2.2 p hpa p (by simp) rfl
  have hsame : IsChain (Function.update next x none) head (a ++ [p]) := by
    refine h.congr fun y hy => ?_
    have hyx : y ≠ x := ne_of_mem_of_not_mem hy hx
    exact Function.update_of_ne hyx _ _
  exact isSegment_append.mpr
    ⟨some x, hsame.redirect hp, rfl, by simp [hxp]⟩

/-- The last node met from `x`, looked for along at most `fuel` nodes. -/
def lastFrom (next : ι → Option ι) : ℕ → ι → Option ι
  | 0, _ => none
  | fuel + 1, x =>
      match next x with
      | none => some x
      | some y => lastFrom next fuel y

/-- On a chain the walk to the last node stops at the last node. -/
theorem IsChain.lastFrom_eq {x p : ι} {fuel : ℕ}
    (h : IsChain next (some x) l) (hlast : lastFrom next fuel x = some p) :
    ∃ a, l = a ++ [p] := by
  induction fuel generalizing x l with
  | zero => simp [lastFrom] at hlast
  | succ fuel ih =>
      cases l with
      | nil => simp at h
      | cons y ys =>
          obtain ⟨hxy, hys⟩ := h
          obtain rfl := Option.some.inj hxy
          cases hnext : next x with
          | none =>
              have hxp : x = p := by simpa [lastFrom, hnext] using hlast
              change IsChain next (next x) ys at hys
              rw [hnext, isChain_none_iff] at hys
              exact ⟨[], by simp [hys, hxp]⟩
          | some z =>
              have hz : lastFrom next fuel z = some p := by
                simpa [lastFrom, hnext] using hlast
              change IsChain next (next x) ys at hys
              rw [hnext] at hys
              obtain ⟨a, rfl⟩ := ih hys hz
              exact ⟨x :: a, rfl⟩

/-- The walk to the last node succeeds with as much fuel as there are
nodes. -/
theorem IsChain.exists_lastFrom {x : ι} (h : IsChain next (some x) l) :
    ∃ p, lastFrom next l.length x = some p := by
  induction l generalizing x with
  | nil => simp at h
  | cons y ys ih =>
      obtain ⟨hxy, hys⟩ := h
      obtain rfl := Option.some.inj hxy
      cases hnext : next x with
      | none => exact ⟨x, by simp [lastFrom, hnext]⟩
      | some z =>
          change IsChain next (next x) ys at hys
          rw [hnext] at hys
          obtain ⟨p, hp⟩ := ih hys
          exact ⟨p, by simpa [lastFrom, hnext] using hp⟩

/-- More fuel gives the same last node. -/
theorem lastFrom_mono {x p : ι} {fuel fuel' : ℕ}
    (h : lastFrom next fuel x = some p) (hle : fuel ≤ fuel') :
    lastFrom next fuel' x = some p := by
  induction fuel generalizing x fuel' with
  | zero => simp [lastFrom] at h
  | succ fuel ih =>
      obtain ⟨k, rfl⟩ := Nat.exists_eq_add_of_le' hle
      rw [← Nat.add_assoc, lastFrom]
      rw [lastFrom] at h
      cases hnext : next x with
      | none => simpa [hnext] using h
      | some y =>
          rw [hnext] at h
          exact ih h (Nat.le_add_left fuel k)

/-- The walk to the last node stays on the chain. -/
theorem onChain_of_lastFrom {x p : ι} {fuel : ℕ}
    (h : lastFrom next fuel x = some p) : OnChain next (some x) p := by
  induction fuel generalizing x with
  | zero => cases h
  | succ fuel ih =>
      rw [lastFrom] at h
      split at h
      · cases h
        exact OnChain.here _
      next y hy =>
        apply OnChain.there
        rw [hy]
        exact ih h

/-- A node is reached whatever its own link is. -/
theorem OnChain.update [DecidableEq ι] {x : ι} {tail : Option ι}
    (h : OnChain next head x) :
    OnChain (Function.update next x tail) head x := by
  induction h with
  | here x => exact OnChain.here x
  | @there y x h ih =>
      by_cases hyx : y = x
      · subst hyx
        exact OnChain.here y
      · apply OnChain.there
        rwa [Function.update_of_ne hyx]

/-- What a node of a chain is linked to is on the chain. -/
theorem OnChain.succ {x y : ι} (h : OnChain next head x)
    (hy : next x = some y) : OnChain next head y := by
  induction h with
  | here x =>
      apply OnChain.there
      rw [hy]
      exact OnChain.here y
  | there h ih => exact OnChain.there (ih hy)

end Chains

/-! ## Doubly linked lists -/

/-- The two link fields of every node of a store. -/
structure Links (ι : Type*) where
  next : ι → Option ι
  prev : ι → Option ι

/-- The `prev` field of every node names the node before it, and `before` for
the first one. -/
def BackLinked (prev : ι → Option ι) : Option ι → List ι → Prop
  | _, [] => True
  | before, x :: xs => prev x = before ∧ BackLinked prev (some x) xs

/-- A chain along `next` whose nodes point back along `prev`; the first node
has no predecessor. -/
structure IsDList (L : Links ι) (head : Option ι) (l : List ι) : Prop where
  chain : IsChain L.next head l
  back : BackLinked L.prev none l

/-- Link `x` in before the node `head` points to. -/
def Links.pushFront [DecidableEq ι] (L : Links ι)
    (head : Option ι) (x : ι) : Links ι where
  next := Function.update L.next x head
  prev :=
    match head with
    | none => Function.update L.prev x none
    | some h => Function.update (Function.update L.prev x none) h (some x)

/-- Take `x` out from between its two neighbours. -/
def Links.unlink [DecidableEq ι] (L : Links ι) (x : ι) : Links ι where
  next :=
    match L.prev x with
    | none => L.next
    | some p => Function.update L.next p (L.next x)
  prev :=
    match L.next x with
    | none => L.prev
    | some n => Function.update L.prev n (L.prev x)

/-- The head pointer after `x` has been taken out. -/
def Links.headAfterUnlink (L : Links ι) (head : Option ι) (x : ι) :
    Option ι :=
  match L.prev x with
  | none => L.next x
  | some _ => head

section Doubly

variable {prev prev' : ι → Option ι} {before : Option ι} {l : List ι}

@[simp] theorem backLinked_nil : BackLinked prev before [] :=
  trivial

@[simp] theorem backLinked_cons {x : ι} {xs : List ι} :
    BackLinked prev before (x :: xs) ↔
      prev x = before ∧ BackLinked prev (some x) xs :=
  Iff.rfl

theorem backLinked_append {a b : List ι} :
    BackLinked prev before (a ++ b) ↔
      BackLinked prev before a ∧
        BackLinked prev (a.getLast?.or before) b := by
  induction a generalizing before with
  | nil => simp
  | cons x xs ih =>
      have hlast : (x :: xs).getLast?.or before = xs.getLast?.or (some x) := by
        cases h : xs.getLast? with
        | none => simp [List.getLast?_cons, h]
        | some y => simp [List.getLast?_cons, h]
      simp [ih, hlast, and_assoc]

theorem BackLinked.congr (h : BackLinked prev before l)
    (heq : ∀ x ∈ l, prev' x = prev x) : BackLinked prev' before l := by
  induction l generalizing before with
  | nil => exact h
  | cons x xs ih =>
      refine ⟨?_, ih h.2 fun y hy => heq y (List.mem_cons_of_mem _ hy)⟩
      rw [heq x List.mem_cons_self]
      exact h.1

variable {L L' : Links ι} {head : Option ι}

theorem IsDList.nodup (h : IsDList L head l) : l.Nodup :=
  h.chain.nodup

theorem IsDList.congr (h : IsDList L head l)
    (hnext : ∀ x ∈ l, L'.next x = L.next x)
    (hprev : ∀ x ∈ l, L'.prev x = L.prev x) : IsDList L' head l :=
  ⟨h.chain.congr hnext, h.back.congr hprev⟩

theorem isDList_nil : IsDList L none [] :=
  ⟨rfl, trivial⟩

/-- In a doubly linked list the fields of a node name its neighbours. -/
theorem IsDList.neighbours {a b : List ι} {x : ι}
    (h : IsDList L head (a ++ x :: b)) :
    L.prev x = a.getLast? ∧ L.next x = b.head? := by
  constructor
  · have hx := (backLinked_append.mp h.back).2.1
    simpa using hx
  · exact IsChain.head_eq (IsChain.suffix h.chain).2

variable [DecidableEq ι]

/-- Linking a new node in at the front. -/
theorem IsDList.pushFront {x : ι} (h : IsDList L head l) (hx : x ∉ l) :
    IsDList (L.pushFront head x) (some x) (x :: l) := by
  have hnext : ∀ y ∈ l, (L.pushFront head x).next y = L.next y := by
    intro y hy
    exact Function.update_of_ne (ne_of_mem_of_not_mem hy hx) _ _
  refine ⟨⟨rfl, ?_⟩, ?_⟩
  · have hhead : (L.pushFront head x).next x = head := by
      simp [Links.pushFront]
    rw [hhead]
    exact h.chain.congr hnext
  · cases l with
    | nil =>
        obtain rfl : head = none := h.chain
        simp [Links.pushFront]
    | cons y ys =>
        obtain ⟨rfl, -⟩ := h.chain
        have hxy : x ≠ y := by
          intro hxy
          exact hx (by simp [hxy])
        have hnodup := List.nodup_cons.mp h.nodup
        refine ⟨by simp [Links.pushFront, hxy], by simp [Links.pushFront], ?_⟩
        refine BackLinked.congr h.back.2 fun z hz => ?_
        have hzy : z ≠ y := ne_of_mem_of_not_mem hz hnodup.1
        have hzx : z ≠ x := by
          intro hzx
          exact hx (by simp [← hzx, hz])
        simp [Links.pushFront, hzy, hzx]

/-- A front insertion leaves the lists that avoid the new node and the old
head as they were. -/
theorem IsDList.pushFront_frame {x : ι} {head' : Option ι}
    (h : IsDList L head l) (hx : x ∉ l) (hhead : ∀ y ∈ head', y ∉ l) :
    IsDList (L.pushFront head' x) head l := by
  refine h.congr ?_ ?_
  · intro y hy
    exact Function.update_of_ne (ne_of_mem_of_not_mem hy hx) _ _
  · intro y hy
    have hyx : y ≠ x := ne_of_mem_of_not_mem hy hx
    cases head' with
    | none => simp [Links.pushFront, hyx]
    | some z =>
        have hyz : y ≠ z := ne_of_mem_of_not_mem hy (hhead z rfl)
        simp [Links.pushFront, hyx, hyz]

theorem IsChain.unlink {a b : List ι} {x : ι}
    (h : IsChain L.next head (a ++ x :: b))
    (hprev : L.prev x = a.getLast?) :
    IsChain (L.unlink x).next (L.headAfterUnlink head x) (a ++ b) := by
  obtain ⟨mid, ha, rfl, hb⟩ := isSegment_append.mp h
  change IsChain L.next (L.next x) b at hb
  rcases a.eq_nil_or_concat' with rfl | ⟨c, p, rfl⟩
  · have hnone : L.prev x = none := by simpa using hprev
    simpa [Links.unlink, Links.headAfterUnlink, hnone] using hb
  · have hsome : L.prev x = some p := by simpa using hprev
    have hnodup := h.nodup
    simp only [List.nodup_append, List.append_assoc] at hnodup
    have hpc : p ∉ c := by
      intro hp
      exact hnodup.2.2 p hp p (by simp) rfl
    have hpb : p ∉ b := by
      intro hp
      exact hnodup.2.1.2.2 p (by simp) p (by simp [hp]) rfl
    simp only [Links.unlink, Links.headAfterUnlink, hsome]
    refine isSegment_append.mpr
      ⟨L.next x, ha.redirect hpc, IsSegment.congr hb ?_⟩
    intro y hy
    exact Function.update_of_ne (ne_of_mem_of_not_mem hy hpb) _ _

theorem BackLinked.unlink {a b : List ι} {x : ι}
    (h : BackLinked L.prev none (a ++ x :: b))
    (hnext : L.next x = b.head?) (hnodup : (a ++ x :: b).Nodup) :
    BackLinked (L.unlink x).prev none (a ++ b) := by
  obtain ⟨ha, hx, hb⟩ := backLinked_append.mp h
  cases b with
  | nil =>
      have hnone : L.next x = none := by simpa using hnext
      simpa [Links.unlink, hnone] using ha
  | cons y ys =>
      have hsome : L.next x = some y := by simpa using hnext
      have hya : y ∉ a := by
        intro hy
        exact (List.nodup_append.mp hnodup).2.2 y hy y (by simp) rfl
      have hys : y ∉ ys := by
        have := (List.nodup_append.mp hnodup).2.1
        simp only [List.nodup_cons] at this
        exact this.2.1
      simp only [Links.unlink, hsome]
      refine backLinked_append.mpr ⟨ha.congr ?_, ?_, hb.2.congr ?_⟩
      · intro z hz
        exact Function.update_of_ne (ne_of_mem_of_not_mem hz hya) _ _
      · simp [hx]
      · intro z hz
        exact Function.update_of_ne (ne_of_mem_of_not_mem hz hys) _ _

/-- Taking a node out of a doubly linked list. -/
theorem IsDList.unlink {a b : List ι} {x : ι}
    (h : IsDList L head (a ++ x :: b)) :
    IsDList (L.unlink x) (L.headAfterUnlink head x) (a ++ b) :=
  ⟨h.chain.unlink h.neighbours.1, h.back.unlink h.neighbours.2 h.nodup⟩

/-- Taking a node out leaves the lists that avoid its neighbours as they
were. -/
theorem IsDList.unlink_frame {x : ι} {l' : List ι} {head' : Option ι}
    (h : IsDList L head' l')
    (hprev : ∀ y ∈ L.prev x, y ∉ l') (hnext : ∀ y ∈ L.next x, y ∉ l') :
    IsDList (L.unlink x) head' l' := by
  refine h.congr ?_ ?_
  · intro y hy
    cases hx : L.prev x with
    | none => simp [Links.unlink, hx]
    | some p =>
        have hyp : y ≠ p := ne_of_mem_of_not_mem hy (hprev p hx)
        simp [Links.unlink, hx, hyp]
  · intro y hy
    cases hx : L.next x with
    | none => simp [Links.unlink, hx]
    | some n =>
        have hyn : y ≠ n := ne_of_mem_of_not_mem hy (hnext n hx)
        simp [Links.unlink, hx, hyn]

end Doubly

end BabOs.Chain
