import Mathlib.Tactic
import Mathlib.Data.List.Chain
import Mathlib.Order.CompletePartialOrder
import Mathlib.Order.Interval.Set.Disjoint
import Mathlib.Data.Set.Lattice

/-!
# Ranges cut into blocks with headers

A range of addresses is cut into blocks, each a header of `hdr` bytes and the
`size` bytes after it.  A block is a hole or it is used.  The operations of an
allocator on such a list are stated here on the list alone: a hole is carved
into a used block and what is left of it, the range grows at its end, and a
used block becomes a hole again and joins the holes next to it.
-/

namespace BabOs.Blocks

structure Blk where
  addr : ℕ
  size : ℕ
  hole : Bool
  deriving DecidableEq

/-- The blocks of the list follow each other from `lo` to `hi`. -/
def Tiled (hdr : ℕ) : ℕ → List Blk → ℕ → Prop
  | lo, [], hi => lo = hi
  | lo, b :: bs, hi => b.addr = lo ∧ Tiled hdr (lo + hdr + b.size) bs hi

/-- Of two neighbours at most one is a hole. -/
def NoAdjacentHoles (bs : List Blk) : Prop :=
  bs.IsChain fun b c => ¬(b.hole = true ∧ c.hole = true)

/-- The blocks that are handed out, in address order. -/
def used (bs : List Blk) : List Blk :=
  bs.filter fun b => !b.hole

/-- The bytes of the block that are not its header. -/
def Blk.payload (hdr : ℕ) (b : Blk) : Set ℕ :=
  Set.Ico (b.addr + hdr) (b.addr + hdr + b.size)

/-- The bytes of the blocks that are handed out. -/
def payloads (hdr : ℕ) (bs : List Blk) : Set ℕ :=
  ⋃ b ∈ used bs, b.payload hdr

/-! ## Tilings -/

section Tilings

variable {hdr lo mid hi : ℕ} {bs cs : List Blk} {b c : Blk}

@[simp] theorem tiled_nil : Tiled hdr lo [] hi ↔ lo = hi :=
  Iff.rfl

@[simp] theorem tiled_cons :
    Tiled hdr lo (b :: bs) hi ↔
      b.addr = lo ∧ Tiled hdr (lo + hdr + b.size) bs hi :=
  Iff.rfl

theorem tiled_append :
    Tiled hdr lo (bs ++ cs) hi ↔
      ∃ mid, Tiled hdr lo bs mid ∧ Tiled hdr mid cs hi := by
  induction bs generalizing lo with
  | nil => simp
  | cons b bs ih => simp [ih, and_assoc]

theorem Tiled.le (h : Tiled hdr lo bs hi) : lo ≤ hi := by
  induction bs generalizing lo with
  | nil => exact h.le
  | cons b bs ih =>
      have hle := ih h.2
      omega

theorem Tiled.bounds (h : Tiled hdr lo bs hi) (hb : b ∈ bs) :
    lo ≤ b.addr ∧ b.addr + hdr + b.size ≤ hi := by
  induction bs generalizing lo with
  | nil => simp at hb
  | cons c bs ih =>
      obtain ⟨rfl, hrest⟩ := h
      rcases List.mem_cons.mp hb with rfl | hb
      · exact ⟨le_rfl, hrest.le⟩
      · have hle := ih hrest hb
        omega

/-- Two blocks of a tiling are the same or do not meet. -/
theorem Tiled.separate (h : Tiled hdr lo bs hi) (hb : b ∈ bs) (hc : c ∈ bs) :
    b = c ∨ b.addr + hdr + b.size ≤ c.addr ∨
      c.addr + hdr + c.size ≤ b.addr := by
  induction bs generalizing lo with
  | nil => simp at hb
  | cons a bs ih =>
      obtain ⟨rfl, hrest⟩ := h
      rw [List.mem_cons] at hb hc
      rcases hb with rfl | hb <;> rcases hc with rfl | hc
      · exact Or.inl rfl
      · exact Or.inr (Or.inl (hrest.bounds hc).1)
      · exact Or.inr (Or.inr (hrest.bounds hb).1)
      · exact ih hrest hb hc

theorem Tiled.pairwise (h : Tiled hdr lo bs hi) :
    bs.Pairwise fun b c => b.addr + hdr + b.size ≤ c.addr := by
  induction bs generalizing lo with
  | nil => exact List.Pairwise.nil
  | cons b bs ih =>
      obtain ⟨rfl, hrest⟩ := h
      exact List.pairwise_cons.mpr
        ⟨fun c hc => (hrest.bounds hc).1, ih hrest⟩

theorem Tiled.nodup (h : Tiled hdr lo bs hi) (hhdr : 0 < hdr) : bs.Nodup := by
  refine h.pairwise.imp ?_
  rintro b c hle rfl
  omega

/-- A block of a tiling is known by its address. -/
theorem Tiled.eq_of_addr_eq (h : Tiled hdr lo bs hi) (hhdr : 0 < hdr)
    (hb : b ∈ bs) (hc : c ∈ bs) (haddr : b.addr = c.addr) : b = c := by
  rcases h.separate hb hc with heq | hle | hle
  · exact heq
  · omega
  · omega

/-- The part of a tiling between two of its cuts can be cut another way. -/
theorem Tiled.replace {u v : List Blk} (bs cs : List Blk)
    (h : Tiled hdr lo (u ++ (bs ++ v)) hi)
    (heq : ∀ a e, Tiled hdr a bs e → Tiled hdr a cs e) :
    Tiled hdr lo (u ++ (cs ++ v)) hi := by
  obtain ⟨a, hu, hrest⟩ := tiled_append.mp h
  obtain ⟨e, hmid, hv⟩ := tiled_append.mp hrest
  exact tiled_append.mpr ⟨a, hu, tiled_append.mpr ⟨e, heq a e hmid, hv⟩⟩

end Tilings

/-! ## Holes and used blocks -/

section Holes

variable {u v bs : List Blk} {b c : Blk}

theorem noAdjacentHoles_append :
    NoAdjacentHoles (u ++ v) ↔ NoAdjacentHoles u ∧ NoAdjacentHoles v ∧
      ∀ b ∈ u.getLast?, ∀ c ∈ v.head?, ¬(b.hole = true ∧ c.hole = true) :=
  List.isChain_append

@[simp] theorem noAdjacentHoles_nil : NoAdjacentHoles [] :=
  List.isChain_nil

theorem noAdjacentHoles_cons :
    NoAdjacentHoles (b :: bs) ↔
      (∀ c ∈ bs.head?, ¬(b.hole = true ∧ c.hole = true)) ∧
        NoAdjacentHoles bs := by
  cases bs <;> simp [NoAdjacentHoles]

@[simp] theorem used_append : used (u ++ v) = used u ++ used v :=
  List.filter_append ..

@[simp] theorem used_nil : used [] = [] :=
  rfl

theorem used_cons_hole (h : b.hole = true) : used (b :: bs) = used bs := by
  simp [used, h]

theorem used_cons_used (h : b.hole = false) :
    used (b :: bs) = b :: used bs := by
  simp [used, h]

theorem mem_used : b ∈ used bs ↔ b ∈ bs ∧ b.hole = false := by
  simp [used]

theorem payloads_mono {hdr : ℕ} (h : used u ⊆ used v) :
    payloads hdr u ⊆ payloads hdr v :=
  Set.biUnion_subset_biUnion_left h

theorem disjoint_payloads {hdr a e : ℕ}
    (h : ∀ c ∈ bs, c.hole = false →
      e ≤ c.addr + hdr ∨ c.addr + hdr + c.size ≤ a) :
    Disjoint (Set.Ico a e) (payloads hdr bs) := by
  refine Set.disjoint_iUnion₂_right.mpr fun c hc => ?_
  obtain ⟨hc, hused⟩ := mem_used.mp hc
  rw [Blk.payload, Set.disjoint_left]
  intro x hx hx'
  rw [Set.mem_Ico] at hx hx'
  rcases h c hc hused with h | h <;> omega

/-- A header lies outside everything that is handed out. -/
theorem Tiled.disjoint_header {hdr lo hi : ℕ} (h : Tiled hdr lo bs hi)
    (hb : b ∈ bs) :
    Disjoint (Set.Ico b.addr (b.addr + hdr)) (payloads hdr bs) := by
  refine disjoint_payloads fun c hc _ => ?_
  rcases h.separate hb hc with rfl | hsep | hsep
  · exact Or.inl le_rfl
  · left
    omega
  · exact Or.inr hsep

/-- What lies inside a hole lies apart from the payloads. -/
theorem Tiled.disjoint_hole {hdr lo hi a e : ℕ} (h : Tiled hdr lo bs hi)
    (hb : b ∈ bs) (hhole : b.hole = true) (ha : b.addr ≤ a)
    (he : e ≤ b.addr + hdr + b.size) :
    Disjoint (Set.Ico a e) (payloads hdr bs) := by
  refine disjoint_payloads fun c hc hused => ?_
  rcases h.separate hb hc with rfl | hsep | hsep
  · simp [hhole] at hused
  · left
    omega
  · right
    omega

/-- What lies beyond the end lies apart from the payloads. -/
theorem Tiled.disjoint_beyond {hdr lo hi a e : ℕ} (h : Tiled hdr lo bs hi)
    (ha : hi ≤ a) : Disjoint (Set.Ico a e) (payloads hdr bs) :=
  disjoint_payloads fun _ hc _ => Or.inr ((h.bounds hc).2.trans ha)

end Holes

/-! ## Carving a hole -/

/-- The hole `b` is cut into a used block with at least `size` bytes and
the rest: a hole before it, a hole after it, both or none. -/
structure Carves (hdr size : ℕ) (b : Blk) (pre : Option Blk) (new : Blk)
    (post : Option Blk) : Prop where
  hole : b.hole = true
  new_used : new.hole = false
  size_le : size ≤ new.size
  pre_hole : ∀ c ∈ pre, c.hole = true
  post_hole : ∀ c ∈ post, c.hole = true
  tiled : Tiled hdr b.addr (pre.toList ++ new :: post.toList)
    (b.addr + hdr + b.size)

section Carving

variable {hdr size lo hi : ℕ} {u v : List Blk} {b new : Blk}
  {pre post : Option Blk}

theorem Carves.noAdjacentHoles (h : Carves hdr size b pre new post)
    (hbs : NoAdjacentHoles (u ++ b :: v)) :
    NoAdjacentHoles (u ++ (pre.toList ++ new :: post.toList ++ v)) := by
  obtain ⟨hu, hbv, hub⟩ := noAdjacentHoles_append.mp hbs
  obtain ⟨hbv, hv⟩ := noAdjacentHoles_cons.mp hbv
  have hhole := h.hole
  have hnew := h.new_used
  have hpre := h.pre_hole
  have hpost := h.post_hole
  cases pre <;> cases post <;>
    simp_all [noAdjacentHoles_append, noAdjacentHoles_cons]

theorem Carves.used (h : Carves hdr size b pre new post) :
    used (u ++ (pre.toList ++ new :: post.toList ++ v)) =
      used u ++ new :: used v := by
  have hnew := h.new_used
  have hpre := h.pre_hole
  have hpost := h.post_hole
  cases pre <;> cases post <;>
    simp_all [used_cons_hole, used_cons_used]

theorem used_of_hole (h : b.hole = true) :
    used (u ++ b :: v) = used u ++ used v := by
  rw [used_append, used_cons_hole h]

end Carving

/-! ## Growing the range -/

/-- What the last block becomes when the range grows by `n` bytes from `hi`
on: a hole takes the bytes, and behind a used block they become a hole of
their own. -/
def grow (hdr hi n : ℕ) (b : Blk) : List Blk :=
  if b.hole then [{ b with size := b.size + n }]
  else [b, ⟨hi, n - hdr, true⟩]

section Growing

variable {hdr lo hi n : ℕ} {u : List Blk} {b : Blk}

theorem Tiled.grow (h : Tiled hdr lo (u ++ [b]) hi) (hn : hdr ≤ n) :
    Tiled hdr lo (u ++ grow hdr hi n b) (hi + n) := by
  obtain ⟨a, hu, hb⟩ := Blocks.tiled_append.mp h
  obtain ⟨rfl, rfl⟩ := hb
  refine Blocks.tiled_append.mpr ⟨b.addr, hu, ?_⟩
  by_cases hhole : b.hole = true
  · simp [Blocks.grow, hhole, Nat.add_assoc]
  · simp only [Blocks.grow, if_neg hhole, tiled_cons, tiled_nil, true_and]
    omega

theorem noAdjacentHoles_grow (h : NoAdjacentHoles (u ++ [b])) :
    NoAdjacentHoles (u ++ grow hdr hi n b) := by
  obtain ⟨hu, -, hub⟩ := noAdjacentHoles_append.mp h
  by_cases hhole : b.hole = true <;>
    simp_all [grow, noAdjacentHoles_append, noAdjacentHoles_cons]

/-- A grown range ends with a hole of at least the new bytes, less a header. -/
theorem grow_eq_concat (hn : hdr ≤ n) :
    ∃ w c, u ++ grow hdr hi n b = w ++ [c] ∧ c.hole = true ∧
      n ≤ c.size + hdr ∧ (∀ d ∈ w, d ∈ u ++ [b]) ∧
      ((b.hole = true ∧ w = u ∧ c.addr = b.addr) ∨
        (b.hole = false ∧ w = u ++ [b] ∧ c.addr = hi)) := by
  by_cases hhole : b.hole = true
  · refine ⟨u, { b with size := b.size + n }, ?_, hhole, ?_, ?_, ?_⟩
    · rw [grow, if_pos hhole]
    · dsimp only
      omega
    · exact fun d hd => List.mem_append_left _ hd
    · exact Or.inl ⟨hhole, rfl, rfl⟩
  · refine ⟨u ++ [b], ⟨hi, n - hdr, true⟩, ?_, rfl, ?_, fun d hd => hd, ?_⟩
    · rw [grow, if_neg hhole, List.append_assoc]
      rfl
    · dsimp only
      omega
    · exact Or.inr ⟨Bool.eq_false_of_not_eq_true hhole, rfl, rfl⟩

theorem used_grow : used (u ++ grow hdr hi n b) = used (u ++ [b]) := by
  by_cases hhole : b.hole = true <;> simp [grow, used, hhole]

end Growing

/-! ## Giving a block back -/

/-- The block `b`, about to be a hole, takes a hole that follows it. -/
def mergeForward (hdr : ℕ) (b : Blk) : List Blk → List Blk
  | [] => [{ b with hole := true }]
  | c :: v =>
      if c.hole then
        { b with hole := true, size := b.size + (c.size + hdr) } :: v
      else { b with hole := true } :: c :: v

/-- A hole in front of the list takes the hole at its head. -/
def mergeBackward (hdr : ℕ) : Option Blk → List Blk → List Blk
  | none, bs => bs
  | some p, [] => [p]
  | some p, b :: v =>
      if p.hole then { p with size := p.size + (b.size + hdr) } :: v
      else p :: b :: v

section Giving

variable {hdr lo hi : ℕ} {u v bs : List Blk} {p b : Blk} {q : Option Blk}

theorem mergeForward_hole :
    mergeForward hdr { b with hole := true } v = mergeForward hdr b v := by
  cases v <;> rfl

/-- Merging forward keeps a block at the address of the one given back. -/
theorem mergeForward_eq_cons (hdr : ℕ) :
    ∃ c w, mergeForward hdr b v = c :: w ∧ c.addr = b.addr := by
  cases v with
  | nil => exact ⟨_, [], rfl, rfl⟩
  | cons d v =>
      by_cases hhole : d.hole = true
      · exact ⟨_, v, if_pos hhole, rfl⟩
      · exact ⟨_, d :: v, if_neg hhole, rfl⟩

theorem mergeForward_of_used (hhole : b.hole = true)
    (hv : ∀ c ∈ v.head?, c.hole = false) : mergeForward hdr b v = b :: v := by
  have hsame : { b with hole := true } = b := by rw [← hhole]
  cases v with
  | nil => rw [mergeForward, hsame]
  | cons c v =>
      have hc : ¬c.hole = true := by simp [hv c rfl]
      rw [mergeForward, if_neg hc, hsame]

theorem mergeBackward_of_used (hq : ∀ p ∈ q, p.hole = false) :
    mergeBackward hdr q bs = q.toList ++ bs := by
  cases q with
  | none => rfl
  | some p =>
      cases bs with
      | nil => rfl
      | cons b bs =>
          have hp : ¬p.hole = true := by simp [hq p rfl]
          rw [mergeBackward, if_neg hp]
          rfl

/-- Merging makes no new block addresses. -/
theorem mem_mergeForward {c : Blk} (hc : c ∈ mergeForward hdr b v) :
    c.addr = b.addr ∨ c ∈ v := by
  cases v with
  | nil =>
      rw [List.mem_singleton.mp hc]
      exact Or.inl rfl
  | cons d v =>
      rw [mergeForward] at hc
      split_ifs at hc
      · rcases List.mem_cons.mp hc with rfl | hc
        · exact Or.inl rfl
        · exact Or.inr (List.mem_cons_of_mem d hc)
      · rcases List.mem_cons.mp hc with rfl | hc
        · exact Or.inl rfl
        · exact Or.inr hc

theorem mem_mergeBackward {c : Blk} (hc : c ∈ mergeBackward hdr q bs) :
    (∃ p ∈ q, c.addr = p.addr) ∨ c ∈ bs := by
  cases q with
  | none => exact Or.inr hc
  | some p =>
      cases bs with
      | nil =>
          rw [mergeBackward, List.mem_singleton] at hc
          exact Or.inl ⟨p, rfl, congrArg Blk.addr hc⟩
      | cons d bs =>
          rw [mergeBackward] at hc
          split_ifs at hc
          · rcases List.mem_cons.mp hc with rfl | hc
            · exact Or.inl ⟨p, rfl, rfl⟩
            · exact Or.inr (List.mem_cons_of_mem d hc)
          · rcases List.mem_cons.mp hc with rfl | hc
            · exact Or.inl ⟨c, rfl, rfl⟩
            · exact Or.inr hc

theorem used_mergeForward (hdr : ℕ) : used (mergeForward hdr b v) = used v := by
  cases v with
  | nil => rfl
  | cons c v =>
      by_cases hhole : c.hole = true <;> simp [mergeForward, used, hhole]

theorem used_mergeBackward (h : ∀ b ∈ bs.head?, b.hole = true) :
    used (mergeBackward hdr q bs) = used (q.toList ++ bs) := by
  cases q with
  | none => rfl
  | some p =>
      cases bs with
      | nil => rfl
      | cons b v =>
          have hb := h b rfl
          by_cases hhole : p.hole = true <;>
            simp [mergeBackward, used, hhole, hb]

theorem head?_mergeForward (hdr : ℕ) :
    ∀ c ∈ (mergeForward hdr b v).head?, c.hole = true := by
  cases v with
  | nil => simp [mergeForward]
  | cons c v =>
      by_cases hhole : c.hole = true <;> simp [mergeForward, hhole]

/-- The neighbours of a hole are used. -/
theorem NoAdjacentHoles.neighbours
    (h : NoAdjacentHoles (u ++ q.toList ++ b :: v)) (hhole : b.hole = true) :
    (∀ p ∈ q, p.hole = false) ∧ ∀ c ∈ v.head?, c.hole = false := by
  obtain ⟨-, hbv, hlast⟩ := noAdjacentHoles_append.mp h
  constructor
  · rintro p rfl
    have hp := hlast p (by simp) b rfl
    simpa [hhole] using hp
  · intro c hc
    have hbc := (noAdjacentHoles_cons.mp hbv).1 c hc
    simpa [hhole] using hbc

theorem noAdjacentHoles_mergeForward (hdr : ℕ)
    (h : NoAdjacentHoles (b :: v)) : NoAdjacentHoles (mergeForward hdr b v) := by
  cases v with
  | nil => exact List.isChain_singleton _
  | cons c v =>
      obtain ⟨-, hcv⟩ := noAdjacentHoles_cons.mp h
      rw [mergeForward]
      split_ifs with hhole
      · obtain ⟨hhead, hv⟩ := noAdjacentHoles_cons.mp hcv
        refine noAdjacentHoles_cons.mpr ⟨fun d hd hholes => ?_, hv⟩
        exact hhead d hd ⟨hhole, hholes.2⟩
      · refine noAdjacentHoles_cons.mpr ⟨fun d hd hholes => ?_, hcv⟩
        obtain rfl : c = d := by simpa using hd
        exact hhole hholes.2

/-- The block that joins the one in front of it is a hole. -/
theorem noAdjacentHoles_mergeBackward (hdr : ℕ)
    (hfront : NoAdjacentHoles (u ++ q.toList)) (h : NoAdjacentHoles (b :: v))
    (hhole : b.hole = true) (hq : q = none → u = []) :
    NoAdjacentHoles (u ++ mergeBackward hdr q (b :: v)) := by
  cases q with
  | none =>
      rw [hq rfl]
      exact h
  | some p =>
      obtain ⟨hu, -, hup⟩ := noAdjacentHoles_append.mp hfront
      rw [mergeBackward]
      split_ifs with hp
      · obtain ⟨hhead, hv⟩ := noAdjacentHoles_cons.mp h
        refine noAdjacentHoles_append.mpr ⟨hu, noAdjacentHoles_cons.mpr
          ⟨fun d hd hholes => hhead d hd ⟨hhole, hholes.2⟩, hv⟩, ?_⟩
        intro d hd c hc hholes
        exact hup d hd p rfl ⟨hholes.1, hp⟩
      · refine noAdjacentHoles_append.mpr ⟨hu, noAdjacentHoles_cons.mpr
          ⟨fun d _ hholes => hp hholes.1, h⟩, ?_⟩
        intro d hd c hc
        exact hup d hd c hc

/-- Giving a block back leaves no two holes side by side. -/
theorem noAdjacentHoles_merge (hdr : ℕ)
    (h : NoAdjacentHoles (u ++ q.toList ++ b :: v))
    (hq : q = none → u = []) :
    NoAdjacentHoles (u ++ mergeBackward hdr q (mergeForward hdr b v)) := by
  obtain ⟨hfront, hbv, -⟩ := noAdjacentHoles_append.mp h
  have hmerged := noAdjacentHoles_mergeForward hdr hbv
  have hhead := head?_mergeForward hdr (b := b) (v := v)
  obtain ⟨c, w, heq, -⟩ := mergeForward_eq_cons hdr (b := b) (v := v)
  rw [heq] at hmerged hhead ⊢
  exact noAdjacentHoles_mergeBackward hdr hfront hmerged (hhead c rfl) hq

/-- A hole that was carved is whole again once the block is given back. -/
theorem Carves.merge {size : ℕ} {w : List Blk} {new : Blk}
    {pre post : Option Blk} (h : Carves hdr size b pre new post)
    (hbs : NoAdjacentHoles (u ++ b :: v)) (hsplit : u ++ pre.toList = w ++ q.toList)
    (hq : q = none → w = []) :
    w ++ mergeBackward hdr q (mergeForward hdr new (post.toList ++ v)) =
      u ++ b :: v := by
  obtain ⟨hhole, -, -, hpre, hpost, htiled⟩ := h
  obtain ⟨-, hbv, hub⟩ := noAdjacentHoles_append.mp hbs
  obtain ⟨c, hforward, hchole, hctiled⟩ : ∃ c : Blk,
      mergeForward hdr new (post.toList ++ v) = c :: v ∧ c.hole = true ∧
        Tiled hdr b.addr (pre.toList ++ [c]) (b.addr + hdr + b.size) := by
    cases post with
    | none =>
        refine ⟨{ new with hole := true }, ?_, rfl, ?_⟩
        · cases v with
          | nil => rfl
          | cons d v =>
              have hd : ¬d.hole = true := fun hd =>
                (noAdjacentHoles_cons.mp hbv).1 d rfl ⟨hhole, hd⟩
              rw [Option.toList_none, List.nil_append, mergeForward, if_neg hd]
        · rw [Option.toList_none] at htiled
          exact htiled.replace (u := pre.toList) (v := []) [new]
            [{ new with hole := true }] fun a e he => he
    | some r =>
        refine ⟨{ new with hole := true, size := new.size + (r.size + hdr) },
          ?_, rfl, ?_⟩
        · exact if_pos (hpost r rfl)
        · refine htiled.replace (u := pre.toList) (v := []) [new, r]
            [{ new with hole := true, size := new.size + (r.size + hdr) }] ?_
          rintro a e ⟨rfl, -, he⟩
          refine ⟨rfl, ?_⟩
          rw [tiled_nil] at he ⊢
          dsimp only
          omega
  rw [hforward]
  cases pre with
  | none =>
      obtain ⟨haddr, hend⟩ := hctiled
      have hcb : c = b := by
        rw [tiled_nil] at hend
        cases b
        cases c
        simp_all
      rw [Option.toList_none, List.append_nil] at hsplit
      rw [hcb, hsplit]
      cases q with
      | none => rw [mergeBackward, Option.toList_none, List.append_nil]
      | some p =>
          have hp : ¬p.hole = true := by
            intro hp
            refine hub p ?_ b rfl ⟨hp, hhole⟩
            rw [hsplit]
            simp
          rw [mergeBackward, if_neg hp, List.append_assoc]
          rfl
  | some p =>
      obtain ⟨haddr, -, hend⟩ := hctiled
      cases q with
      | none =>
          rw [hq rfl] at hsplit
          simp at hsplit
      | some p' =>
          obtain ⟨rfl, hp⟩ := List.append_inj' hsplit rfl
          obtain rfl : p = p' := by simpa using hp
          have hpb : { p with size := p.size + (c.size + hdr) } = b := by
            have hphole := hpre p rfl
            rw [tiled_nil] at hend
            cases b
            cases p
            simp only [Blk.mk.injEq] at *
            refine ⟨haddr, by omega, hphole.trans hhole.symm⟩
          rw [mergeBackward, if_pos (hpre p rfl), hpb]

end Giving

/-- A range in which nothing is used is one hole. -/
theorem eq_singleton_of_used_eq_nil {hdr lo hi : ℕ} {bs : List Blk}
    (h : Tiled hdr lo bs hi) (hlt : lo < hi) (hbs : NoAdjacentHoles bs)
    (hused : used bs = []) : bs = [⟨lo, hi - lo - hdr, true⟩] := by
  have hall : ∀ b ∈ bs, b.hole = true := by
    intro b hb
    by_contra hhole
    have hmem : b ∈ used bs := mem_used.mpr ⟨hb, by simpa using hhole⟩
    simp [hused] at hmem
  match bs with
  | [] => exact absurd h hlt.ne
  | [b] =>
      obtain ⟨rfl, hhi⟩ := h
      rw [tiled_nil] at hhi
      have hsize : hi - b.addr - hdr = b.size := by omega
      rw [hsize, ← hall b List.mem_cons_self]
  | b :: c :: bs =>
      have hbc := (noAdjacentHoles_cons.mp hbs).1 c rfl
      exact absurd ⟨hall b (by simp), hall c (by simp)⟩ hbc

end BabOs.Blocks
