import BabOs.Pmm.Canonical

/-!
# Allocation is complete and minimal

`pmm_alloc_pages` returns the null pointer only when no aligned run of free
pages is long enough; otherwise it takes such a run out of the smallest block
that can hold it, and no other page stops being free.
-/

namespace BabOs.Pmm

open BabOs.Dyadic

variable {s s' : State} {live : Set Block} {R : Set ℕ} {order page j : ℕ}

/-- The pages of the blocks on the free lists. -/
def freePages (s : State) : Set ℕ :=
  ⋃ b ∈ freeBlocks s, b.pages

/-- The `2 ^ order` pages from `page` on are naturally aligned and free. -/
def IsFreeRun (s : State) (order page : ℕ) : Prop :=
  2 ^ order ∣ page ∧ Set.Ico page (page + 2 ^ order) ⊆ freePages s

/-- The free pages are the managed pages that no live block covers. -/
theorem Owns.freePages_eq (h : Owns s live R) :
    freePages s = R \ livePages live :=
  (h.tiles.left h.separate).cover

theorem Owns.subset_freePages (_ : Owns s live R) {b : Block}
    (hb : b ∈ freeBlocks s) : b.pages ⊆ freePages s :=
  Set.subset_biUnion_of_mem hb

theorem livePages_insert (b : Block) (live : Set Block) :
    livePages (insert b live) = b.pages ∪ livePages live :=
  Set.biUnion_insert _ _ _

section Success

theorem Allocates.isFreeRun (h : Allocates s live R order page j s')
    (hs : Owns s live R) : IsFreeRun s order page := by
  have halign : 2 ^ j ∣ page := hs.tiles.aligned _ (Or.inl h.free)
  refine ⟨(pow_dvd_pow 2 h.le).trans halign, ?_⟩
  refine Set.Subset.trans ?_ (hs.subset_freePages h.free)
  intro x hx
  have hle : 2 ^ order ≤ 2 ^ j := Nat.pow_le_pow_right (by norm_num) h.le
  rw [Set.mem_Ico] at hx
  rw [Block.mem_pages]
  dsimp only
  omega

theorem Allocates.freePages_eq (h : Allocates s live R order page j s')
    (hs : Owns s live R) :
    freePages s' = freePages s \ Set.Ico page (page + 2 ^ order) := by
  have hpages : Block.pages ⟨page, order⟩ =
      Set.Ico page (page + 2 ^ order) := rfl
  rw [h.owns.freePages_eq, hs.freePages_eq, livePages_insert, hpages,
    Set.sdiff_sdiff, Set.union_comm]

end Success

/-- When no list from `order` on holds a block, no aligned run is free: a run
would lie inside a free block, since buddies never stay unmerged. -/
theorem Owns.not_isFreeRun (h : Owns s live R)
    (hfree : NoBuddies maxOrder (freeBlocks s)) (horder : order < maxOrder)
    (hnone : ∀ k, order ≤ k → k < maxOrder → s.freeLists k = none) :
    ¬ IsFreeRun s order page := by
  rintro ⟨halign, hrun⟩
  rw [h.freePages_eq] at hrun
  have hrun' : Block.pages ⟨page, order⟩ ⊆ R \ livePages live := hrun
  have halign' : Block.Aligned ⟨page, order⟩ := halign
  obtain ⟨b, hb, hsub⟩ := (h.tiles.left h.separate).exists_superset hfree
    halign' horder hrun'
  have hle : order ≤ b.order := Block.order_le_of_pages_subset hsub
  exact notMem_freeBlocks_of_freeLists (hnone b.order hle hb.1) hb

/-- In every state that one region and then any allocations and frees of live
blocks lead to, `pmm_alloc_pages` returns the null pointer exactly when no
naturally aligned run of `2 ^ order` pages is free, and then it changes
nothing.  Otherwise it returns the address of such a run; exactly its pages
stop being free; and the block that is split has the least order that a free
block of order `order` or more has. -/
theorem pmmAllocPages_complete (s₀ : State)
    (memSize metadataStart start length : ℕ) (hsize : memSize < 2 ^ 32)
    (hinside : start + length ≤ memSize)
    (hzero : 0 ∉ regionPages (start, length))
    (h : Reachable s₀ memSize metadataStart start length s live)
    (horder : order < maxOrder) :
    ((pmmAllocPages s order).1 = none ↔ ∀ page, ¬ IsFreeRun s order page) ∧
    ((pmmAllocPages s order).1 = none → (pmmAllocPages s order).2 = s) ∧
    ∀ ptr, (pmmAllocPages s order).1 = some ptr →
      ptr ≠ 0 ∧ ∃ page j, ptr = page * pageSize ∧ IsFreeRun s order page ∧
        freePages (pmmAllocPages s order).2 =
          freePages s \ Set.Ico page (page + 2 ^ order) ∧
        order ≤ j ∧ (⟨page, j⟩ : Block) ∈ freeBlocks s ∧
        freeBlocks (pmmAllocPages s order).2 =
          splitOff page order j ∪ (freeBlocks s \ {⟨page, j⟩}) ∧
        ∀ b ∈ freeBlocks s, order ≤ b.order → j ≤ b.order := by
  obtain ⟨hown, hlive, hbuddies⟩ := h.owns_of_inside hsize hinside
  rcases pmmAllocPages_cases hown hlive horder with
    ⟨hcall, hnone⟩ | ⟨page, j, t, hcall, halloc⟩
  · rw [hcall]
    refine ⟨?_, fun _ => rfl, fun ptr hptr => by cases hptr⟩
    exact iff_of_true rfl
      fun page => hown.not_isFreeRun hbuddies horder hnone
  · rw [hcall]
    have hrun := halloc.isFreeRun hown
    refine ⟨?_, fun hnone => (Option.some_ne_none _ hnone).elim, ?_⟩
    · exact iff_of_false (Option.some_ne_none _) fun hno => hno page hrun
    · intro ptr hptr
      obtain rfl := Option.some.inj hptr
      have hmem : page ∈ regionPages (start, length) :=
        hown.start_mem (b := ⟨page, j⟩) (Or.inl halloc.free)
      refine ⟨?_, page, j, rfl, hrun, halloc.freePages_eq hown, halloc.le,
        halloc.free, halloc.freeBlocks_eq, ?_⟩
      · intro hnull
        have hpage : page = 0 := by
          simp only [pageSize] at hnull
          omega
        exact hzero (hpage ▸ hmem)
      · intro b hb hle
        by_contra hlt
        exact halloc.least b.order hle (by omega) b.start hb

/-- On six managed pages from page `2` on, the one aligned run of four free
pages is pages `4` to `7`. -/
theorem pmmAllocPages_complete_eightPages :
    (pmmAllocPages (boot blankState 0x8000 0 [(0x2000, 0x6000)]) 2).1 =
        some 0x4000 ∧
      ∃ page, 0x4000 = page * pageSize ∧
        IsFreeRun (boot blankState 0x8000 0 [(0x2000, 0x6000)]) 2 page := by
  have hcall : (pmmAllocPages
      (boot blankState 0x8000 0 [(0x2000, 0x6000)]) 2).1 = some 0x4000 := by
    decide
  have hzero : 0 ∉ regionPages (0x2000, 0x6000) := by
    simp [regionPages, pageSize]
  obtain ⟨-, page, j, hptr, hrun, -⟩ :=
    (pmmAllocPages_complete blankState 0x8000 0 0x2000 0x6000 (by norm_num)
      (by norm_num) hzero Relation.ReflTransGen.refl (by decide)).2.2 _ hcall
  exact ⟨hcall, page, hptr, hrun⟩

end BabOs.Pmm
