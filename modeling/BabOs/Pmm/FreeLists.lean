import BabOs.Pmm.Model

/-!
# The free lists

The blocks a state offers are the ones its free lists reach.  Every operation
of the allocator changes the lists through two moves only, handing a block
back and taking one off, and this module proves what each of them does to the
set of free blocks.
-/

namespace BabOs.Pmm

open BabOs.Chain BabOs.Dyadic

/-- The blocks of order `k` are the nodes met from `free_lists[k]`. -/
def freeBlocks (s : State) : Set Block :=
  {b | b.order < maxOrder ∧
    OnChain s.links.next (s.freeLists b.order) b.start}

/-- Every list ends and is linked both ways, and the head page of a free block
carries its order and is not marked as used. -/
structure FreeListsOk (s : State) : Prop where
  lists : ∀ k < maxOrder, ∃ l, IsDList s.links (s.freeLists k) l
  flags : ∀ b ∈ freeBlocks s, (s.pages b.start).flags = 0
  order : ∀ b ∈ freeBlocks s, (s.pages b.start).order = b.order

section Lists

variable {s : State} {k node i : ℕ} {l : List ℕ} {b : Block}

theorem mem_freeBlocks_iff (hk : k < maxOrder)
    (hl : IsDList s.links (s.freeLists k) l) :
    (⟨i, k⟩ : Block) ∈ freeBlocks s ↔ i ∈ l :=
  (and_iff_right hk).trans hl.chain.onChain_iff

theorem FreeListsOk.eq_of_start_eq (h : FreeListsOk s) {b c : Block}
    (hb : b ∈ freeBlocks s) (hc : c ∈ freeBlocks s)
    (hstart : b.start = c.start) : b = c := by
  have horder : b.order = c.order := by
    rw [← h.order b hb, ← h.order c hc, hstart]
  cases b
  cases c
  simp_all

theorem FreeListsOk.setMeta (h : FreeListsOk s) (order flags : ℕ)
    (hnode : ∀ b ∈ freeBlocks s, b.start ≠ node) :
    FreeListsOk (s.setMeta node order flags) ∧
      freeBlocks (s.setMeta node order flags) = freeBlocks s := by
  have hfree : freeBlocks (s.setMeta node order flags) = freeBlocks s := by
    simp [freeBlocks]
  refine ⟨⟨?_, ?_, ?_⟩, hfree⟩
  · intro k hk
    simpa using h.lists k hk
  · intro b hb
    rw [hfree] at hb
    rw [flags_setMeta, if_neg (hnode b hb), h.flags b hb]
  · intro b hb
    rw [hfree] at hb
    rw [order_setMeta, if_neg (hnode b hb), h.order b hb]

/-- Putting a page on the list of order `k` leaves every list well linked and
adds exactly that page to the list. -/
theorem FreeListsOk.lists_listAdd (h : FreeListsOk s)
    (hk : k < maxOrder) (hnode : ∀ b ∈ freeBlocks s, b.start ≠ node)
    {j : ℕ} (hj : j < maxOrder) (hl : IsDList s.links (s.freeLists j) l) :
    IsDList (listAdd s k node).links ((listAdd s k node).freeLists j)
      (if j = k then node :: l else l) := by
  have hfresh : node ∉ l := by
    intro hmem
    exact hnode ⟨node, j⟩ ((mem_freeBlocks_iff hj hl).mpr hmem) rfl
  rw [links_listAdd, freeLists_listAdd]
  by_cases hjk : j = k
  · subst hjk
    simpa using hl.pushFront hfresh
  · rw [if_neg hjk, Function.update_of_ne hjk]
    refine hl.pushFront_frame hfresh ?_
    intro y hy hyl
    obtain ⟨l', hl'⟩ := h.lists k hk
    have hyk : (⟨y, k⟩ : Block) ∈ freeBlocks s := by
      refine (mem_freeBlocks_iff hk hl').mpr ?_
      rw [hl'.chain.head_eq] at hy
      exact List.mem_of_mem_head? hy
    have hyj : (⟨y, j⟩ : Block) ∈ freeBlocks s :=
      (mem_freeBlocks_iff hj hl).mpr hyl
    have heq := h.eq_of_start_eq hyj hyk rfl
    exact hjk (congrArg Block.order heq)

theorem FreeListsOk.addFreeBlock (h : FreeListsOk s) (hk : k < maxOrder)
    (hnode : ∀ b ∈ freeBlocks s, b.start ≠ node) :
    FreeListsOk (addFreeBlock s node k) ∧
      freeBlocks (addFreeBlock s node k) = insert ⟨node, k⟩ (freeBlocks s) := by
  obtain ⟨hmeta, hfree⟩ := h.setMeta k 0 hnode
  rw [← hfree] at hnode
  have hadd : freeBlocks (Pmm.addFreeBlock s node k) =
      insert ⟨node, k⟩ (freeBlocks s) := by
    ext ⟨i, j⟩
    by_cases hj : j < maxOrder
    · obtain ⟨l, hl⟩ := hmeta.lists j hj
      have hl' := hmeta.lists_listAdd hk hnode hj hl
      rw [Pmm.addFreeBlock, mem_freeBlocks_iff hj hl', Set.mem_insert_iff,
        ← hfree, mem_freeBlocks_iff hj hl, Block.mk.injEq]
      by_cases hjk : j = k <;> simp [hjk]
    · have hjk : j ≠ k := by
        rintro rfl
        exact hj hk
      simp [freeBlocks, hj, hjk]
  refine ⟨⟨?_, ?_, ?_⟩, hadd⟩
  · intro j hj
    obtain ⟨l, hl⟩ := hmeta.lists j hj
    exact ⟨_, hmeta.lists_listAdd hk hnode hj hl⟩
  · intro b hb
    rw [hadd] at hb
    simp only [Pmm.addFreeBlock, flags_listAdd]
    rcases hb with rfl | hb
    · simp [flags_setMeta]
    · rw [← hfree] at hb
      exact hmeta.flags b hb
  · intro b hb
    rw [hadd] at hb
    simp only [Pmm.addFreeBlock, order_listAdd]
    rcases hb with rfl | hb
    · simp [order_setMeta, hk]
    · rw [← hfree] at hb
      exact hmeta.order b hb

/-- Taking a page off the list of order `k` leaves every list well linked and
removes exactly that page from the list. -/
theorem FreeListsOk.lists_listRemove (h : FreeListsOk s)
    (hnode : (⟨node, k⟩ : Block) ∈ freeBlocks s)
    {j : ℕ} (hj : j < maxOrder) (hl : IsDList s.links (s.freeLists j) l) :
    IsDList (listRemove s k node).links ((listRemove s k node).freeLists j)
      (if j = k then l.erase node else l) := by
  have hk : k < maxOrder := hnode.1
  rw [links_listRemove, freeLists_listRemove]
  by_cases hjk : j = k
  · subst hjk
    have hmem := (mem_freeBlocks_iff hk hl).mp hnode
    obtain ⟨a, b, rfl⟩ := List.append_of_mem hmem
    have hnodup := hl.nodup
    have hna : node ∉ a := by
      intro ha
      exact (List.nodup_append.mp hnodup).2.2 node ha node (by simp) rfl
    simpa [List.erase_append_right _ hna] using hl.unlink
  · rw [if_neg hjk, Function.update_of_ne hjk]
    obtain ⟨l', hl'⟩ := h.lists k hk
    have hmem := (mem_freeBlocks_iff hk hl').mp hnode
    have hother : ∀ y ∈ l', y ∉ l := by
      intro y hy hyl
      have heq := h.eq_of_start_eq ((mem_freeBlocks_iff hj hl).mpr hyl)
        ((mem_freeBlocks_iff hk hl').mpr hy) rfl
      exact hjk (congrArg Block.order heq)
    obtain ⟨a, b, rfl⟩ := List.append_of_mem hmem
    obtain ⟨hprev, hnext⟩ := hl'.neighbours
    refine hl.unlink_frame ?_ ?_
    · intro y hy
      rw [hprev] at hy
      exact hother y (by simp [List.mem_of_mem_getLast? hy])
    · intro y hy
      rw [hnext] at hy
      exact hother y (by simp [List.mem_of_mem_head? hy])

/-- Taking a block off its list removes it from the free blocks. -/
theorem FreeListsOk.listRemove (h : FreeListsOk s)
    (hnode : (⟨node, k⟩ : Block) ∈ freeBlocks s) :
    FreeListsOk (listRemove s k node) ∧
      freeBlocks (listRemove s k node) = freeBlocks s \ {⟨node, k⟩} := by
  have hremove : freeBlocks (Pmm.listRemove s k node) =
      freeBlocks s \ {⟨node, k⟩} := by
    ext ⟨i, j⟩
    by_cases hj : j < maxOrder
    · obtain ⟨l, hl⟩ := h.lists j hj
      have hl' := h.lists_listRemove hnode hj hl
      rw [mem_freeBlocks_iff hj hl', Set.mem_sdiff, mem_freeBlocks_iff hj hl,
        Set.mem_singleton_iff, Block.mk.injEq]
      by_cases hjk : j = k
      · simp [hjk, hl.nodup.mem_erase_iff, and_comm]
      · simp [hjk]
    · simp [freeBlocks, hj]
  refine ⟨⟨?_, ?_, ?_⟩, hremove⟩
  · intro j hj
    obtain ⟨l, hl⟩ := h.lists j hj
    exact ⟨_, h.lists_listRemove hnode hj hl⟩
  · intro b hb
    rw [hremove] at hb
    rw [flags_listRemove, h.flags b hb.1]
  · intro b hb
    rw [hremove] at hb
    rw [order_listRemove, h.order b hb.1]

end Lists

end BabOs.Pmm
