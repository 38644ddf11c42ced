import BabOs.Pmm.Runs

/-!
# History independence of the page allocator

When the memory comes from one region, no two buddies of equal order are ever
free at the same time.  The free blocks of a reachable state are therefore the
maximal aligned blocks of the free pages, whatever happened before.
-/

namespace BabOs.Pmm

open BabOs.Chain BabOs.Dyadic Relation

variable {s s' : State} {live : Set Block} {R : Set ℕ}

/-- Blocks that are as large as their place below `endPage` allows are never
buddies. -/
theorem noBuddies_of_fitsBelow {T : Set Block} (endPage : ℕ)
    (hT : ∀ b ∈ T, FitsBelow endPage b) : NoBuddies maxOrder T := by
  intro b hb horder hbuddy
  have hlow := hT b hb
  have hhigh := hT b.buddy hbuddy
  have hlen : 2 ^ (b.order + 1) = 2 ^ b.order + 2 ^ b.order := by ring
  have hle := hlow.le
  have hle' := hhigh.le
  rw [Block.buddy_order] at hle'
  rcases hlow.aligned.buddy_cases with ⟨hdvd, hstart⟩ | ⟨hdvd, hstart⟩
  · have hlargest := hlow.largest horder hdvd
    omega
  · have hlargest := hhigh.largest horder hdvd
    rw [Block.buddy_order] at hlargest
    omega

/-- The allocator after one region: all of its pages are free, and no two
buddies are.  The region need not be page-aligned. -/
theorem owns_boot_region (s₀ : State) (metadataStart : ℕ) {memSize : ℕ}
    {r : ℕ × ℕ} (hsize : memSize < 2 ^ 32) (hinside : r.1 + r.2 ≤ memSize) :
    Owns (boot s₀ memSize metadataStart [r]) ∅ (regionPages r) ∧
      NoBuddies maxOrder
        (freeBlocks (boot s₀ memSize metadataStart [r])) := by
  obtain ⟨hinit, hempty⟩ := owns_pmmInit s₀ memSize metadataStart
  obtain ⟨hown, -, hfits⟩ := hinit.pmmAddRegion hsize hinside rfl
    (Set.disjoint_empty _)
  rw [Set.union_empty] at hown
  refine ⟨hown, noBuddies_of_fitsBelow ((r.1 + r.2) / pageSize) ?_⟩
  intro b hb
  refine (hfits b hb).resolve_left ?_
  rw [hempty]
  exact Set.notMem_empty b

/-- Splitting a block leaves no two buddies: the buddy of every half split off
holds the allocated page. -/
theorem Allocates.noBuddies {order page j : ℕ}
    (h : Allocates s live R order page j s') (hs : Owns s live R)
    (hfree : NoBuddies maxOrder (freeBlocks s)) :
    NoBuddies maxOrder (freeBlocks s') := by
  have halign : 2 ^ j ∣ page := hs.tiles.aligned _ (Or.inl h.free)
  have hpage : ∀ b ∈ freeBlocks s', b.start ≠ page :=
    fun b hb => h.owns.ne_of_free_of_busy hb (Or.inl rfl)
  have hhalf : ∀ b ∈ splitOff page order j, b.buddy.start = page := by
    rintro b ⟨k, -, hkj, rfl⟩
    have hdvd : 2 ^ (k + 1) ∣ page := (pow_dvd_pow 2 hkj).trans halign
    rw [← Block.buddy_of_dvd hdvd, Block.buddy_buddy]
  intro b hb horder hbuddy
  have hb' := hb
  have hbuddy' := hbuddy
  rw [h.freeBlocks_eq] at hb' hbuddy'
  rcases hb' with hsplit | hold
  · exact hpage _ hbuddy (hhalf b hsplit)
  · rcases hbuddy' with hsplit | hold'
    · have hstart := hhalf b.buddy hsplit
      rw [Block.buddy_buddy] at hstart
      exact hpage b hb hstart
    · exact hfree b hold.1 horder hold'.1

/-- A block that was merged as far as possible leaves no two buddies. -/
theorem noBuddies_insert_of_subset {F T : Set Block} {c : Block}
    (hF : NoBuddies maxOrder F) (hT : T ⊆ F) (hc : c.Aligned)
    (hstop : c.order + 1 < maxOrder → c.buddy ∉ T) :
    NoBuddies maxOrder (insert c T) := by
  rintro b (rfl | hb) horder (heq | hbuddy)
  · refine Set.disjoint_left.mp hc.disjoint_buddy
      Block.start_mem_pages ?_
    rw [heq]
    exact Block.start_mem_pages
  · exact hstop horder hbuddy
  · have hcb : c.buddy = b := by rw [← heq, Block.buddy_buddy]
    refine hstop ?_ (hcb ▸ hb)
    rw [← heq]
    exact horder
  · exact hF b (hT hb) horder (hT hbuddy)

theorem Step.noBuddies {c c' : Config} (hstep : Step c c')
    (h : Owns c.1 c.2 R) (hlive : LiveMeta c.1 c.2)
    (hfree : NoBuddies maxOrder (freeBlocks c.1)) :
    NoBuddies maxOrder (freeBlocks c'.1) := by
  cases hstep with
  | alloc horder hcall =>
      rcases pmmAllocPages_cases h hlive horder with
        ⟨hnone, -⟩ | ⟨page, j, t, hsome, halloc⟩
      · rw [hcall, Prod.mk.injEq] at hnone
        exact absurd hnone.1 (by simp)
      · rw [hcall, Prod.mk.injEq] at hsome
        obtain ⟨-, rfl⟩ := hsome
        exact halloc.noBuddies h hfree
  | allocNull horder hcall =>
      rcases pmmAllocPages_cases h hlive horder with
        ⟨hnone, -⟩ | ⟨page, j, t, hsome, -⟩
      · rw [hcall, Prod.mk.injEq] at hnone
        obtain ⟨-, rfl⟩ := hnone
        exact hfree
      · rw [hcall, Prod.mk.injEq] at hsome
        exact absurd hsome.1 (by simp)
  | free hb =>
      obtain ⟨hown, -, c, T, hT, heq, hstop⟩ := pmmFreePages_spec h hlive hb
      rw [heq]
      refine noBuddies_insert_of_subset hfree hT (hown.tiles.aligned c ?_) hstop
      rw [heq]
      exact Or.inl (Or.inl rfl)

theorem noBuddies_of_run {c c' : Config} (hrun : ReflTransGen Step c c')
    (h : Owns c.1 c.2 R) (hlive : LiveMeta c.1 c.2)
    (hfree : NoBuddies maxOrder (freeBlocks c.1)) :
    NoBuddies maxOrder (freeBlocks c'.1) := by
  induction hrun with
  | refl => exact hfree
  | tail hrun hstep ih =>
      obtain ⟨hown, hmeta⟩ := owns_of_run hrun h hlive
      exact hstep.noBuddies hown hmeta ih

def livePages (live : Set Block) : Set ℕ :=
  ⋃ b ∈ live, b.pages

/-- The free blocks of a state without buddies are determined by its free
pages. -/
theorem Owns.freeBlocks_eq_maximal (h : Owns s live R)
    (hfree : NoBuddies maxOrder (freeBlocks s)) :
    freeBlocks s = {b | IsMaximal maxOrder (R \ livePages live) b} :=
  (h.tiles.left h.separate).eq_maximal (fun _ hb => hb.1) hfree

section OneRegion

variable (s₀ : State) (memSize metadataStart start length : ℕ)

/-- Reachable from one region by allocations and frees. -/
def Reachable (s : State) (live : Set Block) : Prop :=
  ReflTransGen Step
    (boot s₀ memSize metadataStart [(start, length)], ∅) (s, live)

variable {s₀ memSize metadataStart start length}

theorem Reachable.owns_of_inside (hsize : memSize < 2 ^ 32)
    (hinside : start + length ≤ memSize)
    (h : Reachable s₀ memSize metadataStart start length s live) :
    Owns s live (regionPages (start, length)) ∧ LiveMeta s live ∧
      NoBuddies maxOrder (freeBlocks s) := by
  obtain ⟨hboot, hfree⟩ := owns_boot_region s₀ metadataStart
    (r := (start, length)) hsize hinside
  have hmeta : LiveMeta
      (boot s₀ memSize metadataStart [(start, length)]) ∅ := by
    simp [LiveMeta]
  obtain ⟨hown, hlive⟩ := owns_of_run h hboot hmeta
  exact ⟨hown, hlive, noBuddies_of_run h hboot hmeta hfree⟩

theorem Reachable.owns
    (hregion : ManagedRegions memSize [(start, length)])
    (h : Reachable s₀ memSize metadataStart start length s live) :
    Owns s live (regionPages (start, length)) ∧ LiveMeta s live ∧
      NoBuddies maxOrder (freeBlocks s) :=
  h.owns_of_inside hregion.size_lt (hregion.inside _ List.mem_cons_self)

theorem Reachable.freeBlocks_eq
    (hregion : ManagedRegions memSize [(start, length)])
    (h : Reachable s₀ memSize metadataStart start length s live) :
    freeBlocks s = {b | IsMaximal maxOrder
      (regionPages (start, length) \ livePages live) b} := by
  obtain ⟨hown, -, hfree⟩ := h.owns hregion
  exact hown.freeBlocks_eq_maximal hfree

/-- Allocating a block and freeing it leads back to the same live blocks. -/
theorem Reachable.alloc_free
    (hregion : ManagedRegions memSize [(start, length)])
    (h : Reachable s₀ memSize metadataStart start length s live)
    {order ptr : ℕ} (horder : order < maxOrder)
    (hcall : pmmAllocPages s order = (some ptr, s')) :
    Reachable s₀ memSize metadataStart start length
      (pmmFreePages s' ptr order) live := by
  obtain ⟨hown, hlive, -⟩ := h.owns hregion
  rcases pmmAllocPages_cases hown hlive horder with
    ⟨hnone, -⟩ | ⟨page, j, t, hsome, halloc⟩
  · rw [hcall, Prod.mk.injEq] at hnone
    exact absurd hnone.1 (by simp)
  · have hsome' := hsome
    rw [hcall, Prod.mk.injEq, Option.some.injEq] at hsome'
    obtain ⟨rfl, rfl⟩ := hsome'
    have hpage : page * pageSize / pageSize = page :=
      Nat.mul_div_cancel _ (by decide)
    have halloc' : Step (s, live) _ := Step.alloc horder hcall
    rw [hpage] at halloc'
    have hfree := Step.free (s := s')
      (Set.mem_insert (⟨page, order⟩ : Block) live)
    rw [Set.insert_sdiff_self_of_notMem halloc.fresh] at hfree
    exact (ReflTransGen.tail h halloc').tail hfree

end OneRegion

/-- The free blocks depend on the free pages only.  They are the maximal
aligned blocks of the free pages, so two runs that end with the same live
pages end with the same free blocks; in particular freeing a block just
allocated restores the free blocks, and so does freeing every block. -/
theorem freeBlocks_history_independent
    (s₀ : State) (memSize metadataStart start length : ℕ)
    (hregion : ManagedRegions memSize [(start, length)]) :
    (∀ s live, Reachable s₀ memSize metadataStart start length s live →
      freeBlocks s = {b | IsMaximal maxOrder
        (regionPages (start, length) \ livePages live) b}) ∧
    (∀ s live s' live',
      Reachable s₀ memSize metadataStart start length s live →
      Reachable s₀ memSize metadataStart start length s' live' →
      livePages live = livePages live' → freeBlocks s = freeBlocks s') ∧
    (∀ s live order ptr s',
      Reachable s₀ memSize metadataStart start length s live →
      order < maxOrder → pmmAllocPages s order = (some ptr, s') →
      freeBlocks (pmmFreePages s' ptr order) = freeBlocks s) ∧
    (∀ s, Reachable s₀ memSize metadataStart start length s ∅ →
      freeBlocks s =
        freeBlocks (boot s₀ memSize metadataStart [(start, length)])) := by
  have hcanon : ∀ s live,
      Reachable s₀ memSize metadataStart start length s live →
      freeBlocks s = {b | IsMaximal maxOrder
        (regionPages (start, length) \ livePages live) b} :=
    fun s live h => h.freeBlocks_eq hregion
  refine ⟨hcanon, ?_, ?_, ?_⟩
  · intro s live s' live' h h' hpages
    rw [hcanon s live h, hcanon s' live' h', hpages]
  · intro s live order ptr s' h horder hcall
    rw [hcanon s live h, hcanon _ live (h.alloc_free hregion horder hcall)]
  · intro s h
    rw [hcanon s ∅ h, hcanon _ ∅ ReflTransGen.refl]

/-- On six managed pages: allocating one page splits a block, and freeing it
puts the block together again. -/
theorem freeBlocks_history_independent_eightPages :
    freeBlocks (pmmFreePages
      (pmmAllocPages (boot blankState 0x8000 0 [(0x2000, 0x6000)]) 0).2
        0x2000 0) =
      freeBlocks (boot blankState 0x8000 0 [(0x2000, 0x6000)]) :=
  (freeBlocks_history_independent blankState 0x8000 0 0x2000 0x6000
    managedRegions_eightPages).2.2.1 _ ∅ 0 0x2000 _ ReflTransGen.refl
      (by decide) (Prod.ext (by decide) rfl)

end BabOs.Pmm
