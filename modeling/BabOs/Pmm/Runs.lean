import BabOs.Pmm.Buddy
import Mathlib.Logic.Relation

/-!
# Runs of the page allocator

The managed memory is set up by `pmm_init` and `pmm_add_region`; after that
any allocations and any frees of live blocks may follow.  `BuddyInvariant` is
what every state of such a run satisfies.
-/

namespace BabOs.Pmm

open BabOs.Chain BabOs.Dyadic

/-! ## Adding regions -/

section Regions

variable {s : State} {busy : Set Block} {R : Set ℕ} {i endPage : ℕ}

/-- A block that fits below `endPage` while the block of the next order at the
same place does not. -/
structure FitsBelow (endPage : ℕ) (b : Block) : Prop where
  order_lt : b.order < maxOrder
  aligned : b.Aligned
  le : b.start + 2 ^ b.order ≤ endPage
  largest : b.order + 1 < maxOrder → 2 ^ (b.order + 1) ∣ b.start →
    endPage < b.start + 2 ^ (b.order + 1)

theorem fitOrder_fitsBelow {fuel order : ℕ}
    (hfuel : order + fuel = maxOrder - 1) (halign : 2 ^ order ∣ i)
    (hle : i + 2 ^ order ≤ endPage) :
    FitsBelow endPage ⟨i, fitOrder i endPage fuel order⟩ := by
  induction fuel generalizing order with
  | zero =>
      refine ⟨?_, halign, hle, fun hlt => ?_⟩
      · simp only [fitOrder, maxOrder] at hfuel ⊢
        omega
      · simp only [fitOrder, maxOrder] at hlt hfuel
        omega
  | succ fuel ih =>
      by_cases hstop : i + 2 ^ (order + 1) > endPage ∨
          i % 2 ^ (order + 1) ≠ 0
      · rw [fitOrder, if_pos hstop]
        refine ⟨?_, halign, hle, fun _ hdvd => ?_⟩
        · simp only [maxOrder] at hfuel ⊢
          omega
        · rcases hstop with hgt | hmod
          · exact hgt
          · exact absurd (Nat.mod_eq_zero_of_dvd hdvd) hmod
      · rw [fitOrder, if_neg hstop]
        push Not at hstop
        exact ih (by omega) (Nat.dvd_of_mod_eq_zero hstop.2) hstop.1

/-- One call of `pmm_add_region` hands over all its pages, in blocks that are
as large as their place allows. -/
theorem Owns.addBlocks (h : Owns s busy R) {fuel : ℕ}
    (hfuel : endPage - i ≤ fuel) (hend : endPage ≤ s.totalPages)
    (hdisjoint : Disjoint (Set.Ico i endPage) R) :
    Owns (addBlocks s endPage fuel i) busy (Set.Ico i endPage ∪ R) ∧
      (addBlocks s endPage fuel i).totalPages = s.totalPages ∧
      ∀ b ∈ freeBlocks (addBlocks s endPage fuel i),
        b ∈ freeBlocks s ∨ FitsBelow endPage b := by
  induction fuel generalizing s R i with
  | zero =>
      have hempty : Set.Ico i endPage = ∅ := Set.Ico_eq_empty (by omega)
      rw [hempty, Set.empty_union]
      exact ⟨h, rfl, fun b hb => Or.inl hb⟩
  | succ fuel ih =>
      by_cases hi : i < endPage
      · rw [Pmm.addBlocks, if_pos hi]
        have hfits : FitsBelow endPage
            ⟨i, fitOrder i endPage (maxOrder - 1) 0⟩ :=
          fitOrder_fitsBelow (by omega) (one_dvd i) hi
        generalize fitOrder i endPage (maxOrder - 1) 0 = order at hfits
        have hlen : 0 < 2 ^ order := Nat.two_pow_pos _
        have hle : i + 2 ^ order ≤ endPage := hfits.le
        obtain ⟨hadd, hfree⟩ := h.add (b := ⟨i, order⟩) hfits.aligned
          hfits.order_lt
          (hdisjoint.mono_left (Set.Ico_subset_Ico_right hle))
          (fun x hx => hx.2.trans_le (hle.trans hend))
        have hunion : Set.Ico (i + 2 ^ order) endPage ∪
            (Block.pages ⟨i, order⟩ ∪ R) = Set.Ico i endPage ∪ R := by
          rw [← Set.union_assoc, Set.union_comm (Set.Ico (i + 2 ^ order) _)]
          congr 1
          exact Set.Ico_union_Ico_eq_Ico (Nat.le_add_right _ _) hle
        have hrest : Disjoint (Set.Ico (i + 2 ^ order) endPage)
            (Block.pages ⟨i, order⟩ ∪ R) := by
          rw [Set.disjoint_union_right]
          constructor
          · exact (Set.Ico_disjoint_Ico_same).symm
          · exact hdisjoint.mono_left
              (Set.Ico_subset_Ico_left (Nat.le_add_right _ _))
        obtain ⟨hown, htotal, hblocks⟩ := ih hadd (by omega)
          (by simpa [addFreeBlock] using hend) hrest
        rw [hunion] at hown
        refine ⟨hown, by simpa [addFreeBlock] using htotal, ?_⟩
        intro b hb
        rcases hblocks b hb with hmem | hb
        · rw [hfree] at hmem
          rcases hmem with rfl | hmem
          · exact Or.inr hfits
          · exact Or.inl hmem
        · exact Or.inr hb
      · rw [Pmm.addBlocks, if_neg hi]
        have hempty : Set.Ico i endPage = ∅ := Set.Ico_eq_empty hi
        rw [hempty, Set.empty_union]
        exact ⟨h, rfl, fun b hb => Or.inl hb⟩

/-- Before any region is added every page is marked as used. -/
theorem owns_pmmInit (s : State) (memSize metadataStart : ℕ) :
    Owns (pmmInit s memSize metadataStart) ∅ ∅ ∧
      freeBlocks (pmmInit s memSize metadataStart) = ∅ := by
  have hnone : ∀ k < maxOrder,
      (pmmInit s memSize metadataStart).freeLists k = none := by
    intro k hk
    simp [pmmInit, hk]
  have hfree : freeBlocks (pmmInit s memSize metadataStart) = ∅ := by
    refine Set.eq_empty_of_forall_notMem ?_
    rintro b ⟨hb, hon⟩
    rw [hnone _ hb] at hon
    exact not_onChain_none hon
  refine ⟨⟨⟨?_, ?_, ?_⟩, ?_, ?_, ?_, ?_, ?_⟩, hfree⟩
  · intro k hk
    rw [hnone k hk]
    exact ⟨[], isDList_nil⟩
  · simp [hfree]
  · simp [hfree]
  · simp
  · rw [hfree, Set.empty_union]
    exact tiles_empty
  · simp
  · simp
  · intro x hx _
    have hx' : x < memSize / pageSize := hx
    simp [pmmInit, hx']

/-- The pages of the region of `length` bytes at `start`. -/
def regionPages (r : ℕ × ℕ) : Set ℕ :=
  Set.Ico (r.1 / pageSize) ((r.1 + r.2) / pageSize)

def managedPages (regions : List (ℕ × ℕ)) : Set ℕ :=
  ⋃ r ∈ regions, regionPages r

/-- The regions are page-aligned and pairwise disjoint and lie inside the
managed memory, which has a 32-bit size. -/
structure ManagedRegions (memSize : ℕ) (regions : List (ℕ × ℕ)) : Prop where
  size_lt : memSize < 2 ^ 32
  aligned : ∀ r ∈ regions, pageSize ∣ r.1 ∧ pageSize ∣ r.2
  inside : ∀ r ∈ regions, r.1 + r.2 ≤ memSize
  disjoint : regions.Pairwise fun r r' =>
    Disjoint (Set.Ico r.1 (r.1 + r.2)) (Set.Ico r'.1 (r'.1 + r'.2))

/-- The calls of `pmm_add_region` in order. -/
def addRegions (s : State) (regions : List (ℕ × ℕ)) : State :=
  regions.foldl (fun s r => pmmAddRegion s r.1 r.2) s

theorem disjoint_regionPages {r r' : ℕ × ℕ}
    (hr : pageSize ∣ r.1 ∧ pageSize ∣ r.2)
    (hr' : pageSize ∣ r'.1 ∧ pageSize ∣ r'.2)
    (h : Disjoint (Set.Ico r.1 (r.1 + r.2)) (Set.Ico r'.1 (r'.1 + r'.2))) :
    Disjoint (regionPages r) (regionPages r') := by
  rw [Set.disjoint_left]
  intro x hx hx'
  simp only [regionPages, Set.mem_Ico, pageSize] at hx hx' hr hr'
  have hmem : 4096 * x ∈ Set.Ico r.1 (r.1 + r.2) := by
    rw [Set.mem_Ico]
    omega
  have hmem' : 4096 * x ∈ Set.Ico r'.1 (r'.1 + r'.2) := by
    rw [Set.mem_Ico]
    omega
  exact Set.disjoint_left.mp h hmem hmem'

theorem Owns.pmmAddRegion {memSize : ℕ} {r : ℕ × ℕ} (h : Owns s busy R)
    (hsize : memSize < 2 ^ 32) (hinside : r.1 + r.2 ≤ memSize)
    (htotal : s.totalPages = memSize / pageSize)
    (hdisjoint : Disjoint (regionPages r) R) :
    Owns (pmmAddRegion s r.1 r.2) busy (regionPages r ∪ R) ∧
      (pmmAddRegion s r.1 r.2).totalPages = memSize / pageSize ∧
      ∀ b ∈ freeBlocks (pmmAddRegion s r.1 r.2),
        b ∈ freeBlocks s ∨ FitsBelow ((r.1 + r.2) / pageSize) b := by
  have hmod : (r.1 + r.2) % 2 ^ 32 = r.1 + r.2 :=
    Nat.mod_eq_of_lt (hinside.trans_lt hsize)
  rw [Pmm.pmmAddRegion, hmod, ← htotal]
  refine h.addBlocks le_rfl ?_ hdisjoint
  rw [htotal]
  exact Nat.div_le_div_right hinside

theorem Owns.addRegions {memSize : ℕ} {regions : List (ℕ × ℕ)}
    (h : Owns s busy R) (htotal : s.totalPages = memSize / pageSize)
    (hregions : ManagedRegions memSize regions)
    (hdisjoint : ∀ r ∈ regions, Disjoint (regionPages r) R) :
    Owns (addRegions s regions) busy (managedPages regions ∪ R) := by
  induction regions generalizing s R with
  | nil => simpa [Pmm.addRegions, managedPages] using h
  | cons r rs ih =>
      obtain ⟨hsize, haligned, hinside, hpair⟩ := hregions
      rw [List.pairwise_cons] at hpair
      obtain ⟨hadd, htotal', -⟩ := h.pmmAddRegion hsize
        (hinside r List.mem_cons_self) htotal
        (hdisjoint r List.mem_cons_self)
      have hrest : ManagedRegions memSize rs :=
        ⟨hsize, fun r' hr' => haligned r' (List.mem_cons_of_mem _ hr'),
          fun r' hr' => hinside r' (List.mem_cons_of_mem _ hr'), hpair.2⟩
      have hstep := ih hadd htotal' hrest ?_
      · have hunion : managedPages (r :: rs) ∪ R =
            managedPages rs ∪ (regionPages r ∪ R) := by
          simp only [managedPages, List.mem_cons, Set.iUnion_iUnion_eq_or_left]
          rw [Set.union_comm (regionPages r), Set.union_assoc]
        rw [hunion]
        exact hstep
      · intro r' hr'
        rw [Set.disjoint_union_right]
        constructor
        · exact disjoint_regionPages (hrest.aligned r' hr')
            (haligned r List.mem_cons_self) (hpair.1 r' hr').symm
        · exact hdisjoint r' (List.mem_cons_of_mem _ hr')

end Regions

/-! ## Runs -/

section Runs

open Relation

/-- The allocator together with the blocks its callers hold. -/
abbrev Config := State × Set Block

/-- A caller asks for a block, or gives back one it holds with the order it
was allocated with. -/
inductive Step : Config → Config → Prop
  | alloc {s s' : State} {live : Set Block} {order ptr : ℕ}
      (horder : order < maxOrder)
      (hcall : pmmAllocPages s order = (some ptr, s')) :
      Step (s, live) (s', insert ⟨ptr / pageSize, order⟩ live)
  | allocNull {s s' : State} {live : Set Block} {order : ℕ}
      (horder : order < maxOrder)
      (hcall : pmmAllocPages s order = (none, s')) :
      Step (s, live) (s', live)
  | free {s : State} {live : Set Block} {b : Block} (hb : b ∈ live) :
      Step (s, live)
        (pmmFreePages s (b.start * pageSize) b.order, live \ {b})

/-- The state the runs start from: `pmm_init`, then the regions. -/
def boot (s : State) (memSize metadataStart : ℕ)
    (regions : List (ℕ × ℕ)) : State :=
  addRegions (pmmInit s memSize metadataStart) regions

theorem owns_boot (s : State) {memSize : ℕ} (metadataStart : ℕ)
    {regions : List (ℕ × ℕ)} (hregions : ManagedRegions memSize regions) :
    Owns (boot s memSize metadataStart regions) ∅ (managedPages regions) := by
  have hinit := (owns_pmmInit s memSize metadataStart).1
  have htotal : (pmmInit s memSize metadataStart).totalPages =
      memSize / pageSize := rfl
  have hadd := hinit.addRegions htotal hregions
    (fun r _ => Set.disjoint_empty _)
  rwa [Set.union_empty] at hadd

theorem Step.owns {R : Set ℕ} {c c' : Config} (hstep : Step c c')
    (h : Owns c.1 c.2 R) (hlive : LiveMeta c.1 c.2) :
    Owns c'.1 c'.2 R ∧ LiveMeta c'.1 c'.2 := by
  cases hstep with
  | alloc horder hcall =>
      rcases pmmAllocPages_cases h hlive horder with
        ⟨hnone, -⟩ | ⟨page, j, t, hsome, halloc⟩
      · rw [hcall, Prod.mk.injEq] at hnone
        exact absurd hnone.1 (by simp)
      · rw [hcall, Prod.mk.injEq, Option.some.injEq] at hsome
        obtain ⟨rfl, rfl⟩ := hsome
        rw [Nat.mul_div_cancel _ (by decide)]
        exact ⟨halloc.owns, halloc.liveMeta⟩
  | allocNull horder hcall =>
      rcases pmmAllocPages_cases h hlive horder with
        ⟨hnone, -⟩ | ⟨page, j, t, hsome, -⟩
      · rw [hcall, Prod.mk.injEq] at hnone
        obtain ⟨-, rfl⟩ := hnone
        exact ⟨h, hlive⟩
      · rw [hcall, Prod.mk.injEq] at hsome
        exact absurd hsome.1 (by simp)
  | free hb =>
      obtain ⟨hown, hmeta, -⟩ := pmmFreePages_spec h hlive hb
      exact ⟨hown, hmeta⟩

theorem owns_of_run {R : Set ℕ} {c c' : Config}
    (hrun : ReflTransGen Step c c') (h : Owns c.1 c.2 R)
    (hlive : LiveMeta c.1 c.2) :
    Owns c'.1 c'.2 R ∧ LiveMeta c'.1 c'.2 := by
  induction hrun with
  | refl => exact ⟨h, hlive⟩
  | tail _ hstep ih => exact hstep.owns ih.1 ih.2

/-- The buddy allocator invariant: `live` are the blocks the callers hold and
`R` the pages the allocator was given. -/
structure BuddyInvariant (s : State) (live : Set Block) (R : Set ℕ) :
    Prop where
  aligned : ∀ b ∈ freeBlocks s ∪ live, 2 ^ b.order ∣ b.start
  separate : Disjoint (freeBlocks s) live
  disjoint : (freeBlocks s ∪ live).PairwiseDisjoint Block.pages
  cover : ⋃ b ∈ freeBlocks s ∪ live, b.pages = R
  lists : ∀ k < maxOrder, ∃ l : List ℕ,
    IsDList s.links (s.freeLists k) l ∧ l.Nodup ∧
      ∀ i, i ∈ l ↔ (⟨i, k⟩ : Block) ∈ freeBlocks s
  freeMeta : ∀ b ∈ freeBlocks s,
    (s.pages b.start).flags = 0 ∧ (s.pages b.start).order = b.order
  liveMeta : ∀ b ∈ live,
    (s.pages b.start).flags = 1 ∧ (s.pages b.start).order = b.order

theorem Owns.buddyInvariant {s : State} {live : Set Block} {R : Set ℕ}
    (h : Owns s live R) (hlive : LiveMeta s live) :
    BuddyInvariant s live R where
  aligned := h.tiles.aligned
  separate := h.separate
  disjoint := h.tiles.disjoint
  cover := h.tiles.cover
  lists := by
    intro k hk
    obtain ⟨l, hl⟩ := h.lists.lists k hk
    exact ⟨l, hl, hl.nodup, fun i => (mem_freeBlocks_iff hk hl).symm⟩
  freeMeta := fun b hb => ⟨h.lists.flags b hb, h.lists.order b hb⟩
  liveMeta := hlive

/-- The invariant holds in every state that `pmm_init`, any regions without
page `0`, and then any allocations and frees of live blocks lead to; and no
live block has the null address. -/
theorem run_buddyInvariant (s₀ : State) (memSize metadataStart : ℕ)
    (regions : List (ℕ × ℕ)) (hregions : ManagedRegions memSize regions)
    (hzero : 0 ∉ managedPages regions) {s : State} {live : Set Block}
    (hrun : ReflTransGen Step
      (boot s₀ memSize metadataStart regions, ∅) (s, live)) :
    BuddyInvariant s live (managedPages regions) ∧
      ∀ b ∈ live, b.start * pageSize ≠ 0 := by
  obtain ⟨hown, hmeta⟩ := owns_of_run hrun
    (owns_boot s₀ metadataStart hregions) (by simp [LiveMeta])
  refine ⟨hown.buddyInvariant hmeta, ?_⟩
  intro b hb hnull
  have hstart : b.start = 0 := by
    simp only [pageSize] at hnull
    omega
  exact hzero (hstart ▸ hown.start_mem (Or.inr hb))

/-- A store before `pmm_init`. -/
def blankState : State where
  metadata := 0
  pages := fun _ => { order := 0, flags := 0, next := none, prev := none }
  totalPages := 0
  freeLists := fun _ => none

theorem managedRegions_eightPages :
    ManagedRegions 0x8000 [(0x2000, 0x6000)] := by
  refine ⟨by norm_num, ?_, ?_, List.pairwise_singleton _ _⟩
  · simp only [List.mem_singleton, forall_eq, pageSize]
    omega
  · simp

/-- Eight pages, the last six of them managed: one page is allocated, which
splits the block of pages `2` and `3`. -/
theorem run_buddyInvariant_eightPages :
    BuddyInvariant
      (pmmAllocPages (boot blankState 0x8000 0 [(0x2000, 0x6000)]) 0).2
      {⟨2, 0⟩} (managedPages [(0x2000, 0x6000)]) := by
  have hzero : 0 ∉ managedPages [(0x2000, 0x6000)] := by
    simp [managedPages, regionPages, pageSize]
  have hcall : pmmAllocPages
      (boot blankState 0x8000 0 [(0x2000, 0x6000)]) 0 =
        (some 0x2000,
          (pmmAllocPages (boot blankState 0x8000 0 [(0x2000, 0x6000)]) 0).2) :=
    Prod.ext (by decide) rfl
  have hstep : Step (_, (∅ : Set Block)) _ := Step.alloc (by decide) hcall
  rw [insert_empty_eq] at hstep
  exact (run_buddyInvariant blankState 0x8000 0 [(0x2000, 0x6000)]
    managedRegions_eightPages hzero (ReflTransGen.single hstep)).1

end Runs

end BabOs.Pmm
