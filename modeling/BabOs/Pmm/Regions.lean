import BabOs.Pmm.Completeness

/-!
# One region of any start and length

`pmm_add_region` hands over the pages from the one its start lies in on.  These
are the pages inside the region when the start is page-aligned; otherwise the
first of them begins before the region.
-/

namespace BabOs.Pmm

open BabOs.Dyadic

section Loop

variable {s : State} {endPage i order fuel : ℕ}

/-- Further rounds change nothing: the outer loop has come to its end. -/
theorem addBlocks_add (hfuel : endPage - i ≤ fuel) (extra : ℕ) :
    addBlocks s endPage (fuel + extra) i = addBlocks s endPage fuel i := by
  induction fuel generalizing s i with
  | zero =>
      have hi : ¬i < endPage := by omega
      cases extra with
      | zero => rfl
      | succ extra =>
          rw [Nat.zero_add]
          exact if_neg hi
  | succ fuel ih =>
      have hlen := Nat.two_pow_pos (fitOrder i endPage (maxOrder - 1) 0)
      rw [Nat.add_right_comm, addBlocks, addBlocks]
      split_ifs
      · exact ih (by omega)
      · rfl

end Loop

/-! ## The pages of a region -/

/-- The pages that lie entirely inside the region of `length` bytes at
`start`. -/
def wholePages (start length : ℕ) : Set ℕ :=
  {p | start ≤ p * pageSize ∧ (p + 1) * pageSize ≤ start + length}

/-- The pages that `pmm_add_region` hands over are those inside the region when
its start is aligned, or when no page begins inside it. -/
theorem regionPages_eq_wholePages_iff (start length : ℕ) :
    regionPages (start, length) = wholePages start length ↔
      pageSize ∣ start ∨
        start / pageSize = (start + length) / pageSize := by
  constructor
  · intro heq
    by_contra hneg
    push Not at hneg
    obtain ⟨haligned, hne⟩ := hneg
    have hfirst : start / pageSize ∈ regionPages (start, length) := by
      simp only [regionPages, Set.mem_Ico, pageSize] at hne ⊢
      omega
    rw [heq] at hfirst
    simp only [wholePages, Set.mem_ofPred_eq, pageSize] at hfirst haligned
    omega
  · intro hcond
    ext p
    simp only [regionPages, wholePages, Set.mem_Ico, Set.mem_ofPred_eq,
      pageSize] at hcond ⊢
    omega

/-- The outcome of `pmm_add_region`, called on `s`: the call returns, the free
pages are those of `P`, and they are cut into aligned blocks of which no two are
buddies. -/
structure AddsRegion (s : State) (start length : ℕ) (P : Set ℕ) : Prop where
  returns : ∀ extra,
    addBlocks s ((start + length) % 2 ^ 32 / pageSize)
        ((start + length) % 2 ^ 32 / pageSize - start / pageSize + extra)
        (start / pageSize) =
      pmmAddRegion s start length
  freePages_eq : freePages (pmmAddRegion s start length) = P
  order_lt : ∀ b ∈ freeBlocks (pmmAddRegion s start length),
    b.order < maxOrder
  aligned : ∀ b ∈ freeBlocks (pmmAddRegion s start length),
    2 ^ b.order ∣ b.start
  disjoint : (freeBlocks (pmmAddRegion s start length)).PairwiseDisjoint
    Block.pages
  noBuddies : NoBuddies maxOrder (freeBlocks (pmmAddRegion s start length))

section Region

variable {memSize metadataStart start length : ℕ} {P : Set ℕ}

/-- After `pmm_init`, one region is added with the pages from the one its start
lies in on. -/
theorem addsRegion_regionPages (s₀ : State) (metadataStart : ℕ)
    (hsize : memSize < 2 ^ 32) (hinside : start + length ≤ memSize) :
    AddsRegion (pmmInit s₀ memSize metadataStart) start length
      (regionPages (start, length)) := by
  obtain ⟨hown, hbuddies⟩ := owns_boot_region (r := (start, length)) s₀
    metadataStart hsize hinside
  have hfree := hown.freePages_eq
  have htiles := hown.tiles.left hown.separate
  rw [livePages, Set.biUnion_empty, Set.sdiff_empty] at hfree
  exact ⟨fun extra => addBlocks_add le_rfl extra, hfree, fun b hb => hb.1,
    htiles.aligned, htiles.disjoint, hbuddies⟩

end Region

/-- After `pmm_init`, a region of any start and length that lies inside the
memory adds exactly its whole pages if and only if its start is page-aligned or
no page begins inside it. -/
theorem pmmAddRegion_wholePages_iff (s₀ : State)
    (memSize metadataStart start length : ℕ) (hsize : memSize < 2 ^ 32)
    (hinside : start + length ≤ memSize) :
    AddsRegion (pmmInit s₀ memSize metadataStart) start length
        (wholePages start length) ↔
      pageSize ∣ start ∨
        start / pageSize = (start + length) / pageSize := by
  have hadds := addsRegion_regionPages s₀ metadataStart hsize hinside
  rw [← regionPages_eq_wholePages_iff]
  constructor
  · intro hwhole
    exact hadds.freePages_eq.symm.trans hwhole.freePages_eq
  · intro heq
    rw [← heq]
    exact hadds

/-- On eight pages, the region of three pages at page `2`. -/
theorem pmmAddRegion_wholePages_iff_eightPages :
    AddsRegion (pmmInit blankState 0x8000 0) 0x2000 0x3000
      (wholePages 0x2000 0x3000) :=
  (pmmAddRegion_wholePages_iff blankState 0x8000 0 0x2000 0x3000 (by norm_num)
    (by norm_num)).mpr (Or.inl (by decide))

/-- A region that begins in the middle of page `0x500`: that page is handed
over, and half of it lies before the region. -/
theorem not_addsRegion_halfPage :
    ¬AddsRegion (pmmInit blankState 0x8000000 0x400000) 0x500800 0x100000
      (wholePages 0x500800 0x100000) := by
  intro hwhole
  have hadds : AddsRegion (pmmInit blankState 0x8000000 0x400000) 0x500800
      0x100000 (regionPages (0x500800, 0x100000)) :=
    addsRegion_regionPages blankState 0x400000 (by norm_num) (by norm_num)
  have hmem : 0x500 ∈ regionPages (0x500800, 0x100000) := by
    simp [regionPages, pageSize]
  rw [← hadds.freePages_eq, hwhole.freePages_eq] at hmem
  simp [wholePages, pageSize] at hmem

end BabOs.Pmm
