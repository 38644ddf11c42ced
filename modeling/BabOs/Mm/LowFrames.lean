import BabOs.Mm.BringUp

/-!
# Low frames first

`kmain` hands the memory from 5 to 128 MiB to the buddy allocator.  The pages
above 8 MiB form blocks of the largest order, so a request for a single frame
is served from below 8 MiB as long as a page is free there.
-/

namespace BabOs.Mm

open BabOs.Dyadic BabOs.Pmm

/-- The number of the page at 8 MiB. -/
def lowEnd : ℕ := 2048

/-- The number of pages of the machine. -/
def memEnd : ℕ := 32768

/-- The pages that `kmain` hands to the allocator. -/
def kmainPages : Set ℕ := Set.Ico 1280 memEnd

/-- A page below 8 MiB is free. -/
def LowFree (f : Frames) : Prop := ∃ p ∈ f.free, p < lowEnd

/-- No two buddies are free, and while a low page is free no high page has
been handed out. -/
structure LowFirst (f : Frames) : Prop where
  noBuddies : NoBuddies maxOrder (freeBlocks f.pmm)
  high : LowFree f → Set.Ico lowEnd memEnd ⊆ f.free

section Order

variable {f : Frames} {s s' : State} {live : Set Block} {page j : ℕ}

/-- The free pages from `lowEnd` on lie in free blocks of the largest
order. -/
theorem order_of_high (hown : Owns s live kmainPages)
    (hbuddies : NoBuddies maxOrder (freeBlocks s))
    (hhigh : Set.Ico lowEnd memEnd ⊆ freePages s) {b : Block}
    (hb : b ∈ freeBlocks s) (hle : lowEnd ≤ b.start) :
    maxOrder ≤ b.order + 1 := by
  have hstart : b.start < memEnd := (hown.start_mem (Or.inl hb)).2
  have hfree := hown.freePages_eq
  have halign : Block.Aligned ⟨b.start / lowEnd * lowEnd, 11⟩ :=
    dvd_mul_left _ _
  have hsub : Block.pages ⟨b.start / lowEnd * lowEnd, 11⟩ ⊆
      kmainPages \ livePages live := by
    rw [← hfree]
    refine Set.Subset.trans (fun x hx => ?_) hhigh
    rw [Block.mem_pages] at hx
    rw [Set.mem_Ico]
    simp only [lowEnd, memEnd] at hx hle hstart ⊢
    omega
  obtain ⟨c, hc, hcsub⟩ := (hown.tiles.left hown.separate).exists_superset
    hbuddies halign (show 11 < maxOrder by decide) hsub
  have hmem : b.start ∈ Block.pages ⟨b.start / lowEnd * lowEnd, 11⟩ := by
    rw [Block.mem_pages]
    simp only [lowEnd]
    omega
  have hbc : b = c := (hown.tiles.left hown.separate).eq_of_mem hb hc
    Block.start_mem_pages (hcsub hmem)
  have hle := Block.order_le_of_pages_subset hcsub
  rw [hbc]
  exact Nat.succ_le_succ hle

/-- A low page lies in a block that is not of the largest order. -/
theorem order_of_low (hown : Owns s live kmainPages) {b : Block}
    (hb : b ∈ freeBlocks s) {p : ℕ} (hp : p ∈ b.pages) (hlt : p < lowEnd) :
    b.order + 1 < maxOrder := by
  by_contra hnot
  have horder : b.order = 11 := by
    have hlt : b.order < maxOrder := hb.1
    simp only [maxOrder] at hnot hlt
    omega
  have halign : 2 ^ b.order ∣ b.start := hown.tiles.aligned b (Or.inl hb)
  have hstart : 1280 ≤ b.start := (hown.start_mem (Or.inl hb)).1
  rw [Block.mem_pages] at hp
  rw [horder] at halign
  simp only [lowEnd] at hlt
  omega

/-- While a low page is free a single frame is a low one. -/
theorem Allocates.page_lt (halloc : Allocates s live kmainPages 0 page j s')
    (hown : Owns s live kmainPages)
    (hbuddies : NoBuddies maxOrder (freeBlocks s))
    (hhigh : Set.Ico lowEnd memEnd ⊆ freePages s)
    (hlow : ∃ p ∈ freePages s, p < lowEnd) : page < lowEnd := by
  obtain ⟨p, hp, hlt⟩ := hlow
  simp only [freePages, Set.mem_iUnion] at hp
  obtain ⟨b, hb, hmem⟩ := hp
  have horder := order_of_low hown hb hmem hlt
  have hj : j ≤ b.order := by
    by_contra hgt
    exact halloc.least b.order (Nat.zero_le _) (by omega) b.start hb
  by_contra hge
  have hlargest := order_of_high hown hbuddies hhigh halloc.free
    (not_lt.mp hge)
  dsimp only at hlargest
  omega

/-- What a single frame does to the order of the free pages. -/
theorem LowFirst.frameAlloc (h : LowFirst f) (hok : f.Ok kmainPages) :
    LowFirst (frameAlloc f).2 ∧
      (LowFree f → (frameAlloc f).1 < lowEnd * Pmm.pageSize) := by
  obtain ⟨live, hown, hlive⟩ := hok.owns
  rcases pmmAllocPages_cases hown hlive (show 0 < maxOrder by decide) with
    ⟨hcall, -⟩ | ⟨page, j, pmm, hcall, halloc⟩
  · have hresult : Mm.frameAlloc f = (0, f) := by
      simp only [Mm.frameAlloc, hcall]
    rw [hresult]
    exact ⟨h, fun _ => Nat.mul_pos (by decide) (by decide)⟩
  · have hresult : Mm.frameAlloc f = (page * Pmm.pageSize,
        { pmm := pmm, granted := page * Pmm.pageSize :: f.granted }) := by
      simp only [Mm.frameAlloc, hcall]
    have hfree : freePages pmm = freePages f.pmm \ Set.Ico page (page + 1) :=
      halloc.freePages_eq hown
    have hpage : LowFree f → page < lowEnd := fun hlow =>
      Allocates.page_lt halloc hown h.noBuddies (h.high hlow) hlow
    rw [hresult]
    refine ⟨⟨halloc.noBuddies hown h.noBuddies, ?_⟩, fun hlow => ?_⟩
    · rintro ⟨p, hp, hlt⟩
      rw [Frames.free, hfree] at hp
      have hlow : LowFree f := ⟨p, hp.1, hlt⟩
      have hpage' := hpage hlow
      intro x hx
      rw [Frames.free, hfree]
      refine ⟨h.high hlow hx, fun hmem => ?_⟩
      rw [Set.mem_Ico] at hx hmem
      omega
    · exact Nat.mul_lt_mul_of_pos_right (hpage hlow) (by decide)

/-- The allocator is in order, and hands out low frames first. -/
structure Ordered (f : Frames) : Prop where
  ok : f.Ok kmainPages
  low : LowFirst f

theorem Ordered.frameAlloc (h : Ordered f) (hR : Usable kmainPages) :
    Ordered (Mm.frameAlloc f).2 := by
  refine ⟨?_, (h.low.frameAlloc h.ok).1⟩
  rcases h.ok.frameAlloc_cases hR with ⟨-, hcall⟩ | ⟨page, -, hgrants⟩
  · rw [hcall]
    exact h.ok
  · exact hgrants.ok

end Order

/-! ## What `kmain` starts from -/

section Kmain

variable {f : Frames}

/-- `pmm_init(128 * 1024 * 1024, 0x400000)` and
`pmm_add_region(0x500000, (128 - 5) * 1024 * 1024)`. -/
def kmainFrames (s₀ : State) : Frames where
  pmm := boot s₀ (128 * 1024 * 1024) 0x400000
    [(0x500000, (128 - 5) * 1024 * 1024)]
  granted := []

theorem regionPages_kmain :
    regionPages (0x500000, (128 - 5) * 1024 * 1024) = kmainPages := by
  simp [regionPages, kmainPages, Pmm.pageSize, memEnd]

theorem usable_kmainPages : Usable kmainPages := by
  intro p hp
  simp only [kmainPages, memEnd, Set.mem_Ico] at hp
  omega

theorem kmainFrames_ok (s₀ : State) :
    (kmainFrames s₀).Ok kmainPages ∧ LowFirst (kmainFrames s₀) ∧
      (kmainFrames s₀).free = kmainPages := by
  obtain ⟨hown, hbuddies⟩ := @owns_boot_region s₀ 0x400000
    (128 * 1024 * 1024) (0x500000, (128 - 5) * 1024 * 1024)
    (by norm_num) (by norm_num)
  rw [regionPages_kmain] at hown
  have hfree : (kmainFrames s₀).free = kmainPages := by
    have hall := hown.freePages_eq
    rwa [livePages, Set.biUnion_empty, Set.sdiff_empty] at hall
  refine ⟨⟨⟨∅, hown, by simp [LiveMeta]⟩, by simp [kmainFrames]⟩,
    ⟨hbuddies, fun _ => ?_⟩, hfree⟩
  rw [hfree]
  exact Set.Ico_subset_Ico_left (by decide)

theorem ncard_kmainPages : kmainPages.ncard = 31488 := by
  rw [kmainPages, ← Finset.coe_Ico, Set.ncard_coe_finset, Nat.card_Ico]
  rfl

/-- Once fewer pages are free than there are high ones, no low page is. -/
theorem LowFirst.not_lowFree (h : LowFirst f) (hok : f.Ok kmainPages)
    (hfew : f.free.ncard ≤ 30720) : ¬LowFree f := by
  intro hlow
  obtain ⟨p, hp, hlt⟩ := hlow
  have hsub : insert p (Set.Ico lowEnd memEnd) ⊆ f.free :=
    Set.insert_subset hp (h.high ⟨p, hp, hlt⟩)
  have hcard := Set.ncard_le_ncard hsub (hok.finite usable_kmainPages)
  have hnot : p ∉ Set.Ico lowEnd memEnd := fun hmem => by
    rw [Set.mem_Ico] at hmem
    omega
  rw [Set.ncard_insert_of_notMem hnot (Set.finite_Ico _ _),
    ← Finset.coe_Ico, Set.ncard_coe_finset, Nat.card_Ico] at hcard
  simp only [lowEnd, memEnd] at hcard
  omega

/-- While more pages are free than there are high ones, a low page is. -/
theorem lowFree_of_ncard (hok : f.Ok kmainPages)
    (hmany : 30720 < f.free.ncard) : LowFree f := by
  by_contra hnone
  have hsub : f.free ⊆ Set.Ico lowEnd memEnd := fun p hp =>
    ⟨not_lt.mp fun hlt => hnone ⟨p, hp, hlt⟩, (hok.free_subset hp).2⟩
  have hcard := Set.ncard_le_ncard hsub (Set.finite_Ico _ _)
  rw [← Finset.coe_Ico, Set.ncard_coe_finset, Nat.card_Ico] at hcard
  simp only [lowEnd, memEnd] at hcard
  omega

end Kmain

end BabOs.Mm
