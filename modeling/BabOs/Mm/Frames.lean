import BabOs.Pmm.Completeness
import BabOs.Vmm.Mapping
import Mathlib.Data.Set.Card

/-!
# Single frames for the page tables

`vmm.c` and `kheap.c` ask for frames one at a time, with `pmm_alloc_pages(0)`,
and use the result as an address without looking whether it is null.  A frame
is there as long as a page is free, and every call takes one.
-/

namespace BabOs.Mm

open BabOs.Dyadic BabOs.Pmm

/-- The state of the physical allocator.  `granted` records the addresses that
calls have returned, the null pointer apart; no operation reads it. -/
structure Frames where
  pmm : Pmm.State
  granted : List ℕ

/-- `(uint32_t)pmm_alloc_pages(0)`, where the null pointer is `0`. -/
def frameAlloc (f : Frames) : ℕ × Frames :=
  match pmmAllocPages f.pmm 0 with
  | (some ptr, pmm) => (ptr, { pmm := pmm, granted := ptr :: f.granted })
  | (none, pmm) => (0, { f with pmm := pmm })

/-- The pages that the allocator may still hand out. -/
def Frames.free (f : Frames) : Set ℕ := freePages f.pmm

/-- The managed pages have addresses of 32 bits, and page `0` is not one of
them. -/
def Usable (R : Set ℕ) : Prop := ∀ p ∈ R, 0 < p ∧ p < 2 ^ 20

/-- The allocator is in order, and what it has handed out is not free. -/
structure Frames.Ok (R : Set ℕ) (f : Frames) : Prop where
  owns : ∃ live, Owns f.pmm live R ∧ LiveMeta f.pmm live
  granted : ∀ a ∈ f.granted, Pmm.pageSize ∣ a ∧ a ≠ 0 ∧
    a / Pmm.pageSize ∉ f.free

section Spec

variable {R : Set ℕ} {f f' : Frames} {page : ℕ}

theorem Frames.Ok.free_subset (h : f.Ok R) : f.free ⊆ R := by
  obtain ⟨live, hown, -⟩ := h.owns
  rw [Frames.free, hown.freePages_eq]
  exact Set.sdiff_subset

theorem Usable.finite (hR : Usable R) : R.Finite :=
  (Set.finite_Iio (2 ^ 20)).subset fun p hp => (hR p hp).2

theorem Frames.Ok.finite (h : f.Ok R) (hR : Usable R) : f.free.Finite :=
  hR.finite.subset h.free_subset

/-- What a call that finds a free page does. -/
structure Grants (R : Set ℕ) (f f' : Frames) (page : ℕ) : Prop where
  ok : f'.Ok R
  mem : page ∈ f.free
  free : f'.free = f.free \ {page}
  granted : f'.granted = page * Pmm.pageSize :: f.granted

theorem Grants.ncard (h : Grants R f f' page) (hfinite : f.free.Finite) :
    f'.free.ncard + 1 = f.free.ncard := by
  rw [h.free]
  exact Set.ncard_sdiff_singleton_add_one h.mem hfinite

theorem Grants.notMem (h : Grants R f f' page) : page ∉ f'.free := by
  rw [h.free]
  exact fun hmem => hmem.2 rfl

theorem Grants.subset (h : Grants R f f' page) : f'.free ⊆ f.free := by
  rw [h.free]
  exact Set.sdiff_subset

/-- Either no page is free and the result is the null pointer, or a free page
is handed out. -/
theorem Frames.Ok.frameAlloc_cases (h : f.Ok R) (hR : Usable R) :
    (f.free = ∅ ∧ frameAlloc f = (0, f)) ∨
      ∃ page, (frameAlloc f).1 = page * Pmm.pageSize ∧
        Grants R f (frameAlloc f).2 page := by
  obtain ⟨live, hown, hlive⟩ := h.owns
  rcases pmmAllocPages_cases hown hlive (show 0 < maxOrder by decide) with
    ⟨hcall, hnone⟩ | ⟨page, j, pmm, hcall, halloc⟩
  · left
    refine ⟨?_, by simp only [frameAlloc, hcall]⟩
    have hempty : freeBlocks f.pmm = ∅ := by
      refine Set.eq_empty_of_forall_notMem fun b hb => ?_
      exact notMem_freeBlocks_of_freeLists
        (hnone b.order (Nat.zero_le _) hb.1) hb
    rw [Frames.free, freePages, hempty, Set.biUnion_empty]
  · right
    have hresult : frameAlloc f = (page * Pmm.pageSize,
        { pmm := pmm, granted := page * Pmm.pageSize :: f.granted }) := by
      simp only [frameAlloc, hcall]
    have hfree : freePages pmm = freePages f.pmm \ {page} := by
      have hall := halloc.freePages_eq hown
      have hone : Set.Ico page (page + 1) = {page} := by
        ext x
        simp only [Set.mem_Ico, Set.mem_singleton_iff]
        omega
      rwa [pow_zero, hone] at hall
    have hmem : page ∈ f.free :=
      (halloc.isFreeRun hown).2 (by simp)
    have hpage := hR page (h.free_subset hmem)
    refine ⟨page, by rw [hresult], ?_, hmem, ?_, by rw [hresult]⟩
    · rw [hresult]
      refine ⟨⟨_, halloc.owns, halloc.liveMeta⟩, ?_⟩
      intro a ha
      rw [Frames.free, hfree]
      rcases List.mem_cons.mp ha with rfl | ha
      · refine ⟨dvd_mul_left _ _, ?_, ?_⟩
        · simp only [Pmm.pageSize]
          omega
        · rw [Nat.mul_div_cancel _ (by decide : 0 < Pmm.pageSize)]
          exact fun hmem => hmem.2 rfl
      · obtain ⟨hdvd, hne, hnot⟩ := h.granted a ha
        exact ⟨hdvd, hne, fun hmem => hnot hmem.1⟩
    · rw [hresult]
      exact hfree

end Spec

end BabOs.Mm
