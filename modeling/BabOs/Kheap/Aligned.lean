import BabOs.Kheap.FirstFit

/-!
# Aligned requests

`kmalloc_a` needs a hole whose padding is none or leaves room for a header.  An
expansion provides one, except behind a last hole with a smaller padding: the
expansion makes that hole larger, but does not move it.
-/

namespace BabOs.Kheap

open BabOs.Blocks BabOs.Chain

/-- `kmalloc_a` returns after at most one expansion, and the pointer is that of
a page, in a block carved out of a hole that was there or that the expansion
made. -/
def AlignedReturns {σ : Type*} (mapPage : σ → ℕ → σ) (size : ℕ)
    (s : State σ) : Prop :=
  ∃ n ptr s₁ s' u b v pre new post,
    Allocates mapPage size true n s ptr s' ∧
      ((n = 0 ∧ s₁ = s) ∨ (n = 1 ∧ ∃ fuel,
        expandHeap mapPage fuel (uint32 (expandSize size true))
          (s.noteSum (expandSize size true)) = some s₁)) ∧
      HeapOk s₁ (u ++ b :: v) ∧ Carved size s₁ s' u b v pre new post ∧
      ptr = new.addr + headerSize ∧ pageSize ∣ ptr

/-- The last block is used, or its padding is none or can be split off. -/
def LastAligns (bs : List Blk) : Prop :=
  ∀ b ∈ bs.getLast?, b.hole = true →
    padding true b.addr = 0 ∨ headerSize < padding true b.addr

section Aligned

variable {σ : Type*} {mapPage : σ → ℕ → σ} {s s₁ : State σ}
variable {b : Blk} {bs u v : List Blk} {size a : ℕ}

theorem dvd_add_padding (h : a + headerSize < 2 ^ 32) :
    pageSize ∣ a + padding true a + headerSize := by
  rw [padding_true h, pageSize]
  omega

/-- At the end of the heap, the padding can be split off. -/
theorem HeapOk.padding_heapEnd (h : HeapOk s bs)
    (hlt : s.heapEnd + headerSize < 2 ^ 32) :
    headerSize < padding true s.heapEnd := by
  obtain ⟨k, hk⟩ := h.aligned
  have hlo := h.nonempty
  rw [padding_true hlt]
  rw [pageSize] at hk ⊢
  rw [kheapStart] at hk hlo
  rw [headerSize]
  omega

theorem HeapOk.kmallocA_fit (h : HeapOk s (u ++ b :: v)) (hpos : 0 < size)
    (hsums : ∀ d ∈ u, d.hole = true → padding true d.addr + size < 2 ^ 32)
    (hfirst : ∀ d ∈ u, ¬Fits size true d) (hfits : Fits size true b)
    (mapPage : σ → ℕ → σ) :
    ∃ s' pre new post,
      Allocates mapPage size true 0 s (new.addr + headerSize) s' ∧
        pageSize ∣ new.addr + headerSize ∧
        Carved size s s' u b v pre new post := by
  have hsize := hfits.size_le
  have hend := h.spells.end_lt (b := b) (by simp)
  obtain ⟨s', pre, new, post, hcall, haddr, -, hcarved⟩ :=
    h.returns_fit hsums hfirst hfits (Or.inr (by omega)) mapPage
  refine ⟨s', pre, new, post, hcall, ?_, hcarved⟩
  rw [haddr]
  exact dvd_add_padding (by omega)

/-- An expansion makes a hole that fits, unless the last hole cannot be
aligned. -/
theorem HeapOk.kmallocA_expand (h : HeapOk s bs) (hpos : 0 < size)
    (hsums : SumsFit size true s bs) (hnone : ∀ b ∈ bs, ¬Fits size true b)
    (hlast : LastAligns bs) (mapPage : σ → ℕ → σ) :
    AlignedReturns mapPage size s := by
  have hlt := hsums.grown hnone
  obtain ⟨s₁, hexpand⟩ := h.exists_expandHeap hlt mapPage
  obtain ⟨u, b, rfl, hexpands, -⟩ := h.expandHeap_grown hlt hexpand
  obtain ⟨w, c, hgrow, hhole, hsize, hw, hcases⟩ := @grow_eq_concat headerSize
    s.heapEnd (growth size true) u b (headerSize_le_growth size true)
  have hok := hexpands.ok
  rw [hgrow] at hok
  have hend := hok.spells.end_lt (b := c) (by simp)
  have hsplittable : padding true c.addr = 0 ∨
      headerSize < padding true c.addr := by
    rcases hcases with ⟨hbhole, -, haddr⟩ | ⟨-, -, haddr⟩
    · rw [haddr]
      exact hlast b (by simp) hbhole
    · rw [haddr]
      exact Or.inr (h.padding_heapEnd (by omega))
  obtain ⟨hfits, -⟩ := fits_of_growth (by omega) hhole hsize hsplittable
  obtain ⟨s', pre, new, post, hcall, hdvd, hcarved⟩ := hok.kmallocA_fit hpos
    (fun d hd => hsums.padded d (hw d hd)) (fun d hd => hnone d (hw d hd))
    hfits mapPage
  have hreturns := (h.returns_expand_iff hsums.padded hnone).mpr
    ⟨0, _, s₁, rfl, hexpand, hcall.1⟩
  exact ⟨1, _, s₁, s', w, c, [], pre, new, post, hreturns.allocates,
    Or.inr ⟨rfl, _, hexpand⟩, hok, hcarved, rfl, hdvd⟩

/-- Behind a last hole that cannot be aligned, an expansion changes nothing. -/
theorem HeapOk.not_fits_grown (h : HeapOk s bs) (hsums : SumsFit size true s bs)
    (hnone : ∀ b ∈ bs, ¬Fits size true b) (hlast : ¬LastAligns bs) {fuel : ℕ}
    (hexpand : expandHeap mapPage fuel (uint32 (expandSize size true))
      (s.noteSum (expandSize size true)) = some s₁) :
    ∃ bs₁, HeapOk s₁ bs₁ ∧ (∀ b ∈ bs₁, ¬Fits size true b) ∧
      ∀ b ∈ bs₁, b.hole = true → padding true b.addr + size < 2 ^ 32 := by
  obtain ⟨u, b, rfl, hexpands, -⟩ :=
    h.expandHeap_grown (hsums.grown hnone) hexpand
  have hok := hexpands.ok
  have hstuck : b.hole = true ∧
      ¬(padding true b.addr = 0 ∨ headerSize < padding true b.addr) := by
    simpa [LastAligns] using hlast
  rw [grow, if_pos hstuck.1] at hok
  refine ⟨_, hok, fun d hd => ?_, fun d hd hhole => ?_⟩
  · rcases List.mem_append.mp hd with hd | hd
    · exact hnone d (List.mem_append_left _ hd)
    · obtain rfl := List.mem_singleton.mp hd
      exact fun hfits => hstuck.2 hfits.splittable
  · rcases List.mem_append.mp hd with hd | hd
    · exact hsums.padded d (List.mem_append_left _ hd) hhole
    · obtain rfl := List.mem_singleton.mp hd
      exact hsums.padded b (by simp) hstuck.1

theorem HeapOk.alignedReturns_iff (h : HeapOk s bs) (hpos : 0 < size)
    (hsums : SumsFit size true s bs) (mapPage : σ → ℕ → σ) :
    AlignedReturns mapPage size s ↔
      (∃ b ∈ bs, Fits size true b) ∨ LastAligns bs := by
  constructor
  · rintro ⟨n, ptr, s₂, s', u, b, v, pre, new, post, hcall, hn, -⟩
    by_contra hnot
    rw [not_or] at hnot
    have hnone : ∀ b ∈ bs, ¬Fits size true b :=
      fun b hb hfits => hnot.1 ⟨b, hb, hfits⟩
    obtain ⟨k, fuel, s₁, rfl, hexpand, hrest⟩ :=
      (h.returns_expand_iff hsums.padded hnone).mp hcall.1
    obtain ⟨bs₁, hok₁, hnone₁, hsums₁⟩ :=
      h.not_fits_grown hsums hnone hnot.2 hexpand
    obtain ⟨k', -, -, rfl, -⟩ := (hok₁.returns_expand_iff hsums₁ hnone₁).mp hrest
    omega
  · intro hcond
    by_cases hfits : ∃ b ∈ bs, Fits size true b
    · obtain ⟨u, b, v, rfl, hfit, hfirst⟩ := exists_first_fit hfits
      obtain ⟨s', pre, new, post, hcall, hdvd, hcarved⟩ := h.kmallocA_fit hpos
        (fun d hd => hsums.padded d (List.mem_append_left _ hd)) hfirst hfit
        mapPage
      exact ⟨0, _, s, s', u, b, v, pre, new, post, hcall, Or.inl ⟨rfl, rfl⟩, h,
        hcarved, rfl, hdvd⟩
    · exact h.kmallocA_expand hpos hsums (fun b hb hfit => hfits ⟨b, hb, hfit⟩)
        (hcond.resolve_left hfits) mapPage

end Aligned

/-- In every state of a run, `kmalloc_a` returns after at most one expansion if
and only if a hole fits, or the last block is used, or the padding of the last
hole is none or leaves room for a header. -/
theorem run_kmallocA_returns_iff {σ : Type*} {mapPage : σ → ℕ → σ}
    {s : State σ} {c : Config σ}
    (hrun : Run mapPage (fun _ => True) (boot mapPage s) c) :
    ∃ bs, HeapOk c.1 bs ∧ ∀ size, 0 < size → SumsFit size true c.1 bs →
      (AlignedReturns mapPage size c.1 ↔
        (∃ b ∈ bs, Fits size true b) ∨ LastAligns bs) := by
  obtain ⟨bs, h⟩ := serves_of_run hrun
  exact ⟨bs, h.ok,
    fun size hpos hsums => h.ok.alignedReturns_iff hpos hsums mapPage⟩

theorem run_kmallocA_returns_iff_boot :
    AlignedReturns noPages 100 (boot noPages blankState).1 := by
  obtain ⟨bs, hok, hiff⟩ := run_kmallocA_returns_iff
    (Relation.ReflTransGen.refl : Run noPages (fun _ => True)
      (boot noPages blankState) (boot noPages blankState))
  obtain rfl := hok.unique (heapOk_kheapInit noPages blankState)
  have hpadding : padding true kheapStart = 4076 := by
    rw [padding_true (by decide)]
    rfl
  apply (hiff 100 (by decide) ?_).mpr
  · refine Or.inr fun b hb _ => Or.inr ?_
    obtain rfl : ⟨kheapStart, _, true⟩ = b := Option.some.inj hb
    rw [hpadding]
    decide
  · constructor
    · rw [List.forall_mem_singleton, hpadding]
      decide
    · intro _
      decide

/-! ## A padding that is too small -/

/-- The heap after `kmalloc(4040)`. -/
def shortPadding : State Unit :=
  ((kmalloc noPages 2 4040 (kheapInit noPages blankState)).map Prod.snd).getD
    blankState

/-- The padding of the second block is `16`. -/
def shortPaddingBlocks : List Blk :=
  [⟨0xD0000000, 4040, false⟩, ⟨0xD0000FDC, 0xFF010, true⟩]

theorem run_shortPadding :
    Run noPages (fun _ => True) (boot noPages blankState)
      (shortPadding, Function.update (fun _ => none) 0xD0000014 (some 4040)) := by
  have hcall : kmalloc noPages 2 4040 (kheapInit noPages blankState) =
      some (0xD0000014, shortPadding) :=
    eq_some_of_map_fst (by decide +kernel)
  have hwrap : shortPadding.wrapped = false := by decide +kernel
  exact Relation.ReflTransGen.single
    ⟨.kmalloc 4040, trivial, Step.kmalloc (by decide) hcall hwrap⟩

theorem heapOk_shortPadding : HeapOk shortPadding shortPaddingBlocks := by
  have hend : shortPadding.heapEnd = 0xD0100000 := by decide +kernel
  refine ⟨by decide +kernel, ⟨⟨by decide +kernel, by decide +kernel, trivial⟩,
    ?_, ?_⟩, ?_, ?_, ?_⟩
  · rw [hend]
    exact ⟨rfl, rfl, rfl⟩
  · rw [hend]
    decide
  · rw [hend]
    decide
  · rw [hend]
    decide
  · simp [shortPaddingBlocks, NoAdjacentHoles]

theorem padding_shortPadding : padding true 0xD0000FDC = 16 := by
  rw [padding_true (by decide)]
  rfl

/-- After `kmalloc(4040)`, `kmalloc_a(100)` does not return after one
expansion. -/
theorem not_alignedReturns_shortPadding :
    ∃ c, Run noPages (fun _ => True) (boot noPages blankState) c ∧
      ∃ bs, HeapOk c.1 bs ∧ SumsFit 100 true c.1 bs ∧
        ¬AlignedReturns noPages 100 c.1 := by
  have hsums : SumsFit 100 true shortPadding shortPaddingBlocks := by
    constructor
    · simp [shortPaddingBlocks, padding_shortPadding]
    · intro _
      have hend : shortPadding.heapEnd = 0xD0100000 := by decide +kernel
      rw [hend]
      decide
  refine ⟨_, run_shortPadding, _, heapOk_shortPadding, hsums, fun hreturns => ?_⟩
  rw [heapOk_shortPadding.alignedReturns_iff (by decide) hsums] at hreturns
  rcases hreturns with ⟨b, hb, hfits⟩ | hlast
  · have hhole := hfits.hole
    have hsplittable := hfits.splittable
    simp only [shortPaddingBlocks, List.mem_cons, List.not_mem_nil, or_false] at hb
    rcases hb with rfl | rfl
    · cases hhole
    · rw [padding_shortPadding] at hsplittable
      revert hsplittable
      decide
  · have hpadding := hlast ⟨0xD0000FDC, 0xFF010, true⟩ rfl rfl
    rw [padding_shortPadding] at hpadding
    revert hpadding
    decide

end BabOs.Kheap
