import BabOs.Kheap.Runs

/-!
# First fit

A call of `kmalloc_internal` passes over the blocks that do not fit and carves
the first one that does; when none is left it expands the heap and starts
again.  A call is described by the number of its expansions.
-/

namespace BabOs.Kheap

open BabOs.Blocks BabOs.Chain

/-! ## Calls and their expansions -/

/-- `kmalloc_internal`, about to look at `curr`, returns `ptr` after `n`
expansions. -/
inductive Returns {σ : Type*} (mapPage : σ → ℕ → σ) (size : ℕ) (align : Bool) :
    (n curr : ℕ) → State σ → (ptr : ℕ) → State σ → Prop
  | take {curr ptr : ℕ} {s s' : State σ} (hcurr : curr ≠ 0)
      (htry : tryBlock size align curr s = (some ptr, s')) :
      Returns mapPage size align 0 curr s ptr s'
  | next {n curr ptr : ℕ} {s s₁ s' : State σ} (hcurr : curr ≠ 0)
      (htry : tryBlock size align curr s = (none, s₁))
      (hrest : Returns mapPage size align n (header s₁.mem curr).next s₁ ptr s') :
      Returns mapPage size align n curr s ptr s'
  | expand {n fuel ptr : ℕ} {s s₁ s' : State σ}
      (hexpand : expandHeap mapPage fuel (uint32 (expandSize size align))
        (s.noteSum (expandSize size align)) = some s₁)
      (hrest : Returns mapPage size align n s₁.heapStart s₁ ptr s') :
      Returns mapPage size align (n + 1) 0 s ptr s'

/-- A call returns `ptr` after `n` expansions, whenever it has fuel enough. -/
def Allocates {σ : Type*} (mapPage : σ → ℕ → σ) (size : ℕ) (align : Bool)
    (n : ℕ) (s : State σ) (ptr : ℕ) (s' : State σ) : Prop :=
  Returns mapPage size align n s.heapStart s ptr s' ∧
    ∃ bound, ∀ fuel, bound ≤ fuel →
      kmallocInternal mapPage fuel size align s = some (ptr, s')

section Calls

variable {σ : Type*} {mapPage : σ → ℕ → σ} {s s₁ s' : State σ}
variable {size n curr ptr fuel fuel' newSize : ℕ} {align : Bool}

theorem returns_iff : Returns mapPage size align n curr s ptr s' ↔
    (curr ≠ 0 ∧ n = 0 ∧ tryBlock size align curr s = (some ptr, s')) ∨
      (curr ≠ 0 ∧ ∃ s₁, tryBlock size align curr s = (none, s₁) ∧
        Returns mapPage size align n (header s₁.mem curr).next s₁ ptr s') ∨
      (curr = 0 ∧ ∃ k fuel s₁, n = k + 1 ∧
        expandHeap mapPage fuel (uint32 (expandSize size align))
          (s.noteSum (expandSize size align)) = some s₁ ∧
        Returns mapPage size align k s₁.heapStart s₁ ptr s') := by
  constructor
  · intro h
    cases h with
    | take hcurr htry => exact Or.inl ⟨hcurr, rfl, htry⟩
    | next hcurr htry hrest => exact Or.inr (Or.inl ⟨hcurr, _, htry, hrest⟩)
    | expand hexpand hrest =>
        exact Or.inr (Or.inr ⟨rfl, _, _, _, rfl, hexpand, hrest⟩)
  · rintro (⟨hcurr, rfl, htry⟩ | ⟨hcurr, s₁, htry, hrest⟩ |
      ⟨rfl, k, fuel, s₁, rfl, hexpand, hrest⟩)
    · exact Returns.take hcurr htry
    · exact Returns.next hcurr htry hrest
    · exact Returns.expand hexpand hrest

/-- Every call that returns has made some number of expansions. -/
theorem kmallocLoop_returns
    (h : kmallocLoop mapPage size align fuel curr s = some (ptr, s')) :
    ∃ n, Returns mapPage size align n curr s ptr s' := by
  induction fuel generalizing curr s with
  | zero => cases h
  | succ fuel ih =>
      rw [kmallocLoop] at h
      split_ifs at h with hzero
      · subst hzero
        dsimp only at h
        split at h
        · cases h
        next hexpand =>
          obtain ⟨n, hrest⟩ := ih h
          exact ⟨n + 1, Returns.expand hexpand hrest⟩
      · split at h
        next htry =>
          cases h
          exact ⟨0, Returns.take hzero htry⟩
        next htry =>
          obtain ⟨n, hrest⟩ := ih h
          exact ⟨n, Returns.next hzero htry hrest⟩

theorem expandBy_mono (h : expandBy mapPage fuel newSize s = some s')
    (hle : fuel ≤ fuel') : expandBy mapPage fuel' newSize s = some s' := by
  simp only [expandBy] at h ⊢
  split at h
  · cases h
  next last hlast =>
    rw [lastFrom_mono hlast hle]
    exact h

theorem expandHeap_mono (h : expandHeap mapPage fuel newSize s = some s')
    (hle : fuel ≤ fuel') : expandHeap mapPage fuel' newSize s = some s' := by
  rw [expandHeap] at h ⊢
  split_ifs at h ⊢
  · exact expandBy_mono h hle
  · exact expandBy_mono h hle

/-- A call that returns does so with any fuel from some bound on. -/
theorem Returns.kmallocLoop_eq
    (h : Returns mapPage size align n curr s ptr s') :
    ∃ bound, ∀ fuel, bound ≤ fuel →
      kmallocLoop mapPage size align fuel curr s = some (ptr, s') := by
  induction h with
  | take hcurr htry =>
      refine ⟨1, fun fuel hfuel => ?_⟩
      obtain ⟨k, rfl⟩ := Nat.exists_eq_add_of_le' hfuel
      rw [kmallocLoop, if_neg hcurr, htry]
  | next hcurr htry _ ih =>
      obtain ⟨bound, hbound⟩ := ih
      refine ⟨bound + 1, fun fuel hfuel => ?_⟩
      obtain ⟨k, rfl⟩ := Nat.exists_eq_add_of_le' hfuel
      rw [← Nat.add_assoc, kmallocLoop, if_neg hcurr, htry]
      exact hbound _ (Nat.le_add_left bound k)
  | @expand n fuel₀ ptr s s₁ s' hexpand _ ih =>
      obtain ⟨bound, hbound⟩ := ih
      refine ⟨max fuel₀ bound + 1, fun fuel hfuel => ?_⟩
      obtain ⟨k, rfl⟩ := Nat.exists_eq_add_of_le' hfuel
      rw [← Nat.add_assoc, kmallocLoop, if_pos rfl]
      dsimp only
      rw [expandHeap_mono hexpand (by omega)]
      exact hbound _ (by omega)

theorem Returns.allocates
    (h : Returns mapPage size align n s.heapStart s ptr s') :
    Allocates mapPage size align n s ptr s' :=
  ⟨h, h.kmallocLoop_eq⟩

theorem Allocates.unique {n' ptr' : ℕ} {s'' : State σ}
    (h : Allocates mapPage size align n s ptr s')
    (h' : Allocates mapPage size align n' s ptr' s'') :
    ptr = ptr' ∧ s' = s'' := by
  obtain ⟨-, bound, hbound⟩ := h
  obtain ⟨-, bound', hbound'⟩ := h'
  have heq := (hbound _ (le_max_left bound bound')).symm.trans
    (hbound' _ (le_max_right bound bound'))
  exact Prod.mk.inj (Option.some.inj heq)

end Calls

/-! ## Sums -/

/-- The bytes that an expansion for the request adds. -/
def growth (size : ℕ) (align : Bool) : ℕ :=
  (expandSize size align + (pageSize - 1)) / pageSize * pageSize

/-- No sum of a call wraps: not those for the holes that it looks at, nor, when
none of them fits, those of its expansion. -/
structure SumsFit {σ : Type*} (size : ℕ) (align : Bool) (s : State σ)
    (bs : List Blk) : Prop where
  padded : ∀ b ∈ bs, b.hole = true → padding align b.addr + size < 2 ^ 32
  grown : (∀ b ∈ bs, ¬Fits size align b) →
    s.heapEnd + growth size align < 2 ^ 32

section Sums

variable {σ : Type*} {mapPage : σ → ℕ → σ} {s s' : State σ} {bs : List Blk}
variable {size fuel newSize : ℕ} {align : Bool}

theorem growth_dvd (size : ℕ) (align : Bool) : pageSize ∣ growth size align :=
  dvd_mul_left _ _

theorem expandSize_le_growth (size : ℕ) (align : Bool) :
    expandSize size align ≤ growth size align := by
  rw [growth, pageSize]
  omega

theorem headerSize_le_growth (size : ℕ) (align : Bool) :
    headerSize ≤ growth size align :=
  (Nat.le_add_left _ _).trans (expandSize_le_growth size align)

theorem growth_pos (size : ℕ) (align : Bool) : 0 < growth size align :=
  Nat.lt_of_lt_of_le (by decide) (headerSize_le_growth size align)

theorem pageSize_le_growth (size : ℕ) (align : Bool) :
    pageSize ≤ growth size align :=
  Nat.le_of_dvd (growth_pos size align) (growth_dvd size align)

/-- An expansion whose sums do not wrap adds the rounded size. -/
theorem expandHeap_eq_expandBy (hlt : growth size align < 2 ^ 32) :
    expandHeap mapPage fuel (uint32 (expandSize size align))
        (s.noteSum (expandSize size align)) =
      expandBy mapPage fuel (growth size align) s := by
  have hle := expandSize_le_growth size align
  rw [uint32_eq_of_lt (by omega), noteSum_eq (by omega), expandHeap]
  have hgrowth : growth size align =
      (expandSize size align + (pageSize - 1)) / pageSize * pageSize := rfl
  generalize expandSize size align = newSize at hle hgrowth ⊢
  rw [pageSize] at hgrowth ⊢
  split_ifs with hmod
  · have hrounded : (newSize / 4096 + 1) * 4096 = growth size align := by omega
    dsimp only
    rw [hrounded, uint32_eq_of_lt hlt, noteSum_eq hlt]
  · have hexact : newSize = growth size align := by omega
    rw [hexact]

theorem HeapOk.exists_expandBy (h : HeapOk s bs) (mapPage : σ → ℕ → σ)
    (n : ℕ) : ∃ s', expandBy mapPage bs.length n s = some s' := by
  obtain ⟨last, hlast⟩ := h.isDList.chain.exists_lastFrom
  rw [List.length_map] at hlast
  have hwalk : lastFrom (links (s.noteSum (s.heapEnd + n)).mem).next bs.length
      (s.noteSum (s.heapEnd + n)).heapStart = some last := hlast
  cases hcall : expandBy mapPage bs.length n s with
  | none =>
      simp only [expandBy, hwalk] at hcall
      cases hcall
  | some s' => exact ⟨s', rfl⟩

end Sums

/-! ## Passes over the chain -/

section Passes

variable {σ : Type*} {mapPage : σ → ℕ → σ} {s s₁ s' : State σ}
variable {b : Blk} {bs u v w : List Blk} {size n ptr fuel : ℕ} {align : Bool}

theorem HeapOk.headAddr_eq (h : HeapOk s bs) : headAddr bs 0 = s.heapStart := by
  cases bs with
  | nil => exact absurd h.spells.tiled h.nonempty.ne
  | cons b bs => rw [h.start, headAddr_cons, h.spells.tiled.1]

theorem HeapOk.returns_skip (h : HeapOk s (u ++ (w ++ v)))
    (hsums : ∀ b ∈ w, b.hole = true → padding align b.addr + size < 2 ^ 32)
    (hfits : ∀ b ∈ w, ¬Fits size align b) :
    Returns mapPage size align n (headAddr (w ++ v) 0) s ptr s' ↔
      Returns mapPage size align n (headAddr v 0) s ptr s' := by
  induction w generalizing u with
  | nil => rfl
  | cons b w ih =>
      rw [List.forall_mem_cons] at hsums hfits
      have htry := tryBlock_of_not_fits h.spells.header_eq hsums.1 hfits.1
      have hrest := @ih (u ++ [b]) (by simpa using h) hsums.2 hfits.2
      have hnext : (header s.mem b.addr).next = headAddr (w ++ v) 0 := by
        rw [h.spells.header_eq]
        rfl
      have hpos := (h.spells.addr_pos (b := b) (by simp)).ne'
      rw [List.cons_append, headAddr_cons, ← hrest, returns_iff, htry]
      simp [hpos, hnext]

theorem HeapOk.returns_fit (h : HeapOk s (u ++ b :: v))
    (hsums : ∀ d ∈ u, d.hole = true → padding align d.addr + size < 2 ^ 32)
    (hfirst : ∀ d ∈ u, ¬Fits size align d) (hfits : Fits size align b)
    (hcut : padding align b.addr = 0 ∨ padding align b.addr < b.size)
    (mapPage : σ → ℕ → σ) :
    ∃ s' pre new post,
      Allocates mapPage size align 0 s (new.addr + headerSize) s' ∧
        new.addr = b.addr + padding align b.addr ∧
        (padding align b.addr = 0 → pre = none) ∧
        Carved size s s' u b v pre new post := by
  obtain ⟨s', pre, new, post, htry, haddr, hpre, hcarved⟩ :=
    tryBlock_of_fits h hfits hcut
  have hpos := (h.spells.addr_pos (b := b) (by simp)).ne'
  have hreturns : Returns mapPage size align 0 s.heapStart s
      (new.addr + headerSize) s' := by
    rw [← h.headAddr_eq]
    exact (HeapOk.returns_skip (u := []) h hsums hfirst).mpr
      (Returns.take hpos htry)
  exact ⟨s', pre, new, post, hreturns.allocates, haddr, hpre, hcarved⟩

theorem HeapOk.returns_expand_iff (h : HeapOk s bs)
    (hsums : ∀ b ∈ bs, b.hole = true → padding align b.addr + size < 2 ^ 32)
    (hnone : ∀ b ∈ bs, ¬Fits size align b) :
    Returns mapPage size align n s.heapStart s ptr s' ↔
      ∃ k fuel s₁, n = k + 1 ∧
        expandHeap mapPage fuel (uint32 (expandSize size align))
          (s.noteSum (expandSize size align)) = some s₁ ∧
        Returns mapPage size align k s₁.heapStart s₁ ptr s' := by
  have hpass := @HeapOk.returns_skip _ mapPage s s' [] [] bs size n ptr align
    (by simpa using h) hsums hnone
  rw [List.append_nil, h.headAddr_eq] at hpass
  rw [hpass, headAddr_nil, returns_iff]
  simp

theorem HeapOk.expandHeap_grown (h : HeapOk s bs)
    (hlt : s.heapEnd + growth size align < 2 ^ 32)
    (hcall : expandHeap mapPage fuel (uint32 (expandSize size align))
      (s.noteSum (expandSize size align)) = some s₁) :
    ∃ u b, bs = u ++ [b] ∧
      Expands s s₁ bs (u ++ grow headerSize s.heapEnd (growth size align) b) ∧
      s₁.heapEnd = s.heapEnd + growth size align := by
  rw [expandHeap_eq_expandBy (by omega)] at hcall
  obtain ⟨u, b, rfl, hok, hend, hwrites⟩ := expandBy_grown h
    (growth_dvd size align) (growth_pos size align) hlt hcall
  exact ⟨u, b, rfl, ⟨hok, used_grow, by omega, hwrites⟩, hend⟩

theorem HeapOk.exists_expandHeap (h : HeapOk s bs)
    (hlt : s.heapEnd + growth size align < 2 ^ 32) (mapPage : σ → ℕ → σ) :
    ∃ s₁, expandHeap mapPage bs.length (uint32 (expandSize size align))
      (s.noteSum (expandSize size align)) = some s₁ := by
  rw [expandHeap_eq_expandBy (by omega)]
  exact h.exists_expandBy mapPage _

/-- An expansion makes room for the request, if the padding can be split off. -/
theorem fits_of_growth (hlt : b.addr + headerSize < 2 ^ 32)
    (hhole : b.hole = true) (hsize : growth size align ≤ b.size + headerSize)
    (hsplittable : padding align b.addr = 0 ∨
      headerSize < padding align b.addr) :
    Fits size align b ∧
      (padding align b.addr = 0 ∨ padding align b.addr < b.size) := by
  have hgrowth := expandSize_le_growth size align
  rw [expandSize] at hgrowth
  cases align with
  | false =>
      have hpadding := padding_false b.addr
      refine ⟨⟨hhole, ?_, hsplittable⟩, Or.inl hpadding⟩
      rw [hpadding]
      omega
  | true =>
      have hpadding := padding_lt hlt
      rw [if_pos rfl] at hgrowth
      exact ⟨⟨hhole, by omega, hsplittable⟩, Or.inr (by omega)⟩

theorem exists_first_fit (hfits : ∃ b ∈ bs, Fits size align b) :
    ∃ u b v, bs = u ++ b :: v ∧ Fits size align b ∧
      ∀ d ∈ u, ¬Fits size align d := by
  classical
  have hsome : (bs.find? fun b => decide (Fits size align b)).isSome := by
    rw [List.find?_isSome]
    simpa using hfits
  obtain ⟨b, hb⟩ := Option.isSome_iff_exists.mp hsome
  obtain ⟨hfit, u, v, rfl, hu⟩ := List.find?_eq_some_iff_append.mp hb
  refine ⟨u, b, v, rfl, by simpa using hfit, fun d hd => ?_⟩
  simpa using hu d hd

end Passes

/-! ## Unaligned requests -/

/-- What `kmalloc` does with a request: it carves the first hole that is large
enough, or expands the heap once and carves the hole at its end. -/
structure FirstFit {σ : Type*} (mapPage : σ → ℕ → σ) (size : ℕ) (s : State σ)
    (bs : List Blk) : Prop where
  fit : ∀ u b v, bs = u ++ b :: v → b.hole = true → size ≤ b.size →
    (∀ d ∈ u, d.hole = true → d.size < size) →
      ∃ s' new post,
        Allocates mapPage size false 0 s (b.addr + headerSize) s' ∧
          new.addr = b.addr ∧ Carved size s s' u b v none new post
  expanded : (∀ b ∈ bs, b.hole = true → b.size < size) →
    ∃ fuel s₁ u b s' new post,
      expandHeap mapPage fuel (uint32 (expandSize size false))
          (s.noteSum (expandSize size false)) = some s₁ ∧
        HeapOk s₁ (u ++ [b]) ∧
        (bs = u ∨ ∃ d, bs = u ++ [d] ∧ d.hole = true ∧ d.addr = b.addr) ∧
        Allocates mapPage size false 1 s (b.addr + headerSize) s' ∧
        new.addr = b.addr ∧ Carved size s₁ s' u b [] none new post

section Unaligned

variable {σ : Type*} {mapPage : σ → ℕ → σ} {s s₁ : State σ}
variable {b : Blk} {bs u v : List Blk} {size : ℕ}

theorem fits_false_iff :
    Fits size false b ↔ b.hole = true ∧ size ≤ b.size := by
  constructor
  · rintro ⟨hhole, hsize, -⟩
    rw [padding_false, zero_add] at hsize
    exact ⟨hhole, hsize⟩
  · rintro ⟨hhole, hsize⟩
    refine ⟨hhole, ?_, Or.inl (padding_false _)⟩
    rwa [padding_false, zero_add]

theorem not_fits_false_iff :
    ¬Fits size false b ↔ (b.hole = true → b.size < size) := by
  rw [fits_false_iff, not_and, not_le]

/-- The first hole that is large enough is carved from its start. -/
theorem HeapOk.kmalloc_fit (h : HeapOk s (u ++ b :: v))
    (hsums : ∀ d ∈ u, d.hole = true → padding false d.addr + size < 2 ^ 32)
    (hfirst : ∀ d ∈ u, ¬Fits size false d) (hfits : Fits size false b)
    (mapPage : σ → ℕ → σ) :
    ∃ s' new post,
      Allocates mapPage size false 0 s (b.addr + headerSize) s' ∧
        new.addr = b.addr ∧ Carved size s s' u b v none new post := by
  have hpadding := padding_false b.addr
  obtain ⟨s', pre, new, post, hcall, haddr, hpre, hcarved⟩ :=
    h.returns_fit hsums hfirst hfits (Or.inl hpadding) mapPage
  obtain rfl := hpre hpadding
  rw [hpadding, add_zero] at haddr
  rw [haddr] at hcall
  exact ⟨s', new, post, hcall, haddr, hcarved⟩

theorem HeapOk.firstFit (h : HeapOk s bs) (hsums : SumsFit size false s bs)
    (mapPage : σ → ℕ → σ) : FirstFit mapPage size s bs := by
  constructor
  · rintro u b v rfl hhole hsize hfirst
    exact h.kmalloc_fit
      (fun d hd => hsums.padded d (List.mem_append_left _ hd))
      (fun d hd => not_fits_false_iff.mpr (hfirst d hd))
      (fits_false_iff.mpr ⟨hhole, hsize⟩) mapPage
  · intro hsmall
    have hnone : ∀ b ∈ bs, ¬Fits size false b :=
      fun b hb => not_fits_false_iff.mpr (hsmall b hb)
    have hlt := hsums.grown hnone
    obtain ⟨s₁, hexpand⟩ := h.exists_expandHeap hlt mapPage
    obtain ⟨u, b, rfl, hexpands, -⟩ := h.expandHeap_grown hlt hexpand
    obtain ⟨w, c, hgrow, hhole, hsize, hw, hlast⟩ := @grow_eq_concat headerSize
      s.heapEnd (growth size false) u b (headerSize_le_growth size false)
    have hok := hexpands.ok
    rw [hgrow] at hok
    have hend := hok.spells.end_lt (b := c) (by simp)
    obtain ⟨hfits, -⟩ :=
      fits_of_growth (by omega) hhole hsize (Or.inl (padding_false c.addr))
    obtain ⟨s', new, post, hcall, haddr, hcarved⟩ := hok.kmalloc_fit
      (fun d hd => hsums.padded d (hw d hd)) (fun d hd => hnone d (hw d hd))
      hfits mapPage
    have hreturns := (h.returns_expand_iff hsums.padded hnone).mpr
      ⟨0, _, s₁, rfl, hexpand, hcall.1⟩
    refine ⟨_, s₁, w, c, s', new, post, hexpand, hok, ?_, hreturns.allocates,
      haddr, hcarved⟩
    rcases hlast with ⟨hbhole, rfl, hc⟩ | ⟨-, rfl, -⟩
    · exact Or.inr ⟨b, rfl, hbhole, hc.symm⟩
    · exact Or.inl rfl

end Unaligned

/-- In every state of a run, `kmalloc` is first fit and expands the heap at most
once. -/
theorem run_kmalloc_firstFit {σ : Type*} {mapPage : σ → ℕ → σ} {s : State σ}
    {c : Config σ} (hrun : Run mapPage (fun _ => True) (boot mapPage s) c) :
    ∃ bs, HeapOk c.1 bs ∧ ∀ size, 0 < size → SumsFit size false c.1 bs →
      FirstFit mapPage size c.1 bs := by
  obtain ⟨bs, h⟩ := serves_of_run hrun
  exact ⟨bs, h.ok, fun size _ hsums => h.ok.firstFit hsums mapPage⟩

theorem run_kmalloc_firstFit_boot :
    FirstFit noPages 100 (boot noPages blankState).1
      [⟨kheapStart, kheapInitialSize - headerSize, true⟩] := by
  obtain ⟨bs, hok, hfirst⟩ := run_kmalloc_firstFit
    (Relation.ReflTransGen.refl : Run noPages (fun _ => True)
      (boot noPages blankState) (boot noPages blankState))
  obtain rfl := hok.unique (heapOk_kheapInit noPages blankState)
  apply hfirst 100 (by decide)
  constructor
  · rw [List.forall_mem_singleton, padding_false]
    decide
  · intro _
    decide

end BabOs.Kheap
