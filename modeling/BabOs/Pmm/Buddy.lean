import BabOs.Pmm.FreeLists

/-!
# The buddy operations

`Owns s busy R` says that the free blocks of `s` and the blocks of `busy`
together tile the page set `R`.  The busy blocks are the live ones and, inside
an operation, the block in hand.  Handing a block back, taking one off a list,
splitting the block in hand and joining it with its buddy all keep `Owns`, and
the three operations of the allocator are built from these moves.
-/

namespace BabOs.Pmm

open BabOs.Chain BabOs.Dyadic

structure Owns (s : State) (busy : Set Block) (R : Set ℕ) : Prop where
  lists : FreeListsOk s
  separate : Disjoint (freeBlocks s) busy
  tiles : Tiles (freeBlocks s ∪ busy) R
  order_lt : ∀ b ∈ busy, b.order < maxOrder
  inside : ∀ x ∈ R, x < s.totalPages
  outside : ∀ x < s.totalPages, x ∉ R → (s.pages x).flags = 1

/-- The head pages of the live blocks are marked as used and carry the order
the block was allocated with. -/
def LiveMeta (s : State) (live : Set Block) : Prop :=
  ∀ b ∈ live, (s.pages b.start).flags = 1 ∧ (s.pages b.start).order = b.order

section Moves

variable {s : State} {busy live : Set Block} {R : Set ℕ} {b : Block}

theorem Owns.start_mem (h : Owns s busy R) (hb : b ∈ freeBlocks s ∪ busy) :
    b.start ∈ R :=
  h.tiles.pages_subset hb Block.start_mem_pages

theorem Owns.eq_of_start_eq (h : Owns s busy R) {c : Block}
    (hb : b ∈ freeBlocks s ∪ busy) (hc : c ∈ freeBlocks s ∪ busy)
    (hstart : b.start = c.start) : b = c :=
  h.tiles.eq_of_mem hb hc Block.start_mem_pages
    (hstart ▸ Block.start_mem_pages)

theorem Owns.ne_of_free_of_busy (h : Owns s busy R) {c : Block}
    (hb : b ∈ freeBlocks s) (hc : c ∈ busy) : b.start ≠ c.start := by
  intro hstart
  have heq := h.eq_of_start_eq (Or.inl hb) (Or.inr hc) hstart
  exact Set.disjoint_left.mp h.separate hb (heq ▸ hc)

/-- A block outside the tiled pages is handed over to the allocator. -/
theorem Owns.add (h : Owns s busy R) (hb : b.Aligned)
    (horder : b.order < maxOrder) (hdisjoint : Disjoint b.pages R)
    (hinside : ∀ x ∈ b.pages, x < s.totalPages) :
    Owns (addFreeBlock s b.start b.order) busy (b.pages ∪ R) ∧
      freeBlocks (addFreeBlock s b.start b.order) =
        insert b (freeBlocks s) := by
  have hnot : b.start ∉ R :=
    Set.disjoint_left.mp hdisjoint Block.start_mem_pages
  have hnode : ∀ c ∈ freeBlocks s, c.start ≠ b.start := by
    intro c hc heq
    exact hnot (heq ▸ h.start_mem (Or.inl hc))
  obtain ⟨hlists, hfree⟩ := h.lists.addFreeBlock horder hnode
  refine ⟨⟨hlists, ?_, ?_, h.order_lt, ?_, ?_⟩, hfree⟩
  · rw [hfree, Set.disjoint_insert_left]
    exact ⟨fun hb => hnot (h.start_mem (Or.inr hb)), h.separate⟩
  · rw [hfree, Set.insert_union]
    exact h.tiles.insert hb hdisjoint
  · rintro x (hx | hx)
    · simpa [addFreeBlock] using hinside x hx
    · simpa [addFreeBlock] using h.inside x hx
  · intro x hx hxR
    have hxb : x ≠ b.start := by
      rintro rfl
      exact hxR (Or.inl Block.start_mem_pages)
    simp only [addFreeBlock, totalPages_listAdd, totalPages_setMeta] at hx
    simp only [addFreeBlock, flags_listAdd, flags_setMeta, if_neg hxb]
    exact h.outside x hx fun hx' => hxR (Or.inr hx')

theorem Owns.give (h : Owns s busy R) (hb : b ∈ busy) :
    Owns (addFreeBlock s b.start b.order) (busy \ {b}) R ∧
      freeBlocks (addFreeBlock s b.start b.order) =
        insert b (freeBlocks s) := by
  have hnode : ∀ c ∈ freeBlocks s, c.start ≠ b.start :=
    fun c hc => h.ne_of_free_of_busy hc hb
  obtain ⟨hlists, hfree⟩ := h.lists.addFreeBlock (h.order_lt b hb) hnode
  refine ⟨⟨hlists, ?_, ?_, ?_, ?_, ?_⟩, hfree⟩
  · rw [hfree, Set.disjoint_insert_left]
    exact ⟨fun hb' => hb'.2 rfl, h.separate.mono_right Set.sdiff_subset⟩
  · have hunion : insert b (freeBlocks s) ∪ (busy \ {b}) =
        freeBlocks s ∪ busy := by
      ext c
      simp only [Set.mem_union, Set.mem_insert_iff, Set.mem_sdiff,
        Set.mem_singleton_iff]
      constructor
      · rintro ((rfl | hc) | ⟨hc, -⟩)
        · exact Or.inr hb
        · exact Or.inl hc
        · exact Or.inr hc
      · rintro (hc | hc)
        · exact Or.inl (Or.inr hc)
        · by_cases heq : c = b
          · exact Or.inl (Or.inl heq)
          · exact Or.inr ⟨hc, heq⟩
    rw [hfree, hunion]
    exact h.tiles
  · exact fun c hc => h.order_lt c hc.1
  · simpa [addFreeBlock] using h.inside
  · intro x hx hxR
    have hxb : x ≠ b.start := by
      rintro rfl
      exact hxR (h.start_mem (Or.inr hb))
    simp only [addFreeBlock, totalPages_listAdd, totalPages_setMeta] at hx
    simp only [addFreeBlock, flags_listAdd, flags_setMeta, if_neg hxb]
    exact h.outside x hx hxR

theorem Owns.take (h : Owns s busy R) (hb : b ∈ freeBlocks s) :
    Owns (listRemove s b.order b.start) (insert b busy) R ∧
      freeBlocks (listRemove s b.order b.start) = freeBlocks s \ {b} := by
  obtain ⟨hlists, hfree⟩ := h.lists.listRemove hb
  refine ⟨⟨hlists, ?_, ?_, ?_, ?_, ?_⟩, hfree⟩
  · rw [hfree, Set.disjoint_insert_right]
    exact ⟨fun hb' => hb'.2 rfl, h.separate.mono_left Set.sdiff_subset⟩
  · have hunion : freeBlocks s \ {b} ∪ insert b busy =
        freeBlocks s ∪ busy := by
      rw [Set.union_insert, ← Set.insert_union, Set.insert_sdiff_singleton,
        Set.insert_eq_of_mem hb]
    rw [hfree, hunion]
    exact h.tiles
  · rintro c (rfl | hc)
    · exact hb.1
    · exact h.order_lt c hc
  · simpa using h.inside
  · intro x hx hxR
    rw [flags_listRemove]
    exact h.outside x (by simpa using hx) hxR

theorem Owns.notMem_of_meets (h : Owns s (insert b live) R) {c : Block}
    {x : ℕ} (hxb : x ∈ b.pages) (hxc : x ∈ c.pages) (hne : c ≠ b) :
    c ∉ freeBlocks s ∧ c ∉ live := by
  have hb : b ∈ freeBlocks s ∪ insert b live := Or.inr (Or.inl rfl)
  constructor
  · intro hc
    exact hne (h.tiles.eq_of_mem (Or.inl hc) hb hxc hxb)
  · intro hc
    exact hne (h.tiles.eq_of_mem (Or.inr (Or.inr hc)) hb hxc hxb)

theorem Owns.hand_notMem_freeBlocks (h : Owns s (insert b live) R) :
    b ∉ freeBlocks s :=
  fun hb => Set.disjoint_left.mp h.separate hb (Or.inl rfl)

theorem union_insert_sdiff (hfree : b ∉ freeBlocks s) (hlive : b ∉ live) :
    (freeBlocks s ∪ insert b live) \ {b} = freeBlocks s ∪ live := by
  rw [Set.union_insert, Set.insert_sdiff_self_of_notMem]
  rintro (hb | hb)
  · exact hfree hb
  · exact hlive hb

theorem Owns.split (h : Owns s (insert b.parent live) R)
    (hb : b.Aligned) (hlive : b.parent ∉ live) :
    Owns s (insert b (insert b.buddy live)) R ∧
      b ∉ live ∧ b.buddy ∉ live ∧ b ≠ b.buddy := by
  have htiles := h.tiles.split hb (Or.inr (Or.inl rfl))
  rw [union_insert_sdiff h.hand_notMem_freeBlocks hlive,
    ← Set.union_insert, ← Set.union_insert] at htiles
  have horder : b.order + 1 < maxOrder := h.order_lt b.parent (Or.inl rfl)
  have hparent := hb.pages_parent
  have hlow : b ∉ freeBlocks s ∧ b ∉ live := by
    refine h.notMem_of_meets (x := b.start) ?_ Block.start_mem_pages ?_
    · exact hparent ▸ Or.inl Block.start_mem_pages
    · exact fun heq => Nat.succ_ne_self _ (congrArg Block.order heq).symm
  have hhigh : b.buddy ∉ freeBlocks s ∧ b.buddy ∉ live := by
    refine h.notMem_of_meets (x := b.buddy.start) ?_ Block.start_mem_pages ?_
    · exact hparent ▸ Or.inr Block.start_mem_pages
    · exact fun heq => Nat.succ_ne_self _ (congrArg Block.order heq).symm
  have hne : b ≠ b.buddy := by
    intro heq
    refine Set.disjoint_left.mp hb.disjoint_buddy Block.start_mem_pages ?_
    rw [← heq]
    exact Block.start_mem_pages
  refine ⟨⟨h.lists, ?_, htiles, ?_, h.inside, h.outside⟩,
    hlow.2, hhigh.2, hne⟩
  · rw [Set.disjoint_insert_right, Set.disjoint_insert_right]
    exact ⟨hlow.1, hhigh.1,
      h.separate.mono_right (Set.subset_insert _ _)⟩
  · rintro c (rfl | rfl | hc)
    · exact (Nat.lt_succ_self _).trans horder
    · exact (Nat.lt_succ_self _).trans horder
    · exact h.order_lt c (Or.inr hc)

/-- The block in hand and its buddy, both off the lists, become one block. -/
theorem Owns.join (h : Owns s (insert b.buddy (insert b live)) R)
    (hb : b ∉ live) (hbuddy : b.buddy ∉ live)
    (horder : b.order + 1 < maxOrder) :
    Owns s (insert b.parent live) R ∧ b.parent ∉ live := by
  have halign : b.Aligned := h.tiles.aligned b (Or.inr (Or.inr (Or.inl rfl)))
  have hbfree : b ∉ freeBlocks s := fun hfree =>
    Set.disjoint_left.mp h.separate hfree (Or.inr (Or.inl rfl))
  have hne : b.buddy ≠ b := by
    intro heq
    refine Set.disjoint_left.mp halign.disjoint_buddy
      Block.start_mem_pages ?_
    rw [heq]
    exact Block.start_mem_pages
  have hnot : b.parent ∉ freeBlocks s ∧ b.parent ∉ insert b live := by
    refine h.notMem_of_meets Block.start_mem_pages ?_ ?_
    · exact halign.pages_parent ▸ Or.inr Block.start_mem_pages
    · exact fun heq => Nat.succ_ne_self _ (congrArg Block.order heq)
  have htiles := h.tiles.merge (b := b) (Or.inr (Or.inr (Or.inl rfl)))
    (Or.inr (Or.inl rfl))
  have hlive : b ∉ insert b.buddy live := by
    rintro (heq | hmem)
    · exact hne heq.symm
    · exact hb hmem
  rw [Set.insert_comm, union_insert_sdiff hbfree hlive,
    union_insert_sdiff h.hand_notMem_freeBlocks hbuddy,
    ← Set.union_insert] at htiles
  refine ⟨⟨h.lists, ?_, htiles, ?_, h.inside, h.outside⟩,
    fun hmem => hnot.2 (Or.inr hmem)⟩
  · rw [Set.disjoint_insert_right]
    refine ⟨hnot.1, h.separate.mono_right ?_⟩
    exact (Set.subset_insert _ _).trans (Set.subset_insert _ _)
  · rintro c (rfl | hc)
    · exact horder
    · exact h.order_lt c (Or.inr (Or.inr hc))

/-- The test of the merge loop recognises the free buddy of the block in hand:
the entry it reads is never a stale one. -/
theorem Owns.buddy_free_iff (h : Owns s (insert b live) R)
    (hlive : LiveMeta s live) :
    ¬(s.totalPages ≤ b.buddy.start ∨
        (s.pages b.buddy.start).flags = 1 ∨
        (s.pages b.buddy.start).order ≠ b.order) ↔
      b.buddy ∈ freeBlocks s := by
  have hb : b ∈ freeBlocks s ∪ insert b live := Or.inr (Or.inl rfl)
  constructor
  · intro htest
    push Not at htest
    obtain ⟨hlt, hflags, horder⟩ := htest
    have hR : b.buddy.start ∈ R := by
      by_contra hR
      exact hflags (h.outside _ hlt hR)
    obtain ⟨c, hc, hx⟩ := h.tiles.mem_iff.mp hR
    obtain ⟨hstart, -⟩ := h.tiles.start_eq_of_mem_buddy hb hc hx
    rcases hc with hc | rfl | hc
    · have hcorder := h.lists.order c hc
      rw [hstart, horder] at hcorder
      have heq : c = b.buddy := by
        cases c
        simp_all [Block.buddy]
      exact heq ▸ hc
    · refine absurd hx ?_
      exact Set.disjoint_right.mp
        (h.tiles.aligned c hb).disjoint_buddy Block.start_mem_pages
    · exact absurd (hstart ▸ (hlive c hc).1) hflags
  · intro hfree
    have hflags := h.lists.flags _ hfree
    have horder := h.lists.order _ hfree
    have hlt := h.inside _ (h.start_mem (Or.inl hfree))
    rw [hflags, horder]
    simp [Block.buddy_order, hlt]

end Moves

/-! ## Allocation -/

section Alloc

variable {s : State} {live : Set Block} {R : Set ℕ} {page order i : ℕ}

/-- The halves split off on the way from order `i` down to `order`. -/
def splitOff (page order i : ℕ) : Set Block :=
  {b | ∃ j, order ≤ j ∧ j < i ∧ b = ⟨page + 2 ^ j, j⟩}

theorem splitOff_succ (h : order < i + 1) :
    splitOff page order (i + 1) =
      insert ⟨page + 2 ^ i, i⟩ (splitOff page order i) := by
  ext b
  simp only [splitOff, Set.mem_ofPred_eq, Set.mem_insert_iff]
  constructor
  · rintro ⟨j, hj, hji, rfl⟩
    rcases Nat.lt_succ_iff_lt_or_eq.mp hji with hlt | rfl
    · exact Or.inr ⟨j, hj, hlt, rfl⟩
    · exact Or.inl rfl
  · rintro (rfl | ⟨j, hj, hji, rfl⟩)
    · exact ⟨i, Nat.lt_succ_iff.mp h, Nat.lt_succ_self i, rfl⟩
    · exact ⟨j, hj, Nat.lt_succ_of_lt hji, rfl⟩

theorem splitOff_of_le (h : i ≤ order) : splitOff page order i = ∅ := by
  ext b
  simp only [splitOff, Set.mem_ofPred_eq, Set.mem_empty_iff_false,
    iff_false, not_exists]
  rintro j ⟨hj, hji, -⟩
  omega

theorem LiveMeta.addFreeBlock {node k : ℕ} (h : LiveMeta s live)
    (hne : ∀ b ∈ live, b.start ≠ node) :
    LiveMeta (addFreeBlock s node k) live := by
  intro b hb
  simp only [Pmm.addFreeBlock, flags_listAdd, order_listAdd, flags_setMeta,
    order_setMeta, if_neg (hne b hb)]
  exact h b hb

/-- What the splitting loop leaves: the block in hand has the order asked for,
and the halves split off are free. -/
theorem Owns.splitBlock (h : Owns s (insert ⟨page, i⟩ live) R)
    (hnot : (⟨page, i⟩ : Block) ∉ live) (hle : order ≤ i)
    (hlive : LiveMeta s live) :
    Owns (splitBlock s page order i) (insert ⟨page, order⟩ live) R ∧
      (⟨page, order⟩ : Block) ∉ live ∧
      LiveMeta (splitBlock s page order i) live ∧
      freeBlocks (splitBlock s page order i) =
        splitOff page order i ∪ freeBlocks s := by
  induction i generalizing s with
  | zero =>
      obtain rfl : order = 0 := Nat.le_zero.mp hle
      simpa [Pmm.splitBlock, splitOff_of_le, hnot, hlive] using h
  | succ i ih =>
      rcases Nat.eq_or_lt_of_le hle with rfl | hlt
      · simpa [Pmm.splitBlock, splitOff_of_le, hnot, hlive] using h
      · have hdvd : 2 ^ (i + 1) ∣ page :=
          h.tiles.aligned _ (Or.inr (Or.inl rfl))
        have hb : Block.Aligned ⟨page, i⟩ := Dvd.dvd.trans ⟨2, by ring⟩ hdvd
        rw [← Block.parent_of_dvd hdvd] at h hnot
        obtain ⟨hsplit, hlow, hhigh, hne⟩ := h.split hb hnot
        have hgive := hsplit.give (b := Block.buddy ⟨page, i⟩)
          (Or.inr (Or.inl rfl))
        have hrest : insert (⟨page, i⟩ : Block)
            (insert (Block.buddy ⟨page, i⟩) live) \
              {Block.buddy ⟨page, i⟩} = insert ⟨page, i⟩ live := by
          rw [Set.insert_comm, Set.insert_sdiff_self_of_notMem]
          rintro (heq | hmem)
          · exact hne heq.symm
          · exact hhigh hmem
        rw [hrest, Block.buddy_of_dvd hdvd] at hgive
        have hmeta : LiveMeta (Pmm.addFreeBlock s (page + 2 ^ i) i) live := by
          refine hlive.addFreeBlock fun c hc heq => hhigh ?_
          have hcb := hsplit.eq_of_start_eq (Or.inr (Or.inr (Or.inr hc)))
            (Or.inr (Or.inr (Or.inl rfl)))
            (by rw [Block.buddy_of_dvd hdvd]; exact heq)
          exact hcb ▸ hc
        have hstep := ih hgive.1 hlow (Nat.lt_succ_iff.mp hlt) hmeta
        rw [Pmm.splitBlock, if_pos hlt, splitOff_succ hlt]
        refine ⟨hstep.1, hstep.2.1, hstep.2.2.1, ?_⟩
        rw [hstep.2.2.2, hgive.2, Set.union_insert, Set.insert_union]

/-- What a successful `pmm_alloc_pages` does: the first free block of the
least order `j ≥ order` is taken and cut down to `page`, `order`. -/
structure Allocates (s : State) (live : Set Block) (R : Set ℕ)
    (order page j : ℕ) (s' : State) : Prop where
  le : order ≤ j
  free : (⟨page, j⟩ : Block) ∈ freeBlocks s
  least : ∀ k, order ≤ k → k < j → ∀ p, (⟨p, k⟩ : Block) ∉ freeBlocks s
  fresh : (⟨page, order⟩ : Block) ∉ live
  owns : Owns s' (insert ⟨page, order⟩ live) R
  liveMeta : LiveMeta s' (insert ⟨page, order⟩ live)
  freeBlocks_eq : freeBlocks s' =
    splitOff page order j ∪ (freeBlocks s \ {⟨page, j⟩})

theorem notMem_freeBlocks_of_freeLists {k p : ℕ}
    (h : s.freeLists k = none) : (⟨p, k⟩ : Block) ∉ freeBlocks s := by
  rintro ⟨-, hon⟩
  rw [h] at hon
  exact not_onChain_none hon

theorem allocates_of_freeLists {j : ℕ} (h : Owns s live R)
    (hlive : LiveMeta s live) (hle : order ≤ j) (hj : j < maxOrder)
    (hhead : s.freeLists j = some page)
    (hleast : ∀ k, order ≤ k → k < j → s.freeLists k = none) :
    Allocates s live R order page j
      ((splitBlock (listRemove s j page) page order j).setMeta
        page order 1) := by
  have hfree : (⟨page, j⟩ : Block) ∈ freeBlocks s := by
    refine ⟨hj, ?_⟩
    rw [hhead]
    exact OnChain.here page
  have hnot : (⟨page, j⟩ : Block) ∉ live :=
    fun hmem => Set.disjoint_left.mp h.separate hfree hmem
  obtain ⟨htake, hfreeTake⟩ := h.take hfree
  have hmetaTake : LiveMeta (listRemove s j page) live := by
    intro b hb
    simpa using hlive b hb
  obtain ⟨hown, hfresh, hmeta, hfreeSplit⟩ :=
    htake.splitBlock hnot hle hmetaTake
  rw [hfreeTake] at hfreeSplit
  set t := splitBlock (listRemove s j page) page order j with ht
  have hnode : ∀ b ∈ freeBlocks t, b.start ≠ page :=
    fun b hb => hown.ne_of_free_of_busy hb (Or.inl rfl)
  obtain ⟨hlists, hfreeMeta⟩ :=
    hown.lists.setMeta order 1 hnode
  have horder : order < maxOrder := hle.trans_lt hj
  refine ⟨hle, hfree, ?_, hfresh, ⟨hlists, ?_, ?_, hown.order_lt, ?_, ?_⟩,
    ?_, ?_⟩
  · exact fun k hk hkj p => notMem_freeBlocks_of_freeLists (hleast k hk hkj)
  · rw [hfreeMeta]
    exact hown.separate
  · rw [hfreeMeta]
    exact hown.tiles
  · exact hown.inside
  · intro x hx hxR
    have hxp : x ≠ page := by
      rintro rfl
      exact hxR (hown.start_mem (b := ⟨x, order⟩) (Or.inr (Or.inl rfl)))
    rw [flags_setMeta, if_neg hxp]
    exact hown.outside x hx hxR
  · rintro b (rfl | hb)
    · simp [flags_setMeta, order_setMeta, horder]
    · have hbp : b.start ≠ page := by
        intro heq
        have hcb := hown.eq_of_start_eq (Or.inr (Or.inr hb))
          (Or.inr (Or.inl rfl)) heq
        exact hfresh (hcb ▸ hb)
      rw [flags_setMeta, order_setMeta, if_neg hbp, if_neg hbp]
      exact hmeta b hb
  · rw [hfreeMeta, hfreeSplit]

theorem allocLoop_cases (h : Owns s live R) (hlive : LiveMeta s live)
    {fuel : ℕ} (hle : order ≤ i) (hfuel : i + fuel = maxOrder)
    (hleast : ∀ k, order ≤ k → k < i → s.freeLists k = none) :
    (allocLoop s order fuel i = (none, s) ∧
        ∀ k, order ≤ k → k < maxOrder → s.freeLists k = none) ∨
      ∃ page j s', allocLoop s order fuel i =
          (some (page * pageSize), s') ∧
        Allocates s live R order page j s' := by
  induction fuel generalizing i with
  | zero =>
      obtain rfl : i = maxOrder := by omega
      exact Or.inl ⟨rfl, hleast⟩
  | succ fuel ih =>
      cases hhead : s.freeLists i with
      | none =>
          rw [allocLoop, hhead]
          refine ih (Nat.le_succ_of_le hle) (by omega) ?_
          intro k hk hki
          rcases Nat.lt_succ_iff_lt_or_eq.mp hki with hlt | rfl
          · exact hleast k hk hlt
          · exact hhead
      | some page =>
          refine Or.inr ⟨page, i, _, by rw [allocLoop, hhead], ?_⟩
          exact allocates_of_freeLists h hlive hle (by omega) hhead hleast

/-- `pmm_alloc_pages` either finds every list from `order` on empty and
changes nothing, or takes a block. -/
theorem pmmAllocPages_cases (h : Owns s live R) (hlive : LiveMeta s live)
    (horder : order < maxOrder) :
    (pmmAllocPages s order = (none, s) ∧
        ∀ k, order ≤ k → k < maxOrder → s.freeLists k = none) ∨
      ∃ page j s', pmmAllocPages s order = (some (page * pageSize), s') ∧
        Allocates s live R order page j s' :=
  allocLoop_cases h hlive le_rfl (by omega) (fun k hk hlt => by omega)

end Alloc

/-! ## Freeing -/

section Free

variable {s : State} {live : Set Block} {R : Set ℕ}

/-- What the merge loop leaves: the block in hand has grown as long as its
buddy was free. -/
structure Merges (s : State) (live : Set Block) (R : Set ℕ)
    (s' : State) (c : Block) : Prop where
  owns : Owns s' (insert c live) R
  fresh : c ∉ live
  liveMeta : LiveMeta s' live
  subset : freeBlocks s' ⊆ freeBlocks s
  stopped : c.order + 1 < maxOrder → c.buddy ∉ freeBlocks s'

theorem mergeLoop_merges (fuel : ℕ) {pageIdx order : ℕ}
    (h : Owns s (insert ⟨pageIdx, order⟩ live) R)
    (hnot : (⟨pageIdx, order⟩ : Block) ∉ live) (hlive : LiveMeta s live)
    (hfuel : order + fuel = maxOrder - 1) :
    Merges s live R (mergeLoop s fuel pageIdx order).1
      ⟨(mergeLoop s fuel pageIdx order).2.1,
        (mergeLoop s fuel pageIdx order).2.2⟩ := by
  induction fuel generalizing s pageIdx order with
  | zero =>
      refine ⟨h, hnot, hlive, subset_rfl, fun hlt => ?_⟩
      simp only [mergeLoop, maxOrder] at hlt hfuel
      omega
  | succ fuel ih =>
      have htest := h.buddy_free_iff hlive
      by_cases hstop : s.totalPages ≤ pageIdx ^^^ 2 ^ order ∨
          (s.pages (pageIdx ^^^ 2 ^ order)).flags = 1 ∨
          (s.pages (pageIdx ^^^ 2 ^ order)).order ≠ order
      · rw [mergeLoop, if_pos hstop]
        exact ⟨h, hnot, hlive, subset_rfl,
          fun _ hfree => htest.mpr hfree hstop⟩
      · have hfree := htest.mp hstop
        obtain ⟨htake, hremoved⟩ := h.take hfree
        have hbuddy : Block.buddy ⟨pageIdx, order⟩ ∉ live := by
          intro hmem
          exact Set.disjoint_left.mp h.separate hfree (Or.inr hmem)
        obtain ⟨hjoin, hparent⟩ := htake.join hnot hbuddy (by
          simp only [maxOrder] at hfuel ⊢
          omega)
        have hmeta : LiveMeta (listRemove s order (pageIdx ^^^ 2 ^ order))
            live := by
          intro b hb
          simpa using hlive b hb
        have hmin : (if pageIdx ^^^ 2 ^ order < pageIdx then
            pageIdx ^^^ 2 ^ order else pageIdx) =
              min pageIdx (pageIdx ^^^ 2 ^ order) := by
          split_ifs <;> omega
        rw [mergeLoop, if_neg hstop, hmin]
        have hfuel' : order + 1 + fuel = maxOrder - 1 := by omega
        have hstep := ih hjoin hparent hmeta hfuel'
        refine ⟨hstep.owns, hstep.fresh, hstep.liveMeta, ?_, hstep.stopped⟩
        refine hstep.subset.trans ?_
        exact hremoved ▸ Set.sdiff_subset

/-- What `pmm_free_pages` does to a live block: it is merged into a block `c`
that joins the free blocks, whose own buddy is not free. -/
theorem pmmFreePages_spec {b : Block} (h : Owns s live R)
    (hlive : LiveMeta s live) (hb : b ∈ live) :
    Owns (pmmFreePages s (b.start * pageSize) b.order) (live \ {b}) R ∧
      LiveMeta (pmmFreePages s (b.start * pageSize) b.order) (live \ {b}) ∧
      ∃ c, ∃ T ⊆ freeBlocks s,
        freeBlocks (pmmFreePages s (b.start * pageSize) b.order) =
          insert c T ∧
        (c.order + 1 < maxOrder → c.buddy ∉ T) := by
  have hhand : insert b (live \ {b}) = live := by
    rw [Set.insert_sdiff_singleton, Set.insert_eq_of_mem hb]
  have horder := h.order_lt b hb
  rw [← hhand] at h
  have hpage : b.start * pageSize / pageSize = b.start :=
    Nat.mul_div_cancel _ (by decide)
  have hmerge := mergeLoop_merges (maxOrder - 1 - b.order) h
    (fun hmem => hmem.2 rfl) (fun c hc => hlive c hc.1) (by omega)
  rw [pmmFreePages, hpage]
  set r := mergeLoop s (maxOrder - 1 - b.order) b.start b.order
  obtain ⟨hgive, hfree⟩ := hmerge.owns.give (b := ⟨r.2.1, r.2.2⟩)
    (Or.inl rfl)
  have hrest : insert (⟨r.2.1, r.2.2⟩ : Block) (live \ {b}) \
      {⟨r.2.1, r.2.2⟩} = live \ {b} :=
    Set.insert_sdiff_self_of_notMem hmerge.fresh
  rw [hrest] at hgive
  refine ⟨hgive, ?_, ⟨r.2.1, r.2.2⟩, freeBlocks r.1, hmerge.subset, hfree,
    hmerge.stopped⟩
  refine hmerge.liveMeta.addFreeBlock fun c hc heq => hmerge.fresh ?_
  have hcb := hmerge.owns.eq_of_start_eq (Or.inr (Or.inr hc))
    (Or.inr (Or.inl rfl)) heq
  exact hcb ▸ hc

end Free

end BabOs.Pmm
