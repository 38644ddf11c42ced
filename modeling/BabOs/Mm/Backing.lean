import BabOs.Mm.Frames

/-!
# Page tables over the frame allocator

The page tables of `vmm.c` take their frames from the allocator.  Each call of
`vmm_map_page` takes one frame when it finds no table, and the loops of the
heap take one more for each page.  As long as the free frames are enough, the
tables stay apart from each other and from what is handed out later.
-/

namespace BabOs.Mm

open BabOs.Vmm

/-- The page tables with the allocator under them. -/
abbrev Backing := Vmm.State Frames

/-- `PAGE_PRESENT | PAGE_RW` -/
def pageFlags : ℕ := pagePresent ||| pageRw

/-- The body of the loops of `kheap_init` and `expand_heap`: the page at
`virtual` gets a frame. -/
def mapPage (b : Backing) (virtual : ℕ) : Backing :=
  let r := frameAlloc b.frames
  vmmMapPage frameAlloc virtual r.1 pageFlags { b with frames := r.2 }

/-- The allocator and the tables are in order, and no table is free. -/
structure BackingOk (R : Set ℕ) (b : Backing) : Prop where
  frames : b.frames.Ok R
  tables : TablesOk b
  directory_used : b.currentDirectory / pageSize ∉ b.frames.free
  tables_used : ∀ t ∈ b.tables, t / pageSize ∉ b.frames.free

/-- The directory slots of the addresses that have no table yet. -/
def missingTables (b : Backing) (vs : List ℕ) : Finset ℕ :=
  (vs.map pdIndex).toFinset.filter fun i => ¬Present b i

/-- `b'` is `b` after calls for the addresses `vs` which have taken `n` frames
besides those of the new tables. -/
structure Grown (R : Set ℕ) (b b' : Backing) (vs : List ℕ) (n : ℕ) : Prop where
  ok : BackingOk R b'
  present : ∀ i < 1024, Present b' i ↔ Present b i ∨ i ∈ vs.map pdIndex
  count : b'.frames.free.ncard + n + (missingTables b vs).card =
    b.frames.free.ncard
  free : b'.frames.free ⊆ b.frames.free
  granted : ∀ a ∈ b.frames.granted, a ∈ b'.frames.granted
  directory : b'.currentDirectory = b.currentDirectory

@[simp] theorem page_div (page : ℕ) : page * Pmm.pageSize / pageSize = page :=
  Nat.mul_div_cancel page (by decide)

section Growth

variable {R : Set ℕ} {b b' b'' : Backing} {vs : List ℕ} {n : ℕ}

theorem Grown.refl (h : BackingOk R b) : Grown R b b [] 0 := by
  refine ⟨h, by simp, ?_, subset_rfl, fun a ha => ha, rfl⟩
  simp [missingTables]

/-- A frame that is handed out is fresh for the tables. -/
theorem BackingOk.fresh (h : BackingOk R b) (hR : Usable R) {page : ℕ}
    (hpage : page ∈ b.frames.free) : Fresh b (page * Pmm.pageSize) := by
  have hbound := hR page (h.frames.free_subset hpage)
  refine ⟨dvd_mul_left _ _, ?_, ?_, ?_⟩
  · simp only [Pmm.pageSize]
    omega
  · intro heq
    have hused := h.directory_used
    rw [← heq, page_div] at hused
    exact hused hpage
  · intro hmem
    have hused := h.tables_used _ hmem
    rw [page_div] at hused
    exact hused hpage

/-- While a frame is free, the one that is handed out is fresh. -/
theorem BackingOk.fresh_frameAlloc (h : BackingOk R b) (hR : Usable R)
    (hfree : b.frames.free.Nonempty) : Fresh b (frameAlloc b.frames).1 := by
  rcases h.frames.frameAlloc_cases hR with ⟨hempty, -⟩ | ⟨page, heq, hgrants⟩
  · exact absurd hempty hfree.ne_empty
  · rw [heq]
    exact h.fresh hR hgrants.mem

/-- The allocator hands out a frame that is not used for a table. -/
theorem BackingOk.take (h : BackingOk R b) {f' : Frames} {page : ℕ}
    (hgrants : Grants R b.frames f' page) :
    BackingOk R { b with frames := f' } where
  frames := hgrants.ok
  tables := ⟨h.tables.directory_dvd, h.tables.table_dvd, h.tables.table_lt,
    h.tables.table_ne, h.tables.slots, h.tables.separate⟩
  directory_used := fun hmem => h.directory_used (hgrants.subset hmem)
  tables_used := fun t ht hmem => h.tables_used t ht (hgrants.subset hmem)

theorem missingTables_mono (b : Backing) {ws : List ℕ} (h : vs ⊆ ws) :
    missingTables b vs ⊆ missingTables b ws := by
  refine Finset.filter_subset_filter _ fun i hi => ?_
  rw [List.mem_toFinset] at hi ⊢
  exact List.map_subset pdIndex h hi

theorem missingTables_snoc (v : ℕ) :
    missingTables b (vs ++ [v]) =
      if Present b (pdIndex v) then missingTables b vs
      else insert (pdIndex v) (missingTables b vs) := by
  ext i
  split_ifs with hpresent
  · simp only [missingTables, List.map_append, List.toFinset_append,
      Finset.mem_filter, Finset.mem_union, List.mem_toFinset,
      List.map_cons, List.map_nil, List.mem_singleton]
    constructor
    · rintro ⟨hi | rfl, hnot⟩
      · exact ⟨hi, hnot⟩
      · exact absurd hpresent hnot
    · exact fun hi => ⟨Or.inl hi.1, hi.2⟩
  · simp only [missingTables, List.map_append, List.toFinset_append,
      Finset.mem_filter, Finset.mem_union, List.mem_toFinset,
      Finset.mem_insert, List.map_cons, List.map_nil, List.mem_singleton]
    constructor
    · rintro ⟨hi | rfl, hnot⟩
      · exact Or.inr ⟨hi, hnot⟩
      · exact Or.inl rfl
    · rintro (rfl | hi)
      · exact ⟨Or.inr rfl, hpresent⟩
      · exact ⟨Or.inl hi.1, hi.2⟩

/-- What one call of `vmm_map_page` does when a frame is free in case it needs
one. -/
structure Maps (R : Set ℕ) (b b' : Backing) (virtual physical flags : ℕ) :
    Prop where
  ok : BackingOk R b'
  present : ∀ i < 1024, Present b' i ↔ Present b i ∨ i = pdIndex virtual
  count : b'.frames.free.ncard +
    (if Present b (pdIndex virtual) then 0 else 1) = b.frames.free.ncard
  free : b'.frames.free ⊆ b.frames.free
  granted : ∀ a ∈ b.frames.granted, a ∈ b'.frames.granted
  directory : b'.currentDirectory = b.currentDirectory
  walk : ∀ v < 2 ^ 32, walk b' v =
    if virtual / pageSize = v / pageSize then
      some ((physical &&& 0xFFFFF000) + (v &&& 0xFFF), flags)
    else Vmm.walk b v

theorem BackingOk.vmmMapPage (h : BackingOk R b) (hR : Usable R)
    {virtual physical flags : ℕ} (hvirtual : virtual < 2 ^ 32)
    (hphysical : physical < 2 ^ 32) (hflags : flags < 0x1000)
    (hpresent : flags &&& pagePresent ≠ 0)
    (hfind : ¬Present b (pdIndex virtual) → b.frames.free.Nonempty) :
    Maps R b (vmmMapPage frameAlloc virtual physical flags b)
      virtual physical flags := by
  have hfresh : ¬Present b (pdIndex virtual) →
      Fresh b (frameAlloc b.frames).1 :=
    fun hnot => h.fresh_frameAlloc hR (hfind hnot)
  have htables := (h.tables.vmmMapPage hvirtual hphysical hflags hfresh).1
  have hiff : ∀ i < 1024,
      Present (Vmm.vmmMapPage frameAlloc virtual physical flags b) i ↔
        Present b i ∨ i = pdIndex virtual := fun i hi =>
    h.tables.present_vmmMapPage hvirtual hflags hfresh hi
  have hwalk := fun v (hv : v < 2 ^ 32) =>
    h.tables.walk_vmmMapPage hvirtual hphysical hflags hpresent hfresh hv
  by_cases hin : Present b (pdIndex virtual)
  · rw [vmmMapPage_of_present hin] at htables hiff hwalk ⊢
    refine ⟨⟨h.frames, htables, h.directory_used, h.tables_used⟩, hiff, ?_,
      subset_rfl, fun a ha => ha, rfl, hwalk⟩
    rw [if_pos hin]
    rfl
  · rw [vmmMapPage_of_absent hin] at htables hiff hwalk ⊢
    rcases h.frames.frameAlloc_cases hR with
      ⟨hempty, -⟩ | ⟨page, heq, hgrants⟩
    · exact absurd hempty (hfind hin).ne_empty
    · refine ⟨⟨hgrants.ok, htables,
        fun hmem => h.directory_used (hgrants.subset hmem), ?_⟩, hiff, ?_,
        hgrants.subset, ?_, rfl, hwalk⟩
      · intro t ht hmem
        rcases List.mem_cons.mp ht with rfl | ht
        · rw [heq, page_div] at hmem
          exact hgrants.notMem hmem
        · exact h.tables_used t ht (hgrants.subset hmem)
      · rw [if_neg hin]
        exact hgrants.ncard (h.frames.finite hR)
      · intro a ha
        change a ∈ (frameAlloc b.frames).2.granted
        rw [hgrants.granted]
        exact List.mem_cons_of_mem _ ha

theorem Grown.card_missingTables (h : Grown R b b' vs n) {virtual : ℕ}
    (hvirtual : virtual < 2 ^ 32) :
    (missingTables b (vs ++ [virtual])).card =
      (missingTables b vs).card +
        (if Present b' (pdIndex virtual) then 0 else 1) := by
  have hi := pdIndex_lt hvirtual
  simp only [h.present _ hi]
  rw [missingTables_snoc]
  split_ifs with hold hnew hnew
  · rfl
  · exact absurd (Or.inl hold) hnew
  · have hmem : pdIndex virtual ∈ missingTables b vs := by
      simpa [missingTables, hold] using hnew
    rw [Finset.insert_eq_self.mpr hmem, Nat.add_zero]
  · have hnot : pdIndex virtual ∉ missingTables b vs := by
      simpa [missingTables, hold] using hnew
    rw [Finset.card_insert_of_notMem hnot]

theorem Grown.snoc {virtual physical flags : ℕ}
    (h : Grown R b b' vs n) (hvirtual : virtual < 2 ^ 32)
    (hmaps : Maps R b' b'' virtual physical flags) :
    Grown R b b'' (vs ++ [virtual]) n := by
  refine ⟨hmaps.ok, fun i hi => ?_, ?_, hmaps.free.trans h.free,
    fun a ha => hmaps.granted a (h.granted a ha),
    hmaps.directory.trans h.directory⟩
  · rw [hmaps.present i hi, h.present i hi]
    simp [or_assoc]
  · have hcount := hmaps.count
    have hcount' := h.count
    rw [h.card_missingTables hvirtual]
    omega

theorem Grown.take (h : Grown R b b' vs n) (hR : Usable R) {f' : Frames}
    {page : ℕ} (hgrants : Grants R b'.frames f' page) :
    Grown R b { b' with frames := f' } vs (n + 1) := by
  refine ⟨h.ok.take hgrants, h.present, ?_, hgrants.subset.trans h.free, ?_,
    h.directory⟩
  · have hone := hgrants.ncard (h.ok.frames.finite hR)
    have hcount := h.count
    dsimp only
    omega
  · intro a ha
    dsimp only
    rw [hgrants.granted]
    exact List.mem_cons_of_mem _ (h.granted a ha)

end Growth

/-! ## Runs of pages -/

/-- The page frame that an address is translated to. -/
def frameOf (b : Backing) (v : ℕ) : Option ℕ :=
  (walk b v).map fun r => r.1 / pageSize

/-- The pages from `lo` up to `hi` have frames that the allocator has handed
out, and no two of them share one. -/
structure PagesMapped (lo hi : ℕ) (b : Backing) : Prop where
  mapped : ∀ v, lo ≤ v → v < hi → ∃ a ∈ b.frames.granted,
    walk b v = some (a + v % pageSize, pageFlags)
  separate : ∀ v w, lo ≤ v → v < hi → lo ≤ w → w < hi →
    frameOf b v = frameOf b w → v / pageSize = w / pageSize

theorem pagesMapped_nil (lo : ℕ) (b : Backing) : PagesMapped lo lo b := by
  constructor
  · intro v hlo hhi
    exact absurd hhi hlo.not_gt
  · intro v w hlo hhi
    exact absurd hhi hlo.not_gt

/-- The addresses of `n` pages from `start` on. -/
def pagesFrom (start n : ℕ) : List ℕ :=
  (List.range n).map fun i => start + i * pageSize

/-- The frames that mapping `n` pages from `start` on takes: one for each
page, and one for each table that is missing. -/
def framesNeeded (b : Backing) (start n : ℕ) : ℕ :=
  n + (missingTables b (pagesFrom start n)).card

section Pages

variable {R : Set ℕ} {b b' : Backing} {lo hi start n k : ℕ}

theorem pagesFrom_succ (start n : ℕ) :
    pagesFrom start (n + 1) = pagesFrom start n ++ [start + n * pageSize] := by
  simp [pagesFrom, List.range_succ]

theorem framesNeeded_mono (b : Backing) (start : ℕ) (h : k ≤ n) :
    framesNeeded b start k ≤ framesNeeded b start n := by
  refine Nat.add_le_add h (Finset.card_le_card (missingTables_mono b ?_))
  exact List.map_subset _ (List.range_subset.mpr h)

theorem mem_pagesFrom {v : ℕ} (hv : v ∈ pagesFrom start n) :
    start ≤ v ∧ v < start + n * pageSize := by
  simp only [pagesFrom, List.mem_map, List.mem_range] at hv
  obtain ⟨i, hi, rfl⟩ := hv
  simp only [pageSize]
  omega

/-- The frame of a page that is mapped already is not free. -/
theorem PagesMapped.frameOf_eq (h : PagesMapped lo hi b)
    (hok : BackingOk R b) {v : ℕ} (hlo : lo ≤ v) (hhi : v < hi) :
    ∃ p, frameOf b v = some p ∧ p ∉ b.frames.free := by
  obtain ⟨a, ha, hwalk⟩ := h.mapped v hlo hhi
  obtain ⟨hdvd, -, hused⟩ := hok.frames.granted a ha
  refine ⟨a / Pmm.pageSize, ?_, hused⟩
  rw [frameOf, hwalk, Option.map_some, Option.some_inj]
  simp only [pageSize, Pmm.pageSize] at hdvd ⊢
  omega

theorem PagesMapped.step (h : PagesMapped lo hi b) (hok : BackingOk R b)
    (hR : Usable R) (halign : pageSize ∣ hi)
    (hlt : hi + pageSize ≤ 2 ^ 32)
    (hroom : 1 + (if Present b (pdIndex hi) then 0 else 1) ≤
      b.frames.free.ncard) :
    (∃ page f', Grants R b.frames f' page ∧
      Maps R { b with frames := f' } (mapPage b hi) hi
        (page * Pmm.pageSize) pageFlags) ∧
      PagesMapped lo (hi + pageSize) (mapPage b hi) := by
  have hpos : 0 < b.frames.free.ncard := by omega
  rcases hok.frames.frameAlloc_cases hR with
    ⟨hempty, -⟩ | ⟨page, hcall, hgrants⟩
  · rw [hempty, Set.ncard_empty] at hpos
    exact absurd hpos (lt_irrefl 0)
  have htake := hok.take hgrants
  have hone := hgrants.ncard (hok.frames.finite hR)
  have hbound := hR page (hok.frames.free_subset hgrants.mem)
  have hphysical : page * Pmm.pageSize < 2 ^ 32 := by
    simp only [Pmm.pageSize]
    omega
  have hpage : 0 < pageSize := by decide
  have hmaps : Maps R { b with frames := (frameAlloc b.frames).2 }
      (mapPage b hi) hi (page * Pmm.pageSize) pageFlags := by
    rw [mapPage, hcall]
    refine htake.vmmMapPage hR (by omega) hphysical (by decide) (by decide) ?_
    intro hnot
    rw [if_neg (show ¬Present b (pdIndex hi) from hnot)] at hroom
    exact Set.nonempty_of_ncard_ne_zero (by dsimp only; omega)
  have hin : page * Pmm.pageSize ∈ (mapPage b hi).frames.granted := by
    refine hmaps.granted _ ?_
    dsimp only
    rw [hgrants.granted]
    exact List.mem_cons_self
  have hnew : ∀ v, hi ≤ v → v < hi + pageSize → walk (mapPage b hi) v =
      some (page * Pmm.pageSize + v % pageSize, pageFlags) := by
    intro v hv hv'
    have hsame : hi / pageSize = v / pageSize := by
      simp only [pageSize] at halign hv' ⊢
      omega
    rw [hmaps.walk v (by omega), if_pos hsame, and_high hphysical, and_low]
    simp only [Pmm.pageSize, pageSize, Nat.mul_div_cancel _ (by decide : 0 < 4096)]
  have hold : ∀ v, v < hi → walk (mapPage b hi) v = walk b v := by
    intro v hv
    have hne : hi / pageSize ≠ v / pageSize := by
      simp only [pageSize] at halign ⊢
      omega
    rw [hmaps.walk v (by omega), if_neg hne]
    rfl
  refine ⟨⟨page, _, hgrants, hmaps⟩, ?_, ?_⟩
  · intro v hvlo hvhi
    by_cases hv : v < hi
    · obtain ⟨a, ha, hwalk⟩ := h.mapped v hvlo hv
      refine ⟨a, hmaps.granted a ?_, (hold v hv).trans hwalk⟩
      dsimp only
      rw [hgrants.granted]
      exact List.mem_cons_of_mem _ ha
    · exact ⟨_, hin, hnew v (by omega) hvhi⟩
  · have hframe : ∀ v, hi ≤ v → v < hi + pageSize →
        frameOf (mapPage b hi) v = some page := by
      intro v hv hv'
      rw [frameOf, hnew v hv hv', Option.map_some, Option.some_inj]
      simp only [pageSize, Pmm.pageSize]
      omega
    have hframe' : ∀ v, lo ≤ v → v < hi →
        frameOf (mapPage b hi) v ≠ some page := by
      intro v hvlo hv heq
      obtain ⟨p, hp, hused⟩ := h.frameOf_eq hok hvlo hv
      rw [frameOf, hold v hv, ← frameOf, hp, Option.some_inj] at heq
      exact hused (heq ▸ hgrants.mem)
    intro v w hvlo hvhi hwlo hwhi heq
    by_cases hv : v < hi <;> by_cases hw : w < hi
    · rw [frameOf, frameOf, hold v hv, hold w hw] at heq
      exact h.separate v w hvlo hv hwlo hw heq
    · rw [hframe w (by omega) hwhi] at heq
      exact absurd heq (hframe' v hvlo hv)
    · rw [hframe v (by omega) hvhi] at heq
      exact absurd heq.symm (hframe' w hwlo hw)
    · simp only [pageSize] at halign hvhi hwhi ⊢
      omega

/-- The state after `n` rounds of the loop. -/
def mapPages (b : Backing) (start n : ℕ) : Backing :=
  (pagesFrom start n).foldl mapPage b

theorem mapPages_succ (b : Backing) (start n : ℕ) :
    mapPages b start (n + 1) =
      mapPage (mapPages b start n) (start + n * pageSize) := by
  rw [mapPages, pagesFrom_succ, List.foldl_append]
  rfl

/-- The loop maps all its pages when the free frames are enough. -/
theorem PagesMapped.mapPages (h : PagesMapped lo start b)
    (hok : BackingOk R b) (hR : Usable R) (halign : pageSize ∣ start)
    (hlt : start + n * pageSize ≤ 2 ^ 32)
    (hroom : framesNeeded b start n ≤ b.frames.free.ncard) :
    Grown R b (mapPages b start n) (pagesFrom start n) n ∧
      PagesMapped lo (start + n * pageSize) (mapPages b start n) := by
  induction n with
  | zero =>
      rw [Nat.zero_mul, Nat.add_zero]
      exact ⟨Grown.refl hok, h⟩
  | succ n ih =>
      rw [Nat.succ_mul] at hlt
      obtain ⟨hgrown, hmapped⟩ := ih (by omega)
        ((framesNeeded_mono b start (Nat.le_succ n)).trans hroom)
      have hvirtual : start + n * pageSize < 2 ^ 32 := by
        have hpos : 0 < pageSize := by decide
        omega
      have hone := hgrown.card_missingTables hvirtual
      have hcount := hgrown.count
      rw [framesNeeded, pagesFrom_succ] at hroom
      have halign' : pageSize ∣ start + n * pageSize :=
        (Nat.dvd_add_right halign).mpr (dvd_mul_left _ _)
      obtain ⟨⟨page, f', hgrants, hmaps⟩, hmapped'⟩ :=
        hmapped.step hgrown.ok hR halign' (by omega) (by omega)
      rw [mapPages_succ, pagesFrom_succ, Nat.succ_mul, ← Nat.add_assoc]
      exact ⟨(hgrown.take hR hgrants).snoc hvirtual hmaps, hmapped'⟩

end Pages

end BabOs.Mm
