import BabOs.Mm.BringUp

/-!
# The pages of the heap

`expand_heap` maps its pages without looking whether a frame was found, and
without looking at `KHEAP_MAX_ADDRESS`.  The heap stays backed by frames of
its own exactly as long as every expansion finds the frames it needs and ends
below that address.
-/

namespace BabOs.Mm

open BabOs.Vmm Relation
open BabOs.Kheap hiding pageSize State

def kheapMaxAddress : ℕ := 0xEFFFF000

/-! ## Requests as steps -/

/-- A call of `kmalloc_internal` that looks at the header `curr` next. -/
structure Request where
  size : ℕ
  align : Bool
  curr : ℕ

structure HeapConfig where
  heap : Kheap.State Backing
  call : Option Request

/-- The rounds of `kmalloc_internal`, and the calls between them. -/
inductive HeapStep : HeapConfig → HeapConfig → Prop
  | call (s : Kheap.State Backing) (size : ℕ) (align : Bool) :
      HeapStep ⟨s, none⟩ ⟨s, some ⟨size, align, s.heapStart⟩⟩
  | free (s : Kheap.State Backing) (ptr : ℕ) :
      HeapStep ⟨s, none⟩ ⟨kfree ptr s, none⟩
  | next {s s' : Kheap.State Backing} {size curr : ℕ} {align : Bool}
      (hcurr : curr ≠ 0) (htry : tryBlock size align curr s = (none, s')) :
      HeapStep ⟨s, some ⟨size, align, curr⟩⟩
        ⟨s', some ⟨size, align, (header s'.mem curr).next⟩⟩
  | take {s s' : Kheap.State Backing} {size curr ptr : ℕ} {align : Bool}
      (hcurr : curr ≠ 0) (htry : tryBlock size align curr s = (some ptr, s')) :
      HeapStep ⟨s, some ⟨size, align, curr⟩⟩ ⟨s', none⟩
  | expand {s s' : Kheap.State Backing} {size fuel : ℕ} {align : Bool}
      (hexpand : expandHeap mapPage fuel (uint32 (expandSize size align))
        (s.noteSum (expandSize size align)) = some s') :
      HeapStep ⟨s, some ⟨size, align, 0⟩⟩
        ⟨s', some ⟨size, align, s'.heapStart⟩⟩

/-! ## Expansions -/

/-- The number of bytes that `expand_heap` adds. -/
def roundUp (newSize : ℕ) : ℕ :=
  if newSize % pageSize ≠ 0 then
    uint32 ((newSize / pageSize + 1) * pageSize)
  else newSize

/-- The free frames are enough for the pages of the expansion and the tables
they need, and the heap ends below `KHEAP_MAX_ADDRESS` after it. -/
def Completable (s : Kheap.State Backing) (newSize : ℕ) : Prop :=
  framesNeeded s.backing s.heapEnd (roundUp newSize / pageSize) ≤
      s.backing.frames.free.ncard ∧
    s.heapEnd + roundUp newSize ≤ kheapMaxAddress

/-- An expansion that comes next can be completed. -/
def Completes (c : HeapConfig) : Prop :=
  ∀ r ∈ c.call, r.curr = 0 →
    Completable c.heap (uint32 (expandSize r.size r.align))

/-- The heap is backed: every page is mapped to a frame that a successful
`pmm_alloc_pages` has returned, which is not page `0`, no two pages share one,
and the heap ends below `KHEAP_MAX_ADDRESS`. -/
structure HeapBacked (s : Kheap.State Backing) : Prop where
  mapped : ∀ v, kheapStart ≤ v → v < s.heapEnd →
    ∃ a ∈ s.backing.frames.granted,
      walk s.backing v = some (a + v % pageSize, pageFlags)
  separate : ∀ v w, kheapStart ≤ v → v < s.heapEnd →
    kheapStart ≤ w → w < s.heapEnd →
    frameOf s.backing v = frameOf s.backing w → v / pageSize = w / pageSize
  not_zero : ∀ v, kheapStart ≤ v → v < s.heapEnd →
    frameOf s.backing v ≠ some 0
  limit : s.heapEnd ≤ kheapMaxAddress

/-- What runs keep. -/
structure PagesOk (R : Set ℕ) (s : Kheap.State Backing) : Prop where
  backing : BackingOk R s.backing
  pages : PagesMapped kheapStart s.heapEnd s.backing
  aligned : pageSize ∣ s.heapEnd
  limit : s.heapEnd ≤ kheapMaxAddress

section Expansions

variable {R : Set ℕ} {s s' : Kheap.State Backing} {c c' : HeapConfig}
  {fuel newSize : ℕ}

theorem PagesOk.backed (h : PagesOk R s) : HeapBacked s where
  mapped := h.pages.mapped
  separate := h.pages.separate
  not_zero := by
    intro v hlo hhi hzero
    obtain ⟨a, ha, hwalk⟩ := h.pages.mapped v hlo hhi
    obtain ⟨hdvd, hne, -⟩ := h.backing.frames.granted a ha
    rw [frameOf, hwalk, Option.map_some, Option.some_inj] at hzero
    simp only [pageSize, Pmm.pageSize] at hdvd hzero
    omega
  limit := h.limit

theorem roundUp_dvd (newSize : ℕ) : pageSize ∣ roundUp newSize := by
  rw [roundUp]
  split_ifs with h
  · exact (Nat.dvd_mod_iff (by decide)).mpr (dvd_mul_left _ _)
  · exact Nat.dvd_of_mod_eq_zero (not_not.mp h)

theorem roundUp_lt (h : newSize < 2 ^ 32) : roundUp newSize < 2 ^ 32 := by
  rw [roundUp]
  split_ifs
  · exact Nat.mod_lt _ (by norm_num)
  · exact h

/-- What an expansion does to the end of the heap and its pages. -/
theorem expandHeap_eq (h : expandHeap mapPage fuel newSize s = some s') :
    s'.heapEnd = uint32 (s.heapEnd + roundUp newSize) ∧
      s'.backing = mapRange mapPage s.heapEnd (roundUp newSize) s.backing := by
  have hby : ∀ {n : ℕ} {t : Kheap.State Backing},
      expandBy mapPage fuel n t = some s' →
      s'.heapEnd = uint32 (t.heapEnd + n) ∧
        s'.backing = mapRange mapPage t.heapEnd n t.backing := by
    intro n t ht
    rw [expandBy] at ht
    split at ht
    · cases ht
    · cases ht
      exact ⟨rfl, rfl⟩
  rw [expandHeap] at h
  rw [roundUp]
  split_ifs at h with hmod
  · rw [if_pos (show newSize % pageSize ≠ 0 from hmod)]
    have hrounded := hby h
    exact hrounded
  · rw [if_neg (show ¬newSize % pageSize ≠ 0 from hmod)]
    exact hby h

/-- An expansion that can be completed maps its pages. -/
theorem PagesOk.grown (h : PagesOk R s) (hR : Usable R)
    (hroom : Completable s newSize)
    (hexpand : expandHeap mapPage fuel newSize s = some s') :
    s'.heapEnd = s.heapEnd + roundUp newSize ∧
      Grown R s.backing s'.backing
        (pagesFrom s.heapEnd (roundUp newSize / pageSize))
        (roundUp newSize / pageSize) ∧
      PagesMapped kheapStart s'.heapEnd s'.backing := by
  obtain ⟨hend, hbacking⟩ := expandHeap_eq hexpand
  obtain ⟨hfree, hlimit⟩ := hroom
  have hmax : kheapMaxAddress < 2 ^ 32 := by decide
  have hlt : s.heapEnd + roundUp newSize < 2 ^ 32 := hlimit.trans_lt hmax
  have hcancel : roundUp newSize / pageSize * pageSize = roundUp newSize :=
    Nat.div_mul_cancel (roundUp_dvd newSize)
  rw [uint32, Nat.mod_eq_of_lt hlt] at hend
  rw [mapRange_eq _ hlt.le] at hbacking
  obtain ⟨hgrown, hpages⟩ := h.pages.mapPages h.backing hR h.aligned
    (by rw [hcancel]; exact hlt.le) hfree
  rw [hcancel] at hpages
  rw [hend, hbacking]
  exact ⟨rfl, hgrown, hpages⟩

theorem PagesOk.expandHeap (h : PagesOk R s) (hR : Usable R)
    (hroom : Completable s newSize)
    (hexpand : expandHeap mapPage fuel newSize s = some s') :
    PagesOk R s' := by
  obtain ⟨hend, hgrown, hpages⟩ := h.grown hR hroom hexpand
  refine ⟨hgrown.ok, hpages, ?_, ?_⟩
  · rw [hend]
    exact (Nat.dvd_add_right h.aligned).mpr (roundUp_dvd newSize)
  · rw [hend]
    exact hroom.2

/-- An expansion that cannot be completed moves the end of the heap all the
same. -/
theorem PagesOk.heapEnd_ne (h : PagesOk R s) (hsize : newSize < 2 ^ 32)
    (hroom : ¬Completable s newSize)
    (hexpand : Kheap.expandHeap mapPage fuel newSize s = some s') :
    s'.heapEnd ≠ s.heapEnd := by
  obtain ⟨hend, -⟩ := expandHeap_eq hexpand
  have hlt := roundUp_lt hsize
  have hpos : roundUp newSize ≠ 0 := by
    intro hzero
    refine hroom ⟨?_, ?_⟩
    · rw [hzero, Nat.zero_div]
      simp [framesNeeded, pagesFrom, missingTables]
    · rw [hzero]
      exact h.limit
  have hlimit := h.limit
  rw [hend, uint32]
  simp only [kheapMaxAddress] at hlimit
  omega

/-- The blocks of the heap do not matter to its pages. -/
theorem tryBlock_pages (size curr : ℕ) (align : Bool)
    (s : Kheap.State Backing) :
    (tryBlock size align curr s).2.heapEnd = s.heapEnd ∧
      (tryBlock size align curr s).2.backing = s.backing := by
  simp only [tryBlock, takeBlock]
  split_ifs <;> exact ⟨rfl, rfl⟩

theorem kfree_pages (ptr : ℕ) (s : Kheap.State Backing) :
    (kfree ptr s).heapEnd = s.heapEnd ∧ (kfree ptr s).backing = s.backing := by
  simp only [kfree]
  split_ifs <;> exact ⟨rfl, rfl⟩

theorem PagesOk.congr (h : PagesOk R s) (hend : s'.heapEnd = s.heapEnd)
    (hbacking : s'.backing = s.backing) : PagesOk R s' := by
  obtain ⟨hok, hpages, haligned, hlimit⟩ := h
  rw [← hbacking] at hok
  rw [← hend, ← hbacking] at hpages
  rw [← hend] at haligned hlimit
  exact ⟨hok, hpages, haligned, hlimit⟩

theorem PagesOk.noteSum (h : PagesOk R s) (n : ℕ) : PagesOk R (s.noteSum n) :=
  h.congr rfl rfl

/-- A step that is no expansion, or an expansion that can be completed. -/
theorem HeapStep.pagesOk (hstep : HeapStep c c') (h : PagesOk R c.heap)
    (hR : Usable R) (hcompletes : Completes c) : PagesOk R c'.heap := by
  cases hstep with
  | call => exact h
  | free s ptr => exact h.congr (kfree_pages ptr s).1 (kfree_pages ptr s).2
  | @next s s' size curr align hcurr htry =>
      have hpages := tryBlock_pages size curr align s
      rw [htry] at hpages
      exact h.congr hpages.1 hpages.2
  | @take s s' size curr ptr align hcurr htry =>
      have hpages := tryBlock_pages size curr align s
      rw [htry] at hpages
      exact h.congr hpages.1 hpages.2
  | @expand s s' size fuel align hexpand =>
      exact (h.noteSum _).expandHeap hR (hcompletes _ rfl rfl) hexpand

theorem HeapStep.heapEnd_eq {size : ℕ} {align : Bool}
    (hstep : HeapStep ⟨s, some ⟨size, align, 0⟩⟩ c) :
    c.heap.heapEnd =
      uint32 (s.heapEnd + roundUp (uint32 (expandSize size align))) := by
  cases hstep with
  | next hcurr _ | take hcurr _ => exact absurd rfl hcurr
  | expand hexpand => exact (expandHeap_eq hexpand).1

/-- What is asked of a step of the heap: it leaves every page backed, and an
expansion that cannot be completed changes nothing. -/
def StepBacked (c c' : HeapConfig) : Prop :=
  HeapBacked c'.heap ∧ (¬Completes c →
    c'.heap.heapEnd = c.heap.heapEnd ∧ links c'.heap.mem = links c.heap.mem)

theorem HeapStep.stepBacked_iff (hstep : HeapStep c c')
    (h : PagesOk R c.heap) (hR : Usable R) :
    StepBacked c c' ↔ Completes c := by
  constructor
  · rintro ⟨-, hkeep⟩
    by_contra hnot
    obtain ⟨hend, -⟩ := hkeep hnot
    cases hstep with
    | call | free =>
        exact hnot fun r hr => by cases hr
    | next hcurr _ | take hcurr _ =>
        refine hnot fun r hr hzero => ?_
        cases hr
        exact absurd hzero hcurr
    | @expand s s' size fuel align hexpand =>
        refine (h.noteSum _).heapEnd_ne (Nat.mod_lt _ (by norm_num)) ?_
          hexpand hend
        intro hroom
        refine hnot fun r hr _ => ?_
        cases hr
        exact hroom
  · intro hcompletes
    exact ⟨(hstep.pagesOk h hR hcompletes).backed,
      fun hnot => absurd hcompletes hnot⟩

end Expansions

theorem pagesOk_bringUp {R : Set ℕ} {vbe : VbeModeInfo}
    {s : Kheap.State Backing} (hok : s.backing.frames.Ok R) (hR : Usable R)
    (hroom : Room vbe s.backing) : PagesOk R (bringUp vbe s) := by
  obtain ⟨hgrown, hpages⟩ := grown_bringUp hok hR hroom
  refine ⟨hgrown.ok, hpages, ?_, ?_⟩
  · norm_num [bringUp, kheapInit, pageSize, kheapStart, kheapInitialSize]
  · norm_num [bringUp, kheapInit, kheapStart, kheapInitialSize,
      kheapMaxAddress]

/-! ## Runs -/

section Runs

variable {p : Pmm.State} {live : Set Dyadic.Block}

/-- In every run from bring-up whose expansions can all be completed, the heap
is backed in every state; and the next step keeps it so, or leaves it alone
when it cannot be completed, exactly if it is no expansion that cannot be
completed. -/
theorem run_stepBacked (s₀ : Pmm.State) (memSize metadataStart : ℕ)
    (regions : List (ℕ × ℕ)) (hregions : Pmm.ManagedRegions memSize regions)
    (hzero : 0 ∉ Pmm.managedPages regions)
    (hpmm : ReflTransGen Pmm.Step
      (Pmm.boot s₀ memSize metadataStart regions, ∅) (p, live))
    {s : Kheap.State Backing} (hframes : s.backing.frames = ⟨p, []⟩)
    {vbe : VbeModeInfo} (hroom : Room vbe s.backing) {c : HeapConfig}
    (hrun : ReflTransGen (fun c c' => Completes c ∧ HeapStep c c')
      ⟨bringUp vbe s, none⟩ c) :
    HeapBacked c.heap ∧
      ∀ c', HeapStep c c' → (StepBacked c c' ↔ Completes c) := by
  have hR := usable_managedPages hregions hzero
  have hok : s.backing.frames.Ok (Pmm.managedPages regions) :=
    hframes ▸ frames_ok_of_run hregions hpmm
  have hpages : PagesOk (Pmm.managedPages regions) c.heap := by
    induction hrun with
    | refl => exact pagesOk_bringUp hok hR hroom
    | tail _ hstep ih => exact hstep.2.pagesOk ih hR hstep.1
  exact ⟨hpages.backed, fun c' hstep => hstep.stepBacked_iff hpages hR⟩

end Runs

/-! ## Memories of one region -/

section Region

variable {n memSize : ℕ}

theorem managedRegions_single (hn : 256 + n ≤ memSize / 4096)
    (hsize : memSize < 2 ^ 32) :
    Pmm.ManagedRegions memSize [(0x100000, n * 4096)] := by
  refine ⟨hsize, ?_, ?_, List.pairwise_singleton _ _⟩
  · simp only [List.mem_singleton, forall_eq, Pmm.pageSize]
    omega
  · simp only [List.mem_singleton, forall_eq]
    omega

theorem managedPages_single :
    Pmm.managedPages [(0x100000, n * 4096)] = Set.Ico 256 (256 + n) := by
  have hend : (0x100000 + n * 4096) / 4096 = 256 + n := by omega
  simp [Pmm.managedPages, Pmm.regionPages, Pmm.pageSize, hend]

theorem ncard_free_single
    (hregions : Pmm.ManagedRegions memSize [(0x100000, n * 4096)]) :
    (Frames.mk (Pmm.boot Pmm.blankState memSize 0
      [(0x100000, n * 4096)]) []).free.ncard = n := by
  have hall := (Pmm.owns_boot Pmm.blankState 0 hregions).freePages_eq
  rw [managedPages_single, Pmm.livePages, Set.biUnion_empty,
    Set.sdiff_empty] at hall
  change (Pmm.freePages _).ncard = n
  rw [hall, ← Finset.coe_Ico, Set.ncard_coe_finset, Nat.card_Ico,
    Nat.add_sub_cancel_left]

end Region

/-! ## A small memory -/

/-- Three hundred pages from `1 MiB` on. -/
def smallRegion : ℕ × ℕ := (0x100000, 0x12C000)

def smallPmm : Pmm.State := Pmm.boot Pmm.blankState 0x400000 0 [smallRegion]

def smallState : Kheap.State Backing := beforeBringUp ⟨smallPmm, []⟩

theorem managedRegions_small : Pmm.ManagedRegions 0x400000 [smallRegion] :=
  managedRegions_single (n := 300) (by norm_num) (by norm_num)

theorem managedPages_small :
    Pmm.managedPages [smallRegion] = Set.Ico 256 556 :=
  managedPages_single (n := 300)

theorem zero_notMem_small : 0 ∉ Pmm.managedPages [smallRegion] := by
  rw [managedPages_small]
  simp

theorem usable_small : Usable (Pmm.managedPages [smallRegion]) :=
  usable_managedPages managedRegions_small zero_notMem_small

theorem frames_ok_small :
    smallState.backing.frames.Ok (Pmm.managedPages [smallRegion]) :=
  frames_ok_of_run managedRegions_small ReflTransGen.refl

theorem ncard_free_small : smallState.backing.frames.free.ncard = 300 :=
  ncard_free_single (n := 300) managedRegions_small

theorem room_small : Room xgaMode smallState.backing :=
  room_xgaMode frames_ok_small usable_small
    (by rw [ncard_free_small]; norm_num)

/-- The heap is the one hole that `kheap_init` makes. -/
structure OneHole (s : Kheap.State Backing) : Prop where
  start : s.heapStart = kheapStart
  header_eq : header s.mem kheapStart =
    ⟨kheapMagic, 1, kheapInitialSize - headerSize, 0, 0⟩

theorem oneHole_bringUp (vbe : VbeModeInfo) (s : Kheap.State Backing) :
    OneHole (bringUp vbe s) :=
  ⟨rfl, (heapOk_kheapInit mapPage _).spells.linked.1⟩

/-- The one hole is too small for more than its own size. -/
theorem OneHole.tryBlock_eq {s : Kheap.State Backing} (h : OneHole s)
    {size : ℕ} (hle : kheapInitialSize ≤ size) (hlt : size < 2 ^ 32) :
    tryBlock size false kheapStart s = (none, s.noteSum size) := by
  have hpadding : sub32 (adjustedAddr false (uint32 (kheapStart + headerSize)))
      (uint32 (kheapStart + headerSize)) = 0 := by
    decide +kernel
  have hsmall : kheapInitialSize - headerSize < uint32 (0 + size) := by
    rw [Nat.zero_add, uint32_eq_of_lt hlt]
    exact (Nat.sub_lt (by decide) (by decide)).trans_le hle
  simp only [tryBlock, h.header_eq, hpadding]
  rw [if_neg one_ne_zero, if_pos hsmall, Nat.zero_add]

/-- With a single header the walk to the last one ends at once. -/
theorem exists_expandHeap {s : Kheap.State Backing}
    (hnext : (header s.mem s.heapStart).next = 0) (newSize : ℕ) :
    ∃ s', expandHeap mapPage 1 newSize s = some s' := by
  have hby : ∀ (t : Kheap.State Backing) (n : ℕ), t.mem = s.mem →
      t.heapStart = s.heapStart → ∃ s', expandBy mapPage 1 n t = some s' := by
    intro t n hmem hstart
    have hlast : Chain.lastFrom (links t.mem).next 1 t.heapStart =
        some t.heapStart := by
      simp [Chain.lastFrom, links, hmem, hstart, hnext, pointer]
    simp only [expandBy, State.mem_noteSum]
    rw [show (t.noteSum (t.heapEnd + n)).heapStart = t.heapStart from rfl,
      hlast]
    exact ⟨_, rfl⟩
  rw [expandHeap]
  split_ifs
  · exact hby _ _ rfl rfl
  · exact hby _ _ rfl rfl

/-- A request for more than that looks at the one hole, and then the heap is
expanded. -/
theorem OneHole.steps {s : Kheap.State Backing} (h : OneHole s) {size : ℕ}
    (hle : kheapInitialSize ≤ size) (hlt : size < 2 ^ 32) :
    HeapStep ⟨s, none⟩ ⟨s, some ⟨size, false, kheapStart⟩⟩ ∧
      HeapStep ⟨s, some ⟨size, false, kheapStart⟩⟩
        ⟨s.noteSum size, some ⟨size, false, 0⟩⟩ ∧
      ∃ c', HeapStep ⟨s.noteSum size, some ⟨size, false, 0⟩⟩ c' := by
  have hcall := HeapStep.call s size false
  have hlook := HeapStep.next (by norm_num [kheapStart])
    (h.tryBlock_eq hle hlt)
  rw [Kheap.State.mem_noteSum, h.header_eq] at hlook
  rw [h.start] at hcall
  have hnext : (header s.mem s.heapStart).next = 0 := by
    rw [h.start, h.header_eq]
  obtain ⟨s', hexpand⟩ := exists_expandHeap
    (s := (s.noteSum size).noteSum (expandSize size false)) hnext
    (uint32 (expandSize size false))
  exact ⟨hcall, hlook, _, HeapStep.expand hexpand⟩

/-- Three hundred pages are not enough for that expansion. -/
theorem OneHole.exists_not_stepBacked {s : Kheap.State Backing}
    (h : OneHole s) (hpages : PagesOk (Set.Ico 256 556) s)
    (hR : Usable (Set.Ico 256 556)) :
    ∃ c c', ReflTransGen HeapStep ⟨s, none⟩ c ∧ HeapStep c c' ∧
      ¬StepBacked c c' := by
  obtain ⟨hcall, hlook, c', hstep⟩ := @OneHole.steps s h 0x200000
    (by norm_num [kheapInitialSize]) (by norm_num)
  have hnote := hpages.noteSum 0x200000
  refine ⟨_, c', (ReflTransGen.single hcall).tail hlook, hstep, ?_⟩
  rw [hstep.stepBacked_iff hnote hR]
  intro hcompletes
  have hneed := (hcompletes _ rfl rfl).1
  have hfree : s.backing.frames.free.ncard ≤ 300 := by
    have hcard := Set.ncard_le_ncard hpages.backing.frames.free_subset
      (Set.finite_Ico _ _)
    rwa [← Finset.coe_Ico, Set.ncard_coe_finset, Nat.card_Ico] at hcard
  have hcount : roundUp (uint32 (expandSize 0x200000 false)) / pageSize =
      513 := by
    decide +kernel
  have htotal := hneed.trans hfree
  rw [hcount] at htotal
  have hle : 513 ≤ 300 := (Nat.le_add_right _ _).trans htotal
  omega

/-- The heap does not stay backed in every run. -/
theorem run_small_not_stepBacked :
    ∃ c c', ReflTransGen HeapStep ⟨bringUp xgaMode smallState, none⟩ c ∧
      HeapStep c c' ∧ ¬StepBacked c c' := by
  refine (oneHole_bringUp xgaMode smallState).exists_not_stepBacked ?_ ?_
  · rw [← managedPages_small]
    exact pagesOk_bringUp frames_ok_small usable_small room_small
  · rw [← managedPages_small]
    exact usable_small

/-! ## A completed expansion -/

/-- Two thousand pages from `1 MiB` on. -/
def largeRegion : ℕ × ℕ := (0x100000, 2000 * 4096)

def largeState : Kheap.State Backing :=
  beforeBringUp ⟨Pmm.boot Pmm.blankState 0x900000 0 [largeRegion], []⟩

theorem managedRegions_large : Pmm.ManagedRegions 0x900000 [largeRegion] :=
  managedRegions_single (n := 2000) (by norm_num) (by norm_num)

theorem zero_notMem_large : 0 ∉ Pmm.managedPages [largeRegion] := by
  have hpages : Pmm.managedPages [largeRegion] = Set.Ico 256 2256 :=
    managedPages_single (n := 2000)
  rw [hpages]
  simp

theorem ncard_free_large : largeState.backing.frames.free.ncard = 2000 :=
  ncard_free_single (n := 2000) managedRegions_large

/-- A request for as many bytes as the first heap has is granted 257 pages. -/
theorem completes_initialSize {s : Kheap.State Backing}
    (hend : s.heapEnd = kheapStart + kheapInitialSize)
    (hfree : 1281 ≤ s.backing.frames.free.ncard) :
    Completes ⟨s, some ⟨kheapInitialSize, false, 0⟩⟩ := by
  rintro r hr -
  obtain rfl := Option.some.inj hr
  have hpages : roundUp (uint32 (expandSize kheapInitialSize false)) =
      257 * pageSize := by
    decide +kernel
  have hvs : ∀ v ∈ pagesFrom (kheapStart + kheapInitialSize) 257,
      v < 2 ^ 32 := fun v hv => by
    refine (mem_pagesFrom hv).2.trans_le ?_
    norm_num [kheapStart, kheapInitialSize, pageSize]
  have htables := card_missingTables_le s.backing hvs
  change Completable s (uint32 (expandSize kheapInitialSize false))
  rw [Completable, hpages, Nat.mul_div_cancel _ (by decide), hend, framesNeeded]
  refine ⟨by omega, ?_⟩
  norm_num [kheapStart, kheapInitialSize, pageSize, kheapMaxAddress]

/-- The heap grows to `0xD0201000`, and all its pages are backed. -/
theorem run_stepBacked_large :
    ∃ c, ReflTransGen (fun c c' => Completes c ∧ HeapStep c c')
        ⟨bringUp xgaMode largeState, none⟩ c ∧
      c.heap.heapEnd = 0xD0201000 ∧ HeapBacked c.heap := by
  have hR := usable_managedPages managedRegions_large zero_notMem_large
  have hok : largeState.backing.frames.Ok (Pmm.managedPages [largeRegion]) :=
    frames_ok_of_run managedRegions_large ReflTransGen.refl
  have hfree : 263 ≤ largeState.backing.frames.free.ncard := by
    rw [ncard_free_large]
    norm_num
  have hleft := ncard_free_le_bringUp hok hR hfree
  rw [ncard_free_large] at hleft
  obtain ⟨hcall, hlook, c, hexpand⟩ :=
    (oneHole_bringUp xgaMode largeState).steps (le_refl kheapInitialSize)
      (by norm_num [kheapInitialSize])
  have hcalls : Completes ⟨bringUp xgaMode largeState, none⟩ := fun r hr => by
    cases hr
  have hlooks : Completes ⟨bringUp xgaMode largeState,
      some ⟨kheapInitialSize, false, kheapStart⟩⟩ := by
    intro r hr hzero
    obtain rfl := Option.some.inj hr
    cases hzero
  have hroom := @completes_initialSize
    ((bringUp xgaMode largeState).noteSum kheapInitialSize) rfl
    (by change 1281 ≤ (bringUp xgaMode largeState).backing.frames.free.ncard
        omega)
  have hrun : ReflTransGen (fun c c' => Completes c ∧ HeapStep c c')
      ⟨bringUp xgaMode largeState, none⟩ c :=
    ((ReflTransGen.single ⟨hcalls, hcall⟩).tail ⟨hlooks, hlook⟩).tail
      ⟨hroom, hexpand⟩
  have hbacked := run_stepBacked Pmm.blankState 0x900000 0 [largeRegion]
    managedRegions_large zero_notMem_large ReflTransGen.refl
    (s := largeState) rfl (room_xgaMode hok hR hfree) hrun
  refine ⟨c, hrun, ?_, hbacked.1⟩
  rw [hexpand.heapEnd_eq]
  decide +kernel

end BabOs.Mm
