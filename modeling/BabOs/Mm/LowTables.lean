import BabOs.Mm.HeapPages
import BabOs.Mm.LowFrames

/-!
# Page tables below 8 MiB

`vmm_map_page` clears and writes a page table at its physical address, which
works when the directory in force maps that address to itself.  Both the
directory that `kernel_entry.asm` sets up and the one that `vmm_init` makes do
so for the first 8 MiB only.
-/

namespace BabOs.Mm

open BabOs.Vmm Relation
open BabOs.Kheap hiding pageSize State

/-! ## The directory in force -/

/-- The directory that `cr3` points to: the one of `kernel_entry.asm` until
`vmm_init` ends, and the kernel directory from then on. -/
inductive Directory where
  | boot
  | kernel
  deriving DecidableEq

/-- The entries of the two tables of `kernel_entry.asm`, which stand in the
directory at `0` and `1` and at `PDE_INDEX` and `PDE_INDEX + 1`. -/
def bootEntry (i j : ℕ) : ℕ :=
  if i = 0 ∨ i = 768 then 4096 * j + 3
  else if i = 1 ∨ i = 769 then 4096 * (1024 + j) + 3
  else 0

def walkIn (directory : Directory) (b : Backing) (v : ℕ) : Option (ℕ × ℕ) :=
  match directory with
  | .boot => decode v (bootEntry (pdIndex v) (ptIndex v))
  | .kernel => walk b v

/-- A call of `vmm_map_page` for the address `virtual` in the state
`backing`. -/
structure MapMoment where
  directory : Directory
  backing : Backing
  virtual : ℕ

/-- `pt` in `vmm_map_page`. -/
def tableFrame (b : Backing) (virtual : ℕ) : ℕ :=
  if Present b (pdIndex virtual) then tableOf b (pdIndex virtual)
  else (frameAlloc b.frames).1

/-- Every byte of the table is found at its physical address. -/
def TableReachable (m : MapMoment) : Prop :=
  ∀ o < tableSize, (walkIn m.directory m.backing
    (tableFrame m.backing m.virtual + o)).map Prod.fst =
      some (tableFrame m.backing m.virtual + o)

/-- The call finds a table, or a page below 8 MiB is free for one. -/
def TableAvailable (m : MapMoment) : Prop :=
  Present m.backing (pdIndex m.virtual) ∨ LowFree m.backing.frames

/-! ## The calls of a run -/

/-- The calls of `vmm_init`, in the order in which they are made. -/
def callMoments : Backing → List MapCall → List MapMoment
  | _, [] => []
  | b, c :: calls =>
      ⟨.boot, b, c.virtual⟩ :: callMoments (c.run frameAlloc b) calls

/-- `pmm_alloc_pages(0)` before `vmm_map_page` in the loops of the heap. -/
def takeFrame (b : Backing) : Backing :=
  { b with frames := (frameAlloc b.frames).2 }

@[simp] theorem present_takeFrame (b : Backing) (i : ℕ) :
    Present (takeFrame b) i ↔ Present b i :=
  Iff.rfl

/-- The calls of the loops of `kheap_init` and `expand_heap`. -/
def pageMoments : Backing → List ℕ → List MapMoment
  | _, [] => []
  | b, v :: vs => ⟨.kernel, takeFrame b, v⟩ :: pageMoments (mapPage b v) vs

def bringUpMoments (vbe : VbeModeInfo) (s : Kheap.State Backing) :
    List MapMoment :=
  callMoments (createDirectory frameAlloc s.backing) (vmmInitCalls vbe) ++
    pageMoments (vmmInit vbe s.backing)
      (pageAddresses kheapStart kheapInitialSize)

/-- The calls of the next step, if that is an expansion. -/
def expandMoments (c : HeapConfig) : List MapMoment :=
  match c.call with
  | some r =>
      if r.curr = 0 then
        pageMoments c.heap.backing (pageAddresses c.heap.heapEnd
          (roundUp (uint32 (expandSize r.size r.align))))
      else []
  | none => []

/-- The allocator can satisfy the expansion that comes next, if one does. -/
def Satisfiable (c : HeapConfig) : Prop :=
  ∀ r ∈ c.call, r.curr = 0 →
    framesNeeded c.heap.backing c.heap.heapEnd
        (roundUp (uint32 (expandSize r.size r.align)) / pageSize) ≤
      c.heap.backing.frames.free.ncard

/-- The runs of the kernel from bring-up on, with the calls of `vmm_map_page`
they make. -/
inductive KernelRun (vbe : VbeModeInfo) (s : Kheap.State Backing) :
    List MapMoment → HeapConfig → Prop
  | bringUp : KernelRun vbe s (bringUpMoments vbe s) ⟨Mm.bringUp vbe s, none⟩
  | step {moments : List MapMoment} {c c' : HeapConfig}
      (hrun : KernelRun vbe s moments c) (hsatisfiable : Satisfiable c)
      (hstep : HeapStep c c') :
      KernelRun vbe s (moments ++ expandMoments c) c'

/-! ## Low tables -/

/-- The allocator hands out low frames first, and every table is low. -/
structure LowOk (b : Backing) : Prop where
  backing : BackingOk kmainPages b
  order : LowFirst b.frames
  tables : ∀ t ∈ b.tables, t < lowEnd * pageSize

/-- The kernel directory maps the first 8 MiB to themselves. -/
def Identity (b : Backing) : Prop :=
  ∀ v < lowEnd * pageSize, walk b v = some (v, pageFlags)

section LowTables

variable {b : Backing} {directory : Directory} {virtual physical flags : ℕ}
  {calls : List MapCall} {vs : List ℕ}

theorem walkIn_boot {v : ℕ} (hv : v < lowEnd * pageSize) :
    walkIn .boot b v = some (v, pageFlags) := by
  have hlt : v < 2 ^ 32 := hv.trans (by decide)
  have hentry : bootEntry (pdIndex v) (ptIndex v) =
      pte (v / 4096 * 4096) pageFlags := by
    rw [pte_eq (by omega) (by decide), bootEntry, ptIndex_eq, pdIndex,
      Nat.shiftRight_eq_div_pow]
    have hthree : pageFlags = 3 := rfl
    simp only [lowEnd, pageSize] at hv
    split_ifs <;> omega
  rw [walkIn, hentry, decode_pte (by omega) (by decide) (by decide),
    and_high (by omega), and_low]
  congr 2
  omega

/-- A call that is sure to find a low table keeps all tables low. -/
theorem LowOk.vmmMapPage (h : LowOk b) (hvirtual : virtual < 2 ^ 32)
    (hphysical : physical < 2 ^ 32) (hflags : flags < 0x1000)
    (hpresent : flags &&& pagePresent ≠ 0)
    (havailable : TableAvailable ⟨directory, b, virtual⟩) :
    LowOk (vmmMapPage frameAlloc virtual physical flags b) ∧
      Maps kmainPages b (Vmm.vmmMapPage frameAlloc virtual physical flags b)
        virtual physical flags := by
  have hmaps := h.backing.vmmMapPage usable_kmainPages hvirtual hphysical
    hflags hpresent fun hnot => by
      obtain ⟨p, hp, -⟩ := havailable.resolve_left hnot
      exact ⟨p, hp⟩
  refine ⟨⟨hmaps.ok, ?_, ?_⟩, hmaps⟩
  · by_cases hin : Present b (pdIndex virtual)
    · rw [vmmMapPage_of_present hin]
      exact h.order
    · rw [vmmMapPage_of_absent hin]
      exact (h.order.frameAlloc h.backing.frames).1
  · by_cases hin : Present b (pdIndex virtual)
    · rw [vmmMapPage_of_present hin]
      exact h.tables
    · rw [vmmMapPage_of_absent hin]
      intro t ht
      rcases List.mem_cons.mp ht with rfl | ht
      · exact (h.order.frameAlloc h.backing.frames).2
          (havailable.resolve_left hin)
      · exact h.tables t ht

theorem LowOk.takeFrame (h : LowOk b) : LowOk (takeFrame b) := by
  refine ⟨?_, (h.order.frameAlloc h.backing.frames).1, h.tables⟩
  rcases h.backing.frames.frameAlloc_cases usable_kmainPages with
    ⟨-, hcall⟩ | ⟨page, -, hgrants⟩
  · rw [Mm.takeFrame, hcall]
    exact h.backing
  · exact h.backing.take hgrants

/-- The table of a call with a low table to use is reachable. -/
theorem LowOk.tableReachable (h : LowOk b) (hvirtual : virtual < 2 ^ 32)
    (hidentity : directory = .kernel → Identity b)
    (havailable : TableAvailable ⟨directory, b, virtual⟩) :
    TableReachable ⟨directory, b, virtual⟩ := by
  have hlow : tableFrame b virtual < lowEnd * pageSize ∧
      pageSize ∣ tableFrame b virtual := by
    rw [tableFrame]
    split_ifs with hin
    · have hmem := h.backing.tables.slots _ (pdIndex_lt hvirtual) hin
      exact ⟨h.tables _ hmem, h.backing.tables.table_dvd _ hmem⟩
    · refine ⟨(h.order.frameAlloc h.backing.frames).2
        (havailable.resolve_left hin), ?_⟩
      rcases h.backing.frames.frameAlloc_cases usable_kmainPages with
        ⟨-, hcall⟩ | ⟨page, hcall, -⟩
      · rw [hcall]
        exact dvd_zero _
      · rw [hcall]
        exact dvd_mul_left _ _
  intro o ho
  have hlt : tableFrame b virtual + o < lowEnd * pageSize := by
    simp only [lowEnd, pageSize, tableSize] at hlow ho ⊢
    omega
  cases directory with
  | boot => rw [walkIn_boot hlt, Option.map_some]
  | kernel =>
      change (walk b (tableFrame b virtual + o)).map Prod.fst = _
      rw [hidentity rfl _ hlt, Option.map_some]

/-- A call that maps a low page to itself keeps low pages so. -/
theorem Maps.walk_low {R : Set ℕ} {b' : Backing}
    (hmaps : Maps R b b' virtual physical flags)
    (hsame : virtual < lowEnd * pageSize →
      physical = virtual ∧ flags = pageFlags)
    {v : ℕ} (hv : v < lowEnd * pageSize) :
    Vmm.walk b' v =
      if virtual / pageSize = v / pageSize then some (v, pageFlags)
      else Vmm.walk b v := by
  have hlt : v < 2 ^ 32 := hv.trans (by decide)
  rw [hmaps.walk v hlt]
  split_ifs with hpage
  · have hvirtual : virtual < lowEnd * pageSize := by
      simp only [lowEnd, pageSize] at hv hpage ⊢
      omega
    obtain ⟨rfl, rfl⟩ := hsame hvirtual
    have hphysical : physical < 2 ^ 32 := hvirtual.trans (by decide)
    rw [and_high hphysical, and_low]
    simp only [pageSize] at hpage
    congr 2
    omega
  · rfl

/-- A call that leaves the low pages to the identity. -/
def LowCall (c : MapCall) : Prop :=
  c.virtual < lowEnd * pageSize → c.physical = c.virtual ∧ c.flags = pageFlags

theorem LowOk.mapCalls (h : LowOk b) (hvalid : ∀ c ∈ calls, c.Valid)
    (hlow : ∀ c ∈ calls, LowCall c)
    (havailable : ∀ m ∈ callMoments b calls, TableAvailable m) :
    (∀ m ∈ callMoments b calls, TableReachable m) ∧
      LowOk (mapCalls frameAlloc b calls) ∧
      ∀ v < lowEnd * pageSize,
        (walk b v = some (v, pageFlags) ∨
          ∃ c ∈ calls, c.virtual / pageSize = v / pageSize) →
        walk (mapCalls frameAlloc b calls) v = some (v, pageFlags) := by
  induction calls generalizing b with
  | nil =>
      refine ⟨by simp [callMoments], h, fun v _ hin => ?_⟩
      rcases hin with hin | ⟨c, hc, -⟩
      · exact hin
      · exact absurd hc List.not_mem_nil
  | cons c calls ih =>
      rw [List.forall_mem_cons] at hvalid hlow
      rw [callMoments, List.forall_mem_cons] at havailable ⊢
      obtain ⟨hc, hcalls⟩ := hvalid
      obtain ⟨hstep, hmaps⟩ := h.vmmMapPage hc.virtual_lt hc.physical_lt
        hc.flags_lt hc.present havailable.1
      obtain ⟨hreachable, hok, hwalk⟩ :=
        ih hstep hcalls hlow.2 havailable.2
      refine ⟨⟨?_, hreachable⟩, hok, fun v hv hin => hwalk v hv ?_⟩
      · exact h.tableReachable hc.virtual_lt (fun hboot => by cases hboot)
          havailable.1
      · rw [hmaps.walk_low hlow.1 hv]
        by_cases hpage : c.virtual / pageSize = v / pageSize
        · rw [if_pos hpage]
          exact Or.inl rfl
        · rw [if_neg hpage]
          rcases hin with hin | ⟨d, hd, hdv⟩
          · exact Or.inl hin
          · rcases List.mem_cons.mp hd with rfl | hd
            · exact absurd hdv hpage
            · exact Or.inr ⟨d, hd, hdv⟩

theorem LowOk.mapPages (h : LowOk b) (hidentity : Identity b)
    (hvs : ∀ v ∈ vs, lowEnd * pageSize ≤ v ∧ v < 2 ^ 32)
    (havailable : ∀ m ∈ pageMoments b vs, TableAvailable m) :
    (∀ m ∈ pageMoments b vs, TableReachable m) ∧
      LowOk (vs.foldl mapPage b) ∧ Identity (vs.foldl mapPage b) := by
  induction vs generalizing b with
  | nil => exact ⟨by simp [pageMoments], h, hidentity⟩
  | cons v vs ih =>
      rw [List.forall_mem_cons] at hvs
      rw [pageMoments, List.forall_mem_cons] at havailable ⊢
      have hphysical : (frameAlloc b.frames).1 < 2 ^ 32 := by
        rcases h.backing.frames.frameAlloc_cases usable_kmainPages with
          ⟨-, hcall⟩ | ⟨page, hcall, hgrants⟩
        · rw [hcall]
          exact Nat.two_pow_pos 32
        · have hpage := usable_kmainPages page
            (h.backing.frames.free_subset hgrants.mem)
          rw [hcall, Pmm.pageSize]
          omega
      obtain ⟨hstep, hmaps⟩ := h.takeFrame.vmmMapPage hvs.1.2 hphysical
        (show pageFlags < 0x1000 by decide)
        (show pageFlags &&& pagePresent ≠ 0 by decide) havailable.1
      have hidentity' : Identity (mapPage b v) := by
        intro w hw
        have hpage : ¬v / pageSize = w / pageSize := by
          have hle := hvs.1.1
          simp only [lowEnd, pageSize] at hle hw ⊢
          omega
        refine (hmaps.walk_low (fun hlt => ?_) hw).trans ?_
        · exact absurd hlt (not_lt.mpr hvs.1.1)
        · rw [if_neg hpage]
          exact hidentity w hw
      obtain ⟨hreachable, hrest⟩ := ih hstep hidentity' hvs.2 havailable.2
      exact ⟨⟨h.takeFrame.tableReachable hvs.1.2 (fun _ => hidentity)
        havailable.1, hreachable⟩, hrest⟩

end LowTables

/-! ## High tables -/

/-- No table covers the memory from 8 MiB on. -/
def NoHighTables (b : Backing) : Prop := ∀ i, 2 ≤ i → i < 32 → ¬Present b i

def AboveMemory (vbe : VbeModeInfo) : Prop :=
  ∀ c ∈ framebufferCalls vbe, memEnd * pageSize ≤ c.virtual

section HighTables

variable {b : Backing} {m : MapMoment} {calls : List MapCall} {vs : List ℕ}
  {vbe : VbeModeInfo} {lo start n : ℕ}

/-- A frame that is handed out when no low page is free is out of reach. -/
theorem not_tableReachable (hok : BackingOk kmainPages m.backing)
    (hfree : m.backing.frames.free.Nonempty)
    (hkernel : m.directory = .kernel → NoHighTables m.backing)
    (hnot : ¬TableAvailable m) : ¬TableReachable m := by
  obtain ⟨directory, b, virtual⟩ := m
  dsimp only at hok hfree hkernel
  rw [TableAvailable, not_or] at hnot
  obtain ⟨habsent, hhigh⟩ := hnot
  rcases hok.frames.frameAlloc_cases usable_kmainPages with
    ⟨hempty, -⟩ | ⟨page, hcall, hgrants⟩
  · exact absurd hempty hfree.ne_empty
  have hframe : tableFrame b virtual = page * Pmm.pageSize := by
    rw [tableFrame, if_neg habsent, hcall]
  have hle : lowEnd ≤ page := by
    by_contra hlt
    exact hhigh ⟨page, hgrants.mem, not_le.mp hlt⟩
  have hlt : page < memEnd := (hok.frames.free_subset hgrants.mem).2
  have hindex : 2 ≤ pdIndex (page * Pmm.pageSize) ∧
      pdIndex (page * Pmm.pageSize) < 32 := by
    rw [pdIndex, Nat.shiftRight_eq_div_pow]
    simp only [lowEnd, memEnd, Pmm.pageSize] at hle hlt ⊢
    omega
  have hnone : walkIn directory b (page * Pmm.pageSize) = none := by
    cases directory with
    | boot =>
        have hentry : bootEntry (pdIndex (page * Pmm.pageSize))
            (ptIndex (page * Pmm.pageSize)) = 0 := by
          rw [bootEntry, if_neg (by omega), if_neg (by omega)]
        rw [walkIn, hentry]
        rfl
    | kernel =>
        have habsent' := hkernel rfl _ hindex.1 hindex.2
        rw [walkIn, walk_eq_decode, entry, if_neg habsent']
        rfl
  intro hreachable
  have hfirst := hreachable 0 (by decide)
  dsimp only at hfirst
  rw [hframe, Nat.add_zero, hnone] at hfirst
  cases hfirst

theorem mem_callMoments (hm : m ∈ callMoments b calls) :
    ∃ before c after, calls = before ++ c :: after ∧
      m = ⟨.boot, mapCalls frameAlloc b before, c.virtual⟩ := by
  induction calls generalizing b with
  | nil => simp [callMoments] at hm
  | cons c calls ih =>
      rcases List.mem_cons.mp hm with rfl | hm
      · exact ⟨[], c, calls, rfl, rfl⟩
      · obtain ⟨before, d, after, rfl, rfl⟩ := ih hm
        exact ⟨c :: before, d, after, rfl, rfl⟩

theorem pageMoments_append (b : Backing) (vs ws : List ℕ) :
    pageMoments b (vs ++ ws) =
      pageMoments b vs ++ pageMoments (vs.foldl mapPage b) ws := by
  induction vs generalizing b with
  | nil => rfl
  | cons v vs ih =>
      rw [List.cons_append, pageMoments, pageMoments, ih, List.cons_append,
        List.foldl_cons]

theorem pageMoments_pagesFrom (b : Backing) (start n : ℕ) :
    pageMoments b (pagesFrom start n) = (List.range n).map fun i =>
      ⟨.kernel, takeFrame (mapPages b start i), start + i * pageSize⟩ := by
  induction n with
  | zero => rfl
  | succ n ih =>
      rw [pagesFrom_succ, pageMoments_append, ih, List.range_succ,
        List.map_append]
      rfl

theorem callMoments_exact (h : BackingOk kmainPages b)
    (hvalid : ∀ c ∈ calls, c.Valid)
    (hroom : (missingTables b (calls.map (·.virtual))).card ≤
      b.frames.free.ncard)
    (hm : m ∈ callMoments b calls) (hreachable : TableReachable m) :
    TableAvailable m := by
  by_contra hnot
  obtain ⟨before, c, after, rfl, rfl⟩ := mem_callMoments hm
  have hc : c.Valid := hvalid c (by simp)
  have hneed : (missingTables b
      (before.map (·.virtual) ++ [c.virtual])).card ≤ b.frames.free.ncard := by
    refine le_trans (Finset.card_le_card (missingTables_mono b ?_)) hroom
    simp
  have hsub := missingTables_mono b
    (List.subset_append_left (before.map (·.virtual)) [c.virtual])
  have hgrown := h.mapCalls usable_kmainPages
    (fun d hd => hvalid d (by simp [hd]))
    ((Finset.card_le_card hsub).trans hneed)
  have hone := hgrown.card_missingTables hc.virtual_lt
  have hcount := hgrown.count
  rw [TableAvailable, not_or] at hnot
  rw [if_neg hnot.1] at hone
  refine not_tableReachable hgrown.ok ?_ (fun hkernel => by cases hkernel)
    (not_or.mpr hnot) hreachable
  exact Set.nonempty_of_ncard_ne_zero (by dsimp only; omega)

/-- What the loops of the heap find when they call `vmm_map_page`. -/
theorem PagesMapped.moment (h : PagesMapped lo start b)
    (hok : BackingOk kmainPages b) (halign : pageSize ∣ start)
    (hlt : start + n * pageSize ≤ 2 ^ 32)
    (hroom : framesNeeded b start n ≤ b.frames.free.ncard) {i : ℕ}
    (hi : i < n) :
    BackingOk kmainPages (takeFrame (Mm.mapPages b start i)) ∧
      ((takeFrame (Mm.mapPages b start i)).frames.free.ncard + (i + 1) ≤
          b.frames.free.ncard ∧
        b.frames.free.ncard ≤
          (takeFrame (Mm.mapPages b start i)).frames.free.ncard +
            framesNeeded b start n) ∧
      (¬Present (Mm.mapPages b start i) (pdIndex (start + i * pageSize)) →
        (takeFrame (Mm.mapPages b start i)).frames.free.Nonempty) ∧
      ∀ j < 1024, Present (Mm.mapPages b start i) j ↔
        Present b j ∨ j ∈ (pagesFrom start i).map pdIndex := by
  have hpos : 0 < pageSize := by decide
  have hle : start + (i + 1) * pageSize ≤ 2 ^ 32 :=
    le_trans (Nat.add_le_add_left (Nat.mul_le_mul_right _ hi) _) hlt
  have hneed := (framesNeeded_mono b start (Nat.succ_le_of_lt hi)).trans hroom
  rw [Nat.succ_mul] at hle
  obtain ⟨hgrown, -⟩ := h.mapPages hok usable_kmainPages halign (n := i)
    (by omega) ((framesNeeded_mono b start i.le_succ).trans hneed)
  have hone := hgrown.card_missingTables
    (show start + i * pageSize < 2 ^ 32 by omega)
  have hcount := hgrown.count
  have hmono := framesNeeded_mono b start (Nat.succ_le_of_lt hi)
  rw [framesNeeded, Nat.succ_eq_add_one, pagesFrom_succ] at hneed hmono
  rcases hgrown.ok.frames.frameAlloc_cases usable_kmainPages with
    ⟨hempty, -⟩ | ⟨page, -, hgrants⟩
  · rw [hempty, Set.ncard_empty] at hcount
    omega
  · have htake := hgrants.ncard (hgrown.ok.frames.finite usable_kmainPages)
    have hncard : (takeFrame (Mm.mapPages b start i)).frames.free.ncard =
        (frameAlloc (Mm.mapPages b start i).frames).2.free.ncard := rfl
    refine ⟨hgrown.ok.take hgrants, by omega, fun hnot => ?_, hgrown.present⟩
    rw [if_neg hnot] at hone
    exact Set.nonempty_of_ncard_ne_zero (by omega)

theorem NoHighTables.grown (h : NoHighTables b) {b' : Backing}
    (hpresent : ∀ i < 1024, Present b' i ↔
      Present b i ∨ i ∈ (pagesFrom start n).map pdIndex)
    (hstart : memEnd * pageSize ≤ start) : NoHighTables b' := by
  intro i hle hlt
  rw [hpresent i (by omega)]
  rintro (hold | hnew)
  · exact h i hle hlt hold
  · obtain ⟨v, hv, rfl⟩ := List.mem_map.mp hnew
    have hrange := (mem_pagesFrom hv).1
    rw [pdIndex, Nat.shiftRight_eq_div_pow] at hlt
    simp only [memEnd, pageSize] at hstart
    omega

/-- In the loops of the heap only a low table is reachable. -/
theorem pageMoments_exact (h : PagesMapped lo start b)
    (hok : BackingOk kmainPages b) (halign : pageSize ∣ start)
    (hlt : start + n * pageSize ≤ 2 ^ 32)
    (hroom : framesNeeded b start n ≤ b.frames.free.ncard)
    (hhigh : NoHighTables b) (hstart : memEnd * pageSize ≤ start)
    (hm : m ∈ pageMoments b (pagesFrom start n))
    (hreachable : TableReachable m) : TableAvailable m := by
  by_contra hnot
  rw [pageMoments_pagesFrom] at hm
  obtain ⟨i, hi, rfl⟩ := List.mem_map.mp hm
  rw [List.mem_range] at hi
  obtain ⟨hbacking, -, hfree, hpresent⟩ := h.moment hok halign hlt hroom hi
  have habsent := (not_or.mp hnot).1
  rw [present_takeFrame] at habsent
  have hhigh' : NoHighTables (mapPages b start i) :=
    hhigh.grown hpresent hstart
  refine not_tableReachable ?_ ?_ ?_ hnot hreachable
  · exact hbacking
  · exact hfree habsent
  · exact fun _ => hhigh'

end HighTables

/-! ## Runs -/

section Runs

variable {vbe : VbeModeInfo} {s : Kheap.State Backing} {b : Backing}
  {moments : List MapMoment} {c c' : HeapConfig} {p₀ : Pmm.State}

theorem lowCall_of_mem {d : MapCall} (hd : d ∈ vmmInitCalls vbe) :
    LowCall d := by
  intro hlow
  simp only [vmmInitCalls, List.mem_append] at hd
  rcases hd with (hd | hd) | hd
  · obtain ⟨i, -, rfl⟩ := List.mem_map.mp hd
    exact ⟨rfl, rfl⟩
  · obtain ⟨i, -, rfl⟩ := List.mem_map.mp hd
    simp only [lowEnd, pageSize] at hlow
    omega
  · obtain ⟨i, -, rfl⟩ := List.mem_map.mp hd
    exact ⟨rfl, rfl⟩

theorem exists_lowCall (vbe : VbeModeInfo) {v : ℕ}
    (hv : v < lowEnd * pageSize) :
    ∃ d ∈ vmmInitCalls vbe, d.virtual / pageSize = v / pageSize := by
  have hmem : v / pageSize * pageSize ∈ pageOffsets 0x800000 := by
    rw [mem_pageOffsets_iff]
    refine ⟨dvd_mul_left _ _, ?_⟩
    simp only [lowEnd, pageSize] at hv ⊢
    omega
  refine ⟨⟨v / pageSize * pageSize, v / pageSize * pageSize, pageFlags⟩, ?_,
    Nat.mul_div_cancel _ (by decide)⟩
  simp only [vmmInitCalls, List.mem_append]
  exact Or.inl (Or.inl (List.mem_map_of_mem hmem))

/-- `kmain` hands out enough memory for every framebuffer. -/
theorem room_kmain (hframes : b.frames = kmainFrames p₀) : Room vbe b := by
  obtain ⟨hok, -, hfree⟩ := kmainFrames_ok p₀
  rw [← hframes] at hok hfree
  refine room_of_card hok usable_kmainPages
    (card_missingTables_le _ fun v hv => ?_) ?_
  · obtain ⟨d, hd, rfl⟩ := List.mem_map.mp hv
    exact (valid_of_mem_vmmInitCalls hd).virtual_lt
  · rw [hfree, ncard_kmainPages]
    norm_num

/-- The directory is low, and there are no tables yet. -/
theorem lowOk_createDirectory (hframes : b.frames = kmainFrames p₀) :
    LowOk (createDirectory frameAlloc b) ∧
      ∀ i < 1024, ¬Present (createDirectory frameAlloc b) i := by
  obtain ⟨hok, horder, hall⟩ := kmainFrames_ok p₀
  rw [← hframes] at hok horder hall
  have hfree : b.frames.free.Nonempty := by
    rw [hall]
    exact ⟨1280, by simp [kmainPages, memEnd]⟩
  obtain ⟨hdirectory, -⟩ :=
    backingOk_createDirectory hok usable_kmainPages hfree
  refine ⟨⟨hdirectory, (horder.frameAlloc hok).1, by simp [createDirectory]⟩,
    fun i hi hin => ?_⟩
  have hmem := hdirectory.tables.slots i hi hin
  simp [createDirectory] at hmem

structure RunOk (vbe : VbeModeInfo) (moments : List MapMoment)
    (c : HeapConfig) : Prop where
  pages : PagesOk kmainPages c.heap
  start : kheapStart ≤ c.heap.heapEnd
  count : c.heap.heapEnd + c.heap.backing.frames.free.ncard * pageSize ≤
    kheapStart + 31488 * pageSize
  low : (∀ m ∈ moments, TableAvailable m) →
    (∀ m ∈ moments, TableReachable m) ∧ LowOk c.heap.backing ∧
      Identity c.heap.backing
  exact : AboveMemory vbe →
    (∀ m ∈ moments, TableReachable m → TableAvailable m) ∧
      NoHighTables c.heap.backing

/-- `vmm_init` makes no table for the memory from 8 MiB on. -/
theorem noHighTables_vmmInit (hframes : b.frames = kmainFrames p₀)
    (habove : AboveMemory vbe) : NoHighTables (vmmInit vbe b) := by
  obtain ⟨hok, -, -⟩ := kmainFrames_ok p₀
  rw [← hframes] at hok
  have hroom : Room vbe b := room_kmain hframes
  have hgrown := grown_vmmInit hok usable_kmainPages hroom
  intro i hle hlt
  rw [hgrown.present i (by omega)]
  rintro (hold | hnew)
  · exact (lowOk_createDirectory hframes).2 i (by omega) hold
  · simp only [List.map_map, List.mem_map, Function.comp_apply, pdIndex,
      Nat.shiftRight_eq_div_pow] at hnew
    obtain ⟨d, hd, rfl⟩ := hnew
    simp only [vmmInitCalls, List.mem_append] at hd
    rcases hd with (hd | hd) | hd
    · obtain ⟨j, hj, rfl⟩ := List.mem_map.mp hd
      have hlow := mem_pageOffsets hj
      dsimp only at hle
      omega
    · obtain ⟨j, -, rfl⟩ := List.mem_map.mp hd
      dsimp only at hlt
      omega
    · have hfar := habove d hd
      simp only [memEnd, pageSize] at hfar
      omega

theorem runOk_bringUp (hframes : s.backing.frames = kmainFrames p₀) :
    RunOk vbe (bringUpMoments vbe s) ⟨bringUp vbe s, none⟩ := by
  obtain ⟨hok, -, hfree⟩ := kmainFrames_ok p₀
  rw [← hframes] at hok hfree
  have hroom : Room vbe s.backing := room_kmain hframes
  have hinit := grown_vmmInit hok usable_kmainPages hroom
  have hpages := pagesOk_bringUp hok usable_kmainPages hroom
  obtain ⟨hgrown, -⟩ := grown_bringUp hok usable_kmainPages hroom
  obtain ⟨hdirectory, hone⟩ :=
    backingOk_createDirectory hok usable_kmainPages hroom.directory
  rw [hfree, ncard_kmainPages] at hone
  have hend : (bringUp vbe s).heapEnd = kheapStart + kheapInitialSize := rfl
  have hhigh : memEnd * pageSize ≤ kheapStart := by
    norm_num [memEnd, pageSize, kheapStart]
  refine ⟨hpages, ?_, ?_, fun havailable => ?_, fun habove => ⟨?_, ?_⟩⟩
  · dsimp only
    rw [hend]
    exact Nat.le_add_right _ _
  · have hcount := hgrown.count
    have hcount' := hinit.count
    rw [show kheapInitialSize / pageSize = 256 from rfl] at hcount
    dsimp only
    rw [hend]
    simp only [kheapInitialSize, pageSize]
    omega
  · rw [bringUpMoments, List.forall_mem_append] at havailable ⊢
    obtain ⟨hcalls, hlow, hwalk⟩ := (lowOk_createDirectory hframes).1.mapCalls
      (fun _ hd => valid_of_mem_vmmInitCalls hd)
      (fun _ hd => lowCall_of_mem hd) havailable.1
    have hidentity : Identity (vmmInit vbe s.backing) := fun v hv =>
      hwalk v hv (Or.inr (exists_lowCall vbe hv))
    rw [pageAddresses_eq kheapInitialSize_le] at havailable ⊢
    have hvs : ∀ v ∈ pagesFrom kheapStart (kheapInitialSize / pageSize),
        lowEnd * pageSize ≤ v ∧ v < 2 ^ 32 := by
      intro v hv
      have hrange := mem_pagesFrom hv
      rw [kheapInitialSize_div] at hrange
      refine ⟨le_trans ?_ hrange.1, hrange.2.trans_le kheapInitialSize_le⟩
      norm_num [lowEnd, pageSize, kheapStart]
    obtain ⟨hheap, hrest⟩ := hlow.mapPages hidentity hvs havailable.2
    rw [backing_bringUp]
    exact ⟨⟨hcalls, hheap⟩, hrest⟩
  · rw [bringUpMoments, List.forall_mem_append, pageAddresses_eq kheapInitialSize_le]
    constructor
    · intro m hm
      exact callMoments_exact hdirectory
        (fun _ hd => valid_of_mem_vmmInitCalls hd) hroom.tables hm
    · intro m hm
      refine pageMoments_exact (pagesMapped_nil kheapStart _) hinit.ok ?_ ?_
        hroom.pages (noHighTables_vmmInit hframes habove) hhigh hm
      · norm_num [pageSize, kheapStart]
      · rw [kheapInitialSize_div]
        exact kheapInitialSize_le
  · exact (noHighTables_vmmInit hframes habove).grown hgrown.present hhigh

theorem expandMoments_eq {r : Request} (hcall : c.call = some r)
    (hzero : r.curr = 0) :
    expandMoments c = pageMoments c.heap.backing
      (pageAddresses c.heap.heapEnd
        (roundUp (uint32 (expandSize r.size r.align)))) := by
  rw [expandMoments, hcall]
  exact if_pos hzero

theorem HeapStep.quiet_or_expand (hstep : HeapStep c c') :
    (expandMoments c = [] ∧ c'.heap.heapEnd = c.heap.heapEnd ∧
      c'.heap.backing = c.heap.backing) ∨
    ∃ size align fuel, c.call = some ⟨size, align, 0⟩ ∧
      expandHeap mapPage fuel (uint32 (expandSize size align))
        (c.heap.noteSum (expandSize size align)) = some c'.heap := by
  cases hstep with
  | call => exact Or.inl ⟨rfl, rfl, rfl⟩
  | free s ptr =>
      exact Or.inl ⟨rfl, (kfree_pages ptr s).1, (kfree_pages ptr s).2⟩
  | @next s s' size curr align hcurr htry =>
      have hpages := tryBlock_pages size curr align s
      rw [htry] at hpages
      exact Or.inl ⟨if_neg hcurr, hpages⟩
  | @take s s' size curr ptr align hcurr htry =>
      have hpages := tryBlock_pages size curr align s
      rw [htry] at hpages
      exact Or.inl ⟨if_neg hcurr, hpages⟩
  | @expand s s' size fuel align hexpand =>
      exact Or.inr ⟨size, align, fuel, rfl, hexpand⟩

/-- An expansion that the allocator can satisfy stays below
`KHEAP_MAX_ADDRESS`: the machine has not more memory than that. -/
theorem RunOk.completes (h : RunOk vbe moments c)
    (hsatisfiable : Satisfiable c) : Completes c := by
  intro r hr hzero
  have hroom := hsatisfiable r hr hzero
  refine ⟨hroom, ?_⟩
  have hcancel := Nat.div_mul_cancel
    (roundUp_dvd (uint32 (expandSize r.size r.align)))
  have hle := (Nat.le_add_right _ _).trans hroom
  have hmul := Nat.mul_le_mul_right pageSize hle
  rw [hcancel] at hmul
  have hmax : kheapStart + 31488 * pageSize ≤ kheapMaxAddress := by
    norm_num [kheapStart, pageSize, kheapMaxAddress]
  exact (Nat.add_le_add_left hmul _).trans (h.count.trans hmax)

theorem RunOk.step (h : RunOk vbe moments c) (hsatisfiable : Satisfiable c)
    (hstep : HeapStep c c') : RunOk vbe (moments ++ expandMoments c) c' := by
  have hcompletes := h.completes hsatisfiable
  have hpages := hstep.pagesOk h.pages usable_kmainPages hcompletes
  rcases hstep.quiet_or_expand with
    ⟨hnone, hend, hbacking⟩ | ⟨size, align, fuel, hcall, hexpand⟩
  · rw [hnone, List.append_nil]
    refine ⟨hpages, ?_, ?_, ?_, ?_⟩
    · rw [hend]
      exact h.start
    · rw [hend, hbacking]
      exact h.count
    · rw [hbacking]
      exact h.low
    · rw [hbacking]
      exact h.exact
  · have hroom := hcompletes _ hcall rfl
    obtain ⟨hend, hgrown, -⟩ :=
      (h.pages.noteSum _).grown usable_kmainPages hroom hexpand
    change c'.heap.heapEnd =
      c.heap.heapEnd + roundUp (uint32 (expandSize size align)) at hend
    change framesNeeded c.heap.backing c.heap.heapEnd _ ≤ _ ∧
      c.heap.heapEnd + roundUp (uint32 (expandSize size align)) ≤
        kheapMaxAddress at hroom
    have hmoments := expandMoments_eq hcall rfl
    have hbacking := (expandHeap_eq hexpand).2
    have hcancel := Nat.div_mul_cancel
      (roundUp_dvd (uint32 (expandSize size align)))
    generalize roundUp (uint32 (expandSize size align)) = n at *
    have hlt : c.heap.heapEnd + n ≤ 2 ^ 32 :=
      hroom.2.trans (by norm_num [kheapMaxAddress])
    have hhigh : memEnd * pageSize ≤ c.heap.heapEnd :=
      le_trans (by norm_num [memEnd, pageSize, kheapStart]) h.start
    have hfold : c'.heap.backing =
        (pagesFrom c.heap.heapEnd (n / pageSize)).foldl mapPage
          c.heap.backing :=
      hbacking.trans (mapRange_eq _ hlt)
    rw [hmoments, pageAddresses_eq hlt]
    refine ⟨hpages, ?_, ?_, fun havailable => ?_, fun habove => ?_⟩
    · rw [hend]
      exact h.start.trans (Nat.le_add_right _ _)
    · have hcount : c'.heap.backing.frames.free.ncard + n / pageSize ≤
          c.heap.backing.frames.free.ncard :=
        le_trans (Nat.le_add_right _ _) hgrown.count.le
      have hmul := Nat.mul_le_mul_right pageSize hcount
      rw [Nat.add_mul, hcancel] at hmul
      have htotal := h.count
      rw [hend]
      omega
    · rw [List.forall_mem_append] at havailable ⊢
      obtain ⟨hold, hlow, hidentity⟩ := h.low havailable.1
      have hvs : ∀ v ∈ pagesFrom c.heap.heapEnd (n / pageSize),
          lowEnd * pageSize ≤ v ∧ v < 2 ^ 32 := by
        intro v hv
        have hrange := mem_pagesFrom hv
        rw [hcancel] at hrange
        refine ⟨le_trans ?_ (hhigh.trans hrange.1), hrange.2.trans_le hlt⟩
        norm_num [lowEnd, memEnd, pageSize]
      obtain ⟨hnew, hrest⟩ := hlow.mapPages hidentity hvs havailable.2
      rw [hfold]
      exact ⟨⟨hold, hnew⟩, hrest⟩
    · obtain ⟨hold, hnone⟩ := h.exact habove
      rw [List.forall_mem_append]
      refine ⟨⟨hold, fun m hm => ?_⟩, hnone.grown hgrown.present hhigh⟩
      refine pageMoments_exact h.pages.pages h.pages.backing h.pages.aligned
        ?_ hroom.1 hnone hhigh hm
      rw [hcancel]
      exact hlt

/-- In every run of the kernel: if each call of `vmm_map_page` finds a table
or a free page below 8 MiB, then each table that is cleared or written is
mapped to itself by the directory in force.  With the framebuffer above the
memory, only such calls reach their tables. -/
theorem run_tablesReachable (hframes : s.backing.frames = kmainFrames p₀)
    (hrun : KernelRun vbe s moments c) :
    ((∀ m ∈ moments, TableAvailable m) → ∀ m ∈ moments, TableReachable m) ∧
      (AboveMemory vbe →
        ∀ m ∈ moments, TableReachable m → TableAvailable m) := by
  have hok : RunOk vbe moments c := by
    induction hrun with
    | bringUp => exact runOk_bringUp hframes
    | step _ hsatisfiable hstep ih => exact ih.step hsatisfiable hstep
  exact ⟨fun havailable => (hok.low havailable).1,
    fun habove => (hok.exact habove).1⟩

end Runs

/-! ## An ordinary machine -/

def kmainState : Kheap.State Backing :=
  beforeBringUp (kmainFrames Pmm.blankState)

theorem frames_kmainState :
    kmainState.backing.frames = kmainFrames Pmm.blankState :=
  rfl

section OrdinaryMachine

variable {b : Backing} {m : MapMoment}

theorem aboveMemory_xgaMode : AboveMemory xgaMode := by
  intro c hc
  obtain ⟨i, hi, rfl⟩ := List.mem_map.mp hc
  have hsize : uint32 (xgaMode.height * xgaMode.pitch) = 0x300000 := by
    decide +kernel
  have hlt := mem_pageOffsets hi
  rw [hsize] at hlt
  have hadd : uint32 (xgaMode.framebuffer + i) = 0xFD000000 + i :=
    uint32_eq_of_lt (by simp only [xgaMode]; omega)
  dsimp only
  rw [hadd]
  simp only [memEnd, pageSize]
  omega

theorem ncard_free_bringUp :
    (vmmInit xgaMode kmainState.backing).frames.free.ncard ≤ 31487 ∧
      31482 ≤ (vmmInit xgaMode kmainState.backing).frames.free.ncard ∧
      (bringUp xgaMode kmainState).backing.frames.free.ncard ≤ 31231 ∧
      31225 ≤ (bringUp xgaMode kmainState).backing.frames.free.ncard := by
  obtain ⟨hok, -, hfree⟩ := kmainFrames_ok Pmm.blankState
  have hroom : Room xgaMode kmainState.backing :=
    room_kmain frames_kmainState
  have hinit := (grown_vmmInit hok usable_kmainPages hroom).count
  have hheap := (grown_bringUp hok usable_kmainPages hroom).1.count
  have hone :=
    (backingOk_createDirectory hok usable_kmainPages hroom.directory).2
  have htables := card_missingTables_xgaMode
    (createDirectory frameAlloc kmainState.backing)
  have hneeded := framesNeeded_initial (vmmInit xgaMode kmainState.backing)
  have hncard : kmainState.backing.frames.free.ncard = 31488 := by
    change (kmainFrames Pmm.blankState).free.ncard = 31488
    rw [hfree, ncard_kmainPages]
  rw [framesNeeded] at hneeded
  rw [show kheapInitialSize / pageSize = 256 from rfl] at hneeded hheap
  omega

theorem tableAvailable_bringUp (hm : m ∈ bringUpMoments xgaMode kmainState) :
    TableAvailable m := by
  obtain ⟨hok, -, hfree⟩ := kmainFrames_ok Pmm.blankState
  obtain ⟨hfew, hmany, -, -⟩ := ncard_free_bringUp
  have hroom : Room xgaMode kmainState.backing :=
    room_kmain frames_kmainState
  have hinit := (grown_vmmInit hok usable_kmainPages hroom)
  have hdirectory :=
    (backingOk_createDirectory hok usable_kmainPages hroom.directory).1
  rw [bringUpMoments, pageAddresses_eq kheapInitialSize_le,
    List.mem_append] at hm
  rcases hm with hm | hm
  · obtain ⟨before, c, after, hcalls, rfl⟩ := mem_callMoments hm
    have hvalid : ∀ d ∈ before, d.Valid := fun d hd =>
      valid_of_mem_vmmInitCalls (by rw [hcalls]; simp [hd])
    have hsub := missingTables_mono (createDirectory frameAlloc
      kmainState.backing) (List.map_subset (·.virtual)
        (hcalls ▸ List.subset_append_left before (c :: after)))
    have hcard := Finset.card_le_card hsub
    have htables := card_missingTables_xgaMode
      (createDirectory frameAlloc kmainState.backing)
    have hcount' := hinit.count
    have hgrown := hdirectory.mapCalls usable_kmainPages hvalid (by omega)
    have hcount := hgrown.count
    have hlow := lowFree_of_ncard hgrown.ok.frames (by omega)
    exact Or.inr hlow
  · rw [pageMoments_pagesFrom] at hm
    obtain ⟨i, hi, rfl⟩ := List.mem_map.mp hm
    rw [List.mem_range] at hi
    obtain ⟨hbacking, ⟨-, hle⟩, -⟩ :=
      (pagesMapped_nil kheapStart _).moment hinit.ok
        (by norm_num [pageSize, kheapStart])
        (by rw [kheapInitialSize_div]; exact kheapInitialSize_le)
        hroom.pages hi
    have hneeded := framesNeeded_initial (vmmInit xgaMode kmainState.backing)
    have hlow := lowFree_of_ncard hbacking.frames (by omega)
    exact Or.inr hlow

end OrdinaryMachine

/-- Bring-up reaches all its tables. -/
theorem run_tablesReachable_bringUp :
    {m | m ∈ bringUpMoments xgaMode kmainState} ⊆ {m | TableReachable m} := by
  have hreachable :=
    (run_tablesReachable frames_kmainState KernelRun.bringUp).1
      fun _ hm => tableAvailable_bringUp hm
  intro m hm
  rw [Set.mem_ofPred_eq] at hm ⊢
  exact hreachable m hm

/-! ## A large request -/

section LargeRequest

variable {b : Backing} {virtual physical flags : ℕ} {vs : List ℕ}
  {calls : List MapCall}

theorem ordered_vmmMapPage (h : Ordered b.frames) :
    Ordered (vmmMapPage frameAlloc virtual physical flags b).frames := by
  by_cases hin : Present b (pdIndex virtual)
  · rw [vmmMapPage_of_present hin]
    exact h
  · rw [vmmMapPage_of_absent hin]
    exact h.frameAlloc usable_kmainPages

theorem ordered_mapCalls (h : Ordered b.frames) :
    Ordered (mapCalls frameAlloc b calls).frames := by
  induction calls generalizing b with
  | nil => exact h
  | cons c calls ih => exact ih (ordered_vmmMapPage h)

theorem ordered_mapPages (h : Ordered b.frames) :
    Ordered (vs.foldl mapPage b).frames := by
  induction vs generalizing b with
  | nil => exact h
  | cons v vs ih =>
      have htake : Ordered (takeFrame b).frames :=
        h.frameAlloc usable_kmainPages
      exact ih (ordered_vmmMapPage htake)

theorem ordered_bringUp :
    Ordered (bringUp xgaMode kmainState).backing.frames := by
  obtain ⟨hok, hlow, -⟩ := kmainFrames_ok Pmm.blankState
  have hdirectory : Ordered
      (createDirectory frameAlloc kmainState.backing).frames :=
    Ordered.frameAlloc ⟨hok, hlow⟩ usable_kmainPages
  rw [backing_bringUp]
  exact ordered_mapPages (ordered_mapCalls hdirectory)

/-- The second table of the heap is not among those of bring-up. -/
theorem not_present_bringUp :
    ¬Present (bringUp xgaMode kmainState).backing 833 := by
  obtain ⟨hok, -, -⟩ := kmainFrames_ok Pmm.blankState
  have hroom : Room xgaMode kmainState.backing :=
    room_kmain frames_kmainState
  have hinit := grown_vmmInit hok usable_kmainPages hroom
  obtain ⟨hgrown, -⟩ := grown_bringUp hok usable_kmainPages hroom
  rw [hgrown.present 833 (by norm_num), hinit.present 833 (by norm_num)]
  rintro ((hold | hinit) | hheap)
  · exact (lowOk_createDirectory frames_kmainState).2 833
      (by norm_num) hold
  · obtain ⟨v, hv, heq⟩ := List.mem_map.mp hinit
    have hmem := pdIndex_mem_xgaSlots (by simp [xgaMode]) (by simp [xgaMode]) hv
    rw [heq] at hmem
    exact absurd hmem (by decide)
  · obtain ⟨v, hv, heq⟩ := List.mem_map.mp hheap
    have hrange := mem_pagesFrom hv
    rw [kheapInitialSize_div] at hrange
    rw [pdIndex, Nat.shiftRight_eq_div_pow] at heq
    simp only [kheapStart, kheapInitialSize] at hrange
    omega

theorem room_largeRequest {s : Kheap.State Backing}
    (hmany : 31225 ≤ s.backing.frames.free.ncard)
    (hend : s.heapEnd = kheapStart + kheapInitialSize) :
    framesNeeded s.backing s.heapEnd
        (roundUp (uint32 (expandSize 0x400000 false)) / pageSize) ≤
      s.backing.frames.free.ncard := by
  have hpages : roundUp (uint32 (expandSize 0x400000 false)) / pageSize =
      1025 := by
    decide +kernel
  have hvs : ∀ v ∈ pagesFrom s.heapEnd 1025, v < 2 ^ 32 := by
    intro v hv
    have hrange := mem_pagesFrom hv
    rw [hend] at hrange
    refine hrange.2.trans_le ?_
    norm_num [kheapStart, kheapInitialSize, pageSize]
  have htables := card_missingTables_le s.backing hvs
  rw [hpages, framesNeeded]
  omega

theorem satisfiable_largeRequest {s : Kheap.State Backing}
    (hmany : 31225 ≤ s.backing.frames.free.ncard)
    (hend : s.heapEnd = kheapStart + kheapInitialSize) :
    Satisfiable ⟨s.noteSum 0x400000, some ⟨0x400000, false, 0⟩⟩ := by
  have hroom := room_largeRequest hmany hend
  intro r hr _
  cases hr
  exact hroom

/-- A table that the loop makes when the low frames are gone is out of
reach. -/
theorem PagesMapped.not_tableReachable {lo start n i : ℕ}
    (h : PagesMapped lo start b) (hok : BackingOk kmainPages b)
    (hordered : Ordered b.frames) (halign : pageSize ∣ start)
    (hlt : start + n * pageSize ≤ 2 ^ 32)
    (hroom : framesNeeded b start n ≤ b.frames.free.ncard) (hi : i < n)
    (hhigh : NoHighTables b) (hstart : memEnd * pageSize ≤ start)
    (habsent : ¬Present b (pdIndex (start + i * pageSize)))
    (hnew : pdIndex (start + i * pageSize) ∉ (pagesFrom start i).map pdIndex)
    (hfew : b.frames.free.ncard ≤ 30720 + i) :
    ¬TableReachable
      ⟨.kernel, takeFrame (Mm.mapPages b start i), start + i * pageSize⟩ := by
  obtain ⟨hbacking, ⟨hle, -⟩, hfree, hpresent⟩ :=
    h.moment hok halign hlt hroom hi
  have hvirtual : start + i * pageSize < 2 ^ 32 :=
    (Nat.add_lt_add_left (Nat.mul_lt_mul_of_pos_right hi (by decide))
      start).trans_le hlt
  have habsent' : ¬Present (Mm.mapPages b start i)
      (pdIndex (start + i * pageSize)) := by
    rw [hpresent _ (pdIndex_lt hvirtual)]
    exact not_or.mpr ⟨habsent, hnew⟩
  have hlow : ¬LowFree (takeFrame (Mm.mapPages b start i)).frames := by
    have horder : Ordered (takeFrame (Mm.mapPages b start i)).frames :=
      (ordered_mapPages hordered).frameAlloc usable_kmainPages
    exact horder.low.not_lowFree hbacking.frames (by omega)
  refine Mm.not_tableReachable ?_ ?_ ?_ (not_or.mpr ⟨habsent', hlow⟩)
  · exact hbacking
  · exact hfree habsent'
  · exact fun _ => hhigh.grown hpresent hstart

/-- Four mebibytes need a second table for the heap, and by the time it is
made every low frame is gone. -/
theorem exists_not_tableReachable {s : Kheap.State Backing}
    (hpages : PagesOk kmainPages s) (hordered : Ordered s.backing.frames)
    (hend : s.heapEnd = kheapStart + kheapInitialSize)
    (habsent : ¬Present s.backing 833) (hhigh : NoHighTables s.backing)
    (hfew : s.backing.frames.free.ncard ≤ 31231)
    (hmany : 31225 ≤ s.backing.frames.free.ncard) :
    ∃ m ∈ expandMoments ⟨s.noteSum 0x400000, some ⟨0x400000, false, 0⟩⟩,
      ¬TableReachable m := by
  have hroom := room_largeRequest hmany hend
  have hmoments := expandMoments_eq
    (c := ⟨s.noteSum 0x400000, some ⟨0x400000, false, 0⟩⟩) rfl rfl
  have hsize : roundUp (uint32 (expandSize 0x400000 false)) =
      1025 * pageSize := by
    decide +kernel
  have hlt : s.heapEnd + 1025 * pageSize ≤ 2 ^ 32 := by
    rw [hend]
    norm_num [kheapStart, kheapInitialSize, pageSize]
  have hstart : memEnd * pageSize ≤ s.heapEnd := by
    rw [hend]
    norm_num [memEnd, pageSize, kheapStart, kheapInitialSize]
  have hindex : pdIndex (s.heapEnd + 768 * pageSize) = 833 := by
    rw [hend]
    decide +kernel
  rw [hsize, Nat.mul_div_cancel _ (by decide)] at hroom
  rw [hsize] at hmoments
  change expandMoments _ = pageMoments s.backing
    (pageAddresses s.heapEnd (1025 * pageSize)) at hmoments
  rw [hmoments, pageAddresses_eq hlt, Nat.mul_div_cancel _ (by decide),
    pageMoments_pagesFrom]
  refine ⟨_, List.mem_map.mpr ⟨768, List.mem_range.mpr (by norm_num), rfl⟩,
    ?_⟩
  refine hpages.pages.not_tableReachable hpages.backing hordered
    hpages.aligned hlt hroom (by norm_num) hhigh hstart ?_ ?_ (by omega)
  · rw [hindex]
    exact habsent
  · rw [hindex]
    intro hmem
    obtain ⟨v, hv, heq⟩ := List.mem_map.mp hmem
    have hrange := mem_pagesFrom hv
    rw [hend] at hrange
    rw [pdIndex, Nat.shiftRight_eq_div_pow] at heq
    simp only [kheapStart, kheapInitialSize, pageSize] at hrange
    omega

end LargeRequest

/-- The second table of the heap is written at an address that the kernel
directory does not map. -/
theorem run_largeRequest_not_reachable :
    ∃ moments c, KernelRun xgaMode kmainState moments c ∧
      ∃ m ∈ moments, ¬TableReachable m := by
  obtain ⟨hok, -, -⟩ := kmainFrames_ok Pmm.blankState
  have hroom : Room xgaMode kmainState.backing :=
    room_kmain frames_kmainState
  obtain ⟨-, -, hfew, hmany⟩ := ncard_free_bringUp
  have hend : (bringUp xgaMode kmainState).heapEnd =
      kheapStart + kheapInitialSize := rfl
  have hrun : RunOk xgaMode _ _ := runOk_bringUp frames_kmainState
  have hhigh := (hrun.exact aboveMemory_xgaMode).2
  obtain ⟨m, hm, hnot⟩ := exists_not_tableReachable
    (pagesOk_bringUp hok usable_kmainPages hroom) ordered_bringUp hend
    not_present_bringUp hhigh hfew hmany
  obtain ⟨hcall, hlook, c', hstep⟩ := @OneHole.steps _
    (oneHole_bringUp xgaMode kmainState) 0x400000
    (by norm_num [kheapInitialSize]) (by norm_num)
  have hquiet : Satisfiable ⟨bringUp xgaMode kmainState, none⟩ :=
    fun r hr => by cases hr
  have hquiet' : Satisfiable
      ⟨bringUp xgaMode kmainState, some ⟨0x400000, false, kheapStart⟩⟩ := by
    intro r hr hzero
    cases hr
    exact absurd hzero (by norm_num [kheapStart])
  refine ⟨_, c', ((KernelRun.bringUp.step hquiet hcall).step hquiet'
    hlook).step (satisfiable_largeRequest hmany hend) hstep, m, ?_, hnot⟩
  exact List.mem_append_right _ hm

end BabOs.Mm
