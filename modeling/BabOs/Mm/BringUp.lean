import BabOs.Kheap.Runs
import BabOs.Mm.Backing

/-!
# Memory bring-up

`vmm_init` makes a directory, maps the first eight mebibytes twice and the
framebuffer once; `kheap_init` maps the first mebibyte of the heap.  When the
free frames are enough for that, the tables are in order afterwards and every
page of the heap has a frame of its own.
-/

namespace BabOs.Mm

open BabOs.Vmm Relation
open BabOs.Kheap hiding pageSize State

/-- The fields of `struct vbe_mode_info` that `vmm_init` reads. -/
structure VbeModeInfo where
  framebuffer : ℕ
  height : ℕ
  pitch : ℕ
  framebuffer_lt : framebuffer < 2 ^ 32
  height_lt : height < 2 ^ 16
  pitch_lt : pitch < 2 ^ 16

/-- The values of `i` in `for (i = 0; i < size; i += PAGE_SIZE)`. -/
def pageOffsets (size : ℕ) : List ℕ :=
  (List.range ((size + pageSize - 1) / pageSize)).map (· * pageSize)

def identityCalls : List MapCall :=
  (pageOffsets 0x800000).map fun i => ⟨i, i, pageFlags⟩

def higherHalfCalls : List MapCall :=
  (pageOffsets 0x800000).map fun i => ⟨0xC0000000 + i, i, pageFlags⟩

def framebufferCalls (vbe : VbeModeInfo) : List MapCall :=
  (pageOffsets (uint32 (vbe.height * vbe.pitch))).map fun i =>
    ⟨uint32 (vbe.framebuffer + i), uint32 (vbe.framebuffer + i), pageFlags⟩

/-- The calls of `vmm_map_page` in `vmm_init`. -/
def vmmInitCalls (vbe : VbeModeInfo) : List MapCall :=
  identityCalls ++ higherHalfCalls ++ framebufferCalls vbe

/-- The addresses that the loops of the heap map for `n` bytes from `start`
on. -/
def pageAddresses (start n : ℕ) : List ℕ :=
  (List.range (n / pageSize)).map fun i => uint32 (start + i * pageSize)

def vmmInit (vbe : VbeModeInfo) (b : Backing) : Backing :=
  mapCalls frameAlloc (createDirectory frameAlloc b) (vmmInitCalls vbe)

/-- `vmm_init` and `kheap_init` -/
def bringUp (vbe : VbeModeInfo) (s : Kheap.State Backing) :
    Kheap.State Backing :=
  kheapInit mapPage { s with backing := vmmInit vbe s.backing }

/-- The free frames are enough for the directory, for the tables that
`vmm_init` needs, and for the pages of the initial heap. -/
structure Room (vbe : VbeModeInfo) (b : Backing) : Prop where
  directory : b.frames.free.Nonempty
  tables :
    (missingTables (createDirectory frameAlloc b)
        ((vmmInitCalls vbe).map (·.virtual))).card ≤
      (createDirectory frameAlloc b).frames.free.ncard
  pages :
    framesNeeded (vmmInit vbe b) kheapStart (kheapInitialSize / pageSize) ≤
      (vmmInit vbe b).frames.free.ncard

section Calls

variable {size i : ℕ} {vbe : VbeModeInfo} {c : MapCall}

theorem mem_pageOffsets_iff :
    i ∈ pageOffsets size ↔ pageSize ∣ i ∧ i < size := by
  simp only [pageOffsets, List.mem_map, List.mem_range, pageSize]
  constructor
  · rintro ⟨j, hj, rfl⟩
    omega
  · rintro ⟨⟨j, rfl⟩, hlt⟩
    exact ⟨j, by omega, Nat.mul_comm j 4096⟩

theorem mem_pageOffsets (h : i ∈ pageOffsets size) : i < size :=
  (mem_pageOffsets_iff.mp h).2

theorem valid_of_mem_vmmInitCalls (hc : c ∈ vmmInitCalls vbe) : c.Valid := by
  have hflags : pageFlags < 0x1000 := by decide
  have hpresent : pageFlags &&& pagePresent ≠ 0 := by decide
  simp only [vmmInitCalls, List.mem_append] at hc
  rcases hc with (hc | hc) | hc
  · obtain ⟨i, hi, rfl⟩ := List.mem_map.mp hc
    have hlt := mem_pageOffsets hi
    exact ⟨by dsimp only; omega, by dsimp only; omega, hflags, hpresent⟩
  · obtain ⟨i, hi, rfl⟩ := List.mem_map.mp hc
    have hlt := mem_pageOffsets hi
    exact ⟨by dsimp only; omega, by dsimp only; omega, hflags, hpresent⟩
  · obtain ⟨i, hi, rfl⟩ := List.mem_map.mp hc
    exact ⟨uint32_lt _, uint32_lt _, hflags, hpresent⟩

end Calls

section BringUp

variable {R : Set ℕ} {b : Backing} {calls : List MapCall} {vbe : VbeModeInfo}

/-- The directory is the first frame that is handed out. -/
theorem backingOk_createDirectory (hok : b.frames.Ok R) (hR : Usable R)
    (hfree : b.frames.free.Nonempty) :
    BackingOk R (createDirectory frameAlloc b) ∧
      (createDirectory frameAlloc b).frames.free.ncard + 1 =
        b.frames.free.ncard := by
  rcases hok.frameAlloc_cases hR with ⟨hempty, -⟩ | ⟨page, hcall, hgrants⟩
  · exact absurd hempty hfree.ne_empty
  · have hdvd : pageSize ∣ (frameAlloc b.frames).1 := by
      rw [hcall]
      exact dvd_mul_left _ _
    refine ⟨⟨hgrants.ok, (tablesOk_createDirectory b hdvd).1, ?_, ?_⟩,
      hgrants.ncard (hok.finite hR)⟩
    · change (frameAlloc b.frames).1 / pageSize ∉ (frameAlloc b.frames).2.free
      rw [hcall, page_div]
      exact hgrants.notMem
    · simp [createDirectory]

/-- After the first of several calls a frame is still free if the next one needs
a table. -/
theorem Grown.nonempty_of_room {b' : Backing} {vs : List ℕ} {v : ℕ}
    (h : Grown R b b' vs 0) (hv : v < 2 ^ 32)
    (hroom : (missingTables b (vs ++ [v])).card ≤ b.frames.free.ncard)
    (hnot : ¬Present b' (pdIndex v)) : b'.frames.free.Nonempty := by
  have hone := h.card_missingTables hv
  have hcount := h.count
  rw [if_neg hnot] at hone
  exact Set.nonempty_of_ncard_ne_zero (by omega)

/-- The calls find the frames for their tables, and these are fresh. -/
theorem BackingOk.mapCalls_fresh (h : BackingOk R b) (hR : Usable R)
    (hvalid : ∀ c ∈ calls, c.Valid)
    (hroom : (missingTables b (calls.map (·.virtual))).card ≤
      b.frames.free.ncard) :
    Grown R b (mapCalls frameAlloc b calls) (calls.map (·.virtual)) 0 ∧
      FreshFrames frameAlloc b calls := by
  induction calls using List.reverseRecOn with
  | nil => exact ⟨Grown.refl h, trivial⟩
  | append_singleton calls c ih =>
      have hc : c.Valid := hvalid c (by simp)
      rw [List.map_append, List.map_singleton] at hroom ⊢
      have hsub := missingTables_mono b
        (List.subset_append_left (calls.map (·.virtual)) [c.virtual])
      obtain ⟨hgrown, hfresh⟩ := ih (fun d hd => hvalid d (by simp [hd]))
        ((Finset.card_le_card hsub).trans hroom)
      have hfind := hgrown.nonempty_of_room hc.virtual_lt hroom
      refine ⟨?_, freshFrames_concat hfresh fun hnot =>
        hgrown.ok.fresh_frameAlloc hR (hfind hnot)⟩
      rw [Vmm.mapCalls, List.foldl_append]
      exact hgrown.snoc hc.virtual_lt (hgrown.ok.vmmMapPage hR hc.virtual_lt
        hc.physical_lt hc.flags_lt hc.present hfind)

theorem BackingOk.mapCalls (h : BackingOk R b) (hR : Usable R)
    (hvalid : ∀ c ∈ calls, c.Valid)
    (hroom : (missingTables b (calls.map (·.virtual))).card ≤
      b.frames.free.ncard) :
    Grown R b (mapCalls frameAlloc b calls) (calls.map (·.virtual)) 0 :=
  (h.mapCalls_fresh hR hvalid hroom).1

theorem grown_vmmInit (hok : b.frames.Ok R) (hR : Usable R)
    (hroom : Room vbe b) :
    Grown R (createDirectory frameAlloc b) (vmmInit vbe b)
      ((vmmInitCalls vbe).map (·.virtual)) 0 :=
  (backingOk_createDirectory hok hR hroom.directory).1.mapCalls hR
    (fun _ hc => valid_of_mem_vmmInitCalls hc) hroom.tables

theorem pageAddresses_eq {start n : ℕ} (h : start + n ≤ 2 ^ 32) :
    pageAddresses start n = pagesFrom start (n / pageSize) := by
  refine List.map_congr_left fun i hi => Nat.mod_eq_of_lt ?_
  rw [List.mem_range] at hi
  have hle : i * pageSize < n := by
    simp only [pageSize] at hi ⊢
    omega
  omega

theorem mapRange_eq (b : Backing) {start n : ℕ} (h : start + n ≤ 2 ^ 32) :
    mapRange mapPage start n b = mapPages b start (n / pageSize) := by
  have hfold : mapRange mapPage start n b =
      (pageAddresses start n).foldl mapPage b := by
    rw [mapRange, pageAddresses, List.foldl_map]
    rfl
  rw [hfold, pageAddresses_eq h, mapPages]

/-- The initial heap lies below the top of the address space. -/
theorem kheapInitialSize_le : kheapStart + kheapInitialSize ≤ 2 ^ 32 := by
  norm_num [kheapStart, kheapInitialSize]

theorem kheapInitialSize_div :
    kheapInitialSize / pageSize * pageSize = kheapInitialSize := by
  norm_num [kheapInitialSize, pageSize]

theorem backing_bringUp (vbe : VbeModeInfo) (s : Kheap.State Backing) :
    (bringUp vbe s).backing = mapPages (vmmInit vbe s.backing) kheapStart
      (kheapInitialSize / pageSize) := by
  have hrange : (bringUp vbe s).backing =
      mapRange mapPage kheapStart kheapInitialSize (vmmInit vbe s.backing) := by
    simp only [bringUp, kheapInit]
  rw [hrange, mapRange_eq _ kheapInitialSize_le]

theorem grown_bringUp {s : Kheap.State Backing}
    (hok : s.backing.frames.Ok R) (hR : Usable R)
    (hroom : Room vbe s.backing) :
    Grown R (vmmInit vbe s.backing) (bringUp vbe s).backing
        (pagesFrom kheapStart (kheapInitialSize / pageSize))
        (kheapInitialSize / pageSize) ∧
      PagesMapped kheapStart (bringUp vbe s).heapEnd
        (bringUp vbe s).backing := by
  have hinit := (grown_vmmInit hok hR hroom).ok
  have haligned : pageSize ∣ kheapStart := by
    norm_num [pageSize, kheapStart]
  have hlt : kheapStart + kheapInitialSize / pageSize * pageSize ≤ 2 ^ 32 :=
    kheapInitialSize_div ▸ kheapInitialSize_le
  obtain ⟨hgrown, hpages⟩ :=
    (pagesMapped_nil kheapStart _).mapPages hinit hR haligned hlt hroom.pages
  rw [kheapInitialSize_div] at hpages
  rw [backing_bringUp]
  exact ⟨hgrown, hpages⟩

end BringUp

/-! ## Room -/

section Rooms

variable {R : Set ℕ} {b : Backing} {vbe : VbeModeInfo} {k : ℕ}

theorem framesNeeded_initial (b : Backing) :
    framesNeeded b kheapStart (kheapInitialSize / pageSize) ≤ 257 := by
  have hsub : missingTables b
      (pagesFrom kheapStart (kheapInitialSize / pageSize)) ⊆ {832} := by
    intro i hi
    simp only [missingTables, pagesFrom, Finset.mem_filter,
      List.mem_toFinset, List.mem_map, List.mem_range] at hi
    obtain ⟨⟨v, ⟨j, hj, rfl⟩, rfl⟩, -⟩ := hi
    rw [Finset.mem_singleton, pdIndex, Nat.shiftRight_eq_div_pow]
    simp only [kheapStart, kheapInitialSize, pageSize] at hj ⊢
    omega
  have hcard := Finset.card_le_card hsub
  rw [Finset.card_singleton] at hcard
  have hpages : kheapInitialSize / pageSize = 256 := rfl
  rw [framesNeeded]
  omega

/-- Bring-up takes a frame for the directory, one for each table of
`vmm_init`, and 257 for the heap. -/
theorem room_of_card (hok : b.frames.Ok R) (hR : Usable R)
    (hcard : (missingTables (createDirectory frameAlloc b)
      ((vmmInitCalls vbe).map (·.virtual))).card ≤ k)
    (hfree : k + 258 ≤ b.frames.free.ncard) : Room vbe b := by
  have hnonempty : b.frames.free.Nonempty :=
    Set.nonempty_of_ncard_ne_zero (by omega)
  obtain ⟨hdirectory, hone⟩ := backingOk_createDirectory hok hR hnonempty
  have hroom : (missingTables (createDirectory frameAlloc b)
        ((vmmInitCalls vbe).map (·.virtual))).card ≤
      (createDirectory frameAlloc b).frames.free.ncard := by
    omega
  have hcount := (hdirectory.mapCalls hR
    (fun _ hc => valid_of_mem_vmmInitCalls hc) hroom).count
  refine ⟨hnonempty, hroom, (framesNeeded_initial _).trans ?_⟩
  rw [vmmInit]
  omega

theorem card_missingTables_le (b : Backing) {vs : List ℕ}
    (hvs : ∀ v ∈ vs, v < 2 ^ 32) : (missingTables b vs).card ≤ 1024 := by
  have hsub : missingTables b vs ⊆ Finset.range 1024 := by
    intro i hi
    simp only [missingTables, Finset.mem_filter, List.mem_toFinset,
      List.mem_map] at hi
    obtain ⟨⟨v, hv, rfl⟩, -⟩ := hi
    exact Finset.mem_range.mpr (pdIndex_lt (hvs v hv))
  simpa using Finset.card_le_card hsub

end Rooms

/-! ## A framebuffer above the memory -/

/-- A mode of 1024 by 768 pixels of four bytes. -/
def xgaMode : VbeModeInfo where
  framebuffer := 0xFD000000
  height := 768
  pitch := 4096
  framebuffer_lt := by omega
  height_lt := by omega
  pitch_lt := by omega

section XgaMode

variable {R : Set ℕ} {b : Backing} {vbe : VbeModeInfo} {v : ℕ}

/-- The five directory slots that `vmm_init` uses. -/
def xgaSlots : Finset ℕ := {0, 1, 768, 769, 1012}

theorem pdIndex_mem_xgaSlots (hge : 0xFD000000 ≤ vbe.framebuffer)
    (hle : vbe.framebuffer + vbe.height * vbe.pitch ≤ 0xFD400000)
    (hv : v ∈ (vmmInitCalls vbe).map (·.virtual)) :
    pdIndex v ∈ xgaSlots := by
  have hsize : uint32 (vbe.height * vbe.pitch) = vbe.height * vbe.pitch :=
    uint32_eq_of_lt (by omega)
  simp only [vmmInitCalls, identityCalls, higherHalfCalls, framebufferCalls,
    hsize, List.map_append, List.map_map, List.mem_append, List.mem_map,
    Function.comp_apply] at hv
  simp only [xgaSlots, Finset.mem_insert, Finset.mem_singleton, pdIndex,
    Nat.shiftRight_eq_div_pow]
  rcases hv with (⟨i, hi, rfl⟩ | ⟨i, hi, rfl⟩) | ⟨i, hi, rfl⟩
  · have hlt := mem_pageOffsets hi
    omega
  · have hlt := mem_pageOffsets hi
    omega
  · have hlt := mem_pageOffsets hi
    rw [uint32_eq_of_lt (by omega)]
    omega

theorem card_missingTables_xgaSlots (b : Backing)
    (hge : 0xFD000000 ≤ vbe.framebuffer)
    (hle : vbe.framebuffer + vbe.height * vbe.pitch ≤ 0xFD400000) :
    (missingTables b ((vmmInitCalls vbe).map (·.virtual))).card ≤ 5 := by
  refine Finset.card_le_card (t := xgaSlots) fun i hi => ?_
  simp only [missingTables, Finset.mem_filter, List.mem_toFinset,
    List.mem_map] at hi
  obtain ⟨⟨v, hv, rfl⟩, -⟩ := hi
  exact pdIndex_mem_xgaSlots hge hle (List.mem_map.mpr hv)

theorem card_missingTables_xgaMode (b : Backing) :
    (missingTables b ((vmmInitCalls xgaMode).map (·.virtual))).card ≤ 5 :=
  card_missingTables_xgaSlots b (by simp [xgaMode]) (by simp [xgaMode])

theorem room_xgaMode (hok : b.frames.Ok R) (hR : Usable R)
    (hfree : 263 ≤ b.frames.free.ncard) : Room xgaMode b :=
  room_of_card hok hR (card_missingTables_xgaMode _) hfree

theorem ncard_free_le_bringUp {s : Kheap.State Backing}
    (hok : s.backing.frames.Ok R) (hR : Usable R)
    (hfree : 263 ≤ s.backing.frames.free.ncard) :
    s.backing.frames.free.ncard ≤
      (bringUp xgaMode s).backing.frames.free.ncard + 263 := by
  have hroom := room_xgaMode hok hR hfree
  have hone := (backingOk_createDirectory hok hR hroom.directory).2
  have hinit := (grown_vmmInit hok hR hroom).count
  have hheap := (grown_bringUp hok hR hroom).1.count
  have htables :=
    card_missingTables_xgaMode (createDirectory frameAlloc s.backing)
  have hneeded := framesNeeded_initial (vmmInit xgaMode s.backing)
  rw [framesNeeded] at hneeded
  omega

end XgaMode

/-! ## Before bring-up -/

/-- The kernel before `vmm_init`, in a memory of zeros. -/
def beforeBringUp (frames : Frames) : Kheap.State Backing where
  mem := { byte := fun _ => 0, stores := [] }
  heapStart := 0
  heapEnd := kheapStart
  backing :=
    { mem := { byte := fun _ => 0, stores := [] }
      kernelDirectory := 0
      currentDirectory := 0
      frames := frames
      tables := [] }
  wrapped := false
  console := []

section Allocator

variable {s₀ p : Pmm.State} {memSize metadataStart : ℕ}
  {regions : List (ℕ × ℕ)} {live : Set Dyadic.Block}

/-- What `pmm_init`, the regions and any calls before `vmm_init` lead to. -/
theorem frames_ok_of_run (hregions : Pmm.ManagedRegions memSize regions)
    (hrun : ReflTransGen Pmm.Step
      (Pmm.boot s₀ memSize metadataStart regions, ∅) (p, live)) :
    Frames.Ok (Pmm.managedPages regions) ⟨p, []⟩ :=
  ⟨⟨live, Pmm.owns_of_run hrun (Pmm.owns_boot s₀ metadataStart hregions)
    (by simp [Pmm.LiveMeta])⟩, by simp⟩

theorem usable_managedPages (hregions : Pmm.ManagedRegions memSize regions)
    (hzero : 0 ∉ Pmm.managedPages regions) :
    Usable (Pmm.managedPages regions) := by
  intro page hpage
  refine ⟨Nat.pos_of_ne_zero fun h => hzero (h ▸ hpage), ?_⟩
  simp only [Pmm.managedPages, Set.mem_iUnion] at hpage
  obtain ⟨r, hr, hpage⟩ := hpage
  have hinside := hregions.inside r hr
  have hsize := hregions.size_lt
  simp only [Pmm.regionPages, Set.mem_Ico, Pmm.pageSize] at hpage
  omega

end Allocator

end BabOs.Mm
