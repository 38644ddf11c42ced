import BabOs.Boot.Entry
import BabOs.Mm.LowTables
import BabOs.Mm.Switch

/-!
# What the kernel sees after the switch

`vmm_init` and `kheap_init` store into the directory and into tables only, and
all of these are pages that the page allocator has handed out.  The pages lie
above the files that the boot loader has read, so that the kernel reads the same
bytes under its own directory as under the tables of `_start`.

The static variables of these functions and their stack are not a part of the
memory here, although they lie in the kernel's file and behind it, nor is the
header that `kheap_init` stores in the heap: `V` below is the set of such
addresses, which hold whatever the code has stored there.
-/

namespace BabOs.Mm

open BabOs.Vmm BabOs.Boot Memory
open BabOs.Kheap hiding pageSize State

/-- The addresses outside the pages of `R`. -/
def outside (R : Set ℕ) : Set ℕ := {x | x / pageSize ∉ R}

/-- `b'` has the bytes of `b` outside the pages of `R`, and its directory and
its tables are pages of `R`. -/
structure Keeps (R : Set ℕ) (b b' : Backing) : Prop where
  directory : b'.currentDirectory / pageSize ∈ R
  tables : ∀ t ∈ b'.tables, t / pageSize ∈ R
  same : SameOn (outside R) b.mem b'.mem

/-- The addresses in the pages of the directory and of the tables. -/
def tablePages (b : Backing) : Set ℕ :=
  {x | x / pageSize = b.currentDirectory / pageSize ∨
    ∃ t ∈ b.tables, x / pageSize = t / pageSize}

section Stores

variable {R : Set ℕ} {m m' : Memory} {t k n v : ℕ}

theorem disjoint_outside (hdvd : pageSize ∣ t) (ht : t / pageSize ∈ R)
    (hn : k + n ≤ pageSize) :
    Disjoint (outside R) (Set.Ico (t + k) (t + k + n)) := by
  refine Set.disjoint_left.mpr fun x hx hin => hx ?_
  rw [Set.mem_Ico] at hin
  have hpage : x / pageSize = t / pageSize := by
    rw [pageSize] at hdvd hn ⊢
    omega
  rwa [hpage]

theorem sameOn_fill (h : SameOn (outside R) m m') (hdvd : pageSize ∣ t)
    (ht : t / pageSize ∈ R) :
    SameOn (outside R) m (m'.fill t v tableSize) := by
  intro x hx
  rw [← h x hx]
  apply byte_fill_of_disjoint
  have hout := Set.disjoint_left.mp
    (@disjoint_outside R t 0 tableSize hdvd ht (by decide)) hx
  rw [Set.mem_Ico] at hout
  omega

theorem sameOn_entry (h : SameOn (outside R) m m') (hdvd : pageSize ∣ t)
    (ht : t / pageSize ∈ R) (hk : k < 1024) :
    SameOn (outside R) m (m'.store32 (t + 4 * k) v) := by
  refine h.store32 (disjoint_outside hdvd ht ?_)
  rw [pageSize]
  omega

end Stores

section Keeping

variable {R V : Set ℕ} {b₀ b : Backing} {vbe : VbeModeInfo} {m : Memory}
  {calls : List MapCall} {virtual physical flags start n v : ℕ}

/-- The walk reads the directory and the tables only. -/
theorem BackingOk.walk_congr (h : BackingOk R b) (hV : Disjoint V (tablePages b))
    (hm : SameOn Vᶜ b.mem m) (hv : v < 2 ^ 32) :
    walk { b with mem := m } v = walk b v := by
  have hload : ∀ {t k}, pageSize ∣ t → k < 1024 →
      (∀ x, x / pageSize = t / pageSize → x ∈ tablePages b) →
        m.load32 (t + 4 * k) = b.mem.load32 (t + 4 * k) := by
    intro t k hdvd hk hpage
    refine hm.load32 fun x hx => Set.disjoint_right.mp hV (hpage x ?_)
    rw [Set.mem_Ico] at hx
    rw [pageSize] at hdvd ⊢
    omega
  have hpde : pde { b with mem := m } v = pde b v :=
    hload h.tables.directory_dvd (pdIndex_lt hv) fun x hx => Or.inl hx
  rw [walk, walk, hpde]
  split_ifs with hin
  · rfl
  · have htable : tableOf b (pdIndex v) ∈ b.tables :=
      h.tables.slots _ (pdIndex_lt hv) hin
    exact congrArg (decode v) (hload (h.tables.table_dvd _ htable)
      (ptIndex_lt v) fun x hx => Or.inr ⟨_, htable, hx⟩)

theorem Keeps.disjoint_tablePages (h : Keeps R b₀ b) (hV : V ⊆ outside R) :
    Disjoint V (tablePages b) := by
  refine Set.disjoint_left.mpr fun x hx hin => hV hx ?_
  rcases hin with hdirectory | ⟨t, ht, htable⟩
  · rw [hdirectory]
    exact h.directory
  · rw [htable]
    exact h.tables t ht

theorem keeps_createDirectory (hok : b.frames.Ok R) (hR : Usable R)
    (hfree : b.frames.free.Nonempty) :
    Keeps R b (createDirectory frameAlloc b) := by
  rcases hok.frameAlloc_cases hR with ⟨hempty, -⟩ | ⟨page, hcall, hgrants⟩
  · exact absurd hempty hfree.ne_empty
  · have hframe : (frameAlloc b.frames).1 / pageSize ∈ R := by
      rw [hcall, page_div]
      exact hok.free_subset hgrants.mem
    refine ⟨hframe, by simp [createDirectory],
      sameOn_fill (SameOn.refl _ _) ?_ hframe⟩
    rw [hcall]
    exact dvd_mul_left _ _

/-- A call stores into the directory and into one table. -/
theorem Keeps.vmmMapPage (h : Keeps R b₀ b) (hok : BackingOk R b)
    (hR : Usable R) (hvirtual : virtual < 2 ^ 32)
    (hfind : ¬Present b (pdIndex virtual) → b.frames.free.Nonempty) :
    Keeps R b₀ (vmmMapPage frameAlloc virtual physical flags b) := by
  have hi := pdIndex_lt hvirtual
  have hj := ptIndex_lt virtual
  by_cases hin : Present b (pdIndex virtual)
  · rw [vmmMapPage_of_present hin]
    have htable := hok.tables.slots _ hi hin
    exact ⟨h.directory, h.tables, sameOn_entry h.same
      (hok.tables.table_dvd _ htable) (h.tables _ htable) hj⟩
  · rw [vmmMapPage_of_absent hin]
    rcases hok.frames.frameAlloc_cases hR with
      ⟨hempty, -⟩ | ⟨page, hcall, hgrants⟩
    · exact absurd hempty (hfind hin).ne_empty
    · have hdvd : pageSize ∣ (frameAlloc b.frames).1 := by
        rw [hcall]
        exact dvd_mul_left _ _
      have hframe : (frameAlloc b.frames).1 / pageSize ∈ R := by
        rw [hcall, page_div]
        exact hok.frames.free_subset hgrants.mem
      refine ⟨h.directory, fun t ht => ?_, ?_⟩
      · rcases List.mem_cons.mp ht with rfl | ht
        · exact hframe
        · exact h.tables t ht
      · have hnew := sameOn_fill (v := 0) h.same hdvd hframe
        exact sameOn_entry (sameOn_entry hnew hok.tables.directory_dvd
          h.directory hi) hdvd hframe hj

theorem Keeps.mapCalls (h : Keeps R b₀ b) (hok : BackingOk R b)
    (hR : Usable R) (hvalid : ∀ c ∈ calls, c.Valid)
    (hroom : (missingTables b (calls.map (·.virtual))).card ≤
      b.frames.free.ncard) :
    Keeps R b₀ (mapCalls frameAlloc b calls) := by
  induction calls using List.reverseRecOn with
  | nil => exact h
  | append_singleton calls c ih =>
      have hc : c.Valid := hvalid c (by simp)
      have hvalid' : ∀ d ∈ calls, d.Valid := fun d hd => hvalid d (by simp [hd])
      rw [List.map_append, List.map_singleton] at hroom
      have hsub := missingTables_mono b
        (List.subset_append_left (calls.map (·.virtual)) [c.virtual])
      have hroom' := (Finset.card_le_card hsub).trans hroom
      have hgrown := hok.mapCalls hR hvalid' hroom'
      rw [Vmm.mapCalls, List.foldl_append]
      exact (ih hvalid' hroom').vmmMapPage hgrown.ok hR hc.virtual_lt
        (hgrown.nonempty_of_room hc.virtual_lt hroom)

theorem keeps_vmmInit (hok : b.frames.Ok R) (hR : Usable R)
    (hroom : Room vbe b) : Keeps R b (vmmInit vbe b) :=
  (keeps_createDirectory hok hR hroom.directory).mapCalls
    (backingOk_createDirectory hok hR hroom.directory).1 hR
    (fun _ hc => valid_of_mem_vmmInitCalls hc) hroom.tables

/-- A page of the heap takes a frame before its table does. -/
theorem Keeps.mapPage (h : Keeps R b₀ b) (hok : BackingOk R b) (hR : Usable R)
    (hvirtual : virtual < 2 ^ 32)
    (hroom : 1 + (if Present b (pdIndex virtual) then 0 else 1) ≤
      b.frames.free.ncard) :
    Keeps R b₀ (mapPage b virtual) := by
  rcases hok.frames.frameAlloc_cases hR with
    ⟨hempty, -⟩ | ⟨page, -, hgrants⟩
  · rw [hempty, Set.ncard_empty] at hroom
    omega
  · have hone := hgrants.ncard (hok.frames.finite hR)
    have hkeeps : Keeps R b₀ { b with frames := (frameAlloc b.frames).2 } :=
      ⟨h.directory, h.tables, h.same⟩
    refine hkeeps.vmmMapPage (hok.take hgrants) hR hvirtual fun hnot => ?_
    rw [if_neg (show ¬Present b (pdIndex virtual) from hnot)] at hroom
    exact Set.nonempty_of_ncard_ne_zero (by dsimp only; omega)

/-- The loop of the heap, which maps nothing below its first page anew. -/
theorem Keeps.mapPages (h : Keeps R b₀ b) (hok : BackingOk R b) (hR : Usable R)
    (halign : pageSize ∣ start) (hlt : start + n * pageSize ≤ 2 ^ 32)
    (hroom : framesNeeded b start n ≤ b.frames.free.ncard) :
    Keeps R b₀ (mapPages b start n) ∧
      ∀ v < start, walk (mapPages b start n) v = walk b v := by
  induction n with
  | zero => exact ⟨h, fun v _ => rfl⟩
  | succ n ih =>
      rw [Nat.succ_mul] at hlt
      have hroom' := (framesNeeded_mono b start (Nat.le_succ n)).trans hroom
      obtain ⟨hkeeps, hwalk⟩ := ih (by omega) hroom'
      obtain ⟨hgrown, hmapped⟩ :=
        (pagesMapped_nil start b).mapPages hok hR halign (by omega) hroom'
      have hvirtual : start + n * pageSize < 2 ^ 32 := by
        have hpos : 0 < pageSize := by decide
        omega
      have hone := hgrown.card_missingTables hvirtual
      have hcount := hgrown.count
      rw [framesNeeded, pagesFrom_succ] at hroom
      have halign' : pageSize ∣ start + n * pageSize :=
        (Nat.dvd_add_right halign).mpr (dvd_mul_left _ _)
      obtain ⟨⟨page, f', -, hmaps⟩, -⟩ :=
        hmapped.step hgrown.ok hR halign' (by omega) (by omega)
      rw [mapPages_succ]
      refine ⟨hkeeps.mapPage hgrown.ok hR hvirtual (by omega), fun v hv => ?_⟩
      have hne : (start + n * pageSize) / pageSize ≠ v / pageSize := by
        rw [pageSize] at halign ⊢
        omega
      rw [hmaps.walk v (by omega), if_neg hne]
      exact hwalk v hv

/-- Bring-up keeps the bytes of the pages that are not handed out, and the heap
does not change the mappings of `vmm_init`. -/
theorem keeps_bringUp {s : Kheap.State Backing} (hok : s.backing.frames.Ok R)
    (hR : Usable R) (hroom : Room vbe s.backing) :
    Keeps R s.backing (bringUp vbe s).backing ∧
      ∀ v < kheapStart, walk (bringUp vbe s).backing v =
        walk (vmmInit vbe s.backing) v := by
  rw [backing_bringUp]
  exact (keeps_vmmInit hok hR hroom).mapPages (grown_vmmInit hok hR hroom).ok hR
    (by norm_num [pageSize, kheapStart])
    (kheapInitialSize_div ▸ kheapInitialSize_le) hroom.pages

end Keeping

/-- Whatever memory holds under the boot tables, whatever the graphics mode is,
and whatever the code stores at the addresses of `V`, apart from the page
tables: each address that the boot tables map below 4 MiB and outside `V` has
the same byte behind it after `vmm_init` and `kheap_init`. -/
theorem seen_bringUp {p₀ : Pmm.State} {s : Kheap.State Backing} {b₀ : Backing}
    {vbe : VbeModeInfo} {directory : ℕ} (hdvd : pageSize ∣ directory)
    (hlt : directory + 0x3000 ≤ 2 ^ 32)
    (hon : OnTables directory b₀ s.backing)
    (hframes : s.backing.frames = kmainFrames p₀) (hvbe : FramebufferApart vbe)
    {V : Set ℕ} (hV : Disjoint V (tablePages (bringUp vbe s).backing))
    {m : Memory} (hm : SameOn Vᶜ (bringUp vbe s).backing.mem m)
    {v : ℕ} (hv : v < 2 ^ 32) {r : ℕ × ℕ} (hr : walk s.backing v = some r)
    (hlow : r.1 < 0x400000) (hrV : r.1 ∉ V) :
    seen { (bringUp vbe s).backing with mem := m } v = seen s.backing v := by
  obtain ⟨hok, -, -⟩ := kmainFrames_ok p₀
  rw [← hframes] at hok
  have hroom : Room vbe s.backing := room_kmain hframes
  have hmaps := kernelMaps_vmmInitCalls
    (hroom.framesSupplied hok usable_kmainPages) hvbe
  obtain ⟨hkeeps, hheap⟩ := keeps_bringUp hok usable_kmainPages hroom
  have hbyte : m.byte r.1 = s.backing.mem.byte r.1 := by
    rw [hm r.1 hrV]
    refine hkeeps.same r.1 fun hin => ?_
    rw [kmainPages, Set.mem_Ico, pageSize] at hin
    omega
  have hwalk : (walk (vmmInit vbe s.backing) v).map Prod.fst = some r.1 ∧
      v < kheapStart := by
    rw [walk_congr hdvd hlt hv hon.same hon.current,
      walk_enterPaging hdvd hlt hv, kernelVirtualBase] at hr
    rw [kheapStart]
    split_ifs at hr with hbelow habove
    · rw [← Option.some.inj hr, vmmInit, hmaps.low v hbelow]
      exact ⟨rfl, by omega⟩
    · rw [← Option.some.inj hr, vmmInit, hmaps.high v habove.1 (by omega)]
      exact ⟨rfl, by omega⟩
  obtain ⟨q, hq, hfst⟩ := Option.map_eq_some_iff.mp hwalk.1
  have hgrown := (grown_bringUp hok usable_kmainPages hroom).1
  rw [seen, seen, hgrown.ok.walk_congr hV hm hv, hheap v hwalk.2, hq, hr,
    Option.map_some, Option.map_some, hfst, hbyte]

/-- The state of an ordinary machine under the tables of `_start`. -/
def enteredState : Kheap.State Backing :=
  { kmainState with backing := enterPaging 0x11000 kmainState.backing }

/-- The memory after bring-up, in which a variable of the kernel was set. -/
def broughtUp : Memory :=
  (bringUp xgaMode enteredState).backing.mem.store8 0x30000 1

/-- The kernel still sees the byte that the ramdisk begins with. -/
theorem seen_bringUp_xgaMode :
    seen { (bringUp xgaMode enteredState).backing with mem := broughtUp }
        0xC0040000 =
      seen enteredState.backing 0xC0040000 := by
  have hm : SameOn (Set.Iio 0x40000)ᶜ (bringUp xgaMode enteredState).backing.mem
      broughtUp :=
    (SameOn.refl _ _).store8 fun hout => hout (by rw [Set.mem_Iio]; decide)
  have hv : 0xC0040000 < 2 ^ 32 := by norm_num
  have hlt : 0x11000 + 0x3000 ≤ 2 ^ 32 := by norm_num
  have hwalk : walk enteredState.backing 0xC0040000 = some (0x40000, 3) := by
    rw [enteredState, walk_enterPaging (by decide) hlt hv, kernelVirtualBase]
    norm_num
  have hon : OnTables 0x11000 kmainState.backing enteredState.backing :=
    onTables_enterPaging 0x11000 kmainState.backing
  have hframes : enteredState.backing.frames = kmainFrames Pmm.blankState :=
    frames_kmainState
  obtain ⟨hok, -, -⟩ := kmainFrames_ok Pmm.blankState
  rw [← hframes] at hok
  have hroom : Room xgaMode enteredState.backing := room_kmain hframes
  have hkeeps := (keeps_bringUp hok usable_kmainPages hroom).1
  have hbelow : Set.Iio 0x40000 ⊆ outside kmainPages := by
    intro x hx hin
    rw [Set.mem_Iio] at hx
    rw [kmainPages, Set.mem_Ico, pageSize] at hin
    omega
  have hlow : ((0x40000, 3) : ℕ × ℕ).1 < 0x400000 := by norm_num
  have habove : ((0x40000, 3) : ℕ × ℕ).1 ∉ Set.Iio 0x40000 := lt_irrefl 0x40000
  exact seen_bringUp (by decide) hlt hon hframes framebufferApart_xgaMode
    (hkeeps.disjoint_tablePages hbelow) hm hv hwalk hlow habove

end BabOs.Mm
