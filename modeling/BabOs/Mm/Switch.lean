import BabOs.Boot.PageTables
import BabOs.Mm.HeapPages

/-!
# The switch to the kernel directory

`vmm_init` repeats the mappings of the boot tables and adds the framebuffer.
The loop over the framebuffer goes by pages from its first byte on, so it ends
one page early when that byte is not at the start of a page and the last one
lies too far behind it.
-/

namespace BabOs.Mm

open BabOs.Vmm BabOs.Boot

/-- The framebuffer does not wrap, and lies apart from what the boot tables
map. -/
structure FramebufferApart (vbe : VbeModeInfo) : Prop where
  nowrap : vbe.framebuffer + vbe.height * vbe.pitch ≤ 2 ^ 32
  low : Disjoint (Set.Ico vbe.framebuffer
    (vbe.framebuffer + vbe.height * vbe.pitch)) (Set.Ico 0 0x800000)
  high : Disjoint (Set.Ico vbe.framebuffer
    (vbe.framebuffer + vbe.height * vbe.pitch))
      (Set.Ico 0xC0000000 0xC0800000)

def kernelRanges (vbe : VbeModeInfo) : Set ℕ :=
  Set.Ico 0 0x800000 ∪ Set.Ico 0xC0000000 0xC0800000 ∪
    Set.Ico vbe.framebuffer (vbe.framebuffer + vbe.height * vbe.pitch)

/-- Under `s` every address keeps the translation it has under `boot`, every
byte of the framebuffer is mapped to itself, and nothing is present outside the
pages of the three ranges. -/
structure Transparent {σ : Type*} (boot s : State σ) (vbe : VbeModeInfo) :
    Prop where
  same : ∀ v < 2 ^ 32, ∀ r, walk boot v = some r →
    (walk s v).map Prod.fst = some r.1
  low : ∀ a < 0x800000, (walk s a).map Prod.fst = some a
  high : ∀ a < 0x800000, (walk s (0xC0000000 + a)).map Prod.fst = some a
  framebuffer : ∀ a ∈ Set.Ico vbe.framebuffer
      (vbe.framebuffer + vbe.height * vbe.pitch),
    (walk s a).map Prod.fst = some a
  absent : ∀ v < 2 ^ 32,
    (∀ a ∈ kernelRanges vbe, a / pageSize ≠ v / pageSize) → walk s v = none

/-- The framebuffer is empty, or the pages from its first byte on reach its
last one. -/
def LastPageReached (vbe : VbeModeInfo) : Prop :=
  vbe.height * vbe.pitch = 0 ∨
    vbe.framebuffer % pageSize + (vbe.height * vbe.pitch - 1) % pageSize <
      pageSize

section Calls

variable {vbe : VbeModeInfo} {c : MapCall} {v : ℕ}

theorem mem_identityCalls_iff :
    c ∈ identityCalls ↔
      ∃ i, pageSize ∣ i ∧ i < 0x800000 ∧ c = ⟨i, i, pageFlags⟩ := by
  simp only [identityCalls, List.mem_map, mem_pageOffsets_iff, and_assoc,
    eq_comm]

theorem mem_higherHalfCalls_iff :
    c ∈ higherHalfCalls ↔
      ∃ i, pageSize ∣ i ∧ i < 0x800000 ∧
        c = ⟨0xC0000000 + i, i, pageFlags⟩ := by
  simp only [higherHalfCalls, List.mem_map, mem_pageOffsets_iff, and_assoc,
    eq_comm]

theorem fbSize_lt (vbe : VbeModeInfo) : vbe.height * vbe.pitch < 2 ^ 32 := by
  have hlt := Nat.mul_lt_mul'' vbe.height_lt vbe.pitch_lt
  rwa [← pow_add] at hlt

/-- The sizes and addresses of the framebuffer loop do not wrap. -/
theorem mem_framebufferCalls_iff
    (hnowrap : vbe.framebuffer + vbe.height * vbe.pitch ≤ 2 ^ 32) :
    c ∈ framebufferCalls vbe ↔
      ∃ i, pageSize ∣ i ∧ i < vbe.height * vbe.pitch ∧
        c = ⟨vbe.framebuffer + i, vbe.framebuffer + i, pageFlags⟩ := by
  rw [framebufferCalls, uint32_eq_of_lt (fbSize_lt vbe), List.mem_map]
  simp only [mem_pageOffsets_iff, and_assoc]
  constructor
  · rintro ⟨i, hdvd, hlt, rfl⟩
    refine ⟨i, hdvd, hlt, ?_⟩
    rw [uint32_eq_of_lt (by omega)]
  · rintro ⟨i, hdvd, hlt, rfl⟩
    refine ⟨i, hdvd, hlt, ?_⟩
    rw [uint32_eq_of_lt (by omega)]

theorem translation_eq (hphysical : c.physical < 2 ^ 32) :
    c.translation v = (c.physical / 4096 * 4096 + v % 4096, c.flags) := by
  rw [MapCall.translation, and_high hphysical, and_low]

/-- The pages that the framebuffer loop maps. -/
def FramebufferPage (vbe : VbeModeInfo) (v : ℕ) : Prop :=
  0 < vbe.height * vbe.pitch ∧
    vbe.framebuffer / pageSize ≤ v / pageSize ∧
      v / pageSize ≤ vbe.framebuffer / pageSize +
        (vbe.height * vbe.pitch - 1) / pageSize

/-- What the calls of `vmm_init` that name the page of `v` map it to. -/
theorem translation_of_mem_vmmInitCalls (hvbe : FramebufferApart vbe)
    (hc : c ∈ vmmInitCalls vbe) (hpage : c.virtual / pageSize = v / pageSize) :
    (v < 0x800000 ∧ c.translation v = (v, pageFlags)) ∨
      (0xC0000000 ≤ v ∧ v < 0xC0800000 ∧
        c.translation v = (v - 0xC0000000, pageFlags)) ∨
      (FramebufferPage vbe v ∧ c.translation v = (v, pageFlags)) := by
  have hvalid := valid_of_mem_vmmInitCalls hc
  have htranslation := translation_eq (v := v) hvalid.physical_lt
  have hnowrap := hvbe.nowrap
  rw [pageSize] at hpage
  rw [vmmInitCalls, List.mem_append, List.mem_append, mem_identityCalls_iff,
    mem_higherHalfCalls_iff, mem_framebufferCalls_iff hnowrap] at hc
  rw [htranslation]
  rcases hc with (⟨i, hdvd, hlt, rfl⟩ | ⟨i, hdvd, hlt, rfl⟩) |
    ⟨i, hdvd, hlt, rfl⟩
  · rw [pageSize] at hdvd
    dsimp only at hpage ⊢
    refine Or.inl ⟨by omega, ?_⟩
    rw [hpage, Nat.div_add_mod']
  · rw [pageSize] at hdvd
    dsimp only at hpage ⊢
    refine Or.inr (Or.inl ⟨by omega, by omega, ?_⟩)
    rw [Prod.mk.injEq]
    exact ⟨by omega, rfl⟩
  · rw [pageSize] at hdvd
    dsimp only at hpage ⊢
    refine Or.inr (Or.inr ⟨?_, ?_⟩)
    · simp only [FramebufferPage, pageSize]
      omega
    · rw [hpage, Nat.div_add_mod']

/-- Each page of the three ranges is named by a call. -/
theorem exists_mem_vmmInitCalls (hvbe : FramebufferApart vbe)
    (hv : v < 0x800000 ∨ (0xC0000000 ≤ v ∧ v < 0xC0800000) ∨
      FramebufferPage vbe v) :
    ∃ c ∈ vmmInitCalls vbe, c.virtual / pageSize = v / pageSize := by
  simp only [vmmInitCalls, List.mem_append, mem_identityCalls_iff,
    mem_higherHalfCalls_iff, mem_framebufferCalls_iff hvbe.nowrap]
  rcases hv with hlow | ⟨hge, hlt⟩ | ⟨hpos, hge, hle⟩
  · refine ⟨_, Or.inl (Or.inl ⟨v / pageSize * pageSize, dvd_mul_left _ _, ?_,
      rfl⟩), ?_⟩
    · rw [pageSize]
      omega
    · dsimp only
      rw [pageSize]
      omega
  · refine ⟨_, Or.inl (Or.inr ⟨(v - 0xC0000000) / pageSize * pageSize,
      dvd_mul_left _ _, ?_, rfl⟩), ?_⟩
    · rw [pageSize]
      omega
    · dsimp only
      rw [pageSize]
      omega
  · refine ⟨_, Or.inr ⟨(v / pageSize - vbe.framebuffer / pageSize) * pageSize,
      dvd_mul_left _ _, ?_, rfl⟩, ?_⟩
    · rw [pageSize] at hge hle ⊢
      omega
    · dsimp only
      rw [pageSize] at hge ⊢
      omega

end Calls

section Walk

variable {σ : Type*} {allocPage : σ → ℕ × σ} {s : State σ} {vbe : VbeModeInfo}
variable {v : ℕ}

/-- What the directory maps after the calls of `vmm_init`. -/
structure KernelMaps (s : State σ) (vbe : VbeModeInfo) : Prop where
  low : ∀ v < 0x800000, walk s v = some (v, pageFlags)
  high : ∀ v, 0xC0000000 ≤ v → v < 0xC0800000 →
    walk s v = some (v - 0xC0000000, pageFlags)
  framebuffer : ∀ v < 2 ^ 32, FramebufferPage vbe v →
    walk s v = some (v, pageFlags)
  absent : ∀ v < 2 ^ 32, ¬v < 0x800000 →
    ¬(0xC0000000 ≤ v ∧ v < 0xC0800000) → ¬FramebufferPage vbe v →
      walk s v = none

/-- The framebuffer pages are not those of the other ranges. -/
theorem FramebufferApart.not_page (hvbe : FramebufferApart vbe)
    (hpage : FramebufferPage vbe v) :
    ¬v < 0x800000 ∧ ¬(0xC0000000 ≤ v ∧ v < 0xC0800000) := by
  have hlow := Set.Ico_disjoint_Ico.mp hvbe.low
  have hhigh := Set.Ico_disjoint_Ico.mp hvbe.high
  obtain ⟨hpos, hge, hle⟩ := hpage
  rw [pageSize] at hge hle
  omega

theorem kernelMaps_vmmInitCalls
    (hframes : FramesSupplied allocPage s (vmmInitCalls vbe))
    (hvbe : FramebufferApart vbe) :
    KernelMaps (mapCalls allocPage (createDirectory allocPage s) (vmmInitCalls vbe))
      vbe := by
  have hvalid : ∀ c ∈ vmmInitCalls vbe, c.Valid :=
    fun _ hc => valid_of_mem_vmmInitCalls hc
  constructor
  · intro v hv
    obtain ⟨c, hc, hpage⟩ := exists_mem_vmmInitCalls hvbe (Or.inl hv)
    refine hframes.walk_of_mem hvalid (by omega) hc hpage
      fun d hd hdpage => ?_
    rcases translation_of_mem_vmmInitCalls hvbe hd hdpage with
      ⟨-, heq⟩ | ⟨hge, -⟩ | ⟨hfb, -⟩
    · exact heq
    · omega
    · exact absurd hv (hvbe.not_page hfb).1
  · intro v hge hlt
    obtain ⟨c, hc, hpage⟩ :=
      exists_mem_vmmInitCalls hvbe (Or.inr (Or.inl ⟨hge, hlt⟩))
    refine hframes.walk_of_mem hvalid (by omega) hc hpage
      fun d hd hdpage => ?_
    rcases translation_of_mem_vmmInitCalls hvbe hd hdpage with
      ⟨hlow, -⟩ | ⟨-, -, heq⟩ | ⟨hfb, -⟩
    · omega
    · exact heq
    · exact absurd ⟨hge, hlt⟩ (hvbe.not_page hfb).2
  · intro v hv hfb
    obtain ⟨c, hc, hpage⟩ :=
      exists_mem_vmmInitCalls hvbe (Or.inr (Or.inr hfb))
    refine hframes.walk_of_mem hvalid hv hc hpage
      fun d hd hdpage => ?_
    rcases translation_of_mem_vmmInitCalls hvbe hd hdpage with
      ⟨-, heq⟩ | ⟨hge, hlt, -⟩ | ⟨-, heq⟩
    · exact heq
    · exact absurd ⟨hge, hlt⟩ (hvbe.not_page hfb).2
    · exact heq
  · intro v hv hlow hhigh hfb
    refine hframes.walk_eq_none hvalid hv
      fun c hc hpage => ?_
    rcases translation_of_mem_vmmInitCalls hvbe hc hpage with
      ⟨hlt, -⟩ | ⟨hge, hlt, -⟩ | ⟨hpage, -⟩
    · exact hlow hlt
    · exact hhigh ⟨hge, hlt⟩
    · exact hfb hpage

/-- When the loop ends too early, the last byte of the framebuffer is not
mapped. -/
theorem KernelMaps.not_transparent {σ' : Type*} {s : State σ'}
    (hmaps : KernelMaps s vbe) (hvbe : FramebufferApart vbe)
    (hmissed : ¬LastPageReached vbe) (boot : State σ') :
    ¬Transparent boot s vbe := by
  intro htransparent
  have hnowrap := hvbe.nowrap
  have hlow := Set.Ico_disjoint_Ico.mp hvbe.low
  have hhigh := Set.Ico_disjoint_Ico.mp hvbe.high
  simp only [LastPageReached, not_or, not_lt, pageSize] at hmissed
  obtain ⟨hpos, hmissed⟩ := hmissed
  have hmapped := htransparent.framebuffer
    (vbe.framebuffer + vbe.height * vbe.pitch - 1) ⟨by omega, by omega⟩
  have hpage : ¬FramebufferPage vbe
      (vbe.framebuffer + vbe.height * vbe.pitch - 1) := by
    simp only [FramebufferPage, pageSize]
    omega
  rw [hmaps.absent _ (by omega) (by omega) (by omega) hpage] at hmapped
  cases hmapped

end Walk

/-- The directory that `vmm_init` builds under the boot tables is transparent and
complete if and only if the framebuffer loop reaches the page of the last
byte. -/
theorem vmmInit_transparent_iff {σ : Type*} (allocPage : σ → ℕ × σ)
    (s : State σ) (directory : ℕ) (vbe : VbeModeInfo)
    (hdvd : pageSize ∣ directory) (hlt : directory + 0x3000 ≤ 2 ^ 32)
    (hvbe : FramebufferApart vbe)
    (hframes : FramesSupplied allocPage (enterPaging directory s)
      (vmmInitCalls vbe)) :
    Transparent (enterPaging directory s)
        (mapCalls allocPage
          (createDirectory allocPage (enterPaging directory s))
          (vmmInitCalls vbe)) vbe ↔
      LastPageReached vbe := by
  have hmaps := kernelMaps_vmmInitCalls hframes hvbe
  have hnowrap := hvbe.nowrap
  constructor
  · intro htransparent
    by_contra hmissed
    exact hmaps.not_transparent hvbe hmissed _ htransparent
  · intro hreached
    refine ⟨?_, ?_, ?_, ?_, ?_⟩
    · intro v hv r hr
      rw [walk_enterPaging hdvd hlt hv, kernelVirtualBase] at hr
      split_ifs at hr with hbelow habove
      · rw [← Option.some.inj hr, hmaps.low v hbelow]
        rfl
      · rw [← Option.some.inj hr, hmaps.high v habove.1 (by omega)]
        rfl
    · intro a ha
      rw [hmaps.low a ha]
      rfl
    · intro a ha
      rw [hmaps.high _ (by omega) (by omega), Nat.add_sub_cancel_left]
      rfl
    · rintro a ⟨hge, hle⟩
      have hpage : FramebufferPage vbe a := by
        simp only [LastPageReached, FramebufferPage, pageSize] at hreached ⊢
        omega
      rw [hmaps.framebuffer a (by omega) hpage]
      rfl
    · intro v hv hout
      refine hmaps.absent v hv ?_ ?_ ?_
      · intro hbelow
        exact hout v (Or.inl (Or.inl ⟨Nat.zero_le v, hbelow⟩)) rfl
      · intro habove
        exact hout v (Or.inl (Or.inr habove)) rfl
      · rintro ⟨hpos, hge, hle⟩
        rw [pageSize] at hge hle
        refine hout (max vbe.framebuffer (v / 4096 * 4096))
          (Or.inr ⟨by omega, by omega⟩) ?_
        rw [pageSize]
        omega

/-! ## Frames from the page allocator -/

section Supplied

variable {R : Set ℕ} {b : Backing} {vbe : VbeModeInfo} {calls : List MapCall}

/-- With a free frame for the directory and one for each table the page
allocator supplies the frames. -/
theorem framesSupplied_frameAlloc (hok : b.frames.Ok R) (hR : Usable R)
    (hfree : b.frames.free.Nonempty) (hvalid : ∀ c ∈ calls, c.Valid)
    (hroom : (missingTables (createDirectory frameAlloc b)
        (calls.map (·.virtual))).card ≤
      (createDirectory frameAlloc b).frames.free.ncard) :
    FramesSupplied frameAlloc b calls := by
  have hdirectory := (backingOk_createDirectory hok hR hfree).1
  exact ⟨hdirectory.tables.directory_dvd,
    (hdirectory.mapCalls_fresh hR hvalid hroom).2⟩

theorem Room.framesSupplied (hroom : Room vbe b) (hok : b.frames.Ok R)
    (hR : Usable R) : FramesSupplied frameAlloc b (vmmInitCalls vbe) :=
  framesSupplied_frameAlloc hok hR hroom.directory
    (fun _ hc => valid_of_mem_vmmInitCalls hc) hroom.tables

end Supplied

/-- The state in which `vmm_init` is called, with three hundred free frames. -/
def bootedState : Backing := enterPaging 0x11000 smallState.backing

theorem ncard_free_bootedState : bootedState.frames.free.ncard = 300 :=
  ncard_free_small

theorem framebufferApart_xgaMode : FramebufferApart xgaMode := by
  refine ⟨by norm_num [xgaMode], ?_, ?_⟩
  · rw [Set.Ico_disjoint_Ico]
    norm_num [xgaMode]
  · rw [Set.Ico_disjoint_Ico]
    norm_num [xgaMode]

theorem vmmInit_transparent_iff_xgaMode :
    Transparent bootedState (vmmInit xgaMode bootedState) xgaMode := by
  have hroom : Room xgaMode bootedState :=
    room_xgaMode frames_ok_small usable_small
      (by rw [ncard_free_bootedState]; norm_num)
  refine (vmmInit_transparent_iff frameAlloc smallState.backing 0x11000 xgaMode
    (by decide) (by norm_num) framebufferApart_xgaMode
    (hroom.framesSupplied frames_ok_small usable_small)).mpr (Or.inr ?_)
  norm_num [xgaMode, pageSize]

/-- One line of 8192 bytes that begins in the middle of a page. -/
def halfPageMode : VbeModeInfo where
  framebuffer := 0xFD000800
  height := 1
  pitch := 8192
  framebuffer_lt := by omega
  height_lt := by omega
  pitch_lt := by omega

/-- The end of the line is not mapped. -/
theorem not_transparent_halfPageMode :
    FramebufferApart halfPageMode ∧
      ¬Transparent bootedState (vmmInit halfPageMode bootedState)
        halfPageMode := by
  have hvbe : FramebufferApart halfPageMode := by
    refine ⟨by norm_num [halfPageMode], ?_, ?_⟩
    · rw [Set.Ico_disjoint_Ico]
      norm_num [halfPageMode]
    · rw [Set.Ico_disjoint_Ico]
      norm_num [halfPageMode]
  have hcard :
      (missingTables (createDirectory frameAlloc bootedState)
        ((vmmInitCalls halfPageMode).map (·.virtual))).card ≤ 5 :=
    card_missingTables_xgaSlots _ (by norm_num [halfPageMode])
      (by norm_num [halfPageMode])
  have hroom : Room halfPageMode bootedState :=
    room_of_card frames_ok_small usable_small hcard
      (by rw [ncard_free_bootedState]; norm_num)
  have hmaps := kernelMaps_vmmInitCalls
    (hroom.framesSupplied frames_ok_small usable_small) hvbe
  refine ⟨hvbe, hmaps.not_transparent hvbe ?_ _⟩
  norm_num [LastPageReached, halfPageMode, pageSize]

end BabOs.Mm
