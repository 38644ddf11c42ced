import BabOs.Vmm.Mapping

/-!
# Access rights

The processor allows what the directory entry and the table entry of a page both
allow.  `vmm_map_page` sets the flags of a directory entry only when it creates
the table, so the first call in a slot bounds the rights of all later ones.
-/

namespace BabOs.Vmm

variable {σ : Type*} {allocPage : σ → ℕ × σ}

def rightsMask : ℕ := pageRw ||| pageUser

/-- The rights of the page of `v`, when it is mapped. -/
def effectiveRights (s : State σ) (v : ℕ) : Option ℕ :=
  (walk s v).map fun r => pde s v &&& r.2 &&& rightsMask

def MapCall.rights (c : MapCall) : ℕ := c.flags &&& rightsMask

/-- The first call in the slot of the directory at index `i`. -/
def firstCall (calls : List MapCall) (i : ℕ) : Option MapCall :=
  calls.find? fun c => pdIndex c.virtual = i

/-- After each call every mapped page has the rights of the last call that
mapped it; in particular the page just mapped has those of this call. -/
def RightsTaken (allocPage : σ → ℕ × σ) (s : State σ) (calls : List MapCall) :
    Prop :=
  ∀ before c after, calls = before ++ c :: after → ∀ v < 2 ^ 32,
    effectiveRights (mapCalls allocPage s (before ++ [c])) v =
      (lastCall (before ++ [c]) v).map MapCall.rights

/-! ## The flags of a directory entry -/

section Slots

variable {s : State σ} {virtual physical flags : ℕ} {calls : List MapCall}
variable {c : MapCall} {i v : ℕ}

/-- The rights of a directory entry are those of the call that created its
table. -/
theorem newPde_rights {t : ℕ} (hdvd : pageSize ∣ t) (flags : ℕ) :
    (t ||| flags ||| pagePresent) &&& rightsMask = flags &&& rightsMask := by
  have hlow : t &&& rightsMask = 0 := by
    have hmask : rightsMask = 0xFFF &&& rightsMask := by decide
    have hzero : t % 4096 = 0 := Nat.mod_eq_zero_of_dvd hdvd
    rw [hmask, ← Nat.and_assoc, and_low, hzero, Nat.zero_and]
  have hpresent : pagePresent &&& rightsMask = 0 := by decide
  rw [Nat.and_or_distrib_right, Nat.and_or_distrib_right, hlow, hpresent,
    Nat.zero_or, Nat.or_zero]

theorem TablesOk.slot_vmmMapPage_self (h : TablesOk s)
    (hvirtual : virtual < 2 ^ 32) (hflags : flags < 0x1000)
    (habsent : ¬Present s (pdIndex virtual))
    (hfresh : Fresh s (allocPage s.frames).1) :
    slot (Vmm.vmmMapPage allocPage virtual physical flags s)
        (pdIndex virtual) =
      (allocPage s.frames).1 ||| flags ||| pagePresent := by
  have hi := pdIndex_lt hvirtual
  obtain ⟨hok, hpresent, htable, -⟩ :=
    h.addTable hvirtual hflags habsent hfresh
  have hmem := hok.slots _ hi hpresent
  rw [htable] at hmem
  rw [vmmMapPage_of_absent habsent,
    hok.slot_setEntry hmem hi (ptIndex_lt virtual)]
  exact slot_addTable_self hfresh.dvd hfresh.lt hflags

theorem TablesOk.run (h : TablesOk s) (hc : c.Valid)
    (hfresh : ¬Present s (pdIndex c.virtual) →
      Fresh s (allocPage s.frames).1) :
    TablesOk (c.run allocPage s) :=
  (h.vmmMapPage hc.virtual_lt hc.physical_lt hc.flags_lt hfresh).1

theorem TablesOk.slot_mapCalls_of_present (h : TablesOk s)
    (hvalid : ∀ c ∈ calls, c.Valid) (hfresh : FreshFrames allocPage s calls)
    (hi : i < 1024) (hpresent : Present s i) :
    slot (mapCalls allocPage s calls) i = slot s i := by
  induction calls generalizing s with
  | nil => rfl
  | cons c calls ih =>
      obtain ⟨hc, hcalls⟩ := List.forall_mem_cons.mp hvalid
      have hslot : slot (c.run allocPage s) i = slot s i :=
        h.slot_vmmMapPage hc.virtual_lt hc.flags_lt hfresh.1 hi
          fun _ => hpresent
      have hpresent' : Present (c.run allocPage s) i := by
        rw [Present, hslot]
        exact hpresent
      rw [mapCalls, List.foldl_cons]
      exact (ih (h.run hc hfresh.1) hcalls hfresh.2 hpresent').trans hslot

/-- A free slot gets the rights of its first call, and keeps them. -/
theorem TablesOk.slot_mapCalls_rights (h : TablesOk s)
    (hvalid : ∀ c ∈ calls, c.Valid) (hfresh : FreshFrames allocPage s calls)
    (hi : i < 1024) (habsent : ¬Present s i) {f : MapCall}
    (hf : firstCall calls i = some f) :
    slot (mapCalls allocPage s calls) i &&& rightsMask = f.rights := by
  induction calls generalizing s with
  | nil => cases hf
  | cons c calls ih =>
      obtain ⟨hc, hcalls⟩ := List.forall_mem_cons.mp hvalid
      have hok := h.run hc hfresh.1
      rw [mapCalls, List.foldl_cons]
      by_cases hindex : pdIndex c.virtual = i
      · obtain rfl : c = f := by simpa [firstCall, hindex] using hf
        subst hindex
        have hframe := hfresh.1 habsent
        have hslot : slot (c.run allocPage s) (pdIndex c.virtual) =
            (allocPage s.frames).1 ||| c.flags ||| pagePresent :=
          h.slot_vmmMapPage_self hc.virtual_lt hc.flags_lt habsent hframe
        have hpresent : Present (c.run allocPage s) (pdIndex c.virtual) :=
          (h.present_vmmMapPage hc.virtual_lt hc.flags_lt hfresh.1 hi).mpr
            (Or.inr rfl)
        have hkept := hok.slot_mapCalls_of_present hcalls hfresh.2 hi hpresent
        rw [mapCalls] at hkept
        rw [hkept, hslot]
        exact newPde_rights hframe.dvd c.flags
      · have hf' : firstCall calls i = some f := by
          simpa [firstCall, hindex] using hf
        have habsent' : ¬Present (c.run allocPage s) i := by
          intro hpresent
          rcases (h.present_vmmMapPage hc.virtual_lt hc.flags_lt hfresh.1
            hi).mp hpresent with hp | heq
          · exact habsent hp
          · exact hindex heq.symm
        exact ih hok hcalls hfresh.2 habsent' hf'

end Slots

/-! ## Rights after any calls -/

section Rights

variable {s : State σ} {calls : List MapCall} {c f : MapCall} {v : ℕ}

theorem exists_firstCall (hc : c ∈ calls) :
    ∃ f, firstCall calls (pdIndex c.virtual) = some f := by
  rw [← Option.isSome_iff_exists, firstCall, List.find?_isSome]
  exact ⟨c, hc, by simp⟩

theorem pdIndex_eq_of_page {v w : ℕ} (h : v / pageSize = w / pageSize) :
    pdIndex v = pdIndex w :=
  ((indices_eq_iff v w).mpr h).1

theorem effectiveRights_mapCalls_eq_none (s : State σ)
    (hdirectory : pageSize ∣ (allocPage s.frames).1)
    (hvalid : ∀ c ∈ calls, c.Valid)
    (hfresh : FreshFrames allocPage (createDirectory allocPage s) calls)
    (hv : v < 2 ^ 32) (hlast : lastCall calls v = none) :
    effectiveRights (mapCalls allocPage (createDirectory allocPage s) calls) v =
      none := by
  rw [effectiveRights,
    FramesSupplied.walk_eq ⟨hdirectory, hfresh⟩ hvalid hv, hlast,
    Option.map_none, Option.map_none]

/-- The rights of a page are those that the first call in its slot and its own
last call have in common. -/
theorem effectiveRights_mapCalls (s : State σ)
    (hdirectory : pageSize ∣ (allocPage s.frames).1)
    (hvalid : ∀ c ∈ calls, c.Valid)
    (hfresh : FreshFrames allocPage (createDirectory allocPage s) calls)
    (hv : v < 2 ^ 32) (hlast : lastCall calls v = some c)
    (hfirst : firstCall calls (pdIndex c.virtual) = some f) :
    effectiveRights (mapCalls allocPage (createDirectory allocPage s) calls) v =
      some (f.rights &&& c.rights) := by
  have hok := (tablesOk_createDirectory s hdirectory).1
  have hwalk := FramesSupplied.walk_eq ⟨hdirectory, hfresh⟩ hvalid hv
  rw [hlast, Option.map_some] at hwalk
  have hindex : pdIndex v = pdIndex c.virtual :=
    pdIndex_eq_of_page (lastCall_mem hlast).2.symm
  have hslot := hok.slot_mapCalls_rights hvalid hfresh (pdIndex_lt hv)
    (not_present_createDirectory s (pdIndex_lt hv)) (hindex ▸ hfirst)
  rw [effectiveRights, hwalk, Option.map_some, Option.some_inj]
  calc
    _ = slot (mapCalls allocPage (createDirectory allocPage s) calls)
          (pdIndex v) &&& (c.flags &&& rightsMask) := Nat.and_assoc _ _ _
    _ = slot (mapCalls allocPage (createDirectory allocPage s) calls)
          (pdIndex v) &&& (rightsMask &&& (c.flags &&& rightsMask)) := by
      rw [Nat.and_comm rightsMask, Nat.and_assoc c.flags, Nat.and_self]
    _ = f.rights &&& c.rights := by
      rw [← Nat.and_assoc, hslot]
      rfl

theorem lastCall_concat (calls : List MapCall) (c : MapCall) :
    lastCall (calls ++ [c]) c.virtual = some c := by
  simp [lastCall]

theorem firstCall_append {before after : List MapCall} {i : ℕ}
    (hf : firstCall before i = some f) :
    firstCall (before ++ after) i = some f := by
  rw [firstCall, List.find?_append]
  rw [firstCall] at hf
  rw [hf, Option.some_or]

end Rights

/-- From an empty directory on, the rights that each call asks for take effect
and stay if and only if they are among those that the first call in the same
slot of the directory asked for. -/
theorem rightsTaken_iff (allocPage : σ → ℕ × σ) (s : State σ)
    (hdirectory : pageSize ∣ (allocPage s.frames).1) (calls : List MapCall)
    (hvalid : ∀ c ∈ calls, c.Valid)
    (hfresh : FreshFrames allocPage (createDirectory allocPage s) calls) :
    RightsTaken allocPage (createDirectory allocPage s) calls ↔
      ∀ c ∈ calls, ∀ f, firstCall calls (pdIndex c.virtual) = some f →
        f.rights &&& c.rights = c.rights := by
  have hinit : ∀ before c after, calls = before ++ c :: after →
      (∀ e ∈ before ++ [c], e.Valid) ∧
        FreshFrames allocPage (createDirectory allocPage s) (before ++ [c]) ∧
        ∀ d i, firstCall (before ++ [c]) i = some d →
          firstCall calls i = some d := by
    rintro before c after rfl
    have hsplit : before ++ c :: after = (before ++ [c]) ++ after := by simp
    rw [hsplit] at hfresh hvalid ⊢
    exact ⟨fun e he => hvalid e (List.mem_append_left after he),
      freshFrames_initial hfresh, fun d i hd => firstCall_append hd⟩
  constructor
  · intro htaken c hc f hf
    obtain ⟨before, after, hsplit⟩ := List.append_of_mem hc
    obtain ⟨hvalid', hfresh', hfirst⟩ := hinit before c after hsplit
    have hv := (hvalid c hc).virtual_lt
    have hlast := lastCall_concat before c
    obtain ⟨f', hf'⟩ := exists_firstCall (lastCall_mem hlast).1
    obtain rfl := Option.some.inj ((hfirst f' _ hf').symm.trans hf)
    have heffect := htaken before c after hsplit _ hv
    rw [effectiveRights_mapCalls s hdirectory hvalid' hfresh' hv hlast hf',
      hlast, Option.map_some] at heffect
    exact Option.some.inj heffect
  · intro hrights before c after hsplit v hv
    obtain ⟨hvalid', hfresh', hfirst⟩ := hinit before c after hsplit
    cases hlast : lastCall (before ++ [c]) v with
    | none =>
        rw [effectiveRights_mapCalls_eq_none s hdirectory hvalid' hfresh' hv
          hlast, Option.map_none]
    | some d =>
        have hmem := (lastCall_mem hlast).1
        obtain ⟨f, hf⟩ := exists_firstCall hmem
        have hd : d ∈ calls := by
          rw [hsplit]
          simp only [List.mem_append, List.mem_cons] at hmem ⊢
          tauto
        rw [effectiveRights_mapCalls s hdirectory hvalid' hfresh' hv hlast hf,
          Option.map_some, hrights d hd f (hfirst f _ hf)]

/-- A page for the user and one for the kernel in the same slot. -/
theorem rightsTaken_iff_userFirst :
    RightsTaken nextFrame (createDirectory nextFrame blankState)
      [⟨0x1000, 0x5000, 7⟩, ⟨0x2000, 0x6000, 3⟩] := by
  refine (rightsTaken_iff nextFrame blankState ?_ _ ?_ ?_).mpr ?_
  · decide
  · intro c hc
    simp only [List.mem_cons, List.not_mem_nil, or_false] at hc
    rcases hc with rfl | rfl <;>
      exact ⟨by decide, by decide, by decide, by decide⟩
  · refine ⟨fun _ => ⟨by decide, by decide, by decide, by decide⟩, ?_, trivial⟩
    intro habsent
    exact absurd (by decide +kernel) habsent
  · intro c hc f hf
    simp only [List.mem_cons, List.not_mem_nil, or_false] at hc
    have hfirst : f = ⟨0x1000, 0x5000, 7⟩ := by
      rcases hc with rfl | rfl <;> exact (Option.some.inj hf).symm
    rcases hc with rfl | rfl <;> rw [hfirst] <;> decide

/-- A page that is mapped read-only first takes the right to write from the
next page of its slot. -/
theorem not_rightsTaken_readOnlyFirst :
    ¬RightsTaken nextFrame (createDirectory nextFrame blankState)
      [⟨0x1000, 0x5000, 1⟩, ⟨0x2000, 0x6000, 3⟩] := by
  intro htaken
  have hrights := htaken [⟨0x1000, 0x5000, 1⟩] ⟨0x2000, 0x6000, 3⟩ [] rfl 0x2000
    (by norm_num)
  revert hrights
  decide +kernel

end BabOs.Vmm
