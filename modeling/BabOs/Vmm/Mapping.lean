import BabOs.Vmm.Model

/-!
# The tables as a finite map

No two slots of the directory share a table, and no table is the directory.
While that holds, `vmm_map_page` changes the entry of one page and leaves the
entries of all others alone, so that any run of calls is a run of updates of a
map from pages to entries.
-/

namespace BabOs.Vmm

variable {σ : Type*} {allocPage : σ → ℕ × σ}

/-! ## Entries -/

def slot (s : State σ) (i : ℕ) : ℕ := s.mem.load32 (s.currentDirectory + 4 * i)

/-- The table that the directory entry at index `i` points to. -/
def tableOf (s : State σ) (i : ℕ) : ℕ := slot s i &&& 0xFFFFF000

def Present (s : State σ) (i : ℕ) : Prop := slot s i &&& pagePresent ≠ 0

instance (s : State σ) (i : ℕ) : Decidable (Present s i) :=
  inferInstanceAs (Decidable (_ ≠ _))

/-- The table entry at the indices `i` and `j`, or zero without a table. -/
def entry (s : State σ) (i j : ℕ) : ℕ :=
  if Present s i then s.mem.load32 (tableOf s i + 4 * j) else 0

/-- The entry that `vmm_map_page` writes. -/
def pte (physical flags : ℕ) : ℕ := (physical &&& 0xFFFFF000) ||| flags

section Entries

variable {virtual physical flags : ℕ}

theorem pdIndex_lt (h : virtual < 2 ^ 32) : pdIndex virtual < 1024 := by
  rw [pdIndex, Nat.shiftRight_eq_div_pow]
  omega

theorem ptIndex_eq (virtual : ℕ) : ptIndex virtual = virtual / 4096 % 1024 := by
  rw [ptIndex, Nat.shiftRight_eq_div_pow]
  exact Nat.and_two_pow_sub_one_eq_mod _ 10

theorem ptIndex_lt (virtual : ℕ) : ptIndex virtual < 1024 := by
  rw [ptIndex_eq]
  exact Nat.mod_lt _ (by norm_num)

theorem indices_eq_iff (v w : ℕ) :
    (pdIndex v = pdIndex w ∧ ptIndex v = ptIndex w) ↔ v / 4096 = w / 4096 := by
  simp only [ptIndex_eq, pdIndex, Nat.shiftRight_eq_div_pow]
  omega

theorem walk_eq_decode (s : State σ) (virtual : ℕ) :
    walk s virtual =
      decode virtual (entry s (pdIndex virtual) (ptIndex virtual)) := by
  by_cases h : Present s (pdIndex virtual)
  · rw [walk, entry, if_pos h,
      if_neg (show ¬(pde s virtual &&& pagePresent = 0) from h)]
    rfl
  · rw [walk, entry, if_neg h,
      if_pos (show pde s virtual &&& pagePresent = 0 from not_not.mp h)]
    rfl

theorem pte_eq (hphysical : physical < 2 ^ 32) (hflags : flags < 4096) :
    pte physical flags = physical / 4096 * 4096 + flags := by
  rw [pte, and_high hphysical]
  exact page_or (dvd_mul_left _ _) hflags

/-- The address and the flag bits of an entry separate again. -/
theorem decode_pte (hphysical : physical < 2 ^ 32) (hflags : flags < 0x1000)
    (hpresent : flags &&& pagePresent ≠ 0) (v : ℕ) :
    decode v (pte physical flags) =
      some ((physical &&& 0xFFFFF000) + (v &&& 0xFFF), flags) := by
  have hlt : pte physical flags < 2 ^ 32 := by
    rw [pte_eq hphysical hflags]
    omega
  have hpresent' : ¬pte physical flags &&& pagePresent = 0 := by
    rw [pagePresent, Nat.and_one_is_mod] at hpresent ⊢
    rw [pte_eq hphysical hflags]
    omega
  rw [decode, if_neg hpresent', and_high hlt, and_low (pte physical flags),
    and_high hphysical, pte_eq hphysical hflags]
  have hhigh : (physical / 4096 * 4096 + flags) / 4096 = physical / 4096 := by
    omega
  have hlow : (physical / 4096 * 4096 + flags) % 4096 = flags := by
    omega
  rw [hhigh, hlow]

end Entries

/-! ## The invariant -/

/-- No two slots share a table, and the tables are pages apart from the
directory. -/
structure TablesOk (s : State σ) : Prop where
  directory_dvd : pageSize ∣ s.currentDirectory
  table_dvd : ∀ t ∈ s.tables, pageSize ∣ t
  table_lt : ∀ t ∈ s.tables, t < 2 ^ 32
  table_ne : ∀ t ∈ s.tables, t ≠ s.currentDirectory
  slots : ∀ i < 1024, Present s i → tableOf s i ∈ s.tables
  separate : ∀ i < 1024, ∀ j < 1024, Present s i → Present s j →
    tableOf s i = tableOf s j → i = j

/-- The frame is page-aligned and was not handed out before. -/
structure Fresh (s : State σ) (frame : ℕ) : Prop where
  dvd : pageSize ∣ frame
  lt : frame < 2 ^ 32
  ne_directory : frame ≠ s.currentDirectory
  notMem_tables : frame ∉ s.tables

section Invariant

variable {s : State σ} {virtual physical flags : ℕ}

theorem pages_apart {a b : ℕ} (ha : pageSize ∣ a) (hb : pageSize ∣ b)
    (hne : a ≠ b) : a + 4096 ≤ b ∨ b + 4096 ≤ a := by
  rw [pageSize] at ha hb
  omega

/-- Writing an entry of a table leaves the directory alone. -/
theorem TablesOk.slot_setEntry (h : TablesOk s) {t i j e : ℕ}
    (ht : t ∈ s.tables) (hi : i < 1024) (hj : j < 1024) :
    slot (Vmm.setEntry t j e s) i = slot s i := by
  have hapart := pages_apart h.directory_dvd (h.table_dvd t ht)
    (h.table_ne t ht).symm
  have hsame : (Vmm.setEntry t j e s).currentDirectory =
      s.currentDirectory := rfl
  exact Memory.load32_store32_of_disjoint (by omega)

/-- Writing an entry of a table changes that entry and no other. -/
theorem TablesOk.setEntry (h : TablesOk s) {i₀ j₀ e : ℕ} (hi₀ : i₀ < 1024)
    (hj₀ : j₀ < 1024) (hpresent : Present s i₀) (he : e < 2 ^ 32) :
    TablesOk (setEntry (tableOf s i₀) j₀ e s) ∧
      ∀ i < 1024, ∀ j < 1024,
        entry (setEntry (tableOf s i₀) j₀ e s) i j =
          if i = i₀ ∧ j = j₀ then e else entry s i j := by
  set s' := Vmm.setEntry (tableOf s i₀) j₀ e s with hs'
  have htable := h.slots i₀ hi₀ hpresent
  have hslot : ∀ i < 1024, slot s' i = slot s i := fun i hi =>
    h.slot_setEntry htable hi hj₀
  have htableOf : ∀ i < 1024, tableOf s' i = tableOf s i := fun i hi => by
    rw [tableOf, hslot i hi, tableOf]
  have hiff : ∀ i < 1024, Present s' i ↔ Present s i := fun i hi => by
    rw [Present, hslot i hi, Present]
  refine ⟨⟨h.directory_dvd, h.table_dvd, h.table_lt, h.table_ne, ?_, ?_⟩, ?_⟩
  · intro i hi hp
    rw [htableOf i hi]
    exact h.slots i hi ((hiff i hi).mp hp)
  · intro i hi j hj hp hp' heq
    rw [htableOf i hi, htableOf j hj] at heq
    exact h.separate i hi j hj ((hiff i hi).mp hp) ((hiff j hj).mp hp') heq
  · intro i hi j hj
    by_cases hp : Present s i
    · rw [entry, if_pos ((hiff i hi).mpr hp), htableOf i hi, entry, if_pos hp]
      by_cases hii : i = i₀
      · subst hii
        by_cases hjj : j = j₀
        · subst hjj
          rw [if_pos ⟨rfl, rfl⟩]
          exact Memory.load32_store32.trans (uint32_eq_of_lt he)
        · rw [if_neg fun hand => hjj hand.2]
          exact Memory.load32_store32_of_disjoint (by omega)
      · rw [if_neg fun hand => hii hand.1]
        have hne : tableOf s i₀ ≠ tableOf s i := fun heq =>
          hii (h.separate i₀ hi₀ i hi hpresent hp heq).symm
        have htables := pages_apart (h.table_dvd _ htable)
          (h.table_dvd _ (h.slots i hi hp)) hne
        exact Memory.load32_store32_of_disjoint (by omega)
    · have hii : i ≠ i₀ := fun heq => hp (heq ▸ hpresent)
      rw [if_neg fun hand => hii hand.1, entry, entry, if_neg hp,
        if_neg (mt (hiff i hi).mp hp)]

theorem TablesOk.slot_addTable_of_ne (h : TablesOk s)
    (hfresh : Fresh s (allocPage s.frames).1) {i : ℕ} (hi : i < 1024)
    (hne : i ≠ pdIndex virtual) :
    slot (Vmm.addTable allocPage virtual flags s) i = slot s i := by
  have hdir := pages_apart h.directory_dvd hfresh.dvd hfresh.ne_directory.symm
  have hsame : (Vmm.addTable allocPage virtual flags s).currentDirectory =
      s.currentDirectory := rfl
  have hstore : slot (Vmm.addTable allocPage virtual flags s) i =
      (s.mem.fill (allocPage s.frames).1 0 tableSize).load32
        (s.currentDirectory + 4 * i) :=
    Memory.load32_store32_of_disjoint (by rw [pdeAddr]; omega)
  rw [hstore]
  exact Memory.load32_fill_of_disjoint (by rw [tableSize]; omega)

theorem or_pagePresent_lt (hflags : flags < 0x1000) :
    flags ||| pagePresent < 2 ^ 12 :=
  Nat.or_lt_two_pow (show flags < 2 ^ 12 from hflags) (by norm_num [pagePresent])

/-- The directory entry of a new table. -/
theorem newPde_eq {t : ℕ} (hdvd : pageSize ∣ t) (hflags : flags < 0x1000) :
    t ||| flags ||| pagePresent = t + (flags ||| pagePresent) := by
  rw [Nat.lor_assoc]
  exact page_or hdvd (or_pagePresent_lt hflags)

theorem newPde_lt {t : ℕ} (hdvd : pageSize ∣ t) (hlt : t < 2 ^ 32)
    (hflags : flags < 0x1000) : t ||| flags ||| pagePresent < 2 ^ 32 := by
  have hbits := or_pagePresent_lt hflags
  rw [newPde_eq hdvd hflags]
  rw [pageSize] at hdvd
  omega

theorem slot_addTable_self (hdvd : pageSize ∣ (allocPage s.frames).1)
    (hlt : (allocPage s.frames).1 < 2 ^ 32) (hflags : flags < 0x1000) :
    slot (Vmm.addTable allocPage virtual flags s) (pdIndex virtual) =
      (allocPage s.frames).1 ||| flags ||| pagePresent :=
  Memory.load32_store32.trans (uint32_eq_of_lt (newPde_lt hdvd hlt hflags))

theorem TablesOk.addTable (h : TablesOk s) (hvirtual : virtual < 2 ^ 32)
    (hflags : flags < 0x1000) (habsent : ¬Present s (pdIndex virtual))
    (hfresh : Fresh s (allocPage s.frames).1) :
    TablesOk (addTable allocPage virtual flags s) ∧
      Present (addTable allocPage virtual flags s) (pdIndex virtual) ∧
      tableOf (addTable allocPage virtual flags s) (pdIndex virtual) =
        (allocPage s.frames).1 ∧
      ∀ i < 1024, ∀ j < 1024,
        entry (addTable allocPage virtual flags s) i j = entry s i j := by
  have hslot : ∀ i < 1024, i ≠ pdIndex virtual →
      slot (Vmm.addTable allocPage virtual flags s) i = slot s i :=
    fun i hi hne => h.slot_addTable_of_ne hfresh hi hne
  obtain ⟨hdvd, hlt, hneDir, hnotMem⟩ := hfresh
  set t := (allocPage s.frames).1 with ht
  set s' := Vmm.addTable allocPage virtual flags s with hs'
  have hi₀ := pdIndex_lt hvirtual
  have hdir := pages_apart h.directory_dvd hdvd hneDir.symm
  have hbits := or_pagePresent_lt hflags
  have hpde := newPde_eq hdvd hflags
  have hpdeLt := newPde_lt hdvd hlt hflags
  have hself : slot s' (pdIndex virtual) = t ||| flags ||| pagePresent :=
    slot_addTable_self hdvd hlt hflags
  have hodd : (flags ||| pagePresent) % 2 = 1 := by
    rw [Nat.or_mod_two_eq_one]
    exact Or.inr rfl
  have hpresent : Present s' (pdIndex virtual) := by
    rw [Present, hself, hpde]
    change (t + (flags ||| pagePresent)) &&& 1 ≠ 0
    rw [Nat.and_one_is_mod]
    rw [pageSize] at hdvd
    omega
  have htable : tableOf s' (pdIndex virtual) = t := by
    rw [tableOf, hself, and_high hpdeLt, hpde]
    rw [pageSize] at hdvd
    omega
  have htableOf : ∀ i < 1024, i ≠ pdIndex virtual →
      tableOf s' i = tableOf s i := by
    intro i hi hne
    rw [tableOf, hslot i hi hne, tableOf]
  have hiff : ∀ i < 1024, i ≠ pdIndex virtual →
      (Present s' i ↔ Present s i) := by
    intro i hi hne
    rw [Present, hslot i hi hne, Present]
  have htables : s'.tables = t :: s.tables := rfl
  refine ⟨⟨h.directory_dvd, ?_, ?_, ?_, ?_, ?_⟩, hpresent, htable, ?_⟩
  · rw [htables]
    exact List.forall_mem_cons.mpr ⟨hdvd, h.table_dvd⟩
  · rw [htables]
    exact List.forall_mem_cons.mpr ⟨hlt, h.table_lt⟩
  · rw [htables]
    exact List.forall_mem_cons.mpr ⟨hneDir, h.table_ne⟩
  · intro i hi hp
    by_cases hii : i = pdIndex virtual
    · rw [hii, htable, htables]
      exact List.mem_cons_self
    · rw [htableOf i hi hii, htables]
      exact List.mem_cons_of_mem _ (h.slots i hi ((hiff i hi hii).mp hp))
  · intro i hi j hj hp hp' heq
    by_cases hii : i = pdIndex virtual <;> by_cases hjj : j = pdIndex virtual
    · rw [hii, hjj]
    · rw [hii, htable, htableOf j hj hjj] at heq
      exact absurd (heq ▸ h.slots j hj ((hiff j hj hjj).mp hp')) hnotMem
    · rw [hjj, htable, htableOf i hi hii] at heq
      exact absurd (heq ▸ h.slots i hi ((hiff i hi hii).mp hp)) hnotMem
    · rw [htableOf i hi hii, htableOf j hj hjj] at heq
      exact h.separate i hi j hj ((hiff i hi hii).mp hp)
        ((hiff j hj hjj).mp hp') heq
  · intro i hi j hj
    by_cases hii : i = pdIndex virtual
    · subst hii
      rw [entry, if_pos hpresent, htable, entry, if_neg habsent]
      have hstore : s'.mem.load32 (t + 4 * j) =
          (s.mem.fill t 0 tableSize).load32 (t + 4 * j) :=
        Memory.load32_store32_of_disjoint (by rw [pdeAddr]; omega)
      rw [hstore]
      exact Memory.load32_fill_zero (by omega) (by rw [tableSize]; omega)
    · by_cases hp : Present s i
      · rw [entry, if_pos ((hiff i hi hii).mpr hp), htableOf i hi hii, entry,
          if_pos hp]
        have hmem := h.slots i hi hp
        have hne : tableOf s i ≠ t := fun heq => hnotMem (heq ▸ hmem)
        have hnew := pages_apart (h.table_dvd _ hmem) hdvd hne
        have hold := pages_apart h.directory_dvd (h.table_dvd _ hmem)
          (h.table_ne _ hmem).symm
        have hstore : s'.mem.load32 (tableOf s i + 4 * j) =
            (s.mem.fill t 0 tableSize).load32 (tableOf s i + 4 * j) :=
          Memory.load32_store32_of_disjoint (by rw [pdeAddr]; omega)
        rw [hstore]
        exact Memory.load32_fill_of_disjoint (by rw [tableSize]; omega)
      · rw [entry, entry, if_neg hp, if_neg (mt (hiff i hi hii).mp hp)]

theorem vmmMapPage_of_present (h : Present s (pdIndex virtual)) :
    Vmm.vmmMapPage allocPage virtual physical flags s =
      Vmm.setEntry (tableOf s (pdIndex virtual)) (ptIndex virtual)
        (pte physical flags) s :=
  if_neg (show ¬(pde s virtual &&& pagePresent = 0) from h)

theorem vmmMapPage_of_absent (h : ¬Present s (pdIndex virtual)) :
    Vmm.vmmMapPage allocPage virtual physical flags s =
      Vmm.setEntry (allocPage s.frames).1 (ptIndex virtual)
        (pte physical flags) (Vmm.addTable allocPage virtual flags s) :=
  if_pos (show pde s virtual &&& pagePresent = 0 from not_not.mp h)

theorem TablesOk.vmmMapPage (h : TablesOk s) (hvirtual : virtual < 2 ^ 32)
    (hphysical : physical < 2 ^ 32) (hflags : flags < 0x1000)
    (hfresh : ¬Present s (pdIndex virtual) →
      Fresh s (allocPage s.frames).1) :
    TablesOk (vmmMapPage allocPage virtual physical flags s) ∧
      ∀ i < 1024, ∀ j < 1024,
        entry (vmmMapPage allocPage virtual physical flags s) i j =
          if i = pdIndex virtual ∧ j = ptIndex virtual then
            pte physical flags
          else entry s i j := by
  have hi := pdIndex_lt hvirtual
  have hj := ptIndex_lt virtual
  have hpte : pte physical flags < 2 ^ 32 := by
    rw [pte_eq hphysical hflags]
    omega
  by_cases hpresent : Present s (pdIndex virtual)
  · rw [vmmMapPage_of_present hpresent]
    exact h.setEntry hi hj hpresent hpte
  · obtain ⟨hok, hpresent', htable, hentry⟩ :=
      h.addTable hvirtual hflags hpresent (hfresh hpresent)
    obtain ⟨hok', hentry'⟩ := hok.setEntry hi hj hpresent' hpte
    rw [htable] at hok' hentry'
    rw [vmmMapPage_of_absent hpresent]
    refine ⟨hok', fun i hi j hj => ?_⟩
    rw [hentry' i hi j hj, hentry i hi j hj]

theorem TablesOk.slot_vmmMapPage (h : TablesOk s) (hvirtual : virtual < 2 ^ 32)
    (hflags : flags < 0x1000)
    (hfresh : ¬Present s (pdIndex virtual) →
      Fresh s (allocPage s.frames).1) {i : ℕ} (hi : i < 1024)
    (hkeep : i = pdIndex virtual → Present s i) :
    slot (Vmm.vmmMapPage allocPage virtual physical flags s) i = slot s i := by
  have hj := ptIndex_lt virtual
  by_cases hpresent : Present s (pdIndex virtual)
  · rw [vmmMapPage_of_present hpresent]
    exact h.slot_setEntry (h.slots _ (pdIndex_lt hvirtual) hpresent) hi hj
  · rw [vmmMapPage_of_absent hpresent]
    have hne : i ≠ pdIndex virtual := fun heq => hpresent (heq ▸ hkeep heq)
    obtain ⟨hok, hpresent', htable, -⟩ :=
      h.addTable hvirtual hflags hpresent (hfresh hpresent)
    have hmem := hok.slots _ (pdIndex_lt hvirtual) hpresent'
    rw [htable] at hmem
    rw [hok.slot_setEntry hmem hi hj]
    exact h.slot_addTable_of_ne (hfresh hpresent) hi hne

theorem TablesOk.present_vmmMapPage (h : TablesOk s)
    (hvirtual : virtual < 2 ^ 32) (hflags : flags < 0x1000)
    (hfresh : ¬Present s (pdIndex virtual) →
      Fresh s (allocPage s.frames).1) {i : ℕ} (hi : i < 1024) :
    Present (Vmm.vmmMapPage allocPage virtual physical flags s) i ↔
      Present s i ∨ i = pdIndex virtual := by
  by_cases hnew : i = pdIndex virtual ∧ ¬Present s i
  · obtain ⟨rfl, hpresent⟩ := hnew
    refine iff_of_true ?_ (Or.inr rfl)
    obtain ⟨hok, hpresent', htable, -⟩ :=
      h.addTable hvirtual hflags hpresent (hfresh hpresent)
    have hmem := hok.slots _ hi hpresent'
    rw [htable] at hmem
    rw [vmmMapPage_of_absent hpresent, Present,
      hok.slot_setEntry hmem hi (ptIndex_lt virtual)]
    exact hpresent'
  · rw [Present, h.slot_vmmMapPage hvirtual hflags hfresh hi
      fun heq => not_not.mp fun hnot => hnew ⟨heq, hnot⟩]
    constructor
    · exact Or.inl
    · rintro (hp | heq)
      · exact hp
      · exact not_not.mp fun hnot => hnew ⟨heq, hnot⟩

theorem TablesOk.walk_vmmMapPage (h : TablesOk s)
    (hvirtual : virtual < 2 ^ 32) (hphysical : physical < 2 ^ 32)
    (hflags : flags < 0x1000) (hpresent : flags &&& pagePresent ≠ 0)
    (hfresh : ¬Present s (pdIndex virtual) →
      Fresh s (allocPage s.frames).1) {v : ℕ} (hv : v < 2 ^ 32) :
    walk (Vmm.vmmMapPage allocPage virtual physical flags s) v =
      if virtual / pageSize = v / pageSize then
        some ((physical &&& 0xFFFFF000) + (v &&& 0xFFF), flags)
      else walk s v := by
  have hentry := (h.vmmMapPage hvirtual hphysical hflags hfresh).2
    (pdIndex v) (pdIndex_lt hv) (ptIndex v) (ptIndex_lt v)
  have hiff := indices_eq_iff v virtual
  rw [walk_eq_decode, hentry]
  by_cases hpage : virtual / pageSize = v / pageSize
  · rw [if_pos (hiff.mpr hpage.symm), if_pos hpage]
    exact decode_pte hphysical hflags hpresent v
  · rw [if_neg fun hand => hpage (hiff.mp hand).symm, if_neg hpage,
      walk_eq_decode]

end Invariant

/-! ## Runs of calls -/

/-- The arguments of a call of `vmm_map_page`. -/
structure MapCall where
  virtual : ℕ
  physical : ℕ
  flags : ℕ
  deriving DecidableEq

/-- Words for the addresses, and flags below the frame bits that contain
`PAGE_PRESENT`. -/
structure MapCall.Valid (c : MapCall) : Prop where
  virtual_lt : c.virtual < 2 ^ 32
  physical_lt : c.physical < 2 ^ 32
  flags_lt : c.flags < 0x1000
  present : c.flags &&& pagePresent ≠ 0

def MapCall.run (allocPage : σ → ℕ × σ) (s : State σ) (c : MapCall) : State σ :=
  vmmMapPage allocPage c.virtual c.physical c.flags s

def mapCalls (allocPage : σ → ℕ × σ) (s : State σ) (calls : List MapCall) :
    State σ :=
  calls.foldl (MapCall.run allocPage) s

/-- Each time a call asks for a frame it gets a fresh one. -/
def FreshFrames (allocPage : σ → ℕ × σ) : State σ → List MapCall → Prop
  | _, [] => True
  | s, c :: calls =>
      (¬Present s (pdIndex c.virtual) → Fresh s (allocPage s.frames).1) ∧
        FreshFrames allocPage (c.run allocPage s) calls

/-- The last call that names the page of `v`. -/
def lastCall (calls : List MapCall) (v : ℕ) : Option MapCall :=
  calls.reverse.find? fun c => c.virtual / pageSize = v / pageSize

/-- What the call maps the address `v` of its page to. -/
def MapCall.translation (c : MapCall) (v : ℕ) : ℕ × ℕ :=
  ((c.physical &&& 0xFFFFF000) + (v &&& 0xFFF), c.flags)

section Runs

variable {s : State σ} {calls : List MapCall} {v : ℕ}

theorem lastCall_cons (c : MapCall) (calls : List MapCall) (v : ℕ) :
    lastCall (c :: calls) v =
      (lastCall calls v).or
        (if c.virtual / pageSize = v / pageSize then some c else none) := by
  rw [lastCall, List.reverse_cons, List.find?_append, List.find?_singleton]
  simp [lastCall]

theorem lastCall_mem {c : MapCall} (hc : lastCall calls v = some c) :
    c ∈ calls ∧ c.virtual / pageSize = v / pageSize := by
  rw [lastCall] at hc
  exact ⟨List.mem_reverse.mp (List.mem_of_find?_eq_some hc),
    by simpa using List.find?_some hc⟩

theorem lastCall_eq_none_iff :
    lastCall calls v = none ↔
      ∀ c ∈ calls, c.virtual / pageSize ≠ v / pageSize := by
  simp [lastCall]

theorem lastCall_append_of_ne {c : MapCall}
    (hne : c.virtual / pageSize ≠ v / pageSize) :
    lastCall (calls ++ [c]) v = lastCall calls v := by
  simp [lastCall, hne]

theorem TablesOk.walk_mapCalls (h : TablesOk s)
    (hvalid : ∀ c ∈ calls, c.Valid) (hfresh : FreshFrames allocPage s calls)
    (hv : v < 2 ^ 32) :
    walk (mapCalls allocPage s calls) v =
      ((lastCall calls v).map (·.translation v)).or (walk s v) := by
  induction calls generalizing s with
  | nil => rfl
  | cons c calls ih =>
      obtain ⟨hc, hcalls⟩ := List.forall_mem_cons.mp hvalid
      have hstep := h.vmmMapPage hc.virtual_lt hc.physical_lt hc.flags_lt
        hfresh.1
      have hwalk := h.walk_vmmMapPage hc.virtual_lt hc.physical_lt hc.flags_lt
        hc.present hfresh.1 hv
      have hrest := ih hstep.1 hcalls hfresh.2
      rw [mapCalls, List.foldl_cons]
      refine hrest.trans ?_
      rw [hwalk, lastCall_cons, Option.map_or, Option.or_assoc]
      by_cases hpage : c.virtual / pageSize = v / pageSize
      · simp [hpage, MapCall.translation]
      · simp [hpage]

theorem freshFrames_initial {before after : List MapCall}
    (h : FreshFrames allocPage s (before ++ after)) :
    FreshFrames allocPage s before := by
  induction before generalizing s with
  | nil => trivial
  | cons c before ih => exact ⟨h.1, ih h.2⟩

theorem freshFrames_concat {c : MapCall} (h : FreshFrames allocPage s calls)
    (hc : ¬Present (mapCalls allocPage s calls) (pdIndex c.virtual) →
      Fresh (mapCalls allocPage s calls)
        (allocPage (mapCalls allocPage s calls).frames).1) :
    FreshFrames allocPage s (calls ++ [c]) := by
  induction calls generalizing s with
  | nil => exact ⟨hc, trivial⟩
  | cons d calls ih => exact ⟨h.1, ih h.2 hc⟩

theorem not_present_createDirectory (s : State σ) {i : ℕ} (hi : i < 1024) :
    ¬Present (createDirectory allocPage s) i := by
  intro hp
  refine hp ?_
  have hslot : slot (createDirectory allocPage s) i = 0 :=
    Memory.load32_fill_zero (by simp [createDirectory])
      (by simp only [createDirectory, tableSize]; omega)
  rw [hslot, Nat.zero_and]

theorem tablesOk_createDirectory (s : State σ)
    (hdvd : pageSize ∣ (allocPage s.frames).1) :
    TablesOk (createDirectory allocPage s) ∧
      ∀ v < 2 ^ 32, walk (createDirectory allocPage s) v = none := by
  refine ⟨⟨hdvd, by simp [createDirectory], by simp [createDirectory],
    by simp [createDirectory], ?_, ?_⟩, ?_⟩
  · intro i hi hp
    exact absurd hp (not_present_createDirectory s hi)
  · intro i hi j _ hp
    exact absurd hp (not_present_createDirectory s hi)
  · intro v hv
    rw [walk_eq_decode, entry,
      if_neg (not_present_createDirectory s (pdIndex_lt hv))]
    rfl

/-- The frames that a new directory and the calls ask for: the directory is
page-aligned and every table gets a fresh frame. -/
structure FramesSupplied (allocPage : σ → ℕ × σ) (s : State σ)
    (calls : List MapCall) : Prop where
  directory_dvd : pageSize ∣ (allocPage s.frames).1
  fresh : FreshFrames allocPage (createDirectory allocPage s) calls

section Initial

variable (hframes : FramesSupplied allocPage s calls)
  (hvalid : ∀ c ∈ calls, c.Valid) (hv : v < 2 ^ 32)

include hframes hvalid hv

/-- From an empty directory on, a page is mapped by the last call that names
it. -/
theorem FramesSupplied.walk_eq :
    walk (mapCalls allocPage (createDirectory allocPage s) calls) v =
      (lastCall calls v).map (·.translation v) := by
  obtain ⟨hok, hnone⟩ := tablesOk_createDirectory s hframes.directory_dvd
  rw [hok.walk_mapCalls hvalid hframes.fresh hv, hnone v hv, Option.or_none]

/-- Where all calls for a page agree, the walk finds what they say. -/
theorem FramesSupplied.walk_of_mem {c : MapCall} {r : ℕ × ℕ} (hc : c ∈ calls)
    (hpage : c.virtual / pageSize = v / pageSize)
    (hsame : ∀ d ∈ calls, d.virtual / pageSize = v / pageSize →
      d.translation v = r) :
    walk (mapCalls allocPage (createDirectory allocPage s) calls) v = some r := by
  rw [hframes.walk_eq hvalid hv]
  cases hlast : lastCall calls v with
  | none => exact absurd hpage (lastCall_eq_none_iff.mp hlast c hc)
  | some d =>
      obtain ⟨hd, hdpage⟩ := lastCall_mem hlast
      rw [Option.map_some, hsame d hd hdpage]

theorem FramesSupplied.walk_eq_none
    (hnone : ∀ c ∈ calls, c.virtual / pageSize ≠ v / pageSize) :
    walk (mapCalls allocPage (createDirectory allocPage s) calls) v = none := by
  rw [hframes.walk_eq hvalid hv, lastCall_eq_none_iff.mpr hnone,
    Option.map_none]

end Initial

/-- After any run of calls the walk finds the last call for the page of the
address, and no call changes the translation of another page. -/
theorem walk_mapCalls_eq_lastCall (allocPage : σ → ℕ × σ) (s : State σ)
    (hdirectory : pageSize ∣ (allocPage s.frames).1) (calls : List MapCall)
    (hvalid : ∀ c ∈ calls, c.Valid)
    (hfresh : FreshFrames allocPage (createDirectory allocPage s) calls)
    {v : ℕ} (hv : v < 2 ^ 32) :
    walk (mapCalls allocPage (createDirectory allocPage s) calls) v =
        (lastCall calls v).map (·.translation v) ∧
      ∀ before c after, calls = before ++ c :: after →
        c.virtual / pageSize ≠ v / pageSize →
        walk (mapCalls allocPage (createDirectory allocPage s)
            (before ++ [c])) v =
          walk (mapCalls allocPage (createDirectory allocPage s) before) v := by
  have hall : ∀ cs, (∀ c ∈ cs, c.Valid) →
      FreshFrames allocPage (createDirectory allocPage s) cs →
      walk (mapCalls allocPage (createDirectory allocPage s) cs) v =
        (lastCall cs v).map (·.translation v) := fun cs hvalid hfresh =>
    FramesSupplied.walk_eq ⟨hdirectory, hfresh⟩ hvalid hv
  refine ⟨hall calls hvalid hfresh, ?_⟩
  rintro before c after rfl hne
  have hsplit : before ++ c :: after = (before ++ [c]) ++ after := by simp
  have hfresh₁ := freshFrames_initial (hsplit ▸ hfresh)
  have hvalid₁ : ∀ d ∈ before ++ [c], d.Valid := fun d hd =>
    hvalid d (hsplit ▸ List.mem_append_left after hd)
  rw [hall _ hvalid₁ hfresh₁, lastCall_append_of_ne hne,
    hall before (fun d hd => hvalid₁ d (List.mem_append_left _ hd))
      (freshFrames_initial hfresh₁)]

end Runs

/-- Frames handed out one after the other. -/
def nextFrame (n : ℕ) : ℕ × ℕ := (n, n + pageSize)

def blankState : State ℕ where
  mem := { byte := fun _ => 0, stores := [] }
  kernelDirectory := 0
  currentDirectory := 0
  frames := 0x100000
  tables := []

theorem walk_mapCalls_eq_lastCall_twice :
    walk (mapCalls nextFrame (createDirectory nextFrame blankState)
      [⟨0x1000, 0x5000, 3⟩, ⟨0x1000, 0x7000, 1⟩]) 0x1234 =
        some (0x7234, 1) := by
  refine (walk_mapCalls_eq_lastCall nextFrame blankState ?_
    [⟨0x1000, 0x5000, 3⟩, ⟨0x1000, 0x7000, 1⟩] ?_ ?_ ?_).1
  · decide
  · intro c hc
    simp only [List.mem_cons, List.not_mem_nil, or_false] at hc
    rcases hc with rfl | rfl <;>
      exact ⟨by decide, by decide, by decide, by decide⟩
  · refine ⟨fun _ => ⟨by decide, by decide, by decide, by decide⟩, ?_, trivial⟩
    intro habsent
    exact absurd (by decide +kernel) habsent
  · norm_num

end BabOs.Vmm
