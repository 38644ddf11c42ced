import BabOs.Kheap.Allocation
import Mathlib.Logic.Relation

/-!
# Runs of the heap

A run starts after `kheap_init` and mixes calls of `kmalloc`, `kmalloc_a` and
`kfree` with stores that the clients make to what they were given.  The chain
of headers stays well formed, and what a client was given stays its own until
it frees it.
-/

namespace BabOs.Kheap

open BabOs.Blocks BabOs.Chain Relation

/-! ## Steps -/

/-- The calls of a run.  `client` stands for stores by the code that uses the
heap. -/
inductive Call
  | kmalloc (size : ℕ)
  | kmallocA (size : ℕ)
  | kfree (ptr : ℕ)
  | client

/-- The heap together with the pointers that are live and the sizes they were
requested with. -/
abbrev Config (σ : Type*) := State σ × (ℕ → Option ℕ)

def clientBytes (live : ℕ → Option ℕ) : Set ℕ :=
  {a | ∃ ptr n, live ptr = some n ∧ a ∈ Set.Ico ptr (ptr + n)}

/-- One call that returns, with a size of at least one and no sum that wraps;
only live pointers are freed. -/
inductive Step {σ : Type*} (mapPage : σ → ℕ → σ) :
    Call → Config σ → Config σ → Prop
  | kmalloc {s s' : State σ} {live : ℕ → Option ℕ} {fuel size ptr : ℕ}
      (hpos : 0 < size)
      (hcall : kmalloc mapPage fuel size s = some (ptr, s'))
      (hwrap : s'.wrapped = false) :
      Step mapPage (.kmalloc size) (s, live)
        (s', Function.update live ptr (some size))
  | kmallocA {s s' : State σ} {live : ℕ → Option ℕ} {fuel size ptr : ℕ}
      (hpos : 0 < size)
      (hcall : kmallocA mapPage fuel size s = some (ptr, s'))
      (hwrap : s'.wrapped = false) :
      Step mapPage (.kmallocA size) (s, live)
        (s', Function.update live ptr (some size))
  | kfree {s : State σ} {live : ℕ → Option ℕ} {ptr n : ℕ}
      (hlive : live ptr = some n) :
      Step mapPage (.kfree ptr) (s, live)
        (kfree ptr s, Function.update live ptr none)
  | client {s : State σ} {live : ℕ → Option ℕ} {m : Memory}
      (hbyte : ∀ a ∉ clientBytes live, m.byte a = s.mem.byte a)
      (hstores : m.stores = s.mem.stores) :
      Step mapPage .client (s, live) ({ s with mem := m }, live)

def Run {σ : Type*} (mapPage : σ → ℕ → σ) (allowed : Call → Prop) :
    Config σ → Config σ → Prop :=
  ReflTransGen fun c c' => ∃ call, allowed call ∧ Step mapPage call c c'

/-- The state after `kheap_init`, with nothing handed out. -/
def boot {σ : Type*} (mapPage : σ → ℕ → σ) (s : State σ) : Config σ :=
  (kheapInit mapPage s, fun _ => none)

/-! ## The invariant of a run -/

section Invariant

variable {σ : Type*} {mapPage : σ → ℕ → σ} {s s' : State σ}
  {live : ℕ → Option ℕ} {bs : List Blk} {call : Call} {c c' : Config σ}

/-- The live pointers are the payloads of the used blocks, which are large
enough, and every payload begins inside the heap. -/
structure Serves (s : State σ) (live : ℕ → Option ℕ) (bs : List Blk) :
    Prop where
  ok : HeapOk s bs
  known : ∀ ptr n, live ptr = some n →
    ∃ b ∈ used bs, ptr = b.addr + headerSize
  covered : ∀ b ∈ used bs, ∃ n, live (b.addr + headerSize) = some n ∧
    0 < n ∧ n ≤ b.size
  inside : Inside s bs

theorem Hands.mem_used_iff {size : ℕ} {bs' : List Blk} {new b : Blk}
    (h : Hands size s s' bs bs' new) :
    b ∈ Blocks.used bs' ↔ b = new ∨ b ∈ Blocks.used bs := by
  obtain ⟨l, r, hl, hr⟩ := h.used
  rw [hr, hl, List.perm_middle.mem_iff, List.mem_cons]

theorem new_addr_ne {size : ℕ} {bs' : List Blk} {new b : Blk}
    (h : Hands size s s' bs bs' new) (hb : b ∈ used bs) :
    b.addr ≠ new.addr := by
  have hpos : 0 < headerSize := by norm_num [headerSize]
  have hnodup : (used bs').Nodup := (h.ok.spells.tiled.nodup hpos).filter _
  have hmem := (mem_used.mp (h.mem_used_iff.mpr (Or.inr hb))).1
  have hnew := (mem_used.mp (h.mem_used_iff.mpr (Or.inl rfl))).1
  obtain ⟨l, r, hl, hr⟩ := h.used
  rw [hr, List.nodup_middle] at hnodup
  rw [hl] at hb
  intro haddr
  have heq := h.ok.spells.tiled.eq_of_addr_eq hpos hmem hnew haddr
  exact (List.nodup_cons.mp hnodup).1 (heq ▸ hb)

theorem Releases.mem_used_iff {bs' : List Blk} {b c : Blk}
    (h : Releases s s' bs bs' b) :
    c ∈ Blocks.used bs ↔ c = b ∨ c ∈ Blocks.used bs' := by
  obtain ⟨l, r, hl, hr⟩ := h.used
  rw [hr, hl, List.perm_middle.mem_iff, List.mem_cons]

theorem Releases.addr_ne {bs' : List Blk} {b c : Blk}
    (h : Releases s s' bs bs' b) (hok : HeapOk s bs)
    (hc : c ∈ Blocks.used bs') :
    c.addr ≠ b.addr := by
  have hpos : 0 < headerSize := by norm_num [headerSize]
  have hnodup : (Blocks.used bs).Nodup := (hok.spells.tiled.nodup hpos).filter _
  have hcmem := (mem_used.mp (h.mem_used_iff.mpr (Or.inr hc))).1
  have hbmem := (mem_used.mp (h.mem_used_iff.mpr (Or.inl rfl))).1
  obtain ⟨l, r, hl, hr⟩ := h.used
  rw [hl, List.nodup_middle] at hnodup
  rw [hr] at hc
  intro haddr
  have heq := hok.spells.tiled.eq_of_addr_eq hpos hcmem hbmem haddr
  exact (List.nodup_cons.mp hnodup).1 (heq ▸ hc)

/-! ### Owners -/

/-- The live pointers are the payloads of the used blocks, and `P` relates the
size of each request to its block. -/
structure Owns (P : ℕ → Blk → Prop) (live : ℕ → Option ℕ) (bs : List Blk) :
    Prop where
  known : ∀ ptr n, live ptr = some n →
    ∃ b ∈ used bs, ptr = b.addr + headerSize
  covered : ∀ b ∈ used bs, ∃ n, live (b.addr + headerSize) = some n ∧ P n b

theorem Owns.exists_block {P : ℕ → Blk → Prop} (h : Owns P live bs)
    {ptr n : ℕ} (hlive : live ptr = some n) :
    ∃ b ∈ used bs, ptr = b.addr + headerSize ∧ P n b := by
  obtain ⟨b, hb, rfl⟩ := h.known ptr n hlive
  obtain ⟨n', hn', hP⟩ := h.covered b hb
  obtain rfl := Option.some.inj (hn'.symm.trans hlive)
  exact ⟨b, hb, rfl, hP⟩

theorem Owns.hands {P : ℕ → Blk → Prop} {size : ℕ} {bs' : List Blk} {new : Blk}
    (h : Owns P live bs) (hhands : Hands size s s' bs bs' new)
    (hP : P size new) :
    Owns P (Function.update live (new.addr + headerSize) (some size)) bs' := by
  constructor
  · intro ptr n hlive
    by_cases hptr : ptr = new.addr + headerSize
    · exact ⟨new, hhands.mem_used_iff.mpr (Or.inl rfl), hptr⟩
    · rw [Function.update_of_ne hptr] at hlive
      obtain ⟨b, hb, hptr⟩ := h.known ptr n hlive
      exact ⟨b, hhands.mem_used_iff.mpr (Or.inr hb), hptr⟩
  · intro b hb
    rcases hhands.mem_used_iff.mp hb with rfl | hb
    · exact ⟨size, Function.update_self .., hP⟩
    · have hne : b.addr + headerSize ≠ new.addr + headerSize :=
        fun heq => new_addr_ne hhands hb (Nat.add_right_cancel heq)
      rw [Function.update_of_ne hne]
      exact h.covered b hb

theorem Owns.releases {P : ℕ → Blk → Prop} {bs' : List Blk} {b : Blk}
    (h : Owns P live bs) (hok : HeapOk s bs)
    (hreleases : Releases s s' bs bs' b) :
    Owns P (Function.update live (b.addr + headerSize) none) bs' := by
  constructor
  · intro ptr n hlive
    have hptr : ptr ≠ b.addr + headerSize := by
      rintro rfl
      simp at hlive
    rw [Function.update_of_ne hptr] at hlive
    obtain ⟨c, hc, rfl⟩ := h.known ptr n hlive
    rcases hreleases.mem_used_iff.mp hc with rfl | hc
    · exact absurd rfl hptr
    · exact ⟨c, hc, rfl⟩
  · intro c hc
    have hne : c.addr + headerSize ≠ b.addr + headerSize :=
      fun heq => hreleases.addr_ne hok hc (Nat.add_right_cancel heq)
    rw [Function.update_of_ne hne]
    exact h.covered c (hreleases.mem_used_iff.mpr (Or.inr hc))

/-- What a step does to the used blocks it does not free. -/
def Keeps (call : Call) (c c' : Config σ) (bs bs' : List Blk) : Prop :=
  ∀ b ∈ used bs, call ≠ .kfree (b.addr + headerSize) →
    b ∈ used bs' ∧ c'.2 (b.addr + headerSize) = c.2 (b.addr + headerSize) ∧
      c.1.mem.WritesOutside (b.payload headerSize) c'.1.mem

theorem payload_subset_payloads {b : Blk} (hb : b ∈ used bs) :
    b.payload headerSize ⊆ payloads headerSize bs :=
  Set.subset_biUnion_of_mem (u := Blk.payload headerSize) hb

theorem Serves.owns (h : Serves s live bs) :
    Owns (fun n b => 0 < n ∧ n ≤ b.size) live bs :=
  ⟨h.known, h.covered⟩

theorem Serves.exists_block (h : Serves s live bs) {ptr n : ℕ}
    (hlive : live ptr = some n) :
    ∃ b ∈ used bs, ptr = b.addr + headerSize ∧ 0 < n ∧ n ≤ b.size :=
  h.owns.exists_block hlive

theorem Serves.hands {size : ℕ} {bs' : List Blk} {new : Blk}
    (h : Serves s live bs) (hhands : Hands size s s' bs bs' new)
    (hin : Inside s' bs') (hpos : 0 < size) :
    Serves s' (Function.update live (new.addr + headerSize) (some size)) bs' ∧
      Keeps call (s, live)
        (s', Function.update live (new.addr + headerSize) (some size))
        bs bs' := by
  have howns := h.owns.hands hhands ⟨hpos, hhands.size_le⟩
  refine ⟨⟨hhands.ok, howns.known, howns.covered, hin⟩, fun b hb _ => ?_⟩
  have hne : b.addr + headerSize ≠ new.addr + headerSize :=
    fun heq => new_addr_ne hhands hb (Nat.add_right_cancel heq)
  exact ⟨hhands.mem_used_iff.mpr (Or.inr hb), Function.update_of_ne hne _ _,
    hhands.writes.mono (payload_subset_payloads hb)⟩

theorem Serves.kfree {ptr n : ℕ} (h : Serves s live bs)
    (hlive : live ptr = some n) :
    ∃ bs', Serves (kfree ptr s) (Function.update live ptr none) bs' ∧
      Keeps (.kfree ptr) (s, live)
        (kfree ptr s, Function.update live ptr none) bs bs' := by
  obtain ⟨b, hb, rfl, -⟩ := h.exists_block hlive
  obtain ⟨hmem, hused⟩ := mem_used.mp hb
  obtain ⟨u, v, rfl⟩ := List.append_of_mem hmem
  obtain ⟨bs', hreleases, hin⟩ := kfree_releases h.ok hused h.inside
  have howns := h.owns.releases h.ok hreleases
  refine ⟨bs', ⟨hreleases.ok, howns.known, howns.covered, hin⟩, ?_⟩
  intro c hc hcall
  rcases hreleases.mem_used_iff.mp hc with rfl | hc
  · exact absurd rfl hcall
  · have hne : c.addr + headerSize ≠ b.addr + headerSize :=
      fun heq => hreleases.addr_ne h.ok hc (Nat.add_right_cancel heq)
    exact ⟨hc, Function.update_of_ne hne _ _,
      hreleases.writes.mono (payload_subset_payloads hc)⟩

theorem Owns.clientBytes_subset {P : ℕ → Blk → Prop} (h : Owns P live bs)
    (hP : ∀ n b, P n b → n ≤ b.size) :
    clientBytes live ⊆ payloads headerSize bs := by
  rintro a ⟨ptr, n, hlive, ha⟩
  obtain ⟨b, hb, rfl, hn⟩ := h.exists_block hlive
  refine payload_subset_payloads hb ?_
  exact Set.Ico_subset_Ico_right (Nat.add_le_add_left (hP n b hn) _) ha

theorem header_congr {m m' : Memory} {b : ℕ}
    (h : ∀ a ∈ Set.Ico b (b + headerSize), m'.byte a = m.byte a) :
    header m' b = header m b := by
  simp only [headerSize, Set.mem_Ico] at h
  simp only [header]
  congr 1
  · exact Memory.load32_congr fun a _ _ => h a (by omega)
  · exact Memory.load8_congr (h _ (by omega))
  · exact Memory.load32_congr fun a _ _ => h a (by omega)
  · exact Memory.load32_congr fun a _ _ => h a (by omega)
  · exact Memory.load32_congr fun a _ _ => h a (by omega)

theorem HeapOk.rewrite {S : Set ℕ} {m : Memory} (h : HeapOk s bs)
    (hheaders : ∀ b ∈ bs, HeaderOutside S b.addr)
    (hbyte : ∀ a ∉ S, m.byte a = s.mem.byte a) :
    HeapOk { s with mem := m } bs := by
  have hspells := h.spells
  refine ⟨h.start, ⟨?_, hspells.tiled, hspells.hi_lt⟩, h.nonempty, h.aligned,
    h.noHoles⟩
  refine hspells.linked.congr fun b hb => header_congr fun a ha => ?_
  exact hbyte a fun hin => Set.disjoint_left.mp (hheaders b hb) ha hin

theorem HeapOk.client {m : Memory} (h : HeapOk s bs)
    (hsubset : clientBytes live ⊆ payloads headerSize bs)
    (hbyte : ∀ a ∉ clientBytes live, m.byte a = s.mem.byte a) :
    HeapOk { s with mem := m } bs :=
  h.rewrite (fun _ hb => (h.spells.headerOutside hb).mono_right hsubset) hbyte

theorem Serves.client {m : Memory} (h : Serves s live bs)
    (hbyte : ∀ a ∉ clientBytes live, m.byte a = s.mem.byte a)
    (hstores : m.stores = s.mem.stores) :
    Serves { s with mem := m } live bs ∧
      Keeps .client (s, live) ({ s with mem := m }, live) bs bs := by
  have hsubset := h.owns.clientBytes_subset fun n b hn => hn.2
  refine ⟨⟨h.ok.client hsubset hbyte, h.known, h.covered, h.inside⟩,
    fun b hb _ => ?_⟩
  exact ⟨hb, rfl, [], hstores, by simp⟩

/-- A step keeps the invariant and the used blocks it does not free. -/
theorem Step.serves (hstep : Step mapPage call c c') (h : Serves c.1 c.2 bs) :
    ∃ bs', Serves c'.1 c'.2 bs' ∧ Keeps call c c' bs bs' := by
  cases hstep with
  | kmalloc hpos hcall hwrap =>
      obtain ⟨bs', new, rfl, hhands, hin⟩ :=
        kmallocInternal_hands h.ok hpos hcall hwrap
      exact ⟨bs', h.hands hhands (hin h.inside) hpos⟩
  | kmallocA hpos hcall hwrap =>
      obtain ⟨bs', new, rfl, hhands, hin⟩ :=
        kmallocInternal_hands h.ok hpos hcall hwrap
      exact ⟨bs', h.hands hhands (hin h.inside) hpos⟩
  | kfree hlive => exact h.kfree hlive
  | client hbyte hstores => exact ⟨bs, h.client hbyte hstores⟩

theorem heapOk_kheapInit (mapPage : σ → ℕ → σ) (s : State σ) :
    HeapOk (kheapInit mapPage s)
      [⟨kheapStart, kheapInitialSize - headerSize, true⟩] := by
  have hlinked : Linked (kheapInit mapPage s).mem 0
      [⟨kheapStart, kheapInitialSize - headerSize, true⟩] 0 := by
    have hzero : uint32 0 = 0 := uint32_eq_of_lt (Nat.two_pow_pos 32)
    have hsize : uint32 (kheapInitialSize - headerSize) =
        kheapInitialSize - headerSize :=
      uint32_eq_of_lt (by norm_num [kheapInitialSize, headerSize])
    refine ⟨?_, trivial⟩
    simp only [kheapInit, header_setPrev_self, header_setNext_self,
      header_setSize_self, header_setIsHole_self, header_setMagic_self,
      kheapMagic_eq, hsize, hzero]
    rfl
  refine ⟨rfl, ⟨hlinked, ⟨rfl, ?_⟩, ?_⟩, ?_, ?_, List.isChain_singleton _⟩
  · norm_num [kheapInit, kheapStart, headerSize, kheapInitialSize]
  · norm_num [kheapInit, kheapStart, kheapInitialSize]
  · norm_num [kheapInit, kheapStart, kheapInitialSize]
  · norm_num [kheapInit, kheapStart, kheapInitialSize, pageSize]

theorem inside_kheapInit (mapPage : σ → ℕ → σ) (s : State σ) :
    Inside (kheapInit mapPage s)
      [⟨kheapStart, kheapInitialSize - headerSize, true⟩] := by
  rw [Inside, List.forall_mem_singleton]
  norm_num [kheapInit, kheapStart, headerSize, kheapInitialSize]

theorem serves_boot (mapPage : σ → ℕ → σ) (s : State σ) :
    Serves (boot mapPage s).1 (boot mapPage s).2
      [⟨kheapStart, kheapInitialSize - headerSize, true⟩] := by
  refine ⟨heapOk_kheapInit mapPage s, ?_, ?_, inside_kheapInit mapPage s⟩
  · simp [boot]
  · simp [used]

/-- Every state of a run has blocks that serve its live pointers. -/
theorem serves_of_run {s : State σ}
    (hrun : Run mapPage (fun _ => True) (boot mapPage s) c) :
    ∃ bs, Serves c.1 c.2 bs := by
  induction hrun with
  | refl => exact ⟨_, serves_boot mapPage s⟩
  | tail _ hstep ih =>
      obtain ⟨bs, h⟩ := ih
      obtain ⟨call, -, hstep⟩ := hstep
      obtain ⟨bs', h', -⟩ := hstep.serves h
      exact ⟨bs', h'⟩

/-- A run that never frees the block `b` leaves it where it is and does not
write its payload. -/
theorem Serves.run_keeps {b : Blk} (h : Serves c.1 c.2 bs) (hb : b ∈ used bs)
    (hrun : Run mapPage (· ≠ .kfree (b.addr + headerSize)) c c') :
    ∃ bs', Serves c'.1 c'.2 bs' ∧ b ∈ used bs' ∧
      c'.2 (b.addr + headerSize) = c.2 (b.addr + headerSize) ∧
      c.1.mem.WritesOutside (b.payload headerSize) c'.1.mem := by
  induction hrun with
  | refl => exact ⟨bs, h, hb, rfl, Memory.WritesOutside.refl _ _⟩
  | tail _ hstep ih =>
      obtain ⟨bs₁, h₁, hb₁, hlive, hwrites⟩ := ih
      obtain ⟨call, hcall, hstep⟩ := hstep
      obtain ⟨bs', h', hkeeps⟩ := hstep.serves h₁
      obtain ⟨hb', hlive', hwrites'⟩ := hkeeps b hb₁ hcall
      exact ⟨bs', h', hb', hlive'.trans hlive, hwrites.trans hwrites'⟩

end Invariant

/-! ## The chain of headers -/

section ChainInvariant

variable {σ : Type*} {mapPage : σ → ℕ → σ} {s : State σ} {bs : List Blk}
  {c : Config σ}

/-- The headers `hs` reached from the start of the heap through `next` are
well formed. -/
structure ChainInvariant (s : State σ) (hs : List ℕ) : Prop where
  start : s.heapStart = kheapStart
  dlist : IsDList (links s.mem) (some s.heapStart) hs
  next_eq : ∀ b ∈ hs, (header s.mem b).next ≠ 0 →
    (header s.mem b).next = b + headerSize + (header s.mem b).size
  last_eq : ∀ b ∈ hs, (header s.mem b).next = 0 →
    b + headerSize + (header s.mem b).size = s.heapEnd
  aligned : pageSize ∣ s.heapEnd - kheapStart
  magic : ∀ b ∈ hs, (header s.mem b).magic = kheapMagic
  noHoles : ∀ b ∈ hs, (header s.mem b).next ≠ 0 →
    ¬((header s.mem b).isHole ≠ 0 ∧
      (header s.mem (header s.mem b).next).isHole ≠ 0)

theorem HeapOk.chainInvariant (h : HeapOk s bs) :
    ChainInvariant s (bs.map Blk.addr) := by
  have hsplit : ∀ a ∈ bs.map Blk.addr, ∃ u b v, bs = u ++ b :: v ∧
      b.addr = a := by
    intro a ha
    obtain ⟨b, hb, rfl⟩ := List.mem_map.mp ha
    obtain ⟨u, v, rfl⟩ := List.append_of_mem hb
    exact ⟨u, b, v, rfl, rfl⟩
  refine ⟨h.start, h.isDList, ?_, ?_, h.aligned, ?_, ?_⟩
  · intro a ha hnext
    obtain ⟨u, b, v, rfl, rfl⟩ := hsplit a ha
    rw [h.spells.header_eq] at hnext ⊢
    obtain ⟨mid, -, rfl, hv⟩ := tiled_append.mp h.spells.tiled
    cases v with
    | nil => exact absurd rfl hnext
    | cons d v => exact hv.1
  · intro a ha hnext
    obtain ⟨u, b, v, rfl, rfl⟩ := hsplit a ha
    have hheader := h.spells.header_eq
    rw [hheader] at hnext ⊢
    obtain ⟨mid, -, rfl, hv⟩ := tiled_append.mp h.spells.tiled
    cases v with
    | nil => exact hv
    | cons d v => exact absurd hnext (h.spells.addr_pos (b := d) (by simp)).ne'
  · intro a ha
    obtain ⟨u, b, v, rfl, rfl⟩ := hsplit a ha
    rw [h.spells.header_eq]
    rfl
  · intro a ha hnext
    obtain ⟨u, b, v, rfl, rfl⟩ := hsplit a ha
    rw [h.spells.header_eq] at hnext ⊢
    cases v with
    | nil => exact absurd rfl hnext
    | cons d v =>
        have hd := Spells.header_eq (u := u ++ [b]) (by simpa using h.spells)
        obtain ⟨-, hbv, -⟩ := noAdjacentHoles_append.mp h.noHoles
        have hbd := (noAdjacentHoles_cons.mp hbv).1 d rfl
        simp only [blkHeader, headAddr_cons, hd]
        simpa using hbd

/-- The chain of headers is well formed in every state of a run, and once
nothing is handed out it is one hole. -/
theorem run_chainInvariant (mapPage : σ → ℕ → σ) (s : State σ)
    (hrun : Run mapPage (fun _ => True) (boot mapPage s) c) :
    (∃ hs, ChainInvariant c.1 hs) ∧
      ((∀ ptr, c.2 ptr = none) →
        ChainInvariant c.1 [kheapStart] ∧
          (header c.1.mem kheapStart).isHole = 1 ∧
          (header c.1.mem kheapStart).size =
            c.1.heapEnd - kheapStart - headerSize) := by
  obtain ⟨bs, h⟩ := serves_of_run hrun
  refine ⟨⟨_, h.ok.chainInvariant⟩, fun hnone => ?_⟩
  have hused : used bs = [] := by
    refine List.eq_nil_iff_forall_not_mem.mpr fun b hb => ?_
    obtain ⟨n, hlive, -⟩ := h.covered b hb
    simp [hnone] at hlive
  obtain rfl := eq_singleton_of_used_eq_nil h.ok.spells.tiled h.ok.nonempty
    h.ok.noHoles hused
  have hheader := Spells.header_eq (u := []) h.ok.spells
  dsimp only at hheader
  rw [hheader]
  exact ⟨h.ok.chainInvariant, rfl, rfl⟩

end ChainInvariant

/-- A heap before `kheap_init`, in a memory of zeros. -/
def blankState : State Unit where
  mem := { byte := fun _ => 0, stores := [] }
  heapStart := 0
  heapEnd := kheapStart
  backing := ()
  wrapped := false
  console := []

/-- Page tables that are not looked at. -/
def noPages : Unit → ℕ → Unit := fun backing _ => backing

theorem eq_some_of_map_fst {α : Type*} {o : Option (ℕ × α)} {ptr : ℕ} {d : α}
    (h : o.map Prod.fst = some ptr) :
    o = some (ptr, (o.map Prod.snd).getD d) := by
  obtain ⟨⟨_, x⟩, rfl, rfl⟩ := Option.map_eq_some_iff.mp h
  rfl

/-- The heap after `kmalloc(100)`. -/
def hundredBytes : State Unit :=
  ((kmalloc noPages 2 100 (kheapInit noPages blankState)).map Prod.snd).getD
    blankState

theorem kmalloc_hundredBytes :
    kmalloc noPages 2 100 (kheapInit noPages blankState) =
      some (0xD0000014, hundredBytes) :=
  eq_some_of_map_fst (by decide +kernel)

theorem hundredBytes_wrapped : hundredBytes.wrapped = false := by
  decide +kernel

def hundredLive : ℕ → Option ℕ :=
  Function.update (fun _ => none) 0xD0000014 (some 100)

theorem run_hundredBytes :
    Run noPages (fun _ => True) (boot noPages blankState)
      (hundredBytes, hundredLive) :=
  ReflTransGen.single ⟨.kmalloc 100, trivial,
    Step.kmalloc (by decide) kmalloc_hundredBytes hundredBytes_wrapped⟩

/-- The heap after `kmalloc(4076)`. -/
def fullPage : State Unit :=
  ((kmalloc noPages 2 4076 (kheapInit noPages blankState)).map Prod.snd).getD
    blankState

/-- The heap after `kmalloc(4076)` and `kmalloc(100)`. -/
def twoBlocks : State Unit :=
  ((kmalloc noPages 3 100 fullPage).map Prod.snd).getD blankState

def twoLive : ℕ → Option ℕ :=
  Function.update (Function.update (fun _ => none) 0xD0000014 (some 4076))
    0xD0001014 (some 100)

theorem run_twoBlocks :
    Run noPages (fun _ => True) (boot noPages blankState)
      (twoBlocks, twoLive) := by
  have hfirst : kmalloc noPages 2 4076 (kheapInit noPages blankState) =
      some (0xD0000014, fullPage) :=
    eq_some_of_map_fst (by decide +kernel)
  have hsecond : kmalloc noPages 3 100 fullPage =
      some (0xD0001014, twoBlocks) :=
    eq_some_of_map_fst (by decide +kernel)
  exact (ReflTransGen.single ⟨.kmalloc 4076, trivial,
    Step.kmalloc (by decide) hfirst (by decide +kernel)⟩).tail
      ⟨.kmalloc 100, trivial,
        Step.kmalloc (by decide) hsecond (by decide +kernel)⟩

theorem run_chainInvariant_hundredBytes :
    ChainInvariant (kfree 0xD0000014 hundredBytes) [kheapStart] := by
  have hlive : hundredLive 0xD0000014 = some 100 :=
    Function.update_self ..
  have hrun := run_hundredBytes.tail
    ⟨.kfree 0xD0000014, trivial, Step.kfree hlive⟩
  refine ((run_chainInvariant noPages blankState hrun).2 fun ptr => ?_).1
  simp [hundredLive]

/-! ## The client contract -/

section Clients

variable {σ : Type*} {mapPage : σ → ℕ → σ} {c : Config σ}

/-- What a client was given lies in the heap, meets neither what the other
clients were given nor a header, and until it is freed no call writes it, moves
its header or changes the size of its block. -/
theorem run_keeps_live (mapPage : σ → ℕ → σ) (s : State σ)
    (hrun : Run mapPage (fun _ => True) (boot mapPage s) c) {ptr n : ℕ}
    (hlive : c.2 ptr = some n) :
    (kheapStart ≤ ptr ∧ ptr + n ≤ c.1.heapEnd) ∧
      (∀ ptr' n', ptr' ≠ ptr → c.2 ptr' = some n' →
        Disjoint (Set.Ico ptr (ptr + n)) (Set.Ico ptr' (ptr' + n'))) ∧
      (∀ b, OnChain (links c.1.mem).next (some c.1.heapStart) b →
        Disjoint (Set.Ico ptr (ptr + n)) (Set.Ico b (b + headerSize))) ∧
      ∀ c', Run mapPage (· ≠ .kfree ptr) c c' →
        c'.2 ptr = some n ∧
          c.1.mem.WritesOutside (Set.Ico ptr (ptr + n)) c'.1.mem ∧
          OnChain (links c'.1.mem).next (some c'.1.heapStart)
            (ptr - headerSize) ∧
          (header c'.1.mem (ptr - headerSize)).isHole = 0 ∧
          (header c'.1.mem (ptr - headerSize)).size =
            (header c.1.mem (ptr - headerSize)).size := by
  obtain ⟨bs, h⟩ := serves_of_run hrun
  obtain ⟨b, hb, rfl, -, hle⟩ := h.exists_block hlive
  obtain ⟨hmem, hused⟩ := mem_used.mp hb
  have hbounds := h.ok.spells.tiled.bounds hmem
  have hrange : Set.Ico (b.addr + headerSize) (b.addr + headerSize + n) ⊆
      b.payload headerSize :=
    Set.Ico_subset_Ico_right (Nat.add_le_add_left hle _)
  refine ⟨⟨by omega, by omega⟩, ?_, ?_, ?_⟩
  · intro ptr' n' hne hlive'
    obtain ⟨d, hd, rfl, -, hle'⟩ := h.exists_block hlive'
    rcases h.ok.spells.tiled.separate hmem (mem_used.mp hd).1 with
      rfl | hsep | hsep
    · exact absurd rfl hne
    · exact (Set.Ico_disjoint_Ico.mpr (by omega))
    · exact (Set.Ico_disjoint_Ico.mpr (by omega))
  · intro a ha
    rw [h.ok.isDList.chain.onChain_iff] at ha
    obtain ⟨d, hd, rfl⟩ := List.mem_map.mp ha
    exact ((h.ok.spells.headerOutside hd).mono_right
      (hrange.trans (payload_subset_payloads hb))).symm
  · intro c' hrun'
    obtain ⟨bs', h', hb', hlive', hwrites⟩ := h.run_keeps hb hrun'
    obtain ⟨hmem', -⟩ := mem_used.mp hb'
    have hheader : ∀ {d : Config σ} {ds : List Blk}, Serves d.1 d.2 ds →
        b ∈ ds → (header d.1.mem b.addr).isHole = 0 ∧
          (header d.1.mem b.addr).size = b.size := by
      intro d ds hd hbd
      obtain ⟨u, v, rfl⟩ := List.append_of_mem hbd
      rw [hd.ok.spells.header_eq]
      simp [blkHeader, hused]
    rw [Nat.add_sub_cancel, h'.ok.isDList.chain.onChain_iff]
    exact ⟨hlive'.trans hlive, hwrites.mono hrange,
      List.mem_map_of_mem hmem', (hheader h' hmem').1,
      (hheader h' hmem').2.trans (hheader h hmem).2.symm⟩

end Clients

/-- The second of two blocks lies apart from the first one, and stays when the
first one is given back. -/
theorem run_keeps_live_twoBlocks :
    0xD0001014 + 100 ≤ twoBlocks.heapEnd ∧
      Disjoint (Set.Ico 0xD0001014 (0xD0001014 + 100))
        (Set.Ico 0xD0000014 (0xD0000014 + 4076)) ∧
      (header (kfree 0xD0000014 twoBlocks).mem 0xD0001000).isHole = 0 ∧
      (header (kfree 0xD0000014 twoBlocks).mem 0xD0001000).size =
        (header twoBlocks.mem 0xD0001000).size := by
  have hlive : (twoBlocks, twoLive).2 0xD0001014 = some 100 := rfl
  have hother : twoLive 0xD0000014 = some 4076 := rfl
  obtain ⟨hbounds, happart, -, hkeeps⟩ :=
    run_keeps_live noPages blankState run_twoBlocks hlive
  obtain ⟨-, -, -, hused, hsize⟩ := hkeeps _ (ReflTransGen.single
    ⟨.kfree 0xD0000014, by simp, Step.kfree hother⟩)
  exact ⟨hbounds.2, happart _ _ (by decide) hother, hused, hsize⟩

end BabOs.Kheap
