import BabOs.Kheap.Footprint

/-!
# Blocks on loan

A client asks for a block, writes it and gives it back.  The heap has then the
blocks that it had before, or more room at its end, and no other byte of its
clients has changed.
-/

namespace BabOs.Kheap

open BabOs.Blocks BabOs.Chain Memory

/-- The bytes that the heap keeps for its clients: those of the blocks that are
handed out, and those below the heap. -/
def kept (bs : List Blk) : Set ℕ :=
  payloads headerSize bs ∪ below

theorem kept_congr {bs bs' : List Blk} (h : used bs' = used bs) :
    kept bs' = kept bs := by
  rw [kept, payloads, h, kept, payloads]

section Loans

variable {σ : Type*}

/-- The block at `ptr` is back, and the heap has the blocks `bs₁`. -/
structure Regains (s s' : State σ) (m : Memory) (bs bs₁ : List Blk) :
    Prop where
  ok : HeapOk s' bs₁
  heapEnd : s'.heapEnd = s.heapEnd
  console : s'.console = s.console
  same : SameOn (kept bs) m s'.mem

/-- The call that led from `s` to `s₁` has handed out `size` bytes at `ptr`;
whatever the clients write to their bytes, they can be given back. -/
structure Lends (size : ℕ) (s s₁ : State σ) (ptr : ℕ) (bs bs₁ : List Blk) :
    Prop where
  end_lt : ptr + size < 2 ^ 32
  apart : Disjoint (kept bs) (Set.Ico ptr (ptr + size))
  console : s₁.console = s.console
  same : SameOn (kept bs) s.mem s₁.mem
  regains : ∀ m, SameOn (Set.Ico ptr (ptr + size) ∪ kept bs)ᶜ s₁.mem m →
    Regains s₁ (kfree ptr { s₁ with mem := m }) m bs bs₁

end Loans

/-! ## Lending -/

section Lending

variable {σ : Type*} {mapPage : σ → ℕ → σ} {s s' s₁ : State σ} {m : Memory}
variable {b new : Blk} {bs u v : List Blk} {post : Option Blk}
variable {size ptr fuel : ℕ}

/-- Where neither the payloads nor the bytes below the heap are written. -/
theorem sameOn_kept (hlogs : s.mem.Logs m)
    (hpayloads : s.mem.WritesOutside (payloads headerSize bs) m)
    (hbelow : s.mem.WritesOutside below m) : SameOn (kept bs) s.mem m := by
  rintro a (ha | ha)
  · exact hlogs.sameOn hpayloads a ha
  · exact hlogs.sameOn hbelow a ha

theorem HeapOk.headerOutside_kept (h : HeapOk s bs) (hb : b ∈ bs) :
    HeaderOutside (kept bs) b.addr :=
  Disjoint.union_right (h.spells.headerOutside hb) (h.spells.below hb)

/-- The bytes that are handed out belong to the clients. -/
theorem Carved.kept_subset (hcarved : Carved size s s₁ u b v none new post) :
    Set.Ico (new.addr + headerSize) (new.addr + headerSize + size) ∪
        kept (u ++ b :: v) ⊆
      kept (u ++ (([] : List Blk) ++ new :: post.toList ++ v)) := by
  have hsize := hcarved.carves.size_le
  have hsubset : Set.Ico (new.addr + headerSize) (new.addr + headerSize + size) ⊆
      new.payload headerSize := Set.Ico_subset_Ico_right (by omega)
  have hused : new ∈ used (u ++ (([] : List Blk) ++ new :: post.toList ++ v)) :=
    mem_used.mpr ⟨by simp, hcarved.carves.new_used⟩
  apply Set.union_subset
  · exact (hsubset.trans (payload_subset_payloads hused)).trans
      Set.subset_union_left
  · apply Set.union_subset_union_left
    apply payloads_mono
    have hold : used (u ++ b :: v) = used u ++ used v :=
      used_of_hole hcarved.carves.hole
    have hnew := hcarved.carves.used (u := u) (v := v)
    rw [hold]
    exact hnew ▸ List.append_subset.mpr ⟨List.subset_append_left _ _,
      fun x hx => List.mem_append_right _ (List.mem_cons_of_mem _ hx)⟩

theorem Carved.written (hcarved : Carved size s s₁ u b v none new post)
    (hm : SameOn (Set.Ico (new.addr + headerSize)
      (new.addr + headerSize + size) ∪ kept (u ++ b :: v))ᶜ s₁.mem m) :
    HeapOk { s₁ with mem := m }
      (u ++ (([] : List Blk) ++ new :: post.toList ++ v)) :=
  hcarved.ok.rewrite (fun _ hc =>
    (hcarved.ok.headerOutside_kept hc).mono_right hcarved.kept_subset) hm

theorem Carved.lends (hcarved : Carved size s s₁ u b v none new post)
    (h : HeapOk s (u ++ b :: v)) (hpos : 0 < size)
    (hsame : SameOn (kept (u ++ b :: v)) s.mem s₁.mem) :
    Lends size s s₁ (new.addr + headerSize) (u ++ b :: v) (u ++ b :: v) := by
  have hok := hcarved.ok
  have hend := hok.spells.end_lt (b := new) (by simp)
  have hsize := hcarved.carves.size_le
  refine ⟨by omega, ?_, by rw [hcarved.frame], hsame, fun m hm => ?_⟩
  · rw [kept, Set.disjoint_union_left]
    constructor
    · have hin := hcarved.carves.tiled.bounds (b := new) (by simp)
      exact (h.spells.tiled.disjoint_hole (b := b) (by simp)
        hcarved.carves.hole (by omega) (by omega)).symm
    · refine Set.disjoint_left.mpr fun x hx hin => ?_
      have hlow := (hok.spells.tiled.bounds (b := new) (by simp)).1
      exact absurd (hlow.trans ((Nat.le_add_right _ _).trans hin.1))
        (not_le.mpr hx)
  · have hwritten := hcarved.written hm
    have hlt : new.addr + headerSize < s₁.heapEnd := by
      have hle := (hok.spells.tiled.bounds (b := new) (by simp)).2
      omega
    have hreleases := releases_of_carves hcarved.carves h.noHoles hwritten hlt
    rw [List.nil_append, List.cons_append] at hwritten
    have hbelow := kfree_below hwritten hlt
    have heq := kfree_eq hwritten.spells hlt
    refine ⟨hreleases.ok, hreleases.end_eq, by rw [heq], ?_⟩
    exact sameOn_kept logs_kfree hreleases.writes hbelow

end Lending

/-! ## Room -/

def hasRoom (bs : List Blk) (size : ℕ) : Bool :=
  bs.any fun b => b.hole && decide (size ≤ b.size)

/-- Where the heap ends when it has grown once for each of the sizes that it has
no hole for. -/
def grownEnd (sizes : List ℕ) (hi : ℕ) (bs : List Blk) : ℕ :=
  hi + ((sizes.filter fun n => !hasRoom bs n).map (growth · false)).sum

/-- The heap serves requests of the sizes, as long as each block is given back
before the next request. -/
structure Affords {σ : Type*} (sizes : List ℕ) (s : State σ) (bs : List Blk) :
    Prop where
  size_pos : ∀ n ∈ sizes, 0 < n
  size_lt : ∀ n ∈ sizes, n < 2 ^ 32
  room : grownEnd sizes s.heapEnd bs < 2 ^ 32

section Room

variable {σ : Type*} {mapPage : σ → ℕ → σ} {s s' s₁ : State σ} {m : Memory}
variable {b : Blk} {bs bs₁ u : List Blk} {sizes : List ℕ}
variable {size n hi ptr fuel : ℕ}

theorem hasRoom_iff : hasRoom bs size = true ↔ ∃ b ∈ bs, Fits size false b := by
  simp [hasRoom, fits_false_iff]

theorem Affords.congr (h : Affords sizes s bs) (hend : s'.heapEnd = s.heapEnd) :
    Affords sizes s' bs :=
  ⟨h.size_pos, h.size_lt, hend ▸ h.room⟩

theorem sum_filter_add_le {f : ℕ → ℕ} {p q : ℕ → Bool}
    (hpq : ∀ x, q x = true → p x = true) (hn : n ∈ sizes) (hp : p n = true)
    (hq : q n = false) :
    ((sizes.filter q).map f).sum + f n ≤ ((sizes.filter p).map f).sum := by
  induction sizes with
  | nil => cases hn
  | cons x sizes ih =>
      have hle : ((sizes.filter q).map f).sum ≤
          ((sizes.filter p).map f).sum := by
        refine List.Sublist.sum_le_sum (List.Sublist.map f ?_) (by simp)
        exact List.monotone_filter_right sizes hpq
      rcases List.mem_cons.mp hn with rfl | hn
      · rw [List.filter_cons_of_pos hp, List.filter_cons_of_neg (by simp [hq]),
          List.map_cons, List.sum_cons]
        omega
      · have hrest := ih hn
        cases hqx : q x with
        | true =>
            rw [List.filter_cons_of_pos hqx, List.filter_cons_of_pos (hpq x hqx)]
            simp only [List.map_cons, List.sum_cons]
            omega
        | false =>
            rw [List.filter_cons_of_neg (by simp [hqx])]
            refine hrest.trans ?_
            by_cases hpx : p x = true
            · rw [List.filter_cons_of_pos hpx, List.map_cons, List.sum_cons]
              exact Nat.le_add_left _ _
            · rw [List.filter_cons_of_neg hpx]

theorem hasRoom_grow (h : hasRoom (u ++ [b]) size = true) :
    hasRoom (u ++ grow headerSize hi n b) size = true := by
  rw [hasRoom, List.any_append, Bool.or_eq_true] at h ⊢
  refine h.imp id fun hlast => ?_
  simp only [List.any_cons, List.any_nil, Bool.or_false, Bool.and_eq_true,
    decide_eq_true_eq] at hlast
  have hle := hlast.2.trans (Nat.le_add_right b.size n)
  simp [grow, hlast.1, hle]

theorem HeapOk.lends_fit (h : HeapOk s bs) (hpos : 0 < size)
    (hlt : size < 2 ^ 32) (hroom : ∃ b ∈ bs, Fits size false b)
    (mapPage : σ → ℕ → σ) :
    ∃ ptr s₁, Allocates mapPage size false 0 s ptr s₁ ∧
      Lends size s s₁ ptr bs bs ∧ s₁.heapEnd = s.heapEnd := by
  obtain ⟨u, b, v, rfl, hfit, hfirst⟩ := exists_first_fit hroom
  have hsums : ∀ d ∈ u ++ b :: v, d.hole = true →
      padding false d.addr + size < 2 ^ 32 := by
    intro d _ _
    rwa [padding_false, zero_add]
  obtain ⟨s₁, new, post, hcall, haddr, hcarved⟩ := h.kmalloc_fit
    (fun d hd => hsums d (List.mem_append_left _ hd)) hfirst hfit mapPage
  have hsame := sameOn_kept hcall.1.logs hcarved.writes
    (hcall.1.outside_below rfl h h.onList_start hpos hsums)
  have hlends := hcarved.lends h hpos hsame
  rw [haddr] at hlends
  exact ⟨_, s₁, hcall, hlends, by rw [hcarved.frame]⟩

theorem expandHeap_console (hcall : expandHeap mapPage fuel n s = some s') :
    s'.console = s.console := by
  have hby {n : ℕ} {s : State σ} (hcall : expandBy mapPage fuel n s = some s') :
      s'.console = s.console := by
    simp only [expandBy] at hcall
    split at hcall
    · cases hcall
    · cases hcall
      rfl
  simp only [expandHeap] at hcall
  split_ifs at hcall
  · have hconsole := hby hcall
    exact hconsole
  · exact hby hcall

/-- A request is served, and when its block is back the heap can serve all
requests again. -/
theorem HeapOk.lends (h : HeapOk s bs) (hafford : Affords sizes s bs)
    (hsize : size ∈ sizes) (mapPage : σ → ℕ → σ) :
    ∃ n ptr s₁ bs₁, Allocates mapPage size false n s ptr s₁ ∧
      Lends size s s₁ ptr bs bs₁ ∧ used bs₁ = used bs ∧
      Affords sizes s₁ bs₁ := by
  have hpos := hafford.size_pos size hsize
  have hlt := hafford.size_lt size hsize
  by_cases hroom : ∃ b ∈ bs, Fits size false b
  · obtain ⟨ptr, s₁, hcall, hlends, hend⟩ := h.lends_fit hpos hlt hroom mapPage
    exact ⟨0, ptr, s₁, bs, hcall, hlends, rfl, hafford.congr hend⟩
  · have hnone : ∀ b ∈ bs, ¬Fits size false b :=
      fun b hb hfit => hroom ⟨b, hb, hfit⟩
    have hlacking : (!hasRoom bs size) = true := by
      rw [Bool.not_eq_true', ← Bool.not_eq_true, hasRoom_iff]
      exact hroom
    have hgrown := hafford.room
    rw [grownEnd] at hgrown
    have hterm : growth size false ≤
        ((sizes.filter fun n => !hasRoom bs n).map (growth · false)).sum :=
      List.le_sum_of_mem (List.mem_map.mpr
        ⟨size, List.mem_filter.mpr ⟨hsize, hlacking⟩, rfl⟩)
    have hgrowth : s.heapEnd + growth size false < 2 ^ 32 := by omega
    obtain ⟨s₀, hexpand⟩ := h.exists_expandHeap hgrowth mapPage
    obtain ⟨u, b, rfl, hexpands, hend₀⟩ := h.expandHeap_grown hgrowth hexpand
    obtain ⟨w, c, hgrow, hhole, hcsize, hw, hlast⟩ := @grow_eq_concat headerSize
      s.heapEnd (growth size false) u b (headerSize_le_growth size false)
    have hfit : Fits size false c := by
      have hc := hexpands.ok.spells.end_lt (b := c) (by rw [hgrow]; simp)
      exact (fits_of_growth (by omega) hhole hcsize
        (Or.inl (padding_false c.addr))).1
    have hroom₀ : ∃ d ∈ u ++ grow headerSize s.heapEnd (growth size false) b,
        Fits size false d := ⟨c, by rw [hgrow]; simp, hfit⟩
    obtain ⟨ptr, s₁, hcall, hlends, hend⟩ :=
      hexpands.ok.lends_fit hpos hlt hroom₀ mapPage
    have hpadded : ∀ d ∈ u ++ [b], d.hole = true →
        padding false d.addr + size < 2 ^ 32 := by
      intro d _ _
      rwa [padding_false, zero_add]
    have hreturns := (h.returns_expand_iff hpadded hnone).mpr
      ⟨0, _, s₀, rfl, hexpand, hcall.1⟩
    have hkept := kept_congr hexpands.used
    have hsame : SameOn (kept (u ++ [b])) s.mem s₀.mem :=
      sameOn_kept (logs_expandHeap (s := s.noteSum _) hexpand) hexpands.writes
        (expandHeap_below (s := s.noteSum _) h.noteSum hexpand)
    refine ⟨1, ptr, s₁, _, hreturns.allocates,
      ⟨hlends.end_lt, hkept ▸ hlends.apart,
        hlends.console.trans (expandHeap_console (s := s.noteSum _) hexpand),
        hsame.trans (hkept ▸ hlends.same), fun m hm => ?_⟩,
      hexpands.used, hafford.size_pos, hafford.size_lt, ?_⟩
    · obtain ⟨hok, hheapEnd, hconsole, hback⟩ := hlends.regains m (hkept ▸ hm)
      exact ⟨hok, hheapEnd, hconsole, hkept ▸ hback⟩
    · have hsum := sum_filter_add_le (f := (growth · false))
        (p := fun n => !hasRoom (u ++ [b]) n)
        (q := fun n => !hasRoom
          (u ++ grow headerSize s.heapEnd (growth size false) b) n)
        (fun x hx => ?_) hsize hlacking
        (by rw [hasRoom_iff.mpr hroom₀, Bool.not_true])
      · rw [grownEnd, hend, hend₀]
        omega
      · rw [Bool.not_eq_true'] at hx ⊢
        rw [← Bool.not_eq_true] at hx ⊢
        exact fun hhas => hx (hasRoom_grow hhas)

end Room

end BabOs.Kheap
