import BabOs.Kheap.FirstFit

/-!
# Requests of any size

A request is served when none of its sums wraps and the first hole that fits is
larger than its padding; otherwise a short block can come back.  The size `0` is
allowed here.
-/

namespace BabOs.Kheap

open BabOs.Blocks BabOs.Chain

/-- No sum of the call wraps, and the first hole that fits is larger than its
padding. -/
structure Servable {σ : Type*} (size : ℕ) (align : Bool) (s : State σ)
    (bs : List Blk) : Prop where
  sums : SumsFit size align s bs
  cut : ∀ u b v, bs = u ++ b :: v → Fits size align b →
    (∀ d ∈ u, ¬Fits size align d) →
      padding align b.addr = 0 ∨ padding align b.addr < b.size

/-! ## A last hole that cannot be aligned -/

/-- The last block is a hole at `a` whose padding is too small for a header, and
no other block fits. -/
structure Stuck {σ : Type*} (size : ℕ) (align : Bool) (u : List Blk) (a : ℕ)
    (s : State σ) : Prop where
  linked : ∃ x, Linked s.mem 0 (u ++ [⟨a, x, true⟩]) 0
  start : s.heapStart = headAddr u a
  addr_ne : ∀ b ∈ u, b.addr ≠ 0
  last_ne : a ≠ 0
  apart : ∀ b ∈ u, Apart a b.addr
  sums : ∀ b ∈ u, b.hole = true → padding align b.addr + size < 2 ^ 32
  last_sum : padding align a + size < 2 ^ 32
  none_fits : ∀ b ∈ u, ¬Fits size align b
  unsplittable : ¬(padding align a = 0 ∨ headerSize < padding align a)

section Stuck

variable {σ : Type*} {mapPage : σ → ℕ → σ} {s s' s₁ : State σ}
variable {b : Blk} {bs u v : List Blk} {size n k curr ptr a fuel : ℕ}
variable {align : Bool} {m : Memory}

theorem headAddr_mem : headAddr bs 0 = 0 ∨ ∃ c ∈ bs, c.addr = headAddr bs 0 := by
  cases bs with
  | nil => exact Or.inl rfl
  | cons c bs => exact Or.inr ⟨c, List.mem_cons_self, rfl⟩

/-- A round passes over the block it looks at, and goes on to the next one. -/
theorem Stuck.tryBlock (h : Stuck size align u a s)
    (hcurr : curr = a ∨ ∃ b ∈ u, b.addr = curr) :
    tryBlock size align curr s = (none, s) ∧
      ((header s.mem curr).next = 0 ∨ (header s.mem curr).next = a ∨
        ∃ b ∈ u, b.addr = (header s.mem curr).next) := by
  obtain ⟨x, hlinked⟩ := h.linked
  rcases hcurr with rfl | ⟨b, hb, rfl⟩
  · have hlast : header s.mem curr = blkHeader ⟨curr, x, true⟩ 0 (lastAddr 0 u) :=
      hlinked.header_eq
    refine ⟨@tryBlock_of_not_fits _ s ⟨curr, x, true⟩ size align _ _ hlast
      (fun _ => h.last_sum) fun hfits => h.unsplittable hfits.splittable, ?_⟩
    rw [hlast]
    exact Or.inl rfl
  · obtain ⟨v, w, rfl⟩ := List.append_of_mem hb
    have hheader : header s.mem b.addr =
        blkHeader b (headAddr (w ++ [⟨a, x, true⟩]) 0) (lastAddr 0 v) := by
      rw [List.append_assoc] at hlinked
      exact hlinked.header_eq
    refine ⟨tryBlock_of_not_fits hheader (h.sums b hb) (h.none_fits b hb), ?_⟩
    rw [hheader]
    cases w with
    | nil => exact Or.inr (Or.inl rfl)
    | cons c w => exact Or.inr (Or.inr ⟨c, by simp, rfl⟩)

theorem Stuck.noteSum (h : Stuck size align u a s) (n : ℕ) :
    Stuck size align u a (s.noteSum n) :=
  ⟨h.linked, h.start, h.addr_ne, h.last_ne, h.apart, h.sums, h.last_sum,
    h.none_fits, h.unsplittable⟩

theorem Stuck.lastFrom_eq (h : Stuck size align u a s) {last : ℕ}
    (hlast : lastFrom (links s.mem).next fuel s.heapStart = some last) :
    last = a := by
  obtain ⟨x, hlinked⟩ := h.linked
  have hne : ∀ b ∈ u ++ [⟨a, x, true⟩], b.addr ≠ 0 := by
    intro b hb
    rcases List.mem_append.mp hb with hb | hb
    · exact h.addr_ne b hb
    · rw [List.mem_singleton.mp hb]
      exact h.last_ne
  have hstart : pointer (headAddr (u ++ [⟨a, x, true⟩]) 0) = some s.heapStart := by
    rw [headAddr_append, headAddr_cons, h.start, pointer, if_neg]
    cases u with
    | nil => exact h.last_ne
    | cons b u => exact h.addr_ne b List.mem_cons_self
  have hchain := (hlinked.isDList hne).1
  rw [hstart] at hchain
  obtain ⟨w, hw⟩ := hchain.lastFrom_eq hlast
  rw [List.map_append, List.map_singleton] at hw
  have hlast' := congrArg List.getLast? hw
  simpa using hlast'.symm

/-- An expansion makes the last hole larger, and leaves it where it is. -/
theorem Stuck.expandBy (h : Stuck size align u a s)
    (hexpand : expandBy mapPage fuel n s = some s₁) :
    Stuck size align u a s₁ := by
  simp only [Kheap.expandBy, State.mem_noteSum] at hexpand
  split at hexpand
  · cases hexpand
  next last hlast =>
    obtain rfl := h.lastFrom_eq hlast
    obtain ⟨x, hlinked⟩ := h.linked
    have hflag : (header s.mem last).isHole ≠ 0 := by
      rw [hlinked.header_eq]
      exact one_ne_zero
    rw [growLast, if_pos hflag] at hexpand
    cases hexpand
    refine ⟨⟨uint32 (uint32 ((header s.mem last).size + n)), ?_⟩, h.start,
      h.addr_ne, h.last_ne, h.apart, h.sums, h.last_sum, h.none_fits,
      h.unsplittable⟩
    refine hlinked.splice (v := []) [⟨last, x, true⟩]
      [⟨last, uint32 (uint32 ((header s.mem last).size + n)), true⟩]
      ?_ rfl ⟨?_, trivial⟩ (by simp) (by simp)
    · intro b hb
      exact header_setSize (h.apart b hb)
    · rw [header_setSize_self, hlinked.header_eq]
      rfl

theorem Stuck.expandHeap (h : Stuck size align u a s)
    (hexpand : expandHeap mapPage fuel n s = some s₁) :
    Stuck size align u a s₁ := by
  rw [Kheap.expandHeap] at hexpand
  split_ifs at hexpand
  · exact (h.noteSum _).expandBy hexpand
  · exact h.expandBy hexpand

/-- The call never returns. -/
theorem Stuck.not_returns (h : Stuck size align u a s)
    (hcurr : curr = 0 ∨ curr = a ∨ ∃ b ∈ u, b.addr = curr) :
    ¬Returns mapPage size align n curr s ptr s' := by
  intro hreturns
  induction hreturns with
  | take hcurr' htry =>
      rw [(h.tryBlock (hcurr.resolve_left hcurr')).1] at htry
      cases htry
  | next hcurr' htry _ ih =>
      obtain ⟨hnone, hnext⟩ := h.tryBlock (hcurr.resolve_left hcurr')
      rw [hnone] at htry
      cases htry
      exact ih h hnext
  | expand hexpand _ ih =>
      have hstuck := (h.noteSum _).expandHeap hexpand
      refine ih hstuck (Or.inr ?_)
      rw [hstuck.start]
      cases u with
      | nil => exact Or.inl rfl
      | cons b u => exact Or.inr ⟨b, List.mem_cons_self, rfl⟩

/-- When the last hole cannot be aligned and no other block fits, the call is
stuck. -/
theorem HeapOk.stuck (h : HeapOk s (u ++ [b])) (hhole : b.hole = true)
    (hsums : ∀ d ∈ u, d.hole = true → padding align d.addr + size < 2 ^ 32)
    (hnone : ∀ d ∈ u, ¬Fits size align d) (hgrowth : growth size align < 2 ^ 32)
    (hunsplittable : ¬(padding align b.addr = 0 ∨
      headerSize < padding align b.addr)) :
    Stuck size align u b.addr s := by
  have hend := h.spells.end_lt (b := b) (by simp)
  have hpair := apart_of_tiled h.spells.tiled
  rw [List.pairwise_append] at hpair
  have halign : align = true := by
    cases align with
    | false => exact absurd (Or.inl (padding_false _)) hunsplittable
    | true => rfl
  subst halign
  have hpadding : padding true b.addr < pageSize := padding_lt (by omega)
  have hexpand := expandSize_le_growth size true
  rw [expandSize, if_pos rfl] at hexpand
  refine ⟨⟨b.size, ?_⟩, ?_, ?_, ?_, ?_, hsums, by omega, hnone, hunsplittable⟩
  · rw [← hhole]
    exact h.spells.linked
  · rw [← h.headAddr_eq, headAddr_append]
    rfl
  · exact fun d hd => (h.spells.addr_pos (List.mem_append_left _ hd)).ne'
  · exact (h.spells.addr_pos (b := b) (by simp)).ne'
  · exact fun d hd => (hpair.2.2 d hd b (List.mem_singleton_self b)).symm

end Stuck

/-! ## Requests -/

section Requests

variable {σ : Type*} {mapPage : σ → ℕ → σ} {s s' s₁ : State σ}
variable {b new : Blk} {bs u v : List Blk} {pre post : Option Blk}
variable {size ptr fuel : ℕ} {align : Bool}

/-- A request that is served, and returns, carves a hole; nothing that was
handed out changes. -/
theorem HeapOk.request (h : HeapOk s bs) (hserv : Servable size align s bs)
    (hcall : kmallocInternal mapPage fuel size align s = some (ptr, s')) :
    ∃ bs' new, ptr = new.addr + headerSize ∧ Hands size s s' bs bs' new ∧
      (Inside s bs → Inside s' bs') := by
  obtain ⟨n, hreturns⟩ := kmallocLoop_returns hcall
  by_cases hfits : ∃ b ∈ bs, Fits size align b
  · obtain ⟨u, b, v, rfl, hfit, hfirst⟩ := exists_first_fit hfits
    have hcut := hserv.cut u b v rfl hfit hfirst
    obtain ⟨s₂, pre, new, post, hcall', haddr, -, hcarved⟩ := h.returns_fit
      (fun d hd => hserv.sums.padded d (List.mem_append_left _ hd)) hfirst hfit
      hcut mapPage
    obtain ⟨rfl, rfl⟩ := hreturns.allocates.unique hcall'
    exact ⟨_, new, rfl, hcarved.hands,
      fun hin => hcarved.inside h hin haddr hcut⟩
  · have hnone : ∀ b ∈ bs, ¬Fits size align b :=
      fun b hb hfit => hfits ⟨b, hb, hfit⟩
    obtain ⟨k, fuel₁, s₁, rfl, hexpand, hrest⟩ :=
      (h.returns_expand_iff hserv.sums.padded hnone).mp hreturns
    obtain ⟨u, b, rfl, hexpands, hend⟩ :=
      h.expandHeap_grown (hserv.sums.grown hnone) hexpand
    obtain ⟨w, c, hgrow, hhole, hsize, hw, hlast⟩ := @grow_eq_concat headerSize
      s.heapEnd (growth size align) u b (headerSize_le_growth size align)
    rw [hgrow] at hexpands
    have hok := hexpands.ok
    have hbounds := hok.spells.tiled.bounds (b := c) (by simp)
    have hlt := hok.spells.end_lt (b := c) (by simp)
    by_cases hsplittable : padding align c.addr = 0 ∨
        headerSize < padding align c.addr
    · obtain ⟨hfit, hcut⟩ :=
        fits_of_growth (by omega) hhole hsize hsplittable
      obtain ⟨s₂, pre, new, post, hcall', haddr, -, hcarved⟩ := hok.returns_fit
        (fun d hd => hserv.sums.padded d (hw d hd))
        (fun d hd => hnone d (hw d hd)) hfit hcut mapPage
      obtain ⟨rfl, rfl⟩ := hrest.allocates.unique hcall'
      refine ⟨_, new, rfl, hexpands.hands hcarved.hands, fun hin => ?_⟩
      have hgrowth := pageSize_le_growth size align
      rw [pageSize] at hgrowth
      apply hcarved.inside hok (inside_grown hexpands hin hw ?_) haddr hcut
      rw [headerSize] at hbounds hsize ⊢
      omega
    · have hstuck := hok.stuck hhole
        (fun d hd => hserv.sums.padded d (hw d hd)) (fun d hd => hnone d (hw d hd))
        ((Nat.le_add_left _ _).trans_lt (hserv.sums.grown hnone)) hsplittable
      refine absurd hrest (hstuck.not_returns (Or.inr ?_))
      rw [hstuck.start]
      cases w with
      | nil => exact Or.inl rfl
      | cons d w => exact Or.inr ⟨d, List.mem_cons_self, rfl⟩

end Requests

end BabOs.Kheap
