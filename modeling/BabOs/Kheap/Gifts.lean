import BabOs.Kheap.Loans

/-!
# Blocks for good

A client asks for a block and keeps it.  As long as a hole is large enough for
all that is still to come, the heap does not grow.
-/

namespace BabOs.Kheap

open BabOs.Blocks BabOs.Chain Memory

/-- The call that led from `s` to `s₁` has handed out `size` bytes at `ptr`;
whatever the clients write to their bytes, the heap has the blocks `bs₁`, and a
hole for `n` bytes among them. -/
structure Gives {σ : Type*} (size n : ℕ) (s s₁ : State σ) (ptr : ℕ)
    (bs bs₁ : List Blk) : Prop where
  pos : 0 < ptr
  end_lt : ptr + size < 2 ^ 32
  apart : Disjoint (kept bs) (Set.Ico ptr (ptr + size))
  same : SameOn (kept bs) s.mem s₁.mem
  frame : s₁ = { s with mem := s₁.mem }
  kept_subset : Set.Ico ptr (ptr + size) ∪ kept bs ⊆ kept bs₁
  written : ∀ m, SameOn (Set.Ico ptr (ptr + size) ∪ kept bs)ᶜ s₁.mem m →
    HeapOk { s₁ with mem := m } bs₁
  room : hasRoom bs₁ n = true
  length_le : bs₁.length ≤ bs.length + 1

section Gives

variable {σ : Type*} {mapPage : σ → ℕ → σ} {s s₁ : State σ}
variable {b new : Blk} {bs u v w : List Blk} {post : Option Blk}
variable {size n ptr fuel : ℕ} {align : Bool}

theorem hasRoom_iff_exists :
    hasRoom bs n = true ↔ ∃ b ∈ bs, b.hole = true ∧ n ≤ b.size := by
  simp only [hasRoom_iff, fits_false_iff]

/-- A round of the loop for each block that does not fit. -/
theorem HeapOk.kmallocLoop_skip (h : HeapOk s (u ++ (w ++ v)))
    (hsums : ∀ b ∈ w, b.hole = true → padding align b.addr + size < 2 ^ 32)
    (hfits : ∀ b ∈ w, ¬Fits size align b) :
    kmallocLoop mapPage size align (fuel + w.length) (headAddr (w ++ v) 0) s =
      kmallocLoop mapPage size align fuel (headAddr v 0) s := by
  induction w generalizing u with
  | nil => rfl
  | cons b w ih =>
      rw [List.forall_mem_cons] at hsums hfits
      have htry := tryBlock_of_not_fits h.spells.header_eq hsums.1 hfits.1
      have hrest := @ih (u ++ [b]) (by simpa using h) hsums.2 hfits.2
      have hnext : (header s.mem b.addr).next = headAddr (w ++ v) 0 := by
        rw [h.spells.header_eq]
        rfl
      have hpos := (h.spells.addr_pos (b := b) (by simp)).ne'
      rw [List.cons_append, headAddr_cons, List.length_cons, ← Nat.add_assoc,
        kmallocLoop, if_neg hpos, htry]
      dsimp only
      rw [hnext, hrest]

/-- A round for each block up to the one that fits is fuel enough. -/
theorem HeapOk.kmallocInternal_fit (h : HeapOk s (u ++ b :: v))
    (hsums : ∀ d ∈ u, d.hole = true → padding align d.addr + size < 2 ^ 32)
    (hfirst : ∀ d ∈ u, ¬Fits size align d) (hfits : Fits size align b)
    (hcut : padding align b.addr = 0 ∨ padding align b.addr < b.size)
    (hcall : Allocates mapPage size align 0 s ptr s₁) (hfuel : u.length < fuel) :
    kmallocInternal mapPage fuel size align s = some (ptr, s₁) := by
  obtain ⟨s', -, new, -, htry, -⟩ := tryBlock_of_fits h hfits hcut
  have hpos := (h.spells.addr_pos (b := b) (by simp)).ne'
  have hrounds : ∀ k, u.length < k →
      kmallocInternal mapPage k size align s = some (new.addr + headerSize, s') := by
    intro k hk
    obtain ⟨j, rfl⟩ := Nat.exists_eq_add_of_le' hk
    have hskip := @HeapOk.kmallocLoop_skip _ mapPage s [] (b :: v) u size (j + 1)
      align h hsums hfirst
    rw [kmallocInternal, ← h.headAddr_eq, show j + (u.length + 1) =
      j + 1 + u.length by omega, hskip, headAddr_cons, kmallocLoop, if_neg hpos,
      htry]
  obtain ⟨-, bound, hbound⟩ := hcall
  have hlt : u.length < max bound (u.length + 1) :=
    Nat.lt_of_succ_le (le_max_right _ _)
  rw [hrounds fuel hfuel, ← hrounds _ hlt]
  exact hbound _ (le_max_left _ _)

theorem Carved.hasRoom (hcarved : Carved size s s₁ u b v none new post)
    (hroom : hasRoom (u ++ b :: v) (size + 2 * headerSize + n) = true) :
    hasRoom (u ++ (([] : List Blk) ++ new :: post.toList ++ v)) n = true := by
  obtain ⟨c, hc, hhole, hsize⟩ := hasRoom_iff_exists.mp hroom
  have hle : n ≤ c.size := by omega
  rw [hasRoom_iff_exists]
  rcases List.mem_append.mp hc with hu | hbv
  · exact ⟨c, by simp [hu], hhole, hle⟩
  rcases List.mem_cons.mp hbv with rfl | hv
  · have htiled := hcarved.carves.tiled
    have hnew := hcarved.le_size
    have hheader : 0 < headerSize := by decide
    rw [Option.toList_none, List.nil_append] at htiled
    obtain ⟨haddr, hrest⟩ := htiled
    cases post with
    | none =>
        have hend : c.addr + headerSize + new.size =
          c.addr + headerSize + c.size := hrest
        omega
    | some d =>
        have hend : c.addr + headerSize + new.size + headerSize + d.size =
          c.addr + headerSize + c.size := hrest.2
        exact ⟨d, by simp, hcarved.carves.post_hole d rfl, by omega⟩
  · exact ⟨c, by simp [hv], hhole, hle⟩

theorem HeapOk.kmalloc_gives (h : HeapOk s bs) (hpos : 0 < size)
    (hroom : hasRoom bs (size + 2 * headerSize + n) = true)
    (hfuel : bs.length ≤ fuel) (mapPage : σ → ℕ → σ) :
    ∃ ptr s₁ bs₁, kmalloc mapPage fuel size s = some (ptr, s₁) ∧
      Gives size n s s₁ ptr bs bs₁ := by
  obtain ⟨c, hc, hhole, hsize⟩ := hasRoom_iff_exists.mp hroom
  have hlt : size < 2 ^ 32 := by
    have hend := h.spells.end_lt hc
    omega
  have hfits : Fits size false c := fits_false_iff.mpr ⟨hhole, by omega⟩
  obtain ⟨u, b, v, rfl, hfit, hfirst⟩ := exists_first_fit ⟨c, hc, hfits⟩
  have hsums : ∀ d ∈ u ++ b :: v, d.hole = true →
      padding false d.addr + size < 2 ^ 32 := by
    intro d _ _
    rwa [padding_false, zero_add]
  have hsums' : ∀ d ∈ u, d.hole = true → padding false d.addr + size < 2 ^ 32 :=
    fun d hd => hsums d (List.mem_append_left _ hd)
  obtain ⟨s₁, new, post, hcall, haddr, hcarved⟩ :=
    h.kmalloc_fit hsums' hfirst hfit mapPage
  have hsame := sameOn_kept hcall.1.logs hcarved.writes
    (hcall.1.outside_below rfl h h.onList_start hpos hsums)
  have hlends := hcarved.lends h hpos hsame
  have hlength : u.length < fuel := by
    rw [List.length_append, List.length_cons] at hfuel
    omega
  refine ⟨b.addr + headerSize, s₁,
    u ++ (([] : List Blk) ++ new :: post.toList ++ v),
    h.kmallocInternal_fit hsums' hfirst hfit (Or.inl (padding_false _)) hcall
      hlength, ?_⟩
  rw [← haddr]
  refine ⟨?_, hlends.end_lt, hlends.apart, hlends.same, hcarved.frame,
    hcarved.kept_subset, fun m hm => hcarved.written hm, hcarved.hasRoom hroom, ?_⟩
  · exact Nat.lt_of_lt_of_le (by decide) (Nat.le_add_left _ _)
  · cases post <;> simp [Nat.add_assoc]

end Gives

end BabOs.Kheap
