import BabOs.Kheap.FirstFit

/-!
# Giving back at once

`kfree`, called next, undoes an allocation that did not expand the heap: the
merges put the pieces of the carved hole together again.  This fails when the
hole is as large as its padding, so that nothing of it is left to carve, and
when the sum behind the block wraps.
-/

namespace BabOs.Kheap

open BabOs.Blocks BabOs.Chain

/-- `kmalloc_internal` stops at the block: it passes both tests of the loop,
whose sum may have wrapped. -/
structure Takes (size : ℕ) (align : Bool) (b : Blk) : Prop where
  hole : b.hole = true
  size_le : uint32 (padding align b.addr + size) ≤ b.size
  splittable : padding align b.addr = 0 ∨ headerSize < padding align b.addr

/-- Of the blocks `u ++ b :: v`, the call stops at `b`. -/
def FirstTaken (size : ℕ) (align : Bool) (u : List Blk) (b : Blk) : Prop :=
  Takes size align b ∧ ∀ d ∈ u, ¬Takes size align d

/-- The block that is cut out of the hole begins in the hole, and the sum that
decides whether it is cut behind does not wrap, or leaves it whole. -/
def CutsInside (size : ℕ) (align : Bool) (b : Blk) : Prop :=
  padding align b.addr = 0 ∨
    padding align b.addr < b.size ∧ (size + headerSize < 2 ^ 32 ∨
      b.size - padding align b.addr ≤ uint32 (size + headerSize))

/-- `kfree`, called with `ptr` after the call that led to `s'`, gives back the
blocks of `s` and all their headers. -/
def Undoes {σ : Type*} (s s' : State σ) (ptr : ℕ) (bs : List Blk) : Prop :=
  HeapOk (kfree ptr s') bs ∧
    ∀ b ∈ bs, header (kfree ptr s').mem b.addr = header s.mem b.addr

section Undo

variable {σ : Type*} {mapPage : σ → ℕ → σ} {s s' s₁ : State σ}
variable {b c new : Blk} {bs u v w : List Blk} {pre post : Option Blk}
variable {size ptr n k : ℕ} {align : Bool}

/-- A block that was carved is released into the blocks from before. -/
theorem releases_of_carves (hcarves : Carves headerSize size b pre new post)
    (hnoHoles : NoAdjacentHoles (u ++ b :: v))
    (h : HeapOk s (u ++ (pre.toList ++ new :: post.toList ++ v)))
    (hlt : new.addr + headerSize < s.heapEnd) :
    Releases s (kfree (new.addr + headerSize) s)
      (u ++ (pre.toList ++ new :: post.toList ++ v)) (u ++ b :: v) new := by
  obtain ⟨w, q, hsplit, hq⟩ := exists_eq_append_toList (u ++ pre.toList)
  have hblocks : u ++ (pre.toList ++ new :: post.toList ++ v) =
      w ++ q.toList ++ new :: (post.toList ++ v) := by
    rw [← hsplit]
    simp
  rw [hblocks] at h ⊢
  rw [← hcarves.merge hnoHoles hsplit hq]
  exact kfree_spec h hq hcarves.new_used hlt

/-- The headers of one list of blocks are the same in every memory that spells
it. -/
theorem Linked.header_eq_header {m m' : Memory} {p n : ℕ}
    (h : Linked m p bs n) (h' : Linked m' p bs n) :
    ∀ b ∈ bs, header m' b.addr = header m b.addr := by
  induction bs generalizing p with
  | nil => simp
  | cons b bs ih =>
      rw [List.forall_mem_cons]
      exact ⟨h'.1.trans h.1.symm, ih h.2 h'.2⟩

/-- Giving back a block that was carved restores the blocks. -/
theorem Carved.undoes (hcarved : Carved size s s' u b v pre new post)
    (h : HeapOk s (u ++ b :: v)) (hlt : new.addr + headerSize < s.heapEnd) :
    Undoes s s' (new.addr + headerSize) (u ++ b :: v) := by
  have hend : s'.heapEnd = s.heapEnd := by rw [hcarved.frame]
  have hok := (releases_of_carves hcarved.carves h.noHoles hcarved.ok
    (hend ▸ hlt)).ok
  exact ⟨hok, h.spells.linked.header_eq_header hok.spells.linked⟩

/-! ## The block that is taken -/

/-- A round stops at a block that it takes, and goes on otherwise. -/
theorem tryBlock_cases (hb : header s.mem b.addr = blkHeader b n k) :
    (Takes size align b ∧
        ∃ ptr s', tryBlock size align b.addr s = (some ptr, s')) ∨
      ¬Takes size align b ∧ ∃ x, tryBlock size align b.addr s = (none, s.noteSum x) := by
  by_cases hhole : b.hole = true
  · rw [tryBlock_eq hb hhole]
    dsimp only
    split_ifs with hsize hfront hzero
    · exact Or.inr ⟨fun htakes => absurd htakes.size_le (not_le.mpr hsize), _, rfl⟩
    · exact Or.inl ⟨⟨hhole, not_lt.mp hsize, Or.inr hfront⟩, _, _, rfl⟩
    · refine Or.inr ⟨fun htakes => ?_, _, rfl⟩
      have hsplittable := htakes.splittable
      omega
    · exact Or.inl ⟨⟨hhole, not_lt.mp hsize,
        Or.inl (Nat.eq_zero_of_not_pos hzero)⟩, _, _, rfl⟩
  · refine Or.inr ⟨fun htakes => hhole htakes.hole, 0, ?_⟩
    rw [noteSum_eq (Nat.two_pow_pos 32), tryBlock, hb]
    simp [blkHeader, hhole]

/-- A call that does not expand the heap stops at the first block that it
takes, and has changed nothing before but the record of the sums. -/
theorem HeapOk.returns_taken (h : HeapOk s (u ++ w))
    (hreturns : Returns mapPage size align 0 (headAddr w 0) s ptr s') :
    ∃ x b v s₁, w = x ++ b :: v ∧ FirstTaken size align x b ∧
      HeapOk s₁ (u ++ w) ∧ s₁.mem = s.mem ∧ s₁.heapEnd = s.heapEnd ∧
      tryBlock size align b.addr s₁ = (some ptr, s') := by
  induction w generalizing u s with
  | nil =>
      obtain ⟨hzero, -⟩ | ⟨hzero, -⟩ | ⟨-, k, -, -, hk, -⟩ :=
        returns_iff.mp hreturns
      · exact absurd rfl hzero
      · exact absurd rfl hzero
      · exact absurd hk (Nat.succ_ne_zero k).symm
  | cons b w ih =>
      have hb := h.spells.header_eq
      have hpos := (h.spells.addr_pos (b := b) (by simp)).ne'
      rw [headAddr_cons] at hreturns
      obtain ⟨-, -, htry⟩ | ⟨-, s₁, htry, hrest⟩ | ⟨hzero, -⟩ :=
        returns_iff.mp hreturns
      · rcases tryBlock_cases hb with ⟨htakes, -⟩ | ⟨-, x, hnone⟩
        · exact ⟨[], b, w, s, rfl, ⟨htakes, by simp⟩, h, rfl, rfl, htry⟩
        · rw [hnone] at htry
          cases htry
      · rcases tryBlock_cases hb with ⟨-, _, _, hsome⟩ | ⟨hnot, k, hnone⟩
        · rw [hsome] at htry
          cases htry
        · rw [hnone] at htry
          cases htry
          rw [State.mem_noteSum, hb] at hrest
          have h₁ : HeapOk (s.noteSum k) ((u ++ [b]) ++ w) := by
            rw [List.append_assoc]
            exact h.noteSum
          obtain ⟨x, d, v, s₂, rfl, ⟨htakes, hfirst⟩, h₂, hmem, hend, htry⟩ :=
            ih h₁ hrest
          refine ⟨b :: x, d, v, s₂, rfl, ⟨htakes, ?_⟩, ?_, hmem, hend, htry⟩
          · rw [List.forall_mem_cons]
            exact ⟨hnot, hfirst⟩
          · rw [List.append_assoc] at h₂
            exact h₂
      · exact absurd hzero hpos

/-- When the sum of a round wraps and the block behind the padding stays whole,
the round is that of a request for all of this block. -/
theorem tryBlock_whole (h : HeapOk s (u ++ b :: v)) (htakes : Takes size align b)
    (hsize : size < 2 ^ 32) (hwraps : 2 ^ 32 ≤ padding align b.addr + size)
    (hcut : padding align b.addr < b.size)
    (hwhole : size + headerSize < 2 ^ 32 ∨
      b.size - padding align b.addr ≤ uint32 (size + headerSize)) :
    tryBlock size align b.addr s =
      tryBlock (b.size - padding align b.addr) align b.addr
        (s.noteSum (padding align b.addr + size)) := by
  have hb := h.spells.header_eq
  have hend := h.spells.end_lt (b := b) (by simp)
  have hfront : headerSize < padding align b.addr :=
    htakes.splittable.resolve_left (by omega)
  rw [tryBlock_eq hb htakes.hole,
    @tryBlock_hole _ (s.noteSum (padding align b.addr + size)) b _ align _ _ hb
      htakes.hole (by omega),
    if_neg (not_lt.mpr htakes.size_le), if_pos hfront, if_neg (by omega),
    if_pos hfront]
  generalize padding align b.addr = p at hwraps hcut hwhole hfront ⊢
  have hsplit : p - headerSize + headerSize < b.size := by omega
  have hspells := splitBlock_spec h.spells hsplit
  rw [← List.singleton_append, ← List.append_assoc] at hspells
  have hrest : (splitRest b (p - headerSize)).size = b.size - p := by
    simp only [splitRest]
    omega
  have hkeep : ∀ {n}, b.size - p ≤ uint32 (n + headerSize) →
      splitBlock (splitBlock s.mem b.addr (p - headerSize))
        (splitRest b (p - headerSize)).addr n =
          splitBlock s.mem b.addr (p - headerSize) := by
    intro n hn
    rw [splitBlock, if_pos]
    rw [hspells.header_eq]
    exact hrest.trans_le hn
  have hsum : b.size - p ≤ uint32 (size + headerSize) := by
    rcases hwhole with hlt | hle
    · rw [uint32_eq_of_lt hlt]
      omega
    · exact hle
  have hexact : b.size - p ≤ uint32 (b.size - p + headerSize) := by
    rw [uint32_eq_of_lt (by omega)]
    omega
  dsimp only
  rw [State.mem_noteSum, splitBlock_next h.spells hsplit, takeBlock, takeBlock,
    hkeep hsum, hkeep hexact]

/-- A block that is cut out of the inside of a hole is carved, maybe for a larger
request. -/
theorem HeapOk.carved_of_cutsInside (h : HeapOk s (u ++ b :: v))
    (hin : Inside s (u ++ b :: v)) (hsize : size < 2 ^ 32)
    (htakes : Takes size align b) (hcuts : CutsInside size align b)
    (htry : tryBlock size align b.addr s = (some ptr, s')) :
    ∃ n s₁ pre new post, s₁.mem = s.mem ∧ HeapOk s₁ (u ++ b :: v) ∧
      ptr = new.addr + headerSize ∧ new.addr + headerSize < s₁.heapEnd ∧
      Carved n s₁ s' u b v pre new post := by
  have hcut : padding align b.addr = 0 ∨ padding align b.addr < b.size :=
    hcuts.imp_right And.left
  obtain ⟨n, k, hfits, htry'⟩ : ∃ n k, Fits n align b ∧
      tryBlock n align b.addr (s.noteSum k) = (some ptr, s') := by
    by_cases hsum : padding align b.addr + size < 2 ^ 32
    · refine ⟨size, 0, ⟨htakes.hole, ?_, htakes.splittable⟩, ?_⟩
      · have hle := htakes.size_le
        rwa [uint32_eq_of_lt hsum] at hle
      · rwa [noteSum_eq (Nat.two_pow_pos 32)]
    · rcases hcuts with hzero | ⟨hlt, hwhole⟩
      · omega
      · refine ⟨b.size - padding align b.addr, padding align b.addr + size,
          ⟨htakes.hole, by omega, htakes.splittable⟩, ?_⟩
        rw [← tryBlock_whole h htakes hsize (not_lt.mp hsum) hlt hwhole]
        exact htry
  obtain ⟨s₂, pre, new, post, heq, haddr, -, hcarved⟩ :=
    tryBlock_of_fits (h.noteSum (n := k)) hfits hcut
  rw [heq] at htry'
  cases htry'
  refine ⟨n, s.noteSum k, pre, new, post, rfl, h.noteSum, rfl, ?_, hcarved⟩
  have hb := hin b (by simp)
  have hbounds := h.spells.tiled.bounds (b := b) (by simp)
  change new.addr + headerSize < s.heapEnd
  omega

/-! ## A hole that is all padding -/

/-- A block given back behind a hole makes the hole larger. -/
theorem size_kfree_behind (h : Spells s.mem (u ++ b :: c :: v) s.heapEnd)
    (hhole : b.hole = true) (hlt : c.addr + headerSize < s.heapEnd) :
    (header (kfree (c.addr + headerSize) s).mem b.addr).size ≠ b.size := by
  have hc : Spells s.mem ((u ++ [b]) ++ c :: v) s.heapEnd := by
    rwa [List.append_assoc]
  rw [kfree_eq hc hlt]
  have hfreed : Spells (setIsHole s.mem c.addr 1)
      ((u ++ [b]) ++ { c with hole := true } :: v) s.heapEnd :=
    setIsHole_spec hc true
  have hnext := (mergeNext_spec hfreed rfl).1
  dsimp only at hnext ⊢
  generalize mergeNext (setIsHole s.mem c.addr 1) c.addr = m at hnext ⊢
  obtain ⟨d, w, hforward, hd⟩ :=
    mergeForward_eq_cons headerSize (b := { c with hole := true }) (v := v)
  rw [hforward, List.append_assoc] at hnext
  have hprev := (mergePrev_spec (q := some b) hnext nofun).1
  rw [mergeBackward, if_pos hhole, hd] at hprev
  have hheader : header (mergePrev m c.addr) b.addr = _ := hprev.header_eq
  rw [hheader]
  simp only [blkHeader, headerSize]
  omega

/-- When nothing of the hole is left behind the padding, the call hands out the
block behind the hole, and giving that back does not restore the blocks. -/
theorem HeapOk.not_undoes (h : HeapOk s (u ++ b :: c :: v))
    (hin : Inside s (u ++ b :: c :: v)) (hsum : size + headerSize < 2 ^ 32)
    (htakes : Takes size align b) (hcuts : ¬CutsInside size align b)
    (htry : tryBlock size align b.addr s = (some ptr, s')) :
    ¬Undoes s s' ptr (u ++ b :: c :: v) := by
  rw [CutsInside, not_or, not_and_or] at hcuts
  have hfull : b.size ≤ padding align b.addr :=
    not_lt.mp (hcuts.2.resolve_right (not_not.mpr (Or.inl hsum)))
  have hfront := htakes.splittable.resolve_left hcuts.1
  have hb := h.spells.header_eq
  have hend := h.spells.end_lt (b := c) (by simp)
  have hkeep : splitBlock s.mem b.addr (padding align b.addr - headerSize) =
      s.mem := by
    have hpadding : padding align b.addr < 2 ^ 32 := uint32_lt _
    exact splitBlock_of_le h.spells (by omega) (by omega)
  rw [tryBlock_eq hb htakes.hole, if_neg (not_lt.mpr htakes.size_le),
    if_pos hfront, hkeep] at htry
  have hnext : (header s.mem b.addr).next = c.addr := by
    rw [hb]
    rfl
  have hptr : uint32 (c.addr + headerSize) = c.addr + headerSize :=
    uint32_eq_of_lt (by omega)
  dsimp only at htry
  rw [hnext, takeBlock, hptr] at htry
  cases htry
  have hspells : Spells s.mem ((u ++ [b]) ++ c :: v) s.heapEnd := by
    rw [List.append_assoc]
    exact h.spells
  have htaken := takeBlock_spells hspells hsum
  rw [List.append_assoc] at htaken
  intro hundoes
  have hsize := congrArg Header.size (hundoes.2 b (by simp))
  rw [hb] at hsize
  exact size_kfree_behind (s := { s.noteSum (padding align b.addr + size) with
      mem := setIsHole (splitBlock s.mem c.addr size) c.addr 0 })
    (c := takeNew c size) htaken htakes.hole (hin c (by simp)) hsize

end Undo

/-- In every state of a run, and for every size: `kfree`, called right after an
allocation that did not expand the heap, gives back the same chain of headers if
the block was cut out of the inside of the hole that the call stopped at.  When
that hole is not the last block, and the size with a header does not wrap, it
does so only then. -/
theorem run_kfree_undoes {σ : Type*} {mapPage : σ → ℕ → σ} {s : State σ}
    {c : Config σ} (hrun : Run mapPage (fun _ => True) (boot mapPage s) c) :
    ∃ bs, HeapOk c.1 bs ∧ ∀ size align ptr s', size < 2 ^ 32 →
      Allocates mapPage size align 0 c.1 ptr s' →
        ∃ u b v, bs = u ++ b :: v ∧ FirstTaken size align u b ∧
          (CutsInside size align b → Undoes c.1 s' ptr bs) ∧
          (v ≠ [] → size + headerSize < 2 ^ 32 →
            Undoes c.1 s' ptr bs → CutsInside size align b) := by
  obtain ⟨bs, h⟩ := serves_of_run hrun
  refine ⟨bs, h.ok, fun size align ptr s' hsize hcall => ?_⟩
  have hreturns := hcall.1
  rw [← h.ok.headAddr_eq] at hreturns
  obtain ⟨u, b, v, s₁, rfl, hfirst, hok, hmem, hend, htry⟩ :=
    HeapOk.returns_taken (u := []) h.ok hreturns
  have hin : Inside s₁ (u ++ b :: v) := by
    rw [Inside, hend]
    exact h.inside
  have hsame : ∀ {s₂ : State σ} {ptr}, s₂.mem = c.1.mem →
      (Undoes s₂ s' ptr (u ++ b :: v) ↔ Undoes c.1 s' ptr (u ++ b :: v)) := by
    intro s₂ ptr hmem₂
    rw [Undoes, Undoes, hmem₂]
  refine ⟨u, b, v, rfl, hfirst, fun hcuts => ?_, fun hv hsum hundoes => ?_⟩
  · obtain ⟨n, s₂, pre, new, post, hmem₂, hok₂, rfl, hlt, hcarved⟩ :=
      HeapOk.carved_of_cutsInside hok hin hsize hfirst.1 hcuts htry
    exact (hsame (hmem₂.trans hmem)).mp (hcarved.undoes hok₂ hlt)
  · by_contra hcuts
    obtain ⟨d, v, rfl⟩ := List.exists_cons_of_ne_nil hv
    exact HeapOk.not_undoes hok hin hsum hfirst.1 hcuts htry
      ((hsame hmem).mpr hundoes)

theorem run_kfree_undoes_boot :
    ∃ ptr s', Allocates noPages 100 true 0 (boot noPages blankState).1 ptr s' ∧
      Undoes (boot noPages blankState).1 s' ptr
        [⟨kheapStart, kheapInitialSize - headerSize, true⟩] := by
  have hboot := heapOk_kheapInit noPages blankState
  have hpadding : padding true kheapStart = 4076 := by
    rw [padding_true (by decide)]
    rfl
  have hfits : Fits 100 true ⟨kheapStart, kheapInitialSize - headerSize, true⟩ := by
    refine ⟨rfl, ?_, Or.inr ?_⟩
    · rw [hpadding]
      decide
    · rw [hpadding]
      decide
  have hcut : padding true kheapStart < kheapInitialSize - headerSize := by
    rw [hpadding]
    decide
  obtain ⟨s', pre, new, post, hcall, -⟩ :=
    HeapOk.returns_fit (u := []) (v := []) hboot (by simp) (by simp) hfits
      (Or.inr hcut) noPages
  obtain ⟨bs, hok, hundoes⟩ := run_kfree_undoes
    (Relation.ReflTransGen.refl : Run noPages (fun _ => True)
      (boot noPages blankState) (boot noPages blankState))
  obtain rfl := hok.unique hboot
  obtain ⟨u, b, v, hblocks, -, hundo, -⟩ :=
    hundoes 100 true _ s' (by decide) hcall
  cases u with
  | nil =>
      obtain ⟨rfl, -⟩ := List.cons.inj hblocks
      exact ⟨_, s', hcall, hundo (Or.inr ⟨hcut, Or.inl (by decide)⟩)⟩
  | cons d u => simp at hblocks

/-! ## The live block behind the hole -/

/-- The heap after `kmalloc(4076)`, `kmalloc(100)` and `kfree` of the first
block, whose hole is as large as the padding in front of the second one. -/
def paddedHole : State Unit := kfree 0xD0000014 twoBlocks

/-- `kmalloc_a(0)` then hands out the second block again, which is live, and
giving that back does not restore the chain. -/
theorem not_undoes_paddedHole :
    ∃ c, Run noPages (fun _ => True) (boot noPages blankState) c ∧
      ∃ bs ptr s', HeapOk c.1 bs ∧ c.2 ptr = some 100 ∧
        Allocates noPages 0 true 0 c.1 ptr s' ∧ ¬Undoes c.1 s' ptr bs := by
  have hlive : twoLive 0xD0000014 = some 4076 := rfl
  have hrun := run_twoBlocks.tail
    ⟨.kfree 0xD0000014, trivial, Step.kfree hlive⟩
  obtain ⟨bs, hserves⟩ := serves_of_run hrun
  have hptr : (tryBlock 0 true kheapStart paddedHole).1 = some 0xD0001014 := by
    decide +kernel
  have hreturns : Returns noPages 0 true 0 paddedHole.heapStart paddedHole
      0xD0001014 (tryBlock 0 true kheapStart paddedHole).2 :=
    Returns.take (by decide +kernel) (Prod.ext hptr rfl)
  refine ⟨_, hrun, bs, _, _, hserves.ok, rfl, hreturns.allocates,
    fun hundoes => ?_⟩
  have hsize : (header (kfree 0xD0001014
        (tryBlock 0 true kheapStart paddedHole).2).mem kheapStart).size ≠
      (header paddedHole.mem kheapStart).size := by
    decide +kernel
  cases bs with
  | nil => exact absurd hserves.ok.spells.tiled hserves.ok.nonempty.ne
  | cons b bs =>
      have hheader := hundoes.2 b List.mem_cons_self
      rw [hserves.ok.spells.tiled.1] at hheader
      exact hsize (congrArg Header.size hheader)

end BabOs.Kheap
