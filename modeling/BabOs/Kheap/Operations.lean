import BabOs.Kheap.Headers

/-!
# The operations on the block list

Each function of the heap code that rewires headers is matched with an
operation on the list of blocks its headers spell, and its stores are shown to
stay out of the blocks that are handed out.
-/

namespace BabOs.Kheap

open BabOs.Blocks BabOs.Chain

/-- The headers spell blocks that cut the range up to `hi` and are linked both
ways. -/
structure Spells (m : Memory) (bs : List Blk) (hi : ℕ) : Prop where
  linked : Linked m 0 bs 0
  tiled : Tiled headerSize kheapStart bs hi
  hi_lt : hi < 2 ^ 32

section Spelling

variable {m m' : Memory} {hi : ℕ} {b c : Blk} {u v bs : List Blk}

theorem Spells.addr_pos (h : Spells m bs hi) (hb : b ∈ bs) : 0 < b.addr := by
  have hle := (h.tiled.bounds hb).1
  rw [kheapStart] at hle
  omega

theorem Spells.end_lt (h : Spells m bs hi) (hb : b ∈ bs) :
    b.addr + headerSize + b.size < 2 ^ 32 :=
  (h.tiled.bounds hb).2.trans_lt h.hi_lt

theorem apart_of_tiled {lo : ℕ} (h : Tiled headerSize lo bs hi) :
    bs.Pairwise fun b c => Apart b.addr c.addr :=
  h.pairwise.imp fun hle => Or.inl ((Nat.le_add_right _ _).trans hle)

theorem Spells.header_eq (h : Spells m (u ++ b :: v) hi) :
    header m b.addr = blkHeader b (headAddr v 0) (lastAddr 0 u) :=
  h.linked.header_eq

theorem Spells.headerOutside (h : Spells m bs hi) (hb : b ∈ bs) :
    HeaderOutside (payloads headerSize bs) b.addr :=
  h.tiled.disjoint_header hb

theorem Spells.headAddr_lt (h : Spells m (u ++ b :: v) hi) :
    headAddr v 0 < 2 ^ 32 := by
  cases v with
  | nil => exact Nat.two_pow_pos 32
  | cons c v =>
      have hend := h.end_lt (b := c) (by simp)
      simp only [headAddr]
      omega

theorem Spells.headAddr_ne_zero (h : Spells m (u ++ b :: v) hi) :
    headAddr (b :: v) 0 ≠ 0 :=
  (h.addr_pos (b := b) (by simp)).ne'

theorem kheapMagic_eq : uint32 kheapMagic = kheapMagic :=
  uint32_eq_of_lt (by rw [kheapMagic]; norm_num)

/-- The blocks after `b` when a store sets the back link of the first one. -/
theorem header_setPrev_headAddr {x : ℕ} (hx : ∀ c ∈ v.head?, Apart c.addr x)
    {w : ℕ} :
    header (if headAddr v 0 ≠ 0 then setPrev m (headAddr v 0) w else m) x =
      header m x := by
  cases v with
  | nil => rfl
  | cons c v =>
      split_ifs
      · exact header_setPrev (hx c rfl)
      · rfl

theorem header_setPrev_headAddr_self {w : ℕ} (hc : c ∈ v.head?)
    (hpos : 0 < c.addr) :
    header (if headAddr v 0 ≠ 0 then setPrev m (headAddr v 0) w else m)
      c.addr = { header m c.addr with prev := uint32 w } := by
  cases v with
  | nil => simp at hc
  | cons d v =>
      obtain rfl : d = c := by simpa using hc
      have hcond : headAddr (d :: v) 0 ≠ 0 := hpos.ne'
      rw [if_pos hcond]
      exact header_setPrev_self

theorem apart_head_tail
    (h : v.Pairwise fun b c => Apart b.addr c.addr) (hb : b ∈ v.head?)
    (hc : c ∈ v.tail) : Apart b.addr c.addr := by
  cases v with
  | nil => simp at hb
  | cons d v =>
      obtain rfl : d = b := by simpa using hb
      exact (List.pairwise_cons.mp h).1 c hc

end Spelling

/-! ## Splitting a block -/

section Splitting

variable {m : Memory} {hi size : ℕ} {b : Blk} {u v : List Blk}

/-- The hole that `split_block` cuts off. -/
def splitRest (b : Blk) (size : ℕ) : Blk :=
  ⟨b.addr + headerSize + size, b.size - size - headerSize, true⟩

theorem splitBlock_of_le (h : Spells m (u ++ b :: v) hi)
    (hle : b.size ≤ size + headerSize) (hlt : size + headerSize < 2 ^ 32) :
    splitBlock m b.addr size = m := by
  rw [splitBlock, if_pos]
  rw [h.header_eq, uint32_eq_of_lt hlt]
  exact hle

/-- The memory with a new header at `n`, behind `b` and before `next`. -/
def insertHole (m : Memory) (b n size next : ℕ) : Memory :=
  let m := setMagic m n kheapMagic
  let m := setIsHole m n 1
  let m := setSize m n size
  let m := setNext m n next
  setPrev m n b

theorem header_insertHole {x n next : ℕ} (h : Apart n x) {p : ℕ} :
    header (insertHole m p n size next) x = header m x := by
  simp only [insertHole, header_setMagic h, header_setIsHole h,
    header_setSize h, header_setNext h, header_setPrev h]

theorem header_insertHole_self {c : Blk} {next p : ℕ} (hhole : c.hole = true)
    (hsize : c.size < 2 ^ 32) (hnext : next < 2 ^ 32) (hp : p < 2 ^ 32) :
    header (insertHole m p c.addr c.size next) c.addr =
      blkHeader c next p := by
  simp [insertHole, blkHeader, hhole, kheapMagic_eq, uint32_eq_of_lt hsize,
    uint32_eq_of_lt hnext, uint32_eq_of_lt hp]

theorem splitBlock_eq (h : Spells m (u ++ b :: v) hi)
    (hlt : size + headerSize < b.size) :
    splitBlock m b.addr size =
      let n := (splitRest b size).addr
      let m := insertHole m b.addr n (splitRest b size).size (headAddr v 0)
      let m := if headAddr v 0 ≠ 0 then setPrev m (headAddr v 0) n else m
      setSize (setNext m b.addr n) b.addr size := by
  have hend : b.addr + headerSize + b.size < 2 ^ 32 := h.end_lt (by simp)
  have hn : uint32 (b.addr + headerSize + size) = (splitRest b size).addr :=
    uint32_eq_of_lt (by omega)
  have hapart : Apart (splitRest b size).addr b.addr :=
    Or.inr (by simp [splitRest])
  have hsize : sub32 (sub32 b.size size) headerSize =
      (splitRest b size).size := by
    rw [sub32_eq_of_le (a := b.size) (by omega) (by omega),
      sub32_eq_of_le (by omega) (by omega)]
    rfl
  have hcond : ¬(header m b.addr).size ≤ uint32 (size + headerSize) := by
    rw [h.header_eq, uint32_eq_of_lt (by omega)]
    exact not_le_of_gt hlt
  rw [splitBlock, if_neg hcond]
  simp only [hn, insertHole, header_setMagic hapart, header_setIsHole hapart,
    header_setSize hapart, header_setNext hapart, header_setPrev hapart,
    h.header_eq, blkHeader, hsize]

theorem splitBlock_spec (h : Spells m (u ++ b :: v) hi)
    (hlt : size + headerSize < b.size) :
    Spells (splitBlock m b.addr size)
      (u ++ ({ b with size := size } :: splitRest b size :: v)) hi := by
  have hend : b.addr + headerSize + b.size < 2 ^ 32 := h.end_lt (by simp)
  have htiled : Tiled headerSize kheapStart
      (u ++ ({ b with size := size } :: splitRest b size :: v)) hi := by
    refine h.tiled.replace [b]
      [{ b with size := size }, splitRest b size] ?_
    rintro a e ⟨rfl, he⟩
    rw [tiled_nil] at he
    subst he
    refine ⟨rfl, rfl, ?_⟩
    simp only [splitRest, tiled_nil]
    omega
  have hpair := apart_of_tiled htiled
  rw [List.pairwise_append, List.pairwise_cons, List.pairwise_cons] at hpair
  obtain ⟨-, ⟨hb, hn, hv⟩, hu⟩ := hpair
  have hbn : Apart b.addr (splitRest b size).addr := hb _ (by simp)
  have hnlt : (splitRest b size).addr < 2 ^ 32 := by
    simp only [splitRest]
    omega
  have hother : ∀ x, Apart b.addr x → Apart (splitRest b size).addr x →
      (∀ c ∈ v.head?, Apart c.addr x) →
        header (splitBlock m b.addr size) x = header m x := by
    intro x hbx hnx hvx
    rw [splitBlock_eq h hlt]
    simp only [header_setSize hbx, header_setNext hbx,
      header_setPrev_headAddr hvx, header_insertHole hnx]
  refine ⟨?_, htiled, h.hi_lt⟩
  refine h.linked.splice [b] [{ b with size := size }, splitRest b size]
    ?_ rfl ?_ ?_ ?_
  · intro c hc
    refine hother _ (hu c hc { b with size := size } (by simp)).symm
      (hu c hc (splitRest b size) (by simp)).symm ?_
    intro d hd
    exact (hu c hc d (by simp [List.mem_of_mem_head? hd])).symm
  · refine ⟨?_, ?_, trivial⟩
    · rw [splitBlock_eq h hlt, header_setSize_self, header_setNext_self,
        header_setPrev_headAddr fun c hc =>
          (hb c (by simp [List.mem_of_mem_head? hc])).symm,
        header_insertHole hbn.symm, h.header_eq]
      simp [blkHeader, headAddr, uint32_eq_of_lt hnlt,
        uint32_eq_of_lt (show size < 2 ^ 32 by omega)]
    · rw [splitBlock_eq h hlt]
      simp only [header_setSize hbn, header_setNext hbn]
      rw [header_setPrev_headAddr fun c hc =>
          (hn c (List.mem_of_mem_head? hc)).symm]
      exact header_insertHole_self rfl (by simp only [splitRest]; omega)
        h.headAddr_lt (by omega)
  · intro c hc
    have hcv := List.mem_of_mem_head? hc
    have hbc : Apart b.addr c.addr := hb c (by simp [hcv])
    rw [splitBlock_eq h hlt]
    simp only [header_setSize hbc, header_setNext hbc]
    rw [header_setPrev_headAddr_self hc (h.addr_pos (by simp [hcv])),
      header_insertHole (hn c hcv), uint32_eq_of_lt hnlt]
    rfl
  · intro c hc
    have hcv := List.mem_of_mem_tail hc
    refine hother _ (hb c (by simp [hcv])) (hn c hcv) ?_
    intro d hd
    exact apart_head_tail hv hd hc

theorem splitBlock_next (h : Spells m (u ++ b :: v) hi)
    (hlt : size + headerSize < b.size) :
    (header (splitBlock m b.addr size) b.addr).next =
      (splitRest b size).addr := by
  have hb : header (splitBlock m b.addr size) b.addr = _ :=
    (splitBlock_spec h hlt).header_eq
  rw [hb, blkHeader, headAddr_cons]

/-- Splitting a hole writes only headers and bytes of the hole. -/
theorem splitBlock_writes (h : Spells m (u ++ b :: v) hi)
    (hhole : b.hole = true) (hlt : size + headerSize < b.size) :
    m.WritesOutside (payloads headerSize (u ++ b :: v))
      (splitBlock m b.addr size) := by
  have hb := h.headerOutside (b := b) (by simp)
  have hn : HeaderOutside (payloads headerSize (u ++ b :: v))
      (splitRest b size).addr := by
    refine h.tiled.disjoint_hole (b := b) (by simp) hhole ?_ ?_ <;>
      simp only [splitRest] <;> omega
  have hnew := hn.setPrev (v := b.addr) (hn.setNext (v := headAddr v 0)
    (hn.setSize (v := (splitRest b size).size) (hn.setIsHole (v := 1)
      (hn.setMagic (v := kheapMagic) (Memory.WritesOutside.refl _ m)))))
  rw [splitBlock_eq h hlt]
  refine hb.setSize (hb.setNext ?_)
  cases v with
  | nil => exact hnew
  | cons c v =>
      rw [if_pos (Spells.headAddr_ne_zero (u := u ++ [b]) (by simpa using h))]
      exact (h.headerOutside (b := c) (by simp)).setPrev hnew

end Splitting

/-! ## The `is_hole` flag -/

section Flag

variable {m : Memory} {hi : ℕ} {b : Blk} {u v : List Blk}

theorem setIsHole_spec (h : Spells m (u ++ b :: v) hi) (hole : Bool) :
    Spells (setIsHole m b.addr (if hole then 1 else 0))
      (u ++ { b with hole := hole } :: v) hi := by
  have hpair := apart_of_tiled h.tiled
  rw [List.pairwise_append, List.pairwise_cons] at hpair
  obtain ⟨-, ⟨hb, -⟩, hu⟩ := hpair
  refine ⟨?_, ?_, h.hi_lt⟩
  · refine h.linked.splice [b] [{ b with hole := hole }]
      ?_ rfl ⟨?_, trivial⟩ ?_ ?_
    · intro c hc
      exact header_setIsHole (hu c hc b (by simp)).symm
    · rw [header_setIsHole_self, h.header_eq]
      cases hole <;> rfl
    · intro c hc
      have hcv := List.mem_of_mem_head? hc
      rw [header_setIsHole (hb c hcv)]
      obtain ⟨v', rfl⟩ : ∃ v', v = c :: v' := by
        cases v <;> simp_all
      have hc := Spells.header_eq (u := u ++ [b]) (by simpa using h)
      rw [hc]
      simp [blkHeader, lastAddr]
    · intro c hc
      exact header_setIsHole (hb c (List.mem_of_mem_tail hc))
  · exact h.tiled.replace [b] [{ b with hole := hole }] fun a e he => he

end Flag

/-! ## Merging -/

section Merging

variable {m : Memory} {hi : ℕ} {b p : Blk} {u v : List Blk}

/-- The stores by which a block takes its successor: its new size, the link to
the block after it, and the link back from there. -/
def absorb (m : Memory) (p size next : ℕ) : Memory :=
  let m := setSize m p size
  let m := setNext m p next
  if next ≠ 0 then setPrev m next p else m

theorem absorb_spec (h : Spells m (u ++ p :: b :: v) hi) :
    Spells
      (absorb m p.addr (p.size + (b.size + headerSize)) (headAddr v 0))
      (u ++ { p with size := p.size + (b.size + headerSize) } :: v) hi := by
  have htiled : Tiled headerSize kheapStart
      (u ++ { p with size := p.size + (b.size + headerSize) } :: v) hi := by
    refine h.tiled.replace [p, b]
      [{ p with size := p.size + (b.size + headerSize) }] ?_
    rintro a e ⟨rfl, -, he⟩
    refine ⟨rfl, ?_⟩
    rw [tiled_nil] at he ⊢
    rw [← he]
    ring
  have hpair := apart_of_tiled h.tiled
  rw [List.pairwise_append, List.pairwise_cons, List.pairwise_cons] at hpair
  obtain ⟨-, ⟨hp, -, hv⟩, hu⟩ := hpair
  have hpv : ∀ c ∈ v, Apart p.addr c.addr := fun c hc => hp c (by simp [hc])
  have hend : p.addr + headerSize + (p.size + (b.size + headerSize)) < 2 ^ 32 := by
    have hmem := List.mem_append_right u (List.mem_cons_self
      (a := { p with size := p.size + (b.size + headerSize) }) (l := v))
    exact (htiled.bounds hmem).2.trans_lt h.hi_lt
  have hother : ∀ x, Apart p.addr x → (∀ c ∈ v.head?, Apart c.addr x) →
      header (absorb m p.addr (p.size + (b.size + headerSize)) (headAddr v 0))
        x = header m x := by
    intro x hpx hvx
    rw [absorb, header_setPrev_headAddr hvx, header_setNext hpx,
      header_setSize hpx]
  refine ⟨?_, htiled, h.hi_lt⟩
  refine h.linked.splice [p, b]
    [{ p with size := p.size + (b.size + headerSize) }]
    ?_ rfl ⟨?_, trivial⟩ ?_ ?_
  · intro c hc
    refine hother _ (hu c hc p (by simp)).symm ?_
    intro d hd
    exact (hu c hc d (by simp [List.mem_of_mem_head? hd])).symm
  · rw [absorb, header_setPrev_headAddr fun c hc =>
        (hpv c (List.mem_of_mem_head? hc)).symm,
      header_setNext_self, header_setSize_self, h.header_eq]
    have hnext := Spells.headAddr_lt (u := u ++ [p]) (b := b) (v := v)
      (by simpa using h)
    rw [uint32_eq_of_lt hnext, uint32_eq_of_lt (by omega)]
    rfl
  · intro c hc
    have hcv := List.mem_of_mem_head? hc
    rw [absorb, header_setPrev_headAddr_self hc (h.addr_pos (by simp [hcv])),
      header_setNext (hpv c hcv), header_setSize (hpv c hcv),
      uint32_eq_of_lt (by omega)]
    rfl
  · intro c hc
    exact hother _ (hpv c (List.mem_of_mem_tail hc))
      fun d hd => apart_head_tail hv hd hc

theorem absorb_writes {S : Set ℕ} {size : ℕ} (hp : HeaderOutside S p.addr)
    (hv : ∀ c ∈ v.head?, HeaderOutside S c.addr) :
    m.WritesOutside S (absorb m p.addr size (headAddr v 0)) := by
  have hfirst := hp.setNext (v := headAddr v 0)
    (hp.setSize (v := size) (Memory.WritesOutside.refl S m))
  cases v with
  | nil => exact hfirst
  | cons c v =>
      rw [absorb]
      split_ifs
      · exact (hv c rfl).setPrev hfirst
      · exact hfirst

theorem mergeNext_eq_absorb {c : Blk} (h : Spells m (u ++ b :: c :: v) hi)
    (hhole : c.hole = true) :
    mergeNext m b.addr =
      absorb m b.addr (b.size + (c.size + headerSize)) (headAddr v 0) := by
  have hc : header m c.addr = blkHeader c (headAddr v 0) b.addr := by
    have hc := Spells.header_eq (u := u ++ [b]) (by simpa using h)
    simpa [lastAddr] using hc
  have hbc : Apart b.addr c.addr := by
    have hpair := apart_of_tiled h.tiled
    rw [List.pairwise_append, List.pairwise_cons] at hpair
    exact hpair.2.1.1 c (by simp)
  have hpos : c.addr ≠ 0 := (h.addr_pos (b := c) (by simp)).ne'
  have hb' : header m b.addr = blkHeader b c.addr (lastAddr 0 u) :=
    h.header_eq
  have hcond : (header m b.addr).next ≠ 0 ∧
      (header m (header m b.addr).next).isHole ≠ 0 := by
    simp [hb', hc, hpos, blkHeader, hhole]
  have hsize : b.size + (c.size + headerSize) < 2 ^ 32 := by
    have hend := h.end_lt (b := c) (by simp)
    have hle := (List.pairwise_append.mp h.tiled.pairwise).2.1
    have hle := (List.pairwise_cons.mp hle).1 c (by simp)
    omega
  have hnext : headAddr v 0 < 2 ^ 32 :=
    Spells.headAddr_lt (u := u ++ [b]) (b := c) (by simpa using h)
  rw [mergeNext, if_pos hcond, absorb]
  simp only [header_setSize_self, header_setNext_self, hb', hc, blkHeader,
    header_setSize hbc, uint32_eq_of_lt hsize, uint32_eq_of_lt hnext]

theorem mergeNext_of_used {c : Blk} (h : Spells m (u ++ b :: c :: v) hi)
    (hused : ¬c.hole = true) : mergeNext m b.addr = m := by
  have hc : header m c.addr = blkHeader c (headAddr v 0) b.addr := by
    have hc := Spells.header_eq (u := u ++ [b]) (by simpa using h)
    simpa [lastAddr] using hc
  have hb : header m b.addr = blkHeader b c.addr (lastAddr 0 u) := h.header_eq
  rw [mergeNext, if_neg (by simp [hb, hc, blkHeader, hused])]

theorem mergeNext_last (h : Spells m (u ++ [b]) hi) :
    mergeNext m b.addr = m := by
  rw [mergeNext, if_neg (by simp [h.header_eq, blkHeader, headAddr])]

theorem mergeNext_spec (h : Spells m (u ++ b :: v) hi)
    (hb : b.hole = true) :
    Spells (mergeNext m b.addr) (u ++ mergeForward headerSize b v) hi ∧
      m.WritesOutside (payloads headerSize (u ++ b :: v))
        (mergeNext m b.addr) := by
  have hsame : { b with hole := true } = b := by rw [← hb]
  cases v with
  | nil =>
      rw [mergeNext_last h, mergeForward, hsame]
      exact ⟨h, Memory.WritesOutside.refl _ m⟩
  | cons c v =>
      by_cases hhole : c.hole = true
      · rw [mergeNext_eq_absorb h hhole, mergeForward, if_pos hhole]
        refine ⟨?_, ?_⟩
        · simpa only [hb] using absorb_spec h
        · refine absorb_writes (h.headerOutside (by simp)) ?_
          intro d hd
          exact h.headerOutside (by simp [List.mem_of_mem_head? hd])
      · rw [mergeNext_of_used h hhole, mergeForward, if_neg hhole, hsame]
        exact ⟨h, Memory.WritesOutside.refl _ m⟩

/-- A merge with a hole whose header precedes `b` according to the links of
`b`. -/
theorem mergePrev_of_hole {n n' p' : ℕ}
    (hb : header m b.addr = blkHeader b n p.addr)
    (hp : header m p.addr = blkHeader p n' p') (hpb : Apart p.addr b.addr)
    (hpos : p.addr ≠ 0) (hhole : p.hole = true) :
    mergePrev m b.addr =
      absorb m p.addr (uint32 (p.size + (b.size + headerSize))) n := by
  have hcond : (header m b.addr).prev ≠ 0 ∧
      (header m (header m b.addr).prev).isHole ≠ 0 := by
    simp [hb, hp, hpos, blkHeader, hhole]
  rw [mergePrev, if_pos hcond, absorb]
  simp only [header_setNext hpb, header_setSize hpb, hb, hp, blkHeader]

theorem mergePrev_eq_absorb (h : Spells m (u ++ p :: b :: v) hi)
    (hhole : p.hole = true) :
    mergePrev m b.addr =
      absorb m p.addr (p.size + (b.size + headerSize)) (headAddr v 0) := by
  have hb : header m b.addr = blkHeader b (headAddr v 0) p.addr := by
    have hb := Spells.header_eq (u := u ++ [p]) (by simpa using h)
    simpa [lastAddr] using hb
  have hpb : Apart p.addr b.addr := by
    have hpair := apart_of_tiled h.tiled
    rw [List.pairwise_append] at hpair
    exact (List.pairwise_cons.mp hpair.2.1).1 b (by simp)
  have hpos : p.addr ≠ 0 := (h.addr_pos (b := p) (by simp)).ne'
  have hsize : p.size + (b.size + headerSize) < 2 ^ 32 := by
    have hend := h.end_lt (b := b) (by simp)
    have hle := (List.pairwise_append.mp h.tiled.pairwise).2.1
    have hle := (List.pairwise_cons.mp hle).1 b (by simp)
    omega
  rw [mergePrev_of_hole hb h.header_eq hpb hpos hhole, uint32_eq_of_lt hsize]

theorem mergePrev_of_used (h : Spells m (u ++ p :: b :: v) hi)
    (hused : ¬p.hole = true) : mergePrev m b.addr = m := by
  have hb : header m b.addr = blkHeader b (headAddr v 0) p.addr := by
    have hb := Spells.header_eq (u := u ++ [p]) (by simpa using h)
    simpa [lastAddr] using hb
  have hp : header m p.addr = blkHeader p b.addr (lastAddr 0 u) :=
    Spells.header_eq h
  rw [mergePrev, if_neg (by simp [hb, hp, blkHeader, hused])]

theorem mergePrev_first (h : Spells m (b :: v) hi) :
    mergePrev m b.addr = m := by
  have hb : header m b.addr = blkHeader b (headAddr v 0) 0 :=
    Spells.header_eq (u := []) h
  rw [mergePrev, if_neg (by simp [hb, blkHeader])]

theorem mergePrev_spec {q : Option Blk}
    (h : Spells m (u ++ (q.toList ++ b :: v)) hi) (hq : q = none → u = []) :
    Spells (mergePrev m b.addr) (u ++ mergeBackward headerSize q (b :: v)) hi ∧
      m.WritesOutside (payloads headerSize (u ++ (q.toList ++ b :: v)))
        (mergePrev m b.addr) := by
  cases q with
  | none =>
      obtain rfl := hq rfl
      rw [mergePrev_first h]
      exact ⟨h, Memory.WritesOutside.refl _ m⟩
  | some p =>
      by_cases hhole : p.hole = true
      · rw [mergePrev_eq_absorb h hhole, mergeBackward, if_pos hhole]
        refine ⟨absorb_spec h, absorb_writes (h.headerOutside (by simp)) ?_⟩
        intro d hd
        exact h.headerOutside (by simp [List.mem_of_mem_head? hd])
      · rw [mergePrev_of_used h hhole, mergeBackward, if_neg hhole]
        exact ⟨h, Memory.WritesOutside.refl _ m⟩

end Merging

/-! ## Growing -/

section Growing

variable {m : Memory} {hi n : ℕ} {b : Blk} {u : List Blk}

theorem growLast_of_hole (h : Spells m (u ++ [b]) hi) (hhole : b.hole = true)
    (hlt : hi + n < 2 ^ 32) :
    growLast m b.addr hi n = setSize m b.addr (b.size + n) := by
  have hend := (h.tiled.bounds (b := b) (by simp)).2
  have hb := h.header_eq
  rw [growLast, if_pos (by simp [hb, blkHeader, hhole]), hb]
  simp only [blkHeader]
  rw [uint32_eq_of_lt (by omega)]

theorem growLast_of_used (h : Spells m (u ++ [b]) hi)
    (hhole : b.hole = false) (hn : headerSize ≤ n) (hlt : n < 2 ^ 32) :
    growLast m b.addr hi n =
      let m := setMagic m hi kheapMagic
      let m := setIsHole m hi 1
      let m := setSize m hi (n - headerSize)
      let m := setPrev m hi b.addr
      let m := setNext m hi 0
      setNext m b.addr hi := by
  rw [growLast, if_neg (by simp [h.header_eq, blkHeader, hhole]),
    sub32_eq_of_le hlt hn]

theorem growLast_spec (h : Spells m (u ++ [b]) hi) (hn : headerSize ≤ n)
    (hlt : hi + n < 2 ^ 32) :
    Spells (growLast m b.addr hi n) (u ++ grow headerSize hi n b)
      (hi + n) := by
  have htiled := Tiled.grow h.tiled hn
  refine ⟨?_, htiled, hlt⟩
  have hpair := apart_of_tiled htiled
  rw [List.pairwise_append] at hpair
  obtain ⟨-, hmid, hu⟩ := hpair
  have hbend := (h.tiled.bounds (b := b) (by simp)).2
  by_cases hhole : b.hole = true
  · have hgrow : grow headerSize hi n b = [{ b with size := b.size + n }] := by
      simp [grow, hhole]
    rw [hgrow] at hu ⊢
    rw [growLast_of_hole h hhole hlt]
    refine Linked.splice (v := []) [b] [{ b with size := b.size + n }]
      (by simpa using h.linked) ?_ rfl ⟨?_, trivial⟩ (by simp) (by simp)
    · intro c hc
      have hcb := hu c hc { b with size := b.size + n } (by simp)
      exact header_setSize hcb.symm
    · rw [header_setSize_self, h.header_eq, uint32_eq_of_lt (by omega)]
      rfl
  · have hgrow : grow headerSize hi n b = [b, ⟨hi, n - headerSize, true⟩] := by
      simp [grow, hhole]
    rw [hgrow] at hu hmid ⊢
    rw [growLast_of_used h (by simpa using hhole) hn (by omega)]
    have hbhi : Apart b.addr hi :=
      (List.pairwise_cons.mp hmid).1 ⟨hi, n - headerSize, true⟩ (by simp)
    refine Linked.splice (v := []) [b] [b, ⟨hi, n - headerSize, true⟩]
      (by simpa using h.linked) ?_ rfl ⟨?_, ?_, trivial⟩ (by simp) (by simp)
    · intro c hc
      have hcb : Apart b.addr c.addr := (hu c hc b (by simp)).symm
      have hchi : Apart hi c.addr :=
        (hu c hc ⟨hi, n - headerSize, true⟩ (by simp)).symm
      simp only [header_setNext hcb, header_setNext hchi,
        header_setPrev hchi, header_setSize hchi, header_setIsHole hchi,
        header_setMagic hchi]
    · simp only [header_setNext_self, header_setNext hbhi.symm,
        header_setPrev hbhi.symm, header_setSize hbhi.symm,
        header_setIsHole hbhi.symm, header_setMagic hbhi.symm, h.header_eq,
        uint32_eq_of_lt h.hi_lt]
      rfl
    · have hzero : uint32 0 = 0 := uint32_eq_of_lt (Nat.two_pow_pos 32)
      have hsize : n - headerSize < 2 ^ 32 := by omega
      have hbaddr : b.addr < 2 ^ 32 := by omega
      simp [header_setNext hbhi, kheapMagic_eq, blkHeader,
        uint32_eq_of_lt hsize, uint32_eq_of_lt hbaddr, hzero]

theorem growLast_writes {S : Set ℕ} {b : ℕ} (hhi : HeaderOutside S hi)
    (hb : HeaderOutside S b) : m.WritesOutside S (growLast m b hi n) := by
  have hrefl := Memory.WritesOutside.refl S m
  rw [growLast]
  split_ifs
  · exact hb.setSize hrefl
  · exact hb.setNext (hhi.setNext (hhi.setPrev (hhi.setSize (hhi.setIsHole
      (hhi.setMagic hrefl)))))

end Growing

end BabOs.Kheap
