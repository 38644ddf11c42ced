import BabOs.Kheap.Requests
import BabOs.Kheap.Undo

/-!
# What `kfree` turns away

A pointer outside the heap, one behind no magic number and one to a hole of the
chain change no block.  What is read on the way is listed here.
-/

namespace BabOs.Kheap

open BabOs.Blocks BabOs.Chain

/-! ## The loads of `kfree` -/

/-- The loads of the forward merge, as addresses with their lengths. -/
def mergeNextLoads (m : Memory) (b : ℕ) : List (ℕ × ℕ) :=
  let h := header m b
  (b + 12, 4) ::
    if h.next = 0 then []
    else (h.next + 4, 1) ::
      if (header m h.next).isHole = 0 then []
      else
        let m := setSize m b
          (uint32 (h.size + ((header m h.next).size + headerSize)))
        [(b + 8, 4), (h.next + 8, 4), ((header m b).next + 12, 4), (b + 12, 4)]

def mergePrevLoads (m : Memory) (b : ℕ) : List (ℕ × ℕ) :=
  let h := header m b
  (b + 16, 4) ::
    if h.prev = 0 then []
    else (h.prev + 4, 1) ::
      if (header m h.prev).isHole = 0 then []
      else [(h.prev + 8, 4), (b + 8, 4), (b + 12, 4), (b + 16, 4)]

def kfreeLoads {σ : Type*} (ptr : ℕ) (s : State σ) : List (ℕ × ℕ) :=
  if ptr = 0 ∨ ptr < kheapStart ∨ s.heapEnd ≤ ptr then []
  else
    let b := ptr - headerSize
    (b, 4) ::
      if (header s.mem b).magic ≠ kheapMagic then []
      else
        let m := setIsHole s.mem b 1
        mergeNextLoads m b ++ mergePrevLoads (mergeNext m b) b

def LoadsWithin (lo hi : ℕ) (loads : List (ℕ × ℕ)) : Prop :=
  ∀ a n, (a, n) ∈ loads → lo ≤ a ∧ a + n ≤ hi

/-! ## Holes of the chain -/

section Holes

variable {m : Memory} {b : Blk} {u v : List Blk} {hi : ℕ}

theorem Spells.mergeNextLoads_within (h : Spells m (u ++ b :: v) hi)
    (hv : ∀ c ∈ v.head?, c.hole = false) :
    LoadsWithin kheapStart hi (mergeNextLoads m b.addr) := by
  have hb := h.tiled.bounds (b := b) (by simp)
  rw [headerSize] at hb
  intro a n ha
  rw [mergeNextLoads, h.header_eq] at ha
  cases v with
  | nil =>
      simp only [blkHeader, headAddr_nil, if_true, List.mem_singleton,
        Prod.mk.injEq] at ha
      omega
  | cons c v =>
      have hc := h.tiled.bounds (b := c) (by simp)
      have hpos := h.addr_pos (b := c) (by simp)
      have hheader : header m c.addr = blkHeader c (headAddr v 0) b.addr := by
        simpa [lastAddr] using
          Spells.header_eq (u := u ++ [b]) (by simpa using h)
      rw [headerSize] at hc
      simp only [blkHeader, headAddr_cons, hpos.ne', hheader, hv c rfl,
        if_false, if_true, Bool.false_eq_true, List.mem_cons, List.not_mem_nil,
        or_false, Prod.mk.injEq] at ha
      omega

theorem Spells.mergePrevLoads_within {q : Option Blk}
    (h : Spells m (u ++ (q.toList ++ b :: v)) hi) (hq : q = none → u = [])
    (hused : ∀ p ∈ q, p.hole = false) :
    LoadsWithin kheapStart hi (mergePrevLoads m b.addr) := by
  have hb := h.tiled.bounds (b := b) (by simp)
  rw [headerSize] at hb
  intro a n ha
  cases q with
  | none =>
      obtain rfl := hq rfl
      have hheader : header m b.addr = blkHeader b (headAddr v 0) 0 :=
        Spells.header_eq (u := []) h
      rw [mergePrevLoads, hheader] at ha
      simp only [blkHeader, if_true, List.mem_singleton, Prod.mk.injEq] at ha
      omega
  | some p =>
      have hp := h.tiled.bounds (b := p) (by simp)
      have hpos := h.addr_pos (b := p) (by simp)
      have hheader : header m b.addr = blkHeader b (headAddr v 0) p.addr := by
        simpa [lastAddr] using
          Spells.header_eq (u := u ++ [p]) (by simpa using h)
      have hheader' : header m p.addr = blkHeader p b.addr (lastAddr 0 u) :=
        Spells.header_eq h
      rw [headerSize] at hp
      rw [mergePrevLoads, hheader] at ha
      simp only [blkHeader, hpos.ne', hheader', hused p rfl, if_false, if_true,
        Bool.false_eq_true, List.mem_cons, List.not_mem_nil,
        or_false, Prod.mk.injEq] at ha
      omega

end Holes

/-! ## Rejected pointers -/

/-- `kfree` turns the pointer away: it is null or outside the heap, or the words
in front of it lie in the heap and hold no magic number, or are the header of a
hole. -/
def Rejectable {σ : Type*} (s : State σ) (bs : List Blk) (ptr : ℕ) : Prop :=
  ptr = 0 ∨ ptr < kheapStart ∨ s.heapEnd ≤ ptr ∨
    (kheapStart + headerSize ≤ ptr ∧
      ((header s.mem (ptr - headerSize)).magic ≠ kheapMagic ∨
        ∃ b ∈ bs, b.hole = true ∧ ptr = b.addr + headerSize))

/-- `kfree` reads only the heap, and the blocks stay. -/
structure Rejects {σ : Type*} (s : State σ) (bs : List Blk) (ptr : ℕ) : Prop where
  loads : LoadsWithin kheapStart s.heapEnd (kfreeLoads ptr s)
  ok : HeapOk (kfree ptr s) bs
  headers : ∀ b ∈ bs, header (kfree ptr s).mem b.addr = header s.mem b.addr
  heapEnd_eq : (kfree ptr s).heapEnd = s.heapEnd

section Rejected

variable {σ : Type*} {s : State σ} {b : Blk} {bs u v : List Blk} {ptr : ℕ}

/-- The header of a hole is no allocated header: the flag is set once more,
and no neighbour is merged. -/
theorem HeapOk.kfree_hole (h : HeapOk s (u ++ b :: v)) (hhole : b.hole = true)
    (hlt : b.addr + headerSize < s.heapEnd) :
    Rejects s (u ++ b :: v) (b.addr + headerSize) := by
  obtain ⟨w, q, rfl, hq⟩ := exists_eq_append_toList u
  obtain ⟨hfront, hbehind⟩ := h.noHoles.neighbours hhole
  have hsame : { b with hole := true } = b := by rw [← hhole]
  have hflag : Spells (setIsHole s.mem b.addr 1) (w ++ q.toList ++ b :: v)
      s.heapEnd := by
    have hflag := setIsHole_spec h.spells true
    rwa [hsame] at hflag
  have hnext := (mergeNext_spec hflag hhole).1
  rw [mergeForward_of_used hhole hbehind] at hnext
  have hloads := hflag.mergeNextLoads_within hbehind
  rw [List.append_assoc] at hnext
  have hloads' := hnext.mergePrevLoads_within hq hfront
  have hprev := (mergePrev_spec hnext hq).1
  rw [mergeBackward_of_used hfront, ← List.append_assoc] at hprev
  have hok : HeapOk (kfree (b.addr + headerSize) s)
      (w ++ q.toList ++ b :: v) := by
    rw [kfree_eq h.spells hlt]
    exact ⟨h.start, hprev, h.nonempty, h.aligned, h.noHoles⟩
  refine ⟨?_, hok, h.spells.linked.header_eq_header hok.spells.linked, ?_⟩
  · have hb := h.spells.tiled.bounds (b := b) (by simp)
    rw [headerSize] at hb
    intro a n ha
    rw [kfreeLoads, if_neg (h.spells.inRange hlt), Nat.add_sub_cancel] at ha
    dsimp only at ha
    rw [if_neg h.spells.magic_eq, List.mem_cons, List.mem_append] at ha
    rcases ha with ha | ha | ha
    · rw [Prod.mk.injEq] at ha
      omega
    · exact hloads a n ha
    · exact hloads' a n ha
  · rw [kfree_eq h.spells hlt]

theorem HeapOk.kfree_outside (h : HeapOk s bs)
    (hout : ptr = 0 ∨ ptr < kheapStart ∨ s.heapEnd ≤ ptr) :
    Rejects s bs ptr := by
  have hkfree : kfree ptr s = s := if_pos hout
  refine ⟨?_, by rwa [hkfree], fun _ _ => by rw [hkfree], by rw [hkfree]⟩
  intro a n ha
  rw [kfreeLoads, if_pos hout] at ha
  cases ha

theorem HeapOk.kfree_noMagic (h : HeapOk s bs)
    (hin : ¬(ptr = 0 ∨ ptr < kheapStart ∨ s.heapEnd ≤ ptr))
    (hptr : kheapStart + headerSize ≤ ptr)
    (hmagic : (header s.mem (ptr - headerSize)).magic ≠ kheapMagic) :
    Rejects s bs ptr := by
  have hkfree : kfree ptr s =
      { s with console := s.console ++ ["kfree: INVALID MAGIC!\n"] } := by
    rw [kfree, if_neg hin, if_pos hmagic]
  refine ⟨?_, ?_, fun _ _ => by rw [hkfree], by rw [hkfree]⟩
  · intro a n ha
    rw [kfreeLoads, if_neg hin] at ha
    dsimp only at ha
    rw [if_pos hmagic, List.mem_singleton, Prod.mk.injEq] at ha
    rw [headerSize] at hptr ha
    omega
  · rw [hkfree]
    exact ⟨h.start, h.spells, h.nonempty, h.aligned, h.noHoles⟩

theorem HeapOk.rejects (h : HeapOk s bs) (hreject : Rejectable s bs ptr) :
    Rejects s bs ptr := by
  by_cases hout : ptr = 0 ∨ ptr < kheapStart ∨ s.heapEnd ≤ ptr
  · exact h.kfree_outside hout
  · rcases hreject with hnull | hbelow | habove | ⟨hptr, hmagic | hblock⟩
    · exact absurd (Or.inl hnull) hout
    · exact absurd (Or.inr (Or.inl hbelow)) hout
    · exact absurd (Or.inr (Or.inr habove)) hout
    · exact h.kfree_noMagic hout hptr hmagic
    · obtain ⟨b, hb, hhole, rfl⟩ := hblock
      obtain ⟨u, v, rfl⟩ := List.append_of_mem hb
      exact h.kfree_hole hhole (by omega)

end Rejected

/-! ## Freeing twice -/

section Twice

variable {σ : Type*} {s : State σ} {b c p : Blk} {v w z : List Blk}
variable {q : Option Blk} {m : Memory} {hi : ℕ}

/-- The header of a block that the one in front of it has taken in stays in
memory, with its links. -/
theorem mergePrev_stale (h : Spells m (w ++ p :: c :: z) hi)
    (hhole : p.hole = true) :
    header (mergePrev m c.addr) c.addr =
      blkHeader c (headAddr z 0) p.addr := by
  have hpair := apart_of_tiled h.tiled
  rw [List.pairwise_append, List.pairwise_cons, List.pairwise_cons] at hpair
  obtain ⟨-, ⟨hp, hc, -⟩, -⟩ := hpair
  have hpc := hp c List.mem_cons_self
  have hheader : header m c.addr = blkHeader c (headAddr z 0) p.addr := by
    simpa [lastAddr] using
      Spells.header_eq (u := w ++ [p]) (by simpa using h)
  rw [mergePrev_eq_absorb h hhole, absorb,
    header_setPrev_headAddr fun d hd => (hc d (List.mem_of_mem_head? hd)).symm,
    header_setNext hpc, header_setSize hpc, hheader]

/-- A call of `kfree` on such a header makes the block in front of it larger
once more. -/
theorem kfree_stale (h : HeapOk s (w ++ p :: z)) (hp : p.hole = true)
    (hc : c.hole = true) (hin : kheapStart ≤ c.addr)
    (hlt : c.addr + headerSize < s.heapEnd) (hpc : Apart p.addr c.addr)
    (hz : ∀ d ∈ z.head?, Apart c.addr d.addr)
    (hstale : header s.mem c.addr = blkHeader c (headAddr z 0) p.addr) :
    (header (kfree (c.addr + headerSize) s).mem p.addr).size =
      uint32 (p.size + (c.size + headerSize)) := by
  have hpos : p.addr ≠ 0 := (h.spells.addr_pos (b := p) (by simp)).ne'
  have hmiss : ¬(c.addr + headerSize = 0 ∨ c.addr + headerSize < kheapStart ∨
      s.heapEnd ≤ c.addr + headerSize) := by
    rw [headerSize] at hlt ⊢
    omega
  have hmagic : ¬(header s.mem c.addr).magic ≠ kheapMagic := by
    simp [hstale, blkHeader]
  have hc₁ : header (setIsHole s.mem c.addr 1) c.addr =
      blkHeader c (headAddr z 0) p.addr := by
    rw [header_setIsHole_self, hstale]
    simp [blkHeader, hc]
  have hp₁ : header (setIsHole s.mem c.addr 1) p.addr =
      blkHeader p (headAddr z 0) (lastAddr 0 w) := by
    rw [header_setIsHole hpc.symm, h.spells.header_eq]
  have hnext : mergeNext (setIsHole s.mem c.addr 1) c.addr =
      setIsHole s.mem c.addr 1 := by
    refine if_neg ?_
    rw [hc₁]
    rintro ⟨hne, hflag⟩
    cases z with
    | nil => exact hne rfl
    | cons d z =>
        have hused : d.hole = false :=
          (NoAdjacentHoles.neighbours (u := w) (q := none)
            (by simpa using h.noHoles) hp).2 d rfl
        have hd : header s.mem d.addr = blkHeader d (headAddr z 0) p.addr := by
          simpa [lastAddr] using
            Spells.header_eq (u := w ++ [p]) (by simpa using h.spells)
        have hd₁ : (header (setIsHole s.mem c.addr 1) d.addr).isHole = 0 := by
          rw [header_setIsHole (hz d rfl), hd]
          simp [blkHeader, hused]
        exact hflag hd₁
  have hz' : ∀ d ∈ z.head?, Apart d.addr p.addr := by
    have hpair := apart_of_tiled h.spells.tiled
    rw [List.pairwise_append, List.pairwise_cons] at hpair
    exact fun d hd => (hpair.2.1.1 d (List.mem_of_mem_head? hd)).symm
  rw [kfree, if_neg hmiss, Nat.add_sub_cancel, if_neg hmagic]
  dsimp only
  rw [hnext, mergePrev_of_hole hc₁ hp₁ hpc hpos hp, absorb,
    header_setPrev_headAddr hz', header_setNext_self, header_setSize_self]
  exact uint32_uint32 _

/-- Freeing a block a second time changes nothing exactly when the block in
front of it was not a hole. -/
theorem HeapOk.rejects_freed_iff (h : HeapOk s (w ++ q.toList ++ b :: v))
    (hq : q = none → w = []) (hused : b.hole = false)
    (hlt : b.addr + headerSize < s.heapEnd) :
    Rejects (kfree (b.addr + headerSize) s)
        (w ++ mergeBackward headerSize q (mergeForward headerSize b v))
        (b.addr + headerSize) ↔
      ∀ p ∈ q, p.hole = false := by
  have hreleases := kfree_spec h hq hused hlt
  obtain ⟨c, z, hforward, hcb⟩ := mergeForward_eq_cons headerSize
    (b := b) (v := v)
  have hc := head?_mergeForward headerSize (b := b) (v := v)
  rw [hforward] at hreleases hc ⊢
  have hc := hc c rfl
  have hok := hreleases.ok
  have hltc : c.addr + headerSize < (kfree (b.addr + headerSize) s).heapEnd := by
    rw [hcb, hreleases.end_eq]
    exact hlt
  rw [← hcb] at hok hltc ⊢
  constructor
  · intro hrejects p hpq
    by_contra hused
    have hp : p.hole = true := by simpa using hused
    obtain rfl := hpq
    rw [mergeBackward, if_pos hp] at hok hrejects
    have hnext : Spells (mergeNext (setIsHole s.mem c.addr 1) c.addr)
        (w ++ p :: c :: z) s.heapEnd := by
      have hnext := (mergeNext_spec (setIsHole_spec h.spells true) rfl).1
      rw [mergeForward_hole, hforward, List.append_assoc] at hnext
      rw [hcb]
      exact hnext
    have hstale : header (kfree (c.addr + headerSize) s).mem c.addr =
        blkHeader c (headAddr z 0) p.addr := by
      rw [hcb, kfree_eq h.spells hlt, ← hcb]
      exact mergePrev_stale hnext hp
    have hpair := apart_of_tiled hnext.tiled
    rw [List.pairwise_append, List.pairwise_cons, List.pairwise_cons] at hpair
    obtain ⟨-, ⟨hpc, hcz, -⟩, -⟩ := hpair
    have hbounds := hnext.tiled.bounds (b := c) (by simp)
    have hgrown := kfree_stale hok hp hc hbounds.1 hltc
      (hpc c List.mem_cons_self) (fun d hd => hcz d (List.mem_of_mem_head? hd))
      hstale
    have hkept := hrejects.headers _
      (List.mem_append_right w List.mem_cons_self)
    rw [hok.spells.header_eq] at hkept
    rw [hkept] at hgrown
    have hend := hok.spells.end_lt
      (List.mem_append_right w List.mem_cons_self)
    dsimp only [blkHeader] at hgrown
    rw [uint32, headerSize] at hgrown
    rw [headerSize] at hend
    dsimp only at hend
    omega
  · intro hfront
    rw [mergeBackward_of_used hfront, ← List.append_assoc] at hok ⊢
    exact hok.kfree_hole hc hltc

end Twice

end BabOs.Kheap
