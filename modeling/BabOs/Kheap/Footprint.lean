import BabOs.Kheap.Undo
import BabOs.Library.Logs

/-!
# What the heap leaves alone

The operations of the heap store to headers and nowhere else: the bytes of the
blocks that are handed out stay as they are, and so do those below the heap.
-/

namespace BabOs.Kheap

open BabOs.Blocks BabOs.Chain Memory

def below : Set ℕ := Set.Iio kheapStart

/-! ## Below the heap -/

section Below

variable {m m' : Memory} {hi size n a : ℕ} {b p : Blk} {bs u v : List Blk}

theorem headerOutside_below (ha : kheapStart ≤ a) : HeaderOutside below a :=
  Set.disjoint_left.mpr fun _ hx hlow => absurd (ha.trans hx.1) (not_le.mpr hlow)

theorem Spells.below (h : Spells m bs hi) (hb : b ∈ bs) :
    HeaderOutside below b.addr :=
  headerOutside_below (h.tiled.bounds hb).1

theorem splitBlock_below (h : Spells m (u ++ b :: v) hi)
    (hsize : size + headerSize < 2 ^ 32) :
    m.WritesOutside below (splitBlock m b.addr size) := by
  have hb := h.below (b := b) (by simp)
  rcases Nat.lt_or_ge (size + headerSize) b.size with hlt | hge
  · have hn : HeaderOutside Kheap.below (splitRest b size).addr := by
      have hle := (h.tiled.bounds (b := b) (by simp)).1
      refine headerOutside_below (hle.trans ?_)
      rw [splitRest, Nat.add_assoc]
      exact Nat.le_add_right _ _
    have hnew := hn.setPrev (v := b.addr) (hn.setNext (v := headAddr v 0)
      (hn.setSize (v := (splitRest b size).size) (hn.setIsHole (v := 1)
        (hn.setMagic (v := kheapMagic) (WritesOutside.refl _ m)))))
    rw [splitBlock_eq h hlt]
    refine hb.setSize (hb.setNext ?_)
    cases v with
    | nil => exact hnew
    | cons c v =>
        rw [if_pos (Spells.headAddr_ne_zero (u := u ++ [b]) (by simpa using h))]
        exact (h.below (b := c) (by simp)).setPrev hnew
  · rw [splitBlock_of_le h hge hsize]
    exact WritesOutside.refl _ m

theorem takeBlock_below (h : Spells m (u ++ b :: v) hi)
    (hsize : size ≤ b.size) :
    m.WritesOutside below (setIsHole (splitBlock m b.addr size) b.addr 0) := by
  have hend := h.end_lt (b := b) (by simp)
  exact (h.below (b := b) (by simp)).setIsHole (splitBlock_below h (by omega))

theorem mergeNext_below (h : Spells m (u ++ b :: v) hi) :
    m.WritesOutside below (mergeNext m b.addr) := by
  cases v with
  | nil =>
      rw [mergeNext_last h]
      exact WritesOutside.refl _ m
  | cons c v =>
      by_cases hhole : c.hole = true
      · rw [mergeNext_eq_absorb h hhole]
        refine absorb_writes (h.below (by simp)) fun d hd => h.below ?_
        simp [List.mem_of_mem_head? hd]
      · rw [mergeNext_of_used h hhole]
        exact WritesOutside.refl _ m

theorem mergePrev_below (h : Spells m (u ++ b :: v) hi) :
    m.WritesOutside below (mergePrev m b.addr) := by
  rcases u.eq_nil_or_concat' with rfl | ⟨w, p, rfl⟩
  · rw [mergePrev_first h]
    exact WritesOutside.refl _ m
  · rw [List.append_assoc, List.singleton_append] at h
    by_cases hhole : p.hole = true
    · rw [mergePrev_eq_absorb h hhole]
      refine absorb_writes (h.below (by simp)) fun d hd => h.below ?_
      simp [List.mem_of_mem_head? hd]
    · rw [mergePrev_of_used h hhole]
      exact WritesOutside.refl _ m

end Below

section Calls

variable {σ : Type*} {mapPage : σ → ℕ → σ} {s s' : State σ} {b : Blk}
variable {bs u v : List Blk} {size fuel curr ptr n : ℕ} {align : Bool}

/-- A round hands out a block without a store below the heap. -/
theorem tryBlock_below (h : HeapOk s (u ++ b :: v)) (hpos : 0 < size)
    (hfits : Fits size align b)
    (htry : tryBlock size align b.addr s = (some ptr, s')) :
    s.mem.WritesOutside below s'.mem := by
  obtain ⟨hhole, hsize, hsplittable⟩ := hfits
  have hend := h.spells.end_lt (b := b) (by simp)
  rw [tryBlock_hole h.spells.header_eq hhole (by omega),
    if_neg (not_lt.mpr hsize)] at htry
  generalize padding align b.addr = padding at hsize hsplittable htry
  split_ifs at htry with hfront hzero
  · have hsplit : padding - headerSize + headerSize < b.size := by omega
    have hrest := splitBlock_spec h.spells hsplit
    rw [← List.singleton_append, ← List.append_assoc] at hrest
    dsimp only at htry
    rw [splitBlock_next h.spells hsplit, takeBlock] at htry
    obtain ⟨-, rfl⟩ := Prod.mk.inj htry
    refine (splitBlock_below h.spells (by omega)).trans
      (takeBlock_below hrest ?_)
    simp only [splitRest]
    omega
  · cases htry
  · rw [takeBlock] at htry
    obtain ⟨-, rfl⟩ := Prod.mk.inj htry
    exact takeBlock_below h.spells (by omega)

theorem expandBy_below (h : HeapOk s bs)
    (hcall : expandBy mapPage fuel n s = some s') :
    s.mem.WritesOutside below s'.mem := by
  simp only [expandBy] at hcall
  split at hcall
  · cases hcall
  next last hlast =>
    obtain ⟨u, b, rfl, rfl⟩ := h.lastFrom_eq hlast
    cases hcall
    exact growLast_writes (headerOutside_below h.nonempty.le)
      (h.spells.below (by simp))

theorem expandHeap_below (h : HeapOk s bs)
    (hcall : expandHeap mapPage fuel n s = some s') :
    s.mem.WritesOutside below s'.mem := by
  simp only [expandHeap] at hcall
  split_ifs at hcall
  · have hbelow := expandBy_below h.noteSum hcall
    exact hbelow
  · exact expandBy_below h hcall

theorem Returns.outside_below (hreturns : Returns mapPage size align n curr s ptr s')
    (hn : n = 0) (h : HeapOk s bs) (hcurr : OnList curr bs) (hpos : 0 < size)
    (hsums : ∀ b ∈ bs, b.hole = true → padding align b.addr + size < 2 ^ 32) :
    s.mem.WritesOutside Kheap.below s'.mem := by
  induction hreturns with
  | take hcurr' htry =>
      obtain ⟨b, hb, rfl⟩ := hcurr.resolve_left hcurr'
      obtain ⟨u, v, rfl⟩ := List.append_of_mem hb
      exact tryBlock_below h hpos (h.fits_of_tryBlock (hsums b hb) htry) htry
  | next hcurr' htry _ ih =>
      obtain ⟨b, hb, rfl⟩ := hcurr.resolve_left hcurr'
      obtain ⟨u, v, rfl⟩ := List.append_of_mem hb
      obtain ⟨h₁, hmem, -⟩ := tryBlock_none h htry
      refine hmem ▸ ih hn h₁ ?_
      rw [h₁.spells.header_eq]
      have hnext := onList_headAddr (u := u ++ [b]) (v := v)
      rwa [List.append_assoc] at hnext
  | expand _ _ => exact absurd hn (Nat.succ_ne_zero _)

theorem kfree_below (h : HeapOk s (u ++ b :: v))
    (hlt : b.addr + headerSize < s.heapEnd) :
    s.mem.WritesOutside below (kfree (b.addr + headerSize) s).mem := by
  rw [kfree_eq h.spells hlt]
  have hhole : Spells (setIsHole s.mem b.addr 1)
      (u ++ { b with hole := true } :: v) s.heapEnd :=
    setIsHole_spec h.spells true
  have hflag := (h.spells.below (b := b) (by simp)).setIsHole (v := 1)
    (WritesOutside.refl _ s.mem)
  dsimp only
  generalize setIsHole s.mem b.addr 1 = m₁ at hhole hflag ⊢
  obtain ⟨hnext, -⟩ := mergeNext_spec hhole rfl
  have hnextWrites := mergeNext_below hhole
  dsimp only at hnext hnextWrites
  generalize mergeNext m₁ b.addr = m₂ at hnext hnextWrites ⊢
  obtain ⟨c, z, hforward, hc⟩ :=
    mergeForward_eq_cons headerSize (b := { b with hole := true }) (v := v)
  rw [hforward] at hnext
  have hprevWrites := mergePrev_below hnext
  rw [hc] at hprevWrites
  exact hflag.trans (hnextWrites.trans hprevWrites)

end Calls

/-! ## Bytes -/

section Logs

variable {σ : Type*} {mapPage : σ → ℕ → σ} {s s' : State σ} {m m' : Memory}
variable {size fuel curr ptr n b v : ℕ} {align : Bool}

theorem logs_splitBlock : m.Logs (splitBlock m b size) := by
  simp only [splitBlock]
  split_ifs
  · exact Logs.refl m
  · exact (Logs.refl m).store32.store8.store32.store32.store32.store32.store32
      |>.store32
  · exact (Logs.refl m).store32.store8.store32.store32.store32.store32.store32

theorem logs_growLast : m.Logs (growLast m b v n) := by
  simp only [growLast]
  split_ifs
  · exact (Logs.refl m).store32
  · exact (Logs.refl m).store32.store8.store32.store32.store32.store32

theorem logs_mergeNext : m.Logs (mergeNext m b) := by
  simp only [mergeNext]
  split_ifs
  · exact (Logs.refl m).store32.store32.store32
  · exact (Logs.refl m).store32.store32
  · exact Logs.refl m

theorem logs_mergePrev : m.Logs (mergePrev m b) := by
  simp only [mergePrev]
  split_ifs
  · exact (Logs.refl m).store32.store32.store32
  · exact (Logs.refl m).store32.store32
  · exact Logs.refl m

theorem logs_tryBlock : s.mem.Logs (tryBlock size align curr s).2.mem := by
  simp only [tryBlock]
  split_ifs
  · exact Logs.refl _
  · exact Logs.refl _
  · exact logs_splitBlock.trans logs_splitBlock.store8
  · exact Logs.refl _
  · exact logs_splitBlock.store8

theorem logs_expandBy (hcall : expandBy mapPage fuel n s = some s') :
    s.mem.Logs s'.mem := by
  simp only [expandBy] at hcall
  split at hcall
  · cases hcall
  · cases hcall
    exact logs_growLast

theorem logs_expandHeap (hcall : expandHeap mapPage fuel n s = some s') :
    s.mem.Logs s'.mem := by
  simp only [expandHeap] at hcall
  split_ifs at hcall
  · have hlogs := logs_expandBy hcall
    exact hlogs
  · exact logs_expandBy hcall

theorem Returns.logs (hreturns : Returns mapPage size align n curr s ptr s') :
    s.mem.Logs s'.mem := by
  induction hreturns with
  | @take curr _ s _ _ htry =>
      have hlogs : s.mem.Logs (tryBlock size align curr s).2.mem := logs_tryBlock
      rwa [htry] at hlogs
  | @next _ curr _ s _ _ _ htry _ ih =>
      have hlogs : s.mem.Logs (tryBlock size align curr s).2.mem := logs_tryBlock
      rw [htry] at hlogs
      exact hlogs.trans ih
  | expand hexpand _ ih =>
      have hlogs := logs_expandHeap hexpand
      exact hlogs.trans ih

theorem logs_kfree : s.mem.Logs (kfree ptr s).mem := by
  have hflag : s.mem.Logs (setIsHole s.mem (ptr - headerSize) 1) :=
    (Logs.refl _).store8
  simp only [kfree]
  split_ifs
  · exact Logs.refl _
  · exact Logs.refl _
  · dsimp only
    exact hflag.trans (logs_mergeNext.trans logs_mergePrev)

end Logs

end BabOs.Kheap
