import BabOs.Kheap.Operations

/-!
# The invariant of the heap

`HeapOk` ties the state of the heap to a list of blocks.  `kmalloc` carves a
block out of a hole of the list, growing the list first when no hole fits, and
`kfree` turns a block into a hole and merges it with the holes next to it.
-/

namespace BabOs.Kheap

open BabOs.Blocks BabOs.Chain

variable {σ : Type*} {mapPage : σ → ℕ → σ}

/-- The headers spell the blocks of the list, which cut the whole heap, and no
two holes are neighbours. -/
structure HeapOk (s : State σ) (bs : List Blk) : Prop where
  start : s.heapStart = kheapStart
  spells : Spells s.mem bs s.heapEnd
  nonempty : kheapStart < s.heapEnd
  aligned : pageSize ∣ s.heapEnd - kheapStart
  noHoles : NoAdjacentHoles bs

/-! ## The chain of headers -/

section HeaderChain

variable {m : Memory} {bs : List Blk} {p : ℕ} {s : State σ}

theorem Linked.isDList (h : Linked m p bs 0) (hpos : ∀ b ∈ bs, b.addr ≠ 0) :
    IsChain (links m).next (pointer (headAddr bs 0)) (bs.map Blk.addr) ∧
      BackLinked (links m).prev (pointer p) (bs.map Blk.addr) := by
  induction bs generalizing p with
  | nil => exact ⟨rfl, trivial⟩
  | cons b bs ih =>
      obtain ⟨hb, hrest⟩ := h
      obtain ⟨hchain, hback⟩ :=
        ih hrest fun c hc => hpos c (List.mem_cons_of_mem _ hc)
      have hpointer : pointer b.addr = some b.addr :=
        if_neg (hpos b List.mem_cons_self)
      refine ⟨⟨hpointer, ?_⟩, ?_, ?_⟩
      · have hnext : (links m).next b.addr = pointer (headAddr bs 0) := by
          simp [links, hb, blkHeader]
        change IsChain (links m).next ((links m).next b.addr) _
        rwa [hnext]
      · simp [links, hb, blkHeader]
      · rwa [← hpointer]

/-- The headers form a doubly linked list from the start of the heap. -/
theorem HeapOk.isDList (h : HeapOk s bs) :
    IsDList (links s.mem) (some s.heapStart) (bs.map Blk.addr) := by
  obtain ⟨hchain, hback⟩ := h.spells.linked.isDList
    fun b hb => (h.spells.addr_pos hb).ne'
  refine ⟨?_, hback⟩
  have hhead : pointer (headAddr bs 0) = some s.heapStart := by
    cases bs with
    | nil => exact absurd h.spells.tiled h.nonempty.ne
    | cons b bs =>
        rw [h.start, ← h.spells.tiled.1]
        exact if_neg (h.spells.addr_pos List.mem_cons_self).ne'
  rwa [← hhead]

/-- The walk of `expand_heap` ends at the last block. -/
theorem HeapOk.lastFrom_eq (h : HeapOk s bs) {fuel last : ℕ}
    (hlast : lastFrom (links s.mem).next fuel s.heapStart = some last) :
    ∃ u b, bs = u ++ [b] ∧ b.addr = last := by
  obtain ⟨a, ha⟩ := h.isDList.chain.lastFrom_eq hlast
  rcases bs.eq_nil_or_concat' with rfl | ⟨u, b, rfl⟩
  · simp at ha
  · rw [List.map_append, List.map_singleton] at ha
    have hlast' := congrArg List.getLast? ha
    exact ⟨u, b, rfl, by simpa using hlast'⟩

end HeaderChain

/-! ## One list of blocks -/

section Unique

variable {m : Memory} {bs bs' : List Blk} {s : State σ}

theorem Linked.unique {p p' lo hi : ℕ} (h : Linked m p bs 0)
    (h' : Linked m p' bs' 0) (htiled : Tiled headerSize lo bs hi)
    (htiled' : Tiled headerSize lo bs' hi) : bs = bs' := by
  induction bs generalizing p p' lo bs' with
  | nil =>
      cases bs' with
      | nil => rfl
      | cons b' bs' =>
          have hle := htiled'.2.le
          rw [headerSize, ← tiled_nil.mp htiled] at hle
          omega
  | cons b bs ih =>
      cases bs' with
      | nil =>
          have hle := htiled.2.le
          rw [headerSize, ← tiled_nil.mp htiled'] at hle
          omega
      | cons b' bs' =>
          have haddr : b.addr = b'.addr := htiled.1.trans htiled'.1.symm
          have hheader := h.1.symm.trans ((congrArg (header m) haddr).trans h'.1)
          have hsize : b.size = b'.size := congrArg Header.size hheader
          have hhole : b.hole = b'.hole := by
            have hflag := congrArg Header.isHole hheader
            simp only [blkHeader] at hflag
            cases hb : b.hole <;> cases hb' : b'.hole <;> simp_all
          have hrest := htiled'.2
          rw [← hsize] at hrest
          have hblk : b = b' := by
            cases b
            cases b'
            simp_all
          rw [hblk, ih h.2 h'.2 htiled.2 hrest]

theorem HeapOk.unique (h : HeapOk s bs) (h' : HeapOk s bs') : bs = bs' :=
  h.spells.linked.unique h'.spells.linked h.spells.tiled h'.spells.tiled

end Unique

/-! ## Expansion -/

section Expansion

variable {s s' : State σ} {b : Blk} {bs u : List Blk} {fuel n : ℕ}

theorem noteSum_wrapped :
    (s.noteSum n).wrapped = false ↔ s.wrapped = false ∧ n < 2 ^ 32 := by
  simp [State.noteSum]

theorem HeapOk.noteSum (h : HeapOk s bs) : HeapOk (s.noteSum n) bs :=
  ⟨h.start, h.spells, h.nonempty, h.aligned, h.noHoles⟩

theorem expandBy_wrapped (hcall : expandBy mapPage fuel n s = some s')
    (hwrap : s'.wrapped = false) :
    s.wrapped = false ∧ s.heapEnd + n < 2 ^ 32 := by
  rw [← noteSum_wrapped (n := s.heapEnd + n)]
  simp only [expandBy] at hcall
  split at hcall
  · cases hcall
  · cases hcall
    exact hwrap

theorem expandHeap_wrapped (hcall : expandHeap mapPage fuel n s = some s')
    (hwrap : s'.wrapped = false) : s.wrapped = false := by
  simp only [expandHeap] at hcall
  split_ifs at hcall
  · exact (noteSum_wrapped.mp (expandBy_wrapped hcall hwrap).1).1
  · exact (expandBy_wrapped hcall hwrap).1

/-- The payload of every block begins before the end of the heap. -/
def Inside {σ : Type*} (s : State σ) (bs : List Blk) : Prop :=
  ∀ b ∈ bs, b.addr + headerSize < s.heapEnd

/-- What an expansion does to the blocks. -/
structure Expands (s s' : State σ) (bs bs' : List Blk) : Prop where
  ok : HeapOk s' bs'
  used : used bs' = used bs
  end_le : s.heapEnd ≤ s'.heapEnd
  writes : s.mem.WritesOutside (payloads headerSize bs) s'.mem

/-- An expansion grows the list of blocks at its end. -/
theorem expandBy_grown (h : HeapOk s bs) (hdvd : pageSize ∣ n) (hpos : 0 < n)
    (hlt : s.heapEnd + n < 2 ^ 32)
    (hcall : expandBy mapPage fuel n s = some s') :
    ∃ u b, bs = u ++ [b] ∧
      HeapOk s' (u ++ grow headerSize s.heapEnd n b) ∧
      s'.heapEnd = s.heapEnd + n ∧
      s.mem.WritesOutside (payloads headerSize bs) s'.mem := by
  have hn : headerSize ≤ n := by
    have hle := Nat.le_of_dvd hpos hdvd
    rw [pageSize] at hle
    rw [headerSize]
    omega
  have haligned : pageSize ∣ s.heapEnd + n - kheapStart := by
    rw [Nat.sub_add_comm h.nonempty.le]
    exact dvd_add h.aligned hdvd
  simp only [expandBy, uint32_eq_of_lt hlt] at hcall
  split at hcall
  · cases hcall
  next last hlast =>
    obtain ⟨u, b, rfl, rfl⟩ := h.lastFrom_eq hlast
    cases hcall
    refine ⟨u, b, rfl, ⟨h.start, growLast_spec h.spells hn hlt, ?_, haligned,
      noAdjacentHoles_grow h.noHoles⟩, rfl,
      growLast_writes ?_ (h.spells.headerOutside (by simp))⟩
    · exact h.nonempty.trans_le (Nat.le_add_right _ _)
    · exact h.spells.tiled.disjoint_beyond le_rfl

theorem inside_grown (hexpands : Expands s s' bs (u ++ [b])) (hin : Inside s bs)
    (hu : ∀ d ∈ u, d ∈ bs) (hb : headerSize < s'.heapEnd - b.addr) :
    Inside s' (u ++ [b]) := by
  have hle := hexpands.end_le
  intro d hd
  rcases List.mem_append.mp hd with hd | hd
  · have hlt := hin d (hu d hd)
    omega
  · rw [List.mem_singleton.mp hd]
    omega

theorem expandBy_expands (h : HeapOk s bs) (hdvd : pageSize ∣ n)
    (hpos : 0 < n) (hcall : expandBy mapPage fuel n s = some s')
    (hwrap : s'.wrapped = false) :
    ∃ bs', Expands s s' bs bs' ∧ (Inside s bs → Inside s' bs') := by
  obtain ⟨u, b, rfl, hok, hend, hwrites⟩ :=
    expandBy_grown h hdvd hpos (expandBy_wrapped hcall hwrap).2 hcall
  have hexpands : Expands s s' (u ++ [b])
      (u ++ grow headerSize s.heapEnd n b) :=
    ⟨hok, used_grow, hend ▸ Nat.le_add_right _ _, hwrites⟩
  refine ⟨_, hexpands, fun hin => ?_⟩
  have hle := Nat.le_of_dvd hpos hdvd
  rw [pageSize] at hle
  obtain ⟨w, c, hgrow, -, hsize, hw, -⟩ := @grow_eq_concat headerSize s.heapEnd n
    u b (by rw [headerSize]; omega)
  rw [hgrow] at hexpands ⊢
  have hbounds := hexpands.ok.spells.tiled.bounds (b := c) (by simp)
  exact inside_grown hexpands hin hw (by rw [headerSize] at *; omega)

theorem expandHeap_expands (h : HeapOk s bs) (hpos : 0 < n)
    (hcall : expandHeap mapPage fuel n s = some s')
    (hwrap : s'.wrapped = false) :
    ∃ bs', Expands s s' bs bs' ∧ (Inside s bs → Inside s' bs') := by
  simp only [expandHeap] at hcall
  split_ifs at hcall with hmod
  · have hrounded := (expandBy_wrapped hcall hwrap).1
    have hlt := (noteSum_wrapped.mp hrounded).2
    rw [uint32_eq_of_lt hlt] at hcall
    obtain ⟨bs', hexp, hin⟩ := expandBy_expands h.noteSum (dvd_mul_left _ _)
      (Nat.mul_pos (Nat.succ_pos _) (by norm_num [pageSize])) hcall hwrap
    exact ⟨bs', ⟨hexp.ok, hexp.used, hexp.end_le, hexp.writes⟩, hin⟩
  · exact expandBy_expands h (Nat.dvd_of_mod_eq_zero (not_not.mp hmod)) hpos
      hcall hwrap

end Expansion

/-! ## Handing out a block -/

section Taking

variable {m : Memory} {hi size : ℕ} {b : Blk} {u v : List Blk}

/-- What is cut off behind a block that is handed out. -/
def takeRest (b : Blk) (size : ℕ) : Option Blk :=
  if size + headerSize < b.size then some (splitRest b size) else none

/-- The block that is handed out. -/
def takeNew (b : Blk) (size : ℕ) : Blk :=
  ⟨b.addr, if size + headerSize < b.size then size else b.size, false⟩

theorem take_carves (hhole : b.hole = true) (hsize : size ≤ b.size) :
    Carves headerSize size b none (takeNew b size) (takeRest b size) := by
  by_cases hlt : size + headerSize < b.size
  · refine ⟨hhole, rfl, by simp [takeNew, hlt], by simp,
      by simp [takeRest, hlt, splitRest], ?_⟩
    simp only [takeNew, takeRest, if_pos hlt, splitRest, Option.toList_none,
      Option.toList_some, List.nil_append, tiled_cons, tiled_nil, true_and]
    omega
  · exact ⟨hhole, rfl, by simp [takeNew, hlt, hsize], by simp,
      by simp [takeRest, hlt], by simp [takeNew, takeRest, hlt]⟩

theorem takeBlock_spells (h : Spells m (u ++ b :: v) hi)
    (hsum : size + headerSize < 2 ^ 32) :
    Spells (setIsHole (splitBlock m b.addr size) b.addr 0)
      (u ++ (takeNew b size :: (takeRest b size).toList ++ v)) hi := by
  by_cases hlt : size + headerSize < b.size
  · have hnew : takeNew b size = ⟨b.addr, size, false⟩ := by
      simp [takeNew, hlt]
    rw [takeRest, if_pos hlt, hnew]
    exact setIsHole_spec (splitBlock_spec h hlt) false
  · rw [splitBlock_of_le h (by omega) hsum, takeRest, if_neg hlt, takeNew,
      if_neg hlt]
    exact setIsHole_spec h false

theorem takeBlock_spec (h : Spells m (u ++ b :: v) hi) (hhole : b.hole = true)
    (hsize : size ≤ b.size) :
    Spells (setIsHole (splitBlock m b.addr size) b.addr 0)
        (u ++ (takeNew b size :: (takeRest b size).toList ++ v)) hi ∧
      m.WritesOutside (payloads headerSize (u ++ b :: v))
        (setIsHole (splitBlock m b.addr size) b.addr 0) := by
  have hb := h.headerOutside (b := b) (by simp)
  have hend := h.end_lt (b := b) (by simp)
  refine ⟨takeBlock_spells h (by omega), hb.setIsHole ?_⟩
  by_cases hlt : size + headerSize < b.size
  · exact splitBlock_writes h hhole hlt
  · rw [splitBlock_of_le h (by omega) (by omega)]
    exact Memory.WritesOutside.refl _ m

/-- A hole split in front is carved like the part behind. -/
theorem carves_front {front : ℕ} {new : Blk} {post : Option Blk}
    (h : Carves headerSize size (splitRest b front) none new post)
    (hhole : b.hole = true) (hfront : front + headerSize ≤ b.size) :
    Carves headerSize size b (some { b with size := front }) new post := by
  refine ⟨hhole, h.new_used, h.size_le, by simp [hhole], h.post_hole, ?_⟩
  have htiled := h.tiled
  have hend : b.addr + headerSize + front + headerSize +
      (b.size - front - headerSize) = b.addr + headerSize + b.size := by
    omega
  simp only [splitRest, hend] at htiled
  exact ⟨rfl, htiled⟩

end Taking

/-! ## Holes that fit -/

def padding (align : Bool) (a : ℕ) : ℕ :=
  sub32 (adjustedAddr align (uint32 (a + headerSize))) (uint32 (a + headerSize))

/-- `kmalloc_internal` takes the block: it is a hole, it has room for the padding
and the request, and there is no padding, or it can be split off. -/
structure Fits (size : ℕ) (align : Bool) (b : Blk) : Prop where
  hole : b.hole = true
  size_le : padding align b.addr + size ≤ b.size
  splittable : padding align b.addr = 0 ∨ headerSize < padding align b.addr

/-- In `s'` the hole `b` is carved into `pre`, the block `new` that is handed
out, and `post`; nothing else changes. -/
structure Carved (size : ℕ) (s s' : State σ) (u : List Blk) (b : Blk)
    (v : List Blk) (pre : Option Blk) (new : Blk) (post : Option Blk) :
    Prop where
  ok : HeapOk s' (u ++ (pre.toList ++ new :: post.toList ++ v))
  carves : Carves headerSize size b pre new post
  le_size : new.size ≤ size + headerSize
  post_pos : ∀ c ∈ post, 0 < c.size
  frame : s' = { s with mem := s'.mem }
  writes : s.mem.WritesOutside (payloads headerSize (u ++ b :: v)) s'.mem

section Fitting

variable {s : State σ} {b : Blk} {u v : List Blk} {n size a : ℕ} {align : Bool}

theorem noteSum_eq (h : n < 2 ^ 32) : s.noteSum n = s := by
  rw [State.noteSum, decide_eq_false (not_le.mpr h), Bool.or_false]

theorem padding_false (a : ℕ) : padding false a = 0 := by
  change sub32 (uint32 (a + headerSize)) (uint32 (a + headerSize)) = 0
  rw [sub32_eq_of_le (uint32_lt _) le_rfl, Nat.sub_self]

theorem padding_true (h : a + headerSize < 2 ^ 32) :
    padding true a = (pageSize - (a + headerSize) % pageSize) % pageSize := by
  rw [padding, uint32_eq_of_lt h, adjustedAddr, and_low, pageSize]
  split_ifs with haligned
  · simp only [Bool.true_and, decide_eq_true_eq] at haligned
    rw [and_high (uint32_lt _)]
    simp only [uint32, sub32]
    omega
  · simp only [Bool.true_and, decide_eq_true_eq, not_not] at haligned
    rw [sub32_eq_of_le h le_rfl]
    omega

theorem padding_lt (h : a + headerSize < 2 ^ 32) : padding true a < pageSize := by
  rw [padding_true h]
  exact Nat.mod_lt _ (by decide)

theorem tryBlock_eq {next prev : ℕ}
    (hb : header s.mem b.addr = blkHeader b next prev) (hhole : b.hole = true) :
    tryBlock size align b.addr s =
      let t := s.noteSum (padding align b.addr + size)
      if b.size < uint32 (padding align b.addr + size) then (none, t)
      else if headerSize < padding align b.addr then
        let m := splitBlock s.mem b.addr (padding align b.addr - headerSize)
        takeBlock size (header m b.addr).next { t with mem := m }
      else if 0 < padding align b.addr then (none, t)
      else takeBlock size b.addr t := by
  rw [tryBlock, hb, blkHeader, if_pos hhole, if_neg one_ne_zero]
  rfl

theorem tryBlock_hole {next prev : ℕ}
    (hb : header s.mem b.addr = blkHeader b next prev) (hhole : b.hole = true)
    (hsum : padding align b.addr + size < 2 ^ 32) :
    tryBlock size align b.addr s =
      if b.size < padding align b.addr + size then (none, s)
      else if headerSize < padding align b.addr then
        let m := splitBlock s.mem b.addr (padding align b.addr - headerSize)
        takeBlock size (header m b.addr).next { s with mem := m }
      else if 0 < padding align b.addr then (none, s)
      else takeBlock size b.addr s := by
  rw [tryBlock_eq hb hhole, uint32_eq_of_lt hsum, noteSum_eq hsum]

theorem tryBlock_of_not_fits {next prev : ℕ}
    (hb : header s.mem b.addr = blkHeader b next prev)
    (hlt : b.hole = true → padding align b.addr + size < 2 ^ 32)
    (hfits : ¬Fits size align b) : tryBlock size align b.addr s = (none, s) := by
  by_cases hhole : b.hole = true
  · rw [tryBlock_hole hb hhole (hlt hhole)]
    split_ifs with hsize hfront hzero
    · rfl
    · exact absurd ⟨hhole, not_lt.mp hsize, Or.inr hfront⟩ hfits
    · rfl
    · exact absurd
        ⟨hhole, not_lt.mp hsize, Or.inl (Nat.eq_zero_of_not_pos hzero)⟩ hfits
  · rw [tryBlock, hb]
    simp [blkHeader, hhole]

/-- What is cut off behind a block leaves it at most one header too large. -/
theorem takeNew_size_le : (takeNew b size).size ≤ size + headerSize := by
  rw [takeNew]
  dsimp only
  split_ifs <;> omega

theorem takeRest_pos : ∀ c ∈ takeRest b size, 0 < c.size := by
  intro c hc
  rw [takeRest] at hc
  split_ifs at hc
  · obtain rfl := Option.some.inj hc
    simp only [splitRest]
    omega
  · cases hc

theorem tryBlock_of_fits (h : HeapOk s (u ++ b :: v))
    (hfits : Fits size align b)
    (hcut : padding align b.addr = 0 ∨ padding align b.addr < b.size) :
    ∃ s' pre new post,
      tryBlock size align b.addr s = (some (new.addr + headerSize), s') ∧
        new.addr = b.addr + padding align b.addr ∧
        (padding align b.addr = 0 → pre = none) ∧
        Carved size s s' u b v pre new post := by
  obtain ⟨hhole, hsize, hsplittable⟩ := hfits
  have hend := h.spells.end_lt (b := b) (by simp)
  rw [tryBlock_hole h.spells.header_eq hhole (by omega),
    if_neg (not_lt.mpr hsize)]
  have hok : ∀ {pre new post} {m : Memory}, Carves headerSize size b pre new post →
      Spells m (u ++ (pre.toList ++ new :: post.toList ++ v)) s.heapEnd →
      HeapOk { s with mem := m } (u ++ (pre.toList ++ new :: post.toList ++ v)) :=
    fun hcarves hspells =>
      ⟨h.start, hspells, h.nonempty, h.aligned, hcarves.noAdjacentHoles h.noHoles⟩
  generalize padding align b.addr = padding at hcut hsize hsplittable ⊢
  split_ifs with hfront hzero
  · -- the hole is split in front of the aligned address
    have hsplit : padding - headerSize + headerSize < b.size := by omega
    have hspells := splitBlock_spec h.spells hsplit
    rw [← List.singleton_append, ← List.append_assoc] at hspells
    have hrest : size ≤ (splitRest b (padding - headerSize)).size := by
      simp only [splitRest]
      omega
    have hcarves := carves_front
      (take_carves (b := splitRest b (padding - headerSize)) rfl hrest) hhole
      (by omega)
    obtain ⟨htake, htakeWrites⟩ := takeBlock_spec hspells rfl hrest
    rw [List.append_assoc, List.singleton_append] at htake
    have hnew := hspells.end_lt
      (b := splitRest b (padding - headerSize)) (by simp)
    have haddr : (takeNew (splitRest b (padding - headerSize)) size).addr =
        b.addr + padding := by
      simp only [takeNew, splitRest]
      omega
    have hptr : uint32 ((splitRest b (padding - headerSize)).addr + headerSize) =
        (takeNew (splitRest b (padding - headerSize)) size).addr + headerSize :=
      uint32_eq_of_lt (by omega)
    dsimp only
    rw [splitBlock_next h.spells hsplit, takeBlock, hptr]
    refine ⟨_, _, _, _, rfl, haddr, by omega,
      ⟨hok hcarves htake, hcarves, takeNew_size_le, takeRest_pos, rfl, ?_⟩⟩
    refine (splitBlock_writes h.spells hhole hsplit).trans
      (htakeWrites.mono (payloads_mono ?_))
    simp [used, hhole, splitRest]
  · exact absurd hsplittable (by omega)
  · obtain rfl : padding = 0 := by omega
    rw [zero_add] at hsize
    obtain ⟨htake, hwrites⟩ := takeBlock_spec h.spells hhole hsize
    have hptr : uint32 (b.addr + headerSize) =
        (takeNew b size).addr + headerSize := uint32_eq_of_lt (by omega)
    have hcarves := take_carves hhole hsize
    rw [takeBlock, hptr]
    exact ⟨_, _, _, _, rfl, rfl, fun _ => rfl,
      ⟨hok hcarves htake, hcarves, takeNew_size_le, takeRest_pos, rfl, hwrites⟩⟩

end Fitting

/-! ## kmalloc -/

section Kmalloc

variable {s s' : State σ} {b new : Blk} {bs u v : List Blk}
  {pre post : Option Blk} {size fuel curr ptr : ℕ} {align : Bool}

/-- The outcome of a call that hands out `new`. -/
structure Hands (size : ℕ) (s s' : State σ) (bs bs' : List Blk)
    (new : Blk) : Prop where
  ok : HeapOk s' bs'
  size_le : size ≤ new.size
  used : ∃ l r, used bs = l ++ r ∧ used bs' = l ++ new :: r
  end_le : s.heapEnd ≤ s'.heapEnd
  writes : s.mem.WritesOutside (payloads headerSize bs) s'.mem

theorem Carved.hands
    (h : Carved size s s' u b v pre new post) :
    Hands size s s' (u ++ b :: v)
      (u ++ (pre.toList ++ new :: post.toList ++ v)) new := by
  refine ⟨h.ok, h.carves.size_le, ?_, ?_, h.writes⟩
  · exact ⟨used u, used v, used_of_hole h.carves.hole, h.carves.used⟩
  · rw [h.frame]

theorem Carved.inside (hcarved : Carved size s s' u b v pre new post)
    (h : HeapOk s (u ++ b :: v)) (hin : Inside s (u ++ b :: v))
    (haddr : new.addr = b.addr + padding align b.addr)
    (hcut : padding align b.addr = 0 ∨ padding align b.addr < b.size) :
    Inside s' (u ++ (pre.toList ++ new :: post.toList ++ v)) := by
  have hend : s'.heapEnd = s.heapEnd := by rw [hcarved.frame]
  have hb := hin b (by simp)
  have hbounds := h.spells.tiled.bounds (b := b) (by simp)
  have htiled := hcarved.carves.tiled
  intro c hc
  rw [hend]
  rw [List.append_assoc, List.mem_append, List.mem_append, List.cons_append,
    List.mem_cons, List.mem_append] at hc
  rcases hc with hc | hc | rfl | hc | hc
  · exact hin c (List.mem_append_left _ hc)
  · cases pre with
    | none => cases hc
    | some p =>
        obtain rfl := List.mem_singleton.mp hc
        rw [htiled.1]
        exact hb
  · omega
  · have hpos := hcarved.post_pos c (by simpa using hc)
    have hle := (htiled.bounds (b := c) (by simp [hc])).2
    omega
  · exact hin c (by simp [hc])

theorem Expands.hands {s₁ : State σ} {bs₁ bs' : List Blk} {new : Blk}
    (hexp : Expands s s₁ bs bs₁) (h : Hands size s₁ s' bs₁ bs' new) :
    Hands size s s' bs bs' new := by
  refine ⟨h.ok, h.size_le, hexp.used ▸ h.used, hexp.end_le.trans h.end_le,
    hexp.writes.trans (h.writes.mono (payloads_mono ?_))⟩
  rw [hexp.used]
  exact List.Subset.refl _

theorem tryBlock_wrapped
    (hwrap : (tryBlock size align curr s).2.wrapped = false) :
    s.wrapped = false := by
  simp only [tryBlock] at hwrap
  split_ifs at hwrap
  · exact hwrap
  all_goals exact (noteSum_wrapped.mp hwrap).1

theorem kmallocLoop_wrapped
    (hcall : kmallocLoop mapPage size align fuel curr s = some (ptr, s'))
    (hwrap : s'.wrapped = false) : s.wrapped = false := by
  induction fuel generalizing curr s with
  | zero => cases hcall
  | succ fuel ih =>
      rw [kmallocLoop] at hcall
      split_ifs at hcall
      · dsimp only at hcall
        split at hcall
        · cases hcall
        next hexp =>
          exact (noteSum_wrapped.mp
            (expandHeap_wrapped hexp (ih hcall))).1
      · split at hcall
        next htry =>
          cases hcall
          exact tryBlock_wrapped (by rwa [htry])
        next htry =>
          exact tryBlock_wrapped (by rw [htry]; exact ih hcall)

theorem tryBlock_none (h : HeapOk s bs) {s₁ : State σ}
    (htry : tryBlock size align curr s = (none, s₁)) :
    HeapOk s₁ bs ∧ s₁.mem = s.mem ∧ s₁.heapEnd = s.heapEnd := by
  simp only [tryBlock, takeBlock] at htry
  split_ifs at htry <;> cases htry
  · exact ⟨h, rfl, rfl⟩
  all_goals exact ⟨h.noteSum, rfl, rfl⟩

theorem HeapOk.fits_of_tryBlock (h : HeapOk s (u ++ b :: v))
    (hsum : b.hole = true → padding align b.addr + size < 2 ^ 32)
    (htry : tryBlock size align b.addr s = (some ptr, s')) :
    Fits size align b := by
  by_contra hfits
  rw [tryBlock_of_not_fits h.spells.header_eq hsum hfits] at htry
  cases htry

/-- A round that does not hands out a part of the hole it looks at. -/
theorem tryBlock_some (h : HeapOk s (u ++ b :: v))
    (hpos : 0 < size)
    (htry : tryBlock size align b.addr s = (some ptr, s'))
    (hwrap : s'.wrapped = false) :
    ∃ bs' new, ptr = new.addr + headerSize ∧
      Hands size s s' (u ++ b :: v) bs' new ∧
      (Inside s (u ++ b :: v) → Inside s' bs') := by
  have hsum : b.hole = true → padding align b.addr + size < 2 ^ 32 := by
    intro hhole
    have hwrap : (tryBlock size align b.addr s).2.wrapped = false := by
      rwa [htry]
    simp only [tryBlock, h.spells.header_eq, blkHeader, if_pos hhole,
      one_ne_zero, if_false] at hwrap
    split_ifs at hwrap
    all_goals exact (noteSum_wrapped.mp hwrap).2
  have hfits := h.fits_of_tryBlock hsum htry
  have hcut : padding align b.addr = 0 ∨ padding align b.addr < b.size := by
    have hsize := hfits.size_le
    omega
  obtain ⟨s₁, pre, new, post, heq, haddr, -, hcarved⟩ :=
    tryBlock_of_fits h hfits hcut
  rw [heq] at htry
  cases htry
  exact ⟨_, new, rfl, hcarved.hands,
    fun hin => hcarved.inside h hin haddr hcut⟩

/-- `curr` is null or the address of a block. -/
def OnList (curr : ℕ) (bs : List Blk) : Prop :=
  curr = 0 ∨ ∃ b ∈ bs, b.addr = curr

theorem onList_headAddr {u v : List Blk} : OnList (headAddr v 0) (u ++ v) := by
  cases v with
  | nil => exact Or.inl rfl
  | cons b v => exact Or.inr ⟨b, by simp, rfl⟩

theorem HeapOk.onList_start (h : HeapOk s bs) : OnList s.heapStart bs := by
  cases bs with
  | nil => exact absurd h.spells.tiled h.nonempty.ne
  | cons b bs =>
      refine Or.inr ⟨b, List.mem_cons_self, ?_⟩
      rw [h.start]
      exact h.spells.tiled.1

theorem kmallocLoop_hands (h : HeapOk s bs) (hcurr : OnList curr bs)
    (hpos : 0 < size)
    (hcall : kmallocLoop mapPage size align fuel curr s = some (ptr, s'))
    (hwrap : s'.wrapped = false) :
    ∃ bs' new, ptr = new.addr + headerSize ∧ Hands size s s' bs bs' new ∧
      (Inside s bs → Inside s' bs') := by
  induction fuel generalizing curr s bs with
  | zero => cases hcall
  | succ fuel ih =>
      rw [kmallocLoop] at hcall
      split_ifs at hcall with hnull
      · dsimp only at hcall
        split at hcall
        · cases hcall
        next s₁ hexp =>
          have hwrap₁ := kmallocLoop_wrapped hcall hwrap
          have hlt := (noteSum_wrapped.mp (expandHeap_wrapped hexp hwrap₁)).2
          have hexpand : 0 < uint32 (expandSize size align) := by
            rw [uint32_eq_of_lt hlt, expandSize]
            omega
          obtain ⟨bs₁, hexpands, hin₁⟩ :=
            expandHeap_expands h.noteSum hexpand hexp hwrap₁
          obtain ⟨bs', new, hptr, hhands, hin⟩ :=
            ih hexpands.ok hexpands.ok.onList_start hcall
          have hall := hexpands.hands hhands
          exact ⟨bs', new, hptr, ⟨hall.ok, hall.size_le, hall.used,
            hall.end_le, hall.writes⟩, fun hbs => hin (hin₁ hbs)⟩
      · obtain ⟨b, hb, rfl⟩ := hcurr.resolve_left hnull
        obtain ⟨u, v, rfl⟩ := List.append_of_mem hb
        split at hcall
        next htry =>
          cases hcall
          exact tryBlock_some h hpos htry hwrap
        next s₁ htry =>
          obtain ⟨h₁, hmem, hend⟩ := tryBlock_none h htry
          have hnext : OnList (header s₁.mem b.addr).next (u ++ b :: v) := by
            rw [h₁.spells.header_eq]
            have hnext := onList_headAddr (u := u ++ [b]) (v := v)
            rwa [List.append_assoc] at hnext
          obtain ⟨bs', new, hptr, hhands, hin⟩ := ih h₁ hnext hcall
          refine ⟨bs', new, hptr, ⟨hhands.ok, hhands.size_le, hhands.used,
            hend ▸ hhands.end_le, hmem ▸ hhands.writes⟩, fun hbs => hin ?_⟩
          rwa [Inside, hend]

theorem kmallocInternal_hands (h : HeapOk s bs) (hpos : 0 < size)
    (hcall : kmallocInternal mapPage fuel size align s = some (ptr, s'))
    (hwrap : s'.wrapped = false) :
    ∃ bs' new, ptr = new.addr + headerSize ∧ Hands size s s' bs bs' new ∧
      (Inside s bs → Inside s' bs') :=
  kmallocLoop_hands h h.onList_start hpos hcall hwrap

end Kmalloc

/-! ## kfree -/

section Kfree

variable {s : State σ} {b : Blk} {u v : List Blk}

/-- The outcome of a call of `kfree` on the block `b`. -/
structure Releases (s s' : State σ) (bs bs' : List Blk) (b : Blk) : Prop where
  ok : HeapOk s' bs'
  used : ∃ l r, used bs = l ++ b :: r ∧ Blocks.used bs' = l ++ r
  end_eq : s'.heapEnd = s.heapEnd
  writes : s.mem.WritesOutside (payloads headerSize bs') s'.mem

theorem Spells.inRange (h : Spells s.mem (u ++ b :: v) s.heapEnd)
    (hlt : b.addr + headerSize < s.heapEnd) :
    ¬(b.addr + headerSize = 0 ∨ b.addr + headerSize < kheapStart ∨
      s.heapEnd ≤ b.addr + headerSize) := by
  have hbounds := h.tiled.bounds (b := b) (by simp)
  have hpos := h.addr_pos (b := b) (by simp)
  omega

theorem Spells.magic_eq (h : Spells s.mem (u ++ b :: v) s.heapEnd) :
    ¬(header s.mem b.addr).magic ≠ kheapMagic := by
  simp [h.header_eq, blkHeader]

theorem kfree_eq (h : Spells s.mem (u ++ b :: v) s.heapEnd)
    (hlt : b.addr + headerSize < s.heapEnd) :
    kfree (b.addr + headerSize) s =
      { s with
        mem := mergePrev (mergeNext (setIsHole s.mem b.addr 1) b.addr)
          b.addr } := by
  rw [kfree, if_neg (h.inRange hlt), Nat.add_sub_cancel, if_neg h.magic_eq]

/-- A used block becomes a hole and joins its neighbours; `q` is the block in
front of it. -/
theorem kfree_spec {w : List Blk} {q : Option Blk}
    (h : HeapOk s (w ++ q.toList ++ b :: v)) (hq : q = none → w = [])
    (hused : b.hole = false) (hlt : b.addr + headerSize < s.heapEnd) :
    Releases s (kfree (b.addr + headerSize) s) (w ++ q.toList ++ b :: v)
      (w ++ mergeBackward headerSize q (mergeForward headerSize b v)) b := by
  rw [kfree_eq h.spells hlt]
  have hhole : Spells (setIsHole s.mem b.addr 1)
      (w ++ q.toList ++ { b with hole := true } :: v) s.heapEnd :=
    setIsHole_spec h.spells true
  have hholeWrites := (h.spells.headerOutside (b := b) (by simp)).setIsHole
    (v := 1) (Memory.WritesOutside.refl _ s.mem)
  generalize setIsHole s.mem b.addr 1 = m₁ at hhole hholeWrites ⊢
  obtain ⟨hnext, hnextWrites⟩ := mergeNext_spec hhole rfl
  dsimp only at hnext hnextWrites
  generalize mergeNext m₁ b.addr = m₂ at hnext hnextWrites ⊢
  obtain ⟨c, z, hforward, hc⟩ :=
    mergeForward_eq_cons headerSize (b := { b with hole := true })
      (v := v)
  rw [hforward, List.append_assoc] at hnext
  obtain ⟨hprev, hprevWrites⟩ := mergePrev_spec hnext hq
  rw [hc] at hprev hprevWrites
  dsimp only at hprev hprevWrites
  generalize mergePrev m₂ b.addr = m₃ at hprev hprevWrites ⊢
  have hnoHoles := noAdjacentHoles_merge headerSize h.noHoles hq
  rw [← mergeForward_hole, hforward] at hnoHoles
  have hhead := head?_mergeForward headerSize
    (b := { b with hole := true }) (v := v)
  have hrest := used_mergeForward headerSize
    (b := { b with hole := true }) (v := v)
  rw [hforward] at hhead hrest
  have hused' : used (w ++ mergeBackward headerSize q (c :: z)) =
      used (w ++ q.toList) ++ used v := by
    rw [used_append, used_mergeBackward hhead, used_append, used_append,
      hrest, List.append_assoc]
  have hbefore : used (w ++ q.toList ++ b :: v) =
      used (w ++ q.toList) ++ b :: used v := by
    rw [used_append, used_cons_used hused]
  rw [← mergeForward_hole, hforward]
  refine ⟨⟨h.start, hprev, h.nonempty, h.aligned, hnoHoles⟩,
    ⟨_, _, hbefore, hused'⟩, rfl, ?_⟩
  refine (hholeWrites.mono (payloads_mono ?_)).trans
    ((hnextWrites.mono (payloads_mono ?_)).trans
      (hprevWrites.mono (payloads_mono ?_)))
  · rw [hused', hbefore]
    intro d hd
    simp only [List.mem_append, List.mem_cons] at hd ⊢
    tauto
  · rw [hused', used_of_hole rfl]
    exact List.Subset.refl _
  · rw [hused', ← List.append_assoc, used_append (u := w ++ q.toList), hrest]
    exact List.Subset.refl _

/-- The last block of a list, and the blocks in front of it. -/
theorem exists_eq_append_toList (u : List Blk) :
    ∃ w, ∃ q : Option Blk, u = w ++ q.toList ∧ (q = none → w = []) := by
  rcases u.eq_nil_or_concat' with rfl | ⟨w, p, rfl⟩
  · exact ⟨[], none, rfl, fun _ => rfl⟩
  · exact ⟨w, some p, rfl, by simp⟩

theorem inside_merge {w : List Blk} {q : Option Blk}
    (hin : Inside s (w ++ q.toList ++ b :: v)) :
    Inside s (w ++ mergeBackward headerSize q (mergeForward headerSize b v)) := by
  intro c hc
  have haddr : ∃ d ∈ w ++ q.toList ++ b :: v, c.addr = d.addr := by
    rcases List.mem_append.mp hc with hc | hc
    · exact ⟨c, by simp [hc], rfl⟩
    · rcases mem_mergeBackward hc with ⟨p, hp, hcp⟩ | hc
      · exact ⟨p, by simp [Option.mem_def.mp hp], hcp⟩
      · rcases mem_mergeForward hc with hcb | hc
        · exact ⟨b, by simp, hcb⟩
        · exact ⟨c, by simp [hc], rfl⟩
  obtain ⟨d, hd, hcd⟩ := haddr
  rw [hcd]
  exact hin d hd

theorem kfree_releases (h : HeapOk s (u ++ b :: v)) (hused : b.hole = false)
    (hin : Inside s (u ++ b :: v)) :
    ∃ bs', Releases s (kfree (b.addr + headerSize) s) (u ++ b :: v) bs' b ∧
      Inside (kfree (b.addr + headerSize) s) bs' := by
  obtain ⟨w, q, rfl, hq⟩ := exists_eq_append_toList u
  have hreleases := kfree_spec h hq hused (hin b (by simp))
  refine ⟨_, hreleases, ?_⟩
  rw [Inside, hreleases.end_eq]
  exact inside_merge hin

end Kfree

end BabOs.Kheap
