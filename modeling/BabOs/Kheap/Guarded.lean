import BabOs.Kheap.Rejects
import BabOs.Kheap.Runs

/-!
# Guarded runs

In a guarded run every request is one that can be served, whatever its size, and
what is freed is live or turned away.  The blocks stay well formed, every request
gets bytes of its own, and the pointers that `kfree` turns away change nothing.
-/

namespace BabOs.Kheap

open BabOs.Blocks BabOs.Chain Relation

/-! ## Steps -/

/-- One call that returns.  A request may be of any size that can be served in
the state before the call, and a pointer that is not live may be freed when it
is turned away there. -/
inductive GuardedStep {σ : Type*} (mapPage : σ → ℕ → σ) :
    Call → Config σ → Config σ → Prop
  | kmalloc {s s' : State σ} {live : ℕ → Option ℕ} {fuel size ptr : ℕ}
      (hservable : ∀ bs, HeapOk s bs → Servable size false s bs)
      (hcall : kmalloc mapPage fuel size s = some (ptr, s')) :
      GuardedStep mapPage (.kmalloc size) (s, live)
        (s', Function.update live ptr (some size))
  | kmallocA {s s' : State σ} {live : ℕ → Option ℕ} {fuel size ptr : ℕ}
      (hservable : ∀ bs, HeapOk s bs → Servable size true s bs)
      (hcall : kmallocA mapPage fuel size s = some (ptr, s')) :
      GuardedStep mapPage (.kmallocA size) (s, live)
        (s', Function.update live ptr (some size))
  | kfree {s : State σ} {live : ℕ → Option ℕ} {ptr n : ℕ}
      (hlive : live ptr = some n) :
      GuardedStep mapPage (.kfree ptr) (s, live)
        (kfree ptr s, Function.update live ptr none)
  | reject {s : State σ} {live : ℕ → Option ℕ} {ptr : ℕ}
      (hdead : live ptr = none)
      (hreject : ∀ bs, HeapOk s bs → Rejectable s bs ptr) :
      GuardedStep mapPage (.kfree ptr) (s, live) (kfree ptr s, live)
  | client {s : State σ} {live : ℕ → Option ℕ} {m : Memory}
      (hbyte : ∀ a ∉ clientBytes live, m.byte a = s.mem.byte a)
      (hstores : m.stores = s.mem.stores) :
      GuardedStep mapPage .client (s, live) ({ s with mem := m }, live)

def GuardedRun {σ : Type*} (mapPage : σ → ℕ → σ) : Config σ → Config σ → Prop :=
  ReflTransGen fun c c' => ∃ call, GuardedStep mapPage call c c'

/-! ## The invariant of a guarded run -/

section Invariant

variable {σ : Type*} {mapPage : σ → ℕ → σ} {s s' : State σ}
variable {live : ℕ → Option ℕ} {bs : List Blk} {call : Call} {c c' : Config σ}
variable {size ptr n fuel : ℕ} {align : Bool}

/-- The live pointers are the payloads of the used blocks, which hold what was
requested, be it nothing, and every payload begins inside the heap. -/
structure Tracks (s : State σ) (live : ℕ → Option ℕ) (bs : List Blk) :
    Prop where
  ok : HeapOk s bs
  owns : Owns (fun n b => n ≤ b.size) live bs
  inside : Inside s bs

theorem Tracks.request (h : Tracks s live bs)
    (hservable : Servable size align s bs)
    (hcall : kmallocInternal mapPage fuel size align s = some (ptr, s')) :
    ∃ bs', Tracks s' (Function.update live ptr (some size)) bs' := by
  obtain ⟨bs', new, rfl, hhands, hinside⟩ := h.ok.request hservable hcall
  exact ⟨bs', hhands.ok, h.owns.hands hhands hhands.size_le, hinside h.inside⟩

theorem Tracks.kfree (h : Tracks s live bs) (hlive : live ptr = some n) :
    ∃ bs', Tracks (kfree ptr s) (Function.update live ptr none) bs' := by
  obtain ⟨b, hb, rfl, -⟩ := h.owns.exists_block hlive
  obtain ⟨hmem, hused⟩ := mem_used.mp hb
  obtain ⟨u, v, rfl⟩ := List.append_of_mem hmem
  obtain ⟨bs', hreleases, hinside⟩ := kfree_releases h.ok hused h.inside
  exact ⟨bs', hreleases.ok, h.owns.releases h.ok hreleases, hinside⟩

theorem Tracks.reject (h : Tracks s live bs) (hreject : Rejectable s bs ptr) :
    Tracks (Kheap.kfree ptr s) live bs := by
  have hrejects := h.ok.rejects hreject
  refine ⟨hrejects.ok, h.owns, fun b hb => ?_⟩
  rw [hrejects.heapEnd_eq]
  exact h.inside b hb

theorem Tracks.client {m : Memory} (h : Tracks s live bs)
    (hbyte : ∀ a ∉ clientBytes live, m.byte a = s.mem.byte a) :
    Tracks { s with mem := m } live bs :=
  ⟨h.ok.client (h.owns.clientBytes_subset fun _ _ hn => hn) hbyte, h.owns,
    h.inside⟩

theorem GuardedStep.tracks (hstep : GuardedStep mapPage call c c')
    (h : Tracks c.1 c.2 bs) : ∃ bs', Tracks c'.1 c'.2 bs' := by
  cases hstep with
  | kmalloc hservable hcall => exact h.request (hservable bs h.ok) hcall
  | kmallocA hservable hcall => exact h.request (hservable bs h.ok) hcall
  | kfree hlive => exact h.kfree hlive
  | reject _ hreject => exact ⟨bs, h.reject (hreject bs h.ok)⟩
  | client hbyte _ => exact ⟨bs, h.client hbyte⟩

theorem tracks_boot (mapPage : σ → ℕ → σ) (s : State σ) :
    Tracks (boot mapPage s).1 (boot mapPage s).2
      [⟨kheapStart, kheapInitialSize - headerSize, true⟩] := by
  refine ⟨heapOk_kheapInit mapPage s, ⟨?_, ?_⟩, inside_kheapInit mapPage s⟩
  · simp [boot]
  · simp [used]

theorem tracks_of_run {s : State σ} (hrun : GuardedRun mapPage (boot mapPage s) c) :
    ∃ bs, Tracks c.1 c.2 bs := by
  induction hrun with
  | refl => exact ⟨_, tracks_boot mapPage s⟩
  | tail _ hstep ih =>
      obtain ⟨bs, h⟩ := ih
      obtain ⟨call, hstep⟩ := hstep
      exact hstep.tracks h

end Invariant

/-! ## What a request is given -/

/-- A request that returned `ptr` was given bytes of its own inside the heap, and
the blocks that were handed out before stay. -/
structure Grants {σ : Type*} (size : ℕ) (s s' : State σ) (bs : List Blk)
    (ptr : ℕ) : Prop where
  start_le : kheapStart ≤ ptr
  end_le : ptr + size ≤ s'.heapEnd
  heapEnd_lt : s'.heapEnd < 2 ^ 32
  apart : ∀ b ∈ used bs, Disjoint (Set.Ico ptr (ptr + size))
    (Set.Ico b.addr (b.addr + headerSize + b.size))
  tiles : ∃ bs', HeapOk s' bs' ∧ ∀ b ∈ used bs, b ∈ used bs'

section Granted

variable {σ : Type*} {mapPage : σ → ℕ → σ} {s s' : State σ}
variable {new : Blk} {bs bs' : List Blk} {size : ℕ}

theorem Hands.grants (h : Hands size s s' bs bs' new) :
    Grants size s s' bs (new.addr + headerSize) := by
  have hnew := (mem_used.mp (h.mem_used_iff.mpr (Or.inl rfl))).1
  have hbounds := h.ok.spells.tiled.bounds hnew
  have hle := h.size_le
  have hlt := h.ok.spells.hi_lt
  refine ⟨by omega, by omega, hlt, ?_, bs', h.ok, ?_⟩
  · intro b hb
    have hmem := (mem_used.mp (h.mem_used_iff.mpr (Or.inr hb))).1
    have hne := new_addr_ne h hb
    rw [Set.Ico_disjoint_Ico]
    rcases h.ok.spells.tiled.separate hmem hnew with rfl | hsep | hsep
    · exact absurd rfl hne
    · omega
    · omega
  · exact fun b hb => h.mem_used_iff.mpr (Or.inr hb)

end Granted

/-- In every state of a guarded run, a request of any size that can be served is
given bytes of its own whenever it returns. -/
theorem run_request_granted {σ : Type*} {mapPage : σ → ℕ → σ} {s : State σ}
    {c : Config σ} (hrun : GuardedRun mapPage (boot mapPage s) c) :
    ∃ bs, Tracks c.1 c.2 bs ∧ ∀ fuel size align ptr s',
      Servable size align c.1 bs →
        kmallocInternal mapPage fuel size align c.1 = some (ptr, s') →
          Grants size c.1 s' bs ptr := by
  obtain ⟨bs, h⟩ := tracks_of_run hrun
  refine ⟨bs, h, fun fuel size align ptr s' hservable hcall => ?_⟩
  obtain ⟨bs', new, rfl, hhands, -⟩ := h.ok.request hservable hcall
  exact hhands.grants

theorem servable_boot :
    Servable 100 false (boot noPages blankState).1
      [⟨kheapStart, kheapInitialSize - headerSize, true⟩] := by
  refine ⟨⟨?_, fun _ => by decide⟩, fun u b v _ _ _ =>
    Or.inl (padding_false b.addr)⟩
  rw [List.forall_mem_singleton, padding_false]
  decide

theorem run_request_granted_boot :
    Grants 100 (boot noPages blankState).1 hundredBytes
      [⟨kheapStart, kheapInitialSize - headerSize, true⟩] 0xD0000014 := by
  obtain ⟨bs, htracks, hgranted⟩ := run_request_granted
    (ReflTransGen.refl : GuardedRun noPages (boot noPages blankState)
      (boot noPages blankState))
  obtain rfl := htracks.ok.unique (heapOk_kheapInit noPages blankState)
  exact hgranted 2 100 false _ _ servable_boot kmalloc_hundredBytes

/-- For `kmalloc_a(0xFFFFF100)` the sum of padding and size wraps: the first hole
fits, and the bytes that were requested are not there. -/
theorem not_granted_wrappingSum :
    ¬∀ c, Run noPages (fun _ => True) (boot noPages blankState) c →
      ∀ fuel size align ptr s', size < 2 ^ 32 →
        kmallocInternal noPages fuel size align c.1 = some (ptr, s') →
          ptr ≠ 0 → ∃ bs, HeapOk c.1 bs ∧ Grants size c.1 s' bs ptr := by
  intro hall
  have hcall : (kmallocInternal noPages 4 0xFFFFF100 true
      (kheapInit noPages blankState)).map (fun r => (r.1, r.2.heapEnd)) =
        some (0xD0001000, 0xD0100000) := by
    decide +kernel
  obtain ⟨⟨ptr, s'⟩, hcall, hresult⟩ := Option.map_eq_some_iff.mp hcall
  obtain ⟨rfl, hend⟩ := Prod.mk.inj hresult
  obtain ⟨bs, -, hgrants⟩ := hall _ ReflTransGen.refl 4 0xFFFFF100 true _ s'
    (by norm_num) hcall (by norm_num)
  have hle := hgrants.end_le
  dsimp only at hend hle
  omega

/-! ## What `kfree` is given -/

/-- In every state of a guarded run, a pointer that is not live and can be turned
away is.  A live pointer that is freed twice in a row is turned away the second
time exactly when the block in front of it was not a hole. -/
theorem run_kfree_rejects {σ : Type*} {mapPage : σ → ℕ → σ} {s : State σ}
    {c : Config σ} (hrun : GuardedRun mapPage (boot mapPage s) c) :
    ∃ bs, Tracks c.1 c.2 bs ∧
      (∀ ptr, c.2 ptr = none → Rejectable c.1 bs ptr → Rejects c.1 bs ptr) ∧
      ∀ u b v, bs = u ++ b :: v → b.hole = false →
        ∃ bs', HeapOk (kfree (b.addr + headerSize) c.1) bs' ∧
          (Rejects (kfree (b.addr + headerSize) c.1) bs'
              (b.addr + headerSize) ↔
            ∀ p ∈ u.getLast?, p.hole = false) := by
  obtain ⟨bs, h⟩ := tracks_of_run hrun
  refine ⟨bs, h, fun ptr _ hreject => h.ok.rejects hreject, ?_⟩
  rintro u b v rfl hused
  obtain ⟨w, q, rfl, hq⟩ := exists_eq_append_toList u
  have hlt := h.inside b (by simp)
  have hlast : (w ++ q.toList).getLast? = q := by
    cases q with
    | none => simp [hq rfl]
    | some p => simp
  rw [hlast]
  exact ⟨_, (kfree_spec h.ok hq hused hlt).ok,
    h.ok.rejects_freed_iff hq hused hlt⟩

theorem run_kfree_rejects_boot :
    Rejects (boot noPages blankState).1
      [⟨kheapStart, kheapInitialSize - headerSize, true⟩] 0xD0000014 := by
  obtain ⟨bs, htracks, hrejects, -⟩ := run_kfree_rejects
    (ReflTransGen.refl : GuardedRun noPages (boot noPages blankState)
      (boot noPages blankState))
  obtain rfl := htracks.ok.unique (heapOk_kheapInit noPages blankState)
  refine hrejects 0xD0000014 rfl (Or.inr (Or.inr (Or.inr ⟨by decide, ?_⟩)))
  exact Or.inr ⟨_, List.mem_singleton_self _, rfl, rfl⟩

/-- The heap after two requests of a hundred bytes. -/
def twoHundreds : State Unit :=
  ((kmalloc noPages 4 100 hundredBytes).map Prod.snd).getD blankState

theorem kmalloc_twoHundreds :
    kmalloc noPages 4 100 hundredBytes = some (0xD000008C, twoHundreds) := by
  have hptr : (kmalloc noPages 4 100 hundredBytes).map Prod.fst =
      some 0xD000008C := by
    decide +kernel
  obtain ⟨⟨ptr, s⟩, hcall, rfl⟩ := Option.map_eq_some_iff.mp hptr
  rw [twoHundreds, hcall]
  rfl

theorem twoHundreds_wrapped : twoHundreds.wrapped = false := by
  decide +kernel

/-- The heap once both blocks were given back, the lower one first. -/
def bothFreed : State Unit := kfree 0xD000008C (kfree 0xD0000014 twoHundreds)

theorem run_bothFreed :
    ∃ live, Run noPages (fun _ => True) (boot noPages blankState)
      (bothFreed, live) ∧ live 0xD000008C = none := by
  have hsecond : Step noPages (.kmalloc 100) (hundredBytes, hundredLive)
      (twoHundreds, Function.update hundredLive 0xD000008C (some 100)) :=
    Step.kmalloc (by decide) kmalloc_twoHundreds twoHundreds_wrapped
  have hfirstLive : (Function.update hundredLive 0xD000008C (some 100))
      0xD0000014 = some 100 := by
    rw [Function.update_of_ne (by decide)]
    exact Function.update_self ..
  have hsecondLive : (Function.update (Function.update hundredLive 0xD000008C
      (some 100)) 0xD0000014 none) 0xD000008C = some 100 := by
    rw [Function.update_of_ne (by decide)]
    exact Function.update_self ..
  have hrun := ((run_hundredBytes.tail ⟨_, trivial, hsecond⟩).tail
    ⟨_, trivial, Step.kfree hfirstLive⟩).tail
      ⟨_, trivial, Step.kfree hsecondLive⟩
  exact ⟨_, hrun, Function.update_self ..⟩

/-- The block given back last was merged into the hole in front of it.  Giving it
back again makes that hole larger than the heap. -/
theorem not_rejects_freedTwice :
    ¬∀ c, Run noPages (fun _ => True) (boot noPages blankState) c →
      ∀ ptr, c.2 ptr = none → ∃ bs, HeapOk c.1 bs ∧ Rejects c.1 bs ptr := by
  intro hall
  obtain ⟨live, hrun, hdead⟩ := run_bothFreed
  obtain ⟨bs, hok, hrejects⟩ := hall _ hrun 0xD000008C hdead
  have hsize : (header (kfree 0xD000008C bothFreed).mem kheapStart).size ≠
      (header bothFreed.mem kheapStart).size := by
    decide +kernel
  have hhead : headAddr bs 0 = kheapStart := hok.headAddr_eq.trans hok.start
  rcases @headAddr_mem bs with hzero | ⟨b, hb, haddr⟩
  · rw [hhead] at hzero
    exact absurd hzero (by decide)
  · have hheaders := hrejects.headers b hb
    rw [haddr, hhead] at hheaders
    exact hsize (congrArg Header.size hheaders)

end BabOs.Kheap
