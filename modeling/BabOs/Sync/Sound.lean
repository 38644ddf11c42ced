import BabOs.Sync.Exclusion
import BabOs.Sync.Queues

/-!
# Sound wait queues

The invariant ties the queues to the program counters: a task on a queue
stands inside the function that put it there, whatever interrupt handlers are
on top of it, and a task that an unlock has woken is about to test the mutex
again.  Every step keeps the invariant as long as no blocked task blocks once
more and the scheduler finds a task that can run.
-/

namespace BabOs.Sync

open BabOs.Sched BabOs.Chain

variable {M C L D : Type*}

/-! ## Where a waiting task stands -/

/-- The queue that an activation is on inside `mutex_lock` or `cond_wait`. -/
def Pc.waitsOn : Pc M C L → Option (Queue M C)
  | .lockYield m _ => some (.mutex m)
  | .lockRetry m _ => some (.mutex m)
  | .waitYield v _ _ => some (.cond v)
  | .waitRelock v _ _ => some (.cond v)
  | _ => none

/-- Where the task with these activations stands while it is on the queue.  A
task that is still `running` has not yielded yet; in `cond_wait` interrupts
are enabled by then, so handlers may be on top. -/
def Stands (running : Prop) : Queue M C → List (Frame M C L) → Prop
  | .mutex m, stack => ∃ g fs l, stack = g :: fs ∧ g.irqOn = false ∧
      (running ∧ g.pc = .lockYield m l ∨ ¬ running ∧ g.pc = .lockRetry m l)
  | .cond v, stack => ∃ hs g fs m l, stack = hs ++ g :: fs ∧
      (∀ h ∈ hs, h.pc.waitsOn = none) ∧
      (g.pc = .waitYield v m l ∨ ¬ running ∧ g.pc = .waitRelock v m l)

section Stands

variable {running : Prop} {q : Queue M C} {f f' : Frame M C L}
  {fs : List (Frame M C L)}

/-- The topmost activation is the one that waits, or a handler over one that
waits for a condition. -/
theorem Stands.top_cases (h : Stands running q (f :: fs)) :
    f.pc.waitsOn = some q ∨ f.pc.waitsOn = none ∧ ∃ v, q = .cond v ∧
      ∃ hs g gs m l, fs = hs ++ g :: gs ∧ (∀ h ∈ hs, h.pc.waitsOn = none) ∧
        (g.pc = .waitYield v m l ∨ ¬ running ∧ g.pc = .waitRelock v m l) := by
  cases q with
  | mutex m =>
      obtain ⟨g, gs, l, hstack, -, hpc⟩ := h
      obtain ⟨rfl, rfl⟩ := List.cons.inj hstack
      left
      rcases hpc with ⟨-, hpc⟩ | ⟨-, hpc⟩ <;> rw [hpc, Pc.waitsOn]
  | cond v =>
      obtain ⟨hs, g, gs, m, l, hstack, hhs, hpc⟩ := h
      cases hs with
      | nil =>
          obtain ⟨rfl, rfl⟩ := List.cons.inj hstack
          left
          rcases hpc with hpc | ⟨-, hpc⟩ <;> rw [hpc, Pc.waitsOn]
      | cons x hs =>
          obtain ⟨rfl, rfl⟩ := List.cons.inj hstack
          exact Or.inr ⟨hhs f List.mem_cons_self, v, rfl, hs, g, gs, m, l,
            rfl, fun h hh => hhs h (List.mem_cons_of_mem _ hh), hpc⟩

/-- Some activation of a waiting task waits on the queue. -/
theorem Stands.exists_waitsOn {stack : List (Frame M C L)}
    (h : Stands running q stack) : ∃ f ∈ stack, f.pc.waitsOn = some q := by
  cases q with
  | mutex m =>
      obtain ⟨g, fs, l, rfl, -, hpc⟩ := h
      refine ⟨g, List.mem_cons_self, ?_⟩
      rcases hpc with ⟨-, hpc⟩ | ⟨-, hpc⟩ <;> rw [hpc, Pc.waitsOn]
  | cond v =>
      obtain ⟨hs, g, fs, m, l, rfl, -, hpc⟩ := h
      refine ⟨g, List.mem_append_right _ List.mem_cons_self, ?_⟩
      rcases hpc with hpc | ⟨-, hpc⟩ <;> rw [hpc, Pc.waitsOn]

/-- A handler that stands in its own code may move on. -/
theorem Stands.replace (h : Stands running q (f :: fs))
    (hf : f.pc.waitsOn = none) (hf' : f'.pc.waitsOn = none) :
    Stands running q (f' :: fs) := by
  rcases h.top_cases with hsome | ⟨-, v, rfl, hs, g, gs, m, l, rfl, hhs, hpc⟩
  · rw [hf] at hsome
    cases hsome
  · refine ⟨f' :: hs, g, gs, m, l, rfl, ?_, hpc⟩
    rintro x (_ | ⟨_, hx⟩)
    · exact hf'
    · exact hhs x hx

/-- A handler may come on top where interrupts are enabled. -/
theorem Stands.push (h : Stands running q (f :: fs)) (hirq : f.irqOn = true)
    (hf' : f'.pc.waitsOn = none) : Stands running q (f' :: f :: fs) := by
  cases q with
  | mutex m =>
      obtain ⟨g, gs, l, hstack, hoff, -⟩ := h
      obtain ⟨rfl, rfl⟩ := List.cons.inj hstack
      rw [hirq] at hoff
      cases hoff
  | cond v =>
      obtain ⟨hs, g, gs, m, l, hstack, hhs, hpc⟩ := h
      refine ⟨f' :: hs, g, gs, m, l, by rw [hstack, List.cons_append], ?_, hpc⟩
      rintro x (_ | ⟨_, hx⟩)
      · exact hf'
      · exact hhs x hx

theorem Stands.pop (h : Stands running q (f :: fs))
    (hf : f.pc.waitsOn = none) : Stands running q fs := by
  rcases h.top_cases with hsome | ⟨-, v, rfl, hrest⟩
  · rw [hf] at hsome
    cases hsome
  · exact hrest

/-- A task that stands in its own code, without a handler, is on no queue. -/
theorem Stands.ne_base (h : Stands running q [f]) : f.pc.waitsOn ≠ none := by
  rcases h.top_cases with hsome | ⟨-, v, -, hs, g, gs, m, l, hnil, -⟩
  · rw [hsome]
    exact Option.some_ne_none q
  · simp at hnil

/-- A running task that is about to test a mutex again is on no queue. -/
theorem Stands.retries_eq (h : Stands True q (f :: fs)) :
    retries f.pc = none := by
  cases q with
  | mutex m =>
      obtain ⟨g, gs, l, hstack, -, hpc⟩ := h
      obtain ⟨rfl, rfl⟩ := List.cons.inj hstack
      rcases hpc with ⟨-, hpc⟩ | ⟨hfalse, -⟩
      · rw [hpc]
        rfl
      · exact absurd trivial hfalse
  | cond v =>
      rcases h.top_cases with hsome | ⟨hnone, -⟩
      · obtain ⟨hs, g, gs, m, l, hstack, hhs, hpc⟩ := h
        cases hs with
        | nil =>
            obtain ⟨rfl, rfl⟩ := List.cons.inj hstack
            rcases hpc with hpc | ⟨hfalse, -⟩
            · rw [hpc]
              rfl
            · exact absurd trivial hfalse
        | cons x hs =>
            obtain ⟨rfl, -⟩ := List.cons.inj hstack
            rw [hhs f List.mem_cons_self] at hsome
            cases hsome
      · cases hpc : f.pc <;> simp_all [Pc.waitsOn, retries]

theorem Stands.yield (h : Stands True q (f :: fs)) {pc' : Pc M C L}
    (hpc' : afterYield f.pc = some pc') :
    Stands False q ({ f with pc := pc' } :: fs) := by
  cases q with
  | mutex m =>
      obtain ⟨g, gs, l, hstack, hoff, hpc⟩ := h
      obtain ⟨rfl, rfl⟩ := List.cons.inj hstack
      rcases hpc with ⟨-, hpc⟩ | ⟨hfalse, -⟩
      · rw [hpc, afterYield] at hpc'
        exact ⟨_, fs, l, rfl, hoff,
          Or.inr ⟨not_false, (Option.some.inj hpc').symm⟩⟩
      · exact absurd trivial hfalse
  | cond v =>
      obtain ⟨hs, g, gs, m, l, hstack, hhs, hpc⟩ := h
      rcases hpc with hpc | ⟨hfalse, -⟩
      · cases hs with
        | nil =>
            obtain ⟨rfl, rfl⟩ := List.cons.inj hstack
            rw [hpc, afterYield] at hpc'
            exact ⟨[], _, fs, m, l, rfl, by simp,
              Or.inr ⟨not_false, (Option.some.inj hpc').symm⟩⟩
        | cons x hs =>
            obtain ⟨rfl, rfl⟩ := List.cons.inj hstack
            have hnone := hhs f List.mem_cons_self
            have hnone' : pc'.waitsOn = none := by
              cases hfpc : f.pc <;> rw [hfpc] at hnone hpc' <;>
                simp_all [Pc.waitsOn, afterYield]
              rw [← hpc']
            refine ⟨{ f with pc := pc' } :: hs, g, gs, m, l, rfl, ?_,
              Or.inl hpc⟩
            rintro y (_ | ⟨_, hy⟩)
            · exact hnone'
            · exact hhs y (List.mem_cons_of_mem _ hy)
      · exact absurd trivial hfalse

theorem Stands.preempt (h : Stands True q (f :: fs)) (hirq : f.irqOn = true) :
    Stands False q (f :: fs) := by
  cases q with
  | mutex m =>
      obtain ⟨g, gs, l, hstack, hoff, -⟩ := h
      obtain ⟨rfl, rfl⟩ := List.cons.inj hstack
      rw [hirq] at hoff
      cases hoff
  | cond v =>
      obtain ⟨hs, g, gs, m, l, hstack, hhs, hpc⟩ := h
      refine ⟨hs, g, gs, m, l, hstack, hhs, Or.inl ?_⟩
      rcases hpc with hpc | ⟨hfalse, -⟩
      · exact hpc
      · exact absurd trivial hfalse

end Stands

/-! ## The invariant -/

/-- The queues of `c` hold the blocked tasks of `Q`, and no wake-up is lost. -/
structure Sound (tl : List ℕ) (c : Config M C L D)
    (Q : Queue M C → List ℕ) : Prop where
  waiting : Waiting tl c.k Q
  list : IsChain c.k.tasks.next c.k.tasks.readyQueue tl
  running : ∃ r ∈ tl, c.k.tasks.runningTask = some r
  stands : ∀ q, ∀ t ∈ Q q,
    Stands (c.k.tasks.runningTask = some t) q (c.stack t)
  fifo : ∀ v, (Q (.cond v)).Pairwise fun t u => c.since t < c.since u
  past : ∀ v, ∀ t ∈ Q (.cond v), c.since t < c.clock
  woken : ∀ t m, c.woken t = some m → t ∈ tl ∧ c.k.tasks.Runnable t ∧
    ∃ f fs l, c.stack t = f :: fs ∧ f.irqOn = false ∧ f.pc = .lockRetry m l
  awake : ∀ m, (c.k.mutex m).locked = 0 → Q (.mutex m) ≠ [] →
    ∃ t, c.woken t = some m

/-- What the steps need beyond the invariant: no blocked task blocks or goes
to sleep, and the scheduler finds a task that can run. -/
def Calm (a : Label M C L) (c : Config M C L D) : Prop :=
  match a with
  | .call (.lock m) => (c.k.mutex m).locked ≠ 0 →
      ∀ r, c.k.tasks.runningTask = some r → c.k.tasks.state r ≠ .blocked
  | .call (.wait _ _) | .sleeping =>
      ∀ r, c.k.tasks.runningTask = some r → c.k.tasks.state r ≠ .blocked
  | .yield | .timer =>
      ∃ i, OnChain c.k.tasks.next c.k.tasks.readyQueue i ∧
        c.k.tasks.Runnable i
  | _ => True

section Invariant

variable {tl : List ℕ} {c c' : Config M C L D} {Q Q' : Queue M C → List ℕ}
  {r : ℕ} {f : Frame M C L} {fs : List (Frame M C L)}

theorem Sound.mem_of_running (h : Sound tl c Q)
    (hr : c.k.tasks.runningTask = some r) : r ∈ tl := by
  obtain ⟨x, hx, hrun⟩ := h.running
  exact Option.some.inj (hr.symm.trans hrun) ▸ hx

theorem Sound.stands_running (h : Sound tl c Q)
    (hr : c.k.tasks.runningTask = some r) {q : Queue M C} (hq : r ∈ Q q) :
    Stands True q (c.stack r) := by
  have hstands := h.stands q r hq
  rwa [hr, eq_self] at hstands

/-- A task that is not about to test a mutex has not been woken for one. -/
theorem Sound.woken_eq_none (h : Sound tl c Q) (hf : c.stack r = f :: fs)
    (hpc : ∀ m l, f.pc ≠ .lockRetry m l) : c.woken r = none := by
  cases hw : c.woken r with
  | none => rfl
  | some m =>
      obtain ⟨-, -, g, gs, l, hstack, -, hg⟩ := h.woken r m hw
      rw [hf] at hstack
      obtain ⟨rfl, -⟩ := List.cons.inj hstack
      exact absurd hg (hpc m l)

/-- A step of the running task `r` that is not a switch keeps the invariant if
it does so for the queues and for what concerns `r`.  The tasks on the queues
are the old ones and maybe `r`; the tasks that are newly woken were on the
queue of the mutex. -/
theorem Sound.act (h : Sound tl c Q) (hr : c.k.tasks.runningTask = some r)
    (hlist : Kernel.SameList c.k c'.k) (hwait : Waiting tl c'.k Q')
    (hstack : ∀ t, t ≠ r → c'.stack t = c.stack t)
    (hmem : ∀ q, ∀ t ∈ Q' q, t ≠ r → t ∈ Q q)
    (hself : ∀ q, r ∈ Q' q → Stands True q (c'.stack r))
    (hrun : ∀ t, t ≠ r → c.k.tasks.Runnable t → c'.k.tasks.Runnable t)
    (hfifo : ∀ v, (Q' (.cond v)).Pairwise fun t u => c'.since t < c'.since u)
    (hpast : ∀ v, ∀ t ∈ Q' (.cond v), c'.since t < c'.clock)
    (hwoken : ∀ t m, c'.woken t = some m → t ≠ r ∧
      (c.woken t = some m ∨ t ∈ Q (.mutex m) ∧ c'.k.tasks.Runnable t))
    (hawake : ∀ m, (c'.k.mutex m).locked = 0 → Q' (.mutex m) ≠ [] →
      ∃ t, c'.woken t = some m) : Sound tl c' Q' where
  waiting := hwait
  list := by
    rw [hlist.next, hlist.readyQueue]
    exact h.list
  running := by
    rw [hlist.runningTask]
    exact h.running
  stands := by
    intro q t ht
    rw [hlist.runningTask]
    by_cases htr : t = r
    · subst htr
      rw [hr, eq_self]
      exact hself q ht
    · rw [hstack t htr]
      exact h.stands q t (hmem q t ht htr)
  fifo := hfifo
  past := hpast
  woken := by
    intro t m ht
    obtain ⟨hne, hold | ⟨hmem, hrunnable⟩⟩ := hwoken t m ht
    · obtain ⟨htl, hrunnable, hpc⟩ := h.woken t m hold
      rw [hstack t hne]
      exact ⟨htl, hrun t hne hrunnable, hpc⟩
    · -- a task on the queue of a mutex has yielded, unless it is running
      obtain ⟨g, gs, l, hg, hoff, hpc⟩ := h.stands _ t hmem
      have hnot : c.k.tasks.runningTask ≠ some t := by
        rw [hr]
        exact fun heq => hne (Option.some.inj heq).symm
      refine ⟨h.waiting.listed hmem, hrunnable, g, gs, l, ?_, hoff, ?_⟩
      · rw [hstack t hne, hg]
      · exact (hpc.resolve_left fun hand => hnot hand.1).2
  awake := hawake

theorem Sound.quiet (h : Sound tl c Q) (hr : c.k.tasks.runningTask = some r)
    (hlist : Kernel.SameList c.k c'.k) (hwait : Waiting tl c'.k Q)
    (hstack : ∀ t, t ≠ r → c'.stack t = c.stack t)
    (hself : ∀ q, Stands True q (c.stack r) → Stands True q (c'.stack r))
    (hrun : ∀ t, t ≠ r → c.k.tasks.Runnable t → c'.k.tasks.Runnable t)
    (hwoken : ∀ t, t ≠ r → c'.woken t = c.woken t)
    (hnone : c'.woken r = none)
    (hlocked : ∀ m, (c'.k.mutex m).locked = 0 →
      (c.k.mutex m).locked = 0 ∧ c.woken r ≠ some m)
    (hsince : c'.since = c.since) (hclock : c'.clock = c.clock) :
    Sound tl c' Q := by
  refine h.act hr hlist hwait hstack (fun q t ht _ => ht)
    (fun q hq => hself q (h.stands_running hr hq)) hrun ?_ ?_ ?_ ?_
  · rw [hsince]
    exact h.fifo
  · rw [hsince, hclock]
    exact h.past
  · intro t m ht
    have hne : t ≠ r := by
      rintro rfl
      rw [hnone] at ht
      cases ht
    exact ⟨hne, Or.inl (hwoken t hne ▸ ht)⟩
  · intro m hfree hmem
    obtain ⟨hfree', hmine⟩ := hlocked m hfree
    obtain ⟨t, ht⟩ := h.awake m hfree' hmem
    have hne : t ≠ r := by
      rintro rfl
      exact hmine ht
    exact ⟨t, (hwoken t hne).trans ht⟩

end Invariant

/-! ## The moves that steps are made of -/

section Moves

variable {tl : List ℕ} {c c' : Config M C L D}
  {Q : Queue M C → List ℕ} {r fuel : ℕ} {f : Frame M C L}
  {fs : List (Frame M C L)} {m : M}

theorem locked_eq_of_lockOf {k k' : Kernel M C}
    (h : k'.lockOf m = k.lockOf m) :
    (k'.mutex m).locked = (k.mutex m).locked :=
  congrArg Prod.fst h

theorem runnable_update_ready {k k' : Kernel M C} {w t : ℕ}
    (hstate : k'.tasks.state = Function.update k.tasks.state w .ready)
    (h : k.tasks.Runnable t) : k'.tasks.Runnable t := by
  by_cases ht : t = w
  · subst ht
    exact Or.inl (by rw [hstate, Function.update_self])
  · rw [Tasks.Runnable, hstate, Function.update_of_ne ht]
    exact h

/-- Some tasks of a queue of a condition are taken off it and made ready. -/
theorem Sound.wake (h : Sound tl c Q)
    (hr : c.k.tasks.runningTask = some r) (hnone : c.woken r = none)
    {Q' : Queue M C → List ℕ} (hlist : Kernel.SameList c.k c'.k)
    (hwait : Waiting tl c'.k Q')
    (hsub : ∀ q, (Q' q).Sublist (Q q))
    (hmutex : ∀ m, Q' (.mutex m) = Q (.mutex m))
    (hlock : ∀ m, (c'.k.mutex m).locked = (c.k.mutex m).locked)
    (hstate : ∀ t, c'.k.tasks.state t = c.k.tasks.state t ∨
      c'.k.tasks.state t = .ready)
    (hstack : ∀ t, t ≠ r → c'.stack t = c.stack t)
    (hself : ∀ q, Stands True q (c.stack r) → Stands True q (c'.stack r))
    (hwoken : c'.woken = c.woken) (hsince : c'.since = c.since)
    (hclock : c'.clock = c.clock) : Sound tl c' Q' := by
  refine h.act hr hlist hwait hstack (fun q t ht _ => (hsub q).subset ht)
    (fun q hq => hself q (h.stands_running hr ((hsub q).subset hq)))
    ?_ ?_ ?_ ?_ ?_
  · intro t _ ht
    rcases hstate t with hsame | hready
    · rwa [Tasks.Runnable, hsame]
    · exact Or.inl hready
  · intro v
    rw [hsince]
    exact (h.fifo v).sublist (hsub _)
  · intro v t ht
    rw [hsince, hclock]
    exact h.past v t ((hsub _).subset ht)
  · intro t m ht
    rw [hwoken] at ht
    refine ⟨?_, Or.inl ht⟩
    rintro rfl
    rw [hnone] at ht
    cases ht
  · intro m hfree hmem
    rw [hlock] at hfree
    rw [hmutex] at hmem
    rw [hwoken]
    exact h.awake m hfree hmem

/-- The timer interrupt moves on to a task that is on no queue. -/
theorem Sound.dispatch (h : Sound tl c Q)
    (hr : c.k.tasks.runningTask = some r)
    (hcalm : ∃ i, OnChain c.k.tasks.next c.k.tasks.readyQueue i ∧
      c.k.tasks.Runnable i)
    {tick' : ℕ} {T' : Tasks} (htimer : codeTimer c.k.tick c.k.tasks tick' T')
    (hk : c'.k = { c.k with tasks := T', tick := tick' })
    (hstack : ∀ t, t ≠ r → c'.stack t = c.stack t)
    (hself : ∀ q, Stands True q (c.stack r) → Stands False q (c'.stack r))
    (hnone : c'.stack r ≠ c.stack r → c.woken r = none)
    (hwoken : c'.woken = c.woken) (hsince : c'.since = c.since)
    (hclock : c'.clock = c.clock) : Sound tl c' Q := by
  obtain ⟨fuel, esp, esp', hcallback⟩ := htimer
  obtain ⟨t, hdispatch, hpick⟩ := timerCallback_dispatches hr hcallback
  obtain ⟨htl, hnot⟩ := hpick tl h.list (h.mem_of_running hr)
  obtain ⟨i, hi, hrun⟩ := hcalm
  rw [h.list.onChain_iff] at hi
  have hawake := hnot ⟨i, hi, hrun⟩
  have htQ := h.waiting.not_mem hawake
  have htasks : c'.k.tasks = T' := by rw [hk]
  have hwait : Waiting tl c'.k Q := by
    refine h.waiting.congr ?_ ?_ ?_
    · intro q
      rw [hk]
      cases q <;> rfl
    · rw [htasks]
      exact hdispatch.waitNext
    · intro x _
      rw [htasks, hdispatch.blocked_iff, and_iff_left_iff_imp]
      rintro hx rfl
      exact hawake hx
  refine ⟨hwait, ?_, ⟨t, htl, ?_⟩, ?_, ?_, ?_, ?_, ?_⟩
  · rw [htasks, hdispatch.next, hdispatch.readyQueue]
    exact h.list
  · rw [htasks]
    exact hdispatch.runningTask
  · intro q x hx
    have hxt : x ≠ t := ne_of_mem_of_not_mem hx (htQ q)
    rw [htasks, hdispatch.runningTask]
    have hfalse : (some t = some x) = False :=
      eq_false fun heq => hxt (Option.some.inj heq).symm
    rw [hfalse]
    by_cases hxr : x = r
    · subst hxr
      exact hself q (h.stands_running hr hx)
    · have hstands := h.stands q x hx
      have hrx : (c.k.tasks.runningTask = some x) = False := by
        rw [hr]
        exact eq_false fun heq => hxr (Option.some.inj heq).symm
      rwa [hrx, ← hstack x hxr] at hstands
  · intro v
    rw [hsince]
    exact h.fifo v
  · intro v
    rw [hsince, hclock]
    exact h.past v
  · intro x m hx
    rw [hwoken] at hx
    obtain ⟨hxtl, hxrun, hpc⟩ := h.woken x m hx
    refine ⟨hxtl, ?_, ?_⟩
    · rw [htasks]
      exact hdispatch.runnable x hxrun
    · have hsame : c'.stack x = c.stack x := by
        by_cases hxr : x = r
        · subst hxr
          by_contra hne
          rw [hnone hne] at hx
          cases hx
        · exact hstack x hxr
      rw [hsame]
      exact hpc
  · intro m hfree hmem
    rw [hwoken]
    refine h.awake m ?_ hmem
    rw [hk] at hfree
    exact hfree

variable [DecidableEq M] [DecidableEq C]

/-- The running task puts itself on a queue. -/
theorem Sound.block {q : Queue M C} (h : Sound tl c Q)
    (hr : c.k.tasks.runningTask = some r)
    (hawake : c.k.tasks.state r ≠ .blocked)
    (henqueue : enqueue fuel q r c.k = some c'.k)
    (hstack : ∀ t, t ≠ r → c'.stack t = c.stack t)
    (hself : Stands True q (c'.stack r))
    (hwoken : ∀ t, t ≠ r → c'.woken t = c.woken t)
    (hnone : c'.woken r = none)
    (hlocked : ∀ m, (c.k.mutex m).locked = 0 →
      q ≠ .mutex m ∧ c.woken r ≠ some m)
    (hfifo : ∀ v, (push q r Q (.cond v)).Pairwise
      fun t u => c'.since t < c'.since u)
    (hpast : ∀ v, ∀ t ∈ push q r Q (.cond v), c'.since t < c'.clock) :
    Sound tl c' (push q r Q) := by
  have hnot := h.waiting.not_mem hawake
  refine h.act hr (sameList_enqueue henqueue)
    (h.waiting.enqueue (h.mem_of_running hr) hawake henqueue) hstack
    ?_ ?_ ?_ hfifo hpast ?_ ?_
  · intro q' t ht hne
    exact (mem_push.mp ht).resolve_right fun hand => hne hand.2
  · intro q' hq'
    rcases mem_push.mp hq' with hold | ⟨rfl, -⟩
    · exact absurd hold (hnot q')
    · exact hself
  · intro t hne hrun
    rwa [Tasks.Runnable, state_enqueue henqueue, Function.update_of_ne hne]
  · intro t m ht
    have hne : t ≠ r := by
      rintro rfl
      rw [hnone] at ht
      cases ht
    exact ⟨hne, Or.inl (hwoken t hne ▸ ht)⟩
  · intro m hfree hmem
    rw [locked_eq_of_lockOf (lockOf_enqueue henqueue)] at hfree
    obtain ⟨hq, hmine⟩ := hlocked m hfree
    rw [push, Function.update_of_ne hq.symm] at hmem
    obtain ⟨t, ht⟩ := h.awake m hfree hmem
    have hne : t ≠ r := by
      rintro rfl
      exact hmine ht
    exact ⟨t, (hwoken t hne).trans ht⟩

/-- The running task unlocks a mutex. -/
theorem Sound.unlock (h : Sound tl c Q)
    (hr : c.k.tasks.runningTask = some r) (hnot : r ∉ Q (.mutex m))
    (hnone : c.woken r = none) (hk : c'.k = mutexUnlock m c.k)
    (hstack : ∀ t, t ≠ r → c'.stack t = c.stack t)
    (hself : ∀ q, Stands True q (c.stack r) → Stands True q (c'.stack r))
    (hwoken : c'.woken = (c.noteUnlock m).woken)
    (hsince : c'.since = c.since) (hclock : c'.clock = c.clock) :
    Sound tl c' (pop (.mutex m) Q) := by
  have hcond : ∀ v, pop (.mutex m) Q (.cond v) = Q (.cond v) :=
    fun v => Function.update_of_ne (by simp) _ _
  have hstate := h.waiting.state_mutexUnlock (m := m)
  rw [← hk] at hstate
  have hrun : ∀ t, c.k.tasks.Runnable t → c'.k.tasks.Runnable t := by
    intro t ht
    rcases hstate with ⟨-, hsame⟩ | ⟨w, rest, -, hready⟩
    · rwa [Tasks.Runnable, hsame]
    · exact runnable_update_ready hready ht
  refine h.act hr (hk ▸ sameList_mutexUnlock)
    (hk ▸ h.waiting.mutexUnlock) hstack (fun q t ht _ => mem_of_mem_pop ht)
    (fun q hq => hself q (h.stands_running hr (mem_of_mem_pop hq)))
    (fun t _ => hrun t) ?_ ?_ ?_ ?_
  · intro v
    rw [hcond, hsince]
    exact h.fifo v
  · intro v
    rw [hcond, hsince, hclock]
    exact h.past v
  · intro t m' ht
    rw [hwoken, Config.noteUnlock] at ht
    have hold : c.woken t = some m' → t ≠ r ∧
        (c.woken t = some m' ∨ t ∈ Q (.mutex m') ∧
          c'.k.tasks.Runnable t) := by
      intro hold
      refine ⟨?_, Or.inl hold⟩
      rintro rfl
      rw [hnone] at hold
      cases hold
    rcases hstate with ⟨hnil, -⟩ | ⟨w, rest, hq, hready⟩
    · have hhead : (c.k.mutex m).waiters = none := by
        rw [← Kernel.head, h.waiting.head_eq, hnil, List.head?_nil]
      simp only [hhead] at ht
      exact hold ht
    · have hhead : (c.k.mutex m).waiters = some w :=
        (h.waiting.head_cons hq).1
      simp only [hhead] at ht
      by_cases htw : t = w
      · subst htw
        rw [Function.update_self, Option.some.injEq] at ht
        subst ht
        have hmem : t ∈ Q (.mutex m) := hq ▸ List.mem_cons_self
        refine ⟨?_, Or.inr ⟨hmem, Or.inl ?_⟩⟩
        · rintro rfl
          exact hnot hmem
        · rw [hready, Function.update_self]
      · rw [Function.update_of_ne htw] at ht
        exact hold ht
  · intro m' hfree hmem
    by_cases hm : m' = m
    · subst hm
      rcases hstate with ⟨hnil, -⟩ | ⟨w, rest, hq, -⟩
      · simp [pop, hnil] at hmem
      · have hhead : (c.k.mutex m').waiters = some w :=
          (h.waiting.head_cons hq).1
        refine ⟨w, ?_⟩
        rw [hwoken, Config.noteUnlock]
        simp only [hhead, Function.update_self]
    · rw [hk, locked_eq_of_lockOf (lockOf_mutexUnlock_of_ne hm)] at hfree
      have hq : (Queue.mutex m' : Queue M C) ≠ .mutex m :=
        fun heq => hm (Queue.mutex.inj heq)
      rw [pop, Function.update_of_ne hq] at hmem
      obtain ⟨t, ht⟩ := h.awake m' hfree hmem
      refine ⟨t, ?_⟩
      rw [hwoken, Config.noteUnlock]
      cases hhead : (c.k.mutex m).waiters with
      | none => exact ht
      | some w =>
          have htw : t ≠ w := by
            rintro rfl
            have hblocked : c.k.tasks.state t = .blocked := by
              refine h.waiting.state_eq (q := .mutex m) ?_
              have hfirst := h.waiting.head_eq (.mutex m)
              rw [Kernel.head, hhead] at hfirst
              exact List.mem_of_mem_head? hfirst.symm
            have hrunnable := (h.woken t m' ht).2.1
            simp [Tasks.Runnable, hblocked] at hrunnable
          simp only [Function.update_of_ne htw]
          exact ht

omit [DecidableEq M] [DecidableEq C] in
theorem Sound.data (h : Sound tl c Q) (d : D) :
    Sound tl { c with data := d } Q :=
  ⟨h.waiting, h.list, h.running, h.stands, h.fifo, h.past, h.woken, h.awake⟩

/-- A test of a mutex by a task that is on no queue if the mutex is locked. -/
theorem Sound.lockStep {l : L} (h : Sound tl c Q)
    (hr : c.k.tasks.runningTask = some r) (hf : c.stack r = f :: fs)
    (hplain : ∀ q, Stands True q (f :: fs) → f.pc.waitsOn = none)
    (hmine : ∀ m', c.woken r = some m' → m' = m)
    (hawake : (c.k.mutex m).locked ≠ 0 → c.k.tasks.state r ≠ .blocked)
    (htest : lockStep fuel m r l f fs c = some c') :
    ∃ Q', Sound tl c' Q' := by
  rw [Sync.lockStep] at htest
  split at htest
  · cases htest
  next k hk =>
    cases htest
    rcases mutexTest_eq_some hk with ⟨-, hfree, rfl⟩ | ⟨hb, -⟩
    · refine ⟨Q, h.quiet hr ⟨rfl, rfl, rfl⟩ ?_ ?_ ?_ ?_ ?_ ?_ ?_ rfl rfl⟩
      · exact h.waiting.congr (fun q => Kernel.head_setMutex rfl) rfl
          fun t _ => Iff.rfl
      · exact fun t ht => Function.update_of_ne ht _ _
      · intro q hq
        rw [hf] at hq
        dsimp only
        rw [Function.update_self]
        exact hq.replace (hplain q hq) rfl
      · exact fun t _ ht => ht
      · exact fun t ht => Function.update_of_ne ht _ _
      · exact Function.update_self _ _ _
      · intro m' hfree'
        by_cases hm : m' = m
        · subst hm
          simp [Kernel.setMutex] at hfree'
        · refine ⟨?_, fun hw => hm (hmine m' hw)⟩
          simpa [Kernel.setMutex, hm] using hfree'
    · cases hb
  next k hk =>
    cases htest
    rcases mutexTest_eq_some hk with ⟨hb, -⟩ | ⟨-, hlocked, henqueue⟩
    · cases hb
    · have hcond : ∀ v, push (.mutex m) r Q (.cond v) = Q (.cond v) :=
        fun v => Function.update_of_ne (by simp) _ _
      refine ⟨push (.mutex m) r Q, h.block hr (hawake hlocked) henqueue
        ?_ ?_ ?_ ?_ ?_ ?_ ?_⟩
      · exact fun t ht => Function.update_of_ne ht _ _
      · dsimp only
        rw [Function.update_self]
        exact ⟨_, fs, l, rfl, rfl, Or.inl ⟨trivial, rfl⟩⟩
      · exact fun t ht => Function.update_of_ne ht _ _
      · exact Function.update_self _ _ _
      · intro m' hfree
        have hm : m' ≠ m := fun heq => hlocked (heq ▸ hfree)
        exact ⟨fun heq => hm (Queue.mutex.inj heq).symm,
          fun hw => hm (hmine m' hw)⟩
      · intro v
        rw [hcond]
        exact h.fifo v
      · intro v
        rw [hcond]
        exact h.past v

/-- The part of `cond_wait` that puts the running task on the queue of the
condition, where it is the one that came last. -/
theorem Sound.condEnqueue {v : C} {l : L} {k₁ : Kernel M C} {g : Frame M C L}
    (h : Sound tl c Q) (hr : c.k.tasks.runningTask = some r)
    (hawake : c.k.tasks.state r ≠ .blocked) (hnone : c.woken r = none)
    (henqueue : enqueue fuel (.cond v) r c.k = some k₁) (d : D)
    (fs : List (Frame M C L)) (hg : g.pc = .waitYield v m l) :
    Sound tl
      { c.setStack r (g :: fs) with
        k := k₁
        data := d
        since := Function.update c.since r c.clock
        clock := c.clock + 1 } (push (.cond v) r Q) := by
  have hnot := h.waiting.not_mem hawake
  have hold : ∀ v', ∀ t ∈ Q (.cond v'),
      Function.update c.since r c.clock t = c.since t := fun v' t ht =>
    Function.update_of_ne (ne_of_mem_of_not_mem ht (hnot _)) _ _
  refine h.block hr hawake henqueue
    (fun t ht => Function.update_of_ne ht _ _) ?_ (fun t _ => rfl) hnone
    (fun m _ => ⟨by simp, by rw [hnone]; simp⟩) ?_ ?_
  · dsimp only [Config.setStack]
    rw [Function.update_self]
    exact ⟨[], g, fs, m, l, rfl, by simp, Or.inl hg⟩
  · intro v'
    have hfifo : (Q (.cond v')).Pairwise fun t u =>
        Function.update c.since r c.clock t <
          Function.update c.since r c.clock u := by
      refine (h.fifo v').imp_of_mem fun ht hu hlt => ?_
      rwa [hold v' _ ht, hold v' _ hu]
    by_cases hv : v' = v
    · subst hv
      rw [push, Function.update_self, List.pairwise_append]
      refine ⟨hfifo, List.pairwise_singleton _ _, ?_⟩
      intro t ht u hu
      dsimp only
      rw [List.mem_singleton.mp hu, Function.update_self, hold v' t ht]
      exact h.past v' t ht
    · rw [push, Function.update_of_ne fun heq => hv (Queue.cond.inj heq)]
      exact hfifo
  · intro v' t ht
    dsimp only
    rcases mem_push.mp ht with ht | ⟨-, rfl⟩
    · rw [hold v' t ht]
      exact Nat.lt_succ_of_lt (h.past v' t ht)
    · rw [Function.update_self]
      exact Nat.lt_succ_self _

end Moves

/-! ## Steps -/

section Steps

variable {P : Program M C L D} {tl : List ℕ} {a : Label M C L}
  {c c' : Config M C L D} {Q : Queue M C → List ℕ} {m : M} {r fuel : ℕ}
  {f f' : Frame M C L} {fs : List (Frame M C L)}

theorem Pc.ne_lockRetry_of_waitsOn {pc : Pc M C L} (h : pc.waitsOn = none)
    (m : M) (l : L) : pc ≠ .lockRetry m l := by
  rintro rfl
  cases h

theorem waitsOn_user {pc : Pc M C L} {l : L} (h : pc = .user l) :
    pc.waitsOn = none := by
  rw [h]
  rfl

/-- No handler comes where a task was woken for a mutex. -/
theorem Sound.woken_of_irqOn (h : Sound tl c Q) (hf : c.stack r = f :: fs)
    (hirq : f.irqOn = true) : c.woken r = none := by
  cases hw : c.woken r with
  | none => rfl
  | some m =>
      obtain ⟨-, -, g, gs, l, hstack, hoff, -⟩ := h.woken r m hw
      rw [hf] at hstack
      obtain ⟨rfl, -⟩ := List.cons.inj hstack
      rw [hirq] at hoff
      cases hoff

/-- What a step of the topmost activation `f` needs when it stands in its own
code before and after. -/
theorem stands_replace {r : ℕ} {f f' : Frame M C L} {fs : List (Frame M C L)}
    (hf : c.stack r = f :: fs) (hplain : f.pc.waitsOn = none)
    (hplain' : f'.pc.waitsOn = none) (q : Queue M C)
    (h : Stands True q (c.stack r)) :
    Stands True q (Function.update c.stack r (f' :: fs) r) := by
  rw [hf] at h
  rw [Function.update_self]
  exact h.replace hplain hplain'

/-- A step that leaves the queues and the mutexes alone. -/
theorem Sound.still (h : Sound tl c Q) (hr : c.k.tasks.runningTask = some r)
    (hf : c.stack r = f :: fs) (hnone : c.woken r = none) {k : Kernel M C}
    {stack : List (Frame M C L)} {d : D} (hlist : Kernel.SameList c.k k)
    (hwait : Waiting tl k Q) (hmutex : k.mutex = c.k.mutex)
    (hrun : ∀ t, t ≠ r → c.k.tasks.Runnable t → k.tasks.Runnable t)
    (hself : ∀ q, Stands True q (f :: fs) → Stands True q stack) :
    Sound tl { c.setStack r stack with k := k, data := d } Q := by
  refine h.quiet hr hlist hwait (fun t ht => Function.update_of_ne ht _ _) ?_
    hrun (fun t _ => rfl) hnone (fun m hm => ?_) rfl rfl
  · intro q hq
    dsimp only [Config.setStack]
    rw [Function.update_self]
    exact hself q (hf ▸ hq)
  · refine ⟨hmutex ▸ hm, ?_⟩
    rw [hnone]
    exact (Option.some_ne_none m).symm

theorem Sound.notMem_mutex {l : L} (h : Sound tl c Q)
    (hr : c.k.tasks.runningTask = some r) (hf : c.stack r = f :: fs)
    (hpc : f.pc = .user l) : r ∉ Q (.mutex m) := by
  intro hmem
  rcases (hf ▸ h.stands_running hr hmem).top_cases with hsome | ⟨-, v, hv, -⟩
  · rw [waitsOn_user hpc] at hsome
    cases hsome
  · cases hv

variable [DecidableEq M] [DecidableEq C]

theorem Sound.retry {l : L} (h : Sound tl c Q)
    (hr : c.k.tasks.runningTask = some r) (hf : c.stack r = f :: fs)
    (hpc : retries f.pc = some (m, l))
    (htest : Sync.lockStep fuel m r l f fs c = some c') :
    ∃ Q', Sound tl c' Q' := by
  have hnot : ∀ q, ¬ Stands True q (f :: fs) := by
    intro q hq
    rw [hq.retries_eq] at hpc
    cases hpc
  refine h.lockStep hr hf (fun q hq => absurd hq (hnot q)) ?_ ?_ htest
  · intro m' hm'
    obtain ⟨-, -, g, gs, l', hstack, -, hg⟩ := h.woken r m' hm'
    rw [hf] at hstack
    obtain ⟨rfl, -⟩ := List.cons.inj hstack
    rw [hg, retries] at hpc
    cases hpc
    rfl
  · intro _ hblocked
    obtain ⟨q, hq⟩ := (h.waiting.blocked r (h.mem_of_running hr)).mp hblocked
    exact hnot q (hf ▸ h.stands_running hr hq)

/-- The task is put on the queue of the condition, and then the mutex is
unlocked. -/
theorem Sound.wait {v : C} {l : L} {d : D} {k : Kernel M C}
    (h : Sound tl c Q) (hr : c.k.tasks.runningTask = some r)
    (hawake : c.k.tasks.state r ≠ .blocked) (hnone : c.woken r = none)
    (hwait : condWaitEnter fuel v m r c.k = some k) :
    ∃ Q', Sound tl
      { (c.noteUnlock m).setStack r
          ({ pc := .waitYield v m l, irqOn := true,
             holds := f.holds.filter (· ≠ m) } :: fs) with
        k := k
        data := d
        since := Function.update c.since r c.clock
        clock := c.clock + 1 } Q' := by
  have hnot := h.waiting.not_mem hawake
  rw [condWaitEnter] at hwait
  split at hwait
  · cases hwait
  next k₁ henqueue =>
    cases hwait
    have hblock := h.condEnqueue hr hawake hnone henqueue d
      (g := { pc := .waitYield v m l, irqOn := true,
              holds := f.holds.filter (· ≠ m) }) fs rfl
    refine ⟨_, hblock.unlock ((sameList_enqueue henqueue).runningTask.trans
      hr) ?_ hnone rfl (fun t _ => rfl) (fun q hq => hq) ?_ rfl rfl⟩
    · intro hmem
      exact (mem_push.mp hmem).elim (hnot _) fun hand => by simp at hand
    · have hhead : (k₁.mutex m).waiters = (c.k.mutex m).waiters := by
        have hnew := hblock.waiting.head_eq (.mutex m)
        rw [push, Function.update_of_ne (by simp)] at hnew
        exact hnew.trans (h.waiting.head_eq (.mutex m)).symm
      simp only [Config.noteUnlock, Config.setStack, hhead]

theorem Sound.wakeCond {v : C} {l : List ℕ} {k : Kernel M C} {d : D}
    (h : Sound tl c Q) (hr : c.k.tasks.runningTask = some r)
    (hf : c.stack r = f :: fs) (hplain : f.pc.waitsOn = none)
    (hnone : c.woken r = none) (hl : l.Sublist (Q (.cond v)))
    (hlist : Kernel.SameList c.k k)
    (hwait : Waiting tl k (Function.update Q (.cond v) l))
    (hlock : ∀ m, (k.mutex m).locked = (c.k.mutex m).locked)
    (hstate : ∀ t, k.tasks.state t = c.k.tasks.state t ∨
      k.tasks.state t = .ready) (hplain' : f'.pc.waitsOn = none) :
    Sound tl { c.setStack r (f' :: fs) with k := k, data := d }
      (Function.update Q (.cond v) l) := by
  refine h.wake hr hnone hlist hwait ?_ (fun m => Function.update_of_ne
    (by simp) _ _) hlock hstate (fun t ht => Function.update_of_ne ht _ _)
    (stands_replace hf hplain hplain') rfl rfl rfl
  intro q
  by_cases hq : q = .cond v
  · subst hq
    rw [Function.update_self]
    exact hl
  · rw [Function.update_of_ne hq]

theorem Step.sound (h : Sound tl c Q) (hcalm : Calm a c)
    (hstep : Step P codeTimer a c c') : ∃ Q', Sound tl c' Q' := by
  have hunwoken : ∀ {r : ℕ} {f : Frame M C L} {fs : List (Frame M C L)},
      c.stack r = f :: fs → f.pc.waitsOn = none → c.woken r = none :=
    fun hf hplain => h.woken_eq_none hf (Pc.ne_lockRetry_of_waitsOn hplain)
  cases hstep with
  | skip hr hf hpc hmove =>
      exact ⟨Q, h.still hr hf (hunwoken hf (waitsOn_user hpc))
        (Kernel.SameList.refl _) h.waiting rfl (fun t _ ht => ht)
        fun q hq => hq.replace (waitsOn_user hpc) rfl⟩
  | @lock _ _ r f fs l l' d' m fuel hr hf hpc hmove htest =>
      refine (h.data d').lockStep hr hf (fun q _ => waitsOn_user hpc) ?_
        (fun hlocked => hcalm hlocked r hr) htest
      intro m' hm'
      cases (hunwoken hf (waitsOn_user hpc)).symm.trans hm'
  | retry hr hf hpc htest => exact h.retry hr hf hpc htest
  | unlock hr hf hpc hmove =>
      exact ⟨_, h.unlock hr (h.notMem_mutex hr hf hpc)
        (hunwoken hf (waitsOn_user hpc)) rfl
        (fun t ht => Function.update_of_ne ht _ _)
        (stands_replace hf (waitsOn_user hpc) rfl) rfl rfl rfl⟩
  | wait hr hf hpc hmove hwait =>
      exact h.wait hr (hcalm _ hr) (hunwoken hf (waitsOn_user hpc)) hwait
  | signal hr hf hpc hmove =>
      exact ⟨_, h.wakeCond hr hf (waitsOn_user hpc)
        (hunwoken hf (waitsOn_user hpc)) (List.tail_sublist _)
        sameList_wakeFirst h.waiting.wakeFirst
        (fun m => locked_eq_of_lockOf (lockOf_wakeFirst _))
        h.waiting.state_wakeFirst_cases rfl⟩
  | broadcast hr hf hpc hmove hcast =>
      obtain ⟨hwait, hstate⟩ := h.waiting.condBroadcast hcast
      refine ⟨_, h.wakeCond hr hf (waitsOn_user hpc)
        (hunwoken hf (waitsOn_user hpc)) (List.nil_sublist _)
        (sameList_condBroadcast hcast) hwait
        (fun m => locked_eq_of_lockOf (lockOf_condBroadcast hcast))
        (fun t => ?_) rfl⟩
      rw [hstate t]
      split_ifs
      · exact Or.inr rfl
      · exact Or.inl rfl
  | sleep hr hf hpc hmove =>
      refine ⟨Q, h.still hr hf (hunwoken hf (waitsOn_user hpc))
        Kernel.sameList_setSleepTicks ?_ rfl ?_
        fun q hq => hq.replace (waitsOn_user hpc) rfl⟩
      · exact h.waiting.congr (fun q => Kernel.head_setSleepTicks)
          Kernel.waitNext_setSleepTicks
          fun t _ => by simp only [Kernel.state_setSleepTicks]
      · intro t _ ht
        simpa only [Tasks.Runnable, Kernel.state_setSleepTicks] using ht
  | @sleepMark _ r f fs l hr hf hpc =>
      have hplain : f.pc.waitsOn = none := by
        rw [hpc]
        rfl
      refine ⟨Q, h.still hr hf (hunwoken hf hplain) Kernel.sameList_setState ?_
        rfl ?_ fun q hq => hq.replace hplain rfl⟩
      · refine h.waiting.congr (fun q => Kernel.head_setState)
          Kernel.waitNext_setState fun t _ => ?_
        simp only [Kernel.state_setState]
        by_cases ht : t = r
        · subst ht
          simp [hcalm t hr]
        · rw [Function.update_of_ne ht]
      · intro t ht hrun
        rwa [Tasks.Runnable, Kernel.state_setState, Function.update_of_ne ht]
  | @yield _ r f fs pc' tick' T' hr hf hpc htimer =>
      refine ⟨Q, h.dispatch hr hcalm htimer rfl
        (fun t ht => Function.update_of_ne ht _ _) ?_ ?_ rfl rfl rfl⟩
      · intro q hq
        rw [hf] at hq
        have hyield := hq.yield hpc
        simpa [Config.setStack] using hyield
      · intro _
        refine h.woken_eq_none hf ?_
        rintro m l hretry
        rw [hretry, afterYield] at hpc
        · cases hpc
        all_goals simp
  | timer hr hf hirq htimer =>
      refine ⟨Q, h.dispatch hr hcalm htimer rfl (fun t _ => rfl) ?_
        (fun hne => absurd rfl hne) rfl rfl rfl⟩
      intro q hq
      rw [hf] at hq
      simp only [hf]
      exact hq.preempt hirq
  | irqDone hr hf hirq hdata => exact ⟨Q, h.data _⟩
  | irqEnter hr hf hirq hdata =>
      exact ⟨Q, h.still hr hf (h.woken_of_irqOn hf hirq)
        (Kernel.SameList.refl _) h.waiting rfl (fun t _ ht => ht)
        fun q hq => hq.push hirq rfl⟩
  | iret hr hf hpc hmove =>
      exact ⟨Q, h.still hr hf (hunwoken hf (waitsOn_user hpc))
        (Kernel.SameList.refl _) h.waiting rfl (fun t _ ht => ht)
        fun q hq => hq.pop (waitsOn_user hpc)⟩

end Steps

end BabOs.Sync
