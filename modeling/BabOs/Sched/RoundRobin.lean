import BabOs.Sched.Schedule

/-!
# The order of the scheduler

The tasks take turns in the order of the task list.  A position of the list
lies ahead of the running task until the scheduler reaches it, so no task is
dispatched twice past another one that was ready all the time.
-/

namespace BabOs.Sched

open BabOs.Chain

/-! ## Positions on a circle -/

/-- On the way round from position `i` to position `k` one passes `j`; from
`k` to `k` one passes every other position. -/
def Between (i j k : ℕ) : Prop :=
  if i < k then i < j ∧ j < k else i < j ∨ j < k

theorem between_self {j k : ℕ} (h : j ≠ k) : Between k j k := by
  rw [Between, if_neg (lt_irrefl k)]
  omega

/-- One step round the circle either arrives at `j` or leaves it ahead. -/
theorem Between.step {i j k n : ℕ} (h : Between i j k) (hj : j < n) :
    let i' := if i + 1 < n then i + 1 else 0
    i' = j ∨ i' ≠ k ∧ Between i' j k := by
  simp only [Between] at h ⊢
  split_ifs at h ⊢ <;> omega

section Positions

variable {T T' : Tasks} {tl : List ℕ} {x y t : ℕ} {i j k : ℕ}

/-- The task that the loop looks at after the one at position `i`. -/
theorem succ_eq_getElem? (hchain : IsChain T.next T.readyQueue tl)
    (hx : tl[i]? = some x) :
    succ T x = tl[if i + 1 < tl.length then i + 1 else 0]? := by
  rw [succ, hchain.next_eq_getElem? hx]
  split_ifs with hlast
  · rw [List.getElem?_eq_getElem hlast, Option.some_or]
  · rw [List.getElem?_eq_none (Nat.le_of_not_lt hlast), Option.none_or,
      hchain.head_eq, List.head?_eq_getElem?]

/-- The loop of `schedule` does not run past a task that can run. -/
theorem scheduleLoop_between {start fuel : ℕ}
    (hchain : IsChain T.next T.readyQueue tl) (hx : tl[i]? = some x)
    (ht : tl[j]? = some t) (hrun : T.Runnable t) (hahead : Between i j k)
    (h : scheduleLoop T start fuel x = some y) :
    y = t ∨ ∃ i', tl[i']? = some y ∧ i' ≠ k ∧ Between i' j k := by
  induction fuel generalizing x i with
  | zero => cases h
  | succ fuel ih =>
      have hstep := hahead.step (List.getElem?_eq_some_iff.mp ht).1
      have hsucc := succ_eq_getElem? hchain hx
      rw [succ] at hsucc
      dsimp only at hstep
      generalize (if i + 1 < tl.length then i + 1 else 0) = i' at hstep hsucc
      rw [scheduleLoop, hsucc] at h
      split at h
      · cases h
      next z hz =>
        rcases hstep with rfl | ⟨hne, hahead'⟩
        · obtain rfl : z = t := Option.some.inj (hz.symm.trans ht)
          rw [if_pos hrun] at h
          exact Or.inl (Option.some.inj h).symm
        · split_ifs at h with hzrun hstart
          · obtain rfl := Option.some.inj h
            exact Or.inr ⟨i', hz, hne, hahead'⟩
          · obtain rfl := Option.some.inj h
            exact Or.inr ⟨i', hz, hne, hahead'⟩
          · exact ih hz hahead' h

end Positions

/-! ## Runs -/

/-- What may happen to the tasks between two calls of `schedule`: the running
task blocks, sets its sleep ticks or goes to sleep, a task is made ready, the
links of the wait queues change, the sleep ticks are counted down, or a task
is created, for which `kmalloc` returns an address that no task has. -/
inductive Change : Tasks → Tasks → Prop
  | block {T : Tasks} {r : ℕ} (hr : T.runningTask = some r) :
      Change T (T.setState r .blocked)
  | sleepTicks {T : Tasks} {r ticks : ℕ} (hr : T.runningTask = some r) :
      Change T (T.setTask r { T.task r with sleepTicks := ticks })
  | sleep {T : Tasks} {r : ℕ} (hr : T.runningTask = some r) :
      Change T (T.setState r .sleeping)
  | ready {T : Tasks} (t : ℕ) : Change T (T.setState t .ready)
  | link {T : Tasks} (t : ℕ) (next : Option ℕ) :
      Change T (T.setTask t { T.task t with waitNext := next })
  | age {T T' : Tasks} {fuel : ℕ}
      (hage : tasksUpdateSleepTicks fuel T = some T') : Change T T'
  | create {T T' : Tasks} {fuel t stackBase : ℕ}
      (hfresh : ¬ OnChain T.next T.readyQueue t)
      (hcreate : taskCreate fuel t stackBase T = some T') : Change T T'

/-- Runs with the calls of `schedule` they make: the tasks before the call and
the task that is dispatched. -/
inductive Run : Tasks → List (Tasks × ℕ) → Tasks → Prop
  | refl (T : Tasks) : Run T [] T
  | change {T T' T'' : Tasks} {calls : List (Tasks × ℕ)}
      (hrun : Run T calls T') (hchange : Change T' T'') : Run T calls T''
  | call {T T' T'' : Tasks} {calls : List (Tasks × ℕ)}
      {fuel esp esp' t : ℕ} (hrun : Run T calls T')
      (hcall : schedule fuel esp T' = some (esp', T''))
      (ht : T''.runningTask = some t) : Run T (calls ++ [(T', t)]) T''

/-- The running task is on the task list, and no other task of it is in the
running state. -/
structure ListOk (T : Tasks) (tl : List ℕ) : Prop where
  chain : IsChain T.next T.readyQueue tl
  running : ∃ r ∈ tl, T.runningTask = some r
  only : ∀ t ∈ tl, T.state t = .running → T.runningTask = some t

section Steps

variable {T T' : Tasks} {tl : List ℕ}

/-- The task list is as it was, the running task too, and no task has entered
the running state. -/
structure Keeps (T T' : Tasks) : Prop where
  next : T'.next = T.next
  readyQueue : T'.readyQueue = T.readyQueue
  runningTask : T'.runningTask = T.runningTask
  state : ∀ t, T'.state t = .running → T.state t = .running

theorem Keeps.listOk (h : Keeps T T') (hok : ListOk T tl) : ListOk T' tl := by
  refine ⟨?_, ?_, fun t ht hst => ?_⟩
  · rw [h.next, h.readyQueue]
    exact hok.chain
  · rw [h.runningTask]
    exact hok.running
  · rw [h.runningTask]
    exact hok.only t ht (h.state t hst)

theorem keeps_setTask {t : ℕ} {x : Task} (hnext : x.next = (T.task t).next)
    (hstate : x.state = .running → (T.task t).state = .running) :
    Keeps T (T.setTask t x) := by
  refine ⟨?_, rfl, rfl, fun y hy => ?_⟩
  · funext y
    by_cases hyt : y = t
    · subst hyt
      simp [Tasks.next, Tasks.setTask, hnext]
    · simp [Tasks.next, Tasks.setTask, hyt]
  · by_cases hyt : y = t
    · subst hyt
      refine hstate ?_
      simpa [Tasks.state, Tasks.setTask] using hy
    · simpa [Tasks.state, Tasks.setTask, hyt] using hy

theorem keeps_setState {t : ℕ} {st : TaskState} (hst : st ≠ .running) :
    Keeps T (T.setState t st) :=
  keeps_setTask rfl fun h => absurd h hst

theorem AllAged.keeps (h : AllAged T T') : Keeps T T' := by
  refine ⟨h.next, h.readyQueue, h.runningTask, fun t ht => ?_⟩
  rcases (h.task t).state with hst | ⟨-, hst⟩
  · rwa [Tasks.state, ← hst]
  · rw [Tasks.state, hst] at ht
    cases ht

/-- `task_create` appends the new task, which is ready. -/
theorem taskCreate_listOk {fuel t stackBase : ℕ} (hok : ListOk T tl)
    (hfresh : t ∉ tl) (h : taskCreate fuel t stackBase T = some T') :
    ListOk T' (tl ++ [t]) ∧ T'.runningTask = T.runningTask ∧
      T'.readyQueue = T.readyQueue ∧ T'.state t = .ready ∧
      ∀ x ∈ tl, T'.state x = T.state x := by
  have hcreate := taskCreate_creates hok.chain hfresh h
  have hstate : ∀ x ∈ tl, T'.state x = T.state x := fun x hx =>
    hcreate.state_of_ne x (ne_of_mem_of_not_mem hx hfresh)
  refine ⟨⟨hcreate.chain, ?_, ?_⟩, hcreate.runningTask, hcreate.readyQueue,
    hcreate.state_self, hstate⟩
  · obtain ⟨r, hr, hrun⟩ := hok.running
    exact ⟨r, List.mem_append_left _ hr, hcreate.runningTask.trans hrun⟩
  · intro x hx hst
    rw [hcreate.runningTask]
    rcases List.mem_append.mp hx with hx | hx
    · rw [hstate x hx] at hst
      exact hok.only x hx hst
    · obtain rfl := List.mem_singleton.mp hx
      rw [hcreate.state_self] at hst
      cases hst

/-- Whatever happens between two calls, the list only grows at its end. -/
theorem Change.listOk (h : Change T T') (hok : ListOk T tl) :
    T'.runningTask = T.runningTask ∧
      ∃ new, ListOk T' (tl ++ new) := by
  have hkeeps : Keeps T T' →
      T'.runningTask = T.runningTask ∧ ∃ new, ListOk T' (tl ++ new) :=
    fun hkeeps => ⟨hkeeps.runningTask, [],
      (List.append_nil tl).symm ▸ hkeeps.listOk hok⟩
  cases h with
  | block hr => exact hkeeps (keeps_setState TaskState.noConfusion)
  | sleepTicks hr => exact hkeeps (keeps_setTask rfl id)
  | sleep hr => exact hkeeps (keeps_setState TaskState.noConfusion)
  | ready t => exact hkeeps (keeps_setState TaskState.noConfusion)
  | link t next => exact hkeeps (keeps_setTask rfl id)
  | age hage => exact hkeeps (tasksUpdateLoop_aged hage).keeps
  | create hfresh hcreate =>
      rw [hok.chain.onChain_iff] at hfresh
      obtain ⟨hok', hrun, -⟩ := taskCreate_listOk hok hfresh hcreate
      exact ⟨hrun, _, hok'⟩

/-- `schedule` moves on to a task of the list and puts it in the running
state; no other task stays there. -/
theorem schedule_listOk {fuel esp esp' : ℕ} (hok : ListOk T tl)
    (h : schedule fuel esp T = some (esp', T')) :
    ListOk T' tl ∧ ∃ t ∈ tl, T'.runningTask = some t ∧
      T'.state t = .running := by
  obtain ⟨r, hr, hrun⟩ := hok.running
  obtain ⟨t, hloop, rfl, -⟩ := schedule_eq_some hrun h
  have hsusp := suspend_suspends T r esp
  have hchain : IsChain (suspend T r esp).next (suspend T r esp).readyQueue
      tl := by
    rw [hsusp.next, hsusp.readyQueue]
    exact hok.chain
  have ht : t ∈ tl := scheduleLoop_mem hchain hr hloop
  refine ⟨⟨?_, ⟨t, ht, rfl⟩, fun x hx hst => ?_⟩, t, ht, rfl,
    Tasks.state_setState_self⟩
  · rw [Tasks.next_setState]
    exact hchain
  · by_contra hne
    have hxt : x ≠ t := fun heq => hne (heq ▸ rfl)
    rw [Tasks.state_setState_of_ne hxt] at hst
    have hst' : (suspend T r esp).state x = .running := hst
    rcases hsusp.state x with hsame | ⟨-, -, hready⟩
    · have hxr : x = r := by
        have hx' := hok.only x hx (hsame ▸ hst')
        rw [hrun] at hx'
        exact (Option.some.inj hx').symm
      subst hxr
      rw [suspend] at hst' hsame
      split_ifs at hst' hsame with hif
      · simp at hst'
      · exact hif hst'
    · rw [hready] at hst'
      cases hst'

end Steps

section Order

variable {T T' : Tasks} {calls : List (Tasks × ℕ)} {s t : ℕ}

theorem Run.listOk (h : Run T calls T') {tl : List ℕ} (hok : ListOk T tl) :
    ∃ new, ListOk T' (tl ++ new) := by
  induction h with
  | refl => exact ⟨[], (List.append_nil tl).symm ▸ hok⟩
  | change hrun hchange ih =>
      obtain ⟨new, hnew⟩ := ih
      obtain ⟨-, more, hmore⟩ := hchange.listOk hnew
      exact ⟨new ++ more, List.append_assoc tl new more ▸ hmore⟩
  | call hrun hcall ht ih =>
      obtain ⟨new, hnew⟩ := ih
      exact ⟨new, (schedule_listOk hnew hcall).1⟩

/-- `t` is dispatched before `s` is dispatched again: going round from the
running task one meets `t` before `s`. -/
def Ahead (T : Tasks) (tl : List ℕ) (s t : ℕ) : Prop :=
  ∃ (r : ℕ) (i j k : ℕ), T.runningTask = some r ∧ tl[i]? = some r ∧
    tl[j]? = some t ∧ tl[k]? = some s ∧ Between i j k

theorem ahead_of_running {tl : List ℕ} (hs : T.runningTask = some s)
    (hmem : s ∈ tl) (ht : t ∈ tl) (hne : s ≠ t) : Ahead T tl s t := by
  obtain ⟨k, hk⟩ := List.getElem?_of_mem hmem
  obtain ⟨j, hj⟩ := List.getElem?_of_mem ht
  refine ⟨s, k, j, k, hs, hk, hj, hk, between_self ?_⟩
  rintro rfl
  exact hne (Option.some.inj (hk.symm.trans hj))

theorem Ahead.append {tl : List ℕ} (h : Ahead T tl s t) (new : List ℕ)
    (hrun : T'.runningTask = T.runningTask) : Ahead T' (tl ++ new) s t := by
  have hold : ∀ {i : ℕ} {x}, tl[i]? = some x →
      (tl ++ new)[i]? = some x := by
    intro i x hx
    rwa [List.getElem?_append_left (List.getElem?_eq_some_iff.mp hx).1]
  obtain ⟨r, i, j, k, hr, hi, hj, hk, hbetween⟩ := h
  exact ⟨r, i, j, k, hrun.trans hr, hold hi, hold hj, hold hk, hbetween⟩

/-- A call that finds `t` ready dispatches `t`, or a task other than `s` from
which `t` is still ahead. -/
theorem Ahead.schedule {tl : List ℕ} {fuel esp esp' x : ℕ}
    (hok : ListOk T tl) (h : Ahead T tl s t) (hready : T.state t = .ready)
    (hcall : schedule fuel esp T = some (esp', T'))
    (hx : T'.runningTask = some x) :
    x = t ∨ x ≠ s ∧ Ahead T' tl s t := by
  obtain ⟨r, i, j, k, hr, hi, hj, hk, hbetween⟩ := h
  obtain ⟨y, hloop, rfl, -⟩ := schedule_eq_some hr hcall
  obtain rfl : y = x := Option.some.inj hx
  have hsusp := suspend_suspends T r esp
  have hchain : IsChain (suspend T r esp).next (suspend T r esp).readyQueue
      tl := by
    rw [hsusp.next, hsusp.readyQueue]
    exact hok.chain
  have hrun : (suspend T r esp).Runnable t :=
    hsusp.runnable_iff.mpr (Or.inl hready)
  rcases scheduleLoop_between hchain hi hj hrun hbetween hloop with
    rfl | ⟨i', hi', hne, hbetween'⟩
  · exact Or.inl rfl
  · refine Or.inr ⟨?_, y, i', j, k, rfl, hi', hj, hk, hbetween'⟩
    rintro rfl
    refine hne ?_
    exact (List.getElem?_inj (List.getElem?_eq_some_iff.mp hi').1
      hok.chain.nodup).mp (hi'.trans hk.symm)

/-- While `t` is ready at every call and not dispatched, a run that starts
when `s` runs never dispatches `s`. -/
theorem Run.not_again {tl : List ℕ} (h : Run T calls T') (hok : ListOk T tl)
    (hs : T.runningTask = some s) (hne : s ≠ t)
    (hready : ∀ c ∈ calls, OnChain c.1.next c.1.readyQueue t ∧
      c.1.state t = .ready)
    (hnot : ∀ c ∈ calls, c.2 ≠ t) :
    (∀ c ∈ calls, c.2 ≠ s) ∧ ∃ tl', ListOk T' tl' ∧ s ∈ tl' ∧
      (T'.runningTask = some s ∨ Ahead T' tl' s t) := by
  have hmem : s ∈ tl := by
    obtain ⟨r, hr, hrun⟩ := hok.running
    exact Option.some.inj (hs.symm.trans hrun) ▸ hr
  induction h with
  | refl => exact ⟨by simp, tl, hok, hmem, Or.inl hs⟩
  | change hrun hchange ih =>
      obtain ⟨hno, tl', hok', hmem', hat⟩ := ih hready hnot
      obtain ⟨hsame, new, hnew⟩ := hchange.listOk hok'
      refine ⟨hno, tl' ++ new, hnew, List.mem_append_left _ hmem', ?_⟩
      rcases hat with hat | hat
      · exact Or.inl (hsame.trans hat)
      · exact Or.inr (hat.append new hsame)
  | @call T₁ T₂ calls fuel esp esp' x hrun hcall hx ih =>
      obtain ⟨hno, tl', hok', hmem', hat⟩ := ih
        (fun c hc => hready c (List.mem_append_left _ hc))
        (fun c hc => hnot c (List.mem_append_left _ hc))
      obtain ⟨hon, hst⟩ := hready (T₁, x) (by simp)
      have hxt : x ≠ t := hnot (T₁, x) (by simp)
      rw [hok'.chain.onChain_iff] at hon
      have hahead : Ahead T₁ tl' s t := by
        rcases hat with hat | hat
        · exact ahead_of_running hat hmem' hon hne
        · exact hat
      obtain ⟨hxs, hahead'⟩ :=
        (hahead.schedule hok' hst hcall hx).resolve_left hxt
      refine ⟨?_, tl', (schedule_listOk hok' hcall).1, hmem', Or.inr hahead'⟩
      intro c hc
      rcases List.mem_append.mp hc with hc | hc
      · exact hno c hc
      · obtain rfl := List.mem_singleton.mp hc
        exact hxs

theorem Run.split {a : List (Tasks × ℕ)} {c : Tasks × ℕ}
    {b : List (Tasks × ℕ)} (h : Run T (a ++ c :: b) T') :
    ∃ fuel esp esp' T₂, Run T a c.1 ∧
      schedule fuel esp c.1 = some (esp', T₂) ∧
      T₂.runningTask = some c.2 ∧ Run T₂ b T' := by
  generalize hcalls : a ++ c :: b = calls at h
  induction h generalizing b with
  | refl => simp at hcalls
  | change hrun hchange ih =>
      obtain ⟨fuel, esp, esp', T₂, ha, hcall, ht, hb⟩ := ih hcalls
      exact ⟨fuel, esp, esp', T₂, ha, hcall, ht, hb.change hchange⟩
  | @call T₁ T₂ calls fuel esp esp' x hrun hcall hx ih =>
      rcases b.eq_nil_or_concat' with rfl | ⟨b, d, rfl⟩
      · obtain ⟨rfl, hc⟩ := List.append_inj' hcalls rfl
        obtain rfl := List.singleton_inj.mp hc
        exact ⟨fuel, esp, esp', T₂, hrun, hcall, hx, Run.refl T₂⟩
      · rw [← List.cons_append, ← List.append_assoc] at hcalls
        obtain ⟨hinit, hd⟩ := List.append_inj' hcalls rfl
        obtain rfl := List.singleton_inj.mp hd
        obtain ⟨fuel', esp₁, esp₂, T₃, ha, hcall', ht, hb⟩ := ih hinit
        exact ⟨fuel', esp₁, esp₂, T₃, ha, hcall', ht, hb.call hcall hx⟩

theorem listOk_taskInit (t₀ : ℕ) (T₀ : Tasks) :
    ListOk (taskInit t₀ T₀) [t₀] := by
  refine ⟨?_, ⟨t₀, List.mem_singleton_self t₀, rfl⟩, fun t ht _ => ?_⟩
  · simp [taskInit, Tasks.next, Tasks.setTask]
  · rw [List.mem_singleton.mp ht]
    rfl

/-- Task lists built by `task_init` and `task_create`. -/
inductive Created : Tasks → Prop
  | init (t₀ : ℕ) (T₀ : Tasks) : Created (taskInit t₀ T₀)
  | create {T T' : Tasks} {fuel t stackBase : ℕ} (h : Created T)
      (hfresh : ¬ OnChain T.next T.readyQueue t)
      (hcreate : taskCreate fuel t stackBase T = some T') : Created T'

theorem Created.listOk (h : Created T) : ∃ tl, ListOk T tl := by
  induction h with
  | init t₀ T₀ => exact ⟨_, listOk_taskInit t₀ T₀⟩
  | create _ hfresh hcreate ih =>
      obtain ⟨tl, hok⟩ := ih
      rw [hok.chain.onChain_iff] at hfresh
      exact ⟨_, (taskCreate_listOk hok hfresh hcreate).1⟩

/-- In every run from `task_init`: the running task is on the task list, it is
the only one that may be in the running state, and a call of `schedule` ends
and puts it there.  Between two calls that dispatch `s`, a task `t` that is on
the list and ready at every call after the first of them, up to and with the
second, is dispatched too. -/
theorem run_roundRobin (t₀ : ℕ) (T₀ : Tasks)
    (h : Run (taskInit t₀ T₀) calls T) :
    (∃ tl, IsChain T.next T.readyQueue tl ∧
      (∃ r ∈ tl, T.runningTask = some r) ∧
      ∀ t ∈ tl, T.state t = .running → T.runningTask = some t) ∧
    (∀ esp, ∃ fuel esp' T', schedule fuel esp T = some (esp', T')) ∧
    (∀ fuel esp esp' T', schedule fuel esp T = some (esp', T') →
      ∃ r, T'.runningTask = some r ∧ T'.state r = .running) ∧
    ∀ before c between d after s t,
      calls = before ++ c :: (between ++ d :: after) →
      c.2 = s → d.2 = s → s ≠ t →
      (∀ e ∈ between ++ [d], OnChain e.1.next e.1.readyQueue t ∧
        e.1.state t = .ready) →
      ∃ e ∈ between, e.2 = t := by
  have hinit := listOk_taskInit t₀ T₀
  obtain ⟨new, hok⟩ := h.listOk hinit
  refine ⟨⟨_, hok.chain, hok.running, hok.only⟩, fun esp => ?_, ?_, ?_⟩
  · obtain ⟨r, hr, hrun⟩ := hok.running
    have hsusp := suspend_suspends T r esp
    have hchain := hok.chain
    rw [← hsusp.next, ← hsusp.readyQueue] at hchain
    obtain ⟨t, ht⟩ := exists_scheduleLoop hchain hr
    simp only [schedule, hrun]
    exact ⟨_, _, _, by rw [ht]⟩
  · intro fuel esp esp' T' hcall
    obtain ⟨-, r, -, hrun, hst⟩ := schedule_listOk hok hcall
    exact ⟨r, hrun, hst⟩
  · intro before c between d after s t hcalls hc hd hne hready
    obtain ⟨_, _, _, T₂, hbefore, hcall, hrunning, hrest⟩ :=
      Run.split (hcalls ▸ h)
    obtain ⟨_, _, _, T₃, hmid, hcall', hrunning', -⟩ := Run.split hrest
    obtain ⟨new₁, hok₁⟩ := hbefore.listOk hinit
    by_contra hnone
    have hagain := (hmid.call hcall' hrunning').not_again
      (schedule_listOk hok₁ hcall).1 (hc ▸ hrunning) hne hready ?_
    · exact hagain.1 (d.1, d.2) (by simp) hd
    · intro e he het
      rcases List.mem_append.mp he with he | he
      · exact hnone ⟨e, he, het⟩
      · rw [List.mem_singleton.mp he] at het
        exact hne (hd.symm.trans het)

end Order

/-- A store before `task_init`. -/
def blankTasks : Tasks where
  task := fun _ =>
    { esp := 0
      kstack := 0
      state := .blocked
      sleepTicks := 0
      next := none
      waitNext := none }
  runningTask := none
  readyQueue := none

/-- Two tasks are created and take turns with the first one. -/
theorem run_roundRobin_threeTasks :
    ∃ calls T, Run (taskInit 0 blankTasks) calls T ∧
      calls.map Prod.snd = [1, 2, 0, 1] ∧
      ∃ tl, IsChain T.next T.readyQueue tl ∧
        (∃ r ∈ tl, T.runningTask = some r) ∧
        ∀ t ∈ tl, T.state t = .running → T.runningTask = some t := by
  have hinit := listOk_taskInit 0 blankTasks
  obtain ⟨T₁, hone⟩ : ∃ T₁,
      taskCreate 1 1 0x5000 (taskInit 0 blankTasks) = some T₁ := ⟨_, rfl⟩
  have hok := (taskCreate_listOk hinit (by decide) hone).1
  have hfresh₁ : ¬ OnChain (taskInit 0 blankTasks).next
      (taskInit 0 blankTasks).readyQueue 1 := by
    rw [hinit.chain.onChain_iff]
    decide
  have hfresh₂ := mt hok.chain.onChain_iff.mp (by decide : 2 ∉ [0] ++ [1])
  have hcreate := (Run.refl _).change (Change.create hfresh₁ hone)
  cases hone
  have hcalls := ((((hcreate.change (Change.create hfresh₂
    (rfl : taskCreate 2 2 0x7000 _ = some _))).call
      (rfl : schedule 3 0 _ = some _) rfl).call
        (rfl : schedule 3 0 _ = some _) rfl).call
          (rfl : schedule 3 0 _ = some _) rfl).call
            (rfl : schedule 3 0 _ = some _) rfl
  exact ⟨_, _, hcalls, rfl, (run_roundRobin 0 blankTasks hcalls).1⟩

end BabOs.Sched
