import BabOs.Sched.RoundRobin

/-!
# Bounded waiting

Each call of `schedule` that finds a task ready and dispatches another one
brings the running task nearer to it on the way round the task list.  So a
ready task waits for fewer calls than there are tasks.
-/

namespace BabOs.Sched

open BabOs.Chain

/-! ## The way round -/

/-- How many places the way round leads from position `i` to position `j`, if
there are `n` of them; from `j` to `j` it leads past all others. -/
def gap (n i j : ℕ) : ℕ :=
  if i < j then j - i else n + j - i

section Gap

variable {n m i j : ℕ}

theorem gap_pos (hi : i < n) : 0 < gap n i j := by
  rw [gap]
  split_ifs <;> omega

theorem gap_le (hj : j < n) : gap n i j ≤ n := by
  rw [gap]
  split_ifs <;> omega

/-- One step round the first `m` places either arrives or leaves fewer. -/
theorem gap_step (hi : i < m) (hj : j < m) (hm : m ≤ n) :
    let i' := if i + 1 < m then i + 1 else 0
    i' = j ∨ gap n i' j < gap n i j := by
  simp only [gap]
  split_ifs <;> omega

end Gap

/-! ## The distance of a task -/

/-- On the way round from the running task, `t` is `d` places away. -/
def Away (n : ℕ) (T : Tasks) (tl : List ℕ) (t d : ℕ) : Prop :=
  ∃ (r : ℕ) (i j : ℕ), T.runningTask = some r ∧ tl[i]? = some r ∧
    tl[j]? = some t ∧ gap n i j = d

section Distance

variable {T T' : Tasks} {tl : List ℕ} {x y t n d : ℕ} {i j : ℕ}

/-- The loop of `schedule` gets nearer to a task that can run. -/
theorem scheduleLoop_gap {start fuel : ℕ}
    (hchain : IsChain T.next T.readyQueue tl) (hn : tl.length ≤ n)
    (hx : tl[i]? = some x) (ht : tl[j]? = some t) (hrun : T.Runnable t)
    (h : scheduleLoop T start fuel x = some y) :
    y = t ∨ ∃ i', tl[i']? = some y ∧ gap n i' j < gap n i j := by
  induction fuel generalizing x i with
  | zero => cases h
  | succ fuel ih =>
      have hi := (List.getElem?_eq_some_iff.mp hx).1
      have hstep := gap_step hi (List.getElem?_eq_some_iff.mp ht).1 hn
      have hsucc := succ_eq_getElem? hchain hx
      rw [succ] at hsucc
      dsimp only at hstep
      generalize (if i + 1 < tl.length then i + 1 else 0) = i' at hstep hsucc
      rw [scheduleLoop, hsucc] at h
      split at h
      · cases h
      next z hz =>
        rcases hstep with rfl | hless
        · obtain rfl : z = t := Option.some.inj (hz.symm.trans ht)
          rw [if_pos hrun] at h
          exact Or.inl (Option.some.inj h).symm
        · split_ifs at h with hzrun hstart
          · obtain rfl := Option.some.inj h
            exact Or.inr ⟨i', hz, hless⟩
          · obtain rfl := Option.some.inj h
            exact Or.inr ⟨i', hz, hless⟩
          · refine (ih hz h).imp_right ?_
            rintro ⟨k, hk, hlt⟩
            exact ⟨k, hk, hlt.trans hless⟩

theorem exists_away (hrunning : ∃ r ∈ tl, T.runningTask = some r) (ht : t ∈ tl)
    (hn : tl.length ≤ n) : ∃ d, Away n T tl t d ∧ d ≤ n := by
  obtain ⟨r, hr, hrun⟩ := hrunning
  obtain ⟨i, hi⟩ := List.getElem?_of_mem hr
  obtain ⟨j, hj⟩ := List.getElem?_of_mem ht
  have hlt := (List.getElem?_eq_some_iff.mp hj).1
  exact ⟨_, ⟨r, i, j, hrun, hi, hj, rfl⟩, gap_le (hlt.trans_le hn)⟩

theorem Away.pos (h : Away n T tl t d) (hn : tl.length ≤ n) : 0 < d := by
  obtain ⟨r, i, j, -, hi, -, rfl⟩ := h
  exact gap_pos ((List.getElem?_eq_some_iff.mp hi).1.trans_le hn)

theorem Away.append (h : Away n T tl t d) (new : List ℕ)
    (hrun : T'.runningTask = T.runningTask) : Away n T' (tl ++ new) t d := by
  obtain ⟨r, i, j, hr, hi, hj, hd⟩ := h
  refine ⟨r, i, j, hrun.trans hr, ?_, ?_, hd⟩
  · rwa [List.getElem?_append_left (List.getElem?_eq_some_iff.mp hi).1]
  · rwa [List.getElem?_append_left (List.getElem?_eq_some_iff.mp hj).1]

/-- A call that finds `t` ready dispatches it or gets nearer to it. -/
theorem Away.schedule {fuel esp esp' : ℕ}
    (hlist : IsChain T.next T.readyQueue tl) (hn : tl.length ≤ n)
    (h : Away n T tl t d) (hready : T.state t = .ready)
    (hcall : schedule fuel esp T = some (esp', T'))
    (hx : T'.runningTask = some x) :
    x = t ∨ ∃ d', d' < d ∧ Away n T' tl t d' := by
  obtain ⟨r, i, j, hr, hi, hj, rfl⟩ := h
  obtain ⟨y, hloop, rfl, -⟩ := schedule_eq_some hr hcall
  obtain rfl : y = x := Option.some.inj hx
  have hsusp := suspend_suspends T r esp
  have hchain : IsChain (suspend T r esp).next (suspend T r esp).readyQueue
      tl := by
    rw [hsusp.next, hsusp.readyQueue]
    exact hlist
  have hrun : (suspend T r esp).Runnable t :=
    hsusp.runnable_iff.mpr (Or.inl hready)
  rcases scheduleLoop_gap hchain hn hi hj hrun hloop with rfl | ⟨i', hi', hless⟩
  · exact Or.inl rfl
  · exact Or.inr ⟨_, hless, y, i', j, rfl, hi', hj, rfl⟩

theorem Away.timerCallback {fuel esp esp' tick tick' : ℕ}
    (hlist : IsChain T.next T.readyQueue tl) (hn : tl.length ≤ n)
    (h : Away n T tl t d) (hready : T.state t = .ready)
    (hcall : timerCallback fuel esp tick T = some (esp', tick', T'))
    (hx : T'.runningTask = some x) :
    x = t ∨ ∃ d', d' < d ∧ Away n T' tl t d' := by
  obtain ⟨T₁, haged, hschedule, -⟩ := timerCallback_eq_some hcall
  have haway : Away n T₁ tl t d := by
    obtain ⟨r, i, j, hr, hi, hj, hd⟩ := h
    exact ⟨r, i, j, haged.runningTask.trans hr, hi, hj, hd⟩
  have hready₁ : T₁.state t = .ready := by
    rcases (haged.task t).state with hst | ⟨-, hst⟩
    · exact hst.trans hready
    · exact hst
  have hlist₁ : IsChain T₁.next T₁.readyQueue tl := by
    rw [haged.next, haged.readyQueue]
    exact hlist
  exact haway.schedule hlist₁ hn hready₁ hschedule hx

end Distance

/-! ## Runs -/

section Waiting

variable {T T' : Tasks} {calls before waiting : List (Tasks × ℕ)}
variable {tl : List ℕ} {t n d : ℕ}

/-- While `t` is ready at every call and not dispatched, each call uses up one
place of the way to it. -/
theorem Run.waits (h : Run T calls T') (hok : ListOk T tl)
    (haway : Away n T tl t d)
    (hready : ∀ c ∈ calls, c.1.state t = .ready) (hnot : ∀ c ∈ calls, c.2 ≠ t) :
    ∃ tl', ListOk T' tl' ∧
      (tl'.length ≤ n → ∃ d', Away n T' tl' t d' ∧ calls.length + d' ≤ d) := by
  induction h with
  | refl => exact ⟨tl, hok, fun _ => ⟨d, haway, (Nat.zero_add d).le⟩⟩
  | change hrun hchange ih =>
      obtain ⟨tl', hok', hless⟩ := ih hready hnot
      obtain ⟨hsame, new, hnew⟩ := hchange.listOk hok'
      refine ⟨tl' ++ new, hnew, fun hn => ?_⟩
      rw [List.length_append] at hn
      obtain ⟨d', haway', hle⟩ := hless (le_trans (Nat.le_add_right _ _) hn)
      exact ⟨d', haway'.append new hsame, hle⟩
  | @call T₁ T₂ calls fuel esp esp' x hrun hcall hx ih =>
      obtain ⟨tl', hok', hless⟩ := ih
        (fun c hc => hready c (List.mem_append_left _ hc))
        (fun c hc => hnot c (List.mem_append_left _ hc))
      refine ⟨tl', (schedule_listOk hok' hcall).1, fun hn => ?_⟩
      obtain ⟨d₁, haway₁, hle⟩ := hless hn
      have hst := hready (T₁, x) (by simp)
      have hxt : x ≠ t := hnot (T₁, x) (by simp)
      obtain ⟨d', hlt, haway'⟩ :=
        (haway₁.schedule hok'.chain hn hst hcall hx).resolve_left hxt
      refine ⟨d', haway', ?_⟩
      rw [List.length_append, List.length_singleton]
      omega

/-- In every run from `task_init`, a task that every call of `schedule` from
some point on finds ready, and does not dispatch, has waited for fewer calls
than there are tasks on the list. -/
theorem run_boundedWaiting (t₀ : ℕ) (T₀ : Tasks)
    (h : Run (taskInit t₀ T₀) (before ++ waiting) T)
    (hready : ∀ c ∈ waiting, OnChain c.1.next c.1.readyQueue t ∧
      c.1.state t = .ready)
    (hnot : ∀ c ∈ waiting, c.2 ≠ t) :
    ∃ tl, IsChain T.next T.readyQueue tl ∧ waiting.length < tl.length := by
  have hinit := listOk_taskInit t₀ T₀
  cases waiting with
  | nil =>
      obtain ⟨new, hok⟩ := h.listOk hinit
      exact ⟨_, hok.chain, Nat.lt_of_lt_of_le Nat.one_pos (by simp)⟩
  | cons c waiting =>
      obtain ⟨fuel, esp, esp', T₁, hbefore, hcall, hrun, hrest⟩ := h.split
      obtain ⟨new, hok⟩ := hbefore.listOk hinit
      obtain ⟨hon, hst⟩ := hready c List.mem_cons_self
      rw [hok.chain.onChain_iff] at hon
      have hok₁ := (schedule_listOk hok hcall).1
      obtain ⟨more, hok'⟩ := hrest.listOk hok₁
      set n := ([t₀] ++ new ++ more).length with hn
      have hle : ([t₀] ++ new).length ≤ n := by
        rw [hn]
        exact (List.prefix_append _ more).length_le
      obtain ⟨d, haway, hd⟩ := exists_away hok.running hon hle
      obtain ⟨d₁, hlt, haway₁⟩ := (haway.schedule hok.chain hle hst hcall
        hrun).resolve_left (hnot c List.mem_cons_self)
      obtain ⟨tl', hok'', hless⟩ := hrest.waits hok₁ haway₁
        (fun e he => (hready e (List.mem_cons_of_mem _ he)).2)
        (fun e he => hnot e (List.mem_cons_of_mem _ he))
      have hsame : tl' = [t₀] ++ new ++ more :=
        hok''.chain.unique hok'.chain
      obtain ⟨d', haway', hsum⟩ := hless (hsame ▸ hn.ge)
      have hpos := haway'.pos (hsame ▸ hn.ge)
      refine ⟨_, hok'.chain, ?_⟩
      rw [List.length_cons, ← hn]
      omega

end Waiting

/-- The third of three tasks waits for one call. -/
theorem run_boundedWaiting_third :
    ∃ (c : Tasks × ℕ) (T : Tasks), Run (taskInit 0 blankTasks) ([] ++ [c]) T ∧
      c.2 = 1 ∧ ∃ tl, IsChain T.next T.readyQueue tl ∧ [c].length < tl.length := by
  have hinit := listOk_taskInit 0 blankTasks
  obtain ⟨T₁, hone⟩ : ∃ T₁,
      taskCreate 1 1 0x5000 (taskInit 0 blankTasks) = some T₁ := ⟨_, rfl⟩
  have hok₁ := (taskCreate_listOk hinit (by decide) hone).1
  obtain ⟨T₂, htwo⟩ : ∃ T₂, taskCreate 2 2 0x7000 T₁ = some T₂ := by
    cases hone
    exact ⟨_, rfl⟩
  obtain ⟨hok₂, -, -, hready, -⟩ := taskCreate_listOk hok₁ (by decide) htwo
  obtain ⟨T₃, hcall⟩ : ∃ T₃, schedule 3 0 T₂ = some (0x5FC8, T₃) := by
    cases hone
    cases htwo
    exact ⟨_, rfl⟩
  obtain ⟨-, x, -, hx, -⟩ := schedule_listOk hok₂ hcall
  have hdispatched : x = 1 := by
    cases hone
    cases htwo
    cases hcall
    exact (Option.some.inj hx).symm
  subst hdispatched
  have hrun := (((Run.refl _).change (Change.create
    (mt hinit.chain.onChain_iff.mp (by decide)) hone)).change (Change.create
      (mt hok₁.chain.onChain_iff.mp (by decide)) htwo)).call hcall hx
  refine ⟨(T₂, 1), T₃, hrun, rfl, run_boundedWaiting (t := 2) 0 blankTasks hrun
    ?_ ?_⟩
  · rw [List.forall_mem_singleton]
    exact ⟨hok₂.chain.onChain_iff.mpr (by decide), hready⟩
  · rw [List.forall_mem_singleton]
    exact Nat.succ_ne_self 1 |>.symm

end BabOs.Sched
