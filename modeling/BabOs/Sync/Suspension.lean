import BabOs.Sched.RoundRobin
import BabOs.Sync.Exec
import BabOs.Sync.States

/-!
# Suspended tasks and the scheduler

`schedule` leaves its loop at a task that can run, or where it started.  The
second exit hands the processor to a suspended task, so what is asked of the
scheduler holds in exactly those steps in which some task can run once the
sleep ticks have been counted down.
-/

namespace BabOs.Sync

open BabOs.Sched BabOs.Chain

variable {M C L D : Type*}

/-- The states in which a task must not run. -/
def Suspended (T : Tasks) (t : ℕ) : Prop :=
  T.state t = .blocked ∨ T.state t = .sleeping

instance (T : Tasks) (t : ℕ) : Decidable (Suspended T t) :=
  inferInstanceAs (Decidable (_ ∨ _))

theorem not_suspended_iff {T : Tasks} {t : ℕ} :
    ¬ Suspended T t ↔ T.Runnable t := by
  rw [Suspended, Tasks.Runnable]
  cases T.state t <;> simp

/-- When the timer handler runs, some task of the list can run after the sleep
ticks have been counted down. -/
def FindsTask (a : Label M C L) (c : Config M C L D) : Prop :=
  a.Ticks → ∃ fuel T₁ i, tasksUpdateSleepTicks fuel c.k.tasks = some T₁ ∧
    OnChain c.k.tasks.next c.k.tasks.readyQueue i ∧ T₁.Runnable i

/-- The task that the timer handler goes on with is not suspended after the
sleep ticks have been counted down. -/
def DispatchesRunnable (a : Label M C L) (c c' : Config M C L D) : Prop :=
  a.Ticks → ∀ fuel T₁ t, tasksUpdateSleepTicks fuel c.k.tasks = some T₁ →
    c'.k.tasks.runningTask = some t → ¬ Suspended T₁ t

/-- A task that is suspended before the step and not after it has slept its
last tick, or is taken off its queue. -/
def ReleasesProperly (a : Label M C L) (c c' : Config M C L D) : Prop :=
  ∀ t, OnChain c.k.tasks.next c.k.tasks.readyQueue t →
    Suspended c.k.tasks t → ¬ Suspended c'.k.tasks t →
    a.Removes c t ∨
      a.Ticks ∧ c.k.tasks.state t = .sleeping ∧ c.k.ticks t = 1

section Steps

variable [DecidableEq M] [DecidableEq C] {P : Program M C L D}
  {timer : ℕ → Tasks → ℕ → Tasks → Prop} {a : Label M C L}
  {c₀ c c' : Config M C L D}

theorem lockStep_sameList {fuel r : ℕ} {m : M} {l : L} {f : Frame M C L}
    {fs : List (Frame M C L)} (h : lockStep fuel m r l f fs c = some c') :
    Kernel.SameList c.k c'.k := by
  rw [lockStep] at h
  split at h
  · cases h
  next k hk =>
    cases h
    rcases mutexTest_eq_some hk with ⟨-, -, rfl⟩ | ⟨hb, -⟩
    · exact ⟨rfl, rfl, rfl⟩
    · cases hb
  next k hk =>
    cases h
    rcases mutexTest_eq_some hk with ⟨hb, -⟩ | ⟨-, -, henqueue⟩
    · cases hb
    · exact sameList_enqueue henqueue

theorem Step.sameList (h : Step P timer a c c') (ha : ¬ a.Ticks) :
    Kernel.SameList c.k c'.k := by
  cases h with
  | @lock _ _ r f fs l l' d' m fuel hr hf hpc hmove htest =>
      exact lockStep_sameList (c := { c with data := d' }) htest
  | retry hr hf hpc htest => exact lockStep_sameList htest
  | unlock hr hf hpc hmove => exact sameList_mutexUnlock
  | wait hr hf hpc hmove hwait =>
      rw [condWaitEnter] at hwait
      split at hwait
      · cases hwait
      next k₁ henqueue =>
        cases hwait
        exact (sameList_enqueue henqueue).trans sameList_mutexUnlock
  | signal hr hf hpc hmove => exact sameList_wakeFirst
  | broadcast hr hf hpc hmove hcast => exact sameList_condBroadcast hcast
  | sleep hr hf hpc hmove => exact Kernel.sameList_setSleepTicks
  | sleepMark hr hf hpc => exact Kernel.sameList_setState
  | yield hr hf hpc htimer => exact absurd trivial ha
  | timer hr hf hirq htimer => exact absurd trivial ha
  | skip | irqDone | irqEnter | iret => exact Kernel.SameList.refl _

/-- The timer handler counts down the sleep ticks and moves on to a task of
the list. -/
theorem Step.switches {tl : List ℕ} (h : Step P codeTimer a c c')
    (ha : a.Ticks)
    (hlist : IsChain c.k.tasks.next c.k.tasks.readyQueue tl) {r : ℕ}
    (hr : c.k.tasks.runningTask = some r) (hmem : r ∈ tl) :
    ∃ T₁ t, Switches c.k.tasks T₁ c'.k.tasks r t ∧ t ∈ tl ∧
      ((∃ i ∈ tl, T₁.Runnable i) → T₁.Runnable t) := by
  obtain ⟨fuel, esp, esp', hcallback⟩ := h.timer_of_ticks ha
  obtain ⟨T₁, t, hswitch, hpick⟩ := timerCallback_switches hr hcallback
  exact ⟨T₁, t, hswitch, hpick tl hlist hmem⟩

/-- The task list and the running task on it. -/
def Listed (tl : List ℕ) (c : Config M C L D) : Prop :=
  IsChain c.k.tasks.next c.k.tasks.readyQueue tl ∧
    ∃ r ∈ tl, c.k.tasks.runningTask = some r

theorem Step.listed {tl : List ℕ} (h : Step P codeTimer a c c')
    (hlisted : Listed tl c) : Listed tl c' := by
  obtain ⟨hlist, r, hmem, hr⟩ := hlisted
  by_cases ha : a.Ticks
  · obtain ⟨T₁, t, hswitch, ht, -⟩ := h.switches ha hlist hr hmem
    refine ⟨?_, t, ht, hswitch.runningTask⟩
    rw [hswitch.next, hswitch.readyQueue]
    exact hlist
  · have hsame := h.sameList ha
    refine ⟨?_, r, hmem, hsame.runningTask.trans hr⟩
    rw [hsame.next, hsame.readyQueue]
    exact hlist

/-- A task that counts down to a state in which it can run has slept its last
tick. -/
theorem ticks_of_updateSleep {x : Task}
    (hx : x.state = .blocked ∨ x.state = .sleeping)
    (hnot : ¬ ((updateSleep x).state = .blocked ∨
      (updateSleep x).state = .sleeping)) :
    x.state = .sleeping ∧ x.sleepTicks = 1 := by
  rw [updateSleep] at hnot
  split_ifs at hnot with hsleep
  · dsimp only at hnot
    split_ifs at hnot with hzero
    · refine ⟨hsleep.1, ?_⟩
      have hpos := hsleep.2
      omega
    · exact absurd hx hnot
  · exact absurd hx hnot

/-- In a step in which the scheduler finds a task, suspended tasks go on only
when they are released. -/
theorem Step.releasesProperly {tl : List ℕ} (h : Step P codeTimer a c c')
    (hlisted : Listed tl c) (hdispatch : DispatchesRunnable a c c') :
    ReleasesProperly a c c' := by
  intro t ht hsusp hnot
  obtain ⟨hlist, r, hmem, hr⟩ := hlisted
  rw [hlist.onChain_iff] at ht
  have hchanged : c'.k.tasks.state t ≠ c.k.tasks.state t := by
    intro heq
    rw [Suspended, heq] at hnot
    exact hnot hsusp
  cases h.stateEffect t with
  | keeps hstate _ => exact absurd hstate hchanged
  | suspends _ _ hstate _ => exact absurd hstate hnot
  | sleeps ms _ _ hstate _ => exact absurd hstate hchanged
  | wakes ha _ _ => exact Or.inl ha
  | ticks ha =>
      obtain ⟨T₁, x, hswitch, -, -⟩ := h.switches ha hlist hr hmem
      obtain ⟨fuel, hupdate⟩ := hswitch.update
      have hnot₁ : ¬ Suspended T₁ t := by
        by_cases htx : t = x
        · subst htx
          exact hdispatch ha fuel T₁ t hupdate hswitch.runningTask
        · rcases hswitch.state_of_ne t htx with hsame | ⟨hrun, -⟩
          · rwa [Suspended, ← hsame]
          · simp [Suspended, hrun]
      have htask := tasksUpdateLoop_task hlist hupdate t
      rw [if_pos ht] at htask
      rw [Suspended, Tasks.state, htask] at hnot₁
      obtain ⟨hsleeping, hone⟩ := ticks_of_updateSleep hsusp hnot₁
      exact Or.inr ⟨ha, hsleeping, hone⟩

theorem Step.dispatchesRunnable_iff {tl : List ℕ}
    (h : Step P codeTimer a c c') (hlisted : Listed tl c) :
    DispatchesRunnable a c c' ↔ FindsTask a c := by
  obtain ⟨hlist, r, hmem, hr⟩ := hlisted
  constructor
  · intro hdispatch ha
    obtain ⟨T₁, t, hswitch, ht, -⟩ := h.switches ha hlist hr hmem
    obtain ⟨fuel, hupdate⟩ := hswitch.update
    exact ⟨fuel, T₁, t, hupdate, hlist.onChain_iff.mpr ht,
      not_suspended_iff.mp
        (hdispatch ha fuel T₁ t hupdate hswitch.runningTask)⟩
  · intro hfinds ha fuel T₁ t hupdate ht
    obtain ⟨T₂, x, hswitch, -, hpick⟩ := h.switches ha hlist hr hmem
    obtain ⟨fuel', hupdate'⟩ := hswitch.update
    obtain rfl := tasksUpdateSleepTicks_unique hlist hupdate hupdate'
    obtain rfl : x = t := Option.some.inj (hswitch.runningTask.symm.trans ht)
    obtain ⟨fuel₁, T₂, i, hupdate₁, hi, hrun⟩ := hfinds ha
    obtain rfl := tasksUpdateSleepTicks_unique hlist hupdate hupdate₁
    rw [hlist.onChain_iff] at hi
    exact not_suspended_iff.mpr (hpick ⟨i, hi, hrun⟩)

/-- In every run of tasks that `task_init` and `task_create` have created, a
step goes on with a task that is not suspended, and releases suspended tasks
only when they have slept their last tick or are taken off a queue, if and
only if the scheduler finds a task that can run in it. -/
theorem run_neverDispatchesSuspended (hcreated : Created c₀.k.tasks)
    (hrun : Run P codeTimer (fun _ _ => True) c₀ c)
    (hstep : Step P codeTimer a c c') :
    (DispatchesRunnable a c c' ∧ ReleasesProperly a c c') ↔
      FindsTask a c := by
  obtain ⟨tl, hok⟩ := hcreated.listOk
  have hlisted : Listed tl c :=
    hrun.invariant ⟨hok.chain, hok.running⟩ fun _ hstep => hstep.listed
  rw [← hstep.dispatchesRunnable_iff hlisted, and_iff_left_iff_imp]
  exact hstep.releasesProperly hlisted

end Steps

/-- A task that sleeps 100 ms at a time. -/
def sleepLoop : Code Unit Unit Unit Unit Empty where
  next l d := some (.sleep 100, l, d)
  irq e _ := e.elim

/-- The tasks of `task_init`, before another task is created. -/
def oneTask : Config Unit Unit Unit Unit where
  k :=
    { tasks := taskInit 0 blankTasks
      mutex := fun _ => { locked := 0, owner := none, waiters := none }
      cond := fun _ => none
      tick := 0 }
  stack := fun _ => [{ pc := .user (), irqOn := true, holds := [] }]
  data := ()
  woken := fun _ => none
  since := fun _ => 0
  clock := 0

/-- The tasks of `task_init` and a second one. -/
def twoSleepers : Config Unit Unit Unit Unit :=
  { oneTask with
    k := { oneTask.k with
      tasks := (taskCreate 1 1 4096 (taskInit 0 blankTasks)).getD blankTasks } }

theorem created_twoSleepers : Created twoSleepers.k.tasks := by
  refine @Created.create _ _ 1 1 4096 (Created.init 0 blankTasks) ?_ rfl
  rintro (_ | hchain)
  cases hchain

/-- The first task goes to sleep, and the scheduler goes on with the second. -/
theorem run_neverDispatchesSuspended_secondTask :
    ∃ a c c', Run sleepLoop.program codeTimer (fun _ _ => True) twoSleepers c ∧
      Step sleepLoop.program codeTimer a c c' ∧
      c.k.tasks.state 0 = .sleeping ∧ c'.k.tasks.runningTask = some 1 ∧
      DispatchesRunnable a c c' ∧ ReleasesProperly a c c' := by
  obtain ⟨c, hrun, hsleeping, hchain, hupdate, hnext⟩ :=
    exists_run sleepLoop (fun _ _ => True) 3 [.go, .go] twoSleepers
      (fun c => c.k.tasks.state 0 = .sleeping ∧
        (c.k.tasks.readyQueue = some 0 ∧ c.k.tasks.next 0 = some 1) ∧
        ((tasksUpdateSleepTicks 2 c.k.tasks).any fun T₁ =>
          T₁.state 1 = .ready) = true ∧
        ((advance sleepLoop 3 .go c).any fun s =>
          s.2.k.tasks.runningTask = some 1) = true)
      (by decide +kernel)
  obtain ⟨T₁, hT₁, hready⟩ := (Option.any_eq_true _ _).mp hupdate
  obtain ⟨⟨a, c'⟩, hadvance, hrunning⟩ := (Option.any_eq_true _ _).mp hnext
  have hfinds : FindsTask a c := by
    refine fun _ => ⟨2, T₁, 1, hT₁, ?_, Or.inl (of_decide_eq_true hready)⟩
    rw [hchain.1]
    refine OnChain.there ?_
    rw [hchain.2]
    exact OnChain.here 1
  exact ⟨a, c, c', hrun, advance_step hadvance, hsleeping,
    of_decide_eq_true hrunning,
    (run_neverDispatchesSuspended created_twoSleepers hrun
      (advance_step hadvance)).mpr hfinds⟩

/-- The only task goes to sleep, and the scheduler goes on with it at once. -/
theorem oneTask_dispatchesSuspended :
    ∃ a c c', Run sleepLoop.program codeTimer (fun _ _ => True) oneTask c ∧
      Step sleepLoop.program codeTimer a c c' ∧
      c'.k.tasks.runningTask = some 0 ∧ c.k.ticks 0 = 10 ∧
      ¬ DispatchesRunnable a c c' := by
  obtain ⟨c, hrun, hticks, hupdate, hnext⟩ :=
    exists_run sleepLoop (fun _ _ => True) 2 [.go, .go] oneTask
      (fun c => c.k.ticks 0 = 10 ∧
        ((tasksUpdateSleepTicks 1 c.k.tasks).any fun T₁ =>
          Suspended T₁ 0) = true ∧
        ((advance sleepLoop 2 .go c).any fun s =>
          s.1.Ticks ∧ s.2.k.tasks.runningTask = some 0) = true)
      (by decide +kernel)
  obtain ⟨T₁, hT₁, hsusp⟩ := (Option.any_eq_true _ _).mp hupdate
  obtain ⟨⟨a, c'⟩, hadvance, hs⟩ := (Option.any_eq_true _ _).mp hnext
  obtain ⟨ha, hrunning⟩ := of_decide_eq_true hs
  refine ⟨a, c, c', hrun, advance_step hadvance, hrunning, hticks, ?_⟩
  intro hdispatch
  exact hdispatch ha 1 T₁ 0 hT₁ hrunning (of_decide_eq_true hsusp)

end BabOs.Sync
