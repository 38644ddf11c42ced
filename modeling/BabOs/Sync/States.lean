import BabOs.Sync.Exclusion
import BabOs.Sync.Queues

/-!
# The states and the stacks of the tasks

A step that is not a timer interrupt changes the state of the running task
when it suspends itself, and of the tasks it takes off a queue, and of no
other.  The queues may be in any order here.  Only the stack of the running
task changes, and only at its top.
-/

namespace BabOs.Sync

open BabOs.Sched BabOs.Chain

variable {M C L D : Type*}

def Kernel.ticks (k : Kernel M C) (t : ℕ) : ℕ := (k.tasks.task t).sleepTicks

/-! ## Labels -/

/-- The steps in which the timer handler runs: for the hardware, or for the
`int 0x20` of `task_yield`. -/
def Label.Ticks : Label M C L → Prop
  | .yield => True
  | .timer => True
  | _ => False

/-- The running task leaves the running state by itself. -/
def Label.Suspends (a : Label M C L) (c : Config M C L D) : Prop :=
  match a with
  | .call (.lock m) => (c.k.mutex m).locked ≠ 0
  | .retry m => (c.k.mutex m).locked ≠ 0
  | .call (.wait _ _) => True
  | .sleeping => True
  | _ => False

/-- The step takes `t` off a queue: it is the first waiter of a mutex that is
unlocked or of a condition that is signalled, or waits for a condition that is
broadcast. -/
def Label.Removes (a : Label M C L) (c : Config M C L D) (t : ℕ) : Prop :=
  match a with
  | .call (.unlock m) => (c.k.mutex m).waiters = some t
  | .call (.wait _ m) => (c.k.mutex m).waiters = some t
  | .call (.signal v) => c.k.cond v = some t
  | .call (.broadcast v) => OnChain c.k.tasks.waitNext (c.k.cond v) t
  | _ => False

instance : (a : Label M C L) → Decidable a.Ticks
  | .yield | .timer => instDecidableTrue
  | .call _ | .retry _ | .sleeping | .irq _ => instDecidableFalse

instance (c : Config M C L D) : (a : Label M C L) → Decidable (a.Suspends c)
  | .call (.lock _) | .retry _ => instDecidableNot
  | .call (.wait _ _) | .sleeping => instDecidableTrue
  | .call .skip | .call (.unlock _) | .call (.signal _) | .call (.broadcast _)
  | .call (.sleep _) | .call .iret | .yield | .timer | .irq _ =>
      instDecidableFalse

inductive StateEffect (a : Label M C L) (c c' : Config M C L D) (t : ℕ) : Prop
  | keeps (hstate : c'.k.tasks.state t = c.k.tasks.state t)
      (hticks : c'.k.ticks t = c.k.ticks t)
  | suspends (ha : a.Suspends c) (hr : c.k.tasks.runningTask = some t)
      (hstate : c'.k.tasks.state t = .blocked ∨
        c'.k.tasks.state t = .sleeping)
      (hticks : c'.k.ticks t = c.k.ticks t)
  | sleeps (ms : ℕ) (ha : a = .call (.sleep ms))
      (hr : c.k.tasks.runningTask = some t)
      (hstate : c'.k.tasks.state t = c.k.tasks.state t)
      (hticks : c'.k.ticks t = ticksToWait ms)
  | wakes (ha : a.Removes c t) (hstate : c'.k.tasks.state t = .ready)
      (hticks : c'.k.ticks t = c.k.ticks t)
  | ticks (ha : a.Ticks)

/-! ## The functions of the kernel -/

section Functions

variable {k k' : Kernel M C} {q : Queue M C} {fuel r t x : ℕ}

@[simp] theorem ticks_setState {st : TaskState} :
    (k.setState t st).ticks x = k.ticks x := by
  by_cases hx : x = t <;>
    simp [Kernel.ticks, Kernel.setState, Tasks.setState, Tasks.setTask, hx]

@[simp] theorem ticks_setWaitNext {n : Option ℕ} :
    (k.setWaitNext t n).ticks x = k.ticks x := by
  by_cases hx : x = t <;>
    simp [Kernel.ticks, Kernel.setWaitNext, Kernel.setTask, Tasks.setTask, hx]

theorem ticks_setSleepTicks {ticks : ℕ} :
    (setSleepTicks t ticks k).ticks x = if x = t then ticks else k.ticks x := by
  by_cases hx : x = t <;>
    simp [Kernel.ticks, setSleepTicks, Kernel.setTask, Tasks.setTask, hx]

variable [DecidableEq M] [DecidableEq C]

@[simp] theorem ticks_setHead {h : Option ℕ} :
    (k.setHead q h).ticks x = k.ticks x := by
  rw [Kernel.ticks, Kernel.tasks_setHead, Kernel.ticks]

theorem ticks_enqueue (h : enqueue fuel q r k = some k') :
    k'.ticks x = k.ticks x := by
  rcases enqueue_eq_some h with ⟨-, rfl⟩ | ⟨first, last, -, -, rfl⟩ <;> simp

theorem head_enqueue_of_ne {q' : Queue M C} (hne : q' ≠ q)
    (h : enqueue fuel q r k = some k') : k'.head q' = k.head q' := by
  rcases enqueue_eq_some h with ⟨-, rfl⟩ | ⟨first, last, -, -, rfl⟩
  · rw [Kernel.head_setHead_of_ne hne, Kernel.head_setWaitNext,
      Kernel.head_setState]
  · simp only [Kernel.head_setWaitNext, Kernel.head_setState]

theorem state_wakeFirst :
    (wakeFirst q k).tasks.state t =
      if k.head q = some t then .ready else k.tasks.state t := by
  rw [wakeFirst]
  split
  next hnone => simp [hnone]
  next w hw =>
    rw [Kernel.state_setState, Kernel.tasks_setHead, hw]
    by_cases htw : t = w
    · subst htw
      simp
    · simp [htw, Ne.symm htw]

theorem ticks_wakeFirst : (wakeFirst q k).ticks x = k.ticks x := by
  rw [wakeFirst]
  split
  · rfl
  · simp

theorem state_mutexUnlock {m : M} :
    (mutexUnlock m k).tasks.state t =
      if (k.mutex m).waiters = some t then .ready else k.tasks.state t := by
  rw [mutexUnlock, state_wakeFirst]
  simp [Kernel.head, Kernel.setMutex]

theorem ticks_mutexUnlock {m : M} :
    (mutexUnlock m k).ticks x = k.ticks x := by
  rw [mutexUnlock, ticks_wakeFirst]
  rfl

theorem ticks_condBroadcast {v : C} (h : condBroadcast v fuel k = some k') :
    k'.ticks x = k.ticks x := by
  induction fuel generalizing k with
  | zero => cases h
  | succ fuel ih =>
      rw [condBroadcast] at h
      split at h
      · cases h
        rfl
      · exact (ih h).trans ticks_wakeFirst

/-- `cond_broadcast` makes the tasks on the queue ready, and no other. -/
theorem state_condBroadcast {v : C} (h : condBroadcast v fuel k = some k') :
    k'.tasks.state t = k.tasks.state t ∨
      OnChain k.tasks.waitNext (k.cond v) t ∧ k'.tasks.state t = .ready := by
  induction fuel generalizing k with
  | zero => cases h
  | succ fuel ih =>
      rw [condBroadcast] at h
      split at h
      · cases h
        exact Or.inl rfl
      next w hw =>
        have hhead : (wakeFirst (.cond v) k).cond v = k.tasks.waitNext w := by
          simp [wakeFirst, Kernel.head, hw, Kernel.setHead, Kernel.setState]
        have hnext : (wakeFirst (.cond v) k).tasks.waitNext =
            k.tasks.waitNext := by
          simp [wakeFirst, Kernel.head, hw]
        have hrest := ih h
        rw [hhead, hnext, state_wakeFirst, Kernel.head, hw] at hrest
        rw [hw]
        rcases hrest with hsame | ⟨hon, hready⟩
        · split_ifs at hsame with htw
          · obtain rfl := Option.some.inj htw
            exact Or.inr ⟨OnChain.here _, hsame⟩
          · exact Or.inl hsame
        · exact Or.inr ⟨OnChain.there hon, hready⟩

end Functions

/-! ## Steps -/

section Steps

variable [DecidableEq M] [DecidableEq C] {P : Program M C L D}
  {timer : ℕ → Tasks → ℕ → Tasks → Prop} {a : Label M C L}
  {c c' : Config M C L D} {t : ℕ}

theorem lockStep_state {fuel r : ℕ} {m : M} {l : L} {f : Frame M C L}
    {fs : List (Frame M C L)} (hr : c.k.tasks.runningTask = some r)
    (h : lockStep fuel m r l f fs c = some c') (t : ℕ) :
    c'.k.ticks t = c.k.ticks t ∧
      (c'.k.tasks.state t = c.k.tasks.state t ∨
        (c.k.mutex m).locked ≠ 0 ∧ c.k.tasks.runningTask = some t ∧
          c'.k.tasks.state t = .blocked) := by
  rw [lockStep] at h
  split at h
  · cases h
  next k hk =>
    cases h
    rcases mutexTest_eq_some hk with ⟨-, -, rfl⟩ | ⟨hb, -⟩
    · exact ⟨rfl, Or.inl rfl⟩
    · cases hb
  next k hk =>
    cases h
    rcases mutexTest_eq_some hk with ⟨hb, -⟩ | ⟨-, hlocked, henqueue⟩
    · cases hb
    · refine ⟨ticks_enqueue henqueue, ?_⟩
      dsimp only
      rw [state_enqueue henqueue]
      by_cases htr : t = r
      · subst htr
        exact Or.inr ⟨hlocked, hr, Function.update_self _ _ _⟩
      · exact Or.inl (Function.update_of_ne htr _ _)

theorem Step.stateEffect (h : Step P timer a c c') (t : ℕ) :
    StateEffect a c c' t := by
  cases h with
  | skip hr hf hpc hmove => exact StateEffect.keeps rfl rfl
  | @lock _ _ r f fs l l' d' m fuel hr hf hpc hmove htest =>
      obtain ⟨hticks, hsame | ⟨hlocked, hrun, hblocked⟩⟩ :=
        lockStep_state (c := { c with data := d' }) hr htest t
      · exact StateEffect.keeps hsame hticks
      · exact StateEffect.suspends hlocked hrun (Or.inl hblocked) hticks
  | retry hr hf hpc htest =>
      obtain ⟨hticks, hsame | ⟨hlocked, hrun, hblocked⟩⟩ :=
        lockStep_state hr htest t
      · exact StateEffect.keeps hsame hticks
      · exact StateEffect.suspends hlocked hrun (Or.inl hblocked) hticks
  | @unlock _ r f fs l l' d' m hr hf hpc hmove =>
      have hstate := state_mutexUnlock (k := c.k) (t := t) (m := m)
      split_ifs at hstate with hfirst
      · exact StateEffect.wakes hfirst hstate ticks_mutexUnlock
      · exact StateEffect.keeps hstate ticks_mutexUnlock
  | @wait _ r f fs l l' d' v m fuel k' hr hf hpc hmove hwait =>
      rw [condWaitEnter] at hwait
      split at hwait
      · cases hwait
      next k₁ henqueue =>
        cases hwait
        have hticks : (mutexUnlock m k₁).ticks t = c.k.ticks t :=
          ticks_mutexUnlock.trans (ticks_enqueue henqueue)
        have hstate := state_mutexUnlock (k := k₁) (t := t) (m := m)
        have hne : Queue.mutex m ≠ .cond v := by simp
        have hhead : (k₁.mutex m).waiters = (c.k.mutex m).waiters :=
          head_enqueue_of_ne hne henqueue
        rw [hhead, state_enqueue henqueue] at hstate
        split_ifs at hstate with hfirst
        · exact StateEffect.wakes hfirst hstate hticks
        · by_cases htr : t = r
          · subst htr
            rw [Function.update_self] at hstate
            exact StateEffect.suspends trivial hr (Or.inl hstate) hticks
          · rw [Function.update_of_ne htr] at hstate
            exact StateEffect.keeps hstate hticks
  | @signal _ r f fs l l' d' v hr hf hpc hmove =>
      have hstate := state_wakeFirst (k := c.k) (t := t) (q := .cond v)
      split_ifs at hstate with hfirst
      · exact StateEffect.wakes hfirst hstate ticks_wakeFirst
      · exact StateEffect.keeps hstate ticks_wakeFirst
  | broadcast hr hf hpc hmove hcast =>
      rcases state_condBroadcast hcast with hsame | ⟨hon, hready⟩
      · exact StateEffect.keeps hsame (ticks_condBroadcast hcast)
      · exact StateEffect.wakes hon hready (ticks_condBroadcast hcast)
  | @sleep _ r f fs l l' d' ms hr hf hpc hmove =>
      have hstate : (setSleepTicks r (ticksToWait ms) c.k).tasks.state t =
          c.k.tasks.state t := by
        rw [Kernel.state_setSleepTicks]
      have hticks : (setSleepTicks r (ticksToWait ms) c.k).ticks t =
          if t = r then ticksToWait ms else c.k.ticks t :=
        ticks_setSleepTicks
      split_ifs at hticks with htr
      · subst htr
        exact StateEffect.sleeps ms rfl hr hstate hticks
      · exact StateEffect.keeps hstate hticks
  | @sleepMark _ r f fs l hr hf hpc =>
      by_cases htr : t = r
      · subst htr
        refine StateEffect.suspends trivial hr (Or.inr ?_) ticks_setState
        dsimp only
        rw [Kernel.state_setState, Function.update_self]
      · refine StateEffect.keeps ?_ ticks_setState
        dsimp only
        rw [Kernel.state_setState, Function.update_of_ne htr]
  | yield hr hf hpc htimer => exact StateEffect.ticks trivial
  | timer hr hf hirq htimer => exact StateEffect.ticks trivial
  | irqDone hr hf hirq hdata => exact StateEffect.keeps rfl rfl
  | irqEnter hr hf hirq hdata => exact StateEffect.keeps rfl rfl
  | iret hr hf hpc hmove => exact StateEffect.keeps rfl rfl

theorem Step.timer_of_ticks (h : Step P timer a c c') (ha : a.Ticks) :
    timer c.k.tick c.k.tasks c'.k.tick c'.k.tasks := by
  cases h with
  | yield hr hf hpc htimer => exact htimer
  | timer hr hf hirq htimer => exact htimer
  | skip | lock | retry | unlock | wait | signal | broadcast | sleep
  | sleepMark | irqDone | irqEnter | iret => exact absurd ha id

/-- A task that can run stays so unless it suspends itself. -/
theorem Step.runnable (h : Step P codeTimer a c c')
    (ht : c.k.tasks.Runnable t)
    (hnot : a.Suspends c → c.k.tasks.runningTask ≠ some t) :
    c'.k.tasks.Runnable t := by
  rw [Tasks.Runnable]
  cases h.stateEffect t with
  | keeps hstate _ => rwa [hstate]
  | suspends ha hr _ _ => exact absurd hr (hnot ha)
  | sleeps ms _ _ hstate _ => rwa [hstate]
  | wakes _ hstate _ => exact Or.inl hstate
  | ticks ha =>
      obtain ⟨fuel, esp, esp', hcallback⟩ := h.timer_of_ticks ha
      cases hr : c.k.tasks.runningTask with
      | none =>
          obtain ⟨T₁, haged, hschedule, -⟩ := timerCallback_eq_some hcallback
          rw [schedule, haged.runningTask, hr] at hschedule
          cases hschedule
          exact haged.runnable ht
      | some r =>
          obtain ⟨x, hdispatch, -⟩ := timerCallback_dispatches hr hcallback
          exact hdispatch.runnable t ht

end Steps

/-! ## Stacks -/

/-- Where the topmost activation stands before a step. -/
def Label.At (a : Label M C L) (pc : Pc M C L) : Prop :=
  match a with
  | .call _ => ∃ l, pc = .user l
  | .retry m => ∃ l, retries pc = some (m, l)
  | .sleeping => ∃ l, pc = .sleepMark l
  | .yield => afterYield pc ≠ none
  | .timer => True
  | .irq _ => True

/-- What a step does to the stack of the running task `r`, whose topmost
activation is `f`. -/
def Label.Top (a : Label M C L) (f : Frame M C L)
    (fs stack : List (Frame M C L)) : Prop :=
  match a with
  | .timer => stack = f :: fs
  | .irq none => stack = f :: fs
  | .irq (some _) => ∃ h, stack = h :: f :: fs
  | .call .iret => fs ≠ [] ∧ stack = fs
  | .sleeping => ∃ f' l, f.pc = .sleepMark l ∧ f'.pc = .sleepYield l ∧
      stack = f' :: fs
  | _ => ∃ f', stack = f' :: fs

structure StackEffect (a : Label M C L) (c c' : Config M C L D) (r : ℕ)
    (f : Frame M C L) (fs : List (Frame M C L)) : Prop where
  running : c.k.tasks.runningTask = some r
  stack : c.stack r = f :: fs
  stands : a.At f.pc
  others : ∀ t, t ≠ r → c'.stack t = c.stack t
  top : a.Top f fs (c'.stack r)

section Stacks

variable {a : Label M C L} {c c' : Config M C L D} {r : ℕ}
  {f g : Frame M C L} {fs hs : List (Frame M C L)}

/-- An activation below the topmost one stays where it is. -/
theorem Label.Top.base {stack : List (Frame M C L)} (h : a.Top f fs stack)
    (hfs : fs = hs ++ [g]) : ∃ hs', stack = hs' ++ [g] := by
  subst hfs
  unfold Label.Top at h
  split at h
  · exact ⟨f :: hs, by rw [h, List.cons_append]⟩
  · exact ⟨f :: hs, by rw [h, List.cons_append]⟩
  · obtain ⟨x, rfl⟩ := h
    exact ⟨x :: f :: hs, by simp⟩
  · exact ⟨hs, h.2⟩
  · obtain ⟨f', l, -, -, rfl⟩ := h
    exact ⟨f' :: hs, by rw [List.cons_append]⟩
  · obtain ⟨f', rfl⟩ := h
    exact ⟨f' :: hs, by rw [List.cons_append]⟩

variable [DecidableEq M] [DecidableEq C] {P : Program M C L D}
  {timer : ℕ → Tasks → ℕ → Tasks → Prop}

theorem lockStep_stack {fuel : ℕ} {m : M} {l : L}
    (h : lockStep fuel m r l f fs c = some c') :
    ∃ f', c'.stack = Function.update c.stack r (f' :: fs) := by
  rw [lockStep] at h
  split at h
  · cases h
  · cases h
    exact ⟨_, rfl⟩
  · cases h
    exact ⟨_, rfl⟩

/-- Each step works on the topmost activation of the running task. -/
theorem Step.stackEffect (h : Step P timer a c c') :
    ∃ r f fs, StackEffect a c c' r f fs := by
  have hone : ∀ {r : ℕ} {f' : Frame M C L} {fs : List (Frame M C L)},
      c'.stack = Function.update c.stack r (f' :: fs) →
      (∀ t, t ≠ r → c'.stack t = c.stack t) ∧ c'.stack r = f' :: fs := by
    intro r f' fs heq
    rw [heq]
    exact ⟨fun t ht => Function.update_of_ne ht _ _,
      Function.update_self _ _ _⟩
  cases h with
  | skip hr hf hpc hmove =>
      obtain ⟨hothers, htop⟩ := hone rfl
      exact ⟨_, _, _, hr, hf, ⟨_, hpc⟩, hothers, ⟨_, htop⟩⟩
  | lock hr hf hpc hmove htest =>
      obtain ⟨f', hstack⟩ := lockStep_stack htest
      obtain ⟨hothers, htop⟩ := hone hstack
      exact ⟨_, _, _, hr, hf, ⟨_, hpc⟩, hothers, ⟨_, htop⟩⟩
  | retry hr hf hpc htest =>
      obtain ⟨f', hstack⟩ := lockStep_stack htest
      obtain ⟨hothers, htop⟩ := hone hstack
      exact ⟨_, _, _, hr, hf, ⟨_, hpc⟩, hothers, ⟨_, htop⟩⟩
  | unlock hr hf hpc hmove =>
      obtain ⟨hothers, htop⟩ := hone rfl
      exact ⟨_, _, _, hr, hf, ⟨_, hpc⟩, hothers, ⟨_, htop⟩⟩
  | wait hr hf hpc hmove hwait =>
      obtain ⟨hothers, htop⟩ := hone rfl
      exact ⟨_, _, _, hr, hf, ⟨_, hpc⟩, hothers, ⟨_, htop⟩⟩
  | signal hr hf hpc hmove =>
      obtain ⟨hothers, htop⟩ := hone rfl
      exact ⟨_, _, _, hr, hf, ⟨_, hpc⟩, hothers, ⟨_, htop⟩⟩
  | broadcast hr hf hpc hmove hcast =>
      obtain ⟨hothers, htop⟩ := hone rfl
      exact ⟨_, _, _, hr, hf, ⟨_, hpc⟩, hothers, ⟨_, htop⟩⟩
  | sleep hr hf hpc hmove =>
      obtain ⟨hothers, htop⟩ := hone rfl
      exact ⟨_, _, _, hr, hf, ⟨_, hpc⟩, hothers, ⟨_, htop⟩⟩
  | sleepMark hr hf hpc =>
      obtain ⟨hothers, htop⟩ := hone rfl
      exact ⟨_, _, _, hr, hf, ⟨_, hpc⟩, hothers, ⟨_, _, hpc, rfl, htop⟩⟩
  | yield hr hf hpc htimer =>
      obtain ⟨hothers, htop⟩ := hone rfl
      refine ⟨_, _, _, hr, hf, ?_, hothers, ⟨_, htop⟩⟩
      rw [Label.At, hpc]
      exact Option.some_ne_none _
  | timer hr hf hirq htimer =>
      exact ⟨_, _, _, hr, hf, trivial, fun t _ => rfl, hf⟩
  | irqDone hr hf hirq hdata =>
      exact ⟨_, _, _, hr, hf, trivial, fun t _ => rfl, hf⟩
  | irqEnter hr hf hirq hdata =>
      obtain ⟨hothers, htop⟩ := hone rfl
      exact ⟨_, _, _, hr, hf, trivial, hothers, ⟨_, htop⟩⟩
  | iret hr hf hpc hmove =>
      obtain ⟨hothers, htop⟩ := hone rfl
      exact ⟨_, _, _, hr, hf, ⟨_, hpc⟩, hothers,
        ⟨List.cons_ne_nil _ _, htop⟩⟩

end Stacks

end BabOs.Sync
