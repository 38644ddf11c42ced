import BabOs.Sync.Frames

/-!
# Tasks on a queue

Nothing keeps the code from putting a task on two queues, or twice on one.
Whatever the links are then, a queue is joined by the running task only, and
by nobody else.
-/

namespace BabOs.Sync

open BabOs.Sched BabOs.Chain

variable {M C L D : Type*}

/-- The task `t` is met when the queue is followed from its head. -/
def Kernel.Waits (k : Kernel M C) (q : Queue M C) (t : ℕ) : Prop :=
  OnChain k.tasks.waitNext (k.head q) t

def Kernel.BlockedOn (k : Kernel M C) (q : Queue M C) (t : ℕ) : Prop :=
  k.tasks.state t = .blocked ∧ k.Waits q t

/-! ## Links -/

section Links

variable {next next' : ℕ → Option ℕ} {head : Option ℕ} {r t : ℕ}

/-- A chain that starts at `r` goes no further if `r` has no link but to
itself. -/
theorem eq_of_onChain_self (hself : ∀ x, next r = some x → x = r)
    (h : OnChain next head t) (hhead : ∀ x, head = some x → x = r) : t = r := by
  induction h with
  | here x => exact hhead x rfl
  | there h ih =>
      obtain rfl := hhead _ rfl
      exact ih hself

theorem onChain_linked (hself : ∀ x, next' r = some x → x = r)
    (hlink : ∀ x, x ≠ r → next' x = next x ∨ next' x = some r)
    (h : OnChain next' head t) : t = r ∨ OnChain next head t := by
  induction h with
  | here x => exact Or.inr (OnChain.here x)
  | @there x y h ih =>
      by_cases hx : x = r
      · subst hx
        exact Or.inl (eq_of_onChain_self hself h hself)
      · rcases hlink x hx with heq | heq
        · rw [heq] at ih
          exact ih.imp_right OnChain.there
        · rw [heq] at h
          refine Or.inl (eq_of_onChain_self hself h fun x hx => ?_)
          exact (Option.some.inj hx).symm

end Links

/-! ## The functions of the kernel -/

section Functions

variable {k k' : Kernel M C} {q q' : Queue M C} {fuel r t : ℕ} {m : M}

/-- The timer handler leaves the queues alone, and goes on with a task that is
not blocked any more. -/
theorem blockedOn_ticks {T' : Tasks} {tick' : ℕ}
    (hr : k.tasks.runningTask = some r)
    (htimer : codeTimer k.tick k.tasks tick' T')
    (hblocked : Kernel.BlockedOn { k with tasks := T', tick := tick' } q t) :
    k.BlockedOn q t ∧ T'.runningTask ≠ some t := by
  obtain ⟨fuel, esp, esp', hcallback⟩ := htimer
  obtain ⟨x, hdispatch, -⟩ := timerCallback_dispatches hr hcallback
  obtain ⟨hstate, hwaits⟩ := hblocked
  obtain ⟨hold, hne⟩ := (hdispatch.blocked_iff t).mp hstate
  refine ⟨⟨hold, ?_⟩, ?_⟩
  · rw [Kernel.Waits, hdispatch.waitNext] at hwaits
    cases q <;> exact hwaits
  · rw [hdispatch.runningTask]
    exact fun heq => hne (Option.some.inj heq).symm

variable [DecidableEq M]

/-- The lock of a mutex does not matter for its queue. -/
theorem blockedOn_setMutex {locked : ℕ} {owner : Option ℕ} :
    (k.setMutex m { k.mutex m with
      locked := locked, owner := owner }).BlockedOn q t ↔
      k.BlockedOn q t := by
  rw [Kernel.BlockedOn, Kernel.Waits, Kernel.head_setMutex (by rfl)]
  rfl

variable [DecidableEq C]

/-- Only the task that is put on a queue joins any queue. -/
theorem waits_enqueue (h : enqueue fuel q r k = some k') (hwaits : k'.Waits q' t) :
    t = r ∨ k.Waits q' t := by
  rw [Kernel.Waits] at hwaits
  rcases enqueue_eq_some h with ⟨hhead, rfl⟩ | ⟨first, last, hhead, -, rfl⟩
  · simp only [Kernel.tasks_setHead, Kernel.waitNext_setWaitNext,
      Kernel.waitNext_setState] at hwaits
    have hself : ∀ x, Function.update k.tasks.waitNext r none r = some x →
        x = r := by
      intro x hx
      rw [Function.update_self] at hx
      cases hx
    by_cases hq : q' = q
    · subst hq
      rw [Kernel.head_setHead_self] at hwaits
      exact Or.inl (eq_of_onChain_self hself hwaits fun x hx =>
        (Option.some.inj hx).symm)
    · rw [Kernel.head_setHead_of_ne hq, Kernel.head_setWaitNext,
        Kernel.head_setState] at hwaits
      exact onChain_linked hself (fun x hx =>
        Or.inl (Function.update_of_ne hx _ _)) hwaits
  · simp only [Kernel.waitNext_setWaitNext, Kernel.waitNext_setState,
      Kernel.head_setWaitNext, Kernel.head_setState] at hwaits
    refine onChain_linked (fun x hx => ?_) (fun x hx => ?_) hwaits
    · by_cases hr : r = last
      · subst hr
        rw [Function.update_self] at hx
        exact (Option.some.inj hx).symm
      · rw [Function.update_of_ne hr, Function.update_self] at hx
        cases hx
    · by_cases hlast : x = last
      · subst hlast
        exact Or.inr (Function.update_self _ _ _)
      · rw [Function.update_of_ne hlast, Function.update_of_ne hx]
        exact Or.inl rfl

theorem waits_wakeFirst (hwaits : (wakeFirst q k).Waits q' t) : k.Waits q' t := by
  rw [Kernel.Waits] at hwaits ⊢
  rw [wakeFirst] at hwaits
  split at hwaits
  · exact hwaits
  next w hw =>
    simp only [Kernel.waitNext_setState, Kernel.tasks_setHead,
      Kernel.head_setState] at hwaits
    by_cases hq : q' = q
    · subst hq
      rw [Kernel.head_setHead_self] at hwaits
      rw [hw]
      exact OnChain.there hwaits
    · rwa [Kernel.head_setHead_of_ne hq] at hwaits

theorem blockedOn_wakeFirst (h : (wakeFirst q k).BlockedOn q' t) :
    k.BlockedOn q' t := by
  refine ⟨?_, waits_wakeFirst h.2⟩
  have hstate := h.1
  rw [state_wakeFirst] at hstate
  split_ifs at hstate
  exact hstate

theorem blockedOn_mutexUnlock (h : (mutexUnlock m k).BlockedOn q t) :
    k.BlockedOn q t := by
  exact blockedOn_setMutex.mp (blockedOn_wakeFirst h)

theorem blockedOn_condBroadcast {v : C} (hcast : condBroadcast v fuel k = some k')
    (h : k'.BlockedOn q t) : k.BlockedOn q t := by
  induction fuel generalizing k with
  | zero => cases hcast
  | succ fuel ih =>
      rw [condBroadcast] at hcast
      split at hcast
      · cases hcast
        exact h
      · exact blockedOn_wakeFirst (ih hcast)

theorem blockedOn_enqueue (henqueue : enqueue fuel q r k = some k')
    (h : k'.BlockedOn q' t) : t = r ∨ k.BlockedOn q' t := by
  by_cases htr : t = r
  · exact Or.inl htr
  · have hstate := h.1
    rw [state_enqueue henqueue, Function.update_of_ne htr] at hstate
    exact (waits_enqueue henqueue h.2).imp_right fun hwaits => ⟨hstate, hwaits⟩

/-- The task that puts itself on a queue is blocked on it. -/
theorem blockedOn_enqueue_self (henqueue : enqueue fuel q r k = some k') :
    k'.BlockedOn q r := by
  refine ⟨?_, ?_⟩
  · rw [state_enqueue henqueue, Function.update_self]
  · rw [Kernel.Waits]
    rcases enqueue_eq_some henqueue with
      ⟨-, rfl⟩ | ⟨first, last, hhead, hlast, rfl⟩
    · rw [Kernel.head_setHead_self]
      exact OnChain.here r
    · simp only [Kernel.waitNext_setWaitNext, Kernel.waitNext_setState,
        Kernel.head_setWaitNext, Kernel.head_setState, hhead]
      exact (onChain_of_lastFrom hlast).update.succ (Function.update_self _ _ _)

end Functions

/-! ## Steps -/

section Steps

variable [DecidableEq M] [DecidableEq C] {P : Program M C L D}
variable {a : Label M C L} {c c' : Config M C L D} {q : Queue M C} {t : ℕ}

/-- The task was blocked on the queue before, or has just put itself there. -/
def Config.Joins (a : Label M C L) (c c' : Config M C L D) (q : Queue M C)
    (t : ℕ) : Prop :=
  c.k.BlockedOn q t ∨ c.k.tasks.runningTask = some t ∧ a.Suspends c ∧
    ∃ f fs, c'.stack t = f :: fs ∧ f.pc.Yields

theorem lockStep_joins {fuel r : ℕ} {m : M} {l : L} {f : Frame M C L}
    {fs : List (Frame M C L)} (hr : c.k.tasks.runningTask = some r)
    (hsuspends : (c.k.mutex m).locked ≠ 0 → a.Suspends c)
    (h : lockStep fuel m r l f fs c = some c')
    (hblocked : c'.k.BlockedOn q t) : c.Joins a c' q t := by
  rw [lockStep] at h
  split at h
  · cases h
  next k hk =>
    cases h
    rcases mutexTest_eq_some hk with ⟨-, -, rfl⟩ | ⟨hb, -⟩
    · exact Or.inl (blockedOn_setMutex.mp hblocked)
    · cases hb
  next k hk =>
    cases h
    rcases mutexTest_eq_some hk with ⟨hb, -⟩ | ⟨-, hlocked, henqueue⟩
    · cases hb
    · rcases blockedOn_enqueue henqueue hblocked with rfl | hold
      · exact Or.inr ⟨hr, hsuspends hlocked, _, _, Function.update_self _ _ _, trivial⟩
      · exact Or.inl hold

/-- What a step may do to a queue. -/
theorem Step.joins (h : Step P codeTimer a c c')
    (hblocked : c'.k.BlockedOn q t) : c.Joins a c' q t := by
  cases h with
  | skip hr hf hpc hmove => exact Or.inl hblocked
  | @lock _ _ r f fs l l' d' m fuel hr hf hpc hmove htest =>
      exact lockStep_joins (c := { c with data := d' })
        (a := .call (.lock m)) hr id htest hblocked
  | @retry _ _ r f fs l m fuel hr hf hpc htest =>
      exact lockStep_joins (a := .retry m) hr id htest hblocked
  | unlock hr hf hpc hmove => exact Or.inl (blockedOn_mutexUnlock hblocked)
  | @wait _ r f fs l l' d' v m fuel k' hr hf hpc hmove hwait =>
      rw [condWaitEnter] at hwait
      split at hwait
      · cases hwait
      next k₁ henqueue =>
        cases hwait
        rcases blockedOn_enqueue henqueue
          (blockedOn_mutexUnlock hblocked) with rfl | hold
        · exact Or.inr ⟨hr, trivial, _, _, Function.update_self _ _ _, trivial⟩
        · exact Or.inl hold
  | signal hr hf hpc hmove => exact Or.inl (blockedOn_wakeFirst hblocked)
  | broadcast hr hf hpc hmove hcast =>
      exact Or.inl (blockedOn_condBroadcast hcast hblocked)
  | sleep hr hf hpc hmove =>
      refine Or.inl ⟨?_, ?_⟩
      · have hstate := hblocked.1
        rwa [Kernel.state_setSleepTicks] at hstate
      · have hwaits := hblocked.2
        rwa [Kernel.Waits, Kernel.waitNext_setSleepTicks,
          Kernel.head_setSleepTicks] at hwaits
  | @sleepMark _ r f fs l hr hf hpc =>
      have hstate := hblocked.1
      have hwaits := hblocked.2
      dsimp only at hstate hwaits
      rw [Kernel.state_setState] at hstate
      rw [Kernel.Waits, Kernel.waitNext_setState, Kernel.head_setState]
        at hwaits
      by_cases htr : t = r
      · subst htr
        rw [Function.update_self] at hstate
        cases hstate
      · rw [Function.update_of_ne htr] at hstate
        exact Or.inl ⟨hstate, hwaits⟩
  | yield hr hf hpc htimer => exact Or.inl (blockedOn_ticks hr htimer hblocked).1
  | timer hr hf hirq htimer => exact Or.inl (blockedOn_ticks hr htimer hblocked).1
  | irqDone hr hf hirq hdata => exact Or.inl hblocked
  | irqEnter hr hf hirq hdata => exact Or.inl hblocked
  | iret hr hf hpc hmove => exact Or.inl hblocked

end Steps

end BabOs.Sync
