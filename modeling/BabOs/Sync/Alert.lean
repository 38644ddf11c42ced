import BabOs.Sync.SelfWait
import BabOs.Sync.WaitQueues

/-!
# Handlers that wait

A handler that has to wait for a mutex suspends the task that it interrupts.
The queues stay sound all the same, as long as the handlers interrupt only tasks
that can run and that do not own the mutex: then a running task that cannot run
is about to yield, and the owner of the mutex can run.
-/

namespace BabOs.Sync

open BabOs.Sched BabOs.Chain

variable {M C L D : Type*}

/-- No handler comes while the interrupted task owns the mutex, or when it has
already marked itself as blocked or as sleeping. -/
def HandlerMayRun (m : M) (a : Label M C L) (c : Config M C L D) : Prop :=
  match a with
  | .irq (some _) => ∀ r, c.k.tasks.runningTask = some r →
      (c.k.mutex m).owner ≠ some r ∧ c.k.tasks.Runnable r
  | _ => True

instance (m : M) (c : Config M C L D) :
    (a : Label M C L) → Decidable (HandlerMayRun m a c)
  | .irq (some _) => inferInstanceAs (Decidable (∀ r ∈ c.k.tasks.runningTask,
      (c.k.mutex m).owner ≠ some r ∧ c.k.tasks.Runnable r))
  | .irq none | .call _ | .retry _ | .sleeping | .yield | .timer =>
      instDecidableTrue

theorem HandlerMayRun.mayLock {m : M} {a : Label M C L} {c : Config M C L D}
    (h : HandlerMayRun m a c) : HandlerMayLock m a c := by
  unfold HandlerMayLock
  split
  next l =>
    intro r hr
    obtain ⟨howner, hrunnable⟩ := h r hr
    refine ⟨howner, fun _ hblocked => ?_⟩
    rw [Tasks.Runnable, hblocked.1] at hrunnable
    rcases hrunnable with hready | hrunning
    · cases hready
    · cases hrunning
  · trivial

/-- The owner of `m` can run, and a running task that cannot run is about to
yield. -/
structure Alert (m : M) (tl : List ℕ) (c : Config M C L D) : Prop where
  pauses : ∀ r f fs, c.k.tasks.runningTask = some r → c.stack r = f :: fs →
    afterYield f.pc = none → c.k.tasks.Runnable r
  owner : ∀ t, (c.k.mutex m).owner = some t → t ∈ tl ∧ c.k.tasks.Runnable t
  owned : (c.k.mutex m).locked ≠ 0 → ∃ t, (c.k.mutex m).owner = some t

/-- The owner of `m` has an activation inside. -/
def OwnerInside (m : M) (inside : L → Prop) (c : Config M C L D) : Prop :=
  ∀ t, (c.k.mutex m).owner = some t →
    ∃ f ∈ c.stack t, ∃ l, f.pc = .user l ∧ inside l

/-! ## Steps -/

section Steps

variable [DecidableEq M] [DecidableEq C] {P : Program M C L D}
  {a : Label M C L} {c c' : Config M C L D} {m : M} {inside : L → Prop}
  {tl : List ℕ} {Q : Queue M C → List ℕ} {r t : ℕ}
  {f g : Frame M C L} {fs stack : List (Frame M C L)}

omit [DecidableEq M] [DecidableEq C] in
theorem afterYield_of_retries {pc : Pc M C L} (h : retries pc ≠ none) :
    afterYield pc = none := by
  cases pc with
  | lockRetry | waitRelock => rfl
  | user | lockYield | waitYield | sleepMark | sleepYield => exact absurd rfl h

theorem lockStep_pauses {fuel : ℕ} {l : L} (hlocked : (c.k.mutex m).locked ≠ 0)
    (h : lockStep fuel m r l f fs c = some c') :
    ∃ g, c'.stack r = g :: fs ∧ afterYield g.pc ≠ none ∧
      c'.k.tasks.state r ≠ .sleeping := by
  obtain ⟨-, -, g, hg, ⟨hfree, -⟩ | ⟨-, hpc, henqueue⟩⟩ := lockStep_cases h
  · exact absurd hfree hlocked
  · refine ⟨g, hg, ?_, ?_⟩
    · rw [hpc]
      exact Option.some_ne_none _
    · rw [state_enqueue henqueue, Function.update_self]
      exact TaskState.noConfusion

theorem Step.pauses (h : Step P codeTimer a c c') (ha : a.Suspends c) :
    ∃ r f fs, c.k.tasks.runningTask = some r ∧ c'.stack r = f :: fs ∧
      afterYield f.pc ≠ none ∧
      (c'.k.tasks.state r = .sleeping → ∃ l, f.pc = .sleepYield l) := by
  cases h with
  | @lock _ _ r f fs l l' d' m fuel hr hf hpc hmove htest =>
      obtain ⟨g, hg, hyields, hstate⟩ :=
        lockStep_pauses (c := { c with data := d' }) ha htest
      exact ⟨r, g, fs, hr, hg, hyields, fun hsleeping => absurd hsleeping hstate⟩
  | @retry _ _ r f fs l m fuel hr hf hpc htest =>
      obtain ⟨g, hg, hyields, hstate⟩ := lockStep_pauses ha htest
      exact ⟨r, g, fs, hr, hg, hyields, fun hsleeping => absurd hsleeping hstate⟩
  | @wait _ r f fs l l' d' v m fuel k' hr hf hpc hmove hwait =>
      refine ⟨r, _, fs, hr, Function.update_self _ _ _, Option.some_ne_none _,
        fun hsleeping => ?_⟩
      rw [condWaitEnter] at hwait
      split at hwait
      · cases hwait
      next k₁ henqueue =>
        cases hwait
        dsimp only at hsleeping
        rw [state_mutexUnlock, state_enqueue henqueue, Function.update_self]
          at hsleeping
        split_ifs at hsleeping
  | @sleepMark _ r f fs l hr hf hpc =>
      exact ⟨r, _, fs, hr, Function.update_self _ _ _, Option.some_ne_none _,
        fun _ => ⟨l, rfl⟩⟩
  | skip | unlock | signal | broadcast | sleep | yield | timer | irqDone
  | irqEnter | iret => exact absurd ha id

/-- A task that sleeps did so before, or has just put itself to sleep. -/
theorem Step.sleeping_cases (h : Step P codeTimer a c c')
    (ht : c'.k.tasks.state t = .sleeping) :
    c.k.tasks.state t = .sleeping ∨
      c.k.tasks.runningTask = some t ∧ ∃ f fs l, c'.stack t = f :: fs ∧
        f.pc = .sleepYield l := by
  cases h.stateEffect t with
  | keeps hstate _ => exact Or.inl (hstate.symm.trans ht)
  | suspends ha hr _ _ =>
      obtain ⟨r, f, fs, hr', hf, -, hsleep⟩ := h.pauses ha
      obtain rfl := Option.some.inj (hr.symm.trans hr')
      obtain ⟨l, hpc⟩ := hsleep ht
      exact Or.inr ⟨hr, f, fs, l, hf, hpc⟩
  | sleeps ms _ _ hstate _ => exact Or.inl (hstate.symm.trans ht)
  | wakes _ hstate _ => cases hstate.symm.trans ht
  | ticks ha =>
      obtain ⟨r, f, fs, heffect⟩ := h.stackEffect
      obtain ⟨fuel, esp, esp', hcallback⟩ := h.timer_of_ticks ha
      obtain ⟨x, hdispatch, -⟩ :=
        timerCallback_dispatches heffect.running hcallback
      exact Or.inl (hdispatch.sleeping t ht)

/-! ## The running task -/

theorem Alert.step_pauses (hc : Alert m tl c) (hok : HandlerMayRun m a c)
    (h : Step P codeTimer a c c') (hr' : c'.k.tasks.runningTask = some r)
    (hf' : c'.stack r = f :: fs) (hpc' : afterYield f.pc = none) :
    c'.k.tasks.Runnable r := by
  by_cases hticks : a.Ticks
  · obtain ⟨r₀, g, gs, heffect⟩ := h.stackEffect
    obtain ⟨fuel, esp, esp', hcallback⟩ := h.timer_of_ticks hticks
    obtain ⟨x, hdispatch, -⟩ :=
      timerCallback_dispatches heffect.running hcallback
    obtain rfl := Option.some.inj (hr'.symm.trans hdispatch.runningTask)
    exact Or.inr hdispatch.state_self
  · have hr := (h.sameList hticks).runningTask.symm.trans hr'
    obtain ⟨r₀, g, gs, heffect⟩ := h.stackEffect
    obtain rfl := Option.some.inj (hr.symm.trans heffect.running)
    have hg := heffect.stack
    have hstands := heffect.stands
    have hrunnable : c.k.tasks.Runnable r := by
      cases a with
      | call act =>
          obtain ⟨l, hpc⟩ := hstands
          exact hc.pauses r g gs hr hg (by rw [hpc]; rfl)
      | retry m' =>
          obtain ⟨l, hretries⟩ := hstands
          refine hc.pauses r g gs hr hg (afterYield_of_retries ?_)
          rw [hretries]
          exact Option.some_ne_none _
      | sleeping =>
          obtain ⟨l, hpc⟩ := hstands
          exact hc.pauses r g gs hr hg (by rw [hpc]; rfl)
      | yield | timer => exact absurd trivial hticks
      | irq handler =>
          cases handler with
          | none =>
              have htop := heffect.top
              rw [Label.Top] at htop
              obtain ⟨rfl, rfl⟩ := List.cons.inj (hf'.symm.trans htop)
              exact hc.pauses r f fs hr hg hpc'
          | some l => exact (hok r hr).2
    refine h.runnable hrunnable fun ha hr₁ => ?_
    obtain ⟨r₁, x, xs, hr₂, hx, hyields, -⟩ := h.pauses ha
    obtain rfl := Option.some.inj (hr.symm.trans hr₂)
    obtain ⟨rfl, -⟩ := List.cons.inj (hf'.symm.trans hx)
    exact hyields hpc'

/-! ## The owner -/

theorem Alert.step_owner (hguards : Guards P m inside)
    (hguarded : Guarded P m inside c) (hc : Alert m tl c)
    (hsound : Sound tl c Q) (h : Step P codeTimer a c c')
    (ht : (c'.k.mutex m).owner = some t) :
    t ∈ tl ∧ c'.k.tasks.Runnable t := by
  cases h.ownerEffect m with
  | keeps ha hlock =>
      have howner := (congrArg Prod.snd hlock).symm.trans ht
      obtain ⟨hmem, hrunnable⟩ := hc.owner t howner
      refine ⟨hmem, h.runnable hrunnable fun hsuspends hr => ?_⟩
      obtain ⟨f, fs, l, hf, hpc, hl⟩ := hguarded.owner t howner
      obtain ⟨f', fs', l', hf', hpc', -⟩ := h.stays hguards hf hpc hl ha
        fun h' heq => by subst heq; exact absurd hsuspends id
      obtain ⟨r, g, gs, hr', hg, hyields, -⟩ := h.pauses hsuspends
      obtain rfl := Option.some.inj (hr.symm.trans hr')
      obtain ⟨rfl, -⟩ := List.cons.inj (hf'.symm.trans hg)
      rw [hpc'] at hyields
      exact hyields rfl
  | @takes r f f' fs l hr hf hfree hlock hf' hpc' hfrom =>
      obtain rfl := Option.some.inj ((congrArg Prod.snd hlock).symm.trans ht)
      have hyields : afterYield f.pc = none := by
        rcases hfrom with ⟨l₀, d', hpc, -⟩ | hretries
        · rw [hpc]
          rfl
        · exact afterYield_of_retries (by rw [hretries]; exact Option.some_ne_none _)
      refine ⟨hsound.mem_of_running hr,
        h.runnable (hc.pauses r f fs hr hf hyields) fun hsuspends _ => ?_⟩
      obtain ⟨r', g, gs, hr', hg, hpauses, -⟩ := h.pauses hsuspends
      obtain rfl := Option.some.inj (hr.symm.trans hr')
      obtain ⟨rfl, -⟩ := List.cons.inj (hf'.symm.trans hg)
      rw [hpc'] at hpauses
      exact hpauses rfl
  | releases ha hlock =>
      cases (congrArg Prod.snd hlock).symm.trans ht

theorem Alert.step_owned (hc : Alert m tl c) (h : Step P codeTimer a c c')
    (hlocked : (c'.k.mutex m).locked ≠ 0) :
    ∃ t, (c'.k.mutex m).owner = some t := by
  cases h.ownerEffect m with
  | keeps ha hlock =>
      have hlocked' : (c.k.mutex m).locked ≠ 0 :=
        fun hfree => hlocked ((congrArg Prod.fst hlock).trans hfree)
      obtain ⟨t, ht⟩ := hc.owned hlocked'
      exact ⟨t, (congrArg Prod.snd hlock).trans ht⟩
  | takes hr hf hfree hlock hf' hpc' hfrom =>
      exact ⟨_, congrArg Prod.snd hlock⟩
  | releases ha hlock =>
      exact absurd (congrArg Prod.fst hlock) hlocked

theorem Step.alert (hguards : Guards P m inside)
    (hguarded : Guarded P m inside c) (hok : HandlerMayRun m a c)
    (hsound : Sound tl c Q) (h : Step P codeTimer a c c')
    (hc : Alert m tl c) : Alert m tl c' where
  pauses _ _ _ hr hf hpc := hc.step_pauses hok h hr hf hpc
  owner _ ht := hc.step_owner hguards hguarded hsound h ht
  owned hlocked := hc.step_owned h hlocked

theorem Alert.calm (hc : Alert m tl c) (hsound : Sound tl c Q)
    (hpick : a.Ticks → ∃ i ∈ tl, c.k.tasks.Runnable i)
    (h : Step P codeTimer a c c') : Calm a c := by
  have hawake : ∀ {r : ℕ} {f : Frame M C L} {fs : List (Frame M C L)},
      c.k.tasks.runningTask = some r → c.stack r = f :: fs →
      afterYield f.pc = none → ∀ r', c.k.tasks.runningTask = some r' →
      c.k.tasks.state r' ≠ .blocked := by
    intro r f fs hr hf hpc r' hr' hblocked
    obtain rfl := Option.some.inj (hr.symm.trans hr')
    have hrunnable := hc.pauses r f fs hr hf hpc
    rw [Tasks.Runnable, hblocked] at hrunnable
    rcases hrunnable with hready | hrunning
    · cases hready
    · cases hrunning
  have hlisted : a.Ticks → ∃ i,
      OnChain c.k.tasks.next c.k.tasks.readyQueue i ∧ c.k.tasks.Runnable i := by
    intro ha
    obtain ⟨i, hi, hrunnable⟩ := hpick ha
    exact ⟨i, hsound.list.onChain_iff.mpr hi, hrunnable⟩
  cases h with
  | lock hr hf hpc hmove htest =>
      exact fun _ => hawake hr hf (by rw [hpc]; rfl)
  | wait hr hf hpc hmove hwait => exact hawake hr hf (by rw [hpc]; rfl)
  | sleepMark hr hf hpc => exact hawake hr hf (by rw [hpc]; rfl)
  | yield | timer => exact hlisted trivial
  | skip | retry | unlock | signal | broadcast | sleep | irqDone | irqEnter
  | iret => trivial

/-! ## An owner below its handlers -/

omit [DecidableEq M] [DecidableEq C] in
theorem Label.Top.mem (h : a.Top f fs stack) (hg : g ∈ fs) : g ∈ stack := by
  unfold Label.Top at h
  split at h
  · exact h ▸ List.mem_cons_of_mem f hg
  · exact h ▸ List.mem_cons_of_mem f hg
  · obtain ⟨x, rfl⟩ := h
    exact List.mem_cons_of_mem x (List.mem_cons_of_mem f hg)
  · exact h.2 ▸ hg
  · obtain ⟨f', l, -, -, rfl⟩ := h
    exact List.mem_cons_of_mem f' hg
  · obtain ⟨f', rfl⟩ := h
    exact List.mem_cons_of_mem f' hg

theorem Step.ownerInside (hguards : Guards P m inside)
    (hcalled : ∀ t, ∀ f ∈ c.stack t, Called P f.pc)
    (h : Step P codeTimer a c c') (hc : OwnerInside m inside c) :
    OwnerInside m inside c' := by
  intro t ht
  cases h.ownerEffect m with
  | keeps ha hlock =>
      obtain ⟨g, hg, l, hpc, hl⟩ := hc t ((congrArg Prod.snd hlock).symm.trans ht)
      obtain ⟨r, f, fs, heffect⟩ := h.stackEffect
      by_cases htr : t = r
      · subst htr
        rw [heffect.stack] at hg
        rcases List.mem_cons.mp hg with rfl | hg
        · by_cases hirq : ∃ h', a = .irq (some h')
          · obtain ⟨h', rfl⟩ := hirq
            obtain ⟨x, hx⟩ := heffect.top
            exact ⟨g, by simp [hx], l, hpc, hl⟩
          · obtain ⟨f', fs', l', hf', hpc', hl'⟩ := h.stays hguards
              heffect.stack hpc hl ha fun h' heq => absurd ⟨h', heq⟩ hirq
            exact ⟨f', hf' ▸ List.mem_cons_self, l', hpc', hl'⟩
        · exact ⟨g, heffect.top.mem hg, l, hpc, hl⟩
      · exact ⟨g, heffect.others t htr ▸ hg, l, hpc, hl⟩
  | @takes r f f' fs l hr hf hfree hlock hf' hpc' hfrom =>
      obtain rfl := Option.some.inj ((congrArg Prod.snd hlock).symm.trans ht)
      refine ⟨f', hf' ▸ List.mem_cons_self, l, hpc', ?_⟩
      rcases hfrom with ⟨l₀, d', -, hmove⟩ | hretries
      · exact (hguards.locks hmove).2
      · exact hguards.entry
          (called_retries (hcalled r f (hf ▸ List.mem_cons_self)) hretries)
  | releases ha hlock =>
      cases (congrArg Prod.snd hlock).symm.trans ht

end Steps

end BabOs.Sync
