import BabOs.Sync.Membership
import BabOs.Sync.Regions
import BabOs.Sync.Suspension

/-!
# A mutex that an interrupt handler locks

A handler runs as the task that it interrupts.  If it locks a mutex that this
task owns, the task waits for itself and never wakes.  The code is given by
the locations between `mutex_lock` and `mutex_unlock`, and the proof follows
the owner of the mutex through them.
-/

namespace BabOs.Sync

open BabOs.Sched BabOs.Chain

variable {M C L D : Type*}

/-- The task `t` owns the mutex and is blocked on its queue. -/
def Config.SelfWaits (c : Config M C L D) (m : M) (t : ℕ) : Prop :=
  (c.k.mutex m).owner = some t ∧ c.k.BlockedOn (.mutex m) t

/-- No handler comes while the interrupted task owns the mutex, or while the
mutex is unlocked and the task is still blocked on its queue. -/
def HandlerMayLock (m : M) (a : Label M C L) (c : Config M C L D) : Prop :=
  match a with
  | .irq (some _) => ∀ r, c.k.tasks.runningTask = some r →
      (c.k.mutex m).owner ≠ some r ∧
        ((c.k.mutex m).locked = 0 → ¬c.k.BlockedOn (.mutex m) r)
  | _ => True

def HandlersLock (P : Program M C L D) (m : M) : Prop :=
  ∀ {d d' h}, P.irq d d' (some h) →
    ∀ {d₁ a l' d₂}, P.move h d₁ a l' d₂ → a = .lock m

/-- A task that is about to yield has not been woken. -/
theorem retries_of_yields {pc : Pc M C L} (h : pc.Yields) :
    retries pc = none := by
  cases pc with
  | lockYield | waitYield => rfl
  | user | lockRetry | waitRelock | sleepMark | sleepYield => cases h

/-! ## Steps -/

section Steps

variable [DecidableEq M] [DecidableEq C] {P : Program M C L D}
  {timer : ℕ → Tasks → ℕ → Tasks → Prop} {a : Label M C L}
  {c c' : Config M C L D} {r t : ℕ} {m : M}
  {f : Frame M C L} {fs : List (Frame M C L)}

inductive OwnerEffect (P : Program M C L D) (m : M) (a : Label M C L)
    (c c' : Config M C L D) : Prop
  | keeps (ha : ¬a.Releases m) (hlock : c'.k.lockOf m = c.k.lockOf m)
  | takes {r : ℕ} {f f' : Frame M C L} {fs : List (Frame M C L)} {l : L}
      (hr : c.k.tasks.runningTask = some r) (hf : c.stack r = f :: fs)
      (hfree : (c.k.mutex m).locked = 0)
      (hlock : c'.k.lockOf m = (1, some r))
      (hf' : c'.stack r = f' :: fs) (hpc' : f'.pc = .user l)
      (hfrom : (∃ l₀ d', f.pc = .user l₀ ∧ P.move l₀ c.data (.lock m) l d') ∨
        retries f.pc = some (m, l))
  | releases (ha : a.Releases m) (hlock : c'.k.lockOf m = (0, none))

theorem lockStep_owner {fuel : ℕ} {m' : M} {l : L} {d : D}
    (ha : ¬a.Releases m) (hr : c.k.tasks.runningTask = some r)
    (hf : c.stack r = f :: fs)
    (hfrom : (∃ l₀ d', f.pc = .user l₀ ∧ P.move l₀ c.data (.lock m') l d') ∨
      retries f.pc = some (m', l))
    (h : lockStep fuel m' r l f fs { c with data := d } = some c') :
    OwnerEffect P m a c c' := by
  obtain ⟨-, -, f', hf', ⟨hfree, hpc', hk⟩ | ⟨-, -, henqueue⟩⟩ :=
    lockStep_cases h
  · by_cases hm : m' = m
    · subst hm
      refine OwnerEffect.takes hr hf hfree ?_ hf' hpc' hfrom
      rw [hk]
      simp [Kernel.lockOf, Kernel.setMutex]
    · apply OwnerEffect.keeps ha
      rw [hk]
      simp [Kernel.lockOf, Kernel.setMutex, Ne.symm hm]
  · exact OwnerEffect.keeps ha (lockOf_enqueue henqueue)

theorem Step.ownerEffect (h : Step P timer a c c') (m : M) :
    OwnerEffect P m a c c' := by
  cases h with
  | lock hr hf hpc hmove htest =>
      exact lockStep_owner id hr hf (Or.inl ⟨_, _, hpc, hmove⟩) htest
  | @retry _ _ r f fs l m' fuel hr hf hpc htest =>
      exact lockStep_owner (d := c.data) id hr hf (Or.inr hpc) htest
  | @unlock _ r f fs l l' d' m' hr hf hpc hmove =>
      by_cases hm : m' = m
      · subst hm
        exact OwnerEffect.releases rfl lockOf_mutexUnlock_self
      · exact OwnerEffect.keeps hm (lockOf_mutexUnlock_of_ne (Ne.symm hm))
  | @wait _ r f fs l l' d' v m' fuel k' hr hf hpc hmove hwait =>
      by_cases hm : m' = m
      · subst hm
        refine OwnerEffect.releases rfl ?_
        rw [condWaitEnter] at hwait
        split at hwait
        · cases hwait
        · cases hwait
          exact lockOf_mutexUnlock_self
      · exact OwnerEffect.keeps hm
          (lockOf_condWaitEnter_of_ne (Ne.symm hm) hwait)
  | signal hr hf hpc hmove => exact OwnerEffect.keeps id (lockOf_wakeFirst _)
  | broadcast hr hf hpc hmove hcast =>
      exact OwnerEffect.keeps id (lockOf_condBroadcast hcast)
  | skip | sleep | sleepMark | yield | timer | irqDone | irqEnter | iret =>
      exact OwnerEffect.keeps id rfl

/-- A step that leaves an activation in its own code leaves it on top. -/
theorem Step.stays {inside : L → Prop} {l : L} (hguards : Guards P m inside)
    (h : Step P timer a c c') (hf : c.stack t = f :: fs)
    (hpc : f.pc = .user l) (hl : inside l) (ha : ¬a.Releases m)
    (hirq : ∀ h, a = .irq (some h) → c.k.tasks.runningTask ≠ some t) :
    ∃ f' fs' l', c'.stack t = f' :: fs' ∧ f'.pc = .user l' ∧ inside l' := by
  obtain ⟨r, g, gs, heffect⟩ := h.stackEffect
  by_cases htr : t = r
  · subst htr
    obtain ⟨rfl, rfl⟩ := List.cons.inj (hf.symm.trans heffect.stack)
    have hstands := heffect.stands
    have htop := heffect.top
    cases a with
    | call act =>
        obtain ⟨r, g, gs, l₀, l', hr, hg, hpc', hmove, hplain⟩ := h.move
        obtain rfl := Option.some.inj (hr.symm.trans heffect.running)
        obtain ⟨rfl, rfl⟩ := List.cons.inj (hg.symm.trans hf)
        obtain rfl := Pc.user.inj (hpc'.symm.trans hpc)
        obtain ⟨hact, hl'⟩ := (hguards.stays hl hmove).resolve_left ha
        obtain ⟨f', hf', huser⟩ := hplain hact
        exact ⟨f', gs, l', hf', huser, hl'⟩
    | retry m' =>
        obtain ⟨l', hretries⟩ := hstands
        rw [hpc] at hretries
        cases hretries
    | sleeping =>
        obtain ⟨l', hsleep⟩ := hstands
        cases hpc.symm.trans hsleep
    | yield =>
        rw [Label.At, hpc] at hstands
        exact absurd rfl hstands
    | timer => exact ⟨f, fs, l, htop, hpc, hl⟩
    | irq handler =>
        cases handler with
        | none => exact ⟨f, fs, l, htop, hpc, hl⟩
        | some h' => exact absurd heffect.running (hirq h' rfl)
  · refine ⟨f, fs, l, ?_, hpc, hl⟩
    rw [heffect.others t htr, hf]

end Steps

/-! ## The invariant -/

/-- The activation does nothing but lock `m` next. -/
def Locks (P : Program M C L D) (m : M) (pc : Pc M C L) : Prop :=
  ∃ l, pc = .user l ∧ ∀ d a l' d', P.move l d a l' d' → a = .lock m

/-- The owner of `m` stands inside.  A running task that is blocked on the queue
is about to yield, or a handler on top of it is about to block it once more. -/
structure Guarded (P : Program M C L D) (m : M) (inside : L → Prop)
    (c : Config M C L D) : Prop where
  owner : ∀ t, (c.k.mutex m).owner = some t →
    ∃ f fs l, c.stack t = f :: fs ∧ f.pc = .user l ∧ inside l
  called : ∀ t, ∀ f ∈ c.stack t, Called P f.pc
  awake : ∀ r f fs, c.k.tasks.runningTask = some r → c.stack r = f :: fs →
    c.k.BlockedOn (.mutex m) r →
    f.pc.Yields ∨ Locks P m f.pc ∧ (c.k.mutex m).locked ≠ 0
  free : ∀ t, ¬c.SelfWaits m t

section Invariant

variable [DecidableEq M] [DecidableEq C] {P : Program M C L D}
  {a : Label M C L} {c c' : Config M C L D} {t : ℕ} {m : M}
  {inside : L → Prop}

theorem Guarded.step_owner (hguards : Guards P m inside)
    (hc : Guarded P m inside c) (hok : HandlerMayLock m a c)
    (h : Step P codeTimer a c c') (ht : (c'.k.mutex m).owner = some t) :
    ∃ f fs l, c'.stack t = f :: fs ∧ f.pc = .user l ∧ inside l := by
  cases h.ownerEffect m with
  | keeps ha hlock =>
      have howner := congrArg Prod.snd hlock
      obtain ⟨f, fs, l, hf, hpc, hl⟩ := hc.owner t (howner.symm.trans ht)
      refine h.stays hguards hf hpc hl ha fun h' heq hr => ?_
      subst heq
      exact (hok t hr).1 (howner.symm.trans ht)
  | @takes r f f' fs l hr hf hfree hlock hf' hpc' hfrom =>
      obtain rfl := Option.some.inj
        ((congrArg Prod.snd hlock).symm.trans ht)
      refine ⟨f', fs, l, hf', hpc', ?_⟩
      rcases hfrom with ⟨l₀, d', -, hmove⟩ | hretries
      · exact (hguards.locks hmove).2
      · exact hguards.entry
          (called_retries (hc.called r f (hf ▸ List.mem_cons_self)) hretries)
  | releases ha hlock =>
      have hnone := congrArg Prod.snd hlock
      cases hnone.symm.trans ht

/-- A task that has just locked the mutex was on no queue of it. -/
theorem Guarded.step_free (hguards : Guards P m inside)
    (hc : Guarded P m inside c) (hok : HandlerMayLock m a c)
    (h : Step P codeTimer a c c') : ¬c'.SelfWaits m t := by
  rintro ⟨howner, hblocked⟩
  obtain ⟨f, fs, l, hf, hpc, -⟩ := hc.step_owner hguards hok h howner
  rcases h.joins hblocked with hold | ⟨-, -, g, gs, hg, hyields⟩
  · cases h.ownerEffect m with
    | keeps ha hlock =>
        exact hc.free t ⟨(congrArg Prod.snd hlock).symm.trans howner, hold⟩
    | takes hr hg hfree hlock hf' hpc' hfrom =>
        obtain rfl := Option.some.inj
          ((congrArg Prod.snd hlock).symm.trans howner)
        rcases hc.awake _ _ _ hr hg hold with hyields | ⟨-, hlocked⟩
        · rcases hfrom with ⟨l₀, d', hpc₀, -⟩ | hretries
          · rw [hpc₀] at hyields
            exact hyields
          · rw [retries_of_yields hyields] at hretries
            cases hretries
        · exact hlocked hfree
    | releases ha hlock =>
        cases (congrArg Prod.snd hlock).symm.trans howner
  · obtain ⟨rfl, -⟩ := List.cons.inj (hf.symm.trans hg)
    rw [hpc] at hyields
    exact hyields

/-- The timer handler does not go on with a blocked task. -/
theorem Step.state_of_ticks (h : Step P codeTimer a c c') (ha : a.Ticks)
    {r : ℕ} (hr : c'.k.tasks.runningTask = some r) :
    c'.k.tasks.state r ≠ .blocked := by
  obtain ⟨r₀, f, fs, heffect⟩ := h.stackEffect
  obtain ⟨fuel, esp, esp', hcallback⟩ := h.timer_of_ticks ha
  obtain ⟨x, hdispatch, -⟩ :=
    timerCallback_dispatches heffect.running hcallback
  obtain rfl := Option.some.inj (hr.symm.trans hdispatch.runningTask)
  rw [hdispatch.state_self]
  exact TaskState.noConfusion

/-- The test of a mutex that is locked makes the task yield. -/
theorem Step.lock_yields (h : Step P codeTimer (.call (.lock m)) c c')
    (hlocked : (c.k.mutex m).locked ≠ 0) :
    ∃ r f fs, c.k.tasks.runningTask = some r ∧ c'.stack r = f :: fs ∧
      f.pc.Yields := by
  cases h with
  | lock hr hf hpc hmove htest =>
      obtain ⟨-, -, g, hg, ⟨hfree, -⟩ | ⟨-, hpc', -⟩⟩ := lockStep_cases htest
      · exact absurd hfree hlocked
      · refine ⟨_, g, _, hr, hg, ?_⟩
        rw [hpc']
        trivial

theorem Guarded.step_awake (hhandlers : HandlersLock P m)
    (hc : Guarded P m inside c) (hok : HandlerMayLock m a c)
    (h : Step P codeTimer a c c') {r : ℕ} {f' : Frame M C L}
    {fs' : List (Frame M C L)} (hr' : c'.k.tasks.runningTask = some r)
    (hf' : c'.stack r = f' :: fs') (hblocked : c'.k.BlockedOn (.mutex m) r) :
    f'.pc.Yields ∨ Locks P m f'.pc ∧ (c'.k.mutex m).locked ≠ 0 := by
  have hticks : ¬a.Ticks := fun ha => h.state_of_ticks ha hr' hblocked.1
  have hr := (h.sameList hticks).runningTask.symm.trans hr'
  rcases h.joins hblocked with hold | ⟨-, -, g, gs, hg, hyields⟩
  · obtain ⟨r₀, f, fs, heffect⟩ := h.stackEffect
    obtain rfl := Option.some.inj (hr.symm.trans heffect.running)
    have hf := heffect.stack
    have hstands := heffect.stands
    have hawake := hc.awake _ _ _ hr hf hold
    cases a with
    | call act =>
        obtain ⟨r₀, g, gs, l, l', hr₀, hg, hpc, hmove, -⟩ := h.move
        obtain rfl := Option.some.inj (hr.symm.trans hr₀)
        obtain ⟨rfl, rfl⟩ := List.cons.inj (hf.symm.trans hg)
        rcases hawake with hyields | ⟨⟨l₀, hpc₀, hlocks⟩, hlocked⟩
        · rw [hpc] at hyields
          exact absurd hyields id
        · obtain rfl := Pc.user.inj (hpc.symm.trans hpc₀)
          obtain rfl := hlocks _ _ _ _ hmove
          obtain ⟨r₀, g, gs, hr₀, hg, hyields⟩ := h.lock_yields hlocked
          obtain rfl := Option.some.inj (hr.symm.trans hr₀)
          obtain ⟨rfl, rfl⟩ := List.cons.inj (hf'.symm.trans hg)
          exact Or.inl hyields
    | retry m' =>
        obtain ⟨l, hretries⟩ := hstands
        rcases hawake with hyields | ⟨⟨l₀, hpc₀, -⟩, -⟩
        · rw [retries_of_yields hyields] at hretries
          cases hretries
        · rw [hpc₀] at hretries
          cases hretries
    | sleeping =>
        obtain ⟨l, hsleep⟩ := hstands
        rw [hsleep] at hawake
        rcases hawake with hyields | ⟨⟨l₀, hpc₀, -⟩, -⟩
        · exact absurd hyields id
        · cases hpc₀
    | yield => exact absurd trivial hticks
    | timer => exact absurd trivial hticks
    | irq handler =>
        cases handler with
        | none =>
            have htop := heffect.top
            rw [Label.Top] at htop
            obtain ⟨rfl, rfl⟩ := List.cons.inj (hf'.symm.trans htop)
            cases h
            exact hawake
        | some h₀ =>
            obtain ⟨r₀, gs, hr₀, hdata, hg, hk⟩ := h.handler
            obtain rfl := Option.some.inj (hr.symm.trans hr₀)
            obtain ⟨rfl, rfl⟩ := List.cons.inj (hf'.symm.trans hg)
            refine Or.inr ⟨⟨h₀, rfl, fun _ _ _ _ => hhandlers hdata⟩, ?_⟩
            rw [hk]
            exact fun hfree => (hok r hr).2 hfree hold
  · obtain ⟨rfl, -⟩ := List.cons.inj (hf'.symm.trans hg)
    exact Or.inl hyields

theorem Step.guarded (hguards : Guards P m inside)
    (hhandlers : HandlersLock P m) (hok : HandlerMayLock m a c)
    (h : Step P codeTimer a c c') (hc : Guarded P m inside c) :
    Guarded P m inside c' where
  owner _ ht := hc.step_owner hguards hok h ht
  called := h.called hc.called
  awake _ _ _ hr hf hblocked := hc.step_awake hhandlers hok h hr hf hblocked
  free _ := hc.step_free hguards hok h

end Invariant

/-! ## The defect -/

section Defect

variable [DecidableEq M] [DecidableEq C] {P : Program M C L D}
  {a b : Label M C L} {c c' c'' : Config M C L D} {m : M}

/-- A mutex that has an owner is locked. -/
def OwnerLocked (m : M) (c : Config M C L D) : Prop :=
  ∀ t, (c.k.mutex m).owner = some t → (c.k.mutex m).locked ≠ 0

theorem Step.ownerLocked {timer : ℕ → Tasks → ℕ → Tasks → Prop}
    (h : Step P timer a c c') (hc : OwnerLocked m c) : OwnerLocked m c' := by
  intro t ht hzero
  cases h.ownerEffect m with
  | keeps ha hlock =>
      exact hc t ((congrArg Prod.snd hlock).symm.trans ht)
        ((congrArg Prod.fst hlock).symm.trans hzero)
  | takes hr hf hfree hlock hf' hpc' hfrom =>
      exact one_ne_zero ((congrArg Prod.fst hlock).symm.trans hzero)
  | releases ha hlock => cases (congrArg Prod.snd hlock).symm.trans ht

/-- The test of the mutex by a task that owns it, or that is blocked on the
queue of the unlocked mutex. -/
theorem lockStep_selfWaits {fuel r : ℕ} {l : L} {f : Frame M C L}
    {fs : List (Frame M C L)} (hc : OwnerLocked m c)
    (hnot : ¬((c.k.mutex m).owner ≠ some r ∧
      ((c.k.mutex m).locked = 0 → ¬c.k.BlockedOn (.mutex m) r)))
    (h : lockStep fuel m r l f fs c = some c') : c'.SelfWaits m r := by
  obtain ⟨-, -, g, hg, ⟨hfree, -, hk⟩ | ⟨hlocked, -, henqueue⟩⟩ :=
    lockStep_cases h
  · have howner : (c.k.mutex m).owner ≠ some r := fun heq => hc r heq hfree
    have hblocked : c.k.BlockedOn (.mutex m) r := by
      by_contra hno
      exact hnot ⟨howner, fun _ => hno⟩
    rw [Config.SelfWaits, hk]
    refine ⟨?_, blockedOn_setMutex.mpr hblocked⟩
    simp [Kernel.setMutex]
  · have howner : (c.k.mutex m).owner = some r := by
      by_contra hno
      exact hnot ⟨hno, fun hfree => absurd hfree hlocked⟩
    refine ⟨?_, blockedOn_enqueue_self henqueue⟩
    exact (congrArg Prod.snd (lockOf_enqueue henqueue)).trans howner

theorem Step.irqOn {timer : ℕ → Tasks → ℕ → Tasks → Prop}
    (h : Step P timer a c c') (ha : a = .timer ∨ ∃ x, a = .irq x) {r : ℕ}
    {f : Frame M C L} {fs : List (Frame M C L)}
    (hr : c.k.tasks.runningTask = some r) (hf : c.stack r = f :: fs) :
    f.irqOn = true := by
  have htop : ∀ {r' : ℕ} {g : Frame M C L} {gs : List (Frame M C L)},
      c.k.tasks.runningTask = some r' → c.stack r' = g :: gs →
      g.irqOn = true → f.irqOn = true := by
    intro r' g gs hr' hg hirq
    obtain rfl := Option.some.inj (hr.symm.trans hr')
    obtain ⟨rfl, rfl⟩ := List.cons.inj (hf.symm.trans hg)
    exact hirq
  cases h with
  | timer hr' hg hirq htimer => exact htop hr' hg hirq
  | irqDone hr' hg hirq hdata => exact htop hr' hg hirq
  | irqEnter hr' hg hirq hdata => exact htop hr' hg hirq
  | skip | lock | retry | unlock | wait | signal | broadcast | sleep
  | sleepMark | yield | iret => simp at ha

/-- A handler that comes where it should not leaves the interrupted task
waiting for itself: its next step is the test of the mutex. -/
theorem Step.selfWaits (hhandlers : HandlersLock P m) (hc : OwnerLocked m c)
    (hnot : ¬HandlerMayLock m a c) (h : Step P codeTimer a c c')
    (hnext : Step P codeTimer b c' c'') : ∃ t, c''.SelfWaits m t := by
  unfold HandlerMayLock at hnot
  split at hnot
  next h₀ =>
    obtain ⟨r, hnot⟩ := not_forall.mp hnot
    obtain ⟨hr, hnot⟩ := Classical.not_imp.mp hnot
    obtain ⟨r₀, fs, hr₀, hdata, hstack, hk⟩ := h.handler
    obtain rfl := Option.some.inj (hr.symm.trans hr₀)
    rw [← hk] at hr hnot
    obtain ⟨r₁, g, gs, heffect⟩ := hnext.stackEffect
    obtain rfl := Option.some.inj (hr.symm.trans heffect.running)
    obtain ⟨rfl, rfl⟩ := List.cons.inj (hstack.symm.trans heffect.stack)
    have hstands := heffect.stands
    have hoff : ¬(b = .timer ∨ ∃ x, b = .irq x) :=
      fun hb => Bool.noConfusion (hnext.irqOn hb hr hstack)
    cases b with
    | call act =>
        obtain ⟨r₁, g, gs, l, l', hr₁, hg, hpc, hmove, -⟩ := hnext.move
        obtain rfl := Option.some.inj (hr.symm.trans hr₁)
        obtain ⟨rfl, rfl⟩ := List.cons.inj (hstack.symm.trans hg)
        obtain rfl := Pc.user.inj hpc
        obtain rfl := hhandlers hdata hmove
        have hc' : OwnerLocked m c' := h.ownerLocked hc
        cases hnext with
        | @lock _ _ r₂ g gs l₂ l' d' m fuel hr₂ hf₂ hpc₂ hmove₂ htest =>
            obtain rfl := Option.some.inj (hr.symm.trans hr₂)
            exact ⟨_, lockStep_selfWaits (c := { c' with data := d' }) hc'
              hnot htest⟩
    | retry m' =>
        obtain ⟨l, hretries⟩ := hstands
        cases hretries
    | sleeping =>
        obtain ⟨l, hsleep⟩ := hstands
        cases hsleep
    | yield => exact absurd rfl hstands
    | timer => exact absurd (Or.inl rfl) hoff
    | irq x => exact absurd (Or.inr ⟨x, rfl⟩) hoff
  · exact absurd trivial hnot

end Defect

end BabOs.Sync
