import BabOs.Sync.Exec

/-!
# Mutual exclusion

At most one activation is inside the region that a mutex guards, and the
mutex names its task.  The proof uses nothing about the scheduler: it goes
through for every effect that a timer interrupt might have on the tasks.
-/

namespace BabOs.Sync

open BabOs.Sched BabOs.Chain

variable {M C L D : Type*}

/-! ## What the functions do to the lock of a mutex -/

/-- The fields of a mutex that say who has locked it. -/
def Kernel.lockOf (k : Kernel M C) (m : M) : ℕ × Option ℕ :=
  ((k.mutex m).locked, (k.mutex m).owner)

section Locks

variable [DecidableEq M] [DecidableEq C] {k k' : Kernel M C} {m m' : M}
variable {r fuel : ℕ}

theorem lockOf_setHead (q : Queue M C) (h : Option ℕ) :
    (k.setHead q h).lockOf m = k.lockOf m := by
  cases q with
  | mutex m' =>
      by_cases hm : m = m'
      · subst hm
        simp [Kernel.lockOf, Kernel.setHead, Kernel.setMutex]
      · simp [Kernel.lockOf, Kernel.setHead, Kernel.setMutex, hm]
  | cond v => rfl

theorem lockOf_enqueue {q : Queue M C} (h : enqueue fuel q r k = some k') :
    k'.lockOf m = k.lockOf m := by
  simp only [enqueue] at h
  split at h
  · cases h
    exact lockOf_setHead q _
  · split at h
    · cases h
    · cases h
      rfl

theorem lockOf_wakeFirst (q : Queue M C) :
    (wakeFirst q k).lockOf m = k.lockOf m := by
  rw [wakeFirst]
  split
  · rfl
  · exact lockOf_setHead q _

theorem lockOf_condBroadcast {v : C} (h : condBroadcast v fuel k = some k') :
    k'.lockOf m = k.lockOf m := by
  induction fuel generalizing k with
  | zero => cases h
  | succ fuel ih =>
      rw [condBroadcast] at h
      split at h
      · cases h
        rfl
      · exact (ih h).trans (lockOf_wakeFirst _)

theorem lockOf_mutexUnlock_of_ne (hne : m' ≠ m) :
    (mutexUnlock m k).lockOf m' = k.lockOf m' := by
  rw [mutexUnlock, lockOf_wakeFirst]
  simp [Kernel.lockOf, Kernel.setMutex, hne]

/-- A mutex that has been unlocked is free, whoever waits for it. -/
theorem lockOf_mutexUnlock_self : (mutexUnlock m k).lockOf m = (0, none) := by
  rw [mutexUnlock, lockOf_wakeFirst]
  simp [Kernel.lockOf, Kernel.setMutex]

theorem locked_mutexUnlock : ((mutexUnlock m k).mutex m).locked = 0 :=
  congrArg Prod.fst lockOf_mutexUnlock_self

theorem lockOf_condWaitEnter_of_ne {v : C} (hne : m' ≠ m)
    (h : condWaitEnter fuel v m r k = some k') :
    k'.lockOf m' = k.lockOf m' := by
  rw [condWaitEnter] at h
  split at h
  · cases h
  next k₁ hk₁ =>
    cases h
    exact (lockOf_mutexUnlock_of_ne hne).trans (lockOf_enqueue hk₁)

/-- A test either takes the mutex or puts the task on its queue. -/
theorem mutexTest_eq_some {b : Bool} (h : mutexTest fuel m r k = some (b, k')) :
    (b = true ∧ (k.mutex m).locked = 0 ∧
      k' = k.setMutex m { k.mutex m with locked := 1, owner := some r }) ∨
    (b = false ∧ (k.mutex m).locked ≠ 0 ∧
      enqueue fuel (.mutex m) r k = some k') := by
  rw [mutexTest] at h
  split_ifs at h with hlocked
  · split at h
    · cases h
    next k₁ hk₁ =>
      cases h
      exact Or.inr ⟨rfl, hlocked, hk₁⟩
  · cases h
    exact Or.inl ⟨rfl, not_not.mp hlocked, rfl⟩

end Locks

/-! ## Who holds a mutex -/

/-- The activation `i` of the task `t`, counted from the oldest one, has
locked `m` and has not called its unlock. -/
def HoldsAt (S : ℕ → List (Frame M C L)) (t i : ℕ) (m : M) : Prop :=
  ∃ f, (S t).reverse[i]? = some f ∧ m ∈ f.holds

theorem getElem?_reverse_cons {α : Type*} (x : α) (l : List α) (i : ℕ) :
    (x :: l).reverse[i]? = if i = l.length then some x else l.reverse[i]? := by
  rw [List.reverse_cons, List.getElem?_append, List.length_reverse]
  split_ifs with hlt heq heq
  · omega
  · rfl
  · subst heq
    simp
  · rw [List.getElem?_eq_none (by simp; omega),
      List.getElem?_eq_none (by simp; omega)]

section Holding

variable {S : ℕ → List (Frame M C L)} {r t i : ℕ} {m : M}
  {f f' g : Frame M C L} {fs : List (Frame M C L)}

theorem holdsAt_top (hf : S r = f :: fs) (hm : m ∈ f.holds) :
    HoldsAt S r fs.length m :=
  ⟨f, by simp [hf], hm⟩

/-- Replacing the topmost activation changes only what that one holds. -/
theorem holdsAt_replace (hf : S r = f :: fs)
    (h : HoldsAt (Function.update S r (f' :: fs)) t i m) :
    (t = r ∧ i = fs.length ∧ m ∈ f'.holds) ∨
      (¬ (t = r ∧ i = fs.length) ∧ HoldsAt S t i m) := by
  obtain ⟨x, hx, hm⟩ := h
  by_cases ht : t = r
  · subst ht
    rw [Function.update_self, getElem?_reverse_cons] at hx
    split_ifs at hx with hi
    · cases hx
      exact Or.inl ⟨rfl, hi, hm⟩
    · refine Or.inr ⟨fun hand => hi hand.2, x, ?_, hm⟩
      rw [hf, getElem?_reverse_cons, if_neg hi, hx]
  · rw [Function.update_of_ne ht] at hx
    exact Or.inr ⟨fun hand => ht hand.1, x, hx, hm⟩

theorem holdsAt_replace_subset (hf : S r = f :: fs)
    (hsub : m ∈ f'.holds → m ∈ f.holds)
    (h : HoldsAt (Function.update S r (f' :: fs)) t i m) :
    HoldsAt S t i m := by
  rcases holdsAt_replace hf h with ⟨rfl, rfl, hm⟩ | ⟨-, hold⟩
  · exact holdsAt_top hf (hsub hm)
  · exact hold

theorem holdsAt_push (hnil : m ∉ f'.holds)
    (h : HoldsAt (Function.update S r (f' :: S r)) t i m) :
    HoldsAt S t i m := by
  obtain ⟨x, hx, hm⟩ := h
  by_cases ht : t = r
  · subst ht
    rw [Function.update_self, getElem?_reverse_cons] at hx
    split_ifs at hx with hi
    · cases hx
      exact absurd hm hnil
    · exact ⟨x, hx, hm⟩
  · rw [Function.update_of_ne ht] at hx
    exact ⟨x, hx, hm⟩

theorem holdsAt_pop (hf : S r = f :: fs)
    (h : HoldsAt (Function.update S r fs) t i m) : HoldsAt S t i m := by
  obtain ⟨x, hx, hm⟩ := h
  by_cases ht : t = r
  · subst ht
    rw [Function.update_self] at hx
    refine ⟨x, ?_, hm⟩
    have hlt : i < fs.length := by
      have := (List.getElem?_eq_some_iff.mp hx).1
      simpa using this
    rw [hf, getElem?_reverse_cons, if_neg (by omega), hx]
  · rw [Function.update_of_ne ht] at hx
    exact ⟨x, hx, hm⟩

end Holding

/-! ## Steps -/

def Label.Releases (m : M) : Label M C L → Prop
  | .call (.unlock m') => m' = m
  | .call (.wait _ m') => m' = m
  | _ => False

instance [DecidableEq M] (m : M) (a : Label M C L) :
    Decidable (a.Releases m) := by
  unfold Label.Releases
  split <;> infer_instance

def Config.topHolds (c : Config M C L D) : List M :=
  match c.k.tasks.runningTask with
  | none => []
  | some r =>
      match c.stack r with
      | [] => []
      | f :: _ => f.holds

theorem Config.topHolds_eq {c : Config M C L D} {r : ℕ} {f : Frame M C L}
    {fs : List (Frame M C L)} (hr : c.k.tasks.runningTask = some r)
    (hf : c.stack r = f :: fs) : c.topHolds = f.holds := by
  simp only [Config.topHolds, hr, hf]

/-- An activation unlocks `m` only when it holds it. -/
def Disciplined (m : M) (a : Label M C L) (c : Config M C L D) : Prop :=
  a.Releases m → m ∈ c.topHolds

instance [DecidableEq M] (m : M) (a : Label M C L) (c : Config M C L D) :
    Decidable (Disciplined m a c) :=
  inferInstanceAs (Decidable (_ → _))

/-- What a step may do to the lock of `m` and to the activations that hold
it. -/
inductive LockEffect (m : M) (a : Label M C L) (c c' : Config M C L D) : Prop
  | keeps (hlock : c'.k.lockOf m = c.k.lockOf m)
      (hholds : ∀ t i, HoldsAt c'.stack t i m → HoldsAt c.stack t i m)
  | takes (r j : ℕ) (hfree : (c.k.mutex m).locked = 0)
      (hlock : c'.k.lockOf m = (1, some r))
      (hholds : ∀ t i, HoldsAt c'.stack t i m →
        (t = r ∧ i = j) ∨ HoldsAt c.stack t i m)
  | releases (r : ℕ) (f : Frame M C L) (fs : List (Frame M C L))
      (ha : a.Releases m) (hr : c.k.tasks.runningTask = some r)
      (hf : c.stack r = f :: fs)
      (hholds : ∀ t i, HoldsAt c'.stack t i m →
        HoldsAt c.stack t i m ∧ ¬ (t = r ∧ i = fs.length))

section Effects

variable {P : Program M C L D} {timer : ℕ → Tasks → ℕ → Tasks → Prop}
  {a : Label M C L} {c c' : Config M C L D} {m : M}

/-- A step that leaves the lock and what the topmost activation holds. -/
theorem LockEffect.of_replace {r : ℕ} {f f' : Frame M C L}
    {fs : List (Frame M C L)} (hf : c.stack r = f :: fs)
    (hstack : c'.stack = Function.update c.stack r (f' :: fs))
    (hholds : f'.holds = f.holds) (hlock : c'.k.lockOf m = c.k.lockOf m) :
    LockEffect m a c c' := by
  refine LockEffect.keeps hlock fun t i hold => ?_
  rw [hstack] at hold
  exact holdsAt_replace_subset hf (fun hmem => hholds ▸ hmem) hold

theorem LockEffect.of_data (d : D) (h : LockEffect m a { c with data := d } c') :
    LockEffect m a c c' := by
  cases h with
  | keeps hlock hholds => exact LockEffect.keeps hlock hholds
  | takes r j hfree hlock hholds =>
      exact LockEffect.takes r j hfree hlock hholds
  | releases r f fs ha hr hf hholds =>
      exact LockEffect.releases r f fs ha hr hf hholds

variable [DecidableEq M]

/-- A call that unlocks `m'` gives up `m'` and no other mutex. -/
theorem release_effect {r : ℕ} {m' : M} {f f' : Frame M C L}
    {fs : List (Frame M C L)} (hr : c.k.tasks.runningTask = some r)
    (hf : c.stack r = f :: fs) (ha : a.Releases m')
    (hstack : c'.stack = Function.update c.stack r (f' :: fs))
    (hholds : f'.holds = f.holds.filter (· ≠ m'))
    (hlock : m ≠ m' → c'.k.lockOf m = c.k.lockOf m) :
    LockEffect m a c c' := by
  by_cases hm : m = m'
  · subst hm
    refine LockEffect.releases r f fs ha hr hf fun t i hold => ?_
    rw [hstack] at hold
    rcases holdsAt_replace hf hold with ⟨-, -, hmem⟩ | ⟨hne, hold⟩
    · simp [hholds] at hmem
    · exact ⟨hold, hne⟩
  · refine LockEffect.keeps (hlock hm) fun t i hold => ?_
    rw [hstack] at hold
    refine holdsAt_replace_subset hf (fun hmem => ?_) hold
    rw [hholds] at hmem
    exact (List.mem_filter.mp hmem).1

variable [DecidableEq C]

theorem lockStep_effect {fuel r : ℕ} {m' : M} {l : L} {f : Frame M C L}
    {fs : List (Frame M C L)} (hf : c.stack r = f :: fs)
    (h : lockStep fuel m' r l f fs c = some c') : LockEffect m a c c' := by
  rw [lockStep] at h
  split at h
  · cases h
  next k hk =>
    cases h
    rcases mutexTest_eq_some hk with ⟨-, hfree, rfl⟩ | ⟨hb, -⟩
    · by_cases hm : m' = m
      · subst hm
        refine LockEffect.takes r fs.length hfree ?_ ?_
        · simp [Kernel.lockOf, Kernel.setMutex]
        · intro t i hold
          rcases holdsAt_replace hf hold with ⟨ht, hi, -⟩ | ⟨-, hold⟩
          · exact Or.inl ⟨ht, hi⟩
          · exact Or.inr hold
      · refine LockEffect.keeps ?_ ?_
        · simp [Kernel.lockOf, Kernel.setMutex, Ne.symm hm]
        · intro t i hold
          refine holdsAt_replace_subset hf (fun hmem => ?_) hold
          exact (List.mem_cons.mp hmem).resolve_left (Ne.symm hm)
    · cases hb
  next k hk =>
    cases h
    rcases mutexTest_eq_some hk with ⟨hb, -⟩ | ⟨-, -, hk⟩
    · cases hb
    · exact LockEffect.of_replace hf rfl rfl (lockOf_enqueue hk)

theorem Step.lockEffect (h : Step P timer a c c') (m : M) :
    LockEffect m a c c' := by
  cases h with
  | skip hr hf hpc hmove =>
      exact LockEffect.of_replace hf rfl rfl rfl
  | @lock _ _ r f fs l l' d' m' fuel hr hf hpc hmove htest =>
      exact LockEffect.of_data d' (lockStep_effect hf htest)
  | retry hr hf hpc htest => exact lockStep_effect hf htest
  | unlock hr hf hpc hmove =>
      exact release_effect hr hf rfl rfl rfl lockOf_mutexUnlock_of_ne
  | wait hr hf hpc hmove hwait =>
      exact release_effect hr hf rfl rfl rfl
        fun hne => lockOf_condWaitEnter_of_ne hne hwait
  | signal hr hf hpc hmove =>
      exact LockEffect.of_replace hf rfl rfl (lockOf_wakeFirst _)
  | broadcast hr hf hpc hmove hcast =>
      exact LockEffect.of_replace hf rfl rfl (lockOf_condBroadcast hcast)
  | sleep hr hf hpc hmove =>
      exact LockEffect.of_replace hf rfl rfl rfl
  | sleepMark hr hf hpc =>
      exact LockEffect.of_replace hf rfl rfl rfl
  | yield hr hf hpc htimer =>
      exact LockEffect.of_replace hf rfl rfl rfl
  | timer hr hf hirq htimer => exact LockEffect.keeps rfl fun t i hold => hold
  | irqDone hr hf hirq hdata => exact LockEffect.keeps rfl fun t i hold => hold
  | irqEnter hr hf hirq hdata =>
      refine LockEffect.keeps rfl fun t i hold => ?_
      simp only [Config.setStack, ← hf] at hold
      exact holdsAt_push List.not_mem_nil hold
  | iret hr hf hpc hmove =>
      exact LockEffect.keeps rfl fun t i hold => holdsAt_pop hf hold

end Effects

/-! ## The invariant -/

/-- There is one place from which `m` may be held, and while it is held from
there it is locked and names the task. -/
def Exclusive (m : M) (c : Config M C L D) : Prop :=
  ∃ place : Option (ℕ × ℕ), ∀ t i, HoldsAt c.stack t i m →
    place = some (t, i) ∧ c.k.lockOf m = (1, some t)

section Runs

variable [DecidableEq M] [DecidableEq C] {P : Program M C L D}
variable {timer : ℕ → Tasks → ℕ → Tasks → Prop}
  {a : Label M C L} {c₀ c c' : Config M C L D} {m : M}

theorem Step.exclusive (hok : Disciplined m a c) (h : Step P timer a c c')
    (hc : Exclusive m c) : Exclusive m c' := by
  obtain ⟨place, hplace⟩ := hc
  cases h.lockEffect m with
  | keeps hlock hholds =>
      exact ⟨place, fun t i hold => hlock ▸ hplace t i (hholds t i hold)⟩
  | takes r j hfree hlock hholds =>
      refine ⟨some (r, j), fun t i hold => ?_⟩
      rcases hholds t i hold with ⟨rfl, rfl⟩ | hold
      · exact ⟨rfl, hlock⟩
      · have hone := congrArg Prod.fst (hplace t i hold).2
        simp [Kernel.lockOf, hfree] at hone
  | releases r f fs ha hr hf hholds =>
      have hm : m ∈ f.holds := Config.topHolds_eq hr hf ▸ hok ha
      have htop := (hplace r fs.length (holdsAt_top hf hm)).1
      refine ⟨none, fun t i hold => ?_⟩
      obtain ⟨hold, hne⟩ := hholds t i hold
      have heq := htop.symm.trans (hplace t i hold).1
      simp only [Option.some.injEq, Prod.mk.injEq] at heq
      exact absurd ⟨heq.1.symm, heq.2.symm⟩ hne

/-- In every state of a run in which `m` is unlocked only by activations that
hold it, at most one activation holds `m`; while one does, `m` is locked and
its owner is the task of that activation.  The timer interrupt may do anything
to the tasks, so a waiter may also go on before an unlock has woken it. -/
theorem run_exclusive (hinit : ∀ t i, ¬ HoldsAt c₀.stack t i m)
    (hrun : Run P timer (Disciplined m) c₀ c) {t i : ℕ}
    (hold : HoldsAt c.stack t i m) :
    (∀ t' i', HoldsAt c.stack t' i' m → t' = t ∧ i' = i) ∧
      (c.k.mutex m).locked = 1 ∧ (c.k.mutex m).owner = some t := by
  have hexcl : Exclusive m c :=
    hrun.invariant ⟨none, fun t i hold => absurd hold (hinit t i)⟩
      Step.exclusive
  obtain ⟨place, hplace⟩ := hexcl
  obtain ⟨hat, hlock⟩ := hplace t i hold
  refine ⟨fun t' i' hold' => ?_, congrArg Prod.fst hlock,
    congrArg Prod.snd hlock⟩
  have heq := hat.symm.trans (hplace t' i' hold').1
  simp only [Option.some.injEq, Prod.mk.injEq] at heq
  exact ⟨heq.1.symm, heq.2.symm⟩

end Runs

/-- Tasks that lock and unlock one mutex forever. -/
def lockLoop : Code Unit Unit Bool Unit Empty where
  next locked d :=
    some (if locked then .unlock () else .lock (), !locked, d)
  irq e _ := e.elim

/-- Two tasks that are about to lock the mutex. -/
def twoTasks : Config Unit Unit Bool Unit where
  k :=
    { tasks :=
        { task := fun t =>
            { esp := 0
              kstack := 0
              state := if t = 0 then .running else .ready
              sleepTicks := 0
              next := if t = 0 then some 1 else none
              waitNext := none }
          runningTask := some 0
          readyQueue := some 0 }
      mutex := fun _ => { locked := 0, owner := none, waiters := none }
      cond := fun _ => none
      tick := 0 }
  stack := fun _ => [{ pc := .user false, irqOn := true, holds := [] }]
  data := ()
  woken := fun _ => none
  since := fun _ => 0
  clock := 0

/-- The first task locks the mutex and is preempted; the second one finds it
locked and yields; then the first one goes on inside its region. -/
theorem run_exclusive_twoTasks :
    ∃ c, Run lockLoop.program codeTimer (Disciplined ()) twoTasks c ∧
      c.k.tasks.state 1 = .blocked ∧
      (∀ t' i', HoldsAt c.stack t' i' () → t' = 0 ∧ i' = 0) ∧
      (c.k.mutex ()).locked = 1 ∧ (c.k.mutex ()).owner = some 0 := by
  obtain ⟨c, hrun, hblocked, hstack⟩ :=
    exists_run lockLoop (Disciplined ()) 3 [.go, .timer, .go, .go] twoTasks
      (fun c => c.k.tasks.state 1 = .blocked ∧
        c.stack 0 = [{ pc := .user true, irqOn := true, holds := [()] }])
      (by decide +kernel)
  have hold : HoldsAt c.stack 0 0 () :=
    holdsAt_top hstack (List.mem_singleton_self ())
  have hinit : ∀ t i, ¬ HoldsAt twoTasks.stack t i () := by
    rintro t i ⟨f, hf, hmem⟩
    obtain rfl := List.mem_singleton.mp (List.mem_of_getElem? hf)
    cases hmem
  obtain ⟨honly, hlocked, howner⟩ := run_exclusive hinit hrun hold
  exact ⟨c, hrun, hblocked, honly, hlocked, howner⟩

end BabOs.Sync
