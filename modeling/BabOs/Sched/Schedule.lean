import BabOs.Sched.Model

/-!
# What the timer interrupt does to the tasks

The timer handler ages the sleeping tasks and moves on to another task.  The
lemmas here say what it leaves alone, and that it picks a task that can run
when the task list holds one.
-/

namespace BabOs.Sched

open BabOs.Chain

/-! ## State updates -/

namespace Tasks

variable {T : Tasks} {t x : ℕ} {st : TaskState}

@[simp] theorem next_setState : (T.setState t st).next = T.next := by
  funext x
  by_cases hx : x = t <;> simp [next, setState, setTask, hx]

@[simp] theorem waitNext_setState : (T.setState t st).waitNext = T.waitNext := by
  funext x
  by_cases hx : x = t <;> simp [waitNext, setState, setTask, hx]

@[simp] theorem state_setState_self : (T.setState t st).state t = st := by
  simp [state, setState, setTask]

theorem state_setState_of_ne (h : x ≠ t) :
    (T.setState t st).state x = T.state x := by
  simp [state, setState, setTask, h]

@[simp] theorem readyQueue_setState :
    (T.setState t st).readyQueue = T.readyQueue :=
  rfl

@[simp] theorem runningTask_setState :
    (T.setState t st).runningTask = T.runningTask :=
  rfl

end Tasks

/-! ## Sleeping tasks -/

/-- `y` is `x` after some updates of its sleep ticks. -/
structure Aged (x y : Task) : Prop where
  esp : y.esp = x.esp
  kstack : y.kstack = x.kstack
  next : y.next = x.next
  waitNext : y.waitNext = x.waitNext
  state : y.state = x.state ∨ x.state = .sleeping ∧ y.state = .ready

theorem Aged.refl (x : Task) : Aged x x :=
  ⟨rfl, rfl, rfl, rfl, Or.inl rfl⟩

theorem Aged.trans {x y z : Task} (h : Aged x y) (h' : Aged y z) :
    Aged x z := by
  refine ⟨h'.esp.trans h.esp, h'.kstack.trans h.kstack,
    h'.next.trans h.next, h'.waitNext.trans h.waitNext, ?_⟩
  rcases h.state with hxy | ⟨hx, hy⟩
  · rcases h'.state with hyz | ⟨hy, hz⟩
    · exact Or.inl (hyz.trans hxy)
    · exact Or.inr ⟨hxy ▸ hy, hz⟩
  · rcases h'.state with hyz | ⟨hy', -⟩
    · exact Or.inr ⟨hx, hyz.trans hy⟩
    · rw [hy] at hy'
      cases hy'

theorem aged_updateSleep (x : Task) : Aged x (updateSleep x) := by
  rw [updateSleep]
  split_ifs with hsleep
  · dsimp only
    split_ifs
    · exact ⟨rfl, rfl, rfl, rfl, Or.inr ⟨hsleep.1, rfl⟩⟩
    · exact ⟨rfl, rfl, rfl, rfl, Or.inl rfl⟩
  · exact Aged.refl x

theorem sleepTicks_updateSleep (x : Task) :
    (updateSleep x).sleepTicks =
      if x.state = .sleeping ∧ 0 < x.sleepTicks then x.sleepTicks - 1
      else x.sleepTicks := by
  rw [updateSleep]
  split_ifs
  · dsimp only
    split_ifs <;> rfl
  · rfl

theorem state_updateSleep {x : Task} (hx : x.state = .sleeping) :
    (updateSleep x).state = .sleeping ∨
      (updateSleep x).state = .ready ∧ (updateSleep x).sleepTicks = 0 := by
  rw [updateSleep]
  split_ifs
  · dsimp only
    split_ifs with hzero
    · exact Or.inr ⟨rfl, hzero⟩
    · exact Or.inl hx
  · exact Or.inl hx

theorem updateSleep_eq_self {x : Task} (hx : x.state ≠ .sleeping) :
    updateSleep x = x := by
  rw [updateSleep, if_neg fun hand => hx hand.1]

/-- Updating the sleep ticks ages the tasks and changes nothing else. -/
structure AllAged (T T' : Tasks) : Prop where
  task : ∀ t, Aged (T.task t) (T'.task t)
  runningTask : T'.runningTask = T.runningTask
  readyQueue : T'.readyQueue = T.readyQueue

theorem tasksUpdateLoop_aged {fuel : ℕ} {tmp : Option ℕ} {T T' : Tasks}
    (h : tasksUpdateLoop fuel tmp T = some T') : AllAged T T' := by
  induction fuel generalizing tmp T with
  | zero =>
      cases tmp with
      | none =>
          cases h
          exact ⟨fun t => Aged.refl _, rfl, rfl⟩
      | some t => cases h
  | succ fuel ih =>
      cases tmp with
      | none =>
          cases h
          exact ⟨fun t => Aged.refl _, rfl, rfl⟩
      | some t =>
          have hrest := ih h
          refine ⟨fun x => Aged.trans ?_ (hrest.task x), hrest.runningTask,
            hrest.readyQueue⟩
          by_cases hx : x = t
          · subst hx
            simpa [Tasks.setTask] using aged_updateSleep (T.task x)
          · simpa [Tasks.setTask, hx] using Aged.refl (T.task x)

theorem tasksUpdateLoop_task {fuel : ℕ} {tmp : Option ℕ} {T T' : Tasks}
    {l : List ℕ} (hchain : IsChain T.next tmp l)
    (h : tasksUpdateLoop fuel tmp T = some T') (t : ℕ) :
    T'.task t = if t ∈ l then updateSleep (T.task t) else T.task t := by
  induction fuel generalizing tmp T l with
  | zero =>
      cases tmp with
      | none =>
          cases h
          rw [isChain_none_iff] at hchain
          simp [hchain]
      | some x => cases h
  | succ fuel ih =>
      cases tmp with
      | none =>
          cases h
          rw [isChain_none_iff] at hchain
          simp [hchain]
      | some x =>
          have hnodup := hchain.nodup
          cases l with
          | nil => cases hchain
          | cons y rest =>
              obtain ⟨hy, hrest⟩ := hchain
              obtain rfl := Option.some.inj hy
              rw [List.nodup_cons] at hnodup
              have hnext : (T.setTask x (updateSleep (T.task x))).next =
                  T.next := by
                funext y
                by_cases hy : y = x
                · subst hy
                  simp [Tasks.next, Tasks.setTask,
                    (aged_updateSleep (T.task y)).next]
                · simp [Tasks.next, Tasks.setTask, hy]
              rw [tasksUpdateLoop, hnext] at h
              have hchain' : IsChain
                  (T.setTask x (updateSleep (T.task x))).next (T.next x)
                  rest := by
                rw [hnext]
                exact hrest
              rw [ih hchain' h]
              by_cases htx : t = x
              · subst htx
                simp [hnodup.1, Tasks.setTask]
              · simp [htx, Tasks.setTask]

/-- The number of rounds does not matter when the loop ends. -/
theorem tasksUpdateSleepTicks_unique {fuel fuel' : ℕ} {T T₁ T₂ : Tasks}
    {l : List ℕ} (hchain : IsChain T.next T.readyQueue l)
    (h₁ : tasksUpdateSleepTicks fuel T = some T₁)
    (h₂ : tasksUpdateSleepTicks fuel' T = some T₂) : T₁ = T₂ := by
  have haged₁ := tasksUpdateLoop_aged h₁
  have haged₂ := tasksUpdateLoop_aged h₂
  have htask : T₁.task = T₂.task := by
    funext t
    rw [tasksUpdateLoop_task hchain h₁, tasksUpdateLoop_task hchain h₂]
  have hrun := haged₁.runningTask.trans haged₂.runningTask.symm
  have hqueue := haged₁.readyQueue.trans haged₂.readyQueue.symm
  cases T₁
  cases T₂
  simp_all

section Aging

variable {T T' : Tasks} {t : ℕ}

theorem AllAged.next (h : AllAged T T') : T'.next = T.next :=
  funext fun t => (h.task t).next

theorem AllAged.waitNext (h : AllAged T T') : T'.waitNext = T.waitNext :=
  funext fun t => (h.task t).waitNext

theorem AllAged.blocked_iff (h : AllAged T T') :
    T'.state t = .blocked ↔ T.state t = .blocked := by
  rcases (h.task t).state with hst | ⟨hst, hst'⟩
  · rw [Tasks.state, hst, Tasks.state]
  · simp [Tasks.state, hst, hst']

theorem AllAged.sleeping (h : AllAged T T') (ht : T'.state t = .sleeping) :
    T.state t = .sleeping := by
  rcases (h.task t).state with hst | ⟨hst, -⟩
  · exact hst.symm.trans ht
  · exact hst

theorem AllAged.runnable (h : AllAged T T') (ht : T.Runnable t) :
    T'.Runnable t := by
  rcases (h.task t).state with hst | ⟨hst, -⟩
  · simpa [Tasks.Runnable, Tasks.state, hst] using ht
  · simp [Tasks.Runnable, Tasks.state, hst] at ht

end Aging

/-! ## The choice of the next task -/

section Choice

variable {T : Tasks} {start t fuel : ℕ} {l : List ℕ}

/-- The loop stops at a task that can run, or back where it started. -/
theorem scheduleLoop_eq_some {x : ℕ}
    (h : scheduleLoop T start fuel x = some t) :
    T.Runnable t ∨ t = start := by
  induction fuel generalizing x with
  | zero => cases h
  | succ fuel ih =>
      rw [scheduleLoop] at h
      split at h
      · cases h
      · split_ifs at h with hrun hstart
        · cases h
          exact Or.inl hrun
        · cases h
          exact Or.inr hstart
        · exact ih h

/-- The task that the loop looks at after `x`. -/
def succ (T : Tasks) (x : ℕ) : Option ℕ := (T.next x).or T.readyQueue

theorem scheduleLoop_mem (hchain : IsChain T.next T.readyQueue l) {x : ℕ}
    (hx : x ∈ l) (h : scheduleLoop T start fuel x = some t) : t ∈ l := by
  have hsucc : ∀ {x y}, x ∈ l → succ T x = some y → y ∈ l := by
    intro x y hx hy
    cases hnext : T.next x with
    | none =>
        rw [succ, hnext, Option.none_or, hchain.head_eq] at hy
        exact List.mem_of_mem_head? hy
    | some z =>
        rw [succ, hnext, Option.some_or] at hy
        exact hchain.next_mem hx (hnext.trans hy)
  induction fuel generalizing x with
  | zero => cases h
  | succ fuel ih =>
      rw [scheduleLoop] at h
      split at h
      · cases h
      next y hy =>
        have hyl := hsucc hx hy
        split_ifs at h
        · exact Option.some.inj h ▸ hyl
        · exact Option.some.inj h ▸ hyl
        · exact ih hyl h

/-- On the way back to `start` the loop does not pass a task that can run. -/
theorem runnable_of_segment {x : ℕ} {w : List ℕ}
    (h : scheduleLoop T start fuel x = some t)
    (hseg : IsSegment (succ T) (succ T x) w (some start)) (hstart : start ∉ w)
    {i : ℕ} (hi : i ∈ w) (hrun : T.Runnable i) : T.Runnable t := by
  induction w generalizing fuel x with
  | nil => cases hi
  | cons y w ih =>
      obtain ⟨hy, hrest⟩ := hseg
      cases fuel with
      | zero => cases h
      | succ fuel =>
          rw [scheduleLoop, show (T.next x).or T.readyQueue = some y from hy]
            at h
          dsimp only at h
          have hne : y ≠ start := fun heq => hstart (by simp [heq])
          rw [if_neg hne] at h
          split_ifs at h with hyrun
          · cases h
            exact hyrun
          · refine ih h hrest (List.not_mem_of_not_mem_cons hstart) ?_
            rcases List.mem_cons.mp hi with rfl | hi
            · exact absurd hrun hyrun
            · exact hi

theorem segment_succ_of_none {h : Option ℕ} {b : List ℕ}
    (hseg : IsSegment T.next h b none) :
    IsSegment (succ T) (h.or T.readyQueue) b T.readyQueue := by
  induction b generalizing h with
  | nil =>
      obtain rfl : h = none := hseg
      rfl
  | cons x b ih =>
      obtain ⟨rfl, hrest⟩ := hseg
      exact ⟨rfl, ih hrest⟩

theorem segment_succ_of_some {h : Option ℕ} {a : List ℕ} {s : ℕ}
    (hseg : IsSegment T.next h a (some s)) :
    IsSegment (succ T) h a (some s) := by
  induction a generalizing h with
  | nil => exact hseg
  | cons x a ih =>
      obtain ⟨rfl, hrest⟩ := hseg
      refine ⟨rfl, ?_⟩
      have hsome : succ T x = T.next x := by
        cases a with
        | nil => rw [succ, isSegment_nil.mp hrest, Option.some_or]
        | cons y a => rw [succ, hrest.1, Option.some_or]
      rw [hsome]
      exact ih hrest

theorem segment_around {a b : List ℕ}
    (hchain : IsChain T.next T.readyQueue (a ++ start :: b)) :
    IsSegment (succ T) (succ T start) (b ++ a) (some start) := by
  obtain ⟨mid, ha, rfl, hb⟩ := isSegment_append.mp hchain
  exact isSegment_append.mpr
    ⟨T.readyQueue, segment_succ_of_none hb, segment_succ_of_some ha⟩

/-- The loop picks a task that can run if the list has one. -/
theorem scheduleLoop_picks (hchain : IsChain T.next T.readyQueue l)
    (hstart : start ∈ l) (h : scheduleLoop T start fuel start = some t)
    {i : ℕ} (hi : i ∈ l) (hrun : T.Runnable i) : T.Runnable t := by
  obtain ⟨a, b, rfl⟩ := List.append_of_mem hstart
  have hnodup := hchain.nodup
  rw [List.nodup_middle, List.nodup_cons] at hnodup
  have hout : start ∉ b ++ a := fun hmem =>
    hnodup.1 (List.perm_append_comm.mem_iff.mp hmem)
  by_cases hstartRun : T.Runnable start
  · rcases scheduleLoop_eq_some h with ht | rfl
    · exact ht
    · exact hstartRun
  · refine runnable_of_segment h (segment_around hchain) hout (i := i) ?_ hrun
    have hne : i ≠ start := fun heq => hstartRun (heq ▸ hrun)
    simp only [List.mem_append, List.mem_cons, hne, false_or] at hi ⊢
    exact hi.symm

/-- The loop ends: `l.length` rounds bring it back to where it started. -/
theorem exists_scheduleLoop (hchain : IsChain T.next T.readyQueue l)
    (hstart : start ∈ l) : ∃ t, scheduleLoop T start l.length start = some t := by
  obtain ⟨a, b, rfl⟩ := List.append_of_mem hstart
  have hall : ∀ (w : List ℕ) (x : ℕ),
      IsSegment (succ T) (succ T x) w (some start) →
        ∃ t, scheduleLoop T start (w.length + 1) x = some t := by
    intro w
    induction w with
    | nil =>
        intro x hx
        rw [scheduleLoop, show (T.next x).or T.readyQueue = some start from hx]
        by_cases hrun : T.Runnable start <;> simp [hrun]
    | cons y w ih =>
        intro x hx
        rw [List.length_cons, scheduleLoop,
          show (T.next x).or T.readyQueue = some y from hx.1]
        dsimp only
        split_ifs
        · exact ⟨y, rfl⟩
        · exact ⟨y, rfl⟩
        · exact ih y hx.2
  obtain ⟨t, ht⟩ := hall _ _ (segment_around hchain)
  refine ⟨t, ?_⟩
  have hlen : (a ++ start :: b).length = (b ++ a).length + 1 := by
    simp only [List.length_append, List.length_cons]
    omega
  rwa [hlen]

end Choice

/-! ## Creating tasks -/

/-- `T'` is `T` after the task `t` with the stack at `stackBase` has been
appended to the task list `tl`. -/
structure Creates (T T' : Tasks) (tl : List ℕ) (t stackBase : ℕ) :
    Prop where
  chain : IsChain T'.next T'.readyQueue (tl ++ [t])
  runningTask : T'.runningTask = T.runningTask
  readyQueue : T'.readyQueue = T.readyQueue
  state_self : T'.state t = .ready
  state_of_ne : ∀ x, x ≠ t → T'.state x = T.state x
  esp_self : (T'.task t).esp = stackBase + 4096 - frameSize
  esp_of_ne : ∀ x, x ≠ t → (T'.task x).esp = (T.task x).esp

theorem taskCreate_creates {T T' : Tasks} {tl : List ℕ}
    {fuel t stackBase : ℕ} (hchain : IsChain T.next T.readyQueue tl)
    (hfresh : t ∉ tl) (h : taskCreate fuel t stackBase T = some T') :
    Creates T T' tl t stackBase := by
  simp only [taskCreate] at h
  split at h
  · cases h
  next head hhead =>
    split at h
    · cases h
    next last hlast =>
      cases h
      set new : Task :=
        { T.task t with
          esp := stackBase + 4096 - frameSize
          kstack := stackBase
          state := .ready
          sleepTicks := 0
          next := none } with hnew
      have hclear : (T.setTask t new).next =
          Function.update T.next t none := by
        funext x
        by_cases hx : x = t <;> simp [Tasks.next, Tasks.setTask, hx, hnew]
      rw [show T.readyQueue = some head from hhead] at hchain
      have hsame : IsChain (Function.update T.next t none) (some head) tl :=
        hchain.congr fun x hx =>
          Function.update_of_ne (ne_of_mem_of_not_mem hx hfresh) _ _
      rw [hclear] at hlast
      obtain ⟨a, rfl⟩ := hsame.lastFrom_eq hlast
      have hlt : t ≠ last := by
        rintro rfl
        exact hfresh (by simp)
      refine ⟨?_, rfl, rfl, ?_, ?_, ?_, ?_⟩
      · have hlink : ((T.setTask t new).setTask last
            { (T.setTask t new).task last with next := some t }).next =
              Function.update (Function.update T.next t none) last
                (some t) := by
          rw [← hclear]
          funext x
          by_cases hx : x = last <;> simp [Tasks.next, Tasks.setTask, hx]
        have hqueue : ((T.setTask t new).setTask last
            { (T.setTask t new).task last with
              next := some t }).readyQueue = some head := hhead
        rw [hlink, hqueue]
        exact hchain.enqueue hfresh
      · simp [Tasks.state, Tasks.setTask, hlt, hnew]
      · intro x hx
        by_cases hxl : x = last
        · subst hxl
          simp [Tasks.state, Tasks.setTask, hx]
        · simp [Tasks.state, Tasks.setTask, hx, hxl]
      · simp [Tasks.setTask, hlt, hnew]
      · intro x hx
        by_cases hxl : x = last
        · subst hxl
          simp [Tasks.setTask, hx]
        · simp [Tasks.setTask, hx, hxl]

/-! ## The timer interrupt -/

/-- `T'` is `T` after the timer interrupt has moved on to the task `t`. -/
structure Dispatches (T T' : Tasks) (t : ℕ) : Prop where
  runningTask : T'.runningTask = some t
  readyQueue : T'.readyQueue = T.readyQueue
  next : T'.next = T.next
  waitNext : T'.waitNext = T.waitNext
  state_self : T'.state t = .running
  blocked_iff : ∀ x, T'.state x = .blocked ↔ T.state x = .blocked ∧ x ≠ t
  sleeping : ∀ x, T'.state x = .sleeping → T.state x = .sleeping
  runnable : ∀ x, T.Runnable x → T'.Runnable x

section Timer

variable {T T' : Tasks} {r t fuel esp esp' tick tick' : ℕ}

theorem schedule_eq_some (hr : T.runningTask = some r)
    (h : schedule fuel esp T = some (esp', T')) :
    ∃ t, scheduleLoop (suspend T r esp) r fuel r = some t ∧
      T' = ((suspend T r esp).setRunning t).setState t .running ∧
      esp' = ((suspend T r esp).task t).esp := by
  simp only [schedule, hr] at h
  split at h
  · cases h
  next t ht =>
    cases h
    exact ⟨t, ht, rfl, rfl⟩

theorem timerCallback_eq_some
    (h : timerCallback fuel esp tick T = some (esp', tick', T')) :
    ∃ T₁, AllAged T T₁ ∧ schedule fuel esp T₁ = some (esp', T') ∧
      tick' = (tick + 1) % 2 ^ 32 := by
  simp only [timerCallback] at h
  split at h
  · cases h
  next T₁ hT₁ =>
    split at h
    · cases h
    next hschedule =>
      cases h
      exact ⟨T₁, tasksUpdateLoop_aged hT₁, hschedule, rfl⟩

structure Suspends (T T' : Tasks) (r : ℕ) : Prop where
  runningTask : T'.runningTask = T.runningTask
  readyQueue : T'.readyQueue = T.readyQueue
  next : T'.next = T.next
  waitNext : T'.waitNext = T.waitNext
  state : ∀ x, T'.state x = T.state x ∨
    x = r ∧ T.state x = .running ∧ T'.state x = .ready

theorem suspend_suspends (T : Tasks) (r esp : ℕ) :
    Suspends T (suspend T r esp) r := by
  have hesp : Suspends T (T.setEsp r esp) r := by
    refine ⟨rfl, rfl, ?_, ?_, fun x => Or.inl ?_⟩
    · funext x
      by_cases hx : x = r <;>
        simp [Tasks.next, Tasks.setEsp, Tasks.setTask, hx]
    · funext x
      by_cases hx : x = r <;>
        simp [Tasks.waitNext, Tasks.setEsp, Tasks.setTask, hx]
    · by_cases hx : x = r <;>
        simp [Tasks.state, Tasks.setEsp, Tasks.setTask, hx]
  have hstate : (T.setEsp r esp).state r = T.state r := by
    simp [Tasks.state, Tasks.setEsp, Tasks.setTask]
  rw [suspend]
  split_ifs with hrun
  · refine ⟨hesp.runningTask, hesp.readyQueue, ?_, ?_, fun x => ?_⟩
    · rw [Tasks.next_setState, hesp.next]
    · rw [Tasks.waitNext_setState, hesp.waitNext]
    · by_cases hx : x = r
      · subst hx
        exact Or.inr ⟨rfl, hstate ▸ hrun, Tasks.state_setState_self⟩
      · rw [Tasks.state_setState_of_ne hx]
        exact Or.inl ((hesp.state x).resolve_right fun hand => hx hand.1)
  · exact hesp

section Suspending

variable {x : ℕ}

theorem Suspends.blocked_iff (h : Suspends T T' r) :
    T'.state x = .blocked ↔ T.state x = .blocked := by
  rcases h.state x with hst | ⟨-, hst, hst'⟩
  · rw [hst]
  · simp [hst, hst']

theorem Suspends.sleeping (h : Suspends T T' r)
    (hx : T'.state x = .sleeping) : T.state x = .sleeping := by
  rcases h.state x with hst | ⟨-, -, hst⟩
  · exact hst.symm.trans hx
  · cases hst.symm.trans hx

theorem Suspends.runnable_iff (h : Suspends T T' r) :
    T'.Runnable x ↔ T.Runnable x := by
  rcases h.state x with hst | ⟨-, hst, hst'⟩
  · simp [Tasks.Runnable, hst]
  · simp [Tasks.Runnable, hst, hst']

end Suspending

/-- The timer interrupt moves on to a task of the list, which is not blocked
as long as some task of the list can run. -/
theorem timerCallback_dispatches (hr : T.runningTask = some r)
    (h : timerCallback fuel esp tick T = some (esp', tick', T')) :
    ∃ t, Dispatches T T' t ∧
      ∀ l, IsChain T.next T.readyQueue l → r ∈ l →
        t ∈ l ∧ ((∃ i ∈ l, T.Runnable i) → T.state t ≠ .blocked) := by
  obtain ⟨T₁, haged, hschedule, -⟩ := timerCallback_eq_some h
  rw [← haged.runningTask] at hr
  obtain ⟨t, hloop, rfl, -⟩ := schedule_eq_some hr hschedule
  have hsusp := suspend_suspends T₁ r esp
  refine ⟨t, ⟨rfl, ?_, ?_, ?_, ?_, ?_, ?_, ?_⟩, ?_⟩
  · exact hsusp.readyQueue.trans haged.readyQueue
  · rw [Tasks.next_setState]
    exact hsusp.next.trans haged.next
  · rw [Tasks.waitNext_setState]
    exact hsusp.waitNext.trans haged.waitNext
  · exact Tasks.state_setState_self
  · intro x
    by_cases hx : x = t
    · subst hx
      simp
    · rw [Tasks.state_setState_of_ne hx, and_iff_left hx, ← haged.blocked_iff,
        ← hsusp.blocked_iff]
      rfl
  · intro x hsleeping
    by_cases hx : x = t
    · subst hx
      rw [Tasks.state_setState_self] at hsleeping
      cases hsleeping
    · rw [Tasks.state_setState_of_ne hx] at hsleeping
      exact haged.sleeping (hsusp.sleeping hsleeping)
  · intro x hrun
    by_cases hx : x = t
    · subst hx
      exact Or.inr Tasks.state_setState_self
    · rw [Tasks.Runnable, Tasks.state_setState_of_ne hx]
      exact hsusp.runnable_iff.mpr (haged.runnable hrun)
  · intro l hchain hrl
    rw [← haged.next, ← hsusp.next, ← haged.readyQueue, ← hsusp.readyQueue]
      at hchain
    refine ⟨scheduleLoop_mem hchain hrl hloop, ?_⟩
    rintro ⟨i, hi, hrun⟩ hblocked
    have hrun' := scheduleLoop_picks hchain hrl hloop hi
      (hsusp.runnable_iff.mpr (haged.runnable hrun))
    have hblocked' := hsusp.blocked_iff.mpr (haged.blocked_iff.mpr hblocked)
    simp [Tasks.Runnable, hblocked'] at hrun'

/-- The timer interrupt counts down the sleep ticks, which gives `T₁`, and
then moves on from `r` to `t`. -/
structure Switches (T T₁ T' : Tasks) (r t : ℕ) : Prop where
  update : ∃ fuel, tasksUpdateSleepTicks fuel T = some T₁
  runningTask : T'.runningTask = some t
  readyQueue : T'.readyQueue = T.readyQueue
  next : T'.next = T.next
  state_self : T'.state t = .running
  state_of_ne : ∀ x, x ≠ t → T'.state x = T₁.state x ∨
    T₁.state x = .running ∧ T'.state x = .ready
  ticks : ∀ x, (T'.task x).sleepTicks = (T₁.task x).sleepTicks
  pick : T₁.Runnable t ∨ t = r

theorem timerCallback_switches (hr : T.runningTask = some r)
    (h : timerCallback fuel esp tick T = some (esp', tick', T')) :
    ∃ T₁ t, Switches T T₁ T' r t ∧
      ∀ l, IsChain T.next T.readyQueue l → r ∈ l →
        t ∈ l ∧ ((∃ i ∈ l, T₁.Runnable i) → T₁.Runnable t) := by
  simp only [timerCallback] at h
  split at h
  · cases h
  next T₁ hT₁ =>
    split at h
    · cases h
    next hschedule =>
      cases h
      have haged := tasksUpdateLoop_aged hT₁
      rw [← haged.runningTask] at hr
      obtain ⟨t, hloop, rfl, -⟩ := schedule_eq_some hr hschedule
      have hsusp := suspend_suspends T₁ r esp
      have hticks : ∀ x, ((suspend T₁ r esp).task x).sleepTicks =
          (T₁.task x).sleepTicks := by
        intro x
        rw [suspend]
        split_ifs <;> by_cases hx : x = r <;>
          simp [Tasks.setState, Tasks.setEsp, Tasks.setTask, hx]
      refine ⟨T₁, t, ⟨⟨fuel, hT₁⟩, rfl, ?_, ?_, ?_, ?_, ?_, ?_⟩, ?_⟩
      · exact hsusp.readyQueue.trans haged.readyQueue
      · rw [Tasks.next_setState]
        exact hsusp.next.trans haged.next
      · exact Tasks.state_setState_self
      · intro x hx
        rw [Tasks.state_setState_of_ne hx]
        exact (hsusp.state x).imp id And.right
      · intro x
        rw [← hticks x]
        by_cases hx : x = t <;>
          simp [Tasks.setState, Tasks.setRunning, Tasks.setTask, hx]
      · exact (scheduleLoop_eq_some hloop).imp_left hsusp.runnable_iff.mp
      · intro l hchain hrl
        rw [← haged.next, ← hsusp.next, ← haged.readyQueue,
          ← hsusp.readyQueue] at hchain
        refine ⟨scheduleLoop_mem hchain hrl hloop, ?_⟩
        rintro ⟨i, hi, hrun⟩
        exact hsusp.runnable_iff.mp (scheduleLoop_picks hchain hrl hloop hi
          (hsusp.runnable_iff.mpr hrun))

/-- The stack pointer of the interrupted task is saved, and the one to go on
with is that of the task moved on to. -/
theorem timerCallback_esp (hr : T.runningTask = some r)
    (h : timerCallback fuel esp tick T = some (esp', tick', T')) :
    ∃ t, T'.runningTask = some t ∧ esp' = (T'.task t).esp ∧
      ∀ x, (T'.task x).esp = if x = r then esp else (T.task x).esp := by
  obtain ⟨T₁, haged, hschedule, -⟩ := timerCallback_eq_some h
  rw [← haged.runningTask] at hr
  obtain ⟨t, -, rfl, rfl⟩ := schedule_eq_some hr hschedule
  have hkept : ∀ (S : Tasks) (y : ℕ) (st : TaskState) (x : ℕ),
      ((S.setState y st).task x).esp = (S.task x).esp := by
    intro S y st x
    by_cases hx : x = y <;> simp [Tasks.setState, Tasks.setTask, hx]
  have hsaved : ∀ x, ((suspend T₁ r esp).task x).esp =
      if x = r then esp else (T.task x).esp := by
    intro x
    have hset : ((T₁.setEsp r esp).task x).esp =
        if x = r then esp else (T.task x).esp := by
      rw [← (haged.task x).esp]
      split_ifs with hx <;> simp [Tasks.setEsp, Tasks.setTask, hx]
    rw [← hset, suspend]
    split_ifs
    · exact hkept _ _ _ x
    · rfl
  exact ⟨t, rfl, (hkept _ _ _ t).symm, fun x =>
    (hkept _ _ _ x).trans (hsaved x)⟩

end Timer

end BabOs.Sched
