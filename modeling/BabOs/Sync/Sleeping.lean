import BabOs.Sync.Suspension
import BabOs.Sync.WaitQueues

/-!
# How long a task sleeps

The hardware timer and the `int 0x20` of `task_yield` enter the same handler,
so a voluntary yield counts down the sleep ticks too.  From the call of
`sleep` to the next dispatch the handler runs exactly as often as was asked
while the task counts down; how many of these runs come from the hardware
depends on the yields.
-/

namespace BabOs.Sync

open BabOs.Sched BabOs.Chain

variable {M C L D : Type*}

/-! ## Traces -/

/-- A step with the configurations before and after it. -/
structure Event (M C L D : Type*) where
  label : Label M C L
  before : Config M C L D
  after : Config M C L D

inductive Trace [DecidableEq M] [DecidableEq C] (P : Program M C L D)
    (timer : ℕ → Tasks → ℕ → Tasks → Prop) :
    Config M C L D → List (Event M C L D) → Config M C L D → Prop
  | nil (c : Config M C L D) : Trace P timer c [] c
  | cons {c c' c'' : Config M C L D} {a : Label M C L}
      {es : List (Event M C L D)} (hstep : Step P timer a c c')
      (hrest : Trace P timer c' es c'') : Trace P timer c (⟨a, c, c'⟩ :: es) c''

def Event.hardware (e : Event M C L D) : Bool :=
  match e.label with
  | .timer => true
  | _ => false

/-- The `int 0x20` of `task_yield`. -/
def Event.voluntary (e : Event M C L D) : Bool :=
  match e.label with
  | .yield => true
  | _ => false

/-- The sleep ticks of `t` are counted down when the timer handler runs. -/
def Config.countsDown (t : ℕ) (c : Config M C L D) : Bool :=
  decide (c.k.tasks.state t = .sleeping ∧ 0 < c.k.ticks t)

def Event.Dispatches (t : ℕ) (e : Event M C L D) : Prop :=
  e.label.Ticks ∧ e.after.k.tasks.runningTask = some t

/-- The task `t` puts itself in the sleeping state. -/
def Event.Marks (t : ℕ) (e : Event M C L D) : Prop :=
  e.label = .sleeping ∧ e.before.k.tasks.runningTask = some t

/-- The timer handler counts down the sleep ticks of `t`. -/
def Event.counted (t : ℕ) (e : Event M C L D) : Bool :=
  (e.hardware || e.voluntary) && e.before.countsDown t

/-- No interrupt handler blocks, and whenever the timer handler runs some task
of the list other than `t` can run. -/
def OthersRun (t : ℕ) (a : Label M C L) (c : Config M C L D) : Prop :=
  HandlersRun a c ∧ (a.Ticks →
    ∃ i, i ≠ t ∧ OnChain c.k.tasks.next c.k.tasks.readyQueue i ∧
      c.k.tasks.Runnable i)

section Steps

variable {P : Program M C L D} {tl : List ℕ} {a : Label M C L}
  {c c' : Config M C L D} {t : ℕ}

/-- The queues are sound. -/
def IsSound (tl : List ℕ) (c : Config M C L D) : Prop := ∃ Q, Sound tl c Q

theorem IsSound.listed (h : IsSound tl c) : Listed tl c := by
  obtain ⟨Q, hsound⟩ := h
  exact ⟨hsound.list, hsound.running⟩

theorem Event.counted_iff (e : Event M C L D) :
    e.counted t = true ↔ e.label.Ticks ∧ e.before.countsDown t = true := by
  obtain ⟨a, c, c'⟩ := e
  cases a <;> simp [Event.counted, Event.hardware, Event.voluntary, Label.Ticks]

/-- `t` stands at `pc`, with nothing but handlers on top. -/
def StandsAt (t : ℕ) (c : Config M C L D) (pc : Pc M C L) : Prop :=
  ∃ hs g, c.stack t = hs ++ [g] ∧ g.pc = pc

/-- The label of the step that leaves a place in `sleep`. -/
def Label.Leaves (a : Label M C L) : Pc M C L → Prop
  | .sleepMark _ => a = .sleeping
  | .sleepYield _ => a.Ticks
  | _ => True

theorem Label.interrupt_of_at {pc : Pc M C L} (hat : a.At pc)
    (hstay : ¬ a.Leaves pc) : a = .timer ∨ ∃ h, a = .irq h := by
  cases a with
  | timer => exact Or.inl rfl
  | irq h => exact Or.inr ⟨h, rfl⟩
  | call b =>
      obtain ⟨l, rfl⟩ := hat
      exact absurd trivial hstay
  | retry m =>
      obtain ⟨l, hretries⟩ := hat
      cases pc with
      | sleepMark l | sleepYield l => cases hretries
      | user | lockYield | lockRetry | waitYield | waitRelock =>
          exact absurd trivial hstay
  | sleeping =>
      obtain ⟨l, rfl⟩ := hat
      exact absurd rfl hstay
  | yield =>
      cases pc with
      | sleepMark l => exact absurd rfl hat
      | sleepYield l => exact absurd trivial hstay
      | user | lockYield | lockRetry | waitYield | waitRelock =>
          exact absurd trivial hstay

/-- The tasks that a step takes off a queue are blocked. -/
theorem Sound.blocked_of_removes {Q : Queue M C → List ℕ}
    (h : Sound tl c Q) (ha : a.Removes c t) :
    c.k.tasks.state t = .blocked := by
  have hfirst : ∀ q, c.k.head q = some t → t ∈ Q q := by
    intro q hq
    rw [h.waiting.head_eq q] at hq
    exact List.mem_of_mem_head? hq
  unfold Label.Removes at ha
  split at ha
  next m => exact h.waiting.state_eq (hfirst (.mutex m) ha)
  next m => exact h.waiting.state_eq (hfirst (.mutex m) ha)
  next v => exact h.waiting.state_eq (hfirst (.cond v) ha)
  next v =>
    have hchain := h.waiting.chain (.cond v)
    exact h.waiting.state_eq (hchain.onChain_iff.mp ha)
  · exact ha.elim

variable [DecidableEq M] [DecidableEq C]

theorem Step.isSound (h : Step P codeTimer a c c') (hok : OthersRun t a c)
    (hsound : IsSound tl c) : IsSound tl c' := by
  obtain ⟨Q, hQ⟩ := hsound
  refine h.sound hQ (hQ.calm hok.1.pass (fun ha => ?_) h)
  obtain ⟨i, -, hi, hrun⟩ := hok.2 ha
  exact ⟨i, hQ.list.onChain_iff.mp hi, hrun⟩

/-- A run of the timer handler takes one tick from a task that counts down. -/
theorem Step.ticks_eq (h : Step P codeTimer a c c') (hlisted : Listed tl c)
    (ht : t ∈ tl) (ha : a.Ticks) :
    c'.k.ticks t + (if c.countsDown t then 1 else 0) = c.k.ticks t := by
  obtain ⟨hlist, r, hmem, hr⟩ := hlisted
  obtain ⟨T₁, x, hswitch, -, -⟩ := h.switches ha hlist hr hmem
  obtain ⟨fuel, hupdate⟩ := hswitch.update
  have htask := tasksUpdateLoop_task hlist hupdate t
  rw [if_pos ht] at htask
  have hticks : c'.k.ticks t =
      if c.k.tasks.state t = .sleeping ∧ 0 < c.k.ticks t
      then c.k.ticks t - 1 else c.k.ticks t :=
    (hswitch.ticks t).trans ((congrArg Task.sleepTicks htask).trans
      (sleepTicks_updateSleep _))
  rw [hticks, Config.countsDown]
  by_cases hcount : c.k.tasks.state t = .sleeping ∧ 0 < c.k.ticks t
  · rw [if_pos hcount, if_pos (decide_eq_true hcount)]
    exact Nat.sub_add_cancel hcount.2
  · rw [if_neg hcount, if_neg (by simpa using hcount), Nat.add_zero]

/-- In every step that is not a call of `sleep` by `t`, the ticks of `t` go
down by one if they are counted down. -/
theorem Step.ticks_count (h : Step P codeTimer a c c')
    (hlisted : Listed tl c) (ht : t ∈ tl)
    (hnot : a.Blocking → c.k.tasks.runningTask ≠ some t) :
    c'.k.ticks t + (if Event.counted t ⟨a, c, c'⟩ then 1 else 0) =
      c.k.ticks t := by
  simp only [Event.counted_iff]
  by_cases ha : a.Ticks
  · simpa [ha] using h.ticks_eq hlisted ht ha
  · have hzero : c'.k.ticks t = c.k.ticks t := by
      cases h.stateEffect t with
      | keeps _ hticks => exact hticks
      | suspends _ _ _ hticks => exact hticks
      | sleeps ms hsleep hr _ _ =>
          subst hsleep
          exact absurd hr (hnot trivial)
      | wakes _ _ hticks => exact hticks
      | ticks ha' => exact absurd ha' ha
    simpa [ha] using hzero

/-- What comes while `t` does not go on in `sleep` are interrupts and steps of
other tasks. -/
theorem StandsAt.stays {pc : Pc M C L} (h : StandsAt t c pc)
    (hstep : Step P codeTimer a c c') (hhandlers : HandlersRun a c)
    (hnot : c.k.tasks.runningTask = some t → ¬ a.Leaves pc) :
    StandsAt t c' pc ∧
      (a.Blocking → c.k.tasks.runningTask ≠ some t) := by
  obtain ⟨hs, g, hstack, rfl⟩ := h
  obtain ⟨r, f, fs, heffect⟩ := hstep.stackEffect
  by_cases htr : t = r
  · subst htr
    have hstay := hnot heffect.running
    have hcons := heffect.stack.symm.trans hstack
    rcases List.cons_eq_append_iff.mp hcons with ⟨rfl, hg⟩ | ⟨hs', rfl, hfs⟩
    · obtain ⟨rfl, rfl⟩ := List.cons.inj hg
      have hstands := heffect.stands
      have htop := heffect.top
      have hbase : ∃ hs', c'.stack t = hs' ++ [g] := by
        rcases Label.interrupt_of_at hstands hstay with rfl | ⟨_ | l, rfl⟩
        · exact ⟨[], htop⟩
        · exact ⟨[], htop⟩
        · obtain ⟨h, hpush⟩ := htop
          exact ⟨[h], hpush⟩
      obtain ⟨hs', hbase⟩ := hbase
      refine ⟨⟨hs', g, hbase, rfl⟩, fun hblocking => ?_⟩
      rcases Label.interrupt_of_at hstands hstay with rfl | ⟨h, rfl⟩
      · exact absurd hblocking id
      · exact absurd hblocking id
    · obtain ⟨hs'', hbase⟩ := heffect.top.base hfs
      refine ⟨⟨hs'', g, hbase, rfl⟩, fun hblocking _ => ?_⟩
      have hdepth := hhandlers hblocking
      simp [Config.depth, heffect.running, hstack] at hdepth
  · refine ⟨⟨hs, g, (heffect.others t htr).trans hstack, rfl⟩, ?_⟩
    intro _ hr
    exact htr (Option.some.inj (hr.symm.trans heffect.running))

/-- `t` has put itself in the sleeping state and has not been dispatched
since.  It is woken by its last tick only. -/
structure Asleep (t : ℕ) (c : Config M C L D) : Prop where
  state : c.k.tasks.state t = .sleeping ∨
    c.k.tasks.state t = .ready ∧ c.k.ticks t = 0
  own : c.k.tasks.runningTask = some t → ∃ l, StandsAt t c (.sleepYield l)

theorem Step.marks {l : L} (h : Step P codeTimer .sleeping c c')
    (hhandlers : HandlersRun .sleeping c)
    (hr : c.k.tasks.runningTask = some t)
    (hstands : StandsAt t c (.sleepMark l)) :
    Asleep t c' ∧ c'.k.ticks t = c.k.ticks t := by
  obtain ⟨hs, g, hstack, hpc⟩ := hstands
  have hdepth := hhandlers trivial
  simp only [Config.depth, hr, hstack, List.length_append,
    List.length_singleton, Nat.add_eq_right, List.length_eq_zero_iff] at hdepth
  subst hdepth
  cases h with
  | @sleepMark _ r f fs l' hr' hf hpc' =>
      obtain rfl : r = t := Option.some.inj (hr'.symm.trans hr)
      obtain ⟨rfl, rfl⟩ := List.cons.inj (hf.symm.trans hstack)
      refine ⟨⟨Or.inl ?_, fun _ => ⟨l', [], _, Function.update_self _ _ _,
        rfl⟩⟩, ticks_setState⟩
      dsimp only
      rw [Kernel.state_setState, Function.update_self]

/-- Between two runs of the timer handler nothing happens to the task. -/
theorem Step.asleep_rests (h : Step P codeTimer a c c') (hsound : IsSound tl c)
    (hasleep : Asleep t c) (ha : ¬ a.Ticks)
    (hblocking : a.Blocking → c.k.tasks.runningTask ≠ some t) :
    c'.k.tasks.state t = c.k.tasks.state t ∧ c'.k.ticks t = c.k.ticks t := by
  cases h.stateEffect t with
  | keeps hstate hticks => exact ⟨hstate, hticks⟩
  | suspends hsusp hr _ _ =>
      refine absurd hr (hblocking ?_)
      unfold Label.Suspends at hsusp
      split at hsusp <;> first | exact trivial | exact hsusp.elim
  | sleeps ms hsleep hr _ _ =>
      subst hsleep
      exact absurd hr (hblocking trivial)
  | wakes hremoves _ _ =>
      obtain ⟨Q, hQ⟩ := hsound
      have hblocked := hQ.blocked_of_removes hremoves
      rcases hasleep.state with hst | ⟨hst, -⟩ <;> simp [hblocked] at hst
  | ticks ha' => exact absurd ha' ha

theorem Step.asleep (h : Step P codeTimer a c c') (hok : OthersRun t a c)
    (hsound : IsSound tl c) (ht : t ∈ tl) (hasleep : Asleep t c)
    (hnot : ¬ (a.Ticks ∧ c'.k.tasks.runningTask = some t)) :
    Asleep t c' ∧
      (a.Blocking → c.k.tasks.runningTask ≠ some t) := by
  have hblocking : a.Blocking → c.k.tasks.runningTask ≠ some t := by
    intro hblocking hr
    obtain ⟨l, hstands⟩ := hasleep.own hr
    refine (hstands.stays h hok.1 fun _ hleaves => ?_).2 hblocking hr
    have hticks : a.Ticks := hleaves
    unfold Label.Ticks at hticks
    unfold Label.Blocking at hblocking
    split at hticks <;> simp at hblocking hticks
  refine ⟨?_, hblocking⟩
  by_cases ha : a.Ticks
  · have hne : c'.k.tasks.runningTask ≠ some t := fun hr => hnot ⟨ha, hr⟩
    refine ⟨?_, fun hr => absurd hr hne⟩
    obtain ⟨hlist, r, hmem, hr⟩ := hsound.listed
    obtain ⟨T₁, x, hswitch, -, -⟩ := h.switches ha hlist hr hmem
    obtain ⟨fuel, hupdate⟩ := hswitch.update
    have htx : t ≠ x := by
      rintro rfl
      exact hne hswitch.runningTask
    have htask := tasksUpdateLoop_task hlist hupdate t
    rw [if_pos ht] at htask
    have hupdated : T₁.state t = .sleeping ∨
        T₁.state t = .ready ∧ (T₁.task t).sleepTicks = 0 := by
      rw [Tasks.state, htask]
      rcases hasleep.state with hsleeping | ⟨hready, hzero⟩
      · exact state_updateSleep hsleeping
      · have hstate : (c.k.tasks.task t).state = .ready := hready
        rw [updateSleep_eq_self (by simp [hstate])]
        exact Or.inr ⟨hready, hzero⟩
    have hsame : c'.k.tasks.state t = T₁.state t := by
      refine (hswitch.state_of_ne t htx).resolve_right ?_
      rintro ⟨hrun, -⟩
      simp [hrun] at hupdated
    rw [hsame, show c'.k.ticks t = (T₁.task t).sleepTicks from
      hswitch.ticks t]
    exact hupdated
  · have hsame := h.sameList ha
    have hstate := h.asleep_rests hsound hasleep ha hblocking
    refine ⟨hstate.1 ▸ hstate.2 ▸ hasleep.state, fun hr => ?_⟩
    obtain ⟨l, hstands⟩ := hasleep.own (hsame.runningTask ▸ hr)
    exact ⟨l, (hstands.stays h hok.1 fun _ => ha).1⟩

/-- The dispatch that ends the sleep: the ticks have run out. -/
theorem Step.dispatch_ticks (h : Step P codeTimer a c c')
    (hok : OthersRun t a c) (hsound : IsSound tl c) (ht : t ∈ tl)
    (hasleep : Asleep t c) (ha : a.Ticks)
    (hr' : c'.k.tasks.runningTask = some t) :
    c.k.ticks t = if Event.counted t ⟨a, c, c'⟩ then 1 else 0 := by
  obtain ⟨hlist, r, hmem, hr⟩ := hsound.listed
  obtain ⟨T₁, x, hswitch, -, hpick⟩ := h.switches ha hlist hr hmem
  obtain ⟨fuel, hupdate⟩ := hswitch.update
  obtain rfl : x = t := Option.some.inj (hswitch.runningTask.symm.trans hr')
  obtain ⟨i, -, hi, hrun⟩ := hok.2 ha
  have hpicked := hpick ⟨i, hlist.onChain_iff.mp hi,
    (tasksUpdateLoop_aged hupdate).runnable hrun⟩
  have htask := tasksUpdateLoop_task hlist hupdate x
  rw [if_pos ht] at htask
  simp only [Event.counted_iff, ha, true_and, Config.countsDown,
    decide_eq_true_eq]
  rcases hasleep.state with hsleeping | ⟨hready, hzero⟩
  · have hnot : ¬ ((updateSleep (c.k.tasks.task x)).state = .blocked ∨
        (updateSleep (c.k.tasks.task x)).state = .sleeping) := by
      rw [← htask]
      exact not_suspended_iff.mpr hpicked
    have hone : c.k.ticks x = 1 :=
      (ticks_of_updateSleep (Or.inr hsleeping) hnot).2
    simp [hsleeping, hone]
  · simp [hready, hzero]

/-! ## Traces of a sleep -/

variable {es es' : List (Event M C L D)} {c'' : Config M C L D}

omit [DecidableEq M] [DecidableEq C] in
theorem count_cons (e : Event M C L D) {n n' : ℕ}
    (he : e.after.k.ticks t + (if e.counted t then 1 else 0) =
      e.before.k.ticks t)
    (hes : n' + es.countP (Event.counted t) = e.after.k.ticks t)
    (hn : n = e.before.k.ticks t) :
    n' + (e :: es).countP (Event.counted t) = n := by
  rw [List.countP_cons]
  omega

theorem Trace.split (h : Trace P codeTimer c (es ++ es') c'') :
    ∃ c', Trace P codeTimer c es c' ∧ Trace P codeTimer c' es' c'' := by
  induction es generalizing c with
  | nil => exact ⟨c, Trace.nil c, h⟩
  | cons e es ih =>
      cases h with
      | cons hstep hrest =>
          obtain ⟨c', hes, hes'⟩ := ih hrest
          exact ⟨c', Trace.cons hstep hes, hes'⟩

/-- From the call of `sleep` to the step that puts `t` in the sleeping
state. -/
theorem Trace.beforeMark {l : L} (h : Trace P codeTimer c es c')
    (ht : t ∈ tl) (hok : ∀ e ∈ es, OthersRun t e.label e.before)
    (hnot : ∀ e ∈ es, ¬ e.Marks t) (hsound : IsSound tl c)
    (hstands : StandsAt t c (.sleepMark l)) :
    IsSound tl c' ∧ StandsAt t c' (.sleepMark l) ∧
      c'.k.ticks t + es.countP (Event.counted t) = c.k.ticks t := by
  induction h with
  | nil c => exact ⟨hsound, hstands, rfl⟩
  | @cons c c' c'' a es hstep hrest ih =>
      have hok' := hok _ List.mem_cons_self
      obtain ⟨hstands', hplain⟩ := hstands.stays hstep hok'.1
        fun hr hleaves => hnot _ List.mem_cons_self ⟨hleaves, hr⟩
      obtain ⟨hsound', hstands', hcount⟩ := ih
        (fun e he => hok e (List.mem_cons_of_mem _ he))
        (fun e he => hnot e (List.mem_cons_of_mem _ he))
        (hstep.isSound hok' hsound) hstands'
      exact ⟨hsound', hstands', count_cons ⟨a, c, c'⟩
        (hstep.ticks_count hsound.listed ht hplain) hcount rfl⟩

theorem Trace.afterMark (h : Trace P codeTimer c es c') (ht : t ∈ tl)
    (hok : ∀ e ∈ es, OthersRun t e.label e.before)
    (hnot : ∀ e ∈ es, ¬ e.Dispatches t) (hsound : IsSound tl c)
    (hasleep : Asleep t c) :
    IsSound tl c' ∧ Asleep t c' ∧
      c'.k.ticks t + es.countP (Event.counted t) = c.k.ticks t := by
  induction h with
  | nil c => exact ⟨hsound, hasleep, rfl⟩
  | @cons c c' c'' a es hstep hrest ih =>
      have hok' := hok _ List.mem_cons_self
      obtain ⟨hasleep', hplain⟩ := hstep.asleep hok' hsound ht hasleep
        (hnot _ List.mem_cons_self)
      obtain ⟨hsound', hasleep', hcount⟩ := ih
        (fun e he => hok e (List.mem_cons_of_mem _ he))
        (fun e he => hnot e (List.mem_cons_of_mem _ he))
        (hstep.isSound hok' hsound) hasleep'
      exact ⟨hsound', hasleep', count_cons ⟨a, c, c'⟩
        (hstep.ticks_count hsound.listed ht hplain) hcount rfl⟩

/-- A voluntary yield during the countdown: it counts as time. -/
def Event.shortens (t : ℕ) (e : Event M C L D) : Bool :=
  e.voluntary && e.before.countsDown t

/-- A hardware timer interrupt outside the countdown: it does not count. -/
def Event.lengthens (t : ℕ) (e : Event M C L D) : Bool :=
  e.hardware && !e.before.countsDown t

omit [DecidableEq M] [DecidableEq C] in
theorem countP_hardware (t : ℕ) (es : List (Event M C L D)) :
    es.countP Event.hardware + es.countP (Event.shortens t) =
      es.countP (Event.counted t) + es.countP (Event.lengthens t) := by
  induction es with
  | nil => rfl
  | cons e es ih =>
      have hone : (if e.hardware then 1 else 0) +
          (if e.shortens t then 1 else 0) =
          (if e.counted t then 1 else 0) +
            (if e.lengthens t then 1 else 0) := by
        obtain ⟨a, c, c'⟩ := e
        cases hcount : c.countsDown t <;> cases a <;>
          simp [Event.hardware, Event.shortens, Event.voluntary,
            Event.counted, Event.lengthens, hcount]
      simp only [List.countP_cons]
      omega

theorem ticksToWait_eq (ms : ℕ) : ticksToWait ms = max 1 (ms / 10) := by
  rw [ticksToWait]
  split_ifs with hzero <;> omega

/-- `es` are the steps from a call of `sleep(ms)` by `t` in `c` to the dispatch
of `t` that ends it: the first one after `t` has put itself in the sleeping
state. -/
structure SleepSteps (P : Program M C L D) (t ms : ℕ) (c : Config M C L D)
    (es : List (Event M C L D)) : Prop where
  running : c.k.tasks.runningTask = some t
  callOk : OthersRun t (.call (.sleep ms)) c
  steps : ∃ c' c'', Step P codeTimer (.call (.sleep ms)) c c' ∧
    Trace P codeTimer c' es c''
  ok : ∀ e ∈ es, OthersRun t e.label e.before
  parts : ∃ before mark between last, es = before ++ mark :: (between ++ [last]) ∧
    (∀ e ∈ before, ¬ e.Marks t) ∧ mark.Marks t ∧
    (∀ e ∈ between, ¬ e.Dispatches t) ∧ last.Dispatches t

theorem Step.sleepCalled {ms : ℕ}
    (h : Step P codeTimer (.call (.sleep ms)) c c')
    (hhandlers : HandlersRun (.call (.sleep ms)) c)
    (hrunning : c.k.tasks.runningTask = some t) :
    (∃ l, StandsAt t c' (.sleepMark l)) ∧ c'.k.ticks t = ticksToWait ms := by
  have hdepth := hhandlers trivial
  cases h with
  | @sleep _ r f fs l l' d' _ hr hf hpc hmove =>
      obtain rfl : r = t := Option.some.inj (hr.symm.trans hrunning)
      have hnil : fs = [] := by
        simpa [Config.depth, hr, hf] using hdepth
      subst hnil
      refine ⟨⟨l', [], _, Function.update_self _ _ _, rfl⟩, ?_⟩
      exact ticks_setSleepTicks.trans (if_pos rfl)

/-- While `t` sleeps the timer handler counts down as often as was asked. -/
theorem SleepSteps.counted {ms : ℕ} (h : SleepSteps P t ms c es)
    (hsound : IsSound tl c) (ht : t ∈ tl) :
    es.countP (Event.counted t) = ticksToWait ms := by
  obtain ⟨c', c'', hcall, htrace⟩ := h.steps
  obtain ⟨before, mark, between, last, rfl, hbefore, hmark, hbetween, hlast⟩ :=
    h.parts
  have hcalled := hcall.sleepCalled h.callOk.1 h.running
  obtain ⟨⟨l, hstands⟩, hticks⟩ := hcalled
  obtain ⟨c₁, htrace₁, htrace₂⟩ := htrace.split
  obtain ⟨hsound₁, hstands₁, hcount₁⟩ := htrace₁.beforeMark ht
    (fun e he => h.ok e (List.mem_append_left _ he)) hbefore
    (hcall.isSound h.callOk hsound) hstands
  have hok₂ : ∀ e ∈ mark :: (between ++ [last]),
      OthersRun t e.label e.before :=
    fun e he => h.ok e (List.mem_append_right _ he)
  cases htrace₂ with
  | @cons _ c₂ _ a _ hstep hrest =>
      obtain ⟨hlabel, hrunning⟩ := hmark
      obtain rfl : a = .sleeping := hlabel
      have hokMark := hok₂ _ List.mem_cons_self
      obtain ⟨hasleep, hsame⟩ := hstep.marks hokMark.1 hrunning hstands₁
      obtain ⟨c₃, htrace₃, htrace₄⟩ := hrest.split
      obtain ⟨hsound₃, hasleep₃, hcount₃⟩ := htrace₃.afterMark ht
        (fun e he => hok₂ e (List.mem_cons_of_mem _
          (List.mem_append_left _ he))) hbetween
        (hstep.isSound hokMark hsound₁) hasleep
      cases htrace₄ with
      | cons hlastStep hnil =>
          have hzero := hlastStep.dispatch_ticks
            (hok₂ _ (List.mem_cons_of_mem _
              (List.mem_append_right _ List.mem_cons_self)))
            hsound₃ ht hasleep₃ hlast.1 hlast.2
          have hmark' : Event.counted t
              (⟨.sleeping, c₁, c₂⟩ : Event M C L D) = false := rfl
          simp only [List.countP_append, List.countP_cons, List.countP_nil,
            hmark', Bool.false_eq_true, if_false]
          omega

/-- In every run in which no interrupt handler blocks and the timer handler
always finds another task that can run: between a call of `sleep(ms)` by `t`
and the dispatch of `t` that ends it, the hardware timer has interrupted as
often as was asked, if and only if the voluntary yields during the countdown
are not more than the hardware interrupts outside it. -/
theorem run_sleep_hardware {c₀ : Config M C L D} {ms : ℕ}
    (hinit : Unqueued tl c₀) (hrun : Run P codeTimer (OthersRun t) c₀ c)
    (hsleep : SleepSteps P t ms c es) :
    max 1 (ms / 10) ≤ es.countP Event.hardware ↔
      es.countP (Event.shortens t) ≤ es.countP (Event.lengthens t) := by
  have hsound : IsSound tl c :=
    hrun.invariant ⟨_, hinit.sound⟩ fun hok hstep => hstep.isSound hok
  obtain ⟨Q, hQ⟩ := hsound
  have hcounted := hsleep.counted ⟨Q, hQ⟩ (hQ.mem_of_running hsleep.running)
  have hsplit := countP_hardware t es
  rw [ticksToWait_eq] at hcounted
  omega

end Steps

/-! ## A short sleep -/

/-- A task that sleeps 20 ms at a time, and an idle task. -/
def sleepAndIdle : Code Unit Unit Bool Unit Empty where
  next sleeper d := some (if sleeper then .sleep 20 else .skip, sleeper, d)
  irq e _ := e.elim

def sleeperAndIdle : Config Unit Unit Bool Unit :=
  { twoTasks with
    stack := fun t => [{ pc := .user (t == 0), irqOn := true, holds := [] }] }

theorem unqueued_sleeperAndIdle : Unqueued [0, 1] sleeperAndIdle := by
  refine ⟨⟨rfl, rfl, rfl⟩, ⟨0, by simp, rfl⟩, ?_, fun t _ => ?_, fun t => rfl⟩
  · rintro (_ | _) <;> rfl
  · change (if t = 0 then TaskState.running else TaskState.ready) ≠ .blocked
    split_ifs <;> decide

def sleepStep (choice : Choice Empty) (c : Config Unit Unit Bool Unit) :
    Config Unit Unit Bool Unit :=
  ((advance sleepAndIdle 3 choice c).map Prod.snd).getD c

theorem sleepStep_step {choice : Choice Empty} {a : Label Unit Unit Bool}
    {c : Config Unit Unit Bool Unit}
    (h : (advance sleepAndIdle 3 choice c).map Prod.fst = some a) :
    Step sleepAndIdle.program codeTimer a c (sleepStep choice c) := by
  obtain ⟨⟨b, c'⟩, hadvance, rfl⟩ := Option.map_eq_some_iff.mp h
  rw [sleepStep, hadvance]
  exact advance_step hadvance

/-- A sleep in which one run of the timer handler takes the processor away and
the next one gives it back. -/
theorem sleepSteps_of_steps {c c₁ c₂ c₃ c₄ : Config Unit Unit Bool Unit}
    {a₂ a₃ : Label Unit Unit Bool} (hlisted : Listed [0, 1] c)
    (hcall : Step sleepAndIdle.program codeTimer (.call (.sleep 20)) c c₁)
    (hmark : Step sleepAndIdle.program codeTimer .sleeping c₁ c₂)
    (hsuspend : Step sleepAndIdle.program codeTimer a₂ c₂ c₃)
    (hresume : Step sleepAndIdle.program codeTimer a₃ c₃ c₄)
    (hidle : ∀ x ∈ [c, c₁, c₂, c₃], x.depth = 1 ∧ x.k.tasks.Runnable 1)
    (hr : c.k.tasks.runningTask = some 0)
    (hr₁ : c₁.k.tasks.runningTask = some 0)
    (hr₃ : c₃.k.tasks.runningTask ≠ some 0) (ha₃ : a₃.Ticks)
    (hr₄ : c₄.k.tasks.runningTask = some 0) :
    SleepSteps sleepAndIdle.program 0 20 c
      [⟨.sleeping, c₁, c₂⟩, ⟨a₂, c₂, c₃⟩, ⟨a₃, c₃, c₄⟩] := by
  have hlisted₁ := hcall.listed hlisted
  have hlisted₂ := hmark.listed hlisted₁
  have hlisted₃ := hsuspend.listed hlisted₂
  have hok : ∀ {a : Label Unit Unit Bool} {x}, x ∈ [c, c₁, c₂, c₃] →
      Listed [0, 1] x → OthersRun 0 a x := by
    intro a x hx hlistedx
    exact ⟨fun _ => (hidle x hx).1, fun _ => ⟨1, by decide,
      hlistedx.1.onChain_iff.mpr (by decide), (hidle x hx).2⟩⟩
  refine ⟨hr, hok (by simp) hlisted, ⟨c₁, c₄, hcall, ?_⟩, ?_, ?_⟩
  · exact Trace.cons hmark (Trace.cons hsuspend (Trace.cons hresume
      (Trace.nil c₄)))
  · intro e he
    fin_cases he
    · exact hok (by simp) hlisted₁
    · exact hok (by simp) hlisted₂
    · exact hok (by simp) hlisted₃
  · refine ⟨[], ⟨.sleeping, c₁, c₂⟩, [⟨a₂, c₂, c₃⟩], ⟨a₃, c₃, c₄⟩, rfl,
      by simp, ⟨rfl, hr₁⟩, ?_, ha₃, hr₄⟩
    rintro e he ⟨-, hr'⟩
    rw [List.mem_singleton.mp he] at hr'
    exact hr₃ hr'

theorem listed_sleeperAndIdle : Listed [0, 1] sleeperAndIdle :=
  ⟨unqueued_sleeperAndIdle.list, unqueued_sleeperAndIdle.running⟩

/-- The task is preempted before it yields, and sleeps for two hardware
interrupts. -/
theorem run_sleep_hardware_preempted :
    ∃ es, SleepSteps sleepAndIdle.program 0 20 sleeperAndIdle es ∧
      es.countP (Event.shortens 0) = 0 ∧
      max 1 (20 / 10) ≤ es.countP Event.hardware := by
  let c₁ := sleepStep .go sleeperAndIdle
  let c₂ := sleepStep .go c₁
  let c₃ := sleepStep .timer c₂
  let c₄ := sleepStep .timer c₃
  have hsleep : SleepSteps sleepAndIdle.program 0 20 sleeperAndIdle
      [⟨.sleeping, c₁, c₂⟩, ⟨.timer, c₂, c₃⟩, ⟨.timer, c₃, c₄⟩] :=
    sleepSteps_of_steps listed_sleeperAndIdle
      (sleepStep_step (by decide +kernel)) (sleepStep_step (by decide +kernel))
      (sleepStep_step (by decide +kernel)) (sleepStep_step (by decide +kernel))
      (by decide +kernel) (by decide +kernel) (by decide +kernel)
      (by decide +kernel) trivial (by decide +kernel)
  exact ⟨_, hsleep, rfl,
    (run_sleep_hardware unqueued_sleeperAndIdle (Run.refl _) hsleep).mpr
      (by decide)⟩

/-- The yield of `sleep` counts as the first of two ticks, and the first
hardware interrupt ends the sleep. -/
theorem sleeperAndIdle_short :
    ∃ es, Unqueued [0, 1] sleeperAndIdle ∧
      SleepSteps sleepAndIdle.program 0 20 sleeperAndIdle es ∧
      es.countP Event.hardware = 1 ∧
      ¬ max 1 (20 / 10) ≤ es.countP Event.hardware := by
  let c₁ := sleepStep .go sleeperAndIdle
  let c₂ := sleepStep .go c₁
  let c₃ := sleepStep .go c₂
  let c₄ := sleepStep .timer c₃
  have hsleep : SleepSteps sleepAndIdle.program 0 20 sleeperAndIdle
      [⟨.sleeping, c₁, c₂⟩, ⟨.yield, c₂, c₃⟩, ⟨.timer, c₃, c₄⟩] :=
    sleepSteps_of_steps listed_sleeperAndIdle
      (sleepStep_step (by decide +kernel)) (sleepStep_step (by decide +kernel))
      (sleepStep_step (by decide +kernel)) (sleepStep_step (by decide +kernel))
      (by decide +kernel) (by decide +kernel) (by decide +kernel)
      (by decide +kernel) trivial (by decide +kernel)
  exact ⟨_, unqueued_sleeperAndIdle, hsleep, rfl, by decide⟩

end BabOs.Sync
