import BabOs.Sync.Exec
import BabOs.Sync.Sound
import BabOs.Sync.States

/-!
# Runs keep the wait queues sound

When no interrupt handler blocks and one task of the list never suspends
itself, every step meets what the invariant needs, and the queues are sound in
every state of a run.
-/

namespace BabOs.Sync

open BabOs.Sched BabOs.Chain

variable {M C L D : Type*}

/-! ## Conditions on runs -/

/-- The calls that may put the calling task to sleep or on a queue. -/
def Label.Blocking : Label M C L → Prop
  | .call (.lock _) => True
  | .call (.wait _ _) => True
  | .call (.sleep _) => True
  | .retry _ => True
  | .sleeping => True
  | _ => False

instance : (a : Label M C L) → Decidable a.Blocking
  | .call (.lock _) | .call (.wait _ _) | .call (.sleep _) | .retry _
  | .sleeping => instDecidableTrue
  | .call .skip | .call (.unlock _) | .call (.signal _) | .call (.broadcast _)
  | .call .iret | .yield | .timer | .irq _ => instDecidableFalse

/-- The number of activations of the running task. -/
def Config.depth (c : Config M C L D) : ℕ :=
  match c.k.tasks.runningTask with
  | none => 0
  | some r => (c.stack r).length

/-- No interrupt handler suspends the task that it interrupts. -/
def HandlersPass (a : Label M C L) (c : Config M C L D) : Prop :=
  a.Suspends c → c.depth = 1

/-- No interrupt handler locks, waits or sleeps. -/
def HandlersRun (a : Label M C L) (c : Config M C L D) : Prop :=
  a.Blocking → c.depth = 1

/-- No interrupt handler locks, waits or sleeps, and the task `idle` never
suspends itself. -/
def IdleRuns (idle : ℕ) (a : Label M C L) (c : Config M C L D) : Prop :=
  HandlersRun a c ∧
    (a.Suspends c → c.k.tasks.runningTask ≠ some idle)

instance (a : Label M C L) (c : Config M C L D) :
    Decidable (HandlersPass a c) :=
  inferInstanceAs (Decidable (_ → _))

instance (a : Label M C L) (c : Config M C L D) :
    Decidable (HandlersRun a c) :=
  inferInstanceAs (Decidable (_ → _))

instance (idle : ℕ) (a : Label M C L) (c : Config M C L D) :
    Decidable (IdleRuns idle a c) :=
  inferInstanceAs (Decidable (_ ∧ (_ → _)))

/-- A task that suspends itself makes a call that may suspend it. -/
theorem Label.blocking_of_suspends {a : Label M C L} {c : Config M C L D}
    (h : a.Suspends c) : a.Blocking := by
  cases a with
  | call act =>
      cases act with
      | lock | wait => trivial
      | skip | unlock | signal | broadcast | sleep | iret => exact absurd h id
  | retry | sleeping => trivial
  | yield | timer | irq => exact absurd h id

theorem HandlersRun.pass {a : Label M C L} {c : Config M C L D}
    (h : HandlersRun a c) : HandlersPass a c :=
  fun hsuspends => h (Label.blocking_of_suspends hsuspends)

/-- Nobody waits: the queues are empty and no task of the list is blocked. -/
structure Unqueued (tl : List ℕ) (c : Config M C L D) : Prop where
  list : IsChain c.k.tasks.next c.k.tasks.readyQueue tl
  running : ∃ r ∈ tl, c.k.tasks.runningTask = some r
  empty : ∀ q, c.k.head q = none
  awake : ∀ t ∈ tl, c.k.tasks.state t ≠ .blocked
  woken : ∀ t, c.woken t = none

theorem Unqueued.sound {tl : List ℕ} {c : Config M C L D}
    (h : Unqueued tl c) : Sound tl c fun _ => [] where
  waiting :=
    { chain := fun q => by rw [h.empty q, isChain_nil]
      unique := fun hmem => absurd hmem List.not_mem_nil
      blocked := fun t ht => by simp [h.awake t ht]
      listed := fun hmem => absurd hmem List.not_mem_nil }
  list := h.list
  running := h.running
  stands := fun _ _ hmem => absurd hmem List.not_mem_nil
  fifo := fun _ => List.Pairwise.nil
  past := fun _ _ hmem => absurd hmem List.not_mem_nil
  woken := fun t m hw => by
    rw [h.woken t] at hw
    cases hw
  awake := fun _ _ hne => absurd rfl hne

section Steps

variable [DecidableEq M] [DecidableEq C] {P : Program M C L D}
  {tl : List ℕ} {a : Label M C L} {c c' : Config M C L D}
  {Q : Queue M C → List ℕ}

/-- A task that blocks is not blocked yet when it has no handler on top. -/
theorem Sound.calm (h : Sound tl c Q) (hhandlers : HandlersPass a c)
    (hpick : a.Ticks → ∃ i ∈ tl, c.k.tasks.Runnable i)
    (hstep : Step P codeTimer a c c') : Calm a c := by
  have hbase : ∀ {r : ℕ} {f : Frame M C L} {fs : List (Frame M C L)},
      c.k.tasks.runningTask = some r → c.stack r = f :: fs → c.depth = 1 →
      f.pc.waitsOn = none → ∀ r', c.k.tasks.runningTask = some r' →
      c.k.tasks.state r' ≠ .blocked := by
    intro r f fs hr hf hdepth hplain r' hr' hblocked
    obtain rfl : r = r' := Option.some.inj (hr.symm.trans hr')
    have hnil : fs = [] := by
      simpa only [Config.depth, hr, hf, List.length_cons, Nat.add_eq_right,
        List.length_eq_zero_iff] using hdepth
    obtain ⟨q, hq⟩ :=
      (h.waiting.blocked r (h.mem_of_running hr)).mp hblocked
    have hstands := h.stands_running hr hq
    rw [hf, hnil] at hstands
    exact hstands.ne_base hplain
  have htask : ∀ {i : ℕ}, i ∈ tl →
      OnChain c.k.tasks.next c.k.tasks.readyQueue i :=
    fun hi => h.list.onChain_iff.mpr hi
  cases hstep with
  | lock hr hf hpc hmove htest =>
      exact fun hlocked => hbase hr hf (hhandlers hlocked)
        (by simp [hpc, Pc.waitsOn])
  | wait hr hf hpc hmove hwait =>
      exact hbase hr hf (hhandlers trivial) (by simp [hpc, Pc.waitsOn])
  | sleepMark hr hf hpc =>
      exact hbase hr hf (hhandlers trivial) (by simp [hpc, Pc.waitsOn])
  | yield hr hf hpc htimer =>
      obtain ⟨i, hi, hrun⟩ := hpick trivial
      exact ⟨i, htask hi, hrun⟩
  | timer hr hf hirq htimer =>
      obtain ⟨i, hi, hrun⟩ := hpick trivial
      exact ⟨i, htask hi, hrun⟩
  | skip | retry | unlock | signal | broadcast | sleep | irqDone | irqEnter
  | iret => trivial

/-- What a run with an idle task keeps. -/
def Idles (tl : List ℕ) (idle : ℕ) (c : Config M C L D) : Prop :=
  c.k.tasks.Runnable idle ∧ ∃ Q, Sound tl c Q

theorem Step.idles {idle : ℕ} (hidle : idle ∈ tl) (hhandlers : HandlersPass a c)
    (hnot : a.Suspends c → c.k.tasks.runningTask ≠ some idle)
    (hstep : Step P codeTimer a c c') (h : Idles tl idle c) :
    Idles tl idle c' := by
  obtain ⟨hrun, Q, hsound⟩ := h
  refine ⟨hstep.runnable hrun hnot, ?_⟩
  exact hstep.sound hsound
    (hsound.calm hhandlers (fun _ => ⟨idle, hidle, hrun⟩) hstep)

/-- In every state of a run in which no interrupt handler blocks and the idle
task never suspends itself: each queue is a chain without repetition, the
chains are disjoint, and the blocked tasks are those on a chain.  A signal
readies the task that has waited longest and a broadcast all of them.  While a
mutex is unlocked and a task waits for it, a task that an unlock has taken off
its queue can run and is about to test it again. -/
theorem run_waitQueues {c₀ : Config M C L D} {idle : ℕ}
    (hinit : Unqueued tl c₀) (hidle : idle ∈ tl)
    (hready : c₀.k.tasks.Runnable idle)
    (hrun : Run P codeTimer (IdleRuns idle) c₀ c) :
    ∃ Q : Queue M C → List ℕ,
      (∀ q, IsChain c.k.tasks.waitNext (c.k.head q) (Q q) ∧ (Q q).Nodup) ∧
      (∀ q q', q ≠ q' → (Q q).Disjoint (Q q')) ∧
      (∀ t ∈ tl, c.k.tasks.state t = .blocked ↔ ∃ q, t ∈ Q q) ∧
      (∀ q, ∀ t ∈ Q q, t ∈ tl) ∧
      (∀ v, Q (.cond v) = [] → condSignal v c.k = c.k) ∧
      (∀ v w rest, Q (.cond v) = w :: rest →
        (∀ u ∈ rest, c.since w < c.since u) ∧
        (condSignal v c.k).tasks.state =
          Function.update c.k.tasks.state w .ready ∧
        ∀ q, IsChain (condSignal v c.k).tasks.waitNext
          ((condSignal v c.k).head q)
          (if q = .cond v then rest else Q q)) ∧
      (∀ v, (∃ fuel k', condBroadcast v fuel c.k = some k') ∧
        ∀ fuel k', condBroadcast v fuel c.k = some k' →
          (∀ t, k'.tasks.state t =
            if t ∈ Q (.cond v) then .ready else c.k.tasks.state t) ∧
          ∀ q, IsChain k'.tasks.waitNext (k'.head q)
            (if q = .cond v then [] else Q q)) ∧
      ∀ m, (c.k.mutex m).locked = 0 → Q (.mutex m) ≠ [] →
        ∃ t ∈ tl, c.woken t = some m ∧ c.k.tasks.Runnable t ∧
          ∃ f fs l, c.stack t = f :: fs ∧ f.pc = .lockRetry m l := by
  have hidles : Idles tl idle c :=
    hrun.invariant ⟨hready, _, hinit.sound⟩
      fun hok => Step.idles hidle hok.1.pass hok.2
  obtain ⟨-, Q, hsound⟩ := hidles
  have hwait := hsound.waiting
  have hupdate : ∀ (q q' : Queue M C) (l : List ℕ),
      Function.update Q q l q' = if q' = q then l else Q q' :=
    fun q q' l => Function.update_apply Q q l q'
  refine ⟨Q, fun q => ⟨hwait.chain q, hwait.nodup q⟩, ?_, hwait.blocked,
    fun q t => hwait.listed, ?_, ?_, ?_, ?_⟩
  · intro q q' hne t ht ht'
    exact hne (hwait.unique ht ht')
  · exact fun v hnil => hwait.wakeFirst_nil hnil
  · intro v w rest hq
    have hfifo := hsound.fifo v
    rw [hq, List.pairwise_cons] at hfifo
    refine ⟨hfifo.1, hwait.state_wakeFirst hq, fun q => ?_⟩
    have hchain := (hwait.wakeFirst (q := .cond v)).chain q
    rwa [pop, hupdate, hq, List.tail_cons] at hchain
  · intro v
    refine ⟨hwait.exists_condBroadcast, fun fuel k' hcast => ?_⟩
    obtain ⟨hwait', hstate⟩ := hwait.condBroadcast hcast
    refine ⟨hstate, fun q => ?_⟩
    rw [← hupdate]
    exact hwait'.chain q
  · intro m hfree hne
    obtain ⟨t, ht⟩ := hsound.awake m hfree hne
    obtain ⟨htl, hrunnable, f, fs, l, hf, -, hpc⟩ := hsound.woken t m ht
    exact ⟨t, htl, ht, hrunnable, f, fs, l, hf, hpc⟩

end Steps

/-- An idle task at location 0, a task that waits for a condition and a task
that signals it. -/
def waitLoop : Code Unit Unit ℕ Unit Empty where
  next l d :=
    match l with
    | 0 => some (.skip, 0, d)
    | 1 => some (.lock (), 2, d)
    | 2 => some (.wait () (), 3, d)
    | 3 => some (.unlock (), 1, d)
    | 4 => some (.lock (), 5, d)
    | 5 => some (.signal (), 6, d)
    | _ => some (.unlock (), 4, d)
  irq e _ := e.elim

def threeTasks : Config Unit Unit ℕ Unit where
  k :=
    { tasks :=
        { task := fun t =>
            { esp := 0
              kstack := 0
              state := if t = 0 then .running else .ready
              sleepTicks := 0
              next := if t < 2 then some (t + 1) else none
              waitNext := none }
          runningTask := some 0
          readyQueue := some 0 }
      mutex := fun _ => { locked := 0, owner := none, waiters := none }
      cond := fun _ => none
      tick := 0 }
  stack := fun t =>
    [{ pc := .user (if t = 2 then 4 else t), irqOn := true, holds := [] }]
  data := ()
  woken := fun _ => none
  since := fun _ => 0
  clock := 0

/-- The second task waits, and the third one has locked the mutex. -/
theorem run_waitQueues_threeTasks :
    ∃ c, Run waitLoop.program codeTimer (IdleRuns 0) threeTasks c ∧
      ∃ Q : Queue Unit Unit → List ℕ, Q (.cond ()) = [1] ∧
        (∀ q, IsChain c.k.tasks.waitNext (c.k.head q) (Q q) ∧ (Q q).Nodup) ∧
        ∀ t ∈ [0, 1, 2], c.k.tasks.state t = .blocked ↔ ∃ q, t ∈ Q q := by
  have hinit : Unqueued [0, 1, 2] threeTasks := by
    refine ⟨?_, ⟨0, by simp, rfl⟩, ?_, fun t _ => ?_, fun t => rfl⟩
    · exact ⟨rfl, rfl, rfl, rfl⟩
    · rintro (_ | _) <;> rfl
    · change (if t = 0 then TaskState.running else TaskState.ready) ≠ .blocked
      split_ifs <;> decide
  obtain ⟨c, hrun, hhead, hlink⟩ :=
    exists_run waitLoop (IdleRuns 0) 4 [.timer, .go, .go, .go, .go] threeTasks
      (fun c => c.k.cond () = some 1 ∧ c.k.tasks.waitNext 1 = none)
      (by decide +kernel)
  obtain ⟨Q, hchain, -, hblocked, -⟩ :=
    run_waitQueues hinit (by simp) (by decide) hrun
  refine ⟨c, hrun, Q, ?_, hchain, hblocked⟩
  have hone : IsChain c.k.tasks.waitNext (c.k.head (.cond ())) [1] :=
    ⟨hhead, hlink⟩
  exact (hchain (.cond ())).1.unique hone

end BabOs.Sync
