import BabOs.Sched.Model

/-!
# Mutexes, condition variables and the machine that runs them

This module embeds `mutex.c`, `cond.c` and `sleep` of `timer.c`, and the
machine they run on: one processor, tasks that are switched by the timer
interrupt, and interrupt handlers that run on the stack of the task they
interrupt.  A step of the machine ends where interrupts are enabled or where
the processor may change hands; in between nothing else can run.
-/

namespace BabOs.Sync

open BabOs.Sched BabOs.Chain

structure Mutex where
  locked : ℕ
  owner : Option ℕ
  waiters : Option ℕ
  deriving DecidableEq

/-- The wait queues: one for each mutex and one for each condition. -/
inductive Queue (M C : Type*)
  | mutex (m : M)
  | cond (c : C)
  deriving DecidableEq

/-- The data of the kernel.  A `cond_t` is its `waiters` field. -/
structure Kernel (M C : Type*) where
  tasks : Tasks
  mutex : M → Mutex
  cond : C → Option ℕ
  tick : ℕ

variable {M C L D : Type*} [DecidableEq M] [DecidableEq C]

namespace Kernel

def setMutex (k : Kernel M C) (m : M) (x : Mutex) : Kernel M C :=
  { k with mutex := Function.update k.mutex m x }

def head (k : Kernel M C) : Queue M C → Option ℕ
  | .mutex m => (k.mutex m).waiters
  | .cond c => k.cond c

def setHead (k : Kernel M C) (q : Queue M C) (h : Option ℕ) : Kernel M C :=
  match q with
  | .mutex m => k.setMutex m { k.mutex m with waiters := h }
  | .cond c => { k with cond := Function.update k.cond c h }

def setTask (k : Kernel M C) (t : ℕ) (x : Task) : Kernel M C :=
  { k with tasks := k.tasks.setTask t x }

def setState (k : Kernel M C) (t : ℕ) (state : TaskState) : Kernel M C :=
  { k with tasks := k.tasks.setState t state }

def setWaitNext (k : Kernel M C) (t : ℕ) (next : Option ℕ) : Kernel M C :=
  k.setTask t { k.tasks.task t with waitNext := next }

end Kernel

/-! ## The functions of the kernel -/

/-- The statements of `mutex_lock` and of `cond_wait` that put the current
task on a queue.  The walk to the last waiter takes `fuel` steps at most. -/
def enqueue (fuel : ℕ) (q : Queue M C) (current : ℕ) (k : Kernel M C) :
    Option (Kernel M C) :=
  let k := k.setState current .blocked
  let k := k.setWaitNext current none
  match k.head q with
  | none => some (k.setHead q (some current))
  | some h =>
      match lastFrom k.tasks.waitNext fuel h with
      | none => none
      | some tmp => some (k.setWaitNext tmp (some current))

/-- The statements of `mutex_unlock`, `cond_signal` and `cond_broadcast` that
take the first waiter off a queue and make it ready. -/
def wakeFirst (q : Queue M C) (k : Kernel M C) : Kernel M C :=
  match k.head q with
  | none => k
  | some waiter =>
      let k := k.setHead q (k.tasks.waitNext waiter)
      k.setState waiter .ready

/-- One test of the loop of `mutex_lock`, up to `task_yield` when the mutex is
locked and to the end of the function when it is not. -/
def mutexTest (fuel : ℕ) (m : M) (current : ℕ) (k : Kernel M C) :
    Option (Bool × Kernel M C) :=
  if (k.mutex m).locked ≠ 0 then
    match enqueue fuel (.mutex m) current k with
    | none => none
    | some k => some (false, k)
  else
    some (true, k.setMutex m
      { k.mutex m with locked := 1, owner := some current })

def mutexUnlock (m : M) (k : Kernel M C) : Kernel M C :=
  let k := k.setMutex m { k.mutex m with locked := 0, owner := none }
  wakeFirst (.mutex m) k

def condWaitEnter (fuel : ℕ) (c : C) (m : M) (current : ℕ) (k : Kernel M C) :
    Option (Kernel M C) :=
  match enqueue fuel (.cond c) current k with
  | none => none
  | some k => some (mutexUnlock m k)

def condSignal (c : C) (k : Kernel M C) : Kernel M C :=
  wakeFirst (.cond c) k

def condBroadcast (c : C) : (fuel : ℕ) → Kernel M C → Option (Kernel M C)
  | 0, _ => none
  | fuel + 1, k =>
      match k.cond c with
      | none => some k
      | some _ => condBroadcast c fuel (wakeFirst (.cond c) k)

def ticksToWait (ms : ℕ) : ℕ :=
  if ms / 10 = 0 then 1 else ms / 10

def setSleepTicks (current ticks : ℕ) (k : Kernel M C) : Kernel M C :=
  k.setTask current { k.tasks.task current with sleepTicks := ticks }

/-! ## Programs -/

/-- What code does next at a location: it works on its own data, calls one of
the functions, or returns from an interrupt. -/
inductive Act (M C : Type*)
  | skip
  | lock (m : M)
  | unlock (m : M)
  | wait (c : C) (m : M)
  | signal (c : C)
  | broadcast (c : C)
  | sleep (ms : ℕ)
  | iret
  deriving DecidableEq

/-- The code of the tasks and of the interrupt handlers, over locations `L`
and shared data `D`.  `move l d a l' d'` means that code at `l` may do `a` and
be at `l'` when it is done.  `irq d d' h` means that an interrupt may come when
the data are `d`; `h` is where its handler starts, or `none` when the handler
is done at once. -/
structure Program (M C L D : Type*) where
  move : L → D → Act M C → L → D → Prop
  irq : D → D → Option L → Prop

/-- Where an activation stands: in its own code, or inside `mutex_lock`,
`cond_wait` or `sleep`, from where it goes on to the location `l`. -/
inductive Pc (M C L : Type*)
  | user (l : L)
  | lockYield (m : M) (l : L)
  | lockRetry (m : M) (l : L)
  | waitYield (c : C) (m : M) (l : L)
  | waitRelock (c : C) (m : M) (l : L)
  | sleepMark (l : L)
  | sleepYield (l : L)
  deriving DecidableEq

/-- An activation: a task, or an interrupt handler on top of it.  `irqOn` is
the interrupt flag, and `holds` records the mutexes it has locked. -/
structure Frame (M C L : Type*) where
  pc : Pc M C L
  irqOn : Bool
  holds : List M
  deriving DecidableEq

/-- The machine.  `stack t` lists the activations of the task `t`, the topmost
first.  The last three fields are a record that no step reads: the mutex whose
unlock made a task ready that has not tested it again, and the time when a
task was last put on the queue of a condition. -/
structure Config (M C L D : Type*) where
  k : Kernel M C
  stack : ℕ → List (Frame M C L)
  data : D
  woken : ℕ → Option M
  since : ℕ → ℕ
  clock : ℕ

namespace Config

def setStack (c : Config M C L D) (t : ℕ) (fs : List (Frame M C L)) :
    Config M C L D :=
  { c with stack := Function.update c.stack t fs }

/-- Note that an unlock of `m` is about to make the first waiter ready. -/
def noteUnlock (c : Config M C L D) (m : M) : Config M C L D :=
  { c with woken :=
      match (c.k.mutex m).waiters with
      | none => c.woken
      | some waiter => Function.update c.woken waiter (some m) }

end Config

/-! ## Steps -/

/-- What a step does, for conditions on runs. -/
inductive Label (M C L : Type*)
  | call (a : Act M C)
  | retry (m : M)
  | sleeping
  | yield
  | timer
  | irq (handler : Option L)
  deriving DecidableEq

section Steps

variable (P : Program M C L D) (timer : ℕ → Tasks → ℕ → Tasks → Prop)

/-- A test of the mutex `m` by the topmost activation `f` of `r`. -/
def lockStep (fuel : ℕ) (m : M) (r : ℕ) (l : L) (f : Frame M C L)
    (fs : List (Frame M C L)) (c : Config M C L D) :
    Option (Config M C L D) :=
  match mutexTest fuel m r c.k with
  | none => none
  | some (true, k) =>
      some { c with
        k := k
        stack := Function.update c.stack r
          ({ pc := .user l, irqOn := true, holds := m :: f.holds } :: fs)
        woken := Function.update c.woken r none }
  | some (false, k) =>
      some { c with
        k := k
        stack := Function.update c.stack r
          ({ f with pc := .lockYield m l, irqOn := false } :: fs)
        woken := Function.update c.woken r none }

/-- Where an activation stands after the `int 0x20` of `task_yield`. -/
def afterYield : Pc M C L → Option (Pc M C L)
  | .lockYield m l => some (.lockRetry m l)
  | .waitYield c m l => some (.waitRelock c m l)
  | .sleepYield l => some (.user l)
  | _ => none

/-- The mutex that an activation is about to test again. -/
def retries : Pc M C L → Option (M × L)
  | .lockRetry m l => some (m, l)
  | .waitRelock _ m l => some (m, l)
  | _ => none

/-- The steps of the machine.  `r` is the running task and `f` its topmost
activation.  `timer` is what the timer interrupt may do to the tasks. -/
inductive Step : Label M C L → Config M C L D → Config M C L D → Prop
  | skip {c : Config M C L D} {r : ℕ} {f : Frame M C L}
      {fs : List (Frame M C L)} {l l' : L} {d' : D}
      (hr : c.k.tasks.runningTask = some r) (hf : c.stack r = f :: fs)
      (hpc : f.pc = .user l) (hmove : P.move l c.data .skip l' d') :
      Step (.call .skip) c
        { c.setStack r ({ f with pc := .user l' } :: fs) with data := d' }
  | lock {c c' : Config M C L D} {r : ℕ} {f : Frame M C L}
      {fs : List (Frame M C L)} {l l' : L} {d' : D} {m : M} {fuel : ℕ}
      (hr : c.k.tasks.runningTask = some r) (hf : c.stack r = f :: fs)
      (hpc : f.pc = .user l) (hmove : P.move l c.data (.lock m) l' d')
      (htest : lockStep fuel m r l' f fs { c with data := d' } = some c') :
      Step (.call (.lock m)) c c'
  | retry {c c' : Config M C L D} {r : ℕ} {f : Frame M C L}
      {fs : List (Frame M C L)} {l : L} {m : M} {fuel : ℕ}
      (hr : c.k.tasks.runningTask = some r) (hf : c.stack r = f :: fs)
      (hpc : retries f.pc = some (m, l))
      (htest : lockStep fuel m r l f fs c = some c') :
      Step (.retry m) c c'
  | unlock {c : Config M C L D} {r : ℕ} {f : Frame M C L}
      {fs : List (Frame M C L)} {l l' : L} {d' : D} {m : M}
      (hr : c.k.tasks.runningTask = some r) (hf : c.stack r = f :: fs)
      (hpc : f.pc = .user l) (hmove : P.move l c.data (.unlock m) l' d') :
      Step (.call (.unlock m)) c
        { (c.noteUnlock m).setStack r
            ({ pc := .user l', irqOn := true,
               holds := f.holds.filter (· ≠ m) } :: fs) with
          k := mutexUnlock m c.k
          data := d' }
  | wait {c : Config M C L D} {r : ℕ} {f : Frame M C L}
      {fs : List (Frame M C L)} {l l' : L} {d' : D} {v : C} {m : M}
      {fuel : ℕ} {k' : Kernel M C}
      (hr : c.k.tasks.runningTask = some r) (hf : c.stack r = f :: fs)
      (hpc : f.pc = .user l) (hmove : P.move l c.data (.wait v m) l' d')
      (hwait : condWaitEnter fuel v m r c.k = some k') :
      Step (.call (.wait v m)) c
        { (c.noteUnlock m).setStack r
            ({ pc := .waitYield v m l', irqOn := true,
               holds := f.holds.filter (· ≠ m) } :: fs) with
          k := k'
          data := d'
          since := Function.update c.since r c.clock
          clock := c.clock + 1 }
  | signal {c : Config M C L D} {r : ℕ} {f : Frame M C L}
      {fs : List (Frame M C L)} {l l' : L} {d' : D} {v : C}
      (hr : c.k.tasks.runningTask = some r) (hf : c.stack r = f :: fs)
      (hpc : f.pc = .user l) (hmove : P.move l c.data (.signal v) l' d') :
      Step (.call (.signal v)) c
        { c.setStack r ({ f with pc := .user l', irqOn := true } :: fs) with
          k := condSignal v c.k
          data := d' }
  | broadcast {c : Config M C L D} {r : ℕ} {f : Frame M C L}
      {fs : List (Frame M C L)} {l l' : L} {d' : D} {v : C} {fuel : ℕ}
      {k' : Kernel M C}
      (hr : c.k.tasks.runningTask = some r) (hf : c.stack r = f :: fs)
      (hpc : f.pc = .user l) (hmove : P.move l c.data (.broadcast v) l' d')
      (hcast : condBroadcast v fuel c.k = some k') :
      Step (.call (.broadcast v)) c
        { c.setStack r ({ f with pc := .user l', irqOn := true } :: fs) with
          k := k'
          data := d' }
  | sleep {c : Config M C L D} {r : ℕ} {f : Frame M C L}
      {fs : List (Frame M C L)} {l l' : L} {d' : D} {ms : ℕ}
      (hr : c.k.tasks.runningTask = some r) (hf : c.stack r = f :: fs)
      (hpc : f.pc = .user l) (hmove : P.move l c.data (.sleep ms) l' d') :
      Step (.call (.sleep ms)) c
        { c.setStack r ({ f with pc := .sleepMark l' } :: fs) with
          k := setSleepTicks r (ticksToWait ms) c.k
          data := d' }
  | sleepMark {c : Config M C L D} {r : ℕ} {f : Frame M C L}
      {fs : List (Frame M C L)} {l : L}
      (hr : c.k.tasks.runningTask = some r) (hf : c.stack r = f :: fs)
      (hpc : f.pc = .sleepMark l) :
      Step .sleeping c
        { c.setStack r ({ f with pc := .sleepYield l } :: fs) with
          k := c.k.setState r .sleeping }
  | yield {c : Config M C L D} {r : ℕ} {f : Frame M C L}
      {fs : List (Frame M C L)} {pc' : Pc M C L} {tick' : ℕ} {T' : Tasks}
      (hr : c.k.tasks.runningTask = some r) (hf : c.stack r = f :: fs)
      (hpc : afterYield f.pc = some pc')
      (htimer : timer c.k.tick c.k.tasks tick' T') :
      Step .yield c
        { c.setStack r ({ f with pc := pc' } :: fs) with
          k := { c.k with tasks := T', tick := tick' } }
  | timer {c : Config M C L D} {r : ℕ} {f : Frame M C L}
      {fs : List (Frame M C L)} {tick' : ℕ} {T' : Tasks}
      (hr : c.k.tasks.runningTask = some r) (hf : c.stack r = f :: fs)
      (hirq : f.irqOn = true)
      (htimer : timer c.k.tick c.k.tasks tick' T') :
      Step .timer c { c with k := { c.k with tasks := T', tick := tick' } }
  | irqDone {c : Config M C L D} {r : ℕ} {f : Frame M C L}
      {fs : List (Frame M C L)} {d' : D}
      (hr : c.k.tasks.runningTask = some r) (hf : c.stack r = f :: fs)
      (hirq : f.irqOn = true) (hdata : P.irq c.data d' none) :
      Step (.irq none) c { c with data := d' }
  | irqEnter {c : Config M C L D} {r : ℕ} {f : Frame M C L}
      {fs : List (Frame M C L)} {d' : D} {l : L}
      (hr : c.k.tasks.runningTask = some r) (hf : c.stack r = f :: fs)
      (hirq : f.irqOn = true) (hdata : P.irq c.data d' (some l)) :
      Step (.irq (some l)) c
        { c.setStack r
            ({ pc := .user l, irqOn := false, holds := [] } :: f :: fs) with
          data := d' }
  | iret {c : Config M C L D} {r : ℕ} {f g : Frame M C L}
      {fs : List (Frame M C L)} {l l' : L} {d' : D}
      (hr : c.k.tasks.runningTask = some r) (hf : c.stack r = f :: g :: fs)
      (hpc : f.pc = .user l) (hmove : P.move l c.data .iret l' d') :
      Step (.call .iret) c { c.setStack r (g :: fs) with data := d' }

end Steps

/-- What the code of the timer interrupt does to the tasks.  The saved stack
pointers stand for the activations and are not looked at. -/
def codeTimer (tick : ℕ) (T : Tasks) (tick' : ℕ) (T' : Tasks) : Prop :=
  ∃ fuel esp esp', timerCallback fuel esp tick T = some (esp', tick', T')

/-! ## Runs -/

/-- Runs whose steps all meet the condition `ok`, which may look at what the
step does and at the configuration before it. -/
inductive Run (P : Program M C L D) (timer : ℕ → Tasks → ℕ → Tasks → Prop)
    (ok : Label M C L → Config M C L D → Prop) :
    Config M C L D → Config M C L D → Prop
  | refl (c : Config M C L D) : Run P timer ok c c
  | tail {c₀ c c' : Config M C L D} {a : Label M C L}
      (hrun : Run P timer ok c₀ c) (hok : ok a c) (hstep : Step P timer a c c') :
      Run P timer ok c₀ c'

theorem Run.mono {P : Program M C L D}
    {timer : ℕ → Tasks → ℕ → Tasks → Prop}
    {ok ok' : Label M C L → Config M C L D → Prop} {c₀ c : Config M C L D}
    (hrun : Run P timer ok c₀ c) (hok : ∀ a c, ok a c → ok' a c) :
    Run P timer ok' c₀ c := by
  induction hrun with
  | refl => exact Run.refl _
  | tail _ hlast hstep ih => exact ih.tail (hok _ _ hlast) hstep

theorem Run.invariant {P : Program M C L D}
    {timer : ℕ → Tasks → ℕ → Tasks → Prop}
    {ok : Label M C L → Config M C L D → Prop} {c₀ c : Config M C L D}
    {I : Config M C L D → Prop} (hrun : Run P timer ok c₀ c) (hinit : I c₀)
    (hstep : ∀ {a c c'}, ok a c → Step P timer a c c' → I c → I c') : I c := by
  induction hrun with
  | refl => exact hinit
  | tail _ hok hlast ih => exact hstep hok hlast ih

end BabOs.Sync
