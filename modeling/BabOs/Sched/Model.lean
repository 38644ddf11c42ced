import BabOs.Library.Chain

/-!
# Tasks and the scheduler

This module embeds the task list of `task.c` and the handler of the timer
interrupt in `timer.c`.  A `task_t *` is a number, the null pointer is `none`,
and the tasks are threaded through their `next` fields.
-/

namespace BabOs.Sched

inductive TaskState
  | running
  | ready
  | blocked
  | sleeping
  deriving DecidableEq

/-- `task_t`, without the fields that only the messages of `task_create`
read. -/
structure Task where
  esp : ℕ
  kstack : ℕ
  state : TaskState
  sleepTicks : ℕ
  next : Option ℕ
  waitNext : Option ℕ
  deriving DecidableEq

/-- The tasks and the file-scope variables of `task.c`. -/
structure Tasks where
  task : ℕ → Task
  runningTask : Option ℕ
  readyQueue : Option ℕ

namespace Tasks

def setTask (T : Tasks) (t : ℕ) (x : Task) : Tasks :=
  { T with task := Function.update T.task t x }

def setState (T : Tasks) (t : ℕ) (state : TaskState) : Tasks :=
  T.setTask t { T.task t with state := state }

def setEsp (T : Tasks) (t esp : ℕ) : Tasks :=
  T.setTask t { T.task t with esp := esp }

def setRunning (T : Tasks) (t : ℕ) : Tasks :=
  { T with runningTask := some t }

def state (T : Tasks) (t : ℕ) : TaskState := (T.task t).state

def next (T : Tasks) (t : ℕ) : Option ℕ := (T.task t).next

def waitNext (T : Tasks) (t : ℕ) : Option ℕ := (T.task t).waitNext

/-- The states from which `schedule` picks. -/
def Runnable (T : Tasks) (t : ℕ) : Prop :=
  T.state t = .ready ∨ T.state t = .running

instance (T : Tasks) (t : ℕ) : Decidable (T.Runnable t) :=
  inferInstanceAs (Decidable (_ ∨ _))

end Tasks

/-! ## The task list -/

/-- The bytes of the frame that `task_create` builds at the top of the stack
of a new task: fourteen words. -/
def frameSize : ℕ := 56

/-- `task_init`, where `kmalloc` has returned `t`. -/
def taskInit (t : ℕ) (T : Tasks) : Tasks :=
  let T := T.setTask t
    { T.task t with
      esp := 0
      kstack := 0
      state := .running
      sleepTicks := 0
      next := none }
  { T with runningTask := some t, readyQueue := some t }

/-- `task_create`, where `kmalloc` has returned `newTask` for the task and
`stackBase` for its stack.  The walk to the last task takes `fuel` steps at
most. -/
def taskCreate (fuel newTask stackBase : ℕ) (T : Tasks) : Option Tasks :=
  let T := T.setTask newTask
    { T.task newTask with
      esp := stackBase + 4096 - frameSize
      kstack := stackBase
      state := .ready
      sleepTicks := 0
      next := none }
  match T.readyQueue with
  | none => none
  | some tmp =>
      match Chain.lastFrom T.next fuel tmp with
      | none => none
      | some tmp =>
          some (T.setTask tmp { T.task tmp with next := some newTask })

/-! ## The scheduler -/

/-- The loop of `schedule` that was entered with `start` and stands at `t`.
Its rounds are bounded by `fuel`. -/
def scheduleLoop (T : Tasks) (start : ℕ) : (fuel t : ℕ) → Option ℕ
  | 0, _ => none
  | fuel + 1, t =>
      match (T.next t).or T.readyQueue with
      | none => none
      | some t =>
          if T.Runnable t then some t
          else if t = start then some t
          else scheduleLoop T start fuel t

/-- The first statements of `schedule`: the stack pointer of the running task
is saved, and the task is ready again unless it has left its running state. -/
def suspend (T : Tasks) (r currentEsp : ℕ) : Tasks :=
  let T := T.setEsp r currentEsp
  if T.state r = .running then T.setState r .ready else T

/-- `schedule`; the result is the stack pointer to go on with. -/
def schedule (fuel currentEsp : ℕ) (T : Tasks) : Option (ℕ × Tasks) :=
  match T.runningTask with
  | none => some (currentEsp, T)
  | some r =>
      let T := suspend T r currentEsp
      match scheduleLoop T r fuel r with
      | none => none
      | some t => some ((T.task t).esp, (T.setRunning t).setState t .running)

/-- The loop body of `tasks_update_sleep_ticks`. -/
def updateSleep (x : Task) : Task :=
  if x.state = .sleeping ∧ 0 < x.sleepTicks then
    let x := { x with sleepTicks := x.sleepTicks - 1 }
    if x.sleepTicks = 0 then { x with state := .ready } else x
  else x

/-- The loop of `tasks_update_sleep_ticks` at `tmp`. -/
def tasksUpdateLoop : (fuel : ℕ) → (tmp : Option ℕ) → Tasks → Option Tasks
  | _, none, T => some T
  | 0, some _, _ => none
  | fuel + 1, some t, T =>
      let T := T.setTask t (updateSleep (T.task t))
      tasksUpdateLoop fuel (T.next t) T

def tasksUpdateSleepTicks (fuel : ℕ) (T : Tasks) : Option Tasks :=
  tasksUpdateLoop fuel T.readyQueue T

/-- `timer_callback`, whose argument is the stack pointer of the interrupted
task.  `tick` is a `uint32_t`. -/
def timerCallback (fuel esp tick : ℕ) (T : Tasks) :
    Option (ℕ × ℕ × Tasks) :=
  let tick := (tick + 1) % 2 ^ 32
  match tasksUpdateSleepTicks fuel T with
  | none => none
  | some T =>
      match schedule fuel esp T with
      | none => none
      | some (esp, T) => some (esp, tick, T)

end BabOs.Sched
