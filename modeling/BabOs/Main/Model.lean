import BabOs.Keyboard.Model
import BabOs.Sync.Exec

/-!
# The booted system

This module embeds the tasks that `kmain` of `main.c` creates, with `getchar`
and `keyboard_callback`, one statement at a location: an interrupt may come
before each of them.  What is printed is left out, and so are the commands of
the shell, which use no monitor.
-/

namespace BabOs.Main

open BabOs.Sched BabOs.Sync

/-! ## The monitors -/

/-- `kbd_monitor` and `buffer_monitor` -/
inductive Monitor
  | kbd
  | buffer
  deriving DecidableEq

/-- The conditions of the monitors. -/
abbrev Cond := Monitor × Fin 8

def monitorEnter (m : Monitor) : Act Monitor Cond := .lock m

def monitorExit (m : Monitor) : Act Monitor Cond := .unlock m

theorem toNat_condIdx_lt {condIdx : ℤ} (h : 0 ≤ condIdx ∧ condIdx < 8) :
    condIdx.toNat < 8 :=
  (Int.toNat_lt h.1).mpr h.2

def monitorWait (m : Monitor) (condIdx : ℤ) : Act Monitor Cond :=
  if h : 0 ≤ condIdx ∧ condIdx < 8 then
    .wait (m, ⟨condIdx.toNat, toNat_condIdx_lt h⟩) m
  else .skip

def monitorNotify (m : Monitor) (condIdx : ℤ) : Act Monitor Cond :=
  if h : 0 ≤ condIdx ∧ condIdx < 8 then
    .signal (m, ⟨condIdx.toNat, toNat_condIdx_lt h⟩)
  else .skip

def bufferSize : ℕ := 5

def condNotEmpty : ℤ := 0

def condNotFull : ℤ := 1

/-! ## Locations and data -/

inductive ProducerLoc
  | sleep
  | enter
  | test
  | printFull
  | wait
  | store
  | moveTail
  | increment
  | print
  | notify
  | exit
  deriving DecidableEq

inductive ConsumerLoc
  | sleep
  | enter
  | test
  | printEmpty
  | wait
  | read
  | moveHead
  | decrement
  | print
  | notify
  | exit
  deriving DecidableEq

inductive GetcharLoc
  | enter
  | test
  | wait
  | read
  | moveHead
  | decrement
  | exit
  deriving DecidableEq

/-- The statements of `keyboard_callback` from `monitor_enter` on. -/
inductive CallbackLoc
  | enter
  | test
  | store
  | moveTail
  | increment
  | notify
  | exit
  | putchar
  | iret
  deriving DecidableEq

/-- The locations, with the local variables `item` and `c`. -/
inductive Loc
  | idle
  | producer (p : ProducerLoc) (item : BitVec 32)
  | consumer (p : ConsumerLoc) (item : BitVec 32)
  | shell (c : BitVec 8)
  | getchar (p : GetcharLoc) (c : BitVec 8)
  | callback (p : CallbackLoc) (c : BitVec 8)
  deriving DecidableEq

/-- The variables of `keyboard.c` and of `main.c`.  The last two fields are a
record that no statement reads: the items that were stored in the buffer and
those that were taken from it. -/
structure Data where
  kbd : Keyboard.Vars
  buffer : ℤ → BitVec 32
  count : ℤ
  head : ℤ
  tail : ℤ
  produced : List (BitVec 32)
  consumed : List (BitVec 32)

/-! ## The code -/

def producer (item : BitVec 32) (d : Data) :
    ProducerLoc → Act Monitor Cond × Loc × Data
  | .sleep => (.sleep 300, .producer .enter item, d)
  | .enter => (monitorEnter .buffer, .producer .test item, d)
  | .test =>
      if d.count = bufferSize then (.skip, .producer .printFull item, d)
      else (.skip, .producer .store item, d)
  | .printFull => (.skip, .producer .wait item, d)
  | .wait => (monitorWait .buffer condNotFull, .producer .test item, d)
  | .store =>
      (.skip, .producer .moveTail (item + 1), { d with
        buffer := Function.update d.buffer d.tail item
        produced := d.produced ++ [item] })
  | .moveTail =>
      (.skip, .producer .increment item,
        { d with tail := (d.tail + 1).tmod bufferSize })
  | .increment =>
      (.skip, .producer .print item, { d with count := d.count + 1 })
  | .print => (.skip, .producer .notify item, d)
  | .notify => (monitorNotify .buffer condNotEmpty, .producer .exit item, d)
  | .exit => (monitorExit .buffer, .producer .sleep item, d)

def consumer (item : BitVec 32) (d : Data) :
    ConsumerLoc → Act Monitor Cond × Loc × Data
  | .sleep => (.sleep 800, .consumer .enter item, d)
  | .enter => (monitorEnter .buffer, .consumer .test item, d)
  | .test =>
      if d.count = 0 then (.skip, .consumer .printEmpty item, d)
      else (.skip, .consumer .read item, d)
  | .printEmpty => (.skip, .consumer .wait item, d)
  | .wait => (monitorWait .buffer condNotEmpty, .consumer .test item, d)
  | .read =>
      (.skip, .consumer .moveHead (d.buffer d.head),
        { d with consumed := d.consumed ++ [d.buffer d.head] })
  | .moveHead =>
      (.skip, .consumer .decrement item,
        { d with head := (d.head + 1).tmod bufferSize })
  | .decrement =>
      (.skip, .consumer .print item, { d with count := d.count - 1 })
  | .print => (.skip, .consumer .notify item, d)
  | .notify => (monitorNotify .buffer condNotFull, .consumer .exit item, d)
  | .exit => (monitorExit .buffer, .consumer .sleep item, d)

def getchar (c : BitVec 8) (d : Data) :
    GetcharLoc → Act Monitor Cond × Loc × Data
  | .enter => (monitorEnter .kbd, .getchar .test c, d)
  | .test =>
      if d.kbd.count = 0 then (.skip, .getchar .wait c, d)
      else (.skip, .getchar .read c, d)
  | .wait => (monitorWait .kbd 0, .getchar .test c, d)
  | .read => (.skip, .getchar .moveHead (d.kbd.buffer d.kbd.head), d)
  | .moveHead =>
      (.skip, .getchar .decrement c, { d with kbd := { d.kbd with
        head := (d.kbd.head + 1).tmod Keyboard.bufferSize } })
  | .decrement =>
      (.skip, .getchar .exit c,
        { d with kbd := { d.kbd with count := d.kbd.count - 1 } })
  | .exit => (monitorExit .kbd, .shell c, d)

/-- `keyboard_callback` when it has found the character `c`. -/
def callback (c : BitVec 8) (d : Data) :
    CallbackLoc → Act Monitor Cond × Loc × Data
  | .enter => (monitorEnter .kbd, .callback .test c, d)
  | .test =>
      if d.kbd.count < Keyboard.bufferSize then
        (.skip, .callback .store c, d)
      else (.skip, .callback .exit c, d)
  | .store =>
      (.skip, .callback .moveTail c, { d with kbd := { d.kbd with
        buffer := Function.update d.kbd.buffer d.kbd.tail c } })
  | .moveTail =>
      (.skip, .callback .increment c, { d with kbd := { d.kbd with
        tail := (d.kbd.tail + 1).tmod Keyboard.bufferSize } })
  | .increment =>
      (.skip, .callback .notify c,
        { d with kbd := { d.kbd with count := d.kbd.count + 1 } })
  | .notify => (monitorNotify .kbd 0, .callback .exit c, d)
  | .exit => (monitorExit .kbd, .callback .putchar c, d)
  | .putchar => (.skip, .callback .iret c, d)
  | .iret => (.iret, .callback .iret c, d)

/-- The code of the tasks.  An interrupt is the arrival of a scancode, and a
scancode without a character is handled at once. -/
def code : Code Monitor Cond Loc Data (BitVec 8) where
  next l d :=
    match l with
    | .idle => some (.skip, .idle, d)
    | .producer p item => some (producer item d p)
    | .consumer p item => some (consumer item d p)
    | .shell c => some (.skip, .getchar .enter c, d)
    | .getchar p c => some (getchar c d p)
    | .callback p c => some (callback c d p)
  irq scancode d :=
    let (kbd, c) := Keyboard.decode scancode d.kbd
    ({ d with kbd := kbd }, c.map (.callback .enter))

/-! ## Booting -/

/-- The addresses that `kmalloc` returns for the tasks and for the stacks of
the last three. -/
structure Addresses where
  idle : ℕ
  producer : ℕ
  consumer : ℕ
  shell : ℕ
  producerStack : ℕ
  consumerStack : ℕ
  shellStack : ℕ
  nodup : [idle, producer, consumer, shell].Nodup

/-- The calls of `task_init` and of `task_create` in `kmain`. -/
def createTasks (fuel : ℕ) (a : Addresses) (T : Tasks) : Option Tasks :=
  match taskCreate fuel a.producer a.producerStack (taskInit a.idle T) with
  | none => none
  | some T =>
      match taskCreate fuel a.consumer a.consumerStack T with
      | none => none
      | some T => taskCreate fuel a.shell a.shellStack T

/-- The activation of a task that has not run yet, with interrupts enabled. -/
def start (l : Loc) : Frame Monitor Cond Loc where
  pc := .user l
  irqOn := true
  holds := []

/-- The activations of the tasks. -/
def Addresses.stack (a : Addresses) (t : ℕ) : List (Frame Monitor Cond Loc) :=
  if t = a.idle then [start .idle]
  else if t = a.producer then [start (.producer .sleep 100)]
  else if t = a.consumer then [start (.consumer .sleep 0)]
  else if t = a.shell then [start (.shell 0)]
  else []

/-- The variables before the first task runs. -/
def initialData (kbdBuffer : ℤ → BitVec 8) (buffer : ℤ → BitVec 32) : Data where
  kbd := Keyboard.initialVars kbdBuffer
  buffer := buffer
  count := 0
  head := 0
  tail := 0
  produced := []
  consumed := []

/-- The machine when `kmain` enables interrupts and idles.  `T` is what the
memory of the tasks held before. -/
def boot (fuel : ℕ) (a : Addresses) (T : Tasks) (kbdBuffer : ℤ → BitVec 8)
    (buffer : ℤ → BitVec 32) : Option (Config Monitor Cond Loc Data) :=
  match createTasks fuel a T with
  | none => none
  | some T =>
      some
        { k :=
            { tasks := T
              mutex := fun _ => { locked := 0, owner := none, waiters := none }
              cond := fun _ => none
              tick := 0 }
          stack := a.stack
          data := initialData kbdBuffer buffer
          woken := fun _ => none
          since := fun _ => 0
          clock := 0 }

end BabOs.Main
