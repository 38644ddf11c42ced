import BabOs.Main.Model
import BabOs.Sched.Schedule
import BabOs.Sync.SelfWait

/-!
# The code of the booted system

What the machine looks like when the first task runs, and between which of its
statements the code holds a monitor.
-/

namespace BabOs.Main

open BabOs.Sched BabOs.Sync BabOs.Chain

/-! ## The tasks -/

/-- The tasks of the system, in the order of the task list. -/
def Addresses.tasks (a : Addresses) : List ℕ :=
  [a.idle, a.producer, a.consumer, a.shell]

/-- The machine when the first task runs. -/
structure Booted (a : Addresses) (kbdBuffer : ℤ → BitVec 8)
    (buffer : ℤ → BitVec 32) (c : Config Monitor Cond Loc Data) : Prop where
  list : IsChain c.k.tasks.next c.k.tasks.readyQueue a.tasks
  running : c.k.tasks.runningTask = some a.idle
  state : ∀ t ∈ a.tasks,
    c.k.tasks.state t = if t = a.idle then .running else .ready
  mutex : ∀ m, c.k.mutex m = { locked := 0, owner := none, waiters := none }
  cond : ∀ v, c.k.cond v = none
  stack : c.stack = a.stack
  data : c.data = initialData kbdBuffer buffer
  woken : ∀ t, c.woken t = none

section Booting

variable {a : Addresses} {fuel : ℕ} {T T' : Tasks}

theorem taskInit_chain (t : ℕ) (T : Tasks) :
    IsChain (taskInit t T).next (taskInit t T).readyQueue [t] := by
  refine ⟨rfl, ?_⟩
  simp [taskInit, Tasks.next, Tasks.setTask]

/-- The task list after the calls, and the states of the tasks. -/
theorem createTasks_eq_some (h : createTasks fuel a T = some T') :
    IsChain T'.next T'.readyQueue a.tasks ∧ T'.runningTask = some a.idle ∧
      ∀ t ∈ a.tasks, T'.state t = if t = a.idle then .running else .ready := by
  have hnodup := a.nodup
  simp only [List.nodup_cons, List.mem_cons, List.not_mem_nil, or_false,
    not_or] at hnodup
  obtain ⟨⟨hip, hic, his⟩, ⟨hpc, hps⟩, hcs, -⟩ := hnodup
  rw [createTasks] at h
  split at h
  · cases h
  next T₁ h₁ =>
    split at h
    · cases h
    next T₂ h₂ =>
      have hfirst := taskCreate_creates (taskInit_chain a.idle T)
        (by simpa using Ne.symm hip) h₁
      have hsecond := taskCreate_creates hfirst.chain
        (by simp [Ne.symm hic, Ne.symm hpc]) h₂
      have hthird := taskCreate_creates hsecond.chain
        (by simp [Ne.symm his, Ne.symm hps, Ne.symm hcs]) h
      refine ⟨hthird.chain, ?_, ?_⟩
      · rw [hthird.runningTask, hsecond.runningTask, hfirst.runningTask]
        rfl
      · intro t ht
        simp only [Addresses.tasks, List.mem_cons, List.not_mem_nil,
          or_false] at ht
        rcases ht with rfl | rfl | rfl | rfl
        · rw [if_pos rfl, hthird.state_of_ne _ his, hsecond.state_of_ne _ hic,
            hfirst.state_of_ne _ hip]
          simp [taskInit, Tasks.state, Tasks.setTask]
        · rw [if_neg (Ne.symm hip), hthird.state_of_ne _ hps,
            hsecond.state_of_ne _ hpc, hfirst.state_self]
        · rw [if_neg (Ne.symm hic), hthird.state_of_ne _ hcs,
            hsecond.state_self]
        · rw [if_neg (Ne.symm his), hthird.state_self]

theorem boot_booted {kbdBuffer : ℤ → BitVec 8} {buffer : ℤ → BitVec 32}
    {c : Config Monitor Cond Loc Data}
    (h : boot fuel a T kbdBuffer buffer = some c) :
    Booted a kbdBuffer buffer c := by
  rw [boot] at h
  split at h
  · cases h
  next T' hT' =>
    cases h
    obtain ⟨hlist, hrunning, hstate⟩ := createTasks_eq_some hT'
    exact ⟨hlist, hrunning, hstate, fun _ => rfl, fun _ => rfl, rfl, rfl,
      fun _ => rfl⟩

end Booting

/-! ## The monitors -/

/-- The monitor that the code has entered at a location. -/
def Loc.inside : Loc → Option Monitor
  | .producer .sleep _ | .producer .enter _ => none
  | .producer _ _ => some .buffer
  | .consumer .sleep _ | .consumer .enter _ => none
  | .consumer _ _ => some .buffer
  | .getchar .enter _ => none
  | .getchar _ _ => some .kbd
  | .callback .enter _ | .callback .putchar _ | .callback .iret _ => none
  | .callback _ _ => some .kbd
  | .idle | .shell _ => none

section Start

variable {a : Addresses}

/-- A task that has not run yet stands at a location outside the monitors. -/
theorem Booted.stack_eq {kbdBuffer : ℤ → BitVec 8} {buffer : ℤ → BitVec 32}
    {c : Config Monitor Cond Loc Data} (h : Booted a kbdBuffer buffer c)
    (t : ℕ) :
    c.stack t = [] ∨ ∃ l, c.stack t = [start l] ∧ l.inside = none := by
  rw [h.stack, Addresses.stack]
  split_ifs
  · exact Or.inr ⟨_, rfl, rfl⟩
  · exact Or.inr ⟨_, rfl, rfl⟩
  · exact Or.inr ⟨_, rfl, rfl⟩
  · exact Or.inr ⟨_, rfl, rfl⟩
  · exact Or.inl rfl

theorem Booted.called {kbdBuffer : ℤ → BitVec 8} {buffer : ℤ → BitVec 32}
    {c : Config Monitor Cond Loc Data} (h : Booted a kbdBuffer buffer c) :
    ∀ t, ∀ f ∈ c.stack t, Called code.program f.pc := by
  intro t f hf
  rcases h.stack_eq t with hnil | ⟨l, hstart, -⟩
  · rw [hnil] at hf
    cases hf
  · rw [hstart, List.mem_singleton] at hf
    subst hf
    trivial

end Start

/-- What a call changes in the monitor that the code has entered. -/
def Changes (before after : Option Monitor) : Act Monitor Cond → Prop
  | .lock m => before = none ∧ after = some m
  | .unlock m => before = some m ∧ after = none
  | .wait v m => before = some m ∧ after = some m ∧ v.1 = m
  | .signal v => before = some v.1 ∧ after = some v.1
  | .skip => after = before
  | .broadcast _ => False
  | .sleep _ | .iret => before = none ∧ after = none

section Code

variable {l l' : Loc} {d d' : Data} {act : Act Monitor Cond}

theorem changes_producer (item : BitVec 32) (d : Data) (p : ProducerLoc) :
    Changes (Loc.producer p item).inside (producer item d p).2.1.inside
      (producer item d p).1 := by
  cases p with
  | test =>
      rw [producer]
      split_ifs <;> rfl
  | sleep | enter | exit | notify => exact ⟨rfl, rfl⟩
  | wait => exact ⟨rfl, rfl, rfl⟩
  | printFull | store | moveTail | increment | print => rfl

theorem changes_consumer (item : BitVec 32) (d : Data) (p : ConsumerLoc) :
    Changes (Loc.consumer p item).inside (consumer item d p).2.1.inside
      (consumer item d p).1 := by
  cases p with
  | test =>
      rw [consumer]
      split_ifs <;> rfl
  | sleep | enter | exit | notify => exact ⟨rfl, rfl⟩
  | wait => exact ⟨rfl, rfl, rfl⟩
  | printEmpty | read | moveHead | decrement | print => rfl

theorem changes_getchar (c : BitVec 8) (d : Data) (p : GetcharLoc) :
    Changes (Loc.getchar p c).inside (getchar c d p).2.1.inside
      (getchar c d p).1 := by
  cases p with
  | test =>
      rw [getchar]
      split_ifs <;> rfl
  | enter | exit => exact ⟨rfl, rfl⟩
  | wait => exact ⟨rfl, rfl, rfl⟩
  | read | moveHead | decrement => rfl

theorem changes_callback (c : BitVec 8) (d : Data) (p : CallbackLoc) :
    Changes (Loc.callback p c).inside (callback c d p).2.1.inside
      (callback c d p).1 := by
  cases p with
  | test =>
      rw [callback]
      split_ifs <;> rfl
  | enter | exit | notify | iret => exact ⟨rfl, rfl⟩
  | store | moveTail | increment | putchar => rfl

/-- What each function does at its statements, the code does in a move. -/
theorem move_rule {p : Loc → Act Monitor Cond × Loc × Data → Prop}
    (h : code.program.move l d act l' d')
    (hidle : p .idle (.skip, .idle, d))
    (hproducer : ∀ q item, p (.producer q item) (producer item d q))
    (hconsumer : ∀ q item, p (.consumer q item) (consumer item d q))
    (hshell : ∀ c, p (.shell c) (.skip, .getchar .enter c, d))
    (hgetchar : ∀ q c, p (.getchar q c) (getchar c d q))
    (hcallback : ∀ q c, p (.callback q c) (callback c d q)) :
    p l (act, l', d') := by
  change code.next l d = some (act, l', d') at h
  cases l with
  | idle => exact Option.some.inj h ▸ hidle
  | producer q item => exact Option.some.inj h ▸ hproducer q item
  | consumer q item => exact Option.some.inj h ▸ hconsumer q item
  | shell c => exact Option.some.inj h ▸ hshell c
  | getchar q c => exact Option.some.inj h ▸ hgetchar q c
  | callback q c => exact Option.some.inj h ▸ hcallback q c

/-- The code enters a monitor when it is in none, and calls what the monitor
offers when it has entered it. -/
theorem changes_of_move (h : code.program.move l d act l' d') :
    Changes l.inside l'.inside act :=
  move_rule (p := fun l x => Changes l.inside x.2.1.inside x.1) h rfl
    (fun q item => changes_producer item d q)
    (fun q item => changes_consumer item d q) (fun _ => rfl)
    (fun q c => changes_getchar c d q) fun q c => changes_callback c d q

/-- The statements between `monitor_enter` and `monitor_exit`. -/
theorem guards (m : Monitor) :
    Guards code.program m fun l => l.inside = some m where
  locks hmove := by
    obtain ⟨hbefore, hafter⟩ := changes_of_move hmove
    exact ⟨hbefore.trans_ne (Option.some_ne_none m).symm, hafter⟩
  unlocks hmove := by
    obtain ⟨hbefore, hafter⟩ := changes_of_move hmove
    exact ⟨hbefore, hafter.trans_ne (Option.some_ne_none m).symm⟩
  waits hmove := by
    obtain ⟨hbefore, hafter, -⟩ := changes_of_move hmove
    exact ⟨hbefore, hafter⟩
  plain := by
    intro l d act l' d' hmove hact
    have hchanges := changes_of_move hmove
    cases act with
    | skip => rw [show l'.inside = l.inside from hchanges]
    | signal v => rw [hchanges.1, hchanges.2]
    | broadcast v => exact absurd hchanges id
    | lock | unlock | wait | sleep | iret => exact absurd hact id
  others := by
    intro l d act l' d' hmove hact huses
    have hchanges := changes_of_move hmove
    cases act with
    | skip | signal | broadcast => exact absurd trivial hact
    | lock m' => simp [hchanges.1, hchanges.2, show m' ≠ m from huses]
    | unlock m' => simp [hchanges.1, hchanges.2, show m' ≠ m from huses]
    | wait v m' => simp [hchanges.1, hchanges.2.1, show m' ≠ m from huses]
    | sleep ms => simp [hchanges.1, hchanges.2]
    | iret => simp [hchanges.1, hchanges.2]
  handlers := by
    rintro d d' h ⟨scancode, hirq⟩
    obtain ⟨c, -, rfl⟩ := Option.map_eq_some_iff.mp (congrArg Prod.snd hirq)
    exact (Option.some_ne_none m).symm

theorem handlersLock : HandlersLock code.program .kbd := by
  rintro d d' h ⟨scancode, hirq⟩ d₁ act l' d₂ hmove
  obtain ⟨c, -, rfl⟩ := Option.map_eq_some_iff.mp (congrArg Prod.snd hirq)
  cases hmove
  rfl

end Code

/-! ## A machine -/

/-- Addresses for the tasks and their stacks. -/
def someAddresses : Addresses where
  idle := 1
  producer := 2
  consumer := 3
  shell := 4
  producerStack := 4096
  consumerStack := 8192
  shellStack := 12288
  nodup := by decide

/-- Memory that is zero. -/
def zeroTasks : Tasks where
  task _ :=
    { esp := 0
      kstack := 0
      state := .running
      sleepTicks := 0
      next := none
      waitNext := none }
  runningTask := none
  readyQueue := none

/-- The machine boots. -/
theorem exists_boot : ∃ c₀, boot 4 someAddresses zeroTasks (fun _ => 0)
    (fun _ => 0) = some c₀ :=
  Option.isSome_iff_exists.mp (by decide +kernel)

end BabOs.Main
