import BabOs.Irq.Frames
import BabOs.Sched.Schedule

/-!
# Context switches

The tasks run, are created and take the timer interrupt in any order.  Every
task that is not running has its frame on its stack, at the address in its
`esp` field, and the frame stands for the context in which the task was
interrupted last, or for the one in which it is to start.  So the stub resumes
a task in just that context.
-/

namespace BabOs.Irq

open Sched Chain Memory

/-! ## The steps of the machine -/

def savedEsp (T : Tasks) (t : ℕ) : UInt32 := UInt32.ofNat (T.task t).esp

/-- The frames of the tasks that are not running. -/
def savedAreas (T : Tasks) : Set ℕ :=
  {x | ∃ t, OnChain T.next T.readyQueue t ∧ T.runningTask ≠ some t ∧
    x ∈ wordsAt (savedEsp T t) 14}

/-- The running task leaves to `schedule` and `task_create` what they keep:
the task list, the running task and the saved stack pointers.  It may change
the states, the sleep ticks and the wait queues. -/
structure Works (T T' : Tasks) : Prop where
  runningTask : T'.runningTask = T.runningTask
  readyQueue : T'.readyQueue = T.readyQueue
  next : T'.next = T.next
  esp : ∀ t, (T'.task t).esp = (T.task t).esp

/-- `create` tells which task was created, with its entry point and its stack;
`irq0` tells which task was interrupted in which context, and which task went
on in which context. -/
inductive Event
  | work
  | create (t : ℕ) (entryPoint stackBase : UInt32)
  | irq0 (r : ℕ) (before : Context) (s : ℕ) (after : Context)

/-- What the running task may do.  Each step leaves the frames of the other
tasks alone: these are written only by the task they belong to. -/
inductive Step (pageFaultHandler keyboardCallback : Handler) :
    Machine → Event → Machine → Prop
  /-- The task goes on with its program. -/
  | work {c c' : Machine}
      (hmem : SameOn (savedAreas c.tasks) c.mem c'.mem)
      (htasks : Works c.tasks c'.tasks) :
      Step pageFaultHandler keyboardCallback c .work c'
  /-- It calls `task_create`, and `kmalloc` returns an address that no task
  has. -/
  | create {c c' : Machine} {fuel newTask : ℕ} {entryPoint stackBase : UInt32}
      (hfresh : ¬ OnChain c.tasks.next c.tasks.readyQueue newTask)
      (hcreate : taskCreate fuel newTask entryPoint stackBase c = some c')
      (hmem : SameOn (savedAreas c.tasks) c.mem c'.mem) :
      Step pageFaultHandler keyboardCallback c
        (.create newTask entryPoint stackBase) c'
  /-- It takes the timer interrupt, from the timer or by `int 0x20`.  On its
  stack the stub pushes the frame, the argument of `irq_handler` and the
  return address; below, the handlers may write what they like.  They leave
  some values in the registers, and the result in `eax`. -/
  | irq0 {c : Machine} {r s fuel : ℕ} {ret eax : UInt32} {k : Kernel}
      {mem : Memory} {regs : Registers} (entered left : Cpu)
      (hr : c.tasks.runningTask = some r)
      (hentered : entered = c.interrupt.irq0 ret)
      (hpush : SameOn (savedAreas c.tasks) c.mem entered.mem)
      (hhandler : irqHandler
        (interruptHandlers pageFaultHandler keyboardCallback fuel)
        entered.mem (entered.mem.word (entered.regs.esp + 4)) c.toKernel =
          some (eax, k))
      (hmem : SameOn
        (savedAreas c.tasks ∪
          wordsAt (entered.mem.word (entered.regs.esp + 4)) 14)
        entered.mem mem)
      (hs : k.tasks.runningTask = some s)
      (hleft : left =
        Cpu.irqCommonStubLeave ⟨{ regs with eax := eax }, mem⟩) :
      Step pageFaultHandler keyboardCallback c
        (.irq0 r c.regs.context s left.regs.context) ⟨left, k⟩

/-! ## Runs -/

/-- `task_init`, where `kmalloc` has returned `t`. -/
def boot (t : ℕ) (c : Machine) : Machine :=
  { c with tasks := taskInit t c.tasks }

/-- Runs with their events, the last one first. -/
inductive Run (pageFaultHandler keyboardCallback : Handler) (c₀ : Machine) :
    List Event → Machine → Prop
  | boot : Run pageFaultHandler keyboardCallback c₀ [] c₀
  | step {events : List Event} {e : Event} {c c' : Machine}
      (hrun : Run pageFaultHandler keyboardCallback c₀ events c)
      (hstep : Step pageFaultHandler keyboardCallback c e c') :
      Run pageFaultHandler keyboardCallback c₀ (e :: events) c'

/-- The context in which the task `t` was interrupted last, or in which it is
to start when it has been created since. -/
def lastContext (t : ℕ) : List Event → Option Context
  | [] => none
  | .work :: events => lastContext t events
  | .create newTask entryPoint stackBase :: events =>
      if t = newTask then some (startContext entryPoint stackBase)
      else lastContext t events
  | .irq0 r before _ _ :: events =>
      if t = r then some before else lastContext t events

/-- The task `t` has a frame at its saved stack pointer, which stands for its
last context. -/
def Saved (m : Memory) (T : Tasks) (events : List Event) (t : ℕ) : Prop :=
  ∃ f : Frame, m.HoldsWords (savedEsp T t) f.words ∧
    lastContext t events = some (f.context (savedEsp T t))

/-- The invariant of the runs, where `tl` is the task list. -/
structure Suspended (events : List Event) (c : Machine) (tl : List ℕ) :
    Prop where
  chain : IsChain c.tasks.next c.tasks.readyQueue tl
  running : ∃ r ∈ tl, c.tasks.runningTask = some r
  saved : ∀ t ∈ tl, c.tasks.runningTask ≠ some t →
    Saved c.mem c.tasks events t
  known : ∀ t, lastContext t events ≠ none → t ∈ tl

section Steps

variable {pageFaultHandler keyboardCallback : Handler} {c c' : Machine}
  {events : List Event} {e : Event} {tl : List ℕ}

/-- The frame of a task of the list that is not running is protected. -/
theorem wordsAt_subset_savedAreas {T : Tasks} {t : ℕ}
    (hchain : IsChain T.next T.readyQueue tl) (ht : t ∈ tl)
    (hne : T.runningTask ≠ some t) :
    wordsAt (savedEsp T t) 14 ⊆ savedAreas T :=
  fun _ hx => ⟨t, hchain.onChain_iff.mpr ht, hne, hx⟩

/-- A frame that is left alone stands for the same context. -/
theorem Saved.keep {m m' : Memory} {T T' : Tasks} {events' : List Event}
    {t : ℕ} {S : Set ℕ} (h : Saved m T events t) (hsame : SameOn S m m')
    (hS : wordsAt (savedEsp T t) 14 ⊆ S)
    (hesp : (T'.task t).esp = (T.task t).esp)
    (hlast : lastContext t events' = lastContext t events) :
    Saved m' T' events' t := by
  obtain ⟨f, hwords, hcontext⟩ := h
  have heq : savedEsp T' t = savedEsp T t := congrArg UInt32.ofNat hesp
  refine ⟨f, ?_, ?_⟩
  · rw [heq]
    exact hwords.sameOn hsame hS
  · rw [heq, hlast]
    exact hcontext

theorem suspended_boot (t : ℕ) (c : Machine) :
    Suspended [] (boot t c) [t] := by
  refine ⟨⟨rfl, ?_⟩, ⟨t, List.mem_singleton_self t, rfl⟩, ?_, ?_⟩
  · change (Tasks.next _ t) = none
    simp [boot, taskInit, Tasks.next, Tasks.setTask]
  · intro s hs hne
    obtain rfl := List.mem_singleton.mp hs
    exact absurd rfl hne
  · intro s hs
    exact absurd rfl hs

theorem Suspended.work (h : Suspended events c tl)
    (hmem : SameOn (savedAreas c.tasks) c.mem c'.mem)
    (htasks : Works c.tasks c'.tasks) :
    Suspended (.work :: events) c' tl := by
  refine ⟨?_, ?_, fun t ht hne => ?_, h.known⟩
  · rw [htasks.next, htasks.readyQueue]
    exact h.chain
  · rw [htasks.runningTask]
    exact h.running
  · rw [htasks.runningTask] at hne
    exact (h.saved t ht hne).keep hmem
      (wordsAt_subset_savedAreas h.chain ht hne) (htasks.esp t) rfl

/-- The stack pointer of a new task is the address of its frame. -/
theorem ofNat_newEsp (stackBase : UInt32) :
    UInt32.ofNat (stackBase.toNat + 4096 - frameSize) =
      stackBase + 4096 - 56 := by
  have hsub : stackBase.toNat + 4096 - frameSize = stackBase.toNat + 4040 :=
    rfl
  rw [hsub, UInt32.ofNat_add, UInt32.ofNat_toNat, UInt32.sub_eq_add_neg,
    UInt32.add_assoc]
  rfl

theorem Suspended.create {fuel newTask : ℕ} {entryPoint stackBase : UInt32}
    (h : Suspended events c tl) (hfresh : newTask ∉ tl)
    (hcreate : taskCreate fuel newTask entryPoint stackBase c = some c')
    (hmem : SameOn (savedAreas c.tasks) c.mem c'.mem) :
    Suspended (.create newTask entryPoint stackBase :: events) c'
      (tl ++ [newTask]) := by
  simp only [taskCreate] at hcreate
  split at hcreate
  · cases hcreate
  next tasks htasks =>
    cases hcreate
    have hnew := taskCreate_creates h.chain hfresh htasks
    refine ⟨hnew.chain, ?_, fun t ht hne => ?_, fun t ht => ?_⟩
    · obtain ⟨r, hr, hrun⟩ := h.running
      exact ⟨r, List.mem_append_left _ hr, hnew.runningTask.trans hrun⟩
    · rw [hnew.runningTask] at hne
      rcases List.mem_append.mp ht with ht | ht
      · have htne : t ≠ newTask := ne_of_mem_of_not_mem ht hfresh
        exact (h.saved t ht hne).keep hmem
          (wordsAt_subset_savedAreas h.chain ht hne)
          (hnew.esp_of_ne t htne) (if_neg htne)
      · obtain rfl := List.mem_singleton.mp ht
        obtain ⟨-, hwords⟩ := newStackWords_pushed c.mem entryPoint
          (stackBase + 4096)
        have hesp : savedEsp tasks t = stackBase + 4096 - 56 := by
          rw [savedEsp, hnew.esp_self, ofNat_newEsp]
        refine ⟨startFrame entryPoint, ?_, ?_⟩
        · rw [hesp]
          exact hwords
        · rw [hesp, startFrame_context]
          exact if_pos rfl
    · rw [lastContext] at ht
      split_ifs at ht with heq
      · simp [heq]
      · exact List.mem_append_left _ (h.known t ht)

/-- `irq_handler` finds the number 32 in the frame that the stub has pushed,
and calls the timer handler. -/
theorem irqHandler_irq0 (c : Cpu) (ret : UInt32) (k : Kernel) (fuel : ℕ) :
    irqHandler (interruptHandlers pageFaultHandler keyboardCallback fuel)
        (c.interrupt.irq0 ret).mem (c.regs.esp - 56) k =
      timerCallback fuel (c.regs.esp - 56) k := by
  obtain ⟨-, hframe⟩ := irq0_frame c ret
  simp only [Frame.words, holdsWords_cons] at hframe
  obtain ⟨-, -, -, -, -, -, -, -, -, hint, -⟩ := hframe
  have haddr : c.regs.esp - 56 + 36 =
      c.regs.esp - 56 + 4 + 4 + 4 + 4 + 4 + 4 + 4 + 4 + 4 := by
    simp only [UInt32.add_assoc]
    rfl
  rw [irqHandler, haddr, hint]
  rfl

/-- The timer handler saves the address of the frame in the interrupted task
and returns the saved stack pointer of the task that is to go on. -/
theorem timerCallback_savedEsp {fuel r : ℕ} {a eax : UInt32} {k k' : Kernel}
    (hr : k.tasks.runningTask = some r)
    (hchain : IsChain k.tasks.next k.tasks.readyQueue tl) (hmem : r ∈ tl)
    (h : timerCallback fuel a k = some (eax, k')) :
    IsChain k'.tasks.next k'.tasks.readyQueue tl ∧
      (∃ s ∈ tl, k'.tasks.runningTask = some s ∧
        eax = savedEsp k'.tasks s) ∧
      savedEsp k'.tasks r = a ∧
      ∀ t ≠ r, (k'.tasks.task t).esp = (k.tasks.task t).esp := by
  rw [timerCallback] at h
  split at h
  · cases h
  next esp tick T hT =>
    cases h
    obtain ⟨s, hdispatch, hpick⟩ := timerCallback_dispatches hr hT
    obtain ⟨s', hrun, heax, hesp⟩ := timerCallback_esp hr hT
    obtain rfl : s = s' :=
      Option.some.inj (hdispatch.runningTask.symm.trans hrun)
    refine ⟨?_, ⟨s, (hpick tl hchain hmem).1, hrun, ?_⟩, ?_, ?_⟩
    · rw [hdispatch.next, hdispatch.readyQueue]
      exact hchain
    · rw [heax, savedEsp]
    · rw [savedEsp, hesp, if_pos rfl, UInt32.ofNat_toNat]
    · intro t ht
      rw [hesp, if_neg ht]

theorem Suspended.irq0 {r fuel : ℕ} {ret eax : UInt32} {k : Kernel}
    {mem : Memory} {entered : Cpu}
    (h : Suspended events c tl) (hr : c.tasks.runningTask = some r)
    (hentered : entered = c.interrupt.irq0 ret)
    (hpush : SameOn (savedAreas c.tasks) c.mem entered.mem)
    (hhandler : timerCallback fuel (c.regs.esp - 56) c.toKernel =
      some (eax, k))
    (hmem : SameOn
      (savedAreas c.tasks ∪ wordsAt (c.regs.esp - 56) 14) entered.mem mem) :
    IsChain k.tasks.next k.tasks.readyQueue tl ∧
      ∃ s ∈ tl, k.tasks.runningTask = some s ∧ eax = savedEsp k.tasks s ∧
        ∀ s' after, ∀ t ∈ tl,
          Saved mem k.tasks (.irq0 r c.regs.context s' after :: events) t := by
  obtain ⟨r', hr', hrun⟩ := h.running
  obtain rfl : r' = r := Option.some.inj (hrun.symm.trans hr)
  obtain ⟨hchain, ⟨s, hs, hs', heax⟩, hself, hother⟩ :=
    timerCallback_savedEsp (k := c.toKernel) hr h.chain hr' hhandler
  refine ⟨hchain, s, hs, hs', heax, fun s' after t ht => ?_⟩
  by_cases htr : t = r'
  · subst htr
    obtain ⟨-, hframe⟩ := irq0_frame c.toCpu ret
    rw [← hentered] at hframe
    refine ⟨c.regs.frame, ?_, ?_⟩
    · rw [hself]
      exact hframe.sameOn hmem Set.subset_union_right
    · rw [hself, frame_context]
      exact if_pos rfl
  · have hne : c.tasks.runningTask ≠ some t := by
      rw [hr]
      exact fun heq => htr (Option.some.inj heq).symm
    have hsub := wordsAt_subset_savedAreas h.chain ht hne
    have hkept := hpush.trans (hmem.mono Set.subset_union_left)
    exact (h.saved t ht hne).keep hkept hsub (hother t htr) (if_neg htr)

/-- What an event says about the resumed task: it goes on in its last
context. -/
def Event.Resumes (events : List Event) : Event → Prop
  | .irq0 r before s after =>
      lastContext s (.irq0 r before s after :: events) = some after
  | _ => True

/-- A step keeps the invariant, and resumes a task in its last context. -/
theorem Step.suspended (hstep : Step pageFaultHandler keyboardCallback c e c')
    (h : Suspended events c tl) :
    e.Resumes events ∧ ∃ tl', Suspended (e :: events) c' tl' := by
  cases hstep with
  | work hmem htasks => exact ⟨trivial, tl, h.work hmem htasks⟩
  | create hfresh hcreate hmem =>
      rw [h.chain.onChain_iff] at hfresh
      exact ⟨trivial, _, h.create hfresh hcreate hmem⟩
  | @irq0 r s fuel ret eax k mem regs entered left hr hentered hpush
      hhandler hmem hs hleft =>
      subst hentered
      rw [(irq0_frame c.toCpu ret).1] at hhandler hmem
      rw [irqHandler_irq0] at hhandler
      obtain ⟨hchain, s', hs', hrun, heax, hsaved⟩ :=
        h.irq0 hr rfl hpush hhandler hmem
      obtain rfl : s' = s := Option.some.inj (hrun.symm.trans hs)
      obtain ⟨f, hwords, hlast⟩ :=
        hsaved s' left.regs.context s' hs'
      rw [← heax] at hwords hlast
      have hcontext : left.regs.context = f.context eax := by
        subst hleft
        exact irqCommonStubLeave_context hwords
      have hleftMem : left.mem = mem := by
        subst hleft
        rfl
      refine ⟨?_, tl, hchain, ⟨s', hs', hs⟩, fun t ht _ => ?_, fun t ht => ?_⟩
      · rw [Event.Resumes, hlast, hcontext]
      · change Saved left.mem _ _ _
        rw [hleftMem]
        exact hsaved s' _ t ht
      · rw [lastContext] at ht
        split_ifs at ht with heq
        · obtain ⟨r', hr', hrun'⟩ := h.running
          rw [heq, Option.some.inj (hr.symm.trans hrun')]
          exact hr'
        · exact h.known t ht

/-! ## Transparency -/

/-- The context switches of a run are transparent: each resumes the task that
is running from then on, in its last context, and a task that is not running
keeps its last context on its stack. -/
structure Transparent (events : List Event) (c : Machine) : Prop where
  resumes : ∀ e older, (e :: older) <:+ events → e.Resumes older
  keeps : ∀ t x, lastContext t events = some x →
    c.tasks.runningTask ≠ some t →
      OnChain c.tasks.next c.tasks.readyQueue t ∧
        ∃ f : Frame, c.mem.HoldsWords (savedEsp c.tasks t) f.words ∧
          f.context (savedEsp c.tasks t) = x

theorem Suspended.transparent (h : Suspended events c tl)
    (hresumes : ∀ e older, (e :: older) <:+ events → e.Resumes older) :
    Transparent events c := by
  refine ⟨hresumes, fun t x hx hne => ?_⟩
  have ht : t ∈ tl := by
    apply h.known
    rw [hx]
    exact Option.some_ne_none x
  obtain ⟨f, hwords, hlast⟩ := h.saved t ht hne
  rw [hx] at hlast
  exact ⟨h.chain.onChain_iff.mpr ht, f, hwords,
    (Option.some.inj hlast).symm⟩

theorem Run.suspended {c₀ : Machine}
    (hrun : Run pageFaultHandler keyboardCallback c₀ events c)
    (h₀ : Suspended [] c₀ tl) :
    (∀ e older, (e :: older) <:+ events → e.Resumes older) ∧
      ∃ tl', Suspended events c tl' := by
  induction hrun with
  | boot =>
      refine ⟨fun e older hsuffix => ?_, tl, h₀⟩
      exact absurd (List.suffix_nil.mp hsuffix) (List.cons_ne_nil e older)
  | step hrun hstep ih =>
      obtain ⟨hresumes, tl', hsuspended⟩ := ih
      obtain ⟨hlast, hsuspended'⟩ := hstep.suspended hsuspended
      refine ⟨fun e older hsuffix => ?_, hsuspended'⟩
      rcases List.suffix_cons_iff.mp hsuffix with heq | hsuffix
      · obtain ⟨rfl, rfl⟩ := List.cons.inj heq
        exact hlast
      · exact hresumes e older hsuffix

/-- Context switches are transparent in every run. -/
theorem run_transparent {t : ℕ} {c₀ : Machine}
    (hrun : Run pageFaultHandler keyboardCallback (boot t c₀) events c) :
    Transparent events c := by
  obtain ⟨hresumes, tl, hsuspended⟩ :=
    hrun.suspended (suspended_boot t c₀)
  exact hsuspended.transparent hresumes

end Steps

/-- A task on a stack below `0x9000`, with all other registers zero. -/
def idle : Machine where
  regs :=
    { eax := 0, ecx := 0, edx := 0, ebx := 0, esp := 0x9000, ebp := 0
      esi := 0, edi := 0, eip := 0, eflags := 0, cs := 0x08, ds := 0x10
      es := 0x10, fs := 0x10, gs := 0x10 }
  mem := ⟨fun _ => 0, []⟩
  tasks :=
    { task := fun _ => ⟨0, 0, .ready, 0, none, none⟩
      runningTask := none
      readyQueue := none }
  tick := 0

/-- The first switch to a new task starts it at its entry point. -/
theorem run_transparent_newTask :
    let noHandler : Handler := fun _ _ => none
    let events : List Event :=
      [.irq0 0 idle.regs.context 1 (startContext 0x1000 0x5000),
        .create 1 0x1000 0x5000]
    ∃ c, Run noHandler noHandler (boot 0 idle) events c ∧
      Transparent events c := by
  intro noHandler events
  have hboot := suspended_boot 0 idle
  let T₁ := (Sched.taskCreate 1 1 0x5000 (boot 0 idle).tasks).get rfl
  let mem₁ := (pushWords ((0x5000 : UInt32) + 4096, idle.mem)
    (newStackWords 0x1000)).2
  let c₁ : Machine := { boot 0 idle with mem := mem₁, tasks := T₁ }
  have hcreate : taskCreate 1 1 0x1000 0x5000 (boot 0 idle) = some c₁ := rfl
  have hfresh : ¬OnChain (boot 0 idle).tasks.next
      (boot 0 idle).tasks.readyQueue 1 := by
    rw [hboot.chain.onChain_iff]
    decide
  have hmem₁ : SameOn (savedAreas (boot 0 idle).tasks) (boot 0 idle).mem
      c₁.mem := by
    rintro x ⟨t, ht, hne, -⟩
    rw [hboot.chain.onChain_iff, List.mem_singleton] at ht
    subst ht
    exact absurd rfl hne
  have hstep₁ : Step noHandler noHandler (boot 0 idle)
      (.create 1 0x1000 0x5000) c₁ := .create hfresh hcreate hmem₁
  let T₂ := ((Sched.timerCallback 2 0x8FC8 0 T₁).get rfl).2.2
  have hhandler : timerCallback 2 ((0x9000 : UInt32) - 56) c₁.toKernel =
      some (0x5FC8, ⟨T₂, 1⟩) := rfl
  have hchain₁ : IsChain T₁.next T₁.readyQueue [0, 1] := ⟨rfl, rfl, rfl⟩
  have hareas : savedAreas T₁ ⊆ wordsAt 0x5FC8 14 := by
    rintro x ⟨t, ht, hne, hx⟩
    rw [hchain₁.onChain_iff] at ht
    rcases List.mem_pair.mp ht with rfl | rfl
    · exact absurd rfl hne
    · exact hx
  have hpush : SameOn (savedAreas T₁) c₁.mem (c₁.interrupt.irq0 0).mem := by
    apply irq0_sameOn
    have hesp : c₁.regs.esp = 0x9000 := rfl
    have hlowest : (0x9000 : UInt32) - 64 = 0x8FC0 := by decide
    rw [hesp, hlowest]
    refine Set.disjoint_left.mpr fun x hx hx' => ?_
    obtain ⟨i, hi, k, hk, rfl⟩ := mem_wordsAt_iff.mp (hareas hx)
    obtain ⟨j, hj, l, hl, heq⟩ := mem_wordsAt_iff.mp hx'
    have hlow : UInt32.toNat 0x5FC8 = 0x5FC8 := rfl
    have hhigh : UInt32.toNat 0x8FC0 = 0x8FC0 := rfl
    rw [hlow, hhigh] at heq
    omega
  have harg := (irq0_frame c₁.toCpu 0).1
  have hhandler' : irqHandler (interruptHandlers noHandler noHandler 2)
      (c₁.interrupt.irq0 0).mem ((c₁.interrupt.irq0 0).mem.word
        ((c₁.interrupt.irq0 0).regs.esp + 4)) c₁.toKernel =
          some (0x5FC8, ⟨T₂, 1⟩) := by
    rw [harg, irqHandler_irq0]
    exact hhandler
  have hstep₂ : Step noHandler noHandler c₁
      (.irq0 0 idle.regs.context 1 _) _ :=
    @Step.irq0 noHandler noHandler c₁ 0 1 2 0 0x5FC8 ⟨T₂, 1⟩ _ idle.regs _ _
      rfl rfl hpush hhandler' (SameOn.refl _ _) rfl rfl
  have hrun := (Run.boot.step hstep₁).step hstep₂
  have htransparent := run_transparent hrun
  have hstart := htransparent.resumes _ _ (List.suffix_refl _)
  change some (startContext 0x1000 0x5000) = some _ at hstart
  rw [← Option.some.inj hstart] at hrun htransparent
  exact ⟨_, hrun, htransparent⟩

end BabOs.Irq
