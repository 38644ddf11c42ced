import BabOs.Sched.Schedule
import BabOs.Sync.Model

/-!
# The wait queues as lists

Every queue is threaded through the one `wait_next` field of the tasks.  This
module relates the fields to a list of tasks for each queue: putting a task on
a queue appends it to the list, and waking takes the first task off.
-/

namespace BabOs.Sync

open BabOs.Sched BabOs.Chain

variable {M C : Type*}

/-! ## Fields after an update -/

namespace Kernel

variable {k k' k'' : Kernel M C} {q q' : Queue M C} {h n : Option ℕ} {t : ℕ}
  {st : TaskState}

@[simp] theorem head_setState : (k.setState t st).head q = k.head q := by
  cases q <;> rfl

@[simp] theorem head_setWaitNext : (k.setWaitNext t n).head q = k.head q := by
  cases q <;> rfl

@[simp] theorem state_setState :
    (k.setState t st).tasks.state = Function.update k.tasks.state t st := by
  funext x
  by_cases hx : x = t
  · subst hx
    simp [setState]
  · simp [setState, Tasks.state_setState_of_ne hx, hx]

@[simp] theorem waitNext_setState :
    (k.setState t st).tasks.waitNext = k.tasks.waitNext :=
  Tasks.waitNext_setState

@[simp] theorem state_setWaitNext :
    (k.setWaitNext t n).tasks.state = k.tasks.state := by
  funext x
  by_cases hx : x = t <;>
    simp [Tasks.state, setWaitNext, setTask, Tasks.setTask, hx]

@[simp] theorem waitNext_setWaitNext :
    (k.setWaitNext t n).tasks.waitNext =
      Function.update k.tasks.waitNext t n := by
  funext x
  by_cases hx : x = t <;>
    simp [Tasks.waitNext, setWaitNext, setTask, Tasks.setTask, hx]

/-- The task list and the running task are the same in both kernels. -/
structure SameList (k k' : Kernel M C) : Prop where
  runningTask : k'.tasks.runningTask = k.tasks.runningTask
  readyQueue : k'.tasks.readyQueue = k.tasks.readyQueue
  next : k'.tasks.next = k.tasks.next

theorem SameList.refl (k : Kernel M C) : SameList k k :=
  ⟨rfl, rfl, rfl⟩

theorem SameList.trans (h : SameList k k') (h' : SameList k' k'') :
    SameList k k'' :=
  ⟨h'.runningTask.trans h.runningTask, h'.readyQueue.trans h.readyQueue,
    h'.next.trans h.next⟩

theorem sameList_setTask {x : Task} (hx : x.next = (k.tasks.task t).next) :
    SameList k (k.setTask t x) := by
  refine ⟨rfl, rfl, ?_⟩
  funext y
  by_cases hy : y = t
  · subst hy
    simp [Tasks.next, setTask, Tasks.setTask, hx]
  · simp [Tasks.next, setTask, Tasks.setTask, hy]

theorem sameList_setState : SameList k (k.setState t st) :=
  sameList_setTask rfl

theorem sameList_setWaitNext : SameList k (k.setWaitNext t n) :=
  sameList_setTask rfl

theorem sameList_setSleepTicks {ticks : ℕ} :
    SameList k (setSleepTicks t ticks k) :=
  sameList_setTask rfl

@[simp] theorem head_setSleepTicks {ticks : ℕ} :
    (setSleepTicks t ticks k).head q = k.head q := by
  cases q <;> rfl

@[simp] theorem state_setSleepTicks {ticks : ℕ} :
    (setSleepTicks t ticks k).tasks.state = k.tasks.state := by
  funext x
  by_cases hx : x = t <;>
    simp [Tasks.state, setSleepTicks, setTask, Tasks.setTask, hx]

@[simp] theorem waitNext_setSleepTicks {ticks : ℕ} :
    (setSleepTicks t ticks k).tasks.waitNext = k.tasks.waitNext := by
  funext x
  by_cases hx : x = t <;>
    simp [Tasks.waitNext, setSleepTicks, setTask, Tasks.setTask, hx]

variable [DecidableEq M]

theorem head_setMutex {m : M} {x : Mutex}
    (hx : x.waiters = (k.mutex m).waiters) :
    (k.setMutex m x).head q = k.head q := by
  cases q with
  | mutex m' =>
      by_cases hm : m' = m
      · subst hm
        simp [head, setMutex, hx]
      · simp [head, setMutex, hm]
  | cond v => rfl

variable [DecidableEq C]

@[simp] theorem tasks_setHead : (k.setHead q h).tasks = k.tasks := by
  cases q <;> rfl

@[simp] theorem head_setHead_self : (k.setHead q h).head q = h := by
  cases q <;> simp [head, setHead, setMutex]

theorem head_setHead_of_ne (hne : q' ≠ q) :
    (k.setHead q h).head q' = k.head q' := by
  cases q with
  | mutex m =>
      cases q' with
      | mutex m' =>
          have hm : m' ≠ m := fun heq => hne (heq ▸ rfl)
          simp [head, setHead, setMutex, hm]
      | cond v => rfl
  | cond v =>
      cases q' with
      | mutex m => rfl
      | cond v' =>
          have hv : v' ≠ v := fun heq => hne (heq ▸ rfl)
          simp [head, setHead, hv]

theorem sameList_setHead : SameList k (k.setHead q h) :=
  ⟨by rw [tasks_setHead], by rw [tasks_setHead], by rw [tasks_setHead]⟩

end Kernel

/-! ## Queues of tasks -/

section Lists

variable [DecidableEq M] [DecidableEq C] (q : Queue M C) (t : ℕ)
variable (Q : Queue M C → List ℕ)

def push : Queue M C → List ℕ := Function.update Q q (Q q ++ [t])

def pop : Queue M C → List ℕ := Function.update Q q (Q q).tail

variable {q t Q} {q' : Queue M C} {x : ℕ}

theorem mem_push : x ∈ push q t Q q' ↔ x ∈ Q q' ∨ q' = q ∧ x = t := by
  by_cases hq : q' = q
  · subst hq
    simp [push]
  · simp [push, hq]

theorem mem_of_mem_pop (h : x ∈ pop q Q q') : x ∈ Q q' := by
  by_cases hq : q' = q
  · subst hq
    rw [pop, Function.update_self] at h
    exact List.mem_of_mem_tail h
  · rwa [pop, Function.update_of_ne hq] at h

theorem pop_eq_self (h : Q q = []) : pop q Q = Q := by
  rw [pop, h, List.tail_nil, ← h, Function.update_eq_self]

theorem mem_pop_iff (hnodup : (Q q).Nodup) {w : ℕ} {rest : List ℕ}
    (hq : Q q = w :: rest) (hunique : ∀ q', w ∈ Q q' → q' = q) :
    x ∈ pop q Q q' ↔ x ∈ Q q' ∧ x ≠ w := by
  rw [hq, List.nodup_cons] at hnodup
  by_cases hq' : q' = q
  · subst hq'
    rw [pop, Function.update_self, hq, List.tail_cons]
    constructor
    · intro hx
      exact ⟨List.mem_cons_of_mem _ hx, ne_of_mem_of_not_mem hx hnodup.1⟩
    · rintro ⟨hx, hne⟩
      exact (List.mem_cons.mp hx).resolve_left hne
  · rw [pop, Function.update_of_ne hq', iff_self_and]
    rintro hx rfl
    exact hq' (hunique q' hx)

end Lists

/-- The queues of the kernel hold the tasks of `Q`, the longest waiting first:
the tasks of the list `tl` that are blocked, each of them on one queue. -/
structure Waiting (tl : List ℕ) (k : Kernel M C) (Q : Queue M C → List ℕ) :
    Prop where
  chain : ∀ q, IsChain k.tasks.waitNext (k.head q) (Q q)
  unique : ∀ {q q' t}, t ∈ Q q → t ∈ Q q' → q = q'
  blocked : ∀ t ∈ tl, k.tasks.state t = .blocked ↔ ∃ q, t ∈ Q q
  listed : ∀ {q t}, t ∈ Q q → t ∈ tl

section Operations

variable {tl : List ℕ} {k k' : Kernel M C} {Q : Queue M C → List ℕ}
  {q : Queue M C} {r t fuel : ℕ}

theorem Waiting.nodup (hw : Waiting tl k Q) (q : Queue M C) : (Q q).Nodup :=
  (hw.chain q).nodup

theorem Waiting.state_eq (hw : Waiting tl k Q) (ht : t ∈ Q q) :
    k.tasks.state t = .blocked :=
  (hw.blocked t (hw.listed ht)).mpr ⟨q, ht⟩

theorem Waiting.not_mem (hw : Waiting tl k Q)
    (ht : k.tasks.state t ≠ .blocked) (q : Queue M C) : t ∉ Q q :=
  fun hmem => ht (hw.state_eq hmem)

theorem Waiting.head_eq (hw : Waiting tl k Q) (q : Queue M C) :
    k.head q = (Q q).head? :=
  (hw.chain q).head_eq

theorem Waiting.eq_nil (hw : Waiting tl k Q) (h : k.head q = none) :
    Q q = [] := by
  have hchain := hw.chain q
  rwa [h, isChain_none_iff] at hchain

theorem Waiting.head_cons (hw : Waiting tl k Q) {rest : List ℕ}
    (hq : Q q = t :: rest) :
    k.head q = some t ∧
      IsChain k.tasks.waitNext (k.tasks.waitNext t) rest := by
  have hchain := hw.chain q
  rwa [hq, isChain_cons] at hchain

theorem Waiting.congr (hw : Waiting tl k Q)
    (hhead : ∀ q, k'.head q = k.head q)
    (hnext : k'.tasks.waitNext = k.tasks.waitNext)
    (hstate : ∀ t ∈ tl, k'.tasks.state t = .blocked ↔
      k.tasks.state t = .blocked) : Waiting tl k' Q := by
  refine ⟨fun q => ?_, hw.unique, fun t ht => ?_, hw.listed⟩
  · rw [hnext, hhead]
    exact hw.chain q
  · exact (hstate t ht).trans (hw.blocked t ht)

variable [DecidableEq M] [DecidableEq C]

/-! ### Putting a task on a queue -/

theorem enqueue_eq_some (h : enqueue fuel q r k = some k') :
    (k.head q = none ∧ k' =
      ((k.setState r .blocked).setWaitNext r none).setHead q (some r)) ∨
    ∃ first last, k.head q = some first ∧
      lastFrom (Function.update k.tasks.waitNext r none) fuel first =
        some last ∧
      k' = ((k.setState r .blocked).setWaitNext r none).setWaitNext last
        (some r) := by
  simp only [enqueue, Kernel.head_setWaitNext, Kernel.head_setState,
    Kernel.waitNext_setWaitNext, Kernel.waitNext_setState] at h
  split at h
  next hhead =>
    cases h
    exact Or.inl ⟨hhead, rfl⟩
  next first hhead =>
    split at h
    · cases h
    next last hlast =>
      cases h
      exact Or.inr ⟨first, last, hhead, hlast, rfl⟩

theorem sameList_enqueue (h : enqueue fuel q r k = some k') :
    Kernel.SameList k k' := by
  have hblock : Kernel.SameList k
      ((k.setState r .blocked).setWaitNext r none) :=
    Kernel.sameList_setState.trans Kernel.sameList_setWaitNext
  rcases enqueue_eq_some h with ⟨-, rfl⟩ | ⟨first, last, -, -, rfl⟩
  · exact hblock.trans Kernel.sameList_setHead
  · exact hblock.trans Kernel.sameList_setWaitNext

theorem state_enqueue (h : enqueue fuel q r k = some k') :
    k'.tasks.state = Function.update k.tasks.state r .blocked := by
  rcases enqueue_eq_some h with ⟨-, rfl⟩ | ⟨first, last, -, -, rfl⟩ <;> simp

theorem Waiting.chain_enqueue (hw : Waiting tl k Q)
    (hrun : k.tasks.state r ≠ .blocked) (h : enqueue fuel q r k = some k')
    (q' : Queue M C) :
    IsChain k'.tasks.waitNext (k'.head q') (push q r Q q') := by
  have hr : ∀ q', r ∉ Q q' := hw.not_mem hrun
  have hclear : ∀ q', IsChain (Function.update k.tasks.waitNext r none)
      (k.head q') (Q q') := fun q' => (hw.chain q').congr fun x hx =>
    Function.update_of_ne (ne_of_mem_of_not_mem hx (hr q')) _ _
  rcases enqueue_eq_some h with ⟨hhead, rfl⟩ | ⟨first, last, hhead, hlast, rfl⟩
  · simp only [Kernel.tasks_setHead, Kernel.waitNext_setWaitNext,
      Kernel.waitNext_setState]
    by_cases hq : q' = q
    · subst hq
      have hnil : Q q' = [] := isChain_none_iff.mp (hhead ▸ hw.chain q')
      simp [push, hnil]
    · rw [Kernel.head_setHead_of_ne hq, Kernel.head_setWaitNext,
        Kernel.head_setState, push, Function.update_of_ne hq]
      exact hclear q'
  · simp only [Kernel.waitNext_setWaitNext, Kernel.waitNext_setState,
      Kernel.head_setWaitNext, Kernel.head_setState]
    obtain ⟨a, ha⟩ := (hhead ▸ hclear q).lastFrom_eq hlast
    by_cases hq : q' = q
    · subst hq
      rw [push, Function.update_self, ha]
      exact (ha ▸ hw.chain q').enqueue (ha ▸ hr q')
    · rw [push, Function.update_of_ne hq]
      refine (hclear q').congr fun x hx => Function.update_of_ne ?_ _ _
      rintro rfl
      exact hq (hw.unique hx (ha ▸ by simp : x ∈ Q q))

theorem Waiting.enqueue (hw : Waiting tl k Q) (hr : r ∈ tl)
    (hrun : k.tasks.state r ≠ .blocked) (h : enqueue fuel q r k = some k') :
    Waiting tl k' (push q r Q) := by
  have hnot : ∀ q', r ∉ Q q' := hw.not_mem hrun
  refine ⟨hw.chain_enqueue hrun h, ?_, fun t ht => ?_, ?_⟩
  · intro q₁ q₂ t h₁ h₂
    rcases mem_push.mp h₁ with hold₁ | ⟨rfl, rfl⟩
    · rcases mem_push.mp h₂ with hold₂ | ⟨-, rfl⟩
      · exact hw.unique hold₁ hold₂
      · exact absurd hold₁ (hnot q₁)
    · rcases mem_push.mp h₂ with hold₂ | ⟨rfl, -⟩
      · exact absurd hold₂ (hnot q₂)
      · rfl
  · rw [state_enqueue h]
    by_cases htr : t = r
    · subst htr
      simp only [Function.update_self, true_iff]
      exact ⟨q, mem_push.mpr (Or.inr ⟨rfl, rfl⟩)⟩
    · simp only [Function.update_of_ne htr, mem_push, htr, and_false, or_false]
      exact hw.blocked t ht
  · intro q' t ht
    rcases mem_push.mp ht with ht | ⟨-, rfl⟩
    · exact hw.listed ht
    · exact hr

/-! ### Waking the first task -/

theorem Waiting.wakeFirst_nil (hw : Waiting tl k Q) (hq : Q q = []) :
    Sync.wakeFirst q k = k := by
  have hhead := hw.chain q
  rw [hq, isChain_nil] at hhead
  rw [Sync.wakeFirst, hhead]

theorem Waiting.wakeFirst_cons (hw : Waiting tl k Q) {w : ℕ} {rest : List ℕ}
    (hq : Q q = w :: rest) :
    Sync.wakeFirst q k =
      (k.setHead q (k.tasks.waitNext w)).setState w .ready := by
  rw [Sync.wakeFirst, (hw.head_cons hq).1]

theorem sameList_wakeFirst : Kernel.SameList k (wakeFirst q k) := by
  rw [wakeFirst]
  split
  · exact Kernel.SameList.refl k
  · exact Kernel.sameList_setHead.trans Kernel.sameList_setState

theorem Waiting.state_wakeFirst (hw : Waiting tl k Q) {w : ℕ}
    {rest : List ℕ} (hq : Q q = w :: rest) :
    (Sync.wakeFirst q k).tasks.state =
      Function.update k.tasks.state w .ready := by
  rw [hw.wakeFirst_cons hq, Kernel.state_setState, Kernel.tasks_setHead]

theorem Waiting.state_wakeFirst_cases (hw : Waiting tl k Q) (t : ℕ) :
    (Sync.wakeFirst q k).tasks.state t = k.tasks.state t ∨
      (Sync.wakeFirst q k).tasks.state t = .ready := by
  cases hq : Q q with
  | nil => exact Or.inl (by rw [hw.wakeFirst_nil hq])
  | cons w rest =>
      rw [hw.state_wakeFirst hq]
      by_cases ht : t = w
      · subst ht
        exact Or.inr (Function.update_self _ _ _)
      · exact Or.inl (Function.update_of_ne ht _ _)

theorem Waiting.wakeFirst (hw : Waiting tl k Q) :
    Waiting tl (wakeFirst q k) (pop q Q) := by
  cases hq : Q q with
  | nil =>
      rw [hw.wakeFirst_nil hq, pop_eq_self hq]
      exact hw
  | cons w rest =>
      have hmem : ∀ {q' x}, x ∈ pop q Q q' ↔ x ∈ Q q' ∧ x ≠ w :=
        mem_pop_iff (hw.nodup q) hq
          fun q' hx => hw.unique hx (hq ▸ List.mem_cons_self)
      refine ⟨fun q' => ?_, fun h₁ h₂ => ?_, fun t ht => ?_, fun ht => ?_⟩
      · rw [hw.wakeFirst_cons hq, Kernel.waitNext_setState,
          Kernel.tasks_setHead, Kernel.head_setState]
        by_cases hq' : q' = q
        · subst hq'
          rw [Kernel.head_setHead_self, pop, Function.update_self, hq]
          exact (hw.head_cons hq).2
        · rw [Kernel.head_setHead_of_ne hq', pop, Function.update_of_ne hq']
          exact hw.chain q'
      · exact hw.unique (mem_of_mem_pop h₁) (mem_of_mem_pop h₂)
      · rw [hw.state_wakeFirst hq]
        by_cases htw : t = w
        · subst htw
          simp [hmem]
        · simp only [Function.update_of_ne htw, hmem, htw, ne_eq,
            not_false_eq_true, and_true]
          exact hw.blocked t ht
      · exact hw.listed (mem_of_mem_pop ht)

/-! ### Unlocking and broadcasting -/

theorem Waiting.mutexUnlock {m : M} (hw : Waiting tl k Q) :
    Waiting tl (mutexUnlock m k) (pop (.mutex m) Q) := by
  refine Waiting.wakeFirst (hw.congr ?_ rfl fun t ht => Iff.rfl)
  intro q
  exact Kernel.head_setMutex rfl

theorem sameList_mutexUnlock {m : M} :
    Kernel.SameList k (mutexUnlock m k) := by
  have hset : Kernel.SameList k
      (k.setMutex m { k.mutex m with locked := 0, owner := none }) :=
    ⟨rfl, rfl, rfl⟩
  exact hset.trans sameList_wakeFirst

theorem Waiting.state_mutexUnlock {m : M} (hw : Waiting tl k Q) :
    (Q (.mutex m) = [] ∧
      (Sync.mutexUnlock m k).tasks.state = k.tasks.state) ∨
    ∃ w rest, Q (.mutex m) = w :: rest ∧
      (Sync.mutexUnlock m k).tasks.state =
        Function.update k.tasks.state w .ready := by
  have hw' : Waiting tl
      (k.setMutex m { k.mutex m with locked := 0, owner := none }) Q :=
    hw.congr (fun q => Kernel.head_setMutex rfl) rfl fun t ht => Iff.rfl
  cases hq : Q (.mutex m) with
  | nil =>
      refine Or.inl ⟨rfl, ?_⟩
      rw [Sync.mutexUnlock, hw'.wakeFirst_nil hq]
      rfl
  | cons w rest =>
      refine Or.inr ⟨w, rest, rfl, ?_⟩
      rw [Sync.mutexUnlock, hw'.state_wakeFirst hq]
      rfl

theorem sameList_condBroadcast {v : C} (h : condBroadcast v fuel k = some k') :
    Kernel.SameList k k' := by
  induction fuel generalizing k with
  | zero => cases h
  | succ fuel ih =>
      rw [condBroadcast] at h
      split at h
      · cases h
        exact Kernel.SameList.refl _
      · exact sameList_wakeFirst.trans (ih h)

/-- A broadcast empties the queue and makes its tasks ready. -/
theorem Waiting.condBroadcast {v : C} (hw : Waiting tl k Q)
    (h : condBroadcast v fuel k = some k') :
    Waiting tl k' (Function.update Q (.cond v) []) ∧
      ∀ t, k'.tasks.state t =
        if t ∈ Q (.cond v) then .ready else k.tasks.state t := by
  induction fuel generalizing k Q with
  | zero => cases h
  | succ fuel ih =>
      rw [Sync.condBroadcast] at h
      split at h
      next hhead =>
        cases h
        have hnil : Q (.cond v) = [] := hw.eq_nil hhead
        refine ⟨?_, fun t => by simp [hnil]⟩
        rwa [← hnil, Function.update_eq_self]
      next first hhead =>
        obtain ⟨hwait, hstate⟩ := ih hw.wakeFirst h
        cases hq : Q (.cond v) with
        | nil =>
            have hchain := hw.chain (.cond v)
            rw [hq, isChain_nil, Kernel.head, hhead] at hchain
            cases hchain
        | cons w rest =>
            refine ⟨?_, fun t => ?_⟩
            · rwa [pop, Function.update_idem] at hwait
            · simp only [hstate t, hw.state_wakeFirst hq, pop,
                Function.update_self, hq, List.tail_cons, List.mem_cons]
              by_cases htw : t = w
              · subst htw
                simp
              · simp [htw]

theorem Waiting.exists_condBroadcast {v : C} (hw : Waiting tl k Q) :
    ∃ fuel k', Sync.condBroadcast v fuel k = some k' := by
  refine ⟨(Q (.cond v)).length + 1, ?_⟩
  generalize hl : Q (.cond v) = l
  induction l generalizing k Q with
  | nil =>
      have hhead := hw.chain (.cond v)
      rw [hl, isChain_nil] at hhead
      change k.cond v = none at hhead
      exact ⟨k, by simp only [Sync.condBroadcast, hhead]⟩
  | cons w rest ih =>
      have hhead : k.cond v = some w := (hw.head_cons hl).1
      obtain ⟨k', hk'⟩ := ih (hw.wakeFirst (q := .cond v))
        (by rw [pop, Function.update_self, hl, List.tail_cons])
      exact ⟨k', by
        simpa only [List.length_cons, Sync.condBroadcast, hhead] using hk'⟩

end Operations

end BabOs.Sync
