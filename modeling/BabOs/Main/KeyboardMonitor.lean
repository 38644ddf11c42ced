import BabOs.Main.ProducerConsumer
import BabOs.Sync.Alert

/-!
# The keyboard monitor

`keyboard_callback` enters the same monitor as `getchar`, and it runs as the
task that it interrupts.  A key that arrives while this task is in the monitor
makes the task wait for itself.
-/

namespace BabOs.Main

open BabOs.Sched BabOs.Sync BabOs.Chain

variable {a : Addresses} {c c' : Config Monitor Cond Loc Data}
variable {x : Label Monitor Cond Loc}

/-! ## Handlers that wait for the monitor -/

/-- What holds while the handlers of keys interrupt only tasks that can run and
that do not own the keyboard monitor. -/
structure Attended (a : Addresses) (c : Config Monitor Cond Loc Data) :
    Prop where
  guarded : Guarded code.program .kbd (fun l => l.inside = some .kbd) c
  alert : Alert .kbd a.tasks c
  staffed : Staffed a c.locs
  idle : c.k.tasks.state a.idle ≠ .sleeping
  owner : OwnerInside .buffer (fun l => l.inside = some .buffer) c
  sound : ∃ Q, Sound a.tasks c Q

section Attended

variable {m : Monitor} {t : ℕ}

/-- The task `idle` waits for nothing but the keyboard monitor, in a handler. -/
theorem Attended.idle_waitsOn (h : Attended a c)
    {f : Frame Monitor Cond Loc} (hf : f ∈ c.stack a.idle)
    {q : Queue Monitor Cond} (hq : f.pc.waitsOn = some q) : q = .mutex .kbd := by
  have hwaits := waitsOn_of_called (h.guarded.called _ f hf) hq
  by_cases hhandler : f.pc.loc.role = .handler
  · rw [hhandler] at hwaits
    cases q with
    | mutex m => exact congrArg Queue.mutex (Option.some.inj hwaits).symm
    | cond v => cases hwaits
  · have hrole := h.staffed.role_of_frame hf hhandler
    rw [Addresses.role, if_pos rfl] at hrole
    rw [← Option.some.inj hrole] at hwaits
    cases q <;> cases hwaits

/-- Some task can run: `idle`, or the owner of the keyboard monitor, or the task
that was woken for it. -/
theorem Attended.exists_runnable (h : Attended a c) :
    ∃ i ∈ a.tasks, c.k.tasks.Runnable i := by
  by_cases hrunnable : c.k.tasks.Runnable a.idle
  · exact ⟨a.idle, List.mem_cons_self, hrunnable⟩
  · obtain ⟨Q, hsound⟩ := h.sound
    have hblocked : c.k.tasks.state a.idle = .blocked := by
      cases hstate : c.k.tasks.state a.idle with
      | ready => exact absurd (Or.inl hstate) hrunnable
      | running => exact absurd (Or.inr hstate) hrunnable
      | blocked => rfl
      | sleeping => exact absurd hstate h.idle
    obtain ⟨q, hq⟩ :=
      (hsound.waiting.blocked a.idle List.mem_cons_self).mp hblocked
    obtain ⟨f, hf, hwaits⟩ := (hsound.stands q a.idle hq).exists_waitsOn
    obtain rfl := h.idle_waitsOn hf hwaits
    by_cases hfree : (c.k.mutex .kbd).locked = 0
    · obtain ⟨t, ht⟩ := hsound.awake .kbd hfree (List.ne_nil_of_mem hq)
      obtain ⟨hmem, hready, -⟩ := hsound.woken t .kbd ht
      exact ⟨t, hmem, hready⟩
    · obtain ⟨t, ht⟩ := h.alert.owned hfree
      exact ⟨t, h.alert.owner t ht⟩

theorem not_sleepYield_idle (hstaffed : Staffed a c.locs)
    (hcalled : ∀ t, ∀ f ∈ c.stack t, Called code.program f.pc)
    {f : Frame Monitor Cond Loc} (hf : f ∈ c.stack a.idle) {l : Loc} :
    f.pc ≠ .sleepYield l := by
  intro hpc
  have hcall := hcalled _ f hf
  rw [hpc] at hcall
  obtain ⟨l₀, d, d', ms, hmove⟩ := hcall
  have hcalls := calls_of_move hmove
  have hmonitor := hcalls.sleep ms rfl
  rw [← hcalls.role] at hmonitor
  have hloc : f.pc.loc = l := by
    rw [hpc]
    rfl
  by_cases hhandler : f.pc.loc.role = .handler
  · rw [hloc] at hhandler
    rw [hhandler] at hmonitor
    cases hmonitor
  · have hrole := hstaffed.role_of_frame hf hhandler
    rw [Addresses.role, if_pos rfl, hloc] at hrole
    rw [← Option.some.inj hrole] at hmonitor
    cases hmonitor

theorem Attended.step (h : Attended a c) (hok : HandlerMayRun .kbd x c)
    (hstep : Step code.program codeTimer x c c') : Attended a c' := by
  obtain ⟨Q, hsound⟩ := h.sound
  have hguarded :=
    hstep.guarded (guards .kbd) handlersLock hok.mayLock h.guarded
  have hstaffed := h.staffed.step hstep.locStep
  refine ⟨hguarded, hstep.alert (guards .kbd) h.guarded hok hsound h.alert,
    hstaffed, fun hsleeping => ?_,
    hstep.ownerInside (guards .buffer) h.guarded.called h.owner,
    hstep.sound hsound (h.alert.calm hsound (fun _ => h.exists_runnable) hstep)⟩
  rcases hstep.sleeping_cases hsleeping with hold | ⟨-, f, fs, l, hf, hpc⟩
  · exact h.idle hold
  · exact not_sleepYield_idle hstaffed hguarded.called
      (hf ▸ List.mem_cons_self) hpc

theorem Attended.not_selfWaits (h : Attended a c) : ¬c.SelfWaits m t := by
  rintro ⟨howner, hblocked⟩
  cases m with
  | kbd =>
      obtain ⟨-, hrunnable⟩ := h.alert.owner t howner
      rw [Tasks.Runnable, hblocked.1] at hrunnable
      rcases hrunnable with hready | hrunning
      · cases hready
      · cases hrunning
  | buffer =>
      obtain ⟨Q, hsound⟩ := h.sound
      have hq : t ∈ Q (.mutex .buffer) :=
        (hsound.waiting.chain _).onChain_iff.mp hblocked.2
      obtain ⟨f, hf, hwaits⟩ := (hsound.stands _ t hq).exists_waitsOn
      obtain ⟨g, hg, l, hpc, hl⟩ := h.owner t howner
      have hmonitor := waitsOn_of_called (h.guarded.called t f hf) hwaits
      have hfrole : f.pc.loc.role ≠ .handler := by
        intro hhandler
        rw [hhandler] at hmonitor
        cases hmonitor
      have hgrole : g.pc.loc.role ≠ .handler := by
        rw [hpc]
        exact ne_handler_of_inside hl
      obtain rfl := h.staffed.eq_of_mem hf hg hfrole hgrole
      rw [hpc] at hwaits
      cases hwaits

end Attended

/-! ## Runs -/

section Runs

variable {fuel : ℕ} {T : Tasks} {kbdBuffer : ℤ → BitVec 8}
variable {buffer : ℤ → BitVec 32} {c₀ : Config Monitor Cond Loc Data}

theorem Booted.guarded (h : Booted a kbdBuffer buffer c₀) :
    Guarded code.program .kbd (fun l => l.inside = some .kbd) c₀ where
  owner t ht := by
    rw [h.mutex] at ht
    cases ht
  called := h.called
  awake r f fs hr _ hblocked := by
    obtain rfl := Option.some.inj (hr.symm.trans h.running)
    have hstate := hblocked.1
    rw [h.state a.idle List.mem_cons_self, if_pos rfl] at hstate
    cases hstate
  free t ht := by
    have howner := ht.1
    rw [h.mutex] at howner
    cases howner

theorem Booted.ownerLocked (h : Booted a kbdBuffer buffer c₀) (m : Monitor) :
    OwnerLocked m c₀ := by
  intro t ht
  rw [h.mutex] at ht
  cases ht

theorem Booted.attended (h : Booted a kbdBuffer buffer c₀) :
    Attended a c₀ where
  guarded := h.guarded
  alert :=
    { pauses := fun r _ _ hr _ _ => by
        obtain rfl := Option.some.inj (hr.symm.trans h.running)
        exact h.orderly.idles.1
      owner := fun t ht => by
        rw [h.mutex] at ht
        cases ht
      owned := fun hlocked => absurd (by rw [h.mutex]) hlocked }
  staffed := h.staffed
  idle := by
    rw [h.state a.idle List.mem_cons_self, if_pos rfl]
    exact TaskState.noConfusion
  owner t ht := by
    rw [h.mutex] at ht
    cases ht
  sound := h.orderly.idles.2

/-- As long as every key interrupts a task that can run and does not own the
keyboard monitor, no task waits for a mutex that it owns.  For the mutex of the
keyboard monitor alone it is enough that the interrupted task neither owns it
nor, when it is free, is still blocked on its queue; and a key that arrives
otherwise leaves a task waiting for itself at the next step. -/
theorem keyboardMonitor_selfWaits
    (hboot : boot fuel a T kbdBuffer buffer = some c₀) :
    (∀ c, Run code.program codeTimer (HandlerMayRun .kbd) c₀ c →
      ∀ m t, ¬c.SelfWaits m t) ∧
    (∀ c, Run code.program codeTimer (HandlerMayLock .kbd) c₀ c →
      ∀ t, ¬c.SelfWaits .kbd t) ∧
    ∀ c c' c'' x y, Run code.program codeTimer (fun _ _ => True) c₀ c →
      ¬HandlerMayLock .kbd x c → Step code.program codeTimer x c c' →
      Step code.program codeTimer y c' c'' → ∃ t, c''.SelfWaits .kbd t := by
  have hbooted := boot_booted hboot
  refine ⟨fun c hrun m t => ?_, fun c hrun => ?_, ?_⟩
  · have hattended : Attended a c :=
      hrun.invariant hbooted.attended fun hok hstep hc => hc.step hok hstep
    exact hattended.not_selfWaits
  · have hguarded : Guarded code.program .kbd (fun l => l.inside = some .kbd) c :=
      hrun.invariant hbooted.guarded fun hok hstep hc =>
        hstep.guarded (guards .kbd) handlersLock hok hc
    exact hguarded.free
  · intro c c' c'' x y hrun hnot hstep hnext
    have hlocked : OwnerLocked .kbd c :=
      hrun.invariant (hbooted.ownerLocked .kbd) fun _ hstep hc =>
        hstep.ownerLocked hc
    exact hstep.selfWaits handlersLock hlocked hnot hnext

end Runs

/-- A key arrives at the task `idle` while the shell owns the monitor, and the
handler puts `idle` on the queue. -/
theorem keyboardMonitor_selfWaits_key :
    ∃ c₀ c, boot 4 someAddresses zeroTasks (fun _ => 0) (fun _ => 0) =
        some c₀ ∧
      Run code.program codeTimer (HandlerMayRun .kbd) c₀ c ∧
      (c.k.mutex .kbd).owner = some 4 ∧ c.k.tasks.state 1 = .blocked ∧
      ∀ m t, ¬c.SelfWaits m t := by
  obtain ⟨c₀, hboot⟩ := exists_boot
  have hruns : ((boot 4 someAddresses zeroTasks (fun _ => 0) fun _ => 0).bind
      (runChoices code (HandlerMayRun .kbd) 4
        [.timer, .timer, .timer, .go, .go, .timer, .irq 0x1E, .go])).any
      (fun c => (c.k.mutex .kbd).owner = some 4 ∧
        c.k.tasks.state 1 = .blocked) = true := by
    decide +kernel
  rw [hboot, Option.bind_some] at hruns
  obtain ⟨c, hrun, howner, hblocked⟩ :=
    exists_run code (HandlerMayRun .kbd) 4 _ c₀ _ hruns
  exact ⟨c₀, c, hboot, hrun, howner, hblocked,
    (keyboardMonitor_selfWaits hboot).1 c hrun⟩

/-- A key arrives when the shell has entered the monitor in `getchar`. -/
theorem keyboardMonitor_deadlocks :
    ¬∀ fuel a T kbdBuffer buffer c₀ c,
      boot fuel a T kbdBuffer buffer = some c₀ →
      Run code.program codeTimer (fun _ _ => True) c₀ c →
      ∀ m t, ¬c.SelfWaits m t := by
  intro hclaim
  obtain ⟨c₀, hboot⟩ := exists_boot
  have hruns : ((boot 4 someAddresses zeroTasks (fun _ => 0) fun _ => 0).bind
      (runChoices code (fun _ _ => True) 4
        [.timer, .timer, .timer, .go, .go, .irq 0x1E, .go])).any
      (fun c => c.k.mutex .kbd = ⟨1, some 4, some 4⟩ ∧
        c.k.tasks.state 4 = .blocked) = true := by
    decide +kernel
  rw [hboot, Option.bind_some] at hruns
  obtain ⟨c, hrun, hmutex, hstate⟩ :=
    exists_run code (fun _ _ => True) 4 _ c₀ _ hruns
  apply hclaim 4 someAddresses zeroTasks (fun _ => 0) (fun _ => 0) c₀ c hboot hrun
    .kbd 4
  refine ⟨by rw [hmutex], hstate, ?_⟩
  rw [Kernel.Waits, Kernel.head, hmutex]
  exact Chain.OnChain.here 4

end BabOs.Main
