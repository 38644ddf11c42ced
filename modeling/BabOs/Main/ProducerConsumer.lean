import BabOs.Main.Waiting

/-!
# The producer and the consumer

The consumer takes the items in the order in which they were produced, and the
two tasks do not stall: a task that waits for a condition of the buffer will be
signalled, or the condition still fails, and the two conditions do not fail
together.
-/

namespace BabOs.Main

open BabOs.Sched BabOs.Sync BabOs.Chain

variable {a : Addresses} {c c' : Config Monitor Cond Loc Data}

/-! ## Signals -/

/-- What a task has found that waits for the condition. -/
def Unmet (v : Cond) (d : Data) : Prop :=
  (Role.consumer.awaits = some v → d.count = 0) ∧
    (Role.producer.awaits = some v → d.count = bufferSize)

/-- The code at a location is about to signal the condition. -/
def Owes (v : Cond) : Loc → Prop
  | .producer .print _ | .producer .notify _ => Role.consumer.awaits = some v
  | .consumer .print _ | .consumer .notify _ => Role.producer.awaits = some v
  | _ => False

section Signals

variable {l l' : Loc} {d d' : Data} {act : Act Monitor Cond} {v : Cond}
variable {m : Monitor}

/-- A call of the kernel does not touch the variables. -/
theorem data_of_move (h : code.program.move l d act l' d')
    (hact : act ≠ .skip) : d' = d := by
  revert hact
  refine move_rule (p := fun _ x => x.1 ≠ .skip → x.2.2 = d) h
    (fun _ => rfl) ?_ ?_ (fun _ _ => rfl) ?_ ?_
  · intro p item hact
    cases p with
    | test =>
        rw [producer]
        split_ifs <;> rfl
    | sleep | enter | wait | notify | exit => rfl
    | printFull | store | moveTail | increment | print =>
        exact absurd rfl hact
  · intro p item hact
    cases p with
    | test =>
        rw [consumer]
        split_ifs <;> rfl
    | sleep | enter | wait | notify | exit => rfl
    | printEmpty | read | moveHead | decrement | print => exact absurd rfl hact
  · intro p c hact
    cases p with
    | test =>
        rw [getchar]
        split_ifs <;> rfl
    | enter | wait | exit => rfl
    | read | moveHead | decrement => exact absurd rfl hact
  · intro p c hact
    cases p with
    | test =>
        rw [callback]
        split_ifs <;> rfl
    | enter | notify | exit | iret => rfl
    | store | moveTail | increment | putchar => exact absurd rfl hact

theorem unmet_producer_wait {item : BitVec 32} {p : ProducerLoc}
    (h : Good (.producer p item) d)
    (hwait : (producer item d p).1 = .wait v m) : Unmet v d := by
  cases p with
  | wait =>
      cases hwait
      exact ⟨fun h => absurd h (by decide), fun _ => h.2⟩
  | test =>
      rw [producer] at hwait
      split_ifs at hwait
  | sleep | enter | printFull | store | moveTail | increment | print | notify
  | exit => cases hwait

theorem unmet_consumer_wait {item : BitVec 32} {p : ConsumerLoc}
    (h : Good (.consumer p item) d)
    (hwait : (consumer item d p).1 = .wait v m) : Unmet v d := by
  cases p with
  | wait =>
      cases hwait
      exact ⟨fun _ => h.2, fun h => absurd h (by decide)⟩
  | test =>
      rw [consumer] at hwait
      split_ifs at hwait
  | sleep | enter | printEmpty | read | moveHead | decrement | print | notify
  | exit => cases hwait

/-- The producer owes a signal when the buffer is not empty any more. -/
theorem unmet_producer {item : BitVec 32} {p : ProducerLoc}
    (h : Good (.producer p item) d) (hunmet : Unmet v d) :
    Unmet v (producer item d p).2.2 ∨ Owes v (producer item d p).2.1 := by
  cases p with
  | increment =>
      by_cases hv : Role.consumer.awaits = some v
      · exact Or.inr hv
      · refine Or.inl ⟨fun h => absurd h hv, fun hfull => ?_⟩
        obtain ⟨q, hq, -⟩ := h.1
        have hcount : d.count + 1 = q.length := hq.count_eq
        have hlength := hq.length_le
        have hfive := hunmet.2 hfull
        omega
  | test =>
      rw [producer]
      split_ifs <;> exact Or.inl hunmet
  | sleep | enter | printFull | wait | store | moveTail | print | notify
  | exit => exact Or.inl hunmet

theorem unmet_consumer {item : BitVec 32} {p : ConsumerLoc}
    (h : Good (.consumer p item) d) (hunmet : Unmet v d) :
    Unmet v (consumer item d p).2.2 ∨ Owes v (consumer item d p).2.1 := by
  cases p with
  | decrement =>
      by_cases hv : Role.producer.awaits = some v
      · exact Or.inr hv
      · refine Or.inl ⟨fun hempty => ?_, fun h => absurd h hv⟩
        obtain ⟨q, hq, -⟩ := h.1
        have hcount : d.count - 1 = q.length := hq.count_eq
        have hzero := hunmet.1 hempty
        omega
  | test =>
      rw [consumer]
      split_ifs <;> exact Or.inl hunmet
  | sleep | enter | printEmpty | wait | read | moveHead | print | notify
  | exit => exact Or.inl hunmet

theorem owes_of_move (howes : Owes v l)
    (hmove : code.program.move l d act l' d') :
    act.Plain ∧ (Owes v l' ∨ act = .signal v) := by
  change code.next l d = some (act, l', d') at hmove
  cases l with
  | producer p item =>
      cases p with
      | print =>
          cases hmove
          exact ⟨trivial, Or.inl howes⟩
      | notify =>
          cases hmove
          cases howes
          exact ⟨trivial, Or.inr rfl⟩
      | sleep | enter | test | printFull | wait | store | moveTail | increment
      | exit => exact absurd howes id
  | consumer p item =>
      cases p with
      | print =>
          cases hmove
          exact ⟨trivial, Or.inl howes⟩
      | notify =>
          cases hmove
          cases howes
          exact ⟨trivial, Or.inr rfl⟩
      | sleep | enter | test | printEmpty | wait | read | moveHead | decrement
      | exit => exact absurd howes id
  | idle | shell | getchar | callback => exact absurd howes id

theorem signalRule :
    SignalRule code.program .buffer (fun l => l.inside = some .buffer) Good
      Unmet Owes where
  waits := by
    intro l d v m l' d' hmove hgood
    obtain ⟨hl, -, hv⟩ := changes_of_move hmove
    rw [data_of_move hmove nofun]
    cases m with
    | kbd =>
        refine ⟨?_, ?_⟩ <;> intro hawaits <;> cases hawaits <;> cases hv
    | buffer =>
        rcases move_buffer hmove hl with
          ⟨p, item, rfl, hnext⟩ | ⟨p, item, rfl, hnext⟩
        · exact unmet_producer_wait (hgood hl) (by rw [hnext])
        · exact unmet_consumer_wait (hgood hl) (by rw [hnext])
  moves := by
    intro v l d act l' d' hl hgood hmove hact hunmet
    rcases move_buffer hmove hl with
      ⟨p, item, rfl, hnext⟩ | ⟨p, item, rfl, hnext⟩
    · have hunmet' := unmet_producer hgood hunmet
      rwa [hnext] at hunmet'
    · have hunmet' := unmet_consumer hgood hunmet
      rwa [hnext] at hunmet'
  owed := owes_of_move
  leaves := by
    intro v l d act l' d' hmove hact hunmet
    rw [data_of_move hmove]
    · exact hunmet
    · rintro rfl
      exact hact
  outside := by
    intro v d d' h hunmet
    obtain ⟨kbd, rfl⟩ := outside_buffer h
    exact hunmet

end Signals

/-! ## No stall -/

section Progress

variable {l : Loc} {i : ℕ} {kbdBuffer : ℤ → BitVec 8}
variable {buffer : ℤ → BitVec 32} {c₀ : Config Monitor Cond Loc Data}

/-- What is consumed was produced, also while the buffer is changed. -/
theorem consumed_prefix
    (h : Monitored .buffer (fun l => l.inside = some .buffer) AtRest Good c) :
    c.data.consumed <+: c.data.produced := by
  have hsettle (d : Data) (l : Loc) :
      (settle d l).consumed = d.consumed ∧ (settle d l).produced = d.produced := by
    cases l with
    | producer p item => cases p <;> exact ⟨rfl, rfl⟩
    | consumer p item => cases p <;> exact ⟨rfl, rfl⟩
    | idle | shell | getchar | callback => exact ⟨rfl, rfl⟩
  cases h with
  | free hlocked hplaces hrest =>
      obtain ⟨queued, -, hproduced⟩ := hrest
      exact ⟨queued, hproduced.symm⟩
  | @held t i l hlocked hplaces hgood =>
      obtain ⟨queued, -, hproduced⟩ := hgood.1
      rw [(hsettle c.data l).1, (hsettle c.data l).2] at hproduced
      exact ⟨queued, hproduced.symm⟩

/-- Only the producer and the consumer are in the monitor. -/
theorem Orderly.role_of_place (h : Orderly a c)
    (hplace : (t, i, l) ∈ places (fun l => l.inside = some .buffer) c.stack) :
    a.role t = some l.role ∧ l.role.monitor = some .buffer := by
  obtain ⟨f, hf, hpc, hl⟩ := hplace
  have hmem : f ∈ c.stack t := List.mem_reverse.mp (List.mem_of_getElem? hf)
  have hloc : f.pc.loc = l := by
    rw [hpc]
    rfl
  have hrole := h.staffed.role_of_frame hmem
    (by rw [hloc]; exact ne_handler_of_inside hl)
  rw [hloc] at hrole
  exact ⟨hrole, monitor_of_inside hl⟩

/-- The producer and the consumer are not blocked at the same time. -/
theorem Orderly.not_stalled (h : Orderly a c)
    (hsignalled : Signalled (fun l => l.inside = some .buffer) Unmet Owes c) :
    ¬(c.k.tasks.state a.producer = .blocked ∧
      c.k.tasks.state a.consumer = .blocked) := by
  rintro ⟨hproducer, hconsumer⟩
  obtain ⟨-, Q, hsound⟩ := h.idles
  have hwaits {t : ℕ} {ρ : Role} (hrole : a.role t = some ρ)
      (hmonitor : ρ.monitor = some .buffer) :
      ∃ q f, t ∈ Q q ∧ WaitsAt a c q t f := by
    have hblocked : t ∈ a.tasks ∧ c.k.tasks.state t = .blocked := by
      cases ρ with
      | producer =>
          rw [a.role_inj hrole a.role_producer]
          exact ⟨by simp [Addresses.tasks], hproducer⟩
      | consumer =>
          rw [a.role_inj hrole a.role_consumer]
          exact ⟨by simp [Addresses.tasks], hconsumer⟩
      | idle | shell | handler => cases hmonitor
    obtain ⟨q, hq⟩ :=
      (hsound.waiting.blocked t hblocked.1).mp hblocked.2
    obtain ⟨f, hf⟩ := h.exists_waitsAt hsound hq
    exact ⟨q, f, hq, hf⟩
  have hempty (t i : ℕ) (l : Loc) :
      (t, i, l) ∉ places (fun l => l.inside = some .buffer) c.stack := by
    intro hplace
    obtain ⟨hrole, hmonitor⟩ := h.role_of_place hplace
    obtain ⟨q, f, -, hf⟩ := hwaits hrole hmonitor
    exact h.not_waitsAt hf hplace
  have hfree : (c.k.mutex .buffer).locked = 0 := by
    cases h.monitored with
    | free hlocked hplaces hrest => exact hlocked
    | held hlocked hplaces hgood =>
        exact absurd (hplaces ▸ Set.mem_singleton _) (hempty _ _ _)
  have hqueue : Q (.mutex .buffer) = [] := by
    by_contra hne
    obtain ⟨w, hw⟩ := hsound.awake _ hfree hne
    obtain ⟨-, hrunnable, f, fs, l, hf, -, hpc⟩ := hsound.woken w _ hw
    have hmem : f ∈ c.stack w := hf ▸ List.mem_cons_self
    have hwaitsOn : f.pc.waitsOn = some (.mutex .buffer) := by
      rw [hpc, Pc.waitsOn]
    have hrole := h.staffed.role_of_frame hmem (h.ne_handler hmem hwaitsOn)
    obtain ⟨q, -, hq, -⟩ :=
      hwaits hrole (waitsOn_of_called (h.called w f hmem) hwaitsOn)
    have hblocked := (hsound.waiting.blocked w (hsound.waiting.listed hq)).mpr
      ⟨q, hq⟩
    rw [Tasks.Runnable, hblocked] at hrunnable
    rcases hrunnable with hready | hrunning
    · cases hready
    · cases hrunning
  have hunmet {t : ℕ} {ρ : Role} {v : Cond} (hrole : a.role t = some ρ)
      (hmonitor : ρ.monitor = some .buffer) (hawaits : ρ.awaits = some v) :
      Unmet v c.data := by
    obtain ⟨q, f, hq, hf⟩ := hwaits hrole hmonitor
    have hown := hf.own
    rw [← Option.some.inj (hrole.symm.trans hf.role)] at hown
    cases q with
    | mutex m =>
        obtain rfl := Option.some.inj (hmonitor.symm.trans hown)
        rw [hqueue] at hq
        cases hq
    | cond v' =>
        obtain rfl := Option.some.inj (hawaits.symm.trans hown)
        have hblocked : c.k.BlockedOn (.cond v) t :=
          ⟨(hsound.waiting.blocked t (hsound.waiting.listed hq)).mpr ⟨_, hq⟩,
            (hsound.waiting.chain _).onChain_iff.mpr hq⟩
        refine (hsignalled v t hblocked).resolve_right ?_
        rintro ⟨t', i, l, hplace, -⟩
        exact hempty t' i l hplace
  have hfull := (hunmet a.role_producer rfl rfl).2 rfl
  have hnone := (hunmet a.role_consumer rfl rfl).1 rfl
  rw [hnone] at hfull
  cases hfull

theorem Booted.orderly (h : Booted a kbdBuffer buffer c₀) : Orderly a c₀ where
  staffed := h.staffed
  called := h.called
  monitored := h.monitored
  passing t f hf _ := by
    rcases h.stack_eq t with hnil | ⟨l, hstart, -⟩
    · rw [hnil] at hf
      cases hf
    · rw [hstart, List.mem_singleton] at hf
      subst hf
      exact ⟨l, rfl⟩
  idles := by
    have hunqueued : Unqueued a.tasks c₀ :=
      { list := h.list
        running := ⟨a.idle, List.mem_cons_self, h.running⟩
        empty := by
          rintro (m | v)
          · exact congrArg Mutex.waiters (h.mutex m)
          · exact h.cond v
        awake := fun t ht => by
          rw [h.state t ht]
          split_ifs <;> nofun
        woken := h.woken }
    refine ⟨Or.inr ?_, _, hunqueued.sound⟩
    rw [h.state a.idle List.mem_cons_self, if_pos rfl]

theorem Booted.signalled (h : Booted a kbdBuffer buffer c₀) :
    Signalled (fun l => l.inside = some .buffer) Unmet Owes c₀ := by
  intro v t hblocked
  have hwaits := hblocked.2
  rw [Kernel.Waits, Kernel.head, h.cond] at hwaits
  exact absurd hwaits not_onChain_none

/-- As long as no handler suspends its task, the producer and the consumer do
not stall. -/
theorem run_not_stalled (h : Booted a kbdBuffer buffer c₀)
    (hrun : Run code.program codeTimer HandlersPass c₀ c) :
    ¬(c.k.tasks.state a.producer = .blocked ∧
      c.k.tasks.state a.consumer = .blocked) := by
  have hinv : Orderly a c ∧
      Signalled (fun l => l.inside = some .buffer) Unmet Owes c := by
    refine hrun.invariant (I := fun c => Orderly a c ∧
      Signalled (fun l => l.inside = some .buffer) Unmet Owes c)
      ⟨h.orderly, h.signalled⟩ ?_
    rintro x c c' hpass hstep ⟨horderly, hsignalled⟩
    have horderly' := horderly.step hpass hstep
    obtain ⟨-, Q, hsound⟩ := horderly.idles
    obtain ⟨-, Q', hsound'⟩ := horderly'.idles
    refine ⟨horderly', hsignalled.step signalRule (guards .buffer)
      horderly.called horderly.monitored hsound ?_ hsound' hstep⟩
    exact fun v t ht u hu => horderly.eq_of_mem_cond hsound ht hu
  exact hinv.1.not_stalled hinv.2

/-- The buffer, the order of the items and the progress of the two tasks.  The
first part is about every run of the booted system, with the shell and the
keyboard handler, whose monitor is another one; the last part is about the runs
in which no handler suspends the task that it interrupts. -/
theorem producerConsumer_correct {fuel : ℕ} {T : Tasks}
    (hboot : boot fuel a T kbdBuffer buffer = some c₀) :
    (∀ c, Run code.program codeTimer (fun _ _ => True) c₀ c →
      ((c.k.mutex .buffer).locked = 0 →
        0 ≤ c.data.count ∧ c.data.count ≤ bufferSize ∧
        0 ≤ c.data.head ∧ c.data.head < bufferSize ∧
        c.data.tail = (c.data.head + c.data.count) % bufferSize ∧
        ∃ queued, c.data.produced = c.data.consumed ++ queued ∧
          c.data.count = queued.length ∧
          ∀ i (hi : i < queued.length),
            c.data.buffer ((c.data.head + i) % bufferSize) = queued[i]) ∧
      c.data.consumed <+: c.data.produced ∧
      c.data.produced = (List.range c.data.produced.length).map
        fun i => BitVec.ofNat 32 (100 + i)) ∧
    ∀ c, Run code.program codeTimer HandlersPass c₀ c →
      ¬(c.k.tasks.state a.producer = .blocked ∧
        c.k.tasks.state a.consumer = .blocked) := by
  have hbooted := boot_booted hboot
  refine ⟨fun c hrun => ?_, fun c hrun => run_not_stalled hbooted hrun⟩
  have hmonitored := (run_monitored (guards .buffer) monitorRule hbooted.called
    hbooted.monitored hrun).2
  have hnumbered := (run_numbered hrun hbooted.staffed hbooted.numbered).2
  refine ⟨fun hfree => ?_, consumed_prefix hmonitored, hnumbered.1⟩
  cases hmonitored with
  | held hlocked hplaces hgood => exact absurd hfree hlocked
  | free hlocked hplaces hrest =>
      obtain ⟨queued, hholds, hproduced⟩ := hrest
      have hcount := hholds.count_eq
      have hlength := hholds.length_le
      exact ⟨by omega, by omega, hholds.head_nonneg, hholds.head_lt,
        hholds.tail_eq, queued, hproduced, hcount, hholds.get⟩

end Progress

/-- The producer has slept and stored the first item. -/
theorem producerConsumer_correct_item :
    ∃ c₀ c, boot 4 someAddresses zeroTasks (fun _ => 0) (fun _ => 0) =
        some c₀ ∧
      Run code.program codeTimer HandlersPass c₀ c ∧
      c.data.produced = [100] ∧ c.data.consumed <+: c.data.produced ∧
      ¬(c.k.tasks.state 2 = .blocked ∧ c.k.tasks.state 3 = .blocked) := by
  obtain ⟨c₀, hboot⟩ := exists_boot
  have hruns : ((boot 4 someAddresses zeroTasks (fun _ => 0) fun _ => 0).bind
      (runChoices code HandlersPass 4
        ([.timer, .go, .go, .go] ++ List.replicate 30 .timer ++
          [.go, .go, .go]))).any (fun c => c.data.produced = [100]) = true := by
    decide +kernel
  rw [hboot, Option.bind_some] at hruns
  obtain ⟨c, hrun, hproduced⟩ := exists_run code HandlersPass 4 _ c₀ _ hruns
  obtain ⟨hsafe, hprogress⟩ := producerConsumer_correct hboot
  exact ⟨c₀, c, hboot, hrun, hproduced,
    (hsafe c (hrun.mono fun _ _ _ => trivial)).2.1, hprogress c hrun⟩

end BabOs.Main
