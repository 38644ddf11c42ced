import BabOs.Main.KeyQueue
import BabOs.Main.ProducerConsumer

/-!
# The shell waits for characters only

The shell is blocked only while no character is queued, while a handler that has
queued one is about to signal the condition, or while it waits for the lock that
a handler holds.
-/

namespace BabOs.Main

open BabOs.Sched BabOs.Sync BabOs.Chain

variable {a : Addresses} {c c' : Config Monitor Cond Loc Data}

/-! ## Signals -/

/-- What the shell has found when it waits for the condition. -/
def NoKey (v : Cond) (d : Data) : Prop :=
  Role.shell.awaits = some v → d.kbd.count = 0

/-- The handler is about to signal the condition. -/
def OwesKey (v : Cond) : Loc → Prop
  | .callback .notify _ => Role.shell.awaits = some v
  | _ => False

section Signals

variable {l l' : Loc} {d d' : Data} {act : Act Monitor Cond} {v : Cond}
variable {m : Monitor} {ch : BitVec 8}

/-- What the code in the monitor has found out about `kbd_count`. -/
theorem foundKeysRule :
    MonitorRule code.program .kbd (fun l => l.inside = some .kbd)
      (fun _ => True) fun l d => FoundKeys d l where
  enters := by
    intro l d hentry _
    have htest := atTest_of_entry hentry
    cases l with
    | getchar p ch =>
        cases p with
        | test => trivial
        | enter | wait | read | moveHead | decrement | exit =>
            exact absurd htest id
    | idle | producer | consumer | shell | callback => trivial
  moves := by
    intro l d act l' d' hl hfound hmove hact
    rcases move_kbd hmove hl with ⟨p, ch, rfl, hnext⟩ | ⟨p, ch, rfl, hnext⟩
    · cases p with
      | test =>
          rw [getchar] at hnext
          split_ifs at hnext with hempty
          · cases hnext
            exact hempty
          · cases hnext
            exact hempty
      | read | moveHead =>
          cases hnext
          exact hfound
      | decrement =>
          cases hnext
          trivial
      | enter | wait | exit =>
          cases hnext
          exact absurd hact id
    · cases p with
      | test =>
          rw [callback] at hnext
          split_ifs at hnext <;> (cases hnext; trivial)
      | enter | store | moveTail | increment | notify | exit | putchar | iret =>
          cases hnext
          trivial
  leaves _ _ _ := trivial
  outside h := by
    have hqueue := outside_kbd h
    simp only [Keyboard.Vars.queue, Prod.mk.injEq] at hqueue
    exact ⟨fun _ => trivial, fun l hfound => hfound.congr hqueue.2.2.2⟩

theorem noKey_getchar_wait {p : GetcharLoc} (h : FoundKeys d (.getchar p ch))
    (hwait : (getchar ch d p).1 = .wait v m) : NoKey v d := by
  cases p with
  | wait => exact fun _ => h
  | test =>
      rw [getchar] at hwait
      split_ifs at hwait
  | enter | read | moveHead | decrement | exit => cases hwait

/-- While no character is queued, `getchar` does not take one. -/
theorem noKey_getchar {p : GetcharLoc} (h : FoundKeys d (.getchar p ch))
    (hnone : NoKey v d) : NoKey v (getchar ch d p).2.2 := by
  cases p with
  | decrement => exact fun hv => absurd (hnone hv) h
  | test =>
      rw [getchar]
      split_ifs <;> exact hnone
  | enter | wait | read | moveHead | exit => exact hnone

/-- The handler owes a signal when it has queued a character. -/
theorem noKey_callback (p : CallbackLoc) (hnone : NoKey v d) :
    NoKey v (callback ch d p).2.2 ∨ OwesKey v (callback ch d p).2.1 := by
  cases p with
  | increment =>
      by_cases hv : Role.shell.awaits = some v
      · exact Or.inr hv
      · exact Or.inl fun h => absurd h hv
  | test =>
      rw [callback]
      split_ifs <;> exact Or.inl hnone
  | enter | store | moveTail | notify | exit | putchar | iret =>
      exact Or.inl hnone

theorem owesKey_of_move (howes : OwesKey v l)
    (hmove : code.program.move l d act l' d') :
    act.Plain ∧ (OwesKey v l' ∨ act = .signal v) := by
  change code.next l d = some (act, l', d') at hmove
  cases l with
  | callback p ch =>
      cases p with
      | notify =>
          cases hmove
          cases howes
          exact ⟨trivial, Or.inr rfl⟩
      | enter | test | store | moveTail | increment | exit | putchar | iret =>
          exact absurd howes id
  | idle | producer | consumer | shell | getchar => exact absurd howes id

theorem keySignalRule :
    SignalRule code.program .kbd (fun l => l.inside = some .kbd)
      (fun l d => FoundKeys d l) NoKey OwesKey where
  waits := by
    intro l d v m l' d' hmove hfound
    obtain ⟨hl, -, hv⟩ := changes_of_move hmove
    rw [data_of_move hmove nofun]
    cases m with
    | buffer =>
        intro hawaits
        cases hawaits
        cases hv
    | kbd =>
        rcases move_kbd hmove hl with ⟨p, ch, rfl, hnext⟩ | ⟨p, ch, rfl, hnext⟩
        · exact noKey_getchar_wait (hfound hl) (by rw [hnext])
        · have hwait := (calls_of_move hmove).wait v .kbd rfl
          cases hwait.1
  moves := by
    intro v l d act l' d' hl hfound hmove hact hnone
    rcases move_kbd hmove hl with ⟨p, ch, rfl, hnext⟩ | ⟨p, ch, rfl, hnext⟩
    · have hnone' := noKey_getchar hfound hnone
      rw [hnext] at hnone'
      exact Or.inl hnone'
    · have hnone' : NoKey v (callback ch d p).2.2 ∨
          OwesKey v (callback ch d p).2.1 := noKey_callback p hnone
      rwa [hnext] at hnone'
  owed := owesKey_of_move
  leaves := by
    intro v l d act l' d' hmove hact hnone
    rw [data_of_move hmove]
    · exact hnone
    · rintro rfl
      exact hact
  outside := by
    intro v d d' h hnone
    have hqueue := outside_kbd h
    simp only [Keyboard.Vars.queue, Prod.mk.injEq] at hqueue
    rw [NoKey, hqueue.2.2.2]
    exact hnone

end Signals

/-! ## Runs -/

section Runs

variable {l : Loc} {i t : ℕ} {fuel : ℕ} {T : Tasks} {kbdBuffer : ℤ → BitVec 8}
variable {buffer : ℤ → BitVec 32} {c₀ : Config Monitor Cond Loc Data}
variable {Q : Queue Monitor Cond → List ℕ}

/-- Only the shell and the handler enter the monitor of the keyboard. -/
theorem role_of_inside_kbd (hl : l.inside = some .kbd) :
    l.role = .shell ∨ l.role = .handler := by
  cases l with
  | getchar p ch => exact Or.inl rfl
  | callback p ch => exact Or.inr rfl
  | producer p item => cases p <;> cases hl
  | consumer p item => cases p <;> cases hl
  | idle | shell => cases hl

theorem Orderly.shell_waitsAt (h : Orderly a c) (hsound : Sound a.tasks c Q)
    (hblocked : c.k.tasks.state a.shell = .blocked) :
    ∃ q f, a.shell ∈ Q q ∧ WaitsAt a c q a.shell f ∧ Role.shell.WaitsOn q := by
  obtain ⟨q, hq⟩ :=
    (hsound.waiting.blocked a.shell (by simp [Addresses.tasks])).mp hblocked
  obtain ⟨f, hf⟩ := h.exists_waitsAt hsound hq
  have hrole := Option.some.inj (a.role_shell.symm.trans hf.role)
  exact ⟨q, f, hq, hf, hrole ▸ hf.own⟩

/-- The code of the shell runs in the task of the shell. -/
theorem Orderly.eq_shell {f : Frame Monitor Cond Loc} (h : Orderly a c)
    (hmem : f ∈ c.stack t) (hrole : f.pc.loc.role = .shell) : t = a.shell := by
  have htask := h.staffed.role_of_frame hmem (by rw [hrole]; decide)
  rw [hrole] at htask
  exact a.role_inj htask a.role_shell

/-- The blocked shell is not in the monitor, so a handler is. -/
theorem Orderly.handler_of_place (h : Orderly a c)
    (hblocked : c.k.tasks.state a.shell = .blocked)
    (hplace : (t, i, l) ∈ places (fun l => l.inside = some .kbd) c.stack) :
    l.role = .handler := by
  obtain ⟨-, Q, hsound⟩ := h.idles
  obtain ⟨q, f, -, hf, -⟩ := h.shell_waitsAt hsound hblocked
  obtain ⟨g, hg, hpc, hl⟩ := hplace
  refine (role_of_inside_kbd hl).resolve_left fun hshell => ?_
  have hmem : g ∈ c.stack t := List.mem_reverse.mp (List.mem_of_getElem? hg)
  have hrole : g.pc.loc.role = .shell := by
    rw [hpc]
    exact hshell
  obtain rfl := h.eq_shell hmem hrole
  obtain rfl := h.staffed.eq_of_mem hf.mem hmem
    (h.ne_handler hf.mem hf.waitsOn) (by rw [hrole]; decide)
  have hnone := hf.waitsOn
  rw [hpc] at hnone
  cases hnone

/-- The blocked shell does not wait for a free monitor. -/
theorem Orderly.shell_awaits (h : Orderly a c) (hsound : Sound a.tasks c Q)
    (hblocked : c.k.tasks.state a.shell = .blocked)
    (hfree : (c.k.mutex .kbd).locked = 0) :
    ∃ v, Role.shell.awaits = some v ∧ a.shell ∈ Q (.cond v) := by
  obtain ⟨q, f, hq, hf, hwaits⟩ := h.shell_waitsAt hsound hblocked
  cases q with
  | cond v => exact ⟨v, hwaits, hq⟩
  | mutex m =>
      obtain rfl : Monitor.kbd = m := Option.some.inj hwaits
      obtain ⟨w, hw⟩ := hsound.awake _ hfree (List.ne_nil_of_mem hq)
      obtain ⟨-, hrunnable, g, gs, l, hg, -, hpc⟩ := hsound.woken w _ hw
      have hmem : g ∈ c.stack w := hg ▸ List.mem_cons_self
      have hwaitsOn : g.pc.waitsOn = some (.mutex .kbd) := by
        rw [hpc, Pc.waitsOn]
      have hown := waitsOn_of_called (h.called w g hmem) hwaitsOn
      have hshell : g.pc.loc.role = .shell := by
        cases hrole : g.pc.loc.role with
        | shell => rfl
        | handler => exact absurd hrole (h.ne_handler hmem hwaitsOn)
        | idle | producer | consumer =>
            rw [hrole] at hown
            cases hown
      obtain rfl := h.eq_shell hmem hshell
      rw [Tasks.Runnable, hblocked] at hrunnable
      rcases hrunnable with hready | hrunning
      · cases hready
      · cases hrunning

def HandlerAt (c : Config Monitor Cond Loc Data) (p : CallbackLoc) : Prop :=
  ∃ t, ∃ f ∈ c.stack t, ∃ ch, f.pc = .user (.callback p ch)

/-- The shell waits for the condition in vain only until a handler signals. -/
theorem count_or_notify
    (hsignalled : Signalled (fun l => l.inside = some .kbd) NoKey OwesKey c)
    (hblocked : c.k.BlockedOn (.cond (.kbd, 0)) a.shell) :
    c.data.kbd.count = 0 ∨
      HandlerAt c .notify ∧ ∃ p, p ∈ places (fun l => l.inside = some .kbd)
        c.stack := by
  rcases hsignalled (.kbd, 0) a.shell hblocked with hnone | ⟨t, i, l, hplace, howes⟩
  · exact Or.inl (hnone rfl)
  · refine Or.inr ⟨?_, _, hplace⟩
    obtain ⟨f, hf, hpc, -⟩ := hplace
    cases l with
    | callback p ch =>
        cases p with
        | notify =>
            exact ⟨t, f, List.mem_reverse.mp (List.mem_of_getElem? hf), ch, hpc⟩
        | enter | test | store | moveTail | increment | exit | putchar | iret =>
            exact absurd howes id
    | idle | producer | consumer | shell | getchar => exact absurd howes id

theorem Booted.foundKeys (h : Booted a kbdBuffer buffer c₀) :
    Monitored .kbd (fun l => l.inside = some .kbd) (fun _ => True)
      (fun l d => FoundKeys d l) c₀ :=
  Monitored.free (by rw [h.mutex]) (h.places_eq .kbd) trivial

theorem Booted.keysSignalled (h : Booted a kbdBuffer buffer c₀) :
    Signalled (fun l => l.inside = some .kbd) NoKey OwesKey c₀ := by
  intro v t hblocked
  have hwaits := hblocked.2
  rw [Kernel.Waits, Kernel.head, h.cond] at hwaits
  exact absurd hwaits not_onChain_none

/-- As long as no handler suspends the task that it interrupts, the wake-up of
the shell is not lost.  The blocked shell waits for the condition, and then no
character is queued or a handler is about to signal; or it waits for the lock,
and then a handler is in the monitor.  When the monitor is free, no character is
queued. -/
theorem shell_waits_for_keys (hboot : boot fuel a T kbdBuffer buffer = some c₀)
    (hrun : Run code.program codeTimer HandlersPass c₀ c)
    (hblocked : c.k.tasks.state a.shell = .blocked) :
    (c.k.BlockedOn (.cond (.kbd, 0)) a.shell ∧
          (c.data.kbd.count = 0 ∨ HandlerAt c .notify) ∨
        c.k.BlockedOn (.mutex .kbd) a.shell ∧
          ∃ p ch, HandlerAt c p ∧ (Loc.callback p ch).inside = some .kbd) ∧
      ((c.k.mutex .kbd).locked = 0 → c.data.kbd.count = 0) := by
  have hbooted := boot_booted hboot
  have hinv : (Orderly a c ∧ Monitored .kbd (fun l => l.inside = some .kbd)
      (fun _ => True) (fun l d => FoundKeys d l) c) ∧
      Signalled (fun l => l.inside = some .kbd) NoKey OwesKey c := by
    refine hrun.invariant (I := fun c => (Orderly a c ∧
      Monitored .kbd (fun l => l.inside = some .kbd) (fun _ => True)
        (fun l d => FoundKeys d l) c) ∧
      Signalled (fun l => l.inside = some .kbd) NoKey OwesKey c)
      ⟨⟨hbooted.orderly, hbooted.foundKeys⟩, hbooted.keysSignalled⟩ ?_
    rintro x c c' hpass hstep ⟨⟨horderly, hfound⟩, hsignalled⟩
    have horderly' := horderly.step hpass hstep
    obtain ⟨-, Q, hsound⟩ := horderly.idles
    obtain ⟨-, Q', hsound'⟩ := horderly'.idles
    have hregion := hstep.regionStep (guards .kbd) horderly.called
    refine ⟨⟨horderly', hregion.monitored foundKeysRule hfound⟩,
      hsignalled.step keySignalRule (guards .kbd) horderly.called hfound hsound
        ?_ hsound' hstep⟩
    exact fun v t ht u hu => horderly.eq_of_mem_cond hsound ht hu
  obtain ⟨⟨horderly, hfound⟩, hsignalled⟩ := hinv
  obtain ⟨-, Q, hsound⟩ := horderly.idles
  have hcond : ∀ v, Role.shell.awaits = some v → a.shell ∈ Q (.cond v) →
      c.k.BlockedOn (.cond (.kbd, 0)) a.shell := by
    intro v hv hmem
    cases hv
    exact ⟨hblocked, (hsound.waiting.chain _).onChain_iff.mpr hmem⟩
  cases hfound with
  | free hlocked hplaces =>
      obtain ⟨v, hv, hmem⟩ := horderly.shell_awaits hsound hblocked hlocked
      have hwaits := hcond v hv hmem
      have hcount : c.data.kbd.count = 0 := by
        refine (count_or_notify hsignalled hwaits).resolve_right ?_
        rintro ⟨-, place, hplace⟩
        rw [hplaces] at hplace
        exact absurd hplace (Set.notMem_empty _)
      exact ⟨Or.inl ⟨hwaits, Or.inl hcount⟩, fun _ => hcount⟩
  | @held t i l hlocked hplaces =>
      refine ⟨?_, fun hfree => absurd hfree hlocked⟩
      obtain ⟨q, f, hq, -, hwaits⟩ := horderly.shell_waitsAt hsound hblocked
      cases q with
      | cond v =>
          have hblockedOn := hcond v hwaits hq
          exact Or.inl ⟨hblockedOn,
            (count_or_notify hsignalled hblockedOn).imp_right And.left⟩
      | mutex m =>
          obtain rfl : Monitor.kbd = m := Option.some.inj hwaits
          have hplace : (t, i, l) ∈ places (fun l => l.inside = some .kbd)
              c.stack := hplaces ▸ Set.mem_singleton _
          have hrole := horderly.handler_of_place hblocked hplace
          obtain ⟨g, hg, hpc, hl⟩ := hplace
          have hmem : g ∈ c.stack t :=
            List.mem_reverse.mp (List.mem_of_getElem? hg)
          refine Or.inr ⟨⟨hblocked,
            (hsound.waiting.chain _).onChain_iff.mpr hq⟩, ?_⟩
          cases l with
          | callback p ch => exact ⟨p, ch, ⟨t, g, hmem, ch, hpc⟩, hl⟩
          | idle | producer | consumer | shell | getchar => cases hrole

end Runs

/-- The shell has gone to sleep without a character. -/
theorem shell_waits_for_keys_empty :
    ∃ c₀ c, boot 4 someAddresses zeroTasks (fun _ => 0) (fun _ => 0) =
        some c₀ ∧
      Run code.program codeTimer HandlersPass c₀ c ∧
      c.k.tasks.state 4 = .blocked ∧ c.data.kbd.count = 0 := by
  obtain ⟨c₀, hboot⟩ := exists_boot
  have hruns : ((boot 4 someAddresses zeroTasks (fun _ => 0) fun _ => 0).bind
      (runChoices code HandlersPass 4
        ([.timer, .timer, .timer] ++ List.replicate 4 .go))).any
      (fun c => c.k.tasks.state 4 = .blocked ∧
        (c.k.mutex .kbd).locked = 0) = true := by
    decide +kernel
  rw [hboot, Option.bind_some] at hruns
  obtain ⟨c, hrun, hblocked, hfree⟩ := exists_run code HandlersPass 4 _ c₀ _ hruns
  exact ⟨c₀, c, hboot, hrun, hblocked,
    (shell_waits_for_keys hboot hrun hblocked).2 hfree⟩

end BabOs.Main
