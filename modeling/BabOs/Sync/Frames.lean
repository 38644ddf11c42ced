import BabOs.Sync.States

/-!
# How activations move

A step works on the topmost activation of the running task: it moves it on,
starts a handler on top of it, or ends it.  Each way in which a program counter
can change is listed once; what is asked of the activations of a run is then
asked of this list.
-/

namespace BabOs.Sync

open BabOs.Sched BabOs.Chain

variable {M C L D : Type*}

/-- The calls that return without giving up the processor or a mutex. -/
def Act.Plain : Act M C → Prop
  | .skip => True
  | .signal _ => True
  | .broadcast _ => True
  | _ => False

/-- The location of an activation, or the one at which it will be when the
function has returned. -/
def Pc.loc : Pc M C L → L
  | .user l => l
  | .lockYield _ l => l
  | .lockRetry _ l => l
  | .waitYield _ _ l => l
  | .waitRelock _ _ l => l
  | .sleepMark l => l
  | .sleepYield l => l

/-- The activation has just put its task on a queue. -/
def Pc.Yields : Pc M C L → Prop
  | .lockYield _ _ => True
  | .waitYield _ _ _ => True
  | _ => False

/-- How a step may change the program counter of an activation. -/
inductive PcStep (P : Program M C L D) (d d' : D) :
    Label M C L → Pc M C L → Pc M C L → Prop
  | plain {l l' : L} {act : Act M C} (hmove : P.move l d act l' d')
      (hact : act.Plain) : PcStep P d d' (.call act) (.user l) (.user l')
  | lock {l l' : L} {m : M} (hmove : P.move l d (.lock m) l' d') :
      PcStep P d d' (.call (.lock m)) (.user l) (.user l')
  | lockYield {l l' : L} {m : M} (hmove : P.move l d (.lock m) l' d') :
      PcStep P d d' (.call (.lock m)) (.user l) (.lockYield m l')
  | unlock {l l' : L} {m : M} (hmove : P.move l d (.unlock m) l' d') :
      PcStep P d d' (.call (.unlock m)) (.user l) (.user l')
  | wait {l l' : L} {v : C} {m : M} (hmove : P.move l d (.wait v m) l' d') :
      PcStep P d d' (.call (.wait v m)) (.user l) (.waitYield v m l')
  | sleep {l l' : L} {ms : ℕ} (hmove : P.move l d (.sleep ms) l' d') :
      PcStep P d d' (.call (.sleep ms)) (.user l) (.sleepMark l')
  | sleepYield {l : L} (hdata : d' = d) :
      PcStep P d d' .sleeping (.sleepMark l) (.sleepYield l)
  | yield {pc pc' : Pc M C L} (hdata : d' = d)
      (hpc : afterYield pc = some pc') : PcStep P d d' .yield pc pc'
  | relock {pc : Pc M C L} {m : M} {l : L} (hdata : d' = d)
      (hpc : retries pc = some (m, l)) :
      PcStep P d d' (.retry m) pc (.user l)
  | retryYield {pc : Pc M C L} {m : M} {l : L} (hdata : d' = d)
      (hpc : retries pc = some (m, l)) :
      PcStep P d d' (.retry m) pc (.lockYield m l)

inductive StackStep (P : Program M C L D) (a : Label M C L)
    (c c' : Config M C L D) : Prop
  | keeps (hstack : c'.stack = c.stack) (ha : a = .timer ∨ a = .irq none)
      (hdata : c'.data = c.data ∨ P.irq c.data c'.data none)
  | moves {r : ℕ} {f g : Frame M C L} {fs : List (Frame M C L)}
      (hr : c.k.tasks.runningTask = some r) (hf : c.stack r = f :: fs)
      (hstack : c'.stack = Function.update c.stack r (g :: fs))
      (hpc : PcStep P c.data c'.data a f.pc g.pc)
      (hyields : g.pc.Yields → a.Suspends c)
  | enters {r : ℕ} {f : Frame M C L} {fs : List (Frame M C L)} {l : L}
      (ha : a = .irq (some l)) (hr : c.k.tasks.runningTask = some r)
      (hf : c.stack r = f :: fs) (hirq : P.irq c.data c'.data (some l))
      (hstack : c'.stack = Function.update c.stack r
        ({ pc := .user l, irqOn := false, holds := [] } :: f :: fs))
  | returns {r : ℕ} {f g : Frame M C L} {fs : List (Frame M C L)} {l l' : L}
      (ha : a = .call .iret) (hr : c.k.tasks.runningTask = some r)
      (hf : c.stack r = f :: g :: fs) (hpc : f.pc = .user l)
      (hmove : P.move l c.data .iret l' c'.data)
      (hstack : c'.stack = Function.update c.stack r (g :: fs))

/-- An activation that is inside a function has called it. -/
def Called (P : Program M C L D) : Pc M C L → Prop
  | .user _ => True
  | .lockYield m l | .lockRetry m l =>
      ∃ l₀ d d', P.move l₀ d (.lock m) l d' ∨ ∃ v, P.move l₀ d (.wait v m) l d'
  | .waitYield v m l | .waitRelock v m l =>
      ∃ l₀ d d', P.move l₀ d (.wait v m) l d'
  | .sleepMark l | .sleepYield l => ∃ l₀ d d' ms, P.move l₀ d (.sleep ms) l d'

/-- The locations of the activations of a task, the topmost first. -/
def Config.locs (c : Config M C L D) (t : ℕ) : List L :=
  (c.stack t).map (·.pc.loc)

/-- What is left of a step when one forgets who may run and who waits: an
activation moves on, a handler starts or one returns. -/
inductive LocStep (P : Program M C L D) (S S' : ℕ → List L) (d d' : D) : Prop
  | stays (hlocs : S' = S) (hdata : d' = d)
  | interrupts (hlocs : S' = S) (hirq : P.irq d d' none)
  | moves {t : ℕ} {l l' : L} {ls : List L} {act : Act M C} (hl : S t = l :: ls)
      (hlocs : S' = Function.update S t (l' :: ls)) (hmove : P.move l d act l' d')
  | enters {t : ℕ} {l : L} (hlocs : S' = Function.update S t (l :: S t))
      (hirq : P.irq d d' (some l))
  | returns {t : ℕ} {l l' : L} {ls : List L} (hl : S t = l :: ls)
      (hlocs : S' = Function.update S t ls) (hmove : P.move l d .iret l' d')

/-! ## Program counters -/

section Pcs

variable {P : Program M C L D} {d d' : D} {a : Label M C L}
  {pc pc' : Pc M C L} {m : M} {l : L}

theorem loc_afterYield (hpc : afterYield pc = some pc') : pc'.loc = pc.loc := by
  cases pc with
  | lockYield | waitYield | sleepYield =>
      cases hpc
      rfl
  | user | lockRetry | waitRelock | sleepMark => cases hpc

theorem loc_retries (hpc : retries pc = some (m, l)) : pc.loc = l := by
  cases pc with
  | lockRetry | waitRelock =>
      cases hpc
      rfl
  | user | lockYield | waitYield | sleepMark | sleepYield => cases hpc

theorem not_yields_afterYield (hpc : afterYield pc = some pc') :
    ¬pc'.Yields := by
  cases pc with
  | lockYield | waitYield | sleepYield =>
      cases hpc
      exact id
  | user | lockRetry | waitRelock | sleepMark => cases hpc

theorem called_afterYield (h : Called P pc) (hpc : afterYield pc = some pc') :
    Called P pc' := by
  cases pc with
  | lockYield m l =>
      cases hpc
      exact h
  | waitYield v m l =>
      cases hpc
      exact h
  | sleepYield l =>
      cases hpc
      trivial
  | user | lockRetry | waitRelock | sleepMark => cases hpc

/-- A task that locks a mutex again has called one of the two functions that
lock it. -/
theorem called_retries (h : Called P pc) (hpc : retries pc = some (m, l)) :
    ∃ l₀ d d', P.move l₀ d (.lock m) l d' ∨
      ∃ v, P.move l₀ d (.wait v m) l d' := by
  cases pc with
  | lockRetry m l =>
      cases hpc
      exact h
  | waitRelock v m l =>
      cases hpc
      obtain ⟨l₀, d, d', hmove⟩ := h
      exact ⟨l₀, d, d', Or.inr ⟨v, hmove⟩⟩
  | user | lockYield | waitYield | sleepMark | sleepYield => cases hpc

theorem PcStep.called (h : PcStep P d d' a pc pc') (hcalled : Called P pc) :
    Called P pc' := by
  cases h with
  | plain | lock | unlock | relock => trivial
  | lockYield hmove => exact ⟨_, _, _, Or.inl hmove⟩
  | wait hmove => exact ⟨_, _, _, hmove⟩
  | sleep hmove => exact ⟨_, _, _, _, hmove⟩
  | sleepYield => exact hcalled
  | yield hdata hpc => exact called_afterYield hcalled hpc
  | retryYield hdata hpc => exact called_retries hcalled hpc

/-- The location changes in a move of the code, and in no other step. -/
theorem PcStep.loc (h : PcStep P d d' a pc pc') :
    (∃ act, P.move pc.loc d act pc'.loc d') ∨ pc'.loc = pc.loc ∧ d' = d := by
  cases h with
  | plain hmove hact => exact Or.inl ⟨_, hmove⟩
  | lock hmove => exact Or.inl ⟨_, hmove⟩
  | lockYield hmove => exact Or.inl ⟨_, hmove⟩
  | unlock hmove => exact Or.inl ⟨_, hmove⟩
  | wait hmove => exact Or.inl ⟨_, hmove⟩
  | sleep hmove => exact Or.inl ⟨_, hmove⟩
  | sleepYield hdata => exact Or.inr ⟨rfl, hdata⟩
  | yield hdata hpc => exact Or.inr ⟨loc_afterYield hpc, hdata⟩
  | relock hdata hpc => exact Or.inr ⟨(loc_retries hpc).symm, hdata⟩
  | retryYield hdata hpc => exact Or.inr ⟨(loc_retries hpc).symm, hdata⟩

end Pcs

/-! ## Steps -/

section Steps

variable [DecidableEq M] [DecidableEq C] {P : Program M C L D}
  {timer : ℕ → Tasks → ℕ → Tasks → Prop} {a : Label M C L}
  {c c' : Config M C L D} {r t : ℕ} {m : M} {l : L}
  {f : Frame M C L} {fs : List (Frame M C L)}

/-- What a test of a mutex does: it takes the mutex, or the task puts itself on
the queue and is about to yield. -/
theorem lockStep_cases {fuel : ℕ} (h : lockStep fuel m r l f fs c = some c') :
    c'.data = c.data ∧ (∀ t, t ≠ r → c'.stack t = c.stack t) ∧
      ∃ g, c'.stack r = g :: fs ∧
        ((c.k.mutex m).locked = 0 ∧ g.pc = .user l ∧
            c'.k = c.k.setMutex m { c.k.mutex m with
              locked := 1, owner := some r } ∨
          (c.k.mutex m).locked ≠ 0 ∧ g.pc = .lockYield m l ∧
            enqueue fuel (.mutex m) r c.k = some c'.k) := by
  rw [lockStep] at h
  split at h
  · cases h
  next k hk =>
    cases h
    refine ⟨rfl, fun t ht => Function.update_of_ne ht _ _, _,
      Function.update_self _ _ _, ?_⟩
    rcases mutexTest_eq_some hk with ⟨-, hfree, rfl⟩ | ⟨hb, -⟩
    · exact Or.inl ⟨hfree, rfl, rfl⟩
    · cases hb
  next k hk =>
    cases h
    refine ⟨rfl, fun t ht => Function.update_of_ne ht _ _, _,
      Function.update_self _ _ _, ?_⟩
    rcases mutexTest_eq_some hk with ⟨hb, -⟩ | ⟨-, hlocked, henqueue⟩
    · cases hb
    · exact Or.inr ⟨hlocked, rfl, henqueue⟩

theorem lockStep_stackStep {fuel : ℕ} {d : D}
    (hr : c.k.tasks.runningTask = some r) (hf : c.stack r = f :: fs)
    (htake : PcStep P c.data d a f.pc (.user l))
    (hyield : PcStep P c.data d a f.pc (.lockYield m l))
    (hsuspends : (c.k.mutex m).locked ≠ 0 → a.Suspends c)
    (h : lockStep fuel m r l f fs { c with data := d } = some c') :
    StackStep P a c c' := by
  obtain ⟨f', hstack⟩ := lockStep_stack h
  obtain ⟨hdata, -, g, hg, hcase⟩ := lockStep_cases h
  rw [hstack, Function.update_self] at hg
  obtain ⟨rfl, -⟩ := List.cons.inj hg
  refine StackStep.moves hr hf hstack ?_ ?_
  · rw [hdata]
    rcases hcase with ⟨-, hpc, -⟩ | ⟨-, hpc, -⟩ <;> rw [hpc]
    · exact htake
    · exact hyield
  · intro hyields
    rcases hcase with ⟨-, hpc, -⟩ | ⟨hlocked, -, -⟩
    · rw [hpc] at hyields
      exact absurd hyields id
    · exact hsuspends hlocked

theorem Step.stackStep (h : Step P timer a c c') : StackStep P a c c' := by
  cases h with
  | skip hr hf hpc hmove =>
      refine StackStep.moves hr hf rfl ?_ False.elim
      rw [hpc]
      exact PcStep.plain hmove trivial
  | lock hr hf hpc hmove htest =>
      refine lockStep_stackStep hr hf ?_ ?_ id htest <;> rw [hpc]
      · exact PcStep.lock hmove
      · exact PcStep.lockYield hmove
  | retry hr hf hpc htest =>
      exact lockStep_stackStep (d := c.data) hr hf (PcStep.relock rfl hpc)
        (PcStep.retryYield rfl hpc) id htest
  | unlock hr hf hpc hmove =>
      refine StackStep.moves hr hf rfl ?_ False.elim
      rw [hpc]
      exact PcStep.unlock hmove
  | wait hr hf hpc hmove hwait =>
      refine StackStep.moves hr hf rfl ?_ fun _ => trivial
      rw [hpc]
      exact PcStep.wait hmove
  | signal hr hf hpc hmove =>
      refine StackStep.moves hr hf rfl ?_ False.elim
      rw [hpc]
      exact PcStep.plain hmove trivial
  | broadcast hr hf hpc hmove hcast =>
      refine StackStep.moves hr hf rfl ?_ False.elim
      rw [hpc]
      exact PcStep.plain hmove trivial
  | sleep hr hf hpc hmove =>
      refine StackStep.moves hr hf rfl ?_ False.elim
      rw [hpc]
      exact PcStep.sleep hmove
  | sleepMark hr hf hpc =>
      refine StackStep.moves hr hf rfl ?_ False.elim
      rw [hpc]
      exact PcStep.sleepYield rfl
  | @yield _ r f fs pc' tick' T' hr hf hpc htimer =>
      refine StackStep.moves hr hf rfl (PcStep.yield rfl hpc) fun hyields => ?_
      exact absurd hyields (not_yields_afterYield hpc)
  | timer hr hf hirq htimer =>
      exact StackStep.keeps rfl (Or.inl rfl) (Or.inl rfl)
  | irqDone hr hf hirq hdata =>
      exact StackStep.keeps rfl (Or.inr rfl) (Or.inr hdata)
  | irqEnter hr hf hirq hdata =>
      exact StackStep.enters rfl hr hf hdata rfl
  | iret hr hf hpc hmove =>
      exact StackStep.returns rfl hr hf hpc hmove rfl

/-- A call is a move of the code at the location of the topmost activation. -/
theorem Step.move {act : Act M C} (h : Step P timer (.call act) c c') :
    ∃ r f fs l l', c.k.tasks.runningTask = some r ∧ c.stack r = f :: fs ∧
      f.pc = .user l ∧ P.move l c.data act l' c'.data ∧
      (act.Plain → ∃ g, c'.stack r = g :: fs ∧ g.pc = .user l') := by
  cases h with
  | skip hr hf hpc hmove =>
      exact ⟨_, _, _, _, _, hr, hf, hpc, hmove,
        fun _ => ⟨_, Function.update_self _ _ _, rfl⟩⟩
  | signal hr hf hpc hmove =>
      exact ⟨_, _, _, _, _, hr, hf, hpc, hmove,
        fun _ => ⟨_, Function.update_self _ _ _, rfl⟩⟩
  | broadcast hr hf hpc hmove hcast =>
      exact ⟨_, _, _, _, _, hr, hf, hpc, hmove,
        fun _ => ⟨_, Function.update_self _ _ _, rfl⟩⟩
  | @lock _ _ r f fs l l' d' m fuel hr hf hpc hmove htest =>
      have hdata : c'.data = d' := (lockStep_cases htest).1
      rw [← hdata] at hmove
      exact ⟨_, _, _, _, _, hr, hf, hpc, hmove, False.elim⟩
  | unlock hr hf hpc hmove =>
      exact ⟨_, _, _, _, _, hr, hf, hpc, hmove, False.elim⟩
  | wait hr hf hpc hmove hwait =>
      exact ⟨_, _, _, _, _, hr, hf, hpc, hmove, False.elim⟩
  | sleep hr hf hpc hmove =>
      exact ⟨_, _, _, _, _, hr, hf, hpc, hmove, False.elim⟩
  | iret hr hf hpc hmove =>
      exact ⟨_, _, _, _, _, hr, hf, hpc, hmove, False.elim⟩

theorem Step.handler {l : L} (h : Step P timer (.irq (some l)) c c') :
    ∃ r fs, c.k.tasks.runningTask = some r ∧
      P.irq c.data c'.data (some l) ∧
      c'.stack r = { pc := .user l, irqOn := false, holds := [] } :: fs ∧
      c'.k = c.k := by
  cases h with
  | irqEnter hr hf hirq hdata =>
      exact ⟨_, _, hr, hdata, Function.update_self _ _ _, rfl⟩

omit [DecidableEq M] [DecidableEq C] in
theorem mem_update {S : ℕ → List (Frame M C L)} {gs : List (Frame M C L)}
    {x : Frame M C L} (h : x ∈ Function.update S r gs t) : x ∈ gs ∨ x ∈ S t := by
  by_cases ht : t = r
  · subst ht
    rw [Function.update_self] at h
    exact Or.inl h
  · rw [Function.update_of_ne ht] at h
    exact Or.inr h

/-- What the moves of the program counters and the starts of the handlers keep
holds of the activations after a step. -/
theorem Step.pcs {p : Pc M C L → Prop} (h : Step P timer a c c')
    (hc : ∀ t, ∀ f ∈ c.stack t, p f.pc)
    (hmove : ∀ {pc pc'}, PcStep P c.data c'.data a pc pc' → p pc → p pc')
    (hirq : ∀ {l}, P.irq c.data c'.data (some l) → p (.user l)) :
    ∀ t, ∀ f ∈ c'.stack t, p f.pc := by
  intro t x hx
  cases h.stackStep with
  | keeps hstack ha hdata => exact hc t x (hstack ▸ hx)
  | moves hr hf hstack hpc hyields =>
      rw [hstack] at hx
      rcases mem_update hx with hx | hx
      · rcases List.mem_cons.mp hx with rfl | hx
        · exact hmove hpc (hc _ _ (hf ▸ List.mem_cons_self))
        · exact hc _ x (hf ▸ List.mem_cons_of_mem _ hx)
      · exact hc t x hx
  | enters ha hr hf hdata hstack =>
      rw [hstack, ← hf] at hx
      rcases mem_update hx with hx | hx
      · rcases List.mem_cons.mp hx with rfl | hx
        · exact hirq hdata
        · exact hc _ x hx
      · exact hc t x hx
  | returns ha hr hf hpc hmove hstack =>
      rw [hstack] at hx
      rcases mem_update hx with hx | hx
      · exact hc _ x (hf ▸ List.mem_cons_of_mem _ hx)
      · exact hc t x hx

theorem Step.called (h : Step P timer a c c')
    (hc : ∀ t, ∀ f ∈ c.stack t, Called P f.pc) :
    ∀ t, ∀ f ∈ c'.stack t, Called P f.pc :=
  h.pcs hc PcStep.called fun _ => trivial

omit [DecidableEq M] [DecidableEq C] in
theorem locs_update {gs : List (Frame M C L)}
    (hstack : c'.stack = Function.update c.stack r gs) :
    c'.locs = Function.update c.locs r (gs.map (·.pc.loc)) := by
  funext t
  rw [Config.locs, hstack]
  by_cases ht : t = r
  · subst ht
    rw [Function.update_self, Function.update_self]
  · rw [Function.update_of_ne ht, Function.update_of_ne ht, Config.locs]

theorem Step.locStep (h : Step P timer a c c') :
    LocStep P c.locs c'.locs c.data c'.data := by
  cases h.stackStep with
  | keeps hstack ha hdata =>
      have hlocs : c'.locs = c.locs := by
        funext t
        rw [Config.locs, hstack, Config.locs]
      rcases hdata with hdata | hirq
      · exact LocStep.stays hlocs hdata
      · exact LocStep.interrupts hlocs hirq
  | @moves r f g fs hr hf hstack hpc hyields =>
      have hlocs := locs_update hstack
      have hl : c.locs r = f.pc.loc :: fs.map (·.pc.loc) := by
        rw [Config.locs, hf, List.map_cons]
      rcases hpc.loc with ⟨act, hmove⟩ | ⟨heq, hdata⟩
      · exact LocStep.moves hl hlocs hmove
      · refine LocStep.stays ?_ hdata
        rw [hlocs, List.map_cons, heq, ← hl, Function.update_eq_self]
  | @enters r f fs l ha hr hf hirq hstack =>
      refine LocStep.enters (t := r) ?_ hirq
      rw [locs_update hstack, List.map_cons, Config.locs, hf]
      rfl
  | @returns r f g fs l l' ha hr hf hpc hmove hstack =>
      refine LocStep.returns (t := r) (l := l) ?_ (locs_update hstack) hmove
      rw [Config.locs, hf, List.map_cons, hpc]
      rfl

end Steps

end BabOs.Sync
