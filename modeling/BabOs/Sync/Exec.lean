import BabOs.Sync.Model

/-!
# Running code

When the code is given by functions, the machine can be run: a list of
choices says at each step whether the running activation goes on or an
interrupt comes.  What is computed is a run of the step relation.
-/

namespace BabOs.Sync

open BabOs.Sched

/-- Code that is given by functions.  `next l d` is what is done at `l`, and
`irq e d` is what the interrupt `e` does to the data and where its handler
starts. -/
structure Code (M C L D E : Type*) where
  next : L → D → Option (Act M C × L × D)
  irq : E → D → D × Option L

def Code.program {M C L D E : Type*} (code : Code M C L D E) :
    Program M C L D where
  move l d a l' d' := code.next l d = some (a, l', d')
  irq d d' h := ∃ e, code.irq e d = (d', h)

/-- What happens next: the running activation goes on, the timer interrupts
it, or the interrupt `e` comes. -/
inductive Choice (E : Type*)
  | go
  | timer
  | irq (e : E)

variable {M C L D E : Type*} [DecidableEq M] [DecidableEq C]

/-- The effect of the call `a` by the topmost activation `f` of `r`, which is
at `l'` when the call is done. -/
def callStep (fuel r : ℕ) (f : Frame M C L) (fs : List (Frame M C L))
    (l' : L) (d' : D) (a : Act M C) (c : Config M C L D) :
    Option (Config M C L D) :=
  match a with
  | .skip =>
      some { c.setStack r ({ f with pc := .user l' } :: fs) with data := d' }
  | .lock m => lockStep fuel m r l' f fs { c with data := d' }
  | .unlock m =>
      some { (c.noteUnlock m).setStack r
          ({ pc := .user l', irqOn := true,
             holds := f.holds.filter (· ≠ m) } :: fs) with
        k := mutexUnlock m c.k
        data := d' }
  | .wait v m =>
      match condWaitEnter fuel v m r c.k with
      | none => none
      | some k' =>
          some { (c.noteUnlock m).setStack r
              ({ pc := .waitYield v m l', irqOn := true,
                 holds := f.holds.filter (· ≠ m) } :: fs) with
            k := k'
            data := d'
            since := Function.update c.since r c.clock
            clock := c.clock + 1 }
  | .signal v =>
      some { c.setStack r ({ f with pc := .user l', irqOn := true } :: fs) with
        k := condSignal v c.k
        data := d' }
  | .broadcast v =>
      match condBroadcast v fuel c.k with
      | none => none
      | some k' =>
          some
            { c.setStack r ({ f with pc := .user l', irqOn := true } :: fs) with
              k := k'
              data := d' }
  | .sleep ms =>
      some { c.setStack r ({ f with pc := .sleepMark l' } :: fs) with
        k := setSleepTicks r (ticksToWait ms) c.k
        data := d' }
  | .iret =>
      match fs with
      | [] => none
      | g :: fs => some { c.setStack r (g :: fs) with data := d' }

/-- The timer interrupt in the step of `f`, which stands at `pc'` after it. -/
def timerStep (fuel r : ℕ) (f : Frame M C L) (fs : List (Frame M C L))
    (pc' : Pc M C L) (c : Config M C L D) : Option (Config M C L D) :=
  match timerCallback fuel 0 c.k.tick c.k.tasks with
  | none => none
  | some (_, tick', T') =>
      some { c.setStack r ({ f with pc := pc' } :: fs) with
        k := { c.k with tasks := T', tick := tick' } }

/-- The running activation goes on. -/
def goStep (code : Code M C L D E) (fuel r : ℕ) (f : Frame M C L)
    (fs : List (Frame M C L)) (c : Config M C L D) :
    Option (Label M C L × Config M C L D) :=
  match f.pc with
  | .user l =>
      match code.next l c.data with
      | none => none
      | some (a, l', d') =>
          (callStep fuel r f fs l' d' a c).map fun c' => (.call a, c')
  | .lockRetry m l =>
      (lockStep fuel m r l f fs c).map fun c' => (.retry m, c')
  | .waitRelock _ m l =>
      (lockStep fuel m r l f fs c).map fun c' => (.retry m, c')
  | .sleepMark l =>
      some (.sleeping, { c.setStack r ({ f with pc := .sleepYield l } :: fs) with
        k := c.k.setState r .sleeping })
  | .lockYield m l =>
      (timerStep fuel r f fs (.lockRetry m l) c).map fun c' => (.yield, c')
  | .waitYield v m l =>
      (timerStep fuel r f fs (.waitRelock v m l) c).map fun c' => (.yield, c')
  | .sleepYield l =>
      (timerStep fuel r f fs (.user l) c).map fun c' => (.yield, c')

/-- One step.  Interrupts come only where they are enabled. -/
def advance (code : Code M C L D E) (fuel : ℕ) (choice : Choice E)
    (c : Config M C L D) : Option (Label M C L × Config M C L D) :=
  match c.k.tasks.runningTask with
  | none => none
  | some r =>
      match c.stack r with
      | [] => none
      | f :: fs =>
          match choice with
          | .go => goStep code fuel r f fs c
          | .timer =>
              if f.irqOn then
                match timerCallback fuel 0 c.k.tick c.k.tasks with
                | none => none
                | some (_, tick', T') =>
                    some (.timer,
                      { c with k := { c.k with tasks := T', tick := tick' } })
              else none
          | .irq e =>
              if f.irqOn then
                match code.irq e c.data with
                | (d', none) => some (.irq none, { c with data := d' })
                | (d', some l) =>
                    some (.irq (some l), { c.setStack r
                        ({ pc := .user l, irqOn := false, holds := [] } ::
                          f :: fs) with
                      data := d' })
              else none

/-- A run that makes the given choices; `ok` is checked before each step. -/
def runChoices (code : Code M C L D E)
    (ok : Label M C L → Config M C L D → Prop)
    [∀ a c, Decidable (ok a c)] (fuel : ℕ) :
    List (Choice E) → Config M C L D → Option (Config M C L D)
  | [], c => some c
  | choice :: choices, c =>
      match advance code fuel choice c with
      | none => none
      | some (a, c') =>
          if ok a c then runChoices code ok fuel choices c' else none

section Soundness

variable {code : Code M C L D E} {c c' : Config M C L D} {r fuel : ℕ}
  {f : Frame M C L} {fs : List (Frame M C L)}

theorem callStep_step {a : Act M C} {l l' : L} {d' : D}
    (hr : c.k.tasks.runningTask = some r) (hf : c.stack r = f :: fs)
    (hpc : f.pc = .user l) (hmove : code.next l c.data = some (a, l', d'))
    (h : callStep fuel r f fs l' d' a c = some c') :
    Step code.program codeTimer (.call a) c c' := by
  cases a with
  | skip =>
      cases h
      exact Step.skip hr hf hpc hmove
  | lock m => exact Step.lock hr hf hpc hmove h
  | unlock m =>
      cases h
      exact Step.unlock hr hf hpc hmove
  | wait v m =>
      simp only [callStep] at h
      split at h
      · cases h
      next k' hwait =>
        cases h
        exact Step.wait hr hf hpc hmove hwait
  | signal v =>
      cases h
      exact Step.signal hr hf hpc hmove
  | broadcast v =>
      simp only [callStep] at h
      split at h
      · cases h
      next k' hcast =>
        cases h
        exact Step.broadcast hr hf hpc hmove hcast
  | sleep ms =>
      cases h
      exact Step.sleep hr hf hpc hmove
  | iret =>
      cases fs with
      | nil => cases h
      | cons g fs =>
          cases h
          exact Step.iret hr hf hpc hmove

theorem timerStep_step {pc' : Pc M C L}
    (hr : c.k.tasks.runningTask = some r) (hf : c.stack r = f :: fs)
    (hpc : afterYield f.pc = some pc')
    (h : timerStep fuel r f fs pc' c = some c') :
    Step code.program codeTimer .yield c c' := by
  rw [timerStep] at h
  split at h
  · cases h
  next htimer =>
    cases h
    exact Step.yield hr hf hpc ⟨fuel, 0, _, htimer⟩

theorem goStep_step {a : Label M C L}
    (hr : c.k.tasks.runningTask = some r) (hf : c.stack r = f :: fs)
    (h : goStep code fuel r f fs c = some (a, c')) :
    Step code.program codeTimer a c c' := by
  have hmap : ∀ {b : Label M C L} {o : Option (Config M C L D)},
      (o.map fun c' => (b, c')) = some (a, c') → a = b ∧ o = some c' := by
    intro b o ho
    obtain ⟨x, hx, heq⟩ := Option.map_eq_some_iff.mp ho
    cases heq
    exact ⟨rfl, hx⟩
  rw [goStep] at h
  split at h
  next l hpc =>
    split at h
    · cases h
    next hmove =>
      obtain ⟨rfl, hcall⟩ := hmap h
      exact callStep_step hr hf hpc hmove hcall
  next m l hpc =>
    obtain ⟨rfl, htest⟩ := hmap h
    exact Step.retry hr hf (by rw [hpc, retries]) htest
  next v m l hpc =>
    obtain ⟨rfl, htest⟩ := hmap h
    exact Step.retry hr hf (by rw [hpc, retries]) htest
  next l hpc =>
    cases h
    exact Step.sleepMark hr hf hpc
  next m l hpc =>
    obtain ⟨rfl, htimer⟩ := hmap h
    exact timerStep_step hr hf (by rw [hpc, afterYield]) htimer
  next v m l hpc =>
    obtain ⟨rfl, htimer⟩ := hmap h
    exact timerStep_step hr hf (by rw [hpc, afterYield]) htimer
  next l hpc =>
    obtain ⟨rfl, htimer⟩ := hmap h
    exact timerStep_step hr hf (by rw [hpc, afterYield]) htimer

theorem advance_step {a : Label M C L} {choice : Choice E}
    (h : advance code fuel choice c = some (a, c')) :
    Step code.program codeTimer a c c' := by
  rw [advance] at h
  split at h
  · cases h
  next r hr =>
    split at h
    · cases h
    next f fs hf =>
      cases choice with
      | go => exact goStep_step hr hf h
      | timer =>
          dsimp only at h
          split_ifs at h with hirq
          split at h
          · cases h
          next htimer =>
            cases h
            exact Step.timer hr hf hirq ⟨fuel, 0, _, htimer⟩
      | irq e =>
          dsimp only at h
          split_ifs at h with hirq
          split at h
          next d' hdata =>
            cases h
            exact Step.irqDone hr hf hirq ⟨e, hdata⟩
          next d' l hdata =>
            cases h
            exact Step.irqEnter hr hf hirq ⟨e, hdata⟩

/-- What `runChoices` computes is reached by a run. -/
theorem runChoices_run {ok : Label M C L → Config M C L D → Prop}
    [∀ a c, Decidable (ok a c)] {choices : List (Choice E)}
    {c₀ : Config M C L D} (hrun : Run code.program codeTimer ok c₀ c)
    (h : runChoices code ok fuel choices c = some c') :
    Run code.program codeTimer ok c₀ c' := by
  induction choices generalizing c with
  | nil =>
      cases h
      exact hrun
  | cons choice choices ih =>
      rw [runChoices] at h
      split at h
      · cases h
      next hstep =>
        split_ifs at h with hok
        exact ih (hrun.tail hok (advance_step hstep)) h

/-- A computed run ends in a state that passes a test. -/
theorem exists_run (code : Code M C L D E)
    (ok : Label M C L → Config M C L D → Prop) [∀ a c, Decidable (ok a c)]
    (fuel : ℕ) (choices : List (Choice E)) (c₀ : Config M C L D)
    (p : Config M C L D → Prop) [DecidablePred p]
    (h : (runChoices code ok fuel choices c₀).any (fun c => p c) = true) :
    ∃ c, Run code.program codeTimer ok c₀ c ∧ p c := by
  cases hc : runChoices code ok fuel choices c₀ with
  | none =>
      rw [hc] at h
      cases h
  | some c =>
      rw [hc, Option.any_some] at h
      exact ⟨c, runChoices_run (Run.refl c₀) hc, of_decide_eq_true h⟩

end Soundness

end BabOs.Sync
