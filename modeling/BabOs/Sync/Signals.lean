import BabOs.Sync.Membership
import BabOs.Sync.Regions
import BabOs.Sync.Sound

/-!
# Signals that are not lost

A task that waits for a condition of a monitor gave up the monitor because the
condition did not hold.  Whoever makes it hold is inside the monitor, and owes a
signal from then on.  So while a task waits, the condition does not hold or a
signal is on its way, as long as each condition has one task that waits for it.
-/

namespace BabOs.Sync

open BabOs.Sched BabOs.Chain

variable {M C L D : Type*}

/-- What the code of a monitor does for those who wait.  Code that waits has
found the condition `unmet`, and code that changes this, `owes` a signal until
it gives it. -/
structure SignalRule (P : Program M C L D) (m : M) (inside : L → Prop)
    (good : L → D → Prop) (unmet : C → D → Prop) (owes : C → L → Prop) :
    Prop where
  waits : ∀ {l d v m' l' d'}, P.move l d (.wait v m') l' d' →
    (inside l → good l d) → unmet v d'
  moves : ∀ {v l d act l' d'}, inside l → good l d → P.move l d act l' d' →
    act.Plain → unmet v d → unmet v d' ∨ owes v l'
  owed : ∀ {v l d act l' d'}, owes v l → P.move l d act l' d' →
    act.Plain ∧ (owes v l' ∨ act = .signal v)
  leaves : ∀ {v l d act l' d'}, P.move l d act l' d' →
    Label.Releases m (.call act : Label M C L) → unmet v d → unmet v d'
  outside : ∀ {v d d'}, Outside P inside d d' → unmet v d → unmet v d'

/-- While a task waits, the condition does not hold or a signal is owed. -/
def Signalled (inside : L → Prop) (unmet : C → D → Prop) (owes : C → L → Prop)
    (c : Config M C L D) : Prop :=
  ∀ v t, c.k.BlockedOn (.cond v) t →
    unmet v c.data ∨ ∃ t i l, (t, i, l) ∈ places inside c.stack ∧ owes v l

/-! ## Joining and leaving the queue of a condition -/

section Queues

variable {tl : List ℕ} {Q Q' : Queue M C → List ℕ} {P : Program M C L D}
  {a : Label M C L} {c c' : Config M C L D} {q : Queue M C} {v : C} {t : ℕ}
  {pc : Pc M C L} {m : M} {l : L} {d d' : D}

theorem Sound.mem_of_blockedOn (h : Sound tl c Q)
    (hblocked : c.k.BlockedOn q t) : t ∈ Q q :=
  (h.waiting.chain q).onChain_iff.mp hblocked.2

theorem Pc.Yields.eq_waitYield (h : pc.Yields)
    (hq : pc.waitsOn = some (.cond v)) : ∃ m l, pc = .waitYield v m l := by
  cases pc with
  | waitYield v' m l =>
      cases hq
      exact ⟨m, l, rfl⟩
  | lockYield => cases hq
  | user | lockRetry | waitRelock | sleepMark | sleepYield => exact absurd h id

theorem Pc.Yields.waitsOn_ne_none (h : pc.Yields) : pc.waitsOn ≠ none := by
  cases pc with
  | lockYield | waitYield => exact Option.some_ne_none _
  | user | lockRetry | waitRelock | sleepMark | sleepYield => exact absurd h id

theorem PcStep.of_waitYield (h : PcStep P d d' a pc (.waitYield v m l)) :
    ∃ l₀, pc = .user l₀ ∧ P.move l₀ d (.wait v m) l d' := by
  cases h with
  | wait hmove => exact ⟨_, rfl, hmove⟩
  | yield hdata hpc => exact absurd trivial (not_yields_afterYield hpc)

variable [DecidableEq M] [DecidableEq C]

/-- A task joins the queue of a condition by waiting for it. -/
theorem Sound.joins_cond (h : Sound tl c' Q') (hstep : Step P codeTimer a c c')
    (hblocked : c'.k.BlockedOn (.cond v) t) :
    c.k.BlockedOn (.cond v) t ∨ ∃ f fs l m l', c.stack t = f :: fs ∧
      f.pc = .user l ∧ P.move l c.data (.wait v m) l' c'.data := by
  rcases hstep.joins hblocked with hold | ⟨hr, hsuspends, f, fs, hf, hyields⟩
  · exact Or.inl hold
  · right
    have hstands := h.stands _ t (h.mem_of_blockedOn hblocked)
    rw [hf] at hstands
    have hq : f.pc.waitsOn = some (.cond v) :=
      hstands.top_cases.resolve_right fun hnone =>
        hyields.waitsOn_ne_none hnone.1
    obtain ⟨m, l', hpc⟩ := hyields.eq_waitYield hq
    cases hstep.stackStep with
    | keeps hstack ha hdata =>
        rcases ha with rfl | rfl <;> exact absurd hsuspends id
    | moves hr' hf' hstack hpcs hyields' =>
        obtain rfl := Option.some.inj (hr.symm.trans hr')
        rw [hstack, Function.update_self] at hf
        obtain ⟨rfl, rfl⟩ := List.cons.inj hf
        rw [hpc] at hpcs
        obtain ⟨l, hl, hmove⟩ := hpcs.of_waitYield
        exact ⟨_, _, l, m, l', hf', hl, hmove⟩
    | enters ha hr' hf' hirq hstack =>
        subst ha
        exact absurd hsuspends id
    | returns ha hr' hf' hpc' hmove hstack =>
        subst ha
        exact absurd hsuspends id

theorem Sound.signal (h : Sound tl c Q)
    (hone : ∀ t ∈ Q (.cond v), ∀ u ∈ Q (.cond v), t = u)
    (hstep : Step P codeTimer (.call (.signal v)) c c') :
    ¬c'.k.BlockedOn (.cond v) t := by
  intro hblocked
  cases hstep with
  | signal hr hf hpc hmove =>
      have hmem := h.mem_of_blockedOn (blockedOn_wakeFirst hblocked)
      have hchain := h.waiting.chain (.cond v)
      have hstate := hblocked.1
      dsimp only at hstate
      rw [condSignal, state_wakeFirst] at hstate
      cases hq : Q (.cond v) with
      | nil =>
          rw [hq] at hmem
          cases hmem
      | cons w rest =>
          have hw : w = t := hone w (hq ▸ List.mem_cons_self) t hmem
          rw [hq] at hchain
          rw [hw] at hchain
          rw [if_pos hchain.1] at hstate
          cases hstate

end Queues

/-! ## The rule for signals -/

section Rule

variable {tl : List ℕ} {Q Q' : Queue M C → List ℕ} {P : Program M C L D}
  {a : Label M C L} {c c' : Config M C L D} {m : M} {inside : L → Prop}
  {rest : D → Prop} {good : L → D → Prop} {unmet : C → D → Prop}
  {owes : C → L → Prop}

theorem not_plain_of_releases {act : Act M C}
    (h : Label.Releases m (.call act : Label M C L)) : ¬act.Plain := by
  cases act with
  | unlock | wait => exact id
  | skip | lock | signal | broadcast | sleep | iret => exact absurd h id

variable [DecidableEq M] [DecidableEq C]

theorem Signalled.step (h : Signalled inside unmet owes c)
    (hrule : SignalRule P m inside good unmet owes)
    (hguards : Guards P m inside)
    (hcalled : ∀ t, ∀ f ∈ c.stack t, Called P f.pc)
    (hmonitored : Monitored m inside rest good c) (hsound : Sound tl c Q)
    (hone : ∀ v, ∀ t ∈ Q (.cond v), ∀ u ∈ Q (.cond v), t = u)
    (hsound' : Sound tl c' Q') (hstep : Step P codeTimer a c c') :
    Signalled inside unmet owes c' := by
  intro v t hblocked
  rcases hsound'.joins_cond hstep hblocked with
    hold | ⟨f, fs, l, m', l', hf, hpc, hmove⟩
  · cases hstep.regionStep hguards hcalled with
    | outside hplaces hlocked hdata =>
        rw [hplaces]
        exact (h v t hold).imp_left (hrule.outside hdata)
    | enters hfree hlocked hplaces hentry hdata =>
        rw [hplaces]
        refine (h v t hold).imp (hrule.outside hdata) ?_
        rintro ⟨t', i', l', hmem, howes⟩
        exact ⟨t', i', l', Set.mem_insert_of_mem _ hmem, howes⟩
    | @moves t₀ i l l' act ha hmem hplaces hlocked hmove hact =>
        rw [hplaces]
        rcases h v t hold with hunmet | ⟨t', i', l₁, hmem', howes⟩
        · refine (hrule.moves (inside_of_mem_places hmem)
            (hmonitored.good_of_mem hmem) hmove hact hunmet).imp_right ?_
          exact fun howes => ⟨t₀, i, l', Set.mem_insert _ _, howes⟩
        · by_cases heq : (t', i', l₁) = (t₀, i, l)
          · cases heq
            rcases (hrule.owed howes hmove).2 with howes' | rfl
            · exact Or.inr ⟨t₀, i, l', Set.mem_insert _ _, howes'⟩
            · exact absurd hblocked (hsound.signal (hone v) (ha ▸ hstep))
          · exact Or.inr ⟨t', i', l₁, Or.inr ⟨hmem', heq⟩, howes⟩
    | @leaves t₀ i l l' act hmem hplaces hfree hmove hact =>
        rw [hplaces]
        refine (h v t hold).imp (hrule.leaves hmove hact) ?_
        rintro ⟨t', i', l₁, hmem', howes⟩
        refine ⟨t', i', l₁, ⟨hmem', fun heq => ?_⟩, howes⟩
        cases heq
        exact not_plain_of_releases hact (hrule.owed howes hmove).1
  · refine Or.inl (hrule.waits hmove fun hl => ?_)
    exact hmonitored.good_of_mem ((mem_places_top hf).mpr ⟨hpc, hl⟩)

end Rule

end BabOs.Sync
