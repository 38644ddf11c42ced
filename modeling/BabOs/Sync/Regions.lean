import BabOs.Sync.Frames

/-!
# Critical regions

A mutex guards the locations of the code between the call that locks it and the
one that unlocks it.  At most one activation stands at such a location.  So what
the code that unlocks the mutex restores, the code that locks it finds: this is
the rule for monitors, for every program and every scheduler.
-/

namespace BabOs.Sync

open BabOs.Sched BabOs.Chain

variable {M C L D : Type*}

/-! ## Guarded locations -/

def Act.Uses (m : M) : Act M C → Prop
  | .lock m' => m' = m
  | .unlock m' => m' = m
  | .wait _ m' => m' = m
  | _ => False

/-- The locations `inside` are the ones at which the code has locked `m`.  It
does not give up the processor there but to wait for a condition of `m`. -/
structure Guards (P : Program M C L D) (m : M) (inside : L → Prop) :
    Prop where
  locks : ∀ {l d l' d'}, P.move l d (.lock m) l' d' → ¬inside l ∧ inside l'
  unlocks : ∀ {l d l' d'}, P.move l d (.unlock m) l' d' → inside l ∧ ¬inside l'
  waits : ∀ {l d v l' d'}, P.move l d (.wait v m) l' d' → inside l ∧ inside l'
  plain : ∀ {l d act l' d'}, P.move l d act l' d' → act.Plain →
    (inside l' ↔ inside l)
  others : ∀ {l d act l' d'}, P.move l d act l' d' → ¬act.Plain →
    ¬act.Uses m → ¬inside l ∧ ¬inside l'
  handlers : ∀ {d d' h}, P.irq d d' (some h) → ¬inside h

/-- The location at which a call that locks `m` returns. -/
def Entry (P : Program M C L D) (m : M) (l : L) : Prop :=
  ∃ l₀ d d', P.move l₀ d (.lock m) l d' ∨ ∃ v, P.move l₀ d (.wait v m) l d'

section Guarding

variable {P : Program M C L D} {m m' : M} {inside : L → Prop} {l l' : L}
  {d d' : D} {act : Act M C}

theorem Guards.entry (h : Guards P m inside) (hl : Entry P m l) :
    inside l := by
  obtain ⟨l₀, d, d', hmove | ⟨v, hmove⟩⟩ := hl
  · exact (h.locks hmove).2
  · exact (h.waits hmove).2

theorem Guards.entry_of_ne (h : Guards P m inside) (hm : m' ≠ m)
    (hl : Entry P m' l) : ¬inside l := by
  obtain ⟨l₀, d, d', hmove | ⟨v, hmove⟩⟩ := hl
  · exact (h.others hmove id hm).2
  · exact (h.others hmove id hm).2

theorem Guards.not_inside_afterYield {pc : Pc M C L} (h : Guards P m inside)
    (hcalled : Called P pc) (hpc : afterYield pc = some (.user l)) :
    ¬inside l := by
  cases pc with
  | sleepYield l' =>
      cases hpc
      obtain ⟨l₀, d, d', ms, hmove⟩ := hcalled
      exact (h.others hmove id id).2
  | lockYield | waitYield | user | lockRetry | waitRelock | sleepMark =>
      cases hpc

theorem Guards.stays (h : Guards P m inside) (hl : inside l)
    (hmove : P.move l d act l' d') :
    Label.Releases m (.call act : Label M C L) ∨ act.Plain ∧ inside l' := by
  cases act with
  | skip => exact Or.inr ⟨trivial, (h.plain hmove trivial).mpr hl⟩
  | signal v => exact Or.inr ⟨trivial, (h.plain hmove trivial).mpr hl⟩
  | broadcast v => exact Or.inr ⟨trivial, (h.plain hmove trivial).mpr hl⟩
  | lock m' =>
      by_cases hm : m' = m
      · subst hm
        exact absurd hl (h.locks hmove).1
      · exact absurd hl (h.others hmove id hm).1
  | unlock m' =>
      by_cases hm : m' = m
      · exact Or.inl hm
      · exact absurd hl (h.others hmove id hm).1
  | wait v m' =>
      by_cases hm : m' = m
      · exact Or.inl hm
      · exact absurd hl (h.others hmove id hm).1
  | sleep ms => exact absurd hl (h.others hmove id id).1
  | iret => exact absurd hl (h.others hmove id id).1

end Guarding

/-! ## Who is inside -/

/-- The activations that stand inside, each as its task, its number counted
from the oldest one, and its location. -/
def places (inside : L → Prop) (S : ℕ → List (Frame M C L)) :
    Set (ℕ × ℕ × L) :=
  {x | ∃ f, (S x.1).reverse[x.2.1]? = some f ∧ f.pc = .user x.2.2 ∧
    inside x.2.2}

section Places

variable {inside : L → Prop} {S : ℕ → List (Frame M C L)} {r : ℕ}
  {f g : Frame M C L} {fs : List (Frame M C L)} {l l' : L}

theorem inside_of_mem_places {t i : ℕ} (h : (t, i, l) ∈ places inside S) :
    inside l := by
  obtain ⟨x, -, -, hl⟩ := h
  exact hl

theorem mem_places_top (hf : S r = f :: fs) :
    (r, fs.length, l) ∈ places inside S ↔ f.pc = .user l ∧ inside l := by
  simp [places, hf]

/-- The places when the topmost activation is replaced. -/
theorem mem_places_replace (hf : S r = f :: fs) {t i : ℕ} {l : L} :
    (t, i, l) ∈ places inside (Function.update S r (g :: fs)) ↔
      (t = r ∧ i = fs.length) ∧ g.pc = .user l ∧ inside l ∨
        ¬(t = r ∧ i = fs.length) ∧ (t, i, l) ∈ places inside S := by
  by_cases ht : t = r
  · subst ht
    by_cases hi : i = fs.length
    · subst hi
      rw [mem_places_top (Function.update_self _ _ _)]
      simp
    · simp only [places, Set.mem_ofPred_eq, Function.update_self, hf,
        getElem?_reverse_cons, hi, if_false, and_false, false_and,
        false_or, not_false_eq_true, true_and]
  · simp only [places, Set.mem_ofPred_eq, Function.update_of_ne ht, ht,
      false_and, false_or, not_false_eq_true, true_and]

theorem places_replace (hf : S r = f :: fs)
    (hout : ∀ l, f.pc = .user l → ¬inside l)
    (hout' : ∀ l, g.pc = .user l → ¬inside l) :
    places inside (Function.update S r (g :: fs)) = places inside S := by
  ext ⟨t, i, l⟩
  rw [mem_places_replace hf]
  constructor
  · rintro (⟨-, hg, hl⟩ | ⟨-, hold⟩)
    · exact absurd hl (hout' l hg)
    · exact hold
  · intro hold
    refine Or.inr ⟨?_, hold⟩
    rintro ⟨rfl, rfl⟩
    obtain ⟨hpc, hl⟩ := (mem_places_top hf).mp hold
    exact hout l hpc hl

theorem places_enter (hf : S r = f :: fs)
    (hout : ∀ l, f.pc = .user l → ¬inside l) (hg : g.pc = .user l')
    (hl' : inside l') :
    places inside (Function.update S r (g :: fs)) =
      insert (r, fs.length, l') (places inside S) := by
  ext ⟨t, i, l⟩
  rw [mem_places_replace hf, Set.mem_insert_iff, hg]
  simp only [Prod.mk.injEq, Pc.user.injEq]
  constructor
  · rintro (⟨⟨rfl, rfl⟩, rfl, -⟩ | ⟨-, hold⟩)
    · exact Or.inl ⟨rfl, rfl, rfl⟩
    · exact Or.inr hold
  · rintro (⟨rfl, rfl, rfl⟩ | hold)
    · exact Or.inl ⟨⟨rfl, rfl⟩, rfl, hl'⟩
    · refine Or.inr ⟨?_, hold⟩
      rintro ⟨rfl, rfl⟩
      obtain ⟨hpc, hl⟩ := (mem_places_top hf).mp hold
      exact hout l hpc hl

theorem places_leave (hf : S r = f :: fs) (hpc : f.pc = .user l)
    (hout' : ∀ l, g.pc = .user l → ¬inside l) :
    places inside (Function.update S r (g :: fs)) =
      places inside S \ {(r, fs.length, l)} := by
  ext ⟨t, i, l₁⟩
  rw [mem_places_replace hf, Set.mem_sdiff, Set.mem_singleton_iff]
  simp only [Prod.mk.injEq]
  constructor
  · rintro (⟨-, hg, hl⟩ | ⟨hne, hold⟩)
    · exact absurd hl (hout' l₁ hg)
    · exact ⟨hold, fun hand => hne ⟨hand.1, hand.2.1⟩⟩
  · rintro ⟨hold, hne⟩
    refine Or.inr ⟨?_, hold⟩
    rintro ⟨rfl, rfl⟩
    obtain ⟨hpc', -⟩ := (mem_places_top hf).mp hold
    exact hne ⟨rfl, rfl, Pc.user.inj (hpc'.symm.trans hpc)⟩

theorem places_move (hf : S r = f :: fs) (hpc : f.pc = .user l)
    (hg : g.pc = .user l') (hl' : inside l') :
    places inside (Function.update S r (g :: fs)) =
      insert (r, fs.length, l') (places inside S \ {(r, fs.length, l)}) := by
  ext ⟨t, i, l₁⟩
  rw [mem_places_replace hf, Set.mem_insert_iff, Set.mem_sdiff,
    Set.mem_singleton_iff, hg]
  simp only [Prod.mk.injEq, Pc.user.injEq]
  constructor
  · rintro (⟨⟨rfl, rfl⟩, rfl, -⟩ | ⟨hne, hold⟩)
    · exact Or.inl ⟨rfl, rfl, rfl⟩
    · exact Or.inr ⟨hold, fun hand => hne ⟨hand.1, hand.2.1⟩⟩
  · rintro (⟨rfl, rfl, rfl⟩ | ⟨hold, hne⟩)
    · exact Or.inl ⟨⟨rfl, rfl⟩, rfl, hl'⟩
    · refine Or.inr ⟨?_, hold⟩
      rintro ⟨rfl, rfl⟩
      obtain ⟨hpc', -⟩ := (mem_places_top hf).mp hold
      exact hne ⟨rfl, rfl, Pc.user.inj (hpc'.symm.trans hpc)⟩

theorem places_push (hout : ∀ l, g.pc = .user l → ¬inside l) :
    places inside (Function.update S r (g :: S r)) = places inside S := by
  ext ⟨t, i, l⟩
  by_cases ht : t = r
  · subst ht
    simp only [places, Set.mem_ofPred_eq, Function.update_self,
      getElem?_reverse_cons]
    split_ifs with hi
    · subst hi
      simp only [Option.some.injEq, exists_eq_left']
      constructor
      · rintro ⟨hpc, hl⟩
        exact absurd hl (hout l hpc)
      · rintro ⟨x, hx, -⟩
        rw [List.getElem?_eq_none (by simp)] at hx
        cases hx
    · rfl
  · simp only [places, Set.mem_ofPred_eq, Function.update_of_ne ht]

theorem places_pop (hf : S r = f :: fs)
    (hout : ∀ l, f.pc = .user l → ¬inside l) :
    places inside (Function.update S r fs) = places inside S := by
  have hpush := places_push (S := Function.update S r fs) (r := r) hout
  rw [Function.update_idem, Function.update_self, ← hf,
    Function.update_eq_self] at hpush
  exact hpush.symm

end Places

/-! ## Steps -/

/-- The data after a step outside: nothing has changed, the code has moved on
outside, or an interrupt has come. -/
def Outside (P : Program M C L D) (inside : L → Prop) (d d' : D) : Prop :=
  d' = d ∨ (∃ l act l', ¬inside l ∧ P.move l d act l' d') ∨
    ∃ h, P.irq d d' h

/-- What a step does to the places, to the mutex and to the data. -/
inductive RegionStep (P : Program M C L D) (m : M) (inside : L → Prop)
    (a : Label M C L) (c c' : Config M C L D) : Prop
  | outside (hplaces : places inside c'.stack = places inside c.stack)
      (hlocked : (c'.k.mutex m).locked = (c.k.mutex m).locked)
      (hdata : Outside P inside c.data c'.data)
  | enters {t i : ℕ} {l : L} (hfree : (c.k.mutex m).locked = 0)
      (hlocked : (c'.k.mutex m).locked ≠ 0)
      (hplaces : places inside c'.stack =
        insert (t, i, l) (places inside c.stack))
      (hentry : Entry P m l) (hdata : Outside P inside c.data c'.data)
  | moves {t i : ℕ} {l l' : L} {act : Act M C} (ha : a = .call act)
      (hmem : (t, i, l) ∈ places inside c.stack)
      (hplaces : places inside c'.stack =
        insert (t, i, l') (places inside c.stack \ {(t, i, l)}))
      (hlocked : (c'.k.mutex m).locked = (c.k.mutex m).locked)
      (hmove : P.move l c.data act l' c'.data) (hact : act.Plain)
  | leaves {t i : ℕ} {l l' : L} {act : Act M C}
      (hmem : (t, i, l) ∈ places inside c.stack)
      (hplaces : places inside c'.stack =
        places inside c.stack \ {(t, i, l)})
      (hfree : (c'.k.mutex m).locked = 0)
      (hmove : P.move l c.data act l' c'.data)
      (hact : Label.Releases m (.call act : Label M C L))

section Steps

variable [DecidableEq M] [DecidableEq C] {P : Program M C L D}
  {timer : ℕ → Tasks → ℕ → Tasks → Prop} {a : Label M C L}
  {c c' : Config M C L D} {r : ℕ} {m m' : M} {inside : L → Prop}
  {f g : Frame M C L} {fs : List (Frame M C L)} {l l' : L} {d : D}

omit [DecidableEq M] [DecidableEq C] in
theorem Guards.regionStep_plain {act : Act M C} (hguards : Guards P m inside)
    (hf : c.stack r = f :: fs) (hpc : f.pc = .user l)
    (hmove : P.move l c.data act l' c'.data) (hact : act.Plain)
    (hstack : c'.stack = Function.update c.stack r (g :: fs))
    (hg : g.pc = .user l')
    (hlocked : (c'.k.mutex m).locked = (c.k.mutex m).locked) :
    RegionStep P m inside (.call act) c c' := by
  have hiff := hguards.plain hmove hact
  by_cases hl : inside l
  · refine RegionStep.moves rfl ((mem_places_top hf).mpr ⟨hpc, hl⟩) ?_ hlocked
      hmove hact
    rw [hstack]
    exact places_move hf hpc hg (hiff.mpr hl)
  · refine RegionStep.outside ?_ hlocked (Or.inr (Or.inl ⟨l, act, l', hl, hmove⟩))
    rw [hstack]
    apply places_replace hf
    · intro l₁ hl₁
      rwa [← Pc.user.inj (hpc.symm.trans hl₁)]
    · intro l₁ hl₁
      rwa [← Pc.user.inj (hg.symm.trans hl₁), hiff]

omit [DecidableEq M] [DecidableEq C] in
/-- The code makes a call that has nothing to do with `m`. -/
theorem Guards.regionStep_others {act : Act M C} (hguards : Guards P m inside)
    (hf : c.stack r = f :: fs) (hpc : f.pc = .user l)
    (hmove : P.move l c.data act l' c'.data) (hact : ¬act.Plain)
    (huses : ¬act.Uses m)
    (hstack : c'.stack = Function.update c.stack r (g :: fs))
    (hg : ∀ l₁, g.pc = .user l₁ → l₁ = l')
    (hlocked : (c'.k.mutex m).locked = (c.k.mutex m).locked) :
    RegionStep P m inside a c c' := by
  obtain ⟨hl, hl'⟩ := hguards.others hmove hact huses
  refine RegionStep.outside ?_ hlocked (Or.inr (Or.inl ⟨l, act, l', hl, hmove⟩))
  rw [hstack]
  apply places_replace hf
  · intro l₁ hl₁
    rwa [← Pc.user.inj (hpc.symm.trans hl₁)]
  · intro l₁ hl₁
    rwa [hg l₁ hl₁]

/-- A test of a mutex by an activation that is outside. -/
theorem Guards.regionStep_lockStep {fuel : ℕ} (hguards : Guards P m inside)
    (hf : c.stack r = f :: fs) (hout : ∀ l, f.pc = .user l → ¬inside l)
    (hentry : Entry P m' l) (hdata : Outside P inside c.data d)
    (h : lockStep fuel m' r l f fs { c with data := d } = some c') :
    RegionStep P m inside a c c' := by
  obtain ⟨g, hstack⟩ := lockStep_stack h
  obtain ⟨hd, -, g', hg', hcase⟩ := lockStep_cases h
  dsimp only at hd hcase
  rw [hstack, Function.update_self] at hg'
  obtain ⟨rfl, -⟩ := List.cons.inj hg'
  rw [← hd] at hdata
  rcases hcase with ⟨hfree, hpc, hk⟩ | ⟨-, hpc, henqueue⟩
  · by_cases hm : m' = m
    · subst hm
      refine RegionStep.enters (t := r) (i := fs.length) hfree ?_ ?_ hentry
        hdata
      · rw [hk]
        simp [Kernel.setMutex]
      · rw [hstack]
        exact places_enter hf hout hpc (hguards.entry hentry)
    · refine RegionStep.outside ?_ ?_ hdata
      · rw [hstack]
        refine places_replace hf hout fun l₁ hl₁ => ?_
        rw [← Pc.user.inj (hpc.symm.trans hl₁)]
        exact hguards.entry_of_ne hm hentry
      · rw [hk]
        simp [Kernel.setMutex, Ne.symm hm]
  · refine RegionStep.outside ?_ ?_ hdata
    · rw [hstack]
      refine places_replace hf hout fun l₁ hl₁ => ?_
      cases hpc.symm.trans hl₁
    · exact congrArg Prod.fst (lockOf_enqueue henqueue)

omit [DecidableEq M] [DecidableEq C] in
theorem Guards.regionStep_leaves {act : Act M C} (hf : c.stack r = f :: fs)
    (hpc : f.pc = .user l) (hl : inside l)
    (hmove : P.move l c.data act l' c'.data)
    (hact : Label.Releases m (.call act : Label M C L))
    (hstack : c'.stack = Function.update c.stack r (g :: fs))
    (hg : ∀ l₁, g.pc = .user l₁ → ¬inside l₁)
    (hfree : (c'.k.mutex m).locked = 0) : RegionStep P m inside a c c' := by
  refine RegionStep.leaves ((mem_places_top hf).mpr ⟨hpc, hl⟩) ?_ hfree hmove
    hact
  rw [hstack]
  exact places_leave hf hpc hg

theorem Step.regionStep (hguards : Guards P m inside)
    (hcalled : ∀ t, ∀ f ∈ c.stack t, Called P f.pc)
    (h : Step P timer a c c') : RegionStep P m inside a c c' := by
  have hsame {k : Kernel M C} (hk : k.lockOf m = c.k.lockOf m) :
      (k.mutex m).locked = (c.k.mutex m).locked :=
    congrArg Prod.fst hk
  cases h with
  | skip hr hf hpc hmove =>
      exact hguards.regionStep_plain hf hpc hmove trivial rfl rfl rfl
  | signal hr hf hpc hmove =>
      exact hguards.regionStep_plain hf hpc hmove trivial rfl rfl
        (hsame (lockOf_wakeFirst _))
  | broadcast hr hf hpc hmove hcast =>
      exact hguards.regionStep_plain hf hpc hmove trivial rfl rfl
        (hsame (lockOf_condBroadcast hcast))
  | sleep hr hf hpc hmove =>
      exact hguards.regionStep_others hf hpc hmove id id rfl
        (fun l₁ hl₁ => by cases hl₁) rfl
  | @lock _ _ r f fs l l' d' m' fuel hr hf hpc hmove htest =>
      have hl : ¬inside l := by
        by_cases hm : m' = m
        · subst hm
          exact (hguards.locks hmove).1
        · exact (hguards.others hmove id hm).1
      refine hguards.regionStep_lockStep hf (fun l₁ hl₁ => ?_)
        ⟨l, c.data, d', Or.inl hmove⟩ (Or.inr (Or.inl ⟨l, _, l', hl, hmove⟩))
        htest
      rwa [← Pc.user.inj (hpc.symm.trans hl₁)]
  | @retry _ _ r f fs l m' fuel hr hf hpc htest =>
      refine hguards.regionStep_lockStep (d := c.data) hf (fun l₁ hl₁ => ?_)
        (called_retries (hcalled r f (hf ▸ List.mem_cons_self)) hpc)
        (Or.inl rfl) htest
      rw [hl₁] at hpc
      cases hpc
  | @unlock _ r f fs l l' d' m' hr hf hpc hmove =>
      by_cases hm : m' = m
      · subst hm
        obtain ⟨hl, hl'⟩ := hguards.unlocks hmove
        refine Guards.regionStep_leaves hf hpc hl hmove rfl rfl
          (fun l₁ hl₁ => ?_) locked_mutexUnlock
        rwa [← Pc.user.inj hl₁]
      · refine hguards.regionStep_others hf hpc hmove id hm rfl
          (fun l₁ hl₁ => (Pc.user.inj hl₁).symm) ?_
        exact hsame (lockOf_mutexUnlock_of_ne (Ne.symm hm))
  | @wait _ r f fs l l' d' v m' fuel k' hr hf hpc hmove hwait =>
      by_cases hm : m' = m
      · subst hm
        refine Guards.regionStep_leaves hf hpc (hguards.waits hmove).1 hmove
          rfl rfl (fun l₁ hl₁ => by cases hl₁) ?_
        rw [condWaitEnter] at hwait
        split at hwait
        · cases hwait
        · cases hwait
          exact locked_mutexUnlock
      · exact hguards.regionStep_others hf hpc hmove id hm rfl
          (fun l₁ hl₁ => by cases hl₁)
          (hsame (lockOf_condWaitEnter_of_ne (Ne.symm hm) hwait))
  | @sleepMark _ r f fs l hr hf hpc =>
      refine RegionStep.outside (places_replace hf ?_ ?_) rfl (Or.inl rfl)
      · intro l₁ hl₁
        cases hpc.symm.trans hl₁
      · intro l₁ hl₁
        cases hl₁
  | @yield _ r f fs pc' tick' T' hr hf hpc htimer =>
      refine RegionStep.outside (places_replace hf ?_ ?_) rfl (Or.inl rfl)
      · intro l₁ hl₁
        rw [hl₁] at hpc
        cases hpc
      · intro l₁ hl₁
        dsimp only at hl₁
        subst hl₁
        exact hguards.not_inside_afterYield
          (hcalled r f (hf ▸ List.mem_cons_self)) hpc
  | timer hr hf hirq htimer => exact RegionStep.outside rfl rfl (Or.inl rfl)
  | irqDone hr hf hirq hdata =>
      exact RegionStep.outside rfl rfl (Or.inr (Or.inr ⟨none, hdata⟩))
  | @irqEnter _ r f fs d' l hr hf hirq hdata =>
      refine RegionStep.outside ?_ rfl (Or.inr (Or.inr ⟨some l, hdata⟩))
      simp only [Config.setStack, ← hf]
      refine places_push fun l₁ hl₁ => ?_
      rw [← Pc.user.inj hl₁]
      exact hguards.handlers hdata
  | @iret _ r f g fs l l' d' hr hf hpc hmove =>
      have hl := (hguards.others hmove id id).1
      refine RegionStep.outside (places_pop hf fun l₁ hl₁ => ?_) rfl
        (Or.inr (Or.inl ⟨l, _, l', hl, hmove⟩))
      rwa [← Pc.user.inj (hpc.symm.trans hl₁)]

end Steps

/-! ## The rule for monitors -/

/-- The code that enters finds `rest`, keeps `good l` at the locations `l` that
it comes to, and leaves with `rest`.  Nobody else disturbs either. -/
structure MonitorRule (P : Program M C L D) (m : M) (inside : L → Prop)
    (rest : D → Prop) (good : L → D → Prop) : Prop where
  enters : ∀ {l d}, Entry P m l → rest d → good l d
  moves : ∀ {l d act l' d'}, inside l → good l d → P.move l d act l' d' →
    act.Plain → good l' d'
  leaves : ∀ {l d act l' d'}, good l d → P.move l d act l' d' →
    Label.Releases m (.call act : Label M C L) → rest d'
  outside : ∀ {d d'}, Outside P inside d d' →
    (rest d → rest d') ∧ ∀ l, good l d → good l d'

/-- The mutex is unlocked, nobody is inside and the data are at rest, or it is
locked and one activation is inside. -/
inductive Monitored (m : M) (inside : L → Prop) (rest : D → Prop)
    (good : L → D → Prop) (c : Config M C L D) : Prop
  | free (hlocked : (c.k.mutex m).locked = 0)
      (hplaces : places inside c.stack = ∅) (hrest : rest c.data)
  | held {t i : ℕ} {l : L} (hlocked : (c.k.mutex m).locked ≠ 0)
      (hplaces : places inside c.stack = {(t, i, l)})
      (hgood : good l c.data)

section Rule

variable {P : Program M C L D} {a : Label M C L} {c c' : Config M C L D}
  {m : M} {inside : L → Prop} {rest : D → Prop} {good : L → D → Prop}

theorem Monitored.good_of_mem {t i : ℕ} {l : L}
    (hc : Monitored m inside rest good c)
    (hmem : (t, i, l) ∈ places inside c.stack) : good l c.data := by
  cases hc with
  | free hfree hnone hd =>
      rw [hnone] at hmem
      exact absurd hmem (Set.notMem_empty _)
  | held hheld hone hd =>
      rw [hone, Set.mem_singleton_iff] at hmem
      cases hmem
      exact hd

theorem RegionStep.monitored (hrule : MonitorRule P m inside rest good)
    (h : RegionStep P m inside a c c') (hc : Monitored m inside rest good c) :
    Monitored m inside rest good c' := by
  cases h with
  | outside hplaces hlocked hdata =>
      obtain ⟨hrest, hgood⟩ := hrule.outside hdata
      cases hc with
      | free hfree hnone hd =>
          exact Monitored.free (hlocked.trans hfree) (hplaces.trans hnone)
            (hrest hd)
      | held hheld hone hd =>
          rw [← hlocked] at hheld
          exact Monitored.held hheld (hplaces.trans hone) (hgood _ hd)
  | enters hfree hlocked hplaces hentry hdata =>
      cases hc with
      | free _ hnone hd =>
          rw [hnone, insert_empty_eq] at hplaces
          exact Monitored.held hlocked hplaces
            (hrule.enters hentry ((hrule.outside hdata).1 hd))
      | held hheld _ _ => exact absurd hfree hheld
  | moves ha hmem hplaces hlocked hmove hact =>
      cases hc with
      | free _ hnone _ =>
          rw [hnone] at hmem
          exact absurd hmem (Set.notMem_empty _)
      | held hheld hone hd =>
          have hl := inside_of_mem_places hmem
          rw [hone, Set.mem_singleton_iff] at hmem
          cases hmem
          rw [← hlocked] at hheld
          rw [hone, Set.sdiff_self, insert_empty_eq] at hplaces
          exact Monitored.held hheld hplaces (hrule.moves hl hd hmove hact)
  | leaves hmem hplaces hfree hmove hact =>
      cases hc with
      | free _ hnone _ =>
          rw [hnone] at hmem
          exact absurd hmem (Set.notMem_empty _)
      | held hheld hone hd =>
          rw [hone, Set.mem_singleton_iff] at hmem
          cases hmem
          rw [hone, Set.sdiff_self] at hplaces
          exact Monitored.free hfree hplaces (hrule.leaves hd hmove hact)

variable [DecidableEq M] [DecidableEq C] {c₀ : Config M C L D}
  {timer : ℕ → Tasks → ℕ → Tasks → Prop}
  {ok : Label M C L → Config M C L D → Prop}

/-- The monitor is in order in every state of a run, whatever the scheduler
does and whenever interrupts come. -/
theorem run_monitored (hguards : Guards P m inside)
    (hrule : MonitorRule P m inside rest good)
    (hcalled : ∀ t, ∀ f ∈ c₀.stack t, Called P f.pc)
    (hinit : Monitored m inside rest good c₀) (hrun : Run P timer ok c₀ c) :
    (∀ t, ∀ f ∈ c.stack t, Called P f.pc) ∧ Monitored m inside rest good c := by
  induction hrun with
  | refl => exact ⟨hcalled, hinit⟩
  | tail hrun hok hstep ih =>
      exact ⟨hstep.called ih.1,
        (hstep.regionStep hguards ih.1).monitored hrule ih.2⟩

end Rule

end BabOs.Sync
