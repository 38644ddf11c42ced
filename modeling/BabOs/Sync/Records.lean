import BabOs.Sync.Regions

/-!
# Records of runs

A record of what the statements of a program have done is kept beside its data.
No step looks at it, so every run of the program has one.
-/

namespace BabOs.Sync

open BabOs.Sched

variable {M C L D G : Type*}

/-- The program with a record, to which the statement at `l` adds what `note`
says. -/
def Program.record (P : Program M C L D) (note : L → D → G → G) :
    Program M C L (D × G) where
  move l x a l' x' := P.move l x.1 a l' x'.1 ∧ x'.2 = note l x.1 x.2
  irq x x' h := P.irq x.1 x'.1 h ∧ x'.2 = x.2

def Config.record (c : Config M C L D) (g : G) : Config M C L (D × G) where
  k := c.k
  stack := c.stack
  data := (c.data, g)
  woken := c.woken
  since := c.since
  clock := c.clock

section Programs

variable {P : Program M C L D} {note : L → D → G → G} {m : M}
  {inside : L → Prop} {l : L} {x x' : D × G}

/-- The record changes nothing about where the code has locked a mutex. -/
theorem Guards.record (h : Guards P m inside) :
    Guards (P.record note) m inside where
  locks hmove := h.locks hmove.1
  unlocks hmove := h.unlocks hmove.1
  waits hmove := h.waits hmove.1
  plain hmove := h.plain hmove.1
  others hmove := h.others hmove.1
  handlers hirq := h.handlers hirq.1

theorem Entry.of_record (h : Entry (P.record note) m l) : Entry P m l := by
  obtain ⟨l₀, x, x', hmove | ⟨v, hmove⟩⟩ := h
  · exact ⟨l₀, x.1, x'.1, Or.inl hmove.1⟩
  · exact ⟨l₀, x.1, x'.1, Or.inr ⟨v, hmove.1⟩⟩

/-- A step outside adds to the record what its statement adds. -/
theorem Outside.of_record (h : Outside (P.record note) inside x x') :
    Outside P inside x.1 x'.1 ∧
      (x'.2 = x.2 ∨ ∃ l, ¬inside l ∧ x'.2 = note l x.1 x.2) := by
  rcases h with rfl | ⟨l, act, l', hl, hmove⟩ | ⟨h, hirq⟩
  · exact ⟨Or.inl rfl, Or.inl rfl⟩
  · exact ⟨Or.inr (Or.inl ⟨l, act, l', hl, hmove.1⟩), Or.inr ⟨l, hl, hmove.2⟩⟩
  · exact ⟨Or.inr (Or.inr ⟨h, hirq.1⟩), Or.inl hirq.2⟩

end Programs

/-! ## Runs -/

section Runs

variable [DecidableEq M] [DecidableEq C] {P : Program M C L D}
  {note : L → D → G → G} {timer : ℕ → Tasks → ℕ → Tasks → Prop}
  {a : Label M C L} {c c' : Config M C L D} {m : M} {l : L} {r fuel : ℕ}
  {f : Frame M C L} {fs : List (Frame M C L)}

theorem lockStep_record (g : G) (h : lockStep fuel m r l f fs c = some c') :
    lockStep fuel m r l f fs (c.record g) = some (c'.record g) := by
  rw [lockStep] at h ⊢
  cases htest : mutexTest fuel m r c.k with
  | none =>
      rw [htest] at h
      cases h
  | some x =>
      rw [htest] at h
      rw [show (c.record g).k = c.k from rfl, htest]
      obtain ⟨b, k⟩ := x
      cases b with
      | true =>
          cases h
          rfl
      | false =>
          cases h
          rfl

/-- A step of the program is one of the program with a record. -/
theorem Step.record (h : Step P timer a c c') (g : G) :
    ∃ g', Step (P.record note) timer a (c.record g) (c'.record g') := by
  cases h with
  | @skip _ _ _ _ l _ _ hr hf hpc hmove =>
      exact ⟨note l c.data g, .skip hr hf hpc ⟨hmove, rfl⟩⟩
  | @lock _ _ _ _ _ l l' d' m' _ hr hf hpc hmove htest =>
      have hmove' : (P.record note).move l (c.data, g) (.lock m') l'
          (d', note l c.data g) := ⟨hmove, rfl⟩
      exact ⟨_, .lock hr hf hpc hmove' (lockStep_record _ htest)⟩
  | retry hr hf hpc htest =>
      exact ⟨g, .retry hr hf hpc (lockStep_record g htest)⟩
  | @unlock _ _ _ _ l _ _ _ hr hf hpc hmove =>
      exact ⟨note l c.data g, .unlock hr hf hpc ⟨hmove, rfl⟩⟩
  | @wait _ _ _ _ l _ _ _ _ _ _ hr hf hpc hmove hwait =>
      exact ⟨note l c.data g, .wait hr hf hpc ⟨hmove, rfl⟩ hwait⟩
  | @signal _ _ _ _ l _ _ _ hr hf hpc hmove =>
      exact ⟨note l c.data g, .signal hr hf hpc ⟨hmove, rfl⟩⟩
  | @broadcast _ _ _ _ l _ _ _ _ _ hr hf hpc hmove hcast =>
      exact ⟨note l c.data g, .broadcast hr hf hpc ⟨hmove, rfl⟩ hcast⟩
  | @sleep _ _ _ _ l _ _ _ hr hf hpc hmove =>
      exact ⟨note l c.data g, .sleep hr hf hpc ⟨hmove, rfl⟩⟩
  | sleepMark hr hf hpc => exact ⟨g, .sleepMark hr hf hpc⟩
  | yield hr hf hpc htimer => exact ⟨g, .yield hr hf hpc htimer⟩
  | timer hr hf hirq htimer => exact ⟨g, .timer hr hf hirq htimer⟩
  | irqDone hr hf hirq hdata => exact ⟨g, .irqDone hr hf hirq ⟨hdata, rfl⟩⟩
  | irqEnter hr hf hirq hdata => exact ⟨g, .irqEnter hr hf hirq ⟨hdata, rfl⟩⟩
  | @iret _ _ _ _ _ l _ _ hr hf hpc hmove =>
      exact ⟨note l c.data g, .iret hr hf hpc ⟨hmove, rfl⟩⟩

theorem Run.record {c₀ : Config M C L D}
    (h : Run P timer (fun _ _ => True) c₀ c) (g : G) :
    ∃ g', Run (P.record note) timer (fun _ _ => True) (c₀.record g)
      (c.record g') := by
  induction h with
  | refl => exact ⟨g, Run.refl _⟩
  | tail hrun hok hstep ih =>
      obtain ⟨g₁, hrun₁⟩ := ih
      obtain ⟨g₂, hstep₂⟩ := hstep.record g₁
      exact ⟨g₂, hrun₁.tail trivial hstep₂⟩

end Runs

end BabOs.Sync
