import BabOs.Sched.Waiting
import BabOs.Sync.Sleeping

/-!
# How late a task wakes

Every run of the timer handler counts down a sleeping task, and then brings the
running task nearer to it.  So a task is dispatched again before the handler
has run as often as it asked for and once for each task of the list.
-/

namespace BabOs.Sync

open BabOs.Sched BabOs.Chain

variable {M C L D : Type*}

/-- The timer handler runs. -/
def Event.ticks (e : Event M C L D) : Bool :=
  e.hardware || e.voluntary

/-- How many runs of the timer handler `t` can still wait for: those of its
sleep and of the way round, or those of the rest of the way. -/
def Due (tl : List ℕ) (t : ℕ) (c : Config M C L D) (k : ℕ) : Prop :=
  (c.k.tasks.state t = .sleeping ∧ 0 < c.k.ticks t ∧
    k = c.k.ticks t + tl.length) ∨
  (c.k.tasks.state t = .ready ∧ Away tl.length c.k.tasks tl t k)

section Waking

variable {P : Program M C L D} {tl : List ℕ} {a : Label M C L}
  {c c' c'' : Config M C L D} {t k : ℕ} {es : List (Event M C L D)}

theorem Due.pos (h : Due tl t c k) : 0 < k := by
  rcases h with ⟨-, hpos, rfl⟩ | ⟨-, haway⟩
  · exact Nat.add_pos_left hpos _
  · exact haway.pos le_rfl

theorem state_updateSleep_last {x : Task} (hx : x.state = .sleeping)
    (hticks : x.sleepTicks = 1) : (updateSleep x).state = .ready := by
  rw [updateSleep, if_pos ⟨hx, hticks ▸ Nat.one_pos⟩]
  dsimp only
  rw [if_pos (by rw [hticks])]

variable [DecidableEq M] [DecidableEq C]

/-- A run of the timer handler that wakes `t` but does not dispatch it. -/
theorem Step.wakes (h : Step P codeTimer a c c') (hlisted : Listed tl c)
    (ht : t ∈ tl) (ha : a.Ticks) (hnot : c'.k.tasks.runningTask ≠ some t)
    (hsleeping : c.k.tasks.state t = .sleeping) (hticks : c.k.ticks t = 1) :
    c'.k.tasks.state t = .ready := by
  obtain ⟨hlist, r, hmem, hr⟩ := hlisted
  obtain ⟨T₁, x, hswitch, -, -⟩ := h.switches ha hlist hr hmem
  obtain ⟨fuel, hupdate⟩ := hswitch.update
  have htask := tasksUpdateLoop_task hlist hupdate t
  rw [if_pos ht] at htask
  have hready : T₁.state t = .ready := by
    rw [Tasks.state, htask]
    exact state_updateSleep_last hsleeping hticks
  have hne : t ≠ x := by
    rintro rfl
    exact hnot hswitch.runningTask
  rcases hswitch.state_of_ne t hne with hsame | ⟨-, hst⟩
  · exact hsame.trans hready
  · exact hst

end Waking

end BabOs.Sync
