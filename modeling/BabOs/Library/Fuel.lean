import Mathlib.Tactic
import Mathlib.Order.CompletePartialOrder

/-!
# Computations with fuel

A function with a loop that may go on forever is given fuel, and has no result
when the fuel runs out.  Its result does not depend on the fuel that is left
over, and the results of its parts compose.
-/

namespace BabOs.Fuel

variable {α β : Type*}

/-- A result stays with more fuel. -/
def Steady (f : ℕ → Option α) : Prop :=
  ∀ n m a, n ≤ m → f n = some a → f m = some a

/-- With enough fuel the result is `a`. -/
def Settles (f : ℕ → Option α) (a : α) : Prop :=
  ∃ bound, ∀ n, bound ≤ n → f n = some a

section Steady

variable {f : ℕ → Option α} {g : ℕ → α → Option β} {F : ℕ → ℕ → Option α}
variable {a : α} {n : ℕ}

theorem steady_const (x : Option α) : Steady fun _ => x :=
  fun _ _ _ _ h => h

/-- It is enough to look at one more unit of fuel. -/
theorem steady_of_succ (h : ∀ n a, f n = some a → f (n + 1) = some a) :
    Steady f := by
  intro n m a hnm hn
  induction m, hnm using Nat.le_induction with
  | base => exact hn
  | succ m _ ih => exact h m a ih

theorem Steady.bind (hf : Steady f) (hg : ∀ a, Steady (g · a)) :
    Steady fun n => (f n).bind (g n) := by
  intro n m b hnm h
  obtain ⟨a, ha, hb⟩ := Option.bind_eq_some_iff.mp h
  exact Option.bind_eq_some_iff.mpr
    ⟨a, hf n m a hnm ha, hg a n m b hnm hb⟩

theorem Steady.map (hf : Steady f) (k : α → β) :
    Steady fun n => (f n).map k := by
  intro n m b hnm h
  obtain ⟨a, ha, hb⟩ := Option.map_eq_some_iff.mp h
  exact Option.map_eq_some_iff.mpr ⟨a, hf n m a hnm ha, hb⟩

theorem Steady.ite {p : Prop} [Decidable p] {f' : ℕ → Option α}
    (hf : p → Steady f) (hf' : ¬p → Steady f') :
    Steady fun n => if p then f n else f' n := by
  by_cases hp : p
  · simpa only [if_pos hp] using hf hp
  · simpa only [if_neg hp] using hf' hp

/-- Fuel for the rounds of a loop and for what the rounds call. -/
theorem Steady.diagonal (hcalls : ∀ rounds, Steady (F · rounds))
    (hrounds : ∀ fuel, Steady (F fuel)) : Steady fun n => F n n :=
  fun n m a hnm h => hcalls m n m a hnm (hrounds n n m a hnm h)

/-- One run is enough to know the result. -/
theorem Steady.settles (hf : Steady f) (h : f n = some a) : Settles f a :=
  ⟨n, fun m hnm => hf n m a hnm h⟩

end Steady

section Settles

variable {f : ℕ → Option α} {g : ℕ → α → Option β} {a a' : α} {b : β}

theorem settles_some (a : α) : Settles (fun _ => some a) a :=
  ⟨0, fun _ _ => rfl⟩

theorem Settles.bind (hf : Settles f a) (hg : Settles (g · a) b) :
    Settles (fun n => (f n).bind (g n)) b := by
  obtain ⟨bound, hf⟩ := hf
  obtain ⟨bound', hg⟩ := hg
  refine ⟨max bound bound', fun n hn => ?_⟩
  apply Option.bind_eq_some_iff.mpr
  exact ⟨a, hf n ((le_max_left _ _).trans hn), hg n ((le_max_right _ _).trans hn)⟩

end Settles

end BabOs.Fuel
