/-
Runs of a step function that may fail and that takes a choice from outside at
every step, and a rule for what every sequence of choices leads to.
-/
import Mathlib.Order.WellFounded

namespace ChoiceRun

universe u v w

variable {S : Type u} {C : Type v} (step : C → S → Option S)

/-- The state after `count` steps, or `none` once a step has failed. -/
def run (choices : ℕ → C) : ℕ → S → Option S
  | 0, state => some state
  | count + 1, state => (run choices count state).bind (step (choices count))

/-- A run that has failed stays so. -/
theorem run_eq_none_of_le {step : C → S → Option S} {choices : ℕ → C}
    {state : S} {count later : ℕ}
    (h : run step choices count state = none) (hle : count ≤ later) :
    run step choices later state = none := by
  induction later, hle using Nat.le_induction with
  | base => exact h
  | succ later hle ih => rw [run, ih, Option.bind_none]

/-- When no step fails, the invariant is kept and a rank falls until the goal
is met, every sequence of choices meets the goal. -/
theorem exists_run_of_rank {R : Type w} [Preorder R] [WellFoundedLT R]
    {inv : S → Prop} (goal : S → Prop) (rank : S → R)
    (hstep : ∀ state, inv state → goal state ∨ ∀ choice, ∃ next,
      step choice state = some next ∧ inv next ∧ rank next < rank state)
    {state : S} (hinv : inv state) (choices : ℕ → C) :
    ∃ count final, run step choices count state = some final ∧ inv final ∧
      goal final := by
  have hfrom : ∀ bound : R, ∀ count reached,
      run step choices count state = some reached → inv reached →
      rank reached = bound →
      ∃ count final, run step choices count state = some final ∧ inv final ∧
        goal final := by
    intro bound
    induction bound using WellFoundedLT.induction with
    | ind bound ih =>
        intro count reached hrun hreached hbound
        rcases hstep reached hreached with hgoal | hnext
        · exact ⟨count, reached, hrun, hreached, hgoal⟩
        · obtain ⟨next, hnext, hinvNext, hrank⟩ := hnext (choices count)
          apply ih (rank next) (hbound ▸ hrank) (count + 1) next ?_ hinvNext rfl
          rw [run, hrun, Option.bind_some, hnext]
  exact hfrom (rank state) 0 state rfl hinv rfl

end ChoiceRun
