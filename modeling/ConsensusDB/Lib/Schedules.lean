/-
This file is about systems whose parts take turns: a step relation says what can come
next, and nothing is said about which part moves. A fact that every step keeps holds
after every run; and where every step lowers a measure, no run is longer than the
measure at its start, so the system gets stuck, whatever the order of its steps.
-/

import Mathlib.Order.Basic

namespace Schedules

variable {State : Type}

/-- A run of a number of steps. -/
inductive Runs (Step : State → State → Prop) : Nat → State → State → Prop
  | nil (state : State) : Runs Step 0 state state
  | cons {length : Nat} {state next final : State} (stepped : Step state next)
      (ran : Runs Step length next final) : Runs Step (length + 1) state final

variable {Step : State → State → Prop} {Holds : State → Prop} {length : Nat} {state final : State}

/-- A fact that every step keeps holds after every run. -/
theorem Runs.kept (ran : Runs Step length state final)
    (kept : ∀ state next, Holds state → Step state next → Holds next) (start : Holds state) :
    Holds final := by
  induction ran with
  | nil _ => exact start
  | cons stepped _ inductionHypothesis => exact inductionHypothesis (kept _ _ start stepped)

/-- No run is longer than a measure that every step lowers. -/
theorem Runs.length_le (ran : Runs Step length state final) {size : State → Nat}
    (falls : ∀ state next, Step state next → size next < size state) :
    length + size final ≤ size state := by
  induction ran with
  | nil _ => exact Nat.le_of_eq (Nat.zero_add _)
  | cons stepped _ inductionHypothesis =>
    have lower := falls _ _ stepped
    omega

end Schedules
