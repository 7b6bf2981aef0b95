/-
This file is about running a list of operations, and about running it again
over the state it left. The second run changes nothing when some operation
forgets the state it is given, and more generally whenever the two runs can be
coupled: a relation between the state of the first run and that of the second,
kept by every operation at its place in the list, which at the end of the list
says that the two are equal. In a single run, a property that is lost between
two of its states is lost at one of the operations in between; so one that every
operation keeps under its guard holds wherever the guards are met.

Two runs of different lists end apart when no operation leads back to the start
and operations that lead to one state are the same and were given one state.
-/

import Mathlib.Data.List.Basic
import Mathlib.Data.List.Induction

namespace Replay

variable {State Op : Type} (act : Op → State → State)

/-- Runs operations one after another. -/
def run (ops : List Op) (state : State) : State := ops.foldl (fun state op => act op state) state

@[simp] theorem run_nil (state : State) : run act [] state = state := rfl

@[simp] theorem run_cons (op : Op) (rest : List Op) (state : State) :
    run act (op :: rest) state = run act rest (act op state) := rfl

theorem run_append (first second : List Op) (state : State) :
    run act (first ++ second) state = run act second (run act first state) :=
  List.foldl_append

theorem run_snoc (front : List Op) (op : Op) (state : State) :
    run act (front ++ [op]) state = act op (run act front state) :=
  run_append act front [op] state

/-- A property that holds at the start and not at the end is lost at some operation. -/
theorem exists_lost (Holds : State → Prop) (ops : List Op) (state : State) (start : Holds state)
    (ended : ¬ Holds (run act ops state)) :
    ∃ front op back, ops = front ++ op :: back ∧ Holds (run act front state) ∧
      ¬ Holds (act op (run act front state)) := by
  induction ops generalizing state with
  | nil => exact absurd start ended
  | cons op rest inductionHypothesis =>
    by_cases kept : Holds (act op state)
    · obtain ⟨front, lost, back, split, before, after⟩ :=
        inductionHypothesis (act op state) kept ended
      exact ⟨op :: front, lost, back, congrArg (List.cons op) split, before, after⟩
    · exact ⟨[], op, rest, rfl, start, kept⟩

/-- Each operation of a run meets the guard in the state it is given. -/
def Meets (guard : Op → State → Prop) : List Op → State → Prop
  | [], _ => True
  | op :: rest, state => guard op state ∧ Meets guard rest (act op state)

instance decidableMeets (guard : Op → State → Prop) [∀ op state, Decidable (guard op state)] :
    ∀ ops state, Decidable (Meets act guard ops state)
  | [], _ => .isTrue trivial
  | op :: rest, state =>
    haveI := decidableMeets guard rest (act op state)
    inferInstanceAs (Decidable (guard op state ∧ Meets act guard rest (act op state)))

theorem Meets.imp {guard weaker : Op → State → Prop}
    (implied : ∀ op state, guard op state → weaker op state) (ops : List Op) (state : State)
    (meets : Meets act guard ops state) : Meets act weaker ops state := by
  induction ops generalizing state with
  | nil => trivial
  | cons op rest inductionHypothesis =>
    exact ⟨implied op state meets.1, inductionHypothesis (act op state) meets.2⟩

/-- A guard that an invariant of the run implies together with a guard that is met is met. -/
theorem Meets.of_invariant {guard implied : Op → State → Prop} (Holds : State → Prop)
    (kept : ∀ op state, guard op state → Holds state → Holds (act op state))
    (met : ∀ op state, guard op state → Holds state → implied op state) (ops : List Op)
    (state : State) (meets : Meets act guard ops state) (start : Holds state) :
    Meets act implied ops state := by
  induction ops generalizing state with
  | nil => trivial
  | cons op rest inductionHypothesis =>
    exact ⟨met op state meets.1 start,
      inductionHypothesis (act op state) meets.2 (kept op state meets.1 start)⟩

theorem Meets.and_forall {guard : Op → State → Prop} {Fits : Op → Prop} (ops : List Op)
    (state : State) (meets : Meets act guard ops state) (fits : ∀ op ∈ ops, Fits op) :
    Meets act (fun op state => Fits op ∧ guard op state) ops state := by
  induction ops generalizing state with
  | nil => trivial
  | cons op rest inductionHypothesis =>
    exact ⟨⟨fits op List.mem_cons_self, meets.1⟩, inductionHypothesis (act op state) meets.2
      fun other member => fits other (List.mem_cons_of_mem _ member)⟩

theorem Meets.of_forall {guard : Op → State → Prop} (ops : List Op) (state : State)
    (met : ∀ op ∈ ops, ∀ state, guard op state) : Meets act guard ops state := by
  induction ops generalizing state with
  | nil => trivial
  | cons op rest inductionHypothesis =>
    exact ⟨met op List.mem_cons_self state, inductionHypothesis (act op state)
      fun other member => met other (List.mem_cons_of_mem _ member)⟩

/-- A property that operations keep under a guard holds at the end of a run that meets it. -/
theorem run_invariant (guard : Op → State → Prop) (Holds : State → Prop)
    (kept : ∀ op state, guard op state → Holds state → Holds (act op state)) (ops : List Op)
    (state : State) (meets : Meets act guard ops state) (start : Holds state) :
    Holds (run act ops state) := by
  induction ops generalizing state with
  | nil => exact start
  | cons op rest inductionHypothesis =>
    exact inductionHypothesis (act op state) meets.2 (kept op state meets.1 start)

/-- The operation does not look at the state it is given. -/
def Forgets (op : Op) : Prop := ∀ first second, act op first = act op second

/-- After an operation that forgets, the start no longer matters. -/
theorem run_forgets (ops : List Op) (op : Op) (member : op ∈ ops) (forgets : Forgets act op)
    (first second : State) : run act ops first = run act ops second := by
  obtain ⟨front, back, rfl⟩ := List.append_of_mem member
  rw [run_append, run_append, run_cons, run_cons, forgets (run act front first)]

/-- A relation that every operation keeps at its place holds at the end of the list. -/
theorem run_coupled (ops : List Op) (first second : State) (Related : State → State → Prop)
    (start : Related first second)
    (step : ∀ front op back, ops = front ++ op :: back →
      Related (run act front first) (run act front second) →
      Related (act op (run act front first)) (act op (run act front second))) :
    Related (run act ops first) (run act ops second) := by
  have everywhere : ∀ front back, ops = front ++ back →
      Related (run act front first) (run act front second) := by
    intro front
    induction front using List.reverseRecOn with
    | nil => exact fun _ _ => start
    | append_singleton front op inductionHypothesis =>
      intro back split
      have regrouped : ops = front ++ op :: back := by rw [split, List.append_assoc]; rfl
      rw [run_snoc, run_snoc]
      exact step front op back regrouped (inductionHypothesis (op :: back) regrouped)
  exact everywhere ops [] (List.append_nil ops).symm

/-- A run determines its operations when they are told apart by the states they lead to and none
of them leads back to the start. -/
theorem eq_of_run_eq (start : State) (first second : List Op)
    (apart : ∀ front op, front ++ [op] <+: first → ∀ otherFront other,
      otherFront ++ [other] <+: second →
      act op (run act front start) = act other (run act otherFront start) →
      run act front start = run act otherFront start ∧ op = other)
    (firstLeaves : ∀ front op, front ++ [op] <+: first → act op (run act front start) ≠ start)
    (secondLeaves : ∀ front op, front ++ [op] <+: second → act op (run act front start) ≠ start)
    (equal : run act first start = run act second start) : first = second := by
  induction first using List.reverseRecOn generalizing second with
  | nil =>
    rcases List.eq_nil_or_concat' second with rfl | ⟨otherFront, other, rfl⟩
    · rfl
    · rw [run_nil, run_snoc] at equal
      exact absurd equal.symm (secondLeaves otherFront other List.prefix_rfl)
  | append_singleton front op inductionHypothesis =>
    rcases List.eq_nil_or_concat' second with rfl | ⟨otherFront, other, rfl⟩
    · rw [run_nil, run_snoc] at equal
      exact absurd equal (firstLeaves front op List.prefix_rfl)
    · rw [run_snoc, run_snoc] at equal
      obtain ⟨states, rfl⟩ := apart front op List.prefix_rfl otherFront other List.prefix_rfl equal
      have fronts : front = otherFront := inductionHypothesis otherFront
        (fun earlier step isFront otherEarlier otherStep isOther =>
          apart earlier step (isFront.trans (List.prefix_append _ _)) otherEarlier otherStep
            (isOther.trans (List.prefix_append _ _)))
        (fun earlier step isFront =>
          firstLeaves earlier step (isFront.trans (List.prefix_append _ _)))
        (fun earlier step isFront =>
          secondLeaves earlier step (isFront.trans (List.prefix_append _ _)))
        states
      rw [fronts]

end Replay
