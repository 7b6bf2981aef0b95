/-
This file is about requests that come out as if they had been executed one at a time. A
request may take many steps, but what is observed of the shared state it changes at one
of them only, and there as it would change what it finds. In every run in which no
request fails, the requests that have taken their effect, in the order in which they
took it, are then the order in which they could have been executed one after another.
-/

import Mathlib.Data.List.Nodup
import ConsensusDB.Lib.Requests

namespace Requests

variable {Id Shared Request Phase Input Event Value : Type}

/-- Requests are executed one at a time, each on what the one before has left. -/
def Serial (effect : Request → Value → Value → Prop) : List (Id × Request) → Value → Value → Prop
  | [], before, after => before = after
  | entry :: rest, before, after =>
    ∃ between, effect entry.2 before between ∧ Serial effect rest between after

theorem Serial.snoc {effect : Request → Value → Value → Prop} (id : Id) {request : Request}
    {between after : Value} (last : effect request between after) (log : List (Id × Request))
    (before : Value) (serial : Serial effect log before between) :
    Serial effect (log ++ [(id, request)]) before after := by
  induction log generalizing before with
  | nil =>
    obtain rfl : before = between := serial
    exact ⟨after, last, rfl⟩
  | cons entry rest inductionHypothesis =>
    obtain ⟨next, takes, later⟩ := serial
    exact ⟨next, takes, inductionHypothesis next later⟩

/-- What is observed of requests and of the shared state: what a request has been asked for, whether
it has taken its effect or has failed, a part of the shared state, and what a request does to this
part when it is executed alone. -/
structure Observation (Shared Request Phase Value : Type) where
  task : Phase → Request
  took : Phase → Prop
  failed : Phase → Prop
  view : Shared → Value
  effect : Request → Value → Value → Prop

namespace Observation

variable (observation : Observation Shared Request Phase Value)

/-- A step takes the effect of its request, or nothing is seen of it. -/
def Takes (shared after : Shared) (phase next : Phase) : Prop :=
  (observation.took next ↔ observation.took phase) ∧
      observation.view after = observation.view shared ∨
    ¬ observation.took phase ∧ observation.took next ∧
      observation.effect (observation.task phase) (observation.view shared) (observation.view after)

/-- The log lists the requests that have taken their effect, each once, and what is observed comes
of executing them in this order. -/
structure Serialized (initial : Value) (log : List (Id × Request)) (state : State Id Shared Phase) :
    Prop where
  nodup : (log.map Prod.fst).Nodup
  mem : ∀ id request, (id, request) ∈ log ↔ ∃ phase, state.phases id = some phase ∧
    observation.took phase ∧ observation.task phase = request
  serial : Serial observation.effect log initial (observation.view state.shared)

/-- Some request has failed. -/
def Failed (state : State Id Shared Phase) : Prop :=
  ∃ id phase, state.phases id = some phase ∧ observation.failed phase

variable {observation} [DecidableEq Id] {initial : Value} {log : List (Id × Request)}
  {state : State Id Shared Phase}

omit [DecidableEq Id] in
theorem serialized_begin (shared : Shared) :
    observation.Serialized (observation.view shared) [] (begin Id shared) := by
  refine ⟨List.nodup_nil, fun id request => ?_, rfl⟩
  refine iff_of_false List.not_mem_nil ?_
  rintro ⟨phase, found, _⟩
  cases found

/-- Nothing is seen of a step that leaves what is observed, and of its request only whether it had
taken its effect before. -/
theorem Serialized.move (serialized : observation.Serialized initial log state) (id : Id)
    (phase : Phase) (shared : Shared)
    (same : observation.view shared = observation.view state.shared)
    (took : ∀ request, (observation.took phase ∧ observation.task phase = request) ↔
      ∃ before, state.phases id = some before ∧ observation.took before ∧
        observation.task before = request) :
    observation.Serialized initial log (State.move { state with shared := shared } id phase) := by
  refine ⟨serialized.nodup, fun other request => ?_, ?_⟩
  · rw [serialized.mem]
    by_cases isId : other = id
    · subst isId
      rw [← took, State.move_self]
      constructor
      · exact fun facts => ⟨phase, rfl, facts⟩
      · rintro ⟨entered, isEntered, facts⟩
        obtain rfl := Option.some.inj isEntered
        exact facts
    · rw [State.move_of_ne _ _ _ isId]
  · rw [State.move_shared, same]
    exact serialized.serial

/-- A request that takes its effect is the last so far. -/
theorem Serialized.take (serialized : observation.Serialized initial log state) (id : Id)
    {before : Phase} (found : state.phases id = some before) (untaken : ¬ observation.took before)
    (phase : Phase) (taken : observation.took phase) (shared : Shared)
    (effect : observation.effect (observation.task phase) (observation.view state.shared)
      (observation.view shared)) :
    observation.Serialized initial (log ++ [(id, observation.task phase)])
      (State.move { state with shared := shared } id phase) := by
  have absent : ∀ request, (id, request) ∉ log := by
    intro request member
    obtain ⟨other, isOther, took, _⟩ := (serialized.mem id request).mp member
    obtain rfl := Option.some.inj (isOther.symm.trans found)
    exact untaken took
  refine ⟨?_, fun other request => ?_, serialized.serial.snoc id effect log initial⟩
  · rw [List.map_append, List.map_singleton, ← List.concat_eq_append]
    refine List.Nodup.concat (fun member => ?_) serialized.nodup
    obtain ⟨entry, isEntry, rfl⟩ := List.mem_map.mp member
    exact absent entry.2 isEntry
  · rw [List.mem_append, List.mem_singleton, Prod.mk.injEq]
    by_cases isId : other = id
    · subst isId
      rw [State.move_self]
      constructor
      · rintro (member | ⟨_, rfl⟩)
        · exact absurd member (absent request)
        · exact ⟨phase, rfl, taken, rfl⟩
      · rintro ⟨entered, isEntered, _, rfl⟩
        obtain rfl := Option.some.inj isEntered
        exact Or.inr ⟨rfl, rfl⟩
    · rw [State.move_of_ne _ _ _ isId, serialized.mem]
      constructor
      · rintro (facts | ⟨same, _⟩)
        · exact facts
        · exact absurd same isId
      · exact Or.inl

end Observation

namespace Machine

/-- The steps of requests and the events are allowed where they are taken. -/
def guardAt (allowed : Input → Shared → Phase → Prop) (permitted : Event → Shared → Prop)
    (step : Step Id Request Input Event) (state : State Id Shared Phase) : Prop :=
  match step with
  | .advance id input => ∀ phase, state.phases id = some phase → allowed input state.shared phase
  | .occur event => permitted event state.shared
  | _ => True

/-- Every request takes its effect at one step, unless it fails, and a failure is final. -/
structure Atomic (machine : Machine Shared Request Phase Input Event)
    (allowed : Input → Shared → Phase → Prop) (permitted : Event → Shared → Prop)
    (Global : Shared → Prop) (Local : Phase → Prop)
    (observation : Observation Shared Request Phase Value) : Prop where
  first : ∀ request, Local (machine.first request) ∧ ¬ observation.took (machine.first request)
  next : ∀ input shared phase, allowed input shared phase → Global shared → Local phase →
    observation.failed (machine.next input shared phase).1 ∨
      Global (machine.next input shared phase).2 ∧ Local (machine.next input shared phase).1 ∧
        observation.task (machine.next input shared phase).1 = observation.task phase ∧
        observation.Takes shared (machine.next input shared phase).2 phase
          (machine.next input shared phase).1
  stop : ∀ phase, machine.stop phase = phase ∨ observation.failed (machine.stop phase)
  occur : ∀ event shared, permitted event shared → Global shared →
    Global (machine.occur event shared) ∧
      observation.view (machine.occur event shared) = observation.view shared
  final : ∀ input shared phase, observation.failed phase →
    observation.failed (machine.next input shared phase).1

variable [DecidableEq Id] {machine : Machine Shared Request Phase Input Event}
  {allowed : Input → Shared → Phase → Prop} {permitted : Event → Shared → Prop}
  {Global : Shared → Prop} {Local : Phase → Prop}
  {observation : Observation Shared Request Phase Value}

/-- A request that has failed has failed for good. -/
theorem Atomic.failed_act (atomic : machine.Atomic allowed permitted Global Local observation)
    (step : Step Id Request Input Event) (state : State Id Shared Phase)
    (failed : observation.Failed state) : observation.Failed (machine.act step state) := by
  obtain ⟨failing, phase, isPhase, hasFailed⟩ := failed
  -- what another request does leaves the phase, and what this one does keeps it failed
  have elsewhere : ∀ shared id next, (id = failing → observation.failed next) →
      observation.Failed (State.move { state with shared := shared } id next) := by
    intro shared id next same
    by_cases isId : failing = id
    · subst isId
      exact ⟨failing, next, State.move_self _ _ _, same rfl⟩
    · refine ⟨failing, phase, ?_, hasFailed⟩
      rw [State.move_of_ne _ _ _ isId]
      exact isPhase
  rcases machine.act_cases step state with same | ⟨id, request, _, absent, moved⟩ |
    ⟨id, input, before, rfl, found, moved⟩ | ⟨id, before, _, found, moved⟩ | ⟨event, rfl, moved⟩
  · rw [same]
    exact ⟨failing, phase, isPhase, hasFailed⟩
  · rw [moved]
    refine elsewhere state.shared id _ fun same => ?_
    subst same
    exact absurd (isPhase.symm.trans absent) (Option.some_ne_none _)
  · rw [moved]
    refine elsewhere _ id _ fun same => ?_
    subst same
    obtain rfl := Option.some.inj (isPhase.symm.trans found)
    exact atomic.final input state.shared phase hasFailed
  · rw [moved]
    refine elsewhere state.shared id _ fun same => ?_
    subst same
    obtain rfl := Option.some.inj (isPhase.symm.trans found)
    rcases atomic.stop phase with stays | stops
    · rw [stays]
      exact hasFailed
    · exact stops
  · rw [moved]
    exact ⟨failing, phase, isPhase, hasFailed⟩

theorem Atomic.serialized_act (atomic : machine.Atomic allowed permitted Global Local observation)
    (step : Step Id Request Input Event) (state : State Id Shared Phase)
    (met : guardAt allowed permitted step state) (holds : Holds Global Local state)
    {initial : Value} {log : List (Id × Request)}
    (serialized : observation.Serialized initial log state) :
    observation.Failed (machine.act step state) ∨ Holds Global Local (machine.act step state) ∧
      ∃ later, observation.Serialized initial later (machine.act step state) := by
  rcases machine.act_cases step state with same | ⟨id, request, _, absent, moved⟩ |
    ⟨id, input, phase, rfl, found, moved⟩ | ⟨id, phase, _, found, moved⟩ | ⟨event, rfl, moved⟩
  · rw [same]
    exact Or.inr ⟨holds, log, serialized⟩
  · rw [moved]
    obtain ⟨isLocal, untaken⟩ := atomic.first request
    refine Or.inr ⟨holds.move id _ isLocal, log,
      serialized.move id _ state.shared rfl fun task => ?_⟩
    refine iff_of_false (fun facts => untaken facts.1) ?_
    rintro ⟨before, isBefore, _⟩
    exact absurd (isBefore.symm.trans absent) (Option.some_ne_none _)
  · rw [moved]
    rcases atomic.next input state.shared phase (met phase found) holds.1 (holds.2 id phase found)
      with failed | ⟨isGlobal, isLocal, task, takes⟩
    · exact Or.inl ⟨id, _, State.move_self _ _ _, failed⟩
    · have between : Holds Global Local
          { state with shared := (machine.next input state.shared phase).2 } := ⟨isGlobal, holds.2⟩
      refine Or.inr ⟨between.move id _ isLocal, ?_⟩
      rcases takes with ⟨took, same⟩ | ⟨untaken, taken, effect⟩
      · refine ⟨log, serialized.move id _ _ same fun request => ?_⟩
        rw [took, task]
        constructor
        · exact fun facts => ⟨phase, found, facts⟩
        · rintro ⟨before, isBefore, facts⟩
          obtain rfl := Option.some.inj (isBefore.symm.trans found)
          exact facts
      · rw [← task] at effect
        exact ⟨_, serialized.take id found untaken _ taken _ effect⟩
  · rw [moved]
    rcases atomic.stop phase with stays | stops
    · have same : state.move id (machine.stop phase) = state := by
        rw [stays, State.move, ← found, Function.update_eq_self]
      rw [same]
      exact Or.inr ⟨holds, log, serialized⟩
    · exact Or.inl ⟨id, _, State.move_self _ _ _, stops⟩
  · rw [moved]
    obtain ⟨isGlobal, same⟩ := atomic.occur event state.shared met holds.1
    exact Or.inr ⟨⟨isGlobal, holds.2⟩, log, serialized.nodup, serialized.mem,
      same.symm ▸ serialized.serial⟩

/-- In every run whose steps are allowed where they are taken, some request fails, or those that
have taken their effect could have been executed one at a time. -/
theorem Atomic.serialized_run (atomic : machine.Atomic allowed permitted Global Local observation)
    (steps : List (Step Id Request Input Event)) (shared : Shared)
    (meets : Replay.Meets machine.act (guardAt allowed permitted) steps (begin Id shared))
    (start : Global shared) :
    observation.Failed (Replay.run machine.act steps (begin Id shared)) ∨
      ∃ log, observation.Serialized (observation.view shared) log
        (Replay.run machine.act steps (begin Id shared)) := by
  have reached := Replay.run_invariant machine.act (guardAt allowed permitted)
    (fun state : State Id Shared Phase => observation.Failed state ∨ Holds Global Local state ∧
      ∃ log, observation.Serialized (observation.view shared) log state)
    (fun step state met kept => by
      rcases kept with failed | ⟨holds, log, serialized⟩
      · exact Or.inl (atomic.failed_act step state failed)
      · exact atomic.serialized_act step state met holds serialized)
    steps (begin Id shared) meets
    (Or.inr ⟨holds_begin shared start, [], Observation.serialized_begin shared⟩)
  exact reached.imp_right And.right

end Machine

end Requests
