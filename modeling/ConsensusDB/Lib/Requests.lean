/-
This file is about requests that take their steps in any order. A request is in a
phase. Its step gives it the next phase and may change what all requests share; a
request may also stop for good, and events beside the requests change only what is
shared.

A fact about what is shared, together with a fact about every phase, holds in every
run in which the steps of the requests are allowed ones, if it is kept where a step
starts in phases that have it. Of requests that need a thing which can be used once,
at most one gets it: it was not used up before the step that gets it, and it is used
up from then on. What a request knows of what is shared may grow old: it lasts, if each
step leads to something later and what is known stays true of all that is later.
-/

import Mathlib.Logic.Function.Basic
import ConsensusDB.Lib.Replay

namespace Requests

/-- What the requests do: their first phase, their steps, what is left of one that stops, and the
events beside them. -/
structure Machine (Shared Request Phase Input Event : Type) where
  first : Request → Phase
  next : Input → Shared → Phase → Phase × Shared
  stop : Phase → Phase
  occur : Event → Shared → Shared

structure State (Id Shared Phase : Type) where
  shared : Shared
  phases : Id → Option Phase

inductive Step (Id Request Input Event : Type) where
  | start (id : Id) (request : Request)
  | advance (id : Id) (input : Input)
  | stop (id : Id)
  | occur (event : Event)

/-- No request has started. -/
def begin (Id : Type) {Shared Phase : Type} (shared : Shared) : State Id Shared Phase :=
  ⟨shared, fun _ => none⟩

variable {Id Shared Request Phase Input Event : Type} [DecidableEq Id]

/-- A request enters a phase. -/
def State.move (state : State Id Shared Phase) (id : Id) (phase : Phase) : State Id Shared Phase :=
  { state with phases := Function.update state.phases id (some phase) }

@[simp] theorem State.move_shared (state : State Id Shared Phase) (id : Id) (phase : Phase) :
    (state.move id phase).shared = state.shared := rfl

@[simp] theorem State.move_self (state : State Id Shared Phase) (id : Id) (phase : Phase) :
    (state.move id phase).phases id = some phase :=
  Function.update_self _ _ _

theorem State.move_of_ne (state : State Id Shared Phase) (id : Id) (phase : Phase) {other : Id}
    (different : other ≠ id) : (state.move id phase).phases other = state.phases other :=
  Function.update_of_ne different _ _

/-- A phase after a move is the one that was entered, or one that was there. -/
theorem State.move_cases {state : State Id Shared Phase} {id other : Id} {phase found : Phase}
    (isFound : (state.move id phase).phases other = some found) :
    other = id ∧ found = phase ∨ other ≠ id ∧ state.phases other = some found := by
  by_cases same : other = id
  · subst same
    rw [State.move_self] at isFound
    exact Or.inl ⟨rfl, (Option.some.inj isFound).symm⟩
  · rw [State.move_of_ne state id phase same] at isFound
    exact Or.inr ⟨same, isFound⟩

namespace Machine

variable (machine : Machine Shared Request Phase Input Event)

def act (step : Step Id Request Input Event) (state : State Id Shared Phase) :
    State Id Shared Phase :=
  match step with
  | .start id request =>
    match state.phases id with
    | none => state.move id (machine.first request)
    | some _ => state
  | .advance id input =>
    match state.phases id with
    | none => state
    | some phase =>
      State.move { state with shared := (machine.next input state.shared phase).2 } id
        (machine.next input state.shared phase).1
  | .stop id =>
    match state.phases id with
    | none => state
    | some phase => state.move id (machine.stop phase)
  | .occur event => { state with shared := machine.occur event state.shared }

/-- What a step can do. -/
theorem act_cases (step : Step Id Request Input Event) (state : State Id Shared Phase) :
    machine.act step state = state ∨
      (∃ id request, step = .start id request ∧ state.phases id = none ∧
        machine.act step state = state.move id (machine.first request)) ∨
      (∃ id input phase, step = .advance id input ∧ state.phases id = some phase ∧
        machine.act step state =
          State.move { state with shared := (machine.next input state.shared phase).2 } id
            (machine.next input state.shared phase).1) ∨
      (∃ id phase, step = .stop id ∧ state.phases id = some phase ∧
        machine.act step state = state.move id (machine.stop phase)) ∨
      ∃ event, step = .occur event ∧
        machine.act step state = { state with shared := machine.occur event state.shared } := by
  cases step with
  | start id request =>
    cases found : state.phases id with
    | none => exact Or.inr (Or.inl ⟨id, request, rfl, found, by simp only [act, found]⟩)
    | some phase => exact Or.inl (by simp only [act, found])
  | advance id input =>
    cases found : state.phases id with
    | none => exact Or.inl (by simp only [act, found])
    | some phase =>
      exact Or.inr (Or.inr (Or.inl ⟨id, input, phase, rfl, found, by simp only [act, found]⟩))
  | stop id =>
    cases found : state.phases id with
    | none => exact Or.inl (by simp only [act, found])
    | some phase =>
      exact Or.inr (Or.inr (Or.inr (Or.inl ⟨id, phase, rfl, found, by simp only [act, found]⟩)))
  | occur event => exact Or.inr (Or.inr (Or.inr (Or.inr ⟨event, rfl, rfl⟩)))

/-! ### Facts that every allowed step keeps -/

/-- The steps of requests and the events are allowed ones. -/
def guard (allowed : Input → Prop) (permitted : Event → Prop) (step : Step Id Request Input Event)
    (_ : State Id Shared Phase) : Prop :=
  match step with
  | .advance _ input => allowed input
  | .occur event => permitted event
  | _ => True

/-- A fact about what is shared and one about phases are kept together. -/
structure Invariant (allowed : Input → Prop) (permitted : Event → Prop) (Global : Shared → Prop)
    (Local : Phase → Prop) : Prop where
  first : ∀ request, Local (machine.first request)
  next : ∀ input shared phase, allowed input → Global shared → Local phase →
    Global (machine.next input shared phase).2 ∧ Local (machine.next input shared phase).1
  stop : ∀ phase, Local phase → Local (machine.stop phase)
  occur : ∀ event shared, permitted event → Global shared → Global (machine.occur event shared)

/-- The fact about what is shared holds, and every phase has its own. -/
def Holds (Global : Shared → Prop) (Local : Phase → Prop) (state : State Id Shared Phase) : Prop :=
  Global state.shared ∧ ∀ id phase, state.phases id = some phase → Local phase

variable {machine} {allowed : Input → Prop} {permitted : Event → Prop} {Global : Shared → Prop}
  {Local : Phase → Prop}

omit [DecidableEq Id] in
theorem holds_begin (shared : Shared) (start : Global shared) :
    Holds Global Local (begin Id shared : State Id Shared Phase) :=
  ⟨start, fun _ _ found => absurd found.symm (Option.some_ne_none _)⟩

theorem Holds.move {state : State Id Shared Phase} (holds : Holds Global Local state) (id : Id)
    (phase : Phase) (fact : Local phase) : Holds Global Local (state.move id phase) := by
  refine ⟨holds.1, fun other found isFound => ?_⟩
  rcases State.move_cases isFound with ⟨_, rfl⟩ | ⟨_, before⟩
  · exact fact
  · exact holds.2 other found before

theorem Invariant.holds_act (invariant : machine.Invariant allowed permitted Global Local)
    (step : Step Id Request Input Event) (state : State Id Shared Phase)
    (met : guard allowed permitted step state) (holds : Holds Global Local state) :
    Holds Global Local (machine.act step state) := by
  rcases machine.act_cases step state with same | ⟨id, request, _, _, moved⟩ |
    ⟨id, input, phase, rfl, found, moved⟩ | ⟨id, phase, _, found, moved⟩ | ⟨event, rfl, moved⟩
  · rw [same]
    exact holds
  · rw [moved]
    exact holds.move id _ (invariant.first request)
  · obtain ⟨isGlobal, isLocal⟩ :=
      invariant.next input state.shared phase met holds.1 (holds.2 id phase found)
    have between : Holds Global Local
        { state with shared := (machine.next input state.shared phase).2 } := ⟨isGlobal, holds.2⟩
    rw [moved]
    exact between.move id _ isLocal
  · rw [moved]
    exact holds.move id _ (invariant.stop phase (holds.2 id phase found))
  · rw [moved]
    exact ⟨invariant.occur event state.shared met holds.1, holds.2⟩

theorem Invariant.holds_run (invariant : machine.Invariant allowed permitted Global Local)
    (steps : List (Step Id Request Input Event)) (state : State Id Shared Phase)
    (meets : Replay.Meets machine.act (guard allowed permitted) steps state)
    (holds : Holds Global Local state) :
    Holds Global Local (Replay.run machine.act steps state) :=
  Replay.run_invariant machine.act (guard allowed permitted) (Holds Global Local)
    (fun step state met => invariant.holds_act step state met) steps state meets holds

/-! ### Facts that last -/

/-- Every step leads to something later, and what is known of a phase stays true of what is later.
So it may speak of what is shared. -/
structure Lasting (machine : Machine Shared Request Phase Input Event) (allowed : Input → Prop)
    (permitted : Event → Prop) (Global : Shared → Prop) (Later : Shared → Shared → Prop)
    (Known : Shared → Phase → Prop) : Prop where
  refl : ∀ shared, Later shared shared
  trans : ∀ first second third, Later first second → Later second third → Later first third
  kept : ∀ shared later phase, Later shared later → Known shared phase → Known later phase
  first : ∀ shared request, Known shared (machine.first request)
  next : ∀ input shared phase, allowed input → Global shared → Known shared phase →
    Global (machine.next input shared phase).2 ∧
      Later shared (machine.next input shared phase).2 ∧
      Known (machine.next input shared phase).2 (machine.next input shared phase).1
  stop : ∀ shared phase, Known shared phase → Known shared (machine.stop phase)
  occur : ∀ event shared, permitted event → Global shared →
    Global (machine.occur event shared) ∧ Later shared (machine.occur event shared)

/-- The fact about what is shared holds, and what is known of each phase. -/
def AllKnown (Global : Shared → Prop) (Known : Shared → Phase → Prop)
    (state : State Id Shared Phase) : Prop :=
  Holds Global (Known state.shared) state

variable {Later : Shared → Shared → Prop} {Known : Shared → Phase → Prop}

/-- One step of a request or an event. -/
theorem Lasting.act (lasting : Lasting machine allowed permitted Global Later Known)
    (step : Step Id Request Input Event) (state : State Id Shared Phase)
    (met : guard allowed permitted step state) (holds : AllKnown Global Known state) :
    AllKnown Global Known (machine.act step state) ∧
      Later state.shared (machine.act step state).shared := by
  rcases machine.act_cases step state with same | ⟨id, request, _, _, moved⟩ |
    ⟨id, input, phase, rfl, found, moved⟩ | ⟨id, phase, _, found, moved⟩ | ⟨event, rfl, moved⟩
  · rw [same]
    exact ⟨holds, lasting.refl _⟩
  · rw [moved]
    exact ⟨Holds.move holds id _ (lasting.first _ request), lasting.refl _⟩
  · obtain ⟨isGlobal, later, known⟩ :=
      lasting.next input state.shared phase met holds.1 (holds.2 id phase found)
    have between : Holds Global (Known (machine.next input state.shared phase).2)
        { state with shared := (machine.next input state.shared phase).2 } :=
      ⟨isGlobal, fun other each isEach =>
        lasting.kept _ _ each later (holds.2 other each isEach)⟩
    rw [moved]
    exact ⟨between.move id _ known, later⟩
  · rw [moved]
    exact ⟨Holds.move holds id _ (lasting.stop _ phase (holds.2 id phase found)), lasting.refl _⟩
  · obtain ⟨isGlobal, later⟩ := lasting.occur event state.shared met holds.1
    rw [moved]
    exact ⟨⟨isGlobal, fun id phase found => lasting.kept _ _ phase later (holds.2 id phase found)⟩,
      later⟩

/-- What is known of the phases is true at the end of every run whose steps are allowed, and the
run ends later than it started. -/
theorem Lasting.run (lasting : Lasting machine allowed permitted Global Later Known)
    (steps : List (Step Id Request Input Event)) (state : State Id Shared Phase)
    (meets : Replay.Meets machine.act (guard allowed permitted) steps state)
    (holds : AllKnown Global Known state) :
    AllKnown Global Known (Replay.run machine.act steps state) ∧
      Later state.shared (Replay.run machine.act steps state).shared := by
  induction steps generalizing state with
  | nil => exact ⟨holds, lasting.refl _⟩
  | cons step rest inductionHypothesis =>
    obtain ⟨nextHolds, later⟩ := lasting.act step state meets.1 holds
    obtain ⟨endHolds, muchLater⟩ := inductionHypothesis _ meets.2 nextHolds
    exact ⟨endHolds, lasting.trans _ _ _ later muchLater⟩

/-! ### A thing that can be used once -/

/-- The phases that have got a thing: no request starts in one, a step that enters one uses the
thing up, and what is used up stays so. -/
structure SingleUse (machine : Machine Shared Request Phase Input Event) (permitted : Event → Prop)
    (Global : Shared → Prop) (Local Got : Phase → Prop) (UsedUp : Shared → Prop) : Prop where
  first : ∀ request, ¬ Got (machine.first request)
  next : ∀ input shared phase, Global shared → Local phase →
    Got (machine.next input shared phase).1 →
      Got phase ∨ ¬ UsedUp shared ∧ UsedUp (machine.next input shared phase).2
  stop : ∀ phase, Got (machine.stop phase) → Got phase
  kept : ∀ input shared phase, Global shared → Local phase → UsedUp shared →
    UsedUp (machine.next input shared phase).2
  occur : ∀ event shared, permitted event → Global shared → UsedUp shared →
    UsedUp (machine.occur event shared)

/-- One request at most has got the thing, and then it is used up. -/
structure OneGot (Got : Phase → Prop) (UsedUp : Shared → Prop) (state : State Id Shared Phase) :
    Prop where
  usedUp : ∀ id phase, state.phases id = some phase → Got phase → UsedUp state.shared
  unique : ∀ first second firstPhase secondPhase, state.phases first = some firstPhase →
    state.phases second = some secondPhase → Got firstPhase → Got secondPhase → first = second

variable {Got : Phase → Prop} {UsedUp : Shared → Prop}

omit [DecidableEq Id] in
theorem oneGot_begin (shared : Shared) :
    OneGot Got UsedUp (begin Id shared : State Id Shared Phase) :=
  ⟨fun _ _ found => absurd found.symm (Option.some_ne_none _),
    fun _ _ _ _ found => absurd found.symm (Option.some_ne_none _)⟩

/-- A request that enters a phase it had got, or one that has not got the thing, changes nothing;
neither does a change of what is shared after which a thing that was used up still is. -/
theorem OneGot.move {state : State Id Shared Phase} (one : OneGot Got UsedUp state) (id : Id)
    (phase : Phase) (shared : Shared) (kept : UsedUp state.shared → UsedUp shared)
    (had : Got phase → ∃ before, state.phases id = some before ∧ Got before) :
    OneGot Got UsedUp (State.move { state with shared := shared } id phase) := by
  have earlier : ∀ other found,
      (State.move { state with shared := shared } id phase).phases other = some found → Got found →
      ∃ before, state.phases other = some before ∧ Got before := by
    intro other found isFound got
    rcases State.move_cases isFound with ⟨rfl, rfl⟩ | ⟨_, before⟩
    · exact had got
    · exact ⟨found, before, got⟩
  refine ⟨fun other found isFound got => ?_,
    fun first second firstPhase secondPhase isFirst isSecond firstGot secondGot => ?_⟩
  · obtain ⟨before, isBefore, gotBefore⟩ := earlier other found isFound got
    exact kept (one.usedUp other before isBefore gotBefore)
  · obtain ⟨firstBefore, isFirstBefore, gotFirst⟩ := earlier first firstPhase isFirst firstGot
    obtain ⟨secondBefore, isSecondBefore, gotSecond⟩ :=
      earlier second secondPhase isSecond secondGot
    exact one.unique first second firstBefore secondBefore isFirstBefore isSecondBefore gotFirst
      gotSecond

/-- A request that gets the thing while it is not used up is the only one. -/
theorem OneGot.get {state : State Id Shared Phase} (one : OneGot Got UsedUp state) (id : Id)
    (phase : Phase) (shared : Shared) (unused : ¬ UsedUp state.shared) (used : UsedUp shared) :
    OneGot Got UsedUp (State.move { state with shared := shared } id phase) := by
  have only : ∀ other found,
      (State.move { state with shared := shared } id phase).phases other = some found → Got found →
      other = id := by
    intro other found isFound got
    rcases State.move_cases isFound with ⟨rfl, _⟩ | ⟨_, before⟩
    · rfl
    · exact absurd (one.usedUp other found before got) unused
  exact ⟨fun _ _ _ _ => used, fun first second firstPhase secondPhase isFirst isSecond firstGot
    secondGot => (only first firstPhase isFirst firstGot).trans
      (only second secondPhase isSecond secondGot).symm⟩

theorem SingleUse.oneGot_act (singleUse : SingleUse machine permitted Global Local Got UsedUp)
    (step : Step Id Request Input Event) (state : State Id Shared Phase)
    (met : guard allowed permitted step state) (holds : Holds Global Local state)
    (one : OneGot Got UsedUp state) : OneGot Got UsedUp (machine.act step state) := by
  rcases machine.act_cases step state with same | ⟨id, request, _, _, moved⟩ |
    ⟨id, input, phase, rfl, found, moved⟩ | ⟨id, phase, _, found, moved⟩ | ⟨event, rfl, moved⟩
  · rw [same]
    exact one
  · rw [moved]
    exact one.move id _ state.shared (fun used => used) fun got =>
      absurd got (singleUse.first request)
  · rw [moved]
    have isLocal := holds.2 id phase found
    by_cases got : Got (machine.next input state.shared phase).1
    · rcases singleUse.next input state.shared phase holds.1 isLocal got with
        before | ⟨unused, used⟩
      · exact one.move id _ _ (singleUse.kept input state.shared phase holds.1 isLocal)
          fun _ => ⟨phase, found, before⟩
      · exact one.get id _ _ unused used
    · exact one.move id _ _ (singleUse.kept input state.shared phase holds.1 isLocal)
        fun has => absurd has got
  · rw [moved]
    exact one.move id _ state.shared (fun used => used) fun got =>
      ⟨phase, found, singleUse.stop phase got⟩
  · rw [moved]
    exact ⟨fun id phase found got =>
      singleUse.occur event state.shared met holds.1 (one.usedUp id phase found got), one.unique⟩

/-- In every run whose steps are allowed, one request at most gets the thing. -/
theorem SingleUse.oneGot_run (singleUse : SingleUse machine permitted Global Local Got UsedUp)
    (invariant : machine.Invariant allowed permitted Global Local)
    (steps : List (Step Id Request Input Event)) (state : State Id Shared Phase)
    (meets : Replay.Meets machine.act (guard allowed permitted) steps state)
    (holds : Holds Global Local state) (one : OneGot Got UsedUp state) :
    OneGot Got UsedUp (Replay.run machine.act steps state) :=
  (Replay.run_invariant machine.act (guard allowed permitted)
    (fun state => Holds Global Local state ∧ OneGot Got UsedUp state)
    (fun step state met both => ⟨invariant.holds_act step state met both.1,
      singleUse.oneGot_act step state met both.1 both.2⟩) steps state meets ⟨holds, one⟩).2

end Machine

end Requests
