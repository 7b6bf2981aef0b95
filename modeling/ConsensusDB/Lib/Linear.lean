/-
This file is linearizability. A history is the list of what clients see: operations
are invoked and answered. It is linearized by an order in which each operation takes
its step at one point, if every answer is the one a sequential run in that order
gives, every step belongs to an operation that was invoked, and an operation that was
answered before another one was invoked comes before it.

A system that puts operations into a log is linearized by its log: a history stays
linearized when an operation is invoked, when an operation that was invoked is added
to the end of the order, and when one that is in the order is answered with what its
place in it gives.
-/

import Mathlib.Data.List.Nodup

namespace Linear

/-- What clients see of operations, which are numbered. -/
inductive Event (Call Response : Type) where
  | invoked (op : Nat) (call : Call)
  | answered (op : Nat) (response : Response)

variable {State Step Call Response : Type}

namespace Event

def invocation : Event Call Response → Option Nat
  | invoked op _ => some op
  | answered _ _ => none

def answer : Event Call Response → Option Nat
  | invoked _ _ => none
  | answered op _ => some op

end Event

/-- The first operation was answered before the second was invoked. -/
def Precedes (events : List (Event Call Response)) (first second : Nat) : Prop :=
  ∃ earlier later, events = earlier ++ later ∧ (∃ response, .answered first response ∈ earlier) ∧
    ∃ call, .invoked second call ∈ later

/-- The first operation takes its step before the second. -/
def Before (order : List (Nat × Step)) (first second : Nat) : Prop :=
  ∃ front rest, order = front ++ rest ∧ first ∈ front.map Prod.fst ∧ second ∈ rest.map Prod.fst

/-- The state after steps. -/
def after (apply : State → Step → Response × State) (start : State) (steps : List Step) : State :=
  steps.foldl (fun state step => (apply state step).2) start

section

variable (apply : State → Step → Response × State) (start : State)
  (Realises : Call → Step → Prop)

/-- An order of steps linearizes a history. -/
structure Linearizes (events : List (Event Call Response)) (order : List (Nat × Step)) :
    Prop where
  invokedOnce : (events.filterMap Event.invocation).Nodup
  answeredOnce : (events.filterMap Event.answer).Nodup
  stepsOnce : (order.map Prod.fst).Nodup
  invoked : ∀ op step, (op, step) ∈ order →
    ∃ call, .invoked op call ∈ events ∧ Realises call step
  answered : ∀ op response, .answered op response ∈ events →
    ∃ front step rest, order = front ++ (op, step) :: rest ∧
      (apply (after apply start (front.map Prod.snd)) step).1 = response
  realTime : ∀ first second, Precedes events first second → second ∈ order.map Prod.fst →
    Before order first second

end

/-- What precedes in a history with one more event: it did before, or the event is the
invocation. -/
theorem precedes_snoc {events : List (Event Call Response)} {event : Event Call Response}
    {first second : Nat} (precedes : Precedes (events ++ [event]) first second) :
    Precedes events first second ∨
      ((∃ response, .answered first response ∈ events) ∧ ∃ call, event = .invoked second call) := by
  obtain ⟨earlier, later, split, ⟨response, answered⟩, call, invoked⟩ := precedes
  rcases List.eq_nil_or_concat' later with rfl | ⟨others, last, rfl⟩
  · cases invoked
  · rw [← List.append_assoc] at split
    obtain ⟨rest, same⟩ := List.append_inj' split rfl
    cases same
    rcases List.mem_append.mp invoked with between | isLast
    · exact Or.inl ⟨earlier, others, rest, ⟨response, answered⟩, call, between⟩
    · refine Or.inr ⟨⟨response, rest ▸ List.mem_append_left _ answered⟩, call, ?_⟩
      exact (List.mem_singleton.mp isLast).symm

theorem before_append {order : List (Nat × Step)} {first second : Nat}
    (before : Before order first second) (more : List (Nat × Step)) :
    Before (order ++ more) first second := by
  obtain ⟨front, rest, rfl, isFirst, isSecond⟩ := before
  refine ⟨front, rest ++ more, List.append_assoc _ _ _, isFirst, ?_⟩
  rw [List.map_append]
  exact List.mem_append_left _ isSecond

namespace Linearizes

variable {apply : State → Step → Response × State} {start : State}
  {Realises : Call → Step → Prop} {events : List (Event Call Response)}
  {order : List (Nat × Step)}

theorem nil : Linearizes apply start Realises [] [] where
  invokedOnce := List.nodup_nil
  answeredOnce := List.nodup_nil
  stepsOnce := List.nodup_nil
  invoked _ _ member := absurd member List.not_mem_nil
  answered _ _ member := absurd member List.not_mem_nil
  realTime _ _ _ member := absurd member List.not_mem_nil

/-- An operation that was answered is in the order. -/
theorem mem_of_answered (linearizes : Linearizes apply start Realises events order) {op : Nat}
    {response : Response} (answered : .answered op response ∈ events) :
    op ∈ order.map Prod.fst := by
  obtain ⟨front, step, rest, rfl, _⟩ := linearizes.answered op response answered
  rw [List.map_append]
  exact List.mem_append_right _ List.mem_cons_self

theorem mem_of_step (linearizes : Linearizes apply start Realises events order) {op : Nat}
    (member : op ∈ order.map Prod.fst) : ∃ call, .invoked op call ∈ events := by
  obtain ⟨⟨other, step⟩, placed, rfl⟩ := List.mem_map.mp member
  obtain ⟨call, invoked, _⟩ := linearizes.invoked other step placed
  exact ⟨call, invoked⟩

theorem invoke (linearizes : Linearizes apply start Realises events order) (op : Nat)
    (call : Call) (fresh : ∀ other, .invoked op other ∉ events) :
    Linearizes apply start Realises (events ++ [.invoked op call]) order where
  invokedOnce := by
    rw [List.filterMap_append, List.nodup_append_comm]
    refine List.nodup_cons.mpr ⟨fun earlier => ?_, linearizes.invokedOnce⟩
    obtain ⟨event, isEvent, isOp⟩ := List.mem_filterMap.mp earlier
    cases event with
    | invoked other call =>
      cases isOp
      exact fresh call isEvent
    | answered other response => cases isOp
  answeredOnce := by
    rw [List.filterMap_append]
    show (_ ++ []).Nodup
    rw [List.append_nil]
    exact linearizes.answeredOnce
  stepsOnce := linearizes.stepsOnce
  invoked other step member := by
    obtain ⟨call, invoked, realises⟩ := linearizes.invoked other step member
    exact ⟨call, List.mem_append_left _ invoked, realises⟩
  answered other response member := by
    rcases List.mem_append.mp member with earlier | impossible
    · exact linearizes.answered other response earlier
    · cases List.mem_singleton.mp impossible
  realTime first second precedes member := by
    rcases precedes_snoc precedes with before | ⟨_, call, same⟩
    · exact linearizes.realTime first second before member
    · cases same
      obtain ⟨call, invoked⟩ := linearizes.mem_of_step member
      exact absurd invoked (fresh call)

theorem commit (linearizes : Linearizes apply start Realises events order) {op : Nat} {call : Call}
    {step : Step} (invoked : .invoked op call ∈ events) (realises : Realises call step)
    (fresh : op ∉ order.map Prod.fst) :
    Linearizes apply start Realises events (order ++ [(op, step)]) where
  invokedOnce := linearizes.invokedOnce
  answeredOnce := linearizes.answeredOnce
  stepsOnce := by
    rw [List.map_append, List.nodup_append_comm]
    exact List.nodup_cons.mpr ⟨fresh, linearizes.stepsOnce⟩
  invoked other otherStep member := by
    rcases List.mem_append.mp member with earlier | isLast
    · exact linearizes.invoked other otherStep earlier
    · cases List.mem_singleton.mp isLast
      exact ⟨call, invoked, realises⟩
  answered other response member := by
    obtain ⟨front, otherStep, rest, split, gives⟩ := linearizes.answered other response member
    refine ⟨front, otherStep, rest ++ [(op, step)], ?_, gives⟩
    rw [split, List.append_assoc, List.cons_append]
  realTime first second precedes member := by
    rw [List.map_append] at member
    rcases List.mem_append.mp member with earlier | isLast
    · exact before_append (linearizes.realTime first second precedes earlier) _
    · obtain ⟨before, later, split, ⟨response, answered⟩, _⟩ := precedes
      have isFirst := linearizes.mem_of_answered (split ▸ List.mem_append_left _ answered)
      exact ⟨order, [(op, step)], rfl, isFirst, isLast⟩

theorem answer (linearizes : Linearizes apply start Realises events order) {op : Nat} {step : Step}
    {front rest : List (Nat × Step)} (place : order = front ++ (op, step) :: rest)
    (unanswered : ∀ response, .answered op response ∉ events) :
    Linearizes apply start Realises
      (events ++ [.answered op (apply (after apply start (front.map Prod.snd)) step).1]) order where
  invokedOnce := by
    rw [List.filterMap_append]
    show (_ ++ []).Nodup
    rw [List.append_nil]
    exact linearizes.invokedOnce
  answeredOnce := by
    rw [List.filterMap_append, List.nodup_append_comm]
    refine List.nodup_cons.mpr ⟨fun earlier => ?_, linearizes.answeredOnce⟩
    obtain ⟨event, isEvent, isOp⟩ := List.mem_filterMap.mp earlier
    cases event with
    | invoked other call => cases isOp
    | answered other response =>
      cases isOp
      exact unanswered response isEvent
  stepsOnce := linearizes.stepsOnce
  invoked other otherStep member := by
    obtain ⟨call, invoked, realises⟩ := linearizes.invoked other otherStep member
    exact ⟨call, List.mem_append_left _ invoked, realises⟩
  answered other response member := by
    rcases List.mem_append.mp member with earlier | isLast
    · exact linearizes.answered other response earlier
    · cases List.mem_singleton.mp isLast
      exact ⟨front, step, rest, place, rfl⟩
  realTime first second precedes member := by
    rcases precedes_snoc precedes with before | ⟨_, call, impossible⟩
    · exact linearizes.realTime first second before member
    · cases impossible

end Linearizes

end Linear
