/-
This file is about requests that work on the store by single accesses, as the console
and the command line do: a request reads, decides, and asks for a write whose status
it goes on with. Each access is one step, and any number of requests take their steps
in any order.

A read returns what the current or any earlier store holds, since a follower answers
it. A write is numbered by its entry in the log, or by a counter of its key when there
is no log. Its reply may be lost; then the request sees an error, and the write may
still take effect later.
-/

import ConsensusDB.Lib.Requests
import ConsensusDB.Lookups
import ConsensusDB.Setup

namespace ConsensusDB

open Wire

/-- The write path: entries of the log, whose indexes grow, or a counter for each key. -/
inductive Mode where
  | replicated
  | raftOff
  deriving DecidableEq, Repr

/-- The version a write is given, if it is its turn. -/
def Mode.version (mode : Mode) (last index : UInt64) : Option UInt64 :=
  match mode with
  | .raftOff => some 0
  | .replicated => if last < index then some index else none

/-- The store, the earlier ones, the version of the last write, and the writes that may still take
effect. -/
structure Shared where
  store : Store
  past : List Store
  last : UInt64
  pending : List KeyWrite

namespace Shared

/-- A store that nobody has written yet. -/
def fresh (store : Store) : Shared := ⟨store, [], 0, []⟩

/-- The store that answers a read, the current one or an earlier one. -/
def seen (shared : Shared) (age : Nat) : Store :=
  ((shared.store :: shared.past)[age]?).getD shared.store

def wrote (shared : Shared) (version : UInt64) (store : Store) : Shared :=
  { shared with store := store, past := shared.store :: shared.past, last := version }

theorem seen_zero (shared : Shared) : shared.seen 0 = shared.store := rfl

theorem seen_mem (shared : Shared) (age : Nat) :
    shared.seen age = shared.store ∨ shared.seen age ∈ shared.past := by
  unfold seen
  cases found : (shared.store :: shared.past)[age]? with
  | none => exact Or.inl rfl
  | some store => exact List.mem_cons.mp (List.mem_of_getElem? found)

end Shared

/-- What a step finds of the store: the engine, how old the store is that answers a read, the index
of its entry in the log, and what becomes of the reply to a write. -/
structure Access where
  env : Env
  age : Nat
  index : UInt64
  fate : Setup.Fate

/-- An access on a healthy node that reads the current store. -/
def Access.healthy (now : Int64) (index : UInt64) : Access := ⟨.healthy now, 0, index, .replied⟩

/-- A write whose reply was lost takes effect, or a command of somebody else is run. -/
inductive Event where
  | late (position : Nat) (env : Env) (index : UInt64)
  | other (command : Command) (env : Env) (index : UInt64)

/-- What requests do: in a phase they either ask for a write, and go on with its status, or they
look at the store. -/
structure Handler (Request Phase Input : Type) where
  first : Request → Phase
  access : Input → Access
  look : Input → Store → Phase → Phase
  write : Phase → Option KeyWrite
  resume : Phase → Except Err Status → Phase
  stop : Phase → Phase

section

variable (deps : Deps) (mode : Mode)

/-- A write as the request sees it, and what it leaves. -/
def submit (access : Access) (write : KeyWrite) (shared : Shared) :
    Option (Except Err Status × Shared) :=
  match mode.version shared.last access.index, access.fate with
  | none, _ => none
  | some version, .replied =>
    let outcome := write.perform deps access.env shared.store version
    some (outcome.1, shared.wrote version outcome.2)
  | some _, .lost =>
    some (.error (.external "lost"), { shared with pending := shared.pending ++ [write] })

def Event.occur (shared : Shared) : Event → Shared
  | .late position env index =>
    match shared.pending[position]?, mode.version shared.last index with
    | some write, some version =>
      { shared.wrote version (write.perform deps env shared.store version).2 with
        pending := shared.pending.eraseIdx position }
    | _, _ => shared
  | .other command env index =>
    match mode.version shared.last index with
    | none => shared
    | some version => shared.wrote version (runCommand deps env shared.store version command).2

/-- A write is carried out now, or its reply is lost. -/
theorem submit_cases {access : Access} {write : KeyWrite} {shared after : Shared}
    {reply : Except Err Status}
    (submitted : submit deps mode access write shared = some (reply, after)) :
    (∃ version, mode.version shared.last access.index = some version ∧ access.fate = .replied ∧
        reply = (write.perform deps access.env shared.store version).1 ∧
        after = shared.wrote version (write.perform deps access.env shared.store version).2) ∨
      (access.fate = .lost ∧ reply = .error (.external "lost") ∧
        after = { shared with pending := shared.pending ++ [write] }) := by
  unfold submit at submitted
  split at submitted
  · cases submitted
  · rename_i version turn replied
    cases submitted
    exact Or.inl ⟨version, turn, replied, rfl, rfl⟩
  · rename_i lost
    cases submitted
    exact Or.inr ⟨lost, rfl, rfl⟩

namespace Handler

variable {Request Phase Input : Type} (handler : Handler Request Phase Input)

/-- One step of a request. One that waits for its turn stays in its phase. -/
def next (input : Input) (shared : Shared) (phase : Phase) : Phase × Shared :=
  match handler.write phase with
  | none => (handler.look input (shared.seen (handler.access input).age) phase, shared)
  | some write =>
    match submit deps mode (handler.access input) write shared with
    | none => (phase, shared)
    | some (reply, after) => (handler.resume phase reply, after)

def machine : Requests.Machine Shared Request Phase Input Event where
  first := handler.first
  next := handler.next deps mode
  stop := handler.stop
  occur event shared := event.occur deps mode shared

/-- A step looks at the store, waits for its turn, or writes. -/
theorem next_cases (input : Input) (shared : Shared) (phase : Phase) :
    (handler.write phase = none ∧ handler.next deps mode input shared phase =
        (handler.look input (shared.seen (handler.access input).age) phase, shared)) ∨
      handler.next deps mode input shared phase = (phase, shared) ∨
      ∃ write reply after, handler.write phase = some write ∧
        submit deps mode (handler.access input) write shared = some (reply, after) ∧
        handler.next deps mode input shared phase = (handler.resume phase reply, after) := by
  cases asked : handler.write phase with
  | none => exact Or.inl ⟨rfl, by simp only [next, asked]⟩
  | some write =>
    cases submitted : submit deps mode (handler.access input) write shared with
    | none => exact Or.inr (Or.inl (by simp only [next, asked, submitted]))
    | some outcome =>
      exact Or.inr (Or.inr ⟨write, outcome.1, outcome.2, rfl, submitted,
        by simp only [next, asked, submitted]⟩)

end Handler

end

end ConsensusDB
