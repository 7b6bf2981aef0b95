/-
This file says that the change events of a node carry everything. A watcher that
knows what the store held, and then stores the value and the version of every set
event and forgets the key of every delete event, holds what the store holds after
each write. The writes of a call are announced in the order they were staged, so
within a batch the last record of a key is also the last event of it.

A watcher of a prefix that keeps only what lies under it loses nothing either: an
event of another key does not change that part.
-/

import ConsensusDB.Staging
import ConsensusDB.Reference
import ConsensusDB.Lib.Replay

namespace ConsensusDB

open Wire

/-! ### Replaying events -/

/-- What a watcher can know: the value and the version under each encoded key. -/
abbrev Contents := Bytes → Option (Bytes × UInt64)

def Records.contents (records : Records) : Contents :=
  fun key => (records key).map fun record => (record.value, record.version)

/-- The contents after an event: a set stores the value and the version, a delete removes. -/
def WatchEvent.replay (contents : Contents) (event : WatchEvent) : Contents :=
  Function.update contents event.key
    (match event.type with
      | .set => some (event.value, event.version.toUInt64)
      | .delete => none)

def Contents.replay (contents : Contents) (events : List WatchEvent) : Contents :=
  events.foldl WatchEvent.replay contents

/-- The part of the contents under a prefix. -/
def Contents.under (contents : Contents) (area : Bytes) : Contents :=
  fun key => if area.isPrefixOf key then contents key else none

theorem replay_cons (contents : Contents) (event : WatchEvent) (events : List WatchEvent) :
    contents.replay (event :: events) = (event.replay contents).replay events := rfl

theorem replay_append (contents : Contents) (first second : List WatchEvent) :
    contents.replay (first ++ second) = (contents.replay first).replay second :=
  List.foldl_append

/-- An event of a key under the prefix acts on the part under it, any other event leaves it. -/
theorem under_replay_event (contents : Contents) (area : Bytes) (event : WatchEvent) :
    (event.replay contents).under area =
      if area.isPrefixOf event.key then event.replay (contents.under area)
      else contents.under area := by
  funext key
  unfold Contents.under WatchEvent.replay
  by_cases same : key = event.key
  · subst same
    by_cases within : area.isPrefixOf event.key = true
    · simp only [if_pos within, Function.update_self]
    · simp only [if_neg within]
  · by_cases within : area.isPrefixOf event.key = true
    · simp only [if_pos within, Function.update_of_ne same]
    · simp only [if_neg within, Function.update_of_ne same]

/-- The events under a prefix rebuild the part of the contents under it. -/
theorem under_replay (contents : Contents) (area : Bytes) (events : List WatchEvent) :
    (contents.replay events).under area =
      (contents.under area).replay (events.filter fun event => area.isPrefixOf event.key) := by
  induction events generalizing contents with
  | nil => rfl
  | cons event rest inductionHypothesis =>
    rw [replay_cons, inductionHypothesis, under_replay_event, List.filter_cons]
    by_cases within : area.isPrefixOf event.key = true
    · rw [if_pos within, if_pos within, replay_cons]
    · rw [if_neg within, if_neg within]

/-! ### One call -/

theorem contents_update (records : Records) (key : Bytes) (record : Option StoredRecord) :
    Records.contents (Function.update records key record) =
      Function.update records.contents key
        (record.map fun record => (record.value, record.version)) := by
  funext other
  unfold Records.contents
  by_cases same : other = key
  · rw [same, Function.update_self, Function.update_self]
  · rw [Function.update_of_ne same, Function.update_of_ne same]

/-- The events of staged writes lead from what the transaction saw before to what it sees after. -/
theorem Staged.replays {deps : Deps} (lawful : deps.Lawful) {commitVersion : UInt64}
    {counts : Prop} {type : WatchEventType} {txn final : Txn} {entryKeys : List Bytes}
    {events : List WatchEvent}
    (staged : Staged deps commitVersion counts type txn entryKeys final events) :
    (txn.records deps).contents.replay events = (final.records deps).contents := by
  induction staged with
  | done type txn => rfl
  | set entryKey value version expiresAt userMeta accepted counted rest inductionHypothesis =>
    rw [replay_cons, ← inductionHypothesis, txn_records_cons, Option.map_some,
      storedRecord_encode deps lawful, contents_update]
    simp only [WatchEvent.replay, Option.map_some, UInt64.toUInt64_toInt64]
  | delete entryKey accepted rest inductionHypothesis =>
    rw [replay_cons, ← inductionHypothesis, txn_records_cons, Option.map_none, contents_update]
    rfl

/-- An operation announces events that rebuild what it leaves. -/
theorem Performed.replays {deps : Deps} (lawful : deps.Lawful) {commitVersion : UInt64}
    {counts : Prop} {type : WatchEventType} {entryKeys : List Bytes} {before after : Store}
    (performed : Performed deps commitVersion counts type entryKeys before after) :
    ∃ events, after.events = before.events ++ events ∧
      (before.records deps).contents.replay events = (after.records deps).contents := by
  rcases performed with rfl | ⟨txn, events, staged, rfl⟩
  · exact ⟨[], (List.append_nil _).symm, rfl⟩
  · refine ⟨events, rfl, ?_⟩
    rw [commit_records deps before txn _ staged.snapshot, ← staged.replays lawful]
    rfl

/-! ### Sequences of calls -/

/-- A call of one of the six write operations, with the engine calls that fail in it and the
commit version it is made with. -/
structure WriteCall where
  env : Env
  commitVersion : UInt64
  command : Command

/-- The store after a call. -/
def WriteCall.act (deps : Deps) (call : WriteCall) (store : Store) : Store :=
  (runCommand deps call.env store call.commitVersion call.command).2

/-- Watch events reconstruct the store. After any sequence of calls the store has announced events
whose replay over what it held is what it holds, and those under any prefix rebuild the part of it
under this prefix. -/
theorem events_reconstruct (deps : Deps) (lawful : deps.Lawful) (store : Store)
    (calls : List WriteCall) :
    ∃ events,
      (Replay.run (WriteCall.act deps) calls store).events = store.events ++ events ∧
      (store.records deps).contents.replay events =
        ((Replay.run (WriteCall.act deps) calls store).records deps).contents ∧
      ∀ area : Bytes,
        ((store.records deps).contents.under area).replay
            (events.filter fun event => area.isPrefixOf event.key) =
          ((Replay.run (WriteCall.act deps) calls store).records deps).contents.under area := by
  induction calls generalizing store with
  | nil => exact ⟨[], (List.append_nil _).symm, rfl, fun _ => rfl⟩
  | cons call rest inductionHypothesis =>
    obtain ⟨_, _, _, performed⟩ :=
      runCommand_performed deps call.env store call.commitVersion call.command
    obtain ⟨first, announced, replayed⟩ := performed.replays lawful
    obtain ⟨later, laterAnnounced, laterReplayed, _⟩ := inductionHypothesis (call.act deps store)
    have whole : (store.records deps).contents.replay (first ++ later) =
        ((Replay.run (WriteCall.act deps) (call :: rest) store).records deps).contents := by
      rw [replay_append, replayed]
      exact laterReplayed
    refine ⟨first ++ later, ?_, whole, fun area => ?_⟩
    · rw [Replay.run_cons, laterAnnounced, ← List.append_assoc, ← announced]
      rfl
    · rw [← under_replay, whole]

/-- A batch that writes one key twice and a removal of it. -/
def sampleCalls : List WriteCall :=
  [⟨.healthy 100, 0, .batch { records := [{ key := some Reference.sampleKey, value := str "1" },
      { key := some Reference.sampleKey, value := str "2" }] }⟩,
    ⟨.healthy 110, 0, .remove { key := some Reference.sampleKey }⟩]

theorem events_reconstruct_sample :
    ∃ events,
      (Replay.run (WriteCall.act Reference.deps) sampleCalls Store.empty).events = events ∧
      (Store.empty.records Reference.deps).contents.replay events =
        ((Replay.run (WriteCall.act Reference.deps) sampleCalls Store.empty).records
          Reference.deps).contents := by
  obtain ⟨events, announced, replayed, _⟩ :=
    events_reconstruct Reference.deps Reference.lawful Store.empty sampleCalls
  exact ⟨events, announced, replayed⟩

end ConsensusDB
