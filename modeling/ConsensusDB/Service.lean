/-
This file is the write path above the storage: `KeyValueService` of
`pkg/server/server.go`, the `Replicator` and the `Reclaimer` of
`pkg/replication`, and a node that serves them.

Every write is stamped with its absolute expiry first and routed second. While
raft is not initialized the routing goes straight to the local store, with
commit version zero; afterwards a write becomes a command handed to raft, and
the store changes only when the FSM applies the committed entry. A command
that reaches the log this way is called routed.
-/

import ConsensusDB.Fsm
import ConsensusDB.Reads

namespace ConsensusDB

open Wire

/-! ### The replicator -/

/-- What the code asks of a running raft instance. -/
structure Raft where
  leading : Bool
  leaderID : String := ""
  leaderAddr : String := ""
  leaderEndpoint : String := ""

/-- A node of a cluster. Its raft instance is there once it has been initialized. -/
structure Node where
  fsm : Fsm
  raft : Option Raft

/-- What becomes of a write: it was carried out locally, its command was handed to raft, which
answers when the entry is applied, or it was refused. -/
inductive Outcome where
  | stored (result : FsmResult)
  | proposed (data : Bytes)
  | refused (err : Err)

namespace Replicator

def enabled (raft : Option Raft) : Bool := raft.isSome

def isLeader : Option Raft → Bool
  | none => false
  | some raft => raft.leading

/-- The entry data handed to `raft.Apply`. -/
def applyCommand (deps : Deps) (raft : Option Raft) (command : Command) : Except Err Bytes :=
  match raft with
  | none => .error (.text "raft not initialized")
  | some raft =>
    if raft.leading then encodeCommand deps command
    else .error (.notLeader raft.leaderID raft.leaderAddr raft.leaderEndpoint)

end Replicator

/-- Routes a command: to raft when replication is enabled, else to the local storage, which then
assigns the version itself. -/
def Node.submit (deps : Deps) (env : Env) (node : Node) (command : Command) : Outcome × Node :=
  if Replicator.enabled node.raft then
    match Replicator.applyCommand deps node.raft command with
    | .error err => (.refused err, node)
    | .ok data => (.proposed data, node)
  else
    let outcome := runCommand deps env node.fsm.store 0 command
    (.stored outcome.1, { node with fsm := { node.fsm with store := outcome.2 } })

/-! ### The service -/

def stampRecord (deps : Deps) (now : Int64) (request : RecordRequest) : RecordRequest :=
  { request with expiresAt := resolveExpiry deps now request.ttlSeconds request.expiresAt }

def stampIncrement (deps : Deps) (now : Int64) (request : IncrementRequest) : IncrementRequest :=
  { request with expiresAt := resolveExpiry deps now request.ttlSeconds request.expiresAt }

def stampBatch (deps : Deps) (now : Int64) (request : BatchRequest) : BatchRequest :=
  { request with records := request.records.map (stampRecord deps now) }

namespace KeyValueService

def touch (deps : Deps) (env : Env) (node : Node) (request : RecordRequest) : Outcome × Node :=
  node.submit deps env (.touch (stampRecord deps env.now request))

def put (deps : Deps) (env : Env) (node : Node) (request : RecordRequest) : Outcome × Node :=
  node.submit deps env (.put (stampRecord deps env.now request))

def remove (deps : Deps) (env : Env) (node : Node) (request : KeyRequest) : Outcome × Node :=
  node.submit deps env (.remove request)

def increment (deps : Deps) (env : Env) (node : Node) (request : IncrementRequest) :
    Outcome × Node :=
  node.submit deps env (.increment (stampIncrement deps env.now request))

def batch (deps : Deps) (env : Env) (node : Node) (request : BatchRequest) : Outcome × Node :=
  node.submit deps env (.batch (stampBatch deps env.now request))

end KeyValueService

/-- The write requests of the service. -/
inductive WriteRequest where
  | put (request : RecordRequest)
  | touch (request : RecordRequest)
  | remove (request : KeyRequest)
  | increment (request : IncrementRequest)
  | batch (request : BatchRequest)
  deriving DecidableEq, Repr

def Node.handle (deps : Deps) (env : Env) (node : Node) : WriteRequest → Outcome × Node
  | .put request => KeyValueService.put deps env node request
  | .touch request => KeyValueService.touch deps env node request
  | .remove request => KeyValueService.remove deps env node request
  | .increment request => KeyValueService.increment deps env node request
  | .batch request => KeyValueService.batch deps env node request

/-- One sweep of the reclaimer. -/
def Node.reclaimExpired (deps : Deps) (env : Env) (node : Node) (cancelled : Nat → Option Err)
    (limit : Int) : Outcome × Node :=
  if Replicator.enabled node.raft && !Replicator.isLeader node.raft then (.stored {}, node)
  else
    match Storage.scanExpired deps env node.fsm.store cancelled limit with
    | (_, some err) => (.refused err, node)
    | ([], none) => (.stored {}, node)
    | (entries, none) => node.submit deps env (.reclaim ⟨entries⟩)

/-! ### Routed commands -/

/-- The command a write request is turned into at a clock reading. -/
def WriteRequest.command (deps : Deps) (now : Int64) : WriteRequest → Command
  | .put request => .put (stampRecord deps now request)
  | .touch request => .touch (stampRecord deps now request)
  | .remove request => .remove request
  | .increment request => .increment (stampIncrement deps now request)
  | .batch request => .batch (stampBatch deps now request)

theorem handle_eq_submit (deps : Deps) (env : Env) (node : Node) (request : WriteRequest) :
    node.handle deps env request = node.submit deps env (request.command deps env.now) := by
  cases request <;> rfl

/-- The commands that are proposed to raft: stamped writes and the sweeps of the reclaimer. -/
inductive Proposable (deps : Deps) : Command → Prop
  | write (now : Int64) (request : WriteRequest) : Proposable deps (request.command deps now)
  | reclaim (request : ReclaimRequest) : Proposable deps (.reclaim request)

/-- The data of an entry that went through the write path. -/
def Routed (deps : Deps) (data : Bytes) : Prop :=
  ∃ command, Proposable deps command ∧ encodeCommand deps command = .ok data

theorem submit_proposed (deps : Deps) (env : Env) (node : Node) (command : Command) (data : Bytes)
    (proposed : (node.submit deps env command).1 = .proposed data) :
    encodeCommand deps command = .ok data := by
  obtain ⟨fsm, raft⟩ := node
  cases raft with
  | none => cases proposed
  | some raft =>
    unfold Node.submit Replicator.applyCommand Replicator.enabled at proposed
    simp only [Option.isSome_some, if_true] at proposed
    by_cases leading : raft.leading = true
    · simp only [if_pos leading] at proposed
      cases encoded : encodeCommand deps command with
      | error err =>
        rw [encoded] at proposed
        cases proposed
      | ok bytes =>
        rw [encoded] at proposed
        cases proposed
        rfl
    · simp only [if_neg leading] at proposed
      cases proposed

/-- Everything the service hands to raft is routed. -/
theorem handle_routed (deps : Deps) (env : Env) (node : Node) (request : WriteRequest)
    (data : Bytes) (proposed : (node.handle deps env request).1 = .proposed data) :
    Routed deps data := by
  rw [handle_eq_submit] at proposed
  exact ⟨_, .write env.now request, submit_proposed deps env node _ data proposed⟩

/-- Everything the reclaimer hands to raft is routed. -/
theorem reclaimExpired_routed (deps : Deps) (env : Env) (node : Node)
    (cancelled : Nat → Option Err) (limit : Int) (data : Bytes)
    (proposed : (node.reclaimExpired deps env cancelled limit).1 = .proposed data) :
    Routed deps data := by
  unfold Node.reclaimExpired at proposed
  split at proposed
  · cases proposed
  · split at proposed
    · cases proposed
    · cases proposed
    · exact ⟨_, .reclaim _, submit_proposed deps env node _ data proposed⟩

/-- A committed log: its entries were proposed through the write path. -/
structure Committed (deps : Deps) (entries : List Entry) : Prop extends IsLog entries where
  routed : ∀ entry ∈ entries, Routed deps entry.data

theorem Committed.of_append {deps : Deps} {first second : List Entry}
    (committed : Committed deps (first ++ second)) : Committed deps first where
  toIsLog := committed.toIsLog.append_left
  routed entry member := committed.routed entry (List.mem_append_left _ member)

/-! ### Commands are decoded -/

theorem decodePayload_encodePayload {Struct : Type} (deps : Deps)
    (codec : StructCodec deps.Value Struct) (roundTrips : deps.RoundTrips codec) (op : UInt8)
    (message : Struct) (command : Struct → Command) (data : Bytes)
    (encoded : encodePayload deps op codec message = .ok data) :
    ∃ payload, data = op :: payload ∧
      decodePayload deps codec payload command = .ok (command message) := by
  obtain ⟨value, packed, marshalled, isPacked, _, unpacked, unmarshalled⟩ := roundTrips message
  unfold encodePayload at encoded
  simp only [marshalled, wrapError_ok, isPacked] at encoded
  cases encoded
  refine ⟨packed, rfl, ?_⟩
  unfold decodePayload
  simp only [unpacked, wrapError_ok, unmarshalled]

/-- An encoded command is decoded to itself. -/
theorem decodeCommand_encodeCommand (deps : Deps) (lawful : deps.Lawful) (command : Command)
    (data : Bytes) (encoded : encodeCommand deps command = .ok data) :
    decodeCommand deps data = .ok command := by
  cases command with
  | put request =>
    obtain ⟨payload, rfl, decoded⟩ := decodePayload_encodePayload deps _ lawful.recordRequest
      opPut request Command.put data encoded
    exact decoded
  | touch request =>
    obtain ⟨payload, rfl, decoded⟩ := decodePayload_encodePayload deps _ lawful.recordRequest
      opTouch request Command.touch data encoded
    exact decoded
  | remove request =>
    obtain ⟨payload, rfl, decoded⟩ := decodePayload_encodePayload deps _ lawful.keyRequest
      opRemove request Command.remove data encoded
    exact decoded
  | increment request =>
    obtain ⟨payload, rfl, decoded⟩ := decodePayload_encodePayload deps _ lawful.incrementRequest
      opIncrement request Command.increment data encoded
    exact decoded
  | batch request =>
    obtain ⟨payload, rfl, decoded⟩ := decodePayload_encodePayload deps _ lawful.batchRequest
      opBatch request Command.batch data encoded
    exact decoded
  | reclaim request =>
    obtain ⟨payload, rfl, decoded⟩ := decodePayload_encodePayload deps _ lawful.reclaimRequest
      opReclaim request Command.reclaim data encoded
    exact decoded

/-! ### Settled commands do not read the clock -/

/-- The expiry a request asks for is the same at every clock reading. -/
def Settled (deps : Deps) (ttlSeconds expiresAt : Int64) : Prop :=
  ∀ first second,
    resolveExpiry deps first ttlSeconds expiresAt = resolveExpiry deps second ttlSeconds expiresAt

/-- No expiry a command asks for depends on the clock. -/
def Command.Settled (deps : Deps) : Command → Prop
  | .put request => ConsensusDB.Settled deps request.ttlSeconds request.expiresAt
  | .touch request => ConsensusDB.Settled deps request.ttlSeconds request.expiresAt
  | .remove _ => True
  | .increment request => ConsensusDB.Settled deps request.ttlSeconds request.expiresAt
  | .batch request => ∀ record ∈ request.records,
      ConsensusDB.Settled deps record.ttlSeconds record.expiresAt
  | .reclaim _ => True

/-- A stamped expiry is settled: a positive time to live has been turned into an instant, and
without one there is nothing to resolve. -/
theorem settled_stamped (deps : Deps) (lawful : deps.Lawful) (now ttlSeconds expiresAt : Int64) :
    Settled deps ttlSeconds (resolveExpiry deps now ttlSeconds expiresAt) := by
  have resolved : ∀ later, resolveExpiry deps later ttlSeconds
      (resolveExpiry deps now ttlSeconds expiresAt) =
        resolveExpiry deps now ttlSeconds expiresAt := by
    intro later
    by_cases absolute : expiresAt ≠ 0
    · simp only [resolveExpiry, if_pos absolute]
    · by_cases relative : ttlSeconds > 0
      · have instant := lawful.expiry now ttlSeconds relative
        simp only [resolveExpiry, if_neg absolute, if_pos relative, if_pos instant]
      · simp only [resolveExpiry, if_neg absolute, if_neg relative, if_neg (not_not_intro rfl)]
  intro first second
  rw [resolved first, resolved second]

theorem settled_of_proposable (deps : Deps) (lawful : deps.Lawful) (command : Command)
    (proposable : Proposable deps command) : command.Settled deps := by
  cases proposable with
  | reclaim request => trivial
  | write now request =>
    cases request with
    | put request => exact settled_stamped deps lawful now _ _
    | touch request => exact settled_stamped deps lawful now _ _
    | remove request => trivial
    | increment request => exact settled_stamped deps lawful now _ _
    | batch request =>
      intro record member
      obtain ⟨original, _, rfl⟩ := List.mem_map.mp member
      exact settled_stamped deps lawful now _ _

theorem putRecord_settled (deps : Deps) (first second : Int64) (request : RecordRequest)
    (version : UInt64) (settled : Settled deps request.ttlSeconds request.expiresAt) :
    Records.putRecord deps first request version =
      Records.putRecord deps second request version := by
  rw [Records.putRecord, Records.putRecord, settled first second]

theorem batchRecords_settled (deps : Deps) (first second : Int64) (commitVersion : UInt64)
    (requests : List RecordRequest) (records : Records)
    (settled : ∀ request ∈ requests, Settled deps request.ttlSeconds request.expiresAt) :
    records.batchRecords deps first commitVersion requests =
      records.batchRecords deps second commitVersion requests := by
  induction requests generalizing records with
  | nil => rfl
  | cons request rest inductionHypothesis =>
    have restSettled : ∀ later ∈ rest, Settled deps later.ttlSeconds later.expiresAt :=
      fun later member => settled later (List.mem_cons_of_mem _ member)
    rw [Records.batchRecords, Records.batchRecords]
    simp only [putRecord_settled deps first second request _ (settled request List.mem_cons_self),
      inductionHypothesis _ restSettled]

/-- A settled command does the same at every clock reading. -/
theorem runCommand_settled (deps : Deps) (first second : Int64) (records : Records)
    (index : UInt64) (command : Command) (settled : command.Settled deps) :
    records.runCommand deps first index command = records.runCommand deps second index command := by
  cases command with
  | put request =>
    simp only [Records.runCommand, Records.put,
      putRecord_settled deps first second request _ settled]
  | touch request =>
    have expiry := settled first second
    simp only [Records.runCommand, Records.touch, expiry]
  | remove request => rfl
  | increment request =>
    have expiry := settled first second
    simp only [Records.runCommand, Records.increment, expiry]
  | batch request =>
    simp only [Records.runCommand, Records.setBatch,
      batchRecords_settled deps first second index request.records records settled]
  | reclaim request => rfl

/-- A routed entry is decoded to a settled command. -/
theorem routed_decodes (deps : Deps) (lawful : deps.Lawful) (data : Bytes)
    (routed : Routed deps data) :
    ∃ command, decodeCommand deps data = .ok command ∧ command.Settled deps := by
  obtain ⟨command, proposable, encoded⟩ := routed
  exact ⟨command, decodeCommand_encodeCommand deps lawful command data encoded,
    settled_of_proposable deps lawful command proposable⟩

/-- A routed entry does the same at every clock reading. -/
theorem runEntry_routed (deps : Deps) (lawful : deps.Lawful) (first second : Int64)
    (records : Records) (entry : Entry) (routed : Routed deps entry.data) :
    records.runEntry deps first entry = records.runEntry deps second entry := by
  obtain ⟨command, decoded, settled⟩ := routed_decodes deps lawful entry.data routed
  simp only [Records.runEntry, decoded,
    runCommand_settled deps first second records entry.index command settled]

end ConsensusDB
