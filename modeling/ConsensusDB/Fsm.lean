/-
This file is the replicated state machine: the command codec of
`pkg/replication/command.go` and the FSM of `fsm.go` and `snapshot.go`. `apply`
first folds the entry into the hash chain and persists the head, in a store
commit of its own, and then runs the entry's command.

`Replica` is the FSM over the abstract store. `apply` refines it, so a
statement about what replicas store, answer and report is a statement about
`Replica.apply`, in which the engine no longer appears.
-/

import ConsensusDB.Ledger

namespace ConsensusDB

open Wire

/-! ### Commands -/

/-- A decoded command: the operation and its payload. -/
inductive Command where
  | put (request : RecordRequest)
  | touch (request : RecordRequest)
  | remove (request : KeyRequest)
  | increment (request : IncrementRequest)
  | batch (request : BatchRequest)
  | reclaim (request : ReclaimRequest)
  deriving DecidableEq, Repr

def opPut : UInt8 := 1

def opTouch : UInt8 := 2

def opRemove : UInt8 := 3

def opIncrement : UInt8 := 4

def opBatch : UInt8 := 5

def opReclaim : UInt8 := 6

/-- An operation byte followed by the packed payload. -/
def encodePayload {Struct : Type} (deps : Deps) (op : UInt8) (codec : StructCodec deps.Value Struct)
    (message : Struct) : Except Err Bytes :=
  match wrapError "marshal raft command payload" (codec.marshal message) with
  | .error err => .error err
  | .ok value =>
    match wrapError "pack raft command payload" (deps.pack value) with
    | .error err => .error err
    | .ok payload => .ok (op :: payload)

def encodeCommand (deps : Deps) : Command → Except Err Bytes
  | .put request => encodePayload deps opPut deps.recordRequest request
  | .touch request => encodePayload deps opTouch deps.recordRequest request
  | .remove request => encodePayload deps opRemove deps.keyRequest request
  | .increment request => encodePayload deps opIncrement deps.incrementRequest request
  | .batch request => encodePayload deps opBatch deps.batchRequest request
  | .reclaim request => encodePayload deps opReclaim deps.reclaimRequest request

def decodePayload {Struct : Type} (deps : Deps) (codec : StructCodec deps.Value Struct)
    (payload : Bytes) (command : Struct → Command) : Except Err Command :=
  match wrapError "unpack raft command payload" (deps.unpack payload) with
  | .error err => .error err
  | .ok value =>
    match wrapError "unmarshal raft command payload" (codec.unmarshal value) with
    | .error err => .error err
    | .ok message => .ok (command message)

def decodeCommand (deps : Deps) : Bytes → Except Err Command
  | [] => .error (.text "empty raft command")
  | op :: payload =>
    if op = opPut then decodePayload deps deps.recordRequest payload .put
    else if op = opTouch then decodePayload deps deps.recordRequest payload .touch
    else if op = opRemove then decodePayload deps deps.keyRequest payload .remove
    else if op = opIncrement then decodePayload deps deps.incrementRequest payload .increment
    else if op = opBatch then decodePayload deps deps.batchRequest payload .batch
    else if op = opReclaim then decodePayload deps deps.reclaimRequest payload .reclaim
    else .error (.text ("unknown raft command op " ++ op.toNat.repr))

/-! ### The FSM -/

/-- What applying an entry answers; which fields are set depends on the operation. -/
structure FsmResult where
  status : Option Status := none
  incr : Option IncrementResponse := none
  reclaimed : Nat := 0
  err : Option Err := none
  deriving DecidableEq, Repr

def FsmResult.ofStatus : Except Err Status → FsmResult
  | .ok status => { status := some status }
  | .error err => { err := some err }

def FsmResult.ofIncrement : Except Err IncrementResponse → FsmResult
  | .ok response => { incr := some response }
  | .error err => { err := some err }

def FsmResult.ofReclaim : Except Err Nat → FsmResult
  | .ok removed => { reclaimed := removed }
  | .error err => { err := some err }

/-- The state machine of a node: its store and the chain it keeps in memory, which is seeded on
start or lazily. -/
structure Fsm where
  store : Store
  chain : Option HashChain

/-- Runs a decoded command against the store, stamped with the index of its entry. -/
def runCommand (deps : Deps) (env : Env) (store : Store) (index : UInt64) :
    Command → FsmResult × Store
  | .put request => (Storage.put deps env store request index).map FsmResult.ofStatus id
  | .touch request => (Storage.touch deps env store request index).map FsmResult.ofStatus id
  | .remove request => (Storage.remove deps env store request).map FsmResult.ofStatus id
  | .increment request =>
    (Storage.increment deps env store request index).map FsmResult.ofIncrement id
  | .batch request => (Storage.setBatch deps env store request index).map FsmResult.ofStatus id
  | .reclaim request => (Storage.reclaim deps env store request).map FsmResult.ofReclaim id

/-- Decodes and runs the command of an entry. -/
def runEntry (deps : Deps) (env : Env) (store : Store) (entry : Entry) : FsmResult × Store :=
  match decodeCommand deps entry.data with
  | .error err => ({ err := some err }, store)
  | .ok command => runCommand deps env store entry.index command

namespace Fsm

def postConstruct (deps : Deps) (env : Env) (fsm : Fsm) : Fsm :=
  { fsm with chain := some (loadHead deps env fsm.store) }

/-- The chain in memory, seeded from the persisted head when there is none. -/
def ensureChain (deps : Deps) (env : Env) (fsm : Fsm) : HashChain :=
  fsm.chain.getD (loadHead deps env fsm.store)

/-- The reported head. Asking for it seeds the chain. -/
def chainHead (deps : Deps) (env : Env) (fsm : Fsm) : HashChain × Fsm :=
  (fsm.ensureChain deps env, { fsm with chain := some (fsm.ensureChain deps env) })

/-- Folds an entry into the chain and persists the new head. -/
def advanceChain (deps : Deps) (env : Env) (fsm : Fsm) (entry : Entry) : Fsm :=
  let chain := (fsm.ensureChain deps env).fold entry
  ⟨storeHead deps env fsm.store chain.index chain.digest entry.index, some chain⟩

def apply (deps : Deps) (env : Env) (fsm : Fsm) (entry : Entry) : FsmResult × Fsm :=
  let advanced := fsm.advanceChain deps env entry
  let outcome := runEntry deps env advanced.store entry
  (outcome.1, { advanced with store := outcome.2 })

/-- A snapshot keeps a reference to the storage only, so persisting it backs up whatever the
store holds by then. -/
def persist (current : Fsm) : Dump := Storage.backup current.store 0

/-- Loads a snapshot stream into the store. The chain in memory is left as it is. -/
def restore (fsm : Fsm) (dump : Dump) : Fsm := { fsm with store := Storage.load fsm.store dump }

/-- A node that starts on an empty data directory. -/
def fresh (deps : Deps) (env : Env) : Fsm := (⟨Store.empty, none⟩ : Fsm).postConstruct deps env

/-- A crash loses the chain in memory; a restart seeds it from the store. -/
def restart (deps : Deps) (env : Env) (fsm : Fsm) : Fsm :=
  (⟨fsm.store, none⟩ : Fsm).postConstruct deps env

end Fsm

/-! ### The FSM over the abstract store -/

/-- The records a node stores and the chain it keeps in memory. -/
structure Replica where
  records : Records
  chain : Option HashChain

def Fsm.replica (deps : Deps) (fsm : Fsm) : Replica := ⟨fsm.store.records deps, fsm.chain⟩

/-- Runs a decoded command against the records. -/
def Records.runCommand (deps : Deps) (now : Int64) (records : Records) (index : UInt64) :
    Command → FsmResult × Records
  | .put request => (records.put deps now request index).map FsmResult.ofStatus id
  | .touch request => (records.touch deps now request index).map FsmResult.ofStatus id
  | .remove request => (records.remove deps request).map FsmResult.ofStatus id
  | .increment request => (records.increment deps now request index).map FsmResult.ofIncrement id
  | .batch request => (records.setBatch deps now request index).map FsmResult.ofStatus id
  | .reclaim request => (records.reclaim request).map FsmResult.ofReclaim id

def Records.runEntry (deps : Deps) (now : Int64) (records : Records) (entry : Entry) :
    FsmResult × Records :=
  match decodeCommand deps entry.data with
  | .error err => ({ err := some err }, records)
  | .ok command => records.runCommand deps now entry.index command

namespace Replica

def ensureChain (deps : Deps) (now : Int64) (replica : Replica) : HashChain :=
  replica.chain.getD (replica.records.loadHead deps now)

def advanceChain (deps : Deps) (now : Int64) (replica : Replica) (entry : Entry) : Replica :=
  let chain := (replica.ensureChain deps now).fold entry
  ⟨replica.records.storeHead deps chain entry.index, some chain⟩

def apply (deps : Deps) (now : Int64) (replica : Replica) (entry : Entry) : FsmResult × Replica :=
  let advanced := replica.advanceChain deps now entry
  let outcome := advanced.records.runEntry deps now entry
  (outcome.1, { advanced with records := outcome.2 })

def restart (deps : Deps) (now : Int64) (replica : Replica) : Replica :=
  ⟨replica.records, some (replica.records.loadHead deps now)⟩

/-- A node that starts on an empty data directory. -/
def fresh : Replica := ⟨fun _ => none, some .genesis⟩

end Replica

/-! ### The FSM refines the abstract one -/

section Refinement

variable (deps : Deps) (lawful : deps.Lawful) (now : Int64)

include lawful in
theorem runCommand_records (store : Store) (index : UInt64) (command : Command) :
    ((runCommand deps (Env.healthy now) store index command).1,
        (runCommand deps (Env.healthy now) store index command).2.records deps) =
      (store.records deps).runCommand deps now index command := by
  cases command with
  | put request =>
    exact congrArg (Prod.map FsmResult.ofStatus id) (view_put deps lawful now store request index)
  | touch request =>
    exact congrArg (Prod.map FsmResult.ofStatus id) (view_touch deps lawful now store request index)
  | remove request =>
    exact congrArg (Prod.map FsmResult.ofStatus id) (view_remove deps now store request)
  | increment request =>
    exact congrArg (Prod.map FsmResult.ofIncrement id)
      (view_increment deps lawful now store request index)
  | batch request =>
    exact congrArg (Prod.map FsmResult.ofStatus id)
      (view_setBatch deps lawful now store request index)
  | reclaim request =>
    exact congrArg (Prod.map FsmResult.ofReclaim id) (view_reclaim deps now store request)

include lawful in
theorem runEntry_records (store : Store) (entry : Entry) :
    ((runEntry deps (Env.healthy now) store entry).1,
        (runEntry deps (Env.healthy now) store entry).2.records deps) =
      (store.records deps).runEntry deps now entry := by
  unfold runEntry Records.runEntry
  cases decodeCommand deps entry.data with
  | error err => rfl
  | ok command => exact runCommand_records deps lawful now store entry.index command

theorem replica_ensureChain (fsm : Fsm) :
    (fsm.replica deps).ensureChain deps now = fsm.ensureChain deps (Env.healthy now) := by
  rw [Replica.ensureChain, Fsm.ensureChain, loadHead_records]
  rfl

include lawful in
theorem replica_advanceChain (fsm : Fsm) (entry : Entry) :
    (fsm.advanceChain deps (Env.healthy now) entry).replica deps =
      (fsm.replica deps).advanceChain deps now entry := by
  unfold Fsm.advanceChain Replica.advanceChain Fsm.replica
  simp only
  rw [storeHead_records deps lawful, ← replica_ensureChain]
  rfl

include lawful in
/-- Applying an entry to the FSM answers and changes the replica as the abstract FSM does. -/
theorem apply_replica (fsm : Fsm) (entry : Entry) :
    ((fsm.apply deps (Env.healthy now) entry).1,
        (fsm.apply deps (Env.healthy now) entry).2.replica deps) =
      (fsm.replica deps).apply deps now entry := by
  have advanced := replica_advanceChain deps lawful now fsm entry
  have ran := runEntry_records deps lawful now (fsm.advanceChain deps (Env.healthy now) entry).store
    entry
  have stored : (fsm.advanceChain deps (Env.healthy now) entry).store.records deps =
      ((fsm.replica deps).advanceChain deps now entry).records := congrArg Replica.records advanced
  have chained : (fsm.advanceChain deps (Env.healthy now) entry).chain =
      ((fsm.replica deps).advanceChain deps now entry).chain := congrArg Replica.chain advanced
  rw [stored] at ran
  unfold Replica.apply
  simp only [← ran, ← chained]
  rfl

include lawful in
theorem apply_result (fsm : Fsm) (entry : Entry) :
    (fsm.apply deps (Env.healthy now) entry).1 =
      ((fsm.replica deps).apply deps now entry).1 :=
  congrArg Prod.fst (apply_replica deps lawful now fsm entry)

include lawful in
theorem replica_apply (fsm : Fsm) (entry : Entry) :
    (fsm.apply deps (Env.healthy now) entry).2.replica deps =
      ((fsm.replica deps).apply deps now entry).2 :=
  congrArg Prod.snd (apply_replica deps lawful now fsm entry)

theorem restart_replica (fsm : Fsm) :
    (fsm.restart deps (Env.healthy now)).replica deps = (fsm.replica deps).restart deps now := by
  unfold Fsm.restart Fsm.postConstruct Replica.restart Fsm.replica
  simp only
  rw [loadHead_records]

theorem fresh_replica : (Fsm.fresh deps (Env.healthy now)).replica deps = Replica.fresh := by
  unfold Fsm.fresh Fsm.postConstruct Fsm.replica
  simp only
  rw [loadHead_records]
  rfl

end Refinement

/-! ### Runs -/

/-- Applies entries one after another, each at the clock reading it comes with. -/
def Fsm.run (deps : Deps) (fsm : Fsm) (deliveries : List (Int64 × Entry)) : Fsm :=
  deliveries.foldl (fun fsm delivery => (fsm.apply deps (Env.healthy delivery.1) delivery.2).2) fsm

def Replica.run (deps : Deps) (replica : Replica) (deliveries : List (Int64 × Entry)) : Replica :=
  deliveries.foldl (fun replica delivery => (replica.apply deps delivery.1 delivery.2).2) replica

@[simp] theorem Replica.run_nil (deps : Deps) (replica : Replica) : replica.run deps [] = replica :=
  rfl

@[simp] theorem Replica.run_cons (deps : Deps) (replica : Replica) (now : Int64) (entry : Entry)
    (rest : List (Int64 × Entry)) :
    replica.run deps ((now, entry) :: rest) = (replica.apply deps now entry).2.run deps rest := rfl

theorem Replica.run_append (deps : Deps) (replica : Replica)
    (first second : List (Int64 × Entry)) :
    replica.run deps (first ++ second) = (replica.run deps first).run deps second :=
  List.foldl_append

theorem run_replica (deps : Deps) (lawful : deps.Lawful) (fsm : Fsm)
    (deliveries : List (Int64 × Entry)) :
    (fsm.run deps deliveries).replica deps = (fsm.replica deps).run deps deliveries := by
  induction deliveries generalizing fsm with
  | nil => rfl
  | cons delivery rest inductionHypothesis =>
    obtain ⟨now, entry⟩ := delivery
    show ((fsm.apply deps (Env.healthy now) entry).2.run deps rest).replica deps = _
    rw [inductionHypothesis, Replica.run_cons, replica_apply deps lawful]

/-- A node that starts on an empty data directory runs as the abstract one does. -/
theorem fresh_run_replica (deps : Deps) (lawful : deps.Lawful) (started : Int64)
    (deliveries : List (Int64 × Entry)) :
    ((Fsm.fresh deps (Env.healthy started)).run deps deliveries).replica deps =
      Replica.fresh.run deps deliveries := by
  rw [run_replica deps lawful, fresh_replica]

end ConsensusDB
