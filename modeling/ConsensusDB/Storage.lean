/-
This file is the write half of `pkg/server/storage.go`: `Touch`, `Put`,
`Remove`, `Reclaim`, `Increment` and `SetBatch` over the storage engine, with
the point reads they share. Each operation opens one engine transaction, reads
through it, stages its writes, commits, and then notifies the watchers.

Every engine call of an operation may fail. The failures are an oracle of the
environment, asked with the kind of the call and, in a loop, its round; the
engine itself refuses empty keys and keys above its size limit. Nothing is
stored before the commit and nothing can fail after it.

The last sections say what an engine call does, and what one round of each loop
does; later files argue about the loops from these and do not unfold them.
-/

import ConsensusDB.Key

namespace ConsensusDB

open Wire

/-! ### The engine -/

/-- The engine calls of one operation; the number is the round of the loop they are made in. -/
inductive Step where
  | get (round : Nat)
  | copy (round : Nat)
  | set (round : Nat)
  | delete (round : Nat)
  | commit

/-- What surrounds one operation: the clock it reads and the engine calls that fail. -/
structure Env where
  now : Int64
  fault : Step → Option Err

/-- An environment in which no engine call fails. -/
def Env.healthy (now : Int64) : Env := ⟨now, fun _ => none⟩

/-- A read-write transaction: the snapshot it reads and its pending writes, latest first. -/
structure Txn where
  snapshot : Bytes → Option Item
  writes : List (Bytes × Option Item)

def errEmptyKey : Err := .external "Key cannot be empty"

def maxEngineKeySize : Nat := 65000

/-- The engine refuses to write an empty key, a key of its own and a key above its size limit. -/
def refuseKey (key : Bytes) : Option Err :=
  if key = [] then some errEmptyKey
  else if (str "!badger!").isPrefixOf key then
    some (.external "Key is using a reserved !badger! prefix")
  else if key.length > maxEngineKeySize then some (.external "Key exceeded size limit") else none

theorem length_of_accepted {key : Bytes} (accepted : refuseKey key = none) :
    key.length ≤ maxEngineKeySize := by
  unfold refuseKey at accepted
  split at accepted
  · cases accepted
  · split at accepted
    · cases accepted
    · split at accepted
      · cases accepted
      · omega

/-- What the transaction sees at a key: its own pending write, else its snapshot. -/
def Txn.read (txn : Txn) (key : Bytes) : Option Item := Mvcc.overlay txn.snapshot txn.writes key

def Txn.get (txn : Txn) (env : Env) (round : Nat) (key : Bytes) : Except Err (Option Item) :=
  match env.fault (.get round) with
  | some err => .error err
  | none => if key = [] then .error errEmptyKey else .ok (txn.read key)

def Item.valueCopy (item : Item) (env : Env) (round : Nat) : Except Err Bytes :=
  match env.fault (.copy round) with
  | some err => .error err
  | none => .ok item.value

def Txn.setEntry (txn : Txn) (env : Env) (round : Nat) (key : Bytes) (item : Item) :
    Except Err Txn :=
  match env.fault (.set round), refuseKey key with
  | some err, _ => .error err
  | none, some err => .error err
  | none, none => .ok { txn with writes := (key, some item) :: txn.writes }

def Txn.delete (txn : Txn) (env : Env) (round : Nat) (key : Bytes) : Except Err Txn :=
  match env.fault (.delete round), refuseKey key with
  | some err, _ => .error err
  | none, some err => .error err
  | none, none => .ok { txn with writes := (key, none) :: txn.writes }

/-! ### The store and its watchers -/

inductive WatchEventType where
  | set
  | delete
  deriving DecidableEq, Repr

/-- A change event of the watch hub, under the encoded key; a delete carries no value. -/
structure WatchEvent where
  key : Bytes
  value : Bytes
  type : WatchEventType
  version : Int64
  deriving DecidableEq, Repr

/-- A dump as the engine's backup stream carries it. -/
abbrev Dump := List (Mvcc.Version Bytes Item)

/-- The engine contents and the events handed to the watch hub so far. -/
structure Store where
  db : Mvcc.Db Bytes Item
  events : List WatchEvent

def Store.empty : Store := ⟨Mvcc.Db.empty, []⟩

def Store.newTransaction (store : Store) : Txn := ⟨store.db.read, []⟩

/-- The end of every write: if its last entry was staged, commit, then notify. -/
def Store.commit {Result : Type} (store : Store) (env : Env) (staged : Except Err Txn)
    (context : String) (events : List WatchEvent) (result : Result) : Except Err Result × Store :=
  match staged, env.fault .commit with
  | .error err, _ => (.error err, store)
  | .ok _, some err => (.error (.wrap context err), store)
  | .ok txn, none => (.ok result, ⟨store.db.commit txn.writes, store.events ++ events⟩)

/-! ### Decisions the operations share -/

/-- Prefers an expiry that is already absolute over one derived from the clock. -/
def resolveExpiry (deps : Deps) (now ttlSeconds expiresAt : Int64) : Int64 :=
  if expiresAt ≠ 0 then expiresAt
  else if ttlSeconds > 0 then deps.expiryFromTtl now ttlSeconds
  else 0

/-- The envelope version of a write: the log index, or the previous version plus one. -/
def nextVersion (commitVersion oldVersion : UInt64) : UInt64 :=
  if commitVersion = 0 then oldVersion + 1 else commitVersion

/-- Whether a compare-and-set request finds another version than the one it expects; version
zero expects an absent key. -/
def casRefuses (request : RecordRequest) (current : Option UInt64) : Bool :=
  request.compareAndSet && request.version != current.getD 0

namespace Storage

/-! ### Point reads -/

def recordNotFound (key : Key) : Record := { key := some key }

/-- The reply for a stored item whose envelope is readable. -/
def itemRecord (deps : Deps) (key : Key) (entryKey : Bytes) (item : Item) (headOnly : Bool) :
    Record :=
  let envelope := deps.decodeEnvelope item.value
  { key := some key
    head := some
      { version := envelope.version.toUInt64
        expiresAt := envelope.expiresAt.toUInt64
        diskSize := deps.estimatedSize entryKey item
        metadata := item.userMeta.toUInt32.toInt32 }
    value := if headOnly then [] else envelope.value }

/-- The reply for a stored item; an expired one is reported as not found. -/
def fetchRecord (deps : Deps) (env : Env) (round : Nat) (key : Key) (entryKey : Bytes) (item : Item)
    (headOnly : Bool) : Except Err Record :=
  match wrapError "fetch value failed" (item.valueCopy env round) with
  | .error err => .error err
  | .ok data =>
    if deps.isExpired env.now (deps.decodeEnvelope data).expiresAt then .ok (recordNotFound key)
    else .ok (itemRecord deps key entryKey ⟨data, item.userMeta⟩ headOnly)

def get (deps : Deps) (env : Env) (store : Store) (request : KeyRequest) : Except Err Record :=
  match request.key with
  | none => .error .emptyKey
  | some key =>
    let entryKey := (encodeKey deps key).1
    match store.newTransaction.get env 0 entryKey with
    | .error err => .error err
    | .ok none => .ok (recordNotFound key)
    | .ok (some item) => fetchRecord deps env 0 key entryKey item request.headOnly

/-! ### Writes -/

def touch (deps : Deps) (env : Env) (store : Store) (request : RecordRequest)
    (commitVersion : UInt64) : Except Err Status × Store :=
  match request.key with
  | none => (.error .emptyKey, store)
  | some key =>
    let entryKey := (encodeKey deps key).1
    let txn := store.newTransaction
    match txn.get env 0 entryKey with
    | .error err => (.error err, store)
    | .ok none => (.ok ⟨false⟩, store)
    | .ok (some item) =>
      match wrapError "fetch in touch error" (item.valueCopy env 0) with
      | .error err => (.error err, store)
      | .ok data =>
        let old := deps.decodeEnvelope data
        let version := nextVersion commitVersion old.version.toUInt64
        let expiresAt := resolveExpiry deps env.now request.ttlSeconds request.expiresAt
        let entry := ⟨deps.encodeEnvelope version.toInt64 expiresAt old.value, item.userMeta⟩
        store.commit env (wrapError "update entry error" (txn.setEntry env 0 entryKey entry))
          "commit touch error" [⟨entryKey, old.value, .set, version.toInt64⟩] ⟨true⟩

/-- The version a conditional write is checked against: that of the stored envelope, and
`none` when the key is absent. -/
def currentVersion (deps : Deps) (env : Env) (round : Nat) (context : String) (txn : Txn)
    (entryKey : Bytes) : Except Err (Option UInt64) :=
  match txn.get env round entryKey with
  | .error err => .error err
  | .ok none => .ok none
  | .ok (some item) =>
    match wrapError context (item.valueCopy env round) with
    | .error err => .error err
    | .ok data => .ok (some (deps.decodeEnvelope data).version.toUInt64)

/-- The item a put of the request stores. -/
def putItem (deps : Deps) (env : Env) (request : RecordRequest) (version : UInt64) : Item :=
  ⟨deps.encodeEnvelope version.toInt64
      (resolveExpiry deps env.now request.ttlSeconds request.expiresAt) request.value,
    request.metadata.toUInt32.toUInt8⟩

def put (deps : Deps) (env : Env) (store : Store) (request : RecordRequest)
    (commitVersion : UInt64) : Except Err Status × Store :=
  match request.key with
  | none => (.error .emptyKey, store)
  | some key =>
    let entryKey := (encodeKey deps key).1
    let txn := store.newTransaction
    match currentVersion deps env 0 "read current value error" txn entryKey with
    | .error err => (.error err, store)
    | .ok current =>
      if casRefuses request current then (.ok ⟨false⟩, store)
      else
        let version := nextVersion commitVersion (current.getD 0)
        store.commit env
          (wrapError "update entry error"
            (txn.setEntry env 0 entryKey (putItem deps env request version)))
          "commit put error" [⟨entryKey, request.value, .set, version.toInt64⟩] ⟨true⟩

def remove (deps : Deps) (env : Env) (store : Store) (request : KeyRequest) :
    Except Err Status × Store :=
  match request.key with
  | none => (.error .emptyKey, store)
  | some key =>
    let entryKey := (encodeKey deps key).1
    store.commit env
      (wrapError "delete entry error" (store.newTransaction.delete env 0 entryKey))
      "commit remove error" [⟨entryKey, [], .delete, 0⟩] ⟨true⟩

/-- The loop of `Reclaim`: deletes the entries whose stored version still matches and returns
their keys. -/
def reclaimEntries (deps : Deps) (env : Env) :
    Nat → Txn → List ReclaimEntry → Except Err (Txn × List Bytes)
  | _, txn, [] => .ok (txn, [])
  | round, txn, entry :: rest =>
    match txn.get env round entry.entryKey with
    | .error err => .error err
    | .ok none => reclaimEntries deps env (round + 1) txn rest
    | .ok (some item) =>
      match wrapError "reclaim read value error" (item.valueCopy env round) with
      | .error err => .error err
      | .ok data =>
        if (deps.decodeEnvelope data).version.toUInt64 ≠ entry.version then
          reclaimEntries deps env (round + 1) txn rest
        else
          match wrapError "reclaim delete error" (txn.delete env round entry.entryKey) with
          | .error err => .error err
          | .ok txn =>
            match reclaimEntries deps env (round + 1) txn rest with
            | .error err => .error err
            | .ok (txn, deleted) => .ok (txn, entry.entryKey :: deleted)

def reclaim (deps : Deps) (env : Env) (store : Store) (request : ReclaimRequest) :
    Except Err Nat × Store :=
  if request.entries = [] then (.ok 0, store)
  else
    match reclaimEntries deps env 0 store.newTransaction request.entries with
    | .error err => (.error err, store)
    | .ok (txn, deleted) =>
      if deleted = [] then (.ok 0, store)
      else
        store.commit env (.ok txn) "commit reclaim error"
          (deleted.map fun key => ⟨key, [], .delete, 0⟩) deleted.length

/-- The version and the eight-byte counter of a stored envelope; a shorter payload counts as
the fallback. -/
def counterFromEnvelope (deps : Deps) (data : Bytes) (fallback : Int64) : UInt64 × Int64 :=
  let envelope := deps.decodeEnvelope data
  (envelope.version.toUInt64,
    if envelope.value.length ≥ 8 then (uint64 envelope.value).toInt64 else fallback)

def increment (deps : Deps) (env : Env) (store : Store) (request : IncrementRequest)
    (commitVersion : UInt64) : Except Err IncrementResponse × Store :=
  match request.key with
  | none => (.error .emptyKey, store)
  | some key =>
    let entryKey := (encodeKey deps key).1
    let txn := store.newTransaction
    let current : Except Err (UInt64 × Int64) :=
      match txn.get env 0 entryKey with
      | .error err => .error err
      | .ok none => .ok (0, request.initial)
      | .ok (some item) =>
        match wrapError "read counter error" (item.valueCopy env 0) with
        | .error err => .error err
        | .ok data => .ok (counterFromEnvelope deps data request.initial)
    match current with
    | .error err => (.error err, store)
    | .ok (oldVersion, previous) =>
      let counter := previous + request.delta
      let version := nextVersion commitVersion oldVersion
      let expiresAt := resolveExpiry deps env.now request.ttlSeconds request.expiresAt
      let payload := putUint64 counter.toUInt64
      let entry := ⟨deps.encodeEnvelope version.toInt64 expiresAt payload, 0⟩
      store.commit env (wrapError "update counter error" (txn.setEntry env 0 entryKey entry))
        "commit increment error" [⟨entryKey, payload, .set, version.toInt64⟩]
        ⟨previous, counter, version⟩

/-- The version `SetBatch` gives a record. Without a log index it reads the stored one; a value
that cannot be copied counts as version zero. -/
def batchVersion (deps : Deps) (env : Env) (round : Nat) (txn : Txn) (entryKey : Bytes)
    (commitVersion : UInt64) : Except Err UInt64 :=
  if commitVersion ≠ 0 then .ok commitVersion
  else
    match txn.get env round entryKey with
    | .error err => .error err
    | .ok none => .ok 1
    | .ok (some item) =>
      match item.valueCopy env round with
      | .error _ => .ok 1
      | .ok data => .ok ((counterFromEnvelope deps data 0).1 + 1)

/-- The loop of `SetBatch`: stages every record and collects the events to send once the whole
batch is committed. -/
def batchRecords (deps : Deps) (env : Env) (commitVersion : UInt64) :
    Nat → Txn → List RecordRequest → Except Err (Txn × List WatchEvent)
  | _, txn, [] => .ok (txn, [])
  | round, txn, record :: rest =>
    match record.key with
    | none => .error .emptyKey
    | some key =>
      let entryKey := (encodeKey deps key).1
      match batchVersion deps env round txn entryKey commitVersion with
      | .error err => .error err
      | .ok version =>
        match wrapError "batch set entry error"
            (txn.setEntry env round entryKey (putItem deps env record version)) with
        | .error err => .error err
        | .ok txn =>
          match batchRecords deps env commitVersion (round + 1) txn rest with
          | .error err => .error err
          | .ok (txn, pending) =>
            .ok (txn, ⟨entryKey, record.value, .set, version.toInt64⟩ :: pending)

def setBatch (deps : Deps) (env : Env) (store : Store) (request : BatchRequest)
    (commitVersion : UInt64) : Except Err Status × Store :=
  match batchRecords deps env commitVersion 0 store.newTransaction request.records with
  | .error err => (.error err, store)
  | .ok (txn, pending) => store.commit env (.ok txn) "commit batch error" pending ⟨true⟩

/-! ### Backup and load -/

def backup (store : Store) (since : Nat) : Dump := store.db.backup since

/-- Loads a dump. No event is sent. -/
def load (store : Store) (dump : Dump) : Store := { store with db := store.db.load dump }

end Storage

/-! ### The engine in a healthy environment -/

@[simp] theorem healthy_now (now : Int64) : (Env.healthy now).now = now := rfl

@[simp] theorem healthy_fault (now : Int64) (step : Step) :
    (Env.healthy now).fault step = none := rfl

theorem Env.eq_healthy (env : Env) (faultless : ∀ step, env.fault step = none) :
    env = .healthy env.now := by
  obtain ⟨clock, fault⟩ := env
  obtain rfl : fault = fun _ => none := funext faultless
  rfl

@[simp] theorem valueCopy_healthy (item : Item) (now : Int64) (round : Nat) :
    item.valueCopy (Env.healthy now) round = .ok item.value := rfl

theorem get_healthy (txn : Txn) (now : Int64) (round : Nat) (key : Bytes) (nonempty : key ≠ []) :
    txn.get (Env.healthy now) round key = .ok (txn.read key) := by
  rw [Txn.get, healthy_fault]
  exact if_neg nonempty

theorem setEntry_healthy (txn : Txn) (now : Int64) (round : Nat) (key : Bytes) (item : Item)
    (accepted : refuseKey key = none) :
    txn.setEntry (Env.healthy now) round key item =
      .ok { txn with writes := (key, some item) :: txn.writes } := by
  rw [Txn.setEntry, healthy_fault, accepted]

theorem delete_healthy (txn : Txn) (now : Int64) (round : Nat) (key : Bytes)
    (accepted : refuseKey key = none) :
    txn.delete (Env.healthy now) round key =
      .ok { txn with writes := (key, none) :: txn.writes } := by
  rw [Txn.delete, healthy_fault, accepted]

theorem setEntry_refused (txn : Txn) (now : Int64) (round : Nat) (key : Bytes) (item : Item)
    (err : Err) (refused : refuseKey key = some err) :
    txn.setEntry (Env.healthy now) round key item = .error err := by
  rw [Txn.setEntry, healthy_fault, refused]

theorem delete_refused (txn : Txn) (now : Int64) (round : Nat) (key : Bytes) (err : Err)
    (refused : refuseKey key = some err) :
    txn.delete (Env.healthy now) round key = .error err := by
  rw [Txn.delete, healthy_fault, refused]

@[simp] theorem commit_healthy {Result : Type} (store : Store) (now : Int64) (txn : Txn)
    (context : String) (events : List WatchEvent) (result : Result) :
    store.commit (Env.healthy now) (.ok txn) context events result =
      (.ok result, ⟨store.db.commit txn.writes, store.events ++ events⟩) := rfl

theorem fetchRecord_healthy (deps : Deps) (now : Int64) (round : Nat) (key : Key)
    (entryKey : Bytes) (item : Item) (headOnly : Bool) :
    Storage.fetchRecord deps (Env.healthy now) round key entryKey item headOnly =
      .ok (if deps.isExpired now (deps.decodeEnvelope item.value).expiresAt then
          Storage.recordNotFound key
        else Storage.itemRecord deps key entryKey item headOnly) := by
  unfold Storage.fetchRecord
  simp only [valueCopy_healthy, wrapError_ok]
  exact (apply_ite Except.ok _ _ _).symm

@[simp] theorem newTransaction_read (store : Store) :
    store.newTransaction.read = store.db.read := rfl

/-! ### Engine calls that succeed -/

theorem read_of_get (txn : Txn) (env : Env) (round : Nat) (key : Bytes) (found : Option Item)
    (got : txn.get env round key = .ok found) : found = txn.read key := by
  unfold Txn.get at got
  split at got
  · cases got
  · split at got
    · cases got
    · exact (Except.ok.inj got).symm

theorem nonempty_of_get (txn : Txn) (env : Env) (round : Nat) (key : Bytes) (found : Option Item)
    (got : txn.get env round key = .ok found) : key ≠ [] := by
  unfold Txn.get at got
  split at got
  · cases got
  · split at got
    · cases got
    · assumption

theorem value_of_copy (item : Item) (env : Env) (round : Nat) (context : String) (data : Bytes)
    (copied : wrapError context (item.valueCopy env round) = .ok data) : data = item.value := by
  unfold Item.valueCopy at copied
  cases failed : env.fault (.copy round) with
  | some err =>
    rw [failed] at copied
    cases copied
  | none =>
    rw [failed] at copied
    exact (Except.ok.inj copied).symm

theorem staged_of_setEntry (txn staged : Txn) (env : Env) (round : Nat) (key : Bytes) (item : Item)
    (context : String)
    (written : wrapError context (txn.setEntry env round key item) = .ok staged) :
    refuseKey key = none ∧ staged = { txn with writes := (key, some item) :: txn.writes } := by
  unfold Txn.setEntry at written
  cases failed : env.fault (.set round) with
  | some err =>
    rw [failed] at written
    cases written
  | none =>
    cases refused : refuseKey key with
    | some err =>
      rw [failed, refused] at written
      cases written
    | none =>
      rw [failed, refused] at written
      exact ⟨rfl, (Except.ok.inj written).symm⟩

theorem staged_of_delete (txn staged : Txn) (env : Env) (round : Nat) (key : Bytes)
    (context : String) (written : wrapError context (txn.delete env round key) = .ok staged) :
    refuseKey key = none ∧ staged = { txn with writes := (key, none) :: txn.writes } := by
  unfold Txn.delete at written
  cases failed : env.fault (.delete round) with
  | some err =>
    rw [failed] at written
    cases written
  | none =>
    cases refused : refuseKey key with
    | some err =>
      rw [failed, refused] at written
      cases written
    | none =>
      rw [failed, refused] at written
      exact ⟨rfl, (Except.ok.inj written).symm⟩

/-! ### The rounds of the loops -/

/-- What a round of a reclaim does: it skips an entry that is not stored with its version, or
deletes it. -/
theorem reclaimEntries_cons (deps : Deps) (env : Env) {entry : ReclaimEntry}
    {rest : List ReclaimEntry} {round : Nat} {txn final : Txn} {deleted : List Bytes}
    (ended : Storage.reclaimEntries deps env round txn (entry :: rest) = .ok (final, deleted)) :
    entry.entryKey ≠ [] ∧
      ((∀ item, txn.read entry.entryKey = some item →
            (deps.decodeEnvelope item.value).version.toUInt64 ≠ entry.version) ∧
          Storage.reclaimEntries deps env (round + 1) txn rest = .ok (final, deleted) ∨
        ∃ item restDeleted, txn.read entry.entryKey = some item ∧
          (deps.decodeEnvelope item.value).version.toUInt64 = entry.version ∧
          refuseKey entry.entryKey = none ∧ deleted = entry.entryKey :: restDeleted ∧
          Storage.reclaimEntries deps env (round + 1)
            { txn with writes := (entry.entryKey, none) :: txn.writes } rest =
              .ok (final, restDeleted)) := by
  rw [Storage.reclaimEntries] at ended
  split at ended
  · cases ended
  · rename_i got
    refine ⟨nonempty_of_get txn env round _ _ got, Or.inl ⟨fun item found => ?_, ended⟩⟩
    cases (read_of_get txn env round _ _ got).trans found
  · rename_i item got
    have found := (read_of_get txn env round _ _ got).symm
    refine ⟨nonempty_of_get txn env round _ _ got, ?_⟩
    split at ended
    · cases ended
    · rename_i data copied
      obtain rfl := value_of_copy item env round _ data copied
      split at ended
      · rename_i other
        refine Or.inl ⟨fun stored isStored => ?_, ended⟩
        obtain rfl := Option.some.inj (isStored.symm.trans found)
        exact other
      · rename_i same
        split at ended
        · cases ended
        · rename_i staged written
          obtain ⟨accepted, rfl⟩ := staged_of_delete txn staged env round _ _ written
          split at ended
          · cases ended
          · rename_i restEnded
            cases ended
            exact Or.inr ⟨item, _, found, not_not.mp same, accepted, rfl, restEnded⟩

/-- What a round of a batch does: it numbers the record and sets it. -/
theorem batchRecords_cons (deps : Deps) (env : Env) (commitVersion : UInt64)
    {record : RecordRequest} {rest : List RecordRequest} {round : Nat} {txn : Txn}
    {outcome : Txn × List WatchEvent}
    (ended : Storage.batchRecords deps env commitVersion round txn (record :: rest) =
      .ok outcome) :
    ∃ key version pending, record.key = some key ∧
      Storage.batchVersion deps env round txn (encodeKey deps key).1 commitVersion = .ok version ∧
      refuseKey (encodeKey deps key).1 = none ∧ env.fault (.set round) = none ∧
      outcome.2 = ⟨(encodeKey deps key).1, record.value, .set, version.toInt64⟩ :: pending ∧
      Storage.batchRecords deps env commitVersion (round + 1)
        { txn with writes := ((encodeKey deps key).1,
            some (Storage.putItem deps env record version)) :: txn.writes } rest =
          .ok (outcome.1, pending) := by
  rw [Storage.batchRecords] at ended
  split at ended
  · cases ended
  · rename_i key named
    simp only at ended
    split at ended
    · cases ended
    · rename_i version numbered
      split at ended
      · cases ended
      · rename_i staged written
        obtain ⟨accepted, rfl⟩ := staged_of_setEntry txn staged env round _ _ _ written
        have fine : env.fault (.set round) = none := by
          cases failed : env.fault (.set round) with
          | none => rfl
          | some err =>
            rw [Txn.setEntry, failed] at written
            cases written
        split at ended
        · cases ended
        · rename_i restEnded
          cases ended
          exact ⟨key, version, _, named, numbered, accepted, fine, rfl, restEnded⟩

end ConsensusDB
