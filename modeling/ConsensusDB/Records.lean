/-
This file says what the storage operations are for. A client of the store does
not see engine versions, timestamps, transactions or envelopes; it sees, for
each physical key, at most one record: a value, an envelope version, an expiry
and a user byte. `Records` is that abstract store, with the six write
operations restated on it, and the refinement theorems say that each operation
of `Storage.lean`, in a healthy environment, answers and changes the records
as the abstract one does.

The abstract operations read the stored records, the request, the commit
version and -- only through `resolveExpiry` -- the clock. Nothing about the
engine is left in them, which is what every later statement about replicas
rests on.
-/

import ConsensusDB.Storage

namespace ConsensusDB

open Wire

/-! ### The abstract store -/

/-- A record as a client sees it. -/
structure StoredRecord where
  value : Bytes
  version : UInt64
  expiresAt : Int64
  userMeta : UInt8
  deriving DecidableEq, Repr

/-- The abstract store: at most one record for each physical key. -/
abbrev Records := Bytes → Option StoredRecord

/-- The record an engine item holds. -/
def storedRecord (deps : Deps) (item : Item) : StoredRecord :=
  let envelope := deps.decodeEnvelope item.value
  ⟨envelope.value, envelope.version.toUInt64, envelope.expiresAt, item.userMeta⟩

/-- The records a store shows. -/
def Store.records (deps : Deps) (store : Store) : Records :=
  fun key => (store.db.read key).map (storedRecord deps)

/-- The records a transaction sees. -/
def Txn.records (deps : Deps) (txn : Txn) : Records :=
  fun key => (txn.read key).map (storedRecord deps)

/-- The answer of an operation together with the records it leaves. -/
def view {Result : Type} (deps : Deps) (outcome : Except Err Result × Store) :
    Except Err Result × Records :=
  (outcome.1, outcome.2.records deps)

namespace Records

/-- Writes one record, or removes it, unless the engine refuses the key. -/
def write {Result : Type} (records : Records) (context : String) (key : Bytes)
    (record : Option StoredRecord) (result : Result) : Except Err Result × Records :=
  match refuseKey key with
  | some err => (.error (.wrap context err), records)
  | none => (.ok result, Function.update records key record)

/-- The version at a key, zero where there is none. -/
def versionAt (records : Records) (key : Bytes) : UInt64 :=
  ((records key).map StoredRecord.version).getD 0

def touch (deps : Deps) (now : Int64) (records : Records) (request : RecordRequest)
    (commitVersion : UInt64) : Except Err Status × Records :=
  match request.key with
  | none => (.error .emptyKey, records)
  | some key =>
    let entryKey := (encodeKey deps key).1
    match records entryKey with
    | none => (.ok ⟨false⟩, records)
    | some old =>
      records.write "update entry error" entryKey
        (some { old with
          version := nextVersion commitVersion old.version
          expiresAt := resolveExpiry deps now request.ttlSeconds request.expiresAt }) ⟨true⟩

/-- The record a put of the request stores. -/
def putRecord (deps : Deps) (now : Int64) (request : RecordRequest) (version : UInt64) :
    StoredRecord :=
  ⟨request.value, version, resolveExpiry deps now request.ttlSeconds request.expiresAt,
    request.metadata.toUInt32.toUInt8⟩

def put (deps : Deps) (now : Int64) (records : Records) (request : RecordRequest)
    (commitVersion : UInt64) : Except Err Status × Records :=
  match request.key with
  | none => (.error .emptyKey, records)
  | some key =>
    let entryKey := (encodeKey deps key).1
    if casRefuses request ((records entryKey).map StoredRecord.version) then
      (.ok ⟨false⟩, records)
    else
      records.write "update entry error" entryKey
        (some (putRecord deps now request (nextVersion commitVersion (records.versionAt entryKey))))
        ⟨true⟩

def remove (deps : Deps) (records : Records) (request : KeyRequest) :
    Except Err Status × Records :=
  match request.key with
  | none => (.error .emptyKey, records)
  | some key => records.write "delete entry error" (encodeKey deps key).1 none ⟨true⟩

/-- The loop of `reclaim`: how many records it removes, and the records it leaves. -/
def reclaimEntries : Records → List ReclaimEntry → Except Err (Nat × Records)
  | records, [] => .ok (0, records)
  | records, entry :: rest =>
    if entry.entryKey = [] then .error errEmptyKey
    else
      match records entry.entryKey with
      | none => reclaimEntries records rest
      | some old =>
        if old.version ≠ entry.version then reclaimEntries records rest
        else
          match refuseKey entry.entryKey with
          | some err => .error (.wrap "reclaim delete error" err)
          | none =>
            match reclaimEntries (Function.update records entry.entryKey none) rest with
            | .error err => .error err
            | .ok (removed, records) => .ok (removed + 1, records)

def reclaim (records : Records) (request : ReclaimRequest) : Except Err Nat × Records :=
  match records.reclaimEntries request.entries with
  | .error err => (.error err, records)
  | .ok (removed, records) => (.ok removed, records)

/-- The counter a record holds: its first eight bytes, or the initial value when it has fewer or
is absent. -/
def counter (initial : Int64) : Option StoredRecord → Int64
  | none => initial
  | some record =>
    if record.value.length ≥ 8 then (uint64 record.value).toInt64 else initial

def increment (deps : Deps) (now : Int64) (records : Records) (request : IncrementRequest)
    (commitVersion : UInt64) : Except Err IncrementResponse × Records :=
  match request.key with
  | none => (.error .emptyKey, records)
  | some key =>
    let entryKey := (encodeKey deps key).1
    let previous := counter request.initial (records entryKey)
    let current := previous + request.delta
    let version := nextVersion commitVersion (records.versionAt entryKey)
    records.write "update counter error" entryKey
      (some ⟨putUint64 current.toUInt64, version,
        resolveExpiry deps now request.ttlSeconds request.expiresAt, 0⟩)
      ⟨previous, current, version⟩

/-- The loop of `setBatch`: every record is put unconditionally, one after another. -/
def batchRecords (deps : Deps) (now : Int64) (commitVersion : UInt64) :
    Records → List RecordRequest → Except Err Records
  | records, [] => .ok records
  | records, record :: rest =>
    match record.key with
    | none => .error .emptyKey
    | some key =>
      let entryKey := (encodeKey deps key).1
      match refuseKey entryKey with
      | some err => .error (.wrap "batch set entry error" err)
      | none =>
        batchRecords deps now commitVersion
          (Function.update records entryKey (some (putRecord deps now record
            (nextVersion commitVersion (records.versionAt entryKey))))) rest

def setBatch (deps : Deps) (now : Int64) (records : Records) (request : BatchRequest)
    (commitVersion : UInt64) : Except Err Status × Records :=
  match records.batchRecords deps now commitVersion request.records with
  | .error err => (.error err, records)
  | .ok records => (.ok ⟨true⟩, records)

end Records

/-! ### What a commit shows -/

theorem storedRecord_encode (deps : Deps) (lawful : deps.Lawful) (version : UInt64)
    (expiresAt : Int64) (value : Bytes) (userMeta : UInt8) :
    storedRecord deps ⟨deps.encodeEnvelope version.toInt64 expiresAt value, userMeta⟩ =
      ⟨value, version, expiresAt, userMeta⟩ := by
  rw [storedRecord, lawful.envelope, UInt64.toUInt64_toInt64]

theorem storedRecord_putItem (deps : Deps) (lawful : deps.Lawful) (now : Int64)
    (request : RecordRequest) (version : UInt64) :
    storedRecord deps (Storage.putItem deps (Env.healthy now) request version) =
      Records.putRecord deps now request version :=
  storedRecord_encode deps lawful version _ request.value _

@[simp] theorem newTransaction_records (deps : Deps) (store : Store) :
    store.newTransaction.records deps = store.records deps := rfl

/-- Staging a write updates the records the transaction sees. -/
theorem txn_records_cons (deps : Deps) (txn : Txn) (key : Bytes) (item : Option Item) :
    Txn.records deps { txn with writes := (key, item) :: txn.writes } =
      Function.update (txn.records deps) key (item.map (storedRecord deps)) := by
  funext other
  show (Mvcc.overlay txn.snapshot ((key, item) :: txn.writes) other).map _ = _
  rw [Mvcc.overlay_cons]
  by_cases same : other = key
  · rw [same, Function.update_self, Function.update_self]
  · rw [Function.update_of_ne same, Function.update_of_ne same]
    rfl

/-- A commit shows the records its transaction saw. -/
theorem commit_records (deps : Deps) (store : Store) (txn : Txn) (events : List WatchEvent)
    (snapshot : txn.snapshot = store.db.read) :
    Store.records deps ⟨store.db.commit txn.writes, events⟩ = txn.records deps := by
  funext key
  show ((store.db.commit txn.writes).read key).map _ =
    (Mvcc.overlay txn.snapshot txn.writes key).map _
  rw [Mvcc.read_commit, snapshot]

/-- Writing one item and committing is the abstract write. -/
theorem view_commit_set {Result : Type} (deps : Deps) (store : Store) (now : Int64) (key : Bytes)
    (item : Item) (context commitContext : String) (events : List WatchEvent) (result : Result) :
    view deps
        (store.commit (Env.healthy now)
          (wrapError context (store.newTransaction.setEntry (Env.healthy now) 0 key item))
          commitContext events result) =
      (store.records deps).write context key (some (storedRecord deps item)) result := by
  unfold Records.write
  cases accepted : refuseKey key with
  | some err =>
    rw [setEntry_refused _ _ _ _ _ _ accepted]
    rfl
  | none =>
    rw [setEntry_healthy _ _ _ _ _ accepted, wrapError_ok]
    simp only [commit_healthy, view]
    rw [commit_records deps store
      { store.newTransaction with writes := (key, some item) :: store.newTransaction.writes } _ rfl,
      txn_records_cons]
    rfl

/-- Deleting one key and committing is the abstract removal. -/
theorem view_commit_delete {Result : Type} (deps : Deps) (store : Store) (now : Int64) (key : Bytes)
    (context commitContext : String) (events : List WatchEvent) (result : Result) :
    view deps
        (store.commit (Env.healthy now)
          (wrapError context (store.newTransaction.delete (Env.healthy now) 0 key))
          commitContext events result) =
      (store.records deps).write context key none result := by
  unfold Records.write
  cases accepted : refuseKey key with
  | some err =>
    rw [delete_refused _ _ _ _ _ accepted]
    rfl
  | none =>
    rw [delete_healthy _ _ _ _ accepted, wrapError_ok]
    simp only [commit_healthy, view]
    rw [commit_records deps store
      { store.newTransaction with writes := (key, none) :: store.newTransaction.writes } _ rfl,
      txn_records_cons]
    rfl

/-! ### The single-key operations refine the abstract ones -/

theorem view_touch (deps : Deps) (lawful : deps.Lawful) (now : Int64) (store : Store)
    (request : RecordRequest) (commitVersion : UInt64) :
    view deps (Storage.touch deps (Env.healthy now) store request commitVersion) =
      (store.records deps).touch deps now request commitVersion := by
  unfold Storage.touch Records.touch
  cases request.key with
  | none => rfl
  | some key =>
    simp only [get_healthy _ _ _ _ (encodeKey_ne_nil deps key), newTransaction_read, Store.records]
    cases store.db.read (encodeKey deps key).1 with
    | none => rfl
    | some item =>
      simp only [valueCopy_healthy, wrapError_ok, healthy_now]
      rw [view_commit_set, storedRecord_encode deps lawful]
      rfl

theorem currentVersion_healthy (deps : Deps) (now : Int64) (context : String) (store : Store)
    (key : Key) :
    Storage.currentVersion deps (Env.healthy now) 0 context store.newTransaction
        (encodeKey deps key).1 =
      .ok ((store.records deps (encodeKey deps key).1).map StoredRecord.version) := by
  rw [Storage.currentVersion, get_healthy _ _ _ _ (encodeKey_ne_nil deps key), newTransaction_read,
    Store.records]
  cases store.db.read (encodeKey deps key).1 <;> rfl

theorem view_put (deps : Deps) (lawful : deps.Lawful) (now : Int64) (store : Store)
    (request : RecordRequest) (commitVersion : UInt64) :
    view deps (Storage.put deps (Env.healthy now) store request commitVersion) =
      (store.records deps).put deps now request commitVersion := by
  unfold Storage.put Records.put
  cases request.key with
  | none => rfl
  | some key =>
    simp only [currentVersion_healthy]
    by_cases refused : casRefuses request
        ((store.records deps (encodeKey deps key).1).map StoredRecord.version) = true
    · rw [if_pos refused, if_pos refused]
      rfl
    · rw [if_neg refused, if_neg refused, view_commit_set, storedRecord_putItem deps lawful]
      rfl

theorem view_remove (deps : Deps) (now : Int64) (store : Store) (request : KeyRequest) :
    view deps (Storage.remove deps (Env.healthy now) store request) =
      (store.records deps).remove deps request := by
  unfold Storage.remove Records.remove
  cases request.key with
  | none => rfl
  | some key => exact view_commit_delete deps store now _ _ _ _ _

theorem view_increment (deps : Deps) (lawful : deps.Lawful) (now : Int64) (store : Store)
    (request : IncrementRequest) (commitVersion : UInt64) :
    view deps (Storage.increment deps (Env.healthy now) store request commitVersion) =
      (store.records deps).increment deps now request commitVersion := by
  unfold Storage.increment Records.increment
  cases request.key with
  | none => rfl
  | some key =>
    simp only [get_healthy _ _ _ _ (encodeKey_ne_nil deps key), newTransaction_read,
      Records.versionAt, Store.records]
    cases store.db.read (encodeKey deps key).1 with
    | none =>
      simp only [healthy_now]
      rw [view_commit_set, storedRecord_encode deps lawful]
      rfl
    | some item =>
      simp only [valueCopy_healthy, wrapError_ok, healthy_now, Storage.counterFromEnvelope]
      rw [view_commit_set, storedRecord_encode deps lawful]
      rfl

/-! ### The loops refine the abstract ones -/

theorem batchVersion_healthy (deps : Deps) (now : Int64) (round : Nat) (txn : Txn) (key : Key)
    (commitVersion : UInt64) :
    Storage.batchVersion deps (Env.healthy now) round txn (encodeKey deps key).1 commitVersion =
      .ok (nextVersion commitVersion ((txn.records deps).versionAt (encodeKey deps key).1)) := by
  unfold Storage.batchVersion nextVersion Records.versionAt Txn.records
  by_cases zero : commitVersion = 0
  · rw [if_neg (not_not_intro zero), if_pos zero, get_healthy _ _ _ _ (encodeKey_ne_nil deps key)]
    cases txn.read (encodeKey deps key).1 <;> rfl
  · rw [if_pos zero, if_neg zero]

/-- The loop of a batch ends with the records the abstract loop ends with. -/
theorem batchRecords_view (deps : Deps) (lawful : deps.Lawful) (now : Int64)
    (commitVersion : UInt64) (records : List RecordRequest) (round : Nat) (txn : Txn) :
    (Storage.batchRecords deps (Env.healthy now) commitVersion round txn records).map
        (fun final => final.1.records deps) =
      (txn.records deps).batchRecords deps now commitVersion records := by
  induction records generalizing round txn with
  | nil => rfl
  | cons record rest inductionHypothesis =>
    rw [Storage.batchRecords, Records.batchRecords]
    cases record.key with
    | none => rfl
    | some key =>
      simp only [batchVersion_healthy]
      cases accepted : refuseKey (encodeKey deps key).1 with
      | some err =>
        rw [setEntry_refused _ _ _ _ _ _ accepted]
        rfl
      | none =>
        rw [setEntry_healthy _ _ _ _ _ accepted]
        simp only [wrapError_ok]
        have staged := txn_records_cons deps txn (encodeKey deps key).1
          (some (Storage.putItem deps (Env.healthy now) record
            (nextVersion commitVersion ((txn.records deps).versionAt (encodeKey deps key).1))))
        rw [Option.map_some, storedRecord_putItem deps lawful] at staged
        rw [← staged, ← inductionHypothesis (round + 1)]
        cases Storage.batchRecords deps (Env.healthy now) commitVersion (round + 1) _ rest <;> rfl

theorem batchRecords_snapshot (deps : Deps) (env : Env) (commitVersion : UInt64)
    (records : List RecordRequest) (round : Nat) (txn final : Txn) (pending : List WatchEvent)
    (ended : Storage.batchRecords deps env commitVersion round txn records = .ok (final, pending)) :
    final.snapshot = txn.snapshot := by
  induction records generalizing round txn final pending with
  | nil =>
    cases ended
    rfl
  | cons record rest inductionHypothesis =>
    obtain ⟨key, version, restPending, _, _, _, _, _, restEnded⟩ :=
      batchRecords_cons deps env commitVersion ended
    exact (inductionHypothesis _ _ _ _ restEnded :)

theorem view_setBatch (deps : Deps) (lawful : deps.Lawful) (now : Int64) (store : Store)
    (request : BatchRequest) (commitVersion : UInt64) :
    view deps (Storage.setBatch deps (Env.healthy now) store request commitVersion) =
      (store.records deps).setBatch deps now request commitVersion := by
  unfold Storage.setBatch Records.setBatch
  rw [← newTransaction_records, ← batchRecords_view deps lawful now commitVersion _ 0]
  cases ended : Storage.batchRecords deps (Env.healthy now) commitVersion 0 store.newTransaction
      request.records with
  | error err => rfl
  | ok final =>
    simp only [commit_healthy, view, Except.map]
    rw [commit_records deps store final.1 _
      (batchRecords_snapshot deps _ commitVersion _ _ _ _ final.2 ended)]

/-- The loop of a reclaim removes as many records as the abstract loop and ends with the same
records. -/
theorem reclaimEntries_view (deps : Deps) (now : Int64) (entries : List ReclaimEntry)
    (round : Nat) (txn : Txn) :
    (Storage.reclaimEntries deps (Env.healthy now) round txn entries).map
        (fun final => (final.2.length, final.1.records deps)) =
      (txn.records deps).reclaimEntries entries := by
  induction entries generalizing round txn with
  | nil => rfl
  | cons entry rest inductionHypothesis =>
    rw [Storage.reclaimEntries, Records.reclaimEntries]
    by_cases empty : entry.entryKey = []
    · rw [if_pos empty, Txn.get, healthy_fault]
      simp only [if_pos empty]
      rfl
    · rw [if_neg empty, get_healthy _ _ _ _ empty]
      have record : txn.records deps entry.entryKey =
          (txn.read entry.entryKey).map (storedRecord deps) := rfl
      rw [record]
      cases txn.read entry.entryKey with
      | none => exact inductionHypothesis (round + 1) txn
      | some item =>
        simp only [valueCopy_healthy, wrapError_ok, Option.map_some, storedRecord]
        by_cases other : (deps.decodeEnvelope item.value).version.toUInt64 ≠ entry.version
        · rw [if_pos other, if_pos other]
          exact inductionHypothesis (round + 1) txn
        · rw [if_neg other, if_neg other]
          cases accepted : refuseKey entry.entryKey with
          | some err =>
            rw [delete_refused _ _ _ _ _ accepted]
            rfl
          | none =>
            rw [delete_healthy _ _ _ _ accepted]
            simp only [wrapError_ok]
            have removed := txn_records_cons deps txn entry.entryKey none
            rw [Option.map_none] at removed
            rw [← removed, ← inductionHypothesis (round + 1)]
            cases Storage.reclaimEntries deps (Env.healthy now) (round + 1) _ rest <;> rfl

/-- The loop keeps its snapshot, and stages nothing when it removes nothing. -/
theorem reclaimEntries_staged (deps : Deps) (env : Env) (entries : List ReclaimEntry)
    (round : Nat) (txn final : Txn) (deleted : List Bytes)
    (ended : Storage.reclaimEntries deps env round txn entries = .ok (final, deleted)) :
    final.snapshot = txn.snapshot ∧ (deleted = [] → final = txn) := by
  induction entries generalizing round txn final deleted with
  | nil =>
    cases ended
    exact ⟨rfl, fun _ => rfl⟩
  | cons entry rest inductionHypothesis =>
    obtain ⟨_, ⟨_, skipped⟩ | ⟨item, restDeleted, _, _, _, isDeleted, restEnded⟩⟩ :=
      reclaimEntries_cons deps env ended
    · exact inductionHypothesis _ _ _ _ skipped
    · rw [isDeleted]
      exact ⟨(inductionHypothesis _ _ _ _ restEnded).1, fun none => nomatch none⟩

theorem view_reclaim (deps : Deps) (now : Int64) (store : Store) (request : ReclaimRequest) :
    view deps (Storage.reclaim deps (Env.healthy now) store request) =
      (store.records deps).reclaim request := by
  unfold Storage.reclaim Records.reclaim
  by_cases none : request.entries = []
  · rw [if_pos none, none]
    rfl
  · rw [if_neg none, ← newTransaction_records, ← reclaimEntries_view deps now _ 0]
    cases ended : Storage.reclaimEntries deps (Env.healthy now) 0 store.newTransaction
        request.entries with
    | error err => rfl
    | ok final =>
      obtain ⟨snapshot, unchanged⟩ :=
        reclaimEntries_staged deps _ _ _ _ final.1 final.2 ended
      by_cases nothing : final.2 = []
      · simp only [if_pos nothing, view, Except.map]
        rw [unchanged nothing, nothing]
        rfl
      · simp only [if_neg nothing, commit_healthy, view, Except.map]
        rw [commit_records deps store final.1 _ snapshot]

/-! ### Point reads -/

/-- What a read returns is the record under the entry key, unless it has expired. -/
theorem get_healthy_records (deps : Deps) (now : Int64) (store : Store) (key : Key) :
    ∃ reply, Storage.get deps (.healthy now) store { key := some key } = .ok reply ∧
      (reply = Storage.recordNotFound key ∧
          (∀ record, store.records deps (encodeKey deps key).1 = some record →
            deps.isExpired now record.expiresAt = true) ∨
        ∃ record, store.records deps (encodeKey deps key).1 = some record ∧
          deps.isExpired now record.expiresAt = false ∧ reply.head ≠ none ∧
          reply.value = record.value) := by
  unfold Storage.get Store.records
  simp only [get_healthy _ _ _ _ (encodeKey_ne_nil deps key), newTransaction_read]
  cases store.db.read (encodeKey deps key).1 with
  | none =>
    refine ⟨_, rfl, Or.inl ⟨rfl, fun record found => ?_⟩⟩
    cases found
  | some item =>
    simp only [fetchRecord_healthy, Option.map_some]
    refine ⟨_, rfl, ?_⟩
    cases expired : deps.isExpired now (deps.decodeEnvelope item.value).expiresAt with
    | true =>
      refine Or.inl ⟨if_pos rfl, fun record isRecord => ?_⟩
      rw [← Option.some.inj isRecord]
      exact expired
    | false => exact Or.inr ⟨_, rfl, expired, Option.some_ne_none _, rfl⟩

end ConsensusDB
