/-
This file says what an operation of the storage leaves, whichever engine calls
fail. It leaves the store as it is, or it has staged writes one after another in
a transaction, committed them and announced each. The operations differ in which
keys they write and in how they number a record; that is all that the files about
the versions of a node without raft and about the scope of a write need of them.

The last section is about the change events themselves, the ones `notify` hands to
the watch hub: a node that applies entries never announces a key the engine does
not accept.
-/

import ConsensusDB.Cells

namespace ConsensusDB

open Wire

/-! ### Versions that are read -/

theorem current_of_get (deps : Deps) (txn : Txn) (env : Env) (round : Nat) (context : String)
    (entryKey : Bytes) (current : Option UInt64)
    (got : Storage.currentVersion deps env round context txn entryKey = .ok current) :
    current = (txn.records deps entryKey).map StoredRecord.version := by
  unfold Storage.currentVersion at got
  split at got
  · cases got
  · rename_i absent
    cases got
    rw [Txn.records, ← read_of_get txn env round entryKey none absent]
    rfl
  · rename_i item found
    split at got
    · cases got
    · rename_i data copied
      cases got
      rw [Txn.records, ← read_of_get txn env round entryKey _ found,
        value_of_copy item env round context data copied]
      rfl

/-! ### Failing calls -/

/-- A read fails, or returns what it returns when no engine call fails. -/
theorem get_of_fault (deps : Deps) (env : Env) (store : Store) (request : KeyRequest) :
    (∃ err, Storage.get deps env store request = .error err) ∨
      Storage.get deps env store request =
        Storage.get deps (.healthy env.now) store request := by
  unfold Storage.get
  cases request.key with
  | none => exact Or.inr rfl
  | some key =>
    simp only [get_healthy _ _ _ _ (encodeKey_ne_nil deps key)]
    cases got : store.newTransaction.get env 0 (encodeKey deps key).1 with
    | error err => exact Or.inl ⟨err, rfl⟩
    | ok found =>
      rw [← read_of_get _ env 0 _ found got]
      cases found with
      | none => exact Or.inr rfl
      | some item =>
        simp only [fetchRecord_healthy]
        unfold Storage.fetchRecord
        cases copied : wrapError "fetch value failed" (item.valueCopy env 0) with
        | error err => exact Or.inl ⟨err, rfl⟩
        | ok data =>
          right
          rw [value_of_copy item env 0 _ data copied]
          exact (apply_ite Except.ok _ _ _).symm

/-- Setting one entry and committing it fails and leaves the store, or does what it does when no
engine call fails. -/
theorem commit_set_of_fault {Result : Type} (env : Env) (store : Store) (entryKey : Bytes)
    (item : Item) (context commitContext : String) (events : List WatchEvent) (result : Result) :
    (store.commit env (wrapError context (store.newTransaction.setEntry env 0 entryKey item))
          commitContext events result).2 = store ∧
        (∃ err, (store.commit env (wrapError context (store.newTransaction.setEntry env 0 entryKey
          item)) commitContext events result).1 = .error err) ∨
      store.commit env (wrapError context (store.newTransaction.setEntry env 0 entryKey item))
          commitContext events result =
        store.commit (.healthy env.now) (wrapError context (store.newTransaction.setEntry
          (.healthy env.now) 0 entryKey item)) commitContext events result := by
  unfold Store.commit Txn.setEntry
  cases env.fault (.set 0) with
  | some err => exact Or.inl ⟨rfl, _, rfl⟩
  | none =>
    cases refuseKey entryKey with
    | some err => exact Or.inl ⟨rfl, _, rfl⟩
    | none =>
      cases env.fault .commit with
      | some err => exact Or.inl ⟨rfl, _, rfl⟩
      | none => exact Or.inr rfl

/-- A put leaves the store and does not say that it has written, or it does what it does when no
engine call fails. -/
theorem put_cases (deps : Deps) (env : Env) (store : Store) (request : RecordRequest)
    (commitVersion : UInt64) :
    (Storage.put deps env store request commitVersion).2 = store ∧
        (Storage.put deps env store request commitVersion).1 ≠ .ok ⟨true⟩ ∨
      Storage.put deps env store request commitVersion =
        Storage.put deps (.healthy env.now) store request commitVersion := by
  unfold Storage.put
  cases request.key with
  | none => exact Or.inl ⟨rfl, nofun⟩
  | some key =>
    simp only [currentVersion_healthy]
    cases got : Storage.currentVersion deps env 0 "read current value error" store.newTransaction
        (encodeKey deps key).1 with
    | error err => exact Or.inl ⟨rfl, nofun⟩
    | ok current =>
      obtain rfl : current =
          (store.records deps (encodeKey deps key).1).map StoredRecord.version :=
        current_of_get deps _ env 0 _ _ current got
      simp only
      split
      · exact Or.inl ⟨rfl, nofun⟩
      · refine (commit_set_of_fault env store _ _ _ _ _ _).imp_left ?_
        rintro ⟨same, err, failed⟩
        refine ⟨same, ?_⟩
        rw [failed]
        exact nofun

theorem put_of_fault (deps : Deps) (env : Env) (store : Store) (request : RecordRequest)
    (commitVersion : UInt64) :
    (Storage.put deps env store request commitVersion).2 = store ∨
      Storage.put deps env store request commitVersion =
        Storage.put deps (.healthy env.now) store request commitVersion :=
  (put_cases deps env store request commitVersion).imp_left And.left

/-- A put whose key the engine accepts and whose condition is met is carried out when no engine call
fails. -/
theorem put_accepted (deps : Deps) (lawful : deps.Lawful) (now : Int64) (store : Store)
    (request : RecordRequest) (key : Key) (named : request.key = some key) (commitVersion : UInt64)
    (accepted : refuseKey (encodeKey deps key).1 = none)
    (met : casRefuses request
      ((store.records deps (encodeKey deps key).1).map StoredRecord.version) = false) :
    (Storage.put deps (.healthy now) store request commitVersion).1 = .ok ⟨true⟩ ∧
      (Storage.put deps (.healthy now) store request commitVersion).2.records deps =
        Function.update (store.records deps) (encodeKey deps key).1
          (some (Records.putRecord deps now request
            (nextVersion commitVersion
              ((store.records deps).versionAt (encodeKey deps key).1)))) := by
  have stored := view_put deps lawful now store request commitVersion
  unfold Records.put Records.write at stored
  simp only [named] at stored
  rw [met, accepted, if_neg Bool.false_ne_true] at stored
  exact ⟨congrArg Prod.fst stored, congrArg Prod.snd stored⟩

/-- A put leaves the store, or it says that it has written, and then the condition was met and the
record is stored. -/
theorem put_updates (deps : Deps) (lawful : deps.Lawful) (env : Env) (store : Store)
    (request : RecordRequest) (key : Key) (named : request.key = some key)
    (commitVersion : UInt64) :
    (Storage.put deps env store request commitVersion).2 = store ∧
        (Storage.put deps env store request commitVersion).1 ≠ .ok ⟨true⟩ ∨
      (Storage.put deps env store request commitVersion).1 = .ok ⟨true⟩ ∧
        refuseKey (encodeKey deps key).1 = none ∧
        casRefuses request ((store.records deps (encodeKey deps key).1).map StoredRecord.version) =
          false ∧
        (Storage.put deps env store request commitVersion).2.records deps =
          Function.update (store.records deps) (encodeKey deps key).1
            (some (Records.putRecord deps env.now request
              (nextVersion commitVersion
                ((store.records deps).versionAt (encodeKey deps key).1)))) := by
  rcases put_cases deps env store request commitVersion with failed | healthy
  · exact Or.inl failed
  rw [healthy]
  cases refused : casRefuses request
      ((store.records deps (encodeKey deps key).1).map StoredRecord.version) with
  | true =>
    left
    unfold Storage.put
    simp only [named, currentVersion_healthy, refused, if_true]
    exact ⟨trivial, nofun⟩
  | false =>
    cases accepted : refuseKey (encodeKey deps key).1 with
    | some err =>
      left
      unfold Storage.put
      simp only [named, currentVersion_healthy, refused, setEntry_refused _ _ _ _ _ _ accepted]
      exact ⟨rfl, nofun⟩
    | none =>
      obtain ⟨updated, stored⟩ := put_accepted deps lawful env.now store request key named
        commitVersion accepted refused
      exact Or.inr ⟨updated, rfl, rfl, stored⟩

/-! ### Staged writes -/

/-- A transaction goes to another by staging writes under entry keys the engine accepts, all of one
type, with the events that announce them. A record is numbered from the version stored before it,
where the operation counts. -/
inductive Staged (deps : Deps) (commitVersion : UInt64) (counts : Prop) :
    WatchEventType → Txn → List Bytes → Txn → List WatchEvent → Prop
  | done (type : WatchEventType) (txn : Txn) : Staged deps commitVersion counts type txn [] txn []
  | set {txn final : Txn} {entryKeys : List Bytes} {events : List WatchEvent}
      (entryKey value : Bytes) (version : UInt64) (expiresAt : Int64) (userMeta : UInt8)
      (accepted : refuseKey entryKey = none)
      (counted : counts →
        version = nextVersion commitVersion (cellVersion (txn.records deps entryKey)))
      (rest : Staged deps commitVersion counts .set
        { txn with
          writes := (entryKey, some ⟨deps.encodeEnvelope version.toInt64 expiresAt value,
            userMeta⟩) :: txn.writes } entryKeys final events) :
      Staged deps commitVersion counts .set txn (entryKey :: entryKeys) final
        (⟨entryKey, value, .set, version.toInt64⟩ :: events)
  | delete {txn final : Txn} {entryKeys : List Bytes} {events : List WatchEvent}
      (entryKey : Bytes) (accepted : refuseKey entryKey = none)
      (rest : Staged deps commitVersion counts .delete
        { txn with writes := (entryKey, none) :: txn.writes } entryKeys final events) :
      Staged deps commitVersion counts .delete txn (entryKey :: entryKeys) final
        (⟨entryKey, [], .delete, 0⟩ :: events)

/-- The store is as it was, or staged writes have been committed and announced. -/
def Performed (deps : Deps) (commitVersion : UInt64) (counts : Prop) (type : WatchEventType)
    (entryKeys : List Bytes) (before after : Store) : Prop :=
  after = before ∨ ∃ txn events,
    Staged deps commitVersion counts type before.newTransaction entryKeys txn events ∧
      after = ⟨before.db.commit txn.writes, before.events ++ events⟩

section

variable {deps : Deps} {commitVersion : UInt64} {counts : Prop} {type : WatchEventType}
  {txn final : Txn} {entryKeys : List Bytes} {events : List WatchEvent}

theorem Staged.snapshot
    (staged : Staged deps commitVersion counts type txn entryKeys final events) :
    final.snapshot = txn.snapshot := by
  induction staged with
  | done type txn => rfl
  | set entryKey value version expiresAt userMeta accepted counted rest inductionHypothesis =>
    exact inductionHypothesis
  | delete entryKey accepted rest inductionHypothesis => exact inductionHypothesis

/-- What is announced is announced under an accepted key. -/
theorem Staged.accepted_of_event
    (staged : Staged deps commitVersion counts type txn entryKeys final events) :
    ∀ event ∈ events, refuseKey event.key = none := by
  induction staged with
  | done type txn => exact fun _ member => nomatch member
  | set entryKey value version expiresAt userMeta accepted counted rest inductionHypothesis =>
    intro event member
    rcases List.mem_cons.mp member with rfl | later
    · exact accepted
    · exact inductionHypothesis event later
  | delete entryKey accepted rest inductionHypothesis =>
    intro event member
    rcases List.mem_cons.mp member with rfl | later
    · exact accepted
    · exact inductionHypothesis event later

/-- What is staged is announced, key by key. -/
theorem Staged.keys_of_events
    (staged : Staged deps commitVersion counts type txn entryKeys final events) :
    events.map WatchEvent.key = entryKeys := by
  induction staged with
  | done type txn => rfl
  | set entryKey value version expiresAt userMeta accepted counted rest inductionHypothesis =>
    rw [List.map_cons, inductionHypothesis]
  | delete entryKey accepted rest inductionHypothesis => rw [List.map_cons, inductionHypothesis]

theorem mem_of_changed_cons {written entryKey : Bytes} {item : Option Item}
    (accepted : refuseKey written = none)
    (later : final.read entryKey ≠
        Txn.read { txn with writes := (written, item) :: txn.writes } entryKey →
      refuseKey entryKey = none ∧ entryKey ∈ entryKeys)
    (changed : final.read entryKey ≠ txn.read entryKey) :
    refuseKey entryKey = none ∧ entryKey ∈ written :: entryKeys := by
  by_cases same : entryKey = written
  · rw [same]
    exact ⟨accepted, List.mem_cons_self⟩
  · have unwritten : Txn.read { txn with writes := (written, item) :: txn.writes } entryKey =
        txn.read entryKey := by
      rw [Txn.read, Mvcc.overlay_cons, Function.update_of_ne same]
      rfl
    obtain ⟨isAccepted, member⟩ := later (unwritten ▸ changed)
    exact ⟨isAccepted, List.mem_cons_of_mem _ member⟩

/-- An item changes only under one of the entry keys. -/
theorem Staged.mem_of_changed
    (staged : Staged deps commitVersion counts type txn entryKeys final events) (entryKey : Bytes)
    (changed : final.read entryKey ≠ txn.read entryKey) :
    refuseKey entryKey = none ∧ entryKey ∈ entryKeys := by
  induction staged with
  | done type txn => exact absurd rfl changed
  | set written value version expiresAt userMeta accepted counted rest inductionHypothesis =>
    exact mem_of_changed_cons accepted inductionHypothesis changed
  | delete written accepted rest inductionHypothesis =>
    exact mem_of_changed_cons accepted inductionHypothesis changed

/-- An operation changes what the engine holds only under one of its entry keys, and only under a
key that the engine accepts. -/
theorem mem_of_performed {before after : Store}
    (performed : Performed deps commitVersion counts type entryKeys before after)
    (entryKey : Bytes) (changed : after.db.read entryKey ≠ before.db.read entryKey) :
    refuseKey entryKey = none ∧ entryKey ∈ entryKeys := by
  rcases performed with rfl | ⟨txn, events, staged, rfl⟩
  · exact absurd rfl changed
  · refine staged.mem_of_changed entryKey fun same => changed ?_
    rw [Mvcc.read_commit, ← newTransaction_read, ← same]
    show Mvcc.overlay before.db.read txn.writes entryKey = _
    rw [Txn.read, staged.snapshot]
    rfl

/-- What stages deletions leaves an item or takes it away. -/
theorem Staged.kept_or_removed
    (staged : Staged deps commitVersion counts type txn entryKeys final events)
    (deletes : type = .delete) (entryKey : Bytes) :
    final.read entryKey = txn.read entryKey ∨ final.read entryKey = none := by
  induction staged with
  | done type txn => exact Or.inl rfl
  | set written value version expiresAt userMeta accepted counted rest inductionHypothesis =>
    cases deletes
  | @delete txn final entryKeys events written accepted rest inductionHypothesis =>
    rcases inductionHypothesis deletes with kept | removed
    · rw [kept, Txn.read, Mvcc.overlay_cons]
      by_cases same : entryKey = written
      · rw [same, Function.update_self]
        exact Or.inr rfl
      · rw [Function.update_of_ne same]
        exact Or.inl rfl
    · exact Or.inr removed

theorem kept_or_removed_of_performed {before after : Store}
    (performed : Performed deps commitVersion counts .delete entryKeys before after)
    (entryKey : Bytes) :
    after.db.read entryKey = before.db.read entryKey ∨ after.db.read entryKey = none := by
  rcases performed with rfl | ⟨txn, events, staged, rfl⟩
  · exact Or.inl rfl
  · have committed : (before.db.commit txn.writes).read entryKey = txn.read entryKey := by
      rw [Mvcc.read_commit, Txn.read, staged.snapshot]
      rfl
    rw [committed]
    exact staged.kept_or_removed rfl entryKey

/-- Whatever an operation changes it announces. -/
theorem announced_of_performed {before after : Store}
    (performed : Performed deps commitVersion counts type entryKeys before after)
    (entryKey : Bytes) (changed : after.db.read entryKey ≠ before.db.read entryKey) :
    ∃ event ∈ after.events.drop before.events.length, event.key = entryKey := by
  have member := (mem_of_performed performed entryKey changed).2
  rcases performed with rfl | ⟨txn, events, staged, rfl⟩
  · exact absurd rfl changed
  · rw [List.drop_left]
    rw [← staged.keys_of_events] at member
    exact List.mem_map.mp member

end

/-! ### Operations -/

section

variable (deps : Deps) (env : Env) (store : Store) (commitVersion : UInt64)

theorem performed_commit {Result : Type} {counts : Prop} {type : WatchEventType}
    {entryKeys : List Bytes} (staged : Except Err Txn) (context : String)
    (events : List WatchEvent) (result : Result)
    (isStaged : ∀ txn, staged = .ok txn →
      Staged deps commitVersion counts type store.newTransaction entryKeys txn events) :
    Performed deps commitVersion counts type entryKeys store
      (store.commit env staged context events result).2 := by
  unfold Store.commit
  split
  · exact Or.inl rfl
  · exact Or.inl rfl
  · exact Or.inr ⟨_, events, isStaged _ rfl, rfl⟩

/-- Committing one record. -/
theorem performed_set {Result : Type} {counts : Prop} (entryKey value : Bytes) (version : UInt64)
    (expiresAt : Int64) (userMeta : UInt8) (context commitContext : String) (result : Result)
    (counted : counts →
      version = nextVersion commitVersion (cellVersion (store.records deps entryKey))) :
    Performed deps commitVersion counts .set [entryKey] store
      (store.commit env (wrapError context (store.newTransaction.setEntry env 0 entryKey
          ⟨deps.encodeEnvelope version.toInt64 expiresAt value, userMeta⟩))
        commitContext [⟨entryKey, value, .set, version.toInt64⟩] result).2 := by
  refine performed_commit deps env store commitVersion _ _ _ _ fun txn written => ?_
  obtain ⟨accepted, rfl⟩ := staged_of_setEntry _ txn env 0 entryKey _ context written
  exact .set entryKey value version expiresAt userMeta accepted counted (.done .set _)

theorem put_performed (request : RecordRequest) :
    Performed deps commitVersion True .set
      (request.key.toList.map fun key => (encodeKey deps key).1) store
      (Storage.put deps env store request commitVersion).2 := by
  unfold Storage.put
  split
  · exact Or.inl rfl
  · rename_i key named
    simp only
    split
    · exact Or.inl rfl
    · rename_i current got
      split
      · exact Or.inl rfl
      · rw [named]
        refine performed_set deps env store commitVersion _ _ _ _ _ _ _ _ fun _ => ?_
        rw [current_of_get deps _ env 0 _ _ current got]
        rfl

theorem touch_performed (request : RecordRequest) :
    Performed deps commitVersion True .set
      (request.key.toList.map fun key => (encodeKey deps key).1) store
      (Storage.touch deps env store request commitVersion).2 := by
  unfold Storage.touch
  split
  · exact Or.inl rfl
  · rename_i key named
    simp only
    split
    · exact Or.inl rfl
    · exact Or.inl rfl
    · rename_i item found
      split
      · exact Or.inl rfl
      · rename_i data copied
        rw [named]
        refine performed_set deps env store commitVersion _ _ _ _ _ _ _ _ fun _ => ?_
        have read := read_of_get _ env 0 _ _ found
        rw [value_of_copy item env 0 _ data copied, Store.records, ← newTransaction_read, ← read]
        rfl

theorem increment_performed (request : IncrementRequest) :
    Performed deps commitVersion True .set
      (request.key.toList.map fun key => (encodeKey deps key).1) store
      (Storage.increment deps env store request commitVersion).2 := by
  unfold Storage.increment
  split
  · exact Or.inl rfl
  · rename_i key named
    simp only
    split
    · exact Or.inl rfl
    · rename_i oldVersion previous current
      rw [named]
      refine performed_set deps env store commitVersion _ _ _ _ _ _ _ _ fun _ => ?_
      rw [Store.records, ← newTransaction_read]
      split at current
      · cases current
      · rename_i absent
        cases current
        rw [← read_of_get _ env 0 _ _ absent]
        rfl
      · rename_i item found
        split at current
        · cases current
        · rename_i data copied
          have stored := value_of_copy item env 0 _ data copied
          rw [← read_of_get _ env 0 _ _ found]
          cases current
          rw [stored]
          rfl

theorem remove_performed (request : KeyRequest) :
    Performed deps commitVersion True .delete
      (request.key.toList.map fun key => (encodeKey deps key).1) store
      (Storage.remove deps env store request).2 := by
  unfold Storage.remove
  split
  · exact Or.inl rfl
  · rename_i key named
    rw [named]
    refine performed_commit deps env store commitVersion _ _ _ _ fun txn written => ?_
    obtain ⟨accepted, rfl⟩ := staged_of_delete _ txn env 0 _ _ written
    exact .delete _ accepted (.done .delete _)

/-- A batch that can copy a stored value numbers the record from it. -/
theorem batchVersion_counts (legible : ∀ round, env.fault (.copy round) = none) (round : Nat)
    (txn : Txn) (entryKey : Bytes) (version : UInt64)
    (got : Storage.batchVersion deps env round txn entryKey commitVersion = .ok version) :
    version = nextVersion commitVersion (cellVersion (txn.records deps entryKey)) := by
  unfold Storage.batchVersion at got
  by_cases zero : commitVersion = 0
  · rw [if_neg (not_not_intro zero)] at got
    rw [nextVersion, if_pos zero, Txn.records]
    split at got
    · cases got
    · rename_i absent
      rw [← read_of_get txn env round _ _ absent]
      exact (Except.ok.inj got).symm
    · rename_i item found
      rw [Item.valueCopy, legible] at got
      rw [← read_of_get txn env round _ _ found]
      exact (Except.ok.inj got).symm
  · rw [if_pos zero] at got
    rw [nextVersion, if_neg zero]
    exact (Except.ok.inj got).symm

theorem staged_of_batchRecords (requests : List RecordRequest) (round : Nat) (txn : Txn)
    (outcome : Txn × List WatchEvent)
    (staged : Storage.batchRecords deps env commitVersion round txn requests = .ok outcome) :
    Staged deps commitVersion (∀ round, env.fault (.copy round) = none) .set txn
      ((requests.filterMap RecordRequest.key).map fun key => (encodeKey deps key).1) outcome.1
      outcome.2 := by
  induction requests generalizing round txn outcome with
  | nil =>
    cases staged
    exact .done .set txn
  | cons record rest inductionHypothesis =>
    obtain ⟨key, version, pending, named, got, accepted, _, isPending, restStaged⟩ :=
      batchRecords_cons deps env commitVersion staged
    rw [List.filterMap_cons_some named, isPending]
    exact .set _ record.value version _ _ accepted
      (fun legible => batchVersion_counts deps env commitVersion legible round txn _ _ got)
      (inductionHypothesis _ _ _ restStaged)

theorem setBatch_performed (request : BatchRequest) :
    Performed deps commitVersion (∀ round, env.fault (.copy round) = none) .set
      ((request.records.filterMap RecordRequest.key).map fun key => (encodeKey deps key).1) store
      (Storage.setBatch deps env store request commitVersion).2 := by
  unfold Storage.setBatch
  split
  · exact Or.inl rfl
  · rename_i staged
    refine performed_commit deps env store commitVersion _ _ _ _ fun txn isStaged => ?_
    cases isStaged
    exact staged_of_batchRecords deps env commitVersion _ 0 _ _ staged

theorem staged_of_reclaimEntries (entries : List ReclaimEntry) (round : Nat) (txn : Txn)
    (outcome : Txn × List Bytes)
    (staged : Storage.reclaimEntries deps env round txn entries = .ok outcome) :
    Staged deps commitVersion True .delete txn outcome.2 outcome.1
      (outcome.2.map fun key => ⟨key, [], .delete, 0⟩) := by
  induction entries generalizing round txn outcome with
  | nil =>
    cases staged
    exact .done .delete txn
  | cons entry rest inductionHypothesis =>
    obtain ⟨_, ⟨_, skipped⟩ | ⟨item, restDeleted, _, _, accepted, isDeleted, restStaged⟩⟩ :=
      reclaimEntries_cons deps env staged
    · exact inductionHypothesis _ _ _ skipped
    · rw [isDeleted]
      exact .delete _ accepted (inductionHypothesis _ _ _ restStaged)

theorem reclaim_performed (request : ReclaimRequest) :
    ∃ entryKeys, Performed deps commitVersion True .delete entryKeys store
      (Storage.reclaim deps env store request).2 := by
  unfold Storage.reclaim
  split
  · exact ⟨[], Or.inl rfl⟩
  · split
    · exact ⟨[], Or.inl rfl⟩
    · rename_i _ deleted staged
      split
      · exact ⟨[], Or.inl rfl⟩
      · refine ⟨deleted, performed_commit deps env store commitVersion _ _ _ _
          fun txn isStaged => ?_⟩
        cases isStaged
        exact staged_of_reclaimEntries deps env commitVersion _ 0 _ _ staged

/-- What a command leaves. -/
theorem runCommand_performed (command : Command) :
    ∃ counts type entryKeys, Performed deps commitVersion counts type entryKeys store
      (runCommand deps env store commitVersion command).2 := by
  cases command with
  | put request => exact ⟨_, _, _, put_performed deps env store commitVersion request⟩
  | touch request => exact ⟨_, _, _, touch_performed deps env store commitVersion request⟩
  | remove request => exact ⟨_, _, _, remove_performed deps env store commitVersion request⟩
  | increment request => exact ⟨_, _, _, increment_performed deps env store commitVersion request⟩
  | batch request => exact ⟨_, _, _, setBatch_performed deps env store commitVersion request⟩
  | reclaim request =>
    obtain ⟨entryKeys, performed⟩ := reclaim_performed deps env store commitVersion request
    exact ⟨_, _, entryKeys, performed⟩

end

/-! ### Announced keys -/

/-- Every event was announced under a key the engine accepts. -/
def Store.Notified (store : Store) : Prop := ∀ event ∈ store.events, refuseKey event.key = none

theorem notified_of_performed {deps : Deps} {commitVersion : UInt64} {counts : Prop}
    {type : WatchEventType} {entryKeys : List Bytes} {before after : Store}
    (notified : before.Notified)
    (performed : Performed deps commitVersion counts type entryKeys before after) :
    after.Notified := by
  rcases performed with rfl | ⟨txn, events, staged, rfl⟩
  · exact notified
  · intro event member
    rcases List.mem_append.mp member with earlier | sent
    · exact notified event earlier
    · exact staged.accepted_of_event event sent

/-- No command makes the store announce a key the engine does not accept. -/
theorem notified_runCommand (deps : Deps) (env : Env) (store : Store) (notified : store.Notified)
    (index : UInt64) (command : Command) :
    (runCommand deps env store index command).2.Notified := by
  obtain ⟨_, _, _, performed⟩ := runCommand_performed deps env store index command
  exact notified_of_performed notified performed

theorem notified_apply (deps : Deps) (env : Env) (fsm : Fsm) (notified : fsm.store.Notified)
    (entry : Entry) : (fsm.apply deps env entry).2.store.Notified := by
  have advanced : (fsm.advanceChain deps env entry).store.Notified := by
    show (storeHead deps env fsm.store _ _ _).Notified
    unfold storeHead
    split
    · exact notified
    · exact notified_of_performed notified (put_performed deps env fsm.store _ _)
  show (runEntry deps env _ entry).2.Notified
  unfold runEntry
  split
  · exact advanced
  · exact notified_runCommand deps env _ advanced entry.index _

/-- In every run the events announced are under keys the engine accepts. -/
theorem notified_run (deps : Deps) (deliveries : List (Int64 × Entry)) (fsm : Fsm)
    (notified : fsm.store.Notified) : (fsm.run deps deliveries).store.Notified := by
  induction deliveries generalizing fsm with
  | nil => exact notified
  | cons delivery rest inductionHypothesis =>
    exact inductionHypothesis _ (notified_apply deps _ fsm notified delivery.2)

end ConsensusDB
