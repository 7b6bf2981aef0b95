/-
This file says that a write is all or nothing. An operation that answers with an
error, that reports nothing updated or that reclaims no entry has stored nothing
and announced nothing, wherever in its loop or in its engine calls it stopped: an
operation stages its writes in a transaction, and the only step that touches the
store is the commit.

A batch is the puts of its records one after another. The transaction sees its own
pending writes, so the version that a batch gives a record is the one that a put
gives it after the puts before it, for records that repeat a key as well.
-/

import ConsensusDB.Aliasing

namespace ConsensusDB

open Wire

/-! ### Writes that are refused or fail -/

/-- The answer to a command says that nothing was done: an error, a status that is not updated, or
a sweep that removed no entry. -/
def Command.Refused (command : Command) (result : FsmResult) : Prop :=
  result.err ≠ none ∨ result.status = some ⟨false⟩ ∨ (command.IsSweep ∧ result.reclaimed = 0)

/-- A commit fails and leaves the store, or it answers with its result. -/
theorem commit_answers {Result : Type} (store : Store) (env : Env) (staged : Except Err Txn)
    (context : String) (events : List WatchEvent) (result : Result) :
    (store.commit env staged context events result).2 = store ∨
      (store.commit env staged context events result).1 = .ok result := by
  unfold Store.commit
  split
  · exact Or.inl rfl
  · exact Or.inl rfl
  · exact Or.inr rfl

section

variable (deps : Deps) (env : Env) (store : Store) (commitVersion : UInt64)

theorem put_answers (request : RecordRequest) :
    (Storage.put deps env store request commitVersion).2 = store ∨
      (Storage.put deps env store request commitVersion).1 = .ok ⟨true⟩ := by
  unfold Storage.put
  split
  · exact Or.inl rfl
  · simp only
    split
    · exact Or.inl rfl
    · split
      · exact Or.inl rfl
      · exact commit_answers store env _ _ _ _

theorem touch_answers (request : RecordRequest) :
    (Storage.touch deps env store request commitVersion).2 = store ∨
      (Storage.touch deps env store request commitVersion).1 = .ok ⟨true⟩ := by
  unfold Storage.touch
  split
  · exact Or.inl rfl
  · simp only
    split
    · exact Or.inl rfl
    · exact Or.inl rfl
    · split
      · exact Or.inl rfl
      · exact commit_answers store env _ _ _ _

theorem remove_answers (request : KeyRequest) :
    (Storage.remove deps env store request).2 = store ∨
      (Storage.remove deps env store request).1 = .ok ⟨true⟩ := by
  unfold Storage.remove
  split
  · exact Or.inl rfl
  · exact commit_answers store env _ _ _ _

theorem increment_answers (request : IncrementRequest) :
    (Storage.increment deps env store request commitVersion).2 = store ∨
      ∃ response, (Storage.increment deps env store request commitVersion).1 = .ok response := by
  unfold Storage.increment
  split
  · exact Or.inl rfl
  · simp only
    split
    · exact Or.inl rfl
    · exact (commit_answers store env _ _ _ _).imp_right fun answered => ⟨_, answered⟩

theorem setBatch_answers (request : BatchRequest) :
    (Storage.setBatch deps env store request commitVersion).2 = store ∨
      (Storage.setBatch deps env store request commitVersion).1 = .ok ⟨true⟩ := by
  unfold Storage.setBatch
  split
  · exact Or.inl rfl
  · exact commit_answers store env _ _ _ _

/-- A sweep that removes nothing does not commit. -/
theorem reclaim_answers (request : ReclaimRequest) :
    (Storage.reclaim deps env store request).2 = store ∨
      ∃ removed, (Storage.reclaim deps env store request).1 = .ok removed ∧ removed ≠ 0 := by
  unfold Storage.reclaim
  split
  · exact Or.inl rfl
  · split
    · exact Or.inl rfl
    · split
      · exact Or.inl rfl
      · rename_i deletes
        refine (commit_answers store env _ _ _ _).imp_right fun answered => ⟨_, answered, ?_⟩
        exact fun zero => deletes (List.length_eq_zero_iff.mp zero)

/-- An operation that answers with a status leaves the store when the answer says that nothing was
done. -/
theorem same_of_status (command : Command) (named : ¬ command.IsSweep)
    (outcome : Except Err Status × Store)
    (answers : outcome.2 = store ∨ outcome.1 = .ok ⟨true⟩)
    (refused : command.Refused (FsmResult.ofStatus outcome.1)) : outcome.2 = store := by
  rcases answers with same | updated
  · exact same
  · rw [updated] at refused
    rcases refused with failed | silent | ⟨sweeps, _⟩
    · exact absurd rfl failed
    · cases silent
    · exact absurd sweeps named

/-- A write that is refused or fails changes nothing: whichever engine calls fail, every stored
record is the same after it and no event is announced. -/
theorem refused_write_silent (command : Command)
    (refused : command.Refused (runCommand deps env store commitVersion command).1) :
    (runCommand deps env store commitVersion command).2 = store := by
  cases command with
  | put request =>
    exact same_of_status store _ id _ (put_answers deps env store commitVersion request) refused
  | touch request =>
    exact same_of_status store _ id _ (touch_answers deps env store commitVersion request) refused
  | remove request =>
    exact same_of_status store _ id _ (remove_answers deps env store request) refused
  | batch request =>
    exact same_of_status store _ id _ (setBatch_answers deps env store commitVersion request)
      refused
  | increment request =>
    rcases increment_answers deps env store commitVersion request with same | ⟨response, answered⟩
    · exact same
    · simp only [runCommand, Prod.map, answered] at refused
      rcases refused with failed | silent | ⟨sweeps, _⟩
      · exact absurd rfl failed
      · cases silent
      · exact sweeps.elim
  | reclaim request =>
    rcases reclaim_answers deps env store request with same | ⟨removed, answered, some⟩
    · exact same
    · simp only [runCommand, Prod.map, answered] at refused
      rcases refused with failed | silent | ⟨_, none⟩
      · exact absurd rfl failed
      · cases silent
      · exact absurd none some

end

/-- An environment in which the engine refuses the second record of a batch. -/
def secondSetFails : Env where
  now := 0
  fault
    | .set 1 => some (.external "Txn is too big to fit into one request")
    | _ => none

/-- A batch whose second record is refused has announced nothing of the first. -/
theorem refused_write_silent_sample :
    (runCommand Reference.deps secondSetFails Store.empty 1
      (.batch { records := [{ key := some Reference.sampleKey, value := str "1" },
        { key := some Reference.sampleKey, value := str "2" }] })).2 = Store.empty :=
  refused_write_silent Reference.deps secondSetFails Store.empty 1 _ (Or.inl (by decide +kernel))

/-! ### Batches -/

/-- The store after puts of the records one after another, at one clock and with one commit
version, when no engine call fails. -/
def Store.putEach (deps : Deps) (now : Int64) (commitVersion : UInt64) (store : Store)
    (records : List RecordRequest) : Store :=
  records.foldl (fun store record => (Storage.put deps (.healthy now) store record commitVersion).2)
    store

/-- Some record of a batch cannot be staged: it has no key, or the engine refuses to set it. -/
def Unstageable (deps : Deps) (env : Env) (records : List RecordRequest) : Prop :=
  ∃ round record, records[round]? = some record ∧
    (record.key = none ∨ env.fault (.set round) ≠ none ∨
      ∃ key, record.key = some key ∧ refuseKey (encodeKey deps key).1 ≠ none)

section

variable (deps : Deps) (env : Env) (commitVersion : UInt64)

/-- A put without a condition whose key the engine accepts stores its item and announces it. -/
theorem put_plain (now : Int64) (store : Store) (record : RecordRequest) (key : Key)
    (named : record.key = some key) (unconditional : record.compareAndSet = false)
    (accepted : refuseKey (encodeKey deps key).1 = none) :
    (Storage.put deps (.healthy now) store record commitVersion).2 =
      ⟨store.db.commit [((encodeKey deps key).1, some (Storage.putItem deps (.healthy now) record
          (nextVersion commitVersion ((store.records deps).versionAt (encodeKey deps key).1))))],
        store.events ++ [⟨(encodeKey deps key).1, record.value, .set,
          (nextVersion commitVersion
            ((store.records deps).versionAt (encodeKey deps key).1)).toInt64⟩]⟩ := by
  unfold Storage.put
  simp only [named, currentVersion_healthy]
  rw [casRefuses, unconditional, Bool.false_and, if_neg Bool.false_ne_true,
    setEntry_healthy _ _ _ _ _ accepted, wrapError_ok, commit_healthy]
  rfl

/-- The loop of a batch and puts from a store that shows what the transaction sees stay together:
the store after the puts shows what the transaction sees at the end, and has announced what the
batch is about to announce. -/
theorem putEach_of_batchRecords (legible : ∀ round, env.fault (.copy round) = none)
    (records : List RecordRequest)
    (unconditional : ∀ record ∈ records, record.compareAndSet = false)
    (round : Nat) (txn final : Txn) (pending : List WatchEvent)
    (staged : Storage.batchRecords deps env commitVersion round txn records = .ok (final, pending))
    (store : Store) (shows : store.db.read = txn.read) :
    (store.putEach deps env.now commitVersion records).db.read = final.read ∧
      (store.putEach deps env.now commitVersion records).events = store.events ++ pending := by
  induction records generalizing round txn pending store with
  | nil =>
    cases staged
    exact ⟨shows, (List.append_nil _).symm⟩
  | cons record rest inductionHypothesis =>
    obtain ⟨key, version, later, named, numbered, accepted, _, rfl, restStaged⟩ :=
      batchRecords_cons deps env commitVersion staged
    have sameRecords : store.records deps = txn.records deps := by
      funext entryKey
      rw [Store.records, shows, Txn.records]
    have sameVersion : nextVersion commitVersion
        ((store.records deps).versionAt (encodeKey deps key).1) = version := by
      rw [sameRecords]
      exact (batchVersion_counts deps env commitVersion legible round txn _ version
        numbered).symm
    have put := put_plain deps commitVersion env.now store record key named
      (unconditional record List.mem_cons_self) accepted
    rw [sameVersion] at put
    obtain ⟨read, events⟩ := inductionHypothesis
      (fun other member => unconditional other (List.mem_cons_of_mem _ member)) _ _ _
      restStaged (Storage.put deps (.healthy env.now) store record commitVersion).2 (by
        rw [put]
        funext entryKey
        rw [Mvcc.read_commit, Mvcc.overlay_cons, Txn.read, Mvcc.overlay_cons, shows]
        rfl)
    refine ⟨read, events.trans ?_⟩
    rw [put, List.append_assoc]
    rfl

/-- Every record of a batch that was staged has a key, and the engine has set it. -/
theorem stageable_of_batchRecords (records : List RecordRequest) (round : Nat) (txn : Txn)
    (outcome : Txn × List WatchEvent)
    (staged : Storage.batchRecords deps env commitVersion round txn records = .ok outcome)
    (ahead : Nat) (record : RecordRequest) (found : records[ahead]? = some record) :
    env.fault (.set (round + ahead)) = none ∧
      ∃ key, record.key = some key ∧ refuseKey (encodeKey deps key).1 = none := by
  induction records generalizing round txn outcome ahead with
  | nil => cases found
  | cons first rest inductionHypothesis =>
    obtain ⟨key, version, pending, named, _, accepted, fine, _, restStaged⟩ :=
      batchRecords_cons deps env commitVersion staged
    cases ahead with
    | zero =>
      obtain rfl := Option.some.inj found
      exact ⟨fine, key, named, accepted⟩
    | succ ahead =>
      have later := inductionHypothesis (round + 1) _ _ restStaged ahead found
      rwa [Nat.add_assoc, Nat.add_comm 1 ahead] at later

/-- A batch is its puts in order, all or nothing. One that succeeds leaves the records and has
announced the events that puts of its records one after another leave and announce; one with a
record that cannot be staged, or whose commit fails, leaves the store. -/
theorem batch_is_puts (store : Store) (request : BatchRequest) :
    ((∀ record ∈ request.records, record.compareAndSet = false) →
      (∀ round, env.fault (.get round) = none ∧ env.fault (.copy round) = none) →
      ∀ status, (Storage.setBatch deps env store request commitVersion).1 = .ok status →
        (Storage.setBatch deps env store request commitVersion).2.records deps =
          (store.putEach deps env.now commitVersion request.records).records deps ∧
        (Storage.setBatch deps env store request commitVersion).2.events =
          (store.putEach deps env.now commitVersion request.records).events) ∧
    (Unstageable deps env request.records ∨ env.fault .commit ≠ none →
      (∃ err, (Storage.setBatch deps env store request commitVersion).1 = .error err) ∧
        (Storage.setBatch deps env store request commitVersion).2 = store) := by
  unfold Storage.setBatch
  cases staged : Storage.batchRecords deps env commitVersion 0 store.newTransaction
      request.records with
  | error err => exact ⟨fun _ _ status answered => (nomatch answered), fun _ => ⟨⟨err, rfl⟩, rfl⟩⟩
  | ok outcome =>
    obtain ⟨final, pending⟩ := outcome
    unfold Store.commit
    cases committed : env.fault .commit with
    | some err =>
      exact ⟨fun _ _ status answered => (nomatch answered), fun _ => ⟨⟨_, rfl⟩, rfl⟩⟩
    | none =>
      constructor
      · intro unconditional legible status _
        obtain ⟨read, events⟩ := putEach_of_batchRecords deps env commitVersion
          (fun round => (legible round).2) request.records unconditional 0 _ final pending staged
          store rfl
        refine ⟨?_, events.symm⟩
        rw [commit_records deps store final _
          (batchRecords_snapshot deps env commitVersion _ _ _ _ pending staged)]
        funext entryKey
        rw [Store.records, read, Txn.records]
      · rintro (⟨round, record, found, blocked⟩ | failed)
        · obtain ⟨set, key, named, accepted⟩ := stageable_of_batchRecords deps env commitVersion
            request.records 0 _ _ staged round record found
          rw [Nat.zero_add] at set
          rcases blocked with keyless | refused | ⟨other, isOther, refused⟩
          · cases keyless.symm.trans named
          · exact absurd set refused
          · obtain rfl := Option.some.inj (isOther.symm.trans named)
            exact absurd accepted refused
        · exact absurd rfl failed

end

/-- Two puts of one key without a log, in one batch. -/
theorem batch_is_puts_sample :
    (Storage.setBatch Reference.deps (.healthy 0) Store.empty
        { records := [{ key := some Reference.sampleKey, value := str "1" },
          { key := some Reference.sampleKey, value := str "2" }] } 0).2.records Reference.deps
        (encodeKey Reference.deps Reference.sampleKey).1 =
      (Store.empty.putEach Reference.deps 0 0
        [{ key := some Reference.sampleKey, value := str "1" },
          { key := some Reference.sampleKey, value := str "2" }]).records Reference.deps
        (encodeKey Reference.deps Reference.sampleKey).1 :=
  congrFun ((batch_is_puts Reference.deps (.healthy 0) 0 Store.empty
    { records := [{ key := some Reference.sampleKey, value := str "1" },
      { key := some Reference.sampleKey, value := str "2" }] }).1 (by decide)
    (fun _ => ⟨rfl, rfl⟩) ⟨true⟩ (by decide +kernel)).1 _

end ConsensusDB
