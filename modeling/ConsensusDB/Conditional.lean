/-
This file compares the three places a request with a condition can arrive at. A
record request carries a flag and an expected version, and zero expects an absent
key. A put checks it; a touch and a batch take the same request and never look at
the condition. What a put checks is the stored version, so it also takes a stored
record of version zero for an absent key.

For each of the three the stores are named on which every conditional write is
conditional.
-/

import ConsensusDB.Staging
import ConsensusDB.Reference

namespace ConsensusDB

open Wire

/-! ### Conditional writes -/

/-- Where a record request arrives. -/
inductive Arrival where
  | put
  | touch
  | batch
  deriving DecidableEq, Repr

/-- The request reports that its record has been written. Within a batch other records come
before and after it. -/
def Arrival.Writes (deps : Deps) (env : Env) (store : Store) (commitVersion : UInt64)
    (earlier : List RecordRequest) (request : RecordRequest) (later : List RecordRequest) :
    Arrival → Prop
  | .put => (Storage.put deps env store request commitVersion).1 = .ok ⟨true⟩
  | .touch => (Storage.touch deps env store request commitVersion).1 = .ok ⟨true⟩
  | .batch =>
    (Storage.setBatch deps env store { records := earlier ++ request :: later } commitVersion).1 =
      .ok ⟨true⟩

/-- The records at the moment of the write. Within a batch they are those the earlier records
leave. -/
def Arrival.records (deps : Deps) (env : Env) (store : Store) (commitVersion : UInt64)
    (earlier : List RecordRequest) : Arrival → Records
  | .put | .touch => store.records deps
  | .batch => (Storage.setBatch deps env store { records := earlier } commitVersion).2.records deps

/-- The expected version is the stored one, or it is zero and the key is absent. -/
def ConditionMet (records : Records) (entryKey : Bytes) (version : UInt64) : Prop :=
  if version = 0 then records entryKey = none
  else (records entryKey).map StoredRecord.version = some version

/-- On the store, every request with a condition that arrives here writes only where the condition
is met. -/
def Arrival.Conditional (deps : Deps) (store : Store) (arrival : Arrival) : Prop :=
  ∀ env commitVersion earlier request later key, request.compareAndSet = true →
    request.key = some key →
    arrival.Writes deps env store commitVersion earlier request later →
    ConditionMet (arrival.records deps env store commitVersion earlier) (encodeKey deps key).1
      request.version

/-- The stores on which this is so: for a put those without a record of version zero, for a touch
those with nothing to touch, for a batch none. -/
def Arrival.Guards (deps : Deps) (store : Store) : Arrival → Prop
  | .put => ∀ key record, refuseKey (encodeKey deps key).1 = none →
      store.records deps (encodeKey deps key).1 = some record → record.version ≠ 0
  | .touch => ∀ key, refuseKey (encodeKey deps key).1 = none →
      store.records deps (encodeKey deps key).1 = none
  | .batch => False

/-! ### Each arrival -/

section

variable (deps : Deps) (lawful : deps.Lawful) (store : Store)

/-- The engine accepts the entry key of a key without fields. -/
theorem emptyKey_accepted : refuseKey (encodeKey deps ⟨[], [], [], none⟩).1 = none := by
  show refuseKey [0, 0, 0, 0, 0, 0] = none
  decide

include lawful in
/-- A put that reports a write has found the version it expects, zero counting as absent. -/
theorem version_of_put (env : Env) (commitVersion : UInt64) (request : RecordRequest) (key : Key)
    (conditional : request.compareAndSet = true) (named : request.key = some key)
    (wrote : (Storage.put deps env store request commitVersion).1 = .ok ⟨true⟩) :
    refuseKey (encodeKey deps key).1 = none ∧
      request.version = (store.records deps).versionAt (encodeKey deps key).1 := by
  rcases put_updates deps lawful env store request key named commitVersion with
    ⟨_, silent⟩ | ⟨_, accepted, met, _⟩
  · exact absurd wrote silent
  · refine ⟨accepted, ?_⟩
    simpa [casRefuses, conditional, Records.versionAt] using met

include lawful in
theorem put_conditional_iff :
    Arrival.Conditional deps store .put ↔ Arrival.Guards deps store .put := by
  constructor
  · intro conditional key record accepted stored zero
    have met : casRefuses { key := some key, value := [], compareAndSet := true, version := 0 }
        ((store.records deps (encodeKey deps key).1).map StoredRecord.version) = false := by
      rw [stored, casRefuses, Option.map_some, zero]
      rfl
    have absent := conditional (.healthy 0) 0 []
      { key := some key, value := [], compareAndSet := true, version := 0 } [] key rfl rfl
      (put_accepted deps lawful 0 store _ key rfl 0 accepted met).1
    exact absurd (stored.symm.trans absent) (Option.some_ne_none _)
  · intro guarded env commitVersion earlier request later key conditional named wrote
    obtain ⟨accepted, expected⟩ :=
      version_of_put deps lawful store env commitVersion request key conditional named wrote
    show ConditionMet (store.records deps) (encodeKey deps key).1 request.version
    unfold ConditionMet
    unfold Records.versionAt at expected
    cases stored : store.records deps (encodeKey deps key).1 with
    | none =>
      rw [stored] at expected
      exact (if_pos expected).mpr rfl
    | some record =>
      rw [stored] at expected
      have nonzero : request.version ≠ 0 :=
        fun zero => guarded key record accepted stored (expected.symm.trans zero)
      exact (if_neg nonzero).mpr (congrArg some expected.symm)

include lawful in
/-- A touch of a stored record is carried out whatever the request expects. -/
theorem touch_writes (now : Int64) (commitVersion : UInt64) (request : RecordRequest) (key : Key)
    (named : request.key = some key) (accepted : refuseKey (encodeKey deps key).1 = none)
    (record : StoredRecord)
    (stored : store.records deps (encodeKey deps key).1 = some record) :
    (Storage.touch deps (.healthy now) store request commitVersion).1 = .ok ⟨true⟩ := by
  have touched := view_touch deps lawful now store request commitVersion
  unfold Records.touch at touched
  simp only [named, stored, Records.write, accepted] at touched
  exact congrArg Prod.fst touched

/-- What a touch has written was there before. -/
theorem present_of_touch (env : Env) (commitVersion : UInt64) (request : RecordRequest) (key : Key)
    (named : request.key = some key)
    (wrote : (Storage.touch deps env store request commitVersion).1 = .ok ⟨true⟩) :
    refuseKey (encodeKey deps key).1 = none ∧
      store.records deps (encodeKey deps key).1 ≠ none := by
  unfold Storage.touch at wrote
  simp only [named] at wrote
  split at wrote
  · cases wrote
  · cases wrote
  · rename_i item found
    have read := read_of_get _ env 0 _ _ found
    split at wrote
    · cases wrote
    · unfold Store.commit at wrote
      split at wrote
      · cases wrote
      · cases wrote
      · rename_i written _
        refine ⟨(staged_of_setEntry _ _ env 0 _ _ _ written).1, ?_⟩
        rw [Store.records, ← newTransaction_read, ← read]
        exact Option.some_ne_none _

include lawful in
theorem touch_conditional_iff :
    Arrival.Conditional deps store .touch ↔ Arrival.Guards deps store .touch := by
  constructor
  · intro conditional key accepted
    cases stored : store.records deps (encodeKey deps key).1 with
    | none => rfl
    | some record =>
      -- the version after the stored one is expected, and the record is touched all the same
      have met := conditional (.healthy 0) 0 []
        { key := some key, value := [], compareAndSet := true, version := record.version + 1 } []
        key rfl rfl (touch_writes deps lawful store 0 0 _ key rfl accepted record stored)
      unfold ConditionMet at met
      by_cases wrapped : record.version + 1 = 0
      · rw [if_pos wrapped] at met
        exact absurd (stored.symm.trans met) (Option.some_ne_none _)
      · rw [if_neg wrapped] at met
        have same : record.version = record.version + 1 :=
          Option.some.inj ((congrArg (Option.map StoredRecord.version) stored).symm.trans met)
        exact absurd same (by simp)
  · intro guarded env commitVersion earlier request later key _ named wrote
    obtain ⟨accepted, present⟩ :=
      present_of_touch deps store env commitVersion request key named wrote
    exact absurd (guarded key accepted) present

include lawful in
/-- A batch of one record the engine accepts is carried out whatever the record expects. -/
theorem batch_writes (now : Int64) (commitVersion : UInt64) (request : RecordRequest) (key : Key)
    (named : request.key = some key) (accepted : refuseKey (encodeKey deps key).1 = none) :
    (Storage.setBatch deps (.healthy now) store { records := [request] } commitVersion).1 =
      .ok ⟨true⟩ := by
  have batched := view_setBatch deps lawful now store { records := [request] } commitVersion
  simp only [Records.setBatch, Records.batchRecords, named, accepted] at batched
  exact congrArg Prod.fst batched

include lawful in
theorem batch_conditional_iff :
    Arrival.Conditional deps store .batch ↔ Arrival.Guards deps store .batch := by
  refine iff_of_false ?_ id
  intro conditional
  -- a version other than the stored one, and not the one of an absent key
  obtain ⟨version, nonzero, other⟩ : ∃ version : UInt64, version ≠ 0 ∧
      (store.records deps (encodeKey deps ⟨[], [], [], none⟩).1).map StoredRecord.version ≠
        some version := by
    by_cases one : (store.records deps (encodeKey deps ⟨[], [], [], none⟩).1).map
        StoredRecord.version = some 1
    · refine ⟨2, by decide, ?_⟩
      rw [one]
      decide
    · exact ⟨1, by decide, one⟩
  have met := conditional (.healthy 0) 0 []
    { key := some ⟨[], [], [], none⟩, value := [], compareAndSet := true, version := version } []
    ⟨[], [], [], none⟩ rfl rfl (batch_writes deps lawful store 0 0 _ _ rfl (emptyKey_accepted deps))
  unfold ConditionMet at met
  rw [if_neg nonzero] at met
  exact other met

end

/-- A conditional write is conditional where it arrives at a store exactly when the store is one
of those named: a put checks the condition, a touch and a batch never do. -/
theorem conditional_iff_guards (deps : Deps) (lawful : deps.Lawful) (store : Store)
    (arrival : Arrival) : arrival.Conditional deps store ↔ arrival.Guards deps store := by
  cases arrival with
  | put => exact put_conditional_iff deps lawful store
  | touch => exact touch_conditional_iff deps lawful store
  | batch => exact batch_conditional_iff deps lawful store

/-- On an empty store a put is conditional and a batch is not. -/
theorem conditional_iff_guards_empty :
    Arrival.Conditional Reference.deps Store.empty .put ∧
      ¬ Arrival.Conditional Reference.deps Store.empty .batch := by
  constructor
  · refine (conditional_iff_guards Reference.deps Reference.lawful Store.empty .put).mpr ?_
    intro key record _ stored
    cases stored
  · exact (conditional_iff_guards Reference.deps Reference.lawful Store.empty .batch).mp

/-- The store after one put, of version one. -/
def onceWritten : Store :=
  (Storage.put Reference.deps (.healthy 0) Store.empty
    { key := some Reference.sampleKey, value := str "1" } 0).2

/-- A request that expects version seven. -/
def expectsSeven : RecordRequest :=
  { key := some Reference.sampleKey, value := str "2", compareAndSet := true, version := 7 }

/-- The record has version one. A put that expects version seven leaves it, a touch and a batch
that expect version seven write it. -/
theorem condition_ignored :
    (onceWritten.records Reference.deps).versionAt
        (encodeKey Reference.deps Reference.sampleKey).1 = 1 ∧
      (Storage.put Reference.deps (.healthy 0) onceWritten expectsSeven 5).1 = .ok ⟨false⟩ ∧
      (Storage.touch Reference.deps (.healthy 0) onceWritten expectsSeven 5).1 = .ok ⟨true⟩ ∧
      (Storage.setBatch Reference.deps (.healthy 0) onceWritten { records := [expectsSeven] } 5).1 =
        .ok ⟨true⟩ := by
  decide +kernel

end ConsensusDB
