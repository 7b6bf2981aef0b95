/-
This file is about records that are looked up by their key. A lookup shows the
value of a record that has not expired and is not empty. A put shows its value
under its own key and leaves what is shown under every other one; so does a
removal, which shows nothing. Where an engine call fails, nothing changes.
-/

import ConsensusDB.Aliasing

namespace ConsensusDB

open Wire

/-- The value a lookup of the key shows. -/
def Store.shown (deps : Deps) (now : Int64) (store : Store) (key : Key) : Option Bytes :=
  match store.records deps (encodeKey deps key).1 with
  | none => none
  | some record =>
    if deps.isExpired now record.expiresAt = true ∨ record.value = [] then none
    else some record.value

/-- A request that stores a value for good. -/
def RecordRequest.Lasting (request : RecordRequest) : Prop :=
  request.value ≠ [] ∧ request.ttlSeconds = 0 ∧ request.expiresAt = 0

section

variable (deps : Deps) (now : Int64) (store : Store)

/-- A read that does not fail returns the shown value, and an empty one when nothing is shown. -/
theorem get_shown (key : Key) :
    ∃ reply, Storage.get deps (.healthy now) store { key := some key } = .ok reply ∧
      ((reply.value = [] ∧ store.shown deps now key = none) ∨
        (reply.value ≠ [] ∧ reply.head ≠ none ∧
          store.shown deps now key = some reply.value)) := by
  obtain ⟨reply, isReply, ⟨rfl, expired⟩ | ⟨record, found, alive, head, value⟩⟩ :=
    get_healthy_records deps now store key
  · refine ⟨_, isReply, Or.inl ⟨rfl, ?_⟩⟩
    unfold Store.shown
    cases found : store.records deps (encodeKey deps key).1 with
    | none => rfl
    | some record => exact if_pos (Or.inl (expired record found))
  · refine ⟨reply, isReply, ?_⟩
    unfold Store.shown
    rw [found, value]
    simp only [alive]
    by_cases empty : record.value = []
    · exact Or.inl ⟨empty, if_pos (Or.inr empty)⟩
    · refine Or.inr ⟨empty, head, if_neg ?_⟩
      rintro (expired | isEmpty)
      · cases expired
      · exact empty isEmpty

theorem shown_of_records {first second : Store} (key : Key)
    (same : first.records deps (encodeKey deps key).1 =
      second.records deps (encodeKey deps key).1) :
    first.shown deps now key = second.shown deps now key := by
  unfold Store.shown
  rw [same]

variable (lawful : deps.Lawful) (env : Env) (commitVersion : UInt64)

include lawful in
/-- A put leaves the records of other keys. -/
theorem records_put_other (request : RecordRequest) (key : Key) (named : request.key = some key)
    (other : Key) (different : other ≠ key) :
    (Storage.put deps env store request commitVersion).2.records deps (encodeKey deps other).1 =
      store.records deps (encodeKey deps other).1 := by
  rcases put_updates deps lawful env store request key named commitVersion with
    ⟨same, _⟩ | ⟨_, accepted, _, stored⟩
  · rw [same]
  · rw [stored, Function.update_of_ne]
    exact fun same =>
      different (encodeKey_inj_of_accepted deps lawful key other accepted same.symm).symm

include lawful in
theorem shown_put_other (request : RecordRequest) (key : Key) (named : request.key = some key)
    (other : Key) (different : other ≠ key) :
    (Storage.put deps env store request commitVersion).2.shown deps now other =
      store.shown deps now other :=
  shown_of_records deps now other
    (records_put_other deps store lawful env commitVersion request key named other different)

include lawful in
/-- A put that is carried out shows its value from then on. -/
theorem shown_put (request : RecordRequest) (key : Key) (named : request.key = some key)
    (lasting : request.Lasting)
    (wrote : (Storage.put deps env store request commitVersion).1 = .ok ⟨true⟩) :
    (Storage.put deps env store request commitVersion).2.shown deps now key =
      some request.value := by
  rcases put_updates deps lawful env store request key named commitVersion with
    ⟨_, silent⟩ | ⟨_, _, _, stored⟩
  · exact absurd wrote silent
  · obtain ⟨value, noTtl, noExpiry⟩ := lasting
    unfold Store.shown
    rw [stored, Function.update_self]
    refine if_neg ?_
    rintro (expired | empty)
    · have endless : (Records.putRecord deps env.now request (nextVersion commitVersion
          ((store.records deps).versionAt (encodeKey deps key).1))).expiresAt = 0 := by
        show resolveExpiry deps env.now request.ttlSeconds request.expiresAt = 0
        rw [noTtl, noExpiry]
        rfl
      rw [endless, lawful.neverExpires] at expired
      cases expired
    · exact value empty

include lawful in
/-- A put without a condition fails or is carried out. -/
theorem put_unconditional (request : RecordRequest) (key : Key) (named : request.key = some key)
    (unconditional : request.compareAndSet = false) :
    ((Storage.put deps env store request commitVersion).2 = store ∧
        ∃ err, (Storage.put deps env store request commitVersion).1 = .error err) ∨
      (Storage.put deps env store request commitVersion).1 = .ok ⟨true⟩ := by
  rcases put_updates deps lawful env store request key named commitVersion with
    ⟨same, silent⟩ | ⟨wrote, _⟩
  · refine Or.inl ⟨same, ?_⟩
    unfold Storage.put at silent ⊢
    simp only [named] at silent ⊢
    split
    · exact ⟨_, rfl⟩
    · rename_i current got
      have met : casRefuses request current = false := by
        rw [casRefuses, unconditional, Bool.false_and]
      simp only [got, met] at silent ⊢
      rw [if_neg Bool.false_ne_true] at silent ⊢
      unfold Store.commit at silent ⊢
      split
      · exact ⟨_, rfl⟩
      · exact ⟨_, rfl⟩
      · rename_i staged committed
        rw [staged, committed] at silent
        exact absurd rfl silent
  · exact Or.inr wrote

/-- A removal fails and leaves the store, or it takes the record away. -/
theorem remove_updates (request : KeyRequest) (key : Key) (named : request.key = some key) :
    ((Storage.remove deps env store request).2 = store ∧
        ∃ err, (Storage.remove deps env store request).1 = .error err) ∨
      (Storage.remove deps env store request).1 = .ok ⟨true⟩ ∧
        refuseKey (encodeKey deps key).1 = none ∧
        (Storage.remove deps env store request).2.records deps =
          Function.update (store.records deps) (encodeKey deps key).1 none := by
  unfold Storage.remove
  simp only [named]
  unfold Store.commit
  split
  · exact Or.inl ⟨rfl, _, rfl⟩
  · exact Or.inl ⟨rfl, _, rfl⟩
  · rename_i txn written _
    obtain ⟨accepted, rfl⟩ := staged_of_delete _ txn env 0 _ _ written
    refine Or.inr ⟨rfl, accepted, ?_⟩
    rw [commit_records deps store _ _ rfl, txn_records_cons]
    rfl

include lawful in
theorem records_remove_other (request : KeyRequest) (key : Key) (named : request.key = some key)
    (other : Key) (different : other ≠ key) :
    (Storage.remove deps env store request).2.records deps (encodeKey deps other).1 =
      store.records deps (encodeKey deps other).1 := by
  rcases remove_updates deps store env request key named with ⟨same, _⟩ | ⟨_, accepted, removed⟩
  · rw [same]
  · rw [removed, Function.update_of_ne]
    exact fun same =>
      different (encodeKey_inj_of_accepted deps lawful key other accepted same.symm).symm

include lawful in
theorem shown_remove_other (request : KeyRequest) (key : Key) (named : request.key = some key)
    (other : Key) (different : other ≠ key) :
    (Storage.remove deps env store request).2.shown deps now other =
      store.shown deps now other :=
  shown_of_records deps now other
    (records_remove_other deps store lawful env request key named other different)

/-- A removal that is carried out shows nothing from then on. -/
theorem shown_remove (request : KeyRequest) (key : Key) (named : request.key = some key)
    (status : Status) (removed : (Storage.remove deps env store request).1 = .ok status) :
    (Storage.remove deps env store request).2.shown deps now key = none := by
  rcases remove_updates deps store env request key named with ⟨_, err, failed⟩ | ⟨_, _, gone⟩
  · rw [failed] at removed
    cases removed
  · unfold Store.shown
    rw [gone, Function.update_self]

/-! ### Stores that hold only keys the engine accepts -/

/-- A key that the engine refuses shows nothing where only accepted keys are stored. -/
theorem shown_refused (valid : (store.records deps).Valid) (key : Key)
    (refused : refuseKey (encodeKey deps key).1 ≠ none) : store.shown deps now key = none := by
  unfold Store.shown
  cases found : store.records deps (encodeKey deps key).1 with
  | none => rfl
  | some record =>
    refine absurd (valid _ ?_) refused
    rw [found]
    exact Option.some_ne_none _

theorem valid_update (valid : (store.records deps).Valid) (entryKey : Bytes)
    (accepted : refuseKey entryKey = none) (record : Option StoredRecord) :
    Records.Valid (Function.update (store.records deps) entryKey record) := by
  intro other present
  by_cases same : other = entryKey
  · rw [same]
    exact accepted
  · rw [Function.update_of_ne same] at present
    exact valid other present

include lawful in
theorem valid_put (valid : (store.records deps).Valid) (request : RecordRequest) (key : Key)
    (named : request.key = some key) :
    ((Storage.put deps env store request commitVersion).2.records deps).Valid := by
  rcases put_updates deps lawful env store request key named commitVersion with
    ⟨same, _⟩ | ⟨_, accepted, _, stored⟩
  · rw [same]
    exact valid
  · rw [stored]
    exact valid_update deps store valid _ accepted _

theorem valid_remove (valid : (store.records deps).Valid) (request : KeyRequest) (key : Key)
    (named : request.key = some key) :
    ((Storage.remove deps env store request).2.records deps).Valid := by
  rcases remove_updates deps store env request key named with ⟨same, _⟩ | ⟨_, accepted, removed⟩
  · rw [same]
    exact valid
  · rw [removed]
    exact valid_update deps store valid _ accepted _

/-- A removal that does not fail shows nothing under its key, whether or not the engine accepts
the key. -/
theorem shown_remove_healthy (valid : (store.records deps).Valid) (request : KeyRequest) (key : Key)
    (named : request.key = some key) (clock : Int64) :
    (Storage.remove deps (.healthy clock) store request).2.shown deps now key = none := by
  cases accepted : refuseKey (encodeKey deps key).1 with
  | none =>
    have removed := congrArg Prod.snd (view_remove deps clock store request)
    simp only [view, Records.remove, named, Records.write, accepted] at removed
    unfold Store.shown
    rw [removed, Function.update_self]
  | some err =>
    refine shown_refused deps now _ (valid_remove deps store _ valid request key named) key ?_
    rw [accepted]
    exact Option.some_ne_none _

/-! ### Reads in any environment -/

/-- A read that succeeds returns what a healthy one returns. -/
theorem get_healthy_of_ok {env : Env} {key : Key} {reply : Record}
    (got : Storage.get deps env store { key := some key } = .ok reply) :
    Storage.get deps (.healthy env.now) store { key := some key } = .ok reply := by
  rcases get_of_fault deps env store { key := some key } with ⟨err, failed⟩ | healthy
  · cases failed.symm.trans got
  · exact healthy ▸ got

/-- A read that succeeds returns the stored record, unless it has expired. -/
theorem get_records {env : Env} {key : Key} {reply : Record}
    (got : Storage.get deps env store { key := some key } = .ok reply) :
    reply = Storage.recordNotFound key ∧
        (∀ record, store.records deps (encodeKey deps key).1 = some record →
          deps.isExpired env.now record.expiresAt = true) ∨
      ∃ record, store.records deps (encodeKey deps key).1 = some record ∧
        deps.isExpired env.now record.expiresAt = false ∧ reply.head ≠ none ∧
        reply.value = record.value := by
  obtain ⟨found, isFound, facts⟩ := get_healthy_records deps env.now store key
  obtain rfl := Except.ok.inj (isFound.symm.trans (get_healthy_of_ok deps store got))
  exact facts

/-- A read that returns a value returns that of the stored record, with its version. -/
theorem get_found (env : Env) (key : Key) (reply : Record)
    (got : Storage.get deps env store { key := some key } = .ok reply) (value : reply.value ≠ []) :
    ∃ record head, store.records deps (encodeKey deps key).1 = some record ∧
      reply.head = some head ∧ head.version = record.version ∧ reply.value = record.value := by
  have same := get_healthy_of_ok deps store got
  unfold Storage.get at same
  simp only [get_healthy _ _ _ _ (encodeKey_ne_nil deps key), newTransaction_read] at same
  unfold Store.records
  cases found : store.db.read (encodeKey deps key).1 with
  | none =>
    rw [found] at same
    obtain rfl := Except.ok.inj same
    exact absurd rfl value
  | some item =>
    simp only [found, fetchRecord_healthy] at same
    split at same
    · obtain rfl := Except.ok.inj same
      exact absurd rfl value
    · obtain rfl := Except.ok.inj same
      exact ⟨storedRecord deps item, _, rfl, rfl, rfl, rfl⟩

end

/-! ### Writes of one key -/

/-- A write of one key: a value for good, perhaps on the condition that the record has a version,
or a removal. -/
inductive KeyWrite where
  | put (key : Key) (value : Bytes) (condition : Option UInt64)
  | remove (key : Key)
  deriving DecidableEq, Repr

namespace KeyWrite

def key : KeyWrite → Key
  | .put key _ _ => key
  | .remove key => key

def condition : KeyWrite → Option UInt64
  | .put _ _ condition => condition
  | .remove _ => none

def perform (deps : Deps) (env : Env) (store : Store) (commitVersion : UInt64) :
    KeyWrite → Except Err Status × Store
  | .put key value condition =>
    Storage.put deps env store
      { key := some key, value := value, compareAndSet := condition.isSome,
        version := condition.getD 0 } commitVersion
  | .remove key => Storage.remove deps env store { key := some key }

/-- What a write that is carried out leaves under its key. -/
def left (version : UInt64) : KeyWrite → Option StoredRecord
  | .put _ value _ => some ⟨value, version, 0, 0⟩
  | .remove _ => none

variable (deps : Deps) (lawful : deps.Lawful) (env : Env) (store : Store) (commitVersion : UInt64)
  (write : KeyWrite)

include lawful in
/-- A write leaves the store, or it is carried out, and then its condition was met. -/
theorem perform_cases :
    (write.perform deps env store commitVersion).2 = store ∧
        (write.perform deps env store commitVersion).1 ≠ .ok ⟨true⟩ ∨
      (write.perform deps env store commitVersion).1 = .ok ⟨true⟩ ∧
        refuseKey (encodeKey deps write.key).1 = none ∧
        (∀ version ∈ write.condition,
          (store.records deps).versionAt (encodeKey deps write.key).1 = version) ∧
        (write.perform deps env store commitVersion).2.records deps =
          Function.update (store.records deps) (encodeKey deps write.key).1
            (write.left (nextVersion commitVersion
              ((store.records deps).versionAt (encodeKey deps write.key).1))) := by
  cases write with
  | put key value condition =>
    rcases put_updates deps lawful env store
        { key := some key, value := value, compareAndSet := condition.isSome,
          version := condition.getD 0 } key rfl commitVersion with failed |
      ⟨updated, accepted, met, stored⟩
    · exact Or.inl failed
    · refine Or.inr ⟨updated, accepted, fun version isVersion => ?_, stored⟩
      obtain rfl : condition = some version := isVersion
      exact (bne_eq_false_iff_eq.mp met).symm
  | remove key =>
    rcases remove_updates deps store env { key := some key } key rfl with
      ⟨same, err, failed⟩ | ⟨updated, accepted, removed⟩
    · refine Or.inl ⟨same, fun updated => ?_⟩
      rw [show (KeyWrite.remove key).perform deps env store commitVersion =
        Storage.remove deps env store { key := some key } from rfl, failed] at updated
      cases updated
    · exact Or.inr ⟨updated, accepted, fun _ none => absurd none (Option.some_ne_none _).symm,
        removed⟩

include lawful in
/-- A write without a condition that does not fail is carried out. -/
theorem perform_unconditional (unconditional : write.condition = none) (status : Status)
    (replied : (write.perform deps env store commitVersion).1 = .ok status) : status = ⟨true⟩ := by
  cases write with
  | put key value condition =>
    obtain rfl : condition = none := unconditional
    rcases put_unconditional deps store lawful env commitVersion
        { key := some key, value := value } key rfl rfl with ⟨_, err, failed⟩ | updated
    · cases failed.symm.trans replied
    · exact Except.ok.inj (replied.symm.trans updated)
  | remove key =>
    rcases remove_updates deps store env { key := some key } key rfl with
      ⟨_, err, failed⟩ | ⟨updated, _⟩
    · cases failed.symm.trans replied
    · exact Except.ok.inj (replied.symm.trans updated)

include lawful in
/-- A write leaves the records of other keys. -/
theorem records_perform_other (other : Key) (different : other ≠ write.key) :
    (write.perform deps env store commitVersion).2.records deps (encodeKey deps other).1 =
      store.records deps (encodeKey deps other).1 := by
  rcases perform_cases deps lawful env store commitVersion write with
    ⟨same, _⟩ | ⟨_, accepted, _, stored⟩
  · rw [same]
  · rw [stored, Function.update_of_ne]
    exact fun same =>
      different (encodeKey_inj_of_accepted deps lawful _ other accepted same.symm).symm

end KeyWrite

/-- A command that is no sweep leaves the record of a key that it does not name. -/
theorem records_of_unnamed (deps : Deps) (lawful : deps.Lawful) (env : Env) (store : Store)
    (commitVersion : UInt64) (command : Command) (named : ¬ command.IsSweep) (key : Key)
    (unnamed : key ∉ command.keys) :
    (runCommand deps env store commitVersion command).2.records deps (encodeKey deps key).1 =
      store.records deps (encodeKey deps key).1 := by
  unfold Store.records
  refine congrArg (Option.map (storedRecord deps)) ?_
  by_contra changed
  obtain ⟨accepted, other, member, same⟩ :=
    runCommand_named deps env store commitVersion command named _ changed
  rw [encodeKey_inj_of_accepted deps lawful key other accepted same.symm] at unnamed
  exact unnamed member

/-- A sweep leaves it, or takes it away. -/
theorem kept_or_removed_of_unnamed (deps : Deps) (lawful : deps.Lawful) (env : Env) (store : Store)
    (commitVersion : UInt64) (command : Command) (key : Key) (unnamed : key ∉ command.keys) :
    (runCommand deps env store commitVersion command).2.records deps (encodeKey deps key).1 =
        store.records deps (encodeKey deps key).1 ∨
      (runCommand deps env store commitVersion command).2.records deps (encodeKey deps key).1 =
        none := by
  by_cases sweep : command.IsSweep
  · unfold Store.records
    cases command with
    | reclaim request =>
      obtain ⟨entryKeys, performed⟩ := reclaim_performed deps env store commitVersion request
      rcases kept_or_removed_of_performed performed (encodeKey deps key).1 with kept | removed
      · exact Or.inl (congrArg (Option.map (storedRecord deps)) kept)
      · exact Or.inr (congrArg (Option.map (storedRecord deps)) removed)
    | _ => exact absurd sweep id
  · exact Or.inl (records_of_unnamed deps lawful env store commitVersion command sweep key unnamed)

end ConsensusDB
