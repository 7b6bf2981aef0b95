/-
This file says that two record keys never meet in the store. A key whose fields
are not cut is read back from its entry key. A field that is cut makes the entry
key longer than the engine accepts. So an entry key that is ever written belongs
to one key, and a write of one key leaves what a read of another returns.
-/

import ConsensusDB.Staging
import ConsensusDB.Reference

namespace ConsensusDB

open Wire

/-! ### Equality of keys -/

/-- `Equal`: the three fields agree, and both timestamps are there and agree or both are absent. -/
def Key.equal (left right : Key) : Bool :=
  if left.majorKey ≠ right.majorKey then false
  else if left.regionName ≠ right.regionName then false
  else if left.minorKey ≠ right.minorKey then false
  else
    match left.timestamp, right.timestamp with
    | some _, none => false
    | some leftStamp, some rightStamp =>
      leftStamp.mostSigBits == rightStamp.mostSigBits &&
        leftStamp.leastSigBits == rightStamp.leastSigBits
    | none, stamp => stamp.isNone

theorem equal_iff (left right : Key) : left.equal right = true ↔ left = right := by
  obtain ⟨major, region, minor, timestamp⟩ := left
  obtain ⟨otherMajor, otherRegion, otherMinor, otherTimestamp⟩ := right
  unfold Key.equal
  by_cases majors : major = otherMajor
  · by_cases regions : region = otherRegion
    · by_cases minors : minor = otherMinor
      · subst majors regions minors
        cases timestamp with
        | none => cases otherTimestamp <;> simp
        | some stamp =>
          cases otherTimestamp with
          | none => simp
          | some otherStamp =>
            obtain ⟨most, least⟩ := stamp
            obtain ⟨otherMost, otherLeast⟩ := otherStamp
            simp
      · simp [minors]
    · simp [regions]
  · simp [majors]

/-! ### Entry keys -/

theorem take_of_length_le_maxKeyLength (field : Bytes) (short : field.length ≤ maxKeyLength) :
    field.take (sanitizeKeyLen field.length) = field := by
  refine List.take_of_length_le ?_
  unfold sanitizeKeyLen
  split <;> omega

/-- No field of the key is cut. -/
structure Key.Uncut (key : Key) : Prop where
  majorKey : key.majorKey.length ≤ maxKeyLength
  regionName : key.regionName.length ≤ maxKeyLength
  minorKey : key.minorKey.length ≤ maxKeyLength

/-- A key is read back from its entry key when no field is cut. -/
theorem decodeKey_encodeKey (deps : Deps) (lawful : deps.Lawful) (key : Key) (uncut : key.Uncut) :
    decodeKey deps (encodeKey deps key).1 = some (.ok key) := by
  have long : ¬ (encodeKey deps key).1.length < 6 := Nat.not_lt.mpr (encodeKey_length deps key)
  unfold decodeKey
  rw [if_neg long]
  obtain ⟨major, region, minor, timestamp⟩ := key
  obtain ⟨majorShort, regionShort, minorShort⟩ := uncut
  cases timestamp with
  | none =>
    have layout : (encodeKey deps ⟨major, region, minor, none⟩).1 =
        encodeField major ++ (encodeField region ++ (encodeField minor ++ [])) := by
      rw [List.append_nil, ← List.append_assoc]
      rfl
    simp only [layout, decodeField_encodeField_append,
      take_of_length_le_maxKeyLength major majorShort,
      take_of_length_le_maxKeyLength region regionShort,
      take_of_length_le_maxKeyLength minor minorShort]
    rfl
  | some stamp =>
    have layout : (encodeKey deps ⟨major, region, minor, some stamp⟩).1 =
        encodeField major ++ (encodeField region ++
          (encodeField minor ++ deps.marshalSortable stamp)) := by
      rw [← List.append_assoc, ← List.append_assoc]
      rfl
    have whole : sizeOfUUID ≤ (deps.marshalSortable stamp).length := by
      rw [lawful.sortableLength]
      exact le_rfl
    simp only [layout, decodeField_encodeField_append,
      take_of_length_le_maxKeyLength major majorShort,
      take_of_length_le_maxKeyLength region regionShort,
      take_of_length_le_maxKeyLength minor minorShort, if_pos whole, lawful.sortable]

theorem encodeKey_length_fields (deps : Deps) (key : Key) :
    6 + sanitizeKeyLen key.majorKey.length + sanitizeKeyLen key.regionName.length +
      sanitizeKeyLen key.minorKey.length ≤ (encodeKey deps key).1.length := by
  unfold encodeKey
  split <;> simp only [List.length_append, encodeField_length] <;> omega

/-- A field that the engine accepts as stored is not cut. -/
theorem le_maxKeyLength_of_stored (length : Nat)
    (bounded : sanitizeKeyLen length ≤ maxEngineKeySize) : length ≤ maxKeyLength := by
  unfold sanitizeKeyLen maxEngineKeySize maxKeyLength at *
  split at bounded <;> omega

/-- An entry key that the engine accepts has no cut field. -/
theorem uncut_of_accepted (deps : Deps) (key : Key)
    (accepted : refuseKey (encodeKey deps key).1 = none) : key.Uncut := by
  have short := (encodeKey_length_fields deps key).trans (length_of_accepted accepted)
  exact ⟨le_maxKeyLength_of_stored _ (by omega), le_maxKeyLength_of_stored _ (by omega),
    le_maxKeyLength_of_stored _ (by omega)⟩

/-- An entry key that the engine accepts belongs to one key. -/
theorem encodeKey_inj_of_accepted (deps : Deps) (lawful : deps.Lawful) (first second : Key)
    (accepted : refuseKey (encodeKey deps first).1 = none)
    (same : (encodeKey deps first).1 = (encodeKey deps second).1) : first = second := by
  have decoded := decodeKey_encodeKey deps lawful first (uncut_of_accepted deps first accepted)
  rw [same] at accepted decoded
  rw [decodeKey_encodeKey deps lawful second (uncut_of_accepted deps second accepted)] at decoded
  exact (Except.ok.inj (Option.some.inj decoded)).symm

/-! ### Writes of other keys -/

/-- The keys a command names. A sweep of expired records names entry keys instead. -/
def Command.keys : Command → List Key
  | .put request => request.key.toList
  | .touch request => request.key.toList
  | .remove request => request.key.toList
  | .increment request => request.key.toList
  | .batch request => request.records.filterMap RecordRequest.key
  | .reclaim _ => []

def Command.IsSweep : Command → Prop
  | .reclaim _ => True
  | _ => False

/-- A command that is no sweep changes what the engine holds only under the entry keys of the keys
it names. -/
theorem runCommand_named (deps : Deps) (env : Env) (store : Store) (commitVersion : UInt64)
    (command : Command) (named : ¬ command.IsSweep) (entryKey : Bytes)
    (changed : (runCommand deps env store commitVersion command).2.db.read entryKey ≠
      store.db.read entryKey) :
    refuseKey entryKey = none ∧ ∃ key ∈ command.keys, (encodeKey deps key).1 = entryKey := by
  have performed : ∃ counts type, Performed deps commitVersion counts type
      (command.keys.map fun key => (encodeKey deps key).1) store
      (runCommand deps env store commitVersion command).2 := by
    cases command with
    | put request => exact ⟨_, _, put_performed deps env store commitVersion request⟩
    | touch request => exact ⟨_, _, touch_performed deps env store commitVersion request⟩
    | remove request => exact ⟨_, _, remove_performed deps env store commitVersion request⟩
    | increment request => exact ⟨_, _, increment_performed deps env store commitVersion request⟩
    | batch request => exact ⟨_, _, setBatch_performed deps env store commitVersion request⟩
    | reclaim request => exact absurd trivial named
  obtain ⟨counts, type, isPerformed⟩ := performed
  obtain ⟨accepted, member⟩ := mem_of_performed isPerformed entryKey changed
  exact ⟨accepted, List.mem_map.mp member⟩

/-- A read depends on what the engine holds under the entry key of its key. -/
theorem get_of_read (deps : Deps) (env : Env) (first second : Store) (request : KeyRequest)
    (same : ∀ key, request.key = some key →
      first.db.read (encodeKey deps key).1 = second.db.read (encodeKey deps key).1) :
    Storage.get deps env first request = Storage.get deps env second request := by
  unfold Storage.get
  cases named : request.key with
  | none => rfl
  | some key =>
    have read : first.newTransaction.get env 0 (encodeKey deps key).1 =
        second.newTransaction.get env 0 (encodeKey deps key).1 := by
      unfold Txn.get
      rw [newTransaction_read, newTransaction_read, same key named]
    simp only [read]

/-- Keys never alias: a key of fields that fit their lengths is read back from its entry key, and
a write of other keys leaves what a read of a key returns, whatever the lengths of their fields,
whichever engine calls fail and whether the version comes from a log or is assigned locally. -/
theorem keys_never_alias (deps : Deps) (lawful : deps.Lawful) :
    (∀ key : Key, key.Uncut → ∃ decoded,
      decodeKey deps (encodeKey deps key).1 = some (.ok decoded) ∧ decoded.equal key = true) ∧
    ∀ (command : Command) (request : KeyRequest) (env readEnv : Env) (store : Store)
      (commitVersion : UInt64), ¬ command.IsSweep →
      (∀ key, request.key = some key → ∀ written ∈ command.keys, written.equal key = false) →
      Storage.get deps readEnv (runCommand deps env store commitVersion command).2 request =
        Storage.get deps readEnv store request := by
  constructor
  · intro key uncut
    exact ⟨key, decodeKey_encodeKey deps lawful key uncut, (equal_iff key key).mpr rfl⟩
  · intro command request env readEnv store commitVersion named others
    refine get_of_read deps readEnv _ _ request fun key isRead => ?_
    by_contra changed
    obtain ⟨accepted, written, member, sameEntry⟩ :=
      runCommand_named deps env store commitVersion command named _ changed
    rw [← sameEntry] at accepted
    have same := encodeKey_inj_of_accepted deps lawful written key accepted sameEntry
    have different := others key isRead written member
    rw [(equal_iff written key).mpr same] at different
    cases different

/-- A put of one key leaves what a read of another key of the same minor key returns. -/
theorem keys_never_alias_sample :
    Storage.get Reference.deps (.healthy 0)
        (runCommand Reference.deps (.healthy 0) Store.empty 1
          (.put { key := some Reference.sampleKey, value := str "1" })).2
        { key := some ⟨str "acme", str "E", str "Uorders", none⟩ } =
      Storage.get Reference.deps (.healthy 0) Store.empty
        { key := some ⟨str "acme", str "E", str "Uorders", none⟩ } :=
  (keys_never_alias Reference.deps Reference.lawful).2 _ _ _ _ _ _ id (by decide)

end ConsensusDB
