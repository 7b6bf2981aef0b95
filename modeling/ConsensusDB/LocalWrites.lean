/-
This file says what one write of a node without raft announces. The storage is
called with commit version zero, so a write gives a record the version before it
plus one, and an absent record counts as version zero. Whichever engine calls
fail, the versions that an operation announces for a key count up from the one
stored before it, or the operation announces none and leaves the key absent.

The one exception is a batch that fails to copy a stored value: it takes the
record for an absent one and counts from zero.
-/

import ConsensusDB.Staging

namespace ConsensusDB

open Wire

/-! ### Counting -/

/-- The versions that follow a version. -/
def counted (start : UInt64) (count : Nat) : List UInt64 :=
  (List.range count).map fun step => start + UInt64.ofNat (step + 1)

theorem counted_add (start : UInt64) (first second : Nat) :
    counted start (first + second) =
      counted start first ++ counted (start + UInt64.ofNat first) second := by
  unfold counted
  rw [List.range_add, List.map_append, List.map_map]
  congr 1
  refine List.map_congr_left fun step _ => ?_
  show start + UInt64.ofNat (first + step + 1) =
    start + UInt64.ofNat first + UInt64.ofNat (step + 1)
  rw [Nat.add_assoc, UInt64.ofNat_add, UInt64.add_assoc]

theorem nodup_counted (start : UInt64) (count : Nat) (bounded : count < 2 ^ 64) :
    (counted start count).Nodup := by
  refine List.Nodup.map_on (fun first firstIn second secondIn same => ?_) List.nodup_range
  have firstBound := List.mem_range.mp firstIn
  have secondBound := List.mem_range.mp secondIn
  have values := congrArg UInt64.toNat (UInt64.add_right_inj start |>.mp same)
  have small (step : Nat) (below : step < count) : step + 1 < UInt64.size :=
    Nat.lt_of_le_of_lt below bounded
  rw [UInt64.toNat_ofNat_of_lt' (small first firstBound),
    UInt64.toNat_ofNat_of_lt' (small second secondBound)] at values
  exact Nat.succ.inj values

/-- What one or more calls write at a key, as long as none takes the record away: the versions
count up from the one before, and the last of them is the one left. -/
structure Continues (before : Option StoredRecord) (versions : List UInt64)
    (after : Option StoredRecord) : Prop where
  counts : versions = counted (cellVersion before) versions.length
  version : cellVersion after = cellVersion before + UInt64.ofNat versions.length
  kept : versions = [] → after = before
  present : versions ≠ [] → after ≠ none

theorem Continues.refl (cell : Option StoredRecord) : Continues cell [] cell where
  counts := rfl
  version := (UInt64.add_zero _).symm
  kept _ := rfl
  present written := absurd rfl written

theorem Continues.append {before between after : Option StoredRecord}
    {first second : List UInt64} (left : Continues before first between)
    (right : Continues between second after) : Continues before (first ++ second) after where
  counts := by
    rw [List.length_append, counted_add, ← left.version, ← left.counts, ← right.counts]
  version := by
    rw [right.version, left.version, List.length_append, UInt64.ofNat_add, UInt64.add_assoc]
  kept nothing := by
    obtain ⟨noFirst, noSecond⟩ := List.append_eq_nil_iff.mp nothing
    rw [right.kept noSecond, left.kept noFirst]
  present written := by
    by_cases noSecond : second = []
    · rw [noSecond, List.append_nil] at written
      rw [right.kept noSecond]
      exact left.present written
    · exact right.present noSecond

/-- One write goes on from the version before it. -/
theorem continues_write (records : Records) (entryKey key : Bytes) (record : StoredRecord)
    (next : record.version = cellVersion (records entryKey) + 1) :
    Continues (records key) (if entryKey = key then [record.version] else [])
      (Function.update records entryKey (some record) key) := by
  by_cases same : entryKey = key
  · subst same
    rw [if_pos rfl, Function.update_self]
    exact
      { counts := congrArg (fun version => [version]) next
        version := next
        kept := fun nothing => nomatch nothing
        present := fun _ => Option.some_ne_none record }
  · rw [if_neg same, Function.update_of_ne (Ne.symm same)]
    exact .refl _

/-! ### What a call announces -/

/-- The versions that events announce for writes of a key. -/
def writesOf (key : Bytes) (events : List WatchEvent) : List UInt64 :=
  (events.filter fun event => event.key = key ∧ event.type = .set).map fun event =>
    event.version.toUInt64

theorem writesOf_append (key : Bytes) (first second : List WatchEvent) :
    writesOf key (first ++ second) = writesOf key first ++ writesOf key second := by
  rw [writesOf, List.filter_append, List.map_append]
  rfl

theorem writesOf_set (key entryKey value : Bytes) (version : UInt64) :
    writesOf key [⟨entryKey, value, .set, version.toInt64⟩] =
      if entryKey = key then [version] else [] := by
  by_cases same : entryKey = key
  · simp [writesOf, same]
  · simp [writesOf, same]

theorem writesOf_delete (key entryKey : Bytes) :
    writesOf key [⟨entryKey, [], .delete, 0⟩] = [] := by
  simp [writesOf]

/-- What a call does at a key: it goes on counting, or it writes nothing and leaves no record. -/
def Told (before : Option StoredRecord) (versions : List UInt64) (after : Option StoredRecord) :
    Prop :=
  Continues before versions after ∨ (versions = [] ∧ after = none)

/-- The events of a call tell what it does at a key. -/
def Narrated (deps : Deps) (key : Bytes) (before after : Store) : Prop :=
  ∃ events, after.events = before.events ++ events ∧
    Told (before.records deps key) (writesOf key events) (after.records deps key)

theorem narrated_refl (deps : Deps) (key : Bytes) (store : Store) : Narrated deps key store store :=
  ⟨[], (List.append_nil _).symm, Or.inl (.refl _)⟩

section

variable {deps : Deps} {counts : Prop} {type : WatchEventType} {entryKeys : List Bytes}

theorem version_encode (lawful : deps.Lawful) (version : UInt64) (expiresAt : Int64)
    (value : Bytes) (userMeta : UInt8) :
    (storedRecord deps
      ⟨deps.encodeEnvelope version.toInt64 expiresAt value, userMeta⟩).version = version :=
  congrArg StoredRecord.version (storedRecord_encode deps lawful version expiresAt value userMeta)

/-- Staged records go on counting at each key, and staged deletions announce no write and leave
what there was or nothing. -/
theorem Staged.tells (lawful : deps.Lawful) (counting : counts) {txn final : Txn}
    {events : List WatchEvent} (staged : Staged deps 0 counts type txn entryKeys final events)
    (key : Bytes) :
    (type = .set →
        Continues (txn.records deps key) (writesOf key events) (final.records deps key)) ∧
      (type = .delete → writesOf key events = [] ∧
        (final.records deps key = txn.records deps key ∨ final.records deps key = none)) := by
  induction staged with
  | done type txn => exact ⟨fun _ => .refl _, fun _ => ⟨rfl, Or.inl rfl⟩⟩
  | set entryKey value version expiresAt userMeta accepted counted rest inductionHypothesis =>
    refine ⟨fun _ => ?_, fun isDelete => (nomatch isDelete)⟩
    have stamped := version_encode lawful version expiresAt value userMeta
    have wrote := continues_write _ entryKey key _ (stamped.trans (counted counting))
    have continued := inductionHypothesis.1 rfl
    rw [txn_records_cons] at continued
    rw [stamped] at wrote
    rw [← List.singleton_append, writesOf_append, writesOf_set]
    exact wrote.append continued
  | delete entryKey accepted rest inductionHypothesis =>
    refine ⟨fun isSet => (nomatch isSet), fun _ => ?_⟩
    obtain ⟨nothing, left⟩ := inductionHypothesis.2 rfl
    rw [← List.singleton_append, writesOf_append, writesOf_delete, nothing]
    refine ⟨rfl, ?_⟩
    rw [txn_records_cons] at left
    by_cases same : key = entryKey
    · rw [same, Function.update_self] at left
      rw [same]
      exact Or.inr (left.elim id id)
    · rw [Function.update_of_ne same] at left
      exact left

/-- The events of an operation that counts tell what it does at a key. -/
theorem narrated_of_performed (lawful : deps.Lawful) (counting : counts) {before after : Store}
    (performed : Performed deps 0 counts type entryKeys before after) (key : Bytes) :
    Narrated deps key before after := by
  rcases performed with rfl | ⟨txn, events, staged, rfl⟩
  · exact narrated_refl deps key _
  · refine ⟨events, rfl, ?_⟩
    rw [commit_records deps before txn _ staged.snapshot]
    obtain ⟨sets, deletes⟩ := staged.tells lawful counting key
    cases type with
    | set => exact Or.inl (sets rfl)
    | delete =>
      obtain ⟨nothing, left⟩ := deletes rfl
      rw [nothing]
      rcases left with same | gone
      · rw [same]
        exact Or.inl (.refl _)
      · exact Or.inr ⟨rfl, gone⟩

end

end ConsensusDB
