/-
This file looks at one record at a time. A command, applied at a log index,
acts on each stored record by a short list of operations -- conditional and
unconditional puts, touches, removals, increments, version-conditioned
deletions -- and by nothing else: what becomes of one record never depends on
another one. So a log acts on a record by the concatenation of its entries'
operations, with one exception, the record that holds the chain head, which
every entry overwrites before its own operations run.
-/

import ConsensusDB.Lib.Replay
import ConsensusDB.Service

namespace ConsensusDB

open Wire

/-! ### Operations on one record -/

/-- What a command does to one record. A put names the version it expects, zero for an absent
record, or none when it is unconditional. -/
inductive CellOp where
  | put (expected : Option UInt64) (value : Bytes) (expiresAt : Int64) (userMeta : UInt8)
  | touch (expiresAt : Int64)
  | remove
  | increment (initial delta expiresAt : Int64)
  | reclaim (version : UInt64)
  deriving DecidableEq, Repr

/-- An operation with the log index of its entry. -/
structure IndexedOp where
  index : UInt64
  op : CellOp
  deriving DecidableEq, Repr

/-- The version of a record that may be absent. -/
def cellVersion (cell : Option StoredRecord) : UInt64 := (cell.map StoredRecord.version).getD 0

def IndexedOp.act (step : IndexedOp) (cell : Option StoredRecord) : Option StoredRecord :=
  match step.op with
  | .put none value expiresAt userMeta => some ⟨value, step.index, expiresAt, userMeta⟩
  | .put (some expected) value expiresAt userMeta =>
    if expected = cellVersion cell then some ⟨value, step.index, expiresAt, userMeta⟩ else cell
  | .touch expiresAt =>
    cell.map fun old => { old with version := step.index, expiresAt := expiresAt }
  | .remove => none
  | .increment initial delta expiresAt =>
    some ⟨putUint64 (Records.counter initial cell + delta).toUInt64, step.index, expiresAt, 0⟩
  | .reclaim version => if cell.map StoredRecord.version = some version then none else cell

/-- The operation a request performs at a key: the one given, where the request addresses the
key and the engine accepts it. -/
def operationAt (deps : Deps) (requested : Option Key) (key : Bytes) (op : CellOp) : List CellOp :=
  match requested with
  | none => []
  | some requested =>
    if (encodeKey deps requested).1 = key ∧ refuseKey key = none then [op] else []

/-- The engine accepts the key of the record. -/
def acceptsRecord (deps : Deps) (request : RecordRequest) : Bool :=
  match request.key with
  | none => false
  | some key => refuseKey (encodeKey deps key).1 = none

def expectedVersion (request : RecordRequest) : Option UInt64 :=
  if request.compareAndSet then some request.version else none

def putOp (deps : Deps) (now : Int64) (expected : Option UInt64) (request : RecordRequest) :
    CellOp :=
  .put expected request.value (resolveExpiry deps now request.ttlSeconds request.expiresAt)
    request.metadata.toUInt32.toUInt8

/-- The operations of a command at a key. A batch with a record that is refused and a reclaim of
an empty key fail as a whole. -/
def Command.operations (deps : Deps) (now : Int64) (key : Bytes) : Command → List CellOp
  | .put request =>
    operationAt deps request.key key (putOp deps now (expectedVersion request) request)
  | .touch request =>
    operationAt deps request.key key
      (.touch (resolveExpiry deps now request.ttlSeconds request.expiresAt))
  | .remove request => operationAt deps request.key key .remove
  | .increment request =>
    operationAt deps request.key key (.increment request.initial request.delta
      (resolveExpiry deps now request.ttlSeconds request.expiresAt))
  | .batch request =>
    if request.records.all (acceptsRecord deps) then
      request.records.flatMap fun record =>
        operationAt deps record.key key (putOp deps now none record)
    else []
  | .reclaim request =>
    if request.entries.all fun entry => entry.entryKey ≠ [] then
      (request.entries.filter fun entry => entry.entryKey = key).map fun entry =>
        .reclaim entry.version
    else []

/-- Runs operations of one log index. -/
def runOps (index : UInt64) (ops : List CellOp) (cell : Option StoredRecord) :
    Option StoredRecord :=
  Replay.run IndexedOp.act (ops.map (IndexedOp.mk index)) cell

theorem runOps_append (index : UInt64) (first second : List CellOp) (cell : Option StoredRecord) :
    runOps index (first ++ second) cell = runOps index second (runOps index first cell) := by
  rw [runOps, List.map_append, Replay.run_append]
  rfl

/-! ### Commands act record by record -/

/-- The engine accepts every key that holds a record. -/
def Records.Valid (records : Records) : Prop := ∀ key, records key ≠ none → refuseKey key = none

theorem write_cell {Result : Type} (records : Records) (context : String) (target : Bytes)
    (record : Option StoredRecord) (result : Result) (key : Bytes) :
    (records.write context target record result).2 key =
      if target = key ∧ refuseKey key = none then record else records key := by
  unfold Records.write
  by_cases same : target = key
  · subst same
    cases accepted : refuseKey target with
    | some err => simp
    | none => simp
  · have other : key ≠ target := fun equal => same equal.symm
    cases refuseKey target with
    | some err => simp [same]
    | none => simp [same, Function.update_of_ne other]

theorem operationAt_cell (deps : Deps) (requested key : Bytes) (index : UInt64) (op : CellOp)
    (request : Key) (encoded : (encodeKey deps request).1 = requested)
    (cell : Option StoredRecord) :
    runOps index (operationAt deps (some request) key op) cell =
      if requested = key ∧ refuseKey key = none then IndexedOp.act ⟨index, op⟩ cell else cell := by
  rw [operationAt, encoded]
  split <;> rfl

theorem nextVersion_index (index old : UInt64) (indexed : index ≠ 0) :
    nextVersion index old = index :=
  if_neg indexed

section

variable (deps : Deps) (now : Int64) (index : UInt64) (indexed : index ≠ 0) (key : Bytes)

/-- The operation of a put is decided by the version it expects. -/
theorem act_putOp (request : RecordRequest) (cell : Option StoredRecord) :
    IndexedOp.act ⟨index, putOp deps now (expectedVersion request) request⟩ cell =
      if casRefuses request (cell.map StoredRecord.version) then cell
      else some (Records.putRecord deps now request index) := by
  unfold IndexedOp.act putOp expectedVersion casRefuses Records.putRecord
  by_cases conditional : request.compareAndSet = true
  · by_cases expected : request.version = cellVersion cell
    · have passes : ¬ (request.version != (cell.map StoredRecord.version).getD 0) = true := by
        rw [expected]
        simp [cellVersion]
      simp only [conditional, if_true, Bool.true_and, if_pos expected, if_neg passes]
    · have refuses : (request.version != (cell.map StoredRecord.version).getD 0) = true :=
        bne_iff_ne.mpr expected
      simp only [conditional, if_true, Bool.true_and, if_neg expected, if_pos refuses]
  · simp only [Bool.eq_false_iff.mpr conditional, Bool.false_and, Bool.false_eq_true, if_false]

include indexed in
theorem put_cell (records : Records) (request : RecordRequest) :
    (records.put deps now request index).2 key =
      runOps index
        (operationAt deps request.key key (putOp deps now (expectedVersion request) request))
        (records key) := by
  unfold Records.put
  cases request.key with
  | none => rfl
  | some requested =>
    simp only [operationAt_cell deps _ key index _ requested rfl, act_putOp]
    by_cases addressed : (encodeKey deps requested).1 = key ∧ refuseKey key = none
    · rw [if_pos addressed, addressed.1]
      split
      · rfl
      · rw [write_cell, if_pos ⟨rfl, addressed.2⟩, nextVersion_index index _ indexed]
    · rw [if_neg addressed]
      split
      · rfl
      · rw [write_cell, if_neg addressed]

include indexed in
theorem touch_cell (records : Records) (request : RecordRequest) :
    (records.touch deps now request index).2 key =
      runOps index
        (operationAt deps request.key key
          (.touch (resolveExpiry deps now request.ttlSeconds request.expiresAt)))
        (records key) := by
  unfold Records.touch
  cases request.key with
  | none => rfl
  | some requested =>
    simp only [operationAt_cell deps _ key index _ requested rfl]
    by_cases addressed : (encodeKey deps requested).1 = key ∧ refuseKey key = none
    · obtain ⟨same, accepted⟩ := addressed
      rw [if_pos ⟨same, accepted⟩, same]
      cases found : records key with
      | none => simp [IndexedOp.act, found]
      | some old =>
        simp only [write_cell, accepted, and_self, if_true, IndexedOp.act,
          nextVersion_index index _ indexed, Option.map_some]
    · rw [if_neg addressed]
      cases records (encodeKey deps requested).1 with
      | none => rfl
      | some old => simp only [write_cell, if_neg addressed]

theorem remove_cell (records : Records) (request : KeyRequest) :
    (records.remove deps request).2 key =
      runOps index (operationAt deps request.key key .remove) (records key) := by
  unfold Records.remove
  cases request.key with
  | none => rfl
  | some requested =>
    simp only [operationAt_cell deps _ key index _ requested rfl, write_cell, IndexedOp.act]

include indexed in
theorem increment_cell (records : Records) (request : IncrementRequest) :
    (records.increment deps now request index).2 key =
      runOps index
        (operationAt deps request.key key (.increment request.initial request.delta
          (resolveExpiry deps now request.ttlSeconds request.expiresAt)))
        (records key) := by
  unfold Records.increment
  cases request.key with
  | none => rfl
  | some requested =>
    simp only [operationAt_cell deps _ key index _ requested rfl, write_cell, IndexedOp.act,
      nextVersion_index index _ indexed]
    by_cases addressed : (encodeKey deps requested).1 = key ∧ refuseKey key = none
    · rw [if_pos addressed, if_pos addressed, addressed.1]
    · rw [if_neg addressed, if_neg addressed]

include indexed in
/-- A batch whose records are all accepted puts them one after another. -/
theorem batchRecords_cells (requests : List RecordRequest) (records : Records)
    (accepted : requests.all (acceptsRecord deps)) :
    ∃ final, records.batchRecords deps now index requests = .ok final ∧
      ∀ key, final key =
        runOps index (requests.flatMap fun request =>
          operationAt deps request.key key (putOp deps now none request)) (records key) := by
  induction requests generalizing records with
  | nil => exact ⟨records, rfl, fun _ => rfl⟩
  | cons request rest inductionHypothesis =>
    rw [List.all_cons, Bool.and_eq_true] at accepted
    obtain ⟨requestAccepted, restAccepted⟩ := accepted
    obtain ⟨requested, isRequested⟩ : ∃ requested, request.key = some requested := by
      cases isRequested : request.key with
      | none => simp [acceptsRecord, isRequested] at requestAccepted
      | some requested => exact ⟨requested, rfl⟩
    have keyAccepted : refuseKey (encodeKey deps requested).1 = none := by
      simpa [acceptsRecord, isRequested] using requestAccepted
    rw [Records.batchRecords]
    simp only [isRequested, keyAccepted, nextVersion_index index _ indexed]
    obtain ⟨final, ended, cells⟩ := inductionHypothesis
      (Function.update records (encodeKey deps requested).1
        (some (Records.putRecord deps now request index))) restAccepted
    refine ⟨final, ended, fun key => ?_⟩
    rw [cells key, List.flatMap_cons, runOps_append, isRequested,
      operationAt_cell deps _ key index _ requested rfl]
    congr 1
    by_cases same : (encodeKey deps requested).1 = key
    · rw [← same, Function.update_self, if_pos ⟨rfl, keyAccepted⟩]
      rfl
    · rw [Function.update_of_ne fun equal => same equal.symm, if_neg fun both => same both.1]

/-- A batch with a record that is not accepted fails. -/
theorem batchRecords_refused (requests : List RecordRequest) (records : Records)
    (refused : ¬ requests.all (acceptsRecord deps)) :
    ∃ err, records.batchRecords deps now index requests = .error err := by
  induction requests generalizing records with
  | nil => exact absurd rfl refused
  | cons request rest inductionHypothesis =>
    rw [Records.batchRecords]
    cases isRequested : request.key with
    | none => exact ⟨_, rfl⟩
    | some requested =>
      cases keyAccepted : refuseKey (encodeKey deps requested).1 with
      | some err =>
        simp only [keyAccepted]
        exact ⟨_, rfl⟩
      | none =>
        simp only [keyAccepted]
        refine inductionHypothesis _ fun restAccepted => refused ?_
        rw [List.all_cons, restAccepted, Bool.and_true]
        simpa [acceptsRecord, isRequested] using keyAccepted

theorem valid_update_none (records : Records) (valid : records.Valid) (target : Bytes) :
    Records.Valid (Function.update records target none) := by
  intro other present
  by_cases same : other = target
  · rw [same, Function.update_self] at present
    exact absurd rfl present
  · rw [Function.update_of_ne same] at present
    exact valid other present

/-- A reclaim without an empty key deletes where the listed version is the stored one. -/
theorem reclaimEntries_cells (entries : List ReclaimEntry) (records : Records)
    (valid : records.Valid) (nonempty : entries.all fun entry => entry.entryKey ≠ []) :
    ∃ removed final, records.reclaimEntries entries = .ok (removed, final) ∧
      ∀ key, final key =
        runOps index ((entries.filter fun entry => entry.entryKey = key).map fun entry =>
          .reclaim entry.version) (records key) := by
  induction entries generalizing records with
  | nil => exact ⟨0, records, rfl, fun _ => rfl⟩
  | cons entry rest inductionHypothesis =>
    rw [List.all_cons, Bool.and_eq_true] at nonempty
    obtain ⟨entryNonempty, restNonempty⟩ := nonempty
    have named : entry.entryKey ≠ [] := of_decide_eq_true entryNonempty
    have step (key : Bytes) (cell : Option StoredRecord) :
        runOps index (((entry :: rest).filter fun entry => entry.entryKey = key).map fun entry =>
            .reclaim entry.version) cell =
          runOps index ((rest.filter fun entry => entry.entryKey = key).map fun entry =>
            .reclaim entry.version)
            (if entry.entryKey = key then IndexedOp.act ⟨index, .reclaim entry.version⟩ cell
              else cell) := by
      by_cases same : entry.entryKey = key
      · simp only [List.filter_cons, same, decide_true, if_true]
        rfl
      · simp only [List.filter_cons, same, decide_false, Bool.false_eq_true, if_false]
    have skipped (unmatched : (records entry.entryKey).map StoredRecord.version ≠
        some entry.version) : ∃ removed final,
          records.reclaimEntries rest = .ok (removed, final) ∧ ∀ key, final key =
            runOps index (((entry :: rest).filter fun entry => entry.entryKey = key).map
              fun entry => .reclaim entry.version) (records key) := by
      obtain ⟨removed, final, ended, cells⟩ := inductionHypothesis records valid restNonempty
      refine ⟨removed, final, ended, fun key => ?_⟩
      rw [cells key, step key]
      by_cases same : entry.entryKey = key
      · subst same
        rw [if_pos rfl]
        simp only [IndexedOp.act, if_neg unmatched]
      · rw [if_neg same]
    rw [Records.reclaimEntries, if_neg named]
    cases found : records entry.entryKey with
    | none => exact skipped (by rw [found]; exact Option.some_ne_none _ |>.symm)
    | some old =>
      by_cases matching : old.version = entry.version
      · have accepted : refuseKey entry.entryKey = none :=
          valid entry.entryKey (by rw [found]; exact Option.some_ne_none old)
        obtain ⟨removed, final, ended, cells⟩ := inductionHypothesis _
          (valid_update_none records valid entry.entryKey) restNonempty
        simp only [ne_eq, matching, not_true_eq_false, if_false, accepted, ended]
        refine ⟨removed + 1, final, rfl, fun key => ?_⟩
        rw [cells key, step key]
        by_cases same : entry.entryKey = key
        · subst same
          rw [Function.update_self, if_pos rfl]
          simp only [IndexedOp.act, found, Option.map_some, matching, if_true]
        · rw [Function.update_of_ne fun equal => same equal.symm, if_neg same]
      · simp only [ne_eq, matching, not_false_eq_true, if_true]
        refine skipped ?_
        rw [found]
        exact fun equal => matching (Option.some_inj.mp equal)

/-- A reclaim of an empty key fails. -/
theorem reclaimEntries_refused (entries : List ReclaimEntry) (records : Records)
    (empty : ¬ entries.all fun entry => entry.entryKey ≠ []) :
    ∃ err, records.reclaimEntries entries = .error err := by
  induction entries generalizing records with
  | nil => exact absurd rfl empty
  | cons entry rest inductionHypothesis =>
    rw [Records.reclaimEntries]
    by_cases unnamed : entry.entryKey = []
    · exact ⟨_, if_pos unnamed⟩
    · have restEmpty : ¬ rest.all fun entry => entry.entryKey ≠ [] := by
        intro restNonempty
        refine empty ?_
        rw [List.all_cons, restNonempty, Bool.and_true]
        exact decide_eq_true unnamed
      rw [if_neg unnamed]
      split
      · exact inductionHypothesis records restEmpty
      · split
        · exact inductionHypothesis records restEmpty
        · split
          · exact ⟨_, rfl⟩
          · obtain ⟨err, failed⟩ := inductionHypothesis
              (Function.update records entry.entryKey none) restEmpty
            rw [failed]
            exact ⟨err, rfl⟩

include indexed in
/-- A command acts on each record by its own operations there. -/
theorem runCommand_cell (records : Records) (valid : records.Valid) (command : Command) :
    (records.runCommand deps now index command).2 key =
      runOps index (command.operations deps now key) (records key) := by
  cases command with
  | put request => exact put_cell deps now index indexed key records request
  | touch request => exact touch_cell deps now index indexed key records request
  | remove request => exact remove_cell deps index key records request
  | increment request => exact increment_cell deps now index indexed key records request
  | batch request =>
    show (records.setBatch deps now request index).2 key = _
    rw [Records.setBatch, Command.operations]
    by_cases accepted : request.records.all (acceptsRecord deps) = true
    · obtain ⟨final, ended, cells⟩ :=
        batchRecords_cells deps now index indexed request.records records accepted
      rw [ended, if_pos accepted]
      exact cells key
    · obtain ⟨err, failed⟩ := batchRecords_refused deps now index request.records records accepted
      rw [failed, if_neg accepted]
      rfl
  | reclaim request =>
    show (records.reclaim request).2 key = _
    rw [Records.reclaim, Command.operations]
    by_cases nonempty : (request.entries.all fun entry => entry.entryKey ≠ []) = true
    · obtain ⟨removed, final, ended, cells⟩ :=
        reclaimEntries_cells index request.entries records valid nonempty
      rw [ended, if_pos nonempty]
      exact cells key
    · obtain ⟨err, failed⟩ := reclaimEntries_refused request.entries records nonempty
      rw [failed, if_neg nonempty]
      rfl

end

/-! ### Refused keys stay empty -/

theorem operationAt_refused (deps : Deps) (requested : Option Key) (key : Bytes) (op : CellOp)
    (refused : refuseKey key ≠ none) : operationAt deps requested key op = [] := by
  cases requested with
  | none => rfl
  | some requested => exact if_neg fun both => refused both.2

theorem operations_refused (deps : Deps) (now : Int64) (command : Command) (key : Bytes)
    (refused : refuseKey key ≠ none) (op : CellOp) (member : op ∈ command.operations deps now key) :
    ∃ version, op = .reclaim version := by
  cases command with
  | put request =>
    rw [Command.operations, operationAt_refused deps _ key _ refused] at member
    cases member
  | touch request =>
    rw [Command.operations, operationAt_refused deps _ key _ refused] at member
    cases member
  | remove request =>
    rw [Command.operations, operationAt_refused deps _ key _ refused] at member
    cases member
  | increment request =>
    rw [Command.operations, operationAt_refused deps _ key _ refused] at member
    cases member
  | batch request =>
    simp only [Command.operations, operationAt_refused deps _ key _ refused] at member
    split at member
    · simp at member
    · cases member
  | reclaim request =>
    rw [Command.operations] at member
    split at member
    · obtain ⟨entry, _, rfl⟩ := List.mem_map.mp member
      exact ⟨entry.version, rfl⟩
    · cases member

theorem runOps_reclaims_none (index : UInt64) (ops : List CellOp)
    (reclaims : ∀ op ∈ ops, ∃ version, op = .reclaim version) : runOps index ops none = none := by
  induction ops with
  | nil => rfl
  | cons op rest inductionHypothesis =>
    obtain ⟨version, rfl⟩ := reclaims op List.mem_cons_self
    exact inductionHypothesis fun later member => reclaims later (List.mem_cons_of_mem _ member)

theorem valid_runCommand (deps : Deps) (now : Int64) (index : UInt64) (indexed : index ≠ 0)
    (records : Records) (valid : records.Valid) (command : Command) :
    (records.runCommand deps now index command).2.Valid := by
  intro key present
  by_contra refused
  have empty : records key = none := by
    by_contra occupied
    exact refused (valid key occupied)
  refine present ?_
  rw [runCommand_cell deps now index indexed key records valid, empty]
  exact runOps_reclaims_none index _ (operations_refused deps now command key refused)

/-! ### Entries act record by record -/

/-- An entry of a committed log: routed, and with an index above zero. -/
structure Entry.Proper (deps : Deps) (entry : Entry) : Prop where
  routed : Routed deps entry.data
  indexed : entry.index ≠ 0

theorem Committed.proper {deps : Deps} {entries : List Entry} (committed : Committed deps entries)
    {entry : Entry} (member : entry ∈ entries) : entry.Proper deps where
  routed := committed.routed entry member
  indexed := by
    have positive := committed.positive entry member
    grind

theorem Committed.delivered {deps : Deps} {entries : List Entry}
    (committed : Committed deps entries) {deliveries : List (Int64 × Entry)} {part : List Entry}
    (isPart : deliveries.map Prod.snd = part) (known : part ⊆ entries) :
    ∀ delivery ∈ deliveries, delivery.2.Proper deps :=
  fun _ member => committed.proper (known (isPart ▸ List.mem_map_of_mem member))

/-- The operations of an entry at a key. A routed command does not read the clock, so any
reading will do. -/
def Entry.operations (deps : Deps) (key : Bytes) (entry : Entry) : List IndexedOp :=
  match decodeCommand deps entry.data with
  | .error _ => []
  | .ok command => (command.operations deps 0 key).map (IndexedOp.mk entry.index)

section

variable (deps : Deps) (lawful : deps.Lawful) (now : Int64)

include lawful in
theorem runEntry_cell (records : Records) (valid : records.Valid) (entry : Entry)
    (proper : entry.Proper deps) (key : Bytes) :
    (records.runEntry deps now entry).2 key =
      Replay.run IndexedOp.act (entry.operations deps key) (records key) := by
  rw [runEntry_routed deps lawful now 0 records entry proper.routed]
  unfold Records.runEntry Entry.operations
  cases decodeCommand deps entry.data with
  | error err => rfl
  | ok command => exact runCommand_cell deps 0 entry.index proper.indexed key records valid command

theorem valid_runEntry (records : Records) (valid : records.Valid) (entry : Entry)
    (indexed : entry.index ≠ 0) : (records.runEntry deps now entry).2.Valid := by
  unfold Records.runEntry
  cases decodeCommand deps entry.data with
  | error err => exact valid
  | ok command => exact valid_runCommand deps now entry.index indexed records valid command

/-- Persisting the head touches no other record. -/
theorem storeHead_of_ne (records : Records) (chain : HashChain) (commitVersion : UInt64)
    (key : Bytes) (other : key ≠ headEntryKey deps) :
    records.storeHead deps chain commitVersion key = records key := by
  unfold Records.storeHead
  cases packHead deps chain.index chain.digest with
  | error err => rfl
  | ok raw => exact Function.update_of_ne other _ _

theorem valid_storeHead (records : Records) (valid : records.Valid) (chain : HashChain)
    (commitVersion : UInt64) : (records.storeHead deps chain commitVersion).Valid := by
  intro key present
  by_cases same : key = headEntryKey deps
  · rw [same]
    exact refuseKey_headEntryKey deps
  · rw [storeHead_of_ne deps records chain commitVersion key same] at present
    exact valid key present

/-! ### Replicas act record by record -/

theorem apply_chain (replica : Replica) (entry : Entry) :
    (replica.apply deps now entry).2.chain =
      some ((replica.ensureChain deps now).fold entry) := rfl

theorem valid_apply (replica : Replica) (valid : replica.records.Valid) (entry : Entry)
    (indexed : entry.index ≠ 0) : (replica.apply deps now entry).2.records.Valid :=
  valid_runEntry deps now _ (valid_storeHead deps _ valid _ _) entry indexed

include lawful in
theorem apply_cell (replica : Replica) (valid : replica.records.Valid) (entry : Entry)
    (proper : entry.Proper deps) (key : Bytes) (other : key ≠ headEntryKey deps) :
    (replica.apply deps now entry).2.records key =
      Replay.run IndexedOp.act (entry.operations deps key) (replica.records key) := by
  show (Records.runEntry deps now (replica.records.storeHead deps _ entry.index) entry).2 key = _
  rw [runEntry_cell deps lawful now _ (valid_storeHead deps _ valid _ _) entry proper key,
    storeHead_of_ne deps _ _ _ key other]

include lawful in
/-- The head record after an entry: the new head, and then the entry's own operations on it. -/
theorem apply_head (replica : Replica) (valid : replica.records.Valid) (entry : Entry)
    (proper : entry.Proper deps) :
    (replica.apply deps now entry).2.records (headEntryKey deps) =
      Replay.run IndexedOp.act (entry.operations deps (headEntryKey deps))
        (some (headRecordOf deps ((replica.ensureChain deps now).fold entry) entry.index)) := by
  show (Records.runEntry deps now (replica.records.storeHead deps _ entry.index) entry).2 _ = _
  rw [runEntry_cell deps lawful now _ (valid_storeHead deps _ valid _ _) entry proper,
    storeHead_eq deps lawful _ _ _ proper.indexed, Function.update_self]

theorem valid_run (deliveries : List (Int64 × Entry)) (replica : Replica)
    (valid : replica.records.Valid)
    (indexed : ∀ delivery ∈ deliveries, delivery.2.index ≠ 0) :
    (replica.run deps deliveries).records.Valid := by
  induction deliveries generalizing replica with
  | nil => exact valid
  | cons delivery rest inductionHypothesis =>
    exact inductionHypothesis _
      (valid_apply deps delivery.1 replica valid delivery.2 (indexed delivery List.mem_cons_self))
      fun later member => indexed later (List.mem_cons_of_mem _ member)

/-- The operations a list of entries performs at a key. -/
def operationsOf (deps : Deps) (key : Bytes) (entries : List Entry) : List IndexedOp :=
  entries.flatMap (Entry.operations deps key)

include lawful in
/-- A run acts on each record but the head by the operations of its entries. -/
theorem run_cell (deliveries : List (Int64 × Entry)) (replica : Replica)
    (valid : replica.records.Valid)
    (proper : ∀ delivery ∈ deliveries, delivery.2.Proper deps) (key : Bytes)
    (other : key ≠ headEntryKey deps) :
    (replica.run deps deliveries).records key =
      Replay.run IndexedOp.act (operationsOf deps key (deliveries.map Prod.snd))
        (replica.records key) := by
  induction deliveries generalizing replica with
  | nil => rfl
  | cons delivery rest inductionHypothesis =>
    obtain ⟨now, entry⟩ := delivery
    have entryProper : entry.Proper deps := proper (now, entry) List.mem_cons_self
    have step := apply_cell deps lawful now replica valid entry entryProper key other
    rw [Replica.run_cons, inductionHypothesis _
      (valid_apply deps now replica valid entry entryProper.indexed)
      fun later member => proper later (List.mem_cons_of_mem _ member)]
    rw [step, ← Replay.run_append]
    rfl

include lawful in
/-- The head record after a run: the chain it ends with, and then the last entry's operations. -/
theorem run_head (replica : Replica) (valid : replica.records.Valid)
    (deliveries : List (Int64 × Entry))
    (proper : ∀ delivery ∈ deliveries, delivery.2.Proper deps) (last : Entry)
    (isLast : (deliveries.map Prod.snd).getLast? = some last) (chain : HashChain)
    (ended : (replica.run deps deliveries).chain = some chain) :
    (replica.run deps deliveries).records (headEntryKey deps) =
      Replay.run IndexedOp.act (last.operations deps (headEntryKey deps))
        (some (headRecordOf deps chain last.index)) := by
  rcases List.eq_nil_or_concat' deliveries with rfl | ⟨front, ⟨now, entry⟩, rfl⟩
  · cases isLast
  · obtain rfl : entry = last := by simpa using isLast
    have frontValid := valid_run deps front replica valid fun delivery member =>
      (proper delivery (List.mem_append_left _ member)).indexed
    rw [Replica.run_append, Replica.run_cons, Replica.run_nil] at ended ⊢
    rw [apply_chain] at ended
    rw [apply_head deps lawful now _ frontValid entry (proper (now, entry) (by simp)),
      Option.some_inj.mp ended]

/-- The clock reading at which an unseeded chain is seeded: that of the first entry, or that of
the question for the head when no entry comes before. -/
def seedClock (deliveries : List (Int64 × Entry)) (asked : Int64) : Int64 :=
  match deliveries with
  | [] => asked
  | (now, _) :: _ => now

/-- The chain a run ends with is the fold of its entries over the chain it starts from. -/
theorem run_ensureChain (deliveries : List (Int64 × Entry)) (replica : Replica) (asked : Int64) :
    (replica.run deps deliveries).ensureChain deps asked =
      (replica.ensureChain deps (seedClock deliveries asked)).foldAll
        (deliveries.map Prod.snd) := by
  induction deliveries generalizing replica with
  | nil => rfl
  | cons delivery rest inductionHypothesis =>
    obtain ⟨now, entry⟩ := delivery
    rw [Replica.run_cons, inductionHypothesis]
    rfl

/-- The chain of a run is the fold of its entries. -/
theorem run_chain (deliveries : List (Int64 × Entry)) (replica : Replica) (chain : HashChain)
    (seeded : replica.chain = some chain) :
    (replica.run deps deliveries).chain = some (chain.foldAll (deliveries.map Prod.snd)) := by
  induction deliveries generalizing replica chain with
  | nil => exact seeded
  | cons delivery rest inductionHypothesis =>
    obtain ⟨now, entry⟩ := delivery
    refine inductionHypothesis _ (chain.fold entry) ?_
    rw [apply_chain, Replica.ensureChain, seeded]
    rfl

end

end ConsensusDB
