/-
This file is about the versions a replicated run stores. Applying an entry
leaves a record as it was, removes it, or stamps it with the index of the
entry, so along a log of increasing indices a version names the entry that
last wrote the record and is below every index still to come.

A conditional put that succeeds therefore uses up the version it names: the
record carries a newer one from then on. Only removals and reclaims take a
record away, so a creation that succeeds twice has one of them in between.
-/

import ConsensusDB.Restart

namespace ConsensusDB

open Wire

/-! ### What an entry does to a record -/

/-- The command takes records away. -/
def Command.deletes : Command → Bool
  | .remove _ => true
  | .reclaim _ => true
  | _ => false

/-- The operation leaves a record where there was one. -/
def CellOp.keeps : CellOp → Bool
  | .remove => false
  | .reclaim _ => false
  | _ => true

theorem act_keeps (step : IndexedOp) (cell : Option StoredRecord) (keeps : step.op.keeps)
    (present : cell ≠ none) : step.act cell ≠ none := by
  obtain ⟨index, op⟩ := step
  cases op with
  | put expected value expiresAt userMeta =>
    cases expected with
    | none => exact Option.some_ne_none _
    | some expected =>
      by_cases passes : expected = cellVersion cell
      · simp only [IndexedOp.act, if_pos passes]
        exact Option.some_ne_none _
      · simp only [IndexedOp.act, if_neg passes]
        exact present
  | touch expiresAt =>
    obtain ⟨old, rfl⟩ := Option.ne_none_iff_exists'.mp present
    exact Option.some_ne_none _
  | remove => cases keeps
  | increment initial delta expiresAt => exact Option.some_ne_none _
  | reclaim version => cases keeps

theorem runOps_keeps (index : UInt64) (ops : List CellOp) (keeps : ∀ op ∈ ops, op.keeps)
    (cell : Option StoredRecord) (present : cell ≠ none) : runOps index ops cell ≠ none := by
  induction ops generalizing cell with
  | nil => exact present
  | cons op rest inductionHypothesis =>
    exact inductionHypothesis (fun later member => keeps later (List.mem_cons_of_mem _ member)) _
      (act_keeps ⟨index, op⟩ cell (keeps op List.mem_cons_self) present)

theorem mem_operationAt (deps : Deps) (requested : Option Key) (key : Bytes) (op found : CellOp)
    (member : found ∈ operationAt deps requested key op) : found = op := by
  cases requested with
  | none => cases member
  | some requested =>
    rw [operationAt] at member
    split at member
    · exact List.mem_singleton.mp member
    · cases member

/-- A command that does not delete keeps every record. -/
theorem operations_keep (deps : Deps) (now : Int64) (key : Bytes) (command : Command)
    (keeps : ¬ command.deletes) : ∀ op ∈ command.operations deps now key, op.keeps := by
  intro op member
  cases command with
  | put request =>
    rw [mem_operationAt deps request.key key _ op member]
    rfl
  | touch request =>
    rw [mem_operationAt deps request.key key _ op member]
    rfl
  | remove request => exact absurd rfl keeps
  | increment request =>
    rw [mem_operationAt deps request.key key _ op member]
    rfl
  | batch request =>
    rw [Command.operations] at member
    split at member
    · obtain ⟨record, _, inRecord⟩ := List.mem_flatMap.mp member
      rw [mem_operationAt deps record.key key _ op inRecord]
      rfl
    · cases member
  | reclaim request => exact absurd rfl keeps

section

variable (deps : Deps) (lawful : deps.Lawful) (now : Int64)

/-- Running an entry removes a record, leaves it, or stamps it with the index of the entry. -/
theorem runEntry_outcome (records : Records) (valid : records.Valid) (entry : Entry)
    (indexed : entry.index ≠ 0) (key : Bytes) :
    (records.runEntry deps now entry).2 key = none ∨
      (records.runEntry deps now entry).2 key = records key ∨
      ∃ record, (records.runEntry deps now entry).2 key = some record ∧
        record.version = entry.index := by
  unfold Records.runEntry
  cases decodeCommand deps entry.data with
  | error err => exact Or.inr (Or.inl rfl)
  | ok command =>
    show (records.runCommand deps now entry.index command).2 key = none ∨ _
    simp only [runCommand_cell deps now entry.index indexed key records valid, runOps]
    rcases run_outcome ((command.operations deps now key).map (IndexedOp.mk entry.index))
      (records key) with gone | same | ⟨record, stamped, step, member, version⟩
    · exact Or.inl gone
    · exact Or.inr (Or.inl same)
    · obtain ⟨op, _, rfl⟩ := List.mem_map.mp member
      exact Or.inr (Or.inr ⟨record, stamped, version⟩)

theorem valid_advanceChain (replica : Replica) (valid : replica.records.Valid) (entry : Entry) :
    (replica.advanceChain deps now entry).records.Valid :=
  valid_storeHead deps _ valid _ _

include lawful in
/-- The record an entry finds when its own command runs: the stored one, and at the head key the
head it has just persisted. -/
theorem advanced_record (replica : Replica) (entry : Entry) (indexed : entry.index ≠ 0)
    (key : Bytes) :
    (key ≠ headEntryKey deps ∧
        (replica.advanceChain deps now entry).records key = replica.records key) ∨
      (key = headEntryKey deps ∧
        ∃ record, (replica.advanceChain deps now entry).records key = some record ∧
          record.version = entry.index) := by
  by_cases head : key = headEntryKey deps
  · refine Or.inr ⟨head, headRecordOf deps ((replica.ensureChain deps now).fold entry) entry.index,
      ?_, rfl⟩
    show replica.records.storeHead deps _ entry.index key = _
    rw [storeHead_eq deps lawful _ _ _ indexed, head, Function.update_self]
  · exact Or.inl ⟨head, storeHead_of_ne deps _ _ _ key head⟩

include lawful in
/-- Applying an entry removes a record, leaves it, or stamps it with the index of the entry. -/
theorem apply_outcome (replica : Replica) (valid : replica.records.Valid) (entry : Entry)
    (indexed : entry.index ≠ 0) (key : Bytes) :
    (replica.apply deps now entry).2.records key = none ∨
      (replica.apply deps now entry).2.records key = replica.records key ∨
      ∃ record, (replica.apply deps now entry).2.records key = some record ∧
        record.version = entry.index := by
  rcases runEntry_outcome deps now _ (valid_advanceChain deps now replica valid entry) entry indexed
      key with
    gone | same | stamped
  · exact Or.inl gone
  · rcases advanced_record deps lawful now replica entry indexed key with
      ⟨_, unchanged⟩ | ⟨_, record, isHead, version⟩
    · exact Or.inr (Or.inl (same.trans unchanged))
    · exact Or.inr (Or.inr ⟨record, same.trans isHead, version⟩)
  · exact Or.inr (Or.inr stamped)

include lawful in
/-- An entry that takes a record away is a removal or a reclaim. -/
theorem apply_removes (replica : Replica) (valid : replica.records.Valid) (entry : Entry)
    (indexed : entry.index ≠ 0) (key : Bytes) (present : replica.records key ≠ none)
    (removed : (replica.apply deps now entry).2.records key = none) :
    ∃ command, decodeCommand deps entry.data = .ok command ∧ command.deletes := by
  have advancedPresent : (replica.advanceChain deps now entry).records key ≠ none := by
    rcases advanced_record deps lawful now replica entry indexed key with
      ⟨_, unchanged⟩ | ⟨_, record, isHead, _⟩
    · rw [unchanged]
      exact present
    · rw [isHead]
      exact Option.some_ne_none record
  have ran : ((replica.advanceChain deps now entry).records.runEntry deps now entry).2 key = none :=
    removed
  unfold Records.runEntry at ran
  cases decoded : decodeCommand deps entry.data with
  | error err =>
    rw [decoded] at ran
    exact absurd ran advancedPresent
  | ok command =>
    rw [decoded] at ran
    refine ⟨command, rfl, ?_⟩
    by_contra keeps
    have cell := runCommand_cell deps now entry.index indexed key _
      (valid_advanceChain deps now replica valid entry) command
    exact runOps_keeps entry.index _ (operations_keep deps now key command keeps) _ advancedPresent
      (cell.symm.trans ran)

/-! ### What a run does to a record -/

include lawful in
/-- A run removes a record, leaves it, or stamps it with the index of one of its entries. -/
theorem run_stored (deliveries : List (Int64 × Entry)) (replica : Replica)
    (valid : replica.records.Valid) (indexed : ∀ delivery ∈ deliveries, delivery.2.index ≠ 0)
    (key : Bytes) :
    (replica.run deps deliveries).records key = none ∨
      (replica.run deps deliveries).records key = replica.records key ∨
      ∃ record, (replica.run deps deliveries).records key = some record ∧
        ∃ delivery ∈ deliveries, record.version = delivery.2.index := by
  induction deliveries generalizing replica with
  | nil => exact Or.inr (Or.inl rfl)
  | cons delivery rest inductionHypothesis =>
    obtain ⟨now, entry⟩ := delivery
    have entryIndexed : entry.index ≠ 0 := indexed (now, entry) List.mem_cons_self
    rw [Replica.run_cons]
    rcases inductionHypothesis _ (valid_apply deps now replica valid entry entryIndexed)
        (fun later member => indexed later (List.mem_cons_of_mem _ member)) with
      gone | same | ⟨record, stamped, later, member, version⟩
    · exact Or.inl gone
    · rw [same]
      rcases apply_outcome deps lawful now replica valid entry entryIndexed key with
        gone | unchanged | ⟨record, stamped, version⟩
      · exact Or.inl gone
      · exact Or.inr (Or.inl unchanged)
      · exact Or.inr (Or.inr ⟨record, stamped, (now, entry), List.mem_cons_self, version⟩)
    · exact Or.inr (Or.inr ⟨record, stamped, later, List.mem_cons_of_mem _ member, version⟩)

end

theorem IsLog.indexed {deliveries : List (Int64 × Entry)} (log : IsLog (deliveries.map Prod.snd)) :
    ∀ delivery ∈ deliveries, delivery.2.index ≠ 0 := by
  intro delivery member
  have positive := log.positive delivery.2 (List.mem_map_of_mem member)
  grind

theorem IsLog.front {front back : List (Int64 × Entry)}
    (log : IsLog ((front ++ back).map Prod.snd)) : IsLog (front.map Prod.snd) := by
  rw [List.map_append] at log
  exact log.append_left

/-- The records of a node that starts on an empty data directory and applies entries. -/
def recordsAfter (deps : Deps) (started : Int64) (deliveries : List (Int64 × Entry)) : Records :=
  ((Fsm.fresh deps (Env.healthy started)).run deps deliveries).store.records deps

/-- The entry is the one that last wrote the record a key holds after the deliveries: applying it
stored the record, which was not there before, and no later entry changed it. -/
def LastWrote (deps : Deps) (started : Int64) (deliveries : List (Int64 × Entry)) (key : Bytes)
    (record : StoredRecord) (entry : Entry) : Prop :=
  ∃ early now late, deliveries = early ++ (now, entry) :: late ∧
    recordsAfter deps started early key ≠ some record ∧
    ∀ middle rest, late = middle ++ rest →
      recordsAfter deps started (early ++ (now, entry) :: middle) key = some record

/-- A conditional put on a key, naming a version, that is applied after the deliveries and reports
an update. -/
structure CasUpdated (deps : Deps) (started : Int64) (deliveries : List (Int64 × Entry))
    (now : Int64) (entry : Entry) (entryKey : Bytes) (version : UInt64) : Prop where
  conditional : ∃ request key, decodeCommand deps entry.data = .ok (.put request) ∧
    request.key = some key ∧ (encodeKey deps key).1 = entryKey ∧ request.compareAndSet = true ∧
    request.version = version
  updated : (((Fsm.fresh deps (Env.healthy started)).run deps deliveries).apply deps
    (Env.healthy now) entry).1.status = some ⟨true⟩

section

variable (deps : Deps) (lawful : deps.Lawful) (started : Int64)

include lawful in
theorem recordsAfter_eq (deliveries : List (Int64 × Entry)) :
    recordsAfter deps started deliveries = (Replica.fresh.run deps deliveries).records :=
  congrArg Replica.records (fresh_run_replica deps lawful started deliveries)

include lawful in
/-- A stored version is the index of one of the applied entries. -/
theorem version_of_stored (deliveries : List (Int64 × Entry))
    (log : IsLog (deliveries.map Prod.snd))
    (key : Bytes) (record : StoredRecord)
    (stored : (Replica.fresh.run deps deliveries).records key = some record) :
    ∃ delivery ∈ deliveries, record.version = delivery.2.index := by
  rcases run_stored deps lawful deliveries Replica.fresh valid_fresh log.indexed key with
    gone | same | ⟨found, stamped, delivery, member, version⟩
  · rw [gone] at stored
    cases stored
  · rw [same] at stored
    cases stored
  · obtain rfl := Option.some.inj (stamped.symm.trans stored)
    exact ⟨delivery, member, version⟩

include lawful in
/-- A stored version is below the index of every entry still to come. -/
theorem version_lt_of_stored (front back : List (Int64 × Entry))
    (log : IsLog ((front ++ back).map Prod.snd)) (key : Bytes) (record : StoredRecord)
    (stored : (Replica.fresh.run deps front).records key = some record) (later : Int64 × Entry)
    (member : later ∈ back) : record.version < later.2.index := by
  rw [List.map_append] at log
  obtain ⟨delivery, inFront, version⟩ :=
    version_of_stored deps lawful front log.append_left key record stored
  rw [version]
  exact log.lt_of_mem (List.mem_map_of_mem inFront) (List.mem_map_of_mem member)

include lawful in
/-- A stored record has a last writer, and its version is the index of that entry. -/
theorem lastWrote_of_stored (deliveries : List (Int64 × Entry))
    (log : IsLog (deliveries.map Prod.snd)) (key : Bytes) (record : StoredRecord)
    (stored : recordsAfter deps started deliveries key = some record) :
    ∃ entry, LastWrote deps started deliveries key record entry ∧
      record.version = entry.index := by
  induction deliveries using List.reverseRecOn with
  | nil =>
    rw [recordsAfter_eq deps lawful] at stored
    cases stored
  | append_singleton front delivery inductionHypothesis =>
    obtain ⟨now, entry⟩ := delivery
    have frontLog : IsLog (front.map Prod.snd) := log.front
    have frontValid := valid_run deps front Replica.fresh valid_fresh frontLog.indexed
    have stepped : recordsAfter deps started (front ++ [(now, entry)]) key =
        ((Replica.fresh.run deps front).apply deps now entry).2.records key := by
      rw [recordsAfter_eq deps lawful, Replica.run_append]
      rfl
    rcases apply_outcome deps lawful now (Replica.fresh.run deps front) frontValid entry
      (log.indexed (now, entry) (by simp)) key with gone | same | ⟨found, stamped, version⟩
    · rw [stepped, gone] at stored
      cases stored
    · rw [← recordsAfter_eq deps lawful started] at same
      obtain ⟨writer, ⟨early, before, late, split, absent, kept⟩, version⟩ :=
        inductionHypothesis frontLog (same.symm.trans (stepped.symm.trans stored))
      refine ⟨writer, ⟨early, before, late ++ [(now, entry)], ?_, absent, ?_⟩, version⟩
      · rw [split, List.append_assoc]
        rfl
      · intro middle rest regrouped
        rcases List.eq_nil_or_concat' rest with rfl | ⟨others, last, rfl⟩
        · rw [List.append_nil] at regrouped
          rw [← regrouped, ← List.cons_append, ← List.append_assoc, ← split]
          exact stored
        · rw [← List.append_assoc] at regrouped
          exact kept middle others (List.append_inj_left' regrouped rfl)
    · obtain rfl := Option.some.inj (stamped.symm.trans (stepped.symm.trans stored))
      refine ⟨entry, ⟨front, now, [], rfl, ?_, ?_⟩, version⟩
      · intro already
        rw [recordsAfter_eq deps lawful] at already
        have below := version_lt_of_stored deps lawful front [(now, entry)] log key found already
          (now, entry) List.mem_cons_self
        rw [version] at below
        exact absurd below (UInt64.lt_irrefl _)
      · intro middle rest regrouped
        obtain ⟨rfl, rfl⟩ := List.append_eq_nil_iff.mp regrouped.symm
        exact stored

/-! ### Conditional puts -/

theorem ofStatus_updated (outcome : Except Err Status)
    (updated : (FsmResult.ofStatus outcome).status = some ⟨true⟩) : outcome = .ok ⟨true⟩ := by
  cases outcome with
  | error err => cases updated
  | ok status => exact congrArg Except.ok (Option.some.inj updated)

/-- A conditional put that reports an update found the version it names. -/
theorem put_updated (now : Int64) (index : UInt64) (records : Records) (request : RecordRequest)
    (key : Key) (requested : request.key = some key) (conditional : request.compareAndSet = true)
    (updated : (records.put deps now request index).1 = .ok ⟨true⟩) :
    request.version = cellVersion (records (encodeKey deps key).1) ∧
      ∃ record, (records.put deps now request index).2 (encodeKey deps key).1 = some record ∧
        record.version = nextVersion index (records.versionAt (encodeKey deps key).1) := by
  unfold Records.put at updated ⊢
  simp only [requested] at updated ⊢
  by_cases refused : casRefuses request
      ((records (encodeKey deps key).1).map StoredRecord.version) = true
  · rw [if_pos refused] at updated
    cases updated
  · rw [if_neg refused] at updated ⊢
    unfold Records.write at updated ⊢
    cases accepted : refuseKey (encodeKey deps key).1 with
    | some err =>
      rw [accepted] at updated
      cases updated
    | none =>
      refine ⟨?_, ?_⟩
      · rw [casRefuses, conditional, Bool.true_and] at refused
        exact not_not.mp fun other => refused (bne_iff_ne.mpr other)
      · simp only [Function.update_self]
        exact ⟨_, rfl, rfl⟩

include lawful in
/-- A conditional put that reports an update names the version of the stored record, or at the head
key its own index, and leaves a record with its own index as version. -/
theorem cas_of_updated (deliveries : List (Int64 × Entry)) (now : Int64) (entry : Entry)
    (log : IsLog ((deliveries ++ [(now, entry)]).map Prod.snd)) (entryKey : Bytes)
    (version : UInt64) (cas : CasUpdated deps started deliveries now entry entryKey version) :
    ((entryKey ≠ headEntryKey deps ∧
          version = cellVersion ((Replica.fresh.run deps deliveries).records entryKey)) ∨
        (entryKey = headEntryKey deps ∧ version = entry.index)) ∧
      ∃ record, (Replica.fresh.run deps (deliveries ++ [(now, entry)])).records entryKey =
        some record ∧ record.version = entry.index := by
  obtain ⟨⟨request, key, decoded, requested, rfl, conditional, rfl⟩, updated⟩ := cas
  have frontLog : IsLog (deliveries.map Prod.snd) := log.front
  have indexed : entry.index ≠ 0 := log.indexed (now, entry) (by simp)
  have valid := valid_run deps deliveries Replica.fresh valid_fresh frontLog.indexed
  rw [apply_result deps lawful, fresh_run_replica deps lawful] at updated
  have appended : Replica.fresh.run deps (deliveries ++ [(now, entry)]) =
      ((Replica.fresh.run deps deliveries).apply deps now entry).2 := Replica.run_append deps _ _ _
  rw [appended]
  generalize Replica.fresh.run deps deliveries = replica at valid updated ⊢
  have ran : (replica.apply deps now entry).1 = FsmResult.ofStatus
        ((replica.advanceChain deps now entry).records.put deps now request entry.index).1 ∧
      (replica.apply deps now entry).2.records =
        ((replica.advanceChain deps now entry).records.put deps now request entry.index).2 := by
    unfold Replica.apply Records.runEntry
    simp only [decoded]
    exact ⟨rfl, rfl⟩
  rw [ran.1] at updated
  obtain ⟨named, record, stored, version⟩ := put_updated deps now entry.index _ request key
    requested conditional (ofStatus_updated _ updated)
  rw [← ran.2] at stored
  rw [nextVersion_index entry.index _ indexed] at version
  refine ⟨?_, record, stored, version⟩
  rcases advanced_record deps lawful now replica entry indexed (encodeKey deps key).1 with
    ⟨other, unchanged⟩ | ⟨head, persisted, isHead, ownIndex⟩
  · rw [unchanged] at named
    exact Or.inl ⟨other, named⟩
  · rw [isHead] at named
    exact Or.inr ⟨head, named.trans ownIndex⟩

theorem stored_of_cellVersion {cell : Option StoredRecord} {version : UInt64}
    (positive : 0 < version) (named : version = cellVersion cell) :
    ∃ record, cell = some record ∧ record.version = version := by
  cases cell with
  | none =>
    rw [named] at positive
    exact absurd positive (UInt64.lt_irrefl _)
  | some record => exact ⟨record, rfl, named.symm⟩

section

variable (front middle back : List (Int64 × Entry)) (now later : Int64) (entry other : Entry)
  (log : IsLog ((front ++ (now, entry) :: middle ++ (later, other) :: back).map Prod.snd))
  (key : Bytes)

include log in
/-- The log up to the second of two entries. -/
theorem log_upto_second :
    IsLog (((front ++ (now, entry) :: middle) ++ [(later, other)]).map Prod.snd) := by
  have regrouped : (front ++ (now, entry) :: middle ++ (later, other) :: back).map Prod.snd =
      ((front ++ (now, entry) :: middle) ++ [(later, other)]).map Prod.snd ++
        back.map Prod.snd := by
    rw [← List.map_append, List.append_assoc _ [(later, other)]]
    rfl
  rw [regrouped] at log
  exact log.append_left

include log in
/-- The log up to the first of two entries. -/
theorem log_upto_first : IsLog ((front ++ [(now, entry)]).map Prod.snd) := by
  have upto := log_upto_second front middle back now later entry other log
  have regrouped : ((front ++ (now, entry) :: middle) ++ [(later, other)]).map Prod.snd =
      (front ++ [(now, entry)]).map Prod.snd ++ (middle ++ [(later, other)]).map Prod.snd := by
    rw [← List.map_append]
    simp
  rw [regrouped] at upto
  exact upto.append_left

theorem run_between :
    Replica.fresh.run deps (front ++ (now, entry) :: middle) =
      (Replica.fresh.run deps (front ++ [(now, entry)])).run deps middle := by
  rw [← Replica.run_append, List.append_assoc]
  rfl

include lawful log in
/-- A version is used up by the conditional put that names it. -/
theorem cas_used_up (version : UInt64) (positive : 0 < version)
    (first : CasUpdated deps started front now entry key version)
    (second : CasUpdated deps started (front ++ (now, entry) :: middle) later other key version) :
    False := by
  have firstLog := log_upto_first front middle back now later entry other log
  have secondLog := log_upto_second front middle back now later entry other log
  have order : entry.index < other.index := by
    rw [List.map_append] at secondLog
    exact secondLog.lt_of_mem (List.mem_map.mpr ⟨(now, entry), by simp, rfl⟩)
      (List.mem_map.mpr ⟨(later, other), by simp, rfl⟩)
  obtain ⟨firstNamed, left, firstStored, leftVersion⟩ :=
    cas_of_updated deps lawful started front now entry firstLog key version first
  obtain ⟨secondNamed, _⟩ := cas_of_updated deps lawful started _ later other secondLog key version
    second
  rcases firstNamed with ⟨otherKey, firstNamed⟩ | ⟨head, firstNamed⟩
  · rcases secondNamed with ⟨_, secondNamed⟩ | ⟨head, _⟩
    · obtain ⟨old, oldStored, oldVersion⟩ := stored_of_cellVersion positive firstNamed
      obtain ⟨found, foundStored, foundVersion⟩ := stored_of_cellVersion positive secondNamed
      have older := version_lt_of_stored deps lawful front [(now, entry)] firstLog key old oldStored
        (now, entry) List.mem_cons_self
      have valid := valid_run deps _ Replica.fresh valid_fresh firstLog.indexed
      have middleIndexed : ∀ delivery ∈ middle, delivery.2.index ≠ 0 :=
        fun delivery member => secondLog.indexed delivery (by simp [member])
      rw [run_between deps] at foundStored
      rcases run_stored deps lawful middle _ valid middleIndexed key with
        gone | same | ⟨record, stamped, delivery, member, recordVersion⟩
      · rw [gone] at foundStored
        cases foundStored
      · rw [same, firstStored] at foundStored
        obtain rfl := Option.some.inj foundStored
        grind
      · obtain rfl := Option.some.inj (stamped.symm.trans foundStored)
        have newer : entry.index < delivery.2.index := by
          rw [List.append_assoc, List.map_append] at secondLog
          have tail := secondLog.append_right
          exact tail.head_lt (List.mem_map_of_mem (List.mem_append_left _ member))
        grind
    · exact absurd head otherKey
  · rcases secondNamed with ⟨otherKey, _⟩ | ⟨_, secondNamed⟩
    · exact absurd head otherKey
    · grind

include lawful log in
/-- Between two creations of a key that succeed, a removal or a reclaim took the record away. -/
theorem removed_between (first : CasUpdated deps started front now entry key 0)
    (second : CasUpdated deps started (front ++ (now, entry) :: middle) later other key 0) :
    ∃ before removed removal after, middle = before ++ (removed, removal) :: after ∧
      (∃ command, decodeCommand deps removal.data = .ok command ∧ command.deletes) ∧
      recordsAfter deps started (front ++ (now, entry) :: before) key ≠ none ∧
      recordsAfter deps started (front ++ (now, entry) :: before ++ [(removed, removal)]) key =
        none := by
  have firstLog := log_upto_first front middle back now later entry other log
  have secondLog := log_upto_second front middle back now later entry other log
  obtain ⟨_, left, firstStored, _⟩ :=
    cas_of_updated deps lawful started front now entry firstLog key 0 first
  obtain ⟨secondNamed, _⟩ := cas_of_updated deps lawful started _ later other secondLog key 0 second
  have absent : (Replica.fresh.run deps (front ++ (now, entry) :: middle)).records key = none := by
    rcases secondNamed with ⟨_, named⟩ | ⟨_, named⟩
    · cases found : (Replica.fresh.run deps (front ++ (now, entry) :: middle)).records key with
      | none => rfl
      | some record =>
        have upto : IsLog ((front ++ (now, entry) :: middle).map Prod.snd) := by
          rw [List.map_append] at secondLog
          exact secondLog.append_left
        obtain ⟨delivery, member, version⟩ := version_of_stored deps lawful _ upto key record found
        rw [found] at named
        exact absurd (version.symm.trans named.symm) (upto.indexed delivery member)
    · exact absurd named.symm (secondLog.indexed (later, other) (by simp))
  rw [run_between deps] at absent
  obtain ⟨before, ⟨removed, removal⟩, after, split, present, lost⟩ :=
    Replay.exists_lost (fun (delivery : Int64 × Entry) (replica : Replica) =>
        (replica.apply deps delivery.1 delivery.2).2)
      (fun replica => replica.records key ≠ none) middle
      (Replica.fresh.run deps (front ++ [(now, entry)]))
      (by rw [firstStored]; exact Option.some_ne_none _) (not_not_intro absent)
  have indexed (delivery : Int64 × Entry) (member : delivery ∈ middle) : delivery.2.index ≠ 0 :=
    secondLog.indexed delivery (by simp [member])
  have valid : ((Replica.fresh.run deps (front ++ [(now, entry)])).run deps before).records.Valid :=
    valid_run deps before _ (valid_run deps _ Replica.fresh valid_fresh firstLog.indexed)
      fun delivery member => indexed delivery (by rw [split]; exact List.mem_append_left _ member)
  refine ⟨before, removed, removal, after, split, ?_, ?_, ?_⟩
  · exact apply_removes deps lawful removed _ valid removal
      (indexed (removed, removal) (by rw [split]; simp)) key present (not_not.mp lost)
  · rw [recordsAfter_eq deps lawful, run_between deps]
    exact present
  · rw [recordsAfter_eq deps lawful, Replica.run_append, run_between deps]
    exact not_not.mp lost

end

include lawful in
/-- Along a log of increasing indices, the version of a stored record is the index of the entry
that last wrote it and is below every later index. So at most one conditional put that names a
version above zero reports an update at a key, and between two creations that do, a removal or a
reclaim took the record away. -/
theorem versions_follow_log (deliveries : List (Int64 × Entry))
    (log : IsLog (deliveries.map Prod.snd)) (key : Bytes) :
    (∀ front back, deliveries = front ++ back → ∀ record,
        recordsAfter deps started front key = some record →
        (∃ entry, LastWrote deps started front key record entry ∧ record.version = entry.index) ∧
          ∀ later ∈ back, record.version < later.2.index) ∧
      ∀ front now entry middle later other back,
        deliveries = front ++ (now, entry) :: middle ++ (later, other) :: back →
        (∀ version, 0 < version → CasUpdated deps started front now entry key version →
            ¬ CasUpdated deps started (front ++ (now, entry) :: middle) later other key version) ∧
          (CasUpdated deps started front now entry key 0 →
            CasUpdated deps started (front ++ (now, entry) :: middle) later other key 0 →
            ∃ before removed removal after, middle = before ++ (removed, removal) :: after ∧
              (∃ command, decodeCommand deps removal.data = .ok command ∧ command.deletes) ∧
              recordsAfter deps started (front ++ (now, entry) :: before) key ≠ none ∧
              recordsAfter deps started (front ++ (now, entry) :: before ++ [(removed, removal)])
                key = none) := by
  refine ⟨?_, ?_⟩
  · rintro front back rfl record stored
    have frontLog : IsLog (front.map Prod.snd) := log.front
    refine ⟨lastWrote_of_stored deps lawful started front frontLog key record stored, ?_⟩
    rw [recordsAfter_eq deps lawful] at stored
    exact version_lt_of_stored deps lawful front back log key record stored
  · rintro front now entry middle later other back rfl
    exact ⟨cas_used_up deps lawful started front middle back now later entry other log key,
      removed_between deps lawful started front middle back now later entry other log key⟩

end

/-- A conditional put at an index that names version 1. -/
def racingPut (index : UInt64) (value : Bytes) : Entry :=
  Reference.entryOf index (.put
    { key := some Reference.sampleKey
      value := value
      compareAndSet := true
      version := 1 })

/-- The deliveries of the sample log. -/
def sampleDeliveries : List (Int64 × Entry) := Reference.sampleLog.map (Prod.mk 110)

/-- The first of two conditional puts that name the version of the sample put succeeds, so the
second does not. -/
theorem versions_follow_log_race :
    CasUpdated Reference.deps 0 sampleDeliveries 120 (racingPut 2 (str "2"))
        (encodeKey Reference.deps Reference.sampleKey).1 1 ∧
      ¬ CasUpdated Reference.deps 0 (sampleDeliveries ++ [(120, racingPut 2 (str "2"))]) 130
        (racingPut 3 (str "3")) (encodeKey Reference.deps Reference.sampleKey).1 1 := by
  have first : CasUpdated Reference.deps 0 sampleDeliveries 120 (racingPut 2 (str "2"))
      (encodeKey Reference.deps Reference.sampleKey).1 1 :=
    ⟨⟨_, Reference.sampleKey, Reference.decodeCommand_entryOf 2 _, rfl, rfl, rfl, rfl⟩,
      by decide +kernel⟩
  exact ⟨first, ((versions_follow_log Reference.deps Reference.lawful 0
    (sampleDeliveries ++ [(120, racingPut 2 (str "2")), (130, racingPut 3 (str "3"))])
    ⟨by decide, by decide⟩ (encodeKey Reference.deps Reference.sampleKey).1).2 sampleDeliveries 120
    _ [] 130 _ [] rfl).1 1 (by decide) first⟩

end ConsensusDB
