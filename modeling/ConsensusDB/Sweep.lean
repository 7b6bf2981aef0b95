/-
This file is about the reclaimer of a replicated node. A leader looks for
expired records and proposes their removal, each under the version it had; the
proposal is applied after any number of other entries, on every replica.

A version names one write of the log. So a record that still carries the
version the leader saw is the very record it saw, on whichever replica the
removal is applied, and every other record is left alone.
-/

import ConsensusDB.Versions
import ConsensusDB.Capture

namespace ConsensusDB

open Wire

/-! ### What a sweep finds -/

theorem mem_expiredEntries (deps : Deps) (env : Env) (cancelled : Nat → Option Err) (limit : Int)
    (items : List (Bytes × Item)) (round : Nat) (found : List ReclaimEntry) (entry : ReclaimEntry)
    (member : entry ∈ (Storage.expiredEntries deps env cancelled limit round found items).1) :
    entry ∈ found ∨ ∃ item, (entry.entryKey, item) ∈ items ∧
      deps.isExpired env.now (storedRecord deps item).expiresAt ∧
      entry.version = (storedRecord deps item).version := by
  induction items generalizing round found with
  | nil => exact Or.inl member
  | cons first rest inductionHypothesis =>
    obtain ⟨itemKey, item⟩ := first
    have later (round : Nat) (found : List ReclaimEntry)
        (listed : entry ∈ (Storage.expiredEntries deps env cancelled limit round found rest).1) :
        entry ∈ found ∨ ∃ other, (entry.entryKey, other) ∈ (itemKey, item) :: rest ∧
          deps.isExpired env.now (storedRecord deps other).expiresAt ∧
          entry.version = (storedRecord deps other).version := by
      rcases inductionHypothesis round found listed with earlier | ⟨other, inRest, facts⟩
      · exact Or.inl earlier
      · exact Or.inr ⟨other, List.mem_cons_of_mem _ inRest, facts⟩
    rw [Storage.expiredEntries] at member
    cases stopped : cancelled round with
    | some err =>
      rw [stopped] at member
      exact Or.inl member
    | none =>
      rw [stopped] at member
      cases failed : env.fault (.copy round) with
      | some err =>
        simp only [Item.valueCopy, failed] at member
        exact later _ _ member
      | none =>
        simp only [Item.valueCopy, failed] at member
        by_cases expired : deps.isExpired env.now (deps.decodeEnvelope item.value).expiresAt = true
        · rw [if_pos expired] at member
          have added (listed : entry ∈ found ++
              [⟨itemKey, (deps.decodeEnvelope item.value).version.toUInt64⟩]) :
              entry ∈ found ∨ ∃ other, (entry.entryKey, other) ∈ (itemKey, item) :: rest ∧
                deps.isExpired env.now (storedRecord deps other).expiresAt ∧
                entry.version = (storedRecord deps other).version := by
            rcases List.mem_append.mp listed with earlier | last
            · exact Or.inl earlier
            · rw [List.mem_singleton.mp last]
              exact Or.inr ⟨item, List.mem_cons_self, expired, rfl⟩
          split at member
          · exact added member
          · rcases later _ _ member with listed | elsewhere
            · exact added listed
            · exact Or.inr elsewhere
        · rw [if_neg expired] at member
          exact later _ _ member

/-- What a sweep lists is stored, expired and carries the version listed. -/
theorem mem_scanExpired (deps : Deps) (env : Env) (store : Store) (cancelled : Nat → Option Err)
    (limit : Int) (entry : ReclaimEntry)
    (listed : entry ∈ (Storage.scanExpired deps env store cancelled limit).1) :
    ∃ record, store.records deps entry.entryKey = some record ∧
      deps.isExpired env.now record.expiresAt ∧ entry.version = record.version := by
  rcases mem_expiredEntries deps env cancelled limit store.entries 0 [] entry listed with
    impossible | ⟨item, member, expired, version⟩
  · cases impossible
  · refine ⟨storedRecord deps item, ?_, expired, version⟩
    rw [Store.records, (Mvcc.mem_entries keyOrder store.db entry.entryKey item).mp member]
    rfl

/-- What the reclaimer proposes is the removal of what its sweep lists. -/
theorem reclaimExpired_proposed (deps : Deps) (lawful : deps.Lawful) (env : Env) (node : Node)
    (cancelled : Nat → Option Err) (limit : Int) (data : Bytes)
    (proposed : (node.reclaimExpired deps env cancelled limit).1 = .proposed data) :
    decodeCommand deps data =
      .ok (.reclaim ⟨(Storage.scanExpired deps env node.fsm.store cancelled limit).1⟩) := by
  unfold Node.reclaimExpired at proposed
  split at proposed
  · cases proposed
  · split at proposed
    · cases proposed
    · cases proposed
    · rename_i entries _ scanned
      rw [scanned]
      exact decodeCommand_encodeCommand deps lawful _ data
        (submit_proposed deps env node _ data proposed)

/-! ### What a reclaim removes -/

/-- Version-conditioned deletions leave a record, or remove it when one of them names its
version. -/
theorem runOps_reclaims (index : UInt64) (versions : List UInt64) (cell : Option StoredRecord) :
    runOps index (versions.map CellOp.reclaim) cell = cell ∨
      (runOps index (versions.map CellOp.reclaim) cell = none ∧
        ∃ record, cell = some record ∧ record.version ∈ versions) := by
  induction versions generalizing cell with
  | nil => exact Or.inl rfl
  | cons version rest inductionHypothesis =>
    have step : runOps index ((version :: rest).map CellOp.reclaim) cell =
        runOps index (rest.map CellOp.reclaim)
          (if cell.map StoredRecord.version = some version then none else cell) := rfl
    rw [step]
    by_cases matching : cell.map StoredRecord.version = some version
    · obtain ⟨record, isRecord, named⟩ := Option.map_eq_some_iff.mp matching
      rw [if_pos matching]
      refine Or.inr ⟨?_, record, isRecord, by rw [named]; exact List.mem_cons_self⟩
      rcases inductionHypothesis none with same | ⟨gone, _⟩
      · exact same
      · exact gone
    · rw [if_neg matching]
      rcases inductionHypothesis cell with same | ⟨gone, record, isRecord, member⟩
      · exact Or.inl same
      · exact Or.inr ⟨gone, record, isRecord, List.mem_cons_of_mem _ member⟩

/-- A reclaim leaves a record, or removes it when an entry lists it with its version. -/
theorem reclaim_record (deps : Deps) (now : Int64) (index : UInt64) (indexed : index ≠ 0)
    (records : Records) (valid : records.Valid) (request : ReclaimRequest) (key : Bytes) :
    (records.runCommand deps now index (.reclaim request)).2 key = records key ∨
      ((records.runCommand deps now index (.reclaim request)).2 key = none ∧
        ∃ record, records key = some record ∧ ∃ entry ∈ request.entries,
          entry.entryKey = key ∧ entry.version = record.version) := by
  rw [runCommand_cell deps now index indexed key records valid, Command.operations]
  split
  · have listed : ((request.entries.filter fun entry => entry.entryKey = key).map
        fun entry => CellOp.reclaim entry.version) =
        ((request.entries.filter fun entry => entry.entryKey = key).map
          ReclaimEntry.version).map CellOp.reclaim := by rw [List.map_map]; rfl
    rw [listed]
    rcases runOps_reclaims index _ (records key) with same | ⟨gone, record, isRecord, member⟩
    · exact Or.inl same
    · obtain ⟨entry, inFilter, version⟩ := List.mem_map.mp member
      obtain ⟨inEntries, sameKey⟩ := List.mem_filter.mp inFilter
      exact Or.inr ⟨gone, record, isRecord, entry, inEntries, of_decide_eq_true sameKey, version⟩
  · exact Or.inl rfl

section

variable (deps : Deps) (lawful : deps.Lawful)

/-! ### Records the log has left alone -/

include lawful in
/-- Two moments of a log at which a key holds the same version are moments at which it holds the
same record. -/
theorem same_of_version (front back : List (Int64 × Entry))
    (log : IsLog ((front ++ back).map Prod.snd)) (key : Bytes) (record later : StoredRecord)
    (stored : (Replica.fresh.run deps front).records key = some record)
    (found : (Replica.fresh.run deps (front ++ back)).records key = some later)
    (version : record.version = later.version) : later = record := by
  have frontLog : IsLog (front.map Prod.snd) := log.front
  have valid := valid_run deps front Replica.fresh valid_fresh frontLog.indexed
  have indexed : ∀ delivery ∈ back, delivery.2.index ≠ 0 :=
    fun delivery member => log.indexed delivery (List.mem_append_right _ member)
  rw [Replica.run_append] at found
  rcases run_stored deps lawful back _ valid indexed key with
    gone | same | ⟨stamped, isStamped, delivery, member, stampedVersion⟩
  · rw [gone] at found
    cases found
  · rw [same, stored] at found
    exact (Option.some.inj found).symm
  · obtain rfl := Option.some.inj (isStamped.symm.trans found)
    have older := version_lt_of_stored deps lawful front back log key record stored delivery member
    rw [version, stampedVersion] at older
    exact absurd older (UInt64.lt_irrefl _)

include lawful in
/-- The last writer of a record stamped it. -/
theorem version_of_lastWrote (started : Int64) (deliveries : List (Int64 × Entry))
    (log : IsLog (deliveries.map Prod.snd)) (key : Bytes) (record : StoredRecord) (entry : Entry)
    (wrote : LastWrote deps started deliveries key record entry) :
    record.version = entry.index := by
  obtain ⟨early, now, late, rfl, absent, kept⟩ := wrote
  have earlyLog : IsLog (early.map Prod.snd) := log.front
  have stored := kept [] late rfl
  rw [recordsAfter_eq deps lawful, Replica.run_append] at stored
  rw [recordsAfter_eq deps lawful] at absent
  rcases apply_outcome deps lawful now (Replica.fresh.run deps early)
      (valid_run deps early Replica.fresh valid_fresh earlyLog.indexed) entry
      (log.indexed (now, entry) (by simp)) key with gone | same | ⟨found, stamped, version⟩
  · exact absurd (gone.symm.trans stored) (by simp)
  · exact absurd (same.symm.trans stored) absent
  · obtain rfl := Option.some.inj (stamped.symm.trans stored)
    exact version

/-! ### The store while an entry is applied -/

include lawful in
theorem between_eq (started : Int64) (applied : List (Int64 × Entry)) (now : Int64)
    (entry : Entry) :
    (Fsm.between deps started applied (some (now, entry))).store.records deps =
      ((Replica.fresh.run deps applied).advanceChain deps now entry).records := by
  have advanced := replica_advanceChain deps lawful now
    ((Fsm.fresh deps (Env.healthy started)).run deps applied) entry
  rw [fresh_run_replica deps lawful started] at advanced
  exact congrArg Replica.records advanced

include lawful in
/-- A record found while an entry may be half applied is the one the entries before it left, or
the head that the half-applied one has persisted. -/
theorem between_record (started : Int64) (applied : List (Int64 × Entry))
    (applying : Option (Int64 × Entry))
    (indexed : ∀ delivery ∈ applying, delivery.2.index ≠ 0) (key : Bytes) :
    (Fsm.between deps started applied applying).store.records deps key =
        (Replica.fresh.run deps applied).records key ∨
      (key = headEntryKey deps ∧ ∃ record, ∃ delivery ∈ applying,
        (Fsm.between deps started applied applying).store.records deps key = some record ∧
        record.version = delivery.2.index) := by
  cases applying with
  | none => exact Or.inl (congrFun (recordsAfter_eq deps lawful started applied) key)
  | some delivery =>
    obtain ⟨now, entry⟩ := delivery
    rw [between_eq deps lawful]
    rcases advanced_record deps lawful now (Replica.fresh.run deps applied) entry
        (indexed (now, entry) rfl) key with
      ⟨_, unchanged⟩ | ⟨head, record, isHead, version⟩
    · exact Or.inl unchanged
    · exact Or.inr ⟨head, record, (now, entry), rfl, isHead, version⟩

/-! ### Refreshed records -/

section

variable (before after : List Entry) (removal : Entry)
  (committed : Committed deps (before ++ after ++ [removal]))
  (leader : Node) (leaderStarted : Int64) (scanned : List (Int64 × Entry))
  (applying : Option (Int64 × Entry)) (hasScanned : scanned.map Prod.snd = before)
  (underway : ∀ delivery ∈ applying, after.head? = some delivery.2)
  (leaderState : leader.fsm = Fsm.between deps leaderStarted scanned applying)
  (env : Env) (cancelled : Nat → Option Err) (limit : Int)
  (proposed : (leader.reclaimExpired deps env cancelled limit).1 = .proposed removal.data)
  (started now : Int64) (deliveries : List (Int64 × Entry))
  (delivered : deliveries.map Prod.snd = before ++ after) (key : Bytes)

include lawful committed hasScanned underway leaderState in
/-- What the leader finds at a key while it scans: what the entries before the scan left there, on
every replica, or a head whose version is below the index of the removal. -/
theorem scanned_record (record : StoredRecord)
    (found : leader.fsm.store.records deps key = some record) :
    record.version < removal.index ∧
      (key ≠ headEntryKey deps → ∀ front : List (Int64 × Entry), front.map Prod.snd = before →
        (Replica.fresh.run deps front).records key = some record) := by
  have upcoming (delivery : Int64 × Entry) (member : delivery ∈ applying) :
      delivery.2 ∈ before ++ after :=
    List.mem_append_right _ (List.mem_of_mem_head? (underway delivery member))
  have log : IsLog (before ++ after ++ [removal]) := committed.toIsLog
  have scannedLog : IsLog (scanned.map Prod.snd) := by
    rw [hasScanned]
    exact log.append_left.append_left
  rw [leaderState] at found
  rcases between_record deps lawful leaderStarted scanned applying
      (fun delivery member => by
        have positive := log.append_left.positive _ (upcoming delivery member)
        grind) key with
    left | ⟨head, headRecord, delivery, member, isHead, version⟩
  · rw [left] at found
    obtain ⟨delivery, member, version⟩ :=
      version_of_stored deps lawful scanned scannedLog key record found
    refine ⟨?_, fun _ front same => ?_⟩
    · rw [version]
      refine log.lt_of_mem (List.mem_append_left _ ?_) List.mem_cons_self
      rw [← hasScanned]
      exact List.mem_map_of_mem member
    · have routed : ∀ delivery ∈ scanned, Routed deps delivery.2.data := fun delivery member =>
        committed.routed _ (List.mem_append_left _ (List.mem_append_left _
          (hasScanned ▸ List.mem_map_of_mem member)))
      rw [← (run_routed deps lawful scanned front (hasScanned.trans same.symm) routed Replica.fresh
        rfl).2]
      exact found
  · obtain rfl := Option.some.inj (isHead.symm.trans found)
    refine ⟨?_, fun other => absurd head other⟩
    rw [version]
    exact log.lt_of_mem (upcoming delivery member) List.mem_cons_self

include lawful committed hasScanned underway leaderState proposed in
/-- The removal leaves a record, or deletes the one the leader found expired, which every entry
since the scan has left alone. -/
theorem reclaim_deletes (front back : List (Int64 × Entry)) (isBefore : front.map Prod.snd = before)
    (isAfter : back.map Prod.snd = after) :
    recordsAfter deps started (front ++ back ++ [(now, removal)]) key =
        (Fsm.between deps started (front ++ back) (some (now, removal))).store.records deps key ∨
      ∃ record,
        ((Fsm.between deps started (front ++ back) (some (now, removal))).store.records deps key =
            some record ∧
          recordsAfter deps started (front ++ back ++ [(now, removal)]) key = none ∧
          leader.fsm.store.records deps key = some record ∧
          deps.isExpired env.now record.expiresAt) ∧
        (Replica.fresh.run deps front).records key = some record ∧
        (Replica.fresh.run deps (front ++ back)).records key = some record := by
  have log : IsLog (before ++ after ++ [removal]) := committed.toIsLog
  have deliveriesLog : IsLog ((front ++ back).map Prod.snd) := by
    rw [List.map_append, isBefore, isAfter]
    exact log.append_left
  have indexed : removal.index ≠ 0 := by
    have positive := log.append_right.positive removal List.mem_cons_self
    grind
  have valid := valid_run deps (front ++ back) Replica.fresh valid_fresh deliveriesLog.indexed
  have ran : recordsAfter deps started (front ++ back ++ [(now, removal)]) =
      (((Replica.fresh.run deps (front ++ back)).advanceChain deps now removal).records.runCommand
        deps now removal.index
        (.reclaim ⟨(Storage.scanExpired deps env leader.fsm.store cancelled limit).1⟩)).2 := by
    rw [recordsAfter_eq deps lawful, Replica.run_append]
    show (Records.runEntry deps now _ removal).2 = _
    rw [Records.runEntry, reclaimExpired_proposed deps lawful env leader cancelled limit _ proposed]
  rw [ran, between_eq deps lawful]
  rcases reclaim_record deps now removal.index indexed _
      (valid_advanceChain deps now _ valid removal)
      ⟨(Storage.scanExpired deps env leader.fsm.store cancelled limit).1⟩ key with
    same | ⟨gone, record, stored, listed, member, rfl, version⟩
  · exact Or.inl same
  · obtain ⟨seen, isSeen, expired, seenVersion⟩ :=
      mem_scanExpired deps env leader.fsm.store cancelled limit listed member
    obtain ⟨older, replicated⟩ := scanned_record deps lawful before after removal committed leader
      leaderStarted scanned applying hasScanned underway leaderState listed.entryKey seen isSeen
    have sameVersion : seen.version = record.version := seenVersion.symm.trans version
    rcases advanced_record deps lawful now (Replica.fresh.run deps (front ++ back)) removal indexed
        listed.entryKey with
      ⟨other, unchanged⟩ | ⟨_, headRecord, isHead, headVersion⟩
    · have found := unchanged.symm.trans stored
      have seenAtFront := replicated other front isBefore
      obtain rfl := same_of_version deps lawful front back deliveriesLog _ seen record seenAtFront
        found sameVersion
      exact Or.inr ⟨record, ⟨stored, gone, isSeen, expired⟩, seenAtFront, found⟩
    · obtain rfl := Option.some.inj (isHead.symm.trans stored)
      rw [sameVersion, headVersion] at older
      exact absurd older (UInt64.lt_irrefl _)

include lawful committed hasScanned underway leaderState proposed delivered in
/-- Whatever is committed between the scan of a leader and the removal it proposes: a record that
the removal deletes on a replica is the record the leader found expired, with its value, version,
expiry and meta, and a record that an entry after the scan was the last to write stays. -/
theorem reclaim_spares_refreshed :
    (recordsAfter deps started (deliveries ++ [(now, removal)]) key =
        (Fsm.between deps started deliveries (some (now, removal))).store.records deps key ∨
      ∃ record,
        (Fsm.between deps started deliveries (some (now, removal))).store.records deps key =
          some record ∧
        recordsAfter deps started (deliveries ++ [(now, removal)]) key = none ∧
        leader.fsm.store.records deps key = some record ∧
        deps.isExpired env.now record.expiresAt) ∧
      ∀ record, ∀ entry ∈ after, LastWrote deps started deliveries key record entry →
        recordsAfter deps started (deliveries ++ [(now, removal)]) key =
          (Fsm.between deps started deliveries (some (now, removal))).store.records deps key := by
  obtain ⟨front, back, rfl, isBefore, isAfter⟩ := List.map_eq_append_iff.mp delivered
  rcases reclaim_deletes deps lawful before after removal committed leader leaderStarted scanned
      applying hasScanned underway leaderState env cancelled limit proposed started now key front
      back isBefore isAfter with
    same | ⟨record, deleted, atFront, atEnd⟩
  · exact ⟨Or.inl same, fun _ _ _ _ => same⟩
  · refine ⟨Or.inr ⟨record, deleted⟩, fun written entry member wrote => ?_⟩
    have log : IsLog ((front ++ back).map Prod.snd) := by
      rw [delivered]
      exact committed.toIsLog.append_left
    have version := version_of_lastWrote deps lawful started _ log key written entry wrote
    obtain ⟨early, clock, late, split, _, kept⟩ := wrote
    have stored := kept late [] (List.append_nil late).symm
    rw [← split, recordsAfter_eq deps lawful, atEnd] at stored
    obtain rfl := Option.some.inj stored
    rw [← isAfter] at member
    obtain ⟨later, inBack, rfl⟩ := List.mem_map.mp member
    have older := version_lt_of_stored deps lawful front back log key record atFront later inBack
    rw [version] at older
    exact absurd older (UInt64.lt_irrefl _)

end

end

/-- A leader that has applied the sample put. -/
def sampleLeader : Node :=
  ⟨Fsm.between Reference.deps 0 sampleDeliveries none, some { leading := true }⟩

/-- The sample put once more, after its time to live. -/
def refreshingPut : Entry := Reference.entryOf 2 (Reference.samplePut.command Reference.deps 205)

/-- The removal of the record of the first sample put. -/
def sampleRemoval : Entry :=
  Reference.entryOf 3 (.reclaim ⟨[⟨(encodeKey Reference.deps Reference.sampleKey).1, 1⟩]⟩)

theorem sampleRemoval_committed :
    Committed Reference.deps (Reference.sampleLog ++ [refreshingPut] ++ [sampleRemoval]) where
  increasing := by decide +kernel
  positive := by decide +kernel
  routed entry member := by
    rcases List.mem_append.mp member with earlier | last
    · rcases List.mem_append.mp earlier with first | second
      · exact Reference.sampleLog_committed.routed entry first
      · rw [List.mem_singleton.mp second]
        exact Reference.routed_entryOf 2 205 _
    · rw [List.mem_singleton.mp last]
      exact ⟨_, .reclaim _, Reference.encodeCommand_entryOf 3 _⟩

/-- The leader finds the record expired, and a put refreshes it before the removal is applied. -/
theorem reclaim_spares_refreshed_put :
    recordsAfter Reference.deps 0
        (sampleDeliveries ++ [(210, refreshingPut)] ++ [(220, sampleRemoval)])
        (encodeKey Reference.deps Reference.sampleKey).1 =
      (Fsm.between Reference.deps 0 (sampleDeliveries ++ [(210, refreshingPut)])
        (some (220, sampleRemoval))).store.records Reference.deps
          (encodeKey Reference.deps Reference.sampleKey).1 := by
  refine (reclaim_spares_refreshed Reference.deps Reference.lawful Reference.sampleLog
    [refreshingPut] sampleRemoval sampleRemoval_committed sampleLeader 0 sampleDeliveries none rfl
    (fun _ none => nomatch none) rfl (Env.healthy 200) (fun _ => none) 0 ?_ 0 220
    (sampleDeliveries ++ [(210, refreshingPut)]) rfl
    (encodeKey Reference.deps Reference.sampleKey).1).2
    { value := str "1", version := 2, expiresAt := 265, userMeta := 0 } refreshingPut
    List.mem_cons_self ?_
  · have found : Storage.scanExpired Reference.deps (Env.healthy 200) sampleLeader.fsm.store
        (fun _ => none) 0 = ([⟨(encodeKey Reference.deps Reference.sampleKey).1, 1⟩], none) := by
      decide +kernel
    unfold Node.reclaimExpired
    rw [found]
    rfl
  · refine ⟨sampleDeliveries, 210, [], rfl, by decide +kernel, fun middle rest split => ?_⟩
    obtain ⟨rfl, rfl⟩ := List.append_eq_nil_iff.mp split.symm
    decide +kernel

end ConsensusDB
