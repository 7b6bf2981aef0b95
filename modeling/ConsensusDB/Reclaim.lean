/-
This file is about removing records. `Reclaim` goes through a list of keys with
versions and deletes each key that is still stored with its version. The loop reads
through its own pending deletions, so a key that is listed again is no longer found:
what is removed is the set of keys that are listed with the version stored, in
whatever order they come and however often.

The reclaimer sweeps in rounds: it scans from the beginning for expired records, up
to a limit, and has those removed. What a round leaves for the next one is the rest
of what it would have listed without the limit, so the rounds come to an end.
-/

import ConsensusDB.Staging
import ConsensusDB.Sweep

namespace ConsensusDB

open Wire

/-! ### The keys that are listed with their version -/

/-- The key is stored, and listed with the version that is stored. -/
def Listed (deps : Deps) (read : Bytes → Option Item) (entries : List ReclaimEntry)
    (key : Bytes) : Prop :=
  ∃ item, read key = some item ∧ ⟨key, (storedRecord deps item).version⟩ ∈ entries

/-- What the loop of a reclaim has staged: deletions of the listed keys, each once. -/
structure Deletes (deps : Deps) (txn : Txn) (entries : List ReclaimEntry) (final : Txn)
    (deleted : List Bytes) : Prop where
  snapshot : final.snapshot = txn.snapshot
  nodup : deleted.Nodup
  listed : ∀ key, key ∈ deleted ↔ Listed deps txn.read entries key
  gone : ∀ key ∈ deleted, final.read key = none
  kept : ∀ key, key ∉ deleted → final.read key = txn.read key
  named : ∀ entry ∈ entries, entry.entryKey ≠ []
  accepted : ∀ key ∈ deleted, refuseKey key = none

section

variable {deps : Deps} {txn final : Txn} {entry : ReclaimEntry} {rest : List ReclaimEntry}
  {deleted : List Bytes}

/-- An entry that is not stored with its version adds nothing to the list. -/
theorem listed_cons_of_stale {read : Bytes → Option Item}
    (stale : ∀ item, read entry.entryKey = some item → (storedRecord deps item).version ≠
      entry.version) (key : Bytes) :
    Listed deps read (entry :: rest) key ↔ Listed deps read rest key := by
  constructor
  · rintro ⟨item, found, member⟩
    rcases List.mem_cons.mp member with rfl | later
    · exact absurd rfl (stale item found)
    · exact ⟨item, found, later⟩
  · rintro ⟨item, found, member⟩
    exact ⟨item, found, List.mem_cons_of_mem _ member⟩

theorem Deletes.skip (rests : Deletes deps txn rest final deleted) (nonempty : entry.entryKey ≠ [])
    (stale : ∀ item, txn.read entry.entryKey = some item → (storedRecord deps item).version ≠
      entry.version) : Deletes deps txn (entry :: rest) final deleted where
  snapshot := rests.snapshot
  nodup := rests.nodup
  listed key := (rests.listed key).trans (listed_cons_of_stale stale key).symm
  gone := rests.gone
  kept := rests.kept
  named := List.forall_mem_cons.mpr ⟨nonempty, rests.named⟩
  accepted := rests.accepted

theorem read_delete (txn : Txn) (entryKey : Bytes) :
    Txn.read { txn with writes := (entryKey, none) :: txn.writes } =
      Function.update txn.read entryKey none :=
  Mvcc.overlay_cons _ _ _ _

theorem Deletes.delete {item : Item}
    (rests : Deletes deps { txn with writes := (entry.entryKey, none) :: txn.writes } rest final
      deleted) (nonempty : entry.entryKey ≠ []) (accepted : refuseKey entry.entryKey = none)
    (found : txn.read entry.entryKey = some item)
    (version : (storedRecord deps item).version = entry.version) :
    Deletes deps txn (entry :: rest) final (entry.entryKey :: deleted) := by
  have once : entry.entryKey ∉ deleted := by
    intro again
    obtain ⟨other, isOther, _⟩ := (rests.listed _).mp again
    rw [read_delete, Function.update_self] at isOther
    cases isOther
  have elsewhere : ∀ key, key ≠ entry.entryKey →
      Txn.read { txn with writes := (entry.entryKey, none) :: txn.writes } key = txn.read key := by
    intro key other
    rw [read_delete, Function.update_of_ne other]
  refine ⟨rests.snapshot, List.nodup_cons.mpr ⟨once, rests.nodup⟩, fun key => ?_, ?_,
    fun key absent => ?_, List.forall_mem_cons.mpr ⟨nonempty, rests.named⟩,
    List.forall_mem_cons.mpr ⟨accepted, rests.accepted⟩⟩
  · by_cases same : key = entry.entryKey
    · refine iff_of_true (same ▸ List.mem_cons_self) ⟨item, same ▸ found, ?_⟩
      rw [same, version]
      exact List.mem_cons_self
    · rw [List.mem_cons, or_iff_right same, rests.listed, Listed, elsewhere key same]
      refine exists_congr fun stored => and_congr_right fun _ => ?_
      rw [List.mem_cons, or_iff_right]
      exact fun isEntry => same (congrArg ReclaimEntry.entryKey isEntry)
  · refine List.forall_mem_cons.mpr ⟨?_, rests.gone⟩
    rw [rests.kept _ once, read_delete, Function.update_self]
  · obtain ⟨other, later⟩ := not_or.mp (mt List.mem_cons.mpr absent)
    rw [rests.kept key later, elsewhere key other]

end

section

variable (deps : Deps) (env : Env)

/-- The loop stages the deletions of the listed keys. -/
theorem reclaimEntries_deletes (entries : List ReclaimEntry) (round : Nat) (txn final : Txn)
    (deleted : List Bytes)
    (ended : Storage.reclaimEntries deps env round txn entries = .ok (final, deleted)) :
    Deletes deps txn entries final deleted := by
  induction entries generalizing round txn final deleted with
  | nil =>
    cases ended
    refine ⟨rfl, List.nodup_nil, fun key => ?_, fun _ member => absurd member List.not_mem_nil,
      fun _ _ => rfl, fun _ member => absurd member List.not_mem_nil,
      fun _ member => absurd member List.not_mem_nil⟩
    refine iff_of_false List.not_mem_nil ?_
    rintro ⟨item, _, member⟩
    exact absurd member List.not_mem_nil
  | cons entry rest inductionHypothesis =>
    obtain ⟨nonempty, ⟨stale, skipped⟩ |
      ⟨item, restDeleted, found, version, accepted, rfl, restEnded⟩⟩ :=
        reclaimEntries_cons deps env ended
    · exact (inductionHypothesis _ _ _ _ skipped).skip nonempty stale
    · exact (inductionHypothesis _ _ _ _ restEnded).delete nonempty accepted found version

/-- The loop comes to its end where no engine call fails, none of the keys is empty and the engine
accepts those that are to be deleted. -/
theorem reclaimEntries_healthy (now : Int64) (entries : List ReclaimEntry) (round : Nat) (txn : Txn)
    (named : ∀ entry ∈ entries, entry.entryKey ≠ [])
    (accepted : ∀ key, Listed deps txn.read entries key → refuseKey key = none) :
    ∃ outcome, Storage.reclaimEntries deps (.healthy now) round txn entries = .ok outcome := by
  induction entries generalizing round txn with
  | nil => exact ⟨_, rfl⟩
  | cons entry rest inductionHypothesis =>
    obtain ⟨nonempty, restNamed⟩ := List.forall_mem_cons.mp named
    have restAccepted : ∀ key, Listed deps txn.read rest key → refuseKey key = none := by
      rintro key ⟨item, found, member⟩
      exact accepted key ⟨item, found, List.mem_cons_of_mem _ member⟩
    rw [Storage.reclaimEntries, get_healthy _ _ _ _ nonempty]
    cases found : txn.read entry.entryKey with
    | none => exact inductionHypothesis _ _ restNamed restAccepted
    | some item =>
      simp only [valueCopy_healthy, wrapError_ok]
      by_cases version : (deps.decodeEnvelope item.value).version.toUInt64 = entry.version
      · have isEntry : ⟨entry.entryKey, (storedRecord deps item).version⟩ = entry :=
          congrArg (ReclaimEntry.mk entry.entryKey) version
        have matching : Listed deps txn.read (entry :: rest) entry.entryKey :=
          ⟨item, found, isEntry ▸ List.mem_cons_self⟩
        rw [if_neg (not_not_intro version), delete_healthy _ _ _ _ (accepted _ matching)]
        obtain ⟨outcome, ended⟩ := inductionHypothesis (round + 1)
          { txn with writes := (entry.entryKey, none) :: txn.writes } restNamed (by
            rintro key ⟨other, isOther, member⟩
            by_cases same : key = entry.entryKey
            · exact same ▸ accepted _ matching
            · rw [read_delete, Function.update_of_ne same] at isOther
              exact restAccepted key ⟨other, isOther, member⟩)
        exact ⟨_, by simp only [wrapError_ok, ended]; rfl⟩
      · rw [if_pos version]
        exact inductionHypothesis _ _ restNamed restAccepted

end

/-! ### What a reclaim leaves -/

/-- The event that announces the removal of a key. -/
def removalEvent (key : Bytes) : WatchEvent := ⟨key, [], .delete, 0⟩

/-- What a successful reclaim has removed: the listed keys, each once, counted and announced. -/
structure Removes (deps : Deps) (store : Store) (entries : List ReclaimEntry) (count : Nat)
    (after : Store) (removed : List Bytes) : Prop where
  nodup : removed.Nodup
  listed : ∀ key, key ∈ removed ↔ Listed deps store.db.read entries key
  gone : ∀ key ∈ removed, after.db.read key = none
  kept : ∀ key, key ∉ removed → after.db.read key = store.db.read key
  counted : count = removed.length
  announced : after.events = store.events ++ removed.map removalEvent
  named : ∀ entry ∈ entries, entry.entryKey ≠ []
  accepted : ∀ key ∈ removed, refuseKey key = none

section

variable {deps : Deps} {env : Env} {store after : Store} {request : ReclaimRequest} {count : Nat}

theorem reclaim_removes (done : Storage.reclaim deps env store request = (.ok count, after)) :
    ∃ removed, Removes deps store request.entries count after removed := by
  unfold Storage.reclaim at done
  split at done
  · rename_i nothing
    cases done
    refine ⟨[], List.nodup_nil, fun key => ?_, fun _ member => absurd member List.not_mem_nil,
      fun _ _ => rfl, rfl, (List.append_nil _).symm, ?_,
      fun _ member => absurd member List.not_mem_nil⟩
    · refine iff_of_false List.not_mem_nil ?_
      rintro ⟨item, _, member⟩
      rw [nothing] at member
      exact absurd member List.not_mem_nil
    · rw [nothing]
      exact fun _ member => absurd member List.not_mem_nil
  · split at done
    · cases done
    · rename_i txn deleted ended
      have deletes := reclaimEntries_deletes deps env _ _ _ _ _ ended
      split at done
      · rename_i nothing
        cases done
        rw [nothing] at deletes
        exact ⟨[], deletes.nodup, deletes.listed, fun _ member => absurd member List.not_mem_nil,
          fun _ _ => rfl, rfl, (List.append_nil _).symm, deletes.named, deletes.accepted⟩
      · unfold Store.commit at done
        split at done
        · cases done
        · cases done
        · rename_i staged _
          obtain rfl := Except.ok.inj staged
          cases done
          have committed : (store.db.commit txn.writes).read = txn.read := by
            rw [Mvcc.read_commit]
            exact congrArg (fun snapshot => Mvcc.overlay snapshot txn.writes)
              deletes.snapshot.symm
          refine ⟨deleted, deletes.nodup, deletes.listed, ?_, ?_, rfl, rfl, deletes.named,
            deletes.accepted⟩
          · intro key member
            rw [committed]
            exact deletes.gone key member
          · intro key absent
            rw [committed]
            exact deletes.kept key absent

variable {removed : List Bytes}

/-- The removed keys are those that were stored and no longer are. -/
theorem Removes.mem_iff (removes : Removes deps store request.entries count after removed)
    (key : Bytes) :
    key ∈ removed ↔ store.db.read key ≠ none ∧ after.db.read key = none := by
  constructor
  · intro member
    obtain ⟨item, found, _⟩ := (removes.listed key).mp member
    exact ⟨found ▸ Option.some_ne_none item, removes.gone key member⟩
  · rintro ⟨stored, gone⟩
    by_contra absent
    exact stored ((removes.kept key absent).symm.trans gone)

/-- The order of the list does not matter. -/
theorem Removes.perm {other : ReclaimRequest} {otherCount : Nat} {otherAfter : Store}
    {otherRemoved : List Bytes} (same : other.entries.Perm request.entries)
    (removes : Removes deps store request.entries count after removed)
    (otherRemoves : Removes deps store other.entries otherCount otherAfter otherRemoved) :
    otherRemoved.Perm removed := by
  refine (List.perm_ext_iff_of_nodup otherRemoves.nodup removes.nodup).mpr fun key => ?_
  rw [removes.listed, otherRemoves.listed]
  exact exists_congr fun item => and_congr_right fun _ => same.mem_iff

/-- Where no engine call fails, a reclaim succeeds unless it lists an empty key, or a stored one
that the engine refuses to delete. -/
theorem reclaim_healthy (now : Int64) (named : ∀ entry ∈ request.entries, entry.entryKey ≠ [])
    (accepted : ∀ key, Listed deps store.db.read request.entries key → refuseKey key = none) :
    ∃ count after, Storage.reclaim deps (.healthy now) store request = (.ok count, after) := by
  unfold Storage.reclaim
  split
  · exact ⟨_, _, rfl⟩
  · obtain ⟨⟨txn, deleted⟩, ended⟩ := reclaimEntries_healthy deps now request.entries 0
      store.newTransaction named accepted
    rw [ended]
    simp only [commit_healthy]
    split
    · exact ⟨_, _, rfl⟩
    · exact ⟨_, _, rfl⟩

/-- A successful reclaim leaves the records whose key is not listed with the version stored, all of
them as they were. It answers with the number of keys that are gone and announces each of them
once. In another order the same is removed, and where no engine call fails the reclaim succeeds in
every order. -/
theorem reclaim_exact (done : Storage.reclaim deps env store request = (.ok count, after)) :
    (∀ key item, after.db.read key = some item ↔
      store.db.read key = some item ∧ ¬ Listed deps store.db.read request.entries key) ∧
    (∃ removed : List Bytes, removed.Nodup ∧
      (∀ key, key ∈ removed ↔ store.db.read key ≠ none ∧ after.db.read key = none) ∧
      count = removed.length ∧ after.events = store.events ++ removed.map removalEvent) ∧
    ∀ other : ReclaimRequest, other.entries.Perm request.entries →
      (∀ otherEnv otherCount otherAfter,
        Storage.reclaim deps otherEnv store other = (.ok otherCount, otherAfter) →
          otherCount = count ∧ otherAfter.db.read = after.db.read ∧
            otherAfter.events.Perm after.events) ∧
      ∀ now, ∃ otherAfter,
        Storage.reclaim deps (.healthy now) store other = (.ok count, otherAfter) := by
  obtain ⟨removed, removes⟩ := reclaim_removes done
  have reordered : ∀ other : ReclaimRequest, other.entries.Perm request.entries →
      ∀ otherEnv otherCount otherAfter,
        Storage.reclaim deps otherEnv store other = (.ok otherCount, otherAfter) →
          otherCount = count ∧ otherAfter.db.read = after.db.read ∧
            otherAfter.events.Perm after.events := by
    intro other same otherEnv otherCount otherAfter otherDone
    obtain ⟨otherRemoved, otherRemoves⟩ := reclaim_removes otherDone
    have perm := removes.perm same otherRemoves
    refine ⟨?_, funext fun key => ?_, ?_⟩
    · rw [otherRemoves.counted, removes.counted, perm.length_eq]
    · by_cases member : key ∈ removed
      · rw [removes.gone key member, otherRemoves.gone key (perm.mem_iff.mpr member)]
      · rw [removes.kept key member, otherRemoves.kept key (mt perm.mem_iff.mp member)]
    · rw [otherRemoves.announced, removes.announced]
      exact (perm.map removalEvent).append_left store.events
  refine ⟨fun key item => ?_, ⟨removed, removes.nodup, removes.mem_iff, removes.counted,
    removes.announced⟩, fun other same => ⟨reordered other same, fun now => ?_⟩⟩
  · rw [← removes.listed key]
    by_cases member : key ∈ removed
    · rw [removes.gone key member]
      exact iff_of_false (Option.some_ne_none item).symm fun facts => facts.2 member
    · rw [removes.kept key member]
      exact (and_iff_left member).symm
  · obtain ⟨otherCount, otherAfter, otherDone⟩ :
        ∃ otherCount otherAfter,
          Storage.reclaim deps (.healthy now) store other = (.ok otherCount, otherAfter) := by
      refine reclaim_healthy now (fun entry member => removes.named entry (same.mem_iff.mp member))
        ?_
      rintro key ⟨item, found, member⟩
      exact removes.accepted key ((removes.listed key).mpr ⟨item, found, same.mem_iff.mp member⟩)
    obtain ⟨rfl, _⟩ := reordered other same _ _ _ otherDone
    exact ⟨otherAfter, otherDone⟩

end

/-- A key that is listed twice with its version, once with another one, and a key that is not
stored. -/
def repeatedRequest : ReclaimRequest :=
  ⟨[⟨(encodeKey Reference.deps Reference.sampleKey).1, 7⟩,
    ⟨(encodeKey Reference.deps Reference.sampleKey).1, 1⟩, ⟨str "nothing", 1⟩,
    ⟨(encodeKey Reference.deps Reference.sampleKey).1, 1⟩]⟩

/-- The record of the key is removed and counted once. -/
theorem reclaim_exact_repeated :
    ∃ after, Storage.reclaim Reference.deps (.healthy 200) sampleLeader.fsm.store repeatedRequest =
        (.ok 1, after) ∧
      ∃ removed : List Bytes, removed.Nodup ∧
        (∀ key, key ∈ removed ↔
          sampleLeader.fsm.store.db.read key ≠ none ∧ after.db.read key = none) ∧
        1 = removed.length ∧
        after.events = sampleLeader.fsm.store.events ++ removed.map removalEvent := by
  have done : Storage.reclaim Reference.deps (.healthy 200) sampleLeader.fsm.store repeatedRequest =
      (.ok 1, (Storage.reclaim Reference.deps (.healthy 200) sampleLeader.fsm.store
        repeatedRequest).2) := Prod.ext (by decide +kernel) rfl
  exact ⟨_, done, (reclaim_exact done).2.1⟩

/-! ### Sweeping in rounds -/

def hasExpired (deps : Deps) (now : Int64) (entry : Bytes × Item) : Bool :=
  deps.isExpired now (storedRecord deps entry.2).expiresAt

/-- The items that have expired by now, in the order a scan meets them. -/
def Store.expiredItems (deps : Deps) (now : Int64) (store : Store) : List (Bytes × Item) :=
  store.entries.filter (hasExpired deps now)

/-- The keys of the records that have expired by now. -/
def Store.expired (deps : Deps) (now : Int64) (store : Store) : List Bytes :=
  (store.expiredItems deps now).map Prod.fst

/-- How a scan lists an item. -/
def listing (deps : Deps) (entry : Bytes × Item) : ReclaimEntry :=
  ⟨entry.1, (storedRecord deps entry.2).version⟩

section

variable (deps : Deps) (now : Int64) (store : Store)

theorem mem_expiredItems (key : Bytes) (item : Item) :
    (key, item) ∈ store.expiredItems deps now ↔
      store.db.read key = some item ∧ deps.isExpired now (storedRecord deps item).expiresAt := by
  rw [Store.expiredItems, List.mem_filter, Store.entries, Mvcc.mem_entries]
  rfl

theorem mem_expired (key : Bytes) :
    key ∈ store.expired deps now ↔
      ∃ record, store.records deps key = some record ∧ deps.isExpired now record.expiresAt := by
  simp only [Store.expired, List.mem_map, Prod.exists, exists_and_right, exists_eq_right,
    mem_expiredItems, Store.records, Option.map_eq_some_iff]
  constructor
  · rintro ⟨item, found, expired⟩
    exact ⟨_, ⟨item, found, rfl⟩, expired⟩
  · rintro ⟨_, ⟨item, found, rfl⟩, expired⟩
    exact ⟨item, found, expired⟩

theorem expired_nodup : (store.expired deps now).Nodup := by
  refine (List.nodup_map_iff_inj_on ((Mvcc.entries_nodup keyOrder store.db).filter _)).mpr ?_
  intro ⟨key, item⟩ isItem ⟨_, other⟩ isOther rfl
  obtain ⟨found, _⟩ := (mem_expiredItems deps now store key item).mp isItem
  obtain ⟨otherFound, _⟩ := (mem_expiredItems deps now store key other).mp isOther
  rw [Option.some.inj (found.symm.trans otherFound)]

/-- A scan that nothing disturbs goes on until it has as many expired items as it is asked for, or
has seen them all. -/
theorem expiredEntries_healthy (limit : Nat) (items : List (Bytes × Item)) (round : Nat)
    (found : List ReclaimEntry) (room : found.length < limit) :
    Storage.expiredEntries deps (.healthy now) (fun _ => none) limit round found items =
      (found ++ ((items.filter (hasExpired deps now)).take (limit - found.length)).map
        (listing deps), none) := by
  induction items generalizing round found with
  | nil =>
    rw [Storage.expiredEntries, List.filter_nil, List.take_nil, List.map_nil, List.append_nil]
  | cons entry rest inductionHypothesis =>
    obtain ⟨key, item⟩ := entry
    rw [Storage.expiredEntries]
    cases expired : hasExpired deps now (key, item) with
    | true =>
      have isExpired : deps.isExpired now (deps.decodeEnvelope item.value).expiresAt = true :=
        expired
      obtain ⟨left, isLeft⟩ : ∃ left, limit - found.length = left + 1 :=
        ⟨limit - found.length - 1, by omega⟩
      rw [List.filter_cons_of_pos expired, isLeft, List.take_succ_cons, List.map_cons]
      simp only [valueCopy_healthy, healthy_now, isExpired, if_true]
      by_cases full : left = 0
      · rw [if_pos, full, List.take_zero]
        · rfl
        · simp only [List.length_append, List.length_singleton, Bool.and_eq_true, decide_eq_true_eq]
          omega
      · rw [if_neg, inductionHypothesis]
        · rw [List.append_assoc, List.length_append, List.length_singleton,
            show limit - (found.length + 1) = left by omega]
          rfl
        · rw [List.length_append, List.length_singleton]
          omega
        · simp only [List.length_append, List.length_singleton, Bool.and_eq_true, decide_eq_true_eq]
          omega
    | false =>
      have notExpired : deps.isExpired now (deps.decodeEnvelope item.value).expiresAt = false :=
        expired
      rw [List.filter_cons_of_neg (Bool.eq_false_iff.mp expired)]
      simp only [valueCopy_healthy, healthy_now, notExpired, Bool.false_eq_true, if_false]
      exact inductionHypothesis _ _ room

theorem scanExpired_healthy (limit : Nat) (positive : 1 ≤ limit) :
    Storage.scanExpired deps (.healthy now) store (fun _ => none) limit =
      (((store.expiredItems deps now).take limit).map (listing deps), none) := by
  rw [Storage.scanExpired, expiredEntries_healthy deps now limit _ _ [] positive]
  rfl

/-- The keys a sweep with a limit removes. -/
def Store.swept (limit : Nat) : List Bytes := (store.expired deps now).take limit

variable (limit : Nat)

theorem mem_listings (entry : ReclaimEntry) :
    entry ∈ ((store.expiredItems deps now).take limit).map (listing deps) ↔
      entry.entryKey ∈ store.swept deps now limit ∧
        ∃ record, store.records deps entry.entryKey = some record ∧
          record.version = entry.version := by
  simp only [Store.swept, Store.expired, ← List.map_take, List.mem_map, Prod.exists]
  constructor
  · rintro ⟨key, item, member, rfl⟩
    obtain ⟨found, _⟩ := (mem_expiredItems deps now store key item).mp (List.mem_of_mem_take member)
    refine ⟨⟨key, item, member, rfl⟩, storedRecord deps item, ?_, rfl⟩
    rw [Store.records, listing, found]
    rfl
  · rintro ⟨⟨key, item, member, same⟩, record, isRecord, version⟩
    obtain ⟨found, _⟩ := (mem_expiredItems deps now store key item).mp (List.mem_of_mem_take member)
    refine ⟨key, item, member, ?_⟩
    rw [Store.records, ← same, found] at isRecord
    obtain rfl := Option.some.inj isRecord
    obtain ⟨entryKey, entryVersion⟩ := entry
    exact congrArg₂ ReclaimEntry.mk same version

/-- What a sweep lists is removed, from every store that still holds the listed records. -/
theorem reclaim_listings (current : Store) (valid : (current.records deps).Valid)
    (holds : ∀ key ∈ store.swept deps now limit,
      current.records deps key = store.records deps key) :
    ∃ after, Storage.reclaim deps (.healthy now) current
        ⟨((store.expiredItems deps now).take limit).map (listing deps)⟩ =
          (.ok (store.swept deps now limit).length, after) ∧
      (∀ key ∈ store.swept deps now limit, after.records deps key = none) ∧
      ∀ key, key ∉ store.swept deps now limit →
        after.records deps key = current.records deps key := by
  have stored : ∀ key ∈ store.swept deps now limit, ∃ record,
      store.records deps key = some record ∧ current.records deps key = some record := by
    intro key member
    obtain ⟨record, isRecord, _⟩ :=
      (mem_expired deps now store key).mp (List.mem_of_mem_take member)
    exact ⟨record, isRecord, (holds key member).trans isRecord⟩
  have matching : ∀ key, Listed deps current.db.read
      (((store.expiredItems deps now).take limit).map (listing deps)) key ↔
        key ∈ store.swept deps now limit := by
    intro key
    constructor
    · rintro ⟨item, _, listed⟩
      exact ((mem_listings deps now store limit _).mp listed).1
    · intro member
      obtain ⟨record, isRecord, isCurrent⟩ := stored key member
      obtain ⟨item, found, rfl⟩ := Option.map_eq_some_iff.mp isCurrent
      exact ⟨item, found, (mem_listings deps now store limit _).mpr ⟨member, _, isRecord, rfl⟩⟩
  have accepted : ∀ key ∈ store.swept deps now limit, refuseKey key = none := by
    intro key member
    obtain ⟨record, _, isCurrent⟩ := stored key member
    exact valid key (isCurrent ▸ Option.some_ne_none record)
  have nonempty : ∀ entry ∈ ((store.expiredItems deps now).take limit).map (listing deps),
      entry.entryKey ≠ [] := by
    intro entry listed empty
    have refused := accepted _ ((mem_listings deps now store limit entry).mp listed).1
    rw [empty] at refused
    cases refused
  obtain ⟨count, after, done⟩ : ∃ count after, Storage.reclaim deps (.healthy now) current
      ⟨((store.expiredItems deps now).take limit).map (listing deps)⟩ = (.ok count, after) :=
    reclaim_healthy now nonempty fun key listed => accepted key ((matching key).mp listed)
  obtain ⟨removed, removes⟩ := reclaim_removes done
  have members : ∀ key, key ∈ removed ↔ key ∈ store.swept deps now limit :=
    fun key => (removes.listed key).trans (matching key)
  have same : removed.Perm (store.swept deps now limit) :=
    (List.perm_ext_iff_of_nodup removes.nodup
      ((expired_nodup deps now store).sublist (List.take_sublist _ _))).mpr members
  refine ⟨after, ?_, fun key member => ?_, fun key absent => ?_⟩
  · rw [done, removes.counted, same.length_eq]
  · rw [Store.records, removes.gone key ((members key).mpr member)]
    rfl
  · rw [Store.records, Store.records, removes.kept key (mt (members key).mp absent)]

end

/-- A round of the reclaimer. The entry that a leader proposes is committed at the given index and
term and applied. -/
def Node.reclaimRound (deps : Deps) (env : Env) (limit : Int) (index term : UInt64) (node : Node) :
    FsmResult × Node :=
  match node.reclaimExpired deps env (fun _ => none) limit with
  | (.refused err, node) => ({ err := some err }, node)
  | (.stored result, node) => (result, node)
  | (.proposed data, node) =>
    let applied := node.fsm.apply deps env ⟨index, term, data⟩
    (applied.1, { node with fsm := applied.2 })

/-- A number of rounds, each with the index and term of its entry. -/
def Node.reclaimRounds (deps : Deps) (env : Env) (limit : Int) (positions : Nat → UInt64 × UInt64)
    (node : Node) : Nat → Node
  | 0 => node
  | count + 1 =>
    ((node.reclaimRounds deps env limit positions count).reclaimRound deps env limit
      (positions count).1 (positions count).2).2

/-- The node sweeps by itself: it leads, or replication is off. The engine accepts the keys it
stores, and no time to live ends the head record that a leader rewrites with every entry. -/
structure Node.Sweeping (deps : Deps) (now : Int64) (node : Node) : Prop where
  leads : Replicator.enabled node.raft = true → Replicator.isLeader node.raft = true
  valid : (node.fsm.store.records deps).Valid
  head : Replicator.enabled node.raft = true → headEntryKey deps ∉ node.fsm.store.expired deps now

/-- What a round does: it removes the keys it lists, counts them and leaves every other record
alone, except for the head record of a leader. -/
structure Sweeps (deps : Deps) (now : Int64) (limit : Nat) (before : Node) (result : FsmResult)
    (after : Node) : Prop where
  counted : result = { reclaimed := (before.fsm.store.swept deps now limit).length }
  raft : after.raft = before.raft
  gone : ∀ key ∈ before.fsm.store.swept deps now limit, after.fsm.store.records deps key = none
  kept : ∀ key, key ∉ before.fsm.store.swept deps now limit →
    (Replicator.enabled before.raft = true → key ≠ headEntryKey deps) →
      after.fsm.store.records deps key = before.fsm.store.records deps key
  head : Replicator.enabled before.raft = true →
    headEntryKey deps ∉ after.fsm.store.expired deps now
  idle : before.fsm.store.expired deps now = [] → after = before

section

variable (deps : Deps) (lawful : deps.Lawful) (now : Int64) (limit : Nat) (positive : 1 ≤ limit)
  (node : Node) (ready : node.Sweeping deps now)

include positive ready in
/-- What the reclaimer does with what it finds. -/
theorem reclaimExpired_healthy :
    node.reclaimExpired deps (.healthy now) (fun _ => none) limit =
      if node.fsm.store.swept deps now limit = [] then (.stored {}, node)
      else node.submit deps (.healthy now)
        (.reclaim ⟨((node.fsm.store.expiredItems deps now).take limit).map (listing deps)⟩) := by
  have goesOn : ¬ (Replicator.enabled node.raft && !Replicator.isLeader node.raft) = true := by
    intro waits
    obtain ⟨enabled, follows⟩ := Bool.and_eq_true_iff.mp waits
    rw [ready.leads enabled] at follows
    cases follows
  have taken : node.fsm.store.swept deps now limit =
      ((node.fsm.store.expiredItems deps now).take limit).map Prod.fst := List.map_take.symm
  rw [Node.reclaimExpired, if_neg goesOn, scanExpired_healthy deps now _ limit positive, taken]
  cases (node.fsm.store.expiredItems deps now).take limit with
  | nil => rfl
  | cons first rest => rfl

include lawful in
/-- A leader hands a reclaim to raft. -/
theorem submit_reclaim (env : Env) (request : ReclaimRequest)
    (enabled : Replicator.enabled node.raft = true) (leads : Replicator.isLeader node.raft = true) :
    ∃ data, node.submit deps env (.reclaim request) = (.proposed data, node) ∧
      decodeCommand deps data = .ok (.reclaim request) := by
  obtain ⟨fsm, raft⟩ := node
  cases raft with
  | none => cases enabled
  | some raft =>
    have leading : raft.leading = true := leads
    obtain ⟨value, packed, marshalled, isPacked, _⟩ := lawful.reclaimRequest request
    have encoded : encodeCommand deps (.reclaim request) = .ok (opReclaim :: packed) := by
      simp only [encodeCommand, encodePayload, marshalled, wrapError_ok, isPacked]
    refine ⟨_, ?_, decodeCommand_encodeCommand deps lawful _ _ encoded⟩
    simp only [Node.submit, Replicator.enabled, Option.isSome_some, if_true,
      Replicator.applyCommand, leading, encoded]

/-- The head record an entry persists does not expire. -/
theorem advanceChain_head (lawful : deps.Lawful) (fsm : Fsm) (entry : Entry) :
    headEntryKey deps ∉ (fsm.advanceChain deps (.healthy now) entry).store.expired deps now := by
  intro expired
  obtain ⟨record, isRecord, expired⟩ := (mem_expired deps now _ _).mp expired
  obtain ⟨raw, packed, _⟩ := unpackHead_packHead deps lawful
    ((fsm.ensureChain deps (.healthy now)).fold entry)
  have stored := congrFun (storeHead_records deps lawful now fsm.store
    ((fsm.ensureChain deps (.healthy now)).fold entry) entry.index) (headEntryKey deps)
  rw [Records.storeHead, packed] at stored
  obtain rfl := Option.some.inj
    (isRecord.symm.trans (stored.trans (Function.update_self _ _ _)))
  rw [lawful.neverExpires] at expired
  cases expired

variable (index term : UInt64)

include lawful positive ready in
/-- A round removes the expired records it has room for. -/
theorem reclaimRound_sweeps :
    Sweeps deps now limit node (node.reclaimRound deps (.healthy now) limit index term).1
      (node.reclaimRound deps (.healthy now) limit index term).2 := by
  rw [Node.reclaimRound, reclaimExpired_healthy deps now limit positive node ready]
  by_cases nothing : node.fsm.store.swept deps now limit = []
  · rw [if_pos nothing]
    refine ⟨?_, rfl, fun key member => ?_, fun _ _ _ => rfl, ready.head, fun _ => rfl⟩
    · rw [nothing]
      rfl
    · rw [nothing] at member
      exact absurd member List.not_mem_nil
  · have some_expired : node.fsm.store.expired deps now ≠ [] := by
      intro none
      rw [Store.swept, none, List.take_nil] at nothing
      exact nothing rfl
    rw [if_neg nothing]
    cases enabled : Replicator.enabled node.raft with
    | false =>
      obtain ⟨after, done, gone, kept⟩ := reclaim_listings deps now node.fsm.store limit
        node.fsm.store ready.valid fun _ _ => rfl
      rw [Node.submit, enabled]
      simp only [Bool.false_eq_true, if_false, runCommand, done, Prod.map]
      exact ⟨rfl, rfl, gone, fun key absent _ => kept key absent,
        fun isEnabled => absurd (enabled.symm.trans isEnabled) Bool.false_ne_true,
        fun none => absurd none some_expired⟩
    | true =>
      obtain ⟨data, submitted, decoded⟩ := submit_reclaim deps lawful node (.healthy now)
        ⟨((node.fsm.store.expiredItems deps now).take limit).map (listing deps)⟩ enabled
        (ready.leads enabled)
      have elsewhere : ∀ key, key ≠ headEntryKey deps →
          (node.fsm.advanceChain deps (.healthy now) ⟨index, term, data⟩).store.records deps key =
            node.fsm.store.records deps key := by
        intro key other
        rw [Fsm.advanceChain, storeHead_records deps lawful, storeHead_of_ne deps _ _ _ key other]
      have valid : ((node.fsm.advanceChain deps (.healthy now) ⟨index, term, data⟩).store.records
          deps).Valid := by
        rw [Fsm.advanceChain, storeHead_records deps lawful]
        exact valid_storeHead deps _ ready.valid _ _
      have spared : headEntryKey deps ∉ node.fsm.store.swept deps now limit :=
        fun member => ready.head enabled (List.mem_of_mem_take member)
      obtain ⟨after, done, gone, kept⟩ := reclaim_listings deps now node.fsm.store limit _ valid
        fun key member => elsewhere key fun same => spared (same ▸ member)
      have unexpired := advanceChain_head deps now lawful node.fsm ⟨index, term, data⟩
      rw [submitted]
      simp only [Fsm.apply, runEntry, decoded, runCommand, done, Prod.map]
      refine ⟨rfl, rfl, gone, fun key absent other => ?_, fun _ => ?_,
        fun none => absurd none some_expired⟩
      · exact (kept key absent).trans (elsewhere key (other enabled))
      · rw [mem_expired] at unexpired ⊢
        rw [show (id after).records deps _ = _ from kept _ spared]
        exact unexpired

end

section

variable {deps : Deps} {now : Int64} {limit : Nat} {before after : Node} {result : FsmResult}

theorem Sweeps.ready (sweeps : Sweeps deps now limit before result after)
    (ready : before.Sweeping deps now) : after.Sweeping deps now where
  leads := by
    rw [sweeps.raft]
    exact ready.leads
  valid key present := by
    by_cases isHead : key = headEntryKey deps
    · rw [isHead]
      exact refuseKey_headEntryKey deps
    · by_cases member : key ∈ before.fsm.store.swept deps now limit
      · exact absurd (sweeps.gone key member) present
      · rw [sweeps.kept key member fun _ => isHead] at present
        exact ready.valid key present
  head := by
    rw [sweeps.raft]
    exact sweeps.head

/-- What is left for the next round. -/
theorem Sweeps.remaining (sweeps : Sweeps deps now limit before result after)
    (ready : before.Sweeping deps now) :
    (after.fsm.store.expired deps now).Perm ((before.fsm.store.expired deps now).drop limit) := by
  have distinct := expired_nodup deps now before.fsm.store
  refine (List.perm_ext_iff_of_nodup (expired_nodup deps now _)
    (distinct.sublist (List.drop_sublist _ _))).mpr fun key => ?_
  have split : key ∈ (before.fsm.store.expired deps now).drop limit ↔
      key ∈ before.fsm.store.expired deps now ∧ key ∉ before.fsm.store.swept deps now limit := by
    constructor
    · exact fun later => ⟨List.mem_of_mem_drop later, fun earlier =>
        List.disjoint_take_drop distinct le_rfl earlier later⟩
    · rintro ⟨member, notSwept⟩
      rw [← List.take_append_drop limit (before.fsm.store.expired deps now)] at member
      exact (List.mem_append.mp member).resolve_left notSwept
  rw [split]
  constructor
  · intro member
    have notSwept : key ∉ before.fsm.store.swept deps now limit := by
      intro swept
      obtain ⟨record, isRecord, _⟩ := (mem_expired deps now _ key).mp member
      cases (sweeps.gone key swept).symm.trans isRecord
    have notHead : Replicator.enabled before.raft = true → key ≠ headEntryKey deps :=
      fun enabled isHead => sweeps.head enabled (isHead ▸ member)
    rw [mem_expired, sweeps.kept key notSwept notHead, ← mem_expired] at member
    exact ⟨member, notSwept⟩
  · rintro ⟨member, notSwept⟩
    have notHead : Replicator.enabled before.raft = true → key ≠ headEntryKey deps :=
      fun enabled isHead => ready.head enabled (isHead ▸ member)
    rw [mem_expired, sweeps.kept key notSwept notHead, ← mem_expired]
    exact member

end

section

variable (deps : Deps) (lawful : deps.Lawful) (now : Int64) (limit : Nat) (positive : 1 ≤ limit)
  (node : Node) (ready : node.Sweeping deps now) (positions : Nat → UInt64 × UInt64)

include lawful positive ready

theorem reclaimRounds_ready (count : Nat) :
    (node.reclaimRounds deps (.healthy now) limit positions count).Sweeping deps now ∧
      (node.reclaimRounds deps (.healthy now) limit positions count).raft = node.raft := by
  induction count with
  | zero => exact ⟨ready, rfl⟩
  | succ count inductionHypothesis =>
    obtain ⟨countReady, sameRaft⟩ := inductionHypothesis
    have sweeps := reclaimRound_sweeps deps lawful now limit positive _ countReady
      (positions count).1 (positions count).2
    exact ⟨sweeps.ready countReady, sweeps.raft.trans sameRaft⟩

theorem reclaimRounds_remaining (count : Nat) :
    ((node.reclaimRounds deps (.healthy now) limit positions count).fsm.store.expired deps
      now).length = (node.fsm.store.expired deps now).length - count * limit := by
  induction count with
  | zero => rw [Nat.zero_mul, Nat.sub_zero]; rfl
  | succ count inductionHypothesis =>
    obtain ⟨countReady, _⟩ :=
      reclaimRounds_ready deps lawful now limit positive node ready positions count
    have sweeps := reclaimRound_sweeps deps lawful now limit positive _ countReady
      (positions count).1 (positions count).2
    rw [Node.reclaimRounds, (sweeps.remaining countReady).length_eq, List.length_drop,
      inductionHypothesis, Nat.succ_mul]
    omega

/-- After as many rounds as the expired records fill, nothing is expired. -/
theorem reclaimRounds_done (count : Nat)
    (enough : ((node.fsm.store.expired deps now).length + limit - 1) / limit ≤ count) :
    (node.reclaimRounds deps (.healthy now) limit positions count).fsm.store.expired deps now =
      [] := by
  have filled : (node.fsm.store.expired deps now).length ≤ count * limit := by
    have rounds := (Nat.div_le_iff_le_mul_add_pred positive).mp enough
    rw [Nat.mul_comm] at rounds
    omega
  rw [← List.length_eq_zero_iff, reclaimRounds_remaining deps lawful now limit positive node ready]
  omega

/-- Rounds of the reclaimer on a leader, or where replication is off. Each removes the expired
records up to its limit and says how many they were; after as many rounds as it takes to get
through them none is left, and further rounds change nothing. The other records stay as they are in
every round, but for the head of the hash chain, which a leader rewrites with each entry. -/
theorem reclaimRounds_finish :
    (∀ count, ∃ removed : List Bytes, removed.Nodup ∧
      removed.length = min limit
        ((node.reclaimRounds deps (.healthy now) limit positions count).fsm.store.expired deps
          now).length ∧
      (∀ key ∈ removed, key ∈
        (node.reclaimRounds deps (.healthy now) limit positions count).fsm.store.expired deps now) ∧
      ((node.reclaimRounds deps (.healthy now) limit positions count).reclaimRound deps
        (.healthy now) limit (positions count).1 (positions count).2).1 =
          { reclaimed := removed.length } ∧
      (∀ key ∈ removed,
        (node.reclaimRounds deps (.healthy now) limit positions (count + 1)).fsm.store.records deps
          key = none) ∧
      ∀ key, key ∉ removed → (Replicator.enabled node.raft = true → key ≠ headEntryKey deps) →
        (node.reclaimRounds deps (.healthy now) limit positions (count + 1)).fsm.store.records deps
            key =
          (node.reclaimRounds deps (.healthy now) limit positions count).fsm.store.records deps
            key) ∧
    (∀ count, ((node.fsm.store.expired deps now).length + limit - 1) / limit ≤ count →
      (node.reclaimRounds deps (.healthy now) limit positions count).fsm.store.expired deps now =
        [] ∧
      node.reclaimRounds deps (.healthy now) limit positions count =
        node.reclaimRounds deps (.healthy now) limit positions
          (((node.fsm.store.expired deps now).length + limit - 1) / limit)) ∧
    ∀ count key record, node.fsm.store.records deps key = some record →
      deps.isExpired now record.expiresAt = false →
      (Replicator.enabled node.raft = true → key ≠ headEntryKey deps) →
        (node.reclaimRounds deps (.healthy now) limit positions count).fsm.store.records deps key =
          some record := by
  have round (count : Nat) := reclaimRound_sweeps deps lawful now limit positive _
    (reclaimRounds_ready deps lawful now limit positive node ready positions count).1
    (positions count).1 (positions count).2
  have sameRaft (count : Nat) :=
    (reclaimRounds_ready deps lawful now limit positive node ready positions count).2
  refine ⟨fun count => ?_, fun count enough => ?_,
    fun count key record isRecord unexpired other => ?_⟩
  · refine ⟨_, (expired_nodup deps now _).sublist (List.take_sublist limit _), List.length_take,
      fun key member => List.mem_of_mem_take member, (round count).counted, (round count).gone,
      fun key absent other => (round count).kept key absent ?_⟩
    rw [sameRaft count]
    exact other
  · refine ⟨reclaimRounds_done deps lawful now limit positive node ready positions count enough, ?_⟩
    induction count, enough using Nat.le_induction with
    | base => rfl
    | succ count enough inductionHypothesis =>
      rw [← inductionHypothesis]
      exact (round count).idle
        (reclaimRounds_done deps lawful now limit positive node ready positions count enough)
  · induction count with
    | zero => exact isRecord
    | succ count inductionHypothesis =>
      rw [← inductionHypothesis]
      refine (round count).kept key (fun swept => ?_) ?_
      · obtain ⟨found, isFound, expired⟩ :=
          (mem_expired deps now _ key).mp (List.mem_of_mem_take swept)
        obtain rfl := Option.some.inj (isFound.symm.trans inductionHypothesis)
        exact Bool.false_ne_true (unexpired.symm.trans expired)
      · rw [sameRaft count]
        exact other

end

theorem sampleLeader_sweeping : sampleLeader.Sweeping Reference.deps 200 where
  leads _ := rfl
  valid := by
    have ran := congrArg Replica.records
      (fresh_run_replica Reference.deps Reference.lawful 0 sampleDeliveries)
    have log : IsLog (sampleDeliveries.map Prod.snd) := Reference.sampleLog_committed.toIsLog
    have valid := valid_run Reference.deps sampleDeliveries Replica.fresh valid_fresh log.indexed
    rw [← ran] at valid
    exact valid
  head _ := by decide +kernel

/-- The leader removes the one record that has expired in its first round. -/
theorem reclaimRounds_finish_leader :
    sampleLeader.fsm.store.expired Reference.deps 200 =
        [(encodeKey Reference.deps Reference.sampleKey).1] ∧
      Store.expired Reference.deps 200
        (sampleLeader.reclaimRounds Reference.deps (.healthy 200) 1 (fun _ => (2, 1)) 1).fsm.store =
          [] := by
  have one : sampleLeader.fsm.store.expired Reference.deps 200 =
      [(encodeKey Reference.deps Reference.sampleKey).1] := by decide +kernel
  refine ⟨one, ((reclaimRounds_finish Reference.deps Reference.lawful 200 1 le_rfl sampleLeader
    sampleLeader_sweeping fun _ => (2, 1)).2.1 1 ?_).1⟩
  rw [one]
  exact le_rfl

/-- That round rewrites the record of the chain head, which has not expired. -/
theorem reclaimRound_rewrites_head :
    sampleLeader.Sweeping Reference.deps 200 ∧
      (∃ record, sampleLeader.fsm.store.records Reference.deps (headEntryKey Reference.deps) =
        some record ∧ Reference.deps.isExpired 200 record.expiresAt = false) ∧
      (sampleLeader.reclaimRound Reference.deps (.healthy 200) 1 2 1).2.fsm.store.records
          Reference.deps (headEntryKey Reference.deps) ≠
        sampleLeader.fsm.store.records Reference.deps (headEntryKey Reference.deps) := by
  refine ⟨sampleLeader_sweeping, ?_, by decide +kernel⟩
  have stored : ((sampleLeader.fsm.store.records Reference.deps (headEntryKey Reference.deps)).map
      fun record => Reference.deps.isExpired 200 record.expiresAt) = some false := by decide +kernel
  obtain ⟨record, isRecord, unexpired⟩ := Option.map_eq_some_iff.mp stored
  exact ⟨record, isRecord, unexpired⟩

end ConsensusDB
