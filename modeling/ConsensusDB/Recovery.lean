/-
This file is about nodes of a cluster that crash, restart and load snapshots. What such
a node holds may be ahead of the position at which it is handed the log: the entries
from there up to the reach of its store are applied a second time.

The records are described by a log and these two positions alone. Every record that no
entry in between writes is the one that the log up to the position leaves; nothing is
said of the others. This is kept when the node applies the next entry, as long as an
entry that is applied again overwrites whatever it writes, and it is kept by going back
to an earlier position and by loading a snapshot. At the end of the reach every record
is in line again. The head record of the ledger is left out: the chain in memory
outlives the loading of a snapshot, so it may stay behind.
-/

import ConsensusDB.Aliasing
import ConsensusDB.Cluster
import ConsensusDB.Install

namespace ConsensusDB

open Wire

/-! ### What a result depends on -/

/-- The keys under which a command reads and writes the store. -/
def Command.entryKeys (deps : Deps) : Command → List Bytes
  | .reclaim request => request.entries.map ReclaimEntry.entryKey
  | command => command.keys.map fun key => (encodeKey deps key).1

/-- The entry does not address the head record. What it holds need not be a command at all. -/
def Entry.AvoidsHead (deps : Deps) (entry : Entry) : Prop :=
  ∀ command, decodeCommand deps entry.data = .ok command →
    headEntryKey deps ∉ command.entryKeys deps

section

variable (deps : Deps) (now : Int64) {records others : Records}

theorem write_result {Result : Type} (context : String) (key : Bytes)
    (record other : Option StoredRecord) (result : Result) :
    (records.write context key record result).1 = (others.write context key other result).1 := by
  unfold Records.write
  cases refuseKey key with
  | none => rfl
  | some err => rfl

theorem setBatch_fst (request : BatchRequest) (index : UInt64) :
    (records.setBatch deps now request index).1 =
      (records.batchRecords deps now index request.records).map fun _ => ⟨true⟩ := by
  unfold Records.setBatch
  cases records.batchRecords deps now index request.records with
  | error err => rfl
  | ok after => rfl

theorem batchRecords_result (index : UInt64) (requests : List RecordRequest)
    (records others : Records) :
    (records.batchRecords deps now index requests).map (fun _ => Status.mk true) =
      (others.batchRecords deps now index requests).map fun _ => ⟨true⟩ := by
  induction requests generalizing records others with
  | nil => rfl
  | cons request rest inductionHypothesis =>
    simp only [Records.batchRecords]
    split
    · rfl
    · split
      · rfl
      · exact inductionHypothesis _ _

theorem reclaim_fst (request : ReclaimRequest) :
    (records.reclaim request).1 = (records.reclaimEntries request.entries).map Prod.fst := by
  unfold Records.reclaim
  cases records.reclaimEntries request.entries with
  | error err => rfl
  | ok outcome => rfl

theorem reclaimEntries_result (entries : List ReclaimEntry) (records others : Records)
    (same : ∀ key ∈ entries.map ReclaimEntry.entryKey, records key = others key) :
    (records.reclaimEntries entries).map Prod.fst =
      (others.reclaimEntries entries).map Prod.fst := by
  induction entries generalizing records others with
  | nil => rfl
  | cons entry rest inductionHypothesis =>
    obtain ⟨first, later⟩ := List.forall_mem_cons.mp same
    have next := inductionHypothesis records others later
    have removed := inductionHypothesis (Function.update records entry.entryKey none)
      (Function.update others entry.entryKey none) fun key member => by
        by_cases isEntry : key = entry.entryKey
        · rw [isEntry, Function.update_self, Function.update_self]
        · rw [Function.update_of_ne isEntry, Function.update_of_ne isEntry]
          exact later key member
    simp only [Records.reclaimEntries, first]
    split
    · rfl
    · split
      · exact next
      · split
        · exact next
        · split
          · rfl
          · revert removed
            cases Records.reclaimEntries (Function.update records entry.entryKey none) rest <;>
              cases Records.reclaimEntries (Function.update others entry.entryKey none) rest <;>
              simp +contextual [Except.map]

/-- The result of a command depends on nothing but the records under its keys. -/
theorem runCommand_result (index : UInt64) (command : Command)
    (same : ∀ key ∈ command.entryKeys deps, records key = others key) :
    (records.runCommand deps now index command).1 =
      (others.runCommand deps now index command).1 := by
  cases command with
  | put request =>
    refine congrArg FsmResult.ofStatus ?_
    show (records.put deps now request index).1 = (others.put deps now request index).1
    unfold Records.put
    cases named : request.key with
    | none => rfl
    | some key =>
      have cell := same (encodeKey deps key).1 (by simp [Command.entryKeys, Command.keys, named])
      simp only [cell]
      split
      · rfl
      · exact write_result _ _ _ _ _
  | touch request =>
    refine congrArg FsmResult.ofStatus ?_
    show (records.touch deps now request index).1 = (others.touch deps now request index).1
    unfold Records.touch
    cases named : request.key with
    | none => rfl
    | some key =>
      have cell := same (encodeKey deps key).1 (by simp [Command.entryKeys, Command.keys, named])
      simp only [cell]
      split
      · rfl
      · exact write_result _ _ _ _ _
  | remove request =>
    refine congrArg FsmResult.ofStatus ?_
    show (records.remove deps request).1 = (others.remove deps request).1
    unfold Records.remove
    cases request.key with
    | none => rfl
    | some key => exact write_result _ _ _ _ _
  | increment request =>
    refine congrArg FsmResult.ofIncrement ?_
    show (records.increment deps now request index).1 = (others.increment deps now request index).1
    unfold Records.increment
    cases named : request.key with
    | none => rfl
    | some key =>
      have cell := same (encodeKey deps key).1 (by simp [Command.entryKeys, Command.keys, named])
      simp only [cell, Records.versionAt]
      exact write_result _ _ _ _ _
  | batch request =>
    refine congrArg FsmResult.ofStatus ?_
    show (records.setBatch deps now request index).1 = (others.setBatch deps now request index).1
    rw [setBatch_fst, setBatch_fst]
    exact batchRecords_result deps now index request.records records others
  | reclaim request =>
    refine congrArg FsmResult.ofReclaim ?_
    show (records.reclaim request).1 = (others.reclaim request).1
    rw [reclaim_fst, reclaim_fst]
    exact reclaimEntries_result request.entries records others same

/-- Replicas that hold the same records, the head of the ledger apart, answer an entry alike that
does not address it. -/
theorem apply_result_avoids (lawful : deps.Lawful) (first second : Int64) (replica other : Replica)
    (entry : Entry) (routed : Routed deps entry.data) (avoids : entry.AvoidsHead deps)
    (same : ∀ key, key ≠ headEntryKey deps → replica.records key = other.records key) :
    (replica.apply deps first entry).1 = (other.apply deps second entry).1 := by
  show (Records.runEntry deps first (replica.records.storeHead deps _ entry.index) entry).1 =
    (Records.runEntry deps second (other.records.storeHead deps _ entry.index) entry).1
  rw [runEntry_routed deps lawful first second _ entry routed]
  unfold Records.runEntry
  cases decoded : decodeCommand deps entry.data with
  | error err => rfl
  | ok command =>
    refine runCommand_result deps second entry.index command fun key member => ?_
    have isOther : key ≠ headEntryKey deps := fun isHead =>
      avoids command decoded (isHead ▸ member)
    rw [storeHead_of_ne deps _ _ _ key isOther, storeHead_of_ne deps _ _ _ key isOther,
      same key isOther]

end

/-! ### Records that may be behind -/

/-- Whatever record the entry writes, it overwrites. -/
def Entry.Overwrites (deps : Deps) (entry : Entry) : Prop :=
  ∀ key, entry.operations deps key ≠ [] → ∃ step ∈ entry.operations deps key, step.overwrites

/-- The entries of a log from a position on, up to another one. -/
def between (log : List Entry) (position reach : Nat) : List Entry := (log.take reach).drop position

theorem take_between (log : List Entry) {position reach : Nat} (within : position ≤ reach) :
    log.take reach = log.take position ++ between log position reach := by
  have front : (log.take reach).take position = log.take position := by
    rw [List.take_take, Nat.min_eq_left within]
  rw [between, ← front, List.take_append_drop]

theorem between_split (log : List Entry) {position middle reach : Nat} (below : position ≤ middle)
    (within : middle ≤ reach) (known : middle ≤ log.length) :
    between log position reach = between log position middle ++ between log middle reach := by
  rw [between, take_between log within, List.drop_append_of_le_length]
  · rfl
  · rwa [List.length_take, Nat.min_eq_left known]

theorem between_append (log more : List Entry) {position reach : Nat} (known : reach ≤ log.length) :
    between (log ++ more) position reach = between log position reach := by
  rw [between, List.take_append_of_le_length known, between]

theorem between_self (log : List Entry) (position : Nat) : between log position position = [] :=
  List.drop_eq_nil_of_le (List.length_take_le _ _)

theorem between_next (log : List Entry) {position reach : Nat} {entry : Entry}
    (isNext : log[position]? = some entry) (within : position < reach) :
    between log position reach = entry :: between log (position + 1) reach := by
  have found : (log.take reach)[position]? = some entry := by
    rw [List.getElem?_take_of_lt within, isNext]
  obtain ⟨bound, isEntry⟩ := List.getElem?_eq_some_iff.mp found
  rw [between, ← List.getElem_cons_drop bound, isEntry, between]

/-- The records are those of the log up to the position, but for what the entries from there up to
the reach write, and for the head of the ledger. -/
structure Repairable (deps : Deps) (log : List Entry) (records : Records) (position reach : Nat) :
    Prop where
  within : position ≤ reach
  known : reach ≤ log.length
  valid : records.Valid
  cell : ∀ key, key ≠ headEntryKey deps → operationsOf deps key (between log position reach) = [] →
    records key = Replay.run IndexedOp.act (operationsOf deps key (log.take position)) none

namespace Repairable

variable {deps : Deps} {log : List Entry} {records : Records} {position reach : Nat}

theorem start : Repairable deps [] Replica.fresh.records 0 0 where
  within := le_rfl
  known := le_rfl
  valid := valid_fresh
  cell _ _ _ := rfl

theorem extend (state : Repairable deps log records position reach) (more : List Entry) :
    Repairable deps (log ++ more) records position reach where
  within := state.within
  known := state.known.trans (by rw [List.length_append]; exact Nat.le_add_right _ _)
  valid := state.valid
  cell key other untouched := by
    rw [between_append log more state.known] at untouched
    rw [List.take_append_of_le_length (state.within.trans state.known)]
    exact state.cell key other untouched

/-- What no entry between two positions writes is the same at both of them. -/
theorem run_untouched {key : Bytes} {earlier : Nat} (below : earlier ≤ position)
    (untouched : operationsOf deps key (between log earlier position) = [])
    (cell : Option StoredRecord) :
    Replay.run IndexedOp.act (operationsOf deps key (log.take position)) cell =
      Replay.run IndexedOp.act (operationsOf deps key (log.take earlier)) cell := by
  rw [take_between log below, operationsOf_append, untouched, List.append_nil]

theorem rewind (state : Repairable deps log records position reach) {earlier : Nat}
    (below : earlier ≤ position) : Repairable deps log records earlier reach where
  within := below.trans state.within
  known := state.known
  valid := state.valid
  cell key other untouched := by
    rw [between_split log below state.within (state.within.trans state.known), operationsOf_append]
      at untouched
    obtain ⟨before, after⟩ := List.append_eq_nil_iff.mp untouched
    rw [state.cell key other after, run_untouched below before]

/-- At the end of the reach the records are those of a replica that applies the log by itself. -/
theorem in_line (lawful : deps.Lawful) (committed : Committed deps log)
    (state : Repairable deps log records reach reach) (deliveries : List (Int64 × Entry))
    (delivered : deliveries.map Prod.snd = log.take reach) (key : Bytes)
    (other : key ≠ headEntryKey deps) :
    records key = (Replica.fresh.run deps deliveries).records key := by
  have proper := committed.delivered delivered (List.take_subset reach log)
  rw [run_cell deps lawful deliveries Replica.fresh valid_fresh proper key other, delivered]
  refine state.cell key other ?_
  rw [between_self]
  rfl

/-- Applying the next entry. If it is applied again it has to overwrite what it writes. -/
theorem apply (lawful : deps.Lawful) (now : Int64) (replica : Replica)
    (state : Repairable deps log replica.records position reach) (entry : Entry)
    (proper : entry.Proper deps) (isNext : log[position]? = some entry)
    (again : position < reach → entry.Overwrites deps) :
    Repairable deps log (replica.apply deps now entry).2.records (position + 1)
      (max reach (position + 1)) where
  within := Nat.le_max_right _ _
  known := Nat.max_le.mpr ⟨state.known, (List.getElem?_eq_some_iff.mp isNext).1⟩
  valid := valid_apply deps now replica state.valid entry proper.indexed
  cell key other untouched := by
    have once : operationsOf deps key (log.take (position + 1)) =
        operationsOf deps key (log.take position) ++ entry.operations deps key := by
      rw [List.take_add_one, isNext, Option.toList_some, operationsOf_append, operationsOf_cons]
      exact congrArg _ (List.append_nil _)
    rw [apply_cell deps lawful now replica state.valid entry proper key other, once,
      Replay.run_append]
    rcases Nat.lt_or_eq_of_le state.within with replayed | rfl
    · by_cases silent : entry.operations deps key = []
      · rw [Nat.max_eq_left replayed] at untouched
        rw [state.cell key other]
        rw [between_next log isNext replayed, operationsOf_cons, silent, untouched]
        rfl
      · obtain ⟨step, member, overwrites⟩ := again replayed key silent
        exact Replay.run_forgets _ _ step member (forgets_of_overwrites step overwrites) _ _
    · rw [state.cell key other]
      rw [between_self]
      rfl

/-- Loading a snapshot. Where the target is behind it, no record of the target may outlive the
snapshot's, unless they are the same. -/
theorem restore {target source : Fsm} {noted saved : Nat}
    (state : Repairable deps log (target.store.records deps) position reach)
    (snapshot : Repairable deps log (source.store.records deps) noted saved)
    (replaces : position < noted → ∀ key, Mvcc.Outlives target.store.db source.persist key →
      target.store.records deps key = source.store.records deps key) :
    Repairable deps log ((target.restore source.persist).store.records deps) noted
      (max reach saved) where
  within := snapshot.within.trans (Nat.le_max_right _ _)
  known := Nat.max_le.mpr ⟨state.known, snapshot.known⟩
  valid := valid_restore deps target source state.valid snapshot.valid
  cell key other untouched := by
    have upTo {middle : Nat} (above : noted ≤ middle) (below : middle ≤ max reach saved)
        (known : middle ≤ log.length) : operationsOf deps key (between log noted middle) = [] := by
      rw [between_split log above below known, operationsOf_append] at untouched
      exact (List.append_eq_nil_iff.mp untouched).1
    have isSource := snapshot.cell key other
      (upTo snapshot.within (Nat.le_max_right _ _) snapshot.known)
    by_cases outlives : Mvcc.Outlives target.store.db source.persist key
    · rw [(restore_record deps target source key).2 outlives]
      rcases Nat.lt_or_ge position noted with behind | ahead
      · rw [replaces behind key outlives, isSource]
      · have reached := upTo (ahead.trans state.within) (Nat.le_max_left _ _) state.known
        rw [between_split log ahead state.within (state.within.trans state.known),
          operationsOf_append] at reached
        obtain ⟨before, after⟩ := List.append_eq_nil_iff.mp reached
        rw [state.cell key other after, run_untouched ahead before]
    · rw [(restore_record deps target source key).1 outlives, isSource]

end Repairable

/-! ### Clusters that can be brought in line -/

/-- What the node holds is repaired by the entries it is handed next, and those of them that it has
applied before overwrite what they write. -/
structure Member.Recovers (deps : Deps) (log : List Entry) (member : Member) : Prop where
  repairable : Repairable deps log (member.node.fsm.store.records deps) member.applied.length
    member.reach
  again : ∀ entry ∈ between log member.applied.length member.reach, entry.Overwrites deps

/-- Snapshots can be repaired too. -/
structure Cluster.Recovers {Id : Type} (deps : Deps) (cluster : Cluster Id) : Prop where
  members : ∀ id, (cluster.members id).Recovers deps cluster.log
  persisted : ∀ saved ∈ cluster.persisted, Repairable deps cluster.log
    (saved.source.store.records deps) saved.applied.length saved.reach

namespace Member

variable {deps : Deps} {log : List Entry} {member : Member}

theorem Recovers.extend (recovers : member.Recovers deps log) (more : List Entry) :
    member.Recovers deps (log ++ more) where
  repairable := recovers.repairable.extend more
  again := by
    rw [between_append _ _ recovers.repairable.known]
    exact recovers.again

theorem Recovers.deliver (lawful : deps.Lawful) (recovers : member.Recovers deps log) (now : Int64)
    (entry : Entry) (proper : entry.Proper deps)
    (isNext : log[member.applied.length]? = some entry) :
    (member.deliver deps now entry).Recovers deps log := by
  have length : (member.deliver deps now entry).applied.length = member.applied.length + 1 :=
    List.length_append
  have records : ((member.deliver deps now entry).node.fsm.store.records deps) =
      ((member.node.fsm.replica deps).apply deps now entry).2.records :=
    congrArg Replica.records (replica_apply deps lawful now member.node.fsm entry)
  constructor
  · rw [length, records]
    refine recovers.repairable.apply lawful now (member.node.fsm.replica deps) entry proper isNext
      fun replayed => recovers.again entry ?_
    rw [between_next _ isNext replayed]
    exact List.mem_cons_self
  · rw [length]
    intro other isAgain
    change other ∈ between log _ (max member.reach (member.applied.length + 1)) at isAgain
    rcases Nat.lt_or_eq_of_le recovers.repairable.within with replayed | isReach
    · rw [Nat.max_eq_left replayed] at isAgain
      refine recovers.again other ?_
      rw [between_next _ isNext replayed]
      exact List.mem_cons_of_mem _ isAgain
    · rw [← isReach, Nat.max_eq_right (Nat.le_succ _), between_self] at isAgain
      cases isAgain

theorem Recovers.restart (recovers : member.Recovers deps log) (now : Int64) (position : Nat)
    (overwrites : ∀ entry ∈ between log position member.reach, entry.Overwrites deps) :
    (member.restart deps now position).Recovers deps log := by
  have length : (member.restart deps now position).applied.length =
      min position member.applied.length := List.length_take
  constructor
  · rw [length]
    exact recovers.repairable.rewind (Nat.min_le_right _ _)
  · rw [length]
    rcases Nat.le_total position member.applied.length with earlier | later
    · rw [Nat.min_eq_left earlier]
      exact overwrites
    · rw [Nat.min_eq_right later]
      exact recovers.again

end Member

namespace Cluster

variable {Id : Type} (deps : Deps)

/-- A step after which the cluster can be brought in line. The entries that a node is handed again
overwrite what they write; where a node is behind a snapshot it loads, no record of it outlives the
snapshot's; and a node that was interrupted applies no entry that addresses the head record. -/
def Harmless (cluster : Cluster Id) : ClusterStep Id → Prop
  | .apply id _ => (cluster.members id).interrupted = true → ∀ entry,
      cluster.log[(cluster.members id).applied.length]? = some entry → entry.AvoidsHead deps
  | .restart id _ position =>
      ∀ entry ∈ between cluster.log position (cluster.members id).reach, entry.Overwrites deps
  | .install id position => ∀ saved, cluster.persisted[position]? = some saved →
      (∀ entry ∈ between cluster.log saved.applied.length
          (max (cluster.members id).reach saved.reach), entry.Overwrites deps) ∧
        ((cluster.members id).applied.length < saved.applied.length → ∀ key,
          Mvcc.Outlives (cluster.members id).node.fsm.store.db saved.source.persist key →
          (cluster.members id).node.fsm.store.records deps key =
            saved.source.store.records deps key)
  | _ => True

theorem recovers_start (started : Id → Int64) (roles : Id → Raft) :
    (start deps started roles).Recovers deps where
  members id := by
    have empty := congrArg Replica.records (fresh_replica deps (started id))
    refine ⟨?_, fun _ member => nomatch member⟩
    show Repairable deps [] ((Fsm.fresh deps (Env.healthy (started id))).replica deps).records 0 0
    rw [empty]
    exact .start
  persisted _ member := nomatch member

variable {deps} [DecidableEq Id] {cluster : Cluster Id}

theorem Recovers.set (recovers : cluster.Recovers deps) {id : Id} {member : Member}
    (recovered : member.Recovers deps cluster.log) : (cluster.set id member).Recovers deps :=
  { recovers with members := forall_set _ (fun other => recovers.members other) recovered }

/-- Harmless steps keep a cluster that can be brought in line. -/
theorem Recovers.step (lawful : deps.Lawful) {started : Id → Int64} {next : Cluster Id}
    (taken : ClusterStep Id) (tracks : cluster.Tracks deps started)
    (recovers : cluster.Recovers deps) (harmless : cluster.Harmless deps taken)
    (stepped : cluster.step deps taken = some next) : next.Recovers deps := by
  have proposes (id : Id) (outcome : Outcome × Node)
      (kept : outcome.2 = (cluster.members id).node) :
      (cluster.propose id outcome).Recovers deps := by
    have isSet : (cluster.set id { cluster.members id with node := outcome.2 }).Recovers deps :=
      recovers.set (by rw [kept]; exact recovers.members id)
    exact { isSet with }
  cases taken with
  | raftChanges id raft =>
    cases stepped
    exact recovers.set { recovers.members id with }
  | write id now request =>
    cases stepped
    exact proposes id _ (handle_replicated deps _ _ request (tracks.members id).raft)
  | sweep id now cancelled limit =>
    cases stepped
    exact proposes id _
      (reclaimExpired_replicated deps _ _ cancelled limit (tracks.members id).raft)
  | commit position index term waits =>
    rw [Cluster.step] at stepped
    split at stepped
    · cases stepped
    · rename_i id data _
      split at stepped
      · cases stepped
        have extended (other : Id) := (recovers.members other).extend [⟨index, term, data⟩]
        exact ⟨forall_set _ extended { extended _ with },
          fun saved member => (recovers.persisted saved member).extend _⟩
      · cases stepped
  | apply id now =>
    rw [Cluster.step] at stepped
    split at stepped
    · cases stepped
    · rename_i entry found
      cases stepped
      exact recovers.set ((recovers.members id).deliver lawful now entry
        (tracks.log.proper (List.mem_of_getElem? found)) found)
  | snapshot id position =>
    cases stepped
    refine ⟨recovers.members, List.forall_mem_append.mpr ⟨recovers.persisted,
      List.forall_mem_singleton.mpr ?_⟩⟩
    rw [Member.snapshot, List.length_take]
    exact (recovers.members id).repairable.rewind (Nat.min_le_right _ _)
  | restart id now position =>
    cases stepped
    exact recovers.set ((recovers.members id).restart now position harmless)
  | install id position =>
    rw [Cluster.step] at stepped
    split at stepped
    · cases stepped
    · rename_i saved found
      cases stepped
      obtain ⟨again, replaces⟩ := harmless saved found
      exact recovers.set ⟨(recovers.members id).repairable.restore
        (recovers.persisted saved (List.mem_of_getElem? found)) replaces, again⟩

end Cluster

end ConsensusDB
