/-
This file is about crashes between two applied entries. A restart keeps the
store and loses the chain in memory, which is seeded again from the stored
head record; the entries after the last snapshot are delivered once more.

The chain survives when the last entry before the crash left the head record
alone. The stored records survive the redelivery when every record but the
head can be run twice: some redelivered operation overwrites it outright, or
each of them, given the record it found the first time and the one stored at
the crash, does nothing new. The second case is a coupling of the first pass
with the second.
-/

import ConsensusDB.Cells
import ConsensusDB.Reference

namespace ConsensusDB

open Wire

/-! ### The head record -/

/-- The operation leaves a head record alone that was just written at its own index. -/
def IndexedOp.sparesHead (step : IndexedOp) : Bool :=
  match step.op with
  | .put none _ _ _ => false
  | .put (some expected) _ _ _ => expected != step.index
  | .touch expiresAt => expiresAt == 0
  | .remove => false
  | .increment _ _ _ => false
  | .reclaim version => version != step.index

/-- The entry does not write the head record after persisting its own head there. -/
def Entry.sparesHead (deps : Deps) (entry : Entry) : Bool :=
  (entry.operations deps (headEntryKey deps)).all IndexedOp.sparesHead

theorem act_sparesHead (step : IndexedOp) (record : StoredRecord)
    (version : record.version = step.index) (expiry : record.expiresAt = 0)
    (spares : step.sparesHead) : step.act (some record) = some record := by
  obtain ⟨index, op⟩ := step
  obtain ⟨value, _, _, userMeta⟩ := record
  subst version expiry
  cases op with
  | put expected value expiresAt userMeta =>
    cases expected with
    | none => cases spares
    | some expected => exact if_neg (bne_iff_ne.mp spares)
  | touch expiresAt =>
    rw [eq_of_beq spares]
    rfl
  | remove => cases spares
  | increment initial delta expiresAt => cases spares
  | reclaim listed =>
    refine if_neg fun equal => bne_iff_ne.mp spares ?_
    exact (Option.some_inj.mp equal).symm

theorem operations_index (deps : Deps) (key : Bytes) (entry : Entry) (step : IndexedOp)
    (member : step ∈ entry.operations deps key) : step.index = entry.index := by
  unfold Entry.operations at member
  split at member
  · cases member
  · obtain ⟨op, _, rfl⟩ := List.mem_map.mp member
    rfl

theorem run_sparesHead (steps : List IndexedOp) (record : StoredRecord)
    (version : ∀ step ∈ steps, record.version = step.index) (expiry : record.expiresAt = 0)
    (spares : steps.all IndexedOp.sparesHead) :
    Replay.run IndexedOp.act steps (some record) = some record := by
  induction steps with
  | nil => rfl
  | cons step rest inductionHypothesis =>
    rw [List.all_cons, Bool.and_eq_true] at spares
    rw [Replay.run_cons, act_sparesHead step record (version step List.mem_cons_self) expiry
      spares.1]
    exact inductionHypothesis (fun later member => version later (List.mem_cons_of_mem _ member))
      spares.2

/-! ### Running operations twice -/

/-- The operation overwrites the record, whatever it was. -/
def IndexedOp.overwrites (step : IndexedOp) : Bool :=
  match step.op with
  | .put none _ _ _ => true
  | .remove => true
  | _ => false

/-- The operation may be run again: `found` is the record it found the first time and `final`
the record it will find at the crash. A conditional operation must name a version older than its
own entry; a creation must have found nothing or must find something; a touch must have found
something or must find nothing; an increment always counts twice. -/
def IndexedOp.Repeatable (step : IndexedOp) (found final : Option StoredRecord) : Prop :=
  match step.op with
  | .put none _ _ _ => True
  | .put (some expected) _ _ _ =>
    if expected = 0 then found = none ∨ final ≠ none else expected < step.index
  | .touch _ => found ≠ none ∨ final = none
  | .remove => True
  | .increment _ _ _ => False
  | .reclaim version => version < step.index

/-- A record on which the operations may be run a second time: one of them overwrites it, or each
of them is repeatable. -/
def Replayable (start : Option StoredRecord) (steps : List IndexedOp) : Prop :=
  (∃ step ∈ steps, step.overwrites) ∨
    ∀ front step back, steps = front ++ step :: back →
      step.Repeatable (Replay.run IndexedOp.act front start)
        (Replay.run IndexedOp.act steps start)

theorem forgets_of_overwrites (step : IndexedOp) (overwrites : step.overwrites) :
    Replay.Forgets IndexedOp.act step := by
  intro first second
  obtain ⟨index, op⟩ := step
  cases op with
  | put expected value expiresAt userMeta =>
    cases expected with
    | none => rfl
    | some expected => cases overwrites
  | touch expiresAt => cases overwrites
  | remove => rfl
  | increment initial delta expiresAt => cases overwrites
  | reclaim version => cases overwrites

/-- An operation removes the record, leaves it, or stamps it with its index. -/
theorem act_outcome (step : IndexedOp) (cell : Option StoredRecord) :
    step.act cell = none ∨ step.act cell = cell ∨
      ∃ record, step.act cell = some record ∧ record.version = step.index := by
  obtain ⟨index, op⟩ := step
  cases op with
  | put expected value expiresAt userMeta =>
    cases expected with
    | none => exact Or.inr (Or.inr ⟨_, rfl, rfl⟩)
    | some expected =>
      by_cases passes : expected = cellVersion cell
      · exact Or.inr (Or.inr ⟨_, if_pos passes, rfl⟩)
      · exact Or.inr (Or.inl (if_neg passes))
  | touch expiresAt =>
    cases cell with
    | none => exact Or.inl rfl
    | some old => exact Or.inr (Or.inr ⟨_, rfl, rfl⟩)
  | remove => exact Or.inl rfl
  | increment initial delta expiresAt => exact Or.inr (Or.inr ⟨_, rfl, rfl⟩)
  | reclaim version =>
    by_cases matching : cell.map StoredRecord.version = some version
    · exact Or.inl (if_pos matching)
    · exact Or.inr (Or.inl (if_neg matching))

/-- Operations remove the record, leave it, or stamp it with the index of one of them. -/
theorem run_outcome (steps : List IndexedOp) (cell : Option StoredRecord) :
    Replay.run IndexedOp.act steps cell = none ∨ Replay.run IndexedOp.act steps cell = cell ∨
      ∃ record, Replay.run IndexedOp.act steps cell = some record ∧
        ∃ step ∈ steps, record.version = step.index := by
  induction steps generalizing cell with
  | nil => exact Or.inr (Or.inl rfl)
  | cons step rest inductionHypothesis =>
    rw [Replay.run_cons]
    rcases inductionHypothesis (step.act cell) with
      gone | same | ⟨record, stamped, by_, member, version⟩
    · exact Or.inl gone
    · rw [same]
      rcases act_outcome step cell with gone | unchanged | ⟨record, stamped, version⟩
      · exact Or.inl gone
      · exact Or.inr (Or.inl unchanged)
      · exact Or.inr (Or.inr ⟨record, stamped, step, List.mem_cons_self, version⟩)
    · exact Or.inr (Or.inr ⟨record, stamped, by_, List.mem_cons_of_mem _ member, version⟩)

/-- How the record of the first pass and that of the second stay related, when `final` is what
the first pass leaves: they are the same; or they differ in what they hold only, and the second
holds what the first will end with; or the second is still the final record. -/
inductive Coupled (final : Option StoredRecord) :
    Option StoredRecord → Option StoredRecord → Prop
  | same (cell : Option StoredRecord) : Coupled final cell cell
  | refreshed (first second last : StoredRecord) (isFinal : final = some last)
      (version : first.version = second.version) (expiry : first.expiresAt = second.expiresAt)
      (value : second.value = last.value) (userMeta : second.userMeta = last.userMeta) :
      Coupled final (some first) (some second)
  | untouched (cell : Option StoredRecord) : Coupled final cell final

/-- A final record that an operation did not itself leave is not older than the operation. -/
theorem final_version (step : IndexedOp) (back : List IndexedOp)
    (found final : Option StoredRecord) (last : StoredRecord)
    (isFinal : final = Replay.run IndexedOp.act back (step.act found))
    (above : ∀ later ∈ back, step.index ≤ later.index) (isLast : final = some last) :
    final = step.act found ∨ step.index ≤ last.version := by
  rcases run_outcome back (step.act found) with
    gone | same | ⟨record, stamped, later, member, version⟩
  · rw [isFinal, gone] at isLast
    cases isLast
  · exact Or.inl (isFinal.trans same)
  · rw [isFinal, stamped] at isLast
    obtain rfl := Option.some_inj.mp isLast
    rw [version]
    exact Or.inr (above later member)

theorem coupled_refreshed (step : IndexedOp) (final : Option StoredRecord)
    (first second last : StoredRecord) (isFinal : final = some last)
    (version : first.version = second.version) (expiry : first.expiresAt = second.expiresAt)
    (value : second.value = last.value) (userMeta : second.userMeta = last.userMeta)
    (repeatable : step.Repeatable (some first) final) :
    Coupled final (step.act (some first)) (step.act (some second)) := by
  have kept : Coupled final (some first) (some second) :=
    .refreshed first second last isFinal version expiry value userMeta
  obtain ⟨index, op⟩ := step
  cases op with
  | put expected newValue expiresAt newMeta =>
    cases expected with
    | none => exact .same _
    | some expected =>
      have sameVersion : cellVersion (some first) = cellVersion (some second) := version
      simp only [IndexedOp.act, sameVersion]
      split
      · exact .same _
      · exact kept
  | touch expiresAt => exact .refreshed _ _ last isFinal rfl rfl value userMeta
  | remove => exact .same _
  | increment initial delta expiresAt => exact absurd repeatable id
  | reclaim listed =>
    simp only [IndexedOp.act, Option.map_some, version]
    split
    · exact .same _
    · exact kept

/-- The final record does not have the older version that a conditional put expects. -/
theorem expected_ne_final (index expected : UInt64) (value : Bytes) (expiresAt : Int64)
    (userMeta : UInt8) (found : Option StoredRecord) (last : StoredRecord)
    (older : expected < index)
    (left : some last = IndexedOp.act ⟨index, .put (some expected) value expiresAt userMeta⟩ found ∨
      index ≤ last.version) : expected ≠ last.version := by
  intro named
  rcases left with own | newer
  · by_cases passes : expected = cellVersion found
    · have stamped : last.version = index := by
        simp only [IndexedOp.act, if_pos passes] at own
        exact congrArg StoredRecord.version (Option.some_inj.mp own)
      grind
    · simp only [IndexedOp.act, if_neg passes] at own
      exact passes (by rw [← own]; exact named)
  · grind

/-- The final record does not have the older version that a sweep has listed. -/
theorem listed_ne_final (index listed : UInt64) (found : Option StoredRecord) (last : StoredRecord)
    (older : listed < index)
    (left : some last = IndexedOp.act ⟨index, .reclaim listed⟩ found ∨ index ≤ last.version) :
    last.version ≠ listed := by
  intro named
  rcases left with own | newer
  · by_cases passes : found.map StoredRecord.version = some listed
    · simp only [IndexedOp.act, if_pos passes] at own
      cases own
    · simp only [IndexedOp.act, if_neg passes] at own
      exact passes (by rw [← own, ← named]; rfl)
  · grind

theorem coupled_untouched (step : IndexedOp) (back : List IndexedOp)
    (found final : Option StoredRecord)
    (isFinal : final = Replay.run IndexedOp.act back (step.act found))
    (above : ∀ later ∈ back, step.index ≤ later.index)
    (nonzero : ∀ last, final = some last → last.version ≠ 0)
    (repeatable : step.Repeatable found final) :
    Coupled final (step.act found) (step.act final) := by
  have left (last : StoredRecord) (isLast : final = some last) :
      some last = step.act found ∨ step.index ≤ last.version :=
    isLast ▸ final_version step back found final last isFinal above isLast
  obtain ⟨index, op⟩ := step
  cases op with
  | put expected value expiresAt userMeta =>
    cases expected with
    | none => exact .same _
    | some expected =>
      have refused (mismatch : expected ≠ cellVersion final) :
          Coupled final (IndexedOp.act ⟨index, .put (some expected) value expiresAt userMeta⟩ found)
            (IndexedOp.act ⟨index, .put (some expected) value expiresAt userMeta⟩ final) := by
        have unchanged :
            IndexedOp.act ⟨index, .put (some expected) value expiresAt userMeta⟩ final = final :=
          if_neg mismatch
        rw [unchanged]
        exact .untouched _
      cases isLast : final with
      | none =>
        subst isLast
        by_cases creation : expected = 0
        · simp only [IndexedOp.Repeatable, if_pos creation] at repeatable
          obtain rfl : found = none := repeatable.resolve_right fun present => present rfl
          exact .same _
        · exact refused creation
      | some last =>
        rw [isLast] at refused repeatable
        refine refused fun matching => ?_
        have named : expected = last.version := matching
        by_cases creation : expected = 0
        · exact nonzero last isLast (named.symm.trans creation)
        · simp only [IndexedOp.Repeatable, if_neg creation] at repeatable
          exact expected_ne_final index expected value expiresAt userMeta found last repeatable
            (left last isLast) named
  | touch expiresAt =>
    cases isLast : final with
    | none => exact .untouched _
    | some last =>
      rw [isLast] at repeatable
      obtain ⟨first, rfl⟩ := Option.ne_none_iff_exists'.mp
        (repeatable.resolve_right (Option.some_ne_none last))
      exact .refreshed _ _ last rfl rfl rfl rfl rfl
  | remove => exact .same _
  | increment initial delta expiresAt => exact absurd repeatable id
  | reclaim listed =>
    have kept : final.map StoredRecord.version ≠ some listed := by
      intro matching
      obtain ⟨last, isLast, named⟩ := Option.map_eq_some_iff.mp matching
      exact listed_ne_final index listed found last repeatable (left last isLast) named
    have unchanged : IndexedOp.act ⟨index, .reclaim listed⟩ final = final := if_neg kept
    rw [unchanged]
    exact .untouched _

/-- Operations in index order that are replayable on a record leave the same record when they
are run a second time. -/
theorem run_replayable (start : Option StoredRecord) (steps : List IndexedOp)
    (ordered : steps.Pairwise fun earlier later => earlier.index ≤ later.index)
    (indexed : ∀ step ∈ steps, step.index ≠ 0)
    (versioned : ∀ record, start = some record → record.version ≠ 0)
    (replayable : Replayable start steps) :
    Replay.run IndexedOp.act steps (Replay.run IndexedOp.act steps start) =
      Replay.run IndexedOp.act steps start := by
  rcases replayable with ⟨step, member, overwrites⟩ | repeatable
  · exact Replay.run_forgets IndexedOp.act steps step member
      (forgets_of_overwrites step overwrites) _ _
  · have nonzero : ∀ last, Replay.run IndexedOp.act steps start = some last → last.version ≠ 0 := by
      intro last isLast
      rcases run_outcome steps start with gone | same | ⟨record, stamped, step, member, version⟩
      · rw [gone] at isLast
        cases isLast
      · exact versioned last (same.symm.trans isLast)
      · obtain rfl := Option.some_inj.mp (stamped.symm.trans isLast)
        rw [version]
        exact indexed step member
    have coupled := Replay.run_coupled IndexedOp.act steps start
      (Replay.run IndexedOp.act steps start) (Coupled (Replay.run IndexedOp.act steps start))
      (.untouched start) fun front step back split related => by
        have isFinal : Replay.run IndexedOp.act steps start =
            Replay.run IndexedOp.act back (step.act (Replay.run IndexedOp.act front start)) := by
          conv_lhs => rw [split, Replay.run_append, Replay.run_cons]
        have above : ∀ later ∈ back, step.index ≤ later.index := by
          rw [split] at ordered
          exact fun later member =>
            List.rel_of_pairwise_cons (List.pairwise_append.mp ordered).2.1 member
        have safe := repeatable front step back split
        generalize Replay.run IndexedOp.act front start = found at related isFinal safe
        generalize Replay.run IndexedOp.act front (Replay.run IndexedOp.act steps start) = second
          at related
        cases related with
        | same => exact .same _
        | refreshed first second last isLast version expiry value userMeta =>
          exact coupled_refreshed step _ first second last isLast version expiry value userMeta safe
        | untouched => exact coupled_untouched step back found _ isFinal above nonzero safe
    generalize final : Replay.run IndexedOp.act steps start = first at coupled
    generalize Replay.run IndexedOp.act steps first = second at coupled
    cases coupled with
    | same => rfl
    | refreshed first second last isFinal version expiry value userMeta =>
      obtain rfl := Option.some_inj.mp isFinal
      obtain ⟨_, _, _, _⟩ := first
      obtain ⟨_, _, _, _⟩ := second
      simp_all
    | untouched => rfl

/-! ### Redelivery after a restart -/

theorem operationsOf_cons (deps : Deps) (key : Bytes) (entry : Entry) (rest : List Entry) :
    operationsOf deps key (entry :: rest) =
      entry.operations deps key ++ operationsOf deps key rest :=
  List.flatMap_cons

theorem operationsOf_append (deps : Deps) (key : Bytes) (first second : List Entry) :
    operationsOf deps key (first ++ second) =
      operationsOf deps key first ++ operationsOf deps key second :=
  List.flatMap_append

theorem mem_operationsOf (deps : Deps) (key : Bytes) (entries : List Entry) (step : IndexedOp)
    (member : step ∈ operationsOf deps key entries) :
    ∃ entry ∈ entries, step.index = entry.index := by
  obtain ⟨entry, inEntries, inOperations⟩ := List.mem_flatMap.mp member
  exact ⟨entry, inEntries, operations_index deps key entry step inOperations⟩

theorem operationsOf_ordered (deps : Deps) (key : Bytes) (entries : List Entry)
    (log : IsLog entries) :
    (operationsOf deps key entries).Pairwise fun earlier later => earlier.index ≤ later.index := by
  induction entries with
  | nil => exact List.Pairwise.nil
  | cons entry rest inductionHypothesis =>
    rw [operationsOf_cons]
    refine List.pairwise_append.mpr ⟨?_, inductionHypothesis log.tail, ?_⟩
    · refine List.pairwise_of_forall_mem_list fun first firstMember second secondMember => ?_
      rw [operations_index deps key entry first firstMember,
        operations_index deps key entry second secondMember]
      exact UInt64.le_refl _
    · intro first firstMember second secondMember
      obtain ⟨later, laterMember, index⟩ := mem_operationsOf deps key rest second secondMember
      rw [operations_index deps key entry first firstMember, index]
      exact UInt64.le_of_lt (log.head_lt laterMember)

section

variable (deps : Deps) (lawful : deps.Lawful)

include lawful in
/-- After a run whose last entry spares it, the head record is the head of the chain. -/
theorem run_head_spared (replica : Replica) (chain : HashChain)
    (seeded : replica.chain = some chain)
    (valid : replica.records.Valid) (deliveries : List (Int64 × Entry))
    (proper : ∀ delivery ∈ deliveries, delivery.2.Proper deps) (last : Entry)
    (isLast : (deliveries.map Prod.snd).getLast? = some last) (spares : last.sparesHead deps) :
    (replica.run deps deliveries).records (headEntryKey deps) =
      some (headRecordOf deps (chain.foldAll (deliveries.map Prod.snd)) last.index) := by
  rw [run_head deps lawful replica valid deliveries proper last isLast _
    (run_chain deps deliveries replica chain seeded)]
  refine run_sparesHead _ _ (fun step member => ?_) rfl spares
  exact (operations_index deps _ last step member).symm

theorem valid_fresh : Replica.fresh.records.Valid := fun _ present => absurd rfl present

include lawful in
/-- A restart after a log whose last entry spares the head record seeds the chain with the head
of the log. -/
theorem restart_chain (entries : List Entry) (committed : Committed deps entries)
    (deliveries : List (Int64 × Entry)) (delivered : deliveries.map Prod.snd = entries)
    (spares : ∀ last, entries.getLast? = some last → last.sparesHead deps) (now : Int64) :
    ((Replica.fresh.run deps deliveries).restart deps now).chain = some (headOf entries) := by
  have proper := committed.delivered delivered (List.Subset.refl _)
  show some ((Replica.fresh.run deps deliveries).records.loadHead deps now) = _
  refine congrArg some ?_
  cases isLast : entries.getLast? with
  | none =>
    obtain rfl := List.getLast?_eq_none_iff.mp isLast
    obtain rfl := List.map_eq_nil_iff.mp delivered
    rfl
  | some last =>
    rw [← delivered] at isLast
    refine loadHead_of_headRecord deps lawful now _ _ last.index ?_
    rw [← delivered]
    refine run_head_spared deps lawful Replica.fresh .genesis rfl valid_fresh deliveries proper
      last isLast (spares last ?_)
    rw [← delivered]
    exact isLast

/-- The record that operations leave has the index of one of their entries. -/
theorem version_of_operations (key : Bytes) (log : List Entry)
    (indexed : ∀ entry ∈ log, entry.index ≠ 0) (record : StoredRecord)
    (stored : Replay.run IndexedOp.act (operationsOf deps key log) none = some record) :
    record.version ≠ 0 := by
  rcases run_outcome (operationsOf deps key log) none with
    gone | same | ⟨found, stamped, step, member, version⟩
  · rw [gone] at stored
    cases stored
  · rw [same] at stored
    cases stored
  · obtain rfl := Option.some_inj.mp (stamped.symm.trans stored)
    obtain ⟨entry, inLog, index⟩ := mem_operationsOf deps key log step member
    rw [version, index]
    exact indexed entry inLog

include lawful in
/-- A node that crashed after a log and is handed the entries after its last snapshot again keeps
its records, when the last of them spares the head record and every other record is replayable. -/
theorem restart_transparent (before window : List Entry)
    (committed : Committed deps (before ++ window)) (started crashed : Int64)
    (first again : List (Int64 × Entry)) (firstLog : first.map Prod.snd = before ++ window)
    (againLog : again.map Prod.snd = window)
    (spares : ∀ last, window.getLast? = some last → last.sparesHead deps)
    (replayable : ∀ key, key ≠ headEntryKey deps →
      Replayable (Replay.run IndexedOp.act (operationsOf deps key before) none)
        (operationsOf deps key window)) :
    ((((Fsm.fresh deps (Env.healthy started)).run deps first).restart deps
        (Env.healthy crashed)).run deps again).store.records deps =
      ((Fsm.fresh deps (Env.healthy started)).run deps first).store.records deps := by
  have once := fresh_run_replica deps lawful started first
  have twice : ((((Fsm.fresh deps (Env.healthy started)).run deps first).restart deps
      (Env.healthy crashed)).run deps again).replica deps =
        ((Replica.fresh.run deps first).restart deps crashed).run deps again := by
    rw [run_replica deps lawful, restart_replica, once]
  have firstProper := committed.delivered firstLog (List.Subset.refl _)
  have againProper := committed.delivered againLog (List.subset_append_right before window)
  have crashValid : (Replica.fresh.run deps first).records.Valid :=
    valid_run deps first Replica.fresh valid_fresh fun delivery member =>
      (firstProper delivery member).indexed
  refine (congrArg Replica.records twice).trans (Eq.trans ?_ (congrArg Replica.records once).symm)
  funext key
  by_cases head : key = headEntryKey deps
  · subst head
    cases isLast : window.getLast? with
    | none =>
      obtain rfl := List.getLast?_eq_none_iff.mp isLast
      obtain rfl := List.map_eq_nil_iff.mp againLog
      rfl
    | some last =>
      have logLast : (before ++ window).getLast? = some last := by
        rw [List.getLast?_append, isLast]
        rfl
      have reseeded := restart_chain deps lawful (before ++ window) committed first firstLog
        (fun found foundLast => by
          rw [logLast] at foundLast
          cases foundLast
          exact spares last isLast) crashed
      rw [run_head_spared deps lawful _ _ reseeded crashValid again againProper last
          (by rw [againLog, isLast]) (spares last isLast),
        run_head_spared deps lawful Replica.fresh .genesis rfl valid_fresh first firstProper last
          (by rw [firstLog, logLast]) (spares last isLast), againLog, firstLog,
        headOf_foldAll_replayed committed.toIsLog]
      rfl
  · rw [run_cell deps lawful again ((Replica.fresh.run deps first).restart deps crashed) crashValid
      againProper key head, againLog]
    show Replay.run IndexedOp.act _ ((Replica.fresh.run deps first).records key) = _
    rw [run_cell deps lawful first Replica.fresh valid_fresh firstProper key head, firstLog,
      operationsOf_append, Replay.run_append]
    refine run_replayable _ _ (operationsOf_ordered deps key window committed.append_right) ?_ ?_
      (replayable key head)
    · intro step member
      obtain ⟨entry, inWindow, index⟩ := mem_operationsOf deps key window step member
      rw [index]
      exact (committed.proper (List.mem_append_right before inWindow)).indexed
    · exact version_of_operations deps key before fun entry inBefore =>
        (committed.proper (List.mem_append_left window inBefore)).indexed

end

theorem operations_entryOf (index : UInt64) (command : Command) (key : Bytes) :
    (Reference.entryOf index command).operations Reference.deps key =
      (command.operations Reference.deps 0 key).map (IndexedOp.mk index) := by
  rw [Entry.operations, Reference.decodeCommand_entryOf]
  rfl

/-- The put of the sample log does not write the head record. -/
theorem sampleLog_sparesHead (last : Entry) (isLast : Reference.sampleLog.getLast? = some last) :
    last.sparesHead Reference.deps := by
  have onlyEntry : Reference.entryOf 1 (Reference.samplePut.command Reference.deps 100) = last :=
    Option.some_inj.mp isLast
  rw [← onlyEntry, Entry.sparesHead, operations_entryOf]
  decide

/-- The put of the sample log is delivered twice. -/
theorem restart_transparent_put :
    ((((Fsm.fresh Reference.deps (Env.healthy 0)).run Reference.deps
        (Reference.sampleLog.map (Prod.mk 110))).restart Reference.deps (Env.healthy 200)).run
          Reference.deps (Reference.sampleLog.map (Prod.mk 210))).store.records Reference.deps =
      ((Fsm.fresh Reference.deps (Env.healthy 0)).run Reference.deps
        (Reference.sampleLog.map (Prod.mk 110))).store.records Reference.deps := by
  refine restart_transparent Reference.deps Reference.lawful [] Reference.sampleLog
    Reference.sampleLog_committed 0 200 (Reference.sampleLog.map (Prod.mk 110))
    (Reference.sampleLog.map (Prod.mk 210)) rfl rfl ?_ ?_
  · exact sampleLog_sparesHead
  · intro key _
    by_cases addressed : (encodeKey Reference.deps Reference.sampleKey).1 = key
    · subst addressed
      refine Or.inl ⟨⟨1, .put none (str "1") 160 0⟩, ?_, rfl⟩
      rw [Reference.sampleLog, operationsOf_cons, operations_entryOf]
      exact List.mem_cons_self
    · refine Or.inr fun front step back split => ?_
      have none : operationsOf Reference.deps key Reference.sampleLog = [] := by
        rw [Reference.sampleLog, operationsOf_cons, operations_entryOf]
        show (if _ ∧ _ then _ else _ : List CellOp).map _ ++ _ = _
        rw [if_neg fun both => addressed both.1]
        rfl
      rw [none] at split
      cases front <;> cases split

/-- An increment that is delivered again after a crash counts twice. -/
theorem redelivered_increment :
    ¬ ∀ (before window : List Entry) (first again : List (Int64 × Entry)),
      Committed Reference.deps (before ++ window) → first.map Prod.snd = before ++ window →
      again.map Prod.snd = window →
      ((((Fsm.fresh Reference.deps (Env.healthy 0)).run Reference.deps first).restart
          Reference.deps (Env.healthy 0)).run Reference.deps again).store.records
            Reference.deps =
        ((Fsm.fresh Reference.deps (Env.healthy 0)).run Reference.deps first).store.records
          Reference.deps := by
  intro claim
  have committed : Committed Reference.deps ([] ++ [Reference.entryOf 1
      ((WriteRequest.increment { key := some Reference.sampleKey, delta := 1 }).command
        Reference.deps 0)]) :=
    { increasing := List.pairwise_singleton _ _
      positive := by decide
      routed := fun entry member => by
        rw [List.mem_singleton.mp member]
        exact Reference.routed_entryOf 1 0 _ }
  have equal := congrFun (claim _ _ [(0, _)] [(0, _)] committed rfl rfl)
    (encodeKey Reference.deps Reference.sampleKey).1
  revert equal
  decide +kernel

/-! ### Lives with many restarts -/

/-- What happens to a node over its life: it applies an entry, or it crashes and is started
again. -/
inductive LifeStep where
  | apply (now : Int64) (entry : Entry)
  | restart (now : Int64)

def Fsm.live (deps : Deps) (fsm : Fsm) (steps : List LifeStep) : Fsm :=
  steps.foldl (fun fsm => fun
    | .apply now entry => (fsm.apply deps (Env.healthy now) entry).2
    | .restart now => fsm.restart deps (Env.healthy now)) fsm

/-- The entries a node applies over its life, with the clock readings they are applied at. -/
def livedDeliveries (steps : List LifeStep) : List (Int64 × Entry) :=
  steps.filterMap fun
    | .apply now entry => some (now, entry)
    | .restart _ => none

def livedEntries (steps : List LifeStep) : List Entry := (livedDeliveries steps).map Prod.snd

/-- No crash follows an entry that wrote the head record. -/
def HeadSpared (deps : Deps) (steps : List LifeStep) : Prop :=
  ∀ front now back, steps = front ++ .restart now :: back →
    ∀ last, (livedEntries front).getLast? = some last → last.sparesHead deps

theorem livedEntries_append (first second : List LifeStep) :
    livedEntries (first ++ second) = livedEntries first ++ livedEntries second := by
  rw [livedEntries, livedDeliveries, List.filterMap_append, List.map_append]
  rfl

section

variable (deps : Deps) (lawful : deps.Lawful) (started : Int64)

include lawful in
/-- Crashes that spare the head are invisible: the node is the one that never crashed. -/
theorem live_replica (steps : List LifeStep) (committed : Committed deps (livedEntries steps))
    (spared : HeadSpared deps steps) :
    ((Fsm.fresh deps (Env.healthy started)).live deps steps).replica deps =
      Replica.fresh.run deps (livedDeliveries steps) := by
  induction steps using List.reverseRecOn with
  | nil => exact fresh_replica deps started
  | append_singleton front step inductionHypothesis =>
    have frontCommitted : Committed deps (livedEntries front) := by
      rw [livedEntries_append] at committed
      exact committed.of_append
    have frontSpared : HeadSpared deps front := by
      intro earlier now later split
      refine spared earlier now (later ++ [step]) ?_
      rw [split, List.append_assoc]
      rfl
    have frontReplica := inductionHypothesis frontCommitted frontSpared
    have lived : (Fsm.fresh deps (Env.healthy started)).live deps (front ++ [step]) =
        ((Fsm.fresh deps (Env.healthy started)).live deps front).live deps [step] :=
      List.foldl_append
    rw [lived]
    cases step with
    | apply now entry =>
      have deliveries : livedDeliveries (front ++ [.apply now entry]) =
          livedDeliveries front ++ [(now, entry)] := List.filterMap_append
      rw [deliveries, Replica.run_append, ← frontReplica]
      exact replica_apply deps lawful now _ entry
    | restart now =>
      have deliveries : livedDeliveries (front ++ [.restart now]) = livedDeliveries front := by
        rw [livedDeliveries, List.filterMap_append]
        exact List.append_nil _
      have reseeded := restart_chain deps lawful (livedEntries front) frontCommitted
        (livedDeliveries front) rfl (spared front now [] rfl) now
      have kept := run_chain deps (livedDeliveries front) Replica.fresh .genesis rfl
      have restarted := restart_replica deps now
        ((Fsm.fresh deps (Env.healthy started)).live deps front)
      rw [frontReplica] at restarted
      refine Eq.trans restarted ?_
      rw [deliveries]
      exact congrArg (Replica.mk _) (reseeded.trans kept.symm)

include lawful in
/-- In a life whose crashes spare the head, the node reports the head of the entries it applied
at every moment, as a node that never crashed does. -/
theorem chain_survives_restarts (steps : List LifeStep)
    (committed : Committed deps (livedEntries steps)) (spared : HeadSpared deps steps)
    (front back : List LifeStep) (split : steps = front ++ back) (env other : Env) :
    (((Fsm.fresh deps (Env.healthy started)).live deps front).chainHead deps env).1 =
        headOf (livedEntries front) ∧
      (((Fsm.fresh deps (Env.healthy started)).run deps (livedDeliveries front)).chainHead
          deps other).1 =
        headOf (livedEntries front) := by
  have frontCommitted : Committed deps (livedEntries front) := by
    rw [split, livedEntries_append] at committed
    exact committed.of_append
  have frontSpared : HeadSpared deps front := by
    intro earlier now later frontSplit
    refine spared earlier now (later ++ back) ?_
    rw [split, frontSplit, List.append_assoc]
    rfl
  have lived := live_replica deps lawful started front frontCommitted frontSpared
  have ran := fresh_run_replica deps lawful started (livedDeliveries front)
  have chain := run_chain deps (livedDeliveries front) Replica.fresh .genesis rfl
  have reported (fsm : Fsm) (env : Env)
      (same : fsm.replica deps = Replica.fresh.run deps (livedDeliveries front)) :
      (fsm.chainHead deps env).1 = headOf (livedEntries front) := by
    have inMemory : fsm.chain = some (headOf (livedEntries front)) :=
      (congrArg Replica.chain same).trans chain
    rw [Fsm.chainHead, Fsm.ensureChain, inMemory]
    rfl
  exact ⟨reported _ env lived, reported _ other ran⟩

end

/-- The put of the sample log, a crash, and the head reported after it. -/
theorem chain_survives_restarts_put :
    (((Fsm.fresh Reference.deps (Env.healthy 0)).live Reference.deps
        (Reference.sampleLog.map (LifeStep.apply 110) ++ [LifeStep.restart 200])).chainHead
          Reference.deps (Env.healthy 300)).1 = headOf Reference.sampleLog :=
  (chain_survives_restarts Reference.deps Reference.lawful 0
    (Reference.sampleLog.map (LifeStep.apply 110) ++ [LifeStep.restart 200])
    Reference.sampleLog_committed
    (by
      intro front now back split last isLast
      obtain ⟨rfl, _⟩ : front = Reference.sampleLog.map (LifeStep.apply 110) ∧ back = [] := by
        rcases front with _ | ⟨first, _ | ⟨second, rest⟩⟩
        · cases split
        · obtain ⟨rfl, tail⟩ := List.cons.inj split
          cases tail
          exact ⟨rfl, rfl⟩
        · obtain ⟨_, tail⟩ := List.cons.inj split
          obtain ⟨_, empty⟩ := List.cons.inj tail
          cases rest <;> cases empty
      exact sampleLog_sparesHead last isLast)
    _ [] (List.append_nil _).symm (Env.healthy 300) (Env.healthy 0)).1

/-- A client that removes the head record just before a crash makes the chain start again from
genesis. -/
theorem removed_head_lost :
    ¬ ∀ entries : List Entry, Committed Reference.deps entries →
      (((Fsm.fresh Reference.deps (Env.healthy 0)).run Reference.deps
          (entries.map (Prod.mk 0))).restart Reference.deps (Env.healthy 0)).chain =
        some (headOf entries) := by
  intro claim
  have committed : Committed Reference.deps [Reference.entryOf 1
      ((WriteRequest.remove { key := some headKey }).command Reference.deps 0)] :=
    { increasing := List.pairwise_singleton _ _
      positive := by decide
      routed := fun entry member => by
        rw [List.mem_singleton.mp member]
        exact Reference.routed_entryOf 1 0 _ }
  have equal := congrArg (Option.map HashChain.index) (claim _ committed)
  revert equal
  decide +kernel

end ConsensusDB
