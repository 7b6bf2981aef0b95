/-
This file is about installing a snapshot: a replica persists its store, a
follower restores the stream and goes on with the entries after it. Restoring
loads the stream into the store the follower already has, and leaves the chain
in memory as it is.

Loading merges, so the restored records are those of the snapshot exactly when
no record outlives it. The chain of the follower goes on from whatever it was
seeded with, so it ends at the head of the log when that seed may be continued
over the entries that follow -- and, without a SHA-256 collision, only then.
-/

import ConsensusDB.Restart
import ConsensusDB.Convergence

namespace ConsensusDB

open Wire

/-! ### Restored records -/

/-- A restored record is the snapshot's, unless the follower's own outlives it. -/
theorem restore_record (deps : Deps) (target source : Fsm) (key : Bytes) :
    (¬ Mvcc.Outlives target.store.db source.persist key →
        (target.restore source.persist).store.records deps key = source.store.records deps key) ∧
      (Mvcc.Outlives target.store.db source.persist key →
        (target.restore source.persist).store.records deps key =
          target.store.records deps key) := by
  obtain ⟨replaced, kept⟩ := Mvcc.read_load target.store.db source.persist key
  have snapshot : Mvcc.visible source.persist key = source.store.db.read key :=
    congrFun (Mvcc.visible_backup_zero source.store.db) key
  refine ⟨fun covered => ?_, fun outlives => ?_⟩
  · show ((target.store.db.load source.persist).read key).map _ = _
    rw [replaced covered, snapshot]
    rfl
  · show ((target.store.db.load source.persist).read key).map _ = _
    rw [kept outlives]
    rfl

/-- Restoring a snapshot leaves exactly its records if and only if every key for which the target
holds a version newer than the snapshot's, or for which the snapshot has none, already showed
the snapshot's record. -/
theorem restore_replaces_iff (deps : Deps) (target source : Fsm) :
    (target.restore source.persist).store.records deps = source.store.records deps ↔
      ∀ key, Mvcc.Outlives target.store.db source.persist key →
        target.store.records deps key = source.store.records deps key := by
  constructor
  · intro replaced key outlives
    rw [← (restore_record deps target source key).2 outlives, replaced]
  · intro agrees
    funext key
    by_cases outlives : Mvcc.Outlives target.store.db source.persist key
    · rw [(restore_record deps target source key).2 outlives, agrees key outlives]
    · exact (restore_record deps target source key).1 outlives

/-- A record the snapshot does not have survives its restoration. -/
theorem restored_record_survives :
    ¬ ∀ target source : Fsm,
      (target.restore source.persist).store.records Reference.deps =
        source.store.records Reference.deps := by
  intro claim
  have equal := congrFun (claim
    ((Fsm.fresh Reference.deps (Env.healthy 0)).run Reference.deps
      (Reference.sampleLog.map (Prod.mk 110)))
    (Fsm.fresh Reference.deps (Env.healthy 0)))
    (encodeKey Reference.deps Reference.sampleKey).1
  revert equal
  decide +kernel

theorem valid_restore (deps : Deps) (target source : Fsm)
    (targetValid : (target.store.records deps).Valid)
    (sourceValid : (source.store.records deps).Valid) :
    ((target.restore source.persist).store.records deps).Valid := by
  intro key present
  by_cases outlives : Mvcc.Outlives target.store.db source.persist key
  · rw [(restore_record deps target source key).2 outlives] at present
    exact targetValid key present
  · rw [(restore_record deps target source key).1 outlives] at present
    exact sourceValid key present

/-! ### The chain after an installation -/

/-- Two nodes report the same head and hold the same head record. -/
def SameHead (deps : Deps) (asked : Int64) (first second : Fsm) : Prop :=
  (first.chainHead deps (Env.healthy asked)).1 = (second.chainHead deps (Env.healthy asked)).1 ∧
    first.store.records deps (headEntryKey deps) = second.store.records deps (headEntryKey deps)

/-- The follower goes on rightly from a snapshot: the chain it is seeded with -- the one in memory
or, if there is none, the one its restored store holds -- may be continued over the entries that
follow, and when no entry follows, the restored head record is that of the snapshot. -/
structure GoesOn (deps : Deps) (asked : Int64) (installed source : Fsm)
    (before window : List Entry) (later : List (Int64 × Entry)) : Prop where
  resumes : Resumes (installed.ensureChain deps (Env.healthy (seedClock later asked))) before window
  head : window = [] → installed.store.records deps (headEntryKey deps) =
    source.store.records deps (headEntryKey deps)

theorem chainHead_replica (deps : Deps) (asked : Int64) (fsm : Fsm) :
    (fsm.chainHead deps (Env.healthy asked)).1 = (fsm.replica deps).ensureChain deps asked :=
  (replica_ensureChain deps asked fsm).symm

section

variable (deps : Deps) (lawful : deps.Lawful) (before window : List Entry)
  (committed : Committed deps (before ++ window)) (started asked : Int64)
  (taken later whole : List (Int64 × Entry)) (takenLog : taken.map Prod.snd = before)
  (laterLog : later.map Prod.snd = window) (wholeLog : whole.map Prod.snd = before ++ window)

include lawful in
/-- The keys a node holds after any entries of a log are keys the engine accepts. -/
theorem valid_fresh_run (deliveries : List (Int64 × Entry))
    (proper : ∀ delivery ∈ deliveries, delivery.2.Proper deps) :
    (((Fsm.fresh deps (Env.healthy started)).run deps deliveries).store.records deps).Valid := by
  have valid := valid_run deps deliveries Replica.fresh valid_fresh fun delivery member =>
    (proper delivery member).indexed
  rw [← fresh_run_replica deps lawful started deliveries] at valid
  exact valid

include lawful wholeLog in
/-- A replica that applied the whole log reports its head. -/
theorem whole_chainHead :
    (((Fsm.fresh deps (Env.healthy started)).run deps whole).chainHead deps (Env.healthy asked)).1 =
      headOf (before ++ window) := by
  rw [chainHead_replica, fresh_run_replica deps lawful started, run_ensureChain, wholeLog]
  rfl

include lawful laterLog in
/-- A follower reports the fold of the later entries over its seed. -/
theorem installed_chainHead (installed : Fsm) :
    ((installed.run deps later).chainHead deps (Env.healthy asked)).1 =
      (installed.ensureChain deps (Env.healthy (seedClock later asked))).foldAll window := by
  rw [chainHead_replica, run_replica deps lawful, run_ensureChain, laterLog, replica_ensureChain]

include lawful committed laterLog wholeLog in
/-- When an entry follows the snapshot, the head records agree as soon as the chains do. -/
theorem installed_headRecord (installed : Fsm) (valid : (installed.store.records deps).Valid)
    (follows : window ≠ [])
    (chains : (installed.ensureChain deps (Env.healthy (seedClock later asked))).foldAll window =
      headOf (before ++ window)) :
    (installed.run deps later).store.records deps (headEntryKey deps) =
      ((Fsm.fresh deps (Env.healthy started)).run deps whole).store.records deps
        (headEntryKey deps) := by
  obtain ⟨last, isLast⟩ := Option.ne_none_iff_exists'.mp
    (fun none => follows (List.getLast?_eq_none_iff.mp none))
  have logLast : (before ++ window).getLast? = some last := by
    rw [List.getLast?_append, isLast]
    rfl
  have laterProper := committed.delivered laterLog (List.subset_append_right before window)
  have wholeProper := committed.delivered wholeLog (List.Subset.refl _)
  have laterChain : ((installed.replica deps).run deps later).chain =
      some (headOf (before ++ window)) := by
    have ended := run_ensureChain deps later (installed.replica deps) asked
    rw [laterLog, replica_ensureChain, chains] at ended
    rcases List.eq_nil_or_concat' later with rfl | ⟨front, ⟨now, entry⟩, rfl⟩
    · exact absurd laterLog.symm follows
    · rw [Replica.run_append, Replica.run_cons, Replica.run_nil] at ended ⊢
      exact congrArg some ended
  have wholeChain := run_chain deps whole Replica.fresh .genesis rfl
  rw [wholeLog] at wholeChain
  have installedHead := run_head deps lawful (installed.replica deps) valid later laterProper last
    (by rw [laterLog, isLast]) _ laterChain
  have wholeHead := run_head deps lawful Replica.fresh valid_fresh whole wholeProper last
    (by rw [wholeLog, logLast]) _ wholeChain
  have installedReplica := run_replica deps lawful installed later
  have wholeReplica := fresh_run_replica deps lawful started whole
  have left : (installed.run deps later).store.records deps =
      ((installed.replica deps).run deps later).records := congrArg Replica.records installedReplica
  have right : ((Fsm.fresh deps (Env.healthy started)).run deps whole).store.records deps =
      (Replica.fresh.run deps whole).records := congrArg Replica.records wholeReplica
  rw [left, right, installedHead, wholeHead]
  rfl

include lawful committed takenLog laterLog wholeLog in
/-- A follower that restores the snapshot of a replica at a position of the log and applies the
entries after it reports and stores the head that a replica of the whole log reports and stores
when it goes on rightly from the snapshot; without a collision of the inputs hashed, only then. -/
theorem install_sameHead (follower : Fsm)
    (accepted : (follower.store.records deps).Valid) :
    (GoesOn deps asked
        (follower.restore ((Fsm.fresh deps (Env.healthy started)).run deps taken).persist)
        ((Fsm.fresh deps (Env.healthy started)).run deps taken) before window later →
      SameHead deps asked
        ((follower.restore ((Fsm.fresh deps (Env.healthy started)).run deps taken).persist).run
          deps later)
        ((Fsm.fresh deps (Env.healthy started)).run deps whole)) ∧
      (CollisionFree (hashedBy
          ((follower.restore
            ((Fsm.fresh deps (Env.healthy started)).run deps taken).persist).ensureChain
            deps (Env.healthy (seedClock later asked))) window ++
          hashedBy .genesis (before ++ window)) →
        SameHead deps asked
          ((follower.restore ((Fsm.fresh deps (Env.healthy started)).run deps taken).persist).run
            deps later)
          ((Fsm.fresh deps (Env.healthy started)).run deps whole) →
        GoesOn deps asked
          (follower.restore ((Fsm.fresh deps (Env.healthy started)).run deps taken).persist)
          ((Fsm.fresh deps (Env.healthy started)).run deps taken) before window later) := by
  have takenProper := committed.delivered takenLog (List.subset_append_left before window)
  have takenReplica := fresh_run_replica deps lawful started taken
  have sourceValid := valid_fresh_run deps lawful started taken takenProper
  have installedValid := valid_restore deps follower _ accepted sourceValid
  have reference := whole_chainHead deps lawful before window started asked whole wholeLog
  have snapshotHead (nothing : window = []) :
      ((Fsm.fresh deps (Env.healthy started)).run deps whole).store.records deps
          (headEntryKey deps) =
        ((Fsm.fresh deps (Env.healthy started)).run deps taken).store.records deps
          (headEntryKey deps) := by
    have sameLog : taken.map Prod.snd = whole.map Prod.snd := by
      rw [takenLog, wholeLog, nothing, List.append_nil]
    have runs := (run_routed deps lawful taken whole sameLog
      (fun delivery member => (takenProper delivery member).routed) Replica.fresh rfl).2
    have wholeReplica := fresh_run_replica deps lawful started whole
    have replicas := wholeReplica.trans (runs.symm.trans takenReplica.symm)
    exact congrFun (congrArg Replica.records replicas) (headEntryKey deps)
  generalize (Fsm.fresh deps (Env.healthy started)).run deps taken = source
    at installedValid snapshotHead ⊢
  have reported := installed_chainHead deps lawful window asked later laterLog
    (follower.restore source.persist)
  constructor
  · rintro ⟨resumes, head⟩
    have chains := foldAll_of_resumes _ before window committed.toIsLog resumes
    refine ⟨by rw [reported, reference, chains], ?_⟩
    by_cases nothing : window = []
    · have noLater : later = [] := List.map_eq_nil_iff.mp (laterLog.trans nothing)
      rw [noLater, snapshotHead nothing]
      exact head nothing
    · exact installed_headRecord deps lawful before window committed started asked later whole
        laterLog wholeLog _ installedValid nothing chains
  · rintro free ⟨heads, records⟩
    rw [reported, reference] at heads
    refine ⟨resumes_of_foldAll _ before window committed.toIsLog free heads, fun nothing => ?_⟩
    have noLater : later = [] := List.map_eq_nil_iff.mp (laterLog.trans nothing)
    rw [noLater, snapshotHead nothing] at records
    exact records

end

/-- A replica that has applied the one entry of the sample log. -/
def sampleReplica : Fsm :=
  (Fsm.fresh Reference.deps (Env.healthy 0)).run Reference.deps
    (Reference.sampleLog.map (Prod.mk 110))

/-- A node that never built its chain, restoring a snapshot, is seeded from the restored head. -/
theorem install_sameHead_unseeded :
    SameHead Reference.deps 300
      (((⟨(Fsm.fresh Reference.deps (Env.healthy 0)).store, none⟩ : Fsm).restore
        sampleReplica.persist).run Reference.deps []) sampleReplica :=
  (install_sameHead Reference.deps Reference.lawful Reference.sampleLog []
    Reference.sampleLog_committed 0 300 (Reference.sampleLog.map (Prod.mk 110)) []
    (Reference.sampleLog.map (Prod.mk 110)) rfl rfl rfl
    ⟨(Fsm.fresh Reference.deps (Env.healthy 0)).store, none⟩ valid_fresh).1
    ⟨⟨by decide +kernel, fun _ => by decide +kernel⟩, fun _ => by decide +kernel⟩

/-- A running follower keeps its own chain over a restored snapshot: with nothing applied before,
it still reports genesis. -/
theorem installed_chain_stale :
    ¬ ∀ (before window : List Entry) (follower : Fsm) (taken later whole : List (Int64 × Entry)),
      Committed Reference.deps (before ++ window) →
      (follower.store.records Reference.deps).Valid →
      taken.map Prod.snd = before → later.map Prod.snd = window →
      whole.map Prod.snd = before ++ window →
      SameHead Reference.deps 0
        ((follower.restore ((Fsm.fresh Reference.deps (Env.healthy 0)).run Reference.deps
          taken).persist).run Reference.deps later)
        ((Fsm.fresh Reference.deps (Env.healthy 0)).run Reference.deps whole) := by
  intro claim
  have same := claim Reference.sampleLog [] (Fsm.fresh Reference.deps (Env.healthy 0))
    (Reference.sampleLog.map (Prod.mk 110)) [] (Reference.sampleLog.map (Prod.mk 110))
    Reference.sampleLog_committed valid_fresh rfl rfl rfl
  have equal := congrArg HashChain.index same.1
  revert equal
  decide +kernel

end ConsensusDB
