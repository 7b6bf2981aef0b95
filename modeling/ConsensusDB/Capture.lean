/-
This file is about backups taken while entries are applied. Applying an entry
commits twice, first the new chain head and then the operation of the entry, and
a backup reads the store at one moment, which may lie between the two commits.
A raft snapshot is such a backup: it keeps a reference to the store only, and
reads it when it is persisted, not when it is taken.

The states a node goes through are those of a machine with one step for each
commit. Persisting a snapshot and backing up change nothing on the node, so
every state the machine reaches is a moment at which they may read.
-/

import ConsensusDB.Install

namespace ConsensusDB

open Wire

/-! ### The commits of a node -/

/-- A node between two commits: the entries it has applied, the entry whose head it has persisted
and whose operation it has not committed yet, and the entries it had applied when its last
snapshot was taken. -/
structure Machine where
  fsm : Fsm
  applied : List (Int64 × Entry)
  applying : Option (Int64 × Entry)
  snapshot : Option (List (Int64 × Entry))

/-- The steps of a node: applying an entry persists its head, then commits its operation; between
two entries raft may take a snapshot. -/
inductive Moment where
  | storeHead (now : Int64) (entry : Entry)
  | commit
  | snapshot

namespace Machine

def start (deps : Deps) (started : Int64) : Machine :=
  ⟨Fsm.fresh deps (Env.healthy started), [], none, none⟩

/-- One step. Raft applies entries and takes snapshots in one goroutine, so neither starts while
an entry is being applied. -/
def step (deps : Deps) (machine : Machine) : Moment → Option Machine
  | .storeHead now entry =>
    match machine.applying with
    | some _ => none
    | none => some { machine with
        fsm := machine.fsm.advanceChain deps (Env.healthy now) entry
        applying := some (now, entry) }
  | .commit =>
    match machine.applying with
    | none => none
    | some (now, entry) => some { machine with
        fsm := { machine.fsm with
          store := (runEntry deps (Env.healthy now) machine.fsm.store entry).2 }
        applied := machine.applied ++ [(now, entry)]
        applying := none }
  | .snapshot =>
    match machine.applying with
    | some _ => none
    | none => some { machine with snapshot := some machine.applied }

/-- The entries whose application has begun. -/
def begun (machine : Machine) : List (Int64 × Entry) :=
  machine.applied ++ machine.applying.toList

/-- The head record is the one the last entry persisted: its operation is still to come, or it
does not write that record. -/
def HeadIntact (deps : Deps) (machine : Machine) : Prop :=
  machine.applying = none →
    ∀ last, (machine.applied.map Prod.snd).getLast? = some last → last.sparesHead deps

end Machine

/-- The states a node reaches. -/
inductive Reached (deps : Deps) (started : Int64) : Machine → Prop where
  | start : Reached deps started (Machine.start deps started)
  | step {machine next : Machine} (moment : Moment) (reached : Reached deps started machine)
      (stepped : machine.step deps moment = some next) : Reached deps started next

/-- The state in which some entries are applied and one may be half applied. -/
def Fsm.between (deps : Deps) (started : Int64) (applied : List (Int64 × Entry)) :
    Option (Int64 × Entry) → Fsm
  | none => (Fsm.fresh deps (Env.healthy started)).run deps applied
  | some (now, entry) =>
    ((Fsm.fresh deps (Env.healthy started)).run deps applied).advanceChain deps
      (Env.healthy now) entry

theorem Fsm.run_snoc (deps : Deps) (fsm : Fsm) (deliveries : List (Int64 × Entry)) (now : Int64)
    (entry : Entry) :
    fsm.run deps (deliveries ++ [(now, entry)]) =
      ((fsm.run deps deliveries).apply deps (Env.healthy now) entry).2 := by
  rw [Fsm.run, List.foldl_append]
  rfl

/-- What holds of every state reached: the node is where its entries put it, and a snapshot was
taken after some of the entries applied. -/
structure Machine.Tracks (deps : Deps) (started : Int64) (machine : Machine) : Prop where
  fsm : machine.fsm = Fsm.between deps started machine.applied machine.applying
  snapshot : ∀ taken, machine.snapshot = some taken → taken <+: machine.applied

theorem tracks_step (deps : Deps) (started : Int64) (machine next : Machine) (moment : Moment)
    (tracks : machine.Tracks deps started) (stepped : machine.step deps moment = some next) :
    next.Tracks deps started := by
  obtain ⟨fsm, applied, applying, snapshot⟩ := machine
  obtain ⟨isBetween, isEarlier⟩ := tracks
  dsimp only at isBetween isEarlier
  subst isBetween
  cases moment with
  | storeHead now entry =>
    cases applying with
    | some inFlight => cases stepped
    | none =>
      cases stepped
      exact ⟨rfl, isEarlier⟩
  | commit =>
    cases applying with
    | none => cases stepped
    | some inFlight =>
      obtain ⟨now, entry⟩ := inFlight
      cases stepped
      refine ⟨?_, fun taken isTaken => ?_⟩
      · exact (Fsm.run_snoc deps _ applied now entry).symm
      · exact (isEarlier taken isTaken).trans (List.prefix_append _ _)
  | snapshot =>
    cases applying with
    | some inFlight => cases stepped
    | none =>
      cases stepped
      refine ⟨rfl, fun taken isTaken => ?_⟩
      cases isTaken
      exact List.prefix_refl _

theorem Reached.tracks {deps : Deps} {started : Int64} {machine : Machine}
    (reached : Reached deps started machine) : machine.Tracks deps started := by
  induction reached with
  | start => exact ⟨rfl, fun _ isTaken => nomatch isTaken⟩
  | step moment _ stepped inductionHypothesis =>
    exact tracks_step deps started _ _ moment inductionHypothesis stepped

/-! ### What a dump holds -/

/-- The records of a dump: those of an empty store it is loaded into. -/
def Dump.records (deps : Deps) (dump : Dump) : Records :=
  (Storage.load Store.empty dump).records deps

/-- The head of a dump: the one loaded from such a store. -/
def Dump.head (deps : Deps) (now : Int64) (dump : Dump) : HashChain :=
  loadHead deps (Env.healthy now) (Storage.load Store.empty dump)

theorem records_persist (deps : Deps) (fsm : Fsm) :
    Dump.records deps fsm.persist = fsm.store.records deps := by
  funext key
  have loaded : (Storage.load Store.empty fsm.persist).db.read = fsm.store.db.read :=
    (Mvcc.read_empty_load _).trans (Mvcc.visible_backup_zero _)
  rw [Dump.records, Store.records, loaded]
  rfl

theorem head_persist (deps : Deps) (now : Int64) (fsm : Fsm) :
    Dump.head deps now fsm.persist = (fsm.store.records deps).loadHead deps now := by
  rw [Dump.head, loadHead_records]
  exact congrArg (Records.loadHead deps now) (records_persist deps fsm)

section

variable (deps : Deps) (lawful : deps.Lawful) (started asked : Int64)

include lawful in
/-- After entries whose last spares the head record, the store holds their head. -/
theorem head_applied (applied : List (Int64 × Entry))
    (committed : Committed deps (applied.map Prod.snd))
    (spares : ∀ last, (applied.map Prod.snd).getLast? = some last → last.sparesHead deps) :
    ((Fsm.between deps started applied none).store.records deps).loadHead deps asked =
      headOf (applied.map Prod.snd) := by
  have restarted := restart_chain deps lawful _ committed applied rfl spares asked
  have replica := fresh_run_replica deps lawful started applied
  have recordsEqual : (Fsm.between deps started applied none).store.records deps =
      (Replica.fresh.run deps applied).records := congrArg Replica.records replica
  rw [recordsEqual]
  exact Option.some.inj restarted

include lawful in
/-- Between the two commits of an entry the store holds the head that the entry brings about,
whatever the entries before it did to the head record. -/
theorem head_applying (applied : List (Int64 × Entry)) (now : Int64) (entry : Entry)
    (indexed : entry.index ≠ 0) :
    ((Fsm.between deps started applied (some (now, entry))).store.records deps).loadHead deps
        asked =
      headOf ((applied ++ [(now, entry)]).map Prod.snd) := by
  have advanced := replica_advanceChain deps lawful now
    ((Fsm.fresh deps (Env.healthy started)).run deps applied) entry
  rw [fresh_run_replica deps lawful started] at advanced
  have recordsEqual : (Fsm.between deps started applied (some (now, entry))).store.records deps =
      ((Replica.fresh.run deps applied).advanceChain deps now entry).records :=
    congrArg Replica.records advanced
  have chain : (Replica.fresh.run deps applied).ensureChain deps now =
      headOf (applied.map Prod.snd) := run_ensureChain deps applied Replica.fresh now
  have folded : headOf ((applied ++ [(now, entry)]).map Prod.snd) =
      (headOf (applied.map Prod.snd)).fold entry := by
    rw [List.map_append, headOf_append]
    rfl
  rw [recordsEqual, folded, Replica.advanceChain, chain]
  refine loadHead_of_headRecord deps lawful asked _ _ entry.index ?_
  show Records.storeHead deps _ _ _ _ = _
  rw [storeHead_eq deps lawful _ _ _ indexed]
  exact Function.update_self _ _ _

variable (machine : Machine) (reached : Reached deps started machine)
  (committed : Committed deps (machine.begun.map Prod.snd))

include lawful reached committed in
/-- At every moment at which the head record is intact, a backup holds the head of the entries
whose application has begun. -/
theorem captured_head (intact : machine.HeadIntact deps) :
    Dump.head deps asked machine.fsm.persist = headOf (machine.begun.map Prod.snd) := by
  rw [head_persist, reached.tracks.fsm, Machine.begun]
  rw [Machine.begun] at committed
  cases applying : machine.applying with
  | none =>
    rw [applying, Option.toList_none, List.append_nil] at committed
    rw [Option.toList_none, List.append_nil]
    exact head_applied deps lawful started asked machine.applied committed (intact applying)
  | some inFlight =>
    rw [applying] at committed
    have proper : inFlight.2.Proper deps :=
      committed.proper (List.mem_map_of_mem (List.mem_append_right _ List.mem_cons_self))
    exact head_applying deps lawful started asked machine.applied inFlight.1 inFlight.2
      proper.indexed

/-! ### Snapshots -/

/-- A dump is the state after some entries: it holds their records, and the head a node that
applied them reports. -/
def PointInTime (dump : Dump) (taken : List (Int64 × Entry)) : Prop :=
  Dump.records deps dump =
      ((Fsm.fresh deps (Env.healthy started)).run deps taken).store.records deps ∧
    Dump.head deps asked dump =
      (((Fsm.fresh deps (Env.healthy started)).run deps taken).chainHead deps
        (Env.healthy asked)).1

theorem applying_of_begun (taken : List (Int64 × Entry)) (earlier : taken <+: machine.applied)
    (unmoved : machine.begun = taken) : machine.applying = none ∧ machine.applied = taken := by
  obtain ⟨rest, split⟩ := earlier
  have nothing : rest ++ machine.applying.toList = [] := by
    rw [Machine.begun, ← split, List.append_assoc] at unmoved
    exact List.append_right_eq_self.mp unmoved
  obtain ⟨noRest, notApplying⟩ := List.append_eq_nil_iff.mp nothing
  refine ⟨Option.toList_eq_nil_iff.mp notApplying, ?_⟩
  rw [← split, noRest, List.append_nil]

include lawful reached committed in
/-- A snapshot taken after some entries and persisted at any later moment holds the records after
those entries when no further application has begun by then; where the head record is intact, it is
the state after those entries if and only if none has. -/
theorem persist_pointInTime (taken : List (Int64 × Entry))
    (isTaken : machine.snapshot = some taken) :
    (machine.begun = taken → Dump.records deps machine.fsm.persist =
        ((Fsm.fresh deps (Env.healthy started)).run deps taken).store.records deps) ∧
      (machine.HeadIntact deps →
        (PointInTime deps started asked machine.fsm.persist taken ↔ machine.begun = taken)) := by
  have tracks := reached.tracks
  have earlier := tracks.snapshot taken isTaken
  have records (unmoved : machine.begun = taken) : Dump.records deps machine.fsm.persist =
      ((Fsm.fresh deps (Env.healthy started)).run deps taken).store.records deps := by
    obtain ⟨idle, same⟩ := applying_of_begun machine taken earlier unmoved
    rw [records_persist, tracks.fsm, idle, same]
    rfl
  have reported := whole_chainHead deps lawful (taken.map Prod.snd) [] started asked taken
    (List.append_nil _).symm
  rw [List.append_nil] at reported
  refine ⟨records, fun intact => ?_⟩
  have captured := captured_head deps lawful started asked machine reached committed intact
  constructor
  · rintro ⟨-, heads⟩
    rw [captured, reported] at heads
    obtain ⟨rest, split⟩ := earlier.trans (List.prefix_append _ machine.applying.toList)
    have begunSplit : machine.begun = taken ++ rest := split.symm
    rw [begunSplit, List.map_append] at committed heads
    have noRest : rest = [] := List.map_eq_nil_iff.mp
      (nil_of_headOf_index committed.toIsLog (congrArg HashChain.index heads))
    rw [begunSplit, noRest, List.append_nil]
  · intro unmoved
    refine ⟨records unmoved, ?_⟩
    rw [captured, reported, unmoved]

end

/-- The sample put, and a removal of its record after it. -/
def sampleMoments : List Moment :=
  [.storeHead 110 (Reference.entryOf 1 (Reference.samplePut.command Reference.deps 100)), .commit,
    .snapshot,
    .storeHead 120 (Reference.entryOf 2
      ((WriteRequest.remove { key := some Reference.sampleKey }).command Reference.deps 115)),
    .commit]

/-- The node after some of the sample steps. -/
def sampleMachine (count : Nat) : Machine :=
  ((sampleMoments.take count).foldlM (Machine.step Reference.deps)
    (Machine.start Reference.deps 0)).getD (Machine.start Reference.deps 0)

theorem sampleMachine_one : Reached Reference.deps 0 (sampleMachine 1) :=
  .step (.storeHead 110 _) .start rfl

theorem sampleMachine_three : Reached Reference.deps 0 (sampleMachine 3) :=
  .step .snapshot (.step .commit sampleMachine_one rfl) rfl

theorem sampleMachine_five : Reached Reference.deps 0 (sampleMachine 5) :=
  .step .commit (.step (.storeHead 120 _) sampleMachine_three rfl) rfl

theorem sampleMachine_intact : (sampleMachine 3).HeadIntact Reference.deps := by
  intro _
  exact sampleLog_sparesHead

/-- A snapshot persisted before the next entry. -/
theorem persist_pointInTime_at_once :
    PointInTime Reference.deps 0 300 (sampleMachine 3).fsm.persist (sampleMachine 3).applied :=
  ((persist_pointInTime Reference.deps Reference.lawful 0 300 (sampleMachine 3) sampleMachine_three
    Reference.sampleLog_committed (sampleMachine 3).applied rfl).2 sampleMachine_intact).mpr rfl

/-- A snapshot persisted after the next entry has lost the record that this entry removes. -/
theorem persisted_too_late :
    ¬ ∀ (machine : Machine) (taken : List (Int64 × Entry)), Reached Reference.deps 0 machine →
      Committed Reference.deps (machine.begun.map Prod.snd) → machine.snapshot = some taken →
      PointInTime Reference.deps 0 300 machine.fsm.persist taken := by
  intro claim
  have committed : Committed Reference.deps ((sampleMachine 5).begun.map Prod.snd) :=
    { increasing := by decide +kernel
      positive := by decide +kernel
      routed := fun entry member => by
        rcases List.mem_pair.mp member with rfl | rfl
        · exact Reference.routed_entryOf 1 100 _
        · exact Reference.routed_entryOf 2 115 _ }
  have equal := congrFun (claim (sampleMachine 5) _ sampleMachine_five committed rfl).1
    (encodeKey Reference.deps Reference.sampleKey).1
  revert equal
  decide +kernel

/-! ### Head and data -/

section

variable (deps : Deps) (lawful : deps.Lawful) (started asked : Int64) (machine : Machine)
  (reached : Reached deps started machine)
  (committed : Committed deps (machine.begun.map Prod.snd))

/-- Whether a dump, taken when the application of some entries has begun, holds one state: its
head is that of the entries up to the index of the head, and its data records are the result of
applying them. -/
def Together (dump : Dump) (begun : List (Int64 × Entry)) : Prop :=
  let upTo := begun.filter fun delivery => delivery.2.index ≤ (Dump.head deps asked dump).index
  Dump.head deps asked dump = headOf (upTo.map Prod.snd) ∧
    ∀ key ≠ headEntryKey deps, Dump.records deps dump key =
      ((Fsm.fresh deps (Env.healthy started)).run deps upTo).store.records deps key

include lawful reached committed in
/-- At every moment at which the head record is intact, a backup holds one state if and only if no
operation that changes a data record is outstanding. -/
theorem backup_together (intact : machine.HeadIntact deps) :
    Together deps started asked machine.fsm.persist machine.begun ↔
      ∀ now entry, machine.applying = some (now, entry) → ∀ key ≠ headEntryKey deps,
        (runEntry deps (Env.healthy now) machine.fsm.store entry).2.records deps key =
          machine.fsm.store.records deps key := by
  have tracks := reached.tracks
  have captured := captured_head deps lawful started asked machine reached committed intact
  have upTo : machine.begun.filter (fun delivery => delivery.2.index ≤
      (headOf (machine.begun.map Prod.snd)).index) = machine.begun :=
    List.filter_eq_self.mpr fun delivery member =>
      decide_eq_true (le_headOf_index committed.toIsLog (List.mem_map_of_mem member))
  simp only [Together, captured, upTo, records_persist, true_and]
  rw [Machine.begun]
  cases applying : machine.applying with
  | none =>
    refine iff_of_true (fun key _ => ?_) (fun _ _ impossible => nomatch impossible)
    rw [tracks.fsm, applying, Option.toList_none, List.append_nil]
    rfl
  | some inFlight =>
    obtain ⟨now, entry⟩ := inFlight
    have applied : ((Fsm.fresh deps (Env.healthy started)).run deps
        (machine.applied ++ [(now, entry)])).store =
        (runEntry deps (Env.healthy now) machine.fsm.store entry).2 := by
      rw [Fsm.run_snoc, tracks.fsm, applying]
      rfl
    rw [Option.toList_some, applied]
    constructor
    · intro together _ _ same key other
      obtain ⟨rfl, rfl⟩ := Prod.mk.inj (Option.some.inj same)
      exact (together key other).symm
    · exact fun unchanged key other => (unchanged now entry rfl key other).symm

end

/-- A backup between two entries. -/
theorem backup_together_idle :
    Together Reference.deps 0 300 (sampleMachine 3).fsm.persist (sampleMachine 3).begun :=
  (backup_together Reference.deps Reference.lawful 0 300 (sampleMachine 3) sampleMachine_three
    Reference.sampleLog_committed sampleMachine_intact).mpr fun _ _ impossible => nomatch impossible

/-- A backup between the two commits of a put holds its head and not its record. -/
theorem backup_torn :
    ¬ ∀ machine : Machine, Reached Reference.deps 0 machine →
      Committed Reference.deps (machine.begun.map Prod.snd) →
      Together Reference.deps 0 300 machine.fsm.persist machine.begun := by
  intro claim
  have equal := (claim (sampleMachine 1) sampleMachine_one Reference.sampleLog_committed).2
    (encodeKey Reference.deps Reference.sampleKey).1 (by decide +kernel)
  revert equal
  decide +kernel

end ConsensusDB
