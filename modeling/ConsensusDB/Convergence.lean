/-
This file is about replicas that apply the same log. Two of them, started from
the same records and the same chain, stay equal and answer equally, whatever
their clocks show and whatever is read in between: a routed entry does the
same at every clock reading, the chain does not look at the clock once it is
in memory, and reads change nothing.

It is then about a node as a whole, with client writes and sweeps in any order
with the entries it applies and with raft coming up. Once raft is initialized
none of them touches the store any more, so the store is what the applied
entries made of it -- and of the writes the node carried out by itself before.
-/

import ConsensusDB.Service
import ConsensusDB.Reference

namespace ConsensusDB

open Wire

/-! ### Two replicas of one log -/

/-- The results of applying entries one after another. -/
def Replica.results (deps : Deps) : Replica → List (Int64 × Entry) → List FsmResult
  | _, [] => []
  | replica, (now, entry) :: rest =>
    (replica.apply deps now entry).1 :: (replica.apply deps now entry).2.results deps rest

/-- With the chain in memory a routed entry is applied in the same way at every clock reading. -/
theorem apply_routed (deps : Deps) (lawful : deps.Lawful) (first second : Int64)
    (replica : Replica) (entry : Entry) (routed : Routed deps entry.data)
    (seeded : replica.chain.isSome) :
    replica.apply deps first entry = replica.apply deps second entry := by
  have chain : replica.ensureChain deps first = replica.ensureChain deps second := by
    obtain ⟨records, chain⟩ := replica
    obtain ⟨chain, rfl⟩ := Option.isSome_iff_exists.mp seeded
    rfl
  unfold Replica.apply Replica.advanceChain
  simp only [chain, runEntry_routed deps lawful first second _ entry routed]

theorem apply_seeded (deps : Deps) (now : Int64) (replica : Replica) (entry : Entry) :
    (replica.apply deps now entry).2.chain.isSome := rfl

/-- Two deliveries of one log to one replica give the same results and the same replica. -/
theorem run_routed (deps : Deps) (lawful : deps.Lawful) (first second : List (Int64 × Entry))
    (same : first.map Prod.snd = second.map Prod.snd)
    (routed : ∀ delivery ∈ first, Routed deps delivery.2.data)
    (replica : Replica) (seeded : replica.chain.isSome) :
    replica.results deps first = replica.results deps second ∧
      replica.run deps first = replica.run deps second := by
  induction first generalizing second replica with
  | nil =>
    have empty : second = [] := List.map_eq_nil_iff.mp same.symm
    rw [empty]
    exact ⟨rfl, rfl⟩
  | cons delivery rest inductionHypothesis =>
    obtain ⟨now, entry⟩ := delivery
    obtain ⟨other, others, rfl⟩ : ∃ other others, second = other :: others := by
      cases second with
      | nil => cases same
      | cons other others => exact ⟨other, others, rfl⟩
    obtain ⟨later, otherEntry⟩ := other
    obtain ⟨equal, sameRest⟩ := List.cons.inj same
    have entryEq : entry = otherEntry := equal
    subst entryEq
    have step := apply_routed deps lawful now later replica entry
      (routed (now, entry) List.mem_cons_self) seeded
    obtain ⟨results, runs⟩ := inductionHypothesis others sameRest
      (fun delivery member => routed delivery (List.mem_cons_of_mem _ member))
      (replica.apply deps now entry).2 (apply_seeded deps now replica entry)
    refine ⟨?_, ?_⟩
    · rw [Replica.results, Replica.results, ← step, results]
    · rw [Replica.run_cons, Replica.run_cons, ← step, runs]

/-! ### Reads in between -/

/-- What an FSM and its store are asked for. -/
inductive Activity where
  | apply (now : Int64) (entry : Entry)
  | get (now : Int64) (request : KeyRequest)
  | getRecent (now : Int64) (request : KeyRequest)
  | getArea (now : Int64) (request : KeyRequest) (lastField : Field)
  | scan (now : Int64) (headOnly : Bool)
  | scanExpired (now : Int64) (cancelled : Nat → Option Err) (limit : Int)

inductive Answer where
  | applied (result : FsmResult)
  | record (outcome : Option (Except Err Record))
  | sent (outcome : Except Err Storage.Sent)
  | expired (outcome : List ReclaimEntry × Option Err)

def Fsm.perform (deps : Deps) (fsm : Fsm) : Activity → Answer × Fsm
  | .apply now entry =>
    let outcome := fsm.apply deps (Env.healthy now) entry
    (.applied outcome.1, outcome.2)
  | .get now request => (.record (some (Storage.get deps (Env.healthy now) fsm.store request)), fsm)
  | .getRecent now request =>
    (.record (Storage.getRecent deps (Env.healthy now) fsm.store request), fsm)
  | .getArea now request lastField =>
    (.sent (Storage.getArea deps (Env.healthy now) fsm.store request lastField), fsm)
  | .scan now headOnly =>
    (.sent (.ok (Storage.scan deps (Env.healthy now) fsm.store headOnly)), fsm)
  | .scanExpired now cancelled limit =>
    (.expired (Storage.scanExpired deps (Env.healthy now) fsm.store cancelled limit), fsm)

/-- Performs activities one after another. -/
def Fsm.performAll (deps : Deps) : Fsm → List Activity → List Answer × Fsm
  | fsm, [] => ([], fsm)
  | fsm, activity :: rest =>
    let first := fsm.perform deps activity
    let others := first.2.performAll deps rest
    (first.1 :: others.1, others.2)

/-- The entries a list of activities applies, with the clock readings they are applied at. -/
def deliveries (activities : List Activity) : List (Int64 × Entry) :=
  activities.filterMap fun
    | .apply now entry => some (now, entry)
    | _ => none

def applyResults (answers : List Answer) : List FsmResult :=
  answers.filterMap fun
    | .applied result => some result
    | _ => none

/-- Only the applied entries matter for the replica and for the results of applying. -/
theorem performAll_replica (deps : Deps) (lawful : deps.Lawful) (activities : List Activity)
    (fsm : Fsm) :
    applyResults (fsm.performAll deps activities).1 =
        (fsm.replica deps).results deps (deliveries activities) ∧
      (fsm.performAll deps activities).2.replica deps =
        (fsm.replica deps).run deps (deliveries activities) := by
  induction activities generalizing fsm with
  | nil => exact ⟨rfl, rfl⟩
  | cons activity rest inductionHypothesis =>
    cases activity with
    | apply now entry =>
      obtain ⟨results, runs⟩ := inductionHypothesis (fsm.apply deps (Env.healthy now) entry).2
      rw [replica_apply deps lawful] at results runs
      refine ⟨?_, runs⟩
      refine congrArg₂ List.cons ?_ results
      exact apply_result deps lawful now fsm entry
    | get now request => exact inductionHypothesis fsm
    | getRecent now request => exact inductionHypothesis fsm
    | getArea now request lastField => exact inductionHypothesis fsm
    | scan now headOnly => exact inductionHypothesis fsm
    | scanExpired now cancelled limit => exact inductionHypothesis fsm

/-- Two FSMs with the same records and the same chain in memory, given the same committed log at
any clock readings and with any reads in between, answer every entry alike and end with the same
records and the same chain. -/
theorem replicas_converge (deps : Deps) (lawful : deps.Lawful) (entries : List Entry)
    (committed : Committed deps entries) (first second : Fsm) (chain : HashChain)
    (sameRecords : first.store.records deps = second.store.records deps)
    (firstChain : first.chain = some chain) (secondChain : second.chain = some chain)
    (firstActivities secondActivities : List Activity)
    (firstLog : (deliveries firstActivities).map Prod.snd = entries)
    (secondLog : (deliveries secondActivities).map Prod.snd = entries) :
    applyResults (first.performAll deps firstActivities).1 =
        applyResults (second.performAll deps secondActivities).1 ∧
      (first.performAll deps firstActivities).2.store.records deps =
        (second.performAll deps secondActivities).2.store.records deps ∧
      (first.performAll deps firstActivities).2.chain =
        (second.performAll deps secondActivities).2.chain := by
  have start : second.replica deps = first.replica deps := by
    rw [Fsm.replica, Fsm.replica, sameRecords, firstChain, secondChain]
  obtain ⟨firstResults, firstReplica⟩ := performAll_replica deps lawful firstActivities first
  obtain ⟨secondResults, secondReplica⟩ := performAll_replica deps lawful secondActivities second
  rw [start] at secondResults secondReplica
  have routed : ∀ delivery ∈ deliveries firstActivities, Routed deps delivery.2.data := by
    intro delivery member
    refine committed.routed delivery.2 ?_
    rw [← firstLog]
    exact List.mem_map_of_mem member
  have seeded : (first.replica deps).chain.isSome := by
    rw [Fsm.replica, firstChain]
    rfl
  obtain ⟨results, runs⟩ := run_routed deps lawful _ _ (firstLog.trans secondLog.symm) routed
    (first.replica deps) seeded
  have replicas := firstReplica.trans (runs.trans secondReplica.symm)
  exact ⟨firstResults.trans (results.trans secondResults.symm),
    congrArg Replica.records replicas, congrArg Replica.chain replicas⟩

theorem replicas_converge_two_clocks :
    applyResults ((Fsm.fresh Reference.deps (Env.healthy 0)).performAll Reference.deps
        (Reference.sampleLog.map (Activity.apply 150))).1 =
      applyResults ((Fsm.fresh Reference.deps (Env.healthy 9)).performAll Reference.deps
        (.scan 9 false :: Reference.sampleLog.map (Activity.apply 900))).1 ∧
    ((Fsm.fresh Reference.deps (Env.healthy 0)).performAll Reference.deps
        (Reference.sampleLog.map (Activity.apply 150))).2.store.records Reference.deps =
      ((Fsm.fresh Reference.deps (Env.healthy 9)).performAll Reference.deps
        (.scan 9 false :: Reference.sampleLog.map (Activity.apply 900))).2.store.records
          Reference.deps ∧
    ((Fsm.fresh Reference.deps (Env.healthy 0)).performAll Reference.deps
        (Reference.sampleLog.map (Activity.apply 150))).2.chain =
      ((Fsm.fresh Reference.deps (Env.healthy 9)).performAll Reference.deps
        (.scan 9 false :: Reference.sampleLog.map (Activity.apply 900))).2.chain :=
  replicas_converge Reference.deps Reference.lawful Reference.sampleLog
    Reference.sampleLog_committed (Fsm.fresh Reference.deps (Env.healthy 0))
    (Fsm.fresh Reference.deps (Env.healthy 9)) .genesis rfl rfl rfl
    (Reference.sampleLog.map (Activity.apply 150))
    (.scan 9 false :: Reference.sampleLog.map (Activity.apply 900)) rfl rfl

/-! ### A node with its requests -/

/-- What happens to a node: raft is initialized, or its leadership changes; a client writes; the
reclaimer sweeps; a committed entry is applied. -/
inductive NodeStep where
  | raftChanges (raft : Raft)
  | write (now : Int64) (request : WriteRequest)
  | sweep (now : Int64) (cancelled : Nat → Option Err) (limit : Int)
  | apply (now : Int64) (entry : Entry)

def Node.step (deps : Deps) (node : Node) : NodeStep → Node
  | .raftChanges raft => { node with raft := some raft }
  | .write now request => (node.handle deps (Env.healthy now) request).2
  | .sweep now cancelled limit => (node.reclaimExpired deps (Env.healthy now) cancelled limit).2
  | .apply now entry => { node with fsm := (node.fsm.apply deps (Env.healthy now) entry).2 }

def Node.run (deps : Deps) (node : Node) (steps : List NodeStep) : Node :=
  steps.foldl (Node.step deps) node

theorem Node.run_cons (deps : Deps) (node : Node) (step : NodeStep) (rest : List NodeStep) :
    node.run deps (step :: rest) = (node.step deps step).run deps rest := rfl

/-- A cluster node that starts on an empty data directory, before raft is initialized. -/
def Node.fresh (deps : Deps) (now : Int64) : Node := ⟨Fsm.fresh deps (Env.healthy now), none⟩

/-- What changes the replica of a node: a command the node carries out by itself, and an entry it
applies. -/
inductive Effect where
  | stored (now : Int64) (command : Command)
  | applied (now : Int64) (entry : Entry)

/-- The effect of a step. A client write and a sweep have one only while raft is not
initialized. -/
def Node.effect (deps : Deps) (node : Node) : NodeStep → Option Effect
  | .raftChanges _ => none
  | .write now request =>
    if Replicator.enabled node.raft then none else some (.stored now (request.command deps now))
  | .sweep now cancelled limit =>
    if Replicator.enabled node.raft then none
    else
      match Storage.scanExpired deps (Env.healthy now) node.fsm.store cancelled limit with
      | (_, some _) => none
      | ([], none) => none
      | (entries, none) => some (.stored now (.reclaim ⟨entries⟩))
  | .apply now entry => some (.applied now entry)

/-- The effects of a run, in order. -/
def Node.effects (deps : Deps) : Node → List NodeStep → List Effect
  | _, [] => []
  | node, step :: rest => (node.effect deps step).toList ++ (node.step deps step).effects deps rest

def Replica.perform (deps : Deps) (replica : Replica) : Effect → Replica
  | .stored now command =>
    { replica with records := (replica.records.runCommand deps now 0 command).2 }
  | .applied now entry => (replica.apply deps now entry).2

def Replica.performAll (deps : Deps) (replica : Replica) (effects : List Effect) : Replica :=
  effects.foldl (Replica.perform deps) replica

/-- The applied entries among the effects. -/
def appliedIn (effects : List Effect) : List (Int64 × Entry) :=
  effects.filterMap fun
    | .applied now entry => some (now, entry)
    | .stored _ _ => none

/-- No command the node carries out by itself changes a record. -/
def Replica.Quiet (deps : Deps) : Replica → List Effect → Prop
  | _, [] => True
  | replica, .stored now command :: rest =>
    (replica.records.runCommand deps now 0 command).2 = replica.records ∧ replica.Quiet deps rest
  | replica, .applied now entry :: rest => (replica.apply deps now entry).2.Quiet deps rest

/-! ### What a step does to the replica -/

theorem submit_replicated (deps : Deps) (env : Env) (node : Node) (command : Command)
    (initialized : Replicator.enabled node.raft) : (node.submit deps env command).2 = node := by
  rw [Node.submit, if_pos initialized]
  split <;> rfl

theorem submit_stored (deps : Deps) (lawful : deps.Lawful) (now : Int64) (node : Node)
    (command : Command) (uninitialized : ¬ Replicator.enabled node.raft) :
    (node.submit deps (Env.healthy now) command).2.fsm.replica deps =
      (node.fsm.replica deps).perform deps (.stored now command) := by
  have stored := congrArg Prod.snd
    (runCommand_records deps lawful now node.fsm.store 0 command)
  rw [Node.submit, if_neg uninitialized]
  exact congrArg (Replica.mk · node.fsm.chain) stored

/-- A step changes the replica by its effect. -/
theorem step_replica (deps : Deps) (lawful : deps.Lawful) (node : Node) (step : NodeStep) :
    (node.step deps step).fsm.replica deps =
      (node.fsm.replica deps).performAll deps (node.effect deps step).toList := by
  cases step with
  | raftChanges raft => rfl
  | apply now entry => exact replica_apply deps lawful now node.fsm entry
  | write now request =>
    rw [Node.step, handle_eq_submit, Node.effect]
    by_cases initialized : Replicator.enabled node.raft = true
    · rw [submit_replicated deps _ node _ initialized, if_pos initialized]
      rfl
    · rw [submit_stored deps lawful now node _ initialized, if_neg initialized]
      rfl
  | sweep now cancelled limit =>
    rw [Node.step, Node.effect, Node.reclaimExpired]
    by_cases initialized : Replicator.enabled node.raft = true
    · rw [if_pos initialized]
      split
      · rfl
      · split
        · rfl
        · rfl
        · rw [submit_replicated deps _ node _ initialized]
          rfl
    · rw [if_neg initialized, Bool.eq_false_iff.mpr initialized, Bool.false_and,
        if_neg Bool.false_ne_true]
      obtain ⟨found, cancellation⟩ :=
        Storage.scanExpired deps (Env.healthy now) node.fsm.store cancelled limit
      rcases cancellation with _ | err
      · rcases found with _ | ⟨entry, others⟩
        · rfl
        · exact submit_stored deps lawful now node _ initialized
      · rfl

/-- A run changes the replica by its effects. -/
theorem run_effects (deps : Deps) (lawful : deps.Lawful) (steps : List NodeStep) (node : Node) :
    (node.run deps steps).fsm.replica deps =
      (node.fsm.replica deps).performAll deps (node.effects deps steps) := by
  induction steps generalizing node with
  | nil => rfl
  | cons step rest inductionHypothesis =>
    rw [Node.run_cons, inductionHypothesis, step_replica deps lawful, Node.effects,
      Replica.performAll, Replica.performAll, Replica.performAll, List.foldl_append]

/-- Quiet effects leave the replica that the applied entries alone leave. -/
theorem performAll_quiet (deps : Deps) (effects : List Effect) (replica : Replica)
    (quiet : replica.Quiet deps effects) :
    replica.performAll deps effects = replica.run deps (appliedIn effects) := by
  induction effects generalizing replica with
  | nil => rfl
  | cons effect rest inductionHypothesis =>
    cases effect with
    | stored now command =>
      obtain ⟨unchanged, restQuiet⟩ := quiet
      have same : replica.perform deps (.stored now command) = replica :=
        congrArg (Replica.mk · replica.chain) unchanged
      show (replica.perform deps (.stored now command)).performAll deps rest = _
      rw [same]
      exact inductionHypothesis replica restQuiet
    | applied now entry => exact inductionHypothesis _ quiet

/-- Raft stays initialized. -/
theorem step_initialized (deps : Deps) (node : Node) (step : NodeStep)
    (initialized : Replicator.enabled node.raft) :
    Replicator.enabled (node.step deps step).raft := by
  cases step with
  | raftChanges raft => rfl
  | apply now entry => exact initialized
  | write now request =>
    rw [Node.step, handle_eq_submit, submit_replicated deps _ node _ initialized]
    exact initialized
  | sweep now cancelled limit =>
    rw [Node.step, Node.reclaimExpired]
    split
    · exact initialized
    · split
      · exact initialized
      · exact initialized
      · rw [submit_replicated deps _ node _ initialized]
        exact initialized

/-- Once raft is initialized the only effects are applied entries. -/
theorem effects_initialized (deps : Deps) (steps : List NodeStep) (node : Node)
    (initialized : Replicator.enabled node.raft) (effect : Effect)
    (member : effect ∈ node.effects deps steps) : ∃ now entry, effect = .applied now entry := by
  induction steps generalizing node with
  | nil => cases member
  | cons step rest inductionHypothesis =>
    rcases List.mem_append.mp member with here | later
    · cases step with
      | raftChanges raft => cases here
      | apply now entry => exact ⟨now, entry, List.mem_singleton.mp here⟩
      | write now request =>
        rw [Node.effect, if_pos initialized] at here
        cases here
      | sweep now cancelled limit =>
        rw [Node.effect, if_pos initialized] at here
        cases here
    · exact inductionHypothesis (node.step deps step)
        (step_initialized deps node step initialized) later

/-- The store of a node follows what it did by itself before raft was initialized and the entries
it applied. When nothing it did by itself changed a record, it follows the entries alone, and two
such nodes that applied the same committed entries hold the same records. -/
theorem store_follows_log (deps : Deps) (lawful : deps.Lawful) (node : Node)
    (steps : List NodeStep) :
    (node.run deps steps).fsm.replica deps =
        (node.fsm.replica deps).performAll deps (node.effects deps steps) ∧
      (∀ front back, steps = front ++ back → (node.run deps front).raft.isSome →
        ∀ effect ∈ (node.run deps front).effects deps back,
          ∃ now entry, effect = .applied now entry) ∧
      ((node.fsm.replica deps).Quiet deps (node.effects deps steps) →
        (node.run deps steps).fsm.store.records deps =
          ((node.fsm.replica deps).run deps (appliedIn (node.effects deps steps))).records) ∧
      ∀ (other : Node) (otherSteps : List NodeStep),
        other.fsm.replica deps = node.fsm.replica deps →
        node.fsm.chain.isSome →
        Committed deps ((appliedIn (node.effects deps steps)).map Prod.snd) →
        (appliedIn (other.effects deps otherSteps)).map Prod.snd =
          (appliedIn (node.effects deps steps)).map Prod.snd →
        (node.fsm.replica deps).Quiet deps (node.effects deps steps) →
        (other.fsm.replica deps).Quiet deps (other.effects deps otherSteps) →
        (other.run deps otherSteps).fsm.store.records deps =
          (node.run deps steps).fsm.store.records deps := by
  have follows (node : Node) (steps : List NodeStep)
      (quiet : (node.fsm.replica deps).Quiet deps (node.effects deps steps)) :
      (node.run deps steps).fsm.store.records deps =
        ((node.fsm.replica deps).run deps (appliedIn (node.effects deps steps))).records := by
    have replica := run_effects deps lawful steps node
    rw [performAll_quiet deps _ _ quiet] at replica
    exact congrArg Replica.records replica
  refine ⟨run_effects deps lawful steps node, ?_, follows node steps, ?_⟩
  · intro front back _ initialized effect member
    exact effects_initialized deps back _ initialized effect member
  · intro other otherSteps sameStart seeded committed sameLog quiet otherQuiet
    rw [follows node steps quiet, follows other otherSteps otherQuiet, sameStart]
    have routed : ∀ delivery ∈ appliedIn (other.effects deps otherSteps),
        Routed deps delivery.2.data := by
      intro delivery member
      refine committed.routed delivery.2 ?_
      rw [← sameLog]
      exact List.mem_map_of_mem member
    obtain ⟨_, runs⟩ := run_routed deps lawful _ _ sameLog routed (node.fsm.replica deps) seeded
    rw [runs]

/-- A leader that is asked to write and a follower that is not apply the same entry. -/
theorem store_follows_log_two_nodes :
    ((Node.fresh Reference.deps 0).run Reference.deps
        (.raftChanges { leading := false } ::
          Reference.sampleLog.map (NodeStep.apply 900))).fsm.store.records Reference.deps =
      ((Node.fresh Reference.deps 0).run Reference.deps
        (.raftChanges { leading := true } ::
          .write 100 Reference.samplePut ::
            Reference.sampleLog.map (NodeStep.apply 150))).fsm.store.records Reference.deps :=
  (store_follows_log Reference.deps Reference.lawful (Node.fresh Reference.deps 0)
    (.raftChanges { leading := true } ::
      .write 100 Reference.samplePut ::
        Reference.sampleLog.map (NodeStep.apply 150))).2.2.2 (Node.fresh Reference.deps 0)
    (.raftChanges { leading := false } :: Reference.sampleLog.map (NodeStep.apply 900)) rfl rfl
    Reference.sampleLog_committed rfl trivial trivial

/-- A node that carried out a write before raft was initialized holds a record that no applied
entry made. -/
theorem early_write_not_in_log :
    ¬ ∀ steps : List NodeStep,
      ((Node.fresh Reference.deps 0).run Reference.deps steps).fsm.store.records Reference.deps =
        (((Node.fresh Reference.deps 0).fsm.replica Reference.deps).run Reference.deps
          (appliedIn ((Node.fresh Reference.deps 0).effects Reference.deps steps))).records := by
  intro claim
  have equal := congrFun (claim [.write 100 Reference.samplePut])
    (encodeKey Reference.deps Reference.sampleKey).1
  revert equal
  decide

end ConsensusDB
