/-
This file is a cluster of nodes around one committed log. A client writes to a
node; a leader hands the command to raft; raft commits commands in some order;
each node applies the log from its front, at its own pace; and the client that
wrote is answered when the node it wrote to applies its entry. Raft itself is
taken for what it promises: there is one log, it only grows, and every node
applies it in order.

A node may crash at any time. It keeps its store, forgets the clients that wait
there, and is handed the log again from an earlier position. It may persist what it
holds, and any node may load that and go on from the position that raft has noted
for it, which is not past the one at which it was persisted.

Reads do not go through the log. A node answers them from what it has applied,
so on a node that was never interrupted an answer is the state after a front part of
the log, and on one that lags behind, that part may end before an entry whose client
has been answered.
-/

import ConsensusDB.Convergence
import ConsensusDB.Versions

namespace ConsensusDB

open Wire

/-! ### The cluster -/

/-- A node in a cluster: the entries it has applied, those for which a client waits there, and those
for which a client has received success. How many entries of the log are in its store, and whether
it was ever interrupted, is on record too. -/
structure Member where
  node : Node
  applied : List (Int64 × Entry) := []
  awaited : List Entry := []
  acknowledged : List Entry := []
  reach : Nat := 0
  interrupted : Bool := false

/-- A persisted snapshot: the state machine whose store was written out, the entries up to the
position that raft has noted for it, and how far into the log the store reaches. -/
structure Persisted where
  source : Fsm
  applied : List (Int64 × Entry)
  reach : Nat

/-- A cluster: its members, the committed log, the commands raft has not committed yet with the node
that proposed them, and the snapshots. -/
structure Cluster (Id : Type) where
  members : Id → Member
  log : List Entry := []
  proposals : List (Id × Bytes) := []
  persisted : List Persisted := []

/-- What happens in a cluster. A command is committed at an index above the log's; its client may
have given up by then. A node that has crashed is back at a position, and loads a snapshot then if
raft has one for it. -/
inductive ClusterStep (Id : Type) where
  | raftChanges (id : Id) (raft : Raft)
  | write (id : Id) (now : Int64) (request : WriteRequest)
  | sweep (id : Id) (now : Int64) (cancelled : Nat → Option Err) (limit : Int)
  | commit (position : Nat) (index term : UInt64) (waits : Bool)
  | apply (id : Id) (now : Int64)
  | snapshot (id : Id) (position : Nat)
  | restart (id : Id) (now : Int64) (position : Nat)
  | install (id : Id) (position : Nat)

namespace Member

/-- Applies an entry, and answers the client that waits for it. -/
def deliver (deps : Deps) (member : Member) (now : Int64) (entry : Entry) : Member :=
  let outcome := member.node.fsm.apply deps (Env.healthy now) entry
  { member with
    node := { member.node with fsm := outcome.2 }
    applied := member.applied ++ [(now, entry)]
    awaited := member.awaited.filter fun waiting => waiting ≠ entry
    acknowledged :=
      if entry ∈ member.awaited ∧ outcome.1.err = none then member.acknowledged ++ [entry]
      else member.acknowledged
    reach := max member.reach (member.applied.length + 1) }

/-- Goes on with another state machine and at another position. No client waits any more. -/
def resume (member : Member) (fsm : Fsm) (applied : List (Int64 × Entry)) (reach : Nat) : Member :=
  { member with
    node := { member.node with fsm := fsm }
    applied := applied
    awaited := []
    reach := reach
    interrupted := true }

def restart (deps : Deps) (member : Member) (now : Int64) (position : Nat) : Member :=
  member.resume (member.node.fsm.restart deps (Env.healthy now)) (member.applied.take position)
    member.reach

def install (member : Member) (saved : Persisted) : Member :=
  member.resume (member.node.fsm.restore saved.source.persist) saved.applied
    (max member.reach saved.reach)

/-- Persists the store. The position that is noted for it may be an earlier one. -/
def snapshot (member : Member) (position : Nat) : Persisted :=
  ⟨member.node.fsm, member.applied.take position, member.reach⟩

end Member

namespace Cluster

variable {Id : Type} [DecidableEq Id]

/-- Nodes with empty data directories and raft initialized. -/
def start (deps : Deps) (started : Id → Int64) (roles : Id → Raft) : Cluster Id where
  members id := { node := ⟨Fsm.fresh deps (Env.healthy (started id)), some (roles id)⟩ }

def set (cluster : Cluster Id) (id : Id) (member : Member) : Cluster Id :=
  { cluster with members := Function.update cluster.members id member }

/-- Keeps what a node proposes, and the node as the request leaves it. -/
def propose (cluster : Cluster Id) (id : Id) (outcome : Outcome × Node) : Cluster Id :=
  { cluster.set id { cluster.members id with node := outcome.2 } with
    proposals :=
      match outcome.1 with
      | .proposed data => cluster.proposals ++ [(id, data)]
      | _ => cluster.proposals }

/-- Puts a command of a node at the end of the log. -/
def append (cluster : Cluster Id) (id : Id) (entry : Entry) (waits : Bool) : Cluster Id :=
  { cluster.set id { cluster.members id with
      awaited := (cluster.members id).awaited ++ if waits then [entry] else [] } with
    log := cluster.log ++ [entry] }

def step (deps : Deps) (cluster : Cluster Id) : ClusterStep Id → Option (Cluster Id)
  | .raftChanges id raft => some (cluster.set id { cluster.members id with
      node := { (cluster.members id).node with raft := some raft } })
  | .write id now request =>
    some (cluster.propose id ((cluster.members id).node.handle deps (Env.healthy now) request))
  | .sweep id now cancelled limit =>
    some (cluster.propose id
      ((cluster.members id).node.reclaimExpired deps (Env.healthy now) cancelled limit))
  | .commit position index term waits =>
    match cluster.proposals[position]? with
    | none => none
    | some (id, data) =>
      if 0 < index ∧ ∀ earlier ∈ cluster.log, earlier.index < index then
        some { cluster.append id ⟨index, term, data⟩ waits with
          proposals := cluster.proposals.eraseIdx position }
      else none
  | .apply id now =>
    match cluster.log[(cluster.members id).applied.length]? with
    | none => none
    | some entry => some (cluster.set id ((cluster.members id).deliver deps now entry))
  | .snapshot id position => some { cluster with
      persisted := cluster.persisted ++ [(cluster.members id).snapshot position] }
  | .restart id now position =>
    some (cluster.set id ((cluster.members id).restart deps now position))
  | .install id position =>
    match cluster.persisted[position]? with
    | none => none
    | some saved => some (cluster.set id ((cluster.members id).install saved))

/-- `kv.get` on a node. -/
def get (deps : Deps) (cluster : Cluster Id) (id : Id) (now : Int64) (request : KeyRequest) :
    Except Err Record :=
  Storage.get deps (Env.healthy now) (cluster.members id).node.fsm.store request

/-- The states a cluster reaches. -/
inductive Reached (deps : Deps) (started : Id → Int64) (roles : Id → Raft) : Cluster Id → Prop
  | start : Reached deps started roles (Cluster.start deps started roles)
  | step {cluster next : Cluster Id} (taken : ClusterStep Id)
      (reached : Reached deps started roles cluster)
      (stepped : cluster.step deps taken = some next) : Reached deps started roles next

end Cluster

/-! ### What every reached state satisfies -/

/-- Raft is initialized; a node that was never interrupted is where the entries it has applied put
it; these are a front part of the log; an acknowledged entry is in the log, and is applied if the
node was never interrupted. -/
structure Member.Tracks (deps : Deps) (started : Int64) (log : List Entry) (member : Member) :
    Prop where
  raft : Replicator.enabled member.node.raft
  fsm : member.interrupted = false →
    member.node.fsm = (Fsm.fresh deps (Env.healthy started)).run deps member.applied
  front : member.applied.map Prod.snd <+: log
  acknowledged : ∀ entry ∈ member.acknowledged, entry ∈ log ∧
    (member.interrupted = false → entry ∈ member.applied.map Prod.snd)

/-- The log is a committed one, what is proposed went through the write path, and what a snapshot
is noted for is a front part of the log. -/
structure Cluster.Tracks {Id : Type} (deps : Deps) (started : Id → Int64) (cluster : Cluster Id) :
    Prop where
  members : ∀ id, (cluster.members id).Tracks deps (started id) cluster.log
  log : Committed deps cluster.log
  proposals : ∀ proposal ∈ cluster.proposals, Routed deps proposal.2
  persisted : ∀ saved ∈ cluster.persisted, saved.applied.map Prod.snd <+: cluster.log

/-- A request to a node that replicates leaves the node as it is. -/
theorem handle_replicated (deps : Deps) (env : Env) (node : Node) (request : WriteRequest)
    (raft : Replicator.enabled node.raft) : (node.handle deps env request).2 = node := by
  rw [handle_eq_submit]
  exact submit_replicated deps env node _ raft

theorem reclaimExpired_replicated (deps : Deps) (env : Env) (node : Node)
    (cancelled : Nat → Option Err) (limit : Int) (raft : Replicator.enabled node.raft) :
    (node.reclaimExpired deps env cancelled limit).2 = node := by
  unfold Node.reclaimExpired
  split
  · rfl
  · split
    · rfl
    · rfl
    · exact submit_replicated deps env node _ raft

/-- A front part of a log, and the entry after it, are a front part. -/
theorem front_extended (front log : List Entry) (entry : Entry) (isFront : front <+: log)
    (next : log[front.length]? = some entry) : front ++ [entry] <+: log := by
  obtain ⟨rest, rfl⟩ := isFront
  rw [List.getElem?_append_right le_rfl, Nat.sub_self] at next
  cases rest with
  | nil => cases next
  | cons first others =>
    rw [show first = entry from Option.some.inj next]
    exact ⟨others, List.append_assoc _ _ _⟩

namespace Member

variable {deps : Deps} {started : Int64} {log : List Entry} {member : Member}

theorem Tracks.extend (tracks : member.Tracks deps started log) (more : List Entry) :
    member.Tracks deps started (log ++ more) where
  raft := tracks.raft
  fsm := tracks.fsm
  front := tracks.front.trans (List.prefix_append _ _)
  acknowledged entry answered :=
    (tracks.acknowledged entry answered).imp_left (List.mem_append_left _)

theorem Tracks.deliver (tracks : member.Tracks deps started log) (now : Int64) (entry : Entry)
    (next : log[member.applied.length]? = some entry) :
    (member.deliver deps now entry).Tracks deps started log where
  raft := tracks.raft
  fsm steady := by
    have before := tracks.fsm steady
    show (member.node.fsm.apply deps (Env.healthy now) entry).2 = _
    rw [Member.deliver, Fsm.run, List.foldl_append, before]
    rfl
  front := by
    rw [Member.deliver, List.map_append]
    exact front_extended _ _ entry tracks.front (by rw [List.length_map]; exact next)
  acknowledged other answered := by
    have kept (earlier : other ∈ member.acknowledged) : other ∈ log ∧
        (member.interrupted = false → other ∈ (member.applied ++ [(now, entry)]).map Prod.snd) := by
      rw [List.map_append]
      exact (tracks.acknowledged other earlier).imp_right fun applied steady =>
        List.mem_append_left _ (applied steady)
    simp only [Member.deliver] at answered
    split at answered
    · rcases List.mem_append.mp answered with earlier | isLast
      · exact kept earlier
      · obtain rfl := List.mem_singleton.mp isLast
        refine ⟨List.mem_of_getElem? next, fun _ => ?_⟩
        rw [Member.deliver, List.map_append]
        exact List.mem_append_right _ List.mem_cons_self
    · exact kept answered

/-- A node that goes on at another position is interrupted, so only the position matters. -/
theorem Tracks.resume (tracks : member.Tracks deps started log) (fsm : Fsm)
    (applied : List (Int64 × Entry)) (reach : Nat) (front : applied.map Prod.snd <+: log) :
    (member.resume fsm applied reach).Tracks deps started log where
  raft := tracks.raft
  fsm steady := nomatch steady
  front := front
  acknowledged entry answered :=
    ⟨(tracks.acknowledged entry answered).1, fun steady => nomatch steady⟩

/-- What a node has applied up to a position is a front part of the log. -/
theorem Tracks.front_take (tracks : member.Tracks deps started log) (position : Nat) :
    (member.applied.take position).map Prod.snd <+: log := by
  rw [List.map_take]
  exact (List.take_prefix _ _).trans tracks.front

end Member

namespace Cluster

variable {Id : Type} {deps : Deps} {started : Id → Int64} {cluster : Cluster Id}

theorem tracks_start (roles : Id → Raft) : (start deps started roles).Tracks deps started where
  members _ :=
    { raft := rfl
      fsm := fun _ => rfl
      front := List.nil_prefix
      acknowledged := fun _ answered => nomatch answered }
  log := ⟨⟨List.Pairwise.nil, fun _ member => nomatch member⟩, fun _ member => nomatch member⟩
  proposals _ member := nomatch member
  persisted _ member := nomatch member

variable [DecidableEq Id]

/-- What holds of every member holds after one of them has changed, if it holds of that one. -/
theorem forall_set (Holds : Id → Member → Prop) (holds : ∀ id, Holds id (cluster.members id))
    {id : Id} {member : Member} (changed : Holds id member) (other : Id) :
    Holds other ((cluster.set id member).members other) :=
  (Function.forall_update_iff _ Holds).mpr ⟨changed, fun other _ => holds other⟩ other

theorem Tracks.set (tracks : cluster.Tracks deps started) {id : Id} {member : Member}
    (isTracked : member.Tracks deps (started id) cluster.log) :
    (cluster.set id member).Tracks deps started :=
  { tracks with members := forall_set _ tracks.members isTracked }

/-- Proposing keeps every node. -/
theorem Tracks.propose (tracks : cluster.Tracks deps started) (id : Id) (outcome : Outcome × Node)
    (kept : outcome.2 = (cluster.members id).node)
    (routed : ∀ data, outcome.1 = .proposed data → Routed deps data) :
    (cluster.propose id outcome).Tracks deps started := by
  have isSet : (cluster.set id { cluster.members id with node := outcome.2 }).Tracks deps started :=
    tracks.set (by rw [kept]; exact tracks.members id)
  refine { isSet with proposals := fun proposal member => ?_ }
  simp only [Cluster.propose] at member
  split at member
  · rename_i data proposed
    rcases List.mem_append.mp member with earlier | isLast
    · exact tracks.proposals proposal earlier
    · rw [List.mem_singleton.mp isLast]
      exact routed data proposed
  · exact tracks.proposals proposal member

theorem Tracks.commit (tracks : cluster.Tracks deps started) (position : Nat) (id : Id)
    (entry : Entry) (waits : Bool)
    (proposed : cluster.proposals[position]? = some (id, entry.data)) (positive : 0 < entry.index)
    (above : ∀ earlier ∈ cluster.log, earlier.index < entry.index) :
    Tracks deps started { cluster.append id entry waits with
      proposals := cluster.proposals.eraseIdx position } where
  members :=
    have extended (other : Id) := (tracks.members other).extend [entry]
    forall_set _ extended { extended id with }
  log :=
    { increasing := by
        refine List.pairwise_append.mpr
          ⟨tracks.log.increasing, List.pairwise_singleton _ _, fun earlier member last isLast => ?_⟩
        rw [List.mem_singleton.mp isLast]
        exact above earlier member
      positive := List.forall_mem_append.mpr
        ⟨tracks.log.positive, List.forall_mem_singleton.mpr positive⟩
      routed := List.forall_mem_append.mpr ⟨tracks.log.routed, List.forall_mem_singleton.mpr
        (tracks.proposals (id, entry.data) (List.mem_of_getElem? proposed))⟩ }
  proposals proposal member := tracks.proposals proposal (List.mem_of_mem_eraseIdx member)
  persisted saved member := (tracks.persisted saved member).trans (List.prefix_append _ _)

/-- A step keeps what is said of every reached state. -/
theorem Tracks.step (tracks : cluster.Tracks deps started) {next : Cluster Id}
    (taken : ClusterStep Id) (stepped : cluster.step deps taken = some next) :
    next.Tracks deps started := by
  cases taken with
  | raftChanges id raft =>
    cases stepped
    exact tracks.set { tracks.members id with raft := rfl }
  | write id now request =>
    cases stepped
    exact tracks.propose id _ (handle_replicated deps _ _ request (tracks.members id).raft)
      (handle_routed deps _ _ request)
  | sweep id now cancelled limit =>
    cases stepped
    exact tracks.propose id _
      (reclaimExpired_replicated deps _ _ cancelled limit (tracks.members id).raft)
      (reclaimExpired_routed deps _ _ cancelled limit)
  | commit position index term waits =>
    rw [Cluster.step] at stepped
    split at stepped
    · cases stepped
    · rename_i id data proposed
      split at stepped
      · rename_i legal
        cases stepped
        exact tracks.commit position id ⟨index, term, data⟩ waits proposed legal.1 legal.2
      · cases stepped
  | apply id now =>
    rw [Cluster.step] at stepped
    split at stepped
    · cases stepped
    · rename_i entry found
      cases stepped
      exact tracks.set ((tracks.members id).deliver now entry found)
  | snapshot id position =>
    cases stepped
    exact { tracks with
      persisted := List.forall_mem_append.mpr ⟨tracks.persisted,
        List.forall_mem_singleton.mpr ((tracks.members id).front_take position)⟩ }
  | restart id now position =>
    cases stepped
    exact tracks.set ((tracks.members id).resume _ _ _ ((tracks.members id).front_take position))
  | install id position =>
    rw [Cluster.step] at stepped
    split at stepped
    · cases stepped
    · rename_i saved found
      cases stepped
      exact tracks.set ((tracks.members id).resume _ _ _
        (tracks.persisted saved (List.mem_of_getElem? found)))

theorem tracks_of_reached (roles : Id → Raft) (reached : Reached deps started roles cluster) :
    cluster.Tracks deps started := by
  induction reached with
  | start => exact tracks_start roles
  | step taken _ stepped inductionHypothesis => exact inductionHypothesis.step taken stepped

/-! ### What a read returns -/

/-- The index of the last entry a node has applied, zero before the first. -/
def appliedIndex (cluster : Cluster Id) (id : Id) : UInt64 :=
  (cluster.members id).applied.getLast?.elim 0 fun delivery => delivery.2.index

end Cluster

/-- The answer is what `kv.get` gives after some front part of the log that has the entry in it,
and whoever applies that part holds the same records. -/
def Reflects (deps : Deps) (log : List Entry) (entry : Entry) (now : Int64) (request : KeyRequest)
    (answer : Except Err Record) : Prop :=
  ∃ started deliveries, deliveries.map Prod.snd <+: log ∧ entry ∈ deliveries.map Prod.snd ∧
    answer = Storage.get deps (Env.healthy now)
      ((Fsm.fresh deps (Env.healthy started)).run deps deliveries).store request ∧
    ∀ other others, others.map Prod.snd = deliveries.map Prod.snd →
      recordsAfter deps other others = recordsAfter deps started deliveries

namespace Cluster

variable {Id : Type} [DecidableEq Id] (deps : Deps)

omit [DecidableEq Id] in
/-- A node whose last applied entry is not below an entry of the log has applied it. -/
theorem applied_of_index (started : Id → Int64) (cluster : Cluster Id)
    (tracks : cluster.Tracks deps started) (id : Id) (entry : Entry) (member : entry ∈ cluster.log)
    (current : entry.index ≤ cluster.appliedIndex id) :
    entry ∈ (cluster.members id).applied.map Prod.snd := by
  obtain ⟨rest, whole⟩ := (tracks.members id).front
  rw [← whole] at member
  rcases List.mem_append.mp member with front | missing
  · exact front
  · exfalso
    unfold appliedIndex at current
    cases last : (cluster.members id).applied.getLast? with
    | none =>
      rw [last] at current
      have positive := tracks.log.positive entry (whole ▸ member)
      exact absurd current (UInt64.not_le.mpr positive)
    | some delivery =>
      rw [last] at current
      have log : IsLog ((cluster.members id).applied.map Prod.snd ++ rest) :=
        whole ▸ tracks.log.toIsLog
      have below := log.lt_of_mem
        (List.mem_map_of_mem (f := Prod.snd) (List.mem_of_getLast? last)) missing
      exact absurd current (UInt64.not_le.mpr below)

/-- After a client has received success, `kv.get` reflects the write on the node that answered the
client, and on every node that has applied the log up to the index of the write, as long as the node
was never interrupted. -/
theorem get_reflects_acknowledged (lawful : deps.Lawful) (started : Id → Int64) (roles : Id → Raft)
    (cluster : Cluster Id) (reached : Reached deps started roles cluster) (answering : Id)
    (entry : Entry) (acknowledged : entry ∈ (cluster.members answering).acknowledged) (id : Id)
    (steady : (cluster.members id).interrupted = false)
    (current : id = answering ∨ entry.index ≤ cluster.appliedIndex id) (now : Int64)
    (request : KeyRequest) :
    Reflects deps cluster.log entry now request (cluster.get deps id now request) := by
  have tracks := tracks_of_reached roles reached
  have front := (tracks.members id).front
  obtain ⟨inLog, answered⟩ := (tracks.members answering).acknowledged entry acknowledged
  have applied : entry ∈ (cluster.members id).applied.map Prod.snd := by
    rcases current with rfl | index
    · exact answered steady
    · exact applied_of_index deps started cluster tracks id entry inLog index
  refine ⟨started id, _, front, applied, ?_, fun other others same => ?_⟩
  · rw [get, (tracks.members id).fsm steady]
  · have routed := fun delivery member =>
      (tracks.log.delivered same front.subset delivery member).routed
    rw [recordsAfter_eq deps lawful, recordsAfter_eq deps lawful,
      (run_routed deps lawful others _ same routed Replica.fresh rfl).2]

def run (cluster : Cluster Id) (steps : List (ClusterStep Id)) : Option (Cluster Id) :=
  steps.foldlM (step deps) cluster

theorem reached_run (started : Id → Int64) (roles : Id → Raft) (steps : List (ClusterStep Id))
    (cluster next : Cluster Id) (reached : Reached deps started roles cluster)
    (ran : cluster.run deps steps = some next) : Reached deps started roles next := by
  induction steps generalizing cluster with
  | nil =>
    rw [← Option.some.inj ran]
    exact reached
  | cons taken rest inductionHypothesis =>
    obtain ⟨after, stepped, later⟩ := Option.bind_eq_some_iff.mp ran
    exact inductionHypothesis after (.step taken reached stepped) later

end Cluster

/-! ### A follower that lags behind -/

/-- The leader of two nodes takes a put and applies it; the follower has not applied it yet. -/
def laggingSteps : List (ClusterStep Bool) :=
  [.write true 100 Reference.samplePut, .commit 0 1 1 true, .apply true 110]

def twoNodes : Cluster Bool :=
  Cluster.start Reference.deps (fun _ => 0) fun id => { leading := id }

def laggingCluster : Cluster Bool := (twoNodes.run Reference.deps laggingSteps).getD twoNodes

theorem laggingCluster_reached : laggingCluster.Reached Reference.deps (fun _ => 0)
    fun id => { leading := id } := by
  refine Cluster.reached_run Reference.deps _ _ laggingSteps twoNodes laggingCluster .start ?_
  have defined : (twoNodes.run Reference.deps laggingSteps).isSome := by decide +kernel
  obtain ⟨cluster, ran⟩ := Option.isSome_iff_exists.mp defined
  rw [laggingCluster, ran]
  rfl

theorem laggingCluster_log : laggingCluster.log = Reference.sampleLog := by decide +kernel

theorem laggingCluster_steady (id : Bool) : (laggingCluster.members id).interrupted = false := by
  revert id
  decide +kernel

theorem laggingCluster_acknowledged :
    Reference.entryOf 1 (Reference.samplePut.command Reference.deps 100) ∈
      (laggingCluster.members true).acknowledged := by decide +kernel

theorem get_reflects_acknowledged_leader :
    Reflects Reference.deps laggingCluster.log
      (Reference.entryOf 1 (Reference.samplePut.command Reference.deps 100)) 120
      { key := some Reference.sampleKey }
      (laggingCluster.get Reference.deps true 120 { key := some Reference.sampleKey }) :=
  Cluster.get_reflects_acknowledged Reference.deps Reference.lawful _ _ laggingCluster
    laggingCluster_reached true _ laggingCluster_acknowledged true (laggingCluster_steady true)
    (Or.inl rfl) 120 _

/-- A get finds a key unless its record is absent or has expired. -/
theorem get_head (deps : Deps) (now : Int64) (store : Store) (key : Key) :
    ∃ record, Storage.get deps (Env.healthy now) store { key := some key } = .ok record ∧
      (record.head = none ↔ ∀ stored, store.records deps (encodeKey deps key).1 = some stored →
        deps.isExpired now stored.expiresAt) := by
  obtain ⟨reply, got, ⟨rfl, expired⟩ | ⟨stored, found, alive, head, _⟩⟩ :=
    get_healthy_records deps now store key
  · exact ⟨_, got, iff_of_true rfl expired⟩
  · refine ⟨reply, got, iff_of_false head fun all => ?_⟩
    rw [all stored found] at alive
    cases alive

/-- The follower answers that the key is not there, after the leader's client was told that it had
been stored. Neither of them was interrupted. -/
theorem lagging_get_misses_acknowledged :
    ¬ ∀ (started : Bool → Int64) (roles : Bool → Raft) (cluster : Cluster Bool),
      cluster.Reached Reference.deps started roles →
      (∀ id, (cluster.members id).interrupted = false) →
      ∀ answering entry, entry ∈ (cluster.members answering).acknowledged → ∀ id now request,
        Reflects Reference.deps cluster.log entry now request
          (cluster.get Reference.deps id now request) := by
  intro claim
  obtain ⟨started, deliveries, front, member, answer, same⟩ := claim _ _ laggingCluster
    laggingCluster_reached laggingCluster_steady true _ laggingCluster_acknowledged false 120
    { key := some Reference.sampleKey }
  have wholeLog : sampleDeliveries.map Prod.snd = deliveries.map Prod.snd := by
    rw [laggingCluster_log] at front
    obtain ⟨rest, whole⟩ := front
    cases deliveries with
    | nil => cases member
    | cons delivery others =>
      obtain ⟨first, none⟩ := List.cons.inj whole
      have noOthers := (List.append_eq_nil_iff.mp none).1
      rw [List.map_cons, noOthers, first]
      rfl
  have records := same 0 sampleDeliveries wholeLog
  have present : recordsAfter Reference.deps started deliveries
      (encodeKey Reference.deps Reference.sampleKey).1 = some ⟨str "1", 1, 160, 0⟩ := by
    rw [← records]
    decide +kernel
  obtain ⟨record, got, head⟩ := get_head Reference.deps 120
    ((Fsm.fresh Reference.deps (Env.healthy started)).run Reference.deps deliveries).store
    Reference.sampleKey
  obtain ⟨missed, gotMissed, missedHead⟩ := get_head Reference.deps 120
    (laggingCluster.members false).node.fsm.store Reference.sampleKey
  have absent : (laggingCluster.members false).node.fsm.store.records Reference.deps
      (encodeKey Reference.deps Reference.sampleKey).1 = none := by decide +kernel
  have equal : missed = record :=
    Except.ok.inj (gotMissed.symm.trans (answer.trans got))
  have notFound : missed.head = none := missedHead.mpr fun stored isStored => by
    rw [absent] at isStored
    cases isStored
  rw [equal] at notFound
  have expired := head.mp notFound _ present
  exact absurd expired (by decide)

end ConsensusDB
