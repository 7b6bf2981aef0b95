/-
This file is about what the clients of a cluster see of their writes. A write is
invoked when a node hands its command to raft, takes its place when raft commits the
command, and is answered when the node that proposed it applies the entry; a client
that has given up is not answered, and its command may still be committed later.
Leadership may change at any time, several nodes may take themselves for the leader,
commands are committed in any order, and nodes crash, are handed entries again and load
snapshots. A client whose node is interrupted is not answered.

The history is kept beside the cluster, which runs as before. It is linearized by the
committed log: the answers are those of one replica that applies the log by itself,
and a write that was answered before another one was invoked is before it in the log.
The steps have to be harmless for it: what is handed to a node again overwrites what it
writes, and a snapshot that a node behind it loads replaces what that holds.
-/

import ConsensusDB.Lib.Linear
import ConsensusDB.Recovery
import Mathlib.Data.List.Perm.Basic

namespace ConsensusDB

open Wire Linear

/-! ### Histories -/

/-- A cluster with the history of its writes: the operation behind each proposal and behind each
entry of the log, what the clients have seen, and the number of operations. -/
structure Traced (Id : Type) where
  cluster : Cluster Id
  callers : List Nat := []
  order : List (Nat × Entry) := []
  events : List (Linear.Event Command FsmResult) := []
  count : Nat := 0

namespace Traced

variable {Id : Type} [DecidableEq Id] (deps : Deps)

def start (started : Id → Int64) (roles : Id → Raft) : Traced Id :=
  { cluster := Cluster.start deps started roles }

/-- A command that is handed to raft is a new operation. -/
def invoke (traced : Traced Id) (command : Command) : Outcome → Traced Id
  | .proposed _ => { traced with
      callers := traced.callers ++ [traced.count]
      events := traced.events ++ [.invoked traced.count command]
      count := traced.count + 1 }
  | _ => traced

/-- What a step of the cluster adds to the history. -/
def note (traced : Traced Id) : ClusterStep Id → Traced Id
  | .write id now request =>
    traced.invoke (request.command deps now)
      ((traced.cluster.members id).node.handle deps (Env.healthy now) request).1
  | .sweep id now cancelled limit =>
    traced.invoke
      (.reclaim ⟨(Storage.scanExpired deps (Env.healthy now)
        (traced.cluster.members id).node.fsm.store cancelled limit).1⟩)
      ((traced.cluster.members id).node.reclaimExpired deps (Env.healthy now) cancelled limit).1
  | .commit position index term _ =>
    match traced.callers[position]?, traced.cluster.proposals[position]? with
    | some op, some (_, data) => { traced with
        callers := traced.callers.eraseIdx position
        order := traced.order ++ [(op, ⟨index, term, data⟩)] }
    | _, _ => traced
  | .apply id now =>
    match traced.order[(traced.cluster.members id).applied.length]? with
    | some (op, entry) =>
      if (traced.cluster.members id).awaited.contains entry then { traced with
        events := traced.events ++ [.answered op
          ((traced.cluster.members id).node.fsm.apply deps (Env.healthy now) entry).1] }
      else traced
    | none => traced
  | _ => traced

def step (traced : Traced Id) (taken : ClusterStep Id) : Option (Traced Id) :=
  (traced.cluster.step deps taken).map fun next =>
    { traced.note deps taken with cluster := next }

/-- The states a cluster reaches by harmless steps, with their histories. -/
inductive Reached (started : Id → Int64) (roles : Id → Raft) : Traced Id → Prop
  | start : Reached started roles (Traced.start deps started roles)
  | step {traced next : Traced Id} (taken : ClusterStep Id)
      (reached : Reached started roles traced) (harmless : traced.cluster.Harmless deps taken)
      (stepped : traced.step deps taken = some next) : Reached started roles next

/-! ### The commands behind proposals -/

/-- A command of the sweeper that is handed to raft is the one for the keys it found. -/
theorem reclaimExpired_proposed (env : Env) (node : Node) (cancelled : Nat → Option Err)
    (limit : Int) (data : Bytes)
    (proposed : (node.reclaimExpired deps env cancelled limit).1 = .proposed data) :
    encodeCommand deps
      (.reclaim ⟨(Storage.scanExpired deps env node.fsm.store cancelled limit).1⟩) = .ok data := by
  unfold Node.reclaimExpired at proposed
  split at proposed
  · cases proposed
  · split at proposed
    · cases proposed
    · cases proposed
    · rename_i entries _ scanned
      rw [scanned]
      exact submit_proposed deps env node _ data proposed

/-- The operation was invoked with a command that the data encodes. -/
def Behind (events : List (Linear.Event Command FsmResult)) (op : Nat) (proposal : Id × Bytes) :
    Prop :=
  ∃ command, .invoked op command ∈ events ∧ encodeCommand deps command = .ok proposal.2

omit [DecidableEq Id] in
theorem Behind.append {events : List (Linear.Event Command FsmResult)} {op : Nat}
    {proposal : Id × Bytes} (behind : Behind deps events op proposal)
    (more : List (Linear.Event Command FsmResult)) :
    Behind deps (events ++ more) op proposal := by
  obtain ⟨command, invoked, encoded⟩ := behind
  exact ⟨command, List.mem_append_left _ invoked, encoded⟩

/-- The sequential meaning of the log: one replica that applies its entries. Its clock is never
read. -/
def applyAlone (replica : Replica) (entry : Entry) : FsmResult × Replica :=
  replica.apply deps 0 entry

theorem after_applyAlone (entries : List Entry) :
    after (applyAlone deps) Replica.fresh entries =
      Replica.fresh.run deps (entries.map fun entry => (0, entry)) := by
  rw [after, Replica.run, List.foldl_map]
  rfl

/-- What holds of a cluster and its history in every reached state. An entry for which a client
waits on a node lies beyond what is in the store of the node. -/
structure Sound (started : Id → Int64) (traced : Traced Id) : Prop where
  tracks : traced.cluster.Tracks deps started
  recovers : traced.cluster.Recovers deps
  log : traced.order.map Prod.snd = traced.cluster.log
  behind : List.Forall₂ (Behind deps traced.events) traced.callers traced.cluster.proposals
  fresh : (traced.callers ++ traced.order.map Prod.fst).Nodup
  counted : ∀ op command, .invoked op command ∈ traced.events → op < traced.count
  waiting : ∀ id, ∀ entry ∈ (traced.cluster.members id).awaited, ∃ position,
    traced.cluster.log[position]? = some entry ∧ (traced.cluster.members id).reach ≤ position
  waiter : ∀ first second, ∀ entry ∈ (traced.cluster.members first).awaited,
    entry ∈ (traced.cluster.members second).awaited → first = second
  answered : ∀ op result, .answered op result ∈ traced.events → ∃ entry,
    (op, entry) ∈ traced.order ∧ ∀ id, entry ∉ (traced.cluster.members id).awaited
  linearizes : Linearizes (applyAlone deps) Replica.fresh
    (fun command (entry : Entry) => encodeCommand deps command = .ok entry.data)
    traced.events traced.order

/-! ### Steps -/

variable {deps} {started : Id → Int64} {traced : Traced Id}

omit [DecidableEq Id] in
theorem start_sound (roles : Id → Raft) : Sound deps started (start deps started roles) where
  tracks := Cluster.tracks_start roles
  recovers := Cluster.recovers_start deps started roles
  log := rfl
  behind := .nil
  fresh := List.nodup_nil
  counted _ _ member := absurd member List.not_mem_nil
  waiting _ _ member := absurd member List.not_mem_nil
  waiter _ _ _ member := absurd member List.not_mem_nil
  answered _ _ member := absurd member List.not_mem_nil
  linearizes := .nil

omit [DecidableEq Id] in
theorem Sound.invoked_of_mem (sound : Sound deps started traced) {op : Nat}
    (member : op ∈ traced.callers ++ traced.order.map Prod.fst) :
    ∃ command, .invoked op command ∈ traced.events := by
  rcases List.mem_append.mp member with isCaller | isStep
  · obtain ⟨position, bound, rfl⟩ := List.getElem_of_mem isCaller
    obtain ⟨command, invoked, _⟩ := sound.behind.get bound (sound.behind.length_eq ▸ bound)
    exact ⟨command, invoked⟩
  · exact sound.linearizes.mem_of_step isStep

omit [DecidableEq Id] in
/-- The cluster takes a step that no client sees. For an entry for which a client still waits one
has waited before, and it still lies beyond what is in the store. -/
theorem Sound.quiet (sound : Sound deps started traced) {next : Cluster Id}
    (tracks : next.Tracks deps started) (recovers : next.Recovers deps)
    (log : next.log = traced.cluster.log) (proposals : next.proposals = traced.cluster.proposals)
    (waiting : ∀ id, ∀ entry ∈ (next.members id).awaited,
      entry ∈ (traced.cluster.members id).awaited ∧ ∃ position,
        traced.cluster.log[position]? = some entry ∧ (next.members id).reach ≤ position) :
    Sound deps started { traced with cluster := next } where
  tracks := tracks
  recovers := recovers
  log := sound.log.trans log.symm
  behind := proposals ▸ sound.behind
  fresh := sound.fresh
  counted := sound.counted
  waiting id entry member := log ▸ (waiting id entry member).2
  waiter first second entry isFirst isSecond := sound.waiter first second entry
    (waiting first entry isFirst).1 (waiting second entry isSecond).1
  answered op result member := by
    obtain ⟨entry, placed, unawaited⟩ := sound.answered op result member
    exact ⟨entry, placed, fun id awaited => unawaited id (waiting id entry awaited).1⟩
  linearizes := sound.linearizes

/-- One node changes. -/
theorem Sound.set (sound : Sound deps started traced) {id : Id} {member : Member}
    (tracks : (traced.cluster.set id member).Tracks deps started)
    (recovers : (traced.cluster.set id member).Recovers deps)
    (waiting : ∀ entry ∈ member.awaited, entry ∈ (traced.cluster.members id).awaited ∧
      ∃ position, traced.cluster.log[position]? = some entry ∧ member.reach ≤ position) :
    Sound deps started { traced with cluster := traced.cluster.set id member } :=
  sound.quiet tracks recovers rfl rfl <| Cluster.forall_set
    (fun id member => ∀ entry ∈ member.awaited, entry ∈ (traced.cluster.members id).awaited ∧
      ∃ position, traced.cluster.log[position]? = some entry ∧ member.reach ≤ position)
    (fun id entry awaited => ⟨awaited, sound.waiting id entry awaited⟩) waiting

/-- A node hands a command to raft, or refuses it; the node stays as it is. -/
theorem sound_propose (sound : Sound deps started traced) (id : Id) (command : Command)
    (outcome : Outcome × Node) (kept : outcome.2 = (traced.cluster.members id).node)
    (tracks : (traced.cluster.propose id outcome).Tracks deps started)
    (recovers : (traced.cluster.propose id outcome).Recovers deps)
    (encodes : ∀ data, outcome.1 = .proposed data → encodeCommand deps command = .ok data) :
    Sound deps started
      { traced.invoke command outcome.1 with cluster := traced.cluster.propose id outcome } := by
  obtain ⟨result, node⟩ := outcome
  have same : (traced.cluster.propose id (result, node)).members = traced.cluster.members := by
    rw [Cluster.propose, Cluster.set, kept]
    exact Function.update_eq_self id _
  have waiting := sound.waiting
  have waiter := sound.waiter
  have answered := sound.answered
  rw [← same] at waiting waiter answered
  cases result with
  | stored result =>
    exact { sound with tracks, recovers, waiting, waiter, answered }
  | refused err =>
    exact { sound with tracks, recovers, waiting, waiter, answered }
  | proposed data =>
    have unused (other : Command) : .invoked traced.count other ∉ traced.events :=
      fun invoked => absurd (sound.counted _ other invoked) (Nat.lt_irrefl _)
    refine ⟨tracks, recovers, sound.log, ?_, ?_, fun op other member => ?_, waiting, waiter,
      fun op result member => ?_, sound.linearizes.invoke traced.count command unused⟩
    · refine List.rel_append (sound.behind.imp fun op proposal behind => behind.append deps _) ?_
      exact .cons ⟨command, List.mem_append_right _ List.mem_cons_self, encodes data rfl⟩ .nil
    · refine (List.perm_append_right_iff _ |>.mpr List.perm_append_comm).nodup_iff.mpr ?_
      refine List.nodup_cons.mpr ⟨fun member => ?_, sound.fresh⟩
      obtain ⟨other, invoked⟩ := sound.invoked_of_mem member
      exact unused other invoked
    · rcases List.mem_append.mp member with earlier | isLast
      · exact Nat.lt_succ_of_lt (sound.counted op other earlier)
      · cases List.mem_singleton.mp isLast
        exact Nat.lt_succ_self _
    · rcases List.mem_append.mp member with earlier | impossible
      · exact answered op result earlier
      · cases List.mem_singleton.mp impossible

/-- The clients that wait after a command was committed, and how far the nodes reach. -/
theorem awaited_append (cluster : Cluster Id) (id : Id) (entry : Entry) (waits : Bool) :
    ∀ other, ((cluster.append id entry waits).members other).reach = (cluster.members other).reach ∧
      ∀ waited ∈ ((cluster.append id entry waits).members other).awaited,
        waited ∈ (cluster.members other).awaited ∨ (other = id ∧ waited = entry) := by
  refine Cluster.forall_set (fun other member => member.reach = (cluster.members other).reach ∧
    ∀ waited ∈ member.awaited,
      waited ∈ (cluster.members other).awaited ∨ (other = id ∧ waited = entry))
    (fun _ => ⟨rfl, fun _ => Or.inl⟩) ⟨rfl, fun waited member => ?_⟩
  rcases List.mem_append.mp member with earlier | isLast
  · exact Or.inl earlier
  · split at isLast
    · exact Or.inr ⟨rfl, List.mem_singleton.mp isLast⟩
    · cases isLast

/-- Raft commits a proposal at an index above the log's. -/
theorem sound_commit (sound : Sound deps started traced) (position op : Nat) (entry : Entry)
    (waits : Bool) (id : Id) (caller : traced.callers[position]? = some op)
    (proposed : traced.cluster.proposals[position]? = some (id, entry.data))
    (above : ∀ earlier ∈ traced.cluster.log, earlier.index < entry.index) {next : Cluster Id}
    (isNext : next = { traced.cluster.append id entry waits with
      proposals := traced.cluster.proposals.eraseIdx position })
    (tracks : next.Tracks deps started) (recovers : next.Recovers deps) :
    Sound deps started { traced with
      cluster := next
      callers := traced.callers.eraseIdx position
      order := traced.order ++ [(op, entry)] } := by
  subst isNext
  obtain ⟨bound, isCaller⟩ := List.getElem?_eq_some_iff.mp caller
  obtain ⟨bound', isProposal⟩ := List.getElem?_eq_some_iff.mp proposed
  obtain ⟨command, invoked, encoded⟩ := sound.behind.get bound bound'
  rw [List.get_eq_getElem, isCaller] at invoked
  rw [List.get_eq_getElem, isProposal] at encoded
  have taken : (op :: traced.callers.eraseIdx position).Perm traced.callers :=
    isCaller ▸ List.getElem_cons_eraseIdx_perm bound
  have unplaced : op ∉ traced.order.map Prod.fst := fun placed =>
    (List.disjoint_of_nodup_append sound.fresh) (isCaller ▸ List.getElem_mem bound) placed
  -- The new entry is above all that are in the log, so nobody waits for it yet.
  have isNew : entry ∉ traced.cluster.log := fun earlier =>
    absurd (above entry earlier) (UInt64.lt_irrefl entry.index)
  have unawaited (other : Id) : entry ∉ (traced.cluster.members other).awaited := fun awaited => by
    obtain ⟨place, found, _⟩ := sound.waiting other entry awaited
    exact isNew (List.mem_of_getElem? found)
  have newlyAwaited (other : Id) := (awaited_append traced.cluster id entry waits other).2
  refine ⟨tracks, recovers, ?_, ?_, ?_, sound.counted, fun other waited member => ?_,
    fun first second waited isFirst isSecond => ?_, fun other result member => ?_,
    sound.linearizes.commit invoked encoded unplaced⟩
  · rw [List.map_append, sound.log]
    rfl
  · rw [List.eraseIdx_eq_take_drop_succ, List.eraseIdx_eq_take_drop_succ]
    exact List.rel_append (List.forall₂_take _ sound.behind) (List.forall₂_drop _ sound.behind)
  · rw [List.map_append, ← List.append_assoc]
    refine List.perm_append_comm.nodup_iff.mpr ?_
    exact (taken.append_right _).nodup_iff.mpr sound.fresh
  · rw [(awaited_append traced.cluster id entry waits other).1]
    rcases newlyAwaited other waited member with earlier | ⟨rfl, rfl⟩
    · obtain ⟨place, found, beyond⟩ := sound.waiting other waited earlier
      refine ⟨place, ?_, beyond⟩
      exact (List.getElem?_append_left (List.getElem?_eq_some_iff.mp found).1).trans found
    · exact ⟨_, List.getElem?_concat_length, (sound.recovers.members other).repairable.known⟩
  · rcases newlyAwaited first waited isFirst with earlier | ⟨rfl, rfl⟩
    · rcases newlyAwaited second waited isSecond with alsoEarlier | ⟨_, rfl⟩
      · exact sound.waiter first second waited earlier alsoEarlier
      · exact absurd earlier (unawaited first)
    · rcases newlyAwaited second waited isSecond with earlier | ⟨rfl, _⟩
      · exact absurd earlier (unawaited second)
      · rfl
  · obtain ⟨answered, placed, unwaited⟩ := sound.answered other result member
    refine ⟨answered, List.mem_append_left _ placed, fun waiter awaited => ?_⟩
    rcases newlyAwaited waiter answered awaited with earlier | ⟨_, rfl⟩
    · exact unwaited waiter earlier
    · exact isNew (sound.log ▸ List.mem_map_of_mem (f := Prod.snd) placed)

theorem run_seeded (deliveries : List (Int64 × Entry)) :
    (Replica.fresh.run deps deliveries).chain.isSome := by
  rw [run_chain deps deliveries Replica.fresh .genesis rfl]
  rfl

omit [DecidableEq Id] in
/-- A position of the log is found by its entry. -/
theorem Sound.position_unique (sound : Sound deps started traced) {first second : Nat}
    {entry : Entry} (isFirst : traced.cluster.log[first]? = some entry)
    (isSecond : traced.cluster.log[second]? = some entry) : first = second := by
  have once : traced.cluster.log.Nodup := sound.tracks.log.increasing.imp fun below same =>
    absurd (same ▸ below) (UInt64.lt_irrefl _)
  exact (List.getElem?_inj (List.getElem?_eq_some_iff.mp isFirst).1 once).mp
    (isFirst.trans isSecond.symm)

omit [DecidableEq Id] in
/-- A node that applies an entry for which a client waits answers as the log does by itself. -/
theorem apply_eq_alone (lawful : deps.Lawful) (sound : Sound deps started traced) (id : Id)
    (now : Int64) (entry : Entry)
    (found : traced.cluster.log[(traced.cluster.members id).applied.length]? = some entry)
    (awaited : entry ∈ (traced.cluster.members id).awaited)
    (harmless : traced.cluster.Harmless deps (.apply id now)) :
    ((traced.cluster.members id).node.fsm.apply deps (Env.healthy now) entry).1 =
      (applyAlone deps (after (applyAlone deps) Replica.fresh
        (traced.cluster.log.take (traced.cluster.members id).applied.length)) entry).1 := by
  generalize isMember : traced.cluster.members id = member at found awaited ⊢
  have tracks := isMember ▸ sound.tracks.members id
  have repairable := (isMember ▸ sound.recovers.members id).repairable
  have routed := sound.tracks.log.routed entry (List.mem_of_getElem? found)
  rw [after_applyAlone, apply_result deps lawful]
  have isFront : traced.cluster.log.take member.applied.length = member.applied.map Prod.snd := by
    have front := List.prefix_iff_eq_take.mp tracks.front
    rw [List.length_map] at front
    exact front.symm
  have delivered : ((traced.cluster.log.take member.applied.length).map fun entry =>
      ((0 : Int64), entry)).map Prod.snd = traced.cluster.log.take member.applied.length := by
    rw [List.map_map]
    exact List.map_id _
  cases interrupted : member.interrupted with
  | false =>
    have eachRouted := fun delivery isApplied =>
      (sound.tracks.log.delivered rfl tracks.front.subset delivery isApplied).routed
    rw [tracks.fsm interrupted, fresh_run_replica deps lawful,
      apply_routed deps lawful now 0 _ entry routed (run_seeded _),
      (run_routed deps lawful _ _ (isFront.symm.trans delivered.symm) eachRouted Replica.fresh
        rfl).2]
    rfl
  | true =>
    -- The client waits for an entry beyond the store, so all that is in the store is applied.
    obtain ⟨position, isPlace, beyond⟩ := isMember ▸ sound.waiting id entry (isMember ▸ awaited)
    have applied : member.reach = member.applied.length := by
      have same := sound.position_unique isPlace found
      exact Nat.le_antisymm (same ▸ beyond) repairable.within
    rw [applied] at repairable
    refine apply_result_avoids deps lawful now 0 _ _ entry routed ?_ fun key other =>
      repairable.in_line lawful sound.tracks.log _ delivered key other
    exact harmless (isMember ▸ interrupted) entry (isMember ▸ found)

omit [DecidableEq Id] in
/-- An operation for whose entry a client still waits has not been answered. -/
theorem Sound.unanswered (sound : Sound deps started traced) {op : Nat} {entry : Entry} {id : Id}
    (placed : (op, entry) ∈ traced.order) (awaited : entry ∈ (traced.cluster.members id).awaited)
    (result : FsmResult) : .answered op result ∉ traced.events := by
  intro member
  obtain ⟨other, otherPlaced, unawaited⟩ := sound.answered op result member
  cases List.inj_on_of_nodup_map sound.linearizes.stepsOnce otherPlaced placed rfl
  exact unawaited id awaited

/-- A node applies the next entry of the log and answers the client that waits for it there. -/
theorem sound_apply (lawful : deps.Lawful) (sound : Sound deps started traced) (id : Id)
    (now : Int64) (entry : Entry)
    (found : traced.cluster.log[(traced.cluster.members id).applied.length]? = some entry)
    (harmless : traced.cluster.Harmless deps (.apply id now)) {next : Cluster Id}
    (isNext : next = traced.cluster.set id ((traced.cluster.members id).deliver deps now entry))
    (tracks : next.Tracks deps started) (recovers : next.Recovers deps) :
    Sound deps started { traced.note deps (.apply id now) with cluster := next } := by
  subst isNext
  have stillWaits (waited : Entry)
      (member : waited ∈ ((traced.cluster.members id).deliver deps now entry).awaited) :
      waited ∈ (traced.cluster.members id).awaited ∧ waited ≠ entry := by
    obtain ⟨awaited, different⟩ := List.mem_filter.mp member
    exact ⟨awaited, of_decide_eq_true different⟩
  have quiet := sound.set tracks recovers fun waited member => by
    obtain ⟨awaited, different⟩ := stillWaits waited member
    obtain ⟨place, isPlace, beyond⟩ := sound.waiting id waited awaited
    refine ⟨awaited, place, isPlace, Nat.max_le.mpr ⟨beyond, ?_⟩⟩
    refine Nat.lt_of_le_of_ne ((sound.recovers.members id).repairable.within.trans beyond) ?_
    rintro rfl
    exact different (Option.some.inj (isPlace.symm.trans found))
  obtain ⟨op, placed⟩ : ∃ op,
      traced.order[(traced.cluster.members id).applied.length]? = some (op, entry) := by
    have isPlace := found
    rw [← sound.log, List.getElem?_map, Option.map_eq_some_iff] at isPlace
    obtain ⟨⟨op, _⟩, placed, rfl⟩ := isPlace
    exact ⟨op, placed⟩
  simp only [note, placed]
  by_cases awaited : entry ∈ (traced.cluster.members id).awaited
  · rw [if_pos (List.contains_iff_mem.mpr awaited)]
    obtain ⟨bound, isPlaced⟩ := List.getElem?_eq_some_iff.mp placed
    have split : traced.order =
        traced.order.take (traced.cluster.members id).applied.length ++
          (op, entry) :: traced.order.drop ((traced.cluster.members id).applied.length + 1) := by
      rw [← isPlaced, List.getElem_cons_drop, List.take_append_drop]
    have unanswered := sound.unanswered (List.mem_of_getElem? placed) awaited
    have alone := apply_eq_alone lawful sound id now entry found awaited harmless
    rw [← sound.log, ← List.map_take] at alone
    refine { quiet with
      behind := quiet.behind.imp fun _ _ behind => behind.append deps _
      counted := fun other command member => ?_
      answered := fun other result member => ?_
      linearizes := alone ▸ sound.linearizes.answer split unanswered }
    · rcases List.mem_append.mp member with earlier | impossible
      · exact sound.counted other command earlier
      · cases List.mem_singleton.mp impossible
    · rcases List.mem_append.mp member with earlier | isLast
      · exact quiet.answered other result earlier
      · cases List.mem_singleton.mp isLast
        refine ⟨entry, List.mem_of_getElem? placed, fun waiter waits => ?_⟩
        by_cases isId : waiter = id
        · subst isId
          simp only [Cluster.set, Function.update_self] at waits
          exact (stillWaits entry waits).2 rfl
        · simp only [Cluster.set, Function.update_of_ne isId] at waits
          exact isId (sound.waiter waiter id entry waits awaited)
  · rw [if_neg (mt List.contains_iff_mem.mp awaited)]
    exact quiet

theorem sound_step (lawful : deps.Lawful) (sound : Sound deps started traced) {next : Traced Id}
    (taken : ClusterStep Id) (harmless : traced.cluster.Harmless deps taken)
    (stepped : traced.step deps taken = some next) : Sound deps started next := by
  obtain ⟨cluster, moved, rfl⟩ := Option.map_eq_some_iff.mp stepped
  have tracks := sound.tracks.step taken moved
  have recovers := sound.recovers.step lawful taken sound.tracks harmless moved
  cases taken with
  | raftChanges id raft =>
    cases moved
    exact sound.set tracks recovers fun entry awaited =>
      ⟨awaited, sound.waiting id entry awaited⟩
  | write id now request =>
    cases moved
    refine sound_propose sound id _ _
      (handle_replicated deps _ _ request (sound.tracks.members id).raft) tracks recovers
      fun data proposed => ?_
    rw [handle_eq_submit] at proposed
    exact submit_proposed deps _ _ _ data proposed
  | sweep id now cancelled limit =>
    cases moved
    exact sound_propose sound id _ _
      (reclaimExpired_replicated deps _ _ cancelled limit (sound.tracks.members id).raft) tracks
      recovers (reclaimExpired_proposed deps _ _ cancelled limit)
  | commit position index term waits =>
    rw [Cluster.step] at moved
    split at moved
    · cases moved
    · rename_i id data proposed
      split at moved
      · rename_i legal
        obtain ⟨bound, _⟩ := List.getElem?_eq_some_iff.mp proposed
        have caller := List.getElem?_eq_getElem (sound.behind.length_eq.symm ▸ bound)
        simp only [note, caller, proposed]
        exact sound_commit sound position _ ⟨index, term, data⟩ waits id caller proposed legal.2
          (Option.some.inj moved).symm tracks recovers
      · cases moved
  | apply id now =>
    rw [Cluster.step] at moved
    split at moved
    · cases moved
    · rename_i entry found
      cases moved
      exact sound_apply lawful sound id now entry found harmless rfl tracks recovers
  | snapshot id position =>
    cases moved
    exact sound.quiet tracks recovers rfl rfl fun id entry awaited =>
      ⟨awaited, sound.waiting id entry awaited⟩
  | restart id now position =>
    cases moved
    exact sound.set tracks recovers fun _ awaited => absurd awaited List.not_mem_nil
  | install id position =>
    rw [Cluster.step] at moved
    split at moved
    · cases moved
    · cases moved
      exact sound.set tracks recovers fun _ awaited => absurd awaited List.not_mem_nil

theorem sound_of_reached (lawful : deps.Lawful) {roles : Id → Raft}
    (reached : Reached deps started roles traced) : Sound deps started traced := by
  induction reached with
  | start => exact start_sound roles
  | step taken _ harmless stepped inductionHypothesis =>
    exact sound_step lawful inductionHypothesis taken harmless stepped

/-- A run whose steps pass a check that makes them harmless. -/
theorem reached_run (check : Traced Id → ClusterStep Id → Bool)
    (harmless : ∀ traced taken, check traced taken = true → traced.cluster.Harmless deps taken)
    {roles : Id → Raft} (reached : Reached deps started roles traced)
    (steps : List (ClusterStep Id)) {next : Traced Id}
    (ran : steps.foldlM (fun traced taken => if check traced taken then traced.step deps taken
      else none) traced = some next) : Reached deps started roles next := by
  induction steps generalizing traced with
  | nil =>
    cases ran
    exact reached
  | cons taken rest inductionHypothesis =>
    obtain ⟨after, stepped, later⟩ := Option.bind_eq_some_iff.mp ran
    obtain ⟨passed, stepped⟩ := Option.ite_none_right_eq_some.mp stepped
    exact inductionHypothesis (.step taken reached (harmless traced taken passed) stepped) later

end Traced

/-! ### A leader that crashes -/

end ConsensusDB
