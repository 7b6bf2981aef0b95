/-
This file is about the chain head of a node that crashes. A crash may come at any
point of `FSM.Apply`: before the head is persisted, between that and the operation of
the entry, or after it. The restart seeds the chain from the persisted head, and raft
delivers the log again from a position that is not past the last completed entry.

At each moment some front part of the log is folded into the chain, in memory and in
the store alike. It covers every completed entry and no entry that was never
delivered. A replayed entry lies within it, so its fold does nothing and the head is
written once more as it was; an entry is new exactly when it is the next one.
-/

import ConsensusDB.Counters
import ConsensusDB.Sweep

namespace ConsensusDB

open Wire

/-! ### Commands and tenants -/

/-- The command addresses a record of the tenant. A sweep names records by their entry keys. -/
def Command.Addresses (deps : Deps) (tenant : Bytes) (command : Command) : Prop :=
  (∃ key ∈ command.keys, key.majorKey = tenant) ∨
    ∃ request, command = .reclaim request ∧ ∃ entry ∈ request.entries,
      ∃ key, (encodeKey deps key).1 = entry.entryKey ∧ key.majorKey = tenant

/-- The entry holds no command of the tenant. What it holds need not be a command at all. -/
def Entry.Spares (deps : Deps) (tenant : Bytes) (entry : Entry) : Prop :=
  ∀ command, decodeCommand deps entry.data = .ok command → ¬ command.Addresses deps tenant

theorem runEntry_head (deps : Deps) (lawful : deps.Lawful) (env : Env) (store : Store)
    (entry : Entry) (spares : entry.Spares deps headTenant) :
    (runEntry deps env store entry).2.records deps (headEntryKey deps) =
      store.records deps (headEntryKey deps) := by
  unfold runEntry
  split
  · rfl
  · rename_i command decoded
    refine records_of_untouched deps env store lawful entry.index command headKey fun touches =>
      spares command decoded ?_
    rcases touches with named | ⟨request, isReclaim, listed, member, same⟩
    · exact Or.inl ⟨headKey, named, rfl⟩
    · exact Or.inr ⟨request, isReclaim, listed, member, headKey, same.symm, rfl⟩

/-! ### The head of a log -/

/-- The index of the last entry and the digest that the entries are hashed to. -/
def logHead (entries : List Entry) : HashChain :=
  ⟨(entries.getLast?.map Entry.index).getD 0,
    entries.foldl (fun digest entry => nextDigest digest entry.index entry.term entry.data)
      HashChain.genesis.digest⟩

theorem headOf_eq_logHead (entries : List Entry) (log : IsLog entries) :
    headOf entries = logHead entries := by
  induction entries using List.reverseRecOn with
  | nil => rfl
  | append_singleton front last inductionHypothesis =>
    have below := headOf_index_lt log (List.mem_singleton_self last)
    rw [headOf_append, foldAll_cons, foldAll_nil, fold_of_lt below,
      inductionHypothesis log.append_left, logHead, logHead, List.getLast?_concat,
      List.foldl_append]
    rfl

/-! ### Runs with crashes -/

/-- How far the entry that is being applied has come. -/
inductive Stage where
  | waiting
  | delivered
  | persisted
  deriving DecidableEq

/-- A node to which a log is delivered: how many entries lie before the next one, or before the one
that is being applied, how many have been delivered so far, and how many were applied to the end. -/
structure Delivery where
  fsm : Fsm
  stage : Stage := .waiting
  next : Nat := 0
  delivered : Nat := 0
  finished : Nat := 0

/-- What can happen to it. A head is persisted at a clock reading, and the operation that follows
may meet failing engine calls. After a crash the node is started and delivery goes on at a
position. -/
inductive Move where
  | deliver
  | persist (now : Int64)
  | operate (env : Env)
  | crash (now : Int64) (position : Nat)

namespace Delivery

def start (deps : Deps) (now : Int64) (store : Store) : Delivery :=
  { fsm := (⟨store, none⟩ : Fsm).postConstruct deps (.healthy now) }

/-- One move; `none` when it is not one that can happen. -/
def step (deps : Deps) (log : List Entry) (node : Delivery) : Move → Option Delivery
  | .deliver =>
    match node.stage, log[node.next]? with
    | .waiting, some _ =>
      some { node with stage := .delivered, delivered := max node.delivered (node.next + 1) }
    | _, _ => none
  | .persist now =>
    match node.stage, log[node.next]? with
    | .delivered, some entry =>
      some { node with stage := .persisted, fsm := node.fsm.advanceChain deps (.healthy now) entry }
    | _, _ => none
  | .operate env =>
    match node.stage, log[node.next]? with
    | .persisted, some entry =>
      some { node with
        stage := .waiting
        fsm := { node.fsm with store := (runEntry deps env node.fsm.store entry).2 }
        next := node.next + 1
        finished := max node.finished (node.next + 1) }
    | _, _ => none
  | .crash now position =>
    if position ≤ node.finished then
      some { node with
        stage := .waiting, fsm := node.fsm.restart deps (.healthy now), next := position }
    else none

def run (deps : Deps) (log : List Entry) : Delivery → List Move → Option Delivery
  | node, [] => some node
  | node, move :: rest => (node.step deps log move).bind fun next => run deps log next rest

end Delivery

section

variable (deps : Deps) (log : List Entry)

/-- An entry that is delivered and not interrupted is applied. -/
theorem run_apply (node : Delivery) (entry : Entry) (now : Int64)
    (waiting : node.stage = .waiting) (isNext : log[node.next]? = some entry) :
    node.run deps log [.deliver, .persist now, .operate (.healthy now)] =
      some { node with
        fsm := (node.fsm.apply deps (.healthy now) entry).2
        next := node.next + 1
        delivered := max node.delivered (node.next + 1)
        finished := max node.finished (node.next + 1) } := by
  obtain ⟨fsm, stage, next, delivered, finished⟩ := node
  obtain rfl : stage = .waiting := waiting
  have found : log[next]? = some entry := isNext
  simp only [Delivery.run, Delivery.step, found, Option.bind_some]
  rfl

/-- What holds between all moves, with the number of entries that are folded into the chain. -/
structure Delivery.Folded (node : Delivery) (folded : Nat) : Prop where
  chain : node.fsm.chain = some (headOf (log.take folded))
  stored : ∀ now, (node.fsm.store.records deps).loadHead deps now = headOf (log.take folded)
  completed : node.finished ≤ folded
  known : folded ≤ node.delivered
  position : node.next ≤ node.finished
  arrived : node.stage = .delivered → node.next + 1 ≤ node.delivered
  reached : node.stage = .persisted → node.next + 1 ≤ folded

/-- Folding an entry into the head of a front part that it belongs to, or that it continues. -/
theorem fold_take (isLog : IsLog log) (entry : Entry) (position folded : Nat)
    (isNext : log[position]? = some entry) (within : position ≤ folded) :
    (headOf (log.take folded)).fold entry = headOf (log.take (max folded (position + 1))) := by
  rcases Nat.lt_or_eq_of_le within with replayed | rfl
  · have front : IsLog (log.take folded) := by
      rw [← List.take_append_drop folded log] at isLog
      exact isLog.append_left
    have member : entry ∈ log.take folded := by
      refine List.mem_of_getElem? (i := position) ?_
      rw [List.getElem?_take_of_lt replayed, isNext]
    rw [fold_of_le (le_headOf_index front member), Nat.max_eq_left replayed]
  · rw [Nat.max_eq_right (Nat.le_succ position), List.take_add_one, isNext, headOf_append]
    rfl

variable {deps log} {node : Delivery} {folded : Nat}

theorem Delivery.Folded.deliver (state : node.Folded deps log folded) :
    Delivery.Folded deps log
      { node with stage := .delivered, delivered := max node.delivered (node.next + 1) }
      folded where
  chain := state.chain
  stored := state.stored
  completed := state.completed
  known := state.known.trans (Nat.le_max_left _ _)
  position := state.position
  arrived _ := Nat.le_max_right _ _
  reached impossible := nomatch impossible

theorem Delivery.Folded.persist (lawful : deps.Lawful) (isLog : IsLog log)
    (state : node.Folded deps log folded) (entry : Entry) (now : Int64)
    (stage : node.stage = .delivered) (isNext : log[node.next]? = some entry) :
    Delivery.Folded deps log
      { node with stage := .persisted, fsm := node.fsm.advanceChain deps (.healthy now) entry }
      (max folded (node.next + 1)) where
  chain := by
    rw [Fsm.advanceChain, Fsm.ensureChain, state.chain, Option.getD_some,
      fold_take log isLog entry node.next folded isNext (state.position.trans state.completed)]
  stored later := by
    have indexed : entry.index ≠ 0 := by
      have positive := isLog.positive entry (List.mem_of_getElem? isNext)
      grind
    refine loadHead_of_headRecord deps lawful later _ _ entry.index ?_
    rw [Fsm.advanceChain, Fsm.ensureChain, state.chain, Option.getD_some,
      fold_take log isLog entry node.next folded isNext (state.position.trans state.completed),
      storeHead_records deps lawful, storeHead_eq deps lawful _ _ _ indexed, Function.update_self]
  completed := state.completed.trans (Nat.le_max_left _ _)
  known := Nat.max_le.mpr ⟨state.known, state.arrived stage⟩
  position := state.position
  arrived impossible := nomatch impossible
  reached _ := Nat.le_max_right _ _

theorem loadHead_congr {records others : Records}
    (same : records (headEntryKey deps) = others (headEntryKey deps)) (now : Int64) :
    records.loadHead deps now = others.loadHead deps now := by
  rw [Records.loadHead, Records.loadHead, same]

theorem Delivery.Folded.operate (lawful : deps.Lawful) (state : node.Folded deps log folded)
    (entry : Entry) (env : Env) (spares : entry.Spares deps headTenant)
    (stage : node.stage = .persisted) :
    Delivery.Folded deps log
      { node with
        stage := .waiting
        fsm := { node.fsm with store := (runEntry deps env node.fsm.store entry).2 }
        next := node.next + 1
        finished := max node.finished (node.next + 1) } folded where
  chain := state.chain
  stored now := by
    rw [loadHead_congr (runEntry_head deps lawful env node.fsm.store entry spares)]
    exact state.stored now
  completed := Nat.max_le.mpr ⟨state.completed, state.reached stage⟩
  known := state.known
  position := Nat.le_max_right _ _
  arrived impossible := nomatch impossible
  reached impossible := nomatch impossible

theorem Delivery.Folded.crash (state : node.Folded deps log folded) (now : Int64) (position : Nat)
    (earlier : position ≤ node.finished) :
    Delivery.Folded deps log
      { node with
        stage := .waiting, fsm := node.fsm.restart deps (.healthy now), next := position }
      folded where
  chain := by
    rw [Fsm.restart, Fsm.postConstruct, loadHead_records]
    exact congrArg some (state.stored now)
  stored := state.stored
  completed := state.completed
  known := state.known
  position := earlier
  arrived impossible := nomatch impossible
  reached impossible := nomatch impossible

/-- Every move keeps a front part of the log folded. -/
theorem Delivery.Folded.step (lawful : deps.Lawful) (isLog : IsLog log)
    (spared : ∀ entry ∈ log, entry.Spares deps headTenant) (state : node.Folded deps log folded)
    (move : Move) (after : Delivery) (moved : node.step deps log move = some after) :
    ∃ more, after.Folded deps log more := by
  cases move with
  | deliver =>
    rw [Delivery.step] at moved
    split at moved
    · obtain rfl := Option.some.inj moved
      exact ⟨folded, state.deliver⟩
    · cases moved
  | persist now =>
    rw [Delivery.step] at moved
    split at moved
    · rename_i entry stage isNext
      obtain rfl := Option.some.inj moved
      exact ⟨_, state.persist lawful isLog entry now stage isNext⟩
    · cases moved
  | operate env =>
    rw [Delivery.step] at moved
    split at moved
    · rename_i entry stage isNext
      obtain rfl := Option.some.inj moved
      exact ⟨folded, state.operate lawful entry env (spared entry (List.mem_of_getElem? isNext))
        stage⟩
    · cases moved
  | crash now position =>
    rw [Delivery.step] at moved
    split at moved
    · rename_i earlier
      obtain rfl := Option.some.inj moved
      exact ⟨folded, state.crash now position earlier⟩
    · cases moved

theorem Delivery.Folded.run (lawful : deps.Lawful) (isLog : IsLog log)
    (spared : ∀ entry ∈ log, entry.Spares deps headTenant) (moves : List Move)
    (state : node.Folded deps log folded) (after : Delivery)
    (ran : node.run deps log moves = some after) : ∃ more, after.Folded deps log more := by
  induction moves generalizing node folded with
  | nil =>
    obtain rfl := Option.some.inj ran
    exact ⟨folded, state⟩
  | cons move rest inductionHypothesis =>
    obtain ⟨next, moved, restRan⟩ := Option.bind_eq_some_iff.mp ran
    obtain ⟨more, nextState⟩ := state.step lawful isLog spared move next moved
    exact inductionHypothesis nextState restRan

theorem start_folded (now : Int64) (store : Store)
    (unset : store.records deps (headEntryKey deps) = none) :
    (Delivery.start deps now store).Folded deps log 0 := by
  have genesis : ∀ later, (store.records deps).loadHead deps later = headOf (log.take 0) := by
    intro later
    rw [Records.loadHead, unset]
    rfl
  refine ⟨?_, genesis, le_rfl, le_rfl, le_rfl, fun stage => ?_, fun stage => ?_⟩
  · rw [Delivery.start, Fsm.postConstruct, loadHead_records]
    exact congrArg some (genesis now)
  · cases stage
  · cases stage

end

/-- However often a node crashes, wherever in an entry, and from whichever earlier position the log
is delivered again: when the last entry that was delivered has been applied to the end, the chain in
memory and the persisted head are the head of the log up to this entry. -/
theorem replayed_entries_keep_chain (deps : Deps) (lawful : deps.Lawful) (log : List Entry)
    (isLog : IsLog log) (spared : ∀ entry ∈ log, entry.Spares deps headTenant) (started : Int64)
    (store : Store) (unset : store.records deps (headEntryKey deps) = none) (moves : List Move)
    (node : Delivery) (ran : (Delivery.start deps started store).run deps log moves = some node)
    (applied : node.finished = node.delivered) (now : Int64) :
    (node.fsm.chainHead deps (.healthy now)).1 = logHead (log.take node.delivered) ∧
      loadHead deps (.healthy now) node.fsm.store = logHead (log.take node.delivered) := by
  obtain ⟨folded, state⟩ :=
    (start_folded started store unset).run lawful isLog spared moves node ran
  obtain rfl : folded = node.delivered :=
    Nat.le_antisymm state.known (applied ▸ state.completed)
  have front : IsLog (log.take node.delivered) := by
    rw [← List.take_append_drop node.delivered log] at isLog
    exact isLog.append_left
  rw [← headOf_eq_logHead _ front]
  constructor
  · rw [Fsm.chainHead, Fsm.ensureChain, state.chain]
    rfl
  · rw [loadHead_records, state.stored now]

theorem sampleEntry_spares (index : UInt64) (now : Int64) :
    (Reference.entryOf index (Reference.samplePut.command Reference.deps now)).Spares Reference.deps
      headTenant := by
  intro command decoded addresses
  rw [Reference.decodeCommand_entryOf] at decoded
  obtain rfl := Except.ok.inj decoded
  rcases addresses with ⟨key, member, tenant⟩ | ⟨request, impossible, _⟩
  · rw [List.mem_singleton.mp member] at tenant
    exact absurd tenant (by decide)
  · cases impossible

/-- A crash before the second put runs, with its head persisted already, and the whole log again. -/
def sampleMoves : List Move :=
  [.deliver, .persist 110, .operate (.healthy 110), .deliver, .persist 210, .crash 300 0, .deliver,
    .persist 310, .operate (.healthy 310), .deliver, .persist 311, .operate (.healthy 311)]

theorem replayed_entries_keep_chain_crash :
    ∃ node, (Delivery.start Reference.deps 0 Store.empty).run Reference.deps
        (Reference.sampleLog ++ [refreshingPut]) sampleMoves = some node ∧ node.delivered = 2 ∧
      (node.fsm.chainHead Reference.deps (.healthy 400)).1 =
        logHead ((Reference.sampleLog ++ [refreshingPut]).take node.delivered) := by
  have counts : ((Delivery.start Reference.deps 0 Store.empty).run Reference.deps
      (Reference.sampleLog ++ [refreshingPut]) sampleMoves).map
        (fun node => (node.finished, node.delivered)) = some (2, 2) := by decide +kernel
  obtain ⟨node, ran, counted⟩ := Option.map_eq_some_iff.mp counts
  obtain ⟨finished, delivered⟩ := Prod.mk.inj counted
  refine ⟨node, ran, delivered, (replayed_entries_keep_chain Reference.deps Reference.lawful _
    sampleRemoval_committed.toIsLog.append_left (fun entry member => ?_) 0 Store.empty rfl
    sampleMoves node ran (finished.trans delivered.symm) 400).1⟩
  rcases List.mem_append.mp member with first | second
  · rw [List.mem_singleton.mp first]
    exact sampleEntry_spares 1 100
  · rw [List.mem_singleton.mp second]
    exact sampleEntry_spares 2 205

end ConsensusDB
