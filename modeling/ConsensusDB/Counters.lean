/-
This file is about counters over whole runs of the storage. As long as a key is
only incremented, the record under it is the counter that the last successful
increment left: its eight bytes, its version and its expiry. What happens to other
keys does not reach it, since two keys never share an entry. So the answers of the
increments form a chain, each starting from what the one before it left, and the
rest is arithmetic on that chain.

The versions of the chain grow with the log, where there is one. Without a log they
are one, two, three and so on, in sixty-four bits: after as many increments as there
are such numbers they start again from zero.
-/

import ConsensusDB.Lib.Replay
import ConsensusDB.Lookups

namespace ConsensusDB

open Wire

/-! ### Calls of the storage -/

/-- A call that writes: a command in its environment with the version it is given, or the load of a
dump. -/
inductive StorageCall where
  | issue (env : Env) (commitVersion : UInt64) (command : Command)
  | load (dump : Dump)

/-- A successful increment: its request, the clock and the commit version of the call, and the
answer. -/
structure Counted where
  request : IncrementRequest
  now : Int64
  commitVersion : UInt64
  response : IncrementResponse

/-- The expiry that the increment gives the counter. -/
def Counted.expiresAt (deps : Deps) (counted : Counted) : Int64 :=
  resolveExpiry deps counted.now counted.request.ttlSeconds counted.request.expiresAt

namespace StorageCall

def perform (deps : Deps) (call : StorageCall) (store : Store) : Store :=
  match call with
  | .issue env commitVersion command => (runCommand deps env store commitVersion command).2
  | .load dump => Storage.load store dump

/-- The versions that calls are given, one for each command. -/
def commitVersions (calls : List StorageCall) : List UInt64 :=
  calls.filterMap fun call =>
    match call with
    | .issue _ commitVersion _ => some commitVersion
    | .load _ => none

/-- The call is an increment, or it is about other keys than the given one: the keys it names are
not equal to it, and a sweep or a dump does not list its entry. -/
def OnlyIncrements (deps : Deps) (key : Key) : StorageCall → Prop
  | .issue _ _ (.increment _) => True
  | .issue _ _ (.reclaim request) =>
    ∀ entry ∈ request.entries, entry.entryKey ≠ (encodeKey deps key).1
  | .issue _ _ command => ∀ other ∈ command.keys, other.equal key = false
  | .load dump => ∀ version ∈ dump, version.key ≠ (encodeKey deps key).1

/-- What a call answers, when it is an increment of the key that succeeds. -/
def counts (deps : Deps) (key : Key) (store : Store) : StorageCall → Option Counted
  | .issue env commitVersion (.increment request) =>
    if request.key = some key then
      match (Storage.increment deps env store request commitVersion).1 with
      | .ok response => some ⟨request, env.now, commitVersion, response⟩
      | .error _ => none
    else none
  | _ => none

end StorageCall

/-- The successful increments of a key in a run, in order. -/
def Store.increments (deps : Deps) (key : Key) : Store → List StorageCall → List Counted
  | _, [] => []
  | store, call :: rest =>
    (call.counts deps key store).toList ++ Store.increments deps key (call.perform deps store) rest

def Store.runStorage (deps : Deps) (store : Store) (calls : List StorageCall) : Store :=
  Replay.run (StorageCall.perform deps) calls store

/-! ### One increment -/

section

variable (deps : Deps) (lawful : deps.Lawful) (env : Env) (store : Store) (commitVersion : UInt64)

/-- An increment fails and leaves the store, or does what it does when no engine call fails. -/
theorem increment_of_fault (request : IncrementRequest) :
    (Storage.increment deps env store request commitVersion).2 = store ∧
        (∃ err, (Storage.increment deps env store request commitVersion).1 = .error err) ∨
      Storage.increment deps env store request commitVersion =
        Storage.increment deps (.healthy env.now) store request commitVersion := by
  unfold Storage.increment
  cases request.key with
  | none => exact Or.inl ⟨rfl, _, rfl⟩
  | some key =>
    simp only [get_healthy _ _ _ _ (encodeKey_ne_nil deps key)]
    cases got : store.newTransaction.get env 0 (encodeKey deps key).1 with
    | error err => exact Or.inl ⟨rfl, _, rfl⟩
    | ok found =>
      rw [← read_of_get _ env 0 _ found got]
      cases found with
      | none => exact commit_set_of_fault env store _ _ _ _ _ _
      | some item =>
        cases copied : wrapError "read counter error" (item.valueCopy env 0) with
        | error err =>
          simp only [copied]
          exact Or.inl ⟨trivial, _, rfl⟩
        | ok data =>
          have stored := value_of_copy item env 0 _ data copied
          simp only [copied, valueCopy_healthy, wrapError_ok, ← stored]
          exact commit_set_of_fault env store _ _ _ _ _ _

include lawful in
/-- An increment fails and leaves the store, or it answers with the counter that the record holds
and leaves the next one. -/
theorem increment_updates (request : IncrementRequest) (key : Key)
    (named : request.key = some key) :
    (Storage.increment deps env store request commitVersion).2 = store ∧
        (∃ err, (Storage.increment deps env store request commitVersion).1 = .error err) ∨
      ∃ response, (Storage.increment deps env store request commitVersion).1 = .ok response ∧
        refuseKey (encodeKey deps key).1 = none ∧
        response.previous =
          Records.counter request.initial (store.records deps (encodeKey deps key).1) ∧
        response.current = response.previous + request.delta ∧
        response.version =
          nextVersion commitVersion (cellVersion (store.records deps (encodeKey deps key).1)) ∧
        (Storage.increment deps env store request commitVersion).2.records deps =
          Function.update (store.records deps) (encodeKey deps key).1
            (some ⟨putUint64 response.current.toUInt64, response.version,
              resolveExpiry deps env.now request.ttlSeconds request.expiresAt, 0⟩) := by
  rcases increment_of_fault deps env store commitVersion request with failed | healthy
  · exact Or.inl failed
  rw [healthy]
  have stored := view_increment deps lawful env.now store request commitVersion
  unfold Records.increment Records.write view at stored
  simp only [named] at stored
  cases accepted : refuseKey (encodeKey deps key).1 with
  | some err =>
    left
    unfold Storage.increment
    simp only [named, get_healthy _ _ _ _ (encodeKey_ne_nil deps key), valueCopy_healthy,
      wrapError_ok, setEntry_refused _ _ _ _ _ _ accepted]
    cases store.newTransaction.read (encodeKey deps key).1 <;> exact ⟨rfl, _, rfl⟩
  | none =>
    rw [accepted] at stored
    obtain ⟨answered, left⟩ := Prod.mk.inj stored
    exact Or.inr ⟨_, answered, rfl, rfl, rfl, rfl, left⟩

/-! ### Calls about other keys -/

/-- A reclaim deletes only what it lists. -/
theorem mem_of_reclaimEntries (entries : List ReclaimEntry) (round : Nat) (txn : Txn)
    (outcome : Txn × List Bytes)
    (staged : Storage.reclaimEntries deps env round txn entries = .ok outcome) (deleted : Bytes)
    (member : deleted ∈ outcome.2) : ∃ entry ∈ entries, entry.entryKey = deleted := by
  induction entries generalizing round txn outcome with
  | nil =>
    cases staged
    cases member
  | cons entry rest inductionHypothesis =>
    obtain ⟨_, ⟨_, skipped⟩ | ⟨item, restDeleted, _, _, _, isDeleted, restStaged⟩⟩ :=
      reclaimEntries_cons deps env staged
    · obtain ⟨other, found, same⟩ := inductionHypothesis _ _ _ skipped member
      exact ⟨other, List.mem_cons_of_mem _ found, same⟩
    · rw [isDeleted] at member
      rcases List.mem_cons.mp member with rfl | later
      · exact ⟨entry, List.mem_cons_self, rfl⟩
      · obtain ⟨other, found, same⟩ := inductionHypothesis _ _ _ restStaged later
        exact ⟨other, List.mem_cons_of_mem _ found, same⟩

theorem read_reclaim_other (request : ReclaimRequest) (entryKey : Bytes)
    (unlisted : ∀ entry ∈ request.entries, entry.entryKey ≠ entryKey) :
    (Storage.reclaim deps env store request).2.db.read entryKey = store.db.read entryKey := by
  unfold Storage.reclaim
  split
  · rfl
  · split
    · rfl
    · rename_i txn deleted staged
      split
      · rfl
      · by_contra changed
        have performed := performed_commit deps env store 0 (.ok txn)
          "commit reclaim error" (deleted.map fun key => ⟨key, [], .delete, 0⟩) deleted.length
          fun _ same => Except.ok.inj same ▸
            staged_of_reclaimEntries deps env 0 _ 0 _ _ staged
        obtain ⟨entry, member, same⟩ := mem_of_reclaimEntries deps env request.entries 0 _ _ staged
          entryKey (mem_of_performed performed entryKey changed).2
        exact unlisted entry member same

/-- The command names the key, or it is a sweep that lists its entry. -/
def Command.Touches (deps : Deps) (key : Key) (command : Command) : Prop :=
  key ∈ command.keys ∨ ∃ request, command = .reclaim request ∧
    ∃ entry ∈ request.entries, entry.entryKey = (encodeKey deps key).1

/-- What a command does not touch stays, whichever engine calls fail. -/
theorem records_of_untouched (lawful : deps.Lawful) (commitVersion : UInt64) (command : Command)
    (key : Key) (untouched : ¬ command.Touches deps key) :
    (runCommand deps env store commitVersion command).2.records deps (encodeKey deps key).1 =
      store.records deps (encodeKey deps key).1 := by
  obtain ⟨unnamed, unlisted⟩ := not_or.mp untouched
  by_cases sweep : command.IsSweep
  · cases command with
    | reclaim request =>
      exact congrArg (Option.map (storedRecord deps))
        (read_reclaim_other deps env store request _ fun entry member same =>
          unlisted ⟨request, rfl, entry, member, same⟩)
    | _ => exact absurd sweep id
  · exact records_of_unnamed deps lawful env store commitVersion command sweep key unnamed

/-- A load leaves what is stored under a key that the dump does not have. -/
theorem read_load_other (dump : Dump) (entryKey : Bytes)
    (unlisted : ∀ version ∈ dump, version.key ≠ entryKey) :
    (Storage.load store dump).db.read entryKey = store.db.read entryKey := by
  have nothing : Mvcc.newest dump entryKey = none := by
    cases found : Mvcc.newest dump entryKey with
    | none => rfl
    | some version =>
      obtain ⟨member, same⟩ := Mvcc.newest_mem dump entryKey version found
      exact absurd same (unlisted version member)
  show Mvcc.visible (dump ++ store.db.versions) entryKey = _
  rw [Mvcc.visible, Mvcc.newest_append, nothing]
  rfl

end

/-! ### The chain of increments -/

/-- The record that the increment leaves. -/
def Counted.left (deps : Deps) (counted : Counted) : StoredRecord :=
  ⟨putUint64 counted.response.current.toUInt64, counted.response.version, counted.expiresAt deps, 0⟩

/-- The increment starts from the given record. -/
structure Counted.StartsFrom (counted : Counted) (cell : Option StoredRecord) : Prop where
  previous : counted.response.previous = Records.counter counted.request.initial cell
  current : counted.response.current = counted.response.previous + counted.request.delta
  version : counted.response.version = nextVersion counted.commitVersion (cellVersion cell)

/-- Increments that start one after another from what the one before left. -/
inductive Chained (deps : Deps) :
    Option StoredRecord → List Counted → Option StoredRecord → Prop
  | nil (cell : Option StoredRecord) : Chained deps cell [] cell
  | cons {cell final : Option StoredRecord} {counted : Counted} {rest : List Counted}
      (starts : counted.StartsFrom cell)
      (chained : Chained deps (some (counted.left deps)) rest final) :
      Chained deps cell (counted :: rest) final

section

variable (deps : Deps) (lawful : deps.Lawful) (key : Key)

/-- A call that leaves the entry of the key is no link of the chain. -/
theorem chained_of_read {store after : Store}
    (same : after.db.read (encodeKey deps key).1 = store.db.read (encodeKey deps key).1) :
    Chained deps (store.records deps (encodeKey deps key).1) []
      (after.records deps (encodeKey deps key).1) := by
  rw [Store.records, Store.records, same]
  exact .nil _

include lawful in
/-- Neither is a command that names other keys. -/
theorem chained_of_unnamed (env : Env) (store : Store) (commitVersion : UInt64) (command : Command)
    (notSweep : ¬ command.IsSweep) (others : ∀ named ∈ command.keys, named.equal key = false) :
    Chained deps (store.records deps (encodeKey deps key).1) []
      ((runCommand deps env store commitVersion command).2.records deps
        (encodeKey deps key).1) := by
  rw [records_of_unnamed deps lawful env store commitVersion command notSweep key]
  · exact .nil _
  · intro member
    have different := others key member
    rw [(equal_iff key key).mpr rfl] at different
    cases different

include lawful in
/-- An increment of the key fails and leaves its record, or is a link of the chain. -/
theorem chained_increment (env : Env) (store : Store) (commitVersion : UInt64)
    (request : IncrementRequest) (named : request.key = some key) :
    Chained deps (store.records deps (encodeKey deps key).1)
      (StorageCall.counts deps key store (.issue env commitVersion (.increment request))).toList
      ((Storage.increment deps env store request commitVersion).2.records deps
        (encodeKey deps key).1) := by
  simp only [StorageCall.counts, if_pos named]
  rcases increment_updates deps lawful env store commitVersion request key named with
    ⟨same, err, failed⟩ | ⟨response, answered, _, previous, current, version, stored⟩
  · rw [failed]
    exact chained_of_read deps key (congrArg (fun after : Store => after.db.read _) same)
  · have isLeft : (Storage.increment deps env store request commitVersion).2.records deps
        (encodeKey deps key).1 =
          some (Counted.left deps ⟨request, env.now, commitVersion, response⟩) := by
      rw [stored, Function.update_self]
      rfl
    rw [answered, isLeft]
    exact .cons ⟨previous, current, version⟩ (.nil _)

include lawful in
/-- A call that only increments the key, if it does anything to it, leaves the record of the key or
is a link of the chain. -/
theorem chained_call (call : StorageCall) (only : call.OnlyIncrements deps key) (store : Store) :
    Chained deps (store.records deps (encodeKey deps key).1) (call.counts deps key store).toList
      ((call.perform deps store).records deps (encodeKey deps key).1) := by
  cases call with
  | load dump => exact chained_of_read deps key (read_load_other store dump _ only)
  | issue env commitVersion command =>
    have other := chained_of_unnamed deps lawful key env store commitVersion command
    cases command with
    | put request => exact other id only
    | touch request => exact other id only
    | remove request => exact other id only
    | batch request => exact other id only
    | reclaim request =>
      exact chained_of_read deps key (read_reclaim_other deps env store request _ only)
    | increment request =>
      by_cases named : request.key = some key
      · exact chained_increment deps lawful key env store commitVersion request named
      · simp only [StorageCall.counts, if_neg named]
        refine other id fun written member => ?_
        refine Bool.eq_false_iff.mpr fun same => named ?_
        rw [← (equal_iff written key).mp same]
        exact Option.mem_toList.mp member

variable {deps} in
theorem Chained.append {cell between final : Option StoredRecord} {first second : List Counted}
    (left : Chained deps cell first between) (right : Chained deps between second final) :
    Chained deps cell (first ++ second) final := by
  induction left with
  | nil cell => exact right
  | cons starts chained inductionHypothesis => exact .cons starts (inductionHypothesis right)

include lawful in
/-- The increments of a run form a chain from the record before it to the record after it. -/
theorem chained_run (calls : List StorageCall)
    (only : ∀ call ∈ calls, call.OnlyIncrements deps key) (store : Store) :
    Chained deps (store.records deps (encodeKey deps key).1) (store.increments deps key calls)
      ((store.runStorage deps calls).records deps (encodeKey deps key).1) := by
  induction calls generalizing store with
  | nil => exact .nil _
  | cons call rest inductionHypothesis =>
    have first := chained_call deps lawful key call (only call List.mem_cons_self) store
    exact first.append (inductionHypothesis
      (fun other member => only other (List.mem_cons_of_mem _ member)) _)

end

/-! ### Arithmetic on a chain -/

/-- The counter that a link leaves is the one that the next link starts from. -/
theorem counter_left (deps : Deps) (counted : Counted) (initial : Int64) :
    Records.counter initial (some (counted.left deps)) = counted.response.current := by
  have wide : (putUint64 counted.response.current.toUInt64).length ≥ 8 := by
    rw [putUint64_length]
  simp only [Records.counter, Counted.left, if_pos wide, uint64_putUint64]
  rfl

section

variable {deps : Deps} {cell final : Option StoredRecord} {counted : List Counted}

/-- Each link starts from the first counter and the sum of the increments before it. -/
theorem Chained.previous (chained : Chained deps cell counted final) (start : Int64)
    (starts : ∀ first, counted.head? = some first →
      Records.counter first.request.initial cell = start)
    (place : Nat) (link : Counted) (found : counted[place]? = some link) :
    link.response.previous =
      (counted.take place).foldl (fun total earlier => total + earlier.request.delta) start := by
  induction chained generalizing start place with
  | nil cell => cases found
  | @cons cell final first rest startsFrom chained inductionHypothesis =>
    have isStart := starts first rfl
    cases place with
    | zero =>
      obtain rfl := Option.some.inj found
      rw [startsFrom.previous, isStart]
      rfl
    | succ place =>
      rw [List.take_succ_cons, List.foldl_cons]
      refine inductionHypothesis (start + first.request.delta) (fun next _ => ?_) place found
      rw [counter_left, startsFrom.current, startsFrom.previous, isStart]

theorem Chained.current (chained : Chained deps cell counted final) (link : Counted)
    (member : link ∈ counted) :
    link.response.current = link.response.previous + link.request.delta := by
  induction chained with
  | nil cell => cases member
  | cons starts chained inductionHypothesis =>
    rcases List.mem_cons.mp member with rfl | later
    · exact starts.current
    · exact inductionHypothesis later

/-- A chain ends with what its last link leaves. -/
theorem Chained.ends (chained : Chained deps cell counted final) (last : Counted)
    (isLast : counted.getLast? = some last) : final = some (last.left deps) := by
  induction chained with
  | nil cell => cases isLast
  | @cons cell final first rest starts chained inductionHypothesis =>
    cases chained with
    | nil cell =>
      obtain rfl := Option.some.inj isLast
      rfl
    | cons starts chained =>
      rw [List.getLast?_cons_cons] at isLast
      exact inductionHypothesis isLast

/-- Without a log the versions of a chain count up from the one before it. -/
theorem Chained.version_local (chained : Chained deps cell counted final)
    (locally : ∀ link ∈ counted, link.commitVersion = 0) (place : Nat) (link : Counted)
    (found : counted[place]? = some link) :
    link.response.version = cellVersion cell + UInt64.ofNat (place + 1) := by
  induction chained generalizing place with
  | nil cell => cases found
  | @cons cell final first rest starts chained inductionHypothesis =>
    have version : first.response.version = cellVersion cell + 1 := by
      rw [starts.version, nextVersion, if_pos (locally first List.mem_cons_self)]
    cases place with
    | zero =>
      obtain rfl := Option.some.inj found
      exact version
    | succ place =>
      rw [inductionHypothesis (fun other member => locally other (List.mem_cons_of_mem _ member))
        place found]
      show first.response.version + _ = _
      rw [version, UInt64.add_assoc, Nat.add_comm (place + 1) 1, UInt64.ofNat_add 1 (place + 1)]
      rfl

/-- With a log the versions of a chain are the indices of its entries. -/
theorem Chained.version_logged (chained : Chained deps cell counted final) (link : Counted)
    (member : link ∈ counted) (logged : link.commitVersion ≠ 0) :
    link.response.version = link.commitVersion := by
  induction chained with
  | nil cell => cases member
  | cons starts chained inductionHypothesis =>
    rcases List.mem_cons.mp member with rfl | later
    · rw [starts.version, nextVersion, if_neg logged]
    · exact inductionHypothesis later

end

/-! ### Counters over runs -/

namespace StorageCall

/-- No call is given a version of a log. -/
def LocallyNumbered (calls : List StorageCall) : Prop :=
  ∀ version ∈ commitVersions calls, version = 0

/-- The calls are given growing indices of a log. -/
def LogNumbered (calls : List StorageCall) : Prop :=
  (commitVersions calls).Pairwise (· < ·) ∧ ∀ version ∈ commitVersions calls, version ≠ 0

end StorageCall

/-- The increments add up: each answers with the initial value of the first and the sum of the
increments before it, and with its own added to that; and a read returns what the last one left, as
long as that has not expired. -/
structure AddsUp (deps : Deps) (key : Key) (counted : List Counted) (after : Store) : Prop where
  previous : ∀ first, counted.head? = some first → ∀ place link, counted[place]? = some link →
    link.response.previous = (counted.take place).foldl
      (fun total earlier => total + earlier.request.delta) first.request.initial
  current : ∀ link ∈ counted,
    link.response.current = link.response.previous + link.request.delta
  read : ∀ last, counted.getLast? = some last → ∀ now,
    deps.isExpired now (last.expiresAt deps) = false →
    ∃ record head, Storage.get deps (.healthy now) after { key := some key } = .ok record ∧
      record.head = some head ∧ record.value = putUint64 last.response.current.toUInt64 ∧
      head.version = last.response.version

section

variable (deps : Deps) (lawful : deps.Lawful) (key : Key)

theorem increments_commitVersions (calls : List StorageCall) (store : Store) :
    ((store.increments deps key calls).map Counted.commitVersion).Sublist
      (StorageCall.commitVersions calls) := by
  induction calls generalizing store with
  | nil => exact List.Sublist.slnil
  | cons call rest inductionHypothesis =>
    have later := inductionHypothesis (call.perform deps store)
    rw [Store.increments, List.map_append]
    cases call with
    | load dump => exact later
    | issue env commitVersion command =>
      have own : ((StorageCall.counts deps key store (.issue env commitVersion command)).toList.map
          Counted.commitVersion).Sublist [commitVersion] := by
        unfold StorageCall.counts
        split
        · rename_i request same
          cases same
          split
          · split
            · exact List.Sublist.refl _
            · exact List.nil_sublist _
          · exact List.nil_sublist _
        · exact List.nil_sublist _
      exact own.append later

/-- Strictly growing versions, place by place. -/
theorem pairwise_of_places (counted : List Counted) (value : Nat → Nat)
    (version : ∀ place link, counted[place]? = some link →
      link.response.version.toNat = value place)
    (grows : ∀ early late, early < late → late < counted.length → value early < value late) :
    counted.Pairwise fun early late => early.response.version < late.response.version := by
  refine List.pairwise_iff_getElem.mpr fun early late inEarly inLate before => ?_
  rw [UInt64.lt_iff_toNat_lt, version early _ (List.getElem?_eq_getElem inEarly),
    version late _ (List.getElem?_eq_getElem inLate)]
  exact grows early late before inLate

include lawful in
/-- Counters are linear over whole runs: where a key that is absent is only incremented, whatever
happens to other keys and whichever engine calls fail, the increments add up and a read returns the
last of them. Their versions grow with the log, and without one as long as there are numbers. -/
theorem counters_add_up (store : Store) (calls : List StorageCall)
    (only : ∀ call ∈ calls, call.OnlyIncrements deps key)
    (absent : store.db.read (encodeKey deps key).1 = none) :
    AddsUp deps key (store.increments deps key calls) (store.runStorage deps calls) ∧
      (StorageCall.LogNumbered calls ∨
          StorageCall.LocallyNumbered calls ∧
            (store.increments deps key calls).length < 2 ^ 64 →
        (store.increments deps key calls).Pairwise fun early late =>
          early.response.version < late.response.version) := by
  have chained := chained_run deps lawful key calls only store
  have empty : store.records deps (encodeKey deps key).1 = none := by
    rw [Store.records, absent]
    rfl
  rw [empty] at chained
  have sublist := increments_commitVersions deps key calls store
  refine ⟨⟨?_, chained.current, ?_⟩, ?_⟩
  · intro first isFirst place link found
    refine chained.previous first.request.initial (fun other isOther => ?_) place link found
    obtain rfl := Option.some.inj (isFirst.symm.trans isOther)
    rfl
  · intro last isLast now alive
    have left := chained.ends last isLast
    obtain ⟨reply, isReply, ⟨_, expired⟩ | ⟨record, found, _, _, value⟩⟩ :=
      get_healthy_records deps now (store.runStorage deps calls) key
    · have hidden : deps.isExpired now (last.expiresAt deps) = true := expired _ left
      rw [alive] at hidden
      cases hidden
    · obtain rfl := Option.some.inj (found.symm.trans left)
      have filled : reply.value ≠ [] := by
        rw [value]
        exact List.ne_nil_of_length_pos (by rw [Counted.left, putUint64_length]; decide)
      obtain ⟨other, head, isOther, isHead, version, _⟩ :=
        get_found deps _ (.healthy now) key reply isReply filled
      obtain rfl := Option.some.inj (isOther.symm.trans left)
      exact ⟨reply, head, isReply, isHead, value, version⟩
  · rintro (⟨growing, indexed⟩ | ⟨locally, bounded⟩)
    · have own := List.pairwise_map.mp (growing.sublist sublist)
      refine (List.Pairwise.and_mem.mp own).imp ?_
      rintro early late ⟨isEarly, isLate, before⟩
      rw [chained.version_logged early isEarly
          (indexed _ (sublist.subset (List.mem_map_of_mem isEarly))),
        chained.version_logged late isLate
          (indexed _ (sublist.subset (List.mem_map_of_mem isLate)))]
      exact before
    · have zero : ∀ link ∈ store.increments deps key calls, link.commitVersion = 0 :=
        fun link member => locally _ (sublist.subset (List.mem_map_of_mem member))
      refine pairwise_of_places _ (fun place => place + 1) (fun place link found => ?_) ?_
      · have inside : place + 1 < UInt64.size :=
          lt_of_le_of_lt (List.getElem?_eq_some_iff.mp found).1 bounded
        rw [chained.version_local zero place link found]
        show (0 + UInt64.ofNat (place + 1)).toNat = place + 1
        rw [UInt64.zero_add, UInt64.toNat_ofNat_of_lt' inside]
      · intro early late before _
        omega

include lawful in
/-- Without a log, the last of as many increments as there are versions has version zero. -/
theorem versions_wrap (store : Store) (calls : List StorageCall)
    (only : ∀ call ∈ calls, call.OnlyIncrements deps key)
    (absent : store.db.read (encodeKey deps key).1 = none)
    (locally : StorageCall.LocallyNumbered calls)
    (full : (store.increments deps key calls).length = 2 ^ 64) :
    ¬ (store.increments deps key calls).Pairwise fun early late =>
      early.response.version < late.response.version := by
  intro growing
  have chained := chained_run deps lawful key calls only store
  have sublist := increments_commitVersions deps key calls store
  have zero : ∀ link ∈ store.increments deps key calls, link.commitVersion = 0 :=
    fun link member => locally _ (sublist.subset (List.mem_map_of_mem member))
  have empty : store.records deps (encodeKey deps key).1 = none := by
    rw [Store.records, absent]
    rfl
  rw [empty] at chained
  have inFirst : 0 < (store.increments deps key calls).length := by omega
  have inLast : 2 ^ 64 - 1 < (store.increments deps key calls).length := by omega
  have before := List.pairwise_iff_getElem.mp growing 0 (2 ^ 64 - 1) inFirst inLast (by decide)
  rw [chained.version_local zero (2 ^ 64 - 1) _ (List.getElem?_eq_getElem inLast)] at before
  have wrapped : cellVersion none + UInt64.ofNat (2 ^ 64 - 1 + 1) = 0 := by decide
  rw [wrapped] at before
  exact absurd before UInt64.not_lt_zero

end

/-- An increment by one, without a log. -/
def sampleIncrement : StorageCall :=
  .issue (.healthy 0) 0 (.increment { key := some Reference.sampleKey, delta := 1 })

theorem sampleIncrement_counts (store : Store) :
    ∃ counted, sampleIncrement.counts Reference.deps Reference.sampleKey store = some counted := by
  have answered := congrArg Prod.fst (view_increment Reference.deps Reference.lawful 0 store
    { key := some Reference.sampleKey, delta := 1 } 0)
  have accepted : refuseKey (encodeKey Reference.deps Reference.sampleKey).1 = none := by
    decide +kernel
  simp only [view, Records.increment, Records.write, accepted] at answered
  unfold StorageCall.counts sampleIncrement
  simp only [if_true, answered]
  exact ⟨_, rfl⟩

theorem length_sampleIncrements (count : Nat) (store : Store) :
    (store.increments Reference.deps Reference.sampleKey
      (List.replicate count sampleIncrement)).length = count := by
  induction count generalizing store with
  | zero => rfl
  | succ count inductionHypothesis =>
    obtain ⟨counted, counts⟩ := sampleIncrement_counts store
    rw [List.replicate_succ, Store.increments, counts, List.length_append, inductionHypothesis]
    exact Nat.add_comm 1 count

theorem sampleIncrements_only (count : Nat) :
    ∀ call ∈ List.replicate count sampleIncrement,
      call.OnlyIncrements Reference.deps Reference.sampleKey := by
  intro call member
  rw [List.eq_of_mem_replicate member]
  trivial

theorem sampleIncrements_local (count : Nat) :
    StorageCall.LocallyNumbered (List.replicate count sampleIncrement) := by
  intro version member
  obtain ⟨call, isCall, given⟩ := List.mem_filterMap.mp member
  rw [List.eq_of_mem_replicate isCall] at given
  exact (Option.some.inj given).symm

/-- After 2^64 increments without a log the versions have started again. -/
theorem counter_versions_restart :
    ¬ ∀ calls : List StorageCall,
      (∀ call ∈ calls, call.OnlyIncrements Reference.deps Reference.sampleKey) →
      StorageCall.LocallyNumbered calls →
      (Store.empty.increments Reference.deps Reference.sampleKey calls).Pairwise fun early late =>
        early.response.version < late.response.version := by
  intro claim
  exact versions_wrap Reference.deps Reference.lawful Reference.sampleKey Store.empty
    (List.replicate (2 ^ 64) sampleIncrement) (sampleIncrements_only _) rfl
    (sampleIncrements_local _) (length_sampleIncrements _ _)
    (claim _ (sampleIncrements_only _) (sampleIncrements_local _))

/-- Two increments of the sample key. -/
theorem counters_add_up_sample :
    AddsUp Reference.deps Reference.sampleKey
      (Store.empty.increments Reference.deps Reference.sampleKey
        (List.replicate 2 sampleIncrement))
      (Store.empty.runStorage Reference.deps (List.replicate 2 sampleIncrement)) :=
  (counters_add_up Reference.deps Reference.lawful Reference.sampleKey Store.empty
    (List.replicate 2 sampleIncrement) (sampleIncrements_only 2) rfl).1

end ConsensusDB
