/-
This file is about runs of a node without raft, whose calls go to the storage
one after another. The versions that are written at a key count up, each call
going on where the one before it stopped, until a call takes the record away.
From then on the count starts again at one: a key that is created again gets the
versions it had before, and a conditional put cannot tell the two apart.
-/

import ConsensusDB.LocalWrites
import ConsensusDB.Versions

namespace ConsensusDB

open Wire

/-! ### Runs -/

/-- The calls of a node without raft, each in its own environment. -/
abbrev Call := Env × Command

/-- A batch copies every stored value it looks at. -/
def Call.Legible (call : Call) : Prop :=
  ∀ request, call.2 = .batch request → ∀ round, call.1.fault (.copy round) = none

def Call.perform (deps : Deps) (call : Call) (store : Store) : Store :=
  (runCommand deps call.1 store 0 call.2).2

def Store.runCalls (deps : Deps) (store : Store) (calls : List Call) : Store :=
  Replay.run (Call.perform deps) calls store

/-- The versions that calls write at a key. -/
def Store.written (deps : Deps) (store : Store) (calls : List Call) (key : Bytes) : List UInt64 :=
  writesOf key ((store.runCalls deps calls).events.drop store.events.length)

/-- No call writes the key, and it holds the same record after each of them. -/
def Store.Untouched (deps : Deps) (store : Store) (calls : List Call) (key : Bytes) : Prop :=
  store.written deps calls key = [] ∧
    ∀ early late, calls = early ++ late →
      (store.runCalls deps early).records deps key = store.records deps key

/-- A key whose record has been taken away is not created again. -/
def Store.NeverRecreated (deps : Deps) (store : Store) (calls : List Call) (key : Bytes) : Prop :=
  ∀ first second third rest, calls = first ++ second ++ third ++ rest →
    (store.runCalls deps first).records deps key ≠ none →
    (store.runCalls deps (first ++ second)).records deps key = none →
    (store.runCalls deps (first ++ second ++ third)).records deps key = none

/-- No version is used for two writes of a key, and a conditional put that names a version read
before succeeds only when the key is untouched since. -/
structure Store.NoReuse (deps : Deps) (store : Store) (calls : List Call) (entryKey : Bytes) :
    Prop where
  versions : (store.written deps calls entryKey).Nodup
  conditional : ∀ front middle env request back key reading read record,
    calls = front ++ middle ++ (env, .put request) :: back →
    request.key = some key → (encodeKey deps key).1 = entryKey → request.compareAndSet = true →
    read.key = some key →
    Storage.get deps reading (store.runCalls deps front) read = .ok record →
    request.version = (record.head.map Head.version).getD 0 →
    (Storage.put deps env (store.runCalls deps (front ++ middle)) request 0).1 = .ok ⟨true⟩ →
    (store.runCalls deps front).Untouched deps middle entryKey

section

variable (deps : Deps) (lawful : deps.Lawful) (key : Bytes)

include lawful in
theorem narrated_perform (store : Store) (call : Call) (legible : call.Legible) :
    Narrated deps key store (call.perform deps store) := by
  obtain ⟨env, command⟩ := call
  cases command with
  | put request =>
    exact narrated_of_performed lawful trivial (put_performed deps env store 0 request) key
  | touch request =>
    exact narrated_of_performed lawful trivial (touch_performed deps env store 0 request) key
  | remove request =>
    exact narrated_of_performed lawful trivial (remove_performed deps env store 0 request) key
  | increment request =>
    exact narrated_of_performed lawful trivial (increment_performed deps env store 0 request) key
  | batch request =>
    exact narrated_of_performed lawful (legible request rfl)
      (setBatch_performed deps env store 0 request) key
  | reclaim request =>
    obtain ⟨_, performed⟩ := reclaim_performed deps env store 0 request
    exact narrated_of_performed lawful trivial performed key

theorem runCalls_append (store : Store) (first second : List Call) :
    store.runCalls deps (first ++ second) = (store.runCalls deps first).runCalls deps second :=
  Replay.run_append _ first second store

include deps lawful in
theorem runCalls_events (store : Store) (calls : List Call)
    (legible : ∀ call ∈ calls, call.Legible) :
    ∃ events, (store.runCalls deps calls).events = store.events ++ events := by
  induction calls generalizing store with
  | nil => exact ⟨[], (List.append_nil _).symm⟩
  | cons call rest inductionHypothesis =>
    obtain ⟨first, grown, _⟩ :=
      narrated_perform deps lawful [] store call (legible call List.mem_cons_self)
    obtain ⟨second, grownMore⟩ := inductionHypothesis (call.perform deps store)
      fun other member => legible other (List.mem_cons_of_mem _ member)
    refine ⟨first ++ second, ?_⟩
    rw [← List.append_assoc, ← grown]
    exact grownMore

include lawful in
theorem written_append (store : Store) (first second : List Call)
    (legible : ∀ call ∈ first ++ second, call.Legible) :
    store.written deps (first ++ second) key =
      store.written deps first key ++ (store.runCalls deps first).written deps second key := by
  obtain ⟨early, grown⟩ := runCalls_events deps lawful store first
    fun call member => legible call (List.mem_append_left _ member)
  obtain ⟨late, grownMore⟩ := runCalls_events deps lawful (store.runCalls deps first) second
    fun call member => legible call (List.mem_append_right _ member)
  unfold Store.written
  rw [runCalls_append, grownMore, List.drop_left, grown, List.append_assoc, List.drop_left,
    List.drop_left, writesOf_append]

include lawful in
/-- What one call does at a key. -/
theorem told_call (store : Store) (call : Call) (legible : call.Legible) :
    Told (store.records deps key) (store.written deps [call] key)
      ((call.perform deps store).records deps key) := by
  obtain ⟨events, grown, told⟩ := narrated_perform deps lawful key store call legible
  have grows : (store.runCalls deps [call]).events = store.events ++ events := grown
  rw [Store.written, grows, List.drop_left]
  exact told

include lawful in
/-- A key that is absent throughout is not written. -/
theorem written_of_absent (calls : List Call) (store : Store)
    (legible : ∀ call ∈ calls, call.Legible)
    (absent : ∀ early late, calls = early ++ late →
      (store.runCalls deps early).records deps key = none) :
    store.written deps calls key = [] := by
  induction calls generalizing store with
  | nil =>
    rw [Store.written, Store.runCalls, Replay.run_nil, List.drop_length]
    rfl
  | cons call rest inductionHypothesis =>
    have rested := inductionHypothesis (call.perform deps store)
      (fun other member => legible other (List.mem_cons_of_mem _ member))
      fun early late split => absent (call :: early) late (congrArg (List.cons call) split)
    have first : store.written deps [call] key = [] := by
      rcases told_call deps lawful key store call (legible call List.mem_cons_self) with
        continued | ⟨nothing, _⟩
      · by_contra wrote
        exact continued.present wrote (absent [call] rest rfl)
      · exact nothing
    rw [← List.singleton_append, written_append deps lawful key store [call] rest legible, first]
    exact rested

theorem Store.NeverRecreated.tail {deps : Deps} {store : Store} {key : Bytes}
    (front : List Call) {calls : List Call}
    (settled : store.NeverRecreated deps (front ++ calls) key) :
    (store.runCalls deps front).NeverRecreated deps calls key := by
  intro first second third rest split present absent
  have whole := settled (front ++ first) second third rest (by
    rw [split]
    simp only [List.append_assoc])
  simp only [List.append_assoc, runCalls_append] at whole present absent ⊢
  exact whole present absent

theorem Store.NeverRecreated.front {deps : Deps} {store : Store} {calls more : List Call}
    {key : Bytes}
    (settled : store.NeverRecreated deps (calls ++ more) key) :
    store.NeverRecreated deps calls key := by
  intro first second third rest split
  refine settled first second third (rest ++ more) ?_
  rw [split, List.append_assoc]

include lawful in
/-- In a run that does not create the key again, the versions written there count up from the one
at its start, up to the one at its end when a record is left. -/
theorem run_counts (calls : List Call) (store : Store) (legible : ∀ call ∈ calls, call.Legible)
    (settled : store.NeverRecreated deps calls key) :
    store.written deps calls key =
        counted (cellVersion (store.records deps key)) (store.written deps calls key).length ∧
      ((store.runCalls deps calls).records deps key ≠ none →
        Continues (store.records deps key) (store.written deps calls key)
          ((store.runCalls deps calls).records deps key)) := by
  induction calls generalizing store with
  | nil =>
    rw [Store.written, Store.runCalls, Replay.run_nil, List.drop_length]
    exact ⟨rfl, fun _ => .refl _⟩
  | cons call rest inductionHypothesis =>
    have restLegible : ∀ other ∈ rest, other.Legible :=
      fun other member => legible other (List.mem_cons_of_mem _ member)
    have restSettled : (call.perform deps store).NeverRecreated deps rest key :=
      Store.NeverRecreated.tail [call] settled
    obtain ⟨counts, continues⟩ :=
      inductionHypothesis (call.perform deps store) restLegible restSettled
    have split : store.written deps (call :: rest) key =
        store.written deps [call] key ++ (call.perform deps store).written deps rest key :=
      written_append deps lawful key store [call] rest legible
    rw [split]
    have goesOn (first : Continues (store.records deps key) (store.written deps [call] key)
        ((call.perform deps store).records deps key)) :
        store.written deps [call] key ++ (call.perform deps store).written deps rest key =
            counted (cellVersion (store.records deps key))
              (store.written deps [call] key ++
                (call.perform deps store).written deps rest key).length ∧
          ((store.runCalls deps (call :: rest)).records deps key ≠ none →
            Continues (store.records deps key)
              (store.written deps [call] key ++ (call.perform deps store).written deps rest key)
              ((store.runCalls deps (call :: rest)).records deps key)) := by
      refine ⟨?_, fun left => first.append (continues left)⟩
      rw [List.length_append, counted_add, ← first.version, ← first.counts, ← counts]
    rcases told_call deps lawful key store call (legible call List.mem_cons_self) with
      first | ⟨nothing, gone⟩
    · exact goesOn first
    · by_cases absent : store.records deps key = none
      · refine goesOn ?_
        rw [nothing, gone, absent]
        exact .refl _
      · have stays (early late : List Call) (isSplit : rest = early ++ late) :
            ((call.perform deps store).runCalls deps early).records deps key = none :=
          settled [] [call] early late (congrArg (List.cons call) isSplit) absent gone
        rw [nothing, written_of_absent deps lawful key rest _ restLegible stays]
        exact ⟨rfl, fun left => absurd (stays rest [] (List.append_nil rest).symm) left⟩

/-! ### Conditional puts -/

/-- The version a read reports is the stored one, or zero. -/
theorem version_of_read (env : Env) (store : Store) (read : KeyRequest) (requested : Key)
    (isRequested : read.key = some requested) (record : Record)
    (got : Storage.get deps env store read = .ok record) :
    (record.head.map Head.version).getD 0 =
        cellVersion (store.records deps (encodeKey deps requested).1) ∨
      (record.head.map Head.version).getD 0 = 0 := by
  unfold Storage.get at got
  simp only [isRequested] at got
  split at got
  · cases got
  · cases got
    exact Or.inr rfl
  · rename_i item found
    unfold Storage.fetchRecord at got
    split at got
    · cases got
    · rename_i data copied
      have stored := value_of_copy item env 0 _ data copied
      split at got
      · cases got
        exact Or.inr rfl
      · cases got
        refine Or.inl ?_
        rw [Store.records, ← newTransaction_read, ← read_of_get _ env 0 _ _ found, stored]
        rfl

/-- A conditional put that succeeds finds the version it names and leaves a record. -/
theorem put_succeeds (env : Env) (store : Store) (request : RecordRequest) (requested : Key)
    (isRequested : request.key = some requested) (conditional : request.compareAndSet = true)
    (succeeded : (Storage.put deps env store request 0).1 = .ok ⟨true⟩) :
    request.version = cellVersion (store.records deps (encodeKey deps requested).1) ∧
      (Storage.put deps env store request 0).2.records deps (encodeKey deps requested).1 ≠
        none := by
  unfold Storage.put at succeeded ⊢
  simp only [isRequested] at succeeded ⊢
  cases got : Storage.currentVersion deps env 0 "read current value error" store.newTransaction
      (encodeKey deps requested).1 with
  | error err =>
    rw [got] at succeeded
    cases succeeded
  | ok current =>
    rw [got] at succeeded
    have isCurrent := current_of_get deps _ env 0 _ _ current got
    simp only at succeeded ⊢
    by_cases refused : casRefuses request current = true
    · rw [if_pos refused] at succeeded
      cases succeeded
    · rw [if_neg refused] at succeeded ⊢
      constructor
      · rw [casRefuses, conditional, Bool.true_and] at refused
        have named : request.version = current.getD 0 :=
          not_not.mp fun other => refused (bne_iff_ne.mpr other)
        rw [named, isCurrent]
        rfl
      · unfold Store.commit at succeeded ⊢
        split at succeeded
        · cases succeeded
        · cases succeeded
        · rename_i txn written _
          rw [(staged_of_setEntry _ txn env 0 _ _ _ written).2,
            commit_records deps store _ _ (by rfl), txn_records_cons, Function.update_self]
          exact Option.some_ne_none _

include lawful in
/-- When a run leaves a record and its version is the one at the start, or zero, the run has left
the key untouched. -/
theorem untouched_of_version (calls : List Call) (store : Store)
    (legible : ∀ call ∈ calls, call.Legible) (settled : store.NeverRecreated deps calls key)
    (bounded : (cellVersion (store.records deps key)).toNat +
      (store.written deps calls key).length < 2 ^ 64)
    (present : (store.runCalls deps calls).records deps key ≠ none)
    (same : cellVersion ((store.runCalls deps calls).records deps key) =
        cellVersion (store.records deps key) ∨
      cellVersion ((store.runCalls deps calls).records deps key) = 0) :
    store.Untouched deps calls key := by
  have continues := (run_counts deps lawful key calls store legible settled).2 present
  have nothing : store.written deps calls key = [] := by
    have version := congrArg UInt64.toNat continues.version
    rw [UInt64.toNat_add,
      UInt64.toNat_ofNat_of_lt' (Nat.lt_of_le_of_lt (Nat.le_add_left _ _) bounded),
      Nat.mod_eq_of_lt bounded] at version
    refine List.length_eq_zero_iff.mp ?_
    rcases same with equal | zero
    · rw [equal] at version
      omega
    · rw [zero] at version
      have isZero : (0 : UInt64).toNat = 0 := rfl
      omega
  refine ⟨nothing, fun early late split => ?_⟩
  subst split
  have nothingEarly : store.written deps early key = [] := by
    rw [written_append deps lawful key store early late legible] at nothing
    exact (List.append_eq_nil_iff.mp nothing).1
  have unchanged := continues.kept nothing
  have earlyPresent : (store.runCalls deps early).records deps key ≠ none := by
    intro gone
    have start : store.records deps key ≠ none := by
      rw [← unchanged]
      exact present
    exact present (settled [] early late [] (by simp) start gone)
  exact ((run_counts deps lawful key early store
    (fun call member => legible call (List.mem_append_left _ member)) settled.front).2
      earlyPresent).kept nothingEarly

include lawful in
/-- The count goes on below its bound. -/
theorem bounded_after (front calls more : List Call) (store : Store)
    (legible : ∀ call ∈ front ++ calls ++ more, call.Legible)
    (settled : store.NeverRecreated deps (front ++ calls ++ more) key)
    (bounded : (cellVersion (store.records deps key)).toNat +
      (store.written deps (front ++ calls ++ more) key).length < 2 ^ 64) :
    (cellVersion ((store.runCalls deps front).records deps key)).toNat +
      ((store.runCalls deps front).written deps calls key).length < 2 ^ 64 := by
  rw [List.append_assoc] at legible settled
  rw [written_append deps lawful key store _ more (by rw [List.append_assoc]; exact legible),
    written_append deps lawful key store front calls (fun call member => legible call (by
      rw [← List.append_assoc]
      exact List.mem_append_left _ member)),
    List.length_append, List.length_append] at bounded
  by_cases absent : (store.runCalls deps front).records deps key = none
  · rw [absent]
    have isZero : (cellVersion none).toNat = 0 := rfl
    omega
  · have continues := (run_counts deps lawful key front store
      (fun call member => legible call (List.mem_append_left _ member)) settled.front).2 absent
    have version := congrArg UInt64.toNat continues.version
    rw [UInt64.toNat_add, UInt64.toNat_ofNat_of_lt' (by show _ < 2 ^ 64; omega),
      Nat.mod_eq_of_lt (by omega)] at version
    omega

include lawful in
/-- A conditional put that names a version read before and succeeds finds the key untouched. -/
theorem untouched_since_read (front middle back : List Call) (store : Store) (env : Env)
    (request : RecordRequest)
    (legible : ∀ call ∈ front ++ middle ++ (env, .put request) :: back, Call.Legible call)
    (requested : Key) (isRequested : request.key = some requested)
    (conditional : request.compareAndSet = true)
    (settled : store.NeverRecreated deps (front ++ middle ++ (env, .put request) :: back)
      (encodeKey deps requested).1)
    (bounded : (cellVersion (store.records deps (encodeKey deps requested).1)).toNat +
      (store.written deps (front ++ middle ++ (env, .put request) :: back)
        (encodeKey deps requested).1).length < 2 ^ 64)
    (reading : Env) (read : KeyRequest) (isRead : read.key = some requested) (record : Record)
    (got : Storage.get deps reading (store.runCalls deps front) read = .ok record)
    (named : request.version = (record.head.map Head.version).getD 0)
    (succeeded :
      (Storage.put deps env (store.runCalls deps (front ++ middle)) request 0).1 = .ok ⟨true⟩) :
    (store.runCalls deps front).Untouched deps middle (encodeKey deps requested).1 := by
  obtain ⟨found, left⟩ :=
    put_succeeds deps env _ request requested isRequested conditional succeeded
  have reported := version_of_read deps reading _ read requested isRead record got
  have middleBounded := bounded_after deps lawful _ front middle _ store legible settled bounded
  rw [List.append_assoc] at legible settled
  have middleLegible : ∀ call ∈ middle, call.Legible := fun call member =>
    legible call (List.mem_append_right _ (List.mem_append_left _ member))
  have rest := settled.tail front
  rw [runCalls_append] at found left
  rw [← named, found] at reported
  by_cases absent : ((store.runCalls deps front).runCalls deps middle).records deps
      (encodeKey deps requested).1 = none
  · have stays (early late : List Call) (split : middle = early ++ late) :
        ((store.runCalls deps front).runCalls deps early).records deps
          (encodeKey deps requested).1 = none := by
      by_contra present
      subst split
      have gone := rest early late [(env, .put request)] back (by simp) present absent
      rw [runCalls_append] at gone
      exact left gone
    refine ⟨written_of_absent deps lawful _ middle _ middleLegible stays,
      fun early late split => ?_⟩
    rw [stays early late split]
    exact (stays [] middle rfl).symm
  · exact untouched_of_version deps lawful _ middle _ middleLegible rest.front middleBounded absent
      reported

/-! ### Versions are not used twice -/

include lawful in
/-- Calls that create an absent key write its version one. -/
theorem one_written (calls : List Call) (store : Store) (legible : ∀ call ∈ calls, call.Legible)
    (absent : store.records deps key = none)
    (present : (store.runCalls deps calls).records deps key ≠ none) :
    1 ∈ store.written deps calls key := by
  obtain ⟨front, call, back, rfl, stillAbsent, created⟩ := Replay.exists_lost (Call.perform deps)
    (fun store => store.records deps key = none) calls store absent present
  have frontAbsent : (store.runCalls deps front).records deps key = none := stillAbsent
  have wrote : 1 ∈ (store.runCalls deps front).written deps [call] key := by
    rcases told_call deps lawful key (store.runCalls deps front) call
        (legible call (List.mem_append_right _ List.mem_cons_self)) with
      continues | ⟨_, gone⟩
    · have some : (store.runCalls deps front).written deps [call] key ≠ [] := by
        intro nothing
        exact created ((continues.kept nothing).trans frontAbsent)
      have counts := continues.counts
      rw [frontAbsent] at counts
      rw [counts]
      obtain ⟨more, isMore⟩ := Nat.exists_eq_succ_of_ne_zero
        (mt List.length_eq_zero_iff.mp some)
      rw [isMore]
      exact List.mem_map.mpr ⟨0, List.mem_range.mpr (Nat.succ_pos more), rfl⟩
    · exact absurd gone created
  have regrouped : front ++ call :: back = front ++ ([call] ++ back) := rfl
  rw [regrouped] at legible ⊢
  rw [written_append deps lawful key store front _ legible]
  refine List.mem_append_right _ ?_
  rw [written_append deps lawful key _ [call] back
    (fun other member => legible other (List.mem_append_right _ member))]
  exact List.mem_append_left _ wrote

include lawful in
/-- A node without raft does not use a version for two writes of a key, and a conditional put does
not succeed on a stale read, in every run that does not create the key again after taking its
record away; for a key that is absent at the start, in no other run. The batches of the run copy
the values they look at, and the count does not reach its bound. -/
theorem no_reuse_iff_never_recreated (store : Store) (calls : List Call)
    (legible : ∀ call ∈ calls, call.Legible)
    (bounded : (cellVersion (store.records deps key)).toNat +
      (store.written deps calls key).length < 2 ^ 64) :
    (store.NeverRecreated deps calls key → store.NoReuse deps calls key) ∧
      (store.records deps key = none →
        store.NoReuse deps calls key → store.NeverRecreated deps calls key) := by
  constructor
  · intro settled
    constructor
    · rw [(run_counts deps lawful key calls store legible settled).1]
      exact nodup_counted _ _ (Nat.lt_of_le_of_lt (Nat.le_add_left _ _) bounded)
    · rintro front middle env request back requested reading read record rfl isRequested rfl
        conditional isRead got named succeeded
      exact untouched_since_read deps lawful front middle back store env request legible requested
        isRequested conditional settled bounded reading read isRead record got named succeeded
  · rintro startAbsent reuse first second third rest rfl present absent
    by_contra again
    have versions := reuse.versions
    rw [runCalls_append] at again
    have legibleUpTo : ∀ call ∈ first ++ second ++ third, call.Legible :=
      fun call member => legible call (List.mem_append_left _ member)
    have early := one_written deps lawful key first store
      (fun call member => legibleUpTo call (by simp [member])) startAbsent present
    have late := one_written deps lawful key third _
      (fun call member => legibleUpTo call (by simp [member])) absent again
    rw [written_append deps lawful key store _ rest legible,
      written_append deps lawful key store _ third legibleUpTo,
      written_append deps lawful key store first second
        (fun call member => legibleUpTo call (List.mem_append_left _ member))] at versions
    have separate := (List.nodup_append.mp (List.nodup_append.mp versions).1).2.2
    exact separate 1 (List.mem_append_left _ early) 1 late rfl

end

/-- A call at a clock reading at which no engine call fails. -/
def healthyCall (now : Int64) (request : WriteRequest) : Call :=
  (Env.healthy now, request.command Reference.deps now)

/-- A batch that writes the sample record and cannot copy the stored one. -/
def illegibleBatch : Call :=
  (⟨120, fun step => match step with
      | .copy _ => some (.external "value log is truncated")
      | _ => none⟩,
    .batch { records := [{ key := some Reference.sampleKey, value := str "2" }] })

/-- A put that is conditional on the version of the first write. -/
def stalePut : RecordRequest :=
  { key := some Reference.sampleKey, value := str "3", compareAndSet := true, version := 1 }

/-- The sample record is put twice, and a client that read it after the first put overwrites it on
the condition that it still has that version. -/
def staleCalls : List Call :=
  [healthyCall 100 Reference.samplePut, healthyCall 110 Reference.samplePut,
    (Env.healthy 120, .put stalePut)]

theorem staleCalls_never_recreated :
    Store.empty.NeverRecreated Reference.deps staleCalls
      (encodeKey Reference.deps Reference.sampleKey).1 := by
  have kept : ∀ count < 4, count ≠ 0 →
      (Store.empty.runCalls Reference.deps (staleCalls.take count)).records Reference.deps
        (encodeKey Reference.deps Reference.sampleKey).1 ≠ none := by decide +kernel
  intro first second third rest split present absent
  have isFront : first ++ second = staleCalls.take (first ++ second).length := by
    rw [split, List.append_assoc, List.take_left]
  have bound : (first ++ second).length < 4 := by
    have lengths := congrArg List.length split
    rw [List.append_assoc, List.length_append] at lengths
    have three : staleCalls.length = 3 := rfl
    omega
  refine absurd absent ?_
  rw [isFront]
  refine kept _ bound fun zero => ?_
  rw [(List.append_eq_nil_iff.mp (List.length_eq_zero_iff.mp zero)).1] at present
  exact present rfl

/-- The two puts carry the versions 1 and 2, and the conditional put after them is refused. -/
theorem no_reuse_iff_never_recreated_stale :
    Store.empty.NoReuse Reference.deps staleCalls
        (encodeKey Reference.deps Reference.sampleKey).1 ∧
      Store.empty.written Reference.deps staleCalls
        (encodeKey Reference.deps Reference.sampleKey).1 = [1, 2] ∧
      (Storage.put Reference.deps (Env.healthy 120)
        (Store.empty.runCalls Reference.deps (staleCalls.take 2)) stalePut 0).1 ≠ .ok ⟨true⟩ := by
  have noReuse := (no_reuse_iff_never_recreated Reference.deps Reference.lawful
    (encodeKey Reference.deps Reference.sampleKey).1 Store.empty staleCalls
    (by
      intro call member request isBatch round
      simp only [staleCalls, List.mem_cons, List.not_mem_nil, or_false] at member
      rcases member with rfl | rfl | rfl <;> cases isBatch)
    (by decide +kernel)).1 staleCalls_never_recreated
  refine ⟨noReuse, by decide +kernel, fun succeeded => ?_⟩
  -- the client read the version of the first put, and the second one came between
  have read : (Storage.get Reference.deps (Env.healthy 105)
      (Store.empty.runCalls Reference.deps [healthyCall 100 Reference.samplePut])
      { key := some Reference.sampleKey }).toOption.map
        (fun record => (record.head.map Head.version).getD 0) = some 1 := by decide +kernel
  cases got : Storage.get Reference.deps (Env.healthy 105)
      (Store.empty.runCalls Reference.deps [healthyCall 100 Reference.samplePut])
      { key := some Reference.sampleKey } with
  | error err =>
    rw [got] at read
    cases read
  | ok record =>
    rw [got] at read
    have untouched := noReuse.conditional [healthyCall 100 Reference.samplePut]
      [healthyCall 110 Reference.samplePut] (Env.healthy 120) stalePut [] Reference.sampleKey
      (Env.healthy 105) { key := some Reference.sampleKey } record rfl rfl rfl rfl rfl got
      (Option.some.inj read).symm succeeded
    have written := untouched.1
    revert written
    decide +kernel

/-- A record that is removed and put again carries the version it had, and so does one that is
overwritten by a batch that cannot copy it. -/
theorem version_reused :
    (¬ ∀ calls : List Call, (∀ call ∈ calls, ∃ now, call.1 = Env.healthy now) →
        Store.empty.NoReuse Reference.deps calls
          (encodeKey Reference.deps Reference.sampleKey).1) ∧
      ¬ ∀ calls : List Call, (∀ call ∈ calls, ¬ call.2.deletes) →
        Store.empty.NoReuse Reference.deps calls
          (encodeKey Reference.deps Reference.sampleKey).1 := by
  constructor
  · intro claim
    have reuse := (claim [healthyCall 100 Reference.samplePut,
      healthyCall 110 (.remove { key := some Reference.sampleKey }),
      healthyCall 120 Reference.samplePut] (by
        intro call member
        simp only [List.mem_cons, List.not_mem_nil, or_false] at member
        rcases member with rfl | rfl | rfl
        · exact ⟨100, rfl⟩
        · exact ⟨110, rfl⟩
        · exact ⟨120, rfl⟩)).versions
    revert reuse
    decide +kernel
  · intro claim
    have reuse := (claim [healthyCall 100 Reference.samplePut, illegibleBatch]
      (by decide)).versions
    revert reuse
    decide +kernel

end ConsensusDB
