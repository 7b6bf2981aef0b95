/-
This file is the write side of the data plane, `pkg/server/vrpc_data.go` and
`pkg/server/authz_guard.go`: `kv.put`, `kv.touch`, `kv.remove`, `kv.increment`
and `kv.batch` with the authorization check in front of each.

A request changes the store at the entry keys of the keys it names and nowhere
else. The engine refuses an entry key that is too long, and one it accepts names
its tenant and region: no two keys of different scopes share it. A batch is
checked once, on the scope of its first record, and rejected when another record
has a different one. So what a request changes lies in the scope that was checked.
-/

import ConsensusDB.Mediation

namespace ConsensusDB

open Wire Iam

/-! ### Guards -/

/-- The codes of the value-rpc errors the handlers return. -/
inductive Code where
  | unauthenticated
  | invalidArgument
  | unavailable
  deriving DecidableEq, Repr

/-- The reply to a write: what became of it, or an error with a code. -/
inductive Reply where
  | handled (outcome : Outcome)
  | rejected (code : Code) (err : Err)

def notLeaderPrefix : String := "not-leader:"

/-- The endpoint of the leader in a not-leader error. The storage formats the errors it wraps, so
a wrapped error hides none. -/
def asNotLeader : Err → Option String
  | .notLeader _ _ leaderEndpoint => some leaderEndpoint
  | _ => none

/-- Turns a not-leader error into one that carries the endpoint of the leader. -/
def redirectable {Request : Type} (handler : Request → Outcome × Node) (request : Request) :
    Reply × Node :=
  match handler request with
  | (.refused err, node) =>
    match asNotLeader err with
    | some leaderEndpoint =>
      (.rejected .unavailable (.text (notLeaderPrefix ++ leaderEndpoint)), node)
    | none => (.handled (.refused err), node)
  | (outcome, node) => (.handled outcome, node)

/-- The guard of `guardKey`, in front of a handler that writes. -/
def guardWrite {Request : Type} (snapshot : Snapshot) (principal : Bytes)
    (permission : Permission) (keyOf : Request → Option Key) (node : Node)
    (handler : Request → Reply × Node) (request : Request) : Reply × Node :=
  let (tenant, region) := scopeOf (keyOf request)
  match PolicyService.authorize snapshot principal permission tenant region with
  | .error err => (.rejected .unauthenticated err, node)
  | .ok _ => handler request

/-- The tenant and region of a batch, those of its first record; `none` when another record
differs. -/
def batchScope (request : BatchRequest) : Option (Bytes × Bytes) :=
  match request.records with
  | [] => some ([], [])
  | first :: rest =>
    if rest.all fun record => scopeOf record.key = scopeOf first.key then
      some (scopeOf first.key)
    else none

namespace VrpcDataService

variable (deps : Deps) (env : Env) (snapshot : Snapshot) (principal : Bytes) (node : Node)

def put : RecordRequest → Reply × Node :=
  guardWrite snapshot principal .recordsPut RecordRequest.key node
    (redirectable (KeyValueService.put deps env node))

def touch : RecordRequest → Reply × Node :=
  guardWrite snapshot principal .recordsPut RecordRequest.key node
    (redirectable (KeyValueService.touch deps env node))

def remove : KeyRequest → Reply × Node :=
  guardWrite snapshot principal .recordsDelete KeyRequest.key node
    (redirectable (KeyValueService.remove deps env node))

def increment : IncrementRequest → Reply × Node :=
  guardWrite snapshot principal .recordsIncrement IncrementRequest.key node
    (redirectable (KeyValueService.increment deps env node))

/-- The handler of `kv.batch`. -/
def guardedBatch (request : BatchRequest) : Reply × Node :=
  match batchScope request with
  | none =>
    (.rejected .invalidArgument (.text "batch must target a single tenant and region"), node)
  | some (tenant, region) =>
    match PolicyService.authorize snapshot principal .recordsBatch tenant region with
    | .error err => (.rejected .unauthenticated err, node)
    | .ok _ => redirectable (KeyValueService.batch deps env node) request

/-- The write handlers of the data plane. -/
def write : WriteRequest → Reply × Node
  | .put request => put deps env snapshot principal node request
  | .touch request => touch deps env snapshot principal node request
  | .remove request => remove deps env snapshot principal node request
  | .increment request => increment deps env snapshot principal node request
  | .batch request => guardedBatch deps env snapshot principal node request

end VrpcDataService

/-- The permission a write request is checked for. -/
def WriteRequest.permission : WriteRequest → Permission
  | .put _ => .recordsPut
  | .touch _ => .recordsPut
  | .remove _ => .recordsDelete
  | .increment _ => .recordsIncrement
  | .batch _ => .recordsBatch

/-- The keys a write request names. -/
def WriteRequest.keys : WriteRequest → List Key
  | .put request => request.key.toList
  | .touch request => request.key.toList
  | .remove request => request.key.toList
  | .increment request => request.key.toList
  | .batch request => request.records.filterMap RecordRequest.key

/-! ### What a command changes -/

/-- Every entry key at which two stores differ is the entry key of one of the keys, and the engine
accepts it. -/
def ConfinedTo (deps : Deps) (keys : List Key) (before after : Store) : Prop :=
  ∀ entryKey, after.records deps entryKey ≠ before.records deps entryKey →
    refuseKey entryKey = none ∧ ∃ key ∈ keys, (encodeKey deps key).1 = entryKey

theorem confinedTo_of_performed {deps : Deps} {commitVersion : UInt64} {counts : Prop}
    {type : WatchEventType} {keys : List Key} {before after : Store}
    (performed : Performed deps commitVersion counts type
      (keys.map fun key => (encodeKey deps key).1) before after) :
    ConfinedTo deps keys before after := by
  intro entryKey changed
  have read : after.db.read entryKey ≠ before.db.read entryKey :=
    fun same => changed (congrArg (Option.map (storedRecord deps)) same)
  obtain ⟨accepted, member⟩ := mem_of_performed performed entryKey read
  exact ⟨accepted, List.mem_map.mp member⟩

/-- A write of a node without raft changes the store only at the keys it names. -/
theorem handle_confined (deps : Deps) (env : Env) (fsm : Fsm) (request : WriteRequest) :
    ConfinedTo deps request.keys fsm.store
      ((⟨fsm, none⟩ : Node).handle deps env request).2.fsm.store := by
  cases request with
  | put request =>
    exact confinedTo_of_performed
      (put_performed deps env fsm.store 0 (stampRecord deps env.now request))
  | touch request =>
    exact confinedTo_of_performed
      (touch_performed deps env fsm.store 0 (stampRecord deps env.now request))
  | remove request =>
    exact confinedTo_of_performed (remove_performed deps env fsm.store 0 request)
  | increment request =>
    exact confinedTo_of_performed
      (increment_performed deps env fsm.store 0 (stampIncrement deps env.now request))
  | batch request =>
    have stamped : (stampBatch deps env.now request).records.filterMap RecordRequest.key =
        request.records.filterMap RecordRequest.key := by
      rw [stampBatch, List.filterMap_map]
      rfl
    show ConfinedTo deps (request.records.filterMap RecordRequest.key) _ _
    rw [← stamped]
    exact confinedTo_of_performed
      (setBatch_performed deps env fsm.store 0 (stampBatch deps env.now request))

/-! ### What a guard lets through -/

section

variable (deps : Deps) (env : Env) (snapshot : Snapshot) (principal : Bytes) (node : Node)

theorem redirectable_node {Request : Type} (handler : Request → Outcome × Node)
    (request : Request) : (redirectable handler request).2 = (handler request).2 := by
  unfold redirectable
  obtain ⟨outcome, after⟩ := handler request
  cases outcome with
  | refused err =>
    simp only
    split
    · rfl
    · rfl
  | stored result => rfl
  | proposed data => rfl

/-- A guarded write is turned away, or its key is permitted and it is handled. -/
theorem guardWrite_cases {Request : Type} (permission : Permission) (keyOf : Request → Option Key)
    (handler : Request → Outcome × Node) (request : Request) :
    (guardWrite snapshot principal permission keyOf node (redirectable handler) request).2 = node ∨
      ((∀ key ∈ (keyOf request).toList, Permitted snapshot principal permission key) ∧
        (guardWrite snapshot principal permission keyOf node (redirectable handler) request).2 =
          (handler request).2) := by
  unfold guardWrite
  simp only
  rcases authorize_eq snapshot principal permission (scopeOf (keyOf request)).1
      (scopeOf (keyOf request)).2 with allowed | ⟨⟨err, denied⟩, _⟩
  · rw [allowed]
    refine Or.inr ⟨fun key member => ?_, redirectable_node handler request⟩
    rw [Option.mem_toList.mp member] at allowed
    exact allowed_of_authorize snapshot principal permission _ _ allowed
  · rw [denied]
    exact Or.inl rfl

/-- Every record of a batch that has a scope has it. -/
theorem scopeOf_of_batchScope (request : BatchRequest) (scope : Bytes × Bytes)
    (isScope : batchScope request = some scope) :
    ∀ record ∈ request.records, scopeOf record.key = scope := by
  unfold batchScope at isScope
  intro record member
  cases records : request.records with
  | nil =>
    rw [records] at member
    cases member
  | cons first rest =>
    rw [records] at isScope member
    simp only at isScope
    split at isScope
    · rename_i same
      rw [← Option.some.inj isScope]
      rcases List.mem_cons.mp member with rfl | later
      · rfl
      · exact of_decide_eq_true (List.all_eq_true.mp same record later)
    · cases isScope

theorem guardedBatch_cases (request : BatchRequest) :
    (VrpcDataService.guardedBatch deps env snapshot principal node request).2 = node ∨
      ((∀ key ∈ request.records.filterMap RecordRequest.key,
          Permitted snapshot principal .recordsBatch key) ∧
        (VrpcDataService.guardedBatch deps env snapshot principal node request).2 =
          (KeyValueService.batch deps env node request).2) := by
  unfold VrpcDataService.guardedBatch
  cases isScope : batchScope request with
  | none => exact Or.inl rfl
  | some scope =>
    simp only
    rcases authorize_eq snapshot principal .recordsBatch scope.1 scope.2 with
      allowed | ⟨⟨err, denied⟩, _⟩
    · rw [allowed]
      refine Or.inr ⟨fun key member => ?_, redirectable_node _ request⟩
      obtain ⟨record, isRecord, named⟩ := List.mem_filterMap.mp member
      have same := scopeOf_of_batchScope request scope isScope record isRecord
      rw [named] at same
      rw [← same] at allowed
      exact allowed_of_authorize snapshot principal .recordsBatch _ _ allowed
    · rw [denied]
      exact Or.inl rfl

/-- A write request is turned away, or every key it names is permitted and it is handled. -/
theorem write_cases (request : WriteRequest) :
    (VrpcDataService.write deps env snapshot principal node request).2 = node ∨
      ((∀ key ∈ request.keys, Permitted snapshot principal request.permission key) ∧
        (VrpcDataService.write deps env snapshot principal node request).2 =
          (node.handle deps env request).2) := by
  cases request with
  | put request => exact guardWrite_cases snapshot principal node .recordsPut _ _ request
  | touch request => exact guardWrite_cases snapshot principal node .recordsPut _ _ request
  | remove request => exact guardWrite_cases snapshot principal node .recordsDelete _ _ request
  | increment request =>
    exact guardWrite_cases snapshot principal node .recordsIncrement _ _ request
  | batch request => exact guardedBatch_cases deps env snapshot principal node request

end

/-! ### Scopes of entry keys -/

/-- The entry key is that of the key, or is read as the key. -/
def Addresses (deps : Deps) (entryKey : Bytes) (key : Key) : Prop :=
  (encodeKey deps key).1 = entryKey ∨ decodeKey deps entryKey = some (.ok key)

/-- An uncut field at the front of a key is determined by it. -/
theorem encodeField_append_inj {first second firstRest secondRest : Bytes}
    (same : encodeField first ++ firstRest = encodeField second ++ secondRest)
    (firstShort : (encodeField first).length ≤ maxEngineKeySize)
    (secondShort : (encodeField second).length ≤ maxEngineKeySize) :
    first = second ∧ firstRest = secondRest := by
  have decoded := decodeField_encodeField_append first firstRest
  rw [same, decodeField_encodeField_append, take_of_encodeField_le first firstShort,
    take_of_encodeField_le second secondShort] at decoded
  obtain ⟨field, rest⟩ := Prod.mk.inj (Except.ok.inj (Option.some.inj decoded))
  exact ⟨field.symm, rest.symm⟩

/-- Keys that address one entry key the engine accepts have one tenant and region. -/
theorem scope_of_addresses (deps : Deps) (written key : Key) (entryKey : Bytes)
    (isWritten : (encodeKey deps written).1 = entryKey) (accepted : refuseKey entryKey = none)
    (addressed : Addresses deps entryKey key) :
    key.majorKey = written.majorKey ∧ key.regionName = written.regionName := by
  obtain ⟨rest, front⟩ := encodeKey_front deps written
  rw [isWritten] at front
  rcases addressed with encoded | decoded
  · obtain ⟨others, otherFront⟩ := encodeKey_front deps key
    rw [encoded] at otherFront
    have length := length_of_accepted accepted
    have short := length
    rw [front, List.length_append, List.length_append] at short
    rw [otherFront, List.length_append, List.length_append] at length
    obtain ⟨major, tail⟩ := encodeField_append_inj (otherFront.symm.trans front) (by omega)
      (by omega)
    obtain ⟨region, _⟩ := encodeField_append_inj tail (by omega) (by omega)
    exact ⟨major, region⟩
  · exact scope_of_front deps _ _ rest entryKey key front.symm accepted decoded

/-- A write of a node without raft leaves every record as it is whose tenant and region the
principal may not write: in its value, its version, its expiry and its meta. -/
theorem write_spares_denied (deps : Deps) (env : Env) (snapshot : Snapshot) (principal : Bytes)
    (fsm : Fsm) (request : WriteRequest) (key : Key)
    (denied : snapshot.authorize principal (effectivePermission request.permission key.majorKey)
      key.majorKey key.regionName = false)
    (entryKey : Bytes) (addressed : Addresses deps entryKey key) :
    (VrpcDataService.write deps env snapshot principal ⟨fsm, none⟩ request).2.fsm.store.records deps
        entryKey =
      fsm.store.records deps entryKey := by
  rcases write_cases deps env snapshot principal ⟨fsm, none⟩ request with
    kept | ⟨permitted, through⟩
  · rw [kept]
  · rw [through]
    by_contra changed
    obtain ⟨accepted, written, member, isWritten⟩ :=
      handle_confined deps env fsm request entryKey changed
    obtain ⟨major, region⟩ :=
      scope_of_addresses deps written key entryKey isWritten accepted addressed
    have allowed := permitted written member
    unfold Permitted at allowed
    rw [← major, ← region, denied] at allowed
    cases allowed

/-- An editor of the instance writes a record of an ordinary tenant, and the identity records stay
as they are. -/
theorem write_spares_denied_identity :
    (VrpcDataService.write Reference.deps (Env.healthy 200) (boundTo (str "roles/cdb.editor"))
        (str "user:alice") ⟨identityNode, none⟩ Reference.samplePut).2.fsm.store.records
        Reference.deps (encodeKey Reference.deps Reference.sampleKey).1 ≠
      identityNode.store.records Reference.deps
        (encodeKey Reference.deps Reference.sampleKey).1 ∧
    (VrpcDataService.write Reference.deps (Env.healthy 200) (boundTo (str "roles/cdb.editor"))
        (str "user:alice") ⟨identityNode, none⟩ Reference.samplePut).2.fsm.store.records
        Reference.deps
        (encodeKey Reference.deps ⟨systemTenant, str "IAM", str "user/root", none⟩).1 =
      identityNode.store.records Reference.deps
        (encodeKey Reference.deps ⟨systemTenant, str "IAM", str "user/root", none⟩).1 :=
  ⟨by decide +kernel, write_spares_denied Reference.deps (Env.healthy 200)
    (boundTo (str "roles/cdb.editor")) (str "user:alice") identityNode Reference.samplePut
    ⟨systemTenant, str "IAM", str "user/root", none⟩ (by decide +kernel) _ (Or.inl rfl)⟩

end ConsensusDB
