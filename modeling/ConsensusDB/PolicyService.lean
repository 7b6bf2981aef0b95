/-
This file is `pkg/server/policy_service.go`: how a node compiles the identity
records of the system tenant into the view it decides with, and when. A watch on
the system tenant raises a flag; a request that finds it raised compiles the view
anew, under a lock, and every request decides with the view that is stored when
it loads the pointer. The steps of concurrent requests and of committed writes
are those of `Lib/DirtyFlag.lean`.

The request that finds the flag raised lowers it before it has compiled anything.
Until it stores the new view, other requests find the flag lowered and decide with
the old one, a grant that has been revoked included.
-/

import ConsensusDB.Lib.DirtyFlag
import ConsensusDB.Mediation

namespace ConsensusDB

open Wire Iam

namespace Iam

/-! ### Identity records -/

/-- The system region that holds identity records. -/
def region : Bytes := str "IAM"

def userPrefix : Bytes := str "user/"
def serviceAccountPrefix : Bytes := str "sa/"
def groupPrefix : Bytes := str "group/"
def rolePrefix : Bytes := str "role/"
def policyInstance : Bytes := str "policy/i"
def policyTenantPrefix : Bytes := str "policy/t/"
def policyRegionPrefix : Bytes := str "policy/r/"

def principalUser (name : Bytes) : Bytes := str "user:" ++ name
def principalServiceAccount (name : Bytes) : Bytes := str "serviceAccount:" ++ name
def principalGroup (name : Bytes) : Bytes := str "group:" ++ name

structure UserRecord where
  name : Bytes
  admin : Bool
  disabled : Bool

structure ServiceAccountRecord where
  name : Bytes
  disabled : Bool

structure GroupRecord where
  name : Bytes
  members : List Bytes

structure RoleRecord where
  name : Bytes
  permissions : List Bytes

structure PolicyRecord where
  bindings : List Binding

/-- `Decode` for each kind of record; `none` is an error. -/
structure Decoder where
  user : Bytes → Option UserRecord
  serviceAccount : Bytes → Option ServiceAccountRecord
  group : Bytes → Option GroupRecord
  role : Bytes → Option RoleRecord
  policy : Bytes → Option PolicyRecord

/-- The permissions the server enforces. -/
def allPermissions : List Permission :=
  [.recordsGet, .recordsPut, .recordsDelete, .recordsIncrement, .recordsBatch, .recordsEnumerate,
    .recordsWatch, .iamGet, .iamSet, .backupsCreate, .backupsRestore, .proofsRead, .clusterAdmin]

/-- The permission of a name that a stored role lists. -/
def Permission.ofName (name : Bytes) : Permission :=
  (allPermissions.find? fun permission => permission.name = name).getD (.unknown name)

/-- The scope of the view that a policy record sets; `none` for other records. -/
def policyScopeKey (minor : Bytes) : Option Bytes :=
  if minor = policyInstance then some (str "i")
  else if policyTenantPrefix.isPrefixOf minor then
    some (str "t/" ++ minor.drop policyTenantPrefix.length)
  else if policyRegionPrefix.isPrefixOf minor then
    some (str "r/" ++ minor.drop policyRegionPrefix.length)
  else none

/-! ### Compiling -/

/-- A view being compiled, with the names its map of roles has an entry for. -/
structure Draft where
  snapshot : Snapshot
  roleNames : List Bytes

def newDraft : Draft where
  snapshot := newSnapshot
  roleNames :=
    [str "roles/cdb.viewer", str "roles/cdb.editor", str "roles/cdb.auditor", str "roles/cdb.admin"]

namespace Draft

def addUser (draft : Draft) (user : UserRecord) : Draft :=
  { draft with
    snapshot := { draft.snapshot with
      admins := Function.update draft.snapshot.admins (principalUser user.name) user.admin
      disabled := Function.update draft.snapshot.disabled (principalUser user.name)
        user.disabled } }

def addServiceAccount (draft : Draft) (account : ServiceAccountRecord) : Draft :=
  { draft with
    snapshot := { draft.snapshot with
      disabled := Function.update draft.snapshot.disabled (principalServiceAccount account.name)
        account.disabled } }

/-- Adds the group to the groups of each member, as often as the record lists the member. -/
def addGroup (draft : Draft) (group : GroupRecord) : Draft :=
  { draft with
    snapshot := { draft.snapshot with
      memberGroups := group.members.foldl
        (fun groups member =>
          Function.update groups member (groups member ++ [principalGroup group.name]))
        draft.snapshot.memberGroups } }

/-- A role that is there already stays, a predefined one in particular. -/
def addRole (draft : Draft) (role : RoleRecord) : Draft :=
  if draft.roleNames.contains role.name then draft
  else
    { snapshot := { draft.snapshot with
        roles := Function.update draft.snapshot.roles role.name
          (role.permissions.map Permission.ofName) }
      roleNames := role.name :: draft.roleNames }

def addPolicy (draft : Draft) (scope : Bytes) (policy : PolicyRecord) : Draft :=
  { draft with
    snapshot := { draft.snapshot with
      policies := Function.update draft.snapshot.policies scope policy.bindings } }

/-- One round of the loop over the records. A record that cannot be decoded is skipped. -/
def add (decoder : Decoder) (draft : Draft) (record : Record) : Draft :=
  match record.key with
  | none => draft
  | some key =>
    let minor := key.minorKey
    if record.value = [] then draft
    else if userPrefix.isPrefixOf minor then
      (decoder.user record.value).elim draft draft.addUser
    else if serviceAccountPrefix.isPrefixOf minor then
      (decoder.serviceAccount record.value).elim draft draft.addServiceAccount
    else if groupPrefix.isPrefixOf minor then
      (decoder.group record.value).elim draft draft.addGroup
    else if rolePrefix.isPrefixOf minor then
      (decoder.role record.value).elim draft draft.addRole
    else
      match policyScopeKey minor with
      | none => draft
      | some scope => (decoder.policy record.value).elim draft (draft.addPolicy scope)

end Draft

/-- The view of the records a scan has sent. -/
def compile (decoder : Decoder) (records : List Record) : Snapshot :=
  (records.foldl (Draft.add decoder) newDraft).snapshot

end Iam

namespace PolicyService

/-- The key under which the identity records are scanned. -/
def identityArea : Key := ⟨systemTenant, region, [], none⟩

/-- What `rebuild` stores, compiled from the identity region of the system tenant. -/
def rebuild (deps : Deps) (decoder : Decoder) (env : Env) (store : Store) :
    DirtyFlag.Compiled Snapshot :=
  match Storage.getArea deps env store { key := some identityArea } .regionNameField with
  | .error _ => .failed
  | .ok sent =>
    if sent.panicked then .panicked else .view (Iam.compile decoder sent.blocks.flatten)

/-! ### Requests and writes, step by step -/

/-- A write that the storage carries out. -/
structure StoreWrite where
  env : Env
  index : UInt64
  command : Command

def StoreWrite.apply (deps : Deps) (store : Store) (write : StoreWrite) : Store :=
  (runCommand deps write.env store write.index write.command).2

/-- The write announces a change of the system tenant. -/
def StoreWrite.watched (deps : Deps) (store : Store) (write : StoreWrite) : Bool :=
  match encodeKeyPrefix deps ⟨systemTenant, [], [], none⟩ .majorKeyField with
  | .error _ => false
  | .ok area => ((write.apply deps store).events.drop store.events.length).any fun event =>
      area.isPrefixOf event.key

/-- The service on a store: a request is a reader, which swaps the flag, rebuilds under the lock
when it was raised, and loads the pointer. -/
def scheme (deps : Deps) (decoder : Decoder) (store : Store) :
    DirtyFlag.Scheme Store StoreWrite Snapshot Env where
  initial := store
  apply := StoreWrite.apply deps
  watched := StoreWrite.watched deps
  compile := rebuild deps decoder

abbrev State (Id : Type) := DirtyFlag.State Id StoreWrite Snapshot

/-- The request decides with a view that was compiled from the store after some of the writes, the
latest one whose callback had run before the request among them. -/
def DecidesOnAnnounced {Id : Type} (deps : Deps) (decoder : Decoder) (store : Store)
    (state : State Id) (id : Id) : Prop :=
  ∃ request snapshot version env, state.readers id = some request ∧
    request.phase = .done snapshot ∧ request.due ≤ version ∧ version ≤ state.writes.length ∧
    rebuild deps decoder env ((state.writes.take version).foldl (StoreWrite.apply deps) store) =
      .view snapshot

/-- Every request that took the flag and has not stored its view swapped the flag after the given
request. -/
def Settled {Id : Type} (state : State Id) (id : Id) : Prop :=
  ∀ request, state.readers id = some request → ∀ other rebuilding,
    state.readers other = some rebuilding → rebuilding.Rebuilding →
      request.since < rebuilding.since

/-- A rebuild does not return an error. -/
theorem rebuild_ne_failed (deps : Deps) (decoder : Decoder) (env : Env) (store : Store) :
    rebuild deps decoder env store ≠ .failed := by
  unfold rebuild Storage.getArea
  simp only [encodeKeyPrefix]
  split <;> exact fun failed => nomatch failed

/-- A rebuild of a store whose keys can all be decoded compiles a view. -/
theorem rebuild_view_of_decodes (deps : Deps) (decoder : Decoder) (env : Env) (store : Store)
    (decodes : ∀ entry ∈ store.entries, ∃ key, decodeKey deps entry.1 = some (.ok key)) :
    ∃ snapshot, rebuild deps decoder env store = .view snapshot := by
  unfold rebuild Storage.getArea
  simp only [encodeKeyPrefix]
  rw [not_panicked_of_decodes deps env false _ 0 [] fun entry member =>
    decodes entry (List.mem_of_mem_filter member)]
  exact ⟨_, rfl⟩

/-- The stored entries of the identity region. -/
def identityEntries (store : Store) : List (Bytes × Item) :=
  store.entries.filter fun entry =>
    (encodeField systemTenant ++ encodeField region).isPrefixOf entry.1

/-- What is stored under a key of the identity region is an entry of it. -/
theorem mem_identityEntries {deps : Deps} {store : Store} {asked : Key}
    (tenant : asked.majorKey = systemTenant) (inRegion : asked.regionName = region) {item : Item}
    (found : store.db.read (encodeKey deps asked).1 = some item) :
    ((encodeKey deps asked).1, item) ∈ identityEntries store := by
  refine List.mem_filter.mpr ⟨(Mvcc.mem_entries keyOrder store.db _ item).mpr found, ?_⟩
  obtain ⟨rest, layout⟩ := encodeKey_front deps asked
  rw [layout, tenant, inRegion, ← List.append_assoc]
  exact List.isPrefixOf_iff_prefix.mpr (List.prefix_append _ _)

/-- What a scan of the identity region sends when no engine call fails. -/
theorem getArea_identity_healthy (deps : Deps) (now : Int64) (store : Store) :
    ∃ sent, Storage.getArea deps (.healthy now) store { key := some identityArea }
        .regionNameField = .ok sent ∧
      sent.panicked = ((identityEntries store).any fun entry => (decodeKey deps entry.1).isNone) ∧
      (sent.panicked = false →
        sent.blocks.flatten = (identityEntries store).filterMap (sentRecord deps now false)) := by
  have panicked := panicked_scanEntries deps (.healthy now) false (identityEntries store) 0 []
  refine ⟨_, rfl, panicked, fun calm => ?_⟩
  refine flatten_scanEntries deps now false (identityEntries store) 0 [] fun entry member => ?_
  intro missing
  have undecodable :
      ((identityEntries store).any fun entry => (decodeKey deps entry.1).isNone) = true :=
    List.any_eq_true.mpr ⟨entry, member, by rw [missing]; rfl⟩
  rw [← panicked] at undecodable
  exact Bool.false_ne_true (calm.symm.trans undecodable)

/-- What a rebuild comes to when no engine call fails. -/
theorem rebuild_healthy (deps : Deps) (decoder : Decoder) (now : Int64) (store : Store) :
    rebuild deps decoder (.healthy now) store =
      if (identityEntries store).any fun entry => (decodeKey deps entry.1).isNone then .panicked
      else .view (Iam.compile decoder
        ((identityEntries store).filterMap (sentRecord deps now false))) := by
  obtain ⟨sent, scanned, panicked, records⟩ := getArea_identity_healthy deps now store
  rw [rebuild, scanned, ← panicked]
  cases outcome : sent.panicked with
  | true => simp only [outcome, if_true]
  | false =>
    simp only [outcome, if_neg Bool.false_ne_true]
    rw [records outcome]

/-- A request decides with a view that has every write in it whose callback ran before the request,
when no request that took the flag before it is still on its way to store its view. -/
theorem decision_sees_announced {Id : Type} [DecidableEq Id] (deps : Deps) (decoder : Decoder)
    (store : Store) (state next : State Id)
    (reached : state.Reached (scheme deps decoder store)) (id : Id) (settled : Settled state id)
    (loaded : state.step (scheme deps decoder store) (.load id) = some next) :
    DecidesOnAnnounced deps decoder store next id := by
  simp only [DirtyFlag.State.step] at loaded
  split at loaded
  · rename_i since due found
    obtain ⟨version, env, covered, within, compiled⟩ :=
      DirtyFlag.State.load_covers reached id since due found (settled _ found)
    rw [← Option.some.inj loaded]
    exact ⟨_, state.view, version, env, DirtyFlag.State.move_self state id _ _, rfl, covered,
      within, compiled⟩
  · cases loaded

/-! ### A revoked grant -/

/-- Identity records in the formats of `Lib/Format.lean`. -/
def sampleDecoder : Decoder where
  user value := ((Format.bytes.pair (Format.bool.pair Format.bool)).getAll value).map
    fun parts => ⟨parts.1, parts.2.1, parts.2.2⟩
  serviceAccount value := ((Format.bytes.pair Format.bool).getAll value).map
    fun parts => ⟨parts.1, parts.2⟩
  group value := ((Format.bytes.pair Format.bytes.list).getAll value).map
    fun parts => ⟨parts.1, parts.2⟩
  role value := ((Format.bytes.pair Format.bytes.list).getAll value).map
    fun parts => ⟨parts.1, parts.2⟩
  policy value := ((Format.bytes.pair Format.bytes.list).list.getAll value).map
    fun bindings => ⟨bindings.map fun parts => ⟨parts.1, parts.2⟩⟩

/-- A put of the bindings of the instance. -/
def setBindings (now : Int64) (bindings : List (Bytes × List Bytes)) : StoreWrite where
  env := Env.healthy now
  index := 0
  command := .put
    { key := some ⟨systemTenant, region, policyInstance, none⟩
      value := (Format.bytes.pair Format.bytes.list).list.put bindings }

/-- A store in which a principal may read the records of the instance. -/
def grantingStore : Store :=
  (setBindings 100 [(str "roles/cdb.viewer", [str "user:alice"])]).apply Reference.deps Store.empty

/-- The write that takes the grant back. -/
def revocation : StoreWrite := setBindings 200 []

def sampleScheme : DirtyFlag.Scheme Store StoreWrite Snapshot Env :=
  scheme Reference.deps sampleDecoder grantingStore

/-- The view of the store before the revocation. -/
def grantingView : Snapshot :=
  { newSnapshot with
    policies := Function.update newSnapshot.policies (str "i")
      [⟨str "roles/cdb.viewer", [str "user:alice"]⟩] }

theorem grantingView_compiled :
    sampleScheme.compile (Env.healthy 100) sampleScheme.initial = .view grantingView := by
  rfl

/-- The revocation is committed and its callback has run; a request has taken the flag, has stored
the new view and is about to load it. -/
def rebuiltState : State Unit where
  writes := [revocation]
  told := 1
  dirty := false
  lock := none
  view := { newSnapshot with policies := Function.update newSnapshot.policies (str "i") [] }
  version := 1
  swaps := 1
  readers _ := some ⟨.loading, 0, 1⟩

theorem rebuiltState_reached : rebuiltState.Reached sampleScheme :=
  .step (.unlock ())
    (.step (.publish ())
      (.step (.compile () (Env.healthy 210))
        (.step (.acquire ())
          (.step (.swap ())
            (.step (.callback 0)
              (.step (.commit revocation) (.start grantingView_compiled) trivial rfl)
              trivial rfl)
            trivial rfl)
          trivial rfl)
        ⟨_, rfl⟩ rfl)
      trivial rfl)
    trivial rfl

theorem decision_sees_announced_alone :
    ∃ next, rebuiltState.step sampleScheme (.load ()) = some next ∧
      DecidesOnAnnounced Reference.deps sampleDecoder grantingStore next () := by
  have settled : Settled rebuiltState () := by
    intro request _ other rebuilding found isRebuilding
    obtain rfl := Option.some.inj found
    exact isRebuilding.elim
  exact ⟨_, rfl, decision_sees_announced Reference.deps sampleDecoder grantingStore rebuiltState _
    rebuiltState_reached () settled rfl⟩

/-- The revocation is committed and its callback has run. One request has taken the flag and a
second one has found it lowered. -/
def staleState : State Bool where
  writes := [revocation]
  told := 1
  dirty := false
  lock := none
  view := grantingView
  version := 0
  swaps := 2
  readers := Function.update (Function.update (fun _ => none) true (some ⟨.waiting, 0, 1⟩)) false
    (some ⟨.loading, 1, 1⟩)

theorem staleState_reached : staleState.Reached sampleScheme :=
  .step (.swap false)
    (.step (.swap true)
      (.step (.callback 0)
        (.step (.commit revocation) (.start grantingView_compiled) trivial rfl) trivial rfl)
      trivial rfl)
    trivial rfl

/-- The key of the bindings of the instance, and the item the revocation stores there. -/
def bindingsKey : Key := ⟨systemTenant, region, policyInstance, none⟩

def revokedItem : Item :=
  ⟨Reference.encodeEnvelope 2 0 ((Format.bytes.pair Format.bytes.list).list.put []), 0⟩

theorem revoked_entries :
    ((revocation.apply Reference.deps grantingStore).entries.filter fun entry =>
      (encodeField systemTenant ++ encodeField region).isPrefixOf entry.1) =
        [((encodeKey Reference.deps bindingsKey).1, revokedItem)] := by
  decide +kernel

/-- Whatever the circumstances, what is compiled after the revocation does not grant. -/
theorem revoked_denies (env : Env) (snapshot : Snapshot)
    (compiled : rebuild Reference.deps sampleDecoder env
      (revocation.apply Reference.deps grantingStore) = .view snapshot) :
    snapshot.authorize (str "user:alice") .recordsGet [] [] = false := by
  have decoded : decodeKey Reference.deps (encodeKey Reference.deps bindingsKey).1 =
      some (.ok bindingsKey) := by decide +kernel
  have entries := revoked_entries
  unfold rebuild Storage.getArea at compiled
  simp only [encodeKeyPrefix, identityArea, entries, Storage.scanEntries, decoded] at compiled
  cases fetched : Storage.fetchRecord Reference.deps env 0 bindingsKey
      (encodeKey Reference.deps bindingsKey).1 revokedItem false with
  | error err =>
    rw [fetched] at compiled
    cases compiled
    show (Iam.compile sampleDecoder []).authorize _ _ _ _ = false
    decide +kernel
  | ok record =>
    rw [fetched] at compiled
    rcases fetchRecord_cases Reference.deps env 0 bindingsKey _ revokedItem false record
        fetched with rfl | ⟨_, rfl⟩
    · cases compiled
      decide +kernel
    · cases compiled
      decide +kernel

/-- The second request decides with the view from before the revocation. -/
theorem revoked_grant_decides :
    ¬ ∀ (state next : State Bool) (id : Bool), state.Reached sampleScheme →
      state.step sampleScheme (.load id) = some next →
      DecidesOnAnnounced Reference.deps sampleDecoder grantingStore next id := by
  intro claim
  obtain ⟨request, snapshot, version, env, found, isDone, covered, within, compiled⟩ :=
    claim staleState _ false staleState_reached rfl
  obtain rfl := Option.some.inj found
  cases isDone
  have whole : version = 1 := le_antisymm within covered
  subst whole
  have denied := revoked_denies env _ compiled
  exact absurd denied (by decide +kernel)

end PolicyService

end ConsensusDB
