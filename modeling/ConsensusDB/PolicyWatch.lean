/-
This file puts the policy service on a node. `PostConstruct` compiles the view and
registers the watcher in a goroutine of its own; meanwhile and afterwards the
storage changes, by the operations that announce what they write and by loading a
dump, which announces nothing.

Whatever an operation changes is announced, so a change of the identity records
after the registration raises the flag. When it is lowered again, no rebuild is
running and no event is on its way, the stored view is the one a rebuild would
compile, as long as nothing else changed the identity records: no load, no write
before the registration, and no record that expired.
-/

import ConsensusDB.PolicyService

namespace ConsensusDB

open Wire Iam

namespace PolicyService

/-! ### A node -/

/-- The storage of a node, and whether the watcher is registered. -/
structure NodeStorage where
  store : Store
  registered : Bool

/-- A change of the storage, or the registration of the watcher. -/
inductive Change where
  | operation (write : StoreWrite)
  | load (dump : Dump)
  | register

def Change.apply (deps : Deps) (storage : NodeStorage) : Change → NodeStorage
  | .operation write => { storage with store := write.apply deps storage.store }
  | .load dump => { storage with store := Storage.load storage.store dump }
  | .register => { storage with registered := true }

/-- The watcher receives an event of the change. -/
def Change.watched (deps : Deps) (storage : NodeStorage) : Change → Bool
  | .operation write => storage.registered && write.watched deps storage.store
  | .load _ => false
  | .register => false

/-- The service on a node, from the rebuild of `PostConstruct` on. -/
def nodeScheme (deps : Deps) (decoder : Decoder) (store : Store) :
    DirtyFlag.Scheme NodeStorage Change Snapshot Env where
  initial := ⟨store, false⟩
  apply := Change.apply deps
  watched := Change.watched deps
  compile env storage := rebuild deps decoder env storage.store

abbrev NodeState (Id : Type) := DirtyFlag.State Id Change Snapshot

section

variable {Id : Type} [DecidableEq Id] (deps : Deps) (decoder : Decoder) (store : Store)
  (state : NodeState Id)

/-- The storage after some of the changes. -/
def storageAt (version : Nat) : NodeStorage :=
  (nodeScheme deps decoder store).sourceAt state.writes version

/-- No event is on its way to the watcher. -/
def Delivered : Prop :=
  ∀ position change, state.writes[position]? = some change →
    change.watched deps (storageAt deps decoder store state position) = true → position < state.told

/-- No request has taken the flag without storing its view. -/
def Idle : Prop := ∀ id request, state.readers id = some request → ¬ request.Rebuilding

/-- The flag is raised, or the stored view is the one that a rebuild would compile. -/
def Follows (now : Int64) : Prop :=
  state.dirty = true ∨
    rebuild deps decoder (.healthy now)
      (storageAt deps decoder store state state.writes.length).store = .view state.view

end

/-! ### Announced changes -/

/-- A write that the watcher does not hear of leaves the identity records alone. -/
theorem identityEntries_of_unwatched (deps : Deps) (store : Store) (write : StoreWrite)
    (unwatched : write.watched deps store = false) :
    identityEntries (write.apply deps store) = identityEntries store := by
  refine Mvcc.entries_filter_eq keyOrder_linear _ _ _ fun entryKey inside => ?_
  by_contra changed
  obtain ⟨counts, type, entryKeys, performed⟩ :=
    runCommand_performed deps write.env store write.index write.command
  obtain ⟨event, announced, rfl⟩ := announced_of_performed performed entryKey changed
  have tenant : (encodeField systemTenant).isPrefixOf event.key = true := by
    rw [List.isPrefixOf_iff_prefix] at inside ⊢
    exact (List.prefix_append _ _).trans inside
  have heard : write.watched deps store = true :=
    List.any_eq_true.mpr ⟨event, announced, tenant⟩
  rw [unwatched] at heard
  cases heard

/-- The change leaves the identity records alone, or the watcher is registered and hears of all
that the change does to them. -/
def Change.Heard (deps : Deps) (storage : NodeStorage) (change : Change) : Prop :=
  identityEntries (change.apply deps storage).store = identityEntries storage.store ∨
    storage.registered = true ∧ ∃ write, change = .operation write

theorem identityEntries_of_heard (deps : Deps) (storage : NodeStorage) (change : Change)
    (heard : change.Heard deps storage) (unwatched : ¬ change.watched deps storage = true) :
    identityEntries (change.apply deps storage).store = identityEntries storage.store := by
  rcases heard with same | ⟨registered, write, rfl⟩
  · exact same
  · refine identityEntries_of_unwatched deps storage.store write ?_
    rw [Change.watched, registered, Bool.true_and] at unwatched
    exact Bool.eq_false_iff.mpr unwatched

/-- Every change so far was heard of. -/
def AllHeard {Id : Type} (deps : Deps) (decoder : Decoder) (store : Store) (state : NodeState Id) :
    Prop :=
  ∀ (position : Nat) (change : Change), state.writes[position]? = some change →
    change.Heard deps (storageAt deps decoder store state position)

/-- No engine call of a rebuild fails, and its clock is one of the given readings. -/
def Calm (During : Int64 → Prop) (env : Env) : Prop :=
  (∀ step, env.fault step = none) ∧ During env.now

/-- In every state that calm rebuilds lead to, when no event is on its way and no rebuild is
running, the flag is raised or the stored view is the one that a rebuild would compile, when every
change of the identity records was heard of and none of the records stored now has expired or come
back since a rebuild. -/
theorem policy_follows_store {Id : Type} [DecidableEq Id] (deps : Deps) (decoder : Decoder)
    (store : Store) (During : Int64 → Prop) (state : NodeState Id)
    (reached : state.Reached ((nodeScheme deps decoder store).restrict (Calm During)))
    (heard : AllHeard deps decoder store state) (now : Int64)
    (steady : ∀ clock, During clock →
      ∀ entry ∈ identityEntries (storageAt deps decoder store state state.writes.length).store,
        deps.isExpired clock (deps.decodeEnvelope entry.2.value).expiresAt =
          deps.isExpired now (deps.decodeEnvelope entry.2.value).expiresAt)
    (delivered : Delivered deps decoder store state) (idle : Idle state) :
    Follows deps decoder store state now := by
  have sound := DirtyFlag.State.sound_of_reached reached
  by_cases dirty : state.dirty = true
  · exact Or.inl dirty
  right
  have told := DirtyFlag.State.told_le_version sound dirty idle
  obtain ⟨⟨env, calm, during⟩, compiled⟩ := sound.compiled
  have healthy : env = .healthy env.now := env.eq_healthy calm
  have sameEntries : identityEntries
      (storageAt deps decoder store state state.writes.length).store =
        identityEntries (storageAt deps decoder store state state.version).store := by
    refine (nodeScheme deps decoder store).observe_sourceAt
      (fun storage => identityEntries storage.store) state.writes state.version ?_ _ sound.version
    intro position change after written
    refine identityEntries_of_heard deps _ change (heard position change written) fun watched => ?_
    exact absurd (delivered position change written watched) (by omega)
  have built : rebuild deps decoder (.healthy env.now)
      (storageAt deps decoder store state state.version).store = .view state.view := by
    rw [← healthy]
    exact compiled
  have sameRecords : (identityEntries
      (storageAt deps decoder store state state.writes.length).store).filterMap
        (sentRecord deps now false) =
      (identityEntries (storageAt deps decoder store state state.writes.length).store).filterMap
        (sentRecord deps env.now false) := by
    refine List.filterMap_congr fun entry member => ?_
    unfold sentRecord
    rw [steady env.now during entry member]
  rw [rebuild_healthy, ← sameEntries] at built
  rw [rebuild_healthy, sameRecords, built]

/-! ### A revoked grant, again -/

/-- The watcher is registered, then the grant is revoked; a request has rebuilt the view since. -/
def followingState : NodeState Unit where
  writes := [.register, .operation revocation]
  told := 2
  dirty := false
  lock := none
  view := { newSnapshot with policies := Function.update newSnapshot.policies (str "i") [] }
  version := 2
  swaps := 1
  readers _ := some ⟨.loading, 0, 2⟩

/-- A rebuild at a clock reading. -/
def calmAt (now : Int64) : {env // Calm (fun _ => True) env} :=
  ⟨.healthy now, fun _ => rfl, trivial⟩

/-- The service of the sample with rebuilds in which no engine call fails. -/
def calmScheme : DirtyFlag.Scheme NodeStorage Change Snapshot {env // Calm (fun _ => True) env} :=
  (nodeScheme Reference.deps sampleDecoder grantingStore).restrict (Calm fun _ => True)

theorem followingState_reached : followingState.Reached calmScheme := by
  have compiled : calmScheme.compile (calmAt 100) calmScheme.initial = .view grantingView :=
    grantingView_compiled
  exact .step (.unlock ())
    (.step (.publish ())
      (.step (.compile () (calmAt 210))
        (.step (.acquire ())
          (.step (.swap ())
            (.step (.callback 1)
              (.step (.commit (.operation revocation))
                (.step (.commit .register) (.start compiled) trivial rfl)
                trivial rfl)
              trivial rfl)
            trivial rfl)
          trivial rfl)
        ⟨_, rfl⟩ rfl)
      trivial rfl)
    trivial rfl

/-- The identity records after the revocation never expire. -/
theorem revoked_steady (first second : Int64) :
    ∀ entry ∈ identityEntries (revocation.apply Reference.deps grantingStore),
      Reference.deps.isExpired first (Reference.deps.decodeEnvelope entry.2.value).expiresAt =
        Reference.deps.isExpired second
          (Reference.deps.decodeEnvelope entry.2.value).expiresAt := by
  intro entry member
  rw [identityEntries, revoked_entries, List.mem_singleton] at member
  have endless : (Reference.deps.decodeEnvelope revokedItem.value).expiresAt = 0 :=
    congrArg Envelope.expiresAt (Reference.lawful.envelope 2 0 _)
  rw [member, endless, Reference.lawful.neverExpires, Reference.lawful.neverExpires]

theorem policy_follows_store_sample :
    rebuild Reference.deps sampleDecoder (.healthy 300)
      (revocation.apply Reference.deps grantingStore) = .view followingState.view := by
  have heard : AllHeard Reference.deps sampleDecoder grantingStore followingState := by
    intro position change written
    match position, written with
    | 0, written =>
      obtain rfl := Option.some.inj written
      exact Or.inl rfl
    | 1, written =>
      obtain rfl := Option.some.inj written
      exact Or.inr ⟨rfl, revocation, rfl⟩
  have delivered : Delivered Reference.deps sampleDecoder grantingStore followingState := by
    intro position change written _
    exact (List.getElem?_eq_some_iff.mp written).1
  have idle : Idle followingState := by
    intro id request found rebuilding
    obtain rfl := Option.some.inj found
    exact rebuilding
  exact (policy_follows_store Reference.deps sampleDecoder grantingStore (fun _ => True)
    followingState followingState_reached heard 300 (fun clock _ => revoked_steady clock 300)
    delivered idle).resolve_left Bool.false_ne_true

/-- The node after some changes that no callback and no request has followed. -/
def unheardState (changes : List Change) : NodeState Unit :=
  { (DirtyFlag.State.start grantingView : NodeState Unit) with writes := changes }

theorem unheardState_reached (changes : List Change) : DirtyFlag.State.Reached
    (nodeScheme Reference.deps sampleDecoder grantingStore) (unheardState changes) := by
  induction changes using List.reverseRecOn with
  | nil => exact .start grantingView_compiled
  | append_singleton front change inductionHypothesis =>
    exact .step (.commit change) inductionHypothesis trivial rfl

/-- After changes that revoke the grant, the view from before them is not the one that a rebuild
would compile. -/
theorem not_follows_of_revoked (changes : List Change) (now : Int64)
    (revoked : identityEntries (storageAt Reference.deps sampleDecoder grantingStore
        (unheardState changes) changes.length).store =
      identityEntries (revocation.apply Reference.deps grantingStore)) :
    ¬ Follows Reference.deps sampleDecoder grantingStore (unheardState changes) now := by
  rintro (dirty | follows)
  · exact Bool.false_ne_true dirty
  · have compiled : rebuild Reference.deps sampleDecoder (.healthy now)
        (revocation.apply Reference.deps grantingStore) = .view grantingView := by
      rw [rebuild_healthy, ← revoked, ← rebuild_healthy]
      exact follows
    exact absurd (revoked_denies _ _ compiled) (by decide +kernel)

/-- The dump of a node on which the grant is revoked. -/
def revokedDump : Dump := Storage.backup (revocation.apply Reference.deps grantingStore) 0

/-- The view does not follow the store after the changes, at any time, although the flag is lowered,
no event is on its way and no rebuild is running. -/
def Unheard (changes : List Change) : Prop :=
  DirtyFlag.State.Reached (nodeScheme Reference.deps sampleDecoder grantingStore)
      (unheardState changes) ∧
    Delivered Reference.deps sampleDecoder grantingStore (unheardState changes) ∧
    Idle (unheardState changes) ∧
    ∀ now, ¬ Follows Reference.deps sampleDecoder grantingStore (unheardState changes) now

/-- The dump is loaded when the watcher is registered, and the grant is revoked before the watcher
is registered. -/
theorem unheard_revocation :
    Unheard [.register, .load revokedDump] ∧ Unheard [.operation revocation, .register] := by
  refine ⟨⟨unheardState_reached _, ?_, fun id request found => (nomatch found),
      fun now => not_follows_of_revoked _ now ?_⟩,
    ⟨unheardState_reached _, ?_, fun id request found => (nomatch found),
      fun now => not_follows_of_revoked _ now rfl⟩⟩
  · intro position change written watched
    match position, written with
    | 0, written | 1, written =>
      obtain rfl := Option.some.inj written
      cases watched
  · show identityEntries (Storage.load grantingStore revokedDump) = _
    decide +kernel
  · intro position change written watched
    match position, written with
    | 0, written | 1, written =>
      obtain rfl := Option.some.inj written
      cases watched

end PolicyService

end ConsensusDB
