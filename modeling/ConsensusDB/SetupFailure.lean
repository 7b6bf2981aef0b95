/-
This file is about bootstraps that fail, in `pkg/console/setup.go`. The record of
the user comes first and the binding to the administrator's role second, as two
writes. A request that ends between them leaves a user without the role, and from
then on every request is refused because a user exists.

Otherwise a failure does no harm. A run that breaks off no grant before there is an
administrator is, whenever no request is on its way, back at the store it began
with or at one with an administrator; and from the first of these a request in which
nothing fails creates its administrator.
-/

import ConsensusDB.Setup

namespace ConsensusDB

open Wire Iam

namespace Setup

/-! ### What a grant rests on -/

def Administered (deps : Deps) (decoder : Decoder) (store : Store) : Prop :=
  ∃ username, Administers deps decoder store username

/-- A policy that binds a stored user. -/
def Grants (deps : Deps) (decoder : Decoder) (store : Store) (username raw : Bytes) : Prop :=
  Stored deps store username ∧ raw ≠ [] ∧
    ∃ policy, decoder.policy raw = some policy ∧ Binds policy username

/-- What a request has behind it in the store. -/
def Phase.Backed (deps : Deps) (decoder : Decoder) (store : Store) : Phase → Prop
  | .reading username => Stored deps store username
  | .binding username raw => Grants deps decoder store username raw
  | .marking _ => Administered deps decoder store
  | _ => True

def Write.Backed (deps : Deps) (decoder : Decoder) (store : Store) : Write → Prop
  | .user _ _ => True
  | .policy raw => ∃ username, Grants deps decoder store username raw
  | .genesis _ => Administered deps decoder store

/-- A store keeps the users of another one, and that there is an administrator. -/
structure Grows (deps : Deps) (decoder : Decoder) (store next : Store) : Prop where
  stored : ∀ username, Stored deps store username → Stored deps next username
  administered : Administered deps decoder store → Administered deps decoder next

section

variable {deps : Deps} {decoder : Decoder} {store next : Store}

theorem Grows.refl : Grows deps decoder store store := ⟨fun _ => id, id⟩

theorem Grants.grows {username raw : Bytes} (grants : Grants deps decoder store username raw)
    (grows : Grows deps decoder store next) : Grants deps decoder next username raw :=
  ⟨grows.stored username grants.1, grants.2⟩

theorem Phase.Backed.grows {phase : Phase} (backed : phase.Backed deps decoder store)
    (grows : Grows deps decoder store next) : phase.Backed deps decoder next := by
  cases phase with
  | reading username => exact grows.stored username backed
  | binding username raw => exact Grants.grows backed grows
  | marking username => exact grows.administered backed
  | checking body => trivial
  | scanning body => trivial
  | creating username raw => trivial
  | finishing username => trivial
  | answered answer => trivial
  | gone => trivial

theorem Write.Backed.grows {write : Write} (backed : write.Backed deps decoder store)
    (grows : Grows deps decoder store next) : write.Backed deps decoder next := by
  cases write with
  | user username raw => trivial
  | policy raw =>
    obtain ⟨username, grants⟩ := backed
    exact ⟨username, grants.grows grows⟩
  | genesis raw => exact grows.administered backed

end

theorem policy_ne_genesis : bindingMinor [] [] ≠ genesisMinor := by decide

section

variable (deps : Deps) (lawful : deps.Lawful) (decoder : Decoder) (input : Input) (store : Store)

include lawful

/-- A write of another record leaves an administrator. -/
theorem administers_written (write : Write) (other : bindingMinor [] [] ≠ write.minor)
    (username : Bytes) (administers : Administers deps decoder store username) :
    Administers deps decoder (written deps input store write) username := by
  obtain ⟨stored, record, policy, found, facts⟩ := administers
  refine ⟨stored_written deps lawful input store write username stored, record, policy, ?_, facts⟩
  rw [records_of_other deps lawful input store write _ other, found]

/-- A grant that is written makes its user an administrator. -/
theorem administers_of_updated (username raw : Bytes)
    (grants : Grants deps decoder store username raw)
    (updated : (Storage.put deps input.env store (Write.policy raw).request input.index).1 =
      .ok ⟨true⟩) :
    Administers deps decoder (written deps input store (.policy raw)) username := by
  obtain ⟨stored, nonempty, policy, decoded, binds⟩ := grants
  rcases write_cases deps lawful input store (.policy raw) with
    ⟨_, refused⟩ | ⟨_, _, _, record, value, endless, _, records⟩
  · exact absurd updated refused
  refine ⟨stored_written deps lawful input store (.policy raw) username stored, record, policy, ?_,
    endless, ?_, ?_, binds⟩
  · rw [records]
    exact Function.update_self _ _ _
  · rw [value]
    exact nonempty
  · rw [value]
    exact decoded

theorem grows_written (write : Write) (backed : write.Backed deps decoder store) :
    Grows deps decoder store (written deps input store write) := by
  refine ⟨stored_written deps lawful input store write, ?_⟩
  rintro ⟨username, administers⟩
  cases write with
  | user name raw =>
    refine ⟨username, administers_written deps lawful decoder input store _ ?_ username administers⟩
    intro same
    have isUser : ∃ raw, Write.policy [] = .user name raw := eq_user_of_minor same
    obtain ⟨_, isUser⟩ := isUser
    cases isUser
  | genesis raw =>
    exact ⟨username, administers_written deps lawful decoder input store (.genesis raw)
      policy_ne_genesis username administers⟩
  | policy raw =>
    -- The written policy may drop the user it found, but it binds one that is stored.
    obtain ⟨granted, grants⟩ := backed
    rcases write_cases deps lawful input store (.policy raw) with ⟨same, _⟩ | ⟨updated, _⟩
    · rw [same]
      exact ⟨username, administers⟩
    · exact ⟨granted,
        administers_of_updated deps lawful decoder input store granted raw grants updated⟩

end

/-- The policy that a bootstrap writes binds its user. -/
theorem binds_applyBinding (order : Console.MapOrder) (bindings : List Binding)
    (username : Bytes) :
    Binds ⟨Console.applyBinding order bindings roleAdmin [principalUser username] true⟩ username :=
  Console.exists_applyBinding order bindings roleAdmin (principalUser username)
    (List.cons_ne_nil _ _)

/-- A put without a condition is not refused by one. -/
theorem updated_of_ok (deps : Deps) (env : Env) (store : Store) (raw : Bytes) (index : UInt64)
    (status : Status)
    (answered : (Storage.put deps env store (Write.policy raw).request index).1 = .ok status) :
    (Storage.put deps env store (Write.policy raw).request index).1 = .ok ⟨true⟩ := by
  rw [answered]
  unfold Storage.put at answered
  simp only [Write.request, casRefuses, Write.createOnly, Bool.false_and] at answered
  split at answered
  · cases answered
  · rw [if_neg Bool.false_ne_true] at answered
    unfold Store.commit at answered
    split at answered
    · cases answered
    · cases answered
    · exact answered.symm ▸ rfl

/-! ### Runs that break off no grant -/

/-- The request has created its user and has not bound it yet. -/
def Phase.isGranting : Phase → Bool
  | .reading _ => true
  | .binding _ _ => true
  | _ => false

/-- A request that grants reads the policy and gets it, and writes the policy and learns that it has
been written. -/
def Phase.Unbroken (deps : Deps) (input : Input) (store : Store) : Phase → Prop
  | .reading _ => ∃ record,
    Storage.get deps input.env store { key := some (key (bindingMinor [] [])) } = .ok record
  | .binding _ raw => input.fate = .replied ∧ ∃ status,
    (Storage.put deps input.env store (Write.policy raw).request input.index).1 = .ok status
  | _ => True

/-- The step breaks off no grant and creates no user for a request that has ended, or there is an
administrator already. -/
def Unbroken {Id : Type} (deps : Deps) (decoder : Decoder) (step : Step Id) (state : State Id) :
    Prop :=
  Administered deps decoder state.store ∨
    match step with
    | .start _ _ => True
    | .advance id input => ∀ phase, state.requests id = some phase →
      phase.Unbroken deps input state.store
    | .late position input => ∀ username raw, state.pending[position]? = some (.user username raw) →
      written deps input state.store (.user username raw) = state.store
    | .crash => ∀ id phase, state.requests id = some phase → phase.isGranting = false

section

variable {Id : Type} {deps : Deps} {decoder : Decoder} {initial : Store} {state : State Id}

/-- What holds in such a run: requests and waiting writes rest on what is stored, and the store is
the one at the start unless a request is granting or there is an administrator. -/
structure Intact (deps : Deps) (decoder : Decoder) (initial : Store) (state : State Id) : Prop where
  phases : ∀ id phase, state.requests id = some phase → phase.Backed deps decoder state.store
  pending : ∀ write ∈ state.pending, write.Backed deps decoder state.store
  settled : state.store = initial ∨
    (∃ id phase, state.requests id = some phase ∧ phase.isGranting = true) ∨
    Administered deps decoder state.store

/-- What every step of a request does: it leaves the other requests, and what it leaves in the
store and among the waiting writes is backed. -/
structure Keeps (deps : Deps) (decoder : Decoder) (state next : State Id) : Prop where
  requests : next.requests = state.requests
  grows : Grows deps decoder state.store next.store
  pending : ∀ write ∈ next.pending, write.Backed deps decoder next.store

theorem Intact.keeps_self (intact : Intact deps decoder initial state) :
    Keeps deps decoder state state :=
  ⟨rfl, Grows.refl, intact.pending⟩

theorem Intact.keeps_submit (intact : Intact deps decoder initial state) (lawful : deps.Lawful)
    (input : Input) (write : Write) (backed : write.Backed deps decoder state.store) :
    Keeps deps decoder state (submit deps input write state).2 := by
  rw [submit]
  cases input.fate with
  | replied =>
    have grows := grows_written deps lawful decoder input state.store write backed
    exact ⟨rfl, grows, fun other waiting => (intact.pending other waiting).grows grows⟩
  | lost =>
    refine ⟨rfl, Grows.refl, fun other waiting => ?_⟩
    rcases List.mem_append.mp waiting with earlier | isWrite
    · exact intact.pending other earlier
    · rw [List.mem_singleton.mp isWrite]
      exact backed

/-- What a request learns of its write, and what the write leaves. -/
theorem submit_cases (lawful : deps.Lawful) (input : Input) (write : Write) (state : State Id) :
    (submit deps input write state).1 ≠ .ok ⟨true⟩ ∧
        (submit deps input write state).2.store = state.store ∨
      (submit deps input write state).1 = .ok ⟨true⟩ ∧ input.fate = .replied ∧
        (submit deps input write state).2.store = written deps input state.store write ∧
        (Storage.put deps input.env state.store write.request input.index).1 = .ok ⟨true⟩ := by
  rw [submit]
  cases input.fate with
  | lost =>
    refine Or.inl ⟨fun updated => ?_, rfl⟩
    cases updated
  | replied =>
    rcases write_cases deps lawful input state.store write with ⟨same, refused⟩ | ⟨updated, _⟩
    · exact Or.inl ⟨refused, same⟩
    · exact Or.inr ⟨updated, rfl, rfl, updated⟩

variable (deps decoder) in
/-- One step of a request, as far as failures go: it keeps what is there, it ends backed, and if it
breaks off no grant, then it was in no grant and leaves the store, or it grants, or there is an
administrator. -/
structure Advances (input : Input) (state : State Id) (phase : Phase) (next : Phase × State Id) :
    Prop where
  keeps : Keeps deps decoder state next.2
  backed : next.1.Backed deps decoder next.2.store
  settled : phase.Unbroken deps input state.store →
    phase.isGranting = false ∧ next.2.store = state.store ∨ next.1.isGranting = true ∨
      Administered deps decoder next.2.store

end

section

variable {Id : Type} {deps : Deps} {decoder : Decoder} {initial : Store} {state : State Id}
  (lawful : deps.Lawful) (codec : Codec) (readsBack : codec.toPolicyCodec.Lawful decoder)
  (input : Input) (intact : Intact deps decoder initial state)

include intact in
/-- A request that is in no grant and takes a step without a write. -/
theorem advances_idle {phase after : Phase} (granting : phase.isGranting = false)
    (backed : after.Backed deps decoder state.store) :
    Advances deps decoder input state phase (after, state) :=
  ⟨intact.keeps_self, backed, fun _ => Or.inl ⟨granting, rfl⟩⟩

include lawful intact in
theorem advances_creating (username raw : Bytes) :
    Advances deps decoder input state (.creating username raw)
      ((Phase.creating username raw).next deps decoder codec input state) := by
  have keeps := intact.keeps_submit lawful input (.user username raw) trivial
  simp only [Phase.next]
  rcases submit_cases lawful input (.user username raw) state with
    ⟨refused, same⟩ | ⟨updated, _, isStore, put⟩
  · refine ⟨keeps, ?_, fun _ => Or.inl ⟨rfl, same⟩⟩
    split
    · rename_i updated
      exact absurd updated refused
    · trivial
  · rw [updated]
    refine ⟨keeps, ?_, fun _ => Or.inr (Or.inl rfl)⟩
    show Stored deps (submit deps input (.user username raw) state).2.store username
    rw [isStore]
    exact stored_of_updated deps lawful input state.store username raw put

include readsBack intact in
theorem advances_reading (username : Bytes) (stored : Stored deps state.store username) :
    Advances deps decoder input state (.reading username)
      ((Phase.reading username).next deps decoder codec input state) := by
  simp only [Phase.next]
  cases got : Storage.get deps input.env state.store { key := some (key (bindingMinor [] [])) } with
  | error err =>
    rw [Console.grantRead, got]
    refine ⟨intact.keeps_self, trivial, ?_⟩
    rintro ⟨record, isGot⟩
    cases got.symm.trans isGot
  | ok record =>
    obtain ⟨raw, granted, nonempty, decoded⟩ := Console.grantRead_of_got deps decoder _ input.order
      input.env state.store readsBack [principalUser username] roleAdmin [] [] true record got
    rw [granted]
    exact ⟨intact.keeps_self,
      ⟨stored, nonempty, _, decoded, binds_applyBinding input.order _ username⟩,
      fun _ => Or.inr (Or.inl rfl)⟩

include lawful intact in
theorem advances_binding (username raw : Bytes)
    (grants : Grants deps decoder state.store username raw) :
    Advances deps decoder input state (.binding username raw)
      ((Phase.binding username raw).next deps decoder codec input state) := by
  have keeps := intact.keeps_submit lawful input (.policy raw) ⟨username, grants⟩
  have administered : ∀ status, (submit deps input (.policy raw) state).1 = .ok status →
      Administered deps decoder (submit deps input (.policy raw) state).2.store := by
    intro status
    rw [submit]
    cases input.fate with
    | lost =>
      intro answered
      cases answered
    | replied =>
      exact fun answered => ⟨username, administers_of_updated deps lawful decoder input state.store
        username raw grants (updated_of_ok deps _ _ _ _ status answered)⟩
  simp only [Phase.next]
  cases answered : (submit deps input (.policy raw) state).1 with
  | error err =>
    refine ⟨keeps, trivial, ?_⟩
    rintro ⟨replied, status, put⟩
    rw [submit, replied] at answered
    cases answered.symm.trans put
  | ok status =>
    have bound := administered status answered
    exact ⟨keeps, bound, fun _ => Or.inr (Or.inr bound)⟩

include lawful intact in
theorem advances_marking (username : Bytes) (administered : Administered deps decoder state.store) :
    Advances deps decoder input state (.marking username)
      ((Phase.marking username).next deps decoder codec input state) := by
  simp only [Phase.next]
  split
  · exact advances_idle input intact rfl trivial
  · rename_i raw _
    have keeps := intact.keeps_submit lawful input (.genesis raw) administered
    exact ⟨keeps, trivial, fun _ => Or.inr (Or.inr (keeps.grows.administered administered))⟩

theorem checkBody_backed (store : Store) (body : Option Body) :
    (checkBody codec input body).Backed deps decoder store := by
  unfold checkBody
  split
  · trivial
  · split
    · trivial
    · split
      · trivial
      · split <;> trivial

include lawful readsBack intact in
theorem next_advances (phase : Phase) (backed : phase.Backed deps decoder state.store) :
    Advances deps decoder input state phase (phase.next deps decoder codec input state) := by
  cases phase with
  | checking body =>
    simp only [Phase.next]
    split
    · exact advances_idle input intact rfl trivial
    · exact advances_idle input intact rfl trivial
  | scanning body =>
    simp only [Phase.next]
    split
    · exact advances_idle input intact rfl trivial
    · exact advances_idle input intact rfl trivial
    · exact advances_idle input intact rfl (checkBody_backed codec input _ body)
  | creating username raw => exact advances_creating lawful codec input intact username raw
  | reading username => exact advances_reading codec readsBack input intact username backed
  | binding username raw => exact advances_binding lawful codec input intact username raw backed
  | marking username => exact advances_marking lawful codec input intact username backed
  | finishing username => exact advances_idle input intact rfl trivial
  | answered answer => exact advances_idle input intact rfl trivial
  | gone => exact advances_idle input intact rfl trivial

end

section

variable {Id : Type} {deps : Deps} {decoder : Decoder} {initial : Store} {state : State Id}

/-- A step of a request in the run, with its phase put back among the requests. -/
theorem Intact.moved [DecidableEq Id] (intact : Intact deps decoder initial state) (input : Input)
    (id : Id) (phase : Phase) (found : state.requests id = some phase) (next : Phase × State Id)
    (advances : Advances deps decoder input state phase next)
    (unbroken : Administered deps decoder state.store ∨ phase.Unbroken deps input state.store) :
    Intact deps decoder initial (next.2.move id next.1) := by
  obtain ⟨⟨requests, grows, pending⟩, backed, settles⟩ := advances
  refine ⟨fun other after isAfter => ?_, pending, ?_⟩
  · by_cases same : other = id
    · rw [same, State.move_self] at isAfter
      obtain rfl := Option.some.inj isAfter
      exact backed
    · rw [State.move_of_ne _ _ _ same, requests] at isAfter
      exact (intact.phases other after isAfter).grows grows
  rw [State.move_store]
  have grantsSelf : next.1.isGranting = true → ∃ other after,
      (next.2.move id next.1).requests other = some after ∧ after.isGranting = true :=
    fun granting => ⟨id, next.1, State.move_self _ _ _, granting⟩
  rcases unbroken with administered | unbroken
  · exact Or.inr (Or.inr (grows.administered administered))
  rcases settles unbroken with ⟨outside, same⟩ | granting | administered
  · rcases intact.settled with isInitial | ⟨other, after, isAfter, granting⟩ | administered
    · exact Or.inl (same.trans isInitial)
    · have different : other ≠ id := by
        rintro rfl
        obtain rfl := Option.some.inj (isAfter.symm.trans found)
        exact Bool.false_ne_true (outside.symm.trans granting)
      refine Or.inr (Or.inl ⟨other, after, ?_, granting⟩)
      rw [State.move_of_ne _ _ _ different, requests, isAfter]
    · exact Or.inr (Or.inr (grows.administered administered))
  · exact Or.inr (Or.inl (grantsSelf granting))
  · exact Or.inr (Or.inr administered)

/-- A waiting write that takes effect. -/
theorem Intact.late (intact : Intact deps decoder initial state) (lawful : deps.Lawful)
    (input : Input) (position : Nat) (write : Write)
    (isWrite : state.pending[position]? = some write)
    (unbroken : Unbroken deps decoder (.late position input) state) :
    Intact deps decoder initial
      { state with
        store := written deps input state.store write
        pending := state.pending.eraseIdx position } := by
  have backed := intact.pending write (List.mem_of_getElem? isWrite)
  have grows := grows_written deps lawful decoder input state.store write backed
  refine ⟨fun id phase isPhase => (intact.phases id phase isPhase).grows grows,
    fun other waiting => (intact.pending other (List.mem_of_mem_eraseIdx waiting)).grows grows, ?_⟩
  rcases unbroken with administered | unbroken
  · exact Or.inr (Or.inr (grows.administered administered))
  rcases intact.settled with isInitial | granting | administered
  · cases write with
    | user username raw => exact Or.inl ((unbroken username raw isWrite).trans isInitial)
    | policy raw =>
      obtain ⟨username, grants⟩ := backed
      rcases write_cases deps lawful input state.store (.policy raw) with ⟨same, _⟩ | ⟨updated, _⟩
      · exact Or.inl (same.trans isInitial)
      · exact Or.inr (Or.inr ⟨username, administers_of_updated deps lawful decoder input state.store
          username raw grants updated⟩)
    | genesis raw => exact Or.inr (Or.inr (grows.administered backed))
  · exact Or.inr (Or.inl granting)
  · exact Or.inr (Or.inr (grows.administered administered))

theorem intact_act [DecidableEq Id] (lawful : deps.Lawful) (codec : Codec)
    (readsBack : codec.toPolicyCodec.Lawful decoder) (step : Step Id)
    (unbroken : Unbroken deps decoder step state) (intact : Intact deps decoder initial state) :
    Intact deps decoder initial (act deps decoder codec step state) := by
  cases step with
  | start id body =>
    simp only [act]
    split
    · rename_i unused
      refine ⟨fun other phase isPhase => ?_, intact.pending, ?_⟩
      · by_cases same : other = id
        · rw [same, State.move_self] at isPhase
          obtain rfl := Option.some.inj isPhase
          trivial
        · rw [State.move_of_ne _ _ _ same] at isPhase
          exact intact.phases other phase isPhase
      · rcases intact.settled with isInitial | ⟨other, phase, isPhase, granting⟩ | administered
        · exact Or.inl isInitial
        · refine Or.inr (Or.inl ⟨other, phase, ?_, granting⟩)
          rw [State.move_of_ne, isPhase]
          rintro rfl
          rw [unused] at isPhase
          cases isPhase
        · exact Or.inr (Or.inr administered)
    · exact intact
  | advance id input =>
    simp only [act]
    split
    · exact intact
    · rename_i phase found
      exact intact.moved input id phase found _
        (next_advances lawful codec readsBack input intact phase (intact.phases id phase found))
        (unbroken.imp_right fun unbroken => unbroken phase found)
  | late position input =>
    simp only [act]
    split
    · exact intact
    · rename_i write isWrite
      exact intact.late lawful input position write isWrite unbroken
  | crash =>
    refine ⟨fun id phase isPhase => ?_, intact.pending, ?_⟩
    · obtain ⟨before, _, rfl⟩ := Option.map_eq_some_iff.mp isPhase
      cases before <;> trivial
    · rcases unbroken with administered | unbroken
      · exact Or.inr (Or.inr administered)
      rcases intact.settled with isInitial | ⟨id, phase, isPhase, granting⟩ | administered
      · exact Or.inl isInitial
      · exact absurd granting (Bool.eq_false_iff.mp (unbroken id phase isPhase))
      · exact Or.inr (Or.inr administered)

end

/-! ### A request in which nothing fails -/

/-- A store of a cluster that has not been set up: the identity region can be scanned, and it has
neither a record of a user nor the genesis record. -/
structure Fresh (deps : Deps) (store : Store) : Prop where
  decodes : ∀ entry ∈ PolicyService.identityEntries store, decodeKey deps entry.1 ≠ none
  users : ∀ entry ∈ PolicyService.identityEntries store, ∀ key,
    decodeKey deps entry.1 = some (.ok key) → userPrefix.isPrefixOf key.minorKey = false
  genesis : store.records deps (entryKeyOf deps genesisMinor) = none

/-- The body passes the checks, and the engine takes the key of the user's record. -/
structure Body.Valid (deps : Deps) (body : Body) : Prop where
  named : body.username ≠ []
  long : 8 ≤ body.password.length
  accepted : refuseKey (entryKeyOf deps (userPrefix ++ body.username)) = none

/-- A step in which nothing fails: no engine call, no reply, and not the making of the record. -/
structure Input.Succeeds (codec : Codec) (body : Body) (input : Input) : Prop where
  healthy : ∀ step, input.env.fault step = none
  replied : input.fate = .replied
  made : ∃ hash raw, input.hash = .ok hash ∧ codec.user body.username hash input.clock = .ok raw

section

variable {deps : Deps} {store : Store}

theorem Fresh.not_initialized (fresh : Fresh deps store) (now : Int64) :
    clusterInitialized deps (.healthy now) store = false := by
  obtain ⟨reply, got, ⟨rfl, _⟩ | ⟨record, found, _⟩⟩ :=
    get_healthy_records deps now store (key genesisMinor)
  · rw [clusterInitialized, got]
    rfl
  · cases fresh.genesis.symm.trans found

theorem Fresh.no_user (fresh : Fresh deps store) (now : Int64) :
    anyUserExists deps (.healthy now) store = some false := by
  obtain ⟨sent, scanned, panicked, records⟩ :=
    PolicyService.getArea_identity_healthy deps now store
  have calm : sent.panicked = false := by
    rw [panicked, List.any_eq_false]
    intro entry member missing
    exact fresh.decodes entry member (Option.isNone_iff_eq_none.mp missing)
  rw [anyUserExists, scanned]
  simp only [calm, if_neg Bool.false_ne_true, records calm, Option.some.injEq]
  rw [List.any_eq_false]
  intro record sentRecord isUser
  obtain ⟨entry, member, isRecord⟩ := List.mem_filterMap.mp sentRecord
  unfold ConsensusDB.sentRecord at isRecord
  split at isRecord
  · rename_i key decoded
    split at isRecord
    · cases isRecord
    · obtain rfl := Option.some.inj isRecord
      exact Bool.false_ne_true ((fresh.users entry member key decoded).symm.trans isUser)
  · cases isRecord

/-- No user has a record. -/
theorem Fresh.absent (fresh : Fresh deps store) (lawful : deps.Lawful) (username : Bytes)
    (accepted : refuseKey (entryKeyOf deps (userPrefix ++ username)) = none) :
    store.records deps (entryKeyOf deps (userPrefix ++ username)) = none := by
  cases read : store.db.read (entryKeyOf deps (userPrefix ++ username)) with
  | none => rw [Store.records, read, Option.map_none]
  | some item =>
    have decoded := decodeKey_encodeKey deps lawful _ (uncut_of_accepted deps _ accepted)
    have inRegion : (entryKeyOf deps (userPrefix ++ username), item) ∈
        PolicyService.identityEntries store := by
      refine List.mem_filter.mpr ⟨(Mvcc.mem_entries keyOrder store.db _ item).mpr read, ?_⟩
      obtain ⟨rest, layout⟩ := encodeKey_front deps (key (userPrefix ++ username))
      rw [entryKeyOf, layout, ← List.append_assoc]
      exact List.isPrefixOf_iff_prefix.mpr (List.prefix_append _ _)
    have isUser : userPrefix.isPrefixOf (userPrefix ++ username) = true :=
      List.isPrefixOf_iff_prefix.mpr (List.prefix_append _ _)
    exact absurd ((fresh.users _ inRegion _ decoded).symm.trans isUser) Bool.false_ne_true

end

/-- A write whose key the engine accepts, and whose record is absent if it creates only, is carried
out. -/
theorem put_of_healthy (deps : Deps) (lawful : deps.Lawful) (now : Int64) (index : UInt64)
    (store : Store) (write : Write) (accepted : refuseKey (entryKeyOf deps write.minor) = none)
    (absent : write.createOnly = true →
      store.records deps (entryKeyOf deps write.minor) = none) :
    (Storage.put deps (.healthy now) store write.request index).1 = .ok ⟨true⟩ := by
  refine (put_accepted deps lawful now store write.request (key write.minor) rfl index accepted
    ?_).1
  rw [casRefuses, Bool.and_eq_false_iff]
  cases createOnly : write.createOnly with
  | false => exact Or.inl createOnly
  | true =>
    right
    rw [← entryKeyOf, absent createOnly]
    rfl

theorem refuseKey_policy (deps : Deps) :
    refuseKey (entryKeyOf deps (bindingMinor [] [])) = none := by
  show refuseKey (encodeField systemTenant ++ encodeField region ++
    encodeField (bindingMinor [] [])) = none
  decide

section

variable {Id : Type} [DecidableEq Id] (deps : Deps) (decoder : Decoder) (codec : Codec)

/-- A step of a request that leaves the waiting writes. -/
theorem act_advance (input : Input) (state : State Id) (id : Id) (phase after : Phase)
    (store : Store)
    (next : phase.next deps decoder codec input (state.move id phase) =
      (after, { state.move id phase with store := store })) :
    act deps decoder codec (.advance id input) (state.move id phase) =
      State.move { state with store := store } id after := by
  simp only [act, State.move_self, next]
  simp only [State.move, Function.update_idem]

variable (lawful : deps.Lawful) (readsBack : codec.toPolicyCodec.Lawful decoder) (body : Body)
  (valid : body.Valid deps) (input : Input) (succeeds : input.Succeeds codec body)
  (state : State Id) (id : Id)

include succeeds in
theorem act_checking (fresh : Fresh deps state.store) :
    act deps decoder codec (.advance id input) (state.move id (.checking (some body))) =
      state.move id (.scanning (some body)) := by
  refine act_advance deps decoder codec input state id _ _ state.store ?_
  rw [Phase.next, Env.eq_healthy input.env succeeds.healthy]
  rw [if_neg (Bool.not_eq_true _ ▸ fresh.not_initialized input.env.now)]
  rfl

include succeeds valid in
theorem act_scanning (fresh : Fresh deps state.store) :
    ∃ raw, act deps decoder codec (.advance id input) (state.move id (.scanning (some body))) =
      state.move id (.creating body.username raw) := by
  obtain ⟨hash, raw, hashed, encoded⟩ := succeeds.made
  refine ⟨raw, act_advance deps decoder codec input state id _ _ state.store ?_⟩
  rw [Phase.next, Env.eq_healthy input.env succeeds.healthy]
  simp only [State.move_store, fresh.no_user, checkBody, hashed, encoded]
  rw [if_neg]
  · rfl
  · rintro (unnamed | short)
    · exact valid.named unnamed
    · exact Nat.not_lt.mpr valid.long short

include lawful succeeds valid in
theorem act_creating (fresh : Fresh deps state.store) (raw : Bytes) :
    ∃ store, act deps decoder codec (.advance id input)
        (state.move id (.creating body.username raw)) =
      State.move { state with store := store } id (.reading body.username) ∧
      Stored deps store body.username := by
  have updated : (Storage.put deps input.env state.store
      (Write.user body.username raw).request input.index).1 = .ok ⟨true⟩ := by
    rw [Env.eq_healthy input.env succeeds.healthy]
    exact put_of_healthy deps lawful input.env.now input.index state.store
      (.user body.username raw) valid.accepted fun _ => fresh.absent lawful _ valid.accepted
  refine ⟨written deps input state.store (.user body.username raw),
    act_advance deps decoder codec input state id _ _ _ ?_,
    stored_of_updated deps lawful input state.store body.username raw updated⟩
  simp only [Phase.next, submit, succeeds.replied, State.move_store, updated]
  rfl

include succeeds readsBack in
theorem act_reading (stored : Stored deps state.store body.username) :
    ∃ raw, act deps decoder codec (.advance id input) (state.move id (.reading body.username)) =
      state.move id (.binding body.username raw) ∧
      Grants deps decoder state.store body.username raw := by
  obtain ⟨record, got, _⟩ :=
    get_healthy_records deps input.env.now state.store (key (bindingMinor [] []))
  rw [← Env.eq_healthy input.env succeeds.healthy] at got
  obtain ⟨raw, granted, nonempty, decoded⟩ := Console.grantRead_of_got deps decoder _ input.order
    input.env state.store readsBack [principalUser body.username] roleAdmin [] [] true record got
  refine ⟨raw, act_advance deps decoder codec input state id _ _ state.store ?_, stored, nonempty,
    _, decoded, binds_applyBinding input.order _ body.username⟩
  simp only [Phase.next, State.move_store, granted]
  rfl

include lawful succeeds in
theorem act_binding (raw : Bytes) (grants : Grants deps decoder state.store body.username raw) :
    ∃ store, act deps decoder codec (.advance id input)
        (state.move id (.binding body.username raw)) =
      State.move { state with store := store } id (.marking body.username) ∧
      Administers deps decoder store body.username := by
  have updated : (Storage.put deps input.env state.store (Write.policy raw).request
      input.index).1 = .ok ⟨true⟩ := by
    rw [Env.eq_healthy input.env succeeds.healthy]
    exact put_of_healthy deps lawful input.env.now input.index state.store (.policy raw)
      (refuseKey_policy deps) nofun
  refine ⟨written deps input state.store (.policy raw),
    act_advance deps decoder codec input state id _ _ _ ?_,
    administers_of_updated deps lawful decoder input state.store body.username raw grants updated⟩
  simp only [Phase.next, submit, succeeds.replied, State.move_store, updated]
  rfl

include lawful succeeds in
theorem act_marking (administers : Administers deps decoder state.store body.username) :
    ∃ store, act deps decoder codec (.advance id input) (state.move id (.marking body.username)) =
      State.move { state with store := store } id (.finishing body.username) ∧
      Administers deps decoder store body.username := by
  cases encoded : codec.genesis input.clock body.username with
  | error err =>
    refine ⟨state.store, act_advance deps decoder codec input state id _ _ _ ?_, administers⟩
    simp only [Phase.next, encoded]
    rfl
  | ok raw =>
    refine ⟨written deps input state.store (.genesis raw),
      act_advance deps decoder codec input state id _ _ _ ?_,
      administers_written deps lawful decoder input state.store (.genesis raw)
        policy_ne_genesis body.username administers⟩
    simp only [Phase.next, encoded, submit, succeeds.replied, State.move_store]
    rfl

end

section

variable {Id : Type} [DecidableEq Id]

/-- A request from its start to its answer. -/
def request (id : Id) (body : Body) (inputs : List Input) : List (Step Id) :=
  .start id (some body) :: inputs.map (.advance id)

/-- A further request with a valid body, in which nothing fails, creates an administrator. -/
def Recovers (deps : Deps) (decoder : Decoder) (codec : Codec) (state : State Id) : Prop :=
  ∀ (id : Id) (body : Body) (inputs : List Input), state.requests id = none → body.Valid deps →
    inputs.length = 7 → (∀ input ∈ inputs, input.Succeeds codec body) →
    (Replay.run (act deps decoder codec) (request id body inputs) state).requests id =
      some (.answered (.created body.username)) ∧
    ∀ now, IsAdministrator deps decoder now
      (Replay.run (act deps decoder codec) (request id body inputs) state).store body.username

theorem recovers_of_fresh (deps : Deps) (lawful : deps.Lawful) (decoder : Decoder) (codec : Codec)
    (readsBack : codec.toPolicyCodec.Lawful decoder) (state : State Id)
    (fresh : Fresh deps state.store) : Recovers deps decoder codec state := by
  intro id body inputs unused valid count succeeds
  match inputs, count with
  | [check, scan, create, read, bind, mark, finish], _ =>
    simp only [List.forall_mem_cons] at succeeds
    obtain ⟨checks, scans, creates, reads, binds, marks, _, _⟩ := succeeds
    have started : act deps decoder codec (.start id (some body)) state =
        state.move id (.checking (some body)) := by
      simp only [act, unused]
    have checked := act_checking deps decoder codec body check checks state id fresh
    obtain ⟨record, scanned⟩ :=
      act_scanning deps decoder codec body valid scan scans state id fresh
    obtain ⟨withUser, created, stored⟩ :=
      act_creating deps decoder codec lawful body valid create creates state id fresh record
    obtain ⟨policy, granting, grants⟩ := act_reading deps decoder codec readsBack body read reads
      { state with store := withUser } id stored
    obtain ⟨withPolicy, bound, administers⟩ := act_binding deps decoder codec lawful body bind binds
      { state with store := withUser } id policy grants
    obtain ⟨final, marked, administersFinal⟩ := act_marking deps decoder codec lawful body mark
      marks { state with store := withPolicy } id administers
    have finished := act_advance deps decoder codec finish { state with store := final } id
      (.finishing body.username) (.answered (.created body.username)) final rfl
    have ends : Replay.run (act deps decoder codec)
        (request id body [check, scan, create, read, bind, mark, finish]) state =
          State.move { state with store := final } id (.answered (.created body.username)) := by
      simp only [request, List.map_cons, List.map_nil, Replay.run_cons, Replay.run_nil]
      rw [started, checked, scanned, created, granting, bound, marked, finished]
    rw [ends]
    exact ⟨State.move_self _ _ _,
      isAdministrator_of_administers deps lawful decoder final body.username administersFinal⟩

end

/-- A request has answered, or a crash has ended it. -/
def Phase.isDone : Phase → Bool
  | .answered _ => true
  | .gone => true
  | _ => false

theorem not_granting_of_done (phase : Phase) (done : phase.isDone = true) :
    phase.isGranting = false := by
  cases phase with
  | reading username => cases done
  | binding username raw => cases done
  | _ => rfl

/-- A failed bootstrap does not lock the cluster, if no grant is broken off before there is an
administrator: whenever no request is on its way, there is one, or a further request in which
nothing fails creates one. -/
theorem failed_bootstrap_recovers {Id : Type} [DecidableEq Id] (deps : Deps) (lawful : deps.Lawful)
    (decoder : Decoder) (codec : Codec) (readsBack : codec.toPolicyCodec.Lawful decoder)
    (store : Store) (fresh : Fresh deps store) (steps : List (Step Id))
    (meets : Replay.Meets (act deps decoder codec) (Unbroken deps decoder) steps (begin Id store))
    (ended : ∀ id phase,
      (Replay.run (act deps decoder codec) steps (begin Id store)).requests id = some phase →
        phase.isDone = true) :
    (∃ username, ∀ now, IsAdministrator deps decoder now
      (Replay.run (act deps decoder codec) steps (begin Id store)).store username) ∨
    Recovers deps decoder codec (Replay.run (act deps decoder codec) steps (begin Id store)) := by
  have start : Intact deps decoder store (begin Id store) :=
    { phases := fun _ _ found => (nomatch found)
      pending := fun _ waiting => (nomatch waiting)
      settled := Or.inl rfl }
  have final := Replay.run_invariant (act deps decoder codec) (Unbroken deps decoder)
    (Intact deps decoder store) (fun step state => intact_act lawful codec readsBack step) steps
    (begin Id store) meets start
  rcases final.settled with isInitial | ⟨id, phase, found, granting⟩ | ⟨username, administers⟩
  · right
    refine recovers_of_fresh deps lawful decoder codec readsBack _ ?_
    rw [isInitial]
    exact fresh
  · exact absurd granting (Bool.eq_false_iff.mp (not_granting_of_done phase (ended id phase found)))
  · exact Or.inl ⟨username,
      isAdministrator_of_administers deps lawful decoder _ username administers⟩

/-! ### A bootstrap that ends between its writes -/

def sampleInputs : List Input := [0, 0, 1, 0, 2, 3, 0].map (sampleInput 100)

theorem sampleInputs_succeed (username : Bytes) :
    ∀ input ∈ sampleInputs, input.Succeeds sampleCodec (sampleBody username) := by
  intro input member
  obtain ⟨index, _, rfl⟩ := List.mem_map.mp member
  exact ⟨fun _ => rfl, rfl, _, _, rfl, rfl⟩

theorem sampleBody_valid : (sampleBody (str "bob")).Valid Reference.deps :=
  ⟨by decide, by decide, by decide +kernel⟩

/-- A step in which the engine cannot commit. -/
def failingInput : Input :=
  { sampleInput 100 1 with
    env := ⟨100, fun
      | .commit => some (.external "no space")
      | _ => none⟩ }

/-- A request whose user could not be stored. -/
def failedSteps : List (Step Bool) :=
  [.start true (some (sampleBody (str "alice"))), .advance true (sampleInput 100 0),
    .advance true (sampleInput 100 0), .advance true failingInput]

/-- The step is the start of a request, or a step of one that is in no grant. -/
def Step.isQuiet {Id : Type} (state : State Id) : Step Id → Bool
  | .start _ _ => true
  | .advance id _ => (state.requests id).all fun phase => !phase.isGranting
  | .late _ _ => false
  | .crash => false

theorem unbroken_of_quiet {Id : Type} (deps : Deps) (decoder : Decoder) (step : Step Id)
    (state : State Id) (quiet : step.isQuiet state = true) : Unbroken deps decoder step state := by
  cases step with
  | start id body => exact Or.inr trivial
  | advance id input =>
    refine Or.inr fun phase found => ?_
    rw [Step.isQuiet, found] at quiet
    cases phase with
    | reading username => cases quiet
    | binding username raw => cases quiet
    | _ => trivial
  | late position input => cases quiet
  | crash => cases quiet

theorem failed_bootstrap_recovers_sample :
    (∃ username, ∀ now, IsAdministrator Reference.deps PolicyService.sampleDecoder now
      (Replay.run (act Reference.deps PolicyService.sampleDecoder sampleCodec) failedSteps
        (begin Bool Store.empty)).store username) ∨
    (Replay.run (act Reference.deps PolicyService.sampleDecoder sampleCodec)
      (failedSteps ++ request false (sampleBody (str "bob")) sampleInputs)
      (begin Bool Store.empty)).requests false = some (.answered (.created (str "bob"))) := by
  have fresh : Fresh Reference.deps Store.empty :=
    { decodes := fun _ member => (nomatch member)
      users := fun _ member => (nomatch member)
      genesis := rfl }
  have done : ∀ id, ((Replay.run (act Reference.deps PolicyService.sampleDecoder sampleCodec)
      failedSteps (begin Bool Store.empty)).requests id).all Phase.isDone = true := by
    decide +kernel
  have meets := Replay.Meets.imp (act Reference.deps PolicyService.sampleDecoder sampleCodec)
    (unbroken_of_quiet Reference.deps PolicyService.sampleDecoder) failedSteps
    (begin Bool Store.empty) (by decide +kernel)
  refine (failed_bootstrap_recovers Reference.deps Reference.lawful PolicyService.sampleDecoder
    sampleCodec PolicyService.sampleCodec_lawful Store.empty fresh failedSteps meets
    (fun id phase found => ?_)).imp_right fun recovers => ?_
  · have isDone := done id
    rw [found] at isDone
    exact isDone
  · rw [Replay.run_append]
    exact (recovers false (sampleBody (str "bob")) sampleInputs (by decide +kernel) sampleBody_valid
      rfl (sampleInputs_succeed (str "bob"))).1

/-- A request whose node crashes once the user is stored. -/
def lockingSteps : List (Step Bool) :=
  [.start true (some (sampleBody (str "alice"))), .advance true (sampleInput 100 0),
    .advance true (sampleInput 100 0), .advance true (sampleInput 100 1), .crash]

theorem not_isAdministrator_of_absent (deps : Deps) (decoder : Decoder) (store : Store)
    (absent : store.records deps (entryKeyOf deps (bindingMinor [] [])) = none) (now : Int64)
    (username : Bytes) : ¬ IsAdministrator deps decoder now store username := by
  rintro ⟨_, record, policy, got, nonempty, _⟩
  obtain ⟨reply, isReply, ⟨rfl, _⟩ | ⟨stored, found, _⟩⟩ :=
    get_healthy_records deps now store (key (bindingMinor [] []))
  · rw [isReply] at got
    cases got
    exact nonempty rfl
  · cases absent.symm.trans found

/-- No request is on its way, nobody is an administrator, and a further request is told that the
setup is complete. -/
theorem crashed_bootstrap_locks :
    (∀ id phase, (Replay.run (act Reference.deps PolicyService.sampleDecoder sampleCodec)
      lockingSteps (begin Bool Store.empty)).requests id = some phase → phase.isDone = true) ∧
    (∀ now username, ¬ IsAdministrator Reference.deps PolicyService.sampleDecoder now
      (Replay.run (act Reference.deps PolicyService.sampleDecoder sampleCodec) lockingSteps
        (begin Bool Store.empty)).store username) ∧
    (Replay.run (act Reference.deps PolicyService.sampleDecoder sampleCodec)
      (request false (sampleBody (str "bob")) sampleInputs)
      (Replay.run (act Reference.deps PolicyService.sampleDecoder sampleCodec) lockingSteps
        (begin Bool Store.empty))).requests false =
      some (.answered (.error 403 "setup already completed")) ∧
    ¬ Recovers Reference.deps PolicyService.sampleDecoder sampleCodec
      (Replay.run (act Reference.deps PolicyService.sampleDecoder sampleCodec) lockingSteps
        (begin Bool Store.empty)) := by
  have done : ∀ id, ((Replay.run (act Reference.deps PolicyService.sampleDecoder sampleCodec)
      lockingSteps (begin Bool Store.empty)).requests id).all Phase.isDone = true := by
    decide +kernel
  have refused : (Replay.run (act Reference.deps PolicyService.sampleDecoder sampleCodec)
      (request false (sampleBody (str "bob")) sampleInputs)
      (Replay.run (act Reference.deps PolicyService.sampleDecoder sampleCodec) lockingSteps
        (begin Bool Store.empty))).requests false =
      some (.answered (.error 403 "setup already completed")) := by
    decide +kernel
  refine ⟨fun id phase found => ?_,
    not_isAdministrator_of_absent Reference.deps PolicyService.sampleDecoder _ (by decide +kernel),
    refused, fun recovers => ?_⟩
  · have isDone := done id
    rw [found] at isDone
    exact isDone
  · have created := (recovers false (sampleBody (str "bob")) sampleInputs (by decide +kernel)
      sampleBody_valid rfl (sampleInputs_succeed (str "bob"))).1
    exact absurd (created.symm.trans refused) (by decide)

end Setup

end ConsensusDB
