/-
This file is about policy updates that are lost. Grants and revocations of the console,
`binding-add` of the command line and the purge of a deleted principal all read the
record of a scope and write it back as a whole, without a condition. So a write may put
back what another request has taken away between the read and the write.

In every run in which such a write finds the record as its request has read it, and in
which every request succeeds, the record is what the requests make of it when they are
executed one at a time, in the order of their writes.
-/

import ConsensusDB.Lib.Serial
import ConsensusDB.Administration

namespace ConsensusDB

open Wire Iam

namespace Administration

open Console (MapOrder applyBinding policyOf)

/-! ### What a request does to a policy record -/

/-- What is stored under a minor key. -/
def contentAt (deps : Deps) (store : Store) (minor : Bytes) : Option Bytes :=
  (recordAt deps store minor).map StoredRecord.value

/-- A record as it is read. -/
def held (value : Option Bytes) : Record := { key := none, value := value.getD [] }

/-- The bindings give the role to the member. -/
def Binds (bindings : List Binding) (role member : Bytes) : Prop :=
  ∃ binding ∈ bindings, binding.role = role ∧ member ∈ binding.members

/-- The request gives the role to the member. -/
def Request.Adds (role member : Bytes) : Request → Prop
  | .changeBinding request true => request.role = role ∧ member ∈ request.members
  | .bindingAdd request => request.role = role ∧ member ∈ request.members
  | _ => False

section

variable (codec : Codec) (order : MapOrder) (minor : Bytes)

/-- What the purge of a principal makes of a policy record. -/
def purged (principal : Bytes) : Option Bytes → Except Err (Option Bytes)
  | none => .ok none
  | some value =>
    if value = [] then .ok (some value)
    else
      match visit codec principal minor value with
      | .policy update => update.raw.map some
      | _ => .ok (some value)

/-- What a request makes of a policy record, when it is executed alone. -/
def revise (request : Request) (value : Option Bytes) : Except Err (Option Bytes) :=
  match request with
  | .changeBinding request grant =>
    if bindingMinor request.tenant request.region = minor then
      (codec.policy.encode ⟨applyBinding order
        (policyOf codec.decoder codec.policy (held value)).bindings request.role request.members
        grant⟩).map some
    else .ok value
  | .bindingAdd request =>
    if bindingMinor request.tenant request.region = minor then
      (Cli.storedPolicy codec.decoder codec.policy value).bind fun policy =>
        (codec.policy.encode
          ⟨Cli.mergeBinding request.role request.members policy.bindings⟩).map some
    else .ok value
  | .deleteUser name => purged codec minor (principalUser name) value
  | .deleteServiceAccount name => purged codec minor (principalServiceAccount name) value
  | _ => .ok value

/-- The request may turn one content of the record into another, with some order of map keys. -/
def Revises (request : Request) (before after : Option Bytes) : Prop :=
  ∃ order, revise codec order minor request before = .ok after

/-- The policy record grants the role to the member. -/
def Grants (value : Option Bytes) (role member : Bytes) : Prop :=
  ∃ raw policy, value = some raw ∧ raw ≠ [] ∧ codec.decoder.policy raw = some policy ∧
    Binds policy.bindings role member

end

theorem revise_of_deletes {request : Request} {principal target : Bytes}
    (deletes : request.deletes = some (principal, target)) (codec : Codec) (order : MapOrder)
    (minor : Bytes) (value : Option Bytes) :
    revise codec order minor request value = purged codec minor principal value := by
  cases request with
  | deleteUser name =>
    obtain ⟨rfl, _⟩ := Prod.mk.inj (Option.some.inj deletes)
    rfl
  | deleteServiceAccount name =>
    obtain ⟨rfl, _⟩ := Prod.mk.inj (Option.some.inj deletes)
    rfl
  | _ => cases deletes

/-! ### Pairs of roles and members -/

theorem binds_cons {binding : Binding} {rest : List Binding} {role member : Bytes} :
    Binds (binding :: rest) role member ↔
      binding.role = role ∧ member ∈ binding.members ∨ Binds rest role member := by
  unfold Binds
  rw [List.exists_mem_cons_iff]

theorem binds_append {first second : List Binding} {role member : Bytes} :
    Binds (first ++ second) role member ↔ Binds first role member ∨ Binds second role member := by
  unfold Binds
  constructor
  · rintro ⟨binding, isBinding, facts⟩
    exact (List.mem_append.mp isBinding).imp (⟨binding, ·, facts⟩) (⟨binding, ·, facts⟩)
  · rintro (⟨binding, isBinding, facts⟩ | ⟨binding, isBinding, facts⟩)
    · exact ⟨binding, List.mem_append_left _ isBinding, facts⟩
    · exact ⟨binding, List.mem_append_right _ isBinding, facts⟩

/-- A binding that is kept when it has members left binds these. -/
theorem binds_keysOf (order : MapOrder) (round : Nat) (names : List Bytes) (role : Bytes)
    (rest : List Binding) {other member : Bytes} :
    Binds (if order.keysOf round names = [] then rest
        else ⟨role, order.keysOf round names⟩ :: rest) other member ↔
      role = other ∧ member ∈ names ∨ Binds rest other member := by
  have sameNames : member ∈ order.keysOf round names ↔ member ∈ names :=
    (order.perm round names).mem_iff
  split
  case isTrue none =>
    rw [none] at sameNames
    exact ⟨Or.inr, fun binds => binds.resolve_left fun facts =>
      List.not_mem_nil (sameNames.mpr facts.2)⟩
  case isFalse => rw [binds_cons, sameNames]

/-- What the loop of `applyBinding` binds was bound and is not revoked, or is granted and the role
has a binding. -/
theorem binds_mergeMembers {order : MapOrder} {role : Bytes} {members : List Bytes} {grant : Bool}
    {other member : Bytes} (bindings : List Binding) (round : Nat) :
    Binds (Console.mergeMembers order role members grant round bindings) other member ↔
      Binds bindings other member ∧ (grant = false → other = role → member ∉ members) ∨
        grant = true ∧ other = role ∧ member ∈ members ∧
          ∃ binding ∈ bindings, binding.role = role := by
  induction bindings generalizing round with
  | nil => simp [Console.mergeMembers, Binds]
  | cons binding rest inductionHypothesis =>
    rw [Console.mergeMembers, binds_cons, List.exists_mem_cons_iff]
    by_cases same : binding.role = role
    · rw [if_neg (not_not_intro same), binds_keysOf, inductionHypothesis, same]
      cases grant with
      | true =>
        simp only [if_true, List.mem_eraseDups, List.mem_append]
        grind
      | false =>
        simp only [Bool.false_eq_true, if_false, List.mem_eraseDups, List.mem_filter,
          Bool.not_eq_true', List.contains_eq_mem, decide_eq_false_iff_not]
        grind
    · rw [if_pos same, binds_cons, inductionHypothesis]
      grind

/-- A new binding has no empty member. A role that has a binding already may get one. -/
theorem binds_applyBinding {order : MapOrder} {bindings : List Binding} {role : Bytes}
    {members : List Bytes} {grant : Bool} {other member : Bytes} :
    Binds (applyBinding order bindings role members grant) other member ↔
      Binds bindings other member ∧ (grant = false → other = role → member ∉ members) ∨
        grant = true ∧ other = role ∧ member ∈ members ∧
          (member ≠ [] ∨ ∃ binding ∈ bindings, binding.role = role) := by
  have isNew : ((grant && !bindings.any fun binding => decide (binding.role = role)) = true) ↔
      grant = true ∧ ¬ ∃ binding ∈ bindings, binding.role = role := by
    simp only [Bool.and_eq_true, Bool.not_eq_true', List.any_eq_false, decide_eq_true_eq,
      not_exists, not_and]
  have appended : ∀ names, Binds [⟨role, names⟩] other member ↔ role = other ∧ member ∈ names :=
    fun names => binds_cons.trans (or_iff_left fun ⟨_, isBinding, _⟩ => List.not_mem_nil isBinding)
  rw [applyBinding, binds_append, binds_mergeMembers]
  split
  case isTrue new =>
    rw [appended, Console.dedup, List.mem_eraseDups, List.mem_filter, decide_eq_true_iff]
    have fresh := isNew.mp new
    grind
  case isFalse old =>
    have absent : ¬ Binds [] other member := fun ⟨_, isBinding, _⟩ => List.not_mem_nil isBinding
    have known := mt isNew.mpr old
    grind

theorem binds_mergeBinding {role : Bytes} {members : List Bytes} {other member : Bytes}
    (bindings : List Binding) :
    Binds (Cli.mergeBinding role members bindings) other member ↔
      Binds bindings other member ∨ other = role ∧ member ∈ members := by
  induction bindings with
  | nil =>
    rw [Cli.mergeBinding, binds_cons, List.mem_eraseDups, or_comm, eq_comm]
  | cons binding rest inductionHypothesis =>
    rw [Cli.mergeBinding, binds_cons]
    split
    case isTrue same =>
      rw [binds_cons, List.mem_eraseDups, List.mem_append, same]
      grind
    case isFalse => rw [binds_cons, inductionHypothesis, or_assoc]

theorem mem_without {names : List Bytes} {name member : Bytes} :
    member ∈ without names name ↔ member ∈ names ∧ member ≠ name := by
  rw [without, List.mem_filter, decide_eq_true_iff]

/-- A purged policy binds what it bound, but for the principal. -/
theorem binds_purgedPolicy {principal : Bytes} {policy : PolicyRecord} {role member : Bytes} :
    Binds (purgedPolicy principal policy).bindings role member ↔
      Binds policy.bindings role member ∧ member ≠ principal := by
  constructor
  · rintro ⟨binding, isBinding, isRole, isMember⟩
    obtain ⟨before, isBefore, kept⟩ := List.mem_filterMap.mp isBinding
    simp only at kept
    split at kept
    · cases kept
    · obtain rfl := Option.some.inj kept
      obtain ⟨was, different⟩ := mem_without.mp isMember
      exact ⟨⟨before, isBefore, isRole, was⟩, different⟩
  · rintro ⟨⟨binding, isBinding, isRole, isMember⟩, different⟩
    have stays : member ∈ without binding.members principal := mem_without.mpr ⟨isMember, different⟩
    refine ⟨⟨binding.role, without binding.members principal⟩, ?_, isRole, stays⟩
    exact List.mem_filterMap.mpr ⟨binding, isBinding, if_neg (List.ne_nil_of_mem stays)⟩

/-! ### What a revision grants -/

/-- The record has a policy in it, unless there is none. -/
def Readable (codec : Codec) (value : Option Bytes) : Prop :=
  ∀ raw, value = some raw → raw ≠ [] ∧ ∃ policy, codec.decoder.policy raw = some policy

section

variable {codec : Codec} {minor : Bytes} {before after : Option Bytes} {role member : Bytes}

theorem grants_of_policyOf (readable : Readable codec before)
    (binds : Binds (policyOf codec.decoder codec.policy (held before)).bindings role member) :
    Grants codec before role member := by
  cases before with
  | none =>
    obtain ⟨binding, isBinding, _⟩ := binds
    cases isBinding
  | some raw =>
    obtain ⟨filled, policy, decoded⟩ := readable raw rfl
    have isPolicy : policyOf codec.decoder codec.policy (held (some raw)) = policy := by
      show (if raw = [] then _ else (codec.decoder.policy raw).getD _) = policy
      rw [if_neg filled, decoded, Option.getD_some]
    rw [isPolicy] at binds
    exact ⟨raw, policy, rfl, filled, decoded, binds⟩

theorem grants_of_storedPolicy (readable : Readable codec before) {policy : PolicyRecord}
    (stored : Cli.storedPolicy codec.decoder codec.policy before = .ok policy)
    (binds : Binds policy.bindings role member) :
    Grants codec before role member := by
  cases before with
  | none =>
    obtain rfl := Except.ok.inj stored
    obtain ⟨binding, isBinding, _⟩ := binds
    cases isBinding
  | some raw =>
    obtain ⟨filled, found, decoded⟩ := readable raw rfl
    simp only [Cli.storedPolicy, decoded] at stored
    obtain rfl := Except.ok.inj stored
    exact ⟨raw, found, rfl, filled, decoded, binds⟩

section

variable (codecLawful : codec.policy.Lawful codec.decoder)

include codecLawful

/-- A policy that is written can be read, and grants what its bindings give. -/
theorem grants_encoded {policy : PolicyRecord}
    (encoded : (codec.policy.encode policy).map some = .ok after) :
    Readable codec after ∧ ∀ role member, Grants codec after role member →
      Binds policy.bindings role member := by
  obtain ⟨raw, isRaw, filled, decoded⟩ := codecLawful policy
  rw [isRaw] at encoded
  obtain rfl : some raw = after := Except.ok.inj encoded
  refine ⟨fun other isOther => ?_, ?_⟩
  · obtain rfl := Option.some.inj isOther
    exact ⟨filled, policy, decoded⟩
  · rintro role member ⟨other, found, isOther, _, isFound, binds⟩
    obtain rfl := Option.some.inj isOther
    obtain rfl := Option.some.inj (decoded.symm.trans isFound)
    exact binds

/-- A purge gives nobody a role. -/
theorem grants_purged {principal : Bytes} (readable : Readable codec before)
    (isPurged : purged codec minor principal before = .ok after) :
    Readable codec after ∧ ∀ role member, Grants codec after role member →
      Grants codec before role member := by
  have unchanged : before = after → Readable codec after ∧ ∀ role member,
      Grants codec after role member → Grants codec before role member := by
    rintro rfl
    exact ⟨readable, fun _ _ grants => grants⟩
  cases before with
  | none => exact unchanged (Except.ok.inj isPurged)
  | some value =>
    have filled := (readable value rfl).1
    rw [purged, if_neg filled] at isPurged
    cases outcome : visit codec principal minor value with
    | policy update =>
      rw [outcome] at isPurged
      obtain ⟨_, found, isFound, rfl⟩ := visit_policy outcome
      obtain ⟨isReadable, binds⟩ := grants_encoded codecLawful isPurged
      refine ⟨isReadable, fun role member grants => ?_⟩
      have bound := (binds_purgedPolicy.mp (binds role member grants)).1
      exact ⟨value, found, rfl, filled, isFound, bound⟩
    | _ =>
      rw [outcome] at isPurged
      exact unchanged (Except.ok.inj isPurged)

/-- A request gives a role to the members it names, and to nobody else. -/
theorem grants_revised {request : Request} (readable : Readable codec before)
    (revises : Revises codec minor request before after) :
    Readable codec after ∧ ∀ role member, Grants codec after role member →
      Grants codec before role member ∨ request.Adds role member := by
  obtain ⟨order, isRevised⟩ := revises
  have unchanged : before = after → Readable codec after ∧ ∀ role member,
      Grants codec after role member → Grants codec before role member ∨
        request.Adds role member := by
    rintro rfl
    exact ⟨readable, fun _ _ grants => Or.inl grants⟩
  cases request with
  | changeBinding request grant =>
    simp only [revise] at isRevised
    split at isRevised
    · obtain ⟨isReadable, binds⟩ := grants_encoded codecLawful isRevised
      refine ⟨isReadable, fun role member grants => ?_⟩
      rcases binds_applyBinding.mp (binds role member grants) with
        ⟨bound, _⟩ | ⟨rfl, rfl, added, _⟩
      · exact Or.inl (grants_of_policyOf readable bound)
      · exact Or.inr ⟨rfl, added⟩
    · exact unchanged (Except.ok.inj isRevised)
  | bindingAdd request =>
    simp only [revise] at isRevised
    split at isRevised
    · cases stored : Cli.storedPolicy codec.decoder codec.policy before with
      | error err =>
        rw [stored] at isRevised
        cases isRevised
      | ok policy =>
        rw [stored] at isRevised
        obtain ⟨isReadable, binds⟩ := grants_encoded codecLawful isRevised
        refine ⟨isReadable, fun role member grants => ?_⟩
        rcases (binds_mergeBinding policy.bindings).mp (binds role member grants) with
          bound | ⟨rfl, added⟩
        · exact Or.inl (grants_of_storedPolicy readable stored bound)
        · exact Or.inr ⟨rfl, added⟩
    · exact unchanged (Except.ok.inj isRevised)
  | deleteUser name =>
    obtain ⟨isReadable, less⟩ := grants_purged codecLawful readable isRevised
    exact ⟨isReadable, fun role member grants => Or.inl (less role member grants)⟩
  | deleteServiceAccount name =>
    obtain ⟨isReadable, less⟩ := grants_purged codecLawful readable isRevised
    exact ⟨isReadable, fun role member grants => Or.inl (less role member grants)⟩
  | _ => exact unchanged (Except.ok.inj isRevised)

/-- A revocation takes the role from its members. -/
theorem not_grants_revoked {request : BindingRequest}
    (about : bindingMinor request.tenant request.region = minor)
    (isMember : member ∈ request.members)
    (revises : Revises codec minor (.changeBinding request false) before after) :
    Readable codec after ∧ ¬ Grants codec after request.role member := by
  obtain ⟨order, isRevised⟩ := revises
  simp only [revise, if_pos about] at isRevised
  obtain ⟨isReadable, binds⟩ := grants_encoded codecLawful isRevised
  refine ⟨isReadable, fun grants => ?_⟩
  rcases binds_applyBinding.mp (binds request.role member grants) with ⟨_, kept⟩ | ⟨isGrant, _⟩
  · exact kept rfl rfl isMember
  · cases isGrant

/-- Requests that do not name the member do not give it a role. -/
theorem not_grants_later {Id : Type} (log : List (Id × Request))
    (others : ∀ entry ∈ log, ¬ entry.2.Adds role member) (readable : Readable codec before)
    (absent : ¬ Grants codec before role member)
    (serial : Requests.Serial (Revises codec minor) log before after) :
    ¬ Grants codec after role member := by
  induction log generalizing before with
  | nil =>
    obtain rfl : before = after := serial
    exact absent
  | cons entry rest inductionHypothesis =>
    obtain ⟨between, revises, later⟩ := serial
    obtain ⟨isReadable, given⟩ := grants_revised codecLawful readable revises
    refine inductionHypothesis (fun each isEach => others each (List.mem_cons_of_mem _ isEach))
      isReadable (fun grants => ?_) later
    rcases given role member grants with already | adds
    · exact absent already
    · exact others entry List.mem_cons_self adds

/-- Among requests that are executed one at a time, a revocation is undone only by one that gives
the role to the same member. -/
theorem not_grants_serial {Id : Type} (log : List (Id × Request)) {id : Id}
    {request : BindingRequest} (about : bindingMinor request.tenant request.region = minor)
    (isMember : member ∈ request.members) (logged : (id, .changeBinding request false) ∈ log)
    (others : ∀ entry ∈ log, ¬ entry.2.Adds request.role member)
    (serial : Requests.Serial (Revises codec minor) log before after) :
    ¬ Grants codec after request.role member := by
  induction log generalizing before with
  | nil => cases logged
  | cons entry rest inductionHypothesis =>
    obtain ⟨between, revises, later⟩ := serial
    have lesser : ∀ each ∈ rest, ¬ each.2.Adds request.role member :=
      fun each isEach => others each (List.mem_cons_of_mem _ isEach)
    rcases List.mem_cons.mp logged with rfl | isLater
    · obtain ⟨isReadable, absent⟩ := not_grants_revoked codecLawful about isMember revises
      exact not_grants_later codecLawful rest lesser isReadable absent later
    · exact inductionHypothesis isLater lesser later

end

end

/-! ### Where requests are -/

/-- What the request does to the record is done. -/
def Stage.Took (minor : Bytes) : Stage → Prop
  | .answered _ => True
  | .purging _ updates => ∀ update ∈ updates, update.minor ≠ minor
  | _ => False

/-- The request has ended without success. -/
def Phase.Failed (phase : Phase) : Prop :=
  phase.stage = .gone ∨ ∃ status err, phase.stage = .answered (.error status err)

/-- The request has answered with success. -/
def Phase.Succeeded (phase : Phase) : Prop :=
  ∃ answer, phase.stage = .answered answer ∧ ∀ status err, answer ≠ .error status err

/-- What a request has in hand is what it makes of the record it has read. -/
def Ready (codec : Codec) (minor : Bytes) (phase : Phase) : Prop :=
  match phase.stage with
  | .storing target _ _ =>
    target ≠ minor ∧ ∀ value, Revises codec minor phase.request value value
  | .binding target read raw _ =>
    if target = minor then Revises codec minor phase.request read (some raw)
    else ∀ value, Revises codec minor phase.request value value
  | .purging removals updates =>
    (∀ removal ∈ removals, removal ≠ minor) ∧
      updates.Pairwise (fun first second => first.minor ≠ second.minor) ∧
      ∀ update ∈ updates, update.minor = minor → ∀ raw, update.raw = .ok raw →
        Revises codec minor phase.request (some update.read) (some raw)
  | _ => True

/-! ### Steps that nothing comes between -/

section

variable (deps : Deps) (codec : Codec) (minor : Bytes)

/-- A write of the record finds what its request has read, and a scan reads what is stored. -/
def Undisturbed (input : Input) (shared : Shared) (phase : Phase) : Prop :=
  match phase.stage with
  | .scanning => (∀ step, input.access.env.fault step = none) ∧
    contentAt deps (shared.seen input.access.age) minor = contentAt deps shared.store minor
  | .purging [] (update :: _) =>
    update.minor = minor → contentAt deps shared.store minor = some update.read
  | .binding target read _ _ => target = minor → contentAt deps shared.store minor = read
  | _ => True

/-- Others leave the identity region alone. -/
def Elsewhere (event : Event) (_ : Shared) : Prop :=
  match event with
  | .late _ _ _ => True
  | .other command _ _ => ¬ command.IsSweep ∧ ∀ named ∈ command.keys, ¬ InRegion named

/-- The keys of a store can be read, and those of the identity region are as requests write them:
without a timestamp, and with records that do not expire. -/
structure Settled (store : Store) : Prop where
  encoded : store.Encoded deps
  plain : ∀ asked record, InRegion asked →
    store.records deps (encodeKey deps asked).1 = some record →
    asked.timestamp = none ∧ record.expiresAt = 0

/-- The store and the earlier ones are settled, and no reply has been lost. -/
structure Steady (shared : Shared) : Prop where
  settled : ∀ store ∈ shared.store :: shared.past, Settled deps store
  pending : shared.pending = []

/-- What is observed: the content of the policy record. -/
def observed : Requests.Observation Shared Request Phase (Option Bytes) where
  task := Phase.request
  took phase := phase.stage.Took minor
  failed := Phase.Failed
  view shared := contentAt deps shared.store minor
  effect := Revises codec minor

end

/-! ### Stores -/

section

variable {deps : Deps} (lawful : deps.Lawful) {store : Store}

include lawful in
theorem settled_perform (settled : Settled deps store) (env : Env) (version : UInt64)
    {asked : KeyWrite} {target : Bytes} (isKey : asked.key = key target) :
    Settled deps (asked.perform deps env store version).2 := by
  refine ⟨encoded_perform deps store env version asked settled.encoded,
    fun named record inRegion found => ?_⟩
  by_cases same : named = asked.key
  · subst same
    refine ⟨by rw [isKey]; rfl, ?_⟩
    rcases KeyWrite.perform_cases deps lawful env store version asked with
      ⟨unchanged, _⟩ | ⟨_, _, _, stored⟩
    · rw [unchanged] at found
      exact (settled.plain _ record inRegion found).2
    · rw [stored, Function.update_self] at found
      cases asked with
      | put written raw condition =>
        obtain rfl := Option.some.inj found
        rfl
      | remove removed => cases found
  · rw [KeyWrite.records_perform_other deps lawful env store version asked named same] at found
    exact settled.plain named record inRegion found

include lawful in
theorem settled_other (settled : Settled deps store) (env : Env) (version : UInt64)
    (command : Command) (isNamed : ¬ command.IsSweep)
    (outside : ∀ named ∈ command.keys, ¬ InRegion named) :
    Settled deps (runCommand deps env store version command).2 := by
  refine ⟨encoded_runCommand deps env store settled.encoded version command,
    fun named record inRegion found => ?_⟩
  rw [records_of_unnamed deps lawful env store version command isNamed named
    fun member => outside named member inRegion] at found
  exact settled.plain named record inRegion found

include lawful in
/-- A write leaves the content of other records. -/
theorem contentAt_other {env : Env} {version : UInt64} {asked : KeyWrite} {target minor : Bytes}
    (isKey : asked.key = key target) (different : target ≠ minor) :
    contentAt deps (asked.perform deps env store version).2 minor = contentAt deps store minor := by
  unfold contentAt recordAt
  rw [KeyWrite.records_perform_other deps lawful env store version asked (key minor)]
  rw [isKey]
  exact fun same => different (key_inj same).symm

include lawful in
/-- A put that is carried out leaves its value. -/
theorem contentAt_own {env : Env} {version : UInt64} {minor raw : Bytes}
    {condition : Option UInt64}
    (updated : ((KeyWrite.put (key minor) raw condition).perform deps env store version).1 =
      .ok ⟨true⟩) :
    contentAt deps ((KeyWrite.put (key minor) raw condition).perform deps env store version).2
      minor = some raw := by
  rcases recordAt_perform deps lawful store env version (.put (key minor) raw condition) with
    ⟨_, silent⟩ | ⟨_, given, left⟩
  · exact absurd updated silent
  · unfold contentAt
    rw [left minor, if_pos (show KeyWrite.key _ = key minor from rfl)]
    rfl

include lawful in
/-- What a scan finds under a minor key. -/
theorem mem_scan_of_settled (settled : Settled deps store) (env : Env)
    (calm : ∀ step, env.fault step = none) :
    ∃ records, scanIAM deps env store = some (.ok records) ∧ ∀ minor value,
      (minor, value) ∈ records ↔ value ≠ [] ∧ contentAt deps store minor = some value := by
  obtain ⟨records, scanned, listed⟩ := mem_scanIAM deps lawful store settled.encoded env calm
  refine ⟨records, scanned, fun minor value => ?_⟩
  rw [listed]
  refine and_congr_right fun _ => ?_
  constructor
  · rintro ⟨⟨majorKey, regionName, minorKey, timestamp⟩, record, inRegion, rfl, found, _, rfl⟩
    obtain ⟨rfl, _⟩ := settled.plain _ record inRegion found
    obtain ⟨rfl, rfl⟩ := inRegion
    unfold contentAt recordAt key
    rw [found]
    rfl
  · intro content
    obtain ⟨record, found, rfl⟩ := Option.map_eq_some_iff.mp content
    refine ⟨key minor, record, ⟨rfl, rfl⟩, rfl, found, ?_, rfl⟩
    rw [(settled.plain (key minor) record ⟨rfl, rfl⟩ found).2]
    exact lawful.neverExpires env.now

end

/-! ### Steps -/

section

variable {deps : Deps} (lawful : deps.Lawful) {codec : Codec} {minor : Bytes}

/-- A key of another kind is not that of a policy record. -/
theorem ne_of_policy (isPolicy : policyScopeKey minor ≠ none) {other : Bytes} {letter : UInt8}
    (head : other.head? = some letter) (different : letter ≠ 112) : other ≠ minor := by
  rintro rfl
  obtain ⟨scope, isScope⟩ := Option.ne_none_iff_exists'.mp isPolicy
  exact different (Option.some.inj (head.symm.trans (head_of_policyScopeKey isScope)))

theorem failed_error (request : Request) (status : Nat) (err : Err) :
    Phase.Failed ⟨request, .answered (.error status err)⟩ :=
  Or.inr ⟨status, err, rfl⟩

/-- The value of a record that is read is its content. -/
theorem held_content {env : Env} {store : Store} {asked : Key} {record : Record}
    (got : Storage.get deps env store { key := some asked } = .ok record) :
    (held (content record)).value = record.value := by
  rcases get_records deps store got with ⟨rfl, _⟩ | ⟨_, _, _, head, _⟩
  · rfl
  · unfold held content
    rw [if_neg head]
    rfl

theorem policyOf_held {decoder : Decoder} {policy : PolicyCodec} {value : Option Bytes}
    {record : Record} (same : (held value).value = record.value) :
    policyOf decoder policy (held value) = policyOf decoder policy record := by
  unfold policyOf
  rw [same]

/-- The first step of a request fails, or leaves it with what it makes of the record. -/
theorem ready_begin (isPolicy : policyScopeKey minor ≠ none) {input : Input} {store : Store}
    {request : Request} {stage : Stage} (isFirst : Begins deps codec input store request stage) :
    Phase.Failed ⟨request, stage⟩ ∨ Ready codec minor ⟨request, stage⟩ ∧ ¬ stage.Took minor := by
  cases isFirst with
  | refused request status err => exact Or.inl (failed_error request status err)
  | user encoded => exact Or.inr ⟨trivial, fun took => took⟩
  | account encoded => exact Or.inr ⟨trivial, fun took => took⟩
  | deletion deletes => exact Or.inr ⟨trivial, fun took => took⟩
  | token encoded =>
    exact Or.inr ⟨⟨ne_of_policy isPolicy rfl (by decide : (116 : UInt8) ≠ 112),
      fun value => ⟨input.order, rfl⟩⟩, fun took => took⟩
  | registration encoded =>
    exact Or.inr ⟨⟨ne_of_policy isPolicy rfl (by decide : (99 : UInt8) ≠ 112),
      fun value => ⟨input.order, rfl⟩⟩, fun took => took⟩
  | issue encoded =>
    exact Or.inr ⟨⟨ne_of_policy isPolicy rfl (by decide : (99 : UInt8) ≠ 112),
      fun value => ⟨input.order, rfl⟩⟩, fun took => took⟩
  | change got encoded =>
    refine Or.inr ⟨?_, fun took => took⟩
    simp only [Ready]
    split
    · rename_i about
      refine ⟨input.order, ?_⟩
      simp only [revise, if_pos about, policyOf_held (held_content got), encoded]
      rfl
    · rename_i about
      exact fun value => ⟨input.order, by simp only [revise, if_neg about]⟩
  | add got stored encoded =>
    refine Or.inr ⟨?_, fun took => took⟩
    simp only [Ready]
    split
    · rename_i about
      refine ⟨input.order, ?_⟩
      simp only [revise, if_pos about, stored, Except.bind, encoded]
      rfl
    · rename_i about
      exact fun value => ⟨input.order, by simp only [revise, if_neg about]⟩

/-- Nothing is seen of a request that stays as it is. -/
theorem takes_refl (shared : Shared) (phase : Phase) :
    (observed deps codec minor).Takes shared shared phase phase :=
  Or.inl ⟨Iff.rfl, rfl⟩

include lawful in
/-- A scan that reads what is stored finds what the purge makes of the record, or that there is
nothing to do with it. -/
theorem purge_atomic (isPolicy : policyScopeKey minor ≠ none) {input : Input} {shared : Shared}
    {request : Request} {principal target : Bytes}
    (settled : Settled deps (shared.seen input.access.age))
    (calm : ∀ step, input.access.env.fault step = none)
    (current : contentAt deps (shared.seen input.access.age) minor =
      contentAt deps shared.store minor)
    (deletes : request.deletes = some (principal, target)) :
    Ready codec minor ⟨request, purgePrincipal deps codec input (shared.seen input.access.age)
        principal⟩ ∧
      (observed deps codec minor).Takes shared shared ⟨request, .scanning⟩
        ⟨request, purgePrincipal deps codec input (shared.seen input.access.age) principal⟩ := by
  obtain ⟨records, scanned, listed⟩ := mem_scan_of_settled lawful settled input.access.env calm
  have visited : ∀ update ∈ updatesOf codec principal input.order records, update.minor = minor →
      (minor, update.read) ∈ records ∧
        visit codec principal minor update.read = .policy update := by
    rintro update member rfl
    obtain ⟨isRecord, isGroup | isUpdate⟩ := visit_of_mem_updatesOf member
    · -- the record of a policy is not that of a group
      obtain ⟨begins, _⟩ := visit_group isGroup
      exact absurd rfl (ne_of_policy isPolicy
        (head_of_isPrefixOf (show groupPrefix = 103 :: _ from rfl) begins) (by decide))
    · exact ⟨isRecord, isUpdate⟩
  simp only [purgePrincipal, scanned]
  refine ⟨⟨fun removal member => ?_, updatesOf_pairwise _ _,
    fun update member about raw isRaw => ?_⟩, ?_⟩
  · obtain ⟨value, _, owned⟩ := mem_removalsOf.mp member
    rcases credential_of_owner owned with isToken | isCert
    · exact ne_of_policy isPolicy
        (head_of_isPrefixOf (show tokenIndexPrefix = 116 :: _ from rfl) isToken) (by decide)
    · exact ne_of_policy isPolicy
        (head_of_isPrefixOf (show certPrefix = 99 :: _ from rfl) isCert) (by decide)
  · obtain ⟨isRecord, isUpdate⟩ := visited update member about
    refine ⟨input.order, ?_⟩
    rw [revise_of_deletes deletes, purged, if_neg ((listed _ _).mp isRecord).1, isUpdate]
    simp only [isRaw]
    rfl
  · by_cases untouched : ∀ update ∈ updatesOf codec principal input.order records,
        update.minor ≠ minor
    · -- the scan has found nothing to do with the record
      refine Or.inr ⟨fun took => took, untouched, input.order, ?_⟩
      show revise codec input.order minor request (contentAt deps shared.store minor) =
        .ok (contentAt deps shared.store minor)
      rw [revise_of_deletes deletes, ← current]
      cases stored : contentAt deps (shared.seen input.access.age) minor with
      | none => rfl
      | some value =>
        by_cases isEmpty : value = []
        · simp only [purged, if_pos isEmpty]
        · have isRecord := (listed minor value).mpr ⟨isEmpty, stored⟩
          simp only [purged, if_neg isEmpty]
          cases outcome : visit codec principal minor value with
          | policy update =>
            obtain ⟨each, member, about⟩ := mem_updatesOf_of_policy isRecord outcome
            exact absurd about (untouched each member)
          | _ => rfl
    · exact Or.inl ⟨iff_of_false untouched fun took => took, rfl⟩

include lawful in
/-- A step that looks at the store fails, or it takes the effect of its request or none. -/
theorem look_atomic (isPolicy : policyScopeKey minor ≠ none) {input : Input} {shared : Shared}
    {phase : Phase} (undisturbed : Undisturbed deps minor input shared phase)
    (steady : Steady deps shared) (ready : Ready codec minor phase) :
    (look deps codec input (shared.seen input.access.age) phase).Failed ∨
      Ready codec minor (look deps codec input (shared.seen input.access.age) phase) ∧
        (observed deps codec minor).Takes shared shared phase
          (look deps codec input (shared.seen input.access.age) phase) := by
  obtain ⟨request, stage⟩ := phase
  cases stage with
  | start =>
    rcases ready_begin isPolicy
        (begins deps codec input (shared.seen input.access.age) request) with
      failed | ⟨isReady, untaken⟩
    · exact Or.inl failed
    · exact Or.inr ⟨isReady, Or.inl ⟨iff_of_false untaken fun took => took, rfl⟩⟩
  | scanning =>
    simp only [look]
    cases deletes : request.deletes with
    | none => exact Or.inr ⟨ready, takes_refl shared _⟩
    | some target =>
      have settled : Settled deps (shared.seen input.access.age) := by
        rcases shared.seen_mem input.access.age with isStore | isPast
        · exact isStore ▸ steady.settled _ List.mem_cons_self
        · exact steady.settled _ (List.mem_cons_of_mem _ isPast)
      exact Or.inr (purge_atomic lawful isPolicy settled undisturbed.1 undisturbed.2 deletes)
  | purging removals updates =>
    rcases removals with _ | ⟨removal, rest⟩
    · rcases updates with _ | ⟨⟨target, read, err | raw⟩, rest⟩
      · refine Or.inr ⟨trivial, Or.inl ⟨iff_of_true trivial ?_, rfl⟩⟩
        exact fun update member => absurd member List.not_mem_nil
      · exact Or.inl (failed_error _ _ _)
      · exact Or.inr ⟨ready, takes_refl shared _⟩
    · exact Or.inr ⟨ready, takes_refl shared _⟩
  | _ => exact Or.inr ⟨ready, takes_refl shared _⟩

/-- A write is about a record of the identity region, without a timestamp. -/
theorem key_of_write {phase : Phase} {asked : KeyWrite} (asks : write phase = some asked) :
    ∃ target, asked.key = key target := by
  cases asks_of_write asks <;> exact ⟨_, rfl⟩

/-- A request that waits for the status of a write ends when the write fails. -/
theorem failed_resume {phase : Phase} {asked : KeyWrite} (asks : write phase = some asked)
    (err : Err) : (resume codec phase (.error err)).Failed := by
  cases asks_of_write asks with
  | credential request target raw answer => cases request <;> exact failed_error _ _ _
  | binding request target read raw answer => cases request <;> exact failed_error _ _ _
  | _ => exact failed_error _ _ _

include lawful in
/-- A request goes on only when its write is carried out. -/
theorem failed_or_updated {phase : Phase} {asked : KeyWrite} (asks : write phase = some asked)
    (env : Env) (store : Store) (version : UInt64) :
    (resume codec phase (asked.perform deps env store version).1).Failed ∨
      (asked.perform deps env store version).1 = .ok ⟨true⟩ := by
  have unconditional := KeyWrite.perform_unconditional deps lawful env store version asked
  cases replied : (asked.perform deps env store version).1 with
  | error err => exact Or.inl (failed_resume asks err)
  | ok status =>
    obtain ⟨updated⟩ := status
    cases asks_of_write asks with
    | user username password raw =>
      cases updated with
      | false => exact Or.inl (failed_error _ _ _)
      | true => exact Or.inr rfl
    | account name token hash raw =>
      cases updated with
      | false => exact Or.inl (failed_error _ _ _)
      | true => exact Or.inr rfl
    | _ => exact Or.inr (congrArg Except.ok (unconditional rfl _ replied))

include lawful in
/-- A step that does not fail looks at the store, waits, or carries its write out. -/
theorem next_cases_of_policy (mode : Mode) (input : Input) (shared : Shared) (phase : Phase) :
    ((handler deps codec).next deps mode input shared phase).1.Failed ∨
      (handler deps codec).next deps mode input shared phase =
        (look deps codec input (shared.seen input.access.age) phase, shared) ∨
      (handler deps codec).next deps mode input shared phase = (phase, shared) ∨
      ∃ asked version, write phase = some asked ∧
        (asked.perform deps input.access.env shared.store version).1 = .ok ⟨true⟩ ∧
        (handler deps codec).next deps mode input shared phase =
          (resume codec phase (.ok ⟨true⟩),
            shared.wrote version (asked.perform deps input.access.env shared.store version).2) := by
  rcases (handler deps codec).next_cases deps mode input shared phase with
    ⟨_, looks⟩ | waits | ⟨asked, reply, after, asks, submitted, resumes⟩
  · exact Or.inr (Or.inl looks)
  · exact Or.inr (Or.inr (Or.inl waits))
  · rw [resumes]
    rcases submit_cases deps mode submitted with ⟨version, _, _, rfl, rfl⟩ | ⟨_, rfl, rfl⟩
    · rcases failed_or_updated lawful asks input.access.env shared.store version with
        failed | updated
      · exact Or.inl failed
      · refine Or.inr (Or.inr (Or.inr ⟨asked, version, asks, updated, ?_⟩))
        exact congrArg (fun reply => (resume codec phase reply, _)) updated
    · exact Or.inl (failed_resume asks _)

/-- The record of a principal is not that of a policy. -/
theorem target_ne_policy (isPolicy : policyScopeKey minor ≠ none) {request : Request}
    {principal target : Bytes} (deletes : request.deletes = some (principal, target)) :
    target ≠ minor := by
  cases request with
  | deleteUser name =>
    obtain ⟨_, rfl⟩ := Prod.mk.inj (Option.some.inj deletes)
    exact ne_of_policy isPolicy rfl (by decide : (117 : UInt8) ≠ 112)
  | deleteServiceAccount name =>
    obtain ⟨_, rfl⟩ := Prod.mk.inj (Option.some.inj deletes)
    exact ne_of_policy isPolicy rfl (by decide : (115 : UInt8) ≠ 112)
  | _ => cases deletes

/-- A request that is done without a change of the record has taken its effect, which is none. -/
theorem takes_idle {shared after : Shared} {phase next : Phase} (untaken : ¬ phase.stage.Took minor)
    (taken : next.stage.Took minor)
    (idle : ∀ value, Revises codec minor phase.request value value)
    (same : contentAt deps after.store minor = contentAt deps shared.store minor) :
    (observed deps codec minor).Takes shared after phase next := by
  refine Or.inr ⟨untaken, taken, ?_⟩
  show Revises codec minor phase.request (contentAt deps shared.store minor)
    (contentAt deps after.store minor)
  rw [same]
  exact idle _

include lawful in
/-- A step whose write is carried out fails, or it takes the effect of its request or none. -/
theorem write_atomic (isPolicy : policyScopeKey minor ≠ none) {input : Input} {shared : Shared}
    {phase : Phase} {asked : KeyWrite} (asks : write phase = some asked)
    (undisturbed : Undisturbed deps minor input shared phase) (ready : Ready codec minor phase)
    {env : Env} {version : UInt64}
    (updated : (asked.perform deps env shared.store version).1 = .ok ⟨true⟩) :
    (resume codec phase (.ok ⟨true⟩)).Failed ∨
      Ready codec minor (resume codec phase (.ok ⟨true⟩)) ∧
        (observed deps codec minor).Takes shared
          (shared.wrote version (asked.perform deps env shared.store version).2) phase
          (resume codec phase (.ok ⟨true⟩)) := by
  cases asks_of_write asks with
  | user username password raw =>
    have different : userPrefix ++ username ≠ minor :=
      ne_of_policy isPolicy rfl (by decide : (117 : UInt8) ≠ 112)
    exact Or.inr ⟨trivial, takes_idle (fun took => took) trivial
      (fun value => ⟨input.order, rfl⟩) (contentAt_other lawful rfl different)⟩
  | account name token hash raw =>
    have different : serviceAccountPrefix ++ name ≠ minor :=
      ne_of_policy isPolicy rfl (by decide : (115 : UInt8) ≠ 112)
    simp only [resume, writeTokenIndex]
    split
    · exact Or.inl (failed_error _ _ _)
    · refine Or.inr ⟨⟨ne_of_policy isPolicy rfl (by decide : (116 : UInt8) ≠ 112),
        fun value => ⟨input.order, rfl⟩⟩, Or.inl ⟨Iff.rfl, contentAt_other lawful rfl different⟩⟩
  | record request principal target deletes =>
    exact Or.inr ⟨trivial, Or.inl ⟨Iff.rfl,
      contentAt_other lawful rfl (target_ne_policy isPolicy deletes)⟩⟩
  | removal request removal rest updates =>
    obtain ⟨removals, distinct, made⟩ := ready
    refine Or.inr ⟨⟨fun each member => removals each (List.mem_cons_of_mem _ member), distinct,
      made⟩, Or.inl ⟨Iff.rfl, contentAt_other lawful rfl (removals removal List.mem_cons_self)⟩⟩
  | update request target read raw rest =>
    obtain ⟨removals, distinct, made⟩ := ready
    obtain ⟨apart, distinct⟩ := List.pairwise_cons.mp distinct
    refine Or.inr ⟨⟨removals, distinct,
      fun each member => made each (List.mem_cons_of_mem _ member)⟩, ?_⟩
    by_cases about : target = minor
    · -- the record is written, and what is left to write is about others
      subst about
      refine Or.inr ⟨fun took => took _ List.mem_cons_self rfl,
        fun each member => Ne.symm (apart each member), ?_⟩
      show Revises codec target request (contentAt deps shared.store target)
        (contentAt deps (KeyWrite.perform deps env shared.store version _).2 target)
      rw [contentAt_own lawful updated,
        show contentAt deps shared.store target = _ from undisturbed rfl]
      exact made _ List.mem_cons_self rfl raw rfl
    · refine Or.inl ⟨?_, contentAt_other lawful rfl about⟩
      constructor
      · intro took each member
        rcases List.mem_cons.mp member with rfl | later
        · exact about
        · exact took each later
      · exact fun took each member => took each (List.mem_cons_of_mem _ member)
  | credential request target raw answer =>
    exact Or.inr ⟨trivial, takes_idle (fun took => took) trivial ready.2
      (contentAt_other lawful rfl ready.1)⟩
  | binding request target read raw answer =>
    refine Or.inr ⟨trivial, ?_⟩
    by_cases about : target = minor
    · subst about
      refine Or.inr ⟨fun took => took, trivial, ?_⟩
      show Revises codec target request (contentAt deps shared.store target)
        (contentAt deps (KeyWrite.perform deps env shared.store version _).2 target)
      rw [contentAt_own lawful updated,
        show contentAt deps shared.store target = _ from undisturbed rfl]
      simp only [Ready, if_true] at ready
      exact ready
    · simp only [Ready, if_neg about] at ready
      exact takes_idle (fun took => took) trivial ready (contentAt_other lawful rfl about)

/-- The settled store of a write joins the earlier ones. -/
theorem steady_wrote {shared : Shared} (steady : Steady deps shared) (version : UInt64)
    {store : Store} (settled : Settled deps store) : Steady deps (shared.wrote version store) := by
  refine ⟨fun each member => ?_, steady.pending⟩
  rcases List.mem_cons.mp member with rfl | earlier
  · exact settled
  · exact steady.settled each earlier

include lawful in
/-- A request takes its effect on the record at one step, if nothing comes between. -/
theorem policy_atomic (isPolicy : policyScopeKey minor ≠ none) (mode : Mode) :
    ((handler deps codec).machine deps mode).Atomic (Undisturbed deps minor) Elsewhere
      (Steady deps) (Ready codec minor) (observed deps codec minor) where
  first request := ⟨trivial, fun took => took⟩
  next input shared phase undisturbed steady ready := by
    rcases next_cases_of_policy lawful mode input shared phase with
      failed | looks | waits | ⟨asked, version, asks, updated, resumes⟩
    · exact Or.inl failed
    · simp only [Handler.machine, looks]
      rcases look_atomic lawful isPolicy undisturbed steady ready with failed | ⟨isReady, takes⟩
      · exact Or.inl failed
      · exact Or.inr ⟨steady, isReady, rfl, takes⟩
    · simp only [Handler.machine, waits]
      exact Or.inr ⟨steady, ready, trivial, takes_refl shared phase⟩
    · simp only [Handler.machine, resumes]
      obtain ⟨target, isKey⟩ := key_of_write asks
      rcases write_atomic lawful isPolicy asks undisturbed ready updated with
        failed | ⟨isReady, takes⟩
      · exact Or.inl failed
      · exact Or.inr ⟨steady_wrote steady version (settled_perform lawful
          (steady.settled _ List.mem_cons_self) input.access.env version isKey), isReady, rfl,
          takes⟩
  stop phase := by
    obtain ⟨request, stage⟩ := phase
    cases stage with
    | answered answer => exact Or.inl rfl
    | _ => exact Or.inr (Or.inl rfl)
  occur event shared elsewhere steady := by
    cases event with
    | late position env index =>
      simp only [Handler.machine, Event.occur, steady.pending]
      exact ⟨steady, rfl⟩
    | other command env index =>
      simp only [Handler.machine, Event.occur]
      split
      · exact ⟨steady, rfl⟩
      · rename_i version _
        refine ⟨steady_wrote steady version (settled_other lawful
          (steady.settled _ List.mem_cons_self) env version command elsewhere.1 elsewhere.2), ?_⟩
        exact congrArg (Option.map StoredRecord.value) (recordAt_other deps lawful shared.store env
          version command elsewhere.1 elsewhere.2 minor)
  final input shared phase failed := by
    obtain ⟨request, stage⟩ := phase
    rcases failed with isGone | ⟨status, err, isError⟩
    · obtain rfl : stage = .gone := isGone
      exact Or.inl rfl
    · obtain rfl : stage = .answered (.error status err) := isError
      exact failed_error request status err

theorem Phase.Succeeded.not_failed {phase : Phase} (succeeded : phase.Succeeded) :
    ¬ phase.Failed := by
  obtain ⟨answer, isAnswer, success⟩ := succeeded
  rintro (isGone | ⟨status, err, isError⟩)
  · cases isAnswer.symm.trans isGone
  · exact success status err (Stage.answered.inj (isAnswer.symm.trans isError))

theorem Phase.Succeeded.took {phase : Phase} (succeeded : phase.Succeeded) (minor : Bytes) :
    phase.stage.Took minor := by
  obtain ⟨answer, isAnswer, _⟩ := succeeded
  rw [isAnswer]
  trivial

/-! ### A request alone -/

/-- What a request has read is what is stored. -/
def Current (deps : Deps) (minor : Bytes) (store : Store) (phase : Phase) : Prop :=
  match phase.stage with
  | .purging _ updates => ∀ update ∈ updates, update.minor = minor →
    contentAt deps store minor = some update.read
  | .binding target read _ _ => target = minor → contentAt deps store minor = read
  | _ => True

/-- A step on a healthy node that reads the current store. -/
def Input.Fresh (input : Input) : Prop :=
  input.access.age = 0 ∧ ∀ step, input.access.env.fault step = none

theorem undisturbed_of_current {input : Input} (fresh : input.Fresh) {shared : Shared}
    {phase : Phase} (current : Current deps minor shared.store phase) :
    Undisturbed deps minor input shared phase := by
  obtain ⟨request, stage⟩ := phase
  cases stage with
  | scanning =>
    refine ⟨fresh.2, ?_⟩
    rw [fresh.1, Shared.seen_zero]
  | purging removals updates =>
    rcases removals with _ | ⟨removal, rest⟩
    · rcases updates with _ | ⟨update, rest⟩
      · trivial
      · exact current update List.mem_cons_self
    · trivial
  | binding target read raw answer => exact current
  | _ => trivial

include lawful in
theorem content_of_get {store : Store} (settled : Settled deps store) {env : Env} {target : Bytes}
    {record : Record} (got : Storage.get deps env store { key := some (key target) } = .ok record) :
    content record = contentAt deps store target := by
  rcases get_records deps store got with ⟨rfl, expired⟩ | ⟨stored, found, _, head, value⟩
  · have absent : recordAt deps store target = none := by
      refine Option.eq_none_iff_forall_ne_some.mpr fun stored found => ?_
      have gone := expired stored found
      rw [(settled.plain (key target) stored ⟨rfl, rfl⟩ found).2, lawful.neverExpires] at gone
      cases gone
    rw [contentAt, absent]
    rfl
  · rw [content, if_neg head, contentAt, recordAt, found, value]
    rfl

include lawful in
theorem current_begin {input : Input} {store : Store} (settled : Settled deps store)
    {request : Request} {stage : Stage} (isFirst : Begins deps codec input store request stage) :
    Current deps minor store ⟨request, stage⟩ := by
  cases isFirst with
  | change got encoded =>
    rintro rfl
    exact (content_of_get lawful settled got).symm
  | add got stored encoded =>
    rintro rfl
    exact (content_of_get lawful settled got).symm
  | _ => trivial

include lawful in
theorem current_look {input : Input} (calm : ∀ step, input.access.env.fault step = none)
    {store : Store} (settled : Settled deps store) {phase : Phase}
    (current : Current deps minor store phase) :
    Current deps minor store (look deps codec input store phase) := by
  obtain ⟨request, stage⟩ := phase
  cases stage with
  | start => exact current_begin lawful settled (begins deps codec input store request)
  | scanning =>
    simp only [look]
    cases deletes : request.deletes with
    | none => trivial
    | some target =>
      obtain ⟨records, scanned, listed⟩ := mem_scan_of_settled lawful settled input.access.env calm
      simp only [purgePrincipal, scanned]
      rintro update member rfl
      exact ((listed _ _).mp (visit_of_mem_updatesOf member).1).2
  | purging removals updates =>
    rcases removals with _ | ⟨removal, rest⟩
    · rcases updates with _ | ⟨⟨target, read, err | raw⟩, rest⟩
      · trivial
      · trivial
      · exact current
    · exact current
  | binding target read raw answer => exact current
  | _ => trivial

include lawful in
theorem current_write {phase : Phase} {asked : KeyWrite} (asks : write phase = some asked)
    {store : Store} (ready : Ready codec minor phase) (current : Current deps minor store phase)
    (env : Env) (version : UInt64) :
    Current deps minor (asked.perform deps env store version).2
      (resume codec phase (.ok ⟨true⟩)) := by
  cases asks_of_write asks with
  | account name token hash raw =>
    simp only [resume, writeTokenIndex]
    split <;> trivial
  | removal request removal rest updates =>
    intro update member about
    rw [contentAt_other lawful rfl (ready.1 removal List.mem_cons_self)]
    exact current update member about
  | update request target read raw rest =>
    intro update member about
    have apart := (List.pairwise_cons.mp ready.2.1).1 update member
    rw [contentAt_other lawful rfl fun same => apart (same.trans about.symm)]
    exact current update (List.mem_cons_of_mem _ member) about
  | _ => trivial

include lawful in
/-- What a request has read stays what is stored, while it is alone. -/
theorem current_next (mode : Mode) {input : Input} (fresh : input.Fresh) {shared : Shared}
    (settled : Settled deps shared.store) {phase : Phase} (ready : Ready codec minor phase)
    (current : Current deps minor shared.store phase) :
    ((handler deps codec).next deps mode input shared phase).1.Failed ∨
      Current deps minor ((handler deps codec).next deps mode input shared phase).2.store
        ((handler deps codec).next deps mode input shared phase).1 := by
  rcases next_cases_of_policy lawful mode input shared phase with
    failed | looks | waits | ⟨asked, version, asks, _, resumes⟩
  · exact Or.inl failed
  · rw [looks, show input.access.age = 0 from fresh.1, Shared.seen_zero]
    exact Or.inr (current_look lawful fresh.2 settled current)
  · rw [waits]
    exact Or.inr current
  · rw [resumes]
    exact Or.inr (current_write lawful asks ready current _ version)

theorem steady_fresh {store : Store} (settled : Settled deps store) :
    Steady deps (.fresh store) := by
  refine ⟨fun each member => ?_, rfl⟩
  obtain rfl := List.mem_singleton.mp member
  exact settled

/-- One step of a request that is executed alone. -/
def proceed (deps : Deps) (codec : Codec) (mode : Mode) (input : Input) (state : Phase × Shared) :
    Phase × Shared :=
  (handler deps codec).next deps mode input state.2 state.1

/-- A request that is alone has failed; or what it has read is what is stored, and the record is as
it was before, until the request has taken its effect. -/
def Proceeds (deps : Deps) (codec : Codec) (minor : Bytes) (request : Request)
    (initial : Option Bytes) (state : Phase × Shared) : Prop :=
  state.1.Failed ∨ Steady deps state.2 ∧ Ready codec minor state.1 ∧
    Current deps minor state.2.store state.1 ∧ state.1.request = request ∧
    (¬ state.1.stage.Took minor ∧ contentAt deps state.2.store minor = initial ∨
      state.1.stage.Took minor ∧
        Revises codec minor request initial (contentAt deps state.2.store minor))

include lawful in
theorem proceeds_proceed (isPolicy : policyScopeKey minor ≠ none) (mode : Mode) {request : Request}
    {initial : Option Bytes} {input : Input} (fresh : input.Fresh) {state : Phase × Shared}
    (proceeds : Proceeds deps codec minor request initial state) :
    Proceeds deps codec minor request initial (proceed deps codec mode input state) := by
  have atomic : ((handler deps codec).machine deps mode).Atomic (Undisturbed deps minor) Elsewhere
      (Steady deps) (Ready codec minor) (observed deps codec minor) :=
    policy_atomic lawful isPolicy mode
  obtain ⟨phase, shared⟩ := state
  rcases proceeds with failed | ⟨steady, ready, current, rfl, progress⟩
  · exact Or.inl (atomic.final input shared phase failed)
  · rcases atomic.next input shared phase (undisturbed_of_current fresh current) steady ready with
      failed | ⟨isSteady, isReady, task, takes⟩
    · exact Or.inl failed
    · rcases current_next lawful mode fresh (steady.settled _ List.mem_cons_self) ready current with
        failed | isCurrent
      · exact Or.inl failed
      · refine Or.inr ⟨isSteady, isReady, isCurrent, task, ?_⟩
        rcases takes with ⟨took, same⟩ | ⟨untaken, taken, effect⟩
        · rcases progress with ⟨untaken, isInitial⟩ | ⟨taken, revises⟩
          · exact Or.inl ⟨fun taken => untaken (took.mp taken), same.trans isInitial⟩
          · rw [← show contentAt deps (proceed deps codec mode input (phase, shared)).2.store
              minor = contentAt deps shared.store minor from same] at revises
            exact Or.inr ⟨took.mpr taken, revises⟩
        · rcases progress with ⟨_, rfl⟩ | ⟨already, _⟩
          · exact Or.inr ⟨taken, effect⟩
          · exact absurd already untaken

include lawful in
/-- A request that is executed alone, on healthy nodes that read the current store, makes of the
record what `revise` says. -/
theorem revises_of_alone (isPolicy : policyScopeKey minor ≠ none) (mode : Mode) {store : Store}
    (settled : Settled deps store) (request : Request) (inputs : List Input)
    (fresh : ∀ input ∈ inputs, input.Fresh) {phase : Phase} {shared : Shared}
    (executed : Replay.run (proceed deps codec mode) inputs (⟨request, .start⟩, .fresh store) =
      (phase, shared)) (succeeded : phase.Succeeded) :
    Revises codec minor request (contentAt deps store minor)
      (contentAt deps shared.store minor) := by
  have proceeds := Replay.run_invariant (proceed deps codec mode) (fun input _ => input.Fresh)
    (Proceeds deps codec minor request (contentAt deps store minor))
    (fun input state isFresh proceeds => proceeds_proceed lawful isPolicy mode isFresh proceeds)
    inputs (⟨request, .start⟩, .fresh store)
    (Replay.Meets.of_forall _ _ _ fun input member _ => fresh input member)
    (Or.inr ⟨steady_fresh settled, trivial, trivial, rfl, Or.inl ⟨fun took => took, rfl⟩⟩)
  rw [executed] at proceeds
  rcases proceeds with failed | ⟨_, _, _, _, ⟨untaken, _⟩ | ⟨_, revises⟩⟩
  · exact absurd failed succeeded.not_failed
  · exact absurd (succeeded.took minor) untaken
  · exact revises

end

/-! ### Requests in any order -/

/-- The record grants the roles that it grants when the requests are executed one at a time, in some
order. -/
def Serializable {Id : Type} (deps : Deps) (codec : Codec) (minor : Bytes) (initial : Option Bytes)
    (final : Requests.State Id Shared Phase) : Prop :=
  ∃ (log : List (Id × Request)) (value : Option Bytes), (log.map Prod.fst).Nodup ∧
    (∀ id request, (id, request) ∈ log ↔
      ∃ phase, final.phases id = some phase ∧ phase.request = request) ∧
    Requests.Serial (Revises codec minor) log initial value ∧
    ∀ role member, Grants codec (contentAt deps final.shared.store minor) role member ↔
      Grants codec value role member

/-- In every run in which a write of the record finds what its request has read, and in which all
requests succeed, the record grants what it grants when they are executed one at a time. In
particular, what is revoked stays so, unless another request gives it to the same member. -/
theorem policy_updates_serialize {Id : Type} [DecidableEq Id] (deps : Deps) (lawful : deps.Lawful)
    (codec : Codec) (mode : Mode) (minor : Bytes) (isPolicy : policyScopeKey minor ≠ none)
    (store : Store) (settled : Settled deps store)
    (steps : List (Requests.Step Id Request Input Event))
    (undisturbed : Replay.Meets ((handler deps codec).machine deps mode).act
      (Requests.Machine.guardAt (Undisturbed deps minor) Elsewhere) steps
      (Requests.begin Id (.fresh store)))
    (final : Requests.State Id Shared Phase)
    (reached : Replay.run ((handler deps codec).machine deps mode).act steps
      (Requests.begin Id (.fresh store)) = final)
    (succeeded : ∀ id phase, final.phases id = some phase → phase.Succeeded) :
    Serializable deps codec minor (contentAt deps store minor) final ∧
      (codec.policy.Lawful codec.decoder → ∀ id phase request member,
        final.phases id = some phase → phase.request = .changeBinding request false →
        bindingMinor request.tenant request.region = minor → member ∈ request.members →
        (∀ other otherPhase, final.phases other = some otherPhase →
          ¬ otherPhase.request.Adds request.role member) →
        ¬ Grants codec (contentAt deps final.shared.store minor) request.role member) := by
  have atomic : ((handler deps codec).machine deps mode).Atomic (Undisturbed deps minor) Elsewhere
      (Steady deps) (Ready codec minor) (observed deps codec minor) :=
    policy_atomic lawful isPolicy mode
  have outcome := atomic.serialized_run steps (.fresh store) undisturbed (steady_fresh settled)
  rw [reached] at outcome
  rcases outcome with ⟨id, phase, found, failed⟩ | ⟨log, serialized⟩
  · exact absurd failed (succeeded id phase found).not_failed
  · -- a request that has succeeded has taken its effect
    have listed : ∀ id request, (id, request) ∈ log ↔
        ∃ phase, final.phases id = some phase ∧ phase.request = request := by
      intro id request
      rw [serialized.mem]
      constructor
      · rintro ⟨phase, found, _, isRequest⟩
        exact ⟨phase, found, isRequest⟩
      · rintro ⟨phase, found, isRequest⟩
        exact ⟨phase, found, (succeeded id phase found).took minor, isRequest⟩
    refine ⟨⟨log, _, serialized.nodup, listed, serialized.serial, fun _ _ => Iff.rfl⟩, ?_⟩
    intro codecLawful id phase request member found isRevocation about isMember others
    refine not_grants_serial codecLawful log about isMember
      ((listed id _).mpr ⟨phase, found, isRevocation⟩) (fun entry isEntry => ?_) serialized.serial
    obtain ⟨other, isOther, isRequest⟩ := (listed entry.1 entry.2).mp isEntry
    exact isRequest ▸ others entry.1 other isOther

/-! ### Samples -/

def viewer : Bytes := str "roles/cdb.viewer"

/-- A policy that binds viewers, as it is stored. -/
def viewersRecord (members : List Bytes) : Bytes :=
  (Format.bytes.pair Format.bytes.list).list.put [(viewer, members)]

/-- The store where `alice` is a viewer of the whole database. -/
def aliceStore : Store :=
  ((KeyWrite.put (key policyInstance) (viewersRecord [str "user:alice"]) none).perform
    Reference.deps (.healthy 0) Store.empty 1).2

theorem aliceStore_settled : Settled Reference.deps aliceStore := by
  have empty : Settled Reference.deps Store.empty := by
    refine ⟨encoded_empty Reference.deps, fun asked record _ found => ?_⟩
    cases found
  exact settled_perform Reference.lawful empty (.healthy 0) 1 rfl

/-- `bob` becomes a viewer. -/
def grantBob : Request := .changeBinding ⟨viewer, [str "user:bob"], [], []⟩ true

/-- `alice` is no viewer any more. -/
def revokeAlice : Request := .changeBinding ⟨viewer, [str "user:alice"], [], []⟩ false

def afterUpdates (steps : List (Requests.Step Bool Request Input Event)) :
    Requests.State Bool Shared Phase :=
  Replay.run ((handler Reference.deps sampleRecords).machine Reference.deps .replicated).act steps
    (Requests.begin Bool (.fresh aliceStore))

/-- One request after the other. -/
def oneByOne : List (Requests.Step Bool Request Input Event) :=
  [.start false grantBob, .advance false (healthyInput 2), .advance false (healthyInput 2),
    .start true revokeAlice, .advance true (healthyInput 3), .advance true (healthyInput 3)]

/-- The grant reads, the revocation reads and writes, and the grant writes. -/
def overlapping : List (Requests.Step Bool Request Input Event) :=
  [.start false grantBob, .advance false (healthyInput 2), .start true revokeAlice,
    .advance true (healthyInput 2), .advance true (healthyInput 2),
    .advance false (healthyInput 3)]

/-- The request has been answered with success. -/
def done (request : Request) : Phase := ⟨request, .answered (.bound [] viewer)⟩

/-- Neither request gives `alice` the role. -/
theorem not_adds_alice {steps : List (Requests.Step Bool Request Input Event)}
    (granted : (afterUpdates steps).phases false = some (done grantBob))
    (revoked : (afterUpdates steps).phases true = some (done revokeAlice)) (id : Bool)
    (phase : Phase) (found : (afterUpdates steps).phases id = some phase) :
    ¬ phase.request.Adds viewer (str "user:alice") := by
  cases id with
  | false =>
    obtain rfl := Option.some.inj (granted.symm.trans found)
    rintro ⟨_, member⟩
    exact absurd member (by decide)
  | true =>
    obtain rfl := Option.some.inj (revoked.symm.trans found)
    exact fun adds => adds

theorem oneByOne_undisturbed :
    Replay.Meets ((handler Reference.deps sampleRecords).machine Reference.deps .replicated).act
      (Requests.Machine.guardAt (Undisturbed Reference.deps policyInstance) Elsewhere) oneByOne
      (Requests.begin Bool (.fresh aliceStore)) := by
  have guarded : ∀ {state : Requests.State Bool Shared Phase} {id : Bool} {input : Input}
      (phase : Phase), state.phases id = some phase →
      Undisturbed Reference.deps policyInstance input state.shared phase →
      Requests.Machine.guardAt (Undisturbed Reference.deps policyInstance) Elsewhere
        (.advance id input : Requests.Step Bool Request Input Event) state := by
    intro state id input phase found undisturbed other isOther
    obtain rfl := Option.some.inj (found.symm.trans isOther)
    exact undisturbed
  refine ⟨trivial, guarded ⟨grantBob, .start⟩ (by decide +kernel) trivial,
    guarded ⟨grantBob, .binding policyInstance (some (viewersRecord [str "user:alice"]))
      (viewersRecord [str "user:alice", str "user:bob"]) (.bound [] viewer)⟩ (by decide +kernel)
      (fun _ => by decide +kernel),
    trivial, guarded ⟨revokeAlice, .start⟩ (by decide +kernel) trivial,
    guarded ⟨revokeAlice, .binding policyInstance
      (some (viewersRecord [str "user:alice", str "user:bob"])) (viewersRecord [str "user:bob"])
      (.bound [] viewer)⟩ (by decide +kernel) (fun _ => by decide +kernel), trivial⟩

/-- One after the other, the revocation stays done. -/
theorem policy_updates_serialize_sample :
    (afterUpdates oneByOne).phases true = some (done revokeAlice) ∧
      ¬ Grants sampleRecords (contentAt Reference.deps (afterUpdates oneByOne).shared.store
        policyInstance) viewer (str "user:alice") := by
  have granted : (afterUpdates oneByOne).phases false = some (done grantBob) := by
    decide +kernel
  have revoked : (afterUpdates oneByOne).phases true = some (done revokeAlice) := by
    decide +kernel
  have succeeded : ∀ id phase, (afterUpdates oneByOne).phases id = some phase →
      phase.Succeeded := by
    intro id phase found
    cases id with
    | false =>
      obtain rfl := Option.some.inj (granted.symm.trans found)
      exact ⟨_, rfl, fun _ _ => Answer.noConfusion⟩
    | true =>
      obtain rfl := Option.some.inj (revoked.symm.trans found)
      exact ⟨_, rfl, fun _ _ => Answer.noConfusion⟩
  have serialized := policy_updates_serialize Reference.deps Reference.lawful sampleRecords
    .replicated policyInstance (by decide) aliceStore aliceStore_settled oneByOne
    oneByOne_undisturbed (afterUpdates oneByOne) rfl succeeded
  exact ⟨revoked, serialized.2 PolicyService.sampleCodec_lawful true _
    ⟨viewer, [str "user:alice"], [], []⟩ _ revoked rfl rfl List.mem_cons_self
    (not_adds_alice granted revoked)⟩

/-- Where the grant has read before the revocation wrote, and writes after it, `alice` has the role
again. No order of the two requests leaves it to `alice`. -/
theorem policy_update_lost :
    (afterUpdates overlapping).phases false = some (done grantBob) ∧
      (afterUpdates overlapping).phases true = some (done revokeAlice) ∧
      Grants sampleRecords (contentAt Reference.deps (afterUpdates overlapping).shared.store
        policyInstance) viewer (str "user:alice") ∧
      ¬ Serializable Reference.deps sampleRecords policyInstance
        (contentAt Reference.deps aliceStore policyInstance) (afterUpdates overlapping) := by
  have granted : (afterUpdates overlapping).phases false = some (done grantBob) := by
    decide +kernel
  have revoked : (afterUpdates overlapping).phases true = some (done revokeAlice) := by
    decide +kernel
  have grants : Grants sampleRecords (contentAt Reference.deps
      (afterUpdates overlapping).shared.store policyInstance) viewer (str "user:alice") := by
    refine ⟨viewersRecord [str "user:alice", str "user:bob"],
      ⟨[⟨viewer, [str "user:alice", str "user:bob"]⟩]⟩, by decide +kernel, by decide, by rfl, ?_⟩
    exact ⟨_, List.mem_singleton_self _, rfl, List.mem_cons_self⟩
  refine ⟨granted, revoked, grants, ?_⟩
  rintro ⟨log, value, _, listed, serial, same⟩
  have logged : (true, revokeAlice) ∈ log := (listed true revokeAlice).mpr ⟨_, revoked, rfl⟩
  refine not_grants_serial PolicyService.sampleCodec_lawful log rfl List.mem_cons_self logged
    (fun entry isEntry => ?_) serial ((same _ _).mp grants)
  obtain ⟨phase, found, isRequest⟩ := (listed entry.1 entry.2).mp isEntry
  exact isRequest ▸ not_adds_alice granted revoked entry.1 phase found

end Administration

end ConsensusDB
