/-
This file is about `purgePrincipal` of `pkg/console/iam.go` where nobody else writes. It
scans the identity region, removes the tokens and certificates of a principal, and writes
back the groups and policies that have it as a member, without it.

The scan hands on the minor key of a record only, and what is removed or written back is
the record of that minor key without a timestamp, for good. So a record whose key has a
timestamp is left as it is, and a group or policy that was to expire no longer does. A
purge is complete and leaves everything of others as it was exactly when it meets no such
record.
-/

import ConsensusDB.Evaluation
import ConsensusDB.PolicyUpdates

namespace ConsensusDB

open Wire Iam

namespace Administration

open Console (MapOrder)

/-! ### One purge -/

/-- The writes of a purge, in their order. The encoding of a record that is written back may
fail. -/
def purgeWrites (removals : List Bytes) (updates : List Update) : List (Except Err KeyWrite) :=
  removals.map (fun minor => .ok (.remove (key minor))) ++
    updates.map fun update => update.raw.map fun raw => .put (key update.minor) raw none

/-- Performs writes up to the first error. The engine and the index of each write are given. -/
def performAll (deps : Deps) (engine : Nat → Env × UInt64) :
    Nat → List (Except Err KeyWrite) → Store → Except Err Unit × Store
  | _, [], store => (.ok (), store)
  | _, .error err :: _, store => (.error err, store)
  | round, .ok write :: rest, store =>
    match write.perform deps (engine round).1 store (engine round).2 with
    | (.error err, after) => (.error err, after)
    | (.ok _, after) => performAll deps engine (round + 1) rest after

/-- `purgePrincipal` from its scan to its last write; `none` is an index panic of the scan. -/
def purgeAlone (deps : Deps) (codec : Codec) (order : MapOrder) (env : Env)
    (engine : Nat → Env × UInt64) (principal : Bytes) (store : Store) :
    Option (Except Err Unit × Store) :=
  match scanIAM deps env store with
  | none => none
  | some (.error err) => some (.error err, store)
  | some (.ok records) =>
    some (performAll deps engine 0
      (purgeWrites (removalsOf codec principal records) (updatesOf codec principal order records))
      store)

/-- The steps of a request that is purging, with nobody else's between them. -/
def purgeSteps (deps : Deps) (codec : Codec) (input : Input) (engine : Nat → Env × UInt64) :
    Nat → Nat → Phase → Store → Phase × Store
  | 0, _, phase, store => (look deps codec input store phase, store)
  | fuel + 1, round, phase, store =>
    match write (look deps codec input store phase) with
    | none => (look deps codec input store phase, store)
    | some asked =>
      let outcome := asked.perform deps (engine round).1 store (engine round).2
      purgeSteps deps codec input engine fuel (round + 1)
        (resume codec (look deps codec input store phase) outcome.1) outcome.2

/-- What a deletion answers with when its purge has come to an end. -/
def purgeAnswer (request : Request) : Except Err Unit → Answer
  | .ok _ => .deleted request.name
  | .error err => .error 500 (.wrap "revoke credentials" err)

section

variable (deps : Deps) (codec : Codec) (input : Input) (engine : Nat → Env × UInt64) (round : Nat)
  (store : Store)

variable {deps engine round store} in
theorem performAll_failed {write : KeyWrite} {rest : List (Except Err KeyWrite)} {err : Err}
    {after : Store}
    (performed : write.perform deps (engine round).1 store (engine round).2 = (.error err, after)) :
    performAll deps engine round (.ok write :: rest) store = (.error err, after) := by
  rw [performAll, performed]

variable {deps engine round store} in
theorem performAll_done {write : KeyWrite} {rest : List (Except Err KeyWrite)} {status : Status}
    {after : Store}
    (performed : write.perform deps (engine round).1 store (engine round).2 = (.ok status, after)) :
    performAll deps engine round (.ok write :: rest) store =
      performAll deps engine (round + 1) rest after := by
  rw [performAll, performed]

theorem purgeSteps_answered (request : Request) (answer : Answer) (fuel : Nat) :
    purgeSteps deps codec input engine fuel round ⟨request, .answered answer⟩ store =
      (⟨request, .answered answer⟩, store) := by
  cases fuel <;> rfl

/-- One write of a purge, as a step and in the loop. -/
theorem purgeSteps_write {request : Request} {removals later : List Bytes}
    {updates laterUpdates : List Update} {asked : KeyWrite} {fuel : Nat}
    (asks : write (look deps codec input store ⟨request, .purging removals updates⟩) = some asked)
    (fails : ∀ err, resume codec (look deps codec input store ⟨request, .purging removals updates⟩)
      (.error err) = ⟨request, .answered (purgeAnswer request (.error err))⟩)
    (goes : ∀ status, resume codec (look deps codec input store
      ⟨request, .purging removals updates⟩) (.ok status) =
        ⟨request, .purging later laterUpdates⟩)
    (writes : purgeWrites removals updates = .ok asked :: purgeWrites later laterUpdates)
    (rest : ∀ round store, purgeSteps deps codec input engine fuel round
        ⟨request, .purging later laterUpdates⟩ store =
      (⟨request, .answered (purgeAnswer request
          (performAll deps engine round (purgeWrites later laterUpdates) store).1)⟩,
        (performAll deps engine round (purgeWrites later laterUpdates) store).2)) :
    purgeSteps deps codec input engine (fuel + 1) round ⟨request, .purging removals updates⟩ store =
      (⟨request, .answered (purgeAnswer request
          (performAll deps engine round (purgeWrites removals updates) store).1)⟩,
        (performAll deps engine round (purgeWrites removals updates) store).2) := by
  rcases performed : asked.perform deps (engine round).1 store (engine round).2 with ⟨reply, after⟩
  rw [purgeSteps, writes]
  simp only [asks, performed]
  cases reply with
  | error err => rw [fails, performAll_failed performed, purgeSteps_answered]
  | ok status => rw [goes, performAll_done performed, rest]

/-- The steps of a deletion perform the writes of its purge. -/
theorem purgeSteps_eq (request : Request) (removals : List Bytes) (updates : List Update) :
    purgeSteps deps codec input engine (removals.length + updates.length) round
        ⟨request, .purging removals updates⟩ store =
      (⟨request, .answered (purgeAnswer request
          (performAll deps engine round (purgeWrites removals updates) store).1)⟩,
        (performAll deps engine round (purgeWrites removals updates) store).2) := by
  induction removals generalizing round store with
  | nil =>
    rw [List.length_nil, Nat.zero_add]
    induction updates generalizing round store with
    | nil => rfl
    | cons update rest inductionHypothesis =>
      obtain ⟨minor, read, raw⟩ := update
      cases raw with
      | error err => rfl
      | ok raw =>
        exact purgeSteps_write deps codec input engine round store rfl (fun _ => rfl)
          (fun _ => rfl) rfl inductionHypothesis
  | cons minor rest inductionHypothesis =>
    rw [List.length_cons, Nat.add_right_comm]
    exact purgeSteps_write deps codec input engine round store rfl (fun _ => rfl) (fun _ => rfl)
      rfl inductionHypothesis

end

/-! ### What the records say -/

section

variable (deps : Deps) (codec : Codec) (clock : Int64) (store : Store) (asked : Key)

/-- The record is a token or a certificate that stands for the principal. -/
def Vouches (principal : Bytes) : Prop :=
  ∃ value, store.shown deps clock asked = some value ∧
    owner codec asked.minorKey value = some principal

/-- The record is a group with the member. -/
def Lists (member : Bytes) : Prop :=
  groupPrefix.isPrefixOf asked.minorKey = true ∧
    ∃ value group, store.shown deps clock asked = some value ∧
      codec.decoder.group value = some group ∧ member ∈ group.members

/-- The record is a policy that gives the role to the member. -/
def Gives (role member : Bytes) : Prop :=
  policyScopeKey asked.minorKey ≠ none ∧
    ∃ value policy, store.shown deps clock asked = some value ∧
      codec.decoder.policy value = some policy ∧ Binds policy.bindings role member

end

/-- Nothing of a principal is left at the time of the purge, and what others had is as it was, at
every time. -/
structure Purged (deps : Deps) (codec : Codec) (principal : Bytes) (now : Int64)
    (before after : Store) : Prop where
  credentials : ∀ asked, InRegion asked → ¬ Vouches deps codec now after asked principal
  groups : ∀ asked, InRegion asked → ¬ Lists deps codec now after asked principal
  policies : ∀ asked, InRegion asked → ∀ role, ¬ Gives deps codec now after asked role principal
  otherCredentials : ∀ asked, InRegion asked → ∀ record other, other ≠ principal →
    owner codec asked.minorKey record.value = some other →
    (before.records deps (encodeKey deps asked).1 = some record ↔
      after.records deps (encodeKey deps asked).1 = some record)
  otherMembers : ∀ asked, InRegion asked → ∀ clock member, member ≠ principal →
    (Lists deps codec clock before asked member ↔ Lists deps codec clock after asked member)
  otherGrants : ∀ asked, InRegion asked → ∀ clock role member, member ≠ principal →
    (Gives deps codec clock before asked role member ↔
      Gives deps codec clock after asked role member)

/-- The records that have something of the principal have no timestamp, and those of them that a
purge writes back for the sake of others do not expire. -/
structure Revocable (deps : Deps) (codec : Codec) (principal : Bytes) (now : Int64)
    (store : Store) : Prop where
  untimed : ∀ asked, InRegion asked →
    Vouches deps codec now store asked principal ∨ Lists deps codec now store asked principal ∨
      (∃ role, Gives deps codec now store asked role principal) →
    asked = key asked.minorKey
  lasting : ∀ asked, InRegion asked →
    (Lists deps codec now store asked principal ∧
        ∃ member, member ≠ principal ∧ Lists deps codec now store asked member) ∨
      ((∃ role, Gives deps codec now store asked role principal) ∧
        ∃ role member, member ≠ principal ∧ Gives deps codec now store asked role member) →
    ∀ record, store.records deps (encodeKey deps asked).1 = some record →
      ∀ clock, deps.isExpired clock record.expiresAt = false

/-- Groups and policies that are encoded are read back. -/
structure Codec.RoundTrips (codec : Codec) : Prop where
  group : ∀ group raw, codec.group group = .ok raw →
    raw ≠ [] ∧ codec.decoder.group raw = some group
  policy : ∀ policy raw, codec.policy.encode policy = .ok raw →
    raw ≠ [] ∧ codec.decoder.policy raw = some policy

/-! ### What a purge leaves under a key -/

section

variable {codec : Codec} {principal minor value : Bytes}

/-- The kinds of minor keys a purge looks at begin with different letters. -/
theorem not_credential_of_group (isGroup : groupPrefix.isPrefixOf minor = true) :
    ¬ IsCredential minor := by
  have letter := head_of_isPrefixOf (show groupPrefix = 103 :: _ from rfl) isGroup
  rintro (isToken | isCert)
  · have other := head_of_isPrefixOf (show tokenIndexPrefix = 116 :: _ from rfl) isToken
    exact absurd (letter.symm.trans other) (by decide)
  · have other := head_of_isPrefixOf (show certPrefix = 99 :: _ from rfl) isCert
    exact absurd (letter.symm.trans other) (by decide)

theorem not_credential_of_policy (isPolicy : policyScopeKey minor ≠ none) :
    ¬ IsCredential minor := by
  obtain ⟨scope, isScope⟩ := Option.ne_none_iff_exists'.mp isPolicy
  have letter := head_of_policyScopeKey isScope
  rintro (isToken | isCert)
  · have other := head_of_isPrefixOf (show tokenIndexPrefix = 116 :: _ from rfl) isToken
    exact absurd (letter.symm.trans other) (by decide)
  · have other := head_of_isPrefixOf (show certPrefix = 99 :: _ from rfl) isCert
    exact absurd (letter.symm.trans other) (by decide)

theorem not_group_of_policy (isPolicy : policyScopeKey minor ≠ none) :
    ¬ groupPrefix.isPrefixOf minor = true := by
  obtain ⟨scope, isScope⟩ := Option.ne_none_iff_exists'.mp isPolicy
  exact (kinds_of_policyScopeKey isScope).2.2.1

/-- What a purge makes of a group. -/
theorem visit_of_group (isGroup : groupPrefix.isPrefixOf minor = true) :
    visit codec principal minor value =
      (codec.decoder.group value).elim .nothing fun group =>
        if group.members.contains principal then
          .group
            ⟨minor, value, codec.group { group with members := without group.members principal }⟩
        else .nothing := by
  have notCredential := not_or.mp (not_credential_of_group isGroup)
  rw [visit, if_neg notCredential.1, if_neg notCredential.2, if_pos isGroup]
  cases codec.decoder.group value <;> rfl

/-- What a purge makes of a policy. -/
theorem visit_of_policy (isPolicy : policyScopeKey minor ≠ none) :
    visit codec principal minor value =
      (codec.decoder.policy value).elim .nothing fun policy =>
        if policyHasMember policy principal then
          .policy ⟨minor, value, codec.policy.encode (purgedPolicy principal policy)⟩
        else .nothing := by
  have notCredential := not_or.mp (not_credential_of_policy isPolicy)
  have notGroup := not_group_of_policy isPolicy
  obtain ⟨scope, isScope⟩ := Option.ne_none_iff_exists'.mp isPolicy
  rw [visit, if_neg notCredential.1, if_neg notCredential.2, if_neg notGroup, isScope]
  cases codec.decoder.policy value <;> rfl

theorem policyHasMember_iff {policy : PolicyRecord} :
    policyHasMember policy principal = true ↔ ∃ role, Binds policy.bindings role principal := by
  simp only [policyHasMember, List.any_eq_true, List.contains_iff_mem]
  constructor
  · rintro ⟨binding, isBinding, isMember⟩
    exact ⟨binding.role, binding, isBinding, rfl, isMember⟩
  · rintro ⟨_, binding, isBinding, _, isMember⟩
    exact ⟨binding, isBinding, isMember⟩

end

section

variable {deps : Deps} (lawful : deps.Lawful) {codec : Codec} {order : MapOrder} {env : Env}
  {engine : Nat → Env × UInt64} {principal : Bytes} {store after : Store}

/-- What is shown is the value of a record that has one and has not expired. -/
theorem shown_eq_some_iff {clock : Int64} {asked : Key} {value : Bytes} :
    store.shown deps clock asked = some value ↔
      ∃ record, store.records deps (encodeKey deps asked).1 = some record ∧
        deps.isExpired clock record.expiresAt = false ∧ record.value = value ∧ value ≠ [] := by
  unfold Store.shown
  cases store.records deps (encodeKey deps asked).1 with
  | none => simp
  | some record =>
    simp only [Option.some.injEq, exists_eq_left']
    split
    · rename_i hidden
      refine iff_of_false (Option.some_ne_none _).symm ?_
      rintro ⟨alive, rfl, filled⟩
      exact hidden.elim (fun expired => Bool.false_ne_true (alive.symm.trans expired)) filled
    · rename_i visible
      obtain ⟨alive, filled⟩ := not_or.mp visible
      constructor
      · intro same
        obtain rfl := Option.some.inj same
        exact ⟨Bool.eq_false_iff.mpr alive, rfl, filled⟩
      · rintro ⟨_, rfl, _⟩
        rfl

include lawful in
/-- Writes that are all carried out leave under a key what it had, when none of them is to it, or
what one of them leaves. -/
theorem performAll_records {writes : List (Except Err KeyWrite)}
    (unconditional : ∀ write, .ok write ∈ writes → write.condition = none) {round : Nat}
    (done : performAll deps engine round writes store = (.ok (), after)) (asked : Key) :
    ((∀ write, .ok write ∈ writes → write.key ≠ asked) ∧
        after.records deps (encodeKey deps asked).1 =
          store.records deps (encodeKey deps asked).1) ∨
      ∃ write version, .ok write ∈ writes ∧ write.key = asked ∧
        after.records deps (encodeKey deps asked).1 = write.left version := by
  induction writes generalizing round store with
  | nil =>
    obtain ⟨_, rfl⟩ := Prod.mk.inj done
    exact Or.inl ⟨fun _ member => absurd member List.not_mem_nil, rfl⟩
  | cons first rest inductionHypothesis =>
    cases first with
    | error err => cases (Prod.mk.inj done).1
    | ok write =>
      rcases performed : write.perform deps (engine round).1 store (engine round).2 with
        ⟨reply, next⟩
      cases reply with
      | error err =>
        rw [performAll_failed performed] at done
        cases (Prod.mk.inj done).1
      | ok status =>
        rw [performAll_done performed] at done
        rcases inductionHypothesis (fun other member =>
            unconditional other (List.mem_cons_of_mem _ member)) done with
          ⟨others, same⟩ | ⟨other, version, member, isKey, left⟩
        · have carriedOut := KeyWrite.perform_unconditional deps lawful (engine round).1 store
            (engine round).2 write (unconditional write List.mem_cons_self) status
            (congrArg Prod.fst performed)
          by_cases named : write.key = asked
          · rcases KeyWrite.perform_cases deps lawful (engine round).1 store (engine round).2
              write with ⟨_, silent⟩ | ⟨_, _, _, stored⟩
            · rw [performed, carriedOut] at silent
              exact absurd rfl silent
            · have left := congrFun stored (encodeKey deps write.key).1
              rw [Function.update_self, performed, named] at left
              exact Or.inr ⟨write, _, List.mem_cons_self, named, same.trans left⟩
          · refine Or.inl ⟨fun other member => ?_, ?_⟩
            · rcases List.mem_cons.mp member with isFirst | later
              · rw [Except.ok.inj isFirst]
                exact named
              · exact others other later
            · have kept := KeyWrite.records_perform_other deps lawful (engine round).1 store
                (engine round).2 write asked (Ne.symm named)
              rw [performed] at kept
              exact same.trans kept
        · exact Or.inr ⟨other, version, List.mem_cons_of_mem _ member, isKey, left⟩

variable (encoded : store.Encoded deps) (calm : ∀ step, env.fault step = none)

include lawful encoded calm in
/-- What the scan of a purge finds: what is shown under the keys of the region. -/
theorem scan_shown :
    ∃ records, scanIAM deps env store = some (.ok records) ∧ ∀ minor value,
      (minor, value) ∈ records ↔ ∃ asked, InRegion asked ∧ asked.minorKey = minor ∧
        store.shown deps env.now asked = some value := by
  obtain ⟨records, scanned, found⟩ := mem_scanIAM deps lawful store encoded env calm
  refine ⟨records, scanned, fun minor value => ?_⟩
  simp only [found, shown_eq_some_iff]
  constructor
  · rintro ⟨filled, asked, record, inRegion, isMinor, isRecord, alive, isValue⟩
    exact ⟨asked, inRegion, isMinor, record, isRecord, alive, isValue, filled⟩
  · rintro ⟨asked, inRegion, isMinor, record, isRecord, alive, isValue, filled⟩
    exact ⟨filled, asked, record, inRegion, isMinor, isRecord, alive, isValue⟩

/-- What a purge leaves under the keys of the region, given what its scan has found: the record that
was there, nothing, or a group or policy without the principal. -/
structure Leaves (deps : Deps) (codec : Codec) (order : MapOrder) (principal : Bytes)
    (records : List (Bytes × Bytes)) (before after : Store) : Prop where
  timed : ∀ asked, (∀ minor, asked ≠ key minor) →
    after.records deps (encodeKey deps asked).1 = before.records deps (encodeKey deps asked).1
  cases : ∀ minor,
    (minor ∉ removalsOf codec principal records ∧
        (∀ update ∈ updatesOf codec principal order records, update.minor ≠ minor) ∧
        after.records deps (encodeKey deps (key minor)).1 =
          before.records deps (encodeKey deps (key minor)).1) ∨
      (minor ∈ removalsOf codec principal records ∧
        after.records deps (encodeKey deps (key minor)).1 = none) ∨
      ∃ update ∈ updatesOf codec principal order records, update.minor = minor ∧
        ∃ raw version, update.raw = .ok raw ∧
          after.records deps (encodeKey deps (key minor)).1 = some ⟨raw, version, 0, 0⟩

theorem mem_purgeWrites {removals : List Bytes} {updates : List Update} {write : KeyWrite} :
    .ok write ∈ purgeWrites removals updates ↔
      (∃ minor ∈ removals, write = .remove (key minor)) ∨
        ∃ update ∈ updates, ∃ raw, update.raw = .ok raw ∧
          write = .put (key update.minor) raw none := by
  unfold purgeWrites
  rw [List.mem_append, List.mem_map, List.mem_map]
  refine or_congr (exists_congr fun minor => and_congr_right fun _ => ?_)
    (exists_congr fun update => and_congr_right fun _ => ?_)
  · exact ⟨fun same => (Except.ok.inj same).symm, fun same => congrArg Except.ok same.symm⟩
  · cases update.raw with
    | error err => exact iff_of_false nofun nofun
    | ok raw =>
      constructor
      · intro same
        exact ⟨raw, rfl, (Except.ok.inj same).symm⟩
      · rintro ⟨other, same, rfl⟩
        rw [Except.ok.inj same]
        rfl

/-- What is written back was encoded, or the writes would have failed. -/
theorem encoded_of_performAll {writes : List (Except Err KeyWrite)} {round : Nat}
    (performed : performAll deps engine round writes store = (.ok (), after)) (err : Err) :
    .error err ∉ writes := by
  induction writes generalizing round store with
  | nil => exact List.not_mem_nil
  | cons first rest inductionHypothesis =>
    intro member
    cases first with
    | error other => cases (Prod.mk.inj performed).1
    | ok write =>
      rcases outcome : write.perform deps (engine round).1 store (engine round).2 with
        ⟨reply, next⟩
      cases reply with
      | error other =>
        rw [performAll_failed outcome] at performed
        cases (Prod.mk.inj performed).1
      | ok status =>
        rw [performAll_done outcome] at performed
        rcases List.mem_cons.mp member with isFirst | later
        · cases isFirst
        · exact inductionHypothesis performed later

include lawful in
theorem leaves_of_performAll {records : List (Bytes × Bytes)}
    (done : performAll deps engine 0
      (purgeWrites (removalsOf codec principal records) (updatesOf codec principal order records))
      store = (.ok (), after)) :
    Leaves deps codec order principal records store after := by
  have unconditional : ∀ write, .ok write ∈ purgeWrites (removalsOf codec principal records)
      (updatesOf codec principal order records) → write.condition = none := by
    intro write member
    rcases mem_purgeWrites.mp member with ⟨minor, _, rfl⟩ | ⟨update, _, raw, _, rfl⟩ <;> rfl
  refine ⟨fun asked timed => ?_, fun minor => ?_⟩
  · rcases performAll_records lawful unconditional done asked with
      ⟨_, same⟩ | ⟨write, _, member, isKey, _⟩
    · exact same
    · rcases mem_purgeWrites.mp member with ⟨minor, _, rfl⟩ | ⟨update, _, raw, _, rfl⟩
      · exact absurd isKey.symm (timed minor)
      · exact absurd isKey.symm (timed update.minor)
  · rcases performAll_records lawful unconditional done (key minor) with
      ⟨others, same⟩ | ⟨write, version, member, isKey, left⟩
    · refine Or.inl ⟨fun removed => ?_, fun update isUpdate isMinor => ?_, same⟩
      · exact others _ (mem_purgeWrites.mpr (Or.inl ⟨minor, removed, rfl⟩)) rfl
      · cases isRaw : update.raw with
        | error err =>
          refine encoded_of_performAll done err (List.mem_append_right _ (List.mem_map.mpr
            ⟨update, isUpdate, ?_⟩))
          rw [isRaw]
          rfl
        | ok raw =>
          exact others _ (mem_purgeWrites.mpr (Or.inr ⟨update, isUpdate, raw, isRaw, rfl⟩))
            (congrArg key isMinor)
    · rcases mem_purgeWrites.mp member with ⟨removed, isRemoved, rfl⟩ |
        ⟨update, isUpdate, raw, isRaw, rfl⟩
      · obtain rfl := key_inj isKey
        exact Or.inr (Or.inl ⟨isRemoved, left⟩)
      · exact Or.inr (Or.inr ⟨update, isUpdate, key_inj isKey, raw, version, isRaw, left⟩)

/-- The record has something of the principal. -/
def Concerns (deps : Deps) (codec : Codec) (principal : Bytes) (now : Int64) (store : Store)
    (asked : Key) : Prop :=
  Vouches deps codec now store asked principal ∨ Lists deps codec now store asked principal ∨
    ∃ role, Gives deps codec now store asked role principal

variable {records : List (Bytes × Bytes)}
  (found : ∀ minor value, (minor, value) ∈ records ↔ ∃ asked, InRegion asked ∧
    asked.minorKey = minor ∧ store.shown deps env.now asked = some value)

include found in
/-- A purge removes the minor keys of the tokens and certificates of the principal. -/
theorem mem_removalsOf_iff {minor : Bytes} :
    minor ∈ removalsOf codec principal records ↔ ∃ asked, InRegion asked ∧
      asked.minorKey = minor ∧ Vouches deps codec env.now store asked principal := by
  rw [mem_removalsOf]
  constructor
  · rintro ⟨value, isRecord, owned⟩
    obtain ⟨asked, inRegion, rfl, isShown⟩ := (found minor value).mp isRecord
    exact ⟨asked, inRegion, rfl, value, isShown, owned⟩
  · rintro ⟨asked, inRegion, rfl, value, isShown, owned⟩
    exact ⟨value, (found _ value).mpr ⟨asked, inRegion, rfl, isShown⟩, owned⟩

include found in
/-- What a purge writes back is a group that lists the principal, or a policy that gives it a role,
without the principal. -/
theorem update_cases {update : Update}
    (isUpdate : update ∈ updatesOf codec principal order records) :
    ∃ asked, InRegion asked ∧ asked.minorKey = update.minor ∧
      store.shown deps env.now asked = some update.read ∧
      ((groupPrefix.isPrefixOf update.minor = true ∧ ∃ group,
          codec.decoder.group update.read = some group ∧ principal ∈ group.members ∧
          update.raw = codec.group { group with members := without group.members principal }) ∨
        (policyScopeKey update.minor ≠ none ∧ ∃ policy,
          codec.decoder.policy update.read = some policy ∧
          (∃ role, Binds policy.bindings role principal) ∧
          update.raw = codec.policy.encode (purgedPolicy principal policy))) := by
  obtain ⟨isRecord, visited⟩ := visit_of_mem_updatesOf isUpdate
  obtain ⟨asked, inRegion, isMinor, isShown⟩ := (found _ _).mp isRecord
  refine ⟨asked, inRegion, isMinor, isShown, visited.imp (fun visited => ?_) fun visited => ?_⟩
  · have isGroup := (visit_group visited).1
    refine ⟨isGroup, ?_⟩
    rw [visit_of_group isGroup] at visited
    cases decoded : codec.decoder.group update.read with
    | none =>
      rw [decoded] at visited
      cases visited
    | some group =>
      rw [decoded, Option.elim_some] at visited
      split at visited
      · rename_i listed
        exact ⟨group, rfl, List.contains_iff_mem.mp listed,
          (congrArg Update.raw (Found.group.inj visited)).symm⟩
      · cases visited
  · have isPolicy := (visit_policy visited).1
    refine ⟨isPolicy, ?_⟩
    rw [visit_of_policy isPolicy] at visited
    cases decoded : codec.decoder.policy update.read with
    | none =>
      rw [decoded] at visited
      cases visited
    | some policy =>
      rw [decoded, Option.elim_some] at visited
      split at visited
      · rename_i member
        exact ⟨policy, rfl, policyHasMember_iff.mp member,
          (congrArg Update.raw (Found.policy.inj visited)).symm⟩
      · cases visited

include found in
/-- A group that lists the principal is written back, under its minor key. -/
theorem exists_update_of_lists {asked : Key} (inRegion : InRegion asked)
    (lists : Lists deps codec env.now store asked principal) :
    ∃ update ∈ updatesOf codec principal order records, update.minor = asked.minorKey := by
  obtain ⟨isGroup, value, group, isShown, decoded, listed⟩ := lists
  have visited : visit codec principal asked.minorKey value = .group ⟨asked.minorKey, value,
      codec.group { group with members := without group.members principal }⟩ := by
    rw [visit_of_group isGroup, decoded, Option.elim_some,
      if_pos (List.contains_iff_mem.mpr listed)]
  exact mem_updatesOf_of_group ((found _ value).mpr ⟨asked, inRegion, rfl, isShown⟩) visited

include found in
theorem exists_update_of_gives {asked : Key} {role : Bytes} (inRegion : InRegion asked)
    (gives : Gives deps codec env.now store asked role principal) :
    ∃ update ∈ updatesOf codec principal order records, update.minor = asked.minorKey := by
  obtain ⟨isPolicy, value, policy, isShown, decoded, binds⟩ := gives
  have visited : visit codec principal asked.minorKey value = .policy ⟨asked.minorKey, value,
      codec.policy.encode (purgedPolicy principal policy)⟩ := by
    rw [visit_of_policy isPolicy, decoded, Option.elim_some,
      if_pos (policyHasMember_iff.mpr ⟨role, binds⟩)]
  exact mem_updatesOf_of_policy ((found _ value).mpr ⟨asked, inRegion, rfl, isShown⟩) visited

/-! ### Completeness and frame -/

theorem lists_iff_of_shown {clock : Int64} {asked : Key} {value : Bytes} {group : GroupRecord}
    (isGroup : groupPrefix.isPrefixOf asked.minorKey = true)
    (isShown : store.shown deps clock asked = some value)
    (decoded : codec.decoder.group value = some group) (member : Bytes) :
    Lists deps codec clock store asked member ↔ member ∈ group.members := by
  constructor
  · rintro ⟨_, other, found, isOther, isFound, listed⟩
    obtain rfl := Option.some.inj (isShown.symm.trans isOther)
    obtain rfl := Option.some.inj (decoded.symm.trans isFound)
    exact listed
  · exact fun listed => ⟨isGroup, value, group, isShown, decoded, listed⟩

theorem gives_iff_of_shown {clock : Int64} {asked : Key} {value : Bytes} {policy : PolicyRecord}
    (isPolicy : policyScopeKey asked.minorKey ≠ none)
    (isShown : store.shown deps clock asked = some value)
    (decoded : codec.decoder.policy value = some policy) (role member : Bytes) :
    Gives deps codec clock store asked role member ↔ Binds policy.bindings role member := by
  constructor
  · rintro ⟨_, other, found, isOther, isFound, binds⟩
    obtain rfl := Option.some.inj (isShown.symm.trans isOther)
    obtain rfl := Option.some.inj (decoded.symm.trans isFound)
    exact binds
  · exact fun binds => ⟨isPolicy, value, policy, isShown, decoded, binds⟩

/-- A record of the region without a timestamp is that of its minor key. -/
theorem eq_key_or (asked : Key) : asked = key asked.minorKey ∨ ∀ minor, asked ≠ key minor := by
  by_cases same : asked = key asked.minorKey
  · exact Or.inl same
  · refine Or.inr fun minor isKey => same ?_
    rw [isKey]
    rfl

variable (leaves : Leaves deps codec order principal records store after)
  (roundTrips : codec.RoundTrips)
  (untimed : ∀ asked, InRegion asked → Concerns deps codec principal env.now store asked →
    asked = key asked.minorKey)

include lawful found untimed roundTrips in
/-- What is written back under a minor key, for good: the group that was there without the
principal, or the policy that was there without it. -/
theorem written_back {update : Update}
    (isUpdate : update ∈ updatesOf codec principal order records) {raw : Bytes} {version : UInt64}
    (isRaw : update.raw = .ok raw)
    (left : after.records deps (encodeKey deps (key update.minor)).1 =
      some ⟨raw, version, 0, 0⟩) :
    (groupPrefix.isPrefixOf update.minor = true ∧
        Lists deps codec env.now store (key update.minor) principal ∧
        ∀ clock member, Lists deps codec clock after (key update.minor) member ↔
          Lists deps codec env.now store (key update.minor) member ∧ member ≠ principal) ∨
      policyScopeKey update.minor ≠ none ∧
        (∃ role, Gives deps codec env.now store (key update.minor) role principal) ∧
        ∀ clock role member, Gives deps codec clock after (key update.minor) role member ↔
          Gives deps codec env.now store (key update.minor) role member ∧ member ≠ principal := by
  have shows : raw ≠ [] → ∀ clock, after.shown deps clock (key update.minor) = some raw :=
    fun filled clock => shown_eq_some_iff.mpr
      ⟨_, left, lawful.neverExpires clock, rfl, filled⟩
  obtain ⟨asked, inRegion, isMinor, isShown, ⟨isGroup, group, decoded, listed, encodes⟩ |
    ⟨isPolicy, policy, decoded, ⟨role, binds⟩, encodes⟩⟩ := update_cases found isUpdate
  · rw [← isMinor] at isGroup
    have lists := (lists_iff_of_shown isGroup isShown decoded principal).mpr listed
    have plain := untimed asked inRegion (Or.inr (Or.inl lists))
    obtain rfl : asked = key update.minor := by rw [plain, isMinor]
    obtain ⟨filled, reads⟩ := roundTrips.group _ raw (encodes.symm.trans isRaw)
    refine Or.inl ⟨isGroup, lists, fun clock member => ?_⟩
    rw [lists_iff_of_shown isGroup (shows filled clock) reads,
      lists_iff_of_shown isGroup isShown decoded, mem_without]
  · rw [← isMinor] at isPolicy
    have gives := (gives_iff_of_shown isPolicy isShown decoded role principal).mpr binds
    have plain := untimed asked inRegion (Or.inr (Or.inr ⟨role, gives⟩))
    obtain rfl : asked = key update.minor := by rw [plain, isMinor]
    obtain ⟨filled, reads⟩ := roundTrips.policy _ raw (encodes.symm.trans isRaw)
    refine Or.inr ⟨isPolicy, ⟨role, gives⟩, fun clock other member => ?_⟩
    rw [gives_iff_of_shown isPolicy (shows filled clock) reads,
      gives_iff_of_shown isPolicy isShown decoded, binds_purgedPolicy]

/-- A group that has not expired lists its members at that time, too. -/
theorem lists_at {clock other : Int64} {asked : Key} {member : Bytes}
    (alive : ∀ record, store.records deps (encodeKey deps asked).1 = some record →
      deps.isExpired other record.expiresAt = false)
    (lists : Lists deps codec clock store asked member) :
    Lists deps codec other store asked member := by
  obtain ⟨isGroup, value, group, isShown, decoded, listed⟩ := lists
  obtain ⟨record, isRecord, _, isValue, filled⟩ := shown_eq_some_iff.mp isShown
  exact ⟨isGroup, value, group,
    shown_eq_some_iff.mpr ⟨record, isRecord, alive record isRecord, isValue, filled⟩, decoded,
    listed⟩

theorem gives_at {clock other : Int64} {asked : Key} {role member : Bytes}
    (alive : ∀ record, store.records deps (encodeKey deps asked).1 = some record →
      deps.isExpired other record.expiresAt = false)
    (gives : Gives deps codec clock store asked role member) :
    Gives deps codec other store asked role member := by
  obtain ⟨isPolicy, value, policy, isShown, decoded, binds⟩ := gives
  obtain ⟨record, isRecord, _, isValue, filled⟩ := shown_eq_some_iff.mp isShown
  exact ⟨isPolicy, value, policy,
    shown_eq_some_iff.mpr ⟨record, isRecord, alive record isRecord, isValue, filled⟩, decoded,
    binds⟩

theorem alive_of_shown {clock : Int64} {asked : Key} {value : Bytes}
    (isShown : store.shown deps clock asked = some value) :
    ∀ record, store.records deps (encodeKey deps asked).1 = some record →
      deps.isExpired clock record.expiresAt = false := by
  intro record isRecord
  obtain ⟨found, isFound, alive, _⟩ := shown_eq_some_iff.mp isShown
  obtain rfl := Option.some.inj (isFound.symm.trans isRecord)
  exact alive

theorem concerns_of_records {clock : Int64} {asked : Key}
    (same : after.records deps (encodeKey deps asked).1 =
      store.records deps (encodeKey deps asked).1)
    (concerns : Concerns deps codec principal clock after asked) :
    Concerns deps codec principal clock store asked := by
  unfold Concerns Vouches Lists Gives at concerns ⊢
  rwa [shown_of_records deps clock asked same] at concerns

variable (order) in
include found in
/-- A purge writes to the minor key of every record that has something of the principal. -/
theorem touched_of_concerns {asked : Key} (inRegion : InRegion asked)
    (concerns : Concerns deps codec principal env.now store asked) :
    asked.minorKey ∈ removalsOf codec principal records ∨
      ∃ update ∈ updatesOf codec principal order records, update.minor = asked.minorKey := by
  rcases concerns with vouches | lists | ⟨role, gives⟩
  · exact Or.inl ((mem_removalsOf_iff found).mpr ⟨asked, inRegion, rfl, vouches⟩)
  · exact Or.inr (exists_update_of_lists found inRegion lists)
  · exact Or.inr (exists_update_of_gives found inRegion gives)

include lawful found leaves roundTrips untimed in
/-- A purge that meets no record with a timestamp is complete. -/
theorem not_concerns_after {asked : Key} (inRegion : InRegion asked) :
    ¬ Concerns deps codec principal env.now after asked := by
  intro concerns
  rcases eq_key_or asked with plain | timed
  · rw [plain] at concerns inRegion
    rcases leaves.cases asked.minorKey with ⟨notRemoved, notUpdated, same⟩ | ⟨_, gone⟩ |
      ⟨update, isUpdate, isMinor, raw, version, isRaw, left⟩
    · rcases touched_of_concerns order found inRegion
        (concerns_of_records same concerns) with removed | ⟨update, isUpdate, isMinor⟩
      · exact notRemoved removed
      · exact notUpdated update isUpdate isMinor
    · have hidden : ∀ value, after.shown deps env.now (key asked.minorKey) ≠ some value := by
        intro value isShown
        obtain ⟨record, isRecord, _⟩ := shown_eq_some_iff.mp isShown
        cases gone.symm.trans isRecord
      rcases concerns with ⟨value, isShown, _⟩ | ⟨_, value, _, isShown, _⟩ |
        ⟨_, _, value, _, isShown, _⟩
      · exact hidden value isShown
      · exact hidden value isShown
      · exact hidden value isShown
    · rw [← isMinor] at concerns left
      rcases written_back lawful found roundTrips untimed isUpdate isRaw left with
        ⟨isGroup, _, lists⟩ | ⟨isPolicy, _, gives⟩
      · rcases concerns with ⟨value, _, owned⟩ | isListed | ⟨role, isPolicy, _⟩
        · exact not_credential_of_group isGroup (credential_of_owner owned)
        · exact ((lists env.now principal).mp isListed).2 rfl
        · exact not_group_of_policy isPolicy isGroup
      · rcases concerns with ⟨value, _, owned⟩ | ⟨isGroup, _⟩ | ⟨role, isGiven⟩
        · exact not_credential_of_policy isPolicy (credential_of_owner owned)
        · exact not_group_of_policy isPolicy isGroup
        · exact ((gives env.now role principal).mp isGiven).2 rfl
  · exact timed _ (untimed asked inRegion
      (concerns_of_records (leaves.timed asked timed) concerns))

include lawful found leaves roundTrips untimed in
/-- It leaves the tokens and certificates of others. -/
theorem credentials_kept {asked : Key} {record : StoredRecord} {other : Bytes}
    (different : other ≠ principal)
    (owned : owner codec asked.minorKey record.value = some other) :
    store.records deps (encodeKey deps asked).1 = some record ↔
      after.records deps (encodeKey deps asked).1 = some record := by
  have isCredential := credential_of_owner owned
  rcases eq_key_or asked with plain | timed
  · rw [plain]
    rcases leaves.cases asked.minorKey with ⟨_, _, same⟩ | ⟨removed, gone⟩ |
      ⟨update, isUpdate, isMinor, raw, version, isRaw, left⟩
    · rw [same]
    · refine iff_of_false (fun isRecord => different ?_) (by rw [gone]; exact nofun)
      obtain ⟨named, inRegion, isMinor, vouches⟩ := (mem_removalsOf_iff found).mp removed
      have isKey := untimed named inRegion (Or.inl vouches)
      rw [isMinor] at isKey
      obtain ⟨value, isShown, isOwner⟩ := vouches
      rw [isKey] at isShown isOwner
      obtain ⟨present, isPresent, _, rfl, _⟩ := shown_eq_some_iff.mp isShown
      obtain rfl := Option.some.inj (isPresent.symm.trans isRecord)
      exact Option.some.inj (owned.symm.trans isOwner)
    · rw [← isMinor] at isCredential left
      rcases written_back lawful found roundTrips untimed isUpdate isRaw left with
        ⟨isGroup, _⟩ | ⟨isPolicy, _⟩
      · exact absurd isCredential (not_credential_of_group isGroup)
      · exact absurd isCredential (not_credential_of_policy isPolicy)
  · rw [leaves.timed asked timed]

include lawful found leaves roundTrips untimed in
/-- What a purge leaves of a record: it is as it was, it was a token or a certificate, or it is the
group or the policy that was there without the principal. -/
theorem left_cases (asked : Key) :
    after.records deps (encodeKey deps asked).1 = store.records deps (encodeKey deps asked).1 ∨
      IsCredential asked.minorKey ∨
      (groupPrefix.isPrefixOf asked.minorKey = true ∧
        Lists deps codec env.now store asked principal ∧
        ∀ clock member, Lists deps codec clock after asked member ↔
          Lists deps codec env.now store asked member ∧ member ≠ principal) ∨
      policyScopeKey asked.minorKey ≠ none ∧
        (∃ role, Gives deps codec env.now store asked role principal) ∧
        ∀ clock role member, Gives deps codec clock after asked role member ↔
          Gives deps codec env.now store asked role member ∧ member ≠ principal := by
  rcases eq_key_or asked with plain | timed
  · rcases leaves.cases asked.minorKey with ⟨_, _, same⟩ | ⟨removed, _⟩ |
      ⟨update, isUpdate, isMinor, raw, version, isRaw, left⟩
    · rw [← plain] at same
      exact Or.inl same
    · obtain ⟨named, _, isMinor, value, _, owned⟩ := (mem_removalsOf_iff found).mp removed
      rw [isMinor] at owned
      exact Or.inr (Or.inl (credential_of_owner owned))
    · rw [← isMinor] at left
      have back := written_back lawful found roundTrips untimed isUpdate isRaw left
      rw [isMinor, ← plain] at back
      exact Or.inr (Or.inr back)
  · exact Or.inl (leaves.timed asked timed)

include lawful found leaves roundTrips untimed in
/-- It leaves the other members of groups that do not expire. -/
theorem members_kept {asked : Key} {clock : Int64} {member : Bytes}
    (different : member ≠ principal)
    (lasting : Lists deps codec env.now store asked principal →
      Lists deps codec env.now store asked member →
      ∀ record, store.records deps (encodeKey deps asked).1 = some record →
        deps.isExpired clock record.expiresAt = false) :
    Lists deps codec clock store asked member ↔ Lists deps codec clock after asked member := by
  rcases left_cases lawful found leaves roundTrips untimed asked with
    same | isCredential | ⟨_, listed, lists⟩ | ⟨isPolicy, _⟩
  · unfold Lists
    rw [shown_of_records deps clock asked same]
  · exact iff_of_false (fun lists => not_credential_of_group lists.1 isCredential)
      fun lists => not_credential_of_group lists.1 isCredential
  · rw [lists clock member, and_iff_left different]
    obtain ⟨_, value, _, isShown, _⟩ := id listed
    exact ⟨lists_at (alive_of_shown isShown),
      fun isListed => lists_at (lasting listed isListed) isListed⟩
  · exact iff_of_false (fun lists => not_group_of_policy isPolicy lists.1)
      fun lists => not_group_of_policy isPolicy lists.1

include lawful found leaves roundTrips untimed in
/-- It leaves what policies that do not expire give to others. -/
theorem grants_kept {asked : Key} {clock : Int64} {role member : Bytes}
    (different : member ≠ principal)
    (lasting : (∃ role, Gives deps codec env.now store asked role principal) →
      Gives deps codec env.now store asked role member →
      ∀ record, store.records deps (encodeKey deps asked).1 = some record →
        deps.isExpired clock record.expiresAt = false) :
    Gives deps codec clock store asked role member ↔
      Gives deps codec clock after asked role member := by
  rcases left_cases lawful found leaves roundTrips untimed asked with
    same | isCredential | ⟨isGroup, _⟩ | ⟨_, given, gives⟩
  · unfold Gives
    rw [shown_of_records deps clock asked same]
  · exact iff_of_false (fun gives => not_credential_of_policy gives.1 isCredential)
      fun gives => not_credential_of_policy gives.1 isCredential
  · exact iff_of_false (fun gives => not_group_of_policy gives.1 isGroup)
      fun gives => not_group_of_policy gives.1 isGroup
  · rw [gives clock role member, and_iff_left different]
    obtain ⟨_, _, value, _, isShown, _⟩ := id given
    exact ⟨gives_at (alive_of_shown isShown),
      fun isGiven => gives_at (lasting given isGiven) isGiven⟩

include lawful found leaves roundTrips in
theorem purged_of_revocable (revocable : Revocable deps codec principal env.now store) :
    Purged deps codec principal env.now store after := by
  have complete : ∀ asked, InRegion asked →
      ¬ Concerns deps codec principal env.now after asked := fun asked inRegion =>
    not_concerns_after lawful found leaves roundTrips revocable.untimed inRegion
  refine ⟨fun asked inRegion vouches => complete asked inRegion (Or.inl vouches),
    fun asked inRegion lists => complete asked inRegion (Or.inr (Or.inl lists)),
    fun asked inRegion role gives => complete asked inRegion (Or.inr (Or.inr ⟨role, gives⟩)),
    fun asked _ record other different owned =>
      credentials_kept lawful found leaves roundTrips revocable.untimed different owned,
    fun asked inRegion clock member different => ?_,
    fun asked inRegion clock role member different => ?_⟩
  · exact members_kept lawful found leaves roundTrips revocable.untimed different
      fun listed others record isRecord => revocable.lasting asked inRegion
        (Or.inl ⟨listed, member, different, others⟩) record isRecord clock
  · exact grants_kept lawful found leaves roundTrips revocable.untimed different
      fun given others record isRecord => revocable.lasting asked inRegion
        (Or.inr ⟨given, role, member, different, others⟩) record isRecord clock

include lawful found leaves roundTrips in
theorem revocable_of_purged (purged : Purged deps codec principal env.now store after) :
    Revocable deps codec principal env.now store := by
  have untimed : ∀ asked, InRegion asked → Concerns deps codec principal env.now store asked →
      asked = key asked.minorKey := by
    intro asked inRegion concerns
    rcases eq_key_or asked with plain | timed
    · exact plain
    · rcases concerns_of_records (leaves.timed asked timed).symm concerns with
        vouches | lists | ⟨role, gives⟩
      · exact absurd vouches (purged.credentials asked inRegion)
      · exact absurd lists (purged.groups asked inRegion)
      · exact absurd gives (purged.policies asked inRegion role)
  refine ⟨untimed, fun asked inRegion shared record isRecord clock => ?_⟩
  have concerns : Concerns deps codec principal env.now store asked := by
    rcases shared with ⟨lists, _⟩ | ⟨gives, _⟩
    · exact Or.inr (Or.inl lists)
    · exact Or.inr (Or.inr gives)
  have plain := untimed asked inRegion concerns
  have notCredential : asked.minorKey ∉ removalsOf codec principal records := by
    intro removed
    obtain ⟨named, _, isMinor, value, _, owned⟩ := (mem_removalsOf_iff found).mp removed
    rw [isMinor] at owned
    rcases shared with ⟨lists, _⟩ | ⟨⟨role, gives⟩, _⟩
    · exact not_credential_of_group lists.1 (credential_of_owner owned)
    · exact not_credential_of_policy gives.1 (credential_of_owner owned)
  rcases leaves.cases asked.minorKey with ⟨notRemoved, notUpdated, _⟩ | ⟨removed, _⟩ |
    ⟨update, isUpdate, isMinor, raw, version, isRaw, left⟩
  · rcases touched_of_concerns order found inRegion concerns with
      removed | ⟨update, isUpdate, isMinor⟩
    · exact absurd removed notRemoved
    · exact absurd isMinor (notUpdated update isUpdate)
  · exact absurd removed notCredential
  · rw [← isMinor] at plain left
    rw [plain] at inRegion shared isRecord
    rcases written_back lawful found roundTrips untimed isUpdate isRaw left with
      ⟨isGroup, _, lists⟩ | ⟨isPolicy, _, gives⟩
    · rcases shared with ⟨_, member, different, isListed⟩ | ⟨⟨role, isGiven⟩, _⟩
      · obtain ⟨_, value, _, isShown, _⟩ :=
          (purged.otherMembers _ inRegion clock member different).mpr
            ((lists clock member).mpr ⟨isListed, different⟩)
        exact alive_of_shown isShown record isRecord
      · exact absurd isGroup (not_group_of_policy isGiven.1)
    · rcases shared with ⟨isListed, _⟩ | ⟨_, role, member, different, isGiven⟩
      · exact absurd isListed.1 (not_group_of_policy isPolicy)
      · obtain ⟨_, value, _, isShown, _⟩ :=
          (purged.otherGrants _ inRegion clock role member different).mpr
            ((gives clock role member).mpr ⟨isGiven, different⟩)
        exact alive_of_shown isShown record isRecord

end

section

variable {deps : Deps} (lawful : deps.Lawful) {codec : Codec} (roundTrips : codec.RoundTrips)
  {order : MapOrder} {env : Env} (calm : ∀ step, env.fault step = none)
  {engine : Nat → Env × UInt64} {principal : Bytes} {store after : Store}
  (encoded : store.Encoded deps)
  (returned : purgeAlone deps codec order env engine principal store = some (.ok (), after))

include lawful encoded calm returned in
/-- A purge that returns has scanned the region and has carried out its writes. -/
theorem leaves_of_returned :
    ∃ records, (∀ minor value, (minor, value) ∈ records ↔ ∃ asked, InRegion asked ∧
        asked.minorKey = minor ∧ store.shown deps env.now asked = some value) ∧
      Leaves deps codec order principal records store after := by
  obtain ⟨records, scanned, found⟩ := scan_shown lawful encoded calm
  rw [purgeAlone, scanned] at returned
  exact ⟨records, found, leaves_of_performAll lawful (Option.some.inj returned)⟩

include lawful roundTrips calm encoded returned in
/-- A purge that returns without an error leaves nothing of its principal and everything of others,
exactly when the records that have something of the principal have no timestamp, and the groups and
policies among them that have others as well do not expire. -/
theorem purge_exact_iff :
    Purged deps codec principal env.now store after ↔
      Revocable deps codec principal env.now store := by
  obtain ⟨records, found, leaves⟩ := leaves_of_returned lawful calm encoded returned
  exact ⟨revocable_of_purged lawful found leaves roundTrips,
    purged_of_revocable lawful found leaves roundTrips⟩

end

/-- In an orderly region whose records do not expire, every principal can be purged. -/
theorem revocable_of_orderly (deps : Deps) (lawful : deps.Lawful) (codec : Codec) (now : Int64)
    (store : Store) (orderly : PolicyService.Orderly deps codec.decoder now store)
    (endless : ∀ entry ∈ PolicyService.identityEntries store,
      (deps.decodeEnvelope entry.2.value).expiresAt = 0) (principal : Bytes) :
    Revocable deps codec principal now store := by
  -- what is shown under a key of the region is that of an entry of the region
  have entry_of_record : ∀ asked record, InRegion asked →
      store.records deps (encodeKey deps asked).1 = some record →
      asked = key asked.minorKey ∧ record.expiresAt = 0 := by
    intro asked record inRegion isRecord
    cases read : store.db.read (encodeKey deps asked).1 with
    | none =>
      rw [Store.records, read] at isRecord
      cases isRecord
    | some item =>
      rw [Store.records, read] at isRecord
      obtain rfl := Option.some.inj isRecord
      have isEntry := PolicyService.mem_identityEntries inRegion.1 inRegion.2 read
      obtain ⟨accepted, other, isKey⟩ := orderly.plain _ isEntry
      have same := encodeKey_inj_of_accepted deps lawful _ (key other) accepted isKey
      exact ⟨by rw [same]; rfl, endless _ isEntry⟩
  constructor
  · rintro asked inRegion (⟨value, isShown, _⟩ | ⟨_, value, _, isShown, _⟩ |
      ⟨_, _, value, _, isShown, _⟩)
    all_goals
      obtain ⟨record, isRecord, _⟩ := shown_eq_some_iff.mp isShown
      exact (entry_of_record asked record inRegion isRecord).1
  · intro asked inRegion _ record isRecord clock
    rw [(entry_of_record asked record inRegion isRecord).2]
    exact lawful.neverExpires clock

/-! ### Purges of one user -/

theorem sampleRecords_roundTrips : sampleRecords.RoundTrips where
  group group raw encoded := by
    obtain rfl := Except.ok.inj encoded
    refine ⟨?_, ?_⟩
    · exact List.ne_nil_of_length_pos (by
        rw [show (Format.bytes.pair Format.bytes.list).put (group.name, group.members) =
          Format.bytes.put group.name ++ Format.bytes.list.put group.members from rfl,
          List.length_append]
        exact Nat.add_pos_right _ (Nat.zero_lt_of_lt (Format.length_lt_putMany _ _)))
    · simp only [sampleRecords, PolicyService.sampleDecoder, Format.getAll_put, Option.map_some]
  policy policy raw encoded := by
    obtain ⟨other, isOther, filled, decoded⟩ := PolicyService.sampleCodec_lawful policy
    obtain rfl := Except.ok.inj (isOther.symm.trans encoded)
    exact ⟨filled, decoded⟩

/-- A purge of alice on a healthy node, at second 100. -/
def purgeAlice (store : Store) : Option (Except Err Unit × Store) :=
  purgeAlone Reference.deps sampleRecords PolicyService.insertionOrder (.healthy 100)
    (fun _ => (.healthy 100, 0)) (str "user:alice") store

/-- The group that may read loses its member, and nothing else changes. -/
theorem purge_exact_group :
    ∃ after, purgeAlice PolicyService.groupStore = some (.ok (), after) ∧
      Purged Reference.deps sampleRecords (str "user:alice") 100 PolicyService.groupStore
        after := by
  have returned : (purgeAlice PolicyService.groupStore).map Prod.fst = some (.ok ()) := by
    decide +kernel
  obtain ⟨⟨outcome, after⟩, isResult, rfl⟩ := Option.map_eq_some_iff.mp returned
  have encoded : PolicyService.groupStore.Encoded Reference.deps :=
    encoded_runCommand Reference.deps (.healthy 100) _
      (encoded_runCommand Reference.deps (.healthy 100) _ (encoded_empty Reference.deps) 0
        (.put { key := some (key (str "group/ops")), value := PolicyService.sampleGroup })) 0
      (.put { key := some (key policyInstance), value := PolicyService.samplePolicy })
  refine ⟨after, isResult, (purge_exact_iff Reference.lawful sampleRecords_roundTrips
    (fun _ => rfl) encoded isResult).mpr ?_⟩
  exact revocable_of_orderly Reference.deps Reference.lawful sampleRecords 100 _
    PolicyService.groupStore_orderly (by decide +kernel) _

/-- The policy of the instance, under a key with a timestamp. -/
def timedKey : Key := { key policyInstance with timestamp := some ⟨0, 1⟩ }

/-- A store in which alice may read, by a policy whose key has a timestamp. -/
def timedStore : Store :=
  (runCommand Reference.deps (.healthy 100) Store.empty 0 (.put
    { key := some timedKey
      value := (Format.bytes.pair Format.bytes.list).list.put
        [(str "roles/cdb.viewer", [str "user:alice"])] })).2

/-- A store in which alice and bob are in a group that expires at second 200. -/
def expiringStore : Store :=
  (runCommand Reference.deps (.healthy 100) Store.empty 0 (.put
    { key := some (key (str "group/ops"))
      value := (Format.bytes.pair Format.bytes.list).put
        (str "ops", [str "user:alice", str "user:bob"])
      expiresAt := 200 })).2

theorem timedStore_not_revocable :
    ¬ Revocable Reference.deps sampleRecords (str "user:alice") 100 timedStore := by
  intro revocable
  have isShown : timedStore.shown Reference.deps 100 timedKey =
      some ((Format.bytes.pair Format.bytes.list).list.put
        [(str "roles/cdb.viewer", [str "user:alice"])]) := by
    decide +kernel
  have plain := revocable.untimed timedKey ⟨rfl, rfl⟩ (Or.inr (Or.inr ⟨str "roles/cdb.viewer",
    by decide, _, ⟨[⟨str "roles/cdb.viewer", [str "user:alice"]⟩]⟩, isShown, rfl,
    ⟨str "roles/cdb.viewer", [str "user:alice"]⟩, List.mem_cons_self, rfl, List.mem_cons_self⟩))
  exact absurd (congrArg Key.timestamp plain) (by decide)

theorem expiringStore_not_revocable :
    ¬ Revocable Reference.deps sampleRecords (str "user:alice") 100 expiringStore := by
  intro revocable
  have isShown : expiringStore.shown Reference.deps 100 (key (str "group/ops")) =
      some ((Format.bytes.pair Format.bytes.list).put
        (str "ops", [str "user:alice", str "user:bob"])) := by
    decide +kernel
  have lists : ∀ member, member ∈ [str "user:alice", str "user:bob"] →
      Lists Reference.deps sampleRecords 100 expiringStore (key (str "group/ops")) member :=
    fun member listed => ⟨rfl, _, ⟨str "ops", [str "user:alice", str "user:bob"]⟩, isShown, rfl,
      listed⟩
  obtain ⟨record, isRecord, _⟩ := shown_eq_some_iff.mp isShown
  have alive := revocable.lasting (key (str "group/ops")) ⟨rfl, rfl⟩
    (Or.inl ⟨lists _ List.mem_cons_self, str "user:bob", by decide,
      lists _ (List.mem_cons_of_mem _ List.mem_cons_self)⟩) record isRecord 300
  have expires : (expiringStore.records Reference.deps
      (encodeKey Reference.deps (key (str "group/ops"))).1).map StoredRecord.expiresAt =
        some 200 := by
    decide +kernel
  rw [isRecord] at expires
  rw [Option.some.inj expires] at alive
  exact absurd alive (by decide)

/-- Purges that return without an error: one leaves a role of alice in place, the other keeps bob in
the group for good. -/
theorem purge_not_exact :
    (∃ after, purgeAlice timedStore = some (.ok (), after) ∧
        ¬ Purged Reference.deps sampleRecords (str "user:alice") 100 timedStore after) ∧
      ∃ after, purgeAlice expiringStore = some (.ok (), after) ∧
        ¬ Purged Reference.deps sampleRecords (str "user:alice") 100 expiringStore after := by
  have spoils : ∀ store : Store, store.Encoded Reference.deps →
      (purgeAlice store).map Prod.fst = some (.ok ()) →
      ¬ Revocable Reference.deps sampleRecords (str "user:alice") 100 store →
      ∃ after, purgeAlice store = some (.ok (), after) ∧
        ¬ Purged Reference.deps sampleRecords (str "user:alice") 100 store after := by
    intro store encoded returned irrevocable
    obtain ⟨⟨outcome, after⟩, isResult, rfl⟩ := Option.map_eq_some_iff.mp returned
    refine ⟨after, isResult, fun purged => irrevocable ?_⟩
    obtain ⟨records, found, leaves⟩ :=
      leaves_of_returned Reference.lawful (fun _ => rfl) encoded isResult
    exact revocable_of_purged Reference.lawful found leaves sampleRecords_roundTrips purged
  exact ⟨spoils timedStore
      (encoded_runCommand Reference.deps _ _ (encoded_empty Reference.deps) 0 _)
      (by decide +kernel) timedStore_not_revocable,
    spoils expiringStore
      (encoded_runCommand Reference.deps _ _ (encoded_empty Reference.deps) 0 _)
      (by decide +kernel) expiringStore_not_revocable⟩

end Administration

end ConsensusDB
