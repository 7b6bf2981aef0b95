/-
This file is about tokens and certificates outliving their principals. Every request
that creates a credential checks first that the record of the principal is there, and
writes later; a deletion removes the record and then what a scan has found. Both leave
a gap: a credential may be written after the scan of a deletion, and a deletion may end
before its last removal.

In every run whose steps close the two gaps -- a credential is written while its
principal has a record, and a deletion that has removed the record goes on, by a scan of
the current store, to the last removal -- each credential names a principal that has its
record, or some deletion in progress is still to remove it. When no request is in
progress, authentication returns no deleted principal.
-/

import ConsensusDB.Administration

namespace ConsensusDB

open Wire Iam

namespace AuthService

/-- `AuthenticateToken` returns the principal that the index has for the hash of a token. -/
def authenticateToken (deps : Deps) (tokenOf : Bytes → Option TokenRecord)
    (hashToken : Bytes → Bytes) (env : Env) (clock : Int64) (store : Store) (token : Bytes) :
    Except Err Bytes :=
  match load deps env store tokenOf (tokenIndexKey (hashToken token)) with
  | none => .error (.text "invalid token")
  | some record =>
    if record.principal = [] then .error (.text "invalid token")
    else if record.expiresAt ≠ 0 ∧ clock > record.expiresAt then .error (.text "token expired")
    else .ok record.principal

end AuthService

namespace Administration

open Console (principalExists)

/-! ### Principals and what names them -/

/-- The principal has its record. -/
def Present (deps : Deps) (store : Store) (principal : Bytes) : Prop :=
  ∃ minor record, principalStorageMinor principal = some minor ∧
    recordAt deps store minor = some record ∧ record.value ≠ []

/-- The record of a minor key is a credential that names the principal. -/
def Names (deps : Deps) (codec : Codec) (store : Store) (minor principal : Bytes) : Prop :=
  ∃ record, recordAt deps store minor = some record ∧ record.value ≠ [] ∧
    owner codec minor record.value = some principal

/-- The request is deleting the principal and will remove the record, or has yet to scan. -/
def Phase.Revokes (phase : Phase) (minor principal : Bytes) : Prop :=
  (∃ target, phase.request.deletes = some (principal, target)) ∧
    (phase.stage = .scanning ∨
      ∃ removals updates, phase.stage = .purging removals updates ∧ minor ∈ removals)

/-- The request has answered or has ended. -/
def Phase.Over (phase : Phase) : Prop :=
  (∃ answer, phase.stage = .answered answer) ∨ phase.stage = .gone

/-! ### Steps that leave no gap -/

section

variable (deps : Deps) (codec : Codec)

/-- A credential that is written names a principal that has its record. -/
def Grounded (store : Store) (write : KeyWrite) : Prop :=
  ∀ minor raw condition principal, write = .put (key minor) raw condition →
    owner codec minor raw = some principal → Present deps store principal

/-- The write takes away the record of a principal. -/
def RemovesPrincipal (write : KeyWrite) : Prop :=
  ∃ principal minor, principalStorageMinor principal = some minor ∧ write = .remove (key minor)

/-- A step of a deletion goes on: the scan sees the current store, and a removal is carried out. -/
def Continues (access : Access) (store : Store) : Stage → Prop
  | .scanning => access.age = 0 ∧ ∀ step, access.env.fault step = none
  | .purging (minor :: _) _ => access.fate = .replied ∧
    (Storage.remove deps access.env store { key := some (key minor) }).1 = .ok ⟨true⟩
  | _ => True

/-- The steps that leave no gap. A request that has removed the record of a principal does not stop
before it has removed the credentials, a lost removal of such a record takes no effect later, and
others leave the identity region alone. -/
def Careful {Id : Type} (step : Requests.Step Id Request Input Event)
    (state : Requests.State Id Shared Phase) : Prop :=
  match step with
  | .start _ _ => True
  | .advance id input => ∀ phase, state.phases id = some phase →
    (∀ asked, write phase = some asked → Grounded deps codec state.shared.store asked) ∧
      Continues deps input.access state.shared.store phase.stage
  | .stop id => ∀ phase, state.phases id = some phase →
    ∀ minor principal, ¬ phase.Revokes minor principal
  | .occur (.late position _ _) => ∀ asked, state.shared.pending[position]? = some asked →
    Grounded deps codec state.shared.store asked ∧ ¬ RemovesPrincipal asked
  | .occur (.other command _ _) => ¬ command.IsSweep ∧ ∀ named ∈ command.keys, ¬ InRegion named

/-- What a lawful encoding leaves is not empty. -/
structure Codec.Filled : Prop where
  user : ∀ name hash createdAt raw, codec.user name hash createdAt = .ok raw → raw ≠ []
  serviceAccount : ∀ name hash createdAt raw,
    codec.serviceAccount name hash createdAt = .ok raw → raw ≠ []
  token : ∀ record raw, codec.token record = .ok raw → raw ≠ []
  cert : ∀ record raw, codec.cert.encode record = .ok raw → raw ≠ []
  group : ∀ record raw, codec.group record = .ok raw → raw ≠ []
  policy : ∀ record raw, codec.policy.encode record = .ok raw → raw ≠ []

end

/-! ### Names of principals -/

/-- The record of a principal is that of a user or of a service account with its name. -/
theorem principalStorageMinor_cases {principal minor : Bytes}
    (isMinor : principalStorageMinor principal = some minor) :
    ∃ name, (principal = principalUser name ∧ minor = userPrefix ++ name) ∨
      (principal = principalServiceAccount name ∧ minor = serviceAccountPrefix ++ name) := by
  unfold principalStorageMinor parsePrincipal at isMinor
  by_cases colon : 58 ∈ principal
  · have parts := Url.cut_append 58 principal colon
    simp only [if_pos colon] at isMinor
    refine ⟨(Url.cut 58 principal).2, ?_⟩
    split at isMinor
    · cases isMinor
    · split at isMinor
      · rename_i isKind
        obtain rfl := Option.some.inj isMinor
        exact Or.inl ⟨by rw [← parts, isKind]; rfl, rfl⟩
      · split at isMinor
        · rename_i isKind
          obtain rfl := Option.some.inj isMinor
          exact Or.inr ⟨by rw [← parts, isKind]; rfl, rfl⟩
        · cases isMinor
  · rw [if_neg colon] at isMinor
    cases isMinor

/-- The record of a principal is no credential. -/
theorem not_credential {principal minor : Bytes}
    (isMinor : principalStorageMinor principal = some minor) : ¬ IsCredential minor := by
  have letters : minor.head? = some 117 ∨ minor.head? = some 115 := by
    obtain ⟨name, ⟨_, rfl⟩ | ⟨_, rfl⟩⟩ := principalStorageMinor_cases isMinor
    · exact Or.inl rfl
    · exact Or.inr rfl
  rintro (isToken | isCert)
  · have letter := head_of_isPrefixOf (show tokenIndexPrefix = 116 :: _ from rfl) isToken
    rw [letter] at letters
    exact absurd letters (by decide)
  · have letter := head_of_isPrefixOf (show certPrefix = 99 :: _ from rfl) isCert
    rw [letter] at letters
    exact absurd letters (by decide)

/-- A deletion that removes the record of a principal deletes this principal. -/
theorem deletes_principal {request : Request} {deleted principal minor : Bytes}
    (deletes : request.deletes = some (deleted, minor))
    (isMinor : principalStorageMinor principal = some minor) : deleted = principal := by
  obtain ⟨name, ⟨rfl, isUser⟩ | ⟨rfl, isAccount⟩⟩ := principalStorageMinor_cases isMinor
  · cases request with
    | deleteUser other =>
      obtain ⟨rfl, rfl⟩ := Prod.mk.inj (Option.some.inj deletes)
      rw [List.append_cancel_left isUser]
    | deleteServiceAccount other =>
      obtain ⟨rfl, rfl⟩ := Prod.mk.inj (Option.some.inj deletes)
      have letters : some (115 : UInt8) = some 117 := congrArg List.head? isUser
      exact absurd letters (by decide)
    | _ => cases deletes
  · cases request with
    | deleteUser other =>
      obtain ⟨rfl, rfl⟩ := Prod.mk.inj (Option.some.inj deletes)
      have letters : some (117 : UInt8) = some 115 := congrArg List.head? isAccount
      exact absurd letters (by decide)
    | deleteServiceAccount other =>
      obtain ⟨rfl, rfl⟩ := Prod.mk.inj (Option.some.inj deletes)
      rw [List.append_cancel_left isAccount]
    | _ => cases deletes

/-! ### What a write does to names -/

/-- The write leaves no empty value. -/
def Filled (write : KeyWrite) : Prop :=
  ∀ key raw condition, write = .put key raw condition → raw ≠ []

section

variable {deps : Deps} (lawful : deps.Lawful) {codec : Codec} {store : Store} {asked : KeyWrite}
  (env : Env) (version : UInt64)

include lawful

/-- A credential after a write was there, or names a principal that has its record. -/
theorem names_perform (grounded : Grounded deps codec store asked) {minor principal : Bytes}
    (names : Names deps codec (asked.perform deps env store version).2 minor principal) :
    Names deps codec store minor principal ∨ Present deps store principal := by
  obtain ⟨record, found, filled, owned⟩ := names
  rcases recordAt_perform deps lawful store env version asked with ⟨same, _⟩ | ⟨_, given, left⟩
  · rw [same] at found
    exact Or.inl ⟨record, found, filled, owned⟩
  · rw [left minor] at found
    split at found
    · rename_i about
      cases asked with
      | put written raw condition =>
        obtain rfl := Option.some.inj found
        obtain rfl : written = key minor := about
        exact Or.inr (grounded minor raw condition principal rfl owned)
      | remove removed => cases found
    · exact Or.inl ⟨record, found, filled, owned⟩

/-- A principal keeps its record, unless the write takes it away. -/
theorem present_perform (isFilled : Filled asked) {principal : Bytes}
    (present : Present deps store principal) :
    Present deps (asked.perform deps env store version).2 principal ∨
      ((asked.perform deps env store version).1 = .ok ⟨true⟩ ∧
        ∃ minor, principalStorageMinor principal = some minor ∧ asked = .remove (key minor)) := by
  obtain ⟨minor, record, isMinor, found, filled⟩ := present
  rcases recordAt_perform deps lawful store env version asked with
    ⟨same, _⟩ | ⟨updated, given, left⟩
  · rw [same]
    exact Or.inl ⟨minor, record, isMinor, found, filled⟩
  · by_cases about : asked.key = key minor
    · cases asked with
      | put written raw condition =>
        refine Or.inl ⟨minor, ⟨raw, given, 0, 0⟩, isMinor, ?_, isFilled written raw condition rfl⟩
        rw [left minor, if_pos about]
        rfl
      | remove removed =>
        obtain rfl : removed = key minor := about
        exact Or.inr ⟨updated, minor, isMinor, rfl⟩
    · refine Or.inl ⟨minor, record, isMinor, ?_, filled⟩
      rw [left minor, if_neg about]
      exact found

/-- What a removal takes away names nobody. -/
theorem not_names_removed {minor principal : Bytes}
    (removed : ((KeyWrite.remove (key minor)).perform deps env store version).1 = .ok ⟨true⟩) :
    ¬ Names deps codec ((KeyWrite.remove (key minor)).perform deps env store version).2 minor
      principal := by
  rintro ⟨record, found, _⟩
  rcases recordAt_perform deps lawful store env version (.remove (key minor)) with
    ⟨_, silent⟩ | ⟨_, given, left⟩
  · exact silent removed
  · rw [left minor, if_pos (show KeyWrite.key _ = key minor from rfl)] at found
    cases found

end

/-! ### What requests have in hand -/

/-- What a request is about to write is not empty, and what a purge is about to remove are
credentials. -/
def Orderly : Stage → Prop
  | .creatingUser raw => raw ≠ []
  | .creatingAccount _ _ raw => raw ≠ []
  | .storing _ raw _ => raw ≠ []
  | .binding _ _ raw _ => raw ≠ []
  | .purging removals updates => (∀ minor ∈ removals, IsCredential minor) ∧
    ∀ update ∈ updates, ∀ raw, update.raw = .ok raw → raw ≠ []
  | _ => True

section

variable {deps : Deps} {codec : Codec} (filled : codec.Filled)

theorem filled_of_orderly {phase : Phase} (orderly : Orderly phase.stage) {asked : KeyWrite}
    (asks : write phase = some asked) : Filled asked := by
  rintro written raw condition rfl
  cases asks_of_write asks with
  | user username password value => exact orderly
  | account name token hash value => exact orderly
  | update request target read value rest => exact orderly.2 _ List.mem_cons_self raw rfl
  | credential request target value answer => exact orderly
  | binding request target read value answer => exact orderly

include filled in
theorem orderly_begin {input : Input} {store : Store} {request : Request} {stage : Stage}
    (isFirst : Begins deps codec input store request stage) : Orderly stage := by
  cases isFirst with
  | refused request status err => trivial
  | user encoded => exact filled.user _ _ _ _ encoded
  | account encoded => exact filled.serviceAccount _ _ _ _ encoded
  | deletion deletes => trivial
  | token encoded => exact filled.token _ _ encoded
  | registration encoded => exact filled.cert _ _ encoded
  | issue encoded => exact filled.cert _ _ encoded
  | change got encoded => exact filled.policy _ _ encoded
  | add got stored encoded => exact filled.policy _ _ encoded

include filled in
theorem orderly_look (input : Input) (store : Store) (phase : Phase)
    (orderly : Orderly phase.stage) : Orderly (look deps codec input store phase).stage := by
  obtain ⟨request, stage⟩ := phase
  cases stage with
  | start => exact orderly_begin filled (begins deps codec input store request)
  | scanning =>
    simp only [look]
    split
    · trivial
    · unfold purgePrincipal
      split
      · trivial
      · trivial
      · rename_i records _
        refine ⟨fun minor member => ?_, fun update member raw isRaw => ?_⟩
        · obtain ⟨value, _, owned⟩ := mem_removalsOf.mp member
          exact credential_of_owner owned
        · rcases (visit_of_mem_updatesOf member).2 with isGroup | isPolicy
          · obtain ⟨_, group, isUpdate⟩ := visit_group isGroup
            exact filled.group group raw ((congrArg Update.raw isUpdate).symm.trans isRaw)
          · obtain ⟨_, policy, _, isUpdate⟩ := visit_policy isPolicy
            exact filled.policy _ raw ((congrArg Update.raw isUpdate).symm.trans isRaw)
  | purging removals updates =>
    rcases removals with _ | ⟨minor, rest⟩
    · rcases updates with _ | ⟨⟨minor, read, err | value⟩, rest⟩
      · trivial
      · trivial
      · exact orderly
    · exact orderly
  | _ => exact orderly

include filled in
theorem orderly_resume {phase : Phase} {asked : KeyWrite} (asks : write phase = some asked)
    (orderly : Orderly phase.stage) (reply : Except Err Status) :
    Orderly (resume codec phase reply).stage := by
  cases asks_of_write asks with
  | user username password raw => rcases reply with err | ⟨_ | _⟩ <;> trivial
  | account name token hash raw =>
    rcases reply with err | ⟨_ | _⟩
    · trivial
    · trivial
    · simp only [resume, writeTokenIndex]
      split
      · trivial
      · rename_i value encoded
        exact filled.token _ value encoded
  | record request principal target deletes => cases reply <;> trivial
  | removal request removal rest updates =>
    cases reply with
    | error err => trivial
    | ok status =>
      exact ⟨fun each member => orderly.1 each (List.mem_cons_of_mem _ member), orderly.2⟩
  | update request target read raw rest =>
    cases reply with
    | error err => trivial
    | ok status =>
      exact ⟨orderly.1, fun each member => orderly.2 each (List.mem_cons_of_mem _ member)⟩
  | credential request target raw answer =>
    cases reply with
    | error err => cases request <;> trivial
    | ok status => trivial
  | binding request target read raw answer =>
    cases reply with
    | error err => cases request <;> trivial
    | ok status => trivial

end

/-! ### Runs -/

/-- Every credential names a principal that has its record, or a deletion is to remove it. -/
structure Sound {Id : Type} (deps : Deps) (codec : Codec) (state : Requests.State Id Shared Phase) :
    Prop where
  encoded : state.shared.store.Encoded deps
  lasting : ∀ minor record, recordAt deps state.shared.store minor = some record →
    record.expiresAt = 0
  pending : ∀ asked ∈ state.shared.pending, Filled asked
  orderly : ∀ id phase, state.phases id = some phase → Orderly phase.stage
  covered : ∀ minor principal, Names deps codec state.shared.store minor principal →
    Present deps state.shared.store principal ∨
      ∃ id phase, state.phases id = some phase ∧ phase.Revokes minor principal

section

variable {Id : Type} [DecidableEq Id] {deps : Deps} (lawful : deps.Lawful) {codec : Codec}
  (filled : codec.Filled) {mode : Mode} {state : Requests.State Id Shared Phase}

include lawful in
theorem lasting_perform {store : Store}
    (lasting : ∀ minor record, recordAt deps store minor = some record → record.expiresAt = 0)
    (env : Env) (version : UInt64) (asked : KeyWrite) (minor : Bytes) (record : StoredRecord)
    (found : recordAt deps (asked.perform deps env store version).2 minor = some record) :
    record.expiresAt = 0 := by
  rcases recordAt_perform deps lawful store env version asked with ⟨same, _⟩ | ⟨_, given, left⟩
  · rw [same] at found
    exact lasting minor record found
  · rw [left minor] at found
    split at found
    · cases asked with
      | put written raw condition =>
        obtain rfl := Option.some.inj found
        rfl
      | remove removed => cases found
    · exact lasting minor record found

/-- A request that enters a phase keeps what others are to remove. -/
theorem Sound.move (sound : Sound deps codec state) (id : Id) {before phase : Phase}
    (found : state.phases id = some before) (orderly : Orderly phase.stage)
    (kept : ∀ minor principal, Names deps codec state.shared.store minor principal →
      before.Revokes minor principal → phase.Revokes minor principal) :
    Sound deps codec (state.move id phase) := by
  refine ⟨sound.encoded, sound.lasting, sound.pending, fun other each isPhase => ?_,
    fun minor principal names => ?_⟩
  · rcases Requests.State.move_cases isPhase with ⟨_, rfl⟩ | ⟨_, earlier⟩
    · exact orderly
    · exact sound.orderly other each earlier
  · rcases sound.covered minor principal names with present | ⟨other, each, isPhase, revokes⟩
    · exact Or.inl present
    · by_cases same : other = id
      · subst same
        obtain rfl := Option.some.inj (isPhase.symm.trans found)
        exact Or.inr ⟨other, phase, Requests.State.move_self state other phase,
          kept minor principal names revokes⟩
      · refine Or.inr ⟨other, each, ?_, revokes⟩
        rw [Requests.State.move_of_ne state id phase same]
        exact isPhase

/-- Only a deletion takes away the record of its principal, before its scan. -/
theorem removing_of_principal {phase : Phase} (orderly : Orderly phase.stage)
    {principal target : Bytes} (isMinor : principalStorageMinor principal = some target)
    (asks : write phase = some (.remove (key target))) :
    phase.stage = .removing ∧ phase.request.deletes = some (principal, target) := by
  obtain ⟨written, isWritten⟩ : ∃ written, written = KeyWrite.remove (key target) := ⟨_, rfl⟩
  rw [← isWritten] at asks
  cases asks_of_write asks with
  | record request deleted minor deletes =>
    obtain rfl : minor = target := key_inj (KeyWrite.remove.inj isWritten)
    rw [deletes_principal deletes isMinor] at deletes
    exact ⟨rfl, deletes⟩
  | removal request minor rest updates =>
    obtain rfl : minor = target := key_inj (KeyWrite.remove.inj isWritten)
    exact absurd (orderly.1 minor List.mem_cons_self) (not_credential isMinor)
  | _ => cases isWritten

/-- A request that is to remove something and asks for a write removes what is next in its list. -/
theorem removal_of_revokes {phase : Phase} {asked : KeyWrite} (asks : write phase = some asked)
    {minor principal : Bytes} (revokes : phase.Revokes minor principal) :
    ∃ head rest updates, phase.stage = .purging (head :: rest) updates ∧
      asked = .remove (key head) ∧ minor ∈ head :: rest := by
  obtain ⟨request, stage⟩ := phase
  obtain ⟨_, rfl | ⟨removals, updates, rfl, member⟩⟩ := revokes
  · cases asks
  · rcases removals with _ | ⟨head, rest⟩
    · exact absurd member List.not_mem_nil
    · exact ⟨head, rest, updates, rfl, (Option.some.inj asks).symm, member⟩

include lawful in
/-- After a write that is carried out or fails, every credential is covered. -/
theorem Sound.covered_write (sound : Sound deps codec state) {id : Id} {phase : Phase}
    (found : state.phases id = some phase) {asked : KeyWrite} (asks : write phase = some asked)
    (grounded : Grounded deps codec state.shared.store asked) {access : Access}
    (continues : Continues deps access state.shared.store phase.stage) (version : UInt64)
    (minor principal : Bytes)
    (names : Names deps codec (asked.perform deps access.env state.shared.store version).2 minor
      principal) :
    Present deps (asked.perform deps access.env state.shared.store version).2 principal ∨
      ∃ other each, (state.move id (resume codec phase
        (asked.perform deps access.env state.shared.store version).1)).phases other = some each ∧
        each.Revokes minor principal := by
  have orderly := sound.orderly id phase found
  have kept : Present deps state.shared.store principal →
      Present deps (asked.perform deps access.env state.shared.store version).2 principal ∨
        ∃ other each, (state.move id (resume codec phase
          (asked.perform deps access.env state.shared.store version).1)).phases other = some each ∧
          each.Revokes minor principal := by
    intro present
    rcases present_perform lawful access.env version (filled_of_orderly orderly asks) present with
      still | ⟨updated, target, isMinor, rfl⟩
    · exact Or.inl still
    · -- the request has taken the record away and is to scan next
      obtain ⟨removing, deletes⟩ := removing_of_principal orderly isMinor asks
      refine Or.inr ⟨id, _, Requests.State.move_self state id _, ⟨target, deletes⟩, Or.inl ?_⟩
      simp only [resume, removing, updated]
  rcases names_perform lawful access.env version grounded names with before | present
  · rcases sound.covered minor principal before with present | ⟨other, each, isPhase, revokes⟩
    · exact kept present
    · by_cases same : other = id
      · subst same
        obtain rfl := Option.some.inj (isPhase.symm.trans found)
        obtain ⟨head, rest, updates, isStage, rfl, member⟩ := removal_of_revokes asks revokes
        rw [isStage] at continues
        have removed : ((KeyWrite.remove (key head)).perform deps access.env state.shared.store
            version).1 = .ok ⟨true⟩ := continues.2
        rcases List.mem_cons.mp member with rfl | later
        · exact absurd names (not_names_removed lawful access.env version removed)
        · refine Or.inr ⟨other, _, Requests.State.move_self state other _, revokes.1,
            Or.inr ⟨rest, updates, ?_, later⟩⟩
          simp only [resume, isStage, removed]
      · refine Or.inr ⟨other, each, ?_, revokes⟩
        rw [Requests.State.move_of_ne state id _ same]
        exact isPhase
  · exact kept present

omit [DecidableEq Id] in
include lawful in
/-- A scan of the current store finds every credential of the principal. -/
theorem Sound.revokes_scan (sound : Sound deps codec state) {phase : Phase} {input : Input}
    (scanning : phase.stage = .scanning)
    (calm : ∀ step, input.access.env.fault step = none) {minor principal : Bytes}
    (names : Names deps codec state.shared.store minor principal)
    (revokes : phase.Revokes minor principal) :
    (look deps codec input state.shared.store phase).Revokes minor principal := by
  obtain ⟨record, found, filled, owned⟩ := names
  obtain ⟨⟨target, deletes⟩, _⟩ := revokes
  obtain ⟨records, scanned, listed⟩ :=
    mem_scanIAM deps lawful state.shared.store sound.encoded input.access.env calm
  have alive : deps.isExpired input.access.env.now record.expiresAt = false := by
    rw [sound.lasting minor record found]
    exact lawful.neverExpires _
  have member : (minor, record.value) ∈ records :=
    (listed minor record.value).mpr ⟨filled, key minor, record, ⟨rfl, rfl⟩, rfl, found, alive, rfl⟩
  refine ⟨⟨target, deletes⟩, Or.inr ⟨removalsOf codec principal records,
    updatesOf codec principal input.order records, ?_, mem_removalsOf.mpr ⟨_, member, owned⟩⟩⟩
  simp only [look, scanning, deletes, purgePrincipal, scanned]

include lawful filled in
theorem Sound.advance (sound : Sound deps codec state) {id : Id} {phase : Phase} (input : Input)
    (found : state.phases id = some phase)
    (grounded : ∀ asked, write phase = some asked → Grounded deps codec state.shared.store asked)
    (continues : Continues deps input.access state.shared.store phase.stage) :
    Sound deps codec (Requests.State.move
      { state with shared := ((handler deps codec).next deps mode input state.shared phase).2 } id
      ((handler deps codec).next deps mode input state.shared phase).1) := by
  have orderly := sound.orderly id phase found
  rcases (handler deps codec).next_cases deps mode input state.shared phase with
    ⟨asks, looks⟩ | waits | ⟨asked, reply, after, asks, submitted, resumes⟩
  · rw [looks]
    refine sound.move id found (orderly_look filled input _ phase orderly)
      fun minor principal names revokes => ?_
    rcases revokes.2 with scanning | ⟨removals, updates, isStage, member⟩
    · rw [scanning] at continues
      show (look deps codec input (state.shared.seen input.access.age) phase).Revokes minor
        principal
      rw [continues.1, Shared.seen_zero]
      exact sound.revokes_scan lawful scanning continues.2 names revokes
    · rcases removals with _ | ⟨head, rest⟩
      · exact absurd member List.not_mem_nil
      · have writes : write phase = some (.remove (key head)) := by simp only [write, isStage]
        exact absurd (asks.symm.trans writes) (Option.some_ne_none _).symm
  · rw [waits]
    exact sound.move id found orderly fun _ _ _ revokes => revokes
  · rw [resumes]
    rcases submit_cases deps mode submitted with ⟨version, _, _, rfl, rfl⟩ | ⟨lost, rfl, rfl⟩
    · refine ⟨encoded_perform deps _ _ _ _ sound.encoded,
        lasting_perform lawful sound.lasting _ _ _, sound.pending, fun other each isPhase => ?_,
        sound.covered_write lawful found asks (grounded asked asks) continues version⟩
      rcases Requests.State.move_cases isPhase with ⟨_, rfl⟩ | ⟨_, earlier⟩
      · exact orderly_resume filled asks orderly _
      · exact sound.orderly other each earlier
    · have pending : ∀ each ∈ state.shared.pending ++ [asked], Filled each := by
        intro each member
        rcases List.mem_append.mp member with earlier | last
        · exact sound.pending each earlier
        · rw [List.mem_singleton.mp last]
          exact filled_of_orderly orderly asks
      have waiting : Sound deps codec { state with
          shared := { state.shared with pending := state.shared.pending ++ [asked] } } :=
        ⟨sound.encoded, sound.lasting, pending, sound.orderly, sound.covered⟩
      refine waiting.move id found (orderly_resume filled asks orderly _)
        fun minor principal _ revokes => ?_
      -- a removal of a purge gets its reply
      obtain ⟨head, rest, updates, isStage, _, _⟩ := removal_of_revokes asks revokes
      rw [isStage] at continues
      have both : Setup.Fate.replied = .lost := continues.1.symm.trans lost
      cases both

omit [DecidableEq Id] in
include lawful in
/-- A careful event keeps every credential covered. -/
theorem Sound.occur (sound : Sound deps codec state) {event : Event}
    (careful : Careful deps codec (.occur event : Requests.Step Id Request Input Event) state) :
    Sound deps codec { state with shared := event.occur deps mode state.shared } := by
  cases event with
  | late position env index =>
    simp only [Event.occur]
    split
    · rename_i asked version isPending _
      obtain ⟨grounded, keeps⟩ := careful asked isPending
      have isFilled := sound.pending asked (List.mem_of_getElem? isPending)
      refine ⟨encoded_perform deps _ _ _ _ sound.encoded,
        lasting_perform lawful sound.lasting _ _ _,
        fun each member => sound.pending each (List.mem_of_mem_eraseIdx member), sound.orderly,
        fun minor principal names => ?_⟩
      have present : Present deps state.shared.store principal → Present deps
          (asked.perform deps env state.shared.store version).2 principal := by
        intro before
        rcases present_perform lawful env version isFilled before with
          still | ⟨_, target, isMinor, removal⟩
        · exact still
        · exact absurd ⟨principal, target, isMinor, removal⟩ keeps
      rcases names_perform lawful env version grounded names with before | already
      · exact (sound.covered minor principal before).imp present id
      · exact Or.inl (present already)
    · exact sound
  | other command env index =>
    simp only [Event.occur]
    split
    · exact sound
    · rename_i version _
      have same := recordAt_other deps lawful state.shared.store env version command careful.1
        careful.2
      refine ⟨encoded_runCommand deps env _ sound.encoded version command,
        fun minor record found => sound.lasting minor record ((same minor).symm.trans found),
        sound.pending, sound.orderly, ?_⟩
      rintro minor principal ⟨record, found, isFilled, owned⟩
      have before := sound.covered minor principal
        ⟨record, (same minor).symm.trans found, isFilled, owned⟩
      refine before.imp ?_ id
      rintro ⟨target, holder, isMinor, isHolder, hasValue⟩
      exact ⟨target, holder, isMinor, (same target).trans isHolder, hasValue⟩

include lawful filled in
/-- A careful step keeps every credential covered. -/
theorem Sound.act (sound : Sound deps codec state) (step : Requests.Step Id Request Input Event)
    (careful : Careful deps codec step state) :
    Sound deps codec (((handler deps codec).machine deps mode).act step state) := by
  rcases ((handler deps codec).machine deps mode).act_cases step state with
    same | ⟨id, request, _, absent, moved⟩ | ⟨id, input, phase, rfl, found, moved⟩ |
    ⟨id, phase, rfl, found, moved⟩ | ⟨event, rfl, moved⟩
  · rw [same]
    exact sound
  · rw [moved]
    refine ⟨sound.encoded, sound.lasting, sound.pending, fun other each isPhase => ?_,
      fun minor principal names => ?_⟩
    · rcases Requests.State.move_cases isPhase with ⟨_, rfl⟩ | ⟨_, earlier⟩
      · trivial
      · exact sound.orderly other each earlier
    · rcases sound.covered minor principal names with present | ⟨other, each, isPhase, revokes⟩
      · exact Or.inl present
      · refine Or.inr ⟨other, each, ?_, revokes⟩
        rw [Requests.State.move_of_ne]
        · exact isPhase
        · rintro rfl
          exact absurd (isPhase.symm.trans absent) (Option.some_ne_none _)
  · rw [moved]
    obtain ⟨grounded, continues⟩ := careful phase found
    exact sound.advance lawful filled input found grounded continues
  · rw [moved]
    refine sound.move id found ?_ fun minor principal _ revokes =>
      absurd revokes (careful phase found minor principal)
    show Orderly (stopped phase).stage
    unfold stopped
    split
    · trivial
    · trivial
  · rw [moved]
    exact sound.occur lawful careful

/-- No record is in an empty identity region. -/
theorem recordAt_empty {store : Store} (empty : PolicyService.identityEntries store = [])
    (minor : Bytes) : recordAt deps store minor = none := by
  unfold recordAt Store.records
  cases read : store.db.read (encodeKey deps (key minor)).1 with
  | none => rfl
  | some item =>
    have inRegion := PolicyService.mem_identityEntries rfl rfl read
    rw [empty] at inRegion
    cases inRegion

omit [DecidableEq Id] in
theorem sound_begin {store : Store} (encoded : store.Encoded deps)
    (empty : PolicyService.identityEntries store = []) :
    Sound deps codec (Requests.begin Id (.fresh store)) := by
  refine ⟨encoded, fun minor record found => ?_, fun asked member => absurd member List.not_mem_nil,
    fun id phase found => absurd found.symm (Option.some_ne_none _), ?_⟩
  · rw [show recordAt deps (Requests.begin Id (Shared.fresh store)).shared.store minor = none from
      recordAt_empty empty minor] at found
    cases found
  · rintro minor principal ⟨record, found, _⟩
    rw [show recordAt deps (Requests.begin Id (Shared.fresh store)).shared.store minor = none from
      recordAt_empty empty minor] at found
    cases found

omit [DecidableEq Id] in
include lawful in
/-- A record that lasts is found. -/
theorem Sound.principalExists_of_present (sound : Sound deps codec state) {principal : Bytes}
    (present : Present deps state.shared.store principal) (now : Int64) :
    principalExists deps state.shared.store (.healthy now) principal = true := by
  obtain ⟨minor, record, isMinor, found, hasValue⟩ := present
  have alive : deps.isExpired now record.expiresAt = false := by
    rw [sound.lasting minor record found]
    exact lawful.neverExpires now
  unfold principalExists
  simp only [isMinor]
  obtain ⟨reply, got, ⟨_, expired⟩ | ⟨other, isOther, _, _, value⟩⟩ :=
    get_healthy_records deps now state.shared.store (key minor)
  · exact absurd (alive.symm.trans (expired record found)) Bool.false_ne_true
  · obtain rfl := Option.some.inj (isOther.symm.trans found)
    simp only [got, value]
    exact decide_eq_true hasValue

end

/-! ### Authentication -/

section

variable {deps : Deps} {codec : Codec} {env : Env} {store : Store} {principal : Bytes}

/-- What is loaded is decoded from the record. -/
theorem recordAt_of_load {Struct : Type} {decode : Bytes → Option Struct} {minor : Bytes}
    {struct : Struct} (loaded : AuthService.load deps env store decode minor = some struct) :
    ∃ record, recordAt deps store minor = some record ∧ record.value ≠ [] ∧
      decode record.value = some struct := by
  unfold AuthService.load at loaded
  split at loaded
  · cases loaded
  · rename_i reply got
    split at loaded
    · cases loaded
    · rename_i hasValue
      obtain ⟨record, _, found, _, _, value⟩ :=
        get_found deps store env (key minor) reply got hasValue
      rw [value] at hasValue loaded
      exact ⟨record, found, hasValue, loaded⟩

/-- A token that is accepted is a record that names the principal. -/
theorem names_of_token {hashToken : Bytes → Bytes} {clock : Int64} {token : Bytes}
    (accepted : AuthService.authenticateToken deps codec.tokenOf hashToken env clock store token =
      .ok principal) : Names deps codec store (tokenIndexKey (hashToken token)) principal := by
  unfold AuthService.authenticateToken at accepted
  split at accepted
  · cases accepted
  · rename_i struct loaded
    obtain ⟨record, found, hasValue, decoded⟩ := recordAt_of_load loaded
    have isToken : tokenIndexPrefix.isPrefixOf (tokenIndexKey (hashToken token)) = true :=
      List.isPrefixOf_iff_prefix.mpr (List.prefix_append _ _)
    refine ⟨record, found, hasValue, ?_⟩
    rw [owner, if_pos isToken, decoded]
    split at accepted
    · cases accepted
    · split at accepted
      · cases accepted
      · exact congrArg some (Except.ok.inj accepted)

/-- A certificate that stands for a principal has an identity whose record names the principal. -/
theorem names_of_certificate {certificate : Certificate}
    (stands : AuthService.certificatePrincipal deps codec.cert env store certificate =
      some principal) : ∃ identity, Names deps codec store (certPrefix ++ identity) principal := by
  unfold AuthService.certificatePrincipal at stands
  split at stands
  · cases stands
  · obtain ⟨identity, _, registered⟩ := List.exists_of_findSome?_eq_some stands
    unfold AuthService.registered at registered
    split at registered
    · cases registered
    · rename_i struct loaded
      obtain ⟨record, found, hasValue, decoded⟩ := recordAt_of_load loaded
      have isCert : certPrefix.isPrefixOf (certPrefix ++ identity) = true :=
        List.isPrefixOf_iff_prefix.mpr (List.prefix_append _ _)
      refine ⟨identity, record, found, hasValue, ?_⟩
      rw [owner, if_neg (show ¬ tokenIndexPrefix.isPrefixOf (certPrefix ++ identity) = true from
        Bool.false_ne_true), if_pos isCert, decoded]
      split at registered
      · cases registered
      · exact registered

end

/-- In every run from an empty identity region whose steps are careful, once no request is in
progress, every token and every certificate names a principal that has its record, and
authentication returns no other. -/
theorem credentials_name_principals {Id : Type} [DecidableEq Id] (deps : Deps)
    (lawful : deps.Lawful) (codec : Codec) (filled : codec.Filled) (mode : Mode) (store : Store)
    (encoded : store.Encoded deps) (empty : PolicyService.identityEntries store = [])
    (steps : List (Requests.Step Id Request Input Event))
    (careful : Replay.Meets ((handler deps codec).machine deps mode).act (Careful deps codec) steps
      (Requests.begin Id (.fresh store)))
    (final : Requests.State Id Shared Phase)
    (reached : Replay.run ((handler deps codec).machine deps mode).act steps
      (Requests.begin Id (.fresh store)) = final)
    (idle : ∀ id phase, final.phases id = some phase → phase.Over) (now : Int64) :
    (∀ minor principal, Names deps codec final.shared.store minor principal →
        principalExists deps final.shared.store (.healthy now) principal = true) ∧
      (∀ hashToken env clock token principal,
        AuthService.authenticateToken deps codec.tokenOf hashToken env clock final.shared.store
          token = .ok principal →
        principalExists deps final.shared.store (.healthy now) principal = true) ∧
      ∀ env certificate principal,
        AuthService.certificatePrincipal deps codec.cert env final.shared.store certificate =
          some principal →
        principalExists deps final.shared.store (.healthy now) principal = true := by
  have sound : Sound deps codec final := reached ▸ Replay.run_invariant _ (Careful deps codec)
    (Sound deps codec) (fun step state isCareful sound => sound.act lawful filled step isCareful)
    steps _ careful (sound_begin encoded empty)
  have exist : ∀ minor principal, Names deps codec final.shared.store minor principal →
      principalExists deps final.shared.store (.healthy now) principal = true := by
    intro minor principal names
    rcases sound.covered minor principal names with present | ⟨id, phase, found, _, revokes⟩
    · exact sound.principalExists_of_present lawful present now
    · -- a request that is over revokes nothing
      rcases idle id phase found with ⟨answer, isAnswer⟩ | isGone
      · rcases revokes with scanning | ⟨_, _, purging, _⟩
        · exact absurd (isAnswer.symm.trans scanning) Stage.noConfusion
        · exact absurd (isAnswer.symm.trans purging) Stage.noConfusion
      · rcases revokes with scanning | ⟨_, _, purging, _⟩
        · exact absurd (isGone.symm.trans scanning) Stage.noConfusion
        · exact absurd (isGone.symm.trans purging) Stage.noConfusion
  refine ⟨exist, fun hashToken env clock token principal accepted => ?_,
    fun env certificate principal stands => ?_⟩
  · exact exist _ principal (names_of_token accepted)
  · obtain ⟨identity, names⟩ := names_of_certificate stands
    exact exist _ principal names

/-! ### Samples -/

theorem sampleRecords_filled : sampleRecords.Filled := by
  refine ⟨?_, ?_, ?_, ?_, ?_, ?_⟩
  · intro name hash createdAt raw encoded
    exact Except.ok.inj encoded ▸ Format.put_ne_nil _ (by decide) _
  · intro name hash createdAt raw encoded
    exact Except.ok.inj encoded ▸ Format.put_ne_nil _ (by decide) _
  · intro record raw encoded
    exact Except.ok.inj encoded ▸ Format.put_ne_nil _ (by decide) _
  · intro record raw encoded
    exact Except.ok.inj encoded ▸ Format.put_ne_nil _ (by decide) _
  · intro record raw encoded
    exact Except.ok.inj encoded ▸ Format.put_ne_nil _ (by decide) _
  · intro record raw encoded
    exact Except.ok.inj encoded ▸ Format.put_ne_nil _ (by decide) _

/-- The requests about one user: to create it, to create a token for it, and to delete it. -/
inductive Task where
  | user
  | token
  | deletion
  deriving DecidableEq, Repr

def Task.request : Task → Request
  | .user => .createUser (str "alice") (str "password")
  | .token => .createUserToken (str "alice") [] 0
  | .deletion => .deleteUser (str "alice")

/-- The user is created, and the request for a token finds it. -/
def tokenAllowed : List (Requests.Step Task Request Input Event) :=
  [.start .user Task.user.request, .advance .user (healthyInput 1), .advance .user (healthyInput 1),
    .start .token Task.token.request, .advance .token (healthyInput 2)]

/-- The deletion removes the user. -/
def userRemoved (index : UInt64) : List (Requests.Step Task Request Input Event) :=
  [.start .deletion Task.deletion.request, .advance .deletion (healthyInput index),
    .advance .deletion (healthyInput index)]

/-- The token is created, and then the deletion runs to its end. -/
def deletionDone : List (Requests.Step Task Request Input Event) :=
  tokenAllowed ++ .advance .token (healthyInput 2) :: userRemoved 3 ++
    [.advance .deletion (healthyInput 3), .advance .deletion (healthyInput 4),
      .advance .deletion (healthyInput 4)]

/-- The token is created after the deletion has run to its end. -/
def tokenLate : List (Requests.Step Task Request Input Event) :=
  tokenAllowed ++ userRemoved 2 ++
    [.advance .deletion (healthyInput 2), .advance .deletion (healthyInput 2),
      .advance .token (healthyInput 3)]

/-- The token is created, and the node of the deletion crashes once the user is removed. -/
def deletionStopped : List (Requests.Step Task Request Input Event) :=
  tokenAllowed ++ .advance .token (healthyInput 2) :: userRemoved 3 ++ [.stop .deletion]

def afterTasks (steps : List (Requests.Step Task Request Input Event)) :
    Requests.State Task Shared Phase :=
  Replay.run ((handler Reference.deps sampleRecords).machine Reference.deps .replicated).act steps
    (Requests.begin Task (.fresh Store.empty))

/-- Whom the token of the user stands for. -/
def tokenOwner (steps : List (Requests.Step Task Request Input Event)) : Except Err Bytes :=
  AuthService.authenticateToken Reference.deps sampleRecords.tokenOf (fun _ => str "digest")
    (.healthy 100) 100 (afterTasks steps).shared.store (str "secret")

def aliceExists (steps : List (Requests.Step Task Request Input Event)) : Bool :=
  principalExists Reference.deps (afterTasks steps).shared.store (.healthy 100) (str "user:alice")

/-- The token stands for a user that is gone: it was created after the deletion was done, though
both were answered with success; or the deletion ended before it came to the token. -/
theorem credential_outlives_principal :
    ((afterTasks tokenLate).phases .token = some ⟨Task.token.request, .answered
          (.token (str "digest") (str "secret") [] 7776100)⟩ ∧
        (afterTasks tokenLate).phases .deletion = some ⟨Task.deletion.request, .answered
          (.deleted (str "alice"))⟩ ∧
        tokenOwner tokenLate = .ok (str "user:alice") ∧ aliceExists tokenLate = false) ∧
      (afterTasks deletionStopped).phases .deletion = some ⟨Task.deletion.request, .gone⟩ ∧
        tokenOwner deletionStopped = .ok (str "user:alice") ∧
        aliceExists deletionStopped = false := by
  decide +kernel

theorem careful_advance {state : Requests.State Task Shared Phase} {task : Task} {input : Input}
    (phase : Phase) (found : state.phases task = some phase)
    (grounded : ∀ asked, write phase = some asked →
      Grounded Reference.deps sampleRecords state.shared.store asked)
    (continues : Continues Reference.deps input.access state.shared.store phase.stage) :
    Careful Reference.deps sampleRecords (.advance task input) state := by
  intro other isOther
  obtain rfl := Option.some.inj (found.symm.trans isOther)
  exact ⟨grounded, continues⟩

/-- The record of the user. -/
def aliceRecord : Bytes :=
  (Format.bytes.pair (Format.bool.pair Format.bool)).put (str "alice", false, false)

/-- The record of the token. -/
def aliceToken : Bytes :=
  (Format.bytes.pair (Format.long.pair (Format.bytes.pair Format.long))).put
    (str "user:alice", 7776100, [], 100)

/-- The token is written while the user is there, and the deletion goes on to its end. -/
theorem deletionDone_careful :
    Replay.Meets ((handler Reference.deps sampleRecords).machine Reference.deps .replicated).act
      (Careful Reference.deps sampleRecords) deletionDone
      (Requests.begin Task (.fresh Store.empty)) := by
  refine ⟨trivial, careful_advance ⟨Task.user.request, .start⟩ (by decide +kernel) ?_ trivial,
    careful_advance ⟨Task.user.request, .creatingUser aliceRecord⟩ (by decide +kernel) ?_ trivial,
    trivial, careful_advance ⟨Task.token.request, .start⟩ (by decide +kernel) ?_ trivial,
    careful_advance ⟨Task.token.request, .storing (tokenIndexKey (str "digest")) aliceToken
      (.token (str "digest") (str "secret") [] 7776100)⟩ (by decide +kernel) ?_ trivial,
    trivial, careful_advance ⟨Task.deletion.request, .start⟩ (by decide +kernel) ?_ trivial,
    careful_advance ⟨Task.deletion.request, .removing⟩ (by decide +kernel) ?_ trivial,
    careful_advance ⟨Task.deletion.request, .scanning⟩ (by decide +kernel) ?_ ⟨rfl, fun _ => rfl⟩,
    careful_advance ⟨Task.deletion.request, .purging [tokenIndexKey (str "digest")] []⟩
      (by decide +kernel) ?_ ⟨rfl, by decide +kernel⟩,
    careful_advance ⟨Task.deletion.request, .purging [] []⟩ (by decide +kernel) ?_ trivial,
    trivial⟩
  · intro asked asks
    cases asks
  · intro asked asks minor raw condition principal isPut owned
    obtain rfl := Option.some.inj asks
    obtain ⟨isKey, rfl, _⟩ := KeyWrite.put.inj isPut
    obtain rfl := key_inj isKey
    cases owned
  · intro asked asks
    cases asks
  · intro asked asks minor raw condition principal isPut owned
    obtain rfl := Option.some.inj asks
    obtain ⟨isKey, rfl, _⟩ := KeyWrite.put.inj isPut
    obtain rfl := key_inj isKey
    obtain rfl : str "user:alice" = principal := Option.some.inj owned
    exact ⟨userPrefix ++ str "alice", ⟨aliceRecord, 1, 0, 0⟩, by decide, by decide +kernel,
      by decide⟩
  · intro asked asks
    cases asks
  · intro asked asks minor raw condition principal isPut
    obtain rfl := Option.some.inj asks
    cases isPut
  · intro asked asks
    cases asks
  · intro asked asks minor raw condition principal isPut
    obtain rfl := Option.some.inj asks
    cases isPut
  · intro asked asks
    cases asks

/-- Once the deletion is done, no token stands for the user. -/
theorem credentials_name_principals_sample :
    (afterTasks deletionDone).phases .deletion = some ⟨Task.deletion.request, .answered
        (.deleted (str "alice"))⟩ ∧
      ∀ hashToken env clock token,
        AuthService.authenticateToken Reference.deps sampleRecords.tokenOf hashToken env clock
          (afterTasks deletionDone).shared.store token ≠ .ok (str "user:alice") := by
  have created : (afterTasks deletionDone).phases .user =
      some ⟨Task.user.request, .answered (.created (str "alice"))⟩ := by
    decide +kernel
  have issued : (afterTasks deletionDone).phases .token = some ⟨Task.token.request, .answered
      (.token (str "digest") (str "secret") [] 7776100)⟩ := by
    decide +kernel
  have deleted : (afterTasks deletionDone).phases .deletion =
      some ⟨Task.deletion.request, .answered (.deleted (str "alice"))⟩ := by
    decide +kernel
  have idle : ∀ task phase, (afterTasks deletionDone).phases task = some phase → phase.Over := by
    intro task phase found
    cases task with
    | user =>
      obtain rfl := Option.some.inj (created.symm.trans found)
      exact Or.inl ⟨_, rfl⟩
    | token =>
      obtain rfl := Option.some.inj (issued.symm.trans found)
      exact Or.inl ⟨_, rfl⟩
    | deletion =>
      obtain rfl := Option.some.inj (deleted.symm.trans found)
      exact Or.inl ⟨_, rfl⟩
  refine ⟨deleted, fun hashToken env clock token accepted => ?_⟩
  have exist := credentials_name_principals Reference.deps Reference.lawful sampleRecords
    sampleRecords_filled .replicated Store.empty (encoded_empty _) rfl deletionDone
    deletionDone_careful (afterTasks deletionDone) rfl idle 100
  have gone : aliceExists deletionDone = false := by decide +kernel
  exact absurd (gone.symm.trans (exist.2.1 hashToken env clock token _ accepted))
    Bool.false_ne_true

end Administration

end ConsensusDB
