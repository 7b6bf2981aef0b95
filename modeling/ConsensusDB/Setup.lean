/-
This file is the first half of `pkg/console/setup.go`: `setupBootstrap`, which
creates the first administrator of a cluster. A request looks for the genesis
record and for any user, creates its user if the record is absent, binds the user
to the administrator's role, and writes the genesis record. Each of these is one
access to the store, and any number of requests take their steps in any order. A
reply may be lost; then the request sees an error and the write may still take
effect later, at any time. A crash ends every request.

The record of a user is created if that record is absent, not if every user's is.
So requests with one name have one winner, and requests with different names can
all win. There is one winner in every run in which no user is created beside
another one. This is so when requests come one after another and nothing fails, since
each of them looks for users first. It need not be so when they overlap, as the look is
not part of the write.
-/

import ConsensusDB.Bindings

namespace ConsensusDB

open Wire Iam

namespace Setup

/-! ### The handler -/

def genesisMinor : Bytes := str "cluster/genesis"

def roleAdmin : Bytes := str "roles/cdb.admin"

/-- `Encode` of the records that a bootstrap writes. -/
structure Codec extends PolicyCodec where
  user : (name passwordHash : Bytes) → (createdAt : Int64) → Except Err Bytes
  genesis : (initializedAt : Int64) → (createdBy : Bytes) → Except Err Bytes

structure Body where
  username : Bytes
  password : Bytes
  deriving DecidableEq, Repr

inductive Answer where
  | created (username : Bytes)
  | error (status : Nat) (text : String)
  deriving DecidableEq, Repr

/-- Where a request is: what it does next, and what it has in hand for it. A body that cannot be
decoded is `none`. -/
inductive Phase where
  | checking (body : Option Body)
  | scanning (body : Option Body)
  | creating (username raw : Bytes)
  | reading (username : Bytes)
  | binding (username raw : Bytes)
  | marking (username : Bytes)
  | finishing (username : Bytes)
  | answered (answer : Answer)
  | gone
  deriving DecidableEq, Repr

/-- The writes of a bootstrap. -/
inductive Write where
  | user (username raw : Bytes)
  | policy (raw : Bytes)
  | genesis (raw : Bytes)

/-- The minor key that a write is about. -/
def Write.minor : Write → Bytes
  | .user username _ => userPrefix ++ username
  | .policy _ => bindingMinor [] []
  | .genesis _ => genesisMinor

def Write.raw : Write → Bytes
  | .user _ raw => raw
  | .policy raw => raw
  | .genesis raw => raw

/-- The records of users and the genesis record are created if absent. -/
def Write.createOnly : Write → Bool
  | .user _ _ => true
  | .policy _ => false
  | .genesis _ => true

def Write.request (write : Write) : RecordRequest where
  key := some (key write.minor)
  value := write.raw
  compareAndSet := write.createOnly
  version := 0

/-- The reply to a write reaches the request, or it is lost. -/
inductive Fate where
  | replied
  | lost

/-- What a step of a request finds: the engine and the clock, the index of its entry in the log,
what becomes of the reply, the hash of the password, and the order of map keys. -/
structure Input where
  env : Env
  index : UInt64
  fate : Fate
  hash : Except Err Bytes
  clock : Int64
  order : Console.MapOrder

/-- The store, the writes that may still take effect, and the requests. -/
structure State (Id : Type) where
  store : Store
  pending : List Write
  requests : Id → Option Phase

def begin (Id : Type) (store : Store) : State Id := ⟨store, [], fun _ => none⟩

def clusterInitialized (deps : Deps) (env : Env) (store : Store) : Bool :=
  match Storage.get deps env store { key := some (key genesisMinor) } with
  | .error _ => false
  | .ok record => record.value ≠ []

/-- Whether a scan of the identity region sends a record of a user. `none` is an index panic. -/
def anyUserExists (deps : Deps) (env : Env) (store : Store) : Option Bool :=
  match Storage.getArea deps env store { key := some PolicyService.identityArea }
      .regionNameField with
  | .error _ => some false
  | .ok sent =>
    if sent.panicked then none
    else some (sent.blocks.flatten.any fun record =>
      match record.key with
      | none => false
      | some key => userPrefix.isPrefixOf key.minorKey)

section

variable {Id : Type} (deps : Deps) (decoder : Decoder) (codec : Codec)

/-- The answer or the record of the new user, once the scan has found none. -/
def checkBody (input : Input) : Option Body → Phase
  | none => .answered (.error 400 "username and a password (min 8 chars) are required")
  | some body =>
    if body.username = [] ∨ body.password.length < 8 then
      .answered (.error 400 "username and a password (min 8 chars) are required")
    else
      match input.hash with
      | .error _ => .answered (.error 500 "hash password")
      | .ok hash =>
        match codec.user body.username hash input.clock with
        | .error _ => .answered (.error 500 "encode record")
        | .ok raw => .creating body.username raw

/-- A write as the request sees it, and the state it leaves. -/
def submit (input : Input) (write : Write) (state : State Id) : Except Err Status × State Id :=
  match input.fate with
  | .replied =>
    let outcome := Storage.put deps input.env state.store write.request input.index
    (outcome.1, { state with store := outcome.2 })
  | .lost => (.error (.external "lost"), { state with pending := state.pending ++ [write] })

/-- One step of a request. -/
def Phase.next (input : Input) (state : State Id) : Phase → Phase × State Id
  | .checking body =>
    if clusterInitialized deps input.env state.store then
      (.answered (.error 403 "setup already completed"), state)
    else (.scanning body, state)
  | .scanning body =>
    match anyUserExists deps input.env state.store with
    | none => (.gone, state)
    | some true => (.answered (.error 403 "setup already completed"), state)
    | some false => (checkBody codec input body, state)
  | .creating username raw =>
    let outcome := submit deps input (.user username raw) state
    (match outcome.1 with
      | .ok ⟨true⟩ => .reading username
      | _ => .answered (.error 409 "admin user already exists"), outcome.2)
  | .reading username =>
    match Console.grantRead deps decoder codec.toPolicyCodec input.order input.env state.store
        [principalUser username] roleAdmin [] [] true with
    | .error _ => (.answered (.error 500 "grant admin role"), state)
    | .ok (_, raw) => (.binding username raw, state)
  | .binding username raw =>
    let outcome := submit deps input (.policy raw) state
    (match outcome.1 with
      | .error _ => .answered (.error 500 "grant admin role")
      | .ok _ => .marking username, outcome.2)
  | .marking username =>
    match codec.genesis input.clock username with
    | .error _ => (.finishing username, state)
    | .ok raw => (.finishing username, (submit deps input (.genesis raw) state).2)
  | .finishing username => (.answered (.created username), state)
  | .answered answer => (.answered answer, state)
  | .gone => (.gone, state)

end

/-- A crash ends a request that has not answered. -/
def Phase.crashed : Phase → Phase
  | .answered answer => .answered answer
  | _ => .gone

/-- A request arrives, a request takes a step, a write whose reply was lost takes effect, or the
node crashes. -/
inductive Step (Id : Type) where
  | start (id : Id) (body : Option Body)
  | advance (id : Id) (input : Input)
  | late (position : Nat) (input : Input)
  | crash

section

variable {Id : Type} [DecidableEq Id]

def State.move (state : State Id) (id : Id) (phase : Phase) : State Id :=
  { state with requests := Function.update state.requests id (some phase) }

@[simp] theorem State.move_store (state : State Id) (id : Id) (phase : Phase) :
    (state.move id phase).store = state.store := rfl

@[simp] theorem State.move_self (state : State Id) (id : Id) (phase : Phase) :
    (state.move id phase).requests id = some phase :=
  Function.update_self _ _ _

theorem State.move_of_ne (state : State Id) (id : Id) (phase : Phase) {other : Id}
    (different : other ≠ id) : (state.move id phase).requests other = state.requests other :=
  Function.update_of_ne different _ _

def act (deps : Deps) (decoder : Decoder) (codec : Codec) (step : Step Id) (state : State Id) :
    State Id :=
  match step with
  | .start id body =>
    match state.requests id with
    | none => state.move id (.checking body)
    | some _ => state
  | .advance id input =>
    match state.requests id with
    | none => state
    | some phase =>
      let next := phase.next deps decoder codec input state
      next.2.move id next.1
  | .late position input =>
    match state.pending[position]? with
    | none => state
    | some write =>
      { state with
        store := (Storage.put deps input.env state.store write.request input.index).2
        pending := state.pending.eraseIdx position }
  | .crash => { state with requests := fun id => (state.requests id).map Phase.crashed }

end

/-! ### What a write leaves -/

/-- The entry key of a minor key of the identity region. -/
def entryKeyOf (deps : Deps) (minor : Bytes) : Bytes := (encodeKey deps (key minor)).1

/-- The record of a user as a bootstrap leaves it: it has a version and does not expire. -/
def Stored (deps : Deps) (store : Store) (username : Bytes) : Prop :=
  ∃ record, store.records deps (entryKeyOf deps (userPrefix ++ username)) = some record ∧
    record.version ≠ 0 ∧ record.expiresAt = 0

instance (deps : Deps) (store : Store) (username : Bytes) :
    Decidable (Stored deps store username) :=
  decidable_of_iff
    ((store.records deps (entryKeyOf deps (userPrefix ++ username))).any (fun record =>
      decide (record.version ≠ 0 ∧ record.expiresAt = 0)) = true)
    (by simp [Stored, Option.any_eq_true])

theorem entryKeyOf_inj (deps : Deps) (lawful : deps.Lawful) {first second : Bytes}
    (accepted : refuseKey (entryKeyOf deps first) = none)
    (same : entryKeyOf deps first = entryKeyOf deps second) : first = second :=
  congrArg Key.minorKey (encodeKey_inj_of_accepted deps lawful _ _ accepted same)

/-- Only the write of a user is about the minor key of a user. -/
theorem eq_user_of_minor {write : Write} {username : Bytes}
    (about : write.minor = userPrefix ++ username) : ∃ raw, write = .user username raw := by
  cases write with
  | user name raw => exact ⟨raw, by rw [List.append_cancel_left about]⟩
  | policy raw =>
    have letters : some (112 : UInt8) = some 117 := congrArg List.head? about
    exact absurd letters (by decide)
  | genesis raw =>
    have letters : some (99 : UInt8) = some 117 := congrArg List.head? about
    exact absurd letters (by decide)

section

variable (deps : Deps) (lawful : deps.Lawful) (input : Input) (store : Store) (write : Write)

/-- The store after a write that the engine is asked for. -/
def written : Store := (Storage.put deps input.env store write.request input.index).2

include lawful

/-- A write leaves the store, or it stores its record, without an expiry, where none with a version
was if it creates only. -/
theorem write_cases :
    written deps input store write = store ∧
        (Storage.put deps input.env store write.request input.index).1 ≠ .ok ⟨true⟩ ∨
      (Storage.put deps input.env store write.request input.index).1 = .ok ⟨true⟩ ∧
        refuseKey (entryKeyOf deps write.minor) = none ∧
        (write.createOnly = true →
          (store.records deps).versionAt (entryKeyOf deps write.minor) = 0) ∧
        ∃ record, record.value = write.raw ∧ record.expiresAt = 0 ∧
          (write.createOnly = true → record.version ≠ 0) ∧
          (written deps input store write).records deps =
            Function.update (store.records deps) (entryKeyOf deps write.minor) (some record) := by
  rcases put_updates deps lawful input.env store write.request (key write.minor) rfl input.index
    with failed | ⟨updated, accepted, met, stored⟩
  · exact Or.inl failed
  · have absent : write.createOnly = true →
        (store.records deps).versionAt (entryKeyOf deps write.minor) = 0 := by
      intro createOnly
      rw [casRefuses, Bool.and_eq_false_iff] at met
      rcases met with unconditional | same
      · exact absurd createOnly (Bool.eq_false_iff.mp unconditional)
      · exact (bne_eq_false_iff_eq.mp same).symm
    refine Or.inr ⟨updated, accepted, absent, _, rfl, rfl, fun createOnly => ?_, stored⟩
    show nextVersion input.index ((store.records deps).versionAt (entryKeyOf deps write.minor)) ≠ 0
    rw [absent createOnly, nextVersion]
    split
    · decide
    · assumption

/-- A write leaves the records of other minor keys. -/
theorem records_of_other (minor : Bytes) (other : minor ≠ write.minor) :
    (written deps input store write).records deps (entryKeyOf deps minor) =
      store.records deps (entryKeyOf deps minor) := by
  rcases write_cases deps lawful input store write with
    ⟨same, _⟩ | ⟨_, accepted, _, record, _, _, _, stored⟩
  · rw [same]
  · rw [stored, Function.update_of_ne]
    exact fun same => other (entryKeyOf_inj deps lawful accepted same.symm).symm

/-- A create that is carried out stores its user. -/
theorem stored_of_updated (username raw : Bytes)
    (updated : (Storage.put deps input.env store (Write.user username raw).request input.index).1 =
      .ok ⟨true⟩) :
    Stored deps (written deps input store (.user username raw)) username := by
  rcases write_cases deps lawful input store (.user username raw) with
    ⟨_, refused⟩ | ⟨_, _, _, record, _, endless, version, records⟩
  · exact absurd updated refused
  · refine ⟨record, ?_, version rfl, endless⟩
    rw [records]
    exact Function.update_self _ _ _

/-- A user that a bootstrap has stored stays as it is. -/
theorem stored_written (username : Bytes) (stored : Stored deps store username) :
    Stored deps (written deps input store write) username := by
  obtain ⟨record, found, version, endless⟩ := stored
  by_cases about : userPrefix ++ username = write.minor
  · obtain ⟨raw, rfl⟩ := eq_user_of_minor about.symm
    rcases write_cases deps lawful input store (.user username raw) with
      ⟨same, _⟩ | ⟨_, _, absent, _⟩
    · rw [same]
      exact ⟨record, found, version, endless⟩
    · have zero := absent rfl
      rw [Records.versionAt, ← about, found] at zero
      exact absurd zero version
  · refine ⟨record, ?_, version, endless⟩
    rw [records_of_other deps lawful input store write _ about, found]

end

/-! ### One winner -/

/-- The record of the user shows at some time from a given one on. -/
def Lives (deps : Deps) (since : Int64) (store : Store) (username : Bytes) : Prop :=
  ∃ record, store.records deps (entryKeyOf deps (userPrefix ++ username)) = some record ∧
    ∃ now, since ≤ now ∧ deps.isExpired now record.expiresAt = false

theorem lives_of_stored (deps : Deps) (lawful : deps.Lawful) (since : Int64) (store : Store)
    (username : Bytes) (stored : Stored deps store username) : Lives deps since store username := by
  obtain ⟨record, found, _, endless⟩ := stored
  refine ⟨record, found, since, Int64.le_refl since, ?_⟩
  rw [endless]
  exact lawful.neverExpires since

/-- A write brings the user it creates to life, and no other. -/
theorem lives_written (deps : Deps) (lawful : deps.Lawful) (since : Int64) (input : Input)
    (store : Store) (write : Write) (username : Bytes)
    (lives : Lives deps since (written deps input store write) username) :
    Lives deps since store username ∨ ∃ raw, write = .user username raw := by
  by_cases about : userPrefix ++ username = write.minor
  · exact Or.inr (eq_user_of_minor about.symm)
  · obtain ⟨record, found, shows⟩ := lives
    rw [records_of_other deps lawful input store write _ about] at found
    exact Or.inl ⟨record, found, shows⟩

/-- The user that a request has created. -/
def Phase.winner : Phase → Option Bytes
  | .reading username => some username
  | .binding username _ => some username
  | .marking username => some username
  | .finishing username => some username
  | .answered (.created username) => some username
  | _ => none

section

variable {Id : Type} {deps : Deps} {since : Int64} {state next : State Id}

def Wins (state : State Id) (id : Id) (username : Bytes) : Prop :=
  ∃ phase, state.requests id = some phase ∧ phase.winner = some username

/-- One user at most, and one request at most that has created it. -/
structure Sole (deps : Deps) (since : Int64) (state : State Id) : Prop where
  lives : ∀ first second, Lives deps since state.store first → Lives deps since state.store second →
    first = second
  stored : ∀ id username, Wins state id username → Stored deps state.store username
  wins : ∀ first second username other, Wins state first username → Wins state second other →
    first = second

/-- A step that leaves the store keeps the winner, when no request wins by it. -/
theorem Sole.kept (sole : Sole deps since state) (same : next.store = state.store)
    (wins : ∀ id username, Wins next id username → Wins state id username) :
    Sole deps since next where
  lives := same ▸ sole.lives
  stored id username winner := same ▸ sole.stored id username (wins id username winner)
  wins first second username other firstWins secondWins :=
    sole.wins first second username other (wins _ _ firstWins) (wins _ _ secondWins)

/-- So does a write that creates no user beside another one. -/
theorem Sole.written (sole : Sole deps since state) (lawful : deps.Lawful) (input : Input)
    (write : Write)
    (alone : ∀ username raw, write = .user username raw →
      ∀ other, Lives deps since state.store other → other = username)
    (isStore : next.store = Setup.written deps input state.store write)
    (wins : ∀ id username, Wins next id username → Wins state id username) :
    Sole deps since next := by
  have lives : ∀ username, Lives deps since next.store username →
      Lives deps since state.store username ∨ ∃ raw, write = .user username raw := by
    intro username isLive
    rw [isStore] at isLive
    exact lives_written deps lawful since input state.store write username isLive
  refine ⟨fun first second firstLives secondLives => ?_, fun id username winner => ?_,
    fun first second username other firstWins secondWins =>
      sole.wins first second username other (wins _ _ firstWins) (wins _ _ secondWins)⟩
  · rcases lives first firstLives with before | ⟨raw, isFirst⟩
    · rcases lives second secondLives with otherBefore | ⟨otherRaw, isSecond⟩
      · exact sole.lives first second before otherBefore
      · exact alone second otherRaw isSecond first before
    · rcases lives second secondLives with otherBefore | ⟨otherRaw, isSecond⟩
      · exact (alone first raw isFirst second otherBefore).symm
      · rw [isFirst] at isSecond
        exact (Write.user.inj isSecond).1
  · rw [isStore]
    exact stored_written deps lawful input state.store write username
      (sole.stored id username (wins id username winner))

/-- What a step of a request comes to: the request goes on or ends without a write that takes
effect, or it writes a record that is not a user's, or it has created its user. -/
inductive Effect (deps : Deps) (input : Input) (state : State Id) (phase : Phase) :
    Phase × State Id → Prop where
  | idle (after : Phase) (pending : List Write)
      (wins : ∀ username, after.winner = some username → phase.winner = some username) :
      Effect deps input state phase (after, { state with pending := pending })
  | write (after : Phase) (write : Write) (ordinary : ∀ username raw, write ≠ .user username raw)
      (wins : ∀ username, after.winner = some username → phase.winner = some username) :
      Effect deps input state phase
        (after, { state with store := Setup.written deps input state.store write })
  | create (username raw : Bytes) (creating : phase = .creating username raw)
      (replied : input.fate = .replied)
      (updated : (Storage.put deps input.env state.store (Write.user username raw).request
        input.index).1 = .ok ⟨true⟩) :
      Effect deps input state phase
        (.reading username,
          { state with store := Setup.written deps input state.store (.user username raw) })

theorem next_effect (lawful : deps.Lawful) (decoder : Decoder) (codec : Codec) (input : Input)
    (phase : Phase) :
    Effect deps input state phase (phase.next deps decoder codec input state) := by
  cases phase with
  | checking body =>
    simp only [Phase.next]
    split
    · exact .idle _ state.pending nofun
    · exact .idle _ state.pending nofun
  | scanning body =>
    simp only [Phase.next]
    split
    · exact .idle _ state.pending nofun
    · exact .idle _ state.pending nofun
    · refine .idle _ state.pending ?_
      unfold checkBody
      split
      · exact nofun
      · split
        · exact nofun
        · split
          · exact nofun
          · split <;> exact nofun
  | creating username raw =>
    simp only [Phase.next, submit]
    cases replied : input.fate with
    | lost => exact .idle _ _ nofun
    | replied =>
      simp only
      rcases write_cases deps lawful input state.store (.user username raw) with
        ⟨same, refused⟩ | ⟨updated, _⟩
      · rw [Setup.written] at same
        rw [same]
        refine .idle _ state.pending ?_
        split
        · rename_i updated
          exact absurd updated refused
        · exact nofun
      · rw [updated]
        exact .create username raw rfl replied updated
  | reading username =>
    simp only [Phase.next]
    split
    · exact .idle _ state.pending nofun
    · exact .idle _ state.pending fun _ => id
  | binding username raw =>
    simp only [Phase.next, submit]
    cases input.fate with
    | lost => exact .idle _ _ nofun
    | replied =>
      refine .write _ (.policy raw) nofun ?_
      simp only
      split
      · exact nofun
      · exact fun _ => id
  | marking username =>
    simp only [Phase.next]
    split
    · exact .idle _ state.pending fun _ => id
    · rename_i raw _
      simp only [submit]
      cases input.fate with
      | lost => exact .idle _ _ fun _ => id
      | replied => exact .write _ (.genesis raw) nofun fun _ => id
  | finishing username => exact .idle _ state.pending fun _ => id
  | answered answer => exact .idle _ state.pending fun _ => id
  | gone => exact .idle _ state.pending fun _ => id

/-- A request that has created its user is the only one that has, when no other user was there. -/
theorem Sole.created [DecidableEq Id] (sole : Sole deps since state) (lawful : deps.Lawful)
    (input : Input) (id : Id) (username raw : Bytes)
    (updated : (Storage.put deps input.env state.store (Write.user username raw).request
      input.index).1 = .ok ⟨true⟩)
    (alone : ∀ other, Lives deps since state.store other → other = username) :
    Sole deps since (State.move
      { state with store := Setup.written deps input state.store (.user username raw) } id
      (.reading username)) := by
  rcases write_cases deps lawful input state.store (.user username raw) with
    ⟨_, refused⟩ | ⟨_, _, absent, _⟩
  · exact absurd updated refused
  -- A winner from before would be the same user, and its record would have refused this one.
  have noWinner : ∀ other name, ¬ Wins state other name := by
    intro other name wins
    obtain ⟨old, found, oldVersion, oldEndless⟩ := sole.stored other name wins
    have same := alone name
      (lives_of_stored deps lawful since state.store name ⟨old, found, oldVersion, oldEndless⟩)
    have zero := absent rfl
    rw [Records.versionAt, Write.minor, ← same, found] at zero
    exact oldVersion zero
  have written : Sole deps since
      { state with store := Setup.written deps input state.store (.user username raw) } :=
    sole.written lawful input (.user username raw)
      (fun name _ isWrite other lives => (Write.user.inj isWrite).1 ▸ alone other lives) rfl
      fun _ _ wins => wins
  have winner : ∀ other name, Wins (State.move
      { state with store := Setup.written deps input state.store (.user username raw) } id
      (.reading username)) other name → other = id ∧ name = username := by
    rintro other name ⟨phase, found, won⟩
    by_cases same : other = id
    · rw [same, State.move_self] at found
      obtain rfl := Option.some.inj found
      exact ⟨same, (Option.some.inj won).symm⟩
    · rw [State.move_of_ne _ _ _ same] at found
      exact absurd ⟨phase, found, won⟩ (noWinner other name)
  refine ⟨written.lives, fun other name wins => ?_,
    fun first second name other wins otherWins => ?_⟩
  · rw [(winner other name wins).2]
    exact stored_of_updated deps lawful input state.store username raw updated
  · rw [(winner first name wins).1, (winner second other otherWins).1]

/-- The user that a step may create. -/
def Step.creates (state : State Id) : Step Id → Option Bytes
  | .start _ _ => none
  | .advance id input =>
    match state.requests id, input.fate with
    | some (.creating username _), .replied => some username
    | _, _ => none
  | .late position _ =>
    match state.pending[position]? with
    | some (.user username _) => some username
    | _ => none
  | .crash => none

/-- The step creates no user beside another one. -/
def Alone (deps : Deps) (since : Int64) (step : Step Id) (state : State Id) : Prop :=
  ∀ username, step.creates state = some username →
    ∀ other, Lives deps since state.store other → other = username

theorem wins_of_move [DecidableEq Id] (id : Id) (phase : Phase) (pending : List Write)
    (store : Store)
    (winner : ∀ username, phase.winner = some username → Wins state id username) (other : Id)
    (username : Bytes)
    (wins : Wins (State.move ⟨store, pending, state.requests⟩ id phase) other username) :
    Wins state other username := by
  obtain ⟨found, isPhase, won⟩ := wins
  by_cases same : other = id
  · rw [same, State.move_self] at isPhase
    obtain rfl := Option.some.inj isPhase
    rw [same]
    exact winner username won
  · rw [State.move_of_ne _ _ _ same] at isPhase
    exact ⟨found, isPhase, won⟩

theorem sole_act [DecidableEq Id] (lawful : deps.Lawful) (decoder : Decoder) (codec : Codec)
    (step : Step Id) (alone : Alone deps since step state) (sole : Sole deps since state) :
    Sole deps since (act deps decoder codec step state) := by
  cases step with
  | start id body =>
    simp only [act]
    split
    · exact sole.kept rfl (wins_of_move id _ state.pending state.store nofun)
    · exact sole
  | advance id input =>
    simp only [act]
    split
    · exact sole
    · rename_i phase found
      have effect : Effect deps input state phase (phase.next deps decoder codec input state) :=
        next_effect lawful decoder codec input phase
      generalize phase.next deps decoder codec input state = next at effect
      cases effect with
      | idle after pending wins =>
        exact sole.kept rfl (wins_of_move id after pending state.store fun username won =>
          ⟨phase, found, wins username won⟩)
      | write after write ordinary wins =>
        refine sole.written lawful input write
          (fun username raw isWrite => absurd isWrite (ordinary username raw)) rfl
          (wins_of_move id after state.pending _ fun username won =>
            ⟨phase, found, wins username won⟩)
      | create username raw creating replied updated =>
        refine sole.created lawful input id username raw updated (alone username ?_)
        rw [Step.creates, found, creating, replied]
  | late position input =>
    simp only [act]
    split
    · exact sole
    · rename_i write isWrite
      refine sole.written lawful input write (fun username raw isUser => alone username ?_) rfl
        fun _ _ => id
      rw [Step.creates, isWrite, isUser]
  | crash =>
    refine sole.kept rfl ?_
    rintro id username ⟨phase, isPhase, won⟩
    obtain ⟨before, found, rfl⟩ := Option.map_eq_some_iff.mp isPhase
    cases before with
    | answered answer => exact ⟨_, found, won⟩
    | checking body => cases won
    | scanning body => cases won
    | creating name raw => cases won
    | reading name => cases won
    | binding name raw => cases won
    | marking name => cases won
    | finishing name => cases won
    | gone => cases won

end

/-! ### Administrators -/

/-- A read of the user's record finds it. -/
def UserExists (deps : Deps) (now : Int64) (store : Store) (username : Bytes) : Prop :=
  ∃ record, Storage.get deps (.healthy now) store { key := some (key (userPrefix ++ username)) } =
    .ok record ∧ record.head ≠ none

/-- A policy binds the user to the administrator's role. -/
def Binds (policy : PolicyRecord) (username : Bytes) : Prop :=
  ∃ binding ∈ policy.bindings, binding.role = roleAdmin ∧ principalUser username ∈ binding.members

instance (policy : PolicyRecord) (username : Bytes) : Decidable (Binds policy username) :=
  inferInstanceAs (Decidable (∃ binding ∈ policy.bindings, _))

/-- The user's record is there, and the policy of the instance binds the user to the
administrator's role. -/
def IsAdministrator (deps : Deps) (decoder : Decoder) (now : Int64) (store : Store)
    (username : Bytes) : Prop :=
  UserExists deps now store username ∧
    ∃ record policy, Storage.get deps (.healthy now) store
        { key := some (key (bindingMinor [] [])) } = .ok record ∧
      record.value ≠ [] ∧ decoder.policy record.value = some policy ∧ Binds policy username

theorem lives_of_exists (deps : Deps) (since now : Int64) (later : since ≤ now) (store : Store)
    (username : Bytes) (found : UserExists deps now store username) :
    Lives deps since store username := by
  obtain ⟨record, got, head⟩ := found
  obtain ⟨reply, isReply, ⟨rfl, _⟩ | ⟨stored, isStored, alive, _⟩⟩ :=
    get_healthy_records deps now store (key (userPrefix ++ username))
  · rw [isReply] at got
    cases got
    exact absurd rfl head
  · exact ⟨stored, isStored, now, later, alive⟩

/-- The records of an administrator as a bootstrap leaves them: none of them expires. -/
def Administers (deps : Deps) (decoder : Decoder) (store : Store) (username : Bytes) : Prop :=
  Stored deps store username ∧
    ∃ record policy, store.records deps (entryKeyOf deps (bindingMinor [] [])) = some record ∧
      record.expiresAt = 0 ∧ record.value ≠ [] ∧ decoder.policy record.value = some policy ∧
      Binds policy username

instance (deps : Deps) (decoder : Decoder) (store : Store) (username : Bytes) :
    Decidable (Administers deps decoder store username) :=
  decidable_of_iff
    (Stored deps store username ∧
      (store.records deps (entryKeyOf deps (bindingMinor [] []))).any (fun record =>
        decide (record.expiresAt = 0) && decide (record.value ≠ []) &&
          (decoder.policy record.value).any fun policy => decide (Binds policy username)) = true)
    (by simp [Administers, Option.any_eq_true, and_assoc])

theorem isAdministrator_of_administers (deps : Deps) (lawful : deps.Lawful) (decoder : Decoder)
    (store : Store) (username : Bytes) (administers : Administers deps decoder store username)
    (now : Int64) : IsAdministrator deps decoder now store username := by
  have shown : ∀ minor record, store.records deps (entryKeyOf deps minor) = some record →
      record.expiresAt = 0 → ∃ reply, Storage.get deps (.healthy now) store
        { key := some (key minor) } = .ok reply ∧ reply.head ≠ none ∧
          reply.value = record.value := by
    intro minor record found endless
    obtain ⟨reply, got, ⟨_, expired⟩ | ⟨stored, isStored, _, head, value⟩⟩ :=
      get_healthy_records deps now store (key minor)
    · have expires := expired record found
      rw [endless, lawful.neverExpires] at expires
      cases expires
    · obtain rfl := Option.some.inj (isStored.symm.trans found)
      exact ⟨reply, got, head, value⟩
  obtain ⟨⟨user, isUser, _, endless⟩, record, policy, isRecord, unlimited, nonempty, decoded,
    binds⟩ := administers
  obtain ⟨userReply, gotUser, head, _⟩ := shown _ user isUser endless
  obtain ⟨reply, got, _, value⟩ := shown _ record isRecord unlimited
  rw [← value] at nonempty decoded
  exact ⟨⟨userReply, gotUser, head⟩, reply, policy, got, nonempty, decoded, binds⟩

/-- One bootstrap wins at most: in every run in which no user is created beside another one, from a
store without a user, at most one request answers that it has created a user, and at most one user
is an administrator. -/
theorem one_bootstrap_wins {Id : Type} [DecidableEq Id] (deps : Deps) (lawful : deps.Lawful)
    (decoder : Decoder) (codec : Codec) (since : Int64) (store : Store)
    (noUser : ∀ username, ¬ Lives deps since store username) (steps : List (Step Id))
    (meets : Replay.Meets (act deps decoder codec) (Alone deps since) steps (begin Id store)) :
    (∀ first second username other,
      (Replay.run (act deps decoder codec) steps (begin Id store)).requests first =
        some (.answered (.created username)) →
      (Replay.run (act deps decoder codec) steps (begin Id store)).requests second =
        some (.answered (.created other)) → first = second) ∧
    ∀ now, since ≤ now → ∀ username other,
      IsAdministrator deps decoder now
        (Replay.run (act deps decoder codec) steps (begin Id store)).store username →
      IsAdministrator deps decoder now
        (Replay.run (act deps decoder codec) steps (begin Id store)).store other →
      username = other := by
  have start : Sole deps since (begin Id store) :=
    { lives := fun first _ lives => absurd lives (noUser first)
      stored := fun _ _ ⟨_, found, _⟩ => (nomatch found)
      wins := fun _ _ _ _ ⟨_, found, _⟩ => (nomatch found) }
  have final := Replay.run_invariant (act deps decoder codec) (Alone deps since) (Sole deps since)
    (fun step state => sole_act lawful decoder codec step) steps (begin Id store) meets start
  refine ⟨fun first second username other isFirst isSecond =>
    final.wins first second username other ⟨_, isFirst, rfl⟩ ⟨_, isSecond, rfl⟩, ?_⟩
  intro now later username other isAdministrator otherIsAdministrator
  exact final.lives username other
    (lives_of_exists deps since now later _ username isAdministrator.1)
    (lives_of_exists deps since now later _ other otherIsAdministrator.1)

/-! ### Requests in turn -/

/-- The request has answered or is gone. -/
def Phase.ended : Phase → Bool
  | .answered _ => true
  | .gone => true
  | _ => false

section

variable {Id : Type}

/-- No engine call of the step fails, and its reply is not lost. -/
def Step.Calm : Step Id → Prop
  | .advance _ input => (∀ call, input.env.fault call = none) ∧ input.fate = .replied
  | _ => True

/-- A request starts when every other one is over. -/
def InTurn (step : Step Id) (state : State Id) : Prop :=
  match step with
  | .start _ _ => ∀ id phase, state.requests id = some phase → phase.ended = true
  | _ => True

/-- What holds of a state in which requests come in turn: no write is outstanding, one request at
most is on its way, it has seen that there is no user when it is about to create one, and the users
are there for good. -/
structure Orderly (deps : Deps) (since : Int64) (state : State Id) : Prop where
  pending : state.pending = []
  single : ∀ first second phase other, state.requests first = some phase →
    state.requests second = some other → phase.ended = false → other.ended = false → first = second
  guarded : ∀ id username raw, state.requests id = some (.creating username raw) →
    ∀ other, ¬ Lives deps since state.store other
  lasting : ∀ username, Lives deps since state.store username →
    Stored deps state.store username ∧ refuseKey (entryKeyOf deps (userPrefix ++ username)) = none

end

section

variable {Id : Type} [DecidableEq Id] {deps : Deps} {since : Int64} {state : State Id}

/-- The scan of a request sees a user that is there for good. -/
theorem anyUserExists_of_stored (lawful : deps.Lawful) (now : Int64) (store : Store)
    (username : Bytes) (stored : Stored deps store username)
    (accepted : refuseKey (entryKeyOf deps (userPrefix ++ username)) = none) :
    anyUserExists deps (.healthy now) store ≠ some false := by
  obtain ⟨record, found, _, endless⟩ := stored
  obtain ⟨item, read, rfl⟩ := Option.map_eq_some_iff.mp found
  obtain ⟨sent, scanned, _, records⟩ := PolicyService.getArea_identity_healthy deps now store
  intro missed
  rw [anyUserExists, scanned] at missed
  simp only at missed
  split at missed
  · cases missed
  · rename_i calm
    have decoded := decodeKey_encodeKey deps lawful (key (userPrefix ++ username))
      (uncut_of_accepted deps _ accepted)
    have isSent : sentRecord deps now false (entryKeyOf deps (userPrefix ++ username), item) =
        some (Storage.itemRecord deps (key (userPrefix ++ username))
          (entryKeyOf deps (userPrefix ++ username)) item false) := by
      have alive : deps.isExpired now (deps.decodeEnvelope item.value).expiresAt = false := by
        rw [show (deps.decodeEnvelope item.value).expiresAt = 0 from endless]
        exact lawful.neverExpires now
      simp only [sentRecord, entryKeyOf, decoded, alive, if_neg Bool.false_ne_true]
    have member := List.mem_filterMap.mpr
      ⟨_, PolicyService.mem_identityEntries rfl rfl read, isSent⟩
    rw [← records (Bool.eq_false_iff.mpr calm)] at member
    have none := List.any_eq_false.mp (Option.some.inj missed) _ member
    exact none (List.isPrefixOf_iff_prefix.mpr (List.prefix_append _ _))

/-- A write keeps that users are there for good. -/
theorem lasting_written (lawful : deps.Lawful) (input : Input) (store : Store) (write : Write)
    (lasting : ∀ username, Lives deps since store username → Stored deps store username ∧
      refuseKey (entryKeyOf deps (userPrefix ++ username)) = none)
    (username : Bytes) (lives : Lives deps since (written deps input store write) username) :
    Stored deps (written deps input store write) username ∧
      refuseKey (entryKeyOf deps (userPrefix ++ username)) = none := by
  rcases write_cases deps lawful input store write with ⟨same, _⟩ | ⟨updated, accepted, _⟩
  · rw [same] at lives ⊢
    exact lasting username lives
  · rcases lives_written deps lawful since input store write username lives with
      before | ⟨raw, rfl⟩
    · obtain ⟨stored, isAccepted⟩ := lasting username before
      exact ⟨stored_written deps lawful input store write username stored, isAccepted⟩
    · exact ⟨stored_of_updated deps lawful input store username raw updated, accepted⟩

/-- A request takes a step: it does not come back from its end, changes the store only while it is
on its way, and is about to create a user only where there is none. -/
theorem Orderly.moved (orderly : Orderly deps since state) {id : Id} {phase : Phase}
    (found : state.requests id = some phase) (after : Phase) (store : Store)
    (going : after.ended = false → phase.ended = false)
    (same : phase.ended = true → store = state.store)
    (guarded : ∀ username raw, after = .creating username raw →
      ∀ other, ¬ Lives deps since store other)
    (lasting : ∀ username, Lives deps since store username → Stored deps store username ∧
      refuseKey (entryKeyOf deps (userPrefix ++ username)) = none) :
    Orderly deps since (State.move { state with store := store } id after) := by
  have before {other : Id} {now : Phase}
      (isNow : (State.move { state with store := store } id after).requests other = some now)
      (onItsWay : now.ended = false) :
      ∃ earlier, state.requests other = some earlier ∧ earlier.ended = false := by
    by_cases isId : other = id
    · subst isId
      rw [State.move_self] at isNow
      obtain rfl := Option.some.inj isNow
      exact ⟨phase, found, going onItsWay⟩
    · rw [State.move_of_ne _ _ _ isId] at isNow
      exact ⟨now, isNow, onItsWay⟩
  refine ⟨orderly.pending, ?_, ?_, lasting⟩
  · intro first second now other isNow isOther onItsWay otherOnItsWay
    obtain ⟨_, wasNow, wasGoing⟩ := before isNow onItsWay
    obtain ⟨_, wasOther, otherWasGoing⟩ := before isOther otherOnItsWay
    exact orderly.single first second _ _ wasNow wasOther wasGoing otherWasGoing
  · intro creator username raw creating
    by_cases isId : creator = id
    · subst isId
      rw [State.move_self] at creating
      exact guarded username raw (Option.some.inj creating)
    · rw [State.move_of_ne _ _ _ isId] at creating
      cases isEnded : phase.ended with
      | true =>
        rw [show (State.move { state with store := store } id after).store = state.store from
          same isEnded]
        exact orderly.guarded creator username raw creating
      | false => exact absurd (orderly.single creator id _ _ creating found rfl isEnded) isId

theorem orderly_advance (lawful : deps.Lawful) (decoder : Decoder) (codec : Codec) (id : Id)
    (input : Input) (calm : (Step.advance id input).Calm) (orderly : Orderly deps since state)
    (phase : Phase) (found : state.requests id = some phase) :
    Orderly deps since ((phase.next deps decoder codec input state).2.move id
      (phase.next deps decoder codec input state).1) := by
  obtain ⟨healthy, replied⟩ := calm
  have written (write : Write) := lasting_written lawful input state.store write orderly.lasting
  have looks (after : Phase) (going : after.ended = false → phase.ended = false)
      (creates : ∀ username raw, after ≠ .creating username raw) :
      Orderly deps since (state.move id after) :=
    orderly.moved found after state.store going (fun _ => rfl)
      (fun username raw isCreating => absurd isCreating (creates username raw)) orderly.lasting
  cases phase with
  | checking body =>
    simp only [Phase.next]
    split
    · exact looks _ (fun _ => rfl) nofun
    · exact looks _ (fun _ => rfl) nofun
  | scanning body =>
    simp only [Phase.next]
    split
    · exact looks _ (fun _ => rfl) nofun
    · exact looks _ (fun _ => rfl) nofun
    · rename_i missed
      refine orderly.moved found _ state.store (fun _ => rfl) nofun (fun _ _ _ other lives => ?_)
        orderly.lasting
      obtain ⟨stored, accepted⟩ := orderly.lasting other lives
      rw [Env.eq_healthy input.env healthy] at missed
      exact anyUserExists_of_stored lawful _ state.store other stored accepted missed
  | creating username raw =>
    simp only [Phase.next, submit, replied]
    refine orderly.moved found _ _ (fun _ => rfl) nofun (fun _ _ creating => ?_)
      (written (.user username raw))
    split at creating <;> cases creating
  | reading username =>
    simp only [Phase.next]
    split
    · exact looks _ (fun _ => rfl) nofun
    · exact looks _ (fun _ => rfl) nofun
  | binding username raw =>
    simp only [Phase.next, submit, replied]
    refine orderly.moved found _ _ (fun _ => rfl) nofun (fun _ _ creating => ?_)
      (written (.policy raw))
    split at creating <;> cases creating
  | marking username =>
    simp only [Phase.next]
    split
    · exact looks _ (fun _ => rfl) nofun
    · rename_i raw _
      simp only [submit, replied]
      exact orderly.moved found _ _ (fun _ => rfl) nofun nofun (written (.genesis raw))
  | finishing username => exact looks _ (fun _ => rfl) nofun
  | answered answer => exact looks _ nofun nofun
  | gone => exact looks _ nofun nofun

theorem orderly_act (lawful : deps.Lawful) (decoder : Decoder) (codec : Codec) (step : Step Id)
    (state : State Id) (turn : step.Calm ∧ InTurn step state) (orderly : Orderly deps since state) :
    Orderly deps since (act deps decoder codec step state) := by
  obtain ⟨calm, turn⟩ := turn
  cases step with
  | start id body =>
    simp only [act]
    split
    · refine ⟨orderly.pending, ?_, ?_, orderly.lasting⟩
      · have isId {other : Id} {phase : Phase}
            (isPhase : (state.move id (.checking body)).requests other = some phase)
            (onItsWay : phase.ended = false) : other = id := by
          by_contra different
          rw [State.move_of_ne _ _ _ different] at isPhase
          exact Bool.false_ne_true (onItsWay.symm.trans (turn other phase isPhase))
        intro first second phase other isPhase isOther onItsWay otherOnItsWay
        rw [isId isPhase onItsWay, isId isOther otherOnItsWay]
      · intro creator username raw creating
        by_cases isId : creator = id
        · subst isId
          rw [State.move_self] at creating
          cases creating
        · rw [State.move_of_ne _ _ _ isId] at creating
          cases turn creator _ creating
    · exact orderly
  | advance id input =>
    simp only [act]
    split
    · exact orderly
    · rename_i phase found
      exact orderly_advance lawful decoder codec id input calm orderly phase found
  | late position input =>
    have nothing : state.pending[position]? = none := by
      rw [orderly.pending]
      rfl
    simp only [act, nothing]
    exact orderly
  | crash =>
    have isOver {id : Id} {phase : Phase}
        (isPhase : (state.requests id).map Phase.crashed = some phase) : phase.ended = true := by
      obtain ⟨before, _, rfl⟩ := Option.map_eq_some_iff.mp isPhase
      cases before <;> rfl
    refine ⟨orderly.pending, ?_, ?_, orderly.lasting⟩
    · intro first second phase other isPhase _ onItsWay _
      exact absurd (onItsWay.symm.trans (isOver isPhase)) Bool.false_ne_true
    · intro creator username raw creating
      cases isOver creating

/-- Requests that come in turn, with an engine and replies that do not fail, create no user beside
another one: a request looks for users before it creates one. -/
theorem alone_in_turn (lawful : deps.Lawful) (decoder : Decoder) (codec : Codec) (store : Store)
    (noUser : ∀ username, ¬ Lives deps since store username) (steps : List (Step Id))
    (calm : ∀ step ∈ steps, step.Calm)
    (turns : Replay.Meets (act deps decoder codec) InTurn steps (begin Id store)) :
    Replay.Meets (act deps decoder codec) (Alone deps since) steps (begin Id store) := by
  refine Replay.Meets.of_invariant _ (Orderly deps since)
    (orderly_act lawful decoder codec) ?_ steps _
    (Replay.Meets.and_forall _ steps _ turns calm)
    ⟨rfl, nofun, nofun, fun username lives => absurd lives (noUser username)⟩
  intro step state _ orderly username creates other lives
  cases step with
  | start id body => cases creates
  | advance id input =>
    rw [Step.creates] at creates
    split at creates
    · rename_i raw creating _
      exact absurd lives (orderly.guarded id _ raw creating other)
    · cases creates
  | late position input =>
    rw [Step.creates, orderly.pending] at creates
    cases creates
  | crash => cases creates

end

/-! ### Two bootstraps -/

/-- Records in the formats that `sampleDecoder` reads. -/
def sampleCodec : Codec where
  toPolicyCodec := PolicyService.sampleCodec
  user name _ _ := .ok ((Format.bytes.pair (Format.bool.pair Format.bool)).put (name, false, false))
  genesis initializedAt createdBy :=
    .ok ((Format.long.pair Format.bytes).put (initializedAt, createdBy))

/-- A step in which nothing fails. -/
def sampleInput (clock : Int64) (index : UInt64) : Input where
  env := .healthy clock
  index := index
  fate := .replied
  hash := .ok (str "hash")
  clock := clock
  order := PolicyService.insertionOrder

def sampleBody (username : Bytes) : Body := ⟨username, str "long enough"⟩

/-- A request from its start to its answer. -/
def wholeRequest {Id : Type} (id : Id) (username : Bytes) : List (Step Id) :=
  .start id (some (sampleBody username)) ::
    [0, 0, 1, 0, 2, 3, 0].map fun index => .advance id (sampleInput 100 index)

theorem wholeRequest_calm {Id : Type} (id : Id) (username : Bytes) (step : Step Id)
    (member : step ∈ wholeRequest id username) : step.Calm := by
  rcases List.mem_cons.mp member with rfl | advance
  · trivial
  · obtain ⟨index, _, rfl⟩ := List.mem_map.mp advance
    exact ⟨fun _ => rfl, rfl⟩

instance (step : Step Bool) (state : State Bool) : Decidable (InTurn step state) :=
  match step with
  | .start _ _ => decidable_of_iff
      (∀ id : Bool, (state.requests id).all Phase.ended = true)
      (by simp [InTurn, Option.all_eq_true])
  | .advance _ _ | .late _ _ | .crash => .isTrue trivial

/-- Two requests one after the other. -/
def inTurn : List (Step Bool) := wholeRequest true (str "alice") ++ wholeRequest false (str "bob")

theorem one_bootstrap_wins_in_turn :
    (Replay.run (act Reference.deps PolicyService.sampleDecoder sampleCodec) inTurn
      (begin Bool Store.empty)).requests true = some (.answered (.created (str "alice"))) ∧
    ∀ id username, (Replay.run (act Reference.deps PolicyService.sampleDecoder sampleCodec) inTurn
      (begin Bool Store.empty)).requests id = some (.answered (.created username)) → id = true := by
  have noUser : ∀ username, ¬ Lives Reference.deps 100 Store.empty username := by
    rintro username ⟨record, found, _⟩
    cases found
  have calm : ∀ step ∈ inTurn, step.Calm := by
    intro step member
    rcases List.mem_append.mp member with first | second
    · exact wholeRequest_calm true _ step first
    · exact wholeRequest_calm false _ step second
  have meets : Replay.Meets (act Reference.deps PolicyService.sampleDecoder sampleCodec)
      (Alone Reference.deps 100) _ (begin Bool Store.empty) :=
    alone_in_turn Reference.lawful _ _ Store.empty noUser _ calm (by decide +kernel)
  have wins : (Replay.run (act Reference.deps PolicyService.sampleDecoder sampleCodec) inTurn
      (begin Bool Store.empty)).requests true = some (.answered (.created (str "alice"))) := by
    decide +kernel
  refine ⟨wins, fun id username created => ?_⟩
  exact (one_bootstrap_wins Reference.deps Reference.lawful PolicyService.sampleDecoder sampleCodec
    100 Store.empty noUser _ meets).1 id true username (str "alice") created wins

/-- Two requests for different users. Both have passed the guard before either creates its user. -/
def racingSteps : List (Step Bool) :=
  [.start true (some (sampleBody (str "alice"))), .start false (some (sampleBody (str "bob"))),
    .advance true (sampleInput 100 0), .advance false (sampleInput 100 0),
    .advance true (sampleInput 100 0), .advance false (sampleInput 100 0),
    .advance true (sampleInput 100 1), .advance false (sampleInput 100 2),
    .advance true (sampleInput 100 0), .advance true (sampleInput 100 3),
    .advance false (sampleInput 100 0), .advance false (sampleInput 100 4),
    .advance true (sampleInput 100 5), .advance false (sampleInput 100 6),
    .advance true (sampleInput 100 0), .advance false (sampleInput 100 0)]

/-- Both requests answer that they have created the first user, and both users are
administrators. -/
theorem two_bootstraps_win :
    (Replay.run (act Reference.deps PolicyService.sampleDecoder sampleCodec) racingSteps
      (begin Bool Store.empty)).requests true = some (.answered (.created (str "alice"))) ∧
    (Replay.run (act Reference.deps PolicyService.sampleDecoder sampleCodec) racingSteps
      (begin Bool Store.empty)).requests false = some (.answered (.created (str "bob"))) ∧
    ∀ username ∈ [str "alice", str "bob"], ∀ now,
      IsAdministrator Reference.deps PolicyService.sampleDecoder now
        (Replay.run (act Reference.deps PolicyService.sampleDecoder sampleCodec) racingSteps
          (begin Bool Store.empty)).store username := by
  refine ⟨by decide +kernel, by decide +kernel, fun username member now => ?_⟩
  have administers : ∀ username ∈ [str "alice", str "bob"],
      Administers Reference.deps PolicyService.sampleDecoder
        (Replay.run (act Reference.deps PolicyService.sampleDecoder sampleCodec) racingSteps
          (begin Bool Store.empty)).store username := by decide +kernel
  exact isAdministrator_of_administers Reference.deps Reference.lawful _ _ username
    (administers username member) now

end Setup

end ConsensusDB
