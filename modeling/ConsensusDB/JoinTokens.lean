/-
This file is the enrollment of nodes in `pkg/console/pki.go`. A join token is minted
as a record under the hash of the token. `signNodeEnrollment` reads the record, burns
it by a write on the condition that it still has the version that was read, and signs
the certificate of the node; `consumeJoinToken` removes the record afterwards. The
pre-shared bootstrap token is adopted as a reusable record instead.

Each access to the store is one step, and any number of calls take their steps in any
order. A read may return what any earlier store held, since a follower answers it. A
reply may be lost, and then the write may still take effect later. Versions come from
the log or, without one, from a counter of each key.

A burned record expires at the first second of 1970, so a call whose clock has passed
it never takes a burned record for a minted one. Then every write of a minted record
is conditional on the version of its minting, which no later write gives again, and
the removal leaves no version at all: one call at most signs.
-/

import ConsensusDB.Certificates
import ConsensusDB.Handlers

namespace ConsensusDB

open Wire Iam

namespace Iam

def pkiRegion : Bytes := str "PKI"

def joinPrefix : Bytes := str "join/"

def nodeSANDNS : Bytes := str "node.cdb.internal"

def joinIndexKey (hash : Bytes) : Bytes := joinPrefix ++ hash

def pkiKey (minor : Bytes) : Key := ⟨systemTenant, pkiRegion, minor, none⟩

structure JoinRecord where
  expiresAt : Int64
  createdBy : Bytes
  reusable : Bool
  deriving DecidableEq, Repr

/-- `Encode` and `Decode` of join records. -/
structure JoinCodec where
  encode : JoinRecord → Except Err Bytes
  decode : Bytes → Except Err JoinRecord

def JoinCodec.Lawful (codec : JoinCodec) : Prop :=
  ∀ record raw, codec.encode record = .ok raw → raw ≠ [] ∧ codec.decode raw = .ok record

end Iam

namespace Enrollment

open Console (trimSpace)

/-! ### The handlers -/

/-- What is the same for all nodes: the hash of tokens, the configured bootstrap token, how a text
is read as an address, and the format of join records. -/
structure Config where
  hashToken : Bytes → Bytes
  bootstrapToken : Bytes
  parseIP : Bytes → Option Bytes
  codec : JoinCodec

/-- The key of a token's record. -/
def Config.joinKey (config : Config) (token : Bytes) : Key :=
  pkiKey (joinIndexKey (config.hashToken token))

/-- What a minting finds: how the authority and the new token come out, the given time to live, the
second in which it ends, the engine, and the version of its write. -/
structure MintInput where
  authority : Except Err Unit
  token : Except Err Bytes
  ttl : Int64
  deadline : Int64
  createdBy : Bytes
  env : Env
  commitVersion : UInt64

def mintJoinToken (deps : Deps) (config : Config) (input : MintInput) (store : Store) :
    Except Err (Bytes × Int64) × Store :=
  match input.authority, input.token with
  | .error err, _ => (.error err, store)
  | .ok _, .error err => (.error err, store)
  | .ok _, .ok token =>
    let expiresAt := if input.ttl > 0 then input.deadline else 0
    match config.codec.encode ⟨expiresAt, input.createdBy, false⟩ with
    | .error err => (.error err, store)
    | .ok raw =>
      let written := (KeyWrite.put (config.joinKey token) raw none).perform deps input.env store
        input.commitVersion
      (written.1.map fun _ => (token, expiresAt), written.2)

/-- A call of `signNodeEnrollment`. Its signing request comes with the step that parses it. -/
structure Call where
  token : Bytes
  nodeId : Bytes
  hosts : List Bytes
  deriving DecidableEq, Repr

inductive Answer where
  | certificate (certificate : Certificate)
  | error (err : Err)
  deriving DecidableEq, Repr

inductive Request where
  | enroll (call : Call)
  | consume (token : Bytes)
  deriving DecidableEq, Repr

/-- Where a request is: what it does next, and what it has in hand for it. The last four are
`consumeJoinToken` and requests that are over. -/
inductive Phase where
  | reading (call : Call)
  | adopting (call : Call) (raw : Bytes)
  | rereading (call : Call)
  | burning (call : Call) (version : UInt64) (raw : Bytes)
  | signing (call : Call)
  | answered (call : Call) (answer : Answer)
  | looking (token : Bytes)
  | removing (token : Bytes)
  | consumed
  | gone
  deriving DecidableEq, Repr

/-- What a step of a request finds: the store, the clock, and how the signing request, the authority
and the signing come out. -/
structure Input where
  access : Access
  clock : Int64
  csr : Except Err Unit
  authority : Except Err Unit
  encoding : Except Err Unit

section

variable (deps : Deps) (config : Config)

/-- `adoptBootstrapToken` up to its write. -/
def adoptBootstrapToken (call : Call) : Phase :=
  if config.bootstrapToken = [] ∨
      config.hashToken config.bootstrapToken ≠ config.hashToken call.token then
    .answered call (.error (.text "invalid join token"))
  else
    match config.codec.encode ⟨0, str "bootstrap-token", true⟩ with
    | .error err => .answered call (.error err)
    | .ok raw => .adopting call raw

/-- What a call does with a record that has a value. -/
def verify (clock : Int64) (call : Call) (record : Record) : Phase :=
  match config.codec.decode record.value with
  | .error err => .answered call (.error err)
  | .ok join =>
    if join.expiresAt ≠ 0 ∧ clock > join.expiresAt then
      .answered call (.error (.text "join token expired"))
    else if join.reusable then .signing call
    else
      match record.head with
      | none => .answered call (.error (.text "invalid join token"))
      | some head =>
        match config.codec.encode ⟨1, join.createdBy, false⟩ with
        | .error err => .answered call (.error err)
        | .ok burned => .burning call head.version burned

/-- Sorts host texts into names and addresses, each text once. -/
def splitHosts (hosts : List Bytes) : List Bytes × List Bytes :=
  let texts := ((hosts.map trimSpace).filter fun host => host ≠ []).eraseDups
  (texts.filter fun host => (config.parseIP host).isNone, texts.filterMap config.parseIP)

def signNode (input : Input) (call : Call) : Answer :=
  match input.csr, input.authority with
  | .error err, _ => .error err
  | .ok _, .error err => .error err
  | .ok _, .ok _ =>
    let hosts := splitHosts config ([call.nodeId, nodeSANDNS] ++ call.hosts)
    match sign input.encoding
        { commonName := call.nodeId, dnsNames := hosts.1, ips := hosts.2, client := true,
          server := true } with
    | .error err => .error err
    | .ok certificate => .certificate certificate

/-- What a request does next with the store it looks at. -/
def look (input : Input) (store : Store) : Phase → Phase
  | .reading call =>
    match Storage.get deps input.access.env store { key := some (config.joinKey call.token) } with
    | .error err => .answered call (.error err)
    | .ok record =>
      if record.value = [] then adoptBootstrapToken config call
      else verify config input.clock call record
  | .rereading call =>
    match Storage.get deps input.access.env store { key := some (config.joinKey call.token) } with
    | .error err => .answered call (.error err)
    | .ok record =>
      if record.value = [] then .answered call (.error (.text "invalid join token"))
      else verify config input.clock call record
  | .signing call => .answered call (signNode config input call)
  | .looking token =>
    match Storage.get deps input.access.env store { key := some (config.joinKey token) } with
    | .error _ => .removing token
    | .ok record =>
      if record.value = [] then .removing token
      else
        match config.codec.decode record.value with
        | .error _ => .removing token
        | .ok join => if join.reusable then .consumed else .removing token
  | phase => phase

/-- The write that a request asks for. -/
def write : Phase → Option KeyWrite
  | .adopting call raw => some (.put (config.joinKey call.token) raw (some 0))
  | .burning call version raw => some (.put (config.joinKey call.token) raw (some version))
  | .removing token => some (.remove (config.joinKey token))
  | _ => none

/-- How a request goes on with the status of its write. -/
def resume : Phase → Except Err Status → Phase
  | .adopting call _, .error err => .answered call (.error err)
  | .adopting call _, .ok _ => .rereading call
  | .burning call _ _, .error err => .answered call (.error err)
  | .burning call _ _, .ok ⟨false⟩ =>
    .answered call (.error (.text "join token already used"))
  | .burning call _ _, .ok ⟨true⟩ => .signing call
  | .removing _, _ => .consumed
  | phase, _ => phase

end

/-- The first phase of a request. -/
def Request.first : Request → Phase
  | .enroll call =>
    if call.token = [] ∨ call.nodeId = [] then
      .answered call (.error (.text "token and nodeId are required"))
    else .reading call
  | .consume token => .looking token

/-- A crash of its node ends a request that has not answered. -/
def Phase.stopped : Phase → Phase
  | .answered call answer => .answered call answer
  | _ => .gone

/-- The requests of all nodes. -/
def handler (deps : Deps) (config : Config) : Handler Request Phase Input where
  first := Request.first
  access := Input.access
  look := look deps config
  write := write config
  resume := resume
  stop := Phase.stopped

/-! ### What is stored under a minted token -/

section

variable (deps : Deps) (config : Config) (token : Bytes) (minted : UInt64)

/-- The record of the token that a store holds. -/
def recordOf (store : Store) : Option StoredRecord :=
  store.records deps (encodeKey deps (config.joinKey token)).1

/-- The text of a burned record. -/
def Burned (raw : Bytes) : Prop :=
  ∃ createdBy, config.codec.decode raw = .ok ⟨1, createdBy, false⟩

/-- The record of the token is the minted one or a burned one, or there is none. -/
def Kept (store : Store) : Prop :=
  ∀ record ∈ recordOf deps config token store,
    (record.version = minted ∨ Burned config record.value) ∧
      ∃ join, config.codec.decode record.value = .ok join ∧ join.reusable = false

/-- A write of the token's record burns it on the condition that it is the minted one, or removes
it. -/
def Fair (write : KeyWrite) : Prop :=
  write.key = config.joinKey token →
    write = .remove write.key ∨
      ∃ raw, write = .put write.key raw (some minted) ∧ Burned config raw

/-- The minted record is no longer there. -/
def UsedUp (store : Store) : Prop :=
  (store.records deps).versionAt (encodeKey deps (config.joinKey token)).1 ≠ minted

structure Global (mode : Mode) (shared : Shared) : Prop where
  version : minted ≠ 0
  numbered : mode = .replicated → minted ≤ shared.last
  store : Kept deps config token minted shared.store
  past : ∀ store ∈ shared.past, Kept deps config token minted store
  pending : ∀ write ∈ shared.pending, Fair config token minted write

/-- What a request that has the token has in hand. -/
def Local : Phase → Prop
  | .adopting call _ => config.hashToken call.token ≠ config.hashToken token
  | .rereading call => config.hashToken call.token ≠ config.hashToken token
  | .burning call version raw => config.hashToken call.token = config.hashToken token →
    version = minted ∧ Burned config raw
  | _ => True

/-- The request signs with the token, or has signed. -/
def Got : Phase → Prop
  | .signing call => config.hashToken call.token = config.hashToken token
  | .answered call (.certificate _) => config.hashToken call.token = config.hashToken token
  | _ => False

variable {deps config token minted}

theorem joinKey_eq_iff {first second : Bytes} :
    config.joinKey first = config.joinKey second ↔
      config.hashToken first = config.hashToken second := by
  refine ⟨fun same => ?_, fun same => by rw [Config.joinKey, Config.joinKey, same]⟩
  exact List.append_cancel_left (congrArg Key.minorKey same)

theorem Kept.of_record {first second : Store} (kept : Kept deps config token minted first)
    (same : recordOf deps config token second = recordOf deps config token first) :
    Kept deps config token minted second := by
  unfold Kept
  rw [same]
  exact kept

theorem kept_of_none {store : Store} (nothing : recordOf deps config token store = none) :
    Kept deps config token minted store := by
  intro record found
  rw [nothing] at found
  exact absurd found.symm (Option.some_ne_none _)

theorem usedUp_of_none {store : Store} (version : minted ≠ 0)
    (nothing : recordOf deps config token store = none) :
    UsedUp deps config token minted store := by
  unfold UsedUp Records.versionAt
  rw [show store.records deps _ = none from nothing]
  exact version.symm

theorem UsedUp.of_record {first second : Store} (usedUp : UsedUp deps config token minted first)
    (same : recordOf deps config token second = recordOf deps config token first) :
    UsedUp deps config token minted second := by
  unfold UsedUp Records.versionAt at usedUp ⊢
  rw [show second.records deps _ = first.records deps _ from same]
  exact usedUp

/-- A write gets another version than the minted one. -/
theorem nextVersion_ne {mode : Mode} {last index version : UInt64}
    (numbered : mode = .replicated → minted ≤ last)
    (turn : mode.version last index = some version) : nextVersion version minted ≠ minted := by
  unfold nextVersion
  cases mode with
  | raftOff =>
    obtain rfl := Option.some.inj turn
    rw [if_pos rfl]
    intro same
    have numbers := congrArg UInt64.toNat same
    rw [UInt64.toNat_add, show (1 : UInt64).toNat = 1 from rfl] at numbers
    have bound := minted.toNat_lt
    omega
  | replicated =>
    simp only [Mode.version] at turn
    split at turn
    · rename_i later
      obtain rfl := Option.some.inj turn
      have before : minted < index := UInt64.lt_of_le_of_lt (numbered rfl) later
      rw [if_neg (fun zero => absurd (zero ▸ before) UInt64.not_lt_zero)]
      exact (UInt64.ne_of_lt before).symm
    · cases turn

/-- A write that takes effect keeps what is known of all stores. -/
theorem Global.wrote {mode : Mode} {shared : Shared}
    (global : Global deps config token minted mode shared) {index version : UInt64}
    (turn : mode.version shared.last index = some version) {store : Store}
    (kept : Kept deps config token minted store) :
    Global deps config token minted mode (shared.wrote version store) := by
  refine ⟨global.version, fun replicated => ?_, kept, fun each member => ?_, global.pending⟩
  · subst replicated
    simp only [Mode.version] at turn
    split at turn
    · rename_i later
      obtain rfl := Option.some.inj turn
      exact UInt64.le_of_lt (UInt64.lt_of_le_of_lt (global.numbered rfl) later)
    · cases turn
  · rcases List.mem_cons.mp member with rfl | earlier
    · exact global.store
    · exact global.past each earlier

variable (lawful : deps.Lawful)

include lawful in
/-- A fair write keeps a used-up token used up, and the record of the token as it may be. -/
theorem Fair.perform {write : KeyWrite} (fair : Fair config token minted write) (env : Env)
    (version : UInt64) (nonzero : minted ≠ 0) {store : Store}
    (kept : Kept deps config token minted store) :
    Kept deps config token minted (write.perform deps env store version).2 ∧
      (UsedUp deps config token minted store →
        UsedUp deps config token minted (write.perform deps env store version).2) := by
  by_cases about : write.key = config.joinKey token
  · rcases KeyWrite.perform_cases deps lawful env store version write with
      ⟨same, _⟩ | ⟨_, _, met, stored⟩
    · rw [same]
      exact ⟨kept, fun usedUp => usedUp⟩
    · have left : recordOf deps config token (write.perform deps env store version).2 =
          write.left (nextVersion version
            ((store.records deps).versionAt (encodeKey deps write.key).1)) := by
        unfold recordOf
        rw [stored, ← about, Function.update_self]
      rcases fair about with remove | ⟨raw, put, burned⟩
      · rw [remove] at left
        rw [remove]
        exact ⟨kept_of_none left, fun _ => usedUp_of_none nonzero left⟩
      · have before : (store.records deps).versionAt (encodeKey deps write.key).1 = minted :=
          met minted (put ▸ rfl)
        rw [before, put] at left
        rw [put]
        refine ⟨fun record found => ?_, fun usedUp => absurd (about ▸ before) usedUp⟩
        rw [left] at found
        obtain rfl := Option.some.inj found
        obtain ⟨createdBy, decoded⟩ := burned
        exact ⟨Or.inr ⟨createdBy, decoded⟩, _, decoded, rfl⟩
  · have same := KeyWrite.records_perform_other deps lawful env store version write
      (config.joinKey token) (Ne.symm about)
    exact ⟨kept.of_record same, fun usedUp => usedUp.of_record same⟩

include lawful in
/-- A burning that is carried out finds the minted record and leaves another one. -/
theorem burn_uses (env : Env) (version : UInt64) (newer : nextVersion version minted ≠ minted)
    (store : Store) (raw : Bytes)
    (updated : ((KeyWrite.put (config.joinKey token) raw (some minted)).perform deps env store
      version).1 = .ok ⟨true⟩) :
    ¬ UsedUp deps config token minted store ∧
      UsedUp deps config token minted ((KeyWrite.put (config.joinKey token) raw
        (some minted)).perform deps env store version).2 := by
  rcases KeyWrite.perform_cases deps lawful env store version
    (.put (config.joinKey token) raw (some minted)) with ⟨_, silent⟩ | ⟨_, _, met, stored⟩
  · exact absurd updated silent
  · have before := met minted rfl
    refine ⟨fun usedUp => usedUp before, ?_⟩
    unfold UsedUp Records.versionAt
    rw [stored, show KeyWrite.key _ = config.joinKey token from rfl, Function.update_self]
    exact fun same => newer (before ▸ same)

include lawful in
/-- So does a write that a request asks for. -/
theorem submit_kept {mode : Mode} {access : Access} {write : KeyWrite} {shared after : Shared}
    {reply : Except Err Status} (global : Global deps config token minted mode shared)
    (fair : Fair config token minted write)
    (submitted : submit deps mode access write shared = some (reply, after)) :
    Global deps config token minted mode after ∧
      (UsedUp deps config token minted shared.store →
        UsedUp deps config token minted after.store) := by
  rcases submit_cases deps mode submitted with ⟨version, turn, _, _, rfl⟩ | ⟨_, _, rfl⟩
  · obtain ⟨kept, usedUp⟩ := fair.perform lawful access.env version global.version global.store
    exact ⟨global.wrote turn kept, usedUp⟩
  · refine ⟨⟨global.version, global.numbered, global.store, global.past, fun each member => ?_⟩,
      fun usedUp => usedUp⟩
    rcases List.mem_append.mp member with earlier | last
    · exact global.pending each earlier
    · rw [List.mem_singleton.mp last]
      exact fair

theorem Global.seen {mode : Mode} {shared : Shared}
    (global : Global deps config token minted mode shared) (age : Nat) :
    Kept deps config token minted (shared.seen age) := by
  rcases shared.seen_mem age with current | earlier
  · rw [current]
    exact global.store
  · exact global.past _ earlier

/-- A call that has a record is refused, signs or burns. -/
theorem verify_cases (config : Config) (clock : Int64) (call : Call) (record : Record) :
    (∃ err, verify config clock call record = .answered call (.error err)) ∨
      verify config clock call record = .signing call ∨
      ∃ version raw, verify config clock call record = .burning call version raw := by
  unfold verify
  split
  · exact Or.inl ⟨_, rfl⟩
  · split
    · exact Or.inl ⟨_, rfl⟩
    · split
      · exact Or.inr (Or.inl rfl)
      · split
        · exact Or.inl ⟨_, rfl⟩
        · split
          · exact Or.inl ⟨_, rfl⟩
          · exact Or.inr (Or.inr ⟨_, _, rfl⟩)

/-- A call that reads a record of the token which is not burned has the minted one in hand, and it
does not sign yet. -/
theorem verify_local (codecLawful : config.codec.Lawful) {store : Store}
    (kept : Kept deps config token minted store) (env : Env) (call : Call) (record : Record)
    (got : Storage.get deps env store { key := some (config.joinKey call.token) } = .ok record)
    (value : record.value ≠ []) (clock : Int64) :
    (1 < clock → Local config token minted (verify config clock call record)) ∧
      ¬ Got config token (verify config clock call record) := by
  by_cases same : config.hashToken call.token = config.hashToken token
  · rw [joinKey_eq_iff.mpr same] at got
    obtain ⟨stored, head, found, isHead, isVersion, isValue⟩ :=
      get_found deps store env (config.joinKey token) record got value
    obtain ⟨known, join, decoded, single⟩ := kept stored found
    unfold verify
    rw [isValue, decoded]
    simp only [single, isHead]
    split
    · exact ⟨fun _ => trivial, id⟩
    · rename_i current
      rw [if_neg Bool.false_ne_true]
      split
      · exact ⟨fun _ => trivial, id⟩
      · rename_i raw encoded
        refine ⟨fun passed _ => ⟨?_, join.createdBy, (codecLawful _ raw encoded).2⟩, id⟩
        rcases known with minting | ⟨createdBy, burned⟩
        · exact isVersion.trans minting
        · -- a burned record has expired for a clock that has passed its second
          obtain rfl := Except.ok.inj (decoded.symm.trans burned)
          exact absurd ⟨(by decide : (1 : Int64) ≠ 0), passed⟩ current
  · rcases verify_cases config clock call record with
      ⟨err, refused⟩ | signs | ⟨version, raw, burns⟩
    · rw [refused]
      exact ⟨fun _ => trivial, id⟩
    · rw [signs]
      exact ⟨fun _ => trivial, same⟩
    · rw [burns]
      exact ⟨fun _ isSame => absurd isSame same, id⟩

/-! ### One call signs -/

/-- The commands of others do not name the token's record. -/
def Unnamed (config : Config) (token : Bytes) : Event → Prop
  | .late _ _ _ => True
  | .other command _ _ => config.joinKey token ∉ command.keys

/-- Bootstrap tokens are not the token, so an adoption is of another one. -/
theorem adopt_local (notBootstrap : config.hashToken config.bootstrapToken ≠ config.hashToken token)
    (call : Call) :
    Local config token minted (adoptBootstrapToken config call) ∧
      ¬ Got config token (adoptBootstrapToken config call) := by
  unfold adoptBootstrapToken
  split
  · exact ⟨trivial, id⟩
  · rename_i adopted
    have same := not_not.mp (not_or.mp adopted).2
    split
    · exact ⟨trivial, id⟩
    · exact ⟨fun isSame => notBootstrap (same.trans isSame), id⟩

/-- What a request asks for is fair. -/
theorem fair_write {phase : Phase} {asked : KeyWrite} (known : Local config token minted phase)
    (asks : write config phase = some asked) : Fair config token minted asked := by
  cases phase with
  | adopting call raw =>
    obtain rfl := Option.some.inj asks
    exact fun same => absurd (joinKey_eq_iff.mp same) known
  | burning call version raw =>
    obtain rfl := Option.some.inj asks
    intro same
    obtain ⟨rfl, burned⟩ := known (joinKey_eq_iff.mp same)
    exact Or.inr ⟨raw, rfl, burned⟩
  | removing removed =>
    obtain rfl := Option.some.inj asks
    exact fun _ => Or.inl rfl
  | _ => cases asks

/-- A request that looks at a store goes on as it may, and does not get to sign by it. -/
theorem look_local (codecLawful : config.codec.Lawful)
    (notBootstrap : config.hashToken config.bootstrapToken ≠ config.hashToken token)
    (input : Input) {store : Store} (kept : Kept deps config token minted store) (phase : Phase)
    (known : Local config token minted phase) :
    (1 < input.clock → Local config token minted (look deps config input store phase)) ∧
      (Got config token (look deps config input store phase) → Got config token phase) := by
  have verified : ∀ (call : Call) (record : Record),
      Storage.get deps input.access.env store { key := some (config.joinKey call.token) } =
        .ok record → record.value ≠ [] →
      (1 < input.clock → Local config token minted (verify config input.clock call record)) ∧
        (Got config token (verify config input.clock call record) → False) :=
    fun call record got value =>
      verify_local codecLawful kept input.access.env call record got value input.clock
  cases phase with
  | reading call =>
    simp only [look]
    split
    · exact ⟨fun _ => trivial, False.elim⟩
    · rename_i record got
      split
      · obtain ⟨adopted, silent⟩ :
            Local config token minted (adoptBootstrapToken config call) ∧ _ :=
          adopt_local notBootstrap call
        exact ⟨fun _ => adopted, fun has => absurd has silent⟩
      · rename_i value
        obtain ⟨isLocal, silent⟩ := verified call record got value
        exact ⟨isLocal, fun has => absurd has silent⟩
  | rereading call =>
    simp only [look]
    split
    · exact ⟨fun _ => trivial, False.elim⟩
    · rename_i record got
      split
      · exact ⟨fun _ => trivial, False.elim⟩
      · rename_i value
        obtain ⟨isLocal, silent⟩ := verified call record got value
        exact ⟨isLocal, fun has => absurd has silent⟩
  | signing call =>
    refine ⟨fun _ => trivial, fun has => ?_⟩
    simp only [look] at has
    cases signed : signNode config input call with
    | certificate certificate =>
      rw [signed] at has
      exact has
    | error err =>
      rw [signed] at has
      exact has.elim
  | looking removed =>
    simp only [look]
    split
    · exact ⟨fun _ => trivial, False.elim⟩
    · split
      · exact ⟨fun _ => trivial, False.elim⟩
      · split
        · exact ⟨fun _ => trivial, False.elim⟩
        · split
          · exact ⟨fun _ => trivial, False.elim⟩
          · exact ⟨fun _ => trivial, False.elim⟩
  | _ => exact ⟨fun _ => known, id⟩

/-- A request that goes on after its write gets to sign only by having burned the token. -/
theorem resume_local {phase : Phase} {asked : KeyWrite} (known : Local config token minted phase)
    (asks : write config phase = some asked) (reply : Except Err Status) :
    Local config token minted (resume phase reply) ∧
      (Got config token (resume phase reply) → reply = .ok ⟨true⟩ ∧
        ∃ raw, asked = .put (config.joinKey token) raw (some minted)) := by
  cases phase with
  | adopting call raw =>
    cases reply with
    | error err => exact ⟨trivial, False.elim⟩
    | ok status => exact ⟨known, False.elim⟩
  | burning call version raw =>
    rcases reply with err | ⟨_ | _⟩
    · exact ⟨trivial, False.elim⟩
    · exact ⟨trivial, False.elim⟩
    · refine ⟨trivial, fun same => ⟨rfl, raw, ?_⟩⟩
      obtain ⟨rfl, _⟩ := known same
      rw [← joinKey_eq_iff.mpr same]
      exact (Option.some.inj asks).symm
  | removing removed => exact ⟨trivial, False.elim⟩
  | _ => cases asks

include lawful in
theorem occur_kept {mode : Mode} {shared : Shared} (event : Event)
    (unnamed : Unnamed config token event)
    (global : Global deps config token minted mode shared) :
    Global deps config token minted mode (event.occur deps mode shared) ∧
      (UsedUp deps config token minted shared.store →
        UsedUp deps config token minted (event.occur deps mode shared).store) := by
  cases event with
  | late position env index =>
    simp only [Event.occur]
    split
    · rename_i write version found turn
      obtain ⟨kept, usedUp⟩ := (global.pending write (List.mem_of_getElem? found)).perform lawful
        env version global.version global.store
      have after := global.wrote turn kept
      exact ⟨⟨after.version, after.numbered, after.store, after.past,
        fun each member => global.pending each (List.mem_of_mem_eraseIdx member)⟩, usedUp⟩
    · exact ⟨global, id⟩
  | other command env index =>
    simp only [Event.occur]
    split
    · exact ⟨global, id⟩
    · rename_i version turn
      rcases kept_or_removed_of_unnamed deps lawful env shared.store version command
        (config.joinKey token) unnamed with same | nothing
      · exact ⟨global.wrote turn (global.store.of_record same), fun usedUp => usedUp.of_record same⟩
      · exact ⟨global.wrote turn (kept_of_none nothing),
          fun _ => usedUp_of_none global.version nothing⟩

/-- What a step of a request does for the token: it keeps what is known, and it gets to sign only
by using the token up. -/
structure Spends (deps : Deps) (config : Config) (token : Bytes) (minted : UInt64) (mode : Mode)
    (input : Input) (shared : Shared) (phase : Phase) (outcome : Phase × Shared) : Prop where
  known : 1 < input.clock → Local config token minted outcome.1
  global : Global deps config token minted mode outcome.2
  kept : UsedUp deps config token minted shared.store →
    UsedUp deps config token minted outcome.2.store
  got : Got config token outcome.1 → Got config token phase ∨
    ¬ UsedUp deps config token minted shared.store ∧
      UsedUp deps config token minted outcome.2.store

include lawful in
theorem next_spends (codecLawful : config.codec.Lawful)
    (notBootstrap : config.hashToken config.bootstrapToken ≠ config.hashToken token) {mode : Mode}
    (input : Input) {shared : Shared} (global : Global deps config token minted mode shared)
    (phase : Phase) (known : Local config token minted phase) :
    Spends deps config token minted mode input shared phase
      ((handler deps config).next deps mode input shared phase) := by
  rcases (handler deps config).next_cases deps mode input shared phase with
    ⟨_, looks⟩ | waits | ⟨asked, reply, after, asks, submitted, resumes⟩
  · obtain ⟨next, got⟩ := look_local codecLawful notBootstrap input
      (global.seen input.access.age) phase known
    rw [looks]
    exact ⟨next, global, id, fun has => Or.inl (got has)⟩
  · rw [waits]
    exact ⟨fun _ => known, global, id, Or.inl⟩
  · obtain ⟨kept, usedUp⟩ := submit_kept lawful global (fair_write known asks) submitted
    obtain ⟨next, got⟩ := resume_local known asks reply
    rw [resumes]
    refine ⟨fun _ => next, kept, usedUp, fun has => Or.inr ?_⟩
    obtain ⟨updated, raw, rfl⟩ := got has
    rcases submit_cases deps mode submitted with ⟨version, turn, _, isReply, rfl⟩ | ⟨_, lost, _⟩
    · exact burn_uses lawful input.access.env version (nextVersion_ne global.numbered turn)
        shared.store raw (isReply.symm.trans updated)
    · rw [updated] at lost
      cases lost

theorem first_known (request : Request) :
    Local config token minted request.first ∧ ¬ Got config token request.first := by
  cases request with
  | enroll call =>
    simp only [Request.first]
    split
    · exact ⟨trivial, id⟩
    · exact ⟨trivial, id⟩
  | consume removed => exact ⟨trivial, id⟩

include lawful in
/-- What is known of the stores and of the requests stays so while clocks have passed the second in
which burned records expire. -/
theorem enrollment_invariant (codecLawful : config.codec.Lawful)
    (notBootstrap : config.hashToken config.bootstrapToken ≠ config.hashToken token) (mode : Mode) :
    ((handler deps config).machine deps mode).Invariant (fun input => 1 < input.clock)
      (Unnamed config token) (Global deps config token minted mode)
      (Local config token minted) where
  first request := (first_known request).1
  next input shared phase passed global known :=
    have spends := next_spends lawful codecLawful notBootstrap input global phase known
    ⟨spends.global, spends.known passed⟩
  stop phase known := by
    cases phase with
    | answered call answer => exact known
    | _ => exact trivial
  occur event shared unnamed global := (occur_kept lawful event unnamed global).1

include lawful in
theorem enrollment_single_use (codecLawful : config.codec.Lawful)
    (notBootstrap : config.hashToken config.bootstrapToken ≠ config.hashToken token) (mode : Mode) :
    ((handler deps config).machine deps mode).SingleUse (Unnamed config token)
      (Global deps config token minted mode) (Local config token minted) (Got config token)
      (fun shared => UsedUp deps config token minted shared.store) where
  first request :=
    have known : Local config token minted request.first ∧ ¬ Got config token request.first :=
      first_known request
    known.2
  next input shared phase global known :=
    (next_spends lawful codecLawful notBootstrap input global phase known).got
  stop phase got := by
    cases phase with
    | answered call answer => exact got
    | _ => exact got.elim
  kept input shared phase global known :=
    (next_spends lawful codecLawful notBootstrap input global phase known).kept
  occur event shared unnamed global := (occur_kept lawful event unnamed global).2

include lawful in
/-- A minting that answers stores the record of its token, not reusable. -/
theorem recordOf_minted (codecLawful : config.codec.Lawful) (input : MintInput) (store : Store)
    (expiresAt : Int64) (after : Store)
    (done : mintJoinToken deps config input store = (.ok (token, expiresAt), after))
    (fresh : recordOf deps config token store = none) :
    ∃ raw, config.codec.decode raw = .ok ⟨expiresAt, input.createdBy, false⟩ ∧
      recordOf deps config token after = some ⟨raw, nextVersion input.commitVersion 0, 0, 0⟩ := by
  unfold mintJoinToken at done
  split at done
  · cases done
  · cases done
  · rename_i drawn _ _
    simp only at done
    split at done
    · cases done
    · rename_i raw encoded
      obtain ⟨answer, rfl⟩ := Prod.mk.inj done
      rcases put_unconditional deps store lawful input.env input.commitVersion
        { key := some (config.joinKey drawn), value := raw } (config.joinKey drawn) rfl rfl with
        ⟨_, err, failed⟩ | updated
      · rw [show (KeyWrite.put (config.joinKey drawn) raw none).perform deps input.env store
          input.commitVersion = Storage.put deps input.env store
            { key := some (config.joinKey drawn), value := raw } input.commitVersion from rfl,
          failed] at answer
        cases answer
      · rw [show ((KeyWrite.put (config.joinKey drawn) raw none).perform deps input.env store
          input.commitVersion).1 = .ok ⟨true⟩ from updated] at answer
        obtain ⟨rfl, rfl⟩ := Prod.mk.inj (Except.ok.inj answer)
        refine ⟨raw, (codecLawful _ raw encoded).2, ?_⟩
        rcases KeyWrite.perform_cases deps lawful input.env store input.commitVersion
          (.put (config.joinKey drawn) raw none) with ⟨_, silent⟩ | ⟨_, _, _, stored⟩
        · exact absurd updated silent
        · unfold recordOf at fresh ⊢
          rw [stored, show KeyWrite.key _ = config.joinKey drawn from rfl, Function.update_self,
            Records.versionAt, fresh]
          rfl

end

/-- A token that was drawn anew and minted signs one certificate at most: of all calls with it, on
any nodes, reading whatever store, with the record burned or removed by others in any order, at
most one is answered with a certificate, where clocks have passed the first second of 1970. -/
theorem join_token_signs_once {Id : Type} [DecidableEq Id] (deps : Deps) (lawful : deps.Lawful)
    (config : Config) (codecLawful : config.codec.Lawful) (mode : Mode) (before : Shared)
    (mint : MintInput) (index : UInt64)
    (turn : mode.version before.last index = some mint.commitVersion) (token : Bytes)
    (expiresAt : Int64) (after : Store)
    (minted : mintJoinToken deps config mint before.store = (.ok (token, expiresAt), after))
    (fresh : ∀ store ∈ before.store :: before.past, recordOf deps config token store = none)
    (unwritten : ∀ write ∈ before.pending, write.key ≠ config.joinKey token)
    (notBootstrap : token ≠ config.bootstrapToken)
    (collisionFree : config.hashToken config.bootstrapToken = config.hashToken token →
      config.bootstrapToken = token)
    (steps : List (Requests.Step Id Request Input Event))
    (clocks : ∀ id input, .advance id input ∈ steps → 1 < input.clock)
    (unnamed : ∀ event, .occur event ∈ steps → Unnamed config token event)
    (first second : Id) (call otherCall : Call) (certificate otherCertificate : Certificate)
    (isToken : call.token = token) (isSameToken : otherCall.token = token)
    (answered : (Replay.run ((handler deps config).machine deps mode).act steps
        (Requests.begin Id (before.wrote mint.commitVersion after))).phases first =
      some (.answered call (.certificate certificate)))
    (otherAnswered : (Replay.run ((handler deps config).machine deps mode).act steps
        (Requests.begin Id (before.wrote mint.commitVersion after))).phases second =
      some (.answered otherCall (.certificate otherCertificate))) :
    first = second := by
  obtain ⟨raw, decoded, stored⟩ := recordOf_minted lawful codecLawful mint before.store expiresAt
    after minted (fresh _ List.mem_cons_self)
  have another : config.hashToken config.bootstrapToken ≠ config.hashToken token :=
    fun same => notBootstrap (collisionFree same).symm
  have global : Global deps config token (nextVersion mint.commitVersion 0) mode
      (before.wrote mint.commitVersion after) := by
    refine ⟨?_, fun replicated => ?_, fun record found => ?_, fun store member => ?_,
      fun write member same => absurd same (unwritten write member)⟩
    · unfold nextVersion
      split
      · decide
      · assumption
    · subst replicated
      simp only [Mode.version] at turn
      split at turn
      · rename_i later
        obtain rfl := Option.some.inj turn
        have nonzero : mint.commitVersion ≠ 0 := fun zero => UInt64.not_lt_zero (zero ▸ later)
        rw [nextVersion, if_neg nonzero]
        exact UInt64.le_refl _
      · cases turn
    · rw [show recordOf deps config token (before.wrote mint.commitVersion after).store = _ from
        stored] at found
      obtain rfl := Option.some.inj found
      exact ⟨Or.inl rfl, _, decoded, rfl⟩
    · exact kept_of_none (fresh store member)
  have meets : Replay.Meets ((handler deps config).machine deps mode).act
      (Requests.Machine.guard (fun input => 1 < input.clock) (Unnamed config token)) steps
      (Requests.begin Id (before.wrote mint.commitVersion after)) := by
    refine Replay.Meets.of_forall _ _ _ fun step member state => ?_
    cases step with
    | advance id input => exact clocks id input member
    | occur event => exact unnamed event member
    | _ => trivial
  exact ((enrollment_single_use lawful codecLawful another mode).oneGot_run
    (enrollment_invariant lawful codecLawful another mode) steps _ meets
    (Requests.Machine.holds_begin _ global) (Requests.Machine.oneGot_begin _)).unique first second
    _ _ answered otherAnswered (congrArg config.hashToken isToken)
    (congrArg config.hashToken isSameToken)

/-! ### Samples -/

/-- Join records in a binary format. -/
def sampleJoinCodec : JoinCodec where
  encode record := .ok ((Format.long.pair (Format.bytes.pair Format.bool)).put
    (record.expiresAt, record.createdBy, record.reusable))
  decode raw :=
    match (Format.long.pair (Format.bytes.pair Format.bool)).getAll raw with
    | none => .error (.text "decode")
    | some parts => .ok ⟨parts.1, parts.2.1, parts.2.2⟩

theorem sampleJoinCodec_lawful : sampleJoinCodec.Lawful := by
  rintro ⟨expiresAt, createdBy, reusable⟩ raw encoded
  obtain rfl := Except.ok.inj encoded
  refine ⟨Format.put_ne_nil _ (by decide) _, ?_⟩
  simp only [sampleJoinCodec, Format.getAll_put]

def sampleConfig : Config where
  hashToken token := token
  bootstrapToken := str "secret"
  parseIP _ := none
  codec := sampleJoinCodec

def sampleMint : MintInput where
  authority := .ok ()
  token := .ok (str "join-1")
  ttl := 0
  deadline := 0
  createdBy := str "user:admin"
  env := .healthy 100
  commitVersion := 1

/-- The cluster after the token was minted. -/
def mintedCluster : Shared :=
  (Shared.fresh Store.empty).wrote 1
    (mintJoinToken Reference.deps sampleConfig sampleMint Store.empty).2

def sampleCall (nodeId : String) : Call := ⟨str "join-1", str nodeId, []⟩

/-- A step on a healthy node that reads the current store. -/
def sampleInput (clock : Int64) (index : UInt64) : Input where
  access := .healthy clock index
  clock := clock
  csr := .ok ()
  authority := .ok ()
  encoding := .ok ()

/-- Two calls with the token, one after the other. -/
def enrollTwice (clock : Int64) : List (Requests.Step Bool Request Input Event) :=
  [.start false (.enroll (sampleCall "node-1")), .advance false (sampleInput clock 2),
    .advance false (sampleInput clock 2), .advance false (sampleInput clock 2),
    .start true (.enroll (sampleCall "node-2")), .advance true (sampleInput clock 3),
    .advance true (sampleInput clock 3), .advance true (sampleInput clock 3)]

def enrolledTwice (clock : Int64) : Requests.State Bool Shared Phase :=
  Replay.run ((handler Reference.deps sampleConfig).machine Reference.deps .replicated).act
    (enrollTwice clock) (Requests.begin Bool mintedCluster)

def nodeCertificate (nodeId : String) : Certificate where
  commonName := str nodeId
  uris := []
  dnsNames := [str nodeId, nodeSANDNS]
  ips := []
  client := true
  server := true

/-- The first of two calls signs, and nobody else does. -/
theorem join_token_signs_once_sample :
    (enrolledTwice 100).phases false =
        some (.answered (sampleCall "node-1") (.certificate (nodeCertificate "node-1"))) ∧
      ∀ id call certificate, call.token = str "join-1" →
        (enrolledTwice 100).phases id = some (.answered call (.certificate certificate)) →
        id = false := by
  have signed : (enrolledTwice 100).phases false =
      some (.answered (sampleCall "node-1") (.certificate (nodeCertificate "node-1"))) := by
    decide +kernel
  refine ⟨signed, fun id call certificate isToken answered => ?_⟩
  exact join_token_signs_once Reference.deps Reference.lawful sampleConfig sampleJoinCodec_lawful
    .replicated (.fresh Store.empty) sampleMint 1 rfl (str "join-1") 0 _ (Prod.ext (by decide) rfl)
    (fun store member => by
      obtain rfl : store = Store.empty := List.mem_singleton.mp member
      rfl)
    (fun write member => absurd member List.not_mem_nil) (by decide) (fun same => same)
    (enrollTwice 100) (by simp [enrollTwice, sampleInput]) (by simp [enrollTwice]) id false call _
    certificate _ isToken rfl answered signed

/-- Where clocks stand at the first second of 1970, a burned record has not expired, and a second
call burns it again and signs. -/
theorem join_token_signs_twice :
    (enrolledTwice 1).phases false =
        some (.answered (sampleCall "node-1") (.certificate (nodeCertificate "node-1"))) ∧
      (enrolledTwice 1).phases true =
        some (.answered (sampleCall "node-2") (.certificate (nodeCertificate "node-2"))) := by
  decide +kernel

end Enrollment

end ConsensusDB
