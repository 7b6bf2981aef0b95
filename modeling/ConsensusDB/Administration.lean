/-
This file is the requests by which identities and their rights are administered: users,
service accounts, tokens and certificates of `pkg/console`, role bindings there and on
the command line, and `purgePrincipal`, which revokes what a deleted principal had.

A request that creates something checks first and writes later. One that changes a role
binding reads the record of a scope and writes it back as a whole. A deletion removes
the record of the principal, scans the identity region, and then takes away, one by one,
what the scan has found: tokens and certificates, memberships, and bindings.
-/

import Mathlib.Data.List.Dedup
import ConsensusDB.Certificates
import ConsensusDB.Enumeration
import ConsensusDB.Handlers

namespace ConsensusDB

open Wire Iam

namespace Iam

def tokenIndexPrefix : Bytes := str "token/"

def tokenIndexKey (hash : Bytes) : Bytes := tokenIndexPrefix ++ hash

structure TokenRecord where
  principal : Bytes
  expiresAt : Int64
  label : Bytes
  createdAt : Int64
  deriving DecidableEq, Repr

end Iam

namespace Administration

open Console (MapOrder applyBinding policyOf principalExists trimSpace)

/-- `Encode` and `Decode` of the records that the requests read and write. -/
structure Codec where
  decoder : Decoder
  policy : PolicyCodec
  cert : CertCodec
  user : (name passwordHash : Bytes) → (createdAt : Int64) → Except Err Bytes
  serviceAccount : (name tokenHash : Bytes) → (createdAt : Int64) → Except Err Bytes
  token : TokenRecord → Except Err Bytes
  tokenOf : Bytes → Option TokenRecord
  group : GroupRecord → Except Err Bytes

/-! ### Requests -/

inductive Request where
  | createUser (username password : Bytes)
  | deleteUser (name : Bytes)
  | createServiceAccount (name : Bytes)
  | deleteServiceAccount (name : Bytes)
  | createUserToken (user label : Bytes) (ttlDays : Int64)
  | registerCert (principal identity : Bytes)
  | issueCert (principal : Bytes)
  | changeBinding (request : BindingRequest) (grant : Bool)
  | bindingAdd (request : BindingRequest)
  deriving DecidableEq, Repr

inductive Answer where
  | created (username : Bytes)
  | deleted (name : Bytes)
  | account (name token : Bytes)
  | token (id token label : Bytes) (expiresAt : Int64)
  | registered (identity principal : Bytes)
  | issued (identity : Bytes) (certificate : Certificate)
  | bound (scope role : Bytes)
  | added
  | error (status : Nat) (err : Err)
  deriving DecidableEq, Repr

/-- A record that a purge writes back: what it has read, and what it writes. -/
structure Update where
  minor : Bytes
  read : Bytes
  raw : Except Err Bytes
  deriving DecidableEq, Repr

/-- Where a request is: what it does next, and what it has in hand for it. -/
inductive Stage where
  | start
  | creatingUser (raw : Bytes)
  | creatingAccount (token hash raw : Bytes)
  | removing
  | scanning
  | purging (removals : List Bytes) (updates : List Update)
  | storing (minor raw : Bytes) (answer : Answer)
  | binding (minor : Bytes) (read : Option Bytes) (raw : Bytes) (answer : Answer)
  | answered (answer : Answer)
  | gone
  deriving DecidableEq, Repr

structure Phase where
  request : Request
  stage : Stage
  deriving DecidableEq, Repr

/-- What a step of a request finds: the store, the clock, the second after a number of days, the
hash of a password, a new token with its hash, the order of map keys, and how the authority, the
new key and the signing come out. -/
structure Input where
  access : Access
  clock : Int64
  addDays : Int64 → Int64
  hash : Except Err Bytes
  drawn : Except Err (Bytes × Bytes)
  order : MapOrder
  authority : Except Err Unit
  leafKey : Except Err Unit
  encoding : Except Err Unit

/-- The principal and the record that a request deletes. -/
def Request.deletes : Request → Option (Bytes × Bytes)
  | .deleteUser name => some (principalUser name, userPrefix ++ name)
  | .deleteServiceAccount name => some (principalServiceAccount name, serviceAccountPrefix ++ name)
  | _ => none

/-- The name that a deletion answers with. -/
def Request.name : Request → Bytes
  | .deleteUser name => name
  | .deleteServiceAccount name => name
  | _ => []

/-! ### What a purge finds -/

/-- `without` takes a name out of a list. -/
def without (names : List Bytes) (name : Bytes) : List Bytes := names.filter fun each => each ≠ name

def policyHasMember (policy : PolicyRecord) (principal : Bytes) : Bool :=
  policy.bindings.any fun binding => binding.members.contains principal

/-- The policy without a principal; bindings that are left empty are dropped. -/
def purgedPolicy (principal : Bytes) (policy : PolicyRecord) : PolicyRecord :=
  ⟨policy.bindings.filterMap fun binding =>
    let members := without binding.members principal
    if members = [] then none else some ⟨binding.role, members⟩⟩

/-- The principal that a record of the token index or of the certificate index names. -/
def owner (codec : Codec) (minor value : Bytes) : Option Bytes :=
  if tokenIndexPrefix.isPrefixOf minor then (codec.tokenOf value).map TokenRecord.principal
  else if certPrefix.isPrefixOf minor then
    (codec.cert.decode value).map CertIndexRecord.principal
  else none

/-- The minor key of a token or of a certificate. -/
def IsCredential (minor : Bytes) : Prop :=
  tokenIndexPrefix.isPrefixOf minor = true ∨ certPrefix.isPrefixOf minor = true

/-- What a record is to the purge of a principal. -/
inductive Found where
  | token
  | cert
  | group (update : Update)
  | policy (update : Update)
  | nothing

section

variable (codec : Codec) (principal : Bytes)

/-- The function that `purgePrincipal` hands to the scan. -/
def visit (minor value : Bytes) : Found :=
  if tokenIndexPrefix.isPrefixOf minor then
    match codec.tokenOf value with
    | none => .nothing
    | some record => if record.principal = principal then .token else .nothing
  else if certPrefix.isPrefixOf minor then
    match codec.cert.decode value with
    | none => .nothing
    | some record => if record.principal = principal then .cert else .nothing
  else if groupPrefix.isPrefixOf minor then
    match codec.decoder.group value with
    | none => .nothing
    | some group =>
      if group.members.contains principal then
        .group ⟨minor, value, codec.group { group with members := without group.members principal }⟩
      else .nothing
  else
    match policyScopeKey minor with
    | none => .nothing
    | some _ =>
      match codec.decoder.policy value with
      | none => .nothing
      | some policy =>
        if policyHasMember policy principal then
          .policy ⟨minor, value, codec.policy.encode (purgedPolicy principal policy)⟩
        else .nothing

def Found.isToken : Found → Bool
  | .token => true
  | _ => false

def Found.isCert : Found → Bool
  | .cert => true
  | _ => false

def Found.group? : Found → Option Update
  | .group update => some update
  | _ => none

def Found.policy? : Found → Option Update
  | .policy update => some update
  | _ => none

/-- The minors of the records that are found to be of a kind. -/
def minorsOf (kind : Found → Bool) (records : List (Bytes × Bytes)) : List Bytes :=
  (records.filter fun record => kind (visit codec principal record.1 record.2)).map Prod.fst

/-- The entries of a map, in the order in which it is ranged over. A later entry of a key replaces
an earlier one. -/
def ranged (order : MapOrder) (round : Nat) (updates : List Update) : List Update :=
  (order.keysOf round (updates.map Update.minor).dedup).filterMap fun minor =>
    updates.reverse.find? fun update => update.minor = minor

/-- The tokens and certificates that a purge removes. -/
def removalsOf (records : List (Bytes × Bytes)) : List Bytes :=
  minorsOf codec principal Found.isToken records ++ minorsOf codec principal Found.isCert records

/-- The groups and policies that a purge writes back. -/
def updatesOf (order : MapOrder) (records : List (Bytes × Bytes)) : List Update :=
  ranged order 0 (records.filterMap fun record =>
      (visit codec principal record.1 record.2).group?) ++
    ranged order 1 (records.filterMap fun record =>
      (visit codec principal record.1 record.2).policy?)

end

/-- The records of the identity region that have a value, by minor key. `none` is an index
panic. -/
def scanIAM (deps : Deps) (env : Env) (store : Store) :
    Option (Except Err (List (Bytes × Bytes))) :=
  match Storage.getArea deps env store { key := some PolicyService.identityArea }
      .regionNameField with
  | .error err => some (.error err)
  | .ok sent =>
    if sent.panicked then none
    else some (.ok (sent.blocks.flatten.filterMap fun record =>
      match record.key with
      | none => none
      | some key => if record.value = [] then none else some (key.minorKey, record.value)))

/-! ### Steps -/

/-- A name with a slash or a space in it is refused. -/
def containsSeparator (name : Bytes) : Bool := name.any fun byte => byte = 47 || byte = 32

section

variable (deps : Deps) (codec : Codec) (input : Input) (store : Store)

def iamCreateUser (username password : Bytes) : Stage :=
  if username = [] ∨ containsSeparator username = true ∨ password.length < 8 then
    .answered (.error 400 (.text ("username (no spaces or '/') and a password of at least 8 " ++
      "characters are required")))
  else
    match input.hash with
    | .error _ => .answered (.error 500 (.text "hash password"))
    | .ok hash =>
      match codec.user username hash input.clock with
      | .error _ => .answered (.error 500 (.text "encode record"))
      | .ok raw => .creatingUser raw

def iamCreateServiceAccount (name : Bytes) : Stage :=
  if name = [] ∨ containsSeparator name = true then
    .answered (.error 400 (.text "name is required and must not contain '/' or spaces"))
  else
    match input.drawn with
    | .error err => .answered (.error 500 err)
    | .ok (token, hash) =>
      match codec.serviceAccount name hash input.clock with
      | .error _ => .answered (.error 500 (.text "encode record"))
      | .ok raw => .creatingAccount token hash raw

/-- `writeTokenIndex` up to its write, for a new service account. -/
def writeTokenIndex (name token hash : Bytes) : Stage :=
  match codec.token ⟨principalServiceAccount name, 0, [], 0⟩ with
  | .error _ => .answered (.error 500 (.text "write token index"))
  | .ok raw => .storing (tokenIndexKey hash) raw (.account name token)

def defaultPATDays : Int64 := 90

def iamCreateUserToken (user label : Bytes) (ttlDays : Int64) : Stage :=
  if principalExists deps store input.access.env (principalUser user) = false then
    .answered (.error 404 (.text "user not found"))
  else
    match input.drawn with
    | .error err => .answered (.error 500 err)
    | .ok (token, hash) =>
      let record : TokenRecord :=
        ⟨principalUser user, input.addDays (if ttlDays ≤ 0 then defaultPATDays else ttlDays),
          trimSpace label, input.clock⟩
      match codec.token record with
      | .error _ => .answered (.error 500 (.text "encode token"))
      | .ok raw =>
        .storing (tokenIndexKey hash) raw (.token hash token record.label record.expiresAt)

/-- `putCertIndex` up to its write. -/
def putCertIndex (identity principal : Bytes) (issued : Bool) (answer : Answer) : Stage :=
  match codec.cert.encode ⟨principal, issued, input.clock⟩ with
  | .error err => .answered (.error 500 err)
  | .ok raw => .storing (certPrefix ++ identity) raw answer

def iamRegisterCert (principal identity : Bytes) : Stage :=
  let identity := trimSpace identity
  if identity = [] ∨ principalExists deps store input.access.env principal = false then
    .answered (.error 400 (.text "identity and an existing principal are required"))
  else putCertIndex codec input identity principal false (.registered identity principal)

def iamIssueCert (principal : Bytes) : Stage :=
  if principalExists deps store input.access.env principal = false then
    .answered (.error 400 (.text "an existing principal is required"))
  else
    match input.authority, input.leafKey with
    | .error err, _ => .answered (.error 500 (.wrap "certificate authority" err))
    | .ok _, .error err => .answered (.error 500 err)
    | .ok _, .ok _ =>
      let uri := certURIForPrincipal principal
      match sign input.encoding
          { commonName := ((parsePrincipal principal).map Prod.snd).getD [], uris := [uri],
            client := true } with
      | .error err => .answered (.error 500 (.wrap "sign certificate" err))
      | .ok certificate =>
        putCertIndex codec input uri principal true (.issued uri certificate)

/-- `iamChangeBinding` up to its write. -/
def iamChangeBinding (request : BindingRequest) (grant : Bool) : Stage :=
  match Console.bindingRefused request with
  | some text => .answered (.error 400 (.text text))
  | none =>
    match Console.grantRead deps codec.decoder codec.policy input.order input.access.env store
        request.members request.role request.tenant request.region grant with
    | .error err => .answered (.error 500 err)
    | .ok (record, raw) => .binding (bindingMinor request.tenant request.region) (content record)
        raw (.bound (bindingScopeLabelOf request.tenant request.region) request.role)

/-- The command `binding-add` up to its write. -/
def bindingAdd (request : BindingRequest) : Stage :=
  match Cli.bindingRead deps codec.decoder codec.policy input.access.env store request with
  | .error err => .answered (.error 1 err)
  | .ok (record, raw) =>
    .binding (bindingMinor request.tenant request.region) (content record) raw .added

/-- The first step of each request. -/
def begin : Request → Stage
  | .createUser username password => iamCreateUser codec input username password
  | .deleteUser name =>
    if name = [] then .answered (.error 400 (.text "user name required")) else .removing
  | .createServiceAccount name => iamCreateServiceAccount codec input name
  | .deleteServiceAccount name =>
    if name = [] then .answered (.error 400 (.text "service account name required"))
    else .removing
  | .createUserToken user label ttlDays =>
    iamCreateUserToken deps codec input store user label ttlDays
  | .registerCert principal identity => iamRegisterCert deps codec input store principal identity
  | .issueCert principal => iamIssueCert deps codec input store principal
  | .changeBinding request grant => iamChangeBinding deps codec input store request grant
  | .bindingAdd request => bindingAdd deps codec input store request

/-- `purgePrincipal` up to its first write. -/
def purgePrincipal (principal : Bytes) : Stage :=
  match scanIAM deps input.access.env store with
  | none => .gone
  | some (.error err) => .answered (.error 500 (.wrap "revoke credentials" err))
  | some (.ok records) =>
    .purging (removalsOf codec principal records) (updatesOf codec principal input.order records)

end

/-- What a request does next with the store it looks at. -/
def look (deps : Deps) (codec : Codec) (input : Input) (store : Store) (phase : Phase) : Phase :=
  { phase with
    stage :=
      match phase.stage with
      | .start => begin deps codec input store phase.request
      | .scanning =>
        match phase.request.deletes with
        | none => .scanning
        | some (principal, _) => purgePrincipal deps codec input store principal
      | .purging [] [] => .answered (.deleted phase.request.name)
      | .purging [] (⟨_, _, .error err⟩ :: _) =>
        .answered (.error 500 (.wrap "revoke credentials" err))
      | stage => stage }

/-- The write that a request asks for. -/
def write (phase : Phase) : Option KeyWrite :=
  match phase.stage with
  | .creatingUser raw =>
    match phase.request with
    | .createUser username _ => some (.put (key (userPrefix ++ username)) raw (some 0))
    | _ => none
  | .creatingAccount _ _ raw =>
    match phase.request with
    | .createServiceAccount name => some (.put (key (serviceAccountPrefix ++ name)) raw (some 0))
    | _ => none
  | .removing => phase.request.deletes.map fun target => .remove (key target.2)
  | .purging (minor :: _) _ => some (.remove (key minor))
  | .purging [] (⟨minor, _, .ok raw⟩ :: _) => some (.put (key minor) raw none)
  | .storing minor raw _ => some (.put (key minor) raw none)
  | .binding minor _ raw _ => some (.put (key minor) raw none)
  | _ => none

/-- How a request goes on with the status of its write. -/
def resume (codec : Codec) (phase : Phase) (reply : Except Err Status) : Phase :=
  { phase with
    stage :=
      match phase.stage, reply with
      | .creatingUser _, .error err => .answered (.error 500 err)
      | .creatingUser _, .ok ⟨false⟩ => .answered (.error 409 (.text "user already exists"))
      | .creatingUser _, .ok ⟨true⟩ =>
        match phase.request with
        | .createUser username _ => .answered (.created username)
        | _ => phase.stage
      | .creatingAccount _ _ _, .error err => .answered (.error 500 err)
      | .creatingAccount _ _ _, .ok ⟨false⟩ =>
        .answered (.error 409 (.text "service account already exists"))
      | .creatingAccount token hash _, .ok ⟨true⟩ =>
        match phase.request with
        | .createServiceAccount name => writeTokenIndex codec name token hash
        | _ => phase.stage
      | .removing, .error err => .answered (.error 500 err)
      | .removing, .ok _ => .scanning
      | .purging _ _, .error err => .answered (.error 500 (.wrap "revoke credentials" err))
      | .purging (_ :: rest) updates, .ok _ => .purging rest updates
      | .purging [] (_ :: rest), .ok _ => .purging [] rest
      | .storing _ _ _, .error err =>
        match phase.request with
        | .createServiceAccount _ => .answered (.error 500 (.text "write token index"))
        | _ => .answered (.error 500 err)
      | .storing _ _ answer, .ok _ => .answered answer
      | .binding _ _ _ _, .error err =>
        match phase.request with
        | .bindingAdd _ => .answered (.error 1 err)
        | _ => .answered (.error 500 err)
      | .binding _ _ _ answer, .ok _ => .answered answer
      | stage, _ => stage }

/-- A crash of its node ends a request that has not answered. -/
def stopped (phase : Phase) : Phase :=
  { phase with
    stage :=
      match phase.stage with
      | .answered answer => .answered answer
      | _ => .gone }

/-- The requests of all nodes. -/
def handler (deps : Deps) (codec : Codec) : Handler Request Phase Input where
  first request := ⟨request, .start⟩
  access := Input.access
  look := look deps codec
  write := write
  resume := resume codec
  stop := stopped

/-! ### What a step can do -/

/-- What a request can be left with by its first step. -/
inductive Begins (deps : Deps) (codec : Codec) (input : Input) (store : Store) :
    Request → Stage → Prop where
  | refused (request : Request) (status : Nat) (err : Err) :
    Begins deps codec input store request (.answered (.error status err))
  | user {username password hash raw : Bytes}
    (encoded : codec.user username hash input.clock = .ok raw) :
    Begins deps codec input store (.createUser username password) (.creatingUser raw)
  | account {name token hash raw : Bytes}
    (encoded : codec.serviceAccount name hash input.clock = .ok raw) :
    Begins deps codec input store (.createServiceAccount name) (.creatingAccount token hash raw)
  | deletion {request : Request} {target : Bytes × Bytes}
    (deletes : request.deletes = some target) : Begins deps codec input store request .removing
  | token {user label : Bytes} {ttlDays : Int64} {record : TokenRecord} {hash raw : Bytes}
    {answer : Answer} (encoded : codec.token record = .ok raw) :
    Begins deps codec input store (.createUserToken user label ttlDays)
      (.storing (tokenIndexKey hash) raw answer)
  | registration {principal text identity raw : Bytes} {record : CertIndexRecord} {answer : Answer}
    (encoded : codec.cert.encode record = .ok raw) :
    Begins deps codec input store (.registerCert principal text)
      (.storing (certPrefix ++ identity) raw answer)
  | issue {principal identity raw : Bytes} {record : CertIndexRecord} {answer : Answer}
    (encoded : codec.cert.encode record = .ok raw) :
    Begins deps codec input store (.issueCert principal)
      (.storing (certPrefix ++ identity) raw answer)
  | change {request : BindingRequest} {grant : Bool} {record : Record} {raw : Bytes}
    {answer : Answer}
    (got : Storage.get deps input.access.env store
      { key := some (key (bindingMinor request.tenant request.region)) } = .ok record)
    (encoded : codec.policy.encode ⟨applyBinding input.order
      (policyOf codec.decoder codec.policy record).bindings request.role request.members grant⟩ =
        .ok raw) :
    Begins deps codec input store (.changeBinding request grant)
      (.binding (bindingMinor request.tenant request.region) (content record) raw answer)
  | add {request : BindingRequest} {record : Record} {policy : PolicyRecord} {raw : Bytes}
    (got : Storage.get deps input.access.env store
      { key := some (key (bindingMinor request.tenant request.region)) } = .ok record)
    (stored : Cli.storedPolicy codec.decoder codec.policy (content record) = .ok policy)
    (encoded : codec.policy.encode
      ⟨Cli.mergeBinding request.role request.members policy.bindings⟩ = .ok raw) :
    Begins deps codec input store (.bindingAdd request)
      (.binding (bindingMinor request.tenant request.region) (content record) raw .added)

section

variable (deps : Deps) (codec : Codec) (input : Input) (store : Store)

theorem iamCreateUser_begins (username password : Bytes) :
    Begins deps codec input store (.createUser username password)
      (iamCreateUser codec input username password) := by
  unfold iamCreateUser
  split
  · exact .refused _ _ _
  · split
    · exact .refused _ _ _
    · split
      · exact .refused _ _ _
      · rename_i encoded
        exact .user encoded

theorem iamCreateServiceAccount_begins (name : Bytes) :
    Begins deps codec input store (.createServiceAccount name)
      (iamCreateServiceAccount codec input name) := by
  unfold iamCreateServiceAccount
  split
  · exact .refused _ _ _
  · split
    · exact .refused _ _ _
    · split
      · exact .refused _ _ _
      · rename_i encoded
        exact .account encoded

theorem iamCreateUserToken_begins (user label : Bytes) (ttlDays : Int64) :
    Begins deps codec input store (.createUserToken user label ttlDays)
      (iamCreateUserToken deps codec input store user label ttlDays) := by
  unfold iamCreateUserToken
  split
  · exact .refused _ _ _
  · split
    · exact .refused _ _ _
    · simp only
      split
      · exact .refused _ _ _
      · rename_i encoded
        exact .token encoded

theorem putCertIndex_cases (identity principal : Bytes) (issued : Bool) (answer : Answer) :
    (∃ err, putCertIndex codec input identity principal issued answer =
        .answered (.error 500 err)) ∨
      ∃ record raw, codec.cert.encode record = .ok raw ∧
        putCertIndex codec input identity principal issued answer =
          .storing (certPrefix ++ identity) raw answer := by
  unfold putCertIndex
  cases encoded : codec.cert.encode ⟨principal, issued, input.clock⟩ with
  | error err => exact Or.inl ⟨err, rfl⟩
  | ok raw => exact Or.inr ⟨_, raw, encoded, rfl⟩

theorem iamRegisterCert_begins (principal identity : Bytes) :
    Begins deps codec input store (.registerCert principal identity)
      (iamRegisterCert deps codec input store principal identity) := by
  unfold iamRegisterCert
  simp only
  split
  · exact .refused _ _ _
  · rcases putCertIndex_cases codec input (trimSpace identity) principal false
      (.registered (trimSpace identity) principal) with ⟨err, failed⟩ | ⟨_, _, encoded, stores⟩
    · rw [failed]
      exact .refused _ _ _
    · rw [stores]
      exact .registration encoded

theorem iamIssueCert_begins (principal : Bytes) :
    Begins deps codec input store (.issueCert principal)
      (iamIssueCert deps codec input store principal) := by
  unfold iamIssueCert
  split
  · exact .refused _ _ _
  · split
    · exact .refused _ _ _
    · exact .refused _ _ _
    · simp only
      split
      · exact .refused _ _ _
      · rename_i certificate _
        rcases putCertIndex_cases codec input (certURIForPrincipal principal) principal true
          (.issued (certURIForPrincipal principal) certificate) with
          ⟨err, failed⟩ | ⟨_, _, encoded, stores⟩
        · rw [failed]
          exact .refused _ _ _
        · rw [stores]
          exact .issue encoded

theorem iamChangeBinding_begins (request : BindingRequest) (grant : Bool) :
    Begins deps codec input store (.changeBinding request grant)
      (iamChangeBinding deps codec input store request grant) := by
  unfold iamChangeBinding
  split
  · exact .refused _ _ _
  · split
    · exact .refused _ _ _
    · rename_i granted
      unfold Console.grantRead at granted
      split at granted
      · cases granted
      · rename_i got
        simp only at granted
        split at granted
        · cases granted
        · rename_i encoded
          cases granted
          exact .change got encoded

theorem bindingAdd_begins (request : BindingRequest) :
    Begins deps codec input store (.bindingAdd request)
      (bindingAdd deps codec input store request) := by
  unfold bindingAdd
  split
  · exact .refused _ _ _
  · rename_i added
    unfold Cli.bindingRead at added
    split at added
    · cases added
    · split at added
      · cases added
      · split at added
        · cases added
        · rename_i got
          split at added
          · cases added
          · rename_i stored
            split at added
            · cases added
            · rename_i encoded
              cases added
              exact .add got stored encoded

theorem begins (request : Request) :
    Begins deps codec input store request (begin deps codec input store request) := by
  cases request with
  | createUser username password => exact iamCreateUser_begins deps codec input store _ _
  | deleteUser name =>
    simp only [begin]
    split
    · exact .refused _ _ _
    · exact .deletion rfl
  | createServiceAccount name => exact iamCreateServiceAccount_begins deps codec input store _
  | deleteServiceAccount name =>
    simp only [begin]
    split
    · exact .refused _ _ _
    · exact .deletion rfl
  | createUserToken user label ttlDays =>
    exact iamCreateUserToken_begins deps codec input store _ _ _
  | registerCert principal identity => exact iamRegisterCert_begins deps codec input store _ _
  | issueCert principal => exact iamIssueCert_begins deps codec input store _
  | changeBinding request grant => exact iamChangeBinding_begins deps codec input store _ _
  | bindingAdd request => exact bindingAdd_begins deps codec input store _

end

/-- The writes that a request asks for in its phases. -/
inductive Asks : Phase → KeyWrite → Prop where
  | user (username password raw : Bytes) :
    Asks ⟨.createUser username password, .creatingUser raw⟩
      (.put (key (userPrefix ++ username)) raw (some 0))
  | account (name token hash raw : Bytes) :
    Asks ⟨.createServiceAccount name, .creatingAccount token hash raw⟩
      (.put (key (serviceAccountPrefix ++ name)) raw (some 0))
  | record (request : Request) (principal target : Bytes)
    (deletes : request.deletes = some (principal, target)) :
    Asks ⟨request, .removing⟩ (.remove (key target))
  | removal (request : Request) (removal : Bytes) (rest : List Bytes) (updates : List Update) :
    Asks ⟨request, .purging (removal :: rest) updates⟩ (.remove (key removal))
  | update (request : Request) (target read raw : Bytes) (rest : List Update) :
    Asks ⟨request, .purging [] (⟨target, read, .ok raw⟩ :: rest)⟩ (.put (key target) raw none)
  | credential (request : Request) (target raw : Bytes) (answer : Answer) :
    Asks ⟨request, .storing target raw answer⟩ (.put (key target) raw none)
  | binding (request : Request) (target : Bytes) (read : Option Bytes) (raw : Bytes)
    (answer : Answer) :
    Asks ⟨request, .binding target read raw answer⟩ (.put (key target) raw none)

theorem asks_of_write {phase : Phase} {asked : KeyWrite} (asks : write phase = some asked) :
    Asks phase asked := by
  obtain ⟨request, stage⟩ := phase
  cases stage with
  | creatingUser raw =>
    cases request with
    | createUser username password =>
      obtain rfl := Option.some.inj asks
      exact .user username password raw
    | _ => cases asks
  | creatingAccount token hash raw =>
    cases request with
    | createServiceAccount name =>
      obtain rfl := Option.some.inj asks
      exact .account name token hash raw
    | _ => cases asks
  | removing =>
    obtain ⟨⟨principal, target⟩, deletes, rfl⟩ := Option.map_eq_some_iff.mp asks
    exact .record request principal target deletes
  | purging removals updates =>
    rcases removals with _ | ⟨removal, rest⟩
    · rcases updates with _ | ⟨⟨target, read, err | raw⟩, rest⟩
      · cases asks
      · cases asks
      · obtain rfl := Option.some.inj asks
        exact .update request target read raw rest
    · obtain rfl := Option.some.inj asks
      exact .removal request removal rest updates
  | storing target raw answer =>
    obtain rfl := Option.some.inj asks
    exact .credential request target raw answer
  | binding target read raw answer =>
    obtain rfl := Option.some.inj asks
    exact .binding request target read raw answer
  | _ => cases asks

/-! ### What a purge removes and writes back -/

section

variable {codec : Codec} {principal minor value : Bytes} {update : Update}

theorem credential_of_owner
    (owned : owner codec minor value = some principal) : IsCredential minor := by
  unfold owner at owned
  split at owned
  · rename_i isToken
    exact Or.inl isToken
  · split at owned
    · rename_i isCert
      exact Or.inr isCert
    · cases owned

/-- What a purge removes are the records that name the principal. -/
theorem visit_owner :
    (visit codec principal minor value).isToken = true ∨
        (visit codec principal minor value).isCert = true ↔
      owner codec minor value = some principal := by
  unfold visit owner
  split
  · cases codec.tokenOf value with
    | none => simp [Found.isToken, Found.isCert]
    | some record =>
      by_cases same : record.principal = principal
      · simp [same, Found.isToken]
      · simp [same, Found.isToken, Found.isCert]
  · split
    · cases codec.cert.decode value with
      | none => simp [Found.isToken, Found.isCert]
      | some record =>
        by_cases same : record.principal = principal
        · simp [same, Found.isCert]
        · simp [same, Found.isToken, Found.isCert]
    · refine iff_of_false ?_ (Option.some_ne_none _).symm
      rintro (isToken | isCert)
      · repeat' split at isToken
        all_goals cases isToken
      · repeat' split at isCert
        all_goals cases isCert

theorem mem_removalsOf {records : List (Bytes × Bytes)} :
    minor ∈ removalsOf codec principal records ↔
      ∃ value, (minor, value) ∈ records ∧ owner codec minor value = some principal := by
  simp only [removalsOf, minorsOf, List.mem_append, List.mem_map, List.mem_filter, Prod.exists,
    exists_and_right, exists_eq_right, ← visit_owner]
  constructor
  · rintro (⟨value, member, isToken⟩ | ⟨value, member, isCert⟩)
    · exact ⟨value, member, Or.inl isToken⟩
    · exact ⟨value, member, Or.inr isCert⟩
  · rintro ⟨value, member, isToken | isCert⟩
    · exact Or.inl ⟨value, member, isToken⟩
    · exact Or.inr ⟨value, member, isCert⟩

theorem visit_group (visited : visit codec principal minor value = .group update) :
    groupPrefix.isPrefixOf minor = true ∧
      ∃ group, update = ⟨minor, value, codec.group group⟩ := by
  unfold visit at visited
  split at visited
  · split at visited
    · cases visited
    · split at visited <;> cases visited
  · split at visited
    · split at visited
      · cases visited
      · split at visited <;> cases visited
    · split at visited
      · rename_i isGroup
        split at visited
        · cases visited
        · split at visited
          · cases visited
            exact ⟨isGroup, _, rfl⟩
          · cases visited
      · split at visited
        · cases visited
        · split at visited
          · cases visited
          · split at visited <;> cases visited

theorem visit_policy (visited : visit codec principal minor value = .policy update) :
    policyScopeKey minor ≠ none ∧ ∃ policy, codec.decoder.policy value = some policy ∧
      update = ⟨minor, value, codec.policy.encode (purgedPolicy principal policy)⟩ := by
  unfold visit at visited
  split at visited
  · split at visited
    · cases visited
    · split at visited <;> cases visited
  · split at visited
    · split at visited
      · cases visited
      · split at visited <;> cases visited
    · split at visited
      · split at visited
        · cases visited
        · split at visited <;> cases visited
      · split at visited
        · cases visited
        · rename_i scope isPolicy
          split at visited
          · cases visited
          · rename_i policy decoded
            split at visited
            · cases visited
              exact ⟨isPolicy ▸ Option.some_ne_none _, policy, decoded, rfl⟩
            · cases visited

/-- Ranging over a map yields the last entry of each key, once. -/
theorem mem_ranged {order : MapOrder} {round : Nat} {updates : List Update} :
    update ∈ ranged order round updates ↔
      updates.reverse.find? (fun each => each.minor = update.minor) = some update := by
  unfold ranged
  rw [List.mem_filterMap]
  constructor
  · rintro ⟨minor, _, found⟩
    have same := List.find?_some found
    rw [decide_eq_true_iff] at same
    rw [same]
    exact found
  · intro found
    refine ⟨update.minor, ?_, found⟩
    rw [(order.perm round _).mem_iff, List.mem_dedup]
    exact List.mem_map_of_mem (List.mem_reverse.mp (List.mem_of_find?_eq_some found))

theorem ranged_pairwise (order : MapOrder) (round : Nat) (updates : List Update) :
    (ranged order round updates).Pairwise fun first second => first.minor ≠ second.minor := by
  have distinct : (order.keysOf round (updates.map Update.minor).dedup).Nodup :=
    (order.perm round _).nodup_iff.mpr (List.nodup_dedup _)
  refine List.Pairwise.filterMap _ ?_ distinct
  intro first second different firstUpdate isFirst secondUpdate isSecond same
  have firstMinor := List.find?_some isFirst
  have secondMinor := List.find?_some isSecond
  rw [decide_eq_true_iff] at firstMinor secondMinor
  exact different (firstMinor.symm.trans (same.trans secondMinor))

theorem group?_eq_some {found : Found} (isGroup : found.group? = some update) :
    found = .group update := by
  cases found with
  | group each => exact congrArg Found.group (Option.some.inj isGroup)
  | _ => cases isGroup

theorem policy?_eq_some {found : Found} (isPolicy : found.policy? = some update) :
    found = .policy update := by
  cases found with
  | policy each => exact congrArg Found.policy (Option.some.inj isPolicy)
  | _ => cases isPolicy

/-- What is ranged over was picked from the records. -/
theorem visit_of_mem_ranged {pick : Found → Option Update} {order : MapOrder} {round : Nat}
    {records : List (Bytes × Bytes)}
    (member : update ∈ ranged order round (records.filterMap fun record =>
      pick (visit codec principal record.1 record.2))) :
    ∃ record ∈ records, pick (visit codec principal record.1 record.2) = some update :=
  List.mem_filterMap.mp
    (List.mem_reverse.mp (List.mem_of_find?_eq_some (mem_ranged.mp member)))

/-- What a purge writes back are groups and policies that were found. -/
theorem visit_of_mem_updatesOf {order : MapOrder} {records : List (Bytes × Bytes)}
    (member : update ∈ updatesOf codec principal order records) :
    (update.minor, update.read) ∈ records ∧
      (visit codec principal update.minor update.read = .group update ∨
        visit codec principal update.minor update.read = .policy update) := by
  unfold updatesOf at member
  rcases List.mem_append.mp member with isGroup | isPolicy
  · obtain ⟨record, isRecord, found⟩ := visit_of_mem_ranged isGroup
    have visited := group?_eq_some found
    obtain ⟨_, group, rfl⟩ := visit_group visited
    exact ⟨isRecord, Or.inl visited⟩
  · obtain ⟨record, isRecord, found⟩ := visit_of_mem_ranged isPolicy
    have visited := policy?_eq_some found
    obtain ⟨_, policy, _, rfl⟩ := visit_policy visited
    exact ⟨isRecord, Or.inr visited⟩

/-- Ranging over a map comes to every key. -/
theorem exists_mem_ranged (order : MapOrder) (round : Nat) {updates : List Update}
    (listed : update ∈ updates) :
    ∃ each ∈ ranged order round updates, each.minor = update.minor := by
  cases found : updates.reverse.find? (fun each => each.minor = update.minor) with
  | none =>
    exact absurd (decide_eq_true rfl)
      (List.find?_eq_none.mp found update (List.mem_reverse.mpr listed))
  | some each =>
    have same := List.find?_some found
    rw [decide_eq_true_iff] at same
    refine ⟨each, mem_ranged.mpr ?_, same⟩
    rw [same]
    exact found

/-- A group that was found is written back. -/
theorem mem_updatesOf_of_group {order : MapOrder} {records : List (Bytes × Bytes)}
    (isRecord : (minor, value) ∈ records)
    (visited : visit codec principal minor value = .group update) :
    ∃ each ∈ updatesOf codec principal order records, each.minor = minor := by
  obtain ⟨_, group, rfl⟩ := visit_group visited
  have listed : _ ∈ records.filterMap fun record =>
      (visit codec principal record.1 record.2).group? :=
    List.mem_filterMap.mpr ⟨(minor, value), isRecord, congrArg Found.group? visited⟩
  obtain ⟨each, isEach, same⟩ := exists_mem_ranged order 0 listed
  exact ⟨each, List.mem_append_left _ isEach, same⟩

/-- A policy that was found is written back. -/
theorem mem_updatesOf_of_policy {order : MapOrder} {records : List (Bytes × Bytes)}
    (isRecord : (minor, value) ∈ records)
    (visited : visit codec principal minor value = .policy update) :
    ∃ each ∈ updatesOf codec principal order records, each.minor = minor := by
  obtain ⟨_, policy, _, rfl⟩ := visit_policy visited
  have listed : _ ∈ records.filterMap fun record =>
      (visit codec principal record.1 record.2).policy? :=
    List.mem_filterMap.mpr ⟨(minor, value), isRecord, congrArg Found.policy? visited⟩
  obtain ⟨each, isEach, same⟩ := exists_mem_ranged order 1 listed
  exact ⟨each, List.mem_append_right _ isEach, same⟩

/-- A purge writes back each record once. -/
theorem updatesOf_pairwise (order : MapOrder) (records : List (Bytes × Bytes)) :
    (updatesOf codec principal order records).Pairwise
      fun first second => first.minor ≠ second.minor := by
  refine List.pairwise_append.mpr ⟨ranged_pairwise order 0 _, ranged_pairwise order 1 _, ?_⟩
  intro first isFirst second isSecond same
  obtain ⟨record, _, isGroup⟩ := visit_of_mem_ranged isFirst
  obtain ⟨other, _, isPolicy⟩ := visit_of_mem_ranged isSecond
  obtain ⟨begins, group, rfl⟩ := visit_group (group?_eq_some isGroup)
  obtain ⟨hasScope, policy, _, rfl⟩ := visit_policy (policy?_eq_some isPolicy)
  obtain ⟨scope, isScope⟩ := Option.ne_none_iff_exists'.mp hasScope
  have letters := head_of_isPrefixOf (show groupPrefix = 103 :: _ from rfl) begins
  rw [show record.1 = other.1 from same, head_of_policyScopeKey isScope] at letters
  exact absurd letters (by decide)

end

/-! ### Records of the identity region -/

/-- The record of a minor key. -/
def recordAt (deps : Deps) (store : Store) (minor : Bytes) : Option StoredRecord :=
  store.records deps (encodeKey deps (key minor)).1

section

variable (deps : Deps) (lawful : deps.Lawful) (store : Store)

theorem key_inj {first second : Bytes} (same : key first = key second) : first = second :=
  congrArg Key.minorKey same

include lawful in
/-- A write leaves its record, and every other one as it was; or it leaves the store. -/
theorem recordAt_perform (env : Env) (version : UInt64) (write : KeyWrite) :
    (write.perform deps env store version).2 = store ∧
        (write.perform deps env store version).1 ≠ .ok ⟨true⟩ ∨
      (write.perform deps env store version).1 = .ok ⟨true⟩ ∧ ∃ given, ∀ minor,
        recordAt deps (write.perform deps env store version).2 minor =
          if write.key = key minor then write.left given else recordAt deps store minor := by
  rcases KeyWrite.perform_cases deps lawful env store version write with
    failed | ⟨updated, _, _, stored⟩
  · exact Or.inl failed
  · refine Or.inr ⟨updated, nextVersion version
      ((store.records deps).versionAt (encodeKey deps write.key).1), fun minor => ?_⟩
    by_cases same : write.key = key minor
    · rw [if_pos same, recordAt, stored, ← same, Function.update_self]
    · rw [if_neg same]
      exact KeyWrite.records_perform_other deps lawful env store version write (key minor)
        (Ne.symm same)

/-- A write keeps keys readable. -/
theorem encoded_perform (env : Env) (version : UInt64) (write : KeyWrite)
    (encoded : store.Encoded deps) : (write.perform deps env store version).2.Encoded deps := by
  cases write with
  | put key value condition =>
    exact encoded_runCommand deps env store encoded version (.put
      { key := some key, value := value, compareAndSet := condition.isSome
        version := condition.getD 0 })
  | remove key =>
    exact encoded_runCommand deps env store encoded version (.remove { key := some key })

/-- The record is in the identity region, under whatever key. -/
def InRegion (key : Key) : Prop := key.majorKey = systemTenant ∧ key.regionName = region

instance (key : Key) : Decidable (InRegion key) :=
  inferInstanceAs (Decidable (key.majorKey = systemTenant ∧ key.regionName = region))

include lawful in
/-- Others leave the records of the region. -/
theorem recordAt_other (env : Env) (version : UInt64) (command : Command)
    (named : ¬ command.IsSweep) (outside : ∀ named ∈ command.keys, ¬ InRegion named)
    (minor : Bytes) :
    recordAt deps (runCommand deps env store version command).2 minor =
      recordAt deps store minor :=
  records_of_unnamed deps lawful env store version command named (key minor)
    fun member => outside (key minor) member ⟨rfl, rfl⟩

include lawful in
/-- What a scan finds in which no engine call fails: the records of the region that have a value
and have not expired. -/
theorem mem_scanIAM (encoded : store.Encoded deps) (env : Env)
    (calm : ∀ step, env.fault step = none) :
    ∃ records, scanIAM deps env store = some (.ok records) ∧ ∀ minor value,
      (minor, value) ∈ records ↔ value ≠ [] ∧ ∃ asked record, InRegion asked ∧
        asked.minorKey = minor ∧ store.records deps (encodeKey deps asked).1 = some record ∧
        deps.isExpired env.now record.expiresAt = false ∧ record.value = value := by
  obtain ⟨now, fault⟩ := env
  obtain rfl : fault = fun _ => none := funext calm
  obtain ⟨sent, scanned, panicked, flattened⟩ :=
    PolicyService.getArea_identity_healthy deps now store
  have whole : sent.panicked = false := by
    rw [panicked, List.any_eq_false]
    intro entry member missing
    obtain ⟨asked, _, _, decoded⟩ :=
      key_of_entry deps lawful store encoded (List.mem_of_mem_filter member)
    rw [decoded] at missing
    cases missing
  have watched : watchPrefix deps (some PolicyService.identityArea) =
      .ok (encodeField systemTenant ++ encodeField region) := rfl
  have live := mem_selectedRecords deps lawful now store encoded _ _ watched
  have scans : Storage.getArea deps ⟨now, fun _ => none⟩ store
      { key := some PolicyService.identityArea } .regionNameField = .ok sent := scanned
  refine ⟨_, by rw [scanIAM, scans]; simp only [whole, if_neg Bool.false_ne_true]; rfl,
    fun minor value => ?_⟩
  rw [flattened whole, List.mem_filterMap]
  constructor
  · rintro ⟨found, member, isRecord⟩
    obtain ⟨asked, item, present, under, alive, rfl⟩ := (live found).mp member
    change (if (deps.decodeEnvelope item.value).value = [] then none
      else some (asked.minorKey, (deps.decodeEnvelope item.value).value)) = _ at isRecord
    by_cases empty : (deps.decodeEnvelope item.value).value = []
    · rw [if_pos empty] at isRecord
      cases isRecord
    · rw [if_neg empty] at isRecord
      obtain ⟨rfl, rfl⟩ := Prod.mk.inj (Option.some.inj isRecord)
      refine ⟨empty, asked, storedRecord deps item, ?_, rfl, ?_, alive, rfl⟩
      · exact ⟨under.1 (Or.inl (by decide)), under.2.1 (Or.inl (by decide))⟩
      · rw [Store.records, present]
        rfl
  · rintro ⟨filled, asked, record, inRegion, rfl, isRecord, alive, rfl⟩
    cases present : store.db.read (encodeKey deps asked).1 with
    | none =>
      rw [Store.records, present] at isRecord
      cases isRecord
    | some item =>
      rw [Store.records, present] at isRecord
      obtain rfl := Option.some.inj isRecord
      refine ⟨_, (live _).mpr ⟨asked, item, present, ?_, alive, rfl⟩, ?_⟩
      · exact ⟨fun _ => inRegion.1, fun _ => inRegion.2, fun set => absurd rfl set⟩
      · exact if_neg filled

end

/-! ### Samples -/

/-- Records in the formats of `Lib/Format.lean`. -/
def sampleRecords : Codec where
  decoder := PolicyService.sampleDecoder
  policy := PolicyService.sampleCodec
  cert := Console.sampleCertCodec
  user name _ _ := .ok ((Format.bytes.pair (Format.bool.pair Format.bool)).put (name, false, false))
  serviceAccount name _ _ := .ok ((Format.bytes.pair Format.bool).put (name, false))
  token record := .ok ((Format.bytes.pair (Format.long.pair (Format.bytes.pair Format.long))).put
    (record.principal, record.expiresAt, record.label, record.createdAt))
  tokenOf value := ((Format.bytes.pair (Format.long.pair (Format.bytes.pair Format.long))).getAll
    value).map fun parts => ⟨parts.1, parts.2.1, parts.2.2.1, parts.2.2.2⟩
  group record := .ok ((Format.bytes.pair Format.bytes.list).put (record.name, record.members))

/-- A step on a healthy node that reads the current store. -/
def healthyInput (index : UInt64) : Input where
  access := .healthy 100 index
  clock := 100
  addDays days := 100 + days * 86400
  hash := .ok (str "hash")
  drawn := .ok (str "secret", str "digest")
  order := PolicyService.insertionOrder
  authority := .ok ()
  leafKey := .ok ()
  encoding := .ok ()

end Administration

end ConsensusDB
