/-
This file is the client certificates of `pkg/console/pki.go` and how a connection
is mapped onto a principal by one, `certificatePrincipal` of `pkg/server/auth.go`.
The console registers an identity, a text, for a principal. A certificate it issues
carries this text as a URI, and the name of the principal as its common name.

The text is registered as it is. The certificate carries it as it comes out of
reading and writing a URL, and so does the lookup, which falls back to the common
name in the same index. Where the two texts are the same the certificate stands for
its principal while it is registered; when it is revoked, it stands for whoever has
the bare name registered as an identity.
-/

import ConsensusDB.Lib.Format
import ConsensusDB.Lib.Replay
import ConsensusDB.Lib.Url
import ConsensusDB.Bindings
import ConsensusDB.Lookups

namespace ConsensusDB

open Wire Iam

namespace Iam

/-! ### Principals -/

def certPrefix : Bytes := str "cert/"

/-- The kind and the name of a principal, which is split at its first colon. -/
def parsePrincipal (principal : Bytes) : Option (Bytes × Bytes) :=
  if 58 ∈ principal then some (Url.cut 58 principal) else none

def principalStorageMinor (principal : Bytes) : Option Bytes :=
  match parsePrincipal principal with
  | none => none
  | some (kind, name) =>
    if name = [] then none
    else if kind = str "user" then some (userPrefix ++ name)
    else if kind = str "serviceAccount" then some (serviceAccountPrefix ++ name)
    else none

def certURIForPrincipal (principal : Bytes) : Bytes :=
  match parsePrincipal principal with
  | none => []
  | some (kind, name) => str "cdb://" ++ kind ++ str "/" ++ name

structure CertIndexRecord where
  principal : Bytes
  issued : Bool
  createdAt : Int64
  deriving DecidableEq, Repr

/-- `Encode` and `Decode` of the records of the index. -/
structure CertCodec where
  encode : CertIndexRecord → Except Err Bytes
  decode : Bytes → Option CertIndexRecord

def CertCodec.Lawful (codec : CertCodec) : Prop :=
  ∀ record raw, codec.encode record = .ok raw → raw ≠ [] ∧ codec.decode raw = some record

end Iam

/-! ### Signing -/

/-- A leaf certificate to issue. -/
structure CertRequest where
  commonName : Bytes
  uris : List Bytes := []
  dnsNames : List Bytes := []
  ips : List Bytes := []
  client : Bool := false
  server : Bool := false
  deriving DecidableEq, Repr

/-- What a certificate says. Its URIs are texts. -/
structure Certificate where
  commonName : Bytes
  uris : List Bytes
  dnsNames : List Bytes
  ips : List Bytes
  client : Bool
  server : Bool
  deriving DecidableEq, Repr

def isIA5String (text : Bytes) : Bool := text.all (· < 128)

/-- `Sign`. Whatever else can fail in it, random numbers and the encoding of the certificate, is
given. -/
def sign (encoding : Except Err Unit) (request : CertRequest) : Except Err Certificate :=
  match request.uris.mapM Url.parse with
  | none => .error (.text "iam: SAN URI")
  | some urls =>
    let texts := urls.map Url.Parsed.string
    if (texts ++ request.dnsNames).all isIA5String then
      match encoding with
      | .error err => .error (.wrap "iam: sign leaf" err)
      | .ok _ =>
        .ok ⟨request.commonName, texts, request.dnsNames, request.ips, request.client,
          request.server⟩
    else .error (.text "iam: sign leaf")

/-- The identities a peer takes from a certificate: its URIs, read and written again, and then its
common name. `none` is a certificate the peer cannot read. -/
def Certificate.identities (certificate : Certificate) : Option (List Bytes) :=
  (certificate.uris.mapM Url.reserialize).map fun uris =>
    uris ++ if certificate.commonName = [] then [] else [certificate.commonName]

/-! ### Looking up a principal -/

namespace AuthService

section

variable (deps : Deps) (codec : CertCodec) (env : Env) (store : Store)

/-- Reads and decodes a record of the identity region. -/
def load {Struct : Type} (decode : Bytes → Option Struct) (minor : Bytes) : Option Struct :=
  match Storage.get deps env store { key := some (key minor) } with
  | .error _ => none
  | .ok record => if record.value = [] then none else decode record.value

/-- The principal that an identity is registered for. -/
def registered (identity : Bytes) : Option Bytes :=
  match load deps env store codec.decode (certPrefix ++ identity) with
  | none => none
  | some index => if index.principal = [] then none else some index.principal

def certificatePrincipal (certificate : Certificate) : Option Bytes :=
  match certificate.identities with
  | none => none
  | some identities => identities.findSome? (registered deps codec env store)

end

end AuthService

namespace Console

/-! ### The handlers -/

/-- The runes that `strings.TrimSpace` takes away, in UTF-8. -/
def spaces : List Bytes :=
  [[9], [10], [11], [12], [13], [32], [0xC2, 0x85], [0xC2, 0xA0], [0xE1, 0x9A, 0x80],
    [0xE2, 0x80, 0x80], [0xE2, 0x80, 0x81], [0xE2, 0x80, 0x82], [0xE2, 0x80, 0x83],
    [0xE2, 0x80, 0x84], [0xE2, 0x80, 0x85], [0xE2, 0x80, 0x86], [0xE2, 0x80, 0x87],
    [0xE2, 0x80, 0x88], [0xE2, 0x80, 0x89], [0xE2, 0x80, 0x8A], [0xE2, 0x80, 0xA8],
    [0xE2, 0x80, 0xA9], [0xE2, 0x80, 0xAF], [0xE2, 0x81, 0x9F], [0xE3, 0x80, 0x80]]

/-- Takes runes away from the front, as many as the fuel allows. -/
def trimFront (runes : List Bytes) : Nat → Bytes → Bytes
  | 0, text => text
  | fuel + 1, text =>
    match runes.find? fun rune => rune.isPrefixOf text with
    | none => text
    | some rune => trimFront runes fuel (text.drop rune.length)

/-- `strings.TrimSpace`; a text has no more runes than bytes. -/
def trimSpace (text : Bytes) : Bytes :=
  let front := trimFront spaces text.length text
  (trimFront (spaces.map List.reverse) text.length front.reverse).reverse

/-- What a call of a handler finds: the engine at its read and at its write, the index of its entry
in the log, the clock, and how the authority, the new key and the signing come out. -/
structure CertInput where
  readEnv : Env
  writeEnv : Env
  index : UInt64
  clock : Int64
  authority : Except Err Unit := .ok ()
  leafKey : Except Err Unit := .ok ()
  encoding : Except Err Unit := .ok ()

inductive CertAnswer where
  | badRequest (text : String)
  | internalServerError (err : Err)
  | registered (identity principal : Bytes)
  | issued (identity : Bytes) (certificate : Certificate)
  | revoked (identity : Bytes)
  deriving DecidableEq, Repr

section

variable (deps : Deps) (codec : CertCodec) (input : CertInput) (store : Store)

def principalExists (env : Env) (principal : Bytes) : Bool :=
  match principalStorageMinor principal with
  | none => false
  | some minor =>
    match Storage.get deps env store { key := some (key minor) } with
    | .error _ => false
    | .ok record => record.value ≠ []

def putCertIndex (identity principal : Bytes) (issued : Bool) : Except Err Unit × Store :=
  match codec.encode ⟨principal, issued, input.clock⟩ with
  | .error err => (.error err, store)
  | .ok raw =>
    let written := Storage.put deps input.writeEnv store
      { key := some (key (certPrefix ++ identity)), value := raw } input.index
    (written.1.map fun _ => (), written.2)

def iamRegisterCert (principal identity : Bytes) : CertAnswer × Store :=
  let identity := trimSpace identity
  if identity = [] ∨ principalExists deps store input.readEnv principal = false then
    (.badRequest "identity and an existing principal are required", store)
  else
    match putCertIndex deps codec input store identity principal false with
    | (.error err, after) => (.internalServerError err, after)
    | (.ok _, after) => (.registered identity principal, after)

def iamIssueCert (principal : Bytes) : CertAnswer × Store :=
  if principalExists deps store input.readEnv principal = false then
    (.badRequest "an existing principal is required", store)
  else
    let name := ((parsePrincipal principal).map Prod.snd).getD []
    match input.authority, input.leafKey with
    | .error err, _ => (.internalServerError (.wrap "certificate authority" err), store)
    | .ok _, .error err => (.internalServerError err, store)
    | .ok _, .ok _ =>
      let uri := certURIForPrincipal principal
      match sign input.encoding { commonName := name, uris := [uri], client := true } with
      | .error err => (.internalServerError (.wrap "sign certificate" err), store)
      | .ok certificate =>
        match putCertIndex deps codec input store uri principal true with
        | (.error err, after) => (.internalServerError err, after)
        | (.ok _, after) => (.issued uri certificate, after)

def iamRevokeCert (identity : Bytes) : CertAnswer × Store :=
  if identity = [] then (.badRequest "identity required", store)
  else
    match Storage.remove deps input.writeEnv store { key := some (key (certPrefix ++ identity)) }
    with
    | (.error err, after) => (.internalServerError err, after)
    | (.ok _, after) => (.revoked identity, after)

end

/-- A call of one of the three handlers. -/
inductive CertCall where
  | register (input : CertInput) (principal identity : Bytes)
  | issue (input : CertInput) (principal : Bytes)
  | revoke (input : CertInput) (identity : Bytes)

/-- The identity that a call is about. -/
def CertCall.identity : CertCall → Bytes
  | .register _ _ identity => trimSpace identity
  | .issue _ principal => certURIForPrincipal principal
  | .revoke _ identity => identity

def CertCall.perform (deps : Deps) (codec : CertCodec) (store : Store) :
    CertCall → CertAnswer × Store
  | .register input principal identity =>
    iamRegisterCert deps codec input store principal identity
  | .issue input principal => iamIssueCert deps codec input store principal
  | .revoke input identity => iamRevokeCert deps input store identity

/-- The store after calls made one after another. -/
def runCerts (deps : Deps) (codec : CertCodec) (calls : List CertCall) (store : Store) : Store :=
  Replay.run (fun call store => (call.perform deps codec store).2) calls store

/-! ### What a call leaves -/

/-- The key of an identity in the index. -/
def certKey (identity : Bytes) : Key := key (certPrefix ++ identity)

theorem certKey_ne {first second : Bytes} (different : first ≠ second) :
    certKey first ≠ certKey second := by
  intro same
  exact different (List.append_cancel_left (congrArg Key.minorKey same))

section

variable (deps : Deps) (lawful : deps.Lawful) (codec : CertCodec) (now : Int64) (store : Store)

/-- What an identity is registered for depends on what its key shows. -/
theorem registered_eq (identity : Bytes) :
    AuthService.registered deps codec (.healthy now) store identity =
      ((store.shown deps now (certKey identity)).bind codec.decode).bind fun index =>
        if index.principal = [] then none else some index.principal := by
  obtain ⟨reply, isReply, ⟨empty, nothing⟩ | ⟨value, _, shown⟩⟩ :=
    get_shown deps now store (certKey identity)
  · unfold AuthService.registered AuthService.load
    rw [show key (certPrefix ++ identity) = certKey identity from rfl, isReply, nothing]
    simp only [if_pos empty]
    rfl
  · unfold AuthService.registered AuthService.load
    rw [show key (certPrefix ++ identity) = certKey identity from rfl, isReply, shown]
    simp only [if_neg value, Option.bind_some]
    cases codec.decode reply.value <;> rfl

theorem registered_congr {first second : Store} (identity : Bytes)
    (same : first.shown deps now (certKey identity) = second.shown deps now (certKey identity)) :
    AuthService.registered deps codec (.healthy now) first identity =
      AuthService.registered deps codec (.healthy now) second identity := by
  rw [registered_eq, registered_eq, same]

include lawful in
theorem putCertIndex_other (input : CertInput) (identity principal other : Bytes) (issued : Bool)
    (different : other ≠ identity) :
    (putCertIndex deps codec input store identity principal issued).2.shown deps now
      (certKey other) = store.shown deps now (certKey other) := by
  unfold putCertIndex
  split
  · rfl
  · exact shown_put_other deps now store lawful input.writeEnv input.index _ (certKey identity) rfl
      (certKey other) (certKey_ne different)

include lawful in
/-- A call leaves what other identities show. -/
theorem perform_other (call : CertCall) (other : Bytes) (different : other ≠ call.identity) :
    (call.perform deps codec store).2.shown deps now (certKey other) =
      store.shown deps now (certKey other) := by
  cases call with
  | register input principal identity =>
    have written := putCertIndex_other deps lawful codec now store input (trimSpace identity)
      principal other false different
    simp only [CertCall.perform, iamRegisterCert]
    split
    · rfl
    · split
      · rename_i put
        rw [put] at written
        exact written
      · rename_i put
        rw [put] at written
        exact written
  | issue input principal =>
    have written := putCertIndex_other deps lawful codec now store input
      (certURIForPrincipal principal) principal other true different
    simp only [CertCall.perform, iamIssueCert]
    split
    · rfl
    · split
      · rfl
      · rfl
      · split
        · rfl
        · split
          · rename_i put
            rw [put] at written
            exact written
          · rename_i put
            rw [put] at written
            exact written
  | revoke input identity =>
    have removed := shown_remove_other deps now store lawful input.writeEnv
      { key := some (certKey identity) } (certKey identity) rfl (certKey other)
      (certKey_ne different)
    simp only [CertCall.perform, iamRevokeCert]
    split
    · rfl
    · split
      · rename_i gone
        rw [certKey, gone] at removed
        exact removed
      · rename_i gone
        rw [certKey, gone] at removed
        exact removed

include lawful in
/-- So do calls made one after another. -/
theorem runCerts_other (calls : List CertCall) (other : Bytes)
    (different : ∀ call ∈ calls, call.identity ≠ other) :
    (runCerts deps codec calls store).shown deps now (certKey other) =
      store.shown deps now (certKey other) := by
  induction calls generalizing store with
  | nil => rfl
  | cons call rest inductionHypothesis =>
    have later := inductionHypothesis (call.perform deps codec store).2
      fun each member => different each (List.mem_cons_of_mem _ member)
    rw [← perform_other deps lawful codec now store call other
      (different call List.mem_cons_self).symm, ← later]
    rfl

/-! ### Certificates that were issued -/

theorem parse_of_exists (env : Env) (principal : Bytes)
    (present : principalExists deps store env principal = true) :
    ∃ kind name, parsePrincipal principal = some (kind, name) ∧ name ≠ [] := by
  unfold principalExists principalStorageMinor at present
  cases parsed : parsePrincipal principal with
  | none =>
    rw [parsed] at present
    cases present
  | some parts =>
    obtain ⟨kind, name⟩ := parts
    refine ⟨kind, name, rfl, fun empty => ?_⟩
    simp only [parsed, if_pos empty] at present
    cases present

theorem ne_nil_of_parse {principal kind name : Bytes}
    (parsed : parsePrincipal principal = some (kind, name)) : principal ≠ [] := by
  rintro rfl
  cases parsed

/-- A certificate is signed with the texts of its URIs. -/
theorem sign_ok (encoding : Except Err Unit) (request : CertRequest) (certificate : Certificate)
    (signed : sign encoding request = .ok certificate) :
    certificate.commonName = request.commonName ∧
      ∃ urls, request.uris.mapM Url.parse = some urls ∧
        certificate.uris = urls.map Url.Parsed.string := by
  unfold sign at signed
  split at signed
  · cases signed
  · rename_i urls parsed
    simp only at signed
    split at signed
    · split at signed
      · cases signed
      · cases signed
        exact ⟨rfl, urls, parsed, rfl⟩
    · cases signed

theorem sign_spec (encoding : Except Err Unit) (commonName uri : Bytes)
    (certificate : Certificate)
    (signed : sign encoding { commonName := commonName, uris := [uri], client := true } =
      .ok certificate) :
    certificate.commonName = commonName ∧
      ∃ text, Url.reserialize uri = some text ∧ certificate.uris = [text] := by
  obtain ⟨named, urls, parsed, texts⟩ := sign_ok encoding _ certificate signed
  refine ⟨named, ?_⟩
  rw [List.mapM_cons, List.mapM_nil] at parsed
  cases isUrl : Url.parse uri with
  | none =>
    rw [isUrl] at parsed
    cases parsed
  | some url =>
    rw [isUrl] at parsed
    obtain rfl := Option.some.inj parsed
    refine ⟨url.string, ?_, texts⟩
    rw [Url.reserialize, isUrl]
    rfl

include lawful in
/-- Registering shows the record of the index under the identity. -/
theorem putCertIndex_shows (codecLawful : codec.Lawful) (input : CertInput)
    (identity principal : Bytes) (issued : Bool) (after : Store)
    (written : putCertIndex deps codec input store identity principal issued = (.ok (), after)) :
    ∃ raw, codec.decode raw = some ⟨principal, issued, input.clock⟩ ∧
      ∀ now, after.shown deps now (certKey identity) = some raw := by
  unfold putCertIndex at written
  split at written
  · cases written
  · rename_i raw encoded
    obtain ⟨value, decoded⟩ := codecLawful _ raw encoded
    refine ⟨raw, decoded, fun now => ?_⟩
    have lasting : RecordRequest.Lasting { key := some (certKey identity), value := raw } :=
      ⟨value, rfl, rfl⟩
    rcases put_unconditional deps store lawful input.writeEnv input.index
      { key := some (certKey identity), value := raw } (certKey identity) rfl rfl with
      ⟨_, err, failed⟩ | wrote
    · simp only at written
      rw [certKey] at failed
      rw [failed] at written
      cases written
    · have shown := shown_put deps now store lawful input.writeEnv input.index _ (certKey identity)
        rfl lasting wrote
      rw [← (Prod.mk.inj written).2]
      exact shown

/-- What has been issued is for an existing principal, whose name is the common name, and its
identity is registered for it. -/
structure Issued (deps : Deps) (codec : CertCodec) (principal identity : Bytes)
    (certificate : Certificate) (after : Store) : Prop where
  identity_eq : identity = certURIForPrincipal principal
  parsed : ∃ kind, parsePrincipal principal = some (kind, certificate.commonName)
  named : certificate.commonName ≠ []
  uri : ∃ text, Url.reserialize identity = some text ∧ certificate.uris = [text]
  shown : ∃ raw index, codec.decode raw = some index ∧ index.principal = principal ∧
    ∀ now, after.shown deps now (certKey identity) = some raw

include lawful in
theorem issue_spec (codecLawful : codec.Lawful) (input : CertInput)
    (principal identity : Bytes) (certificate : Certificate) (after : Store)
    (issued : iamIssueCert deps codec input store principal =
      (.issued identity certificate, after)) :
    Issued deps codec principal identity certificate after := by
  unfold iamIssueCert at issued
  split at issued
  · cases issued
  rename_i present
  obtain ⟨kind, name, parsed, named⟩ :=
    parse_of_exists deps store input.readEnv principal (Bool.eq_true_of_not_eq_false present)
  simp only [parsed, Option.map_some, Option.getD_some] at issued
  split at issued
  · cases issued
  · cases issued
  · split at issued
    · cases issued
    · rename_i signed
      obtain ⟨isName, text, written, isText⟩ := sign_spec input.encoding name _ _ signed
      split at issued
      · cases issued
      · rename_i indexed
        cases issued
        obtain ⟨raw, decoded, shown⟩ :=
          putCertIndex_shows deps lawful codec store codecLawful input _ _ _ _ indexed
        exact ⟨rfl, ⟨kind, isName ▸ parsed⟩, isName ▸ named, ⟨text, written, isText⟩,
          raw, _, decoded, rfl, shown⟩

/-- The identities of a certificate with one URI. -/
theorem certificatePrincipal_eq (certificate : Certificate) (text : Bytes)
    (uri : certificate.uris = [text]) (named : certificate.commonName ≠ []) :
    AuthService.certificatePrincipal deps codec (.healthy now) store certificate =
      match Url.reserialize text with
      | none => none
      | some presented =>
        (AuthService.registered deps codec (.healthy now) store presented).or
          (AuthService.registered deps codec (.healthy now) store certificate.commonName) := by
  unfold AuthService.certificatePrincipal Certificate.identities
  rw [uri, List.mapM_cons, List.mapM_nil, if_neg named]
  cases Url.reserialize text with
  | none => rfl
  | some presented =>
    show ([presented, certificate.commonName].findSome?
      (AuthService.registered deps codec (.healthy now) store)) = _
    simp only [List.findSome?_cons, List.findSome?_nil]
    cases AuthService.registered deps codec (.healthy now) store presented with
    | none =>
      cases AuthService.registered deps codec (.healthy now) store certificate.commonName <;> rfl
    | some principal => rfl

/-- The peer reads the identity back from the certificate as it was returned. -/
def Unchanged (certificate : Certificate) (identity : Bytes) : Prop :=
  certificate.identities = some [identity, certificate.commonName]

theorem unchanged_iff (certificate : Certificate) (identity text : Bytes)
    (uri : certificate.uris = [text]) (named : certificate.commonName ≠ []) :
    Unchanged certificate identity ↔ Url.reserialize text = some identity := by
  unfold Unchanged Certificate.identities
  rw [uri, List.mapM_cons, List.mapM_nil, if_neg named]
  cases Url.reserialize text with
  | none => exact iff_of_false (Option.some_ne_none _).symm (Option.some_ne_none _).symm
  | some presented =>
    show some [presented, certificate.commonName] = some [identity, certificate.commonName] ↔ _
    simp

/-- An identity is longer than the name in it. -/
theorem identity_ne_name {principal kind name : Bytes}
    (parsed : parsePrincipal principal = some (kind, name)) :
    certURIForPrincipal principal ≠ name := by
  intro same
  have lengths := congrArg List.length same
  rw [certURIForPrincipal, parsed] at lengths
  simp only [List.length_append] at lengths
  have slash : (str "/").length = 1 := by decide
  omega

/-- An identity that is registered stays registered under calls about others. -/
theorem registered_issued (lawful : deps.Lawful) {principal identity : Bytes}
    {certificate : Certificate} (issued : Issued deps codec principal identity certificate store)
    (calls : List CertCall) (others : ∀ call ∈ calls, call.identity ≠ identity) :
    AuthService.registered deps codec (.healthy now) (runCerts deps codec calls store) identity =
      some principal := by
  obtain ⟨raw, index, decoded, isPrincipal, shown⟩ := issued.shown
  obtain ⟨kind, parsed⟩ := issued.parsed
  rw [registered_eq, runCerts_other deps lawful codec now store calls identity others, shown now,
    Option.bind_some, decoded, Option.bind_some, isPrincipal, if_neg (ne_nil_of_parse parsed)]

/-! ### Revocation -/

theorem revoke_snd (input : CertInput) (identity : Bytes) (named : identity ≠ []) :
    (iamRevokeCert deps input store identity).2 =
      (Storage.remove deps input.writeEnv store { key := some (certKey identity) }).2 := by
  unfold iamRevokeCert certKey
  rw [if_neg named]
  split
  · rename_i removed
    rw [removed]
  · rename_i removed
    rw [removed]

/-- An identity that was revoked is registered for nobody until a call is about it. -/
theorem registered_revoked (lawful : deps.Lawful) (input : CertInput) (identity : Bytes)
    (gone : Store) (revoked : iamRevokeCert deps input store identity = (.revoked identity, gone))
    (later : List CertCall) (others : ∀ call ∈ later, call.identity ≠ identity) :
    AuthService.registered deps codec (.healthy now) (runCerts deps codec later gone) identity =
      none := by
  rw [registered_eq, runCerts_other deps lawful codec now gone later identity others]
  unfold iamRevokeCert at revoked
  split at revoked
  · cases revoked
  · split at revoked
    · cases revoked
    · rename_i status after removed
      cases revoked
      have nothing := shown_remove deps now store input.writeEnv { key := some (certKey identity) }
        (certKey identity) rfl status (congrArg Prod.fst removed)
      rw [certKey, removed] at nothing
      rw [certKey, nothing]
      rfl

/-- A call in which nothing fails. -/
def healthyInput : CertInput where
  readEnv := .healthy 0
  writeEnv := .healthy 0
  index := 0
  clock := 0

theorem registered_revoke_healthy (valid : (store.records deps).Valid) (identity : Bytes)
    (named : identity ≠ []) :
    AuthService.registered deps codec (.healthy now)
      (iamRevokeCert deps healthyInput store identity).2 identity = none := by
  rw [registered_eq, revoke_snd deps store healthyInput identity named,
    show healthyInput.writeEnv = .healthy 0 from rfl,
    shown_remove_healthy deps now store valid _ (certKey identity) rfl 0]
  rfl

theorem valid_revoke (valid : (store.records deps).Valid) (identity : Bytes) :
    ((iamRevokeCert deps healthyInput store identity).2.records deps).Valid := by
  by_cases named : identity = []
  · unfold iamRevokeCert
    rw [if_pos named]
    exact valid
  · rw [revoke_snd deps store healthyInput identity named]
    exact valid_remove deps store _ valid _ (certKey identity) rfl

/-- Two identities that have been revoked one after the other are registered for nobody. -/
theorem registered_both_revoked (lawful : deps.Lawful) (valid : (store.records deps).Valid)
    (first second : Bytes) (firstNamed : first ≠ []) (secondNamed : second ≠ []) :
    AuthService.registered deps codec (.healthy now) (runCerts deps codec
        [.revoke healthyInput first, .revoke healthyInput second] store) first = none ∧
      AuthService.registered deps codec (.healthy now) (runCerts deps codec
        [.revoke healthyInput first, .revoke healthyInput second] store) second = none := by
  have between := valid_revoke deps store valid first
  have last : AuthService.registered deps codec (.healthy now) (runCerts deps codec
      [.revoke healthyInput first, .revoke healthyInput second] store) second = none :=
    registered_revoke_healthy deps codec now _ between second secondNamed
  refine ⟨?_, last⟩
  by_cases same : first = second
  · rw [same] at last ⊢
    exact last
  · have kept := perform_other deps lawful codec now (iamRevokeCert deps healthyInput store first).2
      (.revoke healthyInput second) first same
    exact (registered_congr deps codec now first kept).trans
      (registered_revoke_healthy deps codec now store valid first firstNamed)

theorem valid_issue (lawful : deps.Lawful) (valid : (store.records deps).Valid) (input : CertInput)
    (principal : Bytes) :
    ((iamIssueCert deps codec input store principal).2.records deps).Valid := by
  have written : ((putCertIndex deps codec input store (certURIForPrincipal principal) principal
      true).2.records deps).Valid := by
    unfold putCertIndex
    split
    · exact valid
    · exact valid_put deps store lawful _ _ valid _ (certKey (certURIForPrincipal principal)) rfl
  unfold iamIssueCert
  simp only
  split
  · exact valid
  · split
    · exact valid
    · exact valid
    · split
      · exact valid
      · split
        · rename_i put
          rw [put] at written
          exact written
        · rename_i put
          rw [put] at written
          exact written

end

/-- An issued certificate stands for its principal, whatever is registered, issued and revoked of
other identities, exactly when the peer reads the identity back from it unchanged. Then, once the
identity has been revoked, it stands for nobody exactly when nobody has the bare name registered. -/
theorem issued_certificate_resolves_iff (deps : Deps) (lawful : deps.Lawful) (codec : CertCodec)
    (codecLawful : codec.Lawful) (store : Store) (valid : (store.records deps).Valid)
    (input : CertInput) (principal identity : Bytes) (certificate : Certificate) (after : Store)
    (issued : iamIssueCert deps codec input store principal =
      (.issued identity certificate, after)) :
    ((∀ calls : List CertCall, (∀ call ∈ calls, call.identity ≠ identity) → ∀ now,
        AuthService.certificatePrincipal deps codec (.healthy now)
          (runCerts deps codec calls after) certificate = some principal) ↔
      Unchanged certificate identity) ∧
    (Unchanged certificate identity → ∀ (earlier later : List CertCall) (revocation : CertInput)
      (gone : Store), (∀ call ∈ earlier, call.identity ≠ identity) →
      (∀ call ∈ later, call.identity ≠ identity) →
      iamRevokeCert deps revocation (runCerts deps codec earlier after) identity =
        (.revoked identity, gone) →
      ∀ now, AuthService.certificatePrincipal deps codec (.healthy now)
            (runCerts deps codec later gone) certificate = none ↔
          AuthService.registered deps codec (.healthy now) (runCerts deps codec later gone)
            certificate.commonName = none) := by
  have facts := issue_spec deps lawful codec store codecLawful input principal identity certificate
    after issued
  obtain ⟨text, _, uri⟩ := facts.uri
  rw [unchanged_iff certificate identity text uri facts.named]
  refine ⟨⟨fun always => ?_, fun unchanged calls others now => ?_⟩,
    fun unchanged earlier later revocation gone _ laterOthers revoked now => ?_⟩
  · have first := always [] (fun _ none => absurd none List.not_mem_nil) 0
    rw [certificatePrincipal_eq deps codec 0 _ certificate text uri facts.named] at first
    cases presents : Url.reserialize text with
    | none =>
      rw [presents] at first
      cases first
    | some presented =>
      by_contra changed
      have other : presented ≠ identity := fun same => changed (congrArg some same)
      obtain ⟨kind, parsed⟩ := facts.parsed
      have otherName : certificate.commonName ≠ identity :=
        fun same => identity_ne_name parsed (facts.identity_eq ▸ same.symm)
      -- both texts the peer looks up are revoked, and the identity is not among them
      have resolved := always [.revoke healthyInput presented,
        .revoke healthyInput certificate.commonName]
        (by simp [CertCall.identity, other, otherName]) 0
      have afterValid : (after.records deps).Valid := by
        have kept := valid_issue deps codec store lawful valid input principal
        rw [issued] at kept
        exact kept
      obtain ⟨noUri, noName⟩ := registered_both_revoked deps codec 0 after lawful afterValid
        presented certificate.commonName (Url.reserialize_ne_nil presents) facts.named
      rw [certificatePrincipal_eq deps codec 0 _ certificate text uri facts.named, presents]
        at resolved
      simp only [noUri, noName] at resolved
      cases resolved
  · rw [certificatePrincipal_eq deps codec now _ certificate text uri facts.named, unchanged]
    simp only [registered_issued deps codec now after lawful facts calls others]
    rfl
  · rw [certificatePrincipal_eq deps codec now _ certificate text uri facts.named, unchanged]
    simp only [registered_revoked deps codec now _ lawful revocation identity gone revoked later
      laterOthers, Option.none_or]

/-! ### Samples -/

/-- Records of the index in a binary format. -/
def sampleCertCodec : CertCodec where
  encode record := .ok ((Format.bytes.pair (Format.bool.pair Format.long)).put
    (record.principal, record.issued, record.createdAt))
  decode raw := ((Format.bytes.pair (Format.bool.pair Format.long)).getAll raw).map fun parts =>
    ⟨parts.1, parts.2.1, parts.2.2⟩

theorem sampleCertCodec_lawful : sampleCertCodec.Lawful := by
  rintro ⟨principal, issued, createdAt⟩ raw encoded
  obtain rfl := Except.ok.inj encoded
  refine ⟨Format.put_ne_nil _ (by decide) _, ?_⟩
  simp only [sampleCertCodec, Format.getAll_put, Option.map_some]

/-- The store with the records of four users. -/
def usersStore : Store :=
  [str "alice", str "alice#", str "a|b", str "bob"].foldl (fun store name =>
    (Storage.put Reference.deps (.healthy 0) store
      { key := some (key (userPrefix ++ name)), value := name } 0).2) Store.empty

/-- A client certificate with a name and a URI. -/
def clientCertificate (name uri : String) : Certificate where
  commonName := str name
  uris := [str uri]
  dnsNames := []
  ips := []
  client := true
  server := false

theorem usersStore_valid : (usersStore.records Reference.deps).Valid := by
  have put (store : Store) (valid : (store.records Reference.deps).Valid) (name : Bytes) :=
    valid_put Reference.deps store Reference.lawful (.healthy 0) 0 valid
      { key := some (key (userPrefix ++ name)), value := name } (key (userPrefix ++ name)) rfl
  refine put _ (put _ (put _ (put _ ?_ _) _) _) _
  intro entryKey present
  exact absurd rfl present

/-- The principal a certificate stands for after calls on the sample store. -/
def principalAfter (calls : List CertCall) (certificate : Certificate) : Option Bytes :=
  AuthService.certificatePrincipal Reference.deps sampleCertCodec (.healthy 0)
    (runCerts Reference.deps sampleCertCodec calls usersStore) certificate

/-- The certificate of `alice` stands for `alice` whatever is done with other identities. -/
theorem issued_certificate_resolves_alice :
    principalAfter [.issue healthyInput (str "user:alice"),
        .register healthyInput (str "user:bob") (str "alice"),
        .revoke healthyInput (str "spiffe://bob")]
      (clientCertificate "alice" "cdb://user/alice") = some (str "user:alice") := by
  have issued : iamIssueCert Reference.deps sampleCertCodec healthyInput usersStore
      (str "user:alice") = (.issued (str "cdb://user/alice")
        (clientCertificate "alice" "cdb://user/alice"),
        (iamIssueCert Reference.deps sampleCertCodec healthyInput usersStore
          (str "user:alice")).2) :=
    Prod.ext (by decide +kernel) rfl
  have unchanged : Unchanged (clientCertificate "alice" "cdb://user/alice")
      (str "cdb://user/alice") := by
    unfold Unchanged
    decide +kernel
  exact (issued_certificate_resolves_iff Reference.deps Reference.lawful sampleCertCodec
    sampleCertCodec_lawful usersStore usersStore_valid healthyInput _ _ _ _ issued).1.mpr unchanged
    [.register healthyInput (str "user:bob") (str "alice"),
      .revoke healthyInput (str "spiffe://bob")] (by decide +kernel) 0

/-- The certificate of the user `alice#` carries the URI of `alice` and stands for `alice`. That of
`a|b` stands for nobody while its identity is registered. That of `alice`, revoked, stands for
`bob`, for whom the identity `alice` was registered. -/
theorem certificate_of_another :
    ((iamIssueCert Reference.deps sampleCertCodec healthyInput usersStore (str "user:alice#")).1 =
        .issued (str "cdb://user/alice#") (clientCertificate "alice#" "cdb://user/alice") ∧
      principalAfter [.issue healthyInput (str "user:alice"),
        .issue healthyInput (str "user:alice#")]
        (clientCertificate "alice#" "cdb://user/alice") = some (str "user:alice")) ∧
    ((iamIssueCert Reference.deps sampleCertCodec healthyInput usersStore (str "user:a|b")).1 =
        .issued (str "cdb://user/a|b") (clientCertificate "a|b" "cdb://user/a%7Cb") ∧
      principalAfter [.issue healthyInput (str "user:a|b")]
        (clientCertificate "a|b" "cdb://user/a%7Cb") = none) ∧
    ((iamIssueCert Reference.deps sampleCertCodec healthyInput usersStore (str "user:alice")).1 =
        .issued (str "cdb://user/alice") (clientCertificate "alice" "cdb://user/alice") ∧
      principalAfter [.issue healthyInput (str "user:alice"),
        .register healthyInput (str "user:bob") (str "alice"),
        .revoke healthyInput (str "cdb://user/alice")]
        (clientCertificate "alice" "cdb://user/alice") = some (str "user:bob")) := by
  decide +kernel

end Console

end ConsensusDB
