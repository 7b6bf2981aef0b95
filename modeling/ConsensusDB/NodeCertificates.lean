/-
This file is about whom the certificate of a node stands for. The node chooses its
id, which becomes the common name of a certificate that carries no URI and may be used
by clients too. `certificatePrincipal` looks the common name up in the index of client
identities, where any text can be registered. So the certificate stands for nobody
exactly when the id was never registered or issued as an identity.
-/

import ConsensusDB.JoinTokens

namespace ConsensusDB

open Wire Iam

namespace Enrollment

/-! ### The certificate of a node -/

/-- A call in progress has a node id, and a certificate is one of this id without URIs. -/
def Named : Phase → Prop
  | .reading call => call.nodeId ≠ []
  | .adopting call _ => call.nodeId ≠ []
  | .rereading call => call.nodeId ≠ []
  | .burning call _ _ => call.nodeId ≠ []
  | .signing call => call.nodeId ≠ []
  | .answered call (.certificate certificate) =>
    call.nodeId ≠ [] ∧ certificate.commonName = call.nodeId ∧ certificate.uris = []
  | _ => True

theorem signNode_spec (config : Config) (input : Input) (call : Call) (certificate : Certificate)
    (signed : signNode config input call = .certificate certificate) :
    certificate.commonName = call.nodeId ∧ certificate.uris = [] := by
  unfold signNode at signed
  split at signed
  · cases signed
  · cases signed
  · simp only at signed
    split at signed
    · cases signed
    · rename_i isSigned
      cases signed
      obtain ⟨named, urls, parsed, texts⟩ := Console.sign_ok _ _ _ isSigned
      obtain rfl := Option.some.inj parsed
      exact ⟨named, texts⟩

theorem named_verify (config : Config) (clock : Int64) (call : Call) (record : Record)
    (named : call.nodeId ≠ []) : Named (verify config clock call record) := by
  rcases verify_cases config clock call record with ⟨err, refused⟩ | signs | ⟨version, raw, burns⟩
  · rw [refused]
    trivial
  · rw [signs]
    exact named
  · rw [burns]
    exact named

theorem named_adopt (config : Config) (call : Call) (named : call.nodeId ≠ []) :
    Named (adoptBootstrapToken config call) := by
  unfold adoptBootstrapToken
  split
  · trivial
  · split
    · trivial
    · exact named

theorem named_look (deps : Deps) (config : Config) (input : Input) (store : Store) (phase : Phase)
    (named : Named phase) : Named (look deps config input store phase) := by
  cases phase with
  | reading call =>
    simp only [look]
    split
    · trivial
    · split
      · exact named_adopt config call named
      · exact named_verify config input.clock call _ named
  | rereading call =>
    simp only [look]
    split
    · trivial
    · split
      · trivial
      · exact named_verify config input.clock call _ named
  | signing call =>
    simp only [look]
    cases signed : signNode config input call with
    | certificate certificate => exact ⟨named, signNode_spec config input call certificate signed⟩
    | error err => trivial
  | looking token =>
    simp only [look]
    split
    · trivial
    · split
      · trivial
      · split
        · trivial
        · split
          · trivial
          · trivial
  | _ => exact named

theorem named_resume (phase : Phase) (reply : Except Err Status) (named : Named phase) :
    Named (resume phase reply) := by
  cases phase with
  | adopting call raw =>
    cases reply with
    | error err => trivial
    | ok status => exact named
  | burning call version raw =>
    rcases reply with err | ⟨_ | _⟩
    · trivial
    · trivial
    · exact named
  | removing token => trivial
  | _ => exact named

theorem named_next (deps : Deps) (config : Config) (mode : Mode) (input : Input) (shared : Shared)
    (phase : Phase) (named : Named phase) :
    Named ((handler deps config).next deps mode input shared phase).1 := by
  rcases (handler deps config).next_cases deps mode input shared phase with
    ⟨_, looks⟩ | waits | ⟨_, reply, _, _, _, resumes⟩
  · rw [looks]
    exact named_look deps config input _ phase named
  · rw [waits]
    exact named
  · rw [resumes]
    exact named_resume phase reply named

/-- The certificates of nodes carry their ids and no URIs, in every run. -/
theorem named_invariant (deps : Deps) (config : Config) (mode : Mode) :
    ((handler deps config).machine deps mode).Invariant (fun _ => True) (fun _ => True)
      (fun _ => True) Named where
  first request := by
    cases request with
    | enroll call =>
      simp only [Handler.machine, handler, Request.first]
      split
      · trivial
      · rename_i given
        exact (not_or.mp given).2
    | consume token => trivial
  next input shared phase _ _ named :=
    ⟨trivial, named_next deps config mode input shared phase named⟩
  stop phase named := by
    cases phase with
    | answered call answer => exact named
    | _ => trivial
  occur _ _ _ _ := trivial

end Enrollment

namespace Console

/-! ### Identities that were registered -/

/-- A certificate without URIs is looked up by its common name. -/
theorem certificatePrincipal_named (deps : Deps) (codec : CertCodec) (env : Env) (store : Store)
    (certificate : Certificate) (noUri : certificate.uris = [])
    (named : certificate.commonName ≠ []) :
    AuthService.certificatePrincipal deps codec env store certificate =
      AuthService.registered deps codec env store certificate.commonName := by
  unfold AuthService.certificatePrincipal Certificate.identities
  rw [noUri, if_neg named]
  show ([certificate.commonName].findSome? _) = _
  rw [List.findSome?_cons, List.findSome?_nil]
  cases AuthService.registered deps codec env store certificate.commonName <;> rfl

/-- The call registers or issues. -/
def CertCall.IsRegistration : CertCall → Prop
  | .revoke _ _ => False
  | _ => True

/-- The identity was registered or issued. -/
def CertAnswer.Succeeded : CertAnswer → Prop
  | .registered _ _ => True
  | .issued _ _ => True
  | _ => False

section

variable (deps : Deps) (lawful : deps.Lawful) (codec : CertCodec) (codecLawful : codec.Lawful)
  (now : Int64) (store : Store)

include lawful in
theorem putCertIndex_failed (input : CertInput) (identity principal : Bytes) (issued : Bool)
    (err : Err) (after : Store)
    (failed : putCertIndex deps codec input store identity principal issued = (.error err, after)) :
    after = store := by
  unfold putCertIndex at failed
  split at failed
  · exact (Prod.mk.inj failed).2.symm
  · rename_i raw encoded
    rcases put_unconditional deps store lawful input.writeEnv input.index
      { key := some (certKey identity), value := raw } (certKey identity) rfl rfl with
      ⟨same, _⟩ | wrote
    · exact (Prod.mk.inj failed).2.symm.trans same
    · have done := (Prod.mk.inj failed).1
      rw [certKey] at wrote
      rw [wrote] at done
      cases done

include lawful codecLawful in
/-- A registration registers its identity for somebody, or changes nothing. -/
theorem registered_perform (call : CertCall) (isRegistration : call.IsRegistration) :
    ((call.perform deps codec store).1.Succeeded ∧
        AuthService.registered deps codec (.healthy now) (call.perform deps codec store).2
          call.identity ≠ none) ∨
      (¬ (call.perform deps codec store).1.Succeeded ∧
        (call.perform deps codec store).2 = store) := by
  have indexed : ∀ (input : CertInput) (identity principal : Bytes) (issued : Bool) (after : Store),
      principalExists deps store input.readEnv principal = true →
      putCertIndex deps codec input store identity principal issued = (.ok (), after) →
      AuthService.registered deps codec (.healthy now) after identity ≠ none := by
    intro input identity principal issued after present written
    obtain ⟨raw, decoded, shown⟩ :=
      putCertIndex_shows deps lawful codec store codecLawful input identity principal issued after
        written
    obtain ⟨kind, name, parsed, _⟩ := parse_of_exists deps store input.readEnv principal present
    rw [registered_eq, shown now, Option.bind_some, decoded, Option.bind_some,
      if_neg (ne_nil_of_parse parsed)]
    exact Option.some_ne_none _
  cases call with
  | register input principal identity =>
    simp only [CertCall.perform, CertCall.identity, iamRegisterCert]
    split
    · exact Or.inr ⟨id, rfl⟩
    · rename_i given
      have present := Bool.eq_true_of_not_eq_false (not_or.mp given).2
      split
      · rename_i failed
        exact Or.inr ⟨id, putCertIndex_failed deps lawful codec store input _ _ _ _ _ failed⟩
      · rename_i written
        exact Or.inl ⟨trivial, indexed input _ _ _ _ present written⟩
  | issue input principal =>
    simp only [CertCall.perform, CertCall.identity, iamIssueCert]
    split
    · exact Or.inr ⟨id, rfl⟩
    · rename_i given
      have present := Bool.eq_true_of_not_eq_false given
      split
      · exact Or.inr ⟨id, rfl⟩
      · exact Or.inr ⟨id, rfl⟩
      · split
        · exact Or.inr ⟨id, rfl⟩
        · split
          · rename_i failed
            exact Or.inr ⟨id, putCertIndex_failed deps lawful codec store input _ _ _ _ _ failed⟩
          · rename_i written
            exact Or.inl ⟨trivial, indexed input _ _ _ _ present written⟩
  | revoke input identity => exact isRegistration.elim

/-- A call about the identity has succeeded. -/
def Claimed (identity : Bytes) : List CertCall → Store → Prop
  | [], _ => False
  | call :: rest, store =>
    (call.identity = identity ∧ (call.perform deps codec store).1.Succeeded) ∨
      Claimed identity rest (call.perform deps codec store).2

include lawful codecLawful in
/-- After registrations, an identity is registered if it was or if one about it has succeeded. -/
theorem registered_runCerts (identity : Bytes) (calls : List CertCall)
    (registrations : ∀ call ∈ calls, call.IsRegistration) :
    AuthService.registered deps codec (.healthy now) (runCerts deps codec calls store) identity ≠
        none ↔
      AuthService.registered deps codec (.healthy now) store identity ≠ none ∨
        Claimed deps codec identity calls store := by
  induction calls generalizing store with
  | nil => exact ⟨Or.inl, fun either => either.elim id False.elim⟩
  | cons call rest inductionHypothesis =>
    have later := inductionHypothesis (call.perform deps codec store).2
      fun each member => registrations each (List.mem_cons_of_mem _ member)
    refine later.trans ?_
    by_cases same : call.identity = identity
    · rcases registered_perform deps lawful codec codecLawful now store call
        (registrations call List.mem_cons_self) with ⟨succeeded, present⟩ | ⟨failed, unchanged⟩
      · rw [same] at present
        exact iff_of_true (Or.inl present) (Or.inr (Or.inl ⟨same, succeeded⟩))
      · simp only [Claimed, failed, and_false, false_or, unchanged]
    · have kept := registered_congr deps codec now identity
        (perform_other deps lawful codec now store call identity (Ne.symm same))
      simp only [Claimed, same, false_and, false_or, kept]

end

end Console

open Enrollment Console in
/-- The certificate of a node stands for nobody exactly when no call that registers or issues its
id as an identity has succeeded. -/
theorem node_certificate_anonymous_iff {Id : Type} [DecidableEq Id] (deps : Deps)
    (lawful : deps.Lawful) (config : Config) (mode : Mode) (shared : Shared)
    (steps : List (Requests.Step Id Enrollment.Request Input Event)) (id : Id) (call : Call)
    (certificate : Certificate)
    (answered : (Replay.run ((handler deps config).machine deps mode).act steps
      (Requests.begin Id shared)).phases id = some (.answered call (.certificate certificate)))
    (codec : CertCodec) (codecLawful : codec.Lawful) (index : Store) (now : Int64)
    (unregistered : index.shown deps now (certKey call.nodeId) = none) (calls : List CertCall)
    (registrations : ∀ call ∈ calls, call.IsRegistration) :
    AuthService.certificatePrincipal deps codec (.healthy now) (runCerts deps codec calls index)
        certificate = none ↔
      ¬ Claimed deps codec call.nodeId calls index := by
  have holds := (named_invariant deps config mode).holds_run steps (Requests.begin Id shared)
    (Replay.Meets.of_forall _ _ _ fun step _ _ => by cases step <;> trivial)
    (Requests.Machine.holds_begin shared trivial)
  obtain ⟨named, isName, noUri⟩ := holds.2 id _ answered
  have before : AuthService.registered deps codec (.healthy now) index call.nodeId = none := by
    rw [registered_eq, unregistered]
    rfl
  rw [certificatePrincipal_named deps codec _ _ certificate noUri (isName ▸ named), isName]
  have after := registered_runCerts deps lawful codec codecLawful now index call.nodeId calls
    registrations
  rw [before] at after
  exact not_iff_not.mp (by simpa using after)

/-! ### Samples -/

namespace Enrollment

open Console

/-- The cluster after calls on the index of the sample users and a minting. -/
def indexedCluster (calls : List CertCall) : Shared :=
  let store := runCerts Reference.deps sampleCertCodec calls usersStore
  (Shared.fresh store).wrote 1
    (mintJoinToken Reference.deps sampleConfig sampleMint store).2

/-- The cluster after the node has been enrolled, too. -/
def enrolledNode (calls : List CertCall) (nodeId : String) : Requests.State Unit Shared Phase :=
  Replay.run ((handler Reference.deps sampleConfig).machine Reference.deps .replicated).act
    [.start () (.enroll (sampleCall nodeId)), .advance () (sampleInput 100 2),
      .advance () (sampleInput 100 2), .advance () (sampleInput 100 2)]
    (Requests.begin Unit (indexedCluster calls))

/-- The certificate of a node whose id nobody registers stands for nobody. -/
theorem node_certificate_anonymous_web :
    (enrolledNode [] "web-1").phases () =
        some (.answered (sampleCall "web-1") (.certificate (nodeCertificate "web-1"))) ∧
      principalAfter [.register healthyInput (str "user:alice") (str "web-2")]
        (nodeCertificate "web-1") = none := by
  have answered : (enrolledNode [] "web-1").phases () =
      some (.answered (sampleCall "web-1") (.certificate (nodeCertificate "web-1"))) := by
    decide +kernel
  refine ⟨answered, ?_⟩
  refine (node_certificate_anonymous_iff Reference.deps Reference.lawful sampleConfig .replicated
    (indexedCluster []) _ () (sampleCall "web-1") _ answered sampleCertCodec sampleCertCodec_lawful
    usersStore 0 (by decide +kernel)
    [.register healthyInput (str "user:alice") (str "web-2")]
    (fun call member => by rw [List.mem_singleton.mp member]; trivial)).mpr ?_
  rintro (⟨same, _⟩ | claimed)
  · exact absurd same (by decide +kernel)
  · exact claimed

/-- An identity `web-1` is registered for `alice`. A node that enrolls under this id gets a
certificate that stands for `alice`. -/
theorem node_certificate_of_alice :
    (enrolledNode [.register healthyInput (str "user:alice") (str "web-1")] "web-1").phases () =
        some (.answered (sampleCall "web-1") (.certificate (nodeCertificate "web-1"))) ∧
      AuthService.certificatePrincipal Reference.deps sampleCertCodec (.healthy 100)
          (enrolledNode [.register healthyInput (str "user:alice") (str "web-1")]
            "web-1").shared.store
          (nodeCertificate "web-1") =
        some (str "user:alice") := by
  decide +kernel

end Enrollment

end ConsensusDB
