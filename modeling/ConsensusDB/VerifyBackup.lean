/-
This file is `pkg/verify/backup.go`: a dump is loaded into a throwaway store, the
head record found there is compared with a quorum certificate, and the dump is
reported as verified when the certificate attests that head.

The comparison reads the head record and nothing else of the dump. So dumps that
verify against one certificate need not hold the same data: for every certificate
that any dump verifies against there are two that differ. What the comparison does
establish is the position in the log: backups that nodes took between two entries
and that nobody altered hold the same data when they verify against one
certificate.
-/

import ConsensusDB.Capture
import ConsensusDB.Quorum

namespace ConsensusDB

open Wire

/-! ### Verification -/

/-- The trust material of a verification. -/
structure VerifyOptions where
  caCert : Bytes
  quorumCert : Bytes
  nodeCerts : List Bytes
  threshold : Int

/-- What a verification reports: the certificate is invalid, or the dump does not match it, or it
does. -/
inductive VerifyMessage where
  | quorumInvalid (err : QuorumErr)
  | mismatch (err : MatchErr)
  | verified
  deriving DecidableEq

structure VerifyResult where
  verified : Bool
  height : UInt64 := 0
  digest : Option Digest := none
  signers : Nat := 0
  message : VerifyMessage
  deriving DecidableEq

section

variable {deps : Deps} (signing : Signing deps)

/-- The loop that decodes the node certificates into a bundle. -/
def decodeBundle : CertBundle → List Bytes → Except Err CertBundle
  | bundle, [] => .ok bundle
  | bundle, raw :: rest =>
    match wrapError "verify: node cert" (decodeCert signing raw) with
    | .error err => .error err
    | .ok cert => decodeBundle (bundle.addCert cert) rest

/-- The parsed trust material: the authority key, the certificate and the node certificates. -/
def parseTrust (options : VerifyOptions) : Except Err (Bytes × QuorumCertificate × CertBundle) :=
  match wrapError "verify: CA public key" (parseCAPublicKey options.caCert) with
  | .error err => .error err
  | .ok ca =>
    match wrapError "verify: quorum certificate" (decodeQuorum signing options.quorumCert) with
    | .error err => .error err
    | .ok qc =>
      match decodeBundle signing (fun _ => none) options.nodeCerts with
      | .error err => .error err
      | .ok bundle => .ok (ca, qc, bundle)

/-- Verifies a dump. The source is the dump it is read as, or the error of reading it. -/
def verifyBackup (env : Env) (options : VerifyOptions) (source : Except Err Dump) :
    Except Err VerifyResult :=
  match parseTrust signing options with
  | .error err => .error err
  | .ok (ca, qc, bundle) =>
    let threshold := if options.threshold = 0 then (qc.signers.length : Int) else options.threshold
    match verifyQuorum signing ca qc bundle threshold env.now with
    | .error err => .ok { verified := false, message := .quorumInvalid err }
    | .ok _ =>
      match source with
      | .error err => .error err
      | .ok dump =>
        let head := loadHead deps env (Storage.load Store.empty dump)
        match qc.matchesHead head with
        | .error err =>
          .ok { verified := false, height := qc.checkpoint.height, digest := some head.digest
                signers := qc.signers.length, message := .mismatch err }
        | .ok _ =>
          .ok { verified := true, height := head.index, digest := some head.digest
                signers := qc.signers.length, message := .verified }

/-- The dump is reported as verified. -/
def Verifies (now : Int64) (options : VerifyOptions) (dump : Dump) : Prop :=
  ∃ result, verifyBackup signing (Env.healthy now) options (.ok dump) = .ok result ∧
    result.verified = true

/-- The trust material is in order: it parses to this certificate, which is a valid quorum proof. -/
def Accepts (now : Int64) (options : VerifyOptions) (qc : QuorumCertificate) : Prop :=
  ∃ ca bundle, parseTrust signing options = .ok (ca, qc, bundle) ∧
    verifyQuorum signing ca qc bundle
      (if options.threshold = 0 then (qc.signers.length : Int) else options.threshold) now = .ok ()

/-- A dump verifies exactly when the trust material is in order and its certificate attests the
head of the dump. -/
theorem verifies_iff (now : Int64) (options : VerifyOptions) (dump : Dump) :
    Verifies signing now options dump ↔
      ∃ qc, Accepts signing now options qc ∧ qc.matchesHead (Dump.head deps now dump) = .ok () := by
  unfold Verifies Accepts verifyBackup
  constructor
  · rintro ⟨result, ran, verified⟩
    split at ran
    · cases ran
    · rename_i ca qc bundle parsed
      simp only at ran
      split at ran
      · cases ran
        cases verified
      · rename_i quorum
        split at ran
        · cases ran
          cases verified
        · rename_i attested
          exact ⟨qc, ⟨ca, bundle, parsed, quorum⟩, attested⟩
  · rintro ⟨qc, ⟨ca, bundle, parsed, quorum⟩, attested⟩
    unfold Dump.head at attested
    simp only [parsed, healthy_now, quorum, attested]
    exact ⟨_, rfl, rfl⟩

/-- The trust material determines the certificate. -/
theorem accepts_unique (now : Int64) (options : VerifyOptions) (first second : QuorumCertificate)
    (firstAccepted : Accepts signing now options first)
    (secondAccepted : Accepts signing now options second) : first = second := by
  obtain ⟨_, _, firstParsed, _⟩ := firstAccepted
  obtain ⟨_, _, secondParsed, _⟩ := secondAccepted
  have same := Except.ok.inj (firstParsed.symm.trans secondParsed)
  exact congrArg (fun parts => parts.2.1) same

/-- Two dumps that verify against one certificate have the same head. -/
theorem head_of_verifies (now : Int64) (options : VerifyOptions) (first second : Dump)
    (firstVerifies : Verifies signing now options first)
    (secondVerifies : Verifies signing now options second) :
    Dump.head deps now first = Dump.head deps now second := by
  obtain ⟨qc, accepted, firstMatches⟩ := (verifies_iff signing now options first).mp firstVerifies
  obtain ⟨_, otherAccepted, secondMatches⟩ :=
    (verifies_iff signing now options second).mp secondVerifies
  obtain rfl := accepts_unique signing now options qc _ accepted otherAccepted
  exact head_unique qc _ _ firstMatches secondMatches

/-! ### Data -/

/-- Two dumps load to the same data: under every key outside the tenant of the ledger they have
the same value and version. -/
def SameData (deps : Deps) (first second : Dump) : Prop :=
  ∀ key, (encodeField headTenant).isPrefixOf key = false →
    (Dump.records deps first key).map (fun record => (record.value, record.version)) =
      (Dump.records deps second key).map fun record => (record.value, record.version)

/-- The dump of a store that holds a head record and nothing else. -/
def bareDump (deps : Deps) (chain : HashChain) : Dump :=
  Fsm.persist ⟨storeHead deps (Env.healthy 0) Store.empty chain.index chain.digest 1, none⟩

/-- The dump of that store with one data record put into it. -/
def alteredDump (deps : Deps) (chain : HashChain) : Dump :=
  Fsm.persist ⟨(Storage.put deps (Env.healthy 0)
    (storeHead deps (Env.healthy 0) Store.empty chain.index chain.digest 1)
    { key := some Reference.sampleKey, value := str "1" } 1).2, none⟩

end

section

variable (deps : Deps) (lawful : deps.Lawful)

include lawful in
theorem records_bareDump (chain : HashChain) :
    Dump.records deps (bareDump deps chain) =
      Function.update (fun _ => none) (headEntryKey deps) (some (headRecordOf deps chain 1)) := by
  rw [bareDump, records_persist]
  exact (storeHead_records deps lawful 0 Store.empty chain 1).trans
    (storeHead_eq deps lawful _ chain 1 (by decide))

include lawful in
theorem records_alteredDump (chain : HashChain) :
    ∃ record, Dump.records deps (alteredDump deps chain) =
      Function.update (Dump.records deps (bareDump deps chain))
        (encodeKey deps Reference.sampleKey).1 (some record) := by
  rw [alteredDump, records_persist, bareDump, records_persist]
  have stored := congrArg Prod.snd (view_put deps lawful 0
    (storeHead deps (Env.healthy 0) Store.empty chain.index chain.digest 1)
    { key := some Reference.sampleKey, value := str "1" } 1)
  have accepted : refuseKey (encodeKey deps Reference.sampleKey).1 = none := by
    show refuseKey (encodeField (str "acme") ++ encodeField (str "EU") ++
      encodeField (str "orders")) = none
    decide +kernel
  simp only [Records.put, casRefuses, Bool.false_and, Bool.false_eq_true, if_false, Records.write,
    accepted] at stored
  exact ⟨_, stored⟩

theorem sampleKey_outside :
    (encodeField headTenant).isPrefixOf (encodeKey deps Reference.sampleKey).1 = false := by
  show (encodeField headTenant).isPrefixOf (encodeField (str "acme") ++ encodeField (str "EU") ++
    encodeField (str "orders")) = false
  decide +kernel

theorem sampleKey_ne_head : (encodeKey deps Reference.sampleKey).1 ≠ headEntryKey deps := by
  show encodeField (str "acme") ++ encodeField (str "EU") ++ encodeField (str "orders") ≠
    encodeField headTenant ++ encodeField headRegion ++ encodeField headMinor
  decide +kernel

include lawful in
/-- The two dumps have the same head, whatever it is, and differ in their data. -/
theorem altered_undetected (chain : HashChain) (now : Int64) :
    Dump.head deps now (bareDump deps chain) = chain ∧
      Dump.head deps now (alteredDump deps chain) = chain ∧
      ¬ SameData deps (bareDump deps chain) (alteredDump deps chain) := by
  have bare := records_bareDump deps lawful chain
  obtain ⟨record, altered⟩ := records_alteredDump deps lawful chain
  have other := sampleKey_ne_head deps
  have head (dump : Dump)
      (stored : Dump.records deps dump (headEntryKey deps) = some (headRecordOf deps chain 1)) :
      Dump.head deps now dump = chain := by
    rw [Dump.head, loadHead_records]
    exact loadHead_of_headRecord deps lawful now _ chain 1 stored
  refine ⟨head _ ?_, head _ ?_, fun same => ?_⟩
  · rw [bare, Function.update_self]
  · rw [altered, Function.update_of_ne other.symm, bare, Function.update_self]
  · have equal := same _ (sampleKey_outside deps)
    rw [altered, Function.update_self, bare, Function.update_of_ne other] at equal
    cases equal

/-! ### Backups nobody altered -/

/-- The dump is a backup, as it was taken, of a node that follows the log: between two entries,
the last of which spares the head record. -/
structure BackupOf (log : List Entry) (dump : Dump) : Prop where
  taken : ∃ started machine, Reached deps started machine ∧ machine.applying = none ∧
    machine.HeadIntact deps ∧ machine.applied.map Prod.snd <+: log ∧ dump = machine.fsm.persist

/-- What a backup nobody altered holds: the head and the records of a position of the log. -/
theorem BackupOf.position {deps : Deps} (lawful : deps.Lawful) {log : List Entry}
    (committed : Committed deps log) {dump : Dump} (backup : BackupOf deps log dump) (now : Int64) :
    ∃ applied : List (Int64 × Entry), applied.map Prod.snd <+: log ∧
      Dump.head deps now dump = headOf (applied.map Prod.snd) ∧
      Dump.records deps dump = (Replica.fresh.run deps applied).records := by
  obtain ⟨started, machine, reached, idle, intact, ⟨rest, split⟩, rfl⟩ := backup.taken
  have begun : machine.begun = machine.applied := by
    rw [Machine.begun, idle, Option.toList_none, List.append_nil]
  have appliedCommitted : Committed deps (machine.applied.map Prod.snd) :=
    Committed.of_append (split.symm ▸ committed)
  have head := captured_head deps lawful started now machine reached
    (by rw [begun]; exact appliedCommitted) intact
  refine ⟨machine.applied, ⟨rest, split⟩, by rw [head, begun], ?_⟩
  rw [records_persist, reached.tracks.fsm, idle]
  exact congrArg Replica.records (fresh_run_replica deps lawful started machine.applied)

include lawful in
/-- Two backups of nodes that follow one log and that nobody altered hold the same records when
they have the same head. -/
theorem records_of_backups (log : List Entry) (committed : Committed deps log) (first second : Dump)
    (firstBackup : BackupOf deps log first) (secondBackup : BackupOf deps log second) (now : Int64)
    (heads : Dump.head deps now first = Dump.head deps now second) :
    Dump.records deps first = Dump.records deps second := by
  obtain ⟨applied, part, head, records⟩ := firstBackup.position lawful committed now
  obtain ⟨otherApplied, otherPart, otherHead, otherRecords⟩ :=
    secondBackup.position lawful committed now
  rw [head, otherHead] at heads
  have sameLog := front_unique committed.toIsLog part otherPart
    (congrArg HashChain.index heads)
  have routed : ∀ delivery ∈ applied, Routed deps delivery.2.data := fun delivery member =>
    committed.routed _ (part.subset (List.mem_map_of_mem member))
  have replicas := (run_routed deps lawful applied otherApplied sameLog routed Replica.fresh rfl).2
  rw [records, otherRecords]
  exact congrArg Replica.records replicas

include lawful in
/-- Verification binds the data of a dump only vacuously: all dumps that verify against a
certificate hold the same data if and only if the certificate is refused or its digest is not one
of 32 bytes, so that no dump verifies. Backups of nodes that follow one log and that nobody
altered do hold the same data when they verify against one certificate. -/
theorem verified_data (signing : Signing deps) (now : Int64) (options : VerifyOptions) :
    ((∀ first second, Verifies signing now options first → Verifies signing now options second →
          SameData deps first second) ↔
        ∀ qc, Accepts signing now options qc → qc.checkpoint.digest.length ≠ 32) ∧
      ∀ (log : List Entry) (first second : Dump), Committed deps log → BackupOf deps log first →
        BackupOf deps log second → Verifies signing now options first →
        Verifies signing now options second → SameData deps first second := by
  refine ⟨⟨fun bound qc accepted length => ?_, fun refused first _ verifies => ?_⟩, ?_⟩
  · obtain ⟨bareHead, alteredHead, different⟩ := altered_undetected deps lawful
      ⟨qc.checkpoint.height, qc.checkpoint.digest, length⟩ now
    refine different (bound _ _ ?_ ?_)
    · exact (verifies_iff signing now options _).mpr ⟨qc, accepted, by
        rw [bareHead]; exact (matchesHead_iff qc _).mpr ⟨rfl, rfl⟩⟩
    · exact (verifies_iff signing now options _).mpr ⟨qc, accepted, by
        rw [alteredHead]; exact (matchesHead_iff qc _).mpr ⟨rfl, rfl⟩⟩
  · obtain ⟨qc, accepted, attested⟩ := (verifies_iff signing now options first).mp verifies
    refine absurd ?_ (refused qc accepted)
    rw [((matchesHead_iff qc _).mp attested).2]
    exact Digest.length_eq _
  · intro log first second committed firstBackup secondBackup firstVerifies secondVerifies key _
    have heads := head_of_verifies signing now options first second firstVerifies secondVerifies
    rw [records_of_backups deps lawful log committed first second firstBackup secondBackup now
      heads]

end

/-! ### A certificate and two dumps -/

/-- A scheme for which a signature is the signed bytes behind the key. -/
def sampleSigning : Signing Reference.deps where
  ed25519Verify key message signature := signature == key ++ message
  PublicKey := Bytes
  unmarshalPublicKey := .ok
  validate _ := true
  blsVerifyAggregate keys messages signature :=
    signature == (List.zipWith (fun key message => key ++ message) keys messages).flatten
  quorumCertificate := Reference.codec
    ((((Format.word.pair (Format.word.pair (Format.bytes.pair Format.long))).convert
        (fun parts => (⟨parts.1, parts.2.1, parts.2.2.1, parts.2.2.2⟩ : Checkpoint))
        (fun point => (point.height, point.term, point.digest, point.unix)) fun _ => rfl).pair
      (Format.bytes.list.pair Format.bytes)).convert
    (fun parts => ⟨parts.1, parts.2.1, parts.2.2⟩)
    (fun qc => (qc.checkpoint, qc.signers, qc.aggSig)) fun _ => rfl)
  nodeCert := Reference.codec
    ((Format.bytes.pair (Format.bytes.pair (Format.long.pair Format.bytes))).convert
    (fun parts => ⟨parts.1, parts.2.1, parts.2.2.1, parts.2.2.2⟩)
    (fun cert => (cert.nodeID, cert.publicKey, cert.notAfter, cert.caSig)) fun _ => rfl)

/-- The packed form of a certificate. -/
def packStruct {Struct : Type} (codec : StructCodec Reference.deps.Value Struct) (value : Struct) :
    Bytes :=
  ((codec.marshal value).bind Reference.deps.pack).toOption.getD []

def sampleAuthority : Bytes := List.replicate 32 7

/-- The head of the sample log, signed by one node. -/
def sampleOptions : VerifyOptions where
  caCert := sampleAuthority
  quorumCert := packStruct sampleSigning.quorumCertificate
    ⟨⟨1, 1, (headOf Reference.sampleLog).digest.bytes, 0⟩, [str "node0"],
      str "key" ++ signMessage ⟨1, 1, (headOf Reference.sampleLog).digest.bytes, 0⟩ (str "node0")⟩
  nodeCerts := [packStruct sampleSigning.nodeCert ⟨str "node0", str "key", 0,
    sampleAuthority ++ certBody (str "node0") (str "key") 0⟩]
  threshold := 1

/-- The sample replica with the value of its record replaced. -/
def tamperedReplica : Fsm :=
  { sampleReplica with
    store := (Storage.put Reference.deps (Env.healthy 120) sampleReplica.store
      { key := some Reference.sampleKey, value := str "2" } 1).2 }

instance (now : Int64) (options : VerifyOptions) (dump : Dump) :
    Decidable (Verifies sampleSigning now options dump) :=
  match ran : verifyBackup sampleSigning (Env.healthy now) options (.ok dump) with
  | .error _ => .isFalse fun ⟨_, equal, _⟩ => nomatch ran.symm.trans equal
  | .ok result =>
    if verified : result.verified = true then .isTrue ⟨result, ran, verified⟩
    else .isFalse fun ⟨_, equal, reported⟩ =>
      verified (Except.ok.inj (ran.symm.trans equal) ▸ reported)

theorem sampleReplica_verifies :
    Verifies sampleSigning 300 sampleOptions sampleReplica.persist := by
  decide +kernel

theorem sampleReplica_backup : BackupOf Reference.deps Reference.sampleLog sampleReplica.persist :=
  ⟨0, sampleMachine 3, sampleMachine_three, rfl, sampleMachine_intact, List.prefix_refl _, rfl⟩

/-- A second node that follows the sample log: it was started later and has a clock of its own. -/
def secondMachine : Machine :=
  ([Moment.storeHead 130
      (Reference.entryOf 1 (Reference.samplePut.command Reference.deps 100)), .commit].foldlM
    (Machine.step Reference.deps) (Machine.start Reference.deps 50)).getD
      (Machine.start Reference.deps 50)

theorem secondMachine_backup :
    BackupOf Reference.deps Reference.sampleLog secondMachine.fsm.persist :=
  ⟨50, secondMachine, .step .commit (.step (.storeHead 130 _) .start rfl) rfl, rfl,
    fun _ => sampleLog_sparesHead, List.prefix_refl _, rfl⟩

/-- Backups of the two nodes that nobody altered. -/
theorem verified_data_unaltered :
    SameData Reference.deps sampleReplica.persist secondMachine.fsm.persist :=
  (verified_data Reference.deps Reference.lawful sampleSigning 300 sampleOptions).2
    Reference.sampleLog sampleReplica.persist secondMachine.fsm.persist
    Reference.sampleLog_committed sampleReplica_backup secondMachine_backup sampleReplica_verifies
    (by decide +kernel)

/-- A backup and the same backup with a value replaced verify against one certificate. -/
theorem tampered_verifies :
    ¬ ∀ (options : VerifyOptions) (first second : Dump),
      Verifies sampleSigning 300 options first → Verifies sampleSigning 300 options second →
      SameData Reference.deps first second := by
  intro claim
  have same := claim sampleOptions sampleReplica.persist tamperedReplica.persist
    sampleReplica_verifies (by decide +kernel)
  have equal := same (encodeKey Reference.deps Reference.sampleKey).1 (by decide +kernel)
  revert equal
  decide +kernel

end ConsensusDB
