/-
This file is `pkg/console/ledger.go`: the coordinator stamps a checkpoint of its own
head, asks every member to sign it, and aggregates what comes back into a quorum
certificate. Members that cannot be reached, do not sign or answer with something
that does not decode are reported as warnings. When a head has moved on in between,
a second pass is made from the new head.

The signature and the certificate of an answer that says it is signed are taken as
they are. So the materials prove a quorum of the members that do sign, with all
others reported, exactly as long as no other member's answer in the last pass looks
like a signed one.
-/

import ConsensusDB.Attestation
import ConsensusDB.Lib.Tables
import ConsensusDB.QuorumBuild

namespace ConsensusDB

open Wire

namespace Console

/-! ### Collecting -/

/-- The texts of bytes on the wire. -/
structure TextCodec where
  base64Encode : Bytes → Bytes
  base64Decode : Bytes → Option Bytes
  hexEncode : Bytes → Bytes

/-- What is encoded is read back. -/
def TextCodec.Lawful (text : TextCodec) : Prop :=
  ∀ raw, text.base64Decode (text.base64Encode raw) = some raw

/-- The answer of a node on the wire. -/
structure DigestOut where
  nodeID : Bytes
  height : UInt64
  term : UInt64 := 0
  digest : Bytes
  unix : Int64 := 0
  signature : Bytes
  cert : Bytes
  signed : Bool
  deriving DecidableEq

/-- A member to ask: this node, or the console of a peer. -/
structure LedgerMember where
  label : Bytes
  self : Bool := false
  host : Bytes := []
  deriving DecidableEq

/-- What a pass meets: this node's head and clock when it stamps the checkpoint, the members, its
head and clock when it is asked to sign, and what the requests to the peers bring. -/
structure Pass where
  stamped : HashChain
  stampedAt : Int64
  members : List LedgerMember
  own : HashChain
  ownAt : Int64
  reply : LedgerMember → Except Err DigestOut

/-- Why a member is reported: its request has failed, its head is another one, it does not sign, or
its answer does not decode. -/
inductive MemberWarning where
  | failed (err : Err)
  | headMismatch (height : UInt64)
  | noSigner
  | malformed
  deriving DecidableEq

def MemberWarning.isMismatch : MemberWarning → Bool
  | .headMismatch _ => true
  | _ => false

/-- What an answer that is taken for a signed one contributes. -/
structure Attestation where
  nodeID : Bytes
  sig : Bytes
  cert : Bytes
  deriving DecidableEq

/-- What a pass has collected. -/
structure Collected where
  sigs : List (Bytes × Bytes) := []
  certs : List Bytes := []
  signers : List Bytes := []
  warnings : List (Bytes × MemberWarning) := []
  diverged : Bool := false

inductive Warning where
  | member (label : Bytes) (reason : MemberWarning)
  | noAttestations
  | noPinnedKey
  deriving DecidableEq

structure Materials where
  height : UInt64
  digest : Bytes
  unix : Int64
  signers : List Bytes
  members : Nat
  quorumCert : Option Bytes
  nodeCerts : List Bytes
  caPub : Bytes
  warnings : List Warning
  deriving DecidableEq

/-- Why there are no materials: the node is not in a cluster, or the certificate could not be
aggregated or encoded. -/
inductive MaterialsErr where
  | notClustered
  | aggregate (err : Err)
  | encode (err : Err)
  deriving DecidableEq

/-- Sets the entry of a map. -/
def setSig (sigs : List (Bytes × Bytes)) (id sig : Bytes) : List (Bytes × Bytes) :=
  (sigs.filter fun entry => entry.1 ≠ id) ++ [(id, sig)]

section

variable {deps : Deps} {signing : Signing deps} (keys : Keys signing) (text : TextCodec)
  (order : MapOrder) (signer : Option (NodeSigner signing))

/-- The answer of `ledgerDigest`. -/
def digestOf (statement : Statement) : DigestOut where
  nodeID := statement.nodeID
  height := statement.checkpoint.height
  term := statement.checkpoint.term
  digest := text.hexEncode statement.checkpoint.digest
  unix := statement.checkpoint.unix
  signature := text.base64Encode statement.signature
  cert := text.base64Encode statement.cert
  signed := statement.signed

/-- The checkpoint of a pass. -/
def Pass.checkpoint (pass : Pass) : Checkpoint :=
  (LedgerService.attest signer pass.stamped pass.stampedAt none).checkpoint

def collectDigest (pass : Pass) (member : LedgerMember) : Except Err DigestOut :=
  if member.self then
    .ok { digestOf text (LedgerService.attest signer pass.own pass.ownAt
        (some (pass.checkpoint signer))) with
      term := 0
      unix := 0 }
  else pass.reply member

/-- What `ledgerMaterials` makes of an answer. -/
def judge (checkpoint : Checkpoint) : Except Err DigestOut → Except MemberWarning Attestation
  | .error err => .error (.failed err)
  | .ok answer =>
    if answer.signed = false then
      if answer.height ≠ checkpoint.height ∨ answer.digest ≠ text.hexEncode checkpoint.digest then
        .error (.headMismatch answer.height)
      else .error .noSigner
    else
      match text.base64Decode answer.signature, text.base64Decode answer.cert with
      | some sig, some cert =>
        if answer.nodeID = [] then .error .malformed else .ok ⟨answer.nodeID, sig, cert⟩
      | _, _ => .error .malformed

def Collected.add (collected : Collected) (label : Bytes) :
    Except MemberWarning Attestation → Collected
  | .error reason =>
    { collected with
      warnings := collected.warnings ++ [(label, reason)]
      diverged := collected.diverged || reason.isMismatch }
  | .ok attestation =>
    { collected with
      sigs := setSig collected.sigs attestation.nodeID attestation.sig
      certs := collected.certs ++ [attestation.cert]
      signers := collected.signers ++ [attestation.nodeID] }

/-- What this node makes of the answer of a member. -/
def Pass.verdict (pass : Pass) (member : LedgerMember) : Except MemberWarning Attestation :=
  judge text (pass.checkpoint signer) (collectDigest text signer pass member)

def Pass.collect (pass : Pass) : Collected :=
  pass.members.foldl
    (fun collected member => collected.add member.label (pass.verdict text signer member)) {}

/-- The second pass is made when a head has moved on in the first. -/
def lastPass (passes : Nat → Pass) : Pass :=
  if ((passes 0).collect text signer).diverged then passes 1 else passes 0

variable (signing) in
def encodeQuorum (qc : QuorumCertificate) : Except Err Bytes :=
  match signing.quorumCertificate.marshal qc with
  | .error err => .error err
  | .ok value => deps.pack value

/-- The quorum certificate of the signatures, if there are any. -/
def quorumOf (checkpoint : Checkpoint) (sigs : List (Bytes × Bytes)) :
    Except MaterialsErr (Option Bytes) :=
  if sigs.length = 0 then .ok none
  else
    match keys.buildQuorumCertificate order checkpoint sigs with
    | .error err => .error (.aggregate err)
    | .ok qc =>
      match encodeQuorum signing qc with
      | .error err => .error (.encode err)
      | .ok raw => .ok (some raw)

/-- What `ledgerMaterials` answers with, given the certificate. -/
def Pass.materials (pass : Pass) (pinned : Bytes) (quorum : Option Bytes) : Materials where
  height := (pass.checkpoint signer).height
  digest := text.hexEncode (pass.checkpoint signer).digest
  unix := (pass.checkpoint signer).unix
  signers := (pass.collect text signer).signers
  members := pass.members.length
  quorumCert := quorum.map text.base64Encode
  nodeCerts :=
    if quorum = none then [] else (pass.collect text signer).certs.map text.base64Encode
  caPub := if pinned = [] then [] else text.base64Encode pinned
  warnings := (pass.collect text signer).warnings.map
      (fun warning => .member warning.1 warning.2) ++
    (if quorum = none then [.noAttestations] else []) ++
    (if pinned = [] then [.noPinnedKey] else [])

def ledgerMaterials (clustered : Bool) (passes : Nat → Pass) (pinned : Bytes) :
    Except MaterialsErr Materials :=
  if clustered = false then .error .notClustered
  else
    let pass := lastPass text signer passes
    match quorumOf keys order (pass.checkpoint signer) (pass.collect text signer).sigs with
    | .error err => .error err
    | .ok quorum => .ok (pass.materials text signer pinned quorum)

variable (signing) in
/-- What a verifier finds that has the authority's key. -/
def Materials.verify (materials : Materials) (ca : Bytes) (threshold : Int) (now : Int64) :
    Option (Except QuorumErr Unit) :=
  match materials.quorumCert.bind text.base64Decode, materials.nodeCerts.mapM text.base64Decode with
  | some raw, some certs =>
    match decodeQuorum signing raw, decodeBundle signing (fun _ => none) certs with
    | .ok qc, .ok bundle => some (verifyQuorum signing ca qc bundle threshold now)
    | _, _ => none
  | _, _ => none

end

/-! ### What a pass collects -/

/-- The answer is one that is taken for signed. -/
def DigestOut.WellFormed (text : TextCodec) (answer : DigestOut) : Prop :=
  answer.signed = true ∧ (text.base64Decode answer.signature).isSome = true ∧
    (text.base64Decode answer.cert).isSome = true ∧ answer.nodeID ≠ []

/-- The answer carries a statement. -/
def DigestOut.Carries (text : TextCodec) (answer : DigestOut) (statement : Statement) : Prop :=
  answer.nodeID = statement.nodeID ∧ answer.signature = text.base64Encode statement.signature ∧
    answer.cert = text.base64Encode statement.cert ∧ answer.signed = statement.signed

section

variable {text : TextCodec} {checkpoint : Checkpoint}

theorem judge_eq_ok_iff {answer : Except Err DigestOut} {attestation : Attestation} :
    judge text checkpoint answer = .ok attestation ↔
      ∃ given, answer = .ok given ∧ given.signed = true ∧ given.nodeID ≠ [] ∧
        given.nodeID = attestation.nodeID ∧
        text.base64Decode given.signature = some attestation.sig ∧
        text.base64Decode given.cert = some attestation.cert := by
  cases answer with
  | error err => exact iff_of_false nofun nofun
  | ok given =>
    simp only [judge, Except.ok.injEq, exists_eq_left']
    obtain ⟨nodeID, sig, cert⟩ := attestation
    cases given.signed with
    | false => simp [ite_eq_iff]
    | true =>
      cases text.base64Decode given.signature with
      | none => simp
      | some decoded =>
        cases text.base64Decode given.cert with
        | none => simp
        | some decodedCert => by_cases unnamed : given.nodeID = [] <;> simp [unnamed]

theorem isOk_judge_iff {answer : Except Err DigestOut} :
    (∃ attestation, judge text checkpoint answer = .ok attestation) ↔
      ∃ given, answer = .ok given ∧ given.WellFormed text := by
  simp only [judge_eq_ok_iff, DigestOut.WellFormed, Option.isSome_iff_exists]
  constructor
  · rintro ⟨attestation, given, isGiven, signed, named, _, sig, cert⟩
    exact ⟨given, isGiven, signed, ⟨_, sig⟩, ⟨_, cert⟩, named⟩
  · rintro ⟨given, isGiven, signed, ⟨sig, isSig⟩, ⟨cert, isCert⟩, named⟩
    exact ⟨⟨given.nodeID, sig, cert⟩, given, isGiven, signed, named, rfl, isSig, isCert⟩

variable (verdict : LedgerMember → Except MemberWarning Attestation)

/-- The attestations among the verdicts on members. -/
def attestations (members : List LedgerMember) : List Attestation :=
  members.filterMap fun member => (verdict member).toOption

theorem mem_attestations {members : List LedgerMember} {attestation : Attestation} :
    attestation ∈ attestations verdict members ↔
      ∃ member ∈ members, verdict member = .ok attestation := by
  unfold attestations
  rw [List.mem_filterMap]
  refine exists_congr fun member => and_congr_right fun _ => ?_
  cases verdict member <;> simp [Except.toOption]

/-- The loop over the members keeps the certificates and signatures of the attestations, and the
reasons of the other verdicts. -/
theorem foldl_add (members : List LedgerMember) (start : Collected) :
    (members.foldl (fun collected member => collected.add member.label (verdict member))
        start).certs =
      start.certs ++ (attestations verdict members).map Attestation.cert ∧
    (members.foldl (fun collected member => collected.add member.label (verdict member))
        start).sigs =
      (attestations verdict members).foldl
        (fun sigs attestation => setSig sigs attestation.nodeID attestation.sig) start.sigs ∧
    ∀ label reason, (label, reason) ∈ (members.foldl
        (fun collected member => collected.add member.label (verdict member)) start).warnings ↔
      (label, reason) ∈ start.warnings ∨
        ∃ member ∈ members, member.label = label ∧ verdict member = .error reason := by
  induction members generalizing start with
  | nil => simp [attestations]
  | cons member rest inductionHypothesis =>
    obtain ⟨certs, sigs, warnings⟩ :=
      inductionHypothesis (start.add member.label (verdict member))
    rw [List.foldl_cons]
    cases isVerdict : verdict member with
    | error reason =>
      have skipped : attestations verdict (member :: rest) = attestations verdict rest :=
        List.filterMap_cons_none (by rw [isVerdict]; rfl)
      rw [isVerdict] at certs sigs warnings
      rw [skipped]
      refine ⟨certs, sigs, fun label other => (warnings label other).trans ?_⟩
      simp only [Collected.add, List.mem_append, List.mem_singleton, Prod.mk.injEq, or_assoc,
        List.exists_mem_cons_iff, isVerdict, Except.error.injEq]
      refine or_congr_right (or_congr_left ?_)
      constructor <;> rintro ⟨rfl, rfl⟩ <;> exact ⟨rfl, rfl⟩
    | ok attestation =>
      have kept : attestations verdict (member :: rest) =
          attestation :: attestations verdict rest :=
        List.filterMap_cons_some (by rw [isVerdict]; rfl)
      rw [isVerdict] at certs sigs warnings
      rw [kept]
      refine ⟨?_, sigs, fun label other => (warnings label other).trans ?_⟩
      · rw [certs, List.map_cons, Collected.add, List.append_assoc]
        rfl
      · simp only [Collected.add, List.exists_mem_cons_iff, isVerdict, reduceCtorEq, and_false,
          false_or]

/-- A map that is set for each attestation has an entry for each id, which is one of them. -/
theorem foldl_setSig (given : List Attestation) (start : List (Bytes × Bytes))
    (different : (start.map Prod.fst).Nodup) :
    ((given.foldl (fun sigs attestation => setSig sigs attestation.nodeID attestation.sig)
        start).map Prod.fst).Nodup ∧
      (∀ entry ∈ given.foldl
          (fun sigs attestation => setSig sigs attestation.nodeID attestation.sig) start,
        entry ∈ start ∨ ∃ attestation ∈ given, entry = (attestation.nodeID, attestation.sig)) ∧
      ∀ id, id ∈ (given.foldl
          (fun sigs attestation => setSig sigs attestation.nodeID attestation.sig)
            start).map Prod.fst ↔
        id ∈ start.map Prod.fst ∨ ∃ attestation ∈ given, attestation.nodeID = id := by
  induction given generalizing start with
  | nil => simp [different]
  | cons attestation rest inductionHypothesis =>
    have setDifferent : ((setSig start attestation.nodeID attestation.sig).map Prod.fst).Nodup := by
      rw [setSig, List.map_append, List.map_singleton, List.nodup_append_comm,
        List.singleton_append, List.nodup_cons]
      refine ⟨fun member => ?_, (List.filter_sublist.map Prod.fst).nodup different⟩
      obtain ⟨entry, isEntry, same⟩ := List.mem_map.mp member
      exact decide_eq_true_iff.mp (List.mem_filter.mp isEntry).2 same
    obtain ⟨distinct, entries, ids⟩ := inductionHypothesis _ setDifferent
    rw [List.foldl_cons]
    refine ⟨distinct, fun entry isEntry => ?_, fun id => (ids id).trans ?_⟩
    · rcases entries entry isEntry with before | ⟨other, later, isOther⟩
      · rcases List.mem_append.mp before with old | new
        · exact Or.inl (List.mem_of_mem_filter old)
        · exact Or.inr ⟨attestation, List.mem_cons_self, List.mem_singleton.mp new⟩
      · exact Or.inr ⟨other, List.mem_cons_of_mem _ later, isOther⟩
    · simp only [setSig, List.map_append, List.map_singleton, List.mem_append, List.mem_singleton,
        List.exists_mem_cons_iff, List.mem_map, List.mem_filter, decide_eq_true_eq]
      by_cases same : id = attestation.nodeID
      · simp [same]
      · grind

end

/-! ### Reading materials back -/

section

variable {deps : Deps} {signing : Signing deps} {text : TextCodec}

theorem mapM_base64Decode (textLawful : text.Lawful) (raws : List Bytes) :
    (raws.map text.base64Encode).mapM text.base64Decode = some raws := by
  induction raws with
  | nil => rfl
  | cons raw rest inductionHypothesis =>
    rw [List.map_cons, List.mapM_cons, textLawful, inductionHypothesis]
    rfl

theorem exists_encodeCert (trips : deps.RoundTrips signing.nodeCert) (cert : NodeCert) :
    ∃ raw, encodeCert signing cert = .ok raw ∧ decodeCert signing raw = .ok cert := by
  obtain ⟨value, raw, marshalled, packed, _, unpacked, unmarshalled⟩ := trips cert
  refine ⟨raw, ?_, ?_⟩
  · rw [encodeCert, marshalled]
    exact packed
  · rw [decodeCert, decodeStruct, unpacked]
    exact unmarshalled

theorem exists_encodeQuorum (trips : deps.RoundTrips signing.quorumCertificate)
    (qc : QuorumCertificate) :
    ∃ raw, encodeQuorum signing qc = .ok raw ∧ decodeQuorum signing raw = .ok qc := by
  obtain ⟨value, raw, marshalled, packed, _, unpacked, unmarshalled⟩ := trips qc
  refine ⟨raw, ?_, ?_⟩
  · rw [encodeQuorum, marshalled]
    exact packed
  · rw [decodeQuorum, decodeStruct, unpacked]
    exact unmarshalled

theorem decodeBundle_map {Item : Type} (raw : Item → Bytes) (cert : Item → NodeCert)
    (items : List Item) (decodes : ∀ item ∈ items, decodeCert signing (raw item) = .ok (cert item))
    (bundle : CertBundle) :
    decodeBundle signing bundle (items.map raw) =
      .ok ((items.map cert).foldl CertBundle.addCert bundle) := by
  induction items generalizing bundle with
  | nil => rfl
  | cons item rest inductionHypothesis =>
    rw [List.map_cons, decodeBundle, decodes item List.mem_cons_self]
    exact inductionHypothesis (fun other later => decodes other (List.mem_cons_of_mem _ later)) _

/-- A bundle of certificates of different ids has each of them. -/
theorem certBundle_of_mem {certs : List NodeCert} (different : (certs.map NodeCert.nodeID).Nodup)
    {cert : NodeCert} (member : cert ∈ certs) : certBundle certs cert.nodeID = some cert := by
  refine Tables.foldl_fill_of_mem (fun cert : NodeCert => some (cert.nodeID, some cert)) certs ?_
    (fun _ => none) member rfl
  refine (List.pairwise_map.mp different).imp fun {early late} differs key value other isEarly
    isLate => differs ?_
  rw [(Prod.mk.inj (Option.some.inj isEarly)).1, (Prod.mk.inj (Option.some.inj isLate)).1]

end

/-! ### Members that sign -/

section

variable {deps : Deps} {signing : Signing deps}

/-- A member that signs the checkpoint of a pass, with a key that the authority has certified. -/
structure CoSigns (keys : Keys signing) (text : TextCodec) (signer : Option (NodeSigner signing))
    (authority : keys.AuthorityKey) (now : Int64) (pass : Pass) (member : LedgerMember)
    (cosigner : NodeSigner signing) : Prop where
  answers : ∃ answer, collectDigest text signer pass member = .ok answer ∧
    answer.Carries text (LedgerService.coSign (some cosigner) (pass.checkpoint signer))
  issued : ∃ key pop, cosigner.pub = keys.publicKey key ∧ cosigner.sign = keys.blsSign key ∧
    keys.issue authority cosigner.cert.nodeID (keys.publicKey key) pop cosigner.cert.notAfter =
      .ok cosigner.cert
  current : cosigner.cert.notAfter = 0 ∨ now = 0 ∨ now ≤ cosigner.cert.notAfter

/-- A node with the head of a checkpoint answers with its signature on it. -/
theorem carries_attest (text : TextCodec) (cosigner : NodeSigner signing) (head : HashChain)
    (clock : Int64) (checkpoint : Checkpoint) (height : checkpoint.height = head.index)
    (digest : checkpoint.digest = head.digest.bytes) :
    (digestOf text (LedgerService.attest (some cosigner) head clock (some checkpoint))).Carries text
      (LedgerService.coSign (some cosigner) checkpoint) := by
  have same : ¬ (checkpoint.height ≠ head.index ∨ checkpoint.digest ≠ head.digest.bytes) :=
    not_or.mpr ⟨not_not_intro height, not_not_intro digest⟩
  simp only [LedgerService.attest, if_neg same]
  exact ⟨rfl, rfl, rfl, rfl⟩

/-- This node signs its own checkpoint when its head has not moved on. -/
theorem carries_own (text : TextCodec) (cosigner : NodeSigner signing) {pass : Pass}
    (still : pass.own = pass.stamped) {member : LedgerMember} (isSelf : member.self = true) :
    ∃ answer, collectDigest text (some cosigner) pass member = .ok answer ∧
      answer.Carries text
        (LedgerService.coSign (some cosigner) (pass.checkpoint (some cosigner))) := by
  obtain ⟨height, digest⟩ := attest_checkpoint (some cosigner) pass.stamped pass.stampedAt none
  refine ⟨_, if_pos isSelf, ?_⟩
  exact carries_attest text cosigner pass.own pass.ownAt (pass.checkpoint (some cosigner))
    (still ▸ height) (still ▸ digest)

/-- What the statement of a member contributes. -/
def attestationOf (statement : Statement) : Attestation :=
  ⟨statement.nodeID, statement.signature, statement.cert⟩

variable {keys : Keys signing} {text : TextCodec} {signer : Option (NodeSigner signing)}
  {authority : keys.AuthorityKey} {now : Int64} {pass : Pass} {member : LedgerMember}
  {cosigner : NodeSigner signing}

/-- The answer of a member that signs is taken, unless its id is empty. -/
theorem verdict_cosigner (textLawful : text.Lawful)
    (cosigns : CoSigns keys text signer authority now pass member cosigner)
    {attestation : Attestation} :
    pass.verdict text signer member = .ok attestation ↔ cosigner.cert.nodeID ≠ [] ∧
      attestation =
        attestationOf (LedgerService.coSign (some cosigner) (pass.checkpoint signer)) := by
  obtain ⟨nodeID, sig, cert⟩ := attestation
  obtain ⟨answer, isAnswer, isID, isSignature, isCert, isSigned⟩ := cosigns.answers
  rw [Pass.verdict, judge_eq_ok_iff, isAnswer]
  simp only [Except.ok.injEq, exists_eq_left', isID, isSignature, isCert, isSigned, textLawful _,
    Option.some.injEq]
  constructor
  · rintro ⟨_, named, rfl, rfl, rfl⟩
    exact ⟨named, rfl⟩
  · rintro ⟨named, isAttestation⟩
    obtain ⟨isID, isSig, isCert⟩ := Attestation.mk.inj isAttestation
    exact ⟨rfl, named, isID.symm, isSig.symm, isCert.symm⟩

variable {honest : LedgerMember → Option (NodeSigner signing)} (textLawful : text.Lawful)
  (cosigns : ∀ member ∈ pass.members, ∀ cosigner, honest member = some cosigner →
    CoSigns keys text signer authority now pass member cosigner)

variable (text signer pass) in
/-- What a pass has collected, member by member. -/
theorem collect_spec :
    (pass.collect text signer).certs =
        (attestations (pass.verdict text signer) pass.members).map Attestation.cert ∧
      ((pass.collect text signer).sigs.map Prod.fst).Nodup ∧
      (∀ entry ∈ (pass.collect text signer).sigs,
        ∃ attestation ∈ attestations (pass.verdict text signer) pass.members,
          entry = (attestation.nodeID, attestation.sig)) ∧
      (∀ id, id ∈ (pass.collect text signer).sigs.map Prod.fst ↔
        ∃ attestation ∈ attestations (pass.verdict text signer) pass.members,
          attestation.nodeID = id) ∧
      ∀ label reason, (label, reason) ∈ (pass.collect text signer).warnings ↔
        ∃ member ∈ pass.members, member.label = label ∧
          pass.verdict text signer member = .error reason := by
  obtain ⟨certs, sigs, warnings⟩ := foldl_add (pass.verdict text signer) pass.members {}
  obtain ⟨different, entries, ids⟩ :=
    foldl_setSig (attestations (pass.verdict text signer) pass.members) [] List.nodup_nil
  rw [Pass.collect, certs, sigs]
  refine ⟨rfl, different, fun entry isEntry => ?_, fun id => ?_, fun label reason => ?_⟩
  · exact (entries entry isEntry).resolve_left List.not_mem_nil
  · exact (ids id).trans (or_iff_right List.not_mem_nil)
  · exact (warnings label reason).trans (or_iff_right List.not_mem_nil)

include textLawful cosigns in
/-- When no other answer is taken, the attestations are those of the members that sign. -/
theorem attestations_honest
    (named : ∀ cosigner ∈ pass.members.filterMap honest, cosigner.cert.nodeID ≠ [])
    (others : ∀ member ∈ pass.members, honest member = none → ∀ attestation,
      pass.verdict text signer member ≠ .ok attestation) :
    attestations (pass.verdict text signer) pass.members =
      (pass.members.filterMap honest).map fun cosigner =>
        attestationOf (LedgerService.coSign (some cosigner) (pass.checkpoint signer)) := by
  rw [attestations, List.map_filterMap]
  refine List.filterMap_congr fun member isMember => ?_
  cases isHonest : honest member with
  | none =>
    cases isVerdict : pass.verdict text signer member with
    | error reason => rfl
    | ok attestation => exact absurd isVerdict (others member isMember isHonest attestation)
  | some cosigner =>
    have isNamed := named cosigner (List.mem_filterMap.mpr ⟨member, isMember, isHonest⟩)
    rw [(verdict_cosigner textLawful (cosigns member isMember cosigner isHonest)).mpr
      ⟨isNamed, rfl⟩]
    rfl

variable (lawful : keys.Lawful) (certTrips : deps.RoundTrips signing.nodeCert)
  (quorumTrips : deps.RoundTrips signing.quorumCertificate) {order : MapOrder}
  {passes : Nat → Pass} (isLast : lastPass text signer passes = pass) {pinned : Bytes}

theorem quorumOf_eq_some_iff {checkpoint : Checkpoint} {sigs : List (Bytes × Bytes)} {raw : Bytes} :
    quorumOf keys order checkpoint sigs = .ok (some raw) ↔ sigs ≠ [] ∧
      ∃ qc, keys.buildQuorumCertificate order checkpoint sigs = .ok qc ∧
        encodeQuorum signing qc = .ok raw := by
  unfold quorumOf
  by_cases empty : sigs = []
  · rw [if_pos (List.length_eq_zero_iff.mpr empty)]
    exact iff_of_false nofun fun facts => facts.1 empty
  · rw [if_neg (mt List.length_eq_zero_iff.mp empty)]
    cases keys.buildQuorumCertificate order checkpoint sigs with
    | error err => simp
    | ok qc => cases isRaw : encodeQuorum signing qc <;> simp [empty, isRaw]

theorem mem_warnings {quorum : Option Bytes} {label : Bytes} {reason : MemberWarning} :
    .member label reason ∈ (pass.materials text signer pinned quorum).warnings ↔
      (label, reason) ∈ (pass.collect text signer).warnings := by
  have notGeneral :
      .member label reason ∉ (if quorum = none then [Warning.noAttestations] else []) ∧
      .member label reason ∉ (if pinned = [] then [Warning.noPinnedKey] else []) := by
    constructor <;> split <;> simp
  rw [Pass.materials, List.mem_append, List.mem_append, or_iff_left notGeneral.2,
    or_iff_left notGeneral.1, List.mem_map]
  constructor
  · rintro ⟨warning, isWarning, same⟩
    obtain ⟨rfl, rfl⟩ := Warning.member.inj same
    exact isWarning
  · intro isWarning
    exact ⟨_, isWarning, rfl⟩

include textLawful in
/-- A verifier reads the certificate and the node certificates back. -/
theorem verify_materials_iff {quorum : Option Bytes} {ca : Bytes} {threshold : Int} :
    (pass.materials text signer pinned quorum).verify signing text ca threshold now =
        some (.ok ()) ↔
      ∃ raw qc bundle, quorum = some raw ∧ decodeQuorum signing raw = .ok qc ∧
        decodeBundle signing (fun _ => none) (pass.collect text signer).certs = .ok bundle ∧
        verifyQuorum signing ca qc bundle threshold now = .ok () := by
  unfold Materials.verify
  cases quorum with
  | none => simp [Pass.materials]
  | some raw =>
    have readCert : (pass.materials text signer pinned (some raw)).quorumCert.bind
        text.base64Decode = some raw := textLawful raw
    have readCerts : (pass.materials text signer pinned (some raw)).nodeCerts.mapM
        text.base64Decode = some (pass.collect text signer).certs := mapM_base64Decode textLawful _
    rw [readCert, readCerts]
    cases isQuorum : decodeQuorum signing raw with
    | error err => simp [isQuorum]
    | ok qc =>
      cases isBundle :
          decodeBundle signing (fun _ => none) (pass.collect text signer).certs with
      | error err => simp [isQuorum, isBundle]
      | ok bundle => simp [isQuorum, isBundle]

/-- The materials prove a quorum of the members that sign, and report all others. -/
def Proves (keys : Keys signing) (text : TextCodec) (order : MapOrder)
    (signer : Option (NodeSigner signing)) (authority : keys.AuthorityKey) (now : Int64)
    (passes : Nat → Pass) (pinned : Bytes) (honest : LedgerMember → Option (NodeSigner signing)) :
    Prop :=
  ∃ materials, ledgerMaterials keys text order signer true passes pinned = .ok materials ∧
    materials.verify signing text (keys.authorityPublic authority)
      ((lastPass text signer passes).members.filterMap honest).length now = some (.ok ()) ∧
    ∀ member ∈ (lastPass text signer passes).members, honest member = none →
      ∃ reason, .member member.label reason ∈ materials.warnings

/-- The members that sign have ids of their own, and no other member's answer is taken. -/
structure Unspoilt (text : TextCodec) (signer : Option (NodeSigner signing)) (pass : Pass)
    (honest : LedgerMember → Option (NodeSigner signing)) : Prop where
  different : ((pass.members.filterMap honest).map fun cosigner => cosigner.cert.nodeID).Nodup
  named : ∀ cosigner ∈ pass.members.filterMap honest, cosigner.cert.nodeID ≠ []
  others : ∀ member ∈ pass.members, honest member = none → ∀ answer,
    collectDigest text signer pass member = .ok answer → ¬ answer.WellFormed text

theorem verdict_ok_iff : (∃ attestation, pass.verdict text signer member = .ok attestation) ↔
    ∃ answer, collectDigest text signer pass member = .ok answer ∧ answer.WellFormed text :=
  isOk_judge_iff

theorem verdict_of_unspoilt (unspoilt : Unspoilt text signer pass honest) :
    ∀ member ∈ pass.members, honest member = none → ∀ attestation,
      pass.verdict text signer member ≠ .ok attestation := by
  intro member isMember other attestation isVerdict
  obtain ⟨answer, isAnswer, wellFormed⟩ := verdict_ok_iff.mp ⟨attestation, isVerdict⟩
  exact unspoilt.others member isMember other answer isAnswer wellFormed

include textLawful cosigns in
/-- The signatures that are collected are those of the members that sign. -/
theorem sigs_of_unspoilt (unspoilt : Unspoilt text signer pass honest) :
    ((pass.collect text signer).sigs.map Prod.fst).Perm
        ((pass.members.filterMap honest).map fun cosigner => cosigner.cert.nodeID) ∧
      ∀ entry ∈ (pass.collect text signer).sigs, ∃ cosigner ∈ pass.members.filterMap honest,
        entry = (cosigner.cert.nodeID, cosigner.signCheckpoint (pass.checkpoint signer)) := by
  obtain ⟨_, different, entries, ids, _⟩ := collect_spec text signer pass
  rw [attestations_honest textLawful cosigns unspoilt.named (verdict_of_unspoilt unspoilt)]
    at entries ids
  refine ⟨(List.perm_ext_iff_of_nodup different unspoilt.different).mpr fun id => ?_,
    fun entry isEntry => ?_⟩
  · rw [ids, List.mem_map]
    constructor
    · rintro ⟨attestation, isAttestation, rfl⟩
      obtain ⟨cosigner, isCosigner, rfl⟩ := List.mem_map.mp isAttestation
      exact ⟨cosigner, isCosigner, rfl⟩
    · rintro ⟨cosigner, isCosigner, rfl⟩
      exact ⟨_, List.mem_map_of_mem isCosigner, rfl⟩
  · obtain ⟨attestation, isAttestation, rfl⟩ := entries entry isEntry
    obtain ⟨cosigner, isCosigner, rfl⟩ := List.mem_map.mp isAttestation
    exact ⟨cosigner, isCosigner, rfl⟩

include textLawful cosigns certTrips in
/-- The certificates that are collected are those of the members that sign. -/
theorem bundle_of_unspoilt (unspoilt : Unspoilt text signer pass honest) :
    ∃ bundle, decodeBundle signing (fun _ => none) (pass.collect text signer).certs = .ok bundle ∧
      ∀ cosigner ∈ pass.members.filterMap honest,
        bundle cosigner.cert.nodeID = some cosigner.cert := by
  obtain ⟨certs, _⟩ := collect_spec text signer pass
  rw [attestations_honest textLawful cosigns unspoilt.named (verdict_of_unspoilt unspoilt),
    List.map_map] at certs
  have decodes : ∀ cosigner ∈ pass.members.filterMap honest,
      decodeCert signing ((encodeCert signing cosigner.cert).toOption.getD []) =
        .ok cosigner.cert := by
    intro cosigner _
    obtain ⟨raw, encoded, decoded⟩ := exists_encodeCert certTrips cosigner.cert
    rw [encoded]
    exact decoded
  refine ⟨_, (congrArg _ certs).trans (decodeBundle_map _ NodeSigner.cert _ decodes _), ?_⟩
  intro cosigner isCosigner
  have different := unspoilt.different
  rw [show (fun cosigner : NodeSigner signing => cosigner.cert.nodeID) =
    NodeCert.nodeID ∘ NodeSigner.cert from rfl, ← List.map_map] at different
  exact certBundle_of_mem different (List.mem_map_of_mem isCosigner)

/-- The keys of members that sign under ids of their own can be told by the id. -/
theorem exists_pubOf (unspoilt : Unspoilt text signer pass honest)
    (someone : pass.members.filterMap honest ≠ []) :
    ∃ pubOf : Bytes → signing.PublicKey,
      ∀ cosigner ∈ pass.members.filterMap honest, pubOf cosigner.cert.nodeID = cosigner.pub := by
  obtain ⟨first, _⟩ := List.exists_mem_of_ne_nil _ someone
  have : Nonempty signing.PublicKey := ⟨first.pub⟩
  have different : (((pass.members.filterMap honest).map fun cosigner =>
      (cosigner.cert.nodeID, cosigner)).map Prod.fst).Nodup := by
    rw [List.map_map]
    exact unspoilt.different
  obtain ⟨pubOf, isPub⟩ := exists_keyOf NodeSigner.pub different
  exact ⟨pubOf, fun cosigner isCosigner =>
    isPub _ (List.mem_map.mpr ⟨cosigner, isCosigner, rfl⟩)⟩

/-- Members that do not sign are reported. -/
theorem reported_of_unspoilt (unspoilt : Unspoilt text signer pass honest)
    {quorum : Option Bytes} {member : LedgerMember} (isMember : member ∈ pass.members)
    (other : honest member = none) :
    ∃ reason, .member member.label reason ∈
      (pass.materials text signer pinned quorum).warnings := by
  cases isVerdict : pass.verdict text signer member with
  | error reason =>
    refine ⟨reason, mem_warnings.mpr ?_⟩
    exact ((collect_spec text signer pass).2.2.2.2 _ _).mpr ⟨member, isMember, rfl, isVerdict⟩
  | ok attestation =>
    exact absurd isVerdict (verdict_of_unspoilt unspoilt member isMember other attestation)

include textLawful cosigns lawful certTrips quorumTrips isLast in
/-- Materials of members that sign under ids of their own, with no other answer taken. -/
theorem proves_of_unspoilt (unspoilt : Unspoilt text signer pass honest)
    (someone : pass.members.filterMap honest ≠ []) :
    Proves keys text order signer authority now passes pinned honest := by
  obtain ⟨keysOf, entries⟩ := sigs_of_unspoilt textLawful cosigns unspoilt
  obtain ⟨bundle, isBundle, found⟩ := bundle_of_unspoilt textLawful cosigns certTrips unspoilt
  have cosignsOf : ∀ cosigner ∈ pass.members.filterMap honest,
      ∃ member, CoSigns keys text signer authority now pass member cosigner := by
    intro cosigner isCosigner
    obtain ⟨member, isMember, isHonest⟩ := List.mem_filterMap.mp isCosigner
    exact ⟨member, cosigns member isMember cosigner isHonest⟩
  obtain ⟨pubOf, isPub⟩ := exists_pubOf unspoilt someone
  have signed : (pass.collect text signer).sigs ≠ [] := by
    intro none
    rw [none] at keysOf
    exact someone (List.map_eq_nil_iff.mp keysOf.symm.eq_nil)
  have valid : ∀ entry ∈ (pass.collect text signer).sigs, keys.blsVerify (pubOf entry.1)
      (signMessage (pass.checkpoint signer) entry.1) entry.2 = true := by
    intro entry isEntry
    obtain ⟨cosigner, isCosigner, rfl⟩ := entries entry isEntry
    obtain ⟨_, facts⟩ := cosignsOf cosigner isCosigner
    obtain ⟨key, _, isKey, signs, _⟩ := facts.issued
    rw [isPub cosigner isCosigner, isKey, NodeSigner.signCheckpoint, signs]
    exact lawful.signs _ _
  obtain ⟨ids, agg, built, sorted, attests⟩ := build_attests lawful order signed valid
  obtain ⟨raw, encoded, decoded⟩ := exists_encodeQuorum quorumTrips ⟨_, ids, agg⟩
  have isQuorum : quorumOf keys order (pass.checkpoint signer) (pass.collect text signer).sigs =
      .ok (some raw) := quorumOf_eq_some_iff.mpr ⟨signed, _, built, encoded⟩
  have all := sorted.trans keysOf
  refine ⟨pass.materials text signer pinned (some raw), ?_, ?_, ?_⟩
  · rw [ledgerMaterials, if_neg Bool.noConfusion]
    simp only [isLast, isQuorum]
  · refine (verify_materials_iff textLawful).mpr ⟨raw, _, bundle, rfl, decoded, isBundle, ?_⟩
    refine verifyQuorum_attested lawful attests (all.nodup_iff.mpr unspoilt.different) ?_ ?_ ?_
    · rintro rfl
      exact someone (List.map_eq_nil_iff.mp all.symm.eq_nil)
    · rw [isLast, all.length_eq, List.length_map]
    · intro id isId
      obtain ⟨cosigner, isCosigner, rfl⟩ := List.mem_map.mp (all.mem_iff.mp isId)
      obtain ⟨_, facts⟩ := cosignsOf cosigner isCosigner
      obtain ⟨key, _, isKey, _, issued⟩ := facts.issued
      refine ⟨cosigner.cert, found cosigner isCosigner, ?_⟩
      rw [isPub cosigner isCosigner, isKey]
      exact verify_of_issue lawful issued facts.current
  · intro member isMember other
    exact reported_of_unspoilt unspoilt (isLast ▸ isMember) other

include textLawful cosigns quorumTrips isLast in
/-- Materials that prove a quorum of the members that sign and report the others have taken no
other answer, and the members that sign have ids of their own. -/
theorem unspoilt_of_proves (labels : (pass.members.map LedgerMember.label).Nodup)
    (proves : Proves keys text order signer authority now passes pinned honest) :
    Unspoilt text signer pass honest := by
  obtain ⟨materials, isMaterials, verified, reported⟩ := proves
  obtain ⟨_, keysDifferent, _, ids, warnings⟩ := collect_spec text signer pass
  rw [ledgerMaterials, if_neg Bool.noConfusion] at isMaterials
  simp only [isLast] at isMaterials verified reported
  cases isQuorum : quorumOf keys order (pass.checkpoint signer)
      (pass.collect text signer).sigs with
  | error err =>
    rw [isQuorum] at isMaterials
    cases isMaterials
  | ok quorum =>
    rw [isQuorum] at isMaterials
    obtain rfl := Except.ok.inj isMaterials
    -- a member that is reported was not taken: the label is its own
    have others : ∀ member ∈ pass.members, honest member = none → ∀ attestation,
        pass.verdict text signer member ≠ .ok attestation := by
      intro member isMember other attestation taken
      obtain ⟨reason, isReported⟩ := reported member isMember other
      obtain ⟨named, isNamed, sameLabel, isVerdict⟩ :=
        (warnings _ _).mp (mem_warnings.mp isReported)
      rw [List.inj_on_of_nodup_map labels isNamed isMember sameLabel, taken] at isVerdict
      cases isVerdict
    -- what is taken comes from a member that signs, under an id that is not empty
    have taken : ∀ id ∈ (pass.collect text signer).sigs.map Prod.fst, id ≠ [] ∧
        ∃ cosigner ∈ pass.members.filterMap honest, cosigner.cert.nodeID = id := by
      intro id isId
      obtain ⟨attestation, isAttestation, rfl⟩ := (ids id).mp isId
      obtain ⟨member, isMember, isVerdict⟩ := (mem_attestations _).mp isAttestation
      cases isHonest : honest member with
      | none => exact absurd isVerdict (others member isMember isHonest attestation)
      | some cosigner =>
        obtain ⟨named, rfl⟩ := (verdict_cosigner textLawful
          (cosigns member isMember cosigner isHonest)).mp isVerdict
        exact ⟨named, cosigner, List.mem_filterMap.mpr ⟨member, isMember, isHonest⟩, rfl⟩
    obtain ⟨raw, qc, bundle, rfl, decoded, _, accepted⟩ :=
      (verify_materials_iff textLawful).mp verified
    obtain ⟨_, builtQc, built, encoded⟩ := quorumOf_eq_some_iff.mp isQuorum
    obtain ⟨sameRaw, encodes, decodes⟩ := exists_encodeQuorum quorumTrips builtQc
    obtain rfl := Except.ok.inj (encoded.symm.trans encodes)
    obtain rfl := Except.ok.inj (decoded.symm.trans decodes)
    have enough := (aggregate_of_verifyQuorum accepted).1
    rw [(signers_of_build built).length_eq, Int.ofNat_le] at enough
    have within : (pass.collect text signer).sigs.map Prod.fst ⊆
        (pass.members.filterMap honest).map fun cosigner => cosigner.cert.nodeID := by
      intro id isId
      exact List.mem_map.mpr (taken id isId).2
    have all := (List.subperm_of_subset keysDifferent within).perm_of_length_le
      (by rwa [List.length_map])
    refine ⟨all.nodup_iff.mp keysDifferent, fun cosigner isCosigner => ?_, ?_⟩
    · exact (taken _ (all.mem_iff.mpr (List.mem_map.mpr ⟨cosigner, isCosigner, rfl⟩))).1
    · intro member isMember other answer isAnswer wellFormed
      obtain ⟨attestation, isVerdict⟩ := verdict_ok_iff.mpr ⟨answer, isAnswer, wellFormed⟩
      exact others member isMember other attestation isVerdict

/-- The materials prove a quorum of the members that sign, and report all others, exactly when the
members that sign have ids of their own and no other member's answer in the last pass is taken for
a signed one. -/
theorem materials_prove_iff (lawful : keys.Lawful) (textLawful : text.Lawful)
    (certTrips : deps.RoundTrips signing.nodeCert)
    (quorumTrips : deps.RoundTrips signing.quorumCertificate) (order : MapOrder)
    (passes : Nat → Pass) (pinned : Bytes) (isLast : lastPass text signer passes = pass)
    (labels : (pass.members.map LedgerMember.label).Nodup)
    (cosigns : ∀ member ∈ pass.members, ∀ cosigner, honest member = some cosigner →
      CoSigns keys text signer authority now pass member cosigner)
    (someone : pass.members.filterMap honest ≠ []) :
    Proves keys text order signer authority now passes pinned honest ↔
      Unspoilt text signer pass honest :=
  ⟨unspoilt_of_proves textLawful cosigns quorumTrips isLast labels,
    fun unspoilt => proves_of_unspoilt textLawful cosigns lawful certTrips quorumTrips isLast
      unspoilt someone⟩

end

/-! ### Two members, one of them faulty -/

def plainText : TextCodec := ⟨id, some, id⟩

/-- The identity of a node with a certificate of the sample authority. -/
def plainSigner (member : Bytes × Bytes) : NodeSigner plainSigning where
  pub := member.2
  sign := plainKeys.blsSign member.2
  cert := plainCert member
  certifies := rfl

/-- A pass of a node with the head of the sample log, which asks itself and a peer. -/
def plainPass (reply : Except Err DigestOut) : Pass where
  stamped := headOf Reference.sampleLog
  stampedAt := 40
  members := [{ label := str "node0", self := true }, { label := str "node1", host := str "peer" }]
  own := headOf Reference.sampleLog
  ownAt := 41
  reply _ := reply

/-- This node signs. -/
def plainHonest (member : LedgerMember) : Option (NodeSigner plainSigning) :=
  if member.self then some (plainSigner (str "node0", str "key0")) else none

theorem plainPass_cosigns (reply : Except Err DigestOut) (member : LedgerMember)
    (_ : member ∈ (plainPass reply).members) (cosigner : NodeSigner plainSigning)
    (isHonest : plainHonest member = some cosigner) :
    CoSigns plainKeys plainText (some (plainSigner (str "node0", str "key0"))) sampleAuthority 50
      (plainPass reply) member cosigner := by
  unfold plainHonest at isHonest
  split at isHonest
  case isFalse => cases isHonest
  case isTrue isSelf =>
    obtain rfl := Option.some.inj isHonest
    exact ⟨carries_own plainText _ rfl isSelf,
      ⟨str "key0", _, rfl, rfl, plainKeys_issue (str "node0", str "key0")⟩,
      Or.inr (Or.inr (by decide))⟩

theorem plainPass_last (reply : Except Err DigestOut) :
    lastPass plainText (some (plainSigner (str "node0", str "key0")))
      (fun _ => plainPass reply) = plainPass reply := by
  unfold lastPass
  split <;> rfl

/-- The peer cannot be reached: the materials prove a quorum of one and say so. -/
theorem materials_prove_single :
    Proves plainKeys plainText PolicyService.insertionOrder
      (some (plainSigner (str "node0", str "key0"))) sampleAuthority 50
      (fun _ => plainPass (.error (.external "timeout"))) sampleAuthority plainHonest := by
  refine (materials_prove_iff plainKeys_lawful (fun _ => rfl) (Reference.codec_roundTrips _)
    (Reference.codec_roundTrips _) PolicyService.insertionOrder
    (fun _ => plainPass (.error (.external "timeout"))) sampleAuthority (plainPass_last _)
    (by decide) (plainPass_cosigns _) (List.cons_ne_nil _ _)).mpr ?_
  refine ⟨List.nodup_singleton _, fun cosigner isCosigner => ?_, ?_⟩
  · rw [List.mem_singleton.mp isCosigner]
    exact List.cons_ne_nil _ _
  · intro member _ other answer isAnswer
    have notSelf : ¬ member.self = true := fun isSelf => by
      rw [plainHonest, if_pos isSelf] at other
      cases other
    rw [collectDigest, if_neg notSelf] at isAnswer
    cases isAnswer

/-- An answer that says it is signed, with the peer's certificate and a text for a signature. -/
def forgedAnswer : DigestOut where
  nodeID := str "node1"
  height := (headOf Reference.sampleLog).index
  digest := (headOf Reference.sampleLog).digest.bytes
  signature := str "forged"
  cert := packStruct plainSigning.nodeCert (plainCert (str "node1", str "key1"))
  signed := true

/-- The answer spoils the certificate of the node that signs: it is not accepted with threshold one,
and no warning says why. -/
theorem forged_answer_spoils :
    (∀ member ∈ (plainPass (.ok forgedAnswer)).members, ∀ cosigner,
      plainHonest member = some cosigner →
        CoSigns plainKeys plainText (some (plainSigner (str "node0", str "key0"))) sampleAuthority
          50 (plainPass (.ok forgedAnswer)) member cosigner) ∧
      (ledgerMaterials plainKeys plainText PolicyService.insertionOrder
          (some (plainSigner (str "node0", str "key0"))) true
          (fun _ => plainPass (.ok forgedAnswer)) sampleAuthority).toOption.map
        (fun materials => (materials.verify plainSigning plainText sampleAuthority 1 50,
          materials.warnings)) = some (some (.error .aggregateInvalid), []) ∧
      ¬ Proves plainKeys plainText PolicyService.insertionOrder
        (some (plainSigner (str "node0", str "key0"))) sampleAuthority 50
        (fun _ => plainPass (.ok forgedAnswer)) sampleAuthority plainHonest := by
  have spoilt : (ledgerMaterials plainKeys plainText PolicyService.insertionOrder
      (some (plainSigner (str "node0", str "key0"))) true
      (fun _ => plainPass (.ok forgedAnswer)) sampleAuthority).toOption.map
      (fun materials => (materials.verify plainSigning plainText sampleAuthority 1 50,
        materials.warnings)) = some (some (.error .aggregateInvalid), []) := by
    decide +kernel
  refine ⟨plainPass_cosigns _, spoilt, ?_⟩
  rintro ⟨materials, isMaterials, verified, _⟩
  rw [plainPass_last] at verified
  rw [isMaterials] at spoilt
  have rejected : materials.verify plainSigning plainText sampleAuthority 1 50 =
      some (.error .aggregateInvalid) := (Prod.mk.inj (Option.some.inj spoilt)).1
  exact absurd (verified.symm.trans rejected) (by simp)

end Console

end ConsensusDB
