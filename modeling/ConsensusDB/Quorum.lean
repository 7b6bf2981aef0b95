/-
This file is the certificate side of `pkg/ledger`: `ca.go`, `checkpoint.go` and
`verify.go`. A node certificate binds a node id to a signing key under the
signature of the authority; a quorum certificate is a checkpoint of the chain
with the aggregate signature of its signers.

The signature schemes and the codecs of the two certificates belong to other
modules, so they are fields of a structure, as the other third-party functions
are.
-/

import Mathlib.Data.List.Forall2
import ConsensusDB.Ledger

namespace ConsensusDB

open Wire

/-! ### Certificates -/

/-- The signed statement of the chain head at a height. -/
structure Checkpoint where
  height : UInt64
  term : UInt64
  digest : Bytes
  unix : Int64
  deriving DecidableEq

def Checkpoint.bytes (checkpoint : Checkpoint) : Bytes :=
  putUint64 checkpoint.height ++ putUint64 checkpoint.term ++ checkpoint.digest ++
    putUint64 checkpoint.unix.toUInt64

structure QuorumCertificate where
  checkpoint : Checkpoint
  signers : List Bytes
  aggSig : Bytes
  deriving DecidableEq

structure NodeCert where
  nodeID : Bytes
  publicKey : Bytes
  notAfter : Int64
  caSig : Bytes
  deriving DecidableEq

def domainCert : Bytes := str "cdb/ledger/nodecert/v1"

def domainCkpt : Bytes := str "cdb/ledger/checkpoint/v1"

/-- The bytes the authority signs. -/
def certBody (nodeID pub : Bytes) (notAfter : Int64) : Bytes :=
  domainCert ++ [0] ++ nodeID ++ [0] ++ pub ++ putUint64 notAfter.toUInt64

/-- The bytes a node signs to attest a checkpoint. -/
def signMessage (checkpoint : Checkpoint) (nodeID : Bytes) : Bytes :=
  domainCkpt ++ [0] ++ checkpoint.bytes ++ [0] ++ nodeID

/-- The functions of other modules: verification of an authority signature, parsing, validation
and aggregate verification of node keys, and the codecs of the two certificates. -/
structure Signing (deps : Deps) where
  ed25519Verify : Bytes → Bytes → Bytes → Bool
  PublicKey : Type
  unmarshalPublicKey : Bytes → Except Err PublicKey
  validate : PublicKey → Bool
  blsVerifyAggregate : List PublicKey → List Bytes → Bytes → Bool
  quorumCertificate : StructCodec deps.Value QuorumCertificate
  nodeCert : StructCodec deps.Value NodeCert

/-- Why a node certificate is refused: it has expired, it is not signed by the authority, or its
key is not one. -/
inductive CertErr where
  | expired
  | notSigned
  | invalidKey (err : Err)
  deriving DecidableEq

/-- Why a quorum certificate is refused: no signer, fewer signers than the threshold, a signer
twice, a signer without a certificate, a signer whose certificate is refused, or an aggregate
signature that does not verify. -/
inductive QuorumErr where
  | empty
  | quorumNotMet (signers : Nat) (threshold : Int)
  | duplicateSigner (id : Bytes)
  | noCert (id : Bytes)
  | signer (id : Bytes) (err : CertErr)
  | aggregateInvalid
  deriving DecidableEq

section

variable {deps : Deps} (signing : Signing deps)

def parseCAPublicKey (data : Bytes) : Except Err Bytes :=
  if data.length ≠ 32 then .error (.text "ledger: CA public key must be 32 bytes") else .ok data

def parseNodePublicKey (data : Bytes) : Except Err signing.PublicKey :=
  match signing.unmarshalPublicKey data with
  | .error err => .error err
  | .ok pub =>
    if signing.validate pub then .ok pub else .error (.text "ledger: invalid node public key")

/-- Unpacks and unmarshals a certificate. -/
def decodeStruct {Struct : Type} (codec : StructCodec deps.Value Struct) (raw : Bytes) :
    Except Err Struct :=
  match deps.unpack raw with
  | .error err => .error err
  | .ok value => codec.unmarshal value

def decodeQuorum (raw : Bytes) : Except Err QuorumCertificate :=
  decodeStruct signing.quorumCertificate raw

def decodeCert (raw : Bytes) : Except Err NodeCert := decodeStruct signing.nodeCert raw

/-- Checks a node certificate against the authority and returns its key. -/
def CAPublicKey.verify (ca : Bytes) (cert : NodeCert) (now : Int64) :
    Except CertErr signing.PublicKey :=
  if cert.notAfter ≠ 0 ∧ now ≠ 0 ∧ now > cert.notAfter then .error .expired
  else if signing.ed25519Verify ca (certBody cert.nodeID cert.publicKey cert.notAfter)
      cert.caSig then
    match parseNodePublicKey signing cert.publicKey with
    | .error err => .error (.invalidKey err)
    | .ok pub => .ok pub
  else .error .notSigned

def verifyAggregate (pubs : List signing.PublicKey) (msgs : List Bytes) (aggSig : Bytes) : Bool :=
  if pubs.length = 0 ∨ pubs.length ≠ msgs.length then false
  else signing.blsVerifyAggregate pubs msgs aggSig

/-- Node certificates by node id. -/
abbrev CertBundle := Bytes → Option NodeCert

def CertBundle.addCert (bundle : CertBundle) (cert : NodeCert) : CertBundle :=
  Function.update bundle cert.nodeID (some cert)

/-- The loop over the signers, with those seen and the keys and messages collected so far. -/
def collectSigners (ca : Bytes) (checkpoint : Checkpoint) (certs : CertBundle) (now : Int64) :
    List Bytes → List signing.PublicKey → List Bytes → List Bytes →
      Except QuorumErr (List signing.PublicKey × List Bytes)
  | _, pubs, msgs, [] => .ok (pubs, msgs)
  | seen, pubs, msgs, id :: rest =>
    if seen.contains id then .error (.duplicateSigner id)
    else
      match certs id with
      | none => .error (.noCert id)
      | some cert =>
        match CAPublicKey.verify signing ca cert now with
        | .error err => .error (.signer id err)
        | .ok pub =>
          collectSigners ca checkpoint certs now (id :: seen) (pubs ++ [pub])
            (msgs ++ [signMessage checkpoint id]) rest

def verifyQuorum (ca : Bytes) (qc : QuorumCertificate) (certs : CertBundle) (threshold : Int)
    (now : Int64) : Except QuorumErr Unit :=
  if qc.signers.length = 0 then .error .empty
  else if (qc.signers.length : Int) < threshold then
    .error (.quorumNotMet qc.signers.length threshold)
  else
    match collectSigners signing ca qc.checkpoint certs now [] [] [] qc.signers with
    | .error err => .error err
    | .ok (pubs, msgs) =>
      if verifyAggregate signing pubs msgs qc.aggSig then .ok () else .error .aggregateInvalid

end

/-! ### What an accepted certificate proves -/

theorem checkpointBytes_inj {first second : Checkpoint} (equal : first.bytes = second.bytes) :
    first = second := by
  obtain ⟨height, term, digest, unix⟩ := first
  obtain ⟨otherHeight, otherTerm, otherDigest, otherUnix⟩ := second
  simp only [Checkpoint.bytes] at equal
  -- the clock stands at the end, so the digest is what lies between fixed widths
  obtain ⟨front, clocks⟩ := List.append_inj' equal (by simp)
  rw [List.append_assoc, List.append_assoc] at front
  obtain ⟨heights, rest⟩ := List.append_inj front (by simp)
  obtain ⟨terms, digests⟩ := List.append_inj rest (by simp)
  obtain rfl := putUint64_inj heights
  obtain rfl := putUint64_inj terms
  obtain rfl : unix = otherUnix := congrArg Int64.ofUInt64 (putUint64_inj clocks)
  rw [digests]

/-- What a node signs under its id determines the checkpoint, whatever bytes the id has. -/
theorem signMessage_inj {first second : Checkpoint} (nodeID : Bytes)
    (equal : signMessage first nodeID = signMessage second nodeID) : first = second := by
  have front := List.append_cancel_right (List.append_cancel_right equal)
  exact checkpointBytes_inj (List.append_cancel_left front)

/-- The bundle that `addCert` builds from a list of certificates. -/
def certBundle (certs : List NodeCert) : CertBundle :=
  certs.foldl CertBundle.addCert fun _ => none

/-- A bundle has each certificate under its own node id. -/
def CertBundle.Keyed (bundle : CertBundle) : Prop :=
  ∀ id cert, bundle id = some cert → cert.nodeID = id

theorem addCert_keyed (bundle : CertBundle) (cert : NodeCert) (keyed : bundle.Keyed) :
    (bundle.addCert cert).Keyed := by
  intro id other found
  unfold CertBundle.addCert at found
  by_cases same : id = cert.nodeID
  · rw [same, Function.update_self] at found
    rw [same, Option.some.inj found]
  · rw [Function.update_of_ne same] at found
    exact keyed id other found

theorem certBundle_keyed (certs : List NodeCert) : (certBundle certs).Keyed := by
  have folded : ∀ bundle : CertBundle, bundle.Keyed →
      (certs.foldl CertBundle.addCert bundle).Keyed := by
    induction certs with
    | nil => exact fun _ keyed => keyed
    | cons cert rest inductionHypothesis =>
      exact fun bundle keyed => inductionHypothesis _ (addCert_keyed bundle cert keyed)
  exact folded _ fun _ _ found => nomatch found

section

variable {deps : Deps} (signing : Signing deps)

/-- Ideal signatures: what verifies under the authority was signed by it, and what verifies as an
aggregate was signed message by message by the holders of the keys. -/
structure Signing.Ideal (ca : Bytes) (authoritySigned : Bytes → Prop)
    (holderSigned : signing.PublicKey → Bytes → Prop) : Prop where
  authority : ∀ body sig, signing.ed25519Verify ca body sig = true → authoritySigned body
  aggregate : ∀ pubs msgs sig, signing.blsVerifyAggregate pubs msgs sig = true →
    List.Forall₂ holderSigned pubs msgs

/-- The certificate binds the id to the key under a signature of the authority, and has not
expired at the time, which is zero when no expiry is checked. -/
structure NodeCert.Certifies (authoritySigned : Bytes → Prop) (now : Int64) (cert : NodeCert)
    (id : Bytes) (pub : signing.PublicKey) : Prop where
  signed : authoritySigned (certBody id cert.publicKey cert.notAfter)
  binds : parseNodePublicKey signing cert.publicKey = .ok pub
  current : now ≠ 0 → cert.notAfter = 0 ∨ now ≤ cert.notAfter

variable {ca : Bytes} {authoritySigned : Bytes → Prop}
  {holderSigned : signing.PublicKey → Bytes → Prop}

/-- A certificate that verifies certifies its own node id. -/
theorem certifies_of_verify (ideal : signing.Ideal ca authoritySigned holderSigned)
    (cert : NodeCert) (now : Int64) (pub : signing.PublicKey)
    (verified : CAPublicKey.verify signing ca cert now = .ok pub) :
    cert.Certifies signing authoritySigned now cert.nodeID pub := by
  unfold CAPublicKey.verify at verified
  split at verified
  · cases verified
  · next current =>
    split at verified
    · next signed =>
      split at verified
      · cases verified
      · next parsed =>
        cases verified
        refine ⟨ideal.authority _ _ signed, parsed, fun running => ?_⟩
        by_contra expired
        rw [not_or, Int64.not_le] at expired
        exact current ⟨expired.1, running, expired.2⟩
    · cases verified

/-- The loop accepts signers that are new and pairwise distinct, each with a certificate that
verifies, and collects for each its key and the message under its id. -/
theorem collectSigners_ok (checkpoint : Checkpoint) (certs : CertBundle) (now : Int64)
    (ids seen : List Bytes) (pubs : List signing.PublicKey) (msgs : List Bytes)
    (collected : List signing.PublicKey × List Bytes)
    (accepted : collectSigners signing ca checkpoint certs now seen pubs msgs ids =
      .ok collected) :
    ids.Nodup ∧ (∀ id ∈ ids, id ∉ seen) ∧ ∃ keys,
      collected = (pubs ++ keys, msgs ++ ids.map (signMessage checkpoint)) ∧
      List.Forall₂ (fun id pub => ∃ cert, certs id = some cert ∧
        CAPublicKey.verify signing ca cert now = .ok pub) ids keys := by
  induction ids generalizing seen pubs msgs with
  | nil =>
    cases accepted
    refine ⟨List.nodup_nil, nofun, [], ?_, .nil⟩
    rw [List.append_nil, List.map_nil, List.append_nil]
  | cons id rest inductionHypothesis =>
    unfold collectSigners at accepted
    split at accepted
    · cases accepted
    · next unseen =>
      split at accepted
      · cases accepted
      · next cert found =>
        split at accepted
        · cases accepted
        · next pub verified =>
          obtain ⟨distinct, fresh, keys, rfl, certified⟩ := inductionHypothesis _ _ _ accepted
          refine ⟨List.nodup_cons.mpr ⟨fun member => ?_, distinct⟩, ?_, pub :: keys, ?_,
            .cons ⟨cert, found, verified⟩ certified⟩
          · exact fresh id member List.mem_cons_self
          · intro other member
            rcases List.mem_cons.mp member with rfl | later
            · exact fun inSeen => unseen (List.contains_iff_mem.mpr inSeen)
            · exact fun inSeen => fresh other later (List.mem_cons_of_mem _ inSeen)
          · rw [List.append_assoc, List.append_assoc]
            rfl

/-- The checks of an accepted certificate: enough signers, pairwise distinct, each with a
certificate in the bundle that certifies its id, and a signature of the holder of its key over the
checkpoint under its id. -/
theorem verifyQuorum_ok (ideal : signing.Ideal ca authoritySigned holderSigned)
    (qc : QuorumCertificate) (certs : CertBundle) (keyed : certs.Keyed) (threshold : Int)
    (now : Int64) (accepted : verifyQuorum signing ca qc certs threshold now = .ok ()) :
    max threshold 1 ≤ qc.signers.length ∧ qc.signers.Nodup ∧
      ∀ id ∈ qc.signers, ∃ cert pub, certs id = some cert ∧
        cert.Certifies signing authoritySigned now id pub ∧
        holderSigned pub (signMessage qc.checkpoint id) := by
  unfold verifyQuorum at accepted
  split at accepted
  · cases accepted
  · next nonempty =>
    split at accepted
    · cases accepted
    · next enough =>
      split at accepted
      · cases accepted
      · next pubs msgs collected =>
        obtain ⟨distinct, -, keys, same, certified⟩ :=
          collectSigners_ok signing qc.checkpoint certs now qc.signers [] [] [] _ collected
        obtain ⟨rfl, rfl⟩ := Prod.mk.inj same
        split at accepted
        · next aggregate =>
          unfold verifyAggregate at aggregate
          split at aggregate
          · cases aggregate
          · refine ⟨by omega, distinct, fun id member => ?_⟩
            have signed := ideal.aggregate _ _ _ aggregate
            rw [List.nil_append, List.forall₂_map_right_iff] at signed
            obtain ⟨⟨index, inSigners⟩, rfl⟩ := List.mem_iff_get.mp member
            have inKeys : index < pubs.length := certified.length_eq ▸ inSigners
            obtain ⟨cert, found, verified⟩ := certified.get inSigners inKeys
            have certifies := certifies_of_verify signing ideal cert now _ verified
            rw [keyed _ cert found] at certifies
            exact ⟨cert, _, found, certifies, signed.get inKeys inSigners⟩
        · cases accepted

end

/-! ### Matching a head -/

/-- How a certificate misses a head: in its height, or in its digest. -/
inductive MatchErr where
  | height (certified found : UInt64)
  | digest (certified : Bytes) (found : Digest)
  deriving DecidableEq

def QuorumCertificate.matchesHead (qc : QuorumCertificate) (head : HashChain) :
    Except MatchErr Unit :=
  if qc.checkpoint.height ≠ head.index then .error (.height qc.checkpoint.height head.index)
  else if qc.checkpoint.digest ≠ head.digest.bytes then
    .error (.digest qc.checkpoint.digest head.digest)
  else .ok ()

/-- A certificate attests exactly the head of its height and digest. -/
theorem matchesHead_iff (qc : QuorumCertificate) (head : HashChain) :
    qc.matchesHead head = .ok () ↔
      qc.checkpoint.height = head.index ∧ qc.checkpoint.digest = head.digest.bytes := by
  unfold QuorumCertificate.matchesHead
  by_cases height : qc.checkpoint.height = head.index
  · by_cases digest : qc.checkpoint.digest = head.digest.bytes
    · rw [if_neg (not_not.mpr height), if_neg (not_not.mpr digest)]
      exact iff_of_true rfl ⟨height, digest⟩
    · rw [if_neg (not_not.mpr height), if_pos digest]
      exact iff_of_false (fun equal => nomatch equal) fun both => digest both.2
  · rw [if_pos height]
    exact iff_of_false (fun equal => nomatch equal) fun both => height both.1

/-- Two heads one certificate attests are equal. -/
theorem head_unique (qc : QuorumCertificate) (first second : HashChain)
    (firstMatches : qc.matchesHead first = .ok ())
    (secondMatches : qc.matchesHead second = .ok ()) :
    first = second := by
  obtain ⟨firstHeight, firstDigest⟩ := (matchesHead_iff qc first).mp firstMatches
  obtain ⟨secondHeight, secondDigest⟩ := (matchesHead_iff qc second).mp secondMatches
  obtain ⟨index, bytes, length⟩ := first
  obtain ⟨otherIndex, otherBytes, otherLength⟩ := second
  obtain rfl : index = otherIndex := firstHeight.symm.trans secondHeight
  obtain rfl : bytes = otherBytes := firstDigest.symm.trans secondDigest
  rfl

end ConsensusDB
