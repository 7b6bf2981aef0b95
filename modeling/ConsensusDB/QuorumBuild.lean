/-
This file is the signing side of `pkg/ledger`: the authority issues a certificate for
a node key after a proof of possession, nodes sign a checkpoint, and
`BuildQuorumCertificate` aggregates their signatures.

The signature schemes are those of other modules. What is assumed of them is that
aggregate verification accepts exactly the aggregates of valid signatures on
different messages, and that such an aggregate is one for a single collection of
keys and messages. A signer's message ends with its id, so the messages of different
signers differ. Then a certificate of certified signers verifies, and its aggregate
verifies with no other signers and with no other checkpoint: the messages under
another checkpoint would have to be the same messages in another order, and already
their total length tells the digests' lengths.
-/

import ConsensusDB.Bindings
import ConsensusDB.VerifyBackup
import Mathlib.Algebra.BigOperators.Group.List.Basic
import Mathlib.Data.List.Sort

namespace ConsensusDB

open Wire

/-! ### Signing -/

def domainPoP : Bytes := str "cdb/ledger/pop/v1"

/-- The bytes a node signs to prove that it has the key it wants certified. -/
def popMessage (nodeID pub : Bytes) : Bytes := domainPoP ++ [0] ++ nodeID ++ [0] ++ pub

/-- The functions of other modules on private keys, and those on single signatures. -/
structure Keys {deps : Deps} (signing : Signing deps) where
  PrivateKey : Type
  publicKey : PrivateKey → signing.PublicKey
  marshalPublicKey : signing.PublicKey → Except Err Bytes
  blsSign : PrivateKey → Bytes → Bytes
  blsVerify : signing.PublicKey → Bytes → Bytes → Bool
  blsAggregate : List Bytes → Except Err Bytes
  AuthorityKey : Type
  authorityPublic : AuthorityKey → Bytes
  ed25519Sign : AuthorityKey → Bytes → Bytes

section

variable {deps : Deps} {signing : Signing deps} (keys : Keys signing)

namespace Keys

/-- Attests a checkpoint as the node of an id. -/
def signCheckpoint (key : keys.PrivateKey) (nodeID : Bytes) (checkpoint : Checkpoint) : Bytes :=
  keys.blsSign key (signMessage checkpoint nodeID)

def proofOfPossession (key : keys.PrivateKey) (nodeID : Bytes) : Except Err Bytes :=
  match keys.marshalPublicKey (keys.publicKey key) with
  | .error err => .error err
  | .ok pub => .ok (keys.blsSign key (popMessage nodeID pub))

/-- Certifies a node key after a proof of possession. -/
def issue (authority : keys.AuthorityKey) (nodeID : Bytes) (nodePub : signing.PublicKey)
    (pop : Bytes) (notAfter : Int64) : Except Err NodeCert :=
  match keys.marshalPublicKey nodePub with
  | .error err => .error err
  | .ok pub =>
    if keys.blsVerify nodePub (popMessage nodeID pub) pop then
      .ok ⟨nodeID, pub, notAfter, keys.ed25519Sign authority (certBody nodeID pub notAfter)⟩
    else .error (.text "ledger: proof-of-possession failed")

def aggregate (sigs : List Bytes) : Except Err Bytes :=
  if sigs.length = 0 then .error (.text "ledger: no signatures to aggregate")
  else keys.blsAggregate sigs

/-- Aggregates signatures by node id. The ids come out of the map in any order and are sorted. -/
def buildQuorumCertificate (order : Console.MapOrder) (checkpoint : Checkpoint)
    (sigs : List (Bytes × Bytes)) : Except Err QuorumCertificate :=
  if sigs.length = 0 then .error (.text "ledger: no signatures for quorum certificate")
  else
    let ids := (order.keysOf 0 (sigs.map Prod.fst)).insertionSort fun first second =>
      Wire.compare first second ≠ .gt
    match keys.aggregate (ids.map fun id => (sigs.lookup id).getD []) with
    | .error err => .error err
    | .ok agg => .ok ⟨checkpoint, ids, agg⟩

/-- The signatures are valid ones of the keys on the messages. -/
def Valid (signed : List (signing.PublicKey × Bytes)) (sigs : List Bytes) : Prop :=
  List.Forall₂ (fun pair sig => keys.blsVerify pair.1 pair.2 sig = true) signed sigs

/-- The aggregate is one of valid signatures on a checkpoint, by the keys of some ids. -/
def Attests (pubOf : Bytes → signing.PublicKey) (checkpoint : Checkpoint) (ids : List Bytes)
    (agg : Bytes) : Prop :=
  ∃ sigs, keys.Valid (ids.map fun id => (pubOf id, signMessage checkpoint id)) sigs ∧
    keys.blsAggregate sigs = .ok agg

/-- What the schemes are assumed to do: keys are read back, what is signed verifies, valid
signatures can be aggregated, aggregate verification on different messages accepts exactly the
aggregates of valid signatures, and these are of one collection of keys and messages. -/
structure Lawful : Prop where
  parses : ∀ key raw, keys.marshalPublicKey (keys.publicKey key) = .ok raw →
    parseNodePublicKey signing raw = .ok (keys.publicKey key)
  signs : ∀ key message, keys.blsVerify (keys.publicKey key) message
    (keys.blsSign key message) = true
  authoritySigns : ∀ key body, signing.ed25519Verify (keys.authorityPublic key) body
    (keys.ed25519Sign key body) = true
  aggregates : ∀ signed sigs, keys.Valid signed sigs → sigs ≠ [] →
    ∃ agg, keys.blsAggregate sigs = .ok agg
  accepts : ∀ pubs msgs agg, pubs.length = msgs.length → msgs.Nodup →
    (signing.blsVerifyAggregate pubs msgs agg = true ↔
      ∃ sigs, keys.Valid (pubs.zip msgs) sigs ∧ keys.blsAggregate sigs = .ok agg)
  apart : ∀ signed sigs others otherSigs agg, keys.Valid signed sigs →
    keys.Valid others otherSigs → (signed.map Prod.snd).Nodup → (others.map Prod.snd).Nodup →
    keys.blsAggregate sigs = .ok agg → keys.blsAggregate otherSigs = .ok agg →
    signed.Perm others

end Keys

end

/-! ### Messages of signers -/

theorem signMessage_inj_id {checkpoint : Checkpoint} {first second : Bytes}
    (equal : signMessage checkpoint first = signMessage checkpoint second) : first = second :=
  List.append_cancel_left equal

theorem messages_nodup (checkpoint : Checkpoint) {ids : List Bytes} (distinct : ids.Nodup) :
    (ids.map (signMessage checkpoint)).Nodup :=
  distinct.map fun _ _ => signMessage_inj_id

/-- The messages of signers under two checkpoints, in any order, tell the checkpoints apart. -/
theorem checkpoint_of_messages {first second : Checkpoint} {ids : List Bytes} (nonempty : ids ≠ [])
    (same : (ids.map (signMessage first)).Perm (ids.map (signMessage second))) :
    first = second := by
  -- the length of all messages together tells how long the checkpoints are
  have total : ∀ checkpoint : Checkpoint,
      ((ids.map (signMessage checkpoint)).map List.length).sum =
        ids.length * (domainCkpt.length + 2 + checkpoint.bytes.length) +
          (ids.map List.length).sum := by
    intro checkpoint
    have each : List.length ∘ signMessage checkpoint = fun id : Bytes =>
        domainCkpt.length + 2 + checkpoint.bytes.length + id.length := by
      funext id
      simp only [signMessage, Function.comp_apply, List.length_append, List.length_singleton]
      omega
    rw [List.map_map, each, List.sum_map_add, List.map_const', List.sum_replicate_nat]
  have equalSums := (same.map List.length).sum_eq
  rw [total, total] at equalSums
  have lengths : first.bytes.length = second.bytes.length := by
    have widths := Nat.eq_of_mul_eq_mul_left (List.length_pos_iff.mpr nonempty)
      (Nat.add_right_cancel equalSums)
    omega
  obtain ⟨id, isId⟩ := List.exists_mem_of_ne_nil ids nonempty
  obtain ⟨other, _, equal⟩ := List.mem_map.mp
    (same.mem_iff.mp (List.mem_map.mpr ⟨id, isId, rfl⟩))
  simp only [signMessage, List.append_assoc, List.append_cancel_left_eq] at equal
  exact checkpointBytes_inj (List.append_inj equal lengths.symm).1.symm

/-! ### Certificates of certified signers -/

section

variable {deps : Deps} {signing : Signing deps}

/-- The loop over signers that are new, different and certified collects their keys and messages. -/
theorem collectSigners_certified {ca : Bytes} {certs : CertBundle} {now : Int64}
    (pubOf : Bytes → signing.PublicKey) (checkpoint : Checkpoint) {ids seen : List Bytes}
    (pubs : List signing.PublicKey) (msgs : List Bytes) (distinct : ids.Nodup)
    (fresh : ∀ id ∈ ids, id ∉ seen)
    (certified : ∀ id ∈ ids, ∃ cert, certs id = some cert ∧
      CAPublicKey.verify signing ca cert now = .ok (pubOf id)) :
    collectSigners signing ca checkpoint certs now seen pubs msgs ids =
      .ok (pubs ++ ids.map pubOf, msgs ++ ids.map (signMessage checkpoint)) := by
  induction ids generalizing seen pubs msgs with
  | nil => rw [collectSigners, List.map_nil, List.map_nil, List.append_nil, List.append_nil]
  | cons id rest inductionHypothesis =>
    obtain ⟨notLater, restDistinct⟩ := List.nodup_cons.mp distinct
    obtain ⟨cert, found, verified⟩ := certified id List.mem_cons_self
    have unseen : ¬ seen.contains id = true :=
      fun contained => fresh id List.mem_cons_self (List.contains_iff_mem.mp contained)
    rw [collectSigners, if_neg unseen, found]
    simp only [verified]
    rw [inductionHypothesis _ _ restDistinct, List.append_assoc, List.append_assoc]
    · rfl
    · intro other later inSeen
      rcases List.mem_cons.mp inSeen with rfl | earlier
      · exact notLater later
      · exact fresh other (List.mem_cons_of_mem _ later) earlier
    · exact fun other later => certified other (List.mem_cons_of_mem _ later)

/-- A certificate that is accepted has enough signers, all different, and its aggregate verifies for
keys and the messages of the signers. -/
theorem aggregate_of_verifyQuorum {ca : Bytes} {qc : QuorumCertificate} {certs : CertBundle}
    {threshold : Int} {now : Int64}
    (accepted : verifyQuorum signing ca qc certs threshold now = .ok ()) :
    threshold ≤ qc.signers.length ∧ qc.signers.Nodup ∧
      ∃ pubs, pubs.length = (qc.signers.map (signMessage qc.checkpoint)).length ∧
        signing.blsVerifyAggregate pubs (qc.signers.map (signMessage qc.checkpoint)) qc.aggSig =
          true := by
  unfold verifyQuorum at accepted
  split at accepted
  · cases accepted
  · split at accepted
    · cases accepted
    · next enough =>
      split at accepted
      · cases accepted
      · next pubs msgs collected =>
        obtain ⟨distinct, -, found, same, certified⟩ :=
          collectSigners_ok signing qc.checkpoint certs now qc.signers [] [] [] _ collected
        obtain ⟨rfl, rfl⟩ := Prod.mk.inj same
        split at accepted
        · next verified =>
          unfold verifyAggregate at verified
          split at verified
          · cases verified
          · next sizes =>
            exact ⟨Int.not_lt.mp enough, distinct, pubs, not_not.mp (not_or.mp sizes).2, verified⟩
        · cases accepted

theorem exists_lookup {sigs : List (Bytes × Bytes)} {id : Bytes} (member : id ∈ sigs.map Prod.fst) :
    ∃ sig, sigs.lookup id = some sig ∧ (id, sig) ∈ sigs := by
  induction sigs with
  | nil => cases member
  | cons entry rest inductionHypothesis =>
    by_cases same : id = entry.1
    · rw [same]
      exact ⟨entry.2, List.lookup_cons_self, List.mem_cons_self⟩
    · obtain ⟨sig, found, inRest⟩ :=
        inductionHypothesis ((List.mem_cons.mp member).resolve_left same)
      refine ⟨sig, ?_, List.mem_cons_of_mem _ inRest⟩
      rw [List.lookup_cons, beq_false_of_ne same, found]

variable {keys : Keys signing} (lawful : keys.Lawful) {pubOf : Bytes → signing.PublicKey}
  {checkpoint : Checkpoint}

include lawful in
/-- Valid signatures on a checkpoint are built into a certificate of theirs. -/
theorem build_attests (order : Console.MapOrder) {sigs : List (Bytes × Bytes)}
    (nonempty : sigs ≠ [])
    (valid : ∀ entry ∈ sigs,
      keys.blsVerify (pubOf entry.1) (signMessage checkpoint entry.1) entry.2 = true) :
    ∃ ids agg, keys.buildQuorumCertificate order checkpoint sigs = .ok ⟨checkpoint, ids, agg⟩ ∧
      ids.Perm (sigs.map Prod.fst) ∧ keys.Attests pubOf checkpoint ids agg := by
  let ids := (order.keysOf 0 (sigs.map Prod.fst)).insertionSort fun first second =>
    Wire.compare first second ≠ .gt
  have sorted : ids.Perm (sigs.map Prod.fst) :=
    (List.perm_insertionSort _ _).trans (order.perm 0 _)
  have aligned : keys.Valid (ids.map fun id => (pubOf id, signMessage checkpoint id))
      (ids.map fun id => (sigs.lookup id).getD []) := by
    unfold Keys.Valid
    rw [List.forall₂_map_left_iff, List.forall₂_map_right_iff, List.forall₂_same]
    intro id member
    obtain ⟨sig, found, isEntry⟩ := exists_lookup (sorted.mem_iff.mp member)
    rw [found]
    exact valid _ isEntry
  have filled : (ids.map fun id => (sigs.lookup id).getD []).length ≠ 0 := by
    rw [List.length_map, sorted.length_eq, List.length_map]
    exact mt List.eq_nil_of_length_eq_zero nonempty
  obtain ⟨agg, isAggregate⟩ := lawful.aggregates _ _ aligned (List.ne_nil_of_length_pos
    (Nat.pos_of_ne_zero filled))
  refine ⟨ids, agg, ?_, sorted, _, aligned, isAggregate⟩
  rw [Keys.buildQuorumCertificate, if_neg (mt List.eq_nil_of_length_eq_zero nonempty)]
  show (match keys.aggregate (ids.map fun id => (sigs.lookup id).getD []) with
    | .error err => .error err
    | .ok agg => .ok ⟨checkpoint, ids, agg⟩) = Except.ok (QuorumCertificate.mk checkpoint ids agg)
  rw [Keys.aggregate, if_neg filled, isAggregate]

/-- The signers of a certificate are the ids of the signatures. -/
theorem signers_of_build {order : Console.MapOrder} {sigs : List (Bytes × Bytes)}
    {qc : QuorumCertificate}
    (built : keys.buildQuorumCertificate order checkpoint sigs = .ok qc) :
    qc.signers.Perm (sigs.map Prod.fst) := by
  unfold Keys.buildQuorumCertificate at built
  split at built
  · cases built
  · simp only at built
    split at built
    · cases built
    · obtain rfl := Except.ok.inj built
      exact (List.perm_insertionSort _ _).trans (order.perm 0 _)

variable {ids : List Bytes} {agg : Bytes} (attests : keys.Attests pubOf checkpoint ids agg)
  (distinct : ids.Nodup)

include lawful attests distinct in
/-- A certificate of certified signers is accepted. -/
theorem verifyQuorum_attested {ca : Bytes} {certs : CertBundle} {now : Int64} {threshold : Int}
    (nonempty : ids ≠ []) (enough : threshold ≤ ids.length)
    (certified : ∀ id ∈ ids, ∃ cert, certs id = some cert ∧
      CAPublicKey.verify signing ca cert now = .ok (pubOf id)) :
    verifyQuorum signing ca ⟨checkpoint, ids, agg⟩ certs threshold now = .ok () := by
  obtain ⟨sigs, valid, isAggregate⟩ := attests
  have collected := collectSigners_certified pubOf checkpoint [] [] distinct
    (fun _ _ => List.not_mem_nil) certified
  have verified : signing.blsVerifyAggregate (ids.map pubOf) (ids.map (signMessage checkpoint))
      agg = true := by
    refine (lawful.accepts _ _ _ (by rw [List.length_map, List.length_map])
      (messages_nodup checkpoint distinct)).mpr ⟨sigs, ?_, isAggregate⟩
    rwa [List.zip_map']
  have sizes : ¬ ((ids.map pubOf).length = 0 ∨
      (ids.map pubOf).length ≠ (ids.map (signMessage checkpoint)).length) := by
    rw [List.length_map, List.length_map, not_or, not_not]
    exact ⟨mt List.eq_nil_of_length_eq_zero nonempty, rfl⟩
  simp only [List.nil_append] at collected
  rw [verifyQuorum, if_neg (mt List.eq_nil_of_length_eq_zero nonempty),
    if_neg (Int.not_lt.mpr enough)]
  simp only [collected]
  rw [verifyAggregate, if_neg sizes, verified, if_pos rfl]

variable {ca : Bytes} {certs : CertBundle} {threshold : Int} {now : Int64}

include lawful attests distinct in
/-- A certificate with this aggregate that is accepted has the same messages. -/
theorem messages_of_accepted {other : Checkpoint} {signers : List Bytes}
    (accepted : verifyQuorum signing ca ⟨other, signers, agg⟩ certs threshold now = .ok ()) :
    (signers.map (signMessage other)).Perm (ids.map (signMessage checkpoint)) := by
  obtain ⟨sigs, valid, aggregated⟩ := attests
  obtain ⟨_, signersDistinct, pubs, sizes, verified⟩ := aggregate_of_verifyQuorum accepted
  have messages := messages_nodup other signersDistinct
  obtain ⟨otherSigs, otherValid, otherAggregated⟩ :=
    (lawful.accepts _ _ _ sizes messages).mp verified
  have zipped := List.map_snd_zip sizes.ge
  have ordered : (ids.map fun id => (pubOf id, signMessage checkpoint id)).map Prod.snd =
      ids.map (signMessage checkpoint) := List.map_map
  have same := lawful.apart _ _ _ _ _ otherValid valid (by rwa [zipped])
    (ordered ▸ messages_nodup checkpoint distinct) otherAggregated aggregated
  have perm := same.map Prod.snd
  rwa [zipped, ordered] at perm

include lawful attests distinct in
theorem not_accepted_of_length {signers : List Bytes} (differs : signers.length ≠ ids.length) :
    verifyQuorum signing ca ⟨checkpoint, signers, agg⟩ certs threshold now ≠ .ok () := by
  intro accepted
  have count := (messages_of_accepted lawful attests distinct accepted).length_eq
  rw [List.length_map, List.length_map] at count
  exact differs count

include lawful attests distinct in
theorem not_accepted_of_checkpoint (nonempty : ids ≠ []) {other : Checkpoint}
    (differs : other ≠ checkpoint) :
    verifyQuorum signing ca ⟨other, ids, agg⟩ certs threshold now ≠ .ok () := fun accepted =>
  differs (checkpoint_of_messages nonempty
    (messages_of_accepted lawful attests distinct accepted))

/-! ### Signers that the authority has certified -/

include lawful in
/-- A node that proves the possession of its own key is certified. -/
theorem issue_of_proofOfPossession (authority : keys.AuthorityKey) {nodeID pop : Bytes}
    {key : keys.PrivateKey} (notAfter : Int64)
    (proved : keys.proofOfPossession key nodeID = .ok pop) :
    ∃ cert, keys.issue authority nodeID (keys.publicKey key) pop notAfter = .ok cert ∧
      cert.nodeID = nodeID ∧ cert.notAfter = notAfter := by
  unfold Keys.proofOfPossession at proved
  split at proved
  · cases proved
  · rename_i raw marshalled
    obtain rfl := Except.ok.inj proved
    rw [Keys.issue, marshalled]
    exact ⟨_, if_pos (lawful.signs key _), rfl, rfl⟩

include lawful in
/-- A certificate that the authority has issued for a key verifies as long as it has not
expired. -/
theorem verify_of_issue {authority : keys.AuthorityKey} {nodeID pop : Bytes}
    {key : keys.PrivateKey} {notAfter now : Int64} {cert : NodeCert}
    (issued : keys.issue authority nodeID (keys.publicKey key) pop notAfter = .ok cert)
    (current : notAfter = 0 ∨ now = 0 ∨ now ≤ notAfter) :
    CAPublicKey.verify signing (keys.authorityPublic authority) cert now =
      .ok (keys.publicKey key) := by
  unfold Keys.issue at issued
  cases marshalled : keys.marshalPublicKey (keys.publicKey key) with
  | error err =>
    rw [marshalled] at issued
    cases issued
  | ok raw =>
    rw [marshalled] at issued
    simp only at issued
    split at issued
    · obtain rfl := Except.ok.inj issued
      have alive : ¬ (notAfter ≠ 0 ∧ now ≠ 0 ∧ now > notAfter) := by
        rintro ⟨ends, checked, late⟩
        exact (current.resolve_left ends).elim checked fun inTime => Int64.not_lt.mpr inTime late
      rw [CAPublicKey.verify, if_neg alive, if_pos (lawful.authoritySigns _ _),
        lawful.parses key raw marshalled]
    · cases issued

/-- Keys of different ids can be told by the id. -/
theorem exists_keyOf {Key Value : Type} [Nonempty Value] (value : Key → Value)
    {members : List (Bytes × Key)} (different : (members.map Prod.fst).Nodup) :
    ∃ valueOf : Bytes → Value, ∀ member ∈ members, valueOf member.1 = value member.2 := by
  induction members with
  | nil => exact ⟨fun _ => Classical.arbitrary Value, fun _ member => by cases member⟩
  | cons first rest inductionHypothesis =>
    obtain ⟨notLater, restDifferent⟩ := List.nodup_cons.mp different
    obtain ⟨valueOf, isValue⟩ := inductionHypothesis restDifferent
    refine ⟨Function.update valueOf first.1 (value first.2), fun member isMember => ?_⟩
    rcases List.mem_cons.mp isMember with rfl | later
    · exact Function.update_self _ _ _
    · have differs : member.1 ≠ first.1 := by
        intro same
        rw [← same] at notLater
        exact notLater (List.mem_map_of_mem later)
      rw [Function.update_of_ne differs]
      exact isValue member later

include lawful in
/-- Nodes whose keys the authority has certified always get a certificate of a checkpoint that is
accepted with any threshold up to their number. Its aggregate is accepted with no signer left out,
with none added and with no other checkpoint, whatever the certificates, the threshold and the
time. -/
theorem honest_quorum_exact (order : Console.MapOrder) (authority : keys.AuthorityKey)
    (checkpoint : Checkpoint) (members : List (Bytes × keys.PrivateKey)) (nonempty : members ≠ [])
    (different : (members.map Prod.fst).Nodup) (certs : CertBundle) (now : Int64)
    (issued : ∀ member ∈ members, ∃ pop notAfter cert,
      keys.issue authority member.1 (keys.publicKey member.2) pop notAfter = .ok cert ∧
      certs member.1 = some cert ∧ (notAfter = 0 ∨ now = 0 ∨ now ≤ notAfter))
    (threshold : Int) (enough : threshold ≤ members.length) :
    ∃ qc, keys.buildQuorumCertificate order checkpoint
        (members.map fun member =>
          (member.1, keys.signCheckpoint member.2 member.1 checkpoint)) = .ok qc ∧
      verifyQuorum signing (keys.authorityPublic authority) qc certs threshold now = .ok () ∧
      ∀ otherCerts otherThreshold otherNow,
        (∀ member ∈ members, verifyQuorum signing (keys.authorityPublic authority)
          { qc with signers := qc.signers.erase member.1 } otherCerts otherThreshold otherNow ≠
            .ok ()) ∧
        (∀ id signers, signers.Perm (id :: qc.signers) →
          verifyQuorum signing (keys.authorityPublic authority) { qc with signers } otherCerts
            otherThreshold otherNow ≠ .ok ()) ∧
        ∀ other ≠ checkpoint, verifyQuorum signing (keys.authorityPublic authority)
          { qc with checkpoint := other } otherCerts otherThreshold otherNow ≠ .ok () := by
  obtain ⟨first, isFirst⟩ := List.exists_mem_of_ne_nil members nonempty
  have : Nonempty signing.PublicKey := ⟨keys.publicKey first.2⟩
  obtain ⟨pubOf, isPub⟩ := exists_keyOf keys.publicKey different
  have signedIds : (members.map fun member =>
      (member.1, keys.signCheckpoint member.2 member.1 checkpoint)).map Prod.fst =
        members.map Prod.fst := List.map_map
  have valid : ∀ entry ∈ members.map fun member =>
      (member.1, keys.signCheckpoint member.2 member.1 checkpoint),
      keys.blsVerify (pubOf entry.1) (signMessage checkpoint entry.1) entry.2 = true := by
    intro entry isEntry
    obtain ⟨member, isMember, rfl⟩ := List.mem_map.mp isEntry
    rw [isPub member isMember]
    exact lawful.signs _ _
  obtain ⟨ids, agg, built, sorted, attests⟩ :=
    build_attests lawful order (mt List.map_eq_nil_iff.mp nonempty) valid
  rw [signedIds] at sorted
  have distinct := sorted.nodup_iff.mpr different
  have filled : ids ≠ [] := by
    rintro rfl
    exact nonempty (List.map_eq_nil_iff.mp sorted.symm.eq_nil)
  have accepted : verifyQuorum signing (keys.authorityPublic authority) ⟨checkpoint, ids, agg⟩
      certs threshold now = .ok () := by
    refine verifyQuorum_attested lawful attests distinct filled ?_ fun id isId => ?_
    · rwa [sorted.length_eq, List.length_map]
    · obtain ⟨member, isMember, rfl⟩ := List.mem_map.mp (sorted.mem_iff.mp isId)
      obtain ⟨pop, notAfter, cert, isIssued, found, current⟩ := issued member isMember
      rw [isPub member isMember]
      exact ⟨cert, found, verify_of_issue lawful isIssued current⟩
  refine ⟨_, built, accepted, fun otherCerts otherThreshold otherNow => ⟨?_, ?_, ?_⟩⟩
  · intro member isMember
    have isId : member.1 ∈ ids := sorted.mem_iff.mpr (List.mem_map_of_mem isMember)
    refine not_accepted_of_length lawful attests distinct ?_
    rw [List.length_erase_of_mem isId]
    exact (Nat.sub_lt (List.length_pos_of_mem isId) Nat.one_pos).ne
  · intro id signers added
    refine not_accepted_of_length lawful attests distinct ?_
    rw [added.length_eq, List.length_cons]
    exact Nat.succ_ne_self _
  · intro other differs
    exact not_accepted_of_checkpoint lawful attests distinct filled differs

end

/-! ### A scheme that writes down what is signed -/

/-- Keys are texts, a signature is the key and the message, an aggregate is the list of them. -/
def plainSigning : Signing Reference.deps :=
  { sampleSigning with
    blsVerifyAggregate := fun pubs msgs agg =>
      agg == Format.bytes.list.put ((pubs.zip msgs).map (Format.bytes.pair Format.bytes).put) }

def plainKeys : Keys plainSigning where
  PrivateKey := Bytes
  publicKey := id
  marshalPublicKey := .ok
  blsSign key message := (Format.bytes.pair Format.bytes).put (key, message)
  blsVerify pub message sig := sig == (Format.bytes.pair Format.bytes).put (pub, message)
  blsAggregate sigs := .ok (Format.bytes.list.put sigs)
  AuthorityKey := Bytes
  authorityPublic := id
  ed25519Sign key body := key ++ body

theorem plainKeys_valid {signed : List (Bytes × Bytes)} {sigs : List Bytes} :
    plainKeys.Valid signed sigs ↔ sigs = signed.map (Format.bytes.pair Format.bytes).put := by
  have each : plainKeys.Valid signed sigs ↔ List.Forall₂
      (fun pair sig => (Format.bytes.pair Format.bytes).put pair = sig) signed sigs :=
    ⟨fun valid => valid.imp fun _ _ same => (beq_iff_eq.mp same).symm,
      fun same => same.imp fun _ _ equal => beq_iff_eq.mpr equal.symm⟩
  rw [each, ← List.forall₂_map_left_iff (R := Eq), List.forall₂_eq_eq_eq, eq_comm]

theorem plainKeys_lawful : plainKeys.Lawful where
  parses key raw marshalled := by
    obtain rfl := Except.ok.inj marshalled
    rfl
  signs _ _ := beq_self_eq_true _
  authoritySigns _ _ := beq_self_eq_true _
  aggregates _ _ _ _ := ⟨_, rfl⟩
  accepts pubs msgs agg _ _ := by
    constructor
    · intro verified
      exact ⟨_, plainKeys_valid.mpr rfl, congrArg Except.ok (beq_iff_eq.mp verified).symm⟩
    · rintro ⟨sigs, valid, aggregated⟩
      rw [plainKeys_valid.mp valid] at aggregated
      exact beq_iff_eq.mpr (Except.ok.inj aggregated).symm
  apart signed sigs others otherSigs agg valid otherValid _ _ aggregated otherAggregated := by
    rw [plainKeys_valid.mp valid] at aggregated
    rw [plainKeys_valid.mp otherValid] at otherAggregated
    have same := Format.put_inj _
      ((Except.ok.inj aggregated).trans (Except.ok.inj otherAggregated).symm)
    exact List.Perm.of_eq (List.map_injective_iff.mpr
      (fun _ _ => Format.put_inj (Format.bytes.pair Format.bytes)) same)

/-- Two nodes with keys that the sample authority has certified until second 100. -/
def plainMembers : List (Bytes × Bytes) :=
  [(str "node1", str "key1"), (str "node0", str "key0")]

def plainCert (member : Bytes × Bytes) : NodeCert :=
  ⟨member.1, member.2, 100, sampleAuthority ++ certBody member.1 member.2 100⟩

theorem plainKeys_issue (member : Bytes × Bytes) :
    plainKeys.issue sampleAuthority member.1 (plainKeys.publicKey member.2)
      (plainKeys.blsSign member.2 (popMessage member.1 member.2)) 100 = .ok (plainCert member) :=
  if_pos (beq_self_eq_true _)

/-- The head of the sample log, signed by two nodes and checked at second 50. -/
theorem honest_quorum_exact_pair :
    ∃ qc, plainKeys.buildQuorumCertificate PolicyService.insertionOrder
        ⟨1, 1, (headOf Reference.sampleLog).digest.bytes, 0⟩
        (plainMembers.map fun member => (member.1, plainKeys.signCheckpoint member.2 member.1
          ⟨1, 1, (headOf Reference.sampleLog).digest.bytes, 0⟩)) = .ok qc ∧
      verifyQuorum plainSigning sampleAuthority qc (certBundle (plainMembers.map plainCert)) 2 50 =
        .ok () := by
  have issued : ∀ member ∈ plainMembers, ∃ pop notAfter cert,
      plainKeys.issue sampleAuthority member.1 (plainKeys.publicKey member.2) pop notAfter =
        .ok cert ∧
      certBundle (plainMembers.map plainCert) member.1 = some cert ∧
      (notAfter = 0 ∨ (50 : Int64) = 0 ∨ 50 ≤ notAfter) := by
    intro member isMember
    refine ⟨plainKeys.blsSign member.2 (popMessage member.1 member.2), 100, plainCert member,
      plainKeys_issue member, ?_, Or.inr (Or.inr (by decide))⟩
    rcases List.mem_cons.mp isMember with rfl | later
    · decide
    · obtain rfl := List.mem_singleton.mp later
      decide
  obtain ⟨qc, built, accepted, _⟩ := honest_quorum_exact plainKeys_lawful
    PolicyService.insertionOrder sampleAuthority
    ⟨1, 1, (headOf Reference.sampleLog).digest.bytes, 0⟩ plainMembers (List.cons_ne_nil _ _)
    (by decide) (certBundle (plainMembers.map plainCert)) 50 issued 2 (by decide)
  exact ⟨qc, built, accepted⟩

/-! ### What a signature is for -/

/-- What is signed in `pkg/ledger`: that a checkpoint is attested, that a node has a key, and that
it has proved to hold it. -/
inductive SignedStatement where
  | attestation (checkpoint : Checkpoint) (nodeID : Bytes)
  | certificate (nodeID pub : Bytes) (notAfter : Int64)
  | possession (nodeID pub : Bytes)
  deriving DecidableEq

inductive Purpose where
  | attestation
  | certificate
  | possession
  deriving DecidableEq

namespace SignedStatement

def message : SignedStatement → Bytes
  | attestation checkpoint nodeID => signMessage checkpoint nodeID
  | certificate nodeID pub notAfter => certBody nodeID pub notAfter
  | possession nodeID pub => popMessage nodeID pub

def purpose : SignedStatement → Purpose
  | attestation _ _ => .attestation
  | certificate _ _ _ => .certificate
  | possession _ _ => .possession

end SignedStatement

/-- The byte in which the domains of the messages differ. -/
def Purpose.mark : Purpose → UInt8
  | .attestation => 'c'.toUInt8
  | .certificate => 'n'.toUInt8
  | .possession => 'p'.toUInt8

theorem mark_inj {first second : Purpose} (equal : first.mark = second.mark) : first = second := by
  cases first <;> cases second <;> first | rfl | exact absurd equal (by decide)

/-- A message has the mark of its purpose at the first byte after "cdb/ledger/". -/
theorem message_mark (statement : SignedStatement) :
    statement.message[11]? = some statement.purpose.mark := by
  cases statement with
  | attestation checkpoint nodeID =>
    rw [SignedStatement.message, signMessage, List.append_assoc, List.append_assoc,
      List.append_assoc, List.getElem?_append_left (by decide)]
    rfl
  | certificate nodeID pub notAfter =>
    rw [SignedStatement.message, certBody, List.append_assoc, List.append_assoc, List.append_assoc,
      List.append_assoc, List.getElem?_append_left (by decide)]
    rfl
  | possession nodeID pub =>
    rw [SignedStatement.message, popMessage, List.append_assoc, List.append_assoc,
      List.append_assoc, List.getElem?_append_left (by decide)]
    rfl

theorem purpose_of_message {first second : SignedStatement}
    (equal : first.message = second.message) : first.purpose = second.purpose := by
  refine mark_inj (Option.some.inj ?_)
  rw [← message_mark, ← message_mark, equal]

section

variable {nodeID otherID pub otherPub : Bytes} (clean : 0 ∉ nodeID) (otherClean : 0 ∉ otherID)

include clean otherClean

/-- The id is read from the right end, so the digest may have any length and any bytes. -/
theorem attestation_inj {checkpoint other : Checkpoint}
    (equal : signMessage checkpoint nodeID = signMessage other otherID) :
    checkpoint = other ∧ nodeID = otherID := by
  simp only [signMessage, List.append_assoc, List.append_cancel_left_eq] at equal
  obtain ⟨fronts, ids⟩ := parts_of_last_separator clean otherClean equal
  exact ⟨checkpointBytes_inj fronts, ids⟩

theorem possession_inj (equal : popMessage nodeID pub = popMessage otherID otherPub) :
    nodeID = otherID ∧ pub = otherPub := by
  simp only [popMessage, List.append_assoc, List.append_cancel_left_eq] at equal
  exact parts_of_first_separator clean otherClean equal

theorem certificate_inj {notAfter otherNotAfter : Int64}
    (equal : certBody nodeID pub notAfter = certBody otherID otherPub otherNotAfter) :
    nodeID = otherID ∧ pub = otherPub ∧ notAfter = otherNotAfter := by
  obtain ⟨fronts, ends⟩ := List.append_inj' equal (by simp)
  simp only [List.append_assoc, List.append_cancel_left_eq] at fronts
  obtain ⟨ids, pubs⟩ := parts_of_first_separator clean otherClean fronts
  exact ⟨ids, pubs, congrArg Int64.ofUInt64 (putUint64_inj ends)⟩

end

/-- Where no id contains a zero byte, each of the three messages determines what it states. Messages
of two purposes differ whatever the ids are, so a signature that verifies no two messages verifies
statements of one purpose only. -/
theorem signed_messages_unambiguous :
    (∀ (checkpoint other : Checkpoint) (nodeID otherID : Bytes), 0 ∉ nodeID → 0 ∉ otherID →
      signMessage checkpoint nodeID = signMessage other otherID →
        checkpoint = other ∧ nodeID = otherID) ∧
    (∀ (nodeID otherID pub otherPub : Bytes) (notAfter otherNotAfter : Int64), 0 ∉ nodeID →
      0 ∉ otherID → certBody nodeID pub notAfter = certBody otherID otherPub otherNotAfter →
        nodeID = otherID ∧ pub = otherPub ∧ notAfter = otherNotAfter) ∧
    (∀ nodeID otherID pub otherPub : Bytes, 0 ∉ nodeID → 0 ∉ otherID →
      popMessage nodeID pub = popMessage otherID otherPub → nodeID = otherID ∧ pub = otherPub) ∧
    (∀ first second : SignedStatement, first.purpose ≠ second.purpose →
      first.message ≠ second.message) ∧
    ∀ verifies : Bytes → Bytes → Bool,
      (∀ signature message other, verifies message signature = true →
        verifies other signature = true → message = other) →
      ∀ signature (first second : SignedStatement), verifies first.message signature = true →
        first.purpose ≠ second.purpose → verifies second.message signature = false := by
  refine ⟨fun _ _ _ _ clean otherClean => attestation_inj clean otherClean,
    fun _ _ _ _ _ _ clean otherClean => certificate_inj clean otherClean,
    fun _ _ _ _ clean otherClean => possession_inj clean otherClean,
    fun _ _ apart equal => apart (purpose_of_message equal), ?_⟩
  intro verifies single signature first second verified apart
  by_contra also
  exact apart (purpose_of_message
    (single signature _ _ verified (Bool.eq_true_of_not_eq_false also)))

end ConsensusDB
