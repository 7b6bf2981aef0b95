/-
This file is `ledger_service.go`, and what a quorum certificate says about the
nodes behind it. With ideal signatures an accepted certificate shows that enough
certified nodes signed its checkpoint. A node signs through `Attest` only, which
compares the height and the digest of a requested checkpoint with its own head
and leaves the term to whoever asks.

The nodes are a machine over one committed log: each applies entries, restarts,
persists its store, restores what a peer persisted, and attests. A node keeps the
head of a front part of the log in memory and in its head record as long as no
entry is skipped and no command writes that record. So certificates of one height
agree when, besides, every checkpoint that is signed names the term of the log.
-/

import ConsensusDB.Lib.Replay
import ConsensusDB.Staging
import ConsensusDB.VerifyBackup

namespace ConsensusDB

open Wire

/-! ### Accepted certificates -/

/-- A certificate that is accepted has as many signers as asked for and at least one, all
different; each has a certificate under its own id that the authority signed, that binds the id to
a key and that has not expired, and the holder of the key signed the message of the checkpoint
under that id, which is the message of no other checkpoint. -/
theorem quorum_verification_sound {deps : Deps} (signing : Signing deps) (ca : Bytes)
    (authoritySigned : Bytes → Prop) (holderSigned : signing.PublicKey → Bytes → Prop)
    (ideal : signing.Ideal ca authoritySigned holderSigned) (certs : List NodeCert)
    (qc : QuorumCertificate) (threshold : Int) (now : Int64)
    (accepted : verifyQuorum signing ca qc (certBundle certs) threshold now = .ok ()) :
    max threshold 1 ≤ qc.signers.length ∧ qc.signers.Nodup ∧
      ∀ id ∈ qc.signers, ∃ cert pub, certBundle certs id = some cert ∧ cert.nodeID = id ∧
        cert.Certifies signing authoritySigned now id pub ∧
        holderSigned pub (signMessage qc.checkpoint id) ∧
        ∀ other, signMessage other id = signMessage qc.checkpoint id → other = qc.checkpoint := by
  have keyed := certBundle_keyed certs
  obtain ⟨enough, distinct, signers⟩ :=
    verifyQuorum_ok signing ideal qc (certBundle certs) keyed threshold now accepted
  refine ⟨enough, distinct, fun id member => ?_⟩
  obtain ⟨cert, pub, found, certifies, signed⟩ := signers id member
  exact ⟨cert, pub, found, keyed id cert found, certifies, signed, fun _ => signMessage_inj id⟩

/-- A scheme that keeps a table of what was signed and verifies exactly that. -/
def tableSigning (bodies : List Bytes) (messages : List (Bytes × Bytes)) :
    Signing Reference.deps :=
  { sampleSigning with
    ed25519Verify := fun _ body _ => bodies.contains body
    blsVerifyAggregate := fun keys signed _ =>
      keys.length == signed.length && (keys.zip signed).all messages.contains }

theorem tableSigning_ideal (bodies : List Bytes) (messages : List (Bytes × Bytes)) (ca : Bytes) :
    (tableSigning bodies messages).Ideal ca (· ∈ bodies)
      fun pub message => (pub, message) ∈ messages where
  authority _ _ verified := List.contains_iff_mem.mp verified
  aggregate keys signed _ verified := by
    obtain ⟨lengths, listed⟩ := Bool.and_eq_true_iff.mp verified
    refine List.forall₂_iff_zip.mpr ⟨eq_of_beq lengths, fun {pub message} member => ?_⟩
    have contained : messages.contains (pub, message) = true :=
      List.all_eq_true.mp listed (pub, message) member
    have found := List.contains_iff_mem.mp contained
    exact found

/-- The head of the sample log, under a term and at a time. -/
def sampleCheckpoint (term : UInt64) (unix : Int64) : Checkpoint :=
  ⟨1, term, (headOf Reference.sampleLog).digest.bytes, unix⟩

/-- The ids of three nodes. -/
def sampleId (node : Fin 3) : Bytes := str "node" ++ [UInt8.ofNat (48 + node.val)]

def sampleNodeKey (node : Fin 3) : Bytes := str "key" ++ [UInt8.ofNat (48 + node.val)]

/-- The certificates of the nodes, valid until second 100. -/
def sampleCert (node : Fin 3) : NodeCert := ⟨sampleId node, sampleNodeKey node, 100, []⟩

def sampleCerts : List NodeCert := [sampleCert 0, sampleCert 1, sampleCert 2]

def sampleBodies : List Bytes :=
  sampleCerts.map fun cert => certBody cert.nodeID cert.publicKey cert.notAfter

/-- What is signed when nodes sign checkpoints. -/
def sampleSignatures (signings : List (Fin 3 × Checkpoint)) : List (Bytes × Bytes) :=
  signings.map fun signing => (sampleNodeKey signing.1, signMessage signing.2 (sampleId signing.1))

def sampleTable (signings : List (Fin 3 × Checkpoint)) : Signing Reference.deps :=
  tableSigning sampleBodies (sampleSignatures signings)

def sampleQuorum (checkpoint : Checkpoint) (signers : List (Fin 3)) : QuorumCertificate :=
  ⟨checkpoint, signers.map sampleId, []⟩

/-- The first and the second node sign the head, and later the second and the third. -/
def twoMajorities : List (Fin 3 × Checkpoint) :=
  [(0, sampleCheckpoint 1 20), (1, sampleCheckpoint 1 20), (1, sampleCheckpoint 1 40),
    (2, sampleCheckpoint 1 40)]

def earlyQuorum : QuorumCertificate := sampleQuorum (sampleCheckpoint 1 20) [0, 1]

def lateQuorum : QuorumCertificate := sampleQuorum (sampleCheckpoint 1 40) [1, 2]

theorem earlyQuorum_accepted :
    verifyQuorum (sampleTable twoMajorities) [] earlyQuorum (certBundle sampleCerts) 2 50 =
      .ok () := by decide +kernel

/-- A certificate that two of three nodes signed, at a time at which their node certificates are
valid. -/
theorem quorum_verification_sound_majority :
    max 2 1 ≤ (earlyQuorum.signers.length : Int) ∧ earlyQuorum.signers.Nodup ∧
      ∀ id ∈ earlyQuorum.signers, ∃ cert pub, certBundle sampleCerts id = some cert ∧
        cert.nodeID = id ∧
        cert.Certifies (sampleTable twoMajorities) (· ∈ sampleBodies) 50 id pub ∧
        (pub, signMessage earlyQuorum.checkpoint id) ∈ sampleSignatures twoMajorities ∧
        ∀ other, signMessage other id = signMessage earlyQuorum.checkpoint id →
          other = earlyQuorum.checkpoint :=
  quorum_verification_sound (sampleTable twoMajorities) [] _ _ (tableSigning_ideal _ _ [])
    sampleCerts earlyQuorum 2 50 earlyQuorum_accepted

/-! ### Attesting -/

section

variable {deps : Deps} (signing : Signing deps)

/-- The identity of a node on disk: its key, of which the public half and signing are seen here,
and the certificate of that key. A key and a certificate of another key are not loaded. -/
structure NodeSigner where
  pub : signing.PublicKey
  sign : Bytes → Bytes
  cert : NodeCert
  certifies : parseNodePublicKey signing cert.publicKey = .ok pub

variable {signing}

/-- Attests a checkpoint as this node. -/
def NodeSigner.signCheckpoint (signer : NodeSigner signing) (checkpoint : Checkpoint) : Bytes :=
  signer.sign (signMessage checkpoint signer.cert.nodeID)

/-- A statement of a chain head, signed or not. -/
structure Statement where
  checkpoint : Checkpoint
  nodeID : Bytes := []
  signature : Bytes := []
  cert : Bytes := []
  signed : Bool := false

variable (signing) in
def encodeCert (cert : NodeCert) : Except Err Bytes :=
  match signing.nodeCert.marshal cert with
  | .error err => .error err
  | .ok value => deps.pack value

/-- The end of `Attest`: a node with an identity signs the checkpoint. -/
def LedgerService.coSign (signer : Option (NodeSigner signing)) (checkpoint : Checkpoint) :
    Statement :=
  match signer with
  | none => { checkpoint }
  | some signer =>
    { checkpoint
      nodeID := signer.cert.nodeID
      signature := signer.signCheckpoint checkpoint
      cert := (encodeCert signing signer.cert).toOption.getD []
      signed := true }

/-- States the head of a node. A checkpoint that is asked for is signed in place of the node's own
when its height and digest are those of the head; the own one has term zero. -/
def LedgerService.attest (signer : Option (NodeSigner signing)) (head : HashChain) (now : Int64)
    (want : Option Checkpoint) : Statement :=
  let own : Checkpoint := ⟨head.index, 0, head.digest.bytes, now⟩
  match want with
  | none => coSign signer own
  | some wanted =>
    if wanted.height ≠ head.index ∨ wanted.digest ≠ head.digest.bytes then { checkpoint := own }
    else coSign signer wanted

theorem coSign_checkpoint (signer : Option (NodeSigner signing)) (checkpoint : Checkpoint) :
    (LedgerService.coSign signer checkpoint).checkpoint = checkpoint := by
  cases signer <;> rfl

/-- A node signs only checkpoints of the height and the digest of its head. -/
theorem attest_checkpoint (signer : Option (NodeSigner signing)) (head : HashChain) (now : Int64)
    (want : Option Checkpoint) :
    (LedgerService.attest signer head now want).checkpoint.height = head.index ∧
      (LedgerService.attest signer head now want).checkpoint.digest = head.digest.bytes := by
  unfold LedgerService.attest
  cases want with
  | none =>
    rw [coSign_checkpoint]
    exact ⟨rfl, rfl⟩
  | some wanted =>
    simp only
    split
    · exact ⟨rfl, rfl⟩
    · next agrees =>
      rw [coSign_checkpoint]
      rw [not_or, not_not, not_not] at agrees
      exact agrees

end

/-! ### Nodes over one log -/

/-- A node with the checkpoints it has signed. -/
structure Attestor where
  fsm : Fsm
  signed : List Checkpoint

/-- The nodes, and the snapshots they have persisted. -/
structure Attestors (Node : Type) where
  node : Node → Attestor
  snapshots : List Dump

/-- The steps of the nodes. Applying an entry is two of them, since a node may crash, persist its
store and attest between folding the entry and running its command. -/
inductive AttestStep (Node : Type) where
  | advanceChain (node : Node) (env : Env) (entry : Entry)
  | runEntry (node : Node) (env : Env) (entry : Entry)
  | restart (node : Node) (env : Env)
  | persist (node : Node)
  | restore (node : Node) (taken : Nat)
  | attest (node : Node) (env : Env) (want : Option Checkpoint)

/-- The nodes of a cluster that have a ledger identity, by the nodes that run in it. -/
structure Membership {deps : Deps} (signing : Signing deps) (Node : Type) where
  members : List Node
  signer : Node → Option (NodeSigner signing)

section

variable {deps : Deps} {signing : Signing deps} {Node : Type} [DecidableEq Node]
  (membership : Membership signing Node)

/-- What a node answers to a request for its head. -/
def Attestor.statement (attestor : Attestor) (signer : Option (NodeSigner signing)) (env : Env)
    (want : Option Checkpoint) : Statement :=
  LedgerService.attest signer (attestor.fsm.chainHead deps env).1 env.now want

def Attestor.attest (attestor : Attestor) (signer : Option (NodeSigner signing)) (env : Env)
    (want : Option Checkpoint) : Attestor where
  fsm := (attestor.fsm.chainHead deps env).2
  signed :=
    if (attestor.statement signer env want).signed then
      (attestor.statement signer env want).checkpoint :: attestor.signed
    else attestor.signed

def Attestors.update (nodes : Attestors Node) (node : Node) (change : Attestor → Attestor) :
    Attestors Node :=
  { nodes with node := Function.update nodes.node node (change (nodes.node node)) }

/-- Nodes that start on empty data directories. -/
def Attestors.start (deps : Deps) (started : Node → Env) : Attestors Node :=
  ⟨fun node => ⟨Fsm.fresh deps (started node), []⟩, []⟩

def AttestStep.act : AttestStep Node → Attestors Node → Attestors Node
  | .advanceChain node env entry, nodes =>
    nodes.update node fun attestor =>
      { attestor with fsm := attestor.fsm.advanceChain deps env entry }
  | .runEntry node env entry, nodes =>
    nodes.update node fun attestor =>
      { attestor with
        fsm := ⟨(ConsensusDB.runEntry deps env attestor.fsm.store entry).2, attestor.fsm.chain⟩ }
  | .restart node env, nodes =>
    nodes.update node fun attestor => { attestor with fsm := attestor.fsm.restart deps env }
  | .persist node, nodes =>
    { nodes with snapshots := nodes.snapshots ++ [(nodes.node node).fsm.persist] }
  | .restore node taken, nodes =>
    match nodes.snapshots[taken]? with
    | none => nodes
    | some dump =>
      nodes.update node fun attestor => { attestor with fsm := attestor.fsm.restore dump }
  | .attest node env want, nodes =>
    nodes.update node fun attestor => attestor.attest (membership.signer node) env want

/-- The entries a node applies are committed. -/
def AttestStep.Follows (log : List Entry) : AttestStep Node → Prop
  | .advanceChain _ _ entry => entry ∈ log
  | .runEntry _ _ entry => entry ∈ log
  | _ => True

/-- The term of the entry at a height; none is at height zero. -/
def termAt (log : List Entry) (height : UInt64) : UInt64 :=
  ((log.find? fun entry => entry.index == height).map Entry.term).getD 0

/-- What the code leaves to others: the entry folded skips none above the head in memory, which a
restored snapshot does not raise; a command leaves the head record as it is; and a checkpoint that
is signed names the term of the log at its height. -/
def AttestStep.Careful (log : List Entry) : AttestStep Node → Attestors Node → Prop
  | .advanceChain node env entry, nodes =>
    ∀ earlier ∈ log, earlier.index < entry.index →
      earlier.index ≤ ((nodes.node node).fsm.ensureChain deps env).index
  | .runEntry node env entry, nodes =>
    (ConsensusDB.runEntry deps env (nodes.node node).fsm.store entry).2.records deps
        (headEntryKey deps) =
      (nodes.node node).fsm.store.records deps (headEntryKey deps)
  | .attest node env want, nodes =>
    ((nodes.node node).statement (membership.signer node) env want).signed = true →
      ((nodes.node node).statement (membership.signer node) env want).checkpoint.term =
        termAt log ((nodes.node node).statement (membership.signer node) env want).checkpoint.height
  | _, _ => True

omit [DecidableEq Node] in
instance (log : List Entry) (step : AttestStep Node) : Decidable (step.Follows log) :=
  match step with
  | .advanceChain _ _ entry => inferInstanceAs (Decidable (entry ∈ log))
  | .runEntry _ _ entry => inferInstanceAs (Decidable (entry ∈ log))
  | .restart _ _ | .persist _ | .restore _ _ | .attest _ _ _ => .isTrue trivial

omit [DecidableEq Node] in
instance (log : List Entry) (step : AttestStep Node) (nodes : Attestors Node) :
    Decidable (step.Careful membership log nodes) :=
  match step with
  | .advanceChain node env entry => inferInstanceAs (Decidable (∀ earlier ∈ log,
      earlier.index < entry.index →
        earlier.index ≤ ((nodes.node node).fsm.ensureChain deps env).index))
  | .runEntry node env entry => inferInstanceAs (Decidable (
      (ConsensusDB.runEntry deps env (nodes.node node).fsm.store entry).2.records deps
        (headEntryKey deps) =
      (nodes.node node).fsm.store.records deps (headEntryKey deps)))
  | .attest node env want => inferInstanceAs (Decidable (
      ((nodes.node node).statement (membership.signer node) env want).signed = true →
      ((nodes.node node).statement (membership.signer node) env want).checkpoint.term =
        termAt log
          ((nodes.node node).statement (membership.signer node) env want).checkpoint.height))
  | .restart _ _ | .persist _ | .restore _ _ => .isTrue trivial

/-! ### What holds of every node -/

/-- The checkpoint states the log at its height: the fold of the entries up to there, and the term
of the last of them. -/
structure Checkpoint.States (log : List Entry) (checkpoint : Checkpoint) : Prop where
  head : ∃ front, front <+: log ∧ checkpoint.height = (headOf front).index ∧
    checkpoint.digest = (headOf front).digest.bytes
  term : checkpoint.term = termAt log checkpoint.height

/-- Two statements of one log at one height agree. -/
theorem states_unique {log : List Entry} (isLog : IsLog log) {first second : Checkpoint}
    (firstStates : first.States log) (secondStates : second.States log)
    (heights : first.height = second.height) :
    first.term = second.term ∧ first.digest = second.digest := by
  obtain ⟨front, isFront, height, digest⟩ := firstStates.head
  obtain ⟨otherFront, isOther, otherHeight, otherDigest⟩ := secondStates.head
  have fronts := front_unique isLog isFront isOther (by rw [← height, ← otherHeight, heights])
  refine ⟨?_, by rw [digest, otherDigest, fronts]⟩
  rw [firstStates.term, secondStates.term, heights]

/-- The store has no head record, or that of a front part of the log. -/
def HeadSound (deps : Deps) (log : List Entry) (store : Store) : Prop :=
  store.records deps (headEntryKey deps) = none ∨
    ∃ front version, front <+: log ∧
      store.records deps (headEntryKey deps) = some (headRecordOf deps (headOf front) version)

/-- A node keeps the head of a front part of the log in memory and in its head record, and has
signed statements of the log only. -/
structure Attestor.Sound (deps : Deps) (log : List Entry) (attestor : Attestor) : Prop where
  chain : ∃ front, front <+: log ∧ attestor.fsm.chain = some (headOf front)
  head : HeadSound deps log attestor.fsm.store
  signed : ∀ checkpoint ∈ attestor.signed, checkpoint.States log

theorem loadHead_of_headSound (lawful : deps.Lawful) (log : List Entry) (env : Env) (store : Store)
    (sound : HeadSound deps log store) :
    ∃ front, front <+: log ∧ loadHead deps env store = headOf front := by
  have healthy : loadHead deps env store = .genesis ∨
      loadHead deps env store = (store.records deps).loadHead deps env.now := by
    rw [← loadHead_records]
    unfold loadHead
    rcases get_of_fault deps env store { key := some headKey } with ⟨err, failed⟩ | same
    · rw [failed]
      exact Or.inl rfl
    · rw [same]
      exact Or.inr rfl
  rcases healthy with failed | read
  · exact ⟨[], List.nil_prefix, failed⟩
  · rw [read]
    rcases sound with absent | ⟨front, version, isFront, stored⟩
    · refine ⟨[], List.nil_prefix, ?_⟩
      rw [Records.loadHead, absent]
      rfl
    · exact ⟨front, isFront, loadHead_of_headRecord deps lawful env.now _ _ version stored⟩

theorem headSound_storeHead (lawful : deps.Lawful) (log front : List Entry)
    (isFront : front <+: log) (env : Env) (store : Store) (sound : HeadSound deps log store)
    (version : UInt64) (indexed : version ≠ 0) :
    HeadSound deps log
      (storeHead deps env store (headOf front).index (headOf front).digest version) := by
  have healthy : storeHead deps env store (headOf front).index (headOf front).digest version =
        store ∨
      storeHead deps env store (headOf front).index (headOf front).digest version =
        storeHead deps (.healthy env.now) store (headOf front).index (headOf front).digest
          version := by
    unfold storeHead
    split
    · exact Or.inl rfl
    · rcases put_of_fault deps env store { key := some headKey, value := _ } version with
        failed | same
      · exact Or.inl failed
      · rw [same]
        exact Or.inr rfl
  rcases healthy with failed | written
  · rw [failed]
    exact sound
  · right
    refine ⟨front, version, isFront, ?_⟩
    rw [written, storeHead_records deps lawful, storeHead_eq deps lawful _ _ version indexed,
      Function.update_self]

/-- Folding an entry that skips none leads from the head of a front part to the head of one. -/
theorem fold_front {log front : List Entry} (isLog : IsLog log) (isFront : front <+: log)
    {entry : Entry} (member : entry ∈ log)
    (next : ∀ earlier ∈ log, earlier.index < entry.index →
      earlier.index ≤ (headOf front).index) :
    ∃ later, later <+: log ∧ (headOf front).fold entry = headOf later := by
  by_cases replayed : entry.index ≤ (headOf front).index
  · exact ⟨front, isFront, fold_of_le replayed⟩
  · obtain ⟨rest, rfl⟩ := isFront
    have inRest : entry ∈ rest := by
      rcases List.mem_append.mp member with inFront | inRest
      · exact absurd (le_headOf_index isLog.append_left inFront) replayed
      · exact inRest
    obtain ⟨first, others, rfl⟩ := List.exists_cons_of_ne_nil (List.ne_nil_of_mem inRest)
    rcases List.mem_cons.mp inRest with rfl | later
    · exact ⟨front ++ [entry], ⟨others, by rw [List.append_assoc]; rfl⟩,
        (headOf_append front [entry]).symm⟩
    · have skipped := next first (List.mem_append_right _ List.mem_cons_self)
        (isLog.append_right.head_lt later)
      exact absurd (headOf_index_lt isLog List.mem_cons_self) (UInt64.not_lt.mpr skipped)

theorem sound_advanceChain (lawful : deps.Lawful) {log : List Entry} (isLog : IsLog log)
    (attestor : Attestor) (sound : attestor.Sound deps log) (env : Env) (entry : Entry)
    (member : entry ∈ log)
    (next : ∀ earlier ∈ log, earlier.index < entry.index →
      earlier.index ≤ (attestor.fsm.ensureChain deps env).index) :
    Attestor.Sound deps log { attestor with fsm := attestor.fsm.advanceChain deps env entry } := by
  obtain ⟨front, isFront, chain⟩ := sound.chain
  have seeded : attestor.fsm.ensureChain deps env = headOf front := by
    rw [Fsm.ensureChain, chain]
    rfl
  rw [seeded] at next
  obtain ⟨later, isLater, folded⟩ := fold_front isLog isFront member next
  have indexed : entry.index ≠ 0 := by
    have positive := isLog.positive entry member
    grind
  have advanced : attestor.fsm.advanceChain deps env entry =
      ⟨storeHead deps env attestor.fsm.store (headOf later).index (headOf later).digest
        entry.index, some (headOf later)⟩ := by
    rw [Fsm.advanceChain, seeded, folded]
  refine ⟨⟨later, isLater, by rw [advanced]⟩, ?_, sound.signed⟩
  show HeadSound deps log (attestor.fsm.advanceChain deps env entry).store
  rw [advanced]
  exact headSound_storeHead lawful log later isLater env _ sound.head entry.index indexed

theorem sound_restart (lawful : deps.Lawful) {log : List Entry} (attestor : Attestor)
    (sound : attestor.Sound deps log) (env : Env) :
    Attestor.Sound deps log { attestor with fsm := attestor.fsm.restart deps env } := by
  obtain ⟨front, isFront, loaded⟩ := loadHead_of_headSound lawful log env _ sound.head
  exact ⟨⟨front, isFront, congrArg some loaded⟩, sound.head, sound.signed⟩

/-- A restored head record is the snapshot's or the node's own, and the chain in memory stays. -/
theorem sound_restore {log : List Entry} (attestor : Attestor) (sound : attestor.Sound deps log)
    (source : Fsm) (sourceSound : HeadSound deps log source.store) :
    Attestor.Sound deps log { attestor with fsm := attestor.fsm.restore source.persist } := by
  obtain ⟨replaced, kept⟩ := restore_record deps attestor.fsm source (headEntryKey deps)
  refine ⟨sound.chain, ?_, sound.signed⟩
  unfold HeadSound
  by_cases outlives : Mvcc.Outlives attestor.fsm.store.db source.persist (headEntryKey deps)
  · rw [kept outlives]
    exact sound.head
  · rw [replaced outlives]
    exact sourceSound

theorem sound_attest {log : List Entry} (attestor : Attestor) (sound : attestor.Sound deps log)
    (signer : Option (NodeSigner signing)) (env : Env) (want : Option Checkpoint)
    (term : (attestor.statement signer env want).signed = true →
      (attestor.statement signer env want).checkpoint.term =
        termAt log (attestor.statement signer env want).checkpoint.height) :
    (attestor.attest signer env want).Sound deps log := by
  obtain ⟨front, isFront, chain⟩ := sound.chain
  have seeded : attestor.fsm.ensureChain deps env = headOf front := by
    rw [Fsm.ensureChain, chain]
    rfl
  refine ⟨⟨front, isFront, congrArg some seeded⟩, sound.head, ?_⟩
  unfold Attestor.attest
  simp only
  split
  · next signed =>
    intro checkpoint member
    rcases List.mem_cons.mp member with rfl | earlier
    · obtain ⟨height, digest⟩ := attest_checkpoint signer (attestor.fsm.chainHead deps env).1
        env.now want
      have head : (attestor.fsm.chainHead deps env).1 = headOf front := seeded
      rw [head] at height digest
      exact ⟨⟨front, isFront, by rw [Attestor.statement, head]; exact height,
        by rw [Attestor.statement, head]; exact digest⟩, term signed⟩
    · exact sound.signed checkpoint earlier
  · exact sound.signed

/-- Every node is sound, and every snapshot was persisted from a store with a sound head. -/
structure Attestors.Sound (deps : Deps) (log : List Entry) (nodes : Attestors Node) : Prop where
  node : ∀ node, (nodes.node node).Sound deps log
  snapshots : ∀ dump ∈ nodes.snapshots, ∃ source : Fsm, HeadSound deps log source.store ∧
    dump = source.persist

theorem sound_update {log : List Entry} (nodes : Attestors Node) (sound : nodes.Sound deps log)
    (node : Node) (change : Attestor → Attestor)
    (changed : (change (nodes.node node)).Sound deps log) :
    (nodes.update node change).Sound deps log := by
  refine ⟨fun other => ?_, sound.snapshots⟩
  show Attestor.Sound deps log (Function.update nodes.node node _ other)
  by_cases same : other = node
  · rw [same, Function.update_self]
    exact changed
  · rw [Function.update_of_ne same]
    exact sound.node other

theorem sound_step (lawful : deps.Lawful) {log : List Entry} (isLog : IsLog log)
    (step : AttestStep Node) (nodes : Attestors Node)
    (guarded : step.Follows log ∧ step.Careful membership log nodes)
    (sound : nodes.Sound deps log) : (step.act membership nodes).Sound deps log := by
  obtain ⟨follows, careful⟩ := guarded
  cases step with
  | advanceChain node env entry =>
    rw [AttestStep.act]
    refine sound_update nodes sound node _ ?_
    exact sound_advanceChain lawful isLog _ (sound.node node) env entry follows careful
  | runEntry node env entry =>
    rw [AttestStep.act]
    refine sound_update nodes sound node _ ?_
    refine ⟨(sound.node node).chain, ?_, (sound.node node).signed⟩
    have kept : (ConsensusDB.runEntry deps env (nodes.node node).fsm.store entry).2.records deps
        (headEntryKey deps) = (nodes.node node).fsm.store.records deps (headEntryKey deps) :=
      careful
    show HeadSound deps log (ConsensusDB.runEntry deps env (nodes.node node).fsm.store entry).2
    unfold HeadSound
    rw [kept]
    exact (sound.node node).head
  | restart node env =>
    rw [AttestStep.act]
    refine sound_update nodes sound node _ ?_
    exact sound_restart lawful _ (sound.node node) env
  | persist node =>
    refine ⟨sound.node, fun dump member => ?_⟩
    rcases List.mem_append.mp member with earlier | taken
    · exact sound.snapshots dump earlier
    · exact ⟨(nodes.node node).fsm, (sound.node node).head, List.mem_singleton.mp taken⟩
  | restore node taken =>
    rw [AttestStep.act]
    cases found : nodes.snapshots[taken]? with
    | none => exact sound
    | some dump =>
      obtain ⟨source, sourceSound, rfl⟩ := sound.snapshots dump (List.mem_of_getElem? found)
      refine sound_update nodes sound node _ ?_
      exact sound_restore _ (sound.node node) source sourceSound
  | attest node env want =>
    rw [AttestStep.act]
    refine sound_update nodes sound node _ ?_
    exact sound_attest _ (sound.node node) (membership.signer node) env want careful

omit [DecidableEq Node] in
theorem sound_start (lawful : deps.Lawful) (log : List Entry) (started : Node → Env) :
    (Attestors.start deps started).Sound deps log := by
  refine ⟨fun node => ?_, nofun⟩
  have empty : HeadSound deps log Store.empty := Or.inl rfl
  obtain ⟨front, isFront, loaded⟩ := loadHead_of_headSound lawful log (started node) _ empty
  exact ⟨⟨front, isFront, congrArg some loaded⟩, empty, nofun⟩

/-! ### Certificates of one height -/

/-- The members of a cluster: the authority binds their ids to their keys only, and they sign
nothing but what they attest. -/
structure Membership.Honest (authoritySigned : Bytes → Prop)
    (holderSigned : signing.PublicKey → Bytes → Prop) (nodes : Attestors Node) : Prop where
  certified : ∀ node ∈ membership.members, ∀ signer, membership.signer node = some signer →
    ∀ publicKey notAfter, authoritySigned (certBody signer.cert.nodeID publicKey notAfter) →
      parseNodePublicKey signing publicKey = .ok signer.pub
  signs : ∀ node ∈ membership.members, ∀ signer, membership.signer node = some signer →
    ∀ message, holderSigned signer.pub message →
      ∃ checkpoint ∈ (nodes.node node).signed, message = signMessage checkpoint signer.cert.nodeID

/-- The node ids of the members that have one. -/
def Membership.ids : List Bytes :=
  (membership.members.filterMap membership.signer).map fun signer => signer.cert.nodeID

/-- More than half of the members are among the signers. -/
def Membership.Majority (qc : QuorumCertificate) : Prop :=
  membership.members.length < 2 * (qc.signers.filter fun id => membership.ids.contains id).length

instance (qc : QuorumCertificate) : Decidable (membership.Majority qc) :=
  inferInstanceAs (Decidable (_ < _))

omit [DecidableEq Node] in
/-- An accepted certificate that a majority signed carries a checkpoint that a member attested. -/
theorem attested_of_accepted {ca : Bytes} {authoritySigned : Bytes → Prop}
    {holderSigned : signing.PublicKey → Bytes → Prop}
    (ideal : signing.Ideal ca authoritySigned holderSigned) (nodes : Attestors Node)
    (honest : membership.Honest authoritySigned holderSigned nodes) (certs : List NodeCert)
    (qc : QuorumCertificate) (threshold : Int) (now : Int64)
    (accepted : verifyQuorum signing ca qc (certBundle certs) threshold now = .ok ())
    (majority : membership.Majority qc) :
    ∃ node, qc.checkpoint ∈ (nodes.node node).signed := by
  have some_member : (qc.signers.filter fun id => membership.ids.contains id) ≠ [] := by
    intro nobody
    unfold Membership.Majority at majority
    rw [nobody] at majority
    cases majority
  obtain ⟨id, member⟩ := List.exists_mem_of_ne_nil _ some_member
  obtain ⟨inSigners, isMember⟩ := List.mem_filter.mp member
  obtain ⟨signer, listed, rfl⟩ := List.mem_map.mp (List.contains_iff_mem.mp isMember)
  obtain ⟨node, inCluster, identity⟩ := List.mem_filterMap.mp listed
  obtain ⟨_, _, signers⟩ := verifyQuorum_ok signing ideal qc (certBundle certs)
    (certBundle_keyed certs) threshold now accepted
  obtain ⟨cert, pub, _, certifies, signed⟩ := signers _ inSigners
  have bound := honest.certified node inCluster signer identity _ _ certifies.signed
  obtain rfl : pub = signer.pub := Except.ok.inj (certifies.binds.symm.trans bound)
  obtain ⟨checkpoint, inSigned, same⟩ := honest.signs node inCluster signer identity _ signed
  rw [signMessage_inj _ same]
  exact ⟨node, inSigned⟩

/-- Two certificates of one height carry the same term and digest, those of the committed log, when
in the run behind them no node skips an entry above its head, no command writes the head record and
every checkpoint that is signed names the term of the log. -/
theorem quorum_certificates_agree (lawful : deps.Lawful) (log : List Entry) (isLog : IsLog log)
    (started : Node → Env) (steps : List (AttestStep Node))
    (meets : Replay.Meets (AttestStep.act membership)
      (fun step nodes => step.Follows log ∧ step.Careful membership log nodes) steps
      (Attestors.start deps started))
    (ca : Bytes) (authoritySigned : Bytes → Prop)
    (holderSigned : signing.PublicKey → Bytes → Prop)
    (ideal : signing.Ideal ca authoritySigned holderSigned)
    (honest : membership.Honest authoritySigned holderSigned
      (Replay.run (AttestStep.act membership) steps (Attestors.start deps started)))
    (certs otherCerts : List NodeCert) (first second : QuorumCertificate)
    (threshold otherThreshold : Int) (now otherNow : Int64)
    (firstAccepted : verifyQuorum signing ca first (certBundle certs) threshold now = .ok ())
    (secondAccepted : verifyQuorum signing ca second (certBundle otherCerts) otherThreshold
      otherNow = .ok ())
    (firstMajority : membership.Majority first) (secondMajority : membership.Majority second)
    (heights : first.checkpoint.height = second.checkpoint.height) :
    first.checkpoint.term = second.checkpoint.term ∧
      first.checkpoint.digest = second.checkpoint.digest ∧ first.checkpoint.States log := by
  have sound := Replay.run_invariant (AttestStep.act membership) _ (Attestors.Sound deps log)
    (sound_step membership lawful isLog) steps _ meets (sound_start lawful log started)
  obtain ⟨node, signed⟩ := attested_of_accepted membership ideal _ honest certs first threshold now
    firstAccepted firstMajority
  obtain ⟨other, otherSigned⟩ := attested_of_accepted membership ideal _ honest otherCerts second
    otherThreshold otherNow secondAccepted secondMajority
  have states := (sound.node node).signed _ signed
  have otherStates := (sound.node other).signed _ otherSigned
  obtain ⟨terms, digests⟩ := states_unique isLog states otherStates heights
  exact ⟨terms, digests, states⟩

end

/-! ### Three nodes -/

/-- A cluster of three nodes, with what they signed. -/
def sampleMembership (signings : List (Fin 3 × Checkpoint)) :
    Membership (sampleTable signings) (Fin 3) where
  members := [0, 1, 2]
  signer node := some ⟨sampleNodeKey node, id, sampleCert node, rfl⟩

/-- The nodes apply the sample log; the first persists its store, restarts and restores what it
persisted; then nodes are asked to sign checkpoints. -/
def attestSteps (signings : List (Fin 3 × Checkpoint)) : List (AttestStep (Fin 3)) :=
  (Reference.sampleLog.flatMap fun entry => [0, 1, 2].flatMap fun node =>
    [.advanceChain node (.healthy 110) entry, .runEntry node (.healthy 110) entry]) ++
  [.persist 0, .restart 0 (.healthy 120), .restore 0 0] ++
  signings.map fun signing => .attest signing.1 (.healthy 130) (some signing.2)

def attested (signings : List (Fin 3 × Checkpoint)) : Attestors (Fin 3) :=
  Replay.run (AttestStep.act (sampleMembership signings)) (attestSteps signings)
    (Attestors.start Reference.deps fun _ => .healthy 0)

/-- The authority bound each id to one key. -/
theorem sampleBodies_bind (node : Fin 3) (publicKey : Bytes) (notAfter : Int64)
    (certified : certBody (sampleId node) publicKey notAfter ∈ sampleBodies) :
    publicKey = sampleNodeKey node := by
  have ids : ∀ first second : Fin 3, sampleId first = sampleId second → first = second := by decide
  obtain ⟨other, isBody⟩ : ∃ other : Fin 3,
      certBody (sampleId other) (sampleNodeKey other) 100 =
        certBody (sampleId node) publicKey notAfter := by
    simp only [sampleBodies, sampleCerts, List.map_cons, List.map_nil, List.mem_cons,
      List.not_mem_nil, or_false] at certified
    rcases certified with same | same | same
    · exact ⟨0, same.symm⟩
    · exact ⟨1, same.symm⟩
    · exact ⟨2, same.symm⟩
  obtain ⟨front, _⟩ := List.append_inj' isBody (by simp)
  simp only [List.append_assoc] at front
  have behind := List.append_cancel_left (List.append_cancel_left front)
  obtain ⟨sameId, rest⟩ := List.append_inj behind rfl
  rw [← ids other node sameId]
  exact (List.append_cancel_left rest).symm

theorem sampleMembership_honest (signings : List (Fin 3 × Checkpoint))
    (signed : signings.all (fun signing =>
      decide (signing.2 ∈ ((attested signings).node signing.1).signed)) = true) :
    (sampleMembership signings).Honest (· ∈ sampleBodies)
      (fun pub message => (pub, message) ∈ sampleSignatures signings) (attested signings) where
  certified node _ signer identity publicKey notAfter certified := by
    cases identity
    rw [sampleBodies_bind node publicKey notAfter certified]
    rfl
  signs node _ signer identity message listed := by
    cases identity
    have keys : ∀ first second : Fin 3,
        sampleNodeKey first = sampleNodeKey second → first = second := by decide
    obtain ⟨signing, member, same⟩ := List.mem_map.mp listed
    obtain rfl := keys signing.1 node (congrArg Prod.fst same)
    have isSigned := of_decide_eq_true (List.all_eq_true.mp signed signing member)
    exact ⟨signing.2, isSigned, (congrArg Prod.snd same).symm⟩

/-- Two majorities of three nodes sign the head at different times, and state the same log. -/
theorem quorum_certificates_agree_majorities :
    earlyQuorum.checkpoint.digest = lateQuorum.checkpoint.digest ∧
      earlyQuorum.checkpoint.States Reference.sampleLog :=
  (quorum_certificates_agree (sampleMembership twoMajorities) Reference.lawful Reference.sampleLog
    Reference.sampleLog_committed.toIsLog (fun _ => .healthy 0) (attestSteps twoMajorities)
    (by decide +kernel) [] _ _ (tableSigning_ideal _ _ [])
    (sampleMembership_honest twoMajorities (by decide +kernel)) sampleCerts sampleCerts earlyQuorum
    lateQuorum 2 2 50 50 earlyQuorum_accepted (by decide +kernel) (by decide +kernel)
    (by decide +kernel) rfl).2

/-- Two nodes sign the head under two terms. -/
def twoTerms : List (Fin 3 × Checkpoint) :=
  [(0, sampleCheckpoint 1 20), (1, sampleCheckpoint 1 20), (0, sampleCheckpoint 2 20),
    (1, sampleCheckpoint 2 20)]

/-- Nodes sign their head under two terms, so two certificates of one height differ. -/
theorem quorum_terms_differ :
    ¬ ∀ (steps : List (AttestStep (Fin 3))) (first second : QuorumCertificate),
      Replay.Meets (AttestStep.act (sampleMembership twoTerms))
        (fun step _ => step.Follows Reference.sampleLog) steps
        (Attestors.start Reference.deps fun _ => .healthy 0) →
      (sampleMembership twoTerms).Honest (· ∈ sampleBodies)
        (fun pub message => (pub, message) ∈ sampleSignatures twoTerms)
        (Replay.run (AttestStep.act (sampleMembership twoTerms)) steps
          (Attestors.start Reference.deps fun _ => .healthy 0)) →
      verifyQuorum (sampleTable twoTerms) [] first (certBundle sampleCerts) 2 50 = .ok () →
      verifyQuorum (sampleTable twoTerms) [] second (certBundle sampleCerts) 2 50 = .ok () →
      (sampleMembership twoTerms).Majority first → (sampleMembership twoTerms).Majority second →
      first.checkpoint.height = second.checkpoint.height →
      first.checkpoint.term = second.checkpoint.term := by
  intro claim
  have same := claim (attestSteps twoTerms) earlyQuorum
    (sampleQuorum (sampleCheckpoint 2 20) [0, 1]) (by decide +kernel)
    (sampleMembership_honest twoTerms (by decide +kernel)) (by decide +kernel) (by decide +kernel)
    (by decide +kernel) (by decide +kernel) rfl
  revert same
  decide

end ConsensusDB
