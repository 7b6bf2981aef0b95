/-
This file is the certificate authority of `pkg/console/pki.go`. `ensureCA` loads the
authority that is stored; where there is none it takes the one that genesis staged on
the disk of its node, or a fresh one on a node that trusts no authority yet, and
writes it on the condition that none is stored. A call that loses the race reads
again.

Each access to the store is one step, and any number of calls take their steps in any
order, as in the enrollment of nodes. A write on the condition that nothing is stored
leaves a record with a version, and no later write of this kind meets its condition.
So the record is written once, a call that wrote it returns what it wrote, and every
other one returns what it read: the same authority, on every node.
-/

import ConsensusDB.Counters
import ConsensusDB.JoinTokens

namespace ConsensusDB

open Wire Iam

namespace Iam

def caMinor : Bytes := str "ca"

structure CARecord where
  certPEM : Bytes
  keyPEM : Bytes
  createdAt : Int64
  deriving DecidableEq, Repr

/-- The functions of other modules: PEM blocks, certificates and keys, and `Encode` and `Decode` of
authority records. -/
structure Pki where
  Cert : Type
  PrivateKey : Type
  pemDecode : Bytes → Option Bytes
  parseCertificate : Bytes → Except Err Cert
  parseECPrivateKey : Bytes → Except Err PrivateKey
  encode : CARecord → Except Err Bytes
  decode : Bytes → Except Err CARecord

def Pki.Lawful (pki : Pki) : Prop :=
  ∀ record raw, pki.encode record = .ok raw → raw ≠ [] ∧ pki.decode raw = .ok record

/-- An authority that is loaded and can sign. -/
structure CA (pki : Pki) where
  cert : pki.Cert
  key : pki.PrivateKey
  certPEM : Bytes

def CARecord.load (pki : Pki) (record : CARecord) : Except Err (CA pki) :=
  match pki.pemDecode record.certPEM with
  | none => .error (.text "iam: CA cert PEM invalid")
  | some certBlock =>
    match wrapError "iam: CA cert parse" (pki.parseCertificate certBlock) with
    | .error err => .error err
    | .ok cert =>
      match pki.pemDecode record.keyPEM with
      | none => .error (.text "iam: CA key PEM invalid")
      | some keyBlock =>
        match wrapError "iam: CA key parse" (pki.parseECPrivateKey keyBlock) with
        | .error err => .error err
        | .ok key => .ok ⟨cert, key, record.certPEM⟩

end Iam

namespace Authority

/-! ### The calls -/

/-- What a node can read of its `ca.pem` and `ca-key.pem`. -/
structure Disk where
  caCert : Option Bytes
  caKey : Option Bytes
  deriving DecidableEq, Repr

def loadGenesisCA (now : Int64) (disk : Disk) : Option CARecord :=
  match disk.caCert, disk.caKey with
  | some cert, some key => if cert = [] ∨ key = [] then none else some ⟨cert, key, now⟩
  | _, _ => none

def hasTransportCA (disk : Disk) : Bool :=
  match disk.caCert with
  | none => false
  | some pem => pem.length > 0

/-- The authority to publish. What `GenerateCA` returns is given. -/
def newCARecord (now : Int64) (generated : Except Err CARecord) (disk : Disk) :
    Except Err CARecord :=
  match loadGenesisCA now disk with
  | some record => .ok record
  | none =>
    if hasTransportCA disk then
      .error (.text
        "cluster CA not published yet: run this operation against the seed node's console")
    else generated

def caKey : Key := pkiKey caMinor

def loadCA (deps : Deps) (pki : Pki) (env : Env) (store : Store) : Except Err (Option (CA pki)) :=
  match Storage.get deps env store { key := some caKey } with
  | .error err => .error err
  | .ok stored =>
    if stored.value = [] then .ok none
    else
      match wrapError "decode CA" (pki.decode stored.value) with
      | .error err => .error err
      | .ok record =>
        match record.load pki with
        | .error err => .error err
        | .ok ca => .ok (some ca)

/-- Where a call is. -/
inductive Phase (pki : Pki) (Node : Type) where
  | loading (node : Node)
  | creating (record : CARecord) (raw : Bytes)
  | rereading
  | answered (answer : Except Err (CA pki))
  | gone

/-- What a step of a call finds: the store, the clock, and what `GenerateCA` returns. -/
structure Input where
  access : Access
  clock : Int64
  generated : Except Err CARecord

section

variable {Node : Type} (deps : Deps) (pki : Pki) (disks : Node → Disk)

/-- What a call does next with the store it looks at. -/
def look (input : Input) (store : Store) : Phase pki Node → Phase pki Node
  | .loading node =>
    match loadCA deps pki input.access.env store with
    | .error err => .answered (.error err)
    | .ok (some ca) => .answered (.ok ca)
    | .ok none =>
      match newCARecord input.clock input.generated (disks node) with
      | .error err => .answered (.error err)
      | .ok record =>
        match pki.encode record with
        | .error err => .answered (.error err)
        | .ok raw => .creating record raw
  | .rereading =>
    match loadCA deps pki input.access.env store with
    | .ok (some ca) => .answered (.ok ca)
    | _ => .answered (.error (.text "CA creation raced; re-read failed"))
  | phase => phase

def write : Phase pki Node → Option KeyWrite
  | .creating _ raw => some (.put caKey raw (some 0))
  | _ => none

/-- How a call goes on with the status of its write. -/
def resume : Phase pki Node → Except Err Status → Phase pki Node
  | .creating _ _, .error err => .answered (.error err)
  | .creating _ _, .ok ⟨false⟩ => .rereading
  | .creating record _, .ok ⟨true⟩ => .answered (record.load pki)
  | phase, _ => phase

/-- A crash of its node ends a call that has not answered. -/
def Phase.stopped : Phase pki Node → Phase pki Node
  | .answered answer => .answered answer
  | _ => .gone

/-- The calls of `ensureCA` on all nodes. -/
def handler : Handler Node (Phase pki Node) Input where
  first := .loading
  access := Input.access
  look := look deps pki disks
  write := write pki
  resume := resume pki
  stop := Phase.stopped pki

/-! ### What is stored -/

/-- The record of the authority. -/
def caRecord (store : Store) : Option StoredRecord := store.records deps (encodeKey deps caKey).1

/-- The text is that of an authority which a node may publish. -/
def Published (raw : Bytes) : Prop :=
  ∃ node now generated record, newCARecord now generated (disks node) = .ok record ∧
    pki.encode record = .ok raw

/-- A write of the authority is one of `ensureCA`. -/
def Fair (write : KeyWrite) : Prop :=
  write.key = caKey → ∃ raw, write = .put caKey raw (some 0) ∧ Published pki disks raw

/-- What is stored under the authority's key does not change any more. -/
def Later (shared later : Shared) : Prop :=
  ∀ record, caRecord deps shared.store = some record → caRecord deps later.store = some record

structure Global (initial : Store) (shared : Shared) : Prop where
  versioned : ∀ record, caRecord deps shared.store = some record → record.version ≠ 0
  rooted : ∀ record, caRecord deps shared.store = some record →
    caRecord deps initial = some record ∨ Published pki disks record.value
  past : ∀ store ∈ shared.past, ∀ record, caRecord deps store = some record →
    caRecord deps shared.store = some record
  pending : ∀ write ∈ shared.pending, Fair pki disks write

/-- The authority is the one that the store holds. -/
def Stored (store : Store) (ca : CA pki) : Prop :=
  ∃ stored record, caRecord deps store = some stored ∧ pki.decode stored.value = .ok record ∧
    record.load pki = .ok ca

/-- What is known of a call. -/
def Known (shared : Shared) : Phase pki Node → Prop
  | .creating record raw => pki.encode record = .ok raw ∧ Published pki disks raw
  | .answered (.ok ca) => Stored deps pki shared.store ca
  | _ => True

/-- The command of somebody else leaves the authority alone. -/
def Permitted : Event → Prop
  | .other command _ _ => ¬ command.Touches deps caKey
  | .late _ _ _ => True

variable {deps pki disks}

theorem stored_of_loadCA {env : Env} {store : Store} {ca : CA pki}
    (loaded : loadCA deps pki env store = .ok (some ca)) : Stored deps pki store ca := by
  unfold loadCA at loaded
  split at loaded
  · cases loaded
  · rename_i reply got
    split at loaded
    · cases loaded
    · rename_i nonempty
      obtain ⟨stored, head, found, _, _, value⟩ := get_found deps store env caKey reply got nonempty
      rw [value] at loaded
      cases decoded : pki.decode stored.value with
      | error err =>
        rw [decoded] at loaded
        cases loaded
      | ok record =>
        simp only [decoded, wrapError_ok] at loaded
        split at loaded
        · cases loaded
        · rename_i isLoaded
          obtain rfl := Option.some.inj (Except.ok.inj loaded)
          exact ⟨stored, record, found, decoded, isLoaded⟩

theorem Stored.later {shared later : Shared} {ca : CA pki}
    (stored : Stored deps pki shared.store ca) (isLater : Later deps shared later) :
    Stored deps pki later.store ca := by
  obtain ⟨record, decoded, found, facts⟩ := stored
  exact ⟨record, decoded, isLater record found, facts⟩

/-- A store holds one authority. -/
theorem Stored.unique {store : Store} {first second : CA pki}
    (isFirst : Stored deps pki store first) (isSecond : Stored deps pki store second) :
    first = second := by
  obtain ⟨stored, record, found, decoded, loaded⟩ := isFirst
  obtain ⟨other, otherRecord, otherFound, otherDecoded, otherLoaded⟩ := isSecond
  obtain rfl := Option.some.inj (found.symm.trans otherFound)
  obtain rfl := Except.ok.inj (decoded.symm.trans otherDecoded)
  exact Except.ok.inj (loaded.symm.trans otherLoaded)

/-- What was read from an earlier store is still stored. -/
theorem Global.seen {initial : Store} {shared : Shared}
    (global : Global deps pki disks initial shared) (age : Nat) {ca : CA pki}
    (stored : Stored deps pki (shared.seen age) ca) : Stored deps pki shared.store ca := by
  rcases shared.seen_mem age with same | earlier
  · rw [same] at stored
    exact stored
  · obtain ⟨record, decoded, found, facts⟩ := stored
    exact ⟨record, decoded, global.past _ earlier record found, facts⟩

variable (lawful : deps.Lawful)

include lawful in
/-- A write leaves the authority alone, or creates it where there was none. -/
theorem Fair.perform {write : KeyWrite} (fair : Fair pki disks write) (env : Env)
    (version : UInt64) {store : Store}
    (versioned : ∀ record, caRecord deps store = some record → record.version ≠ 0) :
    caRecord deps (write.perform deps env store version).2 = caRecord deps store ∨
      (caRecord deps store = none ∧ ∃ raw created, Published pki disks raw ∧ created ≠ 0 ∧
        caRecord deps (write.perform deps env store version).2 = some ⟨raw, created, 0, 0⟩) := by
  by_cases about : write.key = caKey
  · rcases KeyWrite.perform_cases deps lawful env store version write with
      ⟨same, _⟩ | ⟨_, _, met, stored⟩
    · rw [same]
      exact Or.inl rfl
    · obtain ⟨raw, rfl, published⟩ := fair about
      have unversioned : (store.records deps).versionAt (encodeKey deps caKey).1 = 0 := met 0 rfl
      have absent : caRecord deps store = none := by
        cases found : caRecord deps store with
        | none => rfl
        | some record =>
          refine absurd ?_ (versioned record found)
          rw [Records.versionAt, show store.records deps _ = _ from found] at unversioned
          exact unversioned
      refine Or.inr ⟨absent, raw, nextVersion version 0, published, ?_, ?_⟩
      · unfold nextVersion
        split
        · decide
        · assumption
      · unfold caRecord
        rw [stored, show KeyWrite.key _ = caKey from rfl, Function.update_self, unversioned]
        rfl
  · exact Or.inl (KeyWrite.records_perform_other deps lawful env store version write caKey
      (Ne.symm about))

include lawful in
/-- A write of `ensureCA` that is carried out is stored. -/
theorem caRecord_of_updated {raw : Bytes} {env : Env} {store : Store} {version : UInt64}
    (updated : ((KeyWrite.put caKey raw (some 0)).perform deps env store version).1 =
      .ok ⟨true⟩) :
    ∃ created, caRecord deps
      ((KeyWrite.put caKey raw (some 0)).perform deps env store version).2 =
        some ⟨raw, created, 0, 0⟩ := by
  rcases KeyWrite.perform_cases deps lawful env store version (.put caKey raw (some 0)) with
    ⟨_, silent⟩ | ⟨_, _, _, stored⟩
  · exact absurd updated silent
  · refine ⟨nextVersion version ((store.records deps).versionAt (encodeKey deps caKey).1), ?_⟩
    unfold caRecord
    rw [stored, show KeyWrite.key _ = caKey from rfl, Function.update_self]
    rfl

/-- What a write may leave of the authority is kept in all that is shared. -/
theorem Global.wrote {initial store : Store} {shared : Shared} (version : UInt64)
    (global : Global deps pki disks initial shared)
    (left : caRecord deps store = caRecord deps shared.store ∨
      (caRecord deps shared.store = none ∧ ∃ raw created, Published pki disks raw ∧ created ≠ 0 ∧
        caRecord deps store = some ⟨raw, created, 0, 0⟩)) :
    Global deps pki disks initial (shared.wrote version store) ∧
      Later deps shared (shared.wrote version store) := by
  have later : ∀ record, caRecord deps shared.store = some record →
      caRecord deps store = some record := by
    intro record found
    rcases left with same | ⟨absent, _⟩
    · exact same.trans found
    · cases absent.symm.trans found
  refine ⟨⟨fun record found => ?_, fun record found => ?_, fun each member record found => ?_,
    global.pending⟩, later⟩
  · rcases left with same | ⟨_, raw, created, _, nonzero, isCreated⟩
    · exact global.versioned record (same.symm.trans found)
    · obtain rfl := Option.some.inj (isCreated.symm.trans found)
      exact nonzero
  · rcases left with same | ⟨_, raw, created, published, _, isCreated⟩
    · exact global.rooted record (same.symm.trans found)
    · obtain rfl := Option.some.inj (isCreated.symm.trans found)
      exact Or.inr published
  · rcases List.mem_cons.mp member with rfl | earlier
    · exact later record found
    · exact later record (global.past each earlier record found)

/-! ### Steps -/

section

variable {initial : Store} {shared : Shared} (global : Global deps pki disks initial shared)

include global in
/-- A call that looks at the store has loaded the authority, or it has one to publish. -/
theorem known_look (input : Input) (age : Nat) (phase : Phase pki Node)
    (known : Known deps pki disks shared phase) :
    Known deps pki disks shared (look deps pki disks input (shared.seen age) phase) := by
  cases phase with
  | loading node =>
    rw [look]
    split
    · trivial
    · rename_i loaded
      exact global.seen age (stored_of_loadCA loaded)
    · split
      · trivial
      · rename_i record isRecord
        split
        · trivial
        · rename_i raw encoded
          exact ⟨encoded, node, _, _, record, isRecord, encoded⟩
  | rereading =>
    rw [look]
    split
    · rename_i loaded
      exact global.seen age (stored_of_loadCA loaded)
    · trivial
  | _ => exact known

include lawful global in
/-- A call that publishes an authority. -/
theorem published_step (pkiLawful : pki.Lawful) (mode : Mode) (access : Access) (record : CARecord)
    (raw : Bytes) (encoded : pki.encode record = .ok raw) (published : Published pki disks raw)
    (reply : Except Err Status) (after : Shared)
    (submitted : submit deps mode access (.put caKey raw (some 0)) shared = some (reply, after)) :
    Global deps pki disks initial after ∧ Later deps shared after ∧
      Known deps pki disks after (resume pki (.creating record raw : Phase pki Node) reply) := by
  have fair : Fair pki disks (.put caKey raw (some 0)) := fun _ => ⟨raw, rfl, published⟩
  rcases submit_cases deps mode submitted with ⟨version, _, _, rfl, rfl⟩ | ⟨_, rfl, rfl⟩
  · obtain ⟨isGlobal, later⟩ :=
      global.wrote version (fair.perform lawful access.env version global.versioned)
    refine ⟨isGlobal, later, ?_⟩
    cases replied : ((KeyWrite.put caKey raw (some 0)).perform deps access.env shared.store
        version).1 with
    | error err => trivial
    | ok status =>
      obtain ⟨updated⟩ := status
      cases updated with
      | false => trivial
      | true =>
        obtain ⟨created, stored⟩ := caRecord_of_updated lawful replied
        rw [resume]
        cases loaded : record.load pki with
        | error err => trivial
        | ok ca => exact ⟨_, record, stored, (pkiLawful record raw encoded).2, loaded⟩
  · refine ⟨⟨global.versioned, global.rooted, global.past, fun write member => ?_⟩,
      fun _ found => found, trivial⟩
    rcases List.mem_append.mp member with before | last
    · exact global.pending write before
    · rw [List.mem_singleton.mp last]
      exact fair

include lawful global in
theorem known_next (pkiLawful : pki.Lawful) (mode : Mode) (input : Input) (phase : Phase pki Node)
    (known : Known deps pki disks shared phase) :
    Global deps pki disks initial
        ((handler deps pki disks).next deps mode input shared phase).2 ∧
      Later deps shared ((handler deps pki disks).next deps mode input shared phase).2 ∧
      Known deps pki disks ((handler deps pki disks).next deps mode input shared phase).2
        ((handler deps pki disks).next deps mode input shared phase).1 := by
  rcases (handler deps pki disks).next_cases deps mode input shared phase with
    ⟨_, looked⟩ | waited | ⟨write, reply, after, asked, submitted, resumed⟩
  · rw [looked]
    exact ⟨global, fun _ found => found, known_look global input _ phase known⟩
  · rw [waited]
    exact ⟨global, fun _ found => found, known⟩
  · rw [resumed]
    cases phase with
    | creating record raw =>
      obtain rfl := Option.some.inj asked
      exact published_step lawful global pkiLawful mode _ record raw known.1 known.2 reply after
        submitted
    | _ => cases asked

include lawful global in
theorem event_step (mode : Mode) (event : Event) (permitted : Permitted deps event) :
    Global deps pki disks initial (event.occur deps mode shared) ∧
      Later deps shared (event.occur deps mode shared) := by
  cases event with
  | late position env index =>
    rw [Event.occur]
    split
    · rename_i write version isPending _
      have fair := global.pending write (List.mem_of_getElem? isPending)
      obtain ⟨isGlobal, later⟩ :=
        global.wrote version (fair.perform lawful env version global.versioned)
      exact ⟨⟨isGlobal.versioned, isGlobal.rooted, isGlobal.past, fun other member =>
        isGlobal.pending other (List.mem_of_mem_eraseIdx member)⟩, later⟩
    · exact ⟨global, fun _ found => found⟩
  | other command env index =>
    rw [Event.occur]
    split
    · exact ⟨global, fun _ found => found⟩
    · exact global.wrote _
        (Or.inl (records_of_untouched deps env shared.store lawful _ command caKey permitted))

end

include lawful in
/-- The authority lasts, and so does what is known of the calls. -/
theorem authority_lasting (pkiLawful : pki.Lawful) (mode : Mode) (initial : Store) :
    Requests.Machine.Lasting ((handler deps pki disks).machine deps mode) (fun _ => True)
      (Permitted deps) (Global deps pki disks initial) (Later deps) (Known deps pki disks) where
  refl _ _ found := found
  trans _ _ _ first second record found := second record (first record found)
  kept shared later phase isLater known := by
    cases phase with
    | answered answer =>
      cases answer with
      | error err => trivial
      | ok ca => exact Stored.later known isLater
    | _ => exact known
  first _ _ := trivial
  next input shared phase _ global known :=
    known_next lawful global pkiLawful mode input phase known
  stop shared phase known := by
    cases phase with
    | answered answer => exact known
    | _ => trivial
  occur event shared permitted global := event_step lawful global mode event permitted

end

/-! ### One authority -/

/-- The node ran genesis. -/
def Disk.Seed (cert key : Bytes) (disk : Disk) : Prop :=
  cert ≠ [] ∧ key ≠ [] ∧ disk = ⟨some cert, some key⟩

/-- The node trusts an authority that it has no key of. -/
def Disk.Joiner (disk : Disk) : Prop :=
  (∃ pem, pem ≠ [] ∧ disk.caCert = some pem) ∧ (disk.caKey = none ∨ disk.caKey = some [])

theorem newCARecord_seed {cert key : Bytes} {disk : Disk} (seed : disk.Seed cert key) (now : Int64)
    (generated : Except Err CARecord) : newCARecord now generated disk = .ok ⟨cert, key, now⟩ := by
  obtain ⟨hasCert, hasKey, rfl⟩ := seed
  simp only [newCARecord, loadGenesisCA, hasCert, hasKey, or_self, if_false]

/-- A joiner publishes nothing. -/
theorem newCARecord_joiner {disk : Disk} (joiner : disk.Joiner) (now : Int64)
    (generated : Except Err CARecord) (record : CARecord) :
    newCARecord now generated disk ≠ .ok record := by
  obtain ⟨cert, key⟩ := disk
  obtain ⟨⟨pem, nonempty, rfl⟩, keyless⟩ := joiner
  have trusted : hasTransportCA ⟨some pem, key⟩ = true :=
    decide_eq_true (List.length_pos_of_ne_nil nonempty)
  have unstaged : loadGenesisCA now ⟨some pem, key⟩ = none := by
    rcases keyless with rfl | rfl
    · rfl
    · exact if_pos (Or.inr rfl)
  rw [newCARecord, unstaged]
  simp only [trusted, if_true]
  exact fun impossible => nomatch impossible

section

variable {Id Node : Type} [DecidableEq Id]

/-- The calls, the nodes' crashes and what others do, one after another. -/
def run (deps : Deps) (pki : Pki) (disks : Node → Disk) (mode : Mode) (store : Store)
    (steps : List (Requests.Step Id Node Input Event)) :
    Requests.State Id Shared (Phase pki Node) :=
  Replay.run ((handler deps pki disks).machine deps mode).act steps
    (Requests.begin Id (Shared.fresh store))

variable (deps : Deps) (lawful : deps.Lawful) (pki : Pki) (pkiLawful : pki.Lawful)
  (disks : Node → Disk) (mode : Mode) (store : Store)
  (versioned : ∀ record, caRecord deps store = some record → record.version ≠ 0)
  (steps : List (Requests.Step Id Node Input Event))
  (permitted : ∀ event, .occur event ∈ steps → Permitted deps event)

include lawful pkiLawful versioned permitted

theorem run_known :
    Requests.Machine.AllKnown (Global deps pki disks store) (Known deps pki disks)
      (run deps pki disks mode store steps) := by
  have start : Global deps pki disks store (Shared.fresh store) :=
    ⟨versioned, fun _ found => Or.inl found, fun _ member => absurd member List.not_mem_nil,
      fun _ member => absurd member List.not_mem_nil⟩
  refine ((authority_lasting lawful pkiLawful mode store).run steps _ ?_
    (Requests.Machine.holds_begin _ start)).1
  refine Replay.Meets.of_forall _ _ _ fun step member state => ?_
  cases step with
  | occur event => exact permitted event member
  | _ => trivial

theorem run_later (front back : List (Requests.Step Id Node Input Event))
    (split : steps = front ++ back) :
    Later deps (run deps pki disks mode store front).shared
      (run deps pki disks mode store steps).shared := by
  subst split
  have known := run_known deps lawful pki pkiLawful disks mode store versioned front
    fun event member => permitted event (List.mem_append_left _ member)
  rw [run, run, Replay.run_append]
  refine ((authority_lasting lawful pkiLawful mode store).run back _ ?_ known).2
  refine Replay.Meets.of_forall _ _ _ fun step member state => ?_
  cases step with
  | occur event => exact permitted event (List.mem_append_right _ member)
  | _ => trivial

/-- There is one authority. Of all calls of `ensureCA`, on any nodes, in any order of their reads
and writes, those that succeed return the authority that is stored; what is stored once never
changes; and where one node has staged the authority of genesis and the others join, it is that
one. -/
theorem one_authority :
    (∀ id ca, (run deps pki disks mode store steps).phases id = some (.answered (.ok ca)) →
      Stored deps pki (run deps pki disks mode store steps).shared.store ca ∧
      ∀ other otherCa,
        (run deps pki disks mode store steps).phases other = some (.answered (.ok otherCa)) →
          otherCa = ca) ∧
    (∀ front back, steps = front ++ back → ∀ record,
      caRecord deps (run deps pki disks mode store front).shared.store = some record →
        caRecord deps (run deps pki disks mode store steps).shared.store = some record) ∧
    ∀ seed cert key, (disks seed).Seed cert key → (∀ node, node ≠ seed → (disks node).Joiner) →
      caRecord deps store = none → ∀ record,
        caRecord deps (run deps pki disks mode store steps).shared.store = some record →
          ∃ createdAt, pki.decode record.value = .ok ⟨cert, key, createdAt⟩ := by
  obtain ⟨global, known⟩ :=
    run_known deps lawful pki pkiLawful disks mode store versioned steps permitted
  refine ⟨fun id ca answered => ?_, fun front back split record found =>
    run_later deps lawful pki pkiLawful disks mode store versioned steps permitted front back split
      record found, fun seed cert key staged joiners absent record found => ?_⟩
  · have stored : Stored deps pki _ ca := known id _ answered
    refine ⟨stored, fun other otherCa otherAnswered => ?_⟩
    have otherStored : Stored deps pki _ otherCa := known other _ otherAnswered
    exact otherStored.unique stored
  · rcases global.rooted record found with initially | ⟨node, now, generated, made, isMade, encoded⟩
    · cases absent.symm.trans initially
    · by_cases isSeed : node = seed
      · rw [isSeed, newCARecord_seed staged] at isMade
        obtain rfl := Except.ok.inj isMade
        exact ⟨now, (pkiLawful _ _ encoded).2⟩
      · exact absurd isMade (newCARecord_joiner (joiners node isSeed) now generated made)

end

/-! ### Samples -/

/-- Authority records in a binary format; a block is its text, and so is what it holds. -/
def samplePki : Pki where
  Cert := Bytes
  PrivateKey := Bytes
  pemDecode := some
  parseCertificate := .ok
  parseECPrivateKey := .ok
  encode record := .ok ((Format.bytes.pair (Format.bytes.pair Format.long)).put
    (record.certPEM, record.keyPEM, record.createdAt))
  decode raw :=
    match (Format.bytes.pair (Format.bytes.pair Format.long)).getAll raw with
    | none => .error (.text "decode")
    | some parts => .ok ⟨parts.1, parts.2.1, parts.2.2⟩

theorem samplePki_lawful : samplePki.Lawful := by
  rintro ⟨certPEM, keyPEM, createdAt⟩ raw encoded
  obtain rfl := Except.ok.inj encoded
  refine ⟨Format.put_ne_nil _ (by decide) _, ?_⟩
  simp only [samplePki, Format.getAll_put]

/-- The seed and a joiner. -/
def sampleDisks : Bool → Disk
  | true => ⟨some (str "root"), some (str "key")⟩
  | false => ⟨some (str "root"), none⟩

/-- A step on a healthy node that reads the current store. -/
def sampleStep (index : UInt64) : Input :=
  ⟨.healthy 100 index, 100, .error (.text "no entropy")⟩

/-- Two calls on the seed that both find nothing, and a call on a joiner after them. -/
def race : List (Requests.Step Nat Bool Input Event) :=
  [.start 0 true, .start 1 true, .advance 0 (sampleStep 1), .advance 1 (sampleStep 1),
    .advance 0 (sampleStep 1), .advance 1 (sampleStep 2), .advance 1 (sampleStep 2),
    .start 2 false, .advance 2 (sampleStep 3)]

/-- The authority a call has returned. -/
def Phase.root {pki : Pki} {Node : Type} : Phase pki Node → Option (CA pki)
  | .answered (.ok ca) => some ca
  | _ => none

theorem answered_of_root {pki : Pki} {Node : Type} {phase : Phase pki Node} {ca : CA pki}
    (root : phase.root = some ca) : phase = .answered (.ok ca) := by
  unfold Phase.root at root
  split at root
  · rw [Option.some.inj root]
  · cases root

/-- The first call creates the authority, the second one loses the race, and the joiner finds it. -/
theorem one_authority_race :
    ∃ ca, ca.certPEM = str "root" ∧
      (run Reference.deps samplePki sampleDisks .replicated Store.empty race).phases 2 =
        some (.answered (.ok ca)) ∧
      Stored Reference.deps samplePki (run Reference.deps samplePki sampleDisks .replicated
        Store.empty race).shared.store ca := by
  have answered : ((run Reference.deps samplePki sampleDisks .replicated Store.empty race).phases
      2).bind (fun phase => phase.root.map CA.certPEM) = some (str "root") := by decide +kernel
  obtain ⟨phase, found, root⟩ := Option.bind_eq_some_iff.mp answered
  obtain ⟨ca, isRoot, certPEM⟩ := Option.map_eq_some_iff.mp root
  rw [answered_of_root isRoot] at found
  exact ⟨ca, certPEM, found, ((one_authority Reference.deps Reference.lawful samplePki
    samplePki_lawful sampleDisks .replicated Store.empty (fun _ found => nomatch found) race
    (by simp [race])).1 2 ca found).1⟩

end Authority

end ConsensusDB
