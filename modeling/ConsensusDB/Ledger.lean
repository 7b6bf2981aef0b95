/-
This file is the hash chain of `pkg/ledger` and its persisted head. Every
committed entry is folded into a running digest; the head of the chain -- the
index and digest of the last folded entry -- is an ordinary record of the
store, under a key of the reserved tenant.

Two things are proved. The chain of a log is a fold, replayed indices leave it
alone, and a chain that resumes at a position of the log ends where the log
ends. The head record is written by an unconditional put, so what it shows
afterwards does not depend on what was there, and it is read back as long as
it is the head's own packing and has not expired.
-/

import Mathlib.Data.List.Induction
import Mathlib.Data.List.TakeWhile
import ConsensusDB.Lib.Sha256
import ConsensusDB.Records

namespace ConsensusDB

open Wire

/-! ### The chain -/

/-- A 32-byte digest. -/
structure Digest where
  bytes : Bytes
  length_eq : bytes.length = 32
  deriving DecidableEq

def genesisDigest : Digest := ⟨List.replicate 32 0, rfl⟩

/-- The bytes `NextDigest` hashes. -/
def digestInput (previous : Digest) (index term : UInt64) (command : Bytes) : Bytes :=
  previous.bytes ++ putUint64 index ++ putUint64 term ++ command

def nextDigest (previous : Digest) (index term : UInt64) (command : Bytes) : Digest :=
  ⟨Sha256.sum (digestInput previous index term command), Sha256.sum_length _⟩

structure HashChain where
  index : UInt64
  digest : Digest
  deriving DecidableEq

def HashChain.genesis : HashChain := ⟨0, genesisDigest⟩

/-- Folds an entry; an index that is not above the head is ignored. -/
def HashChain.advance (chain : HashChain) (index term : UInt64) (command : Bytes) : HashChain :=
  if index ≤ chain.index then chain else ⟨index, nextDigest chain.digest index term command⟩

/-! ### The persisted head -/

def headTenant : Bytes := str "__ledger"

def headRegion : Bytes := str "CHAIN"

def headMinor : Bytes := str "head"

def headKey : Key := ⟨headTenant, headRegion, headMinor, none⟩

/-- The physical key of the head record. -/
def headEntryKey (deps : Deps) : Bytes := (encodeKey deps headKey).1

/-- The head a stored value unpacks to, genesis when it does not unpack to one. -/
def unpackHead (deps : Deps) (value : Bytes) : HashChain :=
  if value = [] then .genesis
  else
    match deps.unpack value with
    | .error _ => .genesis
    | .ok unpacked =>
      match deps.headRecord.unmarshal unpacked with
      | .error _ => .genesis
      | .ok head =>
        if length : head.digest.length = 32 then ⟨head.index, ⟨head.digest, length⟩⟩ else .genesis

def loadHead (deps : Deps) (env : Env) (store : Store) : HashChain :=
  match Storage.get deps env store { key := some headKey } with
  | .error _ => .genesis
  | .ok record => unpackHead deps record.value

/-- The packed head, or the error that keeps it from being stored. -/
def packHead (deps : Deps) (index : UInt64) (digest : Digest) : Except Err Bytes :=
  match deps.headRecord.marshal ⟨index, digest.bytes⟩ with
  | .error err => .error err
  | .ok value => deps.pack value

/-- Persists the head. Errors are dropped. -/
def storeHead (deps : Deps) (env : Env) (store : Store) (index : UInt64) (digest : Digest)
    (commitVersion : UInt64) : Store :=
  match packHead deps index digest with
  | .error _ => store
  | .ok raw =>
    (Storage.put deps env store { key := some headKey, value := raw } commitVersion).2

/-! ### Heads of logs -/

/-- A committed log entry, `raft.Log`. -/
structure Entry where
  index : UInt64
  term : UInt64
  data : Bytes
  deriving DecidableEq

/-- A log: entries of strictly increasing index, all above zero. -/
structure IsLog (entries : List Entry) : Prop where
  increasing : entries.Pairwise fun earlier later => earlier.index < later.index
  positive : ∀ entry ∈ entries, 0 < entry.index

def HashChain.fold (chain : HashChain) (entry : Entry) : HashChain :=
  chain.advance entry.index entry.term entry.data

/-- The chain after the entries of a list, one after another. -/
def HashChain.foldAll (chain : HashChain) (entries : List Entry) : HashChain :=
  entries.foldl HashChain.fold chain

/-- The head of a log: the fold of its entries from genesis. -/
def headOf (entries : List Entry) : HashChain := HashChain.genesis.foldAll entries

@[simp] theorem foldAll_nil (chain : HashChain) : chain.foldAll [] = chain := rfl

@[simp] theorem foldAll_cons (chain : HashChain) (entry : Entry) (rest : List Entry) :
    chain.foldAll (entry :: rest) = (chain.fold entry).foldAll rest := rfl

theorem foldAll_append (chain : HashChain) (first second : List Entry) :
    chain.foldAll (first ++ second) = (chain.foldAll first).foldAll second :=
  List.foldl_append

theorem headOf_append (first second : List Entry) :
    headOf (first ++ second) = (headOf first).foldAll second :=
  foldAll_append _ first second

theorem IsLog.append_left {first second : List Entry} (log : IsLog (first ++ second)) :
    IsLog first where
  increasing := (List.pairwise_append.mp log.increasing).1
  positive entry member := log.positive entry (List.mem_append_left _ member)

theorem IsLog.append_right {first second : List Entry} (log : IsLog (first ++ second)) :
    IsLog second where
  increasing := (List.pairwise_append.mp log.increasing).2.1
  positive entry member := log.positive entry (List.mem_append_right _ member)

theorem IsLog.tail {entry : Entry} {rest : List Entry} (log : IsLog (entry :: rest)) :
    IsLog rest where
  increasing := log.increasing.tail
  positive other member := log.positive other (List.mem_cons_of_mem _ member)

theorem IsLog.lt_of_mem {first second : List Entry} (log : IsLog (first ++ second))
    {earlier later : Entry} (earlierMember : earlier ∈ first) (laterMember : later ∈ second) :
    earlier.index < later.index :=
  (List.pairwise_append.mp log.increasing).2.2 earlier earlierMember later laterMember

theorem IsLog.head_lt {entry : Entry} {rest : List Entry} (log : IsLog (entry :: rest))
    {later : Entry} (member : later ∈ rest) : entry.index < later.index :=
  List.rel_of_pairwise_cons log.increasing member

theorem fold_of_le {chain : HashChain} {entry : Entry} (replayed : entry.index ≤ chain.index) :
    chain.fold entry = chain :=
  if_pos replayed

theorem fold_of_lt {chain : HashChain} {entry : Entry} (fresh : chain.index < entry.index) :
    chain.fold entry =
      ⟨entry.index, nextDigest chain.digest entry.index entry.term entry.data⟩ :=
  if_neg fun le => absurd fresh (by grind)

/-- Replayed entries leave a chain alone. -/
theorem foldAll_of_le (chain : HashChain) (entries : List Entry)
    (replayed : ∀ entry ∈ entries, entry.index ≤ chain.index) : chain.foldAll entries = chain := by
  induction entries with
  | nil => rfl
  | cons entry rest inductionHypothesis =>
    rw [foldAll_cons, fold_of_le (replayed entry List.mem_cons_self)]
    exact inductionHypothesis fun later member => replayed later (List.mem_cons_of_mem _ member)

/-- The index of a folded chain is its own or that of one of the entries. -/
theorem foldAll_index (chain : HashChain) (entries : List Entry) :
    (chain.foldAll entries).index = chain.index ∨
      ∃ entry ∈ entries, (chain.foldAll entries).index = entry.index := by
  induction entries generalizing chain with
  | nil => exact Or.inl rfl
  | cons entry rest inductionHypothesis =>
    rcases inductionHypothesis (chain.fold entry) with own | ⟨later, member, equal⟩
    · by_cases replayed : entry.index ≤ chain.index
      · rw [fold_of_le replayed] at own
        refine Or.inl ?_
        rw [foldAll_cons, fold_of_le replayed, own]
      · refine Or.inr ⟨entry, List.mem_cons_self, ?_⟩
        rw [foldAll_cons, own, fold_of_lt (by grind)]
    · exact Or.inr ⟨later, List.mem_cons_of_mem _ member, equal⟩

/-- A chain below every entry of a non-empty log ends at the log's last index. -/
theorem foldAll_index_last (chain : HashChain) (entries : List Entry) (last : Entry)
    (log : IsLog (entries ++ [last])) (below : chain.index < last.index) :
    (chain.foldAll (entries ++ [last])).index = last.index := by
  have before : (chain.foldAll entries).index < last.index := by
    rcases foldAll_index chain entries with own | ⟨entry, member, equal⟩
    · rw [own]
      exact below
    · rw [equal]
      exact log.lt_of_mem member List.mem_cons_self
  rw [foldAll_append, foldAll_cons, foldAll_nil, fold_of_lt before]

/-- The head of a log is below every later entry. -/
theorem headOf_index_lt {first second : List Entry} (log : IsLog (first ++ second))
    {later : Entry} (member : later ∈ second) : (headOf first).index < later.index := by
  rcases foldAll_index HashChain.genesis first with own | ⟨entry, earlier, equal⟩
  · rw [headOf, own]
    exact log.positive later (List.mem_append_right _ member)
  · rw [headOf, equal]
    exact log.lt_of_mem earlier member

/-- No entry of a log is above its head. -/
theorem le_headOf_index {entries : List Entry} (log : IsLog entries) {entry : Entry}
    (member : entry ∈ entries) : entry.index ≤ (headOf entries).index := by
  induction entries using List.reverseRecOn with
  | nil => cases member
  | append_singleton front last _ =>
    have lastIndex : (headOf (front ++ [last])).index = last.index :=
      foldAll_index_last _ _ _ log (log.positive last (by simp))
    rw [lastIndex]
    rcases List.mem_append.mp member with inFront | isLast
    · exact UInt64.le_of_lt (log.lt_of_mem inFront List.mem_cons_self)
    · rw [List.mem_singleton.mp isLast]
      exact UInt64.le_refl _

/-- A log that goes on has a higher head. -/
theorem nil_of_headOf_index {first rest : List Entry} (log : IsLog (first ++ rest))
    (heads : (headOf (first ++ rest)).index = (headOf first).index) : rest = [] := by
  rcases rest with _ | ⟨next, rest⟩
  · rfl
  · have below := headOf_index_lt log List.mem_cons_self
    have within := le_headOf_index log (List.mem_append_right _ List.mem_cons_self)
    rw [heads] at within
    exact absurd below (UInt64.not_lt.mpr within)

/-- Front parts of one log with heads of one index are the same. -/
theorem front_unique {log first second : List Entry} (isLog : IsLog log)
    (firstPart : first <+: log) (secondPart : second <+: log)
    (heads : (headOf first).index = (headOf second).index) : first = second := by
  have longer (shorter longer : List Entry) (part : shorter <+: longer) (within : longer <+: log)
      (same : (headOf longer).index = (headOf shorter).index) : shorter = longer := by
    obtain ⟨rest, rfl⟩ := part
    obtain ⟨beyond, rfl⟩ := within
    rw [nil_of_headOf_index isLog.append_left same, List.append_nil]
  rcases List.prefix_or_prefix_of_prefix firstPart secondPart with part | part
  · exact longer first second part secondPart heads.symm
  · exact (longer second first part firstPart heads).symm

/-- Redelivering a suffix to the head of the whole log changes nothing. -/
theorem headOf_foldAll_replayed {first second : List Entry} (log : IsLog (first ++ second)) :
    (headOf (first ++ second)).foldAll second = headOf (first ++ second) :=
  foldAll_of_le _ _ fun _ member => le_headOf_index log (List.mem_append_right _ member)

/-! ### Resuming a chain -/

/-- The inputs that are hashed when entries are folded into a chain. -/
def hashedBy : HashChain → List Entry → List Bytes
  | _, [] => []
  | chain, entry :: rest =>
    if entry.index ≤ chain.index then hashedBy chain rest
    else digestInput chain.digest entry.index entry.term entry.data ::
      hashedBy (chain.fold entry) rest

/-- No two different inputs of the list have the same SHA-256 sum. -/
def CollisionFree (inputs : List Bytes) : Prop :=
  ∀ first ∈ inputs, ∀ second ∈ inputs, Sha256.sum first = Sha256.sum second → first = second

theorem CollisionFree.subset {smaller larger : List Bytes} (free : CollisionFree larger)
    (subset : smaller ⊆ larger) : CollisionFree smaller :=
  fun first firstMember second secondMember =>
    free first (subset firstMember) second (subset secondMember)

/-- An input determines the digest, the index, the term and the command it was made of. -/
theorem digestInput_inj {first second : Digest} {index otherIndex term otherTerm : UInt64}
    {command otherCommand : Bytes}
    (equal : digestInput first index term command =
      digestInput second otherIndex otherTerm otherCommand) :
    first = second ∧ index = otherIndex ∧ term = otherTerm ∧ command = otherCommand := by
  obtain ⟨firstBytes, firstLength⟩ := first
  obtain ⟨secondBytes, secondLength⟩ := second
  simp only [digestInput, List.append_assoc] at equal
  obtain ⟨rfl, fields⟩ := List.append_inj equal (firstLength.trans secondLength.symm)
  obtain ⟨indices, rest⟩ := List.append_inj fields (by simp)
  obtain ⟨terms, commands⟩ := List.append_inj rest (by simp)
  exact ⟨rfl, putUint64_inj indices, putUint64_inj terms, commands⟩

theorem hashedBy_append (chain : HashChain) (first second : List Entry) :
    hashedBy chain (first ++ second) =
      hashedBy chain first ++ hashedBy (chain.foldAll first) second := by
  induction first generalizing chain with
  | nil => rfl
  | cons entry rest inductionHypothesis =>
    rw [List.cons_append, hashedBy, hashedBy, foldAll_cons]
    by_cases replayed : entry.index ≤ chain.index
    · rw [if_pos replayed, if_pos replayed, fold_of_le replayed, inductionHypothesis]
    · rw [if_neg replayed, if_neg replayed, inductionHypothesis, List.cons_append]

/-- Without a collision, two chains that end alike over entries above both started from the same
digest. -/
theorem digest_of_foldAll (entries : List Entry) (log : IsLog entries) (nonempty : entries ≠ [])
    (first second : HashChain) (firstBelow : ∀ entry ∈ entries, first.index < entry.index)
    (secondBelow : ∀ entry ∈ entries, second.index < entry.index)
    (free : CollisionFree (hashedBy first entries ++ hashedBy second entries))
    (equal : first.foldAll entries = second.foldAll entries) : first.digest = second.digest := by
  induction entries generalizing first second with
  | nil => exact absurd rfl nonempty
  | cons entry rest inductionHypothesis =>
    have firstFresh : ¬ entry.index ≤ first.index := by
      have below := firstBelow entry List.mem_cons_self
      grind
    have secondFresh : ¬ entry.index ≤ second.index := by
      have below := secondBelow entry List.mem_cons_self
      grind
    have firstFold := fold_of_lt (firstBelow entry List.mem_cons_self)
    have secondFold := fold_of_lt (secondBelow entry List.mem_cons_self)
    rw [hashedBy, if_neg firstFresh, hashedBy, if_neg secondFresh] at free
    have digests : (first.fold entry).digest = (second.fold entry).digest := by
      by_cases last : rest = []
      · rw [last] at equal
        exact congrArg HashChain.digest equal
      · have later : ∀ other ∈ rest, entry.index < other.index := fun other member =>
          log.head_lt member
        refine inductionHypothesis log.tail last _ _ ?_ ?_ (free.subset ?_) equal
        · rw [firstFold]
          exact later
        · rw [secondFold]
          exact later
        · intro input member
          rcases List.mem_append.mp member with inFirst | inSecond
          · exact List.mem_append_left _ (List.mem_cons_of_mem _ inFirst)
          · exact List.mem_append_right _ (List.mem_cons_of_mem _ inSecond)
    rw [firstFold, secondFold] at digests
    have inputs := free _ (List.mem_append_left _ List.mem_cons_self) _
      (List.mem_append_right _ List.mem_cons_self) (congrArg Digest.bytes digests)
    exact (digestInput_inj inputs).1

/-- The leading entries that a chain at the index ignores. -/
def covered (index : UInt64) (entries : List Entry) : List Entry :=
  entries.takeWhile fun entry => entry.index ≤ index

/-- The entries from the first one that a chain at the index does not ignore. -/
def uncovered (index : UInt64) (entries : List Entry) : List Entry :=
  entries.dropWhile fun entry => entry.index ≤ index

theorem covered_append_uncovered (index : UInt64) (entries : List Entry) :
    covered index entries ++ uncovered index entries = entries :=
  List.takeWhile_append_dropWhile

theorem le_of_mem_covered (index : UInt64) (entries : List Entry) (entry : Entry)
    (member : entry ∈ covered index entries) : entry.index ≤ index := by
  have holds := List.mem_takeWhile_imp member
  exact of_decide_eq_true holds

theorem lt_of_mem_uncovered (index : UInt64) (entries : List Entry) (log : IsLog entries)
    (entry : Entry) (member : entry ∈ uncovered index entries) : index < entry.index := by
  induction entries with
  | nil => cases member
  | cons first rest inductionHypothesis =>
    by_cases ignored : first.index ≤ index
    · rw [uncovered, List.dropWhile_cons_of_pos (by simpa using ignored)] at member
      exact inductionHypothesis log.tail member
    · rw [uncovered, List.dropWhile_cons_of_neg (by simpa using ignored)] at member
      rcases List.mem_cons.mp member with rfl | later
      · grind
      · have order := log.head_lt later
        grind

/-- A chain may be continued over the entries after a position of the log: its digest is that of
the log where the entries it does not ignore begin, and if it ignores all of them its index is
that of the log. -/
structure Resumes (chain : HashChain) (before window : List Entry) : Prop where
  digest : chain.digest = (headOf (before ++ covered chain.index window)).digest
  index : covered chain.index window = window → chain.index = (headOf (before ++ window)).index

section

variable (chain : HashChain) (before window : List Entry) (log : IsLog (before ++ window))

/-- A chain is folded over a window from the first entry it does not ignore. -/
theorem foldAll_uncovered :
    chain.foldAll window = chain.foldAll (uncovered chain.index window) := by
  conv_lhs => rw [← covered_append_uncovered chain.index window, foldAll_append]
  rw [foldAll_of_le chain _ (le_of_mem_covered chain.index window)]

theorem headOf_uncovered :
    headOf (before ++ window) =
      (headOf (before ++ covered chain.index window)).foldAll (uncovered chain.index window) := by
  conv_lhs => rw [← covered_append_uncovered chain.index window, ← List.append_assoc, headOf_append]

include log in
theorem log_uncovered :
    IsLog ((before ++ covered chain.index window) ++ uncovered chain.index window) := by
  rw [List.append_assoc, covered_append_uncovered]
  exact log

theorem covered_of_uncovered_nil (nothing : uncovered chain.index window = []) :
    covered chain.index window = window := by
  have whole := covered_append_uncovered chain.index window
  rw [nothing, List.append_nil] at whole
  exact whole

include log in
/-- A chain that may be continued ends at the head of the log. -/
theorem foldAll_of_resumes (resumes : Resumes chain before window) :
    chain.foldAll window = headOf (before ++ window) := by
  have below := lt_of_mem_uncovered chain.index window log.append_right
  have restLog := log_uncovered chain before window log
  rw [foldAll_uncovered, headOf_uncovered chain before window]
  rcases rest : uncovered chain.index window with _ | ⟨first, others⟩
  · have everything := covered_of_uncovered_nil chain window rest
    have sameIndex := resumes.index everything
    have sameDigest := resumes.digest
    rw [everything] at sameDigest ⊢
    obtain ⟨index, digest⟩ := chain
    exact congrArg₂ HashChain.mk sameIndex sameDigest
  · rw [rest] at below restLog
    have ownBelow := below first List.mem_cons_self
    have logBelow := headOf_index_lt restLog List.mem_cons_self
    rw [foldAll_cons, foldAll_cons, fold_of_lt ownBelow, fold_of_lt logBelow, resumes.digest]

include log in
/-- Without a collision a chain that ends at the head of the log is one that may be continued. -/
theorem resumes_of_foldAll
    (free : CollisionFree (hashedBy chain window ++ hashedBy .genesis (before ++ window)))
    (equal : chain.foldAll window = headOf (before ++ window)) : Resumes chain before window := by
  have below := lt_of_mem_uncovered chain.index window log.append_right
  have restLog := log_uncovered chain before window log
  have whole := covered_append_uncovered chain.index window
  rw [foldAll_uncovered, headOf_uncovered chain before window] at equal
  by_cases nothing : uncovered chain.index window = []
  · have everything := covered_of_uncovered_nil chain window nothing
    rw [nothing, everything] at equal
    refine ⟨?_, fun _ => congrArg HashChain.index equal⟩
    rw [everything]
    exact congrArg HashChain.digest equal
  · refine ⟨digest_of_foldAll _ restLog.append_right nothing chain _ below
      (fun entry member => headOf_index_lt restLog member) (free.subset ?_) equal, ?_⟩
    · intro input member
      rcases List.mem_append.mp member with own | logged
      · refine List.mem_append_left _ ?_
        rw [← whole, hashedBy_append, foldAll_of_le chain _ (le_of_mem_covered chain.index window)]
        exact List.mem_append_right _ own
      · refine List.mem_append_right _ ?_
        rw [← whole, ← List.append_assoc, hashedBy_append]
        exact List.mem_append_right _ logged
    · intro everything
      rw [everything] at whole
      exact absurd (List.append_right_eq_self.mp whole) nothing

end

/-! ### The head record -/

theorem refuseKey_headEntryKey (deps : Deps) : refuseKey (headEntryKey deps) = none := by
  show refuseKey (encodeField headTenant ++ encodeField headRegion ++ encodeField headMinor) = none
  decide

/-- What loading the head reads: the head record, unless it has expired. -/
def Records.loadHead (deps : Deps) (now : Int64) (records : Records) : HashChain :=
  match records (headEntryKey deps) with
  | none => .genesis
  | some record =>
    if deps.isExpired now record.expiresAt then .genesis else unpackHead deps record.value

/-- What persisting the head writes. -/
def Records.storeHead (deps : Deps) (records : Records) (chain : HashChain)
    (commitVersion : UInt64) : Records :=
  match packHead deps chain.index chain.digest with
  | .error _ => records
  | .ok raw =>
    Function.update records (headEntryKey deps)
      (some ⟨raw, nextVersion commitVersion (records.versionAt (headEntryKey deps)), 0, 0⟩)

theorem loadHead_records (deps : Deps) (now : Int64) (store : Store) :
    loadHead deps (Env.healthy now) store = (store.records deps).loadHead deps now := by
  unfold loadHead Records.loadHead Storage.get Store.records headEntryKey
  simp only [get_healthy _ _ _ _ (encodeKey_ne_nil deps headKey), newTransaction_read]
  cases store.db.read (encodeKey deps headKey).1 with
  | none => rfl
  | some item =>
    simp only [fetchRecord_healthy, Option.map_some, storedRecord]
    by_cases expired : deps.isExpired now (deps.decodeEnvelope item.value).expiresAt = true
    · rw [if_pos expired, if_pos expired]
      rfl
    · rw [if_neg expired, if_neg expired]
      rfl

theorem storeHead_records (deps : Deps) (lawful : deps.Lawful) (now : Int64) (store : Store)
    (chain : HashChain) (commitVersion : UInt64) :
    (storeHead deps (Env.healthy now) store chain.index chain.digest commitVersion).records deps =
      (store.records deps).storeHead deps chain commitVersion := by
  unfold storeHead Records.storeHead
  cases packHead deps chain.index chain.digest with
  | error err => rfl
  | ok raw =>
    have stored := congrArg Prod.snd
      (view_put deps lawful now store { key := some headKey, value := raw } commitVersion)
    refine Eq.trans stored ?_
    have accepted : refuseKey (encodeKey deps headKey).1 = none := refuseKey_headEntryKey deps
    simp only [Records.put, casRefuses, Bool.false_and, Bool.false_eq_true, if_false,
      Records.write, accepted]
    rfl

/-- A packed head is unpacked to itself. -/
theorem unpackHead_packHead (deps : Deps) (lawful : deps.Lawful) (chain : HashChain) :
    ∃ raw, packHead deps chain.index chain.digest = .ok raw ∧ unpackHead deps raw = chain := by
  obtain ⟨value, packed, marshalled, isPacked, nonempty, unpacked, unmarshalled⟩ :=
    lawful.headRecord ⟨chain.index, chain.digest.bytes⟩
  refine ⟨packed, ?_, ?_⟩
  · rw [packHead, marshalled]
    exact isPacked
  · rw [unpackHead, if_neg nonempty, unpacked]
    simp only [unmarshalled, dif_pos chain.digest.length_eq]

/-- The head record of a chain, stamped with a version. -/
def headRecordOf (deps : Deps) (chain : HashChain) (version : UInt64) : StoredRecord :=
  ⟨(packHead deps chain.index chain.digest).toOption.getD [], version, 0, 0⟩

/-- Persisting a head overwrites the head record, whatever it was. -/
theorem storeHead_eq (deps : Deps) (lawful : deps.Lawful) (records : Records) (chain : HashChain)
    (commitVersion : UInt64) (indexed : commitVersion ≠ 0) :
    records.storeHead deps chain commitVersion =
      Function.update records (headEntryKey deps)
        (some (headRecordOf deps chain commitVersion)) := by
  obtain ⟨raw, packed, _⟩ := unpackHead_packHead deps lawful chain
  rw [Records.storeHead, headRecordOf, packed]
  simp only [nextVersion, if_neg indexed]
  rfl

/-- A persisted head is loaded back at any time. -/
theorem loadHead_of_headRecord (deps : Deps) (lawful : deps.Lawful) (now : Int64)
    (records : Records) (chain : HashChain) (version : UInt64)
    (stored : records (headEntryKey deps) = some (headRecordOf deps chain version)) :
    records.loadHead deps now = chain := by
  obtain ⟨raw, packed, unpacked⟩ := unpackHead_packHead deps lawful chain
  rw [Records.loadHead, stored]
  simp only [headRecordOf, packed, lawful.neverExpires, Bool.false_eq_true, if_false]
  exact unpacked

end ConsensusDB
