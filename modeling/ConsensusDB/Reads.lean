/-
This file is the read half of `pkg/server/storage.go`: `GetRecent`, `GetRange`,
the scans `GetArea` and `Scan`, and `ScanExpired`, which finds what the
reclaimer will remove. They open a read-only transaction and iterate it, so they
are functions of the store and change nothing.

A scan sends its records in blocks. What a caller receives of it is described
by `mem_scanEntries`: every record sent is the fetched, unexpired record of an
entry, under the key the entry's own bytes decode to.
-/

import ConsensusDB.Storage

namespace ConsensusDB

open Wire

/-- The order the engine iterates in. -/
def keyOrder (first second : Bytes) : Bool := Wire.compare first second != Ordering.gt

/-- The live entries of the store as an iterator yields them. -/
def Store.entries (store : Store) : List (Bytes × Item) := store.db.entries keyOrder

theorem keyOrder_iff (first second : Bytes) : keyOrder first second = true ↔ first ≤ second := by
  rw [keyOrder, bne_iff_ne, ne_eq, compare_eq_gt_iff]
  exact List.not_lt

theorem keyOrder_linear : Mvcc.Linear keyOrder where
  total first second := by
    rw [keyOrder_iff, keyOrder_iff]
    exact List.le_total first second
  trans first second third := by
    rw [keyOrder_iff, keyOrder_iff, keyOrder_iff]
    exact List.le_trans
  antisymm first second := by
    rw [keyOrder_iff, keyOrder_iff]
    exact List.le_antisymm

namespace Storage

/-! ### The most recent record of a row -/

/-- A reverse iterator over the row, started at the entry key. `none` is an index panic. -/
def getRecent (deps : Deps) (env : Env) (store : Store) (request : KeyRequest) :
    Option (Except Err Record) :=
  match request.key with
  | none => some (.error .emptyKey)
  | some key =>
    let (entryKey, rowKey) := encodeKey deps key
    match (store.entries.filter fun entry => keyOrder entry.1 entryKey).getLast? with
    | none => some (.ok (recordNotFound key))
    | some (itemKey, item) =>
      if rowKey.isPrefixOf itemKey then
        match decodeKey deps itemKey with
        | none => none
        | some (.error err) => some (.error err)
        | some (.ok actualKey) =>
          some (fetchRecord deps env 0 actualKey itemKey item request.headOnly)
      else some (.ok (recordNotFound key))

/-! ### The records of a row up to a position -/

/-- The loop of `GetRange`, with the number of records that are still to be found. The iterator
ends where the row ends; undecodable keys, values that cannot be fetched and expired records are
skipped. `none` is an index panic. -/
def rangeEntries (deps : Deps) (env : Env) (headOnly : Bool) (rowKey : Bytes) :
    Nat → Nat → List (Bytes × Item) → Option (List Record)
  | 0, _, _ => some []
  | _ + 1, _, [] => some []
  | missing + 1, round, (itemKey, item) :: rest =>
    if rowKey.isPrefixOf itemKey then
      match decodeKey deps itemKey with
      | none => none
      | some (.error _) => rangeEntries deps env headOnly rowKey (missing + 1) (round + 1) rest
      | some (.ok key) =>
        match fetchRecord deps env round key itemKey item headOnly with
        | .error _ => rangeEntries deps env headOnly rowKey (missing + 1) (round + 1) rest
        | .ok record =>
          if record.head = none then
            rangeEntries deps env headOnly rowKey (missing + 1) (round + 1) rest
          else
            (rangeEntries deps env headOnly rowKey missing (round + 1) rest).map (record :: ·)
    else some []

/-- The records of a row at and before the entry key, newest first. -/
def getRange (deps : Deps) (env : Env) (store : Store) (request : RangeRequest) :
    Option (Except Err (List Record)) :=
  match request.key with
  | none => some (.error .emptyKey)
  | some key =>
    if request.type ≠ .lessOrEqual then some (.error .unsupportedOperation)
    else if request.numRecords ≤ 0 then some (.error .wrongSize)
    else
      let (entryKey, rowKey) := encodeKey deps key
      let entries := (store.entries.filter fun entry => keyOrder entry.1 entryKey).reverse
      (rangeEntries deps env request.headOnly rowKey request.numRecords.toNatClampNeg 0
        entries).map .ok

/-! ### Scans -/

def defBlockSize : Nat := 100

/-- What a scan sends, and whether a key that cannot be decoded ended it with an index panic. -/
structure Sent where
  blocks : List (List Record)
  panicked : Bool

/-- The loop of a scan, with the records of the block being filled. Undecodable keys, values
that cannot be fetched and expired records are skipped. -/
def scanEntries (deps : Deps) (env : Env) (headOnly : Bool) :
    Nat → List Record → List (Bytes × Item) → Sent
  | _, records, [] => ⟨if records = [] then [] else [records], false⟩
  | round, records, (itemKey, item) :: rest =>
    match decodeKey deps itemKey with
    | none => ⟨[], true⟩
    | some (.error _) => scanEntries deps env headOnly (round + 1) records rest
    | some (.ok key) =>
      match fetchRecord deps env round key itemKey item headOnly with
      | .error _ => scanEntries deps env headOnly (round + 1) records rest
      | .ok record =>
        if record.head = none then scanEntries deps env headOnly (round + 1) records rest
        else if (records ++ [record]).length = defBlockSize then
          let sent := scanEntries deps env headOnly (round + 1) [] rest
          ⟨(records ++ [record]) :: sent.blocks, sent.panicked⟩
        else scanEntries deps env headOnly (round + 1) (records ++ [record]) rest

def getArea (deps : Deps) (env : Env) (store : Store) (request : KeyRequest) (lastField : Field) :
    Except Err Sent :=
  match request.key with
  | none => .error .emptyKey
  | some key =>
    match encodeKeyPrefix deps key lastField with
    | .error err => .error err
    | .ok area =>
      .ok (scanEntries deps env request.headOnly 0 []
        (store.entries.filter fun entry => area.isPrefixOf entry.1))

def scan (deps : Deps) (env : Env) (store : Store) (headOnly : Bool) : Sent :=
  scanEntries deps env headOnly 0 [] store.entries

/-! ### Expired entries -/

/-- The loop of `ScanExpired`, with the entries found so far. The context may be cancelled in
any round. -/
def expiredEntries (deps : Deps) (env : Env) (cancelled : Nat → Option Err) (limit : Int) :
    Nat → List ReclaimEntry → List (Bytes × Item) → List ReclaimEntry × Option Err
  | _, entries, [] => (entries, none)
  | round, entries, (itemKey, item) :: rest =>
    match cancelled round with
    | some err => (entries, some err)
    | none =>
      match item.valueCopy env round with
      | .error _ => expiredEntries deps env cancelled limit (round + 1) entries rest
      | .ok data =>
        let envelope := deps.decodeEnvelope data
        if deps.isExpired env.now envelope.expiresAt then
          let found := entries ++ [⟨itemKey, envelope.version.toUInt64⟩]
          if limit > 0 && (found.length : Int) ≥ limit then (found, none)
          else expiredEntries deps env cancelled limit (round + 1) found rest
        else expiredEntries deps env cancelled limit (round + 1) entries rest

def scanExpired (deps : Deps) (env : Env) (store : Store) (cancelled : Nat → Option Err)
    (limit : Int) : List ReclaimEntry × Option Err :=
  expiredEntries deps env cancelled limit 0 [] store.entries

end Storage

/-! ### What a scan sends -/

/-- The record is the fetched one of some entry, under the key the entry decodes to. -/
def SentFrom (deps : Deps) (now : Int64) (headOnly : Bool) (entries : List (Bytes × Item))
    (record : Record) : Prop :=
  ∃ entry ∈ entries, ∃ key, decodeKey deps entry.1 = some (.ok key) ∧
    deps.isExpired now (deps.decodeEnvelope entry.2.value).expiresAt = false ∧
    record = Storage.itemRecord deps key entry.1 entry.2 headOnly

/-- Fetching an item fails, or reports it as not found when it has expired, or gives its record. -/
theorem fetchRecord_cases (deps : Deps) (env : Env) (round : Nat) (key : Key) (entryKey : Bytes)
    (item : Item) (headOnly : Bool) (record : Record)
    (fetched : Storage.fetchRecord deps env round key entryKey item headOnly = .ok record) :
    record = Storage.recordNotFound key ∨
      (deps.isExpired env.now (deps.decodeEnvelope item.value).expiresAt = false ∧
        record = Storage.itemRecord deps key entryKey item headOnly) := by
  unfold Storage.fetchRecord Item.valueCopy at fetched
  cases failed : env.fault (.copy round) with
  | some err =>
    rw [failed] at fetched
    cases fetched
  | none =>
    rw [failed] at fetched
    simp only [wrapError_ok] at fetched
    by_cases expired : deps.isExpired env.now (deps.decodeEnvelope item.value).expiresAt = true
    · rw [if_pos expired] at fetched
      exact Or.inl (Except.ok.inj fetched).symm
    · rw [if_neg expired] at fetched
      exact Or.inr ⟨Bool.eq_false_iff.mpr expired, (Except.ok.inj fetched).symm⟩

/-- What a round of a scan does: it panics, it skips the entry, or it adds the record of the entry
to the block, which is sent when it is full. -/
theorem scanEntries_cons (deps : Deps) (env : Env) (headOnly : Bool) (round : Nat)
    (records : List Record) (itemKey : Bytes) (item : Item) (rest : List (Bytes × Item)) :
    (Storage.scanEntries deps env headOnly round records ((itemKey, item) :: rest)).blocks = [] ∨
      Storage.scanEntries deps env headOnly round records ((itemKey, item) :: rest) =
        Storage.scanEntries deps env headOnly (round + 1) records rest ∨
      ∃ key, decodeKey deps itemKey = some (.ok key) ∧
        deps.isExpired env.now (deps.decodeEnvelope item.value).expiresAt = false ∧
        ∃ block, block = records ++ [Storage.itemRecord deps key itemKey item headOnly] ∧
          (Storage.scanEntries deps env headOnly round records ((itemKey, item) :: rest)).blocks =
            if block.length = Storage.defBlockSize then
              block :: (Storage.scanEntries deps env headOnly (round + 1) [] rest).blocks
            else (Storage.scanEntries deps env headOnly (round + 1) block rest).blocks := by
  rw [Storage.scanEntries]
  cases decoded : decodeKey deps itemKey with
  | none => exact Or.inl rfl
  | some outcome =>
    cases outcome with
    | error err => exact Or.inr (Or.inl rfl)
    | ok key =>
      cases fetched : Storage.fetchRecord deps env round key itemKey item headOnly with
      | error err => exact Or.inr (Or.inl (by simp only [fetched]))
      | ok record =>
        by_cases head : record.head = none
        · exact Or.inr (Or.inl (by simp only [fetched, if_pos head]))
        · rcases fetchRecord_cases deps env round key itemKey item headOnly record fetched with
            notFound | ⟨alive, rfl⟩
          · exact absurd (congrArg Record.head notFound) head
          · refine Or.inr (Or.inr ⟨key, rfl, alive, _, rfl, ?_⟩)
            simp only [fetched, if_neg head]
            exact apply_ite Storage.Sent.blocks _ _ _

theorem mem_scanEntries (deps : Deps) (env : Env) (headOnly : Bool)
    (entries : List (Bytes × Item)) (round : Nat) (records : List Record) (record : Record)
    (sent : record ∈ (Storage.scanEntries deps env headOnly round records entries).blocks.flatten) :
    record ∈ records ∨ SentFrom deps env.now headOnly entries record := by
  induction entries generalizing round records with
  | nil =>
    rw [Storage.scanEntries] at sent
    by_cases empty : records = []
    · simp [empty] at sent
    · simpa [empty] using Or.inl sent
  | cons entry rest inductionHypothesis =>
    obtain ⟨itemKey, item⟩ := entry
    have later : SentFrom deps env.now headOnly rest record →
        SentFrom deps env.now headOnly ((itemKey, item) :: rest) record :=
      fun ⟨entry, member, facts⟩ => ⟨entry, List.mem_cons_of_mem _ member, facts⟩
    rcases scanEntries_cons deps env headOnly round records itemKey item rest with
      panicked | skips | ⟨key, decoded, alive, block, isBlock, adds⟩
    · rw [panicked] at sent
      cases sent
    · rw [skips] at sent
      exact (inductionHypothesis _ _ sent).imp_right later
    · have pending : record ∈ block →
          record ∈ records ∨ SentFrom deps env.now headOnly ((itemKey, item) :: rest) record := by
        intro member
        rw [isBlock] at member
        rcases List.mem_append.mp member with earlier | last
        · exact Or.inl earlier
        · exact Or.inr ⟨_, List.mem_cons_self, key, decoded, alive, List.mem_singleton.mp last⟩
      rw [adds] at sent
      split at sent
      · rw [List.flatten_cons] at sent
        rcases List.mem_append.mp sent with isSent | blocks
        · exact pending isSent
        · rcases inductionHypothesis _ [] blocks with earlier | found
          · cases earlier
          · exact Or.inr (later found)
      · rcases inductionHypothesis _ _ sent with isSent | found
        · exact pending isSent
        · exact Or.inr (later found)

/-- A scan ends with an index panic exactly when some key cannot be decoded. -/
theorem panicked_scanEntries (deps : Deps) (env : Env) (headOnly : Bool)
    (entries : List (Bytes × Item)) (round : Nat) (records : List Record) :
    (Storage.scanEntries deps env headOnly round records entries).panicked =
      entries.any fun entry => (decodeKey deps entry.1).isNone := by
  induction entries generalizing round records with
  | nil => rfl
  | cons entry rest inductionHypothesis =>
    obtain ⟨itemKey, item⟩ := entry
    rw [Storage.scanEntries, List.any_cons]
    cases decodeKey deps itemKey with
    | none => rfl
    | some outcome =>
      cases outcome with
      | error err => exact inductionHypothesis _ _
      | ok key =>
        simp only
        cases Storage.fetchRecord deps env round key itemKey item headOnly with
        | error err => exact inductionHypothesis _ _
        | ok record =>
          simp only
          split
          · exact inductionHypothesis _ _
          · split
            · exact inductionHypothesis _ _
            · exact inductionHypothesis _ _

/-- When every key decodes, a scan does not end with an index panic. -/
theorem not_panicked_of_decodes (deps : Deps) (env : Env) (headOnly : Bool)
    (entries : List (Bytes × Item)) (round : Nat) (records : List Record)
    (decodes : ∀ entry ∈ entries, ∃ key, decodeKey deps entry.1 = some (.ok key)) :
    (Storage.scanEntries deps env headOnly round records entries).panicked = false := by
  rw [panicked_scanEntries, List.any_eq_false]
  intro entry member
  obtain ⟨key, decoded⟩ := decodes entry member
  rw [decoded]
  exact Bool.false_ne_true

/-- The record a scan sends of an entry when no engine call fails. -/
def sentRecord (deps : Deps) (now : Int64) (headOnly : Bool) (entry : Bytes × Item) :
    Option Record :=
  match decodeKey deps entry.1 with
  | some (.ok key) =>
    if deps.isExpired now (deps.decodeEnvelope entry.2.value).expiresAt then none
    else some (Storage.itemRecord deps key entry.1 entry.2 headOnly)
  | _ => none

/-- The blocks of a scan that does not panic are the records of its entries, in order. -/
theorem flatten_scanEntries (deps : Deps) (now : Int64) (headOnly : Bool)
    (entries : List (Bytes × Item)) (round : Nat) (records : List Record)
    (decodes : ∀ entry ∈ entries, decodeKey deps entry.1 ≠ none) :
    (Storage.scanEntries deps (.healthy now) headOnly round records entries).blocks.flatten =
      records ++ entries.filterMap (sentRecord deps now headOnly) := by
  induction entries generalizing round records with
  | nil =>
    rw [Storage.scanEntries]
    by_cases empty : records = [] <;> simp [empty]
  | cons entry rest inductionHypothesis =>
    obtain ⟨itemKey, item⟩ := entry
    have restDecodes : ∀ entry ∈ rest, decodeKey deps entry.1 ≠ none :=
      fun entry member => decodes entry (List.mem_cons_of_mem _ member)
    rw [Storage.scanEntries, List.filterMap_cons, sentRecord]
    cases decoded : decodeKey deps itemKey with
    | none => exact absurd decoded (decodes _ List.mem_cons_self)
    | some outcome =>
      cases outcome with
      | error err => exact inductionHypothesis _ _ restDecodes
      | ok key =>
        simp only [fetchRecord_healthy]
        by_cases expired : deps.isExpired now (deps.decodeEnvelope item.value).expiresAt = true
        · simp only [if_pos expired]
          exact inductionHypothesis _ _ restDecodes
        · have head : (Storage.itemRecord deps key itemKey item headOnly).head ≠ none :=
            Option.some_ne_none _
          simp only [if_neg expired, if_neg head]
          split
          · rw [List.flatten_cons, inductionHypothesis _ _ restDecodes, List.nil_append,
              List.append_assoc]
            rfl
          · rw [inductionHypothesis _ _ restDecodes, List.append_assoc]
            rfl

/-- When every key decodes, a scan sends the record of every unexpired entry. -/
theorem sent_of_decodes (deps : Deps) (now : Int64) (headOnly : Bool)
    (entries : List (Bytes × Item)) (round : Nat) (records : List Record)
    (decodes : ∀ entry ∈ entries, ∃ key, decodeKey deps entry.1 = some (.ok key)) (record : Record)
    (found : record ∈ records ∨ SentFrom deps now headOnly entries record) :
    record ∈ (Storage.scanEntries deps (Env.healthy now) headOnly round records
      entries).blocks.flatten := by
  have decodable : ∀ entry ∈ entries, decodeKey deps entry.1 ≠ none := by
    intro entry member
    obtain ⟨key, decoded⟩ := decodes entry member
    rw [decoded]
    exact Option.some_ne_none _
  rw [flatten_scanEntries deps now headOnly entries round records decodable, List.mem_append]
  refine found.imp_right fun ⟨entry, member, key, decoded, alive, isRecord⟩ => ?_
  refine List.mem_filterMap.mpr ⟨entry, member, ?_⟩
  rw [sentRecord, decoded, isRecord]
  exact if_neg (Bool.eq_false_iff.mp alive)

end ConsensusDB
