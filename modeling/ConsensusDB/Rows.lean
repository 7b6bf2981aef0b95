/-
This file is about the versions of one row: the records whose keys share the three
fields and differ in the timestamp. `GetRecent` and `GetRange` both start a reverse
iterator at the requested key and walk down the row. The first looks at the entry
it meets first and reports an expired one as not found; the second passes expired
entries by until it has enough records.

So the two agree unless the newest version has expired and an older one has not:
`GetRange` then returns the older one, and `GetRecent` nothing.
-/

import ConsensusDB.Enumeration

namespace ConsensusDB

open Wire

/-! ### The versions of a row -/

/-- The entries at and before the position of a key, latest first, as a reverse iterator meets
them. -/
def Store.downFrom (deps : Deps) (store : Store) (key : Key) : List (Bytes × Item) :=
  (store.entries.filter fun entry => keyOrder entry.1 (encodeKey deps key).1).reverse

/-- Those of them that are in the row of the key. -/
def Store.rowVersions (deps : Deps) (store : Store) (key : Key) : List (Bytes × Item) :=
  (store.downFrom deps key).filter fun entry => (encodeKey deps key).2.isPrefixOf entry.1

/-- The entry is one of the row, at or before the position of the key. -/
structure Store.IsVersion (deps : Deps) (store : Store) (key : Key) (entry : Bytes × Item) :
    Prop where
  stored : store.db.read entry.1 = some entry.2
  inRow : (encodeKey deps key).2 <+: entry.1
  before : entry.1 ≤ (encodeKey deps key).1

section

variable (deps : Deps) (store : Store) (key : Key)

theorem rowKey_isPrefix_key : (encodeKey deps key).2 <+: (encodeKey deps key).1 := by
  unfold encodeKey
  split
  · exact List.prefix_append _ _
  · exact List.prefix_rfl

theorem downFrom_descending :
    (store.downFrom deps key).Pairwise fun newer older => older.1 < newer.1 :=
  List.pairwise_reverse.mpr ((entries_strict store).filter _)

theorem mem_downFrom (entry : Bytes × Item) :
    entry ∈ store.downFrom deps key ↔
      store.db.read entry.1 = some entry.2 ∧ entry.1 ≤ (encodeKey deps key).1 := by
  rw [Store.downFrom, List.mem_reverse, List.mem_filter, keyOrder_iff]
  exact and_congr_left fun _ => Mvcc.mem_entries keyOrder store.db entry.1 entry.2

theorem mem_rowVersions (entry : Bytes × Item) :
    entry ∈ store.rowVersions deps key ↔ store.IsVersion deps key entry := by
  rw [Store.rowVersions, List.mem_filter, mem_downFrom, List.isPrefixOf_iff_prefix]
  constructor
  · rintro ⟨⟨stored, before⟩, inRow⟩
    exact ⟨stored, inRow, before⟩
  · rintro ⟨stored, inRow, before⟩
    exact ⟨⟨stored, before⟩, inRow⟩

/-- An iterator that has left the row does not come back to it. -/
theorem downFrom_leaves :
    (store.downFrom deps key).Pairwise fun newer older =>
      (encodeKey deps key).2.isPrefixOf older.1 = true →
        (encodeKey deps key).2.isPrefixOf newer.1 = true := by
  refine (List.Pairwise.and_mem.mp (downFrom_descending deps store key)).imp ?_
  rintro newer older ⟨isNewer, _, descends⟩ inRow
  rw [List.isPrefixOf_iff_prefix] at inRow ⊢
  exact prefix_of_between inRow (rowKey_isPrefix_key deps key) (List.le_of_lt descends)
    ((mem_downFrom deps store key newer).mp isNewer).2

end

/-! ### What the two reads return -/

/-- What a scan sends has a head. -/
theorem head_of_sentRecord {deps : Deps} {now : Int64} {headOnly : Bool} {entry : Bytes × Item}
    {record : Record} (sent : sentRecord deps now headOnly entry = some record) :
    record.head ≠ none := by
  unfold sentRecord at sent
  split at sent
  · split at sent
    · cases sent
    · rw [← Option.some.inj sent]
      exact Option.some_ne_none _
  · cases sent

section

variable (deps : Deps) (now : Int64) (headOnly : Bool)

/-- The loop of a range read takes the records of the unexpired entries of the row. -/
theorem rangeEntries_healthy (rowKey : Bytes) (entries : List (Bytes × Item))
    (decodes : ∀ entry ∈ entries, ∃ key, decodeKey deps entry.1 = some (.ok key))
    (leaves : entries.Pairwise fun newer older =>
      rowKey.isPrefixOf older.1 = true → rowKey.isPrefixOf newer.1 = true)
    (missing round : Nat) :
    Storage.rangeEntries deps (.healthy now) headOnly rowKey missing round entries =
      some (((entries.filter fun entry => rowKey.isPrefixOf entry.1).filterMap
        (sentRecord deps now headOnly)).take missing) := by
  induction entries generalizing missing round with
  | nil => cases missing <;> rfl
  | cons entry rest inductionHypothesis =>
    obtain ⟨itemKey, item⟩ := entry
    obtain ⟨leavesHere, leavesLater⟩ := List.pairwise_cons.mp leaves
    have later := inductionHypothesis
      (fun entry member => decodes entry (List.mem_cons_of_mem _ member)) leavesLater
    cases missing with
    | zero => rfl
    | succ missing =>
      rw [Storage.rangeEntries]
      by_cases inRow : rowKey.isPrefixOf itemKey = true
      · obtain ⟨key, decoded⟩ := decodes _ List.mem_cons_self
        simp only at decoded
        rw [if_pos inRow, decoded, List.filter_cons, if_pos inRow, List.filterMap_cons, sentRecord,
          decoded]
        simp only [fetchRecord_healthy]
        by_cases expired : deps.isExpired now (deps.decodeEnvelope item.value).expiresAt = true
        · simp only [if_pos expired]
          exact later _ _
        · have head : (Storage.itemRecord deps key itemKey item headOnly).head ≠ none :=
            Option.some_ne_none _
          simp only [if_neg expired, if_neg head, later]
          rfl
      · have left : rest.filter (fun entry => rowKey.isPrefixOf entry.1) = [] :=
          List.filter_eq_nil_iff.mpr fun older member inside =>
            inRow (leavesHere older member inside)
        rw [if_neg inRow, List.filter_cons, if_neg inRow, left]
        rfl

variable (lawful : deps.Lawful) (store : Store) (encoded : store.Encoded deps) (key : Key)

include lawful encoded in
theorem decodes_downFrom :
    ∀ entry ∈ store.downFrom deps key, ∃ found, decodeKey deps entry.1 = some (.ok found) := by
  intro entry member
  obtain ⟨stored, _⟩ := (mem_downFrom deps store key entry).mp member
  obtain ⟨found, _, _, decoded⟩ := key_of_entry deps lawful store encoded
    ((Mvcc.mem_entries keyOrder store.db _ _).mpr stored)
  exact ⟨found, decoded⟩

include lawful encoded in
/-- A range read returns the newest unexpired records of the row, up to the number asked for. -/
theorem getRange_healthy (count : Int32) (positive : 0 < count) :
    Storage.getRange deps (.healthy now) store
        { key := some key, headOnly := headOnly, numRecords := count } =
      some (.ok (((store.rowVersions deps key).filterMap (sentRecord deps now headOnly)).take
        count.toNatClampNeg)) := by
  have read := rangeEntries_healthy deps now headOnly (encodeKey deps key).2
    (store.downFrom deps key) (decodes_downFrom deps lawful store encoded key)
    (downFrom_leaves deps store key) count.toNatClampNeg 0
  unfold Storage.getRange
  simp only [ne_eq, not_true_eq_false, if_false, if_neg (Int32.not_le.mpr positive)]
  rw [show (store.entries.filter fun entry => keyOrder entry.1 (encodeKey deps key).1).reverse =
    store.downFrom deps key from rfl, read]
  rfl

include lawful encoded in
/-- The most recent record is that of the newest entry of the row, expired or not. -/
theorem getRecent_healthy :
    ∃ recent, Storage.getRecent deps (.healthy now) store
        { key := some key, headOnly := headOnly } = some (.ok recent) ∧
      (store.rowVersions deps key = [] → recent = Storage.recordNotFound key) ∧
      ∀ newest older, store.rowVersions deps key = newest :: older →
        recent.head = none ∧ sentRecord deps now headOnly newest = none ∨
          sentRecord deps now headOnly newest = some recent := by
  unfold Storage.getRecent
  simp only
  rw [← List.head?_reverse, show (store.entries.filter fun entry =>
    keyOrder entry.1 (encodeKey deps key).1).reverse = store.downFrom deps key from rfl]
  have leaves := downFrom_leaves deps store key
  have decodes := decodes_downFrom deps lawful store encoded key
  unfold Store.rowVersions
  cases reached : store.downFrom deps key with
  | nil =>
    exact ⟨_, rfl, fun _ => rfl, fun _ _ versions => (List.cons_ne_nil _ _ versions.symm).elim⟩
  | cons entry rest =>
    obtain ⟨itemKey, item⟩ := entry
    rw [reached] at leaves decodes
    simp only [List.head?_cons]
    by_cases inRow : (encodeKey deps key).2.isPrefixOf itemKey = true
    · obtain ⟨found, decoded⟩ := decodes _ List.mem_cons_self
      simp only at decoded
      rw [if_pos inRow, decoded, List.filter_cons, if_pos inRow]
      simp only [fetchRecord_healthy]
      refine ⟨_, rfl, fun versions => (List.cons_ne_nil _ _ versions).elim,
        fun newest older versions => ?_⟩
      obtain ⟨rfl, rfl⟩ := List.cons.inj versions
      rw [sentRecord, decoded]
      by_cases expired : deps.isExpired now (deps.decodeEnvelope item.value).expiresAt = true
      · simp only [if_pos expired]
        exact Or.inl ⟨rfl, trivial⟩
      · simp only [if_neg expired]
        exact Or.inr trivial
    · have left : rest.filter (fun entry => (encodeKey deps key).2.isPrefixOf entry.1) = [] :=
        List.filter_eq_nil_iff.mpr fun older member inside =>
          inRow ((List.pairwise_cons.mp leaves).1 older member inside)
      rw [if_neg inRow, List.filter_cons, if_neg inRow, left]
      exact ⟨_, rfl, fun _ => rfl, fun _ _ versions =>
        (List.cons_ne_nil _ _ versions.symm).elim⟩

end

/-! ### The most recent record and the head of the range -/

/-- The record of the entry has expired. -/
def Expired (deps : Deps) (now : Int64) (entry : Bytes × Item) : Prop :=
  deps.isExpired now (deps.decodeEnvelope entry.2.value).expiresAt = true

/-- `GetRecent` returns the record that a range read of one record returns, and reports a record
that was not found when that read returns none. -/
def Store.RecentHeadsRange (deps : Deps) (now : Int64) (store : Store) (key : Key)
    (headOnly : Bool) : Prop :=
  ∃ records recent,
    Storage.getRange deps (.healthy now) store
      { key := some key, headOnly := headOnly, numRecords := 1 } = some (.ok records) ∧
    Storage.getRecent deps (.healthy now) store { key := some key, headOnly := headOnly } =
      some (.ok recent) ∧
    (∀ record, records.head? = some record → recent = record) ∧
    (records = [] → recent.head = none)

/-- When the newest version of the row, at or before the key, has expired, so have the older
ones. -/
def Store.ExpiresInOrder (deps : Deps) (now : Int64) (store : Store) (key : Key) : Prop :=
  ∀ newest, store.IsVersion deps key newest →
    (∀ older, store.IsVersion deps key older → older.1 ≤ newest.1) → Expired deps now newest →
      ∀ older, store.IsVersion deps key older → Expired deps now older

section

variable (deps : Deps) (lawful : deps.Lawful) (now : Int64) (headOnly : Bool) (store : Store)
  (encoded : store.Encoded deps) (key : Key)

include lawful encoded in
theorem sentRecord_eq_none_iff (entry : Bytes × Item) (version : store.IsVersion deps key entry) :
    sentRecord deps now headOnly entry = none ↔ Expired deps now entry := by
  obtain ⟨found, _, _, decoded⟩ := key_of_entry deps lawful store encoded
    ((Mvcc.mem_entries keyOrder store.db _ _).mpr version.stored)
  rw [sentRecord, decoded, Expired]
  simp only [ite_eq_left_iff, reduceCtorEq, imp_false, not_not]

/-- The first entry that the iterator meets in the row is the newest version. -/
theorem newest_of_rowVersions {newest : Bytes × Item} {older : List (Bytes × Item)}
    (versions : store.rowVersions deps key = newest :: older) (entry : Bytes × Item) :
    (store.IsVersion deps key entry ∧
      ∀ other, store.IsVersion deps key other → other.1 ≤ entry.1) ↔ entry = newest := by
  have descends : ∀ other ∈ older, other.1 < newest.1 := by
    have descending := (downFrom_descending deps store key).filter
      fun entry => (encodeKey deps key).2.isPrefixOf entry.1
    rw [show (store.downFrom deps key).filter _ = _ from versions] at descending
    exact (List.pairwise_cons.mp descending).1
  have isVersion : ∀ other, store.IsVersion deps key other ↔ other ∈ newest :: older := by
    intro other
    rw [← mem_rowVersions, versions]
  simp only [isVersion]
  constructor
  · rintro ⟨member, greatest⟩
    rcases List.mem_cons.mp member with same | later
    · exact same
    · exact absurd (descends entry later) (List.not_lt.mpr (greatest newest List.mem_cons_self))
  · rintro rfl
    refine ⟨List.mem_cons_self, fun other member => ?_⟩
    rcases List.mem_cons.mp member with rfl | later
    · exact List.le_refl _
    · exact List.le_of_lt (descends other later)

include lawful encoded in
/-- What the two reads agree on, given the record that `GetRecent` returns. -/
theorem recentHeadsRange_iff {recent : Record}
    (isRecent : Storage.getRecent deps (.healthy now) store
      { key := some key, headOnly := headOnly } = some (.ok recent)) :
    store.RecentHeadsRange deps now key headOnly ↔
      (∀ record, (((store.rowVersions deps key).filterMap
          (sentRecord deps now headOnly)).take 1).head? = some record → recent = record) ∧
        (((store.rowVersions deps key).filterMap (sentRecord deps now headOnly)).take 1 = [] →
          recent.head = none) := by
  have range := getRange_healthy deps now headOnly lawful store encoded key 1 (by decide)
  constructor
  · rintro ⟨records, other, isRange, isOther, facts⟩
    obtain rfl := Except.ok.inj (Option.some.inj (range.symm.trans isRange))
    obtain rfl := Except.ok.inj (Option.some.inj (isRecent.symm.trans isOther))
    exact facts
  · exact fun facts => ⟨_, recent, range, isRecent, facts⟩

include lawful encoded in
/-- Below a newest version that has expired, nothing is left to send exactly when the row expires
in order. -/
theorem expiresInOrder_iff {newest : Bytes × Item} {older : List (Bytes × Item)}
    (versions : store.rowVersions deps key = newest :: older)
    (expired : sentRecord deps now headOnly newest = none) :
    store.ExpiresInOrder deps now key ↔ older.filterMap (sentRecord deps now headOnly) = [] := by
  have isVersion := mem_rowVersions deps store key
  rw [versions] at isVersion
  have newestIs := (newest_of_rowVersions deps store key versions newest).mpr rfl
  have silent := sentRecord_eq_none_iff deps lawful now headOnly store encoded key
  rw [List.filterMap_eq_nil_iff]
  constructor
  · intro ordered entry member
    have version := (isVersion entry).mp (List.mem_cons_of_mem _ member)
    exact (silent entry version).mpr (ordered newest newestIs.1 newestIs.2
      ((silent newest newestIs.1).mp expired) entry version)
  · intro nothing other _ _ _ entry version
    rcases List.mem_cons.mp ((isVersion entry).mpr version) with rfl | member
    · exact (silent entry version).mp expired
    · exact (silent entry version).mp (nothing entry member)

include lawful encoded in
/-- `GetRecent` is the head of `GetRange`, for every requested key and clock, exactly when the
newest version of the row at or before the key has not expired or all of them have. -/
theorem recent_heads_range_iff :
    store.RecentHeadsRange deps now key headOnly ↔ store.ExpiresInOrder deps now key := by
  obtain ⟨recent, isRecent, absent, present⟩ :=
    getRecent_healthy deps now headOnly lawful store encoded key
  rw [recentHeadsRange_iff deps lawful now headOnly store encoded key isRecent]
  cases versions : store.rowVersions deps key with
  | nil =>
    refine iff_of_true ⟨fun record found => (nomatch found), fun _ => ?_⟩ fun newest version => ?_
    · rw [absent versions]
      rfl
    · have member := (mem_rowVersions deps store key newest).mpr version
      rw [versions] at member
      exact absurd member List.not_mem_nil
  | cons newest older =>
    rcases present newest older versions with ⟨hidden, expired⟩ | shown
    · -- the newest has expired: the range goes on to the older ones
      rw [List.filterMap_cons_none expired,
        expiresInOrder_iff deps lawful now headOnly store encoded key versions expired]
      cases found : older.filterMap (sentRecord deps now headOnly) with
      | nil => exact iff_of_true ⟨fun record isHead => (nomatch isHead), fun _ => hidden⟩ rfl
      | cons record rest =>
        refine iff_of_false (fun facts => ?_) (List.cons_ne_nil record rest)
        have same := facts.1 record rfl
        have member : record ∈ older.filterMap (sentRecord deps now headOnly) :=
          found ▸ List.mem_cons_self
        obtain ⟨entry, _, sent⟩ := List.mem_filterMap.mp member
        rw [same] at hidden
        exact head_of_sentRecord sent hidden
    · rw [List.filterMap_cons_some shown]
      refine iff_of_true ⟨fun record isHead => Option.some.inj isHead, fun none => ?_⟩ ?_
      · cases none
      intro other version greatest expired
      obtain rfl := (newest_of_rowVersions deps store key versions other).mp ⟨version, greatest⟩
      have silent := sentRecord_eq_none_iff deps lawful now headOnly store encoded key other version
      cases (silent.mpr expired).symm.trans shown

end

/-- A version of a row. -/
def versionKey (stamp : Int64) : Key := { Reference.sampleKey with timestamp := some ⟨0, stamp⟩ }

/-- A row with two versions, the newer of which expires at second 50. -/
def sampleRow : Store :=
  (runCommand Reference.deps (.healthy 10)
    (runCommand Reference.deps (.healthy 10) Store.empty 1
      (.put { key := some (versionKey 1), value := str "old" })).2 2
    (.put { key := some (versionKey 2), value := str "new", expiresAt := 50 })).2

theorem sampleRow_encoded : sampleRow.Encoded Reference.deps :=
  encoded_runCommand Reference.deps _ _
    (encoded_runCommand Reference.deps _ _ (encoded_empty Reference.deps) 1 _) 2 _

/-- At second 100 the newer version has expired, and the older one is not the most recent. -/
theorem recent_hides_older :
    ¬ sampleRow.RecentHeadsRange Reference.deps 100 (versionKey 3) false := by
  rintro ⟨records, recent, isRange, isRecent, sameHead, -⟩
  have range : Storage.getRange Reference.deps (.healthy 100) sampleRow
      { key := some (versionKey 3), numRecords := 1 } =
        some (.ok [Storage.itemRecord Reference.deps (versionKey 1)
          (encodeKey Reference.deps (versionKey 1)).1
          ⟨Reference.encodeEnvelope 1 0 (str "old"), 0⟩ false]) := by
    decide +kernel
  have hidden : Storage.getRecent Reference.deps (.healthy 100) sampleRow
      { key := some (versionKey 3) } = some (.ok (Storage.recordNotFound (versionKey 2))) := by
    decide +kernel
  obtain rfl := Except.ok.inj (Option.some.inj (range.symm.trans isRange))
  obtain rfl := Except.ok.inj (Option.some.inj (hidden.symm.trans isRecent))
  exact absurd (congrArg Record.head (sameHead _ rfl)) (by decide +kernel)

/-- At second 20 the newer version is the most recent one. -/
theorem recent_heads_range_sample :
    sampleRow.RecentHeadsRange Reference.deps 20 (versionKey 3) false := by
  refine (recent_heads_range_iff Reference.deps Reference.lawful 20 false sampleRow
    sampleRow_encoded (versionKey 3)).mpr ?_
  intro newest version _ expired
  have live : ((sampleRow.rowVersions Reference.deps (versionKey 3)).all fun entry =>
      !Reference.isExpired 20 (Reference.decodeEnvelope entry.2.value).expiresAt) = true := by
    decide +kernel
  have unexpired := List.all_eq_true.mp live newest ((mem_rowVersions _ _ _ _).mpr version)
  rw [show Reference.isExpired 20 (Reference.decodeEnvelope newest.2.value).expiresAt = true from
    expired] at unexpired
  cases unexpired

end ConsensusDB
