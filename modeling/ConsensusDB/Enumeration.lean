/-
This file says what an enumeration delivers: the record of every unexpired entry
under the request prefix, once, and nothing else. A scan reads the entries in the
order of their bytes and cuts what it sends into blocks of at most a hundred
records; an ordered enumeration collects the blocks and sorts them by minor key.

Every stored key is the encoding of a record key the engine accepted, so it is
read back whole, and the bytes a scan selects by are a selection of keys.
-/

import ConsensusDB.Selection

namespace ConsensusDB

open Wire

/-- Every stored key is the entry key of a record key and was accepted by the engine. -/
def Store.Encoded (deps : Deps) (store : Store) : Prop :=
  ∀ entry ∈ store.entries, refuseKey entry.1 = none ∧ ∃ key, entry.1 = (encodeKey deps key).1

/-- The record of an unexpired entry whose key is under the request prefix. -/
def LiveUnder (deps : Deps) (now : Int64) (store : Store) (prefixKey : Option Key)
    (record : Record) : Prop :=
  ∃ key item, store.db.read (encodeKey deps key).1 = some item ∧ key.Under prefixKey ∧
    deps.isExpired now (deps.decodeEnvelope item.value).expiresAt = false ∧
    record = Storage.itemRecord deps key (encodeKey deps key).1 item false

/-- The entry key of the first record is before that of the second. -/
def EntryBefore (deps : Deps) (first second : Record) : Prop :=
  ∃ firstKey secondKey, first.key = some firstKey ∧ second.key = some secondKey ∧
    (encodeKey deps firstKey).1 < (encodeKey deps secondKey).1

/-- The order of the minor keys of two records, the other way round when reversed. -/
def MinorsInOrder (reverse : Bool) (first second : Record) : Prop :=
  if reverse then VrpcDataService.minorKeyOf second ≤ VrpcDataService.minorKeyOf first
  else VrpcDataService.minorKeyOf first ≤ VrpcDataService.minorKeyOf second

/-! ### Stores whose keys were written by the operations -/

theorem encoded_empty (deps : Deps) : Store.empty.Encoded deps := by
  intro entry member
  have present := (Mvcc.mem_entries keyOrder Store.empty.db entry.1 entry.2).mp member
  cases present

/-- Each command writes under entry keys of record keys, or only takes entries away. -/
theorem encoded_runCommand (deps : Deps) (env : Env) (store : Store)
    (encoded : store.Encoded deps) (commitVersion : UInt64) (command : Command) :
    (runCommand deps env store commitVersion command).2.Encoded deps := by
  intro entry member
  have present := (Mvcc.mem_entries keyOrder _ entry.1 entry.2).mp member
  by_cases changed : (runCommand deps env store commitVersion command).2.db.read entry.1 =
      store.db.read entry.1
  · rw [changed] at present
    exact encoded entry ((Mvcc.mem_entries keyOrder _ entry.1 entry.2).mpr present)
  · by_cases sweeps : command.IsSweep
    · cases command with
      | reclaim request =>
        obtain ⟨_, performed⟩ := reclaim_performed deps env store commitVersion request
        rcases kept_or_removed_of_performed performed entry.1 with kept | removed
        · exact absurd kept changed
        · exact absurd (present.symm.trans removed) (Option.some_ne_none _)
      | _ => exact sweeps.elim
    · obtain ⟨accepted, key, _, isEncoded⟩ :=
        runCommand_named deps env store commitVersion command sweeps entry.1 changed
      exact ⟨accepted, key, isEncoded.symm⟩

/-! ### Blocks -/

/-- A scan that is filling a block sends no empty one and none longer than a block. -/
theorem length_of_block (deps : Deps) (env : Env) (headOnly : Bool)
    (entries : List (Bytes × Item)) (round : Nat) (records : List Record)
    (filling : records.length < Storage.defBlockSize) (block : List Record)
    (sent : block ∈ (Storage.scanEntries deps env headOnly round records entries).blocks) :
    1 ≤ block.length ∧ block.length ≤ Storage.defBlockSize := by
  induction entries generalizing round records with
  | nil =>
    rw [Storage.scanEntries] at sent
    by_cases empty : records = []
    · rw [if_pos empty] at sent
      cases sent
    · rw [if_neg empty] at sent
      rw [List.mem_singleton.mp sent]
      exact ⟨List.length_pos_iff.mpr empty, filling.le⟩
  | cons entry rest inductionHypothesis =>
    obtain ⟨itemKey, item⟩ := entry
    rcases scanEntries_cons deps env headOnly round records itemKey item rest with
      panicked | skips | ⟨key, _, _, filled, isFilled, adds⟩
    · rw [panicked] at sent
      cases sent
    · rw [skips] at sent
      exact inductionHypothesis _ _ filling sent
    · rw [adds] at sent
      by_cases full : filled.length = Storage.defBlockSize
      · rw [if_pos full] at sent
        rcases List.mem_cons.mp sent with rfl | later
        · exact ⟨by rw [full]; decide, full.le⟩
        · exact inductionHypothesis _ [] (by decide) later
      · rw [if_neg full] at sent
        refine inductionHypothesis _ _ (lt_of_le_of_ne ?_ full) sent
        rw [isFilled, List.length_append]
        exact filling

/-! ### Entries -/

section

variable (deps : Deps) (lawful : deps.Lawful) (now : Int64) (store : Store)
  (encoded : store.Encoded deps)

/-- An iterator yields the entries in the order of their keys and no key twice. -/
theorem entries_strict : store.entries.Pairwise fun first second => first.1 < second.1 := by
  have sorted := Mvcc.entries_sorted keyOrder_linear store.db
  have distinct : store.entries.Pairwise fun first second => first ≠ second :=
    Mvcc.entries_nodup keyOrder store.db
  refine (List.Pairwise.and_mem.mp (sorted.and distinct)).imp ?_
  intro first second ⟨isFirst, isSecond, ordered, different⟩
  by_contra notBefore
  have sameKey : first.1 = second.1 :=
    List.le_antisymm ((keyOrder_iff first.1 second.1).mp ordered) (List.not_lt.mp notBefore)
  refine different ?_
  -- the store shows one item under a key
  have firstRead := (Mvcc.mem_entries keyOrder store.db first.1 first.2).mp isFirst
  have secondRead := (Mvcc.mem_entries keyOrder store.db second.1 second.2).mp isSecond
  rw [sameKey, secondRead] at firstRead
  exact Prod.ext sameKey (Option.some.inj firstRead).symm

include lawful encoded in
/-- Every entry is read back as the one key it encodes. -/
theorem key_of_entry {entry : Bytes × Item} (member : entry ∈ store.entries) :
    ∃ key : Key, key.Uncut ∧ entry.1 = (encodeKey deps key).1 ∧
      decodeKey deps entry.1 = some (.ok key) := by
  obtain ⟨accepted, key, isEncoded⟩ := encoded entry member
  rw [isEncoded] at accepted
  have uncut := uncut_of_accepted deps key accepted
  refine ⟨key, uncut, isEncoded, ?_⟩
  rw [isEncoded]
  exact decodeKey_encodeKey deps lawful key uncut

/-- A prefix that is in front of a key the engine accepts has no cut field. -/
theorem uncut_of_selected (asked : Key) (area entryKey : Bytes)
    (watched : watchPrefix deps (some asked) = .ok area) (selected : area <+: entryKey)
    (accepted : refuseKey entryKey = none) : asked.Uncut := by
  have short := selected.length_le.trans (length_of_accepted accepted)
  have nothing : ([] : Bytes).length ≤ maxKeyLength := Nat.zero_le _
  rcases areaField_depth asked with ⟨minorSet, _⟩ | ⟨noMinor, regionSet, _⟩ |
    ⟨noMinor, noRegion, majorSet, _⟩ | ⟨noMinor, noRegion, noMajor, _⟩
  · simp only [watchPrefix, if_pos minorSet] at watched
    obtain rfl := Except.ok.inj watched
    simp only [List.length_append, encodeField_length] at short
    exact ⟨le_maxKeyLength_of_stored _ (by omega), le_maxKeyLength_of_stored _ (by omega),
      le_maxKeyLength_of_stored _ (by omega)⟩
  · simp only [watchPrefix, noMinor, if_pos regionSet, ne_eq, not_true, if_false] at watched
    obtain rfl := Except.ok.inj watched
    simp only [List.length_append, encodeField_length] at short
    exact ⟨le_maxKeyLength_of_stored _ (by omega), le_maxKeyLength_of_stored _ (by omega),
      noMinor ▸ nothing⟩
  · simp only [watchPrefix, noMinor, noRegion, if_pos majorSet, ne_eq, not_true,
      if_false] at watched
    obtain rfl := Except.ok.inj watched
    simp only [encodeField_length] at short
    exact ⟨le_maxKeyLength_of_stored _ (by omega), noRegion ▸ nothing, noMinor ▸ nothing⟩
  · exact ⟨noMajor ▸ nothing, noRegion ▸ nothing, noMinor ▸ nothing⟩

/-- A prefix that a key without cut fields is under has none either. -/
theorem uncut_of_under (asked key : Key) (uncut : key.Uncut) (under : key.Under (some asked)) :
    asked.Uncut := by
  obtain ⟨major, region, minor⟩ := under
  have field (own other : Bytes) (short : other.length ≤ maxKeyLength)
      (agrees : own ≠ [] → other = own) : own.length ≤ maxKeyLength := by
    by_cases set : own = []
    · rw [set]
      exact Nat.zero_le _
    · rw [← agrees set]
      exact short
  exact ⟨field _ _ uncut.majorKey fun set => major (Or.inl set),
    field _ _ uncut.regionName fun set => region (Or.inl set), field _ _ uncut.minorKey minor⟩

/-- Of the keys the engine accepts, a prefix selects those under it. One with a field that is cut
selects none, and none is under it. -/
theorem selected_iff_under (prefixKey : Option Key) (area : Bytes)
    (watched : watchPrefix deps prefixKey = .ok area) (key : Key)
    (accepted : refuseKey (encodeKey deps key).1 = none) :
    area.isPrefixOf (encodeKey deps key).1 = true ↔ key.Under prefixKey := by
  have uncut := uncut_of_accepted deps key accepted
  constructor
  · intro selected
    refine (watchPrefix_isPrefix_iff deps prefixKey ?_ area watched key uncut).mp selected
    rintro asked rfl
    exact uncut_of_selected deps asked area _ watched (List.isPrefixOf_iff_prefix.mp selected)
      accepted
  · intro under
    refine (watchPrefix_isPrefix_iff deps prefixKey ?_ area watched key uncut).mpr under
    rintro asked rfl
    exact uncut_of_under asked key uncut under

/-! ### What the scan of an enumeration sends -/

include lawful encoded in
theorem sentRecord_entry {entry : Bytes × Item} (member : entry ∈ store.entries)
    (record : Record) : sentRecord deps now false entry = some record ↔
      ∃ key : Key, key.Uncut ∧ entry.1 = (encodeKey deps key).1 ∧
        deps.isExpired now (deps.decodeEnvelope entry.2.value).expiresAt = false ∧
        record = Storage.itemRecord deps key entry.1 entry.2 false := by
  obtain ⟨key, uncut, isEncoded, decoded⟩ := key_of_entry deps lawful store encoded member
  rw [sentRecord, decoded]
  constructor
  · intro isSent
    by_cases expired : deps.isExpired now (deps.decodeEnvelope entry.2.value).expiresAt = true
    · simp only [if_pos expired] at isSent
      cases isSent
    · simp only [if_neg expired] at isSent
      exact ⟨key, uncut, isEncoded, Bool.eq_false_iff.mpr expired, (Option.some.inj isSent).symm⟩
  · rintro ⟨other, otherUncut, otherEncoded, alive, rfl⟩
    rw [otherEncoded, decodeKey_encodeKey deps lawful other otherUncut] at decoded
    obtain rfl := Except.ok.inj (Option.some.inj decoded)
    exact if_neg (Bool.eq_false_iff.mp alive)

end

section

variable (deps : Deps) (lawful : deps.Lawful) (now : Int64) (store : Store)
  (encoded : store.Encoded deps) (prefixKey : Option Key) (area : Bytes)
  (watched : watchPrefix deps prefixKey = .ok area)

/-- The records the scan sends, in one list. -/
def selectedRecords : List Record :=
  (store.entries.filter fun entry => area.isPrefixOf entry.1).filterMap (sentRecord deps now false)

include lawful encoded watched in
theorem mem_selectedRecords (record : Record) :
    record ∈ selectedRecords deps now store area ↔
      LiveUnder deps now store prefixKey record := by
  constructor
  · intro sent
    obtain ⟨entry, member, isSent⟩ := List.mem_filterMap.mp sent
    obtain ⟨isEntry, selected⟩ := List.mem_filter.mp member
    obtain ⟨key, _, isEncoded, alive, rfl⟩ :=
      (sentRecord_entry deps lawful now store encoded isEntry record).mp isSent
    have accepted := (encoded entry isEntry).1
    have present := (Mvcc.mem_entries keyOrder store.db entry.1 entry.2).mp isEntry
    rw [isEncoded] at accepted present selected ⊢
    exact ⟨key, entry.2, present,
      (selected_iff_under deps prefixKey area watched key accepted).mp selected, alive, rfl⟩
  · rintro ⟨key, item, present, under, alive, rfl⟩
    have isEntry : ((encodeKey deps key).1, item) ∈ store.entries :=
      (Mvcc.mem_entries keyOrder store.db _ item).mpr present
    have accepted := (encoded _ isEntry).1
    refine List.mem_filterMap.mpr ⟨_, List.mem_filter.mpr ⟨isEntry, ?_⟩, ?_⟩
    · exact (selected_iff_under deps prefixKey area watched key accepted).mpr under
    · exact (sentRecord_entry deps lawful now store encoded isEntry _).mpr
        ⟨key, uncut_of_accepted deps key accepted, rfl, alive, rfl⟩

include lawful encoded in
theorem selectedRecords_pairwise :
    (selectedRecords deps now store area).Pairwise (EntryBefore deps) := by
  have strict := (entries_strict store).filter fun entry => area.isPrefixOf entry.1
  refine List.Pairwise.filterMap _ ?_ (List.Pairwise.and_mem.mp strict)
  intro first second ⟨isFirst, isSecond, before⟩ record isRecord other isOther
  obtain ⟨firstKey, _, firstEncoded, _, rfl⟩ := (sentRecord_entry deps lawful now store encoded
    (List.mem_of_mem_filter isFirst) record).mp isRecord
  obtain ⟨secondKey, _, secondEncoded, _, rfl⟩ := (sentRecord_entry deps lawful now store encoded
    (List.mem_of_mem_filter isSecond) other).mp isOther
  rw [firstEncoded, secondEncoded] at before
  exact ⟨firstKey, secondKey, rfl, rfl, before⟩

end

/-! ### Ordered enumerations -/

theorem minorOrder_iff (reverse : Bool) (first second : Record) :
    VrpcDataService.minorOrder reverse first second = true ↔
      MinorsInOrder reverse first second := by
  unfold VrpcDataService.minorOrder MinorsInOrder
  cases reverse with
  | false => exact keyOrder_iff _ _
  | true =>
    simp only [if_true, bne_iff_ne, ne_eq]
    rw [compare_eq_lt_iff]
    exact List.not_lt

/-- Sorting streams the same records, in the order of their minor keys. -/
theorem sorted_by_minor (reverse : Bool) (records : List Record) :
    (records.mergeSort (VrpcDataService.minorOrder reverse)).Perm records ∧
      (records.mergeSort (VrpcDataService.minorOrder reverse)).Pairwise
        (MinorsInOrder reverse) := by
  have trans : ∀ first second third, VrpcDataService.minorOrder reverse first second = true →
      VrpcDataService.minorOrder reverse second third = true →
      VrpcDataService.minorOrder reverse first third = true := by
    intro first second third
    rw [minorOrder_iff, minorOrder_iff, minorOrder_iff]
    unfold MinorsInOrder
    cases reverse with
    | false => exact List.le_trans
    | true => exact fun early late => List.le_trans late early
  have total : ∀ first second, (VrpcDataService.minorOrder reverse first second ||
      VrpcDataService.minorOrder reverse second first) = true := by
    intro first second
    rw [Bool.or_eq_true, minorOrder_iff, minorOrder_iff]
    unfold MinorsInOrder
    cases reverse with
    | false => exact List.le_total _ _
    | true => exact List.le_total _ _
  refine ⟨List.mergeSort_perm _ _, ?_⟩
  exact (List.pairwise_mergeSort trans total records).imp
    fun ordered => (minorOrder_iff reverse _ _).mp ordered

/-! ### Enumerations -/

/-- An enumeration loses and repeats nothing. Its scan sends the records of the unexpired entries
under the request prefix, each once and in the order of the entry keys, in blocks of one to a
hundred records. Unordered these are delivered; ordered they are delivered by minor key. -/
theorem enumerate_exact (deps : Deps) (lawful : deps.Lawful) (now : Int64)
    (snapshot : Iam.Snapshot) (principal : Bytes) (store : Store) (encoded : store.Encoded deps)
    (request : EnumerateRequest)
    (allowed : PolicyService.authorize snapshot principal .recordsEnumerate
      (scopeOf request.prefixKey).1 (scopeOf request.prefixKey).2 = .ok ()) :
    ∃ sent delivered,
      VrpcDataService.enumerateScan deps (.healthy now) store request.prefixKey = .ok sent ∧
      sent.panicked = false ∧
      (∀ block ∈ sent.blocks, 1 ≤ block.length ∧ block.length ≤ 100) ∧
      (∀ record, record ∈ sent.blocks.flatten ↔
        LiveUnder deps now store request.prefixKey record) ∧
      sent.blocks.flatten.Pairwise (EntryBefore deps) ∧
      VrpcDataService.enumerate deps (.healthy now) snapshot principal store request =
        .ok delivered ∧
      (request.ordered = false → delivered = sent.blocks.flatten) ∧
      (request.ordered = true → delivered.Perm sent.blocks.flatten ∧
        delivered.Pairwise (MinorsInOrder request.reverse)) := by
  obtain ⟨area, watched, scanned⟩ := enumerateScan_eq deps request.prefixKey
  have selected := scanned (.healthy now) store
  have decodes : ∀ entry ∈ store.entries.filter fun entry => area.isPrefixOf entry.1,
      ∃ key, decodeKey deps entry.1 = some (.ok key) := by
    intro entry member
    obtain ⟨key, _, _, decoded⟩ :=
      key_of_entry deps lawful store encoded (List.mem_of_mem_filter member)
    exact ⟨key, decoded⟩
  have whole := not_panicked_of_decodes deps (.healthy now) false _ 0 [] decodes
  have flattened := flatten_scanEntries deps now false _ 0 [] fun entry member => by
    obtain ⟨key, decoded⟩ := decodes entry member
    rw [decoded]
    exact Option.some_ne_none _
  rw [List.nil_append] at flattened
  have handled : VrpcDataService.enumerate deps (.healthy now) snapshot principal store request =
      .ok (if request.ordered then
        (selectedRecords deps now store area).mergeSort
          (VrpcDataService.minorOrder request.reverse)
        else selectedRecords deps now store area) := by
    unfold VrpcDataService.enumerate
    simp only [allowed, selected, whole, flattened]
    cases request.ordered <;> rfl
  refine ⟨_, _, selected, whole, ?_, ?_, ?_, handled, ?_, ?_⟩
  · exact length_of_block deps (.healthy now) false _ 0 [] (by decide)
  · rw [flattened]
    exact mem_selectedRecords deps lawful now store encoded request.prefixKey area watched
  · rw [flattened]
    exact selectedRecords_pairwise deps lawful now store encoded area
  · intro unordered
    rw [flattened, unordered]
    rfl
  · intro ordered
    rw [flattened, ordered]
    exact sorted_by_minor request.reverse _

/-- A store with three records of a region, one of which expires at 150, and one of another. -/
def sampleStore : Store :=
  (runCommand Reference.deps (.healthy 0) Store.empty 1 (.batch { records := [
    { key := some ⟨str "acme", str "EU", str "a", none⟩, value := str "1" },
    { key := some ⟨str "acme", str "EU", str "b", none⟩, value := str "2", expiresAt := 150 },
    { key := some ⟨str "acme", str "EU", str "c", none⟩, value := str "3" },
    { key := some ⟨str "acme", str "US", str "d", none⟩, value := str "4" }] })).2

def sampleEnumeration : EnumerateRequest :=
  { prefixKey := some ⟨str "acme", str "EU", [], none⟩, ordered := true, reverse := true }

/-- A principal of the instance enumerates the region in descending order: the two records that
have not expired are delivered. -/
theorem enumerate_exact_sample :
    ∃ delivered, VrpcDataService.enumerate Reference.deps (.healthy 200)
        (boundTo (str "roles/cdb.admin")) (str "user:alice") sampleStore sampleEnumeration =
        .ok delivered ∧
      delivered.map VrpcDataService.minorKeyOf = [str "c", str "a"] := by
  obtain ⟨sent, delivered, scanned, _, _, _, _, handled, _, ordered⟩ :=
    enumerate_exact Reference.deps Reference.lawful 200 (boundTo (str "roles/cdb.admin"))
      (str "user:alice") sampleStore (encoded_runCommand Reference.deps (.healthy 0) Store.empty
        (encoded_empty Reference.deps) 1 _) sampleEnumeration (by decide +kernel)
  have minors : (VrpcDataService.enumerateScan Reference.deps (.healthy 200) sampleStore
      sampleEnumeration.prefixKey).toOption.map
        (fun sent => sent.blocks.flatten.map VrpcDataService.minorKeyOf) =
      some [str "a", str "c"] := by decide +kernel
  rw [scanned] at minors
  obtain ⟨same, descending⟩ := ordered rfl
  have perm : (delivered.map VrpcDataService.minorKeyOf).Perm [str "c", str "a"] :=
    ((same.map _).trans (List.Perm.of_eq (Option.some.inj minors))).trans (List.Perm.swap _ _ _)
  have sorted : (delivered.map VrpcDataService.minorKeyOf).Pairwise
      fun first second => second ≤ first := List.pairwise_map.mpr descending
  exact ⟨delivered, handled, perm.eq_of_pairwise
    (fun _ _ _ _ early late => List.le_antisymm late early) sorted (by decide)⟩

end ConsensusDB
