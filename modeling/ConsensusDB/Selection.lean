/-
This file is about which byte strings are keys and which keys a prefix selects.

Decoding checks each field against the end of the slice, but not that the length
of the next field is there: it is safe exactly on the slices whose lengths all lie
inside. Encoding a prefix is exact: a field carries its own length, so a byte
prefix of an entry key is an agreement field by field, and the two places that
choose the depth of a request prefix, the enumeration and the watch, choose the
same one.
-/

import ConsensusDB.Mediation
import ConsensusDB.Aliasing

namespace ConsensusDB

open Wire

/-! ### Decoding any slice -/

/-- The two-byte length at a position, zero where there is none. -/
def lengthAt (bytes : Bytes) (position : Nat) : Nat :=
  ((uint16 (bytes.drop position)).map UInt16.toNat).getD 0

/-- The end of the field whose length is at a position. -/
def fieldEnd (bytes : Bytes) (position : Nat) : Nat := position + 2 + lengthAt bytes position

/-- Each length that decoding reads lies in the slice: it ends early on a slice of less than six
bytes or on a field that runs over the end, and the second and the third length are there where
it gets to them. -/
def LengthsInside (bytes : Bytes) : Prop :=
  bytes.length < 6 ∨ bytes.length < fieldEnd bytes 0 ∨
    fieldEnd bytes 0 + 2 ≤ bytes.length ∧
      (bytes.length < fieldEnd bytes (fieldEnd bytes 0) ∨
        fieldEnd bytes (fieldEnd bytes 0) + 2 ≤ bytes.length)

/-- Decoding returns a key or reports an index out of bounds. -/
def DecodesSafely (deps : Deps) (bytes : Bytes) : Prop :=
  (∃ key, decodeKey deps bytes = some (.ok key)) ∨
    decodeKey deps bytes = some (.error .indexOutOfBounds)

section

variable (bytes : Bytes) (position : Nat)

theorem decodeField_cut (cut : bytes.length < position + 2) :
    decodeField (bytes.drop position) = none := by
  have short : (bytes.drop position).length < 2 := by
    rw [List.length_drop]
    omega
  rw [decodeField, uint16, if_pos short]

theorem decodeField_overrun (inside : position + 2 ≤ bytes.length)
    (overruns : bytes.length < fieldEnd bytes position) :
    decodeField (bytes.drop position) = some (.error .indexOutOfBounds) := by
  have long : ¬ (bytes.drop position).length < 2 := by
    rw [List.length_drop]
    omega
  unfold fieldEnd lengthAt at overruns
  unfold decodeField
  rw [uint16, if_neg long] at overruns ⊢
  refine if_pos ?_
  rw [List.length_drop, List.length_drop]
  simp only [Option.map_some, Option.getD_some] at overruns
  omega

theorem decodeField_whole (inside : position + 2 ≤ bytes.length)
    (within : fieldEnd bytes position ≤ bytes.length) :
    ∃ field, decodeField (bytes.drop position) =
      some (.ok (field, bytes.drop (fieldEnd bytes position))) := by
  have long : ¬ (bytes.drop position).length < 2 := by
    rw [List.length_drop]
    omega
  unfold fieldEnd lengthAt at within ⊢
  unfold decodeField
  rw [uint16, if_neg long] at within ⊢
  simp only [Option.map_some, Option.getD_some] at within ⊢
  rw [if_neg (by rw [List.length_drop, List.length_drop]; omega), List.drop_drop, List.drop_drop]
  exact ⟨_, rfl⟩

end

/-- Decoding is safe on a slice exactly when no length it reads lies outside. -/
theorem decodesSafely_iff (deps : Deps) (bytes : Bytes) :
    DecodesSafely deps bytes ↔ LengthsInside bytes := by
  unfold DecodesSafely LengthsInside
  have start : decodeField bytes = decodeField (bytes.drop 0) := rfl
  unfold decodeKey
  by_cases short : bytes.length < 6
  · rw [if_pos short]
    exact iff_of_true (Or.inr rfl) (Or.inl short)
  rw [if_neg short, start]
  by_cases majorOver : bytes.length < fieldEnd bytes 0
  · rw [decodeField_overrun bytes 0 (by omega) majorOver]
    exact iff_of_true (Or.inr rfl) (Or.inr (Or.inl majorOver))
  obtain ⟨major, majorRead⟩ := decodeField_whole bytes 0 (by omega) (by omega)
  simp only [majorRead]
  by_cases regionCut : bytes.length < fieldEnd bytes 0 + 2
  · rw [decodeField_cut bytes _ regionCut]
    simp only [reduceCtorEq, exists_false, or_self, false_iff]
    omega
  by_cases regionOver : bytes.length < fieldEnd bytes (fieldEnd bytes 0)
  · simp only [decodeField_overrun bytes _ (by omega) regionOver, or_true, true_iff]
    omega
  obtain ⟨region, regionRead⟩ := decodeField_whole bytes (fieldEnd bytes 0) (by omega) (by omega)
  simp only [regionRead]
  by_cases minorCut : bytes.length < fieldEnd bytes (fieldEnd bytes 0) + 2
  · rw [decodeField_cut bytes _ minorCut]
    simp only [reduceCtorEq, exists_false, or_self, false_iff]
    omega
  refine iff_of_true ?_ (by omega)
  by_cases minorOver : bytes.length < fieldEnd bytes (fieldEnd bytes (fieldEnd bytes 0))
  · rw [decodeField_overrun bytes _ (by omega) minorOver]
    exact Or.inr rfl
  obtain ⟨minor, minorRead⟩ := decodeField_whole bytes (fieldEnd bytes (fieldEnd bytes 0))
    (by omega) (by omega)
  simp only [minorRead]
  split
  · exact Or.inl ⟨_, rfl⟩
  · exact Or.inl ⟨_, rfl⟩

/-- A first field that ends with the slice, or one byte before, leaves no length to read. -/
theorem decodeKey_panics :
    decodeKey Reference.deps [0, 4, 1, 2, 3, 4] = none ∧
      decodeKey Reference.deps [0, 3, 1, 2, 3, 4] = none ∧
      decodeKey Reference.deps [0, 0, 0, 2, 1, 2] = none := by
  decide

/-! ### A field at the front -/

/-- A field that is not cut carries its own length, so it is at the front of a byte string that
starts with another one only when the two are the same. -/
theorem encodeField_append_isPrefix_iff (field other rest otherRest : Bytes)
    (short : field.length ≤ maxKeyLength) (otherShort : other.length ≤ maxKeyLength) :
    encodeField field ++ rest <+: encodeField other ++ otherRest ↔
      field = other ∧ rest <+: otherRest := by
  constructor
  · rintro ⟨tail, whole⟩
    have decoded := decodeField_encodeField_append field (rest ++ tail)
    rw [← List.append_assoc, whole, decodeField_encodeField_append,
      take_of_length_le_maxKeyLength field short,
      take_of_length_le_maxKeyLength other otherShort] at decoded
    obtain ⟨sameField, sameRest⟩ := Prod.mk.inj (Except.ok.inj (Option.some.inj decoded))
    exact ⟨sameField.symm, tail, sameRest.symm⟩
  · rintro ⟨rfl, inFront⟩
    exact (List.prefix_append_right_inj _).mpr inFront

/-- What follows the three fields of an entry key. -/
def encodeTimestamp (deps : Deps) (key : Key) : Bytes :=
  (key.timestamp.map deps.marshalSortable).getD []

theorem encodeKey_layout (deps : Deps) (key : Key) :
    (encodeKey deps key).1 = encodeField key.majorKey ++
      (encodeField key.regionName ++ (encodeField key.minorKey ++ encodeTimestamp deps key)) := by
  unfold encodeKey encodeTimestamp
  cases key.timestamp with
  | none => simp only [Option.map_none, Option.getD_none, List.append_nil, List.append_assoc]
  | some timestamp => simp only [Option.map_some, Option.getD_some, List.append_assoc]

/-! ### Which keys a prefix selects -/

/-- The two keys agree on the fields up to a field. -/
def Key.AgreesUpTo (prefixKey : Key) (field : Field) (key : Key) : Prop :=
  match field with
  | .majorKeyField => key.majorKey = prefixKey.majorKey
  | .regionNameField =>
    key.majorKey = prefixKey.majorKey ∧ key.regionName = prefixKey.regionName
  | .minorKeyField =>
    key.majorKey = prefixKey.majorKey ∧ key.regionName = prefixKey.regionName ∧
      key.minorKey = prefixKey.minorKey
  | .timestampField => key = prefixKey

/-- The key agrees with a request prefix on every field up to the deepest one that is set. -/
def Key.Under (prefixKey : Option Key) (key : Key) : Prop :=
  match prefixKey with
  | none => True
  | some asked =>
    (asked.majorKey ≠ [] ∨ asked.regionName ≠ [] ∨ asked.minorKey ≠ [] →
      key.majorKey = asked.majorKey) ∧
    (asked.regionName ≠ [] ∨ asked.minorKey ≠ [] → key.regionName = asked.regionName) ∧
    (asked.minorKey ≠ [] → key.minorKey = asked.minorKey)

/-- The depth of a request prefix is its deepest field that is set. -/
theorem areaField_depth (asked : Key) :
    (asked.minorKey ≠ [] ∧ areaField (some asked) = some .minorKeyField) ∨
    (asked.minorKey = [] ∧ asked.regionName ≠ [] ∧
      areaField (some asked) = some .regionNameField) ∨
    (asked.minorKey = [] ∧ asked.regionName = [] ∧ asked.majorKey ≠ [] ∧
      areaField (some asked) = some .majorKeyField) ∨
    (asked.minorKey = [] ∧ asked.regionName = [] ∧ asked.majorKey = [] ∧
      areaField (some asked) = none) := by
  by_cases minorSet : asked.minorKey = []
  · by_cases regionSet : asked.regionName = []
    · by_cases majorSet : asked.majorKey = []
      · simp [areaField, minorSet, regionSet, majorSet]
      · simp [areaField, minorSet, regionSet, majorSet]
    · simp [areaField, minorSet, regionSet]
  · simp [areaField, minorSet]

section

variable (deps : Deps)

/-- The encoded prefix of a key up to a field is a byte prefix of exactly the keys that agree
with it up to this field. -/
theorem encodeKeyPrefix_isPrefix_iff (prefixKey key : Key) (prefixUncut : prefixKey.Uncut)
    (uncut : key.Uncut) (field : Field) (untimed : field ≠ .timestampField) :
    ∃ area, encodeKeyPrefix deps prefixKey field = .ok area ∧
      (area <+: (encodeKey deps key).1 ↔ prefixKey.AgreesUpTo field key) := by
  obtain ⟨majorShort, regionShort, minorShort⟩ := uncut
  obtain ⟨askedMajor, askedRegion, askedMinor⟩ := prefixUncut
  rw [encodeKey_layout]
  -- the last field of the prefix is followed by nothing
  have last : ∀ field other rest : Bytes, field.length ≤ maxKeyLength →
      other.length ≤ maxKeyLength →
      (encodeField field <+: encodeField other ++ rest ↔ other = field) := by
    intro field other rest short otherShort
    have framed := encodeField_append_isPrefix_iff field other [] rest short otherShort
    rw [List.append_nil] at framed
    rw [framed, and_iff_left List.nil_prefix, eq_comm]
  cases field with
  | majorKeyField => exact ⟨_, rfl, last _ _ _ askedMajor majorShort⟩
  | regionNameField =>
    refine ⟨_, rfl, ?_⟩
    rw [encodeField_append_isPrefix_iff _ _ _ _ askedMajor majorShort,
      last _ _ _ askedRegion regionShort, eq_comm]
    rfl
  | minorKeyField =>
    refine ⟨_, rfl, ?_⟩
    rw [List.append_assoc, encodeField_append_isPrefix_iff _ _ _ _ askedMajor majorShort,
      encodeField_append_isPrefix_iff _ _ _ _ askedRegion regionShort,
      last _ _ _ askedMinor minorShort, eq_comm,
      @eq_comm _ prefixKey.regionName key.regionName]
    rfl
  | timestampField => exact absurd rfl untimed

theorem under_iff_agreesUpTo (asked key : Key) (field : Field)
    (depth : areaField (some asked) = some field) :
    key.Under (some asked) ↔ asked.AgreesUpTo field key := by
  rcases areaField_depth asked with ⟨minorSet, isField⟩ | ⟨noMinor, regionSet, isField⟩ |
    ⟨noMinor, noRegion, majorSet, isField⟩ | ⟨_, _, _, nothing⟩
  · obtain rfl := Option.some.inj (depth.symm.trans isField)
    simp [Key.Under, Key.AgreesUpTo, minorSet]
  · obtain rfl := Option.some.inj (depth.symm.trans isField)
    simp [Key.Under, Key.AgreesUpTo, noMinor, regionSet]
  · obtain rfl := Option.some.inj (depth.symm.trans isField)
    simp [Key.Under, Key.AgreesUpTo, noMinor, noRegion, majorSet]
  · rw [nothing] at depth
    cases depth

/-- Without a field that is set every key is under the prefix. -/
theorem under_of_wide (prefixKey : Option Key) (wide : areaField prefixKey = none) (key : Key) :
    key.Under prefixKey := by
  cases prefixKey with
  | none => trivial
  | some asked =>
    rcases areaField_depth asked with ⟨_, isField⟩ | ⟨_, _, isField⟩ | ⟨_, _, _, isField⟩ |
      ⟨noMinor, noRegion, noMajor, _⟩
    · rw [isField] at wide
      cases wide
    · rw [isField] at wide
      cases wide
    · rw [isField] at wide
      cases wide
    · simp [Key.Under, noMinor, noRegion, noMajor]

/-- An enumeration scans, and a watch passes on, what starts with the same bytes. -/
theorem enumerateScan_eq (prefixKey : Option Key) :
    ∃ area, watchPrefix deps prefixKey = .ok area ∧ ∀ env store,
      VrpcDataService.enumerateScan deps env store prefixKey =
        .ok (Storage.scanEntries deps env false 0 []
          (store.entries.filter fun entry => area.isPrefixOf entry.1)) := by
  cases depth : areaField prefixKey with
  | none =>
    refine ⟨[], (wide_scope deps prefixKey depth).2, fun env store => ?_⟩
    rw [VrpcDataService.enumerateScan, depth]
    simp [Storage.scan]
  | some field =>
    cases prefixKey with
    | none => cases depth
    | some asked =>
      rcases areaField_cases deps asked with ⟨_, isField, watched, fields⟩ | ⟨nothing, _⟩
      · obtain rfl := Option.some.inj (depth.symm.trans isField)
        obtain ⟨area, encoded⟩ : ∃ area, encodeKeyPrefix deps asked field = .ok area := by
          rcases fields with rfl | rfl | ⟨rfl, _⟩ <;> exact ⟨_, rfl⟩
        refine ⟨area, watched.trans encoded, fun env store => ?_⟩
        rw [VrpcDataService.enumerateScan, depth]
        simp only [Storage.getArea, encoded]
      · rw [nothing] at depth
        cases depth

/-- The bytes an enumeration and a watch select by are those of the keys under the prefix. -/
theorem watchPrefix_isPrefix_iff (prefixKey : Option Key)
    (prefixUncut : ∀ asked, prefixKey = some asked → asked.Uncut) (area : Bytes)
    (encoded : watchPrefix deps prefixKey = .ok area) (key : Key) (uncut : key.Uncut) :
    area.isPrefixOf (encodeKey deps key).1 = true ↔ key.Under prefixKey := by
  rw [List.isPrefixOf_iff_prefix]
  cases depth : areaField prefixKey with
  | none =>
    rw [(wide_scope deps prefixKey depth).2] at encoded
    obtain rfl := Except.ok.inj encoded
    exact iff_of_true List.nil_prefix (under_of_wide prefixKey depth key)
  | some field =>
    cases prefixKey with
    | none => cases depth
    | some asked =>
      rw [under_iff_agreesUpTo asked key field depth]
      rcases areaField_cases deps asked with ⟨_, isField, watched, fields⟩ | ⟨nothing, _⟩
      · obtain rfl := Option.some.inj (depth.symm.trans isField)
        have untimed : field ≠ .timestampField := by
          rcases fields with rfl | rfl | ⟨rfl, _⟩ <;> decide
        obtain ⟨_, isArea, exact⟩ := encodeKeyPrefix_isPrefix_iff deps asked key
          (prefixUncut asked rfl) uncut field untimed
        rw [watched, isArea] at encoded
        obtain rfl := Except.ok.inj encoded
        exact exact
      · rw [nothing] at depth
        cases depth

end

/-- Prefix selection is exact. The encoded prefix of a key up to one of its three fields is a byte
prefix of exactly the keys that agree with it up to this field. So an enumeration and a watch
select by the same bytes, and these are in front of exactly the keys under the request prefix. -/
theorem prefix_selection_exact (deps : Deps) :
    (∀ prefixKey key : Key, prefixKey.Uncut → key.Uncut → ∀ field, field ≠ .timestampField →
      ∃ area, encodeKeyPrefix deps prefixKey field = .ok area ∧
        (area <+: (encodeKey deps key).1 ↔ prefixKey.AgreesUpTo field key)) ∧
    ∀ prefixKey : Option Key, (∀ asked, prefixKey = some asked → asked.Uncut) →
      ∃ area : Bytes,
        (∀ env store, VrpcDataService.enumerateScan deps env store prefixKey =
          .ok (Storage.scanEntries deps env false 0 []
            (store.entries.filter fun entry => area.isPrefixOf entry.1))) ∧
        (∀ snapshot principal events, PolicyService.authorize snapshot principal .recordsWatch
            (scopeOf prefixKey).1 (scopeOf prefixKey).2 = .ok () →
          VrpcDataService.watch deps snapshot principal events ⟨prefixKey⟩ =
            .ok (VrpcDataService.watchEvents deps
              (events.filter fun event => area.isPrefixOf event.key))) ∧
        ∀ key : Key, key.Uncut →
          (area.isPrefixOf (encodeKey deps key).1 = true ↔ key.Under prefixKey) := by
  refine ⟨encodeKeyPrefix_isPrefix_iff deps, fun prefixKey prefixUncut => ?_⟩
  obtain ⟨area, encoded, scanned⟩ := enumerateScan_eq deps prefixKey
  refine ⟨area, scanned, ?_, watchPrefix_isPrefix_iff deps prefixKey prefixUncut area encoded⟩
  intro snapshot principal events allowed
  unfold VrpcDataService.watch
  simp only [allowed, encoded]

/-- A prefix of a tenant and a minor key without a region selects the keys with no region. -/
theorem prefix_selection_exact_sample :
    ∃ area, encodeKeyPrefix Reference.deps ⟨str "acme", [], str "a", none⟩ .minorKeyField =
        .ok area ∧
      (area <+: (encodeKey Reference.deps ⟨str "acme", str "R", str "a", none⟩).1 ↔
        Key.AgreesUpTo ⟨str "acme", [], str "a", none⟩ .minorKeyField
          ⟨str "acme", str "R", str "a", none⟩) :=
  (prefix_selection_exact Reference.deps).1 _ _ ⟨by decide, by decide, by decide⟩
    ⟨by decide, by decide, by decide⟩ _ (by decide)

end ConsensusDB
