/-
This file is `pkg/server/key.go`: the physical key of a record is its three
fields, each behind a two-byte length, followed by the sortable timestamp when
there is one. A field longer than 65535 bytes is cut to that length.

The facts that later files use are that a field is read back from the front of
whatever follows it, that a decoded key therefore agrees with every prefix of
its encoding, and that an entry key never has fewer than six bytes.
-/

import ConsensusDB.Data

namespace ConsensusDB

open Wire

def maxKeyLength : Nat := 65535

def sizeOfUUID : Nat := 16

inductive Field where
  | majorKeyField
  | regionNameField
  | minorKeyField
  | timestampField
  deriving DecidableEq, Repr

def sanitizeKeyLen (length : Nat) : Nat := if length > maxKeyLength then maxKeyLength else length

/-! ### Encoding -/

/-- One length-prefixed field. The code writes the fields one after another into a buffer;
what a too long field spills past its length is overwritten by the next one. -/
def encodeField (field : Bytes) : Bytes :=
  putUint16 (UInt16.ofNat (sanitizeKeyLen field.length)) ++ field.take (sanitizeKeyLen field.length)

/-- The entry key and the row key, which is the entry key without its timestamp. -/
def encodeKey (deps : Deps) (key : Key) : Bytes × Bytes :=
  let rowKey := encodeField key.majorKey ++ encodeField key.regionName ++ encodeField key.minorKey
  match key.timestamp with
  | some timestamp => (rowKey ++ deps.marshalSortable timestamp, rowKey)
  | none => (rowKey, rowKey)

/-- The first fields of a key, up to and including `lastField`. -/
def encodeKeyPrefix (deps : Deps) (key : Key) (lastField : Field) : Except Err Bytes :=
  let major := encodeField key.majorKey
  let region := major ++ encodeField key.regionName
  let minor := region ++ encodeField key.minorKey
  match lastField with
  | .majorKeyField => .ok major
  | .regionNameField => .ok region
  | .minorKeyField => .ok minor
  | .timestampField =>
    match key.timestamp with
    | some timestamp => .ok (minor ++ deps.marshalSortable timestamp)
    | none => .error (.text "key does not have the lastField")

/-! ### Decoding -/

/-- Reads one field and what follows it. `none` is the index panic on a length that starts
less than two bytes before the end. -/
def decodeField (bytes : Bytes) : Option (Except Err (Bytes × Bytes)) :=
  match uint16 bytes with
  | none => none
  | some length =>
    if length.toNat > (bytes.drop 2).length then some (.error .indexOutOfBounds)
    else some (.ok ((bytes.drop 2).take length.toNat, (bytes.drop 2).drop length.toNat))

/-- The key an entry key encodes. `none` is an index panic. -/
def decodeKey (deps : Deps) (entryKey : Bytes) : Option (Except Err Key) :=
  if entryKey.length < 6 then some (.error .indexOutOfBounds)
  else
    match decodeField entryKey with
    | none => none
    | some (.error err) => some (.error err)
    | some (.ok (majorKey, afterMajor)) =>
      match decodeField afterMajor with
      | none => none
      | some (.error err) => some (.error err)
      | some (.ok (regionName, afterRegion)) =>
        match decodeField afterRegion with
        | none => none
        | some (.error err) => some (.error err)
        | some (.ok (minorKey, rest)) =>
          if sizeOfUUID ≤ rest.length then
            some (.ok ⟨majorKey, regionName, minorKey, some (deps.unmarshalSortable rest)⟩)
          else some (.ok ⟨majorKey, regionName, minorKey, none⟩)

/-! ### Fields are read back -/

theorem sanitizeKeyLen_le (length : Nat) : sanitizeKeyLen length ≤ maxKeyLength := by
  unfold sanitizeKeyLen
  split <;> omega

theorem sanitizeKeyLen_le_self (length : Nat) : sanitizeKeyLen length ≤ length := by
  unfold sanitizeKeyLen
  split <;> omega

theorem sanitizeKeyLen_toNat (length : Nat) :
    (UInt16.ofNat (sanitizeKeyLen length)).toNat = sanitizeKeyLen length :=
  Nat.mod_eq_of_lt (lt_of_le_of_lt (sanitizeKeyLen_le length) (by decide))

theorem encodeField_length (field : Bytes) :
    (encodeField field).length = 2 + sanitizeKeyLen field.length := by
  rw [encodeField, List.length_append, putUint16_length, List.length_take,
    Nat.min_eq_left (sanitizeKeyLen_le_self field.length)]

/-- A field is read back, cut to the length it was stored with, whatever follows it. -/
theorem decodeField_encodeField_append (field rest : Bytes) :
    decodeField (encodeField field ++ rest) =
      some (.ok (field.take (sanitizeKeyLen field.length), rest)) := by
  have stored : (field.take (sanitizeKeyLen field.length)).length =
      sanitizeKeyLen field.length := by
    rw [List.length_take, Nat.min_eq_left (sanitizeKeyLen_le_self field.length)]
  have tail : (encodeField field ++ rest).drop 2 =
      field.take (sanitizeKeyLen field.length) ++ rest := by
    rw [encodeField, List.append_assoc, List.drop_left' (putUint16_length _)]
  rw [decodeField, encodeField, List.append_assoc, uint16_putUint16_append,
    ← List.append_assoc, ← encodeField, tail]
  simp only [sanitizeKeyLen_toNat]
  rw [if_neg (by rw [List.length_append, stored]; omega), List.take_left' stored,
    List.drop_left' stored]

/-- The two fields that name a scope are read back from the front of an entry key. -/
theorem decodeKey_scope (deps : Deps) (major region rest : Bytes) (key : Key)
    (decoded : decodeKey deps (encodeField major ++ (encodeField region ++ rest)) =
      some (.ok key)) :
    key.majorKey = major.take (sanitizeKeyLen major.length) ∧
      key.regionName = region.take (sanitizeKeyLen region.length) := by
  unfold decodeKey at decoded
  rw [decodeField_encodeField_append] at decoded
  simp only [decodeField_encodeField_append] at decoded
  split at decoded
  · cases decoded
  · split at decoded <;> try cases decoded
    split at decoded <;> cases decoded <;> exact ⟨rfl, rfl⟩

/-- The tenant is read back from the front of an entry key. -/
theorem decodeKey_major (deps : Deps) (major rest : Bytes) (key : Key)
    (decoded : decodeKey deps (encodeField major ++ rest) = some (.ok key)) :
    key.majorKey = major.take (sanitizeKeyLen major.length) := by
  unfold decodeKey at decoded
  rw [decodeField_encodeField_append] at decoded
  simp only at decoded
  split at decoded
  · cases decoded
  · split at decoded <;> try cases decoded
    split at decoded <;> try cases decoded
    split at decoded <;> cases decoded <;> rfl

theorem encodeKey_length (deps : Deps) (key : Key) : 6 ≤ (encodeKey deps key).1.length := by
  unfold encodeKey
  split <;> simp only [List.length_append, encodeField_length] <;> omega

theorem encodeKey_ne_nil (deps : Deps) (key : Key) : (encodeKey deps key).1 ≠ [] := by
  intro empty
  have long := encodeKey_length deps key
  rw [empty] at long
  exact absurd long (by decide)

theorem encodeKey_front (deps : Deps) (key : Key) :
    ∃ rest, (encodeKey deps key).1 =
      encodeField key.majorKey ++ (encodeField key.regionName ++ rest) := by
  unfold encodeKey
  split
  · rename_i timestamp _
    refine ⟨encodeField key.minorKey ++ deps.marshalSortable timestamp, ?_⟩
    simp only [List.append_assoc]
  · refine ⟨encodeField key.minorKey, ?_⟩
    simp only [List.append_assoc]

end ConsensusDB
