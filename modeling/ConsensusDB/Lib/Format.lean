/-
This file is a small library of binary formats. A format writes a value as
bytes and reads it back from the front of a longer byte string, and carries
the proof that reading returns the value and leaves what follows. Records are
built from pairs, lists, options and fixed-width words through a change of
representation, so the round trip of a message is never proved by hand.
-/

import ConsensusDB.Lib.Wire

namespace Wire

/-- A writer, a reader of the front of a byte string, and the law that ties them. -/
structure Format (Value : Type) where
  put : Value → Bytes
  get : Bytes → Option (Value × Bytes)
  get_put : ∀ value rest, get (put value ++ rest) = some (value, rest)

namespace Format

variable {First Second Value : Type}

/-- Reads a value that must take up the whole byte string. -/
def getAll (format : Format Value) (bytes : Bytes) : Option Value :=
  match format.get bytes with
  | some (value, []) => some value
  | _ => none

theorem getAll_put (format : Format Value) (value : Value) :
    format.getAll (format.put value) = some value := by
  have read := format.get_put value []
  rw [List.append_nil] at read
  rw [getAll, read]

theorem put_inj (format : Format Value) {first second : Value}
    (equal : format.put first = format.put second) : first = second := by
  have read := format.getAll_put first
  rw [equal, format.getAll_put second] at read
  exact (Option.some.inj read).symm

/-- A format that reads nothing from no bytes writes some. -/
theorem put_ne_nil (format : Format Value) (nothing : format.getAll [] = none) (value : Value) :
    format.put value ≠ [] := by
  intro empty
  have read := format.getAll_put value
  rw [empty, nothing] at read
  cases read

def byte : Format UInt8 where
  put value := [value]
  get
    | [] => none
    | value :: rest => some (value, rest)
  get_put _ _ := rfl

def word : Format UInt64 where
  put := putUint64
  get bytes := if bytes.length < 8 then none else some (uint64 bytes, bytes.drop 8)
  get_put value rest := by
    have long : ¬ (putUint64 value ++ rest).length < 8 := by
      rw [List.length_append, putUint64_length]
      omega
    rw [if_neg long, uint64_putUint64_append, List.drop_left' (putUint64_length value)]

def pair (first : Format First) (second : Format Second) : Format (First × Second) where
  put value := first.put value.1 ++ second.put value.2
  get bytes :=
    match first.get bytes with
    | none => none
    | some (head, rest) =>
      match second.get rest with
      | none => none
      | some (tail, rest) => some ((head, tail), rest)
  get_put value rest := by
    rw [List.append_assoc, first.get_put]
    simp only [second.get_put]

/-- Changes the representation of the values. -/
def convert (format : Format First) (forth : First → Second) (back : Second → First)
    (inverse : ∀ value, forth (back value) = value) : Format Second where
  put value := format.put (back value)
  get bytes := (format.get bytes).map (Prod.map forth id)
  get_put value rest := by
    rw [format.get_put, Option.map_some, Prod.map, inverse]
    rfl

def option (format : Format Value) : Format (Option Value) where
  put
    | none => [0]
    | some value => 1 :: format.put value
  get
    | [] => none
    | tag :: rest => if tag = 0 then some (none, rest) else (format.get rest).map (Prod.map some id)
  get_put value rest := by
    cases value with
    | none => rfl
    | some value =>
      show (format.get (format.put value ++ rest)).map (Prod.map some id) = _
      rw [format.get_put]
      rfl

/-- Writes the values one after another, each behind a one, and a zero after the last. -/
def putMany (format : Format Value) : List Value → Bytes
  | [] => [0]
  | value :: values => 1 :: (format.put value ++ putMany format values)

/-- Reads values until the closing zero, at most as many as the fuel. -/
def getMany (format : Format Value) : Nat → Bytes → Option (List Value × Bytes)
  | 0, _ => none
  | _ + 1, [] => none
  | fuel + 1, tag :: rest =>
    if tag = 0 then some ([], rest)
    else
      match format.get rest with
      | none => none
      | some (value, rest) => (getMany format fuel rest).map (Prod.map (value :: ·) id)

theorem getMany_putMany (format : Format Value) (values : List Value) (fuel : Nat) (rest : Bytes)
    (enough : values.length < fuel) :
    getMany format fuel (putMany format values ++ rest) = some (values, rest) := by
  induction values generalizing fuel with
  | nil =>
    obtain ⟨fuel, rfl⟩ := Nat.exists_eq_add_one_of_ne_zero (Nat.ne_of_gt enough)
    rfl
  | cons value values inductionHypothesis =>
    obtain ⟨fuel, rfl⟩ := Nat.exists_eq_add_one_of_ne_zero (Nat.ne_zero_of_lt enough)
    rw [putMany, List.cons_append, List.append_assoc, getMany, if_neg (by decide),
      format.get_put]
    simp only [inductionHypothesis fuel (Nat.lt_of_succ_lt_succ enough)]
    rfl

theorem length_lt_putMany (format : Format Value) (values : List Value) :
    values.length < (putMany format values).length := by
  induction values with
  | nil => exact Nat.zero_lt_one
  | cons value values inductionHypothesis =>
    simp only [putMany, List.length_cons, List.length_append]
    omega

def list (format : Format Value) : Format (List Value) where
  put := putMany format
  get bytes := getMany format bytes.length bytes
  get_put values rest := by
    refine getMany_putMany format values _ rest ?_
    rw [List.length_append]
    exact Nat.lt_of_lt_of_le (length_lt_putMany format values) (Nat.le_add_right _ _)

def bytes : Format Bytes := list byte

def bool : Format Bool := byte.convert (· != 0) (fun value => if value then 1 else 0) (by decide)

def long : Format Int64 :=
  word.convert UInt64.toInt64 Int64.toUInt64 Int64.toInt64_toUInt64

def int : Format Int32 :=
  word.convert (fun value => value.toUInt32.toInt32) (fun value => value.toUInt32.toUInt64) (by
    intro value
    rw [UInt32.toUInt32_toUInt64, Int32.toInt32_toUInt32])

end Format

end Wire
