/-
This file is the byte-level vocabulary of the development: byte strings as
lists, fixed-width big-endian numbers, and length-prefixed fields. It knows
nothing about the program. The one idea is that a big-endian number of a fixed
width is read back by folding its digits, so the round trips of every width are
one induction, and a reader that stops after `width` bytes never looks at what
follows them.
-/

import Mathlib.Data.List.Basic
import Mathlib.Algebra.Order.Ring.Nat

namespace Wire

/-- A byte string. The empty list is both Go's `nil` slice and its empty slice. -/
abbrev Bytes := List UInt8

/-- The bytes of a string literal. -/
def str (text : String) : Bytes := text.toUTF8.data.toList

/-- `bytes.Compare`: the lexical order of byte strings. -/
def compare : Bytes → Bytes → Ordering
  | [], [] => .eq
  | [], _ :: _ => .lt
  | _ :: _, [] => .gt
  | first :: firstRest, second :: secondRest =>
    if first < second then .lt
    else if second < first then .gt
    else compare firstRest secondRest

/-- The order that `compare` decides is the lexical one of lists. -/
theorem compare_eq_gt_iff (first second : Bytes) : compare first second = .gt ↔ second < first := by
  induction first generalizing second with
  | nil => cases second <;> simp [compare]
  | cons byte rest inductionHypothesis =>
    cases second with
    | nil => simp [compare]
    | cons other otherRest =>
      rw [compare, List.cons_lt_cons_iff, ← inductionHypothesis]
      by_cases below : byte < other
      · simp [below, UInt8.lt_asymm below, (UInt8.ne_of_lt below).symm]
      · by_cases above : other < byte
        · simp [below, above]
        · simp [UInt8.le_antisymm (UInt8.not_lt.mp below) (UInt8.not_lt.mp above)]

theorem compare_swap (first second : Bytes) :
    (compare first second).swap = compare second first := by
  induction first generalizing second with
  | nil => cases second <;> rfl
  | cons byte rest inductionHypothesis =>
    cases second with
    | nil => rfl
    | cons other otherRest =>
      rw [compare, compare, ← inductionHypothesis]
      by_cases below : byte < other
      · rw [if_pos below, if_neg (UInt8.lt_asymm below), if_pos below]
        rfl
      · by_cases above : other < byte
        · rw [if_neg below, if_pos above, if_pos above]
          rfl
        · rw [if_neg below, if_neg above, if_neg above, if_neg below]

theorem compare_eq_lt_iff (first second : Bytes) :
    compare first second = .lt ↔ first < second := by
  rw [← compare_eq_gt_iff, ← compare_swap second first, Ordering.swap_eq_lt]

/-- A text between two texts with a common front has that front. -/
theorem prefix_of_between {front low middle high : Bytes} (lowFront : front <+: low)
    (highFront : front <+: high) (above : low ≤ middle) (below : middle ≤ high) :
    front <+: middle := by
  induction front generalizing low middle high with
  | nil => exact List.nil_prefix
  | cons byte rest inductionHypothesis =>
    obtain ⟨lowTail, rfl⟩ := lowFront
    obtain ⟨highTail, rfl⟩ := highFront
    cases middle with
    | nil => exact absurd (List.nil_lt_cons byte _) (List.not_lt.mpr above)
    | cons first tail =>
      rw [List.cons_append, List.cons_le_cons_iff] at above below
      rcases above with larger | ⟨rfl, above⟩
      · rcases below with smaller | ⟨rfl, _⟩
        · exact absurd (UInt8.lt_trans larger smaller) (UInt8.lt_irrefl byte)
        · exact absurd larger (UInt8.lt_irrefl _)
      · rcases below with smaller | ⟨_, below⟩
        · exact absurd smaller (UInt8.lt_irrefl _)
        · exact (List.prefix_cons_inj byte).mpr
            (inductionHypothesis ⟨lowTail, rfl⟩ ⟨highTail, rfl⟩ above below)

/-- Two texts that are equal up to a separator which neither first part has are equal in both
parts. -/
theorem parts_of_first_separator {separator : UInt8} {first second rest otherRest : Bytes}
    (absent : separator ∉ first) (otherAbsent : separator ∉ second)
    (equal : first ++ separator :: rest = second ++ separator :: otherRest) :
    first = second ∧ rest = otherRest := by
  rcases List.append_eq_append_iff.mp equal with ⟨middle, rfl, tails⟩ | ⟨middle, rfl, tails⟩
  · cases middle with
    | nil => exact ⟨(List.append_nil first).symm, List.tail_eq_of_cons_eq tails⟩
    | cons byte more =>
      obtain rfl := List.head_eq_of_cons_eq tails
      exact absurd (List.mem_append_right first List.mem_cons_self) otherAbsent
  · cases middle with
    | nil => exact ⟨List.append_nil second, (List.tail_eq_of_cons_eq tails).symm⟩
    | cons byte more =>
      obtain rfl := List.head_eq_of_cons_eq tails
      exact absurd (List.mem_append_right second List.mem_cons_self) absent

/-- The same from the right end, where neither last part has the separator. -/
theorem parts_of_last_separator {separator : UInt8} {front otherFront last otherLast : Bytes}
    (absent : separator ∉ last) (otherAbsent : separator ∉ otherLast)
    (equal : front ++ separator :: last = otherFront ++ separator :: otherLast) :
    front = otherFront ∧ last = otherLast := by
  have reversed : last.reverse ++ separator :: front.reverse =
      otherLast.reverse ++ separator :: otherFront.reverse := by
    simpa using congrArg List.reverse equal
  obtain ⟨lasts, fronts⟩ := parts_of_first_separator (mt List.mem_reverse.mp absent)
    (mt List.mem_reverse.mp otherAbsent) reversed
  exact ⟨List.reverse_injective fronts, List.reverse_injective lasts⟩

/-! ### Fixed-width big-endian numbers -/

/-- The `width` low bytes of a number, the most significant one first. -/
def bigEndian : Nat → Nat → Bytes
  | 0, _ => []
  | width + 1, number => bigEndian width (number / 256) ++ [UInt8.ofNat number]

/-- The number a big-endian byte string denotes. -/
def ofBigEndian (bytes : Bytes) : Nat :=
  bytes.foldl (fun number byte => number * 256 + byte.toNat) 0

@[simp] theorem bigEndian_length (width number : Nat) :
    (bigEndian width number).length = width := by
  induction width generalizing number with
  | zero => rfl
  | succ width inductionHypothesis =>
    rw [bigEndian, List.length_append, inductionHypothesis, List.length_singleton]

theorem ofBigEndian_snoc (bytes : Bytes) (byte : UInt8) :
    ofBigEndian (bytes ++ [byte]) = ofBigEndian bytes * 256 + byte.toNat := by
  simp only [ofBigEndian, List.foldl_append, List.foldl_cons, List.foldl_nil]

/-- Reading a written number back keeps it modulo the width. -/
theorem ofBigEndian_bigEndian (width number : Nat) :
    ofBigEndian (bigEndian width number) = number % 256 ^ width := by
  induction width generalizing number with
  | zero =>
    rw [pow_zero, Nat.mod_one]
    rfl
  | succ width inductionHypothesis =>
    have split : number % 256 ^ (width + 1) =
        number % 256 + 256 * (number / 256 % 256 ^ width) := by
      rw [pow_succ, mul_comm (256 ^ width) 256, Nat.mod_mul]
    have low : (UInt8.ofNat number).toNat = number % 256 := UInt8.toNat_ofNat'
    rw [bigEndian, ofBigEndian_snoc, inductionHypothesis, low, split]
    omega

/-- The low bytes of a number are its bytes at a smaller width. -/
theorem bigEndian_drop (width number : Nat) :
    (bigEndian (width + 1) number).drop 1 = bigEndian width number := by
  induction width generalizing number with
  | zero => rfl
  | succ width inductionHypothesis =>
    have long : 1 ≤ (bigEndian (width + 1) (number / 256)).length := by
      rw [bigEndian_length]
      omega
    rw [bigEndian, List.drop_append_of_le_length long, inductionHypothesis]
    rfl

/-! ### The widths the wire formats use -/

/-- `binary.BigEndian.PutUint16`. -/
def putUint16 (number : UInt16) : Bytes := bigEndian 2 number.toNat

/-- `binary.BigEndian.PutUint32`. -/
def putUint32 (number : UInt32) : Bytes := bigEndian 4 number.toNat

/-- `binary.BigEndian.PutUint64`. -/
def putUint64 (number : UInt64) : Bytes := bigEndian 8 number.toNat

/-- `binary.BigEndian.Uint16`: reads the first two bytes; `none` is the index panic on a
shorter slice. -/
def uint16 (bytes : Bytes) : Option UInt16 :=
  if bytes.length < 2 then none else some (UInt16.ofNat (ofBigEndian (bytes.take 2)))

/-- `binary.BigEndian.Uint32`: reads the first four bytes. -/
def uint32 (bytes : Bytes) : UInt32 := UInt32.ofNat (ofBigEndian (bytes.take 4))

/-- `binary.BigEndian.Uint64`: reads the first eight bytes. -/
def uint64 (bytes : Bytes) : UInt64 := UInt64.ofNat (ofBigEndian (bytes.take 8))

@[simp] theorem putUint16_length (number : UInt16) : (putUint16 number).length = 2 :=
  bigEndian_length 2 number.toNat

@[simp] theorem putUint32_length (number : UInt32) : (putUint32 number).length = 4 :=
  bigEndian_length 4 number.toNat

@[simp] theorem putUint64_length (number : UInt64) : (putUint64 number).length = 8 :=
  bigEndian_length 8 number.toNat

theorem uint16_putUint16_append (number : UInt16) (rest : Bytes) :
    uint16 (putUint16 number ++ rest) = some number := by
  have long : ¬ (putUint16 number ++ rest).length < 2 := by
    rw [List.length_append, putUint16_length]
    omega
  have small : number.toNat % 256 ^ 2 = number.toNat := Nat.mod_eq_of_lt number.toNat_lt
  rw [uint16, if_neg long, List.take_left' (putUint16_length number), putUint16,
    ofBigEndian_bigEndian, small, UInt16.ofNat_toNat]

theorem uint32_putUint32_append (number : UInt32) (rest : Bytes) :
    uint32 (putUint32 number ++ rest) = number := by
  have small : number.toNat % 256 ^ 4 = number.toNat := Nat.mod_eq_of_lt number.toNat_lt
  rw [uint32, List.take_left' (putUint32_length number), putUint32, ofBigEndian_bigEndian, small,
    UInt32.ofNat_toNat]

theorem uint64_putUint64_append (number : UInt64) (rest : Bytes) :
    uint64 (putUint64 number ++ rest) = number := by
  have small : number.toNat % 256 ^ 8 = number.toNat := Nat.mod_eq_of_lt number.toNat_lt
  rw [uint64, List.take_left' (putUint64_length number), putUint64, ofBigEndian_bigEndian, small,
    UInt64.ofNat_toNat]

@[simp] theorem uint64_putUint64 (number : UInt64) : uint64 (putUint64 number) = number := by
  simpa using uint64_putUint64_append number []

/-- A number below 2^56 is determined by its low seven bytes. -/
theorem putUint64_low_inj {first second : UInt64} (firstSmall : first.toNat < 2 ^ 56)
    (secondSmall : second.toNat < 2 ^ 56)
    (equal : (putUint64 first).drop 1 = (putUint64 second).drop 1) : first = second := by
  rw [putUint64, putUint64, bigEndian_drop, bigEndian_drop] at equal
  have numbers := congrArg ofBigEndian equal
  rw [ofBigEndian_bigEndian, ofBigEndian_bigEndian] at numbers
  refine UInt64.toNat.inj ?_
  omega

theorem putUint64_inj {first second : UInt64} (equal : putUint64 first = putUint64 second) :
    first = second := by
  rw [← uint64_putUint64 first, equal, uint64_putUint64]

end Wire
