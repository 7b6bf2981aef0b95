/-
This file is about sources of bytes that are read front to back: what a source
yields, and how it ends, cleanly or with an error. Reading a fixed number of
bytes either takes them off the front or says why there are too few. Copying a
source in pieces of a bounded size keeps its bytes, whatever the size.
-/

import ConsensusDB.Lib.Wire

namespace Stream

open Wire

variable {Error : Type}

/-- A source of bytes: the ones it yields, and the error it ends with; without one it ends
cleanly. -/
structure Source (Error : Type) where
  bytes : Bytes
  ending : Option Error
  deriving DecidableEq, Repr

/-- Why a source has too few bytes: it had none left, it ended within them, or it failed. -/
inductive Shortage (Error : Type) where
  | ended
  | cutShort
  | failed (error : Error)

/-- `io.ReadFull`: takes a number of bytes off the front. -/
def readFull (count : Nat) (source : Source Error) :
    Except (Shortage Error) (Bytes × Source Error) :=
  if count ≤ source.bytes.length then
    .ok (source.bytes.take count, ⟨source.bytes.drop count, source.ending⟩)
  else
    match source.ending with
    | some error => .error (.failed error)
    | none => if source.bytes = [] then .error .ended else .error .cutShort

theorem readFull_append (front rest : Bytes) (ending : Option Error) (count : Nat)
    (length : front.length = count) :
    readFull count ⟨front ++ rest, ending⟩ = .ok (front, ⟨rest, ending⟩) := by
  subst length
  unfold readFull
  rw [if_pos (by simp), List.take_left, List.drop_left]

/-- Reading succeeds exactly on a source that starts with the bytes that are read. -/
theorem readFull_eq_ok_iff (count : Nat) (source rest : Source Error) (front : Bytes) :
    readFull count source = .ok (front, rest) ↔
      source = ⟨front ++ rest.bytes, rest.ending⟩ ∧ front.length = count := by
  constructor
  · intro read
    unfold readFull at read
    split at read
    · rename_i enough
      cases read
      exact ⟨by rw [List.take_append_drop], List.length_take_of_le enough⟩
    · split at read
      · cases read
      · split at read
        · cases read
        · cases read
  · rintro ⟨rfl, length⟩
    exact readFull_append front rest.bytes rest.ending count length

theorem ending_of_readFull (count : Nat) (source rest : Source Error) (front : Bytes)
    (read : readFull count source = .ok (front, rest)) :
    rest.ending = source.ending ∧ front.length = count := by
  obtain ⟨rfl, length⟩ := (readFull_eq_ok_iff count source rest front).mp read
  exact ⟨rfl, length⟩

/-- Cuts bytes into pieces of a size, the last of which may be shorter. -/
def cut (size : Nat) (bytes : Bytes) : List Bytes :=
  if bytes = [] ∨ size = 0 then []
  else bytes.take size :: cut size (bytes.drop size)
termination_by bytes.length
decreasing_by
  rename_i bounded
  have nonempty := List.length_pos_of_ne_nil fun empty => bounded (Or.inl empty)
  rw [List.length_drop]
  omega

theorem flatten_cut (size : Nat) (positive : size ≠ 0) (bytes : Bytes) :
    (cut size bytes).flatten = bytes := by
  fun_induction cut size bytes with
  | case1 bytes bounded =>
    rcases bounded with empty | zero
    · rw [empty]
      rfl
    · exact absurd zero positive
  | case2 bytes unbounded inductionHypothesis =>
    rw [List.flatten_cons, inductionHypothesis, List.take_append_drop]

end Stream
