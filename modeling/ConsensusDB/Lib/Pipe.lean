/-
This file is the synchronous pipe of Go's `io.Pipe`, with one writer and one reader.
It holds no bytes: a write waits until reads have taken all of it, each read takes
from the write that waits, and a write of nothing still waits for one read. The
writer may close its end with an error, which reads then return.

A feed is a pipe together with the writes its writer has yet to make. Nothing is lost
or made up on the way: reads of one size take the pieces of each write in turn.
-/

import ConsensusDB.Lib.Stream

open Wire Stream

/-- A pipe whose reading end is open: the rest of the write that waits, the writes that are still to
come, and the error its writing end was closed with. -/
structure Feed (Error : Type) where
  waiting : Option Bytes := none
  writes : List Bytes
  closed : Option Error := none

namespace Feed

variable {Error : Type} {feed next : Feed Error} {count : Nat} {chunk : Bytes}

/-- The next write begins to wait. -/
inductive Write (feed : Feed Error) : Feed Error → Prop
  | write (bytes : Bytes) (rest : List Bytes) (idle : feed.waiting = none)
      (isNext : feed.writes = bytes :: rest) :
      Write feed { feed with waiting := some bytes, writes := rest }

/-- A read takes up to a number of bytes from the write that waits, which returns once nothing of it
is left. -/
def read (size : Nat) (feed : Feed Error) : Option (Bytes × Feed Error) :=
  feed.waiting.map fun bytes =>
    (bytes.take size,
      { feed with waiting := if bytes.drop size = [] then none else some (bytes.drop size) })

/-- Every write has been made and has returned. -/
def Drained (feed : Feed Error) : Prop := feed.waiting = none ∧ feed.writes = []

theorem read_eq_some (taken : feed.read count = some (chunk, next)) :
    ∃ bytes, feed.waiting = some bytes ∧ chunk = bytes.take count ∧ next = { feed with
      waiting := if bytes.drop count = [] then none else some (bytes.drop count) } := by
  obtain ⟨bytes, waits, equal⟩ := Option.map_eq_some_iff.mp taken
  cases equal
  exact ⟨bytes, waits, rfl, rfl⟩

theorem read_eq_none : feed.read count = none ↔ feed.waiting = none := Option.map_eq_none_iff

theorem closed_of_read (taken : feed.read count = some (chunk, next)) :
    next.closed = feed.closed := by
  obtain ⟨_, _, _, rfl⟩ := read_eq_some taken
  rfl

/-! ### What is on the way -/

/-- The pieces that reads of one size still take. -/
def pieces (size : Nat) (feed : Feed Error) : List Bytes :=
  (feed.waiting.map (cut size)).getD [] ++ feed.writes.flatMap (cut size)

/-- A bound on the reads and writes that a feed still admits. -/
def size (feed : Feed Error) : Nat :=
  (feed.waiting.map fun bytes => bytes.length + 1).getD 0 +
    (feed.writes.map fun bytes => bytes.length + 2).sum

theorem pieces_write (size : Nat) (wrote : Write feed next) :
    next.pieces size = feed.pieces size := by
  obtain ⟨bytes, rest, idle, isNext⟩ := wrote
  rw [pieces, pieces, idle, isNext]
  rfl

theorem size_write (wrote : Write feed next) : next.size < feed.size := by
  obtain ⟨bytes, rest, idle, isNext⟩ := wrote
  rw [size, size, idle, isNext]
  simp only [Option.map_some, Option.getD_some, Option.map_none, Option.getD_none, List.map_cons,
    List.sum_cons]
  omega

/-- A read of the size takes the first of the pieces, or nothing of a write of nothing. -/
theorem pieces_read (positive : count ≠ 0) (taken : feed.read count = some (chunk, next)) :
    feed.pieces count = if chunk = [] then next.pieces count else chunk :: next.pieces count := by
  obtain ⟨bytes, waits, rfl, rfl⟩ := read_eq_some taken
  have nothing : cut count [] = [] := by rw [cut, if_pos (Or.inl rfl)]
  have rest : ((if bytes.drop count = [] then none else some (bytes.drop count)).map
      (cut count)).getD [] = cut count (bytes.drop count) := by
    split
    · rename_i empty
      rw [empty, nothing]
      rfl
    · rfl
  rw [pieces, pieces, waits]
  simp only [rest, Option.map_some, Option.getD_some]
  by_cases empty : bytes = []
  · rw [empty, List.take_nil, if_pos rfl, List.drop_nil]
  · have nonempty : bytes.take count ≠ [] := by
      rw [Ne, List.take_eq_nil_iff]
      exact not_or.mpr ⟨positive, empty⟩
    rw [if_neg nonempty, cut, if_neg (not_or.mpr ⟨empty, positive⟩), List.cons_append]

theorem size_read (positive : count ≠ 0) (taken : feed.read count = some (chunk, next)) :
    next.size < feed.size := by
  obtain ⟨bytes, waits, rfl, rfl⟩ := read_eq_some taken
  rw [Feed.size, Feed.size, waits]
  simp only [Option.map_some, Option.getD_some]
  split
  · rw [Option.map_none, Option.getD_none]
    omega
  · rename_i nonempty
    have length := List.length_pos_of_ne_nil nonempty
    rw [List.length_drop] at length
    rw [Option.map_some, Option.getD_some, List.length_drop]
    omega

theorem pieces_of_drained (size : Nat) (drained : feed.Drained) : feed.pieces size = [] := by
  rw [pieces, drained.1, drained.2]
  rfl

/-- A writer that is not in a write has made all of its writes, or makes the next one. -/
theorem drained_or_write (idle : feed.waiting = none) : feed.Drained ∨ ∃ next, Write feed next := by
  cases writes : feed.writes with
  | nil => exact Or.inl ⟨idle, writes⟩
  | cons bytes rest => exact Or.inr ⟨_, .write bytes rest idle writes⟩

theorem not_drained_of_write (wrote : Write feed next) : ¬ next.Drained := by
  obtain ⟨bytes, rest, _, _⟩ := wrote
  rintro ⟨impossible, _⟩
  cases impossible

theorem closed_of_write (wrote : Write feed next) : next.closed = feed.closed := by
  cases wrote
  rfl

end Feed
