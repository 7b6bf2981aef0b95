/-
This file is about slices: parts of arrays in a memory, which several slices may
share. Appending to a slice writes behind its last element where its array has room,
and copies it to a new array otherwise.

A loop may hand the elements of a slice on, one after another, to the slice of no
elements at the same address. It writes over the array it reads, but never over an
element that it has still to read. So what it leaves is what the same loop gives on
the list of the elements.
-/

import Mathlib.Data.List.Basic
import Mathlib.Data.List.Range
import Mathlib.Logic.Function.Basic

namespace Slices

variable {Value State : Type}

/-- The values in the cells of a memory. The cells from the address `free` on are unused. -/
structure Memory (Value : Type) where
  cells : Nat → Value
  free : Nat

/-- Elements in consecutive cells, and the number of cells up to the end of their array. -/
structure Slice where
  start : Nat
  length : Nat
  capacity : Nat
  fits : length ≤ capacity

namespace Slice

/-- The address is one of the slice's array. -/
def Covers (slice : Slice) (address : Nat) : Prop :=
  slice.start ≤ address ∧ address < slice.start + slice.capacity

/-- The slices share no cell. -/
def Apart (first second : Slice) : Prop := ∀ address, first.Covers address → ¬ second.Covers address

theorem Apart.symm {first second : Slice} (apart : first.Apart second) : second.Apart first :=
  fun address covered other => apart address other covered

theorem apart_of_le {first second : Slice} (before : first.start + first.capacity ≤ second.start) :
    first.Apart second :=
  fun _ covered other => absurd (Nat.le_trans before other.1) (Nat.not_le_of_lt covered.2)

/-- The slice of no elements at the same address. -/
def emptied (slice : Slice) : Slice := ⟨slice.start, 0, slice.capacity, Nat.zero_le _⟩

end Slice

namespace Memory

def Holds (memory : Memory Value) (slice : Slice) : Prop :=
  slice.start + slice.capacity ≤ memory.free

def read (memory : Memory Value) (slice : Slice) : List Value :=
  (List.range' slice.start slice.length).map memory.cells

def write (memory : Memory Value) (address : Nat) (value : Value) : Memory Value :=
  { memory with cells := Function.update memory.cells address value }

def writeAll (memory : Memory Value) (address : Nat) : List Value → Memory Value
  | [] => memory
  | value :: rest => (memory.write address value).writeAll (address + 1) rest

/-- Appends values to a slice. A new array has `grow capacity needed` more cells than it needs. -/
def append (grow : Nat → Nat → Nat) (memory : Memory Value) (slice : Slice) (values : List Value) :
    Memory Value × Slice :=
  if room : slice.length + values.length ≤ slice.capacity then
    (memory.writeAll (slice.start + slice.length) values,
      ⟨slice.start, slice.length + values.length, slice.capacity, room⟩)
  else
    let needed := slice.length + values.length
    (⟨(memory.writeAll memory.free (memory.read slice ++ values)).cells,
        memory.free + (needed + grow slice.capacity needed)⟩,
      ⟨memory.free, needed, needed + grow slice.capacity needed, Nat.le_add_right _ _⟩)

/-- The later memory has the cells of the earlier one, apart from those at certain addresses. -/
structure Spares (touched : Nat → Prop) (earlier later : Memory Value) : Prop where
  grows : earlier.free ≤ later.free
  same : ∀ address < earlier.free, ¬ touched address →
    later.cells address = earlier.cells address

theorem Spares.refl (touched : Nat → Prop) (memory : Memory Value) :
    Spares touched memory memory :=
  ⟨le_rfl, fun _ _ _ => rfl⟩

theorem Spares.trans {first second : Nat → Prop} {earlier between later : Memory Value}
    (before : Spares first earlier between) (after : Spares second between later) :
    Spares (fun address => first address ∨ second address) earlier later where
  grows := before.grows.trans after.grows
  same address used untouched :=
    (after.same address (used.trans_le before.grows) (untouched ∘ Or.inr)).trans
      (before.same address used (untouched ∘ Or.inl))

theorem Spares.imp {first second : Nat → Prop} {earlier later : Memory Value}
    (spares : Spares first earlier later)
    (within : ∀ address < earlier.free, first address → second address) :
    Spares second earlier later where
  grows := spares.grows
  same address used untouched := spares.same address used (untouched ∘ within address used)

theorem Spares.holds {touched : Nat → Prop} {earlier later : Memory Value}
    (spares : Spares touched earlier later) {slice : Slice} (held : earlier.Holds slice) :
    later.Holds slice :=
  Nat.le_trans held spares.grows

theorem length_read (memory : Memory Value) (slice : Slice) :
    (memory.read slice).length = slice.length := by
  rw [read, List.length_map, List.length_range']

theorem Spares.map_cells {touched : Nat → Prop} {earlier later : Memory Value}
    (spares : Spares touched earlier later) {start length : Nat}
    (used : start + length ≤ earlier.free)
    (untouched : ∀ address, start ≤ address → address < start + length → ¬ touched address) :
    (List.range' start length).map later.cells = (List.range' start length).map earlier.cells := by
  refine List.map_congr_left fun address member => ?_
  obtain ⟨isStart, isEnd⟩ := List.mem_range'_1.mp member
  exact spares.same address (isEnd.trans_le used) (untouched address isStart isEnd)

/-- A slice that is not touched has the elements it had. -/
theorem Spares.read {touched : Nat → Prop} {earlier later : Memory Value}
    (spares : Spares touched earlier later) {slice : Slice} (held : earlier.Holds slice)
    (untouched : ∀ address, slice.Covers address → ¬ touched address) :
    later.read slice = earlier.read slice :=
  have fits := slice.fits
  spares.map_cells (Nat.le_trans (Nat.add_le_add_left fits _) held) fun address isStart isEnd =>
    untouched address ⟨isStart, isEnd.trans_le (Nat.add_le_add_left fits _)⟩

/-! ### Writing -/

theorem free_writeAll (memory : Memory Value) (address : Nat) (values : List Value) :
    (memory.writeAll address values).free = memory.free := by
  induction values generalizing memory address with
  | nil => rfl
  | cons value rest inductionHypothesis => exact inductionHypothesis _ _

theorem cells_writeAll_of_outside (memory : Memory Value) (address : Nat) (values : List Value)
    (other : Nat) (outside : other < address ∨ address + values.length ≤ other) :
    (memory.writeAll address values).cells other = memory.cells other := by
  induction values generalizing memory address with
  | nil => rfl
  | cons value rest inductionHypothesis =>
    rw [List.length_cons] at outside
    rw [writeAll, inductionHypothesis _ _ (by omega)]
    exact Function.update_of_ne (by omega) _ _

theorem map_cells_writeAll (memory : Memory Value) (address : Nat) (values : List Value) :
    (List.range' address values.length).map (memory.writeAll address values).cells = values := by
  induction values generalizing memory address with
  | nil => rfl
  | cons value rest inductionHypothesis =>
    rw [List.length_cons, List.range'_succ, List.map_cons, writeAll, inductionHypothesis,
      cells_writeAll_of_outside _ _ _ _ (Or.inl (Nat.lt_succ_self address))]
    exact congrArg (· :: rest) (Function.update_self _ _ _)

theorem spares_writeAll (memory : Memory Value) (address : Nat) (values : List Value) :
    Spares (fun other => address ≤ other ∧ other < address + values.length) memory
      (memory.writeAll address values) where
  grows := (free_writeAll memory address values).ge
  same other _ untouched := cells_writeAll_of_outside memory address values other (by omega)

/-- The elements before a position, the one there and those behind it. -/
theorem read_split (memory : Memory Value) {slice : Slice} {position left : Nat}
    (count : position + (left + 1) = slice.length) :
    memory.read slice = (List.range' slice.start position).map memory.cells ++
      memory.cells (slice.start + position) ::
        (List.range' (slice.start + position + 1) left).map memory.cells := by
  rw [read, ← count, ← List.range'_append_1, List.map_append, List.range'_succ, List.map_cons]

/-- A write to the cell at a position replaces the element there. -/
theorem read_write (memory : Memory Value) {slice : Slice} {position left : Nat}
    (count : position + (left + 1) = slice.length) (value : Value) :
    (memory.write (slice.start + position) value).read slice =
      (List.range' slice.start position).map memory.cells ++
        value :: (List.range' (slice.start + position + 1) left).map memory.cells := by
  have kept : ∀ start length, (∀ address, start ≤ address → address < start + length →
      address ≠ slice.start + position) →
      (List.range' start length).map (memory.write (slice.start + position) value).cells =
        (List.range' start length).map memory.cells := by
    intro start length other
    refine List.map_congr_left fun address member => ?_
    obtain ⟨isStart, isEnd⟩ := List.mem_range'_1.mp member
    exact Function.update_of_ne (other address isStart isEnd) _ _
  rw [read_split _ count, kept _ _ (by omega), kept _ _ (by omega)]
  exact congrArg (_ ++ · :: _) (Function.update_self _ _ _)

/-! ### Appending -/

variable (grow : Nat → Nat → Nat) (memory : Memory Value) (slice : Slice) (values : List Value)

/-- What appending leaves: a slice with the elements and the values, in the same array or in a new
one, and a memory in which nothing but cells behind the last element has changed. -/
theorem append_spec (held : memory.Holds slice) :
    ∃ after result, memory.append grow slice values = (after, result) ∧
      after.read result = memory.read slice ++ values ∧
      result.length = slice.length + values.length ∧ after.Holds result ∧
      Spares (fun address => slice.start + slice.length ≤ address ∧
        address < slice.start + slice.length + values.length ∧ slice.Covers address)
        memory after ∧
      (slice.length + values.length ≤ slice.capacity → result.start = slice.start ∧
        result.capacity = slice.capacity) ∧
      (result.start = slice.start ∧ result.capacity = slice.capacity ∨
        memory.free ≤ result.start) := by
  unfold append
  have fits := slice.fits
  unfold Holds at held
  split
  case isTrue room =>
    have spares := spares_writeAll memory (slice.start + slice.length) values
    refine ⟨_, _, rfl, ?_, rfl, spares.holds held, spares.imp fun address _ within => ?_,
      fun _ => ⟨rfl, rfl⟩, Or.inl ⟨rfl, rfl⟩⟩
    · have kept : (List.range' slice.start slice.length).map
          (memory.writeAll (slice.start + slice.length) values).cells = memory.read slice :=
        spares.map_cells (by omega) (by omega)
      rw [read, ← List.range'_append_1, List.map_append, kept, map_cells_writeAll]
    · exact ⟨within.1, within.2, by unfold Slice.Covers; omega⟩
  case isFalse full =>
    refine ⟨_, _, rfl, ?_, rfl, le_rfl, ⟨Nat.le_add_right _ _, fun address used _ => ?_⟩,
      fun room => absurd room full, Or.inr le_rfl⟩
    · have copied := map_cells_writeAll memory memory.free (memory.read slice ++ values)
      rwa [List.length_append, length_read] at copied
    · exact cells_writeAll_of_outside _ _ _ _ (Or.inl used)

variable {memory slice} in
/-- A used cell of the array that a slice is in after appending was one of its array before. -/
theorem covers_of_place {result : Slice}
    (place : result.start = slice.start ∧ result.capacity = slice.capacity ∨
      memory.free ≤ result.start) {address : Nat} (used : address < memory.free)
    (covered : result.Covers address) : slice.Covers address := by
  rcases place with ⟨isStart, isEnd⟩ | fresh
  · unfold Slice.Covers at covered ⊢
    rwa [isStart, isEnd] at covered
  · exact absurd (Nat.le_trans fresh covered.1) (Nat.not_le_of_lt used)

end Memory

/-! ### Loops that hand elements on -/

/-- The loop on a list: what its body hands out, and the state it leaves. -/
def gather (body : State → Value → State × Option Value) :
    State → List Value → State × List Value
  | state, [] => (state, [])
  | state, value :: rest =>
    match body state value with
    | (next, none) => gather body next rest
    | (next, some handed) =>
      let (last, others) := gather body next rest
      (last, handed :: others)

namespace Memory

/-- The loop on a slice, from a position on: each element is read when its turn comes, and what the
body hands out is appended to another slice. -/
def handOn (grow : Nat → Nat → Nat) (body : State → Value → State × Option Value) (source : Slice) :
    Nat → Nat → State → Memory Value → Slice → State × Memory Value × Slice
  | 0, _, state, memory, out => (state, memory, out)
  | left + 1, position, state, memory, out =>
    match body state (memory.cells (source.start + position)) with
    | (next, none) => handOn grow body source left (position + 1) next memory out
    | (next, some handed) =>
      let (memory, out) := memory.append grow out [handed]
      handOn grow body source left (position + 1) next memory out

/-- Appending to the one slice does not reach what is still to be read of the other: it is the
emptied one with fewer elements than have been read, or it lies behind. -/
def Trails (source out : Slice) (position : Nat) : Prop :=
  out.start = source.start ∧ out.capacity = source.capacity ∧ out.length ≤ position ∨
    source.start + source.capacity ≤ out.start

variable (grow : Nat → Nat → Nat) (body : State → Value → State × Option Value) (source : Slice)

/-- The loop on a slice leaves what the loop on the list of its elements gives. -/
theorem handOn_spec {left position : Nat} (count : position + left = source.length) (state : State)
    (memory : Memory Value) (out : Slice) (held : memory.Holds source) (outHeld : memory.Holds out)
    (trails : Trails source out position) :
    ∃ after result, handOn grow body source left position state memory out =
        ((gather body state
          ((List.range' (source.start + position) left).map memory.cells)).1, after, result) ∧
      after.read result = memory.read out ++ (gather body state
        ((List.range' (source.start + position) left).map memory.cells)).2 ∧
      after.Holds result ∧ Spares out.Covers memory after := by
  induction left generalizing position state memory out with
  | zero => exact ⟨memory, out, rfl, (List.append_nil _).symm, outHeld, Spares.refl _ _⟩
  | succ left inductionHypothesis =>
    rw [List.range'_succ, List.map_cons, gather, handOn]
    rcases body state (memory.cells (source.start + position)) with ⟨next, _ | handed⟩
    · have later : Trails source out (position + 1) :=
        trails.imp_left fun ⟨isStart, isEnd, behind⟩ => ⟨isStart, isEnd, Nat.le_succ_of_le behind⟩
      exact inductionHypothesis (by omega) next memory out held outHeld later
    · obtain ⟨between, longer, appended, isRead, isLength, longerHeld, spares, inPlace, place⟩ :=
        append_spec grow memory out [handed] outHeld
      have fits := source.fits
      unfold Holds at held
      -- the cells that are still to be read are the same
      have unread : (List.range' (source.start + position + 1) left).map between.cells =
          (List.range' (source.start + position + 1) left).map memory.cells := by
        refine spares.map_cells (by omega) fun address isStart isEnd touched => ?_
        unfold Slice.Covers at touched
        rw [List.length_singleton] at touched
        rcases trails with ⟨sameStart, _, behind⟩ | apart <;> omega
      have later : Trails source longer (position + 1) := by
        rcases trails with ⟨sameStart, sameEnd, behind⟩ | apart
        · obtain ⟨isStart, isEnd⟩ := inPlace (by rw [List.length_singleton]; omega)
          exact Or.inl ⟨isStart.trans sameStart, isEnd.trans sameEnd,
            isLength.trans_le (Nat.succ_le_succ behind)⟩
        · rcases place with ⟨isStart, _⟩ | fresh
          · exact Or.inr (apart.trans_eq isStart.symm)
          · exact Or.inr (Nat.le_trans held fresh)
      obtain ⟨after, result, isResult, isFinal, resultHeld, sparesLater⟩ :=
        @inductionHypothesis (position + 1) (by omega) next between longer
          (spares.holds held) longerHeld later
      simp only [appended]
      rw [← Nat.add_assoc, unread] at isResult isFinal
      refine ⟨after, result, isResult, ?_, resultHeld, (spares.trans sparesLater).imp ?_⟩
      · rw [isFinal, isRead, List.append_assoc, List.singleton_append]
      · rintro address used (⟨_, _, covered⟩ | covered)
        · exact covered
        · exact covers_of_place place used covered

/-- The loop that writes over the array it reads. -/
def compact (state : State) (memory : Memory Value) : State × Memory Value × Slice :=
  handOn grow body source source.length 0 state memory source.emptied

theorem compact_spec (state : State) (memory : Memory Value) (held : memory.Holds source) :
    ∃ after result, compact grow body source state memory =
        ((gather body state (memory.read source)).1, after, result) ∧
      after.read result = (gather body state (memory.read source)).2 ∧ after.Holds result ∧
      Spares source.Covers memory after :=
  handOn_spec grow body source (Nat.zero_add _) state memory source.emptied held held
    (Or.inl ⟨rfl, rfl, le_rfl⟩)

end Memory

end Slices
