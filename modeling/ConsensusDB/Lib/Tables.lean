/-
This file is about tables that are filled entry by entry. A table is a function with
a value for every key; each item of a list sets the value of at most one key. When
no two items set the same key, the order of the items does not matter: a key has the
value of the item that sets it, or the one it had.
-/

import Mathlib.Logic.Function.Basic
import Mathlib.Data.List.Pairwise

namespace Tables

variable {Item Key Value : Type} [DecidableEq Key] (entry : Item → Option (Key × Value))

/-- Sets the key of an item's entry. -/
def fill (table : Key → Value) (item : Item) : Key → Value :=
  match entry item with
  | none => table
  | some (key, value) => Function.update table key value

/-- No two items set the same key. -/
def Distinct (items : List Item) : Prop :=
  items.Pairwise fun early late => ∀ key value other,
    entry early = some (key, value) → entry late ≠ some (key, other)

theorem fill_self (table : Key → Value) {item : Item} {key : Key} {value : Value}
    (sets : entry item = some (key, value)) : fill entry table item key = value := by
  simp only [fill, sets, Function.update_self]

theorem fill_other (table : Key → Value) (item : Item) (key : Key)
    (other : ∀ value, entry item ≠ some (key, value)) : fill entry table item key = table key := by
  unfold fill
  cases sets : entry item with
  | none => rfl
  | some pair =>
    refine Function.update_of_ne ?_ pair.2 table
    rintro rfl
    exact other pair.2 sets

/-- A key that no item sets keeps its value. -/
theorem foldl_fill_of_absent (items : List Item) (table : Key → Value) (key : Key)
    (absent : ∀ item ∈ items, ∀ value, entry item ≠ some (key, value)) :
    items.foldl (fill entry) table key = table key := by
  induction items generalizing table with
  | nil => rfl
  | cons item rest inductionHypothesis =>
    rw [List.foldl_cons, inductionHypothesis _ fun other member =>
        absent other (List.mem_cons_of_mem _ member),
      fill_other entry table item key (absent item List.mem_cons_self)]

/-- A key that an item sets has its value. -/
theorem foldl_fill_of_mem (items : List Item) (distinct : Distinct entry items)
    (table : Key → Value) {item : Item} (member : item ∈ items) {key : Key} {value : Value}
    (sets : entry item = some (key, value)) : items.foldl (fill entry) table key = value := by
  induction items generalizing table with
  | nil => cases member
  | cons first rest inductionHypothesis =>
    obtain ⟨apart, later⟩ := List.pairwise_cons.mp distinct
    rw [List.foldl_cons]
    rcases List.mem_cons.mp member with rfl | inRest
    · rw [foldl_fill_of_absent entry rest _ key fun other isOther otherValue =>
          apart other isOther key value otherValue sets, fill_self entry table sets]
    · exact inductionHypothesis later _ inRest

/-- In a table that had one value for every key, the other values are those that items set. -/
theorem foldl_fill_eq_iff (items : List Item) (distinct : Distinct entry items)
    (fallback value : Value) (different : value ≠ fallback) (key : Key) :
    items.foldl (fill entry) (fun _ => fallback) key = value ↔
      ∃ item ∈ items, entry item = some (key, value) := by
  constructor
  · intro found
    by_cases absent : ∀ item ∈ items, ∀ other, entry item ≠ some (key, other)
    · rw [foldl_fill_of_absent entry items _ key absent] at found
      exact absurd found.symm different
    · simp only [ne_eq, not_forall, not_not] at absent
      obtain ⟨item, member, other, sets⟩ := absent
      rw [foldl_fill_of_mem entry items distinct _ member sets] at found
      exact ⟨item, member, found ▸ sets⟩
  · rintro ⟨item, member, sets⟩
    exact foldl_fill_of_mem entry items distinct _ member sets

end Tables
