/-
This file is about what the writers of bindings do to the pairs of roles and members
that a list of bindings stands for. The console merges members through maps, which
come out in any order. The command line works on slices: `dedup` writes over the array
it reads, and `append` may write behind the members of a binding.

`InMemory` has the functions on slices as they are. On bindings whose members have
arrays of their own they leave the list that `Cli.mergeBinding` gives. So a grant adds
the role with each of its members, in the console and on the command line alike, and a
revocation takes these pairs away.
-/

import ConsensusDB.Lib.Slices
import ConsensusDB.PolicyUpdates
import Mathlib.Data.Set.Prod

namespace ConsensusDB

open Wire Iam Slices

namespace InMemory

/-- A binding whose members are a slice. -/
structure Cell where
  role : Bytes
  members : Slice

/-- The arrays of names and the arrays of bindings. -/
structure Heap where
  names : Memory Bytes
  cells : Memory Cell

/-- The binding that a cell stands for. -/
def bindingOf (names : Memory Bytes) (cell : Cell) : Binding :=
  ⟨cell.role, names.read cell.members⟩

def Heap.bindings (heap : Heap) (slice : Slice) : List Binding :=
  (heap.cells.read slice).map (bindingOf heap.names)

/-- The members of a slice of bindings are in arrays of their own, apart from some more names. -/
structure Heap.Separate (heap : Heap) (slice add : Slice) : Prop where
  held : heap.cells.Holds slice
  addHeld : heap.names.Holds add
  membersHeld : ∀ cell ∈ heap.cells.read slice, heap.names.Holds cell.members
  apart : (heap.cells.read slice).Pairwise fun first second => first.members.Apart second.members
  addApart : ∀ cell ∈ heap.cells.read slice, cell.members.Apart add

section

variable (grow : Nat → Nat → Nat)

/-- The body of the loop of `dedup`. -/
def dedupStep (seen : List Bytes) (name : Bytes) : List Bytes × Option Bytes :=
  if seen.contains name then (seen, none) else (name :: seen, some name)

def dedup (names : Memory Bytes) (slice : Slice) : Memory Bytes × Slice :=
  (names.compact grow dedupStep slice []).2

/-- The loop of `mergeBinding`, from a position on. -/
def mergeFrom (bindings : Slice) (role : Bytes) (add : Slice) :
    Nat → Nat → Heap → Heap × Slice
  | 0, _, heap =>
    let (names, members) := dedup grow heap.names add
    let (cells, longer) := heap.cells.append grow bindings [⟨role, members⟩]
    (⟨names, cells⟩, longer)
  | left + 1, position, heap =>
    let cell := heap.cells.cells (bindings.start + position)
    if cell.role = role then
      let (names, joined) := heap.names.append grow cell.members (heap.names.read add)
      let (names, members) := dedup grow names joined
      (⟨names, heap.cells.write (bindings.start + position) ⟨cell.role, members⟩⟩, bindings)
    else mergeFrom bindings role add left (position + 1) heap

def mergeBinding (heap : Heap) (bindings : Slice) (role : Bytes) (add : Slice) : Heap × Slice :=
  mergeFrom grow bindings role add bindings.length 0 heap

end

/-! ### What the functions on slices leave -/

section

variable (grow : Nat → Nat → Nat)

theorem gather_dedupStep (seen names : List Bytes) :
    (gather dedupStep seen names).2 = (names.filter fun name => name ∉ seen).eraseDups := by
  induction names generalizing seen with
  | nil => rfl
  | cons name rest inductionHypothesis =>
    rw [gather, dedupStep]
    by_cases known : name ∈ seen
    · rw [if_pos (List.contains_iff_mem.mpr known), List.filter_cons_of_neg (by simpa using known)]
      exact inductionHypothesis seen
    · rw [if_neg (mt List.contains_iff_mem.mp known),
        List.filter_cons_of_pos (by simpa using known), List.eraseDups_cons, List.filter_filter]
      refine congrArg (name :: ·) ((inductionHypothesis (name :: seen)).trans ?_)
      refine congrArg List.eraseDups (List.filter_congr fun other _ => ?_)
      simp only [List.mem_cons, not_or, Bool.decide_and, decide_not, beq_eq_decide]

/-- `dedup` leaves each name once, in a memory in which nothing but its own array has changed. -/
theorem dedup_spec {names : Memory Bytes} {slice : Slice} (held : names.Holds slice) :
    ∃ after result, dedup grow names slice = (after, result) ∧
      after.read result = (names.read slice).eraseDups ∧
      Memory.Spares slice.Covers names after := by
  obtain ⟨after, result, isResult, isRead, _, spares⟩ :=
    Memory.compact_spec grow dedupStep slice [] names held
  refine ⟨after, result, by rw [dedup, isResult], ?_, spares⟩
  rw [isRead, gather_dedupStep]
  simp

/-- Names that are appended to a slice and deduplicated with it are in its array or in a new one. -/
theorem joined_spec {names : Memory Bytes} {slice : Slice} (held : names.Holds slice)
    (values : List Bytes) :
    ∃ between joined after result, names.append grow slice values = (between, joined) ∧
      dedup grow between joined = (after, result) ∧
      after.read result = (names.read slice ++ values).eraseDups ∧
      Memory.Spares slice.Covers names after := by
  obtain ⟨between, joined, appended, isJoined, _, joinedHeld, sparesJoin, _, place⟩ :=
    names.append_spec grow slice values held
  obtain ⟨after, result, deduped, isResult, sparesDedup⟩ := dedup_spec grow joinedHeld
  refine ⟨between, joined, after, result, appended, deduped, isJoined ▸ isResult,
    (sparesJoin.trans sparesDedup).imp ?_⟩
  rintro address used (⟨_, _, covered⟩ | covered)
  · exact covered
  · exact Memory.covers_of_place place used covered

/-- Bindings whose members are not touched stay what they are. -/
theorem map_bindingOf {touched : Nat → Prop} {names after : Memory Bytes}
    (spares : Memory.Spares touched names after) {cells : List Cell}
    (membersHeld : ∀ cell ∈ cells, names.Holds cell.members)
    (untouched : ∀ cell ∈ cells, ∀ address, cell.members.Covers address → ¬ touched address) :
    cells.map (bindingOf after) = cells.map (bindingOf names) := by
  refine List.map_congr_left fun cell member => ?_
  rw [bindingOf, bindingOf, spares.read (membersHeld cell member) (untouched cell member)]

/-- The loop of `mergeBinding` leaves the bindings before its position, and what `Cli.mergeBinding`
makes of the others. -/
theorem mergeFrom_spec {heap : Heap} {bindings add : Slice} (separate : heap.Separate bindings add)
    (role : Bytes) {left position : Nat} (count : position + left = bindings.length) :
    ∃ after result, mergeFrom grow bindings role add left position heap = (after, result) ∧
      after.bindings result =
        ((List.range' bindings.start position).map heap.cells.cells).map (bindingOf heap.names) ++
          Cli.mergeBinding role (heap.names.read add)
            (((List.range' (bindings.start + position) left).map heap.cells.cells).map
              (bindingOf heap.names)) := by
  induction left generalizing position with
  | zero =>
    obtain ⟨names, members, deduped, isMembers, sparesNames⟩ := dedup_spec grow
      separate.addHeld
    obtain ⟨cells, longer, appended, isLonger, _⟩ :=
      heap.cells.append_spec grow bindings [⟨role, members⟩] separate.held
    refine ⟨⟨names, cells⟩, longer, by simp only [mergeFrom, deduped, appended], ?_⟩
    have others : (heap.cells.read bindings).map (bindingOf names) =
        (heap.cells.read bindings).map (bindingOf heap.names) :=
      map_bindingOf sparesNames separate.membersHeld separate.addApart
    obtain rfl : position = bindings.length := count
    rw [Heap.bindings, isLonger, List.map_append, others]
    refine congrArg (_ ++ ·) ?_
    rw [List.map_singleton, bindingOf, isMembers]
    rfl
  | succ left inductionHypothesis =>
    rw [List.range'_succ, List.map_cons, List.map_cons, Cli.mergeBinding, mergeFrom]
    by_cases same : (heap.cells.cells (bindings.start + position)).role = role
    · simp only [bindingOf, same, if_true]
      have split := heap.cells.read_split count
      have apart := separate.apart
      have membersHeld := separate.membersHeld
      rw [split] at apart membersHeld
      obtain ⟨_, apartLater, apartBefore⟩ := List.pairwise_append.mp apart
      obtain ⟨between, joined, names, members, appended, deduped, isMembers, spares⟩ :=
        joined_spec grow (membersHeld _ (List.mem_append_right _ List.mem_cons_self))
          (heap.names.read add)
      have before := map_bindingOf spares
        (fun cell member => membersHeld cell (List.mem_append_left _ member))
        fun cell member => apartBefore cell member _ List.mem_cons_self
      have later := map_bindingOf spares
        (fun cell member =>
          membersHeld cell (List.mem_append_right _ (List.mem_cons_of_mem _ member)))
        fun cell member => ((List.pairwise_cons.mp apartLater).1 cell member).symm
      refine ⟨_, bindings, by simp only [appended, deduped]; rfl, ?_⟩
      rw [Heap.bindings, heap.cells.read_write count, List.map_append, List.map_cons, before,
        later, bindingOf, isMembers]
    · simp only [bindingOf, same, if_false]
      obtain ⟨after, result, isResult, isBindings⟩ :=
        @inductionHypothesis (position + 1) ((Nat.succ_add_eq_add_succ position left).trans count)
      refine ⟨after, result, isResult, ?_⟩
      rw [isBindings, List.range'_1_concat, List.map_append, List.map_append, List.append_assoc]
      rfl

theorem mergeBinding_spec {heap : Heap} {bindings add : Slice}
    (separate : heap.Separate bindings add) (role : Bytes) :
    ∃ after result, mergeBinding grow heap bindings role add = (after, result) ∧
      after.bindings result =
        Cli.mergeBinding role (heap.names.read add) (heap.bindings bindings) :=
  mergeFrom_spec grow separate role (Nat.zero_add _)

end

end InMemory

/-! ### The pairs of roles and members -/

/-- The pairs that a list of bindings stands for. -/
def pairs (bindings : List Binding) : Set (Bytes × Bytes) :=
  {pair | Administration.Binds bindings pair.1 pair.2}

/-- A role with each of some members. -/
def pairsOf (role : Bytes) (members : List Bytes) : Set (Bytes × Bytes) :=
  {role} ×ˢ {member | member ∈ members}

section

variable (bindings : List Binding) (role : Bytes) (members : List Bytes)

theorem pairs_mergeBinding :
    pairs (Cli.mergeBinding role members bindings) = pairs bindings ∪ pairsOf role members := by
  ext pair
  exact Administration.binds_mergeBinding bindings

theorem pairs_grant (order : Console.MapOrder) (named : ∀ member ∈ members, member ≠ []) :
    pairs (Console.applyBinding order bindings role members true) =
      pairs bindings ∪ pairsOf role members := by
  ext ⟨other, member⟩
  refine Administration.binds_applyBinding.trans (or_congr ?_ ?_)
  · exact and_iff_left nofun
  · constructor
    · rintro ⟨_, isRole, isMember, _⟩
      exact ⟨isRole, isMember⟩
    · rintro ⟨isRole, isMember⟩
      exact ⟨rfl, isRole, isMember, Or.inl (named member isMember)⟩

theorem pairs_revoke (order : Console.MapOrder) :
    pairs (Console.applyBinding order bindings role members false) =
      pairs bindings \ pairsOf role members := by
  ext ⟨other, member⟩
  refine Administration.binds_applyBinding.trans ((or_iff_left nofun).trans (and_congr_right ?_))
  intro _
  constructor
  · rintro kept ⟨isRole, isMember⟩
    exact kept rfl isRole isMember
  · intro outside _ isRole isMember
    exact outside ⟨isRole, isMember⟩

/-- A grant adds the pairs of the role and the members, through any order of the console's maps, on
the command line's lists, and on its slices when the bindings and the members have arrays of their
own. A revocation takes them away. -/
theorem bindings_agree (named : ∀ member ∈ members, member ≠ []) :
    (∀ order, pairs (Console.applyBinding order bindings role members true) =
        pairs bindings ∪ pairsOf role members) ∧
      (∀ order, pairs (Console.applyBinding order bindings role members false) =
        pairs bindings \ pairsOf role members) ∧
      pairs (Cli.mergeBinding role members bindings) = pairs bindings ∪ pairsOf role members ∧
      ∀ (grow : Nat → Nat → Nat) (heap : InMemory.Heap) (slice add : Slice),
        heap.Separate slice add → heap.bindings slice = bindings → heap.names.read add = members →
        ∃ after result, InMemory.mergeBinding grow heap slice role add = (after, result) ∧
          pairs (after.bindings result) = pairs bindings ∪ pairsOf role members := by
  refine ⟨fun order => pairs_grant bindings role members order named,
    pairs_revoke bindings role members, pairs_mergeBinding bindings role members, ?_⟩
  rintro grow heap slice add separate rfl rfl
  obtain ⟨after, result, isResult, isBindings⟩ :=
    InMemory.mergeBinding_spec grow separate role
  exact ⟨after, result, isResult, isBindings ▸ pairs_mergeBinding _ role _⟩

end

/-- Two bindings of one role, with a repeated member and room behind the first, and two names. -/
def sampleHeap : InMemory.Heap where
  names := ⟨fun address => if address < 4 then str "user:alice" else str "user:bob", 6⟩
  cells := ⟨fun address => ⟨str "roles/cdb.viewer",
    if address = 0 then ⟨0, 2, 3, by decide⟩ else ⟨3, 1, 1, by decide⟩⟩, 2⟩

def sampleSlice : Slice := ⟨0, 2, 2, by decide⟩

def sampleNames : Slice := ⟨4, 2, 2, by decide⟩

theorem sampleHeap_separate : sampleHeap.Separate sampleSlice sampleNames := by
  have cells : sampleHeap.cells.read sampleSlice =
      [⟨str "roles/cdb.viewer", ⟨0, 2, 3, by decide⟩⟩,
        ⟨str "roles/cdb.viewer", ⟨3, 1, 1, by decide⟩⟩] := rfl
  refine ⟨le_rfl, le_rfl, ?_, ?_, ?_⟩ <;> rw [cells]
  · simp [Memory.Holds, sampleHeap]
  · exact List.pairwise_pair.mpr (Slice.apart_of_le (by decide))
  · simp only [List.mem_cons, List.not_mem_nil, or_false, forall_eq_or_imp, forall_eq]
    exact ⟨Slice.apart_of_le (by decide), Slice.apart_of_le (by decide)⟩

/-- Bob gets the role that alice has: the array of the first binding is written over. -/
theorem bindings_agree_sample :
    sampleHeap.Separate sampleSlice sampleNames ∧
      ∃ after result, InMemory.mergeBinding (fun _ _ => 0) sampleHeap sampleSlice
          (str "roles/cdb.viewer") sampleNames = (after, result) ∧
        pairs (after.bindings result) = pairs (sampleHeap.bindings sampleSlice) ∪
          pairsOf (str "roles/cdb.viewer") [str "user:bob", str "user:bob"] :=
  ⟨sampleHeap_separate,
    (bindings_agree (sampleHeap.bindings sampleSlice) (str "roles/cdb.viewer")
      [str "user:bob", str "user:bob"] (by decide)).2.2.2 (fun _ _ => 0) sampleHeap sampleSlice
      sampleNames sampleHeap_separate rfl (by decide)⟩

end ConsensusDB
