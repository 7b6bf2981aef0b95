/-
This file is about a cached view behind a dirty flag. A source grows by writes;
a callback raises the flag after some of them. A reader swaps the flag for a
lowered one. If it was raised the reader takes a lock, compiles the source into a
view, stores the view and releases the lock. In any case it loads the stored view
then, without the lock, and works with it. All of this happens one step at a
time, in any order the steps of several readers allow.

A reader that found the flag raised loads a view that is as new as the writes
announced to it. One that found it lowered may come while the reader that lowered
it has not stored its view yet, and then loads an older one. It does not when every
reader that took the flag before it has stored its view by the time of its load.
-/

import Mathlib.Logic.Function.Basic
import Mathlib.Order.Lattice

namespace DirtyFlag

/-! ### The machine -/

/-- What compiling a source comes to. -/
inductive Compiled (View : Type) where
  | view (view : View)
  | failed
  | panicked

/-- A source, how writes change it, which of them are watched, and how it is compiled. What
compiling comes to may depend on circumstances, the context. -/
structure Scheme (Source Write View Context : Type) where
  initial : Source
  apply : Source → Write → Source
  watched : Source → Write → Bool
  compile : Context → Source → Compiled View

/-- Where a reader is. -/
inductive Phase (View : Type) where
  | waiting
  | locked
  | compiled (view : View) (version : Nat)
  | published
  | failed
  | retrying
  | loading
  | done (view : View)
  | dead

/-- A reader: where it is, the number of its swap among all swaps, and the number of the latest
write whose callback had run by then. -/
structure Reader (View : Type) where
  phase : Phase View
  since : Nat
  due : Nat

/-- The reader has taken the flag and has not stored its view yet. -/
def Reader.Rebuilding {View : Type} (reader : Reader View) : Prop :=
  match reader.phase with
  | .waiting | .locked | .compiled _ _ => True
  | _ => False

/-- The state: the writes so far, the number of the latest one whose callback has run, the flag,
the holder of the lock, the stored view with the number of writes in it, the number of swaps, and
the readers. -/
structure State (Id Write View : Type) where
  writes : List Write
  told : Nat
  dirty : Bool
  lock : Option Id
  view : View
  version : Nat
  swaps : Nat
  readers : Id → Option (Reader View)

inductive Step (Id Write Context : Type) where
  | commit (write : Write)
  | callback (position : Nat)
  | swap (id : Id)
  | acquire (id : Id)
  | compile (id : Id) (context : Context)
  | publish (id : Id)
  | unlock (id : Id)
  | mark (id : Id)
  | load (id : Id)

variable {Id Source Write View Context : Type} [DecidableEq Id]

/-- The source with the first writes of a list. -/
def Scheme.sourceAt (scheme : Scheme Source Write View Context) (writes : List Write)
    (version : Nat) : Source :=
  (writes.take version).foldl scheme.apply scheme.initial

namespace State

def start (view : View) : State Id Write View where
  writes := []
  told := 0
  dirty := false
  lock := none
  view := view
  version := 0
  swaps := 0
  readers _ := none

/-- Moves a reader to a phase. -/
def move (state : State Id Write View) (id : Id) (reader : Reader View) (phase : Phase View) :
    State Id Write View :=
  { state with readers := Function.update state.readers id (some { reader with phase := phase }) }

@[simp] theorem move_self (state : State Id Write View) (id : Id) (reader : Reader View)
    (phase : Phase View) :
    (state.move id reader phase).readers id = some { reader with phase := phase } :=
  Function.update_self _ _ _

theorem move_of_ne (state : State Id Write View) (id : Id) (reader : Reader View)
    (phase : Phase View) {other : Id} (different : other ≠ id) :
    (state.move id reader phase).readers other = state.readers other :=
  Function.update_of_ne different _ _

/-- The flag is lowered by the swap of a reader and raised again by one whose compilation has
failed. A panic releases the lock and ends the reader. -/
def step (scheme : Scheme Source Write View Context) (state : State Id Write View) :
    Step Id Write Context → Option (State Id Write View)
  | .commit write => some { state with writes := state.writes ++ [write] }
  | .callback position =>
    match state.writes[position]? with
    | none => none
    | some write =>
      if scheme.watched (scheme.sourceAt state.writes position) write then
        some { state with told := max state.told (position + 1), dirty := true }
      else none
  | .swap id =>
    match state.readers id with
    | some _ => none
    | none => some { state.move id ⟨.loading, state.swaps, state.told⟩
        (if state.dirty then .waiting else .loading) with
        dirty := false
        swaps := state.swaps + 1 }
  | .acquire id =>
    match state.readers id, state.lock with
    | some ⟨.waiting, since, due⟩, none =>
      some { state.move id ⟨.waiting, since, due⟩ .locked with lock := some id }
    | _, _ => none
  | .compile id context =>
    match state.readers id with
    | some ⟨.locked, since, due⟩ =>
      match scheme.compile context (scheme.sourceAt state.writes state.writes.length) with
      | .view view =>
        some (state.move id ⟨.locked, since, due⟩ (.compiled view state.writes.length))
      | .failed => some (state.move id ⟨.locked, since, due⟩ .failed)
      | .panicked => some { state.move id ⟨.locked, since, due⟩ .dead with lock := none }
    | _ => none
  | .publish id =>
    match state.readers id with
    | some ⟨.compiled view version, since, due⟩ =>
      some { state.move id ⟨.compiled view version, since, due⟩ .published with
        view := view
        version := version }
    | _ => none
  | .unlock id =>
    match state.readers id with
    | some ⟨.published, since, due⟩ =>
      some { state.move id ⟨.published, since, due⟩ .loading with lock := none }
    | some ⟨.failed, since, due⟩ =>
      some { state.move id ⟨.failed, since, due⟩ .retrying with lock := none }
    | _ => none
  | .mark id =>
    match state.readers id with
    | some ⟨.retrying, since, due⟩ =>
      some { state.move id ⟨.retrying, since, due⟩ .loading with dirty := true }
    | _ => none
  | .load id =>
    match state.readers id with
    | some ⟨.loading, since, due⟩ =>
      some (state.move id ⟨.loading, since, due⟩ (.done state.view))
    | _ => none

/-- The step compiles a view if it compiles at all. -/
def Clean (scheme : Scheme Source Write View Context) (state : State Id Write View) :
    Step Id Write Context → Prop
  | .compile _ context =>
    ∃ view, scheme.compile context (scheme.sourceAt state.writes state.writes.length) = .view view
  | _ => True

/-- The states reached from a compiled view by clean steps. -/
inductive Reached (scheme : Scheme Source Write View Context) : State Id Write View → Prop
  | start {context : Context} {view : View}
      (compiled : scheme.compile context scheme.initial = .view view) :
      Reached scheme (State.start view)
  | step {state next : State Id Write View} (taken : Step Id Write Context)
      (reached : Reached scheme state) (clean : state.Clean scheme taken)
      (stepped : state.step scheme taken = some next) : Reached scheme next

end State

/-! ### What a write number is covered by -/

/-- The view that the reader will store has the first writes up to a number in it. -/
def Reader.Carries (reader : Reader View) (number : Nat) : Prop :=
  match reader.phase with
  | .waiting | .locked => True
  | .compiled _ version => number ≤ version
  | _ => False

theorem Reader.Carries.rebuilding {reader : Reader View} {number : Nat}
    (carries : reader.Carries number) : reader.Rebuilding := by
  obtain ⟨phase, since, due⟩ := reader
  cases phase with
  | waiting => trivial
  | locked => trivial
  | compiled view version => trivial
  | published => exact carries
  | failed => exact carries
  | retrying => exact carries
  | loading => exact carries
  | done view => exact carries
  | dead => exact carries

namespace State

/-- The stored view has the writes up to a number in it, or a reader from before a swap will store
one that has. -/
def Covers (state : State Id Write View) (number since : Nat) : Prop :=
  number ≤ state.version ∨
    ∃ id reader, state.readers id = some reader ∧ reader.since < since ∧ reader.Carries number

omit [DecidableEq Id] in
theorem Covers.kept {state next : State Id Write View} {number since : Nat}
    (covers : state.Covers number since) (later : state.version ≤ next.version)
    (carried : ∀ id reader, state.readers id = some reader → reader.Carries number →
      number ≤ next.version ∨
        ∃ moved, next.readers id = some moved ∧ moved.since = reader.since ∧
          moved.Carries number) :
    next.Covers number since := by
  rcases covers with stored | ⟨id, reader, found, before, carries⟩
  · exact Or.inl (stored.trans later)
  · rcases carried id reader found carries with stored | ⟨moved, isMoved, same, still⟩
    · exact Or.inl stored
    · exact Or.inr ⟨id, moved, isMoved, same ▸ before, still⟩

omit [DecidableEq Id] in
theorem Covers.of_readers {state next : State Id Write View} {number since : Nat}
    (covers : state.Covers number since) (later : state.version ≤ next.version)
    (same : next.readers = state.readers) : next.Covers number since :=
  covers.kept later fun _ reader found carries => Or.inr ⟨reader, same ▸ found, rfl, carries⟩

/-- Moving one reader keeps what is covered when the reader goes on to carry it, or what it
carried is stored. -/
theorem Covers.of_move {state next : State Id Write View} {number since : Nat}
    (covers : state.Covers number since) (later : state.version ≤ next.version) (id : Id)
    (reader : Reader View) (phase : Phase View) (found : state.readers id = some reader)
    (same : next.readers = (state.move id reader phase).readers)
    (carried : reader.Carries number → number ≤ next.version ∨
      ({ reader with phase := phase } : Reader View).Carries number) :
    next.Covers number since := by
  refine covers.kept later fun other otherReader otherFound carries => ?_
  rw [same]
  by_cases isMoved : other = id
  · subst isMoved
    obtain rfl := Option.some.inj (found.symm.trans otherFound)
    rcases carried carries with stored | still
    · exact Or.inl stored
    · exact Or.inr ⟨_, move_self state other reader phase, rfl, still⟩
  · rw [move_of_ne state id reader phase isMoved]
    exact Or.inr ⟨otherReader, otherFound, rfl, carries⟩

/-! ### What holds in every reached state -/

/-- What the place of a reader says: it holds the lock from taking it to releasing it, a view it
has compiled is not older than the stored one, and when it goes on to load, the writes due to it
are covered by readers that swapped before it. -/
def Place (scheme : Scheme Source Write View Context) (state : State Id Write View) (id : Id)
    (reader : Reader View) : Prop :=
  match reader.phase with
  | .waiting => True
  | .locked => state.lock = some id
  | .compiled view version =>
    state.lock = some id ∧ state.version ≤ version ∧ version ≤ state.writes.length ∧
      reader.due ≤ version ∧
      ∃ context, scheme.compile context (scheme.sourceAt state.writes version) = .view view
  | .published => state.lock = some id ∧ reader.due ≤ state.version
  | .loading => state.Covers reader.due reader.since
  | .done _ => True
  | .failed | .retrying | .dead => False

structure ReaderSound (scheme : Scheme Source Write View Context) (state : State Id Write View)
    (id : Id) (reader : Reader View) : Prop where
  since : reader.since < state.swaps
  due : reader.due ≤ state.told
  place : state.Place scheme id reader

structure Sound (scheme : Scheme Source Write View Context) (state : State Id Write View) :
    Prop where
  told : state.told ≤ state.writes.length
  version : state.version ≤ state.writes.length
  compiled : ∃ context,
    scheme.compile context (scheme.sourceAt state.writes state.version) = .view state.view
  flag : state.dirty = true ∨ state.Covers state.told state.swaps
  readers : ∀ id reader, state.readers id = some reader → state.ReaderSound scheme id reader

/-- What no step takes back. -/
structure Advances (state next : State Id Write View) : Prop where
  writes : state.writes <+: next.writes
  told : state.told ≤ next.told
  swaps : state.swaps ≤ next.swaps
  version : state.version ≤ next.version
  covers : ∀ number since, number ≤ state.told → state.Covers number since →
    next.Covers number since

variable {scheme : Scheme Source Write View Context} {state next : State Id Write View}

omit [DecidableEq Id] in
theorem sourceAt_of_front {first second : List Write} (front : first <+: second) (version : Nat)
    (within : version ≤ first.length) :
    scheme.sourceAt second version = scheme.sourceAt first version := by
  obtain ⟨rest, rfl⟩ := front
  rw [Scheme.sourceAt, Scheme.sourceAt, List.take_append_of_le_length within]

omit [DecidableEq Id] in
/-- A reader that does not move stays sound when it keeps the lock it holds, and the stored view
with it. -/
theorem ReaderSound.kept (advances : state.Advances next) {id : Id} {reader : Reader View}
    (sound : state.ReaderSound scheme id reader)
    (lock : state.lock = some id → next.lock = some id ∧ next.version = state.version) :
    next.ReaderSound scheme id reader := by
  obtain ⟨since, due, place⟩ := sound
  refine ⟨since.trans_le advances.swaps, due.trans advances.told, ?_⟩
  obtain ⟨phase, swapped, announced⟩ := reader
  cases phase with
  | waiting => trivial
  | locked => exact (lock place).1
  | compiled view version =>
    obtain ⟨holds, newer, within, covered, context, compiled⟩ := place
    obtain ⟨stillHolds, same⟩ := lock holds
    refine ⟨stillHolds, same ▸ newer, within.trans advances.writes.length_le, covered, context, ?_⟩
    rw [sourceAt_of_front advances.writes version within]
    exact compiled
  | published =>
    obtain ⟨holds, covered⟩ := place
    exact ⟨(lock holds).1, covered.trans advances.version⟩
  | loading => exact advances.covers announced swapped due place
  | done view => trivial
  | failed => exact place
  | retrying => exact place
  | dead => exact place

/-- A step that moves one reader, and at most stores a newer view. -/
theorem Advances.of_move (sameWrites : next.writes = state.writes)
    (sameTold : next.told = state.told) (sameSwaps : next.swaps = state.swaps)
    (later : state.version ≤ next.version) (id : Id) (reader : Reader View) (phase : Phase View)
    (found : state.readers id = some reader)
    (readers : next.readers = (state.move id reader phase).readers)
    (carried : ∀ number, number ≤ state.told → reader.Carries number →
      number ≤ next.version ∨ ({ reader with phase := phase } : Reader View).Carries number) :
    state.Advances next where
  writes := sameWrites ▸ List.prefix_rfl
  told := sameTold.ge
  swaps := sameSwaps.ge
  version := later
  covers number _ known covers :=
    covers.of_move later id reader phase found readers (carried number known)

/-- A step that moves one reader and leaves the writes, the flag and the announced writes as they
are. -/
theorem Sound.moved (sound : state.Sound scheme)
    (sameWrites : next.writes = state.writes) (sameTold : next.told = state.told)
    (sameDirty : next.dirty = state.dirty) (sameSwaps : next.swaps = state.swaps)
    (later : state.version ≤ next.version) (version : next.version ≤ state.writes.length)
    (compiled : ∃ context,
      scheme.compile context (scheme.sourceAt state.writes next.version) = .view next.view)
    (id : Id) (reader : Reader View) (phase : Phase View)
    (found : state.readers id = some reader)
    (readers : next.readers = (state.move id reader phase).readers)
    (carried : ∀ number, number ≤ state.told → reader.Carries number →
      number ≤ next.version ∨ ({ reader with phase := phase } : Reader View).Carries number)
    (place : next.Place scheme id { reader with phase := phase })
    (others : ∀ other, other ≠ id → state.lock = some other →
      next.lock = some other ∧ next.version = state.version) :
    next.Sound scheme := by
  have advances : state.Advances next :=
    .of_move sameWrites sameTold sameSwaps later id reader phase found readers carried
  refine
    { told := ?_
      version := ?_
      compiled := ?_
      flag := ?_
      readers := ?_ }
  · rw [sameTold, sameWrites]
    exact sound.told
  · rw [sameWrites]
    exact version
  · rw [sameWrites]
    exact compiled
  · rw [sameDirty, sameTold, sameSwaps]
    exact sound.flag.imp_right (advances.covers _ _ le_rfl)
  · intro other otherReader isReader
    rw [readers] at isReader
    by_cases same : other = id
    · subst same
      rw [move_self] at isReader
      obtain rfl := Option.some.inj isReader
      have before := sound.readers other reader found
      exact ⟨before.since.trans_le advances.swaps, before.due.trans advances.told, place⟩
    · rw [move_of_ne state id reader phase same] at isReader
      exact (sound.readers other otherReader isReader).kept advances (others other same)

/-! ### Steps -/

omit [DecidableEq Id] in
theorem sound_start {context : Context} {view : View}
    (compiled : scheme.compile context scheme.initial = .view view) :
    (State.start view : State Id Write View).Sound scheme where
  told := le_rfl
  version := le_rfl
  compiled := ⟨context, compiled⟩
  flag := Or.inr (Or.inl le_rfl)
  readers _ _ found := nomatch found

omit [DecidableEq Id] in
theorem sound_commit (sound : state.Sound scheme) (write : Write) :
    Sound scheme { state with writes := state.writes ++ [write] } := by
  have front : state.writes <+: state.writes ++ [write] := List.prefix_append _ _
  have advances : state.Advances { state with writes := state.writes ++ [write] } :=
    { writes := front
      told := le_rfl
      swaps := le_rfl
      version := le_rfl
      covers := fun _ _ _ covers => covers.of_readers le_rfl rfl }
  refine
    { told := sound.told.trans front.length_le
      version := sound.version.trans front.length_le
      compiled := ?_
      flag := sound.flag.imp_right (advances.covers _ _ le_rfl)
      readers := fun id reader found =>
        (sound.readers id reader found).kept advances fun holds => ⟨holds, rfl⟩ }
  obtain ⟨context, compiled⟩ := sound.compiled
  refine ⟨context, ?_⟩
  show scheme.compile context (scheme.sourceAt (state.writes ++ [write]) state.version) = _
  rw [sourceAt_of_front front state.version sound.version]
  exact compiled

omit [DecidableEq Id] in
theorem sound_callback (sound : state.Sound scheme) (position : Nat)
    (within : position < state.writes.length) :
    Sound scheme { state with told := max state.told (position + 1), dirty := true } := by
  have advances : state.Advances
      { state with told := max state.told (position + 1), dirty := true } :=
    { writes := List.prefix_rfl
      told := le_max_left _ _
      swaps := le_rfl
      version := le_rfl
      covers := fun _ _ _ covers => covers.of_readers le_rfl rfl }
  exact
    { told := max_le sound.told within
      version := sound.version
      compiled := sound.compiled
      flag := Or.inl rfl
      readers := fun id reader found =>
        (sound.readers id reader found).kept advances fun holds => ⟨holds, rfl⟩ }

/-- A swap. When it finds the flag lowered, the announced writes are covered by readers that swapped
before. -/
theorem sound_swap (sound : state.Sound scheme) (id : Id) (absent : state.readers id = none) :
    Sound scheme { state.move id ⟨.loading, state.swaps, state.told⟩
        (if state.dirty then .waiting else .loading) with
      dirty := false
      swaps := state.swaps + 1 } := by
  generalize isPhase : (if state.dirty then Phase.waiting else Phase.loading : Phase View) = phase
  have others (other : Id) (reader : Reader View) (found : state.readers other = some reader) :
      (state.move id ⟨.loading, state.swaps, state.told⟩ phase).readers other = some reader := by
    have different : other ≠ id := by
      intro same
      rw [same, absent] at found
      cases found
    rw [move_of_ne state id _ phase different]
    exact found
  have advances : state.Advances { state.move id ⟨.loading, state.swaps, state.told⟩ phase with
      dirty := false
      swaps := state.swaps + 1 } :=
    { writes := List.prefix_rfl
      told := le_rfl
      swaps := Nat.le_succ _
      version := le_rfl
      covers := fun number since _ covers => covers.kept le_rfl fun other reader found carries =>
        Or.inr ⟨reader, others other reader found, rfl, carries⟩ }
  have found := move_self state id ⟨.loading, state.swaps, state.told⟩ phase
  refine
    { told := sound.told
      version := sound.version
      compiled := sound.compiled
      flag := Or.inr ?_
      readers := fun other reader isReader => ?_ }
  · by_cases dirty : state.dirty = true
    · rw [if_pos dirty] at isPhase
      subst isPhase
      exact Or.inr ⟨id, _, found, Nat.lt_succ_self _, trivial⟩
    · rcases sound.flag.resolve_left dirty with stored | ⟨other, reader, isReader, before, carries⟩
      · exact Or.inl stored
      · exact Or.inr
          ⟨other, reader, others other reader isReader, Nat.lt_succ_of_lt before, carries⟩
  · by_cases same : other = id
    · subst same
      obtain rfl := Option.some.inj (found.symm.trans isReader)
      refine ⟨Nat.lt_succ_self _, le_rfl, ?_⟩
      by_cases dirty : state.dirty = true
      · rw [if_pos dirty] at isPhase
        subst isPhase
        trivial
      · rw [if_neg dirty] at isPhase
        subst isPhase
        exact advances.covers _ _ le_rfl (sound.flag.resolve_left dirty)
    · have isOther : state.readers other = some reader :=
        (move_of_ne state id _ phase same).symm.trans isReader
      exact (sound.readers other reader isOther).kept advances fun holds => ⟨holds, rfl⟩

theorem sound_acquire (sound : state.Sound scheme) (id : Id) (since due : Nat)
    (found : state.readers id = some ⟨.waiting, since, due⟩) (free : state.lock = none) :
    Sound scheme { state.move id ⟨.waiting, since, due⟩ .locked with lock := some id } := by
  refine sound.moved rfl rfl rfl rfl le_rfl sound.version sound.compiled id _ .locked found rfl
    (fun _ _ _ => Or.inr trivial) rfl fun other _ holds => ?_
  rw [free] at holds
  cases holds

theorem sound_compile (sound : state.Sound scheme) (id : Id) (since due : Nat) (context : Context)
    (view : View) (found : state.readers id = some ⟨.locked, since, due⟩)
    (compiled : scheme.compile context (scheme.sourceAt state.writes state.writes.length) =
      .view view) :
    Sound scheme (state.move id ⟨.locked, since, due⟩ (.compiled view state.writes.length)) := by
  obtain ⟨_, announced, holds⟩ := sound.readers id _ found
  refine sound.moved rfl rfl rfl rfl le_rfl sound.version sound.compiled id _ _ found rfl
    (fun _ known _ => Or.inr (known.trans sound.told)) ?_ fun _ _ holds => ⟨holds, rfl⟩
  exact ⟨holds, sound.version, le_rfl, announced.trans sound.told, context, compiled⟩

theorem sound_publish (sound : state.Sound scheme) (id : Id) (since due : Nat) (view : View)
    (version : Nat) (found : state.readers id = some ⟨.compiled view version, since, due⟩) :
    Sound scheme { state.move id ⟨.compiled view version, since, due⟩ .published with
      view := view
      version := version } := by
  obtain ⟨_, _, holds, newer, within, covered, compiled⟩ := sound.readers id _ found
  refine sound.moved rfl rfl rfl rfl newer within compiled id _ .published found rfl
    (fun _ _ carries => Or.inl carries) ⟨holds, covered⟩ fun other different otherHolds => ?_
  exact absurd (Option.some.inj (otherHolds.symm.trans holds)) different

theorem sound_unlock (sound : state.Sound scheme) (id : Id) (since due : Nat)
    (found : state.readers id = some ⟨.published, since, due⟩) :
    Sound scheme { state.move id ⟨.published, since, due⟩ .loading with lock := none } := by
  obtain ⟨_, _, holds, covered⟩ := sound.readers id _ found
  refine sound.moved rfl rfl rfl rfl le_rfl sound.version sound.compiled id _ .loading found rfl
    (fun _ _ carries => (nomatch carries)) (Or.inl covered) fun other different otherHolds => ?_
  exact absurd (Option.some.inj (otherHolds.symm.trans holds)) different

theorem sound_load (sound : state.Sound scheme) (id : Id) (since due : Nat)
    (found : state.readers id = some ⟨.loading, since, due⟩) :
    Sound scheme (state.move id ⟨.loading, since, due⟩ (.done state.view)) := by
  exact sound.moved rfl rfl rfl rfl le_rfl sound.version sound.compiled id _ _ found rfl
    (fun _ _ carries => (nomatch carries)) trivial fun _ _ holds => ⟨holds, rfl⟩

/-- A clean step keeps a state sound. -/
theorem sound_step (sound : state.Sound scheme) (taken : Step Id Write Context)
    (clean : state.Clean scheme taken) (stepped : state.step scheme taken = some next) :
    next.Sound scheme := by
  cases taken with
  | commit write =>
    rw [← Option.some.inj stepped]
    exact sound_commit sound write
  | callback position =>
    simp only [step] at stepped
    split at stepped
    · cases stepped
    · rename_i write isWrite
      split at stepped
      · rw [← Option.some.inj stepped]
        exact sound_callback sound position (List.getElem?_eq_some_iff.mp isWrite).1
      · cases stepped
  | swap id =>
    simp only [step] at stepped
    split at stepped
    · cases stepped
    · rename_i absent
      rw [← Option.some.inj stepped]
      exact sound_swap sound id absent
  | acquire id =>
    simp only [step] at stepped
    split at stepped
    · rename_i since due found free
      rw [← Option.some.inj stepped]
      exact sound_acquire sound id since due found free
    · cases stepped
  | compile id context =>
    obtain ⟨view, compiled⟩ := clean
    simp only [step] at stepped
    split at stepped
    · rename_i since due found
      rw [compiled] at stepped
      rw [← Option.some.inj stepped]
      exact sound_compile sound id since due context view found compiled
    · cases stepped
  | publish id =>
    simp only [step] at stepped
    split at stepped
    · rename_i view version since due found
      rw [← Option.some.inj stepped]
      exact sound_publish sound id since due view version found
    · cases stepped
  | unlock id =>
    simp only [step] at stepped
    split at stepped
    · rename_i since due found
      rw [← Option.some.inj stepped]
      exact sound_unlock sound id since due found
    · rename_i since due found
      exact ((sound.readers id _ found).place).elim
    · cases stepped
  | mark id =>
    simp only [step] at stepped
    split at stepped
    · rename_i since due found
      exact ((sound.readers id _ found).place).elim
    · cases stepped
  | load id =>
    simp only [step] at stepped
    split at stepped
    · rename_i since due found
      rw [← Option.some.inj stepped]
      exact sound_load sound id since due found
    · cases stepped

theorem sound_of_reached (reached : Reached scheme state) : state.Sound scheme := by
  induction reached with
  | start compiled => exact sound_start compiled
  | step taken _ clean stepped inductionHypothesis =>
    exact sound_step inductionHypothesis taken clean stepped

/-- What a reader loads is compiled from the source with the writes due to it, when every reader
that is still rebuilding swapped after it. -/
theorem load_covers (reached : Reached scheme state) (id : Id) (since due : Nat)
    (found : state.readers id = some ⟨.loading, since, due⟩)
    (settled : ∀ other reader, state.readers other = some reader → reader.Rebuilding →
      since < reader.since) :
    ∃ version context, due ≤ version ∧ version ≤ state.writes.length ∧
      scheme.compile context (scheme.sourceAt state.writes version) = .view state.view := by
  have sound := sound_of_reached reached
  obtain ⟨context, compiled⟩ := sound.compiled
  refine ⟨state.version, context, ?_, sound.version, compiled⟩
  rcases (sound.readers id _ found).place with stored | ⟨other, reader, isReader, before, carries⟩
  · exact stored
  · exact absurd (settled other reader isReader carries.rebuilding) (Nat.lt_asymm before)

/-! ### Between requests -/

omit [DecidableEq Id] in
/-- When the flag is lowered and no reader is rebuilding, the stored view has every announced write
in it. -/
theorem told_le_version (sound : state.Sound scheme) (lowered : ¬ state.dirty = true)
    (idle : ∀ id reader, state.readers id = some reader → ¬ reader.Rebuilding) :
    state.told ≤ state.version := by
  rcases sound.flag.resolve_left lowered with stored | ⟨id, reader, found, _, carries⟩
  · exact stored
  · exact absurd carries.rebuilding (idle id reader found)

end State

/-- An observation that the writes from a number on leave alone is that of the source with the
first writes up to the number. -/
theorem Scheme.observe_sourceAt {Observation : Type} (scheme : Scheme Source Write View Context)
    (observe : Source → Observation) (writes : List Write) (number : Nat)
    (kept : ∀ position write, number ≤ position → writes[position]? = some write →
      observe (scheme.apply (scheme.sourceAt writes position) write) =
        observe (scheme.sourceAt writes position)) (version : Nat) (later : number ≤ version) :
    observe (scheme.sourceAt writes version) = observe (scheme.sourceAt writes number) := by
  induction version, later using Nat.le_induction with
  | base => rfl
  | succ version later inductionHypothesis =>
    rw [← inductionHypothesis, Scheme.sourceAt, List.take_add_one, List.foldl_append]
    cases written : writes[version]? with
    | none => rfl
    | some write => exact kept version write later written

/-- The scheme in which a view is compiled in allowed circumstances only. -/
def Scheme.restrict (scheme : Scheme Source Write View Context) (Allowed : Context → Prop) :
    Scheme Source Write View {context // Allowed context} where
  initial := scheme.initial
  apply := scheme.apply
  watched := scheme.watched
  compile context := scheme.compile context.1

end DirtyFlag
