/-
This file is the goroutines behind `AdminService.backup`: one runs `Storage.Backup`
into a pipe and one forwards what it reads from the pipe. They are a system whose
parts move in any order, with every place where a goroutine waits, and with a client
that takes the frames and may be gone at any time.

The forwarder never closes the reading end of the pipe. As long as the client stays,
nothing depends on this: it receives the frames of the plain loop over the writes, in
every order of steps. When the forwarder gives up, the other goroutine waits in its
next write forever.
-/

import ConsensusDB.BackupStream
import ConsensusDB.Lib.Pipe
import ConsensusDB.Lib.Schedules

namespace ConsensusDB

open Wire Stream Backup Schedules

namespace AdminService

/-! ### The goroutines -/

/-- The goroutine that runs `Storage.Backup`: it makes its writes, it has closed the pipe, or it has
published the version and returned. -/
inductive Producer where
  | writing
  | closed
  | returned
  deriving DecidableEq

/-- The goroutine that forwards: it reads from the pipe, sends a chunk, waits for the version, sends
the final frame, or has returned. -/
inductive Forwarder where
  | reading
  | sending (chunk : Bytes)
  | awaiting
  | sendingDone
  | returned
  deriving DecidableEq

/-- A backup under way: both goroutines and the pipe between them, whether the context of the
request is done, and the frames the client has received. -/
structure BackupState where
  feed : Feed Err
  producer : Producer := .writing
  forwarder : Forwarder := .reading
  cancelled : Bool := false
  delivered : List BackupFrame := []

namespace BackupState

def start (run : BackupRun) : BackupState := { feed := { writes := run.writes } }

/-- The steps. The producer writes, closes the pipe with the error of the backup, which is the end
of the file without one, and publishes the version; the forwarder reads, waits for the version, and
gives up a frame when the context is done; the client receives a frame or is gone. -/
inductive Step (run : BackupRun) (state : BackupState) : BackupState → Prop
  | write (feed : Feed Err) (writing : state.producer = .writing)
      (wrote : Feed.Write state.feed feed) : Step run state { state with feed := feed }
  | close (writing : state.producer = .writing) (drained : state.feed.Drained) :
      Step run state { state with feed.closed := some (run.err.getD eof), producer := .closed }
  | publish (closed : state.producer = .closed) :
      Step run state { state with producer := .returned }
  | read (chunk : Bytes) (feed : Feed Err) (reading : state.forwarder = .reading)
      (taken : state.feed.read backupChunk = some (chunk, feed)) :
      Step run state { state with
        feed := feed, forwarder := if chunk = [] then .reading else .sending chunk }
  | readEnd (err : Err) (reading : state.forwarder = .reading)
      (idle : state.feed.waiting = none) (ended : state.feed.closed = some err) :
      Step run state { state with forwarder := if err = eof then .awaiting else .returned }
  | await (awaiting : state.forwarder = .awaiting) (published : state.producer = .returned) :
      Step run state { state with forwarder := .sendingDone }
  | receive (chunk : Bytes) (sending : state.forwarder = .sending chunk) :
      Step run state { state with
        forwarder := .reading, delivered := state.delivered ++ [.data chunk] }
  | receiveDone (sending : state.forwarder = .sendingDone) :
      Step run state { state with
        forwarder := .returned, delivered := state.delivered ++ [.done run.version] }
  | quit (gone : state.cancelled = true)
      (sending : (∃ chunk, state.forwarder = .sending chunk) ∨ state.forwarder = .sendingDone) :
      Step run state { state with forwarder := .returned }
  | cancel (going : state.cancelled = false) : Step run state { state with cancelled := true }

variable {run : BackupRun} {state next : BackupState}

/-- The final frame, which is sent when the reader sees the end of the file. -/
def finalFrame (run : BackupRun) : List BackupFrame :=
  if run.err.getD eof = eof then [.done run.version] else []

theorem backupFrames_eq (run : BackupRun) : backupFrames run =
    (run.writes.flatMap (cut backupChunk)).map .data ++ finalFrame run := by
  cases ended : run.err with
  | none => rw [backupFrames, finalFrame, ended, if_pos (Or.inl rfl), Option.getD_none, if_pos rfl]
  | some err =>
    rw [backupFrames, finalFrame, ended, Option.getD_some]
    simp only [reduceCtorEq, false_or, Option.some.injEq]

/-- The frames that are still to be delivered, if no frame is given up. -/
def pending (run : BackupRun) (state : BackupState) : List BackupFrame :=
  match state.forwarder with
  | .reading => (state.feed.pieces backupChunk).map .data ++ finalFrame run
  | .sending chunk => .data chunk :: ((state.feed.pieces backupChunk).map .data ++ finalFrame run)
  | .awaiting => [.done run.version]
  | .sendingDone => [.done run.version]
  | .returned => []

/-- The forwarder has seen the end of the pipe. -/
def Passed (state : BackupState) : Prop :=
  state.forwarder = .awaiting ∨ state.forwarder = .sendingDone ∨
    (state.forwarder = .returned ∧ state.cancelled = false)

/-- How the parts of a backup stand to each other. The producer closes the pipe once its writes have
been read, and only then does the forwarder see the end; what was delivered and what is pending are
the frames of the backup, unless the forwarder has given up. -/
structure Consistent (run : BackupRun) (state : BackupState) : Prop where
  isOpen : state.producer = .writing → state.feed.closed = none
  isClosed : state.producer ≠ .writing →
    state.feed.Drained ∧ state.feed.closed = some (run.err.getD eof)
  passed : Passed state → state.producer ≠ .writing
  delivers : state.delivered ++ pending run state = backupFrames run ∨
    (state.forwarder = .returned ∧ state.cancelled = true ∧
      state.delivered <+: backupFrames run)

theorem start_consistent (run : BackupRun) : Consistent run (start run) where
  isOpen _ := rfl
  isClosed stopped := absurd rfl stopped
  passed := by
    rintro (impossible | impossible | ⟨impossible, _⟩)
    all_goals cases impossible
  delivers := Or.inl (backupFrames_eq run).symm

theorem Consistent.front (consistent : Consistent run state) :
    state.delivered <+: backupFrames run := by
  rcases consistent.delivers with whole | ⟨_, _, front⟩
  · exact ⟨_, whole⟩
  · exact front

/-- A closed pipe was closed by the producer. -/
theorem Consistent.ended (consistent : Consistent run state) {err : Err}
    (ended : state.feed.closed = some err) :
    state.producer ≠ .writing ∧ err = run.err.getD eof := by
  have stopped : state.producer ≠ .writing := by
    intro writing
    rw [consistent.isOpen writing] at ended
    cases ended
  exact ⟨stopped, Option.some.inj (ended.symm.trans (consistent.isClosed stopped).2)⟩

/-- A forwarder that still has something to do has not given up. -/
theorem Consistent.whole (consistent : Consistent run state)
    (active : state.forwarder ≠ .returned) :
    state.delivered ++ pending run state = backupFrames run := by
  rcases consistent.delivers with whole | ⟨returned, _⟩
  · exact whole
  · exact absurd returned active

theorem Consistent.kept (consistent : Consistent run state) (stepped : Step run state next) :
    Consistent run next := by
  cases stepped with
  | write feed writing wrote =>
    refine ⟨fun _ => (Feed.closed_of_write wrote).trans (consistent.isOpen writing),
      fun stopped => absurd writing stopped, consistent.passed, ?_⟩
    simp only [pending, Feed.pieces_write backupChunk wrote]
    exact consistent.delivers
  | close writing drained =>
    refine ⟨fun impossible => ?_, fun _ => ⟨drained, rfl⟩, fun _ impossible => ?_,
      consistent.delivers⟩
    · cases impossible
    · cases impossible
  | publish closed =>
    have stopped : state.producer ≠ .writing := by
      rw [closed]
      decide
    refine ⟨fun impossible => ?_, fun _ => consistent.isClosed stopped, fun _ impossible => ?_,
      consistent.delivers⟩
    · cases impossible
    · cases impossible
  | read chunk feed reading taken =>
    -- A read that takes something takes it from a write, so the producer is still writing.
    have writing : state.producer = .writing := by
      by_contra stopped
      rw [Feed.read_eq_none.mpr (consistent.isClosed stopped).1.1] at taken
      cases taken
    refine ⟨fun _ => (Feed.closed_of_read taken).trans (consistent.isOpen writing),
      fun stopped => absurd writing stopped, fun passed => ?_, Or.inl ?_⟩
    · exfalso
      unfold Passed at passed
      simp only at passed
      split at passed
      · rcases passed with impossible | impossible | ⟨impossible, _⟩
        all_goals cases impossible
      · rcases passed with impossible | impossible | ⟨impossible, _⟩
        all_goals cases impossible
    · have whole := consistent.whole (by rw [reading]; decide)
      rw [← whole]
      simp only [pending, reading, Feed.pieces_read (by decide : backupChunk ≠ 0) taken]
      by_cases empty : chunk = []
      · rw [if_pos empty, if_pos empty]
      · rw [if_neg empty, if_neg empty, List.map_cons, List.cons_append]
  | readEnd err reading idle ended =>
    obtain ⟨stopped, rfl⟩ := consistent.ended ended
    refine ⟨consistent.isOpen, consistent.isClosed, fun _ => stopped, Or.inl ?_⟩
    have whole := consistent.whole (by rw [reading]; decide)
    have nothing := Feed.pieces_of_drained backupChunk (consistent.isClosed stopped).1
    rw [← whole]
    simp only [pending, reading, nothing, List.map_nil, List.nil_append, finalFrame]
    by_cases isEof : run.err.getD eof = eof
    · rw [if_pos isEof, if_pos isEof]
    · rw [if_neg isEof, if_neg isEof]
  | await awaiting published =>
    refine ⟨consistent.isOpen, consistent.isClosed,
      fun _ => consistent.passed (Or.inl awaiting), Or.inl ?_⟩
    have whole := consistent.whole (by rw [awaiting]; decide)
    rw [← whole]
    simp only [pending, awaiting]
  | receive chunk sending =>
    refine ⟨consistent.isOpen, consistent.isClosed, ?_, Or.inl ?_⟩
    · rintro (impossible | impossible | ⟨impossible, _⟩)
      all_goals cases impossible
    · have whole := consistent.whole (by rw [sending]; exact fun impossible => by cases impossible)
      rw [← whole]
      simp only [pending, sending, List.append_assoc, List.singleton_append]
  | receiveDone sending =>
    refine ⟨consistent.isOpen, consistent.isClosed,
      fun _ => consistent.passed (Or.inr (Or.inl sending)), Or.inl ?_⟩
    have whole := consistent.whole (by rw [sending]; decide)
    rw [← whole]
    simp only [pending, sending, List.append_nil]
  | quit gone sending =>
    refine ⟨consistent.isOpen, consistent.isClosed, ?_, Or.inr ⟨rfl, gone, consistent.front⟩⟩
    rintro (impossible | impossible | ⟨_, going⟩)
    · cases impossible
    · cases impossible
    · cases gone.symm.trans going
  | cancel going =>
    refine ⟨consistent.isOpen, consistent.isClosed, ?_, ?_⟩
    · rintro (awaiting | sending | ⟨_, impossible⟩)
      · exact consistent.passed (Or.inl awaiting)
      · exact consistent.passed (Or.inr (Or.inl sending))
      · cases impossible
    · rcases consistent.delivers with whole | ⟨_, gone, _⟩
      · exact Or.inl whole
      · cases gone.symm.trans going

/-! ### How a backup ends -/

/-- What is left to do: the steps of the feed count twice, since each chunk is also sent. -/
def size (state : BackupState) : Nat :=
  2 * state.feed.size +
    (match state.producer with
      | .writing => 2
      | .closed => 1
      | .returned => 0) +
    (match state.forwarder with
      | .reading => 3
      | .sending _ => 4
      | .awaiting => 2
      | .sendingDone => 1
      | .returned => 0) +
    if state.cancelled then 0 else 1

theorem size_falls (stepped : Step run state next) : size next < size state := by
  cases stepped with
  | write feed writing wrote =>
    have lower := Feed.size_write wrote
    simp only [size]
    omega
  | close writing drained =>
    have same (closed : Option Err) : Feed.size { state.feed with closed := closed } =
      state.feed.size := rfl
    simp only [size, writing, same]
    omega
  | publish closed =>
    simp only [size, closed]
    omega
  | read chunk feed reading taken =>
    have lower := Feed.size_read (by decide : backupChunk ≠ 0) taken
    simp only [size, reading]
    by_cases empty : chunk = []
    · simp only [if_pos empty]
      omega
    · simp only [if_neg empty]
      omega
  | readEnd err reading idle ended =>
    simp only [size, reading]
    by_cases isEof : err = eof
    · simp only [if_pos isEof]
      omega
    · simp only [if_neg isEof]
      omega
  | await awaiting published =>
    simp only [size, awaiting]
    omega
  | receive chunk sending =>
    simp only [size, sending]
    omega
  | receiveDone sending =>
    simp only [size, sending]
    omega
  | quit gone sending =>
    rcases sending with ⟨chunk, sending⟩ | sending
    all_goals
      simp only [size, sending]
      omega
  | cancel going =>
    simp only [size, going]
    exact Nat.lt_succ_self _

/-- While the context is not done, something else can happen until both goroutines have
returned. -/
theorem over_of_stuck (consistent : Consistent run state) (going : state.cancelled = false)
    (stuck : ∀ next, Step run state next → next.cancelled = true) :
    state.producer = .returned ∧ state.forwarder = .returned := by
  have blocked {next : BackupState} (stepped : Step run state next)
      (same : next.cancelled = state.cancelled) : False := by
    cases (same.trans going).symm.trans (stuck next stepped)
  have stopped (passed : state.producer ≠ .writing) : state.producer = .returned := by
    cases producer : state.producer with
    | writing => exact absurd producer passed
    | closed => exact (blocked (.publish producer) rfl).elim
    | returned => rfl
  cases forwarder : state.forwarder with
  | reading =>
    exfalso
    cases taken : state.feed.read backupChunk with
    | some piece => exact blocked (.read piece.1 piece.2 forwarder taken) rfl
    | none =>
      have idle := Feed.read_eq_none.mp taken
      by_cases writing : state.producer = .writing
      · rcases Feed.drained_or_write idle with drained | ⟨feed, wrote⟩
        · exact blocked (.close writing drained) rfl
        · exact blocked (.write feed writing wrote) rfl
      · exact blocked (.readEnd _ forwarder idle (consistent.isClosed writing).2) rfl
  | sending chunk => exact (blocked (.receive chunk forwarder) rfl).elim
  | awaiting =>
    have returned := stopped (consistent.passed (Or.inl forwarder))
    exact (blocked (.await forwarder returned) rfl).elim
  | sendingDone => exact (blocked (.receiveDone forwarder) rfl).elim
  | returned => exact ⟨stopped (consistent.passed (Or.inr (Or.inr ⟨forwarder, going⟩))), rfl⟩

variable {length : Nat}

theorem reached (ran : Runs (Step run) length (start run) state) : Consistent run state :=
  ran.kept (fun _ _ => Consistent.kept) (start_consistent run)

/-- In whatever order the goroutines of a backup and its client move, the client has received a
front of the frames of the plain loop over the writes. No run is longer than the writes allow.
While the context is not done, the forwarder has returned only after all of the frames were
received, and a state in which nothing but the end of the context can happen is one in which both
goroutines have returned. -/
theorem backup_delivers (ran : Runs (Step run) length (start run) state) :
    state.delivered <+: backupFrames run ∧ length ≤ 2 * (start run).feed.size + 6 ∧
      (state.cancelled = false →
        (state.forwarder = .returned → state.delivered = backupFrames run) ∧
        ((∀ next, Step run state next → next.cancelled = true) →
          state.producer = .returned ∧ state.forwarder = .returned)) := by
  have consistent := reached ran
  refine ⟨consistent.front, ?_, fun going => ⟨fun returned => ?_, over_of_stuck consistent going⟩⟩
  · have bound := ran.length_le fun _ _ => size_falls
    exact (Nat.le_add_right _ _).trans bound
  · rcases consistent.delivers with whole | ⟨_, gone, _⟩
    · simp only [pending, returned, List.append_nil] at whole
      exact whole
    · cases gone.symm.trans going

/-- One write, which is delivered before the pipe is closed. -/
theorem backup_delivers_one_write :
    ∃ length state, Runs (Step ⟨[str "ab"], 7, none⟩) length (start ⟨[str "ab"], 7, none⟩) state ∧
      state.delivered = backupFrames ⟨[str "ab"], 7, none⟩ := by
  have ran : Runs (Step ⟨[str "ab"], 7, none⟩) 8 (start ⟨[str "ab"], 7, none⟩) _ :=
    .cons (.write _ rfl (.write (str "ab") [] rfl rfl)) <| .cons (.read _ _ rfl rfl) <|
    .cons (.receive (str "ab") rfl) <| .cons (.close rfl ⟨rfl, rfl⟩) <|
    .cons (.readEnd _ rfl rfl rfl) <| .cons (.publish rfl) <| .cons (.await rfl rfl) <|
    .cons (.receiveDone rfl) <| .nil _
  exact ⟨_, _, ran, ((backup_delivers ran).2.2 rfl).1 rfl⟩

/-! ### A producer that is left behind -/

/-- Once the forwarder has returned nothing reads from the pipe, so a producer with something left
to write never gets past it. -/
theorem stranded {final : BackupState} (ran : Runs (Step run) length state final)
    (left : state.forwarder = .returned ∧ state.producer = .writing ∧ ¬ state.feed.Drained) :
    final.producer = .writing := by
  have kept (state next : BackupState)
      (left : state.forwarder = .returned ∧ state.producer = .writing ∧ ¬ state.feed.Drained)
      (stepped : Step run state next) :
      next.forwarder = .returned ∧ next.producer = .writing ∧ ¬ next.feed.Drained := by
    obtain ⟨returned, writing, unread⟩ := left
    cases stepped with
    | write feed _ wrote => exact ⟨returned, writing, Feed.not_drained_of_write wrote⟩
    | close _ drained => exact absurd drained unread
    | publish closed => cases writing.symm.trans closed
    | read chunk feed reading taken => cases returned.symm.trans reading
    | readEnd err reading idle ended => cases returned.symm.trans reading
    | await awaiting published => cases returned.symm.trans awaiting
    | receive chunk sending => cases returned.symm.trans sending
    | receiveDone sending => cases returned.symm.trans sending
    | quit gone sending => exact ⟨rfl, writing, unread⟩
    | cancel going => exact ⟨returned, writing, unread⟩
  exact (ran.kept kept left).2.1

/-- A producer that has nothing left to write closes the pipe and publishes. -/
theorem exists_returned (drained : state.feed.Drained) :
    ∃ more final, Runs (Step run) more state final ∧ final.producer = .returned := by
  cases producer : state.producer with
  | writing =>
    exact ⟨2, _, .cons (.close producer drained) (.cons (.publish rfl) (.nil _)), rfl⟩
  | closed => exact ⟨1, _, .cons (.publish producer) (.nil _), rfl⟩
  | returned => exact ⟨0, state, .nil state, producer⟩

/-- After the forwarder has returned, the goroutine that runs `Storage.Backup` can still return
exactly when all of its writes have been read. Otherwise it waits forever, since the reading end is
never closed; this happens only where the context is done. -/
theorem backup_returns_iff_drained (ran : Runs (Step run) length (start run) state)
    (returned : state.forwarder = .returned) :
    ((∃ more final, Runs (Step run) more state final ∧ final.producer = .returned) ↔
        state.feed.Drained) ∧
      (state.cancelled = false → state.feed.Drained) := by
  have consistent := reached ran
  refine ⟨⟨fun ⟨more, final, ranOn, ended⟩ => ?_, exists_returned⟩, fun going => ?_⟩
  · by_contra unread
    by_cases writing : state.producer = .writing
    · cases (stranded ranOn ⟨returned, writing, unread⟩).symm.trans ended
    · exact unread (consistent.isClosed writing).1
  · exact (consistent.isClosed (consistent.passed (Or.inr (Or.inr ⟨returned, going⟩)))).1

/-- The client is gone while the first of two writes is being sent. -/
theorem backup_returns_iff_drained_abandoned :
    ∃ length state, Runs (Step ⟨[str "ab", str "c"], 7, none⟩) length
        (start ⟨[str "ab", str "c"], 7, none⟩) state ∧
      ¬ ∃ more final, Runs (Step ⟨[str "ab", str "c"], 7, none⟩) more state final ∧
        final.producer = .returned := by
  have ran : Runs (Step ⟨[str "ab", str "c"], 7, none⟩) 4
      (start ⟨[str "ab", str "c"], 7, none⟩) _ :=
    .cons (.write _ rfl (.write (str "ab") [str "c"] rfl rfl)) <| .cons (.read _ _ rfl rfl) <|
    .cons (.cancel rfl) <| .cons (.quit rfl (Or.inl ⟨str "ab", rfl⟩)) <| .nil _
  refine ⟨_, _, ran, fun ends => ?_⟩
  cases ((backup_returns_iff_drained ran rfl).1.mp ends).2

end BackupState

end AdminService

end ConsensusDB
