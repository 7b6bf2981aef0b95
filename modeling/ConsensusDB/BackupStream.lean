/-
This file is a backup over the admin stream: `AdminService.backup` on the node
and `Backup` of `pkg/backup/client.go` on the client. The node cuts what the
storage writes into data frames and ends with a frame that says so; the client
puts the data frames into a container at the destination.

The stream may stop anywhere. It ends early when the storage fails, which the
node only logs, and it is cut off when the connection is lost; in both cases the
client's channel simply closes. The client does not ask whether the last frame
it saw was the final one, so it closes the container, and with it seals what it
has as a whole dump.
-/

import ConsensusDB.Container
import ConsensusDB.Mediation

namespace ConsensusDB

open Wire Stream Iam

/-! ### The node -/

/-- One backup of the storage: the writes it makes, the version it reports and the error it ends
with. -/
structure BackupRun where
  writes : List Bytes
  version : UInt64
  err : Option Err

/-- A frame of the stream: a chunk of data, or the final frame with the version. -/
inductive BackupFrame where
  | data (bytes : Bytes)
  | done (version : UInt64)
  deriving DecidableEq

namespace AdminService

def backupChunk : Nat := 64 * 1024

/-- The check of an admin request, which is on the whole instance; there is none where
authorization is off. -/
def authorize (policy : Option Snapshot) (principal : Bytes) (permission : Permission) :
    Except Err Unit :=
  match policy with
  | none => .ok ()
  | some snapshot => PolicyService.authorize snapshot principal permission [] []

/-- The frames of a backup. Each write goes through a pipe and is read from it in chunks; the pipe
ends with the error of the backup, and the final frame is sent when the reader sees the end of the
file, which an error that says so looks like. -/
def backupFrames (run : BackupRun) : List BackupFrame :=
  (run.writes.flatMap (cut backupChunk)).map .data ++
    if run.err = none ∨ run.err = some Backup.eof then [.done run.version] else []

def backup (policy : Option Snapshot) (principal : Bytes) (run : BackupRun) :
    Except Err (List BackupFrame) :=
  match authorize policy principal .backupsCreate with
  | .error err => .error err
  | .ok _ => .ok (backupFrames run)

theorem frames_of_backup {policy : Option Snapshot} {principal : Bytes} {run : BackupRun}
    {sent : List BackupFrame} (served : backup policy principal run = .ok sent) :
    sent = backupFrames run := by
  unfold backup at served
  split at served
  · cases served
  · exact (Except.ok.inj served).symm

end AdminService

/-! ### The client -/

namespace Backup

/-- What surrounds a backup on the client: whether the destination opens, how it behaves, the
random bytes, and the stream, which yields frames until its channel closes. -/
structure Client where
  openSink : Option Err
  destination : Destination
  entropy : Entropy
  stream : Except Err (List BackupFrame)

section

variable (cipher : Cipher)

/-- The loop over the frames, until the channel closes or a write fails. -/
def backupLoop (destination : Destination) :
    Writer → Sink → UInt64 → List BackupFrame → Option Err × UInt64 × Writer × Sink
  | writer, sink, version, [] => (none, version, writer, sink)
  | writer, sink, _, .done version :: rest => backupLoop destination writer sink version rest
  | writer, sink, version, .data bytes :: rest =>
    match writer.write cipher destination sink bytes with
    | (some err, writer, sink) => (some err, version, writer, sink)
    | (none, writer, sink) => backupLoop destination writer sink version rest

/-- The version and the error that a backup returns, and what it leaves at the destination. -/
def backup (client : Client) (password : Bytes) : (UInt64 × Option Err) × Bytes :=
  match client.openSink with
  | some err => ((0, some err), [])
  | none =>
    match newWriter cipher client.destination client.entropy password {} with
    | (.error err, sink) => ((0, some err), sink.written)
    | (.ok writer, sink) =>
      match client.stream with
      | .error err =>
        ((0, some err), (writer.close cipher client.destination sink).2.2.written)
      | .ok frames =>
        let looped := backupLoop cipher client.destination writer sink 0 frames
        let closed := looped.2.2.1.close cipher client.destination looped.2.2.2
        ((looped.2.1, (looped.1.or closed.1).or client.destination.close), closed.2.2.written)

end

/-! ### What the client puts together -/

/-- The data of frames. -/
def dataOf : List BackupFrame → Bytes
  | [] => []
  | .done _ :: rest => dataOf rest
  | .data bytes :: rest => bytes ++ dataOf rest

theorem dataOf_append (first second : List BackupFrame) :
    dataOf (first ++ second) = dataOf first ++ dataOf second := by
  induction first with
  | nil => rfl
  | cons frame rest inductionHypothesis =>
    cases frame with
    | done version => exact inductionHypothesis
    | data bytes =>
      show bytes ++ dataOf (rest ++ second) = bytes ++ dataOf rest ++ dataOf second
      rw [inductionHypothesis, List.append_assoc]

theorem dataOf_data (chunks : List Bytes) : dataOf (chunks.map .data) = chunks.flatten := by
  induction chunks with
  | nil => rfl
  | cons chunk rest inductionHypothesis =>
    show chunk ++ dataOf (rest.map .data) = _
    rw [inductionHypothesis, List.flatten_cons]

theorem flatten_flatMap_cut (writes : List Bytes) :
    (writes.flatMap (cut AdminService.backupChunk)).flatten = writes.flatten := by
  induction writes with
  | nil => rfl
  | cons write rest inductionHypothesis =>
    rw [List.flatMap_cons, List.flatten_append, flatten_cut _ (by decide), inductionHypothesis,
      List.flatten_cons]

/-- The frames of a backup carry what the storage wrote. -/
theorem dataOf_backupFrames (run : BackupRun) :
    dataOf (AdminService.backupFrames run) = run.writes.flatten := by
  rw [AdminService.backupFrames, dataOf_append, dataOf_data, flatten_flatMap_cut]
  split
  · exact List.append_nil _
  · exact List.append_nil _

/-- Frames delivered from the front of a backup are all of its frames once the final one is among
them. -/
theorem all_of_done (run : BackupRun) (delivered : List BackupFrame) (version : UInt64)
    (front : delivered <+: AdminService.backupFrames run) (done : .done version ∈ delivered) :
    delivered = AdminService.backupFrames run ∧ (run.err = none ∨ run.err = some eof) := by
  obtain ⟨rest, whole⟩ := front
  have noData (chunks : List Bytes) : BackupFrame.done version ∉ chunks.map BackupFrame.data := by
    intro member
    obtain ⟨_, _, impossible⟩ := List.mem_map.mp member
    cases impossible
  unfold AdminService.backupFrames at whole ⊢
  by_cases sent : run.err = none ∨ run.err = some eof
  · rw [if_pos sent] at whole ⊢
    refine ⟨?_, sent⟩
    rcases List.eq_nil_or_concat' rest with rfl | ⟨others, last, rfl⟩
    · rw [← whole, List.append_nil]
    · rw [← List.append_assoc] at whole
      have allData := List.append_inj_left' whole rfl
      have member : BackupFrame.done version ∈ delivered ++ others := List.mem_append_left _ done
      rw [allData] at member
      exact absurd member (noData _)
  · rw [if_neg sent, List.append_nil] at whole
    have member : BackupFrame.done version ∈ delivered ++ rest := List.mem_append_left _ done
    rw [whole] at member
    exact absurd member (noData _)

section

variable (cipher : Cipher) (lawful : cipher.Lawful) (destination : Destination)

/-- A loop that ends without an error has written the data of its frames. -/
theorem backupLoop_holds (password : Bytes) (frames : List BackupFrame) (writer : Writer)
    (sink : Sink) (version : UInt64) (plain : Bytes)
    (holds : writer.Holds cipher password sink plain)
    (succeeded : (backupLoop cipher destination writer sink version frames).1 = none) :
    (backupLoop cipher destination writer sink version frames).2.2.1.Holds cipher password
      (backupLoop cipher destination writer sink version frames).2.2.2
      (plain ++ dataOf frames) := by
  induction frames generalizing writer sink version plain with
  | nil =>
    rw [dataOf, List.append_nil]
    exact holds
  | cons frame rest inductionHypothesis =>
    cases frame with
    | done reported => exact inductionHypothesis writer sink reported plain holds succeeded
    | data bytes =>
      rw [backupLoop] at succeeded ⊢
      have held := write_holds cipher destination password writer sink plain bytes holds
      split at succeeded
      · cases succeeded
      · rename_i next later written
        rw [written] at held
        rw [dataOf, ← List.append_assoc]
        exact inductionHypothesis next later version _ (held rfl) succeeded

/-! ### Clients whose own calls succeed -/

/-- The destination opens, takes every write and closes, and there is randomness. -/
structure Client.Reliable (client : Client) : Prop where
  opens : client.openSink = none
  writes : ∀ call, client.destination.write call = none
  closes : client.destination.close = none
  salts : ∃ salt, client.entropy.salt = .ok salt
  nonces : ∃ noncePfx, client.entropy.noncePfx = .ok noncePfx

variable (takes : ∀ call, destination.write call = none)

include takes in
theorem write_of_takes (sink : Sink) (data : Bytes) : (sink.write destination data).1 = none := by
  rw [Sink.write, takes]

include takes in
theorem newWriter_of_takes (entropy : Entropy) (password : Bytes)
    (salts : ∃ salt, entropy.salt = .ok salt)
    (nonces : ∃ noncePfx, entropy.noncePfx = .ok noncePfx) :
    ∃ writer, (newWriter cipher destination entropy password {}).1 = .ok writer := by
  obtain ⟨salt, salted⟩ := salts
  obtain ⟨noncePfx, nonced⟩ := nonces
  unfold newWriter Sink.write
  rw [takes, salted, nonced]
  split
  · exact ⟨_, rfl⟩
  · exact ⟨_, rfl⟩

include takes in
theorem sealChunk_of_takes (writer : EncWriter) (sink : Sink) (chunk : Bytes) (last : Bool) :
    (writer.sealChunk cipher destination sink chunk last).1 = none := by
  unfold EncWriter.sealChunk
  simp only
  split
  · rename_i err _ failed
    cases (write_of_takes destination takes sink _).symm.trans (congrArg Prod.fst failed)
  · exact write_of_takes destination takes _ _

include takes in
theorem fill_of_takes (writer : EncWriter) (sink : Sink) (data : Bytes) :
    (writer.fill cipher destination sink data).1 = none := by
  fun_induction EncWriter.fill cipher destination writer sink data with
  | case1 writer sink => rfl
  | case2 writer sink data nonempty buf rest full inductionHypothesis => exact inductionHypothesis
  | case3 writer sink data nonempty buf full err next later failed =>
    cases (sealChunk_of_takes cipher destination takes writer sink _ false).symm.trans
      (congrArg Prod.fst failed)
  | case4 writer sink data nonempty buf rest full next later emptied inductionHypothesis =>
    exact inductionHypothesis

include takes in
theorem writer_of_takes (password : Bytes) (writer : Writer) (sink : Sink) (plain data : Bytes)
    (holds : writer.Holds cipher password sink plain) :
    (writer.write cipher destination sink data).1 = none ∧
      (writer.close cipher destination sink).1 = none := by
  cases writer with
  | plain => exact ⟨write_of_takes destination takes sink data, rfl⟩
  | encrypted writer =>
    obtain ⟨_, _, _, _, _, ⟨_, _, going⟩, _⟩ := holds
    have stillOpen : ¬ writer.closed = true := by
      rw [going]
      exact Bool.false_ne_true
    constructor
    · show (writer.write cipher destination sink data).1 = none
      rw [EncWriter.write, if_neg stillOpen]
      exact fill_of_takes cipher destination takes writer sink data
    · show (writer.close cipher destination sink).1 = none
      rw [EncWriter.close, if_neg stillOpen]
      exact sealChunk_of_takes cipher destination takes _ sink _ true

include takes in
theorem backupLoop_of_takes (password : Bytes) (frames : List BackupFrame) (writer : Writer)
    (sink : Sink) (version : UInt64) (plain : Bytes)
    (holds : writer.Holds cipher password sink plain) :
    (backupLoop cipher destination writer sink version frames).1 = none := by
  induction frames generalizing writer sink version plain with
  | nil => rfl
  | cons frame rest inductionHypothesis =>
    cases frame with
    | done reported => exact inductionHypothesis writer sink reported plain holds
    | data bytes =>
      have wrote := (writer_of_takes cipher destination takes password writer sink plain bytes
        holds).1
      have held := write_holds cipher destination password writer sink plain bytes holds wrote
      rw [backupLoop]
      split
      · rename_i err next later failed
        cases wrote.symm.trans (congrArg Prod.fst failed)
      · rename_i next later written
        rw [written] at held
        exact inductionHypothesis next later version _ held

end

/-! ### Whole dumps -/

section

variable (cipher : Cipher) (lawful : cipher.Lawful) (client : Client) (password : Bytes)
  (run : BackupRun) (delivered : List BackupFrame)

theorem newWriter_of_reliable (reliable : client.Reliable) :
    ∃ writer, (newWriter cipher client.destination client.entropy password {}).1 = .ok writer :=
  newWriter_of_takes cipher client.destination reliable.writes client.entropy password
    reliable.salts reliable.nonces

/-- A client whose own calls succeed returns no error, whatever the stream delivers. -/
theorem backup_of_reliable (reliable : client.Reliable) (streams : client.stream = .ok delivered) :
    (backup cipher client password).1.2 = none := by
  obtain ⟨writer, opened⟩ := newWriter_of_reliable cipher client password reliable
  have holds := newWriter_holds cipher client.destination client.entropy password writer opened
  unfold backup
  rw [reliable.opens]
  simp only
  split
  · rename_i failed
    cases opened.symm.trans (congrArg Prod.fst failed)
  · rename_i other sink created
    rw [created] at opened holds
    cases opened
    rw [streams]
    have looped := backupLoop_of_takes cipher client.destination reliable.writes password delivered
      writer sink 0 [] holds
    have held := backupLoop_holds cipher client.destination password delivered writer sink 0 []
      holds looped
    have closed :=
      (writer_of_takes cipher client.destination reliable.writes password _ _ _ [] held).2
    simp only
    rw [looped, closed, reliable.closes]
    rfl

include lawful in
/-- A backup that returns no error leaves a dump that reads as the data of the frames delivered. -/
theorem backup_reads (streams : client.stream = .ok delivered)
    (returned : (backup cipher client password).1.2 = none) :
    dumpSource cipher ⟨(backup cipher client password).2, none⟩ password =
      .ok ⟨dataOf delivered, none⟩ := by
  unfold backup at returned ⊢
  cases opening : client.openSink with
  | some err =>
    rw [opening] at returned
    cases returned
  | none =>
    rw [opening] at returned
    simp only at returned ⊢
    cases created : newWriter cipher client.destination client.entropy password {} with
    | mk outcome sink =>
      rw [created] at returned
      cases outcome with
      | error err => cases returned
      | ok writer =>
        simp only [streams] at returned ⊢
        have holds := newWriter_holds cipher client.destination client.entropy password writer
          (congrArg Prod.fst created)
        rw [created] at holds
        obtain ⟨written, _⟩ := Option.or_eq_none_iff.mp returned
        obtain ⟨looped, closed⟩ := Option.or_eq_none_iff.mp written
        exact close_reads cipher lawful client.destination password _ _ _
          (backupLoop_holds cipher client.destination password delivered writer sink 0 [] holds
            looped) closed

/-- What the absence of an error is to mean: the final frame has arrived, the storage has come to
its end, and the dump reads as the bytes the storage wrote. -/
def Whole (dump : Bytes) : Prop :=
  (∃ version, .done version ∈ delivered) ∧ run.err = none ∧
    dumpSource cipher ⟨dump, none⟩ password = .ok ⟨run.writes.flatten, none⟩

/-- The final frame is delivered, and it was not sent for an error that reads as the end of the
file. -/
def Finished : Prop := (∃ version, .done version ∈ delivered) ∧ run.err ≠ some eof

include lawful in
/-- When the final frame is delivered, a backup returns no error only for a whole dump, whatever
the destination does. When the client's own calls succeed, it is so in no other case. -/
theorem backup_whole_iff_finished (policy : Option Snapshot) (principal : Bytes)
    (sent : List BackupFrame) (served : AdminService.backup policy principal run = .ok sent)
    (streams : client.stream = .ok delivered) (front : delivered <+: sent) :
    (Finished run delivered → (backup cipher client password).1.2 = none →
        Whole cipher password run delivered (backup cipher client password).2) ∧
      (client.Reliable →
        (((backup cipher client password).1.2 = none →
          Whole cipher password run delivered (backup cipher client password).2) ↔
            Finished run delivered)) := by
  rw [AdminService.frames_of_backup served] at front
  have forward (finished : Finished run delivered)
      (returned : (backup cipher client password).1.2 = none) :
      Whole cipher password run delivered (backup cipher client password).2 := by
    obtain ⟨⟨version, done⟩, notEof⟩ := finished
    obtain ⟨all, ended⟩ := all_of_done run delivered version front done
    refine ⟨⟨version, done⟩, ended.resolve_right notEof, ?_⟩
    rw [backup_reads cipher lawful client password delivered streams returned, all,
      dataOf_backupFrames]
  refine ⟨forward, fun reliable => ⟨fun whole => ?_, forward⟩⟩
  obtain ⟨done, ended, _⟩ := whole (backup_of_reliable cipher client password delivered reliable
    streams)
  refine ⟨done, fun isEof => ?_⟩
  rw [ended] at isEof
  cases isEof

end

/-- A cipher that only adds a tag. -/
def sampleCipher : Cipher where
  idKey password _ _ _ _ := password
  gcmSeal _ _ plain := plain ++ List.replicate 16 0
  gcmOpen _ _ sealed := some (sealed.take (sealed.length - 16))

theorem sampleCipher_lawful : sampleCipher.Lawful where
  length_seal _ _ plain := by
    show (plain ++ List.replicate 16 0).length = _
    rw [List.length_append, List.length_replicate]
  open_seal _ _ plain := by
    show some ((plain ++ List.replicate 16 0).take ((plain ++ List.replicate 16 0).length - 16)) = _
    rw [List.length_append, List.length_replicate, Nat.add_sub_cancel, List.take_left]

/-- A client that receives frames and whose own calls succeed. -/
def sampleClient (frames : List BackupFrame) : Client where
  openSink := none
  destination := ⟨fun _ => none, none⟩
  entropy := ⟨.ok ⟨List.replicate 16 7, rfl⟩, .ok ⟨List.replicate 4 9, rfl⟩⟩
  stream := .ok frames

theorem sampleClient_reliable (frames : List BackupFrame) : (sampleClient frames).Reliable where
  opens := rfl
  writes _ := rfl
  closes := rfl
  salts := ⟨_, rfl⟩
  nonces := ⟨_, rfl⟩

/-- An encrypted backup of two writes that is delivered to its end. -/
theorem backup_whole_iff_finished_two_writes :
    Whole sampleCipher (str "secret") ⟨[str "ab", str "c"], 7, none⟩
      [.data (str "ab"), .data (str "c"), .done 7]
      (backup sampleCipher (sampleClient [.data (str "ab"), .data (str "c"), .done 7])
        (str "secret")).2 :=
  (backup_whole_iff_finished sampleCipher sampleCipher_lawful
    (sampleClient [.data (str "ab"), .data (str "c"), .done 7]) (str "secret")
    ⟨[str "ab", str "c"], 7, none⟩ _ none [] _ rfl rfl (by decide +kernel)).1
    ⟨⟨7, by decide⟩, by decide⟩
    (backup_of_reliable _ _ _ _ (sampleClient_reliable _) rfl)

/-- The storage fails after one write, and the client returns no error. -/
theorem unfinished_backup_succeeds :
    ¬ ∀ (client : Client) (password : Bytes) (run : BackupRun) (sent delivered : List BackupFrame),
      AdminService.backup none [] run = .ok sent →
      client.stream = .ok delivered → delivered <+: sent →
      (backup sampleCipher client password).1.2 = none →
      Whole sampleCipher password run delivered (backup sampleCipher client password).2 := by
  intro claim
  have whole := claim (sampleClient [.data (str "ab")]) (str "secret")
    ⟨[str "ab"], 0, some (.external "value log is truncated")⟩ _ _ rfl rfl (by decide +kernel)
    (backup_of_reliable _ _ _ _ (sampleClient_reliable _) rfl)
  cases whole.2.1

end Backup

end ConsensusDB
