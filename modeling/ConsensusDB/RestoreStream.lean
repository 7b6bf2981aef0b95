/-
This file is `Restore` of `pkg/backup/client.go`: a pump reads a dump and hands
its chunks to the admin chat, and the client waits for the node's completion
frame. The environment decides everything that can go wrong: where the source
ends or fails, how its bytes are split into reads, when the context of the pump
is done, and which frames the chat answers with before its channel closes.

The client takes the absence of a completion frame for success, and it forgives
every error of the pump that is a cancellation, since it cancels the pump itself
once the chat is over. The result says when the restore it reports is a whole
one.
-/

import ConsensusDB.BackupStream

namespace ConsensusDB

open Wire Stream

namespace Backup

/-! ### The client -/

/-- A frame of the admin chat: the completion frame, with the text of an error if the load failed,
or anything else. -/
inductive RestoreFrame where
  | done (error : Option String)
  | other
  deriving DecidableEq

/-- What surrounds a restore on the client. The source opens or does not; its reads split the
bytes; the context of the pump is done before some chunk is taken, if at all; the chat starts and
yields frames until its channel closes. -/
structure RestoreClient where
  openSource : Except Err (Source Err)
  split : Bytes → List Bytes
  flatten_split : ∀ bytes, (split bytes).flatten = bytes
  stop : Option (Nat × Err)
  chat : Except Err (List RestoreFrame)

def canceled : Err := .external "context canceled"

/-- `xerrors.Is(err, context.Canceled)`. -/
def isCanceled : Err → Bool
  | .wrap _ cause => isCanceled cause
  | err => err == canceled

/-- The chunks the pump has handed over when it ends, and the error it reports. -/
def pump (client : RestoreClient) (reader : Source Err) : List Bytes × Option Err :=
  let chunks := client.split reader.bytes
  match client.stop with
  | none => (chunks, reader.ending)
  | some (taken, err) =>
    if taken < chunks.length then (chunks.take taken, some err) else (chunks, reader.ending)

/-- The pump hands over every chunk and reports how the source ended, or it is stopped before. -/
theorem pump_cases (client : RestoreClient) (reader : Source Err) :
    pump client reader = (client.split reader.bytes, reader.ending) ∨
      ∃ taken err, client.stop = some (taken, err) ∧ taken < (client.split reader.bytes).length ∧
        pump client reader = ((client.split reader.bytes).take taken, some err) := by
  unfold pump
  cases stopped : client.stop with
  | none => exact Or.inl rfl
  | some stop =>
    obtain ⟨taken, err⟩ := stop
    by_cases left : taken < (client.split reader.bytes).length
    · exact Or.inr ⟨taken, err, rfl, left, if_pos left⟩
    · exact Or.inl (if_neg left)

/-- The error of the last completion frame. -/
def completion : List RestoreFrame → Option (Option String)
  | [] => none
  | .other :: rest => completion rest
  | .done error :: rest => (completion rest).or (some error)

/-- The text the client keeps from the completion frames; a missing one counts as empty. -/
def serverErr (frames : List RestoreFrame) : String := ((completion frames).join).getD ""

section

variable (cipher : Cipher) (client : RestoreClient) (password : Bytes)

/-- The reader of the dump. -/
def openReader : Except Err (Source Err) :=
  match client.openSource with
  | .error err => .error err
  | .ok source => dumpSource cipher source password

/-- The error that a restore returns. -/
def restore : Option Err :=
  match openReader cipher client password with
  | .error err => some err
  | .ok reader =>
    match client.chat with
    | .error err => some (.wrap "restore stream" err)
    | .ok frames =>
      match (pump client reader).2.filter fun err => !isCanceled err with
      | some err => some (.wrap "read dump" err)
      | none =>
        if serverErr frames ≠ "" then some (.text ("restore: " ++ serverErr frames)) else none

/-! ### Whole restores -/

/-- What the absence of an error is to mean: the dump was read to a clean end, every chunk was
handed over, and the completion frame arrived without an error. -/
def WholeRestore : Prop :=
  ∃ reader frames, openReader cipher client password = .ok reader ∧ client.chat = .ok frames ∧
    reader.ending = none ∧ (pump client reader).1 = client.split reader.bytes ∧
    completion frames = some none

/-- A completion frame arrives, and its error, if any, has a text; no cancellation ends the source
or stops the pump while chunks are left. -/
structure Attended (reader : Source Err) (frames : List RestoreFrame) : Prop where
  completed : ∃ error, completion frames = some error ∧ error ≠ some ""
  source : ∀ err, reader.ending = some err → isCanceled err = false
  pumped : ∀ taken err, client.stop = some (taken, err) →
    taken < (client.split reader.bytes).length → isCanceled err = false

variable (reader : Source Err) (frames : List RestoreFrame)
  (opened : openReader cipher client password = .ok reader) (chats : client.chat = .ok frames)

include opened chats in
/-- What a restore without an error has seen. -/
theorem restore_returned (returned : restore cipher client password = none) :
    (∀ err, (pump client reader).2 = some err → isCanceled err = true) ∧ serverErr frames = "" := by
  unfold restore at returned
  simp only [opened, chats] at returned
  split at returned
  · cases returned
  · rename_i forgiven
    refine ⟨fun err failed => ?_, ?_⟩
    · by_contra kept
      rw [failed] at forgiven
      exact absurd (Option.filter_eq_none_iff.mp forgiven err rfl) (by simpa using kept)
    · by_contra text
      rw [if_pos text] at returned
      cases returned

theorem completion_of_serverErr
    (completed : ∃ error, completion frames = some error ∧ error ≠ some "")
    (silent : serverErr frames = "") : completion frames = some none := by
  obtain ⟨error, isError, text⟩ := completed
  rw [serverErr, isError] at silent
  cases error with
  | none => exact isError
  | some message =>
    have empty : message = "" := silent
    rw [empty] at text
    exact absurd rfl text

include opened chats in
theorem attended_of_whole (whole : WholeRestore cipher client password) :
    Attended client reader frames := by
  obtain ⟨sameReader, sameFrames, openedSame, chatsSame, clean, handed, completed⟩ := whole
  cases opened.symm.trans openedSame
  cases chats.symm.trans chatsSame
  refine ⟨⟨none, completed, nofun⟩, ?_, ?_⟩
  · intro err failed
    rw [clean] at failed
    cases failed
  · intro taken err stopped left
    unfold pump at handed
    simp only [stopped, if_pos left] at handed
    have lengths := congrArg List.length handed
    rw [List.length_take] at lengths
    omega

include opened chats in
/-- A restore without an error whose completion frame arrives, and whose pump and source are not
cancelled, is whole. -/
theorem whole_of_attended (attended : Attended client reader frames)
    (returned : restore cipher client password = none) : WholeRestore cipher client password := by
  obtain ⟨forgiven, silent⟩ := restore_returned cipher client password reader frames opened chats
    returned
  have completed := completion_of_serverErr frames attended.completed silent
  rcases pump_cases client reader with finished | ⟨taken, err, stopped, left, cutShort⟩
  · have clean : reader.ending = none := by
      cases ended : reader.ending with
      | none => rfl
      | some err =>
        have isCancel := forgiven err (by rw [finished]; exact ended)
        rw [attended.source err ended] at isCancel
        cases isCancel
    exact ⟨reader, frames, opened, chats, clean, congrArg Prod.fst finished, completed⟩
  · have isCancel := forgiven err (congrArg Prod.snd cutShort)
    rw [attended.pumped taken err stopped left] at isCancel
    cases isCancel

end

section

variable (cipher : Cipher) (client : RestoreClient) (password : Bytes)

theorem opened_of_returned (returned : restore cipher client password = none) :
    ∃ reader frames, openReader cipher client password = .ok reader ∧ client.chat = .ok frames := by
  unfold restore at returned
  split at returned
  · cases returned
  · rename_i reader opened
    split at returned
    · cases returned
    · rename_i frames chats
      exact ⟨reader, frames, opened, chats⟩

/-- Whatever reader is opened and whatever frames the chat yields, the restore is attended. -/
def Undisturbed : Prop :=
  ∀ reader frames, openReader cipher client password = .ok reader → client.chat = .ok frames →
    Attended client reader frames

/-- When a completion frame arrives and neither the source nor the pump is cancelled, a restore
returns no error only for a whole restore; of the restores that return none, it is so for no
other. -/
theorem restore_whole_iff_undisturbed :
    (Undisturbed cipher client password → restore cipher client password = none →
        WholeRestore cipher client password) ∧
      (restore cipher client password = none →
        ((restore cipher client password = none → WholeRestore cipher client password) ↔
          Undisturbed cipher client password)) := by
  have forward (undisturbed : Undisturbed cipher client password)
      (returned : restore cipher client password = none) :
      WholeRestore cipher client password := by
    obtain ⟨reader, frames, opened, chats⟩ := opened_of_returned cipher client password returned
    exact whole_of_attended cipher client password reader frames opened chats
      (undisturbed reader frames opened chats) returned
  refine ⟨forward, fun returned => ⟨fun whole reader frames opened chats => ?_, forward⟩⟩
  exact attended_of_whole cipher client password reader frames opened chats (whole returned)

end

/-- A client that reads a plain dump of three bytes in one piece. -/
def sampleRestore (frames : List RestoreFrame) (stop : Option (Nat × Err)) : RestoreClient where
  openSource := .ok ⟨header modePlain [] [] ++ str "abc", none⟩
  split bytes := [bytes]
  flatten_split bytes := List.append_nil bytes
  stop := stop
  chat := .ok frames

/-- A restore returns no error when the chat closes without a completion frame, and when the pump
is cancelled before its only chunk is taken. -/
theorem unattended_restore_succeeds :
    (¬ ∀ client : RestoreClient, restore sampleCipher client [] = none →
        WholeRestore sampleCipher client []) ∧
      ¬ ∀ client : RestoreClient, client.chat = .ok [.done none] →
        restore sampleCipher client [] = none → WholeRestore sampleCipher client [] := by
  constructor
  · intro claim
    obtain ⟨_, frames, _, chats, _, _, completed⟩ := claim (sampleRestore [] none) rfl
    cases chats
    cases completed
  · intro claim
    obtain ⟨reader, _, opened, _, _, handed, _⟩ :=
      claim (sampleRestore [.done none] (some (0, canceled))) rfl rfl
    cases handed

end Backup

end ConsensusDB
