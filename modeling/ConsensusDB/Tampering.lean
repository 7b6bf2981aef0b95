/-
This file is about encrypted dumps that were tampered with. A writer seals each
chunk under a nonce that no other chunk has, even when its frame does not reach
the destination, since sealing moves the counter on at once. A reader counts the
chunks it has opened, so what it opens next can only be the chunk that was sealed
at that place, with the flag it was sealed with.

The cipher is ideal: what opens under a key and a nonce was sealed under them by
this writer. So whatever stream is presented, the reads deliver a front part of
the bytes that the writer took, also when a caller goes on reading after an
error, and reach the end of the stream only after all of them.
-/

import ConsensusDB.Lib.Replay
import ConsensusDB.DumpReader

namespace ConsensusDB

open Wire Stream

namespace Backup

/-! ### What a writer seals -/

section

variable (cipher : Cipher) (destination : Destination)

/-- A call on an encrypting writer. -/
inductive EncCall where
  | write (data : Bytes)
  | close

/-- A writer in use, and whether some write has failed. -/
structure EncRun where
  writer : EncWriter
  sink : Sink
  failed : Bool

/-- The caller goes on after errors. -/
def EncCall.act : EncCall → EncRun → EncRun
  | .write data, run =>
    let outcome := run.writer.write cipher destination run.sink data
    { writer := outcome.2.1
      sink := outcome.2.2
      failed := run.failed || outcome.1.isSome }
  | .close, run =>
    let outcome := run.writer.close cipher destination run.sink
    { run with
      writer := outcome.2.1
      sink := outcome.2.2 }

/-- What `Seal` was called with: the nonces used so far, each with the chunk sealed under it. -/
def EncRun.sealed (run : EncRun) : List (Bytes × Bytes) := run.writer.aead.sealed

/-- The bytes the writer took: those it has sealed, and those in its buffer. -/
def EncRun.plain (run : EncRun) : Bytes := (run.sealed.map Prod.snd).flatten ++ run.writer.buf

/-- The bytes of the writes. -/
def writtenBy (calls : List EncCall) : Bytes :=
  calls.flatMap fun
    | .write data => data
    | .close => []

/-- What filling the buffer with data does: chunks are sealed under consecutive counters, and
together with what stays in the buffer they hold the old buffer and a front part of the data, all
of it when no error is returned. -/
structure Fills (before : EncWriter) (data : Bytes) (next : List (Bytes × Bytes))
    (err : Option Err) (after : EncWriter) : Prop where
  aead : after.aead = { before.aead with sealed := before.aead.sealed ++ next }
  noncePfx : after.noncePfx = before.noncePfx
  closed : after.closed = before.closed
  counter : after.counter = before.counter + UInt64.ofNat next.length
  counted : ∀ place call, next[place]? = some call →
    call.1 = nonce before.noncePfx (before.counter + UInt64.ofNat place) false
  plain : ∃ part, part <+: data ∧ (err = none → part = data) ∧
    (next.map Prod.snd).flatten ++ after.buf = before.buf ++ part

theorem fills_nothing (writer : EncWriter) (data : Bytes) (err : Option Err)
    (whole : err = none → [] = data) : Fills writer data [] err writer where
  aead := by rw [List.append_nil]
  noncePfx := rfl
  closed := rfl
  counter := (UInt64.add_zero _).symm
  counted := nofun
  plain := ⟨[], List.nil_prefix, whole, (List.append_nil _).symm⟩

/-- Bytes that go to the buffer first. -/
theorem fills_buffered (writer after : EncWriter) (front rest : Bytes)
    (room : (writer.buf ++ front).length < chunkSize) (next : List (Bytes × Bytes))
    (err : Option Err)
    (filled : Fills { writer with buf := writer.buf ++ front, room := room } rest next err after) :
    Fills writer (front ++ rest) next err after where
  aead := filled.aead
  noncePfx := filled.noncePfx
  closed := filled.closed
  counter := filled.counter
  counted := filled.counted
  plain := by
    obtain ⟨part, isPart, whole, held⟩ := filled.plain
    refine ⟨front ++ part, (List.prefix_append_right_inj front).mpr isPart, fun fine => ?_, ?_⟩
    · rw [whole fine]
    · rw [held, List.append_assoc]

/-- Bytes that fill the buffer, which is sealed first. -/
theorem fills_sealed (writer after : EncWriter) (front rest : Bytes)
    (next : List (Bytes × Bytes)) (err : Option Err)
    (filled : Fills (writer.emptied (writer.buf ++ front) false) rest next err after) :
    Fills writer (front ++ rest)
      ((nonce writer.noncePfx writer.counter false, writer.buf ++ front) :: next) err after where
  aead := by
    rw [filled.aead]
    simp only [EncWriter.emptied, List.append_assoc, List.singleton_append]
  noncePfx := filled.noncePfx
  closed := filled.closed
  counter := by
    rw [filled.counter, List.length_cons, ← counter_succ]
    rfl
  counted := by
    intro place call found
    cases place with
    | zero =>
      cases found
      exact congrArg (nonce writer.noncePfx · false) (UInt64.add_zero _).symm
    | succ place =>
      rw [filled.counted place call found, ← counter_succ]
      rfl
  plain := by
    obtain ⟨part, isPart, whole, held⟩ := filled.plain
    refine ⟨front ++ part, (List.prefix_append_right_inj front).mpr isPart, fun fine => ?_, ?_⟩
    · rw [whole fine]
    · rw [List.map_cons, List.flatten_cons, List.append_assoc, held, List.append_assoc]
      rfl

theorem fill_fills (writer : EncWriter) (sink : Sink) (data : Bytes) :
    ∃ next, Fills writer data next (writer.fill cipher destination sink data).1
      (writer.fill cipher destination sink data).2.1 := by
  fun_induction EncWriter.fill cipher destination writer sink data with
  | case1 writer sink => exact ⟨[], fills_nothing writer [] none fun _ => rfl⟩
  | case2 writer sink data nonempty buf rest full inductionHypothesis =>
    obtain ⟨next, filled⟩ := inductionHypothesis
    have buffered := fills_buffered writer _ _ _ full next _ filled
    rw [List.take_append_drop] at buffered
    exact ⟨next, buffered⟩
  | case3 writer sink data nonempty buf full err next later failed =>
    have isNext := sealChunk_next cipher destination writer sink buf false
    rw [failed] at isNext
    have filled := fills_sealed writer _ (data.take (chunkSize - writer.buf.length))
      (data.drop (chunkSize - writer.buf.length)) [] (some err)
      (fills_nothing _ _ (some err) fun none => absurd none (Option.some_ne_none err))
    rw [List.take_append_drop] at filled
    exact ⟨_, isNext ▸ filled⟩
  | case4 writer sink data nonempty buf rest full next later emptied inductionHypothesis =>
    have isNext := sealChunk_next cipher destination writer sink buf false
    rw [emptied] at isNext
    obtain ⟨calls, filled⟩ := inductionHypothesis
    have isEmptied : next = writer.emptied buf false := isNext
    rw [isEmptied] at filled ⊢
    have sealed := fills_sealed writer _ (data.take (chunkSize - writer.buf.length))
      (data.drop (chunkSize - writer.buf.length)) calls _ filled
    rw [List.take_append_drop] at sealed
    exact ⟨_, sealed⟩

/-- What holds of a writer in use: each call of `Seal` has the nonce of its place; one with the flag
is the last, and then the writer is closed with nothing left in its buffer. -/
structure EncRun.Sound (key noncePfx : Bytes) (run : EncRun) : Prop where
  keyed : run.writer.aead.key = key
  prefixed : run.writer.noncePfx = noncePfx
  counter : run.writer.counter = UInt64.ofNat run.sealed.length
  counted : ∀ place call, run.sealed[place]? = some call →
    ∃ last, call.1 = nonce noncePfx (UInt64.ofNat place) last ∧
      (last = true → place + 1 = run.sealed.length ∧ run.writer.closed = true)
  closed : run.writer.closed = true → run.writer.buf = []

/-- The calls of a writer that is not closed, with those that come next: no earlier one has the
flag. -/
theorem EncRun.Sound.counted_append {key noncePfx : Bytes} {run : EncRun}
    (sound : run.Sound key noncePfx) (notClosed : ¬ run.writer.closed = true)
    {next : List (Bytes × Bytes)} {closes : Bool}
    (counts : ∀ place call, next[place]? = some call →
      ∃ last, call.1 = nonce run.writer.noncePfx (run.writer.counter + UInt64.ofNat place) last ∧
        (last = true → place + 1 = next.length ∧ closes = true))
    (place : Nat) (call : Bytes × Bytes) (found : (run.sealed ++ next)[place]? = some call) :
    ∃ last, call.1 = nonce noncePfx (UInt64.ofNat place) last ∧
      (last = true → place + 1 = (run.sealed ++ next).length ∧ closes = true) := by
  by_cases earlier : place < run.sealed.length
  · rw [List.getElem?_append_left earlier] at found
    obtain ⟨last, isNonce, flagged⟩ := sound.counted place call found
    exact ⟨last, isNonce, fun flag => absurd (flagged flag).2 notClosed⟩
  · rw [List.getElem?_append_right (by omega)] at found
    obtain ⟨last, isNonce, flagged⟩ := counts _ call found
    refine ⟨last, ?_, fun flag => ?_⟩
    · rw [isNonce, sound.prefixed, sound.counter, ← UInt64.ofNat_add]
      congr 2
      omega
    · obtain ⟨isLast, isClosed⟩ := flagged flag
      refine ⟨?_, isClosed⟩
      rw [List.length_append]
      omega

theorem sound_write (key noncePfx : Bytes) (run : EncRun) (sound : run.Sound key noncePfx)
    (data : Bytes) : (EncCall.act cipher destination (.write data) run).Sound key noncePfx := by
  by_cases closed : run.writer.closed = true
  · have same : EncCall.act cipher destination (.write data) run = { run with failed := true } := by
      simp only [EncCall.act, EncWriter.write, if_pos closed, Option.isSome_some, Bool.or_true]
    rw [same]
    exact ⟨sound.keyed, sound.prefixed, sound.counter, sound.counted, sound.closed⟩
  · obtain ⟨next, filled⟩ := fill_fills cipher destination run.writer run.sink data
    simp only [EncCall.act, EncWriter.write, if_neg closed]
    have sealed (failed : Bool) :
        EncRun.sealed ⟨(run.writer.fill cipher destination run.sink data).2.1,
          (run.writer.fill cipher destination run.sink data).2.2, failed⟩ = run.sealed ++ next :=
      congrArg Aead.sealed filled.aead
    refine ⟨?_, filled.noncePfx.trans sound.prefixed, ?_, ?_, ?_⟩
    · exact (congrArg Aead.key filled.aead).trans sound.keyed
    · rw [filled.counter, sound.counter, sealed, List.length_append, UInt64.ofNat_add]
    · rw [sealed]
      refine sound.counted_append closed fun place call found => ?_
      exact ⟨false, filled.counted place call found, fun isLast => absurd isLast (by decide)⟩
    · exact fun nowClosed => absurd (filled.closed.symm.trans nowClosed) closed

theorem sound_close (key noncePfx : Bytes) (run : EncRun) (sound : run.Sound key noncePfx) :
    (EncCall.act cipher destination .close run).Sound key noncePfx := by
  by_cases closed : run.writer.closed = true
  · have same : EncCall.act cipher destination .close run = run := by
      simp only [EncCall.act, EncWriter.close, if_pos closed]
    rw [same]
    exact sound
  · simp only [EncCall.act, EncWriter.close, if_neg closed, sealChunk_next]
    refine ⟨sound.keyed, sound.prefixed, ?_, ?_, fun _ => rfl⟩
    · show run.writer.counter + 1 = UInt64.ofNat (run.sealed ++ [_]).length
      rw [List.length_append, UInt64.ofNat_add, ← sound.counter]
      rfl
    · refine sound.counted_append closed fun place call found => ?_
      cases place with
      | zero =>
        obtain rfl := Option.some.inj found
        refine ⟨true, ?_, fun _ => ⟨rfl, rfl⟩⟩
        exact congrArg (nonce run.writer.noncePfx · true) (UInt64.add_zero _).symm
      | succ more => cases found

theorem sound_calls (key noncePfx : Bytes) (calls : List EncCall) (run : EncRun)
    (sound : run.Sound key noncePfx) :
    (Replay.run (EncCall.act cipher destination) calls run).Sound key noncePfx := by
  induction calls generalizing run with
  | nil => exact sound
  | cons call rest inductionHypothesis =>
    refine inductionHypothesis _ ?_
    cases call with
    | write data => exact sound_write cipher destination key noncePfx run sound data
    | close => exact sound_close cipher destination key noncePfx run sound

/-- A writer takes all bytes of a write that does not fail. -/
theorem plain_write (run : EncRun) (data : Bytes)
    (fine : (run.writer.write cipher destination run.sink data).1 = none) :
    (EncCall.act cipher destination (.write data) run).plain = run.plain ++ data := by
  unfold EncWriter.write at fine
  by_cases closed : run.writer.closed = true
  · rw [if_pos closed] at fine
    cases fine
  · rw [if_neg closed] at fine
    obtain ⟨next, filled⟩ := fill_fills cipher destination run.writer run.sink data
    obtain ⟨part, _, whole, held⟩ := filled.plain
    simp only [EncCall.act, EncWriter.write, if_neg closed, EncRun.plain, EncRun.sealed]
    rw [filled.aead, List.map_append, List.flatten_append, List.append_assoc, held, whole fine,
      List.append_assoc]

theorem plain_close (run : EncRun) :
    (EncCall.act cipher destination .close run).plain = run.plain := by
  by_cases closed : run.writer.closed = true
  · simp only [EncCall.act, EncWriter.close, if_pos closed, EncRun.plain, EncRun.sealed]
  · simp only [EncCall.act, EncWriter.close, if_neg closed, sealChunk_next, EncRun.plain,
      EncRun.sealed, EncWriter.emptied, List.map_append, List.flatten_append]
    simp

theorem failed_of_calls (calls : List EncCall) (run : EncRun)
    (fine : (Replay.run (EncCall.act cipher destination) calls run).failed = false) :
    run.failed = false := by
  induction calls generalizing run with
  | nil => exact fine
  | cons call rest inductionHypothesis =>
    have before := inductionHypothesis _ fine
    cases call with
    | write data => exact (Bool.or_eq_false_iff.mp before).1
    | close => exact before

/-- When no write fails the writer takes the bytes of all of them. -/
theorem plain_calls (calls : List EncCall) (run : EncRun)
    (fine : (Replay.run (EncCall.act cipher destination) calls run).failed = false) :
    (Replay.run (EncCall.act cipher destination) calls run).plain =
      run.plain ++ writtenBy calls := by
  induction calls generalizing run with
  | nil => exact (List.append_nil _).symm
  | cons call rest inductionHypothesis =>
    have before := failed_of_calls cipher destination rest _ fine
    rw [Replay.run_cons, inductionHypothesis _ fine]
    cases call with
    | write data =>
      have succeeded := Option.isSome_eq_false_iff.mp (Bool.or_eq_false_iff.mp before).2
      rw [plain_write cipher destination run data (Option.isNone_iff_eq_none.mp succeeded),
        List.append_assoc]
      rfl
    | close =>
      rw [plain_close]
      rfl

/-! ### Nonces -/

theorem nonce_inj {first second : Bytes} {counter otherCounter : UInt64} {last otherLast : Bool}
    (lengths : first.length = second.length) (small : counter.toNat < 2 ^ 56)
    (otherSmall : otherCounter.toNat < 2 ^ 56)
    (equal : nonce first counter last = nonce second otherCounter otherLast) :
    first = second ∧ counter = otherCounter ∧ last = otherLast := by
  unfold nonce at equal
  obtain ⟨fronts, flags⟩ := List.append_inj' equal rfl
  obtain ⟨prefixes, counters⟩ := List.append_inj fronts lengths
  refine ⟨prefixes, putUint64_low_inj small otherSmall counters, ?_⟩
  cases last <;> cases otherLast <;> first | rfl | cases flags

theorem ofNat_small (count : Nat) (few : count < 2 ^ 56) :
    (UInt64.ofNat count).toNat < 2 ^ 56 := by
  rw [UInt64.toNat_ofNat_of_lt' (Nat.lt_trans few (by decide))]
  exact few

/-- The place of a nonce determines it, and is determined by it. -/
theorem place_of_nonce {count place : Nat} (few : count < 2 ^ 56) (small : place < 2 ^ 56)
    (equal : UInt64.ofNat count = UInt64.ofNat place) : count = place := by
  have numbers := congrArg UInt64.toNat equal
  rwa [UInt64.toNat_ofNat_of_lt' (Nat.lt_trans few (by decide)),
    UInt64.toNat_ofNat_of_lt' (Nat.lt_trans small (by decide))] at numbers

theorem nonces_nodup (key noncePfx : Bytes) (run : EncRun) (sound : run.Sound key noncePfx)
    (few : run.sealed.length < 2 ^ 56) : (run.sealed.map Prod.fst).Nodup := by
  rw [List.nodup_iff_getElem?_ne_getElem?]
  intro first second before within equal
  rw [List.length_map] at within
  rw [List.getElem?_map, List.getElem?_map, List.getElem?_eq_getElem within,
    List.getElem?_eq_getElem (Nat.lt_trans before within)] at equal
  obtain ⟨_, isNonce, _⟩ := sound.counted first _ (List.getElem?_eq_getElem (by omega))
  obtain ⟨_, isOther, _⟩ := sound.counted second _ (List.getElem?_eq_getElem within)
  have nonces := Option.some.inj equal
  rw [isNonce, isOther] at nonces
  obtain ⟨_, counters, _⟩ := nonce_inj rfl (ofNat_small first (by omega))
    (ofNat_small second (by omega)) nonces
  have same := place_of_nonce (by omega) (by omega) counters
  omega

/-! ### Reading what was tampered with -/

/-- An ideal cipher for one key: what opens, under whatever key and nonce, was sealed under them,
and what was sealed opens to the chunk that was sealed. -/
structure Cipher.Ideal (key : Bytes) (sealed : List (Bytes × Bytes)) : Prop where
  authentic : ∀ tried used text plain, cipher.gcmOpen tried used text = some plain →
    tried = key ∧ ∃ chunk, (used, chunk) ∈ sealed ∧ text = cipher.gcmSeal key used chunk
  correct : ∀ used chunk, (used, chunk) ∈ sealed →
    cipher.gcmOpen key used (cipher.gcmSeal key used chunk) = some chunk

/-- What holds of a reader that has delivered some bytes: these and the chunk it holds are the
chunks that were sealed first, and it is done only after the last of them. -/
structure EncReader.Faithful (run : EncRun) (delivered : Bytes) (reader : EncReader) : Prop where
  noncePfx : reader.noncePfx.length = noncePfxLen
  ending : reader.src.ending ≠ some eof
  opened : ∃ count, count ≤ run.sealed.length ∧ reader.counter = UInt64.ofNat count ∧
    delivered ++ reader.plain = ((run.sealed.take count).map Prod.snd).flatten ∧
    (reader.done = true → count = run.sealed.length ∧ run.writer.closed = true)

/-- A frame that is read was opened under the nonce of the reader's counter. -/
theorem next_opened (reader later : EncReader) (stepped : reader.next cipher = .ok later) :
    ∃ last text rest, cipher.gcmOpen reader.key (nonce reader.noncePfx reader.counter last) text =
        some later.plain ∧ rest.ending = reader.src.ending ∧
      later = { reader with
        src := rest
        counter := reader.counter + 1
        plain := later.plain
        done := last } := by
  obtain ⟨head, text, rest, _, _, _, opens, isLater⟩ :=
    (next_eq_ok_iff cipher reader later).mp stepped
  exact ⟨marksLast head, text, ⟨rest, reader.src.ending⟩, opens, rfl, isLater⟩

/-- A frame that is not read does not end the stream cleanly. -/
theorem next_error (reader : EncReader) (ending : reader.src.ending ≠ some eof) (err : Err)
    (failed : reader.next cipher = .error err) : err ≠ eof := by
  unfold EncReader.next at failed
  split at failed
  · rename_i source short
    cases failed
    unfold readFull at short
    split at short
    · cases short
    · split at short
      · rename_i source ended
        cases short
        exact fun same => ending (same ▸ ended)
      · split at short <;> cases short
  · cases failed
    exact fun same => nomatch same
  · simp only at failed
    split at failed
    · cases failed
      exact fun same => nomatch same
    · split at failed
      · cases failed
        exact fun same => nomatch same
      · cases failed

theorem skipped_eq (reader : EncReader) :
    ∃ rest, rest.ending = reader.src.ending ∧ reader.skipped = { reader with src := rest } := by
  unfold EncReader.skipped
  split
  · exact ⟨⟨[], reader.src.ending⟩, rfl, rfl⟩
  · rename_i head body headed
    have ended := (ending_of_readFull _ _ _ _ headed).1
    split
    · exact ⟨⟨[], body.ending⟩, ended, rfl⟩
    · rename_i text rest framed
      exact ⟨_, (ending_of_readFull _ _ _ _ framed).1.trans ended, rfl⟩

variable {cipher} {key noncePfx : Bytes} {run : EncRun}

/-- The next chunk that opens is the one that was sealed next, with its flag. -/
theorem faithful_next (sound : run.Sound key noncePfx)
    (prefixLength : noncePfx.length = noncePfxLen) (few : run.sealed.length < 2 ^ 56)
    (ideal : cipher.Ideal key run.sealed) (delivered : Bytes) (reader later : EncReader)
    (faithful : reader.Faithful run delivered) (empty : reader.plain = [])
    (stepped : reader.next cipher = .ok later) : later.Faithful run delivered := by
  obtain ⟨count, atMost, counter, held, _⟩ := faithful.opened
  obtain ⟨last, text, rest, opens, ended, isLater⟩ := next_opened cipher reader later stepped
  obtain ⟨keyed, chunk, sealed, rfl⟩ := ideal.authentic _ _ _ _ opens
  have chunks : later.plain = chunk := by
    rw [keyed, ideal.correct _ chunk sealed] at opens
    exact (Option.some.inj opens).symm
  obtain ⟨place, within, isCall⟩ := List.mem_iff_getElem.mp sealed
  have found : run.sealed[place]? = some _ := List.getElem?_eq_some_iff.mpr ⟨within, isCall⟩
  obtain ⟨flag, nonces, isLast⟩ := sound.counted place _ found
  rw [counter] at nonces
  obtain ⟨_, counters, flags⟩ := nonce_inj (faithful.noncePfx.trans prefixLength.symm)
    (ofNat_small count (by omega)) (ofNat_small place (by omega)) nonces
  obtain rfl := place_of_nonce (by omega) (by omega) counters
  rw [isLater]
  refine ⟨faithful.noncePfx, fun isEof => faithful.ending (ended ▸ isEof), count + 1, within, ?_,
    ?_, ?_⟩
  · show reader.counter + 1 = _
    rw [counter, UInt64.ofNat_add]
    rfl
  · rw [empty, List.append_nil] at held
    show delivered ++ later.plain = _
    rw [List.take_add_one, found, List.map_append, List.flatten_append, ← held, chunks]
    simp
  · intro done
    exact isLast (flags.symm.trans done)

/-- A read keeps the reader faithful, and reports the end of the stream only after everything. -/
theorem faithful_read (sound : run.Sound key noncePfx)
    (prefixLength : noncePfx.length = noncePfxLen) (few : run.sealed.length < 2 ^ 56)
    (ideal : cipher.Ideal key run.sealed) (delivered : Bytes) (size : Nat) (reader : EncReader)
    (faithful : reader.Faithful run delivered) :
    (reader.read cipher size).2.Faithful run (delivered ++ (reader.read cipher size).1.1) ∧
      ((reader.read cipher size).1.2 = some eof → delivered = run.plain) := by
  fun_induction EncReader.read cipher size reader with
  | case1 reader empty done =>
    rw [List.append_nil]
    refine ⟨faithful, fun _ => ?_⟩
    obtain ⟨count, _, _, held, atEnd⟩ := faithful.opened
    obtain ⟨rfl, closed⟩ := atEnd done
    rw [empty, List.append_nil, List.take_length] at held
    rw [held, EncRun.plain, sound.closed closed, List.append_nil]
  | case2 reader empty going err failed =>
    obtain ⟨rest, ended, skipped⟩ := skipped_eq reader
    rw [List.append_nil, skipped]
    refine ⟨⟨faithful.noncePfx, fun isEof => faithful.ending (ended ▸ isEof), faithful.opened⟩,
      fun isEof => ?_⟩
    exact absurd (Option.some.inj isEof) (next_error cipher reader faithful.ending err failed)
  | case3 reader empty going later stepped inductionHypothesis =>
    exact inductionHypothesis (faithful_next sound prefixLength few ideal delivered reader later
      faithful empty stepped)
  | case4 reader nonempty =>
    refine ⟨⟨faithful.noncePfx, faithful.ending, ?_⟩,
      fun ended => absurd ended.symm (Option.some_ne_none eof)⟩
    obtain ⟨count, within, counter, held, atEnd⟩ := faithful.opened
    refine ⟨count, within, counter, ?_, atEnd⟩
    rw [List.append_assoc, List.take_append_drop]
    exact held

/-- What a faithful reader has delivered is a front part of what the writer took. -/
theorem delivered_front (delivered : Bytes) (reader : EncReader)
    (faithful : reader.Faithful run delivered) : delivered <+: run.plain := by
  obtain ⟨count, _, _, held, _⟩ := faithful.opened
  have chunks : (run.sealed.map Prod.snd).flatten =
      ((run.sealed.take count).map Prod.snd).flatten ++
        ((run.sealed.drop count).map Prod.snd).flatten := by
    rw [← List.flatten_append, ← List.map_append, List.take_append_drop]
  rw [EncRun.plain, chunks, ← held, List.append_assoc, List.append_assoc]
  exact List.prefix_append _ _

end

/-- Reads with one buffer after another, also after errors: the bytes and the error of each. -/
def Reader.reads (cipher : Cipher) : List ReadCall → Reader → List (Bytes × Option Err)
  | [], _ => []
  | call :: rest, reader =>
    (reader.read cipher call).1 :: Reader.reads cipher rest (reader.read cipher call).2

/-- A reader that has opened nothing yet. -/
structure EncReader.Fresh (ending : Option Err) (reader : EncReader) : Prop where
  noncePfx : reader.noncePfx.length = noncePfxLen
  ending : reader.src.ending = ending
  counter : reader.counter = 0
  plain : reader.plain = []
  going : reader.done = false

/-- A dump that is opened with a password is read as an encrypted one. -/
theorem makeReader_protected (cipher : Cipher) (source : Source Err) (password : Bytes)
    (isProtected : password ≠ []) (reader : Reader)
    (opened : makeReader cipher source password = .ok reader) :
    ∃ encrypted : EncReader, reader = .encrypted encrypted ∧ encrypted.Fresh source.ending := by
  rw [makeReader] at opened
  obtain ⟨err, failed⟩ | ⟨unprotected, _⟩ | ⟨_, params, salt, noncePfx, frames, header⟩ :=
    newReader_cases cipher source password
  · rw [failed] at opened
    cases opened
  · exact absurd unprotected isProtected
  · rw [newReader_of_header cipher source password isProtected params salt noncePfx frames
      header] at opened
    split at opened
    · cases opened
    · cases opened
      exact ⟨_, rfl, header.noncePfxLength, rfl, rfl, rfl, rfl⟩

theorem newWriter_fresh (cipher : Cipher) (destination : Destination) (entropy : Entropy)
    (password : Bytes) (writer : EncWriter)
    (created : (newWriter cipher destination entropy password {}).1 = .ok (.encrypted writer)) :
    writer.noncePfx.length = noncePfxLen ∧ writer.aead.sealed = [] ∧ writer.counter = 0 ∧
      writer.buf = [] := by
  unfold newWriter at created
  split at created
  · split at created
    · cases created
    · cases created
  · split at created
    · cases created
    · split at created
      · cases created
      · rename_i noncePfx _
        simp only at created
        split at created
        · cases created
        · cases created
          exact ⟨noncePfx.2, rfl, rfl, rfl⟩

section

variable {cipher : Cipher} {key noncePfx : Bytes} {run : EncRun}

/-- Reads of a faithful reader deliver a front part of what the writer took, and all of it once one
of them reports the end of the stream. -/
theorem reads_faithful (sound : run.Sound key noncePfx)
    (prefixLength : noncePfx.length = noncePfxLen) (few : run.sealed.length < 2 ^ 56)
    (ideal : cipher.Ideal key run.sealed) (calls : List ReadCall) (delivered : Bytes)
    (reader : EncReader) (faithful : reader.Faithful run delivered) :
    delivered ++ ((Reader.reads cipher calls (.encrypted reader)).map Prod.fst).flatten <+:
        run.plain ∧
      ((∃ result ∈ Reader.reads cipher calls (.encrypted reader), result.2 = some eof) →
        delivered ++ ((Reader.reads cipher calls (.encrypted reader)).map Prod.fst).flatten =
          run.plain) := by
  induction calls generalizing delivered reader with
  | nil =>
    refine ⟨?_, nofun⟩
    show delivered ++ [] <+: run.plain
    rw [List.append_nil]
    exact delivered_front delivered reader faithful
  | cons call rest inductionHypothesis =>
    obtain ⟨later, ended⟩ := faithful_read sound prefixLength few ideal delivered call.size reader
      faithful
    obtain ⟨front, all⟩ := inductionHypothesis _ _ later
    have regrouped : delivered ++ ((Reader.reads cipher (call :: rest) (.encrypted reader)).map
        Prod.fst).flatten = delivered ++ (reader.read cipher call.size).1.1 ++
          ((Reader.reads cipher rest (.encrypted (reader.read cipher call.size).2)).map
            Prod.fst).flatten := by
      rw [List.append_assoc]
      rfl
    rw [regrouped]
    refine ⟨front, fun reported => ?_⟩
    obtain ⟨result, member, isEof⟩ := reported
    rcases List.mem_cons.mp member with rfl | among
    · -- everything was delivered before this read, and nothing comes beyond the whole
      have whole := ended isEof
      refine front.eq_of_length_le ?_
      rw [List.length_append, List.length_append, ← whole]
      omega
    · exact all ⟨result, among, isEof⟩

end

/-- An encrypted dump cannot be cut short, reordered or spliced. Whatever calls are made on one
writer and whichever writes of its destination fail, it uses no nonce twice, and takes the bytes of
all writes when none fails. With an ideal cipher, whatever stream is presented to a reader with a
password, its reads deliver a front part of the bytes the writer took, and all of them once the end
of the stream is reported. -/
theorem dump_tamper_evident (cipher : Cipher) (destination : Destination) (entropy : Entropy)
    (password : Bytes) (writer : EncWriter)
    (created : (newWriter cipher destination entropy password {}).1 = .ok (.encrypted writer))
    (calls : List EncCall) (run : EncRun)
    (ran : run = Replay.run (EncCall.act cipher destination) calls
      ⟨writer, (newWriter cipher destination entropy password {}).2, false⟩)
    (few : run.sealed.length < 2 ^ 56) :
    (run.sealed.map Prod.fst).Nodup ∧
      (run.failed = false → run.plain = writtenBy calls) ∧
      (cipher.Ideal writer.aead.key run.sealed →
        ∀ (source : Source Err) (tried : Bytes) (reader : Reader) (reads : List ReadCall),
          tried ≠ [] → source.ending ≠ some eof → makeReader cipher source tried = .ok reader →
          ((reader.reads cipher reads).map Prod.fst).flatten <+: run.plain ∧
          ((∃ result ∈ reader.reads cipher reads, result.2 = some eof) →
            ((reader.reads cipher reads).map Prod.fst).flatten = run.plain)) := by
  obtain ⟨prefixLength, unsealed, counter, buf⟩ :=
    newWriter_fresh cipher destination entropy password writer created
  have started : EncRun.Sound writer.aead.key writer.noncePfx
      ⟨writer, (newWriter cipher destination entropy password {}).2, false⟩ :=
    ⟨rfl, rfl, by rw [EncRun.sealed, unsealed]; exact counter,
      by rw [EncRun.sealed, unsealed]; exact nofun, fun _ => buf⟩
  have sound := sound_calls cipher destination writer.aead.key writer.noncePfx calls _ started
  have taken := plain_calls cipher destination calls
    ⟨writer, (newWriter cipher destination entropy password {}).2, false⟩
  rw [← ran] at sound taken
  refine ⟨nonces_nodup _ _ run sound few, fun fine => ?_, ?_⟩
  · rw [taken fine, EncRun.plain, EncRun.sealed, unsealed, buf]
    rfl
  · intro ideal source tried reader reads isProtected ending opened
    obtain ⟨encrypted, rfl, fresh⟩ := makeReader_protected cipher source tried isProtected reader
      opened
    have faithful : encrypted.Faithful run [] := by
      refine ⟨fresh.noncePfx, fresh.ending ▸ ending, 0, Nat.zero_le _, fresh.counter, ?_, ?_⟩
      · rw [fresh.plain]
        rfl
      · intro done
        rw [fresh.going] at done
        cases done
    exact reads_faithful sound prefixLength few ideal reads [] encrypted faithful

/-- A cipher that adds a tag and opens what stands in a table under one key. -/
def tableCipher (key : Bytes) (sealed : List (Bytes × Bytes)) : Cipher where
  idKey password _ _ _ _ := password
  gcmSeal _ _ plain := plain ++ List.replicate 16 0
  gcmOpen tried used text :=
    if tried = key then
      (sealed.find? fun entry => entry.1 == used && text == entry.2 ++ List.replicate 16 0).map
        Prod.snd
    else none

theorem tableCipher_ideal (key : Bytes) (sealed : List (Bytes × Bytes)) :
    (tableCipher key sealed).Ideal key sealed where
  authentic tried used text plain opens := by
    unfold tableCipher at opens
    simp only at opens
    split at opens
    · rename_i keyed
      obtain ⟨entry, found, _⟩ := Option.map_eq_some_iff.mp opens
      have matched := List.find?_some found
      obtain ⟨nonces, texts⟩ := Bool.and_eq_true_iff.mp matched
      obtain rfl := eq_of_beq nonces
      exact ⟨keyed, entry.2, List.mem_of_find?_eq_some found, eq_of_beq texts⟩
    · cases opens
  correct used chunk listed := by
    unfold tableCipher
    simp only [if_pos]
    cases found : sealed.find? fun entry =>
        entry.1 == used && chunk ++ List.replicate 16 0 == entry.2 ++ List.replicate 16 0 with
    | none =>
      have missing := List.find?_eq_none.mp found (used, chunk) listed
      simp at missing
    | some entry =>
      have matched := List.find?_some found
      obtain ⟨_, texts⟩ := Bool.and_eq_true_iff.mp matched
      exact congrArg some (List.append_cancel_right (eq_of_beq texts)).symm

/-- The one chunk of a short dump, under its nonce. -/
def sampleSealed : List (Bytes × Bytes) := [(nonce (List.replicate 4 9) 0 true, str "abc")]

def sampleVault : Cipher := tableCipher (str "secret") sampleSealed

theorem sampleSalt_length : (List.replicate 16 (7 : UInt8)).length = saltLen := rfl

theorem sampleNonce_length : (List.replicate 4 (9 : UInt8)).length = noncePfxLen := rfl

/-- The random bytes of the short dump. -/
def sampleEntropy : Entropy :=
  ⟨.ok ⟨List.replicate 16 7, sampleSalt_length⟩, .ok ⟨List.replicate 4 9, sampleNonce_length⟩⟩

/-- The short dump: two writes and a close, at a destination that takes everything. -/
def sampleRun : EncRun :=
  Replay.run (EncCall.act sampleVault ⟨fun _ => none, none⟩)
    [.write (str "ab"), .write (str "c"), .close]
    ⟨⟨{ key := str "secret" }, List.replicate 4 9, 0, [], room_nil, false⟩,
      (newWriter sampleVault ⟨fun _ => none, none⟩ sampleEntropy (str "secret") {}).2, false⟩

/-- Whatever is made of the short dump, reads deliver a front part of its three bytes. -/
theorem dump_tamper_evident_sample :
    sampleRun.plain = str "abc" ∧
      ∀ (source : Source Err) (reader : Reader) (reads : List ReadCall),
        source.ending ≠ some eof → makeReader sampleVault source (str "secret") = .ok reader →
        ((reader.reads sampleVault reads).map Prod.fst).flatten <+: str "abc" := by
  obtain ⟨_, taken, delivers⟩ := dump_tamper_evident sampleVault ⟨fun _ => none, none⟩ sampleEntropy
    (str "secret") ⟨{ key := str "secret" }, List.replicate 4 9, 0, [], room_nil, false⟩ rfl
    [.write (str "ab"), .write (str "c"), .close] sampleRun rfl (by decide +kernel)
  have plain : sampleRun.plain = str "abc" := taken (by decide +kernel)
  have sealed : sampleRun.sealed = sampleSealed := by decide +kernel
  refine ⟨plain, fun source reader reads ending opened => ?_⟩
  rw [← plain]
  exact (delivers (sealed ▸ tableCipher_ideal (str "secret") sampleSealed) source (str "secret")
    reader reads (by decide) ending opened).1

end Backup

end ConsensusDB
