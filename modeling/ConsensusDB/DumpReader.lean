/-
This file reads a dump the way its callers do: `NewReader` answers with a reader,
and `Read` is called with one buffer after another. A plain dump is read from the
source itself, which may give fewer bytes than there is room for and may report
its end along with its last bytes. The reader of an encrypted dump hands out the
chunk it holds and opens the next frame when that chunk is used up.

What a reader yields in the end does not depend on the sizes of the buffers. So
every way of writing a dump in pieces is read back as the pieces put together,
followed by the end of the stream.
-/

import ConsensusDB.BackupStream

namespace ConsensusDB

open Wire Stream

namespace Backup

/-! ### Readers -/

/-- One call of `Read`: the size of its buffer and, where the call goes to the source, how many
bytes beyond the first the source gives at most and whether it reports its end along with its last
bytes. -/
structure ReadCall where
  size : Nat
  most : Nat
  together : Bool

/-- A read of the source itself. -/
def readSource (call : ReadCall) (source : Source Err) : (Bytes × Option Err) × Source Err :=
  let ended := source.ending.getD eof
  if source.bytes = [] then (([], some ended), source)
  else
    let count := min call.size (call.most + 1)
    let rest := source.bytes.drop count
    ((source.bytes.take count, if call.together ∧ rest = [] then some ended else none),
      ⟨rest, source.ending⟩)

/-- The reader after a frame that could not be read or opened: what was read of it is gone. -/
def EncReader.skipped (reader : EncReader) : EncReader :=
  match readFull 4 reader.src with
  | .error _ => { reader with src := ⟨[], reader.src.ending⟩ }
  | .ok (head, body) =>
    match readFull (uint32 head &&& ~~~lastFlagBit).toNat body with
    | .error _ => { reader with src := ⟨[], body.ending⟩ }
    | .ok (_, rest) => { reader with src := rest }

/-- Opens frames until there is something to hand out. -/
def EncReader.read (cipher : Cipher) (size : Nat) (reader : EncReader) :
    (Bytes × Option Err) × EncReader :=
  if reader.plain = [] then
    if reader.done then (([], some eof), reader)
    else
      match _stepped : reader.next cipher with
      | .error err => (([], some err), reader.skipped)
      | .ok later => EncReader.read cipher size later
  else ((reader.plain.take size, none), { reader with plain := reader.plain.drop size })
termination_by reader.src.bytes.length
decreasing_by exact length_of_next cipher reader later _stepped

def Reader.read (cipher : Cipher) (reader : Reader) (call : ReadCall) :
    (Bytes × Option Err) × Reader :=
  match reader with
  | .plain source => (readSource call source).map id .plain
  | .encrypted reader => (reader.read cipher call.size).map id .encrypted

/-- Calls `Read` with one buffer after another, up to the first error. -/
def Reader.readAll (cipher : Cipher) : List ReadCall → Reader → Bytes × Option Err
  | [], _ => ([], none)
  | call :: rest, reader =>
    match reader.read cipher call with
    | ((data, some err), _) => (data, some err)
    | ((data, none), later) => (Reader.readAll cipher rest later).map (data ++ ·) id

section

variable (cipher : Cipher)

/-! ### What a read takes off -/

/-- A read hands out the front of what the reader yields, at least a byte when the buffer has room;
an error comes with the last of it, and is the one the reader ends with. -/
structure Takes (source : Source Err) (size : Nat) (data : Bytes) (err : Option Err)
    (later : Source Err) : Prop where
  going : err = none →
    source = ⟨data ++ later.bytes, later.ending⟩ ∧ (0 < size → data ≠ [])
  stopped : ∀ error, err = some error → source.bytes = data ∧ error = source.ending.getD eof

theorem takes_front (bytes : Bytes) (ending : Option Err) (nonempty : bytes ≠ [])
    (size count : Nat) (room : 0 < size → 0 < count) :
    Takes ⟨bytes, ending⟩ size (bytes.take count) none ⟨bytes.drop count, ending⟩ where
  going _ := by
    refine ⟨by rw [List.take_append_drop], fun positive empty => ?_⟩
    rcases List.take_eq_nil_iff.mp empty with zero | nothing
    · exact absurd (room positive) (by omega)
    · exact nonempty nothing
  stopped := nofun

theorem readSource_takes (call : ReadCall) (source : Source Err) :
    Takes source call.size (readSource call source).1.1 (readSource call source).1.2
      (readSource call source).2 := by
  unfold readSource
  simp only
  split
  · next empty =>
    exact ⟨nofun, fun error ended => ⟨empty, (Option.some.inj ended).symm⟩⟩
  · next nonempty =>
    have front := takes_front source.bytes source.ending nonempty call.size
      (min call.size (call.most + 1)) (by omega)
    split
    · next together =>
      refine ⟨nofun, fun error ended => ⟨?_, (Option.some.inj ended).symm⟩⟩
      have whole := List.take_append_drop (min call.size (call.most + 1)) source.bytes
      rw [together.2, List.append_nil] at whole
      exact whole.symm
    · exact front

/-- What a reader yields starts with the chunk it holds. -/
theorem yields_held (reader : EncReader) (held : Bytes) :
    EncReader.yields cipher { reader with plain := held } =
      ⟨held ++ (EncReader.yields cipher { reader with plain := [] }).bytes,
        (EncReader.yields cipher { reader with plain := [] }).ending⟩ := by
  by_cases done : reader.done = true
  · rw [yields_of_done cipher { reader with plain := held } done,
      yields_of_done cipher { reader with plain := [] } done, List.append_nil]
  · have going : reader.done = false := Bool.eq_false_iff.mpr done
    cases stepped : reader.next cipher with
    | error err =>
      rw [yields_of_error cipher { reader with plain := held } err going stepped,
        yields_of_error cipher { reader with plain := [] } err going stepped, List.append_nil]
    | ok later =>
      rw [yields_of_next cipher { reader with plain := held } later going stepped,
        yields_of_next cipher { reader with plain := [] } later going stepped, List.nil_append]

theorem encRead_takes (size : Nat) (reader : EncReader) :
    Takes (reader.yields cipher) size (reader.read cipher size).1.1 (reader.read cipher size).1.2
      ((reader.read cipher size).2.yields cipher) := by
  fun_induction EncReader.read cipher size reader with
  | case1 reader empty done =>
    refine ⟨nofun, fun error ended => ?_⟩
    rw [yields_of_done cipher reader done, empty]
    exact ⟨rfl, (Option.some.inj ended).symm⟩
  | case2 reader empty going err failed =>
    refine ⟨nofun, fun error ended => ?_⟩
    rw [yields_of_error cipher reader err (Bool.eq_false_iff.mpr going) failed, empty]
    exact ⟨rfl, (Option.some.inj ended).symm⟩
  | case3 reader empty going later stepped inductionHypothesis =>
    rw [yields_of_next cipher reader later (Bool.eq_false_iff.mpr going) stepped, empty]
    exact inductionHypothesis
  | case4 reader nonempty =>
    have whole := yields_held cipher reader reader.plain
    have after := yields_held cipher reader (reader.plain.drop size)
    refine ⟨fun _ => ⟨?_, fun positive empty => ?_⟩, nofun⟩
    · show reader.yields cipher = _
      rw [whole, after, ← List.append_assoc, List.take_append_drop]
    · rcases List.take_eq_nil_iff.mp empty with zero | nothing
      · exact absurd positive (by omega)
      · exact nonempty nothing

theorem read_takes (reader : Reader) (call : ReadCall) :
    Takes (reader.yields cipher) call.size (reader.read cipher call).1.1
      (reader.read cipher call).1.2 ((reader.read cipher call).2.yields cipher) := by
  cases reader with
  | plain source => exact readSource_takes call source
  | encrypted reader => exact encRead_takes cipher call.size reader

/-- Reads with any buffers deliver a front part of what a reader yields. They end with the error
the reader ends with, only after all of it, and after at most one read for each byte. -/
theorem readAll_yields (calls : List ReadCall) (reader : Reader)
    (positive : ∀ call ∈ calls, 0 < call.size) :
    (reader.readAll cipher calls).1 <+: (reader.yields cipher).bytes ∧
      (∀ err, (reader.readAll cipher calls).2 = some err →
        (reader.readAll cipher calls).1 = (reader.yields cipher).bytes ∧
          err = (reader.yields cipher).ending.getD eof) ∧
      ((reader.yields cipher).bytes.length < calls.length →
        (reader.readAll cipher calls).2 = some ((reader.yields cipher).ending.getD eof)) := by
  induction calls generalizing reader with
  | nil => exact ⟨List.nil_prefix, nofun, fun short => absurd short (by simp)⟩
  | cons call rest inductionHypothesis =>
    have taken := read_takes cipher reader call
    rw [Reader.readAll]
    rcases read : reader.read cipher call with ⟨⟨data, err⟩, later⟩
    rw [read] at taken
    cases err with
    | some err =>
      obtain ⟨all, ended⟩ := taken.stopped err rfl
      simp only
      refine ⟨all ▸ List.prefix_rfl, fun error same => ?_, fun _ => congrArg some ended⟩
      cases same
      exact ⟨all.symm, ended⟩
    | none =>
      obtain ⟨whole, room⟩ := taken.going rfl
      obtain ⟨front, stopped, enough⟩ := inductionHypothesis later
        fun other member => positive other (List.mem_cons_of_mem _ member)
      have nonempty := List.length_pos_of_ne_nil (room (positive call List.mem_cons_self))
      rw [whole]
      refine ⟨List.prefix_append_right_inj data |>.mpr front, fun error same => ?_, fun short => ?_⟩
      · obtain ⟨all, ended⟩ := stopped error same
        exact ⟨congrArg (data ++ ·) all, ended⟩
      · refine enough ?_
        have bound : (data ++ (later.yields cipher).bytes).length < rest.length + 1 := short
        rw [List.length_append] at bound
        have handed : 0 < data.length := nonempty
        omega

/-! ### Dumps written in pieces -/

variable (destination : Destination)

/-- Writes pieces one after another, up to the first error. -/
def Writer.writeAll : List Bytes → Writer → Sink → Option Err × Writer × Sink
  | [], writer, sink => (none, writer, sink)
  | piece :: rest, writer, sink =>
    match writer.write cipher destination sink piece with
    | (some err, next, sink) => (some err, next, sink)
    | (none, next, sink) => Writer.writeAll rest next sink

/-- Opens a dump, writes pieces and closes it. -/
def writeDump (entropy : Entropy) (password : Bytes) (pieces : List Bytes) : Except Err Bytes :=
  match newWriter cipher destination entropy password {} with
  | (.error err, _) => .error err
  | (.ok writer, sink) =>
    match writer.writeAll cipher destination pieces sink with
    | (some err, _, _) => .error err
    | (none, writer, sink) =>
      match writer.close cipher destination sink with
      | (some err, _, _) => .error err
      | (none, _, sink) => .ok sink.written

theorem writeAll_holds (password : Bytes) (pieces : List Bytes) (writer : Writer) (sink : Sink)
    (plain : Bytes) (holds : writer.Holds cipher password sink plain)
    (succeeded : (writer.writeAll cipher destination pieces sink).1 = none) :
    (writer.writeAll cipher destination pieces sink).2.1.Holds cipher password
      (writer.writeAll cipher destination pieces sink).2.2 (plain ++ pieces.flatten) := by
  induction pieces generalizing writer sink plain with
  | nil =>
    rw [List.flatten_nil, List.append_nil]
    exact holds
  | cons piece rest inductionHypothesis =>
    have held := write_holds cipher destination password writer sink plain piece holds
    rw [Writer.writeAll] at succeeded ⊢
    rcases written : writer.write cipher destination sink piece with ⟨err, next, later⟩
    rw [written] at held succeeded
    cases err with
    | some err => cases succeeded
    | none =>
      rw [List.flatten_cons, ← List.append_assoc]
      exact inductionHypothesis next later _ (held rfl) succeeded

theorem writeAll_of_takes (takes : ∀ call, destination.write call = none) (password : Bytes)
    (pieces : List Bytes) (writer : Writer) (sink : Sink) (plain : Bytes)
    (holds : writer.Holds cipher password sink plain) :
    (writer.writeAll cipher destination pieces sink).1 = none := by
  induction pieces generalizing writer sink plain with
  | nil => rfl
  | cons piece rest inductionHypothesis =>
    have wrote := (writer_of_takes cipher destination takes password writer sink plain piece
      holds).1
    have held := write_holds cipher destination password writer sink plain piece holds wrote
    rw [Writer.writeAll]
    split
    · rename_i err next later failed
      cases wrote.symm.trans (congrArg Prod.fst failed)
    · rename_i next later written
      rw [written] at held
      exact inductionHypothesis next later _ held

/-- A dump that was written without an error is opened to a reader that yields the pieces. -/
theorem writeDump_reads (lawful : cipher.Lawful) (entropy : Entropy) (password : Bytes)
    (pieces : List Bytes) (written : Bytes)
    (succeeded : writeDump cipher destination entropy password pieces = .ok written) :
    ∃ reader, makeReader cipher ⟨written, none⟩ password = .ok reader ∧
      reader.yields cipher = ⟨pieces.flatten, none⟩ := by
  unfold writeDump at succeeded
  have started := newWriter_holds cipher destination entropy password
  rcases created : newWriter cipher destination entropy password {} with ⟨outcome, sink⟩
  rw [created] at succeeded started
  cases outcome with
  | error err => cases succeeded
  | ok writer =>
    have held := writeAll_holds cipher destination password pieces writer sink []
      (started writer rfl)
    rcases wrote : writer.writeAll cipher destination pieces sink with ⟨err, next, later⟩
    simp only [wrote] at succeeded held
    cases err with
    | some err => cases succeeded
    | none =>
      have reads := close_reads cipher lawful destination password next later _ (held rfl)
      rcases closed : next.close cipher destination later with ⟨err, _, final⟩
      simp only [closed] at succeeded reads
      cases err with
      | some err => cases succeeded
      | none =>
        cases succeeded
        have opened := reads rfl
        rw [dumpSource, List.nil_append] at opened
        cases isReader : makeReader cipher ⟨final.written, none⟩ password with
        | error err =>
          rw [isReader] at opened
          cases opened
        | ok reader =>
          rw [isReader] at opened
          exact ⟨reader, rfl, Except.ok.inj opened⟩

theorem writeDump_of_takes (takes : ∀ call, destination.write call = none) (entropy : Entropy)
    (password : Bytes) (pieces : List Bytes) (salts : ∃ salt, entropy.salt = .ok salt)
    (nonces : ∃ noncePfx, entropy.noncePfx = .ok noncePfx) :
    ∃ written, writeDump cipher destination entropy password pieces = .ok written := by
  obtain ⟨writer, created⟩ := newWriter_of_takes cipher destination takes entropy password salts
    nonces
  have started := newWriter_holds cipher destination entropy password writer created
  unfold writeDump
  rcases opened : newWriter cipher destination entropy password {} with ⟨outcome, sink⟩
  rw [opened] at created started
  cases created
  have wrote := writeAll_of_takes cipher destination takes password pieces writer sink [] started
  have held := writeAll_holds cipher destination password pieces writer sink [] started wrote
  rcases written : writer.writeAll cipher destination pieces sink with ⟨err, next, later⟩
  rw [written] at wrote held
  cases wrote
  have ended := (writer_of_takes cipher destination takes password next later _ [] held).2
  rcases closed : next.close cipher destination later with ⟨err, last, final⟩
  rw [closed] at ended
  cases ended
  exact ⟨final.written, by simp only [written, closed]⟩

/-- A dump that was written in pieces is read back as the pieces put together, whatever the password
and the buffers: reads deliver a front part of them, end only after all of them and with the end of
the stream, and end after at most one read for each byte. Writing it succeeds when the destination
takes every write and there is randomness. -/
theorem dump_round_trip (lawful : cipher.Lawful) (entropy : Entropy) (password : Bytes)
    (pieces : List Bytes) :
    (∀ written, writeDump cipher destination entropy password pieces = .ok written →
      ∃ reader, makeReader cipher ⟨written, none⟩ password = .ok reader ∧
        ∀ calls : List ReadCall, (∀ call ∈ calls, 0 < call.size) →
          (reader.readAll cipher calls).1 <+: pieces.flatten ∧
          (∀ err, (reader.readAll cipher calls).2 = some err →
            (reader.readAll cipher calls).1 = pieces.flatten ∧ err = eof) ∧
          (pieces.flatten.length < calls.length →
            (reader.readAll cipher calls).2 = some eof)) ∧
      ((∀ call, destination.write call = none) → (∃ salt, entropy.salt = .ok salt) →
        (∃ noncePfx, entropy.noncePfx = .ok noncePfx) →
        ∃ written, writeDump cipher destination entropy password pieces = .ok written) := by
  refine ⟨fun written succeeded => ?_, fun takes =>
    writeDump_of_takes cipher destination takes entropy password pieces⟩
  obtain ⟨reader, opened, yields⟩ :=
    writeDump_reads cipher destination lawful entropy password pieces written succeeded
  refine ⟨reader, opened, fun calls positive => ?_⟩
  have read := readAll_yields cipher calls reader positive
  rw [yields] at read
  exact read

end

/-- An encrypted dump of two pieces and an empty one, read byte by byte. -/
theorem dump_round_trip_byte_by_byte :
    ∃ written reader,
      writeDump sampleCipher ⟨fun _ => none, none⟩
        ⟨.ok ⟨List.replicate 16 7, rfl⟩, .ok ⟨List.replicate 4 9, rfl⟩⟩ (str "secret")
        [str "ab", [], str "c"] = .ok written ∧
      makeReader sampleCipher ⟨written, none⟩ (str "secret") = .ok reader ∧
      reader.readAll sampleCipher (List.replicate 4 ⟨1, 0, false⟩) = (str "abc", some eof) := by
  obtain ⟨reads, writes⟩ := dump_round_trip sampleCipher ⟨fun _ => none, none⟩ sampleCipher_lawful
    ⟨.ok ⟨List.replicate 16 7, rfl⟩, .ok ⟨List.replicate 4 9, rfl⟩⟩ (str "secret")
    [str "ab", [], str "c"]
  obtain ⟨written, succeeded⟩ := writes (fun _ => rfl) ⟨_, rfl⟩ ⟨_, rfl⟩
  obtain ⟨reader, opened, delivers⟩ := reads written succeeded
  obtain ⟨_, stopped, enough⟩ := delivers (List.replicate 4 ⟨1, 0, false⟩) (by decide)
  have ended := enough (by decide)
  exact ⟨written, reader, succeeded, opened, Prod.ext (stopped eof ended).1 ended⟩

end Backup

end ConsensusDB
