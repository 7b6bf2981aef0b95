/-
This file is `pkg/backup/crypto.go`: the container a dump is written in. A
header names the mode. A plain dump follows it as it is; an encrypted one is cut
into chunks, each sealed under a nonce that holds a counter and a flag, and only
the last chunk carries the flag, so that a reader can tell a dump that was cut
short from a whole one.

The key derivation and the cipher are third-party code and a parameter. A
destination may fail at every write, and a source may end or fail anywhere. What
is proved is the round trip: when no write failed, the reader with the same
password yields the bytes that were written and ends cleanly.
-/

import Mathlib.Data.Nat.Bitwise
import ConsensusDB.Lib.Stream
import ConsensusDB.Data

namespace ConsensusDB

open Wire Stream

namespace Backup

/-! ### The format -/

def magic : Bytes := str "CDBBAK"

def formatVer : UInt8 := 1

def modePlain : UInt8 := 0

def modeEncrypt : UInt8 := 1

def chunkSize : Nat := 64 * 1024

def saltLen : Nat := 16

def noncePfxLen : Nat := 4

def lastFlagBit : UInt32 := 0x80000000

def argonMemKiB : UInt32 := 64 * 1024

def argonTimeCost : UInt32 := 3

def argonThreads : UInt8 := 4

/-- `argon2.IDKey` with a key of 32 bytes, and the AES-256-GCM it is used for. -/
structure Cipher where
  idKey : (password salt : Bytes) → (time memory : UInt32) → (threads : UInt8) → Bytes
  gcmSeal : (key nonce plain : Bytes) → Bytes
  gcmOpen : (key nonce sealed : Bytes) → Option Bytes

/-- What the container relies on: sealing adds a tag of 16 bytes, and what was sealed opens under
the same key and nonce. -/
structure Cipher.Lawful (cipher : Cipher) : Prop where
  length_seal : ∀ key nonce plain, (cipher.gcmSeal key nonce plain).length = plain.length + 16
  open_seal : ∀ key nonce plain,
    cipher.gcmOpen key nonce (cipher.gcmSeal key nonce plain) = some plain

/-- The random bytes of one dump, or the error of the generator. -/
structure Entropy where
  salt : Except Err { bytes : Bytes // bytes.length = saltLen }
  noncePfx : Except Err { bytes : Bytes // bytes.length = noncePfxLen }

def header (mode : UInt8) (salt noncePfx : Bytes) : Bytes :=
  magic ++ [formatVer, mode] ++
    if mode = modeEncrypt then
      putUint32 argonMemKiB ++ putUint32 argonTimeCost ++
        [argonThreads, UInt8.ofNat salt.length] ++ salt ++ noncePfx
    else []

/-- The nonce of a chunk: the random bytes, the low seven bytes of the counter, the flag. -/
def nonce (noncePfx : Bytes) (counter : UInt64) (last : Bool) : Bytes :=
  noncePfx ++ (putUint64 counter).drop 1 ++ [if last then 1 else 0]

/-- The header of a frame: the length of the sealed chunk, and the flag in the top bit. -/
def frameHeader (length : Nat) (last : Bool) : UInt32 :=
  if last then UInt32.ofNat length ||| lastFlagBit else UInt32.ofNat length

/-! ### Writing -/

/-- Where a dump goes: which writes fail, each after a number of bytes, and whether closing
fails. -/
structure Destination where
  write : Nat → Option (Nat × Err)
  close : Option Err

/-- What a destination has received, and in how many writes. -/
structure Sink where
  written : Bytes := []
  calls : Nat := 0

def Sink.write (destination : Destination) (sink : Sink) (data : Bytes) : Option Err × Sink :=
  match destination.write sink.calls with
  | none => (none, ⟨sink.written ++ data, sink.calls + 1⟩)
  | some (count, err) => (some err, ⟨sink.written ++ data.take count, sink.calls + 1⟩)

/-- A `cipher.AEAD` in use: its key, and what `Seal` was called with so far, the nonce and the
plaintext of each call. -/
structure Aead where
  key : Bytes
  sealed : List (Bytes × Bytes) := []

/-- `Seal`, through which everything is encrypted. -/
def Aead.seal (cipher : Cipher) (aead : Aead) (nonce plain : Bytes) : Bytes × Aead :=
  (cipher.gcmSeal aead.key nonce plain, { aead with sealed := aead.sealed ++ [(nonce, plain)] })

/-- The encrypting writer. Its buffer always has room, since a full one is sealed at once. -/
structure EncWriter where
  aead : Aead
  noncePfx : Bytes
  counter : UInt64
  buf : Bytes
  room : buf.length < chunkSize
  closed : Bool

theorem room_nil : ([] : Bytes).length < chunkSize := by decide

section

variable (cipher : Cipher) (destination : Destination)

/-- Seals a chunk and empties the buffer. -/
def EncWriter.sealChunk (writer : EncWriter) (sink : Sink) (chunk : Bytes) (last : Bool) :
    Option Err × EncWriter × Sink :=
  let ct := writer.aead.seal cipher (nonce writer.noncePfx writer.counter last) chunk
  let next : EncWriter :=
    { writer with
      aead := ct.2
      counter := writer.counter + 1
      buf := []
      room := room_nil }
  match sink.write destination (putUint32 (frameHeader ct.1.length last)) with
  | (some err, sink) => (some err, next, sink)
  | (none, sink) =>
    let outcome := sink.write destination ct.1
    (outcome.1, next, outcome.2)

/-- The loop of `Write`: fills the buffer and seals it whenever it is full. -/
def EncWriter.fill (writer : EncWriter) (sink : Sink) (data : Bytes) :
    Option Err × EncWriter × Sink :=
  if data = [] then (none, writer, sink)
  else
    let buf := writer.buf ++ data.take (chunkSize - writer.buf.length)
    let rest := data.drop (chunkSize - writer.buf.length)
    if full : buf.length < chunkSize then
      EncWriter.fill { writer with buf := buf, room := full } sink rest
    else
      match writer.sealChunk cipher destination sink buf false with
      | (some err, next, sink) => (some err, next, sink)
      | (none, next, sink) => EncWriter.fill next sink rest
termination_by data.length
decreasing_by
  all_goals
    have nonempty : 0 < data.length := List.length_pos_of_ne_nil (by assumption)
    have room := writer.room
    rw [List.length_drop]
    omega

def EncWriter.write (writer : EncWriter) (sink : Sink) (data : Bytes) :
    Option Err × EncWriter × Sink :=
  if writer.closed then (some (.text "backup: write after close"), writer, sink)
  else writer.fill cipher destination sink data

def EncWriter.close (writer : EncWriter) (sink : Sink) : Option Err × EncWriter × Sink :=
  if writer.closed then (none, writer, sink)
  else { writer with closed := true }.sealChunk cipher destination sink writer.buf true

/-- The two writers of the container. -/
inductive Writer where
  | plain
  | encrypted (writer : EncWriter)

/-- Writes the header. An empty password writes a plain dump. -/
def newWriter (entropy : Entropy) (password : Bytes) (sink : Sink) : Except Err Writer × Sink :=
  if password = [] then
    match sink.write destination (header modePlain [] []) with
    | (some err, sink) => (.error err, sink)
    | (none, sink) => (.ok .plain, sink)
  else
    match entropy.salt with
    | .error err => (.error err, sink)
    | .ok salt =>
      match entropy.noncePfx with
      | .error err => (.error err, sink)
      | .ok noncePfx =>
        let key := cipher.idKey password salt.1 argonTimeCost argonMemKiB argonThreads
        match sink.write destination (header modeEncrypt salt.1 noncePfx.1) with
        | (some err, sink) => (.error err, sink)
        | (none, sink) =>
          (.ok (.encrypted ⟨{ key := key }, noncePfx.1, 0, [], room_nil, false⟩), sink)

def Writer.write (writer : Writer) (sink : Sink) (data : Bytes) : Option Err × Writer × Sink :=
  match writer with
  | .plain =>
    let outcome := sink.write destination data
    (outcome.1, .plain, outcome.2)
  | .encrypted writer =>
    let outcome := writer.write cipher destination sink data
    (outcome.1, .encrypted outcome.2.1, outcome.2.2)

def Writer.close (writer : Writer) (sink : Sink) : Option Err × Writer × Sink :=
  match writer with
  | .plain => (none, .plain, sink)
  | .encrypted writer =>
    let outcome := writer.close cipher destination sink
    (outcome.1, .encrypted outcome.2.1, outcome.2.2)

end

/-! ### Reading -/

def eof : Err := .external "EOF"

def unexpectedEof : Err := .external "unexpected EOF"

/-- The error `io.ReadFull` returns. -/
def shortageErr : Shortage Err → Err
  | .ended => eof
  | .cutShort => unexpectedEof
  | .failed err => err

/-- The decrypting reader. -/
structure EncReader where
  src : Source Err
  key : Bytes
  noncePfx : Bytes
  counter : UInt64 := 0
  plain : Bytes := []
  done : Bool := false

/-- Reads and opens one frame. -/
def EncReader.next (cipher : Cipher) (reader : EncReader) : Except Err EncReader :=
  match readFull 4 reader.src with
  | .error (.failed err) => .error err
  | .error _ => .error (.text "backup: truncated dump (no final chunk)")
  | .ok (head, body) =>
    let last := uint32 head &&& lastFlagBit != 0
    match readFull (uint32 head &&& ~~~lastFlagBit).toNat body with
    | .error shortage => .error (.wrap "backup: truncated frame" (shortageErr shortage))
    | .ok (sealed, rest) =>
      match cipher.gcmOpen reader.key (nonce reader.noncePfx reader.counter last) sealed with
      | none => .error (.text "backup: decryption failed (wrong password or corrupt dump)")
      | some plain =>
        .ok { reader with
          src := rest
          counter := reader.counter + 1
          plain := plain
          done := last }

/-- The length a frame announces. -/
def announced (head : Bytes) : Nat := (uint32 head &&& ~~~lastFlagBit).toNat

/-- The frame is marked as the last one. -/
def marksLast (head : Bytes) : Bool := uint32 head &&& lastFlagBit != 0

/-- A frame is opened exactly when the stream starts with it and the cipher opens it. -/
theorem next_eq_ok_iff (cipher : Cipher) (reader later : EncReader) :
    reader.next cipher = .ok later ↔
      ∃ head sealed rest, reader.src.bytes = head ++ (sealed ++ rest) ∧ head.length = 4 ∧
        sealed.length = announced head ∧
        cipher.gcmOpen reader.key (nonce reader.noncePfx reader.counter (marksLast head)) sealed =
          some later.plain ∧
        later = { reader with
          src := ⟨rest, reader.src.ending⟩
          counter := reader.counter + 1
          plain := later.plain
          done := marksLast head } := by
  constructor
  · intro stepped
    unfold EncReader.next at stepped
    split at stepped
    · cases stepped
    · cases stepped
    · rename_i head body headed
      obtain ⟨isSource, length⟩ := (readFull_eq_ok_iff _ _ _ _).mp headed
      simp only at stepped
      split at stepped
      · cases stepped
      · rename_i sealed rest framed
        obtain ⟨isBody, sealedLength⟩ := (readFull_eq_ok_iff _ _ _ _).mp framed
        split at stepped
        · cases stepped
        · rename_i plain opened
          cases stepped
          refine ⟨head, sealed, rest.bytes, ?_, length, sealedLength, opened, ?_⟩
          · rw [isSource, isBody]
          · rw [isSource, isBody]
            rfl
  · rintro ⟨head, sealed, rest, isSource, length, sealedLength, opened, isLater⟩
    have source : reader.src = ⟨head ++ (sealed ++ rest), reader.src.ending⟩ := by rw [← isSource]
    have headed : readFull 4 reader.src = .ok (head, ⟨sealed ++ rest, reader.src.ending⟩) := by
      rw [source]
      exact readFull_append head _ _ 4 length
    have framed : readFull (uint32 head &&& ~~~lastFlagBit).toNat
        (⟨sealed ++ rest, reader.src.ending⟩ : Source Err) =
          .ok (sealed, ⟨rest, reader.src.ending⟩) :=
      readFull_append sealed rest _ _ sealedLength
    have isOpened : cipher.gcmOpen reader.key
        (nonce reader.noncePfx reader.counter (uint32 head &&& lastFlagBit != 0)) sealed =
          some later.plain := opened
    unfold EncReader.next
    rw [headed]
    simp only [framed, isOpened]
    exact congrArg Except.ok isLater.symm

theorem length_of_next (cipher : Cipher) (reader later : EncReader)
    (stepped : reader.next cipher = .ok later) :
    later.src.bytes.length < reader.src.bytes.length := by
  obtain ⟨head, sealed, rest, layout, headLength, _, _, isLater⟩ :=
    (next_eq_ok_iff cipher reader later).mp stepped
  rw [isLater, layout, List.length_append, List.length_append]
  show rest.length < _
  omega

/-- What the reads of a reader yield: the chunk it holds and those of the frames to come, up to
the last one or up to the first that cannot be read. -/
def EncReader.yields (cipher : Cipher) (reader : EncReader) : Source Err :=
  if reader.done then ⟨reader.plain, none⟩
  else
    match _stepped : reader.next cipher with
    | .error err => ⟨reader.plain, some err⟩
    | .ok later =>
      let rest := EncReader.yields cipher later
      ⟨reader.plain ++ rest.bytes, rest.ending⟩
termination_by reader.src.bytes.length
decreasing_by exact length_of_next cipher reader later _stepped

theorem yields_of_done (cipher : Cipher) (reader : EncReader) (done : reader.done = true) :
    reader.yields cipher = ⟨reader.plain, none⟩ := by
  rw [EncReader.yields, if_pos done]

theorem yields_of_next (cipher : Cipher) (reader later : EncReader) (going : reader.done = false)
    (stepped : reader.next cipher = .ok later) :
    reader.yields cipher =
      ⟨reader.plain ++ (later.yields cipher).bytes, (later.yields cipher).ending⟩ := by
  rw [EncReader.yields, if_neg (by rw [going]; exact Bool.false_ne_true)]
  split
  · rename_i failed
    cases failed.symm.trans stepped
  · rename_i other succeeded
    cases succeeded.symm.trans stepped
    rfl

theorem yields_of_error (cipher : Cipher) (reader : EncReader) (err : Err)
    (going : reader.done = false) (failed : reader.next cipher = .error err) :
    reader.yields cipher = ⟨reader.plain, some err⟩ := by
  rw [EncReader.yields, if_neg (by rw [going]; exact Bool.false_ne_true)]
  split
  · rename_i other
    cases other.symm.trans failed
    rfl
  · rename_i succeeded
    cases succeeded.symm.trans failed

/-- What `NewReader` answers with. -/
inductive Reader where
  | plain (source : Source Err)
  | encrypted (reader : EncReader)

/-- What the reads of a reader yield. -/
def Reader.yields (cipher : Cipher) : Reader → Source Err
  | .plain source => source
  | .encrypted reader => reader.yields cipher

/-- `argon2.IDKey`, which panics when it is given no round or no thread. -/
def Cipher.deriveKey (cipher : Cipher) (password salt : Bytes) (time memory : UInt32)
    (threads : UInt8) : Except String Bytes :=
  if time < 1 then .error "argon2: number of rounds too small"
  else if threads < 1 then .error "argon2: parallelism degree too low"
  else .ok (cipher.idKey password salt time memory threads)

/-- What `NewReader` comes to. -/
inductive Opening where
  | panicked (text : String)
  | failed (err : Err)
  | opened (reader : Reader)

/-- Reads the parameters of the key derivation; a dump is opened with those it names. -/
def newEncReader (cipher : Cipher) (source : Source Err) (password : Bytes) : Opening :=
  match readFull 10 source with
  | .error shortage => .failed (.wrap "backup: read kdf params" (shortageErr shortage))
  | .ok (head, body) =>
    let memKiB := uint32 head
    let timeCost := uint32 (head.drop 4)
    let threads := (head.drop 8).headD 0
    let length := ((head.drop 9).headD 0).toNat
    match readFull (length + noncePfxLen) body with
    | .error shortage => .failed (.wrap "backup: read salt" (shortageErr shortage))
    | .ok (saltAndPfx, rest) =>
      match cipher.deriveKey password (saltAndPfx.take length) timeCost memKiB threads with
      | .error text => .panicked text
      | .ok key =>
        .opened (.encrypted { src := rest, key := key, noncePfx := saltAndPfx.drop length })

/-- Reads the header. -/
def newReader (cipher : Cipher) (source : Source Err) (password : Bytes) : Opening :=
  match readFull (magic.length + 2) source with
  | .error shortage => .failed (.wrap "backup: read header" (shortageErr shortage))
  | .ok (head, body) =>
    let version := (head.drop magic.length).headD 0
    let mode := (head.drop (magic.length + 1)).headD 0
    if head.take magic.length ≠ magic then
      .failed (.text "backup: not a consensusdb dump (bad magic)")
    else if version ≠ formatVer then
      .failed (.text ("backup: unsupported format version " ++ version.toNat.repr))
    else if mode = modePlain then
      if password ≠ [] then .failed (.text "backup: dump is not encrypted, no password needed")
      else .opened (.plain body)
    else if mode = modeEncrypt then
      if password = [] then .failed (.text "backup: dump is encrypted, a password is required")
      else newEncReader cipher body password
    else .failed (.text ("backup: unknown mode " ++ mode.toNat.repr))

/-- The reader or the error of an opening; the text of a panic stands for an error. -/
def Opening.answer : Opening → Except Err Reader
  | .panicked text => .error (.external text)
  | .failed err => .error err
  | .opened reader => .ok reader

/-- The reader of a dump, for callers that do not tell a panic from an error. -/
def makeReader (cipher : Cipher) (source : Source Err) (password : Bytes) : Except Err Reader :=
  (newReader cipher source password).answer

/-- The bytes that reads of a dump yield, and how they end. -/
def dumpSource (cipher : Cipher) (source : Source Err) (password : Bytes) :
    Except Err (Source Err) :=
  (makeReader cipher source password).map (Reader.yields cipher)

/-! ### Headers -/

/-- The bytes of an encrypted dump: the header, the parameters of the key derivation, the salt of
the length they name, the random bytes of the nonces, and what follows. -/
structure EncHeader (bytes params salt noncePfx frames : Bytes) : Prop where
  layout : bytes = magic ++ [formatVer, modeEncrypt] ++ (params ++ (salt ++ noncePfx ++ frames))
  paramsLength : params.length = 10
  saltLength : salt.length = ((params.drop 9).headD 0).toNat
  noncePfxLength : noncePfx.length = noncePfxLen

def kdfMemory (params : Bytes) : UInt32 := uint32 params

def kdfRounds (params : Bytes) : UInt32 := uint32 (params.drop 4)

def kdfThreads (params : Bytes) : UInt8 := (params.drop 8).headD 0

section

variable (cipher : Cipher)

/-- Opening an encrypted dump with a password derives the key its header asks for. -/
theorem newReader_of_header (source : Source Err) (password : Bytes) (isProtected : password ≠ [])
    (params salt noncePfx frames : Bytes)
    (header : EncHeader source.bytes params salt noncePfx frames) :
    newReader cipher source password =
      match cipher.deriveKey password salt (kdfRounds params) (kdfMemory params)
        (kdfThreads params) with
      | .error text => .panicked text
      | .ok key => .opened (.encrypted
          { src := ⟨frames, source.ending⟩, key := key, noncePfx := noncePfx }) := by
  obtain ⟨layout, paramsLength, saltLength, noncePfxLength⟩ := header
  have headed : readFull (magic.length + 2) source =
      .ok (magic ++ [formatVer, modeEncrypt],
        ⟨params ++ (salt ++ noncePfx ++ frames), source.ending⟩) :=
    (readFull_eq_ok_iff _ _ _ _).mpr ⟨by rw [← layout], rfl⟩
  have paramsRead : readFull 10 (⟨params ++ (salt ++ noncePfx ++ frames), source.ending⟩ :
      Source Err) = .ok (params, ⟨salt ++ noncePfx ++ frames, source.ending⟩) :=
    readFull_append _ _ _ _ paramsLength
  have saltRead : readFull (((params.drop 9).headD 0).toNat + noncePfxLen)
      (⟨salt ++ noncePfx ++ frames, source.ending⟩ : Source Err) =
        .ok (salt ++ noncePfx, ⟨frames, source.ending⟩) :=
    readFull_append _ _ _ _ (by rw [List.length_append, saltLength, noncePfxLength])
  unfold newReader
  rw [headed]
  simp only
  rw [if_neg (by decide), if_neg (by decide), if_neg (by decide), if_pos (by decide),
    if_neg isProtected]
  unfold newEncReader
  rw [paramsRead]
  simp only
  rw [saltRead]
  simp only
  rw [← saltLength, List.take_left, List.drop_left]
  rfl

/-- The header of a dump of a mode, from its parts. -/
theorem head_of_parts (head : Bytes) (length : head.length = magic.length + 2)
    (isMagic : head.take magic.length = magic) (version mode : UInt8)
    (isVersion : (head.drop magic.length).headD 0 = version)
    (isMode : (head.drop (magic.length + 1)).headD 0 = mode) : head = magic ++ [version, mode] := by
  have behind : (head.drop magic.length).length = 2 := by
    rw [List.length_drop, length, Nat.add_sub_cancel_left]
  obtain ⟨first, second, isPair⟩ := List.length_eq_two.mp behind
  rw [← List.drop_drop, isPair] at isMode
  rw [isPair] at isVersion
  rw [← List.take_append_drop magic.length head, isMagic, isPair]
  exact congrArg (magic ++ ·) (congrArg₂ (fun early late => [early, late]) isVersion isMode)

/-- `newEncReader` fails, or its stream starts with parameters, a salt of the length they name and
the random bytes of the nonces. -/
theorem newEncReader_cases (source : Source Err) (password : Bytes) :
    (∃ err, newEncReader cipher source password = .failed err) ∨
      ∃ params salt noncePfx frames, source.bytes = params ++ (salt ++ noncePfx ++ frames) ∧
        params.length = 10 ∧ salt.length = ((params.drop 9).headD 0).toNat ∧
        noncePfx.length = noncePfxLen := by
  unfold newEncReader
  split
  · exact Or.inl ⟨_, rfl⟩
  · rename_i params rest paramsRead
    obtain ⟨isSource, paramsLength⟩ := (readFull_eq_ok_iff _ _ _ _).mp paramsRead
    simp only
    split
    · exact Or.inl ⟨_, rfl⟩
    · rename_i saltAndPfx frames saltRead
      obtain ⟨isRest, length⟩ := (readFull_eq_ok_iff _ _ _ _).mp saltRead
      refine Or.inr ⟨params, saltAndPfx.take ((params.drop 9).headD 0).toNat,
        saltAndPfx.drop ((params.drop 9).headD 0).toNat, frames.bytes, ?_, paramsLength, ?_, ?_⟩
      · rw [isSource, isRest, List.take_append_drop]
      · rw [List.length_take, length, Nat.min_eq_left (Nat.le_add_right _ _)]
      · rw [List.length_drop, length, Nat.add_sub_cancel_left]

/-- `NewReader` fails, or reads a plain dump without a password, or an encrypted one with a
password. -/
theorem newReader_cases (source : Source Err) (password : Bytes) :
    (∃ err, newReader cipher source password = .failed err) ∨
      (password = [] ∧ ∃ body, newReader cipher source password = .opened (.plain body)) ∨
      (password ≠ [] ∧ ∃ params salt noncePfx frames,
        EncHeader source.bytes params salt noncePfx frames) := by
  unfold newReader
  split
  · exact Or.inl ⟨_, rfl⟩
  · rename_i head body headed
    obtain ⟨isSource, length⟩ := (readFull_eq_ok_iff _ _ _ _).mp headed
    simp only
    split
    · exact Or.inl ⟨_, rfl⟩
    · rename_i isMagic
      split
      · exact Or.inl ⟨_, rfl⟩
      · rename_i isVersion
        split
        · split
          · exact Or.inl ⟨_, rfl⟩
          · rename_i unprotected
            exact Or.inr (Or.inl ⟨not_not.mp unprotected, _, rfl⟩)
        · split
          · rename_i isMode
            split
            · exact Or.inl ⟨_, rfl⟩
            · rename_i isProtected
              have isHead := head_of_parts head length (not_not.mp isMagic) formatVer modeEncrypt
                (not_not.mp isVersion) isMode
              rcases newEncReader_cases cipher body password with
                failed | ⟨params, salt, noncePfx, frames, isBody, lengths⟩
              · exact Or.inl failed
              · refine Or.inr (Or.inr ⟨isProtected, params, salt, noncePfx, frames, ?_, lengths.1,
                  lengths.2.1, lengths.2.2⟩)
                rw [isSource, isHead, isBody]
          · exact Or.inl ⟨_, rfl⟩

theorem deriveKey_of_nonzero (password salt : Bytes) (time memory : UInt32) (threads : UInt8)
    (rounds : time ≠ 0) (parallel : threads ≠ 0) :
    cipher.deriveKey password salt time memory threads =
      .ok (cipher.idKey password salt time memory threads) := by
  have enoughRounds : ¬ time < 1 := fun none => rounds (UInt32.lt_one_iff.mp none)
  have enoughThreads : ¬ threads < 1 := fun none => parallel (UInt8.lt_one_iff.mp none)
  rw [Cipher.deriveKey, if_neg enoughRounds, if_neg enoughThreads]

theorem deriveKey_panics (password salt : Bytes) (time memory : UInt32) (threads : UInt8)
    (zero : ¬ (time ≠ 0 ∧ threads ≠ 0)) :
    ∃ text, cipher.deriveKey password salt time memory threads = .error text := by
  unfold Cipher.deriveKey
  by_cases rounds : time < 1
  · exact ⟨_, if_pos rounds⟩
  · rw [if_neg rounds]
    refine ⟨_, if_pos ?_⟩
    by_contra parallel
    refine zero ⟨fun none => rounds (none ▸ by decide), fun none => parallel (none ▸ by decide)⟩

end

/-! ### Frames -/

section

variable (length : Nat) (short : length < 2 ^ 31)

include short in
theorem frameHeader_toNat (last : Bool) :
    (frameHeader length last).toNat = if last then 2 ^ 31 + length else length := by
  have number : (UInt32.ofNat length).toNat = length :=
    UInt32.toNat_ofNat_of_lt' (Nat.lt_trans short (by decide))
  unfold frameHeader
  cases last with
  | false => exact number
  | true =>
    rw [if_pos rfl, if_pos rfl, UInt32.toNat_or, number, Nat.or_comm]
    have sum := Nat.two_pow_add_eq_or_of_lt short 1
    rw [Nat.mul_one] at sum
    exact sum.symm

include short in
/-- The reader finds the flag of a frame. -/
theorem frameHeader_last (last : Bool) : (frameHeader length last &&& lastFlagBit != 0) = last := by
  have flag : (frameHeader length last &&& lastFlagBit).toNat =
      ((frameHeader length last).toNat.testBit 31).toNat * 2 ^ 31 := by
    rw [UInt32.toNat_and]
    exact Nat.and_two_pow _ 31
  rw [frameHeader_toNat length short] at flag
  cases last with
  | false =>
    rw [if_neg Bool.false_ne_true, Nat.testBit_lt_two_pow short] at flag
    exact bne_eq_false_iff_eq.mpr (UInt32.toNat.inj flag)
  | true =>
    rw [if_pos rfl, Nat.testBit_two_pow_add_eq, Nat.testBit_lt_two_pow short] at flag
    refine bne_iff_ne.mpr fun zero => ?_
    rw [zero] at flag
    cases flag

include short in
/-- The reader finds the length of a frame. -/
theorem frameHeader_length (last : Bool) :
    (frameHeader length last &&& ~~~lastFlagBit).toNat = length := by
  rw [UInt32.toNat_and]
  have mask : (~~~lastFlagBit).toNat = 2 ^ 31 - 1 := by decide
  rw [mask, Nat.and_two_pow_sub_one_eq_mod, frameHeader_toNat length short]
  cases last with
  | false => exact Nat.mod_eq_of_lt short
  | true =>
    rw [if_pos rfl, Nat.add_mod_left]
    exact Nat.mod_eq_of_lt short

end

section

variable (cipher : Cipher) (lawful : cipher.Lawful) (key noncePfx : Bytes)

theorem counter_succ (counter : UInt64) (count : Nat) :
    counter + 1 + UInt64.ofNat count = counter + UInt64.ofNat (count + 1) := by
  rw [UInt64.ofNat_add, UInt64.add_assoc, UInt64.add_comm 1]
  rfl

/-- The frame of a chunk. -/
def frame (counter : UInt64) (last : Bool) (chunk : Bytes) : Bytes :=
  let sealed := cipher.gcmSeal key (nonce noncePfx counter last) chunk
  putUint32 (frameHeader sealed.length last) ++ sealed

/-- The frames of chunks before the last. -/
def frames : UInt64 → List Bytes → Bytes
  | _, [] => []
  | counter, chunk :: rest =>
    frame cipher key noncePfx counter false chunk ++ frames (counter + 1) rest

theorem frames_snoc (counter : UInt64) (chunks : List Bytes) (chunk : Bytes) :
    frames cipher key noncePfx counter (chunks ++ [chunk]) =
      frames cipher key noncePfx counter chunks ++
        frame cipher key noncePfx (counter + UInt64.ofNat chunks.length) false chunk := by
  induction chunks generalizing counter with
  | nil =>
    have start : counter + UInt64.ofNat ([] : List Bytes).length = counter :=
      UInt64.add_zero counter
    rw [start, List.nil_append, frames, frames, frames, List.append_nil, List.nil_append]
  | cons first rest inductionHypothesis =>
    rw [List.cons_append, frames, frames, inductionHypothesis, counter_succ, List.length_cons,
      List.append_assoc]

include lawful in
/-- The reader opens the frame of a chunk. -/
theorem next_frame (reader : EncReader) (counter : UInt64) (last : Bool) (chunk rest : Bytes)
    (ending : Option Err) (bounded : chunk.length ≤ chunkSize)
    (keyed : reader.key = key) (nonced : reader.noncePfx = noncePfx)
    (counted : reader.counter = counter)
    (ahead : reader.src = ⟨frame cipher key noncePfx counter last chunk ++ rest, ending⟩) :
    reader.next cipher = .ok { reader with
      src := ⟨rest, ending⟩
      counter := counter + 1
      plain := chunk
      done := last } := by
  subst keyed nonced counted
  have short : (cipher.gcmSeal reader.key (nonce reader.noncePfx reader.counter last)
      chunk).length < 2 ^ 31 := by
    rw [lawful.length_seal]
    have bound : chunk.length ≤ 65536 := bounded
    omega
  unfold EncReader.next
  rw [ahead, frame, List.append_assoc,
    readFull_append _ _ ending 4 (putUint32_length _)]
  have word := uint32_putUint32_append (frameHeader (cipher.gcmSeal reader.key
    (nonce reader.noncePfx reader.counter last) chunk).length last) []
  rw [List.append_nil] at word
  simp only [word]
  rw [frameHeader_last _ short, frameHeader_length _ short, readFull_append _ _ ending _ rfl]
  simp only [lawful.open_seal]

include lawful in
/-- The reader yields the chunks of the frames ahead and ends after the last. -/
theorem yields_frames (chunks : List Bytes) (bounded : ∀ chunk ∈ chunks, chunk.length ≤ chunkSize)
    (final : Bytes) (finalBounded : final.length ≤ chunkSize) (reader : EncReader)
    (keyed : reader.key = key) (nonced : reader.noncePfx = noncePfx) (going : reader.done = false)
    (ahead : reader.src = ⟨frames cipher key noncePfx reader.counter chunks ++
      frame cipher key noncePfx (reader.counter + UInt64.ofNat chunks.length) true final, none⟩) :
    reader.yields cipher = ⟨reader.plain ++ (chunks.flatten ++ final), none⟩ := by
  induction chunks generalizing reader with
  | nil =>
    have start : reader.counter + UInt64.ofNat ([] : List Bytes).length = reader.counter :=
      UInt64.add_zero _
    rw [start, frames, List.nil_append, ← List.append_nil (frame _ _ _ _ _ _)] at ahead
    rw [yields_of_next cipher reader _ going (next_frame cipher lawful key noncePfx reader _ true
      final [] none finalBounded keyed nonced rfl ahead), yields_of_done cipher _ rfl]
    rfl
  | cons chunk rest inductionHypothesis =>
    rw [List.length_cons, ← counter_succ, frames, List.append_assoc] at ahead
    have stepped := next_frame cipher lawful key noncePfx reader _ false chunk _ none
      (bounded chunk List.mem_cons_self) keyed nonced rfl ahead
    have later := inductionHypothesis
      (fun other member => bounded other (List.mem_cons_of_mem _ member))
      { reader with
        src := ⟨frames cipher key noncePfx (reader.counter + 1) rest ++
          frame cipher key noncePfx (reader.counter + 1 + UInt64.ofNat rest.length) true final,
          none⟩
        counter := reader.counter + 1
        plain := chunk
        done := false }
      keyed nonced rfl rfl
    rw [yields_of_next cipher reader _ going stepped, later, List.flatten_cons, List.append_assoc]

end

/-! ### The round trip -/

theorem write_succeeds (destination : Destination) (sink : Sink) (data : Bytes)
    (succeeded : (sink.write destination data).1 = none) :
    (sink.write destination data).2.written = sink.written ++ data := by
  unfold Sink.write at succeeded ⊢
  cases failure : destination.write sink.calls with
  | none => rfl
  | some failure =>
    rw [failure] at succeeded
    cases succeeded

section

variable (cipher : Cipher) (lawful : cipher.Lawful) (destination : Destination)

theorem sealChunk_succeeds (writer : EncWriter) (sink : Sink) (chunk : Bytes) (last : Bool)
    (succeeded : (writer.sealChunk cipher destination sink chunk last).1 = none) :
    (writer.sealChunk cipher destination sink chunk last).2.2.written =
      sink.written ++ frame cipher writer.aead.key writer.noncePfx writer.counter last chunk := by
  unfold EncWriter.sealChunk at succeeded ⊢
  simp only at succeeded ⊢
  split at succeeded
  · cases succeeded
  · rename_i headed written
    have head := write_succeeds destination sink _ (congrArg Prod.fst written)
    rw [written] at head
    rw [write_succeeds destination _ _ succeeded, head, frame, List.append_assoc]
    rfl

/-- A writer that has sealed a chunk. -/
def EncWriter.emptied (writer : EncWriter) (chunk : Bytes) (last : Bool) : EncWriter :=
  { writer with
    aead := { writer.aead with
      sealed := writer.aead.sealed ++ [(nonce writer.noncePfx writer.counter last, chunk)] }
    counter := writer.counter + 1
    buf := []
    room := room_nil }

/-- Sealing empties the writer, whether or not the frame reaches the destination. -/
theorem sealChunk_next (writer : EncWriter) (sink : Sink) (chunk : Bytes) (last : Bool) :
    (writer.sealChunk cipher destination sink chunk last).2.1 = writer.emptied chunk last := by
  unfold EncWriter.sealChunk
  simp only
  split
  · rfl
  · rfl

/-- What an open encrypting writer has done with the bytes it was given: some are sealed in the
frames behind the header, and the rest is in the buffer. -/
def EncWriter.Holds (key noncePfx start : Bytes) (writer : EncWriter) (sink : Sink)
    (plain : Bytes) : Prop :=
  (writer.aead.key = key ∧ writer.noncePfx = noncePfx ∧ writer.closed = false) ∧
    ∃ chunks : List Bytes, (∀ chunk ∈ chunks, chunk.length ≤ chunkSize) ∧
      plain = chunks.flatten ++ writer.buf ∧
      sink.written = start ++ frames cipher key noncePfx 0 chunks ∧
      writer.counter = UInt64.ofNat chunks.length

theorem sealChunk_holds (key noncePfx start : Bytes) (writer : EncWriter) (sink : Sink)
    (plain more : Bytes) (holds : writer.Holds cipher key noncePfx start sink plain)
    (bounded : (writer.buf ++ more).length ≤ chunkSize)
    (succeeded :
      (writer.sealChunk cipher destination sink (writer.buf ++ more) false).1 = none) :
    (writer.sealChunk cipher destination sink (writer.buf ++ more) false).2.1.Holds cipher key
      noncePfx start (writer.sealChunk cipher destination sink (writer.buf ++ more) false).2.2
      (plain ++ more) := by
  have written := sealChunk_succeeds cipher destination writer sink _ false succeeded
  obtain ⟨⟨rfl, rfl, going⟩, chunks, chunksBounded, rfl, sealed, counted⟩ := holds
  rw [sealChunk_next]
  refine ⟨⟨rfl, rfl, going⟩, chunks ++ [writer.buf ++ more], ?_, ?_, ?_, ?_⟩
  · intro chunk member
    rcases List.mem_append.mp member with earlier | isLast
    · exact chunksBounded chunk earlier
    · rw [List.mem_singleton.mp isLast]
      exact bounded
  · simp [EncWriter.emptied]
  · rw [written, sealed, frames_snoc, counted, UInt64.zero_add, List.append_assoc]
  · dsimp only [EncWriter.emptied]
    rw [counted, List.length_append, UInt64.ofNat_add]
    rfl

theorem fill_holds (key noncePfx start data : Bytes) (writer : EncWriter) (sink : Sink)
    (plain : Bytes) (holds : writer.Holds cipher key noncePfx start sink plain)
    (succeeded : (writer.fill cipher destination sink data).1 = none) :
    (writer.fill cipher destination sink data).2.1.Holds cipher key noncePfx start
      (writer.fill cipher destination sink data).2.2 (plain ++ data) := by
  fun_induction EncWriter.fill cipher destination writer sink data generalizing plain with
  | case1 writer sink =>
    rw [List.append_nil]
    exact holds
  | case2 writer sink data nonempty buf rest full inductionHypothesis =>
    have buffered : EncWriter.Holds cipher key noncePfx start
        { writer with buf := buf, room := full } sink
        (plain ++ data.take (chunkSize - writer.buf.length)) := by
      obtain ⟨going, chunks, bounded, rfl, sealed, counted⟩ := holds
      exact ⟨going, chunks, bounded, List.append_assoc _ _ _, sealed, counted⟩
    have filled := inductionHypothesis _ buffered succeeded
    rw [List.append_assoc, List.take_append_drop] at filled
    exact filled
  | case3 writer sink data nonempty buf full err next later failed =>
    cases succeeded
  | case4 writer sink data nonempty buf rest full next later emptied inductionHypothesis =>
    have bounded : buf.length ≤ chunkSize := by
      have room := writer.room
      rw [List.length_append, List.length_take]
      omega
    have held := sealChunk_holds cipher destination key noncePfx start writer sink plain _ holds
      bounded (congrArg Prod.fst emptied)
    rw [emptied] at held
    have filled := inductionHypothesis _ held succeeded
    rw [List.append_assoc, List.take_append_drop] at filled
    exact filled

/-- What an open writer of a password has done with the bytes it was given. -/
def Writer.Holds (password : Bytes) (writer : Writer) (sink : Sink) (plain : Bytes) : Prop :=
  match writer with
  | .plain => password = [] ∧ sink.written = header modePlain [] [] ++ plain
  | .encrypted writer =>
    password ≠ [] ∧ ∃ salt noncePfx : Bytes, salt.length = saltLen ∧
      noncePfx.length = noncePfxLen ∧
      writer.Holds cipher (cipher.idKey password salt argonTimeCost argonMemKiB argonThreads)
        noncePfx (header modeEncrypt salt noncePfx) sink plain

theorem newWriter_holds (entropy : Entropy) (password : Bytes) (writer : Writer)
    (succeeded : (newWriter cipher destination entropy password {}).1 = .ok writer) :
    writer.Holds cipher password (newWriter cipher destination entropy password {}).2 [] := by
  unfold newWriter at succeeded ⊢
  by_cases unprotected : password = []
  · simp only [if_pos unprotected] at succeeded ⊢
    split at succeeded
    · cases succeeded
    · rename_i sink written
      cases succeeded
      have start := write_succeeds destination {} _ (congrArg Prod.fst written)
      rw [written] at start
      exact ⟨unprotected, start.trans (List.append_nil _).symm⟩
  · simp only [if_neg unprotected] at succeeded ⊢
    cases salted : entropy.salt with
    | error err =>
      rw [salted] at succeeded
      cases succeeded
    | ok salt =>
      cases nonced : entropy.noncePfx with
      | error err =>
        rw [salted, nonced] at succeeded
        cases succeeded
      | ok noncePfx =>
        rw [salted, nonced] at succeeded
        simp only at succeeded ⊢
        split at succeeded
        · cases succeeded
        · rename_i sink written
          cases succeeded
          have start := write_succeeds destination {} _ (congrArg Prod.fst written)
          rw [written] at start
          refine ⟨unprotected, salt.1, noncePfx.1, salt.2, noncePfx.2, ⟨rfl, rfl, rfl⟩, [], ?_, rfl,
            ?_, rfl⟩
          · exact fun _ none => nomatch none
          · exact start.trans (List.append_nil _).symm

theorem write_holds (password : Bytes) (writer : Writer) (sink : Sink) (plain data : Bytes)
    (holds : writer.Holds cipher password sink plain)
    (succeeded : (writer.write cipher destination sink data).1 = none) :
    (writer.write cipher destination sink data).2.1.Holds cipher password
      (writer.write cipher destination sink data).2.2 (plain ++ data) := by
  cases writer with
  | plain =>
    obtain ⟨unprotected, written⟩ := holds
    refine ⟨unprotected, ?_⟩
    show (sink.write destination data).2.written = _
    rw [write_succeeds destination sink data succeeded, written, List.append_assoc]
  | encrypted writer =>
    obtain ⟨isProtected, salt, noncePfx, salted, nonced, held⟩ := holds
    have going : ¬ writer.closed = true := by
      rw [held.1.2.2]
      exact Bool.false_ne_true
    have same : writer.write cipher destination sink data =
        writer.fill cipher destination sink data := if_neg going
    unfold Writer.write at succeeded ⊢
    simp only [same] at succeeded ⊢
    exact ⟨isProtected, salt, noncePfx, salted, nonced,
      fill_holds cipher destination _ _ _ data writer sink plain held succeeded⟩

theorem newReader_plain (plain : Bytes) :
    newReader cipher ⟨header modePlain [] [] ++ plain, none⟩ [] =
      .opened (.plain ⟨plain, none⟩) := by
  unfold newReader
  rw [readFull_append _ plain none _ (by decide)]
  rfl

/-- The header a writer writes is one of an encrypted dump. -/
theorem encHeader_header (salt noncePfx body : Bytes) (salted : salt.length = saltLen)
    (nonced : noncePfx.length = noncePfxLen) :
    EncHeader (header modeEncrypt salt noncePfx ++ body)
      (putUint32 argonMemKiB ++ putUint32 argonTimeCost ++ [argonThreads, 16]) salt noncePfx
      body where
  layout := by
    unfold header
    rw [if_pos rfl, salted]
    simp only [List.append_assoc]
    rfl
  paramsLength := rfl
  saltLength := salted
  noncePfxLength := nonced

/-- The reader derives the key from what the header names. -/
theorem newReader_encrypted (password salt noncePfx body : Bytes) (isProtected : password ≠ [])
    (salted : salt.length = saltLen) (nonced : noncePfx.length = noncePfxLen) :
    newReader cipher ⟨header modeEncrypt salt noncePfx ++ body, none⟩ password =
      .opened (.encrypted
        { src := ⟨body, none⟩
          key := cipher.idKey password salt argonTimeCost argonMemKiB argonThreads
          noncePfx := noncePfx }) := by
  have isHeader := encHeader_header salt noncePfx body salted nonced
  rw [newReader_of_header cipher ⟨_, none⟩ password isProtected _ salt noncePfx body isHeader]
  rfl

include lawful in
/-- Closing a writer without an error leaves a dump that reads back as the bytes written. -/
theorem close_reads (password : Bytes) (writer : Writer) (sink : Sink) (plain : Bytes)
    (holds : writer.Holds cipher password sink plain)
    (succeeded : (writer.close cipher destination sink).1 = none) :
    dumpSource cipher ⟨(writer.close cipher destination sink).2.2.written, none⟩ password =
      .ok ⟨plain, none⟩ := by
  cases writer with
  | plain =>
    obtain ⟨rfl, written⟩ := holds
    show dumpSource cipher ⟨sink.written, none⟩ [] = _
    rw [written, dumpSource, makeReader, newReader_plain]
    rfl
  | encrypted writer =>
    obtain ⟨isProtected, salt, noncePfx, salted, nonced, ⟨keyed, prefixed, going⟩, chunks, bounded,
      rfl, sealed, counted⟩ := holds
    have same : writer.close cipher destination sink =
        { writer with closed := true }.sealChunk cipher destination sink writer.buf true :=
      if_neg (by rw [going]; exact Bool.false_ne_true)
    unfold Writer.close at succeeded ⊢
    simp only [same] at succeeded ⊢
    rw [sealChunk_succeeds cipher destination _ sink _ true succeeded, sealed, List.append_assoc,
      dumpSource, makeReader,
      newReader_encrypted cipher password salt noncePfx _ isProtected salted nonced]
    refine congrArg Except.ok (yields_frames cipher lawful _ noncePfx chunks bounded writer.buf
      (Nat.le_of_lt writer.room) _ rfl rfl rfl ?_)
    dsimp only
    rw [keyed, prefixed, counted, UInt64.zero_add]

end

end Backup

end ConsensusDB
