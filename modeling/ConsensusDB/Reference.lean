/-
This file instantiates the third-party functions, so that the hypotheses of
the development are met by a concrete, executable structure and its
definitions run. The envelope is the 17-byte header the storage code speaks
of; messages are packed with the binary formats of `Lib/Format.lean`. Entries
of the log are built from commands, as the write path builds them.
-/

import ConsensusDB.Lib.Format
import ConsensusDB.Service

namespace ConsensusDB

open Wire

namespace Reference

/-! ### Envelopes, expiries and sortable UUIDs -/

def encodeEnvelope (version expiresAt : Int64) (value : Bytes) : Bytes :=
  1 :: (putUint64 version.toUInt64 ++ (putUint64 expiresAt.toUInt64 ++ value))

/-- A value that is too short for a header is taken as a bare one. -/
def decodeEnvelope (data : Bytes) : Envelope :=
  if data.length < 17 then ⟨0, 0, data⟩
  else ⟨(uint64 (data.drop 1)).toInt64, (uint64 (data.drop 9)).toInt64, data.drop 17⟩

def isExpired (now expiresAt : Int64) : Bool := expiresAt != 0 && decide (expiresAt ≤ now)

/-- The sum of the clock and the time to live; zero, which would mean no expiry, is avoided. -/
def expiryFromTtl (now ttl : Int64) : Int64 := if now + ttl = 0 then 1 else now + ttl

def marshalSortable (uuid : TimeUUID) : Bytes :=
  putUint64 uuid.mostSigBits.toUInt64 ++ putUint64 uuid.leastSigBits.toUInt64

def unmarshalSortable (bytes : Bytes) : TimeUUID :=
  ⟨(uint64 bytes).toInt64, (uint64 (bytes.drop 8)).toInt64⟩

theorem decodeEnvelope_encodeEnvelope (version expiresAt : Int64) (value : Bytes) :
    decodeEnvelope (encodeEnvelope version expiresAt value) = ⟨version, expiresAt, value⟩ := by
  have long : ¬ (encodeEnvelope version expiresAt value).length < 17 := by
    simp only [encodeEnvelope, List.length_cons, List.length_append, putUint64_length]
    omega
  have first : (encodeEnvelope version expiresAt value).drop 1 =
      putUint64 version.toUInt64 ++ (putUint64 expiresAt.toUInt64 ++ value) := rfl
  have second : (encodeEnvelope version expiresAt value).drop 9 =
      putUint64 expiresAt.toUInt64 ++ value := by
    rw [show 9 = 1 + 8 from rfl, ← List.drop_drop, first, List.drop_left' (putUint64_length _)]
  have third : (encodeEnvelope version expiresAt value).drop 17 = value := by
    rw [show 17 = 9 + 8 from rfl, ← List.drop_drop, second, List.drop_left' (putUint64_length _)]
  rw [decodeEnvelope, if_neg long, first, second, third, uint64_putUint64_append,
    uint64_putUint64_append, Int64.toInt64_toUInt64, Int64.toInt64_toUInt64]

theorem unmarshalSortable_marshalSortable (uuid : TimeUUID) :
    unmarshalSortable (marshalSortable uuid) = uuid := by
  rw [unmarshalSortable, marshalSortable, List.drop_left' (putUint64_length _),
    uint64_putUint64_append, uint64_putUint64, Int64.toInt64_toUInt64, Int64.toInt64_toUInt64]

theorem expiryFromTtl_ne_zero (now ttl : Int64) : expiryFromTtl now ttl ≠ 0 := by
  unfold expiryFromTtl
  by_cases zero : now + ttl = 0
  · rw [if_pos zero]
    decide
  · rw [if_neg zero]
    exact zero

/-! ### Message formats -/

def timeUUID : Format TimeUUID :=
  (Format.long.pair Format.long).convert (fun parts => ⟨parts.1, parts.2⟩)
    (fun uuid => (uuid.mostSigBits, uuid.leastSigBits)) fun _ => rfl

def key : Format Key :=
  (Format.bytes.pair (Format.bytes.pair (Format.bytes.pair timeUUID.option))).convert
    (fun parts => ⟨parts.1, parts.2.1, parts.2.2.1, parts.2.2.2⟩)
    (fun key => (key.majorKey, key.regionName, key.minorKey, key.timestamp)) fun _ => rfl

def keyRequest : Format KeyRequest :=
  (key.option.pair (Format.bool.pair Format.int)).convert
    (fun parts => ⟨parts.1, parts.2.1, parts.2.2⟩)
    (fun request => (request.key, request.headOnly, request.timeout)) fun _ => rfl

def recordRequest : Format RecordRequest :=
  (key.option.pair (Format.bytes.pair (Format.int.pair (Format.long.pair (Format.bool.pair
      (Format.word.pair (Format.int.pair Format.long))))))).convert
    (fun parts => ⟨parts.1, parts.2.1, parts.2.2.1, parts.2.2.2.1, parts.2.2.2.2.1,
      parts.2.2.2.2.2.1, parts.2.2.2.2.2.2.1, parts.2.2.2.2.2.2.2⟩)
    (fun request => (request.key, request.value, request.metadata, request.ttlSeconds,
      request.compareAndSet, request.version, request.timeout, request.expiresAt)) fun _ => rfl

def incrementRequest : Format IncrementRequest :=
  (key.option.pair (Format.long.pair (Format.long.pair (Format.long.pair (Format.int.pair
      Format.long))))).convert
    (fun parts => ⟨parts.1, parts.2.1, parts.2.2.1, parts.2.2.2.1, parts.2.2.2.2.1,
      parts.2.2.2.2.2⟩)
    (fun request => (request.key, request.initial, request.delta, request.ttlSeconds,
      request.timeout, request.expiresAt)) fun _ => rfl

def batchRequest : Format BatchRequest :=
  (recordRequest.list.pair Format.int).convert (fun parts => ⟨parts.1, parts.2⟩)
    (fun request => (request.records, request.timeout)) fun _ => rfl

def reclaimEntry : Format ReclaimEntry :=
  (Format.bytes.pair Format.word).convert (fun parts => ⟨parts.1, parts.2⟩)
    (fun entry => (entry.entryKey, entry.version)) fun _ => rfl

def reclaimRequest : Format ReclaimRequest :=
  reclaimEntry.list.convert (fun entries => ⟨entries⟩) (fun request => request.entries) fun _ => rfl

def headRecord : Format HeadRecord :=
  (Format.word.pair Format.bytes).convert (fun parts => ⟨parts.1, parts.2⟩)
    (fun head => (head.index, head.digest)) fun _ => rfl

/-! ### The instance -/

/-- Marshalling writes the message; unmarshalling must consume all of it. -/
def codec {Struct : Type} (format : Format Struct) : StructCodec Bytes Struct where
  marshal message := .ok (format.put message)
  unmarshal value := (format.getAll value).elim (.error (.external "invalid message")) .ok

def unpack : Bytes → Except Err Bytes
  | [] => .error (.external "unexpected end of input")
  | _ :: value => .ok value

def deps : Deps where
  encodeEnvelope := encodeEnvelope
  decodeEnvelope := decodeEnvelope
  isExpired := isExpired
  expiryFromTtl := expiryFromTtl
  marshalSortable := marshalSortable
  unmarshalSortable := unmarshalSortable
  estimatedSize key item := Int64.ofNat (key.length + item.value.length + 2)
  Value := Bytes
  pack value := .ok (1 :: value)
  unpack := unpack
  recordRequest := codec recordRequest
  keyRequest := codec keyRequest
  incrementRequest := codec incrementRequest
  batchRequest := codec batchRequest
  reclaimRequest := codec reclaimRequest
  headRecord := codec headRecord

theorem codec_roundTrips {Struct : Type} (format : Format Struct) :
    deps.RoundTrips (codec format) := by
  intro message
  refine ⟨format.put message, 1 :: format.put message, rfl, rfl, List.cons_ne_nil _ _, rfl, ?_⟩
  show (format.getAll (format.put message)).elim _ _ = _
  rw [format.getAll_put]
  rfl

/-- The instance meets everything the development assumes of the third-party functions. -/
theorem lawful : deps.Lawful where
  envelope := decodeEnvelope_encodeEnvelope
  neverExpires _ := rfl
  expiry now ttl _ := expiryFromTtl_ne_zero now ttl
  sortableLength _ := rfl
  sortable := unmarshalSortable_marshalSortable
  recordRequest := codec_roundTrips recordRequest
  keyRequest := codec_roundTrips keyRequest
  incrementRequest := codec_roundTrips incrementRequest
  batchRequest := codec_roundTrips batchRequest
  reclaimRequest := codec_roundTrips reclaimRequest
  headRecord := codec_roundTrips headRecord

/-! ### Log entries -/

/-- The entry of a command at an index. -/
def entryOf (index : UInt64) (command : Command) : Entry :=
  ⟨index, 1, (encodeCommand deps command).toOption.getD []⟩

theorem encodeCommand_entryOf (index : UInt64) (command : Command) :
    encodeCommand deps command = .ok (entryOf index command).data := by
  cases command <;> rfl

theorem routed_entryOf (index : UInt64) (now : Int64) (request : WriteRequest) :
    Routed deps (entryOf index (request.command deps now)).data :=
  ⟨_, .write now request, encodeCommand_entryOf index _⟩

theorem decodeCommand_entryOf (index : UInt64) (command : Command) :
    decodeCommand deps (entryOf index command).data = .ok command :=
  decodeCommand_encodeCommand deps lawful command _ (encodeCommand_entryOf index command)

/-- A record key of an ordinary tenant. -/
def sampleKey : Key := ⟨str "acme", str "EU", str "orders", none⟩

/-- A put with a time to live of a minute. -/
def samplePut : WriteRequest :=
  .put { key := some sampleKey, value := str "1", ttlSeconds := 60 }

/-- The log of one put, accepted at second 100. -/
def sampleLog : List Entry := [entryOf 1 (samplePut.command deps 100)]

theorem sampleLog_committed : Committed deps sampleLog where
  increasing := List.pairwise_singleton _ _
  positive := by decide
  routed entry member := by
    rw [List.mem_singleton.mp member]
    exact routed_entryOf 1 100 _

end Reference

end ConsensusDB
