/-
This file is the data model: the messages of `pkg/pb`, the errors the code
returns, and the third-party functions the code calls. The latter -- the
record envelope and the expiry helpers of the `store` library, the sortable
form of a UUID, the packing of the `value` library, the size estimate of the
engine -- are not part of the repository, so they are fields of a structure
every definition takes as a parameter, and what the code relies on of them is
the structure `Lawful`.
-/

import ConsensusDB.Lib.Wire
import ConsensusDB.Lib.Mvcc

namespace ConsensusDB

open Wire

/-! ### Errors -/

/-- The errors the modelled code returns: the four of `error.go`, `NotLeaderError`, a denial,
which reads `permission denied: principal requires permission on tenant/region`, those of other
modules, those made from a text of the code's own, and wrapped ones, which read
`context: cause`. -/
inductive Err where
  | indexOutOfBounds
  | emptyKey
  | wrongSize
  | unsupportedOperation
  | notLeader (leaderID leaderAddr leaderEndpoint : String)
  | permissionDenied (principal permission tenant region : Bytes)
  | external (text : String)
  | text (text : String)
  | wrap (context : String) (cause : Err)
  deriving DecidableEq, Repr

/-- Wraps the error of a result in a context. -/
def wrapError {Result : Type} (context : String) : Except Err Result → Except Err Result
  | .error cause => .error (.wrap context cause)
  | .ok result => .ok result

@[simp] theorem wrapError_ok {Result : Type} (context : String) (result : Result) :
    wrapError context (.ok result) = .ok result := rfl

/-! ### Messages

The structs of `pkg/pb` and of the ledger, under their own names. -/

structure TimeUUID where
  mostSigBits : Int64
  leastSigBits : Int64
  deriving DecidableEq, Repr

/-- Tenant, region and record key, with an optional timestamp. -/
structure Key where
  majorKey : Bytes
  regionName : Bytes
  minorKey : Bytes
  timestamp : Option TimeUUID := none
  deriving DecidableEq, Repr

structure KeyRequest where
  key : Option Key
  headOnly : Bool := false
  timeout : Int32 := 0
  deriving DecidableEq, Repr

/-- The direction of a range read; the code knows one. -/
inductive RangeType where
  | lessOrEqual
  | unknown (code : Int32)
  deriving DecidableEq, Repr

structure RangeRequest where
  key : Option Key
  headOnly : Bool := false
  type : RangeType := .lessOrEqual
  numRecords : Int32
  timeout : Int32 := 0
  deriving DecidableEq, Repr

structure RecordRequest where
  key : Option Key
  value : Bytes
  metadata : Int32 := 0
  ttlSeconds : Int64 := 0
  compareAndSet : Bool := false
  version : UInt64 := 0
  timeout : Int32 := 0
  expiresAt : Int64 := 0
  deriving DecidableEq, Repr

structure IncrementRequest where
  key : Option Key
  initial : Int64 := 0
  delta : Int64
  ttlSeconds : Int64 := 0
  timeout : Int32 := 0
  expiresAt : Int64 := 0
  deriving DecidableEq, Repr

structure IncrementResponse where
  previous : Int64
  current : Int64
  version : UInt64
  deriving DecidableEq, Repr

structure BatchRequest where
  records : List RecordRequest
  timeout : Int32 := 0
  deriving DecidableEq, Repr

structure ReclaimEntry where
  entryKey : Bytes
  version : UInt64
  deriving DecidableEq, Repr

structure ReclaimRequest where
  entries : List ReclaimEntry
  deriving DecidableEq, Repr

structure Status where
  updated : Bool
  deriving DecidableEq, Repr

structure Head where
  version : UInt64
  expiresAt : UInt64
  diskSize : Int64
  metadata : Int32
  deriving DecidableEq, Repr

/-- A record without a head was not found. -/
structure Record where
  key : Option Key
  head : Option Head := none
  value : Bytes := []
  deriving DecidableEq, Repr

/-- The persisted chain head. -/
structure HeadRecord where
  index : UInt64
  digest : Bytes
  deriving DecidableEq, Repr

/-! ### Third-party functions -/

/-- `value.Marshal` and `value.Unmarshal` at one struct type. -/
structure StructCodec (Value Struct : Type) where
  marshal : Struct → Except Err Value
  unmarshal : Value → Except Err Struct

/-- The decoded header and payload of a stored value. -/
structure Envelope where
  version : Int64
  expiresAt : Int64
  value : Bytes
  deriving DecidableEq

/-- An entry as the engine stores it. -/
structure Item where
  value : Bytes
  userMeta : UInt8
  deriving DecidableEq, Repr

/-- The functions of other modules the code calls: the envelope and expiry helpers of `store`,
the sortable binary form of `uuid`, the size estimate of an engine item, and `Pack`, `Unpack` and
the struct codecs of `value`. The expiry helpers take the clock reading, in unix seconds, as
their first argument. -/
structure Deps where
  encodeEnvelope : Int64 → Int64 → Bytes → Bytes
  decodeEnvelope : Bytes → Envelope
  isExpired : Int64 → Int64 → Bool
  expiryFromTtl : Int64 → Int64 → Int64
  marshalSortable : TimeUUID → Bytes
  unmarshalSortable : Bytes → TimeUUID
  estimatedSize : Bytes → Item → Int64
  Value : Type
  pack : Value → Except Err Bytes
  unpack : Bytes → Except Err Value
  recordRequest : StructCodec Value RecordRequest
  keyRequest : StructCodec Value KeyRequest
  incrementRequest : StructCodec Value IncrementRequest
  batchRequest : StructCodec Value BatchRequest
  reclaimRequest : StructCodec Value ReclaimRequest
  headRecord : StructCodec Value HeadRecord

/-- Packing a struct succeeds and unpacking gives the struct back. -/
def Deps.RoundTrips (deps : Deps) {Struct : Type} (codec : StructCodec deps.Value Struct) : Prop :=
  ∀ message, ∃ value packed, codec.marshal message = .ok value ∧ deps.pack value = .ok packed ∧
    packed ≠ [] ∧ deps.unpack packed = .ok value ∧ codec.unmarshal value = .ok message

/-- What the code relies on of the third-party functions: an envelope is read back, a record
without an expiry never expires, a positive time to live has a non-zero expiry, the sortable
form of a UUID has 16 bytes and is read back, and packed structs are unpacked. -/
structure Deps.Lawful (deps : Deps) : Prop where
  envelope : ∀ version expiresAt value,
    deps.decodeEnvelope (deps.encodeEnvelope version expiresAt value) = ⟨version, expiresAt, value⟩
  neverExpires : ∀ now, deps.isExpired now 0 = false
  expiry : ∀ now ttl, 0 < ttl → deps.expiryFromTtl now ttl ≠ 0
  sortableLength : ∀ uuid, (deps.marshalSortable uuid).length = 16
  sortable : ∀ uuid, deps.unmarshalSortable (deps.marshalSortable uuid) = uuid
  recordRequest : deps.RoundTrips deps.recordRequest
  keyRequest : deps.RoundTrips deps.keyRequest
  incrementRequest : deps.RoundTrips deps.incrementRequest
  batchRequest : deps.RoundTrips deps.batchRequest
  reclaimRequest : deps.RoundTrips deps.reclaimRequest
  headRecord : deps.RoundTrips deps.headRecord

end ConsensusDB
