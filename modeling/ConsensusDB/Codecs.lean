/-
This file is the wire format of the data plane: the codecs of `pkg/server/vrpc_data.go`,
which map the messages of `pkg/pb` to maps of the `value` library and back.

Unsigned numbers travel as signed ones and 32-bit numbers as 64-bit ones. Both
conversions are undone on the way back, so nothing is lost in them; an optional part
of a message is marked by a flag of its own. What a codec does not carry is the timeout
of a request, and a key that is absent arrives as one with empty fields.
-/

import ConsensusDB.Lib.Values
import ConsensusDB.Mediation
import ConsensusDB.Reference

namespace ConsensusDB

open Wire

/-- A change event of `pkg/pb`; its type is a number. -/
structure Pb.WatchEvent where
  key : Option Key
  value : Bytes := []
  version : UInt64 := 0
  type : Int32 := 0
  deriving DecidableEq, Repr

namespace VrpcData

/-- `valuerpc.Codec`. A message to encode may be nil. -/
structure Codec (values : Values) (Message : Type) where
  encode : Option Message → values.Value
  decode : values.Value → Except Err Message

section

variable (values : Values)

/-! ### Keys -/

/-- The fields of a timestamp, which are there when the key has one. -/
def timestampFields : Option TimeUUID → List (String × values.Value)
  | none => []
  | some timestamp =>
    [("ts_most", values.long timestamp.mostSigBits),
      ("ts_least", values.long timestamp.leastSigBits), ("ts", values.boolean true)]

def keyMap (key : Key) : values.Map :=
  values.fields
    ([("major", values.raw key.majorKey), ("region", values.raw key.regionName),
      ("minor", values.raw key.minorKey)] ++ timestampFields values key.timestamp)

def encodeKey : Option Key → values.Value
  | none => values.ofMap values.emptyMap
  | some key => values.ofMap (keyMap values key)

def decodeKey : Option values.Map → Option Key
  | none => none
  | some map =>
    some {
      majorKey := values.getString map "major"
      regionName := values.getString map "region"
      minorKey := values.getString map "minor"
      timestamp :=
        if values.getBool map "ts" then
          some ⟨values.getNumber map "ts_most", values.getNumber map "ts_least"⟩
        else none }

def asMap (value : values.Value) (what : String) : Except Err values.Map :=
  match values.asMap value with
  | none => .error (.text (what ++ ": expected a map"))
  | some map => .ok map

/-! ### Flat messages -/

/-- The codec of a message that is a map of fields. A nil message is encoded as the zero one. -/
def flatCodec {Message : Type} (what : String) (zero : Message)
    (entries : Message → List (String × values.Value)) (read : values.Map → Message) :
    Codec values Message where
  encode message := values.ofMap (values.fields (entries (message.getD zero)))
  decode value :=
    match asMap values value what with
    | .error err => .error err
    | .ok map => .ok (read map)

def keyRequestCodec : Codec values KeyRequest :=
  flatCodec values "key request" { key := none }
    (fun request =>
      [("key", encodeKey values request.key), ("head_only", values.boolean request.headOnly)])
    fun map =>
      { key := decodeKey values (values.getMap map "key")
        headOnly := values.getBool map "head_only" }

def recordRequestFields (request : RecordRequest) : List (String × values.Value) :=
  [("key", encodeKey values request.key), ("value", values.raw request.value),
    ("metadata", values.long request.metadata.toInt64), ("ttl", values.long request.ttlSeconds),
    ("cas", values.boolean request.compareAndSet), ("version", values.long request.version.toInt64),
    ("expires_at", values.long request.expiresAt)]

def recordRequestCodec : Codec values RecordRequest :=
  flatCodec values "record request" { key := none, value := [] } (recordRequestFields values)
    fun map =>
      { key := decodeKey values (values.getMap map "key")
        value := values.getString map "value"
        metadata := (values.getNumber map "metadata").toInt32
        ttlSeconds := values.getNumber map "ttl"
        compareAndSet := values.getBool map "cas"
        version := (values.getNumber map "version").toUInt64
        expiresAt := values.getNumber map "expires_at" }

/-- The fields of a head, which are there when the record was found. -/
def headFields : Option Head → List (String × values.Value)
  | none => []
  | some head =>
    [("version", values.long head.version.toInt64),
      ("expires_at", values.long head.expiresAt.toInt64), ("disk_size", values.long head.diskSize),
      ("metadata", values.long head.metadata.toInt64)]

def recordCodec : Codec values Record :=
  flatCodec values "record" { key := none }
    (fun record =>
      [("key", encodeKey values record.key), ("value", values.raw record.value),
        ("found", values.boolean record.head.isSome)] ++ headFields values record.head)
    fun map =>
      { key := decodeKey values (values.getMap map "key")
        value := values.getString map "value"
        head :=
          if values.getBool map "found" then
            some
              { version := (values.getNumber map "version").toUInt64
                expiresAt := (values.getNumber map "expires_at").toUInt64
                diskSize := values.getNumber map "disk_size"
                metadata := (values.getNumber map "metadata").toInt32 }
          else none }

def statusCodec : Codec values Status :=
  flatCodec values "status" ⟨false⟩ (fun status => [("updated", values.boolean status.updated)])
    fun map => ⟨values.getBool map "updated"⟩

def incrementRequestCodec : Codec values IncrementRequest :=
  flatCodec values "increment request" { key := none, delta := 0 }
    (fun request =>
      [("key", encodeKey values request.key), ("initial", values.long request.initial),
        ("delta", values.long request.delta), ("ttl", values.long request.ttlSeconds),
        ("expires_at", values.long request.expiresAt)])
    fun map =>
      { key := decodeKey values (values.getMap map "key")
        initial := values.getNumber map "initial"
        delta := values.getNumber map "delta"
        ttlSeconds := values.getNumber map "ttl"
        expiresAt := values.getNumber map "expires_at" }

def incrementResponseCodec : Codec values IncrementResponse :=
  flatCodec values "increment response" ⟨0, 0, 0⟩
    (fun response =>
      [("previous", values.long response.previous), ("current", values.long response.current),
        ("version", values.long response.version.toInt64)])
    fun map =>
      { previous := values.getNumber map "previous"
        current := values.getNumber map "current"
        version := (values.getNumber map "version").toUInt64 }

def watchRequestCodec : Codec values WatchRequest :=
  flatCodec values "watch request" ⟨none⟩
    (fun request => [("prefix", encodeKey values request.prefixKey)])
    fun map => ⟨decodeKey values (values.getMap map "prefix")⟩

def watchEventCodec : Codec values Pb.WatchEvent :=
  flatCodec values "watch event" { key := none }
    (fun event =>
      [("key", encodeKey values event.key), ("value", values.raw event.value),
        ("version", values.long event.version.toInt64),
        ("type", values.long event.type.toInt64)])
    fun map =>
      { key := decodeKey values (values.getMap map "key")
        value := values.getString map "value"
        version := (values.getNumber map "version").toUInt64
        type := (values.getNumber map "type").toInt32 }

def enumerateRequestCodec : Codec values EnumerateRequest :=
  flatCodec values "enumerate request" { prefixKey := none }
    (fun request =>
      [("prefix", encodeKey values request.prefixKey), ("ordered", values.boolean request.ordered),
        ("reverse", values.boolean request.reverse)])
    fun map =>
      { prefixKey := decodeKey values (values.getMap map "prefix")
        ordered := values.getBool map "ordered"
        reverse := values.getBool map "reverse" }

/-! ### Batches -/

/-- The loop that decodes the records of a batch, from a position on. -/
def decodeRecords (items : values.Items) :
    Nat → Nat → List RecordRequest → Except Err (List RecordRequest)
  | 0, _, records => .ok records
  | left + 1, position, records =>
    match (recordRequestCodec values).decode (values.getMapAt items position) with
    | .error err => .error err
    | .ok record => decodeRecords items left (position + 1) (records ++ [record])

def batchRequestCodec : Codec values BatchRequest where
  encode request :=
    values.ofMap (values.fields [("records", values.ofList
      (((request.map BatchRequest.records).getD []).foldl
        (fun items record => values.append items ((recordRequestCodec values).encode (some record)))
        values.emptyList))])
  decode value :=
    match asMap values value "batch request" with
    | .error err => .error err
    | .ok map =>
      match values.getList map "records" with
      | none => .ok { records := [] }
      | some items =>
        match decodeRecords values items (values.len items) 0 [] with
        | .error err => .error err
        | .ok records => .ok { records }

/-! ### What arrives -/

@[simp] theorem decodeKey_keyMap (key : Key) :
    decodeKey values (some (keyMap values key)) = some key := by
  obtain ⟨majorKey, regionName, minorKey, timestamp⟩ := key
  cases timestamp with
  | none => simp [decodeKey, keyMap, timestampFields, Values.fields]
  | some timestamp => simp [decodeKey, keyMap, timestampFields, Values.fields]

theorem flatCodec_arrives {Message : Type} (what : String) (zero message : Message)
    (entries : Message → List (String × values.Value)) (read : values.Map → Message) :
    (flatCodec values what zero entries read).decode
        ((flatCodec values what zero entries read).encode (some message)) =
      .ok (read (values.fields (entries message))) := by
  simp only [flatCodec, asMap, values.asMap_ofMap, Option.getD_some]

theorem keyRequest_arrives (request : KeyRequest) (keyed : request.key ≠ none) :
    (keyRequestCodec values).decode ((keyRequestCodec values).encode (some request)) =
      .ok { request with timeout := 0 } := by
  obtain ⟨key, isKey⟩ := Option.ne_none_iff_exists'.mp keyed
  rw [keyRequestCodec, flatCodec_arrives, isKey]
  simp [Values.fields, encodeKey]

theorem recordRequest_arrives (request : RecordRequest) (keyed : request.key ≠ none) :
    (recordRequestCodec values).decode ((recordRequestCodec values).encode (some request)) =
      .ok { request with timeout := 0 } := by
  obtain ⟨key, isKey⟩ := Option.ne_none_iff_exists'.mp keyed
  rw [recordRequestCodec, flatCodec_arrives, recordRequestFields, isKey]
  simp [Values.fields, encodeKey]

theorem record_arrives (record : Record) (keyed : record.key ≠ none) :
    (recordCodec values).decode ((recordCodec values).encode (some record)) = .ok record := by
  obtain ⟨recordKey, head, value⟩ := record
  obtain ⟨key, rfl⟩ := Option.ne_none_iff_exists'.mp keyed
  rw [recordCodec, flatCodec_arrives]
  cases head with
  | none => simp [Values.fields, headFields, encodeKey]
  | some head => simp [Values.fields, headFields, encodeKey]

theorem status_arrives (status : Status) :
    (statusCodec values).decode ((statusCodec values).encode (some status)) = .ok status := by
  rw [statusCodec, flatCodec_arrives]
  simp [Values.fields]

theorem incrementRequest_arrives (request : IncrementRequest) (keyed : request.key ≠ none) :
    (incrementRequestCodec values).decode ((incrementRequestCodec values).encode (some request)) =
      .ok { request with timeout := 0 } := by
  obtain ⟨key, isKey⟩ := Option.ne_none_iff_exists'.mp keyed
  rw [incrementRequestCodec, flatCodec_arrives, isKey]
  simp [Values.fields, encodeKey]

theorem incrementResponse_arrives (response : IncrementResponse) :
    (incrementResponseCodec values).decode
      ((incrementResponseCodec values).encode (some response)) = .ok response := by
  rw [incrementResponseCodec, flatCodec_arrives]
  simp [Values.fields]

theorem watchRequest_arrives (request : WatchRequest) (keyed : request.prefixKey ≠ none) :
    (watchRequestCodec values).decode ((watchRequestCodec values).encode (some request)) =
      .ok request := by
  obtain ⟨prefixKey⟩ := request
  obtain ⟨key, rfl⟩ := Option.ne_none_iff_exists'.mp keyed
  rw [watchRequestCodec, flatCodec_arrives]
  simp [Values.fields, encodeKey]

theorem watchEvent_arrives (event : Pb.WatchEvent) (keyed : event.key ≠ none) :
    (watchEventCodec values).decode ((watchEventCodec values).encode (some event)) =
      .ok event := by
  obtain ⟨eventKey, value, version, type⟩ := event
  obtain ⟨key, rfl⟩ := Option.ne_none_iff_exists'.mp keyed
  rw [watchEventCodec, flatCodec_arrives]
  simp [Values.fields, encodeKey]

theorem enumerateRequest_arrives (request : EnumerateRequest) (keyed : request.prefixKey ≠ none) :
    (enumerateRequestCodec values).decode ((enumerateRequestCodec values).encode (some request)) =
      .ok request := by
  obtain ⟨prefixKey, ordered, reverse⟩ := request
  obtain ⟨key, rfl⟩ := Option.ne_none_iff_exists'.mp keyed
  rw [enumerateRequestCodec, flatCodec_arrives]
  simp [Values.fields, encodeKey]

/-- The loop decodes what lies before it position by position. -/
theorem decodeRecords_arrives (rest : List RecordRequest)
    (keyed : ∀ record ∈ rest, record.key ≠ none) (before records : List RecordRequest) :
    decodeRecords values
        (values.maps ((before ++ rest).map (values.fields ∘ recordRequestFields values)))
        rest.length before.length records =
      .ok (records ++ rest.map fun record => { record with timeout := 0 }) := by
  induction rest generalizing before records with
  | nil =>
    rw [List.map_nil, List.append_nil, List.append_nil]
    rfl
  | cons record rest inductionHypothesis =>
    obtain ⟨recordKeyed, restKeyed⟩ := List.forall_mem_cons.mp keyed
    have found : values.getMapAt
        (values.maps ((before ++ record :: rest).map (values.fields ∘ recordRequestFields values)))
        before.length = (recordRequestCodec values).encode (some record) := by
      have position : before.length =
          (before.map (values.fields ∘ recordRequestFields values)).length :=
        (List.length_map _).symm
      rw [List.map_append, List.map_cons, position]
      exact values.getMapAt_maps _ _ _
    rw [List.length_cons, decodeRecords, found, recordRequest_arrives values record recordKeyed]
    have next := inductionHypothesis restKeyed (before ++ [record])
      (records ++ [{ record with timeout := 0 }])
    rw [List.append_assoc, List.length_append, List.append_assoc] at next
    exact next

theorem batchRequest_arrives (request : BatchRequest)
    (keyed : ∀ record ∈ request.records, record.key ≠ none) :
    (batchRequestCodec values).decode ((batchRequestCodec values).encode (some request)) =
      .ok { records := request.records.map fun record => { record with timeout := 0 } } := by
  have sent : request.records.foldl
      (fun items record => values.append items ((recordRequestCodec values).encode (some record)))
      values.emptyList =
        values.maps (request.records.map (values.fields ∘ recordRequestFields values)) := by
    rw [Values.maps, List.foldl_map]
    rfl
  have received := decodeRecords_arrives values request.records keyed [] []
  rw [List.nil_append, List.nil_append] at received
  simp only [batchRequestCodec, asMap, values.asMap_ofMap, Option.map_some, Option.getD_some, sent,
    Values.fields, List.foldl_cons, List.foldl_nil, values.getList_put, values.len_maps,
    List.length_map]
  rw [show decodeRecords values _ _ 0 [] = _ from received]

/-- Every message with its keys arrives as it was sent, except for the timeout, which no codec
carries. -/
theorem codecs_lose_nothing :
    (∀ key, decodeKey values (values.asMap (encodeKey values (some key))) = some key) ∧
    (∀ request : KeyRequest, request.key ≠ none →
      (keyRequestCodec values).decode ((keyRequestCodec values).encode (some request)) =
        .ok { request with timeout := 0 }) ∧
    (∀ request : RecordRequest, request.key ≠ none →
      (recordRequestCodec values).decode ((recordRequestCodec values).encode (some request)) =
        .ok { request with timeout := 0 }) ∧
    (∀ record : Record, record.key ≠ none →
      (recordCodec values).decode ((recordCodec values).encode (some record)) = .ok record) ∧
    (∀ status : Status,
      (statusCodec values).decode ((statusCodec values).encode (some status)) = .ok status) ∧
    (∀ request : IncrementRequest, request.key ≠ none →
      (incrementRequestCodec values).decode
        ((incrementRequestCodec values).encode (some request)) =
          .ok { request with timeout := 0 }) ∧
    (∀ response : IncrementResponse,
      (incrementResponseCodec values).decode
        ((incrementResponseCodec values).encode (some response)) = .ok response) ∧
    (∀ request : WatchRequest, request.prefixKey ≠ none →
      (watchRequestCodec values).decode ((watchRequestCodec values).encode (some request)) =
        .ok request) ∧
    (∀ event : Pb.WatchEvent, event.key ≠ none →
      (watchEventCodec values).decode ((watchEventCodec values).encode (some event)) =
        .ok event) ∧
    (∀ request : EnumerateRequest, request.prefixKey ≠ none →
      (enumerateRequestCodec values).decode
        ((enumerateRequestCodec values).encode (some request)) = .ok request) ∧
    ∀ request : BatchRequest, (∀ record ∈ request.records, record.key ≠ none) →
      (batchRequestCodec values).decode ((batchRequestCodec values).encode (some request)) =
        .ok { records := request.records.map fun record => { record with timeout := 0 } } := by
  refine ⟨fun key => ?_, keyRequest_arrives values, recordRequest_arrives values,
    record_arrives values, status_arrives values, incrementRequest_arrives values,
    incrementResponse_arrives values, watchRequest_arrives values, watchEvent_arrives values,
    enumerateRequest_arrives values, batchRequest_arrives values⟩
  rw [encodeKey, values.asMap_ofMap, decodeKey_keyMap]

end

/-- A record at the ends of its ranges, over values as plain trees. -/
theorem codecs_lose_nothing_extreme :
    (recordCodec Values.plain).decode ((recordCodec Values.plain).encode
        (some ⟨some Reference.sampleKey, some ⟨-1, -1, Int64.minValue, Int32.minValue⟩, []⟩)) =
      .ok ⟨some Reference.sampleKey, some ⟨-1, -1, Int64.minValue, Int32.minValue⟩, []⟩ :=
  (codecs_lose_nothing Values.plain).2.2.2.1 _ (Option.some_ne_none Reference.sampleKey)

end VrpcData

end ConsensusDB
