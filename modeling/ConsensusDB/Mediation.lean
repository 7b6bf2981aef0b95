/-
This file is the read side of the data plane, `pkg/server/vrpc_data.go` and
`pkg/server/authz_guard.go`: `kv.get`, `kv.getrecent`, `kv.enumerate` and
`kv.watch` with the authorization check in front of each. The check is made once,
on the tenant and region the request names; what is delivered is selected by the
encoded fields that are set.

Where some field is set the two agree: what is delivered lies in the scope that
was checked or below it. Where none is set the whole store is delivered on a
permission that holds for the instance, the records of the system tenant
included, for which another permission is required.
-/

import ConsensusDB.Iam
import ConsensusDB.Reads
import ConsensusDB.Staging
import ConsensusDB.Install

namespace ConsensusDB

open Wire Iam

/-! ### Guards -/

/-- The tenant and region a key addresses. -/
def scopeOf : Option Key → Bytes × Bytes
  | none => ([], [])
  | some key => (key.majorKey, key.regionName)

namespace PolicyService

/-- The decision of a node with authorization enabled and a compiled view. -/
def authorize (snapshot : Snapshot) (principal : Bytes) (permission : Permission)
    (tenant region : Bytes) : Except Err Unit :=
  let effective := effectivePermission permission tenant
  if snapshot.authorize principal effective tenant region then .ok ()
  else .error (.permissionDenied principal effective.name tenant region)

end PolicyService

/-- Runs a handler of a request that is addressed by a key, after the check on that key. -/
def guardKey {Request Response : Type} (snapshot : Snapshot) (principal : Bytes)
    (permission : Permission) (keyOf : Request → Option Key)
    (handler : Request → Option (Except Err Response)) (request : Request) :
    Option (Except Err Response) :=
  let (tenant, region) := scopeOf (keyOf request)
  match PolicyService.authorize snapshot principal permission tenant region with
  | .error err => some (.error err)
  | .ok _ => handler request

/-! ### Streams -/

structure EnumerateRequest where
  prefixKey : Option Key
  ordered : Bool := false
  reverse : Bool := false

structure WatchRequest where
  prefixKey : Option Key

/-- A change event as a watcher receives it. -/
structure ChangeEvent where
  key : Key
  value : Bytes
  version : UInt64
  type : WatchEventType

/-- The depth of a prefix, by the fields that are set; `none` when there is no prefix. -/
def areaField : Option Key → Option Field
  | none => none
  | some key =>
    if key.minorKey ≠ [] then some .minorKeyField
    else if key.regionName ≠ [] then some .regionNameField
    else if key.majorKey ≠ [] then some .majorKeyField
    else none

/-- The bytes that the key of a watched change starts with. -/
def watchPrefix (deps : Deps) : Option Key → Except Err Bytes
  | none => .ok []
  | some key =>
    if key.minorKey ≠ [] then encodeKeyPrefix deps key .minorKeyField
    else if key.regionName ≠ [] then encodeKeyPrefix deps key .regionNameField
    else if key.majorKey ≠ [] then encodeKeyPrefix deps key .majorKeyField
    else .ok []

namespace VrpcDataService

def get (deps : Deps) (env : Env) (snapshot : Snapshot) (principal : Bytes) (store : Store) :
    KeyRequest → Option (Except Err Record) :=
  guardKey snapshot principal .recordsGet KeyRequest.key
    fun request => some (Storage.get deps env store request)

def getRecent (deps : Deps) (env : Env) (snapshot : Snapshot) (principal : Bytes) (store : Store) :
    KeyRequest → Option (Except Err Record) :=
  guardKey snapshot principal .recordsGet KeyRequest.key (Storage.getRecent deps env store)

/-- What the scan of an enumeration sends. -/
def enumerateScan (deps : Deps) (env : Env) (store : Store) (prefixKey : Option Key) :
    Except Err Storage.Sent :=
  match areaField prefixKey with
  | some field => Storage.getArea deps env store { key := prefixKey } field
  | none => .ok (Storage.scan deps env store false)

def minorKeyOf (record : Record) : Bytes := (record.key.map Key.minorKey).getD []

/-- The order of an ordered enumeration: by record key, descending on request. -/
def minorOrder (reverse : Bool) (first second : Record) : Bool :=
  Wire.compare (minorKeyOf first) (minorKeyOf second) !=
    if reverse then Ordering.lt else Ordering.gt

/-- The records an enumeration streams. An unordered one streams blocks as they come, so a panic
of the scan only ends it; an ordered one streams nothing before the scan is complete. -/
def enumerate (deps : Deps) (env : Env) (snapshot : Snapshot) (principal : Bytes) (store : Store)
    (request : EnumerateRequest) : Except Err (List Record) :=
  let (tenant, region) := scopeOf request.prefixKey
  match PolicyService.authorize snapshot principal .recordsEnumerate tenant region with
  | .error err => .error err
  | .ok _ =>
    match enumerateScan deps env store request.prefixKey with
    | .error _ => .ok []
    | .ok sent =>
      if request.ordered then
        if sent.panicked then .ok []
        else .ok (sent.blocks.flatten.mergeSort (minorOrder request.reverse))
      else .ok sent.blocks.flatten

/-- The callback of a watch, event by event. Undecodable keys are skipped; an index panic ends
the watch. -/
def watchEvents (deps : Deps) : List WatchEvent → List ChangeEvent
  | [] => []
  | event :: rest =>
    match decodeKey deps event.key with
    | none => []
    | some (.error _) => watchEvents deps rest
    | some (.ok key) =>
      ⟨key, event.value, event.version.toUInt64, event.type⟩ :: watchEvents deps rest

/-- The changes a watch streams, of the events the hub has for it. -/
def watch (deps : Deps) (snapshot : Snapshot) (principal : Bytes) (events : List WatchEvent)
    (request : WatchRequest) : Except Err (List ChangeEvent) :=
  let (tenant, region) := scopeOf request.prefixKey
  match PolicyService.authorize snapshot principal .recordsWatch tenant region with
  | .error err => .error err
  | .ok _ =>
    match watchPrefix deps request.prefixKey with
    | .error err => .error err
    | .ok area => .ok (watchEvents deps (events.filter fun event => area.isPrefixOf event.key))

end VrpcDataService

/-! ### Read requests -/

inductive ReadRequest where
  | get (request : KeyRequest)
  | getRecent (request : KeyRequest)
  | enumerate (request : EnumerateRequest)
  | watch (request : WatchRequest)

def ReadRequest.permission : ReadRequest → Permission
  | .get _ | .getRecent _ => .recordsGet
  | .enumerate _ => .recordsEnumerate
  | .watch _ => .recordsWatch

/-- The keys of a reply to a point read. -/
def repliedKeys : Option (Except Err Record) → List (Option Key)
  | some (.ok record) => [record.key]
  | _ => []

/-- The keys of what a read request delivers: of its record, its records or its events. -/
def deliveredKeys (deps : Deps) (env : Env) (snapshot : Snapshot) (principal : Bytes)
    (store : Store) (events : List WatchEvent) : ReadRequest → List (Option Key)
  | .get request => repliedKeys (VrpcDataService.get deps env snapshot principal store request)
  | .getRecent request =>
    repliedKeys (VrpcDataService.getRecent deps env snapshot principal store request)
  | .enumerate request =>
    match VrpcDataService.enumerate deps env snapshot principal store request with
    | .error _ => []
    | .ok records => records.map Record.key
  | .watch request =>
    match VrpcDataService.watch deps snapshot principal events request with
    | .error _ => []
    | .ok changes => changes.map fun change => some change.key

/-- The principal may receive what lies under a key: it holds, for the tenant and region of the
key, the permission the operation needs there. -/
def Permitted (snapshot : Snapshot) (principal : Bytes) (permission : Permission) (key : Key) :
    Prop :=
  snapshot.authorize principal (effectivePermission permission key.majorKey) key.majorKey
    key.regionName

/-- Everything a read request delivers is permitted. -/
def Mediated (deps : Deps) (env : Env) (snapshot : Snapshot) (principal : Bytes) (store : Store)
    (events : List WatchEvent) (request : ReadRequest) : Prop :=
  ∀ delivered ∈ deliveredKeys deps env snapshot principal store events request,
    ∃ key, delivered = some key ∧ Permitted snapshot principal request.permission key

/-! ### What is selected lies in the scope that was checked -/

/-- A field at the front of a key the engine accepts was not cut. -/
theorem take_of_encodeField_le (field : Bytes)
    (short : (encodeField field).length ≤ maxEngineKeySize) :
    field.take (sanitizeKeyLen field.length) = field := by
  rw [encodeField_length] at short
  refine List.take_of_length_le ?_
  unfold sanitizeKeyLen maxKeyLength at *
  unfold maxEngineKeySize at short
  split at short <;> split <;> omega

/-- A key that the engine accepts and that starts with the fields of a scope lies in it. -/
theorem scope_of_front (deps : Deps) (major region rest entryKey : Bytes) (key : Key)
    (front : encodeField major ++ (encodeField region ++ rest) = entryKey)
    (accepted : refuseKey entryKey = none) (decoded : decodeKey deps entryKey = some (.ok key)) :
    key.majorKey = major ∧ key.regionName = region := by
  have short := length_of_accepted accepted
  rw [← front, List.length_append, List.length_append] at short
  rw [← front] at decoded
  obtain ⟨majorRead, regionRead⟩ := decodeKey_scope deps major region rest key decoded
  rw [take_of_encodeField_le major (by omega)] at majorRead
  rw [take_of_encodeField_le region (by omega)] at regionRead
  exact ⟨majorRead, regionRead⟩

theorem tenant_of_front (deps : Deps) (major rest entryKey : Bytes) (key : Key)
    (front : encodeField major ++ rest = entryKey) (accepted : refuseKey entryKey = none)
    (decoded : decodeKey deps entryKey = some (.ok key)) : key.majorKey = major := by
  have short := length_of_accepted accepted
  rw [← front, List.length_append] at short
  rw [← front] at decoded
  have majorRead := decodeKey_major deps major rest key decoded
  rwa [take_of_encodeField_le major (by omega)] at majorRead

/-- The depths of a prefix: an enumeration and a watch select by the same fields, and where the
tenant alone is set, or nothing, the others are empty. -/
theorem areaField_cases (deps : Deps) (key : Key) :
    (∃ field, areaField (some key) = some field ∧
        watchPrefix deps (some key) = encodeKeyPrefix deps key field ∧
        (field = .minorKeyField ∨ field = .regionNameField ∨
          (field = .majorKeyField ∧ key.regionName = []))) ∨
      (areaField (some key) = none ∧ watchPrefix deps (some key) = .ok [] ∧
        key.majorKey = [] ∧ key.regionName = []) := by
  unfold areaField watchPrefix
  by_cases minorSet : key.minorKey ≠ []
  · simp only [if_pos minorSet]
    exact Or.inl ⟨_, rfl, rfl, Or.inl rfl⟩
  · by_cases regionSet : key.regionName ≠ []
    · simp only [if_neg minorSet, if_pos regionSet]
      exact Or.inl ⟨_, rfl, rfl, Or.inr (Or.inl rfl)⟩
    · by_cases majorSet : key.majorKey ≠ []
      · simp only [if_neg minorSet, if_neg regionSet, if_pos majorSet]
        exact Or.inl ⟨_, rfl, rfl, Or.inr (Or.inr ⟨rfl, not_not.mp regionSet⟩)⟩
      · simp only [if_neg minorSet, if_neg regionSet, if_neg majorSet]
        exact Or.inr ⟨trivial, trivial, not_not.mp majorSet, not_not.mp regionSet⟩

/-- Without a prefix the check is made for the instance, and a watch selects every event. -/
theorem wide_scope (deps : Deps) (prefixKey : Option Key) (wide : areaField prefixKey = none) :
    scopeOf prefixKey = ([], []) ∧ watchPrefix deps prefixKey = .ok [] := by
  cases prefixKey with
  | none => exact ⟨rfl, rfl⟩
  | some key =>
    rcases areaField_cases deps key with ⟨field, isField, _⟩ | ⟨_, everything, major, region⟩
    · rw [isField] at wide
      cases wide
    · exact ⟨Prod.ext major region, everything⟩

/-- With a prefix, a key the engine accepts that is selected by it has its tenant and, unless the
prefix names no region, its region. -/
theorem scope_of_area (deps : Deps) (prefixKey : Option Key) (key : Key) (field : Field)
    (area entryKey : Bytes) (depth : areaField prefixKey = some field)
    (encoded : watchPrefix deps prefixKey = .ok area) (selected : area.isPrefixOf entryKey)
    (accepted : refuseKey entryKey = none) (decoded : decodeKey deps entryKey = some (.ok key)) :
    key.majorKey = (scopeOf prefixKey).1 ∧
      (key.regionName = (scopeOf prefixKey).2 ∨ (scopeOf prefixKey).2 = []) := by
  obtain ⟨rest, front⟩ := List.isPrefixOf_iff_prefix.mp selected
  cases prefixKey with
  | none => cases depth
  | some prefixKey =>
    have whole (tail : Bytes)
        (split : encodeField prefixKey.majorKey ++ (encodeField prefixKey.regionName ++ tail) =
          entryKey) : key.majorKey = (scopeOf (some prefixKey)).1 ∧
        (key.regionName = (scopeOf (some prefixKey)).2 ∨ (scopeOf (some prefixKey)).2 = []) := by
      obtain ⟨major, region⟩ := scope_of_front deps _ _ tail entryKey key split accepted decoded
      exact ⟨major, Or.inl region⟩
    rcases areaField_cases deps prefixKey with ⟨_, _, watched, fields⟩ | ⟨nothing, _⟩
    · rw [watched] at encoded
      rcases fields with rfl | rfl | ⟨rfl, noRegion⟩
      · obtain rfl := Except.ok.inj encoded
        refine whole (encodeField prefixKey.minorKey ++ rest) ?_
        rw [← front, List.append_assoc, List.append_assoc]
      · obtain rfl := Except.ok.inj encoded
        refine whole rest ?_
        rw [← front, List.append_assoc]
      · obtain rfl := Except.ok.inj encoded
        exact ⟨tenant_of_front deps _ rest entryKey key front accepted decoded, Or.inr noRegion⟩
    · rw [nothing] at depth
      cases depth

/-! ### Decisions -/

section

variable (snapshot : Snapshot) (principal : Bytes) (permission : Permission)

theorem authorize_eq (tenant region : Bytes) :
    PolicyService.authorize snapshot principal permission tenant region = .ok () ∨
      (∃ err, PolicyService.authorize snapshot principal permission tenant region = .error err) ∧
        snapshot.authorize principal (effectivePermission permission tenant) tenant region =
          false := by
  unfold PolicyService.authorize
  by_cases allowed : snapshot.authorize principal (effectivePermission permission tenant) tenant
      region = true
  · exact Or.inl (if_pos allowed)
  · exact Or.inr ⟨⟨_, if_neg allowed⟩, Bool.eq_false_iff.mpr allowed⟩

theorem allowed_of_authorize (tenant region : Bytes)
    (checked : PolicyService.authorize snapshot principal permission tenant region = .ok ()) :
    snapshot.authorize principal (effectivePermission permission tenant) tenant region := by
  unfold PolicyService.authorize at checked
  by_contra denied
  rw [if_neg denied] at checked
  cases checked

/-- A check on a scope permits every key of its tenant and region, and when it names no region
every key of its tenant. -/
theorem permitted_of_scope (tenant region : Bytes) (key : Key)
    (checked : PolicyService.authorize snapshot principal permission tenant region = .ok ())
    (major : key.majorKey = tenant) (within : key.regionName = region ∨ region = []) :
    Permitted snapshot principal permission key := by
  have allowed := allowed_of_authorize snapshot principal permission tenant region checked
  unfold Permitted
  rw [major]
  rcases within with same | wholeTenant
  · rw [same]
    exact allowed
  · rw [wholeTenant] at allowed
    exact authorize_mono snapshot principal _ tenant [] tenant key.regionName
      (scopes_tenant tenant key.regionName) allowed

/-- A check on the instance permits every key outside the system tenant. -/
theorem permitted_of_instance (key : Key)
    (checked : PolicyService.authorize snapshot principal permission [] [] = .ok ())
    (ordinary : key.majorKey ≠ systemTenant) : Permitted snapshot principal permission key := by
  have allowed := allowed_of_authorize snapshot principal permission [] [] checked
  rw [effectivePermission_ordinary permission (by decide)] at allowed
  unfold Permitted
  rw [effectivePermission_ordinary permission ordinary]
  exact authorize_mono snapshot principal permission [] [] _ _
    (scopes_instance [] key.majorKey key.regionName) allowed

end

/-! ### Mediation -/

/-- When a request without a prefix is allowed, the principal may read every record of the system
tenant that it would receive: the unexpired ones, or the changed ones. -/
def SystemGuarded (deps : Deps) (now : Int64) (snapshot : Snapshot) (principal : Bytes)
    (store : Store) (events : List WatchEvent) : ReadRequest → Prop
  | .get _ | .getRecent _ => True
  | .enumerate request =>
    areaField request.prefixKey = none → snapshot.authorize principal .recordsEnumerate [] [] →
      ∀ entry ∈ store.entries, ∀ key, decodeKey deps entry.1 = some (.ok key) →
        deps.isExpired now (deps.decodeEnvelope entry.2.value).expiresAt = false →
        key.majorKey = systemTenant →
          snapshot.authorize principal .iamGet systemTenant key.regionName
  | .watch request =>
    areaField request.prefixKey = none → snapshot.authorize principal .recordsWatch [] [] →
      ∀ event ∈ events, ∀ key, decodeKey deps event.key = some (.ok key) →
        key.majorKey = systemTenant →
          snapshot.authorize principal .iamGet systemTenant key.regionName

section

variable (deps : Deps) (env : Env) (snapshot : Snapshot) (principal : Bytes) (store : Store)
  (events : List WatchEvent) (valid : (store.records deps).Valid)
  (accepted : ∀ event ∈ events, refuseKey event.key = none)

include valid in
theorem accepted_of_entry {entry : Bytes × Item} (member : entry ∈ store.entries) :
    refuseKey entry.1 = none := by
  have present := (Mvcc.mem_entries keyOrder store.db entry.1 entry.2).mp member
  refine valid entry.1 ?_
  rw [Store.records, present]
  exact Option.some_ne_none _

/-- A record fetched under a key carries it. -/
theorem key_of_fetched (round : Nat) (key : Key) (entryKey : Bytes) (item : Item) (headOnly : Bool)
    (record : Record)
    (fetched : Storage.fetchRecord deps env round key entryKey item headOnly = .ok record) :
    record.key = some key := by
  rcases fetchRecord_cases deps env round key entryKey item headOnly record fetched with
    rfl | ⟨_, rfl⟩ <;> rfl

theorem key_of_get (request : KeyRequest) (record : Record)
    (got : Storage.get deps env store request = .ok record) : ∃ key, request.key = some key ∧
      record.key = some key := by
  unfold Storage.get at got
  cases requested : request.key with
  | none =>
    rw [requested] at got
    cases got
  | some key =>
    simp only [requested] at got
    refine ⟨key, rfl, ?_⟩
    split at got
    · cases got
    · cases got
      rfl
    · exact key_of_fetched deps env _ key _ _ _ record got

include valid in
/-- The most recent record of a row lies in the tenant and region of the row. -/
theorem scope_of_getRecent (request : KeyRequest) (record : Record)
    (got : Storage.getRecent deps env store request = some (.ok record)) :
    ∃ key, record.key = some key ∧ key.majorKey = (scopeOf request.key).1 ∧
      key.regionName = (scopeOf request.key).2 := by
  unfold Storage.getRecent at got
  cases requested : request.key with
  | none =>
    rw [requested] at got
    cases got
  | some key =>
    simp only [requested] at got
    split at got
    · cases got
      exact ⟨key, rfl, rfl, rfl⟩
    · rename_i itemKey item last
      split at got
      · rename_i inRow
        split at got
        · cases got
        · cases got
        · rename_i actualKey decoded
          have member := List.mem_of_mem_filter (List.mem_of_getLast? last)
          obtain ⟨rest, front⟩ := List.isPrefixOf_iff_prefix.mp inRow
          have rowKey : (encodeKey deps key).2 =
              encodeField key.majorKey ++ encodeField key.regionName ++
                encodeField key.minorKey := by
            unfold encodeKey
            cases key.timestamp <;> rfl
          rw [rowKey, List.append_assoc, List.append_assoc] at front
          obtain ⟨major, region⟩ := scope_of_front deps _ _ _ itemKey actualKey front
            (accepted_of_entry deps store valid member) decoded
          exact ⟨actualKey, key_of_fetched deps env _ actualKey _ _ _ record (Option.some.inj got),
            major, region⟩
      · cases got
        exact ⟨key, rfl, rfl, rfl⟩

/-- What a request selects is permitted: within the scope it was checked for when it has a prefix,
and everywhere outside the system tenant, where nothing but `guarded` is known, when it has none. -/
theorem permitted_of_selected (permission : Permission)
    (reads : effectivePermission permission systemTenant = .iamGet) (prefixKey : Option Key)
    (checked : PolicyService.authorize snapshot principal permission (scopeOf prefixKey).1
      (scopeOf prefixKey).2 = .ok ()) (entryKey : Bytes) (key : Key)
    (stored : refuseKey entryKey = none) (decoded : decodeKey deps entryKey = some (.ok key))
    (selected : ∀ field, areaField prefixKey = some field →
      ∃ area, watchPrefix deps prefixKey = .ok area ∧ area.isPrefixOf entryKey)
    (guarded : areaField prefixKey = none → key.majorKey = systemTenant →
      snapshot.authorize principal .iamGet systemTenant key.regionName) :
    Permitted snapshot principal permission key := by
  cases depth : areaField prefixKey with
  | some field =>
    obtain ⟨area, encoded, isPrefix⟩ := selected field depth
    obtain ⟨major, within⟩ := scope_of_area deps prefixKey key field area entryKey depth encoded
      isPrefix stored decoded
    exact permitted_of_scope snapshot principal permission _ _ key checked major within
  | none =>
    rw [(wide_scope deps prefixKey depth).1] at checked
    by_cases system : key.majorKey = systemTenant
    · unfold Permitted
      rw [system, reads]
      exact guarded depth system
    · exact permitted_of_instance snapshot principal permission key checked system

/-- What the scan of an enumeration sends comes from an entry that its prefix selects. -/
theorem mem_enumerateScan (prefixKey : Option Key) (sent : Storage.Sent)
    (scanned : VrpcDataService.enumerateScan deps env store prefixKey = .ok sent) (record : Record)
    (member : record ∈ sent.blocks.flatten) :
    ∃ entry ∈ store.entries, ∃ key, decodeKey deps entry.1 = some (.ok key) ∧
      deps.isExpired env.now (deps.decodeEnvelope entry.2.value).expiresAt = false ∧
      record.key = some key ∧ ∀ field, areaField prefixKey = some field →
        ∃ area, watchPrefix deps prefixKey = .ok area ∧ area.isPrefixOf entry.1 := by
  unfold VrpcDataService.enumerateScan at scanned
  cases depth : areaField prefixKey with
  | none =>
    simp only [depth] at scanned
    obtain rfl := Except.ok.inj scanned
    rcases mem_scanEntries deps env false store.entries 0 [] record member with
      pending | ⟨entry, isEntry, key, decoded, alive, rfl⟩
    · cases pending
    · exact ⟨entry, isEntry, key, decoded, alive, rfl, fun _ impossible => nomatch impossible⟩
  | some field =>
    simp only [depth] at scanned
    cases prefixKey with
    | none => cases depth
    | some prefixKey =>
      rcases areaField_cases deps prefixKey with ⟨_, isField, watched, _⟩ | ⟨nothing, _⟩
      · obtain rfl := Option.some.inj (depth.symm.trans isField)
        simp only [Storage.getArea, ← watched] at scanned
        cases encoded : watchPrefix deps (some prefixKey) with
        | error err =>
          rw [encoded] at scanned
          cases scanned
        | ok area =>
          rw [encoded] at scanned
          obtain rfl := Except.ok.inj scanned
          rcases mem_scanEntries deps env false _ 0 [] record member with
            pending | ⟨entry, isEntry, key, decoded, alive, rfl⟩
          · cases pending
          · obtain ⟨inStore, isPrefix⟩ := List.mem_filter.mp isEntry
            exact ⟨entry, inStore, key, decoded, alive, rfl, fun _ _ => ⟨area, rfl, isPrefix⟩⟩
      · rw [nothing] at depth
        cases depth

theorem mem_enumerate (request : EnumerateRequest) (records : List Record)
    (streamed : VrpcDataService.enumerate deps env snapshot principal store request = .ok records)
    (record : Record) (member : record ∈ records) :
    PolicyService.authorize snapshot principal .recordsEnumerate (scopeOf request.prefixKey).1
        (scopeOf request.prefixKey).2 = .ok () ∧
      ∃ sent, VrpcDataService.enumerateScan deps env store request.prefixKey = .ok sent ∧
        record ∈ sent.blocks.flatten := by
  unfold VrpcDataService.enumerate at streamed
  simp only at streamed
  split at streamed
  · cases streamed
  · rename_i checked
    refine ⟨checked, ?_⟩
    split at streamed
    · cases streamed
      cases member
    · rename_i sent scanned
      refine ⟨sent, scanned, ?_⟩
      split at streamed
      · split at streamed
        · cases streamed
          cases member
        · cases streamed
          exact List.mem_mergeSort.mp member
      · cases streamed
        exact member

theorem mem_watchEvents (change : ChangeEvent)
    (member : change ∈ VrpcDataService.watchEvents deps events) :
    ∃ event ∈ events, decodeKey deps event.key = some (.ok change.key) := by
  induction events with
  | nil => cases member
  | cons event rest inductionHypothesis =>
    have later (found : change ∈ VrpcDataService.watchEvents deps rest) :
        ∃ other ∈ event :: rest, decodeKey deps other.key = some (.ok change.key) := by
      obtain ⟨other, isOther, decoded⟩ := inductionHypothesis found
      exact ⟨other, List.mem_cons_of_mem _ isOther, decoded⟩
    rw [VrpcDataService.watchEvents] at member
    cases decoded : decodeKey deps event.key with
    | none => simp [decoded] at member
    | some outcome =>
      cases outcome with
      | error err =>
        simp only [decoded] at member
        exact later member
      | ok key =>
        simp only [decoded] at member
        rcases List.mem_cons.mp member with rfl | tail
        · exact ⟨event, List.mem_cons_self, decoded⟩
        · exact later tail

/-- When every key decodes, a watch streams every event. -/
theorem streamed_of_decodes (decodes : ∀ event ∈ events, ∃ key, decodeKey deps event.key =
      some (.ok key)) (event : WatchEvent) (member : event ∈ events) (key : Key)
    (decoded : decodeKey deps event.key = some (.ok key)) :
    ∃ change ∈ VrpcDataService.watchEvents deps events, change.key = key := by
  induction events with
  | nil => cases member
  | cons first rest inductionHypothesis =>
    obtain ⟨firstKey, firstDecoded⟩ := decodes first List.mem_cons_self
    rw [VrpcDataService.watchEvents]
    simp only [firstDecoded]
    rcases List.mem_cons.mp member with rfl | tail
    · rw [firstDecoded] at decoded
      cases decoded
      exact ⟨_, List.mem_cons_self, rfl⟩
    · obtain ⟨change, isChange, isKey⟩ := inductionHypothesis
        (fun event member => decodes event (List.mem_cons_of_mem _ member)) tail
      exact ⟨change, List.mem_cons_of_mem _ isChange, isKey⟩

theorem mediated_get (request : KeyRequest) :
    Mediated deps env snapshot principal store events (.get request) := by
  intro delivered member
  unfold deliveredKeys VrpcDataService.get guardKey at member
  simp only at member
  rcases authorize_eq snapshot principal .recordsGet (scopeOf request.key).1
    (scopeOf request.key).2 with checked | ⟨⟨err, denied⟩, _⟩
  · rw [checked] at member
    cases got : Storage.get deps env store request with
    | error err => simp [repliedKeys, got] at member
    | ok record =>
      obtain ⟨key, requested, carried⟩ := key_of_get deps env store request record got
      simp only [repliedKeys, got, List.mem_singleton] at member
      refine ⟨key, member.trans carried, ?_⟩
      rw [requested] at checked
      exact permitted_of_scope snapshot principal _ _ _ key checked rfl (Or.inl rfl)
  · simp [denied, repliedKeys] at member

include valid in
theorem mediated_getRecent (request : KeyRequest) :
    Mediated deps env snapshot principal store events (.getRecent request) := by
  intro delivered member
  unfold deliveredKeys VrpcDataService.getRecent guardKey at member
  simp only at member
  rcases authorize_eq snapshot principal .recordsGet (scopeOf request.key).1
    (scopeOf request.key).2 with checked | ⟨⟨err, denied⟩, _⟩
  · rw [checked] at member
    rcases got : Storage.getRecent deps env store request with _ | err | record
    · simp [repliedKeys, got] at member
    · simp [repliedKeys, got] at member
    · obtain ⟨key, carried, major, region⟩ :=
        scope_of_getRecent deps env store valid request record got
      simp only [repliedKeys, got, List.mem_singleton] at member
      exact ⟨key, member.trans carried,
        permitted_of_scope snapshot principal _ _ _ key checked major (Or.inl region)⟩
  · simp [denied, repliedKeys] at member

include valid in
theorem mediated_enumerate (request : EnumerateRequest)
    (guarded : SystemGuarded deps env.now snapshot principal store events (.enumerate request)) :
    Mediated deps env snapshot principal store events (.enumerate request) := by
  intro delivered member
  unfold deliveredKeys at member
  cases streamed : VrpcDataService.enumerate deps env snapshot principal store request with
  | error err => simp [streamed] at member
  | ok records =>
    simp only [streamed] at member
    obtain ⟨record, isRecord, rfl⟩ := List.mem_map.mp member
    obtain ⟨checked, sent, scanned, isSent⟩ :=
      mem_enumerate deps env snapshot principal store request records streamed record isRecord
    obtain ⟨entry, isEntry, key, decoded, alive, carried, selected⟩ :=
      mem_enumerateScan deps env store request.prefixKey sent scanned record isSent
    refine ⟨key, carried, permitted_of_selected deps snapshot principal .recordsEnumerate rfl
      request.prefixKey checked entry.1 key (accepted_of_entry deps store valid isEntry) decoded
      selected fun wide system => ?_⟩
    rw [(wide_scope deps request.prefixKey wide).1] at checked
    exact guarded wide (allowed_of_authorize snapshot principal _ _ _ checked) entry isEntry key
      decoded alive system

include accepted in
theorem mediated_watch (request : WatchRequest)
    (guarded : SystemGuarded deps env.now snapshot principal store events (.watch request)) :
    Mediated deps env snapshot principal store events (.watch request) := by
  intro delivered member
  unfold deliveredKeys VrpcDataService.watch at member
  simp only at member
  rcases authorize_eq snapshot principal .recordsWatch (scopeOf request.prefixKey).1
    (scopeOf request.prefixKey).2 with checked | ⟨⟨err, denied⟩, _⟩
  · rw [checked] at member
    cases encoded : watchPrefix deps request.prefixKey with
    | error err => simp [encoded] at member
    | ok area =>
      simp only [encoded] at member
      obtain ⟨change, isChange, rfl⟩ := List.mem_map.mp member
      obtain ⟨event, isEvent, decoded⟩ := mem_watchEvents deps _ change isChange
      obtain ⟨inHub, isPrefix⟩ := List.mem_filter.mp isEvent
      refine ⟨change.key, rfl, permitted_of_selected deps snapshot principal .recordsWatch rfl
        request.prefixKey checked event.key change.key (accepted event inHub) decoded
        (fun _ _ => ⟨area, encoded, isPrefix⟩) fun wide system => ?_⟩
      rw [(wide_scope deps request.prefixKey wide).1] at checked
      exact guarded wide (allowed_of_authorize snapshot principal _ _ _ checked) event inHub
        change.key decoded system
  · simp [denied] at member

include valid accepted in
/-- Every read request is mediated when the system tenant is guarded. -/
theorem mediated_of_guarded (request : ReadRequest)
    (guarded : SystemGuarded deps env.now snapshot principal store events request) :
    Mediated deps env snapshot principal store events request := by
  cases request with
  | get request => exact mediated_get deps env snapshot principal store events request
  | getRecent request =>
    exact mediated_getRecent deps env snapshot principal store events valid request
  | enumerate request =>
    exact mediated_enumerate deps env snapshot principal store events valid request guarded
  | watch request =>
    exact mediated_watch deps env snapshot principal store events accepted request guarded

include deps in
/-- Holding a permission at the instance passes the check of a request without a prefix. -/
theorem authorize_of_wide (permission : Permission) (prefixKey : Option Key)
    (wide : areaField prefixKey = none) (allowed : snapshot.authorize principal permission [] []) :
    PolicyService.authorize snapshot principal permission (scopeOf prefixKey).1
      (scopeOf prefixKey).2 = .ok () := by
  rw [(wide_scope deps prefixKey wide).1]
  unfold PolicyService.authorize
  have ordinary : ([] : Bytes) ≠ systemTenant := by decide
  simp only [effectivePermission_ordinary permission ordinary]
  exact if_pos allowed

/-- A mediated request guards the system tenant, when nothing fails and every key decodes. -/
theorem guarded_of_mediated (now : Int64)
    (storeDecodes : ∀ entry ∈ store.entries, ∃ key, decodeKey deps entry.1 = some (.ok key))
    (eventsDecode : ∀ event ∈ events, ∃ key, decodeKey deps event.key = some (.ok key))
    (request : ReadRequest)
    (mediated : Mediated deps (Env.healthy now) snapshot principal store events request) :
    SystemGuarded deps now snapshot principal store events request := by
  cases request with
  | get request => trivial
  | getRecent request => trivial
  | enumerate request =>
    intro wide allowed entry isEntry key decoded alive system
    have checked := authorize_of_wide deps snapshot principal _ request.prefixKey wide allowed
    have isSent := sent_of_decodes deps now false store.entries 0 [] storeDecodes
      (Storage.itemRecord deps key entry.1 entry.2 false)
      (Or.inr ⟨entry, isEntry, key, decoded, alive, rfl⟩)
    have finished := not_panicked_of_decodes deps (Env.healthy now) false store.entries 0 []
      storeDecodes
    obtain ⟨found, isFound, permitted⟩ := mediated (some key) (by
      unfold deliveredKeys VrpcDataService.enumerate VrpcDataService.enumerateScan
      simp only [checked, wide, Storage.scan, finished]
      cases request.ordered with
      | false => exact List.mem_map.mpr ⟨_, isSent, rfl⟩
      | true => exact List.mem_map.mpr ⟨_, List.mem_mergeSort.mpr isSent, rfl⟩)
    obtain rfl := Option.some.inj isFound
    unfold Permitted at permitted
    rwa [system] at permitted
  | watch request =>
    intro wide allowed event isEvent key decoded system
    have checked := authorize_of_wide deps snapshot principal _ request.prefixKey wide allowed
    have everything : events.filter (fun event => List.isPrefixOf [] event.key) = events :=
      List.filter_eq_self.mpr fun _ _ => rfl
    obtain ⟨change, isChange, isKey⟩ :=
      streamed_of_decodes deps events eventsDecode event isEvent key decoded
    obtain ⟨found, isFound, permitted⟩ := mediated (some key) (by
      unfold deliveredKeys VrpcDataService.watch
      simp only [checked, (wide_scope deps request.prefixKey wide).2, everything]
      exact List.mem_map.mpr ⟨change, isChange, congrArg some isKey⟩)
    obtain rfl := Option.some.inj isFound
    unfold Permitted at permitted
    rwa [system] at permitted

include valid accepted in
/-- A read request on a store whose keys the engine accepts delivers only what the principal may
receive when the system tenant is guarded from it -- always when it is a point read or has a prefix
-- and, when nothing fails and every key decodes, only then. -/
theorem reads_mediated (request : ReadRequest) :
    (∀ env : Env, SystemGuarded deps env.now snapshot principal store events request →
        Mediated deps env snapshot principal store events request) ∧
      ((∀ entry ∈ store.entries, ∃ key, decodeKey deps entry.1 = some (.ok key)) →
        (∀ event ∈ events, ∃ key, decodeKey deps event.key = some (.ok key)) →
        ∀ now : Int64, Mediated deps (Env.healthy now) snapshot principal store events request →
          SystemGuarded deps now snapshot principal store events request) :=
  ⟨fun env guarded =>
      mediated_of_guarded deps env snapshot principal store events valid accepted request guarded,
    fun storeDecodes eventsDecode now mediated =>
      guarded_of_mediated deps snapshot principal store events now storeDecodes eventsDecode request
        mediated⟩

end

/-- The log of one put, of an identity record. -/
def identityLog : List Entry :=
  [Reference.entryOf 1 ((WriteRequest.put
    { key := some ⟨systemTenant, str "IAM", str "user/root", none⟩
      value := str "hash" }).command Reference.deps 100)]

/-- A node that applied it. -/
def identityNode : Fsm :=
  (Fsm.fresh Reference.deps (Env.healthy 0)).run Reference.deps (identityLog.map (Prod.mk 110))

theorem identityNode_valid : (identityNode.store.records Reference.deps).Valid := by
  refine valid_fresh_run Reference.deps Reference.lawful 0 _ fun delivery member => ?_
  rw [List.mem_singleton.mp member]
  exact ⟨Reference.routed_entryOf 1 100 _, by decide⟩

theorem identityNode_notified : identityNode.store.Notified :=
  notified_run Reference.deps _ _ fun _ member => nomatch member

/-- One principal is bound to a role at the instance. -/
def boundTo (role : Bytes) : Snapshot :=
  { newSnapshot with
    policies := fun scope => if scope = str "i" then [⟨role, [str "user:alice"]⟩] else [] }

/-- A principal who may read identities receives the whole store. -/
theorem reads_mediated_admin :
    Mediated Reference.deps (Env.healthy 200) (boundTo (str "roles/cdb.admin")) (str "user:alice")
      identityNode.store identityNode.store.events (.enumerate { prefixKey := none }) :=
  (reads_mediated Reference.deps (boundTo (str "roles/cdb.admin")) (str "user:alice")
    identityNode.store identityNode.store.events identityNode_valid identityNode_notified
    (.enumerate { prefixKey := none })).1 (Env.healthy 200)
    fun _ _ _ _ key _ _ _ =>
      authorize_mono _ _ _ [] [] systemTenant key.regionName
        (scopes_instance [] systemTenant key.regionName) (by decide +kernel)

/-- A viewer of the instance, who may not read identities, receives an identity record from an
enumeration without a prefix. -/
theorem identity_disclosed :
    ¬ ∀ (snapshot : Snapshot) (principal : Bytes) (store : Store) (events : List WatchEvent)
      (request : ReadRequest), (store.records Reference.deps).Valid →
      (∀ event ∈ events, refuseKey event.key = none) →
      Mediated Reference.deps (Env.healthy 200) snapshot principal store events request := by
  intro claim
  have mediated := claim (boundTo (str "roles/cdb.viewer")) (str "user:alice") identityNode.store []
    (.enumerate { prefixKey := none }) identityNode_valid fun _ member => nomatch member
  obtain ⟨key, isKey, permitted⟩ := mediated
    (some ⟨systemTenant, str "IAM", str "user/root", none⟩) (by decide +kernel)
  obtain rfl := Option.some.inj isKey
  revert permitted
  unfold Permitted
  decide +kernel

end ConsensusDB
