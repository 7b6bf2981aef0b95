/-
This file is how a binding is written and how far it reaches: `grantRole` and
`iamChangeBinding` of `pkg/console/iam.go` and the command `binding-add` of
`cmd/iam_authz_cmd.go`. Both read the policy record of a scope, merge the members
into it and write it back.

The compiled view has the bindings of each scope under a text. Two stores that
differ in one policy record are compiled into views that agree everywhere but at
the text of that record's scope, and a decision consults the texts of its own
tenant and region only. The text of a region joins the two names by a slash, which
may occur in either of them. So a binding at a region reaches another tenant's
region exactly when the joined names can be split in another place.
-/

import ConsensusDB.Aliasing
import ConsensusDB.PolicyService

namespace ConsensusDB

open Wire Iam

namespace Iam

/-! ### The record of a scope -/

/-- The key of an identity record. -/
def key (minor : Bytes) : Key := ⟨systemTenant, region, minor, none⟩

def policyTenantMinor (tenant : Bytes) : Bytes := policyTenantPrefix ++ tenant

def policyRegionMinor (tenant region : Bytes) : Bytes :=
  policyRegionPrefix ++ tenant ++ str "/" ++ region

def bindingMinor (tenant region : Bytes) : Bytes :=
  if tenant = [] then policyInstance
  else if region = [] then policyTenantMinor tenant
  else policyRegionMinor tenant region

def bindingScopeLabelOf (tenant region : Bytes) : Bytes :=
  if tenant = [] then []
  else if region = [] then tenant
  else tenant ++ str "/" ++ region

/-- What a read has found under a key. -/
def content (record : Record) : Option Bytes :=
  if record.head = none then none else some record.value

/-- `Encode` of a policy record, and what a failed `Decode` returns and leaves in the record it
was given. -/
structure PolicyCodec where
  encode : PolicyRecord → Except Err Bytes
  failure : Bytes → Err
  leaves : Bytes → PolicyRecord

/-- A policy record is encoded and read back. -/
def PolicyCodec.Lawful (codec : PolicyCodec) (decoder : Decoder) : Prop :=
  ∀ policy, ∃ raw, codec.encode policy = .ok raw ∧ raw ≠ [] ∧ decoder.policy raw = some policy

end Iam

/-! ### Writers -/

/-- A request to bind a role to members at a scope. -/
structure BindingRequest where
  role : Bytes
  members : List Bytes
  tenant : Bytes
  region : Bytes
  deriving DecidableEq, Repr

namespace Console

/-- The order in which the keys of a map come out, in each round of a loop. -/
structure MapOrder where
  keysOf : Nat → List Bytes → List Bytes
  perm : ∀ round names, (keysOf round names).Perm names

def dedup (names : List Bytes) : List Bytes := (names.filter fun name => name ≠ []).eraseDups

/-- The loop of `applyBinding`. -/
def mergeMembers (order : MapOrder) (role : Bytes) (members : List Bytes) (grant : Bool) :
    Nat → List Binding → List Binding
  | _, [] => []
  | round, binding :: rest =>
    if binding.role ≠ role then binding :: mergeMembers order role members grant (round + 1) rest
    else
      let merged := order.keysOf round
        (if grant then (binding.members ++ members).eraseDups
        else (binding.members.filter fun member => !members.contains member).eraseDups)
      if merged = [] then mergeMembers order role members grant (round + 1) rest
      else ⟨role, merged⟩ :: mergeMembers order role members grant (round + 1) rest

def applyBinding (order : MapOrder) (bindings : List Binding) (role : Bytes) (members : List Bytes)
    (grant : Bool) : List Binding :=
  mergeMembers order role members grant 0 bindings ++
    if grant && !bindings.any fun binding => binding.role = role then [⟨role, dedup members⟩]
    else []

/-- A member that a binding of the role gets is a member of a merged binding of the role. -/
theorem exists_mergeMembers (order : MapOrder) (role member : Bytes) (bindings : List Binding)
    (round : Nat) (bound : ∃ binding ∈ bindings, binding.role = role) :
    ∃ binding ∈ mergeMembers order role [member] true round bindings,
      binding.role = role ∧ member ∈ binding.members := by
  induction bindings generalizing round with
  | nil =>
    obtain ⟨binding, none, _⟩ := bound
    cases none
  | cons binding rest inductionHypothesis =>
    rw [mergeMembers]
    by_cases same : binding.role = role
    · rw [if_neg (not_not_intro same)]
      have merged : member ∈ order.keysOf round (binding.members ++ [member]).eraseDups :=
        (order.perm round _).mem_iff.mpr
          (List.mem_eraseDups.mpr (List.mem_append_right _ List.mem_cons_self))
      simp only [if_true, if_neg (List.ne_nil_of_mem merged)]
      exact ⟨_, List.mem_cons_self, rfl, merged⟩
    · rw [if_pos same]
      obtain ⟨other, member, isRole⟩ := bound
      have later : other ∈ rest := by
        rcases List.mem_cons.mp member with rfl | later
        · exact absurd isRole same
        · exact later
      obtain ⟨found, isFound, facts⟩ := inductionHypothesis (round + 1) ⟨other, later, isRole⟩
      exact ⟨found, List.mem_cons_of_mem _ isFound, facts⟩

/-- A grant binds its member to the role. -/
theorem exists_applyBinding (order : MapOrder) (bindings : List Binding) (role member : Bytes)
    (named : member ≠ []) :
    ∃ binding ∈ applyBinding order bindings role [member] true,
      binding.role = role ∧ member ∈ binding.members := by
  unfold applyBinding
  by_cases bound : ∃ binding ∈ bindings, binding.role = role
  · obtain ⟨binding, found, facts⟩ := exists_mergeMembers order role member bindings 0 bound
    exact ⟨binding, List.mem_append_left _ found, facts⟩
  · have absent : (bindings.any fun binding => decide (binding.role = role)) = false := by
      rw [List.any_eq_false]
      exact fun binding found isRole => bound ⟨binding, found, of_decide_eq_true isRole⟩
    rw [absent]
    refine ⟨⟨role, dedup [member]⟩, List.mem_append_right _ List.mem_cons_self, rfl, ?_⟩
    exact List.mem_eraseDups.mpr
      (List.mem_filter.mpr ⟨List.mem_cons_self, decide_eq_true named⟩)

/-- The policy that `grantRole` takes from the record it has read. A failed decoding is ignored. -/
def policyOf (decoder : Decoder) (codec : PolicyCodec) (record : Record) : PolicyRecord :=
  if record.value = [] then ⟨[]⟩
  else (decoder.policy record.value).getD (codec.leaves record.value)

section

variable (deps : Deps) (decoder : Decoder) (codec : PolicyCodec) (order : MapOrder)
  (readEnv writeEnv : Env) (index : UInt64) (store : Store)

/-- `grantRole` up to its write: the record it has read, and the policy it writes back. -/
def grantRead (members : List Bytes) (role tenant region : Bytes) (grant : Bool) :
    Except Err (Record × Bytes) :=
  match Storage.get deps readEnv store { key := some (key (bindingMinor tenant region)) } with
  | .error err => .error err
  | .ok record =>
    let bindings := applyBinding order (policyOf decoder codec record).bindings role members grant
    match codec.encode ⟨bindings⟩ with
    | .error err => .error err
    | .ok raw => .ok (record, raw)

/-- When the record can be read, a policy that reads back is written. -/
theorem grantRead_of_got (readsBack : codec.Lawful decoder) (members : List Bytes)
    (role tenant region : Bytes) (grant : Bool) (record : Record)
    (got : Storage.get deps readEnv store { key := some (key (bindingMinor tenant region)) } =
      .ok record) :
    ∃ raw, grantRead deps decoder codec order readEnv store members role tenant region grant =
        .ok (record, raw) ∧ raw ≠ [] ∧
      decoder.policy raw = some
        ⟨applyBinding order (policyOf decoder codec record).bindings role members grant⟩ := by
  obtain ⟨raw, encoded, nonempty, decoded⟩ := readsBack
    ⟨applyBinding order (policyOf decoder codec record).bindings role members grant⟩
  refine ⟨raw, ?_, nonempty, decoded⟩
  rw [grantRead, got]
  simp only [encoded]

def grantRole (members : List Bytes) (role tenant region : Bytes) (grant : Bool) :
    Except Err Unit × Store :=
  match grantRead deps decoder codec order readEnv store members role tenant region grant with
  | .error err => (.error err, store)
  | .ok (_, raw) =>
    let written := Storage.put deps writeEnv store
      { key := some (key (bindingMinor tenant region)), value := raw } index
    (written.1.map fun _ => (), written.2)

/-- What the console answers. -/
inductive Answer where
  | badRequest (text : String)
  | internalServerError (err : Err)
  | ok (scope role : Bytes)
  deriving DecidableEq, Repr

/-- The request is refused before anything is read. -/
def bindingRefused (request : BindingRequest) : Option String :=
  if request.role = [] ∨ request.members = [] then some "role and members are required"
  else if request.region ≠ [] ∧ request.tenant = [] then some "region requires tenant"
  else none

def iamChangeBinding (request : BindingRequest) (grant : Bool) : Answer × Store :=
  match bindingRefused request with
  | some text => (.badRequest text, store)
  | none =>
    match grantRole deps decoder codec order readEnv writeEnv index store request.members
        request.role request.tenant request.region grant with
    | (.error err, after) => (.internalServerError err, after)
    | (.ok _, after) =>
      (.ok (bindingScopeLabelOf request.tenant request.region) request.role, after)

end

end Console

namespace Cli

def mergeBinding (role : Bytes) (add : List Bytes) : List Binding → List Binding
  | [] => [⟨role, add.eraseDups⟩]
  | binding :: rest =>
    if binding.role = role then ⟨binding.role, (binding.members ++ add).eraseDups⟩ :: rest
    else binding :: mergeBinding role add rest

section

variable (deps : Deps) (decoder : Decoder) (codec : PolicyCodec) (readEnv writeEnv : Env)
  (index : UInt64) (store : Store)

/-- `GetRecord` of a policy with what is stored: an empty one when there is nothing. -/
def storedPolicy (stored : Option Bytes) : Except Err PolicyRecord :=
  match stored with
  | none => .ok ⟨[]⟩
  | some value =>
    match decoder.policy value with
    | none => .error (codec.failure value)
    | some policy => .ok policy

/-- The command `binding-add` up to its write, with the members it was given already split: the
record it has read, and the policy it writes back. -/
def bindingRead (request : BindingRequest) : Except Err (Record × Bytes) :=
  if request.region ≠ [] ∧ request.tenant = [] then .error (.text "--region requires --tenant")
  else if request.members = [] then .error (.text "--members is required")
  else
    match Storage.get deps readEnv store
        { key := some (key (bindingMinor request.tenant request.region)) } with
    | .error err => .error err
    | .ok record =>
      match storedPolicy decoder codec (content record) with
      | .error err => .error err
      | .ok policy =>
        match codec.encode ⟨mergeBinding request.role request.members policy.bindings⟩ with
        | .error err => .error err
        | .ok raw => .ok (record, raw)

def bindingAdd (request : BindingRequest) : Option Err × Store :=
  match bindingRead deps decoder codec readEnv store request with
  | .error err => (some err, store)
  | .ok (_, raw) =>
    match Storage.put deps writeEnv store
        { key := some (key (bindingMinor request.tenant request.region)), value := raw } index with
    | (.error err, after) => (some err, after)
    | (.ok _, after) => (none, after)

end

end Cli

/-- The two ways to add a binding. -/
inductive BindingWriter where
  | console (order : Console.MapOrder)
  | cli

/-- The store that adding a binding leaves. -/
def BindingWriter.add (writer : BindingWriter) (deps : Deps) (decoder : Decoder)
    (codec : PolicyCodec) (readEnv writeEnv : Env) (index : UInt64) (store : Store)
    (request : BindingRequest) : Store :=
  match writer with
  | .console order =>
    (Console.iamChangeBinding deps decoder codec order readEnv writeEnv index store request true).2
  | .cli => (Cli.bindingAdd deps decoder codec readEnv writeEnv index store request).2

/-- Adding a binding leaves the store, or puts a value under the key of the scope. -/
theorem add_cases (writer : BindingWriter) (deps : Deps) (decoder : Decoder) (codec : PolicyCodec)
    (readEnv writeEnv : Env) (index : UInt64) (store : Store) (request : BindingRequest) :
    writer.add deps decoder codec readEnv writeEnv index store request = store ∨ ∃ raw,
      writer.add deps decoder codec readEnv writeEnv index store request =
        (Storage.put deps writeEnv store
          { key := some (key (bindingMinor request.tenant request.region)), value := raw }
          index).2 := by
  cases writer with
  | console order =>
    unfold BindingWriter.add Console.iamChangeBinding
    simp only
    split
    · exact Or.inl rfl
    · have granted : (Console.grantRole deps decoder codec order readEnv writeEnv index store
          request.members request.role request.tenant request.region true).2 = store ∨ ∃ raw,
          (Console.grantRole deps decoder codec order readEnv writeEnv index store
            request.members request.role request.tenant request.region true).2 =
          (Storage.put deps writeEnv store
            { key := some (key (bindingMinor request.tenant request.region)), value := raw }
            index).2 := by
        unfold Console.grantRole
        split
        · exact Or.inl rfl
        · exact Or.inr ⟨_, rfl⟩
      split
      · rename_i err after outcome
        rwa [outcome] at granted
      · rename_i after outcome
        rwa [outcome] at granted
  | cli =>
    unfold BindingWriter.add Cli.bindingAdd
    simp only
    split
    · exact Or.inl rfl
    · rename_i raw _
      refine Or.inr ⟨raw, ?_⟩
      split <;> rename_i outcome <;> rw [outcome]

/-- Adding a binding changes what the engine holds only under the entry key of the scope, and only
when the engine accepts it. -/
theorem add_changes (writer : BindingWriter) (deps : Deps) (decoder : Decoder) (codec : PolicyCodec)
    (readEnv writeEnv : Env) (index : UInt64) (store : Store) (request : BindingRequest)
    (entryKey : Bytes)
    (changed : (writer.add deps decoder codec readEnv writeEnv index store request).db.read
      entryKey ≠ store.db.read entryKey) :
    refuseKey entryKey = none ∧
      entryKey = (encodeKey deps (key (bindingMinor request.tenant request.region))).1 := by
  rcases add_cases writer deps decoder codec readEnv writeEnv index store request with
    same | ⟨raw, isPut⟩
  · rw [same] at changed
    exact absurd rfl changed
  · rw [isPut] at changed
    obtain ⟨accepted, member⟩ :=
      mem_of_performed (put_performed deps writeEnv store index _) entryKey changed
    exact ⟨accepted, List.mem_singleton.mp member⟩

/-! ### What a policy record reaches -/

namespace Iam

/-- The view without the bindings of a scope. -/
def Snapshot.without (snapshot : Snapshot) (scope : Bytes) : Snapshot :=
  { snapshot with policies := Function.update snapshot.policies scope [] }

def Draft.without (draft : Draft) (scope : Bytes) : Draft :=
  { draft with snapshot := draft.snapshot.without scope }

/-- What a round of the loop adds does not depend on the bindings of a scope, but for that scope. -/
theorem without_add (decoder : Decoder) (scope : Bytes) (draft : Draft) (record : Record) :
    (draft.add decoder record).without scope =
      ((draft.without scope).add decoder record).without scope := by
  have forgotten : ∀ draft : Draft, draft.without scope = (draft.without scope).without scope := by
    intro draft
    simp only [Draft.without, Snapshot.without, Function.update_idem]
  unfold Draft.add
  split
  · exact forgotten draft
  · simp only
    split
    · exact forgotten draft
    split
    · cases decoder.user record.value with
      | none => exact forgotten draft
      | some user => exact forgotten (draft.addUser user)
    split
    · cases decoder.serviceAccount record.value with
      | none => exact forgotten draft
      | some account => exact forgotten (draft.addServiceAccount account)
    split
    · cases decoder.group record.value with
      | none => exact forgotten draft
      | some group => exact forgotten (draft.addGroup group)
    split
    · cases decoder.role record.value with
      | none => exact forgotten draft
      | some role =>
        have known : (draft.without scope).roleNames = draft.roleNames := rfl
        simp only [Option.elim_some, Draft.addRole, known]
        split
        · exact forgotten draft
        · exact forgotten { snapshot := { draft.snapshot with roles := _ }, roleNames := _ }
    split
    · exact forgotten draft
    · rename_i written _
      cases decoder.policy record.value with
      | none => exact forgotten draft
      | some policy =>
        simp only [Option.elim_some, Draft.addPolicy, Draft.without, Snapshot.without]
        by_cases same : written = scope
        · rw [same, Function.update_idem, Function.update_idem, Function.update_idem]
        · rw [Function.update_comm same, Function.update_comm same, Function.update_idem]

/-- A text that begins with another begins with its first byte. -/
theorem head_of_isPrefixOf {front text : Bytes} {byte : UInt8} {rest : Bytes}
    (layout : front = byte :: rest) (begins : front.isPrefixOf text = true) :
    text.head? = some byte := by
  subst layout
  cases text with
  | nil => cases begins
  | cons first tail =>
    rw [List.isPrefixOf_cons_cons, Bool.and_eq_true, beq_iff_eq] at begins
    rw [List.head?_cons, begins.1]

/-- The minor key of a policy record begins with the letter of its kind. -/
theorem head_of_policyScopeKey {minor scope : Bytes}
    (isPolicy : policyScopeKey minor = some scope) : minor.head? = some 112 := by
  unfold policyScopeKey at isPolicy
  split at isPolicy
  · rename_i isInstance
    rw [isInstance]
    rfl
  · split at isPolicy
    · rename_i begins
      exact head_of_isPrefixOf rfl begins
    · split at isPolicy
      · rename_i begins
        exact head_of_isPrefixOf rfl begins
      · cases isPolicy

/-- The minor key of a policy record is that of no other kind of record. -/
theorem kinds_of_policyScopeKey {minor scope : Bytes}
    (isPolicy : policyScopeKey minor = some scope) :
    ¬ userPrefix.isPrefixOf minor = true ∧ ¬ serviceAccountPrefix.isPrefixOf minor = true ∧
      ¬ groupPrefix.isPrefixOf minor = true ∧ ¬ rolePrefix.isPrefixOf minor = true := by
  have letter := head_of_policyScopeKey isPolicy
  have other : ∀ (front : Bytes) (byte : UInt8) (rest : Bytes), front = byte :: rest → byte ≠ 112 →
      ¬ front.isPrefixOf minor = true := by
    intro front byte rest layout different begins
    exact different (Option.some.inj ((head_of_isPrefixOf layout begins).symm.trans letter))
  exact ⟨other userPrefix 117 _ rfl (by decide), other serviceAccountPrefix 115 _ rfl (by decide),
    other groupPrefix 103 _ rfl (by decide), other rolePrefix 114 _ rfl (by decide)⟩

/-- The round of the loop for a policy record. -/
theorem add_policy (decoder : Decoder) (draft : Draft) (record : Record) (recordKey : Key)
    (named : record.key = some recordKey) (scope : Bytes)
    (isPolicy : policyScopeKey recordKey.minorKey = some scope) :
    draft.add decoder record =
      if record.value = [] then draft
      else (decoder.policy record.value).elim draft (draft.addPolicy scope) := by
  obtain ⟨notUser, notAccount, notGroup, notRole⟩ := kinds_of_policyScopeKey isPolicy
  unfold Draft.add
  simp only [named]
  rw [if_neg notUser, if_neg notAccount, if_neg notGroup, if_neg notRole, isPolicy]

/-- A policy record reaches the bindings of its scope only. -/
theorem without_add_policy (decoder : Decoder) (draft : Draft) (record : Record) (recordKey : Key)
    (named : record.key = some recordKey) (scope : Bytes)
    (isPolicy : policyScopeKey recordKey.minorKey = some scope) :
    (draft.add decoder record).without scope = draft.without scope := by
  rw [add_policy decoder draft record recordKey named scope isPolicy]
  split
  · rfl
  · cases decoder.policy record.value with
    | none => rfl
    | some policy =>
      simp only [Option.elim_some, Draft.addPolicy, Draft.without, Snapshot.without,
        Function.update_idem]

/-- The entries under the entry key of a policy record reach the bindings of its scope only. -/
theorem without_compile (deps : Deps) (decoder : Decoder) (now : Int64) (entryKey : Bytes)
    (recordKey : Key) (decoded : decodeKey deps entryKey = some (.ok recordKey)) (scope : Bytes)
    (isPolicy : policyScopeKey recordKey.minorKey = some scope) (entries : List (Bytes × Item))
    (draft other : Draft) (agree : draft.without scope = other.without scope) :
    ((entries.filterMap (sentRecord deps now false)).foldl (Draft.add decoder) draft).without
        scope =
      (((entries.filter fun entry => entry.1 ≠ entryKey).filterMap
        (sentRecord deps now false)).foldl (Draft.add decoder) other).without scope := by
  induction entries generalizing draft other with
  | nil => exact agree
  | cons entry rest inductionHypothesis =>
    by_cases named : entry.1 = entryKey
    · rw [List.filter_cons_of_neg (by simpa using named), List.filterMap_cons]
      cases sent : sentRecord deps now false entry with
      | none => exact inductionHypothesis draft other agree
      | some record =>
        have recordNamed : record.key = some recordKey := by
          rw [sentRecord, named, decoded] at sent
          simp only at sent
          split at sent
          · cases sent
          · cases sent
            rfl
        refine inductionHypothesis _ other ?_
        rw [without_add_policy decoder draft record recordKey recordNamed scope isPolicy, agree]
    · rw [List.filter_cons_of_pos (by simpa using named), List.filterMap_cons, List.filterMap_cons]
      cases sentRecord deps now false entry with
      | none => exact inductionHypothesis draft other agree
      | some record =>
        refine inductionHypothesis _ _ ?_
        rw [without_add, agree, ← without_add]

/-- The decision at a tenant and region does not depend on the bindings of other scopes. -/
theorem authorize_without (snapshot : Snapshot) (principal : Bytes) (permission : Permission)
    (tenant region scope : Bytes) (outside : scope ∉ scopes tenant region) :
    (snapshot.without scope).authorize principal permission tenant region =
      snapshot.authorize principal permission tenant region := by
  unfold Snapshot.authorize
  have consulted : (scopes tenant region).any ((snapshot.without scope).grants principal permission)
      = (scopes tenant region).any (snapshot.grants principal permission) := by
    rw [Bool.eq_iff_iff, List.any_eq_true, List.any_eq_true]
    refine exists_congr fun consulted => and_congr_right fun member => ?_
    have different : consulted ≠ scope := fun same => outside (same ▸ member)
    simp only [Snapshot.grants, Snapshot.without, Function.update_of_ne different]
  rw [consulted]
  rfl

end Iam

/-! ### Scopes as texts -/

namespace Iam

/-- The text of a scope in the compiled view. -/
def scopeKey (tenant region : Bytes) : Bytes :=
  if tenant = [] then str "i"
  else if region = [] then str "t/" ++ tenant
  else str "r/" ++ tenant ++ str "/" ++ region

theorem policyScopeKey_bindingMinor (tenant region : Bytes) :
    policyScopeKey (bindingMinor tenant region) = some (scopeKey tenant region) := by
  unfold bindingMinor scopeKey
  by_cases noTenant : tenant = []
  · rw [if_pos noTenant, if_pos noTenant]
    rfl
  · rw [if_neg noTenant, if_neg noTenant]
    by_cases noRegion : region = []
    · rw [if_pos noRegion, if_pos noRegion]
      rfl
    · rw [if_neg noRegion, if_neg noRegion]
      rfl

/-- A request at a tenant and region lies inside a scope. -/
def InScope (tenant region requestTenant requestRegion : Bytes) : Prop :=
  tenant = [] ∨ (requestTenant = tenant ∧ (region = [] ∨ requestRegion = region))

instance (tenant region requestTenant requestRegion : Bytes) :
    Decidable (InScope tenant region requestTenant requestRegion) :=
  inferInstanceAs (Decidable (_ ∨ _))

/-- The names of a region's scope, joined by a slash, cannot be split into names in another
place. -/
def Unambiguous (tenant region : Bytes) : Prop :=
  tenant = [] ∨ region = [] ∨ (47 ∉ tenant.drop 1 ∧ 47 ∉ region.dropLast)

instance (tenant region : Bytes) : Decidable (Unambiguous tenant region) :=
  inferInstanceAs (Decidable (_ ∨ _))

theorem eq_of_joined {tenant region otherTenant otherRegion : Bytes}
    (tenantSingle : 47 ∉ tenant.drop 1) (regionSingle : 47 ∉ region.dropLast)
    (hasTenant : otherTenant ≠ []) (hasRegion : otherRegion ≠ [])
    (joined : tenant ++ 47 :: region = otherTenant ++ 47 :: otherRegion) :
    otherTenant = tenant ∧ otherRegion = region := by
  rcases List.append_eq_append_iff.mp joined with ⟨middle, isOther, rest⟩ | ⟨middle, isOwn, rest⟩
  · cases middle with
    | nil =>
      rw [List.append_nil] at isOther
      exact ⟨isOther, (List.cons.inj rest).2.symm⟩
    | cons byte tail =>
      obtain ⟨rfl, tails⟩ := List.cons.inj rest
      have isRegion : region = tail ++ 47 :: otherRegion := tails
      refine absurd ?_ regionSingle
      rw [isRegion, List.dropLast_append_of_ne_nil (List.cons_ne_nil _ _),
        List.dropLast_cons_of_ne_nil hasRegion]
      exact List.mem_append_right _ List.mem_cons_self
  · cases middle with
    | nil =>
      rw [List.append_nil] at isOwn
      exact ⟨isOwn.symm, (List.cons.inj rest).2⟩
    | cons byte tail =>
      obtain ⟨rfl, _⟩ := List.cons.inj rest
      refine absurd ?_ tenantSingle
      obtain ⟨first, others, rfl⟩ := List.exists_cons_of_ne_nil hasTenant
      rw [isOwn]
      exact List.mem_append_right _ List.mem_cons_self

/-- A decision consults the bindings of a scope exactly when the texts are the same. -/
theorem scopeKey_mem_scopes (tenant region requestTenant requestRegion : Bytes) :
    scopeKey tenant region ∈ scopes requestTenant requestRegion ↔
      tenant = [] ∨ (tenant ≠ [] ∧ region = [] ∧ requestTenant = tenant) ∨
        (tenant ≠ [] ∧ region ≠ [] ∧ requestTenant ≠ [] ∧ requestRegion ≠ [] ∧
          tenant ++ 47 :: region = requestTenant ++ 47 :: requestRegion) := by
  -- The three kinds of text begin with different letters.
  have instanceText : str "i" = [105] := rfl
  have tenantText : ∀ name, str "t/" ++ name = 116 :: 47 :: name := fun _ => rfl
  have regionText : ∀ name rest, str "r/" ++ name ++ str "/" ++ rest =
      114 :: 47 :: (name ++ 47 :: rest) := by
    intro name rest
    rw [List.append_assoc (str "r/" ++ name), List.append_assoc (str "r/")]
    rfl
  unfold scopeKey scopes
  rw [instanceText, tenantText, tenantText, regionText, regionText]
  by_cases noTenant : tenant = []
  · simp [noTenant]
  · by_cases noRegion : region = []
    · by_cases noRequest : requestTenant = []
      · simp [noTenant, noRegion, noRequest, Ne.symm noTenant]
      · by_cases narrow : requestRegion = []
        · simp [noTenant, noRegion, noRequest, narrow, @eq_comm _ tenant]
        · simp [noTenant, noRegion, noRequest, narrow, @eq_comm _ tenant]
    · by_cases noRequest : requestTenant = []
      · simp [noTenant, noRegion, noRequest]
      · by_cases narrow : requestRegion = []
        · simp [noTenant, noRegion, noRequest, narrow]
        · simp [noTenant, noRegion, noRequest, narrow]

end Iam

namespace PolicyService

/-- Stores that differ in one policy record are compiled into views that agree everywhere but at
its scope. -/
theorem rebuild_without (deps : Deps) (lawful : deps.Lawful) (decoder : Decoder) (now : Int64)
    (first second : Store) (minor scope : Bytes) (isPolicy : policyScopeKey minor = some scope)
    (accepted : refuseKey (encodeKey deps (key minor)).1 = none)
    (same : ∀ entryKey, entryKey ≠ (encodeKey deps (key minor)).1 →
      first.db.read entryKey = second.db.read entryKey) (before : Snapshot)
    (compiled : rebuild deps decoder (.healthy now) first = .view before) :
    ∃ after, rebuild deps decoder (.healthy now) second = .view after ∧
      after.without scope = before.without scope := by
  have decoded := decodeKey_encodeKey deps lawful (key minor) (uncut_of_accepted deps _ accepted)
  generalize (encodeKey deps (key minor)).1 = entryKey at same decoded
  have others : ((identityEntries first).filter fun entry => entry.1 ≠ entryKey) =
      (identityEntries second).filter fun entry => entry.1 ≠ entryKey := by
    unfold identityEntries Store.entries
    rw [List.filter_filter, List.filter_filter]
    refine Mvcc.entries_filter_eq keyOrder_linear first.db second.db
      (fun stored => decide (stored ≠ entryKey) &&
        (encodeField systemTenant ++ encodeField region).isPrefixOf stored) fun stored kept => ?_
    exact same stored (of_decide_eq_true (Bool.and_eq_true_iff.mp kept).1)
  have undecodable : ∀ entries : List (Bytes × Item),
      (entries.any fun entry => (decodeKey deps entry.1).isNone) =
        (entries.filter fun entry => entry.1 ≠ entryKey).any
          fun entry => (decodeKey deps entry.1).isNone := by
    intro entries
    rw [List.any_filter, Bool.eq_iff_iff, List.any_eq_true, List.any_eq_true]
    refine exists_congr fun entry => and_congr_right fun _ => ?_
    by_cases named : entry.1 = entryKey
    · rw [named, decoded]
      simp
    · simp [named]
  rw [rebuild_healthy, undecodable, others, ← undecodable] at compiled
  rw [rebuild_healthy]
  split at compiled
  · cases compiled
  · rename_i decodes
    rw [if_neg decodes]
    refine ⟨_, rfl, ?_⟩
    cases compiled
    have firstOff := Iam.without_compile deps decoder now entryKey (key minor) decoded scope
      isPolicy (identityEntries first) newDraft newDraft rfl
    have secondOff := Iam.without_compile deps decoder now entryKey (key minor) decoded scope
      isPolicy (identityEntries second) newDraft newDraft rfl
    rw [others] at firstOff
    exact congrArg Draft.snapshot (secondOff.trans firstOff.symm)

/-! ### How far a binding reaches -/

/-- Adding a binding at a scope changes no decision of a principal without the admin flag outside
of the scope. -/
def Confined (deps : Deps) (decoder : Decoder) (codec : PolicyCodec) (tenant region : Bytes) :
    Prop :=
  ∀ (writer : BindingWriter) (readEnv writeEnv : Env) (index : UInt64) (store : Store)
    (role : Bytes) (members : List Bytes) (now : Int64) (before : Snapshot),
    rebuild deps decoder (.healthy now) store = .view before →
    ∃ after, rebuild deps decoder (.healthy now)
        (writer.add deps decoder codec readEnv writeEnv index store
          ⟨role, members, tenant, region⟩) = .view after ∧
      ∀ principal permission requestTenant requestRegion, before.admins principal = false →
        ¬ InScope tenant region requestTenant requestRegion →
        after.authorize principal permission requestTenant requestRegion =
          before.authorize principal permission requestTenant requestRegion

/-- The engine accepts the entry key of the policy record of a scope. -/
def Storable (deps : Deps) (tenant region : Bytes) : Prop :=
  refuseKey (encodeKey deps (key (bindingMinor tenant region))).1 = none

instance (deps : Deps) (tenant region : Bytes) : Decidable (Storable deps tenant region) :=
  inferInstanceAs (Decidable (_ = _))

/-- A binding at a scope with an unambiguous text stays there. -/
theorem confined_of_unambiguous (deps : Deps) (lawful : deps.Lawful) (decoder : Decoder)
    (codec : PolicyCodec) (tenant region : Bytes)
    (single : Storable deps tenant region → Unambiguous tenant region) :
    Confined deps decoder codec tenant region := by
  intro writer readEnv writeEnv index store role members now before compiled
  have changes := add_changes writer deps decoder codec readEnv writeEnv index store
    ⟨role, members, tenant, region⟩
  generalize writer.add deps decoder codec readEnv writeEnv index store
    ⟨role, members, tenant, region⟩ = added at changes ⊢
  by_cases storable : Storable deps tenant region
  · obtain ⟨after, isView, agree⟩ := rebuild_without deps lawful decoder now store added
      (bindingMinor tenant region) (scopeKey tenant region)
      (policyScopeKey_bindingMinor tenant region) storable
      (fun entryKey other => not_ne_iff.mp fun changed => other (changes entryKey changed.symm).2)
      before compiled
    refine ⟨after, isView, fun principal permission requestTenant requestRegion _ outside => ?_⟩
    have apart : scopeKey tenant region ∉ scopes requestTenant requestRegion := by
      intro consulted
      rcases (scopeKey_mem_scopes _ _ _ _).mp consulted with
        noTenant | ⟨_, noRegion, same⟩ | ⟨hasTenant, hasRegion, named, narrow, joined⟩
      · exact outside (Or.inl noTenant)
      · exact outside (Or.inr ⟨same, Or.inl noRegion⟩)
      · rcases single storable with noTenant | noRegion | ⟨tenantSingle, regionSingle⟩
        · exact hasTenant noTenant
        · exact hasRegion noRegion
        · obtain ⟨sameTenant, sameRegion⟩ :=
            eq_of_joined tenantSingle regionSingle named narrow joined
          exact outside (Or.inr ⟨sameTenant, Or.inr sameRegion⟩)
    rw [← authorize_without after _ _ _ _ _ apart, agree, authorize_without before _ _ _ _ _ apart]
  · have unchanged : ∀ entryKey, added.db.read entryKey = store.db.read entryKey := by
      intro entryKey
      by_contra changed
      obtain ⟨accepted, rfl⟩ := changes entryKey changed
      exact storable accepted
    have entries : identityEntries added = identityEntries store :=
      Mvcc.entries_filter_eq keyOrder_linear added.db store.db _ fun entryKey _ =>
        unchanged entryKey
    refine ⟨before, ?_, fun _ _ _ _ _ _ => rfl⟩
    rw [rebuild_healthy, entries, ← rebuild_healthy]
    exact compiled

/-- Map keys come out in the order they were put in. -/
def insertionOrder : Console.MapOrder := ⟨fun _ names => names, fun _ _ => .rfl⟩

/-- A grant of the role that reads, by the console on an empty store. -/
def firstGrant (deps : Deps) (decoder : Decoder) (codec : PolicyCodec) (tenant region : Bytes) :
    Store :=
  (BindingWriter.console insertionOrder).add deps decoder codec (.healthy 0) (.healthy 0) 1
    Store.empty ⟨str "roles/cdb.viewer", [str "user:alice"], tenant, region⟩

/-- The policy of the first grant. -/
def firstPolicy : PolicyRecord := ⟨[⟨str "roles/cdb.viewer", [str "user:alice"]⟩]⟩

/-- The first grant stores its policy under the key of the scope, and nothing else. -/
theorem firstGrant_stored (deps : Deps) (lawful : deps.Lawful) (decoder : Decoder)
    (codec : PolicyCodec) (tenant region raw : Bytes) (encoded : codec.encode firstPolicy = .ok raw)
    (named : region ≠ [] → tenant ≠ []) (storable : Storable deps tenant region) :
    ∃ item, deps.decodeEnvelope item.value = ⟨1, 0, raw⟩ ∧
      (firstGrant deps decoder codec tenant region).entries =
        [((encodeKey deps (key (bindingMinor tenant region))).1, item)] := by
  refine ⟨Storage.putItem deps (.healthy 0)
    { key := some (key (bindingMinor tenant region)), value := raw } 1, lawful.envelope _ _ _, ?_⟩
  refine Eq.trans ?_ (Mvcc.entries_commit_empty keyOrder _ _)
  have got : Storage.get deps (.healthy 0) Store.empty
      { key := some (key (bindingMinor tenant region)) } =
        .ok (Storage.recordNotFound (key (bindingMinor tenant region))) := by
    unfold Storage.get
    simp only [get_healthy _ _ _ _ (encodeKey_ne_nil deps _)]
    rfl
  have taken : Console.policyOf decoder codec
      (Storage.recordNotFound (key (bindingMinor tenant region))) = ⟨[]⟩ := rfl
  have merged : Console.applyBinding insertionOrder [] (str "roles/cdb.viewer")
      [str "user:alice"] true = firstPolicy.bindings := by decide
  have refused : ¬ (region ≠ [] ∧ tenant = []) := fun both => named both.1 both.2
  unfold firstGrant BindingWriter.add Console.iamChangeBinding Console.bindingRefused
    Console.grantRole Console.grantRead
  simp only [if_neg refused, got, taken, merged, encoded]
  unfold Storage.put
  simp only [currentVersion_healthy, setEntry_healthy _ _ _ _ _ storable]
  rfl

/-- The first grant is all the compiled view has. -/
theorem rebuild_firstGrant (deps : Deps) (lawful : deps.Lawful) (decoder : Decoder)
    (codec : PolicyCodec) (readsBack : codec.Lawful decoder) (tenant region : Bytes)
    (named : region ≠ [] → tenant ≠ []) (storable : Storable deps tenant region) :
    rebuild deps decoder (.healthy 0) (firstGrant deps decoder codec tenant region) =
      .view (newDraft.addPolicy (scopeKey tenant region) firstPolicy).snapshot := by
  obtain ⟨raw, encoded, nonempty, readBack⟩ := readsBack firstPolicy
  obtain ⟨item, isItem, entries⟩ :=
    firstGrant_stored deps lawful decoder codec tenant region raw encoded named storable
  have isPolicy := policyScopeKey_bindingMinor tenant region
  have decoded := decodeKey_encodeKey deps lawful _ (uncut_of_accepted deps _ storable)
  have inside : (encodeField systemTenant ++ encodeField Iam.region).isPrefixOf
      (encodeKey deps (key (bindingMinor tenant region))).1 = true := by
    obtain ⟨rest, front⟩ := encodeKey_front deps (key (bindingMinor tenant region))
    rw [front, ← List.append_assoc, List.isPrefixOf_iff_prefix]
    exact List.prefix_append _ _
  have sent :
      sentRecord deps 0 false ((encodeKey deps (key (bindingMinor tenant region))).1, item) =
        some (Storage.itemRecord deps (key (bindingMinor tenant region))
          (encodeKey deps (key (bindingMinor tenant region))).1 item false) := by
    simp [sentRecord, decoded, isItem, lawful.neverExpires]
  have value : (Storage.itemRecord deps (key (bindingMinor tenant region))
      (encodeKey deps (key (bindingMinor tenant region))).1 item false).value = raw := by
    simp [Storage.itemRecord, isItem]
  have stored : identityEntries (firstGrant deps decoder codec tenant region) =
      [((encodeKey deps (key (bindingMinor tenant region))).1, item)] := by
    rw [identityEntries, entries, List.filter_cons, if_pos inside, List.filter_nil]
  rw [rebuild_healthy, stored, List.any_cons, decoded, List.filterMap_cons, sent]
  refine congrArg DirtyFlag.Compiled.view ?_
  unfold Iam.compile
  rw [List.filterMap_nil, List.foldl_cons, List.foldl_nil,
    add_policy decoder newDraft _ _ rfl _ isPolicy, value, if_neg nonempty, readBack]
  rfl

/-- The first grant lets its member read wherever its scope is consulted. -/
theorem firstGrant_authorizes (scope requestTenant requestRegion : Bytes)
    (consulted : scope ∈ scopes requestTenant requestRegion) :
    (newDraft.addPolicy scope firstPolicy).snapshot.authorize (str "user:alice") .recordsGet
      requestTenant requestRegion = true := by
  have granted : (newDraft.addPolicy scope firstPolicy).snapshot.grants (str "user:alice")
      .recordsGet scope = true := by
    simp only [Snapshot.grants, Draft.addPolicy, Function.update_self]
    decide
  have enabled : ¬ (str "user:alice" = [] ∨
      (newDraft.addPolicy scope firstPolicy).snapshot.disabled (str "user:alice") = true) := by
    rintro (empty | disabled)
    · exact absurd empty (by decide)
    · exact Bool.false_ne_true disabled
  have ordinary : ¬ (newDraft.addPolicy scope firstPolicy).snapshot.admins (str "user:alice") =
      true := fun admin => Bool.false_ne_true admin
  unfold Snapshot.authorize
  rw [if_neg enabled, if_neg ordinary]
  exact List.any_eq_true.mpr ⟨scope, consulted, granted⟩

/-- The names joined can be split in another place. -/
theorem exists_other_split {tenant region : Bytes} (ambiguous : ¬ Unambiguous tenant region) :
    ∃ otherTenant otherRegion, otherTenant ≠ [] ∧ otherRegion ≠ [] ∧ otherTenant ≠ tenant ∧
      tenant ++ 47 :: region = otherTenant ++ 47 :: otherRegion := by
  rw [Unambiguous, not_or, not_or, not_and_or, not_not, not_not] at ambiguous
  obtain ⟨hasTenant, hasRegion, inTenant | inRegion⟩ := ambiguous
  · obtain ⟨first, rest, rfl⟩ := List.exists_cons_of_ne_nil hasTenant
    obtain ⟨front, back, isRest⟩ := List.append_of_mem inTenant
    have layout : rest = front ++ 47 :: back := isRest
    refine ⟨first :: front, back ++ 47 :: region, List.cons_ne_nil _ _, by simp, ?_, ?_⟩
    · rw [layout]
      simp
    · rw [layout]
      simp
  · obtain ⟨front, back, isFront⟩ := List.append_of_mem inRegion
    have layout : region = front ++ 47 :: (back ++ [region.getLast hasRegion]) := by
      rw [← List.cons_append, ← List.append_assoc, ← isFront, List.dropLast_concat_getLast]
    refine ⟨tenant ++ 47 :: front, back ++ [region.getLast hasRegion], by simp, by simp, by simp,
      ?_⟩
    rw [List.append_assoc, List.cons_append, ← layout]

/-- A binding whose scope has an ambiguous text reaches the region of another tenant. -/
theorem not_confined_of_ambiguous (deps : Deps) (lawful : deps.Lawful) (decoder : Decoder)
    (codec : PolicyCodec) (readsBack : codec.Lawful decoder) (tenant region : Bytes)
    (named : region ≠ [] → tenant ≠ []) (storable : Storable deps tenant region)
    (ambiguous : ¬ Unambiguous tenant region) : ¬ Confined deps decoder codec tenant region := by
  intro confined
  obtain ⟨otherTenant, otherRegion, hasTenant, hasRegion, different, joined⟩ :=
    exists_other_split ambiguous
  rw [Unambiguous, not_or, not_or] at ambiguous
  have consulted : scopeKey tenant region ∈ scopes otherTenant otherRegion :=
    (scopeKey_mem_scopes _ _ _ _).mpr
      (Or.inr (Or.inr ⟨ambiguous.1, ambiguous.2.1, hasTenant, hasRegion, joined⟩))
  have outside : ¬ InScope tenant region otherTenant otherRegion := by
    rintro (noTenant | ⟨same, _⟩)
    · exact ambiguous.1 noTenant
    · exact different same
  have empty : rebuild deps decoder (.healthy 0) Store.empty = .view newSnapshot := by
    rw [rebuild_healthy]
    rfl
  obtain ⟨after, isView, kept⟩ := confined (.console insertionOrder) (.healthy 0) (.healthy 0) 1
    Store.empty (str "roles/cdb.viewer") [str "user:alice"] 0 newSnapshot empty
  have granted :=
    rebuild_firstGrant deps lawful decoder codec readsBack tenant region named storable
  obtain rfl := DirtyFlag.Compiled.view.inj (isView.symm.trans granted)
  have decision := kept (str "user:alice") .recordsGet otherTenant otherRegion rfl outside
  rw [firstGrant_authorizes _ _ _ consulted] at decision
  have denied : newSnapshot.authorize (str "user:alice") .recordsGet otherTenant otherRegion =
      false := by
    simp [Snapshot.authorize, Snapshot.grants, newSnapshot]
  rw [denied] at decision
  cases decision

/-- Adding a binding at a scope changes decisions inside of the scope only, exactly when the joined
names of the scope cannot be split in another place, or their record cannot be stored. -/
theorem binding_confined_iff (deps : Deps) (lawful : deps.Lawful) (decoder : Decoder)
    (codec : PolicyCodec) (readsBack : codec.Lawful decoder) (tenant region : Bytes)
    (named : region ≠ [] → tenant ≠ []) :
    Confined deps decoder codec tenant region ↔
      (Storable deps tenant region → Unambiguous tenant region) := by
  constructor
  · intro confined storable
    by_contra ambiguous
    exact not_confined_of_ambiguous deps lawful decoder codec readsBack tenant region named storable
      ambiguous confined
  · exact confined_of_unambiguous deps lawful decoder codec tenant region

/-- Policy records in the format that `sampleDecoder` reads. -/
def sampleCodec : PolicyCodec where
  encode policy := .ok ((Format.bytes.pair Format.bytes.list).list.put
    (policy.bindings.map fun binding => (binding.role, binding.members)))
  failure _ := .external "unpack"
  leaves _ := ⟨[]⟩

theorem sampleCodec_lawful : sampleCodec.Lawful sampleDecoder := by
  intro policy
  refine ⟨_, rfl, ?_, ?_⟩
  · exact List.ne_nil_of_length_pos (Nat.zero_lt_of_lt (Format.length_lt_putMany _ _))
  · simp only [sampleDecoder, Format.getAll_put, Option.map_some, List.map_map]
    exact congrArg some (congrArg PolicyRecord.mk (List.map_id policy.bindings))

/-- A binding at a region of one tenant stays there. -/
theorem binding_confined_iff_sample :
    Confined Reference.deps sampleDecoder sampleCodec (str "acme") (str "EU") :=
  (binding_confined_iff Reference.deps Reference.lawful sampleDecoder sampleCodec
    sampleCodec_lawful (str "acme") (str "EU") fun _ => by decide).mpr
    fun _ => by decide

/-- A binding for the region `orders` of the tenant `acme/EU` lets its member read the region
`EU/orders` of the tenant `acme`. -/
theorem binding_reaches_other_tenant :
    (Console.iamChangeBinding Reference.deps sampleDecoder sampleCodec insertionOrder (.healthy 0)
      (.healthy 0) 1 Store.empty
      ⟨str "roles/cdb.viewer", [str "user:alice"], str "acme/EU", str "orders"⟩ true).1 =
        .ok (str "acme/EU/orders") (str "roles/cdb.viewer") ∧
    (∃ before, rebuild Reference.deps sampleDecoder (.healthy 0) Store.empty = .view before ∧
      before.authorize (str "user:alice") .recordsGet (str "acme") (str "EU/orders") = false) ∧
    ∃ after, rebuild Reference.deps sampleDecoder (.healthy 0)
        (firstGrant Reference.deps sampleDecoder sampleCodec (str "acme/EU") (str "orders")) =
          .view after ∧
      after.admins (str "user:alice") = false ∧
      after.authorize (str "user:alice") .recordsGet (str "acme") (str "EU/orders") = true ∧
      ¬ InScope (str "acme/EU") (str "orders") (str "acme") (str "EU/orders") := by
  have granted := rebuild_firstGrant Reference.deps Reference.lawful sampleDecoder sampleCodec
    sampleCodec_lawful (str "acme/EU") (str "orders") (fun _ => by decide) (by decide +kernel)
  refine ⟨by decide +kernel, ⟨newSnapshot, ?_, by decide +kernel⟩, _, granted, rfl, ?_, ?_⟩
  · rw [rebuild_healthy]
    rfl
  · exact firstGrant_authorizes _ _ _ (by decide +kernel)
  · decide +kernel

end PolicyService

end ConsensusDB
