/-
This file is `pkg/iam/policy.go`: permissions, roles, and the decision whether a
principal holds a permission at a scope. A binding grants a role to members at
the instance, at a tenant or at a region, and reaches downward only. Operations
on the system tenant require the permissions on identities in place of those on
records.

The maps of the compiled view are functions here; a key that a map lacks has the
zero value, as a lookup in the source does. The fact later files use is that a
decision only grows with the list of scopes it consults.
-/

import ConsensusDB.Data

namespace ConsensusDB

open Wire

namespace Iam

/-! ### Permissions and roles -/

/-- The permissions the server enforces, and any other text a stored role may list. -/
inductive Permission where
  | recordsGet
  | recordsPut
  | recordsDelete
  | recordsIncrement
  | recordsBatch
  | recordsEnumerate
  | recordsWatch
  | iamGet
  | iamSet
  | backupsCreate
  | backupsRestore
  | proofsRead
  | clusterAdmin
  | unknown (name : Bytes)
  deriving DecidableEq, Repr

def Permission.name : Permission → Bytes
  | .recordsGet => str "cdb.records.get"
  | .recordsPut => str "cdb.records.put"
  | .recordsDelete => str "cdb.records.delete"
  | .recordsIncrement => str "cdb.records.increment"
  | .recordsBatch => str "cdb.records.batch"
  | .recordsEnumerate => str "cdb.records.enumerate"
  | .recordsWatch => str "cdb.records.watch"
  | .iamGet => str "cdb.iam.get"
  | .iamSet => str "cdb.iam.set"
  | .backupsCreate => str "cdb.backups.create"
  | .backupsRestore => str "cdb.backups.restore"
  | .proofsRead => str "cdb.proofs.read"
  | .clusterAdmin => str "cdb.cluster.admin"
  | .unknown name => name

/-- The reserved tenant that owns the identity records. -/
def systemTenant : Bytes := str "__system"

structure Binding where
  role : Bytes
  members : List Bytes
  deriving DecidableEq, Repr

def viewer : List Permission := [.recordsGet, .recordsEnumerate, .recordsWatch]

def editor : List Permission :=
  [.recordsPut, .recordsDelete, .recordsIncrement, .recordsBatch] ++ viewer

/-- The compiled-in roles. -/
def predefinedRoles (role : Bytes) : List Permission :=
  if role = str "roles/cdb.viewer" then viewer
  else if role = str "roles/cdb.editor" then editor
  else if role = str "roles/cdb.auditor" then .proofsRead :: viewer
  else if role = str "roles/cdb.admin" then
    [.recordsGet, .recordsPut, .recordsDelete, .recordsIncrement, .recordsBatch, .recordsEnumerate,
      .recordsWatch, .iamGet, .iamSet, .backupsCreate, .backupsRestore, .proofsRead, .clusterAdmin]
  else []

/-- The permission a data-plane operation needs on a tenant. -/
def effectivePermission (permission : Permission) (tenant : Bytes) : Permission :=
  if tenant ≠ systemTenant then permission
  else
    match permission with
    | .recordsGet | .recordsEnumerate | .recordsWatch => .iamGet
    | _ => .iamSet

theorem effectivePermission_ordinary (permission : Permission) {tenant : Bytes}
    (ordinary : tenant ≠ systemTenant) : effectivePermission permission tenant = permission := by
  unfold effectivePermission
  exact if_pos ordinary

/-! ### The decision -/

/-- The compiled view of the identity records a node decides with. -/
structure Snapshot where
  admins : Bytes → Bool
  disabled : Bytes → Bool
  memberGroups : Bytes → List Bytes
  roles : Bytes → List Permission
  policies : Bytes → List Binding

def newSnapshot : Snapshot where
  admins _ := false
  disabled _ := false
  memberGroups _ := []
  roles := predefinedRoles
  policies _ := []

/-- The scopes whose bindings apply, from the narrowest to the instance. -/
def scopes (tenant region : Bytes) : List Bytes :=
  (if tenant ≠ [] ∧ region ≠ [] then [str "r/" ++ tenant ++ str "/" ++ region] else []) ++
    (if tenant ≠ [] then [str "t/" ++ tenant] else []) ++ [str "i"]

/-- Whether some binding at a scope grants the permission to the principal or to one of its
groups. -/
def Snapshot.grants (snapshot : Snapshot) (principal : Bytes) (permission : Permission)
    (scope : Bytes) : Bool :=
  (snapshot.policies scope).any fun binding =>
    (binding.members.any fun member =>
      member == principal || (snapshot.memberGroups principal).contains member) &&
    (snapshot.roles binding.role).contains permission

def Snapshot.authorize (snapshot : Snapshot) (principal : Bytes) (permission : Permission)
    (tenant region : Bytes) : Bool :=
  if principal = [] ∨ snapshot.disabled principal then false
  else if snapshot.admins principal then true
  else (scopes tenant region).any (snapshot.grants principal permission)

/-- A decision that consults more scopes grants no less. -/
theorem authorize_mono (snapshot : Snapshot) (principal : Bytes) (permission : Permission)
    (tenant region otherTenant otherRegion : Bytes)
    (narrower : scopes tenant region ⊆ scopes otherTenant otherRegion)
    (allowed : snapshot.authorize principal permission tenant region) :
    snapshot.authorize principal permission otherTenant otherRegion := by
  unfold Snapshot.authorize at allowed ⊢
  by_cases refused : principal = [] ∨ snapshot.disabled principal = true
  · rw [if_pos refused] at allowed
    cases allowed
  · rw [if_neg refused] at allowed ⊢
    by_cases admin : snapshot.admins principal = true
    · rw [if_pos admin]
    · rw [if_neg admin] at allowed ⊢
      obtain ⟨scope, member, granted⟩ := List.any_eq_true.mp allowed
      exact List.any_eq_true.mpr ⟨scope, narrower member, granted⟩

/-- Every decision consults the bindings of the instance. -/
theorem scopes_instance (region tenant otherRegion : Bytes) :
    scopes [] region ⊆ scopes tenant otherRegion := by
  intro scope member
  have isInstance : scope = str "i" := by simpa [scopes] using member
  rw [isInstance]
  exact List.mem_append_right _ List.mem_cons_self

/-- A decision at a region consults the bindings of its tenant. -/
theorem scopes_tenant (tenant region : Bytes) : scopes tenant [] ⊆ scopes tenant region := by
  intro scope member
  rw [scopes, if_neg (fun both => both.2 rfl), List.nil_append] at member
  rw [scopes, List.append_assoc]
  exact List.mem_append_right _ member

end Iam

end ConsensusDB
