/-
This file is about what the compiled view decides. A rebuild goes through the records
of the identity region in the order of their keys and fills five tables; a decision
then looks from scope to scope, through bindings, members and permissions. Neither the
order nor the tables show in the rule that comes out: it is a sentence about the
records themselves.

The records are those of a region in which no key has a timestamp and a record carries
the name its key ends with. A group is looked up for the principals it lists and never
for other groups, and a stored role under the name of a predefined one is not looked at.
-/

import ConsensusDB.Lib.Tables
import ConsensusDB.Bindings
import ConsensusDB.Enumeration
import ConsensusDB.Lookups

namespace ConsensusDB

open Wire Iam

namespace Iam

/-! ### The rule -/

/-- The identity records by name, and the policies by scope. -/
structure Directory where
  user : Bytes → Option UserRecord
  serviceAccount : Bytes → Option ServiceAccountRecord
  group : Bytes → Option GroupRecord
  role : Bytes → Option RoleRecord
  policy : (tenant region : Bytes) → Option PolicyRecord

namespace Directory

variable (directory : Directory) (principal : Bytes)

/-- The record of the principal, a user or a service account, has the flag. -/
def Disabled : Prop :=
  (∃ name user, directory.user name = some user ∧ user.disabled = true ∧
      principal = principalUser name) ∨
    ∃ name account, directory.serviceAccount name = some account ∧ account.disabled = true ∧
      principal = principalServiceAccount name

/-- The principal is a user whose record has the flag. -/
def Admin : Prop :=
  ∃ name user, directory.user name = some user ∧ user.admin = true ∧ principal = principalUser name

/-- The members include the principal, or a group whose record lists it. -/
def Includes (members : List Bytes) : Prop :=
  principal ∈ members ∨
    ∃ name group, directory.group name = some group ∧ principal ∈ group.members ∧
      principalGroup name ∈ members

/-- The role is predefined with the permission, or not predefined and stored with it. -/
def Carries (role permission : Bytes) : Prop :=
  if role ∈ newDraft.roleNames then Permission.ofName permission ∈ predefinedRoles role
  else ∃ stored, directory.role role = some stored ∧ permission ∈ stored.permissions

/-- The policy of a scope has a binding that grants the permission to the principal. -/
def Grants (permission tenant region : Bytes) : Prop :=
  ∃ policy, directory.policy tenant region = some policy ∧ ∃ binding ∈ policy.bindings,
    directory.Includes principal binding.members ∧ directory.Carries binding.role permission

/-- The rule: who is allowed what, at the instance, at a tenant or at a region of it. -/
def Allows (permission tenant region : Bytes) : Prop :=
  principal ≠ [] ∧ ¬ directory.Disabled principal ∧
    (directory.Admin principal ∨ directory.Grants principal permission [] [] ∨
      tenant ≠ [] ∧ directory.Grants principal permission tenant [] ∨
      tenant ≠ [] ∧ region ≠ [] ∧ directory.Grants principal permission tenant region)

/-- Two directories have the same users, accounts and policies, the same roles apart from those
under the name of a predefined one, and their groups list the principal alike. -/
structure AgreesFor (other : Directory) : Prop where
  users : directory.user = other.user
  accounts : directory.serviceAccount = other.serviceAccount
  policies : directory.policy = other.policy
  roles : ∀ name, name ∉ newDraft.roleNames → directory.role name = other.role name
  groups : ∀ name, (∃ group, directory.group name = some group ∧ principal ∈ group.members) ↔
    ∃ group, other.group name = some group ∧ principal ∈ group.members

/-- The rule looks at no other record. -/
theorem AgreesFor.allows {other : Directory} (agrees : directory.AgreesFor principal other)
    (permission tenant region : Bytes) :
    directory.Allows principal permission tenant region ↔
      other.Allows principal permission tenant region := by
  have includes : ∀ members, directory.Includes principal members ↔
      other.Includes principal members := by
    intro members
    refine or_congr_right (exists_congr fun name => ?_)
    constructor
    · rintro ⟨group, found, listed, named⟩
      obtain ⟨same, isSame, lists⟩ := (agrees.groups name).mp ⟨group, found, listed⟩
      exact ⟨same, isSame, lists, named⟩
    · rintro ⟨group, found, listed, named⟩
      obtain ⟨same, isSame, lists⟩ := (agrees.groups name).mpr ⟨group, found, listed⟩
      exact ⟨same, isSame, lists, named⟩
  have carries : ∀ role, directory.Carries role permission ↔ other.Carries role permission := by
    intro role
    unfold Carries
    by_cases predefined : role ∈ newDraft.roleNames
    · rw [if_pos predefined, if_pos predefined]
    · rw [if_neg predefined, if_neg predefined, agrees.roles role predefined]
  unfold Allows Disabled Admin Grants
  simp only [agrees.users, agrees.accounts, agrees.policies, includes, carries]

end Directory

/-! ### The records as notes -/

/-- What one record adds to the view. -/
inductive Note where
  | user (record : UserRecord)
  | serviceAccount (record : ServiceAccountRecord)
  | group (record : GroupRecord)
  | role (record : RoleRecord)
  | policy (scope : Bytes) (record : PolicyRecord)
  | nothing

/-- The note of a record, by the beginning of its key. -/
def noteOf (decoder : Decoder) (record : Record) : Note :=
  match record.key with
  | none => .nothing
  | some key =>
    let minor := key.minorKey
    if record.value = [] then .nothing
    else if userPrefix.isPrefixOf minor then (decoder.user record.value).elim .nothing .user
    else if serviceAccountPrefix.isPrefixOf minor then
      (decoder.serviceAccount record.value).elim .nothing .serviceAccount
    else if groupPrefix.isPrefixOf minor then (decoder.group record.value).elim .nothing .group
    else if rolePrefix.isPrefixOf minor then (decoder.role record.value).elim .nothing .role
    else
      match policyScopeKey minor with
      | none => .nothing
      | some scope => (decoder.policy record.value).elim .nothing (.policy scope)

def Draft.note (draft : Draft) : Note → Draft
  | .user record => draft.addUser record
  | .serviceAccount record => draft.addServiceAccount record
  | .group record => draft.addGroup record
  | .role record => draft.addRole record
  | .policy scope record => draft.addPolicy scope record
  | .nothing => draft

theorem note_noteOf (decoder : Decoder) (draft : Draft) (record : Record) :
    draft.note (noteOf decoder record) = draft.add decoder record := by
  unfold noteOf Draft.add
  cases record.key with
  | none => rfl
  | some key =>
    simp only
    split
    · rfl
    split
    · cases decoder.user record.value <;> rfl
    split
    · cases decoder.serviceAccount record.value <;> rfl
    split
    · cases decoder.group record.value <;> rfl
    split
    · cases decoder.role record.value <;> rfl
    cases policyScopeKey key.minorKey with
    | none => rfl
    | some scope => cases decoder.policy record.value <;> rfl

/-- The minor key a note comes from, when records carry the names of their keys. -/
def Note.place : Note → Bytes
  | .user record => userPrefix ++ record.name
  | .serviceAccount record => serviceAccountPrefix ++ record.name
  | .group record => groupPrefix ++ record.name
  | .role record => rolePrefix ++ record.name
  | .policy scope _ => str "policy/" ++ scope
  | .nothing => []

/-- The kind of a note is that of the minor key. -/
def Note.Suits (minor : Bytes) : Note → Prop
  | .user _ => userPrefix <+: minor
  | .serviceAccount _ => serviceAccountPrefix <+: minor
  | .group _ => groupPrefix <+: minor
  | .role _ => rolePrefix <+: minor
  | .policy scope _ => policyScopeKey minor = some scope
  | .nothing => False

/-- The note is what the value is decoded to. -/
def Note.Reads (decoder : Decoder) (value : Bytes) : Note → Prop
  | .user record => decoder.user value = some record
  | .serviceAccount record => decoder.serviceAccount value = some record
  | .group record => decoder.group value = some record
  | .role record => decoder.role value = some record
  | .policy _ record => decoder.policy value = some record
  | .nothing => False

theorem exists_of_elim {Found : Type} {found : Option Found} {make : Found → Note} {note : Note}
    (real : note ≠ .nothing) (isNote : found.elim .nothing make = note) :
    ∃ record, found = some record ∧ note = make record := by
  cases found with
  | none => exact absurd isNote.symm real
  | some record => exact ⟨record, rfl, isNote.symm⟩

/-- The note of a record is the one that suits its key and that its value is decoded to. -/
theorem noteOf_eq_iff (decoder : Decoder) (record : Record) (recordKey : Key)
    (named : record.key = some recordKey) (note : Note) (real : note ≠ .nothing) :
    noteOf decoder record = note ↔
      record.value ≠ [] ∧ note.Suits recordKey.minorKey ∧ note.Reads decoder record.value := by
  unfold noteOf
  simp only [named]
  constructor
  · intro isNote
    split at isNote
    · exact absurd isNote.symm real
    rename_i filled
    refine ⟨filled, ?_⟩
    split at isNote
    · rename_i begins
      obtain ⟨found, decoded, rfl⟩ := exists_of_elim real isNote
      exact ⟨List.isPrefixOf_iff_prefix.mp begins, decoded⟩
    split at isNote
    · rename_i begins
      obtain ⟨found, decoded, rfl⟩ := exists_of_elim real isNote
      exact ⟨List.isPrefixOf_iff_prefix.mp begins, decoded⟩
    split at isNote
    · rename_i begins
      obtain ⟨found, decoded, rfl⟩ := exists_of_elim real isNote
      exact ⟨List.isPrefixOf_iff_prefix.mp begins, decoded⟩
    split at isNote
    · rename_i begins
      obtain ⟨found, decoded, rfl⟩ := exists_of_elim real isNote
      exact ⟨List.isPrefixOf_iff_prefix.mp begins, decoded⟩
    split at isNote
    · exact absurd isNote.symm real
    · rename_i scope isPolicy
      obtain ⟨found, decoded, rfl⟩ := exists_of_elim real isNote
      exact ⟨isPolicy, decoded⟩
  · rintro ⟨filled, suits, reads⟩
    rw [if_neg filled]
    generalize recordKey.minorKey = minor at suits
    cases note with
    | user found =>
      rw [if_pos (List.isPrefixOf_iff_prefix.mpr suits), reads, Option.elim_some]
    | serviceAccount found =>
      obtain ⟨name, rfl⟩ := suits
      rw [if_neg (by exact Bool.false_ne_true),
        if_pos (List.isPrefixOf_iff_prefix.mpr ⟨name, rfl⟩), reads, Option.elim_some]
    | group found =>
      obtain ⟨name, rfl⟩ := suits
      rw [if_neg (by exact Bool.false_ne_true), if_neg (by exact Bool.false_ne_true),
        if_pos (List.isPrefixOf_iff_prefix.mpr ⟨name, rfl⟩), reads, Option.elim_some]
    | role found =>
      obtain ⟨name, rfl⟩ := suits
      rw [if_neg (by exact Bool.false_ne_true), if_neg (by exact Bool.false_ne_true),
        if_neg (by exact Bool.false_ne_true), if_pos (List.isPrefixOf_iff_prefix.mpr ⟨name, rfl⟩),
        reads, Option.elim_some]
    | policy scope found =>
      obtain ⟨notUser, notAccount, notGroup, notRole⟩ := kinds_of_policyScopeKey suits
      rw [if_neg notUser, if_neg notAccount, if_neg notGroup, if_neg notRole, suits]
      simp only [show decoder.policy record.value = some found from reads, Option.elim_some]
    | nothing => exact absurd rfl real

/-! ### The tables of the view -/

section

variable (notes : List Note) (draft : Draft)

def Note.adminEntry : Note → Option (Bytes × Bool)
  | .user record => some (principalUser record.name, record.admin)
  | _ => none

def Note.disabledEntry : Note → Option (Bytes × Bool)
  | .user record => some (principalUser record.name, record.disabled)
  | .serviceAccount record => some (principalServiceAccount record.name, record.disabled)
  | _ => none

def Note.policyEntry : Note → Option (Bytes × List Binding)
  | .policy scope record => some (scope, record.bindings)
  | _ => none

theorem addRole_keeps (role : RoleRecord) :
    (draft.addRole role).snapshot.admins = draft.snapshot.admins ∧
      (draft.addRole role).snapshot.disabled = draft.snapshot.disabled ∧
      (draft.addRole role).snapshot.memberGroups = draft.snapshot.memberGroups ∧
      (draft.addRole role).snapshot.policies = draft.snapshot.policies := by
  unfold Draft.addRole
  split <;> exact ⟨rfl, rfl, rfl, rfl⟩

theorem admins_foldl :
    (notes.foldl Draft.note draft).snapshot.admins =
      notes.foldl (Tables.fill Note.adminEntry) draft.snapshot.admins := by
  refine (List.foldl_hom (fun draft : Draft => draft.snapshot.admins) fun draft note => ?_).symm
  cases note with
  | role record => exact (addRole_keeps draft record).1.symm
  | _ => rfl

theorem disabled_foldl :
    (notes.foldl Draft.note draft).snapshot.disabled =
      notes.foldl (Tables.fill Note.disabledEntry) draft.snapshot.disabled := by
  refine (List.foldl_hom (fun draft : Draft => draft.snapshot.disabled) fun draft note => ?_).symm
  cases note with
  | role record => exact (addRole_keeps draft record).2.1.symm
  | _ => rfl

theorem policies_foldl :
    (notes.foldl Draft.note draft).snapshot.policies =
      notes.foldl (Tables.fill Note.policyEntry) draft.snapshot.policies := by
  refine (List.foldl_hom (fun draft : Draft => draft.snapshot.policies) fun draft note => ?_).symm
  cases note with
  | role record => exact (addRole_keeps draft record).2.2.2.symm
  | _ => rfl

/-- A group record adds the group to each of its members. -/
theorem mem_addGroup (group : GroupRecord) (principal name : Bytes) :
    name ∈ (draft.addGroup group).snapshot.memberGroups principal ↔
      name ∈ draft.snapshot.memberGroups principal ∨
        principal ∈ group.members ∧ name = principalGroup group.name := by
  have folded : ∀ (members : List Bytes) (groups : Bytes → List Bytes),
      name ∈ members.foldl (fun groups member => Function.update groups member
          (groups member ++ [principalGroup group.name])) groups principal ↔
        name ∈ groups principal ∨ principal ∈ members ∧ name = principalGroup group.name := by
    intro members
    induction members with
    | nil => simp
    | cons member rest inductionHypothesis =>
      intro groups
      rw [List.foldl_cons, inductionHypothesis, List.mem_cons]
      by_cases same : principal = member
      · rw [same, Function.update_self, List.mem_append, List.mem_singleton]
        tauto
      · rw [Function.update_of_ne same]
        tauto
  exact folded group.members draft.snapshot.memberGroups

theorem mem_memberGroups_foldl (principal name : Bytes) :
    name ∈ (notes.foldl Draft.note draft).snapshot.memberGroups principal ↔
      name ∈ draft.snapshot.memberGroups principal ∨
        ∃ group, .group group ∈ notes ∧ principal ∈ group.members ∧
          name = principalGroup group.name := by
  induction notes generalizing draft with
  | nil => simp
  | cons note rest inductionHypothesis =>
    rw [List.foldl_cons, inductionHypothesis]
    cases note with
    | group record =>
      rw [show draft.note (.group record) = draft.addGroup record from rfl, mem_addGroup]
      simp only [List.mem_cons, Note.group.injEq]
      constructor
      · rintro ((before | added) | ⟨group, later, facts⟩)
        · exact Or.inl before
        · exact Or.inr ⟨record, Or.inl rfl, added⟩
        · exact Or.inr ⟨group, Or.inr later, facts⟩
      · rintro (before | ⟨group, rfl | later, facts⟩)
        · exact Or.inl (Or.inl before)
        · exact Or.inl (Or.inr facts)
        · exact Or.inr ⟨group, later, facts⟩
    | role record =>
      rw [show draft.note (.role record) = draft.addRole record from rfl,
        (addRole_keeps draft record).2.2.1]
      simp
    | user record => simp [Draft.note, Draft.addUser]
    | serviceAccount record => simp [Draft.note, Draft.addServiceAccount]
    | policy scope record => simp [Draft.note, Draft.addPolicy]
    | nothing => simp [Draft.note]

/-- A name that has a role keeps it. -/
theorem roles_of_known (name : Bytes) (known : name ∈ draft.roleNames) :
    (notes.foldl Draft.note draft).snapshot.roles name = draft.snapshot.roles name := by
  induction notes generalizing draft with
  | nil => rfl
  | cons note rest inductionHypothesis =>
    rw [List.foldl_cons]
    cases note with
    | role record =>
      by_cases taken : draft.roleNames.contains record.name = true
      · rw [Draft.note, Draft.addRole, if_pos taken, inductionHypothesis draft known]
      · have different : name ≠ record.name := by
          rintro rfl
          exact taken (List.contains_iff_mem.mpr known)
        rw [Draft.note, Draft.addRole, if_neg taken,
          inductionHypothesis _ (List.mem_cons_of_mem _ known)]
        exact Function.update_of_ne different _ _
    | _ => exact inductionHypothesis _ known

/-- A name without a role has none as long as no record of it comes. -/
theorem roles_of_absent (name : Bytes)
    (absent : ∀ record, .role record ∈ notes → record.name ≠ name) :
    (notes.foldl Draft.note draft).snapshot.roles name = draft.snapshot.roles name := by
  induction notes generalizing draft with
  | nil => rfl
  | cons note rest inductionHypothesis =>
    have later := fun draft => inductionHypothesis draft fun record member =>
      absent record (List.mem_cons_of_mem _ member)
    rw [List.foldl_cons, later]
    cases note with
    | role record =>
      have different := absent record List.mem_cons_self
      rw [Draft.note, Draft.addRole]
      split
      · rfl
      · exact Function.update_of_ne different.symm _ _
    | _ => rfl

/-- No two notes come from one place. -/
def Note.Apart (notes : List Note) : Prop :=
  notes.Pairwise fun early late => early ≠ .nothing → late ≠ .nothing → early.place ≠ late.place

/-- The record of a name without a role sets it. -/
theorem roles_of_mem (apart : Note.Apart notes) (record : RoleRecord)
    (member : .role record ∈ notes) (unknown : record.name ∉ draft.roleNames) :
    (notes.foldl Draft.note draft).snapshot.roles record.name =
      record.permissions.map Permission.ofName := by
  induction notes generalizing draft with
  | nil => cases member
  | cons note rest inductionHypothesis =>
    obtain ⟨differs, restApart⟩ := List.pairwise_cons.mp apart
    rw [List.foldl_cons]
    rcases List.mem_cons.mp member with rfl | later
    · have fresh : ¬ draft.roleNames.contains record.name = true :=
        fun taken => unknown (List.contains_iff_mem.mp taken)
      rw [roles_of_known rest _ record.name (by
        rw [Draft.note, Draft.addRole, if_neg fresh]
        exact List.mem_cons_self), Draft.note, Draft.addRole, if_neg fresh]
      exact Function.update_self _ _ _
    · refine inductionHypothesis _ restApart later ?_
      cases note with
      | role other =>
        have isRole : ∀ role, Note.role role ≠ .nothing := fun role same => by cases same
        have different : record.name ≠ other.name := fun same =>
          differs _ later (isRole other) (isRole record) (congrArg (rolePrefix ++ ·) same.symm)
        rw [Draft.note, Draft.addRole]
        split
        · exact unknown
        · exact fun known => (List.mem_cons.mp known).elim different unknown
      | _ => exact unknown

end

section

variable {notes : List Note} (apart : Note.Apart notes)

include apart in
/-- Entries of notes that come from different places have different keys. -/
theorem distinct_of_apart {Value : Type} (entry : Note → Option (Bytes × Value))
    (placed : ∀ early late key value other, entry early = some (key, value) →
      entry late = some (key, other) → early ≠ .nothing ∧ late ≠ .nothing ∧
        early.place = late.place) : Tables.Distinct entry notes :=
  apart.imp fun {early late} differs key value other isEarly isLate =>
    have ⟨realEarly, realLate, same⟩ := placed early late key value other isEarly isLate
    differs realEarly realLate same

theorem principalUser_inj {first second : Bytes}
    (same : principalUser first = principalUser second) : first = second :=
  List.append_cancel_left same

theorem principalServiceAccount_inj {first second : Bytes}
    (same : principalServiceAccount first = principalServiceAccount second) : first = second :=
  List.append_cancel_left same

theorem principalUser_ne_account (first second : Bytes) :
    principalUser first ≠ principalServiceAccount second := by
  intro same
  have letters : some (117 : UInt8) = some 115 := congrArg List.head? same
  exact absurd letters (by decide)

include apart in
theorem admins_iff (principal : Bytes) :
    (notes.foldl Draft.note newDraft).snapshot.admins principal = true ↔
      ∃ record, .user record ∈ notes ∧ record.admin = true ∧
        principal = principalUser record.name := by
  have distinct : Tables.Distinct Note.adminEntry notes := by
    refine distinct_of_apart apart _ fun early late key value other isEarly isLate => ?_
    cases early with
    | user first =>
      cases late with
      | user second =>
        obtain ⟨rfl, _⟩ := Prod.mk.inj (Option.some.inj isEarly)
        have same := principalUser_inj (Prod.mk.inj (Option.some.inj isLate)).1
        exact ⟨nofun, nofun, congrArg (userPrefix ++ ·) same.symm⟩
      | _ => cases isLate
    | _ => cases isEarly
  rw [admins_foldl]
  refine (Tables.foldl_fill_eq_iff _ notes distinct false true (by decide) principal).trans ?_
  constructor
  · rintro ⟨note, member, sets⟩
    cases note with
    | user record =>
      obtain ⟨isPrincipal, admin⟩ := Prod.mk.inj (Option.some.inj sets)
      exact ⟨record, member, admin, isPrincipal.symm⟩
    | _ => cases sets
  · rintro ⟨record, member, admin, rfl⟩
    exact ⟨_, member, congrArg (fun flag => some (_, flag)) admin⟩

include apart in
theorem distinct_disabledEntry : Tables.Distinct Note.disabledEntry notes := by
  refine distinct_of_apart apart _ fun early late key value other isEarly isLate => ?_
  cases early with
  | user first =>
    obtain ⟨rfl, _⟩ := Prod.mk.inj (Option.some.inj isEarly)
    cases late with
    | user second =>
      have same := principalUser_inj (Prod.mk.inj (Option.some.inj isLate)).1
      exact ⟨nofun, nofun, congrArg (userPrefix ++ ·) same.symm⟩
    | serviceAccount second =>
      exact absurd (Prod.mk.inj (Option.some.inj isLate)).1.symm (principalUser_ne_account _ _)
    | _ => cases isLate
  | serviceAccount first =>
    obtain ⟨rfl, _⟩ := Prod.mk.inj (Option.some.inj isEarly)
    cases late with
    | user second =>
      exact absurd (Prod.mk.inj (Option.some.inj isLate)).1 (principalUser_ne_account _ _)
    | serviceAccount second =>
      have same := principalServiceAccount_inj (Prod.mk.inj (Option.some.inj isLate)).1
      exact ⟨nofun, nofun, congrArg (serviceAccountPrefix ++ ·) same.symm⟩
    | _ => cases isLate
  | _ => cases isEarly

include apart in
theorem disabled_iff (principal : Bytes) :
    (notes.foldl Draft.note newDraft).snapshot.disabled principal = true ↔
      (∃ record, .user record ∈ notes ∧ record.disabled = true ∧
          principal = principalUser record.name) ∨
        ∃ record, .serviceAccount record ∈ notes ∧ record.disabled = true ∧
          principal = principalServiceAccount record.name := by
  rw [disabled_foldl]
  refine (Tables.foldl_fill_eq_iff _ notes (distinct_disabledEntry apart) false true (by decide)
    principal).trans ?_
  constructor
  · rintro ⟨note, member, sets⟩
    cases note with
    | user record =>
      obtain ⟨isPrincipal, disabled⟩ := Prod.mk.inj (Option.some.inj sets)
      exact Or.inl ⟨record, member, disabled, isPrincipal.symm⟩
    | serviceAccount record =>
      obtain ⟨isPrincipal, disabled⟩ := Prod.mk.inj (Option.some.inj sets)
      exact Or.inr ⟨record, member, disabled, isPrincipal.symm⟩
    | _ => cases sets
  · rintro (⟨record, member, disabled, rfl⟩ | ⟨record, member, disabled, rfl⟩)
    · exact ⟨_, member, congrArg (fun flag => some (_, flag)) disabled⟩
    · exact ⟨_, member, congrArg (fun flag => some (_, flag)) disabled⟩

include apart in
theorem mem_policies_iff (scope : Bytes) (binding : Binding) :
    binding ∈ (notes.foldl Draft.note newDraft).snapshot.policies scope ↔
      ∃ record, .policy scope record ∈ notes ∧ binding ∈ record.bindings := by
  have distinct : Tables.Distinct Note.policyEntry notes := by
    refine distinct_of_apart apart _ fun early late key value other isEarly isLate => ?_
    cases early with
    | policy first _ =>
      cases late with
      | policy second _ =>
        obtain ⟨rfl, _⟩ := Prod.mk.inj (Option.some.inj isEarly)
        obtain ⟨rfl, _⟩ := Prod.mk.inj (Option.some.inj isLate)
        exact ⟨nofun, nofun, rfl⟩
      | _ => cases isLate
    | _ => cases isEarly
  rw [policies_foldl]
  constructor
  · intro bound
    obtain ⟨note, member, sets⟩ := (Tables.foldl_fill_eq_iff Note.policyEntry notes distinct
      ([] : List Binding) _ (List.ne_nil_of_mem bound) scope).mp rfl
    cases note with
    | policy found record =>
      obtain ⟨rfl, isBindings⟩ := Prod.mk.inj (Option.some.inj sets)
      exact ⟨record, member, isBindings ▸ bound⟩
    | _ => cases sets
  · rintro ⟨record, member, bound⟩
    rw [Tables.foldl_fill_of_mem Note.policyEntry notes distinct _ member rfl]
    exact bound

theorem name_ofName (name : Bytes) : (Permission.ofName name).name = name := by
  unfold Permission.ofName
  cases found : allPermissions.find? fun permission => decide (permission.name = name) with
  | none => rfl
  | some permission =>
    have named := List.find?_some found
    exact of_decide_eq_true named

include apart in
theorem mem_roles_iff (role permission : Bytes) :
    Permission.ofName permission ∈ (notes.foldl Draft.note newDraft).snapshot.roles role ↔
      if role ∈ newDraft.roleNames then Permission.ofName permission ∈ predefinedRoles role
      else ∃ record, .role record ∈ notes ∧ record.name = role ∧
        permission ∈ record.permissions := by
  by_cases predefined : role ∈ newDraft.roleNames
  · rw [if_pos predefined, roles_of_known notes newDraft role predefined]
    rfl
  · rw [if_neg predefined]
    by_cases stored : ∃ record, .role record ∈ notes ∧ record.name = role
    · obtain ⟨record, member, rfl⟩ := stored
      rw [roles_of_mem notes newDraft apart record member predefined, List.mem_map]
      constructor
      · rintro ⟨listed, isListed, same⟩
        refine ⟨record, member, rfl, ?_⟩
        rwa [← name_ofName permission, ← same, name_ofName]
      · rintro ⟨other, isOther, sameName, listed⟩
        have same := roles_of_mem notes newDraft apart other isOther (sameName ▸ predefined)
        rw [sameName, roles_of_mem notes newDraft apart record member predefined] at same
        exact List.mem_map.mp (same ▸ List.mem_map_of_mem listed)
    · have absent : ∀ record, .role record ∈ notes → record.name ≠ role :=
        fun record member same => stored ⟨record, member, same⟩
      have none : predefinedRoles role = [] := by
        simp only [newDraft, List.mem_cons, List.not_mem_nil, or_false, not_or] at predefined
        obtain ⟨notViewer, notEditor, notAuditor, notAdmin⟩ := predefined
        rw [predefinedRoles, if_neg notViewer, if_neg notEditor, if_neg notAuditor,
          if_neg notAdmin]
      rw [roles_of_absent notes newDraft role absent,
        show newDraft.snapshot.roles role = predefinedRoles role from rfl, none]
      refine iff_of_false List.not_mem_nil ?_
      rintro ⟨record, member, same, _⟩
      exact absent record member same

end

theorem minor_of_policyScopeKey {minor scope : Bytes}
    (isPolicy : policyScopeKey minor = some scope) : minor = str "policy/" ++ scope := by
  unfold policyScopeKey at isPolicy
  split at isPolicy
  · rename_i isInstance
    rw [isInstance, ← Option.some.inj isPolicy]
    rfl
  · split at isPolicy
    · rename_i begins
      obtain ⟨name, rfl⟩ := List.isPrefixOf_iff_prefix.mp begins
      rw [List.drop_left] at isPolicy
      rw [← Option.some.inj isPolicy]
      rfl
    · split at isPolicy
      · rename_i begins
        obtain ⟨name, rfl⟩ := List.isPrefixOf_iff_prefix.mp begins
        rw [List.drop_left] at isPolicy
        rw [← Option.some.inj isPolicy]
        rfl
      · cases isPolicy

end Iam

namespace PolicyService

/-! ### The records of a store -/

/-- The identity records a store shows, by name. -/
def directory (deps : Deps) (decoder : Decoder) (now : Int64) (store : Store) : Directory where
  user name := (store.shown deps now (key (userPrefix ++ name))).bind decoder.user
  serviceAccount name :=
    (store.shown deps now (key (serviceAccountPrefix ++ name))).bind decoder.serviceAccount
  group name := (store.shown deps now (key (groupPrefix ++ name))).bind decoder.group
  role name := (store.shown deps now (key (rolePrefix ++ name))).bind decoder.role
  policy tenant region :=
    (store.shown deps now (key (bindingMinor tenant region))).bind decoder.policy

/-- The keys of the identity region have no timestamp, and records carry the names of their
keys. -/
structure Orderly (deps : Deps) (decoder : Decoder) (now : Int64) (store : Store) : Prop where
  plain : ∀ entry ∈ identityEntries store,
    refuseKey entry.1 = none ∧ ∃ minor, entry.1 = (encodeKey deps (key minor)).1
  user : ∀ name record, (directory deps decoder now store).user name = some record →
    record.name = name
  serviceAccount : ∀ name record,
    (directory deps decoder now store).serviceAccount name = some record → record.name = name
  group : ∀ name record, (directory deps decoder now store).group name = some record →
    record.name = name
  role : ∀ name record, (directory deps decoder now store).role name = some record →
    record.name = name

section

variable (deps : Deps) (lawful : deps.Lawful) (decoder : Decoder) (now : Int64) (store : Store)

/-- The records that a scan of the identity region sends. -/
def identityRecords : List Record := (identityEntries store).filterMap (sentRecord deps now false)

def notes : List Note := (identityRecords deps now store).map (noteOf decoder)

variable {deps decoder now store} (orderly : Orderly deps decoder now store)

include lawful orderly in
/-- A record that is sent is that of an entry with a key of the region. -/
theorem entry_of_sent {entry : Bytes × Item} (member : entry ∈ identityEntries store)
    {record : Record} (sent : sentRecord deps now false entry = some record) :
    ∃ minor, entry.1 = (encodeKey deps (key minor)).1 ∧
      deps.isExpired now (deps.decodeEnvelope entry.2.value).expiresAt = false ∧
      record = Storage.itemRecord deps (key minor) entry.1 entry.2 false := by
  obtain ⟨accepted, minor, isKey⟩ := orderly.plain entry member
  have decoded : decodeKey deps entry.1 = some (.ok (key minor)) := by
    rw [isKey] at accepted ⊢
    exact decodeKey_encodeKey deps lawful (key minor) (uncut_of_accepted deps _ accepted)
  rw [sentRecord, decoded] at sent
  simp only at sent
  split at sent
  · cases sent
  · rename_i alive
    exact ⟨minor, isKey, Bool.eq_false_iff.mpr alive, (Option.some.inj sent).symm⟩

include lawful orderly in
/-- The records with a value that are sent are those that are shown. -/
theorem mem_identityRecords_iff (minor value : Bytes) :
    (∃ record ∈ identityRecords deps now store, record.key = some (key minor) ∧
        record.value = value ∧ record.value ≠ []) ↔
      store.shown deps now (key minor) = some value := by
  constructor
  · rintro ⟨record, member, named, rfl, filled⟩
    obtain ⟨entry, isEntry, sent⟩ := List.mem_filterMap.mp member
    obtain ⟨found, isKey, alive, rfl⟩ := entry_of_sent lawful orderly isEntry sent
    have same : key found = key minor := Option.some.inj named
    have read := (Mvcc.mem_entries keyOrder store.db entry.1 entry.2).mp
      (List.mem_of_mem_filter isEntry)
    rw [isKey, same] at read
    unfold Store.shown Store.records
    rw [read]
    refine if_neg ?_
    rintro (expired | empty)
    · exact absurd (alive.symm.trans expired) Bool.false_ne_true
    · exact filled empty
  · intro isShown
    unfold Store.shown Store.records at isShown
    cases read : store.db.read (encodeKey deps (key minor)).1 with
    | none =>
      rw [read] at isShown
      cases isShown
    | some item =>
      rw [read] at isShown
      simp only [Option.map_some] at isShown
      split at isShown
      · cases isShown
      · rename_i visible
        rw [not_or] at visible
        have isEntry := mem_identityEntries rfl rfl read
        obtain ⟨accepted, _⟩ := orderly.plain _ isEntry
        have decoded := decodeKey_encodeKey deps lawful (key minor)
          (uncut_of_accepted deps _ accepted)
        refine ⟨Storage.itemRecord deps (key minor) (encodeKey deps (key minor)).1 item false,
          List.mem_filterMap.mpr ⟨_, isEntry, ?_⟩, rfl, Option.some.inj isShown, visible.2⟩
        rw [sentRecord, decoded]
        exact if_neg visible.1

include lawful orderly in
theorem mem_notes_iff (note : Note) (real : note ≠ .nothing) :
    note ∈ notes deps decoder now store ↔ ∃ minor value,
      store.shown deps now (key minor) = some value ∧ note.Suits minor ∧
        note.Reads decoder value := by
  constructor
  · intro member
    obtain ⟨record, isRecord, isNote⟩ := List.mem_map.mp member
    obtain ⟨entry, isEntry, sent⟩ := List.mem_filterMap.mp isRecord
    obtain ⟨minor, _, _, rfl⟩ := entry_of_sent lawful orderly isEntry sent
    obtain ⟨filled, suits, reads⟩ := (noteOf_eq_iff decoder _ (key minor) rfl note real).mp isNote
    exact ⟨minor, _, (mem_identityRecords_iff lawful orderly minor _).mp
      ⟨_, isRecord, rfl, rfl, filled⟩, suits, reads⟩
  · rintro ⟨minor, value, isShown, suits, reads⟩
    obtain ⟨record, isRecord, named, rfl, filled⟩ :=
      (mem_identityRecords_iff lawful orderly minor value).mpr isShown
    exact List.mem_map.mpr ⟨record, isRecord,
      (noteOf_eq_iff decoder record (key minor) named note real).mpr ⟨filled, suits, reads⟩⟩

include orderly in
/-- A note comes from its place. -/
theorem place_of_note {note : Note} {minor value : Bytes}
    (isShown : store.shown deps now (key minor) = some value) (suits : note.Suits minor)
    (reads : note.Reads decoder value) : minor = note.place := by
  cases note with
  | user record =>
    obtain ⟨name, rfl⟩ := suits
    rw [Note.place, orderly.user name record (Option.bind_eq_some_iff.mpr ⟨_, isShown, reads⟩)]
  | serviceAccount record =>
    obtain ⟨name, rfl⟩ := suits
    rw [Note.place,
      orderly.serviceAccount name record (Option.bind_eq_some_iff.mpr ⟨_, isShown, reads⟩)]
  | group record =>
    obtain ⟨name, rfl⟩ := suits
    rw [Note.place, orderly.group name record (Option.bind_eq_some_iff.mpr ⟨_, isShown, reads⟩)]
  | role record =>
    obtain ⟨name, rfl⟩ := suits
    rw [Note.place, orderly.role name record (Option.bind_eq_some_iff.mpr ⟨_, isShown, reads⟩)]
  | policy scope record => exact minor_of_policyScopeKey suits
  | nothing => exact suits.elim

include lawful orderly in
theorem mem_notes_at (note : Note) (real : note ≠ .nothing) (suits : note.Suits note.place) :
    note ∈ notes deps decoder now store ↔ ∃ value,
      store.shown deps now (key note.place) = some value ∧ note.Reads decoder value := by
  rw [mem_notes_iff lawful orderly note real]
  constructor
  · rintro ⟨minor, value, isShown, suitsMinor, reads⟩
    rw [place_of_note orderly isShown suitsMinor reads] at isShown
    exact ⟨value, isShown, reads⟩
  · rintro ⟨value, isShown, reads⟩
    exact ⟨note.place, value, isShown, suits, reads⟩

include lawful orderly in
/-- One key has one record, so no two notes come from one place. -/
theorem notes_apart : Note.Apart (notes deps decoder now store) := by
  have records : (identityRecords deps now store).Pairwise fun early late =>
      early.key ≠ late.key := by
    have strict : (identityEntries store).Pairwise fun early late => early.1 < late.1 :=
      (entries_strict store).filter _
    refine List.Pairwise.filterMap _ ?_ (List.Pairwise.and_mem.mp strict)
    intro early late ⟨isEarly, isLate, before⟩ first firstSent second secondSent same
    obtain ⟨minor, earlyKey, _, rfl⟩ := entry_of_sent lawful orderly isEarly firstSent
    obtain ⟨other, lateKey, _, rfl⟩ := entry_of_sent lawful orderly isLate secondSent
    have keys : key minor = key other := Option.some.inj same
    rw [earlyKey, lateKey, keys] at before
    exact List.lt_irrefl _ before
  refine List.pairwise_map.mpr ((List.Pairwise.and_mem.mp records).imp ?_)
  intro early late ⟨isEarly, isLate, different⟩ realEarly realLate same
  obtain ⟨entry, isEntry, sent⟩ := List.mem_filterMap.mp isEarly
  obtain ⟨minor, _, _, rfl⟩ := entry_of_sent lawful orderly isEntry sent
  obtain ⟨otherEntry, isOther, otherSent⟩ := List.mem_filterMap.mp isLate
  obtain ⟨other, _, _, rfl⟩ := entry_of_sent lawful orderly isOther otherSent
  obtain ⟨filled, suits, reads⟩ := (noteOf_eq_iff decoder _ (key minor) rfl _ realEarly).mp rfl
  obtain ⟨otherFilled, otherSuits, otherReads⟩ :=
    (noteOf_eq_iff decoder _ (key other) rfl _ realLate).mp rfl
  have place := place_of_note orderly ((mem_identityRecords_iff lawful orderly minor _).mp
    ⟨_, isEarly, rfl, rfl, filled⟩) suits reads
  have otherPlace := place_of_note orderly ((mem_identityRecords_iff lawful orderly other _).mp
    ⟨_, isLate, rfl, rfl, otherFilled⟩) otherSuits otherReads
  have minors : minor = other := place.trans (same.trans otherPlace.symm)
  exact different (congrArg (fun minor => some (key minor)) minors)

/-! ### The decision -/

variable (deps decoder now store) in
/-- The view that the records of the store are compiled to. -/
def view : Snapshot := ((notes deps decoder now store).foldl Draft.note newDraft).snapshot

include lawful orderly in
theorem rebuild_view : rebuild deps decoder (.healthy now) store =
    .view (view deps decoder now store) := by
  have decodes : ¬ ((identityEntries store).any fun entry =>
      (decodeKey deps entry.1).isNone) = true := by
    rw [List.any_eq_true]
    rintro ⟨entry, member, missing⟩
    obtain ⟨accepted, minor, isKey⟩ := orderly.plain entry member
    rw [isKey] at accepted missing
    rw [decodeKey_encodeKey deps lawful (key minor) (uncut_of_accepted deps _ accepted)] at missing
    cases missing
  rw [rebuild_healthy, if_neg decodes]
  refine congrArg DirtyFlag.Compiled.view ?_
  unfold view notes Iam.compile identityRecords
  rw [List.foldl_map]
  simp only [note_noteOf]

include lawful orderly in
theorem view_admins_iff (principal : Bytes) :
    (view deps decoder now store).admins principal = true ↔
      (directory deps decoder now store).Admin principal := by
  rw [view, admins_iff (notes_apart lawful orderly)]
  constructor
  · rintro ⟨record, member, admin, isPrincipal⟩
    have found := (mem_notes_at lawful orderly (.user record) nofun ⟨_, rfl⟩).mp member
    exact ⟨record.name, record, Option.bind_eq_some_iff.mpr found, admin, isPrincipal⟩
  · rintro ⟨name, record, found, admin, isPrincipal⟩
    obtain rfl := orderly.user name record found
    exact ⟨record, (mem_notes_at lawful orderly (.user record) nofun ⟨_, rfl⟩).mpr
      (Option.bind_eq_some_iff.mp found), admin, isPrincipal⟩

include lawful orderly in
theorem view_disabled_iff (principal : Bytes) :
    (view deps decoder now store).disabled principal = true ↔
      (directory deps decoder now store).Disabled principal := by
  rw [view, disabled_iff (notes_apart lawful orderly)]
  constructor
  · rintro (⟨record, member, disabled, isPrincipal⟩ | ⟨record, member, disabled, isPrincipal⟩)
    · have found := (mem_notes_at lawful orderly (.user record) nofun ⟨_, rfl⟩).mp member
      exact Or.inl ⟨record.name, record, Option.bind_eq_some_iff.mpr found, disabled, isPrincipal⟩
    · have found := (mem_notes_at lawful orderly (.serviceAccount record) nofun ⟨_, rfl⟩).mp member
      exact Or.inr ⟨record.name, record, Option.bind_eq_some_iff.mpr found, disabled, isPrincipal⟩
  · rintro (⟨name, record, found, disabled, isPrincipal⟩ |
      ⟨name, record, found, disabled, isPrincipal⟩)
    · obtain rfl := orderly.user name record found
      exact Or.inl ⟨record, (mem_notes_at lawful orderly (.user record) nofun ⟨_, rfl⟩).mpr
        (Option.bind_eq_some_iff.mp found), disabled, isPrincipal⟩
    · obtain rfl := orderly.serviceAccount name record found
      exact Or.inr ⟨record, (mem_notes_at lawful orderly (.serviceAccount record) nofun
        ⟨_, rfl⟩).mpr (Option.bind_eq_some_iff.mp found), disabled, isPrincipal⟩

include lawful orderly in
theorem view_includes_iff (principal : Bytes) (members : List Bytes) :
    (∃ member ∈ members, member = principal ∨
        member ∈ (view deps decoder now store).memberGroups principal) ↔
      (directory deps decoder now store).Includes principal members := by
  have groups : ∀ name, name ∈ (view deps decoder now store).memberGroups principal ↔
      ∃ group, .group group ∈ notes deps decoder now store ∧ principal ∈ group.members ∧
        name = principalGroup group.name := by
    intro name
    rw [view, mem_memberGroups_foldl]
    exact or_iff_right List.not_mem_nil
  constructor
  · rintro ⟨member, isMember, rfl | inGroup⟩
    · exact Or.inl isMember
    · obtain ⟨group, isNote, listed, rfl⟩ := (groups member).mp inGroup
      have found := (mem_notes_at lawful orderly (.group group) nofun ⟨_, rfl⟩).mp isNote
      exact Or.inr ⟨group.name, group, Option.bind_eq_some_iff.mpr found, listed, isMember⟩
  · rintro (isMember | ⟨name, group, found, listed, isMember⟩)
    · exact ⟨principal, isMember, Or.inl rfl⟩
    · obtain rfl := orderly.group name group found
      exact ⟨_, isMember, Or.inr ((groups _).mpr ⟨group,
        (mem_notes_at lawful orderly (.group group) nofun ⟨_, rfl⟩).mpr
          (Option.bind_eq_some_iff.mp found), listed, rfl⟩)⟩

include lawful orderly in
theorem view_carries_iff (role permission : Bytes) :
    Permission.ofName permission ∈ (view deps decoder now store).roles role ↔
      (directory deps decoder now store).Carries role permission := by
  rw [view, mem_roles_iff (notes_apart lawful orderly)]
  unfold Directory.Carries
  by_cases predefined : role ∈ newDraft.roleNames
  · rw [if_pos predefined, if_pos predefined]
  · rw [if_neg predefined, if_neg predefined]
    constructor
    · rintro ⟨record, member, rfl, listed⟩
      have found := (mem_notes_at lawful orderly (.role record) nofun ⟨_, rfl⟩).mp member
      exact ⟨record, Option.bind_eq_some_iff.mpr found, listed⟩
    · rintro ⟨record, found, listed⟩
      obtain rfl := orderly.role role record found
      exact ⟨record, (mem_notes_at lawful orderly (.role record) nofun ⟨_, rfl⟩).mpr
        (Option.bind_eq_some_iff.mp found), rfl, listed⟩

include lawful orderly in
theorem view_policies_iff (tenant region : Bytes) (binding : Binding) :
    binding ∈ (view deps decoder now store).policies (scopeKey tenant region) ↔
      ∃ policy, (directory deps decoder now store).policy tenant region = some policy ∧
        binding ∈ policy.bindings := by
  have isPolicy := policyScopeKey_bindingMinor tenant region
  have place := minor_of_policyScopeKey isPolicy
  rw [view, mem_policies_iff (notes_apart lawful orderly)]
  refine exists_congr fun policy => and_congr_left fun _ => ?_
  have suits : (Note.policy (scopeKey tenant region) policy).Suits
      (Note.policy (scopeKey tenant region) policy).place := by
    rw [Note.place, ← place]
    exact isPolicy
  rw [mem_notes_at lawful orderly (.policy (scopeKey tenant region) policy) nofun suits,
    Note.place, ← place]
  exact Option.bind_eq_some_iff.symm

include lawful orderly in
theorem view_grants_iff (principal permission tenant region : Bytes) :
    (view deps decoder now store).grants principal (Permission.ofName permission)
        (scopeKey tenant region) = true ↔
      (directory deps decoder now store).Grants principal permission tenant region := by
  unfold Snapshot.grants Directory.Grants
  simp only [List.any_eq_true, Bool.and_eq_true, Bool.or_eq_true, beq_iff_eq,
    List.contains_iff_mem, view_includes_iff lawful orderly, view_carries_iff lawful orderly,
    view_policies_iff lawful orderly]
  constructor
  · rintro ⟨binding, ⟨policy, found, member⟩, facts⟩
    exact ⟨policy, found, binding, member, facts⟩
  · rintro ⟨policy, found, binding, member, facts⟩
    exact ⟨binding, ⟨policy, found, member⟩, facts⟩

/-- The scopes a decision consults. -/
theorem exists_scope_iff (tenant region : Bytes) (holds : Bytes → Prop) :
    (∃ scope ∈ scopes tenant region, holds scope) ↔
      holds (scopeKey [] []) ∨ (tenant ≠ [] ∧ holds (scopeKey tenant [])) ∨
        tenant ≠ [] ∧ region ≠ [] ∧ holds (scopeKey tenant region) := by
  unfold scopes scopeKey
  by_cases noTenant : tenant = []
  · simp [noTenant]
  · by_cases noRegion : region = []
    · simp [noTenant, noRegion, or_comm]
    · simp [noTenant, noRegion]
      tauto

include lawful orderly in
theorem view_authorize_iff (principal permission tenant region : Bytes) :
    (view deps decoder now store).authorize principal (Permission.ofName permission) tenant
        region = true ↔
      (directory deps decoder now store).Allows principal permission tenant region := by
  have refused : principal = [] ∨ (view deps decoder now store).disabled principal = true ↔
      principal = [] ∨ (directory deps decoder now store).Disabled principal :=
    or_congr_right (view_disabled_iff lawful orderly principal)
  have granted : (scopes tenant region).any ((view deps decoder now store).grants principal
        (Permission.ofName permission)) = true ↔
      (directory deps decoder now store).Grants principal permission [] [] ∨
        (tenant ≠ [] ∧ (directory deps decoder now store).Grants principal permission tenant []) ∨
        tenant ≠ [] ∧ region ≠ [] ∧
          (directory deps decoder now store).Grants principal permission tenant region := by
    rw [List.any_eq_true]
    refine (exists_scope_iff tenant region fun scope => (view deps decoder now store).grants
      principal (Permission.ofName permission) scope = true).trans ?_
    simp only [view_grants_iff lawful orderly]
  unfold Snapshot.authorize Directory.Allows
  by_cases out : principal = [] ∨ (view deps decoder now store).disabled principal = true
  · rw [if_pos out]
    refine iff_of_false Bool.false_ne_true ?_
    rintro ⟨named, enabled, _⟩
    exact (refused.mp out).elim named enabled
  · rw [if_neg out, ite_eq_left_iff, ← granted, ← view_admins_iff lawful orderly]
    have within := not_or.mp (mt refused.mpr out)
    constructor
    · intro allowed
      refine ⟨within.1, within.2, ?_⟩
      by_cases admin : (view deps decoder now store).admins principal = true
      · exact Or.inl admin
      · exact Or.inr (allowed admin)
    · rintro ⟨_, _, admin | allowed⟩ notAdmin
      · exact absurd admin notAdmin
      · exact allowed

include lawful orderly in
/-- The compiled view decides by the rule on the stored records. So stores whose records agree, but
for stored roles under predefined names and for what groups list besides the principal, decide
alike. -/
theorem evaluation_matches_policy :
    ∃ snapshot, rebuild deps decoder (.healthy now) store = .view snapshot ∧
      ∀ principal,
        (∀ permission tenant region,
          snapshot.authorize principal (Permission.ofName permission) tenant region = true ↔
            (directory deps decoder now store).Allows principal permission tenant region) ∧
        ∀ other otherSnapshot, Orderly deps decoder now other →
          rebuild deps decoder (.healthy now) other = .view otherSnapshot →
          (directory deps decoder now store).AgreesFor principal
            (directory deps decoder now other) →
          ∀ permission tenant region,
            snapshot.authorize principal (Permission.ofName permission) tenant region =
              otherSnapshot.authorize principal (Permission.ofName permission) tenant region := by
  refine ⟨_, rebuild_view lawful orderly, fun principal =>
    ⟨view_authorize_iff lawful orderly principal, ?_⟩⟩
  intro other otherSnapshot otherOrderly rebuilt agrees permission tenant region
  rw [rebuild_view lawful otherOrderly] at rebuilt
  cases rebuilt
  rw [Bool.eq_iff_iff, view_authorize_iff lawful orderly, view_authorize_iff lawful otherOrderly]
  exact agrees.allows _ _ permission tenant region

end

/-! ### Writers keep the region in order -/

/-- A value carries the name of its minor key. -/
def Named (decoder : Decoder) (minor value : Bytes) : Prop :=
  ∀ note : Note, note.Suits minor → note.Reads decoder value → minor = note.place

theorem orderly_of_named (deps : Deps) (decoder : Decoder) (now : Int64) (store : Store)
    (plain : ∀ entry ∈ identityEntries store,
      refuseKey entry.1 = none ∧ ∃ minor, entry.1 = (encodeKey deps (key minor)).1)
    (named : ∀ minor value, store.shown deps now (key minor) = some value →
      Named decoder minor value) : Orderly deps decoder now store := by
  refine ⟨plain, fun name record found => ?_, fun name record found => ?_,
    fun name record found => ?_, fun name record found => ?_⟩
  · obtain ⟨value, isShown, decoded⟩ := Option.bind_eq_some_iff.mp found
    exact (List.append_cancel_left
      (named _ value isShown (.user record) ⟨name, rfl⟩ decoded)).symm
  · obtain ⟨value, isShown, decoded⟩ := Option.bind_eq_some_iff.mp found
    exact (List.append_cancel_left
      (named _ value isShown (.serviceAccount record) ⟨name, rfl⟩ decoded)).symm
  · obtain ⟨value, isShown, decoded⟩ := Option.bind_eq_some_iff.mp found
    exact (List.append_cancel_left
      (named _ value isShown (.group record) ⟨name, rfl⟩ decoded)).symm
  · obtain ⟨value, isShown, decoded⟩ := Option.bind_eq_some_iff.mp found
    exact (List.append_cancel_left
      (named _ value isShown (.role record) ⟨name, rfl⟩ decoded)).symm

theorem orderly_empty (deps : Deps) (decoder : Decoder) (now : Int64) :
    Orderly deps decoder now Store.empty :=
  orderly_of_named deps decoder now Store.empty (fun _ member => absurd member List.not_mem_nil)
    fun _ _ isShown => absurd isShown.symm (Option.some_ne_none _)

/-- A put of a record that carries the name of its key keeps the region in order. -/
theorem orderly_put (deps : Deps) (lawful : deps.Lawful) (decoder : Decoder) (now : Int64)
    (store : Store) (orderly : Orderly deps decoder now store) (env : Env) (index : UInt64)
    (minor value : Bytes) (named : Named decoder minor value) :
    Orderly deps decoder now
      (Storage.put deps env store { key := some (key minor), value := value } index).2 := by
  refine orderly_of_named deps decoder now _ (fun entry member => ?_) fun asked found isShown => ?_
  · obtain ⟨isEntry, inside⟩ := List.mem_filter.mp member
    have read := (Mvcc.mem_entries keyOrder _ entry.1 entry.2).mp isEntry
    by_cases same : (Storage.put deps env store { key := some (key minor), value := value }
        index).2.db.read entry.1 = store.db.read entry.1
    · rw [same] at read
      exact orderly.plain entry (List.mem_filter.mpr
        ⟨(Mvcc.mem_entries keyOrder store.db entry.1 entry.2).mpr read, inside⟩)
    · obtain ⟨accepted, written⟩ :=
        mem_of_performed (put_performed deps env store index _) entry.1 same
      exact ⟨accepted, minor, List.mem_singleton.mp written⟩
  · by_cases same : asked = minor
    · subst same
      rcases put_updates deps lawful env store { key := some (key asked), value := value }
          (key asked) rfl index with ⟨unchanged, _⟩ | ⟨_, _, _, stored⟩
      · rw [unchanged] at isShown
        exact fun note suits reads => place_of_note orderly isShown suits reads
      · unfold Store.shown at isShown
        rw [stored, Function.update_self] at isShown
        simp only at isShown
        split at isShown
        · cases isShown
        · obtain rfl := Option.some.inj isShown
          exact named
    · rw [shown_put_other deps now store lawful env index _ (key minor) rfl (key asked)
        fun keys => same (congrArg Key.minorKey keys)] at isShown
      exact fun note suits reads => place_of_note orderly isShown suits reads

/-! ### A group that may read -/

def sampleGroup : Bytes :=
  (Format.bytes.pair Format.bytes.list).put (str "ops", [str "user:alice"])

def samplePolicy : Bytes :=
  (Format.bytes.pair Format.bytes.list).list.put [(str "roles/cdb.viewer", [str "group:ops"])]

/-- A store in which a group may read the records of the instance. -/
def groupStore : Store :=
  (Storage.put Reference.deps (.healthy 100)
    (Storage.put Reference.deps (.healthy 100) Store.empty
      { key := some (key (str "group/ops")), value := sampleGroup } 0).2
    { key := some (key policyInstance), value := samplePolicy } 0).2

theorem groupStore_orderly : Orderly Reference.deps sampleDecoder 100 groupStore := by
  refine orderly_put Reference.deps Reference.lawful sampleDecoder 100 _
    (orderly_put Reference.deps Reference.lawful sampleDecoder 100 _
      (orderly_empty Reference.deps sampleDecoder 100) (.healthy 100) 0 (str "group/ops")
      sampleGroup ?_) (.healthy 100) 0 policyInstance samplePolicy ?_
  · intro note suits reads
    cases note with
    | group record =>
      have decoded : sampleDecoder.group sampleGroup = some ⟨str "ops", [str "user:alice"]⟩ := by
        rfl
      obtain rfl := Option.some.inj (decoded.symm.trans reads)
      rfl
    | policy scope record => cases suits
    | user record => exact absurd (List.isPrefixOf_iff_prefix.mpr suits) (by decide)
    | serviceAccount record =>
      exact absurd (List.isPrefixOf_iff_prefix.mpr suits) (by decide)
    | role record => exact absurd (List.isPrefixOf_iff_prefix.mpr suits) (by decide)
    | nothing => exact suits.elim
  · intro note suits reads
    obtain ⟨notUser, notAccount, notGroup, notRole⟩ :=
      kinds_of_policyScopeKey (show policyScopeKey policyInstance = some (str "i") from rfl)
    cases note with
    | policy scope record => exact minor_of_policyScopeKey suits
    | user record => exact absurd (List.isPrefixOf_iff_prefix.mpr suits) notUser
    | serviceAccount record => exact absurd (List.isPrefixOf_iff_prefix.mpr suits) notAccount
    | group record => exact absurd (List.isPrefixOf_iff_prefix.mpr suits) notGroup
    | role record => exact absurd (List.isPrefixOf_iff_prefix.mpr suits) notRole
    | nothing => exact suits.elim

/-- A member of the group may read at every tenant. -/
theorem evaluation_matches_policy_group :
    ∃ snapshot, rebuild Reference.deps sampleDecoder (.healthy 100) groupStore = .view snapshot ∧
      ∀ tenant region, snapshot.authorize (str "user:alice")
        (Permission.ofName (str "cdb.records.get")) tenant region = true := by
  obtain ⟨snapshot, rebuilt, decides⟩ :=
    evaluation_matches_policy Reference.lawful groupStore_orderly
  refine ⟨snapshot, rebuilt, fun tenant region => ((decides _).1 _ _ _).mpr ⟨by decide, ?_, ?_⟩⟩
  · rintro (⟨name, user, found, _, isAlice⟩ | ⟨name, account, found, _, isAlice⟩)
    · obtain rfl : str "alice" = name := principalUser_inj isAlice
      have absent : groupStore.shown Reference.deps 100 (key (str "user/alice")) = none := by
        decide +kernel
      have missing : (groupStore.shown Reference.deps 100 (key (str "user/alice"))).bind
        sampleDecoder.user = some user := found
      rw [absent] at missing
      cases missing
    · exact absurd isAlice (principalUser_ne_account (str "alice") name)
  · refine Or.inr (Or.inl ⟨⟨[⟨str "roles/cdb.viewer", [str "group:ops"]⟩]⟩, ?_,
      ⟨str "roles/cdb.viewer", [str "group:ops"]⟩, List.mem_cons_self, Or.inr ?_, ?_⟩)
    · have found : groupStore.shown Reference.deps 100 (key policyInstance) =
          some samplePolicy := by
        decide +kernel
      have reads : (groupStore.shown Reference.deps 100 (key policyInstance)).bind
          sampleDecoder.policy = some ⟨[⟨str "roles/cdb.viewer", [str "group:ops"]⟩]⟩ := by
        rw [found]
        rfl
      exact reads
    · have found : groupStore.shown Reference.deps 100 (key (str "group/ops")) =
          some sampleGroup := by
        decide +kernel
      have reads : (groupStore.shown Reference.deps 100 (key (str "group/ops"))).bind
          sampleDecoder.group = some ⟨str "ops", [str "user:alice"]⟩ := by
        rw [found]
        rfl
      exact ⟨str "ops", _, reads, List.mem_cons_self, List.mem_cons_self⟩
    · unfold Directory.Carries
      rw [if_pos (by decide)]
      decide

end PolicyService

end ConsensusDB
