import Mathlib.Data.List.AList

/-!
# The permission model of `pkg/roles`

**An embedding of `pkg/roles/permission.go`**: the permission modes, the Go maps a
`Permission` holds, `includeRoles`, and the four methods `Concat`, `Allow`, `Deny`
and `HasPermission`, each computed as the Go code computes it.

Go values are read as follows.

* A `map[PermissionMode][]string` is a `RoleMap`: `none` is the nil map, and a
  made map is an association list (`AList`) held in the order in which `range`
  visits it.  Go leaves that order unspecified, so a statement over every
  association list is a statement over every visiting order.
* A nil slice and an empty one are both `[]`.  `permission.go` tests a slice
  against nil only in front of `includeRoles`, which is `false` on `[]` anyway,
  and `append` of nothing to a nil slice leaves the key present either way.
* Each map and each role slice is read as a value.  That is exact for every
  permission the API builds: its two maps are made apart, and the backing array
  of each entry is allocated by an `append` onto that entry's own nil or
  zero-capacity slice, so no two entries share one.  The laws of calls and runs
  are stated for those permissions (`Reachable`, in `RolePolicy.Builder`).  A
  permission written by hand may hold one map in both fields, or entries that
  share a backing array with spare capacity, where `append` writes through to the
  other entry; a value model does not show that.
* Assigning into a nil map panics: `Allow` and `Deny` return `Except String`, with
  the runtime's message as the error.
* Go's exported methods and fields are written in lowerCamelCase: `HasPermission`
  is `Permission.hasPermission`, `AllowedRoles` is `Permission.allowedRoles`.
* `Anyone` and `Global` are declared in a file of `pkg/roles` that is not among
  the sources, so they are parameters: `Anyone : String`, and `Global : ρ` for
  the type `ρ` of `*Role` pointers, which `permission.go` only copies.
-/

namespace RolePolicy

/-! ## 1. Modes, maps and actors -/

/-- `PermissionMode` is a Go string type: every string is a mode. -/
abbrev PermissionMode := String

def create : PermissionMode := "create"
def read : PermissionMode := "read"
def update : PermissionMode := "update"
def delete : PermissionMode := "delete"
/-- The aggregate mode create+read+update+delete. -/
def crud : PermissionMode := "crud"

/-- A made `map[PermissionMode][]string`, in the order `range` visits it. -/
abbrev RoleTable := AList fun _ : PermissionMode => List String

/-- A Go value of type `map[PermissionMode][]string`; `none` is the nil map. -/
abbrev RoleMap := Option RoleTable

namespace RoleMap

/-- `m[mode]`, with `none` for a key the map does not hold (a nil map holds none). -/
def get (m : RoleMap) (mode : PermissionMode) : Option (List String) :=
  m.bind (AList.lookup mode)

/-- `len(m)`. -/
def len : RoleMap → Nat
  | none => 0
  | some t => t.keys.length

/-- The entries `for mode, roles := range m` visits, in order. -/
def entries : RoleMap → List (Σ _ : PermissionMode, List String)
  | none => []
  | some t => t.entries

@[simp] theorem get_none (mode : PermissionMode) : get none mode = none := rfl

@[simp] theorem get_some (t : RoleTable) (mode : PermissionMode) :
    get (some t) mode = t.lookup mode := rfl

theorem len_eq_zero {m : RoleMap} : m.len = 0 ↔ ∀ mode, m.get mode = none := by
  cases m with
  | none => simp [len]
  | some t =>
    simp only [len, List.length_eq_zero, get_some, AList.lookup_eq_none, AList.mem_keys]
    exact List.eq_nil_iff_forall_not_mem

end RoleMap

/-- An argument of `HasPermission`, an `interface{}`: a `string`, a value whose
    type implements `Roler` (with the names its `GetRoles` returns), or any other
    value. -/
inductive Actor
  | str (name : String)
  | roler (roles : List String)
  | other
  deriving DecidableEq, Repr

def Actor.names : Actor → List String
  | .str name => [name]
  | .roler roles => roles
  | .other => []

/-- `Permission`; `ρ` is the type of the `*Role` it is attributed to. -/
structure Permission (ρ : Type) where
  role : ρ
  allowedRoles : RoleMap
  deniedRoles : RoleMap

/-- The two maps of a `Permission`, which `Allow` and `Deny` write. -/
inductive RuleKind
  | allowed
  | denied
  deriving DecidableEq, Repr

variable {ρ : Type}

def Permission.rules (p : Permission ρ) : RuleKind → RoleMap
  | .allowed => p.allowedRoles
  | .denied => p.deniedRoles

def Permission.setRules (p : Permission ρ) : RuleKind → RoleMap → Permission ρ
  | .allowed, m => { p with allowedRoles := m }
  | .denied, m => { p with deniedRoles := m }

@[simp] theorem Permission.rules_setRules (p : Permission ρ) (kind kind' : RuleKind)
    (m : RoleMap) :
    (p.setRules kind m).rules kind' = if kind' = kind then m else p.rules kind' := by
  cases kind <;> cases kind' <;> rfl

@[simp] theorem Permission.role_setRules (p : Permission ρ) (kind : RuleKind) (m : RoleMap) :
    (p.setRules kind m).role = p.role := by
  cases kind <;> rfl

@[simp] theorem Permission.setRules_setRules (p : Permission ρ) (kind : RuleKind)
    (m m' : RoleMap) : (p.setRules kind m).setRules kind m' = p.setRules kind m' := by
  cases kind <;> rfl

@[simp] theorem Permission.setRules_rules (p : Permission ρ) (kind : RuleKind) :
    p.setRules kind (p.rules kind) = p := by
  cases kind <;> rfl

/-! ## 2. `includeRoles` and `HasPermission` -/

section Decision

variable (Anyone : String)

/-- `includeRoles(roles, values)`: the outer loop returns on `Anyone`, the inner
    one on a value equal to the role. -/
def includeRoles : List String → List String → Bool
  | [], _ => false
  | role :: roles, values =>
    role == Anyone || values.any (· == role) || includeRoles roles values

/-- The first loop of `HasPermission`: collect `roleNames` from the actors, or
    `none` for the early `return false` on an actor that is neither a `string`
    nor a `Roler`. -/
def collectRoleNames (roleNames : List String) : List Actor → Option (List String)
  | [] => some roleNames
  | .str r :: roles => collectRoleNames (roleNames ++ [r]) roles
  | .roler rs :: roles => collectRoleNames (roleNames ++ rs) roles
  | .other :: _ => none

/-- `HasPermission(mode, roles...)`. -/
def Permission.hasPermission (permission : Permission ρ) (mode : PermissionMode)
    (roles : List Actor) : Bool :=
  match collectRoleNames [] roles with
  | none => false
  | some roleNames =>
    if permission.deniedRoles.len ≠ 0 ∧
        (permission.deniedRoles.get mode).any (includeRoles Anyone · roleNames) then false
    else if permission.allowedRoles.len = 0 then true
    else (permission.allowedRoles.get mode).any (includeRoles Anyone · roleNames)

theorem includeRoles_iff (roles values : List String) :
    includeRoles Anyone roles values = true ↔
      Anyone ∈ roles ∨ ∃ role ∈ roles, role ∈ values := by
  induction roles with
  | nil => simp [includeRoles]
  | cons role roles ih =>
    simp only [includeRoles, Bool.or_eq_true, beq_iff_eq, List.any_eq_true, ih,
      List.mem_cons, or_and_right, exists_or, exists_eq_left, exists_eq_right,
      @eq_comm _ role Anyone, or_assoc, or_left_comm]

/-- The actor loop either stops at an actor that is neither a `string` nor a
    `Roler`, or collects every name the actors stand for. -/
theorem collectRoleNames_eq (roleNames : List String) (roles : List Actor) :
    collectRoleNames roleNames roles =
      if Actor.other ∈ roles then none else some (roleNames ++ roles.flatMap Actor.names) := by
  induction roles generalizing roleNames with
  | nil => simp [collectRoleNames]
  | cons a roles ih =>
    cases a <;> simp [collectRoleNames, ih, Actor.names]

end Decision

/-! ## 3. `Allow` and `Deny`

The two methods differ only in the map they write, so they are one definition,
`Permission.declare`, applied to `RuleKind.allowed` and `RuleKind.denied`. -/

/-- The body `Allow` and `Deny` share for a mode other than `CRUD`: give the mode
    an entry if it has none, then append the roles to it.  The `append` is read on
    the entry's value, which is exact when the entry owns its backing array, as
    every entry of a built permission does. -/
def Permission.declareMode (p : Permission ρ) (kind : RuleKind) (mode : PermissionMode)
    (roles : List String) : Except String (Permission ρ) :=
  match p.rules kind with
  | none => .error "assignment to entry in nil map"
  | some t => .ok (p.setRules kind (some (t.insert mode ((t.lookup mode).getD [] ++ roles))))

/-- `Allow` and `Deny`: `CRUD` chains the calls for Create, Update, Read and Delete. -/
def Permission.declare (p : Permission ρ) (kind : RuleKind) (mode : PermissionMode)
    (roles : List String) : Except String (Permission ρ) :=
  if mode = crud then
    p.declareMode kind create roles >>= (·.declareMode kind update roles) >>=
      (·.declareMode kind read roles) >>= (·.declareMode kind delete roles)
  else p.declareMode kind mode roles

/-- `Allow(mode, roles...)`. -/
def Permission.allow (permission : Permission ρ) (mode : PermissionMode)
    (roles : List String) : Except String (Permission ρ) :=
  permission.declare .allowed mode roles

/-- `Deny(mode, roles...)`. -/
def Permission.deny (permission : Permission ρ) (mode : PermissionMode)
    (roles : List String) : Except String (Permission ρ) :=
  permission.declare .denied mode roles

/-! ## 4. `Concat` -/

/-- One `range` loop of `appendRoles`:
    `result[mode] = append(result[mode], roles...)` for each entry, in visiting order. -/
def appendEntries (result : RoleTable) : List (Σ _ : PermissionMode, List String) → RoleTable
  | [] => result
  | ⟨mode, roles⟩ :: rest =>
    appendEntries (result.insert mode ((result.lookup mode).getD [] ++ roles)) rest

/-- `appendRoles` of `Concat`, on the result's role and its (made) denied and
    allowed maps: a non-nil operand gives the result its role and has its entries
    appended. -/
def appendRoles : Option (Permission ρ) → ρ × RoleTable × RoleTable → ρ × RoleTable × RoleTable
  | none, result => result
  | some p, (_, deniedRoles, allowedRoles) =>
    (p.role, appendEntries deniedRoles p.deniedRoles.entries,
      appendEntries allowedRoles p.allowedRoles.entries)

/-- `permission.Concat(newPermission)`; either pointer may be nil. -/
def Permission.concat (Global : ρ) (permission newPermission : Option (Permission ρ)) :
    Permission ρ :=
  let result := appendRoles permission (appendRoles newPermission (Global, ∅, ∅))
  { role := result.1, allowedRoles := some result.2.2, deniedRoles := some result.2.1 }

end RolePolicy
