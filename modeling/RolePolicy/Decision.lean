import RolePolicy.Policy

/-!
# `HasPermission` decides as its policy

**Refinement of the decision.**  `policyOf` reads the policy a `*Permission`
stands for off its two Go maps: the names a map lists for a mode (none when the
key is absent, the map nil, or the operand nil), and whether `AllowedRoles`
holds any key at all.  `hasPermission_iff` shows that the Go method is the
abstract decision `Policy.Permits` on the names the actors stand for, refused
outright when some actor is neither a `string` nor a `Roler`.

Two facts of the code do the work: `includeRoles` is membership
(`includeRoles_iff`), and the `len(permission.DeniedRoles) != 0` guard is
implied by a present key, so it never changes the outcome.
-/

namespace RolePolicy

variable {ρ : Type}

/-- The names `m` lists for `mode`; an absent key, or a nil map, lists none. -/
def RoleMap.roles (m : RoleMap) (mode : PermissionMode) : Finset String :=
  ((m.get mode).getD []).toFinset

/-- The map of `kind` of a possibly nil `*Permission`; a nil one reads as a nil map. -/
def rulesOf : Option (Permission ρ) → RuleKind → RoleMap
  | none, _ => none
  | some p, kind => p.rules kind

/-- The policy a possibly nil `*Permission` stands for. -/
def policyOf (p : Option (Permission ρ)) : Policy where
  rules kind mode := (rulesOf p kind).roles mode
  allowList := (rulesOf p .allowed).len ≠ 0

@[simp] theorem policyOf_none : policyOf (none : Option (Permission ρ)) = .empty := rfl

theorem RoleMap.len_ne_zero_of_get {m : RoleMap} {mode : PermissionMode} {roles : List String}
    (h : m.get mode = some roles) : m.len ≠ 0 := fun h0 => by
  simp [RoleMap.len_eq_zero.mp h0 mode] at h

section Decision

variable (Anyone : String)

/-- `includeRoles(roles, values)` is a membership test: true iff `roles` holds
    `Anyone` or shares an element with `values`.  So it reads both lists only as
    sets, splits over `++`, and an `Anyone` among the values has no wildcard
    effect. -/
theorem includeRoles_spec (roles values : List String) :
    (includeRoles Anyone roles values = true ↔
      Anyone ∈ roles ∨ ∃ role ∈ roles, role ∈ values) ∧
    (∀ roles' values' : List String, (∀ x, x ∈ roles ↔ x ∈ roles') →
      (∀ x, x ∈ values ↔ x ∈ values') →
        includeRoles Anyone roles values = includeRoles Anyone roles' values') ∧
    (∀ roles₂ : List String, includeRoles Anyone (roles ++ roles₂) values =
      (includeRoles Anyone roles values || includeRoles Anyone roles₂ values)) ∧
    includeRoles Anyone roles values =
      includeRoles Anyone roles (values.filter (· != Anyone)) := by
  refine ⟨includeRoles_iff Anyone roles values, fun roles' values' hr hv => ?_,
    fun roles₂ => ?_, ?_⟩
  · rw [Bool.eq_iff_iff]
    simp only [includeRoles_iff, hr, hv]
  · rw [Bool.eq_iff_iff]
    simp only [Bool.or_eq_true, includeRoles_iff, List.mem_append, or_and_right, exists_or,
      or_assoc, or_left_comm]
  · rw [Bool.eq_iff_iff]
    simp only [includeRoles_iff, List.mem_filter, bne_iff_ne, ne_eq]
    by_cases hA : Anyone ∈ roles
    · simp [hA]
    · simp only [hA, false_or]
      exact exists_congr fun role => and_congr_right fun hr =>
        (and_iff_left (ne_of_mem_of_not_mem hr hA)).symm

theorem includeRoles_spec_reordered :
    (∀ x, x ∈ ["editor", "viewer"] ↔ x ∈ ["viewer", "editor", "viewer"]) ∧
      (∀ x, x ∈ ["viewer"] ↔ x ∈ ["viewer", "viewer"]) ∧
      includeRoles "*" ["editor", "viewer"] ["viewer"] =
        includeRoles "*" ["viewer", "editor", "viewer"] ["viewer", "viewer"] := by
  have h₁ : ∀ x, x ∈ ["editor", "viewer"] ↔ x ∈ ["viewer", "editor", "viewer"] := fun x => by
    simp only [List.mem_cons, List.mem_singleton, List.not_mem_nil, or_false]
    tauto
  have h₂ : ∀ x, x ∈ ["viewer"] ↔ x ∈ ["viewer", "viewer"] := fun x => by simp
  exact ⟨h₁, h₂, (includeRoles_spec "*" _ _).2.1 _ _ h₁ h₂⟩

/-- The `any (includeRoles ...)` test `HasPermission` makes of a map's entry is
    `Matches` on the names the map lists. -/
theorem any_includeRoles_iff (m : RoleMap) (mode : PermissionMode) (roleNames : List String) :
    (m.get mode).any (includeRoles Anyone · roleNames) = true ↔
      Matches Anyone (m.roles mode) roleNames := by
  cases h : m.get mode with
  | none => simp [RoleMap.roles, h, Matches]
  | some roles =>
    simp only [Option.any_some, includeRoles_iff, RoleMap.roles, h, Option.getD_some,
      Matches, List.mem_toFinset]
    tauto

/-- The deny test of `HasPermission`, guard included, is `Matches` on the denied names. -/
theorem denyGuard_iff (m : RoleMap) (mode : PermissionMode) (roleNames : List String) :
    (m.len ≠ 0 ∧ (m.get mode).any (includeRoles Anyone · roleNames) = true) ↔
      Matches Anyone (m.roles mode) roleNames := by
  rw [← any_includeRoles_iff]
  refine ⟨And.right, fun h => ⟨?_, h⟩⟩
  cases hg : m.get mode with
  | none => simp [hg] at h
  | some roles => exact RoleMap.len_ne_zero_of_get hg

/-- `HasPermission` is the policy's decision on the names the actors stand for,
    and `false` as soon as one actor is neither a `string` nor a `Roler`. -/
theorem hasPermission_iff (p : Permission ρ) (mode : PermissionMode) (roles : List Actor) :
    p.hasPermission Anyone mode roles = true ↔
      Actor.other ∉ roles ∧ (policyOf (some p)).Permits Anyone mode (roles.flatMap Actor.names) := by
  unfold Permission.hasPermission
  rw [collectRoleNames_eq]
  by_cases h : Actor.other ∈ roles
  · simp [h]
  · have hD := denyGuard_iff Anyone p.deniedRoles mode (roles.flatMap Actor.names)
    have hA := any_includeRoles_iff Anyone p.allowedRoles mode (roles.flatMap Actor.names)
    simp only [h, if_false, List.nil_append, not_false_eq_true, true_and, Policy.Permits,
      policyOf, rulesOf, Permission.rules, decide_eq_true_eq]
    split_ifs with h1 h2 <;> simp_all

theorem hasPermission_congr (p : Permission ρ) (mode : PermissionMode) {roles roles' : List Actor}
    (ho : Actor.other ∈ roles ↔ Actor.other ∈ roles')
    (hn : ∀ n, n ∈ roles.flatMap Actor.names ↔ n ∈ roles'.flatMap Actor.names) :
    p.hasPermission Anyone mode roles = p.hasPermission Anyone mode roles' := by
  rw [Bool.eq_iff_iff]
  simp only [hasPermission_iff, ho, permits_congr Anyone hn]

theorem hasPermission_eq_of_policyOf_eq {p p' : Permission ρ}
    (h : policyOf (some p) = policyOf (some p')) (mode : PermissionMode) (roles : List Actor) :
    p.hasPermission Anyone mode roles = p'.hasPermission Anyone mode roles := by
  rw [Bool.eq_iff_iff, hasPermission_iff, hasPermission_iff, h]

/-- `HasPermission` characterized for every permission value (nil maps and keys
    mapped to empty lists included) and every actor list: an actor that is neither
    a `string` nor a `Roler` refuses; otherwise a matching deny entry refuses, an
    empty `AllowedRoles` permits, and else the mode's allow entry must match.  So
    a `Roler` counts as the names it reports, order and repetition of the actors
    do not matter, and an actor named `Anyone` changes nothing. -/
theorem hasPermission_spec (p : Permission ρ) (mode : PermissionMode) (roles : List Actor) :
    (Actor.other ∈ roles → p.hasPermission Anyone mode roles = false) ∧
    (Actor.other ∉ roles →
      (p.hasPermission Anyone mode roles = true ↔
        ¬ Matches Anyone (p.deniedRoles.roles mode) (roles.flatMap Actor.names) ∧
          (p.allowedRoles.len = 0 ∨
            Matches Anyone (p.allowedRoles.roles mode) (roles.flatMap Actor.names)))) ∧
    (∀ (before after : List Actor) (rs : List String),
      p.hasPermission Anyone mode (before ++ .roler rs :: after) =
        p.hasPermission Anyone mode (before ++ rs.map .str ++ after)) ∧
    (∀ roles' : List Actor, (∀ a, a ∈ roles ↔ a ∈ roles') →
      p.hasPermission Anyone mode roles = p.hasPermission Anyone mode roles') ∧
    p.hasPermission Anyone mode (.str Anyone :: roles) = p.hasPermission Anyone mode roles := by
  refine ⟨fun h => ?_, fun h => ?_, fun before after rs => ?_, fun roles' h => ?_, ?_⟩
  · simpa [h] using (hasPermission_iff Anyone p mode roles).not
  · rw [hasPermission_iff]
    simp only [h, not_false_eq_true, true_and, Policy.Permits, policyOf, rulesOf,
      Permission.rules, ne_eq, decide_eq_true_eq, imp_iff_not_or, not_not]
  · apply hasPermission_congr
    · simp
    · intro n
      simp [Actor.names]
  · apply hasPermission_congr
    · exact h _
    · intro n
      simp only [List.mem_flatMap, h]
  · rw [Bool.eq_iff_iff]
    simp only [hasPermission_iff, List.mem_cons, reduceCtorEq, false_or,
      List.flatMap_cons, Actor.names, List.singleton_append, Policy.Permits,
      matches_cons_Anyone]

theorem hasPermission_spec_invalid_actor :
    Actor.other ∈ [Actor.str "viewer", .other] ∧
      (Permission.mk () (some ∅) (some ∅)).hasPermission "*" read [.str "viewer", .other] =
        false ∧
    (∀ a, a ∈ [Actor.str "viewer"] ↔ a ∈ [Actor.str "viewer", .str "viewer"]) ∧
      (Permission.mk () (some ∅) (some ∅)).hasPermission "*" read [.str "viewer"] =
        (Permission.mk () (some ∅) (some ∅)).hasPermission "*" read [.str "viewer", .str "viewer"] := by
  have hmem : ∀ a, a ∈ [Actor.str "viewer"] ↔ a ∈ [Actor.str "viewer", .str "viewer"] :=
    fun a => by simp
  exact ⟨by decide, (hasPermission_spec "*" _ read _).1 (by decide), hmem,
    (hasPermission_spec "*" _ read _).2.2.2.1 _ hmem⟩

end Decision

end RolePolicy
