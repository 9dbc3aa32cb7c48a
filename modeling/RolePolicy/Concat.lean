import RolePolicy.Decision
import Mathlib.Data.Finset.Lattice.Lemmas

/-!
# `Concat` is the union of two policies

**What `permission.Concat(newPermission)` returns, for every visiting order.**
`appendRoles` walks each operand's maps with `range`, whose order Go leaves
unspecified.  The entries of a Go map have distinct keys, so each key of an
operand is appended exactly once and appends to different keys do not interact:
`lookup_appendEntries` states the result of a whole loop through lookups only,
which do not see the order.  From it, `concat_spec` gives the result key by key
(the argument's names first, then the receiver's), and `policyOf_concat` shows
that the result stands for the union of the two policies, so the decision of a
`Concat` is commutative, associative, and has the nil pointer as unit.
-/

namespace RolePolicy

variable {ρ : Type}

/-- An entry `entry`, with `roles` appended when there are any to append; an
    absent entry reads as `[]`. -/
def appendLookup (entry : Option (List String)) : Option (List String) → Option (List String)
  | none => entry
  | some roles => some (entry.getD [] ++ roles)

/-- One `range` loop of `appendRoles` over entries with distinct keys: a key the
    entries hold gets their names after its own, every other key is untouched. -/
theorem lookup_appendEntries (result : RoleTable) {es : List (Σ _ : PermissionMode, List String)}
    (h : es.NodupKeys) (mode : PermissionMode) :
    (appendEntries result es).lookup mode = appendLookup (result.lookup mode) (es.dlookup mode) := by
  induction es generalizing result with
  | nil => rfl
  | cons e es ih =>
    obtain ⟨m, roles⟩ := e
    obtain ⟨hm, hes⟩ := List.nodupKeys_cons.mp h
    rw [appendEntries, ih _ hes]
    by_cases hmode : mode = m
    · subst hmode
      rw [List.dlookup_eq_none.mpr hm, List.dlookup_cons_eq, AList.lookup_insert]
      rfl
    · rw [List.dlookup_cons_ne _ _ hmode, AList.lookup_insert_ne hmode]

theorem RoleMap.dlookup_entries (m : RoleMap) (mode : PermissionMode) :
    m.entries.dlookup mode = m.get mode := by
  cases m <;> rfl

theorem RoleMap.nodupKeys_entries (m : RoleMap) : m.entries.NodupKeys := by
  cases m with
  | none => exact List.nodupKeys_nil
  | some t => exact t.nodupKeys

def resultTable (result : ρ × RoleTable × RoleTable) : RuleKind → RoleTable
  | .allowed => result.2.2
  | .denied => result.2.1

theorem lookup_appendRoles (p : Option (Permission ρ)) (result : ρ × RoleTable × RoleTable)
    (kind : RuleKind) (mode : PermissionMode) :
    (resultTable (appendRoles p result) kind).lookup mode =
      appendLookup ((resultTable result kind).lookup mode) ((rulesOf p kind).get mode) := by
  cases p with
  | none => cases kind <;> rfl
  | some p =>
    cases kind <;>
      simp only [appendRoles, resultTable, rulesOf, Permission.rules, lookup_appendEntries _
        (RoleMap.nodupKeys_entries _), RoleMap.dlookup_entries]

theorem rules_concat (Global : ρ) (p q : Option (Permission ρ)) (kind : RuleKind) :
    (Permission.concat Global p q).rules kind =
      some (resultTable (appendRoles p (appendRoles q (Global, ∅, ∅))) kind) := by
  cases kind <;> rfl

theorem get_rules_concat (Global : ρ) (p q : Option (Permission ρ)) (kind : RuleKind)
    (mode : PermissionMode) :
    ((Permission.concat Global p q).rules kind).get mode =
      appendLookup (appendLookup none ((rulesOf q kind).get mode)) ((rulesOf p kind).get mode) := by
  rw [rules_concat, RoleMap.get_some, lookup_appendRoles, lookup_appendRoles]
  cases kind <;> rfl

/-- `p.Concat(q)` for every `p` and `q`, nil or not, with any maps, whatever order
    the four `range` loops visit them in: the role is the receiver's, else the
    argument's, else `Global`; each map holds the keys of both operands, the
    argument's names first, then the receiver's. -/
theorem concat_spec (Global : ρ) (p q : Option (Permission ρ)) :
    (Permission.concat Global p q).role = p.elim (q.elim Global (·.role)) (·.role) ∧
    ∀ (kind : RuleKind) (mode : PermissionMode),
      ((Permission.concat Global p q).rules kind).get mode =
        if ((rulesOf p kind).get mode).isSome ∨ ((rulesOf q kind).get mode).isSome then
          some (((rulesOf q kind).get mode).getD [] ++ ((rulesOf p kind).get mode).getD [])
        else none := by
  refine ⟨by cases p <;> cases q <;> rfl, fun kind mode => ?_⟩
  rw [get_rules_concat]
  cases (rulesOf p kind).get mode <;> cases (rulesOf q kind).get mode <;> simp [appendLookup]

theorem rules_concat_isSome (Global : ρ) (p q : Option (Permission ρ)) (kind : RuleKind) :
    ((Permission.concat Global p q).rules kind).isSome := by
  rw [rules_concat]
  rfl

theorem len_concat_eq_zero (Global : ρ) (p q : Option (Permission ρ)) (kind : RuleKind) :
    ((Permission.concat Global p q).rules kind).len = 0 ↔
      (rulesOf p kind).len = 0 ∧ (rulesOf q kind).len = 0 := by
  simp only [RoleMap.len_eq_zero, get_rules_concat, ← forall_and]
  refine forall_congr' fun mode => ?_
  cases (rulesOf p kind).get mode <;> cases (rulesOf q kind).get mode <;> simp [appendLookup]

/-- `Concat` stands for the union of the policies of its operands. -/
theorem policyOf_concat (Global : ρ) (p q : Option (Permission ρ)) :
    policyOf (some (Permission.concat Global p q)) = (policyOf q).merge (policyOf p) := by
  ext kind mode n
  · show n ∈ ((((Permission.concat Global p q).rules kind).get mode).getD []).toFinset ↔
      n ∈ (rulesOf q kind).roles mode ∪ (rulesOf p kind).roles mode
    rw [get_rules_concat]
    simp only [RoleMap.roles, Finset.mem_union, List.mem_toFinset]
    cases (rulesOf p kind).get mode <;> cases (rulesOf q kind).get mode <;> simp [appendLookup]
  · show decide (((Permission.concat Global p q).rules .allowed).len ≠ 0) =
      (decide ((rulesOf q .allowed).len ≠ 0) || decide ((rulesOf p .allowed).len ≠ 0))
    by_cases hp : (rulesOf p .allowed).len = 0 <;> by_cases hq : (rulesOf q .allowed).len = 0 <;>
      simp [hp, hq, len_concat_eq_zero]

section Decision

variable (Anyone : String)

/-- The decision of `p.Concat(q)`, for every `p` and `q` (nil or with any maps) and
    every actor list: no invalid actor, no matching deny entry in either operand,
    and either no allow key in both operands or a matching allow entry in one.
    So `Concat` decides commutatively and associatively, and a nil operand on
    either side leaves the decision of the other. -/
theorem concat_hasPermission (Global : ρ) (p q : Option (Permission ρ)) (mode : PermissionMode)
    (roles : List Actor) :
    ((Permission.concat Global p q).hasPermission Anyone mode roles = true ↔
      Actor.other ∉ roles ∧
        ¬ Matches Anyone ((rulesOf p .denied).roles mode) (roles.flatMap Actor.names) ∧
        ¬ Matches Anyone ((rulesOf q .denied).roles mode) (roles.flatMap Actor.names) ∧
        (((rulesOf p .allowed).len = 0 ∧ (rulesOf q .allowed).len = 0) ∨
          Matches Anyone ((rulesOf p .allowed).roles mode) (roles.flatMap Actor.names) ∨
          Matches Anyone ((rulesOf q .allowed).roles mode) (roles.flatMap Actor.names))) ∧
    (Permission.concat Global p q).hasPermission Anyone mode roles =
      (Permission.concat Global q p).hasPermission Anyone mode roles ∧
    (∀ r : Option (Permission ρ),
      (Permission.concat Global (some (Permission.concat Global p q)) r).hasPermission
          Anyone mode roles =
        (Permission.concat Global p (some (Permission.concat Global q r))).hasPermission
          Anyone mode roles) ∧
    (∀ p' : Permission ρ,
      (Permission.concat Global (some p') none).hasPermission Anyone mode roles =
          p'.hasPermission Anyone mode roles ∧
        (Permission.concat Global none (some p')).hasPermission Anyone mode roles =
          p'.hasPermission Anyone mode roles) := by
  refine ⟨?_, hasPermission_eq_of_policyOf_eq Anyone ?_ mode roles,
    fun r => hasPermission_eq_of_policyOf_eq Anyone ?_ mode roles,
    fun p' => ⟨hasPermission_eq_of_policyOf_eq Anyone ?_ mode roles,
      hasPermission_eq_of_policyOf_eq Anyone ?_ mode roles⟩⟩
  · rw [hasPermission_iff, policyOf_concat]
    simp only [Policy.Permits, Policy.merge, policyOf, matches_union, Bool.or_eq_true,
      decide_eq_true_eq]
    tauto
  · rw [policyOf_concat, policyOf_concat, Policy.merge_comm]
  · simp only [policyOf_concat, Policy.merge_assoc]
  · simp [policyOf_concat]
  · simp [policyOf_concat]

theorem hasPermission_of_hasPermission_concat (Global : ρ) {p q : Permission ρ}
    {mode : PermissionMode} {roles : List Actor}
    (h : (Permission.concat Global (some p) (some q)).hasPermission Anyone mode roles = true) :
    p.hasPermission Anyone mode roles = true ∨ q.hasPermission Anyone mode roles = true := by
  rw [hasPermission_iff, policyOf_concat] at h
  rw [hasPermission_iff, hasPermission_iff]
  rcases Policy.permits_of_permits_merge Anyone h.2 with hq | hp
  exacts [.inr ⟨h.1, hq⟩, .inl ⟨h.1, hp⟩]

theorem hasPermission_concat_of_hasPermission (Global : ρ) {p q : Permission ρ}
    {mode : PermissionMode} {roles : List Actor} (hp : p.hasPermission Anyone mode roles = true)
    (hq : q.hasPermission Anyone mode roles = true) :
    (Permission.concat Global (some p) (some q)).hasPermission Anyone mode roles = true := by
  rw [hasPermission_iff] at hp hq
  rw [hasPermission_iff, policyOf_concat]
  exact ⟨hp.1, Policy.permits_merge Anyone hq.2 hp.2⟩

/-- `Concat` grants no more than either operand and no less than both: a request
    the merge grants, one of the two permissions grants, and one both grant, the
    merge grants.  So a permission merged with itself decides as it did, though
    every name it lists is now listed twice. -/
theorem concat_hasPermission_between (Global : ρ) (p q : Permission ρ) (mode : PermissionMode)
    (roles : List Actor) :
    ((Permission.concat Global (some p) (some q)).hasPermission Anyone mode roles = true →
      p.hasPermission Anyone mode roles = true ∨ q.hasPermission Anyone mode roles = true) ∧
    (p.hasPermission Anyone mode roles = true → q.hasPermission Anyone mode roles = true →
      (Permission.concat Global (some p) (some q)).hasPermission Anyone mode roles = true) ∧
    (Permission.concat Global (some p) (some p)).hasPermission Anyone mode roles =
      p.hasPermission Anyone mode roles := by
  refine ⟨hasPermission_of_hasPermission_concat Anyone Global,
    hasPermission_concat_of_hasPermission Anyone Global, ?_⟩
  rw [Bool.eq_iff_iff]
  exact ⟨fun h => (hasPermission_of_hasPermission_concat Anyone Global h).elim id id,
    fun h => hasPermission_concat_of_hasPermission Anyone Global h h⟩

/-- The merge scenario: `P` denies delete to an intern, `Q` allows read to a viewer;
    their `Concat` lets the viewer read, and nobody update or the intern delete. -/
example :
    ((Permission.mk () (some ∅) (some ∅)).deny delete ["intern"] >>= fun P =>
      (Permission.mk () (some ∅) (some ∅)).allow read ["viewer"] >>= fun Q =>
        pure ((Permission.concat () (some P) (some Q)).hasPermission "*" read [.str "viewer"],
          (Permission.concat () (some P) (some Q)).hasPermission "*" update [.str "editor"],
          (Permission.concat () (some P) (some Q)).hasPermission "*" delete [.str "intern"])) =
      .ok (true, false, false) := by
  rfl

end Decision

end RolePolicy
