import RolePolicy.Concat

/-!
# Runs of the builder

**`Allow` and `Deny` over whole runs, and the permissions the API builds.**
A permission starts with made, empty maps and is then changed by calls of
`Allow` and `Deny` (`Call.apply`) and combined by `Concat`.  The invariant of all
such permissions is `Permission.WellFormed`: both maps are made, so no call
panics, and neither map has a `CRUD` key, since the builder expands `CRUD` into
the four concrete modes and `Concat` only copies keys.

The `CRUD` chain of `Permission.declare` is a fold of concrete steps
(`declare_eq_foldlM`); on a made map the fold appends the roles to the entry of
each mode the call writes and changes nothing else (`declare_lookup`).  So every
call refines `Policy.declare` (`declare_spec`) and every run refines
`Policy.declareAll` (`run_spec`).  `hasPermission_run` then reads the decision
after any run off the calls themselves.

`HasPermission` does not expand `CRUD`: on a permission the builder made, a
query for `CRUD` finds no entry in either map, so it is granted exactly when no
allow rule exists at all, whatever is denied.
-/

namespace RolePolicy

variable {ρ : Type}

/-! ## 1. One call -/

/-- The invariant of the permissions the API builds: both maps are made, and
    neither holds a `CRUD` key. -/
structure Permission.WellFormed (p : Permission ρ) : Prop where
  made : ∀ kind, (p.rules kind).isSome
  noCrud : ∀ kind, (p.rules kind).get crud = none

theorem declare_eq_foldlM (p : Permission ρ) (kind : RuleKind) (mode : PermissionMode)
    (roles : List String) :
    p.declare kind mode roles =
      (modesOf mode).foldlM (fun p m => p.declareMode kind m roles) p := by
  unfold Permission.declare modesOf
  split <;> simp [List.foldlM, bind_assoc]

theorem declareMode_of_rules {p : Permission ρ} {kind : RuleKind} {t : RoleTable}
    (ht : p.rules kind = some t) (mode : PermissionMode) (roles : List String) :
    p.declareMode kind mode roles =
      .ok (p.setRules kind (some (t.insert mode ((t.lookup mode).getD [] ++ roles)))) := by
  simp [Permission.declareMode, ht]

/-- A run of concrete steps over distinct modes on a made map: each mode's entry
    gets the roles appended, an absent entry reading as `[]`; every other key, the
    other map and the role stay as they were. -/
theorem foldlM_declareMode_lookup (kind : RuleKind) (roles : List String) :
    ∀ (modes : List PermissionMode), modes.Nodup → ∀ (p : Permission ρ) (t : RoleTable),
      p.rules kind = some t → ∃ t' : RoleTable,
        modes.foldlM (fun p m => p.declareMode kind m roles) p = .ok (p.setRules kind (some t')) ∧
        ∀ m, t'.lookup m = if m ∈ modes then some ((t.lookup m).getD [] ++ roles) else t.lookup m
  | [], _, p, t, ht => ⟨t, by rw [← ht, Permission.setRules_rules]; rfl, fun m => by simp⟩
  | m₀ :: modes, hnd, p, t, ht => by
    obtain ⟨hm₀, hnd⟩ := List.nodup_cons.mp hnd
    obtain ⟨t', h', hl⟩ := foldlM_declareMode_lookup kind roles modes hnd
      (p.setRules kind (some (t.insert m₀ ((t.lookup m₀).getD [] ++ roles))))
      (t.insert m₀ ((t.lookup m₀).getD [] ++ roles)) (by simp)
    refine ⟨t', by rw [List.foldlM, declareMode_of_rules ht]; simpa using h', fun m => ?_⟩
    rw [hl]
    by_cases hm : m = m₀
    · subst hm
      simp [hm₀, AList.lookup_insert]
    · simp [hm, AList.lookup_insert_ne hm]

/-- `Allow` and `Deny` on a made map: the entry of each mode the call writes gets
    the roles appended; nothing else changes. -/
theorem declare_lookup {p : Permission ρ} {kind : RuleKind} {t : RoleTable}
    (ht : p.rules kind = some t) (mode : PermissionMode) (roles : List String) :
    ∃ t' : RoleTable, p.declare kind mode roles = .ok (p.setRules kind (some t')) ∧
      ∀ m, t'.lookup m =
        if m ∈ modesOf mode then some ((t.lookup m).getD [] ++ roles) else t.lookup m := by
  rw [declare_eq_foldlM]
  exact foldlM_declareMode_lookup kind roles _ (nodup_modesOf mode) p t ht

theorem declare_of_rules_none {p : Permission ρ} {kind : RuleKind} (h : p.rules kind = none)
    (mode : PermissionMode) (roles : List String) :
    p.declare kind mode roles = .error "assignment to entry in nil map" := by
  unfold Permission.declare Permission.declareMode
  rw [h]
  split <;> rfl

theorem policyOf_setRules_declare {p : Permission ρ} {kind : RuleKind} {t t' : RoleTable}
    (ht : p.rules kind = some t) {mode : PermissionMode} {roles : List String}
    (hl : ∀ m, t'.lookup m =
      if m ∈ modesOf mode then some ((t.lookup m).getD [] ++ roles) else t.lookup m) :
    policyOf (some (p.setRules kind (some t'))) = (policyOf (some p)).declare kind mode roles := by
  ext kind' mode' n
  · simp only [policyOf, rulesOf, Permission.rules_setRules, RoleMap.roles,
      Policy.mem_rules_declare]
    by_cases hk : kind' = kind
    · subst hk
      rw [if_pos rfl, ht, RoleMap.get_some, RoleMap.get_some, hl]
      split <;> simp [*]
    · simp [hk, Ne.symm hk]
  · obtain ⟨m, hm⟩ := exists_mem_modesOf mode
    have hlen : RoleMap.len (some t') ≠ 0 := RoleMap.len_ne_zero_of_get
      (show RoleMap.get (some t') m = some ((t.lookup m).getD [] ++ roles) by
        rw [RoleMap.get_some, hl, if_pos hm])
    cases kind <;> simp [policyOf, rulesOf, Permission.rules, Permission.setRules, hlen]

/-- `Allow` and `Deny` on a well-formed permission succeed, keep it well formed
    and its role, and declare the rule in its policy. -/
theorem declare_spec {p : Permission ρ} (hp : p.WellFormed) (kind : RuleKind)
    (mode : PermissionMode) (roles : List String) :
    ∃ p', p.declare kind mode roles = .ok p' ∧ p'.WellFormed ∧ p'.role = p.role ∧
      policyOf (some p') = (policyOf (some p)).declare kind mode roles := by
  obtain ⟨t, ht⟩ := Option.isSome_iff_exists.mp (hp.made kind)
  obtain ⟨t', hd, hl⟩ := declare_lookup ht mode roles
  have hcrud : t'.lookup crud = t.lookup crud := by
    rw [hl, if_neg fun h => ne_crud_of_mem_modesOf h rfl]
  refine ⟨_, hd, ⟨fun k => ?_, fun k => ?_⟩, by simp, policyOf_setRules_declare ht hl⟩ <;>
    simp only [Permission.rules_setRules] <;> split
  · rfl
  · exact hp.made k
  · simpa [hcrud, ht] using hp.noCrud kind
  · exact hp.noCrud k

/-! ## 2. Runs -/

/-- Make the call on `p`: `p.Allow(mode, roles...)` or `p.Deny(mode, roles...)`. -/
def Call.apply (c : Call) (p : Permission ρ) : Except String (Permission ρ) :=
  match c.kind with
  | .allowed => p.allow c.mode c.roles
  | .denied => p.deny c.mode c.roles

theorem Call.apply_eq (c : Call) (p : Permission ρ) :
    c.apply p = p.declare c.kind c.mode c.roles := by
  obtain ⟨kind, mode, roles⟩ := c
  cases kind <;> rfl

/-- The calls made on `p` in order; the first panic ends the run. -/
def Permission.run (p : Permission ρ) : List Call → Except String (Permission ρ)
  | [] => .ok p
  | c :: calls => c.apply p >>= (·.run calls)

theorem run_spec {p : Permission ρ} (hp : p.WellFormed) (calls : List Call) :
    ∃ p', p.run calls = .ok p' ∧ p'.WellFormed ∧ p'.role = p.role ∧
      policyOf (some p') = (policyOf (some p)).declareAll calls := by
  induction calls generalizing p with
  | nil => exact ⟨p, rfl, hp, rfl, rfl⟩
  | cons c calls ih =>
    obtain ⟨p₁, h₁, hp₁, hr₁, hP₁⟩ := declare_spec hp c.kind c.mode c.roles
    obtain ⟨p₂, h₂, hp₂, hr₂, hP₂⟩ := ih hp₁
    refine ⟨p₂, by rw [Permission.run, Call.apply_eq, h₁]; exact h₂, hp₂, hr₂.trans hr₁, ?_⟩
    rw [hP₂, hP₁]
    rfl

theorem wellFormed_empty (role : ρ) : (Permission.mk role (some ∅) (some ∅)).WellFormed :=
  ⟨fun kind => by cases kind <;> rfl, fun kind => by cases kind <;> rfl⟩

theorem policyOf_empty (role : ρ) :
    policyOf (some (Permission.mk role (some ∅) (some ∅))) = .empty := by
  ext kind mode n
  · cases kind <;> simp [policyOf, rulesOf, Permission.rules, RoleMap.roles, Policy.empty]
  · rfl

/-! ## 3. The decision after a run -/

section Decision

variable (Anyone : String)

/-- After any run of `Allow` and `Deny` calls on a permission with made, empty maps
    (none of which panics), `HasPermission` for a concrete mode and valid actors
    is read off the calls: no `Deny` for the mode or `CRUD` lists `Anyone` or an
    actor name, and either no `Allow` was called at all or some `Allow` for the
    mode or `CRUD` lists one.  The decision therefore depends on the set of calls
    only, not on their order or repetition. -/
theorem hasPermission_run (role : ρ) (calls : List Call) (mode : PermissionMode)
    (hmode : mode ∈ [create, read, update, delete]) (roles : List Actor)
    (hroles : Actor.other ∉ roles) :
    ∃ p, (Permission.mk role (some ∅) (some ∅)).run calls = .ok p ∧
      (p.hasPermission Anyone mode roles = true ↔
        (¬ ∃ c ∈ calls, c.kind = .denied ∧ (c.mode = mode ∨ c.mode = crud) ∧
            (Anyone ∈ c.roles ∨ ∃ n ∈ roles.flatMap Actor.names, n ∈ c.roles)) ∧
          ((∀ c ∈ calls, c.kind ≠ .allowed) ∨
            ∃ c ∈ calls, c.kind = .allowed ∧ (c.mode = mode ∨ c.mode = crud) ∧
              (Anyone ∈ c.roles ∨ ∃ n ∈ roles.flatMap Actor.names, n ∈ c.roles))) := by
  obtain ⟨p, hrun, -, -, hP⟩ := run_spec (wellFormed_empty role) calls
  refine ⟨p, hrun, ?_⟩
  rw [hasPermission_iff, hP, policyOf_empty]
  simp only [hroles, not_false_eq_true, true_and, Policy.Permits,
    Policy.matches_declareAll_empty, Policy.allowList_declareAll, Policy.allowList_empty,
    mem_modesOf hmode, Bool.false_eq_true, false_or, imp_iff_not_or, not_exists, not_and]

theorem hasPermission_run_viewer_reads :
    read ∈ [create, read, update, delete] ∧ Actor.other ∉ [Actor.str "viewer"] ∧
      ∃ p, (Permission.mk () (some ∅) (some ∅)).run
          [⟨.denied, delete, ["intern"]⟩, ⟨.allowed, read, ["viewer"]⟩] = .ok p ∧
        p.hasPermission "*" read [.str "viewer"] = true := by
  obtain ⟨p, hrun, hiff⟩ := hasPermission_run "*" ()
    [⟨.denied, delete, ["intern"]⟩, ⟨.allowed, read, ["viewer"]⟩] read (by decide)
    [.str "viewer"] (by decide)
  exact ⟨by decide, by decide, p, hrun, hiff.mpr (by decide)⟩

/-- The scenarios of the specification: a deny-only policy, and an allow-only one,
    which refuses every mode that has no allow entry. -/
example :
    ((Permission.mk () (some ∅) (some ∅)).run [⟨.denied, delete, ["intern"]⟩]).map
        (fun p => (p.hasPermission "*" delete [.str "intern"],
          p.hasPermission "*" delete [.str "manager"])) = .ok (false, true) ∧
    ((Permission.mk () (some ∅) (some ∅)).run [⟨.allowed, read, ["viewer"]⟩]).map
        (fun q => (q.hasPermission "*" read [.str "viewer"],
          q.hasPermission "*" read [.str "editor"],
          q.hasPermission "*" update [.str "editor"])) = .ok (true, false, false) :=
  ⟨rfl, rfl⟩

end Decision

/-! ## 4. The permissions the API builds -/

/-- The permissions built from made, empty maps by `Allow` and `Deny` calls and by
    `Concat` of operands that are nil or built the same way. -/
inductive Reachable (Global : ρ) : Permission ρ → Prop
  | empty (role : ρ) : Reachable Global (Permission.mk role (some ∅) (some ∅))
  | call {p p' : Permission ρ} (c : Call) :
      Reachable Global p → c.apply p = .ok p' → Reachable Global p'
  | concat {p q : Option (Permission ρ)} :
      (∀ x ∈ p, Reachable Global x) → (∀ x ∈ q, Reachable Global x) →
        Reachable Global (Permission.concat Global p q)

theorem Reachable.concat_some {Global : ρ} {p q : Permission ρ} (hp : Reachable Global p)
    (hq : Reachable Global q) : Reachable Global (Permission.concat Global (some p) (some q)) :=
  .concat (fun _ hx => Option.some_inj.mp hx ▸ hp) (fun _ hx => Option.some_inj.mp hx ▸ hq)

theorem get_rulesOf_crud {p : Option (Permission ρ)} (hp : ∀ x ∈ p, x.WellFormed)
    (kind : RuleKind) : (rulesOf p kind).get crud = none := by
  cases p with
  | none => rfl
  | some x => exact (hp x rfl).noCrud kind

theorem Reachable.wellFormed {Global : ρ} {p : Permission ρ} (h : Reachable Global p) :
    p.WellFormed := by
  induction h with
  | empty role => exact wellFormed_empty role
  | call c _ happly ih =>
    obtain ⟨p', h', hp', -⟩ := declare_spec ih c.kind c.mode c.roles
    rw [Call.apply_eq, h'] at happly
    cases happly
    exact hp'
  | concat _ _ ihp ihq =>
    refine ⟨rules_concat_isSome _ _ _, fun kind => ?_⟩
    rw [(concat_spec _ _ _).2, get_rulesOf_crud ihp, get_rulesOf_crud ihq]
    rfl

/-- No `Allow` or `Deny` call on a permission the API built panics. -/
theorem Reachable.apply_ok {Global : ρ} {p : Permission ρ} (h : Reachable Global p) (c : Call) :
    ∃ p', c.apply p = .ok p' ∧ Reachable Global p' := by
  obtain ⟨p', h', -⟩ := declare_spec h.wellFormed c.kind c.mode c.roles
  rw [← Call.apply_eq] at h'
  exact ⟨p', h', .call c h h'⟩

theorem Reachable.apply_ok_concat :
    Reachable () (Permission.concat ()
      (some ⟨(), some ∅, some (AList.insert delete ["intern"] ∅)⟩)
      (some ⟨(), some (AList.insert read ["viewer"] ∅), some ∅⟩)) ∧
    ∃ p', (Call.mk .allowed crud ["editor"]).apply (Permission.concat ()
        (some ⟨(), some ∅, some (AList.insert delete ["intern"] ∅)⟩)
        (some ⟨(), some (AList.insert read ["viewer"] ∅), some ∅⟩)) = .ok p' ∧
      Reachable () p' := by
  have h : Reachable () (Permission.concat () (some _) (some _)) :=
    .concat_some (.call ⟨.denied, delete, ["intern"]⟩ (.empty ()) rfl)
      (.call ⟨.allowed, read, ["viewer"]⟩ (.empty ()) rfl)
  exact ⟨h, Reachable.apply_ok h _⟩

/-- Every permission the API builds stands for the policy of some sequence of
    `Allow` and `Deny` calls: `Concat` is the union of policies, which is the
    policy of both call sequences. -/
theorem Reachable.exists_calls {Global : ρ} {p : Permission ρ} (h : Reachable Global p) :
    ∃ calls, policyOf (some p) = Policy.empty.declareAll calls := by
  have hopt : ∀ o : Option (Permission ρ), (∀ x ∈ o, ∃ calls, policyOf (some x) =
      Policy.empty.declareAll calls) → ∃ calls, policyOf o = Policy.empty.declareAll calls
    | none, _ => ⟨[], rfl⟩
    | some x, hx => hx x rfl
  induction h with
  | empty role => exact ⟨[], policyOf_empty role⟩
  | call c hp happly ih =>
    obtain ⟨calls, hcalls⟩ := ih
    obtain ⟨p', h', -, -, hP⟩ := declare_spec hp.wellFormed c.kind c.mode c.roles
    rw [Call.apply_eq, h'] at happly
    cases happly
    exact ⟨calls ++ [c], by rw [hP, hcalls, Policy.declareAll_append]; rfl⟩
  | concat _ _ ihp ihq =>
    obtain ⟨cp, hcp⟩ := hopt _ ihp
    obtain ⟨cq, hcq⟩ := hopt _ ihq
    exact ⟨cq ++ cp, by rw [policyOf_concat, hcp, hcq, Policy.merge_declareAll]⟩

section Decision

variable (Anyone : String)

/-- `Concat` adds no decision power: every permission the API builds decides, for
    every mode and every actor list, as the permission with its role built from
    made, empty maps by some sequence of `Allow` and `Deny` calls alone. -/
theorem Reachable.decides_as_run {Global : ρ} {p : Permission ρ} (h : Reachable Global p) :
    ∃ calls p', (Permission.mk p.role (some ∅) (some ∅)).run calls = .ok p' ∧
      ∀ (mode : PermissionMode) (roles : List Actor),
        p.hasPermission Anyone mode roles = p'.hasPermission Anyone mode roles := by
  obtain ⟨calls, hcalls⟩ := h.exists_calls
  obtain ⟨p', hrun, -, -, hP⟩ := run_spec (wellFormed_empty p.role) calls
  refine ⟨calls, p', hrun, hasPermission_eq_of_policyOf_eq Anyone ?_⟩
  rw [hcalls, hP, policyOf_empty]

theorem Reachable.decides_as_run_concat :
    Reachable () (Permission.concat ()
      (some ⟨(), some ∅, some (AList.insert delete ["intern"] ∅)⟩)
      (some ⟨(), some (AList.insert read ["viewer"] ∅), some ∅⟩)) ∧
    ∃ calls p', (Permission.mk () (some ∅) (some ∅)).run calls = .ok p' ∧
      ∀ (mode : PermissionMode) (roles : List Actor),
        (Permission.concat ()
          (some ⟨(), some ∅, some (AList.insert delete ["intern"] ∅)⟩)
          (some ⟨(), some (AList.insert read ["viewer"] ∅), some ∅⟩)).hasPermission
            "*" mode roles = p'.hasPermission "*" mode roles := by
  have h : Reachable () (Permission.concat () (some _) (some _)) :=
    .concat_some (.call ⟨.denied, delete, ["intern"]⟩ (.empty ()) rfl)
      (.call ⟨.allowed, read, ["viewer"]⟩ (.empty ()) rfl)
  exact ⟨h, Reachable.decides_as_run "*" h⟩

/-- On a permission the API built, a `Deny` call never grants. -/
theorem Reachable.deny_never_grants {Global : ρ} {p p' : Permission ρ} (h : Reachable Global p)
    (mode : PermissionMode) (roles : List String) (hdeny : p.deny mode roles = .ok p')
    (m : PermissionMode) (actors : List Actor)
    (hgrant : p'.hasPermission Anyone m actors = true) :
    p.hasPermission Anyone m actors = true := by
  obtain ⟨p'', h'', -, -, hP⟩ := declare_spec h.wellFormed .denied mode roles
  rw [Permission.deny, h''] at hdeny
  cases hdeny
  rw [hasPermission_iff, hP] at hgrant
  exact (hasPermission_iff Anyone p m actors).mpr
    ⟨hgrant.1, Policy.permits_of_permits_deny Anyone hgrant.2⟩

theorem Reachable.deny_never_grants_viewer :
    Reachable () (Permission.mk () (some ∅) (some ∅)) ∧
      ∃ p', (Permission.mk () (some ∅) (some ∅)).deny read ["intern"] = .ok p' ∧
        p'.hasPermission "*" read [.str "viewer"] = true ∧
        (Permission.mk () (some ∅) (some ∅)).hasPermission "*" read [.str "viewer"] = true :=
  ⟨.empty (), _, rfl, by decide,
    Reachable.deny_never_grants "*" (.empty () : Reachable () _) read ["intern"] rfl read _
      (by decide)⟩

/-- On a permission the API built that has an allow rule, an `Allow` call never
    revokes. -/
theorem Reachable.allow_never_revokes {Global : ρ} {p p' : Permission ρ} (h : Reachable Global p)
    (hallowList : p.allowedRoles.len ≠ 0) (mode : PermissionMode) (roles : List String)
    (hallow : p.allow mode roles = .ok p') (m : PermissionMode) (actors : List Actor)
    (hgrant : p.hasPermission Anyone m actors = true) :
    p'.hasPermission Anyone m actors = true := by
  obtain ⟨p'', h'', -, -, hP⟩ := declare_spec h.wellFormed .allowed mode roles
  rw [Permission.allow, h''] at hallow
  cases hallow
  rw [hasPermission_iff] at hgrant ⊢
  rw [hP]
  exact ⟨hgrant.1, Policy.permits_allow Anyone (by simpa [policyOf, rulesOf,
    Permission.rules] using hallowList) hgrant.2⟩

theorem Reachable.allow_never_revokes_viewer :
    ∃ p p', (Permission.mk () (some ∅) (some ∅)).allow read ["viewer"] = .ok p ∧
      Reachable () p ∧ p.allowedRoles.len ≠ 0 ∧ p.allow update ["editor"] = .ok p' ∧
      p.hasPermission "*" read [.str "viewer"] = true ∧
      p'.hasPermission "*" read [.str "viewer"] = true := by
  have h : Reachable () _ := .call ⟨.allowed, read, ["viewer"]⟩ (.empty ()) rfl
  exact ⟨_, _, rfl, h, by decide, rfl, by decide,
    Reachable.allow_never_revokes "*" h (by decide) update ["editor"] rfl read _ (by decide)⟩

/-- A query for `CRUD` on a permission the API built finds no entry in either
    map: it is granted exactly when the actors are valid and no allow rule
    exists, whatever the deny rules say. -/
theorem Reachable.hasPermission_crud {Global : ρ} {p : Permission ρ} (h : Reachable Global p)
    (roles : List Actor) :
    p.hasPermission Anyone crud roles = true ↔
      Actor.other ∉ roles ∧ p.allowedRoles.len = 0 := by
  have hD : p.deniedRoles.get crud = none := h.wellFormed.noCrud .denied
  have hA : p.allowedRoles.get crud = none := h.wellFormed.noCrud .allowed
  rw [hasPermission_iff]
  simp [Policy.Permits, policyOf, rulesOf, Permission.rules, RoleMap.roles, hD, hA, Matches]

theorem Reachable.hasPermission_crud_denied :
    ∃ p, (Permission.mk () (some ∅) (some ∅)).deny crud ["intern"] = .ok p ∧
      Reachable () (Permission.concat () (some p) none) ∧
      (Permission.concat () (some p) none).hasPermission "*" create [.str "intern"] = false ∧
      (Permission.concat () (some p) none).hasPermission "*" crud [.str "intern"] = true := by
  refine ⟨_, rfl, ?_⟩
  have h : Reachable () (Permission.concat () (some _) none) :=
    .concat (fun _ hx => Option.some_inj.mp hx ▸ .call ⟨.denied, crud, ["intern"]⟩ (.empty ()) rfl)
      (fun _ hx => nomatch hx)
  exact ⟨h, by decide, (Reachable.hasPermission_crud "*" h _).mpr ⟨by decide, by decide⟩⟩

/-- `Deny(CRUD, "intern")` on a permission with made, empty maps: the aggregate
    query `HasPermission(CRUD, "intern")` is granted, while the concrete query
    `HasPermission(Create, "intern")` is refused. -/
theorem hasPermission_crud_after_deny_crud (role : ρ) :
    ∃ p, (Permission.mk role (some ∅) (some ∅)).deny crud ["intern"] = .ok p ∧
      p.hasPermission Anyone crud [.str "intern"] = true ∧
      p.hasPermission Anyone create [.str "intern"] = false := by
  obtain ⟨p, hp, -, -, hP⟩ := declare_spec (wellFormed_empty role) .denied crud ["intern"]
  have hCRUD : crud ∉ modesOf crud := by decide
  have hCreate : create ∈ modesOf crud := by decide
  refine ⟨p, hp, ?_, Bool.eq_false_iff.mpr ?_⟩ <;>
    simp [hasPermission_iff, hP, policyOf_empty, Policy.Permits, Matches, Policy.mem_rules_declare,
      hCRUD, hCreate, Actor.names, Policy.empty]

end Decision

end RolePolicy
