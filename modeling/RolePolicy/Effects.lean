import RolePolicy.Builder

/-!
# `Allow` and `Deny` over whole runs

**What one call and a whole run of the builder do, and how runs meet `Concat`.**
Whether a call panics depends only on whether its map is nil, so the panic law
holds of every `Permission` value, the zero value `Permission{}` included.  The
laws of what a call writes and of the decision after a run read maps and slices as
values, which is exact for the permissions the API builds (`Reachable`; see
`RolePolicy.Permission`), so they are stated for those.

* One call on a built permission appends the roles to the entry of each mode it
  writes and changes nothing else.
* A run on any permission panics exactly when one of its calls writes a nil map,
  since no call makes or unmakes a map.
* After a run from a built permission, a request is decided by the start state's
  rules and the calls' rules together, read by `Policy.Permits`.
* Calls made on `p.Concat(q)` never panic, and decide as the same calls made on a
  built `p` before the merge.
-/

namespace RolePolicy

variable {ρ : Type}

/-! ## 1. One call -/

/-- `Allow` and `Deny` on a permission the API built: they append the roles to the
    entry of each mode the call writes (`CRUD` stands for the four concrete modes),
    giving an absent entry one, and change nothing else: no other key, not the
    other map, not the role. -/
theorem Reachable.allow_deny_effect {Global : ρ} {p : Permission ρ} (h : Reachable Global p)
    (mode : PermissionMode) (roles : List String) :
    (∃ t : RoleTable, p.allow mode roles = .ok { p with allowedRoles := some t } ∧
      ∀ m, t.lookup m = if m ∈ modesOf mode then some ((p.allowedRoles.get m).getD [] ++ roles)
        else p.allowedRoles.get m) ∧
    (∃ t : RoleTable, p.deny mode roles = .ok { p with deniedRoles := some t } ∧
      ∀ m, t.lookup m = if m ∈ modesOf mode then some ((p.deniedRoles.get m).getD [] ++ roles)
        else p.deniedRoles.get m) := by
  have hkind : ∀ kind, ∃ t : RoleTable,
      p.declare kind mode roles = .ok (p.setRules kind (some t)) ∧
      ∀ m, t.lookup m = if m ∈ modesOf mode then some (((p.rules kind).get m).getD [] ++ roles)
        else (p.rules kind).get m := fun kind => by
    obtain ⟨t₀, ht₀⟩ := Option.isSome_iff_exists.mp (h.wellFormed.made kind)
    rw [ht₀]
    simp only [RoleMap.get_some]
    exact declare_lookup ht₀ mode roles
  exact ⟨hkind .allowed, hkind .denied⟩

theorem Reachable.allow_deny_effect_concat :
    Reachable () (Permission.concat ()
      (some ⟨(), some ∅, some (AList.insert delete ["intern"] ∅)⟩)
      (some ⟨(), some (AList.insert read ["viewer"] ∅), some ∅⟩)) ∧
    ∃ p', (Permission.concat ()
        (some ⟨(), some ∅, some (AList.insert delete ["intern"] ∅)⟩)
        (some ⟨(), some (AList.insert read ["viewer"] ∅), some ∅⟩)).allow crud ["editor"] =
          .ok p' ∧
      p'.allowedRoles.get read = some ["viewer", "editor"] ∧
      p'.deniedRoles = (Permission.concat ()
        (some ⟨(), some ∅, some (AList.insert delete ["intern"] ∅)⟩)
        (some ⟨(), some (AList.insert read ["viewer"] ∅), some ∅⟩)).deniedRoles := by
  have h : Reachable () (Permission.concat () (some _) (some _)) :=
    .concat_some (.call ⟨.denied, delete, ["intern"]⟩ (.empty ()) rfl)
      (.call ⟨.allowed, read, ["viewer"]⟩ (.empty ()) rfl)
  obtain ⟨⟨t, hallow, hl⟩, -⟩ := Reachable.allow_deny_effect h crud ["editor"]
  exact ⟨h, _, hallow, by show t.lookup read = _; rw [hl]; decide, rfl⟩

/-! ## 2. Runs -/

/-- A run whose every call finds its map made does not panic, keeps the role, and
    adds the calls' rules to the policy. -/
theorem run_spec_of_made (p : Permission ρ) (calls : List Call)
    (hmade : ∀ c ∈ calls, (p.rules c.kind).isSome) :
    ∃ p', p.run calls = .ok p' ∧ p'.role = p.role ∧
      policyOf (some p') = (policyOf (some p)).declareAll calls := by
  induction calls generalizing p with
  | nil => exact ⟨p, rfl, rfl, rfl⟩
  | cons c calls ih =>
    obtain ⟨t, ht⟩ := Option.isSome_iff_exists.mp (hmade c (List.mem_cons_self _ _))
    obtain ⟨t', hd, hl⟩ := declare_lookup ht c.mode c.roles
    obtain ⟨p₂, h₂, hr₂, hP₂⟩ := ih (p.setRules c.kind (some t')) fun c' hc' => by
      simp only [Permission.rules_setRules]
      split
      · rfl
      · exact hmade c' (List.mem_cons_of_mem _ hc')
    refine ⟨p₂, by rw [Permission.run, Call.apply_eq, hd]; exact h₂, by simpa using hr₂, ?_⟩
    rw [hP₂, policyOf_setRules_declare ht hl]
    rfl

/-- A run of `Allow` and `Deny` calls on any permission panics exactly when one of
    its calls writes a nil map, and then with the runtime's message: a call never
    makes or unmakes a map, so a nil map stays nil until the first call of its
    kind panics. -/
theorem run_outcome (p : Permission ρ) (calls : List Call) :
    ((∀ c ∈ calls, (p.rules c.kind).isSome) → ∃ p', p.run calls = .ok p') ∧
    ((∃ c ∈ calls, p.rules c.kind = none) →
      p.run calls = .error "assignment to entry in nil map") := by
  refine ⟨fun h => ?_, fun h => ?_⟩
  · obtain ⟨p', hp', -⟩ := run_spec_of_made p calls h
    exact ⟨p', hp'⟩
  · induction calls generalizing p with
    | nil => simp at h
    | cons c calls ih =>
      cases ht : p.rules c.kind with
      | none =>
        rw [Permission.run, Call.apply_eq, declare_of_rules_none ht]
        rfl
      | some t =>
        obtain ⟨t', hd, -⟩ := declare_lookup ht c.mode c.roles
        obtain ⟨c', hc', hnone⟩ := h
        have hk : c'.kind ≠ c.kind := fun hk => by rw [hk, ht] at hnone; cases hnone
        have hc'' : c' ∈ calls :=
          (List.mem_cons.mp hc').resolve_left fun h => hk (congrArg Call.kind h)
        rw [Permission.run, Call.apply_eq, hd]
        exact ih _ ⟨c', hc'', by simp [hk, hnone]⟩

theorem run_outcome_nil_deniedRoles :
    (∃ p', (Permission.mk () (some ∅) none).run [⟨.allowed, read, ["viewer"]⟩] = .ok p') ∧
      (Permission.mk () (some ∅) none).run
          [⟨.allowed, read, ["viewer"]⟩, ⟨.denied, delete, ["intern"]⟩] =
        .error "assignment to entry in nil map" :=
  ⟨(run_outcome _ _).1 (by decide), (run_outcome _ _).2 (by decide)⟩

/-- The zero value `Permission{}` panics on its first `Allow`. -/
example : (Permission.mk () none none).allow read ["viewer"] =
    .error "assignment to entry in nil map" := rfl

/-! ## 3. The decision after a run -/

section Decision

variable (Anyone : String)

theorem Reachable.of_run {Global : ρ} {p p' : Permission ρ} (h : Reachable Global p)
    {calls : List Call} (hrun : p.run calls = .ok p') : Reachable Global p' := by
  induction calls generalizing p with
  | nil => cases hrun; exact h
  | cons c calls ih =>
    rw [Permission.run] at hrun
    cases hc : c.apply p with
    | error e => rw [hc] at hrun; cases hrun
    | ok p₁ => rw [hc] at hrun; exact ih (.call c h hc) hrun

/-- After any run of `Allow` and `Deny` calls from a permission the API built, the
    result is again built, keeps the role, and decides a request by the start
    state's rules together with the calls': it refuses when an actor is invalid,
    or a deny rule of the start state or of a `Deny` call writing the mode
    matches; otherwise it grants when no allow rule exists at all (an empty
    `AllowedRoles` and no `Allow` call), or an allow rule of the start state or of
    an `Allow` call writing the mode matches.  A call for `CRUD` writes the four
    concrete modes only, so no call matches a query for `CRUD`. -/
theorem Reachable.hasPermission_after_run {Global : ρ} {p : Permission ρ}
    (h : Reachable Global p) (calls : List Call) :
    ∃ p', p.run calls = .ok p' ∧ Reachable Global p' ∧ p'.role = p.role ∧
      ∀ (mode : PermissionMode) (roles : List Actor),
        (p'.hasPermission Anyone mode roles = true ↔ Actor.other ∉ roles ∧
          ¬ (Matches Anyone (p.deniedRoles.roles mode) (roles.flatMap Actor.names) ∨
              ∃ c ∈ calls, c.kind = .denied ∧ mode ∈ modesOf c.mode ∧
                Matches Anyone c.roles.toFinset (roles.flatMap Actor.names)) ∧
          ((p.allowedRoles.len = 0 ∧ ∀ c ∈ calls, c.kind ≠ .allowed) ∨
            Matches Anyone (p.allowedRoles.roles mode) (roles.flatMap Actor.names) ∨
            ∃ c ∈ calls, c.kind = .allowed ∧ mode ∈ modesOf c.mode ∧
              Matches Anyone c.roles.toFinset (roles.flatMap Actor.names))) := by
  obtain ⟨p', hrun, -, hrole, hP⟩ := run_spec h.wellFormed calls
  refine ⟨p', hrun, h.of_run hrun, hrole, fun mode roles => ?_⟩
  rw [hasPermission_iff, hP]
  simp only [Policy.Permits, Policy.matches_declareAll, Policy.allowList_declareAll, policyOf,
    rulesOf, Permission.rules, decide_eq_true_eq, imp_iff_not_or, not_or, not_exists, not_and,
    ne_eq, not_not]

theorem Reachable.hasPermission_after_run_concat :
    Reachable () (Permission.concat ()
      (some ⟨(), some ∅, some (AList.insert delete ["intern"] ∅)⟩)
      (some ⟨(), some (AList.insert read ["viewer"] ∅), some ∅⟩)) ∧
    ∃ p', (Permission.concat ()
        (some ⟨(), some ∅, some (AList.insert delete ["intern"] ∅)⟩)
        (some ⟨(), some (AList.insert read ["viewer"] ∅), some ∅⟩)).run
          [⟨.allowed, update, ["editor"]⟩, ⟨.denied, crud, ["viewer"]⟩] = .ok p' ∧
      p'.hasPermission "*" read [.str "viewer"] = false ∧
      p'.hasPermission "*" update [.str "editor"] = true ∧
      p'.hasPermission "*" delete [.str "intern"] = false := by
  have h : Reachable () (Permission.concat () (some _) (some _)) :=
    .concat_some (.call ⟨.denied, delete, ["intern"]⟩ (.empty ()) rfl)
      (.call ⟨.allowed, read, ["viewer"]⟩ (.empty ()) rfl)
  obtain ⟨p', hrun, -, -, hdec⟩ := Reachable.hasPermission_after_run "*" h
    [⟨.allowed, update, ["editor"]⟩, ⟨.denied, crud, ["viewer"]⟩]
  exact ⟨h, p', hrun, Bool.eq_false_iff.mpr fun hg => absurd ((hdec read _).mp hg) (by decide),
    (hdec update _).mpr (by decide),
    Bool.eq_false_iff.mpr fun hg => absurd ((hdec delete _).mp hg) (by decide)⟩

end Decision

end RolePolicy
