import RolePolicy.Permission
import Mathlib.Data.Finset.Basic

/-!
# The policy a permission stands for

**The abstract model of `pkg/roles`.**  A policy records, for each of the two
kinds of rule and each mode, the set of names the rules list, and whether any
allow rule was ever declared.  Its decision (`Policy.Permits`) is the design
`permission.go` implements:

* deny overrides allow: a deny rule for the mode that matches the actor names
  refuses, whatever the allow rules say;
* a policy with no allow rule at all permits everything it does not deny;
* once any allow rule exists, the mode needs a matching allow rule of its own.

A rule matches (`Matches`) when it lists `Anyone` or shares a name with the
actors.  Names are sets here, so order and duplicates are gone by construction,
and `Policy.merge` is commutative and associative as an equation.  The
refinement theorems of `RolePolicy.Decision`, `RolePolicy.Concat` and
`RolePolicy.Builder` tie this model to the Go code of `RolePolicy.Permission`.
-/

namespace RolePolicy

/-! ## 1. Matching and the decision -/

section Abstract

variable (Anyone : String)

/-- The names of a rule match the actor names: they hold `Anyone`, or share a
    name with the actors. -/
def Matches (names : Finset String) (roleNames : List String) : Prop :=
  Anyone ∈ names ∨ ∃ n ∈ roleNames, n ∈ names

instance (names : Finset String) (roleNames : List String) :
    Decidable (Matches Anyone names roleNames) :=
  inferInstanceAs (Decidable (_ ∨ _))

/-- What a permission decides by: the names its rules of each kind list for each
    mode, and whether it has any allow rule. -/
@[ext] structure Policy where
  rules : RuleKind → PermissionMode → Finset String
  allowList : Bool

/-- The decision of a policy for a mode and the actors' names. -/
def Policy.Permits (P : Policy) (mode : PermissionMode) (roleNames : List String) : Prop :=
  ¬ Matches Anyone (P.rules .denied mode) roleNames ∧
    (P.allowList = true → Matches Anyone (P.rules .allowed mode) roleNames)

instance (P : Policy) (mode : PermissionMode) (roleNames : List String) :
    Decidable (P.Permits Anyone mode roleNames) :=
  inferInstanceAs (Decidable (_ ∧ _))

theorem matches_congr {names : Finset String} {roleNames roleNames' : List String}
    (h : ∀ n, n ∈ roleNames ↔ n ∈ roleNames') :
    Matches Anyone names roleNames ↔ Matches Anyone names roleNames' := by
  simp only [Matches, h]

/-- An actor named `Anyone` is no wildcard: it matches only a rule that lists
    `Anyone`, which matches every actor anyway. -/
theorem matches_cons_Anyone (names : Finset String) (roleNames : List String) :
    Matches Anyone names (Anyone :: roleNames) ↔ Matches Anyone names roleNames := by
  simp only [Matches, List.mem_cons, exists_eq_or_imp]
  tauto

theorem matches_union (names names' : Finset String) (roleNames : List String) :
    Matches Anyone (names ∪ names') roleNames ↔
      Matches Anyone names roleNames ∨ Matches Anyone names' roleNames := by
  simp only [Matches, Finset.mem_union, and_or_left, exists_or, or_assoc, or_left_comm]

theorem matches_mono {names names' : Finset String} (h : names ⊆ names')
    {roleNames : List String} :
    Matches Anyone names roleNames → Matches Anyone names' roleNames :=
  Or.imp (@h _) fun ⟨n, hn, hm⟩ => ⟨n, hn, h hm⟩

theorem permits_congr {P : Policy} {mode : PermissionMode} {roleNames roleNames' : List String}
    (h : ∀ n, n ∈ roleNames ↔ n ∈ roleNames') :
    P.Permits Anyone mode roleNames ↔ P.Permits Anyone mode roleNames' := by
  simp only [Policy.Permits, matches_congr Anyone h]

end Abstract

/-! ## 2. Building and merging policies -/

/-- The modes a builder call for `mode` writes: `CRUD` stands for the four
    concrete modes, in the order `Allow` and `Deny` expand it. -/
def modesOf (mode : PermissionMode) : List PermissionMode :=
  if mode = crud then [create, update, read, delete] else [mode]

/-- For a concrete mode, a call writes it when it names it or `CRUD`. -/
theorem mem_modesOf {m : PermissionMode} (hm : m ∈ [create, read, update, delete])
    (mode : PermissionMode) : m ∈ modesOf mode ↔ mode = m ∨ mode = crud := by
  unfold modesOf
  split
  · rename_i h
    simpa [h] using (List.Perm.cons create (List.Perm.swap update read [delete])).mem_iff.mp hm
  · rename_i h
    simp [h, eq_comm]

theorem nodup_modesOf (mode : PermissionMode) : (modesOf mode).Nodup := by
  unfold modesOf
  split
  · decide
  · exact List.nodup_singleton mode

theorem exists_mem_modesOf (mode : PermissionMode) : ∃ m, m ∈ modesOf mode := by
  unfold modesOf
  split <;> exact ⟨_, List.mem_cons_self _ _⟩

/-- Every mode a call writes is concrete: neither `Allow` nor `Deny` writes `CRUD`. -/
theorem ne_crud_of_mem_modesOf {mode m : PermissionMode} (h : m ∈ modesOf mode) : m ≠ crud := by
  unfold modesOf at h
  split at h
  · simp only [List.mem_cons, List.mem_singleton, List.not_mem_nil, or_false] at h
    rcases h with rfl | rfl | rfl | rfl <;> decide
  · rename_i hne
    exact (List.mem_singleton.mp h) ▸ hne

/-- The policy of a permission with no rules. -/
def Policy.empty : Policy := ⟨fun _ _ => ∅, false⟩

/-- A rule of `kind` for the one mode `mode`: its names join the mode's; an allow
    rule switches the policy to allow-list mode. -/
def Policy.add (P : Policy) (kind : RuleKind) (mode : PermissionMode) (roles : List String) :
    Policy where
  rules kind' mode' :=
    if kind' = kind ∧ mode' = mode then P.rules kind' mode' ∪ roles.toFinset
    else P.rules kind' mode'
  allowList := P.allowList || kind == .allowed

/-- Declaring a rule of `kind` for `mode`: a rule for each mode the call writes. -/
def Policy.declare (P : Policy) (kind : RuleKind) (mode : PermissionMode)
    (roles : List String) : Policy :=
  (modesOf mode).foldl (fun P m => P.add kind m roles) P

theorem Policy.mem_rules_foldl_add (P : Policy) (kind : RuleKind) (modes : List PermissionMode)
    (roles : List String) (kind' : RuleKind) (mode' : PermissionMode) (n : String) :
    n ∈ (modes.foldl (fun P m => P.add kind m roles) P).rules kind' mode' ↔
      n ∈ P.rules kind' mode' ∨ (kind = kind' ∧ mode' ∈ modes ∧ n ∈ roles) := by
  induction modes generalizing P with
  | nil => simp
  | cons m modes ih =>
    rw [List.foldl_cons, ih]
    simp only [add, List.mem_cons]
    split_ifs with h
    · obtain ⟨rfl, rfl⟩ := h
      simp only [Finset.mem_union, List.mem_toFinset, true_or, true_and]
      tauto
    · have : ¬ (kind = kind' ∧ mode' = m) := fun h' => h ⟨h'.1.symm, h'.2⟩
      tauto

theorem Policy.mem_rules_declare (P : Policy) (kind : RuleKind) (mode : PermissionMode)
    (roles : List String) (kind' : RuleKind) (mode' : PermissionMode) (n : String) :
    n ∈ (P.declare kind mode roles).rules kind' mode' ↔
      n ∈ P.rules kind' mode' ∨ (kind = kind' ∧ mode' ∈ modesOf mode ∧ n ∈ roles) :=
  mem_rules_foldl_add P kind _ roles kind' mode' n

@[simp] theorem Policy.allowList_declare (P : Policy) (kind : RuleKind) (mode : PermissionMode)
    (roles : List String) :
    (P.declare kind mode roles).allowList = (P.allowList || kind == .allowed) := by
  unfold declare modesOf
  split <;> simp [add]

/-- The union of two policies: every rule of either. -/
def Policy.merge (P Q : Policy) : Policy where
  rules kind mode := P.rules kind mode ∪ Q.rules kind mode
  allowList := P.allowList || Q.allowList

theorem Policy.merge_comm (P Q : Policy) : P.merge Q = Q.merge P :=
  Policy.ext (funext₂ fun _ _ => Finset.union_comm _ _) (Bool.or_comm _ _)

theorem Policy.merge_assoc (P Q R : Policy) : (P.merge Q).merge R = P.merge (Q.merge R) :=
  Policy.ext (funext₂ fun _ _ => Finset.union_assoc _ _ _) (Bool.or_assoc _ _ _)

@[simp] theorem Policy.merge_empty (P : Policy) : P.merge .empty = P :=
  Policy.ext (funext₂ fun _ _ => Finset.union_empty _) (Bool.or_false _)

@[simp] theorem Policy.empty_merge (P : Policy) : Policy.empty.merge P = P := by
  rw [merge_comm, merge_empty]

theorem Policy.rules_declare_of_ne (P : Policy) {kind kind' : RuleKind} (h : kind ≠ kind')
    (mode : PermissionMode) (roles : List String) :
    (P.declare kind mode roles).rules kind' = P.rules kind' := by
  funext mode'
  ext n
  simp [mem_rules_declare, h]

theorem Policy.rules_subset_declare (P : Policy) (kind : RuleKind) (mode : PermissionMode)
    (roles : List String) (kind' : RuleKind) (mode' : PermissionMode) :
    P.rules kind' mode' ⊆ (P.declare kind mode roles).rules kind' mode' :=
  fun n hn => (mem_rules_declare P kind mode roles kind' mode' n).mpr (.inl hn)

theorem Policy.permits_merge (Anyone : String) {P Q : Policy} {mode : PermissionMode}
    {roleNames : List String} (hP : P.Permits Anyone mode roleNames)
    (hQ : Q.Permits Anyone mode roleNames) : (P.merge Q).Permits Anyone mode roleNames := by
  simp only [Permits, merge, matches_union, Bool.or_eq_true] at hP hQ ⊢
  tauto

theorem Policy.permits_of_permits_merge (Anyone : String) {P Q : Policy}
    {mode : PermissionMode} {roleNames : List String}
    (h : (P.merge Q).Permits Anyone mode roleNames) :
    P.Permits Anyone mode roleNames ∨ Q.Permits Anyone mode roleNames := by
  obtain ⟨hd, ha⟩ := h
  rw [merge, matches_union, not_or] at hd
  by_cases hP : P.allowList = true
  · rcases (matches_union Anyone (P.rules .allowed mode) (Q.rules .allowed mode) roleNames).mp
      (ha (by simp [merge, hP])) with hm | hm
    · exact .inl ⟨hd.1, fun _ => hm⟩
    · exact .inr ⟨hd.2, fun _ => hm⟩
  · exact .inl ⟨hd.1, fun h => absurd h hP⟩

theorem Policy.permits_of_permits_deny (Anyone : String) {P : Policy} {mode m : PermissionMode}
    {roles roleNames : List String}
    (h : (P.declare .denied mode roles).Permits Anyone m roleNames) :
    P.Permits Anyone m roleNames := by
  obtain ⟨hd, ha⟩ := h
  refine ⟨fun hm => hd (matches_mono Anyone (P.rules_subset_declare _ _ _ _ _) hm), ?_⟩
  simpa [P.rules_declare_of_ne (show RuleKind.denied ≠ .allowed by decide)] using ha

/-- Once a policy is in allow-list mode, an allow rule never revokes. -/
theorem Policy.permits_allow (Anyone : String) {P : Policy} (hP : P.allowList = true)
    {mode m : PermissionMode} {roles roleNames : List String}
    (h : P.Permits Anyone m roleNames) :
    (P.declare .allowed mode roles).Permits Anyone m roleNames := by
  obtain ⟨hd, ha⟩ := h
  exact ⟨by rwa [P.rules_declare_of_ne (show RuleKind.allowed ≠ .denied by decide)],
    fun _ => matches_mono Anyone (P.rules_subset_declare _ _ _ _ _) (ha hP)⟩

/-! ## 3. Sequences of builder calls -/

/-- A call of the builder: `Allow` (kind `allowed`) or `Deny` (kind `denied`),
    with its mode and names. -/
structure Call where
  kind : RuleKind
  mode : PermissionMode
  roles : List String
  deriving DecidableEq, Repr

/-- The policy after a sequence of calls, in order. -/
def Policy.declareAll (P : Policy) (calls : List Call) : Policy :=
  calls.foldl (fun P c => P.declare c.kind c.mode c.roles) P

theorem Policy.mem_rules_declareAll (P : Policy) (calls : List Call) (kind : RuleKind)
    (mode : PermissionMode) (n : String) :
    n ∈ (P.declareAll calls).rules kind mode ↔
      n ∈ P.rules kind mode ∨
        ∃ c ∈ calls, c.kind = kind ∧ mode ∈ modesOf c.mode ∧ n ∈ c.roles := by
  induction calls generalizing P with
  | nil => simp [declareAll]
  | cons c calls ih =>
    simp only [declareAll, List.foldl_cons] at ih ⊢
    rw [ih, mem_rules_declare]
    simp only [List.mem_cons, exists_eq_or_imp]
    tauto

theorem Policy.allowList_declareAll (P : Policy) (calls : List Call) :
    (P.declareAll calls).allowList = true ↔
      P.allowList = true ∨ ∃ c ∈ calls, c.kind = .allowed := by
  induction calls generalizing P with
  | nil => simp [declareAll]
  | cons c calls ih =>
    simp only [declareAll, List.foldl_cons] at ih ⊢
    rw [ih]
    simp only [allowList_declare, Bool.or_eq_true, beq_iff_eq, List.mem_cons, exists_eq_or_imp]
    tauto

/-- From no rules, a kind's names for a mode match exactly when one of the calls of
    that kind writing the mode lists `Anyone` or one of the names. -/
theorem Policy.matches_declareAll_empty (Anyone : String) (calls : List Call) (kind : RuleKind)
    (mode : PermissionMode) (roleNames : List String) :
    Matches Anyone ((Policy.empty.declareAll calls).rules kind mode) roleNames ↔
      ∃ c ∈ calls, c.kind = kind ∧ mode ∈ modesOf c.mode ∧
        (Anyone ∈ c.roles ∨ ∃ n ∈ roleNames, n ∈ c.roles) := by
  simp only [Matches, mem_rules_declareAll, Policy.empty, Finset.not_mem_empty, false_or]
  constructor
  · rintro (⟨c, hc, hk, hm, hA⟩ | ⟨n, hn, c, hc, hk, hm, hr⟩)
    exacts [⟨c, hc, hk, hm, .inl hA⟩, ⟨c, hc, hk, hm, .inr ⟨n, hn, hr⟩⟩]
  · rintro ⟨c, hc, hk, hm, hA | ⟨n, hn, hr⟩⟩
    exacts [.inl ⟨c, hc, hk, hm, hA⟩, .inr ⟨n, hn, c, hc, hk, hm, hr⟩]

theorem Policy.declareAll_append (P : Policy) (calls calls' : List Call) :
    P.declareAll (calls ++ calls') = (P.declareAll calls).declareAll calls' :=
  List.foldl_append _ _ _ _

theorem Policy.merge_declareAll (calls calls' : List Call) :
    (Policy.empty.declareAll calls).merge (Policy.empty.declareAll calls') =
      Policy.empty.declareAll (calls ++ calls') := by
  ext kind mode n
  · simp only [merge, Finset.mem_union, mem_rules_declareAll, List.mem_append, or_and_right,
      exists_or]
    simp [Policy.empty]
  · rw [Bool.eq_iff_iff]
    simp only [merge, Bool.or_eq_true, allowList_declareAll, List.mem_append, or_and_right,
      exists_or]
    simp [Policy.empty]

@[simp] theorem Policy.allowList_empty : Policy.empty.allowList = false := rfl

/-- A kind's names for a mode match after a sequence of calls exactly when they
    matched before, or one of the calls of that kind writing the mode matches. -/
theorem Policy.matches_declareAll (Anyone : String) (P : Policy) (calls : List Call)
    (kind : RuleKind) (mode : PermissionMode) (roleNames : List String) :
    Matches Anyone ((P.declareAll calls).rules kind mode) roleNames ↔
      Matches Anyone (P.rules kind mode) roleNames ∨
        ∃ c ∈ calls, c.kind = kind ∧ mode ∈ modesOf c.mode ∧
          Matches Anyone c.roles.toFinset roleNames := by
  simp only [Matches, mem_rules_declareAll, List.mem_toFinset]
  constructor
  · rintro ((hA | ⟨c, hc, hk, hm, hA⟩) | ⟨n, hn, hP | ⟨c, hc, hk, hm, hr⟩⟩)
    exacts [.inl (.inl hA), .inr ⟨c, hc, hk, hm, .inl hA⟩, .inl (.inr ⟨n, hn, hP⟩),
      .inr ⟨c, hc, hk, hm, .inr ⟨n, hn, hr⟩⟩]
  · rintro ((hA | ⟨n, hn, hP⟩) | ⟨c, hc, hk, hm, hA | ⟨n, hn, hr⟩⟩)
    exacts [.inl (.inl hA), .inr ⟨n, hn, .inl hP⟩, .inl (.inr ⟨c, hc, hk, hm, hA⟩),
      .inr ⟨n, hn, .inr ⟨c, hc, hk, hm, hr⟩⟩]

end RolePolicy
