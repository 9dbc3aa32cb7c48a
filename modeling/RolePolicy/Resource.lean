import RolePolicy.Decision
import Mathlib.Data.List.Dedup

/-!
# Resources: validators, processors and the permission check

**An embedding of the parts of `pkg/resource/resource.go` that are not
reflection**: `AddValidator`, `AddProcessor`, `New` as far as those lists and the
permission go, `Resource.hasPermission`, and `SetPrimaryFields`.  The handlers a
validator or a processor carries are functions the code only stores, so their
type is a parameter `η`.  The value, the name, the primary fields and the CRUD
handlers of a `Resource` are left out of the structure: the first three are read
or written only by `SetPrimaryFields`, which is modelled over what it reads (the
name, and the two questions it asks the ORM about the value, `Scope`) and what it
leaves (the primary fields and the error).

`AddValidator` and `AddProcessor` run the same loop over their own list, so they
are one definition, `replaceByName`, applied to `Validator.name` and
`Processor.name`.  On any list the loop replaces the first entry under the new
entry's name in place (`replaceByName_eq`), and over any sequence of additions
from an empty list it keeps one entry per name, the latest added under it, in the
order the names first came (`foldl_replaceByName_spec`).
-/

namespace RolePolicy

variable {ρ η : Type}

/-! ## 1. The model -/

/-- `Validator`; `η` is the type of its `Handler`. -/
structure Validator (η : Type) where
  name : String
  handler : η

/-- `Processor`; `η` is the type of its `Handler`. -/
structure Processor (η : Type) where
  name : String
  handler : η

/-- The fields of `Resource` that `AddValidator`, `AddProcessor` and
    `HasPermission` read and write. -/
structure Resource (ρ η : Type) where
  permission : Option (Permission ρ)
  validators : List (Validator η)
  processors : List (Processor η)

/-- `New(value)`, on the fields modelled here: no permission, no validators, no
    processors. -/
def Resource.new : Resource ρ η := ⟨none, [], []⟩

/-- The loop `AddValidator` and `AddProcessor` share: the first entry with the
    name of `x` is replaced by `x`, and `x` is appended when there is none. -/
def replaceByName {α : Type} (name : α → String) : List α → α → List α
  | [], x => [x]
  | v :: vs, x => if name v = name x then x :: vs else v :: replaceByName name vs x

/-- `res.AddValidator(validator)`. -/
def Resource.addValidator (res : Resource ρ η) (validator : Validator η) : Resource ρ η :=
  { res with validators := replaceByName Validator.name res.validators validator }

/-- `res.AddProcessor(processor)`. -/
def Resource.addProcessor (res : Resource ρ η) (processor : Processor η) : Resource ρ η :=
  { res with processors := replaceByName Processor.name res.processors processor }

/-- `res.HasPermission(mode, context)` for a context acting with `contextRoles`:
    a nil resource or a nil permission permits; otherwise every role of the
    context is passed on as a `string`. -/
def Resource.hasPermission (Anyone : String) (res : Option (Resource ρ η)) (mode : PermissionMode)
    (contextRoles : List String) : Bool :=
  match res with
  | none => true
  | some res =>
    match res.permission with
    | none => true
    | some permission => permission.hasPermission Anyone mode (contextRoles.map .str)

/-- A call that registers a validator or a processor on a resource. -/
inductive ResourceCall (η : Type)
  | addValidator (validator : Validator η)
  | addProcessor (processor : Processor η)

def ResourceCall.apply : ResourceCall η → Resource ρ η → Resource ρ η
  | .addValidator validator, res => res.addValidator validator
  | .addProcessor processor, res => res.addProcessor processor

def ResourceCall.validator? : ResourceCall η → Option (Validator η)
  | .addValidator validator => some validator
  | .addProcessor _ => none

def ResourceCall.processor? : ResourceCall η → Option (Processor η)
  | .addValidator _ => none
  | .addProcessor processor => some processor

def Resource.runCalls (res : Resource ρ η) (calls : List (ResourceCall η)) : Resource ρ η :=
  calls.foldl (fun res c => c.apply res) res

/-! ## 2. The loop of `AddValidator` and `AddProcessor` -/

/-- The names of a list in the order each first occurs. -/
def firstOccurrences (names : List String) : List String := names.reverse.dedup.reverse

theorem firstOccurrences_append_singleton (names : List String) (n : String) :
    firstOccurrences (names ++ [n]) =
      if n ∈ names then firstOccurrences names else firstOccurrences names ++ [n] := by
  unfold firstOccurrences
  rw [List.reverse_append, List.reverse_singleton, List.singleton_append]
  split_ifs with h
  · rw [List.dedup_cons_of_mem (List.mem_reverse.mpr h)]
  · rw [List.dedup_cons_of_not_mem (mt List.mem_reverse.mp h), List.reverse_cons]

theorem mem_firstOccurrences {names : List String} {n : String} :
    n ∈ firstOccurrences names ↔ n ∈ names := by
  simp [firstOccurrences]

theorem nodup_firstOccurrences (names : List String) : (firstOccurrences names).Nodup :=
  List.nodup_reverse.mpr (List.nodup_dedup _)

section Loop

variable {α : Type} (name : α → String)

theorem map_replaceByName (xs : List α) (x : α) :
    (replaceByName name xs x).map name =
      if name x ∈ xs.map name then xs.map name else xs.map name ++ [name x] := by
  induction xs with
  | nil => simp [replaceByName]
  | cons v vs ih =>
    unfold replaceByName
    by_cases h : name v = name x
    · simp [h]
    · simp only [h, if_false, List.map_cons, ih, List.mem_cons, Ne.symm h, false_or]
      split <;> simp

/-- The loop in closed form: the entry at the first index holding the name of `x`
    becomes `x`; when there is none, `x` is appended. -/
theorem replaceByName_eq (xs : List α) (x : α) :
    replaceByName name xs x =
      if name x ∈ xs.map name then xs.set (xs.findIdx (name · == name x)) x else xs ++ [x] := by
  induction xs with
  | nil => simp [replaceByName]
  | cons v vs ih =>
    unfold replaceByName
    by_cases h : name v = name x
    · simp [h, List.findIdx_cons]
    · have hb : (name v == name x) = false := by simpa using h
      rw [if_neg h, ih]
      simp only [List.map_cons, List.mem_cons, Ne.symm h, false_or, List.findIdx_cons, hb,
        cond_false]
      split <;> simp

/-- A lookup by name, which finds the first match, finds `x` under its name after
    the loop, and what it found before under every other name. -/
theorem find?_replaceByName (xs : List α) (x : α) (n : String) :
    (replaceByName name xs x).find? (name · == n) =
      if name x = n then some x else xs.find? (name · == n) := by
  induction xs with
  | nil => by_cases hn : name x = n <;> simp [replaceByName, hn]
  | cons v vs ih =>
    unfold replaceByName
    by_cases h : name v = name x
    · by_cases hn : name x = n <;> simp [List.find?_cons, h, hn]
    · rw [if_neg h, List.find?_cons, ih, List.find?_cons]
      by_cases hn : name x = n
      · have hb : (name v == n) = false := by simpa [← hn] using h
        simp [hn, hb]
      · simp [hn]

theorem mem_replaceByName {xs : List α} (hxs : (xs.map name).Nodup) {x y : α}
    (hy : y ∈ replaceByName name xs x) : y = x ∨ (y ∈ xs ∧ name y ≠ name x) := by
  induction xs with
  | nil => simpa [replaceByName] using hy
  | cons v vs ih =>
    simp only [List.map_cons, List.nodup_cons, List.mem_map] at hxs
    unfold replaceByName at hy
    split at hy
    · rename_i h
      rcases List.mem_cons.mp hy with rfl | hy
      · exact .inl rfl
      · exact .inr ⟨List.mem_cons_of_mem _ hy, fun h' => hxs.1 ⟨y, hy, h'.trans h.symm⟩⟩
    · rename_i h
      rcases List.mem_cons.mp hy with rfl | hy
      · exact .inr ⟨List.mem_cons_self _ _, h⟩
      · rcases ih hxs.2 hy with h' | ⟨h', hne⟩
        exacts [.inl h', .inr ⟨List.mem_cons_of_mem _ h', hne⟩]

/-- Any sequence of additions through the loop, from an empty list: the names
    are those added, each once, in the order they first came, and each entry is
    the last one added under its name. -/
theorem foldl_replaceByName_spec (adds : List α) :
    (adds.foldl (replaceByName name) []).map name = firstOccurrences (adds.map name) ∧
      ∀ x ∈ adds.foldl (replaceByName name) [],
        (adds.filter (name · == name x)).getLast? = some x := by
  induction adds using List.reverseRecOn with
  | nil => simp [firstOccurrences]
  | append_singleton adds a ih =>
    obtain ⟨hnames, hlast⟩ := ih
    have hnodup : ((adds.foldl (replaceByName name) []).map name).Nodup :=
      hnames ▸ nodup_firstOccurrences _
    rw [List.foldl_append, List.foldl_cons, List.foldl_nil]
    refine ⟨?_, fun y hy => ?_⟩
    · simp only [map_replaceByName, hnames, mem_firstOccurrences, List.map_append,
        List.map_singleton, firstOccurrences_append_singleton]
    · rcases mem_replaceByName name hnodup hy with rfl | ⟨hy, hne⟩
      · simp [List.filter_append]
      · simp [List.filter_append, Ne.symm hne, hlast y hy]

theorem foldl_replaceByName_props (adds : List α) :
    ((adds.foldl (replaceByName name) []).map name).Nodup ∧
      (∀ n, n ∈ (adds.foldl (replaceByName name) []).map name ↔ n ∈ adds.map name) ∧
      (∀ x ∈ adds.foldl (replaceByName name) [],
        (adds.filter (name · == name x)).getLast? = some x) ∧
      (adds.foldl (replaceByName name) []).map name = firstOccurrences (adds.map name) := by
  obtain ⟨hnames, hlast⟩ := foldl_replaceByName_spec name adds
  exact ⟨hnames ▸ nodup_firstOccurrences _, fun n => hnames ▸ mem_firstOccurrences, hlast, hnames⟩

end Loop

/-! ## 3. Runs of registrations -/

/-- The list one kind of registration writes, after a run: the loop over the
    entries the run registers of that kind, since the other kind leaves it alone. -/
theorem list_runCalls {α : Type} (get : Resource ρ η → List α)
    (sel : ResourceCall η → Option α) (name : α → String)
    (happly : ∀ c res, get (c.apply res) = (sel c).toList.foldl (replaceByName name) (get res))
    (res : Resource ρ η) (calls : List (ResourceCall η)) :
    get (res.runCalls calls) = (calls.filterMap sel).foldl (replaceByName name) (get res) := by
  induction calls generalizing res with
  | nil => rfl
  | cons c calls ih =>
    simp only [Resource.runCalls, List.foldl_cons] at ih ⊢
    rw [ih, happly, List.filterMap_cons]
    cases sel c <;> rfl

theorem validators_runCalls (res : Resource ρ η) (calls : List (ResourceCall η)) :
    (res.runCalls calls).validators =
      (calls.filterMap ResourceCall.validator?).foldl (replaceByName Validator.name)
        res.validators :=
  list_runCalls Resource.validators ResourceCall.validator? Validator.name
    (fun c _ => by cases c <;> rfl) res calls

theorem processors_runCalls (res : Resource ρ η) (calls : List (ResourceCall η)) :
    (res.runCalls calls).processors =
      (calls.filterMap ResourceCall.processor?).foldl (replaceByName Processor.name)
        res.processors :=
  list_runCalls Resource.processors ResourceCall.processor? Processor.name
    (fun c _ => by cases c <;> rfl) res calls

/-- `AddValidator` and `AddProcessor` on any lists, also ones that hold a name
    twice (the fields are exported and may be assigned directly): the entry found
    first under the new entry's name is replaced in place, and the new entry is
    appended when there is none; a later entry under the same name stays.  So a
    lookup by name, which finds the first match, finds the new entry under its
    name and what it found before under every other name. -/
theorem addValidator_addProcessor_upsert (res : Resource ρ η) (validator : Validator η)
    (processor : Processor η) :
    (res.addValidator validator).validators =
      (if validator.name ∈ res.validators.map Validator.name then
        res.validators.set (res.validators.findIdx (·.name == validator.name)) validator
      else res.validators ++ [validator]) ∧
    (∀ n, (res.addValidator validator).validators.find? (·.name == n) =
      if validator.name = n then some validator else res.validators.find? (·.name == n)) ∧
    (res.addProcessor processor).processors =
      (if processor.name ∈ res.processors.map Processor.name then
        res.processors.set (res.processors.findIdx (·.name == processor.name)) processor
      else res.processors ++ [processor]) ∧
    (∀ n, (res.addProcessor processor).processors.find? (·.name == n) =
      if processor.name = n then some processor else res.processors.find? (·.name == n)) :=
  ⟨replaceByName_eq _ _ _, find?_replaceByName _ _ _, replaceByName_eq _ _ _,
    find?_replaceByName _ _ _⟩

/-- A validator list that holds `"name"` twice: adding a third `"name"` replaces
    the first and keeps the second. -/
example : ((⟨none, [⟨"name", 1⟩, ⟨"name", 2⟩], []⟩ : Resource Unit Nat).addValidator
    ⟨"name", 3⟩).validators.map (·.handler) = [3, 2] := by
  decide

/-- Over any sequence of `AddValidator` and `AddProcessor` calls on a resource whose
    validators start empty, as `New` leaves them, the validators have pairwise
    distinct names, one entry for each name ever added, that entry the validator
    added last under the name, in the order the names were first added; and the
    same holds of the processors. -/
theorem addValidator_addProcessor_unique (res : Resource ρ η) (calls : List (ResourceCall η)) :
    (res.validators = [] →
      ((res.runCalls calls).validators.map Validator.name).Nodup ∧
      (∀ n, n ∈ (res.runCalls calls).validators.map Validator.name ↔
        n ∈ (calls.filterMap ResourceCall.validator?).map Validator.name) ∧
      (∀ v ∈ (res.runCalls calls).validators,
        ((calls.filterMap ResourceCall.validator?).filter (·.name == v.name)).getLast? =
          some v) ∧
      (res.runCalls calls).validators.map Validator.name =
        firstOccurrences ((calls.filterMap ResourceCall.validator?).map Validator.name)) ∧
    (res.processors = [] →
      ((res.runCalls calls).processors.map Processor.name).Nodup ∧
      (∀ n, n ∈ (res.runCalls calls).processors.map Processor.name ↔
        n ∈ (calls.filterMap ResourceCall.processor?).map Processor.name) ∧
      (∀ p ∈ (res.runCalls calls).processors,
        ((calls.filterMap ResourceCall.processor?).filter (·.name == p.name)).getLast? =
          some p) ∧
      (res.runCalls calls).processors.map Processor.name =
        firstOccurrences ((calls.filterMap ResourceCall.processor?).map Processor.name)) := by
  constructor
  · intro h
    rw [validators_runCalls, h]
    exact foldl_replaceByName_props Validator.name _
  · intro h
    rw [processors_runCalls, h]
    exact foldl_replaceByName_props Processor.name _

theorem addValidator_addProcessor_unique_new :
    (Resource.new : Resource Unit Unit).validators = [] ∧
      (((Resource.new : Resource Unit Unit).runCalls
          [.addValidator ⟨"name", ()⟩, .addValidator ⟨"email", ()⟩,
            .addValidator ⟨"name", ()⟩]).validators.map Validator.name).Nodup :=
  ⟨rfl, ((addValidator_addProcessor_unique Resource.new _).1 rfl).1⟩

/-! ## 4. The permission check of a resource -/

/-- A resource permits when it is nil, has no permission, or its permission's
    policy permits the context's roles: passed on as strings, they are never
    refused as invalid actors. -/
theorem Resource.hasPermission_context_iff (Anyone : String) (res : Option (Resource ρ η))
    (mode : PermissionMode) (contextRoles : List String) :
    Resource.hasPermission Anyone res mode contextRoles = true ↔
      ∀ r ∈ res, ∀ p ∈ r.permission, (policyOf (some p)).Permits Anyone mode contextRoles := by
  have hnames : (contextRoles.map Actor.str).flatMap Actor.names = contextRoles := by
    induction contextRoles with
    | nil => rfl
    | cons n ns ih => simp [Actor.names, ih]
  rcases res with _ | ⟨_ | p, validators, processors⟩
  · simp [Resource.hasPermission]
  · simp [Resource.hasPermission]
  · simp [Resource.hasPermission, RolePolicy.hasPermission_iff, hnames]

/-! ## 5. Primary fields -/

/-- What `SetPrimaryFields` asks the ORM about `res.Value` through its scope: the
    field a name stands for (`scope.FieldByName`) and the primary field
    (`scope.PrimaryField()`), each given by its `StructField`, of type `σ`. -/
structure Scope (σ : Type) where
  fieldByName : String → Option σ
  primaryField : Option σ

variable {σ : Type}

/-- The loop of `SetPrimaryFields` over the field names: append the struct field of
    each name, and return at the first name that is no field, with the error that
    names it and the fields appended so far. -/
def appendPrimaryFields (scope : Scope σ) (name : String) (primaryFields : List σ) :
    List String → List σ × Option String
  | [] => (primaryFields, none)
  | fieldName :: fields =>
    match scope.fieldByName fieldName with
    | some field => appendPrimaryFields scope name (primaryFields ++ [field]) fields
    | none => (primaryFields, some (fieldName ++ " is not a valid field for resource " ++ name))

/-- `res.SetPrimaryFields(fields...)` on a resource named `Name` whose value has
    the scope `scope`: the `PrimaryFields` it leaves, which it first resets to nil,
    and the error it returns (`none` for nil).  `New` calls it with no names and
    drops the error. -/
def Resource.setPrimaryFields (scope : Scope σ) (name : String) (fields : List String) :
    List σ × Option String :=
  if fields.length > 0 then appendPrimaryFields scope name [] fields
  else
    match scope.primaryField with
    | some primaryField => ([primaryField], none)
    | none => ([], some ("no valid primary field for resource " ++ name))

/-- The loop in closed form: after the fields it started with, the fields of the
    names before the first name that is no field, and the error naming that
    first name, if there is one. -/
theorem appendPrimaryFields_eq (scope : Scope σ) (name : String) (primaryFields : List σ)
    (fields : List String) :
    appendPrimaryFields scope name primaryFields fields =
      (primaryFields ++ (fields.takeWhile fun f => (scope.fieldByName f).isSome).filterMap
          scope.fieldByName,
        (fields.find? fun f => (scope.fieldByName f).isNone).map
          fun fieldName => fieldName ++ " is not a valid field for resource " ++ name) := by
  induction fields generalizing primaryFields with
  | nil => simp [appendPrimaryFields]
  | cons f fields ih =>
    cases h : scope.fieldByName f with
    | none => simp [appendPrimaryFields, h]
    | some field => simp [appendPrimaryFields, h, ih]

/-- `SetPrimaryFields` with field names stops at the first name that is no field
    of the value: it returns the error that names it and leaves `PrimaryFields`
    holding the fields of the names before it, a partial list.  It returns nil
    exactly when every name is a field, and `PrimaryFields` then holds their
    fields in order.  What `PrimaryFields` held before the call is lost either
    way. -/
theorem setPrimaryFields_spec (scope : Scope σ) (name : String) (fields : List String)
    (hfields : fields ≠ []) :
    Resource.setPrimaryFields scope name fields =
      ((fields.takeWhile fun f => (scope.fieldByName f).isSome).filterMap scope.fieldByName,
        (fields.find? fun f => (scope.fieldByName f).isNone).map
          fun fieldName => fieldName ++ " is not a valid field for resource " ++ name) ∧
    ((Resource.setPrimaryFields scope name fields).2 = none ↔
      ∀ f ∈ fields, (scope.fieldByName f).isSome) := by
  have h : Resource.setPrimaryFields scope name fields = appendPrimaryFields scope name [] fields :=
    if_pos (List.length_pos.mpr hfields)
  rw [h, appendPrimaryFields_eq, List.nil_append]
  exact ⟨rfl, by simp [List.find?_eq_none, Option.ne_none_iff_isSome]⟩

theorem setPrimaryFields_spec_Code :
    ["ID", "Code", "Name"] ≠ [] ∧
      Resource.setPrimaryFields ⟨fun f => if f = "ID" ∨ f = "Name" then some f else none, none⟩
        "Product" ["ID", "Code", "Name"] =
        (["ID"], some "Code is not a valid field for resource Product") :=
  ⟨by decide, (setPrimaryFields_spec _ _ _ (by decide)).1.trans (by decide)⟩

end RolePolicy
