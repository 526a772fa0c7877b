import NimbusFs.Common.Config

/-! # What `Validate` reports

`Validate` goes through two maps of specs and collects what it does not like. The
list it returns has one entry for each spec that the document violates, in the
order of the maps. The document may have any shape: `operator[]` of a constant
`nlohmann::json` is undefined on anything but an object with that key, so `Validate`
and the getters are written here once more with that in sight, as they stand in the
source, and found to do the same. -/
namespace NimbusFs.Common

/-! ## Maps of specs -/

theorem mem_setSpec {key : Text} {spec : ConfigFieldSpec} {specs : List (Text × ConfigFieldSpec)}
    {x : Text × ConfigFieldSpec} (h : x ∈ setSpec key spec specs) : x = (key, spec) ∨ x ∈ specs := by
  induction specs with
  | nil => exact .inl (List.mem_singleton.mp h)
  | cons s rest ih =>
    unfold setSpec at h
    split at h
    · exact (List.mem_cons.mp h).imp id (List.mem_cons_of_mem _)
    · split at h
      · exact List.mem_cons.mp h
      · rcases List.mem_cons.mp h with rfl | h
        · exact .inr List.mem_cons_self
        · exact (ih h).imp id (List.mem_cons_of_mem _)

/-- The specs are in the order of their keys, and no key is there twice. -/
def KeyOrder (specs : List (Text × ConfigFieldSpec)) : Prop := specs.Pairwise fun a b => a.1 < b.1

theorem KeyOrder.setSpec {specs : List (Text × ConfigFieldSpec)} (h : KeyOrder specs) (key : Text)
    (spec : ConfigFieldSpec) : KeyOrder (setSpec key spec specs) := by
  induction specs with
  | nil => exact List.pairwise_singleton _ _
  | cons s rest ih =>
    obtain ⟨hs, hrest⟩ := List.pairwise_cons.mp h
    unfold Common.setSpec
    split
    · rename_i heq
      exact List.pairwise_cons.mpr ⟨fun b hb => heq ▸ hs b hb, hrest⟩
    · rename_i hne
      split
      · rename_i hlt
        refine List.pairwise_cons.mpr ⟨fun b hb => ?_, h⟩
        rcases List.mem_cons.mp hb with rfl | hb
        · exact hlt
        · exact List.lt_trans hlt (hs b hb)
      · rename_i hge
        refine List.pairwise_cons.mpr ⟨fun b hb => ?_, ih hrest⟩
        rcases mem_setSpec hb with rfl | hb
        · exact (List.le_iff_lt_or_eq.mp (List.not_lt.mp hge)).resolve_right fun h => hne h.symm
        · exact hs b hb

/-- The schemas that can be built. -/
inductive ConfigSchema.Built : ConfigSchema → Prop
  | empty : Built {}
  | requireClusterInvariant {schema : ConfigSchema} (key : Text) (type : ConfigFieldType) :
    Built schema → Built (schema.requireClusterInvariant key type)
  | requireNodeLocal {schema : ConfigSchema} (key : Text) (type : ConfigFieldType) :
    Built schema → Built (schema.requireNodeLocal key type)
  | optionalClusterInvariant {schema : ConfigSchema} (key : Text) (type : ConfigFieldType) :
    Built schema → Built (schema.optionalClusterInvariant key type)
  | optionalNodeLocal {schema : ConfigSchema} (key : Text) (type : ConfigFieldType) :
    Built schema → Built (schema.optionalNodeLocal key type)

theorem ConfigSchema.Built.keyOrder {schema : ConfigSchema} (h : schema.Built)
    (sec : ConfigSection) : KeyOrder (schema.specs sec) := by
  have hboth : KeyOrder schema.clusterInvariantSpecs ∧ KeyOrder schema.nodeLocalSpecs := by
    induction h with
    | empty => exact ⟨List.Pairwise.nil, List.Pairwise.nil⟩
    | requireClusterInvariant key type _ ih => exact ⟨ih.1.setSpec _ _, ih.2⟩
    | requireNodeLocal key type _ ih => exact ⟨ih.1, ih.2.setSpec _ _⟩
    | optionalClusterInvariant key type _ ih => exact ⟨ih.1.setSpec _ _, ih.2⟩
    | optionalNodeLocal key type _ ih => exact ⟨ih.1, ih.2.setSpec _ _⟩
  cases sec with
  | ClusterInvariant => exact hboth.1
  | NodeLocal => exact hboth.2

/-! ## Violated specs -/

/-- The values that a type admits. -/
def ConfigFieldType.Admits {Double : Type} : ConfigFieldType → Json Double → Prop
  | .String, jval => ∃ s, jval = .string s
  | .Int64, jval => (∃ i, jval = .numberInteger i) ∨ ∃ n, jval = .numberUnsigned n
  | .Double, jval =>
    (∃ x, jval = .numberFloat x) ∨ (∃ i, jval = .numberInteger i) ∨ ∃ n, jval = .numberUnsigned n
  | .Bool, jval => ∃ b, jval = .boolean b

namespace Config

variable {Double : Type} (config : Config Double)

/-- A spec is violated: no variable overrides it, and it is required and not there,
or there and of a type that it does not admit. -/
def Violated (sec : ConfigSection) (key : Text) (spec : ConfigFieldSpec) : Prop :=
  ¬ (sec = .NodeLocal ∧ ∃ envVal, config.getEnvOverride .NodeLocal key = some envVal) ∧
    ((spec.required = true ∧ config.find sec key = none) ∨
      ∃ jval, config.find sec key = some jval ∧ ¬ spec.type.Admits jval)

/-- What is said of a violated spec. -/
def violationText (sec : ConfigSection) (key : Text) (spec : ConfigFieldSpec) : Text :=
  match config.find sec key with
  | none => "Missing required key: ".toList ++ sec.name ++ ['.'] ++ key
  | some jval => "Type mismatch for ".toList ++ sec.name ++ ['.'] ++ key ++
      ": expected ".toList ++ (checkType spec.type jval).2.toList

variable {config}

theorem checkType_iff {type : ConfigFieldType} {jval : Json Double} :
    (checkType type jval).1 = true ↔ type.Admits jval := by
  cases type <;> cases jval <;>
    simp [checkType, ConfigFieldType.Admits, Json.isString, Json.isNumberInteger,
      Json.isNumberFloat, Json.isBoolean]

/-- Nothing overrides a cluster invariant. -/
theorem overridden_iff {sec : ConfigSection} {key : Text} :
    (sec = .NodeLocal ∧ ∃ envVal, config.getEnvOverride .NodeLocal key = some envVal) ↔
      ∃ envVal, config.getEnvOverride sec key = some envVal := by
  cases sec with
  | ClusterInvariant => simp [getEnvOverride]
  | NodeLocal => simp

variable (config) in
/-- A key has one error if its spec is violated, and none otherwise. -/
theorem validateKey_spec (sec : ConfigSection) (key : Text) (spec : ConfigFieldSpec) :
    (config.Violated sec key spec ∧
      config.validateKey sec key spec = [config.violationText sec key spec]) ∨
    (¬ config.Violated sec key spec ∧ config.validateKey sec key spec = []) := by
  unfold Violated validateKey violationText
  rw [overridden_iff]
  cases config.getEnvOverride sec key with
  | some envVal => exact .inr ⟨fun h => h.1 ⟨envVal, rfl⟩, rfl⟩
  | none =>
    cases config.find sec key with
    | none => cases spec.required <;> simp
    | some jval =>
      cases haccepted : (checkType spec.type jval).1 with
      | true => exact .inr ⟨by simp [checkType_iff.mp haccepted], by simp [haccepted]⟩
      | false =>
        have hno : ¬ spec.type.Admits jval := by simp [← checkType_iff, haccepted]
        exact .inl ⟨by simp [hno], by simp [haccepted]⟩

theorem violated_iff {sec : ConfigSection} {key : Text} {spec : ConfigFieldSpec} :
    config.Violated sec key spec ↔ config.validateKey sec key spec ≠ [] := by
  rcases validateKey_spec config sec key spec with ⟨h, herrors⟩ | ⟨h, herrors⟩
  · simp [h, herrors]
  · simp [h, herrors]

instance (sec : ConfigSection) (key : Text) (spec : ConfigFieldSpec) :
    Decidable (config.Violated sec key spec) :=
  decidable_of_iff _ violated_iff.symm

variable (config) in
/-- What is said of the violated ones among some specs, in their order. -/
def violations (specs : List (Text × ConfigFieldSpec)) (sec : ConfigSection) : List Text :=
  (specs.filter fun s => config.Violated sec s.1 s.2).map fun s =>
    config.violationText sec s.1 s.2

theorem validateSection_eq (specs : List (Text × ConfigFieldSpec)) (sec : ConfigSection) :
    config.validateSection specs sec = config.violations specs sec := by
  induction specs with
  | nil => rfl
  | cons s rest ih =>
    have hstep : config.validateSection (s :: rest) sec =
        config.validateKey sec s.1 s.2 ++ config.validateSection rest sec := rfl
    rw [hstep, ih]
    rcases validateKey_spec config sec s.1 s.2 with ⟨h, herrors⟩ | ⟨h, herrors⟩
    · simp [violations, h, herrors]
    · simp [violations, h, herrors]

theorem validate_eq_ok_iff {schema : ConfigSchema} : config.validate schema = .ok () ↔
    ∀ sec key spec, (key, spec) ∈ schema.specs sec → ¬ config.Violated sec key spec := by
  refine validate_eq_ok.trans (forall_congr' fun sec => forall_congr' fun key =>
    forall_congr' fun spec => imp_congr_right fun _ => ?_)
  rw [violated_iff, not_not]

theorem validate_eq_error {schema : ConfigSchema} {err : ConfigError}
    (h : config.validate schema = .error err) :
    err = ⟨.SchemaValidationFailed, "Schema validation failed".toList,
      config.violations (schema.specs .ClusterInvariant) .ClusterInvariant ++
        config.violations (schema.specs .NodeLocal) .NodeLocal⟩ := by
  simp only [validate, validateSection_eq] at h
  split at h
  · cases h
    rfl
  · cases h

end Config

/-! ## `operator[]` -/

namespace Json

variable {Double : Type}

/-- `contains(key)`. -/
def contains : Json Double → Text → Bool
  | .object members, key => members.any fun m => m.1 = key
  | _, _ => false

/-- `operator[](key)` of a constant: nothing where it is undefined, on anything but
an object with that key. -/
def subscript : Json Double → Text → Option (Json Double)
  | .object members, key => (members.find? fun m => m.1 = key).map Prod.snd
  | _, _ => none

theorem subscript_eq (j : Json Double) (key : Text) : j.subscript key = j.member key := by
  cases j <;> rfl

theorem contains_eq (j : Json Double) (key : Text) : j.contains key = (j.member key).isSome := by
  cases j with
  | object members =>
    rw [contains, member, Option.isSome_map]
    exact List.isSome_find?.symm
  | _ => rfl

end Json

namespace Config

variable {Double : Type} (config : Config Double)

/-- `data_.contains(section_name) && data_[section_name].contains(path)`. -/
def containsPath (sec : ConfigSection) (path : Text) : Option Bool :=
  if !config.data.contains sec.name then some false
  else (config.data.subscript sec.name).map fun s => s.contains path

/-- `data_[section_name][path]`. -/
def atPath (sec : ConfigSection) (path : Text) : Option (Json Double) :=
  (config.data.subscript sec.name).bind fun s => s.subscript path

/-- The way of the getters, with every subscript that the source has. -/
def getValueRaw {α : Type} (sec : ConfigSection) (path : Text) (parse : Text → Option α)
    (unparsed : String) (accepts : Json Double → Bool) (mismatch : String)
    (read : Json Double → α) : Option (Except ConfigError α) :=
  match config.getEnvOverride sec path with
  | some envVal =>
    match parse envVal with
    | some value => some (.ok value)
    | none => some (.error { code := .TypeMismatch, message := unparsed.toList })
  | none => do
    if !(← config.containsPath sec path) then
      return .error { code := .KeyNotFound, message := "Key not found: ".toList ++ path }
    if !accepts (← config.atPath sec path) then
      return .error { code := .TypeMismatch, message := mismatch.toList }
    return .ok (read (← config.atPath sec path))

/-- One turn of the loop of `Validate`. -/
def validateKeyRaw (sec : ConfigSection) (validationErrors : List Text)
    (s : Text × ConfigFieldSpec) : Option (List Text) :=
  match config.getEnvOverride sec s.1 with
  | some _ => some validationErrors
  | none => do
    if !(← config.containsPath sec s.1) then
      if s.2.required then
        return validationErrors ++ ["Missing required key: ".toList ++ sec.name ++ ['.'] ++ s.1]
      return validationErrors
    let (accepted, expected) := checkType s.2.type (← config.atPath sec s.1)
    if accepted then return validationErrors
    return validationErrors ++ ["Type mismatch for ".toList ++ sec.name ++ ['.'] ++ s.1 ++
      ": expected ".toList ++ expected.toList]

def validateRaw (schema : ConfigSchema) : Option (Except ConfigError Unit) := do
  let validationErrors ← (schema.specs .ClusterInvariant).foldlM
    (config.validateKeyRaw .ClusterInvariant) []
  let validationErrors ← (schema.specs .NodeLocal).foldlM
    (config.validateKeyRaw .NodeLocal) validationErrors
  if !validationErrors.isEmpty then
    return .error ⟨.SchemaValidationFailed, "Schema validation failed".toList, validationErrors⟩
  return .ok ()

variable {config}

/-- The key is looked up only in a section that is there. -/
theorem containsPath_eq (sec : ConfigSection) (path : Text) :
    config.containsPath sec path = some (config.find sec path).isSome := by
  unfold containsPath find
  rw [Json.contains_eq, Json.subscript_eq]
  cases config.data.member sec.name with
  | none => rfl
  | some s => simp [Json.contains_eq]

theorem atPath_eq (sec : ConfigSection) (path : Text) :
    config.atPath sec path = config.find sec path := by
  simp only [atPath, find, Json.subscript_eq]

/-- The getters apply no subscript that is undefined. -/
theorem getValueRaw_eq {α : Type} (sec : ConfigSection) (path : Text) (parse : Text → Option α)
    (unparsed : String) (accepts : Json Double → Bool) (mismatch : String)
    (read : Json Double → α) :
    config.getValueRaw sec path parse unparsed accepts mismatch read =
      some (config.getValue sec path parse unparsed accepts mismatch read) := by
  unfold getValueRaw getValue
  cases config.getEnvOverride sec path with
  | some envVal =>
    dsimp only
    cases parse envVal <;> rfl
  | none =>
    simp only [containsPath_eq, atPath_eq]
    cases config.find sec path with
    | none => rfl
    | some jval =>
      simp only [Option.bind_eq_bind, Option.bind_some]
      cases accepts jval <;> rfl

theorem validateKeyRaw_eq (sec : ConfigSection) (validationErrors : List Text)
    (s : Text × ConfigFieldSpec) :
    config.validateKeyRaw sec validationErrors s =
      some (validationErrors ++ config.validateKey sec s.1 s.2) := by
  unfold validateKeyRaw validateKey
  cases config.getEnvOverride sec s.1 with
  | some envVal => simp
  | none =>
    simp only [containsPath_eq, atPath_eq]
    cases config.find sec s.1 with
    | none =>
      simp only [Option.bind_eq_bind, Option.bind_some, Option.isSome_none]
      cases s.2.required <;> simp
    | some jval =>
      simp only [Option.bind_eq_bind, Option.bind_some, Option.isSome_some]
      cases (checkType s.2.type jval).1 <;> simp

theorem validateSectionRaw_eq (sec : ConfigSection) (specs : List (Text × ConfigFieldSpec))
    (validationErrors : List Text) :
    specs.foldlM (config.validateKeyRaw sec) validationErrors =
      some (validationErrors ++ config.validateSection specs sec) := by
  induction specs generalizing validationErrors with
  | nil => simp [validateSection]
  | cons s rest ih =>
    rw [List.foldlM_cons, validateKeyRaw_eq]
    simp [ih, validateSection]

/-- `Validate` applies no subscript that is undefined. -/
theorem validateRaw_eq (schema : ConfigSchema) :
    config.validateRaw schema = some (config.validate schema) := by
  simp only [validateRaw, validateSectionRaw_eq, Option.bind_eq_bind, Option.bind_some,
    List.nil_append]
  unfold validate
  dsimp only
  split <;> rfl

/-- **`Validate` reports exactly the violations**: it is satisfied if no spec is
violated, and otherwise it lists them, the cluster invariants first and each
section in the order of its keys. Whatever the document is, neither it nor a getter
applies `operator[]` to anything but an object that has the key. -/
theorem validate_reports (config : Config Double) (schema : ConfigSchema) :
    (config.validate schema = .ok () ↔
      ∀ sec key spec, (key, spec) ∈ schema.specs sec → ¬ config.Violated sec key spec) ∧
    (∀ err, config.validate schema = .error err → err =
      ⟨.SchemaValidationFailed, "Schema validation failed".toList,
        config.violations (schema.specs .ClusterInvariant) .ClusterInvariant ++
          config.violations (schema.specs .NodeLocal) .NodeLocal⟩) ∧
    (schema.Built → ∀ sec, KeyOrder (schema.specs sec)) ∧
    config.validateRaw schema = some (config.validate schema) ∧
    ∀ (α : Type) (sec : ConfigSection) (path : Text) (parse : Text → Option α)
      (unparsed : String) (accepts : Json Double → Bool) (mismatch : String)
      (read : Json Double → α),
      config.getValueRaw sec path parse unparsed accepts mismatch read =
        some (config.getValue sec path parse unparsed accepts mismatch read) := by
  refine ⟨validate_eq_ok_iff, fun err h => validate_eq_error h, fun h => h.keyOrder,
    validateRaw_eq schema, ?_⟩
  intro α sec path parse unparsed accepts mismatch read
  exact getValueRaw_eq sec path parse unparsed accepts mismatch read

end Config

end NimbusFs.Common
