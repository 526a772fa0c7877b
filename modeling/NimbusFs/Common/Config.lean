import Mathlib.Algebra.Group.Int.Defs
import Mathlib.Algebra.Group.Nat.Defs
import Mathlib.Data.List.Basic
import NimbusFs.Common.Sha256

/-! # `Config` and `ConfigSchema`

A configuration is a JSON document with a section of cluster invariants and one
of values local to a node; the latter may be overridden by environment variables.
`Validate` checks a document against a schema, and four getters read it. They
decide separately where a value comes from: a validated document is readable as
its schema says exactly when every override of a key of the schema can be parsed.

Texts are lists of characters, one for each byte. What `std::stod` makes of a
text, and the doubles themselves, are parameters. -/
namespace NimbusFs.Common

/-- `std::string`. -/
abbrev Text := List Char

/-! ## JSON documents -/

/-- `nlohmann::json`, as its parser builds it. -/
inductive Json (Double : Type) : Type
  | null
  | boolean (b : Bool)
  | numberInteger (i : Int)
  | numberUnsigned (n : Nat)
  | numberFloat (x : Double)
  | string (s : Text)
  | array (elements : List (Json Double))
  | object (members : List (Text × Json Double))

namespace Json

variable {Double : Type}

def isString : Json Double → Bool
  | .string _ => true
  | _ => false

/-- `is_number_integer()`: signed or unsigned. -/
def isNumberInteger : Json Double → Bool
  | .numberInteger _ => true
  | .numberUnsigned _ => true
  | _ => false

def isNumberFloat : Json Double → Bool
  | .numberFloat _ => true
  | _ => false

def isNumber (j : Json Double) : Bool := j.isNumberInteger || j.isNumberFloat

def isBoolean : Json Double → Bool
  | .boolean _ => true
  | _ => false

/-- The member of an object; nothing in any other value. `contains(key)` is
whether there is one, and then it is what `operator[]` returns. -/
def member (j : Json Double) (key : Text) : Option (Json Double) :=
  match j with
  | .object members => (members.find? fun m => m.1 = key).map Prod.snd
  | _ => none

end Json

/-! ## The standard library -/

/-- `std::stoll`, or nothing where it throws: no digits after blanks and a sign
(`invalid_argument`), or a number that does not fit into 64 bits (`out_of_range`). -/
def stoll (s : Text) : Option Int :=
  let (minus, _, s₁) := takeSign (s.dropWhile isSpace)
  let digits := s₁.takeWhile Char.isDigit
  let magnitude : Int := digits.foldl (fun v c => v * 10 + (c.toNat - 48 : Nat)) 0
  let value := if minus then -magnitude else magnitude
  if digits.isEmpty then none
  else if value < -2 ^ 63 ∨ 2 ^ 63 ≤ value then none
  else some value

/-- `static_cast<int64_t>` of a 64-bit unsigned number. -/
def toInt64 (n : Nat) : Int := if n % 2 ^ 64 < 2 ^ 63 then n % 2 ^ 64 else n % 2 ^ 64 - 2 ^ 64

/-- What is used of doubles: `std::stod`, or nothing when it throws, and the
conversion of integers. -/
structure FloatLib (Double : Type) where
  stod : Text → Option Double
  ofInteger : Int → Double

/-! ## Schemas -/

inductive ConfigFieldType
  | String
  | Int64
  | Double
  | Bool
deriving DecidableEq

inductive ConfigSection
  | ClusterInvariant
  | NodeLocal
deriving DecidableEq

structure ConfigFieldSpec where
  type : ConfigFieldType
  required : Bool
deriving DecidableEq

/-- `specs[key] = spec` on a `std::map`, which is in the order of its keys. -/
def setSpec (key : Text) (spec : ConfigFieldSpec) :
    List (Text × ConfigFieldSpec) → List (Text × ConfigFieldSpec)
  | [] => [(key, spec)]
  | (k, s) :: rest =>
    if key = k then (key, spec) :: rest
    else if key < k then (key, spec) :: (k, s) :: rest
    else (k, s) :: setSpec key spec rest

structure ConfigSchema where
  clusterInvariantSpecs : List (Text × ConfigFieldSpec) := []
  nodeLocalSpecs : List (Text × ConfigFieldSpec) := []

namespace ConfigSchema

def requireClusterInvariant (schema : ConfigSchema) (key : Text) (type : ConfigFieldType) :
    ConfigSchema :=
  { schema with clusterInvariantSpecs := setSpec key ⟨type, true⟩ schema.clusterInvariantSpecs }

def requireNodeLocal (schema : ConfigSchema) (key : Text) (type : ConfigFieldType) :
    ConfigSchema :=
  { schema with nodeLocalSpecs := setSpec key ⟨type, true⟩ schema.nodeLocalSpecs }

def optionalClusterInvariant (schema : ConfigSchema) (key : Text) (type : ConfigFieldType) :
    ConfigSchema :=
  { schema with clusterInvariantSpecs := setSpec key ⟨type, false⟩ schema.clusterInvariantSpecs }

def optionalNodeLocal (schema : ConfigSchema) (key : Text) (type : ConfigFieldType) :
    ConfigSchema :=
  { schema with nodeLocalSpecs := setSpec key ⟨type, false⟩ schema.nodeLocalSpecs }

/-- `GetClusterInvariantSpecs` or `GetNodeLocalSpecs`. -/
def specs (schema : ConfigSchema) : ConfigSection → List (Text × ConfigFieldSpec)
  | .ClusterInvariant => schema.clusterInvariantSpecs
  | .NodeLocal => schema.nodeLocalSpecs

end ConfigSchema

/-! ## Configurations -/

inductive ConfigErrorCode
  | FileNotFound
  | MalformedJson
  | SchemaValidationFailed
  | ClusterInvariantEnvOverrideAttempted
  | KeyNotFound
  | TypeMismatch
deriving DecidableEq

structure ConfigError where
  code : ConfigErrorCode
  message : Text
  validationErrors : List Text := []
deriving DecidableEq

def ConfigSection.name : ConfigSection → Text
  | .ClusterInvariant => "cluster_invariant".toList
  | .NodeLocal => "node_local".toList

def toUpperAndUnderscore (input : Text) : Text :=
  input.map fun c => (if c = '.' then '_' else c).toUpper

/-- A digit is a digit before it is made lower-case. -/
theorem eq_of_toLower {x c : Char} (h : x.toLower = c) (hc : c.toNat < 65) : x = c := by
  unfold Char.toLower at h
  split at h
  · rename_i hupper
    obtain ⟨hlo, hhi⟩ : 65 ≤ x.val.toNat ∧ x.val.toNat ≤ 90 := hupper
    subst h
    simp only [Char.toNat] at hc
    have hval : (x.val + ('a'.val - 'A'.val)).toNat = x.val.toNat + 32 := by
      rw [UInt32.toNat_add, show ('a'.val - 'A'.val).toNat = 32 by rfl]
      omega
    omega
  · exact h

theorem map_toLower_digit {s : Text} {c : Char} (hc : c.toNat < 65) (hlower : c.toLower = c) :
    s.map Char.toLower = [c] ↔ s = [c] := by
  constructor
  · intro h
    obtain ⟨x, rfl, hx⟩ := List.map_eq_singleton_iff.mp h
    rw [eq_of_toLower hx hc]
  · rintro rfl
    rw [List.map_singleton, hlower]

/-- A loaded document, in a process whose environment answers `std::getenv`. -/
structure Config (Double : Type) where
  data : Json Double
  getenv : Text → Option Text

namespace Config

variable {Double : Type} (config : Config Double)

/-- The name handed to `getenv` ends at its first NUL. -/
def getEnvOverride (sec : ConfigSection) (path : Text) : Option Text :=
  match sec with
  | .ClusterInvariant => none
  | .NodeLocal =>
    config.getenv (("NIMBUS_NODE_".toList ++ toUpperAndUnderscore path).takeWhile (· ≠ '\x00'))

/-- The value in the document, when both the section and the key are there. -/
def find (sec : ConfigSection) (path : Text) : Option (Json Double) :=
  (config.data.member sec.name).bind fun s => s.member path

/-! ### `Validate` -/

/-- What `Validate` wants of a value in the document, and what it calls that. -/
def checkType : ConfigFieldType → Json Double → Bool × String
  | .String, jval => (jval.isString, "string")
  | .Int64, jval => (jval.isNumberInteger, "int64")
  | .Double, jval => (jval.isNumberFloat || jval.isNumberInteger, "double")
  | .Bool, jval => (jval.isBoolean, "boolean")

/-- The errors about one key. -/
def validateKey (sec : ConfigSection) (key : Text) (spec : ConfigFieldSpec) : List Text :=
  match config.getEnvOverride sec key with
  | some _ => []
  | none =>
    match config.find sec key with
    | none =>
      if spec.required then
        ["Missing required key: ".toList ++ sec.name ++ ['.'] ++ key]
      else []
    | some jval =>
      let (accepted, expected) := checkType spec.type jval
      if accepted then []
      else ["Type mismatch for ".toList ++ sec.name ++ ['.'] ++ key ++
        ": expected ".toList ++ expected.toList]

def validateSection (specs : List (Text × ConfigFieldSpec)) (sec : ConfigSection) : List Text :=
  specs.flatMap fun (key, spec) => config.validateKey sec key spec

def validate (schema : ConfigSchema) : Except ConfigError Unit :=
  let validationErrors :=
    config.validateSection (schema.specs .ClusterInvariant) .ClusterInvariant ++
      config.validateSection (schema.specs .NodeLocal) .NodeLocal
  if !validationErrors.isEmpty then
    .error ⟨.SchemaValidationFailed, "Schema validation failed".toList, validationErrors⟩
  else .ok ()

/-! ### The getters -/

/-- The way of all four getters: an override first, then the document. -/
def getValue {α : Type} (sec : ConfigSection) (path : Text) (parse : Text → Option α)
    (unparsed : String) (accepts : Json Double → Bool) (mismatch : String)
    (read : Json Double → α) : Except ConfigError α :=
  match config.getEnvOverride sec path with
  | some envVal =>
    match parse envVal with
    | some value => .ok value
    | none => .error { code := .TypeMismatch, message := unparsed.toList }
  | none =>
    match config.find sec path with
    | none => .error { code := .KeyNotFound, message := "Key not found: ".toList ++ path }
    | some jval =>
      if !accepts jval then .error { code := .TypeMismatch, message := mismatch.toList }
      else .ok (read jval)

def getString (sec : ConfigSection) (path : Text) : Except ConfigError Text :=
  config.getValue sec path some "" Json.isString "Type mismatch, expected string"
    fun | .string s => s | _ => []

def getInt64 (sec : ConfigSection) (path : Text) : Except ConfigError Int :=
  config.getValue sec path stoll "Env var could not be parsed as int64"
    Json.isNumberInteger "Type mismatch, expected int64"
    fun | .numberInteger i => i | .numberUnsigned n => toInt64 n | _ => 0

/-- The overrides that `GetBool` understands. -/
def parseBool (envVal : Text) : Option Bool :=
  let lower := envVal.map Char.toLower
  if lower = "true".toList || lower = "1".toList then some true
  else if lower = "false".toList || lower = "0".toList then some false
  else none

/-- The words that `GetBool` takes: `true` and `false` in any case, `1` and `0`. -/
theorem parseBool_eq_some {envVal : Text} {b : Bool} : parseBool envVal = some b ↔
    (b = true ∧ (envVal.map Char.toLower = "true".toList ∨ envVal = "1".toList)) ∨
    (b = false ∧ (envVal.map Char.toLower = "false".toList ∨ envVal = "0".toList)) := by
  have hone : envVal.map Char.toLower = "1".toList ↔ envVal = "1".toList :=
    map_toLower_digit (by decide) (by decide)
  have hzero : envVal.map Char.toLower = "0".toList ↔ envVal = "0".toList :=
    map_toLower_digit (by decide) (by decide)
  have hne : "true".toList ≠ "false".toList := by decide
  unfold parseBool
  simp only [Bool.or_eq_true, decide_eq_true_eq, hone, hzero]
  split
  · rename_i htrue
    constructor
    · intro h
      exact .inl ⟨(Option.some.inj h).symm, htrue⟩
    · rintro (⟨rfl, _⟩ | ⟨rfl, hfalse⟩)
      · rfl
      · rcases htrue with htrue | rfl <;> rcases hfalse with hfalse | hfalse
        · exact absurd (htrue.symm.trans hfalse) hne
        · rw [hfalse] at htrue
          exact absurd htrue (by decide)
        · exact absurd hfalse (by decide)
        · exact absurd hfalse (by decide)
  · rename_i htrue
    split
    · rename_i hfalse
      constructor
      · intro h
        exact .inr ⟨(Option.some.inj h).symm, hfalse⟩
      · rintro (⟨_, h⟩ | ⟨rfl, _⟩)
        · exact absurd h htrue
        · rfl
    · rename_i hfalse
      constructor
      · intro h
        cases h
      · rintro (⟨_, h⟩ | ⟨_, h⟩)
        · exact absurd h htrue
        · exact absurd h hfalse

def getBool (sec : ConfigSection) (path : Text) : Except ConfigError Bool :=
  config.getValue sec path parseBool "Env var could not be parsed as bool"
    Json.isBoolean "Type mismatch, expected bool"
    fun | .boolean b => b | _ => false

variable (lib : FloatLib Double)

def getDouble (sec : ConfigSection) (path : Text) : Except ConfigError Double :=
  config.getValue sec path lib.stod "Env var could not be parsed as double"
    Json.isNumber "Type mismatch, expected double"
    fun | .numberFloat x => x | .numberInteger i => lib.ofInteger i
        | .numberUnsigned n => lib.ofInteger n | _ => lib.ofInteger 0

/-! ### Validated documents -/

/-- The code of an error, if there is one. -/
def errorCode {α : Type} : Except ConfigError α → Option ConfigErrorCode
  | .ok _ => none
  | .error e => some e.code

/-- What the getter for a type says of a key: nothing, or the code of its error. -/
def getterError (type : ConfigFieldType) (sec : ConfigSection) (path : Text) :
    Option ConfigErrorCode :=
  match type with
  | .String => errorCode (config.getString sec path)
  | .Int64 => errorCode (config.getInt64 sec path)
  | .Double => errorCode (config.getDouble lib sec path)
  | .Bool => errorCode (config.getBool sec path)

/-- The getter for a type can parse an override. -/
def parses : ConfigFieldType → Text → Bool
  | .String, _ => true
  | .Int64, envVal => (stoll envVal).isSome
  | .Double, envVal => (lib.stod envVal).isSome
  | .Bool, envVal => (parseBool envVal).isSome

/-- The getter returns a value, or the key is optional and not there. -/
def Reads (sec : ConfigSection) (key : Text) (spec : ConfigFieldSpec) : Prop :=
  config.getterError lib spec.type sec key = none ∨
    (spec.required = false ∧ config.getterError lib spec.type sec key = some .KeyNotFound)

/-- Everything that the schema names can be read with the type it has there. -/
def Readable (schema : ConfigSchema) : Prop :=
  ∀ sec key spec, (key, spec) ∈ schema.specs sec → config.Reads lib sec key spec

/-- Every override of a key of the schema can be parsed. -/
def OverridesParse (schema : ConfigSchema) : Prop :=
  ∀ key spec envVal, (key, spec) ∈ schema.specs .NodeLocal →
    config.getEnvOverride .NodeLocal key = some envVal → parses lib spec.type envVal = true

variable {config lib}

theorem errorCode_getValue {α : Type} {sec : ConfigSection} {path : Text}
    {parse : Text → Option α} {unparsed : String} {accepts : Json Double → Bool}
    {mismatch : String} {read : Json Double → α} :
    errorCode (config.getValue sec path parse unparsed accepts mismatch read) =
      match config.getEnvOverride sec path, config.find sec path with
      | some envVal, _ => if (parse envVal).isSome then none else some .TypeMismatch
      | none, none => some .KeyNotFound
      | none, some jval => if accepts jval then none else some .TypeMismatch := by
  unfold getValue
  cases config.getEnvOverride sec path with
  | some envVal =>
    dsimp only
    cases parse envVal <;> rfl
  | none =>
    dsimp only
    cases config.find sec path with
    | none => rfl
    | some jval =>
      dsimp only
      cases accepts jval <;> rfl

/-- The four getters look at the same two places, and take what `Validate` takes
from the document. -/
theorem getterError_eq (type : ConfigFieldType) (sec : ConfigSection) (path : Text) :
    config.getterError lib type sec path =
      match config.getEnvOverride sec path, config.find sec path with
      | some envVal, _ => if parses lib type envVal then none else some .TypeMismatch
      | none, none => some .KeyNotFound
      | none, some jval => if (checkType type jval).1 then none else some .TypeMismatch := by
  cases type with
  | String => exact errorCode_getValue
  | Int64 => exact errorCode_getValue
  | Bool => exact errorCode_getValue
  | Double =>
    refine errorCode_getValue.trans ?_
    simp only [Json.isNumber, checkType, Bool.or_comm]
    rfl

theorem validate_eq_ok {schema : ConfigSchema} : config.validate schema = .ok () ↔
    ∀ sec key spec, (key, spec) ∈ schema.specs sec → config.validateKey sec key spec = [] := by
  have hsection : ∀ sec, config.validateSection (schema.specs sec) sec = [] ↔
      ∀ key spec, (key, spec) ∈ schema.specs sec → config.validateKey sec key spec = [] := by
    intro sec
    simp [validateSection]
  have hboth : config.validate schema = .ok () ↔
      ∀ sec, config.validateSection (schema.specs sec) sec = [] := by
    unfold validate
    constructor
    · intro h sec
      dsimp only at h
      split at h
      · cases h
      · rename_i hempty
        have hnil := List.append_eq_nil_iff.mp (by simpa using hempty)
        cases sec with
        | ClusterInvariant => exact hnil.1
        | NodeLocal => exact hnil.2
    · intro h
      simp [h .ClusterInvariant, h .NodeLocal]
  exact hboth.trans (forall_congr' hsection)

/-- Of a key without errors that has no override, a value of the right type is
in the document, or the key is optional and not there. -/
theorem reads_iff {sec : ConfigSection} {key : Text} {spec : ConfigFieldSpec}
    (h : config.validateKey sec key spec = []) :
    config.Reads lib sec key spec ↔
      ∀ envVal, config.getEnvOverride sec key = some envVal → parses lib spec.type envVal = true := by
  unfold Reads
  rw [getterError_eq]
  unfold validateKey at h
  cases henv : config.getEnvOverride sec key with
  | some envVal => cases hparse : parses lib spec.type envVal <;> simp [hparse]
  | none =>
    rw [henv] at h
    cases hfind : config.find sec key with
    | none =>
      have hoptional : spec.required = false := by simpa [hfind] using h
      simp [hoptional]
    | some jval =>
      have haccepted : (checkType spec.type jval).1 = true := by simpa [hfind] using h
      simp [haccepted]

/-- **A validated document is readable** exactly when every override of a key of
its schema can be parsed: `Validate` takes any override for a value. -/
theorem readable_iff (config : Config Double) (lib : FloatLib Double) (schema : ConfigSchema)
    (h : config.validate schema = .ok ()) :
    config.Readable lib schema ↔ config.OverridesParse lib schema := by
  have hkeys := validate_eq_ok.mp h
  constructor
  · intro hread key spec envVal hmem
    exact (reads_iff (hkeys _ _ _ hmem)).mp (hread _ _ _ hmem) envVal
  · intro hparse sec key spec hmem
    refine (reads_iff (hkeys _ _ _ hmem)).mpr fun envVal henv => ?_
    cases sec with
    | ClusterInvariant => cases henv
    | NodeLocal => exact hparse key spec envVal hmem henv

end Config

/-- A node that needs a port, and takes it from its environment. -/
def portConfig (envVal : String) : Config Int where
  data := .object []
  getenv := fun name => if name = "NIMBUS_NODE_PORT".toList then some envVal.toList else none

def portSchema : ConfigSchema := ConfigSchema.requireNodeLocal {} "port".toList .Int64

/-- Doubles that are never asked for. -/
def noDoubles : FloatLib Int := ⟨fun _ => none, id⟩

theorem readable_iff_port :
    (portConfig "8080").validate portSchema = .ok () ∧
      (portConfig "8080").Readable noDoubles portSchema := by
  have hvalid : (portConfig "8080").validate portSchema = .ok () := rfl
  refine ⟨hvalid, (Config.readable_iff _ noDoubles _ hvalid).mpr fun key spec envVal hmem henv => ?_⟩
  cases List.mem_singleton.mp hmem
  cases henv
  rfl

/-- The port `abc` is validated, and then it cannot be read. -/
theorem not_readable_port :
    (portConfig "abc").validate portSchema = .ok () ∧
      ¬ (portConfig "abc").Readable noDoubles portSchema := by
  refine ⟨rfl, fun h => ?_⟩
  rcases h .NodeLocal "port".toList ⟨.Int64, true⟩ (List.mem_singleton.mpr rfl) with hread | ⟨hopt, _⟩
  · exact absurd hread (by decide)
  · cases hopt

end NimbusFs.Common
