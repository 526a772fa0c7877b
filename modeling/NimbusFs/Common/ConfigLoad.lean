import NimbusFs.Common.Config
import NimbusFs.Lib.Prog

/-! # `LoadFromFile` and the environment

A process has an environment, a list of `NAME=value` entries. `LoadFromFile` refuses
to load anything if a name starts with `NIMBUS_CLUSTER_`; the getters ask for one
name each, and only for values local to a node. So the cluster invariants of a
file are the same in every environment in which it can be loaded. The name that is asked
for is that of a variable as long as the key has no `=` and no NUL: `getenv` takes a name
with an `=` for the start of an entry.

The parser is a parameter. It makes a document of a text, or throws: a
`parse_error`, which is caught, or another exception, which is not. -/
namespace NimbusFs.Common

open Lib

/-! ## The environment -/

/-- `environ`. -/
abbrev Environ := List Text

/-- The name of an entry: what is before its first `=`. -/
def entryName (entry : Text) : Text := entry.takeWhile (· ≠ '=')

/-- The value of an entry: what is after its first `=`. -/
def entryValue (entry : Text) : Text := (entry.dropWhile (· ≠ '=')).tail

/-- `std::getenv`: what follows in the first entry that starts with the name and an `=`. -/
def Environ.getenv (environ : Environ) (name : Text) : Option Text :=
  (environ.find? fun entry => (name ++ ['=']).isPrefixOf entry).map fun entry =>
    entry.drop (name.length + 1)

/-- The value of the variable of this name: what follows the first `=` in its first entry. -/
def Environ.variable (environ : Environ) (name : Text) : Option Text :=
  (environ.find? fun entry => entryName entry = name && entry.contains '=').map entryValue

/-- `HasClusterInvariantEnvOverrides`: `env_var.find("NIMBUS_CLUSTER_") == 0`. -/
def hasClusterInvariantEnvOverrides (environ : Environ) : Bool :=
  environ.any fun entry => "NIMBUS_CLUSTER_".toList.isPrefixOf entry

/-- A text without `=` starts an entry exactly when it starts its name. -/
theorem isPrefixOf_iff_entryName {p entry : Text} (hp : '=' ∉ p) :
    p.isPrefixOf entry = true ↔ p <+: entryName entry := by
  rw [List.isPrefixOf_iff_prefix]
  constructor
  · rintro ⟨rest, rfl⟩
    refine ⟨entryName rest, ?_⟩
    have hall : ∀ c ∈ p, decide (c ≠ '=') = true := fun c hc =>
      decide_eq_true fun he => hp (he ▸ hc)
    rw [entryName, entryName, List.takeWhile_append_of_pos hall]
  · intro h
    exact h.trans <| List.takeWhile_prefix _

theorem entry_split {entry : Text} (h : '=' ∈ entry) :
    entry = entryName entry ++ '=' :: entryValue entry := by
  induction entry with
  | nil => cases h
  | cons c rest ih =>
    by_cases hc : c = '='
    · simp [entryName, entryValue, hc]
    · have hrest : '=' ∈ rest := by
        rcases List.mem_cons.mp h with heq | hrest
        · exact absurd heq.symm hc
        · exact hrest
      have hcons := congrArg (c :: ·) (ih hrest)
      simpa [entryName, entryValue, hc] using hcons

/-- An entry that starts with a name without `=`, and then an `=`, is of that name. -/
theorem isPrefixOf_snoc_iff {name entry : Text} (hname : '=' ∉ name) :
    (name ++ ['=']).isPrefixOf entry = true ↔ entryName entry = name ∧ '=' ∈ entry := by
  rw [List.isPrefixOf_iff_prefix]
  constructor
  · rintro ⟨rest, rfl⟩
    have hall : ∀ c ∈ name, decide (c ≠ '=') = true := fun c hc =>
      decide_eq_true fun he => hname (he ▸ hc)
    refine ⟨?_, by simp⟩
    rw [entryName, List.append_assoc, List.takeWhile_append_of_pos hall]
    simp
  · rintro ⟨rfl, heq⟩
    exact ⟨entryValue entry, by rw [List.append_assoc, List.singleton_append, ← entry_split heq]⟩

/-- Without an `=` in the name, `getenv` gives the value of the variable. -/
theorem getenv_eq_variable {environ : Environ} {name : Text} (hname : '=' ∉ name) :
    environ.getenv name = environ.variable name := by
  have hfind : (fun entry : Text => (name ++ ['=']).isPrefixOf entry) =
      fun entry => entryName entry = name && entry.contains '=' := by
    funext entry
    rw [Bool.eq_iff_iff, isPrefixOf_snoc_iff hname]
    simp
  rw [Environ.getenv, Environ.variable, hfind]
  cases hentry : environ.find? fun entry => entryName entry = name && entry.contains '=' with
  | none => rfl
  | some entry =>
    obtain ⟨rfl, heq⟩ : entryName entry = name ∧ '=' ∈ entry := by
      simpa using List.find?_some hentry
    have hdrop : entry.drop ((entryName entry).length + 1) = entryValue entry := by
      have hsplit := congrArg (List.drop ((entryName entry).length + 1)) (entry_split heq)
      rw [hsplit, ← List.drop_drop, List.drop_append_length]
      rfl
    rw [Option.map_some, hdrop]
    rfl

theorem hasClusterInvariantEnvOverrides_iff {environ : Environ} :
    hasClusterInvariantEnvOverrides environ = true ↔
      ∃ entry ∈ environ, "NIMBUS_CLUSTER_".toList <+: entryName entry := by
  have hp : '=' ∉ "NIMBUS_CLUSTER_".toList := by decide
  simp only [hasClusterInvariantEnvOverrides, List.any_eq_true, isPrefixOf_iff_entryName hp]

/-! ## Loading a file -/

variable {Double : Type}

/-- How `nlohmann::json::parse` ends. -/
inductive JsonParse (Double : Type)
  | value (document : Json Double)
  | parseError (what : Text)
  | otherException (what : Text)

/-- What is asked of the file system: a stream on a path. -/
inductive FileCall
  | ifstream (path : Text)

/-- The contents, if the stream is open. -/
abbrev FileCall.Answer (_ : FileCall) : Type := Option Text

/-- How `LoadFromFile` ends. -/
inductive LoadOutcome (Double : Type)
  | returned (result : Except ConfigError (Config Double))
  | threw (what : Text)

namespace Config

/-- The error about the environment. -/
def envOverrideError : ConfigError where
  code := .ClusterInvariantEnvOverrideAttempted
  message :=
    "Attempted to override a cluster invariant configuration via environment variables".toList

/-- The `try` block around the parser. -/
def parsed (environ : Environ) : JsonParse Double → LoadOutcome Double
  | .value document => .returned (.ok ⟨document, environ.getenv⟩)
  | .parseError what => .returned (.error
      { code := .MalformedJson, message := "Malformed JSON: ".toList ++ what })
  | .otherException what => .threw what

def loadFromFile (parse : Text → JsonParse Double) (environ : Environ) (path : Text) :
    Prog Empty FileCall FileCall.Answer (LoadOutcome Double) :=
  -- the environment comes first: there is no call on this branch
  if hasClusterInvariantEnvOverrides environ then .ret (.returned (.error envOverrideError))
  else .call (.ifstream path) fun
    | none => .ret (.returned (.error
        { code := .FileNotFound, message := "Configuration file not found: ".toList ++ path }))
    | some contents => .ret (parsed environ (parse contents))

/-- `LoadFromFile` where the path leads to `file`, or to nothing. -/
def load (parse : Text → JsonParse Double) (environ : Environ) (path : Text)
    (file : Option Text) : LoadOutcome Double :=
  ((loadFromFile parse environ path).run (fun _ file => (file, file)) file).1

/-- The same configuration, asked when the environment is another one. -/
def inEnvironment (config : Config Double) (environ : Environ) : Config Double :=
  { config with getenv := environ.getenv }

/-! ### The getters with a default -/

def orDefault {α : Type} (res : Except ConfigError α) (defaultValue : α) : α :=
  match res with
  | .ok value => value
  | .error _ => defaultValue

variable (config : Config Double) (lib : FloatLib Double)

def getStringOr (sec : ConfigSection) (path defaultValue : Text) : Text :=
  orDefault (config.getString sec path) defaultValue

def getInt64Or (sec : ConfigSection) (path : Text) (defaultValue : Int) : Int :=
  orDefault (config.getInt64 sec path) defaultValue

def getDoubleOr (sec : ConfigSection) (path : Text) (defaultValue : Double) : Double :=
  orDefault (config.getDouble lib sec path) defaultValue

def getBoolOr (sec : ConfigSection) (path : Text) (defaultValue : Bool) : Bool :=
  orDefault (config.getBool sec path) defaultValue

/-! ## What the environment decides -/

/-- The eight getters say the same of a key. -/
def SameGetters (lib : FloatLib Double) (a b : Config Double) (sec : ConfigSection)
    (key : Text) : Prop :=
  a.getString sec key = b.getString sec key ∧
  a.getInt64 sec key = b.getInt64 sec key ∧
  a.getDouble lib sec key = b.getDouble lib sec key ∧
  a.getBool sec key = b.getBool sec key ∧
  (∀ d, a.getStringOr sec key d = b.getStringOr sec key d) ∧
  (∀ d, a.getInt64Or sec key d = b.getInt64Or sec key d) ∧
  (∀ d, a.getDoubleOr lib sec key d = b.getDoubleOr lib sec key d) ∧
  ∀ d, a.getBoolOr sec key d = b.getBoolOr sec key d

variable {lib} {a b : Config Double} {sec : ConfigSection} {key : Text}

/-- A getter sees the document and the override of its key, and nothing else. -/
theorem getValue_congr {α : Type} (hdata : a.data = b.data)
    (henv : a.getEnvOverride sec key = b.getEnvOverride sec key) (parse : Text → Option α)
    (unparsed : String) (accepts : Json Double → Bool) (mismatch : String)
    (read : Json Double → α) :
    a.getValue sec key parse unparsed accepts mismatch read =
      b.getValue sec key parse unparsed accepts mismatch read := by
  simp only [getValue, find, hdata, henv]

theorem sameGetters (hdata : a.data = b.data)
    (henv : a.getEnvOverride sec key = b.getEnvOverride sec key) : SameGetters lib a b sec key := by
  have hstring : a.getString sec key = b.getString sec key := getValue_congr hdata henv _ _ _ _ _
  have hint64 : a.getInt64 sec key = b.getInt64 sec key := getValue_congr hdata henv _ _ _ _ _
  have hdouble : a.getDouble lib sec key = b.getDouble lib sec key :=
    getValue_congr hdata henv _ _ _ _ _
  have hbool : a.getBool sec key = b.getBool sec key := getValue_congr hdata henv _ _ _ _ _
  refine ⟨hstring, hint64, hdouble, hbool, fun d => ?_, fun d => ?_, fun d => ?_, fun d => ?_⟩
  · rw [getStringOr, getStringOr, hstring]
  · rw [getInt64Or, getInt64Or, hint64]
  · rw [getDoubleOr, getDoubleOr, hdouble]
  · rw [getBoolOr, getBoolOr, hbool]

/-- A schema of cluster invariants is validated by the document alone. -/
theorem validate_congr (hdata : a.data = b.data) (schema : ConfigSchema)
    (hschema : schema.specs .NodeLocal = []) : a.validate schema = b.validate schema := by
  have hkey : ∀ key spec, a.validateKey .ClusterInvariant key spec =
      b.validateKey .ClusterInvariant key spec := by
    intro key spec
    simp only [validateKey, getEnvOverride, find, hdata]
  simp only [validate, validateSection, hschema, hkey, List.flatMap_nil]

/-- `LoadFromFile` fails for the environment, for the file or for its contents. -/
theorem load_cases (parse : Text → JsonParse Double) (environ : Environ) (path : Text)
    (file : Option Text) :
    (hasClusterInvariantEnvOverrides environ = true ∧
      load parse environ path file = .returned (.error envOverrideError)) ∨
    (hasClusterInvariantEnvOverrides environ = false ∧ file = none ∧
      load parse environ path file = .returned (.error
        { code := .FileNotFound, message := "Configuration file not found: ".toList ++ path })) ∨
    ∃ contents, hasClusterInvariantEnvOverrides environ = false ∧ file = some contents ∧
      load parse environ path file = parsed environ (parse contents) := by
  unfold load loadFromFile
  cases hasClusterInvariantEnvOverrides environ with
  | true => exact .inl ⟨rfl, rfl⟩
  | false =>
    cases file with
    | none => exact .inr (.inl ⟨rfl, rfl, rfl⟩)
    | some contents => exact .inr (.inr ⟨contents, rfl, rfl, rfl⟩)

/-- What is loaded is the document that the file holds. -/
theorem load_eq_ok {parse : Text → JsonParse Double} {environ : Environ} {path : Text}
    {file : Option Text} {config : Config Double}
    (h : load parse environ path file = .returned (.ok config)) :
    ∃ contents, file = some contents ∧ parse contents = .value config.data := by
  rcases load_cases parse environ path file with ⟨-, hload⟩ | ⟨-, -, hload⟩ |
    ⟨contents, -, hfile, hload⟩
  · rw [hload] at h
    cases h
  · rw [hload] at h
    cases h
  · refine ⟨contents, hfile, ?_⟩
    rw [hload] at h
    cases hparse : parse contents with
    | value document =>
      rw [hparse] at h
      cases h
      rfl
    | parseError what =>
      rw [hparse] at h
      cases h
    | otherException what =>
      rw [hparse] at h
      cases h

/-- Only the environment gives the error about it. -/
theorem load_error_code {parse : Text → JsonParse Double} {environ : Environ} {path : Text}
    {file : Option Text} {err : ConfigError}
    (h : load parse environ path file = .returned (.error err))
    (hcode : err.code = .ClusterInvariantEnvOverrideAttempted) :
    hasClusterInvariantEnvOverrides environ = true := by
  rcases load_cases parse environ path file with ⟨hhas, -⟩ | ⟨-, -, hload⟩ |
    ⟨contents, -, -, hload⟩
  · exact hhas
  · rw [hload] at h
    cases h
    cases hcode
  · rw [hload] at h
    cases hparse : parse contents with
    | value document =>
      rw [hparse] at h
      cases h
    | parseError what =>
      rw [hparse] at h
      cases h
      cases hcode
    | otherException what =>
      rw [hparse] at h
      cases h

/-- Two environments in which a file can be loaded make the same document of it. -/
theorem load_same_data {parse : Text → JsonParse Double} {environ₁ environ₂ : Environ} {path : Text}
    {file : Option Text} {c₁ c₂ : Config Double}
    (h₁ : load parse environ₁ path file = .returned (.ok c₁))
    (h₂ : load parse environ₂ path file = .returned (.ok c₂)) : c₁.data = c₂.data := by
  obtain ⟨contents, rfl, hparse₁⟩ := load_eq_ok h₁
  obtain ⟨contents', hfile, hparse₂⟩ := load_eq_ok h₂
  cases hfile
  rw [hparse₁] at hparse₂
  exact JsonParse.value.inj hparse₂

/-- The environment is refused before the file is asked for. -/
theorem loadFromFile_override_iff {parse : Text → JsonParse Double} {environ : Environ}
    {path : Text} : hasClusterInvariantEnvOverrides environ = true ↔
      loadFromFile parse environ path = .ret (.returned (.error envOverrideError)) := by
  constructor
  · intro h
    rw [loadFromFile, if_pos h]
  · intro h
    unfold loadFromFile at h
    split at h
    · assumption
    · cases h

theorem load_override_iff {parse : Text → JsonParse Double} {environ : Environ} {path : Text}
    {file : Option Text} : hasClusterInvariantEnvOverrides environ = true ↔
      ∃ err, load parse environ path file = .returned (.error err) ∧
        err.code = .ClusterInvariantEnvOverrideAttempted := by
  constructor
  · intro h
    refine ⟨envOverrideError, ?_, rfl⟩
    rw [load, loadFromFile_override_iff.mp h]
    rfl
  · rintro ⟨err, hload, hcode⟩
    exact load_error_code hload hcode

/-- Only a letter becomes a letter. -/
theorem eq_of_toUpper {x c : Char} (h : x.toUpper = c) (hc : c.toNat < 65) : x = c := by
  unfold Char.toUpper at h
  split at h
  · rename_i hlower
    obtain ⟨hlo, hhi⟩ : 97 ≤ x.val.toNat ∧ x.val.toNat ≤ 122 := hlower
    subst h
    simp only [Char.toNat] at hc
    have hval : (x.val + ('A'.val - 'a'.val)).toNat = x.val.toNat - 32 := by
      rw [UInt32.toNat_add, show ('A'.val - 'a'.val).toNat = 2 ^ 32 - 32 by rfl]
      omega
    omega
  · exact h

/-- The characters of the name that is asked for are those of the key, but for their case
and the dots. -/
theorem notMem_variableName {c : Char} {key : Text} (hpart : c ∉ "NIMBUS_NODE_".toList)
    (hc : c.toNat < 65) (h : c ∉ key) :
    c ∉ "NIMBUS_NODE_".toList ++ toUpperAndUnderscore key := by
  intro hmem
  rcases List.mem_append.mp hmem with hmem | hmem
  · exact hpart hmem
  · obtain ⟨x, hx, hxc⟩ := List.mem_map.mp hmem
    have hxc' := eq_of_toUpper hxc hc
    split at hxc'
    · exact hpart (hxc' ▸ by decide)
    · exact h (hxc' ▸ hx)

/-- **Cluster invariants do not depend on the environment.** A file that is loaded in
two environments has the same ones, by every getter and for `Validate`, whatever the
environments are when they are asked. A variable that starts with `NIMBUS_CLUSTER_`,
and nothing else, makes `LoadFromFile` fail for it, before it makes a call for the
file. A getter of a value local to a node depends on one variable, named after its key, if
there is no `=` and no NUL in the key. -/
theorem cluster_invariants_independent (parse : Text → JsonParse Double) (lib : FloatLib Double) :
    (∀ path file environ₁ environ₂ c₁ c₂,
      load parse environ₁ path file = .returned (.ok c₁) →
      load parse environ₂ path file = .returned (.ok c₂) → ∀ now₁ now₂ : Environ,
      (∀ key, SameGetters lib (c₁.inEnvironment now₁) (c₂.inEnvironment now₂)
        .ClusterInvariant key) ∧
      ∀ schema : ConfigSchema, schema.specs .NodeLocal = [] →
        (c₁.inEnvironment now₁).validate schema = (c₂.inEnvironment now₂).validate schema) ∧
    (∀ environ path, (∃ entry ∈ environ, "NIMBUS_CLUSTER_".toList <+: entryName entry) ↔
      loadFromFile parse environ path = .ret (.returned (.error envOverrideError))) ∧
    (∀ environ path file, (∃ entry ∈ environ, "NIMBUS_CLUSTER_".toList <+: entryName entry) ↔
      ∃ err, load parse environ path file = .returned (.error err) ∧
        err.code = .ClusterInvariantEnvOverrideAttempted) ∧
    ∀ (config : Config Double) (key : Text) (environ₁ environ₂ : Environ), '=' ∉ key → '\x00' ∉ key →
      environ₁.variable ("NIMBUS_NODE_".toList ++ toUpperAndUnderscore key) =
        environ₂.variable ("NIMBUS_NODE_".toList ++ toUpperAndUnderscore key) →
      SameGetters lib (config.inEnvironment environ₁) (config.inEnvironment environ₂)
        .NodeLocal key := by
  refine ⟨?_, fun environ path => ?_, fun environ path file => ?_, ?_⟩
  · intro path file environ₁ environ₂ c₁ c₂ h₁ h₂ now₁ now₂
    have hdata := load_same_data h₁ h₂
    exact ⟨fun key => sameGetters hdata rfl, validate_congr hdata⟩
  · rw [← hasClusterInvariantEnvOverrides_iff]
    exact loadFromFile_override_iff
  · rw [← hasClusterInvariantEnvOverrides_iff]
    exact load_override_iff
  · intro config key environ₁ environ₂ hequals hnul h
    have hask : ∀ environ : Environ, (config.inEnvironment environ).getEnvOverride .NodeLocal key =
        environ.variable ("NIMBUS_NODE_".toList ++ toUpperAndUnderscore key) := by
      intro environ
      have hwhole : ("NIMBUS_NODE_".toList ++ toUpperAndUnderscore key).takeWhile (· ≠ '\x00') =
          "NIMBUS_NODE_".toList ++ toUpperAndUnderscore key :=
        List.takeWhile_eq_self_iff.mpr fun c hc =>
          decide_eq_true fun he => notMem_variableName (by decide) (by decide) hnul (he ▸ hc)
      show environ.getenv _ = _
      rw [hwhole, getenv_eq_variable (notMem_variableName (by decide) (by decide) hequals)]
    exact sameGetters rfl ((hask environ₁).trans (h.trans (hask environ₂).symm))

/-- Without the doubles, and with a node-local section of one key. -/
def keyWithEquals : Config Empty where
  data := .object [("node_local".toList, .object [("a=b".toList, .string "file".toList)])]
  getenv := fun _ => none

/-- A variable of another name is read for the key `a=b`: with and without
`NIMBUS_NODE_A` there is no variable called `NIMBUS_NODE_A=B`. -/
theorem getter_reads_other_variable :
    Environ.variable ["NIMBUS_NODE_A=B=5".toList]
        ("NIMBUS_NODE_".toList ++ toUpperAndUnderscore "a=b".toList) =
      Environ.variable [] ("NIMBUS_NODE_".toList ++ toUpperAndUnderscore "a=b".toList) ∧
    (keyWithEquals.inEnvironment ["NIMBUS_NODE_A=B=5".toList]).getString .NodeLocal "a=b".toList ≠
      (keyWithEquals.inEnvironment []).getString .NodeLocal "a=b".toList := by
  decide

end Config

end NimbusFs.Common
