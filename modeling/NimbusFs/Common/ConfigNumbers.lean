import NimbusFs.Common.Config

/-! # Integers in a configuration

`GetInt64` reads an integer from the document or from an override. The document
keeps large numbers as unsigned ones, and the conversion to a signed one turns
those of the upper half into negative numbers; `Validate` takes them too. From an
override `std::stoll` reads as far as there are digits, and nobody looks at the
rest. Both readings are exact everywhere else. -/
namespace NimbusFs.Common

/-! ## Integers of the document -/

namespace Json

variable {Double : Type}

/-- The integer that a value is. -/
def integerValue : Json Double → Option Int
  | .numberInteger i => some i
  | .numberUnsigned n => some n
  | _ => none

/-- How the parser keeps an integer literal: as an unsigned number if it has no
sign, as a signed one if it has, and as a double if it does not fit. -/
def StoresLiteral (value : Int) : Json Double → Prop
  | .numberUnsigned n => value = n ∧ n < 2 ^ 64
  | .numberInteger i => value = i ∧ -2 ^ 63 ≤ i ∧ i ≤ 0
  | .numberFloat _ => value < -2 ^ 63 ∨ 2 ^ 64 ≤ value
  | _ => False

end Json

namespace Config

variable {Double : Type} {config : Config Double} {sec : ConfigSection} {key : Text}

/-- An integer of the document is read as it is, and one that is no `int64_t` is an
error of `GetInt64` and of `Validate`. -/
def KeepsIntegers (config : Config Double) (sec : ConfigSection) (key : Text) : Prop :=
  (∀ v, config.getInt64 sec key = .ok v → (config.find sec key).bind Json.integerValue = some v) ∧
  ∀ jval value, config.find sec key = some jval → jval.StoresLiteral value →
    value < -2 ^ 63 ∨ 2 ^ 63 ≤ value →
    (∃ e, config.getInt64 sec key = .error e) ∧
      ∀ (schema : ConfigSchema) (spec : ConfigFieldSpec), (key, spec) ∈ schema.specs sec →
        spec.type = .Int64 → ∃ e, config.validate schema = .error e

/-- The conversion keeps the lower half of the numbers and no other. -/
theorem toInt64_eq_iff (n : Nat) : toInt64 n = n ↔ n < 2 ^ 63 := by
  unfold toInt64
  split <;> omega

/-- Without an override the document decides. -/
theorem getInt64_of_find {jval : Json Double} (henv : config.getEnvOverride sec key = none)
    (hfind : config.find sec key = some jval) :
    config.getInt64 sec key =
      match jval with
      | .numberInteger i => .ok i
      | .numberUnsigned n => .ok (toInt64 n)
      | _ => .error { code := .TypeMismatch, message := "Type mismatch, expected int64".toList } := by
  simp only [getInt64, getValue, henv, hfind]
  cases jval <;> rfl

/-- An error about one key is an error of the document. -/
theorem validate_error_of_key {schema : ConfigSchema} {spec : ConfigFieldSpec}
    (hmem : (key, spec) ∈ schema.specs sec) (h : config.validateKey sec key spec ≠ []) :
    ∃ e, config.validate schema = .error e := by
  cases hval : config.validate schema with
  | error e => exact ⟨e, rfl⟩
  | ok u => exact absurd (validate_eq_ok.mp hval sec key spec hmem) h

/-- **An integer of the document is never altered** but when it is unsigned and in
the upper half of 64 bits: then it is read as a negative number. -/
theorem keepsIntegers_iff (config : Config Double) (sec : ConfigSection) (key : Text)
    (henv : config.getEnvOverride sec key = none) :
    config.KeepsIntegers sec key ↔
      ∀ n, config.find sec key = some (.numberUnsigned n) → n < 2 ^ 63 := by
  constructor
  · intro h n hfind
    have hread := h.1 (toInt64 n) (getInt64_of_find henv hfind)
    rw [hfind] at hread
    exact (toInt64_eq_iff n).mp (Option.some.inj hread).symm
  · intro h
    refine ⟨fun v hv => ?_, fun jval value hfind hstores hrange => ?_⟩
    · cases hfind : config.find sec key with
      | none =>
        simp only [getInt64, getValue, henv, hfind] at hv
        cases hv
      | some jval =>
        rw [getInt64_of_find henv hfind] at hv
        cases jval with
        | numberInteger i =>
          cases hv
          rfl
        | numberUnsigned n =>
          cases hv
          exact congrArg some ((toInt64_eq_iff n).mpr (h n hfind)).symm
        | _ => cases hv
    · cases jval with
      | numberUnsigned n =>
        have hn := h n hfind
        obtain ⟨rfl, -⟩ := hstores
        omega
      | numberInteger i =>
        obtain ⟨rfl, hlow, hhigh⟩ := hstores
        omega
      | numberFloat x =>
        refine ⟨⟨_, getInt64_of_find henv hfind⟩, fun schema spec hmem htype => ?_⟩
        refine validate_error_of_key hmem ?_
        simp [validateKey, henv, hfind, htype, checkType, Json.isNumberInteger]
      | _ => exact hstores.elim

end Config

/-- A document whose cluster invariants limit something, without overrides. -/
def limitConfig (limit : Nat) : Config Int where
  data := .object [("cluster_invariant".toList, .object [("limit".toList, .numberUnsigned limit)])]
  getenv := fun _ => none

def limitSchema : ConfigSchema := ConfigSchema.requireClusterInvariant {} "limit".toList .Int64

theorem keepsIntegers_iff_limit :
    (limitConfig 4096).KeepsIntegers .ClusterInvariant "limit".toList := by
  refine (Config.keepsIntegers_iff _ _ _ rfl).mpr fun n hfind => ?_
  cases hfind
  omega

/-- The limit `9223372036854775808` is validated, and read as a negative number. -/
theorem not_keepsIntegers_limit :
    ¬ (limitConfig (2 ^ 63)).KeepsIntegers .ClusterInvariant "limit".toList ∧
    (limitConfig (2 ^ 63)).validate limitSchema = .ok () ∧
    (limitConfig (2 ^ 63)).getInt64 .ClusterInvariant "limit".toList =
      .ok (-9223372036854775808) := by
  have hread : (limitConfig (2 ^ 63)).getInt64 .ClusterInvariant "limit".toList =
      .ok (-9223372036854775808) := rfl
  refine ⟨fun h => ?_, rfl, hread⟩
  exact absurd (h.1 _ hread) (by decide)

/-! ## Integers of an override -/

/-- The number that a sign and decimal digits spell. -/
def decimalValue (minus : Bool) (digits : Text) : Int :=
  let magnitude : Int := digits.foldl (fun v c => v * 10 + (c.toNat - 48 : Nat)) 0
  if minus then -magnitude else magnitude

/-- Blanks, perhaps a sign, and digits: an integer that is an `int64_t`. -/
def IntLiteral (text : Text) (value : Int) : Prop :=
  ∃ blanks sign digits : Text, text = blanks ++ (sign ++ digits) ∧
    (∀ c ∈ blanks, isSpace c = true) ∧ (sign = [] ∨ sign = ['+'] ∨ sign = ['-']) ∧
    digits ≠ [] ∧ (∀ c ∈ digits, c.isDigit = true) ∧
    value = decimalValue (sign = ['-']) digits ∧
    -2 ^ 63 ≤ value ∧ value < 2 ^ 63

/-- The text does not go on with a digit. -/
def NoDigitNext (rest : Text) : Prop := ∀ c ∈ rest.head?, c.isDigit = false

/-- What `std::stoll` does not look at. -/
def stollRest (s : Text) : Text := (takeSign (s.dropWhile isSpace)).2.2.dropWhile Char.isDigit

/-- A stretch of characters of one kind is cut off where the kind changes. -/
theorem span_exact {p : Char → Bool} {body rest : Text} (hbody : ∀ c ∈ body, p c = true)
    (hrest : ∀ c ∈ rest.head?, p c = false) :
    (body ++ rest).takeWhile p = body ∧ (body ++ rest).dropWhile p = rest := by
  rw [List.takeWhile_append_of_pos hbody, List.dropWhile_append_of_pos hbody]
  cases rest with
  | nil => simp
  | cons c rest =>
    have hc : p c = false := hrest c rfl
    simp [hc]

/-- A sign is taken, and nothing is taken for one that is none. -/
theorem takeSign_append {sign rest : Text} (hsign : sign = [] ∨ sign = ['+'] ∨ sign = ['-'])
    (hrest : ∀ c ∈ rest.head?, c ≠ '+' ∧ c ≠ '-') :
    takeSign (sign ++ rest) = (decide (sign = ['-']), sign.length, rest) := by
  rcases hsign with rfl | rfl | rfl
  · cases rest with
    | nil => rfl
    | cons c rest =>
      obtain ⟨hp, hm⟩ := hrest c rfl
      exact takeSign_other hp hm rest
  · rfl
  · rfl

theorem takeSign_spec (s : Text) : ∃ sign, (sign = [] ∨ sign = ['+'] ∨ sign = ['-']) ∧
    s = sign ++ (takeSign s).2.2 ∧ (takeSign s).1 = decide (sign = ['-']) := by
  unfold takeSign
  split
  · exact ⟨['+'], by simp, rfl, rfl⟩
  · exact ⟨['-'], by simp, rfl, rfl⟩
  · exact ⟨[], by simp, rfl, rfl⟩

/-- A digit is neither a blank nor a sign. -/
theorem isDigit_facts {c : Char} (h : c.isDigit = true) :
    isSpace c = false ∧ c ≠ '+' ∧ c ≠ '-' := by
  have hall : ([' ', '\t', '\n', Char.ofNat 11, Char.ofNat 12, '\r'].all (!·.isDigit)) = true := by
    decide
  refine ⟨?_, ?_, ?_⟩
  · rw [← Bool.not_eq_true]
    intro hspace
    have hno := List.all_eq_true.mp hall c (by simpa [isSpace] using hspace)
    simp [h] at hno
  · rintro rfl
    exact absurd h (by decide)
  · rintro rfl
    exact absurd h (by decide)

/-- `std::stoll` after the blanks and the sign. -/
theorem stoll_scan {s s₁ : Text} {minus : Bool} {signLen : Nat}
    (h : takeSign (s.dropWhile isSpace) = (minus, signLen, s₁)) :
    stoll s = if s₁.takeWhile Char.isDigit = [] then none
      else if decimalValue minus (s₁.takeWhile Char.isDigit) < -2 ^ 63 ∨
        2 ^ 63 ≤ decimalValue minus (s₁.takeWhile Char.isDigit) then none
      else some (decimalValue minus (s₁.takeWhile Char.isDigit)) := by
  simp only [stoll, h, List.isEmpty_iff]
  rfl

/-- Of a literal followed by anything but a digit, `std::stoll` reads the literal. -/
theorem stoll_append {text rest : Text} {value : Int} (h : IntLiteral text value)
    (hrest : NoDigitNext rest) :
    stoll (text ++ rest) = some value ∧ stollRest (text ++ rest) = rest := by
  obtain ⟨blanks, sign, digits, rfl, hblanks, hsign, hne, hdigits, hvalue, hlow, hhigh⟩ := h
  obtain ⟨d, ds, rfl⟩ := List.exists_cons_of_ne_nil hne
  have hd := isDigit_facts (hdigits d (by simp))
  have hstart : ∀ c ∈ (sign ++ (d :: ds ++ rest)).head?, isSpace c = false := by
    rcases hsign with rfl | rfl | rfl
    · simpa using hd.1
    · simp [isSpace]
    · simp [isSpace]
  have hdrop : (blanks ++ (sign ++ d :: ds) ++ rest).dropWhile isSpace =
      sign ++ (d :: ds ++ rest) := by
    rw [List.append_assoc, List.append_assoc]
    exact (span_exact hblanks hstart).2
  have htake : takeSign (sign ++ (d :: ds ++ rest)) =
      (decide (sign = ['-']), sign.length, d :: ds ++ rest) :=
    takeSign_append hsign (by simpa using hd.2)
  obtain ⟨htakeWhile, hdropWhile⟩ := span_exact hdigits hrest
  constructor
  · rw [stoll_scan (hdrop ▸ htake), htakeWhile, ← hvalue, if_neg (by simp), if_neg (by omega)]
  · rw [stollRest, hdrop, htake, hdropWhile]

theorem noDigitNext_dropWhile (s : Text) : NoDigitNext (s.dropWhile Char.isDigit) := by
  intro c hc
  have hhead := List.head?_dropWhile_not Char.isDigit s
  rw [Option.mem_def.mp hc] at hhead
  exact hhead

/-- What `std::stoll` reads is a literal at the start of the text. -/
theorem stoll_eq_some {text : Text} {value : Int} (h : stoll text = some value) :
    ∃ literal rest, text = literal ++ rest ∧ IntLiteral literal value ∧ NoDigitNext rest := by
  obtain ⟨sign, hsign, hsplit, hminus⟩ := takeSign_spec (text.dropWhile isSpace)
  generalize hs₁ : (takeSign (text.dropWhile isSpace)).2.2 = s₁ at hsplit
  have htake : takeSign (text.dropWhile isSpace) = (decide (sign = ['-']), _, s₁) :=
    Prod.ext hminus (Prod.ext rfl hs₁)
  rw [stoll_scan htake] at h
  split at h
  · cases h
  rename_i hne
  split at h
  · cases h
  rename_i hrange
  cases h
  refine ⟨text.takeWhile isSpace ++ (sign ++ s₁.takeWhile Char.isDigit), s₁.dropWhile Char.isDigit,
    ?_, ⟨_, sign, _, rfl, fun c hc => List.mem_takeWhile_imp hc, hsign, hne,
      fun c hc => List.mem_takeWhile_imp hc, rfl, by omega, by omega⟩, noDigitNext_dropWhile s₁⟩
  rw [List.append_assoc, List.append_assoc, List.takeWhile_append_dropWhile, ← hsplit,
    List.takeWhile_append_dropWhile]

namespace Config

variable {Double : Type} {config : Config Double} {key e : Text}

/-- An override is read as a whole: what is read is the integer that it spells, and
anything that spells none is a mismatch. -/
def ParsesWhole (config : Config Double) (key e : Text) : Prop :=
  (∀ v, config.getInt64 .NodeLocal key = .ok v ↔ IntLiteral e v) ∧
  ((¬ ∃ v, IntLiteral e v) →
    ∃ err, config.getInt64 .NodeLocal key = .error err ∧ err.code = .TypeMismatch)

/-- An integer with something after it. -/
def TrailingCharacters (e : Text) : Prop :=
  ∃ literal rest v, e = literal ++ rest ∧ rest ≠ [] ∧ IntLiteral literal v ∧ NoDigitNext rest

theorem getInt64_of_override (henv : config.getEnvOverride .NodeLocal key = some e) :
    config.getInt64 .NodeLocal key =
      match stoll e with
      | some v => .ok v
      | none =>
        .error { code := .TypeMismatch, message := "Env var could not be parsed as int64".toList } := by
  simp only [getInt64, getValue, henv]
  cases stoll e <;> rfl

/-- An integer with something after it is read, and is none. -/
theorem not_parsesWhole (henv : config.getEnvOverride .NodeLocal key = some e)
    (h : TrailingCharacters e) : ¬ config.ParsesWhole key e := by
  intro hwhole
  obtain ⟨literal, rest, v, rfl, hne, hliteral, hrest⟩ := h
  obtain ⟨hstoll, hunread⟩ := stoll_append hliteral hrest
  have hread : config.getInt64 .NodeLocal key = .ok v := by
    rw [getInt64_of_override henv, hstoll]
  -- if the whole text were a literal, nothing of it would be left unread
  have hall := stoll_append ((hwhole.1 v).mp hread) (show NoDigitNext [] by simp [NoDigitNext])
  rw [List.append_nil, hunread] at hall
  exact hne hall.2

theorem stoll_eq_some_iff {v : Int} (h : ¬ TrailingCharacters e) :
    stoll e = some v ↔ IntLiteral e v := by
  constructor
  · intro hstoll
    obtain ⟨literal, rest, rfl, hliteral, hrest⟩ := stoll_eq_some hstoll
    by_cases hnil : rest = []
    · rwa [hnil, List.append_nil]
    · exact absurd ⟨literal, rest, v, rfl, hnil, hliteral, hrest⟩ h
  · intro hliteral
    have hstoll := (stoll_append hliteral (show NoDigitNext [] by simp [NoDigitNext])).1
    rwa [List.append_nil] at hstoll

/-- **An override is parsed as a whole** exactly when nothing stands after the
number: `std::stoll` does not mind, and `GetInt64` does not ask it where it stopped. -/
theorem parsesWhole_iff (config : Config Double) (key e : Text)
    (henv : config.getEnvOverride .NodeLocal key = some e) :
    config.ParsesWhole key e ↔ ¬ TrailingCharacters e := by
  constructor
  · exact fun hwhole h => not_parsesWhole henv h hwhole
  · intro h
    refine ⟨fun v => ?_, fun hno => ?_⟩
    · rw [← stoll_eq_some_iff h, getInt64_of_override henv]
      cases stoll e <;> simp
    · rw [getInt64_of_override henv]
      cases hstoll : stoll e with
      | none => exact ⟨_, rfl, rfl⟩
      | some v => exact absurd ⟨v, (stoll_eq_some_iff h).mp hstoll⟩ hno

end Config

theorem parsesWhole_iff_port : (portConfig "8080").ParsesWhole "port".toList "8080".toList := by
  refine (Config.parsesWhole_iff _ _ _ rfl).mpr ?_
  rintro ⟨literal, rest, v, happend, hne, -, hrest⟩
  obtain ⟨c, rest, rfl⟩ := List.exists_cons_of_ne_nil hne
  have hall : ("8080".toList.all Char.isDigit) = true := by decide
  have hdigit := List.all_eq_true.mp hall c (happend ▸ by simp)
  rw [hrest c rfl] at hdigit
  cases hdigit

/-- The port `80abc` is read as 80. -/
theorem not_parsesWhole_port :
    ¬ (portConfig "80abc").ParsesWhole "port".toList "80abc".toList ∧
      (portConfig "80abc").getInt64 .NodeLocal "port".toList = .ok 80 := by
  refine ⟨Config.not_parsesWhole rfl ?_, by rfl⟩
  refine ⟨"80".toList, "abc".toList, 80, rfl, by simp, ?_, by simp [NoDigitNext]⟩
  exact ⟨[], [], "80".toList, rfl, by simp, by simp, by simp, by simp, rfl, by omega, by omega⟩

end NimbusFs.Common
