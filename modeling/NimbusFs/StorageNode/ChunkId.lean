import NimbusFs.Common.Sha256

/-! # Chunk identifiers

`ChunkId` pairs a digest with its text. Both constructors of the class
(`Parse`, `FromDigest`) keep the two in step, so the pair carries that fact: a
path made from the text and a hash check against the digest speak of one id. -/
namespace NimbusFs.StorageNode

open NimbusFs.Common

/-- A digest and its 64 lower-case hexadecimal digits. -/
structure ChunkId where
  digest : Digest
  hex : List Char
  hex_eq : hex = toHexString digest
deriving DecidableEq

inductive ParseError
  | WrongLength
  | InvalidHexCharacter
  | NotLowercase
deriving DecidableEq

namespace ChunkId

/-- The loop over the characters in `ChunkId::Parse`. -/
def checkCharacters : List Char → Option ParseError
  | [] => none
  | c :: rest =>
    if !isXDigit c then some .InvalidHexCharacter
    else if isUpper c then some .NotLowercase
    else checkCharacters rest

theorem isUpper_of_capital {c : Char} (h : c ∈ ['A', 'B', 'C', 'D', 'E', 'F']) :
    isUpper c = true := by
  have hall : (['A', 'B', 'C', 'D', 'E', 'F'].all isUpper) = true := by decide
  exact List.all_eq_true.mp hall c h

theorem isXDigit_of_lower {c : Char} (h : c ∈ lowerHexDigits) :
    isXDigit c = true ∧ isUpper c = false := by
  have hall : (lowerHexDigits.all fun c => isXDigit c && !isUpper c) = true := by decide
  simpa using List.all_eq_true.mp hall c h

theorem mem_lowerHexDigits {c : Char} (hx : isXDigit c = true) (hu : isUpper c = false) :
    c ∈ lowerHexDigits := by
  rcases isXDigit_iff.mp hx with h | h
  · exact h
  · rw [isUpper_of_capital h] at hu
    cases hu

theorem lowercase_of_checkCharacters {s : List Char} (h : checkCharacters s = none) :
    ∀ c ∈ s, c ∈ lowerHexDigits := by
  induction s with
  | nil => simp
  | cons c rest ih =>
    simp only [checkCharacters] at h
    split at h
    · cases h
    · split at h
      · cases h
      · rename_i hx hu
        intro d hd
        rcases List.mem_cons.mp hd with rfl | hd
        · exact mem_lowerHexDigits (by simpa using hx) (by simpa using hu)
        · exact ih h d hd

/-- `ChunkId::Parse`. -/
def parse (hexString : List Char) : Except ParseError ChunkId :=
  if hexString.length ≠ 64 then .error .WrongLength
  else match hc : checkCharacters hexString with
    | some e => .error e
    | none => match hd : fromHexString hexString with
      | .error _ => .error .InvalidHexCharacter
      | .ok d => .ok ⟨d, hexString,
          (toHexString_of_fromHexString (lowercase_of_checkCharacters hc) hd).symm⟩

/-- `ChunkId::FromDigest`. -/
def fromDigest (d : Digest) : ChunkId := ⟨d, toHexString d, rfl⟩

/-- The id of the empty chunk. -/
def ofEmpty : ChunkId := fromDigest emptyDigest

/-- The id of the chunk `abc`. -/
def ofAbc : ChunkId := fromDigest abcDigest

/-- `ChunkId::Hash`: the first `sizeof(size_t)` bytes, the first one highest. -/
def hash (id : ChunkId) : UInt64 :=
  (id.digest.bytes.take 8).foldl (fun h b => (h <<< 8) ||| b.toUInt64) 0

theorem ext_digest {a b : ChunkId} (h : a.digest = b.digest) : a = b := by
  obtain ⟨d, hex, he⟩ := a
  obtain ⟨d', hex', he'⟩ := b
  obtain rfl : d = d' := h
  subst he he'
  rfl

theorem ext_hex {a b : ChunkId} (h : a.hex = b.hex) : a = b := by
  apply ext_digest
  apply toHexString_injective
  rw [← a.hex_eq, ← b.hex_eq, h]

theorem hex_length (id : ChunkId) : id.hex.length = 64 := by
  rw [id.hex_eq, toHexString_length]

theorem mem_lowerHexDigits_of_hexByte (b : UInt8) : ∀ c ∈ hexByte b, c ∈ lowerHexDigits := by
  have hall : ∀ n < 256, ((hexByte (UInt8.ofNat n)).all lowerHexDigits.contains) = true := by
    decide +kernel
  simpa using hall b.toNat b.toNat_lt

theorem hex_lowercase (id : ChunkId) : ∀ c ∈ id.hex, c ∈ lowerHexDigits := by
  rw [id.hex_eq]
  intro c hc
  obtain ⟨b, _, hb⟩ := List.mem_flatMap.mp hc
  exact mem_lowerHexDigits_of_hexByte b c hb

theorem checkCharacters_of_lowercase {s : List Char} (h : ∀ c ∈ s, c ∈ lowerHexDigits) :
    checkCharacters s = none := by
  induction s with
  | nil => rfl
  | cons c rest ih =>
    obtain ⟨hx, hu⟩ := isXDigit_of_lower (h c (by simp))
    simp only [checkCharacters, hx, hu, Bool.not_true, Bool.false_eq_true, if_false]
    exact ih fun d hd => h d (by simp [hd])

/-- The text of an id parses back to it. -/
theorem parse_hex (id : ChunkId) : parse id.hex = .ok id := by
  have hd : fromHexString id.hex = .ok id.digest := by
    rw [id.hex_eq]; exact fromHexString_toHexString id.digest
  have hc := checkCharacters_of_lowercase id.hex_lowercase
  unfold parse
  rw [if_neg (by simp [id.hex_length])]
  split
  · rename_i e he
    rw [hc] at he
    cases he
  · split
    · rename_i e he
      rw [hd] at he
      cases he
    · rename_i d hd'
      rw [hd] at hd'
      cases hd'
      rfl

/-- What parses has the text it was parsed from. -/
theorem hex_of_parse {s : List Char} {id : ChunkId} (h : parse s = .ok id) : id.hex = s := by
  unfold parse at h
  split at h
  · cases h
  · split at h
    · cases h
    · split at h
      · cases h
      · cases h; rfl

/-! ## Text and digest are one -/

/-- What is wrong with a character that is no lower-case digit. -/
def characterError (c : Char) : ParseError :=
  if c ∈ ['A', 'B', 'C', 'D', 'E', 'F'] then .NotLowercase else .InvalidHexCharacter

/-- The loop stops at the first character that is no lower-case digit. -/
theorem checkCharacters_leftmost {before after : List Char} {c : Char}
    (hbefore : ∀ x ∈ before, x ∈ lowerHexDigits) (hc : c ∉ lowerHexDigits) :
    checkCharacters (before ++ c :: after) = some (characterError c) := by
  induction before with
  | nil =>
    by_cases hcap : c ∈ ['A', 'B', 'C', 'D', 'E', 'F']
    · have hx : isXDigit c = true := isXDigit_iff.mpr (.inr hcap)
      simp [checkCharacters, characterError, hx, isUpper_of_capital hcap, hcap]
    · have hx : isXDigit c = false := by
        rw [← Bool.not_eq_true, isXDigit_iff]
        exact not_or.mpr ⟨hc, hcap⟩
      simp [checkCharacters, characterError, hx, hcap]
  | cons x rest ih =>
    obtain ⟨hx, hu⟩ := isXDigit_of_lower (hbefore x (by simp))
    simp only [List.cons_append, checkCharacters, hx, hu, Bool.not_true, Bool.false_eq_true,
      if_false]
    exact ih fun y hy => hbefore y (by simp [hy])

theorem parse_ok_iff {s : List Char} :
    (∃ id, parse s = .ok id) ↔ s.length = 64 ∧ ∀ c ∈ s, c ∈ lowerHexDigits := by
  constructor
  · intro h
    obtain ⟨id, hid⟩ := h
    rw [← hex_of_parse hid]
    exact ⟨id.hex_length, id.hex_lowercase⟩
  · intro h
    obtain ⟨hlen, hlower⟩ := h
    obtain ⟨d, hd⟩ := fromHexString_of_digits hlen fun c hc => isXDigit_iff.mpr (.inl (hlower c hc))
    have hs : (fromDigest d).hex = s := toHexString_of_fromHexString hlower hd
    exact ⟨fromDigest d, hs ▸ parse_hex (fromDigest d)⟩

theorem parse_leftmost {before after : List Char} {c : Char}
    (hlen : (before ++ c :: after).length = 64) (hbefore : ∀ x ∈ before, x ∈ lowerHexDigits)
    (hc : c ∉ lowerHexDigits) : parse (before ++ c :: after) = .error (characterError c) := by
  have hcheck : checkCharacters (before ++ c :: after) = some (characterError c) :=
    checkCharacters_leftmost hbefore hc
  unfold parse
  rw [if_neg (not_not.mpr hlen)]
  split
  · rename_i e he
    rw [hcheck] at he
    cases he
    rfl
  · rename_i hnone
    rw [hcheck] at hnone
    cases hnone

/-- **Text and digest of an id are one.** `Parse` takes exactly the 64 lower-case
digits and keeps them; what it builds is what `FromDigest` builds from its digest,
and the other way round. So ids, digests and texts are equal together. A text of 64
characters is refused for the first one that is wrong. -/
theorem parse_exact :
    (∀ s, (∃ id, parse s = .ok id) ↔ s.length = 64 ∧ ∀ c ∈ s, c ∈ lowerHexDigits) ∧
    (∀ s id, parse s = .ok id → id.hex = s ∧ id = fromDigest id.digest) ∧
    (∀ d, parse (fromDigest d).hex = .ok (fromDigest d) ∧ (fromDigest d).digest = d) ∧
    (∀ a b : ChunkId, (a = b ↔ a.digest = b.digest) ∧ (a = b ↔ a.hex = b.hex)) ∧
    (∀ s, s.length ≠ 64 → parse s = .error .WrongLength) ∧
    ∀ before c after, (before ++ c :: after).length = 64 →
      (∀ x ∈ before, x ∈ lowerHexDigits) → c ∉ lowerHexDigits →
      parse (before ++ c :: after) = .error (characterError c) := by
  refine ⟨fun s => parse_ok_iff, fun s id h => ⟨hex_of_parse h, ext_digest rfl⟩,
    fun d => ⟨parse_hex _, rfl⟩, fun a b => ⟨⟨congrArg digest, ext_digest⟩, ⟨congrArg hex, ext_hex⟩⟩,
    fun s hlen => if_pos hlen, fun before c after hlen hbefore hc => ?_⟩
  exact parse_leftmost hlen hbefore hc

end ChunkId

end NimbusFs.StorageNode
