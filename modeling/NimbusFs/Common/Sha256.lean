import Mathlib.Algebra.Group.Int.Defs
import Mathlib.Data.List.Basic
import Mathlib.Data.List.TakeWhile

/-! # Digests and their hexadecimal text

The hash itself is OpenSSL's; it is a parameter (`Bytes → Digest`) wherever it
is used. What is modelled here is the text of a digest: `Sha256::ToHexString`,
which goes through stream formatting, and `Sha256::FromHexString`, which hands
each pair of characters to `std::stoi`. -/
namespace NimbusFs.Common

/-- A `std::vector<std::byte>`, or the bytes of a `std::string` payload. -/
abbrev Bytes := List UInt8

/-- A `std::array<std::byte, 32>`. -/
structure Digest where
  bytes : Bytes
  size_eq : bytes.length = 32
deriving DecidableEq

/-- The known answer for the empty string. -/
def emptyDigest : Digest where
  bytes := [0xe3, 0xb0, 0xc4, 0x42, 0x98, 0xfc, 0x1c, 0x14, 0x9a, 0xfb, 0xf4, 0xc8, 0x99, 0x6f,
    0xb9, 0x24, 0x27, 0xae, 0x41, 0xe4, 0x64, 0x9b, 0x93, 0x4c, 0xa4, 0x95, 0x99, 0x1b, 0x78, 0x52,
    0xb8, 0x55]
  size_eq := rfl

/-- The known answer for `abc`. -/
def abcDigest : Digest where
  bytes := [0xba, 0x78, 0x16, 0xbf, 0x8f, 0x01, 0xcf, 0xea, 0x41, 0x41, 0x40, 0xde, 0x5d, 0xae,
    0x22, 0x23, 0xb0, 0x03, 0x61, 0xa3, 0x96, 0x17, 0x7a, 0x9c, 0xb4, 0x10, 0xff, 0x61, 0xf2, 0x00,
    0x15, 0xad]
  size_eq := rfl

/-- `abc`. -/
def abcBytes : Bytes := [0x61, 0x62, 0x63]

/-- A function with the known answers of SHA-256, to run the model on. -/
def knownSha256 (data : Bytes) : Digest :=
  if data = [] then emptyDigest
  else if data = abcBytes then abcDigest
  else ⟨List.replicate 32 0, rfl⟩

/-- No two of the strings in `known` have one digest. A hash of strings of every
length is not injective on all of them. -/
def CollisionFree (sha256 : Bytes → Digest) (known : Bytes → Prop) : Prop :=
  ∀ a b, known a → known b → sha256 a = sha256 b → a = b

/-! ## Characters (C locale) -/

/-- The digits `std::hex` prints. -/
def lowerHexDigits : List Char :=
  ['0', '1', '2', '3', '4', '5', '6', '7', '8', '9', 'a', 'b', 'c', 'd', 'e', 'f']

/-- `std::isxdigit`. -/
def isXDigit (c : Char) : Bool :=
  lowerHexDigits.contains c || ['A', 'B', 'C', 'D', 'E', 'F'].contains c

theorem isXDigit_iff {c : Char} :
    isXDigit c = true ↔ c ∈ lowerHexDigits ∨ c ∈ ['A', 'B', 'C', 'D', 'E', 'F'] := by
  simp only [isXDigit, Bool.or_eq_true, List.contains_iff_mem]

/-- The digits of either case. -/
def xDigits : List Char := lowerHexDigits ++ ['A', 'B', 'C', 'D', 'E', 'F']

theorem mem_xDigits {c : Char} (h : isXDigit c = true) : c ∈ xDigits :=
  List.mem_append.mpr (isXDigit_iff.mp h)

/-- `std::isupper`. -/
def isUpper (c : Char) : Bool := 'A' ≤ c && c ≤ 'Z'

/-- `std::isspace`: blank, tab, line feed, vertical tab, form feed, return. -/
def isSpace (c : Char) : Bool :=
  [' ', '\t', '\n', Char.ofNat 11, Char.ofNat 12, '\r'].contains c

/-- The value of a hexadecimal digit. -/
def xdigitValue (c : Char) : Nat :=
  if isUpper c then c.toNat - 55 else if c.toNat < 58 then c.toNat - 48 else c.toNat - 87

/-! ## `std::stoi(str, &pos, 16)` -/

/-- An optional sign: whether it is a minus, its length, and the rest. -/
def takeSign : List Char → Bool × Nat × List Char
  | '+' :: rest => (false, 1, rest)
  | '-' :: rest => (true, 1, rest)
  | rest => (false, 0, rest)

/-- An optional `0x` or `0X`, taken only when a digit follows. -/
def takePrefix16 : List Char → Nat × List Char
  | '0' :: x :: d :: rest =>
    if (x == 'x' || x == 'X') && isXDigit d then (2, d :: rest) else (0, '0' :: x :: d :: rest)
  | rest => (0, rest)

/-- The value and the number of characters used, or nothing where `std::stoi`
throws: no digits (`invalid_argument`) or not an `int` (`out_of_range`). -/
def stoi16 (s : List Char) : Option (Int × Nat) :=
  let blanks := s.takeWhile isSpace
  let (minus, signLen, s₁) := takeSign (s.drop blanks.length)
  let (prefixLen, s₂) := takePrefix16 s₁
  let digits := s₂.takeWhile isXDigit
  let magnitude : Int := digits.foldl (fun v c => v * 16 + xdigitValue c) 0
  let value := if minus then -magnitude else magnitude
  if digits.isEmpty then none
  else if value < -2 ^ 31 ∨ 2 ^ 31 ≤ value then none
  else some (value, blanks.length + signLen + prefixLen + digits.length)

/-! ## Text and digest -/

inductive HashError
  | InvalidHexLength
  | InvalidHexCharacter
deriving DecidableEq

/-- `oss << std::hex << std::setw(2) << std::setfill('0') << int(b)`. -/
def hexByte (b : UInt8) : List Char :=
  (Nat.toDigits 16 b.toNat).leftpad 2 '0'

/-- `Sha256::ToHexString`. -/
def toHexString (d : Digest) : List Char := d.bytes.flatMap hexByte

/-- One turn of the loop of `Sha256::FromHexString`. -/
def decodeByte (byteStr : List Char) : Except HashError UInt8 :=
  match stoi16 byteStr with
  | none => .error .InvalidHexCharacter
  | some (b, pos) =>
    if pos ≠ 2 then .error .InvalidHexCharacter else .ok (UInt8.ofNat (b % 256).toNat)

/-- The loop of `Sha256::FromHexString`, two characters a turn. -/
def decodeBytes : List Char → Except HashError Bytes
  | a :: b :: rest =>
    match decodeByte [a, b] with
    | .error e => .error e
    | .ok x => match decodeBytes rest with
      | .error e => .error e
      | .ok xs => .ok (x :: xs)
  | _ => .ok []

theorem decodeBytes_length : ∀ {s : List Char} {l : Bytes},
    decodeBytes s = .ok l → l.length = s.length / 2
  | [], _, h => by cases h; rfl
  | [_], _, h => by cases h; simp
  | a :: b :: rest, l, h => by
    simp only [decodeBytes] at h
    split at h
    · cases h
    · split at h
      · cases h
      · rename_i xs hxs
        cases h
        have := decodeBytes_length hxs
        simp only [List.length_cons]
        omega

/-- `Sha256::FromHexString`. -/
def fromHexString (hex : List Char) : Except HashError Digest :=
  if hlen : hex.length ≠ 64 then .error .InvalidHexLength
  else match h : decodeBytes hex with
    | .error e => .error e
    | .ok l => .ok ⟨l, by have := decodeBytes_length h; omega⟩

/-! ## Round trips -/

theorem decodeByte_hexByte (b : UInt8) : decodeByte (hexByte b) = .ok b := by
  have hall : ∀ n < 256, decodeByte (hexByte (UInt8.ofNat n)) = .ok (UInt8.ofNat n) := by
    decide +kernel
  simpa using hall b.toNat b.toNat_lt

theorem hexByte_length (b : UInt8) : (hexByte b).length = 2 := by
  have hall : ∀ n < 256, (hexByte (UInt8.ofNat n)).length = 2 := by decide +kernel
  simpa using hall b.toNat b.toNat_lt

theorem decodeBytes_hexBytes (l : Bytes) : decodeBytes (l.flatMap hexByte) = .ok l := by
  induction l with
  | nil => rfl
  | cons b rest ih =>
    obtain ⟨x, y, hxy⟩ := List.length_eq_two.mp (hexByte_length b)
    have hb := decodeByte_hexByte b
    rw [hxy] at hb
    simp only [List.flatMap_cons, hxy, List.cons_append, List.nil_append, decodeBytes, hb, ih]

theorem toHexString_length (d : Digest) : (toHexString d).length = 64 := by
  have : ∀ l : Bytes, (l.flatMap hexByte).length = 2 * l.length := by
    intro l
    induction l with
    | nil => rfl
    | cons b rest ih =>
      rw [List.flatMap_cons, List.length_append, hexByte_length, ih, List.length_cons]
      omega
  rw [toHexString, this, d.size_eq]

theorem fromHexString_toHexString (d : Digest) : fromHexString (toHexString d) = .ok d := by
  have hd : decodeBytes (toHexString d) = .ok d.bytes := decodeBytes_hexBytes d.bytes
  unfold fromHexString
  rw [dif_neg (by simp [toHexString_length d])]
  split
  · rename_i e he
    rw [hd] at he
    cases he
  · rename_i l hl
    rw [hd] at hl
    cases hl
    rfl

theorem toHexString_injective {d e : Digest} (h : toHexString d = toHexString e) : d = e := by
  have hd := fromHexString_toHexString d
  rw [h, fromHexString_toHexString e] at hd
  exact (Except.ok.inj hd).symm

/-- A pair of digits is the text of the byte it decodes to, but for its case. -/
theorem hexByte_of_decodeByte {a b : Char} {x : UInt8} (ha : isXDigit a = true)
    (hb : isXDigit b = true) (h : decodeByte [a, b] = .ok x) :
    hexByte x = [a.toLower, b.toLower] := by
  have hall : (xDigits.all fun a => xDigits.all fun b =>
      (decodeByte [a, b]).toOption.map hexByte == some [a.toLower, b.toLower]) = true := by
    decide +kernel
  have hab := List.all_eq_true.mp (List.all_eq_true.mp hall a (mem_xDigits ha)) b (mem_xDigits hb)
  rw [h] at hab
  exact Option.some.inj (eq_of_beq hab)

theorem hexBytes_of_decodeBytes : ∀ {s : List Char} {l : Bytes}, s.length % 2 = 0 →
    (∀ c ∈ s, isXDigit c = true) → decodeBytes s = .ok l → l.flatMap hexByte = s.map Char.toLower
  | [], _, _, _, h => by cases h; rfl
  | [_], _, hlen, _, _ => by simp at hlen
  | a :: b :: rest, l, hlen, hs, h => by
    simp only [decodeBytes] at h
    split at h
    · cases h
    · rename_i x hx
      split at h
      · cases h
      · rename_i xs hxs
        cases h
        have hrest : rest.length % 2 = 0 := by
          simp only [List.length_cons] at hlen
          omega
        rw [List.flatMap_cons, hexByte_of_decodeByte (hs a (by simp)) (hs b (by simp)) hx,
          hexBytes_of_decodeBytes hrest (fun c hc => hs c (by simp [hc])) hxs]
        rfl

/-- What is decoded from digits has them as its text, in lower case. -/
theorem toHexString_fromHexString {s : List Char} {d : Digest}
    (hs : ∀ c ∈ s, isXDigit c = true) (h : fromHexString s = .ok d) :
    toHexString d = s.map Char.toLower := by
  unfold fromHexString at h
  split at h
  · cases h
  · rename_i hlen
    have hlen : s.length = 64 := by simpa using hlen
    split at h
    · cases h
    · rename_i l hl
      cases h
      exact hexBytes_of_decodeBytes (by rw [hlen]) hs hl

/-- Lower-case text is the text of the digest it decodes to. -/
theorem toHexString_of_fromHexString {s : List Char} {d : Digest}
    (hs : ∀ c ∈ s, c ∈ lowerHexDigits) (h : fromHexString s = .ok d) : toHexString d = s := by
  have hall : (lowerHexDigits.all fun c => isXDigit c && c.toLower == c) = true := by decide
  have hlower : ∀ c ∈ s, isXDigit c = true ∧ c.toLower = c := by
    intro c hc
    simpa using List.all_eq_true.mp hall c (hs c hc)
  rw [toHexString_fromHexString (fun c hc => (hlower c hc).1) h]
  exact (List.map_congr_left fun c hc => (hlower c hc).2).trans (List.map_id' s)

/-! ## What `FromHexString` accepts -/

/-- What a turn of the loop takes: the second character is a digit, and the first
one a digit or something that `std::stoi` passes over. -/
def takesPair (p : Char × Char) : Bool :=
  (isXDigit p.1 || isSpace p.1 || p.1 == '+' || p.1 == '-') && isXDigit p.2

/-- The pairs of characters, one for each turn. -/
def pairs : List Char → List (Char × Char)
  | a :: b :: rest => (a, b) :: pairs rest
  | _ => []

theorem takePrefix16_short {s : List Char} (h : s.length ≤ 2) : takePrefix16 s = (0, s) := by
  unfold takePrefix16
  split
  · simp at h
  · rfl

theorem takeSign_other {c : Char} (hp : c ≠ '+') (hm : c ≠ '-') (rest : List Char) :
    takeSign (c :: rest) = (false, 0, c :: rest) := by
  unfold takeSign
  split
  · rename_i heq
    exact absurd (List.cons.inj heq).1 hp
  · rename_i heq
    exact absurd (List.cons.inj heq).1 hm
  · rfl

theorem xdigitValue_lt {c : Char} (h : isXDigit c = true) : xdigitValue c < 16 := by
  have hall : (xDigits.all fun c => xdigitValue c < 16) = true := by decide
  simpa using List.all_eq_true.mp hall c (mem_xDigits h)

/-- Blanks and signs are no digits. -/
theorem isXDigit_isSpace {c : Char} (h : isSpace c = true) : isXDigit c = false := by
  have hall : ([' ', '\t', '\n', Char.ofNat 11, Char.ofNat 12, '\r'].all (!isXDigit ·)) = true := by
    decide
  simpa using List.all_eq_true.mp hall c (by simpa [isSpace] using h)

theorem magnitude_lt {digits : List Char} (hlen : digits.length ≤ 2)
    (hd : ∀ c ∈ digits, isXDigit c = true) :
    0 ≤ digits.foldl (fun v c => v * 16 + (xdigitValue c : Int)) 0 ∧
    digits.foldl (fun v c => v * 16 + (xdigitValue c : Int)) 0 < 256 := by
  match digits, hlen with
  | [], _ => simp
  | [a], _ =>
    have ha := xdigitValue_lt (hd a (by simp))
    simp only [List.foldl_cons, List.foldl_nil]
    omega
  | [a, b], _ =>
    have ha := xdigitValue_lt (hd a (by simp))
    have hb := xdigitValue_lt (hd b (by simp))
    simp only [List.foldl_cons, List.foldl_nil]
    omega
  | _ :: _ :: _ :: _, hlen => simp at hlen

/-- A turn works when blanks, a sign and at least one digit make up both characters. -/
theorem decodeByte_scan {s s₁ : List Char} {minus : Bool} {signLen : Nat}
    (hsign : takeSign (s.drop (s.takeWhile isSpace).length) = (minus, signLen, s₁))
    (hshort : s₁.length ≤ 2) :
    (∃ x, decodeByte s = .ok x) ↔ s₁.takeWhile isXDigit ≠ [] ∧
      (s.takeWhile isSpace).length + signLen + (s₁.takeWhile isXDigit).length = 2 := by
  have hdigits : s₁.takeWhile isXDigit <+: s₁ := List.takeWhile_prefix isXDigit
  have hlen : (s₁.takeWhile isXDigit).length ≤ 2 := Nat.le_trans hdigits.length_le hshort
  have hbound := magnitude_lt hlen fun c hc => List.mem_takeWhile_imp hc
  simp only [decodeByte, stoi16, hsign, takePrefix16_short hshort]
  generalize s₁.takeWhile isXDigit = digits at *
  generalize digits.foldl (fun v c => v * 16 + (xdigitValue c : Int)) 0 = magnitude at *
  have hrange : ¬ ((if minus = true then -magnitude else magnitude) < -2 ^ 31 ∨
      2 ^ 31 ≤ (if minus = true then -magnitude else magnitude)) := by
    split <;> omega
  rw [if_neg hrange]
  cases digits with
  | nil => simp
  | cons c rest =>
    simp only [List.isEmpty_cons, Bool.false_eq_true, if_false, Nat.add_zero]
    split
    · rename_i hpos
      simpa using hpos
    · rename_i hpos
      simpa using hpos

/-- After a blank only one character is left for a digit. -/
theorem decodeByte_blank {a b : Char} (ha : isSpace a = true) :
    (∃ x, decodeByte [a, b] = .ok x) ↔ isXDigit b = true := by
  by_cases hb : isSpace b = true
  · have hblanks : [a, b].takeWhile isSpace = [a, b] := by simp [ha, hb]
    have hsign : takeSign ([a, b].drop ([a, b].takeWhile isSpace).length) = (false, 0, []) := by
      rw [hblanks]
      rfl
    rw [decodeByte_scan hsign (by simp)]
    simp [isXDigit_isSpace hb]
  have hblanks : [a, b].takeWhile isSpace = [a] := by simp [ha, hb]
  by_cases hp : b = '+' ∨ b = '-'
  · have hno : isXDigit b = false := by rcases hp with rfl | rfl <;> decide
    obtain ⟨minus, hsign⟩ : ∃ minus,
        takeSign ([a, b].drop ([a, b].takeWhile isSpace).length) = (minus, 1, []) := by
      rw [hblanks]
      rcases hp with rfl | rfl
      · exact ⟨_, rfl⟩
      · exact ⟨_, rfl⟩
    rw [decodeByte_scan hsign (by simp)]
    simp [hno]
  · obtain ⟨hp, hm⟩ := not_or.mp hp
    have hsign : takeSign ([a, b].drop ([a, b].takeWhile isSpace).length) = (false, 0, [b]) := by
      rw [hblanks]
      exact takeSign_other hp hm []
    rw [decodeByte_scan hsign (by simp), hblanks]
    cases hd : isXDigit b <;> simp [hd]

/-- So it is after a sign. -/
theorem decodeByte_sign {a b : Char} (ha : a = '+' ∨ a = '-') :
    (∃ x, decodeByte [a, b] = .ok x) ↔ isXDigit b = true := by
  have hspace : isSpace a = false := by rcases ha with rfl | rfl <;> decide
  have hblanks : [a, b].takeWhile isSpace = [] := by simp [hspace]
  obtain ⟨minus, hsign⟩ : ∃ minus,
      takeSign ([a, b].drop ([a, b].takeWhile isSpace).length) = (minus, 1, [b]) := by
    rw [hblanks]
    rcases ha with rfl | rfl
    · exact ⟨_, rfl⟩
    · exact ⟨_, rfl⟩
  rw [decodeByte_scan hsign (by simp), hblanks]
  cases hd : isXDigit b <;> simp [hd]

/-- After anything else, both characters have to be digits. -/
theorem decodeByte_plain {a b : Char} (hspace : isSpace a = false) (hp : a ≠ '+') (hm : a ≠ '-') :
    (∃ x, decodeByte [a, b] = .ok x) ↔ isXDigit a = true ∧ isXDigit b = true := by
  have hblanks : [a, b].takeWhile isSpace = [] := by simp [hspace]
  have hsign : takeSign ([a, b].drop ([a, b].takeWhile isSpace).length) = (false, 0, [a, b]) := by
    rw [hblanks]
    exact takeSign_other hp hm [b]
  rw [decodeByte_scan hsign (by simp), hblanks]
  cases hc : isXDigit a <;> cases hd : isXDigit b <;> simp [hc, hd]

theorem decodeByte_ok_iff (a b : Char) :
    (∃ x, decodeByte [a, b] = .ok x) ↔ takesPair (a, b) = true := by
  by_cases hspace : isSpace a = true
  · rw [decodeByte_blank hspace]
    simp [takesPair, hspace]
  by_cases hsign : a = '+' ∨ a = '-'
  · rw [decodeByte_sign hsign]
    rcases hsign with rfl | rfl <;> simp [takesPair]
  · obtain ⟨hp, hm⟩ := not_or.mp hsign
    rw [decodeByte_plain (Bool.not_eq_true _ ▸ hspace) hp hm]
    simp [takesPair, hspace, hp, hm]

theorem mem_iff_pairs {P : Char → Prop} : ∀ {s : List Char}, s.length % 2 = 0 →
    ((∀ c ∈ s, P c) ↔ ∀ p ∈ pairs s, P p.1 ∧ P p.2)
  | [], _ => by simp [pairs]
  | [_], hlen => by simp at hlen
  | a :: b :: rest, hlen => by
    have ih := mem_iff_pairs (P := P) (s := rest) (by simp only [List.length_cons] at hlen; omega)
    simp only [pairs, List.forall_mem_cons, ih, and_assoc]

theorem decodeBytes_ok_iff : ∀ {s : List Char},
    ((∃ l, decodeBytes s = .ok l) ↔ ∀ p ∈ pairs s, takesPair p = true)
  | [] => by simp [pairs, decodeBytes]
  | [_] => by simp [pairs, decodeBytes]
  | a :: b :: rest => by
    have ih := decodeBytes_ok_iff (s := rest)
    have hhead := decodeByte_ok_iff a b
    simp only [pairs, List.forall_mem_cons, ← ih, ← hhead, decodeBytes]
    cases decodeByte [a, b] with
    | error e => simp
    | ok x =>
      cases decodeBytes rest with
      | error e => simp
      | ok xs => simp

theorem fromHexString_ok_iff {s : List Char} :
    (∃ d, fromHexString s = .ok d) ↔ s.length = 64 ∧ ∀ p ∈ pairs s, takesPair p = true := by
  rw [← decodeBytes_ok_iff]
  unfold fromHexString
  by_cases hlen : s.length = 64
  · rw [dif_neg (by simpa using hlen)]
    split
    · rename_i e he
      simp [hlen, he]
    · rename_i l hl
      simp [hlen, hl]
  · simp [hlen]

/-- 64 digits are accepted. -/
theorem fromHexString_of_digits {s : List Char} (hlen : s.length = 64)
    (hall : ∀ c ∈ s, isXDigit c = true) : ∃ d, fromHexString s = .ok d := by
  refine fromHexString_ok_iff.mpr ⟨hlen, fun p hp => ?_⟩
  obtain ⟨h₁, h₂⟩ := (mem_iff_pairs (by rw [hlen])).mp hall p hp
  simp [takesPair, h₁, h₂]

/-- `FromHexString` reads the text as what it should be: it is accepted if it is 64
digits of either case, and then it is the text of the digest in lower case; if one
of 64 characters is anything else, that is the error. -/
def ReadsHex (s : List Char) : Prop :=
  ((∃ d, fromHexString s = .ok d) ↔ s.length = 64 ∧ ∀ c ∈ s, isXDigit c = true) ∧
  (∀ d, fromHexString s = .ok d → toHexString d = s.map Char.toLower) ∧
  (s.length = 64 → (∃ c ∈ s, isXDigit c = false) → fromHexString s = .error .InvalidHexCharacter)

/-- Some pair starts with a blank or a sign, and nothing else is wrong with the text. -/
def Misread (s : List Char) : Prop :=
  s.length = 64 ∧ (∀ p ∈ pairs s, takesPair p = true) ∧ ∃ p ∈ pairs s, isXDigit p.1 = false

instance (s : List Char) : Decidable (Misread s) :=
  inferInstanceAs (Decidable (s.length = 64 ∧ (∀ p ∈ pairs s, takesPair p = true) ∧
    ∃ p ∈ pairs s, isXDigit p.1 = false))

theorem decodeBytes_error : ∀ {s : List Char} {e : HashError},
    decodeBytes s = .error e → e = .InvalidHexCharacter
  | [], _, h => by cases h
  | [_], _, h => by cases h
  | a :: b :: rest, e, h => by
    simp only [decodeBytes] at h
    split at h
    · rename_i e' he
      cases h
      unfold decodeByte at he
      split at he
      · cases he; rfl
      · split at he
        · cases he; rfl
        · cases he
    · split at h
      · rename_i e' he
        cases h
        exact decodeBytes_error he
      · cases h

/-- Of 64 characters all are digits, or that is the error, unless the text is misread. -/
theorem digits_or_error {s : List Char} (hlen : s.length = 64) (h : ¬ Misread s) :
    (∀ c ∈ s, isXDigit c = true) ∨ fromHexString s = .error .InvalidHexCharacter := by
  by_cases htakes : ∀ p ∈ pairs s, takesPair p = true
  · left
    refine (mem_iff_pairs (by rw [hlen])).mpr fun p hp => ⟨?_, ?_⟩
    · by_contra hno
      exact h ⟨hlen, htakes, p, hp, by simpa using hno⟩
    · exact (Bool.and_eq_true_iff.mp (htakes p hp)).2
  · right
    have hno : ¬ ∃ d, fromHexString s = .ok d := fun hok => htakes (fromHexString_ok_iff.mp hok).2
    unfold fromHexString at hno ⊢
    rw [dif_neg (by simpa using hlen)] at hno ⊢
    split
    · rename_i e he
      rw [decodeBytes_error he]
    · rename_i l hl
      split at hno
      · rename_i e he
        rw [hl] at he
        cases he
      · exact absurd ⟨_, rfl⟩ hno

/-- A text that is misread is accepted, and should not be. -/
theorem not_readsHex {s : List Char} (h : Misread s) : ¬ ReadsHex s := by
  intro hreads
  obtain ⟨hlen, htakes, p, hp, hno⟩ := h
  have hdigits := (hreads.1.mp (fromHexString_ok_iff.mpr ⟨hlen, htakes⟩)).2
  have hp' := ((mem_iff_pairs (by rw [hlen])).mp hdigits p hp).1
  rw [hno] at hp'
  cases hp'

/-- **`FromHexString` reads the texts of digests and nothing else**, unless a pair
starts with a blank or a sign: `std::stoi` passes over it, and its position after
the pair is 2 all the same. -/
theorem readsHex_iff (s : List Char) : ReadsHex s ↔ ¬ Misread s := by
  constructor
  · exact fun hreads h => not_readsHex h hreads
  · intro h
    have hdigits : ∀ d, fromHexString s = .ok d → s.length = 64 ∧ ∀ c ∈ s, isXDigit c = true := by
      intro d hd
      have hlen := (fromHexString_ok_iff.mp ⟨d, hd⟩).1
      rcases digits_or_error hlen h with hall | herr
      · exact ⟨hlen, hall⟩
      · rw [hd] at herr
        cases herr
    refine ⟨⟨fun ⟨d, hd⟩ => hdigits d hd, fun ⟨hlen, hall⟩ => ?_⟩, fun d hd => ?_, ?_⟩
    · exact fromHexString_of_digits hlen hall
    · exact toHexString_fromHexString (hdigits d hd).2 hd
    · intro hlen hbad
      obtain ⟨c, hc, hno⟩ := hbad
      rcases digits_or_error hlen h with hall | herr
      · rw [hall c hc] at hno
        cases hno
      · exact herr

/-- A blank before `f`, and 62 zeros: it is taken for the digest that starts with the
byte 15. -/
theorem not_readsHex_blank :
    ¬ ReadsHex (' ' :: 'f' :: List.replicate 62 '0') ∧
    (fromHexString (' ' :: 'f' :: List.replicate 62 '0')).toOption.map (·.bytes.head?) =
      some (some 15) :=
  ⟨not_readsHex (by decide +kernel), by decide +kernel⟩

end NimbusFs.Common
