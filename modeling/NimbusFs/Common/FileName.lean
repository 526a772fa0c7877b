import Mathlib.Data.List.Basic

/-! # File names and random names

`std::filesystem::path::extension` and `stem` of a file name, and the shape of
the names that `GenerateUuidV4` makes. -/
namespace NimbusFs.Common

/-- One component of a path. -/
abbrev Name := List Char

/-- The position of the rightmost dot. -/
def lastDot (name : Name) : Option Nat :=
  let tail := name.reverse.takeWhile (· != '.')
  if tail.length = name.length then none else some (name.length - tail.length - 1)

/-- Where the extension starts, if there is one: a name that starts with its
only dot has none, nor has the name of the parent directory. -/
def extensionStart (name : Name) : Option Nat :=
  match lastDot name with
  | none => none
  | some 0 => none
  | some (i + 1) => if name = ['.', '.'] then none else some (i + 1)

/-- `path::extension()`, with its dot. -/
def extension (name : Name) : Name :=
  match extensionStart name with
  | none => []
  | some i => name.drop i

/-- `path::stem()`. -/
def stem (name : Name) : Name :=
  match extensionStart name with
  | none => name
  | some i => name.take i

theorem lastDot_append (a b : Name) (hb : '.' ∉ b) : lastDot (a ++ '.' :: b) = some a.length := by
  have htail : (a ++ '.' :: b).reverse.takeWhile (· != '.') = b.reverse := by
    rw [List.reverse_append, List.reverse_cons, List.append_assoc,
      List.takeWhile_append_of_pos]
    · simp
    · intro c hc
      have hc : c ∈ b := List.mem_reverse.mp hc
      have : c ≠ '.' := fun h => hb (h ▸ hc)
      simpa using this
  unfold lastDot
  rw [htail]
  have hlen : (a ++ '.' :: b).length = a.length + b.length + 1 := by
    rw [List.length_append, List.length_cons]; omega
  dsimp only
  rw [List.length_reverse, hlen, if_neg (by omega)]
  congr 1
  omega

theorem extensionStart_append {a b : Name} (ha : 2 ≤ a.length) (hb : '.' ∉ b) :
    extensionStart (a ++ '.' :: b) = some a.length := by
  obtain ⟨n, hn⟩ : ∃ n, a.length = n + 1 := ⟨a.length - 1, by omega⟩
  unfold extensionStart
  rw [lastDot_append a b hb, hn]
  have : a ++ '.' :: b ≠ ['.', '.'] := by
    intro h
    have := congrArg List.length h
    simp at this
    omega
  simp [this]

theorem extension_append {a b : Name} (ha : 2 ≤ a.length) (hb : '.' ∉ b) :
    extension (a ++ '.' :: b) = '.' :: b := by
  unfold extension
  rw [extensionStart_append ha hb]
  simp

theorem stem_append {a b : Name} (ha : 2 ≤ a.length) (hb : '.' ∉ b) : stem (a ++ '.' :: b) = a := by
  unfold stem
  rw [extensionStart_append ha hb]
  simp

/-- The text of a version 4 UUID: hexadecimal digits in groups of 8, 4, 4, 4
and 12, with the version and the variant in their places. -/
def isUuidV4 (s : List Char) : Bool :=
  s.length == 36 &&
    (s.zipIdx.all fun (c, i) =>
      if i == 8 || i == 13 || i == 18 || i == 23 then c == '-'
      else if i == 14 then c == '4'
      else if i == 19 then ['8', '9', 'a', 'b'].contains c
      else ['0', '1', '2', '3', '4', '5', '6', '7', '8', '9', 'a', 'b', 'c', 'd', 'e', 'f'].contains c)

/-- What `GenerateUuidV4` may return. -/
structure UuidV4 where
  text : List Char
  wf : isUuidV4 text = true

instance : Inhabited UuidV4 where
  default := ⟨"00000000-0000-4000-8000-000000000000".toList, by decide⟩

theorem UuidV4.no_dot (u : UuidV4) : '.' ∉ u.text := by
  intro hmem
  have hwf := u.wf
  simp only [isUuidV4, Bool.and_eq_true] at hwf
  obtain ⟨i, hi⟩ := List.mem_iff_getElem?.mp hmem
  have := List.all_eq_true.mp hwf.2 ('.', i) (List.mem_zipIdx_iff_getElem?.mpr hi)
  revert this
  dsimp only
  split <;> [decide; split <;> [decide; split <;> decide]]

end NimbusFs.Common
