import NimbusFs.Common.PathValidator

/-! # Accepted paths as places in a tree

What a validated path is for: to name a place below some root. Whatever the limits and
the pattern of the validator are, walking along an accepted path never leaves the
directory where the walk began, and a joined path is accepted exactly when its two
parts are and the whole is not too long. So the accepted paths are closed under going
up, and going down is checked one part at a time. -/
namespace NimbusFs.Common

open Lib

namespace PathValidator

variable {config : PathValidatorConfig}

/-! ## What is accepted, for any pattern -/

theorem checkFields_ok_iff {components : List Name} :
    checkFields config components = .ok () ↔
      ∀ component ∈ components, checkComponent config component = .ok () := by
  induction components with
  | nil => simp [checkFields]
  | cons component rest ih =>
    rw [List.forall_mem_cons, ← ih, checkFields]
    cases checkComponent config component with
    | error e => simp
    | ok u => simp

/-- A path is accepted when it is short enough, has no NUL and its components pass. -/
theorem validate_ok_iff {rest : List Char} :
    validate config ('/' :: rest) = .ok () ↔
      ('/' :: rest).length ≤ config.maxPathLength ∧ '\x00' ∉ rest ∧
      ∀ component ∈ fields '/' rest, checkComponent config component = .ok () := by
  by_cases hlen : ('/' :: rest).length ≤ config.maxPathLength
  · by_cases hnul : '\x00' ∈ '/' :: rest
    · have hrest : '\x00' ∈ rest := by simpa using hnul
      rw [validate_of_null rfl hlen hnul]
      simp [hrest]
    · have hrest : '\x00' ∉ rest := fun h => hnul (List.mem_cons_of_mem _ h)
      rw [validate_fields hlen hnul, checkFields_ok_iff]
      exact ⟨fun h => ⟨hlen, hrest, h⟩, fun h => h.2.2⟩
  · rw [validate_of_long rfl (Nat.not_le.mp hlen)]
    simp only [reduceCtorEq, false_iff]
    exact fun h => hlen h.1

theorem exists_of_validate {path : List Char} (h : validate config path = .ok ()) :
    ∃ rest, path = '/' :: rest := by
  by_contra hhead
  rw [validate_of_relative fun hh => hhead (List.head?_eq_some_iff.mp hh)] at h
  cases h

theorem ne_of_checkComponent {component : Name} (h : checkComponent config component = .ok ()) :
    component ≠ [] ∧ component ≠ ['.', '.'] := by
  constructor
  · rintro rfl
    cases h
  · rintro rfl
    simp only [checkComponent, if_true] at h
    split at h
    · cases h
    · split at h <;> cases h

/-! ## Walks -/

/-- One step of a walk: nothing and `.` stay, `..` goes up, a name goes down. -/
def enter (directory : List Name) (component : Name) : List Name :=
  if component = [] ∨ component = ['.'] then directory
  else if component = ['.', '.'] then directory.dropLast
  else directory ++ [component]

/-- The place that a walk along the components leads to. -/
def walk (base : List Name) (components : List Name) : List Name := components.foldl enter base

theorem walk_of_notMem {components : List Name} (h : ['.', '.'] ∉ components) (base : List Name) :
    walk base components =
      base ++ components.filter fun component => component ≠ [] ∧ component ≠ ['.'] := by
  induction components generalizing base with
  | nil => simp [walk]
  | cons component rest ih =>
    obtain ⟨hne, hrest⟩ : ['.', '.'] ≠ component ∧ ['.', '.'] ∉ rest := by simpa using h
    have hstep : walk base (component :: rest) = walk (enter base component) rest := rfl
    rw [hstep, ih hrest]
    by_cases hstay : component = [] ∨ component = ['.']
    · rw [enter, if_pos hstay, List.filter_cons_of_neg]
      rcases hstay with rfl | rfl <;> simp
    · obtain ⟨hnil, hdot⟩ := not_or.mp hstay
      rw [enter, if_neg hstay, if_neg (Ne.symm hne), List.filter_cons_of_pos (by simp [hnil, hdot])]
      simp

/-- **An accepted path stays below its root.** Wherever a walk along it begins, at no
moment does it leave the directory where it began, and it ends at the place that the
path names, below that directory. -/
theorem accepted_path_confined {path : List Char} (h : validate config path = .ok ())
    (base : List Name) :
    (∀ n, base <+: walk base ((path.splitOn '/').take n)) ∧
      walk base (path.splitOn '/') = base ++ location path := by
  obtain ⟨rest, rfl⟩ := exists_of_validate h
  have hup : ['.', '.'] ∉ ('/' :: rest).splitOn '/' := by
    have hsplit : ('/' :: rest).splitOn '/' = [] :: rest.splitOn '/' :=
      List.splitOn_append_cons_self_of_not_mem List.not_mem_nil rest
    have hfields : ['.', '.'] ∉ fields '/' rest := fun hmem =>
      (ne_of_checkComponent ((validate_ok_iff.mp h).2.2 _ hmem)).2 rfl
    rw [hsplit]
    rcases splitOn_eq_fields '/' rest with hsame | hsame <;> simp [hsame, hfields]
  refine ⟨fun n => ?_, walk_of_notMem hup base⟩
  rw [walk_of_notMem fun hmem => hup (List.mem_of_mem_take hmem)]
  exact List.prefix_append _ _

theorem accepted_path_confined_nested :
    validate {} "/a/./b/".toList = .ok () ∧
      walk ["srv".toList] ("/a/./b/".toList.splitOn '/') =
        ["srv".toList] ++ location "/a/./b/".toList := by
  have hok : validate {} "/a/./b/".toList = .ok () := by decide +kernel
  exact ⟨hok, (accepted_path_confined hok _).2⟩

/-! ## Joined paths -/

/-- **A joined path is checked by its parts.** It is accepted exactly when both parts
are, the first does not end with a slash and the whole is not too long; then every path
above an accepted one is accepted as well. -/
theorem validate_join (config : PathValidatorConfig) (a b : List Char) :
    validate config ('/' :: a ++ '/' :: b) = .ok () ↔
      validate config ('/' :: a) = .ok () ∧ ('/' :: a).getLast? ≠ some '/' ∧
      validate config ('/' :: b) = .ok () ∧
      ('/' :: a ++ '/' :: b).length ≤ config.maxPathLength := by
  have hlast : ('/' :: a).getLast? = some '/' ↔ (a.splitOn '/').getLast? = some [] := by
    rw [getLast?_splitOn]
    exact getLast?_append_cons (f := [])
  rw [List.cons_append, validate_ok_iff, validate_ok_iff, validate_ok_iff, fields_append_sep, ne_eq,
    hlast]
  simp only [List.mem_append, List.mem_cons, or_imp, forall_and, List.length_cons,
    List.length_append]
  constructor
  · rintro ⟨hlen, hnul, hparts, hb⟩
    have hclosed : (a.splitOn '/').getLast? ≠ some [] := fun h =>
      (ne_of_checkComponent (hparts [] (List.mem_of_getLast? h))).1 rfl
    have hfields : fields '/' a = a.splitOn '/' := if_neg hclosed
    refine ⟨⟨by omega, fun h => hnul (.inl h), hfields ▸ hparts⟩, hclosed,
      ⟨by omega, fun h => hnul (.inr (.inr h)), hb⟩, hlen⟩
  · rintro ⟨⟨_, hnula, ha⟩, hclosed, ⟨_, hnulb, hb⟩, hlen⟩
    have hfields : fields '/' a = a.splitOn '/' := if_neg hclosed
    refine ⟨hlen, ?_, hfields ▸ ha, hb⟩
    rintro (h | h | h)
    · exact hnula h
    · cases h
    · exact hnulb h

example : validate {} "/a/b".toList = .ok () ∧ validate {} "/a//b".toList ≠ .ok () := by
  decide +kernel

end PathValidator

end NimbusFs.Common
