import NimbusFs.Common.FileName
import NimbusFs.Lib.Separated

/-! # `PathValidator`

`Validate` walks over a path with `find` and `substr` and checks each component. The
walk sees exactly the fields of the path between its slashes: an empty one is an
error, but a slash at the end opens none. So what it accepts is a grammar, and what
it says of any other path is the first fault from the left.

`NormalizeForDisplay` does not check a path, it only cuts runs of slashes down to one. -/
namespace NimbusFs.Common

open Lib

inductive PathValidationError
  | NotAbsolute
  | ContainsParentTraversal
  | ContainsNullByte
  | ComponentTooLong
  | PathTooLong
  | InvalidCharacter
  | EmptyComponent
deriving DecidableEq

/-- A character of `[A-Za-z0-9._\- ]`. -/
def allowedCharacter (c : Char) : Bool :=
  ('A' ≤ c && c ≤ 'Z') || ('a' ≤ c && c ≤ 'z') || ('0' ≤ c && c ≤ '9') ||
    ['.', '_', '-', ' '].contains c

/-- `std::regex_match` of the default pattern, `^([A-Za-z0-9._\- ])+$`. -/
def matchesDefaultPattern (s : Name) : Bool := !s.isEmpty && s.all allowedCharacter

/-- The two limits, and what `std::regex_match` says of the compiled pattern. -/
structure PathValidatorConfig where
  maxComponentLength : Nat := 255
  maxPathLength : Nat := 4096
  regexMatch : Name → Bool := matchesDefaultPattern

/-! ## `std::string_view` -/

/-- `s.find(c, pos)`; nothing stands for `npos`. -/
def find (s : List Char) (c : Char) (pos : Nat) : Option Nat :=
  ((s.drop pos).findIdx? (· == c)).map (pos + ·)

/-- `s.substr(pos, count)`; nothing stands for `npos`. -/
def substr (s : List Char) (pos : Nat) (count : Option Nat) : List Char :=
  match count with
  | none => s.drop pos
  | some n => (s.drop pos).take n

theorem le_of_find {s : List Char} {c : Char} {pos i : Nat} (h : find s c pos = some i) :
    pos ≤ i := by
  obtain ⟨k, -, rfl⟩ := Option.map_eq_some_iff.mp h
  exact Nat.le_add_right pos k

theorem findIdx?_of_notMem {s : List Char} {c : Char} (h : c ∉ s) : s.findIdx? (· == c) = none := by
  rw [List.findIdx?_eq_none_iff]
  intro x hx
  exact beq_false_of_ne fun he => h (he ▸ hx)

theorem find_of_notMem {s : List Char} {c : Char} {pos : Nat} (h : c ∉ s.drop pos) :
    find s c pos = none := by
  rw [find, findIdx?_of_notMem h, Option.map_none]

theorem find_of_drop {s f rest : List Char} {c : Char} {pos : Nat}
    (h : s.drop pos = f ++ c :: rest) (hf : c ∉ f) : find s c pos = some (pos + f.length) := by
  rw [find, h, List.findIdx?_append, findIdx?_of_notMem hf]
  simp [List.findIdx?_cons]

namespace PathValidator

variable (config : PathValidatorConfig)

/-! ## `Validate` -/

/-- The checks of one component. -/
def checkComponent (component : Name) : Except PathValidationError Unit :=
  if component.isEmpty then .error .EmptyComponent
  else if component.length > config.maxComponentLength then .error .ComponentTooLong
  else if component = ['.', '.'] then .error .ContainsParentTraversal
  else if !config.regexMatch component then .error .InvalidCharacter
  else .ok ()

/-- The loop over the components, from `start` on. -/
def checkComponents (path : List Char) (start : Nat) : Except PathValidationError Unit :=
  if _hstart : start < path.length then
    let component := substr path start ((find path '/' start).map (· - start))
    match checkComponent config component with
    | .error e => .error e
    | .ok () =>
      match _hend : find path '/' start with
      | none => .ok ()  -- break
      | some stop => checkComponents path (stop + 1)
  else .ok ()
termination_by path.length - start
decreasing_by
  have := le_of_find _hend
  omega

def validate (path : List Char) : Except PathValidationError Unit :=
  if path.head? ≠ some '/' then .error .NotAbsolute
  else if path.length > config.maxPathLength then .error .PathTooLong
  else if path.contains '\x00' then .error .ContainsNullByte
  else if path = ['/'] then .ok ()
  else checkComponents config path 1

/-! ## The walk and the fields -/

/-- The first error among some components. -/
def checkFields : List Name → Except PathValidationError Unit
  | [] => .ok ()
  | component :: rest =>
    match checkComponent config component with
    | .error e => .error e
    | .ok () => checkFields rest

/-- A turn that finds no further slash is the last one. -/
theorem checkComponents_last {path : List Char} {start : Nat} (hne : path.drop start ≠ [])
    (hfind : find path '/' start = none) :
    checkComponents config path start = checkComponent config (path.drop start) := by
  have hstart : start < path.length := by simpa using hne
  rw [checkComponents, dif_pos hstart]
  simp only [hfind, Option.map_none, substr]
  split
  · rename_i e he
    exact he.symm
  · rename_i hok
    split
    · exact hok.symm
    · rename_i stop hstop
      rw [hfind] at hstop
      cases hstop

/-- A turn that finds a slash goes on after it. -/
theorem checkComponents_next {path : List Char} {start stop : Nat} (hstart : start < path.length)
    (hfind : find path '/' start = some stop) :
    checkComponents config path start =
      match checkComponent config ((path.drop start).take (stop - start)) with
      | .error e => .error e
      | .ok () => checkComponents config path (stop + 1) := by
  rw [checkComponents, dif_pos hstart]
  simp only [hfind, Option.map_some, substr]
  split
  · rfl
  · split
    · rename_i hnone
      rw [hfind] at hnone
      cases hnone
    · rename_i stop' hstop
      rw [hfind] at hstop
      cases hstop
      rfl

/-- The loop checks the fields of what is left of the path, and skips none. -/
theorem checkComponents_eq (path : List Char) (start : Nat) :
    checkComponents config path start = checkFields config (fields '/' (path.drop start)) := by
  -- along the fields of what is left, which is where the loop stops each time
  induction hrest : path.drop start using fields_induction '/' generalizing start with
  | nil =>
    have hstart : ¬ start < path.length := by simpa using hrest
    rw [checkComponents, dif_neg hstart, fields_nil]
    rfl
  | last f hf hne =>
    have hfind : find path '/' start = none := find_of_notMem (hrest ▸ hf)
    rw [checkComponents_last config (hrest ▸ hne) hfind, hrest, fields_of_notMem hf hne]
    simp only [checkFields]
    split
    · rename_i e he
      exact he
    · rename_i hok
      exact hok
  | cons f rest hf ih =>
    have hstart : start < path.length := by
      have hlen := congrArg List.length hrest
      rw [List.length_drop, List.length_append, List.length_cons] at hlen
      omega
    have hnext : path.drop (start + f.length + 1) = rest := by
      rw [← List.drop_drop, ← List.drop_drop, hrest, List.drop_left, List.drop_one, List.tail_cons]
    rw [checkComponents_next config hstart (find_of_drop hrest hf), ih _ hnext, hrest,
      fields_append_cons hf, Nat.add_sub_cancel_left, List.take_left]
    rfl

variable {config}

theorem validate_of_relative {path : List Char} (h : path.head? ≠ some '/') :
    validate config path = .error .NotAbsolute :=
  if_pos h

theorem validate_of_long {path : List Char} (hhead : path.head? = some '/')
    (h : config.maxPathLength < path.length) : validate config path = .error .PathTooLong := by
  rw [validate, if_neg (not_not.mpr hhead), if_pos h]

theorem validate_of_null {path : List Char} (hhead : path.head? = some '/')
    (hlen : path.length ≤ config.maxPathLength) (h : '\x00' ∈ path) :
    validate config path = .error .ContainsNullByte := by
  rw [validate, if_neg (not_not.mpr hhead), if_neg (Nat.not_lt.mpr hlen),
    if_pos (List.contains_iff_mem.mpr h)]

/-- After the checks of the whole path, its fields are checked; the root has none. -/
theorem validate_fields {rest : List Char} (hlen : ('/' :: rest).length ≤ config.maxPathLength)
    (hnul : '\x00' ∉ '/' :: rest) :
    validate config ('/' :: rest) = checkFields config (fields '/' rest) := by
  have hcontains : ('/' :: rest).contains '\x00' = false := by
    rw [← Bool.not_eq_true, List.contains_iff_mem]
    exact hnul
  rw [validate, if_neg (by simp), if_neg (Nat.not_lt.mpr hlen), if_neg (by rw [hcontains]; simp)]
  by_cases hroot : rest = []
  · rw [hroot, if_pos rfl, fields_nil]
    rfl
  · rw [if_neg (by simpa using hroot), checkComponents_eq]
    rfl

/-! ## The grammar -/

/-- Any limits, with the default pattern. -/
def limits (maxComponentLength maxPathLength : Nat) : PathValidatorConfig :=
  { maxComponentLength, maxPathLength }

variable {C L : Nat}

@[simp] theorem maxComponentLength_limits : (limits C L).maxComponentLength = C := rfl

/-- What a component may be. -/
def ComponentOk (C : Nat) (component : Name) : Prop :=
  component ≠ [] ∧ component.length ≤ C ∧ component ≠ ['.', '.'] ∧
    ∀ c ∈ component, allowedCharacter c = true

/-- The first thing that is wrong with a component. -/
def ComponentFault (C : Nat) (component : Name) : PathValidationError → Prop
  | .EmptyComponent => component = []
  | .ComponentTooLong => component ≠ [] ∧ C < component.length
  | .ContainsParentTraversal =>
    component ≠ [] ∧ component.length ≤ C ∧ component = ['.', '.']
  | .InvalidCharacter =>
    component ≠ [] ∧ component.length ≤ C ∧ component ≠ ['.', '.'] ∧
      ∃ c ∈ component, allowedCharacter c = false
  | _ => False

/-- What a path may be. -/
def Grammar (C L : Nat) (path : List Char) : Prop :=
  path.head? = some '/' ∧ path.length ≤ L ∧ '\x00' ∉ path ∧
    (path = ['/'] ∨ ∃ components : List Name, components ≠ [] ∧
      (∀ component ∈ components, ComponentOk C component) ∧
      (path = '/' :: ['/'].intercalate components ∨
        path = '/' :: ['/'].intercalate components ++ ['/']))

/-- The first thing that is wrong with a path: with the whole of it, or with the
leftmost component that is not as it should be. -/
def Fault (C L : Nat) (path : List Char) : PathValidationError → Prop
  | .NotAbsolute => path.head? ≠ some '/'
  | .PathTooLong => path.head? = some '/' ∧ L < path.length
  | .ContainsNullByte => path.head? = some '/' ∧ path.length ≤ L ∧ '\x00' ∈ path
  | e =>
    path.head? = some '/' ∧ path.length ≤ L ∧ '\x00' ∉ path ∧
      ∃ before component after, fields '/' path.tail = before ++ component :: after ∧
        (∀ b ∈ before, ComponentOk C b) ∧ ComponentFault C component e

theorem regexMatch_limits {component : Name} (hne : component ≠ []) :
    (limits C L).regexMatch component = true ↔ ∀ c ∈ component, allowedCharacter c = true := by
  have hempty : component.isEmpty = false := by simpa using hne
  simp [limits, matchesDefaultPattern, hempty]

theorem component_ok_or_fault (C : Nat) (component : Name) :
    ComponentOk C component ∨ ∃ e, ComponentFault C component e := by
  by_cases hne : component = []
  · exact .inr ⟨.EmptyComponent, hne⟩
  by_cases hshort : component.length ≤ C
  swap
  · exact .inr ⟨.ComponentTooLong, hne, Nat.not_le.mp hshort⟩
  by_cases hparent : component = ['.', '.']
  · exact .inr ⟨.ContainsParentTraversal, hne, hshort, hparent⟩
  by_cases hchars : ∀ c ∈ component, allowedCharacter c = true
  · exact .inl ⟨hne, hshort, hparent, hchars⟩
  · exact .inr ⟨.InvalidCharacter, hne, hshort, hparent, by simpa using hchars⟩

/-- The components are all right, or one is the first that is not. -/
theorem components_ok_or_fault (C : Nat) (components : List Name) :
    (∀ c ∈ components, ComponentOk C c) ∨
      ∃ e before component after, components = before ++ component :: after ∧
        (∀ b ∈ before, ComponentOk C b) ∧ ComponentFault C component e := by
  induction components with
  | nil => exact .inl (by simp)
  | cons component rest ih =>
    rcases component_ok_or_fault C component with hok | ⟨e, hfault⟩
    · rcases ih with hall | ⟨e, before, bad, after, rfl, hbefore, hfault⟩
      · exact .inl (List.forall_mem_cons.mpr ⟨hok, hall⟩)
      · exact .inr ⟨e, component :: before, bad, after, rfl,
          List.forall_mem_cons.mpr ⟨hok, hbefore⟩, hfault⟩
    · exact .inr ⟨e, [], component, rest, rfl, by simp, hfault⟩

theorem checkComponent_of_ok {component : Name} (h : ComponentOk C component) :
    checkComponent (limits C L) component = .ok () := by
  obtain ⟨hne, hshort, hparent, hchars⟩ := h
  have hmatch : (limits C L).regexMatch component = true := (regexMatch_limits hne).mpr hchars
  rw [checkComponent, if_neg (by simpa using hne), maxComponentLength_limits,
    if_neg (Nat.not_lt.mpr hshort), if_neg hparent, if_neg (by simpa using hmatch)]

theorem checkComponent_of_fault {component : Name} {e : PathValidationError}
    (h : ComponentFault C component e) : checkComponent (limits C L) component = .error e := by
  cases e with
  | NotAbsolute => exact h.elim
  | ContainsNullByte => exact h.elim
  | PathTooLong => exact h.elim
  | EmptyComponent => exact if_pos (List.isEmpty_iff.mpr h)
  | ComponentTooLong =>
    obtain ⟨hne, hlong⟩ := h
    rw [checkComponent, if_neg (by simpa using hne), maxComponentLength_limits, if_pos hlong]
  | ContainsParentTraversal =>
    obtain ⟨hne, hshort, hparent⟩ := h
    rw [checkComponent, if_neg (by simpa using hne), maxComponentLength_limits,
      if_neg (Nat.not_lt.mpr hshort), if_pos hparent]
  | InvalidCharacter =>
    obtain ⟨hne, hshort, hparent, c, hc, hbad⟩ := h
    have hmatch : (limits C L).regexMatch component ≠ true := by
      intro hmatch
      rw [(regexMatch_limits hne).mp hmatch c hc] at hbad
      cases hbad
    rw [checkComponent, if_neg (by simpa using hne), maxComponentLength_limits,
      if_neg (Nat.not_lt.mpr hshort), if_neg hparent, if_pos (by simpa using hmatch)]

/-- Components that are as they should be are passed over. -/
theorem checkFields_append {before components : List Name}
    (h : ∀ b ∈ before, ComponentOk C b) :
    checkFields (limits C L) (before ++ components) = checkFields (limits C L) components := by
  induction before with
  | nil => rfl
  | cons b rest ih =>
    obtain ⟨hb, hrest⟩ := List.forall_mem_cons.mp h
    simp only [List.cons_append, checkFields, checkComponent_of_ok hb, ih hrest]

theorem checkFields_of_fault {before after : List Name} {component : Name}
    {e : PathValidationError} (hbefore : ∀ b ∈ before, ComponentOk C b)
    (hfault : ComponentFault C component e) :
    checkFields (limits C L) (before ++ component :: after) = .error e := by
  rw [checkFields_append hbefore, checkFields, checkComponent_of_fault hfault]

theorem slash_notMem {component : Name} (h : ComponentOk C component) : '/' ∉ component := by
  intro hmem
  exact absurd (h.2.2.2 _ hmem) (by decide)

/-- The fields of a path are well formed exactly when it is made of such components. -/
theorem fields_ok_iff {rest : List Char} :
    (∀ component ∈ fields '/' rest, ComponentOk C component) ↔
      rest = [] ∨ ∃ components : List Name, components ≠ [] ∧
        (∀ component ∈ components, ComponentOk C component) ∧
        (rest = ['/'].intercalate components ∨ rest = ['/'].intercalate components ++ ['/']) := by
  constructor
  · intro h
    by_cases hrest : rest = []
    · exact .inl hrest
    · exact .inr ⟨fields '/' rest, mt fields_eq_nil.mp hrest, h, eq_intercalate_fields hrest⟩
  · rintro (rfl | ⟨components, hne, hok, hrest⟩)
    · simp
    · obtain ⟨hfields, hfields'⟩ :=
        fields_intercalate (fun f hf => ⟨slash_notMem (hok f hf), (hok f hf).1⟩) hne
      rcases hrest with rfl | rfl
      · rwa [hfields]
      · rwa [hfields']

theorem fault_of_component {path : List Char} {e : PathValidationError} {before after : List Name}
    {component : Name} (hhead : path.head? = some '/') (hlen : path.length ≤ L)
    (hnul : '\x00' ∉ path) (hsplit : fields '/' path.tail = before ++ component :: after)
    (hbefore : ∀ b ∈ before, ComponentOk C b) (hfault : ComponentFault C component e) :
    Fault C L path e := by
  cases e with
  | NotAbsolute => exact hfault.elim
  | ContainsNullByte => exact hfault.elim
  | PathTooLong => exact hfault.elim
  | _ => exact ⟨hhead, hlen, hnul, before, component, after, hsplit, hbefore, hfault⟩

/-- A path is in the grammar, or it has a first fault. -/
theorem grammar_or_fault (C L : Nat) (path : List Char) :
    Grammar C L path ∨ ∃ e, Fault C L path e := by
  by_cases hhead : path.head? = some '/'
  swap
  · exact .inr ⟨.NotAbsolute, hhead⟩
  by_cases hlen : path.length ≤ L
  swap
  · exact .inr ⟨.PathTooLong, hhead, Nat.not_le.mp hlen⟩
  by_cases hnul : '\x00' ∈ path
  · exact .inr ⟨.ContainsNullByte, hhead, hlen, hnul⟩
  obtain ⟨rest, rfl⟩ : ∃ rest, path = '/' :: rest := List.head?_eq_some_iff.mp hhead
  rcases components_ok_or_fault C (fields '/' rest) with hok |
    ⟨e, before, component, after, hsplit, hbefore, hfault⟩
  · refine .inl ⟨hhead, hlen, hnul, ?_⟩
    rcases fields_ok_iff.mp hok with rfl | ⟨components, hne, hall, hrest⟩
    · exact .inl rfl
    · exact .inr ⟨components, hne, hall, hrest.imp (congrArg _) (congrArg _)⟩
  · exact .inr ⟨e, fault_of_component hhead hlen hnul hsplit hbefore hfault⟩

theorem components_of_grammar {rest : List Char} (h : Grammar C L ('/' :: rest)) :
    ∀ component ∈ fields '/' rest, ComponentOk C component := by
  obtain ⟨-, -, -, hpath⟩ := h
  have htail : ∀ {t}, '/' :: rest = '/' :: t → rest = t := fun h => (List.cons.inj h).2
  refine fields_ok_iff.mpr (hpath.imp htail ?_)
  rintro ⟨components, hne, hall, hrest⟩
  exact ⟨components, hne, hall, hrest.imp htail htail⟩

theorem validate_of_grammar {path : List Char} (h : Grammar C L path) :
    validate (limits C L) path = .ok () := by
  obtain ⟨hhead, hlen, hnul, -⟩ := id h
  obtain ⟨rest, rfl⟩ : ∃ rest, path = '/' :: rest := List.head?_eq_some_iff.mp hhead
  have hcheck : checkFields (limits C L) (fields '/' rest ++ []) = .ok () :=
    checkFields_append (components_of_grammar h)
  rw [validate_fields hlen hnul, ← List.append_nil (fields '/' rest), hcheck]

theorem validate_of_component {path : List Char} {e : PathValidationError}
    (h : path.head? = some '/' ∧ path.length ≤ L ∧ '\x00' ∉ path ∧
      ∃ before component after, fields '/' path.tail = before ++ component :: after ∧
        (∀ b ∈ before, ComponentOk C b) ∧ ComponentFault C component e) :
    validate (limits C L) path = .error e := by
  obtain ⟨hhead, hlen, hnul, before, component, after, hsplit, hbefore, hfault⟩ := h
  obtain ⟨rest, rfl⟩ : ∃ rest, path = '/' :: rest := List.head?_eq_some_iff.mp hhead
  rw [List.tail_cons] at hsplit
  rw [validate_fields hlen hnul, hsplit, checkFields_of_fault hbefore hfault]

theorem validate_of_fault {path : List Char} {e : PathValidationError} (h : Fault C L path e) :
    validate (limits C L) path = .error e := by
  cases e with
  | NotAbsolute => exact validate_of_relative h
  | PathTooLong =>
    obtain ⟨hhead, hlong⟩ := h
    exact validate_of_long hhead hlong
  | ContainsNullByte =>
    obtain ⟨hhead, hlen, hnul⟩ := h
    exact validate_of_null hhead hlen hnul
  | ContainsParentTraversal => exact validate_of_component h
  | ComponentTooLong => exact validate_of_component h
  | InvalidCharacter => exact validate_of_component h
  | EmptyComponent => exact validate_of_component h

theorem grammar_of_validate {path : List Char} (h : validate (limits C L) path = .ok ()) :
    Grammar C L path := by
  rcases grammar_or_fault C L path with hgrammar | ⟨e, hfault⟩
  · exact hgrammar
  · rw [validate_of_fault hfault] at h
    cases h

/-- **`Validate` accepts exactly its grammar**, with any limits and the default
pattern, and it refuses every other path for its first fault. -/
theorem validate_exact (C L : Nat) (path : List Char) :
    (validate (limits C L) path = .ok () ↔ Grammar C L path) ∧
      ∀ e, validate (limits C L) path = .error e ↔ Fault C L path e := by
  refine ⟨⟨grammar_of_validate, validate_of_grammar⟩, fun e => ⟨fun h => ?_, validate_of_fault⟩⟩
  rcases grammar_or_fault C L path with hgrammar | ⟨e', hfault⟩
  · rw [validate_of_grammar hgrammar] at h
    cases h
  · rw [validate_of_fault hfault] at h
    cases h
    exact hfault

/-! ## Spellings of one location -/

/-- The location that a path names: its components but for the empty ones and `.`. -/
def location (path : List Char) : List Name :=
  (path.splitOn '/').filter fun component => component ≠ [] ∧ component ≠ ['.']

/-- A path of the grammar without `.` names its fields. -/
theorem location_eq_fields {path : List Char} (h : Grammar C L path)
    (hdot : ['.'] ∉ path.splitOn '/') : fields '/' path = [] :: location path := by
  obtain ⟨rest, rfl⟩ : ∃ rest, path = '/' :: rest := List.head?_eq_some_iff.mp h.1
  have hsplit : ('/' :: rest).splitOn '/' = [] :: rest.splitOn '/' :=
    List.splitOn_append_cons_self_of_not_mem List.not_mem_nil rest
  have hfields : fields '/' ('/' :: rest) = [] :: fields '/' rest :=
    fields_append_cons List.not_mem_nil
  have hkeep : (fields '/' rest).filter (fun component => component ≠ [] ∧ component ≠ ['.']) =
      fields '/' rest := by
    refine List.filter_eq_self.mpr fun component hmem => ?_
    have hne := (components_of_grammar h component hmem).1
    have hnodot : component ≠ ['.'] := by
      rintro rfl
      refine hdot (hsplit ▸ List.mem_cons_of_mem _ ?_)
      rcases splitOn_eq_fields '/' rest with hsame | hsame
      · exact hsame ▸ hmem
      · exact hsame ▸ List.mem_append_left _ hmem
    simp [hne, hnodot]
  rw [hfields, location, hsplit, List.filter_cons_of_neg (by simp)]
  rcases splitOn_eq_fields '/' rest with hsame | hsame
  · rw [hsame, hkeep]
  · rw [hsame, List.filter_append, hkeep, List.filter_cons_of_neg (by simp), List.filter_nil,
      List.append_nil]

/-- **Accepted paths are canonical** but for `.` components and for a slash at the end:
two that name the same location, have no such component and agree on that slash are
one. -/
theorem eq_of_location_eq (p q : List Char) (hp : validate {} p = .ok ())
    (hq : validate {} q = .ok ()) (hpdot : ['.'] ∉ p.splitOn '/') (hqdot : ['.'] ∉ q.splitOn '/')
    (hslash : p.getLast? = some '/' ↔ q.getLast? = some '/') (h : location p = location q) :
    p = q := by
  have hpfields := location_eq_fields (grammar_of_validate hp) hpdot
  have hqfields := location_eq_fields (grammar_of_validate hq) hqdot
  exact eq_of_fields_eq (hpfields.trans (h ▸ hqfields.symm)) hslash

/-- A path spelled again from its location. -/
theorem eq_of_location_eq_nested :
    validate {} "/a/b".toList = .ok () ∧
      "/a/b".toList = '/' :: ['/'].intercalate (location "/a/b".toList) := by
  have hok : validate {} "/a/b".toList = .ok () := by decide +kernel
  have hdot : ['.'] ∉ "/a/b".toList.splitOn '/' := by decide +kernel
  exact ⟨hok, eq_of_location_eq _ _ hok hok hdot hdot Iff.rfl rfl⟩

/-- A slash at the end and a `.` are accepted, and change the path but not its location. -/
theorem not_canonical :
    (validate {} "/a".toList = .ok () ∧ validate {} "/a/".toList = .ok () ∧
      location "/a".toList = location "/a/".toList ∧ "/a".toList ≠ "/a/".toList) ∧
    validate {} "/./a".toList = .ok () ∧ location "/a".toList = location "/./a".toList ∧
      "/a".toList ≠ "/./a".toList := by
  decide +kernel

/-! ## `NormalizeForDisplay` -/

/-- One turn of the loop: a slash after a slash at the back of the result is skipped. -/
def pushDisplay (result : List Char) (c : Char) : List Char :=
  if c = '/' ∧ result.getLast? = some '/' then result else result ++ [c]

def normalizeForDisplay (path : List Char) : List Char :=
  match path with
  | [] => []
  | c :: rest => rest.foldl pushDisplay [c]

theorem pushDisplay_of_apart {result : List Char} {back c : Char} (h : Apart '/' back c) :
    pushDisplay (result ++ [back]) c = result ++ [back] ++ [c] := by
  refine if_neg fun hskip => h ⟨?_, hskip.1⟩
  simpa using hskip.2

theorem pushDisplay_slash (result : List Char) :
    pushDisplay (result ++ ['/']) '/' = result ++ ['/'] :=
  if_pos ⟨rfl, List.getLast?_concat⟩

/-- The loop goes by the back of the result, and never looks further into it. -/
theorem foldl_pushDisplay (result rest : List Char) (back : Char) :
    rest.foldl pushDisplay (result ++ [back]) = result ++ rest.destutter' (Apart '/') back := by
  induction rest generalizing result back with
  | nil => rfl
  | cons c rest ih =>
    rw [List.foldl_cons]
    by_cases h : Apart '/' back c
    · rw [pushDisplay_of_apart h, ih, List.destutter'_cons_pos _ h, ← List.append_cons]
    · rw [List.destutter'_cons_neg _ h, ← ih]
      obtain ⟨rfl, rfl⟩ := not_not.mp h
      rw [pushDisplay_slash]

theorem normalizeForDisplay_eq (path : List Char) :
    normalizeForDisplay path = collapse '/' path := by
  cases path with
  | nil => rfl
  | cons c rest => exact foldl_pushDisplay [] rest c

theorem ne_nil_of_checkFields {components : List Name} (h : checkFields config components = .ok ()) :
    ∀ component ∈ components, component ≠ [] := by
  induction components with
  | nil => simp
  | cons component rest ih =>
    rw [checkFields] at h
    split at h
    · cases h
    · rename_i hok
      refine List.forall_mem_cons.mpr ⟨?_, ih h⟩
      rintro rfl
      cases hok

/-- Whatever the limits and the pattern are, no two slashes meet in an accepted path. -/
theorem not_infix_of_validate {path : List Char} (h : validate config path = .ok ()) :
    ¬ ['/', '/'] <:+: path := by
  have hhead : path.head? = some '/' := by
    by_contra hhead
    rw [validate_of_relative hhead] at h
    cases h
  have hlen : path.length ≤ config.maxPathLength := by
    by_contra hlen
    rw [validate_of_long hhead (Nat.not_le.mp hlen)] at h
    cases h
  have hnul : '\x00' ∉ path := by
    intro hnul
    rw [validate_of_null hhead hlen hnul] at h
    cases h
  obtain ⟨rest, rfl⟩ : ∃ rest, path = '/' :: rest := List.head?_eq_some_iff.mp hhead
  rw [validate_fields hlen hnul] at h
  exact not_infix_cons_of_fields (ne_nil_of_checkFields h)

/-- **`NormalizeForDisplay` collapses runs of slashes and changes nothing else.** It is
the identity exactly where there is no run, and so on what any validator accepts. -/
theorem normalizeForDisplay_spec (p : List Char) :
    ¬ ['/', '/'] <:+: normalizeForDisplay p ∧
      nonemptyFields '/' (normalizeForDisplay p) = nonemptyFields '/' p ∧
      ((normalizeForDisplay p).head? = some '/' ↔ p.head? = some '/') ∧
      ((normalizeForDisplay p).getLast? = some '/' ↔ p.getLast? = some '/') ∧
      normalizeForDisplay (normalizeForDisplay p) = normalizeForDisplay p ∧
      (normalizeForDisplay p = p ↔ ¬ ['/', '/'] <:+: p) ∧
      ∀ config, validate config p = .ok () → normalizeForDisplay p = p := by
  simp only [normalizeForDisplay_eq]
  refine ⟨not_infix_collapse, nonemptyFields_collapse, ?_, ?_, collapse_collapse,
    collapse_eq_self_iff, ?_⟩
  · rw [head?_collapse]
  · rw [getLast?_collapse]
  · intro config hok
    exact collapse_eq_self_iff.mpr (not_infix_of_validate hok)

/-- An accepted path with a slash at its end is displayed as it is. -/
theorem normalizeForDisplay_spec_accepted :
    validate {} "/a/b/".toList = .ok () ∧
      normalizeForDisplay "/a/b/".toList = "/a/b/".toList := by
  have hok : validate {} "/a/b/".toList = .ok () := by decide +kernel
  exact ⟨hok, (normalizeForDisplay_spec _).2.2.2.2.2.2 {} hok⟩

example : normalizeForDisplay "/a//b///c".toList = "/a/b/c".toList := by decide

end PathValidator

end NimbusFs.Common
