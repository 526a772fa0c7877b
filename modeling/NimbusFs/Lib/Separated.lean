import Mathlib.Data.List.Destutter

/-! # Lists with separators

A list is read as fields with separators between them. A separator at its very end
closes the last field and opens no other, so that a list with one and the list
without it have the same fields. `List.splitOn` has an empty field there. Of a run of
separators only the first one matters to the fields that are not empty. -/
namespace Lib

variable {α : Type} {sep : α} {xs ys f : List α} {l : List (List α)}

theorem getLast?_append_cons : (f ++ sep :: xs).getLast? = some sep ↔
    xs = [] ∨ xs.getLast? = some sep := by
  cases xs with
  | nil => simp
  | cons x xs => simp [List.getLast?_append]

variable [DecidableEq α]

/-- What stands between the separators; nothing is after the last one. -/
def fields (sep : α) (xs : List α) : List (List α) :=
  if (xs.splitOn sep).getLast? = some [] then (xs.splitOn sep).dropLast else xs.splitOn sep

/-- The fields are what `List.splitOn` finds, but for an empty one at the end. -/
theorem splitOn_eq_fields (sep : α) (xs : List α) :
    xs.splitOn sep = fields sep xs ∨ xs.splitOn sep = fields sep xs ++ [[]] := by
  unfold fields
  split
  · rename_i hlast
    exact .inr (List.dropLast_append_getLast? _ hlast).symm
  · exact .inl rfl

@[simp] theorem fields_nil : fields sep [] = [] := by simp [fields]

/-- A list without separators is one field. -/
theorem fields_of_notMem (h : sep ∉ xs) (hne : xs ≠ []) : fields sep xs = [xs] := by
  rw [fields, List.splitOn_eq_singleton h, if_neg (by simpa using hne)]

/-- The first separator ends the first field. -/
theorem fields_append_cons (h : sep ∉ f) : fields sep (f ++ sep :: xs) = f :: fields sep xs := by
  have hne := List.splitOn_ne_nil sep xs
  have hlast : (f :: xs.splitOn sep).getLast? = (xs.splitOn sep).getLast? := by
    rw [List.getLast?_cons_of_ne_nil hne]
  simp only [fields, List.splitOn_append_cons_self_of_not_mem h, hlast,
    List.dropLast_cons_of_ne_nil hne]
  split <;> rfl

/-- Induction along the fields of a list. -/
theorem fields_induction {motive : List α → Prop} (sep : α) (nil : motive [])
    (last : ∀ f, sep ∉ f → f ≠ [] → motive f)
    (cons : ∀ f xs, sep ∉ f → motive xs → motive (f ++ sep :: xs)) (xs : List α) : motive xs := by
  induction hn : xs.length using Nat.strongRecOn generalizing xs with
  | ind n ih =>
    by_cases hmem : sep ∈ xs
    · obtain ⟨f, rest, rfl, hf⟩ := List.eq_append_cons_of_mem hmem
      have hlen : rest.length < n := by
        rw [List.length_append, List.length_cons] at hn
        omega
      exact cons f rest hf (ih rest.length hlen rest rfl)
    · by_cases hne : xs = []
      · exact hne ▸ nil
      · exact last xs hmem hne

theorem fields_eq_nil : fields sep xs = [] ↔ xs = [] := by
  induction xs using fields_induction sep with
  | nil => simp
  | last f hf hne => simp [fields_of_notMem hf hne, hne]
  | cons f xs hf ih => simp [fields_append_cons hf]

/-- What is before a separator, empty parts at its end included, and what is after it. -/
theorem fields_append_sep : fields sep (xs ++ sep :: ys) = xs.splitOn sep ++ fields sep ys := by
  have hne := List.splitOn_ne_nil sep ys
  have hlast : (xs.splitOn sep ++ ys.splitOn sep).getLast? = (ys.splitOn sep).getLast? :=
    List.getLast?_append_of_ne_nil _ hne
  simp only [fields, List.splitOn_append_cons_self, hlast, List.dropLast_append_of_ne_nil hne]
  split <;> rfl

/-- `List.splitOn` has an empty part at the end where nothing follows the last separator. -/
theorem getLast?_splitOn : (xs.splitOn sep).getLast? = some [] ↔ xs = [] ∨ xs.getLast? = some sep := by
  induction xs using fields_induction sep with
  | nil => simp
  | last f hf hne =>
    have hopen : f.getLast? ≠ some sep := fun he => hf (List.mem_of_getLast? he)
    simp [List.splitOn_eq_singleton hf, hne, hopen]
  | cons f xs hf ih =>
    rw [List.splitOn_append_cons_self_of_not_mem hf,
      List.getLast?_cons_of_ne_nil (List.splitOn_ne_nil sep xs), ih, getLast?_append_cons]
    simp

/-- A list is given by its fields and by whether a separator ends it. -/
theorem eq_of_fields_eq (h : fields sep xs = fields sep ys)
    (hlast : xs.getLast? = some sep ↔ ys.getLast? = some sep) : xs = ys := by
  -- both lists are taken apart; a field at the end and one before a separator differ in `hlast`
  induction xs using fields_induction sep generalizing ys with
  | nil => exact (fields_eq_nil.mp (h.symm.trans fields_nil)).symm
  | last f hf hne =>
    have hopen : f.getLast? ≠ some sep := fun he => hf (List.mem_of_getLast? he)
    rw [fields_of_notMem hf hne] at h
    induction ys using fields_induction sep with
    | nil => simp at h
    | last g hg hne' =>
      rw [fields_of_notMem hg hne'] at h
      exact (List.cons.inj h).1
    | cons g ys hg _ =>
      rw [fields_append_cons hg] at h
      have hys := fields_eq_nil.mp (List.cons.inj h).2.symm
      exact absurd (hlast.mpr (getLast?_append_cons.mpr (.inl hys))) hopen
  | cons f xs hf ih =>
    rw [fields_append_cons hf] at h
    induction ys using fields_induction sep with
    | nil => simp at h
    | last g hg hne' =>
      have hopen : g.getLast? ≠ some sep := fun he => hg (List.mem_of_getLast? he)
      rw [fields_of_notMem hg hne'] at h
      have hxs := fields_eq_nil.mp (List.cons.inj h).2
      exact absurd (hlast.mp (getLast?_append_cons.mpr (.inl hxs))) hopen
    | cons g ys hg _ =>
      rw [fields_append_cons hg] at h
      obtain ⟨rfl, hrest⟩ := List.cons.inj h
      have hnil : xs = [] ↔ ys = [] := by
        rw [← fields_eq_nil, hrest]
        exact fields_eq_nil
      rw [getLast?_append_cons, getLast?_append_cons] at hlast
      have hlast' : xs.getLast? = some sep ↔ ys.getLast? = some sep := by
        by_cases hxs : xs = []
        · simp [hxs, hnil.mp hxs]
        · simpa [hxs, mt hnil.mpr hxs] using hlast
      rw [ih hrest hlast']

/-! ## Joined fields -/

/-- A list is its fields with separators between them, and perhaps one more at the end. -/
theorem eq_intercalate_fields (hne : xs ≠ []) :
    xs = [sep].intercalate (fields sep xs) ∨ xs = [sep].intercalate (fields sep xs) ++ [sep] := by
  induction xs using fields_induction sep with
  | nil => exact absurd rfl hne
  | last f hf hne => simp [fields_of_notMem hf hne]
  | cons f xs hf ih =>
    rw [fields_append_cons hf]
    by_cases hxs : xs = []
    · simp [hxs]
    · rw [List.intercalate_cons_of_ne_nil (mt fields_eq_nil.mp hxs)]
      rcases ih hxs with h | h
      · left
        rw [← h]
        simp
      · right
        rw [List.append_assoc, ← h]
        simp

/-- Joined fields are read back, with or without a separator at the end. -/
theorem fields_intercalate (hl : ∀ f ∈ l, sep ∉ f ∧ f ≠ []) (hne : l ≠ []) :
    fields sep ([sep].intercalate l) = l ∧ fields sep ([sep].intercalate l ++ [sep]) = l := by
  induction l with
  | nil => exact absurd rfl hne
  | cons f rest ih =>
    obtain ⟨hf, hrest⟩ := List.forall_mem_cons.mp hl
    by_cases hnil : rest = []
    · rw [hnil, List.intercalate_singleton, fields_of_notMem hf.1 hf.2, fields_append_cons hf.1]
      simp
    · obtain ⟨ih₁, ih₂⟩ := ih hrest hnil
      have hjoin : [sep].intercalate (f :: rest) = f ++ sep :: [sep].intercalate rest := by
        rw [List.intercalate_cons_of_ne_nil hnil, List.append_assoc, List.singleton_append]
      rw [hjoin, List.append_assoc, List.cons_append, fields_append_cons hf.1,
        fields_append_cons hf.1, ih₁, ih₂]
      exact ⟨rfl, rfl⟩

/-! ## Runs of separators -/

/-- Not both of them are separators. -/
def Apart (sep a b : α) : Prop := ¬ (a = sep ∧ b = sep)

instance (sep : α) : DecidableRel (Apart sep) := fun a b =>
  inferInstanceAs (Decidable (¬ (a = sep ∧ b = sep)))

/-- The list with each run of separators cut down to the first one. -/
def collapse (sep : α) (xs : List α) : List α := xs.destutter (Apart sep)

/-- The fields that are not empty. -/
def nonemptyFields (sep : α) (xs : List α) : List (List α) := (xs.splitOn sep).filter (· ≠ [])

theorem nonemptyFields_append_cons :
    nonemptyFields sep (f ++ sep :: xs) = nonemptyFields sep f ++ nonemptyFields sep xs := by
  rw [nonemptyFields, List.splitOn_append_cons_self, List.filter_append]
  rfl

omit [DecidableEq α] in
theorem isChain_apart_iff : xs.IsChain (Apart sep) ↔ ¬ [sep, sep] <:+: xs := by
  rw [List.isChain_iff_forall_rel_of_append_cons_cons]
  constructor
  · rintro h ⟨before, after, rfl⟩
    exact h (List.append_assoc before [sep, sep] after) ⟨rfl, rfl⟩
  · rintro h a b before after rfl ⟨rfl, rfl⟩
    exact h ⟨before, after, by simp⟩

theorem not_infix_collapse : ¬ [sep, sep] <:+: collapse sep xs :=
  isChain_apart_iff.mp (List.isChain_destutter _ _)

theorem collapse_eq_self_iff : collapse sep xs = xs ↔ ¬ [sep, sep] <:+: xs :=
  (List.destutter_eq_self_iff _ _).trans isChain_apart_iff

theorem collapse_collapse : collapse sep (collapse sep xs) = collapse sep xs :=
  List.destutter_idem _ _

/-- The first element stays; what is dropped is a separator after one. -/
theorem head?_collapse : (collapse sep xs).head? = xs.head? := by
  cases xs with
  | nil => rfl
  | cons a xs =>
    rw [collapse, List.destutter_cons']
    induction xs with
    | nil => rfl
    | cons b xs ih =>
      by_cases h : Apart sep a b
      · rw [List.destutter'_cons_pos _ h]
        rfl
      · rw [List.destutter'_cons_neg _ h]
        exact ih

/-- A separator that is dropped at the end leaves one there. -/
theorem getLast?_destutter' {a : α} :
    (xs.destutter' (Apart sep) a).getLast? = (a :: xs).getLast? := by
  induction xs generalizing a with
  | nil => rfl
  | cons b xs ih =>
    rw [List.getLast?_cons_cons]
    by_cases h : Apart sep a b
    · rw [List.destutter'_cons_pos _ h, ← ih]
      exact List.getLast?_cons_of_ne_nil (List.destutter'_ne_nil _ _)
    · obtain ⟨rfl, rfl⟩ := not_not.mp h
      rw [List.destutter'_cons_neg _ h, ih]

theorem getLast?_collapse : (collapse sep xs).getLast? = xs.getLast? := by
  cases xs with
  | nil => rfl
  | cons a xs => exact getLast?_destutter'

/-- After whatever comes before, a list that is collapsed has the same non-empty fields. -/
theorem nonemptyFields_destutter' {a : α} :
    nonemptyFields sep (f ++ xs.destutter' (Apart sep) a) = nonemptyFields sep (f ++ a :: xs) := by
  -- what comes before grows by what is kept, so that only a dropped separator is left to see
  induction xs generalizing f a with
  | nil => rfl
  | cons b xs ih =>
    by_cases h : Apart sep a b
    · rw [List.destutter'_cons_pos _ h, List.append_cons, ih, ← List.append_cons]
    · obtain ⟨rfl, rfl⟩ := not_not.mp h
      have hdrop : nonemptyFields b (b :: xs) = nonemptyFields b xs :=
        nonemptyFields_append_cons (f := [])
      rw [List.destutter'_cons_neg _ h, ih, nonemptyFields_append_cons,
        nonemptyFields_append_cons, hdrop]

/-- Collapsing runs keeps the fields that are not empty. -/
theorem nonemptyFields_collapse : nonemptyFields sep (collapse sep xs) = nonemptyFields sep xs := by
  cases xs with
  | nil => rfl
  | cons a xs => exact nonemptyFields_destutter' (f := [])

omit [DecidableEq α] in
theorem not_infix_cons_of_notMem (h : sep ∉ xs) : ¬ [sep, sep] <:+: sep :: xs := by
  intro hpair
  have hsub : [sep].Sublist xs := List.cons_sublist_cons.mp hpair.sublist
  exact h (List.singleton_sublist.mp hsub)

/-- Where no field is empty, no two separators meet, also with one before the list. -/
theorem not_infix_cons_of_fields (h : ∀ f ∈ fields sep xs, f ≠ []) :
    ¬ [sep, sep] <:+: sep :: xs := by
  rw [← isChain_apart_iff]
  induction xs using fields_induction sep with
  | nil => exact .singleton _
  | last f hf hne => exact isChain_apart_iff.mpr (not_infix_cons_of_notMem hf)
  | cons f xs hf ih =>
    rw [fields_append_cons hf] at h
    obtain ⟨hne, hrest⟩ := List.forall_mem_cons.mp h
    rw [← List.cons_append, List.isChain_append]
    refine ⟨isChain_apart_iff.mpr (not_infix_cons_of_notMem hf), ih hrest, ?_⟩
    -- the separator after `f` meets the last element of `f`, which is none
    rintro x hx y - ⟨rfl, -⟩
    rw [List.getLast?_cons_of_ne_nil hne] at hx
    exact hf (List.mem_of_getLast? hx)

end Lib
