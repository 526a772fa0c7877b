import Mathlib.Data.List.Infix

/-! # Sending a list over a stream

A sender cuts what it has into pieces of one size and writes them one by one. It
stops at the first piece that the other side refuses to take. -/
namespace Lib

variable {α : Type}

/-! ## Slices -/

/-- Cut into pieces of `k`; only the last one may be shorter. -/
def slices (k : Nat) (l : List α) : List (List α) :=
  if _h : l = [] ∨ k = 0 then [] else l.take k :: slices k (l.drop k)
termination_by l.length
decreasing_by
  have : 0 < l.length := List.length_pos_of_ne_nil fun h => _h (.inl h)
  simp only [List.length_drop]
  omega

@[simp] theorem slices_nil (k : Nat) : slices k ([] : List α) = [] := by
  rw [slices, dif_pos (.inl rfl)]

theorem slices_of_ne_nil {k : Nat} (hk : 0 < k) {l : List α} (h : l ≠ []) :
    slices k l = l.take k :: slices k (l.drop k) := by
  rw [slices, dif_neg (by simp [h]; omega)]

/-- The pieces together are the list. -/
theorem flatten_slices {k : Nat} (hk : 0 < k) (l : List α) : (slices k l).flatten = l := by
  fun_induction slices k l with
  | case1 l h =>
    rcases h with rfl | rfl
    · rfl
    · exact absurd hk (Nat.lt_irrefl 0)
  | case2 l h ih => rw [List.flatten_cons, ih, List.take_append_drop]

theorem length_of_mem_slices {k : Nat} {l x : List α} (hx : x ∈ slices k l) :
    1 ≤ x.length ∧ x.length ≤ k := by
  fun_induction slices k l with
  | case1 l h => simp at hx
  | case2 l h ih =>
    rw [not_or] at h
    have hl : 0 < l.length := List.length_pos_of_ne_nil h.1
    rcases List.mem_cons.mp hx with rfl | hx
    · rw [List.length_take]
      omega
    · exact ih hx

/-- A piece with another one after it has the full size. -/
theorem length_of_mem_dropLast_slices {k : Nat} {l x : List α}
    (hx : x ∈ (slices k l).dropLast) : x.length = k := by
  fun_induction slices k l with
  | case1 l h => simp at hx
  | case2 l h ih =>
    by_cases hrest : slices k (l.drop k) = []
    · simp [hrest] at hx
    · rw [List.dropLast_cons_of_ne_nil hrest] at hx
      rcases List.mem_cons.mp hx with rfl | hx
      · have hdrop : l.drop k ≠ [] := fun hnil => hrest (by rw [hnil, slices_nil])
        rw [List.length_take]
        have := List.length_pos_of_ne_nil hdrop
        rw [List.length_drop] at this
        omega
      · exact ih hx

/-! ## Attempts -/

/-- The messages are written in order, each with the answer to it, up to the
first one that is refused. -/
def Attempts : List α → List (α × Bool) → Prop
  | [], w => w = []
  | m :: rest, w => w = [(m, false)] ∨ ∃ w', w = (m, true) :: w' ∧ Attempts rest w'

theorem Attempts.written_isPrefix {ms : List α} {w : List (α × Bool)} (h : Attempts ms w) :
    w.map Prod.fst <+: ms := by
  induction ms generalizing w with
  | nil => cases h; exact List.nil_prefix
  | cons m rest ih =>
    rcases h with rfl | ⟨w', rfl, h⟩
    · exact ⟨rest, rfl⟩
    · exact (List.prefix_cons_inj m).mpr (ih h)

/-- Where nothing is refused, everything was written. -/
theorem Attempts.written_eq {ms : List α} {w : List (α × Bool)} (h : Attempts ms w)
    (hall : ∀ x ∈ w, x.2 = true) : w.map Prod.fst = ms := by
  induction ms generalizing w with
  | nil => cases h; rfl
  | cons m rest ih =>
    rcases h with rfl | ⟨w', rfl, h⟩
    · exact absurd (hall _ List.mem_cons_self) (by simp)
    · rw [List.map_cons, ih h fun x hx => hall x (List.mem_cons_of_mem _ hx)]

end Lib
