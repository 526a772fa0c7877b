import Mathlib.Logic.Function.Basic
import Mathlib.Tactic.Push

/-! # Unique owners

Every resource of some set has one owner, and an owner has at most one resource. Owners
are variables, so a resource is acquired by a variable that has none, released by the
one that has it, or moved from one variable to another. -/
namespace Lib

variable {V N : Type} {own : V → Option N} {live : N → Prop} {u v : V} {n : N}

/-- The resources that are alive are those that are owned, each by one variable. -/
structure Exclusive (own : V → Option N) (live : N → Prop) : Prop where
  owner : ∀ n, live n ↔ ∃ v, own v = some n
  one : ∀ u v n, own u = some n → own v = some n → u = v

theorem Exclusive.none : Exclusive (fun _ : V => (none : Option N)) fun _ => False where
  owner n := by simp
  one u v n h := by cases h

variable [DecidableEq V]

/-- A variable that owns nothing acquires what is not alive. -/
theorem Exclusive.acquire (h : Exclusive own live) (hv : own v = Option.none) (hn : ¬ live n) :
    Exclusive (Function.update own v (some n)) fun m => m = n ∨ live m := by
  have hfree : ∀ u, own u ≠ some n := fun u hu => hn ((h.owner n).mpr ⟨u, hu⟩)
  have hold : ∀ {u m}, Function.update own v (some n) u = some m →
      (u = v ∧ m = n) ∨ (u ≠ v ∧ m ≠ n ∧ own u = some m) := by
    intro u m hu
    by_cases huv : u = v
    · subst huv
      rw [Function.update_self] at hu
      exact .inl ⟨rfl, (Option.some.inj hu).symm⟩
    · rw [Function.update_of_ne huv] at hu
      exact .inr ⟨huv, fun hm => hfree u (hm ▸ hu), hu⟩
  refine ⟨fun m => ⟨?_, ?_⟩, ?_⟩
  · rintro (rfl | hm)
    · exact ⟨v, Function.update_self ..⟩
    · obtain ⟨u, hu⟩ := (h.owner m).mp hm
      have huv : u ≠ v := by
        rintro rfl
        rw [hv] at hu
        cases hu
      exact ⟨u, by rw [Function.update_of_ne huv]; exact hu⟩
  · rintro ⟨u, hu⟩
    rcases hold hu with ⟨_, rfl⟩ | ⟨_, _, hu⟩
    · exact .inl rfl
    · exact .inr ((h.owner m).mpr ⟨u, hu⟩)
  · intro a b m ha hb
    rcases hold ha with ⟨rfl, rfl⟩ | ⟨_, hm, ha⟩
    · rcases hold hb with ⟨rfl, _⟩ | ⟨_, hm, _⟩
      · rfl
      · exact absurd rfl hm
    · rcases hold hb with ⟨_, rfl⟩ | ⟨_, _, hb⟩
      · exact absurd rfl hm
      · exact h.one a b m ha hb

/-- A variable releases what it owns, if anything. -/
theorem Exclusive.release (h : Exclusive own live) (v : V) :
    Exclusive (Function.update own v Option.none) fun m => live m ∧ own v ≠ some m := by
  have hold : ∀ {u m}, Function.update own v Option.none u = some m → u ≠ v ∧ own u = some m := by
    intro u m hu
    by_cases huv : u = v
    · subst huv
      rw [Function.update_self] at hu
      cases hu
    · rw [Function.update_of_ne huv] at hu
      exact ⟨huv, hu⟩
  refine ⟨fun m => ⟨?_, ?_⟩, ?_⟩
  · rintro ⟨hm, hv⟩
    obtain ⟨u, hu⟩ := (h.owner m).mp hm
    have huv : u ≠ v := by
      rintro rfl
      exact hv hu
    exact ⟨u, by rw [Function.update_of_ne huv]; exact hu⟩
  · rintro ⟨u, hu⟩
    obtain ⟨huv, hu⟩ := hold hu
    exact ⟨(h.owner m).mpr ⟨u, hu⟩, fun hv => huv (h.one u v m hu hv)⟩
  · intro a b m ha hb
    exact h.one a b m (hold ha).2 (hold hb).2

/-- What one variable owns moves to another that owns nothing. -/
theorem Exclusive.transfer (h : Exclusive own live) (hu : own u = Option.none) (hne : u ≠ v) :
    Exclusive (Function.update (Function.update own v Option.none) u (own v)) live := by
  have hrel := h.release v
  have hu' : Function.update own v Option.none u = Option.none := by
    rw [Function.update_of_ne hne, hu]
  cases hv : own v with
  | none =>
    rw [Function.update_eq_self_iff.mpr hu'.symm]
    simpa [hv] using hrel
  | some n =>
    have hlive : live n := (h.owner n).mpr ⟨v, hv⟩
    have hacq := hrel.acquire (n := n) hu' fun hn => hn.2 hv
    refine ⟨fun m => ?_, hacq.one⟩
    rw [← hacq.owner m, hv]
    constructor
    · intro hm
      by_cases hmn : m = n
      · exact .inl hmn
      · exact .inr ⟨hm, fun he => hmn (Option.some.inj he).symm⟩
    · rintro (rfl | hm)
      · exact hlive
      · exact hm.1

end Lib
