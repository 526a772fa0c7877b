import Mathlib.Tactic.Ring
import NimbusFs.Lib.Monitor

/-! # Monitors come to rest

Leave out new calls, and threads that wake for no reason. What remains are the steps
in which a thread takes the mutex and returns or goes to sleep. Each of them brings the
monitor closer to rest: either fewer threads are inside, or fewer of them are about to
look. And where no such step is possible, whoever is inside sleeps for a reason. -/
namespace Lib

section Progress

variable {T Q Op CV : Type} {Ret : Op → Type} [DecidableEq T] [DecidableEq CV]

/-- A thread takes the mutex, and sleeps, finishes, or finds that its time is up. -/
inductive Advances (m : Monitor Q Op Ret CV) :
    MonitorState T Q Op Ret → MonitorState T Q Op Ret → Prop
  | sleep {s t o c} : (s.phase t).looks o → m.guard o s.shared = false → m.waitsOn o = some c →
      Advances m s { s with phase := Function.update s.phase t (.asleep o) }
  | finish {s t o f} : (s.phase t).looks o → m.guard o s.shared = true →
      Signalled m (m.body o s.shared).2.2 (Function.update s.phase t .idle) f →
      Advances m s ⟨(m.body o s.shared).2.1, f, s.hist ++ [(t, ⟨o, (m.body o s.shared).1⟩)]⟩
  | timeout {s t o r} : s.phase t = .awake o → m.guard o s.shared = false →
      m.timedOut o = some r →
      Advances m s { s with phase := Function.update s.phase t .idle,
                            hist := s.hist ++ [(t, ⟨o, r⟩)] }

variable {m : Monitor Q Op Ret CV} {s s' : MonitorState T Q Op Ret}

theorem Advances.step (h : Advances m s s') : MonitorStep m s s' := by
  cases h with
  | sleep hlooks hg hw => exact .sleep hlooks hg hw
  | finish hlooks hg hsig => exact .finish hlooks hg hsig
  | timeout ht hg hr => exact .timeout ht hg hr

theorem MonitorReachable.advances {q : Q} (h : MonitorReachable m q s)
    (ha : Relation.ReflTransGen (Advances m) s s') : MonitorReachable m q s' := by
  induction ha with
  | refl => exact h
  | tail _ hs ih => exact ih.tail hs.step

/-! ## Every step counts -/

/-- The thread is in an operation. -/
def Phase.inside : Phase Op → Bool
  | .idle => false
  | _ => true

/-- The thread is about to take the mutex. -/
def Phase.looking : Phase Op → Bool
  | .entering _ | .awake _ => true
  | _ => false

omit [DecidableEq T] [DecidableEq CV] in
theorem Phase.looks.inside {p : Phase Op} {o : Op} (h : p.looks o) :
    p.inside = true ∧ p.looking = true := by
  rcases h with rfl | rfl
  · exact ⟨rfl, rfl⟩
  · exact ⟨rfl, rfl⟩

variable [Fintype T]

omit [DecidableEq T] in
theorem countThreads_le (p : Phase Op → Bool) (f : T → Phase Op) :
    countThreads p f ≤ Fintype.card T := by
  have h : ∑ t : T, (p (f t)).toNat ≤ ∑ _t : T, 1 := Finset.sum_le_sum fun t _ => Bool.toNat_le _
  simpa [countThreads] using h

/-- Signals bring nobody in or out. -/
theorem Signalled.inside {sigs : List (Signal CV)} {f f' : T → Phase Op}
    (h : Signalled m sigs f f') : countThreads Phase.inside f' = countThreads Phase.inside f := by
  induction sigs generalizing f with
  | nil => rw [show f' = f from h]
  | cons sig rest ih =>
    cases sig with
    | one c =>
      obtain ⟨f₁, h₁, h⟩ := h
      rw [ih h]
      cases h₁ with
      | @wake t o ht _ =>
        have hcount := countThreads_update Phase.inside f t (.awake o)
        rw [ht] at hcount
        simpa [Phase.inside] using hcount
      | nobody _ => rfl
    | all c =>
      rw [ih h]
      refine Finset.sum_congr rfl fun t _ => ?_
      unfold notifyAll
      cases f t with
      | asleep o =>
        dsimp only
        split
        · rfl
        · rfl
      | _ => rfl

/-- How far the monitor is from rest: those inside weigh more than all that look. -/
def unrest (f : T → Phase Op) : Nat :=
  countThreads Phase.inside f * (Fintype.card T + 1) + countThreads Phase.looking f

omit [DecidableEq T] in
/-- A thread that leaves outweighs all the others it may wake. -/
theorem unrest_lt_of_leaves {f f' : T → Phase Op}
    (h : countThreads Phase.inside f' < countThreads Phase.inside f) : unrest f' < unrest f := by
  have hle := countThreads_le Phase.looking f'
  have hmul := Nat.mul_le_mul_right (Fintype.card T + 1) (Nat.succ_le_of_lt h)
  rw [Nat.succ_mul] at hmul
  unfold unrest
  omega

omit [DecidableEq CV] in
theorem Phase.looks.leaves {f : T → Phase Op} {t : T} {o : Op} (h : (f t).looks o) :
    countThreads Phase.inside (Function.update f t .idle) < countThreads Phase.inside f := by
  have hcount := countThreads_update Phase.inside f t .idle
  rw [h.inside.1] at hcount
  simp only [Phase.inside, Bool.toNat_true, Bool.toNat_false] at hcount
  omega

theorem Advances.unrest_lt (h : Advances m s s') : unrest s'.phase < unrest s.phase := by
  cases h with
  | @sleep t o c hlooks hg hw =>
    have hin := countThreads_update Phase.inside s.phase t (.asleep o)
    have hlook := countThreads_update Phase.looking s.phase t (.asleep o)
    rw [hlooks.inside.1] at hin
    rw [hlooks.inside.2] at hlook
    simp only [Phase.inside, Phase.looking, Bool.toNat_true, Bool.toNat_false] at hin hlook
    have hsame : countThreads Phase.inside (Function.update s.phase t (.asleep o)) =
        countThreads Phase.inside s.phase := by omega
    unfold unrest
    dsimp only
    rw [hsame]
    omega
  | @finish t o f hlooks hg hsig =>
    refine unrest_lt_of_leaves ?_
    rw [hsig.inside]
    exact hlooks.leaves
  | @timeout t o r ht hg hr => exact unrest_lt_of_leaves (Phase.looks.leaves (.inr ht))

/-- A schedule of `n` such steps. -/
theorem advances_le_unrest {f : Nat → MonitorState T Q Op Ret} {n : Nat}
    (h : ∀ i, i < n → Advances m (f i) (f (i + 1))) : n + unrest (f n).phase ≤ unrest (f 0).phase := by
  induction n with
  | zero => omega
  | succ n ih =>
    have hprev := ih fun i hi => h i (by omega)
    have hlast := (h n (by omega)).unrest_lt
    omega

omit [DecidableEq T] in
theorem unrest_le (f : T → Phase Op) : unrest f ≤ Fintype.card T * (Fintype.card T + 2) := by
  have hin := Nat.mul_le_mul_right (Fintype.card T + 1) (countThreads_le Phase.inside f)
  have hlook := countThreads_le Phase.looking f
  have hmul : Fintype.card T * (Fintype.card T + 2) =
      Fintype.card T * (Fintype.card T + 1) + Fintype.card T := by ring
  unfold unrest
  omega

/-! ## Where nothing moves -/

omit [Fintype T] in
theorem exists_signalled (m : Monitor Q Op Ret CV) (sigs : List (Signal CV)) (f : T → Phase Op) :
    ∃ f', Signalled m sigs f f' := by
  induction sigs generalizing f with
  | nil => exact ⟨f, rfl⟩
  | cons sig rest ih =>
    cases sig with
    | one c =>
      by_cases hsome : ∃ t, m.sleepsOn c (f t) = true
      · obtain ⟨t, ht⟩ := hsome
        obtain ⟨o, ho, hw⟩ : ∃ o, f t = .asleep o ∧ m.waitsOn o = some c := by
          cases hp : f t with
          | asleep o =>
            rw [hp] at ht
            exact ⟨o, rfl, by simpa [Monitor.sleepsOn] using ht⟩
          | _ => rw [hp] at ht; cases ht
        obtain ⟨f', hf'⟩ := ih (Function.update f t (.awake o))
        exact ⟨f', _, .wake ho hw, hf'⟩
      · obtain ⟨f', hf'⟩ := ih f
        refine ⟨f', f, .nobody fun t => ?_, hf'⟩
        exact Bool.eq_false_iff.mpr fun ht => hsome ⟨t, ht⟩
    | all c =>
      obtain ⟨f', hf'⟩ := ih (notifyAll m c f)
      exact ⟨f', hf'⟩

omit [Fintype T] in
/-- Who is about to look can do so. -/
theorem exists_advances (hwait : ∀ o q, m.guard o q = false → ∃ c, m.waitsOn o = some c) {t : T}
    {o : Op} (h : (s.phase t).looks o) : ∃ s', Advances m s s' := by
  cases hg : m.guard o s.shared with
  | true =>
    obtain ⟨f, hf⟩ := exists_signalled m (m.body o s.shared).2.2 (Function.update s.phase t .idle)
    exact ⟨_, .finish h hg hf⟩
  | false =>
    obtain ⟨c, hw⟩ := hwait o s.shared hg
    exact ⟨_, .sleep h hg hw⟩

/-- **Where the monitor rests, every thread inside sleeps for a reason**: its guard is
false, and the monitor is not closed. -/
theorem MonitorReachable.at_rest {avail : CV → Q → Nat} {closed : Q → Prop}
    (hm : m.Signals avail closed)
    (hwait : ∀ o q, m.guard o q = false → ∃ c, m.waitsOn o = some c)
    (hfind : ∀ o q c, m.waitsOn o = some c → m.guard o q = true → closed q ∨ 0 < avail c q)
    {q : Q} (h : MonitorReachable m q s) (hrest : ∀ s', ¬ Advances m s s') (t : T) :
    s.phase t = .idle ∨
      ∃ o, s.phase t = .asleep o ∧ m.guard o s.shared = false ∧ ¬ closed s.shared := by
  have hnone : ∀ u o, ¬ (s.phase u).looks o := by
    intro u o hlooks
    obtain ⟨s', hs'⟩ := exists_advances hwait hlooks
    exact hrest s' hs'
  cases hp : s.phase t with
  | idle => exact .inl rfl
  | entering o => exact absurd (.inl hp) (hnone t o)
  | awake o => exact absurd (.inr hp) (hnone t o)
  | asleep o =>
    obtain ⟨c, hw⟩ := h.waits hp
    have hsleep : m.sleepsOn c (s.phase t) = true := by simp [hp, Monitor.sleepsOn, hw]
    have hnotfind : ¬ (closed s.shared ∨ 0 < avail c s.shared) := by
      intro hsome
      obtain ⟨u, hu⟩ := h.no_lost_wakeup hm hsleep hsome
      cases hpu : s.phase u with
      | awake o' => exact hnone u o' (.inr hpu)
      | _ => rw [hpu] at hu; cases hu
    refine .inr ⟨o, rfl, Bool.eq_false_iff.mpr fun hg => ?_, fun hc => hnotfind (.inl hc)⟩
    exact hnotfind (hfind o s.shared c hw hg)

end Progress

end Lib
