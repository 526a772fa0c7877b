import Mathlib.Algebra.BigOperators.Group.Finset.Basic
import Mathlib.Algebra.Order.BigOperators.Group.Finset
import Mathlib.Data.Fintype.BigOperators
import Mathlib.Logic.Relation

/-! # Monitors: a mutex with condition variables

A thread that calls an operation takes the mutex, and sleeps on a condition
variable as long as the guard of the operation is false. What it does with the
mutex held, from taking it until it sleeps or returns, is one step; in it other
threads may be signalled. A sleeper may also wake for no reason, or since its
time is up: woken threads are all alike, they take the mutex and look again.

The rule for lost wake-ups counts: as long as somebody sleeps on a condition
variable, there are at least as many woken threads that have not looked yet as
there is something for them to find. -/
namespace Lib

/-- Wake one thread that sleeps on a condition variable, or all of them. -/
inductive Signal (CV : Type)
  | one (c : CV)
  | all (c : CV)
deriving DecidableEq

/-- Operations on a shared state `Q`: what each waits on and until when, what it
does then, and what it returns if its time is up before. -/
structure Monitor (Q Op : Type) (Ret : Op → Type) (CV : Type) where
  waitsOn : Op → Option CV
  guard : Op → Q → Bool
  body : (o : Op) → Q → Ret o × Q × List (Signal CV)
  timedOut : (o : Op) → Option (Ret o)

/-- Where a thread is: outside, on its way to the mutex for the first time,
asleep, or woken and on its way to the mutex again. -/
inductive Phase (Op : Type)
  | idle
  | entering (o : Op)
  | asleep (o : Op)
  | awake (o : Op)

/-- The shared state, where the threads are, and what returned so far, in the
order of the mutex. -/
structure MonitorState (T Q Op : Type) (Ret : Op → Type) where
  shared : Q
  phase : T → Phase Op
  hist : List (T × Sigma Ret)

section Steps

variable {T Q Op CV : Type} {Ret : Op → Type} [DecidableEq T] [DecidableEq CV]

/-- All threads are outside. -/
def MonitorState.init (q : Q) : MonitorState T Q Op Ret := ⟨q, fun _ => .idle, []⟩

variable (m : Monitor Q Op Ret CV)

def Monitor.sleepsOn (c : CV) : Phase Op → Bool
  | .asleep o => m.waitsOn o = some c
  | _ => false

def Monitor.wokenFor (c : CV) : Phase Op → Bool
  | .awake o => m.waitsOn o = some c
  | _ => false

/-- `notify_one`: any one of the threads that sleep there, if there are any. -/
inductive NotifyOne (c : CV) : (T → Phase Op) → (T → Phase Op) → Prop
  | wake {f t o} : f t = .asleep o → m.waitsOn o = some c →
      NotifyOne c f (Function.update f t (.awake o))
  | nobody {f} : (∀ t, m.sleepsOn c (f t) = false) → NotifyOne c f f

/-- `notify_all`. -/
def notifyAll (c : CV) (f : T → Phase Op) (t : T) : Phase Op :=
  match f t with
  | .asleep o => if m.waitsOn o = some c then .awake o else .asleep o
  | p => p

/-- What signals do, one after the other. -/
def Signalled : List (Signal CV) → (T → Phase Op) → (T → Phase Op) → Prop
  | [], f, f' => f' = f
  | .one c :: rest, f, f' => ∃ f₁, NotifyOne m c f f₁ ∧ Signalled rest f₁ f'
  | .all c :: rest, f, f' => Signalled rest (notifyAll m c f) f'

/-- The thread is about to take the mutex for this operation. -/
def Phase.looks (p : Phase Op) (o : Op) : Prop := p = .entering o ∨ p = .awake o

/-- One step of one thread. -/
inductive MonitorStep : MonitorState T Q Op Ret → MonitorState T Q Op Ret → Prop
  | call {s t o} : s.phase t = .idle →
      MonitorStep s { s with phase := Function.update s.phase t (.entering o) }
  | sleep {s t o c} : (s.phase t).looks o → m.guard o s.shared = false → m.waitsOn o = some c →
      MonitorStep s { s with phase := Function.update s.phase t (.asleep o) }
  | finish {s t o f} : (s.phase t).looks o → m.guard o s.shared = true →
      Signalled m (m.body o s.shared).2.2 (Function.update s.phase t .idle) f →
      MonitorStep s ⟨(m.body o s.shared).2.1, f, s.hist ++ [(t, ⟨o, (m.body o s.shared).1⟩)]⟩
  | timeout {s t o r} : s.phase t = .awake o → m.guard o s.shared = false →
      m.timedOut o = some r →
      MonitorStep s { s with phase := Function.update s.phase t .idle,
                             hist := s.hist ++ [(t, ⟨o, r⟩)] }
  | wake {s t o} : s.phase t = .asleep o →
      MonitorStep s { s with phase := Function.update s.phase t (.awake o) }

/-- The states that threads can bring the monitor into. -/
def MonitorReachable (q : Q) (s : MonitorState T Q Op Ret) : Prop :=
  Relation.ReflTransGen (MonitorStep m) (MonitorState.init q) s

variable {m}

/-- What every body and every timeout keeps of the shared state and of what was
returned holds in every state. -/
theorem MonitorReachable.keeps {J : Q → List (T × Sigma Ret) → Prop} {q : Q}
    {s : MonitorState T Q Op Ret} (h : MonitorReachable m q s) (hinit : J q [])
    (hbody : ∀ t o q h, J q h → m.guard o q = true →
      J (m.body o q).2.1 (h ++ [(t, ⟨o, (m.body o q).1⟩)]))
    (htimeout : ∀ t o r q h, J q h → m.guard o q = false → m.timedOut o = some r →
      J q (h ++ [(t, ⟨o, r⟩)])) : J s.shared s.hist := by
  induction h with
  | refl => exact hinit
  | tail _ hs ih =>
    cases hs with
    | call _ => exact ih
    | sleep _ _ _ => exact ih
    | finish _ hg _ => exact hbody _ _ _ _ ih hg
    | timeout _ hg hr => exact htimeout _ _ _ _ _ ih hg hr
    | wake _ => exact ih

/-- A thread that is not put to sleep sleeps only where it did before. -/
theorem asleep_of_update {f : T → Phase Op} {t u : T} {p : Phase Op} {o : Op} (hp : p ≠ .asleep o)
    (ht : Function.update f u p t = .asleep o) : f t = .asleep o := by
  by_cases htu : t = u
  · rw [htu, Function.update_self] at ht
    exact absurd ht hp
  · rwa [Function.update_of_ne htu] at ht

theorem NotifyOne.asleep {c : CV} {f f' : T → Phase Op} (h : NotifyOne m c f f') {t : T} {o : Op}
    (ht : f' t = .asleep o) : f t = .asleep o := by
  cases h with
  | wake _ _ => exact asleep_of_update (by simp) ht
  | nobody _ => exact ht

omit [DecidableEq T] in
theorem notifyAll_asleep {c : CV} {f : T → Phase Op} {t : T} {o : Op}
    (ht : notifyAll m c f t = .asleep o) : f t = .asleep o := by
  unfold notifyAll at ht
  split at ht
  · rename_i o' ho'
    split at ht
    · cases ht
    · rw [ho', ht]
  · exact ht

theorem Signalled.asleep {sigs : List (Signal CV)} {f f' : T → Phase Op}
    (h : Signalled m sigs f f') {t : T} {o : Op} (ht : f' t = .asleep o) : f t = .asleep o := by
  induction sigs generalizing f with
  | nil => rwa [show f' = f from h] at ht
  | cons sig rest ih =>
    cases sig with
    | one c =>
      obtain ⟨f₁, h₁, h⟩ := h
      exact h₁.asleep (ih h)
    | all c => exact notifyAll_asleep (ih h)

/-- Only an operation that waits on something ever sleeps. -/
theorem MonitorReachable.waits {q : Q} {s : MonitorState T Q Op Ret}
    (h : MonitorReachable m q s) {t : T} {o : Op} (ht : s.phase t = .asleep o) :
    ∃ c, m.waitsOn o = some c := by
  induction h generalizing t o with
  | refl => cases ht
  | tail _ hs ih =>
    cases hs with
    | call _ => exact ih (asleep_of_update (by simp) ht)
    | @sleep u o' c _ _ hw =>
      by_cases htu : t = u
      · subst htu
        obtain rfl : o' = o := by simpa using ht
        exact ⟨c, hw⟩
      · exact ih (by simpa [htu] using ht)
    | finish _ _ hsig => exact ih (asleep_of_update (by simp) (hsig.asleep ht))
    | timeout _ _ _ => exact ih (asleep_of_update (by simp) ht)
    | wake _ => exact ih (asleep_of_update (by simp) ht)

end Steps

/-! ## Counting threads -/

section Counting

variable {T Op : Type} [Fintype T]

/-- How many threads are in such a phase. -/
def countThreads (p : Phase Op → Bool) (f : T → Phase Op) : Nat := ∑ t, (p (f t)).toNat

theorem countThreads_update [DecidableEq T] (p : Phase Op → Bool) (f : T → Phase Op) (t : T)
    (x : Phase Op) :
    countThreads p (Function.update f t x) + (p (f t)).toNat =
      countThreads p f + (p x).toNat := by
  have hsplit : ∀ g : T → Phase Op,
      countThreads p g = (p (g t)).toNat + ∑ u ∈ Finset.univ.erase t, (p (g u)).toNat :=
    fun g => (Finset.add_sum_erase Finset.univ (fun u => (p (g u)).toNat) (Finset.mem_univ t)).symm
  have hrest : ∑ u ∈ Finset.univ.erase t, (p (Function.update f t x u)).toNat =
      ∑ u ∈ Finset.univ.erase t, (p (f u)).toNat := by
    refine Finset.sum_congr rfl fun u hu => ?_
    rw [Function.update_of_ne (Finset.ne_of_mem_erase hu)]
  rw [hsplit, hsplit f, hrest, Function.update_self]
  omega

theorem countThreads_pos {p : Phase Op → Bool} {f : T → Phase Op} :
    0 < countThreads p f ↔ ∃ t, p (f t) = true := by
  unfold countThreads
  rw [Nat.pos_iff_ne_zero, ne_eq, Finset.sum_eq_zero_iff]
  simp

end Counting

/-! ## No lost wake-ups -/

section WakeUps

variable {T Q Op CV : Type} {Ret : Op → Type} [DecidableEq T] [DecidableEq CV]

/-- What the rule needs of a monitor: `avail c q` says how many threads that wait
on `c` can find their guard true one after the other, and once `closed` holds all
of them can. A false guard means that nothing is available. A body leaves no more
than what it found, what it signalled for, less what it took itself; and when it
closes the monitor it wakes everybody. -/
structure Monitor.Signals (m : Monitor Q Op Ret CV) (avail : CV → Q → Nat) (closed : Q → Prop) :
    Prop where
  blocked : ∀ o q c, m.guard o q = false → m.waitsOn o = some c → ¬ closed q ∧ avail c q = 0
  stays : ∀ o q, m.guard o q = true → closed q → closed (m.body o q).2.1
  closes : ∀ o q, m.guard o q = true → ¬ closed q → closed (m.body o q).2.1 →
    ∀ c, .all c ∈ (m.body o q).2.2
  supplies : ∀ o q c, m.guard o q = true → ¬ closed (m.body o q).2.1 →
    avail c (m.body o q).2.1 + (if m.waitsOn o = some c then 1 else 0) ≤
      avail c q + (m.body o q).2.2.count (.one c)

variable {m : Monitor Q Op Ret CV}

omit [DecidableEq T] in
theorem sleepsOn_notifyAll (c c' : CV) (f : T → Phase Op) (t : T) :
    m.sleepsOn c' (notifyAll m c f t) = (m.sleepsOn c' (f t) && decide (c ≠ c')) := by
  unfold notifyAll
  cases f t with
  | asleep o =>
    dsimp only
    split
    · rename_i ho
      by_cases hcc : c = c' <;> simp [Monitor.sleepsOn, ho, hcc]
    · rename_i ho
      by_cases hcc : c = c'
      · subst hcc; simp [Monitor.sleepsOn, ho]
      · simp [Monitor.sleepsOn, hcc]
  | idle => simp [Monitor.sleepsOn]
  | entering o => simp [Monitor.sleepsOn]
  | awake o => simp [Monitor.sleepsOn]

omit [DecidableEq T] in
theorem wokenFor_notifyAll (c c' : CV) (f : T → Phase Op) (t : T)
    (h : m.wokenFor c' (f t) = true) : m.wokenFor c' (notifyAll m c f t) = true := by
  unfold notifyAll
  cases hf : f t with
  | awake o => rw [hf] at h; exact h
  | asleep o => rw [hf] at h; cases h
  | idle => rw [hf] at h; cases h
  | entering o => rw [hf] at h; cases h

variable [Fintype T]

/-- While somebody sleeps on `c`, at least `k` threads have been woken for it. -/
def Covered (m : Monitor Q Op Ret CV) (c : CV) (k : Nat) (f : T → Phase Op) : Prop :=
  0 < countThreads (m.sleepsOn c) f → k ≤ countThreads (m.wokenFor c) f

theorem NotifyOne.counts {c : CV} {f f' : T → Phase Op} (h : NotifyOne m c f f') (c' : CV) :
    countThreads (m.sleepsOn c') f' ≤ countThreads (m.sleepsOn c') f ∧
    countThreads (m.wokenFor c') f ≤ countThreads (m.wokenFor c') f' := by
  cases h with
  | @wake t o ht hc =>
    have hs := countThreads_update (m.sleepsOn c') f t (.awake o)
    have hw := countThreads_update (m.wokenFor c') f t (.awake o)
    simp only [ht, Monitor.sleepsOn, Monitor.wokenFor, Bool.toNat_false] at hs hw
    omega
  | nobody _ => exact ⟨le_refl _, le_refl _⟩

theorem NotifyOne.covered {c c' : CV} {k : Nat} {f f' : T → Phase Op} (h : NotifyOne m c f f')
    (hk : Covered m c' k f) : Covered m c' (k + if c = c' then 1 else 0) f' := by
  intro hpos
  have hcounts := h.counts c'
  have hk := hk (Nat.lt_of_lt_of_le hpos hcounts.1)
  by_cases hcc : c = c'
  · subst hcc
    rw [if_pos rfl]
    cases h with
    | @wake t o ht hc =>
      have hw := countThreads_update (m.wokenFor c) f t (.awake o)
      simp only [ht, Monitor.wokenFor, hc, decide_true, Bool.toNat_true, Bool.toNat_false] at hw
      omega
    | nobody hnone =>
      obtain ⟨t, ht⟩ := countThreads_pos.mp hpos
      rw [hnone t] at ht
      cases ht
  · rw [if_neg hcc]
    exact hk.trans hcounts.2

omit [DecidableEq T] in
theorem notifyAll_counts (c c' : CV) (f : T → Phase Op) :
    countThreads (m.sleepsOn c') (notifyAll m c f) ≤ countThreads (m.sleepsOn c') f ∧
    countThreads (m.wokenFor c') f ≤ countThreads (m.wokenFor c') (notifyAll m c f) := by
  constructor
  · refine Finset.sum_le_sum fun t _ => ?_
    rw [sleepsOn_notifyAll]
    cases m.sleepsOn c' (f t) <;> simp [Bool.toNat_le]
  · refine Finset.sum_le_sum fun t _ => ?_
    cases h : m.wokenFor c' (f t) with
    | false => simp
    | true => rw [wokenFor_notifyAll c c' f t h]

/-- Signals put nobody to sleep. -/
theorem Signalled.sleeps_le {c : CV} {sigs : List (Signal CV)} {f f' : T → Phase Op}
    (h : Signalled m sigs f f') :
    countThreads (m.sleepsOn c) f' ≤ countThreads (m.sleepsOn c) f := by
  induction sigs generalizing f with
  | nil => rw [show f' = f from h]
  | cons sig rest ih =>
    cases sig with
    | one c' =>
      obtain ⟨f₁, h₁, h⟩ := h
      exact (ih h).trans (h₁.counts c).1
    | all c' => exact (ih h).trans (notifyAll_counts c' c f).1

/-- A signal to all of `c` leaves nobody asleep there. -/
theorem Signalled.sleeps_zero {c : CV} {sigs : List (Signal CV)} {f f' : T → Phase Op}
    (h : Signalled m sigs f f') (hall : .all c ∈ sigs) :
    countThreads (m.sleepsOn c) f' = 0 := by
  induction sigs generalizing f with
  | nil => cases hall
  | cons sig rest ih =>
    cases sig with
    | one c' =>
      obtain ⟨f₁, _, h⟩ := h
      exact ih h (by simpa using hall)
    | all c' =>
      by_cases hcc : c' = c
      · subst hcc
        have hle := Signalled.sleeps_le (c := c') (show Signalled m rest (notifyAll m c' f) f' from h)
        have hzero : countThreads (m.sleepsOn c') (notifyAll m c' f) = 0 := by
          refine Finset.sum_eq_zero fun t _ => ?_
          rw [sleepsOn_notifyAll]
          simp
        omega
      · refine ih h ?_
        rcases List.mem_cons.mp hall with heq | hmem
        · cases heq; exact absurd rfl hcc
        · exact hmem

/-- Each signal to one of `c` covers one thread more. -/
theorem Signalled.covered {c : CV} {k : Nat} {sigs : List (Signal CV)} {f f' : T → Phase Op}
    (h : Signalled m sigs f f') (hk : Covered m c k f) :
    Covered m c (k + sigs.count (.one c)) f' := by
  induction sigs generalizing f k with
  | nil => rw [show f' = f from h]; exact hk
  | cons sig rest ih =>
    cases sig with
    | one c' =>
      obtain ⟨f₁, h₁, h⟩ := h
      have hrest := ih h (h₁.covered hk)
      rw [List.count_cons]
      convert hrest using 1
      by_cases hcc : c' = c
      · simp only [hcc, beq_self_eq_true, if_true]
        omega
      · simp [hcc]
    | all c' =>
      have hcounts := notifyAll_counts (m := m) c' c f
      have hrest := ih h fun hpos => (hk (Nat.lt_of_lt_of_le hpos hcounts.1)).trans hcounts.2
      rw [List.count_cons_of_ne (by simp)]
      exact hrest

/-- Nobody sleeps in a closed monitor, and in an open one those that sleep are
covered for all that is available. -/
def WakeInv (m : Monitor Q Op Ret CV) (avail : CV → Q → Nat) (closed : Q → Prop)
    (s : MonitorState T Q Op Ret) : Prop :=
  ∀ c, (closed s.shared → countThreads (m.sleepsOn c) s.phase = 0) ∧
    (¬ closed s.shared → Covered m c (avail c s.shared) s.phase)

variable {avail : CV → Q → Nat} {closed : Q → Prop}

/-- A thread that neither sleeps on `c` nor is woken for it may go anywhere else. -/
theorem counts_update_other {c : CV} {f : T → Phase Op} {t : T} {x : Phase Op}
    (hs : m.sleepsOn c (f t) = false) (hw : m.wokenFor c (f t) = false)
    (hs' : m.sleepsOn c x = false) (hw' : m.wokenFor c x = false) :
    countThreads (m.sleepsOn c) (Function.update f t x) = countThreads (m.sleepsOn c) f ∧
    countThreads (m.wokenFor c) (Function.update f t x) = countThreads (m.wokenFor c) f := by
  have h₁ := countThreads_update (m.sleepsOn c) f t x
  have h₂ := countThreads_update (m.wokenFor c) f t x
  simp only [hs, hw, hs', hw', Bool.toNat_false] at h₁ h₂
  exact ⟨h₁, h₂⟩

omit [DecidableEq T] [Fintype T] in
theorem Phase.looks.sleepsOn {p : Phase Op} {o : Op} (h : p.looks o) (c : CV) :
    m.sleepsOn c p = false := by
  rcases h with rfl | rfl <;> rfl

omit [DecidableEq T] [Fintype T] in
theorem Phase.looks.wokenFor {p : Phase Op} {o : Op} (h : p.looks o) {c : CV}
    (hc : m.waitsOn o ≠ some c) : m.wokenFor c p = false := by
  rcases h with rfl | rfl
  · rfl
  · simp [Monitor.wokenFor, hc]

/-- A thread that looked and goes away takes at most its own part of the cover. -/
theorem Phase.looks.covered {o : Op} {c : CV} {k : Nat} {f : T → Phase Op} {t : T}
    (h : (f t).looks o) (hk : Covered m c k f) :
    Covered m c (k - if m.waitsOn o = some c then 1 else 0) (Function.update f t .idle) := by
  have h₁ := countThreads_update (m.sleepsOn c) f t .idle
  have h₂ := countThreads_update (m.wokenFor c) f t .idle
  have hle := Bool.toNat_le (m.wokenFor c (f t))
  rw [h.sleepsOn] at h₁
  simp only [show m.sleepsOn c (.idle : Phase Op) = false from rfl,
    show m.wokenFor c (.idle : Phase Op) = false from rfl, Bool.toNat_false, Nat.add_zero] at h₁ h₂
  intro hpos
  have hk := hk (h₁ ▸ hpos)
  by_cases hc : m.waitsOn o = some c
  · rw [if_pos hc]
    omega
  · rw [h.wokenFor hc, Bool.toNat_false] at h₂
    rw [if_neg hc]
    omega

theorem WakeInv.finish {s : MonitorState T Q Op Ret} (hm : m.Signals avail closed)
    (hinv : WakeInv m avail closed s) {t : T} {o : Op} {f : T → Phase Op}
    (hlooks : (s.phase t).looks o) (hg : m.guard o s.shared = true)
    (hsig : Signalled m (m.body o s.shared).2.2 (Function.update s.phase t .idle) f) (c : CV) :
    (closed (m.body o s.shared).2.1 → countThreads (m.sleepsOn c) f = 0) ∧
      (¬ closed (m.body o s.shared).2.1 → Covered m c (avail c (m.body o s.shared).2.1) f) := by
  obtain ⟨hclosed, hopen⟩ := hinv c
  have hsame := countThreads_update (m.sleepsOn c) s.phase t .idle
  rw [hlooks.sleepsOn, show m.sleepsOn c (.idle : Phase Op) = false from rfl] at hsame
  constructor
  · intro hc'
    by_cases hc : closed s.shared
    · have hle := hsig.sleeps_le (c := c)
      have hzero := hclosed hc
      omega
    · exact hsig.sleeps_zero (hm.closes o _ hg hc hc' c)
  · intro hc'
    have hc : ¬ closed s.shared := fun hc => hc' (hm.stays o _ hg hc)
    have hsup := hm.supplies o s.shared c hg hc'
    intro hpos
    have := hsig.covered (hlooks.covered (hopen hc)) hpos
    omega

/-- One step keeps the sleepers covered. -/
theorem WakeInv.step {s s' : MonitorState T Q Op Ret} (hm : m.Signals avail closed)
    (hinv : WakeInv m avail closed s) (h : MonitorStep m s s') : WakeInv m avail closed s' := by
  intro c
  obtain ⟨hclosed, hopen⟩ := hinv c
  cases h with
  | @call t o ht =>
    have hcounts := counts_update_other (m := m) (c := c) (f := s.phase) (t := t)
      (x := .entering o) (by rw [ht]; rfl) (by rw [ht]; rfl) rfl rfl
    simp only [Covered, hcounts.1, hcounts.2]
    exact ⟨hclosed, hopen⟩
  | @sleep t o c' hlooks hg hw =>
    obtain ⟨hno, hnone⟩ := hm.blocked o s.shared c' hg hw
    refine ⟨fun hc => absurd hc hno, fun hc => ?_⟩
    by_cases hcc : c' = c
    · subst hcc
      intro _
      simp [hnone]
    · have hwc : m.waitsOn o ≠ some c := by rw [hw]; simpa using hcc
      have hcounts := counts_update_other (m := m) (c := c) (f := s.phase) (t := t)
        (x := .asleep o) (hlooks.sleepsOn c) (hlooks.wokenFor hwc)
        (by simp [Monitor.sleepsOn, hwc]) rfl
      simp only [Covered, hcounts.1, hcounts.2]
      exact hopen hc
  | @finish t o f hlooks hg hsig => exact hinv.finish hm hlooks hg hsig c
  | @timeout t o r ht hg _ =>
    have hlooks : (s.phase t).looks o := .inr ht
    have hsame := countThreads_update (m.sleepsOn c) s.phase t .idle
    rw [hlooks.sleepsOn, show m.sleepsOn c (.idle : Phase Op) = false from rfl] at hsame
    refine ⟨fun hc => by have := hclosed hc; dsimp only; omega, fun hc => ?_⟩
    have hcov := hlooks.covered (hopen hc)
    by_cases hw : m.waitsOn o = some c
    · rw [(hm.blocked o s.shared c hg hw).2]
      exact fun _ => Nat.zero_le _
    · rw [if_neg hw] at hcov
      exact hcov
  | @wake t o ht =>
    have h₁ := countThreads_update (m.sleepsOn c) s.phase t (.awake o)
    have h₂ := countThreads_update (m.wokenFor c) s.phase t (.awake o)
    rw [ht, show m.sleepsOn c (.awake o) = false from rfl] at h₁
    rw [ht, show m.wokenFor c (.asleep o) = false from rfl] at h₂
    simp only [Bool.toNat_false, Nat.add_zero] at h₁ h₂
    refine ⟨fun hc => by have := hclosed hc; dsimp only; omega, fun hc hpos => ?_⟩
    have := hopen hc (by dsimp only at hpos; omega)
    dsimp only
    omega

theorem MonitorReachable.wakeInv (hm : m.Signals avail closed) {q : Q}
    {s : MonitorState T Q Op Ret} (h : MonitorReachable m q s) : WakeInv m avail closed s := by
  induction h with
  | refl =>
    intro c
    have hzero : countThreads (m.sleepsOn c) (fun _ : T => (.idle : Phase Op)) = 0 :=
      Finset.sum_eq_zero fun _ _ => rfl
    exact ⟨fun _ => hzero, fun _ hpos => absurd hzero (Nat.pos_iff_ne_zero.mp hpos)⟩
  | tail _ hs ih => exact ih.step hm hs

/-- **No wake-up is lost.** In every reachable state, if a thread sleeps on `c`
and the monitor is closed or something is available on `c`, then some thread was
woken for `c` and has not looked yet. -/
theorem MonitorReachable.no_lost_wakeup (hm : m.Signals avail closed) {q : Q}
    {s : MonitorState T Q Op Ret} (h : MonitorReachable m q s) {c : CV} {t : T}
    (hsleep : m.sleepsOn c (s.phase t) = true) (hfind : closed s.shared ∨ 0 < avail c s.shared) :
    ∃ u, m.wokenFor c (s.phase u) = true := by
  obtain ⟨hclosed, hopen⟩ := h.wakeInv hm c
  have hpos := countThreads_pos.mpr ⟨t, hsleep⟩
  by_cases hc : closed s.shared
  · exact absurd (hclosed hc) (Nat.pos_iff_ne_zero.mp hpos)
  · exact countThreads_pos.mp (Nat.lt_of_lt_of_le (hfind.resolve_left hc) (hopen hc hpos))

end WakeUps

end Lib
