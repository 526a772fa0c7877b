import Mathlib.Data.DFinsupp.WellFounded
import NimbusFs.Lib.Layers

/-! # Every operation returns

Threads whose programs take locks in a disciplined way: at most one lock at a time,
though perhaps more than once where the lock allows it. Then a thread waits only for
one that does not wait, so the pool never gets stuck; and since every step consumes a
part of some program, it cannot go on forever either. What is started returns, under
every schedule. -/
namespace Lib

section Discipline

variable {T L C : Type} {R : C → Type} {S Op α β : Type} {Ret : Op → Type}
variable [DecidableEq L] {re : Bool} {held : L → Nat}

/-- `Orderly re held p`: holding the locks as `held` says, `p` asks for a lock only
when it holds no other, and asks for one it holds only if `re`; it releases what it
holds, and returns holding none, whatever its calls answer. -/
def Orderly (re : Bool) : (L → Nat) → Prog L C R α → Prop
  | held, .ret _ => ∀ l, held l = 0
  | held, .lock l k => (∀ l', l' ≠ l → held l' = 0) ∧ (held l ≠ 0 → re = true) ∧
      Orderly re (Function.update held l (held l + 1)) k
  | held, .unlock l k => held l ≠ 0 ∧ Orderly re (Function.update held l (held l - 1)) k
  | held, .call _ k => ∀ r, Orderly re held (k r)

theorem Orderly.bind {p : Prog L C R α} {f : α → Prog L C R β} (hp : Orderly re held p)
    (hf : ∀ a, Orderly re (fun _ => 0) (f a)) : Orderly re held (p >>= f) := by
  induction p generalizing held with
  | ret a =>
    obtain rfl : held = fun _ => 0 := funext hp
    exact hf a
  | lock l k ih => exact ⟨hp.1, hp.2.1, ih hp.2.2⟩
  | unlock l k ih => exact ⟨hp.1, ih hp.2⟩
  | call c k ih => exact fun r => ih r (hp r)

theorem LockFree.orderly_bind {p : Prog L C R α} {f : α → Prog L C R β} (hp : LockFree p)
    (hf : ∀ a, Orderly re held (f a)) : Orderly re held (p >>= f) := by
  induction p with
  | ret a => exact hf a
  | lock l k ih => exact hp.elim
  | unlock l k ih => exact hp.elim
  | call c k ih => exact fun r => ih r (hp r)

theorem Orderly.lift {E : Type} {RE : E → Type} {p : Prog L C R α} (hp : Orderly re held p) :
    Orderly re held (p.lift : Prog L (C ⊕ E) (Sum.elim R RE) α) := by
  induction p generalizing held with
  | ret a => exact hp
  | lock l k ih => exact ⟨hp.1, hp.2.1, ih hp.2.2⟩
  | unlock l k ih => exact ⟨hp.1, ih hp.2⟩
  | call c k ih => exact fun r => ih r (hp r)

theorem Concludes.orderly {E : Type} {RE : E → Type} {x : α}
    {p : Prog L (C ⊕ E) (Sum.elim R RE) α} (hp : Concludes x p) : Orderly re (fun _ => 0) p := by
  induction p with
  | ret a => exact fun _ => rfl
  | lock l k ih => exact hp.elim
  | unlock l k ih => exact hp.elim
  | call c k ih =>
    cases c with
    | inl c => exact hp.elim
    | inr e => exact fun r => ih r (hp r)

/-- The locks of the simple discipline. -/
def heldOnly (h : Option L) (l : L) : Nat := if h = some l then 1 else 0

theorem Disciplined.orderly {h : Option L} {p : Prog L C R α} (hp : Disciplined h p) :
    Orderly re (heldOnly h) p := by
  induction p generalizing h with
  | ret a =>
    obtain rfl : h = none := hp
    exact fun _ => rfl
  | lock l k ih =>
    obtain ⟨rfl, hk⟩ := hp
    have hnext : Function.update (heldOnly none) l (heldOnly none l + 1) = heldOnly (some l) := by
      funext l'
      by_cases hl : l' = l
      · subst hl; simp [heldOnly]
      · simp [heldOnly, hl, Ne.symm hl]
    refine ⟨fun _ _ => rfl, fun h => absurd rfl h, ?_⟩
    rw [hnext]
    exact ih hk
  | unlock l k ih =>
    obtain ⟨rfl, hk⟩ := hp
    have hnext : Function.update (heldOnly (some l)) l (heldOnly (some l) l - 1) = heldOnly none := by
      funext l'
      by_cases hl : l' = l
      · subst hl; simp [heldOnly]
      · simp [heldOnly, hl, Ne.symm hl]
    refine ⟨by simp [heldOnly], ?_⟩
    rw [hnext]
    exact ih hk
  | call c k ih => exact fun r => ih r (hp r)

/-! ## The locks of a run -/

/-- Each running thread holds its locks as its program says; a lock that is held is
held by a running thread. -/
structure InOrder [DecidableEq T] (re : Bool) (c : Config T L C R S Op Ret) : Prop where
  running : ∀ t n o p, c.thread t = some ⟨n, o, p⟩ → Orderly re (heldBy c t) p
  owned : ∀ l u d, c.owner l = some (u, d) → d ≠ 0 ∧ c.thread u ≠ none

variable [DecidableEq T] {sys : System L C R S Op Ret} {c c' : Config T L C R S Op Ret}

theorem InOrder.heldBy_idle (hc : InOrder re c) {t : T} (ht : c.thread t = none) :
    heldBy c t = fun _ => 0 := by
  funext l
  unfold heldBy
  cases hown : c.owner l with
  | none => rfl
  | some w =>
    have hne : w.1 ≠ t := fun h => (hc.owned l w.1 w.2 hown).2 (h ▸ ht)
    exact if_neg hne

/-- Where no operation runs, every lock is free. -/
theorem InOrder.free (hc : InOrder re c) (hidle : ∀ t, c.thread t = none) (l : L) :
    c.owner l = none := by
  cases hown : c.owner l with
  | none => rfl
  | some w => exact absurd (hidle w.1) (hc.owned l w.1 w.2 hown).2

/-- One thread goes on, and takes or releases a lock that no other thread holds. -/
theorem InOrder.relocked (hc : InOrder re c) {t : T} {n : Nat} {o : Op}
    {p : Prog L C R (Ret o)} {l : L} (m : Nat) (hother : ∀ u, u ≠ t → heldBy c u l = 0)
    (hp : Orderly re (Function.update (heldBy c t) l m) p) :
    InOrder re ((c.resume t n o p).setOwner l (if m = 0 then none else some (t, m))) := by
  refine ⟨fun u n' o' p' hu => ?_, fun l' u d hown => ?_⟩
  · by_cases hut : u = t
    · subst hut
      rw [setOwner_thread, resume_self] at hu
      cases hu
      rw [heldBy_setOwner_self]
      exact hp
    · rw [setOwner_thread, resume_ne c n o p hut] at hu
      rw [heldBy_setOwner_ne (c.resume t n o p) hut (hother u hut)]
      exact hc.running u n' o' p' hu
  · have hstay : c.thread u ≠ none → (c.resume t n o p).thread u ≠ none := by
      intro h
      by_cases hut : u = t
      · subst hut
        simp
      · rwa [resume_ne c n o p hut]
    by_cases hl : l' = l
    · subst hl
      by_cases hm : m = 0
      · simp [Config.setOwner, hm] at hown
      · simp only [Config.setOwner, Function.update_self, hm, if_false, Option.some.injEq,
          Prod.mk.injEq] at hown
        obtain ⟨rfl, rfl⟩ := hown
        exact ⟨hm, by simp⟩
    · have hown' : c.owner l' = some (u, d) := by simpa [Config.setOwner, hl] using hown
      obtain ⟨hd, hth⟩ := hc.owned l' u d hown'
      exact ⟨hd, hstay hth⟩

omit [DecidableEq L] in
theorem heldBy_of_owner {t : T} {l : L} {d : Nat} (hown : c.owner l = some (t, d)) :
    heldBy c t l = d ∧ ∀ u, u ≠ t → heldBy c u l = 0 :=
  ⟨by simp [heldBy, hown], fun u hu => by simp [heldBy, hown, Ne.symm hu]⟩

theorem InOrder.tstep (hc : InOrder re c) {t : T} (h : TStep sys t c c') : InOrder re c' := by
  cases h with
  | @lock n o l k hth hfree =>
    have hzero : ∀ u, heldBy c u l = 0 := fun u => by simp [heldBy, hfree]
    obtain ⟨_, _, hk⟩ := hc.running t _ _ _ hth
    rw [hzero t] at hk
    exact hc.relocked 1 (fun u _ => hzero u) hk
  | @relock n o l k d hth _ hown =>
    obtain ⟨hd, hother⟩ := heldBy_of_owner hown
    obtain ⟨_, _, hk⟩ := hc.running t _ _ _ hth
    rw [hd] at hk
    exact hc.relocked (d + 1) hother hk
  | @unlock n o l k d hth hown =>
    obtain ⟨hd, hother⟩ := heldBy_of_owner hown
    obtain ⟨_, hk⟩ := hc.running t _ _ _ hth
    rw [hd, Nat.add_sub_cancel] at hk
    exact hc.relocked d hother hk
  | @call n o a k r s' hth _ =>
    refine ⟨fun u n' o' p' hu => ?_, fun l u d hown => ?_⟩
    · by_cases hut : u = t
      · subst hut
        rw [show _ = some (Running.mk n o (k r)) from resume_self c u n o (k r)] at hu
        cases hu
        exact hc.running u n o _ hth r
      · rw [show _ = c.thread u from resume_ne c n o (k r) hut] at hu
        exact hc.running u n' o' p' hu
    · refine ⟨(hc.owned l u d hown).1, ?_⟩
      by_cases hut : u = t
      · subst hut
        exact fun h => by simp at h
      · rw [show _ = c.thread u from resume_ne c n o (k r) hut]
        exact (hc.owned l u d hown).2
  | @ret n o r hth =>
    have hnone := hc.running t _ _ _ hth
    refine ⟨fun u n' o' p' hu => ?_, fun l u d hown => ?_⟩
    · by_cases hut : u = t
      · simp [hut] at hu
      · exact hc.running u n' o' p' (by simpa [hut] using hu)
    · have howner : c.owner l = some (u, d) := hown
      obtain ⟨hd, hrun⟩ := hc.owned l u d howner
      refine ⟨hd, ?_⟩
      by_cases hut : u = t
      · subst hut
        exact absurd ((heldBy_of_owner howner).1.symm.trans (hnone l)) hd
      · simpa [hut] using hrun

theorem InOrder.step (hc : InOrder re c)
    (himpl : ∀ o p, sys.impl o p → Orderly re (fun _ => 0) p) (h : Step sys c c') :
    InOrder re c' := by
  cases h with
  | @invoke t o p hidle hp =>
    refine ⟨fun u n' o' p' hu => ?_, fun l u d hown => ?_⟩
    · rw [start_thread] at hu
      by_cases hut : u = t
      · subst hut
        rw [Function.update_self] at hu
        cases hu
        have hheld : heldBy (c.start u o p) u = fun _ => 0 := hc.heldBy_idle hidle
        rw [hheld]
        exact himpl o p hp
      · rw [Function.update_of_ne hut] at hu
        exact hc.running u n' o' p' hu
    · obtain ⟨hd, hrun⟩ := hc.owned l u d hown
      exact ⟨hd, fun h => hrun (start_idle h)⟩
  | thread ht => exact hc.tstep ht
  | crash _ => exact ⟨fun _ _ _ _ hu => by simp at hu, fun _ _ _ h => by simp at h⟩

theorem Reachable.inOrder {s : S} (himpl : ∀ o p, sys.impl o p → Orderly re (fun _ => 0) p)
    (h : Reachable sys s c) : InOrder re c := by
  induction h with
  | refl => exact ⟨fun _ _ _ _ hu => by simp [Config.init] at hu, fun _ _ _ h => by simp [Config.init] at h⟩
  | tail _ hs ih => exact ih.step himpl hs

/-! ## No deadlock -/

/-- A thread goes on unless it waits for a lock that another one holds. -/
theorem InOrder.can_step (hc : InOrder re c) (hre : re = true → sys.reentrant = true)
    (htot : ∀ a s, ∃ r s', sys.sem a s r s') {t : T} {x : Running L C R Op Ret}
    (hth : c.thread t = some x)
    (hnowait : ∀ l k u d, x.prog = .lock l k → c.owner l = some (u, d) → u = t) :
    ∃ c', TStep sys t c c' := by
  obtain ⟨n, o, p⟩ := x
  have hp := hc.running t n o p hth
  cases p with
  | ret r => exact ⟨_, .ret hth⟩
  | lock l k =>
    cases hown : c.owner l with
    | none => exact ⟨_, .lock hth hown⟩
    | some w =>
      obtain ⟨u, d⟩ := w
      obtain rfl := hnowait l k u d rfl hown
      have hheld : heldBy c u l ≠ 0 := by
        rw [(heldBy_of_owner hown).1]
        exact (hc.owned l u d hown).1
      exact ⟨_, .relock hth (hre (hp.2.1 hheld)) hown⟩
  | unlock l k =>
    have hheld := hp.1
    cases hown : c.owner l with
    | none => exact absurd (by simp [heldBy, hown]) hheld
    | some w =>
      obtain ⟨u, d⟩ := w
      by_cases hut : u = t
      · subst hut
        obtain ⟨d, rfl⟩ := Nat.exists_eq_succ_of_ne_zero (hc.owned l u d hown).1
        exact ⟨_, .unlock hth hown⟩
      · exact absurd (by simp [heldBy, hown, hut]) hheld
  | call a k =>
    obtain ⟨r, s', hs⟩ := htot a c.state
    exact ⟨_, .call hth hs⟩

/-- While an operation has not returned, some thread can take a step: the holder of
a lock asks for no other. -/
theorem InOrder.progress (hc : InOrder re c) (hre : re = true → sys.reentrant = true)
    (htot : ∀ a s, ∃ r s', sys.sem a s r s') {t : T} (hrun : c.thread t ≠ none) :
    ∃ u c', TStep sys u c c' := by
  obtain ⟨x, hx⟩ := Option.ne_none_iff_exists'.mp hrun
  by_cases hwait : ∀ l k u d, x.prog = .lock l k → c.owner l = some (u, d) → u = t
  · exact ⟨t, hc.can_step hre htot hx hwait⟩
  · push Not at hwait
    obtain ⟨l, k, u, d, hp, hown, hne⟩ := hwait
    obtain ⟨hd, hrun'⟩ := hc.owned l u d hown
    obtain ⟨y, hy⟩ := Option.ne_none_iff_exists'.mp hrun'
    refine ⟨u, hc.can_step hre htot hy fun l' k' v e hlock hown' => ?_⟩
    -- the holder of `l` may ask for `l` again, and for nothing else
    have hl : l = l' := by
      by_contra hll
      obtain ⟨n, o, q⟩ := y
      have hq := hc.running u n o q hy
      rw [show q = .lock l' k' from hlock] at hq
      exact hd ((heldBy_of_owner hown).1.symm.trans (hq.1 l hll))
    subst hl
    rw [hown] at hown'
    cases hown'
    rfl

end Discipline

/-! ## No endless run -/

section Termination

variable {T L C : Type} {R : C → Type} {S Op α : Type} {Ret : Op → Type}

/-- What is left of a program after one of its steps. -/
inductive Prog.Next : Prog L C R α → Prog L C R α → Prop
  | lock {l k} : Next k (.lock l k)
  | unlock {l k} : Next k (.unlock l k)
  | call {c} {k : R c → Prog L C R α} {r} : Next (k r) (.call c k)

/-- What is left of a thread after one of its steps. -/
inductive Running.Next :
    Option (Running L C R Op Ret) → Option (Running L C R Op Ret) → Prop
  | step {n o p q} : Prog.Next q p → Next (some ⟨n, o, q⟩) (some ⟨n, o, p⟩)
  | done {x} : Next none (some x)

variable [DecidableEq T] [DecidableEq L] {sys : System L C R S Op Ret}
variable {c c' : Config T L C R S Op Ret}

/-- A step of a thread leaves less of it. -/
theorem TStep.next {t : T} (h : TStep sys t c c') :
    Running.Next (c'.thread t) (c.thread t) := by
  cases h with
  | @lock n o l k hth _ =>
    rw [hth, setOwner_thread, resume_self]
    exact .step .lock
  | @relock n o l k d hth _ _ =>
    rw [hth, setOwner_thread, resume_self]
    exact .step .lock
  | @unlock n o l k d hth _ =>
    rw [hth, setOwner_thread, resume_self]
    exact .step .unlock
  | @call n o a k r s' hth _ =>
    rw [hth, show _ = some (Running.mk n o (k r)) from resume_self c t n o (k r)]
    exact .step .call
  | @ret n o r hth =>
    rw [hth]
    simp only [Function.update_self]
    exact .done

end Termination

end Lib
