import Mathlib.Logic.Function.Basic

/-! # Programs as trees of atomic calls

A program of a thread is the tree of the atomic calls it makes: take a lock,
release a lock, or make a call `c` and go on with what it answers (`R c`).
Nothing is said here about what a call does: a meaning is given afterwards, as
a relation (`Runs`, every answer the environment may give) or as a function
(`run`, one answer), and the same tree is later interleaved with others. -/
namespace Lib

/-- A finite tree of atomic calls with a result of type `α` at each leaf. -/
inductive Prog (L C : Type) (R : C → Type) (α : Type) : Type
  | ret (a : α)
  | lock (l : L) (k : Prog L C R α)
  | unlock (l : L) (k : Prog L C R α)
  | call (c : C) (k : R c → Prog L C R α)

namespace Prog

variable {L C : Type} {R : C → Type} {α β γ S : Type}

/-- Run `p`, then the program its result selects. -/
def bind : Prog L C R α → (α → Prog L C R β) → Prog L C R β
  | ret a, f => f a
  | lock l k, f => lock l (k.bind f)
  | unlock l k, f => unlock l (k.bind f)
  | call c k, f => call c fun r => (k r).bind f

instance : Monad (Prog L C R) where
  pure := ret
  bind := bind

@[simp] theorem pure_eq (a : α) : (pure a : Prog L C R α) = ret a := rfl
@[simp] theorem ret_bind (a : α) (f : α → Prog L C R β) : (ret a >>= f) = f a := rfl
@[simp] theorem lock_bind (l : L) (k : Prog L C R α) (f : α → Prog L C R β) :
    (lock l k >>= f) = lock l (k >>= f) := rfl
@[simp] theorem unlock_bind (l : L) (k : Prog L C R α) (f : α → Prog L C R β) :
    (unlock l k >>= f) = unlock l (k >>= f) := rfl
@[simp] theorem call_bind (c : C) (k : R c → Prog L C R α) (f : α → Prog L C R β) :
    (call c k >>= f) = call c fun r => k r >>= f := rfl

/-- The call itself, as a program. -/
def perform (c : C) : Prog L C R (R c) := call c ret

@[simp] theorem perform_bind (c : C) (f : R c → Prog L C R β) :
    (perform c >>= f) = call c f := rfl

/-- `std::lock_guard`: hold `l` while `p` runs, release it on the way out. -/
def guarded (l : L) (p : Prog L C R α) : Prog L C R α :=
  lock l (p >>= fun a => unlock l (ret a))

theorem bind_bind (p : Prog L C R α) (f : α → Prog L C R β) (g : β → Prog L C R γ) :
    ((p >>= f) >>= g) = p >>= fun a => f a >>= g := by
  induction p with
  | ret a => rfl
  | lock l k ih => exact congrArg (lock l) ih
  | unlock l k ih => exact congrArg (unlock l) ih
  | call c k ih => exact congrArg (call c) (funext ih)

/-- What is done with the result alone may be done under the lock. -/
theorem guarded_map (l : L) (p : Prog L C R α) (f : α → β) :
    (guarded l p >>= fun a => ret (f a)) = guarded l (p >>= fun a => ret (f a)) := by
  rw [guarded, guarded, lock_bind, bind_bind, bind_bind]
  rfl

/-! ## One thread alone -/

/-- What a single thread may do from `s`: some answer that the meaning `sem`
allows at each call. A thread alone is never made to wait. -/
def Runs (sem : (c : C) → S → R c → S → Prop) : Prog L C R α → S → α → S → Prop
  | ret a, s, b, t => b = a ∧ t = s
  | lock _ k, s, b, t => Runs sem k s b t
  | unlock _ k, s, b, t => Runs sem k s b t
  | call c k, s, b, t => ∃ r s', sem c s r s' ∧ Runs sem (k r) s' b t

/-- The run under a meaning that is a function. -/
def run (h : (c : C) → S → R c × S) : Prog L C R α → S → α × S
  | ret a, s => (a, s)
  | lock _ k, s => run h k s
  | unlock _ k, s => run h k s
  | call c k, s => run h (k (h c s).1) (h c s).2

variable {sem : (c : C) → S → R c → S → Prop} {h : (c : C) → S → R c × S}

@[simp] theorem runs_ret {a b : α} {s t : S} :
    Runs sem (ret a : Prog L C R α) s b t ↔ b = a ∧ t = s := Iff.rfl

@[simp] theorem runs_call {c : C} {k : R c → Prog L C R α} {b : α} {s t : S} :
    Runs sem (call c k) s b t ↔ ∃ r s', sem c s r s' ∧ Runs sem (k r) s' b t := Iff.rfl

theorem runs_bind {p : Prog L C R α} {f : α → Prog L C R β} {s t : S} {b : β} :
    Runs sem (p >>= f) s b t ↔ ∃ a u, Runs sem p s a u ∧ Runs sem (f a) u b t := by
  induction p generalizing s with
  | ret a =>
    constructor
    · intro h; exact ⟨a, s, ⟨rfl, rfl⟩, h⟩
    · intro h
      obtain ⟨_, _, ⟨rfl, rfl⟩, h⟩ := h
      exact h
  | lock l k ih => exact ih
  | unlock l k ih => exact ih
  | call c k ih =>
    constructor
    · intro h
      obtain ⟨r, s', hs, h⟩ := h
      obtain ⟨a, u, h₁, h₂⟩ := (ih r).mp h
      exact ⟨a, u, ⟨r, s', hs, h₁⟩, h₂⟩
    · intro h
      obtain ⟨a, u, ⟨r, s', hs, h₁⟩, h₂⟩ := h
      exact ⟨r, s', hs, (ih r).mpr ⟨a, u, h₁, h₂⟩⟩

@[simp] theorem runs_guarded {l : L} {p : Prog L C R α} {s t : S} {b : α} :
    Runs sem (guarded l p) s b t ↔ Runs sem p s b t := by
  constructor
  · intro h
    obtain ⟨a, u, h₁, rfl, rfl⟩ := runs_bind.mp h
    exact h₁
  · intro h
    exact runs_bind.mpr ⟨b, t, h, rfl, rfl⟩

@[simp] theorem run_ret (a : α) (s : S) : run h (ret a : Prog L C R α) s = (a, s) := rfl
@[simp] theorem run_call (c : C) (k : R c → Prog L C R α) (s : S) :
    run h (call c k) s = run h (k (h c s).1) (h c s).2 := rfl

theorem run_bind (p : Prog L C R α) (f : α → Prog L C R β) (s : S) :
    run h (p >>= f) s = run h (f (run h p s).1) (run h p s).2 := by
  induction p generalizing s with
  | ret a => rfl
  | lock l k ih => exact ih s
  | unlock l k ih => exact ih s
  | call c k ih => exact ih _ _

@[simp] theorem run_guarded (l : L) (p : Prog L C R α) (s : S) :
    run h (guarded l p) s = run h p s :=
  run_bind p (fun a => unlock l (ret a)) s

/-- A meaning that is a function has exactly its own run. -/
theorem runs_iff_run (hsem : ∀ c s r t, sem c s r t ↔ h c s = (r, t))
    {p : Prog L C R α} {s t : S} {a : α} : Runs sem p s a t ↔ run h p s = (a, t) := by
  induction p generalizing s with
  | ret b => simp [eq_comm]
  | lock l k ih => exact ih
  | unlock l k ih => exact ih
  | call c k ih =>
    simp only [runs_call, run_call]
    constructor
    · intro hr
      obtain ⟨r, s', hs, hr⟩ := hr
      have := (hsem _ _ _ _).mp hs
      rw [this]
      exact (ih r).mp hr
    · intro hr
      exact ⟨_, _, (hsem _ _ _ _).mpr rfl, (ih _).mpr hr⟩

/-- Where every call has some answer, every program has some run. -/
theorem exists_runs (hsem : ∀ c s, ∃ r t, sem c s r t) (p : Prog L C R α) (s : S) :
    ∃ a t, Runs sem p s a t := by
  induction p generalizing s with
  | ret a => exact ⟨a, s, rfl, rfl⟩
  | lock l k ih => exact ih s
  | unlock l k ih => exact ih s
  | call c k ih =>
    obtain ⟨r, s', hs⟩ := hsem c s
    obtain ⟨a, t, h⟩ := ih r s'
    exact ⟨a, t, r, s', hs, h⟩

/-- A meaning that allows more has more runs. -/
theorem Runs.mono {sem' : (c : C) → S → R c → S → Prop}
    (hsem : ∀ c s r t, sem c s r t → sem' c s r t) {p : Prog L C R α} {s t : S} {a : α}
    (hr : Runs sem p s a t) : Runs sem' p s a t := by
  induction p generalizing s with
  | ret b => exact hr
  | lock l k ih => exact ih hr
  | unlock l k ih => exact ih hr
  | call c k ih =>
    obtain ⟨r, s', hs, hr⟩ := hr
    exact ⟨r, s', hsem _ _ _ _ hs, ih r hr⟩

/-- What every call keeps, a run keeps. -/
theorem Runs.keeps {I : S → Prop} (hsem : ∀ c s r t, I s → sem c s r t → I t)
    {p : Prog L C R α} {s t : S} {a : α} (hr : Runs sem p s a t) (hs : I s) : I t := by
  induction p generalizing s with
  | ret b => exact hr.2 ▸ hs
  | lock l k ih => exact ih hr hs
  | unlock l k ih => exact ih hr hs
  | call c k ih =>
    obtain ⟨r, s', hc, hr⟩ := hr
    exact ih r hr (hsem c s r s' hs hc)

/-- The states a single thread passes through, the first and the last included. -/
def Reaches (sem : (c : C) → S → R c → S → Prop) : Prog L C R α → S → S → Prop
  | ret _, s, t => t = s
  | lock _ k, s, t => Reaches sem k s t
  | unlock _ k, s, t => Reaches sem k s t
  | call c k, s, t => t = s ∨ ∃ r s', sem c s r s' ∧ Reaches sem (k r) s' t

theorem Runs.reaches {p : Prog L C R α} {s t : S} {a : α} (hr : Runs sem p s a t) :
    Reaches sem p s t := by
  induction p generalizing s with
  | ret b => exact hr.2
  | lock l k ih => exact ih hr
  | unlock l k ih => exact ih hr
  | call c k ih =>
    obtain ⟨r, s', hs, hr⟩ := hr
    exact .inr ⟨r, s', hs, ih r hr⟩

/-- What every call keeps, holds all along the way. -/
theorem Reaches.keeps {I : S → Prop} (hsem : ∀ c s r t, I s → sem c s r t → I t)
    {p : Prog L C R α} {s t : S} (hr : Reaches sem p s t) (hs : I s) : I t := by
  induction p generalizing s with
  | ret b => exact hr ▸ hs
  | lock l k ih => exact ih hr hs
  | unlock l k ih => exact ih hr hs
  | call c k ih =>
    rcases hr with rfl | ⟨r, s', hc, hr⟩
    · exact hs
    · exact ih r hr (hsem c s r s' hs hc)

/-- A function that only does what a meaning allows has a run of that meaning. -/
theorem runs_run (hsem : ∀ c s, sem c s (h c s).1 (h c s).2) (p : Prog L C R α) (s : S) :
    Runs sem p s (run h p s).1 (run h p s).2 := by
  induction p generalizing s with
  | ret a => exact ⟨rfl, rfl⟩
  | lock l k ih => exact ih s
  | unlock l k ih => exact ih s
  | call c k ih => exact ⟨_, _, hsem c s, ih _ _⟩

/-! ## A log of the calls -/

/-- The meaning `sem`, with a log of the calls and what they answered. -/
def logged (sem : (c : C) → S → R c → S → Prop) (c : C) (x : S × List (Sigma R)) (r : R c)
    (y : S × List (Sigma R)) : Prop :=
  sem c x.1 r y.1 ∧ y.2 = x.2 ++ [⟨c, r⟩]

/-! ## The calls a program may make -/

/-- Every call the program may make is in `P`, as long as each call `c` is
answered by some `r` with `ans c r`. -/
def Uses (ans : (c : C) → R c → Prop) (P : C → Prop) : Prog L C R α → Prop
  | ret _ => True
  | lock _ k => Uses ans P k
  | unlock _ k => Uses ans P k
  | call c k => P c ∧ ∀ r, ans c r → Uses ans P (k r)

theorem Uses.bind {ans : (c : C) → R c → Prop} {P : C → Prop} {p : Prog L C R α}
    {f : α → Prog L C R β} (hp : p.Uses ans P) (hf : ∀ a, (f a).Uses ans P) :
    (p >>= f).Uses ans P := by
  induction p with
  | ret a => exact hf a
  | lock l k ih => exact ih hp
  | unlock l k ih => exact ih hp
  | call c k ih => exact ⟨hp.1, fun r hr => ih r (hp.2 r hr)⟩

theorem Uses.mono {ans : (c : C) → R c → Prop} {P P' : C → Prop} (hP : ∀ c, P c → P' c)
    {p : Prog L C R α} (hp : p.Uses ans P) : p.Uses ans P' := by
  induction p with
  | ret a => trivial
  | lock l k ih => exact ih hp
  | unlock l k ih => exact ih hp
  | call c k ih => exact ⟨hP c hp.1, fun r hr => ih r (hp.2 r hr)⟩

/-- The calls in the log of a run are calls that the program may make. -/
theorem Uses.mem_log {ans : (c : C) → R c → Prop} {P : C → Prop}
    (hans : ∀ c s r t, sem c s r t → ans c r) {p : Prog L C R α} (hp : p.Uses ans P)
    {x y : S × List (Sigma R)} {a : α} (h : Runs (logged sem) p x a y) :
    ∀ e ∈ y.2, e ∈ x.2 ∨ P e.1 := by
  induction p generalizing x with
  | ret b =>
    obtain ⟨-, rfl⟩ := h
    exact fun e he => .inl he
  | lock l k ih => exact ih hp h
  | unlock l k ih => exact ih hp h
  | call c k ih =>
    obtain ⟨r, z, ⟨hsem, hlog⟩, h⟩ := h
    intro e he
    rcases ih r (hp.2 r (hans c x.1 r z.1 hsem)) h e he with he | he
    · rw [hlog, List.mem_append, List.mem_singleton] at he
      rcases he with he | rfl
      · exact .inl he
      · exact .inr hp.1
    · exact .inr he

theorem uses_true (ans : (c : C) → R c → Prop) (p : Prog L C R α) :
    p.Uses ans fun _ => True := by
  induction p with
  | ret a => trivial
  | lock l k ih => exact ih
  | unlock l k ih => exact ih
  | call c k ih => exact ⟨trivial, fun r _ => ih r⟩

/-- Where the calls of a program do the same in related states, so does the program. -/
theorem Runs.transfer {S' : Type} {sem' : (c : C) → S' → R c → S' → Prop}
    {ans : (c : C) → R c → Prop} {P : C → Prop} {Rel : S → S' → Prop}
    (hans : ∀ c s r t, sem c s r t → ans c r)
    (hcall : ∀ c, P c → ∀ s s' r t, Rel s s' → sem c s r t → ∃ t', sem' c s' r t' ∧ Rel t t')
    {p : Prog L C R α} (hp : p.Uses ans P) {s t : S} {s' : S'} {a : α} (hrel : Rel s s')
    (h : Runs sem p s a t) : ∃ t', Runs sem' p s' a t' ∧ Rel t t' := by
  induction p generalizing s s' with
  | ret b =>
    obtain ⟨rfl, rfl⟩ := h
    exact ⟨s', ⟨rfl, rfl⟩, hrel⟩
  | lock l k ih => exact ih hp hrel h
  | unlock l k ih => exact ih hp hrel h
  | call c k ih =>
    obtain ⟨r, u, hs, h⟩ := h
    obtain ⟨u', hs', hrel'⟩ := hcall c hp.1 s s' r u hrel hs
    obtain ⟨t', ht', hrel''⟩ := ih r (hp.2 r (hans c s r u hs)) hrel' h
    exact ⟨t', ⟨r, u', hs', ht'⟩, hrel''⟩

/-- The same for a program that is stopped on the way. -/
theorem Reaches.transfer {S' : Type} {sem' : (c : C) → S' → R c → S' → Prop} {Rel : S → S' → Prop}
    (hcall : ∀ c s s' r t, Rel s s' → sem c s r t → ∃ t', sem' c s' r t' ∧ Rel t t')
    {p : Prog L C R α} {s t : S} {s' : S'} (hrel : Rel s s') (h : Reaches sem p s t) :
    ∃ t', Reaches sem' p s' t' ∧ Rel t t' := by
  induction p generalizing s s' with
  | ret b =>
    obtain rfl : t = s := h
    exact ⟨s', rfl, hrel⟩
  | lock l k ih => exact ih hrel h
  | unlock l k ih => exact ih hrel h
  | call c k ih =>
    rcases h with rfl | ⟨r, u, hs, h⟩
    · exact ⟨s', .inl rfl, hrel⟩
    · obtain ⟨u', hs', hrel'⟩ := hcall c s s' r u hrel hs
      obtain ⟨t', ht', hrel''⟩ := ih r hrel' h
      exact ⟨t', .inr ⟨r, u', hs', ht'⟩, hrel''⟩

end Prog

end Lib
