import Mathlib.Logic.Relation
import Mathlib.Tactic.Push
import NimbusFs.Lib.Prog

/-! # Any number of threads over one shared state

A pool runs any number of threads. An idle thread may start any operation; a
running one takes the next atomic step of its program; the process may crash.
A lock is held by at most one thread. Whether its holder may take it again is
a property of the system (`reentrant`), so that one set of programs can be read
with plain mutexes or with re-entrant ones. -/
namespace Lib

/-- What a client sees: operation `n` starts on a thread, operation `n` returns. -/
inductive Event (T Op : Type) (Ret : Op → Type) : Type
  | inv (n : Nat) (t : T) (o : Op)
  | res (n : Nat) (t : T) (o : Op) (r : Ret o)

/-- Operation number `num` of the run, with what is left of its program. -/
structure Running (L C : Type) (R : C → Type) (Op : Type) (Ret : Op → Type) where
  num : Nat
  op : Op
  prog : Prog L C R (Ret op)

/-- The programs of the operations, the meaning of the calls, what a crash
leaves, and whether a lock may be taken again by its holder. -/
structure System (L C : Type) (R : C → Type) (S Op : Type) (Ret : Op → Type) where
  impl : (o : Op) → Prog L C R (Ret o) → Prop
  sem : (c : C) → S → R c → S → Prop
  crash : S → S → Prop
  reentrant : Bool

/-- A state of the pool. `owner l` is the holder of `l` and how often it has
taken it; `next` numbers the operations. -/
structure Config (T L C : Type) (R : C → Type) (S Op : Type) (Ret : Op → Type) where
  thread : T → Option (Running L C R Op Ret)
  owner : L → Option (T × Nat)
  state : S
  hist : List (Event T Op Ret)
  next : Nat

section Steps

variable {T L C : Type} {R : C → Type} {S Op : Type} {Ret : Op → Type}

/-- All threads idle, all locks free, nothing observed. -/
def Config.init (s : S) : Config T L C R S Op Ret where
  thread := fun _ => none
  owner := fun _ => none
  state := s
  hist := []
  next := 0

variable [DecidableEq T]

/-- The thread goes on with `p`. -/
def Config.resume (c : Config T L C R S Op Ret) (t : T) (n : Nat) (o : Op)
    (p : Prog L C R (Ret o)) : Config T L C R S Op Ret :=
  { c with thread := Function.update c.thread t (some ⟨n, o, p⟩) }

@[simp] theorem resume_self (c : Config T L C R S Op Ret) (t : T) (n : Nat) (o : Op)
    (p : Prog L C R (Ret o)) : (c.resume t n o p).thread t = some ⟨n, o, p⟩ := by
  simp [Config.resume]

theorem resume_ne (c : Config T L C R S Op Ret) {t u : T} (n : Nat) (o : Op)
    (p : Prog L C R (Ret o)) (h : u ≠ t) : (c.resume t n o p).thread u = c.thread u := by
  simp [Config.resume, h]

@[simp] theorem resume_owner (c : Config T L C R S Op Ret) (t : T) (n : Nat) (o : Op)
    (p : Prog L C R (Ret o)) : (c.resume t n o p).owner = c.owner := rfl

@[simp] theorem resume_state (c : Config T L C R S Op Ret) (t : T) (n : Nat) (o : Op)
    (p : Prog L C R (Ret o)) : (c.resume t n o p).state = c.state := rfl

/-- An idle thread starts an operation, under the next number. -/
def Config.start (c : Config T L C R S Op Ret) (t : T) (o : Op) (p : Prog L C R (Ret o)) :
    Config T L C R S Op Ret :=
  { c.resume t c.next o p with hist := c.hist ++ [.inv c.next t o], next := c.next + 1 }

@[simp] theorem start_thread (c : Config T L C R S Op Ret) (t : T) (o : Op)
    (p : Prog L C R (Ret o)) :
    (c.start t o p).thread = Function.update c.thread t (some ⟨c.next, o, p⟩) := rfl

/-- Who is idle after a start was so before. -/
theorem start_idle {c : Config T L C R S Op Ret} {t u : T} {o : Op} {p : Prog L C R (Ret o)}
    (hu : (c.start t o p).thread u = none) : c.thread u = none := by
  rw [start_thread] at hu
  by_cases hut : u = t
  · simp [hut] at hu
  · simpa [hut] using hu

/-- How often thread `t` holds each lock. -/
def heldBy (c : Config T L C R S Op Ret) (t : T) (l : L) : Nat :=
  match c.owner l with
  | some (u, d) => if u = t then d else 0
  | none => 0

/-- Two threads hold no lock in common. -/
theorem heldBy_disjoint (c : Config T L C R S Op Ret) {t u : T} (h : t ≠ u) (l : L) :
    heldBy c t l = 0 ∨ heldBy c u l = 0 := by
  unfold heldBy
  cases c.owner l with
  | none => exact .inl rfl
  | some w =>
    by_cases ht : w.1 = t
    · right; simp [show w.1 ≠ u from fun hu => h (ht.symm.trans hu)]
    · left; simp [ht]

variable [DecidableEq L]

/-- Set the holder of a lock. -/
def Config.setOwner (c : Config T L C R S Op Ret) (l : L) (w : Option (T × Nat)) :
    Config T L C R S Op Ret :=
  { c with owner := Function.update c.owner l w }

omit [DecidableEq T] in
@[simp] theorem setOwner_thread (c : Config T L C R S Op Ret) (l : L) (w : Option (T × Nat)) :
    (c.setOwner l w).thread = c.thread := rfl

/-- One step of a running thread. -/
inductive TStep (sys : System L C R S Op Ret) (t : T) :
    Config T L C R S Op Ret → Config T L C R S Op Ret → Prop
  | lock {c n o l k} : c.thread t = some ⟨n, o, .lock l k⟩ → c.owner l = none →
      TStep sys t c ((c.resume t n o k).setOwner l (some (t, 1)))
  | relock {c n o l k d} : c.thread t = some ⟨n, o, .lock l k⟩ → sys.reentrant = true →
      c.owner l = some (t, d) →
      TStep sys t c ((c.resume t n o k).setOwner l (some (t, d + 1)))
  | unlock {c n o l k d} : c.thread t = some ⟨n, o, .unlock l k⟩ → c.owner l = some (t, d + 1) →
      TStep sys t c ((c.resume t n o k).setOwner l (if d = 0 then none else some (t, d)))
  | call {c n o} {a : C} {k : R a → Prog L C R (Ret o)} {r s'} :
      c.thread t = some ⟨n, o, .call a k⟩ → sys.sem a c.state r s' →
      TStep sys t c { c.resume t n o (k r) with state := s' }
  | ret {c n o r} : c.thread t = some ⟨n, o, .ret r⟩ →
      TStep sys t c { c with thread := Function.update c.thread t none,
                             hist := c.hist ++ [.res n t o r] }

/-- One step of the pool. -/
inductive Step (sys : System L C R S Op Ret) :
    Config T L C R S Op Ret → Config T L C R S Op Ret → Prop
  | invoke {c t o p} : c.thread t = none → sys.impl o p →
      Step sys c (c.start t o p)
  | thread {c c' t} : TStep sys t c c' → Step sys c c'
  | crash {c s'} : sys.crash c.state s' →
      Step sys c { c with thread := fun _ => none, owner := fun _ => none, state := s' }

/-- The states a pool can get into from `s`. -/
def Reachable (sys : System L C R S Op Ret) (s : S) (c : Config T L C R S Op Ret) : Prop :=
  Relation.ReflTransGen (Step sys) (Config.init s) c

end Steps

/-! ## The same threads over another state -/

section Simulation

variable {T L C : Type} {R : C → Type} {S S' Op : Type} {Ret : Op → Type}
variable [DecidableEq T] [DecidableEq L]
variable {sys : System L C R S Op Ret} {sys' : System L C R S' Op Ret} {Rel : S → S' → Prop}

/-- The threads and locks of `c`, over `s'`. -/
def Config.over (c : Config T L C R S Op Ret) (s' : S') : Config T L C R S' Op Ret :=
  ⟨c.thread, c.owner, s', c.hist, c.next⟩

theorem TStep.simulate {c c' : Config T L C R S Op Ret} {t : T} {s' : S'}
    (hsem : ∀ a s s' r u, Rel s s' → sys.sem a s r u → ∃ u', sys'.sem a s' r u' ∧ Rel u u')
    (hre : sys.reentrant = true → sys'.reentrant = true) (hrel : Rel c.state s')
    (h : TStep sys t c c') : ∃ u', Rel c'.state u' ∧ TStep sys' t (c.over s') (c'.over u') := by
  cases h with
  | lock hth hown => exact ⟨s', hrel, .lock (c := c.over s') hth hown⟩
  | relock hth hr hown => exact ⟨s', hrel, .relock (c := c.over s') hth (hre hr) hown⟩
  | unlock hth hown => exact ⟨s', hrel, .unlock (c := c.over s') hth hown⟩
  | call hth hs =>
    obtain ⟨u', hs', hrel'⟩ := hsem _ _ _ _ _ hrel hs
    exact ⟨u', hrel', .call (c := c.over s') hth hs'⟩
  | ret hth => exact ⟨s', hrel, .ret (c := c.over s') hth⟩

/-- Where each call and each crash of one system is one of the other, so is each run. -/
theorem Reachable.simulate (himpl : ∀ o p, sys.impl o p → sys'.impl o p)
    (hsem : ∀ a s s' r u, Rel s s' → sys.sem a s r u → ∃ u', sys'.sem a s' r u' ∧ Rel u u')
    (hcrash : ∀ s s' u, Rel s s' → sys.crash s u → ∃ u', sys'.crash s' u' ∧ Rel u u')
    (hre : sys.reentrant = true → sys'.reentrant = true) {s₀ : S} {s₀' : S'} (h₀ : Rel s₀ s₀')
    {c : Config T L C R S Op Ret} (h : Reachable sys s₀ c) :
    ∃ s', Rel c.state s' ∧ Reachable sys' s₀' (c.over s') := by
  induction h with
  | refl => exact ⟨s₀', h₀, .refl⟩
  | @tail c c' _ hs ih =>
    obtain ⟨s', hrel, hreach⟩ := ih
    cases hs with
    | invoke hidle hp =>
      exact ⟨s', hrel, hreach.tail (.invoke (c := c.over s') hidle (himpl _ _ hp))⟩
    | thread ht =>
      obtain ⟨u', hrel', ht'⟩ := ht.simulate hsem hre hrel
      exact ⟨u', hrel', hreach.tail (.thread ht')⟩
    | crash hc =>
      obtain ⟨u', hc', hrel'⟩ := hcrash _ _ _ hrel hc
      exact ⟨u', hrel', hreach.tail (.crash (c := c.over s') hc')⟩

end Simulation

/-! ## One thread and no other -/

section Alone

variable {T L C : Type} {R : C → Type} {S α Op : Type} {Ret : Op → Type}
variable [DecidableEq T] [DecidableEq L]

/-- With no other thread around and every call answered by `step`, a program gives
back only locks that it holds. -/
def Prog.runsAlone (step : (c : C) → S → R c × S) : Prog L C R α → (L → Nat) → S → Bool
  | .ret _, _, _ => true
  | .lock l k, held, s => runsAlone step k (Function.update held l (held l + 1)) s
  | .unlock l k, held, s =>
    held l != 0 && runsAlone step k (Function.update held l (held l - 1)) s
  | .call c k, held, s => runsAlone step (k (step c s).1) held (step c s).2

/-- The locks are held by `t` alone, as `held` says. -/
def Config.OwnedAs (c : Config T L C R S Op Ret) (t : T) (held : L → Nat) : Prop :=
  ∀ l, c.owner l = if held l = 0 then none else some (t, held l)

omit [DecidableEq T] in
theorem Config.OwnedAs.setOwner {c : Config T L C R S Op Ret} {t : T} {held : L → Nat}
    (h : c.OwnedAs t held) (l : L) (n : Nat) :
    (c.setOwner l (if n = 0 then none else some (t, n))).OwnedAs t (Function.update held l n) := by
  intro l'
  by_cases hl : l' = l
  · subst hl
    simp [Config.setOwner]
  · simpa [Config.setOwner, hl] using h l'

variable {sys : System L C R S Op Ret} {s₀ : S} {step : (c : C) → S → R c × S}
variable {c₀ c : Config T L C R S Op Ret}

/-- A thread that takes a lock while no other holds any. -/
theorem lock_alone (hre : sys.reentrant = true) {t : T} {held : L → Nat} {n : Nat} {o : Op} {l : L}
    {k : Prog L C R (Ret o)} (hth : c.thread t = some ⟨n, o, .lock l k⟩) (hown : c.OwnedAs t held) :
    TStep sys t c ((c.resume t n o k).setOwner l (some (t, held l + 1))) ∧
      ((c.resume t n o k).setOwner l (some (t, held l + 1))).OwnedAs t
        (Function.update held l (held l + 1)) := by
  have hown' := (show (c.resume t n o k).OwnedAs t held from hown).setOwner l (held l + 1)
  rw [if_neg (Nat.succ_ne_zero _)] at hown'
  refine ⟨?_, hown'⟩
  by_cases hl : held l = 0
  · rw [hl]
    exact .lock hth (by rw [hown l, if_pos hl])
  · exact .relock hth hre (by rw [hown l, if_neg hl])

variable (sys) in
/-- A thread that gives back a lock that it holds. -/
theorem unlock_alone {t : T} {held : L → Nat} {n : Nat} {o : Op} {l : L} {k : Prog L C R (Ret o)}
    (hth : c.thread t = some ⟨n, o, .unlock l k⟩) (hown : c.OwnedAs t held) (hl : held l ≠ 0) :
    TStep sys t c ((c.resume t n o k).setOwner l
        (if held l - 1 = 0 then none else some (t, held l - 1))) ∧
      ((c.resume t n o k).setOwner l
        (if held l - 1 = 0 then none else some (t, held l - 1))).OwnedAs t
        (Function.update held l (held l - 1)) := by
  have hheld : c.owner l = some (t, held l - 1 + 1) := by
    rw [hown l, if_neg hl, Nat.sub_add_cancel (Nat.pos_of_ne_zero hl)]
  exact ⟨.unlock hth hheld, (show (c.resume t n o k).OwnedAs t held from hown).setOwner l _⟩

omit [DecidableEq L] in
theorem resume_update {thread : T → Option (Running L C R Op Ret)} {t : T}
    {x : Option (Running L C R Op Ret)} (n : Nat) (o : Op) (k : Prog L C R (Ret o))
    (h : c.thread = Function.update thread t x) :
    (c.resume t n o k).thread = Function.update thread t (some ⟨n, o, k⟩) := by
  rw [Config.resume, h, Function.update_idem]

omit [DecidableEq L] in
theorem thread_update {thread : T → Option (Running L C R Op Ret)} {t : T}
    {x : Option (Running L C R Op Ret)} (h : c.thread = Function.update thread t x) :
    c.thread t = x := by
  rw [h, Function.update_self]

/-- A thread that runs alone can return in the pool, however often it takes a lock
again, and has done what the program does on its own. -/
theorem finishes_alone (hre : sys.reentrant = true)
    (hstep : ∀ c s, sys.sem c s (step c s).1 (step c s).2) {t : T}
    {thread : T → Option (Running L C R Op Ret)} {n : Nat} {o : Op} {p : Prog L C R (Ret o)}
    {held : L → Nat} (h : Relation.ReflTransGen (Step sys) c₀ c)
    (hth : c.thread = Function.update thread t (some ⟨n, o, p⟩)) (hown : c.OwnedAs t held)
    (hrun : p.runsAlone step held c.state) :
    ∃ c', Relation.ReflTransGen (Step sys) c₀ c' ∧ c'.thread = Function.update thread t none ∧
      c'.state = (p.run step c.state).2 ∧
      c'.hist = c.hist ++ [.res n t o (p.run step c.state).1] := by
  induction p generalizing c held with
  | ret a =>
    exact ⟨_, h.tail (.thread (.ret (thread_update hth))), by rw [hth, Function.update_idem], rfl, rfl⟩
  | lock l k ih =>
    obtain ⟨hlock, hown'⟩ := lock_alone hre (thread_update hth) hown
    have hrest := ih (h.tail (.thread hlock)) (resume_update n o k hth) hown' hrun
    exact hrest
  | unlock l k ih =>
    obtain ⟨hl, hrun⟩ : held l ≠ 0 ∧ _ := by simpa [Prog.runsAlone] using hrun
    obtain ⟨hunlock, hown'⟩ := unlock_alone sys (thread_update hth) hown hl
    have hrest := ih (h.tail (.thread hunlock)) (resume_update n o k hth) hown' hrun
    exact hrest
  | call a k ih =>
    have hcall := TStep.call (thread_update hth) (hstep a c.state)
    have hrest := ih _ (h.tail (.thread hcall)) (resume_update n o _ hth) hown hrun
    exact hrest

/-- The first steps of a thread that runs alone: what is left of the program, the locks
it holds, and the state. -/
def Prog.advance (step : (c : C) → S → R c × S) :
    Nat → Prog L C R α → List L → S → Option (Prog L C R α × List L × S)
  | 0, p, held, s => some (p, held, s)
  | _ + 1, .ret _, _, _ => none
  | m + 1, .lock l k, held, s => k.advance step m (l :: held) s
  | m + 1, .unlock l k, held, s => if l ∈ held then k.advance step m (held.erase l) s else none
  | m + 1, .call c k, held, s => (k (step c s).1).advance step m held (step c s).2

/-- The result of a program that has come to its end. -/
def Prog.returned : Prog L C R α → Option α
  | .ret a => some a
  | _ => none

omit [DecidableEq L] in
theorem Prog.eq_ret {p : Prog L C R α} {a : α} (h : p.returned = some a) : p = .ret a := by
  cases p with
  | ret b => exact congrArg Prog.ret (Option.some.inj h)
  | lock l k => cases h
  | unlock l k => cases h
  | call c k => cases h

/-- A thread that has the locks to itself can take its first steps. -/
theorem advances_alone (hre : sys.reentrant = true)
    (hstep : ∀ c s, sys.sem c s (step c s).1 (step c s).2) {t : T}
    {thread : T → Option (Running L C R Op Ret)} {n m : Nat} {o : Op} {p : Prog L C R (Ret o)}
    {held : List L} {x : Prog L C R (Ret o) × List L × S} (h : Relation.ReflTransGen (Step sys) c₀ c)
    (hth : c.thread = Function.update thread t (some ⟨n, o, p⟩))
    (hown : c.OwnedAs t fun l => held.count l)
    (hrun : p.advance step m held c.state = some x) :
    ∃ c', Relation.ReflTransGen (Step sys) c₀ c' ∧
      c'.thread = Function.update thread t (some ⟨n, o, x.1⟩) ∧
      c'.OwnedAs t (fun l => x.2.1.count l) ∧ c'.state = x.2.2 ∧ c'.hist = c.hist ∧
      c'.next = c.next := by
  induction m generalizing c p held with
  | zero =>
    cases hrun
    exact ⟨c, h, hth, hown, rfl, rfl, rfl⟩
  | succ m ih =>
    cases p with
    | ret a => cases hrun
    | lock l k =>
      obtain ⟨hlock, hown'⟩ := lock_alone hre (thread_update hth) hown
      have hcount : Function.update (fun l => held.count l) l (held.count l + 1) =
          fun l' => (l :: held).count l' := by
        funext l'
        by_cases hl : l' = l
        · simp [hl]
        · simp [hl, List.count_cons_of_ne (Ne.symm hl)]
      rw [hcount] at hown'
      have hrest := ih (h.tail (.thread hlock)) (resume_update n o k hth) hown' hrun
      exact hrest
    | unlock l k =>
      rw [Prog.advance] at hrun
      split at hrun
      · rename_i hl
        obtain ⟨hunlock, hown'⟩ := unlock_alone sys (thread_update hth) hown
          (Nat.ne_of_gt (List.count_pos_iff.mpr hl))
        have hcount : Function.update (fun l => held.count l) l (held.count l - 1) =
            fun l' => (held.erase l).count l' := by
          funext l'
          by_cases hl' : l' = l
          · simp [hl', List.count_erase_self]
          · simp [hl', List.count_erase_of_ne hl']
        rw [hcount] at hown'
        have hrest := ih (h.tail (.thread hunlock)) (resume_update n o k hth) hown' hrun
        exact hrest
      · cases hrun
    | call a k =>
      have hcall := TStep.call (thread_update hth) (hstep a c.state)
      have hrest := ih (h.tail (.thread hcall)) (resume_update n o _ hth) hown hrun
      exact hrest

/-- The same from the moment it is started, with every lock free. -/
theorem invoke_alone_from (hre : sys.reentrant = true)
    (hstep : ∀ c s, sys.sem c s (step c s).1 (step c s).2) {t : T} {o : Op}
    {p : Prog L C R (Ret o)} (h : Relation.ReflTransGen (Step sys) c₀ c)
    (hidle : c.thread t = none) (hfree : ∀ l, c.owner l = none) (hp : sys.impl o p)
    (hrun : p.runsAlone step (fun _ => 0) c.state) :
    ∃ c', Relation.ReflTransGen (Step sys) c₀ c' ∧ c'.thread = c.thread ∧
      c'.state = (p.run step c.state).2 ∧
      c'.hist = c.hist ++ [.inv c.next t o, .res c.next t o (p.run step c.state).1] := by
  have hown : (c.start t o p).OwnedAs t fun _ => 0 := fun l => hfree l
  have hstart : Relation.ReflTransGen (Step sys) c₀ (c.start t o p) := h.tail (.invoke hidle hp)
  obtain ⟨c', hc', hthread, hstate, hhist⟩ :=
    finishes_alone hre hstep hstart (start_thread c t o p) hown hrun
  refine ⟨c', hc', ?_, hstate, ?_⟩
  · rw [hthread, ← hidle, Function.update_eq_self]
  · rw [hhist]
    exact List.append_assoc _ _ _

theorem Reachable.invoke_alone (hre : sys.reentrant = true)
    (hstep : ∀ c s, sys.sem c s (step c s).1 (step c s).2) {t : T} {o : Op}
    {p : Prog L C R (Ret o)} (h : Reachable sys s₀ c) (hidle : c.thread t = none)
    (hfree : ∀ l, c.owner l = none) (hp : sys.impl o p)
    (hrun : p.runsAlone step (fun _ => 0) c.state) :
    ∃ c', Reachable sys s₀ c' ∧ c'.thread = c.thread ∧ c'.state = (p.run step c.state).2 ∧
      c'.hist = c.hist ++ [.inv c.next t o, .res c.next t o (p.run step c.state).1] :=
  invoke_alone_from hre hstep h hidle hfree hp hrun

end Alone

/-! ## Lock discipline -/

section Discipline

variable {T L C : Type} {R : C → Type} {S Op α : Type} {Ret : Op → Type}

/-- `Disciplined h p`: holding `h` and no other lock, `p` takes a lock only
when it holds none, releases only the one it holds, and returns holding none,
whatever its calls answer. -/
def Disciplined : Option L → Prog L C R α → Prop
  | h, .ret _ => h = none
  | h, .lock l k => h = none ∧ Disciplined (some l) k
  | h, .unlock l k => h = some l ∧ Disciplined none k
  | h, .call _ k => ∀ r, Disciplined h (k r)

/-- No lock is taken or released. -/
def LockFree : Prog L C R α → Prop
  | .ret _ => True
  | .lock _ _ => False
  | .unlock _ _ => False
  | .call _ k => ∀ r, LockFree (k r)

theorem LockFree.disciplined_bind {β : Type} {p : Prog L C R α} {f : α → Prog L C R β}
    {h : Option L} (hp : LockFree p) (hf : ∀ a, Disciplined h (f a)) :
    Disciplined h (p >>= f) := by
  induction p with
  | ret a => exact hf a
  | lock l k ih => exact hp.elim
  | unlock l k ih => exact hp.elim
  | call c k ih => exact fun r => ih r (hp r)

/-- One lock around a body that takes none. -/
theorem LockFree.disciplined_guarded {p : Prog L C R α} (hp : LockFree p) (l : L) :
    Disciplined none (Prog.guarded l p) :=
  ⟨rfl, hp.disciplined_bind fun _ => ⟨rfl, rfl⟩⟩

theorem LockFree.disciplined {p : Prog L C R α} (hp : LockFree p) : Disciplined (none : Option L) p := by
  induction p with
  | ret a => rfl
  | lock l k ih => exact hp.elim
  | unlock l k ih => exact hp.elim
  | call c k ih => exact fun r => ih r (hp r)

theorem Disciplined.map {β : Type} {p : Prog L C R α} {h : Option L} (hp : Disciplined h p)
    (f : α → β) : Disciplined h (p >>= fun a => .ret (f a)) := by
  induction p generalizing h with
  | ret a => exact hp
  | lock l k ih => exact ⟨hp.1, ih hp.2⟩
  | unlock l k ih => exact ⟨hp.1, ih hp.2⟩
  | call c k ih => exact fun r => ih r (hp r)

/-- A thread asks for a lock that it already holds. -/
def RequestsHeld (c : Config T L C R S Op Ret) (t : T) : Prop :=
  ∃ n o l k d, c.thread t = some ⟨n, o, .lock l k⟩ ∧ c.owner l = some (t, d)

/-- Each running thread holds just the lock its program says, once, and an
idle thread holds none. -/
structure LocksMatch (c : Config T L C R S Op Ret) : Prop where
  running : ∀ t n o p, c.thread t = some ⟨n, o, p⟩ →
    ∃ h, Disciplined h p ∧ ∀ l d, c.owner l = some (t, d) ↔ h = some l ∧ d = 1
  idle : ∀ t l d, c.thread t = none → c.owner l ≠ some (t, d)

theorem LocksMatch.not_requestsHeld {c : Config T L C R S Op Ret} (hm : LocksMatch c) (t : T) :
    ¬ RequestsHeld c t := by
  intro hrequest
  obtain ⟨n, o, l, k, d, hth, hown⟩ := hrequest
  obtain ⟨_, ⟨rfl, _⟩, ho⟩ := hm.running t _ _ _ hth
  exact absurd ((ho l d).mp hown).1 (by simp)

variable [DecidableEq T]

theorem LocksMatch.resume {c : Config T L C R S Op Ret} (hm : LocksMatch c) {t : T} {n : Nat}
    {o : Op} {p : Prog L C R (Ret o)} {w : L → Option (T × Nat)} {s : S}
    {hist : List (Event T Op Ret)} {next : Nat}
    (hself : ∃ h, Disciplined h p ∧ ∀ l d, w l = some (t, d) ↔ h = some l ∧ d = 1)
    (hother : ∀ u l d, u ≠ t → (w l = some (u, d) ↔ c.owner l = some (u, d))) :
    LocksMatch { c.resume t n o p with owner := w, state := s, hist := hist, next := next } := by
  refine ⟨fun u n' o' p' hu => ?_, fun u l d hu => ?_⟩
  · by_cases hut : u = t
    · subst hut
      rw [show _ = some (Running.mk n o p) from resume_self c u n o p] at hu
      cases hu
      exact hself
    · rw [show _ = c.thread u from resume_ne c n o p hut] at hu
      obtain ⟨h, hd, ho⟩ := hm.running u n' o' p' hu
      exact ⟨h, hd, fun l d => (hother u l d hut).trans (ho l d)⟩
  · by_cases hut : u = t
    · subst hut
      rw [show _ = some (Running.mk n o p) from resume_self c u n o p] at hu
      cases hu
    · rw [show _ = c.thread u from resume_ne c n o p hut] at hu
      intro hw
      exact hm.idle u l d hu ((hother u l d hut).mp hw)

variable [DecidableEq L] {sys : System L C R S Op Ret}

theorem LocksMatch.tstep {c c' : Config T L C R S Op Ret} {t : T} (hm : LocksMatch c)
    (hre : sys.reentrant = false) (h : TStep sys t c c') : LocksMatch c' := by
  cases h with
  | @lock n o l k hth hfree =>
    obtain ⟨_, ⟨rfl, hk⟩, ho⟩ := hm.running t _ _ _ hth
    refine hm.resume ⟨some l, hk, fun l' d => ?_⟩ fun u l' d hu => ?_
    · by_cases hl : l' = l
      · subst hl; simp [eq_comm]
      · simp [hl, Ne.symm hl, ho l' d]
    · by_cases hl : l' = l
      · subst hl; simp [hfree, Ne.symm hu]
      · simp [hl]
  | relock hth hr _ => rw [hre] at hr; cases hr
  | @unlock n o l k d hth hown =>
    obtain ⟨_, ⟨rfl, hk⟩, ho⟩ := hm.running t _ _ _ hth
    obtain rfl : d = 0 := by have := ((ho l (d + 1)).mp hown).2; omega
    refine hm.resume ⟨none, hk, fun l' d => ?_⟩ fun u l' d hu => ?_
    · by_cases hl : l' = l
      · subst hl; simp
      · simp [hl, ho l' d, Ne.symm hl]
    · by_cases hl : l' = l
      · subst hl; simp [hown, Ne.symm hu]
      · simp [hl]
  | @call n o a k r s' hth hsem =>
    obtain ⟨h, hd, ho⟩ := hm.running t _ _ _ hth
    exact hm.resume ⟨h, hd r, ho⟩ fun _ _ _ _ => Iff.rfl
  | @ret n o r hth =>
    obtain ⟨_, rfl, ho⟩ := hm.running t _ _ _ hth
    refine ⟨fun u n' o' p' hu => ?_, fun u l d hu => ?_⟩
    · by_cases hut : u = t
      · simp [hut] at hu
      · exact hm.running u n' o' p' (by simpa [hut] using hu)
    · by_cases hut : u = t
      · subst hut; simp [ho l d]
      · exact hm.idle u l d (by simpa [hut] using hu)

theorem LocksMatch.step {c c' : Config T L C R S Op Ret} (hm : LocksMatch c)
    (hre : sys.reentrant = false) (himpl : ∀ o p, sys.impl o p → Disciplined none p)
    (h : Step sys c c') : LocksMatch c' := by
  cases h with
  | @invoke t o p hidle hp =>
    refine hm.resume ⟨none, himpl o p hp, fun l d => ?_⟩ fun _ _ _ _ => Iff.rfl
    simp [hm.idle t l d hidle]
  | thread ht => exact hm.tstep hre ht
  | crash _ => exact ⟨fun _ _ _ _ hu => by simp at hu, fun _ _ _ _ => by simp⟩

theorem Reachable.locksMatch {s : S} {c : Config T L C R S Op Ret}
    (hre : sys.reentrant = false) (himpl : ∀ o p, sys.impl o p → Disciplined none p)
    (h : Reachable sys s c) : LocksMatch c := by
  induction h with
  | refl => exact ⟨fun _ _ _ _ hu => by simp [Config.init] at hu, fun _ _ _ _ => by simp [Config.init]⟩
  | tail _ hs ih => exact ih.step hre himpl hs

/-- A thread that does not wait for a lock can go on. -/
theorem LocksMatch.can_step {c : Config T L C R S Op Ret} (hm : LocksMatch c)
    (htot : ∀ a s, ∃ r s', sys.sem a s r s') {t : T} {x : Running L C R Op Ret}
    (hth : c.thread t = some x) (hnolock : ∀ l k, x.prog = .lock l k → c.owner l = none) :
    ∃ c', TStep sys t c c' := by
  obtain ⟨n, o, p⟩ := x
  cases p with
  | ret r => exact ⟨_, .ret hth⟩
  | lock l k => exact ⟨_, .lock hth (hnolock l k rfl)⟩
  | unlock l k =>
    obtain ⟨_, ⟨rfl, _⟩, ho⟩ := hm.running t _ _ _ hth
    exact ⟨_, .unlock (d := 0) hth ((ho l 1).mpr ⟨rfl, rfl⟩)⟩
  | call a k =>
    obtain ⟨r, s', hs⟩ := htot a c.state
    exact ⟨_, .call hth hs⟩

/-- **No deadlock.** While some operation has not returned, some thread can
take a step: a thread waits only for a lock whose holder does not wait. -/
theorem LocksMatch.progress {c : Config T L C R S Op Ret} (hm : LocksMatch c)
    (htot : ∀ a s, ∃ r s', sys.sem a s r s') {t : T} (hrun : c.thread t ≠ none) :
    ∃ u c', TStep sys u c c' := by
  obtain ⟨x, hx⟩ := Option.ne_none_iff_exists'.mp hrun
  by_cases hwait : ∀ l k, x.prog = .lock l k → c.owner l = none
  · exact ⟨t, hm.can_step htot hx hwait⟩
  · push Not at hwait
    obtain ⟨l, k, hp, hown⟩ := hwait
    obtain ⟨⟨u, d⟩, hu⟩ := Option.ne_none_iff_exists'.mp hown
    -- the holder is running, and a program that holds a lock asks for no other
    obtain ⟨y, hy⟩ : ∃ y, c.thread u = some y := by
      cases hc : c.thread u with
      | none => exact absurd hu (hm.idle u l d hc)
      | some y => exact ⟨y, rfl⟩
    refine ⟨u, hm.can_step htot hy fun l' k' hlock => ?_⟩
    obtain ⟨h, hd, ho⟩ := hm.running u y.num y.op y.prog hy
    rw [hlock] at hd
    rw [((ho l d).mp hu).1] at hd
    exact absurd hd.1 (by simp)

end Discipline

end Lib
