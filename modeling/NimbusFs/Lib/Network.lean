import NimbusFs.Lib.Durable
import NimbusFs.Lib.Tracked

/-! # Pools that answer each other

Several pools run side by side, each over a state of its own, and each may be stopped
and started again. What the environment of one answers depends on what was observed of
all of them so far: an answer may be what an operation of another pool returned.

Whether an answer is good can then be shown for one pool at a time. A pool that gets
only good answers gives only good ones; no answer is the first that is not good, so
every pool runs as it would among good answers alone. -/
namespace Lib

section Network

variable {N T L C E : Type} {R : C → Type} {RE : E → Type} {S Op : Type} {Ret : Op → Type}

/-- The programs of each pool, the calls on its state and how it is started again, and
the answers that the pools can get once so much was observed. -/
structure NetworkSetup (N T L C E : Type) (R : C → Type) (RE : E → Type) (S Op : Type)
    (Ret : Op → Type) where
  impl : N → (o : Op) → Prog L (C ⊕ E) (Sum.elim R RE) (Ret o) → Prop
  sem : N → (c : C) → S → R c → S → Prop
  restart : N → S → S → Prop
  reentrant : Bool
  answers : (N → List (Event T Op Ret)) → (e : E) → RE e → Prop

/-- One pool on its own, with these operations and these answers. -/
def NetworkSetup.pool (net : NetworkSetup N T L C E R RE S Op Ret) (n : N) (served : Op → Prop)
    (env : (e : E) → RE e → Prop) : System L (C ⊕ E) (Sum.elim R RE) S Op Ret where
  impl o p := served o ∧ net.impl n o p
  sem := withEnv (net.sem n) env
  crash _ _ := False
  reentrant := net.reentrant

/-- A pool in its present life, and what was observed of it in the lives before. -/
structure Member (T L C E : Type) (R : C → Type) (RE : E → Type) (S Op : Type)
    (Ret : Op → Type) where
  past : List (List (Event T Op Ret))
  config : Config T L (C ⊕ E) (Sum.elim R RE) S Op Ret

/-- All that was observed of a pool. -/
def Member.observed (m : Member T L C E R RE S Op Ret) : List (Event T Op Ret) :=
  m.past.flatten ++ m.config.hist

/-- A pool that has not been started before. -/
def Member.start (s : S) : Member T L C E R RE S Op Ret := ⟨[], Config.init s⟩

variable [DecidableEq N] [DecidableEq T] [DecidableEq L]

/-- One pool takes a step, or is stopped and started again. -/
inductive NetworkStep (net : NetworkSetup N T L C E R RE S Op Ret) :
    (N → Member T L C E R RE S Op Ret) → (N → Member T L C E R RE S Op Ret) → Prop
  | run {w n c} : Step (net.pool n (fun _ => True) (net.answers fun m => (w m).observed))
      (w n).config c → NetworkStep net w (Function.update w n ⟨(w n).past, c⟩)
  | restart {w n s} : net.restart n (w n).config.state s →
      NetworkStep net w (Function.update w n ⟨(w n).past ++ [(w n).config.hist], Config.init s⟩)

/-- The lives of a pool as lives of `sys`. -/
def Member.RunOf (sys : System L (C ⊕ E) (Sum.elim R RE) S Op Ret) (restart : S → S → Prop) (s₀ : S)
    (m : Member T L C E R RE S Op Ret) : Prop :=
  ∃ s, Lives sys restart s₀ m.past s ∧ Reachable sys s m.config

omit [DecidableEq N] in
/-- One more life. -/
theorem Lives.snoc {sys : System L C R S Op Ret} {restart : S → S → Prop} {s t t' : S}
    {hists : List (List (Event T Op Ret))} {c : Config T L C R S Op Ret}
    (h : Lives sys restart s hists t) (hc : Reachable sys t c) (hr : restart c.state t') :
    Lives sys restart s (hists ++ [c.hist]) t' := by
  induction h with
  | nil => exact .cons hc hr .nil
  | cons hreach hstop _ ih => exact .cons hreach hstop (ih hc)

omit [DecidableEq N] in
/-- What a life keeps of the state, and a new start with it, all lives keep, and what a
life gives for its history, all give. -/
theorem Lives.keeps {sys : System L C R S Op Ret} {restart : S → S → Prop} {s t : S}
    {hists : List (List (Event T Op Ret))} {J : S → Prop} {K : List (Event T Op Ret) → Prop}
    (hlife : ∀ s (c : Config T L C R S Op Ret), J s → Reachable sys s c → J c.state ∧ K c.hist)
    (hrestart : ∀ s s', J s → restart s s' → J s') (h : Lives sys restart s hists t) (hs : J s) :
    J t ∧ ∀ hist ∈ hists, K hist := by
  induction h with
  | nil => exact ⟨hs, fun _ hmem => absurd hmem List.not_mem_nil⟩
  | cons hreach hstop _ ih =>
    obtain ⟨hend, hhist⟩ := hlife _ _ hs hreach
    obtain ⟨ht, hrest⟩ := ih (hrestart _ _ hend hstop)
    exact ⟨ht, List.forall_mem_cons.mpr ⟨hhist, hrest⟩⟩

omit [DecidableEq N] in
theorem Member.RunOf.keeps {sys : System L (C ⊕ E) (Sum.elim R RE) S Op Ret}
    {restart : S → S → Prop} {s : S} {m : Member T L C E R RE S Op Ret} {J : S → Prop}
    {K : Event T Op Ret → Prop}
    (hlife : ∀ s (c : Config T L (C ⊕ E) (Sum.elim R RE) S Op Ret), J s → Reachable sys s c →
      J c.state ∧ ∀ e ∈ c.hist, K e)
    (hrestart : ∀ s s', J s → restart s s' → J s') (h : m.RunOf sys restart s) (hs : J s) :
    J m.config.state ∧ ∀ e ∈ m.observed, K e := by
  obtain ⟨s', hlives, hreach⟩ := h
  obtain ⟨hstart, hpast⟩ := hlives.keeps (K := fun hist => ∀ e ∈ hist, K e) hlife hrestart hs
  obtain ⟨hstate, hnow⟩ := hlife s' m.config hstart hreach
  refine ⟨hstate, fun e he => ?_⟩
  rcases List.mem_append.mp he with he | he
  · obtain ⟨hist, hmem, he⟩ := List.mem_flatten.mp he
    exact hpast hist hmem e he
  · exact hnow e he

variable {net : NetworkSetup N T L C E R RE S Op Ret} {s₀ : N → S}
variable {w w' : N → Member T L C E R RE S Op Ret}

/-- What was observed stays observed. -/
theorem NetworkStep.observed (h : NetworkStep net w w') {n : N} {e : Event T Op Ret}
    (he : e ∈ (w n).observed) : e ∈ (w' n).observed := by
  cases h with
  | @run m c hs =>
    by_cases hn : n = m
    · subst hn
      obtain ⟨rest, hhist, _⟩ := later_hist (.single hs)
      rw [Function.update_self]
      show e ∈ (w n).past.flatten ++ c.hist
      rw [hhist, ← List.append_assoc]
      exact List.mem_append_left _ he
    · rwa [Function.update_of_ne hn]
  | @restart m s _ =>
    by_cases hn : n = m
    · subst hn
      simpa [Member.observed, Config.init] using he
    · rwa [Function.update_of_ne hn]

theorem observed_mono (h : Relation.ReflTransGen (NetworkStep net) w w') {n : N}
    {e : Event T Op Ret} (he : e ∈ (w n).observed) : e ∈ (w' n).observed := by
  induction h with
  | refl => exact he
  | tail _ hs ih => exact hs.observed ih

omit [DecidableEq N] in
/-- A step among some answers is one among more, if its operation is served. -/
theorem NetworkSetup.step_mono {n : N} {served : Op → Prop} {env env' : (e : E) → RE e → Prop}
    {c c' : Config T L (C ⊕ E) (Sum.elim R RE) S Op Ret} (henv : ∀ e r, env e r → env' e r)
    (hserved : ∀ k t o, .inv k t o ∈ c'.hist → served o)
    (h : Step (net.pool n (fun _ => True) env) c c') : Step (net.pool n served env') c c' := by
  cases h with
  | @invoke t o p hidle hp =>
    have ho : served o := hserved c.next t o (List.mem_append_right _ List.mem_cons_self)
    exact .invoke hidle ⟨ho, hp.2⟩
  | thread ht =>
    have hsem : ∀ a s s' r u, s = s' → (net.pool n (fun _ => True) env).sem a s r u →
        ∃ u', (net.pool n served env').sem a s' r u' ∧ u = u' := by
      intro a s s' r u heq hs
      subst heq
      cases a with
      | inl a => exact ⟨u, hs, rfl⟩
      | inr e => exact ⟨u, ⟨henv e r hs.1, hs.2⟩, rfl⟩
    obtain ⟨_, rfl, hstep⟩ := ht.simulate hsem (fun hre => hre) rfl
    exact .thread hstep
  | crash hc => exact hc.elim

/-- **Among good answers.** Where pools that get good answers give good answers, in
every run each pool runs as it would by itself, with the operations that were started
in the run and with good answers. -/
theorem NetworkSetup.assume_guarantee {served : N → Op → Prop} {good : (e : E) → RE e → Prop}
    (hgood : ∀ w : N → Member T L C E R RE S Op Ret,
      (∀ n, (w n).RunOf (net.pool n (served n) good) (net.restart n) (s₀ n)) →
      ∀ e r, net.answers (fun n => (w n).observed) e r → good e r)
    (h : Relation.ReflTransGen (NetworkStep net) (fun n => .start (s₀ n)) w)
    (hserved : ∀ n k t o, .inv k t o ∈ (w n).observed → served n o) (n : N) :
    (w n).RunOf (net.pool n (served n) good) (net.restart n) (s₀ n) := by
  induction h generalizing n with
  | refl => exact ⟨s₀ n, .nil, .refl⟩
  | @tail w w' _ hs ih =>
    have hbefore : ∀ n, (w n).RunOf (net.pool n (served n) good) (net.restart n) (s₀ n) :=
      ih fun n k t o hinv => hserved n k t o (hs.observed hinv)
    obtain ⟨s, hlives, hreach⟩ := hbefore n
    cases hs with
    | @run m c hstep =>
      by_cases hn : n = m
      · subst hn
        have hstarted : ∀ k t o, .inv k t o ∈ c.hist → served n o := fun k t o hinv =>
          hserved n k t o (by
            rw [Function.update_self]
            exact List.mem_append_right _ hinv)
        rw [Function.update_self]
        exact ⟨s, hlives, hreach.tail (net.step_mono (hgood w hbefore) hstarted hstep)⟩
      · rw [Function.update_of_ne hn]
        exact ⟨s, hlives, hreach⟩
    | @restart m s' hrestart =>
      by_cases hn : n = m
      · subst hn
        rw [Function.update_self]
        exact ⟨s', hlives.snoc hreach hrestart, .refl⟩
      · rw [Function.update_of_ne hn]
        exact ⟨s, hlives, hreach⟩

/-- A run of one pool, among answers that it can get from now on, is a run of all. -/
theorem NetworkSetup.run_of_pool {n : N} {env : (e : E) → RE e → Prop}
    {c : Config T L (C ⊕ E) (Sum.elim R RE) S Op Ret}
    (henv : ∀ obs : N → List (Event T Op Ret), (∀ m, ∀ e ∈ (w m).observed, e ∈ obs m) →
      ∀ e r, env e r → net.answers obs e r)
    (h : Relation.ReflTransGen (Step (net.pool n (fun _ => True) env)) (w n).config c) :
    Relation.ReflTransGen (NetworkStep net) w (Function.update w n ⟨(w n).past, c⟩) := by
  induction h with
  | refl =>
    rw [show (⟨(w n).past, (w n).config⟩ : Member T L C E R RE S Op Ret) = w n from rfl,
      Function.update_eq_self]
  | @tail c c' _ hs ih =>
    have hnow := henv _ fun m e he => observed_mono ih he
    have hstep : NetworkStep net (Function.update w n ⟨(w n).past, c⟩) _ :=
      .run (n := n) (net.step_mono hnow (fun _ _ _ _ => trivial) (by simpa using hs))
    simpa using ih.tail hstep

end Network

end Lib
