import NimbusFs.Lib.Linearizability

/-! # Linearizability across stops

A pool is stopped at some moment, with operations under way, and started again with
all threads idle and all locks free, over what the stop and the restart left of the
shared state; and so on. What its clients see is one history for each of its lives.
The histories are durably linearizable when each has an order that explains it and
each life begins with the abstract state to which the order of the one before led: an
operation that a stop cut off took effect as a whole before the stop, or never does. -/
namespace Lib

section Lives

variable {T L C : Type} {R : C → Type} {S A Op : Type} {Ret : Op → Type}
variable [DecidableEq T] [DecidableEq L]

/-- Lives of a pool, with their histories. Each ends at some moment, and `restart` says
from which state the next can begin. -/
inductive Lives (sys : System L C R S Op Ret) (restart : S → S → Prop) :
    S → List (List (Event T Op Ret)) → S → Prop
  | nil {s} : Lives sys restart s [] s
  | cons {s s' t hists} {c : Config T L C R S Op Ret} : Reachable sys s c → restart c.state s' →
      Lives sys restart s' hists t → Lives sys restart s (c.hist :: hists) t

/-- Each history is explained by an order that leads to where the next one begins. -/
def DurablyLinearizable (spec : A → (o : Op) → Ret o → A → Prop) :
    A → List (List (Event T Op Ret)) → A → Prop
  | a, [], b => b = a
  | a, hist :: hists, b => ∃ lin a', Linearizes spec a hist lin ∧ Legal spec a lin a' ∧
      DurablyLinearizable spec a' hists b

variable {sys : System L C R S Op Ret} {rg : RelyGuarantee L S} {restart : S → S → Prop}
variable {spec : A → (o : Op) → Ret o → A → Prop} {view : S → A} {s t : S}
variable {hists : List (List (Event T Op Ret))}

/-- **Durable linearizability.** The programs take effect once, as `spec` says, and a
restart keeps the abstract state, whatever the operations under way had done so far. -/
theorem Lives.durablyLinearizable (hsim : ∀ o p, sys.impl o p → LinSim rg sys.sem spec view p)
    (hcrash : ∀ s s', ¬ sys.crash s s')
    (hrestart : ∀ s s', rg.inv s → restart s s' → rg.inv s' ∧ view s' = view s)
    (hinit : rg.inv s) (h : Lives sys restart s hists t) :
    DurablyLinearizable spec (view s) hists (view t) := by
  induction h with
  | nil => rfl
  | @cons s s' t hists c hreach hstop _ ih =>
    obtain ⟨G, lin, hl⟩ := hreach.exists_linInv hsim hcrash hinit
    obtain ⟨hinv, hview⟩ := hrestart c.state s' hl.inv hstop
    refine ⟨lin, view c.state, ?_, hl.legal, hview ▸ ih hinv⟩
    exact ⟨hl.explained.once, ⟨_, hl.legal⟩, hl.explained.started, hl.explained.returned,
      hl.explained.realTime⟩

omit [DecidableEq T] in
/-- A thread alone, at any moment on its way: it has taken effect as a whole, or not
at all. -/
theorem Sim.reaches_spec {o : Op} {sem : (c : C) → S → R c → S → Prop} {p : Prog L C R (Ret o)}
    {held : L → Nat} {g : Option (Sigma Ret)} {a₀ : A} {s t : S}
    (hsim : Sim rg sem (linUpd spec view o) (linPost spec view o) p held g s) (hinv : rg.inv s)
    (hg : (g = none ∧ view s = a₀) ∨ ∃ r, g = some ⟨o, r⟩ ∧ spec a₀ o r (view s))
    (h : Prog.Reaches sem p s t) : rg.inv t ∧ (view t = a₀ ∨ ∃ r, spec a₀ o r (view t)) := by
  have hhere : view s = a₀ ∨ ∃ r, spec a₀ o r (view s) :=
    hg.imp (fun h => h.2) fun ⟨r, _, hr⟩ => ⟨r, hr⟩
  have hmove : ∀ {s' g'}, linUpd spec view o s s' g g' →
      (g' = none ∧ view s' = a₀) ∨ ∃ r, g' = some ⟨o, r⟩ ∧ spec a₀ o r (view s') := by
    intro s' g' hu
    rcases hu with ⟨hv, rfl⟩ | ⟨hn, r, rfl, hs⟩
    · rw [hv]; exact hg
    · rcases hg with ⟨_, rfl⟩ | ⟨_, hsome, _⟩
      · exact .inr ⟨r, rfl, hs⟩
      · rw [hn] at hsome; cases hsome
  cases p with
  | ret a => rw [show t = s from h]; exact ⟨hinv, hhere⟩
  | lock l k => exact Sim.reaches_spec (hsim s (rg.rely_refl _ _) hinv) hinv hg h
  | unlock l k =>
    obtain ⟨g', hu, hk⟩ := hsim s (rg.rely_refl _ _) hinv
    exact Sim.reaches_spec hk hinv (hmove hu) h
  | call c k =>
    rcases h with rfl | ⟨x, s', hs, h⟩
    · exact ⟨hinv, hhere⟩
    · obtain ⟨hi, _, g', hu, hk⟩ := hsim s (rg.rely_refl _ _) hinv x s' hs
      exact Sim.reaches_spec hk hi (hmove hu) h

omit [DecidableEq T] in
theorem LinSim.reaches {o : Op} {sem : (c : C) → S → R c → S → Prop} {p : Prog L C R (Ret o)}
    (hsim : LinSim rg sem spec view p) (hinv : rg.inv s) (h : Prog.Reaches sem p s t) :
    rg.inv t ∧ (view t = view s ∨ ∃ r, spec (view s) o r (view t)) :=
  Sim.reaches_spec (hsim s hinv) hinv (.inl ⟨rfl, rfl⟩) h

omit [DecidableEq T]

/-- What every operation that was started keeps, holds after the last stop. -/
theorem DurablyLinearizable.keeps {J : A → Prop} {a b : A}
    (h : DurablyLinearizable spec a hists b)
    (hstep : ∀ hist ∈ hists, ∀ n u o, .inv n u o ∈ hist → ∀ r a b, J a → spec a o r b → J b)
    (ha : J a) : J b := by
  induction hists generalizing a with
  | nil => exact h ▸ ha
  | cons hist hists ih =>
    obtain ⟨lin, a', hlin, hlegal, hrest⟩ := h
    refine ih hrest (fun hist' hmem => hstep hist' (List.mem_cons_of_mem _ hmem)) ?_
    refine hlegal.keeps (fun n o r hm a b hJ hspec => ?_) ha
    obtain ⟨u, hu⟩ := hlin.started n o r hm
    exact hstep hist List.mem_cons_self n u o hu r a b hJ hspec

/-- What followed an operation that returned: only operations that had not returned
before it was started. -/
theorem Linearizes.after {a₀ a' : A} {hist : List (Event T Op Ret)} {lin : List (Nat × Sigma Ret)}
    (hlin : Linearizes spec a₀ hist lin) (hlegal : Legal spec a₀ lin a') {n : Nat} {u : T} {o : Op}
    {r : Ret o} (hres : .res n u o r ∈ hist) :
    ∃ before a b after, (∀ x ∈ before ++ after, x ∈ lin) ∧ Legal spec a₀ before a ∧
      spec a o r b ∧ Legal spec b after a' ∧
      ∀ x ∈ after, ∀ u₁ o₁ r₁ u₂, ¬ List.Sublist [.res x.1 u₁ o₁ r₁, .inv n u₂ o] hist := by
  have hmem := hlin.returned n u o r hres
  obtain ⟨before, after, rfl⟩ := List.append_of_mem hmem
  obtain ⟨a, hbefore, b, hspec, hafter⟩ := hlegal.append
  refine ⟨before, a, b, after, fun x hx => ?_, hbefore, hspec, hafter, fun x hx u₁ o₁ r₁ u₂ hs => ?_⟩
  · rcases List.mem_append.mp hx with hx | hx
    · exact List.mem_append_left _ hx
    · exact List.mem_append_right _ (List.mem_cons_of_mem _ hx)
  · have hlater : List.Sublist [n, x.1] ((before ++ (n, ⟨o, r⟩) :: after).map Prod.fst) := by
      have htwo : List.Sublist [(n, ⟨o, r⟩), x] (before ++ (n, ⟨o, r⟩) :: after) :=
        ((List.singleton_sublist.mpr hx).cons_cons _).trans (List.sublist_append_right _ _)
      exact htwo.map Prod.fst
    have hearlier := hlin.realTime _ _ _ _ _ _ _ hs (List.mem_map_of_mem hmem)
    exact not_both_orders hlin.once hlater hearlier

end Lives

end Lib
