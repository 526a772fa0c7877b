import NimbusFs.Lib.Linearizability
import NimbusFs.Lib.LockInvariant

/-! # Operations inside larger operations

A program over the shared state may be one stage of a larger operation that also
talks to its own environment: a client, another process. Those calls leave the
shared state alone. If the inner program takes effect once, as a sequential object
says, so does the larger operation, at the same step, as long as what follows that
step no longer depends on the environment. -/
namespace Lib

variable {L C E : Type} {R : C → Type} {RE : E → Type} {S α β : Type}

/-! ## More calls -/

/-- The same program, among the calls of an environment as well. -/
def Prog.lift : Prog L C R α → Prog L (C ⊕ E) (Sum.elim R RE) α
  | .ret a => .ret a
  | .lock l k => .lock l k.lift
  | .unlock l k => .unlock l k.lift
  | .call c k => .call (.inl c) fun r => (k r).lift

/-- A call of the environment. -/
def Prog.ask (e : E) (k : RE e → Prog L (C ⊕ E) (Sum.elim R RE) α) :
    Prog L (C ⊕ E) (Sum.elim R RE) α :=
  .call (.inr e) k

/-- The environment answers as `env` says, and leaves the state alone. -/
def withEnv (sem : (c : C) → S → R c → S → Prop) (env : (e : E) → RE e → Prop) :
    (c : C ⊕ E) → S → Sum.elim R RE c → S → Prop
  | .inl c, s, r, t => sem c s r t
  | .inr e, s, r, t => env e r ∧ t = s

section Sim

variable [DecidableEq L] {P P' : Type} {rg : RelyGuarantee L S}
variable {sem : (c : C) → S → R c → S → Prop} {env : (e : E) → RE e → Prop}
variable {upd : S → S → P → P → Prop} {Q : (L → Nat) → P → α → S → Prop}
variable {upd' : S → S → P' → P' → Prop} {Q' : (L → Nat) → P' → α → S → Prop}
variable {held : L → Nat} {g : P} {g' : P'} {s : S}

theorem Sim.lift {p : Prog L C R α} (h : Sim rg sem upd Q p held g s) :
    Sim rg (withEnv sem env) upd Q p.lift held g s := by
  induction p generalizing held g s with
  | ret a => exact h
  | lock l k ih => exact fun s₁ hr hi => ih (h s₁ hr hi)
  | unlock l k ih =>
    intro s₁ hr hi
    obtain ⟨g', hu, hk⟩ := h s₁ hr hi
    exact ⟨g', hu, ih hk⟩
  | call c k ih =>
    intro s₁ hr hi r s₂ hs
    obtain ⟨hi₂, hg, g', hu, hk⟩ := h s₁ hr hi r s₂ hs
    exact ⟨hi₂, hg, g', hu, ih r hk⟩

/-- A call of the environment: nothing happens to the state, and the ghost stays. -/
theorem Sim.ask {e : E} {k : RE e → Prog L (C ⊕ E) (Sum.elim R RE) α}
    (hguar : ∀ s, rg.guar held s s) (hupd : ∀ s, upd s s g g)
    (hk : ∀ r, env e r → ∀ s₁, rg.rely held s s₁ → rg.inv s₁ →
      Sim rg (withEnv sem env) upd Q (k r) held g s₁) :
    Sim rg (withEnv sem env) upd Q (Prog.ask e k) held g s := by
  intro s₁ hr hi r s₂ hs
  obtain ⟨henv, rfl⟩ := hs
  exact ⟨hi, hguar s₂, g, hupd s₂, hk r henv s₂ hr hi⟩

/-- Another ghost that moves along, and another postcondition. The old one may be
used of every later state, not only of the state where the result is returned. -/
theorem Sim.reghost {M : P → P' → Prop}
    (hupd : ∀ s s' g g₁ g', M g g' → upd s s' g g₁ → ∃ g₁', upd' s s' g' g₁' ∧ M g₁ g₁')
    (hQ : ∀ held g g' a s, M g g' → rg.inv s →
      (∀ s₁, rg.rely held s s₁ → rg.inv s₁ → Q held g a s₁) → Q' held g' a s)
    {p : Prog L C R α} (hrel : M g g') (h : Sim rg sem upd Q p held g s) :
    Sim rg sem upd' Q' p held g' s := by
  induction p generalizing held g g' s with
  | ret a =>
    intro s₁ hr hi
    exact hQ held g g' a s₁ hrel hi fun s₂ hr₂ hi₂ => h s₂ (rg.rely_trans hr hr₂) hi₂
  | lock l k ih => exact fun s₁ hr hi => ih hrel (h s₁ hr hi)
  | unlock l k ih =>
    intro s₁ hr hi
    obtain ⟨g₁, hu, hk⟩ := h s₁ hr hi
    obtain ⟨g₁', hu', hrel'⟩ := hupd _ _ _ _ _ hrel hu
    exact ⟨g₁', hu', ih hrel' hk⟩
  | call c k ih =>
    intro s₁ hr hi r s₂ hs
    obtain ⟨hi₂, hg, g₁, hu, hk⟩ := h s₁ hr hi r s₂ hs
    obtain ⟨g₁', hu', hrel'⟩ := hupd _ _ _ _ _ hrel hu
    exact ⟨hi₂, hg, g₁', hu', ih r hrel' hk⟩

end Sim
/-! ## The end of an operation -/

/-- Only the environment is asked, and whatever it answers the result is `x`. -/
def Concludes (x : α) : Prog L (C ⊕ E) (Sum.elim R RE) α → Prop
  | .ret a => a = x
  | .lock _ _ => False
  | .unlock _ _ => False
  | .call (.inl _) _ => False
  | .call (.inr _) k => ∀ r, Concludes x (k r)

section Stage

variable [DecidableEq L] {rg : RelyGuarantee L S} {sem : (c : C) → S → R c → S → Prop}
variable {env : (e : E) → RE e → Prop} {s : S}

theorem Concludes.sim {P : Type} {upd : S → S → P → P → Prop} {Q : (L → Nat) → P → α → S → Prop}
    {held : L → Nat} {g : P} {x : α} {p : Prog L (C ⊕ E) (Sum.elim R RE) α}
    (hp : Concludes x p) (hguar : ∀ s, rg.guar held s s) (hupd : ∀ s, upd s s g g)
    (hQ : ∀ s₁, rg.rely held s s₁ → rg.inv s₁ → Q held g x s₁) :
    Sim rg (withEnv sem env) upd Q p held g s := by
  induction p generalizing s with
  | ret a =>
    obtain rfl : a = x := hp
    exact hQ
  | lock l k ih => exact hp.elim
  | unlock l k ih => exact hp.elim
  | call c k ih =>
    cases c with
    | inl c => exact hp.elim
    | inr e =>
      refine Sim.ask hguar hupd fun r _ s₁ hr _ => ih r (hp r) fun s₂ hr₂ hi₂ => ?_
      exact hQ s₂ (rg.rely_trans hr hr₂) hi₂

variable {A Op Op' : Type} {Ret : Op → Type} {Ret' : Op' → Type}
variable {spec : A → (o : Op) → Ret o → A → Prop} {view : S → A}
variable {spec' : A → (o : Op') → Ret' o → A → Prop} {o : Op} {o' : Op'}

/-- **The stage where an operation takes effect.** The inner program takes effect
once; what follows fixes the result of the whole from that of the inner one. Then
the whole takes effect at that step. -/
theorem LinSim.stage {p : Prog L C R (Ret o)}
    {f : Ret o → Prog L (C ⊕ E) (Sum.elim R RE) (Ret' o')} {ρ : Ret o → Ret' o'}
    (hp : LinSim rg sem spec view p) (hguar : ∀ s, rg.guar (fun _ => 0) s s)
    (hfin : ∀ r, Concludes (ρ r) (f r))
    (hspec : ∀ a r b, spec a o r b → spec' a o' (ρ r) b) (hs : rg.inv s) :
    Sim rg (withEnv sem env) (linUpd spec' view o') (linPost spec' view o') (p.lift >>= f)
      (fun _ => 0) none s := by
  -- the two ghosts are both empty, or hold the result of the inner program and what it leads to
  let Match (g : Option (Sigma Ret)) (g' : Option (Sigma Ret')) : Prop :=
    (g = none ∧ g' = none) ∨ ∃ r, g = some ⟨o, r⟩ ∧ g' = some ⟨o', ρ r⟩
  refine Sim.bind (Sim.reghost (M := Match) ?_ ?_ (.inl ⟨rfl, rfl⟩) (hp s hs).lift)
  · intro s s' g g₁ g' hrel hu
    rcases hu with ⟨hv, rfl⟩ | ⟨rfl, r, rfl, hr⟩
    · exact ⟨g', .inl ⟨hv, rfl⟩, hrel⟩
    · rcases hrel with ⟨_, rfl⟩ | ⟨_, h, _⟩
      · exact ⟨some ⟨o', ρ r⟩, .inr ⟨rfl, ρ r, rfl, hspec _ _ _ hr⟩, .inr ⟨r, rfl, rfl⟩⟩
      · cases h
  · intro held g g' r s hrel hi hpost
    obtain rfl : held = fun _ => 0 := funext (hpost s (rg.rely_refl _ _) hi).1
    refine (hfin r).sim hguar (fun _ => .inl ⟨rfl, rfl⟩) fun s₁ hr hi₁ => ⟨fun _ => rfl, ?_⟩
    rcases (hpost s₁ hr hi₁).2 with rfl | ⟨rfl, hnow⟩
    · rcases hrel with ⟨h, _⟩ | ⟨r', h, rfl⟩
      · cases h
      · cases h
        exact .inl rfl
    · rcases hrel with ⟨_, rfl⟩ | ⟨_, h, _⟩
      · exact .inr ⟨rfl, hspec _ _ _ hnow⟩
      · cases h

end Stage

/-! ## Locks that stand for an invariant -/

section LockSim

variable [DecidableEq L] {G : Type} {pr : LockProtocol L (S × G)}
variable {sem : (c : C) → S → R c → S → Prop} {env : (e : E) → RE e → Prop}
variable {Q : (L → Nat) → α → S × G → Prop} {held : L → Nat} {y : S × G}

theorem LockSim.lift {p : Prog L C R α} (h : LockSim pr sem Q p held y) :
    LockSim pr (withEnv sem env) Q p.lift held y := by
  induction p generalizing held y with
  | ret a => exact h
  | lock l k ih => exact fun z hz hi hl => ih (h z hz hi hl)
  | unlock l k ih => exact fun z hz hi => ⟨(h z hz hi).1, ih (h z hz hi).2⟩
  | call c k ih =>
    intro z hz hi r s' hs
    obtain ⟨g', hi', hg, hk⟩ := h z hz hi r s' hs
    exact ⟨g', hi', hg, ih r hk⟩

theorem LockSim.ask {e : E} {k : RE e → Prog L (C ⊕ E) (Sum.elim R RE) α}
    (hguar : ∀ x, pr.guar held x x)
    (hk : ∀ r z, LockSim pr (withEnv sem env) Q (k r) held z) :
    LockSim pr (withEnv sem env) Q (Prog.ask e k) held y := by
  intro z _ hi r s' hs
  obtain ⟨_, rfl⟩ := hs
  exact ⟨z.2, hi, hguar z, hk r z⟩

/-- The end of an operation that holds no lock any more. It keeps a promise about the
result that was made before. -/
theorem Concludes.lockSim {a : α} {p : Prog L (C ⊕ E) (Sum.elim R RE) α} {K : α → S × G → Prop}
    (hK : ∀ held y z, pr.rely held y z → K a y → K a z) (hp : Concludes a p)
    (hguar : ∀ y, pr.guar held y y) (hheld : ∀ l, held l = 0) (hy : K a y) :
    LockSim pr (withEnv sem env) (fun held a y => NoneHeld held a y ∧ K a y) p held y := by
  induction p generalizing y with
  | ret b =>
    obtain rfl : b = a := hp
    exact fun z hz _ => ⟨hheld, hK _ _ _ hz hy⟩
  | lock l k ih => exact hp.elim
  | unlock l k ih => exact hp.elim
  | call c k ih =>
    cases c with
    | inl c => exact hp.elim
    | inr e =>
      intro z hz hi r s' hs
      obtain ⟨_, rfl⟩ := hs
      exact ⟨z.2, hi, hguar z, ih r (hp r) (hK _ _ _ hz hy)⟩

end LockSim

end Lib
