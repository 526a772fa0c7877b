import NimbusFs.Lib.Pool

/-! # Rely and guarantee for programs with locks

What a thread may assume of the others depends on the locks it holds, and so
does what it promises them. `Sim` says, by recursion over the tree of a
program, that from a given state the thread keeps its promise at each call,
however the others move the state between two of its calls. A ghost value of
the thread goes along; how a step may change it (`upd`) is up to the use. -/
namespace Lib

/-- A state invariant with the assumption and the promise of a thread holding
the locks `h`. A promise made with some locks held is an assumption of each
thread that holds none of them. -/
structure RelyGuarantee (L S : Type) where
  inv : S → Prop
  rely : (L → Nat) → S → S → Prop
  guar : (L → Nat) → S → S → Prop
  rely_refl : ∀ h s, rely h s s
  rely_trans : ∀ {h s t u}, rely h s t → rely h t u → rely h s u
  compat : ∀ {h h' s t}, (∀ l, h l = 0 ∨ h' l = 0) → inv s → guar h s t → rely h' s t

section Sim

variable {L C : Type} {R : C → Type} {S P α β : Type} [DecidableEq L]

/-- From `s`, holding `held` and with ghost `g`, every step of the program
keeps the invariant and the promise, moves the ghost as `upd` allows, and a
result is returned in a state where `Q` holds. -/
def Sim (rg : RelyGuarantee L S) (sem : (c : C) → S → R c → S → Prop)
    (upd : S → S → P → P → Prop) (Q : (L → Nat) → P → α → S → Prop) :
    Prog L C R α → (L → Nat) → P → S → Prop
  | .ret a, held, g, s => ∀ s₁, rg.rely held s s₁ → rg.inv s₁ → Q held g a s₁
  | .lock l k, held, g, s => ∀ s₁, rg.rely held s s₁ → rg.inv s₁ →
      Sim rg sem upd Q k (Function.update held l (held l + 1)) g s₁
  | .unlock l k, held, g, s => ∀ s₁, rg.rely held s s₁ → rg.inv s₁ →
      ∃ g', upd s₁ s₁ g g' ∧ Sim rg sem upd Q k (Function.update held l (held l - 1)) g' s₁
  | .call c k, held, g, s => ∀ s₁, rg.rely held s s₁ → rg.inv s₁ → ∀ r s₂, sem c s₁ r s₂ →
      rg.inv s₂ ∧ rg.guar held s₁ s₂ ∧ ∃ g', upd s₁ s₂ g g' ∧ Sim rg sem upd Q (k r) held g' s₂

variable {rg : RelyGuarantee L S} {sem : (c : C) → S → R c → S → Prop}
variable {upd : S → S → P → P → Prop} {Q Q' : (L → Nat) → P → α → S → Prop}

/-- The others do not disturb a thread. -/
theorem Sim.stable {p : Prog L C R α} {held : L → Nat} {g : P} {s s₁ : S}
    (h : Sim rg sem upd Q p held g s) (hr : rg.rely held s s₁) :
    Sim rg sem upd Q p held g s₁ := by
  cases p with
  | ret a => exact fun s₂ h₂ => h s₂ (rg.rely_trans hr h₂)
  | lock l k => exact fun s₂ h₂ => h s₂ (rg.rely_trans hr h₂)
  | unlock l k => exact fun s₂ h₂ => h s₂ (rg.rely_trans hr h₂)
  | call c k => exact fun s₂ h₂ => h s₂ (rg.rely_trans hr h₂)

/-- A thread may wait for the others before it goes on. -/
theorem Sim.of_later {p : Prog L C R α} {held : L → Nat} {g : P} {s : S}
    (h : ∀ s₁, rg.rely held s s₁ → rg.inv s₁ → Sim rg sem upd Q p held g s₁) :
    Sim rg sem upd Q p held g s := by
  cases p with
  | ret a => exact fun s₁ h₁ hi => h s₁ h₁ hi s₁ (rg.rely_refl _ _) hi
  | lock l k => exact fun s₁ h₁ hi => h s₁ h₁ hi s₁ (rg.rely_refl _ _) hi
  | unlock l k => exact fun s₁ h₁ hi => h s₁ h₁ hi s₁ (rg.rely_refl _ _) hi
  | call c k => exact fun s₁ h₁ hi => h s₁ h₁ hi s₁ (rg.rely_refl _ _) hi

theorem Sim.mono {p : Prog L C R α} {held : L → Nat} {g : P} {s : S}
    (hQ : ∀ held g a s, Q held g a s → Q' held g a s)
    (h : Sim rg sem upd Q p held g s) : Sim rg sem upd Q' p held g s := by
  induction p generalizing held g s with
  | ret a => exact fun s₁ hr hi => hQ _ _ _ _ (h s₁ hr hi)
  | lock l k ih => exact fun s₁ hr hi => ih (h s₁ hr hi)
  | unlock l k ih =>
    intro s₁ hr hi
    obtain ⟨g', hu, hk⟩ := h s₁ hr hi
    exact ⟨g', hu, ih hk⟩
  | call c k ih =>
    intro s₁ hr hi r s₂ hs
    obtain ⟨hi₂, hg, g', hu, hk⟩ := h s₁ hr hi r s₂ hs
    exact ⟨hi₂, hg, g', hu, ih r hk⟩

/-- Sequencing: the rest is proved from what the first part ends in. -/
theorem Sim.bind {Q : (L → Nat) → P → β → S → Prop} {p : Prog L C R α}
    {f : α → Prog L C R β} {held : L → Nat} {g : P} {s : S}
    (h : Sim rg sem upd (fun held g a s => Sim rg sem upd Q (f a) held g s) p held g s) :
    Sim rg sem upd Q (p >>= f) held g s := by
  induction p generalizing held g s with
  | ret a => exact Sim.of_later h
  | lock l k ih => exact fun s₁ hr hi => ih (h s₁ hr hi)
  | unlock l k ih =>
    intro s₁ hr hi
    obtain ⟨g', hu, hk⟩ := h s₁ hr hi
    exact ⟨g', hu, ih hk⟩
  | call c k ih =>
    intro s₁ hr hi r s₂ hs
    obtain ⟨hi₂, hg, g', hu, hk⟩ := h s₁ hr hi r s₂ hs
    exact ⟨hi₂, hg, g', hu, ih r hk⟩

/-- A thread alone: all along the way the invariant holds, and what each call the
program may make does to a state of the invariant (`Rel`) adds up. -/
theorem Sim.reaches {ans : (c : C) → R c → Prop} {calls : C → Prop} {Rel : S → S → Prop}
    (hans : ∀ c s r t, sem c s r t → ans c r) (hrefl : ∀ s, Rel s s)
    (htrans : ∀ {s t u}, Rel s t → Rel t u → Rel s u)
    (hcall : ∀ c, calls c → ∀ s r t, rg.inv s → sem c s r t → Rel s t)
    {p : Prog L C R α} (hp : p.Uses ans calls) {held : L → Nat} {g : P} {s t : S}
    (hsim : Sim rg sem upd Q p held g s) (hinv : rg.inv s) (h : Prog.Reaches sem p s t) :
    rg.inv t ∧ Rel s t := by
  induction p generalizing held g s with
  | ret a => rw [show t = s from h]; exact ⟨hinv, hrefl s⟩
  | lock l k ih => exact ih hp (hsim s (rg.rely_refl _ _) hinv) hinv h
  | unlock l k ih =>
    obtain ⟨g', _, hk⟩ := hsim s (rg.rely_refl _ _) hinv
    exact ih hp hk hinv h
  | call c k ih =>
    rcases h with rfl | ⟨r, s', hs, h⟩
    · exact ⟨hinv, hrefl t⟩
    · obtain ⟨hi, _, g', _, hk⟩ := hsim s (rg.rely_refl _ _) hinv r s' hs
      obtain ⟨ht, hrel⟩ := ih r (hp.2 r (hans c s r s' hs)) hk hi h
      exact ⟨ht, htrans (hcall c hp.1 s r s' hinv hs) hrel⟩

end Sim

/-! ## The pool -/

section Pool

variable {T L C : Type} {R : C → Type} {S P Op : Type} {Ret : Op → Type}
variable [DecidableEq T] [DecidableEq L]
variable {sys : System L C R S Op Ret} {rg : RelyGuarantee L S}
variable {upd : Op → S → S → P → P → Prop}
variable {Q : (o : Op) → (L → Nat) → P → Ret o → S → Prop}

/-- Every running thread is where `Sim` wants it, with the ghosts `G`. -/
def AllSim (sys : System L C R S Op Ret) (rg : RelyGuarantee L S)
    (upd : Op → S → S → P → P → Prop) (Q : (o : Op) → (L → Nat) → P → Ret o → S → Prop)
    (c : Config T L C R S Op Ret) (G : T → P) : Prop :=
  ∀ t n o p, c.thread t = some ⟨n, o, p⟩ →
    Sim rg sys.sem (upd o) (Q o) p (heldBy c t) (G t) c.state

theorem heldBy_setOwner_self (c : Config T L C R S Op Ret) (t : T) (l : L) (d : Nat) :
    heldBy (c.setOwner l (if d = 0 then none else some (t, d))) t =
      Function.update (heldBy c t) l d := by
  funext l'
  by_cases hl : l' = l
  · subst hl
    by_cases hd : d = 0 <;> simp [heldBy, Config.setOwner, hd]
  · simp [heldBy, Config.setOwner, hl]

theorem heldBy_setOwner_ne (c : Config T L C R S Op Ret) {t u : T} (hu : u ≠ t) {l : L}
    (hl : heldBy c u l = 0) (d : Nat) :
    heldBy (c.setOwner l (if d = 0 then none else some (t, d))) u = heldBy c u := by
  funext l'
  by_cases hll : l' = l
  · subst hll
    rw [hl]
    by_cases hd : d = 0 <;> simp [heldBy, Config.setOwner, hd, Ne.symm hu]
  · simp [heldBy, Config.setOwner, hll]

/-- A step of `t` leaves the locks of the others alone. -/
theorem TStep.heldBy_ne {c c' : Config T L C R S Op Ret} {t u : T} (h : TStep sys t c c')
    (hu : u ≠ t) : heldBy c' u = heldBy c u := by
  cases h with
  | @lock n o l k _ hown =>
    exact heldBy_setOwner_ne (c.resume t n o k) hu (by simp [heldBy, hown]) 1
  | @relock n o l k d _ _ hown =>
    exact heldBy_setOwner_ne (c.resume t n o k) hu (by simp [heldBy, hown, Ne.symm hu]) (d + 1)
  | @unlock n o l k d _ hown =>
    exact heldBy_setOwner_ne (c.resume t n o k) hu (by simp [heldBy, hown, Ne.symm hu]) d
  | call _ _ => rfl
  | ret _ => rfl

theorem TStep.thread_ne {c c' : Config T L C R S Op Ret} {t u : T} (h : TStep sys t c c')
    (hu : u ≠ t) : c'.thread u = c.thread u := by
  cases h with
  | lock _ _ => exact resume_ne c _ _ _ hu
  | relock _ _ _ => exact resume_ne c _ _ _ hu
  | unlock _ _ => exact resume_ne c _ _ _ hu
  | call _ _ => exact resume_ne c _ _ _ hu
  | ret _ => exact Function.update_of_ne hu _ _

/-- Idle threads hold no lock, if `t` holds none where it returns. -/
theorem TStep.idle {c c' : Config T L C R S Op Ret} {t : T} (h : TStep sys t c c')
    (hidle : ∀ u, c.thread u = none → ∀ l, heldBy c u l = 0)
    (hself : c'.thread t = none → ∀ l, heldBy c' t l = 0) (u : T) (hu : c'.thread u = none) :
    ∀ l, heldBy c' u l = 0 := by
  by_cases hut : u = t
  · subst hut
    exact hself hu
  · rw [h.heldBy_ne hut]
    exact hidle u (h.thread_ne hut ▸ hu)

/-- Thread `t` starts `p`; the others stay where they are. -/
theorem AllSim.start {c : Config T L C R S Op Ret} {G : T → P} (hall : AllSim sys rg upd Q c G)
    {t : T} {o : Op} {p : Prog L C R (Ret o)} {g : P}
    (hself : Sim rg sys.sem (upd o) (Q o) p (heldBy c t) g c.state) :
    AllSim sys rg upd Q (c.start t o p) (Function.update G t g) := by
  intro u n o' p' hu
  rw [start_thread] at hu
  by_cases hut : u = t
  · subst hut
    rw [Function.update_self] at hu ⊢
    cases hu
    exact hself
  · rw [Function.update_of_ne hut] at hu ⊢
    exact hall u n o' p' hu

/-- Thread `t` moves from `p` to `p'` and sets lock `l` to depth `d`; the others
keep their program, their locks and, up to the promise of `t`, the state. -/
theorem AllSim.lockStep {c : Config T L C R S Op Ret} {G : T → P}
    (hall : AllSim sys rg upd Q c G) {t : T} {n : Nat} {o : Op} {p : Prog L C R (Ret o)}
    {l : L} {d : Nat} {g' : P} (hfree : ∀ u, u ≠ t → heldBy c u l = 0)
    (hself : Sim rg sys.sem (upd o) (Q o) p (Function.update (heldBy c t) l d) g' c.state) :
    AllSim sys rg upd Q ((c.resume t n o p).setOwner l (if d = 0 then none else some (t, d)))
      (Function.update G t g') := by
  intro u n' o' p' hu
  by_cases hut : u = t
  · subst hut
    rw [setOwner_thread, resume_self] at hu
    cases hu
    rw [heldBy_setOwner_self, Function.update_self]
    exact hself
  · rw [setOwner_thread, resume_ne c n o p hut] at hu
    rw [heldBy_setOwner_ne (c.resume t n o p) hut (hfree u hut), Function.update_of_ne hut]
    exact hall u n' o' p' hu

/-- What one step of thread `t` does: the invariant stays, every thread stays
where `Sim` wants it, and only the ghost of `t` moves. A result is returned
where `Q` holds. -/
theorem AllSim.tstep {c c' : Config T L C R S Op Ret} {G : T → P} {t : T}
    (hall : AllSim sys rg upd Q c G) (hinv : rg.inv c.state)
    (hrefl : ∀ o s g, upd o s s g g) (h : TStep sys t c c') :
    rg.inv c'.state ∧ ∃ g', AllSim sys rg upd Q c' (Function.update G t g') ∧
      ∃ n o p, c.thread t = some ⟨n, o, p⟩ ∧ upd o c.state c'.state (G t) g' ∧
        ((∃ p', c'.thread = Function.update c.thread t (some ⟨n, o, p'⟩) ∧ c'.hist = c.hist) ∨
         (∃ r, c'.thread = Function.update c.thread t none ∧ g' = G t ∧
          c'.hist = c.hist ++ [.res n t o r] ∧ Q o (heldBy c' t) (G t) r c'.state)) ∧
        c'.next = c.next := by
  cases h with
  | @lock n o l k hth hown =>
    have hsim := hall t _ _ _ hth c.state (rg.rely_refl _ _) hinv
    have hz : ∀ u, heldBy c u l = 0 := fun u => by simp [heldBy, hown]
    refine ⟨hinv, G t, ?_, n, o, _, hth, hrefl _ _ _, .inl ⟨k, rfl, rfl⟩, rfl⟩
    exact hall.lockStep (d := 1) (fun u _ => hz u) (by simpa [hz t] using hsim)
  | @relock n o l k d hth _ hown =>
    have hsim := hall t _ _ _ hth c.state (rg.rely_refl _ _) hinv
    have hd : heldBy c t l = d := by simp [heldBy, hown]
    refine ⟨hinv, G t, ?_, n, o, _, hth, hrefl _ _ _, .inl ⟨k, rfl, rfl⟩, rfl⟩
    exact hall.lockStep (d := d + 1) (fun u hu => by simp [heldBy, hown, Ne.symm hu])
      (by simpa [hd] using hsim)
  | @unlock n o l k d hth hown =>
    obtain ⟨g', hu, hsim⟩ := hall t _ _ _ hth c.state (rg.rely_refl _ _) hinv
    have hd : heldBy c t l = d + 1 := by simp [heldBy, hown]
    refine ⟨hinv, g', ?_, n, o, _, hth, hu, .inl ⟨k, rfl, rfl⟩, rfl⟩
    exact hall.lockStep (fun u hu => by simp [heldBy, hown, Ne.symm hu])
      (by simpa [hd] using hsim)
  | @call n o a k r s' hth hsem =>
    obtain ⟨hi, hg, g', hu, hsim⟩ := hall t _ _ _ hth c.state (rg.rely_refl _ _) hinv r s' hsem
    refine ⟨hi, g', ?_, n, o, _, hth, hu, .inl ⟨k r, rfl, rfl⟩, rfl⟩
    intro u n' o' p' huth
    by_cases hut : u = t
    · subst hut
      rw [show _ = some (Running.mk n o (k r)) from resume_self c u n o (k r)] at huth
      cases huth
      rw [Function.update_self]
      exact hsim
    · rw [show _ = c.thread u from resume_ne c n o (k r) hut] at huth
      rw [Function.update_of_ne hut]
      exact (hall u n' o' p' huth).stable
        (rg.compat (heldBy_disjoint c (Ne.symm hut)) hinv hg)
  | @ret n o r hth =>
    have hq := hall t _ _ _ hth c.state (rg.rely_refl _ _) hinv
    refine ⟨hinv, G t, ?_, n, o, _, hth, hrefl _ _ _, .inr ⟨r, rfl, rfl, rfl, hq⟩, rfl⟩
    intro u n' o' p' huth
    by_cases hut : u = t
    · simp [hut] at huth
    · rw [Function.update_of_ne hut]
      exact hall u n' o' p' (by simpa [hut] using huth)

/-- The invariant holds, and what the operations returned so far is right by `K`.
Every running thread is where `Sim` wants it, an idle one holds no lock; `I` is
what is known of every ghost. -/
structure Sound (sys : System L C R S Op Ret) (rg : RelyGuarantee L S)
    (upd : Op → S → S → P → P → Prop) (Q : (o : Op) → (L → Nat) → P → Ret o → S → Prop)
    (I : P → Prop) (K : (o : Op) → Ret o → Prop) (c : Config T L C R S Op Ret) : Prop where
  inv : rg.inv c.state
  sims : ∃ G, AllSim sys rg upd Q c G ∧ ∀ t, I (G t)
  idle : ∀ t, c.thread t = none → ∀ l, heldBy c t l = 0
  results : ∀ n t o r, .res n t o r ∈ c.hist → K o r

section Sound

variable {I : P → Prop} {K : (o : Op) → Ret o → Prop} {g₀ : P}
variable {c c' : Config T L C R S Op Ret} {t : T}

theorem Sound.start {o : Op} {p : Prog L C R (Ret o)} (hs : Sound sys rg upd Q I K c)
    (hidle : c.thread t = none)
    (hself : Sim rg sys.sem (upd o) (Q o) p (fun _ => 0) g₀ c.state) (hI₀ : I g₀) :
    Sound sys rg upd Q I K (c.start t o p) := by
  obtain ⟨G, hall, hG⟩ := hs.sims
  rw [← show heldBy c t = fun _ => 0 from funext (hs.idle t hidle)] at hself
  have hI : ∀ u, I (Function.update G t g₀ u) :=
    (Function.forall_update_iff G fun _ => I).mpr ⟨hI₀, fun u _ => hG u⟩
  refine ⟨hs.inv, ⟨_, hall.start hself, hI⟩, fun u hu => ?_, fun n u o' r hr => ?_⟩
  · exact hs.idle u (start_idle hu)
  · exact hs.results n u o' r (by simpa [Config.start] using hr)

theorem Sound.tstep (hrefl : ∀ o s g, upd o s s g g)
    (hpost : ∀ o held g r s, Q o held g r s → ∀ l, held l = 0)
    (hI : ∀ o s s' g g', I g → upd o s s' g g' → I g')
    (hK : ∀ o held g r s, I g → Q o held g r s → K o r) (hs : Sound sys rg upd Q I K c)
    (h : TStep sys t c c') : Sound sys rg upd Q I K c' := by
  obtain ⟨G, hall, hG⟩ := hs.sims
  obtain ⟨hinv, g', hall', n, o, p, hth, hupd, hcase, _⟩ := hall.tstep hs.inv hrefl h
  have hG' : ∀ u, I (Function.update G t g' u) :=
    (Function.forall_update_iff G fun _ => I).mpr ⟨hI o _ _ _ _ (hG t) hupd, fun u _ => hG u⟩
  refine ⟨hinv, ⟨_, hall', hG'⟩, h.idle hs.idle ?_, fun m u o' r hr => ?_⟩
  · intro hnone
    rcases hcase with ⟨p', hthr, _⟩ | ⟨r, _, _, _, hq⟩
    · simp [hthr] at hnone
    · exact hpost _ _ _ _ _ hq
  · rcases hcase with ⟨_, _, hh⟩ | ⟨r', _, _, hh, hq⟩
    · exact hs.results m u o' r (hh ▸ hr)
    · rw [hh] at hr
      rcases List.mem_append.mp hr with hr | hr
      · exact hs.results m u o' r hr
      · cases List.mem_singleton.mp hr
        exact hK _ _ _ _ _ (hG _) hq

/-- **Every reachable state is sound**: the invariant holds in it, and what the
operations returned so far is right by `K`. Crashes are allowed, as long as they
keep the invariant. Every program is where `Sim` wants it from its start and
returns without a lock; `I` is what is known of every ghost. -/
theorem Reachable.sound {s₀ : S}
    (hsim : ∀ o p, sys.impl o p → ∀ s, rg.inv s →
      Sim rg sys.sem (upd o) (Q o) p (fun _ => 0) g₀ s)
    (hrefl : ∀ o s g, upd o s s g g) (hpost : ∀ o held g r s, Q o held g r s → ∀ l, held l = 0)
    (hI₀ : I g₀) (hI : ∀ o s s' g g', I g → upd o s s' g g' → I g')
    (hK : ∀ o held g r s, I g → Q o held g r s → K o r)
    (hcrash : ∀ s s', rg.inv s → sys.crash s s' → rg.inv s') (hinit : rg.inv s₀)
    (h : Reachable sys s₀ c) :
    rg.inv c.state ∧ ∀ n t o r, .res n t o r ∈ c.hist → K o r := by
  have hsound : Sound sys rg upd Q I K c := by
    induction h with
    | refl =>
      refine ⟨hinit, ⟨fun _ => g₀, ?_, fun _ => hI₀⟩, by simp [Config.init, heldBy],
        by simp [Config.init]⟩
      intro t n o p ht
      simp [Config.init] at ht
    | tail _ hs ih =>
      cases hs with
      | invoke hidle hp => exact ih.start hidle (hsim _ _ hp _ ih.inv) hI₀
      | thread ht => exact ih.tstep hrefl hpost hI hK ht
      | crash hc =>
        obtain ⟨G, _, hG⟩ := ih.sims
        exact ⟨hcrash _ _ ih.inv hc, ⟨G, fun u n o p hu => by simp at hu, hG⟩, by simp [heldBy],
          ih.results⟩
  exact ⟨hsound.inv, hsound.results⟩

end Sound

end Pool

end Lib
