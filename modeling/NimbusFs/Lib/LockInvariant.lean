import NimbusFs.Lib.RelyGuarantee

/-! # Locks that stand for an invariant

To each lock belongs something that holds while the lock is free. A thread that
takes the lock may assume it, breaks it as it likes while it holds the lock, and
has to restore it before it lets go. When no thread is running all of these hold.

Next to the state goes a value that no program sees, one for all threads: each
call may change it in a way that is chosen in the proof. -/
namespace Lib

/-- A protocol of assumptions and promises, with what belongs to each lock. It
only changes at the hands of a thread that holds the lock. -/
structure LockProtocol (L S : Type) extends RelyGuarantee L S where
  lockInv : L → S → Prop
  held_stable : ∀ {h s t l}, h l ≠ 0 → rely h s t → lockInv l s → lockInv l t
  free_stable : ∀ {h s t l}, h l = 0 → inv s → guar h s t → lockInv l s → lockInv l t

section LockSim

variable {L C : Type} {R : C → Type} {S G α β : Type} [DecidableEq L]

/-- From `x`, holding `held`, every step of the program keeps the invariant and
the promise for some value of the ghost, a lock is released only where what
belongs to it holds, and a result is returned in a state where `Q` holds. -/
def LockSim (pr : LockProtocol L (S × G)) (sem : (c : C) → S → R c → S → Prop)
    (Q : (L → Nat) → α → S × G → Prop) : Prog L C R α → (L → Nat) → S × G → Prop
  | .ret a, held, x => ∀ y, pr.rely held x y → pr.inv y → Q held a y
  | .lock l k, held, x => ∀ y, pr.rely held x y → pr.inv y → (held l = 0 → pr.lockInv l y) →
      LockSim pr sem Q k (Function.update held l (held l + 1)) y
  | .unlock l k, held, x => ∀ y, pr.rely held x y → pr.inv y → (held l = 1 → pr.lockInv l y) ∧
      LockSim pr sem Q k (Function.update held l (held l - 1)) y
  | .call c k, held, x => ∀ y, pr.rely held x y → pr.inv y → ∀ r s', sem c y.1 r s' →
      ∃ g', pr.inv (s', g') ∧ pr.guar held y (s', g') ∧ LockSim pr sem Q (k r) held (s', g')

variable {pr : LockProtocol L (S × G)} {sem : (c : C) → S → R c → S → Prop}
variable {Q : (L → Nat) → α → S × G → Prop}

/-- The others do not disturb a thread. -/
theorem LockSim.stable {p : Prog L C R α} {held : L → Nat} {x x₁ : S × G}
    (h : LockSim pr sem Q p held x) (hr : pr.rely held x x₁) : LockSim pr sem Q p held x₁ := by
  cases p with
  | ret a => exact fun y hy => h y (pr.rely_trans hr hy)
  | lock l k => exact fun y hy => h y (pr.rely_trans hr hy)
  | unlock l k => exact fun y hy => h y (pr.rely_trans hr hy)
  | call c k => exact fun y hy => h y (pr.rely_trans hr hy)

/-- A thread may wait for the others before it goes on. -/
theorem LockSim.of_later {p : Prog L C R α} {held : L → Nat} {x : S × G}
    (h : ∀ y, pr.rely held x y → pr.inv y → LockSim pr sem Q p held y) :
    LockSim pr sem Q p held x := by
  cases p with
  | ret a => exact fun y hy hi => h y hy hi y (pr.rely_refl _ _) hi
  | lock l k => exact fun y hy hi => h y hy hi y (pr.rely_refl _ _) hi
  | unlock l k => exact fun y hy hi => h y hy hi y (pr.rely_refl _ _) hi
  | call c k => exact fun y hy hi => h y hy hi y (pr.rely_refl _ _) hi

theorem LockSim.mono {Q' : (L → Nat) → α → S × G → Prop} {p : Prog L C R α} {held : L → Nat}
    {x : S × G} (hQ : ∀ held a y, Q held a y → Q' held a y) (h : LockSim pr sem Q p held x) :
    LockSim pr sem Q' p held x := by
  induction p generalizing held x with
  | ret a => exact fun y hy hi => hQ _ _ _ (h y hy hi)
  | lock l k ih => exact fun y hy hi hl => ih (h y hy hi hl)
  | unlock l k ih => exact fun y hy hi => ⟨(h y hy hi).1, ih (h y hy hi).2⟩
  | call c k ih =>
    intro y hy hi r s' hs
    obtain ⟨g', hi', hg, hk⟩ := h y hy hi r s' hs
    exact ⟨g', hi', hg, ih r hk⟩

/-- Sequencing: the rest is proved from what the first part ends in. -/
theorem LockSim.bind {Q : (L → Nat) → β → S × G → Prop} {p : Prog L C R α}
    {f : α → Prog L C R β} {held : L → Nat} {x : S × G}
    (h : LockSim pr sem (fun held a y => LockSim pr sem Q (f a) held y) p held x) :
    LockSim pr sem Q (p >>= f) held x := by
  induction p generalizing held x with
  | ret a => exact LockSim.of_later h
  | lock l k ih => exact fun y hy hi hl => ih (h y hy hi hl)
  | unlock l k ih => exact fun y hy hi => ⟨(h y hy hi).1, ih (h y hy hi).2⟩
  | call c k ih =>
    intro y hy hi r s' hs
    obtain ⟨g', hi', hg, hk⟩ := h y hy hi r s' hs
    exact ⟨g', hi', hg, ih r hk⟩

/-- No lock is held any more. -/
def NoneHeld (held : L → Nat) (_ : α) (_ : S × G) : Prop := ∀ l, held l = 0

/-- The locks of a thread that holds at most one. -/
def holding (h : Option L) (l : L) : Nat := if h = some l then 1 else 0

/-- What belongs to the lock that is held stays as the thread left it. -/
theorem lockInv_of_rely {h : Option L} {x y : S × G} (hinv : ∀ l, h = some l → pr.lockInv l x)
    (hy : pr.rely (holding h) x y) (l : L) (hl : h = some l) : pr.lockInv l y :=
  pr.held_stable (by simp [holding, hl]) hy (hinv l hl)

theorem holding_lock (l : L) :
    Function.update (holding none) l (holding none l + 1) = holding (some l) := by
  funext l'
  by_cases hl' : l' = l
  · subst hl'; simp [holding]
  · simp [holding, hl', Ne.symm hl']

theorem holding_unlock (l : L) :
    Function.update (holding (some l)) l (holding (some l) l - 1) = holding none := by
  funext l'
  by_cases hl' : l' = l
  · subst hl'; simp [holding]
  · simp [holding, hl', Ne.symm hl']

/-- One lock around a body, taken by a thread that holds none. -/
theorem LockSim.guarded {l : L} {p : Prog L C R α} {x : S × G}
    (h : ∀ y, pr.inv y → pr.lockInv l y → LockSim pr sem
      (fun held _ y => held = holding (some l) ∧ pr.lockInv l y) p (holding (some l)) y) :
    LockSim pr sem NoneHeld (Prog.guarded l p) (holding none) x := by
  intro y _ hi hl
  rw [holding_lock]
  refine LockSim.bind (LockSim.mono ?_ (h y hi (hl rfl)))
  intro held a z hz z₁ hz₁ _
  obtain ⟨rfl, hz⟩ := hz
  refine ⟨fun _ => pr.held_stable (by simp [holding]) hz₁ hz, ?_⟩
  rw [holding_unlock]
  exact fun _ _ _ _ => rfl

/-- A program that keeps to one lock and only makes calls that change nothing. -/
theorem LockSim.of_reader {ans : (c : C) → R c → Prop} {P : C → Prop}
    (hans : ∀ c s r t, sem c s r t → ans c r) (hguar : ∀ held x, pr.guar held x x)
    (hread : ∀ c, P c → ∀ s r t, sem c s r t → t = s) {p : Prog L C R α} (hp : p.Uses ans P)
    {h : Option L} (hd : Disciplined h p) {x : S × G} (hinv : ∀ l, h = some l → pr.lockInv l x) :
    LockSim pr sem NoneHeld p (holding h) x := by
  induction p generalizing h x with
  | ret a =>
    subst hd
    exact fun _ _ _ _ => rfl
  | lock l k ih =>
    obtain ⟨rfl, hk⟩ := hd
    intro y _ _ hl
    rw [holding_lock]
    refine ih hp hk fun l' hl' => ?_
    cases hl'
    exact hl rfl
  | unlock l k ih =>
    obtain ⟨rfl, hk⟩ := hd
    intro y hy _
    rw [holding_unlock]
    exact ⟨fun _ => lockInv_of_rely hinv hy l rfl, ih hp hk (by simp)⟩
  | call c k ih =>
    intro y hy hi r s' hs
    obtain rfl := hread c hp.1 _ _ _ hs
    exact ⟨y.2, hi, hguar _ _, ih r (hp.2 r (hans c _ r _ hs)) (hd r) (lockInv_of_rely hinv hy)⟩

end LockSim

/-! ## The pool -/

section Pool

variable {T L C : Type} {R : C → Type} {S G Op : Type} {Ret : Op → Type}
variable [DecidableEq T] [DecidableEq L]
variable {sys : System L C R S Op Ret} {pr : LockProtocol L (S × G)}

/-- The invariant, and with it what belongs to every free lock; every running
thread is where `LockSim` wants it, and an idle one holds nothing. -/
structure LockSound (sys : System L C R S Op Ret) (pr : LockProtocol L (S × G))
    (c : Config T L C R S Op Ret) (g : G) : Prop where
  inv : pr.inv (c.state, g)
  free : ∀ l, c.owner l = none → pr.lockInv l (c.state, g)
  running : ∀ t n o p, c.thread t = some ⟨n, o, p⟩ →
    LockSim pr sys.sem NoneHeld p (heldBy c t) (c.state, g)
  idle : ∀ t, c.thread t = none → ∀ l d, c.owner l ≠ some (t, d)
  depth : ∀ l t, c.owner l ≠ some (t, 0)

/-- When no thread is running, what belongs to the locks holds. -/
theorem LockSound.all_free {c : Config T L C R S Op Ret} {g : G} (h : LockSound sys pr c g)
    (hquiet : ∀ t, c.thread t = none) (l : L) : pr.lockInv l (c.state, g) := by
  refine h.free l ?_
  cases hown : c.owner l with
  | none => rfl
  | some w => exact absurd hown (h.idle w.1 (hquiet w.1) l w.2)

/-- A start, or a new start: nothing runs and all locks are free. -/
theorem lockSound_start {c : Config T L C R S Op Ret} {g : G} (hthread : ∀ t, c.thread t = none)
    (howner : ∀ l, c.owner l = none) (hinv : pr.inv (c.state, g))
    (hfree : ∀ l, pr.lockInv l (c.state, g)) : LockSound sys pr c g where
  inv := hinv
  free l _ := hfree l
  running t n o p ht := by rw [hthread t] at ht; cases ht
  idle t _ l d hl := by rw [howner l] at hl; cases hl
  depth l t hl := by rw [howner l] at hl; cases hl

theorem heldBy_eq_zero {c : Config T L C R S Op Ret} {g : G} (h : LockSound sys pr c g) {t : T}
    (ht : c.thread t = none) : heldBy c t = fun _ => 0 := by
  funext l
  unfold heldBy
  split
  · rename_i u d hown
    by_cases hu : u = t
    · exact absurd (hu ▸ hown) (h.idle t ht l d)
    · exact if_neg hu
  · rfl

/-- Thread `t` moves on to `p` and sets lock `l` to depth `d`. -/
theorem LockSound.lockStep {c : Config T L C R S Op Ret} {g : G} (h : LockSound sys pr c g) {t : T}
    {n : Nat} {o : Op} {p : Prog L C R (Ret o)} {l : L} {d : Nat}
    (hothers : ∀ u, u ≠ t → heldBy c u l = 0) (hl : d = 0 → pr.lockInv l (c.state, g))
    (hself : LockSim pr sys.sem NoneHeld p (Function.update (heldBy c t) l d) (c.state, g)) :
    LockSound sys pr ((c.resume t n o p).setOwner l (if d = 0 then none else some (t, d))) g where
  inv := h.inv
  free l' hl' := by
    by_cases hll : l' = l
    · subst hll
      refine hl ?_
      by_contra hd
      simp [Config.setOwner, hd] at hl'
    · exact h.free l' (by simpa [Config.setOwner, hll] using hl')
  running u n' o' p' hu := by
    by_cases hut : u = t
    · subst hut
      rw [setOwner_thread, resume_self] at hu
      cases hu
      rw [heldBy_setOwner_self]
      exact hself
    · rw [setOwner_thread, resume_ne c n o p hut] at hu
      rw [heldBy_setOwner_ne (c.resume t n o p) hut (hothers u hut)]
      exact h.running u n' o' p' hu
  idle u hu l' d' hown := by
    have hut : u ≠ t := by
      intro hut
      subst hut
      rw [setOwner_thread, resume_self] at hu
      cases hu
    rw [setOwner_thread, resume_ne c n o p hut] at hu
    by_cases hll : l' = l
    · subst hll
      by_cases hd : d = 0 <;> simp [Config.setOwner, hd, Ne.symm hut] at hown
    · exact h.idle u hu l' d' (by simpa [Config.setOwner, hll] using hown)
  depth l' u hown := by
    by_cases hll : l' = l
    · subst hll
      by_cases hd : d = 0 <;> simp [Config.setOwner, hd] at hown
    · exact h.depth l' u (by simpa [Config.setOwner, hll] using hown)

/-- A call of thread `t`, with the value of the ghost after it. -/
theorem LockSound.callStep {c : Config T L C R S Op Ret} {g g' : G} (h : LockSound sys pr c g)
    {t : T} {n : Nat} {o : Op} {p : Prog L C R (Ret o)} {s' : S} (hinv : pr.inv (s', g'))
    (hguar : pr.guar (heldBy c t) (c.state, g) (s', g'))
    (hself : LockSim pr sys.sem NoneHeld p (heldBy c t) (s', g')) :
    LockSound sys pr { c.resume t n o p with state := s' } g' where
  inv := hinv
  free l hl := by
    have hzero : heldBy c t l = 0 := by
      have hl : c.owner l = none := hl
      simp [heldBy, hl]
    exact pr.free_stable hzero h.inv hguar (h.free l hl)
  running u n' o' p' hu := by
    by_cases hut : u = t
    · subst hut
      rw [show _ = some (Running.mk n o p) from resume_self c u n o p] at hu
      cases hu
      exact hself
    · rw [show _ = c.thread u from resume_ne c n o p hut] at hu
      exact (h.running u n' o' p' hu).stable
        (pr.compat (heldBy_disjoint c (Ne.symm hut)) h.inv hguar)
  idle u hu := by
    have hut : u ≠ t := by
      intro hut
      subst hut
      rw [show _ = some (Running.mk n o p) from resume_self c u n o p] at hu
      cases hu
    rw [show _ = c.thread u from resume_ne c n o p hut] at hu
    exact h.idle u hu
  depth := h.depth

/-- Thread `t` is done. -/
theorem LockSound.retStep {c : Config T L C R S Op Ret} {g : G} (h : LockSound sys pr c g) {t : T}
    {hist : List (Event T Op Ret)} (hnone : ∀ l, heldBy c t l = 0) :
    LockSound sys pr { c with thread := Function.update c.thread t none, hist := hist } g where
  inv := h.inv
  free := h.free
  running u n' o' p' hu := by
    by_cases hut : u = t
    · simp [hut] at hu
    · exact h.running u n' o' p' (by simpa [hut] using hu)
  idle u hu l d hown := by
    by_cases hut : u = t
    · subst hut
      have hown : c.owner l = some (u, d) := hown
      have hd : d = 0 := by
        have := hnone l
        simpa [heldBy, hown] using this
      exact h.depth l u (hd ▸ hown)
    · exact h.idle u (by simpa [hut] using hu) l d hown
  depth := h.depth

/-- Thread `t` starts an operation. -/
theorem LockSound.startStep {c : Config T L C R S Op Ret} {g : G} (h : LockSound sys pr c g) {t : T}
    {o : Op} {p : Prog L C R (Ret o)}
    (hself : LockSim pr sys.sem NoneHeld p (heldBy c t) (c.state, g)) :
    LockSound sys pr (c.start t o p) g where
  inv := h.inv
  free := h.free
  running u n' o' p' hu := by
    rw [start_thread] at hu
    by_cases hut : u = t
    · subst hut
      rw [Function.update_self] at hu
      cases hu
      exact hself
    · rw [Function.update_of_ne hut] at hu
      exact h.running u n' o' p' hu
  idle u hu := h.idle u (start_idle hu)
  depth := h.depth

theorem LockSound.tstep {c c' : Config T L C R S Op Ret} {g : G} {t : T}
    (h : LockSound sys pr c g) (hs : TStep sys t c c') : ∃ g', LockSound sys pr c' g' := by
  cases hs with
  | @lock n o l k hth hown =>
    have hz : ∀ u, heldBy c u l = 0 := fun u => by simp [heldBy, hown]
    have hsim := h.running t _ _ _ hth _ (pr.rely_refl _ _) h.inv fun _ => h.free l hown
    exact ⟨g, h.lockStep (d := 1) (fun u _ => hz u) (by simp) (by simpa [hz t] using hsim)⟩
  | @relock n o l k d hth _ hown =>
    have hd : heldBy c t l = d := by simp [heldBy, hown]
    have hpos : d ≠ 0 := fun hd => h.depth l t (hd ▸ hown)
    have hsim := h.running t _ _ _ hth _ (pr.rely_refl _ _) h.inv
      fun hzero => absurd (hd.symm.trans hzero) hpos
    exact ⟨g, h.lockStep (d := d + 1) (fun u hu => by simp [heldBy, hown, Ne.symm hu]) (by simp)
      (by simpa [hd] using hsim)⟩
  | @unlock n o l k d hth hown =>
    have hd : heldBy c t l = d + 1 := by simp [heldBy, hown]
    obtain ⟨hl, hsim⟩ := h.running t _ _ _ hth _ (pr.rely_refl _ _) h.inv
    exact ⟨g, h.lockStep (fun u hu => by simp [heldBy, hown, Ne.symm hu])
      (fun hzero => hl (by rw [hd, hzero])) (by simpa [hd] using hsim)⟩
  | @call n o a k r s' hth hsem =>
    obtain ⟨g', hinv, hguar, hsim⟩ :=
      h.running t _ _ _ hth _ (pr.rely_refl _ _) h.inv r s' hsem
    exact ⟨g', h.callStep hinv hguar hsim⟩
  | @ret n o r hth =>
    exact ⟨g, h.retStep (h.running t _ _ _ hth _ (pr.rely_refl _ _) h.inv)⟩

/-- **In every reachable state** the invariant holds for some value of the ghost,
and so does what belongs to each lock that is free. -/
theorem Reachable.lockSound {s₀ : S} {c : Config T L C R S Op Ret}
    (hsim : ∀ o p, sys.impl o p → ∀ x, pr.inv x → LockSim pr sys.sem NoneHeld p (holding none) x)
    (hcrash : ∀ s g s', pr.inv (s, g) → sys.crash s s' →
      ∃ g', pr.inv (s', g') ∧ ∀ l, pr.lockInv l (s', g'))
    (hinit : ∃ g, pr.inv (s₀, g) ∧ ∀ l, pr.lockInv l (s₀, g)) (h : Reachable sys s₀ c) :
    ∃ g, LockSound sys pr c g := by
  induction h with
  | refl =>
    obtain ⟨g, hinv, hfree⟩ := hinit
    exact ⟨g, lockSound_start (fun _ => rfl) (fun _ => rfl) hinv hfree⟩
  | @tail c c' _ hs ih =>
    obtain ⟨g, ih⟩ := ih
    cases hs with
    | @invoke t o p ht hp =>
      have hstart := hsim o p hp (c.state, g) ih.inv
      rw [show holding none = heldBy c t from (heldBy_eq_zero ih ht).symm] at hstart
      exact ⟨g, ih.startStep hstart⟩
    | @thread _ t ht => exact ih.tstep ht
    | crash hc =>
      obtain ⟨g', hinv, hfree⟩ := hcrash _ g _ ih.inv hc
      exact ⟨g', lockSound_start (fun _ => rfl) (fun _ => rfl) hinv hfree⟩

end Pool

end Lib
