import NimbusFs.Lib.Progress

/-! # Following one operation

Operations are numbered as they are started, so a run can be cut at the start of any
one of them, and the thread that runs it can be followed from there to its return. What
it returns may be a promise about the shared state, one that the threads around it keep:
then it holds from the moment of the return on.

Programs that only make harmless calls keep to every protocol of locks; these rules are
for the others. -/
namespace Lib

/-! ## Numbers -/

section Numbers

variable {T L C : Type} {R : C → Type} {S Op : Type} {Ret : Op → Type}
variable [DecidableEq T] [DecidableEq L]
variable {sys : System L C R S Op Ret} {c c' : Config T L C R S Op Ret} {t : T}

/-- A step of a thread goes on with its operation, or returns from it. -/
theorem TStep.shape (h : TStep sys t c c') :
    ∃ n o p, c.thread t = some ⟨n, o, p⟩ ∧ c'.next = c.next ∧
      ((∃ p', c'.thread = Function.update c.thread t (some ⟨n, o, p'⟩) ∧ c'.hist = c.hist) ∨
       ∃ r, c'.thread = Function.update c.thread t none ∧ c'.hist = c.hist ++ [.res n t o r]) := by
  cases h with
  | lock hth _ => exact ⟨_, _, _, hth, rfl, .inl ⟨_, rfl, rfl⟩⟩
  | relock hth _ _ => exact ⟨_, _, _, hth, rfl, .inl ⟨_, rfl, rfl⟩⟩
  | unlock hth _ => exact ⟨_, _, _, hth, rfl, .inl ⟨_, rfl, rfl⟩⟩
  | call hth _ => exact ⟨_, _, _, hth, rfl, .inl ⟨_, rfl, rfl⟩⟩
  | ret hth => exact ⟨_, _, _, hth, rfl, .inr ⟨_, rfl, rfl⟩⟩

/-- Every number in use is below `next`, what returned was started, one that runs was
started and has not returned, and no two threads run the same. -/
structure Numbered (c : Config T L C R S Op Ret) : Prop where
  started : ∀ n t o, .inv n t o ∈ c.hist → n < c.next
  returned : ∀ n t o r, .res n t o r ∈ c.hist → .inv n t o ∈ c.hist
  running : ∀ t n o p, c.thread t = some ⟨n, o, p⟩ →
    .inv n t o ∈ c.hist ∧ ∀ u o' r, .res n u o' r ∉ c.hist
  apart : ∀ t u n o p o' p', c.thread t = some ⟨n, o, p⟩ → c.thread u = some ⟨n, o', p'⟩ → t = u

omit [DecidableEq L] in
theorem Numbered.start (h : Numbered c) (t : T) (o : Op) (p : Prog L C R (Ret o)) :
    Numbered (c.start t o p) := by
  have hstarted : ∀ n u o', .inv n u o' ∈ (c.start t o p).hist → n < c.next + 1 := by
    intro n u o' hn
    rcases List.mem_append.mp hn with hn | hn
    · exact Nat.lt_succ_of_lt (h.started n u o' hn)
    · cases List.mem_singleton.mp hn
      exact Nat.lt_succ_self _
  have hreturned : ∀ n u o' r, .res n u o' r ∈ (c.start t o p).hist → .inv n u o' ∈ c.hist := by
    intro n u o' r hn
    exact h.returned n u o' r (by simpa [Config.start] using hn)
  refine ⟨hstarted, fun n u o' r hn => List.mem_append_left _ (hreturned n u o' r hn),
    fun u n o' p' hu => ?_, fun u v n o₁ p₁ o₂ p₂ hu hv => ?_⟩
  · rw [start_thread] at hu
    by_cases hut : u = t
    · subst hut
      rw [Function.update_self] at hu
      cases hu
      exact ⟨List.mem_append_right _ List.mem_cons_self,
        fun v o' r hr => absurd (h.started _ _ _ (hreturned _ v o' r hr)) (Nat.lt_irrefl _)⟩
    · rw [Function.update_of_ne hut] at hu
      obtain ⟨hinv, hres⟩ := h.running u n o' p' hu
      refine ⟨List.mem_append_left _ hinv, fun v o'' r hr => hres v o'' r ?_⟩
      simpa [Config.start] using hr
  · have hold : ∀ w m o' p', w ≠ t → (c.start t o p).thread w = some ⟨m, o', p'⟩ →
        c.thread w = some ⟨m, o', p'⟩ ∧ m < c.next := by
      intro w m o' p' hwt hw
      rw [start_thread, Function.update_of_ne hwt] at hw
      exact ⟨hw, h.started _ _ _ (h.running w m o' p' hw).1⟩
    have hnew : ∀ m o' p', (c.start t o p).thread t = some ⟨m, o', p'⟩ → m = c.next := by
      intro m o' p' hw
      rw [start_thread, Function.update_self] at hw
      cases hw
      rfl
    by_cases hut : u = t
    · by_cases hvt : v = t
      · rw [hut, hvt]
      · have := (hold v n o₂ p₂ hvt hv).2
        have := hnew n o₁ p₁ (hut ▸ hu)
        omega
    · obtain ⟨hu', hlt⟩ := hold u n o₁ p₁ hut hu
      by_cases hvt : v = t
      · have := hnew n o₂ p₂ (hvt ▸ hv)
        omega
      · exact h.apart u v n o₁ p₁ o₂ p₂ hu' (hold v n o₂ p₂ hvt hv).1

theorem Numbered.tstep (h : Numbered c) (hs : TStep sys t c c') : Numbered c' := by
  obtain ⟨n, o, p, hth, hnext, hcase⟩ := hs.shape
  rcases hcase with ⟨p', hthread, hhist⟩ | ⟨r, hthread, hhist⟩
  · -- whoever runs a number ran it before
    have hbefore : ∀ u m o' q, c'.thread u = some ⟨m, o', q⟩ →
        ∃ q', c.thread u = some ⟨m, o', q'⟩ := by
      intro u m o' q hu
      rw [hthread] at hu
      by_cases hut : u = t
      · subst hut
        rw [Function.update_self] at hu
        cases hu
        exact ⟨p, hth⟩
      · exact ⟨q, by rwa [Function.update_of_ne hut] at hu⟩
    refine ⟨?_, ?_, fun u m o' q hu => ?_, fun u v m o₁ p₁ o₂ p₂ hu hv => ?_⟩
    · rw [hhist, hnext]; exact h.started
    · rw [hhist]; exact h.returned
    · obtain ⟨q', hu'⟩ := hbefore u m o' q hu
      rw [hhist]
      exact h.running u m o' q' hu'
    · obtain ⟨q₁, hu'⟩ := hbefore u m o₁ p₁ hu
      obtain ⟨q₂, hv'⟩ := hbefore v m o₂ p₂ hv
      exact h.apart u v m o₁ q₁ o₂ q₂ hu' hv'
  · have hbefore : ∀ u m o' q, c'.thread u = some ⟨m, o', q⟩ →
        u ≠ t ∧ c.thread u = some ⟨m, o', q⟩ := by
      intro u m o' q hu
      rw [hthread] at hu
      by_cases hut : u = t
      · simp [hut] at hu
      · exact ⟨hut, by rwa [Function.update_of_ne hut] at hu⟩
    refine ⟨fun m u o' hm => ?_, fun m u o' r' hm => ?_, fun u m o' q hu => ?_,
      fun u v m o₁ p₁ o₂ p₂ hu hv => ?_⟩
    · rw [hnext]
      exact h.started m u o' (by simpa [hhist] using hm)
    · rw [hhist] at hm ⊢
      refine List.mem_append_left _ ?_
      rcases List.mem_append.mp hm with hm | hm
      · exact h.returned m u o' r' hm
      · cases List.mem_singleton.mp hm
        exact (h.running t n o p hth).1
    · obtain ⟨hut, hu'⟩ := hbefore u m o' q hu
      obtain ⟨hinv, hres⟩ := h.running u m o' q hu'
      rw [hhist]
      refine ⟨List.mem_append_left _ hinv, fun v o'' r' hr => ?_⟩
      rcases List.mem_append.mp hr with hr | hr
      · exact hres v o'' r' hr
      · cases List.mem_singleton.mp hr
        exact hut (h.apart u t _ _ _ _ _ hu' hth)
    · exact h.apart u v m o₁ p₁ o₂ p₂ (hbefore u m o₁ p₁ hu).2 (hbefore v m o₂ p₂ hv).2

theorem Reachable.numbered {s : S} (h : Reachable sys s c) : Numbered c := by
  induction h with
  | refl => constructor <;> simp [Config.init]
  | tail _ hs ih =>
    cases hs with
    | invoke _ _ => exact ih.start _ _ _
    | thread ht => exact ih.tstep ht
    | crash _ => exact ⟨ih.started, ih.returned, by simp, by simp⟩

/-! ## Cutting a run -/

/-- What is observed from some moment on: operations started then have new numbers. -/
theorem later_hist (h : Relation.ReflTransGen (Step sys) c c') :
    ∃ rest, c'.hist = c.hist ++ rest ∧ c.next ≤ c'.next ∧
      ∀ n u o, .inv n u o ∈ rest → c.next ≤ n := by
  induction h with
  | refl => exact ⟨[], by simp, le_rfl, by simp⟩
  | @tail c₁ c₂ _ hs ih =>
    obtain ⟨rest, hhist, hnext, hnew⟩ := ih
    cases hs with
    | @invoke u o p _ _ =>
      refine ⟨rest ++ [.inv c₁.next u o], ?_, Nat.le_succ_of_le hnext, fun n v o' hn => ?_⟩
      · show c₁.hist ++ [.inv c₁.next u o] = _
        rw [hhist, List.append_assoc]
      · rcases List.mem_append.mp hn with hn | hn
        · exact hnew n v o' hn
        · cases List.mem_singleton.mp hn
          exact hnext
    | @thread _ v ht =>
      obtain ⟨n, o, p, _, hsame, hcase⟩ := ht.shape
      rcases hcase with ⟨_, _, hh⟩ | ⟨r, _, hh⟩
      · exact ⟨rest, hh.trans hhist, hsame ▸ hnext, hnew⟩
      · refine ⟨rest ++ [.res n v o r], ?_, hsame ▸ hnext, fun m v o' hm => hnew m v o' ?_⟩
        · rw [hh, hhist, List.append_assoc]
        · simpa using hm
    | crash _ => exact ⟨rest, hhist, hnext, hnew⟩

/-- The moment an operation was started. -/
theorem Reachable.at_start {s : S} {n : Nat} {o : Op} (h : Reachable sys s c)
    (hinv : .inv n t o ∈ c.hist) :
    ∃ c₀ p, Reachable sys s c₀ ∧ c₀.thread t = none ∧ sys.impl o p ∧ c₀.next = n ∧
      Relation.ReflTransGen (Step sys) (c₀.start t o p) c := by
  induction h with
  | refl => simp [Config.init] at hinv
  | @tail c₁ c₂ h₁ hs ih =>
    by_cases hold : .inv n t o ∈ c₁.hist
    · obtain ⟨c₀, p, h₀, hidle, hp, hn, hsteps⟩ := ih hold
      exact ⟨c₀, p, h₀, hidle, hp, hn, hsteps.tail hs⟩
    · cases hs with
      | @invoke u o' p hidle hp =>
        rcases List.mem_append.mp hinv with hinv | hinv
        · exact absurd hinv hold
        · cases List.mem_singleton.mp hinv
          exact ⟨c₁, p, h₁, hidle, hp, rfl, .refl⟩
      | thread ht =>
        obtain ⟨m, o', p, _, _, hcase⟩ := ht.shape
        rcases hcase with ⟨_, _, hhist⟩ | ⟨r, _, hhist⟩
        · exact absurd (hhist ▸ hinv) hold
        · rw [hhist] at hinv
          exact absurd (by simpa using hinv) hold
      | crash _ => exact absurd hinv hold

/-- What returned before an operation was started had returned at that moment. -/
theorem returned_before {c₀ : Config T L C R S Op Ret} {o o' : Op} {p : Prog L C R (Ret o)}
    {m : Nat} {u : T} {r : Ret o'} (hsteps : Relation.ReflTransGen (Step sys) (c₀.start t o p) c)
    (hbefore : List.Sublist [.res m u o' r, .inv c₀.next t o] c.hist) :
    .res m u o' r ∈ c₀.hist := by
  obtain ⟨rest, hhist, _, hnew⟩ := later_hist hsteps
  rw [hhist] at hbefore
  obtain ⟨l₁, l₂, heq, h₁, h₂⟩ := List.sublist_append_iff.mp hbefore
  obtain rfl : l₂ = [] := by
    by_contra hne
    have hlast : (.inv c₀.next t o : Event T Op Ret) ∈ l₂ := by
      have := congrArg List.getLast? heq
      rw [List.getLast?_append_of_ne_nil _ hne] at this
      exact List.mem_of_getLast? this.symm
    have := hnew _ _ _ (h₂.subset hlast)
    exact absurd this (Nat.not_succ_le_self _)
  rw [List.append_nil] at heq
  rcases pair_sublist_snoc (heq ▸ h₁) with hsub | ⟨_, hmem⟩
  · exact hsub.subset List.mem_cons_self
  · exact hmem

end Numbers

/-! ## Programs and protocols -/

section Programs

variable {L C : Type} {R : C → Type} {S G α : Type} [DecidableEq L]
variable {pr : LockProtocol L (S × G)} {sem : (c : C) → S → R c → S → Prop}
variable {held : L → Nat} {x : S × G}

/-- A program whose calls are harmless: they keep what belongs to every lock. -/
theorem LockSim.of_harmless {ans : (c : C) → R c → Prop} {P : C → Prop} {re : Bool}
    (hans : ∀ c s r t, sem c s r t → ans c r)
    (hcall : ∀ c, P c → ∀ held y r s', pr.inv y → sem c y.1 r s' → ∃ g', pr.inv (s', g') ∧
      pr.guar held y (s', g') ∧ ∀ l, pr.lockInv l y → pr.lockInv l (s', g'))
    {p : Prog L C R α} (hp : p.Uses ans P) (ho : Orderly re held p)
    (hinv : ∀ l, held l ≠ 0 → pr.lockInv l x) : LockSim pr sem NoneHeld p held x := by
  induction p generalizing held x with
  | ret a => exact fun _ _ _ => ho
  | lock l k ih =>
    intro y hy hi hl
    refine ih hp ho.2.2 fun l' hl' => ?_
    by_cases hheld : held l' = 0
    · by_cases heq : l' = l
      · subst heq
        exact hl hheld
      · simp [heq, hheld] at hl'
    · exact pr.held_stable hheld hy (hinv l' hheld)
  | unlock l k ih =>
    intro y hy hi
    have hkept : ∀ l', held l' ≠ 0 → pr.lockInv l' y :=
      fun l' hheld => pr.held_stable hheld hy (hinv l' hheld)
    refine ⟨fun _ => hkept l ho.1, ih hp ho.2 fun l' hl' => hkept l' fun hzero => ?_⟩
    by_cases heq : l' = l
    · subst heq
      exact ho.1 hzero
    · simp [heq, hzero] at hl'
  | call c k ih =>
    intro y hy hi r s' hs
    obtain ⟨g', hi', hg, hkeep⟩ := hcall c hp.1 held y r s' hi hs
    exact ⟨g', hi', hg, ih r (hp.2 r (hans c _ r _ hs)) (ho r)
      fun l hl => hkeep l (pr.held_stable hl hy (hinv l hl))⟩

/-- One lock around a body that returns with a promise the others keep. -/
theorem LockSim.guarded_promise {l : L} {p : Prog L C R α} {K : α → S × G → Prop}
    (hK : ∀ held a y z, pr.rely held y z → K a y → K a z)
    (h : ∀ y, pr.inv y → pr.lockInv l y → LockSim pr sem
      (fun held a y => held = holding (some l) ∧ pr.lockInv l y ∧ K a y) p (holding (some l)) y) :
    LockSim pr sem (fun held a y => NoneHeld held a y ∧ K a y) (Prog.guarded l p)
      (holding none) x := by
  intro y _ hi hl
  rw [holding_lock]
  refine LockSim.bind (LockSim.mono ?_ (h y hi (hl rfl)))
  intro held a z hz z₁ hz₁ _
  obtain ⟨rfl, hz, ha⟩ := hz
  refine ⟨fun _ => pr.held_stable (by simp [holding]) hz₁ hz, ?_⟩
  rw [holding_unlock]
  exact fun z₂ hz₂ _ => ⟨fun _ => rfl, hK _ a _ _ hz₂ (hK _ a _ _ hz₁ ha)⟩

end Programs

/-! ## The thread that is followed -/

section Followed

variable {T L C : Type} {R : C → Type} {S G Op : Type} {Ret : Op → Type}
variable [DecidableEq T] [DecidableEq L]
variable {sys : System L C R S Op Ret} {pr : LockProtocol L (S × G)}
variable {c c' : Config T L C R S Op Ret} {g : G} {t : T}

/-- A step of any thread is what it promised the others. -/
theorem LockSound.guar (h : LockSound sys pr c g) (hrefl : ∀ held x, pr.guar held x x)
    (hs : TStep sys t c c') : ∃ g', pr.guar (heldBy c t) (c.state, g) (c'.state, g') := by
  cases hs with
  | lock _ _ => exact ⟨g, hrefl _ _⟩
  | relock _ _ _ => exact ⟨g, hrefl _ _⟩
  | unlock _ _ => exact ⟨g, hrefl _ _⟩
  | @call n o a k r s' hth hsem =>
    obtain ⟨g', _, hguar, _⟩ := h.running t _ _ _ hth _ (pr.rely_refl _ _) h.inv r s' hsem
    exact ⟨g', hguar⟩
  | ret _ => exact ⟨g, hrefl _ _⟩

/-- A step of the thread itself: it goes on as `LockSim` wants it, or it returns with
what it promises. -/
theorem LockSim.follow {n : Nat} {o : Op} {p : Prog L C R (Ret o)}
    {Q : (L → Nat) → Ret o → S × G → Prop}
    (hsim : LockSim pr sys.sem Q p (heldBy c t) (c.state, g)) (hth : c.thread t = some ⟨n, o, p⟩)
    (hinv : pr.inv (c.state, g)) (hfree : ∀ l, c.owner l = none → pr.lockInv l (c.state, g))
    (hdepth : ∀ l, c.owner l ≠ some (t, 0)) (hs : TStep sys t c c') :
    (∃ g' p', c'.thread t = some ⟨n, o, p'⟩ ∧ c'.hist = c.hist ∧
      LockSim pr sys.sem Q p' (heldBy c' t) (c'.state, g')) ∨
    ∃ r, c'.thread t = none ∧ c'.hist = c.hist ++ [.res n t o r] ∧
      Q (heldBy c t) r (c'.state, g) := by
  cases hs with
  | @lock n' o' l k hth' hown =>
    rw [hth] at hth'
    cases hth'
    have hzero : heldBy c t l = 0 := by simp [heldBy, hown]
    have hk := hsim _ (pr.rely_refl _ _) hinv fun _ => hfree l hown
    refine .inl ⟨g, k, by simp, rfl, ?_⟩
    have heq := heldBy_setOwner_self (c.resume t n o k) t l 1
    rw [if_neg Nat.one_ne_zero] at heq
    rw [heq]
    rwa [hzero] at hk
  | @relock n' o' l k d hth' _ hown =>
    rw [hth] at hth'
    cases hth'
    have hd : heldBy c t l = d := by simp [heldBy, hown]
    have hpos : d ≠ 0 := fun hzero => hdepth l (hzero ▸ hown)
    have hk := hsim _ (pr.rely_refl _ _) hinv fun hzero => absurd (hd.symm.trans hzero) hpos
    refine .inl ⟨g, k, by simp, rfl, ?_⟩
    have heq := heldBy_setOwner_self (c.resume t n o k) t l (d + 1)
    rw [if_neg (Nat.succ_ne_zero d)] at heq
    rw [heq]
    rwa [hd] at hk
  | @unlock n' o' l k d hth' hown =>
    rw [hth] at hth'
    cases hth'
    have hd : heldBy c t l = d + 1 := by simp [heldBy, hown]
    obtain ⟨_, hk⟩ := hsim _ (pr.rely_refl _ _) hinv
    refine .inl ⟨g, k, by simp, rfl, ?_⟩
    rw [heldBy_setOwner_self (c.resume t n o k) t l d]
    rwa [hd, Nat.add_sub_cancel] at hk
  | @call n' o' a k r s' hth' hsem =>
    rw [hth] at hth'
    cases hth'
    obtain ⟨g', _, _, hk⟩ := hsim _ (pr.rely_refl _ _) hinv r s' hsem
    exact .inl ⟨g', k r, resume_self c t n o (k r), rfl, hk⟩
  | @ret n' o' r hth' =>
    rw [hth] at hth'
    cases hth'
    exact .inr ⟨r, by simp, rfl, hsim _ (pr.rely_refl _ _) hinv⟩

/-! Where no value goes next to the state, the operation can be followed to its return
and beyond. -/

section Promise

variable {alone : LockProtocol L (S × Unit)} {n : Nat} {o : Op} {Q : (L → Nat) → Ret o → S × Unit → Prop}
variable {K : Ret o → S → Prop}

/-- The operation is under way, where `LockSim` wants it, or it has returned, and what
it promised holds. -/
def Followed (sys : System L C R S Op Ret) (alone : LockProtocol L (S × Unit))
    (Q : (L → Nat) → Ret o → S × Unit → Prop) (K : Ret o → S → Prop) (n : Nat) (t : T)
    (c : Config T L C R S Op Ret) : Prop :=
  (∃ p, c.thread t = some ⟨n, o, p⟩ ∧ LockSim alone sys.sem Q p (heldBy c t) (c.state, ())) ∨
    (n < c.next ∧ (∀ u m o' p, c.thread u = some ⟨m, o', p⟩ → m ≠ n) ∧
      ∀ r, .res n t o r ∈ c.hist → K r c.state)

/-- The operation itself goes on, or returns with its promise. -/
theorem Followed.own (hQ : ∀ held r x, Q held r x → K r x.1) (hnum : Numbered c)
    {p : Prog L C R (Ret o)} (hth : c.thread t = some ⟨n, o, p⟩)
    (hsim : LockSim alone sys.sem Q p (heldBy c t) (c.state, ())) (hinv : alone.inv (c.state, ()))
    (hfree : ∀ l, c.owner l = none → alone.lockInv l (c.state, ()))
    (hdepth : ∀ l, c.owner l ≠ some (t, 0)) (hs : TStep sys t c c') :
    Followed sys alone Q K n t c' := by
  obtain ⟨hstarted, hunreturned⟩ := hnum.running t n o p hth
  rcases hsim.follow hth hinv hfree hdepth hs with ⟨_, p', hth', _, hsim'⟩ | ⟨r, hidle, hhist, hr⟩
  · exact .inl ⟨p', hth', hsim'⟩
  obtain ⟨_, _, _, _, hnext, _⟩ := hs.shape
  refine .inr ⟨hnext ▸ hnum.started _ _ _ hstarted, fun u m o' p' hu hm => ?_, fun r' hr' => ?_⟩
  · -- nobody else runs the number
    subst hm
    have hut : u ≠ t := fun hut => by rw [hut, hidle] at hu; cases hu
    rw [hs.thread_ne hut] at hu
    exact hut (hnum.apart u t _ _ _ _ _ hu hth)
  · rw [hhist] at hr'
    rcases List.mem_append.mp hr' with hr' | hr'
    · exact absurd hr' (hunreturned t o r')
    · cases List.mem_singleton.mp hr'
      exact hQ _ _ _ hr

/-- **What is promised stays.** One step of any thread: the protocol foresees what the
others do, and they keep the promise. -/
theorem Followed.tstep {u : T} (hQ : ∀ held r x, Q held r x → K r x.1) (hnum : Numbered c)
    (hinv : alone.inv (c.state, ())) (hfree : ∀ l, c.owner l = none → alone.lockInv l (c.state, ()))
    (hdepth : ∀ l, c.owner l ≠ some (t, 0))
    (hrely : u ≠ t → alone.rely (heldBy c t) (c.state, ()) (c'.state, ()))
    (hkeep : ∀ r, K r c.state → K r c'.state) (hs : TStep sys u c c')
    (h : Followed sys alone Q K n t c) : Followed sys alone Q K n t c' := by
  rcases h with ⟨p, hth, hsim⟩ | ⟨hlt, hnot, hpromise⟩
  · by_cases hut : u = t
    · subst hut
      exact Followed.own hQ hnum hth hsim hinv hfree hdepth hs
    · refine .inl ⟨p, (hs.thread_ne (Ne.symm hut)).trans hth, ?_⟩
      rw [hs.heldBy_ne (Ne.symm hut)]
      exact hsim.stable (hrely hut)
  · obtain ⟨m, o', p', hth', hnext, hcase⟩ := hs.shape
    refine .inr ⟨hnext ▸ hlt, fun v k o'' p'' hv => ?_, fun r hr => hkeep r (hpromise r ?_)⟩
    · obtain ⟨_, _, hv⟩ := hs.number hv
      exact hnot v k _ _ hv
    · rcases hcase with ⟨_, _, hhist⟩ | ⟨r', _, hhist⟩
      · exact hhist ▸ hr
      · rw [hhist] at hr
        rcases List.mem_append.mp hr with hr | hr
        · exact hr
        · cases List.mem_singleton.mp hr
          exact absurd rfl (hnot _ _ _ _ hth')

/-- Another operation is started. -/
theorem Followed.start {u : T} {o' : Op} {p : Prog L C R (Ret o')} (hidle : c.thread u = none)
    (h : Followed sys alone Q K n t c) : Followed sys alone Q K n t (c.start u o' p) := by
  rcases h with ⟨p', hth, hsim⟩ | ⟨hlt, hnot, hpromise⟩
  · have hut : t ≠ u := fun hut => by rw [hut, hidle] at hth; cases hth
    refine .inl ⟨p', ?_, hsim⟩
    rw [start_thread, Function.update_of_ne hut, hth]
  · refine .inr ⟨Nat.lt_succ_of_lt hlt, fun v m o'' p'' hv => ?_, fun r hr => hpromise r ?_⟩
    · rw [start_thread] at hv
      by_cases hvu : v = u
      · rw [hvu, Function.update_self] at hv
        cases hv
        exact Nat.ne_of_gt hlt
      · rw [Function.update_of_ne hvu] at hv
        exact hnot v m o'' p'' hv
    · simpa [Config.start] using hr

/-- Where it has returned, it has kept its promise. -/
theorem Followed.promised {r : Ret o} (h : Followed sys alone Q K n t c) (hnum : Numbered c)
    (hr : .res n t o r ∈ c.hist) : K r c.state := by
  rcases h with ⟨p, hth, _⟩ | ⟨_, _, hpromise⟩
  · exact absurd hr ((hnum.running t n o p hth).2 t o r)
  · exact hpromise r hr

end Promise

end Followed

end Lib
