import NimbusFs.Lib.Tracked
import NimbusFs.Lib.Linearizability

/-! # Operations under different conditions

A pool may work under one set of conditions first and under better ones from some
moment on, with operations under way when the change comes. Each operation gets a mark
that says from which phase it is, and the calls of a marked program mean what the mark
says. So both phases are one run of one pool, whose operations are proved mark by mark,
and its order explains every operation by what is promised under its own conditions. -/
namespace Lib

/-! ## Marks -/

section Mark

variable {T L C B : Type} {R : C → Type} {S Op α : Type} {Ret : Op → Type}

/-- The program with `b` on each of its calls. -/
def Prog.mark (b : B) : Prog L C R α → Prog L (B × C) (fun c => R c.2) α
  | .ret a => .ret a
  | .lock l k => .lock l (k.mark b)
  | .unlock l k => .unlock l (k.mark b)
  | .call c k => .call (b, c) fun r => (k r).mark b

/-- The operations of all the pools, an operation with mark `b` as `sys b` runs it. -/
def System.marked (sys : B → System L C R S Op Ret) (reentrant : Bool) :
    System L (B × C) (fun c => R c.2) S (B × Op) (fun o => Ret o.2) where
  impl o p := ∃ p', (sys o.1).impl o.2 p' ∧ p = p'.mark o.1
  sem c := (sys c.1).sem c.2
  crash s s' := ∃ b, (sys b).crash s s'
  reentrant := reentrant

variable (m : Nat → B)

/-- The mark of an operation goes by its number. -/
def Event.mark : Event T Op Ret → Event T (B × Op) (fun o => Ret o.2)
  | .inv n t o => .inv n t (m n, o)
  | .res n t o r => .res n t (m n, o) r

def Running.mark (x : Running L C R Op Ret) :
    Running L (B × C) (fun c => R c.2) (B × Op) (fun o => Ret o.2) :=
  ⟨x.num, (m x.num, x.op), x.prog.mark (m x.num)⟩

def Config.mark (c : Config T L C R S Op Ret) :
    Config T L (B × C) (fun c => R c.2) S (B × Op) (fun o => Ret o.2) where
  thread t := (c.thread t).map (Running.mark m)
  owner := c.owner
  state := c.state
  hist := c.hist.map (Event.mark m)
  next := c.next

/-- A mark is read off the number, so it tells nothing new. -/
theorem mem_map_mark {n : Nat} {t : T} {o : Op} {r : Ret o} {hist : List (Event T Op Ret)}
    (h : .res n t o r ∈ hist) : .res n t (m n, o) r ∈ hist.map (Event.mark m) :=
  List.mem_map_of_mem (f := Event.mark m) h

end Mark

/-! ## A run with marks -/

section Steps

variable {T L C B : Type} {R : C → Type} {S Op : Type} {Ret : Op → Type}
variable [DecidableEq T] [DecidableEq L]
variable {sys : B → System L C R S Op Ret} {now : System L C R S Op Ret} {re : Bool} {m : Nat → B}
variable {c c' : Config T L C R S Op Ret} {t : T}

omit [DecidableEq L] in
theorem update_mark (f : T → Option (Running L C R Op Ret)) (x : Option (Running L C R Op Ret)) :
    (fun u => (Function.update f t x u).map (Running.mark m)) =
      Function.update (fun u => (f u).map (Running.mark m)) t (x.map (Running.mark m)) := by
  funext u
  exact Function.apply_update (fun _ => Option.map (Running.mark m)) f t x u

omit [DecidableEq L] in
theorem Config.mark_resume (n : Nat) (o : Op) (p : Prog L C R (Ret o)) :
    (c.resume t n o p).mark m = (c.mark m).resume t n (m n, o) (p.mark (m n)) := by
  simp only [Config.mark, Config.resume, update_mark]
  rfl

omit [DecidableEq T] [DecidableEq L] in
theorem Config.mark_thread (m : Nat → B) {n : Nat} {o : Op} {p : Prog L C R (Ret o)}
    (h : c.thread t = some ⟨n, o, p⟩) :
    (c.mark m).thread t = some ⟨n, (m n, o), p.mark (m n)⟩ := by
  simp only [Config.mark, h]
  rfl

/-- A step of a thread whose calls do what its mark allows. -/
theorem TStep.mark (hre : now.reentrant = true → re = true)
    (hsem : ∀ n o p, c.thread t = some ⟨n, o, p⟩ →
      ∀ a s r s', now.sem a s r s' → (sys (m n)).sem a s r s')
    (h : TStep now t c c') : TStep (System.marked sys re) t (c.mark m) (c'.mark m) := by
  cases h with
  | @lock n o l k hth hown =>
    show TStep _ t _ (((c.resume t n o k).mark m).setOwner l _)
    rw [Config.mark_resume]
    exact .lock (Config.mark_thread m hth) hown
  | @relock n o l k d hth hr hown =>
    show TStep _ t _ (((c.resume t n o k).mark m).setOwner l _)
    rw [Config.mark_resume]
    exact .relock (Config.mark_thread m hth) (hre hr) hown
  | @unlock n o l k d hth hown =>
    show TStep _ t _ (((c.resume t n o k).mark m).setOwner l _)
    rw [Config.mark_resume]
    exact .unlock (Config.mark_thread m hth) hown
  | @call n o a k r s' hth hs =>
    show TStep _ t _ { (c.resume t n o (k r)).mark m with state := s' }
    rw [Config.mark_resume]
    exact .call (Config.mark_thread m hth) (hsem n o _ hth a c.state r s' hs)
  | @ret n o r hth =>
    have hend : Config.mark m { c with thread := Function.update c.thread t none,
                                       hist := c.hist ++ [.res n t o r] } =
        { c.mark m with thread := Function.update (c.mark m).thread t none,
                        hist := (c.mark m).hist ++ [.res n t (m n, o) r] } := by
      simp only [Config.mark, update_mark, List.map_append]
      rfl
    rw [hend]
    exact .ret (Config.mark_thread m hth)

theorem Step.mark (hre : now.reentrant = true → re = true)
    (himpl : c.next < c'.next → ∀ o p, now.impl o p → (sys (m c.next)).impl o p)
    (hsem : ∀ t n o p, c.thread t = some ⟨n, o, p⟩ →
      ∀ a s r s', now.sem a s r s' → (sys (m n)).sem a s r s')
    (hcrash : ∀ s s', now.crash s s' → ∃ b, (sys b).crash s s')
    (h : Step now c c') : Step (System.marked sys re) (c.mark m) (c'.mark m) := by
  cases h with
  | @invoke t o p hidle hp =>
    have hstart : (c.start t o p).mark m = (c.mark m).start t (m c.next, o) (p.mark (m c.next)) := by
      simp only [Config.mark, Config.start, Config.resume, update_mark, List.map_append]
      rfl
    rw [hstart]
    have hidle' : (c.mark m).thread t = none := by simp only [Config.mark, hidle, Option.map_none]
    exact .invoke hidle' ⟨p, himpl (Nat.lt_succ_self _) o p hp, rfl⟩
  | thread ht => exact .thread (ht.mark hre fun n o p => hsem _ n o p)
  | @crash s' hs => exact .crash (hcrash _ _ hs)

end Steps

/-! ## What marked operations do -/

section Rule

variable {T L C B : Type} {R : C → Type} {S A P P' Op α : Type} {Ret : Op → Type}
variable [DecidableEq L]
variable {sys : B → System L C R S Op Ret} {re : Bool} {b : B} {rg : RelyGuarantee L S}

/-- What an operation does, by its mark. -/
def byMark (spec : B → A → (o : Op) → Ret o → A → Prop) (a : A) (o : B × Op) (r : Ret o.2)
    (a' : A) : Prop :=
  spec o.1 a o.2 r a'

/-- A program with a mark keeps what it keeps in the pool of that mark. -/
theorem Sim.mark {upd : S → S → P → P → Prop} {upd' : S → S → P' → P' → Prop}
    {Q : (L → Nat) → P → α → S → Prop} {Q' : (L → Nat) → P' → α → S → Prop} (f : P → P')
    (hupd : ∀ s s' g g', upd s s' g g' → upd' s s' (f g) (f g'))
    (hQ : ∀ held g a s, Q held g a s → Q' held (f g) a s) {p : Prog L C R α} {held : L → Nat}
    {g : P} {s : S} (h : Sim rg (sys b).sem upd Q p held g s) :
    Sim rg (System.marked sys re).sem upd' Q' (p.mark b) held (f g) s := by
  induction p generalizing held g s with
  | ret a => exact fun s₁ hr hi => hQ _ _ _ _ (h s₁ hr hi)
  | lock l k ih => exact fun s₁ hr hi => ih (h s₁ hr hi)
  | unlock l k ih =>
    intro s₁ hr hi
    obtain ⟨g', hu, hk⟩ := h s₁ hr hi
    exact ⟨f g', hupd _ _ _ _ hu, ih hk⟩
  | call c k ih =>
    intro s₁ hr hi r s₂ hs
    obtain ⟨hi₂, hg, g', hu, hk⟩ := h s₁ hr hi r s₂ hs
    exact ⟨hi₂, hg, f g', hupd _ _ _ _ hu, ih r hk⟩

/-- An operation takes effect as is promised under its own conditions. -/
theorem LinSim.mark {spec : B → A → (o : Op) → Ret o → A → Prop} {view : S → A} {o : Op}
    {p : Prog L C R (Ret o)} (h : LinSim rg (sys b).sem (spec b) view p) :
    LinSim (o := (b, o)) rg (System.marked sys re).sem (byMark spec) view (p.mark b) := by
  intro s hs
  refine Sim.mark (Option.map fun x => ⟨(b, x.1), x.2⟩) (fun s s' g g' hu => ?_)
    (fun held g r s hpost => ⟨hpost.1, ?_⟩) (h s hs)
  · rcases hu with ⟨hv, rfl⟩ | ⟨rfl, r, rfl, hspec⟩
    · exact .inl ⟨hv, rfl⟩
    · exact .inr ⟨rfl, r, rfl, hspec⟩
  · rcases hpost.2 with rfl | ⟨rfl, hspec⟩
    · exact .inl rfl
    · exact .inr ⟨rfl, hspec⟩

/-- So in a pool of marked operations all have their place in one order. -/
theorem linSim_marked {spec : B → A → (o : Op) → Ret o → A → Prop} {view : S → A}
    (hsim : ∀ b o p, (sys b).impl o p → LinSim rg (sys b).sem (spec b) view p) (o : B × Op)
    (p : Prog L (B × C) (fun c => R c.2) (Ret o.2)) (hp : (System.marked sys re).impl o p) :
    LinSim rg (System.marked sys re).sem (byMark spec) view p := by
  obtain ⟨p', hp', rfl⟩ := hp
  exact LinSim.mark (hsim o.1 o.2 p' hp')

end Rule

/-! ## Two phases -/

section Phases

variable {T L C : Type} {R : C → Type} {S Op : Type} {Ret : Op → Type}
variable [DecidableEq T] [DecidableEq L]
variable {sys : Bool → System L C R S Op Ret} {c₀ c : Config T L C R S Op Ret} {s : S}

/-- **Two phases are one run.** Up to `c₀` the pool runs as `sys true`, and from there as
`sys false`, whose calls do no more; operations started before that moment are marked. -/
theorem Reachable.phases {re : Bool} (hre : ∀ b, (sys b).reentrant = true → re = true)
    (hsem : ∀ a s r s', (sys false).sem a s r s' → (sys true).sem a s r s')
    (h₀ : Reachable (sys true) s c₀) (h : Relation.ReflTransGen (Step (sys false)) c₀ c) :
    Reachable (System.marked sys re) s (c.mark fun n => decide (n < c₀.next)) := by
  have hfirst : ∀ c₁ : Config T L C R S Op Ret, Reachable (sys true) s c₁ → c₁.next ≤ c₀.next →
      Reachable (System.marked sys re) s (c₁.mark fun n => decide (n < c₀.next)) := by
    intro c₁ h₁
    induction h₁ with
    | refl => exact fun _ => .refl
    | @tail c₁ c₂ h₁ hs ih =>
      intro hle
      obtain ⟨_, _, hmono, _⟩ := later_hist (Relation.ReflTransGen.single hs)
      have hnum : Numbered c₁ := Reachable.numbered h₁
      refine (ih (hmono.trans hle)).tail (hs.mark (hre true) (fun hlt o p hp => ?_)
        (fun t n o p hth => ?_) fun _ _ hc => ⟨true, hc⟩)
      · rw [decide_eq_true (hlt.trans_le hle)]
        exact hp
      · have hlt : n < c₁.next := hnum.started _ _ _ (hnum.running t n o p hth).1
        rw [decide_eq_true (hlt.trans_le (hmono.trans hle))]
        exact fun _ _ _ _ h => h
  induction h with
  | refl => exact hfirst c₀ h₀ le_rfl
  | @tail c₁ c₂ h₁ hs ih =>
    obtain ⟨_, _, hmono, _⟩ := later_hist h₁
    refine ih.tail (hs.mark (hre false) (fun _ o p hp => ?_) (fun t n o p hth => ?_)
      fun _ _ hc => ⟨false, hc⟩)
    · rw [decide_eq_false (Nat.not_lt.mpr hmono)]
      exact hp
    · cases decide (n < c₀.next) with
      | true => exact hsem
      | false => exact fun _ _ _ _ h => h

variable {A : Type} {rg : RelyGuarantee L S} {spec : Bool → A → (o : Op) → Ret o → A → Prop}
variable {view : S → A}

/-- **One order for both phases.** Each operation takes effect as is promised for the
phase it was started in. -/
theorem Reachable.phases_linearizable {re : Bool} (hre : ∀ b, (sys b).reentrant = true → re = true)
    (hsem : ∀ a s r s', (sys false).sem a s r s' → (sys true).sem a s r s')
    (hsim : ∀ b o p, (sys b).impl o p → LinSim rg (sys b).sem (spec b) view p)
    (hcrash : ∀ b s s', ¬ (sys b).crash s s') (hinit : rg.inv s) (h₀ : Reachable (sys true) s c₀)
    (h : Relation.ReflTransGen (Step (sys false)) c₀ c) :
    rg.inv c.state ∧ Linearizable (byMark spec) (view s)
      (c.hist.map (Event.mark fun n => decide (n < c₀.next))) := by
  have hrun := Reachable.phases hre hsem h₀ h
  have hnone : ∀ s s', ¬ (System.marked sys re).crash s s' := by
    intro s s' hc
    obtain ⟨b, hb⟩ := hc
    exact hcrash b s s' hb
  obtain ⟨_, _, hl⟩ := hrun.exists_linInv (linSim_marked hsim) hnone hinit
  exact ⟨hl.inv, hrun.linearizable (linSim_marked hsim) hnone hinit⟩

end Phases

end Lib
