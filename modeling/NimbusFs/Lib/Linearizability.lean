import Mathlib.Data.List.Nodup
import NimbusFs.Lib.RelyGuarantee

/-! # Linearizability from linearization points

A history is linearizable when its operations can be put in one order that a
sequential object allows and that never turns round two operations one of which
returned before the other started. The proof rule: the abstract state is a
function of the shared state, and each operation takes effect at one of its own
steps, between its start and its return. The order is that of these steps. -/
namespace Lib

section History

variable {T Op : Type} {Ret : Op → Type} {A : Type}

/-- The operations of `lin`, one after the other, as the sequential object does
them: from the first state to the last. -/
def Legal (spec : A → (o : Op) → Ret o → A → Prop) : A → List (Nat × Sigma Ret) → A → Prop
  | a, [], b => b = a
  | a, (_, ⟨o, r⟩) :: rest, b => ∃ a', spec a o r a' ∧ Legal spec a' rest b

/-- `lin` is an order of operations, each with its result, that explains the
history `h`: the sequential object allows it from `a₀`; it holds only operations
that were started, and every operation that returned, with what it returned; and
it keeps the order of operations that do not overlap. -/
structure Linearizes (spec : A → (o : Op) → Ret o → A → Prop) (a₀ : A)
    (h : List (Event T Op Ret)) (lin : List (Nat × Sigma Ret)) : Prop where
  once : (lin.map Prod.fst).Nodup
  legal : ∃ a, Legal spec a₀ lin a
  started : ∀ n o r, (n, ⟨o, r⟩) ∈ lin → ∃ t, .inv n t o ∈ h
  returned : ∀ n t o r, .res n t o r ∈ h → (n, ⟨o, r⟩) ∈ lin
  realTime : ∀ m t o r n u o', List.Sublist [.res m t o r, .inv n u o'] h → n ∈ lin.map Prod.fst →
    List.Sublist [m, n] (lin.map Prod.fst)

/-- Some order of the operations explains the history. -/
def Linearizable (spec : A → (o : Op) → Ret o → A → Prop) (a₀ : A)
    (h : List (Event T Op Ret)) : Prop :=
  ∃ lin, Linearizes spec a₀ h lin

theorem Legal.snoc {spec : A → (o : Op) → Ret o → A → Prop} {lin : List (Nat × Sigma Ret)}
    {a b c : A} {n : Nat} {o : Op} {r : Ret o} (h : Legal spec a lin b) (hs : spec b o r c) :
    Legal spec a (lin ++ [(n, ⟨o, r⟩)]) c := by
  induction lin generalizing a with
  | nil => cases h; exact ⟨c, hs, rfl⟩
  | cons x rest ih =>
    obtain ⟨a', hx, hrest⟩ := h
    exact ⟨a', hx, ih hrest⟩

theorem Legal.mono {spec spec' : A → (o : Op) → Ret o → A → Prop}
    (hs : ∀ a o r b, spec a o r b → spec' a o r b) {lin : List (Nat × Sigma Ret)} {a b : A}
    (h : Legal spec a lin b) : Legal spec' a lin b := by
  induction lin generalizing a with
  | nil => exact h
  | cons x rest ih =>
    obtain ⟨a', hx, hrest⟩ := h
    exact ⟨a', hs _ _ _ _ hx, ih hrest⟩

/-- What every operation of the order keeps, the order keeps. -/
theorem Legal.keeps {spec : A → (o : Op) → Ret o → A → Prop} {J : A → Prop}
    {lin : List (Nat × Sigma Ret)} {a b : A} (h : Legal spec a lin b)
    (hstep : ∀ n o r, (n, ⟨o, r⟩) ∈ lin → ∀ a b, J a → spec a o r b → J b) (ha : J a) : J b := by
  induction lin generalizing a with
  | nil => cases h; exact ha
  | cons x rest ih =>
    obtain ⟨a', hx, hrest⟩ := h
    exact ih hrest (fun n o r hm => hstep n o r (List.mem_cons_of_mem _ hm))
      (hstep x.1 x.2.1 x.2.2 List.mem_cons_self a a' ha hx)

/-- What explains a history by one object explains it by an object that allows more. -/
theorem Linearizes.mono {spec spec' : A → (o : Op) → Ret o → A → Prop} {a₀ : A}
    {h : List (Event T Op Ret)} {lin : List (Nat × Sigma Ret)}
    (hlin : Linearizes spec a₀ h lin) (hs : ∀ a o r b, spec a o r b → spec' a o r b) :
    Linearizes spec' a₀ h lin where
  once := hlin.once
  legal := by
    obtain ⟨a, ha⟩ := hlin.legal
    exact ⟨a, ha.mono hs⟩
  started := hlin.started
  returned := hlin.returned
  realTime := hlin.realTime

theorem Legal.append {spec : A → (o : Op) → Ret o → A → Prop} {l₁ l₂ : List (Nat × Sigma Ret)}
    {a b : A} (h : Legal spec a (l₁ ++ l₂) b) : ∃ m, Legal spec a l₁ m ∧ Legal spec m l₂ b := by
  induction l₁ generalizing a with
  | nil => exact ⟨a, rfl, h⟩
  | cons x rest ih =>
    obtain ⟨a', hx, hrest⟩ := h
    obtain ⟨m, h₁, h₂⟩ := ih hrest
    exact ⟨m, ⟨a', hx, h₁⟩, h₂⟩

theorem not_both_orders {α : Type} {a b : α} {l : List α} (hnd : l.Nodup)
    (hab : List.Sublist [a, b] l) (hba : List.Sublist [b, a] l) : False := by
  induction l with
  | nil => cases hab
  | cons x rest ih =>
    have hx := (List.nodup_cons.mp hnd).1
    cases hab with
    | cons _ hab =>
      cases hba with
      | cons _ hba => exact ih (List.nodup_cons.mp hnd).2 hab hba
      | cons_cons _ hba => exact hx (hab.subset (by simp))
    | cons_cons _ hab =>
      cases hba with
      | cons _ hba => exact hx (hba.subset (by simp))
      | cons_cons _ hba => exact hx (hba.subset (by simp))

/-- **What one operation sees of another that returned before it started.** The first
took effect from some state that the order leads to, other operations of the history
followed, and from there the second did. Those between them did not return before the
first started, nor start after the second returned. -/
theorem Linearizes.between {spec : A → (o : Op) → Ret o → A → Prop} {a₀ : A}
    {h : List (Event T Op Ret)} {lin : List (Nat × Sigma Ret)} (hlin : Linearizes spec a₀ h lin)
    {m n : Nat} {t u v : T} {o o' : Op} {r : Ret o} {r' : Ret o'}
    (horder : List.Sublist [.res m t o r, .inv n u o'] h) (hres : .res n v o' r' ∈ h) :
    ∃ before a b mid a' b', (∀ x ∈ before ++ mid, x ∈ lin) ∧ Legal spec a₀ before a ∧
      spec a o r b ∧ Legal spec b mid a' ∧ spec a' o' r' b' ∧
      ∀ x ∈ mid, (∀ t₁ o₁ r₁ t₂, ¬ List.Sublist [.res x.1 t₁ o₁ r₁, .inv m t₂ o] h) ∧
        ∀ t₁ t₂ o₂, ¬ List.Sublist [.res n t₁ o' r', .inv x.1 t₂ o₂] h := by
  have hy := hlin.returned n v o' r' hres
  have hx := hlin.returned m t o r (horder.subset List.mem_cons_self)
  have hpair := hlin.realTime m t o r n u o' horder (List.mem_map_of_mem hy)
  obtain ⟨l', hsub, heq⟩ := List.sublist_map_iff.mp hpair
  -- the numbers tell the entries apart, so these are the two entries
  match l', heq with
  | [x, y], heq =>
    simp only [List.map_cons, List.map_nil, List.cons.injEq, and_true] at heq
    obtain rfl := List.inj_on_of_nodup_map hlin.once hx (hsub.subset List.mem_cons_self) heq.1
    obtain rfl := List.inj_on_of_nodup_map hlin.once hy (hsub.subset (by simp)) heq.2
    obtain ⟨r₁, r₂, hsplit, hx, hy⟩ := List.cons_sublist_iff.mp hsub
    obtain ⟨before, after, rfl⟩ := List.append_of_mem hx
    obtain ⟨mid, rest, rfl⟩ := List.append_of_mem (List.singleton_sublist.mp hy)
    obtain ⟨last, hlegal⟩ := hlin.legal
    have hlin_eq : lin = before ++ (m, ⟨o, r⟩) :: ((after ++ mid) ++ (n, ⟨o', r'⟩) :: rest) := by
      simpa using hsplit
    have hparts : ∀ z ∈ after ++ mid, z ∈ lin ∧ List.Sublist [m, z.1] (lin.map Prod.fst) ∧
        List.Sublist [z.1, n] (lin.map Prod.fst) := by
      intro z hz
      have hlast : List.Sublist [(n, ⟨o', r'⟩)] ((n, ⟨o', r'⟩) :: rest) :=
        List.singleton_sublist.mpr List.mem_cons_self
      have hthree : List.Sublist [(m, ⟨o, r⟩), z, (n, ⟨o', r'⟩)] lin := by
        rw [hlin_eq]
        exact ((List.singleton_sublist.mpr hz).append hlast).cons_cons _ |>.trans
          (List.sublist_append_right _ _)
      have hnums := hthree.map Prod.fst
      refine ⟨hthree.subset (by simp), List.Sublist.trans ?_ hnums, List.Sublist.trans ?_ hnums⟩
      · exact List.sublist_append_left [m, z.1] [n]
      · exact List.sublist_append_right [m] [z.1, n]
    rw [hlin_eq] at hlegal
    obtain ⟨a, h₁, b, hxs, h₂⟩ := hlegal.append
    obtain ⟨a', hmid, b', hys, _⟩ := h₂.append
    refine ⟨before, a, b, after ++ mid, a', b', fun z hz => ?_, h₁, hxs, hmid, hys, fun z hz => ?_⟩
    · rcases List.mem_append.mp hz with hz | hz
      · rw [hlin_eq]; exact List.mem_append_left _ hz
      · exact (hparts z hz).1
    · obtain ⟨hmem, hafter, hbefore⟩ := hparts z hz
      refine ⟨fun t₁ o₁ r₁ t₂ hearly => ?_, fun t₁ t₂ o₂ hlate => ?_⟩
      · exact not_both_orders hlin.once hafter (hlin.realTime _ _ _ _ _ _ _ hearly
          (hafter.subset List.mem_cons_self))
      · exact not_both_orders hlin.once hbefore (hlin.realTime _ _ _ _ _ _ _ hlate
          (hbefore.subset List.mem_cons_self))
  | [], heq => cases heq
  | [_], heq => cases heq
  | _ :: _ :: _ :: _, heq => cases heq

theorem pair_sublist_snoc {α : Type} {a b c : α} {l : List α} (h : List.Sublist [a, b] (l ++ [c])) :
    List.Sublist [a, b] l ∨ (b = c ∧ a ∈ l) := by
  obtain ⟨l₁, l₂, heq, h₁, h₂⟩ := List.sublist_append_iff.mp h
  match l₁, heq with
  | [], heq =>
    simp only [List.nil_append] at heq
    have := h₂.length_le
    simp [← heq] at this
  | [x], heq =>
    simp only [List.cons_append, List.nil_append, List.cons.injEq] at heq
    obtain ⟨rfl, rfl⟩ := heq
    exact .inr ⟨by simpa using h₂, by simpa using h₁⟩
  | [x, y], heq =>
    simp only [List.cons_append, List.nil_append, List.cons.injEq] at heq
    obtain ⟨rfl, rfl, _⟩ := heq
    exact .inl h₁
  | _ :: _ :: _ :: _, heq => simp at heq

/-- The part of the argument that is about histories alone: numbers below
`next` are in use, and all of them are explained by `lin` so far. -/
structure Explained (h : List (Event T Op Ret)) (next : Nat) (lin : List (Nat × Sigma Ret)) :
    Prop where
  once : (lin.map Prod.fst).Nodup
  below : ∀ n ∈ lin.map Prod.fst, n < next
  started : ∀ n o r, (n, ⟨o, r⟩) ∈ lin → ∃ t, .inv n t o ∈ h
  returned : ∀ n t o r, .res n t o r ∈ h → (n, ⟨o, r⟩) ∈ lin
  realTime : ∀ m t o r n u o', List.Sublist [.res m t o r, .inv n u o'] h → n ∈ lin.map Prod.fst →
    List.Sublist [m, n] (lin.map Prod.fst)

variable {h : List (Event T Op Ret)} {next : Nat} {lin : List (Nat × Sigma Ret)}

theorem Explained.nil : Explained ([] : List (Event T Op Ret)) 0 [] := by
  constructor <;> simp

theorem Explained.start (he : Explained h next lin) (t : T) (o : Op) :
    Explained (h ++ [.inv next t o]) (next + 1) lin where
  once := he.once
  below n hn := Nat.lt_succ_of_lt (he.below n hn)
  started n o' r hn := by
    obtain ⟨u, hu⟩ := he.started n o' r hn
    exact ⟨u, List.mem_append_left _ hu⟩
  returned n u o' r hn := he.returned n u o' r (by simpa using hn)
  realTime m u o' r n v o'' hs hn := by
    rcases pair_sublist_snoc hs with hs | ⟨heq, _⟩
    · exact he.realTime m u o' r n v o'' hs hn
    · cases heq
      exact absurd (he.below _ hn) (Nat.lt_irrefl _)

theorem Explained.linearize (he : Explained h next lin) {n : Nat} {t : T} {o : Op} (r : Ret o)
    (hinv : .inv n t o ∈ h) (hlt : n < next) (hnew : n ∉ lin.map Prod.fst) :
    Explained h next (lin ++ [(n, ⟨o, r⟩)]) where
  once := by
    rw [List.map_append, List.map_singleton]
    exact he.once.append (List.nodup_singleton n) (by simpa using hnew)
  below m hm := by
    rw [List.map_append, List.mem_append] at hm
    rcases hm with hm | hm
    · exact he.below m hm
    · rw [List.mem_singleton.mp hm]; exact hlt
  started m o' r' hm := by
    rcases List.mem_append.mp hm with hm | hm
    · exact he.started m o' r' hm
    · cases List.mem_singleton.mp hm; exact ⟨t, hinv⟩
  returned m u o' r' hm := List.mem_append_left _ (he.returned m u o' r' hm)
  realTime m u o' r' k v o'' hs hk := by
    rw [List.map_append, List.mem_append] at hk
    rw [List.map_append]
    rcases hk with hk | hk
    · exact (he.realTime m u o' r' k v o'' hs hk).trans (List.sublist_append_left _ _)
    · -- what returned before is in the order already
      have hm : m ∈ lin.map Prod.fst := by
        have := he.returned m u o' r' (hs.subset (by simp))
        exact List.mem_map.mpr ⟨_, this, rfl⟩
      rw [List.mem_singleton.mp hk]
      exact (List.singleton_sublist.mpr hm).append (List.Sublist.refl [n])

theorem Explained.respond (he : Explained h next lin) {n : Nat} {o : Op} {r : Ret o} (t : T)
    (hn : (n, ⟨o, r⟩) ∈ lin) : Explained (h ++ [.res n t o r]) next lin where
  once := he.once
  below := he.below
  started m o' r' hm := by
    obtain ⟨u, hu⟩ := he.started m o' r' hm
    exact ⟨u, List.mem_append_left _ hu⟩
  returned m u o' r' hm := by
    rcases List.mem_append.mp hm with hm | hm
    · exact he.returned m u o' r' hm
    · cases List.mem_singleton.mp hm; exact hn
  realTime m u o' r' k v o'' hs hk := by
    rcases pair_sublist_snoc hs with hs | ⟨heq, _⟩
    · exact he.realTime m u o' r' k v o'' hs hk
    · cases heq

end History

/-! ## The proof rule -/

section Rule

variable {T L C : Type} {R : C → Type} {S A Op : Type} {Ret : Op → Type}
variable [DecidableEq T] [DecidableEq L]

/-- A step either leaves the abstract state and the ghost alone, or it is the
one step where the operation takes effect and fixes its result. -/
def linUpd (spec : A → (o : Op) → Ret o → A → Prop) (view : S → A) (o : Op) (s s' : S)
    (g g' : Option (Sigma Ret)) : Prop :=
  (view s' = view s ∧ g' = g) ∨
    (g = none ∧ ∃ r, g' = some ⟨o, r⟩ ∧ spec (view s) o r (view s'))

/-- An operation returns what it was linearized with, and no lock is left. One
that has not taken effect may do so as it returns, if it changes nothing. -/
def linPost (spec : A → (o : Op) → Ret o → A → Prop) (view : S → A) (o : Op) (held : L → Nat)
    (g : Option (Sigma Ret)) (r : Ret o) (s : S) : Prop :=
  (∀ l, held l = 0) ∧ (g = some ⟨o, r⟩ ∨ (g = none ∧ spec (view s) o r (view s)))

variable {sys : System L C R S Op Ret} {rg : RelyGuarantee L S}
variable {spec : A → (o : Op) → Ret o → A → Prop} {view : S → A}

/-- The program of `o` takes effect once, as `spec` says, from every state of
the invariant. -/
abbrev LinSim (rg : RelyGuarantee L S) (sem : (c : C) → S → R c → S → Prop)
    (spec : A → (o : Op) → Ret o → A → Prop) (view : S → A) {o : Op}
    (p : Prog L C R (Ret o)) : Prop :=
  ∀ s, rg.inv s → Sim rg sem (linUpd spec view o) (linPost spec view o) p (fun _ => 0) none s

/-- What holds of every state of a pool of such programs. -/
structure LinInv (sys : System L C R S Op Ret) (rg : RelyGuarantee L S)
    (spec : A → (o : Op) → Ret o → A → Prop) (view : S → A) (a₀ : A)
    (c : Config T L C R S Op Ret) (G : T → Option (Sigma Ret)) (lin : List (Nat × Sigma Ret)) :
    Prop where
  inv : rg.inv c.state
  sims : AllSim sys rg (linUpd spec view) (linPost spec view) c G
  idle : ∀ t, c.thread t = none → ∀ l, heldBy c t l = 0
  legal : Legal spec a₀ lin (view c.state)
  explained : Explained c.hist c.next lin
  running : ∀ t n o p, c.thread t = some ⟨n, o, p⟩ → .inv n t o ∈ c.hist ∧ n < c.next ∧
    (G t = none → n ∉ lin.map Prod.fst) ∧ ∀ x, G t = some x → (n, x) ∈ lin
  apart : ∀ t u n o p o' p', c.thread t = some ⟨n, o, p⟩ → c.thread u = some ⟨n, o', p'⟩ → t = u

theorem LinInv.init {s₀ : S} (hinv : rg.inv s₀) :
    LinInv sys rg spec view (view s₀) (Config.init s₀ : Config T L C R S Op Ret)
      (fun _ => none) [] where
  inv := hinv
  sims := by intro t n o p h; simp [Config.init] at h
  idle := by intro t _ l; simp [heldBy, Config.init]
  legal := rfl
  explained := Explained.nil
  running := by intro t n o p h; simp [Config.init] at h
  apart := by intro t u n o p o' p' h; simp [Config.init] at h

theorem LinInv.invoke {a₀ : A} {c : Config T L C R S Op Ret} {G : T → Option (Sigma Ret)}
    {lin : List (Nat × Sigma Ret)} (hl : LinInv sys rg spec view a₀ c G lin) {t : T} {o : Op}
    {p : Prog L C R (Ret o)} (hidle : c.thread t = none) (hp : LinSim rg sys.sem spec view p) :
    LinInv sys rg spec view a₀ (c.start t o p) (Function.update G t none) lin where
  inv := hl.inv
  sims := by
    have hheld : heldBy c t = fun _ => 0 := funext (hl.idle t hidle)
    have hself := hp c.state hl.inv
    rw [← hheld] at hself
    exact hl.sims.start hself
  idle u hu := hl.idle u (start_idle hu)
  legal := hl.legal
  explained := hl.explained.start t o
  running := by
    intro u n o' p' hu
    rw [start_thread] at hu
    by_cases hut : u = t
    · subst hut
      rw [Function.update_self] at hu ⊢
      cases hu
      refine ⟨List.mem_append_right _ (by simp), Nat.lt_succ_self _, fun _ hn => ?_, by simp⟩
      exact absurd (hl.explained.below _ hn) (Nat.lt_irrefl _)
    · rw [Function.update_of_ne hut] at hu ⊢
      obtain ⟨hi, hlt, hnone, hsome⟩ := hl.running u n o' p' hu
      exact ⟨List.mem_append_left _ hi, Nat.lt_succ_of_lt hlt, hnone, hsome⟩
  apart := by
    have hfresh : ∀ u n o' p', c.thread u = some ⟨n, o', p'⟩ → n ≠ c.next := fun u n o' p' hu =>
      Nat.ne_of_lt (hl.running u n o' p' hu).2.1
    intro u v n o₁ p₁ o₂ p₂ hu hv
    rw [start_thread] at hu hv
    by_cases hut : u = t
    · by_cases hvt : v = t
      · rw [hut, hvt]
      · subst hut
        rw [Function.update_self] at hu
        rw [Function.update_of_ne hvt] at hv
        cases hu
        exact absurd rfl (hfresh v _ _ _ hv)
    · rw [Function.update_of_ne hut] at hu
      by_cases hvt : v = t
      · subst hvt
        rw [Function.update_self] at hv
        cases hv
        exact absurd rfl (hfresh u _ _ _ hu)
      · rw [Function.update_of_ne hvt] at hv
        exact hl.apart u v n o₁ p₁ o₂ p₂ hu hv

/-- What one step of a running thread does to the order: nothing, or the
thread's own operation is put at its end, with the result it fixes. -/
theorem LinInv.order_step {a₀ : A} {c : Config T L C R S Op Ret} {G : T → Option (Sigma Ret)}
    {lin : List (Nat × Sigma Ret)} (hl : LinInv sys rg spec view a₀ c G lin) {t : T} {n : Nat}
    {o : Op} {p : Prog L C R (Ret o)} (hth : c.thread t = some ⟨n, o, p⟩) {s' : S}
    {g' : Option (Sigma Ret)} (hu : linUpd spec view o c.state s' (G t) g') :
    ∃ lin', Legal spec a₀ lin' (view s') ∧ Explained c.hist c.next lin' ∧
      (∀ x ∈ lin, x ∈ lin') ∧ (∀ m ∈ lin'.map Prod.fst, m ∈ lin.map Prod.fst ∨ m = n) ∧
      (g' = none → lin' = lin ∧ G t = none) ∧ ∀ x, g' = some x → (n, x) ∈ lin' := by
  obtain ⟨hi, hlt, hnone, hsome⟩ := hl.running t n o p hth
  rcases hu with ⟨hv, rfl⟩ | ⟨hg, r, rfl, hs⟩
  · refine ⟨lin, ?_, hl.explained, fun _ h => h, fun _ h => .inl h, fun h => ⟨rfl, h⟩, hsome⟩
    rw [hv]; exact hl.legal
  · refine ⟨lin ++ [(n, ⟨o, r⟩)], hl.legal.snoc hs, hl.explained.linearize r hi hlt (hnone hg),
      fun _ h => List.mem_append_left _ h, fun m hm => ?_, by simp, fun x hx => ?_⟩
    · simpa using hm
    · cases hx; simp

/-- The bookkeeping of the threads other than `t`, whose numbers are not `n`. -/
theorem LinInv.others {a₀ : A} {c c' : Config T L C R S Op Ret} {G : T → Option (Sigma Ret)}
    {lin lin' : List (Nat × Sigma Ret)} (hl : LinInv sys rg spec view a₀ c G lin) {t : T} {n : Nat}
    {o : Op} {p : Prog L C R (Ret o)} (hth : c.thread t = some ⟨n, o, p⟩)
    (hhist : ∀ e ∈ c.hist, e ∈ c'.hist) (hnext : c'.next = c.next) (hsub : ∀ x ∈ lin, x ∈ lin')
    (hnew : ∀ m ∈ lin'.map Prod.fst, m ∈ lin.map Prod.fst ∨ m = n) {u : T} (hut : u ≠ t) {m : Nat}
    {o' : Op} {p' : Prog L C R (Ret o')} (hu : c.thread u = some ⟨m, o', p'⟩) :
    .inv m u o' ∈ c'.hist ∧ m < c'.next ∧ (G u = none → m ∉ lin'.map Prod.fst) ∧
      ∀ x, G u = some x → (m, x) ∈ lin' := by
  obtain ⟨hi, hlt, hnone, hsome⟩ := hl.running u m o' p' hu
  refine ⟨hhist _ hi, hnext ▸ hlt, fun hg hm => ?_, fun x hx => hsub _ (hsome x hx)⟩
  rcases hnew m hm with hm | rfl
  · exact hnone hg hm
  · exact hut (hl.apart u t m o' p' o p hu hth)

/-- A step changes the program of a thread, not its number. -/
theorem TStep.number {c c' : Config T L C R S Op Ret} {t u : T} {m : Nat} {o : Op}
    {p : Prog L C R (Ret o)} (h : TStep sys t c c') (hu : c'.thread u = some ⟨m, o, p⟩) :
    ∃ o' p', c.thread u = some ⟨m, o', p'⟩ := by
  by_cases hut : u = t
  · subst hut
    cases h with
    | lock hth _ => cases (resume_self _ _ _ _ _).symm.trans hu; exact ⟨_, _, hth⟩
    | relock hth _ _ => cases (resume_self _ _ _ _ _).symm.trans hu; exact ⟨_, _, hth⟩
    | unlock hth _ => cases (resume_self _ _ _ _ _).symm.trans hu; exact ⟨_, _, hth⟩
    | call hth _ => cases (resume_self _ _ _ _ _).symm.trans hu; exact ⟨_, _, hth⟩
    | ret hth => simp at hu
  · exact ⟨o, p, h.thread_ne hut ▸ hu⟩

/-- A step starts no operation, so those that run keep their numbers apart. -/
theorem LinInv.apart_tstep {a₀ : A} {c c' : Config T L C R S Op Ret} {G : T → Option (Sigma Ret)}
    {lin : List (Nat × Sigma Ret)} {t u v : T} {n : Nat} {o o' : Op} {p : Prog L C R (Ret o)}
    {p' : Prog L C R (Ret o')} (hl : LinInv sys rg spec view a₀ c G lin) (h : TStep sys t c c')
    (hu : c'.thread u = some ⟨n, o, p⟩) (hv : c'.thread v = some ⟨n, o', p'⟩) : u = v := by
  obtain ⟨_, _, hu⟩ := h.number hu
  obtain ⟨_, _, hv⟩ := h.number hv
  exact hl.apart u v n _ _ _ _ hu hv

theorem LinInv.tstep {a₀ : A} {c c' : Config T L C R S Op Ret} {G : T → Option (Sigma Ret)}
    {lin : List (Nat × Sigma Ret)} {t : T} (hl : LinInv sys rg spec view a₀ c G lin)
    (h : TStep sys t c c') : ∃ G' lin', LinInv sys rg spec view a₀ c' G' lin' := by
  obtain ⟨hinv, g', hall, n, o, p, hth, hupd, hcase, hnext⟩ :=
    hl.sims.tstep hl.inv (fun _ _ _ => .inl ⟨rfl, rfl⟩) h
  obtain ⟨lin', hlegal, hexp, hsub, hnew, hgnone, hgsome⟩ := hl.order_step hth hupd
  obtain ⟨hi, hlt, hnone, _⟩ := hl.running t n o p hth
  rcases hcase with ⟨p', hthr, hhist⟩ | ⟨r, hthr, hg, hhist, hheld, hpost⟩
  · refine ⟨Function.update G t g', lin', hinv, hall, ?_, hlegal, hhist ▸ hnext ▸ hexp, ?_, ?_⟩
    · refine h.idle hl.idle fun hnone => ?_
      simp [hthr] at hnone
    · intro u m o' q hu
      rw [hthr] at hu
      by_cases hut : u = t
      · subst hut
        rw [Function.update_self] at hu ⊢
        cases hu
        refine ⟨hhist ▸ hi, hnext ▸ hlt, fun hg => ?_, hgsome⟩
        obtain ⟨rfl, hgt⟩ := hgnone hg
        exact hnone hgt
      · rw [Function.update_of_ne hut] at hu ⊢
        exact hl.others hth (fun e he => hhist ▸ he) hnext hsub hnew hut hu
    · intro u v m o₁ p₁ o₂ p₂ hu hv
      exact hl.apart_tstep h hu hv
  · subst hg
    -- the result is in the order already, or is put there as the operation returns
    obtain ⟨lin'', hlegal'', hexp'', hsub'', hnew'', hmem⟩ : ∃ lin'',
        Legal spec a₀ lin'' (view c'.state) ∧ Explained c.hist c.next lin'' ∧
        (∀ x ∈ lin, x ∈ lin'') ∧ (∀ m ∈ lin''.map Prod.fst, m ∈ lin.map Prod.fst ∨ m = n) ∧
        (n, ⟨o, r⟩) ∈ lin'' := by
      rcases hpost with hg | ⟨hg, hs⟩
      · exact ⟨lin', hlegal, hexp, hsub, hnew, hgsome _ hg⟩
      · obtain ⟨rfl, _⟩ := hgnone hg
        exact ⟨lin' ++ [(n, ⟨o, r⟩)], hlegal.snoc hs, hexp.linearize r hi hlt (hnone hg),
          fun _ h => List.mem_append_left _ h, fun m hm => by simpa using hm, by simp⟩
    refine ⟨Function.update G t (G t), lin'', hinv, hall, ?_, hlegal'',
      hhist ▸ hnext ▸ hexp''.respond t hmem, ?_, ?_⟩
    · exact h.idle hl.idle fun _ => hheld
    · intro u m o' q hu
      rw [hthr] at hu
      by_cases hut : u = t
      · simp [hut] at hu
      · rw [Function.update_of_ne hut] at hu ⊢
        exact hl.others hth (fun e he => hhist ▸ List.mem_append_left _ he) hnext hsub'' hnew'' hut hu
    · intro u v m o₁ p₁ o₂ p₂ hu hv
      exact hl.apart_tstep h hu hv

theorem Reachable.exists_linInv {s₀ : S} {c : Config T L C R S Op Ret}
    (hsim : ∀ o p, sys.impl o p → LinSim rg sys.sem spec view p)
    (hcrash : ∀ s s', ¬ sys.crash s s') (hinit : rg.inv s₀) (h : Reachable sys s₀ c) :
    ∃ G lin, LinInv sys rg spec view (view s₀) c G lin := by
  induction h with
  | refl => exact ⟨_, _, LinInv.init hinit⟩
  | tail _ hs ih =>
    obtain ⟨G, lin, hl⟩ := ih
    cases hs with
    | invoke hidle hp => exact ⟨_, _, hl.invoke hidle (hsim _ _ hp)⟩
    | thread ht => exact hl.tstep ht
    | crash hc => exact absurd hc (hcrash _ _)

/-- **Linearizability.** In a pool that never crashes, whose programs take
effect once as `spec` says, every history is linearizable, whatever the number
of threads and however their steps interleave. -/
theorem Reachable.linearizable {s₀ : S} {c : Config T L C R S Op Ret}
    (hsim : ∀ o p, sys.impl o p → LinSim rg sys.sem spec view p)
    (hcrash : ∀ s s', ¬ sys.crash s s') (hinit : rg.inv s₀) (h : Reachable sys s₀ c) :
    Linearizable spec (view s₀) c.hist := by
  obtain ⟨G, lin, hl⟩ := h.exists_linInv hsim hcrash hinit
  exact ⟨lin, hl.explained.once, ⟨_, hl.legal⟩, hl.explained.started, hl.explained.returned,
    hl.explained.realTime⟩

theorem Reachable.implemented {s₀ : S} {c : Config T L C R S Op Ret} (h : Reachable sys s₀ c)
    {n : Nat} {t : T} {o : Op} (hinv : .inv n t o ∈ c.hist) : ∃ p, sys.impl o p := by
  induction h with
  | refl => simp [Config.init] at hinv
  | tail _ hs ih =>
    cases hs with
    | invoke _ hp =>
      rcases List.mem_append.mp hinv with hinv | hinv
      · exact ih hinv
      · cases List.mem_singleton.mp hinv
        exact ⟨_, hp⟩
    | thread ht =>
      cases ht with
      | lock _ _ => exact ih hinv
      | relock _ _ _ => exact ih hinv
      | unlock _ _ => exact ih hinv
      | call _ _ => exact ih hinv
      | ret _ => exact ih (by simpa using hinv)
    | crash _ => exact ih hinv

/-- What the sequential object keeps under the operations that are called, the
threads keep at every moment. -/
theorem Reachable.keeps {J : A → Prop} {s₀ : S} {c : Config T L C R S Op Ret}
    (hsim : ∀ o p, sys.impl o p → LinSim rg sys.sem spec view p)
    (hcrash : ∀ s s', ¬ sys.crash s s') (hinit : rg.inv s₀)
    (hstep : ∀ o p, sys.impl o p → ∀ r a b, J a → spec a o r b → J b) (hJ : J (view s₀))
    (h : Reachable sys s₀ c) : rg.inv c.state ∧ J (view c.state) := by
  obtain ⟨G, lin, hl⟩ := h.exists_linInv hsim hcrash hinit
  refine ⟨hl.inv, hl.legal.keeps (fun n o r hm => ?_) hJ⟩
  obtain ⟨t, ht⟩ := hl.explained.started n o r hm
  obtain ⟨p, hp⟩ := h.implemented ht
  exact hstep o p hp r

/-- In a pool whose process crashes, as long as a crash keeps the invariant: the
invariant holds, and every operation returned something that `spec` allows in
some state. -/
theorem Reachable.results {s₀ : S} {c : Config T L C R S Op Ret}
    (hsim : ∀ o p, sys.impl o p → LinSim rg sys.sem spec view p)
    (hcrash : ∀ s s', rg.inv s → sys.crash s s' → rg.inv s') (hinit : rg.inv s₀)
    (h : Reachable sys s₀ c) :
    rg.inv c.state ∧ ∀ n t o r, .res n t o r ∈ c.hist → ∃ a b, spec a o r b := by
  -- a ghost is a result that some step fixed, by `spec`
  let I (g : Option (Sigma Ret)) : Prop := ∀ x, g = some x → ∃ a b, spec a x.1 x.2 b
  refine h.sound (I := I) hsim (fun _ _ _ => .inl ⟨rfl, rfl⟩) (fun _ _ _ _ _ hq => hq.1)
    (by simp [I]) ?_ ?_ hcrash hinit
  · intro o s s' g g' hg hu x hx
    rcases hu with ⟨_, rfl⟩ | ⟨_, r, rfl, hs⟩
    · exact hg x hx
    · cases hx; exact ⟨_, _, hs⟩
  · intro o held g r s hg hq
    rcases hq.2 with hr | ⟨_, hs⟩
    · exact hg _ hr
    · exact ⟨_, _, hs⟩

omit [DecidableEq T] in
/-- A thread alone, from the moment it starts: it has taken effect, as `spec`
says, by the time it returns. -/
theorem Sim.runs_spec {o : Op} {sem : (c : C) → S → R c → S → Prop} {p : Prog L C R (Ret o)}
    {held : L → Nat} {g : Option (Sigma Ret)} {s t : S} {r : Ret o} {a₀ : A}
    (hsim : Sim rg sem (linUpd spec view o) (linPost spec view o) p held g s) (hinv : rg.inv s)
    (hg : (g = none ∧ view s = a₀) ∨ ∃ r', g = some ⟨o, r'⟩ ∧ spec a₀ o r' (view s))
    (hr : Prog.Runs sem p s r t) : rg.inv t ∧ spec a₀ o r (view t) := by
  have hmove : ∀ {s' g'}, linUpd spec view o s s' g g' →
      (g' = none ∧ view s' = a₀) ∨ ∃ r', g' = some ⟨o, r'⟩ ∧ spec a₀ o r' (view s') := by
    intro s' g' hu
    rcases hu with ⟨hv, rfl⟩ | ⟨hn, r', rfl, hs⟩
    · rw [hv]; exact hg
    · rcases hg with ⟨_, rfl⟩ | ⟨_, hsome, _⟩
      · exact .inr ⟨r', rfl, hs⟩
      · rw [hn] at hsome; cases hsome
  cases p with
  | ret a =>
    obtain ⟨rfl, rfl⟩ := hr
    obtain ⟨_, hq⟩ := hsim t (rg.rely_refl _ _) hinv
    refine ⟨hinv, ?_⟩
    rcases hq with rfl | ⟨rfl, hs⟩
    · rcases hg with ⟨hn, _⟩ | ⟨r', hr', hs⟩
      · cases hn
      · cases hr'; exact hs
    · rcases hg with ⟨_, rfl⟩ | ⟨_, hsome, _⟩
      · exact hs
      · cases hsome
  | lock l k => exact Sim.runs_spec (hsim s (rg.rely_refl _ _) hinv) hinv hg hr
  | unlock l k =>
    obtain ⟨g', hu, hk⟩ := hsim s (rg.rely_refl _ _) hinv
    exact Sim.runs_spec hk hinv (hmove hu) hr
  | call c k =>
    obtain ⟨x, s', hs, hr⟩ := hr
    obtain ⟨hi, _, g', hu, hk⟩ := hsim s (rg.rely_refl _ _) hinv x s' hs
    exact Sim.runs_spec hk hi (hmove hu) hr

omit [DecidableEq T] in
/-- The sequential meaning of a program that takes effect once. -/
theorem LinSim.runs {o : Op} {sem : (c : C) → S → R c → S → Prop} {p : Prog L C R (Ret o)}
    {s t : S} {r : Ret o} (hsim : LinSim rg sem spec view p) (hinv : rg.inv s)
    (hr : Prog.Runs sem p s r t) : rg.inv t ∧ spec (view s) o r (view t) :=
  Sim.runs_spec (hsim s hinv) hinv (.inl ⟨rfl, rfl⟩) hr

end Rule

end Lib
