import Mathlib.Algebra.BigOperators.Group.Finset.Basic
import Mathlib.Algebra.Order.BigOperators.Group.Finset
import Mathlib.Algebra.Order.Group.Multiset
import Mathlib.Data.Fintype.BigOperators
import Mathlib.Tactic.Abel
import NimbusFs.Lib.Pool

/-! # Handles

Some calls open a handle, some use one, some close it. A ledger beside the state notes
what is open, and whether a handle was ever used or closed that was not. Programs that
hold at most one handle at a time, use and close only that one, and return with none,
keep the ledger in order however their steps interleave: what is open is what the
running threads hold. -/
namespace Lib

/-- Which calls open, use and close a handle. -/
structure Handles (C : Type) (R : C → Type) (H : Type) where
  opens : (c : C) → R c → Option H
  uses : C → Option H
  closes : C → Option H

/-- What is open, each handle as often as it was opened; and whether one was used or
closed that was not open. -/
structure Ledger (H : Type) where
  opened : Multiset H
  misused : Bool

/-- Nothing is open. -/
def Ledger.empty {H : Type} : Ledger H := ⟨0, false⟩

section Ledger

variable {T L C H S Op α β : Type} {R : C → Type} {Ret : Op → Type} [DecidableEq H]

/-- The handle is named by a call, and is not open. -/
def Ledger.lacks (l : Ledger H) (h : Option H) : Bool :=
  match h with
  | some x => decide (x ∉ l.opened)
  | none => false

/-- The ledger after a call and its answer. -/
def Ledger.record (hs : Handles C R H) (l : Ledger H) (c : C) (r : R c) : Ledger H where
  opened :=
    (match hs.opens c r with | some x => {x} | none => 0) +
      match hs.closes c with | some x => l.opened.erase x | none => l.opened
  misused := l.misused || l.lacks (hs.uses c) || l.lacks (hs.closes c)

/-- The same threads, with a ledger beside the state. A process that crashes has
nothing open. -/
def System.tracked (sys : System L C R S Op Ret) (hs : Handles C R H) :
    System L C R (S × Ledger H) Op Ret where
  impl := sys.impl
  sem c x r y := sys.sem c x.1 r y.1 ∧ y.2 = x.2.record hs c r
  crash x y := sys.crash x.1 y.1 ∧ y.2 = ⟨0, x.2.misused⟩
  reentrant := sys.reentrant

/-- The ledger only looks on: every run is one of the tracked threads. -/
theorem Reachable.tracked [DecidableEq T] [DecidableEq L] {sys : System L C R S Op Ret}
    {c : Config T L C R S Op Ret} {s : S} (hs : Handles C R H) (h : Reachable sys s c) :
    ∃ l, Reachable (sys.tracked hs) (s, Ledger.empty) (c.over (c.state, l)) := by
  have hsem : ∀ a s (x : S × Ledger H) r u, s = x.1 → sys.sem a s r u →
      ∃ y, (sys.tracked hs).sem a x r y ∧ u = y.1 := by
    rintro a s x r u rfl hsem
    exact ⟨(u, x.2.record hs a r), ⟨hsem, rfl⟩, rfl⟩
  have hcrash : ∀ s (x : S × Ledger H) u, s = x.1 → sys.crash s u →
      ∃ y, (sys.tracked hs).crash x y ∧ u = y.1 := by
    rintro s x u rfl hcrash
    exact ⟨(u, ⟨0, x.2.misused⟩), ⟨hcrash, rfl⟩, rfl⟩
  have himpl : ∀ o p, sys.impl o p → (sys.tracked hs).impl o p := fun _ _ hp => hp
  have hstart : s = ((s, Ledger.empty) : S × Ledger H).1 := rfl
  obtain ⟨x, hx, hreach⟩ := h.simulate himpl hsem hcrash (fun hre => hre) hstart
  exact ⟨x.2, by rwa [hx]⟩

/-! ## Tidy programs -/

/-- What is held after a call and its answer. -/
def Handles.after (hs : Handles C R H) (h : Option H) (c : C) (r : R c) : Option H :=
  match hs.opens c r with
  | some x => some x
  | none => if hs.closes c = none then h else none

/-- Holding `h`, the program opens a handle only when it holds none, uses and closes
only the one it holds, and returns with none, whatever its calls answer. -/
def Tidy (hs : Handles C R H) : Option H → Prog L C R α → Prop
  | h, .ret _ => h = none
  | h, .lock _ k => Tidy hs h k
  | h, .unlock _ k => Tidy hs h k
  | h, .call c k => (∀ x, hs.uses c = some x → h = some x) ∧
      (∀ x, hs.closes c = some x → h = some x) ∧
      ∀ r, (∀ x, hs.opens c r = some x → h = none) ∧ Tidy hs (hs.after h c r) (k r)

omit [DecidableEq H] in
theorem Tidy.bind {hs : Handles C R H} {h : Option H} {p : Prog L C R α} {f : α → Prog L C R β}
    (hp : Tidy hs h p) (hf : ∀ a, Tidy hs none (f a)) : Tidy hs h (p >>= f) := by
  induction p generalizing h with
  | ret a =>
    obtain rfl : h = none := hp
    exact hf a
  | lock l k ih => exact ih hp
  | unlock l k ih => exact ih hp
  | call c k ih => exact ⟨hp.1, hp.2.1, fun r => ⟨(hp.2.2 r).1, ih r (hp.2.2 r).2⟩⟩

omit [DecidableEq H] in
theorem Tidy.guarded {hs : Handles C R H} {p : Prog L C R α} (hp : Tidy hs none p) (l : L) :
    Tidy hs none (Prog.guarded l p) :=
  show Tidy hs none (p >>= fun a => .unlock l (.ret a)) from hp.bind fun _ => rfl

/-! ## What is open -/

/-- A handle as a multiset. -/
def handle (h : Option H) : Multiset H :=
  match h with
  | some x => {x}
  | none => 0

/-- The ledger is in order: each thread holds what its program says, all that is open
is held by some thread, and nothing was misused. -/
structure Orderliness [Fintype T] (hs : Handles C R H) (c : Config T L C R (S × Ledger H) Op Ret)
    (hold : T → Option H) : Prop where
  running : ∀ t n o p, c.thread t = some ⟨n, o, p⟩ → Tidy hs (hold t) p
  idle : ∀ t, c.thread t = none → hold t = none
  opened : c.state.2.opened = ∑ t, handle (hold t)
  clean : c.state.2.misused = false

variable [Fintype T] [DecidableEq T] {hs : Handles C R H}

omit [DecidableEq H] in
/-- One thread holds something else. -/
theorem sum_handle_update (hold : T → Option H) (t : T) (h : Option H) :
    (∑ u, handle (Function.update hold t h u)) + handle (hold t) =
      (∑ u, handle (hold u)) + handle h := by
  have hsplit : ∀ g : T → Option H,
      ∑ u, handle (g u) = handle (g t) + ∑ u ∈ Finset.univ.erase t, handle (g u) :=
    fun g => (Finset.add_sum_erase Finset.univ (fun u => handle (g u)) (Finset.mem_univ t)).symm
  have hrest : ∑ u ∈ Finset.univ.erase t, handle (Function.update hold t h u) =
      ∑ u ∈ Finset.univ.erase t, handle (hold u) := by
    refine Finset.sum_congr rfl fun u hu => ?_
    rw [Function.update_of_ne (Finset.ne_of_mem_erase hu)]
  rw [hsplit, hsplit hold, hrest, Function.update_self]
  abel

omit [DecidableEq H] [DecidableEq T] in
theorem mem_sum_handle {hold : T → Option H} {t : T} {x : H} (h : hold t = some x) :
    x ∈ ∑ u, handle (hold u) := by
  refine Multiset.mem_sum.mpr ⟨t, Finset.mem_univ t, ?_⟩
  rw [h]
  exact Multiset.mem_singleton_self x

/-- The ledger after a call of a thread that holds `hold t`, in a tidy program. -/
theorem record_of_tidy {hold : T → Option H} {t : T} {l : Ledger H} {c : C} {r : R c}
    (hopened : l.opened = ∑ u, handle (hold u)) (hclean : l.misused = false)
    (huses : ∀ x, hs.uses c = some x → hold t = some x)
    (hcloses : ∀ x, hs.closes c = some x → hold t = some x)
    (hopens : ∀ x, hs.opens c r = some x → hold t = none) :
    (l.record hs c r).opened = ∑ u, handle (Function.update hold t (hs.after (hold t) c r) u) ∧
      (l.record hs c r).misused = false := by
  have hlacks : ∀ h : Option H, (∀ x, h = some x → hold t = some x) → l.lacks h = false := by
    intro h hh
    cases h with
    | none => rfl
    | some x =>
      have hmem : x ∈ l.opened := hopened ▸ mem_sum_handle (hh x rfl)
      simp [Ledger.lacks, hmem]
  have hsum := sum_handle_update hold t (hs.after (hold t) c r)
  refine ⟨?_, by simp [Ledger.record, hclean, hlacks _ huses, hlacks _ hcloses]⟩
  unfold Ledger.record Handles.after at *
  rw [hopened]
  cases ho : hs.opens c r with
  | some x =>
    have hnone := hopens x ho
    have hclose : hs.closes c = none := by
      cases hcl : hs.closes c with
      | none => rfl
      | some y => exact absurd (hnone.symm.trans (hcloses y hcl)) (by simp)
    simp only [ho, hclose, hnone, handle, add_zero] at hsum ⊢
    rw [hsum, add_comm]
  | none =>
    cases hcl : hs.closes c with
    | some y =>
      have hheld := hcloses y hcl
      simp only [ho, hcl, hheld, handle, reduceCtorEq, if_false, add_zero, zero_add] at hsum ⊢
      rw [← hsum, add_comm, Multiset.singleton_add, Multiset.erase_cons_head]
    | none =>
      simp only [if_true, Function.update_eq_self, zero_add]

/-- One step of a thread: it may hold something else, and the ledger says so. -/
theorem Orderliness.tstep [DecidableEq L] {sys : System L C R S Op Ret}
    {c c' : Config T L C R (S × Ledger H) Op Ret} {hold : T → Option H} {t : T}
    (hc : Orderliness hs c hold) (h : TStep (sys.tracked hs) t c c') :
    ∃ hold', Orderliness hs c' hold' := by
  -- the thread goes on with `k`, and holds the same
  have hsame : ∀ {n o k} {c' : Config T L C R (S × Ledger H) Op Ret},
      c'.thread = Function.update c.thread t (some ⟨n, o, k⟩) → c'.state = c.state →
      Tidy hs (hold t) k → Orderliness hs c' hold := by
    intro n o k c' hth hst hk
    refine ⟨fun u n' o' p' hu => ?_, fun u hu => ?_, hst ▸ hc.opened, hst ▸ hc.clean⟩
    · rw [hth] at hu
      by_cases hut : u = t
      · subst hut
        rw [Function.update_self] at hu
        cases hu
        exact hk
      · rw [Function.update_of_ne hut] at hu
        exact hc.running u n' o' p' hu
    · rw [hth] at hu
      by_cases hut : u = t
      · subst hut
        rw [Function.update_self] at hu
        cases hu
      · rw [Function.update_of_ne hut] at hu
        exact hc.idle u hu
  cases h with
  | @lock n o l k hth _ =>
    have hk : Tidy hs (hold t) k := hc.running t n o (.lock l k) hth
    exact ⟨hold, hsame rfl rfl hk⟩
  | @relock n o l k d hth _ _ =>
    have hk : Tidy hs (hold t) k := hc.running t n o (.lock l k) hth
    exact ⟨hold, hsame rfl rfl hk⟩
  | @unlock n o l k d hth _ =>
    have hk : Tidy hs (hold t) k := hc.running t n o (.unlock l k) hth
    exact ⟨hold, hsame rfl rfl hk⟩
  | @call n o a k r x hth hsem =>
    obtain ⟨huses, hcloses, hk⟩ := hc.running t _ _ _ hth
    obtain ⟨hopens, hnext⟩ := hk r
    obtain ⟨hopened, hclean⟩ := record_of_tidy hc.opened hc.clean huses hcloses hopens
    refine ⟨Function.update hold t (hs.after (hold t) a r), fun u n' o' p' hu => ?_,
      fun u hu => ?_, hsem.2 ▸ hopened, hsem.2 ▸ hclean⟩
    · by_cases hut : u = t
      · subst hut
        rw [show _ = some (Running.mk n o (k r)) from resume_self c u n o (k r)] at hu
        cases hu
        rw [Function.update_self]
        exact hnext
      · rw [show _ = c.thread u from resume_ne c n o (k r) hut] at hu
        rw [Function.update_of_ne hut]
        exact hc.running u n' o' p' hu
    · by_cases hut : u = t
      · subst hut
        rw [show _ = some (Running.mk n o (k r)) from resume_self c u n o (k r)] at hu
        cases hu
      · rw [show _ = c.thread u from resume_ne c n o (k r) hut] at hu
        rw [Function.update_of_ne hut]
        exact hc.idle u hu
  | @ret n o r hth =>
    have hnone : hold t = none := hc.running t _ _ _ hth
    refine ⟨hold, fun u n' o' p' hu => ?_, fun u hu => ?_, hc.opened, hc.clean⟩
    · by_cases hut : u = t
      · simp [hut] at hu
      · exact hc.running u n' o' p' (by simpa [hut] using hu)
    · by_cases hut : u = t
      · rw [hut, hnone]
      · exact hc.idle u (by simpa [hut] using hu)

theorem Reachable.orderliness [DecidableEq L] {sys : System L C R S Op Ret} {s : S}
    {c : Config T L C R (S × Ledger H) Op Ret}
    (himpl : ∀ o p, sys.impl o p → Tidy hs none p)
    (h : Reachable (sys.tracked hs) (s, Ledger.empty) c) : ∃ hold, Orderliness hs c hold := by
  have hzero : ∑ _t : T, handle (none : Option H) = 0 := Finset.sum_eq_zero fun _ _ => rfl
  induction h with
  | refl =>
    exact ⟨fun _ => none, fun _ _ _ _ hu => by simp [Config.init] at hu, fun _ _ => rfl,
      hzero.symm, rfl⟩
  | tail _ hstep ih =>
    obtain ⟨hold, hc⟩ := ih
    cases hstep with
    | @invoke t o p hidle hp =>
      refine ⟨hold, fun u n' o' p' hu => ?_, fun u hu => hc.idle u (start_idle hu), hc.opened,
        hc.clean⟩
      rw [start_thread] at hu
      by_cases hut : u = t
      · subst hut
        rw [Function.update_self] at hu
        cases hu
        rw [hc.idle u hidle]
        exact himpl o p hp
      · rw [Function.update_of_ne hut] at hu
        exact hc.running u n' o' p' hu
    | thread ht => exact hc.tstep ht
    | crash hcrash =>
      refine ⟨fun _ => none, fun _ _ _ _ hu => by simp at hu, fun _ _ => rfl, ?_, ?_⟩
      · rw [hzero]
        exact congrArg Ledger.opened hcrash.2
      · exact (congrArg Ledger.misused hcrash.2).trans hc.clean

/-- **No handle is leaked or misused.** Whatever the schedule and the answers: no
handle was used or closed that was not open, there are at most as many open handles
as running threads, and none when all have returned. -/
theorem Reachable.handles [DecidableEq L] {sys : System L C R S Op Ret} {s : S}
    {c : Config T L C R (S × Ledger H) Op Ret}
    (himpl : ∀ o p, sys.impl o p → Tidy hs none p)
    (h : Reachable (sys.tracked hs) (s, Ledger.empty) c) :
    c.state.2.misused = false ∧
      c.state.2.opened.card ≤ (Finset.univ.filter fun t => (c.thread t).isSome).card ∧
      ((∀ t, c.thread t = none) → c.state.2.opened = 0) := by
  obtain ⟨hold, hc⟩ := h.orderliness himpl
  refine ⟨hc.clean, ?_, fun hidle => ?_⟩
  · rw [hc.opened, Multiset.card_sum, Finset.card_filter]
    refine Finset.sum_le_sum fun t _ => ?_
    cases hth : c.thread t with
    | none =>
      rw [hc.idle t hth]
      exact Nat.le_refl 0
    | some x =>
      cases hold t with
      | none => exact Nat.zero_le _
      | some y => exact Nat.le_refl 1
  · rw [hc.opened]
    refine Finset.sum_eq_zero fun t _ => ?_
    rw [hc.idle t (hidle t)]
    rfl

end Ledger

end Lib
