import NimbusFs.Lib.MonitorProgress

/-! # `BoundedBlockingQueue`

A queue of fixed capacity between producers and consumers, with a mutex and two
condition variables. What is returned comes out in the order in which it was
accepted, whatever the threads, the timeouts and the wake-ups do; and nobody
sleeps through something that it waits for. -/
namespace NimbusFs.Common

open Lib

inductive QueueError
  | ShutDown
  | Timeout
deriving DecidableEq

structure BoundedBlockingQueue (α : Type) where
  capacity : Nat
  items : List α
  shutdown : Bool
deriving DecidableEq

/-- `not_full_` and `not_empty_`. -/
inductive QueueCondition
  | notFull
  | notEmpty
deriving DecidableEq

/-- The operations. A timeout is in milliseconds; when it is up is not modelled. -/
inductive QueueOp (α : Type)
  | push (item : α)
  | pop
  | tryPush (item : α) (timeout : Int)
  | tryPop (timeout : Int)
  | shutdown
  | sizeApprox

abbrev QueueOp.Ret {α : Type} : QueueOp α → Type
  | .push _ => Except QueueError Unit
  | .pop => Option α
  | .tryPush _ _ => Except QueueError Unit
  | .tryPop _ => Except QueueError (Option α)
  | .shutdown => Unit
  | .sizeApprox => Nat

namespace BoundedBlockingQueue

variable {α : Type}

/-- The constructor; an error is a `std::logic_error`. -/
def construct (capacity : Nat) : Except String (BoundedBlockingQueue α) :=
  if capacity = 0 then .error "BoundedBlockingQueue capacity cannot be zero"
  else .ok ⟨capacity, [], false⟩

/-- What producers wait for. -/
def canPush (q : BoundedBlockingQueue α) : Bool := q.shutdown || q.items.length < q.capacity

/-- What consumers wait for. -/
def canPop (q : BoundedBlockingQueue α) : Bool := q.shutdown || !q.items.isEmpty

/-- `Push` and `TryPush` after their wait. -/
def pushBody (q : BoundedBlockingQueue α) (item : α) :
    Except QueueError Unit × BoundedBlockingQueue α × List (Signal QueueCondition) :=
  if q.shutdown then (.error .ShutDown, q, [])
  else (.ok (), { q with items := q.items ++ [item] }, [.one .notEmpty])

/-- `Pop` and `TryPop` after their wait; `front()` is not called on an empty queue. -/
def popBody (q : BoundedBlockingQueue α) :
    Option α × BoundedBlockingQueue α × List (Signal QueueCondition) :=
  if q.shutdown && q.items.isEmpty then (none, q, [])
  else match q.items with
    | [] => (none, q, [])
    | item :: rest => (some item, { q with items := rest }, [.one .notFull])

/-- The queue as a monitor. -/
def monitor : Monitor (BoundedBlockingQueue α) (QueueOp α) QueueOp.Ret QueueCondition where
  waitsOn
    | .push _ | .tryPush _ _ => some .notFull
    | .pop | .tryPop _ => some .notEmpty
    | .shutdown | .sizeApprox => none
  guard
    | .push _, q | .tryPush _ _, q => q.canPush
    | .pop, q | .tryPop _, q => q.canPop
    | .shutdown, _ | .sizeApprox, _ => true
  body
    | .push item, q => q.pushBody item
    | .pop, q => q.popBody
    | .tryPush item _, q => q.pushBody item
    | .tryPop _, q => (.ok q.popBody.1, q.popBody.2)
    | .shutdown, q => ((), { q with shutdown := true }, [.all .notFull, .all .notEmpty])
    | .sizeApprox, q => (q.items.length, q, [])
  timedOut
    | .tryPush _ _ => some (.error .Timeout)
    | .tryPop _ => some (.error .Timeout)
    | .push _ | .pop | .shutdown | .sizeApprox => none

/-! ## What was accepted and what was handed out -/

/-- What returned so far, in the order of the mutex. -/
abbrev History (T α : Type) := List (T × Sigma fun o : QueueOp α => o.Ret)

/-- The item of a push that returned Ok. -/
def accepted : (o : QueueOp α) → o.Ret → Option α
  | .push item, .ok _ => some item
  | .tryPush item _, .ok _ => some item
  | _, _ => none

/-- The item that a pop returned. -/
def handedOut : (o : QueueOp α) → o.Ret → Option α
  | .pop, r => r
  | .tryPop _, .ok r => r
  | _, _ => none

/-- A pop reported the end of the queue. -/
def endOfQueue : (o : QueueOp α) → o.Ret → Bool
  | .pop, none => true
  | .tryPop _, .ok none => true
  | _, _ => false

def isShutdown : QueueOp α → Bool
  | .shutdown => true
  | _ => false

variable {T : Type}

def acceptedItems (h : History T α) : List α := h.filterMap fun x => accepted x.2.1 x.2.2

def returnedItems (h : History T α) : List α := h.filterMap fun x => handedOut x.2.1 x.2.2

/-- `Shutdown` has happened. -/
def ShutDown (h : History T α) : Prop := ∃ x ∈ h, isShutdown x.2.1 = true

/-- The queue and its history agree: it is not overfull; what was returned and
what is still there is what was accepted; no push returned Ok after a `Shutdown`;
the end was reported only after one, with everything handed out. -/
structure Faithful (q : BoundedBlockingQueue α) (h : History T α) : Prop where
  bounded : q.items.length ≤ q.capacity
  fifo : returnedItems h ++ q.items = acceptedItems h
  shutdown : q.shutdown = true ↔ ShutDown h
  refused : ∀ before x after, h = before ++ x :: after → accepted x.2.1 x.2.2 ≠ none →
    ¬ ShutDown before
  ended : ∀ before x after, h = before ++ x :: after → endOfQueue x.2.1 x.2.2 = true →
    ShutDown before ∧ returnedItems before = acceptedItems before

theorem shutDown_snoc {h : History T α} {x : T × Sigma fun o : QueueOp α => o.Ret} :
    ShutDown (h ++ [x]) ↔ ShutDown h ∨ isShutdown x.2.1 = true := by
  simp [ShutDown, or_and_right, exists_or]

/-- Where an element of a longer history is. -/
theorem snoc_eq_append_cons {β : Type} {l before after : List β} {x y : β}
    (h : l ++ [x] = before ++ y :: after) :
    (before = l ∧ y = x) ∨ ∃ after', l = before ++ y :: after' := by
  rcases List.eq_nil_or_concat after with rfl | ⟨after', z, rfl⟩
  · obtain ⟨hl, hx⟩ := List.append_inj' h rfl
    exact .inl ⟨hl.symm, (List.cons.inj hx).1.symm⟩
  · rw [List.concat_eq_append, ← List.cons_append, ← List.append_assoc] at h
    exact .inr ⟨after', (List.append_inj' h rfl).1⟩

/-- One more operation returns: what has to be checked of it alone. -/
theorem Faithful.snoc {q q' : BoundedBlockingQueue α} {h : History T α} (hf : Faithful q h)
    (x : T × Sigma fun o : QueueOp α => o.Ret) (hbounded : q'.items.length ≤ q'.capacity)
    (hfifo : (handedOut x.2.1 x.2.2).toList ++ q'.items =
      q.items ++ (accepted x.2.1 x.2.2).toList)
    (hshutdown : q'.shutdown = (q.shutdown || isShutdown x.2.1))
    (hrefused : accepted x.2.1 x.2.2 ≠ none → q.shutdown = false)
    (hended : endOfQueue x.2.1 x.2.2 = true → q.shutdown = true ∧ q.items = []) :
    Faithful q' (h ++ [x]) where
  bounded := hbounded
  fifo := by
    have hone : ∀ f : (T × Sigma fun o : QueueOp α => o.Ret) → Option α,
        [x].filterMap f = (f x).toList := by
      intro f
      cases hx : f x <;> simp [hx]
    rw [returnedItems, acceptedItems, List.filterMap_append, List.filterMap_append, hone, hone,
      List.append_assoc, hfifo, ← List.append_assoc]
    exact congrArg (· ++ _) hf.fifo
  shutdown := by
    rw [shutDown_snoc, ← hf.shutdown, hshutdown, Bool.or_eq_true]
  refused before y after heq hy := by
    rcases snoc_eq_append_cons heq with ⟨rfl, rfl⟩ | ⟨after', rfl⟩
    · rw [← hf.shutdown, hrefused hy]
      simp
    · exact hf.refused before y after' rfl hy
  ended before y after heq hy := by
    rcases snoc_eq_append_cons heq with ⟨rfl, rfl⟩ | ⟨after', rfl⟩
    · obtain ⟨hs, hitems⟩ := hended hy
      refine ⟨hf.shutdown.mp hs, ?_⟩
      have := hf.fifo
      rwa [hitems, List.append_nil] at this
    · exact hf.ended before y after' rfl hy

/-! ## The bodies -/

theorem pushBody_cases (q : BoundedBlockingQueue α) (item : α) :
    (q.shutdown = true ∧ q.pushBody item = (.error .ShutDown, q, [])) ∨
    (q.shutdown = false ∧ q.pushBody item =
      (.ok (), { q with items := q.items ++ [item] }, [.one .notEmpty])) := by
  unfold pushBody
  cases q.shutdown <;> simp

theorem popBody_cases {q : BoundedBlockingQueue α} (hg : q.canPop = true) :
    (q.shutdown = true ∧ q.items = [] ∧ q.popBody = (none, q, [])) ∨
    (∃ item rest, q.items = item :: rest ∧
      q.popBody = (some item, { q with items := rest }, [.one .notFull])) := by
  unfold popBody
  cases hitems : q.items with
  | nil =>
    have hs : q.shutdown = true := by simpa [canPop, hitems] using hg
    exact .inl ⟨hs, rfl, by simp [hs]⟩
  | cons item rest => exact .inr ⟨item, rest, rfl, by simp⟩

/-- A push that finds its guard true. -/
theorem Faithful.push {q : BoundedBlockingQueue α} {h : History T α} (hf : Faithful q h) {t : T}
    {o : QueueOp α} {r : o.Ret} {item : α} (hg : q.canPush = true)
    (hacc : accepted o r = match (q.pushBody item).1 with | .ok _ => some item | .error _ => none)
    (hout : handedOut o r = none) (hend : endOfQueue o r = false) (hshut : isShutdown o = false) :
    Faithful (q.pushBody item).2.1 (h ++ [(t, ⟨o, r⟩)]) := by
  rcases pushBody_cases q item with ⟨hs, hb⟩ | ⟨hs, hb⟩
  · rw [hb] at hacc ⊢
    exact hf.snoc _ hf.bounded (by simp [hacc, hout]) (by simp [hshut]) (fun hne => absurd hacc hne)
      (by simp [hend])
  · rw [hb] at hacc ⊢
    have hroom : q.items.length < q.capacity := by simpa [canPush, hs] using hg
    refine hf.snoc _ ?_ (by simp [hacc, hout]) (by simp [hshut]) (fun _ => hs) (by simp [hend])
    show (q.items ++ [item]).length ≤ q.capacity
    rw [List.length_append]
    exact hroom

/-- A pop that finds its guard true. -/
theorem Faithful.pop {q : BoundedBlockingQueue α} {h : History T α} (hf : Faithful q h) {t : T}
    {o : QueueOp α} {r : o.Ret} (hg : q.canPop = true) (hacc : accepted o r = none)
    (hout : handedOut o r = q.popBody.1) (hend : endOfQueue o r = q.popBody.1.isNone)
    (hshut : isShutdown o = false) :
    Faithful q.popBody.2.1 (h ++ [(t, ⟨o, r⟩)]) := by
  rcases popBody_cases hg with ⟨hs, hitems, hb⟩ | ⟨item, rest, hitems, hb⟩
  · rw [hb] at hout ⊢
    exact hf.snoc _ hf.bounded (by simp [hacc, hout]) (by simp [hshut]) (fun hne => absurd hacc hne)
      (fun _ => ⟨hs, hitems⟩)
  · rw [hb] at hout hend ⊢
    have hb := hf.bounded
    rw [hitems] at hb
    refine hf.snoc _ ?_ (by simp [hacc, hout, hitems]) (by simp [hshut])
      (fun hne => absurd hacc hne) (by simp [hend])
    exact Nat.le_of_succ_le hb

theorem capacity_pushBody (q : BoundedBlockingQueue α) (item : α) :
    (q.pushBody item).2.1.capacity = q.capacity := by
  rcases pushBody_cases q item with ⟨_, hb⟩ | ⟨_, hb⟩ <;> rw [hb]

theorem capacity_popBody {q : BoundedBlockingQueue α} (hg : q.canPop = true) :
    q.popBody.2.1.capacity = q.capacity := by
  rcases popBody_cases hg with ⟨_, _, hb⟩ | ⟨_, _, _, hb⟩ <;> rw [hb]

/-- What every body keeps. -/
theorem Faithful.body {q : BoundedBlockingQueue α} {h : History T α} (hf : Faithful q h) (t : T)
    (o : QueueOp α) (hg : monitor.guard o q = true) :
    (monitor.body o q).2.1.capacity = q.capacity ∧
      Faithful (monitor.body o q).2.1 (h ++ [(t, ⟨o, (monitor.body o q).1⟩)]) := by
  cases o with
  | push item =>
    refine ⟨capacity_pushBody q item, hf.push hg ?_ rfl rfl rfl⟩
    show accepted (.push item) (q.pushBody item).1 = _
    cases (q.pushBody item).1 <;> rfl
  | tryPush item timeout =>
    refine ⟨capacity_pushBody q item, hf.push hg ?_ rfl rfl rfl⟩
    show accepted (.tryPush item timeout) (q.pushBody item).1 = _
    cases (q.pushBody item).1 <;> rfl
  | pop =>
    refine ⟨capacity_popBody hg, hf.pop hg rfl rfl ?_ rfl⟩
    show endOfQueue .pop q.popBody.1 = _
    cases q.popBody.1 <;> rfl
  | tryPop timeout =>
    refine ⟨capacity_popBody hg, hf.pop hg rfl rfl ?_ rfl⟩
    show endOfQueue (.tryPop timeout) (.ok q.popBody.1) = _
    cases q.popBody.1 <;> rfl
  | shutdown =>
    refine ⟨rfl, hf.snoc _ hf.bounded (by simp [handedOut, accepted, monitor]) ?_ ?_ ?_⟩
    · exact (Bool.or_true _).symm
    · exact fun hne => absurd rfl hne
    · intro hend
      cases hend
  | sizeApprox =>
    refine ⟨rfl, hf.snoc _ hf.bounded (by simp [handedOut, accepted, monitor]) ?_ ?_ ?_⟩
    · exact (Bool.or_false _).symm
    · exact fun hne => absurd rfl hne
    · intro hend
      cases hend

/-- An operation whose time is up leaves no trace in the items. -/
theorem Faithful.timedOut {q : BoundedBlockingQueue α} {h : History T α} (hf : Faithful q h) (t : T)
    {o : QueueOp α} {r : o.Ret} (hr : monitor.timedOut o = some r) :
    Faithful q (h ++ [(t, ⟨o, r⟩)]) := by
  cases o with
  | tryPush item timeout =>
    cases hr
    exact hf.snoc _ hf.bounded (by simp [handedOut, accepted]) (by simp [isShutdown])
      (fun hne => absurd rfl hne) (fun hend => by cases hend)
  | tryPop timeout =>
    cases hr
    exact hf.snoc _ hf.bounded (by simp [handedOut, accepted]) (by simp [isShutdown])
      (fun hne => absurd rfl hne) (fun hend => by cases hend)
  | push item => cases hr
  | pop => cases hr
  | shutdown => cases hr
  | sizeApprox => cases hr

theorem construct_eq_ok {capacity : Nat} {q : BoundedBlockingQueue α}
    (h : construct capacity = .ok q) : 1 ≤ capacity ∧ q = ⟨capacity, [], false⟩ := by
  unfold construct at h
  split at h
  · cases h
  · rename_i hne
    cases h
    exact ⟨Nat.pos_of_ne_zero hne, rfl⟩

theorem faithful_new (capacity : Nat) :
    Faithful (⟨capacity, [], false⟩ : BoundedBlockingQueue α) ([] : History T α) where
  bounded := Nat.zero_le _
  fifo := rfl
  shutdown := by simp [ShutDown]
  refused before x after h := by simp at h
  ended before x after h := by simp at h

/-- In every state the queue and what was returned so far agree. -/
theorem reachable_faithful [DecidableEq T] {capacity : Nat} {q : BoundedBlockingQueue α}
    {s : MonitorState T (BoundedBlockingQueue α) (QueueOp α) QueueOp.Ret}
    (hq : construct capacity = .ok q) (h : MonitorReachable monitor q s) :
    s.shared.capacity = capacity ∧ Faithful s.shared s.hist := by
  obtain ⟨_, rfl⟩ := construct_eq_ok hq
  refine h.keeps (J := fun q h => q.capacity = capacity ∧ Faithful q h)
    ⟨rfl, faithful_new capacity⟩ ?_ ?_
  · intro t o q h hJ hg
    obtain ⟨hcap, hf⟩ := hJ.2.body t o hg
    exact ⟨hcap.trans hJ.1, hf⟩
  · intro t o r q h hJ _ hr
    exact ⟨hJ.1, hJ.2.timedOut t hr⟩

/-- **The queue is safe.** For every capacity that it can be made with, any
threads, timeouts and wake-ups, in every state: it holds at most its capacity;
what was returned so far, followed by what is still queued, is what was accepted,
in the order of the mutex; no push returned Ok after a `Shutdown`; and the end of
the queue was reported only after one, when all that was accepted had been
returned. -/
theorem queue_faithful [DecidableEq T] (capacity : Nat) (q : BoundedBlockingQueue α)
    (s : MonitorState T (BoundedBlockingQueue α) (QueueOp α) QueueOp.Ret)
    (hq : construct capacity = .ok q) (h : MonitorReachable monitor q s) :
    s.shared.items.length ≤ capacity ∧
    returnedItems s.hist ++ s.shared.items = acceptedItems s.hist ∧
    (∀ before x after, s.hist = before ++ x :: after → accepted x.2.1 x.2.2 ≠ none →
      ¬ ShutDown before) ∧
    (∀ before x after, s.hist = before ++ x :: after → endOfQueue x.2.1 x.2.2 = true →
      ShutDown before ∧ returnedItems before = acceptedItems before) := by
  obtain ⟨hcap, hf⟩ := reachable_faithful hq h
  exact ⟨hcap ▸ hf.bounded, hf.fifo, hf.refused, hf.ended⟩

/-- One thread pushes 7 into a queue of one, another one takes it. -/
theorem queue_faithful_push_pop :
    ∃ s : MonitorState Bool (BoundedBlockingQueue Nat) (QueueOp Nat) QueueOp.Ret,
      MonitorReachable monitor ⟨1, [], false⟩ s ∧
      s.hist = [(true, ⟨.push 7, .ok ()⟩), (false, ⟨.pop, some 7⟩)] ∧
      returnedItems s.hist ++ s.shared.items = acceptedItems s.hist := by
  let q₀ : BoundedBlockingQueue Nat := ⟨1, [], false⟩
  let q₁ : BoundedBlockingQueue Nat := ⟨1, [7], false⟩
  let idle : Bool → Phase (QueueOp Nat) := fun _ => .idle
  let f₁ := Function.update idle true (.entering (.push 7))
  let f₂ := Function.update f₁ true .idle
  let f₃ := Function.update f₂ false (.entering .pop)
  let f₄ := Function.update f₃ false .idle
  let s₂ : MonitorState Bool _ _ QueueOp.Ret := ⟨q₁, f₂, [(true, ⟨.push 7, .ok ()⟩)]⟩
  let s₄ : MonitorState Bool _ _ QueueOp.Ret :=
    ⟨q₀, f₄, [(true, ⟨.push 7, .ok ()⟩), (false, ⟨.pop, some 7⟩)]⟩
  have hnobody₂ : ∀ t, monitor.sleepsOn .notEmpty (f₂ t) = false := by decide
  have hnobody₄ : ∀ t, monitor.sleepsOn .notFull (f₄ t) = false := by decide
  have hsig₂ : Signalled monitor [.one .notEmpty] f₂ f₂ := ⟨f₂, .nobody hnobody₂, rfl⟩
  have hsig₄ : Signalled monitor [.one .notFull] f₄ f₄ := ⟨f₄, .nobody hnobody₄, rfl⟩
  have h₁ : MonitorStep monitor (MonitorState.init q₀) ⟨q₀, f₁, []⟩ := .call rfl
  have h₂ : MonitorStep monitor ⟨q₀, f₁, []⟩ s₂ :=
    .finish (t := true) (o := QueueOp.push 7) (.inl rfl) rfl hsig₂
  have h₃ : MonitorStep monitor s₂ { s₂ with phase := f₃ } := .call rfl
  have h₄ : MonitorStep monitor { s₂ with phase := f₃ } s₄ :=
    .finish (t := false) (o := QueueOp.pop) (.inl rfl) rfl hsig₄
  have hreach : MonitorReachable monitor q₀ s₄ :=
    Relation.ReflTransGen.refl.tail h₁ |>.tail h₂ |>.tail h₃ |>.tail h₄
  exact ⟨s₄, hreach, rfl, (queue_faithful 1 q₀ s₄ rfl hreach).2.1⟩

/-! ## Wake-ups -/

/-- What consumers can take, and what producers can fill. -/
def avail : QueueCondition → BoundedBlockingQueue α → Nat
  | .notEmpty, q => q.items.length
  | .notFull, q => q.capacity - q.items.length

theorem shutdown_pushBody (q : BoundedBlockingQueue α) (item : α) :
    (q.pushBody item).2.1.shutdown = q.shutdown := by
  rcases pushBody_cases q item with ⟨_, hb⟩ | ⟨_, hb⟩ <;> rw [hb]

theorem shutdown_popBody {q : BoundedBlockingQueue α} (hg : q.canPop = true) :
    q.popBody.2.1.shutdown = q.shutdown := by
  rcases popBody_cases hg with ⟨_, _, hb⟩ | ⟨_, _, _, hb⟩ <;> rw [hb]

/-- Only `Shutdown` shuts down. -/
theorem shutdown_body {q : BoundedBlockingQueue α} {o : QueueOp α} (hg : monitor.guard o q = true) :
    (monitor.body o q).2.1.shutdown = (q.shutdown || isShutdown o) := by
  cases o with
  | push item => exact (shutdown_pushBody q item).trans (Bool.or_false _).symm
  | tryPush item timeout => exact (shutdown_pushBody q item).trans (Bool.or_false _).symm
  | pop => exact (shutdown_popBody hg).trans (Bool.or_false _).symm
  | tryPop timeout => exact (shutdown_popBody hg).trans (Bool.or_false _).symm
  | shutdown => exact (Bool.or_true _).symm
  | sizeApprox => exact (Bool.or_false _).symm

theorem blocked_of_not_canPush {q : BoundedBlockingQueue α} (h : q.canPush = false) :
    ¬ q.shutdown = true ∧ avail .notFull q = 0 := by
  obtain ⟨hs, hroom⟩ : q.shutdown = false ∧ q.capacity ≤ q.items.length := by
    simpa [canPush] using h
  exact ⟨by simp [hs], Nat.sub_eq_zero_of_le hroom⟩

theorem blocked_of_not_canPop {q : BoundedBlockingQueue α} (h : q.canPop = false) :
    ¬ q.shutdown = true ∧ avail .notEmpty q = 0 := by
  obtain ⟨hs, hitems⟩ : q.shutdown = false ∧ q.items = [] := by simpa [canPop] using h
  exact ⟨by simp [hs], by simp [avail, hitems]⟩

/-- A push takes a free slot, and signals for the item. -/
theorem pushBody_supplies {q : BoundedBlockingQueue α} (item : α) (hg : q.canPush = true)
    (hopen : q.shutdown = false) (c : QueueCondition) :
    avail c (q.pushBody item).2.1 + (if some QueueCondition.notFull = some c then 1 else 0) ≤
      avail c q + (q.pushBody item).2.2.count (.one c) := by
  have hroom : q.items.length < q.capacity := by simpa [canPush, hopen] using hg
  rcases pushBody_cases q item with ⟨hs, _⟩ | ⟨_, hb⟩
  · rw [hopen] at hs
    cases hs
  · rw [hb]
    cases c with
    | notEmpty => simp [avail]
    | notFull =>
      simp only [avail, List.length_append, List.length_singleton, if_true]
      omega

/-- A pop takes an item, and signals for the free slot. -/
theorem popBody_supplies {q : BoundedBlockingQueue α} (hg : q.canPop = true)
    (hopen : q.shutdown = false) (c : QueueCondition) :
    avail c q.popBody.2.1 + (if some QueueCondition.notEmpty = some c then 1 else 0) ≤
      avail c q + q.popBody.2.2.count (.one c) := by
  rcases popBody_cases hg with ⟨hs, _⟩ | ⟨item, rest, hitems, hb⟩
  · rw [hopen] at hs
    cases hs
  · rw [hb]
    cases c with
    | notEmpty => simp [avail, hitems]
    | notFull =>
      simp only [avail, hitems, List.length_cons, List.count_singleton_self]
      simp only [Option.some.injEq, reduceCtorEq, if_false]
      omega

/-- The queue signals for all that it makes available. -/
theorem monitor_signals :
    (monitor : Monitor (BoundedBlockingQueue α) _ _ _).Signals avail
      fun q => q.shutdown = true where
  blocked o q c hg hw := by
    cases o with
    | push item => cases hw; exact blocked_of_not_canPush hg
    | tryPush item timeout => cases hw; exact blocked_of_not_canPush hg
    | pop => cases hw; exact blocked_of_not_canPop hg
    | tryPop timeout => cases hw; exact blocked_of_not_canPop hg
    | shutdown => cases hg
    | sizeApprox => cases hg
  stays o q hg hs := by
    rw [shutdown_body hg, hs]
    rfl
  closes o q hg hno hs c := by
    rw [shutdown_body hg, Bool.or_eq_true] at hs
    cases o with
    | shutdown => cases c <;> simp [monitor]
    | push item => exact absurd hs (by simpa [isShutdown] using hno)
    | tryPush item timeout => exact absurd hs (by simpa [isShutdown] using hno)
    | pop => exact absurd hs (by simpa [isShutdown] using hno)
    | tryPop timeout => exact absurd hs (by simpa [isShutdown] using hno)
    | sizeApprox => exact absurd hs (by simpa [isShutdown] using hno)
  supplies o q c hg hno := by
    rw [shutdown_body hg] at hno
    have hopen : q.shutdown = false :=
      Bool.eq_false_iff.mpr fun hs => hno (by rw [hs]; rfl)
    cases o with
    | push item => exact pushBody_supplies item hg hopen c
    | tryPush item timeout => exact pushBody_supplies item hg hopen c
    | pop => exact popBody_supplies hg hopen c
    | tryPop timeout => exact popBody_supplies hg hopen c
    | shutdown => exact absurd (Bool.or_true _) hno
    | sizeApprox => simp [monitor]

/-- A thread waits to take an item, a thread waits to leave one. -/
def IsConsumer : QueueOp α → Prop
  | .pop | .tryPop _ => True
  | _ => False

def IsProducer : QueueOp α → Prop
  | .push _ | .tryPush _ _ => True
  | _ => False

theorem sleepsOn_iff {c : QueueCondition} {p : Phase (QueueOp α)} :
    monitor.sleepsOn c p = true ↔ ∃ o, p = .asleep o ∧ monitor.waitsOn o = some c := by
  cases p <;> simp [Monitor.sleepsOn]

theorem wokenFor_iff {c : QueueCondition} {p : Phase (QueueOp α)} :
    monitor.wokenFor c p = true ↔ ∃ o, p = .awake o ∧ monitor.waitsOn o = some c := by
  cases p <;> simp [Monitor.wokenFor]

theorem waitsOn_notEmpty {o : QueueOp α} : monitor.waitsOn o = some .notEmpty ↔ IsConsumer o := by
  cases o <;> simp [monitor, IsConsumer]

theorem waitsOn_notFull {o : QueueOp α} : monitor.waitsOn o = some .notFull ↔ IsProducer o := by
  cases o <;> simp [monitor, IsProducer]

/-- A thread that could go on has something to find. -/
theorem avail_of_guard {o : QueueOp α} {q : BoundedBlockingQueue α} {c : QueueCondition}
    (hw : monitor.waitsOn o = some c) (hg : monitor.guard o q = true) :
    q.shutdown = true ∨ 0 < avail c q := by
  have hpush : q.canPush = true → q.shutdown = true ∨ 0 < avail .notFull q := by
    intro h
    simpa [canPush, avail, Nat.sub_pos_iff_lt] using h
  have hpop : q.canPop = true → q.shutdown = true ∨ 0 < avail .notEmpty q := by
    intro h
    simpa [canPop, avail, List.length_pos_iff] using h
  cases o with
  | push item => cases hw; exact hpush hg
  | tryPush item timeout => cases hw; exact hpush hg
  | pop => cases hw; exact hpop hg
  | tryPop timeout => cases hw; exact hpop hg
  | shutdown => cases hw
  | sizeApprox => cases hw

/-- If one of the threads that wait for a condition sleeps, and has something to
find, another of them is awake. -/
theorem exists_awake [DecidableEq T] [Fintype T] {q : BoundedBlockingQueue α}
    {s : MonitorState T (BoundedBlockingQueue α) (QueueOp α) QueueOp.Ret}
    (h : MonitorReachable monitor q s) {c : QueueCondition} {P : QueueOp α → Prop}
    (hP : ∀ {o}, monitor.waitsOn o = some c ↔ P o) (hsleep : ∃ t o, s.phase t = .asleep o ∧ P o)
    (hfind : s.shared.shutdown = true ∨ 0 < avail c s.shared) :
    ∃ t o, s.phase t = .awake o ∧ P o := by
  obtain ⟨t, o, ht, ho⟩ := hsleep
  have hsleeps := sleepsOn_iff.mpr ⟨o, ht, hP.mpr ho⟩
  obtain ⟨u, hu⟩ := h.no_lost_wakeup monitor_signals hsleeps hfind
  obtain ⟨o', hu, ho'⟩ := wokenFor_iff.mp hu
  exact ⟨u, o', hu, hP.mp ho'⟩

/-- **The queue loses no wake-up.** In every state: if a consumer sleeps and the
queue is shut down or not empty, a consumer is awake that has not looked yet; if a
producer sleeps and the queue is shut down or not full, a producer is. So it never
happens that all threads inside are asleep while one of them could go on. -/
theorem queue_no_lost_wakeup [DecidableEq T] [Fintype T] (capacity : Nat)
    (q : BoundedBlockingQueue α)
    (s : MonitorState T (BoundedBlockingQueue α) (QueueOp α) QueueOp.Ret)
    (hq : construct capacity = .ok q) (h : MonitorReachable monitor q s) :
    ((∃ t o, s.phase t = .asleep o ∧ IsConsumer o) →
      (s.shared.shutdown = true ∨ s.shared.items ≠ []) →
      ∃ t o, s.phase t = .awake o ∧ IsConsumer o) ∧
    ((∃ t o, s.phase t = .asleep o ∧ IsProducer o) →
      (s.shared.shutdown = true ∨ s.shared.items.length < capacity) →
      ∃ t o, s.phase t = .awake o ∧ IsProducer o) ∧
    ¬ ((∀ t, s.phase t = .idle ∨ ∃ o, s.phase t = .asleep o) ∧
      ∃ t o, s.phase t = .asleep o ∧ monitor.guard o s.shared = true) := by
  obtain ⟨hcap, _⟩ := reachable_faithful hq h
  refine ⟨fun hsleep hfind => ?_, fun hsleep hfind => ?_, fun hstuck => ?_⟩
  · exact exists_awake h waitsOn_notEmpty hsleep (hfind.imp_right List.length_pos_iff.mpr)
  · have hroom : s.shared.items.length < capacity → 0 < avail .notFull s.shared :=
      fun hlt => Nat.sub_pos_of_lt (hcap ▸ hlt)
    exact exists_awake h waitsOn_notFull hsleep (hfind.imp_right hroom)
  · obtain ⟨hall, t, o, ht, hg⟩ := hstuck
    obtain ⟨c, hw⟩ := h.waits ht
    obtain ⟨u, o', hu, _⟩ := exists_awake h Iff.rfl ⟨t, o, ht, hw⟩ (avail_of_guard hw hg)
    -- but nobody is awake
    rcases hall u with hidle | ⟨o'', hsleep⟩
    · rw [hu] at hidle; cases hidle
    · rw [hu] at hsleep; cases hsleep

/-- Two consumers sleep, a push wakes one of them. -/
theorem queue_no_lost_wakeup_two_consumers :
    ∃ s : MonitorState (Fin 3) (BoundedBlockingQueue Nat) (QueueOp Nat) QueueOp.Ret,
      MonitorReachable monitor ⟨1, [], false⟩ s ∧ s.phase 1 = .asleep .pop ∧
      s.shared.items = [7] ∧ ∃ t o, s.phase t = .awake o ∧ IsConsumer o := by
  let q₀ : BoundedBlockingQueue Nat := ⟨1, [], false⟩
  let q₁ : BoundedBlockingQueue Nat := ⟨1, [7], false⟩
  let f₀ : Fin 3 → Phase (QueueOp Nat) := fun _ => .idle
  let f₁ := Function.update f₀ 0 (.entering .pop)
  let f₂ := Function.update f₁ 0 (.asleep .pop)
  let f₃ := Function.update f₂ 1 (.entering .pop)
  let f₄ := Function.update f₃ 1 (.asleep .pop)
  let f₅ := Function.update f₄ 2 (.entering (.push 7))
  let f₆ := Function.update f₅ 2 .idle
  let f₇ := Function.update f₆ 0 (.awake .pop)
  let s₇ : MonitorState (Fin 3) _ _ QueueOp.Ret := ⟨q₁, f₇, [(2, ⟨.push 7, .ok ()⟩)]⟩
  have h₁ : MonitorStep monitor (MonitorState.init q₀) ⟨q₀, f₁, []⟩ := .call rfl
  have h₂ : MonitorStep monitor ⟨q₀, f₁, []⟩ ⟨q₀, f₂, []⟩ :=
    .sleep (t := 0) (.inl rfl) rfl (c := .notEmpty) rfl
  have h₃ : MonitorStep monitor ⟨q₀, f₂, []⟩ ⟨q₀, f₃, []⟩ := .call rfl
  have h₄ : MonitorStep monitor ⟨q₀, f₃, []⟩ ⟨q₀, f₄, []⟩ :=
    .sleep (t := 1) (.inl rfl) rfl (c := .notEmpty) rfl
  have h₅ : MonitorStep monitor ⟨q₀, f₄, []⟩ ⟨q₀, f₅, []⟩ := .call rfl
  have hwake : NotifyOne monitor .notEmpty f₆ f₇ := .wake (t := 0) rfl rfl
  have hsig : Signalled monitor [.one .notEmpty] f₆ f₇ := ⟨f₇, hwake, rfl⟩
  have h₆ : MonitorStep monitor ⟨q₀, f₅, []⟩ s₇ :=
    .finish (t := 2) (o := QueueOp.push 7) (.inl rfl) rfl hsig
  have hreach : MonitorReachable monitor q₀ s₇ :=
    Relation.ReflTransGen.refl.tail h₁ |>.tail h₂ |>.tail h₃ |>.tail h₄ |>.tail h₅ |>.tail h₆
  refine ⟨s₇, hreach, rfl, rfl, ?_⟩
  exact (queue_no_lost_wakeup 1 q₀ s₇ rfl hreach).1 ⟨1, .pop, rfl, trivial⟩ (.inr (by simp [s₇, q₁]))

/-! ## Coming to rest -/

/-- A shut down queue stays so. -/
theorem shutdown_stays [DecidableEq T]
    {s s' : MonitorState T (BoundedBlockingQueue α) (QueueOp α) QueueOp.Ret}
    (h : Relation.ReflTransGen (Advances monitor) s s') (hs : s.shared.shutdown = true) :
    s'.shared.shutdown = true := by
  induction h with
  | refl => exact hs
  | tail _ hstep ih =>
    cases hstep with
    | sleep _ _ _ => exact ih
    | finish _ hg _ => exact (shutdown_body hg).trans (by rw [ih]; rfl)
    | timeout _ _ _ => exact ih

/-- A sleeper whose guard is false, in a queue that keeps to its capacity. -/
theorem blocked_cases {q : BoundedBlockingQueue α} {o : QueueOp α}
    (hbounded : q.items.length ≤ q.capacity) (hg : monitor.guard o q = false) :
    (IsConsumer o ∧ q.items = []) ∨ (IsProducer o ∧ q.items.length = q.capacity) := by
  have hpush : q.canPush = false → q.items.length = q.capacity := by
    intro h
    obtain ⟨_, hroom⟩ : q.shutdown = false ∧ q.capacity ≤ q.items.length := by
      simpa [canPush] using h
    exact Nat.le_antisymm hbounded hroom
  have hpop : q.canPop = false → q.items = [] := by
    intro h
    obtain ⟨_, hitems⟩ : q.shutdown = false ∧ q.items = [] := by simpa [canPop] using h
    exact hitems
  cases o with
  | push item => exact .inr ⟨trivial, hpush hg⟩
  | tryPush item timeout => exact .inr ⟨trivial, hpush hg⟩
  | pop => exact .inl ⟨trivial, hpop hg⟩
  | tryPop timeout => exact .inl ⟨trivial, hpop hg⟩
  | shutdown => cases hg
  | sizeApprox => cases hg

/-- **The queue comes to rest, and rests for a reason.** From every state, when no
operation is called, and nobody wakes for no reason or because a timeout has run out, `n`
threads take at most `n * (n + 2)` steps, whatever their order. Where they rest, all
operations have returned, or the queue is open and empty and only consumers wait, or it is
open and full and only producers do. After a `Shutdown` all have returned. -/
theorem queue_settles [DecidableEq T] [Fintype T] (capacity : Nat) (q : BoundedBlockingQueue α)
    (s : MonitorState T (BoundedBlockingQueue α) (QueueOp α) QueueOp.Ret)
    (hq : construct capacity = .ok q) (h : MonitorReachable monitor q s) :
    (∀ (f : Nat → MonitorState T (BoundedBlockingQueue α) (QueueOp α) QueueOp.Ret) n, f 0 = s →
      (∀ i, i < n → Advances monitor (f i) (f (i + 1))) →
      n ≤ Fintype.card T * (Fintype.card T + 2)) ∧
    ∀ s', Relation.ReflTransGen (Advances monitor) s s' → (∀ s'', ¬ Advances monitor s' s'') →
      ((∀ t, s'.phase t = .idle) ∨
        (s'.shared.shutdown = false ∧ s'.shared.items = [] ∧
          ∀ t, s'.phase t = .idle ∨ ∃ o, s'.phase t = .asleep o ∧ IsConsumer o) ∨
        (s'.shared.shutdown = false ∧ s'.shared.items.length = capacity ∧
          ∀ t, s'.phase t = .idle ∨ ∃ o, s'.phase t = .asleep o ∧ IsProducer o)) ∧
      (s.shared.shutdown = true → ∀ t, s'.phase t = .idle) := by
  refine ⟨fun f n hf hsteps => ?_, fun s' hs' hrest => ?_⟩
  · have hle := advances_le_unrest hsteps
    have hbound := unrest_le (f 0).phase
    omega
  · have hreach := h.advances hs'
    obtain ⟨hcap, hfaithful⟩ := reachable_faithful hq hreach
    have hwait : ∀ (o : QueueOp α) q, monitor.guard o q = false → ∃ c, monitor.waitsOn o = some c := by
      intro o q hg
      cases o with
      | shutdown => cases hg
      | sizeApprox => cases hg
      | _ => exact ⟨_, rfl⟩
    have hphase := hreach.at_rest monitor_signals hwait (fun o q c hw hg => avail_of_guard hw hg) hrest
    have hpositive : 1 ≤ capacity := (construct_eq_ok hq).1
    refine ⟨?_, fun hshut t => ?_⟩
    · by_cases hidle : ∀ t, s'.phase t = .idle
      · exact .inl hidle
      · push Not at hidle
        obtain ⟨t, ht⟩ := hidle
        obtain ⟨o, ho, hg, hopen⟩ := (hphase t).resolve_left ht
        have hopen : s'.shared.shutdown = false := Bool.eq_false_iff.mpr hopen
        -- one sleeper tells whether the queue is empty or full, and the others agree
        rcases blocked_cases hfaithful.bounded hg with ⟨_, hitems⟩ | ⟨_, hfull⟩
        · refine .inr (.inl ⟨hopen, hitems, fun u => (hphase u).imp_right fun hu => ?_⟩)
          obtain ⟨o', ho', hg', _⟩ := hu
          rcases blocked_cases hfaithful.bounded hg' with ⟨hc, _⟩ | ⟨_, hfull⟩
          · exact ⟨o', ho', hc⟩
          · rw [hitems, hcap] at hfull
            exact absurd hfull.symm (Nat.pos_iff_ne_zero.mp hpositive)
        · refine .inr (.inr ⟨hopen, hfull.trans hcap, fun u => (hphase u).imp_right fun hu => ?_⟩)
          obtain ⟨o', ho', hg', _⟩ := hu
          rcases blocked_cases hfaithful.bounded hg' with ⟨_, hitems⟩ | ⟨hp, _⟩
          · rw [hitems, hcap] at hfull
            exact absurd hfull.symm (Nat.pos_iff_ne_zero.mp hpositive)
          · exact ⟨o', ho', hp⟩
    · rcases hphase t with hidle | ⟨o, _, _, hopen⟩
      · exact hidle
      · exact absurd (shutdown_stays hs' hshut) hopen

/-- A producer and a consumer have called; they rest after eight steps at most. -/
theorem queue_settles_pair :
    ∃ s : MonitorState Bool (BoundedBlockingQueue Nat) (QueueOp Nat) QueueOp.Ret,
      MonitorReachable monitor ⟨1, [], false⟩ s ∧ s.phase true = .entering (.push 7) ∧
      s.phase false = .entering .pop ∧
      ∀ (f : Nat → MonitorState Bool (BoundedBlockingQueue Nat) (QueueOp Nat) QueueOp.Ret) n,
        f 0 = s → (∀ i, i < n → Advances monitor (f i) (f (i + 1))) → n ≤ 8 := by
  let q₀ : BoundedBlockingQueue Nat := ⟨1, [], false⟩
  let f₀ : Bool → Phase (QueueOp Nat) := fun _ => .idle
  let f₁ := Function.update f₀ true (.entering (.push 7))
  let f₂ := Function.update f₁ false (.entering .pop)
  have h₁ : MonitorStep monitor (MonitorState.init q₀ : MonitorState Bool _ _ QueueOp.Ret)
      ⟨q₀, f₁, []⟩ := .call rfl
  have h₂ : MonitorStep monitor (⟨q₀, f₁, []⟩ : MonitorState Bool _ _ QueueOp.Ret) ⟨q₀, f₂, []⟩ :=
    .call rfl
  have hreach : MonitorReachable monitor q₀ ⟨q₀, f₂, []⟩ :=
    Relation.ReflTransGen.refl.tail h₁ |>.tail h₂
  refine ⟨⟨q₀, f₂, []⟩, hreach, rfl, rfl, fun f n hf hsteps => ?_⟩
  simpa using (queue_settles 1 q₀ _ rfl hreach).1 f n hf hsteps

end BoundedBlockingQueue

end NimbusFs.Common
