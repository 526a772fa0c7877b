import NimbusFs.Common.Sha256
import NimbusFs.Lib.Ownership

/-! # Objects of class `Sha256`

A `Sha256` hashes data that comes in parts. It owns an OpenSSL context through a
pointer that can be moved from one object to another, and it must not touch a context
that was finished or freed. The model has any number of variables for such objects and
a heap of contexts. In every program over them each context has one owner, is freed
when its owner goes away, and is used as OpenSSL wants it; a digest is the hash of all
the parts that went in, however the data was cut and through whichever variables it
went. What is left to the programmer is not to use an object that was moved from.
OpenSSL is a parameter, with what it documents of its digests as the hypotheses. -/
namespace NimbusFs.Common.Sha256

open Lib

/-! ## OpenSSL and the objects -/

/-- OpenSSL, as the class calls it. `Ctx` is what it keeps in an `EVP_MD_CTX`, and `Env` is
all that decides whether a call fails. What returns 1 in C returns `true` here. -/
structure OpenSsl (Env Ctx : Type) where
  mdCtxNew : Env → Bool
  digestInit : Env → Bool × Ctx
  digestUpdate : Env → Ctx → Bytes → Bool × Ctx
  digestFinal : Env → Ctx → Bool × Digest

/-- What is documented of it: a context for which no call failed has absorbed what it was
updated with, one part after the other, and is finalized to the hash of that. -/
structure OpenSsl.Documented {Env Ctx : Type} (ssl : OpenSsl Env Ctx) (sha256 : Bytes → Digest)
    (Absorbed : Ctx → Bytes → Prop) : Prop where
  init : ∀ e c, ssl.digestInit e = (true, c) → Absorbed c []
  update : ∀ e c c' absorbed data, Absorbed c absorbed → ssl.digestUpdate e c data = (true, c') →
    Absorbed c' (absorbed ++ data)
  final : ∀ e c absorbed d, Absorbed c absorbed → ssl.digestFinal e c = (true, d) →
    d = sha256 absorbed

/-- None of its calls fails. -/
structure OpenSsl.Works {Env Ctx : Type} (ssl : OpenSsl Env Ctx) (e : Env) : Prop where
  mdCtxNew : ssl.mdCtxNew e = true
  digestInit : (ssl.digestInit e).1 = true
  digestUpdate : ∀ c data, (ssl.digestUpdate e c data).1 = true
  digestFinal : ∀ c, (ssl.digestFinal e c).1 = true

/-- An `EVP_MD_CTX` that was initialized. Once it is finished it must not be used again. -/
inductive EvpMdCtx (Ctx : Type)
  | initialized (c : Ctx)
  | finished
deriving DecidableEq

/-- A `Sha256`: the context behind `impl_`, if it was not moved away, and `finalized_`. -/
structure Hasher where
  impl : Option Nat
  finalized : Bool
deriving DecidableEq

/-- The objects that are alive, and the contexts on the heap by their addresses. -/
structure World (V Ctx : Type) where
  object : V → Option Hasher
  heap : Nat → Option (EvpMdCtx Ctx)
  next : Nat

/-- What a step returns or throws. `undefined` stands for undefined behaviour: a null
`impl_` is followed, or OpenSSL is handed a context that is freed or finished. -/
inductive Outcome
  | ok
  | digest (d : Digest)
  | logicError (what : String)
  | runtimeError (what : String)
  | undefined
deriving DecidableEq

section Methods

variable {V Env Ctx : Type} [DecidableEq V] (ssl : OpenSsl Env Ctx) (e : Env) (w : World V Ctx)

def World.setObject (v : V) (o : Option Hasher) : World V Ctx :=
  { w with object := Function.update w.object v o }

def World.setCtx (ctx : Nat) (c : Option (EvpMdCtx Ctx)) : World V Ctx :=
  { w with heap := Function.update w.heap ctx c }

/-- The constructor; a context that cannot be initialized is freed again. -/
def construct (v : V) : Outcome × World V Ctx :=
  if !ssl.mdCtxNew e then (.runtimeError "Failed to create EVP_MD_CTX", w)
  else
    match ssl.digestInit e with
    | (false, _) => (.runtimeError "Failed to init SHA256", { w with next := w.next + 1 })
    | (true, c) =>
      (.ok, { (w.setObject v (some ⟨some w.next, false⟩)).setCtx w.next (some (.initialized c)) with
        next := w.next + 1 })

/-- `EVP_DigestUpdate`. -/
def evpDigestUpdate (ctx : Nat) (data : Bytes) : Outcome × World V Ctx :=
  match w.heap ctx with
  | some (.initialized c) =>
    let reply := ssl.digestUpdate e c data
    (if reply.1 then .ok else .runtimeError "Failed to update SHA256",
      w.setCtx ctx (some (.initialized reply.2)))
  | _ => (.undefined, w)

def update (v : V) (data : Bytes) : Outcome × World V Ctx :=
  match w.object v with
  | none => (.undefined, w)
  | some h =>
    if h.finalized then (.logicError "Called Update after Finalize", w)
    else if data.isEmpty then (.ok, w)
    else
      match h.impl with
      | none => (.undefined, w)
      | some ctx => evpDigestUpdate ssl e w ctx data

/-- `EVP_DigestFinal_ex`. -/
def evpDigestFinal (ctx : Nat) : Outcome × World V Ctx :=
  match w.heap ctx with
  | some (.initialized c) =>
    let reply := ssl.digestFinal e c
    (if reply.1 then .digest reply.2 else .runtimeError "Failed to finalize SHA256",
      w.setCtx ctx (some .finished))
  | _ => (.undefined, w)

def finalize (v : V) : Outcome × World V Ctx :=
  match w.object v with
  | none => (.undefined, w)
  | some h =>
    if h.finalized then (.logicError "Called Finalize twice", w)
    else
      let w := w.setObject v (some { h with finalized := true })
      match h.impl with
      | none => (.undefined, w)
      | some ctx => evpDigestFinal ssl e w ctx

/-- What a `std::unique_ptr` does with the context that it owns: `EVP_MD_CTX_free`. -/
def World.free (impl : Option Nat) : World V Ctx :=
  match impl with
  | none => w
  | some ctx => w.setCtx ctx none

/-- The destructor. -/
def destroy (v : V) : Outcome × World V Ctx :=
  match w.object v with
  | none => (.undefined, w)
  | some h => (.ok, (w.setObject v none).free h.impl)

/-- The move constructor: the pointer moves, the flag is copied. -/
def moveConstruct (dst src : V) : Outcome × World V Ctx :=
  match w.object src with
  | none => (.undefined, w)
  | some h => (.ok, (w.setObject src (some { h with impl := none })).setObject dst (some h))

/-- The move assignment: what `dst` owned is freed. A move to itself changes nothing. -/
def moveAssign (dst src : V) : Outcome × World V Ctx :=
  match w.object dst with
  | none => (.undefined, w)
  | some old =>
    if dst = src then (.ok, w)
    else moveConstruct ((w.setObject dst none).free old.impl) dst src

/-- `HashBytes` with its local object in `hasher`, which is destroyed on every way out. -/
def hashBytes (envs : Fin 3 → Env) (hasher : V) (data : Bytes) : Outcome × World V Ctx :=
  match construct ssl (envs 0) w hasher with
  | (.ok, w) =>
    match update ssl (envs 1) w hasher data with
    | (.ok, w) =>
      match finalize ssl (envs 2) w hasher with
      | (o, w) => (o, (destroy w hasher).2)
    | (o, w) => (o, (destroy w hasher).2)
  | (o, w) => (o, w)

end Methods

/-! ## Programs -/

/-- The steps of a program over variables `V`. -/
inductive Action (V : Type)
  | construct (v : V)
  | update (v : V) (data : Bytes)
  | finalize (v : V)
  | moveConstruct (dst src : V)
  | moveAssign (dst src : V)
  | destroy (v : V)

section Programs

variable {V Env Ctx : Type} [DecidableEq V]

def perform (ssl : OpenSsl Env Ctx) (e : Env) (w : World V Ctx) : Action V → Outcome × World V Ctx
  | .construct v => construct ssl e w v
  | .update v data => update ssl e w v data
  | .finalize v => finalize ssl e w v
  | .moveConstruct dst src => moveConstruct w dst src
  | .moveAssign dst src => moveAssign w dst src
  | .destroy v => destroy w v

/-- Only an object that is alive is used, and only one that is not is constructed. -/
def Action.InScope (w : World V Ctx) : Action V → Prop
  | .construct v => w.object v = none
  | .update v _ | .finalize v | .destroy v => w.object v ≠ none
  | .moveConstruct dst src => w.object dst = none ∧ w.object src ≠ none
  | .moveAssign dst src => w.object dst ≠ none ∧ w.object src ≠ none

/-- The step hashes with an object whose context was moved away. -/
def Action.UsesMovedFrom (w : World V Ctx) : Action V → Prop
  | .update v data => data ≠ [] ∧ w.object v = some ⟨none, false⟩
  | .finalize v => w.object v = some ⟨none, false⟩
  | _ => False

instance (w : World V Ctx) : (a : Action V) → Decidable (a.InScope w)
  | .construct v => inferInstanceAs (Decidable (w.object v = none))
  | .update v _ => inferInstanceAs (Decidable (w.object v ≠ none))
  | .finalize v => inferInstanceAs (Decidable (w.object v ≠ none))
  | .destroy v => inferInstanceAs (Decidable (w.object v ≠ none))
  | .moveConstruct dst src => inferInstanceAs (Decidable (w.object dst = none ∧ w.object src ≠ none))
  | .moveAssign dst src => inferInstanceAs (Decidable (w.object dst ≠ none ∧ w.object src ≠ none))

instance (w : World V Ctx) : (a : Action V) → Decidable (a.UsesMovedFrom w)
  | .update v data => inferInstanceAs (Decidable (data ≠ [] ∧ w.object v = some ⟨none, false⟩))
  | .finalize v => inferInstanceAs (Decidable (w.object v = some ⟨none, false⟩))
  | .construct _ | .destroy _ | .moveConstruct .. | .moveAssign .. => inferInstanceAs (Decidable False)

/-- What went into each object so far, if that is known and it can still be asked. -/
abbrev Fed (V : Type) := V → Option Bytes

/-- What a step does to it: an object that a call failed for, that was finalized, moved
from or destroyed has nothing to be asked for. -/
def feed (f : Fed V) : Action V → Outcome → Fed V
  | .construct v, .ok => Function.update f v (some [])
  | .update v data, .ok => Function.update f v ((f v).map (· ++ data))
  | .update v _, .runtimeError _ => Function.update f v none
  | .finalize v, .digest _ => Function.update f v none
  | .finalize v, .runtimeError _ => Function.update f v none
  | .moveConstruct dst src, _ => Function.update (Function.update f src none) dst (f src)
  | .moveAssign dst src, _ =>
    if dst = src then f else Function.update (Function.update f src none) dst (f src)
  | .destroy v, _ => Function.update f v none
  | _, _ => f

/-- What went into the objects along a program. -/
def fed (trace : List (Action V × Outcome)) : Fed V :=
  trace.foldl (fun f x => feed f x.1 x.2) fun _ => none

/-- Programs that begin without objects and do not hash with an object that was moved
from; calls of OpenSSL fail or not. -/
inductive Runs (ssl : OpenSsl Env Ctx) : List (Action V × Outcome) → World V Ctx → Prop
  | nil : Runs ssl [] ⟨fun _ => none, fun _ => none, 0⟩
  | snoc {trace w a e o w'} : Runs ssl trace w → a.InScope w → ¬ a.UsesMovedFrom w →
      perform ssl e w a = (o, w') → Runs ssl (trace ++ [(a, o)]) w'

end Programs

/-! ## One owner for each context -/

section Ownership

variable {V Ctx : Type} {Absorbed : Ctx → Bytes → Prop} {w : World V Ctx} {f : Fed V}
variable {u v dst src : V} {h : Hasher} {ctx : Nat}

/-- The context that an object owns. -/
def World.owned (w : World V Ctx) (v : V) : Option Nat := (w.object v).bind Hasher.impl

theorem World.owned_eq (hv : w.object v = some h) : w.owned v = h.impl := by
  rw [World.owned, hv, Option.bind_some]

/-- The contexts on the heap have one owner each; a context is finished when the flag of
its owner is set; and what was fed to an object is what its context has absorbed. -/
structure Sound (Absorbed : Ctx → Bytes → Prop) (f : Fed V) (w : World V Ctx) : Prop where
  owned : Exclusive w.owned fun ctx => w.heap ctx ≠ none
  fresh : ∀ ctx, w.heap ctx ≠ none → ctx < w.next
  flag : ∀ v h ctx, w.object v = some h → h.impl = some ctx →
    (w.heap ctx = some .finished ↔ h.finalized = true)
  fed : ∀ v data, f v = some data → ∃ ctx c, w.object v = some ⟨some ctx, false⟩ ∧
    w.heap ctx = some (.initialized c) ∧ Absorbed c data

theorem sound_start :
    Sound Absorbed (fun _ : V => none) ⟨fun _ => none, fun _ => none, 0⟩ where
  owned := by
    have hnone : Exclusive (fun _ : V => (none : Option Nat)) fun _ => False := Exclusive.none
    show Exclusive (fun _ => none) fun _ => none ≠ none
    simpa using hnone
  fresh _ h := absurd rfl h
  flag _ _ _ h := by cases h
  fed _ _ h := by cases h

theorem Sound.live (hs : Sound Absorbed f w) (hv : w.object v = some h) (himpl : h.impl = some ctx) :
    ∃ c, w.heap ctx = some c :=
  Option.ne_none_iff_exists'.mp
    ((hs.owned.owner ctx).mpr ⟨v, (World.owned_eq hv).trans himpl⟩)

/-- Another object owns another context. -/
theorem Sound.other (hs : Sound Absorbed f w) (hv : w.object v = some h) (himpl : h.impl = some ctx)
    {h' : Hasher} {ctx' : Nat} (hu : w.object u = some h') (himpl' : h'.impl = some ctx')
    (huv : u ≠ v) : ctx' ≠ ctx := by
  rintro rfl
  exact huv (hs.owned.one u v ctx' ((World.owned_eq hu).trans himpl')
    ((World.owned_eq hv).trans himpl))

/-- What was fed to an object that is not finished is what its context has absorbed. -/
theorem Sound.absorbed (hs : Sound Absorbed f w) (hv : w.object v = some h)
    (himpl : h.impl = some ctx) {c : Ctx} (hc : w.heap ctx = some (.initialized c)) {data : Bytes}
    (hdata : f v = some data) : Absorbed c data := by
  obtain ⟨ctx', c', hobj, hheap, habs⟩ := hs.fed v data hdata
  obtain rfl := Option.some.inj (hv.symm.trans hobj)
  obtain rfl := Option.some.inj himpl
  rw [hc] at hheap
  cases hheap
  exact habs

variable [DecidableEq V]

theorem World.owned_setObject (w : World V Ctx) (v : V) (o : Option Hasher) :
    (w.setObject v o).owned = Function.update w.owned v (o.bind Hasher.impl) := by
  funext u
  by_cases huv : u = v
  · subst huv
    simp [World.owned, World.setObject]
  · simp [World.owned, World.setObject, huv]

theorem World.setObject_self (hv : w.object v = some h) : w.setObject v (some h) = w := by
  rw [World.setObject, ← hv, Function.update_eq_self]

/-- What a step does to one object and its context is all there is to check. -/
theorem Sound.step {w' : World V Ctx} {x : Option Bytes} (hs : Sound Absorbed f w)
    (howned : Exclusive w'.owned fun ctx => w'.heap ctx ≠ none)
    (hfresh : ∀ ctx, w'.heap ctx ≠ none → ctx < w'.next)
    (hobject : ∀ u, u ≠ v → w'.object u = w.object u)
    (hheap : ∀ u h ctx, u ≠ v → w.object u = some h → h.impl = some ctx → w'.heap ctx = w.heap ctx)
    (hflag : ∀ h ctx, w'.object v = some h → h.impl = some ctx →
      (w'.heap ctx = some .finished ↔ h.finalized = true))
    (hfed : ∀ data, x = some data → ∃ ctx c, w'.object v = some ⟨some ctx, false⟩ ∧
      w'.heap ctx = some (.initialized c) ∧ Absorbed c data) :
    Sound Absorbed (Function.update f v x) w' := by
  refine ⟨howned, hfresh, fun u h ctx hu himpl => ?_, fun u data hu => ?_⟩
  · by_cases huv : u = v
    · subst huv
      exact hflag h ctx hu himpl
    · rw [hobject u huv] at hu
      rw [hheap u h ctx huv hu himpl]
      exact hs.flag u h ctx hu himpl
  · by_cases huv : u = v
    · subst huv
      exact hfed data (by simpa using hu)
    · rw [Function.update_of_ne huv] at hu
      obtain ⟨ctx, c, hobj, hc, habs⟩ := hs.fed u data hu
      refine ⟨ctx, c, (hobject u huv).trans hobj, ?_, habs⟩
      rw [hheap u _ ctx huv hobj rfl]
      exact hc

/-- An object changes its context, and its flag with it. -/
theorem Sound.change (hs : Sound Absorbed f w) (hv : w.object v = some h) (himpl : h.impl = some ctx)
    {c : EvpMdCtx Ctx} {finalized : Bool} {x : Option Bytes} (hflag : c = .finished ↔ finalized = true)
    (hx : ∀ data, x = some data → finalized = false ∧ ∃ c', c = .initialized c' ∧ Absorbed c' data) :
    Sound Absorbed (Function.update f v x)
      ((w.setObject v (some { h with finalized })).setCtx ctx (some c)) := by
  obtain ⟨c₀, hc₀⟩ := hs.live hv himpl
  have hheap : ∀ m, Function.update w.heap ctx (some c) m ≠ none ↔ w.heap m ≠ none := by
    intro m
    by_cases hm : m = ctx
    · subst hm
      simp [hc₀]
    · rw [Function.update_of_ne hm]
  have howned : ((w.setObject v (some { h with finalized })).setCtx ctx (some c)).owned = w.owned := by
    show (w.setObject v (some { h with finalized })).owned = w.owned
    rw [World.owned_setObject]
    exact Function.update_eq_self_iff.mpr (World.owned_eq hv).symm
  refine hs.step ?_ (fun m hm => hs.fresh m ((hheap m).mp hm)) (fun u hu => ?_)
    (fun u h' m hu hobj himpl' => ?_) (fun h' m hobj himpl' => ?_) fun data hdata => ?_
  · rw [howned]
    exact ⟨fun m => (hheap m).trans (hs.owned.owner m), hs.owned.one⟩
  · exact Function.update_of_ne hu ..
  · exact Function.update_of_ne (hs.other hv himpl hobj himpl' hu) ..
  · obtain rfl : { h with finalized } = h' := by simpa [World.setObject, World.setCtx] using hobj
    obtain rfl : ctx = m := by simpa [himpl] using himpl'
    simpa [World.setObject, World.setCtx] using hflag
  · obtain ⟨rfl, c', rfl, habs⟩ := hx data hdata
    refine ⟨ctx, c', ?_, Function.update_self .., habs⟩
    simp [World.setObject, World.setCtx, himpl]

/-- An object goes away, and its context with it. -/
theorem Sound.destroy (hs : Sound Absorbed f w) (hv : w.object v = some h) :
    Sound Absorbed (Function.update f v none) ((w.setObject v none).free h.impl) := by
  have hobject : ((w.setObject v none).free h.impl).object = Function.update w.object v none := by
    cases himpl : h.impl <;> rfl
  have howned : ((w.setObject v none).free h.impl).owned = Function.update w.owned v none := by
    have hsame : ((w.setObject v none).free h.impl).owned = (w.setObject v none).owned := by
      unfold World.owned
      rw [hobject]
      rfl
    rw [hsame, World.owned_setObject]
    rfl
  have hheap : ∀ m, ((w.setObject v none).free h.impl).heap m ≠ none ↔
      w.heap m ≠ none ∧ w.owned v ≠ some m := by
    intro m
    rw [World.owned_eq hv]
    cases himpl : h.impl with
    | none => simp [World.free, World.setObject]
    | some ctx =>
      by_cases hm : m = ctx
      · subst hm
        simp [World.free, World.setCtx]
      · simp [World.free, World.setCtx, World.setObject, hm, Ne.symm hm]
  refine hs.step ?_ (fun m hm => ?_) (fun u hu => ?_) (fun u h' m hu hobj himpl' => ?_)
    (fun h' m hobj => ?_) fun data hdata => ?_
  · rw [howned]
    refine ⟨fun m => (hheap m).trans ((hs.owned.release v).owner m), (hs.owned.release v).one⟩
  · have hnext : ((w.setObject v none).free h.impl).next = w.next := by
      cases himpl : h.impl <;> rfl
    rw [hnext]
    exact hs.fresh m ((hheap m).mp hm).1
  · rw [hobject, Function.update_of_ne hu]
  · cases himpl : h.impl with
    | none => rfl
    | some ctx => exact Function.update_of_ne (hs.other hv himpl hobj himpl' hu) ..
  · rw [hobject, Function.update_self] at hobj
    cases hobj
  · cases hdata

/-- A new object gets a new context. -/
theorem Sound.alloc (hs : Sound Absorbed f w) (hv : w.object v = none) {c : Ctx}
    (habs : Absorbed c []) :
    Sound Absorbed (Function.update f v (some []))
      { (w.setObject v (some ⟨some w.next, false⟩)).setCtx w.next (some (.initialized c)) with
        next := w.next + 1 } := by
  have hnone : w.heap w.next = none := by
    by_contra hne
    exact Nat.lt_irrefl _ (hs.fresh _ hne)
  have hacq := hs.owned.acquire (v := v) (n := w.next) (by rw [World.owned, hv]; rfl)
    (not_not.mpr hnone)
  have hheap : ∀ m, Function.update w.heap w.next (some (.initialized c)) m ≠ none ↔
      m = w.next ∨ w.heap m ≠ none := by
    intro m
    by_cases hm : m = w.next
    · subst hm
      simp
    · simp [hm]
  have howned : (w.setObject v (some ⟨some w.next, false⟩)).owned =
      Function.update w.owned v (some w.next) := World.owned_setObject w v _
  refine hs.step (v := v) ?_ (fun m hm => ?_) (fun u hu => Function.update_of_ne hu ..)
    (fun u h' m _ hobj himpl' => ?_) (fun h' m hobj himpl' => ?_) fun data hdata => ?_
  · show Exclusive (w.setObject v (some ⟨some w.next, false⟩)).owned _
    rw [howned]
    exact ⟨fun m => (hheap m).trans (hacq.owner m), hacq.one⟩
  · show m < w.next + 1
    rcases (hheap m).mp hm with rfl | hm
    · exact Nat.lt_succ_self _
    · exact Nat.lt_succ_of_lt (hs.fresh m hm)
  · refine Function.update_of_ne ?_ ..
    rintro rfl
    obtain ⟨c, hc⟩ := hs.live hobj himpl'
    rw [hnone] at hc
    cases hc
  · obtain rfl : ⟨some w.next, false⟩ = h' := by simpa [World.setObject, World.setCtx] using hobj
    obtain rfl : w.next = m := by simpa using himpl'
    simp [World.setCtx]
  · obtain rfl : [] = data := by simpa using hdata
    exact ⟨w.next, c, by simp [World.setObject, World.setCtx], by simp [World.setCtx], habs⟩

/-- A context moves to an object that was not alive, with what was fed to it. -/
theorem Sound.transfer (hs : Sound Absorbed f w) (hsrc : w.object src = some h)
    (hdst : w.object dst = none) :
    Sound Absorbed (Function.update (Function.update f src none) dst (f src))
      ((w.setObject src (some { h with impl := none })).setObject dst (some h)) := by
  have hne : dst ≠ src := by
    rintro rfl
    rw [hsrc] at hdst
    cases hdst
  have hobject : ∀ u, ((w.setObject src (some { h with impl := none })).setObject dst (some h)).object u =
      if u = dst then some h else if u = src then some { h with impl := none } else w.object u := by
    intro u
    simp only [World.setObject, Function.update_apply]
  have howned : ((w.setObject src (some { h with impl := none })).setObject dst (some h)).owned =
      Function.update (Function.update w.owned src none) dst (w.owned src) := by
    rw [World.owned_setObject, World.owned_setObject, World.owned_eq hsrc]
    rfl
  refine ⟨?_, hs.fresh, fun u h' m hobj himpl' => ?_, fun u data hu => ?_⟩
  · rw [howned]
    exact hs.owned.transfer (by rw [World.owned, hdst]; rfl) hne
  · rw [hobject] at hobj
    split at hobj
    · cases hobj
      exact hs.flag src h m hsrc himpl'
    · split at hobj
      · cases hobj
        cases himpl'
      · exact hs.flag u h' m hobj himpl'
  · rw [Function.update_apply] at hu
    split at hu
    · rename_i hud
      obtain ⟨ctx, c, hobj, hc, habs⟩ := hs.fed src data hu
      rw [hsrc] at hobj
      exact ⟨ctx, c, by rw [hobject, if_pos hud]; exact hobj, hc, habs⟩
    · rename_i hud
      rw [Function.update_apply] at hu
      split at hu
      · cases hu
      · rename_i hus
        obtain ⟨ctx, c, hobj, hc, habs⟩ := hs.fed u data hu
        exact ⟨ctx, c, by rw [hobject, if_neg hud, if_neg hus]; exact hobj, hc, habs⟩

end Ownership

/-! ## What the methods do -/

section Steps

variable {V Env Ctx : Type} [DecidableEq V] {ssl : OpenSsl Env Ctx} {sha256 : Bytes → Digest}
variable {Absorbed : Ctx → Bytes → Prop} {w w' : World V Ctx} {f : Fed V} {v dst src : V}
variable {data : Bytes} {e : Env} {o : Outcome}

theorem construct_sound (hssl : ssl.Documented sha256 Absorbed) (hs : Sound Absorbed f w)
    (hv : w.object v = none) (h : construct ssl e w v = (o, w')) :
    o ≠ .undefined ∧ Sound Absorbed (feed f (.construct v) o) w' := by
  unfold construct at h
  split at h
  · cases h
    exact ⟨by simp, hs⟩
  · split at h
    · cases h
      exact ⟨by simp, hs.owned, fun m hm => Nat.lt_succ_of_lt (hs.fresh m hm), hs.flag, hs.fed⟩
    · rename_i c hinit
      cases h
      exact ⟨by simp, hs.alloc hv (hssl.init e c hinit)⟩

theorem evpDigestUpdate_sound (hssl : ssl.Documented sha256 Absorbed) (hs : Sound Absorbed f w)
    {x : Hasher} {ctx : Nat} (hx : w.object v = some x) (himpl : x.impl = some ctx)
    (hopen : x.finalized = false) (h : evpDigestUpdate ssl e w ctx data = (o, w')) :
    o ≠ .undefined ∧ Sound Absorbed (feed f (.update v data) o) w' := by
  obtain ⟨cell, hcell⟩ := hs.live hx himpl
  cases cell with
  | finished =>
    rw [(hs.flag v x ctx hx himpl).mp hcell] at hopen
    cases hopen
  | initialized c =>
    have hself : { x with finalized := false } = x := by rw [← hopen]
    have hchange : ∀ {c' : Ctx} {y : Option Bytes}, (∀ data, y = some data → Absorbed c' data) →
        Sound Absorbed (Function.update f v y) (w.setCtx ctx (some (.initialized c'))) := by
      intro c' y hy
      have hflag : EvpMdCtx.initialized c' = .finished ↔ false = true := by simp
      have hstep := hs.change hx himpl hflag fun data hdata => ⟨rfl, c', rfl, hy data hdata⟩
      rw [hself, World.setObject_self hx] at hstep
      exact hstep
    simp only [evpDigestUpdate, hcell] at h
    cases hcall : ssl.digestUpdate e c data with
    | mk ok c' =>
      rw [hcall] at h
      cases ok with
      | true =>
        cases h
        refine ⟨by simp, hchange fun y hy => ?_⟩
        obtain ⟨absorbed, habsorbed, rfl⟩ := Option.map_eq_some_iff.mp hy
        exact hssl.update e c c' absorbed data (hs.absorbed hx himpl hcell habsorbed) hcall
      | false =>
        cases h
        exact ⟨by simp, hchange (by simp)⟩

theorem update_sound (hssl : ssl.Documented sha256 Absorbed) (hs : Sound Absorbed f w)
    (hv : w.object v ≠ none) (hmoved : ¬ (data ≠ [] ∧ w.object v = some ⟨none, false⟩))
    (h : update ssl e w v data = (o, w')) :
    o ≠ .undefined ∧ Sound Absorbed (feed f (.update v data) o) w' := by
  obtain ⟨x, hx⟩ := Option.ne_none_iff_exists'.mp hv
  simp only [update, hx] at h
  split at h
  · cases h
    exact ⟨by simp, hs⟩
  · rename_i hflag
    split at h
    · rename_i hempty
      cases h
      obtain rfl : data = [] := List.isEmpty_iff.mp hempty
      refine ⟨by simp, ?_⟩
      have hsame : Function.update f v ((f v).map (· ++ [])) = f := by simp
      simpa [feed, hsame] using hs
    · rename_i hne
      cases himpl : x.impl with
      | none =>
        refine absurd ⟨by simpa using hne, hx.trans ?_⟩ hmoved
        obtain ⟨impl, finalized⟩ := x
        rw [show impl = none from himpl, show finalized = false by simpa using hflag]
      | some ctx =>
        rw [himpl] at h
        exact evpDigestUpdate_sound hssl hs hx himpl (by simpa using hflag) h

/-- A digest is the hash of what was fed. -/
theorem finalize_sound (hssl : ssl.Documented sha256 Absorbed) (hs : Sound Absorbed f w)
    (hv : w.object v ≠ none) (hmoved : w.object v ≠ some ⟨none, false⟩)
    (h : finalize ssl e w v = (o, w')) :
    o ≠ .undefined ∧ Sound Absorbed (feed f (.finalize v) o) w' ∧
      ∀ data, f v = some data → (∀ d, o = .digest d → d = sha256 data) ∧
        (ssl.Works e → o = .digest (sha256 data)) := by
  obtain ⟨x, hx⟩ := Option.ne_none_iff_exists'.mp hv
  simp only [finalize, hx] at h
  split at h
  · rename_i hflag
    cases h
    refine ⟨by simp, hs, fun data hdata => ?_⟩
    obtain ⟨ctx, c, hobj, _⟩ := hs.fed v data hdata
    rw [hx] at hobj
    cases hobj
    cases hflag
  · rename_i hflag
    cases himpl : x.impl with
    | none =>
      refine absurd (hx.trans ?_) hmoved
      obtain ⟨impl, finalized⟩ := x
      rw [show impl = none from himpl, show finalized = false by simpa using hflag]
    | some ctx =>
      obtain ⟨cell, hcell⟩ := hs.live hx himpl
      cases cell with
      | finished => exact absurd ((hs.flag v x ctx hx himpl).mp hcell) hflag
      | initialized c =>
        have hdone : Sound Absorbed (Function.update f v none)
            ((w.setObject v (some { x with finalized := true })).setCtx ctx (some .finished)) :=
          hs.change hx himpl (by simp) (by simp)
        have hfinal : evpDigestFinal ssl e (w.setObject v (some { x with finalized := true })) ctx =
            (o, w') := by simpa only [himpl] using h
        have hheap : (w.setObject v (some { x with finalized := true })).heap ctx =
            some (.initialized c) := hcell
        simp only [evpDigestFinal, hheap] at hfinal
        cases hcall : ssl.digestFinal e c with
        | mk ok d =>
          rw [hcall] at hfinal
          cases ok with
          | true =>
            cases hfinal
            refine ⟨by simp, hdone, fun data hdata => ?_⟩
            have hd := hssl.final e c data d (hs.absorbed hx himpl hcell hdata) hcall
            exact ⟨fun d' hd' => (Outcome.digest.inj hd').symm.trans hd,
              fun _ => congrArg Outcome.digest hd⟩
          | false =>
            cases hfinal
            refine ⟨by simp, hdone, fun data _ => ⟨by simp, fun hworks => ?_⟩⟩
            have hok := hworks.digestFinal c
            rw [hcall] at hok
            cases hok

theorem moveConstruct_sound (hs : Sound Absorbed f w) (hdst : w.object dst = none)
    (hsrc : w.object src ≠ none) (h : moveConstruct w dst src = (o, w')) :
    o ≠ .undefined ∧ Sound Absorbed (feed f (.moveConstruct dst src) o) w' := by
  obtain ⟨x, hx⟩ := Option.ne_none_iff_exists'.mp hsrc
  simp only [moveConstruct, hx] at h
  cases h
  exact ⟨by simp, hs.transfer hx hdst⟩

theorem moveAssign_sound (hs : Sound Absorbed f w) (hdst : w.object dst ≠ none)
    (hsrc : w.object src ≠ none) (h : moveAssign w dst src = (o, w')) :
    o ≠ .undefined ∧ Sound Absorbed (feed f (.moveAssign dst src) o) w' := by
  obtain ⟨old, hold⟩ := Option.ne_none_iff_exists'.mp hdst
  simp only [moveAssign, hold] at h
  split at h
  · rename_i heq
    cases h
    exact ⟨by simp, by simpa [feed, heq] using hs⟩
  · rename_i hne
    have hobject : ((w.setObject dst none).free old.impl).object = Function.update w.object dst none := by
      cases himpl : old.impl <;> rfl
    have hsrc' : ((w.setObject dst none).free old.impl).object src ≠ none := by
      rw [hobject, Function.update_of_ne (Ne.symm hne)]
      exact hsrc
    have hdst' : ((w.setObject dst none).free old.impl).object dst = none := by
      rw [hobject, Function.update_self]
    obtain ⟨hdef, hsound⟩ := moveConstruct_sound (hs.destroy hold) hdst' hsrc' h
    refine ⟨hdef, ?_⟩
    -- what was fed to the old object is gone before and after
    have hfeed : feed f (.moveAssign dst src) o =
        feed (Function.update f dst none) (.moveConstruct dst src) o := by
      funext u
      simp only [feed, if_neg hne, Function.update_apply]
      split
      · rw [if_neg (Ne.symm hne)]
      · rfl
    rw [hfeed]
    exact hsound

theorem destroy_sound (hs : Sound Absorbed f w) (hv : w.object v ≠ none) (h : destroy w v = (o, w')) :
    o ≠ .undefined ∧ Sound Absorbed (feed f (.destroy v) o) w' := by
  obtain ⟨x, hx⟩ := Option.ne_none_iff_exists'.mp hv
  simp only [destroy, hx] at h
  cases h
  exact ⟨by simp, hs.destroy hx⟩

/-- **One step.** -/
theorem perform_sound (hssl : ssl.Documented sha256 Absorbed) (hs : Sound Absorbed f w)
    {a : Action V} (hscope : a.InScope w) (hmoved : ¬ a.UsesMovedFrom w)
    (h : perform ssl e w a = (o, w')) :
    o ≠ .undefined ∧ Sound Absorbed (feed f a o) w' := by
  cases a with
  | construct v => exact construct_sound hssl hs hscope h
  | update v data => exact update_sound hssl hs hscope hmoved h
  | finalize v =>
    obtain ⟨hdef, hsound, _⟩ := finalize_sound hssl hs hscope hmoved h
    exact ⟨hdef, hsound⟩
  | moveConstruct dst src => exact moveConstruct_sound hs hscope.1 hscope.2 h
  | moveAssign dst src => exact moveAssign_sound hs hscope.1 hscope.2 h
  | destroy v => exact destroy_sound hs hscope h

/-- A null `impl_` is followed. -/
theorem perform_undefined {a : Action V} (h : a.UsesMovedFrom w) :
    (perform ssl e w a).1 = .undefined := by
  cases a with
  | update v data =>
    have hne : data.isEmpty = false := by simpa using h.1
    simp [perform, update, h.2, hne]
  | finalize v =>
    have hv : w.object v = some ⟨none, false⟩ := h
    simp [perform, finalize, hv]
  | construct v => exact h.elim
  | moveConstruct dst src => exact h.elim
  | moveAssign dst src => exact h.elim
  | destroy v => exact h.elim

end Steps

/-! ## Whole programs -/

section Whole

variable {V Env Ctx : Type} [DecidableEq V] {ssl : OpenSsl Env Ctx} {sha256 : Bytes → Digest}
variable {Absorbed : Ctx → Bytes → Prop} {w : World V Ctx} {trace : List (Action V × Outcome)}

theorem Runs.sound (hssl : ssl.Documented sha256 Absorbed) (h : Runs ssl trace w) :
    Sound Absorbed (fed trace) w := by
  induction h with
  | nil => exact sound_start
  | snoc _ hscope hmoved hstep ih =>
    rw [fed, List.foldl_append]
    exact (perform_sound hssl ih hscope hmoved hstep).2

/-- A program up to one of its steps. -/
theorem Runs.step {before after : List (Action V × Outcome)} {a : Action V} {o : Outcome}
    (h : Runs ssl (before ++ (a, o) :: after) w) :
    ∃ w₀ e w₁, Runs ssl before w₀ ∧ a.InScope w₀ ∧ ¬ a.UsesMovedFrom w₀ ∧
      perform ssl e w₀ a = (o, w₁) := by
  generalize htrace : before ++ (a, o) :: after = trace at h
  induction h generalizing after with
  | nil => simp at htrace
  | @snoc trace w b e o' w' hruns hscope hmoved hstep ih =>
    rcases List.eq_nil_or_concat after with rfl | ⟨after', x, rfl⟩
    · obtain ⟨rfl, hlast⟩ := List.append_inj' htrace rfl
      cases hlast
      exact ⟨w, e, w', hruns, hscope, hmoved, hstep⟩
    · rw [List.concat_eq_append, ← List.cons_append, ← List.append_assoc] at htrace
      exact ih (List.append_inj' htrace rfl).1

/-- The world with one more object, whose context is the newest one. -/
def World.withLocal (w : World V Ctx) (hasher : V) (finalized : Bool) (c : EvpMdCtx Ctx) : World V Ctx :=
  { (w.setObject hasher (some ⟨some w.next, finalized⟩)).setCtx w.next (some c) with
    next := w.next + 1 }

section Local

variable {hasher : V} {finalized : Bool} {cell : EvpMdCtx Ctx} {c : Ctx} {data : Bytes} {e : Env}

theorem object_withLocal :
    (w.withLocal hasher finalized cell).object hasher = some ⟨some w.next, finalized⟩ := by
  simp [World.withLocal, World.setObject, World.setCtx]

theorem heap_withLocal : (w.withLocal hasher finalized cell).heap w.next = some cell := by
  simp [World.withLocal, World.setCtx]

theorem setCtx_withLocal (cell' : EvpMdCtx Ctx) :
    (w.withLocal hasher finalized cell).setCtx w.next (some cell') =
      w.withLocal hasher finalized cell' := by
  simp [World.withLocal, World.setCtx]

theorem setObject_withLocal (finalized' : Bool) :
    (w.withLocal hasher finalized cell).setObject hasher (some ⟨some w.next, finalized'⟩) =
      w.withLocal hasher finalized' cell := by
  simp [World.withLocal, World.setObject, World.setCtx]

variable (w hasher e data) in
/-- `Update` of the local object works, or throws. -/
theorem update_withLocal (hssl : ssl.Documented sha256 Absorbed) (habs : Absorbed c []) :
    (∃ c', Absorbed c' data ∧ update ssl e (w.withLocal hasher false (.initialized c)) hasher data =
      (.ok, w.withLocal hasher false (.initialized c'))) ∨
    (¬ ssl.Works e ∧ ∃ c', update ssl e (w.withLocal hasher false (.initialized c)) hasher data =
      (.runtimeError "Failed to update SHA256", w.withLocal hasher false (.initialized c'))) := by
  by_cases hdata : data = []
  · subst hdata
    exact .inl ⟨c, habs, by simp [update, object_withLocal]⟩
  · cases hcall : ssl.digestUpdate e c data with
    | mk ok c' =>
      cases ok with
      | true =>
        refine .inl ⟨c', hssl.update e c c' [] data habs hcall, ?_⟩
        simp [update, object_withLocal, evpDigestUpdate, heap_withLocal, hdata, hcall, setCtx_withLocal]
      | false =>
        refine .inr ⟨fun hworks => ?_, c', ?_⟩
        · have hok := hworks.digestUpdate c data
          rw [hcall] at hok
          cases hok
        · simp [update, object_withLocal, evpDigestUpdate, heap_withLocal, hdata, hcall,
            setCtx_withLocal]

variable (w hasher e) in
/-- `Finalize` of the local object returns the hash of what it was updated with, or throws. -/
theorem finalize_withLocal (hssl : ssl.Documented sha256 Absorbed) (habs : Absorbed c data) :
    finalize ssl e (w.withLocal hasher false (.initialized c)) hasher =
      (.digest (sha256 data), w.withLocal hasher true .finished) ∨
    (¬ ssl.Works e ∧ finalize ssl e (w.withLocal hasher false (.initialized c)) hasher =
      (.runtimeError "Failed to finalize SHA256", w.withLocal hasher true .finished)) := by
  cases hcall : ssl.digestFinal e c with
  | mk ok d =>
    cases ok with
    | true =>
      obtain rfl := hssl.final e c data d habs hcall
      left
      simp [finalize, object_withLocal, setObject_withLocal, evpDigestFinal, heap_withLocal,
        setCtx_withLocal, hcall]
    | false =>
      refine .inr ⟨fun hworks => ?_, ?_⟩
      · have hok := hworks.digestFinal c
        rw [hcall] at hok
        cases hok
      · simp [finalize, object_withLocal, setObject_withLocal, evpDigestFinal, heap_withLocal,
          setCtx_withLocal, hcall]

theorem destroy_withLocal (hv : w.object hasher = none) (hfree : w.heap w.next = none) :
    (destroy (w.withLocal hasher finalized cell) hasher).2 = { w with next := w.next + 1 } := by
  have hobject : Function.update w.object hasher none = w.object :=
    Function.update_eq_self_iff.mpr hv.symm
  have hheap : Function.update w.heap w.next none = w.heap :=
    Function.update_eq_self_iff.mpr hfree.symm
  simp [destroy, World.free, World.withLocal, World.setObject, World.setCtx, hobject, hheap]

/-- `HashBytes` hashes, or throws what OpenSSL failed with, and leaves nothing behind. -/
theorem hashBytes_spec (hssl : ssl.Documented sha256 Absorbed) (hv : w.object hasher = none)
    (hfree : w.heap w.next = none) (envs : Fin 3 → Env) {o : Outcome} {w' : World V Ctx}
    (h : hashBytes ssl w envs hasher data = (o, w')) :
    w'.object = w.object ∧ w'.heap = w.heap ∧
      (o = .digest (sha256 data) ∨ ∃ what, o = .runtimeError what) ∧
      ((∀ i, ssl.Works (envs i)) → o = .digest (sha256 data)) := by
  unfold hashBytes construct at h
  by_cases hnew : ssl.mdCtxNew (envs 0) = true
  · cases hinit : ssl.digestInit (envs 0) with
    | mk ok c =>
      cases ok with
      | false =>
        simp only [hnew, hinit, Bool.not_true, Bool.false_eq_true, if_false] at h
        cases h
        refine ⟨rfl, rfl, .inr ⟨_, rfl⟩, fun hall => ?_⟩
        have hok := (hall 0).digestInit
        rw [hinit] at hok
        cases hok
      | true =>
        have hlocal : { (w.setObject hasher (some ⟨some w.next, false⟩)).setCtx w.next
            (some (.initialized c)) with next := w.next + 1 } =
              w.withLocal hasher false (.initialized c) := rfl
        simp only [hnew, hinit, Bool.not_true, Bool.false_eq_true, if_false, hlocal] at h
        rcases update_withLocal w hasher data (envs 1) hssl (hssl.init _ _ hinit) with
          ⟨c', habs, hupdate⟩ | ⟨hfails, c', hupdate⟩
        · rcases finalize_withLocal w hasher (envs 2) hssl habs with hfinal | ⟨hfails, hfinal⟩
          · simp only [hupdate, hfinal, destroy_withLocal hv hfree] at h
            cases h
            exact ⟨rfl, rfl, .inl rfl, fun _ => rfl⟩
          · simp only [hupdate, hfinal, destroy_withLocal hv hfree] at h
            cases h
            exact ⟨rfl, rfl, .inr ⟨_, rfl⟩, fun hall => absurd (hall 2) hfails⟩
        · simp only [hupdate, destroy_withLocal hv hfree] at h
          cases h
          exact ⟨rfl, rfl, .inr ⟨_, rfl⟩, fun hall => absurd (hall 1) hfails⟩
  · simp only [hnew, Bool.not_false, if_true] at h
    cases h
    exact ⟨rfl, rfl, .inr ⟨_, rfl⟩, fun hall => absurd (hall 0).mdCtxNew hnew⟩

end Local

/-- **Hash objects are used well, and their digests are right.** OpenSSL does what it
documents, and any of its calls may fail. After any program that does not hash with an
object that was moved from: the contexts on the heap are those of the objects that are
alive, each owned by one; the next step is undefined behaviour only if it hashes with an
object that was moved from; every digest that was returned is the hash of all that went
into its object, in whichever parts and through whichever moves, if no call for it had
failed; the next one will be, if OpenSSL does not fail; and `HashBytes` returns the hash
of its data, or throws, with nothing left on the heap. -/
theorem hashers_sound (hssl : ssl.Documented sha256 Absorbed) (h : Runs ssl trace w) :
    Exclusive w.owned (fun ctx => w.heap ctx ≠ none) ∧
    (∀ a e, a.InScope w → ((perform ssl e w a).1 = .undefined ↔ a.UsesMovedFrom w)) ∧
    (∀ before after v d data, trace = before ++ (.finalize v, .digest d) :: after →
      fed before v = some data → d = sha256 data) ∧
    (∀ v data e, fed trace v = some data → ssl.Works e →
      (perform ssl e w (.finalize v)).1 = .digest (sha256 data)) ∧
    ∀ hasher envs data o w', w.object hasher = none →
      hashBytes ssl w envs hasher data = (o, w') →
      w'.object = w.object ∧ w'.heap = w.heap ∧
        (o = .digest (sha256 data) ∨ ∃ what, o = .runtimeError what) ∧
        ((∀ i, ssl.Works (envs i)) → o = .digest (sha256 data)) := by
  have hs := h.sound hssl
  have hfree : w.heap w.next = none := by
    by_contra hne
    exact Nat.lt_irrefl _ (hs.fresh _ hne)
  refine ⟨hs.owned, fun a e hscope => ⟨fun hundef => ?_, perform_undefined⟩, ?_, ?_,
    fun hasher envs data o w' hv hrun => hashBytes_spec hssl hv hfree envs hrun⟩
  · by_contra hmoved
    have hstep : perform ssl e w a = (.undefined, (perform ssl e w a).2) := Prod.ext hundef rfl
    exact (perform_sound hssl hs hscope hmoved hstep).1 rfl
  · rintro before after v d data rfl hfed
    obtain ⟨w₀, e, w₁, hbefore, hscope, hmoved, hstep⟩ := h.step
    exact ((finalize_sound hssl (hbefore.sound hssl) hscope hmoved hstep).2.2 data hfed).1 d rfl
  · intro v data e hfed hworks
    obtain ⟨ctx, c, hobj, _⟩ := hs.fed v data hfed
    have hv : w.object v ≠ none := by simp [hobj]
    have hmoved : w.object v ≠ some ⟨none, false⟩ := by simp [hobj]
    exact ((finalize_sound hssl hs hv hmoved rfl).2.2 data hfed).2 hworks

end Whole

/-- OpenSSL over a hash that is known: a context has the data so far, or nothing once a
call failed. The calls work, or they do not. -/
def knownOpenSsl : OpenSsl Bool (Option Bytes) where
  mdCtxNew e := e
  digestInit e := (e, some [])
  digestUpdate e c data := (e, if e then c.map (· ++ data) else none)
  digestFinal e c := (e, (c.map knownSha256).getD emptyDigest)

theorem knownOpenSsl_documented : knownOpenSsl.Documented knownSha256 fun c b => c = some b where
  init e c h := (Prod.mk.inj h).2.symm
  update e c c' absorbed data habs h := by
    obtain ⟨rfl, hc⟩ := Prod.mk.inj h
    rw [← hc, habs]
    rfl
  final e c absorbed d habs h := by
    obtain ⟨_, hd⟩ := Prod.mk.inj h
    rw [← hd, habs]
    rfl

/-- `abc` in two parts, with a move between them. -/
def movedAbc : List (Action Bool × Outcome) :=
  [(.construct false, .ok), (.update false [0x61], .ok), (.moveConstruct true false, .ok),
    (.update true [0x62, 0x63], .ok), (.finalize true, .digest abcDigest)]

theorem movedAbc_runs : ∃ w, Runs knownOpenSsl movedAbc w := by
  have h₀ : Runs (V := Bool) knownOpenSsl [] ⟨fun _ => none, fun _ => none, 0⟩ := .nil
  have h₁ := h₀.snoc (a := .construct false) rfl id (Eq.refl (perform knownOpenSsl true _ _))
  have h₂ := h₁.snoc (a := .update false [0x61]) (by decide) (by decide)
    (Eq.refl (perform knownOpenSsl true _ _))
  have h₃ := h₂.snoc (a := .moveConstruct true false) (by decide) (by decide)
    (Eq.refl (perform knownOpenSsl true _ _))
  have h₄ := h₃.snoc (a := .update true [0x62, 0x63]) (by decide) (by decide)
    (Eq.refl (perform knownOpenSsl true _ _))
  have h₅ := h₄.snoc (a := .finalize true) (by decide) (by decide)
    (Eq.refl (perform knownOpenSsl true _ _))
  exact ⟨_, h₅⟩

theorem hashers_sound_movedAbc : ∃ w, Runs knownOpenSsl movedAbc w ∧
    Exclusive w.owned (fun ctx => w.heap ctx ≠ none) ∧
    fed (movedAbc.take 4) true = some abcBytes ∧ abcDigest = knownSha256 abcBytes := by
  obtain ⟨w, hw⟩ := movedAbc_runs
  obtain ⟨howned, _, hdigest, _⟩ := hashers_sound knownOpenSsl_documented hw
  have hfed : fed (movedAbc.take 4) true = some abcBytes := by decide
  exact ⟨w, hw, howned, hfed, hdigest (movedAbc.take 4) [] true abcDigest abcBytes rfl hfed⟩

end NimbusFs.Common.Sha256
