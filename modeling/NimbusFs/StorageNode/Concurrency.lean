import NimbusFs.StorageNode.StoreSim

/-! # Threads on one store

Any number of threads call the operations of one `LocalDiskChunkStore`, and
their steps interleave in any order. Read with a re-entrant lock the store is
linearizable to `ReferenceMap`. With the `std::mutex` it is written with, a
`Put` whose data passes the hash check asks for a lock it holds; without such
a `Put` no thread ever does, and the store cannot deadlock. -/
namespace NimbusFs.StorageNode

open NimbusFs.Common Lib

/-- The operations of `IChunkStore`: all but the constructor. -/
def StoreOp.IsMethod : StoreOp → Prop
  | .construct => False
  | _ => True

/-- Threads that call the operations in `allowed`, in a process that does not
crash. Each call draws some temporary name. -/
def storeSystem (sha256 : Bytes → Digest) (pol : Policy) (allowed : StoreOp → Prop)
    (reentrant : Bool) : System (Fin 256) Call Call.Ret Store StoreOp StoreOp.Ret where
  impl o p := allowed o ∧ ∃ uuid, p = o.prog sha256 uuid
  sem := pol.sem
  crash _ _ := False
  reentrant := reentrant

/-- A state of the threads. -/
abbrev StoreConfig (T : Type) := Config T (Fin 256) Call Call.Ret Store StoreOp StoreOp.Ret

/-- Every program that a thread may run takes effect once. -/
theorem storeSystem_linSim (sha256 : Bytes → Digest) (pol : Policy) (allowed : StoreOp → Prop)
    (reentrant : Bool) (o : StoreOp) (p : StoreProg o.Ret)
    (hp : (storeSystem sha256 pol allowed reentrant).impl o p) :
    LinSim (storeProtocol sha256) pol.sem (MapSpec sha256 pol) view p := by
  obtain ⟨_, uuid, rfl⟩ := hp
  exact prog_linSim sha256 pol uuid o

section Threads

variable {T : Type} [DecidableEq T] {sha256 : Bytes → Digest} {pol : Policy}
variable {allowed : StoreOp → Prop} {s : Store} {c : StoreConfig T}

/-! ## Linearizability -/

/-- Under every policy of faults the store is linearizable to `MapSpec`. -/
theorem linearizable_mapSpec {reentrant : Bool} (hinv : DiskInv sha256 s.disk)
    (h : Reachable (storeSystem sha256 pol allowed reentrant) s c) :
    Linearizable (MapSpec sha256 pol) (view s) c.hist :=
  h.linearizable (storeSystem_linSim sha256 pol allowed reentrant) (fun _ _ hc => hc) hinv

/-- **The store is linearizable to the reference map**: threads of any number,
a lock that may be taken again, an empty data root and no faults. -/
theorem linearizable_referenceMap (hempty : s.disk.IsEmpty)
    (h : Reachable (storeSystem sha256 .noFault StoreOp.IsMethod true) s c) :
    Linearizable (ReferenceMap sha256) (fun _ => none) c.hist := by
  obtain ⟨lin, hlin⟩ := linearizable_mapSpec hempty.inv h
  rw [hempty.view] at hlin
  exact ⟨lin, hlin.mono fun _ _ _ _ => referenceMap_of_noFault⟩

end Threads

/-- A `Put` of `abc` has synced its temporary file when a `Get` of it begins; the `Put`
returns, and then the `Get`. -/
theorem linearizable_referenceMap_put_get :
    ∃ c : StoreConfig Bool,
      Reachable (storeSystem knownSha256 .noFault StoreOp.IsMethod true) Store.empty c ∧
      c.hist = [.inv 0 false (.put .ofAbc abcBytes), .inv 1 true (.get .ofAbc),
        .res 0 false (.put .ofAbc abcBytes) (.ok ()), .res 1 true (.get .ofAbc) (.ok abcBytes)] ∧
      Linearizable (ReferenceMap knownSha256) (fun _ => none) c.hist := by
  let sys := storeSystem knownSha256 .noFault StoreOp.IsMethod true
  let step : (c : Call) → Store → c.Ret × Store := fun c s => c.exec .ok s
  have hsem : ∀ c s, sys.sem c s (step c s).1 (step c s).2 := Policy.sem_ok .noFault
  let o := StoreOp.put .ofAbc abcBytes
  let p := put knownSha256 .ofAbc abcBytes default
  let g := get knownSha256 .ofAbc
  let x := (p.advance step 8 [] Store.empty).get (by decide +kernel)
  let y := (x.1.advance step 8 x.2.1 x.2.2).get (by decide +kernel)
  have hx : p.advance step 8 [] Store.empty = some x := (Option.some_get _).symm
  have hy : x.1.advance step 8 x.2.1 x.2.2 = some y := (Option.some_get _).symm
  have hput : y.1 = .ret (.ok ()) := Prog.eq_ret (by decide +kernel)
  have hfree : y.2.1 = [] := by decide +kernel
  have hget : g.runsAlone step (fun _ => 0) y.2.2 := by decide +kernel
  have hfound : (g.run step y.2.2).1 = .ok abcBytes := by decide +kernel
  clear_value y x
  -- up to where the `Get` begins
  let c₀ : StoreConfig Bool := (Config.init Store.empty : StoreConfig Bool).start false o p
  have h₀ : Reachable sys Store.empty c₀ :=
    Relation.ReflTransGen.refl.tail (.invoke rfl ⟨trivial, default, rfl⟩)
  have hth₀ : c₀.thread = Function.update (fun _ => none) false (some ⟨0, o, p⟩) := rfl
  obtain ⟨c₁, h₁, hth₁, hown₁, hstate₁, hhist₁, hnext₁⟩ :=
    advances_alone (o := o) rfl hsem h₀ hth₀ (fun _ => rfl) hx
  have hidle : c₁.thread true = none := by rw [hth₁]; rfl
  have hinvoke : Step sys c₁ (c₁.start true (.get .ofAbc) g) :=
    .invoke hidle ⟨trivial, default, rfl⟩
  have h₂ := h₁.tail hinvoke
  have hth₂ : (c₁.start true (.get .ofAbc) g).thread =
      Function.update (Function.update (fun _ => none) true (some ⟨c₁.next, .get .ofAbc, g⟩)) false
        (some ⟨0, o, x.1⟩) := by
    rw [start_thread, hth₁]
    exact Function.update_comm (by decide) _ _ _
  -- the `Put` to its end
  obtain ⟨c₃, h₃, hth₃, hown₃, hstate₃, hhist₃, _⟩ :=
    advances_alone (o := o) rfl hsem h₂ hth₂ hown₁ (hstate₁ ▸ hy)
  rw [hput] at hth₃
  let c₄ : StoreConfig Bool := { c₃ with thread := Function.update c₃.thread false none,
                                         hist := c₃.hist ++ [.res 0 false o (.ok ())] }
  have hreturn : TStep sys false c₃ c₄ := .ret (thread_update hth₃)
  -- and the `Get`
  have hth₄ : c₄.thread =
      Function.update (fun _ => none) true (some ⟨c₁.next, .get .ofAbc, g⟩) := by
    show Function.update c₃.thread false none = _
    rw [hth₃, Function.update_idem, Function.update_comm (by decide)]
    exact congrArg (Function.update · true _) (Function.update_eq_self false fun _ => none)
  have hown₄ : c₄.OwnedAs true fun _ => 0 := by
    intro l
    show c₃.owner l = _
    rw [hown₃ l, hfree]
    rfl
  obtain ⟨c, hc, _, _, hhist⟩ := finishes_alone (o := .get .ofAbc) rfl hsem
    (h₃.tail (.thread hreturn)) hth₄ hown₄ (hstate₃ ▸ hget)
  refine ⟨c, hc, ?_, linearizable_referenceMap Disk.isEmpty_empty hc⟩
  rw [hhist]
  show c₃.hist ++ _ ++ _ = _
  rw [hhist₃, show c₃.state = y.2.2 from hstate₃, hfound]
  show c₁.hist ++ _ ++ _ ++ _ = _
  rw [hhist₁, hnext₁]
  rfl

/-! ## Lock discipline -/

section Discipline

theorem getLocked_lockFree (sha256 : Bytes → Digest) (id : ChunkId) :
    LockFree (getLocked sha256 id) := by
  intro size
  cases size with
  | error m => trivial
  | ok n =>
    intro fd
    cases fd with
    | none => trivial
    | some fd =>
      show LockFree (getRead sha256 id n fd)
      unfold getRead
      split
      · exact fun _ => trivial
      · exact fun _ _ => trivial

theorem deleteLocked_lockFree (id : ChunkId) : LockFree (deleteLocked id) := by
  intro size
  cases size with
  | error m => trivial
  | ok n =>
    intro answer
    obtain ⟨removed, ec⟩ := answer
    show LockFree (if (!removed || ec.isSome) = true then _ else _)
    split
    · trivial
    · exact fun _ _ => trivial

theorem listAllChunkIds_lockFree : LockFree listAllChunkIds := by
  intro probe
  obtain ⟨found, ec⟩ := probe
  cases ec with
  | some m => trivial
  | none =>
    cases found with
    | false => trivial
    | true => intro entries; cases entries <;> trivial

theorem construct_lockFree : LockFree construct := by
  intro probe
  obtain ⟨found, ec⟩ := probe
  cases ec with
  | some m => trivial
  | none =>
    cases found with
    | false =>
      intro ec
      cases ec with
      | some m => trivial
      | none => exact fun _ _ => trivial
    | true =>
      intro entries
      cases entries with
      | error m => trivial
      | ok entries => exact fun _ _ => trivial

/-- Every operation but a `Put` that passes the hash check takes one lock at
most, and gives it back. -/
theorem prog_disciplined {sha256 : Bytes → Digest} {o : StoreOp}
    (ho : ∀ id data, o = .put id data → sha256 data ≠ id.digest) (uuid : UuidV4) :
    Disciplined none (o.prog sha256 uuid) := by
  cases o with
  | put id data =>
    show Disciplined none (put sha256 id data uuid)
    rw [put, if_pos (ho id data rfl)]
    rfl
  | get id => exact (getLocked_lockFree sha256 id).disciplined_guarded _
  | verifyOnly id => exact ((getLocked_lockFree sha256 id).disciplined_guarded _).map _
  | delete id => exact (deleteLocked_lockFree id).disciplined_guarded _
  | existsChunk id => exact ⟨rfl, fun _ => ⟨rfl, rfl⟩⟩
  | getStats => exact fun _ _ _ => rfl
  | listAllChunkIds => exact listAllChunkIds_lockFree.disciplined
  | construct => exact construct_lockFree.disciplined

end Discipline

section Deadlock

variable {T : Type} [DecidableEq T] {sha256 : Bytes → Digest} {allowed : StoreOp → Prop}

/-- No thread asks for a lock that it holds, and while an operation has not
returned some thread can take a step. -/
def DeadlockFree (sys : System (Fin 256) Call Call.Ret Store StoreOp StoreOp.Ret)
    (c : StoreConfig T) : Prop :=
  (∀ t, ¬ RequestsHeld c t) ∧ ((∃ t, c.thread t ≠ none) → ∃ t c', TStep sys t c c')

/-- A `Put` that passes the hash check gets its lock and asks for it again. -/
theorem put_requestsHeld (pol : Policy) {id : ChunkId} {data : Bytes}
    (hsha : sha256 data = id.digest) (hput : allowed (.put id data)) (uuid : UuidV4) (s : Store)
    (t : T) :
    ∃ c : StoreConfig T, Reachable (storeSystem sha256 pol allowed false) s c ∧
      RequestsHeld c t := by
  let o : StoreOp := .put id data
  let body : StoreProg (Result Unit) :=
    putLocked id data uuid >>= fun r => .unlock (lockFor id) (.ret r)
  have hprog : o.prog sha256 uuid = .lock (lockFor id) body := by
    show put sha256 id data uuid = _
    rw [put, if_neg (by simpa using hsha)]
    rfl
  let c₁ : StoreConfig T := (Config.init s).start t o (.lock (lockFor id) body)
  let c₂ : StoreConfig T := (c₁.resume t 0 o body).setOwner (lockFor id) (some (t, 1))
  have h₁ : Step (storeSystem sha256 pol allowed false) (Config.init s) c₁ :=
    .invoke rfl ⟨hput, uuid, hprog.symm⟩
  have hth : c₁.thread t = some ⟨0, o, .lock (lockFor id) body⟩ := by
    simp [c₁, Config.init]
  have h₂ : TStep (storeSystem sha256 pol allowed false) t c₁ c₂ := .lock hth rfl
  -- `Exists` is the first thing the locked part does
  obtain ⟨k, hk⟩ : ∃ k, body = .lock (lockFor id) k := ⟨_, rfl⟩
  refine ⟨c₂, .tail (.tail .refl h₁) (.thread h₂), 0, o, lockFor id, k, 1, ?_, ?_⟩
  · rw [← hk]; exact resume_self c₁ t 0 o body
  · simp [c₂, Config.setOwner]

/-- **With a plain mutex** the threads are free of deadlock in every reachable
state exactly when no `Put` that passes the hash check is ever called. -/
theorem deadlockFree_iff [Nonempty T] (sha256 : Bytes → Digest) (pol : Policy)
    (allowed : StoreOp → Prop) (s : Store) :
    (∀ c : StoreConfig T, Reachable (storeSystem sha256 pol allowed false) s c →
      DeadlockFree (storeSystem sha256 pol allowed false) c) ↔
    ∀ id data, allowed (.put id data) → sha256 data ≠ id.digest := by
  constructor
  · intro hfree id data hput hsha
    obtain ⟨t⟩ := ‹Nonempty T›
    obtain ⟨c, hc, hreq⟩ := put_requestsHeld pol hsha hput default s t
    exact (hfree c hc).1 t hreq
  · intro hno c hc
    have hm : LocksMatch c := by
      refine hc.locksMatch rfl ?_
      intro o p hp
      obtain ⟨ho, uuid, rfl⟩ := hp
      exact prog_disciplined (fun id data heq => hno id data (heq ▸ ho)) uuid
    refine ⟨hm.not_requestsHeld, ?_⟩
    intro hrunning
    obtain ⟨t, ht⟩ := hrunning
    exact hm.progress (sem_total pol) ht

end Deadlock

theorem deadlockFree_iff_readers :
    (∀ c : StoreConfig Bool, Reachable (storeSystem knownSha256 .noFault
        (fun o => o = .get .ofEmpty ∨ o = .delete .ofEmpty) false) Store.empty c →
      DeadlockFree (storeSystem knownSha256 .noFault
        (fun o => o = .get .ofEmpty ∨ o = .delete .ofEmpty) false) c) ∧
    ¬ ∀ c : StoreConfig Bool, Reachable (storeSystem knownSha256 .noFault
        StoreOp.IsMethod false) Store.empty c →
      DeadlockFree (storeSystem knownSha256 .noFault StoreOp.IsMethod false) c := by
  constructor
  · rw [deadlockFree_iff]
    rintro id data (h | h) <;> cases h
  · rw [deadlockFree_iff]
    intro h
    exact h .ofEmpty [] trivial rfl

/-- One thread uploads the empty chunk to an empty store, and never returns. -/
theorem put_empty_deadlocks :
    ∃ c : StoreConfig Unit, Reachable (storeSystem knownSha256 .noFault StoreOp.IsMethod false)
        Store.empty c ∧ RequestsHeld c () ∧
      ¬ ∃ t c', TStep (storeSystem knownSha256 .noFault StoreOp.IsMethod false) t c c' := by
  have hsha : knownSha256 [] = ChunkId.ofEmpty.digest := rfl
  have hput : StoreOp.IsMethod (.put .ofEmpty []) := trivial
  obtain ⟨c, hc, hreq⟩ := put_requestsHeld .noFault hsha hput default Store.empty ()
  refine ⟨c, hc, hreq, ?_⟩
  obtain ⟨n, o, l, k, d, hth, hown⟩ := hreq
  intro hstep
  obtain ⟨t, c', h⟩ := hstep
  cases h with
  | lock h hfree => rw [hth] at h; cases h; rw [hown] at hfree; cases hfree
  | relock _ hre _ => cases hre
  | unlock h _ => rw [hth] at h; cases h
  | call h _ => rw [hth] at h; cases h
  | ret h => rw [hth] at h; cases h

end NimbusFs.StorageNode
