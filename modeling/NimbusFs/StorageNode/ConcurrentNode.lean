import NimbusFs.Lib.Progress
import NimbusFs.StorageNode.RoundTrip

/-! # Requests on many threads

The server runs the handlers of many requests at once, over one store. Each handler
is inlined down to the file-system calls and locks of its store operation, so that the
steps of all requests interleave. Every handler asks its store at most once, and what
it still does after that is to write to its client. So a request takes effect as a
whole where its store operation does: whatever the threads do, the answers are those
of some order of the requests, each handled alone over the reference map. -/
namespace NimbusFs.StorageNode

open NimbusFs.Common Lib

/-! ## A handler and its store in one program -/

/-- What a handler asks of anyone but its store. -/
inductive EnvCall
  | write (m : GetChunkResponse)
  | getChunk (address correlationId : List Char) (request : GetChunkRequest)
  | generateUuidV4
  | withCorrelationId (correlationId : List Char)

/-- What a `Write` returns is up to the client of the request, see `Request`. -/
abbrev EnvCall.Ret : EnvCall → Type
  | .write _ => Unit
  | .getChunk _ _ _ => Reply
  | .generateUuidV4 => UuidV4
  | .withCorrelationId _ => Unit

/-- The steps of the store, with its locks, and those of the environment. -/
abbrev NodeProg := Prog (Fin 256) (Call ⊕ EnvCall) (Sum.elim Call.Ret EnvCall.Ret)

/-- What was written to a client, each message with what `Write` returned. -/
abbrev Written := List (GetChunkResponse × Bool)

/-- A request as a thread of the server serves it: `client n` is what the `Write` after
`n` others returns. -/
structure Request where
  context : ServerContext
  rpc : Rpc
  client : Nat → Bool

abbrev Request.Ret (q : Request) : Type := q.rpc.Ret × Written

section Inline

variable {α : Type} (sha256 : Bytes → Digest) (uuid : UuidV4) (client : Nat → Bool)

/-- A handler with the program of its store operation in place of the call; `uuid` is
what `GenerateUuidV4` returns there. What it wrote so far goes along. -/
def inlined : ServiceProg α → Written → NodeProg (α × Written)
  | .ret a, w => .ret (a, w)
  | .lock l _, _ => l.elim
  | .unlock l _, _ => l.elim
  | .call (.store o) k, w => (o.prog sha256 uuid).lift >>= fun r => inlined (k r) w
  | .call (.write m) k, w =>
    Prog.ask (.write m) fun _ => inlined (k (client w.length)) (w ++ [(m, client w.length)])
  | .call (.getChunk address cid request) k, w =>
    Prog.ask (.getChunk address cid request) fun reply => inlined (k reply) w
  | .call .generateUuidV4 k, w => Prog.ask .generateUuidV4 fun id => inlined (k id) w
  | .call (.withCorrelationId cid) k, w =>
    Prog.ask (.withCorrelationId cid) fun _ => inlined (k ()) w

end Inline

/-- Peers reply as `allowed` says; the rest of the environment is free. -/
def envAnswers (allowed : Reply → Prop) : (e : EnvCall) → e.Ret → Prop
  | .getChunk _ _ _, reply => allowed reply
  | _, _ => True

/-- Threads that serve the requests in `served`, with a lock that may be taken again
or a plain one. -/
def nodeSystem (sha256 : Bytes → Digest) (pol : Policy) (service : Service)
    (allowed : Reply → Prop) (served : Request → Prop) (reentrant : Bool) :
    System (Fin 256) (Call ⊕ EnvCall) (Sum.elim Call.Ret EnvCall.Ret) Store Request Request.Ret where
  impl q p := served q ∧
    ∃ uuid, p = inlined sha256 uuid q.client (q.rpc.handler service q.context) []
  sem := withEnv pol.sem (envAnswers allowed)
  crash _ _ := False
  reentrant := reentrant

/-- A state of the server. -/
abbrev NodeConfig (T : Type) :=
  Config T (Fin 256) (Call ⊕ EnvCall) (Sum.elim Call.Ret EnvCall.Ret) Store Request Request.Ret

/-! ## One request at a time -/

/-- The client answered as it does. -/
def Answered (client : Nat → Bool) (w : Written) : Prop :=
  w.map Prod.snd = (List.range w.length).map client

/-- The store as a map, as a chunk store of a handler. -/
def mapStore (sha256 : Bytes → Digest) (pol : Policy) : ChunkStoreSem ChunkMap :=
  fun o m r m' => MapSpec sha256 pol m o r m'

/-- The whole request handled alone, over a map. -/
def AtomicRequest (sha256 : Bytes → Digest) (pol : Policy) (service : Service)
    (allowed : Reply → Prop) (m : ChunkMap) (q : Request) (x : q.Ret) (m' : ChunkMap) : Prop :=
  RpcRun (mapStore sha256 pol) (repliesIn allowed) service q.context q.rpc m x.1 x.2 m' ∧
    Answered q.client x.2

theorem Answered.snoc {client : Nat → Bool} {w : Written} (h : Answered client w)
    (m : GetChunkResponse) : Answered client (w ++ [(m, client w.length)]) := by
  simp only [Answered, List.map_append, List.length_append, List.map_cons, List.map_nil,
    List.length_cons, List.length_nil, Nat.zero_add, List.range_succ] at h ⊢
  rw [h]

/-! ## After the store was asked -/

section Handlers

variable {α : Type} {client : Nat → Bool} {x : α × Written} {p : ServiceProg α} {w : Written}

/-- Nothing is left but to write, and the result will be `x`. -/
def Finishes (client : Nat → Bool) (x : α × Written) : ServiceProg α → Written → Prop
  | .ret a, w => x = (a, w)
  | .call (.write m) k, w =>
    Finishes client x (k (client w.length)) (w ++ [(m, client w.length)])
  | _, _ => False

/-- The store is asked at most once, for something in `plan`, and then nothing is left
but to write. -/
def StoreOnce (plan : StoreOp → Prop) (client : Nat → Bool) : ServiceProg α → Prop
  | .ret _ => True
  | .lock _ _ => False
  | .unlock _ _ => False
  | .call (.store o) k => plan o ∧ ∀ r w, ∃ x, Finishes client x (k r) w
  | .call (.write _) k => ∀ r, StoreOnce plan client (k r)
  | .call (.getChunk _ _ _) k => ∀ r, StoreOnce plan client (k r)
  | .call .generateUuidV4 k => ∀ r, StoreOnce plan client (k r)
  | .call (.withCorrelationId _) k => ∀ r, StoreOnce plan client (k r)

theorem Finishes.concludes (sha256 : Bytes → Digest) (uuid : UuidV4)
    (h : Finishes client x p w) : Concludes x (inlined sha256 uuid client p w) := by
  induction p generalizing w with
  | ret a => exact h.symm
  | lock l k ih => exact h.elim
  | unlock l k ih => exact h.elim
  | call c k ih =>
    cases c with
    | write m => exact fun _ => ih _ h
    | store o => exact h.elim
    | getChunk address cid request => exact h.elim
    | generateUuidV4 => exact h.elim
    | withCorrelationId cid => exact h.elim

theorem Finishes.runs {S : Type} {chunkStore : ChunkStoreSem S} {peer : PeerSem S}
    (h : Finishes client x p w) (hw : Answered client w) (s : S) :
    p.Runs (serviceSem chunkStore peer) ⟨s, w⟩ x.1 ⟨s, x.2⟩ ∧ Answered client x.2 := by
  induction p generalizing w with
  | ret a =>
    obtain rfl : x = (a, w) := h
    exact ⟨⟨rfl, rfl⟩, hw⟩
  | lock l k ih => exact h.elim
  | unlock l k ih => exact h.elim
  | call c k ih =>
    cases c with
    | write m =>
      obtain ⟨hrun, hx⟩ := ih _ h (hw.snoc m)
      exact ⟨⟨client w.length, _, rfl, hrun⟩, hx⟩
    | store o => exact h.elim
    | getChunk address cid request => exact h.elim
    | generateUuidV4 => exact h.elim
    | withCorrelationId cid => exact h.elim

/-! ## The handlers ask once -/

variable {plan : StoreOp → Prop}

theorem StoreOnce.openScope_bind {context : ServerContext} {f : Unit → ServiceProg α}
    (h : StoreOnce plan client (f ())) : StoreOnce plan client (openScope context >>= f) := by
  unfold openScope getCorrelationId
  split
  · exact fun _ => h
  · exact fun _ _ => h

theorem storeOnce_follow {β : Type} {x : Except α β} {step : β → StoreStep α}
    (hplan : ∀ b, x = .ok b → plan (step b).op) : StoreOnce plan client (follow (x.map step)) := by
  cases x with
  | error a => trivial
  | ok b => exact ⟨hplan b rfl, fun r w => ⟨_, rfl⟩⟩

/-- The loop over the frames comes to an end. -/
theorem finishes_sendFrames (data : Bytes) (offset : Nat) (a : α) (w : Written) :
    ∃ x, Finishes client x (sendFrames data offset >>= fun _ => .ret a) w := by
  induction hm : data.length - offset using Nat.strong_induction_on generalizing offset w with
  | _ m ih =>
    by_cases hlt : offset < data.length
    · rw [sendFrames_step hlt]
      have hpos := kStreamFrameSizeBytes_pos
      have hless : data.length - (offset + min kStreamFrameSizeBytes (data.length - offset)) < m := by
        omega
      cases hc : client w.length with
      | true =>
        obtain ⟨x, hx⟩ := ih _ hless _ (w ++ [(_, true)]) rfl
        refine ⟨x, ?_⟩
        simp only [Prog.call_bind, Finishes, hc, if_true]
        exact hx
      | false =>
        simp only [Prog.call_bind, Finishes, hc]
        exact ⟨_, rfl⟩
    · rw [sendFrames_done hlt]
      exact ⟨_, rfl⟩

theorem finishes_sendResult (getRes : Result Bytes) (a : α) (w : Written) :
    ∃ x, Finishes client x (sendResult getRes >>= fun _ => .ret a) w := by
  cases getRes with
  | error e => exact ⟨_, rfl⟩
  | ok data => exact finishes_sendFrames data 0 a _

/-- Every handler asks its store for what is planned, at most once. -/
theorem storeOnce_handler (service : Service) (context : ServerContext) (rpc : Rpc) :
    StoreOnce (Planned service (fun _ => True) rpc) client (rpc.handler service context) := by
  cases rpc with
  | putChunk reader =>
    show StoreOnce _ client (putChunk service context reader)
    rw [putChunk_eq]
    exact StoreOnce.openScope_bind (storeOnce_follow fun x hx => .putChunk hx)
  | getChunk request =>
    show StoreOnce _ client (getChunk service context request)
    rw [getChunk_eq]
    refine StoreOnce.openScope_bind ?_
    split
    · trivial
    · rename_i id hplan
      exact ⟨.getChunk hplan, fun getRes w => finishes_sendResult getRes Status.OK w⟩
  | verifyChunk request =>
    show StoreOnce _ client (verifyChunk service context request)
    rw [verifyChunk_eq]
    refine StoreOnce.openScope_bind ?_
    unfold verifyChunkPlan
    split
    · trivial
    · rename_i id hplan
      exact ⟨.verifyChunk hplan, fun r w => ⟨_, rfl⟩⟩
  | deleteChunk request =>
    show StoreOnce _ client (deleteChunk service context request)
    rw [deleteChunk_eq]
    exact StoreOnce.openScope_bind (storeOnce_follow fun id hid => .deleteChunk hid)
  | replicateChunk request =>
    show StoreOnce _ client (replicateChunk service context request)
    rw [replicateChunk_eq]
    refine StoreOnce.openScope_bind ?_
    split
    · trivial
    · rename_i id hread
      have hfollow : ∀ reply, StoreOnce (Planned service (fun _ => True) (.replicateChunk request))
          client (follow ((replicatePlan service id reply).map (putStep replicateAnswer))) :=
        fun reply => storeOnce_follow fun x hx => .replicateChunk hread trivial hx
      unfold getCorrelationId
      split
      · exact hfollow
      · exact fun _ => hfollow
  | getNodeStats request =>
    show StoreOnce _ client (getNodeStats service context request)
    rw [getNodeStats_eq]
    refine StoreOnce.openScope_bind ?_
    unfold getNodeStatsPlan
    split
    · trivial
    · exact ⟨.getNodeStats, fun r w => ⟨_, rfl⟩⟩

end Handlers

/-! ## Every request takes effect once -/

section Linearizable

variable {sha256 : Bytes → Digest} {pol : Policy} {service : Service} {allowed : Reply → Prop}

/-- By induction on the handler: up to its store operation nothing happens to the
chunks, there the request takes effect, and what follows only writes. -/
theorem inlined_sim {q : Request} {p : ServiceProg q.rpc.Ret} {w : Written} (uuid : UuidV4)
    {plan : StoreOp → Prop} (hp : StoreOnce plan q.client p) (hw : Answered q.client w)
    (hatomic : ∀ m x m', p.Runs (serviceSem (mapStore sha256 pol) (repliesIn allowed)) ⟨m, w⟩
      x.1 ⟨m', x.2⟩ → Answered q.client x.2 → AtomicRequest sha256 pol service allowed m q x m')
    {s : Store} (hs : DiskInv sha256 s.disk) :
    Sim (storeProtocol sha256) (withEnv pol.sem (envAnswers allowed))
      (linUpd (AtomicRequest sha256 pol service allowed) view q)
      (linPost (AtomicRequest sha256 pol service allowed) view q)
      (inlined sha256 uuid q.client p w) (fun _ => 0) none s := by
  have hguar : ∀ s, Guar (fun _ => 0) s s := fun _ => ⟨fun _ h => h, fun _ => .inl rfl⟩
  have hupd : ∀ s, linUpd (AtomicRequest sha256 pol service allowed) view q s s none none :=
    fun _ => .inl ⟨rfl, rfl⟩
  induction p generalizing w s with
  | ret a =>
    intro s₁ _ _
    exact ⟨fun _ => rfl, .inr ⟨rfl, hatomic _ (a, w) _ ⟨rfl, rfl⟩ hw⟩⟩
  | lock l k ih => exact l.elim
  | unlock l k ih => exact l.elim
  | call c k ih =>
    cases c with
    | store o =>
      choose fin hfin using fun r => hp.2 r w
      refine LinSim.stage (ρ := fin) (prog_linSim sha256 pol uuid o) hguar
        (fun r => (hfin r).concludes sha256 uuid) (fun m r m' hspec => ?_) hs
      obtain ⟨hrun, hanswered⟩ := (hfin r).runs hw m'
      exact hatomic m (fin r) m' ⟨r, ⟨m', w⟩, ⟨hspec, rfl⟩, hrun⟩ hanswered
    | write msg =>
      refine Sim.ask hguar hupd fun _ _ s₁ _ hs₁ =>
        ih (q.client w.length) (hp _) (hw.snoc msg) (fun m x m' hrun => ?_) hs₁
      exact hatomic m x m' ⟨_, _, rfl, hrun⟩
    | getChunk address cid request =>
      refine Sim.ask hguar hupd fun reply hreply s₁ _ hs₁ =>
        ih reply (hp reply) hw (fun m x m' hrun => ?_) hs₁
      exact hatomic m x m' ⟨reply, _, ⟨⟨hreply, rfl⟩, rfl⟩, hrun⟩
    | generateUuidV4 =>
      refine Sim.ask hguar hupd fun id _ s₁ _ hs₁ =>
        ih id (hp id) hw (fun m x m' hrun => ?_) hs₁
      exact hatomic m x m' ⟨id, _, rfl, hrun⟩
    | withCorrelationId cid =>
      refine Sim.ask hguar hupd fun _ _ s₁ _ hs₁ =>
        ih () (hp ()) hw (fun m x m' hrun => ?_) hs₁
      exact hatomic m x m' ⟨(), _, rfl, hrun⟩

variable {served : Request → Prop} {reentrant : Bool}

theorem nodeSystem_linSim (q : Request) (p : NodeProg q.Ret)
    (hp : (nodeSystem sha256 pol service allowed served reentrant).impl q p) :
    LinSim (storeProtocol sha256) (nodeSystem sha256 pol service allowed served reentrant).sem
      (AtomicRequest sha256 pol service allowed) view p := by
  obtain ⟨_, uuid, rfl⟩ := hp
  intro s hs
  refine inlined_sim (w := []) uuid (storeOnce_handler service q.context q.rpc) rfl ?_ hs
  exact fun m x m' hrun hanswered => ⟨hrun, hanswered⟩

variable {T : Type} [DecidableEq T] {s : Store} {c : NodeConfig T}

/-- The store's files stay in order while requests are served. -/
theorem node_reachable_inv (hinv : DiskInv sha256 s.disk)
    (h : Reachable (nodeSystem sha256 pol service allowed served reentrant) s c) :
    DiskInv sha256 c.state.disk := by
  obtain ⟨_, _, hl⟩ := h.exists_linInv nodeSystem_linSim (fun _ _ hc => hc) hinv
  exact hl.inv

/-- **Requests are atomic, whatever the threads do.** Any number of threads serve any
requests over one store whose files are right at the start, with either kind of lock, any
faults of the file system, any replies of the peers and clients that break off anywhere:
the answers and the messages written are those of some order of the requests, each handled
alone over the map of the chunks, and a request that ended before another began comes
first in it. The map leaves the counters in the answers of `GetNodeStats` free. -/
theorem node_linearizable (hinv : DiskInv sha256 s.disk)
    (h : Reachable (nodeSystem sha256 pol service allowed served reentrant) s c) :
    Linearizable (AtomicRequest sha256 pol service allowed) (view s) c.hist :=
  h.linearizable nodeSystem_linSim (fun _ _ hc => hc) hinv

end Linearizable

/-- Calls that do not go wrong, and an environment with the plainest answers. -/
def plainStep : (c : Call ⊕ EnvCall) → Store → Sum.elim Call.Ret EnvCall.Ret c × Store
  | .inl c, s => c.exec .ok s
  | .inr (.write _), s => ((), s)
  | .inr (.getChunk _ _ _), s => (⟨[], Status.OK⟩, s)
  | .inr .generateUuidV4, s => ((default : UuidV4), s)
  | .inr (.withCorrelationId _), s => ((), s)

theorem plainStep_sem (pol : Policy) (c : Call ⊕ EnvCall) (s : Store) :
    withEnv pol.sem (envAnswers fun _ => True) c s (plainStep c s).1 (plainStep c s).2 := by
  cases c with
  | inl c => exact pol.sem_ok c s
  | inr e => cases e <;> exact ⟨trivial, rfl⟩

/-- An upload of `abc`, without a correlation id. -/
def uploadAbc : Request := ⟨⟨[]⟩, .putChunk abcUpload, fun _ => true⟩

/-- A download of `abc` by a client that takes every message. -/
def downloadAbc : Request :=
  ⟨⟨[]⟩, .getChunk ⟨kCurrentProtocolVersion, ChunkId.ofAbc.hex⟩, fun _ => true⟩

/-- The program of a request on a server that keeps chunks of at most three bytes. -/
abbrev smallProg (q : Request) : NodeProg q.Ret :=
  inlined knownSha256 default q.client (q.rpc.handler { maxChunkBytes := 3 } q.context) []

theorem smallProg_uploadAbc :
    (smallProg uploadAbc).runsAlone plainStep (fun _ => 0) Store.empty ∧
      ((smallProg uploadAbc).run plainStep Store.empty).1 = (putChunkAnswer (.ok ()), []) :=
  ⟨by decide +kernel, rfl⟩

theorem requestedId_uploadAbc : uploadAbc.rpc.requestedId = some .ofAbc := by
  simp [uploadAbc, Rpc.requestedId, abcUpload, abcFirst, ChunkId.parse_hex, Except.toOption]

/-- A download is under way while `abc` is uploaded. -/
theorem node_linearizable_abc :
    ∃ c : NodeConfig Bool, Reachable (nodeSystem knownSha256 .noFault { maxChunkBytes := 3 }
        (fun _ => True) (fun _ => True) true) Store.empty c ∧
      c.hist = [.inv 0 true downloadAbc, .inv 1 false uploadAbc,
        .res 1 false uploadAbc (putChunkAnswer (.ok ()), [])] ∧
      Linearizable (AtomicRequest knownSha256 .noFault { maxChunkBytes := 3 } fun _ => True)
        (view Store.empty) c.hist := by
  let sys := nodeSystem knownSha256 .noFault { maxChunkBytes := 3 } (fun _ => True)
    (fun _ => True) true
  have himpl : ∀ q, sys.impl q (smallProg q) := fun q => ⟨trivial, default, rfl⟩
  have hstart : Reachable sys Store.empty
      ((Config.init Store.empty : NodeConfig Bool).start true downloadAbc (smallProg downloadAbc)) :=
    Relation.ReflTransGen.refl.tail (.invoke rfl (himpl downloadAbc))
  obtain ⟨hrun, hres⟩ := smallProg_uploadAbc
  obtain ⟨c, hc, _, _, hhist⟩ := hstart.invoke_alone (t := false) rfl (plainStep_sem .noFault) rfl
    (fun _ => rfl) (himpl uploadAbc) hrun
  refine ⟨c, hc, hhist.trans ?_, node_linearizable Disk.isEmpty_empty.inv hc⟩
  exact congrArg (fun x => [Event.inv 0 true downloadAbc, Event.inv 1 false uploadAbc,
    Event.res 1 false uploadAbc x]) hres

/-! ## Every request is answered -/

section Completion

variable {sha256 : Bytes → Digest} {id : ChunkId} {data : Bytes}

theorem putFinish_lockFree (id : ChunkId) (data : Bytes) : LockFree (putFinish id data) := by
  intro dirFd
  cases dirFd with
  | none => exact fun _ _ => trivial
  | some fd => exact fun _ _ _ _ => trivial

theorem putFsync_lockFree (id : ChunkId) (data : Bytes) (tmpPath : Path) :
    LockFree (putFsync id data tmpPath) := by
  intro synced
  cases synced with
  | false => exact fun _ _ => trivial
  | true =>
    intro _ ec
    cases ec with
    | none => exact putFinish_lockFree id data
    | some e => exact fun _ => trivial

theorem putNew_lockFree (id : ChunkId) (data : Bytes) (uuid : UuidV4) :
    LockFree (putNew id data uuid) := by
  intro ec
  cases ec with
  | some e => trivial
  | none =>
    intro fd
    cases fd with
    | none => trivial
    | some fd =>
      show LockFree (putWrite id data fd)
      unfold putWrite
      split
      · exact putFsync_lockFree id data fd
      · intro written
        show LockFree (if written = some data.length then _ else _)
        split
        · exact putFsync_lockFree id data fd
        · exact fun _ _ => trivial

/-- `Put` takes its lock, takes it again for `Exists`, and gives both back. -/
theorem putGuarded_orderly (id : ChunkId) (data : Bytes) (uuid : UuidV4) :
    Orderly true (fun _ => 0) (Prog.guarded (lockFor id) (putLocked id data uuid)) := by
  let l := lockFor id
  have hrest : ∀ found : Bool, LockFree
      (if found then return .ok () else putNew id data uuid : StoreProg (Result Unit)) := by
    intro found
    cases found with
    | true => trivial
    | false => exact putNew_lockFree id data uuid
  have hlast : ∀ r : Result Unit, Orderly true (Function.update (fun _ => 0) l 1)
      (.unlock l (.ret r) : StoreProg (Result Unit)) := by
    intro r
    refine ⟨by simp, fun l' => ?_⟩
    by_cases hl : l' = l
    · simp [hl]
    · simp [hl]
  refine ⟨fun _ _ => rfl, fun _ => rfl, fun l' hl => Function.update_of_ne hl _ _, fun _ => rfl,
    fun probe => ⟨by simp, ?_⟩⟩
  simp only [Function.update_idem, Function.update_self, Nat.zero_add, Nat.add_sub_cancel]
  exact (hrest _).orderly_bind hlast

theorem prog_orderly {re : Bool} {o : StoreOp}
    (ho : re = true ∨ ∀ id data, o = .put id data → sha256 data ≠ id.digest) (uuid : UuidV4) :
    Orderly re (fun _ => 0) (o.prog sha256 uuid) := by
  have hplain : (∀ id data, o = .put id data → sha256 data ≠ id.digest) →
      Orderly re (fun _ => 0) (o.prog sha256 uuid) := by
    intro hno
    have hheld : heldOnly (none : Option (Fin 256)) = fun _ => 0 := rfl
    rw [← hheld]
    exact (prog_disciplined hno uuid).orderly
  by_cases hno : ∀ id data, o = .put id data → sha256 data ≠ id.digest
  · exact hplain hno
  · obtain rfl := ho.resolve_right hno
    push Not at hno
    obtain ⟨id, data, rfl, hsha⟩ := hno
    show Orderly true _ (put sha256 id data uuid)
    rw [put, if_neg (by simpa using hsha)]
    exact putGuarded_orderly id data uuid

theorem inlined_orderly {α : Type} {re : Bool} {client : Nat → Bool} {plan : StoreOp → Prop}
    {p : ServiceProg α} {w : Written} (uuid : UuidV4) (hp : StoreOnce plan client p)
    (hplan : ∀ o, plan o → re = true ∨ ∀ id data, o = .put id data → sha256 data ≠ id.digest) :
    Orderly re (fun _ => 0) (inlined sha256 uuid client p w) := by
  induction p generalizing w with
  | ret a => exact fun _ => rfl
  | lock l k ih => exact l.elim
  | unlock l k ih => exact l.elim
  | call c k ih =>
    cases c with
    | store o =>
      refine (prog_orderly (hplan o hp.1) uuid).lift.bind fun r => ?_
      obtain ⟨x, hx⟩ := hp.2 r w
      exact (hx.concludes sha256 uuid).orderly
    | write msg => exact fun _ => ih _ (hp _)
    | getChunk address cid request => exact fun reply => ih reply (hp reply)
    | generateUuidV4 => exact fun uuid => ih uuid (hp uuid)
    | withCorrelationId cid => exact fun _ => ih () (hp ())

variable {pol : Policy} {service : Service} {allowed : Reply → Prop} {served : Request → Prop}
variable {reentrant : Bool}

/-- The requests can all be served with this kind of lock: it may be taken again, or
no upload that passes the hash check is among them. -/
def LockSuits (sha256 : Bytes → Digest) (service : Service) (served : Request → Prop)
    (reentrant : Bool) : Prop :=
  reentrant = true ∨ ∀ q, served q → ∀ id data,
    Planned service (fun _ => True) q.rpc (.put id data) → sha256 data ≠ id.digest

theorem nodeSystem_orderly (hlock : LockSuits sha256 service served reentrant) (q : Request)
    (p : NodeProg q.Ret)
    (hp : (nodeSystem sha256 pol service allowed served reentrant).impl q p) :
    Orderly reentrant (fun _ => 0) p := by
  obtain ⟨hq, uuid, rfl⟩ := hp
  refine inlined_orderly uuid (storeOnce_handler service q.context q.rpc) fun o ho => ?_
  rcases hlock with hre | hno
  · exact .inl hre
  · exact .inr fun id data heq => hno q hq id data (heq ▸ ho)

variable {T : Type} [DecidableEq T] {s : Store} {c : NodeConfig T}

end Completion

end NimbusFs.StorageNode
