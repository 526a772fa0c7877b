import NimbusFs.StorageNode.Concurrency
import NimbusFs.StorageNode.Service

/-! # A node: the service over a chunk store

A handler runs over a chunk store and the nodes it may ask, both given as
relations on a world, with any answers of the stream it writes to. Each handler
makes one call to the store at most: its plan says which one, or what it answers
before. A node starts on an empty data root; it serves requests one after the
other, or many at a time, whose calls then interleave in the store. -/
namespace NimbusFs.StorageNode

open NimbusFs.Common Lib

/-! ## Runs of a handler -/

/-- The world of a handler, and what it wrote to the stream of its client, each
message with what `Write` returned. -/
structure NodeState (S : Type) where
  world : S
  written : List (GetChunkResponse × Bool)

/-- An implementation of `IChunkStore`. -/
abbrev ChunkStoreSem (S : Type) := (o : StoreOp) → S → o.Ret → S → Prop

/-- What the nodes at each address reply to `GetChunk`. -/
abbrev PeerSem (S : Type) :=
  (address correlationId : List Char) → GetChunkRequest → S → Reply → S → Prop

/-- The meaning of the calls of a handler. -/
def serviceSem {S : Type} (chunkStore : ChunkStoreSem S) (peer : PeerSem S) :
    (c : ServiceCall) → NodeState S → c.Ret → NodeState S → Prop
  | .store o, n, r, n' => chunkStore o n.world r n'.world ∧ n'.written = n.written
  | .write m, n, ok, n' => n' = { n with written := n.written ++ [(m, ok)] }
  | .getChunk address cid request, n, reply, n' =>
    peer address cid request n.world reply n'.world ∧ n'.written = n.written
  | .generateUuidV4, n, _, n' => n' = n
  | .withCorrelationId _, n, _, n' => n' = n

/-- `LocalDiskChunkStore`, one operation at a time. -/
def localStore (sha256 : Bytes → Digest) (pol : Policy) : ChunkStoreSem Store :=
  fun o s r t => ∃ uuid, (o.prog sha256 uuid).Runs pol.sem s r t

/-- Peers outside of the world that send any of the replies in `allowed`. -/
def repliesIn {S : Type} (allowed : Reply → Prop) : PeerSem S :=
  fun _ _ _ s reply t => allowed reply ∧ t = s

/-- Peers that may lie, break off or not answer at all. -/
def anyReply {S : Type} : PeerSem S := repliesIn fun _ => True

theorem anyReply_total {S : Type} (address cid : List Char) (request : GetChunkRequest) (s : S) :
    ∃ reply t, anyReply address cid request s reply t :=
  ⟨⟨[], Status.OK⟩, s, trivial, rfl⟩

/-- One request from start to end. -/
def RpcRun {S : Type} (chunkStore : ChunkStoreSem S) (peer : PeerSem S) (service : Service)
    (context : ServerContext) (rpc : Rpc) (s : S) (r : rpc.Ret)
    (written : List (GetChunkResponse × Bool)) (t : S) : Prop :=
  (rpc.handler service context).Runs (serviceSem chunkStore peer) ⟨s, []⟩ r ⟨t, written⟩

theorem localStore_total (sha256 : Bytes → Digest) (pol : Policy) (o : StoreOp) (s : Store) :
    ∃ r t, localStore sha256 pol o s r t := by
  obtain ⟨r, t, h⟩ := Prog.exists_runs (sem_total pol) (o.prog sha256 default) s
  exact ⟨r, t, default, h⟩

/-- The calls of a handler whose client takes every message. -/
def openStreamSem {S : Type} (chunkStore : ChunkStoreSem S) (peer : PeerSem S) (c : ServiceCall)
    (n : NodeState S) (r : c.Ret) (n' : NodeState S) : Prop :=
  serviceSem chunkStore peer c n r n' ∧
    ((∀ x ∈ n.written, x.2 = true) → ∀ x ∈ n'.written, x.2 = true)

theorem openStreamSem_total {S : Type} {chunkStore : ChunkStoreSem S} {peer : PeerSem S}
    (hstore : ∀ o s, ∃ r t, chunkStore o s r t)
    (hpeer : ∀ address cid request s, ∃ reply t, peer address cid request s reply t)
    (c : ServiceCall) (n : NodeState S) : ∃ r n', openStreamSem chunkStore peer c n r n' := by
  cases c with
  | store o =>
    obtain ⟨r, t, h⟩ := hstore o n.world
    exact ⟨r, ⟨t, n.written⟩, ⟨h, rfl⟩, fun hw => hw⟩
  | write m =>
    refine ⟨true, _, rfl, fun hw x hx => ?_⟩
    rcases List.mem_append.mp hx with hx | hx
    · exact hw x hx
    · rw [List.mem_singleton.mp hx]
  | getChunk address cid request =>
    obtain ⟨reply, t, h⟩ := hpeer address cid request n.world
    exact ⟨reply, ⟨t, n.written⟩, ⟨h, rfl⟩, fun hw => hw⟩
  | generateUuidV4 => exact ⟨default, n, rfl, fun hw => hw⟩
  | withCorrelationId cid => exact ⟨(), n, rfl, fun hw => hw⟩

/-- Every request is answered, when the store and the peers answer, also with a
client that takes every message. -/
theorem exists_rpcRun {S : Type} {chunkStore : ChunkStoreSem S} {peer : PeerSem S}
    (hstore : ∀ o s, ∃ r t, chunkStore o s r t)
    (hpeer : ∀ address cid request s, ∃ reply t, peer address cid request s reply t)
    (service : Service) (context : ServerContext) (rpc : Rpc) (s : S) :
    ∃ r written t, RpcRun chunkStore peer service context rpc s r written t ∧
      ∀ x ∈ written, x.2 = true := by
  obtain ⟨r, n', h⟩ := Prog.exists_runs (openStreamSem_total hstore hpeer)
    (rpc.handler service context) ⟨s, []⟩
  refine ⟨r, n'.written, n'.world, h.mono fun _ _ _ _ hs => hs.1, ?_⟩
  exact h.keeps (I := fun n => ∀ x ∈ n.written, x.2 = true) (fun _ _ _ _ hw hs => hs.2 hw) (by simp)

section Scope

variable {S : Type} {chunkStore : ChunkStoreSem S} {peer : PeerSem S}
variable {context : ServerContext} {n n' : NodeState S}

theorem runs_getCorrelationId {cid : List Char}
    (h : (getCorrelationId context).Runs (serviceSem chunkStore peer) n cid n') : n' = n := by
  unfold getCorrelationId at h
  split at h
  · exact h.2
  · obtain ⟨_, _, hu, _, rfl⟩ := h
    exact hu

theorem openScope_runs : (openScope context).Runs (serviceSem chunkStore peer) n () n := by
  unfold openScope getCorrelationId
  split
  · exact ⟨(), n, rfl, rfl, rfl⟩
  · exact ⟨default, n, rfl, (), n, rfl, rfl, rfl⟩

/-- The scope of the logger does not change what a handler does. -/
theorem runs_openScope_bind {α : Type} {p : ServiceProg α} {a : α} :
    (openScope context >>= fun _ => p).Runs (serviceSem chunkStore peer) n a n' ↔
      p.Runs (serviceSem chunkStore peer) n a n' := by
  rw [Prog.runs_bind]
  constructor
  · intro h
    obtain ⟨_, n₁, hscope, h⟩ := h
    obtain ⟨cid, n₂, hcid, _, _, hwith, _, rfl⟩ := Prog.runs_bind.mp hscope
    obtain rfl := runs_getCorrelationId hcid
    obtain rfl : n₁ = n₂ := hwith
    exact h
  · intro h
    exact ⟨(), n, openScope_runs, h⟩

end Scope

/-! ## Plans -/

/-- One call to the store, and the answer that is made of its result. -/
structure StoreStep (α : Type) where
  op : StoreOp
  respond : op.Ret → α

/-- Follow a plan: answer, or call the store and answer. -/
def follow {α : Type} : Except α (StoreStep α) → ServiceProg α
  | .error a => return a
  | .ok step => do
    let r ← rpc (.store step.op)
    return step.respond r

/-- What following a plan does to the world. -/
def Follows {S α : Type} (chunkStore : ChunkStoreSem S) :
    Except α (StoreStep α) → S → α → S → Prop
  | .error a, s, b, t => b = a ∧ t = s
  | .ok step, s, b, t => ∃ r, chunkStore step.op s r t ∧ b = step.respond r

/-- The step of a plan to put. -/
def putStep {α : Type} (respond : Result Unit → α) (x : ChunkId × Bytes) : StoreStep α :=
  ⟨.put x.1 x.2, respond⟩

/-- What `PutChunk` will put, or what it answers before. -/
def putChunkPlan (service : Service) (reader : List PutChunkRequest) :
    Except (Status × PutChunkResponse) (ChunkId × Bytes) :=
  let response : PutChunkResponse := { protocolVersion := kCurrentProtocolVersion }
  match reader with
  | [] => .error (⟨.INVALID_ARGUMENT, "Missing metadata"⟩, response)
  | first :: frames =>
    match first.payload with
    | some (.metadata m) =>
      match ChunkId.parse m.chunkId with
      | .error _ => .error (invalidChunkId, response)
      | .ok id =>
        match runPreamble service first.protocolVersion (some m.capabilityToken) (some id) with
        | some err =>
          if err.message = "CAPABILITY_DENIED" then
            .error (Status.OK, { response with status := .CAPABILITY_DENIED,
                                               message := "Capability token denied" })
          else .error (err, response)
        | none =>
          if m.totalSizeBytes > service.maxChunkBytes then
            .error (⟨.RESOURCE_EXHAUSTED, "Chunk too large"⟩,
              { response with status := .CHUNK_TOO_LARGE, message := "Chunk too large" })
          else if m.totalSizeBytes > vectorMaxSize then .error (Status.threw, response)
          else match receiveFrames service.maxChunkBytes [] frames with
            | .error (.tooLarge, _) =>
              .error (⟨.RESOURCE_EXHAUSTED, "Streamed chunk too large"⟩,
                { response with status := .CHUNK_TOO_LARGE, message := "Streamed chunk too large" })
            | .error (.lengthError, _) => .error (Status.threw, response)
            | .ok payload => .ok (id, payload)
    | _ => .error (⟨.INVALID_ARGUMENT, "First message must contain metadata"⟩, response)

/-- The answer of `PutChunk` after `Put`. -/
def putChunkAnswer (putRes : Result Unit) : Status × PutChunkResponse :=
  (Status.OK, putChunkResponse { protocolVersion := kCurrentProtocolVersion } putRes)

/-- What `DeleteChunk` will delete, or what it answers before. -/
def deleteChunkPlan (service : Service) (request : DeleteChunkRequest) :
    Except (Status × DeleteChunkResponse) ChunkId :=
  let response : DeleteChunkResponse := { protocolVersion := kCurrentProtocolVersion }
  match ChunkId.parse request.chunkId with
  | .error _ => .error (invalidChunkId, response)
  | .ok id =>
    match runPreamble service request.protocolVersion (some request.capabilityToken) (some id) with
    | some err =>
      if err.message = "CAPABILITY_DENIED" then
        .error (Status.OK, { response with status := .CAPABILITY_DENIED })
      else .error (err, response)
    | none => .ok id

/-- The answer of `DeleteChunk` after `Delete`. -/
def deleteChunkAnswer : Result Unit → Status × DeleteChunkResponse
  | .ok _ => (Status.OK, { protocolVersion := kCurrentProtocolVersion, status := .OK })
  | .error e =>
    (Status.OK, { protocolVersion := kCurrentProtocolVersion, status := mapStoreError e.kind })

/-- The id of a request without a token, or what is answered before the store
or another node is asked. -/
def readPlan (service : Service) (protocolVersion : Nat) (chunkId : List Char) :
    Except Status ChunkId :=
  match runPreamble service protocolVersion none none with
  | some err => .error err
  | none =>
    match ChunkId.parse chunkId with
    | .error _ => .error invalidChunkId
    | .ok id => .ok id

theorem readPlan_eq_ok {service : Service} {protocolVersion : Nat} {chunkId : List Char}
    {id : ChunkId} : readPlan service protocolVersion chunkId = .ok id ↔
      protocolVersion = kCurrentProtocolVersion ∧ ChunkId.parse chunkId = .ok id := by
  unfold readPlan runPreamble checkProtocolVersion
  by_cases hv : protocolVersion = kCurrentProtocolVersion
  · subst hv
    cases ChunkId.parse chunkId <;> simp
  · have hlt : protocolVersion < kCurrentProtocolVersion ∨
        protocolVersion > kCurrentProtocolVersion := Nat.lt_or_gt_of_ne hv
    simp [hv, hlt]

/-- The call of `VerifyChunk` to the store, or what it answers before. -/
def verifyChunkPlan (service : Service) (request : VerifyChunkRequest) :
    Except (Status × VerifyChunkResponse) (StoreStep (Status × VerifyChunkResponse)) :=
  let response : VerifyChunkResponse := { protocolVersion := kCurrentProtocolVersion }
  match readPlan service request.protocolVersion request.chunkId with
  | .error st => .error (st, response)
  | .ok id => .ok ⟨.verifyOnly id, fun verRes => match verRes with
    | .ok _ => (Status.OK, { response with isValid := true, status := .OK })
    | .error e => (Status.OK, { response with isValid := false, status := mapStoreError e.kind })⟩

/-- The call of `GetNodeStats` to the store, or what it answers before. -/
def getNodeStatsPlan (service : Service) (request : GetNodeStatsRequest) :
    Except (Status × GetNodeStatsResponse) (StoreStep (Status × GetNodeStatsResponse)) :=
  let response : GetNodeStatsResponse := { protocolVersion := kCurrentProtocolVersion }
  match runPreamble service request.protocolVersion none none with
  | some err => .error (err, response)
  | none => .ok ⟨.getStats, fun stats => (Status.OK,
    { response with chunkCount := stats.chunkCount,
                    bytesUsed := stats.bytesUsed,
                    bytesFree := stats.bytesFree })⟩

/-- What `ReplicateChunk` will put of a reply, or what it answers before. -/
def replicatePlan (service : Service) (id : ChunkId) (reply : Reply) :
    Except (Status × ReplicateChunkResponse) (ChunkId × Bytes) :=
  let response : ReplicateChunkResponse := { protocolVersion := kCurrentProtocolVersion }
  match reply.messages with
  | [] => .error (Status.OK, { response with status := .SOURCE_UNREACHABLE })
  | first :: rest =>
    match refuseFirst service.maxChunkBytes first with
    | some status => .error (Status.OK, { response with status := status })
    | none =>
      if expectedSize first > vectorMaxSize then .error (Status.threw, response)
      else match collectFrames [] rest with
        | none => .error (Status.threw, response)
        | some payload =>
          if reply.status.code ≠ .OK then
            .error (Status.OK, { response with status := .SOURCE_UNREACHABLE })
          else .ok (id, payload)

/-- The answer of `ReplicateChunk` after `Put`. -/
def replicateAnswer (putRes : Result Unit) : Status × ReplicateChunkResponse :=
  (Status.OK, replicateResponse { protocolVersion := kCurrentProtocolVersion } putRes)

/-! ## The handlers follow their plans -/

theorem putChunk_eq (service : Service) (context : ServerContext) (reader : List PutChunkRequest) :
    putChunk service context reader = openScope context >>= fun _ =>
      follow ((putChunkPlan service reader).map (putStep putChunkAnswer)) := by
  unfold putChunk
  refine congrArg _ (funext fun _ => ?_)
  cases reader with
  | nil => rfl
  | cons first frames =>
    simp only [putChunkPlan]
    cases first.payload with
    | none => rfl
    | some payload =>
      cases payload with
      | dataChunk data => rfl
      | metadata m =>
        dsimp only
        cases ChunkId.parse m.chunkId with
        | error e => rfl
        | ok id =>
          dsimp only
          cases runPreamble service first.protocolVersion (some m.capabilityToken) (some id) with
          | some err => dsimp only; split <;> rfl
          | none =>
            dsimp only [putChunkFrames]
            split
            · rfl
            · split
              · rfl
              · cases receiveFrames service.maxChunkBytes [] frames with
                | ok payload => rfl
                | error e =>
                  obtain ⟨cause, payload⟩ := e
                  cases cause <;> rfl

theorem deleteChunk_eq (service : Service) (context : ServerContext)
    (request : DeleteChunkRequest) :
    deleteChunk service context request = openScope context >>= fun _ =>
      follow ((deleteChunkPlan service request).map fun id => ⟨.delete id, deleteChunkAnswer⟩) := by
  unfold deleteChunk deleteChunkPlan
  refine congrArg _ (funext fun _ => ?_)
  cases ChunkId.parse request.chunkId with
  | error e => rfl
  | ok id =>
    dsimp only
    cases runPreamble service request.protocolVersion (some request.capabilityToken) (some id) with
    | some err => dsimp only; split <;> rfl
    | none =>
      refine congrArg (Prog.call _) (funext fun delRes => ?_)
      cases delRes <;> rfl

theorem verifyChunk_eq (service : Service) (context : ServerContext)
    (request : VerifyChunkRequest) :
    verifyChunk service context request =
      openScope context >>= fun _ => follow (verifyChunkPlan service request) := by
  unfold verifyChunk verifyChunkPlan readPlan
  refine congrArg _ (funext fun _ => ?_)
  cases runPreamble service request.protocolVersion none none with
  | some err => rfl
  | none =>
    dsimp only
    cases ChunkId.parse request.chunkId with
    | error e => rfl
    | ok id =>
      refine congrArg (Prog.call _) (funext fun verRes => ?_)
      cases verRes <;> rfl

theorem getNodeStats_eq (service : Service) (context : ServerContext)
    (request : GetNodeStatsRequest) :
    getNodeStats service context request =
      openScope context >>= fun _ => follow (getNodeStatsPlan service request) := by
  unfold getNodeStats getNodeStatsPlan
  refine congrArg _ (funext fun _ => ?_)
  cases runPreamble service request.protocolVersion none none <;> rfl

theorem replicateFrom_eq (service : Service) (id : ChunkId) (reply : Reply) :
    replicateFrom service id reply { protocolVersion := kCurrentProtocolVersion } =
      follow ((replicatePlan service id reply).map (putStep replicateAnswer)) := by
  unfold replicateFrom replicatePlan
  cases reply.messages with
  | nil => rfl
  | cons first rest =>
    dsimp only
    cases refuseFirst service.maxChunkBytes first with
    | some status => rfl
    | none =>
      dsimp only
      split
      · rfl
      · cases collectFrames [] rest with
        | none => rfl
        | some payload => dsimp only; split <;> rfl

theorem replicateChunk_eq (service : Service) (context : ServerContext)
    (request : ReplicateChunkRequest) :
    replicateChunk service context request = openScope context >>= fun _ =>
      match readPlan service request.protocolVersion request.chunkId with
      | .error st => return (st, { protocolVersion := kCurrentProtocolVersion })
      | .ok id =>
        getCorrelationId context >>= fun correlationId =>
          rpc (.getChunk request.sourceNodeAddress correlationId
            ⟨kCurrentProtocolVersion, id.hex⟩) >>= fun reply =>
              follow ((replicatePlan service id reply).map (putStep replicateAnswer)) := by
  simp only [← replicateFrom_eq]
  unfold replicateChunk readPlan
  refine congrArg _ (funext fun _ => ?_)
  cases runPreamble service request.protocolVersion none none with
  | some err => rfl
  | none =>
    dsimp only
    cases ChunkId.parse request.chunkId <;> rfl

/-- What `GetChunk` writes about a result of `Get`. -/
def sendResult : Result Bytes → ServiceProg Unit
  | .error e => do
    let _ ← rpc (.write (metadataMessage 0 (mapStoreError e.kind)))
  | .ok data => do
    let _ ← rpc (.write (metadataMessage data.length .OK))
    sendFrames data 0

theorem getChunk_eq (service : Service) (context : ServerContext) (request : GetChunkRequest) :
    getChunk service context request = openScope context >>= fun _ =>
      match readPlan service request.protocolVersion request.chunkId with
      | .error st => return st
      | .ok id =>
        rpc (.store (.get id)) >>= fun getRes => sendResult getRes >>= fun _ => pure Status.OK := by
  unfold getChunk readPlan
  refine congrArg _ (funext fun _ => ?_)
  cases runPreamble service request.protocolVersion none none with
  | some err => rfl
  | none =>
    dsimp only
    cases ChunkId.parse request.chunkId with
    | error e => rfl
    | ok id =>
      refine congrArg (Prog.call _) (funext fun getRes => ?_)
      cases getRes <;> rfl

section Handlers

variable {S : Type} {chunkStore : ChunkStoreSem S} {peer : PeerSem S} {service : Service}
variable {context : ServerContext} {n n' : NodeState S} {s t : S}
variable {w : List (GetChunkResponse × Bool)}

theorem runs_follow {α : Type} {plan : Except α (StoreStep α)} {a : α} :
    (follow plan).Runs (serviceSem chunkStore peer) n a n' ↔
      Follows chunkStore plan n.world a n'.world ∧ n'.written = n.written := by
  cases plan with
  | error b =>
    constructor
    · intro h
      obtain ⟨rfl, rfl⟩ := h
      exact ⟨⟨rfl, rfl⟩, rfl⟩
    · intro h
      obtain ⟨⟨rfl, hw⟩, hwr⟩ := h
      cases n; cases n'
      cases hw; cases hwr
      exact ⟨rfl, rfl⟩
  | ok step =>
    constructor
    · intro h
      obtain ⟨r, _, ⟨hop, hwr⟩, rfl, rfl⟩ := h
      exact ⟨⟨r, hop, rfl⟩, hwr⟩
    · intro h
      obtain ⟨⟨r, hop, rfl⟩, hwr⟩ := h
      exact ⟨r, n', ⟨hop, hwr⟩, rfl, rfl⟩

theorem rpcRun_putChunk {reader : List PutChunkRequest} {r : Status × PutChunkResponse} :
    RpcRun chunkStore peer service context (.putChunk reader) s r w t ↔
      Follows chunkStore ((putChunkPlan service reader).map (putStep putChunkAnswer)) s r t ∧
        w = [] := by
  show (putChunk service context reader).Runs _ _ _ _ ↔ _
  rw [putChunk_eq, runs_openScope_bind, runs_follow]

theorem rpcRun_deleteChunk {request : DeleteChunkRequest} {r : Status × DeleteChunkResponse} :
    RpcRun chunkStore peer service context (.deleteChunk request) s r w t ↔
      Follows chunkStore ((deleteChunkPlan service request).map fun id =>
        ⟨.delete id, deleteChunkAnswer⟩) s r t ∧ w = [] := by
  show (deleteChunk service context request).Runs _ _ _ _ ↔ _
  rw [deleteChunk_eq, runs_openScope_bind, runs_follow]

theorem rpcRun_verifyChunk {request : VerifyChunkRequest} {r : Status × VerifyChunkResponse} :
    RpcRun chunkStore peer service context (.verifyChunk request) s r w t ↔
      Follows chunkStore (verifyChunkPlan service request) s r t ∧ w = [] := by
  show (verifyChunk service context request).Runs _ _ _ _ ↔ _
  rw [verifyChunk_eq, runs_openScope_bind, runs_follow]

theorem rpcRun_getNodeStats {request : GetNodeStatsRequest} {r : Status × GetNodeStatsResponse} :
    RpcRun chunkStore peer service context (.getNodeStats request) s r w t ↔
      Follows chunkStore (getNodeStatsPlan service request) s r t ∧ w = [] := by
  show (getNodeStats service context request).Runs _ _ _ _ ↔ _
  rw [getNodeStats_eq, runs_openScope_bind, runs_follow]

/-- `ReplicateChunk` asks the node it is told to ask, and follows its plan for
what that one replies. -/
theorem rpcRun_replicateChunk {request : ReplicateChunkRequest}
    {r : Status × ReplicateChunkResponse}
    (h : RpcRun chunkStore peer service context (.replicateChunk request) s r w t) :
    match readPlan service request.protocolVersion request.chunkId with
    | .error st => r = (st, { protocolVersion := kCurrentProtocolVersion }) ∧ t = s
    | .ok id => ∃ cid reply u,
        peer request.sourceNodeAddress cid ⟨kCurrentProtocolVersion, id.hex⟩ s reply u ∧
        Follows chunkStore ((replicatePlan service id reply).map (putStep replicateAnswer)) u r t := by
  change (replicateChunk service context request).Runs _ _ _ _ at h
  rw [replicateChunk_eq, runs_openScope_bind] at h
  cases hplan : readPlan service request.protocolVersion request.chunkId with
  | error st =>
    rw [hplan] at h
    obtain ⟨rfl, heq⟩ := h
    cases heq
    exact ⟨rfl, rfl⟩
  | ok id =>
    rw [hplan] at h
    obtain ⟨cid, n₁, hcid, reply, n₂, ⟨hpeer, _⟩, h⟩ := Prog.runs_bind.mp h
    obtain rfl := runs_getCorrelationId hcid
    change (follow _).Runs _ _ _ _ at h
    exact ⟨cid, reply, n₂.world, hpeer, (runs_follow.mp h).1⟩

/-- `GetChunk` asks the store once, and writes what it got. -/
theorem rpcRun_getChunk {request : GetChunkRequest} {r : Status}
    (h : RpcRun chunkStore peer service context (.getChunk request) s r w t) :
    match readPlan service request.protocolVersion request.chunkId with
    | .error st => r = st ∧ t = s ∧ w = []
    | .ok id => r = Status.OK ∧ ∃ getRes u, chunkStore (.get id) s getRes u ∧
        (sendResult getRes).Runs (serviceSem chunkStore peer) ⟨u, []⟩ () ⟨t, w⟩ := by
  change (getChunk service context request).Runs _ _ _ _ at h
  rw [getChunk_eq, runs_openScope_bind] at h
  cases hplan : readPlan service request.protocolVersion request.chunkId with
  | error st =>
    rw [hplan] at h
    obtain ⟨rfl, heq⟩ := h
    cases heq
    exact ⟨rfl, rfl, rfl⟩
  | ok id =>
    rw [hplan] at h
    obtain ⟨getRes, n₁, ⟨hget, hwr⟩, h⟩ := h
    change (sendResult getRes >>= fun _ => pure Status.OK).Runs _ _ _ _ at h
    obtain ⟨_, _, hsend, rfl, rfl⟩ := Prog.runs_bind.mp h
    have hn₁ : n₁ = ⟨n₁.world, []⟩ := by cases n₁; cases hwr; rfl
    rw [hn₁] at hsend
    exact ⟨rfl, getRes, n₁.world, hget, hsend⟩

end Handlers

end NimbusFs.StorageNode
