import NimbusFs.StorageNode.Node

/-! # Correlation ids of a replication

A handler logs under the correlation id that came with its request, or under a
new one. `ReplicateChunk` asks for the id twice: once for its own log, and once to
send it on to the source. A request without an id gets two. -/
namespace NimbusFs.StorageNode

open NimbusFs.Common Lib

/-- The id that comes with a request. -/
def ServerContext.correlationId (context : ServerContext) : Option (List Char) :=
  (context.clientMetadata.find? fun e => e.1 = kCorrelationIdMetadataKey).map Prod.snd

/-- A call may give any answer: nothing is assumed of the store, of other nodes and
of `GenerateUuidV4`. -/
def anyAnswer (c : ServiceCall) (_ : Unit) (_ : c.Ret) (_ : Unit) : Prop := True

/-- A run of a handler, with the calls it makes. -/
def HandlerRun {α : Type} (p : ServiceProg α) (a : α) (calls : List (Sigma ServiceCall.Ret)) :
    Prop :=
  p.Runs (Prog.logged anyAnswer) ((), []) a ((), calls)

/-- In every run the id that is sent to the source is the one that the handler logs
under, and with it the handler of the source logs under that id too. -/
def OneCorrelationId (service : Service) (context : ServerContext)
    (request : ReplicateChunkRequest) : Prop :=
  ∀ a calls, HandlerRun (replicateChunk service context request) a calls →
    ∀ own sent address get reply, ⟨.withCorrelationId own, ()⟩ ∈ calls →
      ⟨.getChunk address sent get, reply⟩ ∈ calls →
      sent = own ∧
      ∀ (source : Service) (sourceContext : ServerContext) status sourceCalls,
        sourceContext.correlationId = some sent →
        HandlerRun (getChunk source sourceContext get) status sourceCalls →
        ∀ theirs, ⟨.withCorrelationId theirs, ()⟩ ∈ sourceCalls → theirs = own

/-! ## The ids that a handler may use -/

section Uses

/-- The call names no other id. -/
def Names (cid : List Char) : ServiceCall → Prop
  | .withCorrelationId x => x = cid
  | .getChunk _ x _ => x = cid
  | _ => True

/-- The call does not go to another node. -/
def StaysHere : ServiceCall → Prop
  | .getChunk _ _ _ => False
  | _ => True

variable {context : ServerContext} {cid : List Char} {service : Service} {P : ServiceCall → Prop}

theorem getCorrelationId_of_some (h : context.correlationId = some cid) :
    getCorrelationId context = Prog.ret cid := by
  unfold ServerContext.correlationId at h
  unfold getCorrelationId
  obtain ⟨e, he, rfl⟩ := Option.map_eq_some_iff.mp h
  rw [he]
  rfl

theorem getCorrelationId_of_none (h : context.correlationId = none) :
    getCorrelationId context = rpc .generateUuidV4 >>= fun uuid => Prog.ret uuid.text := by
  unfold ServerContext.correlationId at h
  unfold getCorrelationId
  rw [Option.map_eq_none_iff.mp h]
  rfl

theorem openScope_of_some (h : context.correlationId = some cid) :
    openScope context = rpc (.withCorrelationId cid) := by
  rw [openScope, getCorrelationId_of_some h]
  rfl

theorem follow_uses {α : Type} (hstore : ∀ o, P (.store o)) (plan : Except α (StoreStep α)) :
    (follow plan).Uses (fun _ _ => True) P := by
  cases plan with
  | error a => trivial
  | ok step => exact ⟨hstore _, fun _ _ => trivial⟩

theorem sendFrames_uses (hwrite : ∀ m, P (.write m)) (data : Bytes) (offset : Nat) :
    (sendFrames data offset).Uses (fun _ _ => True) P := by
  fun_induction sendFrames data offset with
  | case1 offset h chunkSize ih =>
    refine ⟨hwrite _, fun written _ => ?_⟩
    cases written with
    | true => exact ih
    | false => trivial
  | case2 offset h => trivial

theorem sendResult_uses (hwrite : ∀ m, P (.write m)) (res : Result Bytes) :
    (sendResult res).Uses (fun _ _ => True) P := by
  cases res with
  | error e => exact ⟨hwrite _, fun _ _ => trivial⟩
  | ok data => exact ⟨hwrite _, fun _ _ => sendFrames_uses hwrite data 0⟩

/-- With an id, `GetChunk` names no other. -/
theorem getChunk_uses (h : context.correlationId = some cid) (request : GetChunkRequest) :
    (getChunk service context request).Uses (fun _ _ => True) (Names cid) := by
  rw [getChunk_eq, openScope_of_some h]
  refine ⟨rfl, fun _ _ => ?_⟩
  split
  · trivial
  · refine ⟨trivial, fun getRes _ => ?_⟩
    exact (sendResult_uses (fun _ => trivial) getRes).bind fun _ => trivial

/-- With an id, `ReplicateChunk` names no other. -/
theorem replicateChunk_uses (h : context.correlationId = some cid)
    (request : ReplicateChunkRequest) :
    (replicateChunk service context request).Uses (fun _ _ => True) (Names cid) := by
  rw [replicateChunk_eq, openScope_of_some h, getCorrelationId_of_some h]
  refine ⟨rfl, fun _ _ => ?_⟩
  split
  · trivial
  · exact ⟨rfl, fun _ _ => follow_uses (fun _ => trivial) _⟩

theorem openScope_stays : (openScope context).Uses (fun _ _ => True) StaysHere := by
  cases h : context.correlationId with
  | some cid =>
    rw [openScope_of_some h]
    exact ⟨trivial, fun _ _ => trivial⟩
  | none =>
    rw [openScope, getCorrelationId_of_none h]
    exact ⟨trivial, fun _ _ => ⟨trivial, fun _ _ => trivial⟩⟩

/-- A request that is refused for its version or its chunk id asks nobody. -/
theorem replicateChunk_stays {request : ReplicateChunkRequest} {st : Status}
    (h : readPlan service request.protocolVersion request.chunkId = .error st) :
    (replicateChunk service context request).Uses (fun _ _ => True) StaysHere := by
  rw [replicateChunk_eq, h]
  exact openScope_stays.bind fun _ => trivial

/-- A call of a run is one that the handler may make. -/
theorem HandlerRun.mem {α : Type} {p : ServiceProg α} {a : α} {calls : List (Sigma ServiceCall.Ret)}
    (h : HandlerRun p a calls) (hp : p.Uses (fun _ _ => True) P) {e : Sigma ServiceCall.Ret}
    (he : e ∈ calls) : P e.1 := by
  rcases hp.mem_log (fun _ _ _ _ _ => trivial) h e he with hnil | he
  · cases hnil
  · exact he

end Uses

/-! ## Two ids for one replication -/

/-- Two ids that `GenerateUuidV4` may return one after the other. -/
def firstUuid : UuidV4 := ⟨"00000000-0000-4000-8000-000000000001".toList, by decide⟩

def secondUuid : UuidV4 := ⟨"00000000-0000-4000-8000-000000000002".toList, by decide⟩

/-- The calls for a request without an id, when the source does not answer. -/
def unnamedCalls (address : List Char) (id : ChunkId) : List (Sigma ServiceCall.Ret) :=
  [⟨.generateUuidV4, firstUuid⟩, ⟨.withCorrelationId firstUuid.text, ()⟩,
    ⟨.generateUuidV4, secondUuid⟩,
    ⟨.getChunk address secondUuid.text ⟨kCurrentProtocolVersion, id.hex⟩, ⟨[], Status.OK⟩⟩]

theorem handlerRun_unnamed {service : Service} {context : ServerContext}
    {request : ReplicateChunkRequest} {id : ChunkId} (hnone : context.correlationId = none)
    (hplan : readPlan service request.protocolVersion request.chunkId = .ok id) :
    ∃ a, HandlerRun (replicateChunk service context request) a
      (unnamedCalls request.sourceNodeAddress id) := by
  refine ⟨(Status.OK, ⟨kCurrentProtocolVersion, .SOURCE_UNREACHABLE⟩), ?_⟩
  rw [HandlerRun, replicateChunk_eq, openScope, getCorrelationId_of_none hnone, hplan]
  exact ⟨firstUuid, ((), _), ⟨trivial, rfl⟩, (), ((), _), ⟨trivial, rfl⟩, secondUuid, ((), _),
    ⟨trivial, rfl⟩, ⟨[], Status.OK⟩, ((), _), ⟨trivial, rfl⟩, rfl, rfl⟩

/-- A request that reaches the source without an id may be sent on under another one. -/
theorem not_oneCorrelationId {service : Service} {context : ServerContext}
    {request : ReplicateChunkRequest} {id : ChunkId} (hnone : context.correlationId = none)
    (hplan : readPlan service request.protocolVersion request.chunkId = .ok id) :
    ¬ OneCorrelationId service context request := by
  intro hone
  obtain ⟨a, hrun⟩ := handlerRun_unnamed hnone hplan
  have hsame := (hone a _ hrun firstUuid.text secondUuid.text request.sourceNodeAddress
    ⟨kCurrentProtocolVersion, id.hex⟩ ⟨[], Status.OK⟩ (by simp [unnamedCalls])
    (by simp [unnamedCalls])).1
  exact absurd hsame (by decide)

/-- **One correlation id for a replication**: exactly when the request carries one, or
is refused before the source is asked. -/
theorem oneCorrelationId_iff (service : Service) (context : ServerContext)
    (request : ReplicateChunkRequest) :
    OneCorrelationId service context request ↔
      (request.protocolVersion = kCurrentProtocolVersion →
        (∃ id, ChunkId.parse request.chunkId = .ok id) → ∃ cid, context.correlationId = some cid) := by
  constructor
  · intro hone hversion hparse
    obtain ⟨id, hid⟩ := hparse
    cases hcid : context.correlationId with
    | some cid => exact ⟨cid, rfl⟩
    | none =>
      exact absurd hone (not_oneCorrelationId hcid (readPlan_eq_ok.mpr ⟨hversion, hid⟩))
  · intro h a calls hrun own sent address get reply hown hsent
    cases hplan : readPlan service request.protocolVersion request.chunkId with
    | error st => exact (hrun.mem (replicateChunk_stays hplan) hsent).elim
    | ok id =>
      obtain ⟨hversion, hid⟩ := readPlan_eq_ok.mp hplan
      obtain ⟨cid, hcid⟩ := h hversion ⟨id, hid⟩
      have hown' : own = cid := hrun.mem (replicateChunk_uses hcid request) hown
      have hsent' : sent = cid := hrun.mem (replicateChunk_uses hcid request) hsent
      refine ⟨hsent'.trans hown'.symm, ?_⟩
      intro source sourceContext status sourceCalls hcarries hsource theirs htheirs
      have htheirs' : theirs = sent := hsource.mem (getChunk_uses hcarries get) htheirs
      exact htheirs'.trans (hsent'.trans hown'.symm)

/-- A request for the empty chunk, without metadata. -/
theorem not_oneCorrelationId_empty :
    ¬ OneCorrelationId { maxChunkBytes := 4194304 } ⟨[]⟩
      ⟨kCurrentProtocolVersion, (ChunkId.fromDigest emptyDigest).hex, "peer:50051".toList⟩ :=
  not_oneCorrelationId rfl (readPlan_eq_ok.mpr ⟨rfl, ChunkId.parse_hex _⟩)

end NimbusFs.StorageNode
