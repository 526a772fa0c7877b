import NimbusFs.Lib.Network
import NimbusFs.StorageNode.Cluster
import NimbusFs.StorageNode.Kills

/-! # A cluster of concurrent nodes

Every node is a server with many threads, whose steps down to the calls on its disk
interleave with those of all other nodes; any node may be killed at any moment and
started again. A `ReplicateChunk` gets what some `GetChunk` of its source has answered,
or a status other than OK and anything before it.

No node checks what another tells it about where the bytes come from, and yet whatever
is stored anywhere, and whatever is read anywhere, was uploaded to some node under that
id: a node that is sent honest answers gives honest answers. -/
namespace NimbusFs.StorageNode

open NimbusFs.Common Lib

/-! ## The nodes as a network -/

section Setup

variable {N T : Type}

/-- What a node can be answered, after so much was observed. A `GetChunk` at the node of
the address has returned, under the correlation id that was sent along, and all that it
wrote has come; or the status is not OK. -/
def clusterAnswers (setup : ClusterSetup N) (observed : N → List (Event T Request Request.Ret)) :
    (e : EnvCall) → e.Ret → Prop
  | .getChunk address cid request, reply => reply.status.code ≠ .OK ∨
      ∃ m k u client st w, setup.resolve address = some m ∧
        .res k u ⟨⟨[(kCorrelationIdMetadataKey, cid)]⟩, .getChunk request, client⟩ (st, w) ∈ observed m ∧
        Ending.normal.Delivers st w reply
  | _, _ => True

/-- The nodes, with a lock that may be taken again or a plain one. -/
def concurrentCluster (sha256 : Bytes → Digest) (setup : ClusterSetup N) (reentrant : Bool) :
    NetworkSetup N T (Fin 256) Call EnvCall Call.Ret EnvCall.Ret Store Request Request.Ret where
  impl n q p := ∃ uuid, p = inlined sha256 uuid q.client (q.rpc.handler (setup.service n) q.context) []
  sem _ := setup.pol.sem
  restart _ := ComesUp setup.pol
  reentrant := reentrant
  answers := clusterAnswers setup

/-- A node of the cluster. -/
abbrev ClusterMember (T : Type) := Member T (Fin 256) Call EnvCall Call.Ret EnvCall.Ret Store Request
  Request.Ret

/-- These bytes were uploaded under this id, to some node in some life. -/
def SentUp (setup : ClusterSetup N) (w : N → ClusterMember T) (id : ChunkId) (b : Bytes) : Prop :=
  ∃ n k t q reader, .inv k t q ∈ (w n).observed ∧ q.rpc = .putChunk reader ∧
    putChunkPlan (setup.service n) reader = .ok (id, b)

end Setup

/-! ## Honest answers -/

section Honest

variable {sha256 : Bytes → Digest} {pol : Policy} {service : Service}
variable {P : ChunkId → Bytes → Prop} {m m' : ChunkMap}

/-- All chunks are in `P`, under their hash. -/
def Holds (sha256 : Bytes → Digest) (P : ChunkId → Bytes → Prop) (m : ChunkMap) : Prop :=
  ∀ id b, m id = some b → sha256 b = id.digest ∧ P id b

/-- What any node would store of the reply is in `P`. -/
def HonestReply (sha256 : Bytes → Digest) (P : ChunkId → Bytes → Prop) (reply : Reply) : Prop :=
  ∀ service id id' b, replicatePlan service id reply = .ok (id', b) →
    ∃ id₀, sha256 b = id₀.digest ∧ P id₀ b

/-- OK is not announced and no data is written, or what is written is part of a chunk in
`P`, of the announced size, and all of it where no `Write` failed. -/
def HonestDownload (sha256 : Bytes → Digest) (P : ChunkId → Bytes → Prop) (request : GetChunkRequest)
    (w : Written) : Prop :=
  ((∀ m, metadataOf w = some m → m.status ≠ .OK) ∧ ∀ x ∈ w, x.1.data = none) ∨
    ∃ id b, ChunkId.parse request.chunkId = .ok id ∧ sha256 b = id.digest ∧ P id b ∧
      metadataOf w = some ⟨b.length, .OK⟩ ∧ sentData w <+: b ∧
      ((∀ x ∈ w, x.2 = true) → sentData w = b)

/-- What a request may put is uploaded with it, or comes from an honest reply. -/
theorem Holds.request {q : Request} {x : q.Ret} (hm : Holds sha256 P m)
    (hupload : ∀ reader id b, q.rpc = .putChunk reader → putChunkPlan service reader = .ok (id, b) →
      P id b)
    (h : AtomicRequest sha256 pol service (HonestReply sha256 P) m q x m') : Holds sha256 P m' := by
  refine h.keeps (J := Holds sha256 P) hm fun o r hplan hop id b hb => ?_
  have hsha : sha256 b = id.digest :=
    mapSpec_hashesMatch (fun id b hb => (hm id b hb).1) hop id b hb
  refine ⟨hsha, ?_⟩
  rcases mapSpec_entry hop hb with hold | rfl
  · exact (hm id b hold).2
  obtain ⟨context, rpc, client⟩ := q
  cases hplan with
  | putChunk hplan => exact hupload _ id b rfl hplan
  | replicateChunk hread hreply hplan =>
    obtain ⟨id₀, hsha₀, hP⟩ := hreply _ _ _ _ hplan
    obtain rfl : id₀ = id := ChunkId.ext_digest (hsha₀.symm.trans hsha)
    exact hP

/-- A `GetChunk` sends what the map has. -/
theorem getChunk_sends {allowed : Reply → Prop} {context : ServerContext} {request : GetChunkRequest}
    {st : Status} {w : Written}
    (h : RpcRun (mapStore sha256 pol) (repliesIn allowed) service context (.getChunk request) m st w m') :
    w = [] ∨ ∃ id getRes, ChunkId.parse request.chunkId = .ok id ∧ st = Status.OK ∧ Sends w getRes ∧
      ∀ b, getRes = .ok b → m id = some b := by
  have hget := rpcRun_getChunk h
  split at hget
  · exact .inl hget.2.2
  · rename_i id hplan
    obtain ⟨rfl, getRes, u, hop, hsend⟩ := hget
    refine .inr ⟨id, getRes, (readPlan_eq_ok.mp hplan).2, rfl, (runs_sendResult hsend).2, fun b hb => ?_⟩
    subst hb
    rcases hop.1.2 with hres | ⟨_, hres⟩ | ⟨_, e, hres⟩
    · cases hv : m id with
      | none =>
        rw [hv] at hres
        cases hres
      | some b' =>
        rw [hv] at hres
        cases hres
        rfl
    · cases hres
    · cases hres

variable {allowed : Reply → Prop} {context : ServerContext} {request : GetChunkRequest}
variable {st : Status} {w : Written}

theorem Holds.download (hm : Holds sha256 P m)
    (h : RpcRun (mapStore sha256 pol) (repliesIn allowed) service context (.getChunk request) m st w m') :
    HonestDownload sha256 P request w := by
  rcases getChunk_sends h with rfl | ⟨id, getRes, hid, _, hsends, hget⟩
  · exact .inl ⟨fun _ hmeta => absurd hmeta.symm (Option.some_ne_none _),
      fun _ hx => absurd hx List.not_mem_nil⟩
  · rcases hsends.sent with ⟨m₁, hmeta, hne, hnone, _⟩ | ⟨b, rfl, hmeta, hpart, hall⟩
    · refine .inl ⟨fun m₂ hmeta₂ => ?_, hnone⟩
      obtain rfl := Option.some.inj (hmeta.symm.trans hmeta₂)
      exact hne
    · obtain ⟨hsha, hP⟩ := hm id b (hget b rfl)
      exact .inr ⟨id, b, hid, hsha, hP, hmeta, hpart, hall⟩

/-- What a node that holds chunks in `P` has written, and all of which has come, is an
honest reply. -/
theorem Holds.reply {reply : Reply} (hm : Holds sha256 P m)
    (h : RpcRun (mapStore sha256 pol) (repliesIn allowed) service context (.getChunk request) m st w m')
    (hlink : Ending.normal.Delivers st w reply) : HonestReply sha256 P reply := by
  intro service id id' b hplan
  rcases getChunk_sends h with rfl | ⟨id₀, getRes, _, rfl, hsends, hget⟩
  · obtain ⟨_, rfl⟩ := hlink
    cases hplan
  · obtain ⟨_, rfl⟩ := replicatePlan_honest hsends hlink hplan
    exact ⟨id₀, hm id₀ b (hget b rfl)⟩

/-- Nothing is stored of a reply that failed. -/
theorem honestReply_of_failed {reply : Reply} (h : reply.status.code ≠ .OK) :
    HonestReply sha256 P reply := by
  intro service id id' b hplan
  obtain ⟨_, _, _, _, _, _, _, hstatus⟩ := replicatePlan_eq_ok.mp hplan
  exact absurd hstatus h

end Honest

/-! ## One node among honest ones -/

section Lives

variable {sha256 : Bytes → Digest} {pol : Policy} {service : Service} {served : Request → Prop}
variable {reentrant : Bool} {P : ChunkId → Bytes → Prop} {T : Type} [DecidableEq T]

/-- The disk is in order, and all its chunks are in `P`. -/
def StoreHolds (sha256 : Bytes → Digest) (P : ChunkId → Bytes → Prop) (s : Store) : Prop :=
  DiskInv sha256 s.disk ∧ Holds sha256 P (view s)

/-- What was answered could be answered by a node that holds chunks in `P`. -/
def HonestEvent (sha256 : Bytes → Digest) (pol : Policy) (service : Service)
    (P : ChunkId → Bytes → Prop) : Event T Request Request.Ret → Prop
  | .inv _ _ _ => True
  | .res _ _ q x => ∃ m m', Holds sha256 P m ∧
      AtomicRequest sha256 pol service (HonestReply sha256 P) m q x m'

/-- In one life, with any threads: what is held stays in `P`, and so are the answers. -/
theorem StoreHolds.life {s : Store} {c : NodeConfig T}
    (hupload : ∀ q reader id b, served q → q.rpc = .putChunk reader →
      putChunkPlan service reader = .ok (id, b) → P id b)
    (hs : StoreHolds sha256 P s)
    (h : Reachable (nodeSystem sha256 pol service (HonestReply sha256 P) served reentrant) s c) :
    StoreHolds sha256 P c.state ∧ ∀ e ∈ c.hist, HonestEvent sha256 pol service P e := by
  obtain ⟨hinv, hm⟩ := hs
  have hstep : ∀ q p, (nodeSystem sha256 pol service (HonestReply sha256 P) served reentrant).impl q p →
      ∀ x m m', Holds sha256 P m → AtomicRequest sha256 pol service (HonestReply sha256 P) m q x m' →
        Holds sha256 P m' :=
    fun q p hp x m m' hm hq => hm.request (fun reader id b => hupload q reader id b hp.1) hq
  refine ⟨h.keeps nodeSystem_linSim (fun _ _ hc => hc) hinv hstep hm, fun e he => ?_⟩
  cases e with
  | inv k t q => exact trivial
  | res k t q x =>
    obtain ⟨lin, hlin⟩ := h.linearizable nodeSystem_linSim (fun _ _ hc => hc) hinv
    obtain ⟨m', hlegal⟩ := hlin.legal
    obtain ⟨before, a, b, after, hmem, hbefore, hq, _, _⟩ := hlin.after hlegal he
    refine ⟨a, b, hbefore.keeps (fun k' q' x' hx' m m' hm hq' => ?_) hm, hq⟩
    obtain ⟨t', hinvoked⟩ := hlin.started k' q' x' (hmem _ (List.mem_append_left _ hx'))
    obtain ⟨p, hp⟩ := h.implemented hinvoked
    exact hstep q' p hp x' m m' hm hq'

theorem StoreHolds.comesUp {s s' : Store} (hs : StoreHolds sha256 P s) (h : ComesUp pol s s') :
    StoreHolds sha256 P s' := by
  obtain ⟨hinv, hview⟩ := h.view hs.1
  exact ⟨hinv, hview ▸ hs.2⟩

end Lives

/-! ## The cluster -/

section Safety

variable {N T : Type} [DecidableEq N] [DecidableEq T] {sha256 : Bytes → Digest}
variable {setup : ClusterSetup N} {reentrant : Bool} {P : ChunkId → Bytes → Prop}
variable {s₀ : N → Store} {w : N → ClusterMember T}

/-- A node has these bytes under this id, or has sent all of them to a client that asked
for it, in some life. -/
inductive Offered (w : N → ClusterMember T) (id : ChunkId) (b : Bytes) : Prop
  | stored {n} : view (w n).config.state id = some b → Offered w id b
  | sent {n k t context request client y} :
      .res k t ⟨context, .getChunk request, client⟩ y ∈ (w n).observed →
      ChunkId.parse request.chunkId = .ok id → CompleteOk y.2 → sentData y.2 = b → Offered w id b

omit [DecidableEq N] [DecidableEq T] in
/-- Nodes that give honest answers get honest answers. -/
theorem clusterAnswers_honest
    (h : ∀ n, ∀ e ∈ (w n).observed, HonestEvent sha256 setup.pol (setup.service n) P e)
    (e : EnvCall) (r : e.Ret) (hr : clusterAnswers setup (fun n => (w n).observed) e r) :
    envAnswers (HonestReply sha256 P) e r := by
  cases e with
  | getChunk address cid request =>
    rcases hr with hfailed | ⟨n, k, u, client, st, written, _, hres, hlink⟩
    · exact honestReply_of_failed hfailed
    · obtain ⟨m, m', hm, hrun, _⟩ := h n _ hres
      exact hm.reply hrun hlink
  | _ => exact trivial

/-- Everything was uploaded, to some node in some life. -/
theorem concurrentCluster_holds (h₀ : ∀ n, (s₀ n).disk.IsEmpty)
    (h : Relation.ReflTransGen (NetworkStep (concurrentCluster sha256 setup reentrant))
      (fun n => .start (s₀ n)) w) (n : N) :
    StoreHolds sha256 (SentUp setup w) (w n).config.state ∧
      ∀ e ∈ (w n).observed, HonestEvent sha256 setup.pol (setup.service n) (SentUp setup w) e := by
  let served (n : N) (q : Request) : Prop := ∀ reader id b, q.rpc = .putChunk reader →
    putChunkPlan (setup.service n) reader = .ok (id, b) → SentUp setup w id b
  have hempty : ∀ n, StoreHolds sha256 (SentUp setup w) (s₀ n) := by
    refine fun n => ⟨(h₀ n).inv, fun id b hb => ?_⟩
    rw [(h₀ n).view] at hb
    cases hb
  have hkeeps : ∀ (w' : N → ClusterMember T) n,
      (w' n).RunOf (nodeSystem sha256 setup.pol (setup.service n)
        (HonestReply sha256 (SentUp setup w)) (served n) reentrant) (ComesUp setup.pol) (s₀ n) →
      StoreHolds sha256 (SentUp setup w) (w' n).config.state ∧
        ∀ e ∈ (w' n).observed, HonestEvent sha256 setup.pol (setup.service n) (SentUp setup w) e :=
    fun w' n hrun => hrun.keeps
      (fun s c hs hc => hs.life (fun q reader id b hq => hq reader id b) hc)
      (fun s s' hs hup => hs.comesUp hup) (hempty n)
  refine hkeeps w n (NetworkSetup.assume_guarantee (fun w' hruns => ?_) h (fun n k t q hq => ?_) n)
  · exact clusterAnswers_honest fun n => (hkeeps w' n (hruns n)).2
  · exact fun reader id b hrpc hplan => ⟨n, k, t, q, reader, hq, hrpc, hplan⟩

/-- **A cluster of concurrent nodes invents nothing.** Any number of nodes with empty data
roots, each with any number of threads whose steps interleave with those of all others,
copy chunks from each other; any call may fail, any stream may break, and any node may be
killed at any moment and come up again. Whatever a node has under an id, and whatever it
has sent to a client for it, was uploaded to some node under that id and has the hash of
it; what was sent of a chunk before a stream broke is a part of such an upload. What a
node wrote to a stream that a kill cut off is not in its history, and not spoken of. Where
SHA-256 tells the uploads apart, all nodes and all clients see the same bytes under one
id, at any time. -/
theorem concurrent_cluster_stores_uploads (h₀ : ∀ n, (s₀ n).disk.IsEmpty)
    (h : Relation.ReflTransGen (NetworkStep (concurrentCluster sha256 setup reentrant))
      (fun n => .start (s₀ n)) w) :
    (∀ id b, Offered w id b → sha256 b = id.digest ∧ SentUp setup w id b) ∧
    (∀ n k t context request client y,
      .res k t ⟨context, .getChunk request, client⟩ y ∈ (w n).observed →
      HonestDownload sha256 (SentUp setup w) request y.2) ∧
    ∀ known, CollisionFree sha256 known → (∀ id b, SentUp setup w id b → known b) →
      ∀ id b b', Offered w id b → Offered w id b' → b = b' := by
  have hholds := concurrentCluster_holds h₀ h
  have hdownload : ∀ n k t context request client y,
      .res k t ⟨context, .getChunk request, client⟩ y ∈ (w n).observed →
      HonestDownload sha256 (SentUp setup w) request y.2 := by
    intro n k t context request client y hres
    obtain ⟨m, m', hm, hrun, _⟩ := (hholds n).2 _ hres
    exact hm.download hrun
  have hoffered : ∀ id b, Offered w id b → sha256 b = id.digest ∧ SentUp setup w id b := by
    intro id b hb
    cases hb with
    | @stored n hb => exact (hholds n).1.2 id b hb
    | @sent n k t context request client y hres hid hcomplete hdata =>
      obtain ⟨⟨m, hmeta, hok⟩, hall⟩ := hcomplete
      rcases hdownload _ _ _ _ _ _ _ hres with ⟨hrefused, _⟩ | ⟨id', b', hid', hsha, hup, _, _, hb'⟩
      · exact absurd hok (hrefused m hmeta)
      · obtain rfl := Except.ok.inj (hid.symm.trans hid')
        obtain rfl : b' = b := (hb' hall).symm.trans hdata
        exact ⟨hsha, hup⟩
  refine ⟨hoffered, hdownload, fun known hfree hknown id b b' hb hb' => ?_⟩
  obtain ⟨hsha, hup⟩ := hoffered id b hb
  obtain ⟨hsha', hup'⟩ := hoffered id b' hb'
  exact hfree b b' (hknown id b hup) (hknown id b' hup') (hsha.trans hsha'.symm)

end Safety

/-! ## A copy between two nodes -/

/-- Calls that do not go wrong, in an environment where peers reply so. -/
def replyingStep (replies : List Char → List Char → GetChunkRequest → Reply) :
    (c : Call ⊕ EnvCall) → Store → Sum.elim Call.Ret EnvCall.Ret c × Store
  | .inr (.getChunk address cid request), s => (replies address cid request, s)
  | .inl c, s => c.exec .ok s
  | .inr (.write _), s => ((), s)
  | .inr .generateUuidV4, s => ((default : UuidV4), s)
  | .inr (.withCorrelationId _), s => ((), s)

theorem replyingStep_sem {N T : Type} {setup : ClusterSetup N}
    {observed : N → List (Event T Request Request.Ret)}
    {replies : List Char → List Char → GetChunkRequest → Reply}
    (hreply : ∀ address cid request, clusterAnswers setup observed (.getChunk address cid request)
      (replies address cid request)) (c : Call ⊕ EnvCall) (s : Store) :
    withEnv setup.pol.sem (clusterAnswers setup observed) c s (replyingStep replies c s).1
      (replyingStep replies c s).2 := by
  cases c with
  | inl c => exact setup.pol.sem_ok c s
  | inr e =>
    cases e with
    | getChunk address cid request => exact ⟨hreply address cid request, rfl⟩
    | _ => exact ⟨trivial, rfl⟩

/-- The answer to a download that has returned, when all of it has come. -/
theorem clusterAnswers_of_res {N T : Type} {setup : ClusterSetup N}
    {observed : N → List (Event T Request Request.Ret)} {address cid : List Char}
    {request : GetChunkRequest} {n : N} {k : Nat} {t : T} {client : Nat → Bool}
    {y : Status × Written} (hn : setup.resolve address = some n)
    (hres : .res k t ⟨⟨[(kCorrelationIdMetadataKey, cid)]⟩, .getChunk request, client⟩ y ∈ observed n)
    (hall : ∀ x ∈ y.2, x.2 = true) :
    clusterAnswers setup observed (.getChunk address cid request) ⟨y.2.map Prod.fst, y.1⟩ :=
  .inr ⟨n, k, t, client, y.1, y.2, hn, hres, hall, rfl⟩

theorem clusterAnswers_mono {N T : Type} {setup : ClusterSetup N}
    {observed observed' : N → List (Event T Request Request.Ret)}
    (h : ∀ n, ∀ e ∈ observed n, e ∈ observed' n) (e : EnvCall) (r : e.Ret)
    (hr : clusterAnswers setup observed e r) : clusterAnswers setup observed' e r := by
  cases e with
  | getChunk address cid request =>
    rcases hr with hfailed | ⟨m, k, u, client, st, w, hm, hres, hlink⟩
    · exact .inl hfailed
    · exact .inr ⟨m, k, u, client, st, w, hm, h m _ hres, hlink⟩
  | _ => exact trivial

/-- The correlation id of the copy. -/
def copyContext : ServerContext := ⟨[(kCorrelationIdMetadataKey, ['a'])]⟩

/-- The source is asked for `abc`. -/
def copySource : Request :=
  ⟨copyContext, .getChunk ⟨kCurrentProtocolVersion, ChunkId.ofAbc.hex⟩, fun _ => true⟩

/-- The other node is told to copy `abc`. -/
def copyAbc : Request :=
  ⟨copyContext, .replicateChunk ⟨kCurrentProtocolVersion, ChunkId.ofAbc.hex, []⟩, fun _ => true⟩

/-- No peer can be reached. -/
def unreachable : Reply := ⟨[], ⟨.other 14, ""⟩⟩

/-- Two nodes with two threads each. -/
abbrev copyCluster : NetworkSetup Bool Bool (Fin 256) Call EnvCall Call.Ret EnvCall.Ret Store Request
    Request.Ret :=
  concurrentCluster knownSha256 twoNodes true

/-- One of them, after so much was observed. -/
abbrev copyPool (n : Bool) (observed : Bool → List (Event Bool Request Request.Ret)) :=
  copyCluster.pool n (fun _ => True) (clusterAnswers twoNodes observed)

/-- A request served alone. -/
def copyRun (replies : List Char → List Char → GetChunkRequest → Reply) (q : Request) (s : Store) :
    q.Ret × Store :=
  (smallProg q).run (replyingStep replies) s

/-- The source, once it has `abc`. -/
def copyState : Store := (copyRun (fun _ _ _ => unreachable) uploadAbc Store.empty).2

/-- What the source writes when it is asked. -/
def copyAnswer : Status × Written := (copyRun (fun _ _ _ => unreachable) copySource copyState).1

/-- Only the download of `abc` is answered. -/
def copyReplies (_address cid : List Char) (request : GetChunkRequest) : Reply :=
  if cid = ['a'] ∧ request.protocolVersion = kCurrentProtocolVersion ∧
    request.chunkId = ChunkId.ofAbc.hex then ⟨copyAnswer.2.map Prod.fst, copyAnswer.1⟩
  else unreachable

/-- An idle node serves a request. -/
theorem copyPool_serves (n : Bool) {observed : Bool → List (Event Bool Request Request.Ret)}
    {replies : List Char → List Char → GetChunkRequest → Reply} {c : NodeConfig Bool}
    (hreply : ∀ address cid request, clusterAnswers twoNodes observed
      (.getChunk address cid request) (replies address cid request))
    (hc : Reachable (copyPool n observed) Store.empty c) (hidle : ∀ t, c.thread t = none)
    (q : Request) (hrun : (smallProg q).runsAlone (replyingStep replies) (fun _ => 0) c.state) :
    ∃ c', Reachable (copyPool n observed) Store.empty c' ∧ (∀ t, c'.thread t = none) ∧
      c'.state = (copyRun replies q c.state).2 ∧
      c'.hist = c.hist ++ [.inv c.next true q, .res c.next true q (copyRun replies q c.state).1] := by
  have hnode : ∀ q p, (nodeSystem knownSha256 .noFault { maxChunkBytes := 3 } (fun _ => True)
      (fun _ => True) true).impl q p → Orderly true (fun _ => 0) p := nodeSystem_orderly (.inl rfl)
  have horderly : ∀ q p, (copyPool n observed).impl q p → Orderly true (fun _ => 0) p := hnode
  have himpl : (copyPool n observed).impl q (smallProg q) := ⟨trivial, default, rfl⟩
  obtain ⟨c', hc', hthread, hstate, hhist⟩ := hc.invoke_alone (t := true) rfl
    (replyingStep_sem hreply) (hidle true) ((hc.inOrder horderly).free hidle) himpl hrun
  exact ⟨c', hc', fun t => (congrFun hthread t).trans (hidle t), hstate, hhist⟩

/-- `abc` is uploaded to the source and asked for there. -/
theorem copySource_reachable :
    ∃ (c : NodeConfig Bool) (k : Nat), Reachable (copyPool true fun _ => []) Store.empty c ∧
      .res k true copySource copyAnswer ∈ c.hist := by
  have hreply : ∀ address cid request, clusterAnswers twoNodes
      (fun _ => ([] : List (Event Bool Request Request.Ret)))
      (.getChunk address cid request) unreachable := fun _ _ _ => .inl (by decide)
  have hrun : (smallProg uploadAbc).runsAlone (replyingStep fun _ _ _ => unreachable) (fun _ => 0)
      Store.empty := by decide +kernel
  obtain ⟨c, hc, hidle, hstate, _⟩ :=
    copyPool_serves true hreply .refl (fun _ => rfl) uploadAbc hrun
  have hrun' : (smallProg copySource).runsAlone (replyingStep fun _ _ _ => unreachable) (fun _ => 0)
      c.state := by
    rw [hstate]
    decide +kernel
  obtain ⟨c', hc', _, _, hhist⟩ := copyPool_serves true hreply hc hidle copySource hrun'
  refine ⟨c', c.next, hc', ?_⟩
  rw [hhist, hstate]
  exact List.mem_append_right _ (List.mem_cons_of_mem _ List.mem_cons_self)

/-- The other node copies `abc`, which was never uploaded to it. -/
theorem concurrent_cluster_stores_uploads_abc :
    ∃ w : Bool → ClusterMember Bool,
      Relation.ReflTransGen (NetworkStep copyCluster) (fun _ => .start Store.empty) w ∧
      (∀ k t, .inv k t uploadAbc ∉ (w false).observed) ∧
      view (w false).config.state .ofAbc = some abcBytes ∧
      SentUp twoNodes w .ofAbc abcBytes := by
  obtain ⟨c, k, hc, hdownload⟩ := copySource_reachable
  let w₀ : Bool → ClusterMember Bool := fun _ => .start Store.empty
  let w₁ : Bool → ClusterMember Bool := Function.update w₀ true ⟨[], c⟩
  have hsource : Relation.ReflTransGen (NetworkStep copyCluster) w₀ w₁ :=
    copyCluster.run_of_pool (fun obs _ => clusterAnswers_mono (fun _ _ h => absurd h List.not_mem_nil))
      hc
  have hreply : ∀ address cid request, clusterAnswers twoNodes (fun n => (w₁ n).observed)
      (.getChunk address cid request) (copyReplies address cid request) := by
    intro address cid request
    unfold copyReplies
    split
    · rename_i hcopy
      obtain ⟨rfl, hversion, hid⟩ := hcopy
      obtain ⟨version, chunkId⟩ := request
      cases hversion
      cases hid
      exact clusterAnswers_of_res rfl (List.mem_append_right _ hdownload) (by decide +kernel)
    · exact .inl (by decide)
  have hrun : (smallProg copyAbc).runsAlone (replyingStep copyReplies) (fun _ => 0) Store.empty := by
    decide +kernel
  obtain ⟨c', hc', _, hstate, hhist⟩ :=
    copyPool_serves false hreply .refl (fun _ => rfl) copyAbc hrun
  have hcopy : Relation.ReflTransGen (NetworkStep copyCluster) w₁
      (Function.update w₁ false ⟨(w₁ false).past, c'⟩) :=
    copyCluster.run_of_pool (fun obs hobs => clusterAnswers_mono hobs) hc'
  have hview : view c'.state .ofAbc = some abcBytes := by
    rw [hstate]
    decide +kernel
  refine ⟨_, hsource.trans hcopy, ?_, hview, ?_⟩
  · intro k t hmem
    have hmem' : .inv k t uploadAbc ∈ c'.hist := hmem
    rw [hhist] at hmem'
    simp [Config.init, copyAbc, uploadAbc] at hmem'
  · have hlast := concurrent_cluster_stores_uploads (fun _ => Disk.isEmpty_empty)
      (hsource.trans hcopy)
    exact (hlast.1 .ofAbc abcBytes (.stored (n := false) hview)).2

end NimbusFs.StorageNode
