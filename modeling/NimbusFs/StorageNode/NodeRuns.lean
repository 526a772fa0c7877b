import NimbusFs.StorageNode.Streaming

/-! # The states of a node

A node starts on an empty data root. It serves requests one after the other, or
many at a time on the threads of the server; then the calls of their handlers to
the store interleave. In every state it can get into, a request that updates the
store either succeeds and touches the entry of its id alone, or changes nothing. -/
namespace NimbusFs.StorageNode

open NimbusFs.Common Lib

/-! ## The one call of a request -/

/-- The call that a request leads to, when the peers reply as `allowed` says. -/
inductive Planned (service : Service) (allowed : Reply → Prop) : Rpc → StoreOp → Prop
  | putChunk {reader id payload} : putChunkPlan service reader = .ok (id, payload) →
      Planned service allowed (.putChunk reader) (.put id payload)
  | getChunk {request id} : readPlan service request.protocolVersion request.chunkId = .ok id →
      Planned service allowed (.getChunk request) (.get id)
  | verifyChunk {request id} : readPlan service request.protocolVersion request.chunkId = .ok id →
      Planned service allowed (.verifyChunk request) (.verifyOnly id)
  | deleteChunk {request id} : deleteChunkPlan service request = .ok id →
      Planned service allowed (.deleteChunk request) (.delete id)
  | replicateChunk {request id reply id' payload} :
      readPlan service request.protocolVersion request.chunkId = .ok id → allowed reply →
      replicatePlan service id reply = .ok (id', payload) →
      Planned service allowed (.replicateChunk request) (.put id' payload)
  | getNodeStats {request} : Planned service allowed (.getNodeStats request) .getStats

section Calls

variable {S : Type} {chunkStore : ChunkStoreSem S} {allowed : Reply → Prop} {service : Service}
variable {context : ServerContext} {s t : S}

theorem follows_map_cases {α β : Type} {plan : Except α β} {step : β → StoreStep α} {a : α}
    (h : Follows chunkStore (plan.map step) s a t) :
    (plan = .error a ∧ t = s) ∨
      ∃ x r, plan = .ok x ∧ chunkStore (step x).op s r t ∧ a = (step x).respond r := by
  cases plan with
  | error b =>
    obtain ⟨rfl, rfl⟩ := h
    exact .inl ⟨rfl, rfl⟩
  | ok x =>
    obtain ⟨r, hop, rfl⟩ := h
    exact .inr ⟨x, r, rfl, hop, rfl⟩

/-- A request makes its planned call to the store, or none. -/
theorem RpcRun.calls {rpc : Rpc} {r : rpc.Ret} {w : List (GetChunkResponse × Bool)}
    (h : RpcRun chunkStore (repliesIn allowed) service context rpc s r w t) :
    t = s ∨ ∃ o res, Planned service allowed rpc o ∧ chunkStore o s res t := by
  cases rpc with
  | putChunk reader =>
    rcases follows_map_cases (rpcRun_putChunk.mp h).1 with ⟨_, rfl⟩ | ⟨x, res, hplan, hop, _⟩
    · exact .inl rfl
    · exact .inr ⟨_, res, .putChunk hplan, hop⟩
  | getChunk request =>
    have h := rpcRun_getChunk h
    split at h
    · exact .inl h.2.1
    · rename_i id hplan
      obtain ⟨_, getRes, u, hget, hsend⟩ := h
      obtain ⟨rfl, _⟩ := runs_sendResult hsend
      exact .inr ⟨_, getRes, .getChunk hplan, hget⟩
  | verifyChunk request =>
    have h := (rpcRun_verifyChunk.mp h).1
    unfold verifyChunkPlan at h
    cases hplan : readPlan service request.protocolVersion request.chunkId with
    | error st =>
      rw [hplan] at h
      exact .inl h.2
    | ok id =>
      rw [hplan] at h
      obtain ⟨res, hop, _⟩ := h
      exact .inr ⟨_, res, .verifyChunk hplan, hop⟩
  | deleteChunk request =>
    rcases follows_map_cases (rpcRun_deleteChunk.mp h).1 with ⟨_, rfl⟩ | ⟨id, res, hplan, hop, _⟩
    · exact .inl rfl
    · exact .inr ⟨_, res, .deleteChunk hplan, hop⟩
  | replicateChunk request =>
    have h := rpcRun_replicateChunk h
    split at h
    · exact .inl h.2
    · rename_i id hread
      obtain ⟨cid, reply, _, ⟨hreply, rfl⟩, hfollow⟩ := h
      rcases follows_map_cases hfollow with ⟨_, rfl⟩ | ⟨x, res, hplan, hop, _⟩
      · exact .inl rfl
      · exact .inr ⟨_, res, .replicateChunk hread hreply hplan, hop⟩
  | getNodeStats request =>
    have h := (rpcRun_getNodeStats.mp h).1
    unfold getNodeStatsPlan at h
    split at h
    · exact .inl h.2
    · obtain ⟨res, hop, _⟩ := h
      exact .inr ⟨_, res, .getNodeStats, hop⟩

/-- A store that only notes which operations it is asked for. -/
def recorder : ChunkStoreSem (List StoreOp) := fun o ops _ ops' => ops' = ops ++ [o]

/-- The handler of some request may make the call `o`. -/
def Issued (service : Service) (allowed : Reply → Prop) (o : StoreOp) : Prop :=
  ∃ context rpc r w ops,
    RpcRun recorder (repliesIn allowed) service context rpc [] r w ops ∧ o ∈ ops

theorem Issued.planned {o : StoreOp} (h : Issued service allowed o) :
    ∃ rpc, Planned service allowed rpc o := by
  obtain ⟨context, rpc, r, w, ops, hrun, ho⟩ := h
  rcases hrun.calls with rfl | ⟨o', _, hplan, rfl⟩
  · cases ho
  · obtain rfl : o = o' := by simpa using ho
    exact ⟨rpc, hplan⟩

end Calls

/-! ## Reachable states -/

/-- The states of the store of a node whose peers reply as `allowed` says. -/
inductive NodeReach (sha256 : Bytes → Digest) (pol : Policy) (service : Service)
    (allowed : Reply → Prop) : Store → Prop
  /-- The node starts on an empty data root. -/
  | start {s} : s.disk.IsEmpty → NodeReach sha256 pol service allowed s
  /-- One request is served. -/
  | serve {s context rpc r w t} : NodeReach sha256 pol service allowed s →
      RpcRun (localStore sha256 pol) (repliesIn allowed) service context rpc s r w t →
      NodeReach sha256 pol service allowed t
  /-- Requests are served on any number of threads, which got to some point. -/
  | together {s} {c : StoreConfig Nat} : NodeReach sha256 pol service allowed s →
      Reachable (storeSystem sha256 pol (Issued service allowed) true) s c →
      NodeReach sha256 pol service allowed c.state

section Reach

variable {sha256 : Bytes → Digest} {pol : Policy} {service : Service} {allowed : Reply → Prop}
variable {s t : Store}

/-- One operation alone, from a state of the invariant. -/
theorem localStore_spec {o : StoreOp} {r : o.Ret} (hinv : DiskInv sha256 s.disk)
    (h : localStore sha256 pol o s r t) :
    DiskInv sha256 t.disk ∧ MapSpec sha256 pol (view s) o r (view t) := by
  obtain ⟨uuid, h⟩ := h
  exact (prog_linSim sha256 pol uuid o).runs hinv h

/-- What the planned calls keep of the chunks, the node keeps in every state,
together with the invariant of the store. -/
theorem NodeReach.keeps {J : ChunkMap → Prop} (h : NodeReach sha256 pol service allowed s)
    (hempty : J fun _ => none)
    (hstep : ∀ rpc o, Planned service allowed rpc o → ∀ r m m', J m →
      MapSpec sha256 pol m o r m' → J m') : DiskInv sha256 s.disk ∧ J (view s) := by
  induction h with
  | start hs => exact ⟨hs.inv, hs.view ▸ hempty⟩
  | serve _ hrun ih =>
    rcases hrun.calls with rfl | ⟨o, res, hplan, hop⟩
    · exact ih
    · obtain ⟨hinv, hspec⟩ := localStore_spec ih.1 hop
      exact ⟨hinv, hstep _ o hplan res _ _ ih.2 hspec⟩
  | together _ hc ih =>
    refine hc.keeps (storeSystem_linSim sha256 pol _ true) (fun _ _ hcrash => hcrash) ih.1 ?_ ih.2
    intro o p hp r m m' hm hspec
    obtain ⟨rpc, hplan⟩ := hp.1.planned
    exact hstep rpc o hplan r m m' hm hspec

/-- An entry that an operation leaves was there before, or is what it puts. -/
theorem mapSpec_entry {o : StoreOp} {r : o.Ret} {m m' : ChunkMap}
    (h : MapSpec sha256 pol m o r m') {id : ChunkId} {b : Bytes} (hb : m' id = some b) :
    m id = some b ∨ o = .put id b := by
  have hsame : ∀ id', (∀ id'', id'' ≠ id' → m' id'' = m id'') → m' id' = m id' →
      m id = some b ∨ o = .put id b := by
    intro id' hothers heq
    rw [eq_of_others hothers heq] at hb
    exact .inl hb
  cases o with
  | put id' data =>
    obtain ⟨hspec, hothers⟩ := h
    rcases hspec with ⟨_, _, he⟩ | ⟨_, ⟨_, _, he⟩ | ⟨_, _, he⟩ | ⟨_, _, he⟩⟩
    · exact hsame id' hothers he
    · exact hsame id' hothers he
    · by_cases hid : id = id'
      · subst hid
        rw [he] at hb
        cases hb
        exact .inr rfl
      · exact .inl (hothers id hid ▸ hb)
    · exact hsame id' hothers he
  | get id' => exact hsame id' h.2 h.1.1
  | verifyOnly id' => exact hsame id' h.2 h.1.1
  | existsChunk id' => exact hsame id' h.2 h.1.1
  | delete id' =>
    obtain ⟨hspec, hothers⟩ := h
    by_cases hid : id = id'
    · subst hid
      rcases hspec with ⟨_, he⟩ | ⟨_, _, he⟩ | ⟨_, _, he⟩
      · rw [he] at hb
        cases hb
      · exact .inl (he ▸ hb)
      · exact .inl (he ▸ hb)
    · exact .inl (hothers id hid ▸ hb)
  | getStats =>
    obtain rfl : m' = m := h
    exact .inl hb
  | listAllChunkIds =>
    obtain rfl : m' = m := h
    exact .inl hb
  | construct =>
    obtain rfl : m' = m := h
    exact .inl hb

theorem NodeReach.inv (h : NodeReach sha256 pol service allowed s) : DiskInv sha256 s.disk :=
  (h.keeps (J := fun _ => True) trivial fun _ _ _ _ _ _ _ _ => trivial).1

end Reach

/-! ## Atomic updates -/

/-- The requests that may change the chunks. -/
def Rpc.IsUpdate : Rpc → Prop
  | .putChunk _ | .deleteChunk _ | .replicateChunk _ => True
  | .getChunk _ | .verifyChunk _ | .getNodeStats _ => False

/-- The id that an update names. -/
def Rpc.requestedId : Rpc → Option ChunkId
  | .putChunk [] => none
  | .putChunk (first :: _) =>
    match first.payload with
    | some (.metadata m) => (ChunkId.parse m.chunkId).toOption
    | _ => none
  | .deleteChunk request => (ChunkId.parse request.chunkId).toOption
  | .replicateChunk request => (ChunkId.parse request.chunkId).toOption
  | .getChunk _ | .verifyChunk _ | .getNodeStats _ => none

/-- An update ends with gRPC OK and status OK in its response. -/
def Rpc.Succeeds : (rpc : Rpc) → rpc.Ret → Prop
  | .putChunk _, r => r.1.code = .OK ∧ r.2.status = .OK
  | .deleteChunk _, r => r.1.code = .OK ∧ r.2.status = .OK
  | .replicateChunk _, r => r.1.code = .OK ∧ r.2.status = .OK
  | .getChunk _, _ | .verifyChunk _, _ | .getNodeStats _, _ => False

/-- What an update that succeeds leaves at its id. -/
def Rpc.Leaves (sha256 : Bytes → Digest) (id : ChunkId) : Rpc → Option Bytes → Prop
  | .deleteChunk _, e => e = none
  | _, e => ∃ b, e = some b ∧ sha256 b = id.digest

section Answers

variable {service : Service}

theorem runPreamble_code {version : Nat} {token : Option (List Char)} {chunk : Option ChunkId}
    {err : Status} (h : runPreamble service version token chunk = some err) : err.code ≠ .OK := by
  unfold runPreamble at h
  split at h
  · cases h; simp
  · split at h
    · split at h
      · cases h; simp
      · cases h
    · cases h

theorem readPlan_error {version : Nat} {chunkId : List Char} {st : Status}
    (h : readPlan service version chunkId = .error st) : st.code ≠ .OK := by
  unfold readPlan at h
  split at h
  · rename_i err herr
    cases h
    exact runPreamble_code herr
  · split at h
    · cases h; simp [invalidChunkId]
    · cases h

/-- No way out of `PutChunk` before `Put` looks like success. -/
theorem putChunkPlan_error {reader : List PutChunkRequest} {r : Status × PutChunkResponse}
    (h : putChunkPlan service reader = .error r) : ¬ (r.1.code = .OK ∧ r.2.status = .OK) := by
  unfold putChunkPlan at h
  dsimp only at h
  split at h
  · cases h; simp
  · split at h
    · split at h
      · cases h; simp [invalidChunkId]
      · split at h
        · rename_i err herr
          split at h
          · cases h; simp
          · cases h
            exact fun hok => runPreamble_code herr hok.1
        · split at h
          · cases h; simp
          · split at h
            · cases h; simp [Status.threw]
            · split at h
              · cases h; simp
              · cases h; simp [Status.threw]
              · cases h
    · cases h; simp

/-- `PutChunk` gets to `Put` exactly when the first message is accepted and the announced
size and the frames after it fit. -/
theorem putChunkPlan_eq_ok {reader : List PutChunkRequest} {id : ChunkId} {payload : Bytes} :
    putChunkPlan service reader = .ok (id, payload) ↔
      ∃ first frames m, reader = first :: frames ∧ first.payload = some (.metadata m) ∧
        ChunkId.parse m.chunkId = .ok id ∧
        runPreamble service first.protocolVersion (some m.capabilityToken) (some id) = none ∧
        m.totalSizeBytes ≤ service.maxChunkBytes ∧ m.totalSizeBytes ≤ vectorMaxSize ∧
        receiveFrames service.maxChunkBytes [] frames = .ok payload := by
  constructor
  · intro h
    unfold putChunkPlan at h
    dsimp only at h
    split at h
    · cases h
    · rename_i first frames
      split at h
      · rename_i m hm
        split at h
        · cases h
        · rename_i id' hid
          split at h
          · split at h <;> cases h
          · rename_i hpre
            split at h
            · cases h
            · rename_i hsize
              split at h
              · cases h
              · rename_i hreserve
                split at h
                · cases h
                · cases h
                · rename_i hframes
                  cases h
                  exact ⟨first, frames, m, rfl, hm, hid, hpre, Nat.not_lt.mp hsize,
                    Nat.not_lt.mp hreserve, hframes⟩
      · cases h
  · intro h
    obtain ⟨first, frames, m, rfl, hm, hid, hpre, hsize, hreserve, hframes⟩ := h
    simp only [putChunkPlan, hm, hid, hpre, if_neg (Nat.not_lt.mpr hsize),
      if_neg (Nat.not_lt.mpr hreserve), hframes]

theorem putChunkPlan_ok {reader : List PutChunkRequest} {id : ChunkId} {payload : Bytes}
    (h : putChunkPlan service reader = .ok (id, payload)) :
    Rpc.requestedId (.putChunk reader) = some id := by
  obtain ⟨first, frames, m, rfl, hm, hid, _⟩ := putChunkPlan_eq_ok.mp h
  simp [Rpc.requestedId, hm, hid, Except.toOption]

theorem deleteChunkPlan_error {request : DeleteChunkRequest} {r : Status × DeleteChunkResponse}
    (h : deleteChunkPlan service request = .error r) : ¬ (r.1.code = .OK ∧ r.2.status = .OK) := by
  unfold deleteChunkPlan at h
  dsimp only at h
  split at h
  · cases h; simp [invalidChunkId]
  · split at h
    · rename_i err herr
      split at h
      · cases h; simp
      · cases h
        exact fun hok => runPreamble_code herr hok.1
    · cases h

/-- `DeleteChunk` gets to `Delete` only with a chunk id and past its preamble. -/
theorem deleteChunkPlan_passed {request : DeleteChunkRequest} {id : ChunkId}
    (h : deleteChunkPlan service request = .ok id) :
    ChunkId.parse request.chunkId = .ok id ∧
      runPreamble service request.protocolVersion (some request.capabilityToken) (some id) =
        none := by
  unfold deleteChunkPlan at h
  dsimp only at h
  split at h
  · cases h
  · rename_i hid
    split at h
    · split at h <;> cases h
    · rename_i hpre
      cases h
      exact ⟨hid, hpre⟩

theorem deleteChunkPlan_ok {request : DeleteChunkRequest} {id : ChunkId}
    (h : deleteChunkPlan service request = .ok id) :
    Rpc.requestedId (.deleteChunk request) = some id := by
  obtain ⟨hid, _⟩ := deleteChunkPlan_passed h
  simp [Rpc.requestedId, hid, Except.toOption]

/-- Only a status other than OK is forwarded. -/
theorem refuseFirst_ne_OK {maxChunkBytes : Nat} {first : GetChunkResponse} {status : ChunkStatus}
    (h : refuseFirst maxChunkBytes first = some status) : status ≠ .OK := by
  unfold refuseFirst at h
  split at h
  · split at h
    · rename_i hne
      cases h
      exact hne
    · split at h
      · cases h; simp
      · cases h
  · cases h

/-- No way out of `ReplicateChunk` before `Put` looks like success. -/
theorem replicatePlan_error {id : ChunkId} {reply : Reply} {r : Status × ReplicateChunkResponse}
    (h : replicatePlan service id reply = .error r) : ¬ (r.1.code = .OK ∧ r.2.status = .OK) := by
  unfold replicatePlan at h
  dsimp only at h
  split at h
  · cases h; simp
  · split at h
    · rename_i status hst
      cases h
      exact fun hok => refuseFirst_ne_OK hst hok.2
    · split at h
      · cases h; simp [Status.threw]
      · split at h
        · cases h; simp [Status.threw]
        · split at h
          · cases h; simp
          · cases h

/-- `ReplicateChunk` gets to `Put` exactly when the first message is accepted, the
announced size and the data after it fit in a vector, and the source ends with OK. -/
theorem replicatePlan_eq_ok {id id' : ChunkId} {reply : Reply} {payload : Bytes} :
    replicatePlan service id reply = .ok (id', payload) ↔
      id' = id ∧ ∃ first rest, reply.messages = first :: rest ∧
        refuseFirst service.maxChunkBytes first = none ∧ expectedSize first ≤ vectorMaxSize ∧
        collectFrames [] rest = some payload ∧ reply.status.code = .OK := by
  constructor
  · intro h
    unfold replicatePlan at h
    dsimp only at h
    split at h
    · cases h
    · rename_i first rest hmessages
      split at h
      · cases h
      · rename_i hfirst
        split at h
        · cases h
        · rename_i hreserve
          split at h
          · cases h
          · rename_i hframes
            split at h
            · cases h
            · rename_i hstatus
              cases h
              exact ⟨rfl, first, rest, hmessages, hfirst, Nat.not_lt.mp hreserve, hframes,
                not_not.mp hstatus⟩
  · intro h
    obtain ⟨rfl, first, rest, hmessages, hfirst, hreserve, hframes, hstatus⟩ := h
    simp only [replicatePlan, hmessages, hfirst, if_neg (Nat.not_lt.mpr hreserve), hframes,
      if_neg (not_not.mpr hstatus)]

theorem replicatePlan_ok {id id' : ChunkId} {reply : Reply} {payload : Bytes}
    (h : replicatePlan service id reply = .ok (id', payload)) : id' = id :=
  (replicatePlan_eq_ok.mp h).1

end Answers

section Atomicity

variable {sha256 : Bytes → Digest} {pol : Policy} {service : Service} {s t : Store} {id : ChunkId}

/-- `Put` on its own: done, and the entry of the id is right, or an error, and
nothing has changed. -/
theorem localStore_put {data : Bytes} {putRes : Result Unit} (hinv : DiskInv sha256 s.disk)
    (h : localStore sha256 pol (.put id data) s putRes t) :
    (putRes = .ok () ∧ (∀ id', id' ≠ id → view t id' = view s id') ∧
      ∃ b, view t id = some b ∧ sha256 b = id.digest) ∨
    ((∃ e, putRes = .error e) ∧ view t = view s) := by
  obtain ⟨hinv', hspec, hothers⟩ := localStore_spec hinv h
  rcases hspec with ⟨_, rfl, he⟩ | ⟨_, ⟨rfl, hsome, he⟩ | ⟨rfl, _, he⟩ | ⟨_, ⟨m, rfl⟩, he⟩⟩
  · exact .inr ⟨⟨_, rfl⟩, eq_of_others hothers he⟩
  · obtain ⟨b, hb⟩ := Option.ne_none_iff_exists'.mp hsome
    rw [hb] at he
    exact .inl ⟨rfl, hothers, b, he, hinv'.hash he⟩
  · exact .inl ⟨rfl, hothers, data, he, hinv'.hash he⟩
  · exact .inr ⟨⟨_, rfl⟩, eq_of_others hothers he⟩

/-- `Delete` on its own, when probes do not lie. -/
theorem localStore_delete {delRes : Result Unit} (hprobe : pol.probeFault = false)
    (hinv : DiskInv sha256 s.disk) (h : localStore sha256 pol (.delete id) s delRes t) :
    (delRes = .ok () ∧ (∀ id', id' ≠ id → view t id' = view s id') ∧ view t id = none) ∨
    ((∃ e, delRes = .error e) ∧ view t = view s) := by
  obtain ⟨_, hspec, hothers⟩ := localStore_spec hinv h
  rcases hspec with ⟨rfl, he⟩ | ⟨hp, _⟩ | ⟨_, ⟨m, rfl⟩, he⟩
  · exact .inl ⟨rfl, hothers, he⟩
  · rw [hprobe] at hp
    cases hp
  · exact .inr ⟨⟨_, rfl⟩, eq_of_others hothers he⟩

/-- **Updates are atomic.** In every state a node can get into, with any
failures of the file system except of its probes, whatever a client streams and
wherever it stops, and whatever another node replies: an update that does not end
with OK changes no chunk; one that does changes the entry of its id alone, which
is then right. -/
theorem rpc_atomic {context : ServerContext} {rpc : Rpc} {r : rpc.Ret}
    {w : List (GetChunkResponse × Bool)}
    (hs : NodeReach sha256 .faithfulProbes service (fun _ => True) s) (hupdate : rpc.IsUpdate)
    (h : RpcRun (localStore sha256 .faithfulProbes) anyReply service context rpc s r w t) :
    (¬ rpc.Succeeds r → view t = view s) ∧
    (rpc.Succeeds r → ∃ id, rpc.requestedId = some id ∧
      (∀ id', id' ≠ id → view t id' = view s id') ∧ rpc.Leaves sha256 id (view t id)) := by
  have hinv := hs.inv
  cases rpc with
  | putChunk reader =>
    rcases follows_map_cases (rpcRun_putChunk.mp h).1 with ⟨hplan, rfl⟩ | ⟨x, res, hplan, hop, rfl⟩
    · exact ⟨fun _ => rfl, fun hok => absurd hok (putChunkPlan_error hplan)⟩
    · rcases localStore_put hinv hop with ⟨rfl, hothers, hb⟩ | ⟨⟨e, rfl⟩, heq⟩
      · refine ⟨fun hno => absurd ⟨rfl, rfl⟩ hno, fun _ => ?_⟩
        exact ⟨x.1, putChunkPlan_ok hplan, hothers, hb⟩
      · exact ⟨fun _ => heq, fun hok => absurd hok.2 (mapStoreError_ne_OK e.kind)⟩
  | deleteChunk request =>
    rcases follows_map_cases (rpcRun_deleteChunk.mp h).1 with ⟨hplan, rfl⟩ | ⟨id, res, hplan, hop, rfl⟩
    · exact ⟨fun _ => rfl, fun hok => absurd hok (deleteChunkPlan_error hplan)⟩
    · rcases localStore_delete rfl hinv hop with ⟨rfl, hothers, hb⟩ | ⟨⟨e, rfl⟩, heq⟩
      · refine ⟨fun hno => absurd ⟨rfl, rfl⟩ hno, fun _ => ?_⟩
        exact ⟨id, deleteChunkPlan_ok hplan, hothers, hb⟩
      · exact ⟨fun _ => heq, fun hok => absurd hok.2 (mapStoreError_ne_OK e.kind)⟩
  | replicateChunk request =>
    have hrun := rpcRun_replicateChunk h
    split at hrun
    · rename_i st hplan
      obtain ⟨rfl, rfl⟩ := hrun
      exact ⟨fun _ => rfl, fun hok => absurd hok.1 (readPlan_error hplan)⟩
    · rename_i id hread
      obtain ⟨cid, reply, _, ⟨_, rfl⟩, hfollow⟩ := hrun
      rcases follows_map_cases hfollow with ⟨hplan, rfl⟩ | ⟨x, res, hplan, hop, rfl⟩
      · exact ⟨fun _ => rfl, fun hok => absurd hok (replicatePlan_error hplan)⟩
      · obtain rfl := replicatePlan_ok hplan
        rcases localStore_put hinv hop with ⟨rfl, hothers, hb⟩ | ⟨⟨e, rfl⟩, heq⟩
        · refine ⟨fun hno => absurd ⟨rfl, rfl⟩ hno, fun _ => ⟨x.1, ?_, hothers, hb⟩⟩
          simp [Rpc.requestedId, (readPlan_eq_ok.mp hread).2, Except.toOption]
        · exact ⟨fun _ => heq, fun hok => absurd hok.2 (mapStoreError_ne_OK e.kind)⟩
  | getChunk request => exact absurd hupdate id
  | verifyChunk request => exact absurd hupdate id
  | getNodeStats request => exact absurd hupdate id

end Atomicity

/-- The first message of an upload of `abc`. -/
def abcFirst : PutChunkRequest :=
  ⟨kCurrentProtocolVersion, some (.metadata ⟨ChunkId.ofAbc.hex, [], 3⟩)⟩

/-- An upload of `abc` in one frame. -/
def abcUpload : List PutChunkRequest :=
  [abcFirst, ⟨kCurrentProtocolVersion, some (.dataChunk abcBytes)⟩]

theorem putChunkPlan_abcUpload {service : Service} (hmax : 3 ≤ service.maxChunkBytes)
    (htoken : service.validate [] .ofAbc = true) :
    putChunkPlan service abcUpload = .ok (.ofAbc, abcBytes) := by
  refine putChunkPlan_eq_ok.mpr ⟨_, _, _, rfl, rfl, ChunkId.parse_hex _, ?_, hmax, by decide, ?_⟩
  · simp [runPreamble, checkProtocolVersion, abcFirst, htoken]
  · simp [receiveFrames, PutChunkRequest.data, abcBytes, hmax, vectorMaxSize]

theorem rpcRun_abcUpload (pol : Policy) (context : ServerContext) {service : Service}
    (hmax : 3 ≤ service.maxChunkBytes) (htoken : service.validate [] .ofAbc = true) :
    RpcRun (localStore knownSha256 pol) anyReply service context (.putChunk abcUpload) Store.empty
      (putChunkAnswer (.ok ())) [] abcStore := by
  rw [rpcRun_putChunk, putChunkPlan_abcUpload hmax htoken]
  have hok : (execute (put knownSha256 .ofAbc abcBytes default) Store.empty).1 = .ok () := rfl
  refine ⟨⟨.ok (), ⟨default, ?_⟩, rfl⟩, rfl⟩
  exact (runs_noFault_iff.mpr (Prod.ext hok rfl)).mono (noFault_sem_le pol)

theorem rpc_atomic_abcUpload :
    Rpc.Succeeds (.putChunk abcUpload) (putChunkAnswer (.ok ())) ∧
      ∃ id, Rpc.requestedId (.putChunk abcUpload) = some id ∧
        (∀ id', id' ≠ id → view abcStore id' = view Store.empty id') ∧
        ∃ b, view abcStore id = some b ∧ knownSha256 b = id.digest := by
  have hstart : NodeReach knownSha256 .faithfulProbes { maxChunkBytes := 4 } (fun _ => True)
      Store.empty := .start Disk.isEmpty_empty
  have hmax : 3 ≤ ({ maxChunkBytes := 4 } : Service).maxChunkBytes := by decide
  have hrun := rpcRun_abcUpload .faithfulProbes ⟨[]⟩ hmax rfl
  have hupdate : Rpc.IsUpdate (.putChunk abcUpload) := trivial
  exact ⟨⟨rfl, rfl⟩, (rpc_atomic hstart hupdate hrun).2 ⟨rfl, rfl⟩⟩

end NimbusFs.StorageNode
