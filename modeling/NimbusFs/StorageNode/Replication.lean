import NimbusFs.StorageNode.RoundTrip

/-! # Replication between two nodes

The destination serves `ReplicateChunk` and asks the source with `GetChunk`; both
run the same service, each over its own store. The link between them delivers
some of the messages, in order, and tells the destination how the stream ended. -/
namespace NimbusFs.StorageNode

open NimbusFs.Common Lib

/-! ## The link -/

/-- How a stream ends: after all messages with the status of the server, or
broken after some of them, with a status of its own. -/
inductive Ending
  | normal
  | broken (delivered : Nat) (status : Status) (not_ok : status.code ≠ .OK)

/-- What the client of a stream gets of the messages that the server wrote. -/
def Ending.Delivers : Ending → Status → List (GetChunkResponse × Bool) → Reply → Prop
  | .normal, st, w, reply => (∀ x ∈ w, x.2 = true) ∧ reply = ⟨w.map Prod.fst, st⟩
  | .broken delivered status _, _, w, reply => reply = ⟨(w.map Prod.fst).take delivered, status⟩

/-- The first message gets through. -/
def Ending.DeliversFirst : Ending → Prop
  | .normal => True
  | .broken delivered _ _ => 0 < delivered

/-! ## Two nodes -/

/-- The stores of the two nodes. -/
structure TwoNodes where
  destination : Store
  source : Store

/-- The destination has a store of its own. -/
def destinationStore (sha256 : Bytes → Digest) : ChunkStoreSem TwoNodes := fun o n r n' =>
  localStore sha256 .noFault o n.destination r n'.destination ∧ n'.source = n.source

/-- The source serves `GetChunk`, under the correlation id it is sent. -/
def sourceNode (sha256 : Bytes → Digest) (service : Service) (link : Ending) : PeerSem TwoNodes :=
  fun _ cid request n reply n' =>
    ∃ st w, FaultFreeRun sha256 service ⟨[(kCorrelationIdMetadataKey, cid)]⟩ (.getChunk request)
        n.source st w n'.source ∧
      link.Delivers st w reply ∧ n'.destination = n.destination

/-- `ReplicateChunk` on the destination, from start to end. -/
def ReplicationRun (sha256 : Bytes → Digest) (destination source : Service) (link : Ending)
    (context : ServerContext) (request : ReplicateChunkRequest) (n : TwoNodes)
    (r : Status × ReplicateChunkResponse) (n' : TwoNodes) : Prop :=
  ∃ w, RpcRun (destinationStore sha256) (sourceNode sha256 source link) destination context
    (.replicateChunk request) n r w n'

/-! ## What the destination makes of the stream -/

theorem dataOf_cons (m : GetChunkResponse) (rest : List GetChunkResponse) :
    dataOf (m :: rest) = m.data.getD [] ++ dataOf rest := by
  cases hd : m.data <;> simp [dataOf, hd]

/-- The loop of `ReplicateChunk` joins the data it is sent, as long as they fit in a
vector. -/
theorem collectFrames_eq_some {payload b : Bytes} {messages : List GetChunkResponse}
    (hpayload : payload.length ≤ vectorMaxSize) :
    collectFrames payload messages = some b ↔
      payload.length + (dataOf messages).length ≤ vectorMaxSize ∧ b = payload ++ dataOf messages := by
  induction messages generalizing payload with
  | nil => simp [collectFrames, dataOf, hpayload, eq_comm]
  | cons m rest ih =>
    rw [dataOf_cons]
    unfold collectFrames
    cases m.data with
    | none => exact ih hpayload
    | some data =>
      rw [Option.getD_some, List.length_append, ← List.append_assoc]
      dsimp only
      split
      · simp only [reduceCtorEq, false_iff]
        omega
      · rw [ih (by rw [List.length_append]; omega), List.length_append, Nat.add_assoc]

theorem collectFrames_eq {messages : List GetChunkResponse}
    (h : (dataOf messages).length ≤ vectorMaxSize) : collectFrames [] messages = some (dataOf messages) :=
  (collectFrames_eq_some (Nat.zero_le _)).mpr ⟨by simpa using h, rfl⟩

/-- What fits in a vector is all that a request puts. -/
theorem Planned.fits {service : Service} {allowed : Reply → Prop} {rpc : Rpc} {id : ChunkId}
    {data : Bytes} (h : Planned service allowed rpc (.put id data)) :
    data.length ≤ vectorMaxSize := by
  cases h with
  | putChunk hplan =>
    obtain ⟨first, frames, m, _, _, _, _, _, _, hframes⟩ := putChunkPlan_eq_ok.mp hplan
    obtain ⟨_, hfits, rfl⟩ := (receiveFrames_eq_ok (Nat.zero_le _) (Nat.zero_le _)).mp hframes
    simpa using hfits
  | replicateChunk _ _ hplan =>
    obtain ⟨_, first, rest, _, _, _, hframes, _⟩ := replicatePlan_eq_ok.mp hplan
    obtain ⟨hfits, rfl⟩ := (collectFrames_eq_some (Nat.zero_le _)).mp hframes
    simpa using hfits

/-- So it is all that a node stores. -/
theorem NodeReach.fits {sha256 : Bytes → Digest} {pol : Policy} {service : Service}
    {allowed : Reply → Prop} {s : Store} (h : NodeReach sha256 pol service allowed s) {id : ChunkId}
    {b : Bytes} (hb : view s id = some b) : b.length ≤ vectorMaxSize := by
  let J (m : ChunkMap) : Prop := ∀ id b, m id = some b → b.length ≤ vectorMaxSize
  have hstep : ∀ rpc o, Planned service allowed rpc o → ∀ r m m', J m →
      MapSpec sha256 pol m o r m' → J m' := by
    intro rpc o hplan r m m' hm hspec id b hb
    rcases mapSpec_entry hspec hb with hold | rfl
    · exact hm id b hold
    · exact hplan.fits
  exact (h.keeps (J := J) (fun _ _ hnone => nomatch hnone) hstep).2 id b hb

section Plan

variable {service : Service} {id : ChunkId} {link : Ending} {reply : Reply}
variable {w : List (GetChunkResponse × Bool)}

/-- The plan for a reply that starts with metadata, when no vector throws. -/
theorem replicatePlan_metadata {size : Nat} {status : ChunkStatus} {rest : List GetChunkResponse}
    {st : Status}
    (hfits : status = .OK → size ≤ vectorMaxSize ∧ (dataOf rest).length ≤ vectorMaxSize) :
    replicatePlan service id ⟨metadataMessage size status :: rest, st⟩ =
      if status ≠ .OK then .error (Status.OK, ⟨kCurrentProtocolVersion, status⟩)
      else if service.maxChunkBytes < size then
        .error (Status.OK, ⟨kCurrentProtocolVersion, .CHUNK_TOO_LARGE⟩)
      else if st.code ≠ .OK then
        .error (Status.OK, ⟨kCurrentProtocolVersion, .SOURCE_UNREACHABLE⟩)
      else .ok (id, dataOf rest) := by
  by_cases hst : status ≠ .OK
  · simp only [replicatePlan, refuseFirst, metadataMessage_metadata, if_pos hst]
  · by_cases hsize : service.maxChunkBytes < size
    · simp only [replicatePlan, refuseFirst, metadataMessage_metadata, if_neg hst, if_pos hsize]
    · obtain ⟨hsizeFits, hrestFits⟩ := hfits (not_not.mp hst)
      have hreserve : ¬ expectedSize (metadataMessage size status) > vectorMaxSize :=
        Nat.not_lt.mpr hsizeFits
      simp only [replicatePlan, refuseFirst, metadataMessage_metadata, if_neg hst, if_neg hsize,
        if_neg hreserve, collectFrames_eq hrestFits]

/-- What the source offers is the entry it has, and the plan follows from it and
from the link. -/
theorem replicatePlan_source {e : Option Bytes} (hfits : ∀ b, e = some b → b.length ≤ vectorMaxSize)
    (hsent : Sends w (lookupResult e)) (hlink : link.Delivers Status.OK w reply) :
    (∃ b, e = some b ∧ b.length ≤ service.maxChunkBytes ∧ link = .normal ∧
      replicatePlan service id reply = .ok (id, b)) ∨
    (¬ ((∃ b, e = some b ∧ b.length ≤ service.maxChunkBytes) ∧ link = .normal) ∧
      ∃ status, replicatePlan service id reply =
          .error (Status.OK, ⟨kCurrentProtocolVersion, status⟩) ∧
        status ≠ .OK ∧ (e = none → link.DeliversFirst → status = .NOT_FOUND)) := by
  cases link with
  | normal =>
    obtain ⟨hall, rfl⟩ := hlink
    cases e with
    | none =>
      obtain ⟨ok, rfl⟩ := hsent
      refine .inr ⟨?_, .NOT_FOUND, ?_, by simp, fun _ _ => rfl⟩
      · intro hno
        obtain ⟨⟨b, hb, _⟩, _⟩ := hno
        cases hb
      · exact replicatePlan_metadata fun hok => by cases hok
    | some b =>
      obtain ⟨ok, w', rfl, hatt⟩ := hsent
      have hmap := hatt.written_eq fun x hx => hall x (List.mem_cons_of_mem _ hx)
      have hb := hfits b rfl
      rw [List.map_cons, hmap, replicatePlan_metadata fun _ => ⟨hb, by rwa [dataOf_frameMessages]⟩,
        if_neg (by simp), dataOf_frameMessages]
      by_cases hlen : b.length ≤ service.maxChunkBytes
      · rw [if_neg (Nat.not_lt.mpr hlen), if_neg (by simp [Status.OK])]
        exact .inl ⟨b, rfl, hlen, rfl, rfl⟩
      · rw [if_pos (Nat.not_le.mp hlen)]
        refine .inr ⟨?_, .CHUNK_TOO_LARGE, rfl, by simp, fun he => by cases he⟩
        intro hno
        obtain ⟨⟨b', hb, hlen'⟩, _⟩ := hno
        cases hb
        exact hlen hlen'
  | broken delivered status hne =>
    obtain rfl := hlink
    refine .inr ⟨fun hno => (nomatch hno.2), ?_⟩
    cases delivered with
    | zero =>
      exact ⟨.SOURCE_UNREACHABLE, rfl, by simp, fun _ hfirst => absurd hfirst (Nat.lt_irrefl 0)⟩
    | succ k =>
      cases e with
      | none =>
        obtain ⟨ok, rfl⟩ := hsent
        exact ⟨.NOT_FOUND, replicatePlan_metadata (fun hok => by cases hok), by simp, fun _ _ => rfl⟩
      | some b =>
        obtain ⟨ok, w', rfl, hatt⟩ := hsent
        have hb := hfits b rfl
        have hpart : (dataOf ((w'.map Prod.fst).take k)).length ≤ vectorMaxSize := by
          have hpre := dataOf_isPrefix ((List.take_prefix k _).trans hatt.written_isPrefix)
          rw [dataOf_frameMessages] at hpre
          exact hpre.length_le.trans hb
        rw [List.map_cons, List.take_succ_cons, replicatePlan_metadata fun _ => ⟨hb, hpart⟩,
          if_neg (by simp)]
        by_cases hlen : service.maxChunkBytes < b.length
        · rw [if_pos hlen]
          exact ⟨.CHUNK_TOO_LARGE, rfl, by simp, fun he => by cases he⟩
        · rw [if_neg hlen, if_pos hne]
          exact ⟨.SOURCE_UNREACHABLE, rfl, by simp, fun he => by cases he⟩

end Plan

section Between

variable {sha256 : Bytes → Digest} {destination source : Service} {link : Ending}
variable {context : ServerContext} {request : ReplicateChunkRequest} {n n' : TwoNodes}
variable {r : Status × ReplicateChunkResponse} {id : ChunkId}

theorem exists_replicationRun (sha256 : Bytes → Digest) (destination source : Service)
    (link : Ending) (context : ServerContext) (request : ReplicateChunkRequest) (n : TwoNodes) :
    ∃ r n', ReplicationRun sha256 destination source link context request n r n' := by
  have hstore : ∀ o n, ∃ r n', destinationStore sha256 o n r n' := by
    intro o n
    obtain ⟨r, t, h⟩ := localStore_total sha256 .noFault o n.destination
    exact ⟨r, ⟨t, n.source⟩, h, rfl⟩
  have hpeer : ∀ address cid get n,
      ∃ reply n', sourceNode sha256 source link address cid get n reply n' := by
    intro address cid get n
    obtain ⟨st, w, t, hrun, hall⟩ := exists_faultFreeRun sha256 source
      ⟨[(kCorrelationIdMetadataKey, cid)]⟩ (.getChunk get) n.source
    cases link with
    | normal => exact ⟨_, ⟨n.destination, t⟩, st, w, hrun, ⟨hall, rfl⟩, rfl⟩
    | broken k status hne => exact ⟨_, ⟨n.destination, t⟩, st, w, hrun, rfl, rfl⟩
  obtain ⟨r, w, n', h, _⟩ := exists_rpcRun hstore hpeer destination context
    (.replicateChunk request) n
  exact ⟨r, n', w, h⟩

/-- `Get` without faults, on its own, reads the map. -/
theorem execute_get_view {s : Store} (hinv : DiskInv sha256 s.disk) (id : ChunkId) :
    (execute (get sha256 id) s).1 = lookupResult (view s id) := by
  have hrun : localStore sha256 .noFault (.get id) s (execute (get sha256 id) s).1
      (execute (get sha256 id) s).2 := ⟨default, runs_noFault_iff.mpr rfl⟩
  exact (referenceMap_of_noFault (localStore_spec hinv hrun).2).1

/-- The destination asks the source, whose chunks stay as they are, and follows
its plan. -/
theorem ReplicationRun.cases
    (hsource : DiskInv sha256 n.source.disk)
    (hversion : request.protocolVersion = kCurrentProtocolVersion)
    (hid : ChunkId.parse request.chunkId = .ok id)
    (h : ReplicationRun sha256 destination source link context request n r n') :
    view n'.source = view n.source ∧ ∃ reply sent, Sends sent (lookupResult (view n.source id)) ∧
      link.Delivers Status.OK sent reply ∧
      Follows (localStore sha256 .noFault)
        ((replicatePlan destination id reply).map (putStep replicateAnswer)) n.destination r
        n'.destination := by
  obtain ⟨w, hrun⟩ := h
  have hrun := rpcRun_replicateChunk hrun
  rw [readPlan_eq_ok.mpr ⟨hversion, hid⟩] at hrun
  obtain ⟨cid, reply, u, ⟨st, sent, hget, hlink, hdest⟩, hfollow⟩ := hrun
  obtain ⟨rfl, hsent, _, hview⟩ := rpcRun_getChunk_noFault hsource rfl (ChunkId.parse_hex id) hget
  cases hplan : replicatePlan destination id reply with
  | error res =>
    rw [hplan] at hfollow
    obtain ⟨rfl, rfl⟩ := hfollow
    exact ⟨hview, reply, sent, hsent, hlink, by rw [hplan]; exact ⟨rfl, hdest⟩⟩
  | ok x =>
    rw [hplan] at hfollow
    obtain ⟨putRes, ⟨hput, hsame⟩, rfl⟩ := hfollow
    rw [hdest] at hput
    exact ⟨hsame ▸ hview, reply, sent, hsent, hlink, by rw [hplan]; exact ⟨putRes, hput, rfl⟩⟩

/-- **Replication between two nodes.** From any states the nodes can get into,
without faults of their disks, over a link that may break after any message:
`ReplicateChunk` is answered, and ends with OK exactly when the source has the
chunk, it fits the destination, and the stream ended normally; then the
destination has the bytes of the source. A chunk that the source lacks is
`NOT_FOUND` when its answer arrives. Without OK the destination is as before, and
the source always is. -/
theorem replicate_between {pol pol' : Policy} {allowed allowed' : Reply → Prop}
    {known : Bytes → Prop} (link : Ending) (context : ServerContext)
    (request : ReplicateChunkRequest) (n : TwoNodes)
    (hdestination : NodeReach sha256 pol destination allowed n.destination)
    (hsource : NodeReach sha256 pol' source allowed' n.source)
    (hversion : request.protocolVersion = kCurrentProtocolVersion)
    (hid : ChunkId.parse request.chunkId = .ok id) (hfree : CollisionFree sha256 known)
    (hknown : ∀ b, view n.source id = some b ∨ view n.destination id = some b → known b) :
    (∃ r n', ReplicationRun sha256 destination source link context request n r n') ∧
    ∀ r n', ReplicationRun sha256 destination source link context request n r n' →
      (Rpc.Succeeds (.replicateChunk request) r ↔
        (∃ b, view n.source id = some b ∧ b.length ≤ destination.maxChunkBytes) ∧
          link = .normal) ∧
      (Rpc.Succeeds (.replicateChunk request) r → ∃ b, view n.source id = some b ∧
        (execute (get sha256 id) n'.destination).1 = .ok b) ∧
      (view n.source id = none → link.DeliversFirst → r.2.status = .NOT_FOUND) ∧
      (¬ Rpc.Succeeds (.replicateChunk request) r → view n'.destination = view n.destination) ∧
      view n'.source = view n.source := by
  refine ⟨exists_replicationRun sha256 destination source link context request n, ?_⟩
  intro r n' h
  obtain ⟨hview, reply, sent, hsent, hlink, hfollow⟩ := h.cases hsource.inv hversion hid
  rcases replicatePlan_source (fun b hb => hsource.fits hb) hsent hlink with
    ⟨b, hb, hlen, hnormal, hplan⟩ | ⟨hno, status, hplan, hne, hnotfound⟩
  · rw [hplan] at hfollow
    obtain ⟨putRes, hput, rfl⟩ := hfollow
    have hsha : sha256 b = id.digest := hsource.inv.hash hb
    obtain ⟨hinv', ⟨hbad, _⟩ | ⟨_, rfl, hstored⟩⟩ :=
      localStore_put_noFault hdestination.inv hput
    · exact absurd hsha hbad
    · have hok : Rpc.Succeeds (.replicateChunk request) (replicateAnswer (.ok ())) := ⟨rfl, rfl⟩
      refine ⟨⟨fun _ => ⟨⟨b, hb, hlen⟩, hnormal⟩, fun _ => hok⟩, fun _ => ⟨b, hb, ?_⟩, ?_,
        fun hnot => absurd hok hnot, hview⟩
      · rw [execute_get_view hinv', hstored, stored_eq_of_collisionFree hdestination.inv hfree
          (hknown b (.inl hb)) (fun b' hb' => hknown b' (.inr hb')) hsha]
        rfl
      · intro hnone
        rw [hb] at hnone
        cases hnone
  · rw [hplan] at hfollow
    obtain ⟨rfl, hsame⟩ := hfollow
    have hnot : ¬ Rpc.Succeeds (.replicateChunk request)
        (Status.OK, ⟨kCurrentProtocolVersion, status⟩) := fun hok => hne hok.2
    exact ⟨⟨fun hok => absurd hok hnot, fun hyes => absurd hyes hno⟩, fun hok => absurd hok hnot,
      hnotfound, fun _ => by rw [hsame], hview⟩

end Between

theorem view_abcStore : view abcStore .ofAbc = some abcBytes := rfl

/-- A node that took `abc` hands it to an empty one. -/
theorem replicate_between_abc :
    ∃ r n', ReplicationRun knownSha256 { maxChunkBytes := 3 } { maxChunkBytes := 4 } .normal ⟨[]⟩
        ⟨kCurrentProtocolVersion, ChunkId.ofAbc.hex, []⟩ ⟨Store.empty, abcStore⟩ r n' ∧
      Rpc.Succeeds (.replicateChunk ⟨kCurrentProtocolVersion, ChunkId.ofAbc.hex, []⟩) r ∧
      (execute (get knownSha256 .ofAbc) n'.destination).1 = .ok abcBytes := by
  have hempty : NodeReach knownSha256 .noFault { maxChunkBytes := 3 } (fun _ => True)
      Store.empty := .start Disk.isEmpty_empty
  have hmax : 3 ≤ ({ maxChunkBytes := 4 } : Service).maxChunkBytes := by decide
  have habc : NodeReach knownSha256 .noFault { maxChunkBytes := 4 } (fun _ => True) abcStore :=
    .serve (.start Disk.isEmpty_empty) (rpcRun_abcUpload .noFault ⟨[]⟩ hmax rfl)
  have hfree : CollisionFree knownSha256 (· = abcBytes) := fun a b ha hb _ => ha.trans hb.symm
  have hknown : ∀ b, view abcStore .ofAbc = some b ∨ view Store.empty .ofAbc = some b →
      b = abcBytes := by
    intro b hb
    rcases hb with hb | hb
    · rw [view_abcStore] at hb
      cases hb
      rfl
    · rw [Disk.isEmpty_empty.view] at hb
      cases hb
  obtain ⟨⟨r, n', hrun⟩, hall⟩ := replicate_between .normal ⟨[]⟩
    ⟨kCurrentProtocolVersion, ChunkId.ofAbc.hex, []⟩ ⟨Store.empty, abcStore⟩ hempty habc rfl
    (ChunkId.parse_hex .ofAbc) hfree hknown
  obtain ⟨hiff, hget, _⟩ := hall r n' hrun
  have hok := hiff.mpr ⟨⟨abcBytes, view_abcStore, by decide⟩, rfl⟩
  obtain ⟨b, hb, hread⟩ := hget hok
  rw [view_abcStore] at hb
  cases hb
  exact ⟨r, n', hrun, hok, hread⟩

end NimbusFs.StorageNode
