import NimbusFs.StorageNode.Replication

/-! # The limit on the size of a chunk

`max_chunk_bytes` is the hard limit for the payload of a chunk. `PutChunk`
checks it at each frame. `ReplicateChunk` checks only the size that the first
message announces, if that is metadata at all, and then joins whatever follows:
the limit holds there exactly as long as the peers keep to it. -/
namespace NimbusFs.StorageNode

open NimbusFs.Common Lib

/-! ## The payload of a handler -/

/-- The payload at the end of the loop of `PutChunk`, whichever way it ends. -/
def payloadOf : Except (FrameError × Bytes) Bytes → Bytes
  | .ok payload => payload
  | .error (_, payload) => payload

/-- `b` is the payload that a handler has joined at some moment: after some of
the messages that follow an accepted first one. -/
inductive Accumulates (service : Service) (allowed : Reply → Prop) : Rpc → Bytes → Prop
  | putChunk {first frames m id} (k : Nat) : first.payload = some (.metadata m) →
      ChunkId.parse m.chunkId = .ok id →
      runPreamble service first.protocolVersion (some m.capabilityToken) (some id) = none →
      m.totalSizeBytes ≤ service.maxChunkBytes → m.totalSizeBytes ≤ vectorMaxSize →
      Accumulates service allowed (.putChunk (first :: frames))
        (payloadOf (receiveFrames service.maxChunkBytes [] (frames.take k)))
  | replicateChunk {request id reply first rest b} (k : Nat) :
      readPlan service request.protocolVersion request.chunkId = .ok id → allowed reply →
      reply.messages = first :: rest → refuseFirst service.maxChunkBytes first = none →
      expectedSize first ≤ vectorMaxSize → collectFrames [] (rest.take k) = some b →
      Accumulates service allowed (.replicateChunk request) b

/-- The limit holds for a node whose peers reply as `allowed` says: in what the
handlers join, and in what the node stores. -/
structure SizeLimited (sha256 : Bytes → Digest) (pol : Policy) (service : Service)
    (allowed : Reply → Prop) : Prop where
  payload : ∀ rpc b, Accumulates service allowed rpc b → b.length ≤ service.maxChunkBytes
  stored : ∀ s, NodeReach sha256 pol service allowed s → ∀ id b, view s id = some b →
    b.length ≤ service.maxChunkBytes

/-- The data that a peer streams after a first message that `ReplicateChunk`
accepts is within the limit, as far as it fits in a vector. -/
def RepliesWithin (maxChunkBytes : Nat) (allowed : Reply → Prop) : Prop :=
  ∀ reply first rest k, allowed reply → reply.messages = first :: rest →
    refuseFirst maxChunkBytes first = none → expectedSize first ≤ vectorMaxSize →
    (dataOf (rest.take k)).length ≤ vectorMaxSize → (dataOf (rest.take k)).length ≤ maxChunkBytes

/-! ## Where the limit is kept -/

section Limit

variable {sha256 : Bytes → Digest} {pol : Policy} {service : Service} {allowed : Reply → Prop}

/-- The running check of `PutChunk` keeps the limit. -/
theorem receiveFrames_bounded {maxChunkBytes : Nat} {payload : Bytes}
    (frames : List PutChunkRequest) (hpayload : payload.length ≤ maxChunkBytes) :
    (payloadOf (receiveFrames maxChunkBytes payload frames)).length ≤ maxChunkBytes := by
  induction frames generalizing payload with
  | nil => exact hpayload
  | cons frame rest ih =>
    unfold receiveFrames
    split
    · exact ih hpayload
    · split
      · exact hpayload
      · split
        · exact hpayload
        · exact ih (by rw [List.length_append]; omega)

theorem Accumulates.bounded (hwithin : RepliesWithin service.maxChunkBytes allowed) {rpc : Rpc}
    {b : Bytes} (h : Accumulates service allowed rpc b) : b.length ≤ service.maxChunkBytes := by
  cases h with
  | putChunk k _ _ _ _ _ => exact receiveFrames_bounded _ (Nat.zero_le _)
  | @replicateChunk _ _ reply first rest _ k _ hreply hmessages hfirst hreserve hframes =>
    obtain ⟨hfits, rfl⟩ := (collectFrames_eq_some (Nat.zero_le _)).mp hframes
    rw [List.length_nil, Nat.zero_add] at hfits
    exact hwithin reply first rest k hreply hmessages hfirst hreserve hfits

/-- What a request will put, its handler has joined before. -/
theorem Planned.accumulates {rpc : Rpc} {id : ChunkId} {data : Bytes}
    (h : Planned service allowed rpc (.put id data)) : Accumulates service allowed rpc data := by
  cases h with
  | putChunk hplan =>
    obtain ⟨first, frames, m, rfl, hm, hid, hpre, hsize, hreserve, hframes⟩ :=
      putChunkPlan_eq_ok.mp hplan
    have hall : Accumulates service allowed (.putChunk (first :: frames)) _ :=
      .putChunk frames.length hm hid hpre hsize hreserve
    rwa [List.take_length, hframes] at hall
  | @replicateChunk _ _ reply _ _ hread hreply hplan =>
    obtain ⟨_, first, rest, hmessages, hfirst, hreserve, hframes, _⟩ := replicatePlan_eq_ok.mp hplan
    exact .replicateChunk rest.length hread hreply hmessages hfirst hreserve
      (by rwa [List.take_length])

/-- A node stores nothing that its handlers did not join. -/
theorem NodeReach.stored_accumulated {s : Store} (h : NodeReach sha256 pol service allowed s)
    {id : ChunkId} {b : Bytes} (hb : view s id = some b) :
    ∃ rpc, Accumulates service allowed rpc b := by
  let J (m : ChunkMap) : Prop := ∀ id b, m id = some b → ∃ rpc, Accumulates service allowed rpc b
  have hstep : ∀ rpc o, Planned service allowed rpc o → ∀ r m m', J m →
      MapSpec sha256 pol m o r m' → J m' := by
    intro rpc o hplan r m m' hm hspec id b hb
    rcases mapSpec_entry hspec hb with hold | rfl
    · exact hm id b hold
    · exact ⟨rpc, hplan.accumulates⟩
  exact (h.keeps (J := J) (fun _ _ hnone => nomatch hnone) hstep).2 id b hb

/-- **The limit and the peers.** Over every run of requests from an empty store,
one at a time or many together, with any uploads and any faults of the disk: what
the handlers join and what the node stores stays within the limit exactly when
the peers keep to it in what they stream after a first message that
`ReplicateChunk` accepts. -/
theorem sizeLimited_iff (sha256 : Bytes → Digest) (pol : Policy) (service : Service)
    (allowed : Reply → Prop) :
    SizeLimited sha256 pol service allowed ↔ RepliesWithin service.maxChunkBytes allowed := by
  constructor
  · intro hlimited reply first rest k hreply hmessages hfirst hreserve hfits
    have hread : readPlan service kCurrentProtocolVersion ChunkId.ofEmpty.hex = .ok .ofEmpty :=
      readPlan_eq_ok.mpr ⟨rfl, ChunkId.parse_hex _⟩
    have hall : Accumulates service allowed (.replicateChunk ⟨_, _, []⟩) _ :=
      .replicateChunk k hread hreply hmessages hfirst hreserve (collectFrames_eq hfits)
    exact hlimited.payload _ _ hall
  · intro hwithin
    refine ⟨fun rpc b h => h.bounded hwithin, fun s hs id b hb => ?_⟩
    obtain ⟨rpc, hacc⟩ := hs.stored_accumulated hb
    exact hacc.bounded hwithin

end Limit

/-- A reply that announces nothing and then streams `abc`. -/
def oversizedReply : Reply :=
  ⟨[metadataMessage 0 .OK, dataMessage abcBytes], Status.OK⟩

/-- A node with a limit of two bytes joins, and then stores, a chunk of three. -/
theorem replicate_exceeds_limit :
    ¬ SizeLimited knownSha256 .noFault { maxChunkBytes := 2 } (· = oversizedReply) ∧
    ∃ s, NodeReach knownSha256 .noFault { maxChunkBytes := 2 } (· = oversizedReply) s ∧
      view s .ofAbc = some abcBytes ∧ ¬ abcBytes.length ≤ 2 := by
  have hpeer : ∀ address cid request s, ∃ reply t,
      repliesIn (S := Store) (· = oversizedReply) address cid request s reply t :=
    fun _ _ _ s => ⟨oversizedReply, s, rfl, rfl⟩
  obtain ⟨r, w, t, hrun, _⟩ := exists_rpcRun (localStore_total knownSha256 .noFault) hpeer
    { maxChunkBytes := 2 } ⟨[]⟩
    (.replicateChunk ⟨kCurrentProtocolVersion, ChunkId.ofAbc.hex, []⟩) Store.empty
  have hreach : NodeReach knownSha256 .noFault { maxChunkBytes := 2 } (· = oversizedReply) t :=
    .serve (.start Disk.isEmpty_empty) hrun
  have hview : view t .ofAbc = some abcBytes := by
    have h := rpcRun_replicateChunk hrun
    rw [readPlan_eq_ok.mpr ⟨rfl, ChunkId.parse_hex _⟩] at h
    obtain ⟨cid, reply, u, ⟨rfl, rfl⟩, hfollow⟩ := h
    obtain ⟨putRes, hput, _⟩ := hfollow
    obtain ⟨_, ⟨hbad, _⟩ | ⟨_, _, hstored⟩⟩ :=
      localStore_put_noFault Disk.isEmpty_empty.inv hput
    · exact absurd rfl hbad
    · rw [hstored, Disk.isEmpty_empty.view]
      rfl
  refine ⟨fun hlimited => ?_, t, hreach, hview, by decide⟩
  exact absurd (hlimited.stored t hreach .ofAbc abcBytes hview) (by decide)

end NimbusFs.StorageNode
