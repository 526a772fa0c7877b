import NimbusFs.StorageNode.NodeRuns

/-! # What is uploaded is what is downloaded

`PutChunk` joins the data frames of its client, however they were cut;
`GetChunk` cuts the chunk again, always in the same way. Between the two stands
the store, which without faults is the reference map. -/
namespace NimbusFs.StorageNode

open NimbusFs.Common Lib

/-! ## The upload loop -/

/-- The data of the frames, in their order. -/
def uploadData (frames : List PutChunkRequest) : Bytes :=
  (frames.filterMap PutChunkRequest.data).flatten

@[simp] theorem uploadData_nil : uploadData [] = [] := rfl

theorem uploadData_cons (frame : PutChunkRequest) (rest : List PutChunkRequest) :
    uploadData (frame :: rest) = frame.data.getD [] ++ uploadData rest := by
  cases hd : frame.data <;> simp [uploadData, hd]

/-- The running checks let the frames pass exactly when all of them fit. -/
theorem receiveFrames_eq_ok {maxChunkBytes : Nat} {frames : List PutChunkRequest} {payload b : Bytes}
    (hmax : payload.length ≤ maxChunkBytes) (hvector : payload.length ≤ vectorMaxSize) :
    receiveFrames maxChunkBytes payload frames = .ok b ↔
      payload.length + (uploadData frames).length ≤ maxChunkBytes ∧
      payload.length + (uploadData frames).length ≤ vectorMaxSize ∧
      b = payload ++ uploadData frames := by
  induction frames generalizing payload with
  | nil => simp [receiveFrames, hmax, hvector, eq_comm]
  | cons frame rest ih =>
    rw [uploadData_cons]
    unfold receiveFrames
    cases hd : frame.data with
    | none => exact ih hmax hvector
    | some data =>
      rw [Option.getD_some, List.length_append, ← List.append_assoc]
      dsimp only
      split
      · simp only [reduceCtorEq, false_iff]
        omega
      · split
        · simp only [reduceCtorEq, false_iff]
          omega
        · rw [ih (by rw [List.length_append]; omega) (by rw [List.length_append]; omega),
            List.length_append, Nat.add_assoc]

/-- Where `insert` cannot throw, the limit stops them. -/
theorem receiveFrames_too_large {maxChunkBytes : Nat} {frames : List PutChunkRequest}
    (payload : Bytes) (hpayload : payload.length ≤ maxChunkBytes)
    (hlarge : maxChunkBytes < payload.length + (uploadData frames).length)
    (hvector : payload.length + (uploadData frames).length ≤ vectorMaxSize) :
    ∃ b, receiveFrames maxChunkBytes payload frames = .error (.tooLarge, b) := by
  induction frames generalizing payload with
  | nil =>
    rw [uploadData_nil, List.length_nil] at hlarge
    omega
  | cons frame rest ih =>
    rw [uploadData_cons] at hlarge hvector
    unfold receiveFrames
    cases hd : frame.data with
    | none =>
      rw [hd] at hlarge hvector
      exact ih payload hpayload hlarge hvector
    | some data =>
      rw [hd, Option.getD_some, List.length_append] at hlarge hvector
      dsimp only
      split
      · exact ⟨payload, rfl⟩
      · rw [if_neg (by omega)]
        exact ih (payload ++ data) (by rw [List.length_append]; omega)
          (by rw [List.length_append]; omega) (by rw [List.length_append]; omega)

/-- A size that is within the limit, and that a vector can have. -/
def Service.Takes (service : Service) (size : Nat) : Prop :=
  size ≤ service.maxChunkBytes ∧ size ≤ vectorMaxSize

/-- A first message that `PutChunk` accepts. -/
structure AcceptedFirst (service : Service) (first : PutChunkRequest) (m : PutChunkMetadata)
    (id : ChunkId) : Prop where
  metadata : first.payload = some (.metadata m)
  chunkId : ChunkId.parse m.chunkId = .ok id
  version : first.protocolVersion = kCurrentProtocolVersion
  token : service.validate m.capabilityToken id = true

section Upload

variable {service : Service} {first : PutChunkRequest} {m : PutChunkMetadata} {id : ChunkId}
variable {frames : List PutChunkRequest}

theorem AcceptedFirst.preamble (h : AcceptedFirst service first m id) :
    runPreamble service first.protocolVersion (some m.capabilityToken) (some id) = none := by
  simp [runPreamble, checkProtocolVersion, h.version, h.token]

/-- After an accepted first message only sizes decide whether `Put` is called,
and it is called with the joined data. -/
theorem AcceptedFirst.plan_ok (h : AcceptedFirst service first m id) {id' : ChunkId} {b : Bytes} :
    putChunkPlan service (first :: frames) = .ok (id', b) ↔
      service.Takes m.totalSizeBytes ∧ service.Takes (uploadData frames).length ∧
        id' = id ∧ b = uploadData frames := by
  rw [putChunkPlan_eq_ok]
  constructor
  · intro hplan
    obtain ⟨_, _, m', heq, hm, hid, _, hmax, hvector, hframes⟩ := hplan
    cases heq
    cases h.metadata.symm.trans hm
    cases h.chunkId.symm.trans hid
    obtain ⟨hlen, hfits, rfl⟩ := (receiveFrames_eq_ok (Nat.zero_le _) (Nat.zero_le _)).mp hframes
    rw [List.length_nil, Nat.zero_add] at hlen hfits
    exact ⟨⟨hmax, hvector⟩, ⟨hlen, hfits⟩, rfl, rfl⟩
  · intro hok
    obtain ⟨htotal, hlen, rfl, rfl⟩ := hok
    refine ⟨first, frames, m, rfl, h.metadata, h.chunkId, h.preamble, htotal.1, htotal.2, ?_⟩
    refine (receiveFrames_eq_ok (Nat.zero_le _) (Nat.zero_le _)).mpr ⟨?_, ?_, rfl⟩
    · rw [List.length_nil, Nat.zero_add]
      exact hlen.1
    · rw [List.length_nil, Nat.zero_add]
      exact hlen.2

/-- Where neither size makes a vector throw, the joined data alone decide the plan. -/
theorem AcceptedFirst.plan (h : AcceptedFirst service first m id)
    (htotal : service.Takes m.totalSizeBytes) (hfits : (uploadData frames).length ≤ vectorMaxSize) :
    putChunkPlan service (first :: frames) =
      if service.maxChunkBytes < (uploadData frames).length then
        .error (⟨.RESOURCE_EXHAUSTED, "Streamed chunk too large"⟩, ⟨kCurrentProtocolVersion,
          .CHUNK_TOO_LARGE, "Streamed chunk too large"⟩)
      else .ok (id, uploadData frames) := by
  split
  · rename_i hlarge
    have hjoined : ([] : Bytes).length + (uploadData frames).length = (uploadData frames).length :=
      Nat.zero_add _
    obtain ⟨b, hb⟩ := receiveFrames_too_large [] (Nat.zero_le service.maxChunkBytes)
      (by rwa [hjoined]) (by rwa [hjoined])
    simp only [putChunkPlan, h.metadata, h.chunkId, h.preamble, if_neg (Nat.not_lt.mpr htotal.1),
      if_neg (Nat.not_lt.mpr htotal.2), hb]
  · rename_i hlen
    exact h.plan_ok.mpr ⟨htotal, ⟨Nat.not_lt.mp hlen, hfits⟩, rfl, rfl⟩

end Upload

/-! ## Without faults -/

section NoFault

variable {sha256 : Bytes → Digest} {s t : Store} {id : ChunkId} {peer : PeerSem Store}
variable {service : Service} {context : ServerContext}

/-- `Put` on its own, without faults: the hash decides. -/
theorem localStore_put_noFault {data : Bytes} {putRes : Result Unit}
    (hinv : DiskInv sha256 s.disk) (h : localStore sha256 .noFault (.put id data) s putRes t) :
    DiskInv sha256 t.disk ∧
    ((sha256 data ≠ id.digest ∧ putRes = checksumMismatch ∧ view t = view s) ∨
     (sha256 data = id.digest ∧ putRes = .ok () ∧ view t id = some ((view s id).getD data))) := by
  obtain ⟨hinv', hspec⟩ := localStore_spec hinv h
  have href := referenceMap_of_noFault hspec
  refine ⟨hinv', ?_⟩
  simp only [ReferenceMap] at href
  split at href
  · rename_i hne
    exact .inl ⟨hne, href⟩
  · rename_i heq
    refine .inr ⟨by simpa using heq, href.1, ?_⟩
    rw [href.2, Function.update_self]

/-- Where SHA-256 tells the stored bytes from the new ones, `Put` leaves the new ones. -/
theorem stored_eq_of_collisionFree {known : Bytes → Prop} {data : Bytes}
    (hinv : DiskInv sha256 s.disk) (hfree : CollisionFree sha256 known) (hdata : known data)
    (hstored : ∀ b, view s id = some b → known b) (hsha : sha256 data = id.digest) :
    (view s id).getD data = data := by
  cases hv : view s id with
  | none => rfl
  | some b => exact hfree b data (hstored b hv) hdata ((hinv.hash hv).trans hsha.symm)

/-- `GetChunk` without faults sends what the map holds, and changes nothing. -/
theorem rpcRun_getChunk_noFault {request : GetChunkRequest} {r : Status}
    {w : List (GetChunkResponse × Bool)} (hinv : DiskInv sha256 s.disk)
    (hversion : request.protocolVersion = kCurrentProtocolVersion)
    (hid : ChunkId.parse request.chunkId = .ok id)
    (h : RpcRun (localStore sha256 .noFault) peer service context (.getChunk request) s r w t) :
    r = Status.OK ∧ Sends w (lookupResult (view s id)) ∧ DiskInv sha256 t.disk ∧
      view t = view s := by
  have hrun := rpcRun_getChunk h
  rw [readPlan_eq_ok.mpr ⟨hversion, hid⟩] at hrun
  obtain ⟨hr, getRes, u, hget, hsend⟩ := hrun
  obtain ⟨rfl, hsent⟩ := runs_sendResult hsend
  obtain ⟨hinv', hspec⟩ := localStore_spec hinv hget
  obtain ⟨rfl, hview⟩ := referenceMap_of_noFault hspec
  exact ⟨hr, hsent, hinv', hview⟩

/-- The messages of a download of `b`: metadata with its size, then frames of 1
to `kStreamFrameSizeBytes` bytes, all but the last full, that make up `b`. -/
def IsDownload (b : Bytes) (messages : List GetChunkResponse) : Prop :=
  ∃ frames : List Bytes, messages = metadataMessage b.length .OK :: frames.map dataMessage ∧
    (∀ f ∈ frames, 1 ≤ f.length ∧ f.length ≤ kStreamFrameSizeBytes) ∧
    (∀ f ∈ frames.dropLast, f.length = kStreamFrameSizeBytes) ∧ frames.flatten = b

theorem Sends.isDownload {w : List (GetChunkResponse × Bool)} {b : Bytes} (h : Sends w (.ok b))
    (hall : ∀ x ∈ w, x.2 = true) : IsDownload b (w.map Prod.fst) := by
  obtain ⟨ok, w', rfl, hatt⟩ := h
  refine ⟨slices kStreamFrameSizeBytes b, ?_, fun f hf => length_of_mem_slices hf,
    fun f hf => length_of_mem_dropLast_slices hf, flatten_slices kStreamFrameSizeBytes_pos b⟩
  rw [List.map_cons, hatt.written_eq fun x hx => hall x (List.mem_cons_of_mem _ hx)]
  rfl

/-- An upload without faults succeeds exactly when the sizes and the hash are right. -/
theorem putChunk_succeeds_iff {first : PutChunkRequest} {m : PutChunkMetadata}
    {frames : List PutChunkRequest} {r : Status × PutChunkResponse}
    {w : List (GetChunkResponse × Bool)} (hfirst : AcceptedFirst service first m id)
    (hinv : DiskInv sha256 s.disk)
    (h : RpcRun (localStore sha256 .noFault) peer service context (.putChunk (first :: frames))
      s r w t) :
    (Rpc.Succeeds (.putChunk (first :: frames)) r ↔ service.Takes m.totalSizeBytes ∧
      service.Takes (uploadData frames).length ∧ sha256 (uploadData frames) = id.digest) ∧
    DiskInv sha256 t.disk ∧ (Rpc.Succeeds (.putChunk (first :: frames)) r →
      view t id = some ((view s id).getD (uploadData frames))) := by
  rcases follows_map_cases (rpcRun_putChunk.mp h).1 with
    ⟨hplan, rfl⟩ | ⟨⟨id', b⟩, res, hplan, hop, rfl⟩
  · have hno := putChunkPlan_error hplan
    refine ⟨⟨fun hok => absurd hok hno, fun hok => ?_⟩, hinv, fun hok => absurd hok hno⟩
    rw [hfirst.plan_ok.mpr ⟨hok.1, hok.2.1, rfl, rfl⟩] at hplan
    cases hplan
  · obtain ⟨htotal, hlen, rfl, rfl⟩ := hfirst.plan_ok.mp hplan
    obtain ⟨hinv', ⟨hne, rfl, _⟩ | ⟨heq, rfl, hview⟩⟩ := localStore_put_noFault hinv hop
    · have hno : ¬ Rpc.Succeeds (.putChunk (first :: frames)) (putChunkAnswer checksumMismatch) :=
        fun hok => by cases hok.2
      exact ⟨⟨fun hok => absurd hok hno, fun hok => absurd hok.2.2 hne⟩, hinv',
        fun hok => absurd hok hno⟩
    · exact ⟨⟨fun _ => ⟨htotal, hlen, heq⟩, fun _ => ⟨rfl, rfl⟩⟩, hinv', fun _ => hview⟩

/-- A request that is served without faults. -/
abbrev FaultFreeRun (sha256 : Bytes → Digest) (service : Service) (context : ServerContext)
    (rpc : Rpc) (s : Store) (r : rpc.Ret) (w : List (GetChunkResponse × Bool)) (t : Store) : Prop :=
  RpcRun (localStore sha256 .noFault) anyReply service context rpc s r w t

theorem exists_faultFreeRun (sha256 : Bytes → Digest) (service : Service)
    (context : ServerContext) (rpc : Rpc) (s : Store) :
    ∃ r w t, FaultFreeRun sha256 service context rpc s r w t ∧ ∀ x ∈ w, x.2 = true :=
  exists_rpcRun (localStore_total sha256 .noFault) anyReply_total service context rpc s

/-- **The round trip of a chunk through framing.** From any state a node can get
into, without faults: after an accepted first message, whatever messages follow,
`PutChunk` ends with OK exactly when the announced and the joined size are within
the limit, a vector can have them, and the hash is the id. A client that then takes all
of `GetChunk` gets the size and the joined bytes, in full frames but for the last. And an
upload that is cut in another way cannot be told from it. -/
theorem upload_download {pol : Policy} {allowed : Reply → Prop} {first : PutChunkRequest}
    {m : PutChunkMetadata} (context : ServerContext) (hs : NodeReach sha256 pol service allowed s)
    (hfirst : AcceptedFirst service first m id) (frames : List PutChunkRequest) :
    (∃ r w t, FaultFreeRun sha256 service context (.putChunk (first :: frames)) s r w t) ∧
    (∀ r w t, FaultFreeRun sha256 service context (.putChunk (first :: frames)) s r w t →
      (Rpc.Succeeds (.putChunk (first :: frames)) r ↔
        service.Takes m.totalSizeBytes ∧ service.Takes (uploadData frames).length ∧
        sha256 (uploadData frames) = id.digest) ∧
      (Rpc.Succeeds (.putChunk (first :: frames)) r →
        ∀ known, CollisionFree sha256 known → known (uploadData frames) →
        (∀ b, view s id = some b → known b) →
        ∀ context' request, request.protocolVersion = kCurrentProtocolVersion →
        ChunkId.parse request.chunkId = .ok id →
        (∃ r' w' t', FaultFreeRun sha256 service context' (.getChunk request) t r' w' t' ∧
          ∀ x ∈ w', x.2 = true) ∧
        ∀ r' w' t', FaultFreeRun sha256 service context' (.getChunk request) t r' w' t' →
          (∀ x ∈ w', x.2 = true) →
          r' = Status.OK ∧ IsDownload (uploadData frames) (w'.map Prod.fst))) ∧
    ∀ first' m' frames', AcceptedFirst service first' m' id →
      service.Takes m.totalSizeBytes → service.Takes m'.totalSizeBytes →
      uploadData frames' = uploadData frames → (uploadData frames).length ≤ vectorMaxSize → ∀ r w t,
      FaultFreeRun sha256 service context (.putChunk (first' :: frames')) s r w t ↔
        FaultFreeRun sha256 service context (.putChunk (first :: frames)) s r w t := by
  refine ⟨?_, ?_, ?_⟩
  · obtain ⟨r, w, t, hrun, _⟩ := exists_faultFreeRun sha256 service context
      (.putChunk (first :: frames)) s
    exact ⟨r, w, t, hrun⟩
  · intro r w t hrun
    obtain ⟨hiff, hinv, hview⟩ := putChunk_succeeds_iff hfirst hs.inv hrun
    refine ⟨hiff, fun hok known hfree hdata hstored context' request hversion hid => ⟨?_, ?_⟩⟩
    · exact exists_faultFreeRun sha256 service context' (.getChunk request) t
    · intro r' w' t' hget hall
      obtain ⟨hr, hsent, _, _⟩ := rpcRun_getChunk_noFault hinv hversion hid hget
      rw [hview hok, stored_eq_of_collisionFree hs.inv hfree hdata hstored (hiff.mp hok).2.2]
        at hsent
      exact ⟨hr, hsent.isDownload hall⟩
  · intro first' m' frames' hfirst' htotal htotal' hdata hfits r w t
    have hplan : putChunkPlan service (first' :: frames') =
        putChunkPlan service (first :: frames) := by
      rw [hfirst.plan htotal hfits, hfirst'.plan htotal' (hdata ▸ hfits), hdata]
    unfold FaultFreeRun
    rw [rpcRun_putChunk, rpcRun_putChunk, hplan]

end NoFault

theorem acceptedFirst_abc {service : Service} (htoken : service.validate [] .ofAbc = true) :
    AcceptedFirst service abcFirst ⟨ChunkId.ofAbc.hex, [], 3⟩ .ofAbc :=
  ⟨rfl, ChunkId.parse_hex _, rfl, htoken⟩

/-- `abc` is uploaded in one frame, or in two with an empty message between them. -/
theorem upload_download_abc :
    ∃ r w t, FaultFreeRun knownSha256 { maxChunkBytes := 3 } ⟨[]⟩ (.putChunk abcUpload)
        Store.empty r w t ∧
      FaultFreeRun knownSha256 { maxChunkBytes := 3 } ⟨[]⟩ (.putChunk [abcFirst,
        ⟨1, some (.dataChunk [0x61])⟩, ⟨1, none⟩, ⟨1, some (.dataChunk [0x62, 0x63])⟩])
        Store.empty r w t ∧
      ∃ r' w' t', FaultFreeRun knownSha256 { maxChunkBytes := 3 } ⟨[]⟩
          (.getChunk ⟨kCurrentProtocolVersion, ChunkId.ofAbc.hex⟩) t r' w' t' ∧
        IsDownload abcBytes (w'.map Prod.fst) := by
  have hstart : NodeReach knownSha256 .noFault { maxChunkBytes := 3 } (fun _ => True)
      Store.empty := .start Disk.isEmpty_empty
  have hfirst : AcceptedFirst { maxChunkBytes := 3 } abcFirst _ .ofAbc := acceptedFirst_abc rfl
  obtain ⟨⟨r, w, t, hrun⟩, hput, hsame⟩ :=
    upload_download ⟨[]⟩ hstart hfirst [⟨1, some (.dataChunk abcBytes)⟩]
  obtain ⟨hiff, hget⟩ := hput r w t hrun
  have hfree : CollisionFree knownSha256 (· = abcBytes) := fun a b ha hb _ => ha.trans hb.symm
  have hstored : ∀ b, view Store.empty .ofAbc = some b → b = abcBytes := by
    intro b hb
    rw [Disk.isEmpty_empty.view] at hb
    cases hb
  have htakes : ({ maxChunkBytes := 3 } : Service).Takes 3 := ⟨by decide, by decide⟩
  obtain ⟨⟨r', w', t', hrun', hall⟩, hdown⟩ := hget (hiff.mpr ⟨htakes, htakes, rfl⟩) _ hfree
    rfl hstored ⟨[]⟩ ⟨kCurrentProtocolVersion, ChunkId.ofAbc.hex⟩ rfl (ChunkId.parse_hex _)
  have hcut := hsame _ _ _ hfirst htakes htakes rfl htakes.2 r w t
  exact ⟨r, w, t, hrun, hcut.mpr hrun, r', w', t', hrun', (hdown r' w' t' hrun' hall).2⟩

/-- An upload of `abc` that announces 2^63 bytes. -/
def hugeFirst : PutChunkRequest :=
  ⟨kCurrentProtocolVersion, some (.metadata ⟨ChunkId.ofAbc.hex, [], 2 ^ 63⟩)⟩

/-- A limit of 2^64 - 1 does not keep `reserve` from throwing: all sizes are within it and
the hash is the id, and the upload fails. -/
theorem not_upload_reserved :
    AcceptedFirst { maxChunkBytes := 2 ^ 64 - 1 } hugeFirst ⟨ChunkId.ofAbc.hex, [], 2 ^ 63⟩ .ofAbc ∧
    ∃ r w t, FaultFreeRun knownSha256 { maxChunkBytes := 2 ^ 64 - 1 } ⟨[]⟩
        (.putChunk [hugeFirst, ⟨1, some (.dataChunk abcBytes)⟩]) Store.empty r w t ∧
      ¬ (Rpc.Succeeds (.putChunk [hugeFirst, ⟨1, some (.dataChunk abcBytes)⟩]) r ↔
        2 ^ 63 ≤ 2 ^ 64 - 1 ∧ abcBytes.length ≤ 2 ^ 64 - 1 ∧
          knownSha256 abcBytes = ChunkId.ofAbc.digest) := by
  have hfirst : AcceptedFirst { maxChunkBytes := 2 ^ 64 - 1 } hugeFirst
      ⟨ChunkId.ofAbc.hex, [], 2 ^ 63⟩ .ofAbc := ⟨rfl, ChunkId.parse_hex _, rfl, rfl⟩
  obtain ⟨r, w, t, hrun, _⟩ := exists_faultFreeRun knownSha256 { maxChunkBytes := 2 ^ 64 - 1 } ⟨[]⟩
    (.putChunk [hugeFirst, ⟨1, some (.dataChunk abcBytes)⟩]) Store.empty
  have hiff := (putChunk_succeeds_iff hfirst Disk.isEmpty_empty.inv hrun).1
  refine ⟨hfirst, r, w, t, hrun, fun hclaim => ?_⟩
  obtain ⟨⟨_, hvector⟩, _⟩ := hiff.mp (hclaim.mpr ⟨by decide, by decide, rfl⟩)
  exact absurd hvector (by decide)

end NimbusFs.StorageNode
