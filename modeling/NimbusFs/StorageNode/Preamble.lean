import NimbusFs.StorageNode.NodeRuns

/-! # What a handler checks before it acts

Every handler checks the protocol version, and those of `PutChunk` and
`DeleteChunk` the capability token, before the store or another node is asked.
Nothing is assumed of the store, of the other nodes or of the validator of
tokens: a trace of what a handler asks for goes along with the world. -/
namespace NimbusFs.StorageNode

open NimbusFs.Common Lib

/-! ## What a handler asks for -/

/-- A world, with the operations its store was asked for and the addresses of
the nodes that were contacted. -/
structure Traced (S : Type) where
  world : S
  asked : List StoreOp
  contacted : List (List Char)

/-- Nothing was asked for so far. -/
def Traced.start {S : Type} (s : S) : Traced S := ⟨s, [], []⟩

/-- A store that is watched. -/
def traced {S : Type} (chunkStore : ChunkStoreSem S) : ChunkStoreSem (Traced S) :=
  fun o n r n' => chunkStore o n.world r n'.world ∧
    n'.asked = n.asked ++ [o] ∧ n'.contacted = n.contacted

/-- Other nodes that are watched. -/
def tracedPeer {S : Type} (peer : PeerSem S) : PeerSem (Traced S) :=
  fun address cid request n reply n' => peer address cid request n.world reply n'.world ∧
    n'.asked = n.asked ∧ n'.contacted = n.contacted ++ [address]

/-! ## What a request carries -/

/-- The version that the first message of a request names. -/
def Rpc.protocolVersion : Rpc → Option Nat
  | .putChunk [] => none
  | .putChunk (first :: _) => some first.protocolVersion
  | .getChunk request => some request.protocolVersion
  | .verifyChunk request => some request.protocolVersion
  | .deleteChunk request => some request.protocolVersion
  | .replicateChunk request => some request.protocolVersion
  | .getNodeStats request => some request.protocolVersion

/-- The token of a request that carries one. -/
def Rpc.capabilityToken : Rpc → Option (List Char)
  | .putChunk [] => none
  | .putChunk (first :: _) =>
    match first.payload with
    | some (.metadata m) => some m.capabilityToken
    | _ => none
  | .deleteChunk request => some request.capabilityToken
  | .getChunk _ | .verifyChunk _ | .replicateChunk _ | .getNodeStats _ => none

/-- `PutChunk` and `DeleteChunk`. -/
def Rpc.IsGuarded : Rpc → Prop
  | .putChunk _ | .deleteChunk _ => True
  | .getChunk _ | .verifyChunk _ | .replicateChunk _ | .getNodeStats _ => False

/-- The gRPC status that a request ends with. -/
def Rpc.status : (rpc : Rpc) → rpc.Ret → Status
  | .putChunk _, r => r.1
  | .getChunk _, r => r
  | .verifyChunk _, r => r.1
  | .deleteChunk _, r => r.1
  | .replicateChunk _, r => r.1
  | .getNodeStats _, r => r.1

/-- The validator accepts the token of the request for the chunk the request names. -/
def Service.Accepts (service : Service) (rpc : Rpc) (id : ChunkId) : Prop :=
  ∃ token, rpc.capabilityToken = some token ∧ rpc.requestedId = some id ∧
    service.validate token id = true

/-! ## Answers that ask for nothing -/

section AtOnce

variable {S : Type} {chunkStore : ChunkStoreSem S} {peer : PeerSem S} {service : Service}
variable {context : ServerContext} {s : S}

/-- The request gets this answer and no other, and neither the store nor another
node is asked. -/
def AnsweredAtOnce (chunkStore : ChunkStoreSem S) (peer : PeerSem S) (service : Service)
    (context : ServerContext) (rpc : Rpc) (s : S) (answer : rpc.Ret) : Prop :=
  ∀ r w t, RpcRun chunkStore peer service context rpc s r w t ↔ (r = answer ∧ t = s) ∧ w = []

theorem putChunk_answeredAtOnce {reader : List PutChunkRequest} {a : Status × PutChunkResponse}
    (h : putChunkPlan service reader = .error a) :
    AnsweredAtOnce chunkStore peer service context (.putChunk reader) s a := by
  intro r w t
  rw [rpcRun_putChunk, h]
  rfl

theorem deleteChunk_answeredAtOnce {request : DeleteChunkRequest} {a : Status × DeleteChunkResponse}
    (h : deleteChunkPlan service request = .error a) :
    AnsweredAtOnce chunkStore peer service context (.deleteChunk request) s a := by
  intro r w t
  rw [rpcRun_deleteChunk, h]
  rfl

/-- A program that only returns, in the scope of the logger. -/
theorem runs_openScope_ret {α : Type} {a r : α} {w : List (GetChunkResponse × Bool)} {t : S} :
    (openScope context >>= fun _ => Prog.ret a).Runs (serviceSem chunkStore peer) ⟨s, []⟩ r ⟨t, w⟩ ↔
      (r = a ∧ t = s) ∧ w = [] := by
  rw [runs_openScope_bind]
  constructor
  · intro h
    obtain ⟨rfl, heq⟩ := h
    cases heq
    exact ⟨⟨rfl, rfl⟩, rfl⟩
  · intro h
    obtain ⟨⟨rfl, rfl⟩, rfl⟩ := h
    exact ⟨rfl, rfl⟩

end AtOnce

/-! ## The version -/

section Version

variable {S : Type} {chunkStore : ChunkStoreSem S} {peer : PeerSem S} {service : Service}
variable {context : ServerContext} {s : S} {version : Nat}

/-- The answer of `RunPreamble` to another version. -/
def unsupportedVersion : Status := ⟨.FAILED_PRECONDITION, "Unsupported protocol version"⟩

theorem runPreamble_unsupported (h : version ≠ kCurrentProtocolVersion)
    (token : Option (List Char)) (chunk : Option ChunkId) :
    runPreamble service version token chunk = some unsupportedVersion := by
  have hlt : version < kCurrentProtocolVersion ∨ version > kCurrentProtocolVersion :=
    Nat.lt_or_gt_of_ne h
  simp [runPreamble, checkProtocolVersion, unsupportedVersion, hlt]

theorem readPlan_unsupported (h : version ≠ kCurrentProtocolVersion) (chunkId : List Char) :
    readPlan service version chunkId = .error unsupportedVersion := by
  rw [readPlan, runPreamble_unsupported h]

/-- `PutChunk` answers before it looks at the version, when there is no chunk id. -/
theorem putChunkPlan_unsupported {first : PutChunkRequest} (frames : List PutChunkRequest)
    (h : first.protocolVersion ≠ kCurrentProtocolVersion) :
    ∃ a, putChunkPlan service (first :: frames) = .error a ∧
      (Rpc.requestedId (.putChunk (first :: frames)) ≠ none → a.1.code = .FAILED_PRECONDITION) ∧
      (Rpc.requestedId (.putChunk (first :: frames)) = none → a.1.code = .INVALID_ARGUMENT) := by
  simp only [putChunkPlan, Rpc.requestedId]
  cases first.payload with
  | none => exact ⟨_, rfl, fun h => absurd rfl h, fun _ => rfl⟩
  | some payload =>
    cases payload with
    | dataChunk data => exact ⟨_, rfl, fun h => absurd rfl h, fun _ => rfl⟩
    | metadata m =>
      dsimp only
      cases ChunkId.parse m.chunkId with
      | error e => exact ⟨_, rfl, fun h => absurd rfl h, fun _ => rfl⟩
      | ok id =>
        dsimp only
        rw [runPreamble_unsupported h]
        exact ⟨_, rfl, fun _ => rfl, fun h => absurd h (Option.some_ne_none id)⟩

/-- And so does `DeleteChunk`. -/
theorem deleteChunkPlan_unsupported {request : DeleteChunkRequest}
    (h : request.protocolVersion ≠ kCurrentProtocolVersion) :
    ∃ a, deleteChunkPlan service request = .error a ∧
      (Rpc.requestedId (.deleteChunk request) ≠ none → a.1.code = .FAILED_PRECONDITION) ∧
      (Rpc.requestedId (.deleteChunk request) = none → a.1.code = .INVALID_ARGUMENT) := by
  simp only [deleteChunkPlan, Rpc.requestedId]
  cases ChunkId.parse request.chunkId with
  | error e => exact ⟨_, rfl, fun h => absurd rfl h, fun _ => rfl⟩
  | ok id =>
    dsimp only
    rw [runPreamble_unsupported h]
    exact ⟨_, rfl, fun _ => rfl, fun h => absurd h (Option.some_ne_none id)⟩

/-- A request of another version is answered at once. -/
theorem answeredAtOnce_unsupported {rpc : Rpc} (hv : rpc.protocolVersion = some version)
    (hne : version ≠ kCurrentProtocolVersion) :
    ∃ answer, AnsweredAtOnce chunkStore peer service context rpc s answer ∧
      ((rpc.IsGuarded → rpc.requestedId ≠ none) →
        (rpc.status answer).code = .FAILED_PRECONDITION) ∧
      (rpc.IsGuarded → rpc.requestedId = none →
        (rpc.status answer).code = .INVALID_ARGUMENT) := by
  cases rpc with
  | putChunk reader =>
    cases reader with
    | nil => cases hv
    | cons first frames =>
      cases hv
      obtain ⟨a, hplan, hnamed, hmissing⟩ := putChunkPlan_unsupported frames hne
      exact ⟨a, putChunk_answeredAtOnce hplan, fun h => hnamed (h trivial), fun _ => hmissing⟩
  | deleteChunk request =>
    cases hv
    obtain ⟨a, hplan, hnamed, hmissing⟩ := deleteChunkPlan_unsupported hne
    exact ⟨a, deleteChunk_answeredAtOnce hplan, fun h => hnamed (h trivial), fun _ => hmissing⟩
  | getChunk request =>
    cases hv
    refine ⟨unsupportedVersion, fun r w t => ?_, fun _ => rfl, fun h => h.elim⟩
    show (getChunk service context request).Runs _ _ _ _ ↔ _
    rw [getChunk_eq, readPlan_unsupported hne]
    exact runs_openScope_ret
  | verifyChunk request =>
    cases hv
    refine ⟨(unsupportedVersion, { protocolVersion := kCurrentProtocolVersion }), fun r w t => ?_,
      fun _ => rfl, fun h => h.elim⟩
    rw [rpcRun_verifyChunk, verifyChunkPlan, readPlan_unsupported hne]
    rfl
  | replicateChunk request =>
    cases hv
    refine ⟨(unsupportedVersion, { protocolVersion := kCurrentProtocolVersion }), fun r w t => ?_,
      fun _ => rfl, fun h => h.elim⟩
    show (replicateChunk service context request).Runs _ _ _ _ ↔ _
    rw [replicateChunk_eq, readPlan_unsupported hne]
    exact runs_openScope_ret
  | getNodeStats request =>
    cases hv
    refine ⟨(unsupportedVersion, { protocolVersion := kCurrentProtocolVersion }), fun r w t => ?_,
      fun _ => rfl, fun h => h.elim⟩
    rw [rpcRun_getNodeStats, getNodeStatsPlan, runPreamble_unsupported hne]
    rfl

/-- The request is refused for its version: it is answered, always with
`FAILED_PRECONDITION`, the store is not asked and no other node is contacted. -/
def RefusedForVersion (chunkStore : ChunkStoreSem S) (peer : PeerSem S) (service : Service)
    (context : ServerContext) (rpc : Rpc) (s : S) : Prop :=
  (∃ r w n, RpcRun (traced chunkStore) (tracedPeer peer) service context rpc (.start s) r w n) ∧
  ∀ r w n, RpcRun (traced chunkStore) (tracedPeer peer) service context rpc (.start s) r w n →
    (rpc.status r).code = .FAILED_PRECONDITION ∧ n.asked = [] ∧ n.contacted = []

/-- A request that carries a token and names no chunk is told so first. -/
theorem not_refusedForVersion {rpc : Rpc} (hv : rpc.protocolVersion = some version)
    (hne : version ≠ kCurrentProtocolVersion) (hguarded : rpc.IsGuarded)
    (hnone : rpc.requestedId = none) :
    ¬ RefusedForVersion chunkStore peer service context rpc s := by
  intro h
  obtain ⟨answer, hruns, _, hmissing⟩ := answeredAtOnce_unsupported hv hne
  have hcode := (h.2 _ _ _ ((hruns answer [] (.start s)).mpr ⟨⟨rfl, rfl⟩, rfl⟩)).1
  rw [hmissing hguarded hnone] at hcode
  cases hcode

/-- **The version gate.** A request of an unsupported version is refused for it
exactly when it carries no token or names a chunk: `PutChunk` and `DeleteChunk`
read the chunk id before they look at the version. -/
theorem refusedForVersion_iff (chunkStore : ChunkStoreSem S) (peer : PeerSem S)
    (service : Service) (context : ServerContext) (rpc : Rpc) (s : S) (version : Nat)
    (hv : rpc.protocolVersion = some version) (hne : version ≠ kCurrentProtocolVersion) :
    RefusedForVersion chunkStore peer service context rpc s ↔
      (rpc.IsGuarded → rpc.requestedId ≠ none) := by
  constructor
  · intro h hguarded hnone
    exact not_refusedForVersion hv hne hguarded hnone h
  · intro h
    obtain ⟨answer, hruns, hnamed, _⟩ := answeredAtOnce_unsupported hv hne
    refine ⟨⟨answer, [], .start s, (hruns _ _ _).mpr ⟨⟨rfl, rfl⟩, rfl⟩⟩, fun r w n hr => ?_⟩
    obtain ⟨⟨rfl, rfl⟩, _⟩ := (hruns _ _ _).mp hr
    exact ⟨hnamed h, rfl, rfl⟩

end Version

theorem refusedForVersion_iff_getChunk :
    RefusedForVersion (localStore knownSha256 .noFault) anyReply { maxChunkBytes := 4 } ⟨[]⟩
      (.getChunk ⟨2, ['z', 'z']⟩) Store.empty :=
  (refusedForVersion_iff _ _ _ _ (.getChunk ⟨2, ['z', 'z']⟩) _ 2 rfl (by decide)).mpr
    fun h => h.elim

/-- A `DeleteChunk` of version 2 whose chunk id is `zz` is told that the id is
bad. So is a `PutChunk` of version 2 that starts without metadata. -/
theorem not_refusedForVersion_malformed :
    Rpc.protocolVersion (.deleteChunk ⟨2, ['z', 'z'], []⟩) = some 2 ∧
    ¬ RefusedForVersion (localStore knownSha256 .noFault) anyReply { maxChunkBytes := 4 } ⟨[]⟩
      (.deleteChunk ⟨2, ['z', 'z'], []⟩) Store.empty ∧
    Rpc.protocolVersion (.putChunk [⟨2, none⟩]) = some 2 ∧
    ¬ RefusedForVersion (localStore knownSha256 .noFault) anyReply { maxChunkBytes := 4 } ⟨[]⟩
      (.putChunk [⟨2, none⟩]) Store.empty :=
  ⟨rfl, not_refusedForVersion rfl (by decide) trivial rfl,
    rfl, not_refusedForVersion rfl (by decide) trivial rfl⟩

/-! ## The capability token -/

section Token

variable {S : Type} {chunkStore : ChunkStoreSem S} {peer : PeerSem S} {service : Service}
variable {context : ServerContext}

/-- What `RunPreamble` lets pass was accepted by the validator. -/
theorem runPreamble_accepted {version : Nat} {token : List Char} {id : ChunkId}
    (h : runPreamble service version (some token) (some id) = none) :
    service.validate token id = true := by
  unfold runPreamble at h
  split at h
  · cases h
  · dsimp only at h
    split at h
    · cases h
    · rename_i hno
      simpa using hno

theorem runPreamble_denied {token : List Char} {id : ChunkId}
    (h : service.validate token id = false) :
    runPreamble service kCurrentProtocolVersion (some token) (some id) =
      some ⟨.PERMISSION_DENIED, "CAPABILITY_DENIED"⟩ := by
  simp [runPreamble, checkProtocolVersion, h]

/-- The id that `PutChunk` puts is the one that the token was accepted for. -/
theorem putChunkPlan_accepts {reader : List PutChunkRequest} {id : ChunkId} {payload : Bytes}
    (h : putChunkPlan service reader = .ok (id, payload)) :
    service.Accepts (.putChunk reader) id := by
  have hid := putChunkPlan_ok h
  obtain ⟨first, frames, m, rfl, hm, _, hpre, _⟩ := putChunkPlan_eq_ok.mp h
  refine ⟨m.capabilityToken, ?_, hid, runPreamble_accepted hpre⟩
  simp [Rpc.capabilityToken, hm]

theorem deleteChunkPlan_accepts {request : DeleteChunkRequest} {id : ChunkId}
    (h : deleteChunkPlan service request = .ok id) :
    service.Accepts (.deleteChunk request) id := by
  obtain ⟨_, hpre⟩ := deleteChunkPlan_passed h
  exact ⟨request.capabilityToken, rfl, deleteChunkPlan_ok h, runPreamble_accepted hpre⟩

/-- A request that carries a token asks its store for nothing, or for one
operation, on the chunk that its token was accepted for. -/
theorem RpcRun.accepted {rpc : Rpc} (hguarded : rpc.IsGuarded) {s t : S} {r : rpc.Ret}
    {w : List (GetChunkResponse × Bool)} (h : RpcRun chunkStore peer service context rpc s r w t) :
    t = s ∨ ∃ o res id, chunkStore o s res t ∧ o.target = some id ∧ service.Accepts rpc id := by
  cases rpc with
  | putChunk reader =>
    rcases follows_map_cases (rpcRun_putChunk.mp h).1 with ⟨_, rfl⟩ | ⟨x, res, hplan, hop, _⟩
    · exact .inl rfl
    · exact .inr ⟨_, res, x.1, hop, rfl, putChunkPlan_accepts hplan⟩
  | deleteChunk request =>
    rcases follows_map_cases (rpcRun_deleteChunk.mp h).1 with ⟨_, rfl⟩ | ⟨id, res, hplan, hop, _⟩
    · exact .inl rfl
    · exact .inr ⟨_, res, id, hop, rfl, deleteChunkPlan_accepts hplan⟩
  | getChunk request => exact hguarded.elim
  | verifyChunk request => exact hguarded.elim
  | replicateChunk request => exact hguarded.elim
  | getNodeStats request => exact hguarded.elim

/-- The answer of `PutChunk` to a token that is denied. -/
def putChunkDenied : Status × PutChunkResponse :=
  (Status.OK, ⟨kCurrentProtocolVersion, .CAPABILITY_DENIED, "Capability token denied"⟩)

/-- The answer of `DeleteChunk` to a token that is denied. -/
def deleteChunkDenied : Status × DeleteChunkResponse :=
  (Status.OK, ⟨kCurrentProtocolVersion, .CAPABILITY_DENIED⟩)

theorem putChunkPlan_denied {first : PutChunkRequest} (frames : List PutChunkRequest)
    {m : PutChunkMetadata} {id : ChunkId} (hm : first.payload = some (.metadata m))
    (hid : ChunkId.parse m.chunkId = .ok id) (hv : first.protocolVersion = kCurrentProtocolVersion)
    (hno : service.validate m.capabilityToken id = false) :
    putChunkPlan service (first :: frames) = .error putChunkDenied := by
  simp only [putChunkPlan, hm, hid, hv, runPreamble_denied hno]
  rfl

theorem deleteChunkPlan_denied {request : DeleteChunkRequest} {id : ChunkId}
    (hid : ChunkId.parse request.chunkId = .ok id)
    (hv : request.protocolVersion = kCurrentProtocolVersion)
    (hno : service.validate request.capabilityToken id = false) :
    deleteChunkPlan service request = .error deleteChunkDenied := by
  simp only [deleteChunkPlan, hid, hv, runPreamble_denied hno]
  rfl

/-! ### Sequences of calls -/

/-- What is known of a store that keeps an entry for each chunk: an operation on
one chunk leaves the entries of the others alone. -/
structure KeyedStore (chunkStore : ChunkStoreSem S) (E : Type) where
  inv : S → Prop
  entry : S → ChunkId → E
  keeps : ∀ o s r t, inv s → chunkStore o s r t → inv t
  frame : ∀ o s r t id, inv s → chunkStore o s r t → o.target ≠ some id → entry t id = entry s id

/-- `LocalDiskChunkStore` keeps the file at the final path for each chunk. -/
def localStoreKeyed (sha256 : Bytes → Digest) (pol : Policy) :
    KeyedStore (localStore sha256 pol) (Option Bytes) where
  inv s := DiskInv sha256 s.disk
  entry := view
  keeps _ _ _ _ hinv h := (localStore_spec hinv h).1
  frame o s r t id hinv h hne := by
    have hspec := (localStore_spec hinv h).2
    unfold MapSpec at hspec
    split at hspec
    · rename_i id' htarget
      exact hspec.2 id fun heq => hne (heq ▸ htarget)
    · rw [hspec]

/-- One request of a sequence, with the world before and after it. -/
structure Served (S : Type) where
  rpc : Rpc
  before : S
  after : S

/-- Requests that carry a token, served one after the other. -/
inductive GuardedRun (chunkStore : ChunkStoreSem S) (peer : PeerSem S) (service : Service) :
    S → List (Served S) → S → Prop
  | nil (s : S) : GuardedRun chunkStore peer service s [] s
  | cons {rpc context s r w t rest u} : rpc.IsGuarded →
      RpcRun chunkStore peer service context rpc s r w t →
      GuardedRun chunkStore peer service t rest u →
      GuardedRun chunkStore peer service s (⟨rpc, s, t⟩ :: rest) u

/-- Through a whole sequence, an entry changes only under a token accepted for it. -/
theorem GuardedRun.accepted {E : Type} (keyed : KeyedStore chunkStore E) {s t : S}
    {calls : List (Served S)} (h : GuardedRun chunkStore peer service s calls t)
    (hinv : keyed.inv s) :
    ∀ x ∈ calls, ∀ id, keyed.entry x.after id ≠ keyed.entry x.before id →
      service.Accepts x.rpc id := by
  induction h with
  | nil s => simp
  | @cons rpc context s r w t rest u hguarded hrun _ ih =>
    intro x hx id hchange
    rcases hrun.accepted hguarded with rfl | ⟨o, res, id', hop, htarget, hacc⟩
    · rcases List.mem_cons.mp hx with rfl | hx
      · exact absurd rfl hchange
      · exact ih hinv x hx id hchange
    · rcases List.mem_cons.mp hx with rfl | hx
      · by_cases hid : id' = id
        · exact hid ▸ hacc
        · refine absurd (keyed.frame o s res t id hinv hop ?_) hchange
          rw [htarget]
          simpa using hid
      · exact ih (keyed.keeps o s res t hinv hop) x hx id hchange

/-- **Capability checks.** Whatever the validator, the store, the other nodes and
what is streamed: the store is asked for an operation on a chunk only by a request
whose token was accepted for that chunk; a token that is denied ends the request
with gRPC OK and `CAPABILITY_DENIED`, with nothing asked for and whatever frames
follow; and through any sequence of such requests an entry changes only in one
whose token was accepted for it. -/
theorem capability_checked (chunkStore : ChunkStoreSem S) (peer : PeerSem S) (service : Service)
    (context : ServerContext) (s : S) :
    (∀ rpc : Rpc, rpc.IsGuarded → ∀ r w n,
      RpcRun (traced chunkStore) (tracedPeer peer) service context rpc (.start s) r w n →
      ∀ o ∈ n.asked, ∃ id, o.target = some id ∧ service.Accepts rpc id) ∧
    (∀ first frames m id, first.payload = some (.metadata m) →
      ChunkId.parse m.chunkId = .ok id → first.protocolVersion = kCurrentProtocolVersion →
      service.validate m.capabilityToken id = false →
      AnsweredAtOnce (traced chunkStore) (tracedPeer peer) service context
        (.putChunk (first :: frames)) (.start s) putChunkDenied) ∧
    (∀ request id, ChunkId.parse request.chunkId = .ok id →
      request.protocolVersion = kCurrentProtocolVersion →
      service.validate request.capabilityToken id = false →
      AnsweredAtOnce (traced chunkStore) (tracedPeer peer) service context
        (.deleteChunk request) (.start s) deleteChunkDenied) ∧
    (∀ (E : Type) (keyed : KeyedStore chunkStore E) calls t, keyed.inv s →
      GuardedRun chunkStore peer service s calls t →
      ∀ x ∈ calls, ∀ id, keyed.entry x.after id ≠ keyed.entry x.before id →
        service.Accepts x.rpc id) := by
  refine ⟨fun rpc hguarded r w n h o ho => ?_, fun first frames m id hm hid hv hno => ?_,
    fun request id hid hv hno => ?_, fun E keyed calls t hinv h => h.accepted keyed hinv⟩
  · rcases h.accepted hguarded with rfl | ⟨o', res, id, hop, htarget, hacc⟩
    · cases ho
    · rw [hop.2.1] at ho
      obtain rfl : o = o' := by simpa [Traced.start] using ho
      exact ⟨id, htarget, hacc⟩
  · exact putChunk_answeredAtOnce (putChunkPlan_denied frames hm hid hv hno)
  · exact deleteChunk_answeredAtOnce (deleteChunkPlan_denied hid hv hno)

end Token

/-- A node that takes the empty token only stores `abc` under it, and refuses to
delete the chunk under another one. -/
theorem capability_checked_abcUpload :
    let service : Service := { maxChunkBytes := 4, validate := fun token _ => token.isEmpty }
    let delete : DeleteChunkRequest := ⟨kCurrentProtocolVersion, ChunkId.ofAbc.hex, ['x']⟩
    view abcStore .ofAbc ≠ view Store.empty .ofAbc ∧
    service.Accepts (.putChunk abcUpload) .ofAbc ∧
    AnsweredAtOnce (traced (localStore knownSha256 .noFault)) (tracedPeer anyReply) service ⟨[]⟩
      (.deleteChunk delete) (.start abcStore) deleteChunkDenied := by
  intro service delete
  have hchange : view abcStore .ofAbc ≠ view Store.empty .ofAbc := by
    have hempty : view Store.empty .ofAbc = none := by rw [Disk.isEmpty_empty.view]
    rw [hempty, show view abcStore .ofAbc = some abcBytes from rfl]
    simp
  have hrun := rpcRun_abcUpload .noFault ⟨[]⟩ (show 3 ≤ service.maxChunkBytes by decide) rfl
  have hcalls : GuardedRun (localStore knownSha256 .noFault) anyReply service Store.empty
      [⟨.putChunk abcUpload, Store.empty, abcStore⟩] abcStore := .cons trivial hrun (.nil _)
  have hempty := capability_checked (localStore knownSha256 .noFault) anyReply service ⟨[]⟩ Store.empty
  have habc := capability_checked (localStore knownSha256 .noFault) anyReply service ⟨[]⟩ abcStore
  refine ⟨hchange, ?_, habc.2.2.1 delete .ofAbc (ChunkId.parse_hex _) rfl rfl⟩
  exact hempty.2.2.2 _ (localStoreKeyed knownSha256 .noFault) _ _ Disk.isEmpty_empty.inv hcalls _
    (List.mem_singleton.mpr rfl) _ hchange

end NimbusFs.StorageNode
