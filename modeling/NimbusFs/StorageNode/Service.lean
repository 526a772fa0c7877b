import NimbusFs.StorageNode.LocalDiskChunkStore

/-! # `StorageNodeServiceImpl`

The RPC handlers as trees of calls: to the chunk store, to the stream of the
client, to another node. What a client streams to `PutChunk` is the list of
messages that `Read` delivers before it returns false, for whatever reason; what
a source node streams to `ReplicateChunk` is such a list with the status of
`Finish`. Texts are lists of characters, one for each byte. Logging is left out
but for the correlation id it runs under, and so are the clocks. -/
namespace NimbusFs.StorageNode

open NimbusFs.Common Lib

/-! ## Messages -/

/-- `ChunkStatus`; proto3 keeps a number that it does not know. -/
inductive ChunkStatus
  | OK
  | CHECKSUM_MISMATCH
  | CHUNK_TOO_LARGE
  | CAPABILITY_DENIED
  | IO_ERROR
  | NOT_FOUND
  | CORRUPTION_DETECTED
  | SOURCE_UNREACHABLE
  | unrecognized (number : Nat)
deriving DecidableEq

structure PutChunkMetadata where
  chunkId : List Char
  capabilityToken : List Char
  totalSizeBytes : Nat

inductive PutChunkPayload
  | metadata (m : PutChunkMetadata)
  | dataChunk (data : Bytes)

structure PutChunkRequest where
  protocolVersion : Nat
  payload : Option PutChunkPayload

structure PutChunkResponse where
  protocolVersion : Nat := 0
  status : ChunkStatus := .OK
  message : String := ""
deriving DecidableEq

structure GetChunkRequest where
  protocolVersion : Nat
  chunkId : List Char

structure GetChunkMetadata where
  totalSizeBytes : Nat := 0
  status : ChunkStatus := .OK
deriving DecidableEq

inductive GetChunkPayload
  | metadata (m : GetChunkMetadata)
  | dataChunk (data : Bytes)
deriving DecidableEq

structure GetChunkResponse where
  protocolVersion : Nat
  payload : Option GetChunkPayload
deriving DecidableEq

structure VerifyChunkRequest where
  protocolVersion : Nat
  chunkId : List Char

structure VerifyChunkResponse where
  protocolVersion : Nat := 0
  isValid : Bool := false
  status : ChunkStatus := .OK

structure DeleteChunkRequest where
  protocolVersion : Nat
  chunkId : List Char
  capabilityToken : List Char

structure DeleteChunkResponse where
  protocolVersion : Nat := 0
  status : ChunkStatus := .OK

structure ReplicateChunkRequest where
  protocolVersion : Nat
  chunkId : List Char
  sourceNodeAddress : List Char

structure ReplicateChunkResponse where
  protocolVersion : Nat := 0
  status : ChunkStatus := .OK

structure GetNodeStatsRequest where
  protocolVersion : Nat

structure GetNodeStatsResponse where
  protocolVersion : Nat := 0
  chunkCount : Nat := 0
  bytesUsed : Nat := 0
  bytesFree : Nat := 0

/-- The part of a message that says what it carries. -/
def PutChunkRequest.data (m : PutChunkRequest) : Option Bytes :=
  match m.payload with
  | some (.dataChunk data) => some data
  | _ => none

def GetChunkResponse.data (m : GetChunkResponse) : Option Bytes :=
  match m.payload with
  | some (.dataChunk data) => some data
  | _ => none

/-- `has_metadata()` and `metadata()` of a reply. -/
def GetChunkResponse.metadata (m : GetChunkResponse) : Option GetChunkMetadata :=
  match m.payload with
  | some (.metadata md) => some md
  | _ => none

/-! ## Statuses of gRPC -/

/-- `grpc::StatusCode`, with those that the service uses by name. -/
inductive StatusCode
  | OK
  | UNKNOWN
  | INVALID_ARGUMENT
  | PERMISSION_DENIED
  | RESOURCE_EXHAUSTED
  | FAILED_PRECONDITION
  | other (number : Nat)
deriving DecidableEq

/-- `grpc::Status`. -/
structure Status where
  code : StatusCode
  message : String := ""
deriving DecidableEq

/-- `grpc::Status::OK`. -/
def Status.OK : Status := ⟨.OK, ""⟩

/-- What gRPC answers for a handler that throws. -/
def Status.threw : Status := ⟨.UNKNOWN, "Unexpected error in RPC handling"⟩

/-- What a source node streams, and the status it ends with. -/
structure Reply where
  messages : List GetChunkResponse
  status : Status

/-! ## The calls of a handler -/

/-- The metadata that comes with a request. -/
structure ServerContext where
  clientMetadata : List (List Char × List Char)

inductive ServiceCall
  | store (o : StoreOp)
  | write (m : GetChunkResponse)
  | getChunk (address : List Char) (correlationId : List Char) (request : GetChunkRequest)
  | generateUuidV4
  | withCorrelationId (correlationId : List Char)

abbrev ServiceCall.Ret : ServiceCall → Type
  | .store o => o.Ret
  | .write _ => Bool
  | .getChunk _ _ _ => Reply
  | .generateUuidV4 => UuidV4
  | .withCorrelationId _ => Unit

/-- A handler takes no lock of its own. -/
abbrev ServiceProg := Prog Empty ServiceCall ServiceCall.Ret

/-- Make a call. -/
abbrev rpc (c : ServiceCall) : ServiceProg c.Ret := Prog.perform c

/-! ## Before every handler -/

def kCurrentProtocolVersion : Nat := 1

/-- `kStreamFrameSizeBytes`: 256 KiB. -/
def kStreamFrameSizeBytes : Nat := 256 * 1024

def kCorrelationIdMetadataKey : List Char := "x-nimbus-correlation-id".toList

/-- `CheckProtocolVersion`: whether it is Ok. -/
def checkProtocolVersion (received minSupported maxSupported : Nat) : Bool :=
  !(received < minSupported || received > maxSupported)

/-- `ValidateCapabilityToken`: a stub that is always Ok. -/
def validateCapabilityToken (_token : List Char) (_scopedChunkId : ChunkId) : Bool := true

/-- What the constructor fixes, and the validator of tokens, which is to be replaced. -/
structure Service where
  maxChunkBytes : Nat
  validate : List Char → ChunkId → Bool := validateCapabilityToken

def mapStoreError : ChunkStoreError → ChunkStatus
  | .ChecksumMismatch => .CHECKSUM_MISMATCH
  | .CorruptionDetected => .CORRUPTION_DETECTED
  | .NotFound => .NOT_FOUND
  | .IoError => .IO_ERROR

def getCorrelationId (context : ServerContext) : ServiceProg (List Char) :=
  match context.clientMetadata.find? fun e => e.1 = kCorrelationIdMetadataKey with
  | some e => return e.2
  | none => do
    let uuid ← rpc .generateUuidV4
    return uuid.text

/-- The first statement of every handler. -/
def openScope (context : ServerContext) : ServiceProg Unit := do
  let correlationId ← getCorrelationId context
  rpc (.withCorrelationId correlationId)

/-- An error of `RunPreamble`, if there is one. -/
def runPreamble (service : Service) (receivedProtocolVersion : Nat)
    (capabilityToken : Option (List Char)) (tokenScopedChunkId : Option ChunkId) : Option Status :=
  if !checkProtocolVersion receivedProtocolVersion kCurrentProtocolVersion kCurrentProtocolVersion
  then some ⟨.FAILED_PRECONDITION, "Unsupported protocol version"⟩
  else match capabilityToken, tokenScopedChunkId with
    | some token, some id =>
      if !service.validate token id then some ⟨.PERMISSION_DENIED, "CAPABILITY_DENIED"⟩ else none
    | _, _ => none

/-- The status of a bad `chunk_id`. -/
def invalidChunkId : Status := ⟨.INVALID_ARGUMENT, "Invalid chunk_id"⟩

/-- `max_size()` of a `std::vector<std::byte>`. To reserve or to insert past it throws
`std::length_error`; memory is taken to suffice for anything else. -/
def vectorMaxSize : Nat := 2 ^ 63 - 1

/-! ## `PutChunk` -/

/-- Why the loop over the frames stops before the stream ends: the frame is refused, or
`insert` throws. -/
inductive FrameError
  | tooLarge
  | lengthError

/-- The loop over the frames: the payload when the stream ends (`ok`), or why it stops
before, with the payload by then (`error`). -/
def receiveFrames (maxChunkBytes : Nat) (payload : Bytes) :
    List PutChunkRequest → Except (FrameError × Bytes) Bytes
  | [] => .ok payload
  | frame :: rest =>
    match frame.data with
    | none => receiveFrames maxChunkBytes payload rest
    | some data =>
      if payload.length + data.length > maxChunkBytes then .error (.tooLarge, payload)
      else if payload.length + data.length > vectorMaxSize then .error (.lengthError, payload)
      else receiveFrames maxChunkBytes (payload ++ data) rest

/-- The answer of `PutChunk` to a result of `Put`. -/
def putChunkResponse (response : PutChunkResponse) : Result Unit → PutChunkResponse
  | .ok _ => { response with status := .OK, message := "Success" }
  | .error e => { response with status := mapStoreError e.kind, message := e.message }

/-- `PutChunk` once the first message is accepted. -/
def putChunkFrames (service : Service) (id : ChunkId) (totalSize : Nat)
    (frames : List PutChunkRequest) (response : PutChunkResponse) :
    ServiceProg (Status × PutChunkResponse) :=
  if totalSize > service.maxChunkBytes then
    return (⟨.RESOURCE_EXHAUSTED, "Chunk too large"⟩,
      { response with status := .CHUNK_TOO_LARGE, message := "Chunk too large" })
  else if totalSize > vectorMaxSize then return (Status.threw, response)  -- `reserve`
  else match receiveFrames service.maxChunkBytes [] frames with
    | .error (.tooLarge, _) =>
      return (⟨.RESOURCE_EXHAUSTED, "Streamed chunk too large"⟩,
        { response with status := .CHUNK_TOO_LARGE, message := "Streamed chunk too large" })
    | .error (.lengthError, _) => return (Status.threw, response)
    | .ok payload => do
      let putRes ← rpc (.store (.put id payload))
      return (Status.OK, putChunkResponse response putRes)

def putChunk (service : Service) (context : ServerContext) (reader : List PutChunkRequest) :
    ServiceProg (Status × PutChunkResponse) := do
  openScope context
  let response : PutChunkResponse := { protocolVersion := kCurrentProtocolVersion }
  match reader with
  | [] => return (⟨.INVALID_ARGUMENT, "Missing metadata"⟩, response)
  | first :: frames =>
    match first.payload with
    | some (.metadata m) =>
      match ChunkId.parse m.chunkId with
      | .error _ => return (invalidChunkId, response)
      | .ok id =>
        match runPreamble service first.protocolVersion (some m.capabilityToken) (some id) with
        | some err =>
          if err.message = "CAPABILITY_DENIED" then
            return (Status.OK, { response with status := .CAPABILITY_DENIED,
                                               message := "Capability token denied" })
          else return (err, response)
        | none => putChunkFrames service id m.totalSizeBytes frames response
    | _ => return (⟨.INVALID_ARGUMENT, "First message must contain metadata"⟩, response)

/-! ## `GetChunk` -/

/-- The loop that sends the data frames. -/
def sendFrames (data : Bytes) (offset : Nat) : ServiceProg Unit :=
  if _h : offset < data.length then do
    let chunkSize := min kStreamFrameSizeBytes (data.length - offset)
    let written ← rpc (.write ⟨kCurrentProtocolVersion,
      some (.dataChunk ((data.drop offset).take chunkSize))⟩)
    if written then sendFrames data (offset + chunkSize) else return ()
  else return ()
termination_by data.length - offset
decreasing_by
  have : 0 < kStreamFrameSizeBytes := by decide
  omega

/-- The message before the data. -/
def metadataMessage (totalSizeBytes : Nat) (status : ChunkStatus) : GetChunkResponse :=
  ⟨kCurrentProtocolVersion, some (.metadata { totalSizeBytes, status })⟩

def getChunk (service : Service) (context : ServerContext) (request : GetChunkRequest) :
    ServiceProg Status := do
  openScope context
  match runPreamble service request.protocolVersion none none with
  | some err => return err
  | none =>
    match ChunkId.parse request.chunkId with
    | .error _ => return invalidChunkId
    | .ok id =>
      let getRes ← rpc (.store (.get id))
      match getRes with
      | .error e =>
        let _ ← rpc (.write (metadataMessage 0 (mapStoreError e.kind)))
        return Status.OK
      | .ok data =>
        let _ ← rpc (.write (metadataMessage data.length .OK))
        sendFrames data 0
        return Status.OK

/-! ## `VerifyChunk`, `DeleteChunk`, `GetNodeStats` -/

def verifyChunk (service : Service) (context : ServerContext) (request : VerifyChunkRequest) :
    ServiceProg (Status × VerifyChunkResponse) := do
  openScope context
  let response : VerifyChunkResponse := { protocolVersion := kCurrentProtocolVersion }
  match runPreamble service request.protocolVersion none none with
  | some err => return (err, response)
  | none =>
    match ChunkId.parse request.chunkId with
    | .error _ => return (invalidChunkId, response)
    | .ok id =>
      let verRes ← rpc (.store (.verifyOnly id))
      match verRes with
      | .ok _ => return (Status.OK, { response with isValid := true, status := .OK })
      | .error e =>
        return (Status.OK, { response with isValid := false, status := mapStoreError e.kind })

def deleteChunk (service : Service) (context : ServerContext) (request : DeleteChunkRequest) :
    ServiceProg (Status × DeleteChunkResponse) := do
  openScope context
  let response : DeleteChunkResponse := { protocolVersion := kCurrentProtocolVersion }
  match ChunkId.parse request.chunkId with
  | .error _ => return (invalidChunkId, response)
  | .ok id =>
    match runPreamble service request.protocolVersion (some request.capabilityToken) (some id) with
    | some err =>
      if err.message = "CAPABILITY_DENIED" then
        return (Status.OK, { response with status := .CAPABILITY_DENIED })
      else return (err, response)
    | none =>
      let delRes ← rpc (.store (.delete id))
      match delRes with
      | .ok _ => return (Status.OK, { response with status := .OK })
      | .error e => return (Status.OK, { response with status := mapStoreError e.kind })

def getNodeStats (service : Service) (context : ServerContext) (request : GetNodeStatsRequest) :
    ServiceProg (Status × GetNodeStatsResponse) := do
  openScope context
  let response : GetNodeStatsResponse := { protocolVersion := kCurrentProtocolVersion }
  match runPreamble service request.protocolVersion none none with
  | some err => return (err, response)
  | none =>
    let stats ← rpc (.store .getStats)
    return (Status.OK, { response with chunkCount := stats.chunkCount,
                                       bytesUsed := stats.bytesUsed,
                                       bytesFree := stats.bytesFree })

/-! ## `ReplicateChunk` -/

/-- The loop over the messages of the source after the first one, if `insert` does not
throw. -/
def collectFrames (payload : Bytes) : List GetChunkResponse → Option Bytes
  | [] => some payload
  | m :: rest =>
    match m.data with
    | some data =>
      if payload.length + data.length > vectorMaxSize then none
      else collectFrames (payload ++ data) rest
    | none => collectFrames payload rest

/-- `metadata().total_size_bytes()` of the first message, which need not be metadata. -/
def expectedSize (first : GetChunkResponse) : Nat := (first.metadata.map (·.totalSizeBytes)).getD 0

/-- What the first message of the source says: a status to forward or `CHUNK_TOO_LARGE`. -/
def refuseFirst (maxChunkBytes : Nat) (first : GetChunkResponse) : Option ChunkStatus :=
  match first.metadata with
  | some m =>
    if m.status ≠ .OK then some m.status
    else if m.totalSizeBytes > maxChunkBytes then some .CHUNK_TOO_LARGE else none
  | none => none

/-- The answer of `ReplicateChunk` to a result of `Put`. -/
def replicateResponse (response : ReplicateChunkResponse) : Result Unit → ReplicateChunkResponse
  | .ok _ => { response with status := .OK }
  | .error e => { response with status := mapStoreError e.kind }

/-- `ReplicateChunk` once the source was asked. -/
def replicateFrom (service : Service) (id : ChunkId) (reply : Reply)
    (response : ReplicateChunkResponse) : ServiceProg (Status × ReplicateChunkResponse) :=
  match reply.messages with
  | [] => return (Status.OK, { response with status := .SOURCE_UNREACHABLE })
  | first :: rest =>
    match refuseFirst service.maxChunkBytes first with
    | some status => return (Status.OK, { response with status := status })
    | none =>
      if expectedSize first > vectorMaxSize then return (Status.threw, response)  -- `reserve`
      else match collectFrames [] rest with
        | none => return (Status.threw, response)
        | some payload =>
          if reply.status.code ≠ .OK then
            return (Status.OK, { response with status := .SOURCE_UNREACHABLE })
          else do
            let putRes ← rpc (.store (.put id payload))
            return (Status.OK, replicateResponse response putRes)

def replicateChunk (service : Service) (context : ServerContext)
    (request : ReplicateChunkRequest) : ServiceProg (Status × ReplicateChunkResponse) := do
  openScope context
  let response : ReplicateChunkResponse := { protocolVersion := kCurrentProtocolVersion }
  match runPreamble service request.protocolVersion none none with
  | some err => return (err, response)
  | none =>
    match ChunkId.parse request.chunkId with
    | .error _ => return (invalidChunkId, response)
    | .ok id =>
      let correlationId ← getCorrelationId context
      let reply ← rpc (.getChunk request.sourceNodeAddress correlationId
        ⟨kCurrentProtocolVersion, id.hex⟩)
      replicateFrom service id reply response

/-! ## The RPCs together -/

/-- A request as it reaches the node. -/
inductive Rpc
  | putChunk (reader : List PutChunkRequest)
  | getChunk (request : GetChunkRequest)
  | verifyChunk (request : VerifyChunkRequest)
  | deleteChunk (request : DeleteChunkRequest)
  | replicateChunk (request : ReplicateChunkRequest)
  | getNodeStats (request : GetNodeStatsRequest)

abbrev Rpc.Ret : Rpc → Type
  | .putChunk _ => Status × PutChunkResponse
  | .getChunk _ => Status
  | .verifyChunk _ => Status × VerifyChunkResponse
  | .deleteChunk _ => Status × DeleteChunkResponse
  | .replicateChunk _ => Status × ReplicateChunkResponse
  | .getNodeStats _ => Status × GetNodeStatsResponse

def Rpc.handler (service : Service) (context : ServerContext) : (r : Rpc) → ServiceProg r.Ret
  | .putChunk reader => StorageNode.putChunk service context reader
  | .getChunk request => StorageNode.getChunk service context request
  | .verifyChunk request => StorageNode.verifyChunk service context request
  | .deleteChunk request => StorageNode.deleteChunk service context request
  | .replicateChunk request => StorageNode.replicateChunk service context request
  | .getNodeStats request => StorageNode.getNodeStats service context request

end NimbusFs.StorageNode
