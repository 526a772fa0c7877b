import Mathlib.Algebra.GroupWithZero.Nat
import NimbusFs.Lib.Prog
import NimbusFs.StorageNode.ChunkId
import NimbusFs.StorageNode.Disk

/-! # `LocalDiskChunkStore`

The operations of the store as trees of atomic calls, in the order of the
source: `lock_guard` is `guarded`, a descriptor is closed where its `ScopedFd`
goes out of scope, an error message is the one returned. The logger is left
out. The random part of a temporary name is an argument of `put`. -/
namespace NimbusFs.StorageNode

open NimbusFs.Common Lib

inductive ChunkStoreError
  | ChecksumMismatch
  | CorruptionDetected
  | NotFound
  | IoError
deriving DecidableEq

structure ChunkStoreErrorDetail where
  kind : ChunkStoreError
  message : String
deriving DecidableEq

structure ChunkStoreStats where
  chunkCount : Nat
  bytesUsed : Nat
  bytesFree : Nat
deriving DecidableEq

/-- `common::Result<T, ChunkStoreErrorDetail>`. -/
abbrev Result (α : Type) := Except ChunkStoreErrorDetail α

/-- A program of the store: 256 stripe locks, the calls of `Call`. -/
abbrev StoreProg := Prog (Fin 256) Call Call.Ret

/-- Make a call. -/
abbrev sys (c : Call) : StoreProg c.Ret := Prog.perform c

/-- An `Err` of kind `IoError`. -/
def ioError {α : Type} (message : String) : Result α := .error ⟨.IoError, message⟩

/-- `kLockStripeCount` stripes, chosen by the hash of the id. -/
def lockFor (id : ChunkId) : Fin 256 := ⟨id.hash.toNat % 256, Nat.mod_lt _ (by decide)⟩

def shardDirFor (id : ChunkId) : Path := [id.hex.take 2, (id.hex.drop 2).take 2]

/-- `".chunk"`. -/
def chunkExtension : Name := ['.', 'c', 'h', 'u', 'n', 'k']

def finalPathFor (id : ChunkId) : Path := shardDirFor id ++ [id.hex ++ chunkExtension]

/-- `hex(id).tmp.<uuid>` in the shard directory. -/
def tmpPathFor (id : ChunkId) (uuid : UuidV4) : Path :=
  shardDirFor id ++ [id.hex ++ ['.', 't', 'm', 'p', '.'] ++ uuid.text]

def existsChunk (id : ChunkId) : StoreProg Bool :=
  Prog.guarded (lockFor id) do
    let (found, ec) ← sys (.existsPath (finalPathFor id))
    return found && ec.isNone

/-! ## `Put` -/

/-- Remove the temporary file, close it, report. -/
def putAbandon (tmpPath : Path) (message : String) : StoreProg (Result Unit) := do
  let _ ← sys (.remove tmpPath)
  sys (.close tmpPath)
  return ioError message

/-- After the rename: sync the shard directory, as far as that works, and count. -/
def putFinish (id : ChunkId) (data : Bytes) : StoreProg (Result Unit) := do
  let dirFd ← sys (.internalOpen (shardDirFor id) .directory)
  match dirFd with
  | some fd =>
    let _ ← sys (.internalFsync fd)
    sys (.fetchAdd .chunkCount 1)
    sys (.fetchAdd .bytesUsed data.length)
    sys (.close fd)
    return .ok ()
  | none =>
    sys (.fetchAdd .chunkCount 1)
    sys (.fetchAdd .bytesUsed data.length)
    return .ok ()

/-- The temporary file is complete, synced and closed. -/
def putRename (id : ChunkId) (data : Bytes) (tmpPath : Path) : StoreProg (Result Unit) := do
  let ec ← sys (.rename tmpPath (finalPathFor id))
  match ec with
  | some _ =>
    let _ ← sys (.remove tmpPath)
    return ioError "Failed to atomically rename chunk file"
  | none => putFinish id data

/-- The temporary file holds the data. -/
def putFsync (id : ChunkId) (data : Bytes) (tmpPath : Path) : StoreProg (Result Unit) := do
  let synced ← sys (.internalFsync tmpPath)
  if synced then
    sys (.close tmpPath)
    putRename id data tmpPath
  else putAbandon tmpPath "Failed to fsync temporary file"

/-- The temporary file is open and empty. -/
def putWrite (id : ChunkId) (data : Bytes) (tmpPath : Path) : StoreProg (Result Unit) :=
  if data.isEmpty then putFsync id data tmpPath
  else do
    let written ← sys (.write tmpPath data)
    if written = some data.length then putFsync id data tmpPath
    else putAbandon tmpPath "Failed to write chunk data"

/-- No file is at the final path. -/
def putNew (id : ChunkId) (data : Bytes) (uuid : UuidV4) : StoreProg (Result Unit) := do
  let ec ← sys (.createDirectories (shardDirFor id))
  match ec with
  | some message => return ioError ("Failed to create shard directory: " ++ message)
  | none =>
    let fd ← sys (.internalOpen (tmpPathFor id uuid) .writeCreateTruncate)
    match fd with
    | none => return ioError "Failed to open temporary file for write"
    | some fd => putWrite id data fd

/-- `Put` under its lock. -/
def putLocked (id : ChunkId) (data : Bytes) (uuid : UuidV4) : StoreProg (Result Unit) := do
  let found ← existsChunk id
  if found then return .ok () else putNew id data uuid

section Hash

variable (sha256 : Bytes → Digest)

/-- The error of a `Put` whose data is not that of the id. -/
def checksumMismatch : Result Unit :=
  .error ⟨.ChecksumMismatch, "Provided chunk data does not match the ChunkId"⟩

def put (id : ChunkId) (data : Bytes) (uuid : UuidV4) : StoreProg (Result Unit) :=
  if sha256 data ≠ id.digest then return checksumMismatch
  else Prog.guarded (lockFor id) (putLocked id data uuid)

/-! ## `Get`, `VerifyOnly`, `Delete` -/

/-- The hash check of `Get`. -/
def checkContents (id : ChunkId) (data : Bytes) : Result Bytes :=
  if sha256 data ≠ id.digest then
    .error ⟨.CorruptionDetected, "Chunk data on disk does not match its ID"⟩
  else .ok data

/-- What `Get` makes of the answer of `::read`. -/
def checkRead (id : ChunkId) (fileSize : Nat) : Option Bytes → Result Bytes
  | some data =>
    if data.length ≠ fileSize then ioError "Failed to read full chunk file"
    else checkContents sha256 id data
  | none => ioError "Failed to read full chunk file"

/-- The error of a `Get` whose size probe fails. -/
def chunkNotFound {α : Type} : Result α := .error ⟨.NotFound, "Chunk file not found or inaccessible"⟩

/-- `Get` under its lock, once the file is open. -/
def getRead (id : ChunkId) (fileSize : Nat) (fd : Path) : StoreProg (Result Bytes) :=
  if fileSize = 0 then do
    sys (.close fd)
    return checkContents sha256 id []
  else do
    let bytesRead ← sys (.read fd fileSize)
    sys (.close fd)
    return checkRead sha256 id fileSize bytesRead

/-- `Get` under its lock. -/
def getLocked (id : ChunkId) : StoreProg (Result Bytes) := do
  let size ← sys (.fileSize (finalPathFor id))
  match size with
  | .error _ => return chunkNotFound
  | .ok fileSize =>
    let fd ← sys (.internalOpen (finalPathFor id) .readOnly)
    match fd with
    | none => return ioError "Failed to open chunk file for read"
    | some fd => getRead sha256 id fileSize fd

def get (id : ChunkId) : StoreProg (Result Bytes) :=
  Prog.guarded (lockFor id) (getLocked sha256 id)

/-- Forget the bytes. -/
def forgetBytes : Result Bytes → Result Unit
  | .ok _ => .ok ()
  | .error e => .error e

def verifyOnly (id : ChunkId) : StoreProg (Result Unit) := do
  let res ← get sha256 id
  return forgetBytes res

end Hash

/-- `ec.message()`. -/
def errorMessage : ErrorCode → String
  | some message => message
  | none => "Success"

/-- `Delete` under its lock. -/
def deleteLocked (id : ChunkId) : StoreProg (Result Unit) := do
  let size ← sys (.fileSize (finalPathFor id))
  match size with
  | .error _ => return .ok ()
  | .ok sizeBefore =>
    let (removed, ec) ← sys (.remove (finalPathFor id))
    if !removed || ec.isSome then
      return ioError ("Failed to delete chunk file: " ++ errorMessage ec)
    else
      sys (.fetchSub .chunkCount 1)
      sys (.fetchSub .bytesUsed sizeBefore)
      return .ok ()

def delete (id : ChunkId) : StoreProg (Result Unit) :=
  Prog.guarded (lockFor id) (deleteLocked id)

/-! ## `GetStats`, `ListAllChunkIds`, the constructor

An error of the last two is an exception. -/

def getStats : StoreProg ChunkStoreStats := do
  let free ← sys .space
  let chunkCount ← sys (.load .chunkCount)
  let bytesUsed ← sys (.load .bytesUsed)
  return ⟨chunkCount, bytesUsed, match free with | .ok n => n | .error _ => 0⟩

/-- A regular file with the extension of chunks, with its size. -/
def chunkFile : Path × Node → Option (Name × Nat)
  | (p, .file b _) =>
    match p.getLast? with
    | some name => if extension name = chunkExtension then some (name, b.length) else none
    | none => none
  | (_, .dir) => none

/-- The ids that the names of the chunk files spell. -/
def listedIds (entries : List (Path × Node)) : List ChunkId :=
  (entries.filterMap chunkFile).filterMap fun (name, _) => (ChunkId.parse (stem name)).toOption

def listAllChunkIds : StoreProg (Except String (List ChunkId)) := do
  let (found, ec) ← sys (.existsPath [])
  match ec with
  | some message => return .error message
  | none =>
    if !found then return .ok []
    else
      let entries ← sys .listRecursive
      match entries with
      | .error message => return .error message
      | .ok entries => return .ok (listedIds entries)

/-- The scan of the constructor: how many chunk files, and their bytes. -/
def scan (entries : List (Path × Node)) : Nat × Nat :=
  let files := entries.filterMap chunkFile
  (files.length, (files.map Prod.snd).sum)

/-- Store the two counters. -/
def storeCounters (count bytes : Nat) : StoreProg Unit := do
  sys (.store .chunkCount count)
  sys (.store .bytesUsed bytes)

/-- The constructor. -/
def construct : StoreProg (Except String Unit) := do
  let (found, ec) ← sys (.existsPath [])
  match ec with
  | some message => return .error message
  | none =>
    if found then
      let entries ← sys .listRecursive
      match entries with
      | .error message => return .error message
      | .ok entries =>
        storeCounters (scan entries).1 (scan entries).2
        return .ok ()
    else
      let ec ← sys (.createDirectories [])
      match ec with
      | some message => return .error message
      | none =>
        storeCounters 0 0
        return .ok ()

/-! ## The operations together -/

/-- The operations of `IChunkStore`, and the constructor. -/
inductive StoreOp
  | put (id : ChunkId) (data : Bytes)
  | get (id : ChunkId)
  | verifyOnly (id : ChunkId)
  | delete (id : ChunkId)
  | existsChunk (id : ChunkId)
  | getStats
  | listAllChunkIds
  | construct

/-- What an operation returns. -/
abbrev StoreOp.Ret : StoreOp → Type
  | .put _ _ => Result Unit
  | .get _ => Result Bytes
  | .verifyOnly _ => Result Unit
  | .delete _ => Result Unit
  | .existsChunk _ => Bool
  | .getStats => ChunkStoreStats
  | .listAllChunkIds => Except String (List ChunkId)
  | .construct => Except String Unit

/-- The program of an operation; `uuid` is what `GenerateUuidV4` returns in it. -/
def StoreOp.prog (sha256 : Bytes → Digest) (uuid : UuidV4) : (o : StoreOp) → StoreProg o.Ret
  | .put id data => StorageNode.put sha256 id data uuid
  | .get id => StorageNode.get sha256 id
  | .verifyOnly id => StorageNode.verifyOnly sha256 id
  | .delete id => StorageNode.delete id
  | .existsChunk id => StorageNode.existsChunk id
  | .getStats => StorageNode.getStats
  | .listAllChunkIds => StorageNode.listAllChunkIds
  | .construct => StorageNode.construct

end NimbusFs.StorageNode
