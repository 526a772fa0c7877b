import NimbusFs.Lib.Stream
import NimbusFs.StorageNode.AnyDisk
import NimbusFs.StorageNode.Node

/-! # What `GetChunk` streams

The loop over the offset writes the slices of the data, in order, until the
client refuses one. With the check that `Get` ends with, a node never serves
bytes that are not those of the id it was asked for: whatever is on its disk,
whatever fails, and wherever the stream breaks. -/
namespace NimbusFs.StorageNode

open NimbusFs.Common Lib

/-! ## The loop -/

/-- A message with data. -/
def dataMessage (data : Bytes) : GetChunkResponse :=
  ⟨kCurrentProtocolVersion, some (.dataChunk data)⟩

/-- The messages of the loop when no `Write` fails. -/
def frameMessages (data : Bytes) : List GetChunkResponse :=
  (slices kStreamFrameSizeBytes data).map dataMessage

theorem kStreamFrameSizeBytes_pos : 0 < kStreamFrameSizeBytes := by decide

theorem sendFrames_done {data : Bytes} {offset : Nat} (h : ¬ offset < data.length) :
    sendFrames data offset = .ret () := by
  rw [sendFrames, dif_neg h]
  rfl

theorem sendFrames_step {data : Bytes} {offset : Nat} (h : offset < data.length) :
    sendFrames data offset =
      .call (.write (dataMessage ((data.drop offset).take kStreamFrameSizeBytes))) fun written =>
        if written = true then sendFrames data
          (offset + min kStreamFrameSizeBytes (data.length - offset)) else .ret () := by
  have htake : (data.drop offset).take (min kStreamFrameSizeBytes (data.length - offset)) =
      (data.drop offset).take kStreamFrameSizeBytes := by
    rw [← List.length_drop, ← List.take_eq_take_min]
  rw [sendFrames, dif_pos h, ← htake]
  rfl

section Runs

variable {S : Type} {chunkStore : ChunkStoreSem S} {peer : PeerSem S} {n n' : NodeState S}

theorem runs_sendFrames {data : Bytes} {offset : Nat} {u : Unit}
    (h : (sendFrames data offset).Runs (serviceSem chunkStore peer) n u n') :
    n'.world = n.world ∧ ∃ w, n'.written = n.written ++ w ∧
      Attempts (frameMessages (data.drop offset)) w := by
  induction hm : data.length - offset using Nat.strong_induction_on generalizing offset n with
  | _ m ih =>
    by_cases hlt : offset < data.length
    · have hne : data.drop offset ≠ [] := by simpa using hlt
      have hpos := kStreamFrameSizeBytes_pos
      have hframes : frameMessages (data.drop offset) =
          dataMessage ((data.drop offset).take kStreamFrameSizeBytes) ::
            frameMessages ((data.drop offset).drop kStreamFrameSizeBytes) := by
        rw [frameMessages, slices_of_ne_nil hpos hne]
        rfl
      have hdrop : data.drop (offset + min kStreamFrameSizeBytes (data.length - offset)) =
          (data.drop offset).drop kStreamFrameSizeBytes := by
        rw [List.drop_drop]
        by_cases hle : kStreamFrameSizeBytes ≤ data.length - offset
        · rw [Nat.min_eq_left hle]
        · rw [List.drop_eq_nil_of_le (by omega), List.drop_eq_nil_of_le (by omega)]
      rw [sendFrames_step hlt] at h
      obtain ⟨written, _, rfl, h⟩ := h
      rw [hframes]
      cases written with
      | false =>
        obtain ⟨_, rfl⟩ := h
        exact ⟨rfl, _, rfl, .inl rfl⟩
      | true =>
        obtain ⟨hw, w, hwr, hatt⟩ := ih _ (by omega) h rfl
        rw [hdrop] at hatt
        exact ⟨hw, _, by rw [hwr, List.append_assoc]; rfl, .inr ⟨w, rfl, hatt⟩⟩
    · rw [sendFrames_done hlt] at h
      obtain ⟨_, rfl⟩ := h
      refine ⟨rfl, [], by simp, ?_⟩
      rw [List.drop_eq_nil_of_le (by omega), frameMessages, slices_nil]
      rfl

/-- What is written about a result of `Get`: one message, or a message and the
slices of the data. -/
def Sends (written : List (GetChunkResponse × Bool)) : Result Bytes → Prop
  | .error e => ∃ ok, written = [(metadataMessage 0 (mapStoreError e.kind), ok)]
  | .ok data => ∃ ok w, written = (metadataMessage data.length .OK, ok) :: w ∧
      Attempts (frameMessages data) w

theorem runs_sendResult {s t : S} {w : List (GetChunkResponse × Bool)} {getRes : Result Bytes}
    (h : (sendResult getRes).Runs (serviceSem chunkStore peer) ⟨s, []⟩ () ⟨t, w⟩) :
    t = s ∧ Sends w getRes := by
  cases getRes with
  | error e =>
    obtain ⟨ok, _, rfl, _, heq⟩ := h
    cases heq
    exact ⟨rfl, ok, rfl⟩
  | ok data =>
    obtain ⟨ok, _, rfl, h⟩ := h
    change (sendFrames data 0).Runs _ _ _ _ at h
    obtain ⟨hw, w', hwr, hatt⟩ := runs_sendFrames h
    exact ⟨hw, ok, w', hwr, hatt⟩

end Runs

/-! ## What the client is sent -/

/-- The first message, when it is one of metadata. -/
def metadataOf (written : List (GetChunkResponse × Bool)) : Option GetChunkMetadata :=
  written.head?.bind fun x => x.1.metadata

/-- The data of the messages, in their order. -/
def dataOf (messages : List GetChunkResponse) : Bytes :=
  (messages.filterMap GetChunkResponse.data).flatten

/-- The data that was sent, the message that was refused included. -/
def sentData (written : List (GetChunkResponse × Bool)) : Bytes := dataOf (written.map Prod.fst)

@[simp] theorem metadataMessage_metadata (n : Nat) (status : ChunkStatus) :
    (metadataMessage n status).metadata = some ⟨n, status⟩ := rfl

theorem dataOf_frameMessages (data : Bytes) : dataOf (frameMessages data) = data := by
  have hdata : (frameMessages data).filterMap GetChunkResponse.data =
      slices kStreamFrameSizeBytes data := by
    rw [frameMessages, List.filterMap_map]
    exact List.filterMap_some
  rw [dataOf, hdata, flatten_slices kStreamFrameSizeBytes_pos]

theorem dataOf_isPrefix {ms ms' : List GetChunkResponse} (h : ms <+: ms') :
    dataOf ms <+: dataOf ms' :=
  (h.filterMap _).flatten

theorem mapStoreError_ne_OK (e : ChunkStoreError) : mapStoreError e ≠ .OK := by
  cases e <;> simp [mapStoreError]

/-- A result of `Get` fixes what is sent: a status other than OK and no data, or
OK with the size and, as far as the stream goes, the data. -/
theorem Sends.sent {w : List (GetChunkResponse × Bool)} {getRes : Result Bytes}
    (h : Sends w getRes) :
    (∃ m, metadataOf w = some m ∧ m.status ≠ .OK ∧ (∀ x ∈ w, x.1.data = none) ∧
      ∃ e, getRes = .error e) ∨
    ∃ data, getRes = .ok data ∧ metadataOf w = some ⟨data.length, .OK⟩ ∧ sentData w <+: data ∧
      ((∀ x ∈ w, x.2 = true) → sentData w = data) := by
  cases getRes with
  | error e =>
    obtain ⟨ok, rfl⟩ := h
    refine .inl ⟨⟨0, mapStoreError e.kind⟩, rfl, mapStoreError_ne_OK _, fun x hx => ?_, e, rfl⟩
    rw [List.mem_singleton.mp hx]
    rfl
  | ok data =>
    obtain ⟨ok, w', rfl, hatt⟩ := h
    have hsent : sentData ((metadataMessage data.length .OK, ok) :: w') =
        dataOf (w'.map Prod.fst) := rfl
    refine .inr ⟨data, rfl, rfl, ?_, fun hall => ?_⟩
    · rw [hsent]
      have hpre := dataOf_isPrefix hatt.written_isPrefix
      rwa [dataOf_frameMessages] at hpre
    · rw [hsent, hatt.written_eq fun x hx => hall x (List.mem_cons_of_mem _ hx),
        dataOf_frameMessages]

/-! ## On any disk -/

section AnyDisk

variable {sha256 : Bytes → Digest} {id : ChunkId}

theorem checkContents_ok {data b : Bytes} (h : checkContents sha256 id data = .ok b) :
    sha256 b = id.digest := by
  unfold checkContents at h
  split at h
  · cases h
  · rename_i hsha
    cases h
    simpa using hsha

/-- `Get` returns no bytes without their hash being that of the id, whatever the
calls to the file system do. -/
theorem get_ok_hash {S : Type} {sem : (c : Call) → S → c.Ret → S → Prop} {s t : S} {b : Bytes}
    (h : (get sha256 id).Runs sem s (.ok b) t) : sha256 b = id.digest := by
  obtain ⟨size, _, _, h⟩ := Prog.runs_guarded.mp h
  cases size with
  | error m => obtain ⟨heq, _⟩ := h; cases heq
  | ok fileSize =>
    obtain ⟨fd, _, _, h⟩ := h
    cases fd with
    | none => obtain ⟨heq, _⟩ := h; cases heq
    | some fd =>
      change (getRead sha256 id fileSize fd).Runs _ _ _ _ at h
      unfold getRead at h
      split at h
      · obtain ⟨_, _, _, heq, _⟩ := h
        exact checkContents_ok heq.symm
      · obtain ⟨bytesRead, _, _, _, _, _, heq, _⟩ := h
        cases bytesRead with
        | none => cases heq
        | some data =>
          simp only [checkRead] at heq
          split at heq
          · cases heq
          · exact checkContents_ok heq.symm

/-- The stream of a `GetChunk` for which OK was announced and no `Write` failed. -/
def CompleteOk (written : List (GetChunkResponse × Bool)) : Prop :=
  (∃ m, metadataOf written = some m ∧ m.status = .OK) ∧ ∀ x ∈ written, x.2 = true

theorem getChunk_sent {pol : Policy} {peer : PeerSem Store} {service : Service}
    {context : ServerContext} {request : GetChunkRequest} {s t : Store} {r : Status}
    {w : List (GetChunkResponse × Bool)}
    (h : RpcRun (localStore sha256 pol) peer service context (.getChunk request) s r w t) :
    w = [] ∨ (∃ m, metadataOf w = some m ∧ m.status ≠ .OK ∧ ∀ x ∈ w, x.1.data = none) ∨
    ∃ id b, ChunkId.parse request.chunkId = .ok id ∧ sha256 b = id.digest ∧
      metadataOf w = some ⟨b.length, .OK⟩ ∧ sentData w <+: b ∧
      ((∀ x ∈ w, x.2 = true) → sentData w = b) := by
  have hrun := rpcRun_getChunk h
  split at hrun
  · exact .inl hrun.2.2
  · rename_i id hplan
    obtain ⟨_, getRes, u, ⟨uuid, hget⟩, hsend⟩ := hrun
    obtain ⟨_, hsent⟩ := runs_sendResult hsend
    rcases hsent.sent with ⟨m, hm, hne, hnone, _⟩ | ⟨b, rfl, hm, hpre, hall⟩
    · exact .inr (.inl ⟨m, hm, hne, hnone⟩)
    · exact .inr (.inr ⟨id, b, (readPlan_eq_ok.mp hplan).2, get_ok_hash hget, hm, hpre, hall⟩)

/-- `w` is what some node, in some state, wrote to a client that asked for `id`. -/
def Serves (sha256 : Bytes → Digest) (id : ChunkId) (w : List (GetChunkResponse × Bool)) : Prop :=
  ∃ pol peer service context request s r t, ChunkId.parse request.chunkId = .ok id ∧
    RpcRun (localStore sha256 pol) peer service context (.getChunk request) s r w t

theorem Serves.complete {w : List (GetChunkResponse × Bool)} (h : Serves sha256 id w)
    (hw : CompleteOk w) : sha256 (sentData w) = id.digest := by
  obtain ⟨_, _, _, _, _, _, _, _, hid, hrun⟩ := h
  obtain ⟨⟨m, hm, hok⟩, hall⟩ := hw
  rcases getChunk_sent hrun with rfl | ⟨m', hm', hne, _⟩ | ⟨id', b, hid', hsha, _, _, hb⟩
  · cases hm
  · rw [hm] at hm'
    cases hm'
    exact absurd hok hne
  · rw [hid] at hid'
    cases hid'
    rw [hb hall, hsha]

/-- **A node never serves wrong bytes.** On any disk, with any failures and
wherever the stream breaks: no data is sent unless OK was announced, and then it
is the start, without a failed `Write` the whole, of a string of the announced
size whose hash is the id. So two complete streams for one id agree, from
whatever nodes they are, as long as SHA-256 tells them apart. -/
theorem getChunk_never_wrong (sha256 : Bytes → Digest) :
    (∀ pol peer service context request s r w t,
      RpcRun (localStore sha256 pol) peer service context (.getChunk request) s r w t →
      ((∃ x ∈ w, x.1.data ≠ none) → ∃ m, metadataOf w = some m ∧ m.status = .OK) ∧
      ∀ m, metadataOf w = some m → m.status = .OK →
        ∃ id b, ChunkId.parse request.chunkId = .ok id ∧ b.length = m.totalSizeBytes ∧
          sha256 b = id.digest ∧ sentData w <+: b ∧
          ((∀ x ∈ w, x.2 = true) → sentData w = b)) ∧
    ∀ id w₁ w₂ known, Serves sha256 id w₁ → Serves sha256 id w₂ →
      CompleteOk w₁ → CompleteOk w₂ → CollisionFree sha256 known →
      known (sentData w₁) → known (sentData w₂) → sentData w₁ = sentData w₂ := by
  constructor
  · intro pol peer service context request s r w t h
    rcases getChunk_sent h with rfl | ⟨m, hm, hne, hnone⟩ | ⟨id, b, hid, hsha, hm, hpre, hall⟩
    · refine ⟨fun hx => ?_, fun m hm => ?_⟩
      · obtain ⟨x, hx, _⟩ := hx
        cases hx
      · cases hm
    · refine ⟨fun hx => ?_, fun m' hm' hok => ?_⟩
      · obtain ⟨x, hx, hdata⟩ := hx
        exact absurd (hnone x hx) hdata
      · rw [hm] at hm'
        cases hm'
        exact absurd hok hne
    · refine ⟨fun _ => ⟨_, hm, rfl⟩, fun m' hm' _ => ?_⟩
      rw [hm] at hm'
      cases hm'
      exact ⟨id, b, hid, rfl, hsha, hpre, hall⟩
  · intro id w₁ w₂ known h₁ h₂ hw₁ hw₂ hfree hk₁ hk₂
    exact hfree _ _ hk₁ hk₂ ((h₁.complete hw₁).trans (h₂.complete hw₂).symm)

end AnyDisk

/-- A store that was empty and then took `abc`. -/
def abcStore : Store := (execute (put knownSha256 .ofAbc abcBytes default) Store.empty).2

theorem execute_get_abcStore :
    execute (get knownSha256 .ofAbc) abcStore = (.ok abcBytes, abcStore) := by
  have hget : (execute (get knownSha256 .ofAbc) abcStore).1 = .ok abcBytes := rfl
  exact Prod.ext hget (by rw [execute_get])

/-- A node with `abc` serves it. -/
theorem serves_abc : ∃ w, Serves knownSha256 .ofAbc w ∧ CompleteOk w ∧ sentData w = abcBytes := by
  obtain ⟨r, w, t, hrun, hall⟩ := exists_rpcRun (localStore_total knownSha256 .noFault)
    anyReply_total { maxChunkBytes := 4 } ⟨[]⟩
    (.getChunk ⟨kCurrentProtocolVersion, ChunkId.ofAbc.hex⟩) abcStore
  have hid := ChunkId.parse_hex .ofAbc
  have hsent := rpcRun_getChunk hrun
  rw [readPlan_eq_ok.mpr ⟨rfl, hid⟩] at hsent
  obtain ⟨_, getRes, u, ⟨uuid, hget⟩, hsend⟩ := hsent
  obtain ⟨rfl, rfl⟩ := Prod.ext_iff.mp (execute_get_abcStore.symm.trans (runs_noFault_iff.mp hget))
  rcases (runs_sendResult hsend).2.sent with ⟨_, _, _, _, e, he⟩ | ⟨data, hdata, hm, _, hb⟩
  · cases he
  · cases hdata
    exact ⟨w, ⟨_, _, _, _, _, _, _, _, hid, hrun⟩, ⟨⟨_, hm, rfl⟩, hall⟩, hb hall⟩

theorem getChunk_never_wrong_abc :
    ∃ w₁ w₂, Serves knownSha256 .ofAbc w₁ ∧ Serves knownSha256 .ofAbc w₂ ∧
      CompleteOk w₁ ∧ CompleteOk w₂ ∧ sentData w₁ = abcBytes ∧ sentData w₁ = sentData w₂ ∧
      ∃ m b, metadataOf w₁ = some m ∧ b.length = m.totalSizeBytes ∧ sentData w₁ <+: b := by
  obtain ⟨w, hw, hok, hdata⟩ := serves_abc
  have hfree : CollisionFree knownSha256 fun b => b = [] ∨ b = abcBytes := by
    intro a b ha hb h
    rcases ha with rfl | rfl <;> rcases hb with rfl | rfl
    · rfl
    · exact absurd h (by decide)
    · exact absurd h (by decide)
    · rfl
  have hagree := (getChunk_never_wrong knownSha256).2 _ w w _ hw hw hok hok hfree (.inr hdata)
    (.inr hdata)
  have hw' := hw
  obtain ⟨_, _, _, _, _, _, _, _, _, hrun⟩ := hw'
  obtain ⟨m, hm, hstatus⟩ := hok.1
  obtain ⟨_, b, _, hlen, _, hpre, _⟩ :=
    ((getChunk_never_wrong knownSha256).1 _ _ _ _ _ _ _ _ _ hrun).2 m hm hstatus
  exact ⟨w, w, hw, hw, hok, hok, hdata, hagree, m, b, hm, hlen, hpre⟩

end NimbusFs.StorageNode
