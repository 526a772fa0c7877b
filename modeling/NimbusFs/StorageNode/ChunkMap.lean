import NimbusFs.StorageNode.LocalDiskChunkStore

/-! # The store as a map from ids to bytes

What the store is for: a map from chunk ids to bytes, and what each operation
does to the entry of its own id. `ReferenceMap` is the map when nothing goes
wrong. `OpSpec` is the same with what file-system faults may do to it: an error
without effect, and for a probe that goes wrong an overwrite or a delete that
does nothing. -/
namespace NimbusFs.StorageNode

open NimbusFs.Common

/-- The chunks of a store. -/
abbrev ChunkMap := ChunkId → Option Bytes

/-- The id an operation is about. -/
def StoreOp.target : StoreOp → Option ChunkId
  | .put id _ | .get id | .verifyOnly id | .delete id | .existsChunk id => some id
  | .getStats | .listAllChunkIds | .construct => none

/-- What `Get` returns of an entry. -/
def lookupResult : Option Bytes → Result Bytes
  | some b => .ok b
  | none => chunkNotFound

/-- The reference map: `Put` checks the hash and makes the id present, `Get`
returns the stored bytes, `VerifyOnly` agrees with it, `Delete` makes the id
absent, `Exists` is presence. The other operations do not touch the map. -/
def ReferenceMap (sha256 : Bytes → Digest) (m : ChunkMap) :
    (o : StoreOp) → o.Ret → ChunkMap → Prop
  | .put id data, r, m' =>
    if sha256 data ≠ id.digest then r = checksumMismatch ∧ m' = m
    else r = .ok () ∧ m' = Function.update m id (some ((m id).getD data))
  | .get id, r, m' => r = lookupResult (m id) ∧ m' = m
  | .verifyOnly id, r, m' => r = forgetBytes (lookupResult (m id)) ∧ m' = m
  | .delete id, r, m' => r = .ok () ∧ m' = Function.update m id none
  | .existsChunk id, r, m' => r = (m id).isSome ∧ m' = m
  | .getStats, _, m' => m' = m
  | .listAllChunkIds, _, m' => m' = m
  | .construct, _, m' => m' = m

/-- What `Get` may return of an entry under a policy. -/
def GetSpec (pol : Policy) (r : Result Bytes) (e : Option Bytes) : Prop :=
  r = lookupResult e ∨ (pol.probeFault = true ∧ r = chunkNotFound) ∨
    (pol.fault = true ∧ ∃ m, r = ioError m)

/-- What an operation returns and does to the entry of its id, from `e` to
`e'`, under a policy. -/
def OpSpec (sha256 : Bytes → Digest) (pol : Policy) :
    (o : StoreOp) → o.Ret → Option Bytes → Option Bytes → Prop
  | .put id data, r, e, e' =>
    (sha256 data ≠ id.digest ∧ r = checksumMismatch ∧ e' = e) ∨
    (sha256 data = id.digest ∧
      ((r = .ok () ∧ e ≠ none ∧ e' = e) ∨
       (r = .ok () ∧ (e = none ∨ pol.probeFault = true) ∧ e' = some data) ∨
       (pol.fault = true ∧ (∃ m, r = ioError m) ∧ e' = e)))
  | .get _, r, e, e' => e' = e ∧ GetSpec pol r e
  | .verifyOnly _, r, e, e' => e' = e ∧ ∃ r', r = forgetBytes r' ∧ GetSpec pol r' e
  | .delete _, r, e, e' =>
    (r = .ok () ∧ e' = none) ∨ (pol.probeFault = true ∧ r = .ok () ∧ e' = e) ∨
    (pol.fault = true ∧ (∃ m, r = ioError m) ∧ e' = e)
  | .existsChunk _, r, e, e' => e' = e ∧ (r = e.isSome ∨ (pol.probeFault = true ∧ r = false))
  | .getStats, _, e, e' => e' = e
  | .listAllChunkIds, _, e, e' => e' = e
  | .construct, _, e, e' => e' = e

/-- The same for the whole map: no other entry changes. -/
def MapSpec (sha256 : Bytes → Digest) (pol : Policy) (m : ChunkMap) (o : StoreOp) (r : o.Ret)
    (m' : ChunkMap) : Prop :=
  match o.target with
  | some id => OpSpec sha256 pol o r (m id) (m' id) ∧ ∀ id', id' ≠ id → m' id' = m id'
  | none => m' = m

theorem eq_update_of_others {m m' : ChunkMap} {id : ChunkId}
    (h : ∀ id', id' ≠ id → m' id' = m id') : m' = Function.update m id (m' id) := by
  funext id'
  by_cases hid : id' = id
  · subst hid; simp
  · simp [hid, h id' hid]

theorem eq_of_others {m m' : ChunkMap} {id : ChunkId} (h : ∀ id', id' ≠ id → m' id' = m id')
    (hid : m' id = m id) : m' = m := by
  rw [eq_update_of_others h, hid, Function.update_eq_self]

/-- Without faults the store is the reference map. -/
theorem referenceMap_of_noFault {sha256 : Bytes → Digest} {m m' : ChunkMap} {o : StoreOp}
    {r : o.Ret} (h : MapSpec sha256 .noFault m o r m') : ReferenceMap sha256 m o r m' := by
  cases o with
  | put id data =>
    obtain ⟨hs, ho⟩ := h
    simp only [ReferenceMap]
    rcases hs with ⟨hne, hr, he⟩ | ⟨heq, ⟨hr, hsome, he⟩ | ⟨hr, hnone, he⟩ | ⟨hf, _⟩⟩
    · rw [if_pos hne]
      exact ⟨hr, eq_of_others ho he⟩
    · obtain ⟨b, hb⟩ := Option.ne_none_iff_exists'.mp hsome
      rw [if_neg (by simpa using heq)]
      refine ⟨hr, ?_⟩
      rw [hb, Option.getD_some, ← hb, Function.update_eq_self]
      exact eq_of_others ho he
    · have hnone : m id = none := by simpa [Policy.noFault] using hnone
      rw [if_neg (by simpa using heq)]
      refine ⟨hr, ?_⟩
      rw [hnone, Option.getD_none, ← he]
      exact eq_update_of_others ho
    · simp [Policy.noFault] at hf
  | get id =>
    obtain ⟨⟨he, hs⟩, ho⟩ := h
    exact ⟨by simpa [GetSpec, Policy.noFault] using hs, eq_of_others ho he⟩
  | verifyOnly id =>
    obtain ⟨⟨he, r', hr, hs⟩, ho⟩ := h
    have hr' : r' = lookupResult (m id) := by simpa [GetSpec, Policy.noFault] using hs
    exact ⟨by rw [hr, hr'], eq_of_others ho he⟩
  | delete id =>
    obtain ⟨hs, ho⟩ := h
    rcases hs with ⟨hr, he⟩ | ⟨hp, _⟩ | ⟨hf, _⟩
    · exact ⟨hr, he ▸ eq_update_of_others ho⟩
    · simp [Policy.noFault] at hp
    · simp [Policy.noFault] at hf
  | existsChunk id =>
    obtain ⟨⟨he, hs⟩, ho⟩ := h
    exact ⟨by simpa [Policy.noFault] using hs, eq_of_others ho he⟩
  | getStats => exact h
  | listAllChunkIds => exact h
  | construct => exact h

end NimbusFs.StorageNode
