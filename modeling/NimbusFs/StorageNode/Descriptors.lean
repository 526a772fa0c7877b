import NimbusFs.Lib.Resource
import NimbusFs.StorageNode.Concurrency

/-! # File descriptors

`ScopedFd` closes a descriptor on every way out of a scope, and `Put` releases one
early to close it before the rename. Whatever the file system answers and whatever the
other threads do, no descriptor is used or closed that is not open, an operation has at
most one open at a time, and none is left when it has returned. -/
namespace NimbusFs.StorageNode

open NimbusFs.Common Lib

/-- `internal_open` opens a descriptor; `::write`, `::read` and `internal_fsync` use
one, `::close` closes it. -/
def descriptors : Handles Call Call.Ret Path where
  opens
    | .internalOpen _ _, fd => fd
    | _, _ => none
  uses
    | .write fd _ | .read fd _ | .internalFsync fd => some fd
    | _ => none
  closes
    | .close fd => some fd
    | _ => none

/-- The calls that open, use or close a descriptor. -/
def Call.touchesFd : Call → Bool
  | .internalOpen _ _ | .write _ _ | .internalFsync _ | .close _ | .read _ _ => true
  | _ => false

/-! ## The operations are tidy -/

section Tidy

variable {α : Type} {fd : Path} {h : Option Path}

/-- A call that has nothing to do with descriptors. -/
theorem tidy_plain {c : Call} {k : c.Ret → StoreProg α} (hc : c.touchesFd = false)
    (hk : ∀ r, Tidy descriptors h (k r)) : Tidy descriptors h (.call c k) := by
  cases c with
  | internalOpen p mode => cases hc
  | write fd data => cases hc
  | internalFsync fd => cases hc
  | close fd => cases hc
  | read fd count => cases hc
  | _ => exact ⟨fun _ hx => (by cases hx), fun _ hx => (by cases hx),
      fun r => ⟨fun _ hx => (by cases hx), hk r⟩⟩

/-- A call that uses the open descriptor. -/
theorem tidy_use {c : Call} {k : c.Ret → StoreProg α} (hc : descriptors.uses c = some fd)
    (hk : ∀ r, Tidy descriptors (some fd) (k r)) : Tidy descriptors (some fd) (.call c k) := by
  refine ⟨fun x hx => hc.symm.trans hx, ?_⟩
  cases c with
  | write fd data => exact ⟨fun _ hx => (by cases hx), fun r => ⟨fun _ hx => (by cases hx), hk r⟩⟩
  | read fd count => exact ⟨fun _ hx => (by cases hx), fun r => ⟨fun _ hx => (by cases hx), hk r⟩⟩
  | internalFsync fd => exact ⟨fun _ hx => (by cases hx), fun r => ⟨fun _ hx => (by cases hx), hk r⟩⟩
  | _ => cases hc

/-- The open descriptor is closed. -/
theorem tidy_close {k : Unit → StoreProg α} (hk : Tidy descriptors none (k ())) :
    Tidy descriptors (some fd) (.call (.close fd) k) :=
  ⟨fun _ hx => (by cases hx), fun _ hx => hx, fun _ => ⟨fun _ hx => (by cases hx), hk⟩⟩

/-- Nothing is open, and something is opened if the call succeeds. -/
theorem tidy_open {p : Path} {mode : Disk.OpenMode} {k : Option Path → StoreProg α}
    (hnone : Tidy descriptors none (k none)) (hsome : ∀ fd, Tidy descriptors (some fd) (k (some fd))) :
    Tidy descriptors none (.call (.internalOpen p mode) k) := by
  refine ⟨fun _ hx => (by cases hx), fun _ hx => (by cases hx), fun r => ⟨fun _ _ => rfl, ?_⟩⟩
  cases r with
  | none => exact hnone
  | some fd => exact hsome fd

theorem putFinish_tidy (id : ChunkId) (data : Bytes) :
    Tidy descriptors none (putFinish id data) := by
  refine tidy_open ?_ fun fd => ?_
  · refine tidy_plain rfl fun _ => tidy_plain rfl fun _ => ?_
    rfl
  · refine tidy_use rfl fun _ => ?_
    refine tidy_plain rfl fun _ => tidy_plain rfl fun _ => ?_
    exact tidy_close rfl

theorem putAbandon_tidy (fd : Path) (message : String) :
    Tidy descriptors (some fd) (putAbandon fd message) :=
  tidy_plain rfl fun _ => tidy_close rfl

theorem putRename_tidy (id : ChunkId) (data : Bytes) (tmpPath : Path) :
    Tidy descriptors none (putRename id data tmpPath) := by
  refine tidy_plain rfl fun ec => ?_
  cases ec with
  | none => exact putFinish_tidy id data
  | some message => exact tidy_plain rfl fun _ => rfl

theorem putFsync_tidy (id : ChunkId) (data : Bytes) (fd : Path) :
    Tidy descriptors (some fd) (putFsync id data fd) := by
  refine tidy_use rfl fun synced => ?_
  cases synced with
  | true => exact tidy_close (putRename_tidy id data fd)
  | false => exact putAbandon_tidy fd _

theorem putNew_tidy (id : ChunkId) (data : Bytes) (uuid : UuidV4) :
    Tidy descriptors none (putNew id data uuid) := by
  refine tidy_plain rfl fun ec => ?_
  cases ec with
  | some message => rfl
  | none =>
    refine tidy_open rfl fun fd => ?_
    show Tidy descriptors (some fd) (putWrite id data fd)
    unfold putWrite
    split
    · exact putFsync_tidy id data fd
    · refine tidy_use rfl fun written => ?_
      show Tidy descriptors (some fd) (if written = some data.length then _ else _)
      split
      · exact putFsync_tidy id data fd
      · exact putAbandon_tidy fd _

theorem existsChunk_tidy (id : ChunkId) : Tidy descriptors none (existsChunk id) := by
  refine Tidy.guarded ?_ _
  exact tidy_plain rfl fun _ => rfl

theorem getLocked_tidy (sha256 : Bytes → Digest) (id : ChunkId) :
    Tidy descriptors none (getLocked sha256 id) := by
  refine tidy_plain rfl fun size => ?_
  cases size with
  | error message => rfl
  | ok fileSize =>
    refine tidy_open rfl fun fd => ?_
    show Tidy descriptors (some fd) (getRead sha256 id fileSize fd)
    unfold getRead
    split
    · exact tidy_close rfl
    · exact tidy_use rfl fun _ => tidy_close rfl

theorem deleteLocked_tidy (id : ChunkId) : Tidy descriptors none (deleteLocked id) := by
  refine tidy_plain rfl fun size => ?_
  cases size with
  | error message => rfl
  | ok sizeBefore =>
    refine tidy_plain rfl fun answer => ?_
    obtain ⟨removed, ec⟩ := answer
    show Tidy descriptors none (if (!removed || ec.isSome) = true then _ else _)
    split
    · rfl
    · exact tidy_plain rfl fun _ => tidy_plain rfl fun _ => rfl

/-- Every operation of the store is tidy. -/
theorem prog_tidy (sha256 : Bytes → Digest) (uuid : UuidV4) (o : StoreOp) :
    Tidy descriptors none (o.prog sha256 uuid) := by
  cases o with
  | put id data =>
    show Tidy descriptors none (put sha256 id data uuid)
    unfold put
    split
    · rfl
    · refine Tidy.guarded ((existsChunk_tidy id).bind fun found => ?_) _
      cases found with
      | true => rfl
      | false => exact putNew_tidy id data uuid
  | get id => exact Tidy.guarded (getLocked_tidy sha256 id) _
  | verifyOnly id => exact (Tidy.guarded (getLocked_tidy sha256 id) _).bind fun _ => rfl
  | delete id => exact Tidy.guarded (deleteLocked_tidy id) _
  | existsChunk id => exact existsChunk_tidy id
  | getStats =>
    refine tidy_plain rfl fun _ => tidy_plain rfl fun _ => ?_
    exact tidy_plain rfl fun _ => rfl
  | listAllChunkIds =>
    refine tidy_plain rfl fun probe => ?_
    obtain ⟨found, ec⟩ := probe
    cases ec with
    | some message => rfl
    | none =>
      cases found with
      | false => rfl
      | true =>
        refine tidy_plain rfl fun entries => ?_
        cases entries with
        | error message => rfl
        | ok entries => rfl
  | construct =>
    refine tidy_plain rfl fun probe => ?_
    obtain ⟨found, ec⟩ := probe
    have hcounters : ∀ count bytes, Tidy descriptors none
        (storeCounters count bytes >>= fun _ => (return .ok () : StoreProg (Except String Unit))) :=
      fun _ _ => tidy_plain rfl fun _ => tidy_plain rfl fun _ => rfl
    cases ec with
    | some message => rfl
    | none =>
      cases found with
      | true =>
        refine tidy_plain rfl fun entries => ?_
        cases entries with
        | error message => rfl
        | ok entries => exact hcounters _ _
      | false =>
        refine tidy_plain rfl fun ec => ?_
        cases ec with
        | some message => rfl
        | none => exact hcounters _ _

end Tidy

/-! ## Every run -/

/-- **No descriptor is leaked, used after it was closed, or closed twice.** Threads call
any operations of the store, with either kind of lock and any faults of the file
system. Each of their runs is also one with a ledger of descriptors beside the store,
and in every state of those no descriptor was used or closed that was not open, there
are at most as many open as operations are running, and none when all have returned. -/
theorem descriptors_accounted {T : Type} [Fintype T] [DecidableEq T] (sha256 : Bytes → Digest)
    (pol : Policy) (allowed : StoreOp → Prop) (reentrant : Bool) (s : Store) :
    (∀ c : StoreConfig T, Reachable (storeSystem sha256 pol allowed reentrant) s c →
      ∃ l, Reachable ((storeSystem sha256 pol allowed reentrant).tracked descriptors)
        (s, Ledger.empty) (c.over (c.state, l))) ∧
    ∀ c : Config T (Fin 256) Call Call.Ret (Store × Ledger Path) StoreOp StoreOp.Ret,
      Reachable ((storeSystem sha256 pol allowed reentrant).tracked descriptors)
        (s, Ledger.empty) c →
      c.state.2.misused = false ∧
      c.state.2.opened.card ≤ (Finset.univ.filter fun t => (c.thread t).isSome).card ∧
      ((∀ t, c.thread t = none) → c.state.2.opened = 0) := by
  refine ⟨fun c h => h.tracked descriptors, fun c h => h.handles fun o p hp => ?_⟩
  obtain ⟨_, uuid, rfl⟩ := hp
  exact prog_tidy sha256 uuid o

end NimbusFs.StorageNode
