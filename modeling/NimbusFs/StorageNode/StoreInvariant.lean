import NimbusFs.Lib.RelyGuarantee
import NimbusFs.StorageNode.ChunkMap

/-! # Which paths belong to a chunk, and what may be there

Every path the store uses names its chunk: two chunks share directories, never
files. `NodeOk` says what may be found at a path of a store that started on an
empty root; it holds of everything in the tree and of everything a crash may
bring back. From it come the invariant, and the assumption and promise of a
thread: under its lock it alone changes the files of a chunk, and nobody
removes a directory. -/
namespace NimbusFs.StorageNode

open NimbusFs.Common Lib

/-! ## Paths -/

/-- The files of a chunk: those in its shard directory whose name starts with
its 64 digits. -/
def Belongs (id : ChunkId) (p : Path) : Prop := ∃ rest, p = shardDirFor id ++ [id.hex ++ rest]

theorem belongs_finalPathFor (id : ChunkId) : Belongs id (finalPathFor id) := ⟨_, rfl⟩

theorem belongs_tmpPathFor (id : ChunkId) (u : UuidV4) : Belongs id (tmpPathFor id u) :=
  ⟨['.', 't', 'm', 'p', '.'] ++ u.text, by simp [tmpPathFor]⟩

theorem Belongs.length {id : ChunkId} {p : Path} (h : Belongs id p) : p.length = 3 := by
  obtain ⟨rest, rfl⟩ := h
  rfl

theorem Belongs.unique {id id' : ChunkId} {p : Path} (h : Belongs id p) (h' : Belongs id' p) :
    id = id' := by
  obtain ⟨rest, rfl⟩ := h
  obtain ⟨rest', heq⟩ := h'
  have hname : id.hex ++ rest = id'.hex ++ rest' := by
    have := congrArg List.getLast? heq
    simpa using this
  exact ChunkId.ext_hex (List.append_inj_left hname (by rw [id.hex_length, id'.hex_length]))

theorem finalPathFor_injective {id id' : ChunkId} (h : finalPathFor id = finalPathFor id') :
    id = id' :=
  (belongs_finalPathFor id).unique (h ▸ belongs_finalPathFor id')

theorem finalPathFor_ne_tmpPathFor (id id' : ChunkId) (u : UuidV4) :
    finalPathFor id ≠ tmpPathFor id' u := by
  intro h
  obtain rfl : id = id' := (belongs_finalPathFor id).unique (h ▸ belongs_tmpPathFor id' u)
  simp [finalPathFor, tmpPathFor, chunkExtension] at h

theorem shardDirFor_length (id : ChunkId) : (shardDirFor id).length = 2 := rfl

@[simp] theorem finalPathFor_dropLast (id : ChunkId) : (finalPathFor id).dropLast = shardDirFor id := by
  simp [finalPathFor]

@[simp] theorem tmpPathFor_dropLast (id : ChunkId) (u : UuidV4) :
    (tmpPathFor id u).dropLast = shardDirFor id := by
  simp [tmpPathFor]

/-! ## The invariant -/

section Invariant

variable (sha256 : Bytes → Digest)

/-- What may be at a path: a directory at the upper two levels, a synced file
with the right hash at the final path of a chunk, or a temporary file. -/
def NodeOk (p : Path) (n : Node) : Prop :=
  (p.length ≤ 2 ∧ n = .dir) ∨
  (∃ id b, p = finalPathFor id ∧ n = .file b false ∧ sha256 b = id.digest) ∨
  ∃ id u b dirty, p = tmpPathFor id u ∧ n = .file b dirty

/-- Everything in the tree, and everything a crash may bring back, is in order. -/
def DiskInv (d : Disk) : Prop := ∀ p n, (d.node p = some n ∨ n ∈ d.lost p) → NodeOk sha256 p n

variable {sha256}

theorem NodeOk.final {id : ChunkId} {n : Node} (h : NodeOk sha256 (finalPathFor id) n) :
    ∃ b, n = .file b false ∧ sha256 b = id.digest := by
  rcases h with ⟨hlen, _⟩ | ⟨id', b, hp, hn, hb⟩ | ⟨id', u, _, _, hp, _⟩
  · rw [(belongs_finalPathFor id).length] at hlen; omega
  · obtain rfl := finalPathFor_injective hp
    exact ⟨b, hn, hb⟩
  · exact absurd hp (finalPathFor_ne_tmpPathFor _ _ _)

theorem NodeOk.tmp {id : ChunkId} {u : UuidV4} {n : Node} (h : NodeOk sha256 (tmpPathFor id u) n) :
    ∃ b dirty, n = .file b dirty := by
  rcases h with ⟨hlen, _⟩ | ⟨id', b, hp, _, _⟩ | ⟨_, _, b, dirty, _, hn⟩
  · rw [(belongs_tmpPathFor id u).length] at hlen; omega
  · exact absurd hp.symm (finalPathFor_ne_tmpPathFor _ _ _)
  · exact ⟨b, dirty, hn⟩

theorem NodeOk.upper {p : Path} {n : Node} (h : NodeOk sha256 p n) (hp : p.length ≤ 2) :
    n = .dir := by
  rcases h with ⟨_, hn⟩ | ⟨id, _, rfl, _, _⟩ | ⟨id, u, _, _, rfl, _⟩
  · exact hn
  · rw [(belongs_finalPathFor id).length] at hp; omega
  · rw [(belongs_tmpPathFor id u).length] at hp; omega

theorem nodeOk_tmp (id : ChunkId) (u : UuidV4) (b : Bytes) (dirty : Bool) :
    NodeOk sha256 (tmpPathFor id u) (.file b dirty) :=
  .inr (.inr ⟨id, u, b, dirty, rfl, rfl⟩)

theorem nodeOk_final {id : ChunkId} {b : Bytes} (h : sha256 b = id.digest) :
    NodeOk sha256 (finalPathFor id) (.file b false) :=
  .inr (.inl ⟨id, b, rfl, rfl, h⟩)

/-- The chunks of a store: the files at the final paths. -/
def view (s : Store) : ChunkMap := fun id => s.disk.contents (finalPathFor id)

/-- At a final path there is a synced file with the right hash, or nothing. -/
theorem DiskInv.final {d : Disk} (h : DiskInv sha256 d) (id : ChunkId) :
    d.node (finalPathFor id) = none ∧ d.contents (finalPathFor id) = none ∨
    ∃ b, d.node (finalPathFor id) = some (.file b false) ∧
      d.contents (finalPathFor id) = some b ∧ sha256 b = id.digest := by
  cases hn : d.node (finalPathFor id) with
  | none => exact .inl ⟨rfl, by simp [Disk.contents, hn]⟩
  | some n =>
    obtain ⟨b, rfl, hb⟩ := (h _ _ (.inl hn)).final
    exact .inr ⟨b, rfl, by simp [Disk.contents, hn], hb⟩

/-- The root is no regular file. -/
theorem DiskInv.isFile_root {d : Disk} (h : DiskInv sha256 d) : d.isFile [] = false := by
  cases hroot : d.node [] with
  | none => simp [Disk.isFile, hroot]
  | some n => simp [Disk.isFile, hroot, (h [] n (.inl hroot)).upper (Nat.zero_le 2)]

/-- At a temporary path there is no directory. -/
theorem DiskInv.tmp_ne_dir {d : Disk} (h : DiskInv sha256 d) (id : ChunkId) (u : UuidV4) :
    d.node (tmpPathFor id u) ≠ some .dir := by
  intro hn
  obtain ⟨_, _, hfile⟩ := (h _ _ (.inl hn)).tmp
  cases hfile

theorem DiskInv.hash {d : Disk} (h : DiskInv sha256 d) {id : ChunkId} {b : Bytes}
    (hb : d.contents (finalPathFor id) = some b) : sha256 b = id.digest := by
  rcases h.final id with ⟨_, hn⟩ | ⟨b', _, hb', hh⟩
  · rw [hn] at hb; cases hb
  · rw [hb'] at hb; cases hb; exact hh

/-- A crash leaves the invariant. -/
theorem DiskInv.crash {d d' : Disk} (h : DiskInv sha256 d) (hc : Crash d d') :
    DiskInv sha256 d' := by
  intro p n' hn'
  have hn' : d'.node p = some n' := by simpa [(hc.settled p).2] using hn'
  obtain ⟨n, hn, hs⟩ := hc.found p n' hn'
  rcases h p n hn with ⟨hlen, rfl⟩ | ⟨id, b, rfl, rfl, hb⟩ | ⟨id, u, b, dirty, rfl, rfl⟩
  · exact .inl ⟨hlen, hs⟩
  · obtain ⟨b', rfl, hb'⟩ := hs
    rw [hb' rfl]
    exact nodeOk_final hb
  · obtain ⟨b', rfl, _⟩ := hs
    exact nodeOk_tmp id u b' false

theorem Disk.IsEmpty.inv {d : Disk} (h : d.IsEmpty) : DiskInv sha256 d := by
  intro p n hn
  rcases hn with hn | hn
  · obtain ⟨rfl, rfl⟩ := h.node p n hn
    exact .inl ⟨by simp, rfl⟩
  · simp [h.lost p] at hn

theorem Disk.IsEmpty.view {s : Store} (h : s.disk.IsEmpty) : view s = fun _ => none := by
  funext id
  cases hn : s.disk.node (finalPathFor id) with
  | none => simp [StorageNode.view, Disk.contents, hn]
  | some n => cases (h.node _ _ hn).1

/-! ## Steps that leave the chunks alone -/

/-- `d'` differs from `d` in the files of `own`, in new directories, and in what
is known of durability. -/
structure Quiet (own : Path → Prop) (d d' : Disk) : Prop where
  node : ∀ p, d'.node p = d.node p ∨
    (d.node p = none ∧ p.length ≤ 2 ∧ d'.node p = some .dir) ∨
    (own p ∧ d.node p ≠ some .dir ∧ d'.node p ≠ some .dir)
  lost : ∀ p n, n ∈ d'.lost p → n ∈ d.lost p ∨ (own p ∧ n ≠ .dir)

theorem Quiet.refl (own : Path → Prop) (d : Disk) : Quiet own d d :=
  ⟨fun _ => .inl rfl, fun _ _ h => .inl h⟩

/-- The temporary files of a chunk. -/
def IsTmp (id : ChunkId) (p : Path) : Prop := ∃ u, p = tmpPathFor id u

theorem IsTmp.nodeOk {id : ChunkId} {p : Path} (h : IsTmp id p) {n : Node} (hn : n ≠ .dir) :
    NodeOk sha256 p n := by
  obtain ⟨u, rfl⟩ := h
  cases n with
  | dir => exact absurd rfl hn
  | file b dirty => exact nodeOk_tmp id u b dirty

theorem Quiet.inv {id : ChunkId} {d d' : Disk} (hq : Quiet (IsTmp id) d d')
    (h : DiskInv sha256 d) : DiskInv sha256 d' := by
  intro p n hn
  rcases hn with hn | hn
  · rcases hq.node p with heq | ⟨_, hlen, hd⟩ | ⟨hown, _, hd⟩
    · exact h p n (.inl (heq ▸ hn))
    · rw [hd] at hn; cases hn
      exact .inl ⟨hlen, rfl⟩
    · exact hown.nodeOk fun hdir => hd (hdir ▸ hn)
  · rcases hq.lost p n hn with hn | ⟨hown, hd⟩
    · exact h p n (.inr hn)
    · exact hown.nodeOk hd

theorem Quiet.node_final {id : ChunkId} {d d' : Disk} (hq : Quiet (IsTmp id) d d')
    (id' : ChunkId) : d'.node (finalPathFor id') = d.node (finalPathFor id') := by
  rcases hq.node (finalPathFor id') with heq | ⟨_, hlen, _⟩ | ⟨⟨u, hu⟩, _⟩
  · exact heq
  · rw [(belongs_finalPathFor id').length] at hlen; omega
  · exact absurd hu (finalPathFor_ne_tmpPathFor _ _ _)

theorem Quiet.view {id : ChunkId} {s s' : Store} (hq : Quiet (IsTmp id) s.disk s'.disk) :
    view s' = view s := by
  funext id'
  simp only [StorageNode.view, Disk.contents, hq.node_final id']

/-! ## What a thread assumes and promises -/

/-- No directory goes away. -/
def DirsStay (d d' : Disk) : Prop := ∀ p, d.node p = some .dir → d'.node p = some .dir

/-- With the locks `held`: no directory goes away, and the files of the chunks
whose lock is held stay as they are. -/
def Rely (held : Fin 256 → Nat) (s s' : Store) : Prop :=
  DirsStay s.disk s'.disk ∧ ∀ id p, held (lockFor id) ≠ 0 → Belongs id p →
    s'.disk.node p = s.disk.node p

/-- With the locks `held`: no directory goes away, and of the files only those
of the chunks whose lock is held change. -/
def Guar (held : Fin 256 → Nat) (s s' : Store) : Prop :=
  DirsStay s.disk s'.disk ∧ ∀ p, s'.disk.node p = s.disk.node p ∨ p.length ≤ 2 ∨
    ∃ id, held (lockFor id) ≠ 0 ∧ Belongs id p

variable (sha256) in
/-- The striped locks protect the files of the chunks. -/
def storeProtocol : RelyGuarantee (Fin 256) Store where
  inv s := DiskInv sha256 s.disk
  rely := Rely
  guar := Guar
  rely_refl _ _ := ⟨fun _ h => h, fun _ _ _ _ => rfl⟩
  rely_trans h₁ h₂ := ⟨fun p h => h₂.1 p (h₁.1 p h),
    fun id p hh hb => (h₂.2 id p hh hb).trans (h₁.2 id p hh hb)⟩
  compat := by
    intro h h' s t hdisj _ hg
    refine ⟨hg.1, fun id p hh hb => ?_⟩
    rcases hg.2 p with heq | hlen | ⟨id', hh', hb'⟩
    · exact heq
    · rw [hb.length] at hlen; omega
    · -- both locks are those of one id, and two threads hold no lock in common
      obtain rfl := hb.unique hb'
      rcases hdisj (lockFor id) with h₀ | h₀
      · exact absurd h₀ hh'
      · exact absurd h₀ hh

theorem Quiet.guar {id : ChunkId} {s s' : Store} (hq : Quiet (IsTmp id) s.disk s'.disk)
    {held : Fin 256 → Nat} (hheld : held (lockFor id) ≠ 0) : Guar held s s' := by
  refine ⟨fun p hp => ?_, fun p => ?_⟩
  · rcases hq.node p with heq | ⟨hnone, _⟩ | ⟨_, hd, _⟩
    · rw [heq]; exact hp
    · rw [hnone] at hp; cases hp
    · exact absurd hp hd
  · rcases hq.node p with heq | ⟨_, hlen, _⟩ | ⟨⟨u, rfl⟩, _, _⟩
    · exact .inl heq
    · exact .inr (.inl hlen)
    · exact .inr (.inr ⟨id, hheld, belongs_tmpPathFor id u⟩)

end Invariant

end NimbusFs.StorageNode
