import NimbusFs.StorageNode.AnyDisk
import NimbusFs.StorageNode.StoreSim

/-! # What survives a crash

The bytes of a chunk survive once its file was synced, its entry once the
directory that holds it was. `Put` syncs the file and then the shard directory,
but neither of the two directories above, where it may just have made the
entry of the shard. So an acknowledged chunk survives every crash exactly when
its shard directory was there, and durable, before. -/
namespace NimbusFs.StorageNode

open NimbusFs.Common Lib

/-! ## The calls of an update, and what they leave alone -/

section Frame

/-- The calls that `Put` and `Delete` make. -/
inductive TouchesChunk (id : ChunkId) : Call → Prop
  | existsPath : TouchesChunk id (.existsPath (finalPathFor id))
  | fileSize : TouchesChunk id (.fileSize (finalPathFor id))
  | createDirectories : TouchesChunk id (.createDirectories (shardDirFor id))
  | openTmp (u : UuidV4) : TouchesChunk id (.internalOpen (tmpPathFor id u) .writeCreateTruncate)
  | writeTmp (u : UuidV4) (data : Bytes) : TouchesChunk id (.write (tmpPathFor id u) data)
  | fsyncTmp (u : UuidV4) : TouchesChunk id (.internalFsync (tmpPathFor id u))
  | renameTmp (u : UuidV4) : TouchesChunk id (.rename (tmpPathFor id u) (finalPathFor id))
  | removeTmp (u : UuidV4) : TouchesChunk id (.remove (tmpPathFor id u))
  | removeFinal : TouchesChunk id (.remove (finalPathFor id))
  | openDir : TouchesChunk id (.internalOpen (shardDirFor id) .directory)
  | fsyncDir : TouchesChunk id (.internalFsync (shardDirFor id))
  | close (fd : Path) : TouchesChunk id (.close fd)
  | fetchAdd (c : Counter) (n : Nat) : TouchesChunk id (.fetchAdd c n)
  | fetchSub (c : Counter) (n : Nat) : TouchesChunk id (.fetchSub c n)

/-- Of the upper two levels, a directory stays as it is, or is made and not synced. -/
def UpperFrame (d d' : Disk) : Prop :=
  ∀ q, q.length ≤ 2 → (d'.node q = d.node q ∧ d'.durable q = d.durable q) ∨
    (d.node q = none ∧ d'.node q = some .dir ∧ d'.durable q = false)

/-- What an update of `id` leaves alone: the directories, and the files of other
chunks, which also stay durable. -/
structure Frame (id : ChunkId) (d d' : Disk) : Prop where
  upper : UpperFrame d d'
  others : ∀ id', id' ≠ id → d'.node (finalPathFor id') = d.node (finalPathFor id') ∧
    (d.durable (finalPathFor id') = true → d'.durable (finalPathFor id') = true)

variable {sha256 : Bytes → Digest} {id : ChunkId} {d d' d'' : Disk}

theorem UpperFrame.refl (d : Disk) : UpperFrame d d := fun _ _ => .inl ⟨rfl, rfl⟩

theorem UpperFrame.trans (h : UpperFrame d d') (h' : UpperFrame d' d'') : UpperFrame d d'' := by
  intro q hq
  rcases h q hq with ⟨hn, hd⟩ | ⟨hn, hdir, hd⟩
  · rcases h' q hq with ⟨hn', hd'⟩ | ⟨hn', hdir', hd'⟩
    · exact .inl ⟨hn'.trans hn, hd'.trans hd⟩
    · exact .inr ⟨hn ▸ hn', hdir', hd'⟩
  · rcases h' q hq with ⟨hn', hd'⟩ | ⟨hn', _⟩
    · exact .inr ⟨hn, hn'.trans hdir, hd'.trans hd⟩
    · rw [hdir] at hn'; cases hn'

theorem Frame.refl (id : ChunkId) (d : Disk) : Frame id d d :=
  ⟨UpperFrame.refl d, fun _ _ => ⟨rfl, fun h => h⟩⟩

theorem Frame.trans (h : Frame id d d') (h' : Frame id d' d'') : Frame id d d'' := by
  refine ⟨h.upper.trans h'.upper, fun id' hne => ?_⟩
  obtain ⟨hn, hd⟩ := h.others id' hne
  obtain ⟨hn', hd'⟩ := h'.others id' hne
  exact ⟨hn'.trans hn, fun hdur => hd' (hd hdur)⟩

/-- A step that changes nothing but the files of `id`. -/
theorem Frame.of_belongs
    (h : ∀ p, ¬ Belongs id p → d'.node p = d.node p ∧ d'.durable p = d.durable p) :
    Frame id d d' := by
  refine ⟨fun q hq => .inl (h q fun hb => ?_), fun id' hne => ?_⟩
  · rw [hb.length] at hq; omega
  · obtain ⟨hn, hd⟩ := h _ fun hb => hne ((belongs_finalPathFor id').unique hb)
    exact ⟨hn, fun hdur => hd.trans hdur⟩

theorem frame_setNode {p : Path} (hp : Belongs id p) (n : Node) : Frame id d (d.setNode p n) :=
  Frame.of_belongs fun q hq => by
    have hne : q ≠ p := fun h => hq (h ▸ hp)
    exact ⟨by simp [hne], rfl⟩

theorem frame_addEntry {p : Path} (hp : Belongs id p) (n : Node) : Frame id d (d.addEntry p n) :=
  Frame.of_belongs fun q hq => by
    have hne : q ≠ p := fun h => hq (h ▸ hp)
    exact ⟨by simp [hne], by simp [Disk.durable_addEntry, hne]⟩

theorem frame_removeEntry {p : Path} (hp : Belongs id p) : Frame id d (d.removeEntry p) :=
  Frame.of_belongs fun q hq => by
    have hne : q ≠ p := fun h => hq (h ▸ hp)
    exact ⟨by simp [hne], rfl⟩

theorem frame_remove {p : Path} (hp : Belongs id p) : Frame id d (d.remove p .ok).2 := by
  unfold Disk.remove
  split
  · split
    · exact Frame.refl id d
    · exact frame_removeEntry hp
    · split
      · exact Frame.refl id d
      · exact frame_removeEntry hp
  · exact Frame.refl id d
  · exact Frame.refl id d

theorem frame_createDirectories (id : ChunkId) :
    Frame id d (d.createDirectories (shardDirFor id) .ok).2 := by
  simp only [Disk.createDirectories]
  split
  · exact Frame.refl id d
  · have hlong : ∀ id', finalPathFor id' ∉ (shardDirFor id).inits := fun id' hmem => by
      have := inits_length_le hmem
      rw [(belongs_finalPathFor id').length, shardDirFor_length] at this
      omega
    refine ⟨fun q _ => ?_, fun id' _ => ?_⟩
    · rw [Disk.node_mkdirs, Disk.durable_mkdirs]
      by_cases h : q ∈ (shardDirFor id).inits ∧ d.node q = none
      · simp [h]
      · simp only [if_neg h, and_self, true_or]
    · simp [Disk.node_mkdirs, Disk.durable_mkdirs, hlong id']

theorem frame_internalFsync_dir (hinv : DiskInv sha256 d) (id : ChunkId) :
    Frame id d (d.internalFsync (shardDirFor id) .ok).2 := by
  simp only [Disk.internalFsync]
  split
  · rename_i b dirty hn
    cases (hinv _ _ (.inl hn)).upper (shardDirFor_length id).le
  · refine ⟨fun q hq => .inl ⟨rfl, ?_⟩, fun id' _ => ⟨rfl, fun hd => by simp [hd]⟩⟩
    -- what it makes durable lies one level below
    have hne : ¬ (q ≠ [] ∧ q.dropLast = shardDirFor id) := by
      intro h
      have := congrArg List.length h.2
      rw [List.length_dropLast, shardDirFor_length] at this
      omega
    simp only [not_and] at hne
    by_cases hq0 : q = []
    · simp [hq0]
    · simp [hq0, hne hq0]
  · exact Frame.refl id d

theorem TouchesChunk.frame {c : Call} (hc : TouchesChunk id c) {s : Store}
    (hinv : DiskInv sha256 s.disk) : Frame id s.disk (c.exec .ok s).2.disk := by
  cases hc with
  | existsPath => exact Frame.refl id _
  | fileSize => exact Frame.refl id _
  | createDirectories => exact frame_createDirectories id
  | openTmp u =>
    simp only [Call.exec, Store.withDisk, Disk.internalOpen]
    split
    · exact frame_setNode (belongs_tmpPathFor id u) _
    · exact Frame.refl id _
    · split
      · exact frame_addEntry (belongs_tmpPathFor id u) _
      · exact Frame.refl id _
  | writeTmp u data =>
    simp only [Call.exec, Store.withDisk, Disk.write, Disk.write.append]
    split
    · exact frame_setNode (belongs_tmpPathFor id u) _
    · exact Frame.refl id _
  | fsyncTmp u =>
    simp only [Call.exec, Store.withDisk, Disk.internalFsync]
    split
    · exact frame_setNode (belongs_tmpPathFor id u) _
    · rename_i hn
      exact absurd hn (hinv.tmp_ne_dir id u)
    · exact Frame.refl id _
  | renameTmp u =>
    simp only [Call.exec, Store.withDisk, Disk.rename]
    split
    · split
      · exact Frame.refl id _
      · split
        · exact Frame.refl id _
        · exact ((frame_removeEntry (belongs_tmpPathFor id u)).trans
            (frame_removeEntry (belongs_finalPathFor id))).trans
            (frame_addEntry (belongs_finalPathFor id) _)
    · exact Frame.refl id _
    · exact Frame.refl id _
  | removeTmp u => exact frame_remove (belongs_tmpPathFor id u)
  | removeFinal => exact frame_remove (belongs_finalPathFor id)
  | openDir => exact Frame.refl id _
  | fsyncDir => exact frame_internalFsync_dir hinv id
  | close fd => exact Frame.refl id _
  | fetchAdd c n => exact Frame.refl id _
  | fetchSub c n => exact Frame.refl id _

/-! ## `Put` and `Delete` make only these calls -/

theorem putFinish_uses (id : ChunkId) (data : Bytes) :
    (putFinish id data).Uses Call.Answers (TouchesChunk id) := by
  refine ⟨.openDir, fun fd hfd => ?_⟩
  cases fd with
  | none => exact ⟨.fetchAdd _ _, fun _ _ => ⟨.fetchAdd _ _, fun _ _ => trivial⟩⟩
  | some fd =>
    obtain ⟨oc, s, hfd⟩ := hfd
    obtain ⟨rfl, _⟩ := internalOpen_directory hfd.symm
    exact ⟨.fsyncDir, fun _ _ => ⟨.fetchAdd _ _, fun _ _ => ⟨.fetchAdd _ _, fun _ _ =>
      ⟨.close _, fun _ _ => trivial⟩⟩⟩⟩

theorem putAbandon_uses (id : ChunkId) (u : UuidV4) (m : String) :
    (putAbandon (tmpPathFor id u) m).Uses Call.Answers (TouchesChunk id) :=
  ⟨.removeTmp u, fun _ _ => ⟨.close _, fun _ _ => trivial⟩⟩

theorem putRename_uses (id : ChunkId) (data : Bytes) (u : UuidV4) :
    (putRename id data (tmpPathFor id u)).Uses Call.Answers (TouchesChunk id) := by
  refine ⟨.renameTmp u, fun ec _ => ?_⟩
  cases ec with
  | some m => exact ⟨.removeTmp u, fun _ _ => trivial⟩
  | none => exact putFinish_uses id data

theorem putFsync_uses (id : ChunkId) (data : Bytes) (u : UuidV4) :
    (putFsync id data (tmpPathFor id u)).Uses Call.Answers (TouchesChunk id) := by
  refine ⟨.fsyncTmp u, fun synced _ => ?_⟩
  cases synced with
  | true => exact ⟨.close _, fun _ _ => putRename_uses id data u⟩
  | false => exact putAbandon_uses id u _

theorem putWrite_uses (id : ChunkId) (data : Bytes) (u : UuidV4) :
    (putWrite id data (tmpPathFor id u)).Uses Call.Answers (TouchesChunk id) := by
  unfold putWrite
  split
  · exact putFsync_uses id data u
  · rw [Prog.perform_bind]
    refine ⟨.writeTmp u data, fun written _ => ?_⟩
    dsimp only
    split
    · exact putFsync_uses id data u
    · exact putAbandon_uses id u _

theorem putNew_uses (id : ChunkId) (data : Bytes) (u : UuidV4) :
    (putNew id data u).Uses Call.Answers (TouchesChunk id) := by
  refine ⟨.createDirectories, fun ec _ => ?_⟩
  cases ec with
  | some m => trivial
  | none =>
    refine ⟨.openTmp u, fun fd hfd => ?_⟩
    cases fd with
    | none => trivial
    | some fd =>
      obtain ⟨oc, s, hfd⟩ := hfd
      obtain ⟨rfl, _⟩ := internalOpen_created hfd.symm
      exact putWrite_uses id data u

theorem put_uses (sha256 : Bytes → Digest) (id : ChunkId) (data : Bytes) (u : UuidV4) :
    (put sha256 id data u).Uses Call.Answers (TouchesChunk id) := by
  unfold put
  split
  · trivial
  · refine Prog.Uses.bind (p := putLocked id data u) ?_ fun _ => trivial
    refine Prog.Uses.bind (p := existsChunk id) ⟨.existsPath, fun _ _ => trivial⟩ fun found => ?_
    cases found with
    | true => trivial
    | false => exact putNew_uses id data u

theorem delete_uses (id : ChunkId) : (delete id).Uses Call.Answers (TouchesChunk id) := by
  refine Prog.Uses.bind (p := deleteLocked id) ⟨.fileSize, fun size _ => ?_⟩ fun _ => trivial
  cases size with
  | error m => trivial
  | ok n =>
    refine ⟨.removeFinal, fun r _ => ?_⟩
    obtain ⟨removed, ec⟩ := r
    show Prog.Uses _ _ (if (!removed || ec.isSome) = true then _ else _)
    split
    · trivial
    · exact ⟨.fetchSub _ _, fun _ _ => ⟨.fetchSub _ _, fun _ _ => trivial⟩⟩

/-- All along a `Put` or `Delete` of `id`: the invariant, and what is left alone. -/
theorem update_reaches {o : StoreOp} {u : UuidV4} {s t : Store}
    (huses : (o.prog sha256 u).Uses Call.Answers (TouchesChunk id)) (hinv : DiskInv sha256 s.disk)
    (h : (o.prog sha256 u).Reaches Policy.noFault.sem s t) :
    DiskInv sha256 t.disk ∧ Frame id s.disk t.disk := by
  have hcall : ∀ c, TouchesChunk id c → ∀ s r t, (storeProtocol sha256).inv s →
      Policy.noFault.sem c s r t → Frame id s.disk t.disk := by
    intro c hc s r t hi hs
    have hframe := hc.frame hi
    rw [(noFault_sem_iff c s r t).mp hs] at hframe
    exact hframe
  refine Sim.reaches Policy.sem.answers ?_ ?_ hcall huses (prog_linSim sha256 .noFault u o s hinv)
    hinv h
  · exact fun s => Frame.refl id s.disk
  · exact fun h₁ h₂ => h₁.trans h₂

/-! ## An acknowledged `Put` has synced the shard directory -/

theorem putFinish_durable {data : Bytes} {r : Result Unit} {s t : Store}
    (hdir : s.disk.node (shardDirFor id) = some .dir)
    (h : (putFinish id data).Runs Policy.noFault.sem s r t) :
    t.disk.durable (finalPathFor id) = true := by
  have hrun := runs_noFault_iff.mp h
  simp only [putFinish, execute, sys, Prog.perform_bind, Prog.run_call, Call.exec, Store.withDisk,
    Disk.internalOpen, hdir, if_true, Disk.internalFsync, Prog.pure_eq, Prog.run_ret,
    Prod.mk.injEq] at hrun
  rw [← hrun.2]
  simp [Store.setCounter, finalPathFor]

theorem putRename_durable {data : Bytes} {tmp : Path} {s t : Store}
    (htmp : tmp ≠ shardDirFor id) (h : (putRename id data tmp).Runs Policy.noFault.sem s (.ok ()) t) :
    t.disk.durable (finalPathFor id) = true := by
  obtain ⟨ec, s₁, hren, h⟩ := h
  have hren := (noFault_sem_iff _ _ _ _).mp hren
  cases ec with
  | some m => obtain ⟨_, _, _, hr, _⟩ := h; cases hr
  | none =>
    refine putFinish_durable ?_ h
    have hfinal : finalPathFor id ≠ shardDirFor id := fun heq => by
      have := congrArg List.length heq
      rw [(belongs_finalPathFor id).length, shardDirFor_length] at this
      omega
    simp only [Call.exec, Store.withDisk, Disk.rename, finalPathFor_dropLast] at hren
    split at hren
    · split at hren
      · cases hren
      · split at hren
        · cases hren
        · rename_i hdir
          cases hren
          simpa [htmp.symm, hfinal.symm] using hdir
    · cases hren
    · cases hren

theorem putNew_durable {data : Bytes} {u : UuidV4} {s t : Store}
    (h : (putNew id data u).Runs Policy.noFault.sem s (.ok ()) t) :
    t.disk.durable (finalPathFor id) = true := by
  have htmp : tmpPathFor id u ≠ shardDirFor id := fun heq => by
    have := congrArg List.length heq
    rw [(belongs_tmpPathFor id u).length, shardDirFor_length] at this
    omega
  have hsync : ∀ s, (putFsync id data (tmpPathFor id u)).Runs Policy.noFault.sem s (.ok ()) t →
      t.disk.durable (finalPathFor id) = true := by
    intro s h
    obtain ⟨synced, s₁, _, h⟩ := h
    cases synced with
    | true =>
      obtain ⟨_, s₂, _, h⟩ := h
      exact putRename_durable htmp h
    | false => exact absurd h not_runs_putAbandon
  obtain ⟨_, _, _, _, _, h⟩ := runs_putNew_opened h
  unfold putWrite at h
  split at h
  · exact hsync _ h
  · rw [Prog.perform_bind] at h
    obtain ⟨written, s₃, _, h⟩ := h
    dsimp only at h
    split at h
    · exact hsync _ h
    · exact absurd h not_runs_putAbandon

theorem put_durable {data : Bytes} {u : UuidV4} {s t : Store}
    (hbefore : s.disk.node (finalPathFor id) ≠ none → s.disk.durable (finalPathFor id) = true)
    (h : (put sha256 id data u).Runs Policy.noFault.sem s (.ok ()) t) :
    t.disk.durable (finalPathFor id) = true := by
  obtain ⟨_, ⟨hfound, rfl⟩ | ⟨_, hnew⟩⟩ := runs_put_cases h
  · exact hbefore hfound
  · exact putNew_durable hnew

/-- A `Put` of a chunk that is there does nothing to the disk at any moment. -/
theorem put_reaches_found {data : Bytes} {u : UuidV4} {s t : Store}
    (hsome : s.disk.node (finalPathFor id) ≠ none)
    (h : (put sha256 id data u).Reaches Policy.noFault.sem s t) : t = s := by
  unfold put at h
  split at h
  · exact h
  · rcases h with rfl | ⟨r, s₁, hprobe, h⟩
    · rfl
    · have hprobe := (noFault_sem_iff _ _ _ _).mp hprobe
      simp only [exec_existsPath_ok, Option.isSome_iff_ne_none.mpr hsome] at hprobe
      cases hprobe
      exact h

end Frame

/-! ## Updates one after the other -/

/-- `Put` and `Delete`. -/
def StoreOp.IsUpdate : StoreOp → Prop
  | .put _ _ | .delete _ => True
  | _ => False

section Session

variable (sha256 : Bytes → Digest)

/-- Updates of a store on `s₀`, one after the other, with no fault: those that
returned, with their results, and the store after them. -/
inductive Session (s₀ : Store) : List (Sigma StoreOp.Ret) → Store → Prop
  | start : Session s₀ [] s₀
  | op {done : List (Sigma StoreOp.Ret)} {s t : Store} {o : StoreOp} {uuid : UuidV4} {r : o.Ret} :
      Session s₀ done s → o.IsUpdate → (o.prog sha256 uuid).Runs Policy.noFault.sem s r t →
      Session s₀ (done ++ [⟨o, r⟩]) t

/-- A moment after `s`: at once, or inside the next update. -/
inductive Moment (s : Store) : Option StoreOp → Store → Prop
  | between : Moment s none s
  | inside {o : StoreOp} {uuid : UuidV4} {t : Store} : o.IsUpdate →
      (o.prog sha256 uuid).Reaches Policy.noFault.sem s t → Moment s (some o) t

/-- `Put(id, data)` returned `Ok` and no `Delete` of `id` was called since. -/
def Live (done : List (Sigma StoreOp.Ret)) (next : Option StoreOp) (id : ChunkId) (data : Bytes) :
    Prop :=
  (∃ before after, done = before ++ ⟨.put id data, .ok ()⟩ :: after ∧
    ∀ x ∈ after, x.1 ≠ .delete id) ∧ next ≠ some (.delete id)

/-- A data root that exists and holds directories only, all of them durable. -/
structure Disk.Prepared (d : Disk) : Prop where
  root : d.node [] = some .dir
  node : ∀ p n, d.node p = some n → p.length ≤ 2 ∧ n = .dir
  parent : ∀ p, p ≠ [] → d.node p ≠ none → d.node p.dropLast = some .dir
  durable : ∀ p n, d.node p = some n → d.durable p = true
  lost : ∀ p, d.lost p = []

variable {sha256}

theorem Disk.prepared_empty : Disk.empty.Prepared where
  root := rfl
  node p n h := by
    obtain ⟨rfl, rfl⟩ := Disk.isEmpty_empty.node p n h
    exact ⟨by simp, rfl⟩
  parent p hp h := by simp [Disk.node_empty, hp] at h
  durable _ _ _ := rfl
  lost _ := rfl

theorem Disk.Prepared.inv {d : Disk} (h : d.Prepared) : DiskInv sha256 d := by
  intro p n hn
  rcases hn with hn | hn
  · exact .inl (h.node p n hn)
  · simp [h.lost p] at hn

/-- What one more update does to the acknowledged chunks. -/
theorem live_snoc {done : List (Sigma StoreOp.Ret)} {x : Sigma StoreOp.Ret} {id : ChunkId}
    {data : Bytes} : Live (done ++ [x]) none id data ↔
      x = ⟨.put id data, .ok ()⟩ ∨ (Live done none id data ∧ x.1 ≠ .delete id) := by
  constructor
  · intro hlive
    obtain ⟨⟨before, after, heq, hafter⟩, _⟩ := hlive
    rcases List.eq_nil_or_concat after with rfl | ⟨after', y, rfl⟩
    · exact .inl (List.append_inj_right' heq rfl |> List.singleton_inj.mp)
    · right
      have heq' : done ++ [x] = (before ++ ⟨.put id data, .ok ()⟩ :: after') ++ [y] := by
        simpa using heq
      obtain ⟨rfl, hy⟩ := List.append_inj' heq' rfl
      obtain rfl := List.singleton_inj.mp hy
      refine ⟨⟨⟨before, after', rfl, fun z hz => hafter z (by simp [hz])⟩, by simp⟩, ?_⟩
      exact hafter x (by simp)
  · intro hlive
    rcases hlive with rfl | ⟨⟨⟨before, after, rfl, hafter⟩, _⟩, hx⟩
    · exact ⟨⟨done, [], rfl, by simp⟩, by simp⟩
    · refine ⟨⟨before, after ++ [x], by simp, fun z hz => ?_⟩, by simp⟩
      rcases List.mem_append.mp hz with hz | hz
      · exact hafter z hz
      · rw [List.mem_singleton.mp hz]; exact hx

/-- What holds between two updates of a session. -/
structure SessionInv (sha256 : Bytes → Digest) (s₀ : Store) (done : List (Sigma StoreOp.Ret))
    (s : Store) : Prop where
  inv : DiskInv sha256 s.disk
  upper : UpperFrame s₀.disk s.disk
  synced : ∀ id, s.disk.node (finalPathFor id) ≠ none → s.disk.durable (finalPathFor id) = true
  stored : ∀ id b, view s id = some b → Live done none id b
  kept : ∀ id data, Live done none id data → view s id ≠ none

theorem DiskInv.node_iff {s : Store} (h : DiskInv sha256 s.disk) (id : ChunkId) :
    s.disk.node (finalPathFor id) ≠ none ↔ view s id ≠ none := by
  rcases h.final id with ⟨hn, hc⟩ | ⟨b, hn, hc, _⟩ <;> simp [view, hn, hc]

theorem SessionInv.start {s₀ : Store} (h : s₀.disk.Prepared) : SessionInv sha256 s₀ [] s₀ := by
  have hnone : ∀ id, s₀.disk.node (finalPathFor id) = none := by
    intro id
    cases hn : s₀.disk.node (finalPathFor id) with
    | none => rfl
    | some n =>
      have := (h.node _ _ hn).1
      rw [(belongs_finalPathFor id).length] at this
      omega
  refine ⟨h.inv, UpperFrame.refl _, fun id hn => absurd (hnone id) hn, fun id b hb => ?_,
    fun id data hl => ?_⟩
  · simp [view, Disk.contents, hnone id] at hb
  · obtain ⟨⟨before, after, heq, _⟩, _⟩ := hl
    simp at heq

/-- One more update, given what it does to its own chunk. -/
theorem SessionInv.step {s₀ s t : Store} {done : List (Sigma StoreOp.Ret)} {o : StoreOp}
    {r : o.Ret} {id : ChunkId} (hi : SessionInv sha256 s₀ done s) (hinv : DiskInv sha256 t.disk)
    (hframe : Frame id s.disk t.disk)
    (hother : ∀ id', id' ≠ id → ∀ b, (⟨o, r⟩ : Sigma StoreOp.Ret) ≠ ⟨.put id' b, .ok ()⟩ ∧
      o ≠ .delete id')
    (hsynced : t.disk.node (finalPathFor id) ≠ none → t.disk.durable (finalPathFor id) = true)
    (hstored : ∀ b, view t id = some b → Live (done ++ [⟨o, r⟩]) none id b)
    (hkept : ∀ data, Live (done ++ [⟨o, r⟩]) none id data → view t id ≠ none) :
    SessionInv sha256 s₀ (done ++ [⟨o, r⟩]) t := by
  have hview : ∀ id', id' ≠ id → view t id' = view s id' := fun id' hne => by
    simp only [view, Disk.contents, (hframe.others id' hne).1]
  refine ⟨hinv, hi.upper.trans hframe.upper, fun id' hn => ?_, fun id' b hb => ?_,
    fun id' data hl => ?_⟩
  · by_cases hid : id' = id
    · subst hid; exact hsynced hn
    · obtain ⟨hnode, hdur⟩ := hframe.others id' hid
      exact hdur (hi.synced id' (hnode ▸ hn))
  · by_cases hid : id' = id
    · subst hid; exact hstored b hb
    · rw [hview id' hid] at hb
      exact live_snoc.mpr (.inr ⟨hi.stored id' b hb, (hother id' hid b).2⟩)
  · by_cases hid : id' = id
    · subst hid; exact hkept data hl
    · rw [hview id' hid]
      rcases live_snoc.mp hl with heq | ⟨hl, _⟩
      · exact absurd heq (hother id' hid data).1
      · exact hi.kept id' data hl

theorem SessionInv.put {s₀ s t : Store} {done : List (Sigma StoreOp.Ret)} {id : ChunkId}
    {data : Bytes} {u : UuidV4} {r : Result Unit} (hi : SessionInv sha256 s₀ done s)
    (h : (StorageNode.put sha256 id data u).Runs Policy.noFault.sem s r t) :
    SessionInv sha256 s₀ (done ++ [⟨.put id data, r⟩]) t := by
  obtain ⟨hinv, hframe⟩ := update_reaches (o := .put id data) (put_uses sha256 id data u) hi.inv
    h.reaches
  obtain ⟨_, hspec⟩ := LinSim.runs (put_linSim id data u) hi.inv h
  have hsynced : r = .ok () → t.disk.durable (finalPathFor id) = true := fun hr =>
    put_durable (hi.synced id) (hr ▸ h)
  have hother : ∀ id', id' ≠ id → ∀ b, (⟨.put id data, r⟩ : Sigma StoreOp.Ret) ≠
      ⟨.put id' b, .ok ()⟩ ∧ StoreOp.put id data ≠ .delete id' := fun id' hne b =>
    ⟨fun heq => by cases heq; exact hne rfl, by simp⟩
  rcases hspec.1 with ⟨hsha, rfl, hview⟩ | ⟨_, ⟨rfl, hsome, hview⟩ | ⟨rfl, _, hview⟩ | ⟨hf, _⟩⟩
  · -- the hash check failed, and nothing was done
    have hsame : t = s := by
      rw [StorageNode.put, if_pos hsha] at h
      exact h.2
    refine hi.step hinv hframe hother ?_ (fun b hb => ?_) (fun b hl => ?_)
    · rw [hsame]; exact hi.synced id
    · rw [hview] at hb
      exact live_snoc.mpr (.inr ⟨hi.stored id b hb, by simp⟩)
    · rw [hview]
      rcases live_snoc.mp hl with heq | ⟨hl, _⟩
      · cases heq
      · exact hi.kept id b hl
  · -- it was there already
    refine hi.step hinv hframe hother (fun _ => hsynced rfl) (fun b hb => ?_) (fun b _ => ?_)
    · rw [hview] at hb
      exact live_snoc.mpr (.inr ⟨hi.stored id b hb, by simp⟩)
    · rw [hview]; exact hsome
  · refine hi.step hinv hframe hother (fun _ => hsynced rfl) (fun b hb => ?_) (fun b _ => ?_)
    · rw [hview] at hb
      cases hb
      exact live_snoc.mpr (.inl rfl)
    · rw [hview]; simp
  · cases hf

theorem SessionInv.delete {s₀ s t : Store} {done : List (Sigma StoreOp.Ret)} {id : ChunkId}
    {r : Result Unit} (hi : SessionInv sha256 s₀ done s)
    (h : (StorageNode.delete id).Runs Policy.noFault.sem s r t) :
    SessionInv sha256 s₀ (done ++ [⟨.delete id, r⟩]) t := by
  obtain ⟨hinv, hframe⟩ := update_reaches (o := .delete id) (u := default) (delete_uses id) hi.inv
    h.reaches
  obtain ⟨_, hspec⟩ := LinSim.runs (prog_linSim sha256 .noFault default (.delete id)) hi.inv h
  have hnone : view t id = none := by
    rcases hspec.1 with ⟨_, he⟩ | ⟨hp, _⟩ | ⟨hf, _⟩
    · exact he
    · cases hp
    · cases hf
  refine hi.step hinv hframe (fun id' hne b => ⟨(fun heq => nomatch heq), ?_⟩) ?_ ?_ ?_
  · simpa using hne.symm
  · exact fun hn => absurd hnone ((hinv.node_iff id).mp hn)
  · intro b hb
    rw [hnone] at hb
    cases hb
  · intro data hl
    rcases live_snoc.mp hl with heq | ⟨_, hne⟩
    · cases heq
    · exact absurd rfl hne

theorem Session.inv {s₀ s : Store} {done : List (Sigma StoreOp.Ret)} (hprep : s₀.disk.Prepared)
    (h : Session sha256 s₀ done s) : SessionInv sha256 s₀ done s := by
  induction h with
  | start => exact .start hprep
  | @op done s t o u r _ ho hr ih =>
    cases o with
    | put id data => exact ih.put hr
    | delete id => exact ih.delete hr
    | _ => exact ho.elim

/-- At a moment of the session: the invariant and the directories, and every
live chunk is at its final path, in a durable entry. -/
theorem SessionInv.moment {s₀ s t : Store} {done : List (Sigma StoreOp.Ret)}
    {next : Option StoreOp} (hi : SessionInv sha256 s₀ done s) (h : Moment sha256 s next t) :
    DiskInv sha256 t.disk ∧ UpperFrame s₀.disk t.disk ∧ ∀ id data, Live done next id data →
      ∃ b, Live done next id b ∧ t.disk.node (finalPathFor id) = some (.file b false) ∧
        t.disk.durable (finalPathFor id) = true := by
  have hlive : ∀ id data, Live done next id data → ∃ b, Live done next id b ∧
      s.disk.node (finalPathFor id) = some (.file b false) ∧
      s.disk.durable (finalPathFor id) = true := by
    intro id data hl
    have hsome := (hi.inv.node_iff id).mpr (hi.kept id data ⟨hl.1, by simp⟩)
    rcases hi.inv.final id with ⟨hn, _⟩ | ⟨b, hn, hc, _⟩
    · exact absurd hn hsome
    · exact ⟨b, ⟨(hi.stored id b hc).1, hl.2⟩, hn, hi.synced id hsome⟩
  have hsame : ∀ id data, Live done next id data → ∀ id', Frame id' s.disk t.disk →
      (id = id' → t = s) → ∃ b, Live done next id b ∧
        t.disk.node (finalPathFor id) = some (.file b false) ∧
        t.disk.durable (finalPathFor id) = true := by
    intro id data hl id' hframe hown
    obtain ⟨b, hb, hn, hd⟩ := hlive id data hl
    by_cases hid : id = id'
    · rw [hown hid]; exact ⟨b, hb, hn, hd⟩
    · obtain ⟨hn', hd'⟩ := hframe.others id hid
      exact ⟨b, hb, hn'.trans hn, hd' hd⟩
  cases h with
  | between => exact ⟨hi.inv, hi.upper, hlive⟩
  | @inside o u t ho hr =>
    cases o with
    | put id' data' =>
      obtain ⟨hinv, hframe⟩ := update_reaches (o := .put id' data')
        (put_uses sha256 id' data' u) hi.inv hr
      refine ⟨hinv, hi.upper.trans hframe.upper, fun id data hl => ?_⟩
      refine hsame id data hl id' hframe fun hid => ?_
      subst hid
      obtain ⟨b, _, hn, _⟩ := hlive id data hl
      exact put_reaches_found (by simp [hn]) hr
    | delete id' =>
      obtain ⟨hinv, hframe⟩ := update_reaches (o := .delete id') (u := u) (delete_uses id') hi.inv hr
      refine ⟨hinv, hi.upper.trans hframe.upper, fun id data hl => ?_⟩
      refine hsame id data hl id' hframe fun hid => ?_
      subst hid
      exact absurd rfl hl.2
    | _ => exact ho.elim

end Session

/-! ## The worst crash -/

section WorstCrash

instance (d : Disk) (p : Path) : Decidable (d.Durable p) :=
  decidable_of_iff (∀ q ∈ p.inits, d.durable q = true ∧ d.node q ≠ none) (by
    simp only [Disk.Durable, List.mem_inits])

/-- The tree with the entries that `f` gives the paths of a list. -/
def buildTree (f : Path → Option Node) : List Path → AList (fun _ : Path => Node)
  | [] => ∅
  | p :: rest =>
    match f p with
    | some n => (buildTree f rest).insert p n
    | none => buildTree f rest

theorem lookup_buildTree (f : Path → Option Node) (ps : List Path) (q : Path) :
    (buildTree f ps).lookup q = if q ∈ ps then f q else none := by
  induction ps with
  | nil => simp [buildTree]
  | cons p rest ih =>
    cases hp : f p with
    | some n =>
      simp only [buildTree, hp]
      by_cases hq : q = p
      · subst hq; simp [hp]
      · simp [hq, ih]
    | none =>
      simp only [buildTree, hp, ih]
      by_cases hq : q = p
      · subst hq; simp [hp]
      · simp [hq]

/-- An entry with all its bytes on the disk. -/
def Node.settled : Node → Node
  | .dir => .dir
  | .file b _ => .file b false

/-- What is left when nothing survives but what must. -/
def Disk.keepDurable (d : Disk) : Disk where
  tree := buildTree (fun p => if d.Durable p then (d.node p).map Node.settled else none) d.tree.keys
  durable := fun _ => true
  lost := fun _ => []
  available := d.available

variable {sha256 : Bytes → Digest} {d : Disk}

theorem Disk.node_keepDurable (p : Path) : d.keepDurable.node p =
    if d.Durable p then (d.node p).map Node.settled else none := by
  rw [Disk.node, Disk.keepDurable, lookup_buildTree]
  split
  · rfl
  · rename_i hp
    have hnone : d.node p = none := AList.lookup_eq_none.mpr (fun h => hp (AList.mem_keys.mp h))
    simp [hnone]

theorem crash_keepDurable (hinv : DiskInv sha256 d) : Crash d d.keepDurable where
  found p n' h := by
    rw [Disk.node_keepDurable] at h
    split at h
    · obtain ⟨n, hn, rfl⟩ := Option.map_eq_some_iff.mp h
      refine ⟨n, .inl hn, ?_⟩
      cases n with
      | dir => rfl
      | file b dirty => exact ⟨b, rfl, fun _ => rfl⟩
    · cases h
  kept p n hn hd := by
    refine ⟨n.settled, by rw [Disk.node_keepDurable, if_pos hd, hn]; rfl, ?_⟩
    cases n with
    | dir => rfl
    | file b dirty => exact ⟨b, rfl, fun _ => rfl⟩
  rooted p hp h := by
    rw [Disk.node_keepDurable] at h
    split at h
    · rename_i hd
      have hdrop : p.dropLast <+: p := List.dropLast_prefix p
      have hup : d.Durable p.dropLast := fun q hq => hd q (hq.trans hdrop)
      obtain ⟨n, hn⟩ := Option.ne_none_iff_exists'.mp (hup _ (List.prefix_refl _)).2
      have hlen : p.length ≤ 3 := by
        obtain ⟨m, hm⟩ := Option.ne_none_iff_exists'.mp (hd _ (List.prefix_refl _)).2
        rcases hinv _ _ (.inl hm) with ⟨hl, _⟩ | ⟨id, _, rfl, _⟩ | ⟨id, u, _, _, rfl, _⟩
        · omega
        · exact (belongs_finalPathFor id).length.le
        · exact (belongs_tmpPathFor id u).length.le
      obtain rfl := (hinv _ _ (.inl hn)).upper (by rw [List.length_dropLast]; omega)
      rw [Disk.node_keepDurable, if_pos hup, hn]
      rfl
    · exact absurd rfl h
  settled _ := ⟨rfl, rfl⟩

/-- The directories above a final path. -/
theorem prefixes_finalPathFor {id : ChunkId} {q : Path} (h : q <+: finalPathFor id) :
    q = finalPathFor id ∨ (q.length ≤ 2 ∧ q <+: shardDirFor id) := by
  rcases List.prefix_concat_iff.mp h with heq | hpre
  · exact .inl heq
  · exact .inr ⟨hpre.length_le, hpre⟩

end WorstCrash

section Durable

variable {sha256 : Bytes → Digest} {s₀ s t : Store} {done : List (Sigma StoreOp.Ret)}
variable {next : Option StoreOp}

theorem Disk.Prepared.above {d : Disk} (h : d.Prepared) {p : Path} (hp : d.node p = some .dir) :
    ∀ q, q <+: p → d.node q = some .dir := by
  induction p using List.reverseRecOn with
  | nil => intro q hq; rw [List.prefix_nil.mp hq]; exact hp
  | append_singleton p x ih =>
    intro q hq
    rcases List.prefix_concat_iff.mp hq with rfl | hq
    · exact hp
    · exact ih (by simpa using h.parent (p ++ [x]) (by simp) (by simp [hp])) q hq

/-- A live chunk whose shard directory was not there before is lost in the worst crash. -/
theorem lost_in_worst_crash (hi : SessionInv sha256 s₀ done s) (hm : Moment sha256 s next t)
    {id : ChunkId} (hdir : s₀.disk.node (shardDirFor id) = none) :
    Crash t.disk t.disk.keepDurable ∧
      t.disk.keepDurable.contents (finalPathFor id) = none := by
  obtain ⟨hinv, hupper, _⟩ := hi.moment hm
  refine ⟨crash_keepDurable hinv, ?_⟩
  have hnot : ¬ t.disk.Durable (finalPathFor id) := by
    intro hd
    obtain ⟨hdur, hsome⟩ := hd (shardDirFor id) (List.prefix_append _ _)
    rcases hupper _ (shardDirFor_length id).le with ⟨hn, _⟩ | ⟨_, _, hfalse⟩
    · exact hsome (hn.trans hdir)
    · rw [hfalse] at hdur; cases hdur
  simp [Disk.contents, Disk.node_keepDurable, hnot]

/-- A live chunk whose shard directory was there before survives every crash. -/
theorem survives_crash (hprep : s₀.disk.Prepared) (hi : SessionInv sha256 s₀ done s)
    (hm : Moment sha256 s next t) {id : ChunkId} {data : Bytes} (hl : Live done next id data)
    (hdir : s₀.disk.node (shardDirFor id) = some .dir) {d' : Disk} (hc : Crash t.disk d') :
    ∃ b, Live done next id b ∧ d'.contents (finalPathFor id) = some b := by
  obtain ⟨_, hupper, hlive⟩ := hi.moment hm
  obtain ⟨b, hb, hn, hd⟩ := hlive id data hl
  refine ⟨b, hb, ?_⟩
  have hdurable : t.disk.Durable (finalPathFor id) := by
    intro q hq
    rcases prefixes_finalPathFor hq with rfl | ⟨hlen, hpre⟩
    · exact ⟨hd, by simp [hn]⟩
    · have hq₀ := hprep.above hdir q hpre
      rcases hupper q hlen with ⟨hnode, hdur⟩ | ⟨hnone, _⟩
      · exact ⟨hdur.trans (hprep.durable q _ hq₀), by simp [hnode, hq₀]⟩
      · rw [hq₀] at hnone; cases hnone
  obtain ⟨n', hn', b', rfl, hb'⟩ := hc.kept _ _ hn hdurable
  rw [hb' rfl] at hn'
  simp [Disk.contents, hn']

/-- **What survives.** From a data root that holds nothing but durable
directories, after any updates and at any later moment: every crash leaves every
chunk that was acknowledged and not deleted since exactly when the shard
directory of each of them was there before. From an empty root that is only so
while there is no such chunk. -/
theorem durable_iff (hprep : s₀.disk.Prepared) (h : Session sha256 s₀ done s)
    (hm : Moment sha256 s next t) :
    (∀ d', Crash t.disk d' → ∀ id data, Live done next id data →
      ∃ b, Live done next id b ∧ d'.contents (finalPathFor id) = some b) ↔
    ∀ id data, Live done next id data → s₀.disk.node (shardDirFor id) = some .dir := by
  have hi := h.inv hprep
  constructor
  · intro hall id data hl
    cases hdir : s₀.disk.node (shardDirFor id) with
    | some n => rw [(hprep.node _ _ hdir).2]
    | none =>
      obtain ⟨hcrash, hnone⟩ := lost_in_worst_crash hi hm hdir
      obtain ⟨b, _, hb⟩ := hall _ hcrash id data hl
      rw [hnone] at hb
      cases hb
  · intro hdirs d' hc id data hl
    exact survives_crash hprep hi hm hl (hdirs id data hl) hc

end Durable

/-- The session of one `Put` that returns `Ok`. -/
theorem session_put {sha256 : Bytes → Digest} {s : Store} {id : ChunkId} {data : Bytes}
    (h : (execute (put sha256 id data default) s).1 = .ok ()) :
    Session sha256 s ([] ++ [⟨.put id data, .ok ()⟩]) (execute (put sha256 id data default) s).2 :=
  .op (o := .put id data) .start trivial (runs_noFault_iff.mpr (Prod.ext h rfl))

/-- A data root where the shard directory of `abc` was made long ago. -/
def shardedStore : Store :=
  ⟨{ Disk.empty.mkdirs (shardDirFor .ofAbc).inits with durable := fun _ => true }, fun _ => 0⟩

theorem shardedStore_node (p : Path) :
    shardedStore.disk.node p = if p ∈ (shardDirFor .ofAbc).inits then some .dir else none := by
  show (Disk.empty.mkdirs (shardDirFor .ofAbc).inits).node p = _
  rw [Disk.node_mkdirs, Disk.node_empty]
  by_cases hp : p = []
  · subst hp; simp
  · by_cases hmem : p ∈ (shardDirFor .ofAbc).inits <;> simp [hp, hmem]

theorem shardedStore_prepared : shardedStore.disk.Prepared where
  root := by simp [shardedStore_node]
  node p n h := by
    rw [shardedStore_node] at h
    split at h
    · cases h
      exact ⟨inits_length_le (by assumption), rfl⟩
    · cases h
  parent p _ h := by
    rw [shardedStore_node] at h
    split at h
    · rename_i hmem
      rw [shardedStore_node, if_pos]
      have hdrop : p.dropLast <+: p := List.dropLast_prefix p
      exact (List.mem_inits _ _).mpr (hdrop.trans ((List.mem_inits _ _).mp hmem))
    · exact absurd rfl h
  durable _ _ _ := rfl
  lost p := by
    show (Disk.empty.mkdirs (shardDirFor .ofAbc).inits).lost p = []
    rw [Disk.lost_mkdirs]
    rfl

theorem durable_iff_sharded :
    Live [⟨.put .ofAbc abcBytes, .ok ()⟩] none .ofAbc abcBytes ∧
    ∀ d', Crash (execute (put knownSha256 .ofAbc abcBytes default) shardedStore).2.disk d' →
      ∃ b, d'.contents (finalPathFor .ofAbc) = some b := by
  have hlive : Live [⟨.put .ofAbc abcBytes, .ok ()⟩] none .ofAbc abcBytes :=
    ⟨⟨[], [], rfl, by simp⟩, by simp⟩
  have hok : (execute (put knownSha256 .ofAbc abcBytes default) shardedStore).1 = .ok () := rfl
  refine ⟨hlive, fun d' hc => ?_⟩
  have hdirs := (durable_iff shardedStore_prepared (session_put hok) .between).mpr
    fun id data hl => by
      rcases live_snoc.mp hl with heq | ⟨⟨⟨before, after, heq, _⟩, _⟩, _⟩
      · cases heq
        simp [shardedStore_node]
      · simp at heq
  obtain ⟨b, _, hb⟩ := hdirs d' hc _ _ hlive
  exact ⟨b, hb⟩

/-- `abc` is put into an empty store and acknowledged, and a crash loses it. -/
theorem put_abc_lost :
    ∃ s d', Session knownSha256 Store.empty [⟨.put .ofAbc abcBytes, .ok ()⟩] s ∧
      Live [⟨.put .ofAbc abcBytes, .ok ()⟩] none .ofAbc abcBytes ∧
      Crash s.disk d' ∧ d'.contents (finalPathFor .ofAbc) = none := by
  have hok : (execute (put knownSha256 .ofAbc abcBytes default) Store.empty).1 = .ok () := rfl
  have hsession := session_put hok
  have hdir : Store.empty.disk.node (shardDirFor .ofAbc) = none := Disk.node_empty _
  obtain ⟨hcrash, hnone⟩ := lost_in_worst_crash (hsession.inv Disk.prepared_empty) .between hdir
  exact ⟨_, _, hsession, ⟨⟨[], [], rfl, by simp⟩, by simp⟩, hcrash, hnone⟩

end NimbusFs.StorageNode
