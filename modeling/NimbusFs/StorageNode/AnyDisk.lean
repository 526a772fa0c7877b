import NimbusFs.StorageNode.LocalDiskChunkStore

/-! # One operation on any disk

Here nothing is assumed of the tree: the files may have been cut or altered by
something outside the store. What `Get` finds is decided by the entry at the
final path alone, and so is what the acknowledgement of a `Put` is worth: the
full write path puts the bytes there, the deduplication guard looks only at
whether something is there. -/
namespace NimbusFs.StorageNode

open NimbusFs.Common Lib

/-- Run alone, with no call going wrong. -/
def execute {α : Type} (p : StoreProg α) (s : Store) : α × Store :=
  p.run (fun c s => c.exec .ok s) s

theorem runs_noFault_iff {α : Type} {p : StoreProg α} {s t : Store} {a : α} :
    p.Runs Policy.noFault.sem s a t ↔ execute p s = (a, t) :=
  Prog.runs_iff_run noFault_sem_iff

section AnyDisk

variable {sha256 : Bytes → Digest} {pol : Policy} {id : ChunkId} {data : Bytes} {s t : Store}

/-! ## `Get` -/

/-- What `Get` makes of the entry at the final path. -/
def getEntry (sha256 : Bytes → Digest) (id : ChunkId) : Option Node → Result Bytes
  | some (.file b _) => checkContents sha256 id b
  | some .dir => chunkNotFound
  | none => chunkNotFound

theorem execute_get (sha256 : Bytes → Digest) (id : ChunkId) (s : Store) :
    execute (get sha256 id) s = (getEntry sha256 id (s.disk.node (finalPathFor id)), s) := by
  unfold execute get
  rw [Prog.run_guarded]
  unfold getLocked
  simp only [sys, Prog.perform_bind, Prog.run_call, Call.exec, Disk.fileSize]
  cases hn : s.disk.node (finalPathFor id) with
  | none => rfl
  | some n =>
    cases n with
    | dir => rfl
    | file b dirty =>
      simp only [Prog.perform_bind, Prog.run_call, Store.withDisk, Disk.internalOpen, hn,
        Option.isSome_some, if_true, getRead]
      by_cases hlen : b.length = 0
      · obtain rfl := List.length_eq_zero_iff.mp hlen
        rfl
      · rw [if_neg hlen]
        simp [Disk.read, Disk.contents, hn, checkRead, getEntry]

theorem execute_verifyOnly (sha256 : Bytes → Digest) (id : ChunkId) (s : Store) :
    execute (verifyOnly sha256 id) s =
      (forgetBytes (getEntry sha256 id (s.disk.node (finalPathFor id))), s) := by
  have h := execute_get sha256 id s
  unfold execute at h ⊢
  rw [verifyOnly, Prog.run_bind, h]
  rfl

/-! ## What the calls of `Put` leave -/

theorem internalOpen_created {d : Disk} {p fd : Path} {oc : Outcome}
    (h : (d.internalOpen p .writeCreateTruncate oc).1 = some fd) :
    fd = p ∧ (d.internalOpen p .writeCreateTruncate oc).2.node p = some (.file [] true) := by
  cases oc with
  | ok =>
    simp only [Disk.internalOpen] at h ⊢
    split at h
    · cases h; simp
    · cases h
    · split at h
      · rename_i hp
        cases h; simp [hp]
      · cases h
  | fail m => cases h
  | short m n => cases h

theorem internalOpen_directory {d : Disk} {p fd : Path} {oc : Outcome}
    (h : (d.internalOpen p .directory oc).1 = some fd) : fd = p ∧ d.node p = some .dir := by
  cases oc with
  | ok =>
    simp only [Disk.internalOpen] at h
    split at h
    · rename_i hp
      cases h; exact ⟨rfl, hp⟩
    · cases h
  | fail m => cases h
  | short m n => cases h

theorem write_complete {d : Disk} {fd : Path} {data : Bytes} {dirty : Bool} {oc : Outcome}
    (hn : d.node fd = some (.file [] dirty)) (h : (d.write fd data oc).1 = some data.length) :
    (d.write fd data oc).2.node fd = some (.file data true) := by
  cases oc with
  | ok => simp [Disk.write, Disk.write.append, hn]
  | fail m => cases h
  | short m n =>
    have htaken := List.take_prefix n data
    have htake : data.take n = data := htaken.eq_of_length (Option.some.inj h)
    simp [Disk.write, Disk.write.append, hn, htake]

theorem internalFsync_file {d : Disk} {fd : Path} {b : Bytes} {dirty : Bool} {oc : Outcome}
    (hn : d.node fd = some (.file b dirty)) (h : (d.internalFsync fd oc).1 = true) :
    (d.internalFsync fd oc).2.node fd = some (.file b false) := by
  cases oc with
  | ok => simp [Disk.internalFsync, hn]
  | fail m => cases h
  | short m n => cases h

theorem internalFsync_dir {d : Disk} {fd : Path} (hn : d.node fd = some .dir) (oc : Outcome)
    (p : Path) : (d.internalFsync fd oc).2.node p = d.node p := by
  cases oc with
  | ok => simp only [Disk.internalFsync, hn]; rfl
  | fail m => rfl
  | short m n => rfl

theorem rename_moved {d : Disk} {src dst : Path} {b : Bytes} {dirty : Bool} {oc : Outcome}
    (hn : d.node src = some (.file b dirty)) (h : (d.rename src dst oc).1 = none) :
    (d.rename src dst oc).2.node dst = some (.file b dirty) := by
  cases oc with
  | ok =>
    simp only [Disk.rename, hn] at h ⊢
    split at h
    · cases h
    · rename_i hdir
      split at h
      · cases h
      · rename_i hparent
        simp [hdir, hparent]
  | fail m => cases h
  | short m n => cases h

/-! ## `Put` -/

theorem runs_existsChunk {found : Bool} (h : (existsChunk id).Runs pol.sem s found t) :
    t = s ∧ (found = (s.disk.node (finalPathFor id)).isSome ∨
      (pol.probeFault = true ∧ found = false)) := by
  obtain ⟨_, _, hsem, rfl, rfl⟩ := Prog.runs_guarded.mp h
  obtain ⟨oc, ha, rfl, rfl⟩ := hsem.outcome
  refine ⟨rfl, ?_⟩
  cases oc with
  | ok => exact .inl (by simp [exec_existsPath_ok])
  | fail m => exact .inr ⟨by simpa [Policy.allows, Call.isProbe] using ha, rfl⟩
  | short m n => exact .inr ⟨by simpa [Policy.allows, Call.isProbe] using ha, rfl⟩

/-- After the rename no entry changes any more. -/
theorem runs_putFinish {r : Result Unit} (h : (putFinish id data).Runs pol.sem s r t) (p : Path) :
    t.disk.node p = s.disk.node p := by
  obtain ⟨fd, _, hopen, h⟩ := h
  obtain ⟨oc, -, rfl, rfl⟩ := hopen.outcome
  have hsame : ((Call.internalOpen (shardDirFor id) .directory).exec oc s).2 = s := by
    cases oc <;> rfl
  rw [hsame] at h
  cases hfd : ((Call.internalOpen (shardDirFor id) .directory).exec oc s).1 with
  | none =>
    rw [hfd] at h
    obtain ⟨_, _, h₁, _, _, h₂, _, rfl⟩ := h
    obtain ⟨_, -, -, rfl⟩ := h₁.outcome
    obtain ⟨_, -, -, rfl⟩ := h₂.outcome
    rfl
  | some fd =>
    rw [hfd] at h
    obtain ⟨rfl, hdir⟩ := internalOpen_directory hfd
    obtain ⟨_, _, h₁, _, _, h₂, _, _, h₃, _, _, h₄, _, rfl⟩ := h
    obtain ⟨oc', -, -, rfl⟩ := h₁.outcome
    obtain ⟨_, -, -, rfl⟩ := h₂.outcome
    obtain ⟨_, -, -, rfl⟩ := h₃.outcome
    obtain ⟨_, -, -, rfl⟩ := h₄.outcome
    exact internalFsync_dir hdir oc' p

theorem runs_putRename {tmp : Path} {dirty : Bool}
    (hn : s.disk.node tmp = some (.file data dirty))
    (h : (putRename id data tmp).Runs pol.sem s (.ok ()) t) :
    t.disk.node (finalPathFor id) = some (.file data dirty) := by
  obtain ⟨ec, _, hren, h⟩ := h
  obtain ⟨oc, -, rfl, rfl⟩ := hren.outcome
  cases hec : ((Call.rename tmp (finalPathFor id)).exec oc s).1 with
  | some m =>
    rw [hec] at h
    obtain ⟨_, _, _, hr, _⟩ := h
    cases hr
  | none =>
    rw [hec] at h
    rw [runs_putFinish h]
    exact rename_moved hn hec

theorem not_runs_putAbandon {tmp : Path} {m : String} :
    ¬ (putAbandon tmp m).Runs pol.sem s (.ok ()) t := by
  intro h
  obtain ⟨_, _, _, _, _, _, hr, _⟩ := h
  cases hr

theorem runs_putFsync {tmp : Path} {dirty : Bool}
    (hn : s.disk.node tmp = some (.file data dirty))
    (h : (putFsync id data tmp).Runs pol.sem s (.ok ()) t) :
    t.disk.node (finalPathFor id) = some (.file data false) := by
  rw [putFsync, Prog.perform_bind] at h
  obtain ⟨synced, _, hsync, h⟩ := h
  obtain ⟨oc, -, rfl, rfl⟩ := hsync.outcome
  dsimp only at h
  by_cases hs : ((Call.internalFsync tmp).exec oc s).1 = true
  · rw [if_pos hs] at h
    obtain ⟨_, _, hclose, h⟩ := h
    obtain ⟨_, -, -, rfl⟩ := hclose.outcome
    exact runs_putRename (internalFsync_file hn hs) h
  · rw [if_neg hs] at h
    exact absurd h not_runs_putAbandon

theorem runs_putWrite {tmp : Path} (hn : s.disk.node tmp = some (.file [] true))
    (h : (putWrite id data tmp).Runs pol.sem s (.ok ()) t) :
    t.disk.node (finalPathFor id) = some (.file data false) := by
  unfold putWrite at h
  split at h
  · rename_i hempty
    obtain rfl := List.isEmpty_iff.mp hempty
    exact runs_putFsync hn h
  · rw [Prog.perform_bind] at h
    obtain ⟨written, _, hwrite, h⟩ := h
    obtain ⟨oc, -, rfl, rfl⟩ := hwrite.outcome
    dsimp only at h
    by_cases hw : ((Call.write tmp data).exec oc s).1 = some data.length
    · rw [if_pos hw] at h
      exact runs_putFsync (write_complete hn hw) h
    · rw [if_neg hw] at h
      exact absurd h not_runs_putAbandon

/-- Where something is at the final path and the probe finds it, a `Put` of bytes with
the right hash returns Ok, and has done nothing. -/
theorem runs_put_found {uuid : UuidV4} {r : Result Unit} (hsha : sha256 data = id.digest)
    (hsome : s.disk.node (finalPathFor id) ≠ none) (hprobe : pol.probeFault = false)
    (h : (put sha256 id data uuid).Runs pol.sem s r t) : r = .ok () ∧ t = s := by
  rw [put, if_neg (by simpa using hsha)] at h
  obtain ⟨found, u, hex, h⟩ := Prog.runs_bind.mp (Prog.runs_guarded.mp h)
  obtain ⟨rfl, hfound | ⟨hfault, _⟩⟩ := runs_existsChunk hex
  · rw [Option.isSome_iff_ne_none.mpr hsome] at hfound
    subst hfound
    exact h
  · rw [hprobe] at hfault
    cases hfault

theorem execute_put_found {uuid : UuidV4} (hsha : sha256 data = id.digest)
    (hsome : s.disk.node (finalPathFor id) ≠ none) :
    execute (put sha256 id data uuid) s = (.ok (), s) := by
  obtain ⟨hok, hsame⟩ := runs_put_found hsha hsome (rfl : Policy.noFault.probeFault = false)
    (runs_noFault_iff.mpr rfl)
  exact Prod.ext hok hsame

/-- An acknowledged full write path has made the shard directory and opened the
temporary file, and goes on to write it. -/
theorem runs_putNew_opened {uuid : UuidV4}
    (h : (putNew id data uuid).Runs pol.sem s (.ok ()) t) :
    ∃ oc oc' s₁, s₁ = ((Call.createDirectories (shardDirFor id)).exec oc s).2 ∧
      ((Call.internalOpen (tmpPathFor id uuid) .writeCreateTruncate).exec oc' s₁).1 =
        some (tmpPathFor id uuid) ∧
      (putWrite id data (tmpPathFor id uuid)).Runs pol.sem
        ((Call.internalOpen (tmpPathFor id uuid) .writeCreateTruncate).exec oc' s₁).2 (.ok ()) t := by
  obtain ⟨ec, s₁, hmkdir, h⟩ := h
  obtain ⟨oc, -, -, hs₁⟩ := hmkdir.outcome
  cases ec with
  | some m => obtain ⟨hr, _⟩ := h; cases hr
  | none =>
    obtain ⟨fd, _, hopen, h⟩ := h
    obtain ⟨oc', -, hfd, rfl⟩ := hopen.outcome
    cases fd with
    | none => obtain ⟨hr, _⟩ := h; cases hr
    | some fd =>
      obtain ⟨rfl, _⟩ := internalOpen_created hfd.symm
      exact ⟨oc, oc', s₁, hs₁, hfd.symm, h⟩

/-- The full write path leaves the bytes at the final path, whatever was there. -/
theorem runs_putNew {uuid : UuidV4} (h : (putNew id data uuid).Runs pol.sem s (.ok ()) t) :
    t.disk.node (finalPathFor id) = some (.file data false) := by
  obtain ⟨_, _, _, _, hfd, h⟩ := runs_putNew_opened h
  exact runs_putWrite (internalOpen_created hfd).2 h

/-- An acknowledged `Put`: the guard found something and nothing was done, or it took
the full write path. -/
theorem runs_put_cases {uuid : UuidV4} (h : (put sha256 id data uuid).Runs pol.sem s (.ok ()) t) :
    sha256 data = id.digest ∧
      ((s.disk.node (finalPathFor id) ≠ none ∧ t = s) ∨
       ((s.disk.node (finalPathFor id) = none ∨ pol.probeFault = true) ∧
        (putNew id data uuid).Runs pol.sem s (.ok ()) t)) := by
  unfold put at h
  split at h
  · obtain ⟨hr, _⟩ := h; cases hr
  · rename_i hsha
    refine ⟨by simpa using hsha, ?_⟩
    obtain ⟨found, u, hex, h⟩ := Prog.runs_bind.mp (Prog.runs_guarded.mp h)
    obtain ⟨rfl, hf⟩ := runs_existsChunk hex
    cases found with
    | true =>
      obtain ⟨_, rfl⟩ := h
      rcases hf with hf | ⟨_, hf⟩
      · exact .inl ⟨Option.isSome_iff_ne_none.mp hf.symm, rfl⟩
      · cases hf
    | false =>
      refine .inr ⟨?_, h⟩
      rcases hf with hf | ⟨hp, _⟩
      · exact .inl (Option.isNone_iff_eq_none.mp (Option.isSome_eq_false_iff.mp hf.symm))
      · exact .inr hp

/-- An acknowledged `Put` did nothing, or the bytes were written. -/
theorem runs_put_ok {uuid : UuidV4} (h : (put sha256 id data uuid).Runs pol.sem s (.ok ()) t) :
    sha256 data = id.digest ∧
      ((s.disk.node (finalPathFor id) ≠ none ∧ t = s) ∨
       ((s.disk.node (finalPathFor id) = none ∨ pol.probeFault = true) ∧
        t.disk.node (finalPathFor id) = some (.file data false))) := by
  obtain ⟨hsha, hfound | ⟨habsent, hnew⟩⟩ := runs_put_cases h
  · exact ⟨hsha, .inl hfound⟩
  · exact ⟨hsha, .inr ⟨habsent, runs_putNew hnew⟩⟩

/-- A file with the right bytes is read back, and found in order. -/
theorem execute_get_file {dirty : Bool} (hsha : sha256 data = id.digest)
    (hn : s.disk.node (finalPathFor id) = some (.file data dirty)) :
    (execute (get sha256 id) s).1 = .ok data ∧ (execute (verifyOnly sha256 id) s).1 = .ok () := by
  rw [execute_get, execute_verifyOnly, hn]
  simp [getEntry, checkContents, hsha, forgetBytes]

/-- Where nothing was at the final path, or the same bytes, or anything has changed, an
acknowledged `Put` has the bytes there. -/
theorem runs_put_file {uuid : UuidV4} (h : (put sha256 id data uuid).Runs pol.sem s (.ok ()) t)
    (hcase : s.disk.node (finalPathFor id) = none ∨
      s.disk.contents (finalPathFor id) = some data ∨ t ≠ s) :
    sha256 data = id.digest ∧ ∃ dirty, t.disk.node (finalPathFor id) = some (.file data dirty) := by
  obtain ⟨hsha, hput⟩ := runs_put_ok h
  refine ⟨hsha, ?_⟩
  rcases hput with ⟨hsome, rfl⟩ | ⟨_, hn⟩
  · have hcontents : t.disk.contents (finalPathFor id) = some data :=
      (hcase.resolve_left hsome).resolve_right fun hne => hne rfl
    unfold Disk.contents at hcontents
    split at hcontents
    · rename_i b dirty hn
      cases hcontents
      exact ⟨dirty, hn⟩
    · cases hcontents
  · exact ⟨false, hn⟩

/-- **What a `Put` says about the bytes**, on any disk and with any faults inside it.
Acknowledged where nothing was at the final path, or the same bytes, or where it changed
anything: `Get` then returns them. Where anything was there and the probe finds it, bytes
with the right hash are acknowledged by the guard alone: the `Put` returns Ok and nothing
changes. -/
theorem put_ok_get {uuid : UuidV4} {r : Result Unit}
    (h : (put sha256 id data uuid).Runs pol.sem s r t) :
    (r = .ok () →
      s.disk.node (finalPathFor id) = none ∨ s.disk.contents (finalPathFor id) = some data ∨ t ≠ s →
      (execute (get sha256 id) t).1 = .ok data ∧ (execute (verifyOnly sha256 id) t).1 = .ok ()) ∧
    (sha256 data = id.digest → s.disk.node (finalPathFor id) ≠ none → pol.probeFault = false →
      r = .ok () ∧ t = s) := by
  refine ⟨fun hok hcase => ?_, fun hsha hsome hprobe => runs_put_found hsha hsome hprobe h⟩
  obtain ⟨hsha, dirty, hn⟩ := runs_put_file (hok ▸ h) hcase
  exact execute_get_file hsha hn

end AnyDisk

theorem put_ok_get_empty :
    (execute (put knownSha256 .ofAbc abcBytes default) Store.empty).1 = .ok () ∧
    (execute (get knownSha256 .ofAbc)
      (execute (put knownSha256 .ofAbc abcBytes default) Store.empty).2).1 = .ok abcBytes := by
  have hok : (execute (put knownSha256 .ofAbc abcBytes default) Store.empty).1 = .ok () := rfl
  obtain ⟨hget, _⟩ := put_ok_get (runs_noFault_iff.mpr (Prod.ext hok rfl))
  exact ⟨hok, (hget rfl (.inl (Disk.node_empty _))).1⟩

/-- A store where something cut the file of `abc` short. -/
def cutStore : Store :=
  ⟨(Disk.empty.mkdirs (shardDirFor .ofAbc).inits).setNode (finalPathFor .ofAbc)
    (.file [0x61, 0x62] false), fun _ => 0⟩

/-- `abc` is uploaded again, acknowledged, and still not readable. -/
theorem put_ok_not_repaired :
    (execute (put knownSha256 .ofAbc abcBytes default) cutStore).1 = .ok () ∧
    (execute (get knownSha256 .ofAbc)
      (execute (put knownSha256 .ofAbc abcBytes default) cutStore).2).1 =
        .error ⟨.CorruptionDetected, "Chunk data on disk does not match its ID"⟩ ∧
    (execute (verifyOnly knownSha256 .ofAbc)
      (execute (put knownSha256 .ofAbc abcBytes default) cutStore).2).1 ≠ .ok () := by
  have hnode : cutStore.disk.node (finalPathFor .ofAbc) = some (.file [0x61, 0x62] false) := by
    simp [cutStore]
  have hput : execute (put knownSha256 .ofAbc abcBytes default) cutStore = (.ok (), cutStore) :=
    execute_put_found (by decide) (by simp [hnode])
  have hget : getEntry knownSha256 .ofAbc (some (.file [0x61, 0x62] false)) =
      .error ⟨.CorruptionDetected, "Chunk data on disk does not match its ID"⟩ := rfl
  rw [hput, execute_get, execute_verifyOnly, hnode, hget]
  exact ⟨rfl, rfl, by simp [forgetBytes]⟩

end NimbusFs.StorageNode
