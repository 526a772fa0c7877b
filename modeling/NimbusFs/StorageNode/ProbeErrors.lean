import NimbusFs.StorageNode.FailedPut
import NimbusFs.StorageNode.Statistics
import NimbusFs.StorageNode.Streaming

/-! # When a probe errs

`Put` asks whether the final path exists, `Delete` asks for its size, and both
take an error for an answer: nothing is there. The probe of an operation has a
fixed outcome here, every other call may go as it likes. `Delete` then says `Ok`
over a chunk that is still there, and `Put` counts a chunk twice. -/
namespace NimbusFs.StorageNode

open NimbusFs.Common Lib

/-- The probes have this outcome, the other calls any. -/
def probeSem (probe : Outcome) (c : Call) (s : Store) (r : c.Ret) (s' : Store) : Prop :=
  ∃ oc, (c.isProbe = true → oc = probe) ∧ c.exec oc s = (r, s')

/-- An acknowledged `Delete` leaves no file at the final path. -/
def DeleteHonest (probe : Outcome) (id : ChunkId) (s : Store) : Prop :=
  ∀ t, (delete id).Runs (probeSem probe) s (.ok ()) t → t.disk.contents (finalPathFor id) = none

/-- After an acknowledged `Put` the counters are those of the files. -/
def PutHonest (sha256 : Bytes → Digest) (probe : Outcome) (id : ChunkId) (data : Bytes)
    (uuid : UuidV4) (s : Store) : Prop :=
  ∀ t, (put sha256 id data uuid).Runs (probeSem probe) s (.ok ()) t → CountersMatch t

/-! ## What an acknowledged `Put` does -/

section Put

variable {sha256 : Bytes → Digest} {pol : Policy} {id : ChunkId} {data : Bytes} {uuid : UuidV4}
variable {s t : Store} {tmp : Path}

/-- Only the temporary and the final path were touched, and the chunk was counted. -/
structure PutCounted (id : ChunkId) (data : Bytes) (tmp : Path) (s t : Store) : Prop where
  touches : Touches (fun p => p = tmp ∨ p = finalPathFor id) s.disk t.disk
  counter : ∀ x, t.counter x = (s.counter x + x.ofSize data.length) % 2 ^ 64

/-- Steps before it that touched the temporary file alone do not matter. -/
theorem PutCounted.before {u : Store} (h : PutCounted id data tmp u t)
    (htouch : Touches (· = tmp) s.disk u.disk) (hcounter : u.counter = s.counter) :
    PutCounted id data tmp s t :=
  ⟨(htouch.mono fun _ => .inl).trans h.touches, fun x => hcounter ▸ h.counter x⟩

/-- The two `fetch_add` of `Put`. -/
theorem counter_fetchAdd (s : Store) (oc oc' : Outcome) (x : Counter) :
    ((Call.fetchAdd .bytesUsed data.length).exec oc'
      ((Call.fetchAdd .chunkCount 1).exec oc s).2).2.counter x =
      (s.counter x + x.ofSize data.length) % 2 ^ 64 := by
  cases x <;> simp [Call.exec, Store.setCounter, Counter.ofSize]

theorem putFinish_counter {r : Result Unit} (h : (putFinish id data).Runs pol.sem s r t)
    (x : Counter) : t.counter x = (s.counter x + x.ofSize data.length) % 2 ^ 64 := by
  obtain ⟨fd, _, hopen, h⟩ := h
  obtain ⟨_, -, -, rfl⟩ := hopen.outcome
  cases fd with
  | none =>
    obtain ⟨_, _, h₁, _, _, h₂, _, rfl⟩ := h
    obtain ⟨oc₁, -, -, rfl⟩ := h₁.outcome
    obtain ⟨oc₂, -, -, rfl⟩ := h₂.outcome
    exact counter_fetchAdd _ oc₁ oc₂ x
  | some fd =>
    obtain ⟨_, _, h₀, _, _, h₁, _, _, h₂, _, _, h₃, _, rfl⟩ := h
    obtain ⟨_, -, -, rfl⟩ := h₀.outcome
    obtain ⟨oc₁, -, -, rfl⟩ := h₁.outcome
    obtain ⟨oc₂, -, -, rfl⟩ := h₂.outcome
    obtain ⟨_, -, -, rfl⟩ := h₃.outcome
    exact counter_fetchAdd _ oc₁ oc₂ x

theorem putRename_counted (h : (putRename id data tmp).Runs pol.sem s (.ok ()) t) :
    PutCounted id data tmp s t := by
  obtain ⟨ec, _, hren, h⟩ := h
  obtain ⟨oc, -, -, rfl⟩ := hren.outcome
  cases ec with
  | some m =>
    obtain ⟨_, _, _, hr, _⟩ := h
    cases hr
  | none =>
    have hfinish : (putFinish id data).Runs pol.sem
      ((Call.rename tmp (finalPathFor id)).exec oc s).2 (.ok ()) t := h
    refine ⟨(touches_rename tmp (finalPathFor id) oc).trans ?_, fun x => ?_⟩
    · exact fun p => .inr (.inl (runs_putFinish hfinish p))
    · rw [putFinish_counter hfinish x]
      rfl

theorem putFsync_counted (h : (putFsync id data tmp).Runs pol.sem s (.ok ()) t) :
    PutCounted id data tmp s t := by
  rw [putFsync, Prog.perform_bind] at h
  obtain ⟨synced, _, hsync, h⟩ := h
  obtain ⟨oc, -, -, rfl⟩ := hsync.outcome
  dsimp only at h
  split at h
  · obtain ⟨_, _, hclose, h⟩ := h
    obtain ⟨_, -, -, rfl⟩ := hclose.outcome
    exact (putRename_counted h).before (touches_internalFsync tmp oc) rfl
  · exact absurd h not_runs_putAbandon

theorem putWrite_counted (h : (putWrite id data tmp).Runs pol.sem s (.ok ()) t) :
    PutCounted id data tmp s t := by
  unfold putWrite at h
  split at h
  · exact putFsync_counted h
  · rw [Prog.perform_bind] at h
    obtain ⟨written, _, hwrite, h⟩ := h
    obtain ⟨oc, -, -, rfl⟩ := hwrite.outcome
    dsimp only at h
    split at h
    · exact (putFsync_counted h).before (touches_write tmp data oc) rfl
    · exact absurd h not_runs_putAbandon

theorem putNew_counted (h : (putNew id data uuid).Runs pol.sem s (.ok ()) t) :
    PutCounted id data (tmpPathFor id uuid) s t := by
  obtain ⟨oc, oc', _, rfl, _, h⟩ := runs_putNew_opened h
  refine (putWrite_counted h).before ?_ rfl
  exact (touches_createDirectories (by rfl) oc).trans
    (touches_internalOpen (tmpPathFor id uuid) .writeCreateTruncate oc')

/-- Where a directory has the temporary name, no file can be opened there. -/
theorem not_runs_putNew_of_dir (hdir : s.disk.node (tmpPathFor id uuid) = some .dir) :
    ¬ (putNew id data uuid).Runs pol.sem s (.ok ()) t := by
  intro h
  obtain ⟨oc, oc', _, rfl, hfd, _⟩ := runs_putNew_opened h
  have htouch : Touches (fun _ => False) s.disk (s.disk.createDirectories (shardDirFor id) oc).2 :=
    touches_createDirectories (by rfl) oc
  have hdir' := (htouch.node not_false (belongs_tmpPathFor id uuid).length.ge).trans hdir
  cases oc' with
  | ok => simp [Call.exec, Store.withDisk, Disk.internalOpen, hdir'] at hfd
  | fail m => cases hfd
  | short m n => cases hfd

/-- **What the full write path does to the sums**: the weight of the final path
becomes that of the data. -/
theorem putNew_total (h : (putNew id data uuid).Runs pol.sem s (.ok ()) t) (x : Counter) :
    t.disk.total x + weight x (finalPathFor id) (s.disk.node (finalPathFor id)) =
      s.disk.total x + x.ofSize data.length := by
  have hothers : ∀ p, p ≠ finalPathFor id →
      weight x p (t.disk.node p) = weight x p (s.disk.node p) := by
    intro p hp
    by_cases htmp : p = tmpPathFor id uuid
    · rw [htmp, weight_tmp, weight_tmp]
    · exact (putNew_counted h).touches.weight (by simp [htmp, hp])
  have hchange := total_change (finalPathFor id) hothers
  rwa [runs_putNew h, weight_final] at hchange

end Put

/-! ## With the outcome of the probe given -/

section Probe

variable {sha256 : Bytes → Digest} {probe : Outcome} {id : ChunkId} {data : Bytes} {uuid : UuidV4}
variable {s t : Store} {α : Type}

/-- All runs are runs with any faults. -/
theorem runs_anyFault {p : StoreProg α} {a : α} (h : p.Runs (probeSem probe) s a t) :
    p.Runs Policy.anyFault.sem s a t := by
  refine h.mono fun c s r t hsem => ?_
  obtain ⟨oc, _, hexec⟩ := hsem
  exact ⟨oc, .inr (by cases c <;> rfl), hexec⟩

/-- Every call but the probes works. -/
def restOk (probe : Outcome) (c : Call) (s : Store) : c.Ret × Store :=
  c.exec (if c.isProbe then probe else .ok) s

theorem runs_restOk (probe : Outcome) (p : StoreProg α) (s : Store) :
    p.Runs (probeSem probe) s (p.run (restOk probe) s).1 (p.run (restOk probe) s).2 :=
  Prog.runs_run (fun _ _ => ⟨_, fun hc => if_pos hc, rfl⟩) p s

/-- The probe of `Put`. -/
theorem runs_existsChunk_probe {found : Bool} (h : (existsChunk id).Runs (probeSem probe) s found t) :
    t = s ∧ found = ((s.disk.existsPath (finalPathFor id) probe).1 &&
      (s.disk.existsPath (finalPathFor id) probe).2.isNone) := by
  obtain ⟨_, _, ⟨oc, hoc, hexec⟩, rfl, rfl⟩ := Prog.runs_guarded.mp h
  obtain rfl := hoc rfl
  cases hexec
  exact ⟨rfl, rfl⟩

/-- A probe that errs says that nothing is there. -/
theorem existsPath_err (d : Disk) (p : Path) (hprobe : probe ≠ .ok) :
    ((d.existsPath p probe).1 && (d.existsPath p probe).2.isNone) = false := by
  cases probe with
  | ok => exact absurd rfl hprobe
  | fail m => rfl
  | short m n => rfl

theorem fileSize_err (d : Disk) (p : Path) (hprobe : probe ≠ .ok) :
    ∃ m, d.fileSize p probe = .error m := by
  cases probe with
  | ok => exact absurd rfl hprobe
  | fail m => exact ⟨m, rfl⟩
  | short m n => exact ⟨m, rfl⟩

/-! ## `Delete` -/

/-- An acknowledged `Delete` whose probe found the file has removed it; one whose
probe found nothing has done nothing. -/
theorem delete_cases (h : (delete id).Runs (probeSem probe) s (.ok ()) t) :
    t.disk.contents (finalPathFor id) = none ∨
      (t = s ∧ ∃ m, s.disk.fileSize (finalPathFor id) probe = .error m) := by
  obtain ⟨size, _, ⟨oc, hoc, hexec⟩, h⟩ := Prog.runs_guarded.mp h
  obtain rfl := hoc rfl
  obtain ⟨hsize, rfl⟩ := Prod.ext_iff.mp hexec
  cases size with
  | error m => exact .inr ⟨h.2, m, hsize⟩
  | ok n =>
    left
    obtain ⟨answer, _, ⟨oc', _, hremove⟩, h⟩ := h
    obtain ⟨hanswer, rfl⟩ := Prod.ext_iff.mp hremove
    obtain ⟨removed, ec⟩ := answer
    change (if (!removed || ec.isSome) = true then _ else _ : StoreProg (Result Unit)).Runs _ _ _ _ at h
    split at h
    · cases h.1
    · rename_i hdone
      obtain ⟨_, _, ⟨_, _, hsub₁⟩, _, _, ⟨_, _, hsub₂⟩, _, rfl⟩ := h
      obtain ⟨-, rfl⟩ := Prod.ext_iff.mp hsub₁
      obtain ⟨-, rfl⟩ := Prod.ext_iff.mp hsub₂
      have hgood : removed = true ∧ ec = none := by simpa using hdone
      obtain ⟨b, dirty, hn, _⟩ := fileSize_found hsize
      have hiff := remove_file_iff (contents_ne_none hn) oc'
      by_contra hne
      exact hiff.mp hne ((congrArg Prod.snd hanswer).trans hgood.2)

/-- A `Delete` whose probe errs does nothing and says `Ok`. -/
theorem run_delete_err (hprobe : probe ≠ .ok) :
    (delete id).run (restOk probe) s = (.ok (), s) := by
  obtain ⟨m, hm⟩ := fileSize_err s.disk (finalPathFor id) hprobe
  have hcall : restOk probe (.fileSize (finalPathFor id)) s = (.error m, s) := by
    show (s.disk.fileSize (finalPathFor id) probe, s) = _
    rw [hm]
  rw [delete, Prog.run_guarded, deleteLocked, Prog.perform_bind, Prog.run_call, hcall]
  rfl

theorem deleteHonest_iff :
    DeleteHonest probe id s ↔ probe = .ok ∨ s.disk.contents (finalPathFor id) = none := by
  constructor
  · intro h
    by_contra hbad
    obtain ⟨hprobe, hfile⟩ := not_or.mp hbad
    have hrun := runs_restOk probe (delete id) s
    rw [run_delete_err hprobe] at hrun
    exact hfile (h s hrun)
  · intro h t hrun
    rcases delete_cases hrun with hgone | ⟨rfl, m, hm⟩
    · exact hgone
    · rcases h with rfl | hnone
      · by_contra hfile
        obtain ⟨b, dirty, hn⟩ := node_of_contents hfile
        simp [Disk.fileSize, hn] at hm
      · exact hnone

/-! ## `Put` -/

/-- The temporary file can be renamed. -/
structure RenameReady (id : ChunkId) (uuid : UuidV4) (d : Disk) : Prop where
  file : d.contents (tmpPathFor id uuid) ≠ none
  final : d.node (finalPathFor id) ≠ some .dir
  shard : d.node (shardDirFor id) = some .dir

/-- Work on the temporary file does not get in the way. -/
theorem RenameReady.of_touches {d d' : Disk} (hfinal : d.node (finalPathFor id) ≠ some .dir)
    (hshard : d.node (shardDirFor id) = some .dir)
    (htouch : Touches (· = tmpPathFor id uuid) d d')
    (hfile : d'.contents (tmpPathFor id uuid) ≠ none) : RenameReady id uuid d' := by
  refine ⟨hfile, ?_, ?_⟩
  · rwa [htouch.node (finalPathFor_ne_tmpPathFor id id uuid) (belongs_finalPathFor id).length.ge]
  · rcases htouch (shardDirFor id) with heq | heq | ⟨_, hnone, _⟩
    · have := congrArg List.length heq
      rw [(belongs_tmpPathFor id uuid).length] at this
      cases this
    · rwa [heq]
    · rw [hshard] at hnone
      cases hnone

theorem run_putFinish_ok : ((putFinish id data).run (restOk probe) s).1 = .ok () := by
  rw [putFinish, Prog.perform_bind, Prog.run_call]
  cases (restOk probe (.internalOpen (shardDirFor id) .directory) s).1 <;> rfl

theorem run_putRename_ok (h : RenameReady id uuid s.disk) :
    ((putRename id data (tmpPathFor id uuid)).run (restOk probe) s).1 = .ok () := by
  obtain ⟨b, dirty, hn⟩ := node_of_contents h.file
  have hcall : (restOk probe (.rename (tmpPathFor id uuid) (finalPathFor id)) s).1 = none := by
    simp [restOk, Call.isProbe, Call.exec, Store.withDisk, Disk.rename, hn, h.final, h.shard]
  rw [putRename, Prog.perform_bind, Prog.run_call, hcall]
  exact run_putFinish_ok

theorem run_putFsync_ok (h : RenameReady id uuid s.disk) :
    ((putFsync id data (tmpPathFor id uuid)).run (restOk probe) s).1 = .ok () := by
  obtain ⟨b, dirty, hn⟩ := node_of_contents h.file
  have hcall : (restOk probe (.internalFsync (tmpPathFor id uuid)) s).1 = true := by
    simp [restOk, Call.isProbe, Call.exec, Store.withDisk, Disk.internalFsync, hn]
  rw [putFsync, Prog.perform_bind, Prog.run_call, hcall]
  exact run_putRename_ok (.of_touches h.final h.shard (touches_internalFsync _ .ok)
    (internalFsync_contents h.file .ok))

theorem run_putWrite_ok (h : RenameReady id uuid s.disk) :
    ((putWrite id data (tmpPathFor id uuid)).run (restOk probe) s).1 = .ok () := by
  unfold putWrite
  split
  · exact run_putFsync_ok h
  · have hcall : (restOk probe (.write (tmpPathFor id uuid) data) s).1 = some data.length := rfl
    rw [Prog.perform_bind, Prog.run_call, hcall, if_pos rfl]
    exact run_putFsync_ok (.of_touches h.final h.shard (touches_write _ data .ok)
      (write_file h.file data .ok))

/-- Above a chunk that is there are directories only. -/
theorem above_of_file (htree : s.disk.IsTree) (hfile : s.disk.contents (finalPathFor id) ≠ none)
    {q : Path} (hq : q <+: shardDirFor id) : s.disk.node q = some .dir := by
  obtain ⟨b, dirty, hn⟩ := node_of_contents hfile
  have hpre : q <+: finalPathFor id := hq.trans (List.prefix_append _ _)
  refine htree.above (by simp [hn]) hpre fun heq => ?_
  have := hq.length_le
  rw [heq, (belongs_finalPathFor id).length, shardDirFor_length] at this
  omega

/-- So `create_directories` works, and every entry stays as it is. -/
theorem createDirectories_above (htree : s.disk.IsTree)
    (hfile : s.disk.contents (finalPathFor id) ≠ none) :
    ∃ d, restOk probe (.createDirectories (shardDirFor id)) s = (none, { s with disk := d }) ∧
      ∀ p, d.node p = s.disk.node p := by
  refine ⟨s.disk.mkdirs (shardDirFor id).inits, ?_, fun p => ?_⟩
  · have hdirs : (shardDirFor id).inits.any s.disk.isFile = false := by
      rw [List.any_eq_false]
      intro q hq
      simp [Disk.isFile, above_of_file htree hfile ((List.mem_inits _ _).mp hq)]
    simp [restOk, Call.isProbe, Call.exec, Store.withDisk, Disk.createDirectories, hdirs]
  · rw [Disk.node_mkdirs]
    refine if_neg fun hp => ?_
    rw [above_of_file htree hfile ((List.mem_inits _ _).mp hp.1)] at hp
    cases hp.2

/-- In a directory that is there a temporary file can be opened. -/
theorem internalOpen_tmp_ok {d : Disk} (hshard : d.node (shardDirFor id) = some .dir)
    (htmp : d.node (tmpPathFor id uuid) ≠ some .dir) :
    (d.internalOpen (tmpPathFor id uuid) .writeCreateTruncate .ok).1 = some (tmpPathFor id uuid) := by
  unfold Disk.internalOpen
  cases htn : d.node (tmpPathFor id uuid) with
  | none => simp [hshard]
  | some n =>
    cases n with
    | dir => exact absurd htn htmp
    | file b dirty => rfl

/-- Over a chunk that is there, the full write path works. -/
theorem run_putNew_ok (htree : s.disk.IsTree) (hfile : s.disk.contents (finalPathFor id) ≠ none)
    (htmp : s.disk.node (tmpPathFor id uuid) ≠ some .dir) :
    ((putNew id data uuid).run (restOk probe) s).1 = .ok () := by
  obtain ⟨b, dirty, hn⟩ := node_of_contents hfile
  obtain ⟨d, hmk, hsame⟩ := createDirectories_above htree hfile
  have hshard : d.node (shardDirFor id) = some .dir :=
    (hsame _).trans (above_of_file htree hfile (List.prefix_refl _))
  have hopen := internalOpen_tmp_ok hshard (hsame (tmpPathFor id uuid) ▸ htmp)
  have hready : RenameReady id uuid (d.internalOpen (tmpPathFor id uuid) .writeCreateTruncate .ok).2 :=
    .of_touches (by simp [hsame, hn]) hshard (touches_internalOpen _ _ .ok)
      (contents_ne_none (internalOpen_created hopen).2)
  have hcall : (restOk probe (.internalOpen (tmpPathFor id uuid) .writeCreateTruncate)
      { s with disk := d }).1 = some (tmpPathFor id uuid) := hopen
  rw [putNew, Prog.perform_bind, Prog.run_call, hmk]
  dsimp only
  rw [Prog.perform_bind, Prog.run_call, hcall]
  exact run_putWrite_ok hready

/-- A `Put` of the right bytes whose probe errs goes the full way. -/
theorem runs_put_err (hprobe : probe ≠ .ok) (hsha : sha256 data = id.digest)
    (h : (putNew id data uuid).Runs (probeSem probe) s (.ok ()) t) :
    (put sha256 id data uuid).Runs (probeSem probe) s (.ok ()) t := by
  rw [put, if_neg (by simpa using hsha)]
  refine Prog.runs_guarded.mpr (Prog.runs_bind.mpr ⟨false, s, ?_, h⟩)
  refine Prog.runs_guarded.mpr ⟨_, s, ⟨probe, fun _ => rfl, rfl⟩, ?_, rfl⟩
  exact (existsPath_err s.disk (finalPathFor id) hprobe).symm

/-- An acknowledged `Put`: the probe found something and nothing was done, or the
full way was gone. -/
theorem put_cases (h : (put sha256 id data uuid).Runs (probeSem probe) s (.ok ()) t) :
    sha256 data = id.digest ∧ (t = s ∨ ((probe = .ok → s.disk.node (finalPathFor id) = none) ∧
      (putNew id data uuid).Runs (probeSem probe) s (.ok ()) t)) := by
  unfold put at h
  split at h
  · cases h.1
  · rename_i hsha
    refine ⟨by simpa using hsha, ?_⟩
    obtain ⟨found, u, hexists, h⟩ := Prog.runs_bind.mp (Prog.runs_guarded.mp h)
    obtain ⟨rfl, hfound⟩ := runs_existsChunk_probe hexists
    cases found with
    | true => exact .inl h.2
    | false =>
      refine .inr ⟨fun hok => ?_, h⟩
      subst hok
      simpa [Disk.existsPath] using hfound.symm

/-- Two counters that are right stay right when both grow by the same. -/
theorem countersMatch_of_putNew {s : Store} (hmatch : CountersMatch s)
    (hnone : s.disk.contents (finalPathFor id) = none)
    (h : (putNew id data uuid).Runs (probeSem probe) s (.ok ()) t) : CountersMatch t := by
  intro x
  have hzero : weight x (finalPathFor id) (s.disk.node (finalPathFor id)) = 0 := by
    unfold Disk.contents at hnone
    split at hnone
    · cases hnone
    · cases hn : s.disk.node (finalPathFor id) with
      | none => rfl
      | some n =>
        cases n with
        | dir => rfl
        | file b dirty => simp_all
  have htotal := putNew_total (runs_anyFault h) x
  rw [hzero, Nat.add_zero] at htotal
  rw [(putNew_counted (runs_anyFault h)).counter x, htotal, hmatch x, Nat.mod_add_mod]

/-- Where a chunk was renamed over another, it is counted twice. -/
theorem not_countersMatch_of_putNew {s : Store} (hmatch : CountersMatch s)
    (hfile : s.disk.contents (finalPathFor id) ≠ none)
    (h : (putNew id data uuid).Runs (probeSem probe) s (.ok ()) t) : ¬ CountersMatch t := by
  intro hmatch'
  obtain ⟨b, dirty, hn⟩ := node_of_contents hfile
  have htotal := putNew_total (runs_anyFault h) .chunkCount
  have hcounter := (putNew_counted (runs_anyFault h)).counter .chunkCount
  rw [hn, weight_final] at htotal
  rw [hmatch' .chunkCount, hmatch .chunkCount] at hcounter
  simp only [Counter.ofSize] at htotal hcounter
  omega

theorem putHonest_iff (htree : s.disk.IsTree) (hmatch : CountersMatch s) :
    PutHonest sha256 probe id data uuid s ↔
      probe = .ok ∨ s.disk.contents (finalPathFor id) = none ∨ sha256 data ≠ id.digest ∨
        s.disk.node (tmpPathFor id uuid) = some .dir := by
  constructor
  · intro h
    by_contra hbad
    simp only [not_or, not_not] at hbad
    obtain ⟨hprobe, hfile, hsha, htmp⟩ := hbad
    have hrun := runs_restOk probe (putNew id data uuid) s
    rw [run_putNew_ok htree hfile htmp] at hrun
    exact not_countersMatch_of_putNew hmatch hfile hrun (h _ (runs_put_err hprobe hsha hrun))
  · intro h t hrun
    obtain ⟨hsha, rfl | ⟨hnone, hnew⟩⟩ := put_cases hrun
    · exact hmatch
    · rcases h with hprobe | hnone | hbad | htmp
      · exact countersMatch_of_putNew hmatch (by rw [Disk.contents, hnone hprobe]) hnew
      · exact countersMatch_of_putNew hmatch hnone hnew
      · exact absurd hsha hbad
      · exact absurd (runs_anyFault hnew) (not_runs_putNew_of_dir htmp)

/-- **A probe that errs is mistaken for absence.** On a tree with right counters,
with the outcome of the probe given and any outcome of the other calls: `Delete`
and `Put` keep their word if and only if the probe does not err or no file is at
the final path. `Put` also keeps it where the data is wrong, or where a directory
has the temporary name, because it then fails. -/
theorem probe_honest_iff (sha256 : Bytes → Digest) (probe : Outcome) (id : ChunkId) (data : Bytes)
    (uuid : UuidV4) (htree : s.disk.IsTree) (hmatch : CountersMatch s) :
    (DeleteHonest probe id s ∧ PutHonest sha256 probe id data uuid s ↔
      probe = .ok ∨ s.disk.contents (finalPathFor id) = none) ∧
    (DeleteHonest probe id s ↔ probe = .ok ∨ s.disk.contents (finalPathFor id) = none) ∧
    (PutHonest sha256 probe id data uuid s ↔
      probe = .ok ∨ s.disk.contents (finalPathFor id) = none ∨ sha256 data ≠ id.digest ∨
        s.disk.node (tmpPathFor id uuid) = some .dir) := by
  have hdelete : DeleteHonest probe id s ↔ _ := deleteHonest_iff
  have hput : PutHonest sha256 probe id data uuid s ↔ _ := putHonest_iff htree hmatch
  refine ⟨⟨fun h => hdelete.mp h.1, fun h => ⟨hdelete.mpr h, hput.mpr ?_⟩⟩, hdelete, hput⟩
  exact h.imp_right .inl

end Probe

/-! ## A store with one chunk -/

theorem isTree_abcStore : abcStore.disk.IsTree := by
  have hrun := runs_noFault_iff.mpr
    (Prod.eta (execute (put knownSha256 .ofAbc abcBytes default) Store.empty)).symm
  refine hrun.keeps (I := fun s => s.disk.IsTree) (fun c s r t hs hc => ?_)
    Disk.isEmpty_empty.isTree
  obtain ⟨oc, -, -, rfl⟩ := hc.outcome
  exact c.exec_isTree oc hs

theorem countersMatch_abcStore : CountersMatch abcStore := by
  intro x
  cases x <;> rfl

theorem probe_honest_iff_abc :
    DeleteHonest .ok .ofAbc abcStore ∧ PutHonest knownSha256 .ok .ofAbc abcBytes default abcStore := by
  have hiff := probe_honest_iff knownSha256 .ok .ofAbc abcBytes default isTree_abcStore
    countersMatch_abcStore
  exact hiff.1.mpr (.inl rfl)

/-- The chunk cannot be looked at: its `Delete` is acknowledged and it stays, its
`Put` is acknowledged and it is counted twice. -/
theorem not_probe_honest_abc :
    abcStore.disk.IsTree ∧ CountersMatch abcStore ∧
    ¬ DeleteHonest (.fail "Permission denied") .ofAbc abcStore ∧
    ¬ PutHonest knownSha256 (.fail "Permission denied") .ofAbc abcBytes default abcStore := by
  have hfile : abcStore.disk.contents (finalPathFor .ofAbc) ≠ none := by
    rw [show abcStore.disk.contents (finalPathFor .ofAbc) = some abcBytes from rfl]
    simp
  have htmp : abcStore.disk.node (tmpPathFor .ofAbc default) ≠ some .dir := by
    rw [show abcStore.disk.node (tmpPathFor .ofAbc default) = none from rfl]
    simp
  refine ⟨isTree_abcStore, countersMatch_abcStore, fun h => ?_, fun h => ?_⟩
  · rcases deleteHonest_iff.mp h with hok | hnone
    · cases hok
    · exact hfile hnone
  · rcases (putHonest_iff isTree_abcStore countersMatch_abcStore).mp h with hok | hnone | hsha | hdir
    · cases hok
    · exact hfile hnone
    · exact hsha rfl
    · exact htmp hdir

end NimbusFs.StorageNode
