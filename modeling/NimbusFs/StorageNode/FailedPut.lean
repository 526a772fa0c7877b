import NimbusFs.StorageNode.AnyDisk
import NimbusFs.StorageNode.Footprint

/-! # A `Put` that fails

`Put` has six ways to return an error, each after other calls. All of them leave
the counters and the files of the store as they were. What may stay behind is
the temporary file, and it does exactly when the call that should remove it went
wrong: a log of the calls goes along to tell. -/
namespace NimbusFs.StorageNode

open NimbusFs.Common Lib

/-! ## The file at a path -/

section Files

variable {d : Disk} {q : Path}

theorem contents_ne_none {b : Bytes} {dirty : Bool} (h : d.node q = some (.file b dirty)) :
    d.contents q ≠ none := by
  rw [Disk.contents, h]
  exact Option.some_ne_none b

theorem node_of_contents (h : d.contents q ≠ none) :
    ∃ b dirty, d.node q = some (.file b dirty) := by
  unfold Disk.contents at h
  split at h
  · exact ⟨_, _, by assumption⟩
  · exact absurd rfl h

/-- A probe that gives a size has found a file of that size. -/
theorem fileSize_found {d : Disk} {p : Path} {oc : Outcome} {size : Nat}
    (h : d.fileSize p oc = .ok size) : ∃ b dirty, d.node p = some (.file b dirty) ∧ b.length = size := by
  cases oc with
  | ok =>
    simp only [Disk.fileSize] at h
    split at h
    · exact ⟨_, _, by assumption, Except.ok.inj h⟩
    · cases h
    · cases h
  | fail m => cases h
  | short m n => cases h

/-- Where opening a file to write fails, nothing has changed. -/
theorem internalOpen_failed {oc : Outcome}
    (h : (d.internalOpen q .writeCreateTruncate oc).1 = none) :
    (d.internalOpen q .writeCreateTruncate oc).2 = d := by
  cases oc with
  | ok =>
    simp only [Disk.internalOpen] at h ⊢
    split at h
    · cases h
    · rfl
    · split at h
      · cases h
      · rename_i hparent
        rw [if_neg hparent]
  | fail m => rfl
  | short m n => rfl

/-- A write, complete or not, leaves a file. -/
theorem write_file (h : d.contents q ≠ none) (data : Bytes) (oc : Outcome) :
    (d.write q data oc).2.contents q ≠ none := by
  obtain ⟨b, dirty, hn⟩ := node_of_contents h
  have happend : ∀ done, (Disk.write.append d q done).contents q ≠ none := by
    intro done
    simp [Disk.write.append, hn, Disk.contents]
  cases oc with
  | ok => exact happend data
  | fail m => exact h
  | short m n => exact happend (data.take n)

theorem internalFsync_contents (h : d.contents q ≠ none) (oc : Outcome) :
    (d.internalFsync q oc).2.contents q ≠ none := by
  obtain ⟨b, dirty, hn⟩ := node_of_contents h
  cases oc with
  | ok => simp [Disk.internalFsync, hn, Disk.contents]
  | fail m => exact h
  | short m n => exact h

/-- A `rename` that reports an error has done nothing. -/
theorem rename_failed {src dst : Path} {oc : Outcome} {m : String}
    (h : (d.rename src dst oc).1 = some m) : (d.rename src dst oc).2 = d := by
  cases oc with
  | ok =>
    simp only [Disk.rename] at h ⊢
    split at h
    · split at h
      · rename_i hdir; simp [hdir]
      · split at h
        · rename_i hdir hparent; simp [hdir, hparent]
        · cases h
    · rfl
    · rfl
  | fail m => rfl
  | short m n => rfl

/-- A file is still there after a `remove` exactly when that reported an error. -/
theorem remove_file_iff (h : d.contents q ≠ none) (oc : Outcome) :
    (d.remove q oc).2.contents q ≠ none ↔ (d.remove q oc).1.2 ≠ none := by
  obtain ⟨b, dirty, hn⟩ := node_of_contents h
  cases oc with
  | ok => simp [Disk.remove, hn, Disk.contents]
  | fail m => simp [Disk.remove, h]
  | short m n => simp [Disk.remove, h]

end Files

/-! ## What a failed `Put` leaves -/

/-- The `remove` of the temporary file was called and reported an error. -/
def CleanupFailed (tmp : Path) (calls : List (Sigma Call.Ret)) : Prop :=
  ∃ answer : Bool × ErrorCode, ⟨.remove tmp, answer⟩ ∈ calls ∧ answer.2 ≠ none

theorem cleanupFailed_append_remove {tmp : Path} {calls : List (Sigma Call.Ret)}
    {answer : Bool × ErrorCode} (hno : ¬ CleanupFailed tmp calls) :
    CleanupFailed tmp (calls ++ [⟨.remove tmp, answer⟩]) ↔ answer.2 ≠ none := by
  constructor
  · intro h
    obtain ⟨a, hmem, ha⟩ := h
    rcases List.mem_append.mp hmem with hmem | hmem
    · exact absurd ⟨a, hmem, ha⟩ hno
    · cases List.mem_singleton.mp hmem
      exact ha
  · intro ha
    exact ⟨answer, List.mem_append_right _ (List.mem_singleton_self _), ha⟩

/-- No other call is a cleanup. -/
theorem cleanupFailed_append_other {tmp : Path} {calls : List (Sigma Call.Ret)} {c : Call}
    {r : c.Ret} (hc : ∀ p, c ≠ .remove p) :
    CleanupFailed tmp (calls ++ [⟨c, r⟩]) ↔ CleanupFailed tmp calls := by
  constructor
  · intro h
    obtain ⟨a, hmem, ha⟩ := h
    rcases List.mem_append.mp hmem with hmem | hmem
    · exact ⟨a, hmem, ha⟩
    · exact absurd (congrArg Sigma.fst (List.mem_singleton.mp hmem)).symm (hc tmp)
  · intro h
    obtain ⟨a, hmem, ha⟩ := h
    exact ⟨a, List.mem_append_left _ hmem, ha⟩

theorem not_cleanupFailed_append {tmp : Path} {calls : List (Sigma Call.Ret)} {c : Call}
    (hno : ¬ CleanupFailed tmp calls) (r : c.Ret) (hc : ∀ p, c ≠ .remove p) :
    ¬ CleanupFailed tmp (calls ++ [⟨c, r⟩]) :=
  fun h => hno ((cleanupFailed_append_other hc).mp h)

/-- The counters and all other files are as before, and the temporary file is
there if and only if its cleanup failed. -/
structure LeftBehind (tmp : Path) (s t : Store) (calls : List (Sigma Call.Ret)) : Prop where
  counter : t.counter = s.counter
  others : Touches (· = tmp) s.disk t.disk
  left : t.disk.contents tmp ≠ none ↔ CleanupFailed tmp calls

/-- Steps before it that kept the counters and the other files do not matter. -/
theorem LeftBehind.before {tmp : Path} {s u t : Store} {calls : List (Sigma Call.Ret)}
    (h : LeftBehind tmp u t calls) (hcounter : u.counter = s.counter)
    (hfiles : Touches (· = tmp) s.disk u.disk) : LeftBehind tmp s t calls :=
  ⟨h.counter.trans hcounter, hfiles.trans h.others, h.left⟩

section Put

variable {sha256 : Bytes → Digest} {pol : Policy} {id : ChunkId} {data : Bytes} {uuid : UuidV4}
variable {s t : Store} {tmp : Path} {calls calls' : List (Sigma Call.Ret)}
variable {e : ChunkStoreErrorDetail}

/-- A call with its outcome, in a log. -/
theorem logged_outcome {c : Call} {x y : Store × List (Sigma Call.Ret)} {r : c.Ret}
    (h : Prog.logged pol.sem c x r y) :
    ∃ oc, r = (c.exec oc x.1).1 ∧ y = ((c.exec oc x.1).2, x.2 ++ [⟨c, r⟩]) := by
  obtain ⟨hsem, hlog⟩ := h
  obtain ⟨oc, -, hr, hy⟩ := hsem.outcome
  exact ⟨oc, hr, Prod.ext hy hlog⟩

/-- The `remove` of every cleanup. -/
theorem leftBehind_remove (hfile : s.disk.contents tmp ≠ none) (hno : ¬ CleanupFailed tmp calls)
    (oc : Outcome) : LeftBehind tmp s ((Call.remove tmp).exec oc s).2
      (calls ++ [⟨.remove tmp, ((Call.remove tmp).exec oc s).1⟩]) := by
  refine ⟨rfl, touches_remove tmp oc, ?_⟩
  rw [cleanupFailed_append_remove hno]
  exact remove_file_iff hfile oc

theorem putAbandon_leftBehind {m : String} {r : Result Unit} (hfile : s.disk.contents tmp ≠ none)
    (hno : ¬ CleanupFailed tmp calls)
    (h : (putAbandon tmp m).Runs (Prog.logged pol.sem) (s, calls) r (t, calls')) :
    LeftBehind tmp s t calls' := by
  obtain ⟨_, _, hremove, _, _, hclose, _, ht⟩ := h
  obtain ⟨oc, rfl, rfl⟩ := logged_outcome hremove
  obtain ⟨_, rfl, rfl⟩ := logged_outcome hclose
  cases ht
  have hleft := leftBehind_remove hfile hno oc
  exact ⟨hleft.counter, hleft.others,
    hleft.left.trans (cleanupFailed_append_other (by simp)).symm⟩

/-- After the rename a `Put` does not fail any more. -/
theorem not_runs_putFinish_error {x y : Store × List (Sigma Call.Ret)} :
    ¬ (putFinish id data).Runs (Prog.logged pol.sem) x (.error e) y := by
  intro h
  obtain ⟨fd, _, _, h⟩ := h
  cases fd with
  | none =>
    obtain ⟨_, _, _, _, _, _, hr, _⟩ := h
    cases hr
  | some fd =>
    obtain ⟨_, _, _, _, _, _, _, _, _, _, _, _, hr, _⟩ := h
    cases hr

theorem putRename_leftBehind (hfile : s.disk.contents tmp ≠ none) (hno : ¬ CleanupFailed tmp calls)
    (h : (putRename id data tmp).Runs (Prog.logged pol.sem) (s, calls) (.error e) (t, calls')) :
    LeftBehind tmp s t calls' := by
  obtain ⟨ec, _, hrename, h⟩ := h
  obtain ⟨oc, hec, rfl⟩ := logged_outcome hrename
  cases ec with
  | none => exact absurd h not_runs_putFinish_error
  | some m =>
    obtain ⟨_, _, hremove, _, ht⟩ := h
    obtain ⟨oc', rfl, rfl⟩ := logged_outcome hremove
    cases ht
    have hsame : ((Call.rename tmp (finalPathFor id)).exec oc s).2 = s := by
      show (⟨(s.disk.rename tmp (finalPathFor id) oc).2, s.counter⟩ : Store) = s
      rw [rename_failed hec.symm]
    rw [hsame]
    exact leftBehind_remove hfile (not_cleanupFailed_append hno _ (by simp)) oc'

theorem putFsync_leftBehind (hfile : s.disk.contents tmp ≠ none) (hno : ¬ CleanupFailed tmp calls)
    (h : (putFsync id data tmp).Runs (Prog.logged pol.sem) (s, calls) (.error e) (t, calls')) :
    LeftBehind tmp s t calls' := by
  rw [putFsync, Prog.perform_bind] at h
  obtain ⟨synced, _, hsync, h⟩ := h
  obtain ⟨oc, -, rfl⟩ := logged_outcome hsync
  have hstill := internalFsync_contents hfile oc
  have hothers := touches_internalFsync (d := s.disk) tmp oc
  have hno₁ := not_cleanupFailed_append (c := .internalFsync tmp) hno synced (by simp)
  dsimp only at h
  split at h
  · obtain ⟨_, _, hclose, h⟩ := h
    obtain ⟨_, -, rfl⟩ := logged_outcome hclose
    have hno₂ := not_cleanupFailed_append (c := .close tmp) hno₁ () (by simp)
    exact (putRename_leftBehind hstill hno₂ h).before rfl hothers
  · exact (putAbandon_leftBehind hstill hno₁ h).before rfl hothers

theorem putWrite_leftBehind (hfile : s.disk.contents tmp ≠ none) (hno : ¬ CleanupFailed tmp calls)
    (h : (putWrite id data tmp).Runs (Prog.logged pol.sem) (s, calls) (.error e) (t, calls')) :
    LeftBehind tmp s t calls' := by
  unfold putWrite at h
  split at h
  · exact putFsync_leftBehind hfile hno h
  · rw [Prog.perform_bind] at h
    obtain ⟨written, _, hwrite, h⟩ := h
    obtain ⟨oc, -, rfl⟩ := logged_outcome hwrite
    have hstill := write_file hfile data oc
    have hothers := touches_write (d := s.disk) tmp data oc
    have hno₁ := not_cleanupFailed_append (c := .write tmp data) hno written (by simp)
    dsimp only at h
    split at h
    · exact (putFsync_leftBehind hstill hno₁ h).before rfl hothers
    · exact (putAbandon_leftBehind hstill hno₁ h).before rfl hothers

/-- Where nothing was at the temporary path and nothing was put there. -/
theorem leftBehind_nothing (hfresh : t.disk.contents tmp = none) (hcounter : t.counter = s.counter)
    (hfiles : Touches (· = tmp) s.disk t.disk) (hno : ¬ CleanupFailed tmp calls) :
    LeftBehind tmp s t calls :=
  ⟨hcounter, hfiles, fun h => absurd hfresh h, fun h => absurd h hno⟩

theorem putNew_leftBehind (hfresh : s.disk.contents (tmpPathFor id uuid) = none)
    (hno : ¬ CleanupFailed (tmpPathFor id uuid) calls)
    (h : (putNew id data uuid).Runs (Prog.logged pol.sem) (s, calls) (.error e) (t, calls')) :
    LeftBehind (tmpPathFor id uuid) s t calls' := by
  obtain ⟨ec, _, hmkdir, h⟩ := h
  obtain ⟨oc, -, rfl⟩ := logged_outcome hmkdir
  have hmade : ∀ own, Touches own s.disk (s.disk.createDirectories (shardDirFor id) oc).2 :=
    fun own => touches_createDirectories (by rfl) oc
  have hstill := ((hmade fun _ => False).contents not_false).trans hfresh
  have hno₁ := not_cleanupFailed_append (c := .createDirectories (shardDirFor id)) hno ec (by simp)
  cases ec with
  | some m =>
    cases h.2
    exact leftBehind_nothing hstill rfl (hmade _) hno₁
  | none =>
    obtain ⟨fd, _, hopen, h⟩ := h
    obtain ⟨oc', hfd, rfl⟩ := logged_outcome hopen
    have hno₂ := not_cleanupFailed_append
      (c := .internalOpen (tmpPathFor id uuid) .writeCreateTruncate) hno₁ fd (by simp)
    have hbefore := (hmade (· = tmpPathFor id uuid)).trans
      (touches_internalOpen (tmpPathFor id uuid) .writeCreateTruncate oc')
    cases fd with
    | none =>
      cases h.2
      have hsame := congrArg (Disk.contents · (tmpPathFor id uuid)) (internalOpen_failed hfd.symm)
      exact leftBehind_nothing (hsame.trans hstill) rfl hbefore hno₂
    | some fd =>
      obtain ⟨rfl, hnode⟩ := internalOpen_created hfd.symm
      exact (putWrite_leftBehind (contents_ne_none hnode) hno₂ h).before rfl hbefore

theorem put_leftBehind (hfresh : s.disk.contents (tmpPathFor id uuid) = none)
    (h : (put sha256 id data uuid).Runs (Prog.logged pol.sem) (s, []) (.error e) (t, calls)) :
    LeftBehind (tmpPathFor id uuid) s t calls := by
  have hno : ¬ CleanupFailed (tmpPathFor id uuid) [] := by simp [CleanupFailed]
  unfold put at h
  split at h
  · cases h.2
    exact leftBehind_nothing hfresh rfl (.refl _ _) hno
  · obtain ⟨found, _, hexists, h⟩ := Prog.runs_bind.mp (Prog.runs_guarded.mp h)
    obtain ⟨answer, _, hprobe, rfl, rfl⟩ := Prog.runs_guarded.mp hexists
    obtain ⟨oc, -, rfl⟩ := logged_outcome hprobe
    have hno₁ := not_cleanupFailed_append (c := .existsPath (finalPathFor id)) hno answer (by simp)
    dsimp only at h
    split at h
    · cases h.1
    · exact putNew_leftBehind hfresh hno₁ h

/-- **A failed `Put` leaves the store as it was.** On any disk, with any faults and
a temporary name that is not taken: both counters and all files are as before, and
no file is new, but for the temporary file where its cleanup failed. -/
theorem put_error_unchanged (hfresh : s.disk.node (tmpPathFor id uuid) = none)
    (h : (put sha256 id data uuid).Runs (Prog.logged pol.sem) (s, []) (.error e) (t, calls)) :
    t.counter = s.counter ∧
    (∀ p b, s.disk.contents p = some b → t.disk.contents p = some b) ∧
    (¬ CleanupFailed (tmpPathFor id uuid) calls →
      ∀ p, t.disk.contents p ≠ none → s.disk.contents p ≠ none) ∧
    (CleanupFailed (tmpPathFor id uuid) calls →
      ∀ p, (t.disk.contents p ≠ none ∧ s.disk.contents p = none) ↔ p = tmpPathFor id uuid) := by
  have hnone : s.disk.contents (tmpPathFor id uuid) = none := by rw [Disk.contents, hfresh]
  obtain ⟨hcounter, hothers, hleft⟩ := put_leftBehind hnone h
  refine ⟨hcounter, fun p b hb => ?_, fun hno p hp => ?_, fun hc p => ⟨fun hp => ?_, ?_⟩⟩
  · have hne : p ≠ tmpPathFor id uuid := fun heq => by
      rw [heq, hnone] at hb
      cases hb
    rw [hothers.contents hne, hb]
  · have hne : p ≠ tmpPathFor id uuid := fun heq => hno (hleft.mp (heq ▸ hp))
    rwa [hothers.contents hne] at hp
  · by_contra hne
    exact hp.1 ((hothers.contents hne).trans hp.2)
  · intro heq
    rw [heq]
    exact ⟨hleft.mpr hc, hnone⟩

end Put

/-- A disk that cuts every write short and removes nothing. -/
def fullDisk : Call → Outcome
  | .write _ _ => .short "No space left on device" 2
  | .remove _ => .fail "Input/output error"
  | _ => .ok

/-- The file cut short, and its cleanup failed: it is the one new file. -/
theorem put_error_unchanged_full_disk :
    ∃ t calls, (put knownSha256 .ofAbc abcBytes default).Runs (Prog.logged Policy.anyFault.sem)
        (Store.empty, []) (ioError "Failed to write chunk data") (t, calls) ∧
      CleanupFailed (tmpPathFor .ofAbc default) calls ∧
      ∀ p, (t.disk.contents p ≠ none ∧ Store.empty.disk.contents p = none) ↔
        p = tmpPathFor .ofAbc default := by
  let step (c : Call) (x : Store × List (Sigma Call.Ret)) : c.Ret × Store × List (Sigma Call.Ret) :=
    ((c.exec (fullDisk c) x.1).1, (c.exec (fullDisk c) x.1).2,
      x.2 ++ [⟨c, (c.exec (fullDisk c) x.1).1⟩])
  let done := (put knownSha256 .ofAbc abcBytes default).run step (Store.empty, [])
  have hstep : ∀ c x, Prog.logged Policy.anyFault.sem c x (step c x).1 (step c x).2 := by
    intro c x
    have hallows : Policy.anyFault.allows c (fullDisk c) :=
      .inr (by cases c <;> rfl)
    exact ⟨⟨fullDisk c, hallows, rfl⟩, rfl⟩
  have hruns := Prog.runs_run hstep (put knownSha256 .ofAbc abcBytes default) (Store.empty, [])
  have hresult : done.1 = ioError "Failed to write chunk data" := rfl
  have hcleanup : CleanupFailed (tmpPathFor .ofAbc default) done.2.2 := by
    refine ⟨(false, some "Input/output error"), ?_, by simp⟩
    exact .tail _ (.tail _ (.tail _ (.tail _ (.head _))))
  have hrun : (put knownSha256 .ofAbc abcBytes default).Runs (Prog.logged Policy.anyFault.sem)
      (Store.empty, []) (ioError "Failed to write chunk data") (done.2.1, done.2.2) := by
    rw [← hresult]
    exact hruns
  refine ⟨done.2.1, done.2.2, hrun, hcleanup, ?_⟩
  exact (put_error_unchanged (Disk.node_empty _) hrun).2.2.2 hcleanup

end NimbusFs.StorageNode
