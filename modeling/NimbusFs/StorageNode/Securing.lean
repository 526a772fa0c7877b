import NimbusFs.Lib.Tracked
import NimbusFs.StorageNode.Recovery
import NimbusFs.StorageNode.Temporaries

/-! # Chunks that are there for good

An entry of a directory survives the loss of power once the directory was synced. `Put`
renames its file and syncs the shard directory, all under the lock of the chunk. So
whoever takes the lock finds that a chunk that is there is there for good, and so does a
`Put` that finds its chunk and leaves it at that. -/
namespace NimbusFs.StorageNode

open NimbusFs.Common Lib

/-! ## Directories that can be synced -/

/-- Opening a directory, or syncing one. The files lie on the third level. -/
def Call.syncsDirectory : Call → Bool
  | .internalOpen _ .directory => true
  | .internalFsync fd => fd.length ≤ 2
  | _ => false

/-- The calls under a policy, where directories can always be opened and synced: `Put`
does not look at what becomes of that. -/
def Policy.syncedSem (pol : Policy) (c : Call) (s : Store) (r : c.Ret) (s' : Store) : Prop :=
  ∃ o, pol.allows c o ∧ (c.syncsDirectory = true → o = .ok) ∧ c.exec o s = (r, s')

theorem Policy.syncedSem.sem {pol : Policy} {c : Call} {s s' : Store} {r : c.Ret}
    (h : pol.syncedSem c s r s') : pol.sem c s r s' := by
  obtain ⟨o, ha, _, he⟩ := h
  exact ⟨o, ha, he⟩

theorem Policy.syncedSem.outcome {pol : Policy} {c : Call} {s s' : Store} {r : c.Ret}
    (h : pol.syncedSem c s r s') : ∃ o, pol.allows c o ∧ (c.syncsDirectory = true → o = .ok) ∧
      r = (c.exec o s).1 ∧ s' = (c.exec o s).2 := by
  obtain ⟨o, ha, hsync, he⟩ := h
  exact ⟨o, ha, hsync, by rw [he], by rw [he]⟩

/-! ## What is there for good -/

/-- The chunk is stored, and its directory was synced since. -/
def Secured (id : ChunkId) (d : Disk) : Prop :=
  d.node (finalPathFor id) ≠ none ∧ d.durable (finalPathFor id) = true

/-- The directories above the chunk are there, and survive. -/
def Rooted (id : ChunkId) (d : Disk) : Prop :=
  ∀ q, q <+: shardDirFor id → d.node q = some .dir ∧ d.durable q = true

section Spares

variable {id id' : ChunkId} {d d' d'' : Disk}

/-- `d'` differs from `d` in the files of one chunk, in new directories, and in more
that is durable. -/
structure Spares (id : ChunkId) (d d' : Disk) : Prop where
  dirs : ∀ q, q.length ≤ 2 → d.node q = some .dir → d.durable q = true →
    d'.node q = some .dir ∧ d'.durable q = true
  files : ∀ p, 2 < p.length → ¬ Belongs id p →
    d'.node p = d.node p ∧ (d.durable p = true → d'.durable p = true)

theorem Spares.refl (id : ChunkId) (d : Disk) : Spares id d d :=
  ⟨fun _ _ hn hd => ⟨hn, hd⟩, fun _ _ _ => ⟨rfl, fun h => h⟩⟩

theorem Spares.trans (h : Spares id d d') (h' : Spares id d' d'') : Spares id d d'' := by
  refine ⟨fun q hq hn hd => ?_, fun p hp hb => ?_⟩
  · obtain ⟨hn', hd'⟩ := h.dirs q hq hn hd
    exact h'.dirs q hq hn' hd'
  · obtain ⟨hn, hd⟩ := h.files p hp hb
    obtain ⟨hn', hd'⟩ := h'.files p hp hb
    exact ⟨hn'.trans hn, fun hdur => hd' (hd hdur)⟩

theorem Spares.rooted (h : Spares id' d d') (hroot : Rooted id d) : Rooted id d' :=
  fun q hq => h.dirs q (hq.length_le.trans (shardDirFor_length id).le) (hroot q hq).1 (hroot q hq).2

/-- A step that changes nothing but the entries of the chunk. -/
theorem Spares.of_belongs
    (h : ∀ p, ¬ Belongs id p → d'.node p = d.node p ∧ d'.durable p = d.durable p) :
    Spares id d d' := by
  refine ⟨fun q hq hn hd => ?_, fun p _ hb => ?_⟩
  · obtain ⟨hn', hd'⟩ := h q fun hb => by rw [hb.length] at hq; omega
    exact ⟨hn'.trans hn, hd'.trans hd⟩
  · obtain ⟨hn', hd'⟩ := h p hb
    exact ⟨hn', fun hdur => hd'.trans hdur⟩

theorem spares_setNode {p : Path} (hp : Belongs id p) (n : Node) : Spares id d (d.setNode p n) :=
  .of_belongs fun q hq => by
    have hne : q ≠ p := fun h => hq (h ▸ hp)
    exact ⟨by simp [hne], rfl⟩

theorem spares_addEntry {p : Path} (hp : Belongs id p) (n : Node) : Spares id d (d.addEntry p n) :=
  .of_belongs fun q hq => by
    have hne : q ≠ p := fun h => hq (h ▸ hp)
    exact ⟨by simp [hne], by simp [Disk.durable_addEntry, hne]⟩

theorem spares_removeEntry {p : Path} (hp : Belongs id p) : Spares id d (d.removeEntry p) :=
  .of_belongs fun q hq => by
    have hne : q ≠ p := fun h => hq (h ▸ hp)
    exact ⟨by simp [hne], rfl⟩

theorem spares_mkdirs (id : ChunkId) {ps : List Path} (hps : ∀ p ∈ ps, p.length ≤ 2) :
    Spares id d (d.mkdirs ps) := by
  refine ⟨fun q _ hn hd => ?_, fun p hp _ => ?_⟩
  · rw [Disk.node_mkdirs, Disk.durable_mkdirs]
    simp [hn, hd]
  · have hnot : p ∉ ps := fun hmem => by have := hps p hmem; omega
    rw [Disk.node_mkdirs, Disk.durable_mkdirs]
    simp [hnot]

theorem spares_createDirectories (id : ChunkId) (oc : Outcome) :
    Spares id d (d.createDirectories (shardDirFor id) oc).2 := by
  have hlen : ∀ p ∈ (shardDirFor id).inits, p.length ≤ 2 := fun p hp =>
    (inits_length_le hp).trans (shardDirFor_length id).le
  cases oc with
  | ok =>
    simp only [Disk.createDirectories]
    split
    · exact .refl id d
    · exact spares_mkdirs id hlen
  | fail m => exact .refl id d
  | short m n =>
    simp only [Disk.createDirectories]
    split
    · exact .refl id d
    · exact spares_mkdirs id fun p hp => hlen p (List.mem_of_mem_take hp)

theorem spares_internalOpen {p : Path} (hp : Belongs id p) (mode : Disk.OpenMode) (oc : Outcome) :
    Spares id d (d.internalOpen p mode oc).2 := by
  unfold Disk.internalOpen
  split
  · split
    · exact spares_setNode hp _
    · exact .refl id d
    · split
      · exact spares_addEntry hp _
      · exact .refl id d
  · exact .refl id d
  · exact .refl id d
  · exact .refl id d

theorem spares_write {p : Path} (hp : Belongs id p) (data : Bytes) (oc : Outcome) :
    Spares id d (d.write p data oc).2 := by
  have happend : ∀ done, Spares id d (Disk.write.append d p done) := by
    intro done
    unfold Disk.write.append
    split
    · exact spares_setNode hp _
    · exact .refl id d
  cases oc with
  | ok => exact happend data
  | fail m => exact .refl id d
  | short m n => exact happend (data.take n)

/-- Syncing a file of the chunk, or a directory. -/
theorem spares_internalFsync {p : Path} (hp : Belongs id p ∨ p.length ≤ 2) (oc : Outcome) :
    Spares id d (d.internalFsync p oc).2 := by
  cases oc with
  | ok =>
    simp only [Disk.internalFsync]
    split
    · rename_i b dirty hfile
      refine ⟨fun q _ hn hd => ⟨?_, hd⟩, fun q hq hb => ⟨?_, fun h => h⟩⟩
      · have hne : q ≠ p := fun h => by rw [h, hfile] at hn; cases hn
        simp [hne, hn]
      · have hne : q ≠ p := by
          rintro rfl
          rcases hp with hp | hp
          · exact hb hp
          · omega
        simp [hne]
    · exact ⟨fun q _ hn hd => ⟨hn, by simp [hd]⟩, fun q _ _ => ⟨rfl, fun h => by simp [h]⟩⟩
    · exact .refl id d
  | fail m => exact .refl id d
  | short m n => exact .refl id d

theorem spares_rename {src dst : Path} (hsrc : Belongs id src) (hdst : Belongs id dst)
    (oc : Outcome) : Spares id d (d.rename src dst oc).2 := by
  cases oc with
  | ok =>
    simp only [Disk.rename]
    split
    · split
      · exact .refl id d
      · split
        · exact .refl id d
        · exact ((spares_removeEntry hsrc).trans (spares_removeEntry hdst)).trans
            (spares_addEntry hdst _)
    · exact .refl id d
    · exact .refl id d
  | fail m => exact .refl id d
  | short m n => exact .refl id d

theorem spares_remove {p : Path} (hp : Belongs id p) (oc : Outcome) :
    Spares id d (d.remove p oc).2 := by
  cases oc with
  | ok =>
    simp only [Disk.remove]
    split
    · exact .refl id d
    · exact spares_removeEntry hp
    · split
      · exact .refl id d
      · exact spares_removeEntry hp
  | fail m => exact .refl id d
  | short m n => exact .refl id d

/-- What the calls of an update spare, whatever becomes of them. -/
theorem TouchesChunk.spares {c : Call} (hc : TouchesChunk id c) (oc : Outcome) (s : Store) :
    Spares id s.disk (c.exec oc s).2.disk := by
  cases hc with
  | existsPath => exact .refl id _
  | fileSize => exact .refl id _
  | createDirectories => exact spares_createDirectories id oc
  | openTmp u => exact spares_internalOpen (belongs_tmpPathFor id u) _ oc
  | writeTmp u data => exact spares_write (belongs_tmpPathFor id u) data oc
  | fsyncTmp u => exact spares_internalFsync (.inl (belongs_tmpPathFor id u)) oc
  | renameTmp u => exact spares_rename (belongs_tmpPathFor id u) (belongs_finalPathFor id) oc
  | removeTmp u => exact spares_remove (belongs_tmpPathFor id u) oc
  | removeFinal => exact spares_remove (belongs_finalPathFor id) oc
  | openDir => cases oc <;> exact .refl id _
  | fsyncDir => exact spares_internalFsync (.inr (shardDirFor_length id).le) oc
  | close fd => exact .refl id _
  | fetchAdd c n => exact .refl id _
  | fetchSub c n => exact .refl id _

end Spares

/-! ## The protocol -/

section Protocol

variable {id id' : ChunkId} {d d' d'' : Disk} {keep : Bool} {x y : Store × Unit}

/-- The entries of the chunk are the same, and its final path is no less durable. -/
def SameFiles (id : ChunkId) (d d' : Disk) : Prop :=
  (∀ p, Belongs id p → d'.node p = d.node p) ∧
    (d.durable (finalPathFor id) = true → d'.durable (finalPathFor id) = true)

theorem SameFiles.refl (id : ChunkId) (d : Disk) : SameFiles id d d := ⟨fun _ _ => rfl, fun h => h⟩

theorem SameFiles.trans (h : SameFiles id d d') (h' : SameFiles id d' d'') : SameFiles id d d'' :=
  ⟨fun p hp => (h'.1 p hp).trans (h.1 p hp), fun hd => h'.2 (h.2 hd)⟩

theorem SameFiles.node (h : SameFiles id d d') :
    d'.node (finalPathFor id) = d.node (finalPathFor id) :=
  h.1 _ (belongs_finalPathFor id)

theorem SameFiles.secured (h : SameFiles id d d') (hs : Secured id d) : Secured id d' :=
  ⟨h.node ▸ hs.1, h.2 hs.2⟩

theorem Spares.sameFiles (h : Spares id' d d') (hne : id' ≠ id) : SameFiles id d d' := by
  have hfile : ∀ p, Belongs id p →
      d'.node p = d.node p ∧ (d.durable p = true → d'.durable p = true) := fun p hp =>
    h.files p (by rw [hp.length]; omega) fun hp' => hne (hp'.unique hp)
  exact ⟨fun p hp => (hfile p hp).1, (hfile _ (belongs_finalPathFor id)).2⟩

/-- If the chunk is there, it is there for good. -/
def NoneUnsynced (id : ChunkId) (d : Disk) : Prop :=
  d.node (finalPathFor id) ≠ none → d.durable (finalPathFor id) = true

theorem SameFiles.noneUnsynced (h : SameFiles id d d') (hd : NoneUnsynced id d) :
    NoneUnsynced id d' :=
  fun hn => h.2 (hd (h.node ▸ hn))

/-- A chunk is changed under its lock only, and is there for good, if it is there, when
the lock is free. With `keep`, it stays once it is. -/
def securingProtocol (id : ChunkId) (keep : Bool) : LockProtocol (Fin 256) (Store × Unit) where
  inv x := Rooted id x.1.disk
  rely held x y := (held (lockFor id) ≠ 0 → SameFiles id x.1.disk y.1.disk) ∧
    (keep = true → Secured id x.1.disk → Secured id y.1.disk)
  guar held x y := (held (lockFor id) = 0 → SameFiles id x.1.disk y.1.disk) ∧
    (Secured id x.1.disk → Secured id y.1.disk ∨
      (keep = false ∧ y.1.disk.node (finalPathFor id) = none))
  rely_refl _ _ := ⟨fun _ => .refl _ _, fun _ h => h⟩
  rely_trans h₁ h₂ := ⟨fun hheld => (h₁.1 hheld).trans (h₂.1 hheld),
    fun hkeep hs => h₂.2 hkeep (h₁.2 hkeep hs)⟩
  compat := by
    intro h h' x y hdisj _ hg
    refine ⟨fun hheld => hg.1 ((hdisj (lockFor id)).resolve_right hheld), fun hkeep hs => ?_⟩
    rcases hg.2 hs with hs | ⟨hno, _⟩
    · exact hs
    · rw [hkeep] at hno
      cases hno
  lockInv l x := l = lockFor id → NoneUnsynced id x.1.disk
  held_stable := by
    intro h x y l hl hr hx heq
    subst heq
    exact (hr.1 hl).noneUnsynced (hx rfl)
  free_stable := by
    intro h x y l hl _ hg hx heq
    subst heq
    exact (hg.1 hl).noneUnsynced (hx rfl)

theorem securing_guar_refl (held : Fin 256 → Nat) (x : Store × Unit) :
    (securingProtocol id keep).guar held x x :=
  ⟨fun _ => .refl _ _, fun hs => .inl hs⟩

variable {pol : Policy} {α : Type} {held : Fin 256 → Nat}
variable {Q : (Fin 256 → Nat) → α → Store × Unit → Prop}

/-- `LockSim` for the store, about one chunk. -/
abbrev SecuringSim (id : ChunkId) (keep : Bool) (pol : Policy)
    (Q : (Fin 256 → Nat) → α → Store × Unit → Prop) (p : StoreProg α) (held : Fin 256 → Nat)
    (x : Store × Unit) : Prop :=
  LockSim (securingProtocol id keep) pol.syncedSem Q p held x

/-! ## Operations that leave the chunk alone -/

theorem Call.IsRead.exec {c : Call} (hc : c.IsRead) (oc : Outcome) (s : Store) :
    (c.exec oc s).2 = s := by
  have hany : Policy.anyFault.allows c oc := .inr (by simp [Policy.anyFault])
  have hcall : audited .anyFault c ⟨s, fun _ => 0⟩ (c.exec oc s).1
      ⟨(c.exec oc s).2, c.ledger fun _ => 0⟩ := ⟨⟨oc, hany, rfl⟩, rfl⟩
  exact congrArg Audited.store (audited_read c hc _ _ _ hcall)

/-- The calls that only read, and those of an update of another chunk. -/
def Call.Passes (id : ChunkId) (c : Call) : Prop :=
  c.IsRead ∨ ∃ id', id' ≠ id ∧ TouchesChunk id' c

theorem Call.Passes.exec {c : Call} (hc : c.Passes id) (oc : Outcome) (s : Store) :
    SameFiles id s.disk (c.exec oc s).2.disk ∧
      (Rooted id s.disk → Rooted id (c.exec oc s).2.disk) := by
  rcases hc with hread | ⟨id', hne, hc⟩
  · rw [hread.exec]
    exact ⟨.refl _ _, fun h => h⟩
  · exact ⟨(hc.spares oc s).sameFiles hne, (hc.spares oc s).rooted⟩

theorem securing_passes {p : StoreProg α} (hp : p.Uses Call.Answers (Call.Passes id))
    (ho : Orderly true (fun _ => 0) p) : SecuringSim id keep pol NoneHeld p (holding none) x := by
  refine LockSim.of_harmless (fun c s r t h => h.sem.answers) ?_ hp ho fun l hl => absurd rfl hl
  intro c hc held y r s' hroot hs
  obtain ⟨oc, _, _, rfl, rfl⟩ := hs.outcome
  obtain ⟨hsame, hrooted⟩ := hc.exec oc y.1
  exact ⟨(), hrooted hroot, ⟨fun _ => hsame, fun hsec => .inl (hsame.secured hsec)⟩,
    fun l hl heq => hsame.noneUnsynced (hl heq)⟩

end Protocol

/-! ## `Put` of the chunk -/

section Put

variable {id : ChunkId} {keep : Bool} {pol : Policy} {α : Type} {held : Fin 256 → Nat}
variable {x : Store × Unit} {Q : (Fin 256 → Nat) → α → Store × Unit → Prop}
variable {data : Bytes} {u : UuidV4}

/-- A call of an update of the chunk, by the holder of its lock. -/
theorem securing_call {c : Call} {k : c.Ret → StoreProg α} (hc : TouchesChunk id c)
    (hheld : held (lockFor id) ≠ 0)
    (hkeep : ∀ oc s, SameFiles id x.1.disk s.disk → Secured id s.disk →
      Secured id (c.exec oc s).2.disk ∨
        (keep = false ∧ (c.exec oc s).2.disk.node (finalPathFor id) = none))
    (hk : ∀ oc s, pol.allows c oc → (c.syncsDirectory = true → oc = .ok) → Rooted id s.disk →
      SameFiles id x.1.disk s.disk →
      SecuringSim id keep pol Q (k (c.exec oc s).1) held ((c.exec oc s).2, ())) :
    SecuringSim id keep pol Q (.call c k) held x := by
  intro y hr hroot r s' hs
  obtain ⟨oc, ha, hsync, rfl, rfl⟩ := hs.outcome
  have hsame := hr.1 hheld
  exact ⟨(), (hc.spares oc y.1).rooted hroot, ⟨fun hzero => absurd hzero hheld, hkeep oc y.1 hsame⟩,
    hk oc y.1 ha hsync hroot hsame⟩

/-- The chunk is not there, and the call is about temporary files of it. -/
theorem securing_absent {c : Call} {k : c.Ret → StoreProg α} (hc : TouchesChunk id c)
    (htmp : TmpCall id c) (hheld : held (lockFor id) ≠ 0)
    (hx : x.1.disk.node (finalPathFor id) = none)
    (hk : ∀ oc s y, y.1.disk.node (finalPathFor id) = none →
      SecuringSim id keep pol Q (k (c.exec oc s).1) held y) :
    SecuringSim id keep pol Q (.call c k) held x := by
  refine securing_call hc hheld (fun oc s hsame hsec => ?_) fun oc s _ _ _ hsame => hk oc s _ ?_
  · exact absurd (hsame.node.trans hx) hsec.1
  · have hnode : (c.exec oc s).2.disk.node (finalPathFor id) = s.disk.node (finalPathFor id) := by
      refine (htmp.touches oc s).node (fun hown => ?_) (by rw [(belongs_finalPathFor id).length]; omega)
      obtain ⟨v, hv⟩ := hown
      exact finalPathFor_ne_tmpPathFor id id v hv
    exact hnode.trans (hsame.node.trans hx)

/-- The call leaves the disk alone. -/
theorem securing_quiet {c : Call} {k : c.Ret → StoreProg α} (hc : TouchesChunk id c)
    (hdisk : ∀ oc s, (c.exec oc s).2.disk = s.disk) (hheld : held (lockFor id) ≠ 0)
    (hk : ∀ r y, SameFiles id x.1.disk y.1.disk → SecuringSim id keep pol Q (k r) held y) :
    SecuringSim id keep pol Q (.call c k) held x := by
  refine securing_call hc hheld (fun oc s _ hsec => .inl ?_) fun oc s _ _ _ hsame => hk _ _ ?_
  · rw [hdisk]; exact hsec
  · show SameFiles id x.1.disk (c.exec oc s).2.disk
    rw [hdisk]
    exact hsame

/-- What an operation promises where it returns: an acknowledged `Put` has secured its
chunk. -/
def Promise (id : ChunkId) (keep : Bool) (r : Result Unit) (y : Store × Unit) : Prop :=
  keep = true → r = .ok () → Secured id y.1.disk

/-- The locked part is over, and the lock may be released. -/
def PutDone (id : ChunkId) (keep : Bool) (held : Fin 256 → Nat) (r : Result Unit)
    (y : Store × Unit) : Prop :=
  held = mine id ∧ (securingProtocol id keep).lockInv (lockFor id) y ∧ Promise id keep r y

theorem securing_ret_secured {r : Result Unit} (hx : Secured id x.1.disk) :
    SecuringSim id keep pol (PutDone id keep) (.ret r) (mine id) x := by
  intro y hr _
  have hsec := (hr.1 (mine_ne_zero id)).secured hx
  exact ⟨rfl, fun _ _ => hsec.2, fun _ _ => hsec⟩

theorem securing_ret_error {m : String} (hx : x.1.disk.node (finalPathFor id) = none) :
    SecuringSim id keep pol (PutDone id keep) (.ret (ioError m)) (mine id) x := by
  intro y hr _
  have hnone := (hr.1 (mine_ne_zero id)).node.trans hx
  exact ⟨rfl, fun _ hn => absurd hnone hn, fun _ hok => by cases hok⟩

theorem securing_putAbandon {m : String} (hx : x.1.disk.node (finalPathFor id) = none) :
    SecuringSim id keep pol (PutDone id keep) (putAbandon (tmpPathFor id u) m) (mine id) x := by
  refine securing_absent (.removeTmp u) (tmpCall_remove u) (mine_ne_zero id) hx fun _ _ y hy => ?_
  refine securing_absent (.close _) (tmpCall_close _) (mine_ne_zero id) hy fun _ _ z hz => ?_
  exact securing_ret_error hz

/-- Syncing the directory of the chunk takes nothing away. -/
theorem sameFiles_fsyncShard (oc : Outcome) (s : Store) :
    SameFiles id s.disk ((Call.internalFsync (shardDirFor id)).exec oc s).2.disk := by
  cases oc with
  | ok =>
    simp only [Call.exec, Store.withDisk, Disk.internalFsync]
    split
    · refine ⟨fun p hp => ?_, fun h => h⟩
      have hne : p ≠ shardDirFor id := fun heq => by
        have hlen := hp.length
        rw [heq, shardDirFor_length] at hlen
        cases hlen
      simp [hne]
    · exact ⟨fun _ _ => rfl, fun h => by simp [h]⟩
    · exact .refl _ _
  | fail m => exact .refl _ _
  | short m n => exact .refl _ _

/-- Once it is synced, the entry that the rename made is there for good. -/
theorem secured_of_fsync {s : Store} (hroot : Rooted id s.disk)
    (hn : s.disk.node (finalPathFor id) ≠ none) :
    Secured id ((Call.internalFsync (shardDirFor id)).exec .ok s).2.disk := by
  have hne : finalPathFor id ≠ [] := by simp [finalPathFor]
  refine ⟨(sameFiles_fsyncShard .ok s).node ▸ hn, ?_⟩
  simp [Call.exec, Store.withDisk, Disk.internalFsync, (hroot _ (List.prefix_refl _)).1, hne]

theorem securing_putFinish (hx : x.1.disk.node (finalPathFor id) ≠ none) :
    SecuringSim id keep pol (PutDone id keep) (putFinish id data) (mine id) x := by
  have hheld := mine_ne_zero id
  have hopen : ∀ oc s, ((Call.internalOpen (shardDirFor id) .directory).exec oc s).2.disk = s.disk := by
    intro oc s
    cases oc <;> rfl
  refine securing_call .openDir hheld (fun oc s _ hsec => .inl ?_) fun oc s _ hsync hroot hsame => ?_
  · rw [hopen]; exact hsec
  obtain rfl := hsync rfl
  have hfd : ((Call.internalOpen (shardDirFor id) .directory).exec .ok s).1 = some (shardDirFor id) := by
    simp [Call.exec, Store.withDisk, Disk.internalOpen, (hroot _ (List.prefix_refl _)).1]
  rw [hfd]
  have hn : ((Call.internalOpen (shardDirFor id) .directory).exec .ok s).2.disk.node (finalPathFor id) ≠
      none := by
    rw [hopen, hsame.node]
    exact hx
  refine securing_call .fsyncDir hheld (fun oc s _ hsec => .inl ((sameFiles_fsyncShard oc s).secured hsec))
    fun oc s _ hsync hroot hsame => ?_
  obtain rfl := hsync (by simp [Call.syncsDirectory, shardDirFor_length])
  have hsec := secured_of_fsync hroot (hsame.node ▸ hn)
  refine securing_quiet (.fetchAdd _ _) (fun _ _ => rfl) hheld fun _ y hy => ?_
  refine securing_quiet (.fetchAdd _ _) (fun _ _ => rfl) hheld fun _ z hz => ?_
  refine securing_quiet (.close _) (fun _ _ => rfl) hheld fun _ w hw => ?_
  exact securing_ret_secured (((hy.trans hz).trans hw).secured hsec)

/-- A rename that works leaves a file where it was to go. -/
theorem rename_dst {d : Disk} {src dst : Path} {oc : Outcome} (h : (d.rename src dst oc).1 = none) :
    (d.rename src dst oc).2.node dst ≠ none := by
  cases oc with
  | ok =>
    simp only [Disk.rename] at h ⊢
    split at h
    · split at h
      · cases h
      · split at h
        · cases h
        · rename_i hfile hdir
          simp [*]
    · cases h
    · cases h
  | fail m => cases h
  | short m n => cases h

theorem securing_putRename (hx : x.1.disk.node (finalPathFor id) = none) :
    SecuringSim id keep pol (PutDone id keep) (putRename id data (tmpPathFor id u)) (mine id) x := by
  have hheld := mine_ne_zero id
  refine securing_call (.renameTmp u) hheld (fun oc s hsame hsec => ?_) fun oc s _ _ _ hsame => ?_
  · exact absurd (hsame.node.trans hx) hsec.1
  cases hec : ((Call.rename (tmpPathFor id u) (finalPathFor id)).exec oc s).1 with
  | some m =>
    have hdisk : ((Call.rename (tmpPathFor id u) (finalPathFor id)).exec oc s).2.disk = s.disk :=
      rename_failed hec
    refine securing_absent (.removeTmp u) (tmpCall_remove u) hheld ?_ fun _ _ y hy => ?_
    · show ((Call.rename (tmpPathFor id u) (finalPathFor id)).exec oc s).2.disk.node _ = none
      rw [hdisk, hsame.node]
      exact hx
    · exact securing_ret_error hy
  | none => exact securing_putFinish (rename_dst hec)

theorem securing_putFsync (hx : x.1.disk.node (finalPathFor id) = none) :
    SecuringSim id keep pol (PutDone id keep) (putFsync id data (tmpPathFor id u)) (mine id) x := by
  have hheld := mine_ne_zero id
  rw [putFsync, Prog.perform_bind]
  refine securing_absent (.fsyncTmp u) (tmpCall_internalFsync u) hheld hx fun _ _ y hy => ?_
  split
  · exact securing_absent (.close _) (tmpCall_close _) hheld hy fun _ _ z hz => securing_putRename hz
  · exact securing_putAbandon hy

theorem securing_putWrite (hx : x.1.disk.node (finalPathFor id) = none) :
    SecuringSim id keep pol (PutDone id keep) (putWrite id data (tmpPathFor id u)) (mine id) x := by
  unfold putWrite
  split
  · exact securing_putFsync hx
  · rw [Prog.perform_bind]
    refine securing_absent (.writeTmp u data) (tmpCall_write u data) (mine_ne_zero id) hx
      fun _ _ y hy => ?_
    split
    · exact securing_putFsync hy
    · exact securing_putAbandon hy

theorem securing_putNew (hx : x.1.disk.node (finalPathFor id) = none) :
    SecuringSim id keep pol (PutDone id keep) (putNew id data u) (mine id) x := by
  have hheld := mine_ne_zero id
  refine securing_absent .createDirectories tmpCall_createDirectories hheld hx fun oc s y hy => ?_
  cases ((Call.createDirectories (shardDirFor id)).exec oc s).1 with
  | some m => exact securing_ret_error hy
  | none =>
    refine securing_absent (.openTmp u) (tmpCall_internalOpen u _) hheld hy fun oc s z hz => ?_
    cases hfd : ((Call.internalOpen (tmpPathFor id u) .writeCreateTruncate).exec oc s).1 with
    | none => exact securing_ret_error hz
    | some fd =>
      obtain ⟨rfl, _⟩ := internalOpen_created hfd
      exact securing_putWrite hz

/-- `Exists` takes the lock a second time. Its probe is faithful. -/
theorem securing_existsChunk (hprobe : pol.probeFault = false) :
    SecuringSim id keep pol (fun held found y => held = mine id ∧
      found = (x.1.disk.node (finalPathFor id)).isSome ∧ SameFiles id x.1.disk y.1.disk)
      (existsChunk id) (mine id) x := by
  intro y hr _ _
  have hsame := hr.1 (mine_ne_zero id)
  have hne : Function.update (mine id) (lockFor id) (mine id (lockFor id) + 1) (lockFor id) ≠ 0 := by
    simp
  refine securing_call .existsPath hne (fun _ _ _ hsec => .inl hsec) fun oc s ha _ _ hsame' => ?_
  obtain rfl : oc = .ok := by simpa [Policy.allows, Call.isProbe, hprobe] using ha
  intro z hz _
  refine ⟨fun hone => absurd hone (by simp [mine, holding]), ?_⟩
  have hback : Function.update (Function.update (mine id) (lockFor id) (mine id (lockFor id) + 1))
      (lockFor id) (Function.update (mine id) (lockFor id) (mine id (lockFor id) + 1) (lockFor id) - 1) =
      mine id := by simp
  rw [hback]
  have hall := (hsame.trans hsame').trans (hz.1 hne)
  refine fun w hw _ => ⟨rfl, ?_, hall.trans (hw.1 (mine_ne_zero id))⟩
  simp [(hsame.trans hsame').node]

theorem securing_putLocked (hprobe : pol.probeFault = false)
    (hinv : (securingProtocol id keep).lockInv (lockFor id) x) :
    SecuringSim id keep pol (PutDone id keep) (putLocked id data u) (mine id) x := by
  refine LockSim.bind (LockSim.mono ?_ (securing_existsChunk hprobe))
  intro held found y hy
  obtain ⟨rfl, hfound, hsame⟩ := hy
  cases found with
  | true =>
    have hthere : x.1.disk.node (finalPathFor id) ≠ none := Option.isSome_iff_ne_none.mp hfound.symm
    exact securing_ret_secured (hsame.secured ⟨hthere, hinv rfl hthere⟩)
  | false =>
    have hnone : x.1.disk.node (finalPathFor id) = none := by simpa using hfound
    exact securing_putNew (hsame.node.trans hnone)

/-- A `Put` that returns with OK has secured its chunk. -/
theorem securing_put (hprobe : pol.probeFault = false) (sha256 : Bytes → Digest) (id : ChunkId)
    (data : Bytes) (u : UuidV4) :
    SecuringSim id keep pol (fun held r y => NoneHeld held r y ∧ Promise id keep r y)
      (put sha256 id data u) (holding none) x := by
  have hstable : ∀ held (r : Result Unit) y z, (securingProtocol id keep).rely held y z →
      Promise id keep r y → Promise id keep r z :=
    fun _ _ _ _ hr hpromise hkeep hok => hr.2 hkeep (hpromise hkeep hok)
  unfold put
  split
  · exact fun _ _ _ => ⟨fun _ => rfl, fun _ hok => by cases hok⟩
  · exact LockSim.guarded_promise hstable fun y _ hinv => securing_putLocked hprobe hinv

end Put

/-! ## The other operations -/

section Operations

variable {id : ChunkId} {pol : Policy} {x : Store × Unit} {sha256 : Bytes → Digest}

/-- A file is removed, or nothing is. -/
theorem remove_cases (d : Disk) (p : Path) (oc : Outcome) :
    (d.remove p oc).2 = d ∨ (d.remove p oc).2 = d.removeEntry p := by
  cases oc with
  | ok =>
    simp only [Disk.remove]
    split
    · exact .inl rfl
    · exact .inr rfl
    · split
      · exact .inl rfl
      · exact .inr rfl
  | fail m => exact .inl rfl
  | short m n => exact .inl rfl

/-- `Delete` takes the chunk away as a whole. -/
theorem securing_delete (id : ChunkId) :
    SecuringSim id false pol NoneHeld (delete id) (holding none) x := by
  have hheld := mine_ne_zero id
  have hdone : ∀ (r : Result Unit) (y : Store × Unit), NoneUnsynced id y.1.disk →
      SecuringSim id false pol (fun held _ y => held = mine id ∧
        (securingProtocol id false).lockInv (lockFor id) y) (.ret r) (mine id) y :=
    fun r y hy z hz _ => ⟨rfl, fun _ => (hz.1 hheld).noneUnsynced hy⟩
  refine LockSim.guarded fun y _ hinv => ?_
  refine securing_call .fileSize hheld (fun _ _ _ hsec => .inl hsec) fun oc s _ _ _ hsame => ?_
  have hs : NoneUnsynced id s.disk := hsame.noneUnsynced (hinv rfl)
  cases ((Call.fileSize (finalPathFor id)).exec oc s).1 with
  | error m => exact hdone _ _ hs
  | ok size =>
    refine securing_call .removeFinal hheld (fun oc s _ hsec => ?_) fun oc s' _ _ _ hsame' => ?_
    · rcases remove_cases s.disk (finalPathFor id) oc with heq | heq
      · exact .inl (heq.symm ▸ hsec : Secured id (s.disk.remove (finalPathFor id) oc).2)
      · refine .inr ⟨rfl, (?_ : (s.disk.remove (finalPathFor id) oc).2.node _ = none)⟩
        rw [heq]
        simp
    · have hs' : NoneUnsynced id ((Call.remove (finalPathFor id)).exec oc s').2.disk := by
        show NoneUnsynced id (s'.disk.remove (finalPathFor id) oc).2
        rcases remove_cases s'.disk (finalPathFor id) oc with heq | heq
        · rw [heq]
          exact hsame'.noneUnsynced hs
        · rw [heq]
          exact fun hn => absurd (by simp) hn
      obtain ⟨removed, ec⟩ := ((Call.remove (finalPathFor id)).exec oc s').1
      show SecuringSim id false pol _ (if !removed || ec.isSome then _ else _) _ _
      split
      · exact hdone _ _ hs'
      · refine securing_quiet (.fetchSub _ _) (fun _ _ => rfl) hheld fun _ z hz => ?_
        refine securing_quiet (.fetchSub _ _) (fun _ _ => rfl) hheld fun _ w hw => ?_
        exact hdone _ _ ((hz.trans hw).noneUnsynced hs')

/-- **Every operation keeps to the protocol.** -/
theorem securing_prog (hprobe : pol.probeFault = false) {o : StoreOp} (ho : o.IsMethod) (u : UuidV4) :
    SecuringSim id false pol NoneHeld (o.prog sha256 u) (holding none) x := by
  have horder : Orderly true (fun _ => 0) (o.prog sha256 u) := prog_orderly (.inl rfl) u
  by_cases hput : ∃ id' data, o = .put id' data
  · obtain ⟨id', data, rfl⟩ := hput
    by_cases hid : id' = id
    · subst hid
      exact LockSim.mono (fun _ _ _ h => h.1) (securing_put hprobe sha256 id' data u)
    · exact securing_passes ((put_uses sha256 id' data u).mono fun _ hc => .inr ⟨id', hid, hc⟩) horder
  · by_cases hdelete : ∃ id', o = .delete id'
    · obtain ⟨id', rfl⟩ := hdelete
      by_cases hid : id' = id
      · subst hid
        exact securing_delete id'
      · exact securing_passes ((delete_uses id').mono fun _ hc => .inr ⟨id', hid, hc⟩) horder
    · refine securing_passes ((prog_uses_reads sha256 ho ?_ ?_ u).mono fun _ hc => .inl hc) horder
      · exact fun id' data heq => hput ⟨id', data, heq⟩
      · exact fun id' heq => hdelete ⟨id', heq⟩

end Operations

end NimbusFs.StorageNode
