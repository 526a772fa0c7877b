import NimbusFs.StorageNode.Ledger

/-! # Temporary files

`Put` writes to a temporary file and renames it, or removes it when something went
wrong. Nothing else cleans up: a temporary file that is left stays. A record beside the
store says which paths need no owner any more: what was there when the store was
constructed, and what could not be removed. Every other temporary file is at every
moment the one file of an operation that is running and holds the lock of its chunk, so
that none is left when all operations have returned. -/
namespace NimbusFs.StorageNode

open NimbusFs.Common Lib

/-! ## The record -/

/-- The paths that a call could not remove. -/
def Call.gaveUp : (c : Call) → c.Ret → Set Path
  | .remove p, (_, some _) => {p}
  | _, _ => ∅

/-- A store, and the paths that need no owner. -/
abbrev Recorded := Store × Set Path

/-- All that is on the disk. -/
def Disk.present (d : Disk) : Set Path := {p | d.node p ≠ none}

/-- The calls, with the record. -/
def recorded (pol : Policy) (c : Call) (x : Recorded) (r : c.Ret) (y : Recorded) : Prop :=
  pol.sem c x.1 r y.1 ∧ y.2 = x.2 ∪ c.gaveUp r

/-- A store that is stopped and constructed again, with either kind of lock. -/
def storeStops (sha256 : Bytes → Digest) (pol : Policy) (reentrant : Bool) :
    System (Fin 256) Call Call.Ret Store StoreOp StoreOp.Ret :=
  { storeRestarts sha256 pol with reentrant }

/-- The same with the record. A constructor takes over what it finds. -/
def recordedStops (sha256 : Bytes → Digest) (pol : Policy) (reentrant : Bool) :
    System (Fin 256) Call Call.Ret Recorded StoreOp StoreOp.Ret where
  impl := (storeStops sha256 pol reentrant).impl
  sem := recorded pol
  crash x y := (storeStops sha256 pol reentrant).crash x.1 y.1 ∧ y.2 = y.1.disk.present
  reentrant := reentrant

/-- Something is at the path that needs an owner. -/
def Stray (x : Recorded) (p : Path) : Prop := x.1.disk.node p ≠ none ∧ p ∉ x.2

theorem recorded.outcome {pol : Policy} {c : Call} {x y : Recorded} {r : c.Ret}
    (h : recorded pol c x r y) :
    ∃ oc, r = (c.exec oc x.1).1 ∧ y = ((c.exec oc x.1).2, x.2 ∪ c.gaveUp (c.exec oc x.1).1) := by
  obtain ⟨oc, -, rfl, hy⟩ := h.1.outcome
  exact ⟨oc, rfl, Prod.ext hy h.2⟩

/-! ## The protocol -/

/-- The locks of the chunks protect their temporary files. In a stripe there is one
stray file at most, and none while its lock is free. -/
def tempProtocol : LockProtocol (Fin 256) (Recorded × Unit) where
  inv x := ∀ id u id' u', lockFor id = lockFor id' → Stray x.1 (tmpPathFor id u) →
    Stray x.1 (tmpPathFor id' u') → tmpPathFor id u = tmpPathFor id' u'
  rely held x y := ∀ id u, held (lockFor id) ≠ 0 →
    (Stray y.1 (tmpPathFor id u) ↔ Stray x.1 (tmpPathFor id u))
  guar held x y := ∀ id u, held (lockFor id) = 0 →
    (Stray y.1 (tmpPathFor id u) ↔ Stray x.1 (tmpPathFor id u))
  rely_refl _ _ _ _ _ := Iff.rfl
  rely_trans h₁ h₂ id u hheld := (h₂ id u hheld).trans (h₁ id u hheld)
  compat hdisj _ hg id u hheld := hg id u ((hdisj (lockFor id)).resolve_right hheld)
  lockInv l x := ∀ id u, lockFor id = l → ¬ Stray x.1 (tmpPathFor id u)
  held_stable hl hr hx id u hid hstray := hx id u hid ((hr id u (hid ▸ hl)).mp hstray)
  free_stable hl _ hg hx id u hid hstray := hx id u hid ((hg id u (hid ▸ hl)).mp hstray)

/-- `LockSim` for the store with its record. -/
abbrev TempSim {α : Type} (pol : Policy) (Q : (Fin 256 → Nat) → α → Recorded × Unit → Prop)
    (p : StoreProg α) (held : Fin 256 → Nat) (x : Recorded × Unit) : Prop :=
  LockSim tempProtocol (recorded pol) Q p held x

/-- The holder of the lock of the chunk has the temporary file `tmp`, if any, and no
other of the stripe is stray. -/
structure Working (id : ChunkId) (tmp : Option Path) (x : Recorded × Unit) : Prop where
  mine : ∀ p, tmp = some p → IsTmp id p
  strays : ∀ id' u, lockFor id' = lockFor id → Stray x.1 (tmpPathFor id' u) →
    tmp = some (tmpPathFor id' u)

section Protocol

variable {id : ChunkId} {tmp : Option Path} {x y : Recorded × Unit} {held : Fin 256 → Nat}

theorem working_none : Working id none x ↔ tempProtocol.lockInv (lockFor id) x := by
  constructor
  · intro h id' u hid hstray
    cases h.strays id' u hid hstray
  · intro h
    exact ⟨fun _ hp => (by cases hp), fun id' u hid hstray => absurd hstray (h id' u hid)⟩

theorem Working.rely (h : Working id tmp x) (hheld : held (lockFor id) ≠ 0)
    (hr : tempProtocol.rely held x y) : Working id tmp y :=
  ⟨h.mine, fun id' u hid hstray => h.strays id' u hid ((hr id' u (hid ▸ hheld)).mp hstray)⟩

/-- The temporary file is gone, or could not be removed. -/
theorem Working.settle {p : Path} (h : Working id (some p) x) (hp : ¬ Stray x.1 p) :
    Working id none x := by
  refine working_none.mpr fun id' u hid hstray => hp ?_
  obtain rfl := Option.some.inj (h.strays id' u hid hstray)
  exact hstray

/-- A call that changes nothing at a path. -/
def LeavesAlone (c : Call) (p : Path) : Prop :=
  ∀ oc s, (c.exec oc s).2.disk.node p = s.disk.node p ∧ p ∉ c.gaveUp (c.exec oc s).1

theorem LeavesAlone.stray_iff {c : Call} {p : Path} (h : LeavesAlone c p) (oc : Outcome)
    (x : Recorded) : Stray ((c.exec oc x.1).2, x.2 ∪ c.gaveUp (c.exec oc x.1).1) p ↔ Stray x p := by
  obtain ⟨hnode, hgave⟩ := h oc x.1
  simp [Stray, hnode, hgave]

/-- A call of the holder of the lock, on its own temporary file at most. -/
theorem tempSim_call {pol : Policy} {α : Type} {Q : (Fin 256 → Nat) → α → Recorded × Unit → Prop}
    {c : Call} {k : c.Ret → StoreProg α}
    (hc : ∀ id' u, tmp ≠ some (tmpPathFor id' u) → LeavesAlone c (tmpPathFor id' u))
    (hheld : held (lockFor id) ≠ 0) (hx : Working id tmp x)
    (hk : ∀ oc (s : Recorded) y, tempProtocol.rely held x (s, ()) →
      y.1 = ((c.exec oc s.1).2, s.2 ∪ c.gaveUp (c.exec oc s.1).1) → Working id tmp y →
      TempSim pol Q (k (c.exec oc s.1).1) held y) :
    TempSim pol Q (.call c k) held x := by
  intro y hr hi r s' hs
  obtain ⟨oc, rfl, rfl⟩ := hs.outcome
  have hy := hx.rely hheld hr
  have hwork : Working id tmp (((c.exec oc y.1.1).2, y.1.2 ∪ c.gaveUp (c.exec oc y.1.1).1), y.2) := by
    refine ⟨hy.mine, fun id' u hid hstray => ?_⟩
    by_contra hne
    exact hne (hy.strays id' u hid (((hc id' u hne).stray_iff oc y.1).mp hstray))
  have hother : ∀ id' u, lockFor id' ≠ lockFor id → LeavesAlone c (tmpPathFor id' u) := by
    intro id' u hid
    refine hc id' u fun heq => hid ?_
    obtain ⟨u', hu'⟩ := hy.mine _ heq
    rw [(belongs_tmpPathFor id' u).unique (hu' ▸ belongs_tmpPathFor id u')]
  refine ⟨y.2, fun id₁ u₁ id₂ u₂ hsame h₁ h₂ => ?_, fun id' u hzero => ?_, hk oc y.1 _ hr rfl hwork⟩
  · by_cases hid : lockFor id₁ = lockFor id
    · have htmp₁ := hwork.strays id₁ u₁ hid h₁
      have htmp₂ := hwork.strays id₂ u₂ (hsame ▸ hid) h₂
      exact Option.some.inj (htmp₁.symm.trans htmp₂)
    · exact hi id₁ u₁ id₂ u₂ hsame (((hother id₁ u₁ hid).stray_iff oc y.1).mp h₁)
        (((hother id₂ u₂ (hsame ▸ hid)).stray_iff oc y.1).mp h₂)
  · exact (hother id' u fun hid => hheld (hid ▸ hzero)).stray_iff oc y.1

end Protocol

/-! ## The calls -/

section Calls

variable {id : ChunkId} {u : UuidV4}

theorem leavesAlone_of_touches {c : Call} {own : Path → Prop} {p : Path} (hlen : 2 < p.length)
    (htouch : ∀ oc s, Touches own s.disk (c.exec oc s).2.disk) (hown : ¬ own p)
    (hgave : ∀ r, p ∉ c.gaveUp r) : LeavesAlone c p :=
  fun oc s => ⟨(htouch oc s).node hown hlen, hgave _⟩

theorem tmpPathFor_length (id : ChunkId) (u : UuidV4) : 2 < (tmpPathFor id u).length := by
  rw [(belongs_tmpPathFor id u).length]
  omega

/-- The calls that work on one path. -/
theorem leavesAlone_of_own {c : Call} {q : Path} (hq : q ≠ tmpPathFor id u)
    (htouch : ∀ oc s, Touches (· = q) s.disk (c.exec oc s).2.disk)
    (hgave : ∀ r p, p ∈ c.gaveUp r → p = q) : LeavesAlone c (tmpPathFor id u) :=
  leavesAlone_of_touches (tmpPathFor_length id u) htouch (Ne.symm hq)
    fun r hp => hq (hgave r _ hp).symm

/-- The calls that leave the tree as it is. -/
theorem leavesAlone_of_disk {c : Call} {p : Path} (hdisk : ∀ oc s, (c.exec oc s).2.disk = s.disk)
    (hgave : ∀ r, c.gaveUp r = ∅) : LeavesAlone c p := by
  intro oc s
  rw [hdisk, hgave]
  exact ⟨rfl, Set.notMem_empty p⟩

theorem mem_gaveUp_remove {q : Path} (r : Bool × ErrorCode) (p : Path) :
    p ∈ (Call.remove q).gaveUp r ↔ p = q ∧ r.2 ≠ none := by
  obtain ⟨removed, ec⟩ := r
  cases ec <;> simp [Call.gaveUp]

theorem leavesAlone_createDirectories (id' : ChunkId) :
    LeavesAlone (.createDirectories (shardDirFor id')) (tmpPathFor id u) := by
  have htouch : ∀ (oc : Outcome) (s : Store),
      Touches (fun _ => False) s.disk ((Call.createDirectories (shardDirFor id')).exec oc s).2.disk :=
    fun oc _ => touches_createDirectories (by rfl) oc
  exact leavesAlone_of_touches (tmpPathFor_length id u) htouch not_false fun _ => Set.notMem_empty _

theorem leavesAlone_internalOpen {q : Path} (hq : q ≠ tmpPathFor id u) (mode : Disk.OpenMode) :
    LeavesAlone (.internalOpen q mode) (tmpPathFor id u) :=
  leavesAlone_of_own hq (fun oc _ => touches_internalOpen q mode oc) fun _ _ hp => (by cases hp)

theorem leavesAlone_write {q : Path} (hq : q ≠ tmpPathFor id u) (data : Bytes) :
    LeavesAlone (.write q data) (tmpPathFor id u) :=
  leavesAlone_of_own hq (fun oc _ => touches_write q data oc) fun _ _ hp => (by cases hp)

theorem leavesAlone_internalFsync {q : Path} (hq : q ≠ tmpPathFor id u) :
    LeavesAlone (.internalFsync q) (tmpPathFor id u) :=
  leavesAlone_of_own hq (fun oc _ => touches_internalFsync q oc) fun _ _ hp => (by cases hp)

theorem leavesAlone_remove {q : Path} (hq : q ≠ tmpPathFor id u) :
    LeavesAlone (.remove q) (tmpPathFor id u) :=
  leavesAlone_of_own hq (fun oc _ => touches_remove q oc)
    fun r p hp => ((mem_gaveUp_remove r p).mp hp).1

theorem leavesAlone_rename {q : Path} (hq : q ≠ tmpPathFor id u) (id' : ChunkId) :
    LeavesAlone (.rename q (finalPathFor id')) (tmpPathFor id u) := by
  refine leavesAlone_of_touches (tmpPathFor_length id u) (fun oc _ => touches_rename _ _ oc) ?_
    fun _ => Set.notMem_empty _
  rintro (rfl | hp)
  · exact hq rfl
  · exact finalPathFor_ne_tmpPathFor id' id u hp.symm

theorem shardDirFor_ne (id' : ChunkId) : shardDirFor id' ≠ tmpPathFor id u := by
  intro heq
  have hlen := tmpPathFor_length id u
  rw [← heq, shardDirFor_length] at hlen
  omega

/-- A `remove` without an error leaves nothing. -/
theorem node_of_remove {d : Disk} {q : Path} {oc : Outcome} (h : (d.remove q oc).1.2 = none) :
    (d.remove q oc).2.node q = none := by
  cases oc with
  | ok =>
    cases hnode : d.node q with
    | none => simp [Disk.remove, hnode]
    | some n =>
      cases n with
      | file b dirty => simp [Disk.remove, hnode]
      | dir =>
        simp only [Disk.remove, hnode] at h ⊢
        split at h
        · cases h
        · rename_i hchild
          rw [if_neg hchild]
          simp
  | fail m => cases h
  | short m n => cases h

/-- After a `remove` there is nothing, or it is recorded. -/
theorem not_stray_remove (q : Path) (oc : Outcome) (x : Recorded) :
    ¬ Stray (((Call.remove q).exec oc x.1).2,
      x.2 ∪ (Call.remove q).gaveUp ((Call.remove q).exec oc x.1).1) q := by
  rintro ⟨hnode, hrec⟩
  have hok : (x.1.disk.remove q oc).1.2 = none := by
    by_contra herror
    exact hrec (.inr ((mem_gaveUp_remove _ q).mpr ⟨rfl, herror⟩))
  exact hnode (node_of_remove hok)

/-- A file that was renamed is not at its old path. -/
theorem not_stray_rename {src dst : Path} (hne : src ≠ dst) {oc : Outcome} {x : Recorded}
    (hec : ((Call.rename src dst).exec oc x.1).1 = none) (rec : Set Path) :
    ¬ Stray (((Call.rename src dst).exec oc x.1).2, rec) src := by
  rintro ⟨hnode, _⟩
  have hthere : (x.1.disk.rename src dst oc).2.node src ≠ none := hnode
  have hec : (x.1.disk.rename src dst oc).1 = none := hec
  cases oc with
  | ok =>
    simp only [Disk.rename] at hec hthere
    split at hec
    · split at hec
      · cases hec
      · split at hec
        · cases hec
        · rename_i hfile hdir hparent
          simp [hfile, hdir, hparent, hne] at hthere
    · cases hec
    · cases hec
  | fail m => cases hec
  | short m n => cases hec

end Calls

/-! ## `Put` and `Delete` -/

section Operations

variable {pol : Policy} {id : ChunkId} {α : Type} {u : UuidV4} {data : Bytes}
variable {x : Recorded × Unit}

/-- The locked part is over, and the lock may be released. -/
def TempDone (id : ChunkId) (held : Fin 256 → Nat) (_ : α) (y : Recorded × Unit) : Prop :=
  held = mine id ∧ tempProtocol.lockInv (lockFor id) y

theorem tempSim_ret {a : α} (hx : Working id none x) :
    TempSim pol (TempDone id) (.ret a) (mine id) x :=
  fun _ hr _ => ⟨rfl, working_none.mp (hx.rely (mine_ne_zero id) hr)⟩

/-- A call that no temporary file is changed by. -/
theorem tempSim_plain {c : Call} {k : c.Ret → StoreProg α} {tmp : Option Path}
    (hc : ∀ id' u, LeavesAlone c (tmpPathFor id' u)) (hx : Working id tmp x)
    (hk : ∀ r y, Working id tmp y → TempSim pol (TempDone id) (k r) (mine id) y) :
    TempSim pol (TempDone id) (.call c k) (mine id) x :=
  tempSim_call (fun id' u _ => hc id' u) (mine_ne_zero id) hx fun _ _ y _ _ hy => hk _ y hy

/-- The `remove` of every cleanup. -/
theorem tempSim_cleanup {k : Bool × ErrorCode → StoreProg α}
    (hx : Working id (some (tmpPathFor id u)) x)
    (hk : ∀ r y, Working id none y → TempSim pol (TempDone id) (k r) (mine id) y) :
    TempSim pol (TempDone id) (.call (.remove (tmpPathFor id u)) k) (mine id) x := by
  refine tempSim_call (fun id' u' hne => leavesAlone_remove fun heq => hne (congrArg some heq))
    (mine_ne_zero id) hx fun oc s y _ hy hwork => hk _ y (hwork.settle ?_)
  rw [hy]
  exact not_stray_remove _ oc s

theorem tempSim_putAbandon {m : String} (hx : Working id (some (tmpPathFor id u)) x) :
    TempSim pol (TempDone id) (putAbandon (tmpPathFor id u) m) (mine id) x := by
  refine tempSim_cleanup hx fun _ y hy => ?_
  refine tempSim_plain (fun _ _ => leavesAlone_of_disk (fun _ _ => rfl) fun _ => rfl) hy fun _ z hz => ?_
  exact tempSim_ret hz

theorem tempSim_putFinish (hx : Working id none x) :
    TempSim pol (TempDone id) (putFinish id data) (mine id) x := by
  have hcount : ∀ c n id' u, LeavesAlone (.fetchAdd c n) (tmpPathFor id' u) :=
    fun _ _ _ _ => leavesAlone_of_disk (fun _ _ => rfl) fun _ => rfl
  refine tempSim_call (fun _ _ _ => leavesAlone_internalOpen (shardDirFor_ne id) _) (mine_ne_zero id)
    hx fun oc s y _ _ hy => ?_
  cases hfd : ((Call.internalOpen (shardDirFor id) .directory).exec oc s.1).1 with
  | none =>
    refine tempSim_plain (hcount _ _) hy fun _ y hy => tempSim_plain (hcount _ _) hy fun _ y hy => ?_
    exact tempSim_ret hy
  | some fd =>
    obtain ⟨rfl, _⟩ := internalOpen_directory hfd
    refine tempSim_plain (fun _ _ => leavesAlone_internalFsync (shardDirFor_ne id)) hy fun _ y hy => ?_
    refine tempSim_plain (hcount _ _) hy fun _ y hy => tempSim_plain (hcount _ _) hy fun _ y hy => ?_
    refine tempSim_plain (fun _ _ => leavesAlone_of_disk (fun _ _ => rfl) fun _ => rfl) hy fun _ y hy => ?_
    exact tempSim_ret hy

theorem tempSim_putRename (hx : Working id (some (tmpPathFor id u)) x) :
    TempSim pol (TempDone id) (putRename id data (tmpPathFor id u)) (mine id) x := by
  refine tempSim_call (fun id' u' hne => leavesAlone_rename (fun heq => hne (congrArg some heq)) id)
    (mine_ne_zero id) hx fun oc s y _ hy hwork => ?_
  cases hec : ((Call.rename (tmpPathFor id u) (finalPathFor id)).exec oc s.1).1 with
  | some m => exact tempSim_cleanup hwork fun _ z hz => tempSim_ret hz
  | none =>
    refine tempSim_putFinish (hwork.settle ?_)
    rw [hy]
    exact not_stray_rename (Ne.symm (finalPathFor_ne_tmpPathFor id id u)) hec _

theorem tempSim_putFsync (hx : Working id (some (tmpPathFor id u)) x) :
    TempSim pol (TempDone id) (putFsync id data (tmpPathFor id u)) (mine id) x := by
  rw [putFsync, Prog.perform_bind]
  refine tempSim_call (fun id' u' hne => leavesAlone_internalFsync fun heq => hne (congrArg some heq))
    (mine_ne_zero id) hx fun oc s y _ _ hy => ?_
  split
  · refine tempSim_plain (fun _ _ => leavesAlone_of_disk (fun _ _ => rfl) fun _ => rfl) hy fun _ z hz => ?_
    exact tempSim_putRename hz
  · exact tempSim_putAbandon hy

theorem tempSim_putWrite (hx : Working id (some (tmpPathFor id u)) x) :
    TempSim pol (TempDone id) (putWrite id data (tmpPathFor id u)) (mine id) x := by
  unfold putWrite
  split
  · exact tempSim_putFsync hx
  · rw [Prog.perform_bind]
    refine tempSim_call (fun id' u' hne => leavesAlone_write (fun heq => hne (congrArg some heq)) data)
      (mine_ne_zero id) hx fun oc s y _ _ hy => ?_
    split
    · exact tempSim_putFsync hy
    · exact tempSim_putAbandon hy

theorem tempSim_putNew (hx : Working id none x) :
    TempSim pol (TempDone id) (putNew id data u) (mine id) x := by
  refine tempSim_call (fun _ _ _ => leavesAlone_createDirectories id) (mine_ne_zero id) hx
    fun oc s y _ _ hy => ?_
  cases ((Call.createDirectories (shardDirFor id)).exec oc s.1).1 with
  | some m => exact tempSim_ret hy
  | none =>
    -- from here on the file may be there, and is the only one of the stripe
    have hopen : Working id (some (tmpPathFor id u)) y := by
      refine ⟨fun p hp => ⟨u, (Option.some.inj hp).symm⟩, fun id' u' hid hstray => ?_⟩
      exact absurd hstray (working_none.mp hy id' u' hid)
    refine tempSim_call (fun id' u' hne => leavesAlone_internalOpen
      (fun heq => hne (congrArg some heq)) _) (mine_ne_zero id) hopen fun oc s z hr hz hwork => ?_
    cases hfd : ((Call.internalOpen (tmpPathFor id u) .writeCreateTruncate).exec oc s.1).1 with
    | none =>
      have hsame : z.1 = s := by
        have hdisk : (s.1.disk.internalOpen (tmpPathFor id u) .writeCreateTruncate oc).2 = s.1.disk :=
          internalOpen_failed hfd
        rw [hz]
        refine Prod.ext ?_ (Set.union_empty s.2)
        show (⟨_, s.1.counter⟩ : Store) = s.1
        rw [hdisk]
      refine tempSim_ret ?_
      rw [show z = (s, ()) from Prod.ext hsame rfl]
      exact hy.rely (mine_ne_zero id) hr
    | some fd =>
      obtain ⟨rfl, _⟩ := internalOpen_created hfd
      exact tempSim_putWrite hwork

/-- `Exists` takes the lock a second time. -/
theorem tempSim_existsChunk (hx : Working id none x) :
    TempSim pol (fun held _ y => held = mine id ∧ Working id none y) (existsChunk id) (mine id) x := by
  intro y hr _ _
  have hne : Function.update (mine id) (lockFor id) (mine id (lockFor id) + 1) (lockFor id) ≠ 0 := by
    simp
  refine tempSim_call (fun _ _ _ => leavesAlone_of_disk (fun _ _ => rfl) fun _ => rfl) hne
    (hx.rely (mine_ne_zero id) hr) fun _ _ z _ _ hz => ?_
  intro w hw _
  refine ⟨fun hone => absurd hone (by simp [mine, holding]), ?_⟩
  have hback : Function.update (Function.update (mine id) (lockFor id) (mine id (lockFor id) + 1))
      (lockFor id) (Function.update (mine id) (lockFor id) (mine id (lockFor id) + 1) (lockFor id) - 1) =
      mine id := by simp
  rw [hback]
  exact fun v hv _ => ⟨rfl, (hz.rely hne hw).rely (mine_ne_zero id) hv⟩

theorem tempSim_put (sha256 : Bytes → Digest) (id : ChunkId) (data : Bytes) (u : UuidV4) :
    TempSim pol NoneHeld (put sha256 id data u) (holding none) x := by
  unfold put
  split
  · exact fun _ _ _ _ => rfl
  · refine LockSim.guarded fun y _ hinv => ?_
    refine LockSim.bind (LockSim.mono ?_ (tempSim_existsChunk (working_none.mpr hinv)))
    intro held found z hz
    obtain ⟨rfl, hz⟩ := hz
    cases found with
    | true => exact tempSim_ret hz
    | false => exact tempSim_putNew hz

theorem tempSim_delete (id : ChunkId) : TempSim pol NoneHeld (delete id) (holding none) x := by
  refine LockSim.guarded fun y _ hinv => ?_
  have hplain : ∀ {c : Call}, (∀ oc s, (c.exec oc s).2.disk = s.disk) → (∀ r, c.gaveUp r = ∅) →
      ∀ id' u, LeavesAlone c (tmpPathFor id' u) :=
    fun hdisk hgave _ _ => leavesAlone_of_disk hdisk hgave
  refine tempSim_plain (hplain (fun _ _ => rfl) fun _ => rfl) (working_none.mpr hinv) fun size y hy => ?_
  cases size with
  | error m => exact tempSim_ret hy
  | ok sizeBefore =>
    refine tempSim_plain (fun id' u => leavesAlone_remove (finalPathFor_ne_tmpPathFor id id' u)) hy
      fun answer z hz => ?_
    obtain ⟨removed, ec⟩ := answer
    show TempSim pol _ (if (!removed || ec.isSome) = true then _ else _) (mine id) z
    split
    · exact tempSim_ret hz
    · refine tempSim_plain (hplain (fun _ _ => rfl) fun _ => rfl) hz fun _ z hz => ?_
      refine tempSim_plain (hplain (fun _ _ => rfl) fun _ => rfl) hz fun _ z hz => ?_
      exact tempSim_ret hz

theorem recorded_read (c : Call) (hc : c.IsRead) (a : Recorded) (r : c.Ret) (b : Recorded)
    (h : recorded pol c a r b) : b = a := by
  have hstore := congrArg Audited.store (audited_read c hc ⟨a.1, fun _ => 0⟩ r
    ⟨b.1, c.ledger fun _ => 0⟩ ⟨h.1, rfl⟩)
  have hgave : c.gaveUp r = ∅ := by
    cases c with
    | remove p => exact hc.elim
    | _ => rfl
  exact Prod.ext hstore (by rw [h.2, hgave, Set.union_empty])

/-- An operation that only reads. -/
theorem tempSim_reader {p : StoreProg α} (hp : p.Uses Call.Answers Call.IsRead)
    (hd : Disciplined none p) : TempSim pol NoneHeld p (holding none) x := by
  refine LockSim.of_reader (fun c s r t h => ?_) (fun _ _ _ _ _ => Iff.rfl) recorded_read hp hd
    (by simp)
  exact Policy.sem.answers c s.1 r t.1 h.1

/-- All operations but `Put` and `Delete` only read. -/
theorem prog_uses_reads (sha256 : Bytes → Digest) {o : StoreOp} (ho : o.IsMethod)
    (hput : ∀ id data, o ≠ .put id data) (hdelete : ∀ id, o ≠ .delete id) (u : UuidV4) :
    (o.prog sha256 u).Uses Call.Answers Call.IsRead := by
  have hget : ∀ id, (get sha256 id).Uses Call.Answers Call.IsRead :=
    fun id => (get_uses sha256 id).mono fun _ => ReadsChunk.isRead
  cases o with
  | put id data => exact absurd rfl (hput id data)
  | delete id => exact absurd rfl (hdelete id)
  | get id => exact hget id
  | verifyOnly id => exact (hget id).bind fun _ => trivial
  | existsChunk id => exact (existsChunk_uses id).mono fun _ => ReadsChunk.isRead
  | getStats => exact ⟨trivial, fun _ _ => ⟨trivial, fun _ _ => ⟨trivial, fun _ _ => trivial⟩⟩⟩
  | listAllChunkIds => exact listAllChunkIds_uses
  | construct => exact ho.elim

/-- **Every operation keeps to the protocol.** -/
theorem tempSim_prog (sha256 : Bytes → Digest) {o : StoreOp} (ho : o.IsMethod) (u : UuidV4) :
    TempSim pol NoneHeld (o.prog sha256 u) (holding none) x := by
  by_cases hput : ∃ id data, o = .put id data
  · obtain ⟨id, data, rfl⟩ := hput
    exact tempSim_put sha256 id data u
  · by_cases hdelete : ∃ id, o = .delete id
    · obtain ⟨id, rfl⟩ := hdelete
      exact tempSim_delete id
    · have hput : ∀ id data, o ≠ .put id data := fun id data heq => hput ⟨id, data, heq⟩
      exact tempSim_reader
        (prog_uses_reads sha256 ho hput (fun id heq => hdelete ⟨id, heq⟩) u)
        (prog_disciplined (fun id data heq => absurd heq (hput id data)) u)

end Operations

/-! ## Every run -/

/-- All that is there was there at the start. -/
theorem not_stray_start {s : Store} {p : Path} : ¬ Stray (s, s.disk.present) p :=
  fun h => h.2 h.1

section Runs

variable {T : Type} [DecidableEq T] {sha256 : Bytes → Digest} {pol : Policy} {reentrant : Bool}
variable {s : Store}

/-- The record only looks on. -/
theorem exists_recorded {c : StoreConfig T} (h : Reachable (storeStops sha256 pol reentrant) s c) :
    ∃ rec, Reachable (recordedStops sha256 pol reentrant) (s, s.disk.present)
      (c.over (c.state, rec)) := by
  let sys := storeStops sha256 pol reentrant
  let sys' := recordedStops sha256 pol reentrant
  have himpl : ∀ o p, sys.impl o p → sys'.impl o p := fun _ _ hp => hp
  have hsem : ∀ a s (x : Recorded) r t, s = x.1 → sys.sem a s r t → ∃ y, sys'.sem a x r y ∧ t = y.1 := by
    rintro a s x r t rfl hsem
    exact ⟨(t, x.2 ∪ a.gaveUp r), ⟨hsem, rfl⟩, rfl⟩
  have hcrash : ∀ s (x : Recorded) t, s = x.1 → sys.crash s t → ∃ y, sys'.crash x y ∧ t = y.1 := by
    rintro s x t rfl hcrash
    exact ⟨(t, t.disk.present), ⟨hcrash, rfl⟩, rfl⟩
  have hstart : s = ((s, s.disk.present) : Recorded).1 := rfl
  obtain ⟨x, hx, hreach⟩ := h.simulate himpl hsem hcrash (fun hre => hre) hstart
  exact ⟨x.2, by rwa [hx]⟩

theorem reachable_tempSound {c : Config T (Fin 256) Call Call.Ret Recorded StoreOp StoreOp.Ret}
    (h : Reachable (recordedStops sha256 pol reentrant) (s, s.disk.present) c) :
    ∃ g, LockSound (recordedStops sha256 pol reentrant) tempProtocol c g := by
  have hstart : ∀ t : Store, tempProtocol.inv ((t, t.disk.present), ()) ∧
      ∀ l, tempProtocol.lockInv l ((t, t.disk.present), ()) := fun t =>
    ⟨fun _ _ _ _ _ hstray => absurd hstray not_stray_start, fun _ _ _ _ => not_stray_start⟩
  refine h.lockSound (fun o p hp x _ => ?_) (fun x g y _ hcrash => ?_) ⟨(), hstart s⟩
  · obtain ⟨ho, u, rfl⟩ := hp
    exact tempSim_prog sha256 ho u
  · obtain ⟨t, rec⟩ := y
    obtain rfl : rec = t.disk.present := hcrash.2
    exact ⟨(), hstart t⟩

end Runs

/-- **Temporary files do not pile up.** Threads call any operations of the store, with
either kind of lock and any failures, and the store is stopped and constructed again at
any moment. Each of their runs is also one with a record of what was there at the last
start and what could not be removed since. Whenever another temporary file is there, an
operation that holds the lock of its chunk is running, two of them have different locks,
and there is none when all operations have returned. -/
theorem temporaries_accounted {T : Type} [DecidableEq T] (sha256 : Bytes → Digest) (pol : Policy)
    (reentrant : Bool) (s : Store) :
    (∀ c : StoreConfig T, Reachable (storeStops sha256 pol reentrant) s c →
      ∃ rec, Reachable (recordedStops sha256 pol reentrant) (s, s.disk.present)
        (c.over (c.state, rec))) ∧
    ∀ c : Config T (Fin 256) Call Call.Ret Recorded StoreOp StoreOp.Ret,
      Reachable (recordedStops sha256 pol reentrant) (s, s.disk.present) c →
      (∀ id u, Stray c.state (tmpPathFor id u) →
        ∃ t d, c.owner (lockFor id) = some (t, d) ∧ c.thread t ≠ none) ∧
      (∀ id u id' u', Stray c.state (tmpPathFor id u) → Stray c.state (tmpPathFor id' u') →
        tmpPathFor id u ≠ tmpPathFor id' u' → lockFor id ≠ lockFor id') ∧
      ((∀ t, c.thread t = none) → ∀ id u, ¬ Stray c.state (tmpPathFor id u)) := by
  refine ⟨fun c h => exists_recorded h, fun c h => ?_⟩
  obtain ⟨g, hsound⟩ := reachable_tempSound h
  refine ⟨fun id u hstray => ?_, fun id u id' u' h₁ h₂ hne hsame => ?_, fun hquiet id u => ?_⟩
  · cases hown : c.owner (lockFor id) with
    | none => exact absurd hstray (hsound.free _ hown id u rfl)
    | some w => exact ⟨w.1, w.2, rfl, fun hidle => hsound.idle w.1 hidle _ w.2 hown⟩
  · exact hne (hsound.inv id u id' u' hsame h₁ h₂)
  · exact hsound.all_free hquiet (lockFor id) id u rfl

end NimbusFs.StorageNode
