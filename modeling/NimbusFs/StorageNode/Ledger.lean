import NimbusFs.Lib.LockInvariant
import NimbusFs.StorageNode.ProbeErrors
import NimbusFs.StorageNode.Restart

/-! # The counters over whole runs

A counter lags behind the tree while a `Put` or a `Delete` is under way, and
several may be at once. So it is followed path by path: for each path, how much
of it is counted so far. Outside the final paths this is always what the entry
weighs. For the final path of a chunk it is what belongs to the lock of the
chunk: it holds while the lock is free. The counter is the sum of all of these,
so it is never below zero, and it is right when all locks are free. -/
namespace NimbusFs.StorageNode

open NimbusFs.Common Lib

/-- How much of each path is counted. -/
abbrev Counts := Counter → Path →₀ ℕ

/-! ## The protocol -/

/-- The final path of the chunk is counted as what it weighs. -/
def Settled (id : ChunkId) (x : Audited × Counts) : Prop :=
  ∀ c, x.2 c (finalPathFor id) = weight c (finalPathFor id) (x.1.store.disk.node (finalPathFor id))

/-- The counters are the sums of what is counted, and of all paths but the final
ones that is what they weigh. -/
structure LedgerInv (x : Audited × Counts) : Prop where
  tree : x.1.store.disk.IsTree
  exact : ∀ c, x.1.exact c = (x.2 c).degree
  counter : ∀ c, x.1.store.counter c = (x.2 c).degree % 2 ^ 64
  others : ∀ c p, (∀ id, p ≠ finalPathFor id) → x.2 c p = weight c p (x.1.store.disk.node p)

/-- The entry at a path, and how much of it is counted, are the same. -/
def SameAt (p : Path) (x y : Audited × Counts) : Prop :=
  y.1.store.disk.node p = x.1.store.disk.node p ∧ ∀ c, y.2 c p = x.2 c p

theorem SameAt.settled {id : ChunkId} {x y : Audited × Counts} (h : SameAt (finalPathFor id) x y)
    (hx : Settled id x) : Settled id y := by
  intro c
  rw [h.2 c, h.1]
  exact hx c

/-- The striped locks protect the files of the chunks, and how they are counted. -/
def ledgerProtocol : LockProtocol (Fin 256) (Audited × Counts) where
  inv := LedgerInv
  rely held x y := ∀ id p, held (lockFor id) ≠ 0 → Belongs id p → SameAt p x y
  guar held x y := ∀ p, 2 < p.length → (∀ id, Belongs id p → held (lockFor id) = 0) → SameAt p x y
  rely_refl _ _ _ _ _ _ := ⟨rfl, fun _ => rfl⟩
  rely_trans h₁ h₂ id p hheld hp :=
    ⟨(h₂ id p hheld hp).1.trans (h₁ id p hheld hp).1,
      fun c => ((h₂ id p hheld hp).2 c).trans ((h₁ id p hheld hp).2 c)⟩
  compat := by
    intro h h' x y hdisj _ hg id p hheld hp
    refine hg p (by rw [hp.length]; omega) fun id' hp' => ?_
    obtain rfl := hp.unique hp'
    exact (hdisj (lockFor id)).resolve_right hheld
  lockInv l x := ∀ id, lockFor id = l → Settled id x
  held_stable := by
    intro h x y l hl hr hx id hid
    exact (hr id _ (hid ▸ hl) (belongs_finalPathFor id)).settled (hx id hid)
  free_stable := by
    intro h x y l hl _ hg hx id hid
    refine (hg _ (by rw [(belongs_finalPathFor id).length]; omega) fun id' hp' => ?_).settled
      (hx id hid)
    rw [← (belongs_finalPathFor id).unique hp', hid]
    exact hl

/-! ## Inside the lock of a chunk -/

section Inside

variable {id : ChunkId} {n : Option Node} {g : Counter → Nat} {held : Fin 256 → Nat}
variable {x y : Audited × Counts}

/-- At the final path of the chunk is `n`, and `g` is counted for it. The other
chunks of the stripe are settled. -/
structure At (id : ChunkId) (n : Option Node) (g : Counter → Nat) (x : Audited × Counts) : Prop where
  node : x.1.store.disk.node (finalPathFor id) = n
  count : ∀ c, x.2 c (finalPathFor id) = g c
  others : ∀ id', id' ≠ id → lockFor id' = lockFor id → Settled id' x

theorem At.of_lockInv (h : ledgerProtocol.lockInv (lockFor id) x) :
    At id (x.1.store.disk.node (finalPathFor id))
      (fun c => weight c (finalPathFor id) (x.1.store.disk.node (finalPathFor id))) x :=
  ⟨rfl, h id rfl, fun id' _ hl => h id' hl⟩

theorem At.lockInv (h : At id n (fun c => weight c (finalPathFor id) n) x) :
    ledgerProtocol.lockInv (lockFor id) x := by
  intro id' hl
  by_cases hid : id' = id
  · subst hid
    intro c
    rw [h.count c, h.node]
  · exact h.others id' hid hl

theorem At.rely (h : At id n g x) (hheld : held (lockFor id) ≠ 0)
    (hr : ledgerProtocol.rely held x y) : At id n g y := by
  have hsame := hr id _ hheld (belongs_finalPathFor id)
  refine ⟨hsame.1.trans h.node, fun c => (hsame.2 c).trans (h.count c), fun id' hid hl => ?_⟩
  exact (hr id' _ (hl ▸ hheld) (belongs_finalPathFor id')).settled (h.others id' hid hl)

/-- What the holder of the lock does to the chunk leaves the others alone. -/
theorem At.step (h : At id n g x) {n' : Option Node} {g' : Counter → Nat}
    (hnode : y.1.store.disk.node (finalPathFor id) = n')
    (hcount : ∀ c, y.2 c (finalPathFor id) = g' c)
    (hsame : ∀ p, 2 < p.length → ¬ Belongs id p → SameAt p x y) : At id n' g' y := by
  refine ⟨hnode, hcount, fun id' hid hl => (hsame _ ?_ fun hb => hid ?_).settled (h.others id' hid hl)⟩
  · rw [(belongs_finalPathFor id').length]; omega
  · exact (belongs_finalPathFor id').unique hb

/-- It is what the holder of the lock may do. -/
theorem guar_of_same (hheld : held (lockFor id) ≠ 0)
    (hsame : ∀ p, 2 < p.length → ¬ Belongs id p → SameAt p x y) : ledgerProtocol.guar held x y :=
  fun p hlen hp => hsame p hlen fun hb => hheld (hp id hb)

end Inside

/-! ## Rules for the calls -/

section Rules

variable {pol : Policy} {id : ChunkId} {α : Type} {n : Option Node} {g : Counter → Nat}
variable {held : Fin 256 → Nat} {x : Audited × Counts}
variable {Q : (Fin 256 → Nat) → α → Audited × Counts → Prop}

/-- `LockSim` for the store with its ledger. -/
abbrev LedgerSim (pol : Policy) (Q : (Fin 256 → Nat) → α → Audited × Counts → Prop)
    (p : StoreProg α) (held : Fin 256 → Nat) (x : Audited × Counts) : Prop :=
  LockSim ledgerProtocol (audited pol) Q p held x

/-- A call that touches only the files of the chunk, and weights only at final
paths. -/
structure OwnCall (id : ChunkId) (c : Call) : Prop where
  ledger : ∀ e, c.ledger e = e
  counter : ∀ oc s, (c.exec oc s).2.counter = s.counter
  node : ∀ oc s p, 2 < p.length → ¬ Belongs id p →
    (c.exec oc s).2.disk.node p = s.disk.node p
  weight : ∀ oc s x p, (∀ id', p ≠ finalPathFor id') →
    weight x p ((c.exec oc s).2.disk.node p) = weight x p (s.disk.node p)

theorem OwnCall.of_touches {c : Call} {own : Path → Prop} (hledger : ∀ e, c.ledger e = e)
    (hcounter : ∀ oc s, (c.exec oc s).2.counter = s.counter)
    (htouch : ∀ oc s, Touches own s.disk (c.exec oc s).2.disk)
    (hown : ∀ p, own p → p = finalPathFor id ∨ ∃ u, p = tmpPathFor id u) : OwnCall id c where
  ledger := hledger
  counter := hcounter
  node oc s p hlen hp := by
    refine (htouch oc s).node (fun ho => hp ?_) hlen
    rcases hown p ho with rfl | ⟨u, rfl⟩
    · exact belongs_finalPathFor id
    · exact belongs_tmpPathFor id u
  weight oc s x p hp := by
    by_cases ho : own p
    · obtain ⟨u, rfl⟩ := (hown p ho).resolve_left (hp id)
      rw [weight_tmp, weight_tmp]
    · exact (htouch oc s).weight ho

/-- A call on the files of the chunk, by the holder of its lock. The entries of the
chunk are those that the holder left. -/
theorem OwnCall.sim {c : Call} {k : c.Ret → StoreProg α} (hc : OwnCall id c)
    (hheld : held (lockFor id) ≠ 0) (hat : At id n g x)
    (hk : ∀ oc s, pol.allows c oc → (∀ p, Belongs id p → s.disk.node p = x.1.store.disk.node p) →
      ∀ y, y.1.store = (c.exec oc s).2 → At id (y.1.store.disk.node (finalPathFor id)) g y →
      LedgerSim pol Q (k (c.exec oc s).1) held y) :
    LedgerSim pol Q (.call c k) held x := by
  intro y hr hi r s' hs
  obtain ⟨oc, ha, rfl, rfl⟩ := hs.outcome
  have hsame : ∀ p, 2 < p.length → ¬ Belongs id p →
      SameAt p y (⟨(c.exec oc y.1.store).2, c.ledger y.1.exact⟩, y.2) :=
    fun p hlen hp => ⟨hc.node oc y.1.store p hlen hp, fun _ => rfl⟩
  refine ⟨y.2, ⟨?_, ?_, ?_, ?_⟩, guar_of_same hheld hsame, ?_⟩
  · exact c.exec_isTree oc hi.tree
  · intro z
    rw [hc.ledger]
    exact hi.exact z
  · intro z
    rw [hc.counter]
    exact hi.counter z
  · intro z p hp
    rw [hc.weight oc y.1.store z p hp]
    exact hi.others z p hp
  · refine hk oc y.1.store ha (fun p hp => (hr id p hheld hp).1) _ rfl ?_
    exact (hat.rely hheld hr).step rfl (hat.rely hheld hr).count hsame

/-- A call that leaves the entry at the final path as it is. -/
theorem OwnCall.sim_quiet {c : Call} {k : c.Ret → StoreProg α} (hc : OwnCall id c)
    (hfinal : ∀ oc s, (c.exec oc s).2.disk.node (finalPathFor id) = s.disk.node (finalPathFor id))
    (hheld : held (lockFor id) ≠ 0) (hat : At id n g x)
    (hk : ∀ oc s, pol.allows c oc → (∀ p, Belongs id p → s.disk.node p = x.1.store.disk.node p) →
      ∀ y, y.1.store = (c.exec oc s).2 → At id n g y → LedgerSim pol Q (k (c.exec oc s).1) held y) :
    LedgerSim pol Q (.call c k) held x := by
  refine hc.sim hheld hat fun oc s ha hs y hy hat' => hk oc s ha hs y hy ?_
  have hnode : y.1.store.disk.node (finalPathFor id) = n := by
    rw [hy, hfinal, hs _ (belongs_finalPathFor id), hat.node]
  rwa [hnode] at hat'

/-- A call that changes one counter, by as much as is counted more or less of the
final path after it. -/
theorem ledgerSim_counter {c : Call} {k : c.Ret → StoreProg α} {z : Counter} {δ : Int} {v : Nat → Nat}
    {m : Nat} (hexec : ∀ oc s, (c.exec oc s).2 = s.setCounter z (v (s.counter z)))
    (hledger : ∀ e, c.ledger e = Function.update e z (e z + δ))
    (hcount : ∀ h : Path →₀ ℕ, h (finalPathFor id) = g z → ∃ h' : Path →₀ ℕ,
      (h'.degree : Int) = h.degree + δ ∧ v (h.degree % 2 ^ 64) % 2 ^ 64 = h'.degree % 2 ^ 64 ∧
      (∀ p, p ≠ finalPathFor id → h' p = h p) ∧ h' (finalPathFor id) = m)
    (hheld : held (lockFor id) ≠ 0) (hat : At id n g x)
    (hk : ∀ r y, At id n (Function.update g z m) y → LedgerSim pol Q (k r) held y) :
    LedgerSim pol Q (.call c k) held x := by
  intro y hr hi r s' hs
  obtain ⟨oc, -, rfl, rfl⟩ := hs.outcome
  have hat := hat.rely hheld hr
  obtain ⟨h', hdegree, hmod, hsame', hfinal⟩ := hcount (y.2 z) (hat.count z)
  have hdisk : (c.exec oc y.1.store).2.disk = y.1.store.disk := by rw [hexec]; rfl
  have hnew : ∀ d p, p ≠ finalPathFor id → Function.update y.2 z h' d p = y.2 d p := by
    intro d p hp
    by_cases hd : d = z
    · subst hd
      simp [hsame' p hp]
    · simp [hd]
  have hsame : ∀ p, 2 < p.length → ¬ Belongs id p →
      SameAt p y (⟨(c.exec oc y.1.store).2, c.ledger y.1.exact⟩, Function.update y.2 z h') := by
    intro p _ hp
    refine ⟨by rw [hdisk], fun d => hnew d p fun heq => hp (heq ▸ belongs_finalPathFor id)⟩
  refine ⟨Function.update y.2 z h', ⟨?_, ?_, ?_, ?_⟩, guar_of_same hheld hsame, hk _ _ ?_⟩
  · exact hdisk ▸ hi.tree
  · intro d
    by_cases hd : d = z
    · subst hd
      simp [hledger, hi.exact, hdegree]
    · simp [hledger, hd, hi.exact]
  · intro d
    by_cases hd : d = z
    · subst hd
      simpa [hexec, Store.setCounter, hi.counter] using hmod
    · simp [hexec, Store.setCounter, hd, hi.counter]
  · intro d p hp
    rw [hnew d p (hp id), hdisk]
    exact hi.others d p hp
  · refine hat.step ((congrArg (Disk.node · _) hdisk).trans hat.node) (fun d => ?_) hsame
    by_cases hd : d = z
    · subst hd
      simp [hfinal]
    · simp [hd, hat.count]

theorem ledgerSim_fetchAdd {z : Counter} {m : Nat} {k : Unit → StoreProg α}
    (hheld : held (lockFor id) ≠ 0) (hat : At id n g x)
    (hk : ∀ y, At id n (Function.update g z (g z + m)) y → LedgerSim pol Q (k ()) held y) :
    LedgerSim pol Q (.call (.fetchAdd z m) k) held x := by
  refine ledgerSim_counter (v := fun w => w + m) (fun _ _ => rfl) (fun _ => rfl) (fun h hh => ?_) hheld hat
    fun _ => hk
  refine ⟨h + Finsupp.single (finalPathFor id) m, by simp, ?_, fun p hp => ?_, by simp [hh]⟩
  · rw [map_add, Finsupp.degree_single, Nat.mod_add_mod]
  · simp [hp]

/-- What is taken back was counted. -/
theorem ledgerSim_fetchSub {z : Counter} {m : Nat} {k : Unit → StoreProg α} (hm : m ≤ g z)
    (hheld : held (lockFor id) ≠ 0) (hat : At id n g x)
    (hk : ∀ y, At id n (Function.update g z (g z - m)) y → LedgerSim pol Q (k ()) held y) :
    LedgerSim pol Q (.call (.fetchSub z m) k) held x := by
  refine ledgerSim_counter (v := fun w => w + 2 ^ 64 - m % 2 ^ 64) (δ := -m) (fun _ _ => rfl)
    (fun e => by simp [Call.ledger, Int.sub_eq_add_neg]) (fun h hh => ?_) hheld hat fun _ => hk
  have hle : Finsupp.single (finalPathFor id) m ≤ h := by
    simpa [hh] using hm
  have hdegree : h.degree = (h - Finsupp.single (finalPathFor id) m).degree + m := by
    have := congrArg Finsupp.degree (tsub_add_cancel_of_le hle)
    simpa using this.symm
  refine ⟨h - Finsupp.single (finalPathFor id) m, ?_, ?_, fun p hp => ?_, by simp [hh]⟩
  · rw [hdegree]
    push_cast
    omega
  · rw [hdegree]
    omega
  · simp [Ne.symm hp]

end Rules

/-! ## The calls of `Put` and `Delete` -/

section Calls

variable {pol : Policy} {id : ChunkId} {α : Type} {n : Option Node} {g : Counter → Nat}
variable {held : Fin 256 → Nat} {x : Audited × Counts}
variable {Q : (Fin 256 → Nat) → α → Audited × Counts → Prop}

/-- A call that touches temporary files of the chunk at most. -/
structure TmpCall (id : ChunkId) (c : Call) : Prop where
  ledger : ∀ e, c.ledger e = e
  counter : ∀ oc s, (c.exec oc s).2.counter = s.counter
  touches : ∀ oc s, Touches (IsTmp id) s.disk (c.exec oc s).2.disk

theorem TmpCall.own {c : Call} (hc : TmpCall id c) : OwnCall id c :=
  .of_touches hc.ledger hc.counter hc.touches fun _ hp => .inr hp

theorem TmpCall.sim {c : Call} {k : c.Ret → StoreProg α} (hc : TmpCall id c)
    (hheld : held (lockFor id) ≠ 0) (hat : At id n g x)
    (hk : ∀ oc s, pol.allows c oc → (∀ p, Belongs id p → s.disk.node p = x.1.store.disk.node p) →
      ∀ y, y.1.store = (c.exec oc s).2 → At id n g y → LedgerSim pol Q (k (c.exec oc s).1) held y) :
    LedgerSim pol Q (.call c k) held x := by
  refine hc.own.sim_quiet (fun oc s => (hc.touches oc s).node ?_ ?_) hheld hat hk
  · intro htmp
    obtain ⟨u, hu⟩ := htmp
    exact finalPathFor_ne_tmpPathFor id id u hu
  · rw [(belongs_finalPathFor id).length]; omega

theorem tmpCall_createDirectories : TmpCall id (.createDirectories (shardDirFor id)) :=
  ⟨fun _ => rfl, fun _ _ => rfl, fun oc _ => touches_createDirectories (by rfl) oc⟩

theorem tmpCall_internalOpen (u : UuidV4) (mode : Disk.OpenMode) :
    TmpCall id (.internalOpen (tmpPathFor id u) mode) :=
  ⟨fun _ => rfl, fun _ _ => rfl,
    fun oc _ => (touches_internalOpen _ mode oc).mono fun _ hp => ⟨u, hp⟩⟩

theorem tmpCall_write (u : UuidV4) (data : Bytes) : TmpCall id (.write (tmpPathFor id u) data) :=
  ⟨fun _ => rfl, fun _ _ => rfl, fun oc _ => (touches_write _ data oc).mono fun _ hp => ⟨u, hp⟩⟩

theorem tmpCall_internalFsync (u : UuidV4) : TmpCall id (.internalFsync (tmpPathFor id u)) :=
  ⟨fun _ => rfl, fun _ _ => rfl, fun oc _ => (touches_internalFsync _ oc).mono fun _ hp => ⟨u, hp⟩⟩

theorem tmpCall_remove (u : UuidV4) : TmpCall id (.remove (tmpPathFor id u)) :=
  ⟨fun _ => rfl, fun _ _ => rfl, fun oc _ => (touches_remove _ oc).mono fun _ hp => ⟨u, hp⟩⟩

theorem tmpCall_close (fd : Path) : TmpCall id (.close fd) :=
  ⟨fun _ => rfl, fun _ _ => rfl, fun _ _ => .refl _ _⟩

theorem tmpCall_existsPath (p : Path) : TmpCall id (.existsPath p) :=
  ⟨fun _ => rfl, fun _ _ => rfl, fun _ _ => .refl _ _⟩

theorem tmpCall_fileSize (p : Path) : TmpCall id (.fileSize p) :=
  ⟨fun _ => rfl, fun _ _ => rfl, fun _ _ => .refl _ _⟩

theorem tmpCall_openDirectory (p : Path) : TmpCall id (.internalOpen p .directory) :=
  ⟨fun _ => rfl, fun _ _ => rfl, fun oc _ => by cases oc <;> exact .refl _ _⟩

/-- A sync does not change what a file holds. -/
theorem weight_internalFsync (d : Disk) (q : Path) (oc : Outcome) (z : Counter) (p : Path) :
    weight z p ((d.internalFsync q oc).2.node p) = weight z p (d.node p) := by
  cases oc with
  | ok =>
    simp only [Disk.internalFsync]
    split
    · rename_i b dirty hn
      rw [Disk.node_setNode]
      split
      · rename_i hp
        rw [hp, hn]
        rfl
      · rfl
    · rfl
    · rfl
  | fail m => rfl
  | short m n => rfl

theorem ownCall_fsyncShard : OwnCall id (.internalFsync (shardDirFor id)) where
  ledger _ := rfl
  counter _ _ := rfl
  node oc s p hlen _ := (touches_internalFsync _ oc).node (fun hp => by
    rw [hp, shardDirFor_length] at hlen
    omega) hlen
  weight oc s z p _ := weight_internalFsync s.disk _ oc z p

theorem ownCall_rename (u : UuidV4) : OwnCall id (.rename (tmpPathFor id u) (finalPathFor id)) := by
  refine .of_touches (fun _ => rfl) (fun _ _ => rfl) (fun oc _ => touches_rename _ _ oc) ?_
  intro p hp
  rcases hp with hp | hp
  · exact .inr ⟨u, hp⟩
  · exact .inl hp

theorem ownCall_removeFinal : OwnCall id (.remove (finalPathFor id)) :=
  .of_touches (fun _ => rfl) (fun _ _ => rfl) (fun oc _ => touches_remove _ oc) fun _ hp => .inl hp

end Calls

/-! ## `Put` -/

section Put

variable {pol : Policy} {id : ChunkId} {α : Type} {n : Option Node} {uuid : UuidV4} {data : Bytes}
variable {x : Audited × Counts}

/-- The lock of the chunk, held once. -/
abbrev mine (id : ChunkId) : Fin 256 → Nat := holding (some (lockFor id))

theorem mine_ne_zero (id : ChunkId) : mine id (lockFor id) ≠ 0 := by simp [mine, holding]

/-- The locked part is over, and the lock may be released. -/
def BodyDone (id : ChunkId) (held : Fin 256 → Nat) (_ : α) (y : Audited × Counts) : Prop :=
  held = mine id ∧ ledgerProtocol.lockInv (lockFor id) y

/-- Nothing of the path is counted. -/
def nothing : Counter → Nat := fun _ => 0

theorem ledgerSim_ret {a : α} (hat : At id n (fun c => weight c (finalPathFor id) n) x) :
    LedgerSim pol (BodyDone id) (.ret a) (mine id) x :=
  fun _ hr _ => ⟨rfl, (hat.rely (mine_ne_zero id) hr).lockInv⟩

theorem ledgerSim_putAbandon {m : String} (hat : At id none nothing x) :
    LedgerSim pol (BodyDone id) (putAbandon (tmpPathFor id uuid) m) (mine id) x := by
  refine (tmpCall_remove uuid).sim (mine_ne_zero id) hat fun _ _ _ _ y _ hat => ?_
  refine (tmpCall_close _).sim (mine_ne_zero id) hat fun _ _ _ _ y _ hat => ?_
  exact ledgerSim_ret hat

/-- The two `fetch_add` count the file. -/
theorem counted_file (id : ChunkId) (b : Bytes) (dirty : Bool) :
    Function.update (Function.update nothing .chunkCount (nothing .chunkCount + 1)) .bytesUsed
      (Function.update nothing .chunkCount (nothing .chunkCount + 1) .bytesUsed + b.length) =
    fun c => weight c (finalPathFor id) (some (.file b dirty)) := by
  funext c
  rw [weight_final]
  cases c <;> simp [nothing, Counter.ofSize]

theorem ledgerSim_putFinish (hat : At id (some (.file data false)) nothing x) :
    LedgerSim pol (BodyDone id) (putFinish id data) (mine id) x := by
  have hne := mine_ne_zero id
  refine (tmpCall_openDirectory _).sim hne hat fun oc s _ _ y _ hat => ?_
  cases hfd : ((Call.internalOpen (shardDirFor id) .directory).exec oc s).1 with
  | none =>
    refine ledgerSim_fetchAdd hne hat fun y hat => ledgerSim_fetchAdd hne hat fun y hat => ?_
    rw [counted_file] at hat
    exact ledgerSim_ret hat
  | some fd =>
    obtain ⟨rfl, _⟩ := internalOpen_directory hfd
    have hfinal : ∀ oc s, ((Call.internalFsync (shardDirFor id)).exec oc s).2.disk.node
        (finalPathFor id) = s.disk.node (finalPathFor id) := by
      intro oc s
      refine (touches_internalFsync _ oc).node (fun hp => ?_) ?_
      · have := congrArg List.length hp
        rw [(belongs_finalPathFor id).length, shardDirFor_length] at this
        omega
      · rw [(belongs_finalPathFor id).length]; omega
    refine ownCall_fsyncShard.sim_quiet hfinal hne hat fun _ _ _ _ y _ hat => ?_
    refine ledgerSim_fetchAdd hne hat fun y hat => ledgerSim_fetchAdd hne hat fun y hat => ?_
    rw [counted_file] at hat
    refine (tmpCall_close _).sim hne hat fun _ _ _ _ y _ hat => ?_
    exact ledgerSim_ret hat

theorem ledgerSim_putRename (hat : At id none nothing x)
    (htmp : x.1.store.disk.node (tmpPathFor id uuid) = some (.file data false)) :
    LedgerSim pol (BodyDone id) (putRename id data (tmpPathFor id uuid)) (mine id) x := by
  have hne := mine_ne_zero id
  refine (ownCall_rename uuid).sim hne hat fun oc s _ hs y hy hat' => ?_
  rw [hy] at hat'
  cases hec : ((Call.rename (tmpPathFor id uuid) (finalPathFor id)).exec oc s).1 with
  | some m =>
    have hsame : ((Call.rename (tmpPathFor id uuid) (finalPathFor id)).exec oc s).2.disk = s.disk :=
      rename_failed hec
    rw [hsame, hs _ (belongs_finalPathFor id), hat.node] at hat'
    refine (tmpCall_remove uuid).sim hne hat' fun _ _ _ _ y _ hat => ?_
    exact ledgerSim_ret hat
  | none =>
    have hmoved : ((Call.rename (tmpPathFor id uuid) (finalPathFor id)).exec oc s).2.disk.node
        (finalPathFor id) = some (.file data false) :=
      rename_moved ((hs _ (belongs_tmpPathFor id uuid)).trans htmp) hec
    rw [hmoved] at hat'
    exact ledgerSim_putFinish hat'

theorem ledgerSim_putFsync {dirty : Bool} (hat : At id none nothing x)
    (htmp : x.1.store.disk.node (tmpPathFor id uuid) = some (.file data dirty)) :
    LedgerSim pol (BodyDone id) (putFsync id data (tmpPathFor id uuid)) (mine id) x := by
  have hne := mine_ne_zero id
  rw [putFsync, Prog.perform_bind]
  refine (tmpCall_internalFsync uuid).sim hne hat fun oc s _ hs y hy hat => ?_
  split
  · rename_i hsync
    have hnode := internalFsync_file ((hs _ (belongs_tmpPathFor id uuid)).trans htmp) hsync
    refine (tmpCall_close _).sim hne hat fun _ s' _ hs' y' hy' hat => ledgerSim_putRename hat ?_
    rw [hy']
    refine (hs' _ (belongs_tmpPathFor id uuid)).trans ?_
    rw [hy]
    exact hnode
  · exact ledgerSim_putAbandon hat

theorem ledgerSim_putWrite (hat : At id none nothing x)
    (htmp : x.1.store.disk.node (tmpPathFor id uuid) = some (.file [] true)) :
    LedgerSim pol (BodyDone id) (putWrite id data (tmpPathFor id uuid)) (mine id) x := by
  unfold putWrite
  split
  · rename_i hempty
    obtain rfl := List.isEmpty_iff.mp hempty
    exact ledgerSim_putFsync hat htmp
  · rw [Prog.perform_bind]
    refine (tmpCall_write uuid data).sim (mine_ne_zero id) hat fun oc s _ hs y hy hat => ?_
    split
    · rename_i hwritten
      have hnode := write_complete ((hs _ (belongs_tmpPathFor id uuid)).trans htmp) hwritten
      exact ledgerSim_putFsync hat ((congrArg (fun t => t.disk.node (tmpPathFor id uuid)) hy).trans hnode)
    · exact ledgerSim_putAbandon hat

theorem ledgerSim_putNew (hat : At id none nothing x) :
    LedgerSim pol (BodyDone id) (putNew id data uuid) (mine id) x := by
  have hne := mine_ne_zero id
  refine tmpCall_createDirectories.sim hne hat fun oc s _ _ y _ hat => ?_
  cases ((Call.createDirectories (shardDirFor id)).exec oc s).1 with
  | some m => exact ledgerSim_ret hat
  | none =>
    refine (tmpCall_internalOpen uuid _).sim hne hat fun oc s _ _ y hy hat => ?_
    cases hfd : ((Call.internalOpen (tmpPathFor id uuid) .writeCreateTruncate).exec oc s).1 with
    | none => exact ledgerSim_ret hat
    | some fd =>
      obtain ⟨rfl, hnode⟩ := internalOpen_created hfd
      refine ledgerSim_putWrite hat ?_
      rw [hy]
      exact hnode

/-- `Exists` takes the lock a second time. Its probe is faithful. -/
theorem ledgerSim_existsChunk {g : Counter → Nat} (hat : At id n g x) :
    LedgerSim .faithfulProbes (fun held found y => held = mine id ∧ found = n.isSome ∧ At id n g y)
      (existsChunk id) (mine id) x := by
  intro y hr _ _
  have hne : Function.update (mine id) (lockFor id) (mine id (lockFor id) + 1) (lockFor id) ≠ 0 := by
    simp
  refine (tmpCall_existsPath (finalPathFor id)).sim hne (hat.rely (mine_ne_zero id) hr)
    fun oc s ha hs z _ hat' => ?_
  obtain rfl : oc = .ok := Policy.allows_probe rfl ha
  intro z' hr' _
  refine ⟨fun hone => absurd hone (by simp [mine, holding]), ?_⟩
  have hback : Function.update (Function.update (mine id) (lockFor id) (mine id (lockFor id) + 1))
      (lockFor id) (Function.update (mine id) (lockFor id) (mine id (lockFor id) + 1) (lockFor id) - 1) =
      mine id := by simp
  rw [hback]
  have hfound : s.disk.node (finalPathFor id) = n := by
    rw [hs _ (belongs_finalPathFor id)]
    exact (hat.rely (mine_ne_zero id) hr).node
  refine fun w hw _ => ⟨rfl, ?_, (hat'.rely hne hr').rely (mine_ne_zero id) hw⟩
  simp [hfound]

theorem ledgerSim_putLocked (hinv : ledgerProtocol.lockInv (lockFor id) x) :
    LedgerSim .faithfulProbes (BodyDone id) (putLocked id data uuid) (mine id) x := by
  refine LockSim.bind (LockSim.mono ?_ (ledgerSim_existsChunk (At.of_lockInv hinv)))
  intro held found y hy
  obtain ⟨rfl, hfound, hat⟩ := hy
  cases found with
  | true => exact ledgerSim_ret hat
  | false =>
    have hnone : x.1.store.disk.node (finalPathFor id) = none := by simpa using hfound
    rw [hnone] at hat
    exact ledgerSim_putNew hat

theorem ledgerSim_put (sha256 : Bytes → Digest) (id : ChunkId) (data : Bytes) (uuid : UuidV4) :
    LedgerSim .faithfulProbes NoneHeld (put sha256 id data uuid) (holding none) x := by
  unfold put
  split
  · exact fun _ _ _ _ => rfl
  · exact LockSim.guarded fun y _ hinv => ledgerSim_putLocked hinv

end Put

/-! ## `Delete` -/

section Delete

variable {id : ChunkId} {x : Audited × Counts}

/-- The file is gone and both `fetch_sub` are still to come. -/
theorem ledgerSim_deleteCount {b : Bytes} {dirty : Bool}
    (hat : At id none (fun c => weight c (finalPathFor id) (some (.file b dirty))) x) :
    LedgerSim .faithfulProbes (BodyDone id) (do
      sys (.fetchSub .chunkCount 1)
      sys (.fetchSub .bytesUsed b.length)
      return (.ok () : Result Unit)) (mine id) x := by
  have hne := mine_ne_zero id
  have hweight : (fun c => weight c (finalPathFor id) (some (.file b dirty))) =
      fun c => c.ofSize b.length := funext fun c => weight_final c id b dirty
  rw [hweight] at hat
  refine ledgerSim_fetchSub (by rfl) hne hat fun y hat => ?_
  refine ledgerSim_fetchSub (by rfl) hne hat fun y hat => ?_
  have hzero : Function.update (Function.update (fun c => Counter.ofSize c b.length) .chunkCount
      (Counter.ofSize .chunkCount b.length - 1)) .bytesUsed
      (Function.update (fun c => Counter.ofSize c b.length) .chunkCount
        (Counter.ofSize .chunkCount b.length - 1) .bytesUsed - b.length) = nothing := by
    funext c
    cases c <;> simp [nothing, Counter.ofSize]
  rw [hzero] at hat
  exact ledgerSim_ret hat

theorem ledgerSim_deleteLocked (hinv : ledgerProtocol.lockInv (lockFor id) x) :
    LedgerSim .faithfulProbes (BodyDone id) (deleteLocked id) (mine id) x := by
  have hne := mine_ne_zero id
  have hat := At.of_lockInv hinv
  refine (tmpCall_fileSize _).sim hne hat fun oc s ha hs y hy hat' => ?_
  cases hsize : ((Call.fileSize (finalPathFor id)).exec oc s).1 with
  | error m => exact ledgerSim_ret hat'
  | ok size =>
    obtain ⟨b, dirty, hn, rfl⟩ := fileSize_found hsize
    rw [← hs _ (belongs_finalPathFor id), hn] at hat'
    refine ownCall_removeFinal.sim hne hat' fun oc' s' _ hs' z hz hat'' => ?_
    have hn' : s'.disk.node (finalPathFor id) = some (.file b dirty) := by
      rw [hs' _ (belongs_finalPathFor id), hat'.node]
    rw [hz] at hat''
    cases oc' with
    | ok =>
      have hgone : ((Call.remove (finalPathFor id)).exec .ok s').2.disk.node (finalPathFor id) = none := by
        simp [Call.exec, Store.withDisk, Disk.remove, hn']
      have hanswer : ((Call.remove (finalPathFor id)).exec .ok s').1 = (true, none) := by
        simp [Call.exec, Store.withDisk, Disk.remove, hn']
      rw [hgone] at hat''
      rw [hanswer]
      exact ledgerSim_deleteCount hat''
    | fail m =>
      rw [show ((Call.remove (finalPathFor id)).exec (.fail m) s').2 = s' from rfl, hn'] at hat''
      exact ledgerSim_ret hat''
    | short m k =>
      rw [show ((Call.remove (finalPathFor id)).exec (.short m k) s').2 = s' from rfl, hn'] at hat''
      exact ledgerSim_ret hat''

theorem ledgerSim_delete (id : ChunkId) :
    LedgerSim .faithfulProbes NoneHeld (delete id) (holding none) x :=
  LockSim.guarded fun _ _ hinv => ledgerSim_deleteLocked hinv

end Delete

/-! ## All operations -/

section Operations

variable {sha256 : Bytes → Digest} {x : Audited × Counts}

/-- The calls that change nothing. -/
def Call.IsRead : Call → Prop
  | .existsPath _ | .fileSize _ | .read _ _ | .close _ | .listRecursive | .space | .load _ => True
  | .internalOpen _ .readOnly => True
  | _ => False

theorem audited_read {pol : Policy} (c : Call) (hc : c.IsRead) (a : Audited) (r : c.Ret) (b : Audited)
    (h : audited pol c a r b) : b = a := by
  obtain ⟨oc, -, -, rfl⟩ := h.outcome
  cases c with
  | internalOpen p mode =>
    cases mode with
    | readOnly => cases oc <;> rfl
    | writeCreateTruncate => exact hc.elim
    | directory => exact hc.elim
  | existsPath p => rfl
  | fileSize p => rfl
  | read fd count => rfl
  | close fd => rfl
  | listRecursive => rfl
  | space => rfl
  | load z => rfl
  | createDirectories p => exact hc.elim
  | write fd data => exact hc.elim
  | internalFsync fd => exact hc.elim
  | rename src dst => exact hc.elim
  | remove p => exact hc.elim
  | fetchAdd z n => exact hc.elim
  | fetchSub z n => exact hc.elim
  | store z n => exact hc.elim

theorem ReadsChunk.isRead {id : ChunkId} {c : Call} (h : ReadsChunk id c) : c.IsRead := by
  cases h <;> trivial

theorem listAllChunkIds_uses : listAllChunkIds.Uses Call.Answers Call.IsRead := by
  refine ⟨trivial, fun answer _ => ?_⟩
  obtain ⟨found, ec⟩ := answer
  cases ec with
  | some m => trivial
  | none =>
    cases found with
    | false => trivial
    | true =>
      refine ⟨trivial, fun entries _ => ?_⟩
      cases entries <;> trivial

/-- An operation that only reads. -/
theorem ledgerSim_reader {pol : Policy} {α : Type} {p : StoreProg α}
    (hp : p.Uses Call.Answers Call.IsRead) (hd : Disciplined none p) :
    LedgerSim pol NoneHeld p (holding none) x := by
  refine LockSim.of_reader (fun c s r t h => ?_) (fun _ _ _ _ _ => ⟨rfl, fun _ => rfl⟩)
    audited_read hp hd (by simp)
  exact Policy.sem.answers c s.store r t.store h.1

/-- **Every operation keeps to the protocol.** -/
theorem ledgerSim_prog (o : StoreOp) (ho : o.IsMethod) (uuid : UuidV4) :
    LedgerSim .faithfulProbes NoneHeld (o.prog sha256 uuid) (holding none) x := by
  have hd : (∀ id data, o ≠ .put id data) → Disciplined none (o.prog sha256 uuid) :=
    fun hput => prog_disciplined (fun id data heq => absurd heq (hput id data)) uuid
  have hget : ∀ id, (get sha256 id).Uses Call.Answers Call.IsRead :=
    fun id => (get_uses sha256 id).mono fun _ => ReadsChunk.isRead
  cases o with
  | put id data => exact ledgerSim_put sha256 id data uuid
  | delete id => exact ledgerSim_delete id
  | get id => exact ledgerSim_reader (hget id) (hd (by simp))
  | verifyOnly id => exact ledgerSim_reader ((hget id).bind fun _ => trivial) (hd (by simp))
  | existsChunk id =>
    exact ledgerSim_reader ((existsChunk_uses id).mono fun _ => ReadsChunk.isRead) (hd (by simp))
  | getStats =>
    exact ledgerSim_reader ⟨trivial, fun _ _ => ⟨trivial, fun _ _ => ⟨trivial, fun _ _ => trivial⟩⟩⟩
      (hd (by simp))
  | listAllChunkIds => exact ledgerSim_reader listAllChunkIds_uses (hd (by simp))
  | construct => exact ho.elim

/-- A store that was just constructed starts the protocol. -/
theorem Balanced.start {a : Audited} (h : Balanced a) :
    LedgerInv (a, a.store.disk.counts) ∧
      ∀ l, ledgerProtocol.lockInv l (a, a.store.disk.counts) := by
  refine ⟨⟨h.tree, fun c => ?_, fun c => ?_, fun _ _ _ => rfl⟩, fun _ _ _ _ => rfl⟩
  · rw [h.exact c, total_eq_degree]
  · rw [h.counter c, total_eq_degree]

/-- Where all final paths are settled, the store is balanced. -/
theorem LedgerInv.balanced (h : LedgerInv x) (hfree : ∀ l, ledgerProtocol.lockInv l x) :
    Balanced x.1 := by
  have hcounts : ∀ c, x.2 c = x.1.store.disk.counts c := by
    intro c
    ext p
    by_cases hp : ∃ id, p = finalPathFor id
    · obtain ⟨id, rfl⟩ := hp
      exact hfree (lockFor id) id rfl c
    · exact h.others c p fun id heq => hp ⟨id, heq⟩
  refine ⟨h.tree, fun c => ?_, fun c => ?_⟩
  · rw [h.exact c, hcounts c, total_eq_degree]
  · rw [h.counter c, hcounts c, total_eq_degree]

end Operations

/-! ## Whole runs -/

section Runs

variable {T : Type} [DecidableEq T] {sha256 : Bytes → Digest} {d : Disk} {a : Audited}
variable {c : Config T (Fin 256) Call Call.Ret Audited StoreOp StoreOp.Ret}

theorem reachable_ledger (htree : d.IsTree)
    (hboot : Boots (audited .faithfulProbes) (fun a => a.store.disk) d a)
    (h : Reachable (auditedSystem sha256 .faithfulProbes) a c) :
    ∃ g, LockSound (auditedSystem sha256 .faithfulProbes) ledgerProtocol c g := by
  refine h.lockSound (fun o p hp y _ => ?_) (fun y g y' hy hcrash => ?_) ?_
  · obtain ⟨ho, uuid, rfl⟩ := hp
    exact ledgerSim_prog o ho uuid
  · obtain ⟨d, hstop, hboot⟩ := hcrash
    exact ⟨_, (boots_balanced (hy.tree.stopped hstop) hboot).start⟩
  · exact ⟨_, (boots_balanced htree hboot).start⟩

theorem reachable_balanced (htree : d.IsTree)
    (hboot : Boots (audited .faithfulProbes) (fun a => a.store.disk) d a)
    (h : Reachable (auditedSystem sha256 .faithfulProbes) a c) (hquiet : ∀ t, c.thread t = none) :
    Balanced c.state := by
  obtain ⟨g, hsound⟩ := reachable_ledger htree hboot h
  exact hsound.inv.balanced (hsound.all_free hquiet)

/-- **The statistics are exact.** A store is constructed on any tree; threads call
its operations in any interleaving, any call but the probes may fail, and it is
stopped and constructed again at any moment. The exact values of the counters are
never below zero, and the counters are these values, 64 bits wide. While no
operation is under way they are the number and the size of the chunk files. -/
theorem statistics_exact (htree : d.IsTree)
    (hboot : Boots (audited .faithfulProbes) (fun a => a.store.disk) d a)
    (h : Reachable (auditedSystem sha256 .faithfulProbes) a c) :
    (∀ x, 0 ≤ c.state.exact x ∧ (c.state.store.counter x : Int) = c.state.exact x % 2 ^ 64) ∧
    ((∀ t, c.thread t = none) → CountersMatch c.state.store ∧
      ∀ x, c.state.exact x = c.state.store.disk.total x) := by
  obtain ⟨g, hsound⟩ := reachable_ledger htree hboot h
  refine ⟨fun x => ?_, fun hquiet => ?_⟩
  · rw [hsound.inv.exact x, hsound.inv.counter x]
    exact ⟨Int.natCast_nonneg _, by push_cast; rfl⟩
  · obtain ⟨_, hexact, hmatch⟩ := reachable_balanced htree hboot h hquiet
    exact ⟨hmatch, hexact⟩

end Runs

/-- One call that works, with the ledger. -/
def auditedOk (c : Call) (a : Audited) : c.Ret × Audited :=
  ((c.exec .ok a.store).1, ⟨(c.exec .ok a.store).2, c.ledger a.exact⟩)

/-- A constructor with no failing call, over the disk of a store. -/
def bootedOk (s : Store) : Audited := (construct.run auditedOk ⟨s, fun _ => 0⟩).2

theorem boots_bootedOk {pol : Policy} {s : Store}
    (hok : (construct.run auditedOk ⟨s, fun _ => 0⟩).1 = .ok ()) :
    Boots (audited pol) (fun a => a.store.disk) s.disk (bootedOk s) := by
  have hcall : ∀ c a, audited pol c a (auditedOk c a).1 (auditedOk c a).2 :=
    fun c a => ⟨pol.sem_ok c a.store, rfl⟩
  exact boots_run hcall hok

/-- A store found `abc` at its start, was stopped as its first operation began, and
was constructed again. -/
theorem statistics_exact_stopped :
    ∃ c : Config Unit (Fin 256) Call Call.Ret Audited StoreOp StoreOp.Ret,
      Reachable (auditedSystem knownSha256 .faithfulProbes) (bootedOk abcStore) c ∧
      c.hist = [.inv 0 () (.delete .ofAbc)] ∧ c.thread () = none ∧
      c.state.store.counter .chunkCount = 1 ∧ c.state.store.counter .bytesUsed = 3 ∧
      0 ≤ c.state.exact .bytesUsed := by
  let sys := auditedSystem knownSha256 .faithfulProbes
  let a := bootedOk abcStore
  let c₁ : Config Unit (Fin 256) Call Call.Ret Audited StoreOp StoreOp.Ret :=
    (Config.init a).start () (.delete .ofAbc) (delete .ofAbc)
  let c₂ : Config Unit (Fin 256) Call Call.Ret Audited StoreOp StoreOp.Ret :=
    { c₁ with thread := fun _ => none, owner := fun _ => none, state := a }
  have hboot : Boots (audited .faithfulProbes) (fun a => a.store.disk) abcStore.disk a :=
    boots_bootedOk rfl
  have h₁ : Step sys (Config.init a) c₁ := .invoke rfl ⟨trivial, default, rfl⟩
  have hcrash : sys.crash c₁.state a := ⟨abcStore.disk, .inl rfl, hboot⟩
  have hreach : Reachable sys a c₂ := Relation.ReflTransGen.refl.tail h₁ |>.tail (.crash hcrash)
  obtain ⟨hexact, hquiet⟩ := statistics_exact isTree_abcStore hboot hreach
  obtain ⟨hmatch, _⟩ := hquiet fun _ => rfl
  refine ⟨c₂, hreach, rfl, rfl, ?_, ?_, (hexact .bytesUsed).1⟩
  · rw [hmatch .chunkCount, show c₂.state.store.disk.total .chunkCount = 1 from rfl]
    rfl
  · rw [hmatch .bytesUsed, show c₂.state.store.disk.total .bytesUsed = 3 from rfl]
    rfl

end NimbusFs.StorageNode
