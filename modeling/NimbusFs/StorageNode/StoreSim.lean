import NimbusFs.Lib.Linearizability
import NimbusFs.StorageNode.StoreInvariant

/-! # Each operation takes effect once

Every program of the store keeps the invariant and the promise of its thread
under every policy of faults, and takes effect at one of its steps as `MapSpec`
says: `Put` where it renames, `Delete` where it removes, the others while they
hold their lock. All later results about the store rest on this one. -/
namespace NimbusFs.StorageNode

open NimbusFs.Common Lib

/-! ## What the calls leave alone -/

section Quiet

variable {sha256 : Bytes → Digest} {id : ChunkId} {d : Disk}

theorem quiet_mkdirs {own : Path → Prop} {ps : List Path} (hps : ∀ p ∈ ps, p.length ≤ 2) :
    Quiet own d (d.mkdirs ps) := by
  refine ⟨fun p => ?_, fun p n hn => .inl (Disk.lost_mkdirs d ps ▸ hn)⟩
  rw [Disk.node_mkdirs]
  by_cases h : p ∈ ps ∧ d.node p = none
  · exact .inr (.inl ⟨h.2, hps p h.1, if_pos h⟩)
  · exact .inl (if_neg h)

theorem inits_length_le {p q : Path} (hq : q ∈ p.inits) : q.length ≤ p.length :=
  ((List.mem_inits q p).mp hq).length_le

theorem quiet_createDirectories {own : Path → Prop} {p : Path} (hp : p.length ≤ 2) (o : Outcome) :
    Quiet own d (d.createDirectories p o).2 := by
  have hlen : ∀ q ∈ p.inits, q.length ≤ 2 := fun q hq => (inits_length_le hq).trans hp
  cases o with
  | ok =>
    simp only [Disk.createDirectories]
    split
    · exact Quiet.refl _ _
    · exact quiet_mkdirs hlen
  | fail m => exact Quiet.refl _ _
  | short m n =>
    simp only [Disk.createDirectories]
    split
    · exact Quiet.refl _ _
    · exact quiet_mkdirs fun q hq => hlen q (List.mem_of_mem_take hq)

/-- A step that puts a file where there is no directory. -/
theorem quiet_setNode {u : UuidV4} {b : Bytes} {dirty : Bool}
    (hd : d.node (tmpPathFor id u) ≠ some .dir) {d' : Disk}
    (hnode : ∀ p, d'.node p = if p = tmpPathFor id u then some (.file b dirty) else d.node p)
    (hlost : d'.lost = d.lost) : Quiet (IsTmp id) d d' := by
  refine ⟨fun p => ?_, fun p n hn => .inl (hlost ▸ hn)⟩
  rw [hnode p]
  by_cases hp : p = tmpPathFor id u
  · subst hp
    exact .inr (.inr ⟨⟨u, rfl⟩, hd, by simp⟩)
  · exact .inl (if_neg hp)

theorem quiet_openTmp (u : UuidV4) (mode : Disk.OpenMode) (o : Outcome) :
    Quiet (IsTmp id) d (d.internalOpen (tmpPathFor id u) mode o).2 := by
  unfold Disk.internalOpen
  split
  · split
    · rename_i b dirty hn
      exact quiet_setNode (by simp [hn]) (fun p => Disk.node_setNode d _ p _) rfl
    · exact Quiet.refl _ _
    · rename_i hn
      split
      · exact quiet_setNode (by simp [hn]) (fun p => Disk.node_addEntry d _ p _) rfl
      · exact Quiet.refl _ _
  · exact Quiet.refl _ _
  · exact Quiet.refl _ _
  · exact Quiet.refl _ _

theorem quiet_append (u : UuidV4) (data : Bytes) :
    Quiet (IsTmp id) d (Disk.write.append d (tmpPathFor id u) data) := by
  unfold Disk.write.append
  split
  · rename_i b dirty hn
    exact quiet_setNode (by simp [hn]) (fun p => Disk.node_setNode d _ p _) rfl
  · exact Quiet.refl _ _

theorem quiet_writeTmp (u : UuidV4) (data : Bytes) (o : Outcome) :
    Quiet (IsTmp id) d (d.write (tmpPathFor id u) data o).2 := by
  cases o with
  | ok => exact quiet_append u data
  | fail m => exact Quiet.refl _ _
  | short m n => exact quiet_append u (data.take n)

theorem quiet_fsyncTmp (hinv : DiskInv sha256 d) (u : UuidV4) (o : Outcome) :
    Quiet (IsTmp id) d (d.internalFsync (tmpPathFor id u) o).2 := by
  unfold Disk.internalFsync
  split
  · split
    · rename_i b dirty hn
      exact quiet_setNode (by simp [hn]) (fun p => Disk.node_setNode d _ p _) rfl
    · rename_i hn
      exact absurd hn (hinv.tmp_ne_dir id u)
    · exact Quiet.refl _ _
  · exact Quiet.refl _ _
  · exact Quiet.refl _ _

theorem quiet_fsyncDir (hinv : DiskInv sha256 d) {p : Path} (hp : p.length ≤ 2) (o : Outcome) :
    Quiet (IsTmp id) d (d.internalFsync p o).2 := by
  unfold Disk.internalFsync
  split
  · split
    · rename_i b dirty hn
      have := (hinv _ _ (.inl hn)).upper hp
      cases this
    · refine ⟨fun q => .inl rfl, fun q n hn => .inl ?_⟩
      dsimp only at hn
      split at hn
      · simp at hn
      · exact hn
    · exact Quiet.refl _ _
  · exact Quiet.refl _ _
  · exact Quiet.refl _ _

theorem quiet_removeTmp (hinv : DiskInv sha256 d) (u : UuidV4) (o : Outcome) :
    Quiet (IsTmp id) d (d.remove (tmpPathFor id u) o).2 := by
  unfold Disk.remove
  split
  · split
    · exact Quiet.refl _ _
    · rename_i b dirty hn
      refine ⟨fun p => ?_, fun p n hlost => ?_⟩
      · dsimp only
        rw [Disk.node_removeEntry]
        by_cases hp : p = tmpPathFor id u
        · subst hp
          exact .inr (.inr ⟨⟨u, rfl⟩, by simp [hn], by simp⟩)
        · exact .inl (if_neg hp)
      · dsimp only at hlost
        rw [Disk.lost_removeEntry] at hlost
        split at hlost
        · rename_i hp
          subst hp
          rw [hn] at hlost
          rcases List.mem_append.mp hlost with h | h
          · right
            refine ⟨⟨u, rfl⟩, ?_⟩
            rw [List.mem_singleton.mp h]
            simp
          · exact .inl h
        · exact .inl hlost
    · rename_i hn
      exact absurd hn (hinv.tmp_ne_dir id u)
  · exact Quiet.refl _ _
  · exact Quiet.refl _ _

end Quiet

/-! ## Rules for the programs of the store -/

section Rules

variable {sha256 : Bytes → Digest} {pol : Policy} {o : StoreOp} {id : ChunkId} {α : Type}

/-- `Sim` for the store, about operation `o`. -/
abbrev StoreSim (sha256 : Bytes → Digest) (pol : Policy) (o : StoreOp)
    (Q : (Fin 256 → Nat) → Option (Sigma StoreOp.Ret) → α → Store → Prop)
    (p : StoreProg α) (held : Fin 256 → Nat) (g : Option (Sigma StoreOp.Ret)) (s : Store) : Prop :=
  Sim (storeProtocol sha256) pol.sem (linUpd (MapSpec sha256 pol) view o) Q p held g s

/-- The locks of a thread that is in an operation on `id`. -/
def oneLock (id : ChunkId) : Fin 256 → Nat := Function.update (fun _ => 0) (lockFor id) 1

theorem oneLock_self (id : ChunkId) : oneLock id (lockFor id) = 1 := by simp [oneLock]

theorem oneLock_ne_zero (id : ChunkId) : oneLock id (lockFor id) ≠ 0 := by simp [oneLock]

/-- At the end of the locked part: the operation has taken effect with its
result, or it has not, and the result is right for the entry as it is. -/
def BodyPost (sha256 : Bytes → Digest) (pol : Policy) (o : StoreOp) (id : ChunkId)
    (held : Fin 256 → Nat) (g : Option (Sigma StoreOp.Ret)) (r : o.Ret) (s : Store) : Prop :=
  held = oneLock id ∧
    (g = some ⟨o, r⟩ ∨ (g = none ∧ OpSpec sha256 pol o r (view s id) (view s id)))

theorem view_of_rely {held : Fin 256 → Nat} {s s' : Store} (hheld : held (lockFor id) ≠ 0)
    (h : Rely held s s') : view s' id = view s id := by
  simp only [view, Disk.contents, h.2 id _ hheld (belongs_finalPathFor id)]

theorem sim_ret_done {r : o.Ret} {s : Store} :
    StoreSim sha256 pol o (BodyPost sha256 pol o id) (.ret r) (oneLock id) (some ⟨o, r⟩) s :=
  fun _ _ _ => ⟨rfl, .inl rfl⟩

theorem sim_ret_pure {r : o.Ret} {s : Store}
    (h : OpSpec sha256 pol o r (view s id) (view s id)) :
    StoreSim sha256 pol o (BodyPost sha256 pol o id) (.ret r) (oneLock id) none s := by
  intro s₁ hr _
  refine ⟨rfl, .inr ⟨rfl, ?_⟩⟩
  rw [view_of_rely (oneLock_ne_zero id) hr]
  exact h

/-- A call that leaves the chunks alone, under the lock of `id`. -/
theorem sim_quiet {c : Call} {k : c.Ret → StoreProg α} {held : Fin 256 → Nat}
    {g : Option (Sigma StoreOp.Ret)} {s : Store}
    {Q : (Fin 256 → Nat) → Option (Sigma StoreOp.Ret) → α → Store → Prop}
    (hheld : held (lockFor id) ≠ 0)
    (h : ∀ s₁, Rely held s s₁ → DiskInv sha256 s₁.disk → ∀ oc, pol.allows c oc →
      Quiet (IsTmp id) s₁.disk (c.exec oc s₁).2.disk ∧
      StoreSim sha256 pol o Q (k (c.exec oc s₁).1) held g (c.exec oc s₁).2) :
    StoreSim sha256 pol o Q (.call c k) held g s := by
  intro s₁ hr hi r s₂ hsem
  obtain ⟨oc, ha, he⟩ := hsem
  obtain ⟨hq, hk⟩ := h s₁ hr hi oc ha
  rw [he] at hq hk
  exact ⟨hq.inv hi, hq.guar hheld, g, .inl ⟨hq.view, rfl⟩, hk⟩

/-- Making directories needs no lock. -/
theorem sim_mkdir {p : Path} (hp : p.length ≤ 2) {k : ErrorCode → StoreProg α}
    {held : Fin 256 → Nat} {g : Option (Sigma StoreOp.Ret)} {s : Store}
    {Q : (Fin 256 → Nat) → Option (Sigma StoreOp.Ret) → α → Store → Prop}
    (h : ∀ s₁ oc, StoreSim sha256 pol o Q (k ((Call.createDirectories p).exec oc s₁).1) held g
      ((Call.createDirectories p).exec oc s₁).2) :
    StoreSim sha256 pol o Q (.call (.createDirectories p) k) held g s := by
  intro s₁ _ hi r s₂ hsem
  obtain ⟨oc, _, he⟩ := hsem
  have hk := h s₁ oc
  have hq : ∀ own, Quiet own s₁.disk ((Call.createDirectories p).exec oc s₁).2.disk := fun _ =>
    quiet_createDirectories hp oc
  rw [he] at hq hk
  -- no file changes, so those of any chunk will do
  have hany := hq (IsTmp (.fromDigest (sha256 [])))
  refine ⟨hany.inv hi, ?_, g, .inl ⟨hany.view, rfl⟩, hk⟩
  refine ⟨fun q hd => ?_, fun q => ?_⟩
  · rcases (hq fun _ => False).node q with heq | ⟨hnone, _⟩ | ⟨hf, _⟩
    · rw [heq]; exact hd
    · rw [hnone] at hd; cases hd
    · exact hf.elim
  · rcases (hq fun _ => False).node q with heq | ⟨_, hlen, _⟩ | ⟨hf, _⟩
    · exact .inl heq
    · exact .inr (.inl hlen)
    · exact hf.elim

/-- A call that reads, or closes, or counts. -/
theorem sim_read {c : Call} {k : c.Ret → StoreProg α} {held : Fin 256 → Nat}
    {g : Option (Sigma StoreOp.Ret)} {s : Store}
    {Q : (Fin 256 → Nat) → Option (Sigma StoreOp.Ret) → α → Store → Prop}
    (hc : ∀ oc s, (c.exec oc s).2.disk = s.disk)
    (h : ∀ s₁, Rely held s s₁ → DiskInv sha256 s₁.disk → ∀ oc, pol.allows c oc →
      StoreSim sha256 pol o Q (k (c.exec oc s₁).1) held g (c.exec oc s₁).2) :
    StoreSim sha256 pol o Q (.call c k) held g s := by
  intro s₁ hr hi r s₂ hsem
  obtain ⟨oc, ha, he⟩ := hsem
  have hk := h s₁ hr hi oc ha
  have hd := hc oc s₁
  rw [he] at hd hk
  dsimp only at hd hk
  refine ⟨?_, ⟨fun p hp => hd ▸ hp, fun p => .inl (by rw [hd])⟩, g, .inl ⟨?_, rfl⟩, hk⟩
  · change DiskInv sha256 s₂.disk
    rw [hd]; exact hi
  · funext id'
    simp only [view, hd]

/-- An operation whose body runs under the lock of its id. -/
theorem linSim_guarded {body : StoreProg o.Ret} (ho : o.target = some id)
    (hbody : ∀ s, DiskInv sha256 s.disk →
      StoreSim sha256 pol o (BodyPost sha256 pol o id) body (oneLock id) none s) :
    LinSim (storeProtocol sha256) pol.sem (MapSpec sha256 pol) view
      (Prog.guarded (lockFor id) body) := by
  intro s hinv s₁ hr hi₁
  refine Sim.bind (Sim.mono ?_ (hbody s₁ hi₁))
  rintro held g r s₂ ⟨rfl, hg⟩ s₃ hr₃ hi₃
  have hfree : ∀ l, Function.update (oneLock id) (lockFor id) (oneLock id (lockFor id) - 1) l = 0 := by
    intro l
    by_cases hl : l = lockFor id
    · subst hl; simp [oneLock_self]
    · simp [oneLock, hl]
  rcases hg with rfl | ⟨rfl, hs⟩
  · exact ⟨_, .inl ⟨rfl, rfl⟩, fun _ _ _ => ⟨hfree, .inl rfl⟩⟩
  · refine ⟨some ⟨o, r⟩, .inr ⟨rfl, r, rfl, ?_⟩, fun _ _ _ => ⟨hfree, .inl rfl⟩⟩
    rw [← view_of_rely (oneLock_ne_zero id) hr₃] at hs
    unfold MapSpec
    rw [ho]
    exact ⟨hs, fun _ _ => rfl⟩

theorem allows_fault {c : Call} {oc : Outcome} (hc : c.isProbe = false) (ha : pol.allows c oc)
    (hne : oc ≠ .ok) : pol.fault = true := by
  rcases ha with h | h
  · exact absurd h hne
  · simpa [hc] using h

theorem allows_probeFault {c : Call} {oc : Outcome} (hc : c.isProbe = true)
    (ha : pol.allows c oc) (hne : oc ≠ .ok) : pol.probeFault = true := by
  rcases ha with h | h
  · exact absurd h hne
  · simpa [hc] using h

/-! ## `Exists` -/

/-- The probe of `Exists`, whatever lock protects it. -/
theorem sim_existsPath {held : Fin 256 → Nat} {g : Option (Sigma StoreOp.Ret)} {s : Store}
    {k : Bool → StoreProg α}
    {Q : (Fin 256 → Nat) → Option (Sigma StoreOp.Ret) → α → Store → Prop}
    (h : ∀ s₁, Rely held s s₁ → DiskInv sha256 s₁.disk → ∀ found : Bool,
      (found = (view s₁ id).isSome ∨ (pol.probeFault = true ∧ found = false)) →
      StoreSim sha256 pol o Q (k found) held g s₁) :
    StoreSim sha256 pol o Q
      (.call (.existsPath (finalPathFor id)) fun r => k (r.1 && r.2.isNone)) held g s := by
  refine sim_read (fun _ _ => rfl) fun s₁ hr hi oc ha => h s₁ hr hi _ ?_
  have hview : (s₁.disk.node (finalPathFor id)).isSome = (view s₁ id).isSome := by
    rcases hi.final id with ⟨hn, hc⟩ | ⟨b, hn, hc, _⟩ <;> simp [view, hn, hc]
  cases oc with
  | ok => left; simp [exec_existsPath_ok, hview]
  | fail m => exact .inr ⟨allows_probeFault rfl ha (by simp), by simp [Call.exec, Disk.existsPath]⟩
  | short m n => exact .inr ⟨allows_probeFault rfl ha (by simp), by simp [Call.exec, Disk.existsPath]⟩

theorem existsChunk_linSim (id : ChunkId) :
    LinSim (storeProtocol sha256) pol.sem (MapSpec sha256 pol) view (o := .existsChunk id)
      (existsChunk id) := by
  refine linSim_guarded (o := .existsChunk id) rfl fun s _ => ?_
  refine sim_existsPath (k := fun found => .ret found) fun s₁ _ _ found hf => ?_
  exact sim_ret_pure ⟨rfl, hf⟩

/-- `Exists` inside `Put`: the lock is taken a second time and given back. -/
theorem sim_existsChunk {g : Option (Sigma StoreOp.Ret)} {s : Store} {k : Bool → StoreProg α}
    {Q : (Fin 256 → Nat) → Option (Sigma StoreOp.Ret) → α → Store → Prop}
    (h : ∀ s₁, DiskInv sha256 s₁.disk → ∀ found : Bool,
      (found = (view s₁ id).isSome ∨ (pol.probeFault = true ∧ found = false)) →
      StoreSim sha256 pol o Q (k found) (oneLock id) g s₁) :
    StoreSim sha256 pol o Q (existsChunk id >>= k) (oneLock id) g s := by
  intro s₁ _ hi₁
  refine sim_existsPath (k := fun found => .unlock (lockFor id) (k found))
    fun s₂ _ hi₂ found hf s₃ hr₃ hi₃ => ⟨g, .inl ⟨rfl, rfl⟩, ?_⟩
  have hback : Function.update (Function.update (oneLock id) (lockFor id)
      (oneLock id (lockFor id) + 1)) (lockFor id) ((Function.update (oneLock id) (lockFor id)
      (oneLock id (lockFor id) + 1)) (lockFor id) - 1) = oneLock id := by
    simp
  rw [hback]
  rw [← view_of_rely (by simp) hr₃] at hf
  exact h s₃ hi₃ found hf

/-! ## `Get` and `VerifyOnly` -/

/-- `Get` at the end of its locked part. -/
def GetPost (pol : Policy) (id : ChunkId) (held : Fin 256 → Nat)
    (g : Option (Sigma StoreOp.Ret)) (r : Result Bytes) (s : Store) : Prop :=
  held = oneLock id ∧ g = none ∧ GetSpec pol r (view s id)

theorem sim_ret_get {r : Result Bytes} {s : Store} (h : GetSpec pol r (view s id)) :
    StoreSim sha256 pol o (GetPost pol id) (.ret r) (oneLock id) none s := by
  intro s₁ hr _
  refine ⟨rfl, rfl, ?_⟩
  rw [view_of_rely (oneLock_ne_zero id) hr]
  exact h

theorem getSpec_ioError (h : pol.fault = true) (m : String) (e : Option Bytes) :
    GetSpec pol (ioError m) e := .inr (.inr ⟨h, m, rfl⟩)

/-- A read that is not cut short gives the file, any other a part of it. -/
theorem read_contents {d : Disk} {p : Path} {b : Bytes} (h : d.contents p = some b)
    (oc : Outcome) : (oc = .ok ∧ d.read p b.length oc = some b) ∨
      (oc ≠ .ok ∧ ∀ data, d.read p b.length oc = some data → data.length = b.length → data = b) := by
  cases oc with
  | ok => left; simp [Disk.read, h]
  | fail m => right; simp [Disk.read]
  | short m n =>
    right
    refine ⟨by simp, fun data hd hlen => ?_⟩
    simp only [Disk.read, h, Option.map_some, Option.some.injEq] at hd
    subst hd
    exact List.take_of_length_le (by rw [List.length_take] at hlen; omega)

theorem getRead_sim {b : Bytes} (hb : sha256 b = id.digest) {s : Store}
    (hs : view s id = some b) :
    StoreSim sha256 pol o (GetPost pol id) (getRead sha256 id b.length (finalPathFor id))
      (oneLock id) none s := by
  have hok : ∀ s₁, view s₁ id = some b → GetSpec pol (checkContents sha256 id b) (view s₁ id) := by
    intro s₁ h₁
    left
    simp [checkContents, hb, h₁, lookupResult]
  unfold getRead
  by_cases hlen : b.length = 0
  · rw [if_pos hlen]
    refine sim_read (fun _ _ => rfl) fun s₁ hr _ _ _ => sim_ret_get ?_
    obtain rfl := List.length_eq_zero_iff.mp hlen
    exact hok s₁ (view_of_rely (oneLock_ne_zero id) hr ▸ hs)
  · rw [if_neg hlen]
    refine sim_read (fun _ _ => rfl) fun s₁ hr _ oc ha => ?_
    have hs₁ : view s₁ id = some b := view_of_rely (oneLock_ne_zero id) hr ▸ hs
    refine sim_read (fun _ _ => rfl) fun s₂ hr₂ _ _ _ => ?_
    have hs₂ : view s₂ id = some b := view_of_rely (oneLock_ne_zero id) hr₂ ▸ hs₁
    refine sim_ret_get ?_
    show GetSpec pol (checkRead sha256 id b.length
      (s₁.disk.read (finalPathFor id) b.length oc)) (view s₂ id)
    rcases read_contents hs₁ oc with ⟨_, hread⟩ | ⟨hne, hread⟩
    · rw [hread]
      simpa [checkRead] using hok s₂ hs₂
    · have hfault : pol.fault = true := allows_fault rfl ha hne
      cases hdata : s₁.disk.read (finalPathFor id) b.length oc with
      | none => exact getSpec_ioError hfault _ _
      | some data =>
        by_cases hl : data.length = b.length
        · rw [hread data hdata hl]
          simpa [checkRead] using hok s₂ hs₂
        · simp only [checkRead, ne_eq, hl, not_false_eq_true, if_true]
          exact getSpec_ioError hfault _ _

theorem getLocked_sim (s : Store) :
    StoreSim sha256 pol o (GetPost pol id) (getLocked sha256 id) (oneLock id) none s := by
  refine sim_read (fun _ _ => rfl) fun s₁ _ hi oc ha => ?_
  have hprobe : oc ≠ .ok → GetSpec pol chunkNotFound (view s₁ id) := fun hne =>
    .inr (.inl ⟨allows_probeFault rfl ha hne, rfl⟩)
  cases oc with
  | fail m => exact sim_ret_get (hprobe (by simp))
  | short m n => exact sim_ret_get (hprobe (by simp))
  | ok =>
    rcases hi.final id with ⟨hn, hc⟩ | ⟨b, hn, hc, hb⟩
    · simp only [Call.exec, Disk.fileSize, hn]
      refine sim_ret_get (.inl ?_)
      rw [view, hc]
      rfl
    · simp only [Call.exec, Disk.fileSize, hn]
      refine sim_read (fun oc s => by cases oc <;> rfl) fun s₂ hr₂ hi₂ oc ha => ?_
      have hs₂ : view s₂ id = some b := view_of_rely (oneLock_ne_zero id) hr₂ ▸ hc
      have hn₂ : s₂.disk.node (finalPathFor id) = some (.file b false) := by
        rw [hr₂.2 id _ (oneLock_ne_zero id) (belongs_finalPathFor id), hn]
      have hfault : oc ≠ .ok → GetSpec pol (ioError "Failed to open chunk file for read")
          (view s₂ id) := fun hne => getSpec_ioError (allows_fault rfl ha hne) _ _
      cases oc with
      | ok =>
        simp only [Call.exec, Disk.internalOpen, Store.withDisk, hn₂, Option.isSome_some, if_true]
        exact getRead_sim hb hs₂
      | fail m => exact sim_ret_get (hfault (by simp))
      | short m n => exact sim_ret_get (hfault (by simp))

theorem get_linSim (id : ChunkId) :
    LinSim (storeProtocol sha256) pol.sem (MapSpec sha256 pol) view (o := .get id)
      (get sha256 id) := by
  refine linSim_guarded (o := .get id) rfl fun s _ => Sim.mono ?_ (getLocked_sim s)
  intro held g r s hprobe
  obtain ⟨rfl, rfl, hr⟩ := hprobe
  exact ⟨rfl, .inr ⟨rfl, rfl, hr⟩⟩

theorem verifyOnly_linSim (id : ChunkId) :
    LinSim (storeProtocol sha256) pol.sem (MapSpec sha256 pol) view (o := .verifyOnly id)
      (verifyOnly sha256 id) := by
  rw [verifyOnly, get, show ((Prog.guarded (lockFor id) (getLocked sha256 id)) >>=
    fun res => pure (forgetBytes res)) = _ from Prog.guarded_map _ _ _]
  refine linSim_guarded (o := .verifyOnly id) rfl fun s _ => Sim.bind (Sim.mono ?_ (getLocked_sim s))
  intro held g r s hprobe
  obtain ⟨rfl, rfl, hr⟩ := hprobe
  exact sim_ret_pure ⟨rfl, r, rfl, hr⟩

/-! ## Steps that change a chunk -/

/-- Of the files, only those of `id` change, and no directory. -/
def ChangesOnly (id : ChunkId) (d d' : Disk) : Prop :=
  ∀ p, d'.node p = d.node p ∨ (Belongs id p ∧ d.node p ≠ some .dir)

theorem ChangesOnly.guar {held : Fin 256 → Nat} {s s' : Store}
    (h : ChangesOnly id s.disk s'.disk) (hheld : held (lockFor id) ≠ 0) : Guar held s s' := by
  refine ⟨fun p hp => ?_, fun p => ?_⟩
  · rcases h p with heq | ⟨_, hd⟩
    · rw [heq]; exact hp
    · exact absurd hp hd
  · rcases h p with heq | ⟨hb, _⟩
    · exact .inl heq
    · exact .inr (.inr ⟨id, hheld, hb⟩)

theorem ChangesOnly.others {s s' : Store} (h : ChangesOnly id s.disk s'.disk) (id' : ChunkId)
    (hne : id' ≠ id) : view s' id' = view s id' := by
  rcases h (finalPathFor id') with heq | ⟨hb, _⟩
  · simp only [view, Disk.contents, heq]
  · exact absurd ((belongs_finalPathFor id').unique hb) hne

/-- The call where the operation takes effect. -/
theorem sim_effect {c : Call} {k : c.Ret → StoreProg o.Ret} {s : Store} (ho : o.target = some id)
    {Q : (Fin 256 → Nat) → Option (Sigma StoreOp.Ret) → o.Ret → Store → Prop}
    (h : ∀ s₁, Rely (oneLock id) s s₁ → DiskInv sha256 s₁.disk → ∀ oc, pol.allows c oc →
      ((c.exec oc s₁).2 = s₁ ∧ StoreSim sha256 pol o Q (k (c.exec oc s₁).1) (oneLock id) none s₁) ∨
      (DiskInv sha256 (c.exec oc s₁).2.disk ∧ ChangesOnly id s₁.disk (c.exec oc s₁).2.disk ∧
        ∃ r, OpSpec sha256 pol o r (view s₁ id) (view (c.exec oc s₁).2 id) ∧
          StoreSim sha256 pol o Q (k (c.exec oc s₁).1) (oneLock id) (some ⟨o, r⟩)
            (c.exec oc s₁).2)) :
    StoreSim sha256 pol o Q (.call c k) (oneLock id) none s := by
  intro s₁ hr hi r s₂ hsem
  obtain ⟨oc, ha, he⟩ := hsem
  rcases h s₁ hr hi oc ha with ⟨hsame, hk⟩ | ⟨hi₂, hch, res, hs, hk⟩
  · rw [he] at hsame hk
    dsimp only at hsame
    subst hsame
    exact ⟨hi, ⟨fun _ hp => hp, fun _ => .inl rfl⟩, none, .inl ⟨rfl, rfl⟩, hk⟩
  · rw [he] at hi₂ hch hs hk
    refine ⟨hi₂, hch.guar (oneLock_ne_zero id), some ⟨o, res⟩, .inr ⟨rfl, res, rfl, ?_⟩, hk⟩
    unfold MapSpec
    rw [ho]
    exact ⟨hs, hch.others⟩

/-! ## `Delete` -/

theorem removeEntry_changesOnly {d : Disk} {p : Path} (hb : Belongs id p)
    (hd : d.node p ≠ some .dir) : ChangesOnly id d (d.removeEntry p) := by
  intro q
  rw [Disk.node_removeEntry]
  by_cases hq : q = p
  · subst hq; exact .inr ⟨hb, hd⟩
  · exact .inl (if_neg hq)

theorem DiskInv.removeEntry {d : Disk} (h : DiskInv sha256 d) (p : Path) :
    DiskInv sha256 (d.removeEntry p) := by
  intro q n hn
  rcases hn with hn | hn
  · rw [Disk.node_removeEntry] at hn
    split at hn
    · cases hn
    · exact h q n (.inl hn)
  · rw [Disk.lost_removeEntry] at hn
    split at hn
    · rename_i hq
      subst hq
      rcases List.mem_append.mp hn with hn | hn
      · exact h q n (.inl (Option.mem_toList.mp hn))
      · exact h q n (.inr hn)
    · exact h q n (.inr hn)

theorem DiskInv.addEntry {d : Disk} (h : DiskInv sha256 d) {p : Path} {n : Node}
    (hn : NodeOk sha256 p n) : DiskInv sha256 (d.addEntry p n) := by
  intro q m hm
  rcases hm with hm | hm
  · rw [Disk.node_addEntry] at hm
    split at hm
    · rename_i hq
      subst hq
      cases hm
      exact hn
    · exact h q m (.inl hm)
  · exact h q m (.inr hm)

theorem delete_linSim (id : ChunkId) :
    LinSim (storeProtocol sha256) pol.sem (MapSpec sha256 pol) view (o := .delete id)
      (delete id) := by
  refine linSim_guarded (o := .delete id) rfl fun s _ => ?_
  refine sim_read (fun _ _ => rfl) fun s₁ _ hi oc ha => ?_
  have hprobe : oc ≠ .ok → OpSpec sha256 pol (.delete id) (.ok ()) (view s₁ id) (view s₁ id) :=
    fun hne => .inr (.inl ⟨allows_probeFault rfl ha hne, rfl, rfl⟩)
  cases oc with
  | fail m => exact sim_ret_pure (hprobe (by simp))
  | short m n => exact sim_ret_pure (hprobe (by simp))
  | ok =>
    rcases hi.final id with ⟨hn, hc⟩ | ⟨b, hn, hc, _⟩
    · simp only [Call.exec, Disk.fileSize, hn]
      exact sim_ret_pure (.inl ⟨rfl, hc⟩)
    · simp only [Call.exec, Disk.fileSize, hn]
      refine sim_effect rfl fun s₂ hr₂ hi₂ oc ha => ?_
      have hn₂ : s₂.disk.node (finalPathFor id) = some (.file b false) := by
        rw [hr₂.2 id _ (oneLock_ne_zero id) (belongs_finalPathFor id), hn]
      have hfault : ∀ m, oc ≠ .ok →
          OpSpec sha256 pol (.delete id) (ioError m) (view s₂ id) (view s₂ id) :=
        fun m hne => .inr (.inr ⟨allows_fault rfl ha hne, ⟨m, rfl⟩, rfl⟩)
      cases oc with
      | fail m => exact .inl ⟨rfl, sim_ret_pure (hfault _ (by simp))⟩
      | short m n => exact .inl ⟨rfl, sim_ret_pure (hfault _ (by simp))⟩
      | ok =>
        right
        simp only [Call.exec, Disk.remove, Store.withDisk, hn₂]
        refine ⟨hi₂.removeEntry _, removeEntry_changesOnly (belongs_finalPathFor id) (by simp [hn₂]),
          .ok (), .inl ⟨rfl, by simp [view, Disk.contents]⟩, ?_⟩
        refine sim_read (fun _ _ => rfl) fun _ _ _ _ _ => ?_
        refine sim_read (fun _ _ => rfl) fun _ _ _ _ _ => sim_ret_done

/-! ## `Put` -/

section Put

variable {data : Bytes} {u : UuidV4}

theorem putFinish_sim {s : Store} :
    StoreSim sha256 pol (.put id data) (BodyPost sha256 pol (.put id data) id)
      (putFinish id data) (oneLock id) (some ⟨.put id data, .ok ()⟩) s := by
  have hcount : ∀ s k, (∀ s', StoreSim sha256 pol (.put id data)
      (BodyPost sha256 pol (.put id data) id) k (oneLock id) (some ⟨.put id data, .ok ()⟩) s') →
      StoreSim sha256 pol (.put id data) (BodyPost sha256 pol (.put id data) id)
        (.call (.fetchAdd .chunkCount 1) fun _ => .call (.fetchAdd .bytesUsed data.length)
          fun _ => k) (oneLock id) (some ⟨.put id data, .ok ()⟩) s := fun s k hk =>
    sim_read (fun _ _ => rfl) fun _ _ _ _ _ => sim_read (fun _ _ => rfl) fun _ _ _ _ _ => hk _
  refine sim_read (fun oc s => by cases oc <;> rfl) fun s₁ _ _ oc _ => ?_
  have hfd : ((Call.internalOpen (shardDirFor id) .directory).exec oc s₁).1 = none ∨
      ((Call.internalOpen (shardDirFor id) .directory).exec oc s₁).1 = some (shardDirFor id) := by
    cases oc with
    | ok =>
      simp only [Call.exec, Store.withDisk, Disk.internalOpen]
      split <;> simp
    | fail m => exact .inl rfl
    | short m n => exact .inl rfl
  rcases hfd with h | h
  · rw [h]
    exact hcount _ _ fun _ => sim_ret_done
  · rw [h]
    refine sim_quiet (oneLock_ne_zero id) fun s₂ _ hi₂ oc _ =>
      ⟨quiet_fsyncDir hi₂ (shardDirFor_length id).le oc, ?_⟩
    exact hcount _ _ fun _ => sim_read (fun _ _ => rfl) fun _ _ _ _ _ => sim_ret_done

/-- An error of `Put` before it takes effect. -/
theorem sim_ret_putError (hsha : sha256 data = id.digest) (hf : pol.fault = true) (m : String)
    {s : Store} :
    StoreSim sha256 pol (.put id data) (BodyPost sha256 pol (.put id data) id)
      (.ret (ioError m)) (oneLock id) none s :=
  sim_ret_pure (.inr ⟨hsha, .inr (.inr ⟨hf, ⟨m, rfl⟩, rfl⟩)⟩)

theorem putAbandon_sim (hsha : sha256 data = id.digest) (hf : pol.fault = true) (m : String)
    {s : Store} :
    StoreSim sha256 pol (.put id data) (BodyPost sha256 pol (.put id data) id)
      (putAbandon (tmpPathFor id u) m) (oneLock id) none s :=
  sim_quiet (oneLock_ne_zero id) fun _ _ hi oc _ => ⟨quiet_removeTmp hi u oc,
    sim_read (fun _ _ => rfl) fun _ _ _ _ _ => sim_ret_putError hsha hf m⟩

/-- What is known before the rename, and stays so under the lock. -/
structure PutReady (sha256 : Bytes → Digest) (pol : Policy) (id : ChunkId) (data : Bytes)
    (u : UuidV4) (n : Node) (s : Store) : Prop where
  hash : sha256 data = id.digest
  shard : s.disk.node (shardDirFor id) = some .dir
  fresh : view s id = none ∨ pol.probeFault = true
  tmp : s.disk.node (tmpPathFor id u) = some n

theorem PutReady.rely {n : Node} {s s' : Store} (h : PutReady sha256 pol id data u n s)
    (hr : Rely (oneLock id) s s') : PutReady sha256 pol id data u n s' where
  hash := h.hash
  shard := hr.1 _ h.shard
  fresh := by rw [view_of_rely (oneLock_ne_zero id) hr]; exact h.fresh
  tmp := by rw [hr.2 id _ (oneLock_ne_zero id) (belongs_tmpPathFor id u)]; exact h.tmp

theorem PutReady.quiet {n n' : Node} {s s' : Store} (h : PutReady sha256 pol id data u n s)
    (hq : Quiet (IsTmp id) s.disk s'.disk)
    (htmp : s'.disk.node (tmpPathFor id u) = some n') : PutReady sha256 pol id data u n' s' where
  hash := h.hash
  shard := (hq.guar (oneLock_ne_zero id)).1 _ h.shard
  fresh := by rw [hq.view]; exact h.fresh
  tmp := htmp

/-- The rename takes effect: the temporary file is now the chunk. -/
theorem putRename_effect {s : Store} (h : PutReady sha256 pol id data u (.file data false) s)
    (hinv : DiskInv sha256 s.disk) (s' : Store)
    (hs' : s'.disk = ((s.disk.removeEntry (tmpPathFor id u)).removeEntry (finalPathFor id)).addEntry
      (finalPathFor id) (.file data false)) :
    DiskInv sha256 s'.disk ∧ ChangesOnly id s.disk s'.disk ∧
      OpSpec sha256 pol (.put id data) (.ok ()) (view s id) (view s' id) := by
  refine ⟨?_, fun p => ?_, .inr ⟨h.hash, .inr (.inl ⟨rfl, h.fresh, ?_⟩)⟩⟩
  · rw [hs']
    exact ((hinv.removeEntry _).removeEntry _).addEntry (nodeOk_final h.hash)
  · rw [hs', Disk.node_addEntry, Disk.node_removeEntry, Disk.node_removeEntry]
    by_cases hf : p = finalPathFor id
    · subst hf
      refine .inr ⟨belongs_finalPathFor id, ?_⟩
      rcases hinv.final id with ⟨hn, _⟩ | ⟨b, hn, _⟩ <;> simp [hn]
    · by_cases ht : p = tmpPathFor id u
      · subst ht
        exact .inr ⟨belongs_tmpPathFor id u, by simp [h.tmp]⟩
      · exact .inl (by simp [hf, ht])
  · simp [view, Disk.contents, hs']

theorem putRename_sim {s : Store} (h : PutReady sha256 pol id data u (.file data false) s) :
    StoreSim sha256 pol (.put id data) (BodyPost sha256 pol (.put id data) id)
      (putRename id data (tmpPathFor id u)) (oneLock id) none s := by
  refine sim_effect rfl fun s₁ hr hi oc ha => ?_
  have h₁ := h.rely hr
  have hfail : oc ≠ .ok → StoreSim sha256 pol (.put id data) (BodyPost sha256 pol (.put id data) id)
      (.call (.remove (tmpPathFor id u)) fun _ => .ret
        (ioError "Failed to atomically rename chunk file")) (oneLock id) none s₁ := fun hne =>
    sim_quiet (oneLock_ne_zero id) fun _ _ hi oc' _ => ⟨quiet_removeTmp hi u oc',
      sim_ret_putError h.hash (allows_fault rfl ha hne) _⟩
  cases oc with
  | fail m => exact .inl ⟨rfl, hfail (by simp)⟩
  | short m n => exact .inl ⟨rfl, hfail (by simp)⟩
  | ok =>
    right
    have hdst : s₁.disk.node (finalPathFor id) ≠ some .dir := by
      rcases hi.final id with ⟨hn, _⟩ | ⟨b, hn, _⟩ <;> simp [hn]
    simp only [Call.exec, Disk.rename, Store.withDisk, h₁.tmp, if_neg hdst, finalPathFor_dropLast,
      h₁.shard, ne_eq, not_true_eq_false, if_false]
    obtain ⟨hinv, hch, hs⟩ := putRename_effect h₁ hi ⟨_, s₁.counter⟩ rfl
    exact ⟨hinv, hch, .ok (), hs, putFinish_sim⟩

theorem putFsync_sim {s : Store} {dirty : Bool}
    (h : PutReady sha256 pol id data u (.file data dirty) s) :
    StoreSim sha256 pol (.put id data) (BodyPost sha256 pol (.put id data) id)
      (putFsync id data (tmpPathFor id u)) (oneLock id) none s := by
  refine sim_quiet (oneLock_ne_zero id) fun s₁ hr hi oc ha => ⟨quiet_fsyncTmp hi u oc, ?_⟩
  have h₁ := h.rely hr
  have hq : Quiet (IsTmp id) s₁.disk (s₁.disk.internalFsync (tmpPathFor id u) oc).2 :=
    quiet_fsyncTmp hi u oc
  cases oc with
  | fail m => exact putAbandon_sim h.hash (allows_fault rfl ha (by simp)) _
  | short m n => exact putAbandon_sim h.hash (allows_fault rfl ha (by simp)) _
  | ok =>
    have h₂ : PutReady sha256 pol id data u (.file data false)
        ((Call.internalFsync (tmpPathFor id u)).exec .ok s₁).2 :=
      h₁.quiet hq (by simp [Call.exec, Disk.internalFsync, Store.withDisk, h₁.tmp])
    have htrue : ((Call.internalFsync (tmpPathFor id u)).exec .ok s₁).1 = true := by
      simp [Call.exec, Disk.internalFsync, Store.withDisk, h₁.tmp]
    simp only [htrue]
    exact sim_read (fun _ _ => rfl) fun s₂ hr₂ _ _ _ => putRename_sim (h₂.rely hr₂)

theorem putWrite_sim {s : Store} (h : PutReady sha256 pol id data u (.file [] true) s) :
    StoreSim sha256 pol (.put id data) (BodyPost sha256 pol (.put id data) id)
      (putWrite id data (tmpPathFor id u)) (oneLock id) none s := by
  unfold putWrite
  by_cases hempty : data.isEmpty
  · rw [if_pos hempty]
    obtain rfl := List.isEmpty_iff.mp hempty
    exact putFsync_sim h
  · rw [if_neg hempty, Prog.perform_bind]
    refine sim_quiet (oneLock_ne_zero id) fun s₁ hr hi oc ha => ⟨quiet_writeTmp u data oc, ?_⟩
    have h₁ := h.rely hr
    have hq : Quiet (IsTmp id) s₁.disk (s₁.disk.write (tmpPathFor id u) data oc).2 :=
      quiet_writeTmp u data oc
    -- all of the data is in the file when the count says so
    have hfull : ∀ done : Bytes, done.length = data.length → done <+: data →
        ((Call.write (tmpPathFor id u) data).exec oc s₁).2.disk =
          Disk.write.append s₁.disk (tmpPathFor id u) done →
        PutReady sha256 pol id data u (.file data true)
          ((Call.write (tmpPathFor id u) data).exec oc s₁).2 := fun done hlen hpre heq => by
      obtain rfl := hpre.eq_of_length hlen
      exact h₁.quiet hq (by simp [heq, Disk.write.append, h₁.tmp])
    cases oc with
    | ok =>
      have hlen : ((Call.write (tmpPathFor id u) data).exec .ok s₁).1 = some data.length := rfl
      rw [hlen, if_pos rfl]
      exact putFsync_sim (hfull data rfl (List.prefix_refl _) rfl)
    | fail m => exact putAbandon_sim h.hash (allows_fault rfl ha (by simp)) _
    | short m n =>
      have hf : pol.fault = true := allows_fault rfl ha (by simp)
      have hlen : ((Call.write (tmpPathFor id u) data).exec (.short m n) s₁).1 =
          some (data.take n).length := rfl
      rw [hlen]
      by_cases hn : some (data.take n).length = some data.length
      · rw [if_pos hn]
        have htake : data.take n <+: data := List.take_prefix n data
        exact putFsync_sim (hfull _ (Option.some.inj hn) htake rfl)
      · rw [if_neg hn]
        exact putAbandon_sim h.hash hf _

theorem noFile_above {d : Disk} (hinv : DiskInv sha256 d) {p : Path} (hp : p.length ≤ 2) :
    p.inits.any d.isFile = false := by
  rw [List.any_eq_false]
  intro q hq
  have hlen : q.length ≤ 2 := (inits_length_le hq).trans hp
  cases hn : d.node q with
  | none => simp [Disk.isFile, hn]
  | some n =>
    obtain rfl := (hinv _ _ (.inl hn)).upper hlen
    simp [Disk.isFile, hn]

/-- Creating the shard directory works, unless the environment says otherwise. -/
theorem createDirectories_shard {s : Store} (hinv : DiskInv sha256 s.disk) (id : ChunkId) :
    ((Call.createDirectories (shardDirFor id)).exec .ok s).1 = none ∧
    ((Call.createDirectories (shardDirFor id)).exec .ok s).2.disk.node (shardDirFor id) =
      some .dir := by
  have hno := noFile_above hinv (shardDirFor_length id).le
  simp only [Call.exec, Disk.createDirectories, Store.withDisk, hno, Bool.false_eq_true, if_false,
    true_and]
  rw [Disk.node_mkdirs]
  cases hn : s.disk.node (shardDirFor id) with
  | none => simp [(List.mem_inits _ _).mpr (List.prefix_refl (shardDirFor id))]
  | some n =>
    obtain rfl := (hinv _ _ (.inl hn)).upper (shardDirFor_length id).le
    simp

theorem putNew_sim {s : Store} (hsha : sha256 data = id.digest)
    (hfresh : view s id = none ∨ pol.probeFault = true) :
    StoreSim sha256 pol (.put id data) (BodyPost sha256 pol (.put id data) id)
      (putNew id data u) (oneLock id) none s := by
  refine sim_quiet (oneLock_ne_zero id) fun s₁ hr hi oc ha =>
    ⟨quiet_createDirectories (shardDirFor_length id).le oc, ?_⟩
  have hq : Quiet (IsTmp id) s₁.disk (s₁.disk.createDirectories (shardDirFor id) oc).2 :=
    quiet_createDirectories (shardDirFor_length id).le oc
  cases oc with
  | fail m => exact sim_ret_putError hsha (allows_fault rfl ha (by simp)) _
  | short m n => exact sim_ret_putError hsha (allows_fault rfl ha (by simp)) _
  | ok =>
    obtain ⟨hec, hdir⟩ := createDirectories_shard hi id
    rw [hec]
    refine sim_quiet (oneLock_ne_zero id) fun s₂ hr₂ hi₂ oc ha => ⟨quiet_openTmp u _ oc, ?_⟩
    have hq₂ : Quiet (IsTmp id) s₂.disk
        (s₂.disk.internalOpen (tmpPathFor id u) .writeCreateTruncate oc).2 :=
      quiet_openTmp u .writeCreateTruncate oc
    cases oc with
    | fail m => exact sim_ret_putError hsha (allows_fault rfl ha (by simp)) _
    | short m n => exact sim_ret_putError hsha (allows_fault rfl ha (by simp)) _
    | ok =>
      have hshard : s₂.disk.node (shardDirFor id) = some .dir := hr₂.1 _ hdir
      have hopen : ((Call.internalOpen (tmpPathFor id u) .writeCreateTruncate).exec .ok s₂).1 =
            some (tmpPathFor id u) ∧
          ((Call.internalOpen (tmpPathFor id u) .writeCreateTruncate).exec .ok s₂).2.disk.node
            (tmpPathFor id u) = some (.file [] true) := by
        simp only [Call.exec, Disk.internalOpen, Store.withDisk]
        cases hn : s₂.disk.node (tmpPathFor id u) with
        | none => simp [hshard]
        | some n =>
          obtain ⟨b, dirty, rfl⟩ := (hi₂ _ _ (.inl hn)).tmp
          simp
      rw [hopen.1]
      refine putWrite_sim ⟨hsha, ?_, ?_, hopen.2⟩
      · exact (hq₂.guar (oneLock_ne_zero id)).1 _ hshard
      · rw [hq₂.view, view_of_rely (oneLock_ne_zero id) hr₂, hq.view,
          view_of_rely (oneLock_ne_zero id) hr]
        exact hfresh

theorem putLocked_sim {s : Store} (hsha : sha256 data = id.digest) :
    StoreSim sha256 pol (.put id data) (BodyPost sha256 pol (.put id data) id)
      (putLocked id data u) (oneLock id) none s := by
  refine sim_existsChunk fun s₁ hi found hf => ?_
  by_cases hfound : found = true
  · subst hfound
    refine sim_ret_pure (.inr ⟨hsha, .inl ⟨rfl, ?_, rfl⟩⟩)
    rcases hf with hf | ⟨_, hf⟩
    · exact Option.isSome_iff_ne_none.mp hf.symm
    · cases hf
  · rw [if_neg hfound]
    refine putNew_sim hsha ?_
    rcases hf with hf | ⟨hp, _⟩
    · left
      rw [hf, Bool.not_eq_true, Option.isSome_eq_false_iff] at hfound
      exact Option.isNone_iff_eq_none.mp hfound
    · exact .inr hp

variable (id data u) in
theorem put_linSim :
    LinSim (storeProtocol sha256) pol.sem (MapSpec sha256 pol) view (o := .put id data)
      (put sha256 id data u) := by
  unfold put
  by_cases hsha : sha256 data = id.digest
  · rw [if_neg (by simpa using hsha)]
    exact linSim_guarded (o := .put id data) rfl fun s _ => putLocked_sim hsha
  · rw [if_pos hsha]
    intro s _ s₁ _ _
    exact ⟨fun _ => rfl, .inr ⟨rfl, .inl ⟨hsha, rfl, rfl⟩, fun _ _ => rfl⟩⟩

end Put

/-! ## `GetStats`, `ListAllChunkIds` and the constructor -/

/-- An operation on no chunk returns. -/
theorem sim_ret_none (ho : o.target = none) {r : o.Ret} {s : Store} :
    StoreSim sha256 pol o (linPost (MapSpec sha256 pol) view o) (.ret r) (fun _ => 0) none s := by
  intro s₁ _ _
  refine ⟨fun _ => rfl, .inr ⟨rfl, ?_⟩⟩
  unfold MapSpec
  rw [ho]

theorem getStats_linSim :
    LinSim (storeProtocol sha256) pol.sem (MapSpec sha256 pol) view (o := .getStats) getStats :=
  fun _ _ => sim_read (fun oc _ => by cases oc <;> rfl) fun _ _ _ _ _ =>
    sim_read (fun _ _ => rfl) fun _ _ _ _ _ => sim_read (fun _ _ => rfl) fun _ _ _ _ _ =>
      sim_ret_none rfl

theorem listAllChunkIds_linSim :
    LinSim (storeProtocol sha256) pol.sem (MapSpec sha256 pol) view (o := .listAllChunkIds)
      listAllChunkIds := by
  intro s _
  refine sim_read (fun _ _ => rfl) fun s₁ _ _ oc _ => ?_
  generalize ((Call.existsPath []).exec oc s₁).1 = probe
  obtain ⟨found, ec⟩ := probe
  cases ec with
  | some m => exact sim_ret_none rfl
  | none =>
    cases found with
    | false => exact sim_ret_none rfl
    | true =>
      refine sim_read (fun _ _ => rfl) fun s₂ _ _ oc _ => ?_
      generalize (Call.listRecursive.exec oc s₂).1 = entries
      cases entries <;> exact sim_ret_none rfl

theorem storeCounters_sim {r : Except String Unit} (count bytes : Nat) {s : Store} :
    StoreSim sha256 pol .construct (linPost (MapSpec sha256 pol) view .construct)
      (storeCounters count bytes >>= fun _ => .ret r) (fun _ => 0) none s :=
  sim_read (fun _ _ => rfl) fun _ _ _ _ _ => sim_read (fun _ _ => rfl) fun _ _ _ _ _ =>
    sim_ret_none rfl

theorem construct_linSim :
    LinSim (storeProtocol sha256) pol.sem (MapSpec sha256 pol) view (o := .construct) construct := by
  intro s _
  refine sim_read (fun _ _ => rfl) fun s₁ _ _ oc _ => ?_
  generalize ((Call.existsPath []).exec oc s₁).1 = probe
  obtain ⟨found, ec⟩ := probe
  cases ec with
  | some m => exact sim_ret_none rfl
  | none =>
    cases found with
    | true =>
      refine sim_read (fun _ _ => rfl) fun s₂ _ _ oc _ => ?_
      generalize (Call.listRecursive.exec oc s₂).1 = entries
      cases entries with
      | error m => exact sim_ret_none rfl
      | ok entries => exact storeCounters_sim _ _
    | false =>
      refine sim_mkdir (p := []) (by simp) fun s₂ oc => ?_
      generalize ((Call.createDirectories []).exec oc s₂).1 = ec
      cases ec with
      | some m => exact sim_ret_none rfl
      | none => exact storeCounters_sim _ _

/-! ## All operations -/

/-- **Every program of the store takes effect once**, as `MapSpec` says, under
every policy of faults and whatever temporary name it draws. -/
theorem prog_linSim (sha256 : Bytes → Digest) (pol : Policy) (uuid : UuidV4) (o : StoreOp) :
    LinSim (storeProtocol sha256) pol.sem (MapSpec sha256 pol) view (o.prog sha256 uuid) := by
  cases o with
  | put id data => exact put_linSim id data uuid
  | get id => exact get_linSim id
  | verifyOnly id => exact verifyOnly_linSim id
  | delete id => exact delete_linSim id
  | existsChunk id => exact existsChunk_linSim id
  | getStats => exact getStats_linSim
  | listAllChunkIds => exact listAllChunkIds_linSim
  | construct => exact construct_linSim

end Rules

end NimbusFs.StorageNode
