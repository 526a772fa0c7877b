import NimbusFs.StorageNode.Securing

/-! # Uploads and the loss of power

A `PutChunk` that ended with OK has synced the file and its shard directory, or has
found the file there. Whoever put it there may have been at it at the same time, on
another thread; but it had the lock of the chunk, and let go of it only after the
directory was synced. So under the lock a chunk that is there is there for good, and
what a client was told outlives the machine, as long as nobody deletes it.

Three things have to be so beforehand. The directories above the chunk were made long
ago, since nobody syncs those. A directory that is opened or synced does not fail, since
`Put` does not look. And no earlier process was killed between the rename and the sync,
since the next `Put` finds the file and syncs nothing. -/
namespace NimbusFs.StorageNode

open NimbusFs.Common Lib

/-! ## Requests -/

section Requests

variable {id : ChunkId} {pol : Policy} {sha256 : Bytes → Digest} {service : Service}
variable {allowed : Reply → Prop} {x : Store × Unit}

/-- Every request keeps to the protocol. -/
theorem securing_request (hprobe : pol.probeFault = false) (u : UuidV4) (q : Request) :
    LockSim (securingProtocol id false) (withEnv pol.syncedSem (envAnswers allowed)) NoneHeld
      (inlined sha256 u q.client (q.rpc.handler service q.context) []) (holding none) x := by
  exact inlined_lockSim (w := []) u securing_guar_refl
    (fun o ho y => securing_prog hprobe ho.isMethod u) (storeOnce_handler service q.context q.rpc) rfl x

/-- Uploads and replications ask for nothing but a `Put` of the chunk they name. -/
theorem Planned.put_of_requestedId {rpc : Rpc} {o : StoreOp} (h : Planned service allowed rpc o)
    (hid : rpc.requestedId = some id) (hdel : ¬ rpc.IsDelete) : ∃ data, o = .put id data := by
  have hput : ∀ {id' data}, Planned service allowed rpc (.put id' data) → id' = id := fun h' =>
    Option.some.inj (h'.put_requestedId.1.symm.trans hid)
  cases h with
  | putChunk hplan => exact ⟨_, by rw [hput (.putChunk hplan)]⟩
  | replicateChunk hread hreply hplan =>
    exact ⟨_, by rw [hput (.replicateChunk hread hreply hplan)]⟩
  | deleteChunk _ => exact absurd trivial hdel
  | getChunk _ => cases hid
  | verifyChunk _ => cases hid
  | getNodeStats => cases hid

/-- An upload that ends with OK has secured its chunk. -/
theorem securing_upload (hprobe : pol.probeFault = false) (u : UuidV4) {q : Request}
    (hid : q.rpc.requestedId = some id) (hdel : ¬ q.rpc.IsDelete) :
    LockSim (securingProtocol id true) (withEnv pol.syncedSem (envAnswers allowed))
      (fun held z y => NoneHeld held z y ∧ (q.rpc.Succeeds z.1 → Secured id y.1.disk))
      (inlined sha256 u q.client (q.rpc.handler service q.context) []) (holding none) x := by
  refine inlined_promise (w := []) (N := fun o r y => ∀ data, (⟨o, r⟩ : Sigma StoreOp.Ret) =
      ⟨.put id data, .ok ()⟩ → Secured id y.1.disk) u securing_guar_refl ?_ ?_
    (storeOnce_handler service q.context q.rpc) rfl ?_ x
  · exact fun held z y y' hr hz hok => hr.2 rfl (hz hok)
  · intro o ho y
    obtain ⟨data, rfl⟩ := ho.put_of_requestedId hid hdel
    refine LockSim.mono (fun held r y hy => ⟨hy.1, fun data' heq => hy.2 rfl ?_⟩)
      (securing_put hprobe sha256 id data u)
    cases heq
    rfl
  · intro z t y hrun hN hok
    obtain ⟨id', hid', ⟨hdel', _⟩ | ⟨_, data, rfl⟩⟩ := RpcRun.stored hrun hok
    · exact absurd hdel' hdel
    · obtain rfl : id' = id := Option.some.inj (hid'.symm.trans hid)
      exact hN _ _ rfl data rfl

end Requests

/-! ## A server -/

section Server

variable {T : Type} [DecidableEq T] {sha256 : Bytes → Digest} {pol : Policy} {service : Service}
variable {allowed : Reply → Prop} {served : Request → Prop} {reentrant : Bool}
variable {id : ChunkId} {s s' : Store} {c c' : NodeConfig T}

/-- The server, where directories can always be opened and synced. -/
def syncedServer (sha256 : Bytes → Digest) (pol : Policy) (service : Service)
    (allowed : Reply → Prop) (served : Request → Prop) (reentrant : Bool) :
    System (Fin 256) (Call ⊕ EnvCall) (Sum.elim Call.Ret EnvCall.Ret) Store Request Request.Ret where
  impl := (nodeSystem sha256 pol service allowed served reentrant).impl
  sem := withEnv pol.syncedSem (envAnswers allowed)
  crash _ _ := False
  reentrant := reentrant

/-- What such a server does, any server may do. -/
theorem syncedServer_sem (a : Call ⊕ EnvCall) (s s' : Store) (r : Sum.elim Call.Ret EnvCall.Ret a)
    (u : Store) (heq : s = s')
    (h : (syncedServer sha256 pol service allowed served reentrant).sem a s r u) :
    ∃ u', (nodeSystem sha256 pol service allowed served reentrant).sem a s' r u' ∧ u = u' := by
  subst heq
  cases a with
  | inl call => exact ⟨u, h.sem, rfl⟩
  | inr e => exact ⟨u, h, rfl⟩

theorem syncedServer_reachable
    (h : Reachable (syncedServer sha256 pol service allowed served reentrant) s c) :
    Reachable (nodeSystem sha256 pol service allowed served reentrant) s c := by
  have himpl : ∀ q p, (syncedServer sha256 pol service allowed served reentrant).impl q p →
      (nodeSystem sha256 pol service allowed served reentrant).impl q p := fun _ _ hp => hp
  obtain ⟨_, rfl, hreach⟩ := h.simulate himpl syncedServer_sem (fun _ _ _ _ hc => hc.elim)
    (fun hre => hre) rfl
  exact hreach

theorem syncedServer_tstep {t : T}
    (h : TStep (syncedServer sha256 pol service allowed served reentrant) t c c') :
    TStep (nodeSystem sha256 pol service allowed served reentrant) t c c' := by
  obtain ⟨_, rfl, hstep⟩ := h.simulate syncedServer_sem (fun hre => hre) rfl
  exact hstep

theorem syncedServer_lockSound (hprobe : pol.probeFault = false) (hroot : Rooted id s.disk)
    (hsynced : NoneUnsynced id s.disk)
    (h : Reachable (syncedServer sha256 pol service allowed served reentrant) s c) :
    LockSound (syncedServer sha256 pol service allowed served reentrant) (securingProtocol id false)
      c () := by
  have hsim : ∀ q p, (syncedServer sha256 pol service allowed served reentrant).impl q p →
      ∀ x, (securingProtocol id false).inv x → LockSim (securingProtocol id false)
        (syncedServer sha256 pol service allowed served reentrant).sem NoneHeld p (holding none) x := by
    intro q p hp x _
    obtain ⟨_, u, rfl⟩ := hp
    exact securing_request hprobe u q
  obtain ⟨_, hsound⟩ := h.lockSound hsim (fun _ _ _ _ hc => hc.elim) ⟨(), hroot, fun _ _ => hsynced⟩
  exact hsound

/-- No request in progress is a delete of the chunk. -/
def Undeleted (id : ChunkId) (c : NodeConfig T) : Prop :=
  ∀ t n q p, c.thread t = some ⟨n, q, p⟩ → q.rpc.requestedId = some id → ¬ q.rpc.IsDelete

/-- **Nothing but a delete takes a chunk away that is there for good.** The lock makes
sure that it is gone as a whole if it is not there for good any more, and only a delete
makes it go. -/
theorem Secured.tstep {t : T} (hinv : DiskInv sha256 s.disk)
    (hreach : Reachable (syncedServer sha256 pol service allowed served reentrant) s c)
    (hsound : LockSound (syncedServer sha256 pol service allowed served reentrant)
      (securingProtocol id false) c ())
    (hno : Undeleted id c) (hs : TStep (syncedServer sha256 pol service allowed served reentrant) t c c')
    (h : Secured id c.state.disk) : Secured id c'.state.disk := by
  obtain ⟨_, hguar⟩ := hsound.guar securing_guar_refl hs
  rcases hguar.2 h with hsec | ⟨_, hgone⟩
  · exact hsec
  obtain ⟨G, lin, hl⟩ := (syncedServer_reachable hreach).exists_linInv nodeSystem_linSim
    (fun _ _ hc => hc) hinv
  obtain ⟨hinv', g', _, n, q, p, hth, hupd, _⟩ :=
    hl.sims.tstep hl.inv (fun _ _ _ => .inl ⟨rfl, rfl⟩) (syncedServer_tstep hs)
  have hthere : view c.state id ≠ none := (DiskInv.node_iff hl.inv id).mp h.1
  have hnot : ¬ view c'.state id ≠ none := fun hv => (DiskInv.node_iff hinv' id).mpr hv hgone
  rcases hupd with ⟨hsame, _⟩ | ⟨_, x, _, hreq⟩
  · exact absurd (hsame ▸ hthere) hnot
  · refine absurd (hreq.keeps (J := fun m => m id ≠ none) hthere fun o r hplan hspec hnone => ?_) hnot
    obtain rfl := mapSpec_gone hspec hthere hnone
    obtain ⟨hid, hdel⟩ := hplan.delete_requestedId
    exact hno t n q p hth hid hdel

/-- Every delete of the chunk had returned when request `n` was started. -/
def DeletesEnded (id : ChunkId) (n : Nat) (t : T) (q : Request)
    (hist : List (Event T Request Request.Ret)) : Prop :=
  ∀ k u q', .inv k u q' ∈ hist → q'.rpc.requestedId = some id → q'.rpc.IsDelete →
    ∃ z, List.Sublist [.res k u q' z, .inv n t q] hist

/-- So none is in progress from then on. -/
theorem DeletesEnded.undeleted {sys : System (Fin 256) (Call ⊕ EnvCall) (Sum.elim Call.Ret EnvCall.Ret)
    Store Request Request.Ret} {c₀ c₁ : NodeConfig T} {t : T} {q : Request} {p : NodeProg q.Ret}
    (h : DeletesEnded id c₀.next t q c.hist)
    (hbefore : Relation.ReflTransGen (Step sys) (c₀.start t q p) c₁)
    (hafter : Relation.ReflTransGen (Step sys) c₁ c) (hnum : Numbered c₁) : Undeleted id c₁ := by
  intro u k q' p' hu hreq hdel
  obtain ⟨hstarted, hunreturned⟩ := hnum.running u k q' p' hu
  obtain ⟨rest, hhist, _⟩ := later_hist hafter
  obtain ⟨rest', hhist', _⟩ := later_hist hbefore
  obtain ⟨z, hz⟩ := h k u q' (hhist ▸ List.mem_append_left _ hstarted) hreq hdel
  have hres := returned_before (hbefore.trans hafter) hz
  refine hunreturned u q' z ?_
  rw [hhist']
  exact List.mem_append_left _ (List.mem_append_left _ hres)

/-- **An upload that ended with OK has its chunk stored for good**, from then on to the
end of the life of the server. The thread of the upload is followed from its start. -/
theorem upload_secured (hinv : DiskInv sha256 s.disk) (hprobe : pol.probeFault = false)
    (hroot : Rooted id s.disk) (hsynced : NoneUnsynced id s.disk)
    (h : Reachable (syncedServer sha256 pol service allowed served reentrant) s c)
    {n : Nat} {t : T} {q : Request} {x : q.Ret} (hres : .res n t q x ∈ c.hist)
    (hok : q.rpc.Succeeds x.1) (hid : q.rpc.requestedId = some id) (hkind : ¬ q.rpc.IsDelete)
    (hended : DeletesEnded id n t q c.hist) : Secured id c.state.disk := by
  obtain ⟨c₀, p, h₀, hidle, hp, rfl, hsteps⟩ := h.at_start (h.numbered.returned n t q x hres)
  have hstart := h₀.tail (.invoke hidle hp)
  have hfollowed : ∀ c₁, Relation.ReflTransGen
      (Step (syncedServer sha256 pol service allowed served reentrant)) (c₀.start t q p) c₁ →
      Relation.ReflTransGen (Step (syncedServer sha256 pol service allowed served reentrant)) c₁ c →
      Followed (syncedServer sha256 pol service allowed served reentrant) (securingProtocol id true)
        (fun held z y => NoneHeld held z y ∧ (q.rpc.Succeeds z.1 → Secured id y.1.disk))
        (fun z s => q.rpc.Succeeds z.1 → Secured id s.disk) c₀.next t c₁ := by
    intro c₁ hbefore
    induction hbefore with
    | refl =>
      intro _
      have hth : (c₀.start t q p).thread t = some ⟨c₀.next, q, p⟩ := by
        rw [start_thread, Function.update_self]
      have hnone := heldBy_eq_zero (syncedServer_lockSound hprobe hroot hsynced h₀) hidle
      refine .inl ⟨p, hth, ?_⟩
      show LockSim _ _ _ _ (heldBy c₀ t) _
      obtain ⟨_, u, rfl⟩ := hp
      rw [hnone]
      exact securing_upload hprobe u hid hkind
    | @tail c₁ c₂ hbefore hs ih =>
      intro hafter
      have hrest := Relation.ReflTransGen.head hs hafter
      have hreach : Reachable (syncedServer sha256 pol service allowed served reentrant) s c₁ :=
        hstart.trans hbefore
      have hsound := syncedServer_lockSound hprobe hroot hsynced hreach
      cases hs with
      | invoke hidle' _ => exact (ih hrest).start hidle'
      | crash hc => exact hc.elim
      | @thread _ u ht =>
        have hno := hended.undeleted hbefore hrest hreach.numbered
        have hkeep : Secured id c₁.state.disk → Secured id c₂.state.disk :=
          Secured.tstep hinv hreach hsound hno ht
        refine (ih hrest).tstep (fun _ _ _ hz => hz.2) hreach.numbered hsound.inv hsound.free
          (fun l => hsound.depth l t) (fun hut => ⟨fun hheld => ?_, fun _ => hkeep⟩)
          (fun _ hz hok => hkeep (hz hok)) ht
        obtain ⟨_, hguar⟩ := hsound.guar securing_guar_refl ht
        exact hguar.1 ((heldBy_disjoint c₁ hut (lockFor id)).resolve_right hheld)
  exact (hfollowed c hsteps .refl).promised h.numbered hres hok

/-! ## Stops, and the lives after them -/

theorem Rooted.durable {d : Disk} (h : Rooted id d) {q : Path} (hq : q <+: shardDirFor id) :
    d.Durable q := by
  intro r hr
  obtain ⟨hn, hd⟩ := h r (hr.trans hq)
  exact ⟨hd, by rw [hn]; simp⟩

theorem Rooted.stopped {d d' : Disk} (h : Rooted id d) (hs : Stopped d d') : Rooted id d' := by
  rcases hs with rfl | hcrash
  · exact h
  intro q hq
  obtain ⟨n, hn, hsurvives⟩ := hcrash.kept q .dir (h q hq).1 (h.durable hq)
  obtain rfl : n = .dir := hsurvives
  exact ⟨hn, (hcrash.settled q).1⟩

/-- What is there for good is there after the loss of power. -/
theorem Secured.stopped {d d' : Disk} (h : Secured id d) (hroot : Rooted id d) (hs : Stopped d d') :
    Secured id d' := by
  rcases hs with rfl | hcrash
  · exact h
  have hdurable : d.Durable (finalPathFor id) := by
    intro q hq
    rcases prefixes_finalPathFor hq with rfl | ⟨_, hup⟩
    · exact ⟨h.2, h.1⟩
    · exact hroot.durable hup q (List.prefix_refl _)
  obtain ⟨n, hn⟩ := Option.ne_none_iff_exists'.mp h.1
  obtain ⟨n', hn', _⟩ := hcrash.kept _ n hn hdurable
  exact ⟨by rw [hn']; simp, (hcrash.settled _).1⟩

/-- A constructor that finds its data root leaves the tree as it is, however far it gets. -/
theorem construct_disk {x y : Store} (hprobe : pol.probeFault = false) (hroot : x.disk.node [] ≠ none)
    (h : construct.Reaches pol.sem x y) : y.disk = x.disk := by
  rcases h with rfl | ⟨r, x₁, hs, h⟩
  · rfl
  obtain ⟨oc, ha, rfl, rfl⟩ := hs.outcome
  obtain rfl : oc = .ok := by simpa [Policy.allows, Call.isProbe, hprobe] using ha
  simp only [exec_existsPath_ok, Option.isSome_iff_ne_none.mpr hroot] at h
  rcases h with rfl | ⟨entries, x₂, hs, h⟩
  · rfl
  obtain ⟨_, -, -, rfl⟩ := hs.outcome
  cases entries with
  | error m =>
    obtain rfl := h
    rfl
  | ok entries =>
    rcases h with rfl | ⟨_, x₃, hs, h⟩
    · rfl
    obtain ⟨_, -, -, rfl⟩ := hs.outcome
    rcases h with rfl | ⟨_, x₄, hs, h⟩
    · rfl
    obtain ⟨_, -, -, rfl⟩ := hs.outcome
    obtain rfl := h
    rfl

/-- The chunk is stored for good, with all that is above it. -/
structure Kept (sha256 : Bytes → Digest) (id : ChunkId) (d : Disk) : Prop where
  inv : DiskInv sha256 d
  root : Rooted id d
  secured : Secured id d

theorem Kept.stopped {d d' : Disk} (h : Kept sha256 id d) (hs : Stopped d d') :
    Kept sha256 id d' := by
  refine ⟨?_, h.root.stopped hs, h.secured.stopped h.root hs⟩
  rcases hs with rfl | hcrash
  · exact h.inv
  · exact h.inv.crash hcrash

theorem Kept.boots {d : Disk} (hprobe : pol.probeFault = false) (h : Kept sha256 id d)
    (hboot : Boots pol.sem Store.disk d s) : Kept sha256 id s.disk := by
  have hroot : ∀ {d : Disk}, Kept sha256 id d → d.node [] ≠ none := fun hd => by
    rw [(hd.root [] List.nil_prefix).1]
    simp
  induction hboot with
  | @up d x y hd hrun =>
    subst hd
    rw [construct_disk hprobe (hroot h) hrun.reaches]
    exact h
  | @again d x y d' z hd hreach hstop _ ih =>
    subst hd
    refine ih (Kept.stopped ?_ hstop)
    rw [construct_disk hprobe (hroot h) hreach]
    exact h

/-- A life in which nobody deletes the chunk. -/
theorem Kept.reachable (hprobe : pol.probeFault = false) (h : Kept sha256 id s.disk)
    (hreach : Reachable (syncedServer sha256 pol service allowed served reentrant) s c)
    (hno : ∀ n t q, .inv n t q ∈ c.hist → q.rpc.requestedId = some id → ¬ q.rpc.IsDelete) :
    Kept sha256 id c.state.disk := by
  have hsynced : NoneUnsynced id s.disk := fun _ => h.secured.2
  have hsound : ∀ {c : NodeConfig T},
      Reachable (syncedServer sha256 pol service allowed served reentrant) s c →
      LockSound (syncedServer sha256 pol service allowed served reentrant) (securingProtocol id false)
        c () := syncedServer_lockSound hprobe h.root hsynced
  obtain ⟨_, _, hl⟩ := (syncedServer_reachable hreach).exists_linInv nodeSystem_linSim
    (fun _ _ hc => hc) h.inv
  refine ⟨hl.inv, (hsound hreach).inv, ?_⟩
  clear hl
  induction hreach with
  | refl => exact h.secured
  | @tail c₁ c₂ h₁ hs ih =>
    obtain ⟨rest, hhist, _⟩ := later_hist (.single hs)
    have hno₁ : ∀ n t q, .inv n t q ∈ c₁.hist → q.rpc.requestedId = some id → ¬ q.rpc.IsDelete :=
      fun n t q hq => hno n t q (hhist ▸ List.mem_append_left _ hq)
    have hsec := ih hno₁
    cases hs with
    | invoke _ _ => exact hsec
    | crash hc => exact hc.elim
    | thread ht =>
      refine hsec.tstep h.inv h₁ (hsound h₁) (fun t n q p hth => hno₁ n t q ?_) ht
      exact ((Reachable.numbered h₁).running t n q p hth).1

theorem Kept.lives (hprobe : pol.probeFault = false) (h : Kept sha256 id s.disk)
    {hists : List (List (Event T Request Request.Ret))}
    (hlives : Lives (syncedServer sha256 pol service allowed served reentrant) (RestartedUnder pol) s
      hists s')
    (hno : ∀ hist ∈ hists, ∀ n t q, .inv n t q ∈ hist → q.rpc.requestedId = some id →
      ¬ q.rpc.IsDelete) : Kept sha256 id s'.disk := by
  induction hlives with
  | nil => exact h
  | cons hreach hrestart _ ih =>
    obtain ⟨d, hstopped, hboot⟩ := hrestart
    have hend := h.reachable hprobe hreach (hno _ List.mem_cons_self)
    exact ih ((hend.stopped hstopped).boots hprobe hboot)
      fun hist hh => hno hist (List.mem_cons_of_mem _ hh)

/-- **What a client was told survives the loss of power.** The files of a store are right
at the start, the directories of a chunk were made and synced long ago, the chunk was not
left half-way by a stop, and directories can be opened and synced. An upload or
replication of it ended with OK, on a server with any number of threads and any other
faults but of the probes, and every delete of it had returned when the upload was started.
Then the process and the machine may go down at any moments, again and again: the chunk is
there, as long as no later life deletes it. -/
theorem upload_survives_power_loss (hinv : DiskInv sha256 s.disk) (hprobe : pol.probeFault = false)
    (hroot : Rooted id s.disk) (hsynced : NoneUnsynced id s.disk)
    {hist : List (Event T Request Request.Ret)} {hists : List (List (Event T Request Request.Ret))}
    (hlives : Lives (syncedServer sha256 pol service allowed served reentrant) (RestartedUnder pol) s
      (hist :: hists) s')
    {n : Nat} {t : T} {q : Request} {x : q.Ret} (hres : .res n t q x ∈ hist)
    (hok : q.rpc.Succeeds x.1) (hid : q.rpc.requestedId = some id) (hkind : ¬ q.rpc.IsDelete)
    (hended : DeletesEnded id n t q hist)
    (hlater : ∀ hist' ∈ hists, ∀ k u q', .inv k u q' ∈ hist' → q'.rpc.requestedId = some id →
      ¬ q'.rpc.IsDelete) :
    ∃ b, view s' id = some b ∧ sha256 b = id.digest := by
  cases hlives with
  | cons hreach hrestart hrest =>
    obtain ⟨d, hstopped, hboot⟩ := hrestart
    obtain ⟨_, _, hl⟩ := (syncedServer_reachable hreach).exists_linInv nodeSystem_linSim
      (fun _ _ hc => hc) hinv
    have hend : Kept sha256 id _ := ⟨hl.inv, (syncedServer_lockSound hprobe hroot hsynced hreach).inv,
      upload_secured hinv hprobe hroot hsynced hreach hres hok hid hkind hended⟩
    have hkept := ((hend.stopped hstopped).boots hprobe hboot).lives hprobe hrest hlater
    rcases hkept.inv.final id with ⟨hnone, _⟩ | ⟨b, _, hview, hsha⟩
    · exact absurd hnone hkept.secured.1
    · exact ⟨b, hview, hsha⟩

end Server

theorem rooted_shardedStore : Rooted .ofAbc shardedStore.disk := by
  intro q hq
  rw [shardedStore_node, if_pos ((List.mem_inits q _).mpr hq)]
  exact ⟨rfl, rfl⟩

/-- A server that keeps chunks of at most three bytes, on directories that can be synced. -/
abbrev smallSyncedServer :=
  syncedServer knownSha256 .faithfulProbes { maxChunkBytes := 3 } (fun _ => True) (fun _ => True) true

/-- `abc` is uploaded, the power fails, and the server is started again. -/
theorem upload_survives_power_loss_abc :
    ∃ (c : NodeConfig Bool) (x : uploadAbc.Ret) (d : Disk) (s : Store) (b : Bytes),
      Reachable smallSyncedServer shardedStore c ∧ .res 0 false uploadAbc x ∈ c.hist ∧
      Crash c.state.disk d ∧ Boots Policy.faithfulProbes.sem Store.disk d s ∧
      view s .ofAbc = some b ∧ knownSha256 b = ChunkId.ofAbc.digest := by
  have hinv : DiskInv knownSha256 shardedStore.disk := shardedStore_prepared.inv
  have hsem : ∀ c s, smallSyncedServer.sem c s (plainStep c s).1 (plainStep c s).2 := by
    intro c s
    cases c with
    | inl call => exact ⟨.ok, .inl rfl, fun _ => rfl, rfl⟩
    | inr e => cases e <;> exact ⟨trivial, rfl⟩
  have hsynced : NoneUnsynced .ofAbc shardedStore.disk := fun _ => rfl
  have hinit : Reachable smallSyncedServer shardedStore (Config.init shardedStore : NodeConfig Bool) :=
    .refl
  have hrun : (smallProg uploadAbc).runsAlone plainStep (fun _ => 0) shardedStore := by decide +kernel
  have hok : ((smallProg uploadAbc).run plainStep shardedStore).1.1.1.code = .OK ∧
      ((smallProg uploadAbc).run plainStep shardedStore).1.1.2.status = .OK := by decide +kernel
  obtain ⟨c, hc, _, _, hhist⟩ := hinit.invoke_alone (t := false) rfl hsem rfl (fun _ => rfl)
    ⟨trivial, default, rfl⟩ hrun
  obtain ⟨_, _, hl⟩ := (syncedServer_reachable hc).exists_linInv nodeSystem_linSim
    (fun _ _ h => h) hinv
  have hcrash : Crash c.state.disk c.state.disk.keepDurable := crash_keepDurable hl.inv
  let s : Store := ⟨c.state.disk.keepDurable, fun _ => 0⟩
  have hboot : Boots Policy.faithfulProbes.sem Store.disk s.disk (booted s) :=
    boots_booted _ (hl.inv.crash hcrash).isFile_root
  have hlives : Lives smallSyncedServer (RestartedUnder .faithfulProbes) shardedStore [c.hist]
      (booted s) := .cons hc ⟨_, .inr hcrash, hboot⟩ .nil
  have hres : .res 0 false uploadAbc ((smallProg uploadAbc).run plainStep shardedStore).1 ∈ c.hist := by
    rw [hhist]
    exact List.mem_append_right _ (List.mem_cons_of_mem _ List.mem_cons_self)
  have hended : DeletesEnded .ofAbc 0 false uploadAbc c.hist := by
    intro k u q' hq' _ hdel
    rw [hhist] at hq'
    simp only [Config.init, List.nil_append, List.mem_cons, Event.inv.injEq, reduceCtorEq,
      List.not_mem_nil, or_false] at hq'
    obtain ⟨_, _, rfl⟩ := hq'
    exact hdel.elim
  obtain ⟨b, hb, hsha⟩ := upload_survives_power_loss hinv rfl rooted_shardedStore hsynced hlives hres hok
    requestedId_uploadAbc (fun h => h) hended (fun _ h => by cases h)
  exact ⟨c, _, _, booted s, b, hc, hres, hcrash, hboot, hb, hsha⟩

/-! ## A chunk that was left half-way -/

section Halfway

variable {sha256 : Bytes → Digest} {id : ChunkId} {data : Bytes} {u : UuidV4} {s t : Store}

/-- **An acknowledged `Put` survives the loss of power exactly where none was left
half-way.** The files are right and their directories synced before. Where a process was
killed between the rename and the sync of the directory, the next `Put` of the chunk finds
the file, syncs nothing and says OK, and the loss of power may take the chunk away. -/
theorem put_survives_iff (hinv : DiskInv sha256 s.disk) (hroot : Rooted id s.disk)
    (h : (put sha256 id data u).Runs Policy.noFault.sem s (.ok ()) t) :
    (∀ d, Crash t.disk d → ∃ b, d.contents (finalPathFor id) = some b ∧ sha256 b = id.digest) ↔
      NoneUnsynced id s.disk := by
  obtain ⟨_, hcase⟩ := runs_put_ok h
  constructor
  · intro hsurvives hn
    obtain rfl : t = s := by
      rcases hcase with ⟨_, rfl⟩ | ⟨hnone | hprobe, _⟩
      · rfl
      · exact absurd hnone hn
      · cases hprobe
    by_contra hd
    -- the worst that can happen: only what was synced is left
    obtain ⟨b, hb, _⟩ := hsurvives _ (crash_keepDurable hinv)
    have hnot : ¬ t.disk.Durable (finalPathFor id) :=
      fun hdur => hd (hdur _ (List.prefix_refl _)).1
    simp [Disk.contents, Disk.node_keepDurable, hnot] at hb
  · intro hsynced d hcrash
    obtain ⟨hinv', hframe⟩ := update_reaches (o := .put id data)
      (put_uses sha256 id data u) hinv h.reaches
    have hroot' : Rooted id t.disk := by
      intro q hq
      obtain ⟨hdir, hdur⟩ := hroot q hq
      rcases hframe.upper q (hq.length_le.trans (shardDirFor_length id).le) with
        ⟨hn, hd⟩ | ⟨hnone, _⟩
      · exact ⟨hn.trans hdir, hd.trans hdur⟩
      · rw [hdir] at hnone
        cases hnone
    have hthere : t.disk.node (finalPathFor id) ≠ none := by
      rcases hcase with ⟨hn, rfl⟩ | ⟨_, hn⟩
      · exact hn
      · rw [hn]
        simp
    have hkept : Kept sha256 id t.disk := ⟨hinv', hroot', hthere, put_durable hsynced h⟩
    have hkept' := hkept.stopped (.inr hcrash)
    rcases hkept'.inv.final id with ⟨hnone, _⟩ | ⟨b, _, hb⟩
    · exact absurd hnone hkept'.secured.1
    · exact ⟨b, hb⟩

end Halfway

/-- A process was killed after it renamed the file of `abc`. -/
def halfwayStore : Store :=
  ⟨shardedStore.disk.addEntry (finalPathFor .ofAbc) (.file abcBytes false), fun _ => 0⟩

/-- `abc` is uploaded again and acknowledged, and the loss of power may take it away. -/
theorem put_survives_iff_halfway :
    (execute (put knownSha256 .ofAbc abcBytes default) halfwayStore).1 = .ok () ∧
      ¬ ∀ d, Crash (execute (put knownSha256 .ofAbc abcBytes default) halfwayStore).2.disk d →
        ∃ b, d.contents (finalPathFor .ofAbc) = some b ∧ knownSha256 b = ChunkId.ofAbc.digest := by
  have hn : halfwayStore.disk.node (finalPathFor .ofAbc) = some (.file abcBytes false) := by
    simp [halfwayStore]
  have hput : execute (put knownSha256 .ofAbc abcBytes default) halfwayStore = (.ok (), halfwayStore) :=
    execute_put_found rfl (by rw [hn]; simp)
  have hinv : DiskInv knownSha256 halfwayStore.disk :=
    shardedStore_prepared.inv.addEntry (.inr (.inl ⟨.ofAbc, abcBytes, rfl, rfl, rfl⟩))
  have hroot : Rooted .ofAbc halfwayStore.disk :=
    (spares_addEntry (belongs_finalPathFor .ofAbc) _).rooted rooted_shardedStore
  rw [hput]
  refine ⟨rfl, fun hsurvives => ?_⟩
  have hsynced := (put_survives_iff hinv hroot (runs_noFault_iff.mpr hput)).mp hsurvives
  have hdur := hsynced (by rw [hn]; simp)
  simp [halfwayStore, Disk.durable_addEntry] at hdur

end NimbusFs.StorageNode
