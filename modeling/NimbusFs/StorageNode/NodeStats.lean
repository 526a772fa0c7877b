import NimbusFs.StorageNode.Kills

/-! # What a node says about itself

`GetNodeStats` reports the two counters of the store, and reads no file. On a server
with many threads, with faults of the disk and stops at any moment, the counters keep
up with the chunks: whenever no request is under way the answer is the number of the
chunks that can be read, and the number of their bytes. -/
namespace NimbusFs.StorageNode

open NimbusFs.Common Lib

/-! ## Sums over the chunks -/

/-- Two passes over a list that agree on each entry. -/
theorem sum_filterMap_congr {α β γ : Type} {f : α → Option β} {g : α → Option γ} {u : β → Nat}
    {v : γ → Nat} {l : List α} (h : ∀ a ∈ l, (f a).map u = (g a).map v) :
    ((l.filterMap f).map u).sum = ((l.filterMap g).map v).sum := by
  induction l with
  | nil => rfl
  | cons a rest ih =>
    have ha := h a List.mem_cons_self
    have hrest := ih fun b hb => h b (List.mem_cons_of_mem _ hb)
    cases hf : f a with
    | none =>
      rw [hf] at ha
      rw [List.filterMap_cons_none hf, List.filterMap_cons_none (Option.map_eq_none_iff.mp ha.symm),
        hrest]
    | some b =>
      rw [hf] at ha
      obtain ⟨c, hc, hbc⟩ := Option.map_eq_some_iff.mp ha.symm
      simp only [List.filterMap_cons, hf, hc, List.map_cons, List.sum_cons, hrest, hbc]

section Sums

variable {sha256 : Bytes → Digest} {d : Disk} {s : Store}

/-- How many bytes a chunk has. -/
def chunkLength (m : ChunkMap) (id : ChunkId) : Nat := ((m id).getD []).length

/-- Each counter is to be a sum over the chunks. -/
theorem DiskInv.total_eq_sum (h : DiskInv sha256 s.disk) (x : Counter) :
    s.disk.total x = ((listedIds s.disk.listing).map fun id => x.ofSize (chunkLength (view s) id)).sum := by
  rw [total_eq_ofSize, listedIds_eq]
  refine sum_filterMap_congr fun e he => ?_
  obtain ⟨p, n⟩ := e
  obtain ⟨_, hn⟩ := mem_listing.mp he
  rcases h _ _ (.inl hn) with ⟨_, rfl⟩ | ⟨id, b, rfl, rfl, _⟩ | ⟨id, u, b, dirty, rfl, rfl⟩
  · rfl
  · have hlength : chunkLength (view s) id = b.length := by
      simp [chunkLength, view, Disk.contents, hn]
    rw [idOfEntry, chunkFile_final, Option.bind_some, parse_stem_final]
    simp [Except.toOption, hlength]
  · rw [idOfEntry, chunkFile_tmp]
    rfl

/-- The chunks of a store, and what its counters are to say of them. -/
theorem DiskInv.exists_ids (h : DiskInv sha256 s.disk) :
    ∃ ids : Finset ChunkId, (∀ id, id ∈ ids ↔ view s id ≠ none) ∧
      s.disk.total .chunkCount = ids.card ∧
      s.disk.total .bytesUsed = ∑ id ∈ ids, chunkLength (view s) id := by
  have hnodup := h.listedIds_nodup
  refine ⟨(listedIds s.disk.listing).toFinset, fun id => ?_, ?_, ?_⟩
  · rw [List.mem_toFinset, h.mem_listedIds]
    rcases h.final id with ⟨hnone, hview⟩ | ⟨b, hsome, hview, _⟩
    · simp [hnone, view, hview]
    · simp [hsome, view, hview]
  · rw [List.toFinset_card_of_nodup hnodup, h.length_listedIds]
  · rw [List.sum_toFinset _ hnodup]
    exact h.total_eq_sum .bytesUsed

end Sums

/-! ## A handler around its operation -/

section Handlers

/-- A store that only notes what it was asked last, and its answer. -/
def lastAsked : ChunkStoreSem (Option (Sigma StoreOp.Ret)) :=
  fun o _ r t => t = some ⟨o, r⟩

variable {S G α : Type} {pr : LockProtocol (Fin 256) (S × G)}
variable {sem : (c : Call) → S → c.Ret → S → Prop} {allowed : Reply → Prop}
variable {plan : StoreOp → Prop} {client : Nat → Bool} {K : α × Written → S × G → Prop}
variable {N : (o : StoreOp) → o.Ret → S × G → Prop} {sha256 : Bytes → Digest}

/-- What a store operation promises, `N`, is passed on by the handler as `K`: nothing
is left to do after it but to write to the client. -/
theorem inlined_promise {p : ServiceProg α} {w : Written} (u : UuidV4)
    (hguar : ∀ held y, pr.guar held y y) (hK : ∀ held z y y', pr.rely held y y' → K z y → K z y')
    (hstore : ∀ o, plan o → ∀ x, LockSim pr sem (fun held r y => NoneHeld held r y ∧ N o r y)
      (o.prog sha256 u) (holding none) x)
    (hp : StoreOnce plan client p) (hw : Answered client w)
    (hpost : ∀ z t y, p.Runs (serviceSem lastAsked (repliesIn fun _ => True)) ⟨none, w⟩ z.1 ⟨t, z.2⟩ →
      (∀ o r, t = some ⟨o, r⟩ → N o r y) → K z y) (x : S × G) :
    LockSim pr (withEnv sem (envAnswers allowed)) (fun held z y => NoneHeld held z y ∧ K z y)
      (inlined sha256 u client p w) (holding none) x := by
  induction p generalizing w x with
  | ret a =>
    refine fun y _ _ => ⟨fun _ => rfl, hpost (a, w) none y ⟨rfl, rfl⟩ fun _ _ h => ?_⟩
    cases h
  | lock l k ih => exact l.elim
  | unlock l k ih => exact l.elim
  | call c k ih =>
    cases c with
    | store o =>
      refine LockSim.bind (LockSim.mono ?_ (hstore o hp.1 x).lift)
      intro held r y hy
      obtain ⟨hheld, hN⟩ := hy
      obtain ⟨z, hz⟩ := hp.2 r w
      refine (hz.concludes sha256 u).lockSim (fun held y y' => hK held z y y')
        (hguar held) hheld (hpost z (some ⟨o, r⟩) y ?_ fun o' r' heq => ?_)
      · exact ⟨r, ⟨some ⟨o, r⟩, w⟩, ⟨rfl, rfl⟩, (hz.runs hw _).1⟩
      · cases heq
        exact hN
    | write msg =>
      refine LockSim.ask (hguar _) fun _ y =>
        ih (client w.length) (hp _) (hw.snoc msg) (fun z t y hrun => ?_) y
      exact hpost z t y ⟨_, _, rfl, hrun⟩
    | getChunk address cid request =>
      refine LockSim.ask (hguar _) fun reply y => ih reply (hp reply) hw (fun z t y hrun => ?_) y
      exact hpost z t y ⟨reply, _, ⟨⟨trivial, rfl⟩, rfl⟩, hrun⟩
    | generateUuidV4 =>
      refine LockSim.ask (hguar _) fun uuid y => ih uuid (hp uuid) hw (fun z t y hrun => ?_) y
      exact hpost z t y ⟨uuid, _, rfl, hrun⟩
    | withCorrelationId cid =>
      refine LockSim.ask (hguar _) fun _ y => ih () (hp ()) hw (fun z t y hrun => ?_) y
      exact hpost z t y ⟨(), _, rfl, hrun⟩

/-- A handler holds no lock outside of its store operation. -/
theorem inlined_lockSim {p : ServiceProg α} {w : Written} (u : UuidV4)
    (hguar : ∀ held y, pr.guar held y y)
    (hstore : ∀ o, plan o → ∀ x, LockSim pr sem NoneHeld (o.prog sha256 u) (holding none) x)
    (hp : StoreOnce plan client p) (hw : Answered client w) (x : S × G) :
    LockSim pr (withEnv sem (envAnswers allowed)) NoneHeld (inlined sha256 u client p w)
      (holding none) x := by
  refine LockSim.mono (fun _ _ _ h => h.1) (inlined_promise (K := fun _ _ => True)
    (N := fun _ _ _ => True) u hguar (fun _ _ _ _ _ h => h) (fun o ho y => ?_) hp hw
    (fun _ _ _ _ _ => trivial) x)
  exact LockSim.mono (fun _ _ _ h => ⟨h, trivial⟩) (hstore o ho y)

end Handlers

/-! ## The ledger of a server -/

section Ledger

variable {sha256 : Bytes → Digest} {service : Service} {allowed : Reply → Prop}
variable {served : Request → Prop} {reentrant : Bool}

theorem Planned.isMethod {rpc : Rpc} {o : StoreOp} (h : Planned service allowed rpc o) :
    o.IsMethod := by
  cases h <;> trivial

/-- The server, with the ledger of its store. -/
abbrev auditedNode (sha256 : Bytes → Digest) (service : Service) (allowed : Reply → Prop)
    (served : Request → Prop) (reentrant : Bool) :
    System (Fin 256) (Call ⊕ EnvCall) (Sum.elim Call.Ret EnvCall.Ret) Audited Request Request.Ret where
  impl := (nodeSystem sha256 .faithfulProbes service allowed served reentrant).impl
  sem := withEnv (audited .faithfulProbes) (envAnswers allowed)
  crash _ _ := False
  reentrant := reentrant

variable {T : Type} [DecidableEq T] {s s' : Store} {a : Audited} {c : NodeConfig T}

/-- A server that was started on a store whose counters are right. -/
theorem node_lockSound (hstore : IsStoreOf s a) (hbalanced : Balanced a)
    (h : Reachable (nodeSystem sha256 .faithfulProbes service allowed served reentrant) s c) :
    ∃ b g, IsStoreOf c.state b ∧
      LockSound (auditedNode sha256 service allowed served reentrant) ledgerProtocol (c.over b) g := by
  have hsem : ∀ (call : Call ⊕ EnvCall) (s : Store) (a : Audited) (r : Sum.elim Call.Ret EnvCall.Ret call)
      (t : Store), IsStoreOf s a → withEnv Policy.faithfulProbes.sem (envAnswers allowed) call s r t →
      ∃ b, withEnv (audited .faithfulProbes) (envAnswers allowed) call a r b ∧ IsStoreOf t b := by
    intro call s a r t ha hs
    cases call with
    | inl call => exact exists_audited call s a r t ha hs
    | inr e =>
      obtain ⟨henv, rfl⟩ := hs
      exact ⟨a, ⟨henv, rfl⟩, ha⟩
  have himpl : ∀ q p, (nodeSystem sha256 .faithfulProbes service allowed served reentrant).impl q p →
      (auditedNode sha256 service allowed served reentrant).impl q p := fun _ _ hp => hp
  obtain ⟨b, hb, hreach⟩ :=
    h.simulate himpl hsem (fun _ _ _ _ hc => hc.elim) (fun hre => hre) hstore
  have hsim : ∀ q p, (auditedNode sha256 service allowed served reentrant).impl q p →
      ∀ x, ledgerProtocol.inv x → LockSim ledgerProtocol
        (auditedNode sha256 service allowed served reentrant).sem NoneHeld p (holding none) x := by
    intro q p hp x _
    obtain ⟨_, uuid, rfl⟩ := hp
    exact inlined_lockSim (w := []) uuid (fun _ _ _ _ _ => ⟨rfl, fun _ => rfl⟩)
      (fun o ho y => ledgerSim_prog o ho.isMethod uuid) (storeOnce_handler service q.context q.rpc) rfl x
  obtain ⟨g, hsound⟩ := hreach.lockSound hsim (fun _ _ _ _ hc => hc.elim) ⟨_, hbalanced.start⟩
  exact ⟨b, g, hb, hsound⟩

/-! ## Whole runs -/

/-- A server may begin on the store: what is in the tree is in order, and the counters
are right. -/
structure Ready (sha256 : Bytes → Digest) (s : Store) : Prop where
  inv : DiskInv sha256 s.disk
  audit : ∃ a, IsStoreOf s a ∧ Balanced a

/-- A constructor returned, after some that did not. -/
theorem Boots.ready {d : Disk} (hinv : DiskInv sha256 d) (htree : d.IsTree)
    (h : Boots Policy.faithfulProbes.sem Store.disk d s) : Ready sha256 s := by
  obtain ⟨a, hboot, hstore⟩ := boots_audited h
  exact ⟨boots_inv hinv h, a, hstore, boots_balanced htree hboot⟩

/-- What is so while requests are under way, and what else when none is. -/
theorem Ready.reachable (hs : Ready sha256 s)
    (h : Reachable (nodeSystem sha256 .faithfulProbes service allowed served reentrant) s c) :
    DiskInv sha256 c.state.disk ∧ c.state.disk.IsTree ∧
      ((∀ t, c.thread t = none) → CountersMatch c.state) := by
  obtain ⟨a, hstore, hbalanced⟩ := hs.audit
  obtain ⟨b, g, ⟨hb⟩, hsound⟩ := node_lockSound hstore hbalanced h
  refine ⟨node_reachable_inv hs.inv h, hb ▸ hsound.inv.tree, fun hquiet => ?_⟩
  have hbalanced' : Balanced b := hsound.inv.balanced (hsound.all_free hquiet)
  exact hb ▸ hbalanced'.counter

/-- `GetStats` reads the counters. -/
theorem runs_getStats {pol : Policy} {stats : ChunkStoreStats} {t : Store}
    (h : getStats.Runs pol.sem s stats t) :
    stats.chunkCount = s.counter .chunkCount ∧ stats.bytesUsed = s.counter .bytesUsed := by
  obtain ⟨free, _, h₁, count, _, h₂, bytes, _, h₃, rfl, rfl⟩ := h
  obtain ⟨_, -, -, rfl⟩ := h₁.outcome
  obtain ⟨_, -, rfl, rfl⟩ := h₂.outcome
  obtain ⟨_, -, rfl, rfl⟩ := h₃.outcome
  exact ⟨rfl, rfl⟩

/-- The process stops, alone or with the machine, and the store is constructed again. -/
def Restarted (s s' : Store) : Prop :=
  ∃ d, Stopped s.disk d ∧ Boots Policy.faithfulProbes.sem Store.disk d s'

theorem Ready.lives {hists : List (List (Event T Request Request.Ret))} (hs : Ready sha256 s)
    (h : Lives (nodeSystem sha256 .faithfulProbes service allowed served reentrant) Restarted s
      hists s') : Ready sha256 s' := by
  induction h with
  | nil => exact hs
  | cons hreach hstop _ ih =>
    obtain ⟨hinv, htree, _⟩ := hs.reachable hreach
    obtain ⟨d, hstopped, hboot⟩ := hstop
    refine ih (hboot.ready ?_ (htree.stopped hstopped))
    rcases hstopped with rfl | hcrash
    · exact hinv
    · exact hinv.crash hcrash

/-- **The statistics of a node are those of its chunks.** From an empty data root, in
any life of a server with any number of threads, any faults but of the probes, and
stops at any moment: whenever no request is under way, a `GetNodeStats` is answered
with the number of the chunks and the number of their bytes, 64 bits wide. -/
theorem node_stats_exact {d : Disk} (hempty : d.IsEmpty)
    (hboot : Boots Policy.faithfulProbes.sem Store.disk d s)
    {hists : List (List (Event T Request Request.Ret))}
    (hlives : Lives (nodeSystem sha256 .faithfulProbes service allowed served reentrant) Restarted s
      hists s')
    (h : Reachable (nodeSystem sha256 .faithfulProbes service allowed served reentrant) s' c)
    (hquiet : ∀ t, c.thread t = none) {peer : PeerSem Store} {context : ServerContext}
    {request : GetNodeStatsRequest} (hversion : request.protocolVersion = kCurrentProtocolVersion)
    {r : Status × GetNodeStatsResponse} {w : Written} {t : Store}
    (hrun : RpcRun (localStore sha256 .faithfulProbes) peer service context (.getNodeStats request)
      c.state r w t) :
    r.1 = Status.OK ∧ ∃ ids : Finset ChunkId, (∀ id, id ∈ ids ↔ view c.state id ≠ none) ∧
      r.2.chunkCount = ids.card % 2 ^ 64 ∧
      r.2.bytesUsed = (∑ id ∈ ids, chunkLength (view c.state) id) % 2 ^ 64 := by
  obtain ⟨hinv, _, hmatch⟩ := ((hboot.ready hempty.inv hempty.isTree).lives hlives).reachable h
  obtain ⟨ids, hids, hcount, hbytes⟩ := hinv.exists_ids
  have hpre : runPreamble service request.protocolVersion none none = none := by
    simp [runPreamble, hversion, checkProtocolVersion]
  have hfollow := (rpcRun_getNodeStats.mp hrun).1
  simp only [getNodeStatsPlan, hpre] at hfollow
  obtain ⟨stats, ⟨_, hstats⟩, rfl⟩ := hfollow
  obtain ⟨hchunks, hused⟩ := runs_getStats hstats
  refine ⟨rfl, ids, hids, ?_, ?_⟩
  · rw [← hcount, ← hmatch hquiet .chunkCount]
    exact hchunks
  · rw [← hbytes, ← hmatch hquiet .bytesUsed]
    exact hused

end Ledger

/-- `abc` is uploaded to a server that has come up on an empty root. -/
theorem smallServer_uploadAbc :
    ∃ c : NodeConfig Bool, Reachable smallServer (booted .empty) c ∧
      c.state = ((smallProg uploadAbc).run plainStep (booted .empty)).2 ∧
      (∃ x, .res 0 false uploadAbc x ∈ c.hist) ∧ DiskInv knownSha256 c.state.disk := by
  have hinit : Reachable smallServer (booted .empty) (Config.init (booted .empty) : NodeConfig Bool) :=
    .refl
  have hrun : (smallProg uploadAbc).runsAlone plainStep (fun _ => 0) (booted .empty) := by
    decide +kernel
  obtain ⟨c, hc, _, hstate, hhist⟩ := hinit.invoke_alone (t := false) rfl
    (plainStep_sem .faithfulProbes) rfl (fun _ => rfl) ⟨trivial, default, rfl⟩ hrun
  refine ⟨c, hc, hstate, ⟨((smallProg uploadAbc).run plainStep (booted .empty)).1, ?_⟩,
    node_reachable_inv booted_empty_inv hc⟩
  rw [hhist]
  exact List.mem_append_right _ (List.mem_cons_of_mem _ List.mem_cons_self)

/-- `abc` was uploaded, and the server was stopped and is up again. -/
theorem node_stats_exact_abc :
    ∃ (hist : List (Event Bool Request Request.Ret)) (s : Store) (r : Status × GetNodeStatsResponse)
        (w : Written) (t : Store),
      Lives smallServer Restarted (booted .empty) [hist] s ∧
      (∃ x, .res 0 false uploadAbc x ∈ hist) ∧
      RpcRun (localStore knownSha256 .faithfulProbes) anyReply { maxChunkBytes := 3 } ⟨[]⟩
        (.getNodeStats ⟨kCurrentProtocolVersion⟩) s r w t ∧
      r.1 = Status.OK ∧ ∃ ids : Finset ChunkId, (∀ id, id ∈ ids ↔ view s id ≠ none) ∧
        r.2.chunkCount = ids.card % 2 ^ 64 ∧
        r.2.bytesUsed = (∑ id ∈ ids, chunkLength (view s) id) % 2 ^ 64 := by
  obtain ⟨c, hc, _, hanswered, hinv⟩ := smallServer_uploadAbc
  have hlives : Lives smallServer Restarted (booted .empty) [c.hist] (booted c.state) :=
    .cons hc ⟨c.state.disk, .inl rfl, boots_booted _ hinv.isFile_root⟩ .nil
  obtain ⟨r, w, t, hstats, _⟩ := exists_rpcRun (localStore_total knownSha256 .faithfulProbes)
    anyReply_total { maxChunkBytes := 3 } ⟨[]⟩ (.getNodeStats ⟨kCurrentProtocolVersion⟩) (booted c.state)
  have hup : Reachable smallServer (booted c.state) (Config.init (booted c.state) : NodeConfig Bool) :=
    .refl
  exact ⟨c.hist, _, r, w, t, hlives, hanswered, hstats,
    node_stats_exact Disk.isEmpty_empty boots_empty hlives hup (fun _ => rfl) rfl hstats⟩

end NimbusFs.StorageNode
