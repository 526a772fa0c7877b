import NimbusFs.StorageNode.ConcurrentNode
import NimbusFs.StorageNode.SizeLimit

/-! # What a client reads

On a server with many threads a client cares about one thing: what it was told is
stored can be read. A download that begins after an update of its id has ended sees
what the update left, unless an update of the other kind comes between them. -/
namespace NimbusFs.StorageNode

open NimbusFs.Common Lib

/-! ## Updates and their calls -/

/-- The one kind of update that takes a chunk away. -/
def Rpc.IsDelete : Rpc → Prop
  | .deleteChunk _ => True
  | _ => False

section Calls

variable {service : Service} {allowed : Reply → Prop} {rpc : Rpc} {id : ChunkId}

theorem Planned.put_requestedId {data : Bytes} (h : Planned service allowed rpc (.put id data)) :
    rpc.requestedId = some id ∧ ¬ rpc.IsDelete := by
  cases h with
  | putChunk hplan => exact ⟨putChunkPlan_ok hplan, fun h => h⟩
  | replicateChunk hread _ hplan =>
    obtain rfl := replicatePlan_ok hplan
    refine ⟨?_, fun h => h⟩
    simp [Rpc.requestedId, (readPlan_eq_ok.mp hread).2, Except.toOption]

theorem Planned.delete_requestedId (h : Planned service allowed rpc (.delete id)) :
    rpc.requestedId = some id ∧ rpc.IsDelete := by
  cases h with
  | deleteChunk hplan => exact ⟨deleteChunkPlan_ok hplan, trivial⟩

variable {S : Type} {chunkStore : ChunkStoreSem S} {context : ServerContext} {s t : S}

/-- An update that ends with OK had an OK from the store, for the id that it names. -/
theorem RpcRun.stored {r : rpc.Ret} {w : Written}
    (h : RpcRun chunkStore (repliesIn allowed) service context rpc s r w t)
    (hok : rpc.Succeeds r) :
    ∃ id, rpc.requestedId = some id ∧
      ((rpc.IsDelete ∧ chunkStore (.delete id) s (.ok ()) t) ∨
       (¬ rpc.IsDelete ∧ ∃ data, chunkStore (.put id data) s (.ok ()) t)) := by
  cases rpc with
  | putChunk reader =>
    rcases follows_map_cases (rpcRun_putChunk.mp h).1 with ⟨hplan, rfl⟩ | ⟨x, res, hplan, hop, rfl⟩
    · exact absurd hok (putChunkPlan_error hplan)
    · cases res with
      | error e => exact absurd hok.2 (mapStoreError_ne_OK e.kind)
      | ok _ => exact ⟨x.1, putChunkPlan_ok hplan, .inr ⟨fun h => h, x.2, hop⟩⟩
  | deleteChunk request =>
    rcases follows_map_cases (rpcRun_deleteChunk.mp h).1 with ⟨hplan, rfl⟩ | ⟨id, res, hplan, hop, rfl⟩
    · exact absurd hok (deleteChunkPlan_error hplan)
    · cases res with
      | error e => exact absurd hok.2 (mapStoreError_ne_OK e.kind)
      | ok _ => exact ⟨id, deleteChunkPlan_ok hplan, .inl ⟨trivial, hop⟩⟩
  | replicateChunk request =>
    have hrun := rpcRun_replicateChunk h
    split at hrun
    · rename_i st hplan
      obtain ⟨rfl, rfl⟩ := hrun
      exact absurd hok.1 (readPlan_error hplan)
    · rename_i id hread
      obtain ⟨cid, reply, _, ⟨hreply, rfl⟩, hfollow⟩ := hrun
      rcases follows_map_cases hfollow with ⟨hplan, rfl⟩ | ⟨x, res, hplan, hop, rfl⟩
      · exact absurd hok (replicatePlan_error hplan)
      · have hid := (Planned.replicateChunk hread hreply hplan).put_requestedId
        cases res with
        | error e => exact absurd hok.2 (mapStoreError_ne_OK e.kind)
        | ok _ => exact ⟨x.1, hid.1, .inr ⟨hid.2, x.2, hop⟩⟩
  | getChunk request => exact hok.elim
  | verifyChunk request => exact hok.elim
  | getNodeStats request => exact hok.elim

end Calls

section Reads

variable {sha256 : Bytes → Digest} {pol : Policy} {service : Service} {allowed : Reply → Prop}
variable {m m' : ChunkMap} {id : ChunkId}

/-- Every chunk is stored under its hash. -/
def HashesMatch (sha256 : Bytes → Digest) (m : ChunkMap) : Prop :=
  ∀ id b, m id = some b → sha256 b = id.digest

theorem mapSpec_hashesMatch {o : StoreOp} {r : o.Ret} (hm : HashesMatch sha256 m)
    (h : MapSpec sha256 pol m o r m') : HashesMatch sha256 m' := by
  intro id b hb
  rcases mapSpec_entry h hb with hold | rfl
  · exact hm id b hold
  · rcases h.1 with ⟨_, _, he⟩ | ⟨hsha, _⟩
    · exact hm id b (he ▸ hb)
    · exact hsha

/-- Only a `Delete` takes a chunk away. -/
theorem mapSpec_gone {o : StoreOp} {r : o.Ret} (h : MapSpec sha256 pol m o r m')
    (hid : m id ≠ none) (hgone : m' id = none) : o = .delete id := by
  have hsame : ∀ id', (∀ id'', id'' ≠ id' → m' id'' = m id'') → m' id' = m id' → False := by
    intro id' hothers heq
    rw [eq_of_others hothers heq] at hgone
    exact hid hgone
  cases o with
  | put id' data =>
    obtain ⟨hspec, hothers⟩ := h
    rcases hspec with ⟨_, _, he⟩ | ⟨_, ⟨_, _, he⟩ | ⟨_, _, he⟩ | ⟨_, _, he⟩⟩
    · exact (hsame id' hothers he).elim
    · exact (hsame id' hothers he).elim
    · by_cases heq : id = id'
      · subst heq
        rw [he] at hgone
        cases hgone
      · exact absurd ((hothers id heq).symm.trans hgone) hid
    · exact (hsame id' hothers he).elim
  | delete id' =>
    by_cases heq : id = id'
    · rw [heq]
    · exact absurd ((h.2 id heq).symm.trans hgone) hid
  | get id' => exact (hsame id' h.2 h.1.1).elim
  | verifyOnly id' => exact (hsame id' h.2 h.1.1).elim
  | existsChunk id' => exact (hsame id' h.2 h.1.1).elim
  | getStats => exact absurd (h ▸ hgone) hid
  | listAllChunkIds => exact absurd (h ▸ hgone) hid
  | construct => exact absurd (h ▸ hgone) hid

/-- What a successful update leaves at its id. -/
theorem AtomicRequest.leaves {q : Request} {x : q.Ret} (hprobe : pol.probeFault = false)
    (hm : HashesMatch sha256 m) (h : AtomicRequest sha256 pol service allowed m q x m')
    (hok : q.rpc.Succeeds x.1) (hid : q.rpc.requestedId = some id) :
    q.rpc.Leaves sha256 id (m' id) := by
  obtain ⟨id', hid', hop⟩ := h.1.stored hok
  obtain rfl : id = id' := by simpa [hid] using hid'
  obtain ⟨context, rpc, client⟩ := q
  have hadds : ∀ data, MapSpec sha256 pol m (.put id data) (.ok ()) m' →
      ∃ b, m' id = some b ∧ sha256 b = id.digest := by
    intro data hspec
    have hm' := mapSpec_hashesMatch hm hspec
    cases hb : m' id with
    | some b => exact ⟨b, rfl, hm' id b hb⟩
    | none =>
      rcases hspec.1 with ⟨_, hr, _⟩ | ⟨_, ⟨_, hne, he⟩ | ⟨_, _, he⟩ | ⟨_, ⟨e, hr⟩, _⟩⟩
      · cases hr
      · exact absurd (he.symm.trans hb) hne
      · rw [hb] at he
        cases he
      · cases hr
  rcases hop with ⟨hdel, hspec⟩ | ⟨hdel, data, hspec⟩
  · cases rpc with
    | deleteChunk request =>
      rcases hspec.1 with ⟨_, he⟩ | ⟨hp, _⟩ | ⟨_, ⟨e, hr⟩, _⟩
      · exact he
      · rw [hprobe] at hp
        cases hp
      · cases hr
    | _ => exact hdel.elim
  · cases rpc with
    | deleteChunk request => exact absurd trivial hdel
    | putChunk reader => exact hadds data hspec
    | replicateChunk request => exact hadds data hspec
    | _ => exact hok.elim

/-- A request over the map makes its planned call, or none. -/
theorem AtomicRequest.keeps {J : ChunkMap → Prop} {q : Request} {x : q.Ret} (hm : J m)
    (h : AtomicRequest sha256 pol service allowed m q x m')
    (hstep : ∀ o r, Planned service allowed q.rpc o → MapSpec sha256 pol m o r m' → J m') :
    J m' := by
  rcases h.1.calls with rfl | ⟨o, r, hplan, hop⟩
  · exact hm
  · exact hstep o r hplan hop

/-- An entry that an update left stays so as long as no update of the other kind
names its id. -/
theorem AtomicRequest.keeps_leaves {update : Rpc} {q : Request} {x : q.Ret}
    (hkind : q.rpc.requestedId = some id → (q.rpc.IsDelete ↔ update.IsDelete))
    (hm : HashesMatch sha256 m ∧ update.Leaves sha256 id (m id))
    (h : AtomicRequest sha256 pol service allowed m q x m') :
    HashesMatch sha256 m' ∧ update.Leaves sha256 id (m' id) := by
  refine h.keeps (J := fun m => HashesMatch sha256 m ∧ update.Leaves sha256 id (m id)) hm
    fun o r hplan hspec => ?_
  have hm' := mapSpec_hashesMatch hm.1 hspec
  have hpresent : ¬ update.IsDelete → m id ≠ none → ∃ b, m' id = some b ∧ sha256 b = id.digest := by
    intro hupdate hid
    cases hb : m' id with
    | some b => exact ⟨b, rfl, hm' id b hb⟩
    | none =>
      obtain rfl := mapSpec_gone hspec hid hb
      obtain ⟨hreq, hdel⟩ := hplan.delete_requestedId
      exact absurd ((hkind hreq).mp hdel) hupdate
  refine ⟨hm', ?_⟩
  cases update with
  | deleteChunk request =>
    show m' id = none
    have hnone : m id = none := hm.2
    cases hb : m' id with
    | none => rfl
    | some b =>
      rcases mapSpec_entry hspec hb with hold | rfl
      · rw [hnone] at hold
        cases hold
      · obtain ⟨hreq, hdel⟩ := hplan.put_requestedId
        exact absurd ((hkind hreq).mpr trivial) hdel
  | _ =>
    obtain ⟨b, hb, _⟩ := hm.2
    exact hpresent (fun h => h) (by rw [hb]; exact Option.some_ne_none b)

/-- A download handled alone sends what the entry holds, or an error of the disk. -/
theorem AtomicRequest.download {context : ServerContext} {request : GetChunkRequest}
    {client : Nat → Bool} {y : Status × Written} (hprobe : pol.probeFault = false)
    (hversion : request.protocolVersion = kCurrentProtocolVersion)
    (hid : ChunkId.parse request.chunkId = .ok id)
    (h : AtomicRequest sha256 pol service allowed m ⟨context, .getChunk request, client⟩ y m') :
    y.1 = Status.OK ∧
      (Sends y.2 (lookupResult (m id)) ∨ (pol.fault = true ∧ ∃ e, Sends y.2 (ioError e))) := by
  have hrun := rpcRun_getChunk h.1
  rw [readPlan_eq_ok.mpr ⟨hversion, hid⟩] at hrun
  obtain ⟨hr, getRes, u, hget, hsend⟩ := hrun
  obtain ⟨_, hsent⟩ := runs_sendResult hsend
  refine ⟨hr, ?_⟩
  rcases hget.1.2 with rfl | ⟨hp, _⟩ | ⟨hf, e, rfl⟩
  · exact .inl hsent
  · rw [hprobe] at hp
    cases hp
  · exact .inr ⟨hf, e, hsent⟩

variable {T : Type} [DecidableEq T] {s : Store} {c : NodeConfig T} {served : Request → Prop}
variable {reentrant : Bool}

/-- **A download sees every update that ended before it began.** On any number of
threads, over a store whose files are right at the start, with any faults but of the
probes: an update of an id ended with OK before a download of it began, and no update of
the other kind that names the id overlaps with the two or lies between them. Then the
download sends the bytes that an upload left, whose hash is the id, or that there is no
such chunk after a delete; only a fault of the disk makes it report an error instead. -/
theorem download_after_update (hinv : DiskInv sha256 s.disk) (hprobe : pol.probeFault = false)
    (h : Reachable (nodeSystem sha256 pol service allowed served reentrant) s c)
    {n n' : Nat} {t t' : T} {q : Request} {x : q.Ret} {context : ServerContext}
    {request : GetChunkRequest} {client : Nat → Bool} {y : Status × Written}
    (horder : List.Sublist [.res n t q x, .inv n' t' ⟨context, .getChunk request, client⟩] c.hist)
    (hres : .res n' t' ⟨context, .getChunk request, client⟩ y ∈ c.hist)
    (hok : q.rpc.Succeeds x.1) (hid : q.rpc.requestedId = some id)
    (hversion : request.protocolVersion = kCurrentProtocolVersion)
    (hreq : ChunkId.parse request.chunkId = .ok id)
    (hkind : ∀ k u q', .inv k u q' ∈ c.hist → q'.rpc.requestedId = some id →
      (q'.rpc.IsDelete ↔ q.rpc.IsDelete) ∨
      (∃ z, List.Sublist [.res k u q' z, .inv n t q] c.hist) ∨
      List.Sublist [.res n' t' ⟨context, .getChunk request, client⟩ y, .inv k u q'] c.hist) :
    y.1 = Status.OK ∧ ∃ e, q.rpc.Leaves sha256 id e ∧
      (Sends y.2 (lookupResult e) ∨ (pol.fault = true ∧ ∃ e, Sends y.2 (ioError e))) := by
  obtain ⟨lin, hlin⟩ := h.linearizable nodeSystem_linSim (fun _ _ hc => hc) hinv
  obtain ⟨before, a, b, mid, a', b', hmem, hbefore, hupd, hmid, hget, hbetween⟩ :=
    hlin.between horder hres
  have ha : HashesMatch sha256 a := by
    refine hbefore.keeps (J := HashesMatch sha256) (fun k q' z _ m m' hm hspec => ?_)
      fun id b hb => hinv.hash hb
    exact hspec.keeps hm fun o r _ hop => mapSpec_hashesMatch hm hop
  have hb : HashesMatch sha256 b := hupd.keeps ha fun o r _ hop => mapSpec_hashesMatch ha hop
  have ha' : HashesMatch sha256 a' ∧ q.rpc.Leaves sha256 id (a' id) := by
    refine hmid.keeps (J := fun m => HashesMatch sha256 m ∧ q.rpc.Leaves sha256 id (m id))
      (fun k q' z hz m m' hm hspec => ?_) ⟨hb, hupd.leaves hprobe ha hok hid⟩
    refine hspec.keeps_leaves (fun hreq' => ?_) hm
    obtain ⟨u, hinvoked⟩ := hlin.started k q' z (hmem _ (List.mem_append_right _ hz))
    obtain ⟨hnotbefore, hnotafter⟩ := hbetween _ hz
    rcases hkind k u q' hinvoked hreq' with hsame | ⟨z', hearly⟩ | hlate
    · exact hsame
    · exact absurd hearly (hnotbefore _ _ _ _)
    · exact absurd hlate (hnotafter _ _ _)
  obtain ⟨hstatus, hsent⟩ := hget.download hprobe hversion hreq
  exact ⟨hstatus, a' id, ha'.2, hsent⟩

end Reads

/-- `abc` is uploaded on one thread, and then downloaded on another. -/
theorem download_after_update_abc :
    ∃ (c : NodeConfig Bool) (n : Nat) (y : Status × Written), Reachable (nodeSystem knownSha256
        .faithfulProbes { maxChunkBytes := 3 } (fun _ => True) (fun _ => True) true) Store.empty c ∧
      c.hist = [.inv 0 false uploadAbc, .res 0 false uploadAbc (putChunkAnswer (.ok ()), []),
        .inv n true downloadAbc, .res n true downloadAbc y] ∧
      y.1 = Status.OK ∧ ∃ e, (∃ b, e = some b ∧ knownSha256 b = ChunkId.ofAbc.digest) ∧
        (Sends y.2 (lookupResult e) ∨
          (Policy.faithfulProbes.fault = true ∧ ∃ e, Sends y.2 (ioError e))) := by
  let sys := nodeSystem knownSha256 .faithfulProbes { maxChunkBytes := 3 } (fun _ => True)
    (fun _ => True) true
  have himpl : ∀ q, sys.impl q (smallProg q) := fun q => ⟨trivial, default, rfl⟩
  have hinit : Reachable sys Store.empty (Config.init Store.empty : NodeConfig Bool) := .refl
  obtain ⟨hrun, hres⟩ := smallProg_uploadAbc
  obtain ⟨c, hc, hthread, hstate, hhist⟩ := hinit.invoke_alone (t := false) rfl
    (plainStep_sem .faithfulProbes) rfl (fun _ => rfl) (himpl uploadAbc) hrun
  have hfree := (hc.inOrder (nodeSystem_orderly (.inl rfl))).free fun t => congrFun hthread t
  have hrun' : (smallProg downloadAbc).runsAlone plainStep (fun _ => 0) c.state := by
    rw [hstate]
    decide +kernel
  obtain ⟨c', hc', _, _, hhist'⟩ := hc.invoke_alone (t := true) rfl
    (plainStep_sem .faithfulProbes) (congrFun hthread true) hfree (himpl downloadAbc) hrun'
  let y := ((smallProg downloadAbc).run plainStep c.state).1
  have hhist₂ : c'.hist = [.inv 0 false uploadAbc,
      .res 0 false uploadAbc (putChunkAnswer (.ok ()), []), .inv c.next true downloadAbc,
      .res c.next true downloadAbc y] := by
    have hfirst : c.hist = [.inv 0 false uploadAbc,
        .res 0 false uploadAbc (putChunkAnswer (.ok ()), [])] :=
      hhist.trans (congrArg (fun x => [Event.inv 0 false uploadAbc, Event.res 0 false uploadAbc x])
        hres)
    rw [hhist', hfirst]
    rfl
  have horder : List.Sublist [.res 0 false uploadAbc (putChunkAnswer (.ok ()), []),
      .inv c.next true downloadAbc] c'.hist := by
    rw [hhist₂]
    exact .cons _ (.cons_cons _ (.cons_cons _ (List.nil_sublist _)))
  have hmem : .res c.next true downloadAbc y ∈ c'.hist := by
    rw [hhist₂]
    simp
  have hok : uploadAbc.rpc.Succeeds (putChunkAnswer (.ok ())) := ⟨rfl, rfl⟩
  refine ⟨c', c.next, y, hc', hhist₂, download_after_update Disk.isEmpty_empty.inv rfl hc' horder
    hmem hok requestedId_uploadAbc rfl (ChunkId.parse_hex _) fun k u q hq _ => .inl ?_⟩
  rw [hhist₂] at hq
  have hq' : q = uploadAbc ∨ q = downloadAbc := by
    simp only [List.mem_cons, Event.inv.injEq, reduceCtorEq, List.not_mem_nil, or_false,
      false_or] at hq
    exact hq.imp (fun h => h.2.2) fun h => h.2.2
  rcases hq' with rfl | rfl
  · rfl
  · rfl

end NimbusFs.StorageNode
