import NimbusFs.Lib.Phases
import NimbusFs.StorageNode.Durability
import NimbusFs.StorageNode.NodeStats

/-! # A node after faults

What a disk did wrong is over once it stops. However many calls failed, in whatever
order and on however many threads, and however often the process or the machine went
down on the way: from the moment when no call fails any more, with whatever requests
under way, a request that begins is answered as the map of the chunks alone says, and
no answer to it tells of an error of the disk or of a corrupted chunk. The counters
that `GetNodeStats` reads are no part of that map.

A chunk that something else spoiled is another matter: an upload is acknowledged and does
not repair it. A delete and then an upload does, and touches no other chunk. -/
namespace NimbusFs.StorageNode

open NimbusFs.Common Lib

/-! ## Requests over the reference map -/

/-- The reference map, as a chunk store of a handler. -/
def referenceStore (sha256 : Bytes → Digest) : ChunkStoreSem ChunkMap :=
  fun o m r m' => ReferenceMap sha256 m o r m'

/-- The whole request handled alone, over the reference map. -/
def PlainRequest (sha256 : Bytes → Digest) (service : Service) (allowed : Reply → Prop)
    (m : ChunkMap) (q : Request) (x : q.Ret) (m' : ChunkMap) : Prop :=
  RpcRun (referenceStore sha256) (repliesIn allowed) service q.context q.rpc m x.1 x.2 m' ∧
    Answered q.client x.2

/-- The statuses of chunks in an answer, or in the messages that were written.
`ReplicateChunk` may pass on what its source says, so it is left out. -/
def Rpc.Reports : (rpc : Rpc) → rpc.Ret × Written → ChunkStatus → Prop
  | .putChunk _, x, status => x.1.2.status = status
  | .verifyChunk _, x, status => x.1.2.status = status
  | .deleteChunk _, x, status => x.1.2.status = status
  | .getChunk _, x, status => ∃ m ∈ x.2, ∃ md, m.1.metadata = some md ∧ md.status = status
  | .replicateChunk _, _, _ | .getNodeStats _, _, _ => False

/-- The disk failed, or a chunk is not what it was. -/
def ChunkStatus.IsDamage (status : ChunkStatus) : Prop :=
  status = .IO_ERROR ∨ status = .CORRUPTION_DETECTED

section Reports

variable {sha256 : Bytes → Digest} {service : Service} {allowed : Reply → Prop}
variable {m m' : ChunkMap} {status : ChunkStatus}

theorem AtomicRequest.plain {q : Request} {x : q.Ret}
    (h : AtomicRequest sha256 .noFault service allowed m q x m') :
    PlainRequest sha256 service allowed m q x m' := by
  refine ⟨h.1.mono fun c n r n' hs => ?_, h.2⟩
  cases c with
  | store o => exact ⟨referenceMap_of_noFault hs.1, hs.2⟩
  | write msg => exact hs
  | getChunk address cid request => exact hs
  | generateUuidV4 => exact hs
  | withCorrelationId cid => exact hs

/-- What is answered before the store is asked. -/
theorem putChunkPlan_not_damage {reader : List PutChunkRequest} {r : Status × PutChunkResponse}
    (h : putChunkPlan service reader = .error r) : ¬ r.2.status.IsDamage := by
  unfold putChunkPlan at h
  dsimp only at h
  split at h
  · cases h
    simp [ChunkStatus.IsDamage]
  · split at h
    · split at h
      · cases h
        simp [ChunkStatus.IsDamage]
      · split at h
        · split at h <;> cases h <;> simp [ChunkStatus.IsDamage]
        · split at h
          · cases h
            simp [ChunkStatus.IsDamage]
          · split at h
            · cases h
              simp [ChunkStatus.IsDamage]
            · split at h <;> cases h <;> simp [ChunkStatus.IsDamage]
    · cases h
      simp [ChunkStatus.IsDamage]

theorem deleteChunkPlan_not_damage {request : DeleteChunkRequest} {r : Status × DeleteChunkResponse}
    (h : deleteChunkPlan service request = .error r) : ¬ r.2.status.IsDamage := by
  unfold deleteChunkPlan at h
  dsimp only at h
  split at h
  · cases h
    simp [ChunkStatus.IsDamage]
  · split at h
    · split at h <;> cases h <;> simp [ChunkStatus.IsDamage]
    · cases h

/-- What `Get` returns of the reference map is no damage. -/
theorem lookupResult_not_damage {entry : Option Bytes} {e : ChunkStoreErrorDetail}
    (h : lookupResult entry = .error e) : ¬ (mapStoreError e.kind).IsDamage := by
  cases entry with
  | some b => cases h
  | none =>
    cases h
    simp [ChunkStatus.IsDamage, mapStoreError]

/-- Only the first message has a status, and it is that of the result. -/
theorem Sends.not_damage {w : Written} {getRes : Result Bytes} (h : Sends w getRes)
    (hres : ∀ e, getRes = .error e → ¬ (mapStoreError e.kind).IsDamage)
    {msg : GetChunkResponse × Bool} (hmsg : msg ∈ w) {md : GetChunkMetadata}
    (hmd : msg.1.metadata = some md) : ¬ md.status.IsDamage := by
  cases getRes with
  | error e =>
    obtain ⟨ok, rfl⟩ := h
    obtain rfl := List.mem_singleton.mp hmsg
    cases hmd
    exact hres e rfl
  | ok data =>
    obtain ⟨ok, w', rfl, hatt⟩ := h
    rcases List.mem_cons.mp hmsg with rfl | hmsg
    · cases hmd
      simp [ChunkStatus.IsDamage]
    · have hframe : msg.1 ∈ frameMessages data :=
        hatt.written_isPrefix.subset (List.mem_map_of_mem hmsg)
      obtain ⟨frame, _, hdata⟩ := List.mem_map.mp hframe
      rw [← hdata] at hmd
      cases hmd

/-- **Over the reference map no damage is reported.** -/
theorem PlainRequest.not_damage {q : Request} {x : q.Ret}
    (h : PlainRequest sha256 service allowed m q x m') (hstatus : q.rpc.Reports x status) :
    ¬ status.IsDamage := by
  obtain ⟨context, rpc, client⟩ := q
  obtain ⟨r, w⟩ := x
  obtain ⟨hrun, _⟩ := h
  cases rpc with
  | putChunk reader =>
    obtain rfl : r.2.status = status := hstatus
    rcases follows_map_cases (rpcRun_putChunk.mp hrun).1 with
      ⟨hplan, _⟩ | ⟨⟨id, data⟩, res, _, hop, rfl⟩
    · exact putChunkPlan_not_damage hplan
    · simp only [putStep, referenceStore, ReferenceMap] at hop
      split at hop
      · obtain ⟨rfl, _⟩ := hop
        simp [ChunkStatus.IsDamage, putStep, putChunkAnswer, putChunkResponse, checksumMismatch,
          mapStoreError]
      · obtain ⟨rfl, _⟩ := hop
        simp [ChunkStatus.IsDamage, putStep, putChunkAnswer, putChunkResponse]
  | deleteChunk request =>
    obtain rfl : r.2.status = status := hstatus
    rcases follows_map_cases (rpcRun_deleteChunk.mp hrun).1 with ⟨hplan, _⟩ | ⟨id, res, _, hop, rfl⟩
    · exact deleteChunkPlan_not_damage hplan
    · obtain ⟨rfl, _⟩ := hop
      simp [ChunkStatus.IsDamage, deleteChunkAnswer]
  | verifyChunk request =>
    obtain rfl : r.2.status = status := hstatus
    have hfollow := (rpcRun_verifyChunk.mp hrun).1
    cases hplan : readPlan service request.protocolVersion request.chunkId with
    | error st =>
      rw [verifyChunkPlan, hplan] at hfollow
      obtain ⟨rfl, _⟩ := hfollow
      simp [ChunkStatus.IsDamage]
    | ok id =>
      rw [verifyChunkPlan, hplan] at hfollow
      obtain ⟨res, ⟨hres, _⟩, rfl⟩ := hfollow
      cases hget : lookupResult (m id) with
      | ok b =>
        obtain rfl : res = .ok () := by rw [hres, hget]; rfl
        simp [ChunkStatus.IsDamage]
      | error e =>
        obtain rfl : res = .error e := by rw [hres, hget]; rfl
        exact lookupResult_not_damage hget
  | getChunk request =>
    obtain ⟨msg, hmsg, md, hmd, rfl⟩ := hstatus
    have hget := rpcRun_getChunk hrun
    split at hget
    · obtain ⟨_, _, rfl⟩ := hget
      cases hmsg
    · obtain ⟨_, getRes, u, ⟨hres, _⟩, hsend⟩ := hget
      have hlookup : ∀ e, getRes = .error e → ¬ (mapStoreError e.kind).IsDamage :=
        fun e he => lookupResult_not_damage (hres ▸ he)
      exact (runs_sendResult hsend).2.not_damage hlookup hmsg hmd
  | replicateChunk request => exact hstatus.elim
  | getNodeStats request => exact hstatus.elim

end Reports

/-! ## Whole lives -/

section Lives

variable {T : Type} [DecidableEq T] {sha256 : Bytes → Digest} {pol : Policy} {service : Service}
variable {allowed : Reply → Prop} {served : Request → Prop} {reentrant : Bool} {s s' : Store}

/-- The process stops, alone or with the machine, and constructors run until one
returns, with faults as `pol` allows. -/
def RestartedUnder (pol : Policy) (s s' : Store) : Prop :=
  ∃ d, Stopped s.disk d ∧ Boots pol.sem Store.disk d s'

theorem RestartedUnder.inv (hinv : DiskInv sha256 s.disk) (h : RestartedUnder pol s s') :
    DiskInv sha256 s'.disk := by
  obtain ⟨d, hstopped, hboot⟩ := h
  rcases hstopped with rfl | hcrash
  · exact boots_inv hinv hboot
  · exact boots_inv (hinv.crash hcrash) hboot

theorem DiskInv.lives {hists : List (List (Event T Request Request.Ret))}
    (hinv : DiskInv sha256 s.disk)
    (h : Lives (nodeSystem sha256 pol service allowed served reentrant) (RestartedUnder pol) s
      hists s') :
    DiskInv sha256 s'.disk := by
  induction h with
  | nil => exact hinv
  | cons hreach hstop _ ih => exact ih (hstop.inv (node_reachable_inv hinv hreach))

/-- What the calls may do: anything that `pol` allows at first, and later no fault. -/
def phasePolicy (pol : Policy) : Bool → Policy
  | true => pol
  | false => .noFault

/-- A request handled alone: over the map of the chunks with the faults that `pol`
allows, or over the reference map. -/
def PhaseRequest (sha256 : Bytes → Digest) (pol : Policy) (service : Service)
    (allowed : Reply → Prop) : Bool → ChunkMap → (q : Request) → q.Ret → ChunkMap → Prop
  | true => AtomicRequest sha256 pol service allowed
  | false => PlainRequest sha256 service allowed

theorem AtomicRequest.phase {faulty : Bool} {m m' : ChunkMap} {q : Request} {x : q.Ret}
    (h : AtomicRequest sha256 (phasePolicy pol faulty) service allowed m q x m') :
    PhaseRequest sha256 pol service allowed faulty m q x m' := by
  cases faulty with
  | true => exact h
  | false => exact h.plain

/-- A node on a disk that works, at some moment, is one whose disk may fail and does not. -/
theorem noFault_node {c : Call ⊕ EnvCall} {x y : Store} {r : Sum.elim Call.Ret EnvCall.Ret c}
    (h : (nodeSystem sha256 .noFault service allowed served reentrant).sem c x r y) :
    (nodeSystem sha256 pol service allowed served reentrant).sem c x r y := by
  cases c with
  | inl call => exact noFault_sem_le pol call x r y h
  | inr e => exact h

/-- **Faults leave no lasting damage.** A node is started on an empty data root, serves
any requests on any number of threads, has any calls of its disk fail as `pol` allows,
and is stopped and started again at any moments. At `c₀`, in the middle of anything, its
disk begins to work. From then on all that it keeps has the right hash. The answers of
that life are those of one order of its requests, each handled alone: the older ones over
the map with its faults, those that began later over the reference map. And none of the
later ones reports an error of the disk or a corrupted chunk. The counters in the answers
of `GetNodeStats` are left free. -/
theorem past_faults_heal {d : Disk} (hempty : d.IsEmpty) (hboot : Boots pol.sem Store.disk d s)
    {hists : List (List (Event T Request Request.Ret))}
    (hlives : Lives (nodeSystem sha256 pol service allowed served reentrant) (RestartedUnder pol) s
      hists s') {c₀ c : NodeConfig T}
    (h₀ : Reachable (nodeSystem sha256 pol service allowed served reentrant) s' c₀)
    (h : Relation.ReflTransGen
      (Step (nodeSystem sha256 .noFault service allowed served reentrant)) c₀ c) :
    HashesMatch sha256 (view c.state) ∧
      Linearizable (byMark (PhaseRequest sha256 pol service allowed)) (view s')
        (c.hist.map (Event.mark fun n => decide (n < c₀.next))) ∧
      ∀ n t q x status, .res n t q x ∈ c.hist → c₀.next ≤ n → q.rpc.Reports x status →
        ¬ status.IsDamage := by
  have hinv : DiskInv sha256 s'.disk := (boots_inv hempty.inv hboot).lives hlives
  let sys (faulty : Bool) :=
    nodeSystem sha256 (phasePolicy pol faulty) service allowed served reentrant
  have hre : ∀ b, (sys b).reentrant = true → reentrant = true := fun _ hre => hre
  have hsim : ∀ b o p, (sys b).impl o p → LinSim (storeProtocol sha256) (sys b).sem
      (AtomicRequest sha256 (phasePolicy pol b) service allowed) view p :=
    fun _ => nodeSystem_linSim
  have hstart : Reachable (sys true) s' c₀ := h₀
  have hsteps : Relation.ReflTransGen (Step (sys false)) c₀ c := h
  obtain ⟨hnow, lin, hlin⟩ := Reachable.phases_linearizable hre (fun _ _ _ _ => noFault_node)
    hsim (fun _ _ _ hc => hc) hinv hstart hsteps
  have hphase := hlin.mono fun _ (o : Bool × Request) _ _ hreq => AtomicRequest.phase hreq
  refine ⟨fun id b hb => hnow.hash hb, ⟨lin, hphase⟩, fun n t q x status hres hnew hreport => ?_⟩
  obtain ⟨_, hlegal⟩ := hphase.legal
  have hmarked := mem_map_mark (fun n => decide (n < c₀.next)) hres
  obtain ⟨_, _, _, _, _, _, hreq, _⟩ := hphase.after hlegal hmarked
  have hplain : PhaseRequest sha256 pol service allowed (decide (n < c₀.next)) _ q x _ := hreq
  rw [decide_eq_false (Nat.not_lt.mpr hnew)] at hplain
  exact PlainRequest.not_damage hplain hreport

end Lives

/-- A server that keeps chunks of at most three bytes, on a disk that works. -/
abbrev soundServer :=
  nodeSystem knownSha256 .noFault { maxChunkBytes := 3 } (fun _ => True) (fun _ => True) true

/-- Nothing can be written to the disk. -/
def fullDiskOutcome : Call → Outcome
  | .write _ _ => .fail "No space left on device"
  | _ => .ok

def fullDiskStep : (c : Call ⊕ EnvCall) → Store → Sum.elim Call.Ret EnvCall.Ret c × Store
  | .inl c, s => c.exec (fullDiskOutcome c) s
  | .inr e, s => plainStep (.inr e) s

theorem fullDiskStep_sem (c : Call ⊕ EnvCall) (s : Store) :
    smallServer.sem c s (fullDiskStep c s).1 (fullDiskStep c s).2 := by
  cases c with
  | inl call =>
    have hallowed : Policy.faithfulProbes.allows call (fullDiskOutcome call) := by
      cases call with
      | write fd data => exact .inr rfl
      | _ => exact .inl rfl
    exact ⟨_, hallowed, rfl⟩
  | inr e => exact plainStep_sem .faithfulProbes (.inr e) s

/-- An upload failed on a full disk, and the server was stopped. In its next life a
download is under way when the disk begins to work, and `abc` is uploaded. -/
theorem past_faults_heal_abc :
    ∃ (hist : List (Event Bool Request Request.Ret)) (s : Store) (c₀ c : NodeConfig Bool),
      Lives smallServer (RestartedUnder .faithfulProbes) (booted .empty) [hist] s ∧
      (∃ x, .res 0 false uploadAbc x ∈ hist ∧ uploadAbc.rpc.Reports x .IO_ERROR) ∧
      Reachable smallServer s c₀ ∧ c₀.hist = [.inv 0 true downloadAbc] ∧
      Relation.ReflTransGen (Step soundServer) c₀ c ∧
      ∃ x, .res 1 false uploadAbc x ∈ c.hist ∧
        ∀ status, uploadAbc.rpc.Reports x status → ¬ status.IsDamage := by
  have himpl : ∀ q, smallServer.impl q (smallProg q) := fun q => ⟨trivial, default, rfl⟩
  -- the first life
  have hinit : Reachable smallServer (booted .empty) (Config.init (booted .empty) : NodeConfig Bool) :=
    .refl
  have hrun₁ : (smallProg uploadAbc).runsAlone fullDiskStep (fun _ => 0) (booted .empty) := by
    decide +kernel
  have hfailed : uploadAbc.rpc.Reports ((smallProg uploadAbc).run fullDiskStep (booted .empty)).1
      .IO_ERROR := by
    show (((smallProg uploadAbc).run fullDiskStep (booted .empty)).1.1.2.status) = .IO_ERROR
    decide +kernel
  obtain ⟨c₁, hc₁, _, hstate₁, hhist₁⟩ := hinit.invoke_alone (t := false) rfl
    fullDiskStep_sem rfl (fun _ => rfl) (himpl uploadAbc) hrun₁
  have hinv₁ : DiskInv knownSha256 c₁.state.disk := node_reachable_inv booted_empty_inv hc₁
  have hlives : Lives smallServer (RestartedUnder .faithfulProbes) (booted .empty) [c₁.hist]
      (booted c₁.state) := .cons hc₁ ⟨_, .inl rfl, boots_booted _ hinv₁.isFile_root⟩ .nil
  -- the second
  let c₀ : NodeConfig Bool :=
    (Config.init (booted c₁.state) : NodeConfig Bool).start true downloadAbc (smallProg downloadAbc)
  have hc₀ : Reachable smallServer (booted c₁.state) c₀ :=
    Relation.ReflTransGen.refl.tail (.invoke rfl (himpl downloadAbc))
  have hrun₂ : (smallProg uploadAbc).runsAlone plainStep (fun _ => 0) (booted c₁.state) := by
    rw [hstate₁]
    decide +kernel
  have hnow : Relation.ReflTransGen (Step soundServer) c₀ c₀ := .refl
  obtain ⟨c, hc, _, _, hhist⟩ := invoke_alone_from (t := false) rfl (plainStep_sem .noFault) hnow rfl
    (fun _ => rfl) ⟨trivial, default, rfl⟩ hrun₂
  have hres : .res 1 false uploadAbc ((smallProg uploadAbc).run plainStep (booted c₁.state)).1 ∈
      c.hist := by
    rw [hhist]
    exact List.mem_append_right _ (List.mem_cons_of_mem _ List.mem_cons_self)
  obtain ⟨_, _, hsound⟩ := past_faults_heal Disk.isEmpty_empty boots_empty hlives hc₀ hc
  refine ⟨c₁.hist, _, c₀, c, hlives, ⟨_, ?_, hfailed⟩, hc₀, rfl, hc, _, hres,
    fun status => hsound 1 false uploadAbc _ status hres le_rfl⟩
  rw [hhist₁]
  exact List.mem_append_right _ (List.mem_cons_of_mem _ List.mem_cons_self)

/-! ## A chunk that was spoiled -/

/-- Directories and files are where a store has them; a file may hold anything. -/
def Shaped (d : Disk) : Prop :=
  ∀ p n, d.node p = some n → (p.length ≤ 2 ∧ n = .dir) ∨ (2 < p.length ∧ n ≠ .dir)

section Repair

variable {sha256 : Bytes → Digest} {id : ChunkId} {data : Bytes} {s t : Store}

/-- Every tree that a store leaves behind is of this shape. -/
theorem DiskInv.shaped {d : Disk} (h : DiskInv sha256 d) : Shaped d := by
  intro p n hn
  rcases h p n (.inl hn) with hdir | ⟨id, b, rfl, rfl, _⟩ | ⟨id, u, b, dirty, rfl, rfl⟩
  · exact .inl hdir
  · exact .inr ⟨(belongs_finalPathFor id).length.ge, by simp⟩
  · exact .inr ⟨(belongs_tmpPathFor id u).length.ge, by simp⟩

/-- Something else wrote to files of the tree; no entry came or went. -/
def Altered (d d' : Disk) : Prop :=
  ∀ p, d'.node p = d.node p ∨
    ∃ b dirty b' dirty', d.node p = some (.file b dirty) ∧ d'.node p = some (.file b' dirty')

theorem Shaped.altered {d d' : Disk} (h : Shaped d) (haltered : Altered d d') : Shaped d' := by
  intro p n hn
  rcases haltered p with hsame | ⟨b, dirty, b', dirty', hfile, hfile'⟩
  · exact h p n (hsame ▸ hn)
  · rw [hfile'] at hn
    cases hn
    rcases h p _ hfile with ⟨_, hdir⟩ | ⟨hlong, _⟩
    · cases hdir
    · exact .inr ⟨hlong, by simp⟩

theorem Shaped.not_dir {d : Disk} (h : Shaped d) {p : Path} (hp : 2 < p.length) :
    d.node p ≠ some .dir := by
  intro hn
  rcases h p _ hn with ⟨hle, _⟩ | ⟨_, hne⟩
  · omega
  · exact hne rfl

/-- No file is in the way of the shard directory. -/
theorem Shaped.no_file {d : Disk} (h : Shaped d) (id : ChunkId) :
    (shardDirFor id).inits.any d.isFile = false := by
  rw [List.any_eq_false]
  intro q hq
  have hlen : q.length ≤ 2 := ((List.mem_inits q _).mp hq).length_le.trans (by rfl)
  unfold Disk.isFile
  split
  · rename_i hfile
    rcases h q _ hfile with ⟨_, hdir⟩ | ⟨hlong, _⟩
    · cases hdir
    · omega
  · simp

/-- Once it was made, the shard directory is there. -/
theorem Shaped.mkdirs_shard {d : Disk} (h : Shaped d) (id : ChunkId) :
    (d.mkdirs (shardDirFor id).inits).node (shardDirFor id) = some .dir := by
  rw [Disk.node_mkdirs]
  split
  · rfl
  · rename_i hthere
    have hmem : shardDirFor id ∈ (shardDirFor id).inits := by simp
    obtain ⟨n, hn⟩ := Option.ne_none_iff_exists'.mp fun hnone => hthere ⟨hmem, hnone⟩
    rcases h _ n hn with ⟨_, rfl⟩ | ⟨hlong, _⟩
    · exact hn
    · rw [shardDirFor_length] at hlong
      omega

/-- The calls of an update touch the files of its chunk, and its shard directory. -/
theorem TouchesChunk.touches {c : Call} (hc : TouchesChunk id c) (oc : Outcome) (s : Store) :
    Touches (fun p => Belongs id p ∨ p = shardDirFor id) s.disk (c.exec oc s).2.disk := by
  have htmp : ∀ u p, p = tmpPathFor id u → Belongs id p ∨ p = shardDirFor id :=
    fun u p hp => .inl (hp ▸ belongs_tmpPathFor id u)
  have hfinal : ∀ p, p = finalPathFor id → Belongs id p ∨ p = shardDirFor id :=
    fun p hp => .inl (hp ▸ belongs_finalPathFor id)
  cases hc with
  | existsPath => exact .refl _ _
  | fileSize => exact .refl _ _
  | createDirectories => exact touches_createDirectories (by rfl) oc
  | openTmp u => exact (touches_internalOpen _ _ oc).mono (htmp u)
  | writeTmp u data => exact (touches_write _ data oc).mono (htmp u)
  | fsyncTmp u => exact (touches_internalFsync _ oc).mono (htmp u)
  | renameTmp u =>
    refine (touches_rename _ _ oc).mono fun p hp => ?_
    rcases hp with hp | hp
    · exact htmp u p hp
    · exact hfinal p hp
  | removeTmp u => exact (touches_remove _ oc).mono (htmp u)
  | removeFinal => exact (touches_remove _ oc).mono hfinal
  | openDir => exact (touches_internalOpen _ _ oc).mono fun _ hp => .inr hp
  | fsyncDir => exact (touches_internalFsync _ oc).mono fun _ hp => .inr hp
  | close fd => exact .refl _ _
  | fetchAdd c n => exact .refl _ _
  | fetchSub c n => exact .refl _ _

/-- So an update leaves the other chunks alone, whatever is on the disk. -/
theorem view_of_update {α : Type} {p : StoreProg α} {pol : Policy} {a : α}
    (huses : p.Uses Call.Answers (TouchesChunk id)) (h : p.Runs pol.sem s a t) {id' : ChunkId}
    (hid : id' ≠ id) : view t id' = view s id' := by
  have hother : ∀ c, TouchesChunk id c → ∀ x r y, pol.sem c x r y → view y id' = view x id' := by
    intro c hc x r y hsem
    obtain ⟨oc, -, -, rfl⟩ := hsem.outcome
    refine (hc.touches oc x).contents ?_
    rintro (hbelongs | hdir)
    · exact hid ((belongs_finalPathFor id').unique hbelongs)
    · have hlen := (belongs_finalPathFor id').length
      rw [hdir, shardDirFor_length] at hlen
      cases hlen
  have hcall : ∀ c, TouchesChunk id c → ∀ x x' r y, (x' = x ∧ view x id' = view s id') →
      pol.sem c x r y → ∃ y', pol.sem c x' r y' ∧ (y' = y ∧ view y id' = view s id') := by
    rintro c hc x _ r y ⟨rfl, hsame⟩ hsem
    exact ⟨y, hsem, rfl, (hother c hc _ r y hsem).trans hsame⟩
  have hstart : s = s ∧ view s id' = view s id' := ⟨rfl, rfl⟩
  obtain ⟨_, _, _, hview⟩ := Prog.Runs.transfer Policy.sem.answers hcall huses hstart h
  exact hview

theorem execute_delete (hdir : s.disk.node (finalPathFor id) ≠ some .dir) :
    (execute (delete id) s).1 = .ok () ∧
      ∀ p, (execute (delete id) s).2.disk.node p =
        if p = finalPathFor id then none else s.disk.node p := by
  rw [execute, delete, Prog.run_guarded]
  cases hnode : s.disk.node (finalPathFor id) with
  | none =>
    have hrun : (deleteLocked id).run (fun c s => c.exec .ok s) s = (.ok (), s) := by
      simp [deleteLocked, sys, Prog.perform_bind, Prog.run_call, Call.exec, Disk.fileSize, hnode,
        Prog.run_ret]
    rw [hrun]
    refine ⟨rfl, fun p => ?_⟩
    split
    · rename_i hp
      rw [hp, hnode]
    · rfl
  | some n =>
    cases n with
    | dir => exact absurd hnode hdir
    | file b dirty =>
      have hremove : (Call.remove (finalPathFor id)).exec .ok s =
          ((true, none), { s with disk := s.disk.removeEntry (finalPathFor id) }) := by
        simp [Call.exec, Store.withDisk, Disk.remove, hnode]
      have hsize : (Call.fileSize (finalPathFor id)).exec .ok s = (.ok b.length, s) := by
        simp [Call.exec, Disk.fileSize, hnode]
      rw [deleteLocked, sys, Prog.perform_bind, Prog.run_call, hsize]
      dsimp only
      rw [sys, Prog.perform_bind, Prog.run_call, hremove]
      exact ⟨rfl, fun p => Disk.node_removeEntry s.disk (finalPathFor id) p⟩

/-- Where nothing is at the final path, a `Put` of the right bytes works. -/
theorem execute_put_absent (hshape : Shaped s.disk) (hnone : s.disk.node (finalPathFor id) = none)
    (hsha : sha256 data = id.digest) (u : UuidV4) :
    (execute (put sha256 id data u) s).1 = .ok () := by
  have hok : (fun c s => Call.exec c .ok s) = restOk .ok := by
    funext c s
    simp [restOk]
  let d := s.disk.mkdirs (shardDirFor id).inits
  have htouch : Touches (fun _ => False) s.disk d :=
    touches_mkdirs fun q hq => ((List.mem_inits q _).mp hq).length_le.trans (by rfl)
  have hdeep : ∀ p : Path, 2 < p.length → d.node p = s.disk.node p :=
    fun p hp => htouch.node not_false hp
  have hshard : d.node (shardDirFor id) = some .dir := hshape.mkdirs_shard id
  have htmp : d.node (tmpPathFor id u) ≠ some .dir := by
    rw [hdeep _ (belongs_tmpPathFor id u).length.ge]
    exact hshape.not_dir (belongs_tmpPathFor id u).length.ge
  have hfinal : d.node (finalPathFor id) ≠ some .dir := by
    rw [hdeep _ (belongs_finalPathFor id).length.ge, hnone]
    simp
  have hopen := internalOpen_tmp_ok hshard htmp
  have hready : RenameReady id u (d.internalOpen (tmpPathFor id u) .writeCreateTruncate .ok).2 :=
    .of_touches hfinal hshard (touches_internalOpen _ _ .ok)
      (contents_ne_none (internalOpen_created hopen).2)
  have hexists : (existsChunk id).run (fun c s => c.exec .ok s) s = (false, s) := by
    simp [existsChunk, Prog.run_guarded, sys, Prog.perform_bind, Prog.run_call, Call.exec,
      Disk.existsPath, hnone, Prog.run_ret]
  have hmkdir : (Call.createDirectories (shardDirFor id)).exec .ok s =
      (none, { s with disk := d }) := by
    simp [Call.exec, Store.withDisk, Disk.createDirectories, hshape.no_file id, d]
  have hcall : ((Call.internalOpen (tmpPathFor id u) .writeCreateTruncate).exec .ok
      { s with disk := d }).1 = some (tmpPathFor id u) := hopen
  rw [execute, put, if_neg (by simpa using hsha), Prog.run_guarded, putLocked, Prog.run_bind, hexists]
  simp only [Bool.false_eq_true, if_false]
  rw [putNew, sys, Prog.perform_bind, Prog.run_call, hmkdir]
  dsimp only
  rw [sys, Prog.perform_bind, Prog.run_call, hcall, hok]
  exact run_putWrite_ok hready

variable {T : Type} [DecidableEq T] {pol : Policy} {service : Service} {allowed : Reply → Prop}
variable {served : Request → Prop} {reentrant : Bool} {s₀ : Store} {c : NodeConfig T}
variable {deletion : DeleteChunkRequest} {upload : List PutChunkRequest}

/-- **A delete and an upload repair a chunk.** Take any state that a server can reach
under faults, and let something else write whatever it likes into the files. From there,
without faults, a `DeleteChunk` of an id and then a `PutChunk` of bytes with its hash,
both accepted, end with OK; a `GetChunk` of the id then sends these bytes, and no other
chunk has changed. Where a file of the chunk is there, the `PutChunk` alone ends with OK
too, and has changed nothing. -/
theorem delete_upload_repairs (hinv : DiskInv sha256 s₀.disk)
    (hreach : Reachable (nodeSystem sha256 pol service allowed served reentrant) s₀ c)
    (haltered : Altered c.state.disk s.disk) (hdelete : deleteChunkPlan service deletion = .ok id)
    (hput : putChunkPlan service upload = .ok (id, data)) (hsha : sha256 data = id.digest) :
    (∀ c₁ r₁ w₁ s₁, FaultFreeRun sha256 service c₁ (.deleteChunk deletion) s r₁ w₁ s₁ →
      Rpc.Succeeds (.deleteChunk deletion) r₁ ∧
      ∀ c₂ r₂ w₂ s₂, FaultFreeRun sha256 service c₂ (.putChunk upload) s₁ r₂ w₂ s₂ →
        Rpc.Succeeds (.putChunk upload) r₂ ∧ (∀ id', id' ≠ id → view s₂ id' = view s id') ∧
        ∀ c₃ request r₃ w₃ s₃, request.protocolVersion = kCurrentProtocolVersion →
          ChunkId.parse request.chunkId = .ok id →
          FaultFreeRun sha256 service c₃ (.getChunk request) s₂ r₃ w₃ s₃ →
          r₃ = Status.OK ∧ ((∀ x ∈ w₃, x.2 = true) → IsDownload data (w₃.map Prod.fst))) ∧
    (s.disk.node (finalPathFor id) ≠ none →
      ∀ c₁ r₁ w₁ t, FaultFreeRun sha256 service c₁ (.putChunk upload) s r₁ w₁ t →
        Rpc.Succeeds (.putChunk upload) r₁ ∧ t = s) := by
  have hshape : Shaped s.disk := (node_reachable_inv hinv hreach).shaped.altered haltered
  have hdir := hshape.not_dir (belongs_finalPathFor id).length.ge
  obtain ⟨hdeleted, hgone⟩ := execute_delete hdir
  refine ⟨fun c₁ r₁ w₁ s₁ h₁ => ?_, fun hsome c₁ r₁ w₁ t h₁ => ?_⟩
  · have hfollow₁ := (rpcRun_deleteChunk.mp h₁).1
    rw [hdelete] at hfollow₁
    obtain ⟨res₁, ⟨u₁, hrun₁⟩, rfl⟩ := hfollow₁
    have hexec₁ := runs_noFault_iff.mp hrun₁
    have hs₁ : s₁ = (execute (delete id) s).2 := (congrArg Prod.snd hexec₁).symm
    obtain rfl : res₁ = .ok () := (congrArg Prod.fst hexec₁).symm.trans hdeleted
    have hnone : s₁.disk.node (finalPathFor id) = none := by rw [hs₁, hgone, if_pos rfl]
    have hshape₁ : Shaped s₁.disk := by
      intro p n hn
      rw [hs₁, hgone] at hn
      split at hn
      · cases hn
      · exact hshape p n hn
    refine ⟨⟨rfl, rfl⟩, fun c₂ r₂ w₂ s₂ h₂ => ?_⟩
    -- nothing is in the way of the upload any more
    have hfollow₂ := (rpcRun_putChunk.mp h₂).1
    rw [hput] at hfollow₂
    obtain ⟨res₂, ⟨u₂, hrun₂⟩, rfl⟩ := hfollow₂
    have hstored := execute_put_absent hshape₁ hnone hsha u₂
    obtain rfl : res₂ = .ok () := (congrArg Prod.fst (runs_noFault_iff.mp hrun₂)).symm.trans hstored
    refine ⟨⟨rfl, rfl⟩, fun id' hid => ?_, fun c₃ request r₃ w₃ s₃ hversion hid h₃ => ?_⟩
    · rw [view_of_update (put_uses sha256 id data u₂) hrun₂ hid,
        view_of_update (delete_uses id) hrun₁ hid]
    · have hget := rpcRun_getChunk h₃
      rw [readPlan_eq_ok.mpr ⟨hversion, hid⟩] at hget
      obtain ⟨hr₃, getRes, _, ⟨_, hrun₃⟩, hsend⟩ := hget
      obtain ⟨_, dirty, hn⟩ := runs_put_file hrun₂ (.inl hnone)
      obtain rfl : getRes = .ok data := (congrArg Prod.fst (runs_noFault_iff.mp hrun₃)).symm.trans
        (execute_get_file hsha hn).1
      exact ⟨hr₃, fun hall => (runs_sendResult hsend).2.isDownload hall⟩
  · have hfollow := (rpcRun_putChunk.mp h₁).1
    rw [hput] at hfollow
    obtain ⟨res, ⟨u, hrun⟩, rfl⟩ := hfollow
    obtain ⟨rfl, rfl⟩ := runs_put_found hsha hsome rfl hrun
    exact ⟨⟨rfl, rfl⟩, rfl⟩

end Repair

/-- `abc` was uploaded, and its file then cut short; `abc` is deleted, and uploaded again. -/
theorem delete_upload_repairs_abc :
    ∃ (c : NodeConfig Bool) (s : Store), Reachable smallServer (booted .empty) c ∧
      s.disk.node (finalPathFor .ofAbc) = some (.file [0x61, 0x62] false) ∧
      ∃ r₁ w₁ s₁ r₂ w₂ s₂, FaultFreeRun knownSha256 { maxChunkBytes := 3 } ⟨[]⟩
          (.deleteChunk ⟨kCurrentProtocolVersion, ChunkId.ofAbc.hex, []⟩) s r₁ w₁ s₁ ∧
        FaultFreeRun knownSha256 { maxChunkBytes := 3 } ⟨[]⟩ (.putChunk abcUpload) s₁ r₂ w₂ s₂ ∧
        Rpc.Succeeds (.putChunk abcUpload) r₂ := by
  obtain ⟨c, hc, hstate, _⟩ := smallServer_uploadAbc
  have hfile : c.state.disk.node (finalPathFor .ofAbc) = some (.file abcBytes false) := by
    rw [hstate]
    decide +kernel
  let s : Store := ⟨c.state.disk.setNode (finalPathFor .ofAbc) (.file [0x61, 0x62] false), fun _ => 0⟩
  have hcut : s.disk.node (finalPathFor .ofAbc) = some (.file [0x61, 0x62] false) := by simp [s]
  have haltered : Altered c.state.disk s.disk := by
    intro p
    by_cases hp : p = finalPathFor .ofAbc
    · subst hp
      exact .inr ⟨_, _, _, _, hfile, hcut⟩
    · exact .inl (by simp [s, Disk.node_setNode, hp])
  have hdelete : deleteChunkPlan { maxChunkBytes := 3 }
      ⟨kCurrentProtocolVersion, ChunkId.ofAbc.hex, []⟩ = .ok .ofAbc := rfl
  have hput : putChunkPlan { maxChunkBytes := 3 } abcUpload = .ok (.ofAbc, abcBytes) := rfl
  obtain ⟨hrepair, _⟩ := delete_upload_repairs booted_empty_inv hc haltered hdelete hput rfl
  obtain ⟨r₁, w₁, s₁, h₁, _⟩ := exists_faultFreeRun knownSha256 { maxChunkBytes := 3 } ⟨[]⟩
    (.deleteChunk ⟨kCurrentProtocolVersion, ChunkId.ofAbc.hex, []⟩) s
  obtain ⟨r₂, w₂, s₂, h₂, _⟩ := exists_faultFreeRun knownSha256 { maxChunkBytes := 3 } ⟨[]⟩
    (.putChunk abcUpload) s₁
  exact ⟨c, s, hc, hcut, r₁, w₁, s₁, r₂, w₂, s₂, h₁, h₂, ((hrepair _ _ _ _ h₁).2 _ _ _ _ h₂).1⟩

end NimbusFs.StorageNode
