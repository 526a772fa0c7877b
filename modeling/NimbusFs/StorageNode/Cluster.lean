import NimbusFs.StorageNode.Reads

/-! # A cluster of nodes

Any number of nodes, each with its own service and store, serve requests and copy
chunks from each other. A `ReplicateChunk` asks its source at one moment and stores
the answer at a later one; in between the answer is on its way, and both nodes go on
serving. No node ever stores bytes that were not uploaded to some node. A chunk that
every node has deleted can come back without an upload, but only out of an answer
that was on its way. -/
namespace NimbusFs.StorageNode

open NimbusFs.Common Lib

/-! ## The nodes and what is between them -/

/-- A `ReplicateChunk` under way at its destination, with the answer of its source. -/
structure InFlight (N : Type) where
  destination : N
  context : ServerContext
  request : ReplicateChunkRequest
  reply : Reply

/-- The stores of the nodes, and the answers on their way. -/
structure Cluster (N : Type) where
  node : N → Store
  flight : List (InFlight N)

/-- What the nodes are: their disks and services, and which of them is at an address. -/
structure ClusterSetup (N : Type) where
  pol : Policy
  service : N → Service
  resolve : List Char → Option N

section Steps

variable {N : Type} [DecidableEq N]

/-- One node has another store. -/
def Cluster.setNode (c : Cluster N) (n : N) (s : Store) : Cluster N :=
  { c with node := Function.update c.node n s }

@[simp] theorem Cluster.setNode_self (c : Cluster N) (n : N) (s : Store) :
    (c.setNode n s).node n = s :=
  Function.update_self ..

theorem Cluster.setNode_ne (c : Cluster N) {n m : N} (s : Store) (h : m ≠ n) :
    (c.setNode n s).node m = c.node m :=
  Function.update_of_ne h ..

/-- A request that asks no other node: anything but a `ReplicateChunk` that is accepted. -/
def Rpc.AsksNone (service : Service) (rpc : Rpc) : Prop :=
  ∀ request id, rpc = .replicateChunk request →
    readPlan service request.protocolVersion request.chunkId ≠ .ok id

/-- One step of the cluster, with the request that was answered by it, if any. -/
inductive ClusterStep (sha256 : Bytes → Digest) (setup : ClusterSetup N) :
    Cluster N → Option (N × Rpc) → Cluster N → Prop
  /-- A node serves a request on its own. -/
  | serve {c n context rpc r w t} : rpc.AsksNone (setup.service n) →
      RpcRun (localStore sha256 setup.pol) anyReply (setup.service n) context rpc (c.node n) r w t →
      ClusterStep sha256 setup c (some (n, rpc)) (c.setNode n t)
  /-- A node asks the source of a `ReplicateChunk`, which answers over some link. -/
  | ask {c n m context request id cid link st w t reply} :
      readPlan (setup.service n) request.protocolVersion request.chunkId = .ok id →
      setup.resolve request.sourceNodeAddress = some m →
      RpcRun (localStore sha256 setup.pol) anyReply (setup.service m)
        ⟨[(kCorrelationIdMetadataKey, cid)]⟩ (.getChunk ⟨kCurrentProtocolVersion, id.hex⟩)
        (c.node m) st w t →
      Ending.Delivers link st w reply →
      ClusterStep sha256 setup c none
        { c.setNode m t with flight := ⟨n, context, request, reply⟩ :: c.flight }
  /-- No answer comes from the address. -/
  | unreachable {c n context request id status} :
      readPlan (setup.service n) request.protocolVersion request.chunkId = .ok id →
      status.code ≠ .OK →
      ClusterStep sha256 setup c none
        { c with flight := ⟨n, context, request, ⟨[], status⟩⟩ :: c.flight }
  /-- An answer has arrived, and the `ReplicateChunk` ends. -/
  | arrive {c f before after r w t} : c.flight = before ++ f :: after →
      RpcRun (localStore sha256 setup.pol) (repliesIn (· = f.reply)) (setup.service f.destination)
        f.context (.replicateChunk f.request) (c.node f.destination) r w t →
      ClusterStep sha256 setup c (some (f.destination, .replicateChunk f.request))
        { c.setNode f.destination t with flight := before ++ after }

/-- A run of the cluster, with the requests that were answered in it. -/
inductive ClusterRun (sha256 : Bytes → Digest) (setup : ClusterSetup N) (c : Cluster N) :
    List (N × Rpc) → Cluster N → Prop
  | refl : ClusterRun sha256 setup c [] c
  | tail {log c' e c''} : ClusterRun sha256 setup c log c' → ClusterStep sha256 setup c' e c'' →
      ClusterRun sha256 setup c (log ++ e.toList) c''

/-- All data roots are empty, and nothing is on its way. -/
def Cluster.IsEmpty (c : Cluster N) : Prop := (∀ n, (c.node n).disk.IsEmpty) ∧ c.flight = []

/-- What a `ReplicateChunk` will put, with the answer that is on its way. -/
def InFlight.Carries (setup : ClusterSetup N) (f : InFlight N) (id : ChunkId) (b : Bytes) : Prop :=
  readPlan (setup.service f.destination) f.request.protocolVersion f.request.chunkId = .ok id ∧
    replicatePlan (setup.service f.destination) id f.reply = .ok (id, b)

/-- A node was sent these bytes under this id. -/
def Uploaded (setup : ClusterSetup N) (log : List (N × Rpc)) (id : ChunkId) (b : Bytes) : Prop :=
  ∃ n reader, (n, .putChunk reader) ∈ log ∧ putChunkPlan (setup.service n) reader = .ok (id, b)

end Steps

/-! ## Answers are honest -/

section Honest

variable {service : Service} {id id' : ChunkId} {link : Ending} {reply : Reply} {w : Written}
variable {b : Bytes}

/-- What is stored of an answer is what the source read, and all of it. -/
theorem replicatePlan_honest {getRes : Result Bytes} (hsent : Sends w getRes)
    (hlink : link.Delivers Status.OK w reply)
    (hplan : replicatePlan service id reply = .ok (id', b)) : id' = id ∧ getRes = .ok b := by
  obtain ⟨hid, first, rest, hmessages, hfirst, _, hframes, hstatus⟩ := replicatePlan_eq_ok.mp hplan
  cases link with
  | normal =>
    obtain ⟨hall, rfl⟩ := hlink
    cases getRes with
    | ok data =>
      obtain ⟨ok, w', rfl, hatt⟩ := hsent
      have hsame := hatt.written_eq fun x hx => hall x (List.mem_cons_of_mem _ hx)
      rw [List.map_cons, hsame] at hmessages
      cases hmessages
      obtain ⟨_, rfl⟩ := (collectFrames_eq_some (Nat.zero_le _)).mp hframes
      exact ⟨hid, by rw [List.nil_append, dataOf_frameMessages]⟩
    | error e =>
      -- the one message says that the source could not read the chunk
      obtain ⟨ok, rfl⟩ := hsent
      cases hmessages
      rw [refuseFirst, metadataMessage_metadata] at hfirst
      dsimp only at hfirst
      rw [if_pos (mapStoreError_ne_OK e.kind)] at hfirst
      cases hfirst
  | broken delivered status hne =>
    obtain rfl := hlink
    exact absurd hstatus hne

end Honest

/-! ## What every step keeps -/

section Invariant

variable {N : Type} [DecidableEq N] {sha256 : Bytes → Digest} {setup : ClusterSetup N}
variable {P : ChunkId → Bytes → Prop} {c c' : Cluster N}

/-- The disks are in order, and all chunks that are stored or on their way are in `P`. -/
structure ClusterInv (sha256 : Bytes → Digest) (setup : ClusterSetup N)
    (P : ChunkId → Bytes → Prop) (c : Cluster N) : Prop where
  disk : ∀ n, DiskInv sha256 (c.node n).disk
  stored : ∀ n id b, view (c.node n) id = some b → P id b
  carried : ∀ f ∈ c.flight, ∀ id b, f.Carries setup id b → P id b

/-- A request on one node stores what is planned, under its hash, and nothing else. -/
theorem RpcRun.stores {pol : Policy} {service : Service} {allowed : Reply → Prop}
    {context : ServerContext} {rpc : Rpc} {s t : Store} {r : rpc.Ret} {w : Written}
    (hinv : DiskInv sha256 s.disk) (hs : ∀ id b, view s id = some b → P id b)
    (hput : ∀ id b, Planned service allowed rpc (.put id b) → sha256 b = id.digest → P id b)
    (h : RpcRun (localStore sha256 pol) (repliesIn allowed) service context rpc s r w t) :
    DiskInv sha256 t.disk ∧ ∀ id b, view t id = some b → P id b := by
  rcases h.calls with rfl | ⟨o, res, hplan, hop⟩
  · exact ⟨hinv, hs⟩
  · obtain ⟨hinv', hspec⟩ := localStore_spec hinv hop
    refine ⟨hinv', fun id b hb => ?_⟩
    rcases mapSpec_entry hspec hb with hold | rfl
    · exact hs id b hold
    · exact hput id b hplan (hinv'.hash hb)

theorem ClusterInv.setNode (hc : ClusterInv sha256 setup P c) {n : N} {t : Store}
    {flight : List (InFlight N)} (hinv : DiskInv sha256 t.disk)
    (ht : ∀ id b, view t id = some b → P id b)
    (hflight : ∀ f ∈ flight, ∀ id b, f.Carries setup id b → P id b) :
    ClusterInv sha256 setup P { c.setNode n t with flight := flight } := by
  refine ⟨fun m => ?_, fun m id b hb => ?_, hflight⟩
  · by_cases hm : m = n
    · subst hm
      simpa [Cluster.setNode] using hinv
    · simpa [Cluster.setNode, hm] using hc.disk m
  · by_cases hm : m = n
    · subst hm
      exact ht id b (by simpa [Cluster.setNode] using hb)
    · exact hc.stored m id b (by simpa [Cluster.setNode, hm] using hb)

/-- The bytes that a source sends are bytes that it has. -/
theorem carries_of_source {pol : Policy} {service : Service} {context : ServerContext} {s t : Store}
    {id id' : ChunkId} {b : Bytes} {st : Status} {w : Written} {link : Ending} {reply : Reply}
    {destination : Service} {allowed : Reply → Prop} (hinv : DiskInv sha256 s.disk)
    (h : RpcRun (localStore sha256 pol) (repliesIn allowed) service context
      (.getChunk ⟨kCurrentProtocolVersion, id.hex⟩) s st w t)
    (hlink : link.Delivers st w reply)
    (hplan : replicatePlan destination id reply = .ok (id', b)) :
    view s id = some b := by
  have hrun := rpcRun_getChunk h
  rw [readPlan_eq_ok.mpr ⟨rfl, ChunkId.parse_hex id⟩] at hrun
  obtain ⟨rfl, getRes, u, hget, hsend⟩ := hrun
  obtain ⟨_, rfl⟩ := replicatePlan_honest (runs_sendResult hsend).2 hlink hplan
  rcases (localStore_spec hinv hget).2.1.2 with hres | ⟨_, hres⟩ | ⟨_, e, hres⟩
  · cases hv : view s id with
    | none =>
      rw [hv] at hres
      cases hres
    | some b' =>
      rw [hv] at hres
      cases hres
      rfl
  · cases hres
  · cases hres

/-- What is uploaded is in `P`, so everything is. -/
theorem ClusterInv.step {e : Option (N × Rpc)} (hc : ClusterInv sha256 setup P c)
    (hupload : ∀ n reader id b, e = some (n, .putChunk reader) →
      putChunkPlan (setup.service n) reader = .ok (id, b) → sha256 b = id.digest → P id b)
    (h : ClusterStep sha256 setup c e c') : ClusterInv sha256 setup P c' := by
  cases h with
  | @serve n context rpc r w t hlocal hrun =>
    obtain ⟨hinv, ht⟩ := hrun.stores (hc.disk n) (hc.stored n) fun id b hplan hsha => by
      cases hplan with
      | putChunk hplan => exact hupload n _ id b rfl hplan hsha
      | replicateChunk hread _ _ => exact absurd hread (hlocal _ _ rfl)
    exact hc.setNode hinv ht hc.carried
  | @ask n m context request id cid link st w t reply hread hresolve hrun hlink =>
    obtain ⟨hinv, ht⟩ := hrun.stores (hc.disk m) (hc.stored m) fun id b hplan _ => by cases hplan
    refine hc.setNode hinv ht fun f hf id' b hcarries => ?_
    rcases List.mem_cons.mp hf with rfl | hf
    · obtain ⟨hread', hplan⟩ := hcarries
      obtain rfl : id = id' := by
        rw [hread] at hread'
        cases hread'
        rfl
      exact hc.stored m id b (carries_of_source (hc.disk m) hrun hlink hplan)
    · exact hc.carried f hf id' b hcarries
  | @unreachable n context request id status hread hne =>
    refine ⟨hc.disk, hc.stored, fun f hf id' b hcarries => ?_⟩
    rcases List.mem_cons.mp hf with rfl | hf
    · cases hcarries.2
    · exact hc.carried f hf id' b hcarries
  | @arrive f before after r w t hflight hrun =>
    have hf : f ∈ c.flight := by
      rw [hflight]
      simp
    obtain ⟨hinv, ht⟩ := hrun.stores (hc.disk _) (hc.stored _) fun id b hplan _ => by
      cases hplan with
      | replicateChunk hread hreply hplan =>
        obtain rfl : _ = f.reply := hreply
        obtain rfl := replicatePlan_ok hplan
        exact hc.carried f hf _ b ⟨hread, hplan⟩
    refine hc.setNode hinv ht fun f' hf' => hc.carried f' ?_
    rw [hflight]
    simp only [List.mem_append, List.mem_cons] at hf' ⊢
    tauto

theorem ClusterInv.run {log : List (N × Rpc)} (hc : ClusterInv sha256 setup P c)
    (hupload : ∀ id b, Uploaded setup log id b → sha256 b = id.digest → P id b)
    (h : ClusterRun sha256 setup c log c') : ClusterInv sha256 setup P c' := by
  induction h with
  | refl => exact hc
  | @tail log c' e c'' _ hstep ih =>
    refine (ih fun id b hup => hupload id b ?_).step (fun n reader id b he hplan => ?_) hstep
    · obtain ⟨n, reader, hmem, hplan⟩ := hup
      exact ⟨n, reader, List.mem_append_left _ hmem, hplan⟩
    · exact hupload id b ⟨n, reader, List.mem_append_right _ (by simp [he]), hplan⟩

omit [DecidableEq N] in
theorem Cluster.IsEmpty.inv (h : c.IsEmpty) (P : ChunkId → Bytes → Prop) :
    ClusterInv sha256 setup P c := by
  refine ⟨fun n => (h.1 n).inv, fun n id b hb => ?_, fun f hf => ?_⟩
  · rw [(h.1 n).view] at hb
    cases hb
  · rw [h.2] at hf
    cases hf

end Invariant

/-! ## What a cluster never does -/

section Safety

variable {N : Type} [DecidableEq N] {sha256 : Bytes → Digest} {setup : ClusterSetup N}
variable {c₀ c c' : Cluster N} {log log' : List (N × Rpc)} {id : ChunkId}

/-- **Nothing is stored that was not uploaded, and no two nodes disagree.** In every run
of a cluster that starts empty, with any faults of the disks and any broken link: a
chunk on any node was uploaded to some node under its id, and has the hash of it. Where
SHA-256 tells the uploads apart, two nodes that have a chunk have the same bytes. -/
theorem cluster_stores_uploads (h₀ : c₀.IsEmpty) (h : ClusterRun sha256 setup c₀ log c) :
    (∀ n id b, view (c.node n) id = some b →
      sha256 b = id.digest ∧ Uploaded setup log id b) ∧
    ∀ known, CollisionFree sha256 known → (∀ id b, Uploaded setup log id b → known b) →
      ∀ n m id b b', view (c.node n) id = some b → view (c.node m) id = some b' → b = b' := by
  have hinv := (h₀.inv fun id b => sha256 b = id.digest ∧ Uploaded setup log id b).run
    (fun id b hup hsha => ⟨hsha, hup⟩) h
  refine ⟨hinv.stored, fun known hfree hknown n m id b b' hb hb' => ?_⟩
  obtain ⟨hsha, hup⟩ := hinv.stored n id b hb
  obtain ⟨hsha', hup'⟩ := hinv.stored m id b' hb'
  exact hfree b b' (hknown id b hup) (hknown id b' hup') (hsha.trans hsha'.symm)

omit [DecidableEq N] in
/-- The end of a `ReplicateChunk` whose answer carries a chunk, without faults. -/
theorem InFlight.Carries.arrives {f : InFlight N} {b : Bytes} {s : Store}
    (hf : f.Carries setup id b) (hinv : DiskInv sha256 s.disk) (hsha : sha256 b = id.digest) :
    ∃ r w t, RpcRun (localStore sha256 setup.pol) (repliesIn (· = f.reply))
        (setup.service f.destination) f.context (.replicateChunk f.request) s r w t ∧
      view t id ≠ none := by
  have hpeer : ∀ address cid request s, ∃ reply t, repliesIn (· = f.reply) address cid request
      (s : Store) reply t := fun _ _ _ s => ⟨f.reply, s, rfl, rfl⟩
  obtain ⟨r, w, t, hrun, _⟩ := exists_rpcRun (localStore_total sha256 .noFault) hpeer
    (setup.service f.destination) f.context (.replicateChunk f.request) s
  refine ⟨r, w, t, ?_, ?_⟩
  · refine Prog.Runs.mono (fun call n r n' hcall => ?_) hrun
    cases call with
    | store o =>
      obtain ⟨⟨uuid, hop⟩, hw⟩ := hcall
      exact ⟨⟨uuid, hop.mono (noFault_sem_le setup.pol)⟩, hw⟩
    | _ => exact hcall
  · have hrun := rpcRun_replicateChunk hrun
    rw [hf.1] at hrun
    obtain ⟨cid, reply, _, ⟨rfl, rfl⟩, hfollow⟩ := hrun
    rw [hf.2] at hfollow
    obtain ⟨putRes, hput, _⟩ := hfollow
    obtain ⟨_, ⟨hbad, _⟩ | ⟨_, _, hstored⟩⟩ := localStore_put_noFault hinv hput
    · exact absurd hsha hbad
    · exact hstored ▸ Option.some_ne_none _

/-- **When a deleted chunk comes back.** No node has a chunk any more. It can be on some
node again without having been uploaded again exactly when an answer that carries it
is on its way. -/
theorem comes_back_iff (h₀ : c₀.IsEmpty) (h : ClusterRun sha256 setup c₀ log c)
    (hgone : ∀ n, view (c.node n) id = none) :
    (∃ log' c', ClusterRun sha256 setup c log' c' ∧ (∀ b, ¬ Uploaded setup log' id b) ∧
      ∃ n, view (c'.node n) id ≠ none) ↔
    ∃ f ∈ c.flight, ∃ b, f.Carries setup id b := by
  have hinv := (h₀.inv fun id b => sha256 b = id.digest).run (fun _ _ _ hsha => hsha) h
  constructor
  · rintro ⟨log', c', hrun, hno, n, hback⟩
    by_contra hnone
    push Not at hnone
    -- nothing but other chunks is stored or on its way, and so it stays
    have hc : ClusterInv sha256 setup (fun id' _ => id' ≠ id) c := by
      refine ⟨hinv.disk, fun m id' b hb => ?_, fun f hf id' b hcarries => ?_⟩
      · rintro rfl
        rw [hgone m] at hb
        cases hb
      · rintro rfl
        exact hnone f hf b hcarries
    have hc' := hc.run (fun id' b hup _ heq => hno b (heq ▸ hup)) hrun
    obtain ⟨b, hb⟩ := Option.ne_none_iff_exists'.mp hback
    exact hc'.stored n id b hb rfl
  · rintro ⟨f, hf, b, hcarries⟩
    obtain ⟨before, after, hflight⟩ := List.append_of_mem hf
    obtain ⟨r, w, t, hrun, ht⟩ := hcarries.arrives (hinv.disk f.destination)
      (hinv.carried f hf id b hcarries)
    refine ⟨_, _, ClusterRun.refl.tail (.arrive hflight hrun), fun b' hup => ?_, f.destination, ?_⟩
    · obtain ⟨n, reader, hmem, _⟩ := hup
      simp at hmem
    · simpa [Cluster.setNode] using ht

/-- A request on one node takes a chunk away only if it is a delete that names it. -/
theorem RpcRun.keeps_chunk {pol : Policy} {service : Service} {allowed : Reply → Prop}
    {context : ServerContext} {rpc : Rpc} {s t : Store} {r : rpc.Ret} {w : Written}
    (hinv : DiskInv sha256 s.disk) (hs : view s id ≠ none)
    (hno : ¬ (rpc.IsDelete ∧ rpc.requestedId = some id))
    (h : RpcRun (localStore sha256 pol) (repliesIn allowed) service context rpc s r w t) :
    view t id ≠ none := by
  rcases h.calls with rfl | ⟨o, res, hplan, hop⟩
  · exact hs
  · intro hgone
    obtain rfl := mapSpec_gone (localStore_spec hinv hop).2 hs hgone
    exact hno ⟨hplan.delete_requestedId.2, hplan.delete_requestedId.1⟩

theorem ClusterStep.keeps_chunk {e : Option (N × Rpc)} {n : N}
    (hinv : ∀ m, DiskInv sha256 (c.node m).disk) (hn : view (c.node n) id ≠ none)
    (hno : ∀ rpc, e = some (n, rpc) → ¬ (rpc.IsDelete ∧ rpc.requestedId = some id))
    (h : ClusterStep sha256 setup c e c') : view (c'.node n) id ≠ none := by
  have hset : ∀ {m : N} {t : Store}, (m = n → view t id ≠ none) →
      view ((c.setNode m t).node n) id ≠ none := by
    intro m t ht
    by_cases hm : n = m
    · subst hm
      simpa [Cluster.setNode] using ht rfl
    · simpa [Cluster.setNode, hm] using hn
  cases h with
  | serve _ hrun =>
    refine hset fun hm => ?_
    subst hm
    exact hrun.keeps_chunk (hinv _) hn (hno _ rfl)
  | ask _ _ hrun _ =>
    refine hset fun hm => ?_
    subst hm
    refine RpcRun.keeps_chunk (hinv _) hn ?_ hrun
    exact fun h => h.1
  | unreachable _ _ => exact hn
  | arrive _ hrun =>
    refine hset fun hm => ?_
    subst hm
    refine RpcRun.keeps_chunk (hinv _) hn ?_ hrun
    exact fun h => h.1

/-- **A chunk stays on its node until that node is told to delete it**, whatever the
other nodes are told and whatever is copied to and fro. -/
theorem chunk_stays {n : N} (h₀ : c₀.IsEmpty) (h : ClusterRun sha256 setup c₀ log c)
    (hn : view (c.node n) id ≠ none) (hrun : ClusterRun sha256 setup c log' c')
    (hno : ∀ request, (n, .deleteChunk request) ∈ log' →
      ChunkId.parse request.chunkId ≠ .ok id) :
    ∃ b, view (c'.node n) id = some b ∧ sha256 b = id.digest := by
  have hinv := (h₀.inv fun id b => sha256 b = id.digest).run (fun _ _ _ hsha => hsha) h
  have hinv' := hinv.run (fun _ _ _ hsha => hsha) hrun
  have hstays : view (c'.node n) id ≠ none := by
    clear hinv'
    induction hrun with
    | refl => exact hn
    | @tail log' c' e c'' hrun hstep ih =>
      have hdisk := (hinv.run (fun _ _ _ hsha => hsha) hrun).disk
      have hc' := ih fun request hmem => hno request (List.mem_append_left _ hmem)
      refine hstep.keeps_chunk hdisk hc' fun rpc he hdel => ?_
      obtain ⟨hdelete, hid⟩ := hdel
      cases rpc with
      | deleteChunk request =>
        have hparse := hno request (List.mem_append_right _ (by simp [he]))
        cases hp : ChunkId.parse request.chunkId with
        | error err => simp [Rpc.requestedId, hp, Except.toOption] at hid
        | ok id' =>
          obtain rfl : id' = id := by simpa [Rpc.requestedId, hp, Except.toOption] using hid
          exact hparse hp
      | _ => exact hdelete
  obtain ⟨b, hb⟩ := Option.ne_none_iff_exists'.mp hstays
  exact ⟨b, hb, hinv'.stored n id b hb⟩

end Safety

/-! ## A race -/

/-- Two nodes on good disks; every address is that of the one named `true`. -/
def twoNodes : ClusterSetup Bool where
  pol := .noFault
  service := fun _ => { maxChunkBytes := 3 }
  resolve := fun _ => some true

def emptyPair : Cluster Bool := ⟨fun _ => Store.empty, []⟩

theorem emptyPair_isEmpty : emptyPair.IsEmpty := ⟨fun _ => Disk.isEmpty_empty, rfl⟩

/-- The source has `abc`. -/
def uploadedPair : Cluster Bool := emptyPair.setNode true abcStore

theorem run_uploadedPair :
    ClusterRun knownSha256 twoNodes emptyPair [(true, .putChunk abcUpload)] uploadedPair := by
  have hlocal : Rpc.AsksNone (twoNodes.service true) (.putChunk abcUpload) := fun _ _ h => by cases h
  have hmax : 3 ≤ (twoNodes.service true).maxChunkBytes := Nat.le_refl 3
  exact ClusterRun.refl.tail (.serve hlocal (rpcRun_abcUpload .noFault ⟨[]⟩ hmax rfl))

/-- `abc` was uploaded to one of two nodes, and is there to be downloaded. -/
theorem cluster_stores_uploads_abc :
    view (uploadedPair.node true) .ofAbc = some abcBytes ∧
      Uploaded twoNodes [(true, .putChunk abcUpload)] .ofAbc abcBytes := by
  obtain ⟨hstored, _⟩ := cluster_stores_uploads emptyPair_isEmpty run_uploadedPair
  exact ⟨view_abcStore, (hstored true .ofAbc abcBytes view_abcStore).2⟩

/-- The node is told to delete another chunk. -/
theorem chunk_stays_abc :
    ∃ c : Cluster Bool, ClusterRun knownSha256 twoNodes uploadedPair
        [(true, .deleteChunk ⟨kCurrentProtocolVersion, ChunkId.ofEmpty.hex, []⟩)] c ∧
      ∃ b, view (c.node true) .ofAbc = some b ∧ knownSha256 b = ChunkId.ofAbc.digest := by
  let request : DeleteChunkRequest := ⟨kCurrentProtocolVersion, ChunkId.ofEmpty.hex, []⟩
  obtain ⟨r, w, t, hrun, _⟩ := exists_faultFreeRun knownSha256 (twoNodes.service true) ⟨[]⟩
    (.deleteChunk request) (uploadedPair.node true)
  have hlocal : Rpc.AsksNone (twoNodes.service true) (.deleteChunk request) :=
    fun _ _ h => by cases h
  have hstep : ClusterRun knownSha256 twoNodes uploadedPair [(true, .deleteChunk request)] _ :=
    ClusterRun.refl.tail (.serve hlocal hrun)
  refine ⟨_, hstep, chunk_stays emptyPair_isEmpty run_uploadedPair ?_ hstep ?_⟩
  · exact view_abcStore ▸ Option.some_ne_none _
  · intro request' hmem
    obtain rfl : request' = request := by simpa using hmem
    rw [ChunkId.parse_hex]
    decide

/-- The source answers, and is then told to delete the chunk; the answer arrives after
that, and the destination has a chunk that no node had any more. -/
theorem comes_back_iff_abc :
    ∃ log c, ClusterRun knownSha256 twoNodes emptyPair log c ∧
      (∀ n, view (c.node n) .ofAbc = none) ∧
      ∃ log' c', ClusterRun knownSha256 twoNodes c log' c' ∧
        (∀ b, ¬ Uploaded twoNodes log' .ofAbc b) ∧ ∃ n, view (c'.node n) .ofAbc ≠ none := by
  let get : GetChunkRequest := ⟨kCurrentProtocolVersion, ChunkId.ofAbc.hex⟩
  let delete : DeleteChunkRequest := ⟨kCurrentProtocolVersion, ChunkId.ofAbc.hex, []⟩
  let replicate : ReplicateChunkRequest := ⟨kCurrentProtocolVersion, ChunkId.ofAbc.hex, []⟩
  have hinv : DiskInv knownSha256 abcStore.disk :=
    ((emptyPair_isEmpty.inv fun _ _ => True).run (fun _ _ _ _ => trivial) run_uploadedPair).disk true
  obtain ⟨st, w, t, hget, hall⟩ := exists_faultFreeRun knownSha256 (twoNodes.service true)
    ⟨[(kCorrelationIdMetadataKey, [])]⟩ (.getChunk get) abcStore
  obtain ⟨rfl, hsent, hinv', _⟩ :=
    rpcRun_getChunk_noFault hinv rfl (ChunkId.parse_hex .ofAbc) hget
  let f : InFlight Bool := ⟨false, ⟨[]⟩, replicate, ⟨w.map Prod.fst, Status.OK⟩⟩
  have hread : readPlan (twoNodes.service false) replicate.protocolVersion replicate.chunkId =
      .ok .ofAbc := readPlan_eq_ok.mpr ⟨rfl, ChunkId.parse_hex _⟩
  have hlink : Ending.Delivers .normal Status.OK w f.reply := ⟨hall, rfl⟩
  let asked : Cluster Bool := { uploadedPair.setNode true t with flight := [f] }
  have hask : ClusterRun knownSha256 twoNodes emptyPair _ asked :=
    run_uploadedPair.tail (.ask hread rfl hget hlink)
  have hnode : asked.node true = t := Cluster.setNode_self uploadedPair true t
  obtain ⟨r, w', t', hdelete, _⟩ := exists_faultFreeRun knownSha256 (twoNodes.service true) ⟨[]⟩
    (.deleteChunk delete) (asked.node true)
  have hplan : deleteChunkPlan (twoNodes.service true) delete = .ok .ofAbc := by
    simp [deleteChunkPlan, delete, ChunkId.parse_hex, runPreamble, checkProtocolVersion, twoNodes]
    rfl
  have hgone : view t' .ofAbc = none := by
    have hfollow := (rpcRun_deleteChunk.mp hdelete).1
    rw [hplan] at hfollow
    obtain ⟨res, hop, _⟩ := hfollow
    obtain ⟨_, hview⟩ := referenceMap_of_noFault (localStore_spec (hnode ▸ hinv') hop).2
    rw [hview, Function.update_self]
  have hlocal : Rpc.AsksNone (twoNodes.service true) (.deleteChunk delete) := fun _ _ h => by cases h
  have hrun := hask.tail (.serve hlocal hdelete)
  have hnone : ∀ n, view ((asked.setNode true t').node n) .ofAbc = none := by
    intro n
    cases n with
    | true => rw [Cluster.setNode_self, hgone]
    | false =>
      rw [Cluster.setNode_ne _ _ (by decide)]
      exact congrFun Disk.isEmpty_empty.view _
  refine ⟨_, _, hrun, hnone, (comes_back_iff emptyPair_isEmpty hrun hnone).mpr ?_⟩
  refine ⟨f, List.mem_singleton.mpr rfl, abcBytes, hread, ?_⟩
  have hfits : ∀ b, view abcStore .ofAbc = some b → b.length ≤ vectorMaxSize := by
    intro b hb
    rw [view_abcStore] at hb
    cases hb
    decide
  rcases @replicatePlan_source (twoNodes.service false) .ofAbc .normal f.reply w _ hfits hsent hlink
    with
    ⟨b, hb, _, _, hok⟩ | ⟨hno, _⟩
  · rw [view_abcStore] at hb
    cases hb
    exact hok
  · exact absurd ⟨⟨abcBytes, view_abcStore, by decide⟩, rfl⟩ hno

end NimbusFs.StorageNode
