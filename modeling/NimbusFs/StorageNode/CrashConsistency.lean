import NimbusFs.StorageNode.AnyDisk
import NimbusFs.StorageNode.Concurrency

/-! # What a crash can do to the chunks

Any call may fail or be cut short, and the process may crash between any two
steps and start again on what is left of the tree. The invariant of the store
holds throughout: at a final path there are only right bytes. What else may be
left behind are temporary files, and they are invisible: a store without them
gives the same answers. -/
namespace NimbusFs.StorageNode

open NimbusFs.Common Lib

/-- Threads that call any operation, the constructor included, with any fault,
in a process that may crash at any moment. The counters do not survive it. -/
def crashSystem (sha256 : Bytes → Digest) :
    System (Fin 256) Call Call.Ret Store StoreOp StoreOp.Ret :=
  { storeSystem sha256 .anyFault (fun _ => True) true with
    crash := fun s s' => Crash s.disk s'.disk }

/-! ## Leftovers -/

section Leftovers

/-- `s'` is `s` without some of its temporary files. -/
structure WithoutLeftovers (s s' : Store) : Prop where
  sub : List.Sublist s'.disk.tree.entries s.disk.tree.entries
  removed : ∀ p n, s.disk.node p = some n →
    s'.disk.node p = some n ∨ ∃ id u, p = tmpPathFor id u
  counter : s'.counter = s.counter

/-- The chunk files that a walk over the tree finds. -/
def Disk.chunkFiles (d : Disk) : List (Name × Nat) :=
  ((d.tree.entries.map fun e => (e.1, e.2)).filter fun e => e.1 ≠ []).filterMap chunkFile

/-- The same chunks, found in the same order, and the same counters. -/
structure SameChunks (s s' : Store) : Prop where
  root : s'.disk.node [] = s.disk.node []
  final : ∀ id, s'.disk.node (finalPathFor id) = s.disk.node (finalPathFor id)
  files : s'.disk.chunkFiles = s.disk.chunkFiles
  counter : s'.counter = s.counter

theorem SameChunks.symm {s s' : Store} (h : SameChunks s s') : SameChunks s' s :=
  ⟨h.root.symm, fun id => (h.final id).symm, h.files.symm, h.counter.symm⟩

/-- The extension of a temporary name is the random part. -/
theorem extension_tmp (id : ChunkId) (u : UuidV4) :
    extension (id.hex ++ ['.', 't', 'm', 'p', '.'] ++ u.text) ≠ chunkExtension := by
  have hsplit : id.hex ++ ['.', 't', 'm', 'p', '.'] ++ u.text =
      (id.hex ++ ['.', 't', 'm', 'p']) ++ '.' :: u.text := by simp
  rw [hsplit, extension_append (by simp [id.hex_length]) u.no_dot]
  intro h
  have hlen : u.text.length = 36 := by
    have := u.wf
    simp only [isUuidV4, Bool.and_eq_true, beq_iff_eq] at this
    exact this.1
  have := congrArg List.length h
  simp [chunkExtension, hlen] at this

theorem chunkFile_tmp (id : ChunkId) (u : UuidV4) (n : Node) :
    chunkFile (tmpPathFor id u, n) = none := by
  cases n with
  | dir => rfl
  | file b dirty =>
    have hlast : (tmpPathFor id u).getLast? =
        some (id.hex ++ ['.', 't', 'm', 'p', '.'] ++ u.text) := by simp [tmpPathFor]
    simp only [chunkFile, hlast]
    exact if_neg (extension_tmp id u)

/-- What is dropped from a list and not mapped anyway is not missed. -/
theorem filterMap_of_sublist {α β : Type} {f : α → Option β} {l l' : List α} (hnodup : l.Nodup)
    (hsub : List.Sublist l' l) (hf : ∀ a ∈ l, a ∈ l' ∨ f a = none) :
    l'.filterMap f = l.filterMap f := by
  induction hsub with
  | slnil => rfl
  | @cons l₁ l₂ a hsub ih =>
    obtain ⟨hnot, hnodup⟩ := List.nodup_cons.mp hnodup
    have hnone : f a = none :=
      (hf a (by simp)).resolve_left fun hmem => hnot (hsub.subset hmem)
    rw [List.filterMap_cons_none hnone]
    exact ih hnodup fun b hb => hf b (by simp [hb])
  | @cons_cons l₁ l₂ a hsub ih =>
    obtain ⟨hnot, hnodup⟩ := List.nodup_cons.mp hnodup
    have hrest := ih hnodup fun b hb => by
      rcases hf b (by simp [hb]) with hmem | hnone
      · rcases List.mem_cons.mp hmem with rfl | hmem
        · exact absurd hb hnot
        · exact .inl hmem
      · exact .inr hnone
    simp only [List.filterMap_cons, hrest]

theorem Disk.mem_entries {d : Disk} {p : Path} {n : Node} :
    ⟨p, n⟩ ∈ d.tree.entries ↔ d.node p = some n :=
  AList.mem_lookup_iff.symm

theorem WithoutLeftovers.node {s s' : Store} (h : WithoutLeftovers s s') {p : Path}
    (hp : ∀ id u, p ≠ tmpPathFor id u) : s'.disk.node p = s.disk.node p := by
  cases hn : s.disk.node p with
  | some n =>
    rcases h.removed p n hn with hn' | ⟨id, u, hpt⟩
    · exact hn'
    · exact absurd hpt (hp id u)
  | none =>
    cases hn' : s'.disk.node p with
    | none => rfl
    | some n =>
      have := Disk.mem_entries.mp (h.sub.subset (Disk.mem_entries.mpr hn'))
      rw [hn] at this
      cases this

theorem WithoutLeftovers.sameChunks {s s' : Store} (h : WithoutLeftovers s s') :
    SameChunks s s' where
  root := h.node fun id u heq => by
    have := (belongs_tmpPathFor id u).length
    rw [← heq] at this
    cases this
  final id := h.node fun _ _ => finalPathFor_ne_tmpPathFor _ _ _
  files := by
    have hnodup : s.disk.tree.entries.Nodup := s.disk.tree.nodupKeys.nodup
    -- one pass over the entries, so that the lists compared are those of the trees
    have hpass : ∀ d : Disk, d.chunkFiles = d.tree.entries.filterMap fun e =>
        if e.1 ≠ [] then chunkFile (e.1, e.2) else none := by
      intro d
      simp only [Disk.chunkFiles, List.filterMap_filter, List.filterMap_map, Function.comp_def,
        decide_not, Bool.not_eq_true', decide_eq_false_iff_not, ne_eq]
    rw [hpass, hpass]
    refine filterMap_of_sublist hnodup h.sub fun e he => ?_
    obtain ⟨p, n⟩ := e
    rcases h.removed p n (Disk.mem_entries.mp he) with hn | ⟨id, u, rfl⟩
    · exact .inl (Disk.mem_entries.mpr hn)
    · right
      dsimp only
      rw [chunkFile_tmp, ite_self]
  counter := h.counter

/-! ## The operations that read -/

/-- The operations that only look at the chunks, with the scan of the constructor. -/
def StoreOp.IsReader : StoreOp → Prop
  | .get _ | .verifyOnly _ | .existsChunk _ | .listAllChunkIds | .construct => True
  | _ => False

/-- The calls that read the file of a chunk. -/
inductive ReadsChunk (id : ChunkId) : Call → Prop
  | existsPath : ReadsChunk id (.existsPath (finalPathFor id))
  | fileSize : ReadsChunk id (.fileSize (finalPathFor id))
  | internalOpen : ReadsChunk id (.internalOpen (finalPathFor id) .readOnly)
  | read (n : Nat) : ReadsChunk id (.read (finalPathFor id) n)
  | close : ReadsChunk id (.close (finalPathFor id))

/-- Such a call does the same on the same chunks. -/
theorem ReadsChunk.exec {id : ChunkId} {c : Call} (hc : ReadsChunk id c) {s s' : Store}
    (h : s'.disk.node (finalPathFor id) = s.disk.node (finalPathFor id)) (oc : Outcome) :
    (c.exec oc s).2 = s ∧ c.exec oc s' = ((c.exec oc s).1, s') := by
  cases hc with
  | existsPath => cases oc <;> simp [Call.exec, Disk.existsPath, h]
  | fileSize => cases oc <;> simp [Call.exec, Disk.fileSize, h]
  | internalOpen => cases oc <;> simp [Call.exec, Disk.internalOpen, Store.withDisk, h]
  | read n => cases oc <;> simp [Call.exec, Disk.read, Disk.contents, h]
  | close => exact ⟨rfl, rfl⟩

theorem get_uses (sha256 : Bytes → Digest) (id : ChunkId) :
    (get sha256 id).Uses Call.Answers (ReadsChunk id) := by
  refine ⟨.fileSize, fun size _ => ?_⟩
  cases size with
  | error m => trivial
  | ok n =>
    refine ⟨.internalOpen, fun fd hfd => ?_⟩
    have hfd : fd = none ∨ fd = some (finalPathFor id) := by
      obtain ⟨oc, s, rfl⟩ := hfd
      cases oc with
      | ok => simp only [Call.exec, Store.withDisk, Disk.internalOpen]; split <;> simp
      | fail m => exact .inl rfl
      | short m k => exact .inl rfl
    rcases hfd with rfl | rfl
    · trivial
    · change (getRead sha256 id n (finalPathFor id) >>= fun a =>
        Prog.unlock (lockFor id) (.ret a)).Uses Call.Answers (ReadsChunk id)
      unfold getRead
      split
      · exact ⟨.close, fun _ _ => trivial⟩
      · exact ⟨.read n, fun _ _ => ⟨.close, fun _ _ => trivial⟩⟩

theorem existsChunk_uses (id : ChunkId) :
    (existsChunk id).Uses Call.Answers (ReadsChunk id) :=
  ⟨.existsPath, fun _ _ => trivial⟩

/-- A program that reads one chunk returns the same on the same chunks. -/
theorem ReadsChunk.runs {pol : Policy} {α : Type} {p : StoreProg α} {id : ChunkId}
    (hp : p.Uses Call.Answers (ReadsChunk id)) {s s' t : Store} {a : α} (h : SameChunks s s')
    (hr : p.Runs pol.sem s a t) : ∃ t', p.Runs pol.sem s' a t' ∧ t'.counter = t.counter := by
  have hcall : ∀ c, ReadsChunk id c → ∀ s s' r t, SameChunks s s' → pol.sem c s r t →
      ∃ t', pol.sem c s' r t' ∧ SameChunks t t' := by
    intro c hc s s' r t h hs
    obtain ⟨oc, ha, rfl, rfl⟩ := hs.outcome
    obtain ⟨hsame, hexec⟩ := hc.exec (h.final id) oc
    refine ⟨s', ⟨oc, ha, hexec⟩, ?_⟩
    rw [hsame]
    exact h
  obtain ⟨t', hr', ht'⟩ := Prog.Runs.transfer Policy.sem.answers hcall hp h hr
  exact ⟨t', hr', ht'.counter⟩

/-- The probe for the data root answers the same. -/
theorem SameChunks.probe {pol : Policy} {s s' t : Store} {r : Bool × ErrorCode}
    (h : SameChunks s s') (hs : pol.sem (.existsPath []) s r t) :
    t = s ∧ pol.sem (.existsPath []) s' r s' := by
  obtain ⟨oc, ha, rfl, rfl⟩ := hs.outcome
  refine ⟨rfl, oc, ha, ?_⟩
  cases oc <;> simp [Call.exec, Disk.existsPath, h.root]

/-- A walk over the tree fails the same way, or finds the same chunk files. -/
theorem SameChunks.walk {pol : Policy} {s s' t : Store} {r : Except String (List (Path × Node))}
    (h : SameChunks s s') (hs : pol.sem .listRecursive s r t) :
    t = s ∧ ((∃ m, r = .error m ∧ pol.sem .listRecursive s' (.error m) s') ∨
      ∃ l l', r = .ok l ∧ pol.sem .listRecursive s' (.ok l') s' ∧
        l'.filterMap chunkFile = l.filterMap chunkFile) := by
  obtain ⟨oc, ha, rfl, rfl⟩ := hs.outcome
  refine ⟨rfl, ?_⟩
  cases oc with
  | ok =>
    have hsame : s'.disk.rootError = t.disk.rootError := by simp only [Disk.rootError, h.root]
    cases hroot : t.disk.rootError with
    | none =>
      refine .inr ⟨_, _, ?_, ⟨.ok, ha, ?_⟩, h.files⟩
      · simp only [Call.exec, Disk.listRecursive, hroot]
      · simp only [Call.exec, Disk.listRecursive, hsame, hroot]
    | some m =>
      refine .inl ⟨m, ?_, .ok, ha, ?_⟩
      · simp only [Call.exec, Disk.listRecursive, hroot]
      · simp only [Call.exec, Disk.listRecursive, hsame, hroot]
  | fail m => exact .inl ⟨m, rfl, .fail m, ha, rfl⟩
  | short m n => exact .inl ⟨m, rfl, .short m n, ha, rfl⟩

theorem listAllChunkIds_runs {pol : Policy} {s s' t : Store}
    {r : Except String (List ChunkId)} (h : SameChunks s s')
    (hr : listAllChunkIds.Runs pol.sem s r t) :
    ∃ t', listAllChunkIds.Runs pol.sem s' r t' ∧ t'.counter = t.counter := by
  obtain ⟨⟨found, ec⟩, _, hprobe, hr⟩ := hr
  obtain ⟨rfl, hroot⟩ := h.probe hprobe
  cases ec with
  | some m =>
    obtain ⟨rfl, rfl⟩ := hr
    exact ⟨s', ⟨_, s', hroot, rfl, rfl⟩, h.counter⟩
  | none =>
    cases found with
    | false =>
      obtain ⟨rfl, rfl⟩ := hr
      exact ⟨s', ⟨_, s', hroot, rfl, rfl⟩, h.counter⟩
    | true =>
      obtain ⟨_, _, hlist, hr⟩ := hr
      obtain ⟨rfl, ⟨m, rfl, hwalk⟩ | ⟨l, l', rfl, hwalk, hfiles⟩⟩ := h.walk hlist
      · obtain ⟨rfl, rfl⟩ := hr
        exact ⟨s', ⟨_, s', hroot, _, s', hwalk, rfl, rfl⟩, h.counter⟩
      · obtain ⟨rfl, rfl⟩ := hr
        refine ⟨s', ⟨_, s', hroot, _, s', hwalk, ?_, rfl⟩, h.counter⟩
        simp only [listedIds, hfiles]

theorem storeCounters_runs {pol : Policy} {α : Type} {a b : α} {count bytes : Nat} {s t : Store}
    (hr : (storeCounters count bytes >>= fun _ => Prog.ret a).Runs pol.sem s b t) (s' : Store)
    (hc : s'.counter = s.counter) :
    b = a ∧ ∃ t', (storeCounters count bytes >>= fun _ => Prog.ret a).Runs pol.sem s' a t' ∧
      t'.counter = t.counter := by
  obtain ⟨_, _, h₁, _, _, h₂, rfl, rfl⟩ := hr
  obtain ⟨oc₁, ha₁, -, rfl⟩ := h₁.outcome
  obtain ⟨oc₂, ha₂, -, rfl⟩ := h₂.outcome
  refine ⟨rfl, _, ⟨_, _, ⟨oc₁, ha₁, rfl⟩, _, _, ⟨oc₂, ha₂, rfl⟩, rfl, rfl⟩, ?_⟩
  simp [Call.exec, Store.setCounter, hc]

theorem SameChunks.createRoot {s s' : Store} (h : SameChunks s s') (oc : Outcome) :
    ((Call.createDirectories []).exec oc s').1 = ((Call.createDirectories []).exec oc s).1 := by
  have hfile : ([] : Path).inits.any s'.disk.isFile = ([] : Path).inits.any s.disk.isFile := by
    simp [Disk.isFile, h.root]
  cases oc with
  | ok => simp only [Call.exec, Disk.createDirectories, Store.withDisk, hfile]; split <;> rfl
  | fail m => rfl
  | short m n => rfl

theorem construct_runs {pol : Policy} {s s' t : Store} {r : Except String Unit}
    (h : SameChunks s s') (hr : construct.Runs pol.sem s r t) :
    ∃ t', construct.Runs pol.sem s' r t' ∧ t'.counter = t.counter := by
  obtain ⟨⟨found, ec⟩, _, hprobe, hr⟩ := hr
  obtain ⟨rfl, hroot⟩ := h.probe hprobe
  cases ec with
  | some m =>
    obtain ⟨rfl, rfl⟩ := hr
    exact ⟨s', ⟨_, s', hroot, rfl, rfl⟩, h.counter⟩
  | none =>
    cases found with
    | true =>
      obtain ⟨_, _, hlist, hr⟩ := hr
      obtain ⟨rfl, ⟨m, rfl, hwalk⟩ | ⟨l, l', rfl, hwalk, hfiles⟩⟩ := h.walk hlist
      · obtain ⟨rfl, rfl⟩ := hr
        exact ⟨s', ⟨_, s', hroot, _, s', hwalk, rfl, rfl⟩, h.counter⟩
      · obtain ⟨rfl, t', hr', ht'⟩ := storeCounters_runs hr s' h.counter
        have hscan : scan l' = scan l := by simp only [scan, hfiles]
        refine ⟨t', ⟨_, s', hroot, _, s', hwalk, ?_⟩, ht'⟩
        rw [← hscan] at hr'
        exact hr'
    | false =>
      obtain ⟨ec, _, hmk, hr⟩ := hr
      obtain ⟨oc, ha, hec, rfl⟩ := hmk.outcome
      have hec' := (h.createRoot oc).trans hec.symm
      cases ec with
      | some m =>
        obtain ⟨rfl, rfl⟩ := hr
        exact ⟨_, ⟨_, s', hroot, _, _, ⟨oc, ha, Prod.ext hec' rfl⟩, rfl, rfl⟩, h.counter⟩
      | none =>
        obtain ⟨rfl, t', hr', ht'⟩ := storeCounters_runs hr
          ((Call.createDirectories []).exec oc s').2 h.counter
        exact ⟨t', ⟨_, s', hroot, _, _, ⟨oc, ha, Prod.ext hec' rfl⟩, hr'⟩, ht'⟩

/-- On the same chunks an operation that reads returns the same, and the
constructor counts the same. -/
theorem SameChunks.runs {sha256 : Bytes → Digest} {pol : Policy} {s s' t : Store}
    (h : SameChunks s s') {o : StoreOp} (ho : o.IsReader) {uuid : UuidV4} {r : o.Ret}
    (hr : (o.prog sha256 uuid).Runs pol.sem s r t) :
    ∃ t', (o.prog sha256 uuid).Runs pol.sem s' r t' ∧ t'.counter = t.counter := by
  cases o with
  | put id data => exact ho.elim
  | delete id => exact ho.elim
  | getStats => exact ho.elim
  | get id => exact ReadsChunk.runs (get_uses sha256 id) h hr
  | existsChunk id => exact ReadsChunk.runs (existsChunk_uses id) h hr
  | verifyOnly id =>
    obtain ⟨a, u, hget, rfl, rfl⟩ := Prog.runs_bind.mp hr
    obtain ⟨t', hget', ht'⟩ := ReadsChunk.runs (get_uses sha256 id) h hget
    exact ⟨t', Prog.runs_bind.mpr ⟨a, t', hget', rfl, rfl⟩, ht'⟩
  | listAllChunkIds => exact listAllChunkIds_runs h hr
  | construct => exact construct_runs h hr

end Leftovers

/-! ## Whole runs -/

section Runs

variable {T : Type} [DecidableEq T] {sha256 : Bytes → Digest} {s : Store} {c : StoreConfig T}

/-- What `Get` may return says nothing of corruption. -/
theorem getSpec_kind {pol : Policy} {e : Option Bytes} {d : ChunkStoreErrorDetail}
    (h : GetSpec pol (.error d) e) : d.kind ≠ .CorruptionDetected := by
  rcases h with h | ⟨_, h⟩ | ⟨_, m, h⟩
  · cases e with
    | none => cases h; simp
    | some b => cases h
  · cases h; simp
  · cases h; simp

/-- **Crash consistency.** From an empty data root, under any faults and any
crashes, whatever temporary names are drawn: a file at a final path has the hash
of its id; no `Get` ever reported corruption; every other file is a temporary
one; and a store without such leftovers answers the same and counts the same. -/
theorem crash_consistent (hempty : s.disk.IsEmpty) (h : Reachable (crashSystem sha256) s c) :
    (∀ id b, c.state.disk.contents (finalPathFor id) = some b → sha256 b = id.digest) ∧
    (∀ n t id e, .res n t (.get id) (.error e) ∈ c.hist → e.kind ≠ .CorruptionDetected) ∧
    (∀ p b dirty, c.state.disk.node p = some (.file b dirty) →
      (∃ id, p = finalPathFor id) ∨ ∃ id u, p = tmpPathFor id u) ∧
    (∀ s', WithoutLeftovers c.state s' → ∀ o : StoreOp, o.IsReader → ∀ uuid r counter,
      (∃ t, (o.prog sha256 uuid).Runs Policy.anyFault.sem c.state r t ∧ t.counter = counter) ↔
      ∃ t, (o.prog sha256 uuid).Runs Policy.anyFault.sem s' r t ∧ t.counter = counter) := by
  have hsim : ∀ o p, (crashSystem sha256).impl o p →
      LinSim (storeProtocol sha256) Policy.anyFault.sem (MapSpec sha256 .anyFault) view p := by
    intro o p hp
    obtain ⟨_, uuid, rfl⟩ := hp
    exact prog_linSim sha256 .anyFault uuid o
  obtain ⟨hinv, hres⟩ := h.results hsim (fun s s' hi hc => DiskInv.crash hi hc) hempty.inv
  refine ⟨fun id b hb => hinv.hash hb, fun n t id e he => ?_, fun p b dirty hn => ?_,
    fun s' hs' o ho uuid r counter => ⟨?_, ?_⟩⟩
  · obtain ⟨m, m', ⟨_, hspec⟩, _⟩ := hres n t _ _ he
    exact getSpec_kind hspec
  · rcases hinv p _ (.inl hn) with ⟨_, hd⟩ | ⟨id, _, hp, _⟩ | ⟨id, u, _, _, hp, _⟩
    · cases hd
    · exact .inl ⟨id, hp⟩
    · exact .inr ⟨id, u, hp⟩
  · intro hr
    obtain ⟨t, hr, rfl⟩ := hr
    exact SameChunks.runs hs'.sameChunks ho hr
  · intro hr
    obtain ⟨t, hr, rfl⟩ := hr
    exact SameChunks.runs hs'.sameChunks.symm ho hr

end Runs

/-- Where every file was synced, a crash may leave the whole tree. -/
theorem crash_kept {d : Disk}
    (htree : ∀ e ∈ d.tree.entries, e.1 ≠ [] → d.node e.1.dropLast = some .dir)
    (hsynced : ∀ e ∈ d.tree.entries, ∀ b, e.2 ≠ .file b true) :
    Crash d { d with durable := fun _ => true, lost := fun _ => [] } := by
  have hsurvives : ∀ p n, d.node p = some n → n.Survives n := by
    intro p n hn
    cases n with
    | dir => rfl
    | file b dirty =>
      cases dirty with
      | false => exact ⟨b, rfl, fun _ => rfl⟩
      | true => exact absurd rfl (hsynced ⟨p, .file b true⟩ (Disk.mem_entries.mpr hn) b)
  refine ⟨fun p n hn => ⟨n, .inl hn, hsurvives p n hn⟩, fun p n hn _ => ⟨n, hn, hsurvives p n hn⟩,
    fun p hp hn => ?_, fun p => ⟨rfl, rfl⟩⟩
  obtain ⟨n, hn⟩ := Option.ne_none_iff_exists'.mp hn
  exact htree ⟨p, n⟩ (Disk.mem_entries.mpr hn) hp

/-- A `Put` of `abc` had synced its temporary file when the machine went down: the file
is left, and no chunk. -/
theorem crash_consistent_interrupted_put :
    ∃ c : StoreConfig Unit, Reachable (crashSystem knownSha256) Store.empty c ∧
      c.hist = [.inv 0 () (.put .ofAbc abcBytes)] ∧ c.thread () = none ∧
      c.state.disk.node (tmpPathFor .ofAbc default) = some (.file abcBytes false) ∧
      c.state.disk.node (finalPathFor .ofAbc) = none ∧
      ∀ id b, c.state.disk.contents (finalPathFor id) = some b → knownSha256 b = id.digest := by
  let sys := crashSystem knownSha256
  let step : (c : Call) → Store → c.Ret × Store := fun c s => c.exec .ok s
  have hsem : ∀ c s, sys.sem c s (step c s).1 (step c s).2 := Policy.sem_ok .anyFault
  let o := StoreOp.put .ofAbc abcBytes
  let p := put knownSha256 .ofAbc abcBytes default
  let x := (p.advance step 8 [] Store.empty).get (by decide +kernel)
  have hx : p.advance step 8 [] Store.empty = some x := (Option.some_get _).symm
  have htmp : x.2.2.disk.node (tmpPathFor .ofAbc default) = some (.file abcBytes false) := by
    decide +kernel
  have hfinal : x.2.2.disk.node (finalPathFor .ofAbc) = none := by decide +kernel
  have htree : ∀ e ∈ x.2.2.disk.tree.entries,
      e.1 ≠ [] → x.2.2.disk.node e.1.dropLast = some .dir := by decide +kernel
  have hsynced : ∀ e ∈ x.2.2.disk.tree.entries, e.2 = .dir ∨ e.2 = .file abcBytes false := by
    decide +kernel
  clear_value x
  let c₀ : StoreConfig Unit := (Config.init Store.empty : StoreConfig Unit).start () o p
  have h₀ : Reachable sys Store.empty c₀ :=
    Relation.ReflTransGen.refl.tail (.invoke rfl ⟨trivial, default, rfl⟩)
  have hth₀ : c₀.thread = Function.update (fun _ => none) () (some ⟨0, o, p⟩) := rfl
  obtain ⟨c₁, h₁, _, _, hstate₁, hhist₁, _⟩ :=
    advances_alone (o := o) rfl hsem h₀ hth₀ (fun _ => rfl) hx
  have hcrash : Crash c₁.state.disk
      { x.2.2.disk with durable := fun _ => true, lost := fun _ => [] } := by
    rw [hstate₁]
    refine crash_kept htree fun e he b hb => ?_
    rcases hsynced e he with hdir | hfile
    · rw [hb] at hdir
      cases hdir
    · rw [hb] at hfile
      cases hfile
  let t : Store := ⟨{ x.2.2.disk with durable := fun _ => true, lost := fun _ => [] }, fun _ => 0⟩
  have h₂ := h₁.tail (.crash hcrash : Step sys c₁ { c₁ with thread := fun _ => none,
                                                            owner := fun _ => none, state := t })
  exact ⟨_, h₂, hhist₁, rfl, htmp, hfinal, (crash_consistent Disk.isEmpty_empty h₂).1⟩

end NimbusFs.StorageNode
