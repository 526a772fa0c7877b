import NimbusFs.StorageNode.Ledger

/-! # `ListAllChunkIds`

From an empty data root, the names that end in `.chunk` are those of the final
paths, and the stem of such a name is the text of its id. So a walk over the tree
finds each chunk once and nothing else, whatever temporary files were left. -/
namespace NimbusFs.StorageNode

open NimbusFs.Common Lib

/-- The entries below the root, as the iterator yields them. -/
def Disk.listing (d : Disk) : List (Path × Node) :=
  (d.tree.entries.map fun e => (e.1, e.2)).filter fun e => e.1 ≠ []

/-! ## One entry -/

/-- The id that an entry stands for. -/
def idOfEntry (e : Path × Node) : Option ChunkId :=
  (chunkFile e).bind fun f => (ChunkId.parse (stem f.1)).toOption

theorem listedIds_eq (l : List (Path × Node)) : listedIds l = l.filterMap idOfEntry := by
  rw [listedIds, List.filterMap_filterMap]
  rfl

/-- The name of a chunk file gives back its id. -/
theorem parse_stem_final (id : ChunkId) :
    ChunkId.parse (stem (id.hex ++ chunkExtension)) = .ok id := by
  have hstem : stem (id.hex ++ chunkExtension) = id.hex :=
    stem_append (by rw [id.hex_length]; omega) (by decide)
  rw [hstem, ChunkId.parse_hex]

section Entries

variable {sha256 : Bytes → Digest} {d : Disk} {p : Path} {n : Node} {id : ChunkId}

/-- What may be found in the tree is a chunk, or is not listed. -/
theorem NodeOk.listed (h : NodeOk sha256 p n) :
    (∃ id, p = finalPathFor id ∧ idOfEntry (p, n) = some id) ∨
      ((∀ id, p ≠ finalPathFor id) ∧ chunkFile (p, n) = none) := by
  rcases h with ⟨hlen, rfl⟩ | ⟨id, b, rfl, rfl, _⟩ | ⟨id, u, b, dirty, rfl, rfl⟩
  · refine .inr ⟨fun id hp => ?_, rfl⟩
    rw [hp, (belongs_finalPathFor id).length] at hlen
    omega
  · refine .inl ⟨id, rfl, ?_⟩
    rw [idOfEntry, chunkFile_final, Option.bind_some, parse_stem_final]
    rfl
  · exact .inr ⟨fun id' hp => finalPathFor_ne_tmpPathFor id' id u hp.symm, chunkFile_tmp id u _⟩

theorem NodeOk.idOfEntry_iff (h : NodeOk sha256 p n) :
    idOfEntry (p, n) = some id ↔ p = finalPathFor id := by
  rcases h.listed with ⟨id', rfl, hid⟩ | ⟨hne, hnone⟩
  · rw [hid]
    constructor
    · intro heq
      cases heq
      rfl
    · intro heq
      rw [finalPathFor_injective heq]
  · rw [idOfEntry, hnone]
    constructor
    · intro heq
      cases heq
    · intro heq
      exact absurd heq (hne id)

theorem mem_listing : (p, n) ∈ d.listing ↔ p ≠ [] ∧ d.node p = some n := by
  simp only [Disk.listing, List.mem_filter, List.mem_map, decide_eq_true_eq]
  constructor
  · intro h
    obtain ⟨⟨e, he, heq⟩, hp⟩ := h
    cases heq
    exact ⟨hp, Disk.mem_entries.mp he⟩
  · intro h
    exact ⟨⟨⟨p, n⟩, Disk.mem_entries.mpr h.2, rfl⟩, h.1⟩

/-- No path is yielded twice. -/
theorem listing_pairwise (d : Disk) : d.listing.Pairwise fun e e' => e.1 ≠ e'.1 := by
  refine List.Pairwise.filter _ (List.pairwise_map.mpr ?_)
  exact List.nodupKeys_iff_pairwise.mp d.tree.nodupKeys

/-! ## The whole listing -/

/-- **Each chunk once.** -/
theorem DiskInv.listedIds_nodup (h : DiskInv sha256 d) : (listedIds d.listing).Nodup := by
  rw [listedIds_eq]
  refine List.pairwise_filterMap.mpr ((listing_pairwise d).imp_of_mem ?_)
  intro e e' he he' hne id hid id' hid' heq
  have hp := (h _ _ (.inl (mem_listing.mp he).2)).idOfEntry_iff.mp hid
  have hp' := (h _ _ (.inl (mem_listing.mp he').2)).idOfEntry_iff.mp hid'
  exact hne (by rw [hp, hp', heq])

theorem DiskInv.mem_listedIds (h : DiskInv sha256 d) :
    id ∈ listedIds d.listing ↔ d.node (finalPathFor id) ≠ none := by
  rw [listedIds_eq, List.mem_filterMap]
  constructor
  · intro hmem
    obtain ⟨⟨p, n⟩, he, hid⟩ := hmem
    obtain ⟨_, hn⟩ := mem_listing.mp he
    obtain rfl := (h _ _ (.inl hn)).idOfEntry_iff.mp hid
    rw [hn]
    exact Option.some_ne_none n
  · intro hsome
    obtain ⟨n, hn⟩ := Option.ne_none_iff_exists'.mp hsome
    refine ⟨(finalPathFor id, n), mem_listing.mpr ⟨?_, hn⟩, (h _ _ (.inl hn)).idOfEntry_iff.mpr rfl⟩
    intro hnil
    have := (belongs_finalPathFor id).length
    rw [hnil] at this
    cases this

/-- The scan of the constructor counts what is listed. -/
theorem DiskInv.length_listedIds (h : DiskInv sha256 d) :
    (listedIds d.listing).length = d.total .chunkCount := by
  refine List.filterMap_length_eq_length.mpr fun f hf => ?_
  obtain ⟨⟨p, n⟩, he, hfile⟩ := List.mem_filterMap.mp hf
  show (ChunkId.parse (stem f.1)).toOption.isSome
  rcases (h _ _ (.inl (mem_listing.mp he).2)).listed with ⟨id, _, hid⟩ | ⟨_, hnone⟩
  · rw [idOfEntry, hfile, Option.bind_some] at hid
    rw [hid]
    rfl
  · rw [hnone] at hfile
    cases hfile

end Entries

/-! ## The operation -/

section Operation

variable {s t : Store} {ids : List ChunkId}

/-- A list that is returned is that of the whole tree. -/
theorem runs_listAllChunkIds (htree : s.disk.IsTree)
    (h : listAllChunkIds.Runs Policy.faithfulProbes.sem s (.ok ids) t) :
    ids = listedIds s.disk.listing := by
  obtain ⟨answer, u, hprobe, h⟩ := h
  obtain ⟨oc, ha, hanswer, hu⟩ := hprobe.outcome
  obtain rfl : oc = .ok := Policy.allows_probe rfl ha
  rw [exec_existsPath_ok] at hanswer hu
  cases hroot : s.disk.node [] with
  | none =>
    rw [hanswer, hroot] at h
    have hnil : s.disk.listing = [] := by
      rw [List.eq_nil_iff_forall_not_mem]
      intro e he
      have := (mem_listing.mp he).2
      rw [htree.empty_of_no_root hroot] at this
      cases this
    rw [hnil]
    exact Except.ok.inj h.1
  | some n =>
    rw [hanswer, hroot] at h
    obtain ⟨entries, _, hlist, h⟩ := h
    rw [hu] at hlist
    obtain ⟨oc, -, hentries, -⟩ := hlist.outcome
    cases entries with
    | error m => cases h.1
    | ok entries =>
      obtain ⟨-, rfl⟩ := Disk.listRecursive_eq_ok hentries.symm
      exact Except.ok.inj h.1

/-- Where no call fails and the root is no regular file, a list is returned. -/
theorem execute_listAllChunkIds (hfile : s.disk.isFile [] = false) :
    ∃ ids, (execute listAllChunkIds s).1 = .ok ids := by
  rw [execute, listAllChunkIds, sys, Prog.perform_bind, Prog.run_call, exec_existsPath_ok]
  cases hroot : s.disk.node [] with
  | none => exact ⟨_, rfl⟩
  | some n =>
    have hstep : (Call.listRecursive).exec .ok s = (.ok s.disk.listing, s) := by
      simp only [Call.exec, Disk.listRecursive_ok hroot hfile]
      rfl
    refine ⟨listedIds s.disk.listing, ?_⟩
    simp only [Option.isSome_some, Bool.not_true, Bool.false_eq_true, if_false, sys,
      Prog.perform_bind, Prog.run_call, hstep]
    rfl

theorem execute_existsChunk (id : ChunkId) (s : Store) :
    (execute (existsChunk id) s).1 = (s.disk.node (finalPathFor id)).isSome := by
  simp [execute, existsChunk, exec_existsPath_ok]

end Operation

/-! ## Whole runs -/

section Runs

variable {T : Type} [DecidableEq T] {sha256 : Bytes → Digest} {pol : Policy} {d : Disk} {s : Store}
variable {c : StoreConfig T}

/-- No constructor spoils the tree, however far it gets. -/
theorem boots_inv (hinv : DiskInv sha256 d) (h : Boots pol.sem Store.disk d s) :
    DiskInv sha256 s.disk := by
  have hkeeps : ∀ x y : Store, DiskInv sha256 x.disk → construct.Reaches pol.sem x y →
      DiskInv sha256 y.disk := by
    intro x y hx hreach
    have hboth : DiskInv sha256 y.disk ∧ (⊤ : Store → Store → Prop) x y :=
      (prog_linSim sha256 pol default .construct x hx).reaches Policy.sem.answers
        (fun _ => trivial) (fun _ _ => trivial) (fun _ _ _ _ _ _ _ => trivial)
        (Prog.uses_true _ construct) hx hreach
    exact hboth.1
  induction h with
  | @up d x y hd hrun => exact hkeeps x y (hd ▸ hinv) hrun.reaches
  | @again d x y d' z hd hreach hstop _ ih =>
    have hy := hkeeps x y (hd ▸ hinv) hreach
    rcases hstop with rfl | hcrash
    · exact ih hy
    · exact ih (hy.crash hcrash)

/-- Every file of a store that is stopped and constructed again is a chunk or a
temporary file, while no operation is under way and while some are. -/
theorem restarts_inv (hinv : DiskInv sha256 s.disk) (h : Reachable (storeRestarts sha256 pol) s c) :
    DiskInv sha256 c.state.disk := by
  have hsim : ∀ o p, (storeRestarts sha256 pol).impl o p →
      LinSim (storeProtocol sha256) pol.sem (MapSpec sha256 pol) view p := by
    intro o p hp
    obtain ⟨_, uuid, rfl⟩ := hp
    exact prog_linSim sha256 pol uuid o
  refine (h.results hsim (fun x y hx hstop => ?_) hinv).1
  obtain ⟨d', hstopped, hboot⟩ := hstop
  rcases hstopped with rfl | hcrash
  · exact boots_inv hx hboot
  · exact boots_inv (DiskInv.crash hx hcrash) hboot

/-- **The listing is exact.** From an empty data root, after any run with faults and
stops, while no operation is under way: a list can be returned, and one that is
returned holds each chunk that exists once, and nothing else. Its length is the
number that `GetStats` reports. -/
theorem listing_exact (hempty : d.IsEmpty) (hboot : Boots Policy.faithfulProbes.sem Store.disk d s)
    (h : Reachable (storeRestarts sha256 .faithfulProbes) s c) (hquiet : ∀ t, c.thread t = none) :
    (∃ ids, (execute listAllChunkIds c.state).1 = .ok ids) ∧
    ∀ ids t, listAllChunkIds.Runs Policy.faithfulProbes.sem c.state (.ok ids) t →
      ids.Nodup ∧ (∀ id, id ∈ ids ↔ (execute (existsChunk id) c.state).1 = true) ∧
      (execute getStats c.state).1.chunkCount = ids.length % 2 ^ 64 := by
  have hinv := restarts_inv (boots_inv hempty.inv hboot) h
  obtain ⟨a, hboot', hstore⟩ := boots_audited hboot
  obtain ⟨b, ⟨hb⟩, hreach⟩ := reachable_audited hstore h
  have hbalanced : Balanced b := reachable_balanced hempty.isTree hboot' hreach hquiet
  have htree : c.state.disk.IsTree := hb ▸ hbalanced.tree
  have hmatch : CountersMatch c.state := hb ▸ hbalanced.counter
  refine ⟨execute_listAllChunkIds hinv.isFile_root, fun ids t hrun => ?_⟩
  rw [runs_listAllChunkIds htree hrun]
  refine ⟨hinv.listedIds_nodup, fun id => ?_, ?_⟩
  · rw [hinv.mem_listedIds, execute_existsChunk, Option.isSome_iff_ne_none]
  · rw [hinv.length_listedIds]
    exact hmatch .chunkCount

end Runs

/-- A constructor with no failing call. -/
def booted (s : Store) : Store := (execute construct s).2

/-- The store after a `Put` of `abc` into an empty data root. -/
def putAbc : Store := (execute (put knownSha256 .ofAbc abcBytes default) (booted .empty)).2

/-- `abc` was stored, and the store was stopped and constructed again. -/
theorem listing_exact_abc :
    ∃ c : StoreConfig Unit,
      Reachable (storeRestarts knownSha256 .faithfulProbes) (booted .empty) c ∧
      c.hist = [.inv 0 () (.put .ofAbc abcBytes), .res 0 () (.put .ofAbc abcBytes) (.ok ())] ∧
      c.thread () = none ∧ (execute listAllChunkIds c.state).1 = .ok [.ofAbc] ∧
      (∀ id, id ∈ [ChunkId.ofAbc] ↔ (execute (existsChunk id) c.state).1 = true) ∧
      (execute getStats c.state).1.chunkCount = 1 := by
  let sys := storeRestarts knownSha256 .faithfulProbes
  have himpl : sys.impl (.put .ofAbc abcBytes) (put knownSha256 .ofAbc abcBytes default) :=
    ⟨trivial, default, rfl⟩
  have hrun : (put knownSha256 .ofAbc abcBytes default).runsAlone (fun c s => c.exec .ok s)
      (fun _ => 0) (booted .empty) := by decide +kernel
  have hput : (execute (put knownSha256 .ofAbc abcBytes default) (booted .empty)).1 = .ok () := by
    rfl
  have hinit : Reachable sys (booted .empty) (Config.init (booted .empty) : StoreConfig Unit) := .refl
  obtain ⟨c, hc, _, hstate, hhist⟩ :=
    hinit.invoke_alone (t := ()) rfl (Policy.sem_ok _) rfl (fun _ => rfl) himpl hrun
  have hboot : Boots Policy.faithfulProbes.sem Store.disk Disk.empty (booted .empty) :=
    boots_run (x := .empty) (Policy.sem_ok _) (by decide +kernel)
  have hboot' : Boots Policy.faithfulProbes.sem Store.disk putAbc.disk (booted putAbc) :=
    boots_run (x := putAbc) (Policy.sem_ok _) (by decide +kernel)
  have hcrash : sys.crash c.state (booted putAbc) := ⟨putAbc.disk, .inl (by rw [hstate]; rfl), hboot'⟩
  have hreach : Reachable sys (booted .empty) _ := hc.tail (.crash hcrash)
  have hlist : (execute listAllChunkIds (booted putAbc)).1 = .ok [.ofAbc] := by decide +kernel
  obtain ⟨_, hexact⟩ := listing_exact Disk.isEmpty_empty hboot hreach fun _ => rfl
  have hruns := Prog.runs_run (Policy.sem_ok .faithfulProbes) listAllChunkIds (booted putAbc)
  obtain ⟨_, hmem, hcount⟩ := hexact [.ofAbc] _ (hlist ▸ hruns)
  exact ⟨_, hreach, hhist.trans (by rw [← hput]; rfl), rfl, hlist, hmem, hcount⟩

end NimbusFs.StorageNode
