import Mathlib.Data.Finsupp.Weight
import NimbusFs.StorageNode.CrashConsistency
import NimbusFs.StorageNode.Footprint

/-! # What the counters should say

`chunk_count_` and `bytes_used_` stand for two sums over the tree: how many
regular files have the extension of chunks, and how many bytes they hold. Each
path has a weight in these sums. A step that changes the entry of one path
changes the sums by the weights of that path, and a temporary file weighs
nothing. -/
namespace NimbusFs.StorageNode

open NimbusFs.Common

/-- What a chunk file of this size adds to a counter. -/
def Counter.ofSize : Counter → Nat → Nat
  | .chunkCount, _ => 1
  | .bytesUsed, size => size

/-- What the entry at a path adds to a counter. -/
def weight (x : Counter) (p : Path) (n : Option Node) : Nat :=
  match n.bind fun n => chunkFile (p, n) with
  | some (_, size) => x.ofSize size
  | none => 0

/-- What the scan of the constructor computes. -/
def Disk.total (d : Disk) : Counter → Nat
  | .chunkCount => d.chunkFiles.length
  | .bytesUsed => (d.chunkFiles.map Prod.snd).sum

/-- The counters, 64 bits wide, are what a scan would compute. -/
def CountersMatch (s : Store) : Prop := ∀ x, s.counter x = s.disk.total x % 2 ^ 64

theorem scan_listing (d : Disk) :
    scan ((d.tree.entries.map fun e => (e.1, e.2)).filter fun e => e.1 ≠ []) =
      (d.total .chunkCount, d.total .bytesUsed) := rfl

/-! ## The sums as sums over paths -/

section Total

variable {x : Counter} {d d' : Disk}

theorem weight_none (x : Counter) (p : Path) : weight x p none = 0 := rfl

theorem weight_dir (x : Counter) (p : Path) : weight x p (some .dir) = 0 := rfl

/-- What each path adds. -/
noncomputable def Disk.counts (d : Disk) (x : Counter) : Path →₀ ℕ :=
  Finsupp.onFinset d.tree.keys.toFinset (fun p => weight x p (d.node p)) fun p hp => by
    by_contra hmem
    have hnone : d.node p = none := AList.lookup_eq_none.mpr fun h => hmem (List.mem_toFinset.mpr h)
    exact hp (by rw [hnone, weight_none])

@[simp] theorem Disk.counts_apply (d : Disk) (x : Counter) (p : Path) :
    d.counts x p = weight x p (d.node p) := rfl

/-- One pass over chunk files, as a sum over all entries. -/
theorem ofSize_sum (x : Counter) (l : List (Path × Node)) :
    ((l.filterMap chunkFile).map fun f => x.ofSize f.2).sum =
      (l.map fun e => weight x e.1 (some e.2)).sum := by
  induction l with
  | nil => rfl
  | cons e rest ih =>
    rw [List.map_cons, List.sum_cons, ← ih]
    cases he : chunkFile e with
    | none => simp [he, weight]
    | some f => simp [he, weight]

theorem total_eq_ofSize (d : Disk) (x : Counter) :
    d.total x = (d.chunkFiles.map fun f => x.ofSize f.2).sum := by
  cases x with
  | chunkCount => simp [Disk.total, Counter.ofSize]
  | bytesUsed => rfl

/-- The root is not a chunk file. -/
theorem weight_root (x : Counter) (n : Option Node) : weight x [] n = 0 := by
  rcases n with _ | _ | _ <;> rfl

/-- **A scan is a sum over the paths.** -/
theorem total_eq_degree (d : Disk) (x : Counter) : d.total x = (d.counts x).degree := by
  have hentries : (d.tree.entries.map fun e => weight x e.1 (some e.2)) =
      d.tree.keys.map fun p => weight x p (d.node p) := by
    rw [AList.keys, List.keys, List.map_map]
    refine List.map_congr_left fun e he => ?_
    rw [Function.comp_apply, Disk.mem_entries.mp he]
  have hroot : ∀ l : List (Path × Node),
      ((l.filter fun e => e.1 ≠ []).map fun e => weight x e.1 (some e.2)).sum =
        (l.map fun e => weight x e.1 (some e.2)).sum := by
    intro l
    induction l with
    | nil => rfl
    | cons e rest ih =>
      by_cases he : e.1 = []
      · simp [he, weight_root, ← ih]
      · simp [he, ← ih]
  calc d.total x
      = (d.tree.entries.map fun e => weight x e.1 (some e.2)).sum := by
        rw [total_eq_ofSize, Disk.chunkFiles, ofSize_sum, hroot, List.map_map]
        rfl
    _ = ∑ p ∈ d.tree.keys.toFinset, weight x p (d.node p) := by
        rw [hentries, List.sum_toFinset _ d.tree.keys_nodup]
    _ = (d.counts x).degree := by
        rw [Finsupp.degree_apply]
        refine (Finset.sum_subset Finsupp.support_onFinset_subset fun p _ hp => ?_).symm
        exact Finsupp.notMem_support_iff.mp hp

/-- Where no path changes its weight, the sums stay. -/
theorem total_same (h : ∀ p, weight x p (d'.node p) = weight x p (d.node p)) :
    d'.total x = d.total x := by
  rw [total_eq_degree, total_eq_degree]
  exact congrArg Finsupp.degree (Finsupp.ext h)

/-- Where one path changes its weight, the sums change by it. -/
theorem total_change (q : Path)
    (h : ∀ p, p ≠ q → weight x p (d'.node p) = weight x p (d.node p)) :
    d'.total x + weight x q (d.node q) = d.total x + weight x q (d'.node q) := by
  have hsum : d'.counts x + Finsupp.single q (weight x q (d.node q)) =
      d.counts x + Finsupp.single q (weight x q (d'.node q)) := by
    ext p
    by_cases hp : p = q
    · subst hp
      simp [Nat.add_comm]
    · simp [hp, h p hp]
  have := congrArg Finsupp.degree hsum
  simpa [total_eq_degree] using this

end Total

/-! ## The weights of the paths of a chunk -/

section Weights

variable {x : Counter} {own : Path → Prop} {d d' : Disk} {p : Path}

theorem weight_tmp (x : Counter) (id : ChunkId) (u : UuidV4) (n : Option Node) :
    weight x (tmpPathFor id u) n = 0 := by
  cases n with
  | none => rfl
  | some n =>
    show (match chunkFile (tmpPathFor id u, n) with | some (_, size) => x.ofSize size | none => 0) = 0
    rw [chunkFile_tmp]

theorem chunkFile_final (id : ChunkId) (b : Bytes) (dirty : Bool) :
    chunkFile (finalPathFor id, .file b dirty) = some (id.hex ++ chunkExtension, b.length) := by
  have hlast : (finalPathFor id).getLast? = some (id.hex ++ chunkExtension) := by
    simp [finalPathFor]
  have hext : extension (id.hex ++ chunkExtension) = chunkExtension :=
    extension_append (by rw [id.hex_length]; omega) (by decide)
  simp only [chunkFile, hlast, if_pos hext]

theorem weight_final (x : Counter) (id : ChunkId) (b : Bytes) (dirty : Bool) :
    weight x (finalPathFor id) (some (.file b dirty)) = x.ofSize b.length := by
  show (match chunkFile (finalPathFor id, .file b dirty) with
    | some (_, size) => x.ofSize size | none => 0) = _
  rw [chunkFile_final]

/-- What is not touched keeps its weight. -/
theorem Touches.weight (h : Touches own d d') (hp : ¬ own p) :
    weight x p (d'.node p) = weight x p (d.node p) := by
  rcases h p with hown | heq | ⟨_, hnone, hdir⟩
  · exact absurd hown hp
  · rw [heq]
  · rw [hnone, hdir, weight_none, weight_dir]

end Weights

end NimbusFs.StorageNode
