import Mathlib.Algebra.Group.Nat.Defs
import Mathlib.Data.List.AList
import Mathlib.Data.List.Infix
import NimbusFs.Common.FileName
import NimbusFs.Common.Sha256

/-! # The file system under `data_root_`

The calls that `LocalDiskChunkStore` makes, with what POSIX and
`std::filesystem` say of them. An `Outcome` is what the environment decides
about one call: it works, it fails and changes nothing, or it is cut short.
A call that works may still report an error of its own (no such file).

An open descriptor stands for the path it was opened at: nothing else renames
or removes a path of the store while it is open, since every path names its
chunk and is only used under the chunk's lock.

What a crash leaves is a relation: bytes written since the last `fsync` of
their file may be anything, and a directory entry may be gone, or be back,
until its directory is synced. -/
namespace NimbusFs.StorageNode

open NimbusFs.Common

/-- A path below `data_root_`, component by component; `[]` is `data_root_`. -/
abbrev Path := List Name

/-- A directory, or a regular file with its bytes and whether it was written
since its last successful `fsync`. -/
inductive Node
  | dir
  | file (bytes : Bytes) (dirty : Bool)
deriving DecidableEq

/-- The tree as running processes see it, with what is known of its safety:
`durable p` when the directory holding the entry `p` was synced after the entry
was made, `lost p` for the entries that left `p` since it was last synced. -/
structure Disk where
  tree : AList (fun _ : Path => Node)
  durable : Path → Bool
  lost : Path → List Node
  available : Nat

/-- An `std::error_code`: its message, or no error. -/
abbrev ErrorCode := Option String

/-- What the environment decides about one call. -/
inductive Outcome
  | ok
  | fail (message : String)
  | short (message : String) (n : Nat)

namespace Disk

/-- The entry at a path. -/
def node (d : Disk) (p : Path) : Option Node := d.tree.lookup p

/-- The file at a path, if there is one. -/
def contents (d : Disk) (p : Path) : Option Bytes :=
  match d.node p with
  | some (.file b _) => some b
  | _ => none

def isFile (d : Disk) (p : Path) : Bool :=
  match d.node p with
  | some (.file _ _) => true
  | _ => false

/-- Change what an existing entry holds. -/
def setNode (d : Disk) (p : Path) (n : Node) : Disk :=
  { d with tree := d.tree.insert p n }

/-- Make an entry. It is not durable until its directory is synced. -/
def addEntry (d : Disk) (p : Path) (n : Node) : Disk :=
  { d with tree := d.tree.insert p n, durable := Function.update d.durable p false }

/-- Remove an entry. It may be back after a crash. -/
def removeEntry (d : Disk) (p : Path) : Disk :=
  { d with tree := d.tree.erase p,
           lost := Function.update d.lost p ((d.node p).toList ++ d.lost p) }

/-- Make the directories of the list that are missing. -/
def mkdirs (d : Disk) (ps : List Path) : Disk :=
  ps.foldl (fun d p => if (d.node p).isSome then d else d.addEntry p .dir) d

@[simp] theorem node_setNode (d : Disk) (p q : Path) (n : Node) :
    (d.setNode p n).node q = if q = p then some n else d.node q := by
  by_cases h : q = p
  · subst h; simp [node, setNode]
  · simp [node, setNode, h]

@[simp] theorem node_addEntry (d : Disk) (p q : Path) (n : Node) :
    (d.addEntry p n).node q = if q = p then some n else d.node q :=
  node_setNode d p q n

@[simp] theorem node_removeEntry (d : Disk) (p q : Path) :
    (d.removeEntry p).node q = if q = p then none else d.node q := by
  by_cases h : q = p
  · subst h; simp [node, removeEntry]
  · simp [node, removeEntry, h]

@[simp] theorem lost_removeEntry (d : Disk) (p q : Path) :
    (d.removeEntry p).lost q = if q = p then (d.node p).toList ++ d.lost p else d.lost q := by
  by_cases h : q = p
  · subst h; simp [removeEntry]
  · simp [removeEntry, h]

theorem node_mkdirs (d : Disk) (ps : List Path) (q : Path) :
    (d.mkdirs ps).node q = if q ∈ ps ∧ d.node q = none then some .dir else d.node q := by
  induction ps generalizing d with
  | nil => simp [mkdirs]
  | cons p rest ih =>
    rw [mkdirs, List.foldl_cons]
    show ((if (d.node p).isSome then d else d.addEntry p .dir).mkdirs rest).node q = _
    rw [ih]
    by_cases hp : (d.node p).isSome
    · by_cases hq : q = p
      · subst hq
        simp [hp, Option.isSome_iff_ne_none.mp hp]
      · simp [hp, hq]
    · have hnone : d.node p = none := by simpa using hp
      by_cases hq : q = p
      · subst hq
        simp [hnone]
      · simp [hnone, hq]

theorem lost_mkdirs (d : Disk) (ps : List Path) : (d.mkdirs ps).lost = d.lost := by
  induction ps generalizing d with
  | nil => rfl
  | cons p rest ih =>
    rw [mkdirs, List.foldl_cons]
    show ((if (d.node p).isSome then d else d.addEntry p .dir).mkdirs rest).lost = _
    rw [ih]
    split <;> rfl

theorem durable_addEntry (d : Disk) (p q : Path) (n : Node) :
    (d.addEntry p n).durable q = if q = p then false else d.durable q := by
  by_cases h : q = p
  · subst h; simp [addEntry]
  · simp [addEntry, h]

theorem durable_mkdirs (d : Disk) (ps : List Path) (q : Path) :
    (d.mkdirs ps).durable q = if q ∈ ps ∧ d.node q = none then false else d.durable q := by
  induction ps generalizing d with
  | nil => simp [mkdirs]
  | cons p rest ih =>
    rw [mkdirs, List.foldl_cons]
    show ((if (d.node p).isSome then d else d.addEntry p .dir).mkdirs rest).durable q = _
    rw [ih]
    by_cases hp : (d.node p).isSome
    · by_cases hq : q = p
      · subst hq
        simp [hp, Option.isSome_iff_ne_none.mp hp]
      · simp [hp, hq]
    · have hnone : d.node p = none := by simpa using hp
      by_cases hq : q = p
      · subst hq
        simp [hnone, durable_addEntry]
      · simp [hnone, hq, durable_addEntry]

/-! ## The calls -/

/-- `std::filesystem::exists(p, ec)`. -/
def existsPath (d : Disk) (p : Path) : Outcome → Bool × ErrorCode
  | .ok => ((d.node p).isSome, none)
  | .fail m | .short m _ => (false, some m)

/-- `std::filesystem::create_directories(p, ec)`: nothing is made when a part
of the path is a regular file; cut short, the first `n` parts are made. -/
def createDirectories (d : Disk) (p : Path) : Outcome → ErrorCode × Disk
  | .ok => if p.inits.any d.isFile then (some "Not a directory", d) else (none, d.mkdirs p.inits)
  | .fail m => (some m, d)
  | .short m n => (some m, if p.inits.any d.isFile then d else d.mkdirs (p.inits.take n))

/-- How `internal_open` is called. -/
inductive OpenMode
  | writeCreateTruncate
  | readOnly
  | directory

/-- `internal_open`: a descriptor, or nothing for a negative one. -/
def internalOpen (d : Disk) (p : Path) : OpenMode → Outcome → Option Path × Disk
  | .writeCreateTruncate, .ok =>
    match d.node p with
    | some (.file _ _) => (some p, d.setNode p (.file [] true))
    | some .dir => (none, d)
    | none =>
      if d.node p.dropLast = some .dir then (some p, d.addEntry p (.file [] true)) else (none, d)
  | .readOnly, .ok => (if (d.node p).isSome then some p else none, d)
  | .directory, .ok => (if d.node p = some .dir then some p else none, d)
  | _, _ => (none, d)

/-- `::write` at the end of what was written: how much was, or nothing for -1. One that
works is taken to write all of the data, also where a system moves at most so many bytes in
one call; one that moves less is cut short. -/
def write (d : Disk) (fd : Path) (data : Bytes) : Outcome → Option Nat × Disk
  | .fail _ => (none, d)
  | .ok => (some data.length, append data)
  | .short _ n => (some (data.take n).length, append (data.take n))
where
  append (done : Bytes) : Disk :=
    match d.node fd with
    | some (.file b _) => d.setNode fd (.file (b ++ done) true)
    | _ => d

/-- `internal_fsync` of a file, or of a directory: then the entries in it are
durable, and what left it is gone for good. -/
def internalFsync (d : Disk) (fd : Path) : Outcome → Bool × Disk
  | .ok =>
    match d.node fd with
    | some (.file b _) => (true, d.setNode fd (.file b false))
    | some .dir =>
      (true, { d with durable := fun p => (p ≠ [] && p.dropLast = fd) || d.durable p,
                      lost := fun p => if p ≠ [] ∧ p.dropLast = fd then [] else d.lost p })
    | none => (true, d)
  | .fail _ | .short _ _ => (false, d)

/-- `std::filesystem::rename(src, dst, ec)` of a regular file. -/
def rename (d : Disk) (src dst : Path) : Outcome → ErrorCode × Disk
  | .ok =>
    match d.node src with
    | some (.file b dirty) =>
      if d.node dst = some .dir then (some "Is a directory", d)
      else if d.node dst.dropLast ≠ some .dir then (some "No such file or directory", d)
      else (none, ((d.removeEntry src).removeEntry dst).addEntry dst (.file b dirty))
    | some .dir => (some "Is a directory", d)
    | none => (some "No such file or directory", d)
  | .fail m | .short m _ => (some m, d)

/-- `std::filesystem::remove(p, ec)`: whether something was removed. -/
def remove (d : Disk) (p : Path) : Outcome → (Bool × ErrorCode) × Disk
  | .ok =>
    match d.node p with
    | none => ((false, none), d)
    | some (.file _ _) => ((true, none), d.removeEntry p)
    | some .dir =>
      if d.tree.keys.any fun q => q ≠ [] && q.dropLast = p then
        ((false, some "Directory not empty"), d)
      else ((true, none), d.removeEntry p)
  | .fail m | .short m _ => ((false, some m), d)

/-- `std::filesystem::file_size(p, ec)`. -/
def fileSize (d : Disk) (p : Path) : Outcome → Except String Nat
  | .ok =>
    match d.node p with
    | some (.file b _) => .ok b.length
    | some .dir => .error "Is a directory"
    | none => .error "No such file or directory"
  | .fail m | .short m _ => .error m

/-- `::read` of at most `count` bytes from the start, or nothing for -1. One that works is
taken to read all that it is asked for, as far as the file goes. -/
def read (d : Disk) (fd : Path) (count : Nat) : Outcome → Option Bytes
  | .ok => (d.contents fd).map (·.take count)
  | .short _ n => (d.contents fd).map (·.take (min n count))
  | .fail _ => none

/-- Why `data_root_` cannot be walked, if it cannot. -/
def rootError (d : Disk) : ErrorCode :=
  match d.node [] with
  | some .dir => none
  | some (.file _ _) => some "Not a directory"
  | none => some "No such file or directory"

/-- `recursive_directory_iterator(data_root_)`: the entries below the root. -/
def listRecursive (d : Disk) : Outcome → Except String (List (Path × Node))
  | .ok =>
    match d.rootError with
    | some m => .error m
    | none => .ok ((d.tree.entries.map fun e => (e.1, e.2)).filter fun e => e.1 ≠ [])
  | .fail m | .short m _ => .error m

/-- A root that is there, and no regular file, is walked. -/
theorem listRecursive_ok {d : Disk} {n : Node} (hroot : d.node [] = some n)
    (hfile : d.isFile [] = false) :
    d.listRecursive .ok =
      .ok ((d.tree.entries.map fun e => (e.1, e.2)).filter fun e => e.1 ≠ []) := by
  cases n with
  | dir => simp only [listRecursive, rootError, hroot]
  | file b dirty => simp [isFile, hroot] at hfile

/-- A walk that works returns every entry below the root. -/
theorem listRecursive_eq_ok {d : Disk} {o : Outcome} {l : List (Path × Node)}
    (h : d.listRecursive o = .ok l) :
    o = .ok ∧ l = (d.tree.entries.map fun e => (e.1, e.2)).filter fun e => e.1 ≠ [] := by
  cases o with
  | ok =>
    simp only [listRecursive] at h
    split at h
    · cases h
    · cases h; exact ⟨rfl, rfl⟩
  | fail m => cases h
  | short m n => cases h

end Disk

/-! ## The empty data root -/

/-- Nothing but possibly `data_root_` itself, and nothing a crash could bring back. -/
structure Disk.IsEmpty (d : Disk) : Prop where
  node : ∀ p n, d.node p = some n → p = [] ∧ n = .dir
  lost : ∀ p, d.lost p = []

/-- A data root that exists, is durable and empty. -/
def Disk.empty : Disk where
  tree := AList.singleton [] .dir
  durable := fun _ => true
  lost := fun _ => []
  available := 0

theorem Disk.node_empty (p : Path) : Disk.empty.node p = if p = [] then some .dir else none := by
  by_cases hp : p = []
  · subst hp; rfl
  · rw [if_neg hp, Disk.node, AList.lookup_eq_none]
    simpa [Disk.empty, AList.mem_keys, AList.keys_singleton] using hp

theorem Disk.isEmpty_empty : Disk.empty.IsEmpty where
  node p n h := by
    rw [Disk.node_empty] at h
    split at h
    · cases h; exact ⟨by assumption, rfl⟩
    · cases h
  lost _ := rfl

/-! ## The store object and its calls -/

/-- `chunk_count_` and `bytes_used_`. -/
inductive Counter
  | chunkCount
  | bytesUsed
deriving DecidableEq

/-- The disk, and the counters of the `LocalDiskChunkStore` object over it. -/
structure Store where
  disk : Disk
  counter : Counter → Nat

/-- A new object over an empty data root. -/
def Store.empty : Store := ⟨.empty, fun _ => 0⟩

/-- One atomic step of the store other than taking or releasing a lock. -/
inductive Call
  | existsPath (p : Path)
  | createDirectories (p : Path)
  | internalOpen (p : Path) (mode : Disk.OpenMode)
  | write (fd : Path) (data : Bytes)
  | internalFsync (fd : Path)
  | close (fd : Path)
  | rename (src dst : Path)
  | remove (p : Path)
  | fileSize (p : Path)
  | read (fd : Path) (count : Nat)
  | listRecursive
  | space
  | fetchAdd (c : Counter) (n : Nat)
  | fetchSub (c : Counter) (n : Nat)
  | load (c : Counter)
  | store (c : Counter) (n : Nat)

/-- What a call answers. -/
abbrev Call.Ret : Call → Type
  | .existsPath _ => Bool × ErrorCode
  | .createDirectories _ => ErrorCode
  | .internalOpen _ _ => Option Path
  | .write _ _ => Option Nat
  | .internalFsync _ => Bool
  | .close _ => Unit
  | .rename _ _ => ErrorCode
  | .remove _ => Bool × ErrorCode
  | .fileSize _ => Except String Nat
  | .read _ _ => Option Bytes
  | .listRecursive => Except String (List (Path × Node))
  | .space => Except String Nat
  | .fetchAdd _ _ => Unit
  | .fetchSub _ _ => Unit
  | .load _ => Nat
  | .store _ _ => Unit

/-- Put the disk a call leaves back into the store. -/
def Store.withDisk {α : Type} (s : Store) (x : α × Disk) : α × Store := (x.1, { s with disk := x.2 })

/-- Set a counter. The counters are 64 bits wide. -/
def Store.setCounter (s : Store) (c : Counter) (n : Nat) : Store :=
  { s with counter := Function.update s.counter c (n % 2 ^ 64) }

/-- What a call answers and leaves, as the environment decides. -/
def Call.exec : (c : Call) → Outcome → Store → c.Ret × Store
  | .existsPath p, o, s => (s.disk.existsPath p o, s)
  | .createDirectories p, o, s => s.withDisk (s.disk.createDirectories p o)
  | .internalOpen p mode, o, s => s.withDisk (s.disk.internalOpen p mode o)
  | .write fd data, o, s => s.withDisk (s.disk.write fd data o)
  | .internalFsync fd, o, s => s.withDisk (s.disk.internalFsync fd o)
  | .close _, _, s => ((), s)
  | .rename src dst, o, s => s.withDisk (s.disk.rename src dst o)
  | .remove p, o, s => s.withDisk (s.disk.remove p o)
  | .fileSize p, o, s => (s.disk.fileSize p o, s)
  | .read fd count, o, s => (s.disk.read fd count o, s)
  | .listRecursive, o, s => (s.disk.listRecursive o, s)
  | .space, o, s => (match o with | .ok => .ok s.disk.available | .fail m | .short m _ => .error m, s)
  | .fetchAdd c n, _, s => ((), s.setCounter c (s.counter c + n))
  | .fetchSub c n, _, s => ((), s.setCounter c (s.counter c + 2 ^ 64 - n % 2 ^ 64))
  | .load c, _, s => (s.counter c, s)
  | .store c n, _, s => ((), s.setCounter c n)

theorem exec_existsPath_ok (p : Path) (s : Store) :
    (Call.existsPath p).exec .ok s = (((s.disk.node p).isSome, none), s) := rfl

/-- The existence and size probes. -/
def Call.isProbe : Call → Bool
  | .existsPath _ => true
  | .fileSize _ => true
  | _ => false

/-- Which calls may go wrong: the probes, the others. -/
structure Policy where
  fault : Bool
  probeFault : Bool
deriving DecidableEq

/-- No call goes wrong. -/
def Policy.noFault : Policy := ⟨false, false⟩

/-- Any call may go wrong, but not the probes. -/
def Policy.faithfulProbes : Policy := ⟨true, false⟩

/-- Any call may go wrong. -/
def Policy.anyFault : Policy := ⟨true, true⟩

def Policy.allows (pol : Policy) (c : Call) (o : Outcome) : Prop :=
  o = .ok ∨ (if c.isProbe then pol.probeFault else pol.fault) = true

/-- Where probes are faithful, one that is made works. -/
theorem Policy.allows_probe {c : Call} {o : Outcome} (hc : c.isProbe = true)
    (h : Policy.faithfulProbes.allows c o) : o = .ok := by
  simpa [Policy.allows, Policy.faithfulProbes, hc] using h

/-- The meaning of the calls under a policy. -/
def Policy.sem (pol : Policy) (c : Call) (s : Store) (r : c.Ret) (s' : Store) : Prop :=
  ∃ o, pol.allows c o ∧ c.exec o s = (r, s')

theorem Policy.sem_ok (pol : Policy) (c : Call) (s : Store) :
    pol.sem c s (c.exec .ok s).1 (c.exec .ok s).2 :=
  ⟨.ok, .inl rfl, rfl⟩

theorem Policy.sem.outcome {pol : Policy} {c : Call} {s s' : Store} {r : c.Ret}
    (h : pol.sem c s r s') :
    ∃ o, pol.allows c o ∧ r = (c.exec o s).1 ∧ s' = (c.exec o s).2 := by
  obtain ⟨o, ha, he⟩ := h
  exact ⟨o, ha, by rw [he], by rw [he]⟩

/-- What a call may answer. -/
def Call.Answers (c : Call) (r : c.Ret) : Prop := ∃ oc s, r = (c.exec oc s).1

theorem Policy.sem.answers {pol : Policy} (c : Call) (s : Store) (r : c.Ret) (t : Store)
    (h : pol.sem c s r t) : c.Answers r := by
  obtain ⟨oc, _, rfl, _⟩ := h.outcome
  exact ⟨oc, s, rfl⟩

/-- Without faults a call has one answer. -/
theorem noFault_sem_iff (c : Call) (s : Store) (r : c.Ret) (s' : Store) :
    Policy.noFault.sem c s r s' ↔ c.exec .ok s = (r, s') := by
  constructor
  · intro hsem
    obtain ⟨o, rfl | h, he⟩ := hsem
    · exact he
    · cases c <;> simp [Policy.noFault, Call.isProbe] at h
  · intro h
    exact ⟨.ok, .inl rfl, h⟩

/-- Under every policy a call has an answer. -/
theorem sem_total (pol : Policy) (c : Call) (s : Store) : ∃ r s', pol.sem c s r s' :=
  ⟨_, _, pol.sem_ok c s⟩

/-- What no fault allows, every policy allows. -/
theorem noFault_sem_le (pol : Policy) (c : Call) (s : Store) (r : c.Ret) (s' : Store)
    (h : Policy.noFault.sem c s r s') : pol.sem c s r s' :=
  ⟨.ok, .inl rfl, (noFault_sem_iff c s r s').mp h⟩

/-! ## Crashes -/

/-- What an entry may hold after a crash. -/
def Node.Survives : Node → Node → Prop
  | .dir, n => n = .dir
  | .file b dirty, n => ∃ b', n = .file b' false ∧ (dirty = false → b' = b)

/-- The entry and all the directories above it were synced. -/
def Disk.Durable (d : Disk) (p : Path) : Prop :=
  ∀ q, q <+: p → d.durable q = true ∧ d.node q ≠ none

/-- `d'` is a tree that may be found after a crash at `d`. -/
structure Crash (d d' : Disk) : Prop where
  found : ∀ p n', d'.node p = some n' →
    ∃ n, (d.node p = some n ∨ n ∈ d.lost p) ∧ n.Survives n'
  kept : ∀ p n, d.node p = some n → d.Durable p → ∃ n', d'.node p = some n' ∧ n.Survives n'
  rooted : ∀ p, p ≠ [] → d'.node p ≠ none → d'.node p.dropLast = some .dir
  settled : ∀ p, d'.durable p = true ∧ d'.lost p = []

end NimbusFs.StorageNode
