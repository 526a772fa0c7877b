import Mathlib.Algebra.Group.Int.Defs
import NimbusFs.StorageNode.Statistics

/-! # A store that is stopped and constructed again

The process may stop at any moment, alone or with the machine, also while it
constructs the store. Constructors are then run on what is left until one
returns. The counters are set by it alone, so a ledger goes along: the values
the two counters would have if they were not 64 bits wide and could go below
zero. No program sees it. -/
namespace NimbusFs.StorageNode

open NimbusFs.Common Lib

/-! ## Stops and starts -/

/-- What a process that stopped leaves: the tree as it was, or, where the machine
went down, what a crash may leave of it. -/
def Stopped (d d' : Disk) : Prop := d' = d ∨ Crash d d'

section Restart

variable {S : Type} (sem : (c : Call) → S → c.Ret → S → Prop) (disk : S → Disk)

/-- Constructors run one after the other until one returns. Those before it throw,
or stop on the way. -/
inductive Boots : Disk → S → Prop
  | up {d x y} : disk x = d → construct.Runs sem x (.ok ()) y → Boots d y
  | again {d x y d' z} : disk x = d → construct.Reaches sem x y → Stopped (disk y) d' →
      Boots d' z → Boots d z

/-- Threads that call any operation on a store that may be stopped at any moment
and is then constructed again. Each call draws some temporary name. -/
def restartSystem (sha256 : Bytes → Digest) : System (Fin 256) Call Call.Ret S StoreOp StoreOp.Ret where
  impl o p := o.IsMethod ∧ ∃ uuid, p = o.prog sha256 uuid
  sem := sem
  crash x y := ∃ d, Stopped (disk x) d ∧ Boots sem disk d y
  reentrant := true

/-- A constructor with every call answered by `step`. -/
theorem boots_run {sem : (c : Call) → S → c.Ret → S → Prop} {disk : S → Disk}
    {step : (c : Call) → S → c.Ret × S} (hstep : ∀ c s, sem c s (step c s).1 (step c s).2) {x : S}
    (hok : (construct.run step x).1 = .ok ()) : Boots sem disk (disk x) (construct.run step x).2 := by
  have hruns := Prog.runs_run hstep construct x
  rw [hok] at hruns
  exact .up rfl hruns

end Restart

theorem Disk.IsTree.stopped {d d' : Disk} (h : d.IsTree) (hs : Stopped d d') : d'.IsTree := by
  rcases hs with rfl | hc
  · exact h
  · exact hc.rooted

/-! ## The ledger -/

/-- A store, with the exact values of its counters. -/
structure Audited where
  store : Store
  exact : Counter → Int

/-- What a call does to the exact values. -/
def Call.ledger : Call → (Counter → Int) → Counter → Int
  | .fetchAdd x n, e => Function.update e x (e x + n)
  | .fetchSub x n, e => Function.update e x (e x - n)
  | .store x n, e => Function.update e x n
  | _, e => e

/-- The calls, with the ledger. -/
def audited (pol : Policy) (c : Call) (a : Audited) (r : c.Ret) (a' : Audited) : Prop :=
  pol.sem c a.store r a'.store ∧ a'.exact = c.ledger a.exact

/-- A store that is stopped and constructed again, with the ledger. -/
abbrev auditedSystem (sha256 : Bytes → Digest) (pol : Policy) :
    System (Fin 256) Call Call.Ret Audited StoreOp StoreOp.Ret :=
  restartSystem (audited pol) (fun a => a.store.disk) sha256

/-- The same without the ledger. -/
abbrev storeRestarts (sha256 : Bytes → Digest) (pol : Policy) :
    System (Fin 256) Call Call.Ret Store StoreOp StoreOp.Ret :=
  restartSystem pol.sem Store.disk sha256

section Audited

variable {sha256 : Bytes → Digest} {pol : Policy}

theorem audited.outcome {c : Call} {a b : Audited} {r : c.Ret} (h : audited pol c a r b) :
    ∃ oc, pol.allows c oc ∧ r = (c.exec oc a.store).1 ∧
      b = ⟨(c.exec oc a.store).2, c.ledger a.exact⟩ := by
  obtain ⟨store, exact⟩ := b
  obtain ⟨hsem, hledger⟩ := h
  obtain ⟨oc, ha, hr, hs⟩ := hsem.outcome
  exact ⟨oc, ha, hr, congrArg₂ Audited.mk hs hledger⟩

/-- `a` is `s` with some ledger. -/
structure IsStoreOf (s : Store) (a : Audited) : Prop where
  eq : a.store = s

/-- A ledger can be kept for every call. -/
theorem exists_audited (c : Call) (s : Store) (a : Audited) (r : c.Ret) (t : Store)
    (ha : IsStoreOf s a) (h : pol.sem c s r t) : ∃ b, audited pol c a r b ∧ IsStoreOf t b :=
  ⟨⟨t, c.ledger a.exact⟩, ⟨ha.eq ▸ h, rfl⟩, ⟨rfl⟩⟩

theorem boots_audited {d : Disk} {s : Store} (h : Boots pol.sem Store.disk d s) :
    ∃ a, Boots (audited pol) (fun a => a.store.disk) d a ∧ IsStoreOf s a := by
  induction h with
  | @up d x y hd hrun =>
    have hstart : IsStoreOf x ⟨x, fun _ => 0⟩ := ⟨rfl⟩
    obtain ⟨b, hb, hstore⟩ := Prog.Runs.transfer Policy.sem.answers (fun c _ => exists_audited c)
      (Prog.uses_true _ construct) hstart hrun
    exact ⟨b, .up (x := ⟨x, fun _ => 0⟩) hd hb, hstore⟩
  | @again d x y d' z hd hreach hstop _ ih =>
    obtain ⟨a, hboot, hstore⟩ := ih
    have hstart : IsStoreOf x ⟨x, fun _ => 0⟩ := ⟨rfl⟩
    obtain ⟨b, hb, ⟨rfl⟩⟩ := Prog.Reaches.transfer exists_audited hstart hreach
    exact ⟨a, .again (x := ⟨x, fun _ => 0⟩) hd hb hstop hboot, hstore⟩

/-- **Every run has a ledger.** -/
theorem reachable_audited {T : Type} [DecidableEq T] {s : Store} {a : Audited} (ha : IsStoreOf s a)
    {c : StoreConfig T} (h : Reachable (storeRestarts sha256 pol) s c) :
    ∃ b, IsStoreOf c.state b ∧ Reachable (auditedSystem sha256 pol) a (c.over b) := by
  have himpl : ∀ o p, (storeRestarts sha256 pol).impl o p → (auditedSystem sha256 pol).impl o p :=
    fun _ _ hp => hp
  refine h.simulate himpl exists_audited ?_ (fun hre => hre) ha
  intro s a t hrel hcrash
  obtain ⟨d, hstop, hboot⟩ := hcrash
  obtain ⟨b, hb, hstore⟩ := boots_audited hboot
  obtain ⟨rfl⟩ := hrel
  exact ⟨b, ⟨d, hstop, hb⟩, hstore⟩

end Audited

/-! ## What a constructor leaves -/

section Construct

variable {pol : Policy} {a b : Audited}

theorem total_eq_zero {d : Disk} (h : ∀ p, d.node p = none) (x : Counter) : d.total x = 0 := by
  rw [total_eq_degree]
  have hzero : d.counts x = 0 := by
    ext p
    rw [Disk.counts_apply, h p]
    rfl
  rw [hzero, map_zero]

/-- A tree without a root is empty. -/
theorem Disk.IsTree.empty_of_no_root {d : Disk} (h : d.IsTree) (hroot : d.node [] = none) (p : Path) :
    d.node p = none := by
  by_contra hp
  by_cases hnil : p = []
  · exact hp (hnil ▸ hroot)
  · have := h.above hp List.nil_prefix (Ne.symm hnil)
    rw [hroot] at this
    cases this

/-- The counters and the ledger are those of the files. -/
structure Balanced (a : Audited) : Prop where
  tree : a.store.disk.IsTree
  exact : ∀ x, a.exact x = a.store.disk.total x
  counter : CountersMatch a.store

/-- Both counters are set to what the files are. -/
theorem storeCounters_balanced {count bytes : Nat} {r r' : Except String Unit}
    (htree : a.store.disk.IsTree) (hcount : count = a.store.disk.total .chunkCount)
    (hbytes : bytes = a.store.disk.total .bytesUsed)
    (h : (storeCounters count bytes >>= fun _ => Prog.ret r).Runs (audited pol) a r' b) :
    Balanced b := by
  obtain ⟨_, _, h₁, _, _, h₂, _, rfl⟩ := h
  obtain ⟨_, -, -, rfl⟩ := h₁.outcome
  obtain ⟨_, -, -, rfl⟩ := h₂.outcome
  subst hcount hbytes
  refine ⟨htree, fun x => ?_, fun x => ?_⟩
  · cases x <;> rfl
  · cases x <;> rfl

theorem construct_balanced (htree : a.store.disk.IsTree)
    (h : construct.Runs (audited .faithfulProbes) a (.ok ()) b) : Balanced b := by
  obtain ⟨answer, _, hprobe, h⟩ := h
  obtain ⟨oc, ha, rfl, rfl⟩ := hprobe.outcome
  obtain rfl : oc = .ok := Policy.allows_probe rfl ha
  rw [exec_existsPath_ok] at h
  cases hroot : a.store.disk.node [] with
  | some n =>
    rw [hroot] at h
    obtain ⟨entries, _, hlist, h⟩ := h
    obtain ⟨oc, -, hentries, rfl⟩ := hlist.outcome
    cases entries with
    | error m => cases h.1
    | ok entries =>
      have hscan : scan entries =
          (a.store.disk.total .chunkCount, a.store.disk.total .bytesUsed) := by
        obtain ⟨-, rfl⟩ := Disk.listRecursive_eq_ok hentries.symm
        exact scan_listing _
      exact storeCounters_balanced htree (congrArg Prod.fst hscan) (congrArg Prod.snd hscan) h
  | none =>
    rw [hroot] at h
    obtain ⟨ec, _, hmkdir, h⟩ := h
    obtain ⟨oc, -, -, rfl⟩ := hmkdir.outcome
    cases ec with
    | some m => cases h.1
    | none =>
      have htouch : Touches (fun _ => False) a.store.disk (a.store.disk.createDirectories [] oc).2 :=
        touches_createDirectories (by simp) oc
      have htotal : ∀ x, (a.store.disk.createDirectories [] oc).2.total x = 0 := fun x =>
        (total_same fun p => htouch.weight not_false).trans
          (total_eq_zero (htree.empty_of_no_root hroot) x)
      exact storeCounters_balanced (htree.createDirectories [] oc) (htotal _).symm (htotal _).symm h

/-- **Whatever happened before, a constructor that returns has counted the files.** -/
theorem boots_balanced {d : Disk} (htree : d.IsTree)
    (h : Boots (audited .faithfulProbes) (fun a => a.store.disk) d a) : Balanced a := by
  induction h with
  | up hd hrun => exact construct_balanced (hd ▸ htree) hrun
  | again hd hreach hstop _ ih =>
    refine ih (Disk.IsTree.stopped ?_ hstop)
    refine hreach.keeps (I := fun a => a.store.disk.IsTree) (fun c s r t hs hc => ?_) (hd ▸ htree)
    obtain ⟨oc, -, -, rfl⟩ := hc.outcome
    exact c.exec_isTree oc hs

end Construct

end NimbusFs.StorageNode
