import NimbusFs.Lib.Durable
import NimbusFs.StorageNode.Listing
import NimbusFs.StorageNode.Reads

/-! # A server that is killed

The process of a node may be killed at any moment, with any requests under way on any
number of threads. The tree stays as the calls made so far left it; the locks and the
counters are gone, and the node comes up again once a constructor of its store
returns. The chunks come through this: the answers of all lives of the node are those
of one order of the requests in each life, and each life begins with the chunks that
the one before ended with. A request that was cut off took effect as a whole, or not
at all. -/
namespace NimbusFs.StorageNode

open NimbusFs.Common Lib

/-! ## Coming up again -/

/-- Constructors run on the tree that a killed process left, until one returns. Those
before it throw, or are killed on the way. -/
inductive ComesUp (pol : Policy) : Store → Store → Prop
  | up {s x y} : x.disk = s.disk → construct.Runs pol.sem x (.ok ()) y → ComesUp pol s y
  | again {s x y z} : x.disk = s.disk → construct.Reaches pol.sem x y → ComesUp pol y z →
      ComesUp pol s z

section Kills

variable {sha256 : Bytes → Digest} {pol : Policy} {service : Service} {allowed : Reply → Prop}
variable {served : Request → Prop} {reentrant : Bool} {s s' : Store}

theorem view_of_disk {x : Store} (h : x.disk = s.disk) : view x = view s := by
  funext id
  rw [view, view, h]

/-- No constructor touches the chunks, however far it gets. -/
theorem ComesUp.view (hinv : DiskInv sha256 s.disk) (h : ComesUp pol s s') :
    DiskInv sha256 s'.disk ∧ view s' = view s := by
  have hstep : ∀ {s x y : Store}, DiskInv sha256 s.disk → x.disk = s.disk →
      construct.Reaches pol.sem x y → DiskInv sha256 y.disk ∧ StorageNode.view y = StorageNode.view s := by
    intro s x y hinv hx hreach
    rw [← hx] at hinv
    obtain ⟨hy, hsame | ⟨_, hsame⟩⟩ := (prog_linSim sha256 pol default .construct).reaches hinv hreach
    · exact ⟨hy, hsame.trans (view_of_disk hx)⟩
    · exact ⟨hy, (show StorageNode.view y = StorageNode.view x from hsame).trans (view_of_disk hx)⟩
  induction h with
  | up hx hrun => exact hstep hinv hx hrun.reaches
  | again hx hreach _ ih =>
    obtain ⟨hy, hview⟩ := hstep hinv hx hreach
    obtain ⟨hz, hview'⟩ := ih hy
    exact ⟨hz, hview'.trans hview⟩

variable {T : Type} [DecidableEq T] {hists : List (List (Event T Request Request.Ret))}

/-- **Requests are atomic across kills.** A node whose files are right at the start is
killed at any moment, as often as one likes, with any requests under way on any number of
threads, and comes up again each time; any call may fail, before and after. The answers of
each life, and the messages written in it, are those of some order of its requests, each
handled alone over the map of the chunks, and a life begins with the chunks that this order
left in the life before. The counters in the answers of `GetNodeStats` are left free. -/
theorem node_durably_linearizable (hinv : DiskInv sha256 s.disk)
    (h : Lives (nodeSystem sha256 pol service allowed served reentrant) (ComesUp pol) s hists s') :
    DurablyLinearizable (AtomicRequest sha256 pol service allowed) (view s) hists (view s') :=
  h.durablyLinearizable nodeSystem_linSim (fun _ _ hc => hc) (fun _ _ hs hup => hup.view hs) hinv

end Kills

/-! ## A kill in the middle of a download -/

/-- Where no call fails, the constructor returns, unless the root is a regular file. -/
theorem execute_construct {s : Store} (hfile : s.disk.isFile [] = false) :
    (execute construct s).1 = .ok () := by
  rw [execute, construct, sys, Prog.perform_bind, Prog.run_call, exec_existsPath_ok]
  cases hroot : s.disk.node [] with
  | some n =>
    have hstep : (Call.listRecursive).exec .ok s = (.ok s.disk.listing, s) := by
      simp only [Call.exec, Disk.listRecursive_ok hroot hfile]
      rfl
    simp only [Option.isSome_some, if_true, sys, Prog.perform_bind, Prog.run_call, hstep]
    rfl
  | none =>
    have hmkdir : ((Call.createDirectories []).exec .ok s).1 = none := by
      simp [Call.exec, Store.withDisk, Disk.createDirectories, Disk.isFile, hroot]
    simp only [Option.isSome_none, Bool.false_eq_true, if_false, sys, Prog.perform_bind,
      Prog.run_call, hmkdir]
    rfl

theorem boots_booted (pol : Policy) {s : Store} (hfile : s.disk.isFile [] = false) :
    Boots pol.sem Store.disk s.disk (booted s) :=
  boots_run pol.sem_ok (execute_construct hfile)

theorem comesUp_booted (pol : Policy) {s : Store} (hfile : s.disk.isFile [] = false) :
    ComesUp pol s (booted s) := by
  have hruns := Prog.runs_run pol.sem_ok construct s
  rw [show (construct.run (fun c s => c.exec .ok s) s).1 = .ok () from execute_construct hfile] at hruns
  exact .up rfl hruns

/-- A server comes up on an empty root. -/
theorem boots_empty :
    Boots Policy.faithfulProbes.sem Store.disk Disk.empty (booted .empty) := by
  have hempty : DiskInv knownSha256 Disk.empty := Disk.isEmpty_empty.inv
  exact boots_booted (s := Store.empty) _ hempty.isFile_root

theorem booted_empty_inv : DiskInv knownSha256 (booted .empty).disk :=
  boots_inv Disk.isEmpty_empty.inv boots_empty

/-- A server that keeps chunks of at most three bytes. -/
abbrev smallServer :=
  nodeSystem knownSha256 .faithfulProbes { maxChunkBytes := 3 } (fun _ => True) (fun _ => True) true

/-- A download has begun, `abc` is uploaded, and the server is killed. -/
def cutOffAbc : List (Event Bool Request Request.Ret) :=
  [.inv 0 true downloadAbc, .inv 1 false uploadAbc,
    .res 1 false uploadAbc (putChunkAnswer (.ok ()), [])]

theorem cutOffAbc_lives :
    ∃ s, Lives smallServer (ComesUp .faithfulProbes) Store.empty [cutOffAbc] s := by
  have himpl : ∀ q, smallServer.impl q (smallProg q) := fun q => ⟨trivial, default, rfl⟩
  have hstart : Reachable smallServer Store.empty
      ((Config.init Store.empty : NodeConfig Bool).start true downloadAbc (smallProg downloadAbc)) :=
    Relation.ReflTransGen.refl.tail (.invoke rfl (himpl downloadAbc))
  obtain ⟨hrun, hres⟩ := smallProg_uploadAbc
  obtain ⟨c, hc, _, _, hhist⟩ := hstart.invoke_alone (t := false) rfl
    (plainStep_sem .faithfulProbes) rfl (fun _ => rfl) (himpl uploadAbc) hrun
  have hcut : c.hist = cutOffAbc := hhist.trans (congrArg (fun x => [Event.inv 0 true downloadAbc,
    Event.inv 1 false uploadAbc, Event.res 1 false uploadAbc x]) hres)
  have hinv : DiskInv knownSha256 c.state.disk := node_reachable_inv Disk.isEmpty_empty.inv hc
  exact ⟨booted c.state, hcut ▸ .cons hc (comesUp_booted _ hinv.isFile_root) .nil⟩

theorem node_durably_linearizable_abc :
    ∃ s, Lives smallServer (ComesUp .faithfulProbes) Store.empty [cutOffAbc] s ∧
      DurablyLinearizable (AtomicRequest knownSha256 .faithfulProbes { maxChunkBytes := 3 }
        fun _ => True) (view Store.empty) [cutOffAbc] (view s) := by
  obtain ⟨s, hs⟩ := cutOffAbc_lives
  exact ⟨s, hs, node_durably_linearizable Disk.isEmpty_empty.inv hs⟩

end NimbusFs.StorageNode
