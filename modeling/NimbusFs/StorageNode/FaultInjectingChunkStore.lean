import Mathlib.Algebra.Group.Nat.Defs
import NimbusFs.StorageNode.AnyDisk
import NimbusFs.StorageNode.Node

/-! # `FaultInjectingChunkStore`

A chunk store that passes its calls on to another one, its delegate, unless a
fault was injected. Its controls and its calls come in any order. Which calls
are faulted is said of the commands before them alone; all the others are those
of the delegate. A latency only makes a call sleep, so nothing is said of it. -/
namespace NimbusFs.StorageNode

open NimbusFs.Common

/-! ## The state of the faults -/

structure FaultState where
  pendingOneShotFault : Option ChunkStoreError := none
  pendingNthCallFault : Option (Nat × ChunkStoreError) := none
  callCounter : Nat := 0
  pendingLatency : Int := 0

namespace FaultState

def injectFailureOnNextCall (f : FaultState) (errorToInject : ChunkStoreError) : FaultState :=
  { f with pendingOneShotFault := some errorToInject }

def injectFailureAfterNCalls (f : FaultState) (n : Nat) (errorToInject : ChunkStoreError) :
    FaultState :=
  { f with pendingNthCallFault := some (n, errorToInject), callCounter := 0 }

def injectLatency (f : FaultState) (latency : Int) : FaultState :=
  { f with pendingLatency := latency }

def clearInjectedFaults (f : FaultState) : FaultState :=
  { f with pendingOneShotFault := none, pendingNthCallFault := none, callCounter := 0,
           pendingLatency := 0 }

/-- Count the call. The counter is a `size_t`. -/
def countCall (f : FaultState) : FaultState :=
  { f with callCounter := (f.callCounter + 1) % 2 ^ 64 }

/-- `ShouldInjectFault`: the error to inject, if there is one. -/
def shouldInjectFault (f : FaultState) : Option ChunkStoreError × FaultState :=
  let f := f.countCall
  match f.pendingOneShotFault with
  | some e => (some e, { f with pendingOneShotFault := none })
  | none =>
    match f.pendingNthCallFault with
    | some (n, e) => if f.callCounter > n then (some e, f) else (none, f)
    | none => (none, f)

end FaultState

/-! ## The store -/

/-- What a faulted call returns. -/
def injectedResult : (o : StoreOp) → o.IsMethod → ChunkStoreError → o.Ret
  | .put _ _, _, e => .error ⟨e, "Injected Fault"⟩
  | .get _, _, e => .error ⟨e, "Injected Fault"⟩
  | .verifyOnly _, _, e => .error ⟨e, "Injected Fault"⟩
  | .delete _, _, e => .error ⟨e, "Injected Fault"⟩
  | .existsChunk _, _, _ => false
  | .getStats, _, _ => ⟨0, 0, 0⟩
  | .listAllChunkIds, _, _ => .ok []
  | .construct, h, _ => h.elim

/-- The faults, and the state of the delegate. -/
structure FaultInjecting (S : Type) where
  faults : FaultState
  delegate : S

/-- One of the seven operations. -/
def callStore {S : Type} (delegate : ChunkStoreSem S) (o : StoreOp) (ho : o.IsMethod)
    (x : FaultInjecting S) (r : o.Ret) (x' : FaultInjecting S) : Prop :=
  match x.faults.shouldInjectFault with
  | (some injectedError, f) => r = injectedResult o ho injectedError ∧ x' = ⟨f, x.delegate⟩
  | (none, f) => delegate o x.delegate r x'.delegate ∧ x'.faults = f

/-- What a client of the store does: set a fault, or call an operation. -/
inductive Command
  | injectFailureOnNextCall (errorToInject : ChunkStoreError)
  | injectFailureAfterNCalls (n : Nat) (errorToInject : ChunkStoreError)
  | injectLatency (latency : Int)
  | clearInjectedFaults
  | call (o : StoreOp) (ho : o.IsMethod)

def Command.isCall : Command → Bool
  | .call _ _ => true
  | _ => false

/-- What a command does to the faults. -/
def Command.update : Command → FaultState → FaultState
  | .injectFailureOnNextCall e, f => f.injectFailureOnNextCall e
  | .injectFailureAfterNCalls n e, f => f.injectFailureAfterNCalls n e
  | .injectLatency latency, f => f.injectLatency latency
  | .clearInjectedFaults, f => f.clearInjectedFaults
  | .call _ _, f => f.shouldInjectFault.2

/-- A call that was made: what was injected, if anything, and what it returned. -/
structure CallRecord where
  op : StoreOp
  method : op.IsMethod
  fault : Option ChunkStoreError
  result : op.Ret

/-- The commands one after the other, with a record of each call. -/
inductive CommandRun {S : Type} (delegate : ChunkStoreSem S) :
    FaultInjecting S → List Command → List CallRecord → FaultInjecting S → Prop
  | nil (x) : CommandRun delegate x [] [] x
  | control {x c rest records y} : c.isCall = false →
      CommandRun delegate ⟨c.update x.faults, x.delegate⟩ rest records y →
      CommandRun delegate x (c :: rest) records y
  | call {x o ho r x' rest records y} : callStore delegate o ho x r x' →
      CommandRun delegate x' rest records y →
      CommandRun delegate x (.call o ho :: rest) (⟨o, ho, x.faults.shouldInjectFault.1, r⟩ :: records) y

/-- Operations of the delegate alone, one after the other. -/
def DelegateRun {S : Type} (delegate : ChunkStoreSem S) : S → List CallRecord → S → Prop
  | s, [], t => t = s
  | s, x :: rest, t => ∃ u, delegate x.op s x.result u ∧ DelegateRun delegate u rest t

/-- The calls of the commands, with what is injected into each. -/
def faultPlan : FaultState → List Command → List (StoreOp × Option ChunkStoreError)
  | _, [] => []
  | f, c :: rest =>
    match c with
    | .call o _ => (o, f.shouldInjectFault.1) :: faultPlan f.shouldInjectFault.2 rest
    | c => faultPlan (c.update f) rest

/-! ## Which calls are faulted -/

/-- How many operations are called. -/
def callCount (cs : List Command) : Nat := cs.countP Command.isCall

theorem callCount_cons (c : Command) (cs : List Command) :
    callCount (c :: cs) = callCount cs + if c.isCall then 1 else 0 :=
  List.countP_cons

theorem callCount_append (cs cs' : List Command) :
    callCount (cs ++ cs') = callCount cs + callCount cs' :=
  List.countP_append

/-- `c` is in the list, `since` is what comes after it, and all that is quiet. -/
def Since (quiet : Command → Prop) (before : List Command) (c : Command) (since : List Command) :
    Prop :=
  (∃ earlier, before = earlier ++ c :: since) ∧ ∀ d ∈ since, quiet d

/-- What leaves a one-shot fault as it is: it does not clear it, does not replace
it, and is no call that would consume it. -/
def Command.KeepsOneShot : Command → Prop
  | .injectFailureAfterNCalls _ _ | .injectLatency _ => True
  | .injectFailureOnNextCall _ | .clearInjectedFaults | .call _ _ => False

/-- What leaves an after-N fault armed. -/
def Command.KeepsNthCall : Command → Prop
  | .injectFailureOnNextCall _ | .injectLatency _ | .call _ _ => True
  | .injectFailureAfterNCalls _ _ | .clearInjectedFaults => False

/-- A one-shot fault with this error was armed and neither consumed nor cleared since. -/
def OneShotPending (before : List Command) (e : ChunkStoreError) : Prop :=
  ∃ since, Since Command.KeepsOneShot before (.injectFailureOnNextCall e) since

/-- An after-N fault with this error is armed, and the next call comes after the
N-th one since. -/
def NthCallDue (before : List Command) (e : ChunkStoreError) : Prop :=
  ∃ n since, Since Command.KeepsNthCall before (.injectFailureAfterNCalls n e) since ∧
    n < callCount since + 1

/-- The next call is faulted with this error. The one-shot fault comes first. -/
def FaultDue (before : List Command) (e : ChunkStoreError) : Prop :=
  OneShotPending before e ∨ ((∀ e', ¬ OneShotPending before e') ∧ NthCallDue before e)

theorem since_snoc {quiet : Command → Prop} {before since : List Command} {c d : Command} :
    Since quiet (before ++ [d]) c since ↔
      (d = c ∧ since = []) ∨ ∃ since', since = since' ++ [d] ∧ quiet d ∧ Since quiet before c since' := by
  constructor
  · intro h
    obtain ⟨⟨earlier, heq⟩, hq⟩ := h
    rcases List.eq_nil_or_concat since with rfl | ⟨since', d', rfl⟩
    · have hlast := (List.append_inj' heq rfl).2
      exact .inl ⟨by simpa using hlast, rfl⟩
    · rw [List.concat_eq_append, ← List.cons_append, ← List.append_assoc] at heq
      obtain ⟨hbefore, hd⟩ := List.append_inj' heq rfl
      obtain rfl : d = d' := by simpa using hd
      rw [List.concat_eq_append] at hq ⊢
      refine .inr ⟨since', rfl, hq d (by simp), ⟨earlier, hbefore⟩, fun x hx => hq x (by simp [hx])⟩
  · intro h
    rcases h with ⟨rfl, rfl⟩ | ⟨since', rfl, hd, ⟨earlier, rfl⟩, hq⟩
    · exact ⟨⟨before, rfl⟩, by simp⟩
    · refine ⟨⟨earlier, by simp⟩, fun x hx => ?_⟩
      rcases List.mem_append.mp hx with hx | hx
      · exact hq x hx
      · rw [List.mem_singleton.mp hx]; exact hd

/-- The faults after these commands. -/
def faultsAfter (before : List Command) : FaultState := before.foldl (fun f c => c.update f) {}

@[simp] theorem faultsAfter_snoc (before : List Command) (c : Command) :
    faultsAfter (before ++ [c]) = c.update (faultsAfter before) := by
  simp [faultsAfter]

/-- A call consumes the one-shot fault, and is counted. -/
theorem shouldInjectFault_snd (f : FaultState) :
    f.shouldInjectFault.2 = { f.countCall with pendingOneShotFault := none } := by
  obtain ⟨oneShot, nthCall, callCounter, latency⟩ := f
  cases oneShot with
  | some e => rfl
  | none =>
    cases nthCall with
    | none => rfl
    | some x =>
      simp only [FaultState.shouldInjectFault, FaultState.countCall]
      exact apply_ite Prod.snd _ _ _ |>.trans (ite_self _)

theorem oneShotPending_snoc {before : List Command} {c : Command} {e : ChunkStoreError} :
    OneShotPending (before ++ [c]) e ↔
      c = .injectFailureOnNextCall e ∨ (c.KeepsOneShot ∧ OneShotPending before e) := by
  unfold OneShotPending
  simp only [since_snoc]
  constructor
  · intro h
    obtain ⟨_, ⟨rfl, _⟩ | ⟨since', _, hc, hs⟩⟩ := h
    · exact .inl rfl
    · exact .inr ⟨hc, since', hs⟩
  · intro h
    rcases h with rfl | ⟨hc, since', hs⟩
    · exact ⟨[], .inl ⟨rfl, rfl⟩⟩
    · exact ⟨_, .inr ⟨since', rfl, hc, hs⟩⟩

/-- What the commands before say of the faults that are pending. -/
structure FaultsDescribed (before : List Command) (f : FaultState) : Prop where
  oneShot : ∀ e, f.pendingOneShotFault = some e ↔ OneShotPending before e
  armed : ∀ n e, f.pendingNthCallFault = some (n, e) →
    ∃ since, Since Command.KeepsNthCall before (.injectFailureAfterNCalls n e) since
  counted : ∀ n e since, Since Command.KeepsNthCall before (.injectFailureAfterNCalls n e) since →
    f.pendingNthCallFault = some (n, e) ∧ f.callCounter = callCount since % 2 ^ 64

theorem FaultsDescribed.oneShot_snoc {before : List Command} {f : FaultState}
    (h : FaultsDescribed before f) (c : Command) (e : ChunkStoreError) :
    (c.update f).pendingOneShotFault = some e ↔ OneShotPending (before ++ [c]) e := by
  rw [oneShotPending_snoc, ← h.oneShot e]
  cases c <;> simp [Command.update, Command.KeepsOneShot, FaultState.injectFailureOnNextCall,
    FaultState.injectFailureAfterNCalls, FaultState.injectLatency, FaultState.clearInjectedFaults,
    shouldInjectFault_snd]

/-- A command that keeps an after-N fault armed counts if it is a call. -/
theorem update_of_keepsNthCall {c : Command} (hc : c.KeepsNthCall) (f : FaultState) :
    (c.update f).pendingNthCallFault = f.pendingNthCallFault ∧
      (c.update f).callCounter =
        if c.isCall then (f.callCounter + 1) % 2 ^ 64 else f.callCounter := by
  cases c with
  | injectFailureOnNextCall e => exact ⟨rfl, rfl⟩
  | injectLatency latency => exact ⟨rfl, rfl⟩
  | call o ho =>
    simp only [Command.update, shouldInjectFault_snd]
    exact ⟨rfl, rfl⟩
  | injectFailureAfterNCalls n e => exact hc.elim
  | clearInjectedFaults => exact hc.elim

theorem FaultsDescribed.snoc {before : List Command} {f : FaultState}
    (h : FaultsDescribed before f) (c : Command) :
    FaultsDescribed (before ++ [c]) (c.update f) where
  oneShot := h.oneShot_snoc c
  armed n e hf := by
    by_cases hc : c.KeepsNthCall
    · rw [(update_of_keepsNthCall hc f).1] at hf
      obtain ⟨since, hs⟩ := h.armed n e hf
      exact ⟨since ++ [c], since_snoc.mpr (.inr ⟨since, rfl, hc, hs⟩)⟩
    · cases c with
      | injectFailureAfterNCalls n' e' =>
        cases hf
        exact ⟨[], since_snoc.mpr (.inl ⟨rfl, rfl⟩)⟩
      | clearInjectedFaults => cases hf
      | injectFailureOnNextCall e' => exact absurd trivial hc
      | injectLatency latency => exact absurd trivial hc
      | call o ho => exact absurd trivial hc
  counted n e since hs := by
    rcases since_snoc.mp hs with ⟨rfl, rfl⟩ | ⟨since', rfl, hc, hs'⟩
    · exact ⟨rfl, rfl⟩
    · obtain ⟨hpending, hcounter⟩ := h.counted n e since' hs'
      obtain ⟨hnth, hcount⟩ := update_of_keepsNthCall hc f
      refine ⟨hnth.trans hpending, ?_⟩
      rw [hcount, hcounter, callCount_append, callCount_cons]
      by_cases hcall : c.isCall <;> simp [callCount, hcall]

theorem faultsDescribed (before : List Command) : FaultsDescribed before (faultsAfter before) := by
  induction before using List.reverseRecOn with
  | nil =>
    refine ⟨fun e => ⟨fun h => (nomatch h), fun h => ?_⟩, fun n e h => (nomatch h),
      fun n e since h => ?_⟩
    · obtain ⟨since, ⟨earlier, heq⟩, _⟩ := h
      simp at heq
    · obtain ⟨⟨earlier, heq⟩, _⟩ := h
      simp at heq
  | append_singleton before c ih =>
    rw [faultsAfter_snoc]
    exact ih.snoc c

theorem Since.callCount_le {quiet : Command → Prop} {before since : List Command} {c : Command}
    (h : Since quiet before c since) : callCount since ≤ callCount before := by
  obtain ⟨⟨earlier, rfl⟩, _⟩ := h
  rw [callCount_append, callCount_cons]
  omega

/-- When the after-N fault is due, as long as the counter has not gone round. -/
theorem nthCallDue_iff {before : List Command} (hcount : callCount before + 1 < 2 ^ 64)
    {n : Nat} {e : ChunkStoreError}
    (hnth : (faultsAfter before).pendingNthCallFault = some (n, e)) (e' : ChunkStoreError) :
    NthCallDue before e' ↔ (faultsAfter before).countCall.callCounter > n ∧ e = e' := by
  have hd := faultsDescribed before
  obtain ⟨since, hs⟩ := hd.armed n e hnth
  have hcalls : ∀ since', Since Command.KeepsNthCall before (.injectFailureAfterNCalls n e) since' →
      (faultsAfter before).countCall.callCounter = callCount since' + 1 := by
    intro since' hs'
    have hle := hs'.callCount_le
    have hcounter := (hd.counted n e since' hs').2
    simp only [FaultState.countCall, hcounter]
    omega
  constructor
  · intro h
    obtain ⟨n', since', hs', hlt⟩ := h
    have hsame := (hd.counted n' e' since' hs').1
    rw [hnth] at hsame
    cases hsame
    exact ⟨by rw [hcalls since' hs']; exact hlt, rfl⟩
  · intro h
    obtain ⟨hlt, rfl⟩ := h
    exact ⟨n, since, hs, by rw [hcalls since hs] at hlt; exact hlt⟩

/-- The next call is faulted as the commands before it say, as long as the
counter has not gone round. -/
theorem shouldInjectFault_iff {before : List Command} (hcount : callCount before + 1 < 2 ^ 64)
    (e : ChunkStoreError) :
    (faultsAfter before).shouldInjectFault.1 = some e ↔ FaultDue before e := by
  have hd := faultsDescribed before
  unfold FaultState.shouldInjectFault
  dsimp only
  cases hone : (faultsAfter before).countCall.pendingOneShotFault with
  | some e' =>
    have hpending : OneShotPending before e' := (hd.oneShot e').mp hone
    constructor
    · intro h
      cases h
      exact .inl hpending
    · intro h
      rcases h with h | ⟨hno, _⟩
      · exact hone.symm.trans ((hd.oneShot e).mpr h)
      · exact absurd hpending (hno e')
  | none =>
    have hno : ∀ e', ¬ OneShotPending before e' := by
      intro e' h
      have := (hd.oneShot e').mpr h
      rw [show (faultsAfter before).pendingOneShotFault = none from hone] at this
      cases this
    have hdue : FaultDue before e ↔ NthCallDue before e :=
      ⟨fun h => (h.resolve_left (hno e)).2, fun h => .inr ⟨hno, h⟩⟩
    rw [hdue]
    cases hnth : (faultsAfter before).countCall.pendingNthCallFault with
    | none =>
      refine ⟨fun h => (nomatch h), fun h => ?_⟩
      obtain ⟨n, since, hs, _⟩ := h
      have := (hd.counted n e since hs).1
      rw [show (faultsAfter before).pendingNthCallFault = none from hnth] at this
      cases this
    | some x =>
      rw [nthCallDue_iff hcount hnth]
      by_cases hlt : (faultsAfter before).countCall.callCounter > x.1 <;> simp [hlt]

/-! ## Every other call is the delegate's -/

section Delegate

variable {S : Type} {delegate : ChunkStoreSem S}

/-- What an operation returns when `e` is injected: the error, with its text, where it
can return one, and else what an empty store would say. -/
def ReportsFault (e : ChunkStoreError) : (o : StoreOp) → o.Ret → Prop
  | .put _ _, r => r = .error ⟨e, "Injected Fault"⟩
  | .get _, r => r = .error ⟨e, "Injected Fault"⟩
  | .verifyOnly _, r => r = .error ⟨e, "Injected Fault"⟩
  | .delete _, r => r = .error ⟨e, "Injected Fault"⟩
  | .existsChunk _, r => r = false
  | .getStats, r => r.chunkCount = 0 ∧ r.bytesUsed = 0 ∧ r.bytesFree = 0
  | .listAllChunkIds, r => r = .ok []
  | .construct, _ => False

theorem reportsFault_iff {o : StoreOp} (ho : o.IsMethod) {e : ChunkStoreError} {r : o.Ret} :
    ReportsFault e o r ↔ r = injectedResult o ho e := by
  cases o with
  | put id data => rfl
  | get id => rfl
  | verifyOnly id => rfl
  | delete id => rfl
  | existsChunk id => rfl
  | getStats =>
    constructor
    · intro h
      obtain ⟨hcount, hused, hfree⟩ := h
      cases r
      simp_all [injectedResult]
    · rintro rfl
      exact ⟨rfl, rfl, rfl⟩
  | listAllChunkIds => rfl
  | construct => exact ho.elim

/-- A faulted call returns what was injected. -/
def CallRecord.Injected (x : CallRecord) : Prop :=
  ∀ e, x.fault = some e → ReportsFault e x.op x.result

theorem commandRun_control {x y : FaultInjecting S} {c : Command} {rest : List Command}
    {records : List CallRecord} (hc : c.isCall = false) :
    CommandRun delegate x (c :: rest) records y ↔
      CommandRun delegate ⟨c.update x.faults, x.delegate⟩ rest records y := by
  constructor
  · intro h
    cases h with
    | control _ h => exact h
    | call _ _ => cases hc
  · exact .control hc

theorem commandRun_call {x y : FaultInjecting S} {o : StoreOp} {ho : o.IsMethod}
    {rest : List Command} {records : List CallRecord} :
    CommandRun delegate x (.call o ho :: rest) records y ↔
      ∃ r x' records', records = ⟨o, ho, x.faults.shouldInjectFault.1, r⟩ :: records' ∧
        callStore delegate o ho x r x' ∧ CommandRun delegate x' rest records' y := by
  constructor
  · intro h
    cases h with
    | control hc _ => cases hc
    | call hcall h => exact ⟨_, _, _, rfl, hcall, h⟩
  · intro h
    obtain ⟨r, x', records', rfl, hcall, h⟩ := h
    exact .call hcall h

/-- What one call does to the faults and to the delegate. -/
theorem callStore_iff {o : StoreOp} {ho : o.IsMethod} {x x' : FaultInjecting S} {r : o.Ret} :
    callStore delegate o ho x r x' ↔
      x'.faults = x.faults.shouldInjectFault.2 ∧
      match x.faults.shouldInjectFault.1 with
      | some e => r = injectedResult o ho e ∧ x'.delegate = x.delegate
      | none => delegate o x.delegate r x'.delegate := by
  unfold callStore
  obtain ⟨fault, f⟩ := x.faults.shouldInjectFault
  obtain ⟨faults, d⟩ := x'
  cases fault with
  | some e =>
    simp only [FaultInjecting.mk.injEq]
    exact and_left_comm
  | none => exact and_comm

/-- The calls have the faults of the plan, the results that were injected, and the
others are a run of the delegate alone. -/
def FollowsPlan (delegate : ChunkStoreSem S) (x : FaultInjecting S) (cs : List Command)
    (records : List CallRecord) (y : FaultInjecting S) : Prop :=
  records.map (fun r => (r.op, r.fault)) = faultPlan x.faults cs ∧
  (∀ r ∈ records, r.Injected) ∧
  y.faults = cs.foldl (fun f c => c.update f) x.faults ∧
  DelegateRun delegate x.delegate (records.filter fun r => r.fault.isNone) y.delegate

section Plan

variable {x x' y : FaultInjecting S} {o : StoreOp} {ho : o.IsMethod} {rest : List Command}
variable {records : List CallRecord}

theorem followsPlan_nil : FollowsPlan delegate x [] records y ↔ records = [] ∧ y = x := by
  constructor
  · intro h
    obtain ⟨hplan, _, hf, hd⟩ := h
    obtain rfl := List.map_eq_nil_iff.mp hplan
    cases x; cases y
    cases hf; cases hd
    exact ⟨rfl, rfl⟩
  · intro h
    obtain ⟨rfl, rfl⟩ := h
    exact ⟨rfl, by simp, rfl, rfl⟩

/-- A call with its record goes before what follows the plan. -/
theorem FollowsPlan.cons {r : o.Ret} (hcall : callStore delegate o ho x r x')
    (h : FollowsPlan delegate x' rest records y) :
    FollowsPlan delegate x (.call o ho :: rest)
      (⟨o, ho, x.faults.shouldInjectFault.1, r⟩ :: records) y := by
  obtain ⟨hf, hr⟩ := callStore_iff.mp hcall
  obtain ⟨hplan, hinj, hfaults, hd⟩ := h
  rw [hf] at hplan hfaults
  refine ⟨?_, ?_, hfaults, ?_⟩
  · rw [List.map_cons, hplan]
    rfl
  · intro z hz
    rcases List.mem_cons.mp hz with rfl | hz
    · intro e he
      rw [show x.faults.shouldInjectFault.1 = some e from he] at hr
      exact (reportsFault_iff ho).mpr hr.1
    · exact hinj z hz
  · cases hfault : x.faults.shouldInjectFault.1 with
    | some e =>
      rw [hfault] at hr
      rw [← hr.2]
      exact hd
    | none =>
      rw [hfault] at hr
      exact ⟨x'.delegate, hr, hd⟩

/-- And what follows the plan of a call starts with that call. -/
theorem FollowsPlan.uncons (h : FollowsPlan delegate x (.call o ho :: rest) records y) :
    ∃ r x' records', records = ⟨o, ho, x.faults.shouldInjectFault.1, r⟩ :: records' ∧
      callStore delegate o ho x r x' ∧ FollowsPlan delegate x' rest records' y := by
  obtain ⟨hplan, hinj, hfaults, hd⟩ := h
  obtain ⟨⟨o', ho', fault, r⟩, records', rfl, hz, hrest⟩ := List.map_eq_cons_iff.mp hplan
  obtain ⟨rfl, rfl⟩ : o' = o ∧ fault = x.faults.shouldInjectFault.1 := by simpa using hz
  have hinj' := fun z hz => hinj z (List.mem_cons_of_mem _ hz)
  cases hfault : x.faults.shouldInjectFault.1 with
  | some e =>
    have hr := (reportsFault_iff ho').mp (hinj _ List.mem_cons_self e hfault)
    rw [List.filter_cons_of_neg (by simp [hfault])] at hd
    refine ⟨r, ⟨x.faults.shouldInjectFault.2, x.delegate⟩, records', rfl, ?_, ?_⟩
    · rw [callStore_iff, hfault]
      exact ⟨rfl, hr, rfl⟩
    · exact ⟨hrest, hinj', hfaults, hd⟩
  | none =>
    rw [List.filter_cons_of_pos (by simp [hfault])] at hd
    obtain ⟨u, hop, hd⟩ := hd
    refine ⟨r, ⟨x.faults.shouldInjectFault.2, u⟩, records', rfl, ?_, ?_⟩
    · rw [callStore_iff, hfault]
      exact ⟨rfl, hop⟩
    · exact ⟨hrest, hinj', hfaults, hd⟩

/-- A run is what follows the plan. -/
theorem commandRun_iff {cs : List Command} :
    CommandRun delegate x cs records y ↔ FollowsPlan delegate x cs records y := by
  induction cs generalizing x records with
  | nil =>
    rw [followsPlan_nil]
    constructor
    · intro h
      cases h
      exact ⟨rfl, rfl⟩
    · intro h
      obtain ⟨rfl, rfl⟩ := h
      exact .nil y
  | cons c rest ih =>
    cases c with
    | call o ho =>
      rw [commandRun_call]
      constructor
      · intro h
        obtain ⟨r, x', records', rfl, hcall, h⟩ := h
        exact (ih.mp h).cons hcall
      · intro h
        obtain ⟨r, x', records', rfl, hcall, h⟩ := h.uncons
        exact ⟨r, x', records', rfl, hcall, ih.mpr h⟩
    | injectFailureOnNextCall e => exact (commandRun_control rfl).trans ih
    | injectFailureAfterNCalls n e => exact (commandRun_control rfl).trans ih
    | injectLatency latency => exact (commandRun_control rfl).trans ih
    | clearInjectedFaults => exact (commandRun_control rfl).trans ih

end Plan

/-- The plan says of each call what the faults at that point say. -/
theorem faultPlan_getElem? (f : FaultState) (before : List Command) (o : StoreOp)
    (ho : o.IsMethod) (after : List Command) :
    (faultPlan f (before ++ .call o ho :: after))[callCount before]? =
      some (o, (before.foldl (fun f c => c.update f) f).shouldInjectFault.1) := by
  induction before generalizing f with
  | nil => rfl
  | cons c rest ih =>
    cases c with
    | call o' ho' =>
      rw [callCount_cons]
      exact ih f.shouldInjectFault.2
    | injectFailureOnNextCall e => rw [callCount_cons]; exact ih _
    | injectFailureAfterNCalls n e => rw [callCount_cons]; exact ih _
    | injectLatency latency => rw [callCount_cons]; exact ih _
    | clearInjectedFaults => rw [callCount_cons]; exact ih _

theorem faultPlan_length (f : FaultState) (cs : List Command) :
    (faultPlan f cs).length = callCount cs := by
  induction cs generalizing f with
  | nil => rfl
  | cons c rest ih =>
    rw [callCount_cons]
    cases c with
    | call o ho => exact congrArg Nat.succ (ih _)
    | injectFailureOnNextCall e => exact ih _
    | injectFailureAfterNCalls n e => exact ih _
    | injectLatency latency => exact ih _
    | clearInjectedFaults => exact ih _

/-- The calls are numbered from 0 on. -/
theorem exists_call_of_lt {i : Nat} {cs : List Command} (h : i < callCount cs) :
    ∃ before o ho after, cs = before ++ .call o ho :: after ∧ callCount before = i := by
  induction cs generalizing i with
  | nil => exact absurd h (Nat.not_lt_zero i)
  | cons c rest ih =>
    rw [callCount_cons] at h
    by_cases hc : c.isCall
    · rw [if_pos hc] at h
      cases i with
      | zero =>
        cases c with
        | call o ho => exact ⟨[], o, ho, rest, rfl, rfl⟩
        | _ => cases hc
      | succ i =>
        obtain ⟨before, o, ho, after, rfl, hcount⟩ := ih (Nat.lt_of_succ_lt_succ h)
        exact ⟨c :: before, o, ho, after, rfl, by rw [callCount_cons, if_pos hc, hcount]⟩
    · rw [if_neg hc] at h
      obtain ⟨before, o, ho, after, rfl, hcount⟩ := ih h
      exact ⟨c :: before, o, ho, after, rfl, by rw [callCount_cons, if_neg hc, hcount]; rfl⟩

/-- What the record of a call says of the commands before it. -/
def CallRecord.Accords (x : CallRecord) (o : StoreOp) (before : List Command) : Prop :=
  x.op = o ∧ (∀ e, x.fault = some e ↔ FaultDue before e) ∧ x.Injected

/-- To follow the plan is to have one record for each call, that says what the commands
before the call say. -/
theorem followsPlan_iff {cs : List Command} (hcount : callCount cs < 2 ^ 64)
    {records : List CallRecord} :
    (records.map (fun r => (r.op, r.fault)) = faultPlan {} cs ∧ ∀ r ∈ records, r.Injected) ↔
      records.length = callCount cs ∧
      ∀ before o ho after, cs = before ++ .call o ho :: after →
        ∃ x, records[callCount before]? = some x ∧ x.Accords o before := by
  have hdue : ∀ before o ho after, cs = before ++ .call o ho :: after → ∀ e,
      (faultsAfter before).shouldInjectFault.1 = some e ↔ FaultDue before e := by
    rintro before o ho after rfl
    refine fun e => shouldInjectFault_iff ?_ e
    rw [callCount_append, callCount_cons, show (Command.call o ho).isCall = true from rfl] at hcount
    simp only [if_true] at hcount
    omega
  constructor
  · intro h
    obtain ⟨hplan, hinj⟩ := h
    have hlength := congrArg List.length hplan
    rw [List.length_map, faultPlan_length] at hlength
    refine ⟨hlength, fun before o ho after heq => ?_⟩
    have hat := faultPlan_getElem? {} before o ho after
    rw [← heq, ← hplan, List.getElem?_map] at hat
    obtain ⟨x, hx, hpair⟩ := Option.map_eq_some_iff.mp hat
    obtain ⟨hop, hfault⟩ := Prod.mk.inj hpair
    refine ⟨x, hx, hop, fun e => ?_, hinj x (List.mem_of_getElem? hx)⟩
    rw [hfault]
    exact hdue before o ho after heq e
  · intro h
    obtain ⟨hlength, hcalls⟩ := h
    refine ⟨List.ext_getElem? fun i => ?_, fun r hr => ?_⟩
    · by_cases hi : i < callCount cs
      · obtain ⟨before, o, ho, after, heq, rfl⟩ := exists_call_of_lt hi
        obtain ⟨x, hx, hop, hfault, _⟩ := hcalls before o ho after heq
        have hsame : x.fault = (faultsAfter before).shouldInjectFault.1 :=
          Option.ext fun e => (hfault e).trans (hdue before o ho after heq e).symm
        have hat := faultPlan_getElem? {} before o ho after
        rw [← heq] at hat
        rw [List.getElem?_map, hx, hat, Option.map_some, hop, hsame]
        rfl
      · rw [List.getElem?_eq_none (by simpa [hlength] using hi),
          List.getElem?_eq_none (by simpa [faultPlan_length] using hi)]
    · obtain ⟨i, hi, rfl⟩ := List.mem_iff_getElem.mp hr
      obtain ⟨before, o, ho, after, heq, rfl⟩ := exists_call_of_lt (hlength ▸ hi)
      obtain ⟨x, hx, _, _, hinj⟩ := hcalls before o ho after heq
      rw [List.getElem?_eq_getElem hi] at hx
      exact (Option.some.inj hx) ▸ hinj

/-- After a call, a one-shot fault is pending only if it was armed since. -/
theorem oneShotPending_after_call {before mid : List Command} {o : StoreOp} {ho : o.IsMethod}
    {e : ChunkStoreError} (h : OneShotPending (before ++ .call o ho :: mid) e) :
    OneShotPending mid e := by
  induction mid using List.reverseRecOn with
  | nil =>
    rcases oneShotPending_snoc.mp h with hinject | ⟨hkeeps, _⟩
    · cases hinject
    · exact hkeeps.elim
  | append_singleton mid d ih =>
    rw [← List.cons_append, ← List.append_assoc, oneShotPending_snoc] at h
    exact oneShotPending_snoc.mpr (h.imp id fun ⟨hkeeps, h⟩ => ⟨hkeeps, ih h⟩)

/-- **The store is a transparent filter.** Whatever the delegate and whatever commands
come, fewer than 2^64 of them calls. The runs are exactly those with a record for each
call, in which a call is faulted, and with which error, as the commands before it say, a
faulted call reports that error, and the others are a run of the delegate alone. And in a
run each one-shot fault goes to one call at most: the next call gets it, and a later one
is faulted by a one-shot fault that was armed since, or by an after-N fault. -/
theorem faultInjecting_transparent (delegate : ChunkStoreSem S) (s : S) (cs : List Command)
    (hcount : callCount cs < 2 ^ 64) (records : List CallRecord) (y : FaultInjecting S) :
    (CommandRun delegate ⟨{}, s⟩ cs records y ↔
      records.length = callCount cs ∧
      (∀ before o ho after, cs = before ++ .call o ho :: after →
        ∃ x, records[callCount before]? = some x ∧ x.Accords o before) ∧
      y.faults = faultsAfter cs ∧
      DelegateRun delegate s (records.filter fun r => r.fault.isNone) y.delegate) ∧
    (CommandRun delegate ⟨{}, s⟩ cs records y →
      ∀ before o ho mid o' ho' after e,
        cs = before ++ .call o ho :: (mid ++ .call o' ho' :: after) → OneShotPending before e →
        ∃ x x', records[callCount before]? = some x ∧ x.fault = some e ∧
          records[callCount (before ++ .call o ho :: mid)]? = some x' ∧
          ∀ e', x'.fault = some e' →
            OneShotPending mid e' ∨ NthCallDue (before ++ .call o ho :: mid) e') := by
  have hruns : CommandRun delegate ⟨{}, s⟩ cs records y ↔
      records.length = callCount cs ∧
      (∀ before o ho after, cs = before ++ .call o ho :: after →
        ∃ x, records[callCount before]? = some x ∧ x.Accords o before) ∧
      y.faults = faultsAfter cs ∧
      DelegateRun delegate s (records.filter fun r => r.fault.isNone) y.delegate := by
    rw [commandRun_iff, FollowsPlan, ← and_assoc, followsPlan_iff hcount, and_assoc]
    rfl
  refine ⟨hruns, fun hrun before o ho mid o' ho' after e heq hpending => ?_⟩
  obtain ⟨_, hcalls, _⟩ := hruns.mp hrun
  obtain ⟨x, hx, _, hfault, _⟩ := hcalls before o ho _ heq
  have hlater : cs = (before ++ .call o ho :: mid) ++ .call o' ho' :: after := by simpa using heq
  obtain ⟨x', hx', _, hfault', _⟩ := hcalls _ o' ho' after hlater
  refine ⟨x, x', hx, (hfault e).mpr (.inl hpending), hx', fun e' he' => ?_⟩
  rcases (hfault' e').mp he' with hone | ⟨_, hdue⟩
  · exact .inl (oneShotPending_after_call hone)
  · exact .inr hdue

end Delegate

/-- A fault after the first call, and a one-shot fault before the second: `abc` is
stored, the first `Get` gets the one-shot fault, and the second one the other. -/
theorem faultInjecting_transparent_put_get :
    let cs : List Command := [.injectFailureAfterNCalls 1 .IoError,
      .call (.put .ofAbc abcBytes) trivial, .injectFailureOnNextCall .NotFound,
      .call (.get .ofAbc) trivial, .call (.get .ofAbc) trivial]
    ∃ t : Store,
      CommandRun (localStore knownSha256 .noFault) ⟨{}, Store.empty⟩ cs
        [⟨.put .ofAbc abcBytes, trivial, none, .ok ()⟩,
          ⟨.get .ofAbc, trivial, some .NotFound, .error ⟨.NotFound, "Injected Fault"⟩⟩,
          ⟨.get .ofAbc, trivial, some .IoError, .error ⟨.IoError, "Injected Fault"⟩⟩]
        ⟨faultsAfter cs, t⟩ ∧
      t.disk.contents (finalPathFor .ofAbc) = some abcBytes ∧ FaultDue (cs.take 4) .IoError := by
  intro cs
  have hcount : callCount cs < 2 ^ 64 := by decide
  have hok : (execute (put knownSha256 .ofAbc abcBytes default) Store.empty).1 = .ok () := rfl
  obtain ⟨t, hstored⟩ : ∃ t, (put knownSha256 .ofAbc abcBytes default).Runs Policy.noFault.sem
      Store.empty (.ok ()) t := ⟨_, runs_noFault_iff.mpr (Prod.ext hok rfl)⟩
  have hput : localStore knownSha256 .noFault (.put .ofAbc abcBytes) Store.empty (.ok ()) t :=
    ⟨default, hstored⟩
  obtain ⟨_, dirty, hfile⟩ := runs_put_file hstored (.inl (Disk.node_empty _))
  let x₁ : FaultInjecting Store := ⟨faultsAfter (cs.take 2), t⟩
  have hfirst : callStore (localStore knownSha256 .noFault) (.put .ofAbc abcBytes) trivial
      ⟨faultsAfter (cs.take 1), Store.empty⟩ (.ok ()) x₁ := ⟨hput, rfl⟩
  have hrun : CommandRun (localStore knownSha256 .noFault) ⟨{}, Store.empty⟩ cs
      [⟨.put .ofAbc abcBytes, trivial, none, .ok ()⟩,
        ⟨.get .ofAbc, trivial, some .NotFound, .error ⟨.NotFound, "Injected Fault"⟩⟩,
        ⟨.get .ofAbc, trivial, some .IoError, .error ⟨.IoError, "Injected Fault"⟩⟩]
      ⟨faultsAfter cs, t⟩ :=
    .control rfl (.call hfirst (.control rfl (.call ⟨rfl, rfl⟩ (.call ⟨rfl, rfl⟩ (.nil _)))))
  obtain ⟨⟨_, hcalls, _⟩, _⟩ :=
    (faultInjecting_transparent (localStore knownSha256 .noFault) Store.empty cs hcount _ _).imp
      (fun h => h.mp hrun) fun h => h hrun
  obtain ⟨x, hx, _, hfault, _⟩ := hcalls (cs.take 4) (.get .ofAbc) trivial [] rfl
  obtain rfl := Option.some.inj hx
  exact ⟨t, hrun, by simp [Disk.contents, hfile], (hfault .IoError).mp rfl⟩

end NimbusFs.StorageNode
