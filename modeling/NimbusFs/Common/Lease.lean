import Mathlib.Algebra.Group.Int.Defs
import Mathlib.Algebra.Group.Nat.Defs

/-! # Leases and clocks

A lease is expired once the clock has passed its time of issue, its time to live
and the tolerance for clock skew together. Times and durations are the ticks of
`std::chrono::system_clock`, 64-bit integers whose sums are not checked: a lease
is what it should be exactly when that sum fits. -/
namespace NimbusFs.Common

/-- `system_clock::duration`. -/
abbrev Duration := Int64

/-- `system_clock::time_point`: the ticks since the epoch. -/
abbrev TimePoint := Int64

/-- A sum that fits is the sum. -/
theorem toInt_add_of_lt {a b : Int64} (hb : 0 ≤ b) (h : a.toInt + b.toInt < 2 ^ 63) :
    (a + b).toInt = a.toInt + b.toInt := by
  have hnonneg : 0 ≤ b.toInt := Int64.le_iff_toInt_le.mp hb
  have hlow := a.le_toInt
  rw [Int64.toInt_add]
  exact Int.bmod_eq_of_le (by omega) (by omega)

/-! ## The clock of the tests -/

structure FakeClock where
  current : TimePoint
deriving DecidableEq

namespace FakeClock

def now (clock : FakeClock) : TimePoint := clock.current

def advance (clock : FakeClock) (step : Duration) : FakeClock := ⟨clock.current + step⟩

/-- A sequence of calls of `Advance`. -/
def advances (clock : FakeClock) (steps : List Duration) : FakeClock := steps.foldl advance clock

/-- No call goes back, and none goes past the last tick. -/
def StaysInRange (clock : FakeClock) : List Duration → Prop
  | [] => True
  | step :: rest =>
    0 ≤ step ∧ clock.current.toInt + step.toInt < 2 ^ 63 ∧ (clock.advance step).StaysInRange rest

/-- One call in range does not take the clock back. -/
theorem now_le_advance {clock : FakeClock} {step : Duration} (hstep : 0 ≤ step)
    (hrange : clock.current.toInt + step.toInt < 2 ^ 63) :
    clock.now ≤ (clock.advance step).now := by
  have hnonneg : 0 ≤ step.toInt := Int64.le_iff_toInt_le.mp hstep
  rw [Int64.le_iff_toInt_le, advance, now, now, toInt_add_of_lt hstep hrange]
  omega

/-- No sequence of such calls does. -/
theorem now_le_advances {clock : FakeClock} {steps : List Duration}
    (h : clock.StaysInRange steps) : clock.now ≤ (clock.advances steps).now := by
  induction steps generalizing clock with
  | nil => exact Int64.le_refl _
  | cons step rest ih =>
    obtain ⟨hstep, hrange, hrest⟩ := h
    exact Int64.le_trans (now_le_advance hstep hrange) (ih hrest)

end FakeClock

/-! ## Leases -/

structure Lease where
  issuedAt : TimePoint
  ttl : Duration
deriving DecidableEq

namespace Lease

def issueNow (ttl : Duration) (now : TimePoint) : Lease := ⟨now, ttl⟩

def isExpired (lease : Lease) (now : TimePoint) (clockSkewTolerance : Duration) : Bool :=
  now > lease.issuedAt + lease.ttl + clockSkewTolerance

def expiresAt (lease : Lease) : TimePoint := lease.issuedAt + lease.ttl

/-- What expiry should be, for a lease issued at `t`: exact for every time, not
reached when the lease is issued nor when it says it expires, and for good. -/
def ExpiresExactly (ttl : Duration) (t : TimePoint) (tolerance : Duration) : Prop :=
  (∀ now, (issueNow ttl t).isExpired now tolerance = true ↔
    t.toInt + ttl.toInt + tolerance.toInt < now.toInt) ∧
  (issueNow ttl t).isExpired t tolerance = false ∧
  (issueNow ttl t).isExpired (issueNow ttl t).expiresAt tolerance = false ∧
  ∀ (clock : FakeClock) (steps : List Duration), clock.StaysInRange steps →
    (issueNow ttl t).isExpired clock.now tolerance = true →
    (issueNow ttl t).isExpired (clock.advances steps).now tolerance = true

theorem isExpired_iff {lease : Lease} {now : TimePoint} {tolerance : Duration} :
    lease.isExpired now tolerance = true ↔
      (lease.issuedAt + lease.ttl + tolerance).toInt < now.toInt := by
  rw [isExpired, decide_eq_true_iff]
  exact Int64.lt_iff_toInt_lt

/-- A later time does not make a lease valid again. -/
theorem isExpired_mono {lease : Lease} {now later : TimePoint} {tolerance : Duration}
    (h : lease.isExpired now tolerance = true) (hle : now ≤ later) :
    lease.isExpired later tolerance = true := by
  rw [isExpired_iff] at h ⊢
  exact Int.lt_of_lt_of_le h (Int64.le_iff_toInt_le.mp hle)

/-- When the ticks do not fit, the sum starts again at the lowest number, and that
is long before the last tick. -/
theorem deadline_wraps {t : TimePoint} {ttl tolerance : Duration}
    (h : 2 ^ 63 ≤ t.toInt + ttl.toInt + tolerance.toInt) :
    (t + ttl + tolerance).toInt = t.toInt + ttl.toInt + tolerance.toInt - 2 ^ 64 := by
  have ht := t.toInt_lt
  have httl := ttl.toInt_lt
  have htol := tolerance.toInt_lt
  rw [Int64.toInt_add, Int64.toInt_add, Int.bmod_add_bmod, ← Int.sub_bmod_right]
  exact Int.bmod_eq_of_le (by omega) (by omega)

/-- The last tick comes after a sum that does not fit, and the lease is expired then. -/
theorem not_expiresExactly {ttl : Duration} {t : TimePoint} {tolerance : Duration}
    (h : 2 ^ 63 ≤ t.toInt + ttl.toInt + tolerance.toInt) : ¬ ExpiresExactly ttl t tolerance := by
  intro hexact
  have hlast : Int64.maxValue.toInt = 2 ^ 63 - 1 := by decide
  have ht := t.toInt_lt
  have httl := ttl.toInt_lt
  have htol := tolerance.toInt_lt
  have hexpired : (issueNow ttl t).isExpired Int64.maxValue tolerance = true := by
    rw [isExpired_iff, issueNow, deadline_wraps h]
    omega
  have hpast := (hexact.1 Int64.maxValue).mp hexpired
  omega

/-- **A lease expires exactly when it should** if, and only if, the time of issue,
the time to live and the tolerance add up to a number of ticks that fits. -/
theorem expiresExactly_iff (ttl : Duration) (t : TimePoint) (tolerance : Duration)
    (httl : 0 ≤ ttl) (htol : 0 ≤ tolerance) :
    ExpiresExactly ttl t tolerance ↔ t.toInt + ttl.toInt + tolerance.toInt < 2 ^ 63 := by
  have httl' : 0 ≤ ttl.toInt := Int64.le_iff_toInt_le.mp httl
  have htol' : 0 ≤ tolerance.toInt := Int64.le_iff_toInt_le.mp htol
  constructor
  · intro hexact
    exact Int.not_le.mp fun hwraps => not_expiresExactly hwraps hexact
  · intro hfits
    have hexpires : (t + ttl).toInt = t.toInt + ttl.toInt := toInt_add_of_lt httl (by omega)
    have hdeadline : (t + ttl + tolerance).toInt = t.toInt + ttl.toInt + tolerance.toInt := by
      rw [toInt_add_of_lt htol (by omega), hexpires]
    have hexact : ∀ now, (issueNow ttl t).isExpired now tolerance = true ↔
        t.toInt + ttl.toInt + tolerance.toInt < now.toInt := by
      intro now
      rw [isExpired_iff, issueNow, hdeadline]
    refine ⟨hexact, ?_, ?_, fun clock steps hrange h => ?_⟩
    · rw [← Bool.not_eq_true, hexact]
      omega
    · rw [← Bool.not_eq_true, hexact, expiresAt, issueNow, hexpires]
      omega
    · exact isExpired_mono h (FakeClock.now_le_advances hrange)

/-- Ten seconds from the epoch, with a tolerance of two, in nanoseconds. -/
theorem expiresExactly_iff_seconds : ExpiresExactly 10000000000 0 2000000000 :=
  (expiresExactly_iff 10000000000 0 2000000000 (by decide) (by decide)).mpr (by decide)

/-- A lease that should never expire, `duration::max()`, is expired when it is
issued one tick after the epoch. -/
theorem not_expiresExactly_max :
    ¬ ExpiresExactly Int64.maxValue 1 0 ∧ (issueNow Int64.maxValue 1).isExpired 1 0 = true :=
  ⟨not_expiresExactly (by decide), by decide⟩

end Lease

end NimbusFs.Common
