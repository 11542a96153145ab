import Eidetic.Lib.Lease
import Eidetic.Lib.Run
import Mathlib.Logic.Function.Basic

/-!
# The lock of a catalog scan

Any number of scans that take `catalog:scan:lock` with `SET NX EX` and delete it
when they end. The value of the key is the same for all, so a scan that ends
deletes whatever key there is, and nothing renews the key of one that goes on.
Scans exclude each other up to the first one that asks for the lock while
another has been running for `_LOCK_TTL` (`exclusive_iff`).

The key of Redis is modelled with the number of the scan that has set it, which
the code does not write: it writes the same `"1"` for all. The number is read by
no step but to say whose the key is.

The invariant is `Keyed`: as long as the key has not expired it is that of the
one scan that is running. A scan that asks in time finds it (`Keyed.acquire`),
and one that ends takes its own key away (`Keyed.release`). When the key has
expired while its scan goes on, the next one that asks runs beside it
(`asksInTime_of_exclusive`), and the first that ends deletes the key of the
other. Both parts of the property, that one runs at a time and that none
releases another's lock, are lost at that step and not before.
-/

namespace Eidetic.Catalog

open Eidetic.Lib

/-- `_LOCK_TTL`, in milliseconds. -/
def lockTtl : Nat := 900000

/-- Where a call of `run_scan` is. -/
inductive ScanPhase
  | triggered
  /-- Between `_acquire_lock` and `_release_lock`. -/
  | running (since : Nat)
  | ended
deriving DecidableEq

/-- The clock, `catalog:scan:lock` and the scans. The key holds `"1"` for all of
them; the token says which scan has set it. -/
structure ScanLock where
  now : Nat := 0
  key : Option (Lease Nat) := none
  phase : Nat → ScanPhase := fun _ => .triggered

/-- What can happen next. The work of a scan is the time that passes. -/
inductive LockEvent
  | pass (time : Nat)
  | acquire (scan : Nat)
  /-- The scan returns or raises, and its `finally` is executed. -/
  | release (scan : Nat)
  /-- The process of the scan is gone. -/
  | crash (scan : Nat)

def ScanLock.move (s : ScanLock) (scan : Nat) (phase : ScanPhase) : ScanLock :=
  { s with phase := Function.update s.phase scan phase }

def ScanLock.step (s : ScanLock) : LockEvent → ScanLock
  | .pass time => { s with now := s.now + time }
  | .acquire scan =>
    match s.phase scan with
    | .triggered =>
      match setNx s.now lockTtl scan s.key with
      | some l => { s with key := some l }.move scan (.running s.now)
      | none => s.move scan .ended
    | _ => s
  | .release scan =>
    match s.phase scan with
    | .running _ => { s with key := none }.move scan .ended
    | _ => s
  | .crash scan =>
    match s.phase scan with
    | .running _ => s.move scan .ended
    | _ => s

/-- The key is there and the scan has set it. -/
def ScanLock.Holds (s : ScanLock) (scan : Nat) : Prop :=
  ∃ l, live s.now s.key = some l ∧ l.token = scan

/-- At most one scan is running, and no release takes the lock of another. -/
structure Exclusive (s : ScanLock) : Prop where
  alone : ∀ i j since since', s.phase i = .running since → s.phase j = .running since' → i = j
  own : ∀ i j, i ≠ j → s.Holds j → (s.step (.release i)).Holds j

/-- A scan asks for the lock when every running scan has been running for less
than `_LOCK_TTL`. -/
def AsksInTime (s : ScanLock) : LockEvent → Prop
  | .acquire scan =>
    s.phase scan = .triggered → ∀ i since, s.phase i = .running since → s.now < since + lockTtl
  | _ => True

/-- The key is the running scan's. -/
def Keyed (s : ScanLock) : Prop :=
  ∀ i since, s.phase i = .running since → s.key = some ⟨i, since + lockTtl⟩

variable {s : ScanLock} {scan : Nat}

@[simp] theorem ScanLock.move_phase (s : ScanLock) (scan : Nat) (phase : ScanPhase) :
    (s.move scan phase).phase scan = phase :=
  Function.update_self ..

theorem ScanLock.move_phase_of_ne (s : ScanLock) {i : Nat} (h : i ≠ scan) (phase : ScanPhase) :
    (s.move scan phase).phase i = s.phase i :=
  Function.update_of_ne h ..

theorem Keyed.exclusive (h : Keyed s) : Exclusive s := by
  constructor
  · intro i j since since' hi hj
    have heq := (h i since hi).symm.trans (h j since' hj)
    exact congrArg Lease.token (Option.some.inj heq)
  · intro i j hne hj
    unfold ScanLock.step
    dsimp only
    split
    next since hi =>
      -- the key would be of both
      obtain ⟨l, hl, rfl⟩ := hj
      have hkey := (live_eq_some.mp hl).1
      rw [h i since hi] at hkey
      exact absurd (congrArg Lease.token (Option.some.inj hkey)) hne
    next => exact hj

/-- A scan that ends leaves the others with their key. -/
theorem Keyed.ended (h : Keyed s) : Keyed (s.move scan .ended) := by
  intro i since hi
  by_cases hscan : i = scan
  · subst hscan
    rw [ScanLock.move_phase] at hi
    exact absurd hi (by simp)
  · rw [ScanLock.move_phase_of_ne _ hscan] at hi
    exact h i since hi

/-- A scan that finds no key is the only one to be running. -/
theorem Keyed.acquire (h : Keyed s) (hlive : live s.now s.key = none)
    (htime : ∀ i since, s.phase i = .running since → s.now < since + lockTtl) :
    Keyed ({ s with key := some ⟨scan, s.now + lockTtl⟩ }.move scan (.running s.now)) := by
  intro i since hi
  by_cases hscan : i = scan
  · subst hscan
    rw [ScanLock.move_phase] at hi
    obtain rfl : s.now = since := by simpa using hi
    rfl
  · rw [ScanLock.move_phase_of_ne _ hscan] at hi
    rw [live_eq_some.mpr ⟨h i since hi, htime i since hi⟩] at hlive
    exact absurd hlive (by simp)

theorem Keyed.release (h : Keyed s) {since : Nat} (hscan : s.phase scan = .running since) :
    Keyed ({ s with key := none }.move scan .ended) := by
  intro i since' hi
  by_cases heq : i = scan
  · subst heq
    rw [ScanLock.move_phase] at hi
    exact absurd hi (by simp)
  · rw [ScanLock.move_phase_of_ne _ heq] at hi
    exact absurd (h.exclusive.alone i scan since' since hi hscan) heq

theorem keyed_step (s : ScanLock) (e : LockEvent) (h : Keyed s) (htime : AsksInTime s e) :
    Keyed (s.step e) := by
  cases e with
  | pass time => exact h
  | acquire scan =>
    unfold ScanLock.step
    dsimp only
    split
    next hscan =>
      cases hlive : live s.now s.key with
      | some l =>
        rw [setNx_of_live hlive]
        exact h.ended
      | none =>
        rw [setNx_of_none hlive]
        exact h.acquire hlive (htime hscan)
    next => exact h
  | release scan =>
    unfold ScanLock.step
    dsimp only
    split
    next since hscan => exact h.release hscan
    next => exact h
  | crash scan =>
    unfold ScanLock.step
    dsimp only
    split
    next => exact h.ended
    next => exact h

/-- A scan whose key has expired is joined by the next one that asks. -/
theorem asksInTime_of_exclusive (s : ScanLock) (e : LockEvent) (h : Keyed s)
    (hnext : Exclusive (s.step e)) : AsksInTime s e := by
  cases e with
  | acquire scan =>
    intro hscan i since hi
    by_contra hlate
    have hlive : live s.now s.key = none := by
      refine live_eq_none fun l hl => ?_
      obtain rfl : (⟨i, since + lockTtl⟩ : Lease Nat) = l :=
        Option.some.inj ((h i since hi).symm.trans hl)
      exact Nat.le_of_not_lt hlate
    have hstep : s.step (.acquire scan) =
        { s with key := some ⟨scan, s.now + lockTtl⟩ }.move scan (.running s.now) := by
      unfold ScanLock.step
      dsimp only
      rw [hscan, setNx_of_none hlive]
    have hne : i ≠ scan := by
      rintro rfl
      rw [hi] at hscan
      exact absurd hscan (by simp)
    rw [hstep] at hnext
    refine hne (hnext.alone i scan since s.now ?_ (ScanLock.move_phase ..))
    rw [ScanLock.move_phase_of_ne _ hne]
    exact hi
  | _ => trivial

/-- Scans exclude each other all along a run exactly when none asks for the lock
while another has been running for `_LOCK_TTL`. -/
theorem exclusive_iff (events : List LockEvent) :
    (∀ before after, events = before ++ after → Exclusive (run ScanLock.step {} before)) ↔
      Throughout ScanLock.step AsksInTime {} events :=
  along_iff (fun _ h => h.exclusive) keyed_step asksInTime_of_exclusive
    (fun _ _ hi => absurd hi (by simp)) events

/-- A scan of fifteen minutes, and the next one. -/
def longScan : List LockEvent := [.acquire 0, .pass lockTtl, .acquire 1]

theorem longScan_overlaps : ¬ ∀ events, Exclusive (run ScanLock.step {} events) := by
  intro h
  have hboth := h longScan
  have hzero : (run ScanLock.step {} longScan).phase 0 = .running 0 := by decide
  have hone : (run ScanLock.step {} longScan).phase 1 = .running lockTtl := by decide
  exact absurd (hboth.alone 0 1 0 lockTtl hzero hone) (by decide)

end Eidetic.Catalog
