import Eidetic.Lib.Run
import Mathlib.Algebra.Order.Monoid.Defs
import Mathlib.Algebra.Order.Monoid.Unbundled.Pow

/-!
# Admission below a limit

Calls are let in while what has been spent is below a limit, and what a call
spends is only known when it settles. Each call in flight may still spend, so
the spend and what the calls in flight may cost together stay below the limit
and the cost of those that were in flight, or had settled since the spend was
read, when one was let in (`spend_le`).
-/

namespace Eidetic.Lib

variable {σ ι α : Type*} [AddCommMonoid α] [PartialOrder α] [IsOrderedAddMonoid α]

/-- What the steps of a machine do with the spend and the calls in flight, as
far as a condition on them goes. -/
structure Admission (next : σ → ι → σ) (spend : σ → α) (inFlight : σ → Nat)
    (admits settles : σ → ι → Bool) (c : α) (P : σ → ι → Prop) : Prop where
  cost_nonneg : 0 ≤ c
  spend_next : ∀ s i, P s i → spend (next s i) ≤ spend s + (if settles s i then 1 else 0) • c
  inFlight_next : ∀ s i, P s i → inFlight (next s i) + (if settles s i then 1 else 0) ≤
    inFlight s + if admits s i then 1 else 0

variable {next : σ → ι → σ} {spend : σ → α} {inFlight : σ → Nat} {admits settles : σ → ι → Bool}
  {c : α} {P : σ → ι → Prop}

/-- Over a run the spend grows by the cost of the calls that settle. -/
theorem Admission.spend_run (h : Admission next spend inFlight admits settles c P) {s : σ} {is : List ι}
    (hP : Throughout next P s is) :
    spend (run next s is) ≤ spend s + countSteps next settles s is • c := by
  induction is generalizing s with
  | nil =>
    show spend s ≤ spend s + 0 • c
    rw [zero_nsmul, add_zero]
  | cons i is ih =>
    calc spend (run next (next s i) is)
        ≤ spend (next s i) + countSteps next settles (next s i) is • c := ih hP.2
      _ ≤ spend s + (if settles s i then 1 else 0) • c
          + countSteps next settles (next s i) is • c := add_le_add_left (h.spend_next s i hP.1) _
      _ = spend s + countSteps next settles s (i :: is) • c := by
          rw [add_assoc, ← add_nsmul]
          rfl

/-- A call is let in when the spend was below the limit at some moment, and no
more than `k` calls, itself included, are in flight or have settled since. -/
def LetIn (next : σ → ι → σ) (spend : σ → α) (inFlight : σ → Nat) (settles : σ → ι → Bool) (cap : α)
    (k : Nat) (s : σ) (is : List ι) : Prop :=
  ∃ early late, is = early ++ late ∧ spend (run next s early) ≤ cap ∧
    countSteps next settles (run next s early) late + inFlight (run next s is) + 1 ≤ k

/-- The spend, and what the calls in flight may still spend, stay below the
limit and the cost of `k` calls. -/
theorem Admission.spend_le (h : Admission next spend inFlight admits settles c P) {cap : α} {k : Nat}
    {s : σ} (hs : spend s + inFlight s • c ≤ cap + k • c) {is : List ι} (hP : Throughout next P s is)
    (hlet : ∀ before i after, is = before ++ i :: after → admits (run next s before) i = true →
      LetIn next spend inFlight settles cap k s before) :
    spend (run next s is) + inFlight (run next s is) • c ≤ cap + k • c := by
  induction is using List.reverseRecOn with
  | nil => exact hs
  | append_singleton is i ih =>
    obtain ⟨hbefore, hi, _⟩ := throughout_append.mp hP
    have hprev := ih hbefore fun before j after heq =>
      hlet before j (after ++ [i]) (by rw [heq, List.append_assoc]; rfl)
    have hspend := h.spend_next _ i hi
    have hflight := h.inFlight_next _ i hi
    rw [run_append]
    show spend (next (run next s is) i) + inFlight (next (run next s is) i) • c ≤ cap + k • c
    by_cases hadmit : admits (run next s is) i = true
    · obtain ⟨early, late, rfl, hcap, hk⟩ := hlet is i [] rfl hadmit
      have hlate := (throughout_append.mp hbefore).2
      have hgrown := h.spend_run hlate
      rw [← run_append] at hgrown
      rw [if_pos hadmit] at hflight
      generalize hcount : countSteps next settles (run next s early) late = n at hgrown hk
      generalize run next s (early ++ late) = t at hspend hflight hgrown hk
      generalize (if settles t i then 1 else 0) = m at hspend hflight
      calc spend (next t i) + inFlight (next t i) • c
          ≤ spend t + m • c + inFlight (next t i) • c := add_le_add_left hspend _
        _ = spend t + (m + inFlight (next t i)) • c := by rw [add_assoc, ← add_nsmul]
        _ ≤ spend t + (inFlight t + 1) • c :=
            add_le_add_right (nsmul_le_nsmul_left h.cost_nonneg (by omega)) _
        _ ≤ cap + n • c + (inFlight t + 1) • c :=
            add_le_add_left (hgrown.trans (add_le_add_left hcap _)) _
        _ = cap + (n + (inFlight t + 1)) • c := by rw [add_assoc, ← add_nsmul]
        _ ≤ cap + k • c := add_le_add_right (nsmul_le_nsmul_left h.cost_nonneg (by omega)) _
    · rw [if_neg hadmit, Nat.add_zero] at hflight
      generalize run next s is = t at hspend hflight hprev
      generalize (if settles t i then 1 else 0) = m at hspend hflight
      calc spend (next t i) + inFlight (next t i) • c
          ≤ spend t + m • c + inFlight (next t i) • c := add_le_add_left hspend _
        _ = spend t + (m + inFlight (next t i)) • c := by rw [add_assoc, ← add_nsmul]
        _ ≤ spend t + inFlight t • c :=
            add_le_add_right (nsmul_le_nsmul_left h.cost_nonneg (by omega)) _
        _ ≤ cap + k • c := hprev

end Eidetic.Lib
