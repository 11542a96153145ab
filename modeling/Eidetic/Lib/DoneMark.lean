import Mathlib.Algebra.Order.Group.Nat

/-!
# Work that is marked as done

Work may be begun many times. A run looks whether the work is marked as done and
goes on if it is not; in the end it has its effect and sets the mark at once.
Failures can take the mark away again.

With `k` runs at most between their look and their end, there are no more than `k`
effects for each time that the mark was down.
-/

namespace Eidetic.Lib

/-- What holds of the mark, of the effects there have been, of the runs that are
going on, and of how many times the mark was taken away. -/
structure DoneMark (k : Nat) (marked : Bool) (effects going cleared : Nat) : Prop where
  few : going ≤ k
  down : marked = false → effects ≤ k * cleared
  up : marked = true → effects + going ≤ k * (cleared + 1)

variable {k effects effects' going going' cleared : Nat} {marked : Bool}

theorem DoneMark.le (h : DoneMark k marked effects going cleared) : effects ≤ k * (cleared + 1) := by
  cases marked with
  | false => exact Nat.le_trans (h.down rfl) (Nat.mul_le_mul_left k (Nat.le_succ cleared))
  | true =>
    have hup := h.up rfl
    omega

theorem DoneMark.mono (h : DoneMark k marked effects going cleared) {cleared' : Nat}
    (hcleared : cleared ≤ cleared') : DoneMark k marked effects going cleared' := by
  refine ⟨h.few, fun hdown => ?_, fun hup => ?_⟩
  · exact Nat.le_trans (h.down hdown) (Nat.mul_le_mul_left k hcleared)
  · exact Nat.le_trans (h.up hup) (Nat.mul_le_mul_left k (Nat.succ_le_succ hcleared))

theorem doneMark_zero : DoneMark k marked 0 0 cleared :=
  ⟨Nat.zero_le _, fun _ => Nat.zero_le _, fun _ => Nat.zero_le _⟩

/-- A run finds the mark down. -/
theorem DoneMark.enter (h : DoneMark k false effects going cleared) (hk : going < k) :
    DoneMark k false effects (going + 1) cleared :=
  ⟨hk, h.down, fun hup => absurd hup (by simp)⟩

/-- Runs end without an effect. -/
theorem DoneMark.leave (h : DoneMark k marked effects going cleared) (hgoing : going' ≤ going) :
    DoneMark k marked effects going' cleared := by
  refine ⟨Nat.le_trans hgoing h.few, h.down, fun hmarked => ?_⟩
  have hup := h.up hmarked
  omega

/-- A run has its effect, or has nothing to do, and sets the mark. -/
theorem DoneMark.finish (h : DoneMark k marked effects going cleared) (hgoing : going' + 1 ≤ going)
    (heffects : effects' ≤ effects + 1) : DoneMark k true effects' going' cleared := by
  have hfew := h.few
  refine ⟨by omega, fun hdown => absurd hdown (by simp), fun _ => ?_⟩
  cases marked with
  | false =>
    have hdown := h.down rfl
    rw [Nat.mul_succ]
    omega
  | true =>
    have hup := h.up rfl
    omega

/-- The work goes away, and no run finds it any more. -/
theorem DoneMark.close (h : DoneMark k marked effects going cleared) :
    DoneMark k true effects going cleared := by
  refine ⟨h.few, fun hdown => absurd hdown (by simp), fun _ => ?_⟩
  cases marked with
  | false =>
    have hdown := h.down rfl
    have hfew := h.few
    rw [Nat.mul_succ]
    omega
  | true => exact h.up rfl

/-- The mark is taken away. -/
theorem DoneMark.clear (h : DoneMark k marked effects going cleared) :
    DoneMark k false effects going (cleared + 1) :=
  ⟨h.few, fun _ => h.le, fun hup => absurd hup (by simp)⟩

end Eidetic.Lib
