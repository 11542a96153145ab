import Mathlib.Algebra.Order.Floor.Ring
import Mathlib.Algebra.Order.Ring.Rat
import Mathlib.Data.Rat.Floor
import Mathlib.Tactic.FieldSimp
import Mathlib.Tactic.Linarith
import Mathlib.Tactic.NormNum

/-!
# Rounding to even

The nearest whole number, a half going to the even side, and the nearest number
with so many decimal places. Rounding keeps the order, and what is more than one
unit larger stays larger.
-/

namespace Eidetic.Lib

/-- `round(x)`. -/
def roundEven (x : Rat) : Int :=
  if 1 / 2 < x - x.floor ∨ x - x.floor = 1 / 2 ∧ x.floor % 2 = 1 then x.floor + 1 else x.floor

/-- `round(x, places)`. -/
def roundTo (places : Nat) (x : Rat) : Rat := roundEven (x * 10 ^ places) / 10 ^ places

theorem roundEven_near (x : Rat) : x - 1 / 2 ≤ roundEven x ∧ roundEven x ≤ x + 1 / 2 := by
  have hle := Rat.floor_le x
  have hlt := Rat.lt_floor_add_one x
  push_cast at hlt
  unfold roundEven
  split
  next h =>
    have hhalf : 1 / 2 ≤ x - (x.floor : Rat) := by
      rcases h with h | h
      · exact le_of_lt h
      · exact le_of_eq h.1.symm
    push_cast
    constructor <;> linarith
  next h =>
    have hhalf : x - (x.floor : Rat) ≤ 1 / 2 := by
      by_contra hmore
      exact h (Or.inl (not_le.mp hmore))
    constructor <;> linarith

theorem roundEven_mono {x y : Rat} (h : x ≤ y) : roundEven x ≤ roundEven y := by
  unfold roundEven
  rcases lt_or_eq_of_le (Rat.floor_monotone h) with hlt | heq
  · -- the smaller one is rounded to the larger one's floor at most
    split <;> split <;> omega
  · rw [← heq]
    split
    next hup =>
      -- on the same floor, what is above the middle stays above it
      rw [if_pos]
      rcases hup with hup | ⟨hhalf, hodd⟩
      · exact Or.inl (by linarith)
      · rcases lt_or_eq_of_le h with hmore | hsame
        · exact Or.inl (by linarith)
        · exact Or.inr ⟨by rw [← hsame]; exact hhalf, hodd⟩
    next => split <;> omega

@[simp] theorem roundEven_intCast (k : Int) : roundEven k = k := by
  unfold roundEven
  rw [Rat.floor_intCast, if_neg]
  norm_num

theorem roundEven_lt {x y : Rat} (h : x + 1 < y) : roundEven x < roundEven y := by
  have hx := (roundEven_near x).2
  have hy := (roundEven_near y).1
  have hlt : (roundEven x : Rat) < roundEven y := by linarith
  exact_mod_cast hlt

theorem roundEven_nonneg_iff (x : Rat) : 0 ≤ roundEven x ↔ -(1 / 2) ≤ x := by
  constructor
  · intro h
    have hnear := (roundEven_near x).2
    have hcast : (0 : Rat) ≤ roundEven x := by exact_mod_cast h
    linarith
  · intro h
    have hhalf : roundEven (-(1 / 2)) = 0 := by decide +kernel
    rw [← hhalf]
    exact roundEven_mono h

/-! ## Decimal places -/

theorem pow_places_pos (places : Nat) : (0 : Rat) < 10 ^ places := by positivity

theorem roundTo_mono (places : Nat) {x y : Rat} (h : x ≤ y) : roundTo places x ≤ roundTo places y := by
  have hpos := pow_places_pos places
  have hscaled : x * 10 ^ places ≤ y * 10 ^ places := by gcongr
  have hround : (roundEven (x * 10 ^ places) : Rat) ≤ roundEven (y * 10 ^ places) := by
    exact_mod_cast roundEven_mono hscaled
  unfold roundTo
  gcongr

@[simp] theorem roundTo_intCast (places : Nat) (k : Int) : roundTo places k = k := by
  have hne : (10 : Rat) ^ places ≠ 0 := ne_of_gt (pow_places_pos places)
  have hscaled : (k : Rat) * 10 ^ places = ((k * 10 ^ places : Int) : Rat) := by push_cast; rfl
  rw [roundTo, hscaled, roundEven_intCast]
  push_cast
  rw [mul_div_assoc, div_self hne, mul_one]

@[simp] theorem roundTo_zero (places : Nat) : roundTo places 0 = 0 := by
  simpa using roundTo_intCast places 0

@[simp] theorem roundTo_one (places : Nat) : roundTo places 1 = 1 := by
  simpa using roundTo_intCast places 1

/-- What is more than a unit larger stays larger. -/
theorem roundTo_lt {places : Nat} {x y : Rat} (h : 1 / 10 ^ places < y - x) :
    roundTo places x < roundTo places y := by
  have hpos := pow_places_pos places
  have hscaled : x * 10 ^ places + 1 < y * 10 ^ places := by
    have hmul := mul_lt_mul_of_pos_right h hpos
    rw [one_div, inv_mul_cancel₀ (ne_of_gt hpos)] at hmul
    linarith
  have hround : (roundEven (x * 10 ^ places) : Rat) < roundEven (y * 10 ^ places) := by
    exact_mod_cast roundEven_lt hscaled
  unfold roundTo
  gcongr

theorem roundTo_near (places : Nat) (x : Rat) :
    x - 1 / (2 * 10 ^ places) ≤ roundTo places x ∧ roundTo places x ≤ x + 1 / (2 * 10 ^ places) := by
  have hpos := pow_places_pos places
  have hne := ne_of_gt hpos
  obtain ⟨hlow, hhigh⟩ := roundEven_near (x * 10 ^ places)
  have hunit : 1 / (2 * 10 ^ places) * (10 : Rat) ^ places = 1 / 2 := by field_simp
  unfold roundTo
  constructor
  · rw [le_div_iff₀ hpos, sub_mul, hunit]
    exact hlow
  · rw [div_le_iff₀ hpos, add_mul, hunit]
    exact hhigh

theorem roundTo_nonneg_iff (places : Nat) (x : Rat) :
    0 ≤ roundTo places x ↔ -(1 / 2) ≤ x * 10 ^ places := by
  have hpos := pow_places_pos places
  rw [← roundEven_nonneg_iff, roundTo, le_div_iff₀ hpos, zero_mul]
  exact_mod_cast Iff.rfl

end Eidetic.Lib
