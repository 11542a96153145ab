import Eidetic.Lib.Round
import Mathlib.Data.Int.Log
import Mathlib.Algebra.Order.Field.Power

/-!
# Doubles

A double as the rational it is: a whole number of units, the unit being the
power of two that leaves it 53 bits. A rational is rounded to the nearest one, a
half going to the even side, and a sum of doubles is rounded so. The exponents
are not bounded: what is too large for a double, or too small for one of 53
bits, is not treated here.

Rounding keeps the order (`toDouble_mono`): within one unit because rounding to
a whole number does, and from one unit to a larger one because the power of two
between them is a double (`toDouble_le_pow`, `pow_le_toDouble`). Above a power
of two there is nothing between two neighbouring whole numbers of units
(`toDouble_grid`), so a bound on a rounded sum is a bound on the summand.
-/

namespace Eidetic.Lib

/-- The unit of the doubles beside a number is two to this power. -/
def doubleExponent (x : Rat) : Int := Int.log 2 |x| - 52

/-- The nearest double. -/
def toDouble (x : Rat) : Rat :=
  roundEven (x / 2 ^ doubleExponent x) * 2 ^ doubleExponent x

/-- `x + y` on the doubles that two numbers stand for. -/
def addDouble (x y : Rat) : Rat := toDouble (toDouble x + toDouble y)

@[simp] theorem toDouble_zero : toDouble 0 = 0 := by decide +kernel

/-! ## Between two powers of two -/

/-- A positive number has 53 bits in its units. -/
theorem doubleExponent_bounds {x : Rat} (h : 0 < x) :
    (2 : Rat) ^ (doubleExponent x + 52) ≤ x ∧ x < 2 ^ (doubleExponent x + 53) := by
  have hlow := Int.zpow_log_le_self (b := 2) (by decide) h
  have hhigh := Int.lt_zpow_succ_log_self (b := 2) (by decide) x
  have hexp : doubleExponent x = Int.log 2 x - 52 := by rw [doubleExponent, abs_of_pos h]
  rw [hexp, Int.sub_add_cancel, show Int.log 2 x - 52 + 53 = Int.log 2 x + 1 by omega]
  exact ⟨by exact_mod_cast hlow, by exact_mod_cast hhigh⟩

theorem doubleExponent_mono {x y : Rat} (hx : 0 < x) (h : x ≤ y) :
    doubleExponent x ≤ doubleExponent y := by
  have hlog := Int.log_mono_right (b := 2) hx h
  unfold doubleExponent
  rw [abs_of_pos hx, abs_of_pos (hx.trans_le h)]
  omega

/-- What is below a power of two is rounded to it at most. -/
theorem toDouble_le_pow {x : Rat} (h : 0 < x) : toDouble x ≤ 2 ^ (doubleExponent x + 53) := by
  have hunit : (0 : Rat) < 2 ^ doubleExponent x := by positivity
  have hsplit : (2 : Rat) ^ (doubleExponent x + 53) = ((2 ^ 53 : Int) : Rat) * 2 ^ doubleExponent x := by
    rw [zpow_add₀ (by norm_num), mul_comm]
    norm_num
  have hquotient : x / 2 ^ doubleExponent x ≤ ((2 ^ 53 : Int) : Rat) := by
    rw [div_le_iff₀ hunit, ← hsplit]
    exact (doubleExponent_bounds h).2.le
  have hround : (roundEven (x / 2 ^ doubleExponent x) : Rat) ≤ ((2 ^ 53 : Int) : Rat) := by
    have hmono := roundEven_mono hquotient
    rw [roundEven_intCast] at hmono
    exact_mod_cast hmono
  rw [hsplit]
  unfold toDouble
  gcongr

/-- What is not below a power of two is rounded to it at least. -/
theorem pow_le_toDouble {x : Rat} (h : 0 < x) : (2 : Rat) ^ (doubleExponent x + 52) ≤ toDouble x := by
  have hunit : (0 : Rat) < 2 ^ doubleExponent x := by positivity
  have hsplit : (2 : Rat) ^ (doubleExponent x + 52) = ((2 ^ 52 : Int) : Rat) * 2 ^ doubleExponent x := by
    rw [zpow_add₀ (by norm_num), mul_comm]
    norm_num
  have hquotient : ((2 ^ 52 : Int) : Rat) ≤ x / 2 ^ doubleExponent x := by
    rw [le_div_iff₀ hunit, ← hsplit]
    exact (doubleExponent_bounds h).1
  have hround : ((2 ^ 52 : Int) : Rat) ≤ (roundEven (x / 2 ^ doubleExponent x) : Rat) := by
    have hmono := roundEven_mono hquotient
    rw [roundEven_intCast] at hmono
    exact_mod_cast hmono
  rw [hsplit]
  unfold toDouble
  gcongr

theorem toDouble_pos {x : Rat} (h : 0 < x) : 0 < toDouble x :=
  lt_of_lt_of_le (by positivity) (pow_le_toDouble h)

theorem toDouble_nonneg {x : Rat} (h : 0 ≤ x) : 0 ≤ toDouble x := by
  rcases eq_or_lt_of_le h with rfl | hpos
  · rw [toDouble_zero]
  · exact (toDouble_pos hpos).le

/-! ## The order -/

theorem toDouble_mono {x y : Rat} (hx : 0 ≤ x) (h : x ≤ y) : toDouble x ≤ toDouble y := by
  rcases eq_or_lt_of_le hx with rfl | hpos
  · rw [toDouble_zero]
    exact toDouble_nonneg h
  · have hy := hpos.trans_le h
    rcases eq_or_lt_of_le (doubleExponent_mono hpos h) with hsame | hless
    · -- the same units
      have hunit : (0 : Rat) < 2 ^ doubleExponent y := by positivity
      have hquotient : x / 2 ^ doubleExponent y ≤ y / 2 ^ doubleExponent y := by gcongr
      have hround : (roundEven (x / 2 ^ doubleExponent y) : Rat)
          ≤ roundEven (y / 2 ^ doubleExponent y) := by
        exact_mod_cast roundEven_mono hquotient
      unfold toDouble
      rw [hsame]
      gcongr
    · -- a power of two between them
      calc toDouble x ≤ 2 ^ (doubleExponent x + 53) := toDouble_le_pow hpos
        _ ≤ 2 ^ (doubleExponent y + 52) := by
          apply zpow_le_zpow_right₀ (by norm_num)
          omega
        _ ≤ toDouble y := pow_le_toDouble hy

theorem addDouble_mono {x x' y : Rat} (hx : 0 ≤ x) (hy : 0 ≤ y) (h : x ≤ x') :
    addDouble x y ≤ addDouble x' y := by
  have hmono := toDouble_mono hx h
  exact toDouble_mono (add_nonneg (toDouble_nonneg hx) (toDouble_nonneg hy)) (by gcongr)

theorem addDouble_nonneg {x y : Rat} (hx : 0 ≤ x) (hy : 0 ≤ y) : 0 ≤ addDouble x y :=
  toDouble_nonneg (add_nonneg (toDouble_nonneg hx) (toDouble_nonneg hy))

/-- Above a power of two the doubles are whole numbers of its unit. -/
theorem toDouble_grid {x : Rat} {e : Int} (h : (2 : Rat) ^ (e + 52) ≤ x) :
    ∃ k : Int, toDouble x = k * 2 ^ e := by
  have hpos : 0 < x := lt_of_lt_of_le (by positivity) h
  have hless := lt_of_le_of_lt h (doubleExponent_bounds hpos).2
  rw [zpow_lt_zpow_iff_right₀ (by norm_num)] at hless
  obtain ⟨n, hn⟩ := Int.eq_ofNat_of_zero_le (by omega : 0 ≤ doubleExponent x - e)
  refine ⟨roundEven (x / 2 ^ doubleExponent x) * 2 ^ n, ?_⟩
  have hsplit : (2 : Rat) ^ doubleExponent x = 2 ^ n * 2 ^ e := by
    rw [show doubleExponent x = (n : Int) + e by omega, zpow_add₀ (by norm_num), zpow_natCast]
  have hdouble : toDouble x = roundEven (x / 2 ^ doubleExponent x) * 2 ^ doubleExponent x := rfl
  rw [hdouble]
  generalize roundEven (x / 2 ^ doubleExponent x) = m
  rw [hsplit]
  push_cast
  rw [mul_assoc]

end Eidetic.Lib
