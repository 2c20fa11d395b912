import Mathlib.Data.Int.Log
import Mathlib.Data.Rat.Floor
import Mathlib.Tactic.FieldSimp
import Mathlib.Tactic.Linarith
import Mathlib.Tactic.NormNum
import Mathlib.Tactic.Positivity

/-!
# Rounding to binary64

Positive numbers rounded to 53 significant bits, to the even one of two that are as near. Exponents are not
bounded: this is the format between its smallest normal number and its largest.
-/

namespace Binary64

/-- The nearest integer, and of two the even one. -/
def nearest (x : ℚ) : ℤ :=
  if x - ⌊x⌋ < 1 / 2 then ⌊x⌋
  else if 1 / 2 < x - ⌊x⌋ then ⌊x⌋ + 1
  else if ⌊x⌋ % 2 = 0 then ⌊x⌋ else ⌊x⌋ + 1

/-- The distance between the numbers of the format around `x`. -/
def ulp (x : ℚ) : ℚ := 2 ^ (Int.log 2 x - 52)

def round (x : ℚ) : ℚ := if x = 0 then 0 else nearest (x / ulp x) * ulp x

@[simp] theorem round_zero : round 0 = 0 := if_pos rfl

theorem nearest_near (x : ℚ) : |(nearest x : ℚ) - x| ≤ 1 / 2 := by
  have below := Int.floor_le x
  have above := Int.lt_floor_add_one x
  rw [abs_le]
  unfold nearest
  split
  · constructor <;> linarith
  · split
    · push_cast
      constructor <;> linarith
    · split <;> push_cast <;> constructor <;> linarith

theorem floor_le_nearest (x : ℚ) : ⌊x⌋ ≤ nearest x := by
  unfold nearest
  split
  · exact le_refl _
  · split
    · omega
    · split <;> omega

/-- An even number is reached from half a unit below. -/
theorem le_nearest_iff {n : ℤ} (even : n % 2 = 0) (x : ℚ) : n ≤ nearest x ↔ (n : ℚ) - 1 / 2 ≤ x := by
  have near := abs_le.mp (nearest_near x)
  constructor
  · intro le
    have : (n : ℚ) ≤ nearest x := by exact_mod_cast le
    linarith [near.2]
  · intro half
    by_contra hlt
    have le : (nearest x : ℚ) ≤ n - 1 := by exact_mod_cast (show nearest x ≤ n - 1 by omega)
    -- The only number that rounds to `n - 1` from so far above is the middle, which goes to the even one.
    have value : x = n - 1 / 2 := by linarith [near.1]
    have floor : ⌊x⌋ = n - 1 := by
      rw [Int.floor_eq_iff, value]
      push_cast
      constructor <;> linarith
    have fraction : x - ⌊x⌋ = 1 / 2 := by
      rw [floor, value]
      push_cast
      ring
    have rounded : nearest x = ⌊x⌋ + 1 := by
      unfold nearest
      rw [if_neg (by linarith), if_neg (by linarith), if_neg (by omega)]
    omega

theorem ulp_pos (x : ℚ) : 0 < ulp x := zpow_pos (by norm_num) _

theorem ulp_le {x : ℚ} (pos : 0 < x) : ulp x ≤ x / 2 ^ 52 := by
  have le : (2 : ℚ) ^ Int.log 2 x ≤ x := Int.zpow_log_le_self (by norm_num) pos
  rw [ulp, zpow_sub₀ two_ne_zero]
  exact div_le_div_of_nonneg_right le (by positivity)

theorem round_near {x : ℚ} (pos : 0 < x) : |round x - x| ≤ x / 2 ^ 53 := by
  have unit := ulp_pos x
  have split : round x - x = (nearest (x / ulp x) - x / ulp x) * ulp x := by
    rw [round, if_neg pos.ne', sub_mul, div_mul_cancel₀ x unit.ne']
  rw [split, abs_mul, abs_of_pos unit]
  calc |(nearest (x / ulp x) : ℚ) - x / ulp x| * ulp x ≤ 1 / 2 * ulp x :=
        mul_le_mul_of_nonneg_right (nearest_near _) unit.le
    _ ≤ 1 / 2 * (x / 2 ^ 52) := mul_le_mul_of_nonneg_left (ulp_le pos) (by norm_num)
    _ = x / 2 ^ 53 := by ring

theorem round_le {x : ℚ} (nonneg : 0 ≤ x) : round x ≤ (1 + 1 / 2 ^ 53) * x := by
  rcases nonneg.eq_or_lt with rfl | pos
  · rw [round_zero, mul_zero]
  · have := (abs_le.mp (round_near pos)).2
    linarith

theorem le_round {x : ℚ} (nonneg : 0 ≤ x) : (1 - 1 / 2 ^ 53) * x ≤ round x := by
  rcases nonneg.eq_or_lt with rfl | pos
  · rw [round_zero, mul_zero]
  · have := (abs_le.mp (round_near pos)).1
    linarith

theorem round_nonneg {x : ℚ} (nonneg : 0 ≤ x) : 0 ≤ round x :=
  le_trans (mul_nonneg (by norm_num) nonneg) (le_round nonneg)

/-- From the middle of the last gap on, a number rounds to one or more. -/
theorem one_le_round_iff {x : ℚ} (half : 1 / 2 ≤ x) : 1 ≤ round x ↔ 1 - 1 / 2 ^ 54 ≤ x := by
  have pos : 0 < x := by linarith
  have unit := ulp_pos x
  rcases lt_or_ge x 1 with small | large
  · have exponent : Int.log 2 x = -1 := by
      refine le_antisymm ?_ ?_
      · have : Int.log 2 x < 0 := (Int.lt_zpow_iff_log_lt (by norm_num) pos).mp (by simpa using small)
        omega
      · refine (Int.zpow_le_iff_le_log (by norm_num) pos).mp ?_
        norm_num at half ⊢
        exact half
    have gap : ulp x = 1 / 2 ^ 53 := by
      rw [ulp, exponent]
      norm_num
    have rounded : 1 ≤ round x ↔ (2 : ℤ) ^ 53 ≤ nearest (x / ulp x) := by
      rw [round, if_neg pos.ne', gap, mul_one_div, le_div_iff₀ (by positivity), one_mul]
      exact_mod_cast Iff.rfl
    rw [rounded, le_nearest_iff (by norm_num), gap, div_div_eq_mul_div, div_one]
    push_cast
    constructor <;> intro h <;> linarith
  · refine iff_of_true ?_ (by linarith)
    have le : (2 : ℚ) ^ Int.log 2 x ≤ x := Int.zpow_log_le_self (by norm_num) pos
    have scaled : (2 : ℤ) ^ 52 ≤ ⌊x / ulp x⌋ := by
      rw [Int.le_floor, le_div_iff₀ unit, ulp, zpow_sub₀ two_ne_zero]
      push_cast
      calc (2 : ℚ) ^ 52 * (2 ^ Int.log 2 x / 2 ^ (52 : ℤ)) = 2 ^ Int.log 2 x := by field_simp
        _ ≤ x := le
    have one : (1 : ℚ) ≤ 2 ^ Int.log 2 x := by
      refine one_le_zpow₀ (by norm_num) ((Int.zpow_le_iff_le_log (by norm_num) pos).mp ?_)
      simpa using large
    rw [round, if_neg pos.ne']
    calc (1 : ℚ) ≤ 2 ^ Int.log 2 x := one
      _ = 2 ^ 52 * ulp x := by rw [ulp, zpow_sub₀ two_ne_zero]; field_simp
      _ ≤ nearest (x / ulp x) * ulp x := by
        refine mul_le_mul_of_nonneg_right ?_ unit.le
        exact_mod_cast scaled.trans (floor_le_nearest _)

end Binary64
