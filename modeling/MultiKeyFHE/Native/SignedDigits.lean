import MultiKeyFHE.Native.Poly
import Mathlib.Algebra.BigOperators.Intervals

/-!
# What the signed digits leave

The digits of a number between `-B/2` and `B/2` recompose it up to a carry out of the top one, which the loop of
`SignedDigitDecompose` drops. `recomposes_iff` says for which coefficients the first digit is all that is lost.
-/

namespace MultiKeyFHE

namespace SignedDigits
variable {g : ℕ}

theorem low_range (hg : 1 ≤ g) (d : ℤ) : -(2 ^ (g - 1) : ℤ) ≤ low g d ∧ low g d < 2 ^ (g - 1) := by
  obtain ⟨h, rfl⟩ : ∃ h, g = h + 1 := ⟨g - 1, by omega⟩
  have base : 2 ^ (h + 1) = 2 * 2 ^ h := pow_succ' 2 h
  have pos : 0 < 2 ^ h := Nat.two_pow_pos h
  have lower := Int.le_bmod (x := d) (m := 2 ^ (h + 1)) (by omega)
  have upper := Int.bmod_lt (x := d) (m := 2 ^ (h + 1)) (by omega)
  rw [low, Nat.add_sub_cancel]
  rw [base] at *
  push_cast at lower upper
  generalize (2 ^ h : ℤ) = H at *
  omega

theorem low_add_rest (g : ℕ) (d : ℤ) : low g d + 2 ^ g * rest g d = d := by
  have whole : (2 ^ g : ℤ) ∣ d - low g d := by
    have := Int.dvd_self_sub_bmod (x := d) (m := 2 ^ g)
    exact_mod_cast this
  rw [rest, Int.mul_ediv_cancel' whole]
  ring

/-- What is left after `count` passes. -/
def carry (g : ℕ) : ℕ → ℤ → ℤ
  | 0, d => d
  | count + 1, d => carry g count (rest g d)

theorem sum_digits_add_carry (g count : ℕ) (d : ℤ) :
    (∑ i ∈ Finset.range count, (2 ^ g : ℤ) ^ i * digit g i d) + (2 ^ g) ^ count * carry g count d = d := by
  induction count generalizing d with
  | zero => simp [carry]
  | succ count ih =>
    rw [Finset.sum_range_succ', pow_zero, one_mul]
    simp only [digit, carry, pow_succ', mul_assoc, ← Finset.mul_sum]
    have next := ih (rest g d)
    have first := low_add_rest g d
    linear_combination first + 2 ^ g * next

theorem digit_range (hg : 1 ≤ g) (i : ℕ) (d : ℤ) : -(2 ^ (g - 1) : ℤ) ≤ digit g i d ∧ digit g i d < 2 ^ (g - 1) := by
  induction i generalizing d with
  | zero => exact low_range hg d
  | succ i ih => exact ih _

/-- `1 + B + ... + B ^ (count - 1)`. -/
def repunit (g count : ℕ) : ℤ := ∑ i ∈ Finset.range count, (2 ^ g : ℤ) ^ i

/-- The largest number that `count` digits write. -/
def largest (g count : ℕ) : ℤ := (2 ^ (g - 1) - 1) * repunit g count

theorem repunit_mul (g count : ℕ) : (2 ^ g - 1) * repunit g count + 1 = (2 ^ g : ℤ) ^ count := by
  have := mul_geom_sum (2 ^ g : ℤ) count
  rw [repunit]
  linarith

theorem sum_digits_range (hg : 1 ≤ g) (count : ℕ) (d : ℤ) :
    -(2 ^ (g - 1) * repunit g count) ≤ (∑ i ∈ Finset.range count, (2 ^ g : ℤ) ^ i * digit g i d) ∧
      (∑ i ∈ Finset.range count, (2 ^ g : ℤ) ^ i * digit g i d) ≤ largest g count := by
  rw [largest, repunit, Finset.mul_sum, Finset.mul_sum, ← Finset.sum_neg_distrib]
  constructor
  · refine Finset.sum_le_sum fun i _ => ?_
    rw [mul_comm _ ((2 ^ g : ℤ) ^ i), ← mul_neg]
    exact mul_le_mul_of_nonneg_left (digit_range hg i d).1 (by positivity)
  · refine Finset.sum_le_sum fun i _ => ?_
    rw [mul_comm _ ((2 ^ g : ℤ) ^ i)]
    exact mul_le_mul_of_nonneg_left (Int.le_sub_one_of_lt (digit_range hg i d).2) (by positivity)

/-- A centered number has a carry only above the largest one that its digits write. -/
theorem carry_eq (hg : 1 ≤ g) {count : ℕ} (hcount : 1 ≤ count) {d : ℤ} (lower : -((2 ^ g) ^ count : ℤ) ≤ 2 * d)
    (upper : 2 * d ≤ (2 ^ g) ^ count) : carry g count d = if largest g count < d then 1 else 0 := by
  obtain ⟨sum_lower, sum_upper⟩ := sum_digits_range hg count d
  have whole := sum_digits_add_carry g count d
  have unit := repunit_mul g count
  have half : (2 ^ g : ℤ) = 2 * 2 ^ (g - 1) := by
    rw [← pow_succ', Nat.sub_add_cancel hg]
  have positive : 1 ≤ repunit g count := by
    have first : (2 ^ g : ℤ) ^ 0 ≤ repunit g count :=
      Finset.single_le_sum (f := fun i => (2 ^ g : ℤ) ^ i) (fun i _ => by positivity) (Finset.mem_range.mpr hcount)
    rwa [pow_zero] at first
  have two : 2 * repunit g count ≤ 2 ^ g * repunit g count :=
    mul_le_mul_of_nonneg_right (by exact_mod_cast Nat.pow_le_pow_right (show 0 < 2 by omega) hg) (by omega)
  have ends : 2 ^ (g - 1) * repunit g count + largest g count + 1 = (2 ^ g : ℤ) ^ count := by
    rw [largest, ← unit, half]
    ring
  have bottom : 2 * (2 ^ (g - 1) * repunit g count) = (2 ^ g : ℤ) ^ count - 1 + repunit g count := by
    rw [← unit, half]
    ring
  rw [half, mul_assoc] at two
  generalize (2 ^ g : ℤ) ^ count = P at *
  generalize carry g count d = t at *
  have power : 0 < P := by linarith
  split
  · rename_i above
    by_contra other
    rcases lt_or_gt_of_ne other with small | large
    · have : P * t ≤ 0 := mul_nonpos_of_nonneg_of_nonpos power.le (by omega)
      linarith
    · have : P * 2 ≤ P * t := mul_le_mul_of_nonneg_left (by omega) power.le
      linarith
  · rename_i inside
    by_contra other
    rcases lt_or_gt_of_ne other with negative | large
    · have : P * t ≤ P * -1 := mul_le_mul_of_nonneg_left (by omega) power.le
      linarith
    · have : P * 1 ≤ P * t := mul_le_mul_of_nonneg_left (by omega) power.le
      linarith

theorem store_range {Q : ℕ} (hQ : 2 ^ g < Q) {r : ℤ} (hg : 1 ≤ g) (lower : -(2 ^ (g - 1) : ℤ) ≤ r)
    (upper : r < 2 ^ (g - 1)) : 0 ≤ store Q r ∧ store Q r < Q := by
  have half : 2 ^ g = 2 * 2 ^ (g - 1) := by
    rw [← pow_succ', Nat.sub_add_cancel hg]
  have positive : 0 < 2 ^ (g - 1) := Nat.two_pow_pos _
  have cast : ((2 ^ (g - 1) : ℕ) : ℤ) = 2 ^ (g - 1) := by push_cast; rfl
  rw [store]
  split <;> omega

theorem center_cast (Q t : ℕ) : ((center Q t : ℤ) : ZMod Q) = t := by
  unfold center
  split <;> simp

theorem center_range (Q : ℕ) {t : ℕ} (ht : t < Q) : -(Q + 1 : ℤ) ≤ 2 * center Q t ∧ 2 * center Q t ≤ Q := by
  unfold center
  split <;> omega

end SignedDigits

namespace NativePoly
open SignedDigits Negacyclic NegPoly
variable {N Q : ℕ}

/-- The digits of every coefficient are at most half a base, stored as residues, and with their gadget powers they give
the coefficient up to one digit. -/
def Recomposes (g digitsG : ℕ) (a : NativePoly N Q) : Prop :=
  (∀ i < digitsG - 1, ∀ k, ∃ r : ℤ, (-(2 ^ (g - 1) : ℤ) ≤ r ∧ r < 2 ^ (g - 1)) ∧ (0 ≤ store Q r ∧ store Q r < Q) ∧
    (signedDigitDecompose (ctz (2 ^ g)) a i).coeff k = ((store Q r : ℤ) : ZMod Q)) ∧
  ∀ k, ∃ rho : ℤ, (-(2 ^ (g - 1) : ℤ) ≤ rho ∧ rho < 2 ^ (g - 1)) ∧
    ∑ i ∈ Finset.range (digitsG - 1), ((2 ^ g : ℕ) : ZMod Q) ^ (i + 1) * (signedDigitDecompose (ctz (2 ^ g)) a i).coeff k =
      a.coeff k - rho

/-- The digits recompose the coefficient less its first digit and the carry. -/
theorem sum_signedDigits [NeZero Q] (g digits : ℕ) (a : NativePoly N Q) (k : Fin N) :
    ∑ i ∈ Finset.range digits, ((2 ^ g : ℕ) : ZMod Q) ^ (i + 1) * (signedDigitDecompose g a i).coeff k =
      a.coeff k - ((low g (center Q (a.coeff k).val) +
        (2 ^ g) ^ (digits + 1) * carry g (digits + 1) (center Q (a.coeff k).val) : ℤ) : ZMod Q) := by
  have value : ((center Q (a.coeff k).val : ℤ) : ZMod Q) = a.coeff k := by
    rw [center_cast, ZMod.natCast_zmod_val]
  simp only [coeff_signedDigitDecompose]
  generalize center Q (a.coeff k).val = d at value ⊢
  have whole := congrArg (Int.cast : ℤ → ZMod Q) (sum_digits_add_carry g (digits + 1) d)
  rw [value, Finset.sum_range_succ', pow_zero, one_mul] at whole
  simp only [digit] at whole
  push_cast at whole ⊢
  linear_combination whole

/-- Where there is a carry, the modulus is so near the power of the base that its double passes it by a digit. -/
theorem lt_two_mul_of_carry {g digitsG c : ℕ} (hg : 2 ≤ g) (hd : 2 ≤ digitsG) (half : c < Q / 2)
    (top : largest g digitsG < c) : (2 ^ g : ℤ) ^ digitsG + 2 ^ g < 2 * Q + 2 := by
  have unit := repunit_mul g digitsG
  have base : (2 ^ g : ℤ) = 2 * 2 ^ (g - 1) := by
    rw [← pow_succ', Nat.sub_add_cancel (by omega)]
  have two : (2 : ℤ) ≤ 2 ^ (g - 1) := by
    have := Nat.pow_le_pow_right (show 0 < 2 by omega) (show 1 ≤ g - 1 by omega)
    exact_mod_cast this
  have long : 1 + 2 ^ g ≤ repunit g digitsG := by
    have first : ∑ i ∈ Finset.range 2, (2 ^ g : ℤ) ^ i ≤ repunit g digitsG :=
      Finset.sum_le_sum_of_subset_of_nonneg (Finset.range_mono hd) fun i _ _ => by positivity
    simpa [Finset.sum_range_succ] using first
  rw [largest] at top
  rw [base] at unit long ⊢
  generalize (2 ^ (g - 1) : ℤ) = H at *
  generalize repunit g digitsG = R at *
  have room : 2 * ((H - 1) * R) + 4 ≤ Q := by omega
  nlinarith

/-- The first digit with the carry is congruent to a remainder of one digit exactly where the carry adds less than is left
above the first digit. -/
theorem remainder_iff {g digitsG : ℕ} (hg : 2 ≤ g) (hd : 2 ≤ digitsG) (above : Q ≤ (2 ^ g) ^ digitsG) {c : ℕ} (small : c < Q)
    (x : ZMod Q) :
    (∃ rho : ℤ, (-(2 ^ (g - 1) : ℤ) ≤ rho ∧ rho < 2 ^ (g - 1)) ∧
        x - ((low g (center Q c) + (2 ^ g) ^ digitsG * carry g digitsG (center Q c) : ℤ) : ZMod Q) = x - rho) ↔
      (c < Q / 2 → largest g digitsG < c → (c : ℤ).bmod (2 ^ g) + ((2 ^ g) ^ digitsG - Q) < 2 ^ (g - 1)) := by
  obtain ⟨lower, upper⟩ := center_range Q small
  obtain ⟨low_lower, low_upper⟩ := low_range (g := g) (by omega) (center Q c)
  have wide : (Q : ℤ) ≤ (2 ^ g) ^ digitsG := by exact_mod_cast above
  have even : (2 : ℤ) ∣ (2 ^ g) ^ digitsG := by
    rw [← pow_mul]
    exact dvd_pow_self 2 (Nat.mul_ne_zero (by omega) (by omega))
  rw [carry_eq (by omega) (show 1 ≤ digitsG by omega) (by omega) (by omega)]
  by_cases big : largest g digitsG < center Q c
  · have nonneg : 0 ≤ largest g digitsG := by
      rw [largest, repunit]
      have : (1 : ℤ) ≤ 2 ^ (g - 1) := one_le_pow₀ (by norm_num)
      exact mul_nonneg (by omega) (Finset.sum_nonneg fun i _ => by positivity)
    have half : c < Q / 2 := by
      by_contra upperHalf
      rw [center, if_neg upperHalf] at big
      omega
    have self : center Q c = c := if_pos half
    rw [self] at big low_lower low_upper ⊢
    have double := lt_two_mul_of_carry hg hd half big
    have width : (2 ^ g : ℤ) = 2 * 2 ^ (g - 1) := by
      rw [← pow_succ', Nat.sub_add_cancel (by omega)]
    rw [if_pos big, mul_one, forall_prop_of_true half, forall_prop_of_true big]
    change _ ↔ low g c + _ < _
    constructor
    · rintro ⟨rho, ⟨rho_lower, rho_upper⟩, same⟩
      by_contra outside
      have congruent : rho ≡ low g c + (2 ^ g) ^ digitsG [ZMOD Q] :=
        (ZMod.intCast_eq_intCast_iff _ _ Q).mp (sub_right_injective same).symm
      obtain ⟨z, hz⟩ := congruent.dvd
      generalize (2 ^ g : ℤ) ^ digitsG = P at *
      -- one modulus lower the remainder is too large, two moduli lower too small
      have two : 2 ≤ z := by
        by_contra few
        have : (Q : ℤ) * z ≤ Q * 1 := mul_le_mul_of_nonneg_left (by omega) (by omega)
        omega
      have : (Q : ℤ) * 2 ≤ Q * z := mul_le_mul_of_nonneg_left two (by omega)
      omega
    · intro fits
      refine ⟨low g c + ((2 ^ g) ^ digitsG - Q), ⟨by omega, fits⟩, ?_⟩
      push_cast
      rw [ZMod.natCast_self, sub_zero]
  · rw [if_neg big, mul_zero, add_zero]
    refine iff_of_true ⟨_, ⟨low_lower, low_upper⟩, rfl⟩ fun half top => ?_
    rw [center, if_pos half] at big
    exact absurd top big

/-- All that is lost is the first digit, unless a coefficient lies above the largest number that the digits write and the
power of the base is too far above the modulus. -/
theorem recomposes_iff {g digitsG : ℕ} (hg : 2 ≤ g) (narrow : g < 32) (hd : 2 ≤ digitsG) (below : (2 ^ g) ^ (digitsG - 1) < Q)
    (above : Q ≤ (2 ^ g) ^ digitsG) (a : NativePoly N Q) :
    Recomposes g digitsG a ↔ ∀ k, (a.coeff k).val < Q / 2 → largest g digitsG < (a.coeff k).val →
      ((a.coeff k).val : ℤ).bmod (2 ^ g) + ((2 ^ g) ^ digitsG - Q) < 2 ^ (g - 1) := by
  have base : 2 ^ g < Q := by
    have := Nat.le_self_pow (show digitsG - 1 ≠ 0 by omega) (2 ^ g)
    omega
  have : NeZero Q := ⟨by omega⟩
  rw [Recomposes, ctz_two_pow narrow]
  have digits : ∀ i < digitsG - 1, ∀ k, ∃ r : ℤ, (-(2 ^ (g - 1) : ℤ) ≤ r ∧ r < 2 ^ (g - 1)) ∧
      (0 ≤ store Q r ∧ store Q r < Q) ∧ (signedDigitDecompose g a i).coeff k = ((store Q r : ℤ) : ZMod Q) := by
    intro i _ k
    obtain ⟨lower, upper⟩ := digit_range (g := g) (by omega) i (rest g (center Q (a.coeff k).val))
    exact ⟨_, ⟨lower, upper⟩, store_range base (by omega) lower upper, rfl⟩
  rw [and_iff_right digits]
  refine forall_congr' fun k => ?_
  rw [sum_signedDigits, show digitsG - 1 + 1 = digitsG by omega]
  exact remainder_iff hg hd above (ZMod.val_lt _) _

/-- The 27-bit prime and the base `2 ^ 9` of the 128-bit parameters, and the first coefficient above the largest number: the
remainder is not a digit. -/
theorem first_carry_not_recomposed : 512 ^ (3 - 1) < 134176769 ∧ 134176769 ≤ 512 ^ 3 ∧
    ¬ Recomposes 9 3 (const 66977536 : NativePoly 2048 134176769) := by
  refine ⟨by decide, by decide, ?_⟩
  rintro ⟨-, remainders⟩
  have remainder := remainders 0
  have value : ((const 66977536 : NativePoly 2048 134176769).coeff 0).val = 66977536 := by decide +kernel
  rw [ctz_two_pow (by decide), sum_signedDigits, value] at remainder
  have fits := (remainder_iff (by decide) (by decide) (by decide) (by decide) _).mp remainder
  revert fits
  decide +kernel

/-- Modulo 13 with the base four no coefficient is above the largest number. -/
theorem thirteen_recomposed : 4 ^ (2 - 1) < 13 ∧ 13 ≤ 4 ^ 2 ∧ Recomposes 2 2 (ofValues [1, 5, 7, 12] : NativePoly 4 13) :=
  ⟨by decide, by decide, (recomposes_iff (by decide) (by decide) (by decide) (by decide) (by decide) _).mpr (by decide)⟩

end NativePoly
end MultiKeyFHE
