import Mathlib.Algebra.Polynomial.Reverse
import Mathlib.RingTheory.Polynomial.Cyclotomic.Basic

/-!
# Palindromic cyclotomic polynomials

But for the first one, a cyclotomic polynomial reads the same from both ends. Reversal goes through products, so an
induction over the divisors brings it down to a geometric sum.
-/

namespace Palindrome
open Polynomial

theorem reverse_prod {ι : Type*} (s : Finset ι) (f : ι → ℤ[X]) : (∏ i ∈ s, f i).reverse = ∏ i ∈ s, (f i).reverse := by
  classical
  induction s using Finset.induction_on with
  | empty => simpa using reverse_C (1 : ℤ)
  | insert i s outside ih => rw [Finset.prod_insert outside, Finset.prod_insert outside, reverse_mul_of_domain, ih]

theorem coeff_geom (n k : ℕ) : (∑ i ∈ Finset.range n, (X : ℤ[X]) ^ i).coeff k = if k < n then 1 else 0 := by
  simp only [finsetSum_coeff, coeff_X_pow, Finset.sum_ite_eq, Finset.mem_range]

theorem reverse_geom (n : ℕ) : (∑ i ∈ Finset.range n, (X : ℤ[X]) ^ i).reverse = ∑ i ∈ Finset.range n, X ^ i := by
  rcases Nat.eq_zero_or_pos n with rfl | pos
  · simp
  have top : (∑ i ∈ Finset.range n, (X : ℤ[X]) ^ i).natDegree = n - 1 := by
    apply natDegree_eq_of_le_of_coeff_ne_zero
    · exact natDegree_le_iff_coeff_eq_zero.mpr fun k above => by rw [coeff_geom, if_neg (by omega)]
    · rw [coeff_geom, if_pos (by omega)]
      exact one_ne_zero
  ext k
  rw [coeff_reverse, top, coeff_geom, coeff_geom]
  rcases Nat.lt_or_ge k n with inside | outside
  · rw [revAt_le (by omega), if_pos (by omega), if_pos inside]
  · rw [revAt_eq_self_of_lt (by omega)]

theorem reverse_cyclotomic {m : ℕ} (hm : 1 < m) : (cyclotomic m ℤ).reverse = cyclotomic m ℤ := by
  induction m using Nat.strong_induction_on with
  | _ m ih =>
    have member : m ∈ m.divisors.erase 1 := Finset.mem_erase.mpr ⟨hm.ne', Nat.mem_divisors_self m (by omega)⟩
    have split : cyclotomic m ℤ * ∏ d ∈ (m.divisors.erase 1).erase m, cyclotomic d ℤ = ∑ i ∈ Finset.range m, X ^ i := by
      rw [Finset.mul_prod_erase _ (cyclotomic · ℤ) member, prod_cyclotomic_eq_geom_sum (by omega)]
    have others : ∏ d ∈ (m.divisors.erase 1).erase m, (cyclotomic d ℤ).reverse =
        ∏ d ∈ (m.divisors.erase 1).erase m, cyclotomic d ℤ := by
      apply Finset.prod_congr rfl
      intro d hd
      obtain ⟨proper, other, divides, -⟩ : d ≠ m ∧ d ≠ 1 ∧ d ∣ m ∧ m ≠ 0 := by simpa using hd
      have le := Nat.le_of_dvd (by omega) divides
      have pos := Nat.pos_of_dvd_of_pos divides (by omega)
      exact ih d (by omega) (by omega)
    have reversed := congrArg reverse split
    rw [reverse_mul_of_domain, reverse_prod, others, reverse_geom, ← split] at reversed
    exact mul_right_cancel₀ (Finset.prod_ne_zero_iff.mpr fun d _ => cyclotomic_ne_zero d ℤ) reversed

theorem coeff_cyclotomic {m k : ℕ} (hm : 1 < m) (le : k ≤ m.totient) :
    (cyclotomic m ℤ).coeff (m.totient - k) = (cyclotomic m ℤ).coeff k := by
  have read := coeff_reverse (cyclotomic m ℤ) k
  rwa [reverse_cyclotomic hm, natDegree_cyclotomic, revAt_le le, eq_comm] at read

end Palindrome
