import MultiKeyFHE.Library.Rotation

/-!
# Substituting a power of `X`

`f(X ^ k)` in `K[X]/(X^N + 1)`. Evaluating it is evaluating `f` at the `k`-th power, and when `k` is prime to `N`
its coefficients are those of `f` in another order, with the sign of the power of `X` they went to.
-/

namespace Negacyclic.NegPoly
open Polynomial

variable {N : ℕ} {K : Type*} [CommRing K] [NeZero N]

def substPow (k : ℕ) (f : NegPoly N K) : NegPoly N K := ∑ j, const (f.coeff j) * mono (j.val * k)

theorem evalAt_sum {A : Type*} [CommRing A] [Algebra K A] (ρ : A) {ι : Type*} (s : Finset ι) (f : ι → NegPoly N K) :
    evalAt ρ (∑ t ∈ s, f t) = ∑ t ∈ s, evalAt ρ (f t) := by
  classical
  induction s using Finset.induction_on with
  | empty => exact evalAt_zero ρ
  | insert t s fresh ih => rw [Finset.sum_insert fresh, Finset.sum_insert fresh, evalAt_add, ih]

theorem evalAt_substPow {A : Type*} [CommRing A] [Algebra K A] {ρ : A} (hρ : ρ ^ N = -1) (k : ℕ) (f : NegPoly N K) :
    evalAt ρ (substPow k f) = evalAt (ρ ^ k) f := by
  rw [substPow, evalAt_sum, evalAt]
  refine Finset.sum_congr rfl fun j _ => ?_
  rw [evalAt_mul hρ, evalAt_const, evalAt_mono hρ, ← pow_mul, mul_comm k]

theorem toAdjoin_substPow_eq_evalAt (k : ℕ) (f : NegPoly N K) :
    toAdjoin (substPow k f) = evalAt (AdjoinRoot.root (X ^ N + 1 : K[X]) ^ k) f := evalAt_substPow root_pow k f

omit [NeZero N] in
theorem root_pow_odd {k : ℕ} (odd : k % 2 = 1) : (AdjoinRoot.root (X ^ N + 1 : K[X]) ^ k) ^ N = -1 := by
  rw [← pow_mul, mul_comm, pow_mul, root_pow, (Nat.odd_iff.mpr odd).neg_one_pow]

theorem substPow_add (k : ℕ) (f g : NegPoly N K) : substPow k (f + g) = substPow k f + substPow k g := by
  ext i
  simp only [substPow, coeff_add, coeff_sum, coeff_const_mul, add_mul, Finset.sum_add_distrib]

/-- The substitution as an additive map. -/
def substHom (k : ℕ) : NegPoly N K →+ NegPoly N K := AddMonoidHom.mk' (substPow k) (substPow_add k)

theorem substPow_sub (k : ℕ) (f g : NegPoly N K) : substPow k (f - g) = substPow k f - substPow k g := map_sub (substHom k) f g

section Odd
variable {k : ℕ} (odd : k % 2 = 1)
include odd

/-- For an odd `k` the substitution respects `X ^ N = -1`. -/
theorem substPow_mul (f g : NegPoly N K) : substPow k (f * g) = substPow k f * substPow k g := by
  apply toAdjoin_injective
  simp only [toAdjoin_substPow_eq_evalAt, toAdjoin_mul, evalAt_mul (root_pow_odd odd)]

theorem substPow_substPow (j : ℕ) (f : NegPoly N K) : substPow k (substPow j f) = substPow (k * j) f := by
  apply toAdjoin_injective
  rw [toAdjoin_substPow_eq_evalAt, evalAt_substPow (root_pow_odd odd), toAdjoin_substPow_eq_evalAt, pow_mul]

theorem substPow_mono (e : ℕ) : substPow k (mono e : NegPoly N K) = mono (k * e) := by
  apply toAdjoin_injective
  rw [toAdjoin_substPow_eq_evalAt, evalAt_mono (root_pow_odd odd), toAdjoin_mono, pow_mul]

theorem substPow_xpow (z : ℤ) : substPow k (xpow z : NegPoly N K) = xpow (k * z) := by
  rw [xpow, substPow_mono odd, ← xpow_natCast]
  apply xpow_congr
  push_cast
  rw [Int.toNat_of_nonneg (Int.emod_nonneg _ two_mul_pos.ne')]
  exact (Int.mod_modEq z (2 * N)).mul_left _

end Odd

theorem substPow_one (f : NegPoly N K) : substPow 1 f = f := by
  apply toAdjoin_injective
  rw [toAdjoin_substPow_eq_evalAt, pow_one]
  rfl

theorem substPow_mod (k : ℕ) (f : NegPoly N K) : substPow (k % (2 * N)) f = substPow k f := by
  apply toAdjoin_injective
  have whole : AdjoinRoot.root (X ^ N + 1 : K[X]) ^ (2 * N) = 1 := by rw [mul_comm, pow_mul, root_pow, neg_one_sq]
  rw [toAdjoin_substPow_eq_evalAt, toAdjoin_substPow_eq_evalAt, ← pow_eq_pow_mod k whole]

theorem substPow_congr {j k : ℕ} (same : j ≡ k [MOD 2 * N]) (f : NegPoly N K) : substPow j f = substPow k f := by
  rw [← substPow_mod j, same, substPow_mod]

theorem coeff_substPow {k : ℕ} (injective : ∀ i < N, ∀ j < N, i * k % N = j * k % N → i = j) (f : NegPoly N K) (j : Fin N)
    {i : Fin N} (place : i.val = j.val * k % N) :
    (substPow k f).coeff i = (-1) ^ (j.val * k / N) * f.coeff j := by
  rw [substPow, coeff_sum, Finset.sum_eq_single j]
  · rw [coeff_const_mul, coeff_mono, if_pos place, mul_comm]
  · intro j' _ other
    rw [coeff_const_mul, coeff_mono, if_neg, mul_zero]
    intro same
    exact other (Fin.ext (injective j' j'.2 j j.2 (same.symm.trans place)))
  · exact fun absent => absurd (Finset.mem_univ j) absent

/-- `X ^ (2 * N - 1)` is the inverse of `X`: the coefficients come in the opposite order, negated except for the first. -/
theorem coeff_substPow_inverse (f : NegPoly N K) (i : Fin N) :
    (substPow (2 * N - 1) f).coeff i = if i = 0 then f.coeff 0 else -f.coeff (-i) := by
  have pos : 0 < N := NeZero.pos N
  have value : ∀ a < N, a * (2 * N - 1) = if a = 0 then 0 else N - a + N * (2 * a - 1) := by
    intro a ha
    split
    · rename_i zero
      rw [zero, zero_mul]
    · zify [show 1 ≤ 2 * N by omega, ha.le, show 1 ≤ 2 * a by omega]
      ring
  have injective : ∀ a < N, ∀ b < N, a * (2 * N - 1) % N = b * (2 * N - 1) % N → a = b := by
    intro a ha b hb same
    rw [value a ha, value b hb] at same
    split at same <;> split at same <;> simp only [Nat.add_mul_mod_self_left, Nat.zero_mod] at same
    · omega
    · rw [Nat.mod_eq_of_lt (by omega)] at same
      omega
    · rw [Nat.mod_eq_of_lt (by omega)] at same
      omega
    · rw [Nat.mod_eq_of_lt (by omega), Nat.mod_eq_of_lt (by omega)] at same
      omega
  by_cases zero : i = 0
  · rw [if_pos zero, coeff_substPow injective f 0 (by rw [zero]; simp)]
    simp
  · have nonzero : i.val ≠ 0 := fun h => zero (Fin.ext h)
    have opposite : (-i).val = N - i.val := by
      rw [Fin.val_neg', Nat.mod_eq_of_lt (by omega)]
    have here := value (N - i.val) (by omega)
    rw [if_neg (by omega)] at here
    rw [if_neg zero, coeff_substPow injective f (-i) (by
      rw [opposite, here, Nat.add_mul_mod_self_left, Nat.mod_eq_of_lt (by omega)]
      omega)]
    have odd : Odd (2 * (N - i.val) - 1) := ⟨N - i.val - 1, by omega⟩
    rw [opposite, here, Nat.add_mul_div_left _ _ pos, Nat.div_eq_of_lt (by omega), zero_add, odd.neg_one_pow, neg_one_mul]

theorem sum_substPow_inverse (a f : NegPoly N K) :
    ∑ j, (substPow (2 * N - 1) a).coeff j * f.coeff j = (a * f).coeff 0 := by
  rw [coeff_zero_mul]
  refine Finset.sum_congr rfl fun j _ => ?_
  rw [coeff_substPow_inverse]

end Negacyclic.NegPoly
