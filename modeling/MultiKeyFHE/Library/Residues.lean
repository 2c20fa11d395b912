import Mathlib.Algebra.BigOperators.Fin
import Mathlib.Algebra.BigOperators.ModEq
import Mathlib.Algebra.Order.BigOperators.Ring.Finset
import Mathlib.Data.Nat.GCD.BigOperators
import Mathlib.Data.ZMod.Basic
import Mathlib.RingTheory.Coprime.Lemmas
import Mathlib.Tactic.LinearCombination
import Mathlib.Tactic.Positivity

/-!
# Residue number systems

A number modulo a product of coprime moduli is kept as its residues. Chains of moduli are shortened from the end, and a number
that is divided by the moduli that go keeps its residue modulo one more number.
-/

namespace Residues
open Finset

/-- The inverse modulo `m`, reduced. -/
def inverse (a m : ℕ) : ℕ := ((a : ZMod m)⁻¹).val

theorem inverse_modEq {a m : ℕ} (coprime : a.Coprime m) : (a * inverse a m : ℤ) ≡ 1 [ZMOD m] := by
  rw [← ZMod.intCast_eq_intCast_iff]
  push_cast
  rw [inverse]
  rcases Nat.eq_zero_or_pos m with rfl | pos
  · rw [Nat.coprime_zero_right] at coprime
    subst coprime
    rfl
  · have : NeZero m := ⟨pos.ne'⟩
    rw [ZMod.natCast_zmod_val, ZMod.coe_mul_inv_eq_one a coprime]

theorem inverse_lt {a m : ℕ} (pos : 0 < m) : inverse a m < m := by
  have : NeZero m := ⟨pos.ne'⟩
  exact ZMod.val_lt _

/-- A factor that is prime to the modulus cancels. -/
theorem cancel_left {c : ℕ} {x y : ℤ} {m : ℕ} (coprime : c.Coprime m) (same : c * x ≡ c * y [ZMOD m]) : x ≡ y [ZMOD m] := by
  have unit := inverse_modEq coprime
  calc x = 1 * x := (one_mul x).symm
    _ ≡ (c * inverse c m) * x [ZMOD m] := unit.symm.mul_right x
    _ = inverse c m * (c * x) := by ring
    _ ≡ inverse c m * (c * y) [ZMOD m] := same.mul_left _
    _ = (c * inverse c m) * y := by ring
    _ ≡ 1 * y [ZMOD m] := unit.mul_right y
    _ = y := one_mul y

/-- Coprime moduli above one. -/
structure Basis (ι : Type*) where
  q : ι → ℕ
  two_le : ∀ i, 2 ≤ q i
  coprime : Pairwise fun i j => (q i).Coprime (q j)

namespace Basis
variable {ι : Type*} (B : Basis ι)

instance (i : ι) : NeZero (B.q i) := ⟨by have := B.two_le i; omega⟩

theorem pos (i : ι) : 0 < B.q i := by
  have := B.two_le i
  omega

/-- The moduli at some places. -/
def restrict {κ : Type*} (f : κ → ι) (injective : f.Injective) : Basis κ where
  q j := B.q (f j)
  two_le j := B.two_le (f j)
  coprime _ _ other := B.coprime (injective.ne other)

variable [Fintype ι]

def modulus : ℕ := ∏ i, B.q i

def hat (i : ι) : ℕ := B.modulus / B.q i

def hatInv (i : ι) : ℕ := inverse (B.hat i) (B.q i)

theorem modulus_pos : 0 < B.modulus := Finset.prod_pos fun i _ => B.pos i

theorem dvd_modulus (i : ι) : B.q i ∣ B.modulus := Finset.dvd_prod_of_mem _ (mem_univ i)

theorem coprime_modulus {m : ℕ} (apart : ∀ i, m.Coprime (B.q i)) : m.Coprime B.modulus :=
  Nat.Coprime.prod_right fun i _ => apart i

/-- Congruence modulo the product is congruence modulo each modulus. -/
theorem modEq_modulus {x y : ℤ} (same : ∀ i, x ≡ y [ZMOD B.q i]) : x ≡ y [ZMOD B.modulus] := by
  rw [Int.modEq_iff_dvd, modulus, Nat.cast_prod]
  exact Fintype.prod_dvd_of_coprime (fun i j other => Nat.isCoprime_iff_coprime.mpr (B.coprime other))
    fun i => Int.modEq_iff_dvd.mp (same i)

theorem modEq_of_modulus {x y : ℤ} (same : x ≡ y [ZMOD B.modulus]) (i : ι) : x ≡ y [ZMOD B.q i] :=
  same.of_dvd (Int.natCast_dvd_natCast.mpr (B.dvd_modulus i))

variable [DecidableEq ι]

theorem hat_eq (i : ι) : B.hat i = ∏ j ∈ univ.erase i, B.q j := by
  rw [hat, modulus, ← mul_prod_erase univ B.q (mem_univ i), Nat.mul_div_cancel_left _ (B.pos i)]

theorem hat_coprime (i : ι) : (B.hat i).Coprime (B.q i) := by
  rw [hat_eq]
  exact Nat.Coprime.prod_left fun j member => B.coprime (ne_of_mem_erase member)

theorem dvd_hat {i j : ι} (other : j ≠ i) : B.q j ∣ B.hat i := by
  rw [hat_eq]
  exact dvd_prod_of_mem _ (mem_erase.mpr ⟨other, mem_univ j⟩)

theorem hat_mul_hatInv (i : ι) : (B.hat i * B.hatInv i : ℤ) ≡ 1 [ZMOD B.q i] := inverse_modEq (B.hat_coprime i)

/-- The number with given residues. -/
theorem sum_residue (r : ι → ℕ) (j : ι) : ∑ i, (r i * (B.hat i * B.hatInv i) : ℤ) ≡ r j [ZMOD B.q j] := by
  rw [← add_sum_erase univ _ (mem_univ j)]
  have others : ∑ i ∈ univ.erase j, (r i * (B.hat i * B.hatInv i) : ℤ) ≡ 0 [ZMOD B.q j] := by
    refine Int.modEq_zero_iff_dvd.mpr (dvd_sum fun i member => ?_)
    exact ((Int.natCast_dvd_natCast.mpr (B.dvd_hat (ne_of_mem_erase member).symm)).mul_right _).mul_left _
  simpa using ((B.hat_mul_hatInv j).mul_left (r j)).add others

theorem sum_residues {x : ℤ} {r : ι → ℕ} (residues : ∀ i, (r i : ℤ) ≡ x [ZMOD B.q i]) :
    ∑ i, (r i * (B.hat i * B.hatInv i) : ℤ) ≡ x [ZMOD B.modulus] :=
  B.modEq_modulus fun j => (B.sum_residue r j).trans (residues j)

end Basis

/-! ### Chains of moduli -/

namespace Basis
variable {n L : ℕ}

/-- All moduli but the last. -/
def init (B : Basis (Fin (n + 1))) : Basis (Fin n) := B.restrict Fin.castSucc (Fin.castSucc_injective n)

def last (B : Basis (Fin (n + 1))) : ℕ := B.q (Fin.last n)

theorem two_le_last (B : Basis (Fin (n + 1))) : 2 ≤ B.last := B.two_le _

instance (B : Basis (Fin (n + 1))) : NeZero B.last := ⟨by have := B.two_le_last; omega⟩

theorem last_coprime (B : Basis (Fin (n + 1))) (i : Fin n) : B.last.Coprime (B.init.q i) := B.coprime (Fin.castSucc_ne_last i).symm

theorem init_coprime_last (B : Basis (Fin (n + 1))) : B.init.modulus.Coprime B.last := (B.init.coprime_modulus B.last_coprime).symm

/-- The first moduli. -/
def take (B : Basis (Fin L)) (n : ℕ) (h : n ≤ L) : Basis (Fin n) := B.restrict (Fin.castLE h) (Fin.castLE_injective h)

/-- The product of the moduli from the one at `n` to the one before `m`. -/
def dropped (B : Basis (Fin L)) (n m : ℕ) : ℕ := ∏ i : Fin L with n ≤ i.val ∧ i.val < m, B.q i

theorem dropped_pos (B : Basis (Fin L)) (n m : ℕ) : 0 < B.dropped n m := Finset.prod_pos fun i _ => B.pos i

theorem dropped_self (B : Basis (Fin L)) (n : ℕ) : B.dropped n n = 1 := by
  rw [dropped, Finset.prod_eq_one]
  intro i member
  have := (Finset.mem_filter.mp member).2
  omega

theorem dropped_succ (B : Basis (Fin L)) {m : ℕ} (le : n ≤ m) (h : m < L) : B.dropped n (m + 1) = B.q ⟨m, h⟩ * B.dropped n m := by
  have split : (univ.filter fun i : Fin L => n ≤ i.val ∧ i.val < m + 1) =
      insert ⟨m, h⟩ (univ.filter fun i : Fin L => n ≤ i.val ∧ i.val < m) := by
    ext i
    simp only [mem_filter, mem_univ, true_and, mem_insert, Fin.ext_iff]
    omega
  rw [dropped, split, Finset.prod_insert (by simp)]
  rfl

theorem dropped_modEq_one (B : Basis (Fin L)) {t : ℕ} (one : ∀ i, B.q i ≡ 1 [MOD t]) (n m : ℕ) : B.dropped n m ≡ 1 [MOD t] :=
  Nat.ModEq.prod_one fun i _ => one i

end Basis

/-- `y` is `x` divided by `D` and rounded to a number that keeps `x` modulo `t`. -/
structure Scaled (t D : ℕ) (x y : ℤ) : Prop where
  same : D * y ≡ x [ZMOD t]
  near : |D * y - x| ≤ t * (D - 1)

theorem Scaled.refl (t : ℕ) (x : ℤ) : Scaled t 1 x x := ⟨by simp, by simp⟩

theorem scaled_of_two_mul {t m : ℕ} (h : 2 ≤ m) {x y δ : ℤ} (exact : m * y = x + t * δ) (small : 2 * |δ| ≤ m) : Scaled t m x y := by
  refine ⟨?_, ?_⟩
  · rw [exact]
    exact Int.modEq_iff_dvd.mpr ⟨-δ, by ring⟩
  · rw [exact, add_sub_cancel_left, abs_mul, Nat.abs_cast]
    exact mul_le_mul_of_nonneg_left (by omega) (Nat.cast_nonneg t)

/-- One division after another. -/
theorem Scaled.trans {t D E : ℕ} {x y z : ℤ} (first : Scaled t D x y) (second : Scaled t E y z) : Scaled t (D * E) x z := by
  have split : (D * E : ℕ) * z - x = D * (E * z - y) + (D * y - x) := by
    push_cast
    ring
  refine ⟨?_, ?_⟩
  · push_cast
    rw [mul_assoc]
    exact (second.same.mul_left D).trans first.same
  · rw [split]
    calc |D * (E * z - y) + (D * y - x)| ≤ |D * (E * z - y)| + |D * y - x| := abs_add_le _ _
      _ = D * |E * z - y| + |D * y - x| := by rw [abs_mul, Nat.abs_cast]
      _ ≤ D * (t * (E - 1)) + t * (D - 1) := add_le_add (mul_le_mul_of_nonneg_left second.near (Nat.cast_nonneg D)) first.near
      _ = t * ((D * E : ℕ) - 1) := by
        push_cast
        ring

end Residues
