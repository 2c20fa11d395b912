import Mathlib.Algebra.Group.Int.Units
import Mathlib.Data.Int.ModEq
import Mathlib.Data.Nat.GCD.Basic
import Mathlib.Tactic.Ring
import Mathlib.Tactic.Linarith
import Mathlib.Tactic.LinearCombination

/-!
# Continuants

Euclid's algorithm down to the remainder one, as the list of its quotients, and the way back up, which finds the inverse of
one number modulo the other up to its sign.
-/

namespace Continuants

/-- Dividing `a` by `b`, and going on with the remainders, reaches the remainder one after these quotients. -/
inductive Descends : ℕ → ℕ → List ℕ → Prop
  | unit {a : ℕ} (pos : 1 ≤ a) : Descends a 1 []
  | divide {a b : ℕ} {qs : List ℕ} (more : 1 < b) (rest : Descends b (a % b) qs) : Descends a b (a / b :: qs)

/-- The last two continuants of the quotients, the shorter one first. -/
def climb : List ℕ → ℕ × ℕ
  | [] => (0, 1)
  | q :: qs => ((climb qs).2, q * (climb qs).2 + (climb qs).1)

variable {a b : ℕ} {qs : List ℕ}

theorem Descends.climb_le (down : Descends a b qs) : (climb qs).2 ≤ a ∧ (climb qs).1 ≤ b := by
  induction down with
  | unit pos => exact ⟨pos, Nat.zero_le 1⟩
  | @divide a b qs more rest ih =>
    obtain ⟨high, low⟩ := ih
    refine ⟨?_, high⟩
    calc a / b * (climb qs).2 + (climb qs).1 ≤ a / b * b + a % b := Nat.add_le_add (Nat.mul_le_mul_left _ high) low
      _ = a := by rw [Nat.mul_comm, Nat.div_add_mod]

theorem Descends.determinant (down : Descends a b qs) :
    (a * (climb qs).1 - b * (climb qs).2 : ℤ) = (-1) ^ (qs.length + 1) := by
  induction down with
  | unit pos => simp [climb]
  | @divide a b qs more rest ih =>
    have split : (b : ℤ) * (a / b : ℕ) + (a % b : ℕ) = a := by exact_mod_cast Nat.div_add_mod a b
    rw [List.length_cons, pow_succ, ← ih, ← split]
    simp only [climb]
    push_cast
    ring

theorem exists_descends (pos : 0 < b) (less : b < a) (coprime : a.Coprime b) : ∃ qs, Descends a b qs := by
  induction b using Nat.strong_induction_on generalizing a with
  | _ b ih =>
    by_cases one : b = 1
    · subst one
      exact ⟨[], .unit less.le⟩
    · have next : b.Coprime (a % b) := by
        rw [Nat.coprime_comm, Nat.Coprime, ← Nat.gcd_rec, Nat.gcd_comm]
        exact coprime
      have some : 0 < a % b := by
        rw [Nat.pos_iff_ne_zero]
        intro none
        rw [none, Nat.coprime_zero_right] at next
        exact one next
      obtain ⟨qs, down⟩ := ih (a % b) (Nat.mod_lt a pos) some (Nat.mod_lt a pos) next
      exact ⟨a / b :: qs, .divide (by omega) down⟩

/-- What the way up ends with, or its negative, is the inverse. -/
theorem Descends.inverse (down : Descends a b qs) (more : 1 < a) :
    (climb qs).2 < a ∧ (climb qs).2 ≠ 0 ∧ ((climb qs).2 * b : ℤ) ≡ (-1) ^ qs.length [ZMOD a] := by
  have le := down.climb_le.1
  have same := down.determinant
  have residue : ((climb qs).2 * b : ℤ) ≡ (-1) ^ qs.length [ZMOD a] := by
    apply Int.modEq_iff_dvd.mpr
    refine ⟨-(climb qs).1, ?_⟩
    rw [pow_succ] at same
    linear_combination same
  have unit : ¬ (a : ℤ) ∣ (-1) ^ qs.length := by
    intro divides
    have one := isUnit_of_dvd_unit divides (isUnit_one.neg.pow qs.length)
    rcases Int.isUnit_iff.mp one with same | same <;> omega
  refine ⟨lt_of_le_of_ne le fun full => unit ?_, fun none => unit ?_, residue⟩
  · rw [full] at residue
    exact (Int.modEq_zero_iff_dvd.mp (residue.symm.trans (Int.modEq_zero_iff_dvd.mpr (dvd_mul_right _ _))))
  · rw [none, Nat.cast_zero, zero_mul] at residue
    exact Int.modEq_zero_iff_dvd.mp residue.symm

end Continuants
