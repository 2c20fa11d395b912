import Mathlib.Algebra.Polynomial.Coeff
import Mathlib.Data.List.DropRight
import Mathlib.Data.List.GetD

/-!
# Dense polynomials

A polynomial as the list of its coefficients up to the leading one, so that two equal polynomials are the same list
and the degree is read from the length. The degree of the zero polynomial is `-1`.
-/

namespace DensePoly
open Polynomial

@[ext]
structure Dense (K : Type*) [Zero K] where
  rep : List K
  normalized : ∀ nonempty : rep ≠ [], rep.getLast nonempty ≠ 0

namespace Dense
variable {K : Type*}

instance [Zero K] [DecidableEq K] : DecidableEq (Dense K) := fun a b => decidable_of_iff (a.rep = b.rep) Dense.ext_iff.symm

section Coefficients
variable [Zero K]

instance : Zero (Dense K) := ⟨⟨[], fun nonempty => absurd rfl nonempty⟩⟩

def coeff (a : Dense K) (i : ℕ) : K := a.rep.getD i 0

def deg (a : Dense K) : ℤ := a.rep.length - 1

@[simp] theorem coeff_zero (i : ℕ) : (0 : Dense K).coeff i = 0 := rfl

theorem coeff_of_deg_lt {a : Dense K} {i : ℕ} (above : a.deg < i) : a.coeff i = 0 :=
  List.getD_eq_default _ _ (by unfold deg at above; omega)

/-- The leading coefficient bounds the degree. -/
theorem length_le {a : Dense K} {m : ℕ} (high : ∀ i, m ≤ i → a.coeff i = 0) : a.rep.length ≤ m := by
  by_contra longer
  have nonempty : a.rep ≠ [] := List.ne_nil_of_length_pos (by omega)
  have last := a.normalized nonempty
  rw [List.getLast_eq_getElem] at last
  apply last
  rw [← List.getD_eq_getElem _ 0]
  exact high _ (by omega)

variable [DecidableEq K]

def ofList (l : List K) : Dense K where
  rep := l.rdropWhile (· = 0)
  normalized nonempty := by simpa using List.rdropWhile_last_not (fun x : K => decide (x = 0)) l nonempty

theorem coeff_ofList (l : List K) (i : ℕ) : (ofList l).coeff i = l.getD i 0 := by
  unfold ofList coeff
  induction l using List.reverseRecOn with
  | nil => rfl
  | append_singleton l x ih =>
    by_cases zero : x = 0
    · dsimp only at ih ⊢
      rw [List.rdropWhile_concat_pos _ _ _ (by simpa using zero), ih, zero]
      rcases Nat.lt_or_ge i l.length with inside | outside
      · rw [List.getD_append _ _ _ _ inside]
      · rw [List.getD_eq_default _ _ outside, List.getD_append_right _ _ _ _ outside]
        cases i - l.length <;> rfl
    · dsimp only
      rw [List.rdropWhile_concat_neg _ _ _ (by simpa using zero)]

/-- Makes the coefficient of `X ^ i` equal to `c`. -/
def setCoeff (a : Dense K) (i : ℕ) (c : K) : Dense K :=
  ofList ((List.range (max a.rep.length (i + 1))).map fun j => if j = i then c else a.coeff j)

theorem coeff_setCoeff (a : Dense K) (i : ℕ) (c : K) (j : ℕ) :
    (a.setCoeff i c).coeff j = if j = i then c else a.coeff j := by
  rw [setCoeff, coeff_ofList]
  rcases Nat.lt_or_ge j (max a.rep.length (i + 1)) with inside | outside
  · rw [List.getD_eq_getElem _ _ (by simpa using inside)]
    simp
  · rw [List.getD_eq_default _ _ (by simpa using outside), if_neg (by omega)]
    exact (List.getD_eq_default _ _ (by omega)).symm

end Coefficients

section Semantics
variable [Semiring K]

noncomputable def toPolynomial (a : Dense K) : K[X] := ∑ i ∈ Finset.range a.rep.length, C (a.coeff i) * X ^ i

theorem toPolynomial_eq_sum {a : Dense K} {m : ℕ} (bound : a.rep.length ≤ m) :
    a.toPolynomial = ∑ i ∈ Finset.range m, C (a.coeff i) * X ^ i := by
  refine Finset.sum_subset (Finset.range_subset_range.mpr bound) ?_
  intro i _ above
  rw [Finset.mem_range, not_lt] at above
  have zero : a.coeff i = 0 := List.getD_eq_default _ _ above
  rw [zero, C_0, zero_mul]

theorem coeff_toPolynomial (a : Dense K) (i : ℕ) : a.toPolynomial.coeff i = a.coeff i := by
  rw [toPolynomial_eq_sum (le_max_left a.rep.length (i + 1)), finsetSum_coeff, Finset.sum_eq_single i]
  · simp
  · intro j _ differ
    rw [coeff_C_mul, coeff_X_pow, if_neg differ.symm, mul_zero]
  · intro absent
    exact absurd (Finset.mem_range.mpr (by omega)) absent

end Semantics

end Dense
end DensePoly
