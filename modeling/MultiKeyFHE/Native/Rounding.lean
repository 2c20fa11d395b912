import MultiKeyFHE.Native.Integer
import MultiKeyFHE.Library.Binary64

/-!
# Quotients rounded to a word

`DivideAndRound` and `MultiplyAndRound` of `ubintnat.h`. The first counts in words; the second goes through
`double`, once for every operand and once for every operation.
-/

namespace MultiKeyFHE
namespace NativeInteger
variable (w : NativeSize)

def divideAndRound (x q : ℕ) : Except Fault ℕ :=
  if q = 0 then .error (.mathError "NativeIntegerT DivideAndRound: zero")
  else
    let ans := x / q
    let rem := x % q
    let halfQ := q / 2
    .ok (if rem > halfQ then ans + 1 else ans)

/-- `p * (x / q)` in `double`. -/
def roundedProduct (x p q : ℕ) : ℚ := Binary64.round (Binary64.round p * Binary64.round (Binary64.round x / Binary64.round q))

/-- The conversion of a `double` to a word is undefined where it does not fit. -/
def ofDouble (x : ℚ) : Except Fault ℕ :=
  if 0 ≤ ⌊x⌋ ∧ ⌊x⌋ < 2 ^ w.bits then .ok ⌊x⌋.toNat else .error .outOfRange

def multiplyAndRound (x p q : ℕ) : Except Fault ℕ :=
  if q = 0 then .error (.mathError "NativeIntegerT MultiplyAndRound: Divide by zero")
  else ofDouble w (Binary64.round (roundedProduct x p q + 1 / 2))

variable {w}

/-- A quotient by more than twice the number rounds to zero. -/
theorem divideAndRound_ok {x q : ℕ} (hq : 1 ≤ q) :
    ∃ r, divideAndRound x q = .ok r ∧ r ≤ x ∧ (x ≠ 0 → (r = 0 ↔ x ≤ q / 2)) := by
  refine ⟨_, if_neg (by omega), ?_⟩
  have whole := Nat.div_add_mod x q
  have below := Nat.mod_lt x (show 0 < q by omega)
  rcases Nat.eq_zero_or_pos (x / q) with none | some
  · rw [none, Nat.mul_zero, Nat.zero_add] at whole
    rw [none, whole]
    split <;> omega
  · have large : q * 1 ≤ q * (x / q) := Nat.mul_le_mul_left q some
    have one : q * (x / q) ≥ x / q := Nat.le_mul_of_pos_left _ (by omega)
    split <;> omega

theorem ofDouble_ok {x : ℚ} {bound : ℕ} (nonneg : 0 ≤ x) (le : x ≤ bound) (fits : bound < 2 ^ w.bits) :
    ∃ r, ofDouble w x = .ok r ∧ r ≤ bound ∧ (1 ≤ r ↔ 1 ≤ x) := by
  have floor : 0 ≤ ⌊x⌋ := Int.floor_nonneg.mpr nonneg
  have top : ⌊x⌋ ≤ bound := by
    have : (⌊x⌋ : ℚ) ≤ bound := (Int.floor_le x).trans le
    exact_mod_cast this
  have word : (bound : ℤ) < 2 ^ w.bits := by exact_mod_cast fits
  refine ⟨⌊x⌋.toNat, if_pos ⟨floor, by omega⟩, by omega, ?_⟩
  rw [show 1 ≤ ⌊x⌋.toNat ↔ (1 : ℤ) ≤ ⌊x⌋ by omega, Int.le_floor, Int.cast_one]

theorem roundedProduct_le {x p q : ℕ} (hq : 1 ≤ q) (le : p ≤ q) : roundedProduct x p q ≤ 11 / 10 * x := by
  have positive : (0 : ℚ) < q := by exact_mod_cast hq
  have ratio : (p : ℚ) / q ≤ 1 := (div_le_one positive).mpr (by exact_mod_cast le)
  have hx : (0 : ℚ) ≤ x := Nat.cast_nonneg x
  have hp : (0 : ℚ) ≤ p := Nat.cast_nonneg p
  have divisor := Binary64.le_round positive.le
  have quotient : Binary64.round x / Binary64.round q ≤
      (1 + 1 / 2 ^ 53) * x / ((1 - 1 / 2 ^ 53) * q) :=
    div_le_div₀ (by positivity) (Binary64.round_le hx) (mul_pos (by norm_num) positive) divisor
  have nonneg : 0 ≤ Binary64.round x / Binary64.round q :=
    div_nonneg (Binary64.round_nonneg hx) (Binary64.round_nonneg positive.le)
  have product : Binary64.round p * Binary64.round (Binary64.round x / Binary64.round q) ≤
      (1 + 1 / 2 ^ 53) * p * ((1 + 1 / 2 ^ 53) * ((1 + 1 / 2 ^ 53) * x / ((1 - 1 / 2 ^ 53) * q))) := by
    refine mul_le_mul (Binary64.round_le hp) ?_ (Binary64.round_nonneg nonneg) (by positivity)
    exact (Binary64.round_le nonneg).trans (mul_le_mul_of_nonneg_left quotient (by norm_num))
  calc roundedProduct x p q
      ≤ (1 + 1 / 2 ^ 53) * (Binary64.round p * Binary64.round (Binary64.round x / Binary64.round q)) :=
        Binary64.round_le (mul_nonneg (Binary64.round_nonneg hp) (Binary64.round_nonneg nonneg))
    _ ≤ (1 + 1 / 2 ^ 53) *
        ((1 + 1 / 2 ^ 53) * p * ((1 + 1 / 2 ^ 53) * ((1 + 1 / 2 ^ 53) * x / ((1 - 1 / 2 ^ 53) * q)))) :=
      mul_le_mul_of_nonneg_left product (by norm_num)
    _ = (1 + 1 / 2 ^ 53) ^ 4 / (1 - 1 / 2 ^ 53) * x * (p / q) := by ring
    _ ≤ 11 / 10 * x * 1 := by
      refine mul_le_mul ?_ ratio (by positivity) (by positivity)
      exact mul_le_mul_of_nonneg_right (by norm_num) hx
    _ = 11 / 10 * x := mul_one _

theorem roundedProduct_nonneg (x p q : ℕ) : 0 ≤ roundedProduct x p q := by
  have natural : ∀ n : ℕ, 0 ≤ Binary64.round n := fun n => Binary64.round_nonneg (Nat.cast_nonneg n)
  exact Binary64.round_nonneg (mul_nonneg (natural p)
    (Binary64.round_nonneg (div_nonneg (natural x) (natural q))))

/-- For `p ≤ q` the conversion is defined. The result is zero where the rounded product is below one half, by more
than `double` can tell. -/
theorem multiplyAndRound_ok {x p q : ℕ} (hq : 1 ≤ q) (le : p ≤ q) (fits : 2 * x < 2 ^ w.bits) :
    ∃ r, multiplyAndRound w x p q = .ok r ∧ (1 ≤ x → r ≤ 2 * x) ∧
      (r = 0 ↔ roundedProduct x p q < 1 / 2 - 1 / 2 ^ 54) := by
  have nonneg := roundedProduct_nonneg x p q
  have word : 1 < 2 ^ w.bits := Nat.one_lt_two_pow (by cases w <;> decide)
  have top : Binary64.round (roundedProduct x p q + 1 / 2) ≤ ((max (2 * x) 1 : ℕ) : ℚ) := by
    have rounded := Binary64.round_le (show 0 ≤ roundedProduct x p q + 1 / 2 by linarith)
    have product := roundedProduct_le (x := x) hq le
    norm_num at rounded
    rcases Nat.eq_zero_or_pos x with rfl | pos
    · norm_num at product ⊢
      linarith
    · have one : (1 : ℚ) ≤ x := by exact_mod_cast pos
      rw [max_eq_left (by omega)]
      push_cast
      linarith
  obtain ⟨r, run, bound, positive⟩ := ofDouble_ok (Binary64.round_nonneg (by linarith)) top (max_lt fits word)
  refine ⟨r, ?_, by omega, ?_⟩
  · rw [multiplyAndRound, if_neg (by omega), run]
  · rw [← Nat.lt_one_iff, ← not_le, positive, Binary64.one_le_round_iff (by linarith), not_le]
    constructor <;> intro h <;> linarith

end NativeInteger
end MultiKeyFHE
