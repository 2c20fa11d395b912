import MultiKeyFHE.Native.Integer
import Mathlib.Data.Nat.GCD.Basic
import Mathlib.Algebra.Order.Ring.Abs
import Mathlib.Tactic.LinearCombination

/-!
# Modular products and inverses

The multiplications and the inverse of `ubintnat.h` that the transform tables are built with. `ModMulFastConst`
multiplies by a constant whose quotient by the modulus was prepared (Shoup's method); `ModInverse` is the
extended Euclidean algorithm on signed words. Its coefficients alternate in sign and stay below the modulus, so
nothing wraps.
-/

namespace MultiKeyFHE
namespace NativeInteger
variable (w : NativeSize)

/-- `ComputeMu` with its guard. -/
def computeMuChecked (modulus : ℕ) : Except Fault ℕ :=
  if modulus = 0 then .error (.mathError "NativeIntegerT ComputeMu: Divide by zero") else .ok (computeMu w modulus)

/-- `ModMu`: the Barrett reduction of one word. -/
def modMu (a modulus mu : ℕ) : ℕ :=
  let n := modulus.size - 2
  let r := sub w a (wrap w (rShiftD w a n * mu / 2 ^ (n + 7) * modulus))
  if r ≥ modulus then r - modulus else r

/-- `ModMul(b, modulus, mu)`: reduces an operand that is not below the modulus. -/
def modMulMu (a b modulus mu : ℕ) : ℕ :=
  let a := if a ≥ modulus then modMu w a modulus mu else a
  let b := if b ≥ modulus then modMu w b modulus mu else b
  modMulFastMu w a b modulus mu

/-- `PrepModMulConst`. -/
def prepModMulConst (b modulus : ℕ) : Except Fault ℕ :=
  if modulus = 0 then .error (.mathError "Divide by zero") else .ok (wrap w (b * 2 ^ w.bits / modulus))

/-- `ModMulFastConst`. The difference is read as a signed word. -/
def modMulFastConst (a b modulus bInv : ℕ) : ℕ :=
  let q := wrap w (a * bInv / 2 ^ w.bits + 1)
  let yprime := ((a * b : ℤ) - q * modulus).bmod (2 ^ w.bits)
  ((if yprime ≥ 0 then yprime else yprime + modulus) % 2 ^ w.bits).toNat

/-- A product in a double word, reduced only when it reaches the modulus. -/
def mulReduce (a b modulus : ℕ) : ℕ :=
  let r := a * b % 2 ^ (2 * w.bits)
  if r ≥ modulus then r % modulus else r

/-- The `while` loop of `ModExp`, whose condition shifts `p`. -/
def modExpLoop (modulus t p r : ℕ) : ℕ :=
  if p / 2 = 0 then r
  else
    let t := mulReduce w t t modulus
    modExpLoop modulus t (p / 2) (if p / 2 % 2 = 1 then mulReduce w r t modulus else r)
termination_by p
decreasing_by exact Nat.div_lt_self (by omega) Nat.one_lt_two

/-- `ModExp`. An even exponent starts from an unreduced one. -/
def modExp (value b modulus : ℕ) : ℕ := modExpLoop w modulus value b (if b % 2 = 1 then mulReduce w 1 value modulus else 1)

/-- The loop of `ModInverse`. The remainders never become negative; the coefficients are signed words. -/
def inverseLoop (a modulus : ℕ) (y x : ℤ) : Except Fault ℤ :=
  if a > 1 then
    if modulus = 0 then .error .divisionByZero
    else inverseLoop modulus (a % modulus) ((x - (a / modulus : ℕ) * y).bmod (2 ^ w.bits)) y
  else .ok x
termination_by modulus
decreasing_by exact Nat.mod_lt _ (by omega)

/-- `ModInverse`, for a modulus below half a word. -/
def modInverse (value mod : ℕ) : Except Fault ℕ := do
  if mod = 0 then throw .divisionByZero
  let a := value % mod
  if a = 0 then
    throw (.mathError (toString value ++ " does not have a ModInverse using " ++ toString mod))
  if mod = 1 then return 0
  let x ← inverseLoop w a mod 0 1
  return ((if x < 0 then x + mod else x) % 2 ^ w.bits).toNat

variable {w}

/-- One correction is enough wherever what is left is reduced. -/
theorem modMulFastMu_eq_of_lt {a b m : ℕ} (h2 : 2 ≤ m) (hm : ¬ modulusTooLarge w m) (ha : a < m) (hb : b < m)
    (below : modMulFastMu w a b m (computeMu w m) < m) : modMulFastMu w a b m (computeMu w m) = a * b % m := by
  have same : modMulFastMu w a b m (computeMu w m) % m = a * b % m := modMulFastMu_modEq h2 hm ha hb
  rwa [Nat.mod_eq_of_lt below] at same

theorem modMulFastMu_eq {a b m : ℕ} (h2 : 2 ≤ m) (hm : ¬ modulusTooLarge w m) (other : m ≠ 2 ^ (w.maxModulusSize - 1))
    (ha : a < m) (hb : b < m) : modMulFastMu w a b m (computeMu w m) = a * b % m := by
  apply modMulFastMu_eq_of_lt h2 hm ha hb
  exact modMulFastMu_lt h2 hm ha hb (mu_fits h2 hm other)

theorem modMulMu_eq {a b m : ℕ} (h2 : 2 ≤ m) (hm : ¬ modulusTooLarge w m) (other : m ≠ 2 ^ (w.maxModulusSize - 1))
    (ha : a < m) (hb : b < m) : modMulMu w a b m (computeMu w m) = a * b % m := by
  rw [modMulMu, if_neg (by omega), if_neg (by omega), modMulFastMu_eq h2 hm other ha hb]

/-! ### Powers -/

section Powers
variable {m : ℕ} (hpos : 0 < m) (word : m ≤ 2 ^ w.bits)
include hpos

theorem mulReduce_spec {a b : ℕ} (ha : a < 2 ^ w.bits) (hb : b < 2 ^ w.bits) :
    mulReduce w a b m < m ∧ mulReduce w a b m ≡ a * b [MOD m] := by
  have double : a * b < 2 ^ (2 * w.bits) := by
    rw [two_mul, pow_add]
    exact Nat.mul_lt_mul'' ha hb
  rw [mulReduce, Nat.mod_eq_of_lt double]
  split
  · exact ⟨Nat.mod_lt _ hpos, Nat.mod_modEq _ _⟩
  · rename_i below
    exact ⟨Nat.lt_of_not_ge below, rfl⟩

include word

/-- The loop multiplies `r` by the powers of `t` that the bits of `p` above the lowest select. -/
theorem modExpLoop_spec {t p r : ℕ} (ht : t < 2 ^ w.bits) (hr : r < m) :
    modExpLoop w m t p r < m ∧ modExpLoop w m t p r ≡ r * t ^ (2 * (p / 2)) [MOD m] := by
  induction p using Nat.strong_induction_on generalizing t r with
  | _ p ih =>
    rw [modExpLoop]
    by_cases last : p / 2 = 0
    · rw [if_pos last, last, mul_zero, pow_zero, mul_one]
      exact ⟨hr, rfl⟩
    · rw [if_neg last]
      obtain ⟨square_lt, square⟩ := mulReduce_spec hpos ht ht
      have smaller : p / 2 < p := Nat.div_lt_self (by omega) Nat.one_lt_two
      dsimp only
      by_cases bit : p / 2 % 2 = 1
      · rw [if_pos bit]
        obtain ⟨product_lt, product⟩ := mulReduce_spec hpos (hr.trans_le word) (square_lt.trans_le word)
        obtain ⟨lt, value⟩ := ih (p / 2) smaller (square_lt.trans_le word) product_lt
        refine ⟨lt, value.trans ?_⟩
        calc mulReduce w r (mulReduce w t t m) m * mulReduce w t t m ^ (2 * (p / 2 / 2))
            ≡ r * (t * t) * (t * t) ^ (2 * (p / 2 / 2)) [MOD m] :=
              (product.trans (square.mul_left r)).mul (square.pow _)
          _ = r * t ^ (2 * (p / 2)) := by
              rw [mul_assoc, ← pow_succ', ← sq, ← pow_mul, show 2 * (p / 2 / 2) + 1 = p / 2 by omega]
      · rw [if_neg bit]
        obtain ⟨lt, value⟩ := ih (p / 2) smaller (square_lt.trans_le word) hr
        refine ⟨lt, value.trans ?_⟩
        calc r * mulReduce w t t m ^ (2 * (p / 2 / 2))
            ≡ r * (t * t) ^ (2 * (p / 2 / 2)) [MOD m] := (square.pow _).mul_left r
          _ = r * t ^ (2 * (p / 2)) := by rw [← sq, ← pow_mul, show 2 * (p / 2 / 2) = p / 2 by omega]

end Powers

theorem modExp_eq {m value : ℕ} (h2 : 2 ≤ m) (word : m ≤ 2 ^ w.bits) (hv : value < 2 ^ w.bits) (b : ℕ) :
    modExp w value b m = value ^ b % m := by
  have hpos : 0 < m := by omega
  have done : ∀ {r : ℕ}, r < m → r * value ^ (2 * (b / 2)) ≡ value ^ b [MOD m] →
      modExpLoop w m value b r = value ^ b % m := by
    intro r hr same
    obtain ⟨lt, result⟩ := modExpLoop_spec hpos word (p := b) hv hr
    exact (Nat.mod_eq_of_lt lt).symm.trans (result.trans same)
  rw [modExp]
  split
  · rename_i odd
    obtain ⟨lt, first⟩ := mulReduce_spec hpos (Nat.one_lt_two_pow (by cases w <;> decide)) hv
    refine done lt ((first.mul_right _).trans ?_)
    rw [one_mul, ← pow_succ', show 2 * (b / 2) + 1 = b by omega]
  · rename_i even
    refine done (by omega) ?_
    rw [one_mul, show 2 * (b / 2) = b by omega]

/-- A signed result that already is the residue is stored as it is. -/
theorem toNat_emod_of_residue {r : ℤ} {x m : ℕ} (nonneg : 0 ≤ r) (below : r < m) (hm : m ≤ 2 ^ w.bits)
    (same : r ≡ x [ZMOD m]) : (r % 2 ^ w.bits).toNat = x % m := by
  have word : r < 2 ^ w.bits := by
    have : (m : ℤ) ≤ 2 ^ w.bits := by exact_mod_cast hm
    omega
  rw [Int.emod_eq_of_lt nonneg word]
  have value : r = (x : ℤ) % m := by rw [← same, Int.emod_eq_of_lt nonneg below]
  rw [value, ← Int.natCast_mod, Int.toNat_natCast]

/-! ### Products with a prepared constant -/

/-- The quotient is at most one too small: cutting `bInv` and cutting the high word lose less than one unit each. -/
theorem prepared_quotient_bounds {a b m β : ℕ} (hpos : 0 < m) (ha : a < β) :
    a * (b * β / m) / β * m ≤ a * b ∧ a * b < (a * (b * β / m) / β + 2) * m := by
  have hβ : 0 < β := by omega
  have below : b * β / m * m ≤ b * β := Nat.div_mul_le_self _ _
  have above : b * β < m * (b * β / m + 1) := Nat.lt_mul_div_succ _ hpos
  have high : a * (b * β / m) / β * β ≤ a * (b * β / m) := Nat.div_mul_le_self _ _
  have next : a * (b * β / m) < β * (a * (b * β / m) / β + 1) := Nat.lt_mul_div_succ _ hβ
  generalize a * (b * β / m) / β = quotient at *
  generalize b * β / m = c at *
  constructor
  · refine Nat.le_of_mul_le_mul_right ?_ hβ
    calc quotient * m * β = quotient * β * m := by ring
      _ ≤ a * c * m := Nat.mul_le_mul_right _ high
      _ = a * (c * m) := by ring
      _ ≤ a * (b * β) := Nat.mul_le_mul_left _ below
      _ = a * b * β := by ring
  · refine Nat.lt_of_mul_lt_mul_right (a := β) ?_
    calc a * b * β = a * (b * β) := by ring
      _ ≤ a * (m * (c + 1)) := Nat.mul_le_mul_left _ above.le
      _ = a * c * m + a * m := by ring
      _ < β * (quotient + 1) * m + β * m :=
        Nat.add_lt_add_of_lt_of_le (Nat.mul_lt_mul_of_pos_right next hpos) (Nat.mul_le_mul_right _ ha.le)
      _ = (quotient + 2) * m * β := by ring

/-- What is left of the product after the prepared quotient, and what is stored of it. -/
theorem modMulFastConst_difference {a b m : ℕ} (ha : a < 2 ^ w.bits) (hb : b < m) (hm : m ≤ 2 ^ w.bits) :
    ∃ d : ℤ, -m ≤ d ∧ d < m ∧ d ≡ (a * b : ℕ) [ZMOD m] ∧ modMulFastConst w a b m (wrap w (b * 2 ^ w.bits / m)) =
      ((if d.bmod (2 ^ w.bits) ≥ 0 then d.bmod (2 ^ w.bits) else d.bmod (2 ^ w.bits) + m) % 2 ^ w.bits).toNat := by
  obtain ⟨low, high⟩ := prepared_quotient_bounds (b := b) (show 0 < m by omega) ha
  have word : 1 < 2 ^ w.bits := Nat.one_lt_two_pow (by cases w <;> decide)
  have prepared : b * 2 ^ w.bits / m < 2 ^ w.bits := by
    refine Nat.div_lt_of_lt_mul ?_
    exact Nat.mul_lt_mul_of_pos_right hb (by positivity)
  have quotient : a * (b * 2 ^ w.bits / m) / 2 ^ w.bits + 1 < 2 ^ w.bits := by
    have : a * (b * 2 ^ w.bits / m) < 2 ^ w.bits * (2 ^ w.bits - 1) := by
      calc a * (b * 2 ^ w.bits / m) ≤ a * (2 ^ w.bits - 1) := Nat.mul_le_mul_left _ (by omega)
        _ < 2 ^ w.bits * (2 ^ w.bits - 1) := Nat.mul_lt_mul_of_pos_right ha (by omega)
    have := Nat.div_lt_of_lt_mul this
    omega
  rw [modMulFastConst, wrap_of_lt prepared, wrap_of_lt quotient]
  generalize a * (b * 2 ^ w.bits / m) / 2 ^ w.bits = k at low high
  have low' : (k * m : ℤ) ≤ a * b := by exact_mod_cast low
  have high' : (a * b : ℤ) < (k + 2) * m := by exact_mod_cast high
  refine ⟨a * b - (k + 1 : ℕ) * m, ?_, ?_, Int.modEq_iff_dvd.mpr ⟨k + 1, by push_cast; ring⟩, rfl⟩ <;>
  · rw [Nat.cast_add, Nat.cast_one]
    rw [add_mul] at *
    omega

theorem modMulFastConst_eq {a b m : ℕ} (ha : a < 2 ^ w.bits) (hb : b < m) (hm : 2 * m ≤ 2 ^ w.bits) :
    modMulFastConst w a b m (wrap w (b * 2 ^ w.bits / m)) = a * b % m := by
  obtain ⟨d, low, high, same, stored⟩ := modMulFastConst_difference ha hb (by omega)
  have hm' : (2 * m : ℤ) ≤ (2 ^ w.bits : ℕ) := by exact_mod_cast hm
  have cut : d.bmod (2 ^ w.bits) = d := by refine Int.bmod_eq_of_le ?_ ?_ <;> omega
  rw [stored, cut]
  split
  · exact toNat_emod_of_residue (by omega) (by omega) (by omega) same
  · exact toNat_emod_of_residue (by omega) (by omega) (by omega) (Int.add_modEq_right.trans same)

/-- For every modulus that is a word, although above half of one the signed difference overflows. -/
theorem modMulFastConst_lt {a b m : ℕ} (ha : a < 2 ^ w.bits) (hb : b < m) (hm : m ≤ 2 ^ w.bits) :
    modMulFastConst w a b m (wrap w (b * 2 ^ w.bits / m)) < m := by
  obtain ⟨d, low, high, -, stored⟩ := modMulFastConst_difference ha hb hm
  have word : (m : ℤ) ≤ 2 ^ w.bits := by exact_mod_cast hm
  have remainder : d % 2 ^ w.bits = if d < 0 then d + 2 ^ w.bits else d := by
    split
    · rw [← Int.add_emod_right, Int.emod_eq_of_lt (by omega) (by omega)]
    · exact Int.emod_eq_of_lt (by omega) (by omega)
  have residue : ∀ y : ℤ, 0 ≤ y → y < m → (y % 2 ^ w.bits).toNat < m := by
    intro y nonneg below
    rw [Int.emod_eq_of_lt nonneg (by omega)]
    omega
  rw [stored, Int.bmod_def]
  push_cast
  rw [remainder]
  split <;> split <;> split <;> exact residue _ (by omega) (by omega)

/-! ### Inverses -/

/-- The state of the Euclidean loop for `v` modulo `m`. -/
structure Euclid (v m a modulus : ℕ) (y x : ℤ) : Prop where
  coprime : a.Coprime modulus
  opposite : 0 ≤ x ∧ y ≤ 0 ∨ x ≤ 0 ∧ 0 ≤ y
  weights : |y| * a + |x| * modulus = m
  small : |x| < m
  left : x * v ≡ a [ZMOD m]
  right : y * v ≡ modulus [ZMOD m]

theorem Euclid.size {v m a modulus : ℕ} {y x : ℤ} (now : Euclid v m a modulus y x) :
    |x - (a / modulus : ℕ) * y| = |x| + (a / modulus : ℕ) * |y| := by
  have nonneg : (0 : ℤ) ≤ (a / modulus : ℕ) := Int.natCast_nonneg _
  rcases now.opposite with ⟨hx, hy⟩ | ⟨hx, hy⟩
  · have := mul_nonpos_of_nonneg_of_nonpos nonneg hy
    rw [abs_of_nonneg (by omega), abs_of_nonneg hx, abs_of_nonpos hy]
    ring
  · have := mul_nonneg nonneg hy
    rw [abs_of_nonpos (by omega), abs_of_nonpos hx, abs_of_nonneg hy]
    ring

theorem Euclid.next {v m a modulus : ℕ} {y x : ℤ} (now : Euclid v m a modulus y x) (ha : 1 < a) :
    Euclid v m modulus (a % modulus) (x - (a / modulus : ℕ) * y) y := by
  have divided : (modulus : ℤ) * (a / modulus : ℕ) + (a % modulus : ℕ) = a := by exact_mod_cast Nat.div_add_mod a modulus
  have nonneg : (0 : ℤ) ≤ (a / modulus : ℕ) := Int.natCast_nonneg _
  refine ⟨?_, ?_, ?_, ?_, now.right, ?_⟩
  · rw [Nat.coprime_comm, Nat.Coprime, ← Nat.gcd_rec, Nat.gcd_comm]
    exact now.coprime
  · rcases now.opposite with ⟨hx, hy⟩ | ⟨hx, hy⟩
    · have := mul_nonpos_of_nonneg_of_nonpos nonneg hy
      omega
    · have := mul_nonneg nonneg hy
      omega
  · rw [now.size]
    linear_combination now.weights + |y| * divided
  · have hx := mul_nonneg (abs_nonneg x) (Int.natCast_nonneg modulus)
    have hm := abs_nonneg x
    have hy := abs_nonneg y
    have double : |y| * 2 ≤ |y| * a := mul_le_mul_of_nonneg_left (by exact_mod_cast ha) hy
    have := now.weights
    have := now.small
    omega
  · have step : (x - (a / modulus : ℕ) * y) * v ≡ a - (a / modulus : ℕ) * modulus [ZMOD m] := by
      rw [sub_mul, mul_assoc]
      exact now.left.sub (now.right.mul_left _)
    rwa [show (a : ℤ) - (a / modulus : ℕ) * modulus = (a % modulus : ℕ) by linear_combination -divided] at step

/-- The coefficients fit a signed word. -/
theorem Euclid.bmod_eq {v m a modulus : ℕ} {y x : ℤ} (now : Euclid v m a modulus y x) (ha : 1 < a)
    (hpos : 0 < modulus) (hm : 2 * m < 2 ^ w.bits) :
    (x - (a / modulus : ℕ) * y).bmod (2 ^ w.bits) = x - (a / modulus : ℕ) * y := by
  have weights := (now.next ha).weights
  have rest := mul_nonneg (abs_nonneg y) (Int.natCast_nonneg (a % modulus))
  have bound : |x - (a / modulus : ℕ) * y| ≤ m := by
    have : |x - (a / modulus : ℕ) * y| * 1 ≤ |x - (a / modulus : ℕ) * y| * modulus :=
      mul_le_mul_of_nonneg_left (by exact_mod_cast hpos) (abs_nonneg _)
    omega
  have word : (2 * m : ℤ) < (2 ^ w.bits : ℕ) := by exact_mod_cast hm
  obtain ⟨low, high⟩ := abs_le.mp bound
  refine Int.bmod_eq_of_le ?_ ?_ <;> omega

theorem inverseLoop_ok {v m : ℕ} (hm : 2 * m < 2 ^ w.bits) {a modulus : ℕ} {y x : ℤ}
    (now : Euclid v m a modulus y x) : ∃ r, inverseLoop w a modulus y x = .ok r ∧ |r| < m ∧ r * v ≡ 1 [ZMOD m] := by
  induction modulus using Nat.strong_induction_on generalizing a y x with
  | _ modulus ih =>
    rw [inverseLoop]
    by_cases ha : 1 < a
    · have hpos : 0 < modulus := by
        rcases Nat.eq_zero_or_pos modulus with zero | hpos
        · have := now.coprime
          rw [zero, Nat.coprime_zero_right] at this
          omega
        · exact hpos
      rw [if_pos ha, if_neg (by omega), now.bmod_eq ha hpos hm]
      exact ih _ (Nat.mod_lt _ hpos) (now.next ha)
    · refine ⟨x, if_neg ha, now.small, ?_⟩
      have one : a = 1 := by
        rcases Nat.eq_zero_or_pos a with zero | pos
        · -- Then `modulus` is one and `|x|` the modulus itself.
          have unit : modulus = 1 := by simpa [zero] using now.coprime
          have := now.weights
          have := now.small
          rw [zero, unit] at *
          simp at *
          omega
        · omega
      have := now.left
      rwa [one, Nat.cast_one] at this

theorem Euclid.start {v m : ℕ} (h2 : 2 ≤ m) (coprime : v.Coprime m) : Euclid v m (v % m) m 0 1 := by
  refine ⟨?_, .inl ⟨by norm_num, le_rfl⟩, by simp, by rw [abs_one]; omega, ?_, ?_⟩
  · rw [Nat.Coprime, ← Nat.gcd_rec, Nat.gcd_comm]
    exact coprime
  · rw [one_mul, Int.natCast_mod]
    exact (Int.mod_modEq _ _).symm
  · rw [zero_mul]
    exact Int.modEq_iff_dvd.mpr ⟨1, by ring⟩

theorem modInverse_ok {v m : ℕ} (h2 : 2 ≤ m) (hm : 2 * m < 2 ^ w.bits) (coprime : v.Coprime m) :
    ∃ u, modInverse w v m = .ok u ∧ u < m ∧ u * v ≡ 1 [MOD m] := by
  have reduced : (v % m).Coprime m := by
    rw [Nat.Coprime, ← Nat.gcd_rec, Nat.gcd_comm]
    exact coprime
  have nonzero : v % m ≠ 0 := by
    intro zero
    rw [zero, Nat.coprime_zero_left] at reduced
    omega
  obtain ⟨r, run, small, inverse⟩ := inverseLoop_ok hm (Euclid.start h2 coprime)
  obtain ⟨low, high⟩ := abs_lt.mp small
  have lifted : ∃ u : ℕ, (if r < 0 then r + m else r) = u ∧ u < m ∧ (u * v : ℤ) ≡ 1 [ZMOD m] := by
    split
    · refine ⟨(r + m).toNat, by omega, by omega, ?_⟩
      rw [Int.toNat_of_nonneg (by omega), add_mul]
      refine Int.ModEq.trans ?_ inverse
      exact Int.modEq_iff_dvd.mpr ⟨-v, by ring⟩
    · refine ⟨r.toNat, by omega, by omega, ?_⟩
      rwa [Int.toNat_of_nonneg (by omega)]
  obtain ⟨u, value, below, unit⟩ := lifted
  refine ⟨u, ?_, below, Int.natCast_modEq_iff.mp (by exact_mod_cast unit)⟩
  have stored : ((u : ℤ) % 2 ^ w.bits).toNat = u % m :=
    toNat_emod_of_residue (Int.natCast_nonneg u) (by exact_mod_cast below) (by omega) (Int.ModEq.refl _)
  rw [Nat.mod_eq_of_lt below] at stored
  simp only [modInverse, if_neg (show m ≠ 0 by omega), if_neg nonzero, if_neg (show m ≠ 1 by omega), run]
  dsimp only [bind, Except.bind, pure, Except.pure]
  rw [value, stored]

/-! ### What has no inverse -/

/-- The signed values the loop of `ModInverse` computes, before they are cut to words: `q * y` and `x - q * y`. -/
def inverseTrace (a modulus : ℕ) (y x : ℤ) : List ℤ :=
  if a > 1 then
    if modulus = 0 then []
    else (a / modulus : ℕ) * y :: (x - (a / modulus : ℕ) * y) :: inverseTrace modulus (a % modulus) (x - (a / modulus : ℕ) * y) y
  else []
termination_by modulus
decreasing_by exact Nat.mod_lt _ (by omega)

theorem Euclid.trace_le {v m a modulus : ℕ} {y x : ℤ} (now : Euclid v m a modulus y x) :
    ∀ z ∈ inverseTrace a modulus y x, |z| ≤ m := by
  induction modulus using Nat.strong_induction_on generalizing a y x with
  | _ modulus ih =>
    rw [inverseTrace]
    split
    · rename_i more
      split
      · simp
      · rename_i some
        have next := now.next more
        have size := now.size
        have bound : |x - (a / modulus : ℕ) * y| * 1 ≤ |x - (a / modulus : ℕ) * y| * modulus :=
          mul_le_mul_of_nonneg_left (by exact_mod_cast Nat.pos_of_ne_zero some) (abs_nonneg _)
        have weights := next.weights
        have rest := mul_nonneg (abs_nonneg y) (Int.natCast_nonneg (a % modulus))
        have product : |((a / modulus : ℕ) : ℤ) * y| = (a / modulus : ℕ) * |y| := by rw [abs_mul, Nat.abs_cast]
        have nonneg := abs_nonneg x
        refine List.forall_mem_cons.mpr ⟨by omega, List.forall_mem_cons.mpr ⟨by omega, ?_⟩⟩
        exact ih _ (Nat.mod_lt a (Nat.pos_of_ne_zero some)) next
    · simp

/-- A common factor leads the loop to a division by zero. -/
theorem inverseLoop_common {a modulus : ℕ} (pos : 0 < a) (common : ¬ a.Coprime modulus) (y x : ℤ) :
    inverseLoop w a modulus y x = .error .divisionByZero := by
  induction modulus using Nat.strong_induction_on generalizing a y x with
  | _ modulus ih =>
    have more : 1 < a := by
      by_contra one
      obtain rfl : a = 1 := by omega
      exact common (Nat.coprime_one_left modulus)
    rw [inverseLoop, if_pos more]
    split
    · rfl
    · rename_i some
      apply ih _ (Nat.mod_lt a (Nat.pos_of_ne_zero some)) (Nat.pos_of_ne_zero some)
      rwa [Nat.coprime_comm, Nat.Coprime, ← Nat.gcd_rec, Nat.gcd_comm]

/-- The inverse is returned, with no signed value outside of a word, or the absence of one is reported. -/
structure InvertsOrRefuses (w : NativeSize) (v m : ℕ) : Prop where
  inverts : v.Coprime m → (∃ u, modInverse w v m = .ok u ∧ u < m ∧ u * v ≡ 1 [MOD m]) ∧
    ∀ z ∈ inverseTrace (v % m) m 0 1, -2 ^ (w.bits - 1) ≤ z ∧ z < 2 ^ (w.bits - 1)
  refuses : ¬ v.Coprime m → ∃ msg, modInverse w v m = .error (.mathError msg)

theorem inverts_or_refuses_iff {v m : ℕ} (h2 : 2 ≤ m) (hm : m < 2 ^ (w.bits - 1)) :
    InvertsOrRefuses w v m ↔ v.Coprime m ∨ m ∣ v := by
  have half : 2 ^ w.bits = 2 * 2 ^ (w.bits - 1) := by
    rw [← pow_succ']
    congr 1
    cases w <;> rfl
  constructor
  · intro inverts
    by_contra neither
    rw [not_or] at neither
    obtain ⟨common, apart⟩ := neither
    obtain ⟨msg, refused⟩ := inverts.refuses common
    have pos : 0 < v % m := Nat.pos_of_ne_zero fun zero => apart (Nat.dvd_of_mod_eq_zero zero)
    have reduced : ¬ (v % m).Coprime m := by
      rwa [Nat.Coprime, ← Nat.gcd_rec, Nat.gcd_comm]
    simp only [modInverse, if_neg (show m ≠ 0 by omega), if_neg pos.ne', if_neg (show m ≠ 1 by omega),
      inverseLoop_common pos reduced] at refused
    cases refused
  · intro sound
    constructor
    · intro coprime
      refine ⟨modInverse_ok h2 (by omega) coprime, fun z hz => ?_⟩
      have word : (m : ℤ) < 2 ^ (w.bits - 1) := by exact_mod_cast hm
      obtain ⟨low, high⟩ := abs_le.mp ((Euclid.start h2 coprime).trace_le z hz)
      exact ⟨by omega, by omega⟩
    · intro common
      have divides := sound.resolve_left common
      simp only [modInverse, if_neg (show m ≠ 0 by omega), Nat.mod_eq_zero_of_dvd divides, if_true]
      exact ⟨_, rfl⟩

end NativeInteger
end MultiKeyFHE
