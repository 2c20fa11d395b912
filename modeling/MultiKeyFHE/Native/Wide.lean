import MultiKeyFHE.Native.FastProducts

/-!
# Double words

The reduction of a double word by a word in `utilities-int.h`. It takes the upper half of a product of two double words from
four products of words, and of the quotient keeps the lower word.
-/

namespace MultiKeyFHE.NativeInteger

/-- `DoubleNativeInt` of a word. -/
abbrev word : ℕ := 2 ^ 64

def mul128 (a b : ℕ) : ℕ := a * b % word ^ 2

def isAdditionOverflow (a b : ℕ) : ℕ := if (a + b) % word < b then 1 else 0

/-- The sum, and one if it overflows. -/
def additionWithCarryOut (a b : ℕ) : ℕ × ℕ := ((a + b) % word, if (a + b) % word < b then 1 else 0)

/-- The `while` loop at the end. It does not end for the modulus zero, which no caller has. -/
def subtractWhile (modulus result : ℕ) : ℕ :=
  if 0 < modulus ∧ modulus ≤ result then subtractWhile modulus (result - modulus) else result
termination_by result
decreasing_by omega

/-- The lower word of `a * mu >> 128`. -/
def upperProduct (a mu : ℕ) : ℕ :=
  let a_lo := a % word
  let a_hi := a / word % word
  let mu_lo := mu % word
  let mu_hi := mu / word % word
  let left_hi := mul128 a_lo mu_lo / word
  let middle := mul128 a_lo mu_hi
  let (tmp1, carry) := additionWithCarryOut (middle % word) left_hi
  let tmp2 := (middle / word + carry) % word
  let middle := mul128 a_hi mu_lo
  let carry := isAdditionOverflow (middle % word) tmp1
  let left_hi := (middle / word + carry) % word
  (a_hi * mu_hi + tmp2 + left_hi) % word

def barrettUint128ModUint64 (a modulus mu : ℕ) : ℕ :=
  let result := (((a % word : ℕ) : ℤ) - upperProduct a mu * modulus) % word
  subtractWhile modulus result.toNat

theorem subtractWhile_eq {m : ℕ} (pos : 0 < m) (r : ℕ) : subtractWhile m r = r % m := by
  induction r using Nat.strong_induction_on with
  | _ r ih =>
    rw [subtractWhile]
    split
    · rename_i h
      rw [ih _ (by omega), Nat.mod_eq_sub_mod h.2]
    · rw [Nat.mod_eq_of_lt (by omega)]

theorem mul128_eq {a b : ℕ} (ha : a < word) (hb : b < word) : mul128 a b = a * b := by
  have below : a * b < word * word := Nat.mul_lt_mul'' ha hb
  rw [mul128, Nat.mod_eq_of_lt (by rwa [pow_two])]

/-- A carry is what the sum loses. -/
theorem carry_eq {a b : ℕ} (ha : a < word) (hb : b < word) :
    (a + b) % word + word * (if (a + b) % word < b then 1 else 0) = a + b := by
  by_cases small : a + b < word
  · rw [Nat.mod_eq_of_lt small, if_neg (by omega)]
    omega
  · have : (a + b) % word = a + b - word := by
      rw [Nat.mod_eq_sub_mod (by omega), Nat.mod_eq_of_lt (by omega)]
    rw [this, if_pos (by omega)]
    omega

/-- The upper half of a product, from those of its halves and the carries between them. -/
theorem upper_half {W a₀ a₁ m₀ m₁ t s c c' : ℕ} (first : t + W * c = a₀ * m₁ % W + a₀ * m₀ / W)
    (second : s + W * c' = a₁ * m₀ % W + t) (below : s < W) :
    (a₀ + W * a₁) * (m₀ + W * m₁) / W ^ 2 = a₁ * m₁ + (a₀ * m₁ / W + c) + (a₁ * m₀ / W + c') := by
  have pos : 0 < W := by omega
  have low := Nat.mod_add_div (a₀ * m₀) W
  have cross := Nat.mod_add_div (a₀ * m₁) W
  have cross' := Nat.mod_add_div (a₁ * m₀) W
  have whole : (a₀ + W * a₁) * (m₀ + W * m₁) =
      a₀ * m₀ % W + W * s + W ^ 2 * (a₁ * m₁ + (a₀ * m₁ / W + c) + (a₁ * m₀ / W + c')) := by
    linear_combination -low - W * cross - W * cross' - W * first - W * second
  have rest : a₀ * m₀ % W + W * s < W ^ 2 := by
    have := Nat.mod_lt (a₀ * m₀) pos
    nlinarith
  rw [whole, Nat.add_mul_div_left _ _ (by positivity), Nat.div_eq_of_lt rest, zero_add]

theorem upperProduct_eq {a mu : ℕ} (ha : a < word ^ 2) (hmu : mu < word ^ 2) : upperProduct a mu = a * mu / word ^ 2 % word := by
  have pos : 0 < word := by norm_num
  have ha_hi : a / word < word := Nat.div_lt_of_lt_mul (by rwa [← pow_two])
  have hmu_hi : mu / word < word := Nat.div_lt_of_lt_mul (by rwa [← pow_two])
  have ha_lo := Nat.mod_lt a pos
  have hmu_lo := Nat.mod_lt mu pos
  have left : a % word * (mu % word) / word < word := Nat.div_lt_of_lt_mul (Nat.mul_lt_mul'' ha_lo hmu_lo)
  have first := carry_eq (Nat.mod_lt (a % word * (mu / word)) pos) left
  have second := carry_eq (Nat.mod_lt (a / word * (mu % word)) pos)
    (Nat.mod_lt (a % word * (mu / word) % word + a % word * (mu % word) / word) pos)
  have upper := upper_half first second (Nat.mod_lt _ pos)
  rw [Nat.mod_add_div, Nat.mod_add_div] at upper
  rw [upper, upperProduct, Nat.mod_eq_of_lt ha_hi, Nat.mod_eq_of_lt hmu_hi]
  simp only [additionWithCarryOut, isAdditionOverflow, mul128_eq ha_lo hmu_lo, mul128_eq ha_lo hmu_hi, mul128_eq ha_hi hmu_lo]
  rw [Nat.add_mod_mod, Nat.add_right_comm, Nat.add_mod_mod, Nat.add_right_comm]

/-- What a constant of the upper half leaves of the quotient. -/
theorem barrett_remainder {W a m : ℕ} (pos : 0 < m) (ha : a < W) :
    a * (W / m) / W * m ≤ a ∧ a < (a * (W / m) / W + 2) * m := by
  have posW : 0 < W := by omega
  have near := Nat.div_add_mod W m
  have short := Nat.mod_lt W pos
  have quotient := Nat.div_add_mod (a * (W / m)) W
  have rest := Nat.mod_lt (a * (W / m)) posW
  constructor
  · have scaled : a * (W / m) / W * m * W ≤ a * W := by
      calc a * (W / m) / W * m * W = W * (a * (W / m) / W) * m := by ring
        _ ≤ a * (W / m) * m := Nat.mul_le_mul_right m (Nat.mul_div_le _ _)
        _ = a * (m * (W / m)) := by ring
        _ ≤ a * W := Nat.mul_le_mul_left a (Nat.mul_div_le _ _)
    exact Nat.le_of_mul_le_mul_right scaled posW
  · have scaled : a * W < (a * (W / m) / W + 2) * m * W := by
      calc a * W = a * (W / m) * m + a * (W % m) := by
            conv_lhs => rw [← near]
            ring
        _ ≤ a * (W / m) * m + a * m := Nat.add_le_add_left (Nat.mul_le_mul_left a short.le) _
        _ < (W * (a * (W / m) / W) + W) * m + W * m := by
            have first := Nat.mul_lt_mul_of_pos_right rest pos
            have second := Nat.mul_lt_mul_of_pos_right ha pos
            conv_lhs => rw [← quotient]
            rw [add_mul, add_mul]
            omega
        _ = (a * (W / m) / W + 2) * m * W := by ring
    exact Nat.lt_of_mul_lt_mul_right scaled

/-- The remainder of every double word, with the floor of `2 ^ 128 / m` for a modulus of at most 63 bits. -/
theorem barrettUint128ModUint64_eq {a m : ℕ} (ha : a < word ^ 2) (h2 : 2 ≤ m) (hm : 2 * m ≤ word) :
    barrettUint128ModUint64 a m (word ^ 2 / m) = a % m := by
  have constant : word ^ 2 / m < word ^ 2 := Nat.div_lt_self (by norm_num) h2
  obtain ⟨low, high⟩ := barrett_remainder (show 0 < m by omega) ha
  rw [barrettUint128ModUint64, upperProduct_eq ha constant]
  generalize a * (word ^ 2 / m) / word ^ 2 = k at low high ⊢
  obtain ⟨r, rfl⟩ := Nat.exists_eq_add_of_le low
  have small : r < word := by
    rw [add_mul] at high
    omega
  have result : ((((k * m + r) % word : ℕ) : ℤ) - (k % word : ℕ) * m) % word = r := by
    have same : ((((k * m + r) % word : ℕ) : ℤ) - (k % word : ℕ) * m) ≡ r [ZMOD word] := by
      push_cast
      calc ((k * m + r : ℤ) % word - k % word * m) ≡ (k * m + r) - k * m [ZMOD word] :=
            (Int.mod_modEq _ _).sub ((Int.mod_modEq _ _).mul_right _)
        _ ≡ r [ZMOD word] := by rw [add_sub_cancel_left]
    rw [same, Int.emod_eq_of_lt (by omega) (by exact_mod_cast small)]
  rw [result, Int.toNat_natCast, subtractWhile_eq (by omega), Nat.mul_add_mod']

/-- A dividend of 128 bits and a modulus of 60. -/
theorem barrettUint128ModUint64_wide :
    barrettUint128ModUint64 (2 ^ 128 - 1) (2 ^ 60 - 93) (word ^ 2 / (2 ^ 60 - 93)) = (2 ^ 128 - 1) % (2 ^ 60 - 93) :=
  barrettUint128ModUint64_eq (by norm_num) (by norm_num) (by norm_num)

end MultiKeyFHE.NativeInteger
