import Mathlib.Data.Int.ModEq
import Mathlib.Data.Nat.Size
import Mathlib.Tactic.Ring
import Mathlib.Tactic.Linarith

/-!
# Native integers

`NativeIntegerT` of `ubintnat.h`: unsigned words of the width the build chooses. A value is a
natural number below `2 ^ bits`; operations that can lose a carry wrap explicitly.
-/

namespace MultiKeyFHE

inductive NativeSize where
  | w32 | w64
  deriving DecidableEq, Repr

namespace NativeSize

def bits : NativeSize → ℕ
  | w32 => 32
  | w64 => 64

def maxModulusSize : NativeSize → ℕ
  | w32 => 28
  | w64 => 60

theorem bits_eq (w : NativeSize) : w.bits = w.maxModulusSize + 4 := by cases w <;> rfl

theorem two_pow_32_le (w : NativeSize) : 2 ^ 32 ≤ 2 ^ w.bits := by
  have wide : 32 ≤ w.bits := by cases w <;> decide
  exact Nat.pow_le_pow_right two_pos wide

end NativeSize

/-- What stops a call: an `OPENFHE_THROW` with its type and text, or an access the language leaves
undefined. -/
inductive Fault where
  | configError (msg : String)
  | notImplementedError (msg : String)
  | notAvailableError (msg : String)
  | mathError (msg : String)
  | typeError (msg : String)
  | deserializeError (msg : String)
  | openfheError (msg : String)
  | nullDereference
  | outOfRange
  | divisionByZero
  | undefinedShift
  deriving DecidableEq, Repr

namespace Fault

/-- Thrown by the library. The other faults are those of the machine, and a caller sees nothing after them. -/
def isException : Fault → Bool
  | nullDereference | outOfRange | divisionByZero | undefinedShift => false
  | _ => true

end Fault

namespace NativeInteger
variable (w : NativeSize)

def wrap (x : ℕ) : ℕ := x % 2 ^ w.bits

/-- An `int64_t` that an operand of type `uint64_t` makes unsigned. -/
def asUnsigned (m : ℤ) : ℕ := (if m < 0 then m + 2 ^ 64 else m).toNat

def mul (a b : ℕ) : ℕ := wrap w (a * b)

def add (a b : ℕ) : ℕ := wrap w (a + b)

/-- `value` after `count` passes of `value *= base`. -/
def mulIterate (base value : ℕ) : ℕ → ℕ
  | 0 => value
  | count + 1 => mul w (mulIterate base value count) base

/-- `ModAddFast`: the operands are meant to be below the modulus. -/
def modAddFast (a b modulus : ℕ) : ℕ :=
  let r := add w a b
  if r ≥ modulus then r - modulus else r

/-- `ModSubFast`: the operands are meant to be below the modulus. -/
def modSubFast (a b modulus : ℕ) : ℕ :=
  if a < b then wrap w (a + modulus + 2 ^ w.bits - b) else a - b

/-- `Sub` without checks. -/
def sub (a b : ℕ) : ℕ := wrap w (a + 2 ^ w.bits - b)

/-- `ModSub`: reduces both operands first. -/
def modSub (a b modulus : ℕ) : ℕ := modSubFast w (a % modulus) (b % modulus) modulus

/-- `ModAdd`: reduces both operands first. -/
def modAdd (a b modulus : ℕ) : ℕ := modAddFast w (a % modulus) (b % modulus) modulus

/-- `ModMulFast(b, modulus)` in a double word. -/
def modMulFast (a b modulus : ℕ) : ℕ := (a * b) % modulus

/-- `ComputeMu`: the Barrett constant, cut to one word. -/
def computeMu (modulus : ℕ) : ℕ := wrap w (2 ^ (2 * modulus.size + 3) / modulus)

def rShiftD (x shift : ℕ) : ℕ := wrap w (x / 2 ^ shift)

/-- `ModMulFast(b, modulus, mu)`: the generalized Barrett product. -/
def modMulFastMu (a b modulus mu : ℕ) : ℕ :=
  let n := modulus.size - 2
  let prod := a * b
  let quot := rShiftD w prod n * mu / 2 ^ (n + 7)
  let r := wrap w ((prod + 2 ^ (2 * w.bits) - modulus * quot % 2 ^ (2 * w.bits)) % 2 ^ (2 * w.bits))
  if r ≥ modulus then r - modulus else r

/-- `GetMSB() > MAX_MODULUS_SIZE`, the guard of `SetModulus`. -/
def modulusTooLarge (modulus : ℕ) : Prop := w.maxModulusSize < modulus.size

instance (modulus : ℕ) : Decidable (modulusTooLarge w modulus) := inferInstanceAs (Decidable (_ < _))

variable {w}

@[simp] theorem asUnsigned_natCast (m : ℕ) : asUnsigned m = m := by
  rw [asUnsigned, if_neg (by omega), Int.toNat_natCast]

theorem asUnsigned_modEq_iff {m : ℤ} (low : -2 ^ 63 ≤ m) {p : ℕ} : (asUnsigned m : ℤ) ≡ m [ZMOD p] ↔ 0 ≤ m ∨ p ∣ 2 ^ 64 := by
  unfold asUnsigned
  split
  · rw [Int.toNat_of_nonneg (by omega), or_iff_right (by omega), Int.modEq_comm, Int.modEq_iff_dvd, add_sub_cancel_left]
    exact_mod_cast Iff.rfl
  · rw [Int.toNat_of_nonneg (by omega)]
    exact iff_of_true (Int.ModEq.refl m) (.inl (by omega))

/-- What is left of a message modulo `p`. -/
theorem asUnsigned_mod_eq {m : ℤ} (low : -2 ^ 63 ≤ m) {p : ℕ} (kept : 0 ≤ m ∨ p ∣ 2 ^ 64) : m % p = (asUnsigned m % p : ℕ) := by
  rw [Int.natCast_mod]
  exact ((asUnsigned_modEq_iff low).mpr kept).symm

theorem wrap_of_lt {x : ℕ} (h : x < 2 ^ w.bits) : wrap w x = x := Nat.mod_eq_of_lt h

theorem sub_of_le {a b : ℕ} (le : b ≤ a) (word : a < 2 ^ w.bits) : sub w a b = a - b := by
  rw [sub, wrap, show a + 2 ^ w.bits - b = a - b + 2 ^ w.bits by omega, Nat.add_mod_right,
    Nat.mod_eq_of_lt (by omega)]

theorem mulIterate_eq {base value : ℕ} (pos : 0 < base) (count : ℕ) (fits : value * base ^ count < 2 ^ w.bits) :
    mulIterate w base value count = value * base ^ count := by
  induction count with
  | zero => rw [mulIterate, pow_zero, mul_one]
  | succ count ih =>
    have before : value * base ^ count ≤ value * base ^ (count + 1) :=
      Nat.mul_le_mul_left _ (Nat.pow_le_pow_right pos (Nat.le_succ count))
    rw [mulIterate, ih (before.trans_lt fits), mul, mul_assoc, ← pow_succ, wrap_of_lt fits]

theorem lt_of_not_tooLarge {m : ℕ} (h : ¬ modulusTooLarge w m) : m * 16 < 2 ^ w.bits := by
  have hm : m < 2 ^ w.maxModulusSize := Nat.size_le.mp (Nat.not_lt.mp h)
  rw [w.bits_eq, pow_add]
  omega

theorem modAddFast_eq {a b m : ℕ} (ha : a < m) (hb : b < m) (hm : 2 * m ≤ 2 ^ w.bits) :
    modAddFast w a b m = (a + b) % m := by
  rw [modAddFast, add, wrap_of_lt (by omega)]
  split
  · rename_i h
    rw [Nat.mod_eq_sub_mod h, Nat.mod_eq_of_lt (by omega)]
  · rw [Nat.mod_eq_of_lt (by omega)]

theorem modAddFast_lt {a b m : ℕ} (ha : a < m) (hb : b < m) (hm : m ≤ 2 ^ w.bits) :
    modAddFast w a b m < m := by
  have sum : add w a b = a + b ∨ add w a b = a + b - 2 ^ w.bits := by
    rcases Nat.lt_or_ge (a + b) (2 ^ w.bits) with fits | overflows
    · exact .inl (wrap_of_lt fits)
    · right
      rw [add, wrap, Nat.mod_eq_sub_mod overflows, Nat.mod_eq_of_lt (by omega)]
  rw [modAddFast]
  split <;> omega

theorem modSubFast_eq {a b m : ℕ} (ha : a < m) (hb : b < m) (hm : m ≤ 2 ^ w.bits) :
    modSubFast w a b m = (a + m - b) % m := by
  rw [modSubFast]
  split
  · rename_i h
    rw [wrap, show a + m + 2 ^ w.bits - b = a + m - b + 2 ^ w.bits by omega, Nat.add_mod_right,
      Nat.mod_eq_of_lt (by omega), Nat.mod_eq_of_lt (by omega)]
  · rw [show a + m - b = a - b + m by omega, Nat.add_mod_right, Nat.mod_eq_of_lt (by omega)]

theorem modSubFast_lt {a b m : ℕ} (ha : a < m) (hb : b < m) (hm : m ≤ 2 ^ w.bits) :
    modSubFast w a b m < m := by
  rw [modSubFast_eq ha hb hm]
  exact Nat.mod_lt _ (by omega)

theorem modSubFast_modSubFast {a t m : ℕ} (ha : a < m) (ht : t < m) (hm : m ≤ 2 ^ w.bits) :
    modSubFast w a (modSubFast w a t m) m = t := by
  rw [modSubFast_eq ha (modSubFast_lt ha ht hm) hm, modSubFast_eq ha ht hm]
  rcases Nat.lt_or_ge a t with h | h
  · rw [Nat.mod_eq_of_lt (by omega : a + m - t < m), show a + m - (a + m - t) = t by omega, Nat.mod_eq_of_lt ht]
  · rw [show a + m - t = a - t + m by omega, Nat.add_mod_right, Nat.mod_eq_of_lt (by omega : a - t < m),
      show a + m - (a - t) = t + m by omega, Nat.add_mod_right, Nat.mod_eq_of_lt ht]

theorem modAddFast_cast {a b m : ℕ} (ha : a < m) (hb : b < m) (hm : 2 * m ≤ 2 ^ w.bits) :
    ((modAddFast w a b m : ℕ) : ℤ) ≡ a + b [ZMOD m] := by
  rw [modAddFast_eq ha hb hm]
  exact_mod_cast Int.mod_modEq ((a + b : ℕ) : ℤ) m

theorem modSubFast_cast {a b m : ℕ} (ha : a < m) (hb : b < m) (hm : m ≤ 2 ^ w.bits) :
    ((modSubFast w a b m : ℕ) : ℤ) ≡ a - b [ZMOD m] := by
  rw [modSubFast_eq ha hb hm]
  have h : ((a + m - b : ℕ) : ℤ) = a - b + m := by omega
  have := Int.mod_modEq ((a + m - b : ℕ) : ℤ) m
  rw [h] at this
  calc (((a + m - b) % m : ℕ) : ℤ) = (a - b + m : ℤ) % m := by rw [Int.natCast_mod, h]
    _ ≡ a - b + m [ZMOD m] := this
    _ ≡ a - b [ZMOD m] := by simp [Int.ModEq]

theorem modAdd_eq {a b m : ℕ} (hpos : 0 < m) (hm : 2 * m ≤ 2 ^ w.bits) :
    modAdd w a b m = (a + b) % m := by
  rw [modAdd, modAddFast_eq (Nat.mod_lt _ hpos) (Nat.mod_lt _ hpos) hm, ← Nat.add_mod]

/-! ### The Barrett product -/

theorem size_bounds {m : ℕ} (h2 : 2 ≤ m) : 2 ≤ m.size ∧ 2 ^ (m.size - 1) ≤ m ∧ m < 2 ^ m.size := by
  have hlt : m < 2 ^ m.size := Nat.lt_size_self m
  have hn : 2 ≤ m.size := by
    by_contra hc
    have : 2 ^ m.size ≤ 2 ^ 1 := Nat.pow_le_pow_right (by norm_num) (by omega)
    omega
  exact ⟨hn, Nat.lt_size.mp (by omega), hlt⟩

def barrettQuotient (w : NativeSize) (x m : ℕ) : ℕ :=
  rShiftD w x (m.size - 2) * computeMu w m / 2 ^ (m.size - 2 + 7)

theorem barrettQuotient_mul_le {x m : ℕ} (h2 : 2 ≤ m) : m * barrettQuotient w x m ≤ x := by
  obtain ⟨hn, -, -⟩ := size_bounds h2
  have hmu : computeMu w m * m ≤ 2 ^ (2 * m.size + 3) :=
    (Nat.mul_le_mul_right m (Nat.mod_le _ _)).trans (Nat.div_mul_le_self _ _)
  have hshift : rShiftD w x (m.size - 2) * 2 ^ (m.size - 2) ≤ x :=
    (Nat.mul_le_mul_right _ (Nat.mod_le _ _)).trans (Nat.div_mul_le_self _ _)
  have hquot : barrettQuotient w x m * 2 ^ (m.size - 2 + 7) ≤
      rShiftD w x (m.size - 2) * computeMu w m := Nat.div_mul_le_self _ _
  have hp : 2 ^ (m.size - 2 + 7) * 2 ^ (m.size - 2) = 2 ^ (2 * m.size + 3) := by
    rw [← pow_add]
    congr 1
    omega
  have hpos : 0 < 2 ^ (2 * m.size + 3) := by positivity
  refine Nat.le_of_mul_le_mul_right ?_ hpos
  calc m * barrettQuotient w x m * 2 ^ (2 * m.size + 3)
      = barrettQuotient w x m * 2 ^ (m.size - 2 + 7) * (2 ^ (m.size - 2) * m) := by rw [← hp]; ring
    _ ≤ rShiftD w x (m.size - 2) * computeMu w m * (2 ^ (m.size - 2) * m) := Nat.mul_le_mul_right _ hquot
    _ = rShiftD w x (m.size - 2) * 2 ^ (m.size - 2) * (computeMu w m * m) := by ring
    _ ≤ x * 2 ^ (2 * m.size + 3) := Nat.mul_le_mul hshift hmu

/-- The arithmetic of the estimate, with `b` for `2 ^ (size - 2)`: cutting `mu` loses at most `16 b m` and
cutting the shifted product `64 b m`, out of the `128 b m` that one quotient is worth. -/
theorem barrett_loss {b m u v t x : ℕ} (hpos : 0 < b) (hx : x < 16 * (b * b)) (hlo : 2 * b ≤ m)
    (below : u * b ≤ x) (above : x < (u + 1) * b) (hmu : 128 * (b * b) < (v + 1) * m)
    (hquot : u * v < (t + 1) * (128 * b)) : x < m * (t + 2) := by
  have hu16 : u < 16 * b := by
    refine Nat.lt_of_mul_lt_mul_right (a := b) ?_
    calc u * b ≤ x := below
      _ < 16 * b * b := by rw [mul_assoc]; exact hx
  refine Nat.lt_of_mul_lt_mul_left (a := 128 * b) ?_
  calc 128 * b * x < 128 * b * ((u + 1) * b) := Nat.mul_lt_mul_of_pos_left above (by positivity)
    _ = u * (128 * (b * b)) + 64 * b * (2 * b) := by ring
    _ ≤ u * ((v + 1) * m) + 64 * b * m :=
      Nat.add_le_add (Nat.mul_le_mul_left _ hmu.le) (Nat.mul_le_mul_left _ hlo)
    _ = u * v * m + u * m + 64 * b * m := by ring
    _ ≤ (t + 1) * (128 * b) * m + 16 * b * m + 64 * b * m :=
      Nat.add_le_add_right (Nat.add_le_add (Nat.mul_le_mul_right _ hquot.le) (Nat.mul_le_mul_right _ hu16.le)) _
    _ ≤ (t + 1) * (128 * b) * m + 128 * b * m := by
      have : 0 ≤ b * m := Nat.zero_le _
      nlinarith
    _ = 128 * b * (m * (t + 2)) := by ring

theorem lt_barrettQuotient_mul {x m : ℕ} (h2 : 2 ≤ m) (hx : x < 2 ^ (2 * m.size))
    (shift : x / 2 ^ (m.size - 2) < 2 ^ w.bits) (mu : 2 ^ (2 * m.size + 3) / m < 2 ^ w.bits) :
    x < m * (barrettQuotient w x m + 2) := by
  obtain ⟨hn, hlo, -⟩ := size_bounds h2
  obtain ⟨e, he⟩ : ∃ e, m.size = e + 2 := ⟨m.size - 2, by omega⟩
  have above : x < (rShiftD w x (m.size - 2) + 1) * 2 ^ e := by
    rw [rShiftD, wrap_of_lt shift, he, Nat.add_sub_cancel, mul_comm]
    exact Nat.lt_mul_div_succ x (by positivity)
  have below : rShiftD w x (m.size - 2) * 2 ^ e ≤ x := by
    rw [rShiftD, wrap_of_lt shift, he, Nat.add_sub_cancel]
    exact Nat.div_mul_le_self _ _
  have hmu : 2 ^ (2 * e + 7) < (computeMu w m + 1) * m := by
    have h := Nat.lt_mul_div_succ (2 ^ (2 * m.size + 3)) (show 0 < m by omega)
    rw [computeMu, wrap_of_lt mu]
    rwa [mul_comm m, he, show 2 * (e + 2) + 3 = 2 * e + 7 by ring] at *
  have hquot : rShiftD w x (m.size - 2) * computeMu w m < (barrettQuotient w x m + 1) * 2 ^ (e + 7) := by
    rw [barrettQuotient, mul_comm (_ + 1)]
    have := Nat.lt_mul_div_succ (rShiftD w x (m.size - 2) * computeMu w m) (show 0 < 2 ^ (e + 7) by positivity)
    rwa [he, Nat.add_sub_cancel] at *
  rw [he] at hx
  rw [he, show e + 2 - 1 = e + 1 by omega, pow_succ'] at hlo
  rw [show 2 ^ (2 * (e + 2)) = 16 * (2 ^ e * 2 ^ e) by ring] at hx
  rw [show 2 ^ (2 * e + 7) = 128 * (2 ^ e * 2 ^ e) by ring] at hmu
  rw [show 2 ^ (e + 7) = 128 * 2 ^ e by ring] at hquot
  exact barrett_loss (by positivity) hx hlo below above hmu hquot

theorem mul_lt_double {a b m : ℕ} (hm : ¬ modulusTooLarge w m) (ha : a < m) (hb : b < m) : a * b < 2 ^ (2 * w.bits) := by
  have hlt := lt_of_not_tooLarge hm
  calc a * b < m * m := Nat.mul_lt_mul'' ha hb
    _ ≤ 2 ^ w.bits * 2 ^ w.bits := Nat.mul_le_mul (by omega) (by omega)
    _ = 2 ^ (2 * w.bits) := by rw [← pow_add]; congr 1; ring

theorem modMulFastMu_eq_quotient {a b m : ℕ} (h2 : 2 ≤ m) (double : a * b < 2 ^ (2 * w.bits)) :
    modMulFastMu w a b m (computeMu w m) =
      let r := wrap w (a * b - m * barrettQuotient w (a * b) m)
      if r ≥ m then r - m else r := by
  have hle := barrettQuotient_mul_le (w := w) (x := a * b) h2
  have hr : (a * b + 2 ^ (2 * w.bits) - m * barrettQuotient w (a * b) m % 2 ^ (2 * w.bits)) %
      2 ^ (2 * w.bits) = a * b - m * barrettQuotient w (a * b) m := by
    rw [Nat.mod_eq_of_lt (by omega : m * barrettQuotient w (a * b) m < 2 ^ (2 * w.bits)),
      show a * b + 2 ^ (2 * w.bits) - m * barrettQuotient w (a * b) m =
        a * b - m * barrettQuotient w (a * b) m + 2 ^ (2 * w.bits) by omega,
      Nat.add_mod_right, Nat.mod_eq_of_lt (by omega)]
  rw [barrettQuotient] at hr
  simp only [modMulFastMu, barrettQuotient, hr]
  rfl

/-- `mu` overflows the word only where the modulus is a power of two. -/
theorem eq_two_pow_of_mu_overflow {m : ℕ} (h2 : 2 ≤ m) (hm : ¬ modulusTooLarge w m)
    (mu : 2 ^ w.bits ≤ 2 ^ (2 * m.size + 3) / m) : m = 2 ^ (m.size - 1) := by
  obtain ⟨hn, hlo, -⟩ := size_bounds h2
  have hsize : m.size ≤ w.maxModulusSize := Nat.not_lt.mp hm
  have hbits := w.bits_eq
  refine le_antisymm ?_ hlo
  have h1 : m * 2 ^ w.bits ≤ 2 ^ (2 * m.size + 3) := by
    rw [mul_comm]
    exact (Nat.mul_le_mul_right m mu).trans (Nat.div_mul_le_self _ _)
  have h3 : 2 ^ (2 * m.size + 3) ≤ 2 ^ (m.size - 1) * 2 ^ w.bits := by
    rw [← pow_add]
    exact Nat.pow_le_pow_right (by omega) (by omega)
  exact Nat.le_of_mul_le_mul_right (h1.trans h3) (by positivity)

/-- Only the largest power of two that a build accepts as a modulus has an overflowing `mu`. -/
theorem mu_fits {m : ℕ} (h2 : 2 ≤ m) (hm : ¬ modulusTooLarge w m) (other : m ≠ 2 ^ (w.maxModulusSize - 1)) :
    2 ^ (2 * m.size + 3) / m < 2 ^ w.bits := by
  by_contra overflow
  have hpow := eq_two_pow_of_mu_overflow h2 hm (Nat.not_lt.mp overflow)
  have hsize : m.size ≤ w.maxModulusSize := Nat.not_lt.mp hm
  have hbits := w.bits_eq
  obtain ⟨hn, -, -⟩ := size_bounds h2
  have small : m.size < w.maxModulusSize := lt_of_le_of_ne hsize fun h => other (h ▸ hpow)
  refine overflow (Nat.div_lt_of_lt_mul ?_)
  calc 2 ^ (2 * m.size + 3) < 2 ^ (m.size - 1 + w.bits) := Nat.pow_lt_pow_right (by omega) (by omega)
    _ = m * 2 ^ w.bits := by rw [pow_add, ← hpow]

theorem mul_lt_size {a b m : ℕ} (ha : a < m) (hb : b < m) : a * b < 2 ^ (2 * m.size) := by
  have hhi := (Nat.lt_size_self m).le
  calc a * b < m * m := Nat.mul_lt_mul'' ha hb
    _ ≤ 2 ^ m.size * 2 ^ m.size := Nat.mul_le_mul hhi hhi
    _ = 2 ^ (2 * m.size) := by rw [← pow_add]; congr 1; ring

theorem shifted_fits {a b m : ℕ} (h2 : 2 ≤ m) (hm : ¬ modulusTooLarge w m) (ha : a < m) (hb : b < m) :
    a * b / 2 ^ (m.size - 2) < 2 ^ w.bits := by
  obtain ⟨hn, -, -⟩ := size_bounds h2
  have hsize : m.size ≤ w.maxModulusSize := Nat.not_lt.mp hm
  have hbits := w.bits_eq
  refine Nat.div_lt_of_lt_mul ((mul_lt_size ha hb).trans_le ?_)
  rw [← pow_add]
  exact Nat.pow_le_pow_right (by omega) (by omega)

theorem lt_barrett_product {a b m : ℕ} (h2 : 2 ≤ m) (hm : ¬ modulusTooLarge w m) (ha : a < m) (hb : b < m)
    (mu : 2 ^ (2 * m.size + 3) / m < 2 ^ w.bits) : a * b < m * (barrettQuotient w (a * b) m + 2) :=
  lt_barrettQuotient_mul h2 (mul_lt_size ha hb) (shifted_fits h2 hm ha hb) mu

/-- The product is right as long as what the estimate leaves fits a word. -/
theorem modMulFastMu_modEq_of_fits {a b m : ℕ} (h2 : 2 ≤ m) (hm : ¬ modulusTooLarge w m) (double : a * b < 2 ^ (2 * w.bits))
    (fits : 2 ^ (2 * m.size + 3) / m < 2 ^ w.bits → a * b - m * barrettQuotient w (a * b) m < 2 ^ w.bits) :
    modMulFastMu w a b m (computeMu w m) ≡ a * b [MOD m] := by
  have hle := barrettQuotient_mul_le (w := w) (x := a * b) h2
  have hsize : m.size ≤ w.maxModulusSize := Nat.not_lt.mp hm
  have hbits := w.bits_eq
  have hresidue : a * b - m * barrettQuotient w (a * b) m ≡ a * b [MOD m] := Nat.sub_mul_mod hle
  have hwrap : wrap w (a * b - m * barrettQuotient w (a * b) m) ≡ a * b - m * barrettQuotient w (a * b) m [MOD m] := by
    rcases Nat.lt_or_ge (2 ^ (2 * m.size + 3) / m) (2 ^ w.bits) with mu | mu
    · rw [wrap_of_lt (fits mu)]
    · have hdvd : m ∣ 2 ^ w.bits := by
        rw [eq_two_pow_of_mu_overflow h2 hm mu]
        exact pow_dvd_pow 2 (by omega)
      exact (Nat.mod_modEq _ _).of_dvd hdvd
  rw [modMulFastMu_eq_quotient h2 double]
  dsimp only
  split
  · rename_i hge
    exact ((Nat.modEq_iff_dvd' (Nat.sub_le _ _)).mpr ⟨1, by omega⟩).trans (hwrap.trans hresidue)
  · exact hwrap.trans hresidue

theorem modMulFastMu_modEq {a b m : ℕ} (h2 : 2 ≤ m) (hm : ¬ modulusTooLarge w m) (ha : a < m) (hb : b < m) :
    modMulFastMu w a b m (computeMu w m) ≡ a * b [MOD m] := by
  refine modMulFastMu_modEq_of_fits h2 hm (mul_lt_double hm ha hb) fun mu => ?_
  have hlt := lt_of_not_tooLarge hm
  have hsmall := lt_barrett_product h2 hm ha hb mu
  rw [Nat.mul_add] at hsmall
  omega

/-- What the estimate leaves of a product `x < b W`, with `b` for `2 ^ (size - 2)` and `W` for a word. -/
theorem barrett_loss_word {b m u v t x W : ℕ} (hpos : 0 < b) (hW : m * 16 < W) (hlo : 2 * b ≤ m) (hhi : m < 4 * b)
    (hu : u < W) (above : x < (u + 1) * b) (hmu : 128 * (b * b) < (v + 1) * m) (hv : v * m ≤ 128 * (b * b))
    (hquot : u * v < (t + 1) * (128 * b)) : x < m * t + W := by
  refine Nat.lt_of_mul_lt_mul_left (a := 128 * b) ?_
  have first : 128 * b * x < m * ((u + 1) * (v + 1)) := by
    calc 128 * b * x < 128 * b * ((u + 1) * b) := Nat.mul_lt_mul_of_pos_left above (by positivity)
      _ = (u + 1) * (128 * (b * b)) := by ring
      _ ≤ (u + 1) * ((v + 1) * m) := Nat.mul_le_mul_left _ hmu.le
      _ = m * ((u + 1) * (v + 1)) := by ring
  have cut : m * (u * v + 1) ≤ m * ((t + 1) * (128 * b)) := Nat.mul_le_mul_left m hquot
  have shifted : m * u ≤ 4 * b * W := Nat.mul_le_mul hhi.le hu.le
  have small : 128 * b * m ≤ 8 * b * W := by
    calc 128 * b * m = 8 * b * (m * 16) := by ring
      _ ≤ 8 * b * W := Nat.mul_le_mul_left _ hW.le
  have square : 128 * (b * b) ≤ 4 * b * W := by
    calc 128 * (b * b) = 4 * b * (2 * b * 16) := by ring
      _ ≤ 4 * b * (m * 16) := Nat.mul_le_mul_left _ (Nat.mul_le_mul_right _ hlo)
      _ ≤ 4 * b * W := Nat.mul_le_mul_left _ hW.le
  nlinarith

/-- One factor may be any word, if the other is at most `2 ^ (size - 2)`. -/
theorem modMulFastMu_modEq_word {a b m : ℕ} (h2 : 2 ≤ m) (hm : ¬ modulusTooLarge w m) (ha : a ≤ 2 ^ (m.size - 2))
    (hb : b < 2 ^ w.bits) : modMulFastMu w a b m (computeMu w m) ≡ a * b [MOD m] := by
  have hlt := lt_of_not_tooLarge hm
  obtain ⟨hn, hlo, hhi⟩ := size_bounds h2
  obtain ⟨e, he⟩ : ∃ e, m.size = e + 2 := ⟨m.size - 2, by omega⟩
  rw [he, Nat.add_sub_cancel] at ha
  rw [he, show e + 2 - 1 = e + 1 by omega, pow_succ'] at hlo
  rw [he, show 2 ^ (e + 2) = 4 * 2 ^ e by ring] at hhi
  have product : a * b < 2 ^ e * 2 ^ w.bits := Nat.mul_lt_mul_of_le_of_lt ha hb (by positivity)
  have double : a * b < 2 ^ (2 * w.bits) := by
    refine product.trans_le ?_
    rw [two_mul, pow_add]
    exact Nat.mul_le_mul_right _ (by omega)
  refine modMulFastMu_modEq_of_fits h2 hm double fun mu => ?_
  have word : a * b / 2 ^ e < 2 ^ w.bits := Nat.div_lt_of_lt_mul product
  have shift : rShiftD w (a * b) e = a * b / 2 ^ e := wrap_of_lt word
  have value : computeMu w m = 2 ^ (2 * e + 7) / m := by
    rw [he, show 2 * (e + 2) + 3 = 2 * e + 7 by ring] at mu
    rw [computeMu, he, show 2 * (e + 2) + 3 = 2 * e + 7 by ring, wrap_of_lt mu]
  have quotient : barrettQuotient w (a * b) m = a * b / 2 ^ e * (2 ^ (2 * e + 7) / m) / 2 ^ (e + 7) := by
    rw [barrettQuotient, he, Nat.add_sub_cancel, shift, value]
  have square : 2 ^ (2 * e + 7) = 128 * (2 ^ e * 2 ^ e) := by ring
  have loss : a * b < m * barrettQuotient w (a * b) m + 2 ^ w.bits := by
    refine barrett_loss_word (show 0 < 2 ^ e by positivity) hlt hlo hhi word ?_ ?_ ?_ ?_ (v := 2 ^ (2 * e + 7) / m)
    · exact (Nat.lt_mul_div_succ _ (by positivity)).trans_eq (mul_comm _ _)
    · rw [← square]
      exact (Nat.lt_mul_div_succ _ (by omega)).trans_eq (mul_comm _ _)
    · rw [← square]
      exact Nat.div_mul_le_self _ _
    · rw [quotient, mul_comm (_ + 1), show 128 * 2 ^ e = 2 ^ (e + 7) by ring]
      exact Nat.lt_mul_div_succ _ (by positivity)
  omega

theorem modMulFastMu_lt {a b m : ℕ} (h2 : 2 ≤ m) (hm : ¬ modulusTooLarge w m) (ha : a < m) (hb : b < m)
    (mu : 2 ^ (2 * m.size + 3) / m < 2 ^ w.bits) : modMulFastMu w a b m (computeMu w m) < m := by
  have hlt := lt_of_not_tooLarge hm
  have hsmall := lt_barrett_product h2 hm ha hb mu
  rw [Nat.mul_add] at hsmall
  rw [modMulFastMu_eq_quotient h2 (mul_lt_double hm ha hb), wrap_of_lt (by omega)]
  dsimp only
  split <;> omega

theorem computeMu_largest : computeMu w (2 ^ (w.maxModulusSize - 1)) = 0 := by
  have exponent : 2 * (w.maxModulusSize - 1 + 1) + 3 = w.maxModulusSize - 1 + w.bits := by cases w <;> rfl
  rw [computeMu, Nat.size_pow, exponent, pow_add, Nat.mul_div_cancel_left _ (by positivity), wrap, Nat.mod_self]

/-- With the overflowing `mu` nothing but the word cuts the product. -/
def ProductFits (w : NativeSize) (m x : ℕ) : Prop := m = 2 ^ (w.maxModulusSize - 1) → x % 2 ^ w.bits < 2 * m

instance (m x : ℕ) : Decidable (ProductFits w m x) := inferInstanceAs (Decidable (_ → _))

theorem modMulFastMu_lt_iff {a b m : ℕ} (h2 : 2 ≤ m) (hm : ¬ modulusTooLarge w m) (ha : a < m) (hb : b < m) :
    modMulFastMu w a b m (computeMu w m) < m ↔ ProductFits w m (a * b) := by
  by_cases largest : m = 2 ^ (w.maxModulusSize - 1)
  · have nothing : barrettQuotient w (a * b) m = 0 := by
      rw [barrettQuotient, largest, computeMu_largest, Nat.mul_zero, Nat.zero_div]
    rw [modMulFastMu_eq_quotient h2 (mul_lt_double hm ha hb), nothing, Nat.mul_zero, Nat.sub_zero]
    have fits : ProductFits w m (a * b) ↔ wrap w (a * b) < 2 * m := ⟨fun h => h largest, fun h _ => h⟩
    rw [fits]
    dsimp only
    split <;> omega
  · exact iff_of_true (modMulFastMu_lt h2 hm ha hb (mu_fits h2 hm largest)) fun same => absurd same largest

theorem modMulFastMu_zero {b m mu : ℕ} (hm : 0 < m) : modMulFastMu w 0 b m mu = 0 := by
  simp [modMulFastMu, rShiftD, wrap, hm.ne']

theorem modMulFastMu_of_lt {a b m : ℕ} (h2 : 2 ≤ m) (hlt : a * b < m) (hm : m ≤ 2 ^ w.bits) :
    modMulFastMu w a b m (computeMu w m) = a * b := by
  have hquot : barrettQuotient w (a * b) m = 0 := by
    by_contra hne
    have hle := barrettQuotient_mul_le (w := w) (x := a * b) h2
    have : m * 1 ≤ m * barrettQuotient w (a * b) m := Nat.mul_le_mul_left m (Nat.pos_of_ne_zero hne)
    omega
  have hdw : 2 ^ w.bits ≤ 2 ^ (2 * w.bits) := Nat.pow_le_pow_right (by norm_num) (by omega)
  rw [barrettQuotient] at hquot
  simp only [modMulFastMu, hquot, Nat.mul_zero, Nat.zero_mod, Nat.sub_zero, Nat.add_mod_right]
  rw [Nat.mod_eq_of_lt (by omega), wrap_of_lt (by omega), if_neg (by omega)]

end NativeInteger
end MultiKeyFHE
