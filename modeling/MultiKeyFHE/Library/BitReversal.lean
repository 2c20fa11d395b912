import Mathlib.Tactic.Ring
import Mathlib.Tactic.Linarith

/-!
# Bit reversal

`reverseBits bits i` reads the low `bits` bits of `i` in the opposite order. `reverseBits_add` cuts the word
at any place, and everything else follows from it.
-/

namespace BitReversal

def reverseBits : ℕ → ℕ → ℕ
  | 0, _ => 0
  | bits + 1, i => i % 2 * 2 ^ bits + reverseBits bits (i / 2)

theorem reverseBits_lt (bits i : ℕ) : reverseBits bits i < 2 ^ bits := by
  induction bits generalizing i with
  | zero => simp [reverseBits]
  | succ bits ih =>
    have low : i % 2 * 2 ^ bits ≤ 1 * 2 ^ bits := Nat.mul_le_mul_right _ (by omega)
    have := ih (i / 2)
    rw [reverseBits, pow_succ]
    omega

@[simp] theorem reverseBits_zero (bits : ℕ) : reverseBits bits 0 = 0 := by
  induction bits with
  | zero => rfl
  | succ bits ih => rw [reverseBits, Nat.zero_mod, Nat.zero_div, ih, zero_mul]

theorem reverseBits_two_mul (bits i : ℕ) : reverseBits (bits + 1) (2 * i) = reverseBits bits i := by
  rw [reverseBits, Nat.mul_mod_right, Nat.mul_div_cancel_left i two_pos, zero_mul, zero_add]

theorem reverseBits_two_mul_add_one (bits i : ℕ) :
    reverseBits (bits + 1) (2 * i + 1) = 2 ^ bits + reverseBits bits i := by
  rw [reverseBits, show (2 * i + 1) % 2 = 1 by omega, show (2 * i + 1) / 2 = i by omega, one_mul]

/-- The low `a` bits come out on top of the other `b`. -/
theorem reverseBits_add (a b i : ℕ) :
    reverseBits (a + b) i = reverseBits a i * 2 ^ b + reverseBits b (i / 2 ^ a) := by
  induction a generalizing i with
  | zero => simp [reverseBits]
  | succ a ih =>
    have next : i / 2 / 2 ^ a = i / 2 ^ (a + 1) := by rw [Nat.div_div_eq_div_mul, pow_succ']
    rw [Nat.add_right_comm, reverseBits, reverseBits, ih, next, pow_add]
    ring

theorem reverseBits_mod (a i : ℕ) : reverseBits a (i % 2 ^ a) = reverseBits a i := by
  induction a generalizing i with
  | zero => rfl
  | succ a ih =>
    have low : i % 2 ^ (a + 1) % 2 = i % 2 := Nat.mod_mod_of_dvd _ (dvd_pow_self 2 (Nat.succ_ne_zero a))
    have high : i % 2 ^ (a + 1) / 2 = i / 2 % 2 ^ a := by
      rw [pow_succ', Nat.mod_mul_right_div_self]
    rw [reverseBits, reverseBits, low, high, ih]

/-- Bits above a number's own leave it shifted up. -/
theorem reverseBits_of_lt {a i : ℕ} (h : i < 2 ^ a) (b : ℕ) :
    reverseBits (a + b) i = reverseBits a i * 2 ^ b := by
  rw [reverseBits_add, Nat.div_eq_of_lt h, reverseBits_zero, add_zero]

/-- Index `2 ^ a + i` has `i` below a single set bit. -/
theorem reverseBits_two_pow_add {a i : ℕ} (h : i < 2 ^ a) (b : ℕ) :
    reverseBits (a + (b + 1)) (2 ^ a + i) = (2 * reverseBits a i + 1) * 2 ^ b := by
  have low : reverseBits a (2 ^ a + i) = reverseBits a i := by
    rw [← reverseBits_mod, Nat.add_mod_left, Nat.mod_eq_of_lt h]
  have high : (2 ^ a + i) / 2 ^ a = 1 := by
    rw [Nat.add_div_left _ (by positivity), Nat.div_eq_of_lt h]
  have one : reverseBits (b + 1) 1 = 2 ^ b := by
    rw [show 1 = 2 * 0 + 1 from rfl, reverseBits_two_mul_add_one, reverseBits_zero, add_zero]
  rw [reverseBits_add, low, high, one, pow_succ]
  ring

theorem reverseBits_reverseBits {bits i : ℕ} (h : i < 2 ^ bits) : reverseBits bits (reverseBits bits i) = i := by
  induction bits generalizing i with
  | zero =>
    rw [pow_zero] at h
    rw [reverseBits]
    omega
  | succ bits ih =>
    have half : i / 2 < 2 ^ bits := by
      rw [pow_succ] at h
      omega
    have below := reverseBits_lt bits (i / 2)
    -- The outer reversal is cut at the top, where the inner one has put the lowest bit.
    have low : reverseBits bits (i % 2 * 2 ^ bits + reverseBits bits (i / 2)) = i / 2 := by
      rw [← reverseBits_mod, add_comm, Nat.add_mul_mod_self_right, Nat.mod_eq_of_lt below, ih half]
    have top : (i % 2 * 2 ^ bits + reverseBits bits (i / 2)) / 2 ^ bits = i % 2 := by
      rw [add_comm, Nat.add_mul_div_right _ _ (by positivity), Nat.div_eq_of_lt below, zero_add]
    rw [reverseBits_add bits 1, reverseBits, low, top, reverseBits, reverseBits]
    omega

end BitReversal
