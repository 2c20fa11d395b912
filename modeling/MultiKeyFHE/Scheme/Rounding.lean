import MultiKeyFHE.Native.Vector
import MultiKeyFHE.Library.Circle
import Mathlib.Tactic.LinearCombination

/-!
# Scaling and rounding

What the multi-key encryption schemes do with the plaintext scale: `RoundqQ` between two moduli, and the
last lines of the decryptions, which add a shift and cut `p * inner / mod`.
-/

namespace MultiKeyFHE
open NativeInteger Circle

/-- `static_cast<BasicInteger>(std::floor(0.5 + v * q / Q))` as the floating point unit computes it, from
`v`, `q` and `Q`. -/
abbrev FloorRound := ℕ → ℕ → ℕ → ℕ

def roundqQ (round : FloorRound) (v q Q : ℕ) : ℕ := round v q Q % q

def exactRound : FloorRound := fun v q Q => (2 * v * q + Q) / (2 * Q)

/-- `inner.ModAddFastEq(shift, mod)` and `(NativeInteger(p) * inner) / mod`. -/
def decode (w : NativeSize) (mod p shift inner : ℕ) : ℕ := NativeInteger.mul w p (modAddFast w inner shift mod) / mod

variable {w : NativeSize}

theorem exactRound_near (v q : ℕ) {Q : ℕ} (hQ : 0 < Q) : |((exactRound v q Q : ℕ) : ℚ) - v * q / Q| ≤ 1 / 2 := by
  have hpos : (0 : ℚ) < Q := by exact_mod_cast hQ
  have h1 : (2 * v * q + Q) / (2 * Q) * (2 * Q) ≤ 2 * v * q + Q := Nat.div_mul_le_self _ _
  have h2 : 2 * v * q + Q < ((2 * v * q + Q) / (2 * Q) + 1) * (2 * Q) := by
    rw [mul_comm (_ / _ + 1)]
    exact Nat.lt_mul_div_succ _ (by omega)
  have h1' : ((exactRound v q Q : ℕ) : ℚ) * (2 * Q) ≤ 2 * v * q + Q := by exact_mod_cast h1
  have h2' : (2 * v * q + Q : ℚ) < ((exactRound v q Q : ℕ) + 1) * (2 * Q) := by exact_mod_cast h2
  have split : ((exactRound v q Q : ℕ) : ℚ) - v * q / Q =
      ((exactRound v q Q : ℕ) * (2 * Q) - 2 * v * q) / (2 * Q) := by field_simp
  rw [split, abs_le, le_div_iff₀ (by linarith), div_le_iff₀ (by linarith)]
  constructor <;> linarith

theorem roundqQ_near {round : FloorRound} {v q Q : ℕ} {ρ : ℚ} (close : |(round v q Q : ℚ) - v * q / Q| ≤ ρ) :
    Near q ρ (roundqQ round v q Q) ((v : ℚ) * q / Q) := by
  have reduced := near_of_modEq (m := q) (a := (roundqQ round v q Q : ℕ)) (b := (round v q Q : ℕ))
    (by rw [roundqQ, Int.natCast_mod]; exact Int.mod_modEq _ _)
  have total := reduced.trans (near_of_abs close)
  rwa [zero_add] at total

theorem roundqQ_exact_near {v q Q : ℕ} (hQ : 0 < Q) :
    Near q (1 / 2) (roundqQ exactRound v q Q) ((v : ℚ) * q / Q) := roundqQ_near (exactRound_near v q hQ)

theorem roundqQ_exact_back {v q Q : ℕ} (hq : 0 < q) (hQ : 0 < Q) :
    Near Q (Q / (2 * q)) ((roundqQ exactRound v q Q : ℕ) * Q / q) v := by
  have hq' : (0 : ℚ) < q := by exact_mod_cast hq
  have hQ' : (0 : ℚ) < Q := by exact_mod_cast hQ
  have scaled := (roundqQ_exact_near (v := v) (q := q) hQ).scale (c := Q / q) (by positivity)
  convert scaled using 1 <;> field_simp

/-- The shifted value before the division, between two multiples of the modulus. -/
theorem decode_value {mod p shift inner m : ℕ} {t : ℤ} (hm : ¬ modulusTooLarge w mod) (hinner : inner < mod)
    (hshift : shift < mod) (hmp : m < p) (lo : (m : ℤ) * mod ≤ p * (inner + shift - t * mod))
    (hi : p * (inner + shift - t * mod) < (m + 1) * mod) :
    ∃ r : ℕ, (r : ℤ) = inner + shift - t * mod ∧ r < mod ∧ decode w mod p shift inner = wrap w (p * r) / mod ∧
      m * mod ≤ p * r ∧ p * r < (m + 1) * mod := by
  have hlt := lt_of_not_tooLarge hm
  have hsum : modAddFast w inner shift mod = (inner + shift) % mod := modAddFast_eq hinner hshift (by omega)
  have hp : (0 : ℤ) < p := by omega
  have hr : (((inner + shift) % mod : ℕ) : ℤ) = inner + shift - t * mod := by
    have nonneg : (0 : ℤ) ≤ inner + shift - t * mod := by
      refine nonneg_of_mul_nonneg_right (le_trans ?_ lo) hp
      positivity
    have below : (inner + shift - t * mod : ℤ) < mod := by
      refine lt_of_mul_lt_mul_left (hi.trans_le ?_) hp.le
      exact mul_le_mul_of_nonneg_right (by omega) (by omega)
    rw [Int.natCast_mod, Nat.cast_add, ← Int.emod_eq_of_lt nonneg below]
    exact (Int.sub_mul_emod_self_right _ _ _).symm
  rw [← hr] at lo hi
  refine ⟨(inner + shift) % mod, hr, Nat.mod_lt _ (by omega), ?_, by exact_mod_cast lo, by exact_mod_cast hi⟩
  rw [decode, hsum, NativeInteger.mul]

theorem decode_eq {mod p shift inner m : ℕ} {t : ℤ} (hm : ¬ modulusTooLarge w mod) (fits : p * mod < 2 ^ w.bits)
    (hinner : inner < mod) (hshift : shift < mod) (hmp : m < p) (lo : (m : ℤ) * mod ≤ p * (inner + shift - t * mod))
    (hi : p * (inner + shift - t * mod) < (m + 1) * mod) : decode w mod p shift inner = m := by
  obtain ⟨r, -, small, value, lower, upper⟩ := decode_value hm hinner hshift hmp lo hi
  have word : p * r < 2 ^ w.bits := (Nat.mul_le_mul_left p small.le).trans_lt fits
  rw [value, wrap_of_lt word]
  exact Nat.div_eq_of_lt_le lower upper

/-- A product that wraps is divided to less. -/
theorem wrap_div_eq_iff {mod m x : ℕ} (hm : mod ≤ 2 ^ w.bits) (lower : m * mod ≤ x) (upper : x < (m + 1) * mod) :
    wrap w x / mod = m ↔ x < 2 ^ w.bits := by
  have pos : 0 < mod := Nat.pos_of_ne_zero fun zero => by
    rw [zero] at upper
    omega
  constructor
  · intro same
    by_contra overflows
    have cut : wrap w x ≤ x - 2 ^ w.bits := by
      rw [wrap, Nat.mod_eq_sub_mod (Nat.not_lt.mp overflows)]
      exact Nat.mod_le _ _
    have kept := (Nat.le_div_iff_mul_le pos).mp same.ge
    rw [add_mul, one_mul] at upper
    omega
  · intro fits
    rw [wrap_of_lt fits]
    exact Nat.div_eq_of_lt_le lower upper

/-- The message, the noise and the shift `mod / (2 * p)` of a fresh ciphertext, times `p`. -/
theorem fresh_between {mod p m : ℕ} {E : ℤ} (hp : 0 < p) (hmp : m < p) (noise : |E| ≤ (mod / (2 * p) : ℕ) - p) :
    (m : ℤ) * mod ≤ p * (m * (mod / p : ℕ) + E + (mod / (2 * p) : ℕ)) ∧
      p * (m * (mod / p : ℕ) + E + (mod / (2 * p) : ℕ)) < (m + 1) * mod := by
  have bounds := abs_le.mp noise
  -- `mod` in steps of `p` and of `2 * p`.
  have whole : (p : ℤ) * (mod / p : ℕ) = mod - (mod % p : ℕ) := by
    have := Nat.div_add_mod mod p
    have : (p : ℤ) * (mod / p : ℕ) + (mod % p : ℕ) = mod := by exact_mod_cast this
    linarith
  have half : 2 * ((p : ℤ) * (mod / (2 * p) : ℕ)) ≤ mod := by
    have := Nat.mul_div_le mod (2 * p)
    have : (2 * p : ℤ) * (mod / (2 * p) : ℕ) ≤ mod := by exact_mod_cast this
    linarith
  have cut : (mod % p : ℕ) < p := Nat.mod_lt _ hp
  have hp' : (0 : ℤ) < p := by omega
  have high : (p : ℤ) * E ≤ p * (mod / (2 * p) : ℕ) - p * p := by
    rw [← mul_sub]
    exact mul_le_mul_of_nonneg_left bounds.2 hp'.le
  have low : (p : ℤ) * p - p * (mod / (2 * p) : ℕ) ≤ p * E := by
    rw [← mul_sub]
    exact mul_le_mul_of_nonneg_left (by linarith [bounds.1]) hp'.le
  have drift : (0 : ℤ) ≤ m * (mod % p : ℕ) ∧ (m : ℤ) * (mod % p : ℕ) ≤ p * p - p := by
    have : (m : ℤ) * (mod % p : ℕ) ≤ p * (p - 1) := mul_le_mul (by omega) (by omega) (by omega) (by omega)
    exact ⟨by positivity, by linarith⟩
  have square : (0 : ℤ) < p * p := by positivity
  have scaled : (p : ℤ) * (m * (mod / p : ℕ) + E + (mod / (2 * p) : ℕ)) =
      m * mod - m * (mod % p : ℕ) + p * E + p * (mod / (2 * p) : ℕ) := by
    linear_combination (m : ℤ) * whole
  rw [scaled]
  generalize (mod / (2 * p) : ℕ) = s at *
  generalize (mod % p : ℕ) = r at *
  obtain ⟨lo, hi⟩ := drift
  constructor <;> linarith

theorem decode_near {mod shift inner m : ℕ} {x : ℤ} {ε : ℚ} (hm : ¬ modulusTooLarge w mod) (hinner : inner < mod)
    (hshift : shift < mod) (hx : (inner : ℤ) ≡ x [ZMOD mod]) (hm4 : m < 4)
    (near : Near mod ε (x + shift) (m * mod / 4 + mod / 8)) (small : ε < mod / 8) :
    decode w mod 4 shift inner = m := by
  obtain ⟨t, ht⟩ := ((near_of_modEq hx).add (near_refl (shift : ℚ))).trans near
  have hb := abs_le.mp ht
  push_cast at hb
  have hlt := lt_of_not_tooLarge hm
  refine decode_eq (t := t) hm (by omega) hinner hshift hm4 ?_ ?_
  · refine (Int.cast_le (R := ℚ)).mp ?_
    push_cast
    linarith [hb.1]
  · refine (Int.cast_lt (R := ℚ)).mp ?_
    push_cast
    linarith [hb.2]

theorem floor_near (x : ℕ) {d : ℕ} (hd : 0 < d) (q : ℚ) : Near q 1 (x / d : ℕ) ((x : ℚ) / d) := by
  have hd' : (0 : ℚ) < d := by exact_mod_cast hd
  have lo : ((x / d : ℕ) : ℚ) ≤ x / d := by
    rw [le_div_iff₀ hd']
    exact_mod_cast Nat.div_mul_le_self x d
  have hi : (x : ℚ) / d < (x / d : ℕ) + 1 := by
    rw [div_lt_iff₀ hd', mul_comm]
    exact_mod_cast Nat.lt_mul_div_succ x hd
  exact near_of_abs (abs_le.mpr ⟨by linarith, by linarith⟩)

/-- `Q / 8 + 1` is an eighth of `Q` up to one unit, whatever it is scaled by. -/
theorem succ_eighth_near {Q : ℕ} (hQ : 0 < Q) (q : ℕ) : |((Q / 8 + 1 : ℕ) : ℚ) * q / Q - q / 8| ≤ q / Q := by
  have hpos : (0 : ℚ) < Q := by exact_mod_cast hQ
  have h1 : ((Q / 8 : ℕ) : ℚ) * 8 ≤ Q := by exact_mod_cast Nat.div_mul_le_self Q 8
  have h2 : (Q : ℚ) < ((Q / 8 : ℕ) + 1) * 8 := by exact_mod_cast (show Q < (Q / 8 + 1) * 8 by omega)
  have hq : (0 : ℚ) ≤ q / Q := by positivity
  rw [Nat.cast_add, Nat.cast_one]
  generalize ((Q / 8 : ℕ) : ℚ) = x at h1 h2
  have same : (x + 1) * q / Q - q / 8 = (x + 1 - Q / 8) * (q / Q) := by field_simp
  rw [same, abs_of_nonneg (mul_nonneg (by linarith) hq)]
  calc (x + 1 - Q / 8) * (q / Q : ℚ) ≤ 1 * (q / Q) := mul_le_mul_of_nonneg_right (by linarith) hq
    _ = q / Q := one_mul _

end MultiKeyFHE
