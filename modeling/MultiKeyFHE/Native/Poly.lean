import MultiKeyFHE.Library.Rotation
import MultiKeyFHE.Library.BitReversal

/-!
# Native polynomials

`NativePoly` in coefficient format is an element of `Z_Q[X]/(X^N + 1)`. The evaluation format is seen
through `slot`, the value that `poly[i]` reads there. The signed digit decomposition works on one
coefficient at a time, so it is a scalar algorithm lifted to polynomials.
-/

namespace MultiKeyFHE
open Negacyclic NegPoly BitReversal

abbrev NativePoly (N Q : ℕ) := NegPoly N (ZMod Q)

namespace NativePoly
variable {N Q : ℕ}

def ofValues (values : List ℕ) : NativePoly N Q := ⟨fun i => (values.getD i.val 0 : ℕ)⟩

/-- `poly[i]` in `EVALUATION` format: the transform with root `psi` leaves its values in bit-reversed
order. -/
def slot (psi : ZMod Q) (a : NativePoly N Q) (i : ℕ) : ZMod Q :=
  evalAt (psi ^ (2 * reverseBits N.log2 i + 1)) a

def times (c : ZMod Q) (a : NativePoly N Q) : NativePoly N Q := ⟨fun i => c * a.coeff i⟩

theorem slot_const [NeZero N] (psi c : ZMod Q) (i : ℕ) : slot psi (const c : NativePoly N Q) i = c := by
  rw [slot, evalAt_const, Algebra.algebraMap_self, RingHom.id_apply]

theorem times_eq [NeZero N] (c : ZMod Q) (a : NativePoly N Q) : times c a = const c * a := by
  ext k
  rw [coeff_const_mul]
  rfl

theorem eq_const_of_coeff [NeZero N] {a : NativePoly N Q} (h : ∀ i, i ≠ 0 → a.coeff i = 0) :
    a = const (a.coeff 0) := by
  ext i
  rw [coeff_const]
  split
  · rename_i hi
    rw [show i = 0 from Fin.ext hi]
  · rename_i hi
    exact h i fun hc => hi (congrArg Fin.val hc)

end NativePoly

/-- `RLWECiphertextImpl`: the two elements of an accumulator, in coefficient format. -/
structure RLWECiphertext (N Q : ℕ) where
  a : NativePoly N Q
  b : NativePoly N Q

/-- What an accumulator holds under the secret `z`. -/
def RLWECiphertext.phase {N Q : ℕ} (z : NativePoly N Q) (acc : RLWECiphertext N Q) : NativePoly N Q := acc.b - acc.a * z

/-! ### Signed digits -/

def ctz (x : ℕ) : ℕ := (List.range 32).findIdx x.testBit

theorem ctz_two_pow {g : ℕ} (h : g < 32) : ctz (2 ^ g) = g := by
  rw [ctz, List.findIdx_eq (by simpa using h)]
  refine ⟨by simp [Nat.testBit_two_pow_self], ?_⟩
  intro j hj
  simp [hj.ne']

namespace SignedDigits

/-- `d0` before the first digit: the centered representative, with `Q / 2` itself negative. -/
def center (Q t : ℕ) : ℤ := if t < Q / 2 then t else t - Q

/-- `(d << (MaxBits - gBits)) >> (MaxBits - gBits)`: the low bits of `d`, sign-extended. -/
def low (gBits : ℕ) (d : ℤ) : ℤ := d.bmod (2 ^ gBits)

def rest (gBits : ℕ) (d : ℤ) : ℤ := (d - low gBits d) / 2 ^ gBits

/-- The digit that pass `i` of the loop splits off. -/
def digit (gBits : ℕ) : ℕ → ℤ → ℤ
  | 0, d => low gBits d
  | i + 1, d => digit gBits i (rest gBits d)

/-- A digit as it is stored: a negative one has the modulus added. -/
def store (Q : ℕ) (r : ℤ) : ℤ := if r < 0 then r + Q else r

theorem store_cast (Q : ℕ) (r : ℤ) : ((store Q r : ℤ) : ZMod Q) = r := by
  unfold store
  split <;> simp

theorem bmod_one {b : ℕ} (hb : 0 < b) : (1 : ℤ).bmod (2 * b) = 1 ∨ (1 : ℤ).bmod (2 * b) = -1 := by
  rw [Int.bmod_def, Int.emod_eq_of_lt (by omega) (by push_cast; omega)]
  split
  · exact Or.inl rfl
  · right
    push_cast at *
    omega

theorem emod_of_shift {b : ℕ} {d r : ℤ} (h : d = r - 2 * b) (hr : 0 ≤ r) (hlt : r < 2 * b) :
    d % ((2 * b : ℕ) : ℤ) = r := by
  rw [h, show r - 2 * (b : ℤ) = r + ((2 * b : ℕ) : ℤ) * (-1) by push_cast; ring,
    Int.add_mul_emod_self_left, Int.emod_eq_of_lt hr (by push_cast; omega)]

theorem bmod_neg_one {b : ℕ} (hb : 0 < b) : (-1 : ℤ).bmod (2 * b) = -1 := by
  rw [Int.bmod_def, emod_of_shift (r := 2 * b - 1) (by ring) (by omega) (by omega),
    if_neg (by push_cast; omega)]
  push_cast
  ring

theorem digit_half {g Q : ℕ} (hg : 1 ≤ g) (hQ : 2 ^ g < Q) :
    digit g 0 (rest g (center Q (2 ^ (g - 1)))) = 1 ∨ digit g 0 (rest g (center Q (2 ^ (g - 1)))) = -1 := by
  obtain ⟨h, rfl⟩ : ∃ h, g = h + 1 := ⟨g - 1, by omega⟩
  have hB : 2 ^ (h + 1) = 2 * 2 ^ h := by ring
  have hpos : 0 < 2 ^ h := by positivity
  have hpow : (2 : ℤ) ^ (h + 1) = 2 * ((2 ^ h : ℕ) : ℤ) := by push_cast; ring
  rw [hB] at hQ
  simp only [Nat.add_sub_cancel, digit, rest, low, center]
  rw [hB, hpow]
  generalize 2 ^ h = b at hpos hQ ⊢
  by_cases hb : b < Q / 2
  · have hlow : (b : ℤ).bmod (2 * b) = -b := by
      rw [Int.bmod_def, Int.emod_eq_of_lt (by omega) (by push_cast; omega), if_neg (by push_cast; omega)]
      push_cast
      ring
    rw [if_pos hb, hlow, show (b : ℤ) - -b = 2 * b by ring, Int.ediv_self (by omega)]
    exact bmod_one hpos
  · have hlow : (-b - 1 : ℤ).bmod (2 * b) = b - 1 := by
      rw [Int.bmod_def, emod_of_shift (r := b - 1) (by ring) (by omega) (by omega), if_pos (by push_cast; omega)]
    rw [if_neg hb, show (b : ℤ) - Q = -b - 1 by omega, hlow,
      show (-b - 1 - (b - 1) : ℤ) = 2 * b * (-1) by ring, Int.mul_ediv_cancel_left _ (by omega)]
    exact Or.inr (bmod_neg_one hpos)

end SignedDigits

namespace NativePoly
variable {N Q : ℕ}
open SignedDigits

/-- `SignedDigitDecompose`: output `i`, the first digit of every coefficient being ignored. -/
def signedDigitDecompose (gBits : ℕ) (input : NativePoly N Q) (i : ℕ) : NativePoly N Q :=
  ⟨fun k => ((store Q (digit gBits i (rest gBits (center Q (input.coeff k).val))) : ℤ) : ZMod Q)⟩

theorem coeff_signedDigitDecompose (g i : ℕ) (a : NativePoly N Q) (k : Fin N) :
    (signedDigitDecompose g a i).coeff k =
      ((digit g i (rest g (center Q (a.coeff k).val)) : ℤ) : ZMod Q) := store_cast Q _

theorem digit_zero (g i : ℕ) : digit g i 0 = 0 := by
  induction i with
  | zero => simp [digit, low]
  | succ i ih => rw [digit, rest, low, Int.zero_bmod, sub_zero, Int.zero_ediv, ih]

theorem digit_center_zero (hQ : 1 < Q) (g i : ℕ) : digit g i (rest g (center Q 0)) = 0 := by
  have hc : center Q 0 = 0 := by rw [center, if_pos (by omega), Nat.cast_zero]
  have hr : rest g 0 = 0 := by simp [rest, low]
  rw [hc, hr, digit_zero]

theorem signedDigitDecompose_zero (hQ : 1 < Q) (g i : ℕ) :
    signedDigitDecompose g (0 : NativePoly N Q) i = 0 := by
  ext k
  rw [coeff_signedDigitDecompose, coeff_zero, ZMod.val_zero, digit_center_zero hQ, Int.cast_zero]

theorem signedDigitDecompose_const (hQ : 1 < Q) (g i : ℕ) (c : ZMod Q) :
    signedDigitDecompose g (const c : NativePoly N Q) i =
      const ((digit g i (rest g (center Q c.val)) : ℤ) : ZMod Q) := by
  ext k
  rw [coeff_signedDigitDecompose, coeff_const, coeff_const]
  split
  · rfl
  · rw [ZMod.val_zero, digit_center_zero hQ, Int.cast_zero]

end NativePoly
end MultiKeyFHE
