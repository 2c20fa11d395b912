import MultiKeyFHE.Accumulator.ExternalProduct
import MultiKeyFHE.Library.Norm
import MultiKeyFHE.Native.SignedDigits

/-!
# External products with noisy keys

What the four operations on an accumulator do to its phase when the keys were drawn with errors: the message acts on the
phase, and the digits that are ignored and the errors move it by a bounded polynomial.
-/

namespace MultiKeyFHE
open Negacyclic NegPoly NativePoly NativeInteger SignedDigits Draws Sampler

namespace RingGSW
variable {p : RingGSWCryptoParams} {g : ℕ}

/-! ### What the digits lose -/

/-- The gadget in base `2 ^ g` has a kept digit, reaches the modulus, and its powers are those of the base. -/
structure Covers (p : RingGSWCryptoParams) (g : ℕ) : Prop where
  base : p.baseG = 2 ^ g
  pos : 1 ≤ g
  narrow : g < 32
  many : 2 ≤ p.digitsG
  powers : ∀ i < p.digitsG, gpow p i = ((2 ^ g : ℕ) : ZMod p.Q) ^ i
  reach : p.Q ≤ (2 ^ g) ^ p.digitsG
  large : 2 < p.Q

/-- Half the base for the first digit, and for a modulus above what the digits write the carry. -/
def lossBound (p : RingGSWCryptoParams) (g : ℕ) : ℕ :=
  2 ^ (g - 1) + if 2 * largest g p.digitsG + 1 < p.Q then (2 ^ g) ^ p.digitsG - p.Q else 0

namespace Covers
variable (covers : Covers p g)
include covers

theorem neZero : NeZero p.Q := ⟨by have := covers.large; omega⟩

theorem abs_loss_le {c : ℕ} (hc : c < p.Q) :
    (low g (center p.Q c) + ((2 ^ g) ^ p.digitsG - p.Q) * carry g p.digitsG (center p.Q c)).natAbs ≤ lossBound p g := by
  obtain ⟨lower, upper⟩ := center_range p.Q hc
  obtain ⟨low_lower, low_upper⟩ := low_range covers.pos (center p.Q c)
  have digits := covers.many
  have reach : (p.Q : ℤ) ≤ (2 ^ g) ^ p.digitsG := by exact_mod_cast covers.reach
  have even : (2 : ℤ) ∣ (2 ^ g) ^ p.digitsG :=
    dvd_pow (dvd_pow_self 2 (by have := covers.pos; omega)) (by omega)
  have half : (((2 ^ (g - 1) : ℕ) : ℤ)) = 2 ^ (g - 1) := by push_cast; rfl
  have gap : (((2 ^ g) ^ p.digitsG - p.Q : ℕ) : ℤ) = (2 ^ g) ^ p.digitsG - p.Q := by
    rw [Nat.cast_sub covers.reach]
    push_cast
    rfl
  rw [carry_eq covers.pos (by omega) (by omega) (by omega), lossBound]
  split
  · rw [if_pos (by omega), mul_one]
    omega
  · rw [mul_zero, add_zero]
    omega

theorem digit_small (c : Poly p) (i : ℕ) : Bounded (2 ^ (g - 1) : ℕ) (signedDigitDecompose (ctz p.baseG) c i) := by
  have := covers.neZero
  rw [covers.base, ctz_two_pow covers.narrow]
  refine bounded_of_intCast fun k => ⟨_, (coeff_signedDigitDecompose g i c k).symm, Nat.cast_le.mpr ?_⟩
  obtain ⟨lower, upper⟩ := digit_range covers.pos i (rest g (center p.Q (c.coeff k).val))
  have half : (((2 ^ (g - 1) : ℕ) : ℤ)) = 2 ^ (g - 1) := by push_cast; rfl
  omega

variable [NeZero p.N]

theorem recompose_near (c : Poly p) : Bounded (lossBound p g) (c - recompose c) := by
  have := covers.neZero
  refine bounded_of_intCast fun k => ⟨_, ?_, Nat.cast_le.mpr (covers.abs_loss_le (ZMod.val_lt (c.coeff k)))⟩
  have whole := sum_signedDigits g (p.digitsG - 1) c k
  rw [Nat.sub_add_cancel (by have := covers.many; omega)] at whole
  have digits : (recompose c).coeff k =
      ∑ i ∈ Finset.range (p.digitsG - 1), ((2 ^ g : ℕ) : ZMod p.Q) ^ (i + 1) * (signedDigitDecompose g c i).coeff k := by
    rw [recompose, coeff_sum]
    refine Finset.sum_congr rfl fun i member => ?_
    have inside := Finset.mem_range.mp member
    rw [coeff_const_mul, covers.powers _ (by omega), covers.base, ctz_two_pow covers.narrow]
  rw [coeff_sub, digits, whole, sub_sub_cancel]
  push_cast
  rw [ZMod.natCast_self]
  ring

end Covers

/-! ### Keys with errors -/

section Errors
variable [NeZero p.N]

theorem encryptRow_errors {marker : Marker} (inside : marker.Within p.N) (z : Poly p) (e : ℕ → Poly p) (tempA : UniformDraw p)
    (i : ℕ) : (encryptRow p marker z e tempA i).second - (encryptRow p marker z e tempA i).first * z =
      (encryptRow p marker z (fun _ => 0) tempA i).second - (encryptRow p marker z (fun _ => 0) tempA i).first * z + e i := by
  simp only [encryptRow, Marker.apply_eq inside]
  split <;> ring

/-- The errors of a key enter through the digits. -/
theorem phase_matrixProduct_errors {marker : Marker} (inside : marker.Within p.N) (z : Poly p) (e : ℕ → Poly p)
    (masks : ℕ → UniformDraw p) (acc : Acc p) :
    phase z (matrixProduct acc (value (encrypt p marker z e) masks)) =
      marker.poly * (recompose acc.b - recompose acc.a * z) + ∑ l, decompose acc l * e l := by
  rw [← phase_matrixProduct inside z masks acc]
  have rows : ∀ e : ℕ → Poly p, phase z (matrixProduct acc (value (encrypt p marker z e) masks)) =
      ∑ l, decompose acc l * ((encryptRow p marker z e (masks 0) l).second - (encryptRow p marker z e (masks 0) l).first * z) := by
    intro e
    change ∑ l, decompose acc l * (encryptRow p marker z e (masks 0) l).second -
      (∑ l, decompose acc l * (encryptRow p marker z e (masks 0) l).first) * z = _
    rw [Finset.sum_mul, ← Finset.sum_sub_distrib]
    exact Finset.sum_congr rfl fun l _ => by ring
  rw [rows, rows, ← Finset.sum_add_distrib]
  refine Finset.sum_congr rfl fun l _ => ?_
  rw [encryptRow_errors inside]
  ring

/-- The products with what a key holds do not grow. -/
theorem Marker.poly_keeps {marker : Marker} {δ : ℝ} {a : Poly p} [NeZero p.Q] (ha : Bounded δ a) : Bounded δ (marker.poly * a) := by
  cases marker with
  | none =>
    rw [Marker.poly, zero_mul]
    exact bounded_zero.mono ha.nonneg
  | add index =>
    rw [Marker.poly, ← xpow_natCast]
    exact ha.xpow_mul index
  | sub index =>
    rw [Marker.poly, ← xpow_natCast, neg_mul]
    exact (ha.xpow_mul index).neg

/-- The product with a key multiplies every phase by `m`, up to `δ`. -/
def MultipliesNear (product : Product p) (z : Poly p) (δ : ℝ) (key : EvalKey p) (m : Poly p) : Prop :=
  ∀ acc, Bounded δ (phase z (product acc key) - m * phase z acc)

variable (p g) in
/-- The digits that are ignored and the errors of the rows, for secrets up to `S` and errors up to `E`. -/
def productBound (S E : ℝ) : ℝ := lossBound p g * (1 + p.N * S) + digitsG2 p * (p.N * ((2 ^ (g - 1) : ℕ) * E))

variable (p g) in
/-- An automorphism decomposes one component. -/
def automorphismBound (S E : ℝ) : ℝ := lossBound p g * (p.N * S) + (p.digitsG - 1 : ℕ) * (p.N * ((2 ^ (g - 1) : ℕ) * E))

variable (covers : Covers p g) {z : Poly p} {S E : ℝ} (secret : Bounded S z)

include secret in
theorem productBound_nonneg (nonneg : 0 ≤ E) : 0 ≤ productBound p g S E := by
  have := secret.nonneg
  unfold productBound
  positivity

include secret in
theorem automorphismBound_nonneg (nonneg : 0 ≤ E) : 0 ≤ automorphismBound p g S E := by
  have := secret.nonneg
  unfold automorphismBound
  positivity

include covers secret

theorem multipliesNear_encrypt {marker : Marker} (inside : marker.Within p.N) {e : ℕ → Poly p} (small : ∀ i, Bounded E (e i))
    (masks : ℕ → UniformDraw p) :
    MultipliesNear matrixProduct z (productBound p g S E) (value (encrypt p marker z e) masks) marker.poly := by
  intro acc
  have := covers.neZero
  have ignored : Bounded (lossBound p g * (1 + p.N * S)) ((acc.b - recompose acc.b) - (acc.a - recompose acc.a) * z) := by
    convert (covers.recompose_near acc.b).sub ((covers.recompose_near acc.a).mul secret) using 1
    ring
  have errors : Bounded (digitsG2 p * (p.N * ((2 ^ (g - 1) : ℕ) * E))) (∑ l : Fin (digitsG2 p), decompose acc l * e l) := by
    refine Bounded.sum_fin fun l => ?_
    rw [decompose_eq]
    exact (covers.digit_small _ _).mul (small l)
  have split : phase z (matrixProduct acc (value (encrypt p marker z e) masks)) - marker.poly * phase z acc =
      -(marker.poly * ((acc.b - recompose acc.b) - (acc.a - recompose acc.a) * z)) + ∑ l, decompose acc l * e l := by
    rw [phase_matrixProduct_errors inside]
    change _ - marker.poly * (acc.b - acc.a * z) = _
    ring
  rw [split]
  exact (Marker.poly_keeps ignored).neg.add errors

theorem automorphism_near (ok : Dyadic p) {e : ℕ → Poly p} (small : ∀ i, Bounded E (e i)) {t : ℕ} (odd : t % 2 = 1)
    (draws : ℕ → Poly p) (acc : Acc p) :
    ∃ next, automorphism t (value (keyGenAuto p z e t) draws) acc = .ok next ∧
      Bounded (automorphismBound p g S E) (phase z next - substPow t (phase z acc)) := by
  have := covers.neZero
  have word : t % 2 ^ 32 ≡ t [MOD 2 * p.N] := by
    obtain ⟨i, hi, same⟩ := ok.eq_two_pow (dvd_refl (2 * p.N))
    exact Nat.mod_mod_of_dvd t (same ▸ pow_dvd_pow 2 hi)
  have coprime : t.Coprime p.N := by
    obtain ⟨k, hk⟩ := ok.power
    rw [hk]
    exact (Nat.coprime_two_right.mpr (Nat.odd_iff.mpr odd)).pow_right k
  let dcta : Fin (p.digitsG - 1) → Poly p := fun d => signedDigitDecompose (ctz p.baseG) (substPow t acc.a) d
  let ak : AutoKey p := value (keyGenAuto p z e t) draws
  have key : ∀ d, ak d = ⟨draws d, e d - const (gpow p (d + 1)) * substPow t z + draws d * z⟩ := keyGenAuto_value z e t draws
  have run : automorphism t ak acc = .ok ⟨∑ d, dcta d * (ak d).first, substPow t acc.b + ∑ d, dcta d * (ak d).second⟩ := by
    rw [automorphism, if_neg (by omega), substPow_congr word, substPow_congr word]
    refine congrArg Except.ok ?_
    rw [addProductsInPlace_eq _ _ (List.nodup_finRange _) fun _ _ => rfl, addProducts_all, addProducts_all, zero_add]
  refine ⟨_, run, ?_⟩
  have errors : Bounded ((p.digitsG - 1 : ℕ) * (p.N * ((2 ^ (g - 1) : ℕ) * E))) (∑ d, dcta d * e d) :=
    Bounded.sum_fin fun d => (covers.digit_small (substPow t acc.a) d).mul (small d)
  have split : substPow t acc.b + ∑ d, dcta d * (ak d).second - (∑ d, dcta d * (ak d).first) * z -
      substPow t (acc.b - acc.a * z) =
        (substPow t acc.a - recompose (substPow t acc.a)) * substPow t z + ∑ d, dcta d * e d := by
    have rows : ∀ d : Fin (p.digitsG - 1), dcta d * (ak d).second - dcta d * (ak d).first * z =
        dcta d * e d - const (gpow p (d + 1)) * dcta d * substPow t z := by
      intro d
      rw [key d]
      ring
    have products : ∑ d, dcta d * (ak d).second - (∑ d, dcta d * (ak d).first) * z =
        ∑ d, dcta d * e d - recompose (substPow t acc.a) * substPow t z := by
      rw [Finset.sum_mul, ← Finset.sum_sub_distrib, Finset.sum_congr rfl fun d _ => rows d, Finset.sum_sub_distrib,
        ← Finset.sum_mul, recompose, Finset.sum_range]
    rw [substPow_sub, substPow_mul odd]
    linear_combination products
  change Bounded _ (substPow t acc.b + ∑ d, dcta d * (ak d).second - (∑ d, dcta d * (ak d).first) * z - substPow t (acc.b - acc.a * z))
  rw [split]
  convert ((covers.recompose_near (substPow t acc.a)).mul (secret.substPow coprime)).add errors using 1
  rw [automorphismBound]
  ring

theorem multipliesNear_DM (ok : Dyadic p) {e : ℕ → Poly p} (small : ∀ i, Bounded E (e i)) (m : ℤ) (masks : ℕ → UniformDraw p) :
    MultipliesNear matrixProduct z (productBound p g S E) (value (keyGenDM p z e m) masks) (xpow ((2 * p.N / p.q : ℕ) * m)) := by
  have near := multipliesNear_encrypt covers secret (ofExponent_within (ok.exponentDM_lt m)) small masks
  rwa [Marker.poly_ofExponent, ← xpow_natCast, xpow_congr (ok.exponentDM_modEq m)] at near

theorem multipliesNear_LMKCDEY (ok : Dyadic p) {e : ℕ → Poly p} (small : ∀ i, Bounded E (e i)) (m : ℤ)
    (masks : ℕ → UniformDraw p) :
    MultipliesNear matrixProduct z (productBound p g S E) (value (keyGenLMKCDEY p z e m) masks)
      (xpow ((2 * p.N / p.q : ℕ) * m)) := by
  have near := multipliesNear_encrypt covers secret (ofExponent_within (ok.exponentLMKCDEY_lt m)) small masks
  rwa [Marker.poly_ofExponent, ← xpow_natCast, xpow_congr (ok.exponentLMKCDEY_modEq m)] at near

theorem multipliesNear_CGGI {e : ℕ → Poly p} (small : ∀ i, Bounded E (e i)) {m : ℤ} (bit : m = 0 ∨ m = 1)
    (masks : ℕ → UniformDraw p) :
    MultipliesNear matrixProduct z (productBound p g S E) (value (keyGenCGGI p z e m) masks) m := by
  have pos := Nat.pos_of_ne_zero (NeZero.ne p.N)
  rcases bit with rfl | rfl
  · have near := multipliesNear_encrypt covers secret (show Marker.none.Within p.N from trivial) small masks
    simpa [keyGenCGGI, Marker.poly] using near
  · have near := multipliesNear_encrypt covers secret (show (Marker.add 0).Within p.N from pos) small masks
    simpa [keyGenCGGI, Marker.poly, mono_zero] using near

end Errors

section Update
variable [NeZero p.N] {w : NativeSize} {product : Product p} {z : Poly p} {δ1 δ2 : ℝ} {ek1 ek2 : EvalKey p} {m1 m2 : Poly p}

/-- An update rotates both products, once forth and once back. -/
theorem addToAccCGGI_near (ok : Dyadic p) (large : 2 < p.Q) (fits : ¬ modulusTooLarge w p.Q)
    (near1 : MultipliesNear product z δ1 ek1 m1) (near2 : MultipliesNear product z δ2 ek2 m2) {t : ℕ} (ht : t ≤ 2 * p.N)
    (acc : Acc p) :
    ∃ next, addToAccCGGI w product ek1 ek2 t acc = .ok next ∧
      Bounded (2 * (δ1 + δ2)) (phase z next - factor m1 m2 t * phase z acc) := by
  have : NeZero p.Q := ⟨by omega⟩
  refine ⟨_, addToAccCGGI_eq large fits ok ht ek1 ek2 acc, ?_⟩
  have twice : ∀ {δ : ℝ} {a : Poly p} (y : ℤ), Bounded δ a → Bounded (2 * δ) ((xpow y - 1) * a) := by
    intro δ a y ha
    have difference := (ha.xpow_mul y).sub ha
    rwa [← two_mul, ← sub_one_mul] at difference
  have sum := (twice t (near1 acc)).add (twice (-t) (near2 acc))
  rw [← mul_add] at sum
  convert sum using 1
  simp only [RLWECiphertext.phase, factor]
  ring

end Update

section Operations
variable [NeZero p.N] {w : NativeSize} {S E : ℝ}

/-- What the four operations do to a phase, with keys that were drawn with the errors `e`. -/
structure ActsNearPhase (w : NativeSize) (p : RingGSWCryptoParams) [NeZero p.N] (g : ℕ) (S E : ℝ) (z : Poly p) (e : ℕ → Poly p) :
    Prop where
  dm : ∀ (m : ℤ) (masks : ℕ → UniformDraw p) (acc : Acc p),
    ∃ next, addToAccDM (value (keyGenDM p z e m) masks) acc = .ok next ∧
      Bounded (productBound p g S E) (phase z next - xpow ((2 * p.N / p.q : ℕ) * m) * phase z acc)
  lmkcdey : ∀ (m : ℤ) (masks : ℕ → UniformDraw p) (acc : Acc p),
    ∃ next, addToAccLMKCDEY (value (keyGenLMKCDEY p z e m) masks) acc = .ok next ∧
      Bounded (productBound p g S E) (phase z next - xpow ((2 * p.N / p.q : ℕ) * m) * phase z acc)
  cggi : ∀ m1 m2 : ℤ, m1 = 0 ∨ m1 = 1 → m2 = 0 ∨ m2 = 1 → ∀ (masks1 masks2 : ℕ → UniformDraw p) (t : ℕ), t ≤ 2 * p.N →
    ∀ acc : Acc p, ∃ next, addToAccDigitsCGGI w (value (keyGenCGGI p z e m1) masks1) (value (keyGenCGGI p z e m2) masks2) t acc =
      .ok next ∧ Bounded (2 * (productBound p g S E + productBound p g S E))
        (phase z next - (1 + (m1 : Poly p) * (xpow t - 1) + (m2 : Poly p) * (xpow (-t) - 1)) * phase z acc)
  automorphism : ∀ t : ℕ, t % 2 = 1 → ∀ (draws : ℕ → Poly p) (acc : Acc p),
    ∃ next, automorphism t (value (keyGenAuto p z e t) draws) acc = .ok next ∧
      Bounded (automorphismBound p g S E) (phase z next - substPow t (phase z acc))

/-- The secret and the errors of the keys are bounded, and so is what an operation adds to the phase that it should leave. -/
theorem actsNearPhase (ok : Dyadic p) (fits : ¬ modulusTooLarge w p.Q) (covers : Covers p g) {z : Poly p} (secret : Bounded S z)
    {e : ℕ → Poly p} (small : ∀ i, Bounded E (e i)) : ActsNearPhase w p g S E z e where
  dm m masks acc := by
    refine ⟨_, (externalProduct_eq _ acc).trans (if_pos covers.many), ?_⟩
    exact multipliesNear_DM covers secret ok small m masks acc
  lmkcdey m masks acc := by
    refine ⟨_, (externalProduct_eq _ acc).trans (if_pos covers.many), ?_⟩
    exact multipliesNear_LMKCDEY covers secret ok small m masks acc
  cggi m1 m2 bit1 bit2 masks1 masks2 t ht acc := by
    rw [addToAccDigitsCGGI_eq w covers.many]
    exact addToAccCGGI_near ok covers.large fits (multipliesNear_CGGI covers secret small bit1 masks1)
      (multipliesNear_CGGI covers secret small bit2 masks2) ht acc
  automorphism t odd draws acc := automorphism_near covers secret ok small odd draws acc

end Operations

/-! ### A ring of dimension 64 -/

/-- Four digits in base `2 ^ 7`, as for the modulus of 27 bits in the standard parameter sets. -/
def smallRing : RingGSWCryptoParams :=
  { RingGSWCryptoParams.default with
    N := 64, Q := 134215681, q := 128, baseG := 128, digitsG := 4, Gpower := [1, 128, 16384, 2097152], baseR := 32,
    method := .GINX }

instance : NeZero smallRing.N := ⟨by decide⟩
instance : NeZero smallRing.Q := ⟨by decide⟩
instance : NeZero smallRing.q := ⟨by decide⟩

theorem smallRing_admissible : Admissible .w64 smallRing where
  power := ⟨6, rfl⟩
  narrow := by decide
  divides := by decide
  large := by decide
  fits := by decide
  baseR := by decide

theorem smallRing_covers : Covers smallRing 7 where
  base := rfl
  pos := by decide
  narrow := by decide
  many := by decide
  powers := by
    intro i hi
    have : i < 4 := hi
    interval_cases i <;> decide
  reach := by decide
  large := by decide

theorem smallRing_productBound : productBound smallRing 7 1 1 = 28736 := by
  have loss : lossBound smallRing 7 = 64 := by decide
  have digits : digitsG2 smallRing = 6 := rfl
  have size : smallRing.N = 64 := rfl
  rw [productBound, loss, digits, size]
  norm_num

/-- Secrets and errors that are monomials add less than a thousandth of the modulus. -/
theorem smallRing_actsNearPhase :
    ActsNearPhase .w64 smallRing 7 1 1 (xpow 1) (fun i => xpow i) ∧ productBound smallRing 7 1 1 < smallRing.Q / 1000 := by
  refine ⟨actsNearPhase smallRing_admissible.dyadic smallRing_admissible.fits smallRing_covers (bounded_xpow 1)
    fun i => bounded_xpow i, ?_⟩
  rw [smallRing_productBound, show smallRing.Q = 134215681 from rfl]
  norm_num

end RingGSW
end MultiKeyFHE
