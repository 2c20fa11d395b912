import MultiKeyFHE.Accumulator.Binary
import MultiKeyFHE.Accumulator.Ternary

/-!
# Noise of a hybrid product

What a product leaves beside the message when the mask of the key is a constant polynomial, which has the same value
at every slot. The classes `UniEncAccumulatorXZW` and `UniEncAccumulatorXZW_B` carry the same three functions.
-/

namespace MultiKeyFHE
open Negacyclic NegPoly NativePoly UniEncCryptoParams UniEncAccumulator

namespace UniEncAccumulatorXZW
variable {w : NativeSize} (p : UniEncParams w)

abbrev keyGenXZW := UniEncAccumulator.keyGenXZW p
abbrev kdmKeyGenXZW := UniEncAccumulator.kdmKeyGenXZW p
abbrev hbProd := UniEncAccumulator.hbProd p

end UniEncAccumulatorXZW

namespace UniEncAccumulatorXZW_B
variable {w : NativeSize} (p : UniEncParams w)

abbrev keyGenXZW := UniEncAccumulator.keyGenXZW p
abbrev kdmKeyGenXZW := UniEncAccumulator.kdmKeyGenXZW p
abbrev hbProd := UniEncAccumulator.hbProd p

end UniEncAccumulatorXZW_B

namespace UniEncAccumulator
variable {w : NativeSize} {p : UniEncParams w}

/-! ### Slots -/

theorem odd_power (k : ℕ) : (p.rootOfUnity ^ (2 * k + 1)) ^ p.N = -1 := by
  rw [← pow_mul, mul_comm, pow_mul, p.root_pow, Odd.neg_one_pow ⟨k, rfl⟩]

theorem slot_add (a b : Poly p) (t : ℕ) : slot p.rootOfUnity (a + b) t = slot p.rootOfUnity a t + slot p.rootOfUnity b t :=
  evalAt_add _ a b

theorem slot_mul (a b : Poly p) (t : ℕ) : slot p.rootOfUnity (a * b) t = slot p.rootOfUnity a t * slot p.rootOfUnity b t :=
  evalAt_mul (odd_power _) a b

theorem slot_sum {ι : Type*} (s : Finset ι) (f : ι → Poly p) (t : ℕ) :
    slot p.rootOfUnity (∑ i ∈ s, f i) t = ∑ i ∈ s, slot p.rootOfUnity (f i) t := by
  classical
  induction s using Finset.induction_on with
  | empty => exact evalAt_zero _
  | insert x s absent ih => rw [Finset.sum_insert absent, Finset.sum_insert absent, slot_add, ih]

/-- The products are taken slot by slot, the digits in the coefficient format before them. -/
theorem slot_hbProd (key : EvalKey p) (j : Fin p.k) (Pkey : Fin p.k → Digit p → Poly p) (acc : Acc p) (u : Fin p.k) (t : ℕ) :
    slot p.rootOfUnity (hbProd p key j Pkey acc u) t =
      (∑ i, slot p.rootOfUnity (dct p (acc u) i) t * slot p.rootOfUnity (key.d i) t) +
        if j = u then ∑ i, slot p.rootOfUnity (dct p (sumV p Pkey acc) i) t * slot p.rootOfUnity (key.f i) t else 0 := by
  rw [hbProd]
  split
  · rw [slot_add, slot_sum, slot_sum]
    simp only [slot_mul]
  · rw [slot_sum, add_zero]
    simp only [slot_mul]

/-! ### Phases with a constant mask -/

/-- What a product adds to the multiple of the phase: the errors of the key and of the public keys, each through
its digits, and the mask times the rounding of `v`. -/
def productNoise (draws : KeyDraws p) (e : Fin p.k → Digit p → Poly p) (sk acc : Acc p) (v : Poly p) : Poly p :=
  (∑ u, ∑ i, dct p (acc u) i * draws.e0 i * sk u) + (∑ i, dct p v i * draws.e1 i) +
    draws.r * (∑ u, ∑ i, dct p (acc u) i * e u i) + draws.r * (recompose p v - v)

/-- A key-dependent encryption hides the message over the secret. -/
theorem kdmKeyGenXZW_d (draws : KeyDraws p) (invsk : Poly p) (CRS : Digit p → Poly p) {m : ℤ} (bit : m = 0 ∨ m = 1)
    (i : Digit p) : (kdmKeyGenXZW p draws invsk CRS m).d i =
      draws.e0 i + (m : Poly p) * invsk * gd p i + const (slot p.rootOfUnity draws.r i.val) * CRS i := by
  simp only [kdmKeyGenXZW, times_eq]
  rcases bit with rfl | rfl
  · simp
  · simp
    ring

/-- A constant mask has the same value at every slot, so row `i` uses the mask itself. -/
theorem phase_hbProd_of_constant (draws : KeyDraws p) (constant : ∀ i, i ≠ 0 → draws.r.coeff i = 0)
    (e : Fin p.k → Digit p → Poly p) {sk invsk : Acc p} (inverse : ∀ u, sk u * invsk u = 1) (CRS : Digit p → Poly p)
    {key : EvalKey p} {M : Poly p} (j : Fin p.k)
    (hd : ∀ i, key.d i = draws.e0 i + M * gd p i + const (slot p.rootOfUnity draws.r i.val) * CRS i)
    (hf : ∀ i, key.f i = (draws.e1 i + gd p i * draws.r) * invsk j) (acc : Acc p) :
    phase p sk (hbProd p key j (pkey p e CRS sk) acc) =
      M * ∑ u, recompose p (acc u) * sk u + productNoise draws e sk acc (sumV p (pkey p e CRS sk) acc) := by
  have mask : ∀ t, const (slot p.rootOfUnity draws.r t) = draws.r := fun t => by
    rw [eq_const_of_coeff constant, slot_const]
  rw [phase_hbProd_masked draws e inverse CRS j hd hf acc, productNoise]
  simp only [mask, sub_self, zero_mul, Finset.sum_const_zero, add_zero, mul_add, Finset.sum_add_distrib, Finset.mul_sum,
    mul_left_comm _ draws.r, mul_assoc]
  ring

/-- With a constant mask both classes return the intended product, for plain and for key-dependent keys. -/
theorem product_noise (p : UniEncParams w) (draws : KeyDraws p) (constant : ∀ i, i ≠ 0 → draws.r.coeff i = 0)
    (e : Fin p.k → Digit p → Poly p) (sk invsk : Acc p) (inverse : ∀ u, sk u * invsk u = 1) (CRS : Digit p → Poly p)
    (m : ℤ) (bit : m = 0 ∨ m = 1) (j : Fin p.k) (acc : Acc p) :
    let Pkey := pkey p e CRS sk
    let noise := productNoise draws e sk acc (sumV p Pkey acc)
    (phase p sk (UniEncAccumulatorXZW.hbProd p (UniEncAccumulatorXZW.keyGenXZW p draws (invsk j) CRS m) j Pkey acc) =
        (m : Poly p) * ∑ u, recompose p (acc u) * sk u + noise ∧
      phase p sk (UniEncAccumulatorXZW.hbProd p (UniEncAccumulatorXZW.kdmKeyGenXZW p draws (invsk j) CRS m) j Pkey acc) =
        (m : Poly p) * invsk j * ∑ u, recompose p (acc u) * sk u + noise) ∧
    phase p sk (UniEncAccumulatorXZW_B.hbProd p (UniEncAccumulatorXZW_B.keyGenXZW p draws (invsk j) CRS m) j Pkey acc) =
        (m : Poly p) * ∑ u, recompose p (acc u) * sk u + noise ∧
      phase p sk
          (UniEncAccumulatorXZW_B.hbProd p (UniEncAccumulatorXZW_B.kdmKeyGenXZW p draws (invsk j) CRS m) j Pkey acc) =
        (m : Poly p) * invsk j * ∑ u, recompose p (acc u) * sk u + noise := by
  intro Pkey noise
  have plain : phase p sk (hbProd p (keyGenXZW p draws (invsk j) CRS m) j Pkey acc) =
      (m : Poly p) * ∑ u, recompose p (acc u) * sk u + noise :=
    phase_hbProd_of_constant draws constant e inverse CRS j (fun i => by rw [keyGenXZW_d, messageOf_bit bit])
      (fun _ => rfl) acc
  have keyDependent : phase p sk (hbProd p (kdmKeyGenXZW p draws (invsk j) CRS m) j Pkey acc) =
      (m : Poly p) * invsk j * ∑ u, recompose p (acc u) * sk u + noise :=
    phase_hbProd_of_constant draws constant e inverse CRS j (kdmKeyGenXZW_d draws (invsk j) CRS bit) (fun _ => rfl) acc
  exact ⟨⟨plain, keyDependent⟩, plain, keyDependent⟩

/-- The mask one, every error one and the accumulator `(2, 0)` under secrets one. -/
theorem small_product_noise :
    let draws : KeyDraws smallParams := ⟨1, fun _ => 1, fun _ => 1⟩
    let acc : Acc smallParams := fun u => if u = 0 then const 2 else 0
    let Pkey := pkey smallParams (fun _ _ => 1) (fun _ => 1) fun _ => 1
    phase smallParams (fun _ => 1)
        (UniEncAccumulatorXZW.hbProd smallParams
          (UniEncAccumulatorXZW.keyGenXZW smallParams draws 1 (fun _ => 1) 1) 0 Pkey acc) =
      ((1 : ℤ) : Poly smallParams) * ∑ u, recompose smallParams (acc u) * 1 +
        productNoise draws (fun _ _ => 1) (fun _ => 1) acc (sumV smallParams Pkey acc) :=
  (product_noise smallParams ⟨1, fun _ => 1, fun _ => 1⟩
    (fun i other => by rw [coeff_one, if_neg fun zero : i.val = 0 => other (Fin.ext zero)]) (fun _ _ => 1) (fun _ => 1) (fun _ => 1)
    (fun _ => one_mul 1) (fun _ => 1) 1 (.inr rfl) 0 _).1.1

end UniEncAccumulator
end MultiKeyFHE
