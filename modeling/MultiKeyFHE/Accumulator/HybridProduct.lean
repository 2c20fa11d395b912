import MultiKeyFHE.Params.UniEnc

/-!
# Hybrid product

The evaluation keys of `mk-acc-xzw.cpp` and the product `HbProd` of an accumulator with such a key. Its
phase is computed with every random draw kept, from which the law for error-free draws follows.
-/

namespace MultiKeyFHE
open Negacyclic NegPoly NativePoly UniEncCryptoParams

namespace UniEncAccumulator
variable {w : NativeSize} (p : UniEncParams w)

abbrev Poly := NativePoly p.N p.Q

abbrev Digit := Fin (p.digitsG - 1)

abbrev Acc := Fin p.k → Poly p

@[ext]
structure EvalKey where
  d : Digit p → Poly p
  f : Digit p → Poly p

/-- What one key generation samples: `skrPoly` and the two error polynomials of each row. -/
structure KeyDraws where
  r : Poly p
  e0 : Digit p → Poly p
  e1 : Digit p → Poly p

def KeyDraws.errorFree (r : Poly p) : KeyDraws p := ⟨r, fun _ => 0, fun _ => 0⟩

/-- `gd`: the gadget power of row `i` as a constant polynomial. -/
def gd (i : Digit p) : Poly p := const (p.gpow (i.val + 1))

/-- `KeyGenXZW`. The factor of `CRS[i]` is `skrPoly[i]`, value `i` of the evaluation format. -/
def keyGenXZW (draws : KeyDraws p) (invsk : Poly p) (CRS : Digit p → Poly p) (m : ℤ) : EvalKey p where
  f i := (draws.e1 i + gd p i * draws.r) * invsk
  d i := (if m = 1 then draws.e0 i + gd p i else draws.e0 i) + times (slot p.rootOfUnity draws.r i.val) (CRS i)

/-- `KDMKeyGenXZW`: the message is multiplied by the inverse of the secret. -/
def kdmKeyGenXZW (draws : KeyDraws p) (invsk : Poly p) (CRS : Digit p → Poly p) (m : ℤ) : EvalKey p where
  f i := (draws.e1 i + gd p i * draws.r) * invsk
  d i := (if m ≠ 0 then draws.e0 i + gd p i * invsk else draws.e0 i) +
    times (slot p.rootOfUnity draws.r i.val) (CRS i)

def pkey (e : Fin p.k → Digit p → Poly p) (CRS : Digit p → Poly p) (sk : Acc p) :
    Fin p.k → Digit p → Poly p := fun u i => e u i - CRS i * sk u

def dct (a : Poly p) (i : Digit p) : Poly p := signedDigitDecompose (ctz p.baseG) a i.val

def sumV (Pkey : Fin p.k → Digit p → Poly p) (acc : Acc p) : Poly p :=
  ∑ u, ∑ i, dct p (acc u) i * Pkey u i

def hbProd (key : EvalKey p) (index : Fin p.k) (Pkey : Fin p.k → Digit p → Poly p) (acc : Acc p) : Acc p :=
  fun u =>
    let uj := ∑ i, dct p (acc u) i * key.d i
    if index = u then uj + ∑ i, dct p (sumV p Pkey acc) i * key.f i else uj

/-! ### Phases -/

def phase (sk acc : Acc p) : Poly p := ∑ u, acc u * sk u

def recompose (a : Poly p) : Poly p := ∑ i, gd p i * dct p a i

variable {p}

theorem phase_hbProd (key : EvalKey p) (j : Fin p.k) (Pkey : Fin p.k → Digit p → Poly p) (sk acc : Acc p) :
    phase p sk (hbProd p key j Pkey acc) =
      (∑ u, ∑ i, dct p (acc u) i * key.d i * sk u) + (∑ i, dct p (sumV p Pkey acc) i * key.f i) * sk j := by
  have hterm : ∀ u, hbProd p key j Pkey acc u * sk u = (∑ i, dct p (acc u) i * key.d i * sk u) +
      if j = u then (∑ i, dct p (sumV p Pkey acc) i * key.f i) * sk j else 0 := by
    intro u
    rw [hbProd, ← Finset.sum_mul]
    split
    · rename_i same
      subst same
      rw [add_mul]
    · rw [add_zero]
  rw [phase, Finset.sum_congr rfl fun u _ => hterm u, Finset.sum_add_distrib, Finset.sum_ite_eq,
    if_pos (Finset.mem_univ j)]

def messageOf (m : ℤ) : Poly p := if m = 1 then 1 else 0

theorem keyGenXZW_d (draws : KeyDraws p) (invsk : Poly p) (CRS : Digit p → Poly p) (m : ℤ) (i : Digit p) :
    (keyGenXZW p draws invsk CRS m).d i =
      draws.e0 i + messageOf m * gd p i + const (slot p.rootOfUnity draws.r i.val) * CRS i := by
  simp only [keyGenXZW, messageOf, times_eq]
  split <;> ring

theorem sumV_pkey (e : Fin p.k → Digit p → Poly p) (CRS : Digit p → Poly p) (sk acc : Acc p) :
    sumV p (pkey p e CRS sk) acc =
      (∑ u, ∑ i, dct p (acc u) i * e u i) - ∑ u, ∑ i, dct p (acc u) i * CRS i * sk u := by
  rw [sumV, ← Finset.sum_sub_distrib]
  refine Finset.sum_congr rfl fun u _ => ?_
  rw [← Finset.sum_sub_distrib]
  refine Finset.sum_congr rfl fun i _ => ?_
  rw [pkey]
  ring

section Masked
variable (draws : KeyDraws p) (e : Fin p.k → Digit p → Poly p) {sk invsk : Acc p} (inverse : ∀ u, sk u * invsk u = 1)
  (CRS : Digit p → Poly p)
include inverse

/-- The phase of a hybrid product with every draw, for a key that hides `M`: the multiple of the recomposed
accumulator, the rounding of `v`, the errors, and what the mask leaves because row `i` uses `slot r i` in place of
`r`. -/
theorem phase_hbProd_masked {key : EvalKey p} {M : Poly p} (j : Fin p.k)
    (hd : ∀ i, key.d i = draws.e0 i + M * gd p i + const (slot p.rootOfUnity draws.r i.val) * CRS i)
    (hf : ∀ i, key.f i = (draws.e1 i + gd p i * draws.r) * invsk j) (acc : Acc p) :
    let v := sumV p (pkey p e CRS sk) acc
    phase p sk (hbProd p key j (pkey p e CRS sk) acc) =
      M * ∑ u, recompose p (acc u) * sk u + draws.r * (recompose p v - v) +
      (∑ u, ∑ i, dct p (acc u) i * (draws.e0 i * sk u + draws.r * e u i) + ∑ i, dct p v i * draws.e1 i) +
      ∑ u, ∑ i, (const (slot p.rootOfUnity draws.r i.val) - draws.r) * (dct p (acc u) i * CRS i * sk u) := by
  intro v
  have second : (∑ i, dct p v i * key.f i) * sk j = (∑ i, dct p v i * draws.e1 i) + draws.r * recompose p v := by
    rw [recompose, Finset.mul_sum, ← Finset.sum_add_distrib, Finset.sum_mul]
    refine Finset.sum_congr rfl fun i _ => ?_
    rw [hf]
    linear_combination (dct p v i * (draws.e1 i + gd p i * draws.r)) * inverse j
  have first : (∑ u, ∑ i, dct p (acc u) i * key.d i * sk u) =
      M * (∑ u, recompose p (acc u) * sk u) + (∑ u, ∑ i, dct p (acc u) i * (draws.e0 i * sk u)) +
      ∑ u, ∑ i, const (slot p.rootOfUnity draws.r i.val) * (dct p (acc u) i * CRS i * sk u) := by
    rw [Finset.mul_sum, ← Finset.sum_add_distrib, ← Finset.sum_add_distrib]
    refine Finset.sum_congr rfl fun u _ => ?_
    rw [recompose, Finset.sum_mul, Finset.mul_sum, ← Finset.sum_add_distrib, ← Finset.sum_add_distrib]
    refine Finset.sum_congr rfl fun i _ => ?_
    rw [hd]
    ring
  have mask : (∑ u, ∑ i, (const (slot p.rootOfUnity draws.r i.val) - draws.r) *
      (dct p (acc u) i * CRS i * sk u)) =
      (∑ u, ∑ i, const (slot p.rootOfUnity draws.r i.val) * (dct p (acc u) i * CRS i * sk u)) -
      draws.r * ∑ u, ∑ i, dct p (acc u) i * CRS i * sk u := by
    simp only [sub_mul, Finset.sum_sub_distrib, Finset.mul_sum]
  have errors : (∑ u, ∑ i, dct p (acc u) i * (draws.e0 i * sk u + draws.r * e u i)) =
      (∑ u, ∑ i, dct p (acc u) i * (draws.e0 i * sk u)) +
      draws.r * ∑ u, ∑ i, dct p (acc u) i * e u i := by
    simp only [mul_add, Finset.sum_add_distrib, Finset.mul_sum]
    congr 1
    refine Finset.sum_congr rfl fun u _ => Finset.sum_congr rfl fun i _ => ?_
    ring
  have expanded : v = _ := sumV_pkey e CRS sk acc
  rw [phase_hbProd, second, first, mask, errors]
  linear_combination draws.r * expanded

theorem phase_hbProd_keyGenXZW (m : ℤ) (j : Fin p.k) (acc : Acc p) :
    let v := sumV p (pkey p e CRS sk) acc
    phase p sk (hbProd p (keyGenXZW p draws (invsk j) CRS m) j (pkey p e CRS sk) acc) =
      messageOf m * ∑ u, recompose p (acc u) * sk u + draws.r * (recompose p v - v) +
      (∑ u, ∑ i, dct p (acc u) i * (draws.e0 i * sk u + draws.r * e u i) + ∑ i, dct p v i * draws.e1 i) +
      ∑ u, ∑ i, (const (slot p.rootOfUnity draws.r i.val) - draws.r) * (dct p (acc u) i * CRS i * sk u) :=
  phase_hbProd_masked draws e inverse CRS j (keyGenXZW_d draws (invsk j) CRS m) (fun _ => rfl) acc

end Masked

/-! ### The law for error-free draws -/

/-- The product law for the mask `r`: with no errors drawn, the phase is the message times the
recomposed accumulator, up to `r` times the rounding of `v`. -/
def HbProdLaw (r : Poly p) : Prop :=
  ∀ sk invsk : Acc p, (∀ u, sk u * invsk u = 1) → ∀ (CRS : Digit p → Poly p) (m : ℤ), m = 0 ∨ m = 1 →
    ∀ (j : Fin p.k) (acc : Acc p),
      let Pkey := pkey p (fun _ _ => 0) CRS sk
      let v := sumV p Pkey acc
      phase p sk (hbProd p (keyGenXZW p (.errorFree p r) (invsk j) CRS m) j Pkey acc) =
        (m : Poly p) * ∑ u, recompose p (acc u) * sk u + r * (recompose p v - v)

theorem messageOf_bit {m : ℤ} (bit : m = 0 ∨ m = 1) : (messageOf m : Poly p) = (m : Poly p) := by
  rcases bit with rfl | rfl <;> simp [messageOf]

theorem hbProdLaw_iff_mask (r : Poly p) : HbProdLaw r ↔
    ∀ sk invsk : Acc p, (∀ u, sk u * invsk u = 1) → ∀ (CRS : Digit p → Poly p) (acc : Acc p),
      ∑ u, ∑ i, (const (slot p.rootOfUnity r i.val) - r) * (dct p (acc u) i * CRS i * sk u) = 0 := by
  have hphase := fun (sk invsk : Acc p) (inverse : ∀ u, sk u * invsk u = 1) CRS m j acc =>
    phase_hbProd_keyGenXZW (.errorFree p r) (fun _ _ => 0) inverse CRS m j acc
  simp only [KeyDraws.errorFree, zero_mul, mul_zero, add_zero, Finset.sum_const_zero] at hphase
  constructor
  · intro law sk invsk inverse CRS acc
    have h := law sk invsk inverse CRS 0 (Or.inl rfl) 0 acc
    dsimp only [KeyDraws.errorFree] at h
    rw [hphase sk invsk inverse CRS 0 0 acc, messageOf_bit (Or.inl rfl)] at h
    exact left_eq_add.mp h.symm
  · intro mask sk invsk inverse CRS m bit j acc
    dsimp only [KeyDraws.errorFree]
    rw [hphase sk invsk inverse CRS m j acc, mask sk invsk inverse CRS acc, messageOf_bit bit, add_zero]

/-- Half the gadget base, as a constant polynomial, has a unit as its first kept digit. -/
theorem dct_half : dct p (const ((2 ^ (ctz p.baseG - 1) : ℕ) : ZMod p.Q)) 0 = 1 ∨
    dct p (const ((2 ^ (ctz p.baseG - 1) : ℕ) : ZMod p.Q)) 0 = -1 := by
  have hlt : 2 ^ ctz p.baseG < p.Q := p.baseG_eq ▸ p.baseG_lt
  have hle : 2 ^ (ctz p.baseG - 1) ≤ 2 ^ ctz p.baseG := Nat.pow_le_pow_right (by omega) (by omega)
  have hQ : 1 < p.Q := by have := p.two_lt_Q; omega
  have hneg : (const (-1) : Poly p) = -1 := by
    ext i
    rw [coeff_const, coeff_neg, coeff_one]
    split <;> simp
  rw [dct, signedDigitDecompose_const hQ, ZMod.val_natCast, Nat.mod_eq_of_lt (by omega)]
  rcases SignedDigits.digit_half p.gBits_pos hlt with h | h
  · left
    rw [Fin.val_zero, h, Int.cast_one]
    rfl
  · right
    rw [Fin.val_zero, h, Int.cast_neg, Int.cast_one, hneg]

/-- The mask cancels for every secret, reference vector and accumulator exactly when `r` is a constant
polynomial, the only kind whose evaluation values are all `r` itself. -/
theorem hbProd_law_iff_constant (p : UniEncParams w) (r : Poly p) :
    HbProdLaw r ↔ ∀ i, i ≠ 0 → r.coeff i = 0 := by
  rw [hbProdLaw_iff_mask]
  constructor
  · intro mask
    -- One nonzero reference polynomial and one nonzero component single out row zero.
    let acc : Acc p := fun u => if u = 0 then const ((2 ^ (ctz p.baseG - 1) : ℕ) : ZMod p.Q) else 0
    have h := mask (fun _ => 1) (fun _ => 1) (fun _ => mul_one 1) (fun i => if i = 0 then 1 else 0) acc
    have hQ : 1 < p.Q := by have := p.two_lt_Q; omega
    rw [Finset.sum_eq_single 0, Finset.sum_eq_single 0] at h
    · have hconst : r = const (slot p.rootOfUnity r (0 : Digit p).val) := by
        simp only [acc, if_true, mul_one] at h
        rcases dct_half (p := p) with unit | unit
        · rw [unit, mul_one] at h
          exact (sub_eq_zero.mp h).symm
        · rw [unit, mul_neg, mul_one, neg_eq_zero] at h
          exact (sub_eq_zero.mp h).symm
      intro i hi
      have hv : i.val ≠ 0 := fun hz => hi (Fin.ext hz)
      rw [hconst, coeff_const, if_neg hv]
    · intro i _ hi
      simp [hi]
    · simp
    · intro u _ hu
      have hzero : ∀ i, dct p (acc u) i = 0 := fun i => by
        simp only [acc, if_neg hu]
        exact signedDigitDecompose_zero hQ _ _
      simp [hzero]
    · simp
  · intro constant sk _ _ CRS acc
    have hr := eq_const_of_coeff constant
    refine Finset.sum_eq_zero fun u _ => Finset.sum_eq_zero fun i _ => ?_
    rw [hr, slot_const, sub_self, zero_mul]

def smallParams : UniEncParams .w64 :=
  .ofConstruct (show construct .w64 .threeDigits ⟨8, 17, 2⟩ ⟨17, [0, 0, 0, 0]⟩ 2 4 17 8 4 2 .MKNTRU
    .UNIFORM_TERNARY false 0 = .ok _ from rfl) rfl (by decide) (by decide) (by decide) (by decide)
    (by decide) (by decide) (by decide) (by decide) (by decide) (by decide)

/-- With the mask `X` the law already fails for secrets one and the accumulator `(2, 0)`. -/
theorem hbProd_law_fails_at_X : ¬ (
    let r : Poly smallParams := mono 1
    let sk : Acc smallParams := fun _ => 1
    let CRS : Digit smallParams → Poly smallParams := fun i => if i = 0 then 1 else 0
    let acc : Acc smallParams := fun u => if u = 0 then const 2 else 0
    let Pkey := pkey smallParams (fun _ _ => 0) CRS sk
    let v := sumV smallParams Pkey acc
    phase smallParams sk
        (hbProd smallParams (keyGenXZW smallParams (.errorFree smallParams r) 1 CRS 0) 0 Pkey acc) =
      ((0 : ℤ) : Poly smallParams) * ∑ u, recompose smallParams (acc u) * sk u +
        r * (recompose smallParams v - v)) := by
  decide +kernel

end UniEncAccumulator
end MultiKeyFHE
