import MultiKeyFHE.KeyGen.MNTRU
import MultiKeyFHE.Native.Poly
import MultiKeyFHE.Library.DensePoly
import Mathlib.LinearAlgebra.Matrix.Notation

/-!
# Invertible keys

`Get_invertible_Matrix` of `mntru-pke.cpp` and `Get_invertible_NativeVector` of `binfhe-base-scheme.cpp`. Both draw until
NTL finds an inverse, and then carry every residue over an unsigned difference that wraps and a signed `int` into
its vector. NTL is not part of the sources: `inv` and `InvMod` are parameters, and throw where they are `none`.
-/

namespace MultiKeyFHE
open Negacyclic NegPoly NativeInteger Draws Sampler DensePoly

namespace Invertible

/-- The generators of the loops, each as the stream of its draws. Those of `gaussian_sampler` are read after the
conversion from `double` to `long`. -/
structure Generators where
  ternary_sampler : ℕ → ℤ
  gaussian_sampler : ℕ → ℤ

/-- The sampler that `Get_invertible_Matrix` uses. -/
def Generators.forMatrix (generators : Generators) (keyDist : SecretKeyDist) : ℕ → ℤ :=
  if keyDist = .UNIFORM_TERNARY then generators.ternary_sampler else generators.gaussian_sampler

/-- The sampler that `Get_invertible_NativeVector` uses. -/
def Generators.forNativeVector (generators : Generators) (keyDist : SecretKeyDist) : ℕ → ℤ :=
  if keyDist = .GAUSSIAN then generators.gaussian_sampler else generators.ternary_sampler

/-! ### From residues to entries -/

/-- The `int` of a residue: `tmp_coef` is a `uint32_t`, and so is the difference. -/
def liftResidue (q_base r : ℕ) : ℤ :=
  let tmp_coef := r % 2 ^ 32
  let tmp_coef := if tmp_coef > q_base / 2 then (tmp_coef + 2 ^ 32 - q_base) % 2 ^ 32 else tmp_coef
  (tmp_coef : ℤ).bmod (2 ^ 32)

/-- The entry that the last loop of both functions writes for `v`. -/
def toEntry (w : NativeSize) (q_base : ℕ) (v : ℤ) : ℕ :=
  if v < 0 then sub w q_base ((-v).bmod (2 ^ 32) % 2 ^ w.bits).toNat else (v % 2 ^ w.bits).toNat

/-! ### Matrices -/

section Matrices
variable (w : NativeSize) (q_base N : ℕ)

def sampleMatrix : Sampler ℤ (Matrix (Fin N) (Fin N) (ZMod q_base)) :=
  forEach N fun _ => forEach N fun _ => (fun coef : ℤ => (coef : ZMod q_base)) <$> draw

def storeMatrix {q_base N : ℕ} (mat : Matrix (Fin N) (Fin N) (ZMod q_base)) : Fin N → Fin N → ℕ :=
  fun i j => toEntry w q_base (liftResidue q_base (mat i j).val)

/-- The `while` loop, with `tmp_mat` and `tmp_mat_inv` as it leaves them. It has no bound in the source and is run for `fuel`
rounds here. -/
def invertibleMatrix (inv : Matrix (Fin N) (Fin N) (ZMod q_base) → Option (Matrix (Fin N) (Fin N) (ZMod q_base)))
    (fuel : ℕ) : Sampler ℤ (Option (Matrix (Fin N) (Fin N) (ZMod q_base) × Matrix (Fin N) (Fin N) (ZMod q_base))) :=
  retry (fun _ => sampleMatrix q_base N) inv fuel 0

/-- `Get_invertible_Matrix`. -/
def getInvertibleMatrix (inv : Matrix (Fin N) (Fin N) (ZMod q_base) → Option (Matrix (Fin N) (Fin N) (ZMod q_base)))
    (fuel : ℕ) : Sampler ℤ (Option ((Fin N → Fin N → ℕ) × (Fin N → Fin N → ℕ))) := do
  let found ← invertibleMatrix q_base N inv fuel
  return found.map fun (tmp_mat, tmp_mat_inv) => (storeMatrix w tmp_mat, storeMatrix w tmp_mat_inv)

end Matrices

/-! ### Polynomials -/

section Polynomials
variable (w : NativeSize) (q_boot N : ℕ)

/-- `X^N + 1`. -/
def definingPolynomial : Dense (ZMod q_boot) := ((0 : Dense (ZMod q_boot)).setCoeff 0 1).setCoeff N 1

def sampleCoeff {q_boot : ℕ} (poly : Dense (ZMod q_boot)) (i : ℕ) : Sampler ℤ (Dense (ZMod q_boot)) :=
  (fun coef : ℤ => poly.setCoeff i coef) <$> draw

/-- One round of draws. It writes over the polynomial of the round before. -/
def samplePolynomial (poly : Dense (ZMod q_boot)) : Sampler ℤ (Dense (ZMod q_boot)) := do
  let poly ← sampleCoeff poly 0
  (List.range' 1 (N - 1)).foldlM sampleCoeff poly

/-- The `while` loop, with `poly` and `inv_poly` as it leaves them. -/
def invertiblePolynomial (InvMod : Dense (ZMod q_boot) → Dense (ZMod q_boot) → Option (Dense (ZMod q_boot))) (fuel : ℕ) :
    Sampler ℤ (Option (Dense (ZMod q_boot) × Dense (ZMod q_boot))) :=
  retry (samplePolynomial q_boot N) (fun poly => InvMod poly (definingPolynomial q_boot N)) fuel 0

def writeCoeff {q_boot N : ℕ} (poly : Dense (ZMod q_boot)) (vec : Fin N → ℤ) (i : ℕ) : Except Fault (Fin N → ℤ) :=
  if inside : i < N then
    .ok (Function.update vec ⟨i, inside⟩ (liftResidue q_boot (poly.coeff i).val))
  else .error .outOfRange

/-- The loop up to the degree, on a vector of zeros. -/
def liftPolynomial {q_boot : ℕ} (poly : Dense (ZMod q_boot)) : Except Fault (Fin N → ℤ) :=
  (List.range poly.rep.length).foldlM (writeCoeff poly) fun _ => 0

def storePair {q_boot : ℕ} (poly inv_poly : Dense (ZMod q_boot)) : Except Fault ((Fin N → ℕ) × (Fin N → ℕ)) := do
  let vec ← liftPolynomial N poly
  let vec_inv ← liftPolynomial N inv_poly
  return (fun i => toEntry w q_boot (vec i), fun i => toEntry w q_boot (vec_inv i))

/-- `Get_invertible_NativeVector`, run for `fuel` rounds. -/
def getInvertibleNativeVector (InvMod : Dense (ZMod q_boot) → Dense (ZMod q_boot) → Option (Dense (ZMod q_boot)))
    (fuel : ℕ) : Sampler ℤ (Option (Except Fault ((Fin N → ℕ) × (Fin N → ℕ)))) := do
  let found ← invertiblePolynomial q_boot N InvMod fuel
  return found.map fun (poly, inv_poly) => storePair w N poly inv_poly

end Polynomials

/-! ### Residues survive the detour -/

theorem toEntry_liftResidue {w : NativeSize} {q r : ℕ} (below : r < q) (small : q < 2 ^ 31) :
    toEntry w q (liftResidue q r) = r := by
  have word : 2 ^ 32 ≤ 2 ^ w.bits := Nat.pow_le_pow_right two_pos (by cases w <;> decide)
  have wordInt : (2 : ℤ) ^ 32 ≤ 2 ^ w.bits := by exact_mod_cast word
  have fits : r % 2 ^ 32 = r := Nat.mod_eq_of_lt (by omega)
  rcases Nat.lt_or_ge (q / 2) r with upper | lower
  · -- The upper half wraps to `r - q`, which is negative as an `int`.
    have lifted : liftResidue q r = (r : ℤ) - q := by
      dsimp only [liftResidue]
      rw [fits, if_pos upper, Nat.mod_eq_of_lt (by omega), Int.bmod_def]
      push_cast [Nat.cast_sub (show q ≤ r + 2 ^ 32 by omega)]
      omega
    have back : (-((r : ℤ) - q)).bmod (2 ^ 32) % 2 ^ w.bits = ((q - r : ℕ) : ℤ) := by
      rw [show -((r : ℤ) - q) = ((q - r : ℕ) : ℤ) by push_cast [Nat.cast_sub below.le]; ring,
        Int.bmod_eq_of_le (by omega) (by omega), Int.emod_eq_of_lt (by omega) (by omega)]
    rw [lifted, toEntry, if_pos (by omega), back, Int.toNat_natCast, sub_of_le (by omega) (by omega)]
    omega
  · have lifted : liftResidue q r = r := by
      dsimp only [liftResidue]
      rw [fits, if_neg (by omega), Int.bmod_eq_of_le (by omega) (by omega)]
    rw [lifted, toEntry, if_neg (by omega), Int.emod_eq_of_lt (by omega) (by omega), Int.toNat_natCast]

/-! ### What one round draws -/

section Rounds
variable {q N : ℕ}

theorem sampleMatrix_asks : Asks (sampleMatrix q N) (N * N) := by
  have row : Asks (forEach N fun _ => (fun coef : ℤ => (coef : ZMod q)) <$> draw) (N * 1) :=
    Asks.forEach fun _ => draw_asks.map _
  rw [Nat.mul_one] at row
  exact Asks.forEach fun _ => row

theorem sampleMatrix_apply (stream : ℕ → ℤ) (position : ℕ) (i j : Fin N) :
    (sampleMatrix q N stream position).1 i j = stream (position + i * N + j) := by
  have entry : ∀ _ : Fin N, Asks ((fun coef : ℤ => (coef : ZMod q)) <$> draw) 1 := fun _ => draw_asks.map _
  have row : ∀ _ : Fin N, Asks (forEach N fun _ => (fun coef : ℤ => (coef : ZMod q)) <$> draw) (N * 1) :=
    fun _ => Asks.forEach entry
  rw [sampleMatrix, forEach_run row]
  dsimp only
  rw [forEach_run entry]
  simp only [Nat.mul_one]
  rfl

/-- A run of consecutive coefficients takes consecutive draws and leaves the other coefficients as they are. -/
theorem sampleCoeffs_run (stream : ℕ → ℤ) (count first position : ℕ) (poly : Dense (ZMod q)) :
    ((List.range' first count).foldlM sampleCoeff poly stream position).2 = position + count ∧
      ∀ i, ((List.range' first count).foldlM sampleCoeff poly stream position).1.coeff i =
        if first ≤ i ∧ i < first + count then ((stream (position + (i - first)) : ℤ) : ZMod q) else poly.coeff i := by
  induction count generalizing first position poly with
  | zero =>
    refine ⟨rfl, fun i => ?_⟩
    rw [if_neg (by omega)]
    rfl
  | succ count ih =>
    obtain ⟨moved, coeffs⟩ := ih (first + 1) (position + 1) (poly.setCoeff first (stream position : ℤ))
    have run : (List.range' first (count + 1)).foldlM sampleCoeff poly stream position =
        (List.range' (first + 1) count).foldlM sampleCoeff (poly.setCoeff first (stream position : ℤ)) stream
          (position + 1) := rfl
    rw [run]
    refine ⟨by rw [moved]; omega, fun i => ?_⟩
    rw [coeffs, Dense.coeff_setCoeff]
    rcases Nat.lt_trichotomy i first with before | rfl | after
    · rw [if_neg (by omega), if_neg (by omega), if_neg (by omega)]
    · rw [if_neg (by omega), if_pos rfl, if_pos (by omega), Nat.sub_self, Nat.add_zero]
    · rw [if_neg (show i ≠ first by omega)]
      refine if_congr (by omega) ?_ rfl
      rw [show position + 1 + (i - (first + 1)) = position + (i - first) by omega]

theorem samplePolynomial_eq (poly : Dense (ZMod q)) :
    samplePolynomial q N poly = (List.range' 0 (N - 1 + 1)).foldlM sampleCoeff poly := rfl

theorem samplePolynomial_asks (poly : Dense (ZMod q)) : Asks (samplePolynomial q N poly) (N - 1 + 1) :=
  fun stream position => by rw [samplePolynomial_eq, (sampleCoeffs_run stream _ _ position poly).1]

theorem coeff_samplePolynomial (poly : Dense (ZMod q)) (stream : ℕ → ℤ) (position i : ℕ) :
    (samplePolynomial q N poly stream position).1.coeff i =
      if i < N - 1 + 1 then ((stream (position + i) : ℤ) : ZMod q) else poly.coeff i := by
  rw [samplePolynomial_eq, (sampleCoeffs_run stream _ _ position poly).2, Nat.sub_zero]
  exact if_congr (by omega) rfl rfl

end Rounds

/-! ### What the loop over the degree leaves -/

section Lift
variable {q N : ℕ}

theorem writeCoeffs_run (poly : Dense (ZMod q)) {m : ℕ} (inside : m ≤ N) (vec : Fin N → ℤ) :
    (List.range m).foldlM (writeCoeff poly) vec =
      .ok fun i => if i.val < m then liftResidue q (poly.coeff i).val else vec i := by
  induction m with
  | zero => rfl
  | succ m ih =>
    rw [List.range_succ, List.foldlM_append, ih (by omega)]
    have step : ∀ vec : Fin N → ℤ, writeCoeff poly vec m =
        .ok (Function.update vec ⟨m, inside⟩ (liftResidue q (poly.coeff m).val)) := fun vec => dif_pos inside
    simp only [List.foldlM_cons, List.foldlM_nil, bind, Except.bind, step, pure, Except.pure]
    refine congrArg Except.ok (funext fun i => ?_)
    rcases eq_or_ne i.val m with here | elsewhere
    · rw [show i = ⟨m, inside⟩ from Fin.ext here, Function.update_self, if_pos (Nat.lt_succ_self m)]
    · rw [Function.update_of_ne fun same => elsewhere (congrArg Fin.val same)]
      exact if_congr (by omega) rfl rfl

theorem liftPolynomial_ok {w : NativeSize} (small : q < 2 ^ 31) [NeZero q] {poly : Dense (ZMod q)}
    (inside : poly.rep.length ≤ N) :
    ∃ vec : Fin N → ℤ, liftPolynomial N poly = .ok vec ∧ ∀ i, toEntry w q (vec i) = (poly.coeff i).val := by
  refine ⟨_, writeCoeffs_run poly inside _, fun i => ?_⟩
  split
  · exact toEntry_liftResidue (ZMod.val_lt _) small
  · rename_i above
    have zero : poly.coeff i = 0 := Dense.coeff_of_deg_lt (by unfold Dense.deg; omega)
    rw [zero, ZMod.val_zero]
    cases w <;> rfl

end Lift

/-! ### Pairs of inverses -/

/-- The promise of `InvMod`, whose polynomials are below the degree of the modulus; it throws where that degree is
not positive. -/
structure TrueInvMod {q : ℕ} (InvMod : Dense (ZMod q) → Dense (ZMod q) → Option (Dense (ZMod q))) : Prop where
  degree : ∀ a f x, InvMod a f = some x → 0 < f.deg ∧ x.deg < f.deg
  inverse : ∀ a f x, InvMod a f = some x → f.toPolynomial ∣ a.toPolynomial * x.toPolynomial - 1

section Pairs
variable {q N : ℕ}

theorem coeff_definingPolynomial (i : ℕ) :
    (definingPolynomial q N).coeff i = if i = N then 1 else if i = 0 then 1 else 0 := by
  rw [definingPolynomial, Dense.coeff_setCoeff, Dense.coeff_setCoeff, Dense.coeff_zero]

theorem definingPolynomial_deg_le : (definingPolynomial q N).deg ≤ N := by
  have length := Dense.length_le (a := definingPolynomial q N) (m := N + 1) fun i above => by
    rw [coeff_definingPolynomial, if_neg (by omega), if_neg (by omega)]
  unfold Dense.deg
  omega

theorem toPolynomial_definingPolynomial (dimension : 0 < N) :
    (definingPolynomial q N).toPolynomial = Polynomial.X ^ N + 1 := by
  ext i
  rw [Dense.coeff_toPolynomial, coeff_definingPolynomial, Polynomial.coeff_add, Polynomial.coeff_X_pow, Polynomial.coeff_one]
  rcases eq_or_ne i N with rfl | other
  · rw [if_pos rfl, if_pos rfl, if_neg (by omega), add_zero]
  · rw [if_neg other, if_neg other, zero_add]

/-- A dense polynomial below the degree `N` as an element of the ring. -/
def inRing (N : ℕ) (poly : Dense (ZMod q)) : NativePoly N q := ⟨fun i => poly.coeff i⟩

theorem toAdjoin_inRing {poly : Dense (ZMod q)} (inside : poly.rep.length ≤ N) :
    toAdjoin (inRing N poly) = AdjoinRoot.mk _ poly.toPolynomial := by
  rw [toAdjoin_eq_mk, Dense.toPolynomial_eq_sum inside, Finset.sum_range]
  rfl

theorem inRing_inverse [NeZero N] {poly inv_poly : Dense (ZMod q)} (inside : poly.rep.length ≤ N)
    (invInside : inv_poly.rep.length ≤ N)
    (inverse : (definingPolynomial q N).toPolynomial ∣ poly.toPolynomial * inv_poly.toPolynomial - 1) :
    inRing N poly * inRing N inv_poly = 1 := by
  apply toAdjoin_injective
  rw [toPolynomial_definingPolynomial (Nat.pos_of_ne_zero (NeZero.ne N))] at inverse
  have same := AdjoinRoot.mk_eq_zero.mpr inverse
  rw [map_sub, map_mul, map_one, sub_eq_zero] at same
  rw [toAdjoin_mul, toAdjoin_one, toAdjoin_inRing inside, toAdjoin_inRing invInside, same]

/-- Everything that the polynomials have in common when the loop stops. -/
theorem invertiblePolynomial_some {InvMod : Dense (ZMod q) → Dense (ZMod q) → Option (Dense (ZMod q))}
    (trueInvMod : TrueInvMod InvMod) {fuel : ℕ} {stream : ℕ → ℤ} {poly inv_poly : Dense (ZMod q)}
    (stops : value (invertiblePolynomial q N InvMod fuel) stream = some (poly, inv_poly)) :
    0 < N ∧ poly.rep.length ≤ N ∧ inv_poly.rep.length ≤ N ∧
      (definingPolynomial q N).toPolynomial ∣ poly.toPolynomial * inv_poly.toPolynomial - 1 ∧
      ∃ failed, ∀ i : Fin N, poly.coeff i = (stream (failed * N + i) : ℤ) := by
  have keeps : ∀ (poly : Dense (ZMod q)) (stream : ℕ → ℤ) (position : ℕ), (∀ i, N - 1 + 1 ≤ i → poly.coeff i = 0) →
      ∀ i, N - 1 + 1 ≤ i → (samplePolynomial q N poly stream position).1.coeff i = 0 := by
    intro poly stream position high i above
    rw [coeff_samplePolynomial, if_neg (by omega), high i above]
  obtain ⟨found, before, failed, high, last⟩ := retry_some samplePolynomial_asks keeps (fun i _ => Dense.coeff_zero i) stops
  obtain ⟨positive, reduced⟩ := trueInvMod.degree _ _ _ found
  have degree := definingPolynomial_deg_le (q := q) (N := N)
  have dimension : N - 1 + 1 = N := by omega
  rw [dimension, Nat.zero_add] at last
  rw [dimension] at high
  have coeffs := fun i => coeff_samplePolynomial before stream (failed * N) i (N := N)
  rw [← last, dimension] at coeffs
  refine ⟨by omega, Dense.length_le fun i above => ?_, ?_, trueInvMod.inverse _ _ _ found, failed, fun i => ?_⟩
  · rw [coeffs, if_neg (by omega), high i above]
  · unfold Dense.deg at reduced degree
    omega
  · rw [coeffs, if_pos i.isLt]

/-- The matrix that the loop stops with was sampled in its last round. -/
theorem invertibleMatrix_some {inv : Matrix (Fin N) (Fin N) (ZMod q) → Option (Matrix (Fin N) (Fin N) (ZMod q))}
    (trueInv : ∀ A B, inv A = some B → A * B = 1) {fuel : ℕ} {stream : ℕ → ℤ} {mat mat_inv : Matrix (Fin N) (Fin N) (ZMod q)}
    (stops : value (invertibleMatrix q N inv fuel) stream = some (mat, mat_inv)) :
    mat * mat_inv = 1 ∧ ∃ failed, ∀ i j : Fin N, mat i j = (stream (failed * (N * N) + i * N + j) : ℤ) := by
  obtain ⟨found, -, failed, -, last⟩ :=
    retry_some (fun _ => sampleMatrix_asks) (fun _ _ _ (_ : True) => trivial) trivial stops
  refine ⟨trueInv _ _ found, failed, fun i j => ?_⟩
  rw [last, sampleMatrix_apply, Nat.zero_add]

theorem storeMatrix_apply [NeZero q] {w : NativeSize} (small : q < 2 ^ 31) (mat : Matrix (Fin N) (Fin N) (ZMod q)) (i j : Fin N) :
    storeMatrix w mat i j = (mat i j).val :=
  toEntry_liftResidue (ZMod.val_lt _) small

/-- When the loops stop, both functions have stored a sampled key and its inverse, reduced and with zeros above the
degrees. -/
theorem generated_keys_inverse (w : NativeSize) (modulus : 0 < q) (small : q < 2 ^ 31)
    (inv : Matrix (Fin N) (Fin N) (ZMod q) → Option (Matrix (Fin N) (Fin N) (ZMod q)))
    (trueInv : ∀ A B, inv A = some B → A * B = 1)
    (InvMod : Dense (ZMod q) → Dense (ZMod q) → Option (Dense (ZMod q))) (trueInvMod : TrueInvMod InvMod)
    (generators : Generators) (keyDist : SecretKeyDist) (fuel : ℕ) :
    (∀ tmp_mat tmp_mat_inv, value (invertibleMatrix q N inv fuel) (generators.forMatrix keyDist) = some (tmp_mat, tmp_mat_inv) →
      ∃ NatMat NatMat_inv : Fin N → Fin N → ℕ,
        value (getInvertibleMatrix w q N inv fuel) (generators.forMatrix keyDist) = some (NatMat, NatMat_inv) ∧
        (Matrix.of fun i j => (NatMat i j : ZMod q)) * (Matrix.of fun i j => (NatMat_inv i j : ZMod q)) = 1 ∧
        (∀ i j, NatMat i j < q ∧ NatMat_inv i j < q) ∧
        ∃ failed, ∀ i j : Fin N,
          (NatMat i j : ℤ) ≡ generators.forMatrix keyDist (failed * (N * N) + i * N + j) [ZMOD q]) ∧
    ∀ poly inv_poly, value (invertiblePolynomial q N InvMod fuel) (generators.forNativeVector keyDist) =
        some (poly, inv_poly) →
      ∃ NatVec NatVec_inv : Fin N → ℕ,
        value (getInvertibleNativeVector w q N InvMod fuel) (generators.forNativeVector keyDist) =
          some (.ok (NatVec, NatVec_inv)) ∧
        (⟨fun i => NatVec i⟩ * ⟨fun i => NatVec_inv i⟩ : NativePoly N q) = 1 ∧
        (∀ i, NatVec i < q ∧ NatVec_inv i < q) ∧
        (∃ failed, ∀ i : Fin N, (NatVec i : ℤ) ≡ generators.forNativeVector keyDist (failed * N + i) [ZMOD q]) ∧
        ∀ i : Fin N, (poly.deg < i → NatVec i = 0) ∧ (inv_poly.deg < i → NatVec_inv i = 0) := by
  have : NeZero q := ⟨modulus.ne'⟩
  have congruent : ∀ {a : ℕ} {x : ℤ}, (a : ZMod q) = (x : ZMod q) → (a : ℤ) ≡ x [ZMOD q] := by
    intro a x same
    apply (ZMod.intCast_eq_intCast_iff _ _ q).mp
    rw [Int.cast_natCast, same]
  constructor
  · intro mat mat_inv stops
    obtain ⟨inverse, failed, drawn⟩ := invertibleMatrix_some trueInv stops
    have run : value (getInvertibleMatrix w q N inv fuel) (generators.forMatrix keyDist) =
        (value (invertibleMatrix q N inv fuel) (generators.forMatrix keyDist)).map fun found =>
          (storeMatrix w found.1, storeMatrix w found.2) := rfl
    refine ⟨storeMatrix w mat, storeMatrix w mat_inv, ?_, ?_, fun i j => ?_, failed, fun i j => ?_⟩
    · rw [run, stops, Option.map_some]
    · simp only [storeMatrix_apply small, ZMod.natCast_zmod_val]
      exact inverse
    · rw [storeMatrix_apply small, storeMatrix_apply small]
      exact ⟨ZMod.val_lt _, ZMod.val_lt _⟩
    · apply congruent
      rw [storeMatrix_apply small, ZMod.natCast_zmod_val, drawn]
  · intro poly inv_poly stops
    obtain ⟨dimension, inside, invInside, inverse, failed, drawn⟩ := invertiblePolynomial_some trueInvMod stops
    have : NeZero N := ⟨dimension.ne'⟩
    obtain ⟨vec, lifted, entry⟩ := liftPolynomial_ok (w := w) small inside
    obtain ⟨vec_inv, invLifted, invEntry⟩ := liftPolynomial_ok (w := w) small invInside
    have run : value (getInvertibleNativeVector w q N InvMod fuel) (generators.forNativeVector keyDist) =
        (value (invertiblePolynomial q N InvMod fuel) (generators.forNativeVector keyDist)).map fun found =>
          storePair w N found.1 found.2 := rfl
    refine ⟨fun i => toEntry w q (vec i), fun i => toEntry w q (vec_inv i), ?_, ?_, fun i => ?_, ⟨failed, fun i => ?_⟩,
      fun i => ?_⟩
    · rw [run, stops, Option.map_some, storePair, lifted]
      simp only [bind, Except.bind, invLifted]
      rfl
    · simp only [entry, invEntry, ZMod.natCast_zmod_val]
      exact inRing_inverse inside invInside inverse
    · dsimp only
      rw [entry, invEntry]
      exact ⟨ZMod.val_lt _, ZMod.val_lt _⟩
    · apply congruent
      dsimp only
      rw [entry, ZMod.natCast_zmod_val, drawn]
    · dsimp only
      rw [entry, invEntry]
      exact ⟨fun above => by rw [Dense.coeff_of_deg_lt above, ZMod.val_zero],
        fun above => by rw [Dense.coeff_of_deg_lt above, ZMod.val_zero]⟩

/-- The inverse of the unit matrix with a one below, and no other. -/
def sampleInv (A : Matrix (Fin 2) (Fin 2) (ZMod 7)) : Option (Matrix (Fin 2) (Fin 2) (ZMod 7)) :=
  if A = !![1, 0; 1, 1] then some !![1, 0; -1, 1] else none

/-- The inverse of one modulo any polynomial. -/
def sampleInvMod (a f : Dense (ZMod 7)) : Option (Dense (ZMod 7)) :=
  if a.rep = [1] ∧ 0 < f.deg then some a else none

theorem sampleInvMod_true : TrueInvMod sampleInvMod := by
  constructor
  · intro a f x found
    unfold sampleInvMod at found
    split at found
    · rename_i one
      obtain rfl := Option.some.inj found
      refine ⟨one.2, ?_⟩
      rw [Dense.deg, one.1]
      exact one.2
    · cases found
  · intro a f x found
    unfold sampleInvMod at found
    split at found
    · rename_i one
      obtain rfl := Option.some.inj found
      have same : a.toPolynomial = 1 := by
        ext i
        rw [Dense.coeff_toPolynomial, Dense.coeff, one.1, Polynomial.coeff_one]
        cases i <;> simp
      rw [same, mul_one, sub_self]
      exact dvd_zero _
    · cases found

theorem sampleInv_true : ∀ A B, sampleInv A = some B → A * B = 1 := by
  intro A B found
  unfold sampleInv at found
  split at found
  · rename_i same
    obtain rfl := Option.some.inj found
    rw [same]
    decide
  · cases found

/-- The first round draws zeros and is repeated. -/
def sampleGenerators : Generators where
  ternary_sampler i := if i = 4 ∨ i = 6 ∨ i = 7 then 1 else 0
  gaussian_sampler _ := 0

theorem generated_keys_inverse_two :
    (∃ NatMat NatMat_inv : Fin 2 → Fin 2 → ℕ,
      value (getInvertibleMatrix .w64 7 2 sampleInv 3) (sampleGenerators.forMatrix .UNIFORM_TERNARY) = some (NatMat, NatMat_inv) ∧
        (Matrix.of fun i j => (NatMat i j : ZMod 7)) * (Matrix.of fun i j => (NatMat_inv i j : ZMod 7)) = 1) ∧
      ∃ NatVec NatVec_inv : Fin 2 → ℕ,
        value (getInvertibleNativeVector .w64 7 2 sampleInvMod 3) (sampleGenerators.forNativeVector .UNIFORM_TERNARY) =
          some (.ok (NatVec, NatVec_inv)) ∧
        (⟨fun i => NatVec i⟩ * ⟨fun i => NatVec_inv i⟩ : NativePoly 2 7) = 1 := by
  have both := generated_keys_inverse .w64 (show 0 < 7 by decide) (by decide) sampleInv sampleInv_true sampleInvMod
    sampleInvMod_true sampleGenerators .UNIFORM_TERNARY 3
  constructor
  · obtain ⟨NatMat, NatMat_inv, stored, inverse, -⟩ := both.1 !![1, 0; 1, 1] !![1, 0; -1, 1] (by decide)
    exact ⟨NatMat, NatMat_inv, stored, inverse⟩
  · obtain ⟨NatVec, NatVec_inv, stored, inverse, -⟩ :=
      both.2 (Dense.ofList [1]) (Dense.ofList [1]) (by decide)
    exact ⟨NatVec, NatVec_inv, stored, inverse⟩

end Pairs

end Invertible
end MultiKeyFHE
