import MultiKeyFHE.Accumulator.LMKCDEY
import MultiKeyFHE.Library.Run

/-!
# External products

The bodies of `AddToAccDM`, `AddToAccLMKCDEY`, `AddToAccCGGI` and `Automorphism`, which the rotations take as
parameters. The decomposition of an accumulator alternates between its components as the rows of a key do, and the
products of the last component overwrite the digits. A phase is computed exactly, from what the digits recompose.
-/

namespace MultiKeyFHE
open Negacyclic NegPoly NativePoly NativeInteger SignedDigits Draws Sampler

namespace RingGSW
variable {p : RingGSWCryptoParams}

/-! ### Digits -/

/-- The loop of `SignedDigitDecompose` over one coefficient of both components, after the first digits. -/
def digitPairs (gBits Q : ℕ) : ℕ → ℤ → ℤ → List ℤ
  | 0, _, _ => []
  | passes + 1, d0, d1 =>
    store Q (low gBits d0) :: store Q (low gBits d1) :: digitPairs gBits Q passes (rest gBits d0) (rest gBits d1)

/-- `dct`: what `SignedDigitDecompose` adds to polynomials that are zero. -/
def decompose (ct : Acc p) (i : Fin (digitsG2 p)) : Poly p :=
  let gBits := ctz p.baseG
  ⟨fun k =>
    let d0 := rest gBits (center p.Q (ct.a.coeff k).val)
    let d1 := rest gBits (center p.Q (ct.b.coeff k).val)
    (((digitPairs gBits p.Q (p.digitsG - 1) d0 d1).getD i 0 : ℤ) : ZMod p.Q)⟩

/-! ### Inner products -/

section Loops
variable {n : ℕ}

/-- The loop `sum += dct[l] * column[l]`. -/
def addProducts (dct column : Fin n → Poly p) (sum : Poly p) (rest : List (Fin n)) : Poly p :=
  rest.foldl (fun sum l => sum + dct l * column l) sum

/-- The loop `sum += (dct[l] *= column[l])`. -/
def addProductsInPlace (dct column : Fin n → Poly p) (sum : Poly p) (rest : List (Fin n)) : Poly p :=
  (rest.foldl (fun (now : Poly p × (Fin n → Poly p)) l =>
    let product := now.2 l * column l
    (now.1 + product, Function.update now.2 l product)) (sum, dct)).1

theorem addProducts_eq [NeZero p.N] (dct column : Fin n → Poly p) (sum : Poly p) (rest : List (Fin n)) :
    addProducts dct column sum rest = sum + (rest.map fun l => dct l * column l).sum := by
  rw [addProducts]
  induction rest generalizing sum with
  | nil => simp
  | cons l rest ih => rw [List.foldl_cons, ih, List.map_cons, List.sum_cons, add_assoc]

/-- The digits that are overwritten are not read again. -/
theorem addProductsInPlace_eq {now dct : Fin n → Poly p} (column : Fin n → Poly p) (sum : Poly p) {rest : List (Fin n)}
    (nodup : rest.Nodup) (kept : ∀ l ∈ rest, now l = dct l) :
    addProductsInPlace now column sum rest = addProducts dct column sum rest := by
  rw [addProductsInPlace, addProducts]
  induction rest generalizing sum now with
  | nil => rfl
  | cons l rest ih =>
    obtain ⟨fresh, nodup⟩ := List.nodup_cons.mp nodup
    rw [List.foldl_cons, List.foldl_cons, ← kept l List.mem_cons_self]
    refine ih _ nodup fun l' member => ?_
    have other : l' ≠ l := fun same => fresh (same ▸ member)
    rw [Function.update_of_ne other]
    exact kept l' (List.mem_cons_of_mem _ member)

end Loops

/-- Both components of `dct * ek`. Without digits there is no `dct[0]`. -/
def externalProduct (ek : EvalKey p) (acc : Acc p) : Except Fault (Acc p) :=
  let dct := decompose acc
  match List.finRange (digitsG2 p) with
  | [] => .error .outOfRange
  | zero :: others =>
    let a := addProducts dct (fun l => (ek l).first) (dct zero * (ek zero).first) others
    let product := dct zero * (ek zero).second
    let b := addProductsInPlace (Function.update dct zero product) (fun l => (ek l).second) product others
    .ok ⟨a, b⟩

def addToAccDM (ek : EvalKey p) (acc : Acc p) : Except Fault (Acc p) := externalProduct ek acc

def addToAccLMKCDEY (ek : EvalKey p) (acc : Acc p) : Except Fault (Acc p) := externalProduct ek acc

/-- `AddToAccCGGI`, with `tmp` for each component of each key. -/
def addToAccDigitsCGGI (w : NativeSize) (ek1 ek2 : EvalKey p) (a : ℕ) (acc : Acc p) : Except Fault (Acc p) := do
  let dct := decompose acc
  let M := 2 * p.N % 2 ^ 32
  let indexPos := a % 2 ^ 32
  let monomial ← getMonomial p w (if indexPos = M then 0 else indexPos)
  let indexNeg := modSubFast w 0 a M % 2 ^ 32
  let monomialNeg ← getMonomial p w (if indexNeg = M then 0 else indexNeg)
  match List.finRange (digitsG2 p) with
  | [] => throw .outOfRange
  | zero :: others =>
    let tmp := addProducts dct (fun l => (ek1 l).first) (dct zero * (ek1 zero).first) others
    let acc := { acc with a := acc.a + tmp * monomial }
    let tmp := addProducts dct (fun l => (ek1 l).second) (dct zero * (ek1 zero).second) others
    let acc := { acc with b := acc.b + tmp * monomial }
    let tmp := addProducts dct (fun l => (ek2 l).first) (dct zero * (ek2 zero).first) others
    let acc := { acc with a := acc.a + tmp * monomialNeg }
    let tmp := addProductsInPlace dct (fun l => (ek2 l).second) (dct zero * (ek2 zero).second) others
    return { acc with b := acc.b + tmp * monomialNeg }

/-- `Automorphism`. The component `a` is decomposed after it was transformed, and cleared before the sum. -/
def automorphism [NeZero p.N] (a : ℕ) (ak : AutoKey p) (acc : Acc p) : Except Fault (Acc p) := do
  let k := a % 2 ^ 32
  if k % 2 = 0 then throw (.mathError "Automorphism index not odd\n")
  let cta := substPow k acc.a
  let dcta : Fin (p.digitsG - 1) → Poly p := fun d => signedDigitDecompose (ctz p.baseG) cta d
  return ⟨addProducts dcta (fun d => (ak d).first) 0 (List.finRange _),
    addProductsInPlace dcta (fun d => (ak d).second) (substPow k acc.b) (List.finRange _)⟩

/-! ### What they add up to -/

/-- The pairs alternate between the digits of the two numbers. -/
theorem digitPairs_getD (gBits Q : ℕ) {passes i : ℕ} (hi : i < 2 * passes) (d0 d1 : ℤ) :
    (digitPairs gBits Q passes d0 d1).getD i 0 = store Q (digit gBits (i / 2) (if i % 2 = 0 then d0 else d1)) := by
  induction passes generalizing i d0 d1 with
  | zero => omega
  | succ passes ih =>
    match i with
    | 0 => rfl
    | 1 => rfl
    | i + 2 =>
      have later := ih (i := i) (by omega) (rest gBits d0) (rest gBits d1)
      have parity : (if i % 2 = 0 then rest gBits d0 else rest gBits d1) = rest gBits (if i % 2 = 0 then d0 else d1) :=
        (apply_ite (rest gBits) _ _ _).symm
      rw [parity] at later
      rw [show (i + 2) / 2 = i / 2 + 1 by omega, show (i + 2) % 2 = i % 2 by omega, digit]
      exact later

theorem decompose_eq (ct : Acc p) (i : Fin (digitsG2 p)) :
    decompose ct i = signedDigitDecompose (ctz p.baseG) (if i.val % 2 = 0 then ct.a else ct.b) (i / 2) := by
  have inside : i.val < 2 * (p.digitsG - 1) := digitsG2_eq p ▸ i.isLt
  ext k
  refine congrArg (fun d : ℤ => (d : ZMod p.Q)) ((digitPairs_getD _ _ inside _ _).trans ?_)
  split <;> rfl

section Sums
variable [NeZero p.N]

/-- `dct * ek` as a matrix product. -/
def matrixProduct : Product p := fun acc ek =>
  ⟨∑ l, decompose acc l * (ek l).first, ∑ l, decompose acc l * (ek l).second⟩

theorem addProducts_all {n : ℕ} (dct column : Fin n → Poly p) (sum : Poly p) :
    addProducts dct column sum (List.finRange n) = sum + ∑ l, dct l * column l := by
  rw [addProducts_eq, Fin.sum_univ_def]

theorem addProducts_others {n : ℕ} {zero : Fin n} {others : List (Fin n)} (all : List.finRange n = zero :: others)
    (dct column : Fin n → Poly p) : addProducts dct column (dct zero * column zero) others = ∑ l, dct l * column l := by
  rw [addProducts_eq, Fin.sum_univ_def, all, List.map_cons, List.sum_cons]

theorem addProductsInPlace_others {n : ℕ} {zero : Fin n} {others : List (Fin n)} (all : List.finRange n = zero :: others)
    {now dct : Fin n → Poly p} (column : Fin n → Poly p) (kept : ∀ l, l ≠ zero → now l = dct l) :
    addProductsInPlace now column (dct zero * column zero) others = ∑ l, dct l * column l := by
  obtain ⟨fresh, nodup⟩ := List.nodup_cons.mp (all ▸ List.nodup_finRange n)
  rw [addProductsInPlace_eq column _ nodup fun l member => kept l fun same => fresh (same ▸ member), addProducts_others all]

/-- Without rows the first digit does not exist. -/
theorem rows_cases (p : RingGSWCryptoParams) :
    (p.digitsG ≤ 1 ∧ List.finRange (digitsG2 p) = []) ∨
      2 ≤ p.digitsG ∧ ∃ zero others, List.finRange (digitsG2 p) = zero :: others := by
  have count := digitsG2_eq p
  by_cases few : p.digitsG ≤ 1
  · exact .inl ⟨few, List.finRange_eq_nil_iff.mpr (by omega)⟩
  · refine .inr ⟨by omega, List.exists_cons_of_ne_nil fun none => ?_⟩
    have := List.finRange_eq_nil_iff.mp none
    omega

theorem externalProduct_eq (ek : EvalKey p) (acc : Acc p) :
    externalProduct ek acc = if 2 ≤ p.digitsG then .ok (matrixProduct acc ek) else .error .outOfRange := by
  rcases rows_cases p with ⟨few, none⟩ | ⟨many, zero, others, all⟩
  · rw [externalProduct, none, if_neg (by omega)]
  · rw [externalProduct, all, if_pos many]
    dsimp only
    rw [addProducts_others all, addProductsInPlace_others all _ fun l other => Function.update_of_ne other _ _, matrixProduct]

theorem addToAccDigitsCGGI_eq (w : NativeSize) (many : 2 ≤ p.digitsG) (ek1 ek2 : EvalKey p) (a : ℕ) (acc : Acc p) :
    addToAccDigitsCGGI w ek1 ek2 a acc = addToAccCGGI w matrixProduct ek1 ek2 a acc := by
  rcases rows_cases p with ⟨few, -⟩ | ⟨-, zero, others, all⟩
  · omega
  · rw [addToAccDigitsCGGI, addToAccCGGI, all]
    simp only [addProducts_others all, addProductsInPlace_others all _ fun _ _ => rfl, matrixProduct]

/-! ### Phases -/

/-- `c~`: what the digits after the first recompose. -/
def recompose (c : Poly p) : Poly p :=
  ∑ j ∈ Finset.range (p.digitsG - 1), const (gpow p (j + 1)) * signedDigitDecompose (ctz p.baseG) c j

theorem encryptRow_phase {marker : Marker} (inside : marker.Within p.N) (z : Poly p) (tempA : UniformDraw p) (j : ℕ) :
    (encryptRow p marker z (fun _ => 0) tempA (2 * j)).second - (encryptRow p marker z (fun _ => 0) tempA (2 * j)).first * z =
        -(const (gpow p (j + 1)) * marker.poly * z) ∧
      (encryptRow p marker z (fun _ => 0) tempA (2 * j + 1)).second -
        (encryptRow p marker z (fun _ => 0) tempA (2 * j + 1)).first * z = const (gpow p (j + 1)) * marker.poly := by
  have half : 2 * j / 2 = j := by omega
  have half' : (2 * j + 1) / 2 = j := by omega
  have even : 2 * j % 2 = 0 := by omega
  have odd : (2 * j + 1) % 2 ≠ 0 := by omega
  constructor
  · rw [encryptRow, if_pos even, if_pos even, half, Marker.apply_eq inside]
    ring
  · rw [encryptRow, if_neg odd, if_neg odd, half', Marker.apply_eq inside]
    ring

theorem sum_pairs {M : Type*} [AddCommMonoid M] (f : ℕ → M) (count : ℕ) :
    ∑ i ∈ Finset.range (2 * count), f i = ∑ j ∈ Finset.range count, (f (2 * j) + f (2 * j + 1)) := by
  induction count with
  | zero => rfl
  | succ count ih => rw [Nat.mul_succ, Finset.sum_range_succ, Finset.sum_range_succ, ih, Finset.sum_range_succ, add_assoc]

/-- A key without noise multiplies what the digits recompose. -/
theorem phase_matrixProduct {marker : Marker} (inside : marker.Within p.N) (z : Poly p) (masks : ℕ → UniformDraw p)
    (acc : Acc p) :
    phase z (matrixProduct acc (value (encrypt p marker z fun _ => 0) masks)) =
      marker.poly * (recompose acc.b - recompose acc.a * z) := by
  let row : ℕ → EvalKeyRow p := encryptRow p marker z (fun _ => 0) (masks 0)
  let term : ℕ → Poly p := fun i =>
    signedDigitDecompose (ctz p.baseG) (if i % 2 = 0 then acc.a else acc.b) (i / 2) * ((row i).second - (row i).first * z)
  have rows : ∀ l : Fin (digitsG2 p), decompose acc l * (row l).second - decompose acc l * (row l).first * z = term l := by
    intro l
    rw [decompose_eq, mul_assoc, ← mul_sub]
  have pair : ∀ j, term (2 * j) + term (2 * j + 1) = marker.poly *
      (const (gpow p (j + 1)) * signedDigitDecompose (ctz p.baseG) acc.b j -
        const (gpow p (j + 1)) * signedDigitDecompose (ctz p.baseG) acc.a j * z) := by
    intro j
    obtain ⟨even, odd⟩ := encryptRow_phase inside z (masks 0) j
    have first : term (2 * j) = signedDigitDecompose (ctz p.baseG) acc.a j * ((row (2 * j)).second - (row (2 * j)).first * z) := by
      simp only [term, if_pos (show 2 * j % 2 = 0 by omega), show 2 * j / 2 = j by omega]
    have second : term (2 * j + 1) =
        signedDigitDecompose (ctz p.baseG) acc.b j * ((row (2 * j + 1)).second - (row (2 * j + 1)).first * z) := by
      simp only [term, if_neg (show (2 * j + 1) % 2 ≠ 0 by omega), show (2 * j + 1) / 2 = j by omega]
    rw [first, second, even, odd]
    ring
  calc phase z (matrixProduct acc (value (encrypt p marker z fun _ => 0) masks))
      = ∑ l : Fin (digitsG2 p), term l := by
        change ∑ l, decompose acc l * (row l).second - (∑ l, decompose acc l * (row l).first) * z = _
        rw [Finset.sum_mul, ← Finset.sum_sub_distrib]
        exact Finset.sum_congr rfl fun l _ => rows l
    _ = ∑ j ∈ Finset.range (p.digitsG - 1), (term (2 * j) + term (2 * j + 1)) := by
        rw [← Finset.sum_range, digitsG2_eq, sum_pairs]
    _ = marker.poly * (recompose acc.b - recompose acc.a * z) := by
        rw [Finset.sum_congr rfl fun j _ => pair j, ← Finset.mul_sum, Finset.sum_sub_distrib, ← Finset.sum_mul]
        rfl

theorem keyGenAuto_value (z : Poly p) (e : ℕ → Poly p) (k : ℕ) (stream : ℕ → Poly p) (i : Fin (p.digitsG - 1)) :
    value (keyGenAuto p z e k) stream i =
      ⟨stream i, e i - const (gpow p (i + 1)) * substPow k z + stream i * z⟩ := by
  refine (forEach_value (fun _ => (fun _ _ => rfl : Asks _ 1)) stream i).trans ?_
  rw [mul_one, ← times_eq]
  rfl

section Operations
variable {w : NativeSize} (ok : Dyadic p) (z : Poly p) (acc : Acc p)
include ok

theorem addToAccDM_phase (many : 2 ≤ p.digitsG) (m : ℤ) (masks : ℕ → UniformDraw p) :
    ∃ next, addToAccDM (value (keyGenDM p z (fun _ => 0) m) masks) acc = .ok next ∧
      phase z next = xpow ((2 * p.N / p.q : ℕ) * m) * (recompose acc.b - recompose acc.a * z) := by
  refine ⟨_, (externalProduct_eq _ acc).trans (if_pos many), ?_⟩
  rw [keyGenDM, phase_matrixProduct (ofExponent_within (ok.exponentDM_lt m)), Marker.poly_ofExponent, ← xpow_natCast,
    xpow_congr (ok.exponentDM_modEq m)]

theorem addToAccLMKCDEY_phase (many : 2 ≤ p.digitsG) (m : ℤ) (masks : ℕ → UniformDraw p) :
    ∃ next, addToAccLMKCDEY (value (keyGenLMKCDEY p z (fun _ => 0) m) masks) acc = .ok next ∧
      phase z next = xpow ((2 * p.N / p.q : ℕ) * m) * (recompose acc.b - recompose acc.a * z) := by
  refine ⟨_, (externalProduct_eq _ acc).trans (if_pos many), ?_⟩
  rw [keyGenLMKCDEY, phase_matrixProduct (ofExponent_within (ok.exponentLMKCDEY_lt m)), Marker.poly_ofExponent, ← xpow_natCast,
    xpow_congr (ok.exponentLMKCDEY_modEq m)]

omit ok in
theorem phase_matrixProduct_bit {m : ℤ} (bit : m = 0 ∨ m = 1) (masks : ℕ → UniformDraw p) :
    phase z (matrixProduct acc (value (keyGenCGGI p z (fun _ => 0) m) masks)) =
      (m : Poly p) * (recompose acc.b - recompose acc.a * z) := by
  have pos := Nat.pos_of_ne_zero (NeZero.ne p.N)
  rcases bit with rfl | rfl
  · rw [keyGenCGGI, if_neg (by decide), phase_matrixProduct (show Marker.none.Within p.N from trivial), Marker.poly, Int.cast_zero]
  · rw [keyGenCGGI, if_pos (by decide), phase_matrixProduct (show (Marker.add 0).Within p.N from pos), Marker.poly, mono_zero, Int.cast_one]

theorem addToAccCGGI_phase_bits (large : 2 < p.Q) (fits : ¬ modulusTooLarge w p.Q) (many : 2 ≤ p.digitsG) {m1 m2 : ℤ}
    (bit1 : m1 = 0 ∨ m1 = 1) (bit2 : m2 = 0 ∨ m2 = 1) (masks1 masks2 : ℕ → UniformDraw p) {t : ℕ} (ht : t ≤ 2 * p.N) :
    ∃ next, addToAccDigitsCGGI w (value (keyGenCGGI p z (fun _ => 0) m1) masks1)
        (value (keyGenCGGI p z (fun _ => 0) m2) masks2) t acc = .ok next ∧
      phase z next = phase z acc +
        ((xpow t - 1) * (m1 : Poly p) + (xpow (-t) - 1) * (m2 : Poly p)) * (recompose acc.b - recompose acc.a * z) := by
  refine ⟨_, (addToAccDigitsCGGI_eq w many _ _ t acc).trans (addToAccCGGI_eq large fits ok ht _ _ acc), ?_⟩
  have first := phase_matrixProduct_bit z acc bit1 masks1
  have second := phase_matrixProduct_bit z acc bit2 masks2
  simp only [RLWECiphertext.phase] at first second ⊢
  linear_combination (xpow (t : ℤ) - 1) * first + (xpow (-(t : ℤ)) - 1) * second

/-- The automorphism also moves the secret, and the key brings it back. -/
theorem automorphism_phase {t : ℕ} (odd : t % 2 = 1) (draws : ℕ → Poly p) :
    ∃ next, automorphism t (value (keyGenAuto p z (fun _ => 0) t) draws) acc = .ok next ∧
      phase z next = substPow t acc.b - recompose (substPow t acc.a) * substPow t z := by
  have word : t % 2 ^ 32 ≡ t [MOD 2 * p.N] := by
    obtain ⟨i, hi, same⟩ := ok.eq_two_pow (dvd_refl (2 * p.N))
    exact Nat.mod_mod_of_dvd t (same ▸ pow_dvd_pow 2 hi)
  have key := keyGenAuto_value z (fun _ => 0) t draws
  let dcta : Fin (p.digitsG - 1) → Poly p := fun d => signedDigitDecompose (ctz p.baseG) (substPow t acc.a) d
  have run : automorphism t (value (keyGenAuto p z (fun _ => 0) t) draws) acc = .ok
      ⟨∑ d, dcta d * (value (keyGenAuto p z (fun _ => 0) t) draws d).first,
        substPow t acc.b + ∑ d, dcta d * (value (keyGenAuto p z (fun _ => 0) t) draws d).second⟩ := by
    rw [automorphism, if_neg (by omega), substPow_congr word, substPow_congr word]
    refine congrArg Except.ok ?_
    rw [addProductsInPlace_eq _ _ (List.nodup_finRange _) fun _ _ => rfl, addProducts_all, addProducts_all, zero_add]
  refine ⟨_, run, ?_⟩
  have rows : ∀ d : Fin (p.digitsG - 1), dcta d * (value (keyGenAuto p z (fun _ => 0) t) draws d).second -
      dcta d * (value (keyGenAuto p z (fun _ => 0) t) draws d).first * z =
        -(const (gpow p (d + 1)) * dcta d * substPow t z) := by
    intro d
    rw [key d]
    ring
  calc substPow t acc.b + ∑ d, dcta d * (value (keyGenAuto p z (fun _ => 0) t) draws d).second -
        (∑ d, dcta d * (value (keyGenAuto p z (fun _ => 0) t) draws d).first) * z
      = substPow t acc.b + ∑ d : Fin (p.digitsG - 1), -(const (gpow p (d + 1)) * dcta d * substPow t z) := by
        rw [add_sub_assoc, Finset.sum_mul, ← Finset.sum_sub_distrib, Finset.sum_congr rfl fun d _ => rows d]
    _ = substPow t acc.b - recompose (substPow t acc.a) * substPow t z := by
        rw [Finset.sum_neg_distrib, ← sub_eq_add_neg, ← Finset.sum_mul, recompose, Finset.sum_range]

end Operations

/-- What the four operations should do to a phase, with keys that were drawn without noise. -/
structure ActsOnPhase (w : NativeSize) (p : RingGSWCryptoParams) [NeZero p.N] (z : Poly p) : Prop where
  dm : ∀ (m : ℤ) (masks : ℕ → UniformDraw p) (acc : Acc p),
    ∃ next, addToAccDM (value (keyGenDM p z (fun _ => 0) m) masks) acc = .ok next ∧
      phase z next = xpow ((2 * p.N / p.q : ℕ) * m) * (recompose acc.b - recompose acc.a * z)
  lmkcdey : ∀ (m : ℤ) (masks : ℕ → UniformDraw p) (acc : Acc p),
    ∃ next, addToAccLMKCDEY (value (keyGenLMKCDEY p z (fun _ => 0) m) masks) acc = .ok next ∧
      phase z next = xpow ((2 * p.N / p.q : ℕ) * m) * (recompose acc.b - recompose acc.a * z)
  cggi : ∀ m1 m2 : ℤ, m1 = 0 ∨ m1 = 1 → m2 = 0 ∨ m2 = 1 → ∀ (masks1 masks2 : ℕ → UniformDraw p) (t : ℕ), t ≤ 2 * p.N →
    ∀ acc : Acc p, ∃ next, addToAccDigitsCGGI w (value (keyGenCGGI p z (fun _ => 0) m1) masks1)
        (value (keyGenCGGI p z (fun _ => 0) m2) masks2) t acc = .ok next ∧
      phase z next = phase z acc +
        ((xpow t - 1) * (m1 : Poly p) + (xpow (-t) - 1) * (m2 : Poly p)) * (recompose acc.b - recompose acc.a * z)
  automorphism : ∀ t : ℕ, t % 2 = 1 → ∀ (draws : ℕ → Poly p) (acc : Acc p),
    ∃ next, automorphism t (value (keyGenAuto p z (fun _ => 0) t) draws) acc = .ok next ∧
      phase z next = substPow t acc.b - recompose (substPow t acc.a) * substPow t z

theorem actsOnPhase_iff (ok : Dyadic p) {w : NativeSize} (large : 2 < p.Q) (fits : ¬ modulusTooLarge w p.Q) (z : Poly p) :
    ActsOnPhase w p z ↔ 2 ≤ p.digitsG := by
  constructor
  · intro acts
    obtain ⟨next, run, -⟩ := acts.dm 0 (fun _ _ => ⟨0, by omega⟩) ⟨0, 0⟩
    rw [addToAccDM, externalProduct_eq] at run
    split at run
    · assumption
    · cases run
  · intro many
    exact {
      dm := fun m masks acc => addToAccDM_phase ok z acc many m masks
      lmkcdey := fun m masks acc => addToAccLMKCDEY_phase ok z acc many m masks
      cggi := fun _ _ bit1 bit2 masks1 masks2 _ ht acc =>
        addToAccCGGI_phase_bits ok z acc large fits many bit1 bit2 masks1 masks2 ht
      automorphism := fun _ odd draws acc => automorphism_phase ok z acc odd draws }

end Sums

theorem halfTurnParams_actsOnPhase : ActsOnPhase .w64 halfTurnParams (mono 1) :=
  (actsOnPhase_iff halfTurnParams_admissible.dyadic halfTurnParams_admissible.large halfTurnParams_admissible.fits
    (mono 1)).mpr (by decide)

/-- `N = 4`, `Q = 17` and the base `32`, which has one digit. -/
def wideBaseParams : RingGSWCryptoParams :=
  { RingGSWCryptoParams.default with
    N := 4, Q := 17, q := 8, baseG := 32, digitsG := 1, Gpower := [1], baseR := 2, method := .GINX }

instance : NeZero wideBaseParams.N := ⟨by decide⟩

/-- The one digit is ignored, and `dct[0]` is read from an empty vector. -/
theorem wideBaseParams_not_actsOnPhase : Dyadic wideBaseParams ∧ ¬ ActsOnPhase .w64 wideBaseParams (mono 1) := by
  refine ⟨⟨⟨2, rfl⟩, by decide, by decide⟩, fun acts => ?_⟩
  obtain ⟨next, run, -⟩ := acts.dm 0 (fun _ _ => ⟨0, by decide⟩) ⟨0, 0⟩
  rw [addToAccDM, externalProduct_eq, if_neg (by decide)] at run
  cases run

end RingGSW
end MultiKeyFHE
