import MultiKeyFHE.KeyGen.RingGSW
import MultiKeyFHE.Native.Vector

/-!
# The single-key accumulators

`RingGSWAccumulatorDM` and `RingGSWAccumulatorCGGI`. The first writes `-a_i` in base `baseR` and has a key for every
digit at every place; the second has two keys for each coordinate and a table of `X^m - 1`. The external product
with a key is a parameter.
-/

namespace MultiKeyFHE
open Negacyclic NegPoly NativeInteger NativeVector Draws Sampler

namespace RingGSW
variable (p : RingGSWCryptoParams)

abbrev Acc : Type := RLWECiphertext p.N p.Q

variable {p}

abbrev phase (z : Poly p) (acc : Acc p) : Poly p := acc.phase z

/-- The inner products of the digits of an accumulator with the rows of a key. -/
abbrev Product (p : RingGSWCryptoParams) : Type := Acc p → EvalKey p → Acc p

def Multiplies (product : Product p) (z : Poly p) (key : EvalKey p) (m : Poly p) : Prop :=
  ∀ acc, phase z (product acc key) = phase z acc * m

/-- What the generators draw for the key with the given indices: the masks and the errors. -/
structure KeyDraw (p : RingGSWCryptoParams) where
  masks : ℕ → UniformDraw p
  errors : ℕ → Poly p

/-- The polynomial that a key holds. -/
def Marker.poly : Marker → Poly p
  | none => 0
  | add index => mono index
  | sub index => -mono index

def Marker.Within (N : ℕ) : Marker → Prop
  | none => True
  | add index => index < N
  | sub index => index < N

theorem ofExponent_within {N mm : ℕ} (below : mm < 2 * N) : (Marker.ofExponent N mm).Within N := by
  unfold Marker.ofExponent
  split
  · show mm - N < N
    omega
  · show mm < N
    omega

/-- Marking a polynomial adds what the marker holds, scaled. -/
theorem Marker.apply_eq [NeZero p.N] {marker : Marker} (inside : marker.Within p.N) (g : ZMod p.Q) (a : Poly p) :
    marker.apply g a = a + const g * marker.poly := by
  ext i
  rw [coeff_add, coeff_const_mul]
  cases marker with
  | none => simp [apply, poly]
  | add index =>
    by_cases here : i.val = index
    · simp [apply, poly, coeff_mono, here, Nat.mod_eq_of_lt inside, Nat.div_eq_of_lt inside]
    · simp [apply, poly, coeff_mono, here, Nat.mod_eq_of_lt inside]
  | sub index =>
    by_cases here : i.val = index
    · simp [apply, poly, coeff_mono, here, Nat.mod_eq_of_lt inside, Nat.div_eq_of_lt inside, sub_eq_add_neg]
    · simp [apply, poly, coeff_mono, here, Nat.mod_eq_of_lt inside]

/-! ### DM -/

/-- A conversion to `int32_t`. -/
def int32 (x : ℤ) : ℤ := x.bmod (2 ^ 32)

theorem int32_eq {x : ℤ} (low : -2 ^ 31 ≤ x) (high : x < 2 ^ 31) : int32 x = x :=
  Int.bmod_eq_of_le (by omega) (by omega)

theorem int32_cases (x : ℤ) :
    int32 x = x % 2 ^ 32 ∧ x % 2 ^ 32 < 2 ^ 31 ∨ int32 x = x % 2 ^ 32 - 2 ^ 32 ∧ 2 ^ 31 ≤ x % 2 ^ 32 := by
  rw [int32, Int.bmod_def]
  split <;> omega

/-- `s > modHalf ? s - mod : s`, for `v` modulo `qKS`. -/
def secretDM (qKS v : ℕ) : ℤ :=
  let mod := int32 qKS
  let s := int32 v
  if s > mod / 2 then int32 (s - mod) else s

variable (w : NativeSize) (p)

/-- The message of the key for digit `j` at place `k`. -/
def messageDM (qKS v j k : ℕ) : ℤ := int32 (int32 (secretDM qKS v * j) * int32 (mulIterate w p.baseR 1 k))

def keyGenAccDM {n : ℕ} (z : Poly p) (qKS : ℕ) (sv : Fin n → ℕ) (draw : Fin n → ℕ → ℕ → KeyDraw p) (i : Fin n) (j k : ℕ) :
    EvalKey p :=
  value (keyGenDM p z (draw i j k).errors (messageDM p w qKS (sv i) j k)) (draw i j k).masks

variable {p}

/-- The loop over the digits of `aI`, for the keys of one coordinate. -/
def digitsLoop (product : Product p) (ek : ℕ → ℕ → EvalKey p) : ℕ → ℕ → ℕ → Acc p → Acc p
  | 0, _, _, acc => acc
  | left + 1, k, aI, acc =>
    let a0 := aI % p.baseR
    digitsLoop product ek left (k + 1) (aI / p.baseR) (if a0 ≠ 0 then product acc (ek a0 k) else acc)

/-- `EvalAcc` for `digitsR` digits. The modulus is that of the parameters. -/
def evalAccDM {n : ℕ} (product : Product p) (digitsR : ℕ) (ek : Fin n → ℕ → ℕ → EvalKey p) (acc : Acc p)
    (a : Fin n → ℕ) : Acc p :=
  (List.finRange n).foldl (fun acc i => digitsLoop product (ek i) digitsR 0 (modSubFast w 0 (a i) p.q) acc) acc

/-! ### CGGI -/

variable (p)

/-- What the two keys of a coordinate with the value `v` encrypt: `s == 1 ? 1 : 0` and `s == neg ? 1 : 0`. -/
def messageCGGI (qKS v : ℕ) (negative : Bool) : ℤ := if v = (if negative then qKS - 1 else 1) then 1 else 0

def keyGenAccCGGI {n : ℕ} (z : Poly p) (qKS : ℕ) (sv : Fin n → ℕ) (draw : Bool → Fin n → KeyDraw p) (negative : Bool)
    (i : Fin n) : EvalKey p :=
  value (keyGenCGGI p z (draw negative i).errors (messageCGGI qKS (sv i) negative)) (draw negative i).masks

/-- `GetMonomial`. The table is filled as for the multi-key accumulators. -/
def getMonomial (index : ℕ) : Except Fault (Poly p) :=
  match (UniEncCryptoParams.monomialTable w p.N p.Q)[index]? with
  | some m => .ok m.toPoly
  | none => .error .outOfRange

variable {p}

def addToAccCGGI (product : Product p) (ek1 ek2 : EvalKey p) (a : ℕ) (acc : Acc p) : Except Fault (Acc p) := do
  let M := 2 * p.N % 2 ^ 32
  let indexPos := a % 2 ^ 32
  let monomial ← getMonomial p w (if indexPos = M then 0 else indexPos)
  let indexNeg := modSubFast w 0 a M % 2 ^ 32
  let monomialNeg ← getMonomial p w (if indexNeg = M then 0 else indexNeg)
  let pos := product acc ek1
  let neg := product acc ek2
  return ⟨acc.a + pos.a * monomial + neg.a * monomialNeg, acc.b + pos.b * monomial + neg.b * monomialNeg⟩

/-- `EvalAcc` for a vector modulo `mod`. -/
def evalAccCGGI {n : ℕ} (product : Product p) (ek : Bool → Fin n → EvalKey p) (mod : ℕ) (acc : Acc p) (a : Fin n → ℕ) :
    Except Fault (Acc p) :=
  (List.finRange n).foldlM (fun acc i =>
    addToAccCGGI w product (ek false i) (ek true i)
      (NativeInteger.mul w (modSubFast w 0 (a i) mod) (2 * p.N % 2 ^ 32 / mod)) acc) acc

/-! ### Exponents -/

/-- A ring of a power of two and an LWE modulus that divides `2N`, as the cores of bootstrapping need it. -/
structure Admissible (w : NativeSize) (p : RingGSWCryptoParams) : Prop where
  power : ∃ k, p.N = 2 ^ k
  narrow : 2 * p.N < 2 ^ 32
  divides : p.q ∣ 2 * p.N
  large : 2 < p.Q
  fits : ¬ modulusTooLarge w p.Q
  baseR : 2 ≤ p.baseR

/-- The step `2N / q` of an exponent: congruent numbers modulo `q` give congruent exponents modulo `2N`. -/
theorem scaled_modEq {c : ℕ} (hc : c ∣ 2 * p.N) {x y : ℤ} (same : x ≡ y [ZMOD c]) :
    ((2 * p.N / c : ℕ) : ℤ) * x ≡ (2 * p.N / c : ℕ) * y [ZMOD 2 * p.N] := by
  have whole : ((2 * p.N / c : ℕ) : ℤ) * c = 2 * p.N := by exact_mod_cast Nat.div_mul_cancel hc
  rw [← whole]
  exact same.mul_left'

/-- The part of `Admissible` that the exponents need. -/
structure Dyadic (p : RingGSWCryptoParams) : Prop where
  power : ∃ k, p.N = 2 ^ k
  narrow : 2 * p.N < 2 ^ 32
  divides : p.q ∣ 2 * p.N

namespace Dyadic
variable (ok : Dyadic p)
include ok

theorem N_pos : 0 < p.N := by
  obtain ⟨k, hk⟩ := ok.power
  rw [hk]
  exact Nat.two_pow_pos k

theorem eq_two_pow {c : ℕ} (hc : c ∣ 2 * p.N) : ∃ i, i ≤ 32 ∧ c = 2 ^ i := by
  obtain ⟨k, hk⟩ := ok.power
  rw [hk, ← pow_succ'] at hc
  obtain ⟨i, hi, same⟩ := (Nat.dvd_prime_pow Nat.prime_two).mp hc
  have narrow := ok.narrow
  rw [hk, ← pow_succ'] at narrow
  have := (Nat.pow_lt_pow_iff_right (show 1 < 2 by omega)).mp narrow
  exact ⟨i, by omega, same⟩

theorem q_pos : 0 < p.q := Nat.pos_of_dvd_of_pos ok.divides (by have := ok.N_pos; omega)

theorem q_dvd {bits : ℕ} (h : 32 ≤ bits) : p.q ∣ 2 ^ bits := by
  obtain ⟨i, hi, same⟩ := ok.eq_two_pow ok.divides
  rw [same]
  exact pow_dvd_pow 2 (by omega)

theorem modEq_of_word {bits : ℕ} (h : 32 ≤ bits) {x y : ℤ} (same : x ≡ y [ZMOD 2 ^ bits]) : x ≡ y [ZMOD p.q] :=
  same.of_dvd (by exact_mod_cast ok.q_dvd h)

theorem int32_modEq (x : ℤ) : int32 x ≡ x [ZMOD p.q] :=
  ok.modEq_of_word (le_refl 32) (by exact_mod_cast (Int.bmod_emod : Int.bmod x (2 ^ 32) % (2 ^ 32 : ℕ) = _))

theorem scaled_dvd_iff {c : ℕ} (hc : c ∣ 2 * p.N) (x : ℤ) :
    (2 * p.N : ℤ) ∣ (2 * p.N / c : ℕ) * x ↔ (c : ℤ) ∣ x := by
  have whole : ((2 * p.N / c : ℕ) : ℤ) * c = 2 * p.N := by exact_mod_cast Nat.div_mul_cancel hc
  have pos := ok.N_pos
  have step : ((2 * p.N / c : ℕ) : ℤ) ≠ 0 := by
    intro zero
    rw [zero, zero_mul] at whole
    omega
  rw [← whole]
  exact mul_dvd_mul_iff_left step

theorem exponentDM_modEq (m : ℤ) : (exponentDM p m : ℤ) ≡ (2 * p.N / p.q : ℕ) * m [ZMOD 2 * p.N] := by
  have reduced : ((((m % 2 ^ 64).toNat % p.q + p.q) % p.q : ℕ) : ℤ) ≡ m [ZMOD p.q] := by
    have word : ((m % 2 ^ 64).toNat : ℤ) ≡ m [ZMOD p.q] := by
      rw [Int.toNat_of_nonneg (Int.emod_nonneg m (by norm_num))]
      exact ok.modEq_of_word (show 32 ≤ 64 by omega) (Int.mod_modEq _ _)
    push_cast
    exact (Int.mod_modEq _ _).trans ((Int.add_modulus_modEq_iff).mpr ((Int.mod_modEq _ _).trans word))
  rw [exponentDM, Nat.mod_eq_of_lt ok.narrow, Nat.cast_mul, mul_comm (_ : ℤ) ((2 * p.N / p.q : ℕ) : ℤ)]
  exact scaled_modEq ok.divides reduced

omit ok in
theorem exponentLMKCDEY_eq (m : ℤ) : exponentLMKCDEY p m = (m % p.q).toNat * (2 * p.N / p.q) := by
  have reduced : (m.tmod p.q + p.q) % p.q = m % p.q := by
    conv_rhs => rw [← Int.mul_tdiv_add_tmod m p.q]
    rw [Int.add_emod_right, Int.mul_add_emod_self_left]
  rw [exponentLMKCDEY, reduced]

theorem exponentLMKCDEY_modEq (m : ℤ) : (exponentLMKCDEY p m : ℤ) ≡ (2 * p.N / p.q : ℕ) * m [ZMOD 2 * p.N] := by
  have pos : (0 : ℤ) < p.q := by exact_mod_cast ok.q_pos
  rw [exponentLMKCDEY_eq, Nat.cast_mul, Int.toNat_of_nonneg (Int.emod_nonneg _ pos.ne'), mul_comm (_ : ℤ) ((2 * p.N / p.q : ℕ) : ℤ)]
  exact scaled_modEq ok.divides (Int.mod_modEq _ _)

theorem exponentLMKCDEY_lt (m : ℤ) : exponentLMKCDEY p m < 2 * p.N := by
  have pos : (0 : ℤ) < p.q := by exact_mod_cast ok.q_pos
  have step : 0 < 2 * p.N / p.q :=
    Nat.div_pos (Nat.le_of_dvd (by have := ok.N_pos; omega) ok.divides) ok.q_pos
  have below := Int.emod_lt_of_pos m pos
  rw [exponentLMKCDEY_eq]
  calc (m % p.q).toNat * (2 * p.N / p.q) < p.q * (2 * p.N / p.q) := Nat.mul_lt_mul_of_pos_right (by omega) step
    _ = 2 * p.N := Nat.mul_div_cancel' ok.divides

theorem exponentDM_lt (m : ℤ) : exponentDM p m < 2 * p.N := by
  have step : 0 < 2 * p.N / p.q :=
    Nat.div_pos (Nat.le_of_dvd (by have := ok.N_pos; omega) ok.divides) ok.q_pos
  calc exponentDM p m < p.q * (2 * p.N / p.q) := by
        rw [exponentDM, Nat.mod_eq_of_lt ok.narrow]
        exact Nat.mul_lt_mul_of_pos_right (Nat.mod_lt _ ok.q_pos) step
    _ = 2 * p.N := Nat.mul_div_cancel' ok.divides

theorem word_le (w : NativeSize) : 2 * p.N ≤ 2 ^ w.bits :=
  ok.narrow.le.trans (Nat.pow_le_pow_right (by omega) (by cases w <;> decide))

end Dyadic

theorem Admissible.dyadic {w : NativeSize} (ok : Admissible w p) : Dyadic p := ⟨ok.power, ok.narrow, ok.divides⟩

namespace Admissible
variable {w} (ok : Admissible w p)
include ok

theorem one_ne_neg_one : (1 : ZMod p.Q) ≠ -1 := by
  intro h
  have two : ((2 : ℕ) : ZMod p.Q) = 0 := by
    push_cast
    linear_combination h
  have := Nat.le_of_dvd (by omega) ((ZMod.natCast_eq_zero_iff 2 p.Q).mp two)
  have := ok.large
  omega

theorem xpow_eq_iff [NeZero p.N] (x y : ℤ) : (xpow x : Poly p) = xpow y ↔ (2 * p.N : ℤ) ∣ x - y :=
  ⟨fun h => (modEq_of_xpow_eq ok.one_ne_neg_one h).symm.dvd, fun h => xpow_congr (Int.modEq_iff_dvd.mpr h).symm⟩

theorem mulIterate_modEq (base k : ℕ) : (mulIterate w base 1 k : ℤ) ≡ (base : ℤ) ^ k [ZMOD p.q] := by
  have wide : 32 ≤ w.bits := by cases w <;> decide
  induction k with
  | zero => exact Int.ModEq.refl _
  | succ k ih =>
    have cut : (mulIterate w base 1 (k + 1) : ℤ) ≡ mulIterate w base 1 k * base [ZMOD p.q] := by
      refine ok.dyadic.modEq_of_word wide ?_
      rw [mulIterate, NativeInteger.mul, wrap, Int.natCast_mod]
      push_cast
      exact Int.mod_modEq _ _
    rw [pow_succ]
    exact cut.trans (ih.mul_right _)

theorem messageDM_modEq (qKS v j k : ℕ) :
    messageDM p w qKS v j k ≡ secretDM qKS v * (j * p.baseR ^ k : ℕ) [ZMOD p.q] := by
  rw [messageDM]
  refine (ok.dyadic.int32_modEq _).trans ?_
  have product := (ok.dyadic.int32_modEq (secretDM qKS v * j)).mul
    ((ok.dyadic.int32_modEq (mulIterate w p.baseR 1 k)).trans (ok.mulIterate_modEq p.baseR k))
  push_cast
  rwa [mul_assoc] at product

theorem index_eq {c : ℕ} (hc : c ∣ 2 * p.N) {a : ℕ} (ha : a < c) :
    NativeInteger.mul w (modSubFast w 0 a c) (2 * p.N % 2 ^ 32 / c) = modSubFast w 0 a c * (2 * p.N / c) ∧
      modSubFast w 0 a c * (2 * p.N / c) < 2 * p.N := by
  have pos : 0 < 2 * p.N := by have := ok.dyadic.N_pos; omega
  have le := Nat.le_of_dvd pos hc
  have below : modSubFast w 0 a c < c := modSubFast_lt (by omega) ha (le.trans (ok.dyadic.word_le w))
  have step : 0 < 2 * p.N / c := Nat.div_pos le (by omega)
  have bound : modSubFast w 0 a c * (2 * p.N / c) < 2 * p.N := by
    calc modSubFast w 0 a c * (2 * p.N / c) < c * (2 * p.N / c) := Nat.mul_lt_mul_of_pos_right below step
      _ = 2 * p.N := Nat.mul_div_cancel' hc
  refine ⟨?_, bound⟩
  rw [Nat.mod_eq_of_lt ok.narrow, NativeInteger.mul, wrap, Nat.mod_eq_of_lt (bound.trans_le (ok.dyadic.word_le w))]

theorem index_modEq {c : ℕ} (hc : c ∣ 2 * p.N) {a : ℕ} (ha : a < c) :
    ((modSubFast w 0 a c * (2 * p.N / c) : ℕ) : ℤ) ≡ -((2 * p.N / c : ℕ) * a) [ZMOD 2 * p.N] := by
  have le := Nat.le_of_dvd (by have := ok.dyadic.N_pos; omega) hc
  have neg := modSubFast_cast (w := w) (show 0 < c by omega) ha (le.trans (ok.dyadic.word_le w))
  rw [Nat.cast_zero, zero_sub] at neg
  rw [Nat.cast_mul, mul_comm (modSubFast w 0 a c : ℤ), ← mul_neg]
  exact scaled_modEq hc neg

end Admissible

/-! ### The rotation of DM -/

section DM
variable {w} [NeZero p.N] {product : Product p} {z : Poly p}

theorem Marker.poly_ofExponent (mm : ℕ) : (Marker.ofExponent p.N mm).poly = (mono mm : Poly p) := by
  unfold Marker.ofExponent
  split
  · rename_i large
    rw [Marker.poly, mono_eq_neg large]
  · rfl

/-- A key of KeyGenDM holds the power of `X` with its message as exponent. -/
theorem poly_messageDM (ok : Admissible w p) (qKS v j k : ℕ) :
    (Marker.ofExponent p.N (exponentDM p (messageDM p w qKS v j k))).poly =
      (xpow ((2 * p.N / p.q : ℕ) * (secretDM qKS v * (j * p.baseR ^ k : ℕ))) : Poly p) := by
  rw [Marker.poly_ofExponent, ← xpow_natCast]
  refine xpow_congr ((ok.dyadic.exponentDM_modEq _).trans ?_)
  exact scaled_modEq ok.divides (ok.messageDM_modEq qKS v j k)

/-- The digits of `aI` from place `k` on add up to its remainder modulo the power of the base. -/
theorem phase_digitsLoop {ek : ℕ → ℕ → EvalKey p} {step secret : ℤ} {places : ℕ}
    (law : ∀ j k, 0 < j → j < p.baseR → k < places →
      Multiplies product z (ek j k) (xpow (step * (secret * (j * p.baseR ^ k : ℕ)))))
    (hR : 0 < p.baseR) (left k aI : ℕ) (acc : Acc p) (inside : k + left ≤ places) :
    phase z (digitsLoop product ek left k aI acc) =
      phase z acc * xpow (step * (secret * (p.baseR ^ k * (aI % p.baseR ^ left) : ℕ))) := by
  induction left generalizing k aI acc with
  | zero => simp [digitsLoop, Nat.mod_one]
  | succ left ih =>
    rw [digitsLoop, ih _ _ _ (by omega)]
    have digit : phase z (if aI % p.baseR ≠ 0 then product acc (ek (aI % p.baseR) k) else acc) =
        phase z acc * xpow (step * (secret * (aI % p.baseR * p.baseR ^ k : ℕ))) := by
      by_cases zero : aI % p.baseR = 0
      · simp [zero]
      · rw [if_pos zero]
        exact law _ _ (Nat.pos_of_ne_zero zero) (Nat.mod_lt _ hR) (by omega) acc
    rw [digit, mul_assoc, ← xpow_add]
    congr 2
    rw [← mul_add, ← mul_add, ← Nat.cast_add, pow_succ p.baseR left, mul_comm (p.baseR ^ left), Nat.mod_mul]
    congr 3
    ring

/-- `-a` in the words of `EvalAcc`, cut to the digits that there are. -/
def shiftDM (p : RingGSWCryptoParams) (w : NativeSize) (digitsR a : ℕ) : ℕ := modSubFast w 0 a p.q % p.baseR ^ digitsR

/-- The keys multiply by what they hold. -/
def MultipliesDM {n : ℕ} (w : NativeSize) (product : Product p) (z : Poly p) (qKS : ℕ) (sv : Fin n → ℕ) (digitsR : ℕ)
    (ek : Fin n → ℕ → ℕ → EvalKey p) : Prop :=
  ∀ i j k, 0 < j → j < p.baseR → k < digitsR →
    Multiplies product z (ek i j k) (Marker.ofExponent p.N (exponentDM p (messageDM p w qKS (sv i) j k))).poly

/-- What the digits of the coordinate `a` multiply the phase by, for the value `v` of the secret. -/
def updateDM (p : RingGSWCryptoParams) (w : NativeSize) (qKS v digitsR a : ℕ) : Poly p :=
  xpow ((2 * p.N / p.q : ℕ) * (secretDM qKS v * shiftDM p w digitsR a))

theorem phase_evalAccDM (ok : Admissible w p) {n : ℕ} {qKS : ℕ} {sv : Fin n → ℕ} {digitsR : ℕ}
    {ek : Fin n → ℕ → ℕ → EvalKey p} (law : MultipliesDM w product z qKS sv digitsR ek) (acc : Acc p) (a : Fin n → ℕ) :
    phase z (evalAccDM w product digitsR ek acc a) = phase z acc * ∏ i, updateDM p w qKS (sv i) digitsR (a i) := by
  rw [evalAccDM, Fin.prod_univ_def]
  induction List.finRange n generalizing acc with
  | nil => simp
  | cons i rest ih =>
    rw [List.foldl_cons, ih, List.map_cons, List.prod_cons, ← mul_assoc]
    congr 1
    have held : ∀ j k, 0 < j → j < p.baseR → k < digitsR →
        Multiplies product z (ek i j k)
          (xpow ((2 * p.N / p.q : ℕ) * (secretDM qKS (sv i) * (j * p.baseR ^ k : ℕ)))) := by
      intro j k hj hjR hk
      rw [← poly_messageDM ok qKS (sv i) j k]
      exact law i j k hj hjR hk
    rw [phase_digitsLoop held (by have := ok.baseR; omega) digitsR 0 _ acc (by omega), pow_zero, one_mul]
    rfl

end DM

/-! ### The rotation of CGGI -/

section CGGI
variable {w} [NeZero p.N] {product : Product p} {z : Poly p}

section Monomials
variable (large : 2 < p.Q) (fits : ¬ modulusTooLarge w p.Q)
include large fits

theorem getMonomial_eq {index : ℕ} (hi : index < 2 * p.N) : getMonomial p w index = .ok (xpow index - 1) := by
  have hw := lt_of_not_tooLarge fits
  obtain ⟨m, found, value⟩ := UniEncCryptoParams.monomialTable_toPoly (w := w) large (by omega) hi
  rw [getMonomial, found, xpow_natCast]
  exact congrArg Except.ok value

theorem monomials_eq (ok : Dyadic p) {index : ℕ} (hi : index ≤ 2 * p.N) :
    getMonomial p w (if index % 2 ^ 32 = 2 * p.N % 2 ^ 32 then 0 else index % 2 ^ 32) = .ok (xpow index - 1) ∧
      getMonomial p w (if modSubFast w 0 index (2 * p.N % 2 ^ 32) % 2 ^ 32 = 2 * p.N % 2 ^ 32 then 0
        else modSubFast w 0 index (2 * p.N % 2 ^ 32) % 2 ^ 32) = .ok (xpow (-index) - 1) := by
  have narrow := ok.narrow
  have pos := ok.N_pos
  rw [Nat.mod_eq_of_lt narrow, Nat.mod_eq_of_lt (show index < 2 ^ 32 by omega)]
  rcases hi.lt_or_eq with inside | rfl
  · have negLt : modSubFast w 0 index (2 * p.N) < 2 * p.N := modSubFast_lt (by omega) inside (ok.word_le w)
    have negModEq := modSubFast_cast (w := w) (show 0 < 2 * p.N by omega) inside (ok.word_le w)
    rw [Nat.cast_zero, zero_sub] at negModEq
    refine ⟨?_, ?_⟩
    · rw [if_neg (by omega), getMonomial_eq large fits inside]
    · rw [Nat.mod_eq_of_lt (show modSubFast w 0 index (2 * p.N) < 2 ^ 32 by omega), if_neg (by omega),
        getMonomial_eq large fits negLt, xpow_congr (by exact_mod_cast negModEq)]
  · have none : modSubFast w 0 (2 * p.N) (2 * p.N) = 0 := by
      rw [modSubFast, if_pos (by omega), zero_add, Nat.add_sub_cancel_left, wrap, Nat.mod_self]
    have whole : ((2 * p.N : ℕ) : ℤ) ≡ 0 [ZMOD 2 * p.N] := Int.modEq_zero_iff_dvd.mpr (by push_cast; exact dvd_rfl)
    have whole' : -((2 * p.N : ℕ) : ℤ) ≡ 0 [ZMOD 2 * p.N] := by simpa using whole.neg
    refine ⟨?_, ?_⟩
    · rw [if_pos rfl, getMonomial_eq large fits (by omega), xpow_congr whole, Nat.cast_zero]
    · rw [none, Nat.zero_mod, if_neg (by omega), getMonomial_eq large fits (by omega), xpow_congr whole', Nat.cast_zero]

theorem addToAccCGGI_eq (ok : Dyadic p) {index : ℕ} (hi : index ≤ 2 * p.N) (ek1 ek2 : EvalKey p) (acc : Acc p) :
    addToAccCGGI w product ek1 ek2 index acc = .ok
      ⟨acc.a + (product acc ek1).a * (xpow index - 1) + (product acc ek2).a * (xpow (-index) - 1),
        acc.b + (product acc ek1).b * (xpow index - 1) + (product acc ek2).b * (xpow (-index) - 1)⟩ := by
  obtain ⟨pos, neg⟩ := monomials_eq large fits ok hi
  rw [addToAccCGGI]
  dsimp only
  rw [pos, neg]
  rfl

end Monomials

/-- What an update multiplies the phase by, for the two marked messages and the exponent `t`. -/
def factor (m1 m2 : Poly p) (t : ℤ) : Poly p := 1 + m1 * (xpow t - 1) + m2 * (xpow (-t) - 1)

omit [NeZero p.N] in
theorem factor_congr {m1 m2 : Poly p} {t t' : ℤ} (same : t ≡ t' [ZMOD 2 * p.N]) : factor m1 m2 t = factor m1 m2 t' := by
  rw [factor, factor, xpow_congr same, xpow_congr same.neg]

theorem addToAccCGGI_phase (ok : Admissible w p) {ek1 ek2 : EvalKey p} {m1 m2 : Poly p}
    (law1 : Multiplies product z ek1 m1) (law2 : Multiplies product z ek2 m2) {index : ℕ} (hi : index < 2 * p.N)
    (acc : Acc p) :
    ∃ acc', addToAccCGGI w product ek1 ek2 index acc = .ok acc' ∧ phase z acc' = phase z acc * factor m1 m2 index := by
  refine ⟨_, addToAccCGGI_eq ok.large ok.fits ok.dyadic hi.le ek1 ek2 acc, ?_⟩
  have first := law1 acc
  have second := law2 acc
  simp only [RLWECiphertext.phase, factor] at first second ⊢
  linear_combination (xpow (index : ℤ) - 1) * first + (xpow (-(index : ℤ)) - 1) * second

/-- The keys multiply by the bits that they encrypt. -/
def MultipliesCGGI {n : ℕ} (product : Product p) (z : Poly p) (qKS : ℕ) (sv : Fin n → ℕ)
    (ek : Bool → Fin n → EvalKey p) : Prop :=
  ∀ negative i, Multiplies product z (ek negative i) ((messageCGGI qKS (sv i) negative : ℤ) : Poly p)

/-- What the update for the value `v` and the coordinate `a` modulo `c` multiplies the phase by. -/
def updateCGGI (p : RingGSWCryptoParams) [NeZero p.N] (qKS v c a : ℕ) : Poly p :=
  factor (messageCGGI qKS v false : ℤ) (messageCGGI qKS v true : ℤ) (-((2 * p.N / c : ℕ) * a))

theorem phase_evalAccCGGI (ok : Admissible w p) {n : ℕ} {qKS c : ℕ} (hc : c ∣ 2 * p.N) {sv : Fin n → ℕ}
    {ek : Bool → Fin n → EvalKey p} (law : MultipliesCGGI product z qKS sv ek) (acc : Acc p) {a : Fin n → ℕ}
    (ha : ∀ i, a i < c) :
    ∃ acc', evalAccCGGI w product ek c acc a = .ok acc' ∧
      phase z acc' = phase z acc * ∏ i, updateCGGI p qKS (sv i) c (a i) := by
  rw [evalAccCGGI, Fin.prod_univ_def]
  induction List.finRange n generalizing acc with
  | nil => exact ⟨acc, rfl, by simp⟩
  | cons i rest ih =>
    obtain ⟨exact_index, below⟩ := ok.index_eq hc (ha i)
    obtain ⟨next, ran, turned⟩ := addToAccCGGI_phase ok (law false i) (law true i) below acc
    obtain ⟨last, rest_ran, rest_turned⟩ := ih next
    refine ⟨last, ?_, ?_⟩
    · rw [List.foldlM_cons, exact_index, ran]
      exact rest_ran
    · rw [rest_turned, turned, List.map_cons, List.prod_cons, ← mul_assoc, updateCGGI,
        factor_congr (ok.index_modEq hc (ha i))]

end CGGI

/-! ### Where they rotate alike -/

section Coordinate
variable {w} {qKS v digitsR c : ℕ}

/-- The rotation for the coordinate `a` modulo `c` and the value `v` of a secret modulo `qKS`. -/
def rotation (p : RingGSWCryptoParams) (qKS v c a : ℕ) : Poly p := xpow (-((2 * p.N / c : ℕ) * (a * centered qKS v)))

/-- The shift misses `-a` by a multiple of `q` up to `q`, and by what the digits lose above. -/
theorem shiftDM_add (ok : Admissible w p) (room : p.q ≤ p.baseR ^ digitsR) {a : ℕ} (secret : ℤ) (ha : a < 2 * p.N) :
    (p.q : ℤ) ∣ secret * (shiftDM p w digitsR a + a) ↔
      (p.q < a → (p.q : ℤ) ∣ secret * (p.baseR ^ digitsR * ((2 ^ w.bits + p.q - a) / p.baseR ^ digitsR) : ℕ)) := by
  have word := ok.dyadic.word_le w
  have le := Nat.le_of_dvd (by have := ok.dyadic.N_pos; omega) ok.divides
  have pos := ok.dyadic.q_pos
  rcases Nat.eq_zero_or_pos a with rfl | ha0
  · simp [shiftDM, modSubFast]
  have shift : modSubFast w 0 a p.q = (2 ^ w.bits + p.q - a) % 2 ^ w.bits := by
    rw [modSubFast, if_pos ha0, wrap, zero_add, add_comm p.q]
  rcases Nat.lt_or_ge p.q a with above | below
  · have inside : 2 ^ w.bits + p.q - a < 2 ^ w.bits := by omega
    rw [shiftDM, shift, Nat.mod_eq_of_lt inside]
    have split := Nat.mod_add_div (2 ^ w.bits + p.q - a) (p.baseR ^ digitsR)
    obtain ⟨t, ht⟩ := ok.dyadic.q_dvd (show 32 ≤ w.bits by cases w <;> decide)
    have total : (((2 ^ w.bits + p.q - a) % p.baseR ^ digitsR : ℕ) : ℤ) + a =
        p.q * (t + 1) - (p.baseR ^ digitsR * ((2 ^ w.bits + p.q - a) / p.baseR ^ digitsR) : ℕ) := by
      have cast : ((2 ^ w.bits + p.q - a : ℕ) : ℤ) = p.q * (t + 1) - a := by
        rw [Nat.cast_sub (by omega), Nat.cast_add, ht]
        push_cast
        ring
      have parts := congrArg (Nat.cast (R := ℤ)) split
      rw [Nat.cast_add] at parts
      linear_combination parts + cast
    rw [total, mul_sub, dvd_sub_right (Dvd.dvd.mul_left (Dvd.intro _ rfl) _)]
    exact ⟨fun h _ => h, fun h => h above⟩
  · have inside : 2 ^ w.bits + p.q - a = p.q - a + 2 ^ w.bits := by omega
    rw [shiftDM, shift, inside, Nat.add_mod_right, Nat.mod_eq_of_lt (show p.q - a < 2 ^ w.bits by omega),
      Nat.mod_eq_of_lt (by omega), ← Nat.cast_add, Nat.sub_add_cancel below]
    exact ⟨fun _ h => absurd h (by omega), fun _ => Dvd.intro_left _ rfl⟩

/-- Where the digits of DM rotate a coordinate modulo `c` by what they should: the step `2N / q` of the keys takes
the value that they were made for to where the step `2N / c` takes the secret. -/
def ReadsDM (p : RingGSWCryptoParams) (w : NativeSize) (qKS v digitsR c : ℕ) : Prop :=
  c = 1 ∨ ((2 * p.N : ℤ) ∣ (2 * p.N / c : ℕ) * centered qKS v - (2 * p.N / p.q : ℕ) * secretDM qKS v ∧
    ∀ a, p.q < a → a < c →
      (p.q : ℤ) ∣ secretDM qKS v * (p.baseR ^ digitsR * ((2 ^ w.bits + p.q - a) / p.baseR ^ digitsR) : ℕ))

theorem secretDM_eq (small : qKS < 2 ^ 31) (hv : v < qKS) : secretDM qKS v = centered qKS v := by
  have hmod : int32 qKS = qKS := int32_eq (by omega) (by omega)
  have hval : int32 v = v := int32_eq (by omega) (by omega)
  rw [secretDM, hmod, hval, centered]
  have half : (v : ℤ) > qKS / 2 ↔ v > qKS / 2 := by omega
  simp only [half]
  split
  · exact int32_eq (by omega) (by omega)
  · rfl

/-- A step and a coarser one take a number to the same exponent only where the finer one takes it to zero. -/
theorem dvd_of_steps_agree (ok : Admissible w p) {d t : ℕ} (he : d * t ∣ 2 * p.N) (ht : t ≠ 1) {x : ℤ}
    (h : (2 * p.N : ℤ) ∣ (2 * p.N / d : ℕ) * x - (2 * p.N / (d * t) : ℕ) * x) : ((d * t : ℕ) : ℤ) ∣ x := by
  obtain ⟨i, -, hi⟩ := ok.dyadic.eq_two_pow ((dvd_mul_left t d).trans he)
  obtain ⟨j, -, hj⟩ := ok.dyadic.eq_two_pow he
  have finer : 2 * p.N / d = 2 * p.N / (d * t) * t := by
    have : t ∣ 2 * p.N / d := (Nat.dvd_div_iff_mul_dvd ((dvd_mul_right d t).trans he)).mpr he
    rw [← Nat.div_div_eq_div_mul, Nat.div_mul_cancel this]
  have odd : IsCoprime ((d * t : ℕ) : ℤ) (t - 1) := by
    have i_pos : i ≠ 0 := fun zero => ht (by rw [hi, zero, pow_zero])
    rw [hj, hi]
    push_cast
    refine IsCoprime.pow_left ?_
    obtain ⟨i', rfl⟩ := Nat.exists_eq_succ_of_ne_zero i_pos
    exact ⟨2 ^ i', -1, by rw [pow_succ]; ring⟩
  refine odd.dvd_of_dvd_mul_left ((ok.dyadic.scaled_dvd_iff he _).mp ?_)
  rw [finer] at h
  convert h using 1
  push_cast
  ring

theorem steps_agree_iff (ok : Admissible w p) (hc : c ∣ 2 * p.N) (differ : c ≠ p.q) (x : ℤ) :
    (2 * p.N : ℤ) ∣ (2 * p.N / c : ℕ) * x - (2 * p.N / p.q : ℕ) * x ↔ (c : ℤ) ∣ x ∧ (p.q : ℤ) ∣ x := by
  refine ⟨fun h => ?_, fun h => dvd_sub ((ok.dyadic.scaled_dvd_iff hc x).mpr h.1) ((ok.dyadic.scaled_dvd_iff ok.divides x).mpr h.2)⟩
  obtain ⟨i, -, hi⟩ := ok.dyadic.eq_two_pow hc
  obtain ⟨j, -, hj⟩ := ok.dyadic.eq_two_pow ok.divides
  have nested : c ∣ p.q ∨ p.q ∣ c := by
    rw [hi, hj]
    exact (le_total i j).imp (pow_dvd_pow 2) (pow_dvd_pow 2)
  rcases nested with ⟨t, ht⟩ | ⟨t, ht⟩
  · have other : t ≠ 1 := fun one => differ (by rw [ht, one, mul_one])
    have whole : (p.q : ℤ) ∣ x := by
      rw [ht] at h ⊢
      exact dvd_of_steps_agree ok (ht ▸ ok.divides) other h
    exact ⟨(Int.natCast_dvd_natCast.mpr (Dvd.intro t ht.symm)).trans whole, whole⟩
  · have other : t ≠ 1 := fun one => differ (by rw [ht, one, mul_one])
    have whole : (c : ℤ) ∣ x := by
      rw [ht] at h ⊢
      exact dvd_of_steps_agree ok (ht ▸ hc) other ((dvd_sub_comm).mp h)
    exact ⟨whole, (Int.natCast_dvd_natCast.mpr (Dvd.intro t ht.symm)).trans whole⟩

/-- Where the key switching modulus fits `int32_t`, DM is right for the modulus of the parameters and for secrets
that both moduli divide. -/
theorem readsDM_iff (ok : Admissible w p) (hc : c ∣ 2 * p.N) (small : qKS < 2 ^ 31) (hv : v < qKS) :
    ReadsDM p w qKS v digitsR c ↔ c = 1 ∨ c = p.q ∨ ((c : ℤ) ∣ centered qKS v ∧ (p.q : ℤ) ∣ centered qKS v) := by
  rw [ReadsDM, secretDM_eq small hv]
  by_cases same : c = p.q
  · subst same
    simp only [sub_self, dvd_zero, true_and, true_or, or_true, iff_true]
    exact .inr fun a above below => absurd above (by omega)
  · rw [steps_agree_iff ok hc same]
    simp only [same, false_or]
    exact or_congr_right ⟨fun h => h.1, fun h => ⟨h, fun _ _ _ => h.2.mul_right _⟩⟩

/-- Where the two keys of CGGI rotate a coordinate by what they should: they know the values `1` and `-1`, and leave
the accumulator alone for every other. -/
def ReadsCGGI (qKS v c : ℕ) : Prop :=
  c = 1 ∨ (2 < qKS ∧ (centered qKS v = 1 ∨ centered qKS v = -1)) ∨ (1 < qKS ∧ (c : ℤ) ∣ centered qKS v)

variable [NeZero p.N]

theorem updateDM_eq_iff (ok : Admissible w p) (room : p.q ≤ p.baseR ^ digitsR) (hc : c ∣ 2 * p.N) :
    (∀ a, a < c → updateDM p w qKS v digitsR a = rotation p qKS v c a) ↔ ReadsDM p w qKS v digitsR c := by
  have le := Nat.le_of_dvd (by have := ok.dyadic.N_pos; omega) hc
  -- the exponents differ by what the shift misses and by `a` times the difference of the two steps
  have single : ∀ a, updateDM p w qKS v digitsR a = rotation p qKS v c a ↔
      (2 * p.N : ℤ) ∣ (2 * p.N / p.q : ℕ) * (secretDM qKS v * (shiftDM p w digitsR a + a)) +
        a * ((2 * p.N / c : ℕ) * centered qKS v - (2 * p.N / p.q : ℕ) * secretDM qKS v) := by
    intro a
    rw [updateDM, rotation, ok.xpow_eq_iff]
    refine iff_of_eq (congrArg _ ?_)
    ring
  have missed : ∀ a, a < c → ((2 * p.N : ℤ) ∣ (2 * p.N / p.q : ℕ) * (secretDM qKS v * (shiftDM p w digitsR a + a)) ↔
      (p.q < a → (p.q : ℤ) ∣
        secretDM qKS v * (p.baseR ^ digitsR * ((2 ^ w.bits + p.q - a) / p.baseR ^ digitsR) : ℕ))) := by
    intro a ha
    rw [ok.dyadic.scaled_dvd_iff ok.divides, shiftDM_add ok room _ (by omega)]
  constructor
  · intro right
    by_cases one : c = 1
    · exact .inl one
    have pos : 0 < c := Nat.pos_of_dvd_of_pos hc (by have := ok.dyadic.N_pos; omega)
    have q_pos := ok.dyadic.q_pos
    -- at `a = 1` nothing is lost, so that the steps agree
    have steps := (single 1).mp (right 1 (by omega))
    rw [dvd_add_right ((missed 1 (by omega)).mpr fun h => absurd h (by omega)), Nat.cast_one, one_mul] at steps
    refine .inr ⟨steps, fun a above ha => (missed a ha).mp ?_ above⟩
    exact (dvd_add_left (steps.mul_left _)).mp ((single a).mp (right a ha))
  · rintro (rfl | ⟨steps, kept⟩) a ha
    · obtain rfl : a = 0 := by omega
      simp [updateDM, rotation, shiftDM, modSubFast]
    · exact (single a).mpr (dvd_add ((missed a ha).mpr fun above => kept a above ha) (steps.mul_left _))

theorem updateCGGI_other (plus : v ≠ 1) (minus : v ≠ qKS - 1) (a : ℕ) : updateCGGI p qKS v c a = 1 := by
  simp [updateCGGI, factor, messageCGGI, plus, minus]

theorem updateCGGI_plus (wide : 2 < qKS) (a : ℕ) : updateCGGI p qKS 1 c a = rotation p qKS 1 c a := by
  have other : ¬ 1 = qKS - 1 := by omega
  have value : centered qKS 1 = 1 := by
    rw [centered, if_neg (by omega), Nat.cast_one]
  simp [updateCGGI, rotation, factor, messageCGGI, other, value]

theorem updateCGGI_minus (wide : 2 < qKS) (a : ℕ) : updateCGGI p qKS (qKS - 1) c a = rotation p qKS (qKS - 1) c a := by
  have other : ¬ qKS - 1 = 1 := by omega
  have value : centered qKS (qKS - 1) = -1 := by
    rw [centered, if_pos (by omega)]
    omega
  simp [updateCGGI, rotation, factor, messageCGGI, other, value]

/-- A coordinate is not turned only where `c` divides the value. -/
theorem rotation_eq_one_iff (ok : Admissible w p) (hc : c ∣ 2 * p.N) :
    (∀ a, a < c → 1 = rotation p qKS v c a) ↔ c = 1 ∨ (c : ℤ) ∣ centered qKS v := by
  have pos : 0 < c := Nat.pos_of_dvd_of_pos hc (by have := ok.dyadic.N_pos; omega)
  have single : ∀ a : ℕ, 1 = rotation p qKS v c a ↔ (c : ℤ) ∣ a * centered qKS v := by
    intro a
    rw [rotation, ← xpow_zero, ok.xpow_eq_iff, zero_sub, neg_neg, ok.dyadic.scaled_dvd_iff hc]
  simp only [single]
  constructor
  · intro right
    by_cases one : c = 1
    · exact .inl one
    · exact .inr (by simpa using right 1 (by omega))
  · rintro (rfl | divides) a ha
    · simp
    · exact divides.mul_left _

/-- Modulo two the value `1` is also `-1`: both keys are used, and half a turn goes wrong. -/
theorem updateCGGI_two (ok : Admissible w p) (hc : c ∣ 2 * p.N) (more : c ≠ 1) :
    ¬ ∀ a, a < c → updateCGGI p 2 1 c a = rotation p 2 1 c a := by
  intro right
  obtain ⟨i, -, hi⟩ := ok.dyadic.eq_two_pow hc
  have even : 2 * (c / 2) = c := by
    refine Nat.mul_div_cancel' ?_
    rw [hi]
    exact dvd_pow_self 2 fun zero => more (by rw [hi, zero, pow_zero])
  have pos : 0 < c := Nat.pos_of_dvd_of_pos hc (by have := ok.dyadic.N_pos; omega)
  have half := right (c / 2) (by omega)
  have turn : ((2 * p.N / c : ℕ) : ℤ) * (c / 2 : ℕ) = p.N := by
    have whole := Nat.div_mul_cancel hc
    rw [← even, ← mul_assoc, mul_comm _ 2, mul_assoc] at whole
    rw [even] at whole
    exact_mod_cast Nat.eq_of_mul_eq_mul_left (by omega) whole
  have value : centered 2 1 = 1 := rfl
  have back : (xpow (p.N : ℤ) : Poly p) = xpow 0 := by
    rw [← turn]
    simpa [updateCGGI, rotation, factor, messageCGGI, value, sub_eq_zero] using half
  have := Int.le_of_dvd (by have := ok.dyadic.N_pos; omega) ((ok.xpow_eq_iff _ _).mp back)
  have := ok.dyadic.N_pos
  omega

theorem updateCGGI_zero (ok : Admissible w p) (hc : c ∣ 2 * p.N) (more : c ≠ 1) :
    ¬ ∀ a, a < c → updateCGGI p 1 0 c a = rotation p 1 0 c a := by
  intro right
  have pos : 0 < c := Nat.pos_of_dvd_of_pos hc (by have := ok.dyadic.N_pos; omega)
  have once := right 1 (by omega)
  have value : centered 1 0 = 0 := rfl
  have turned : (xpow ((2 * p.N / c : ℕ) * 1) : Poly p) = xpow 0 := by
    simpa [updateCGGI, rotation, factor, messageCGGI, value] using once
  have unit := (ok.dyadic.scaled_dvd_iff hc 1).mp (by simpa using (ok.xpow_eq_iff _ _).mp turned)
  exact more (Nat.dvd_one.mp (by exact_mod_cast unit))

theorem updateCGGI_eq_iff (ok : Admissible w p) (hc : c ∣ 2 * p.N) (hv : v < qKS) :
    (∀ a, a < c → updateCGGI p qKS v c a = rotation p qKS v c a) ↔ ReadsCGGI qKS v c := by
  rw [ReadsCGGI]
  by_cases wide : 2 < qKS
  · by_cases plus : v = 1
    · subst plus
      exact iff_of_true (fun a _ => updateCGGI_plus wide a)
        (.inr (.inl ⟨wide, .inl (by rw [centered, if_neg (by omega), Nat.cast_one])⟩))
    by_cases minus : v = qKS - 1
    · subst minus
      exact iff_of_true (fun a _ => updateCGGI_minus wide a)
        (.inr (.inl ⟨wide, .inr (by rw [centered, if_pos (by omega)]; omega)⟩))
    · simp only [updateCGGI_other plus minus]
      rw [rotation_eq_one_iff ok hc]
      have neither : ¬ (centered qKS v = 1 ∨ centered qKS v = -1) := by
        rw [centered]
        split <;> omega
      have more : 1 < qKS := by omega
      simp only [neither, and_false, false_or, more, true_and]
  · by_cases one : c = 1
    · subst one
      refine iff_of_true (fun a ha => ?_) (.inl rfl)
      obtain rfl : a = 0 := by omega
      simp [updateCGGI, rotation, factor]
    -- two residues at most, and the marked values coincide
    have cases : (qKS = 2 ∧ v = 1) ∨ (qKS = 2 ∧ v = 0) ∨ (qKS = 1 ∧ v = 0) := by omega
    rcases cases with ⟨rfl, rfl⟩ | ⟨rfl, rfl⟩ | ⟨rfl, rfl⟩
    · have value : centered 2 1 = 1 := rfl
      refine iff_of_false (updateCGGI_two ok hc one) ?_
      rintro (same | ⟨more, -⟩ | ⟨-, unit⟩)
      · exact one same
      · omega
      · rw [value] at unit
        exact one (Nat.dvd_one.mp (by exact_mod_cast unit))
    · simp only [updateCGGI_other (show 0 ≠ 1 by omega) (show 0 ≠ 2 - 1 by omega)]
      rw [rotation_eq_one_iff ok hc]
      simp [centered]
    · refine iff_of_false (updateCGGI_zero ok hc one) ?_
      rintro (same | ⟨more, -⟩ | ⟨more, -⟩)
      · exact one same
      · omega
      · omega

end Coordinate

section Runs
variable {w} [NeZero p.N] {product : Product p} {z : Poly p} {n qKS digitsR c : ℕ} {sv : Fin n → ℕ}

/-- The rotation that the vector `a` modulo `c` stands for under the secret `sv` modulo `qKS`. -/
def rotations (p : RingGSWCryptoParams) (qKS : ℕ) (sv : Fin n → ℕ) (c : ℕ) (a : Fin n → ℕ) : Poly p :=
  xpow (-((2 * p.N / c : ℕ) * ∑ i, a i * centered qKS (sv i)))

theorem prod_rotation (a : Fin n → ℕ) : ∏ i, rotation p qKS (sv i) c (a i) = rotations p qKS sv c a := by
  simp only [rotation, rotations]
  rw [Finset.mul_sum, ← Finset.sum_neg_distrib, xpow_sum]

/-- Both accumulators multiply the phase by the rotation of `a`. -/
def RotateAlike (w : NativeSize) (product : Product p) (z : Poly p) (qKS : ℕ) (sv : Fin n → ℕ) (digitsR c : ℕ)
    (dm : Fin n → ℕ → ℕ → EvalKey p) (cggi : Bool → Fin n → EvalKey p) : Prop :=
  ∀ acc a, (∀ i, a i < c) →
    phase z (evalAccDM w product digitsR dm acc a) = phase z acc * rotations p qKS sv c a ∧
    ∃ acc', evalAccCGGI w product cggi c acc a = .ok acc' ∧ phase z acc' = phase z acc * rotations p qKS sv c a

section
variable (ok : Admissible w p) (hc : c ∣ 2 * p.N) (hsv : ∀ i, sv i < qKS) {dm : Fin n → ℕ → ℕ → EvalKey p}
  {cggi : Bool → Fin n → EvalKey p} (lawDM : MultipliesDM w product z qKS sv digitsR dm)
  (lawCGGI : MultipliesCGGI product z qKS sv cggi)
include ok hc lawDM lawCGGI

theorem rotateAlike_iff_products :
    RotateAlike w product z qKS sv digitsR c dm cggi ↔
      (∀ a : Fin n → ℕ, (∀ i, a i < c) → ∏ i, updateDM p w qKS (sv i) digitsR (a i) = rotations p qKS sv c a) ∧
      ∀ a : Fin n → ℕ, (∀ i, a i < c) → ∏ i, updateCGGI p qKS (sv i) c (a i) = rotations p qKS sv c a := by
  constructor
  · intro alike
    have unit : phase z (⟨0, 1⟩ : Acc p) = 1 := by simp [RLWECiphertext.phase]
    refine ⟨fun a ha => ?_, fun a ha => ?_⟩
    · have turned := (alike ⟨0, 1⟩ a ha).1
      rwa [phase_evalAccDM ok lawDM, unit, one_mul, one_mul] at turned
    · obtain ⟨acc', ran, turned⟩ := (alike ⟨0, 1⟩ a ha).2
      obtain ⟨acc'', ran', value⟩ := phase_evalAccCGGI ok hc lawCGGI ⟨0, 1⟩ ha
      obtain rfl : acc'' = acc' := Except.ok.inj (ran'.symm.trans ran)
      rwa [value, unit, one_mul, one_mul] at turned
  · rintro ⟨same, same'⟩ acc a ha
    obtain ⟨acc', ran, value⟩ := phase_evalAccCGGI ok hc lawCGGI acc ha
    refine ⟨?_, acc', ran, ?_⟩
    · rw [phase_evalAccDM ok lawDM, same a ha]
    · rw [value, same' a ha]

include hsv

theorem rotateAlike_iff_reads (room : p.q ≤ p.baseR ^ digitsR) :
    RotateAlike w product z qKS sv digitsR c dm cggi ↔
      ∀ i, ReadsDM p w qKS (sv i) digitsR c ∧ ReadsCGGI qKS (sv i) c := by
  have pos : 0 < c := Nat.pos_of_dvd_of_pos hc (by have := ok.dyadic.N_pos; omega)
  have turned : ∀ i, rotation p qKS (sv i) c 0 = 1 := fun i => by simp [rotation]
  have perDM := forall_prod_eq_iff (F := fun i => updateDM p w qKS (sv i) digitsR)
    (G := fun i => rotation p qKS (sv i) c) pos (fun i => by simp [updateDM, shiftDM, modSubFast]) turned
  have perCGGI := forall_prod_eq_iff (F := fun i => updateCGGI p qKS (sv i) c)
    (G := fun i => rotation p qKS (sv i) c) pos (fun i => by simp [updateCGGI, factor]) turned
  simp only [prod_rotation, updateDM_eq_iff ok room hc] at perDM
  simp only [prod_rotation, updateCGGI_eq_iff ok hc (hsv _)] at perCGGI
  rw [rotateAlike_iff_products ok hc lawDM lawCGGI, forall_and, perDM, perCGGI]

end

/-- The accumulators of the two methods, with the keys that they generate, rotate by the phase of every vector modulo
`c` exactly where each reads every value of the secret right. -/
theorem rotateAlike_iff (ok : Admissible w p) (room : p.q ≤ p.baseR ^ digitsR) (hc : c ∣ 2 * p.N)
    (hsv : ∀ i, sv i < qKS) (drawDM : Fin n → ℕ → ℕ → KeyDraw p) (drawCGGI : Bool → Fin n → KeyDraw p)
    (lawDM : MultipliesDM w product z qKS sv digitsR (keyGenAccDM p w z qKS sv drawDM))
    (lawCGGI : MultipliesCGGI product z qKS sv (keyGenAccCGGI p z qKS sv drawCGGI)) :
    RotateAlike w product z qKS sv digitsR c (keyGenAccDM p w z qKS sv drawDM) (keyGenAccCGGI p z qKS sv drawCGGI) ↔
      ∀ i, ReadsDM p w qKS (sv i) digitsR c ∧ ReadsCGGI qKS (sv i) c :=
  rotateAlike_iff_reads ok hc hsv lawDM lawCGGI room

end Runs

/-! ### A product that reads its key -/

section Reading
variable [NeZero p.N] {z : Poly p} {row : Fin (digitsG2 p)} {u : ZMod p.Q}

/-- Takes what a key without noise holds from an odd row, where `u` is the inverse of its power of the base. -/
def readingProduct (z : Poly p) (row : Fin (digitsG2 p)) (u : ZMod p.Q) : Product p := fun acc key =>
  ⟨0, phase z acc * ⟨fun i => u * ((key row).second - (key row).first * z).coeff i⟩⟩

theorem readingProduct_multiplies (odd : row.val % 2 ≠ 0) (unit : u * gpow p (row / 2 + 1) = 1) {marker : Marker}
    (inside : marker.Within p.N) (masks : ℕ → UniformDraw p) :
    Multiplies (readingProduct z row u) z (value (encrypt p marker z fun _ => 0) masks) marker.poly := by
  intro acc
  have held : (value (encrypt p marker z fun _ => 0) masks row).second -
      (value (encrypt p marker z fun _ => 0) masks row).first * z = marker.apply (gpow p (row / 2 + 1)) 0 := by
    have rows : value (encrypt p marker z fun _ => 0) masks row = encryptRow p marker z (fun _ => 0) (masks 0) row := rfl
    rw [rows, encryptRow, if_neg odd, if_neg odd, add_sub_cancel_right]
  have read : (⟨fun i => u * (marker.apply (gpow p (row / 2 + 1)) 0).coeff i⟩ : Poly p) = marker.poly := by
    ext i
    show u * (marker.apply (gpow p (row / 2 + 1)) 0).coeff i = _
    rw [Marker.apply_eq inside, zero_add, coeff_const_mul, ← mul_assoc, unit, one_mul]
  rw [readingProduct, held, read]
  simp [RLWECiphertext.phase]

/-- Keys that were drawn without noise. -/
def noNoise (p : RingGSWCryptoParams) (masks : ℕ → UniformDraw p) : KeyDraw p := ⟨masks, fun _ => 0⟩

variable {w : NativeSize} {n : ℕ} (odd : row.val % 2 ≠ 0) (unit : u * gpow p (row / 2 + 1) = 1)
  (masks : ℕ → UniformDraw p) (qKS : ℕ) (sv : Fin n → ℕ)
include odd unit

theorem reading_multipliesDM (ok : Admissible w p) (digitsR : ℕ) :
    MultipliesDM w (readingProduct z row u) z qKS sv digitsR
      (keyGenAccDM p w z qKS sv fun _ _ _ => noNoise p masks) :=
  fun _ _ _ _ _ _ => readingProduct_multiplies odd unit (ofExponent_within (ok.dyadic.exponentDM_lt _)) masks

theorem reading_multipliesCGGI :
    MultipliesCGGI (readingProduct z row u) z qKS sv (keyGenAccCGGI p z qKS sv fun _ _ => noNoise p masks) := by
  intro negative i
  have pos := Nat.pos_of_ne_zero (NeZero.ne p.N)
  by_cases marked : sv i = if negative then qKS - 1 else 1
  · have key := readingProduct_multiplies (z := z) odd unit (show (Marker.add 0).Within p.N from pos) masks
    simpa [keyGenAccCGGI, keyGenCGGI, messageCGGI, marked, Marker.poly, noNoise] using key
  · have key := readingProduct_multiplies (z := z) odd unit (show Marker.none.Within p.N from trivial) masks
    simpa [keyGenAccCGGI, keyGenCGGI, messageCGGI, marked, Marker.poly, noNoise] using key

end Reading

/-- `N = 4`, `Q = 17`, digits of `-a` in base two; the modulus `q = 4` leaves room for ciphertexts modulo eight. -/
def halfTurnParams : RingGSWCryptoParams :=
  { RingGSWCryptoParams.default with
    N := 4, Q := 17, q := 4, baseG := 4, digitsG := 3, Gpower := [1, 4, 16], baseR := 2, method := .AP }

instance : NeZero halfTurnParams.N := ⟨by decide⟩

theorem halfTurnParams_admissible : Admissible .w64 halfTurnParams where
  power := ⟨2, rfl⟩
  narrow := by decide
  divides := by decide
  large := by decide
  fits := by decide
  baseR := by decide

/-- What `RotateAlike` says of keys without noise and without masks for a vector modulo `c` and a secret modulo
sixteen. -/
def HalfTurnAlike {n : ℕ} (sv : Fin n → ℕ) (c : ℕ) : Prop :=
  RotateAlike .w64 (readingProduct (mono 1) ⟨1, by decide⟩ 13) (mono 1) 16 sv 2 c
    (keyGenAccDM halfTurnParams .w64 (mono 1) 16 sv fun _ _ _ => noNoise halfTurnParams fun _ _ => ⟨0, by decide⟩)
    (keyGenAccCGGI halfTurnParams (mono 1) 16 sv fun _ _ => noNoise halfTurnParams fun _ _ => ⟨0, by decide⟩)

theorem halfTurnParams_lawDM {n : ℕ} (sv : Fin n → ℕ) :
    MultipliesDM .w64 (readingProduct (mono 1) ⟨1, by decide⟩ 13) (mono 1) 16 sv 2
      (keyGenAccDM halfTurnParams .w64 (mono 1) 16 sv fun _ _ _ =>
        noNoise halfTurnParams fun _ _ => ⟨0, by decide⟩) :=
  reading_multipliesDM (by decide) (by decide) _ 16 sv halfTurnParams_admissible 2

theorem halfTurnParams_lawCGGI {n : ℕ} (sv : Fin n → ℕ) :
    MultipliesCGGI (readingProduct (mono 1) ⟨1, by decide⟩ 13) (mono 1) 16 sv
      (keyGenAccCGGI halfTurnParams (mono 1) 16 sv fun _ _ => noNoise halfTurnParams fun _ _ => ⟨0, by decide⟩) :=
  reading_multipliesCGGI (by decide) (by decide) _ 16 sv

/-- A ternary secret and the modulus of the parameters. -/
theorem halfTurnParams_ternary : HalfTurnAlike ![1, 15] 4 := by
  refine (rotateAlike_iff halfTurnParams_admissible (by decide) (by decide) (by decide) _ _
    (halfTurnParams_lawDM _) (halfTurnParams_lawCGGI _)).mpr ?_
  intro i
  refine ⟨(readsDM_iff halfTurnParams_admissible (by decide) (by decide) (by fin_cases i <;> decide)).mpr
    (.inr (.inl rfl)), ?_⟩
  fin_cases i
  · exact .inr (.inl ⟨by decide, .inl rfl⟩)
  · exact .inr (.inl ⟨by decide, .inr rfl⟩)

/-- A ciphertext modulo `2q`, and a Gaussian value two. -/
theorem halfTurnParams_not_alike : ¬ HalfTurnAlike ![1] 8 ∧ ¬ HalfTurnAlike ![2] 4 := by
  constructor
  · intro alike
    have reads := (rotateAlike_iff_reads halfTurnParams_admissible (by decide) (by decide)
      (halfTurnParams_lawDM _) (halfTurnParams_lawCGGI _) (by decide)).mp alike 0
    have := (readsDM_iff halfTurnParams_admissible (by decide) (by decide) (by decide)).mp reads.1
    revert this
    decide
  · intro alike
    have reads := (rotateAlike_iff_reads halfTurnParams_admissible (by decide) (by decide)
      (halfTurnParams_lawDM _) (halfTurnParams_lawCGGI _) (by decide)).mp alike 0
    have := reads.2
    revert this
    rw [ReadsCGGI]
    decide

end RingGSW
end MultiKeyFHE
