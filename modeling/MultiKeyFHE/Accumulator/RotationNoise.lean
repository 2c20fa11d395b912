import MultiKeyFHE.Accumulator.Noise
import MultiKeyFHE.Accumulator.ScheduleCost

/-!
# Blind rotations with noisy keys

A whole run of `EvalAcc` multiplies the phase by the rotation that the vector stands for, up to what its external
products and automorphisms add.
-/

namespace MultiKeyFHE
open Negacyclic NegPoly NativePoly NativeInteger NativeVector Draws Sampler PowersOfFive

namespace RingGSW
variable {p : RingGSWCryptoParams} [NeZero p.N] [NeZero p.Q] {w : NativeSize} {n : ℕ} {product : Product p} {z : Poly p} {δ : ℝ}

/-! ### DM -/

/-- Each digit that is not zero adds one product. -/
theorem digitsLoop_near {ek : ℕ → ℕ → EvalKey p} {step secret : ℤ} {places : ℕ} (nonneg : 0 ≤ δ)
    (law : ∀ j k, 0 < j → j < p.baseR → k < places →
      MultipliesNear product z δ (ek j k) (xpow (step * (secret * (j * p.baseR ^ k : ℕ)))))
    (hR : 0 < p.baseR) (left k aI : ℕ) (acc : Acc p) (inside : k + left ≤ places) :
    Bounded (left * δ) (phase z (digitsLoop product ek left k aI acc) -
      phase z acc * xpow (step * (secret * (p.baseR ^ k * (aI % p.baseR ^ left) : ℕ)))) := by
  induction left generalizing k aI acc with
  | zero => simpa [digitsLoop, Nat.mod_one] using bounded_zero (N := p.N)
  | succ left ih =>
    have digit : Bounded δ (phase z (if aI % p.baseR ≠ 0 then product acc (ek (aI % p.baseR) k) else acc) -
        phase z acc * xpow (step * (secret * (aI % p.baseR * p.baseR ^ k : ℕ)))) := by
      by_cases zero : aI % p.baseR = 0
      · simpa [zero] using bounded_zero.mono nonneg
      · rw [if_pos zero, mul_comm (phase z acc)]
        exact law _ _ (Nat.pos_of_ne_zero zero) (Nat.mod_lt _ hR) (by omega) acc
    have all := Bounded.rotate digit (ih (k + 1) (aI / p.baseR) _ (by omega))
    rw [mul_assoc, ← xpow_add] at all
    rw [digitsLoop]
    convert all using 1
    · push_cast
      ring
    · congr 3
      rw [← mul_add, ← mul_add, ← Nat.cast_add, pow_succ p.baseR left, mul_comm (p.baseR ^ left), Nat.mod_mul]
      congr 3
      ring

theorem evalAccDM_near (ok : Admissible w p) (nonneg : 0 ≤ δ) {qKS : ℕ} {sv : Fin n → ℕ} {digitsR : ℕ}
    {ek : Fin n → ℕ → ℕ → EvalKey p}
    (law : ∀ i j k, 0 < j → j < p.baseR → k < digitsR → MultipliesNear product z δ (ek i j k)
      (xpow ((2 * p.N / p.q : ℕ) * (secretDM qKS (sv i) * (j * p.baseR ^ k : ℕ)))))
    (acc : Acc p) (a : Fin n → ℕ) :
    Bounded (n * (digitsR * δ))
      (phase z (evalAccDM w product digitsR ek acc a) - phase z acc * ∏ i, updateDM p w qKS (sv i) digitsR (a i)) := by
  have held : ∀ i ∈ List.finRange n, ∀ acc, Bounded (digitsR * δ) (phase z (digitsLoop product (ek i) digitsR 0
      (modSubFast w 0 (a i) p.q) acc) - phase z acc * xpow ((2 * p.N / p.q : ℕ) * (secretDM qKS (sv i) * shiftDM p w digitsR (a i)))) := by
    intro i _ acc
    have coordinate := digitsLoop_near nonneg (law i) (by have := ok.baseR; omega) digitsR 0 (modSubFast w 0 (a i) p.q) acc (by omega)
    rwa [pow_zero, one_mul] at coordinate
  have all := Drift.foldl_rotations held acc
  rw [List.length_finRange] at all
  rw [evalAccDM, Fin.prod_univ_def]
  exact all

/-! ### CGGI -/

/-- Where every update is a rotation, the errors of both products are added. -/
theorem evalAccCGGI_near (ok : Admissible w p) {qKS c : ℕ} (hc : c ∣ 2 * p.N) {sv : Fin n → ℕ} (hsv : ∀ i, sv i < qKS)
    (reads : ∀ i, ReadsCGGI qKS (sv i) c) {ek : Bool → Fin n → EvalKey p}
    (law : ∀ negative i, MultipliesNear product z δ (ek negative i) ((messageCGGI qKS (sv i) negative : ℤ) : Poly p))
    (acc : Acc p) {a : Fin n → ℕ} (ha : ∀ i, a i < c) :
    ∃ acc', evalAccCGGI w product ek c acc a = .ok acc' ∧
      Bounded (n * (2 * (δ + δ))) (phase z acc' - phase z acc * rotations p qKS sv c a) := by
  have step : ∀ i ∈ List.finRange n, ∀ acc, ∃ next, addToAccCGGI w product (ek false i) (ek true i)
      (NativeInteger.mul w (modSubFast w 0 (a i) c) (2 * p.N % 2 ^ 32 / c)) acc = .ok next ∧
        Bounded (2 * (δ + δ)) (phase z next - phase z acc * xpow (-((2 * p.N / c : ℕ) * (a i * centered qKS (sv i))))) := by
    intro i _ acc
    obtain ⟨exact_index, below⟩ := ok.index_eq hc (ha i)
    obtain ⟨next, ran, near⟩ := addToAccCGGI_near ok.dyadic ok.large ok.fits (law false i) (law true i) below.le acc
    refine ⟨next, exact_index ▸ ran, ?_⟩
    have turned : updateCGGI p qKS (sv i) c (a i) = rotation p qKS (sv i) c (a i) :=
      (updateCGGI_eq_iff ok hc (hsv i)).mpr (reads i) (a i) (ha i)
    rw [updateCGGI, ← factor_congr (ok.index_modEq hc (ha i)), rotation] at turned
    rwa [turned, mul_comm (xpow _)] at near
  obtain ⟨acc', run, near⟩ := Drift.foldlM_rotations step acc
  rw [List.length_finRange, ← Fin.prod_univ_def] at near
  refine ⟨acc', run, ?_⟩
  rw [← prod_rotation]
  exact near

section Generated
variable {g : ℕ} {S E : ℝ} (ok : Admissible w p) (covers : Covers p g) (secret : Bounded S z) (nonneg : 0 ≤ E) {qKS c : ℕ}
  (hc : c ∣ 2 * p.N) {sv : Fin n → ℕ} (hsv : ∀ i, sv i < qKS)
include ok covers secret nonneg hc hsv

omit hsv in
theorem keyGenAccDM_near (digitsR : ℕ) (room : p.q ≤ p.baseR ^ digitsR) (reads : ∀ i, ReadsDM p w qKS (sv i) digitsR c)
    {draw : Fin n → ℕ → ℕ → KeyDraw p} (small : ∀ i j k l, Bounded E ((draw i j k).errors l)) (acc : Acc p) {a : Fin n → ℕ}
    (ha : ∀ i, a i < c) :
    Bounded (n * (digitsR * productBound p g S E)) (phase z (evalAccDM w matrixProduct digitsR (keyGenAccDM p w z qKS sv draw) acc a) -
      phase z acc * rotations p qKS sv c a) := by
  have law : ∀ i j k, 0 < j → j < p.baseR → k < digitsR → MultipliesNear matrixProduct z (productBound p g S E)
      (keyGenAccDM p w z qKS sv draw i j k) (xpow ((2 * p.N / p.q : ℕ) * (secretDM qKS (sv i) * (j * p.baseR ^ k : ℕ)))) := by
    intro i j k _ _ _
    rw [← poly_messageDM ok]
    exact multipliesNear_encrypt covers secret (ofExponent_within (ok.dyadic.exponentDM_lt _)) (small i j k) _
  have near := evalAccDM_near ok (productBound_nonneg secret nonneg) law acc a
  rwa [Finset.prod_congr rfl fun i _ => (updateDM_eq_iff ok room hc).mpr (reads i) (a i) (ha i), prod_rotation] at near

omit nonneg in
theorem keyGenAccCGGI_near (reads : ∀ i, ReadsCGGI qKS (sv i) c) {draw : Bool → Fin n → KeyDraw p}
    (small : ∀ negative i l, Bounded E ((draw negative i).errors l)) (acc : Acc p) {a : Fin n → ℕ} (ha : ∀ i, a i < c) :
    ∃ acc', evalAccCGGI w matrixProduct (keyGenAccCGGI p z qKS sv draw) c acc a = .ok acc' ∧
      Bounded (n * (4 * productBound p g S E)) (phase z acc' - phase z acc * rotations p qKS sv c a) := by
  have law : ∀ negative i, MultipliesNear matrixProduct z (productBound p g S E) (keyGenAccCGGI p z qKS sv draw negative i)
      ((messageCGGI qKS (sv i) negative : ℤ) : Poly p) := by
    intro negative i
    exact multipliesNear_CGGI covers secret (small negative i) (ite_eq_or_eq _ _ _).symm _
  obtain ⟨acc', run, near⟩ := evalAccCGGI_near ok hc hsv reads law acc ha
  refine ⟨acc', run, ?_⟩
  convert near using 2
  ring

/-- A rotation by DM or CGGI with generated keys, where they read the secret right. -/
theorem generated_rotations_near (digitsR : ℕ) (room : p.q ≤ p.baseR ^ digitsR) :
    ((∀ i, ReadsDM p w qKS (sv i) digitsR c) → ∀ draw : Fin n → ℕ → ℕ → KeyDraw p, (∀ i j k l, Bounded E ((draw i j k).errors l)) →
      ∀ (acc : Acc p) (a : Fin n → ℕ), (∀ i, a i < c) → Bounded (n * (digitsR * productBound p g S E))
        (phase z (evalAccDM w matrixProduct digitsR (keyGenAccDM p w z qKS sv draw) acc a) - phase z acc * rotations p qKS sv c a)) ∧
    ((∀ i, ReadsCGGI qKS (sv i) c) → ∀ draw : Bool → Fin n → KeyDraw p, (∀ negative i l, Bounded E ((draw negative i).errors l)) →
      ∀ (acc : Acc p) (a : Fin n → ℕ), (∀ i, a i < c) →
        ∃ acc', evalAccCGGI w matrixProduct (keyGenAccCGGI p z qKS sv draw) c acc a = .ok acc' ∧
          Bounded (n * (4 * productBound p g S E)) (phase z acc' - phase z acc * rotations p qKS sv c a)) :=
  ⟨fun reads _ small acc _ ha => keyGenAccDM_near ok covers secret nonneg hc digitsR room reads small acc ha,
    fun reads _ small acc _ ha => keyGenAccCGGI_near ok covers secret hc hsv reads small acc ha⟩

end Generated

/-! ### LMKCDEY -/

/-- A call of `EvalAcc` with the bodies of `AddToAccLMKCDEY` and `Automorphism`. -/
def performCall (ek : KeyLMKCDEY p n) (acc : Acc p) : Call n → Except Fault (Acc p)
  | .addToAcc index => addToAccLMKCDEY (ek.secret index) acc
  | .automorphism a index =>
    if inside : index < n then
      match ek.auto ⟨index, inside⟩ with
      | some ak => automorphism a ak acc
      | none => .error .nullDereference
    else .error .outOfRange

variable (w) in
/-- `EvalAcc` with these bodies. -/
def evalAccCalls (ek : KeyLMKCDEY p n) (acc : Acc p) (a : Fin n → ℕ) : Except Fault (Acc p) :=
  (schedule w p a).foldlM (performCall ek) { acc with b := substPow (2 * p.N % 2 ^ 32 - 5) acc.b }

/-- What a call does to the phase, as an additive map. -/
def Call.act (c : ℤ) (s : Fin n → ℤ) : Call n → Poly p →+ Poly p
  | addToAcc index => AddMonoidHom.mulRight (xpow (c * s index))
  | automorphism a _ => substHom a

def Call.cost (forProduct forAutomorphism : ℝ) : Call n → ℝ
  | addToAcc _ => forProduct
  | automorphism _ _ => forAutomorphism

theorem sum_cost (forProduct forAutomorphism : ℝ) (calls : List (Call n)) :
    (calls.map (Call.cost forProduct forAutomorphism)).sum =
      (∑ i, calls.count (.addToAcc i) : ℕ) * forProduct + calls.countP Call.isAutomorphism * forAutomorphism := by
  induction calls with
  | nil => simp
  | cons call calls ih =>
    rw [List.map_cons, List.sum_cons, ih]
    cases call with
    | addToAcc index =>
      have counts : ∑ i, (Call.addToAcc index :: calls).count (.addToAcc i) = ∑ i, calls.count (.addToAcc i) + 1 := by
        simp only [List.count_cons, Finset.sum_add_distrib]
        simp
      rw [counts, List.countP_cons_of_neg (by simp [Call.isAutomorphism]), Call.cost]
      push_cast
      ring
    | automorphism t index =>
      have counts : ∑ i, (Call.automorphism t index :: calls).count (.addToAcc i) = ∑ i, calls.count (.addToAcc i) := by
        simp
      rw [counts, List.countP_cons_of_pos (by simp [Call.isAutomorphism]), Call.cost]
      push_cast
      ring

omit [NeZero p.Q] in
theorem act_eq_apply (c : ℤ) (s : Fin n → ℤ) (calls : List (Call n)) (P : Poly p) :
    calls.foldl (fun P call => Call.act c s call P) P = calls.foldl (Call.apply c s) P := by
  congr
  funext P call
  cases call <;> rfl

omit [NeZero p.Q] in
theorem performCall_near {c : ℤ} {s : Fin n → ℤ} {ek : KeyLMKCDEY p n} {forProduct forAutomorphism : ℝ} (many : 2 ≤ p.digitsG)
    (multiplies : ∀ i, MultipliesNear matrixProduct z forProduct (ek.secret i) (xpow (c * s i)))
    (substitutes : ∀ index, index ≤ p.numAutoKeys → ∃ inside : index < n, ∃ ak, ek.auto ⟨index, inside⟩ = some ak ∧
      ∀ acc, ∃ next, automorphism (autoExponent w p index) ak acc = .ok next ∧
        Bounded forAutomorphism (phase z next - substPow (autoExponent w p index) (phase z acc)))
    {call : Call n} (keyed : call.Keyed w p) (acc : Acc p) :
    ∃ next, performCall ek acc call = .ok next ∧
      Bounded (call.cost forProduct forAutomorphism) (phase z next - call.act c s (phase z acc)) := by
  cases call with
  | addToAcc i =>
    refine ⟨_, (externalProduct_eq _ acc).trans (if_pos many), ?_⟩
    have near := multiplies i acc
    rwa [mul_comm] at near
  | automorphism t index =>
    obtain ⟨key, rfl⟩ := keyed
    obtain ⟨inside, ak, stored, maps⟩ := substitutes index key
    obtain ⟨next, run, near⟩ := maps acc
    refine ⟨next, ?_, near⟩
    rw [performCall, dif_pos inside, stored]
    exact run

variable {g : ℕ} {S E : ℝ}

/-- A rotation by LMKCDEY with generated keys: one product for each coordinate, and the automorphisms of the schedule. -/
theorem evalAccCalls_near (covers : Covers p g) (secret : Bounded S z) (nonneg : 0 ≤ E) (ok : Dyadic p) (four : 4 ≤ p.N)
    (keys : 1 ≤ p.numAutoKeys) (room : p.numAutoKeys < n) (qKS : ℕ) (sv : Fin n → ℕ) (draw : Fin n → KeyDraw p)
    (drawAuto : Fin n → AutoDraw p) (small : ∀ i l, Bounded E ((draw i).errors l))
    (smallAuto : ∀ i l, Bounded E ((drawAuto i).errors l)) (a : Fin n → ℕ) (inside : ∀ i, a i < 2 * p.N) (T : Poly p) :
    ∃ ek acc, keyGenAccLMKCDEY w z qKS sv draw drawAuto = .ok ek ∧ evalAccCalls w ek ⟨0, T⟩ a = .ok acc ∧
      Bounded (n * productBound p g S E + (n + 3 + (p.N - 2 : ℕ) / p.numAutoKeys) * automorphismBound p g S E)
        (phase z acc - T * xpow ((2 * p.N / p.q : ℕ) * ∑ i, oddNegative p.N (a i) * secretDM qKS (sv i))) := by
  obtain ⟨k, hk⟩ := ok.power
  obtain ⟨e, rfl⟩ : ∃ e, k = e + 1 := by
    cases k with
    | zero => omega
    | succ e => exact ⟨e, rfl⟩
  have more : 1 ≤ e := by
    by_contra zero
    obtain rfl : e = 0 := by omega
    omega
  have cyclotomic : 2 * p.N = modulus e := by rw [hk, modulus, ← pow_succ']
  have narrow : modulus e < 2 ^ 32 := cyclotomic ▸ ok.narrow
  have below : ∀ i, a i < modulus e := fun i => cyclotomic ▸ inside i
  have keyed := schedule_keyed (a := a) (w := w) keys
  have autos := automorphismBound_nonneg (g := g) secret nonneg
  obtain ⟨ek, made, secrets, auto⟩ := keyGenAccLMKCDEY_ok w room z qKS sv draw drawAuto
  have step := fun call member => performCall_near (c := (2 * p.N / p.q : ℕ)) (s := fun i => secretDM qKS (sv i)) covers.many
    (fun i => secrets i ▸ multipliesNear_LMKCDEY covers secret ok (small i) _ _)
    (fun index key => ⟨by omega, _, auto ⟨index, by omega⟩ key,
      automorphism_near covers secret ok (smallAuto _) (autoExponent_odd hk more narrow index) _⟩) (keyed call member)
  have keeps : ∀ call ∈ schedule w p a, ∀ {δ : ℝ} {P : Poly p}, Bounded δ P →
      Bounded δ (call.act (2 * p.N / p.q : ℕ) (fun i => secretDM qKS (sv i)) P) := by
    intro call member δ P small
    have key := keyed call member
    cases call with
    | addToAcc i => exact small.mul_xpow _
    | automorphism t index =>
      obtain ⟨-, rfl⟩ := key
      refine small.substPow ?_
      rw [hk]
      exact (Nat.coprime_two_right.mpr (Nat.odd_iff.mpr (autoExponent_odd hk more narrow index))).pow_right (e + 1)
  obtain ⟨acc, run, near⟩ := Drift.foldlM_near (phase z) (Call.act (2 * p.N / p.q : ℕ) fun i => secretDM qKS (sv i)) _ bounded_zero
    (fun h h' => h.add h') keeps step ⟨0, substPow (2 * p.N % 2 ^ 32 - 5) T⟩
  refine ⟨ek, acc, made, run, ?_⟩
  have first : phase z (⟨0, substPow (2 * p.N % 2 ^ 32 - 5) T⟩ : Acc p) = substPow (2 * p.N % 2 ^ 32 - 5) T := by
    simp [RLWECiphertext.phase]
  rw [act_eq_apply, first, schedule_phase hk more narrow (ok.word_le w) below, sum_cost] at near
  refine near.mono ?_
  have once : ∑ i, (schedule w p a).count (.addToAcc i) = n := by
    simp [schedule_uses hk more narrow below]
  have turns : ((schedule w p a).countP Call.isAutomorphism : ℝ) ≤ n + 3 + (p.N - 2 : ℕ) / p.numAutoKeys := by
    have count : ((p.numAutoKeys * (schedule w p a).countP Call.isAutomorphism : ℕ) : ℝ) ≤
        (p.N - 2 + p.numAutoKeys * (n + 3) : ℕ) := Nat.cast_le.mpr (schedule_turns hk more narrow keys below)
    have pos : (0 : ℝ) < p.numAutoKeys := by exact_mod_cast keys
    push_cast at count
    rw [← sub_le_iff_le_add', le_div_iff₀ pos]
    linarith
  rw [once]
  exact add_le_add le_rfl (mul_le_mul_of_nonneg_right turns autos)

/-! ### Small keys with errors -/

theorem smallRing_readsCGGI : ∀ i, ReadsCGGI 16 (![1, 15] i) smallRing.q := by
  intro i
  fin_cases i
  · exact .inr (.inl ⟨by decide, .inl rfl⟩)
  · exact .inr (.inl ⟨by decide, .inr rfl⟩)

/-- All errors are monomials. DM rotates by the secret `(3, -1)`, CGGI by `(1, -1)`. -/
theorem smallRing_rotations_near :
    Bounded ((2 : ℕ) * ((2 : ℕ) * productBound smallRing 7 1 1))
        (phase (xpow 1) (evalAccDM .w64 matrixProduct 2
            (keyGenAccDM smallRing .w64 (xpow 1) 16 ![3, 15] fun _ _ _ => ⟨fun _ _ => 0, fun l => xpow l⟩) ⟨0, 1⟩ ![77, 2]) -
          phase (xpow 1) ⟨0, 1⟩ * rotations smallRing 16 ![3, 15] smallRing.q ![77, 2]) ∧
      (∃ acc', evalAccCGGI .w64 matrixProduct
          (keyGenAccCGGI smallRing (xpow 1) 16 ![1, 15] fun _ _ => ⟨fun _ _ => 0, fun l => xpow l⟩) smallRing.q ⟨0, 1⟩
            ![77, 2] = .ok acc' ∧
        Bounded ((2 : ℕ) * (4 * productBound smallRing 7 1 1))
          (phase (xpow 1) acc' - phase (xpow 1) ⟨0, 1⟩ * rotations smallRing 16 ![1, 15] smallRing.q ![77, 2])) ∧
      (2 : ℕ) * (4 * productBound smallRing 7 1 1) < smallRing.Q / 500 := by
  have readsDM : ∀ i, ReadsDM smallRing .w64 16 (![3, 15] i) 2 smallRing.q := fun i =>
    (readsDM_iff smallRing_admissible (by decide) (by decide) (by fin_cases i <;> decide)).mpr (.inr (.inl rfl))
  refine ⟨?_, ?_, ?_⟩
  · exact (generated_rotations_near smallRing_admissible smallRing_covers (bounded_xpow 1) zero_le_one (by decide) (by decide) 2
      (by decide)).1 readsDM _ (fun _ _ _ l => bounded_xpow l) _ _ (by decide)
  · exact (generated_rotations_near smallRing_admissible smallRing_covers (bounded_xpow 1) zero_le_one (by decide) (by decide) 2
      (by decide)).2 smallRing_readsCGGI _ (fun _ _ l => bounded_xpow l) _ _ (by decide)
  · rw [smallRing_productBound, show smallRing.Q = 134215681 from rfl]
    norm_num

/-- Two keys for the powers of five. -/
def smallWindow : RingGSWCryptoParams := { smallRing with numAutoKeys := 2, method := .LMKCDEY }

instance : NeZero smallWindow.N := ⟨by decide⟩
instance : NeZero smallWindow.Q := ⟨by decide⟩

theorem smallWindow_covers : Covers smallWindow 7 :=
  ⟨rfl, by decide, by decide, by decide, smallRing_covers.powers, by decide, by decide⟩

theorem smallWindow_calls_near :
    (∃ ek acc, keyGenAccLMKCDEY .w64 (xpow 1 : Poly smallWindow) 16 ![1, 15, 3] (fun _ => ⟨fun _ _ => 0, fun l => xpow l⟩)
        (fun _ => ⟨fun _ => 0, fun l => xpow l⟩) = .ok ek ∧
      evalAccCalls .w64 ek ⟨0, 1⟩ ![1, 77, 2] = .ok acc ∧
      Bounded ((3 : ℕ) * productBound smallWindow 7 1 1 +
          ((3 : ℕ) + 3 + (smallWindow.N - 2 : ℕ) / smallWindow.numAutoKeys) * automorphismBound smallWindow 7 1 1)
        (phase (xpow 1) acc - 1 * xpow ((2 * smallWindow.N / smallWindow.q : ℕ) *
          ∑ i, oddNegative smallWindow.N (![1, 77, 2] i) * secretDM 16 (![1, 15, 3] i)))) ∧
      (3 : ℕ) * productBound smallWindow 7 1 1 +
        ((3 : ℕ) + 3 + (smallWindow.N - 2 : ℕ) / smallWindow.numAutoKeys) * automorphismBound smallWindow 7 1 1 <
          smallWindow.Q / 100 := by
  refine ⟨evalAccCalls_near smallWindow_covers (bounded_xpow 1) zero_le_one ⟨⟨6, rfl⟩, by decide, by decide⟩ (by decide)
    (by decide) (by decide) 16 ![1, 15, 3] _ _ (fun _ l => bounded_xpow l) (fun _ l => bounded_xpow l) ![1, 77, 2] (by decide) 1, ?_⟩
  have product : productBound smallWindow 7 1 1 = 28736 := smallRing_productBound
  have auto : automorphismBound smallWindow 7 1 1 = 16384 := by
    have loss : lossBound smallWindow 7 = 64 := by decide
    have size : smallWindow.N = 64 := rfl
    have digits : smallWindow.digitsG = 4 := rfl
    rw [automorphismBound, loss, size, digits]
    norm_num
  rw [product, auto, show smallWindow.N = 64 from rfl, show smallWindow.numAutoKeys = 2 from rfl,
    show smallWindow.Q = 134215681 from rfl]
  norm_num

end RingGSW
end MultiKeyFHE
