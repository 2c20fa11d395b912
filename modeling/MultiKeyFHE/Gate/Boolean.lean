import MultiKeyFHE.Gate.SingleKey
import MultiKeyFHE.Library.LookUp
import MultiKeyFHE.Params.Constants

/-!
# Boolean gates on single-key ciphertexts

`EvalBinGate` on two ciphertexts and on a vector of them, `Bootstrap` and `EvalNOT`. A gate adds its inputs up and
looks the sum up in a vector that is negative on half of the circle, the window of the gate. The vector changes its
sign after half a turn, so that the rotation finds the right value for every mask.
-/

namespace MultiKeyFHE
open Negacyclic NegPoly NativeInteger NativeVector Circle

namespace LWEGate
open LWE
variable {P : SingleKeyParams} (w : NativeSize) (plat : Platform) (round : FloorRound) (g : Gadget) (EK : EvalKeys P)

/-- The end of every gate: `constant` is added to the constant coefficient that is extracted. -/
def finish (constant fmod : ℕ) (acc : P.Acc) : Except Fault (LWECiphertext P.n) :=
  switch w plat round EK fmod (extract acc (modAddFast w constant (acc.b.coeff 0).val P.Q))

def evalNOT {n : ℕ} (ct : LWECiphertext n) : LWECiphertext n where
  a := fun i => if ct.a i = 0 then 0 else sub w ct.modulus (ct.a i)
  b := modSubFast w (ct.modulus / 4) ct.b ct.modulus
  modulus := ct.modulus

/-- `EvalBinGate` after the branch for XOR and XNOR. -/
def evalSumGate (gate : BinGate) (ct1 ct2 : LWECiphertext P.n) : Except Fault (LWECiphertext P.n) := do
  let ctprep ←
    if gate = .XOR_FAST ∨ gate = .XNOR_FAST then
      evalSubEq w (copy ct1) ct2 >>= fun ctprep => evalAddEq w ctprep ctprep
    else evalAddEq w (copy ct1) ct2
  let acc ← bootstrapGateCore w g gate EK ctprep
  finish w plat round EK (P.Q / 8 + 1) ct1.modulus acc

/-- `EvalBinGate` on the objects at `addr1` and `addr2`. What `EvalNOT` returns is a new object, and so are the
results of the inner gates. -/
def evalBinGate (gate : BinGate) (addr1 addr2 : ℕ) (ct1 ct2 : LWECiphertext P.n) :
    Except Fault (LWECiphertext P.n) := do
  if addr1 = addr2 then throw (.configError "Input ciphertexts should be independant")
  if gate = .XOR ∨ gate = .XNOR then
    let ctAND1 ← evalSumGate w plat round g EK .AND ct1 (evalNOT w ct2)
    let ctAND2 ← evalSumGate w plat round g EK .AND (evalNOT w ct1) ct2
    let ctOR ← evalSumGate w plat round g EK .OR ctAND1 ctAND2
    return if gate = .XOR then ctOR else evalNOT w ctOR
  else evalSumGate w plat round g EK gate ct1 ct2

/-- `EvalBinGate` on a vector of objects, each given with its address. -/
def evalBinGateVector (gate : BinGate) (ctvector : List (ℕ × LWECiphertext P.n)) :
    Except Fault (LWECiphertext P.n) := do
  if ¬ (ctvector.map Prod.fst).Nodup then throw (.configError "Input ciphertexts should be independent")
  match ctvector with
  | [] => throw .outOfRange
  | (_, ct0) :: rest =>
    if gate = .MAJORITY ∨ gate = .AND3 ∨ gate = .OR3 ∨ gate = .AND4 ∨ gate = .OR4 then
      let ctprep ← rest.foldlM (fun ctprep ct => evalAddEq w ctprep ct.2) (setptModulus ct0.p (copy ct0))
      let acc ← bootstrapGateCore w g gate EK ctprep
      finish w plat round EK (add w (P.Q / mul w 2 ct0.p) 1) ct0.modulus acc
    else if gate = .CMUX then
      match rest with
      | [(addr1, ct1), (addr2, ct2)] => do
        let ctNAND1 ← evalSumGate w plat round g EK .NAND ct0 (evalNOT w ct2)
        let ctNAND2 ← evalBinGate w plat round g EK .NAND addr1 addr2 ct1 ct2
        evalSumGate w plat round g EK .NAND ctNAND1 ctNAND2
      | _ => throw (.notImplementedError "CMUX gate implemented for ciphertext vectors of size 3")
    else throw (.notImplementedError "This gate is not implemented for vector of ciphertexts at this time")

def bootstrap (ct : LWECiphertext P.n) : Except Fault (LWECiphertext P.n) := do
  let ctprep := evalAddConstEq w (copy ct) (ct.modulus / 4)
  let acc ← bootstrapGateCore w g .AND EK ctprep
  finish w plat round EK (add w (P.Q / mul w 2 ct.p) 1) ct.modulus acc

variable (P) in
/-- `EvalConstant` of the context. -/
def evalConstant (value : Bool) : LWECiphertext P.n := noiselessEmbedding w P.q value.toNat

/-! ### The test vector -/

section Table
variable {w} {K : Type*} [CommRing K] {q half : ℕ}

/-- What a gate looks up: `-c` in the half circle that starts at `q1`. -/
def window (q q1 : ℕ) (c : K) (x : ℤ) : K := if (x - q1) % q < (q / 2 : ℕ) then -c else c

theorem window_congr {q1 : ℕ} {c : K} {x y : ℤ} (same : x ≡ y [ZMOD q]) : window q q1 c x = window q q1 c y := by
  rw [window, window, (same.sub_right (q1 : ℤ)).eq]

theorem window_antiperiodic (even : q = 2 * half) (pos : 0 < half) (q1 : ℕ) (c : K) :
    Function.Antiperiodic (window q q1 c) (half : ℤ) := by
  intro x
  have hq : (0 : ℤ) < q := by omega
  have lo := Int.emod_nonneg (x - q1) hq.ne'
  have hi := Int.emod_lt_of_pos (x - q1) hq
  have shifted : (x + half - q1) % (q : ℤ) = ((x - q1) % q + half) % q := by
    rw [Int.emod_add_emod]
    congr 1
    ring
  simp only [window, shifted]
  rcases lt_or_ge ((x - q1) % (q : ℤ)) half with near | far
  · rw [Int.emod_eq_of_lt (by omega) (by omega), if_neg (by omega), if_pos (by omega), neg_neg]
  · rw [← Int.sub_emod_right, Int.emod_eq_of_lt (by omega) (by omega), if_pos (by omega), if_neg (by omega)]

theorem windowValue_cast {Q q1 Q2p temp : ℕ} (even : q = 2 * half) (h1 : q1 < q) (ht : temp < q)
    (hw : 2 * q ≤ 2 ^ w.bits) (hQ2p : Q2p ≤ Q) (hQ : Q < 2 ^ w.bits) :
    ((windowValue w q1 (modAddFast w q1 half q) Q Q2p temp : ℕ) : ZMod Q) = window q q1 (Q2p : ZMod Q) temp := by
  have negative : ((sub w Q Q2p : ℕ) : ZMod Q) = -(Q2p : ZMod Q) := by
    have exact_sub : sub w Q Q2p = Q - Q2p := by
      rw [sub, wrap, show Q + 2 ^ w.bits - Q2p = Q - Q2p + 2 ^ w.bits by omega, Nat.add_mod_right,
        Nat.mod_eq_of_lt (by omega)]
    rw [exact_sub, Nat.cast_sub hQ2p, ZMod.natCast_self, zero_sub]
  rw [modAddFast_eq h1 (by omega) hw, windowValue, window]
  rcases Nat.lt_or_ge (q1 + half) q with inside | wraps
  · rw [Nat.mod_eq_of_lt inside, if_pos (by omega)]
    have same : (temp ≥ q1 ∧ temp < q1 + half) ↔ ((temp : ℤ) - q1) % q < (q / 2 : ℕ) := by
      rcases Nat.lt_or_ge temp q1 with before | after
      · rw [← Int.add_emod_right, Int.emod_eq_of_lt (by omega) (by omega)]
        omega
      · rw [Int.emod_eq_of_lt (by omega) (by omega)]
        omega
    simp only [same]
    split
    · exact negative
    · rfl
  · have second : (q1 + half) % q = q1 + half - q := by
      rw [Nat.mod_eq_sub_mod wraps, Nat.mod_eq_of_lt (by omega)]
    rw [second, if_neg (by omega)]
    have same : (temp ≥ q1 + half - q ∧ temp < q1) ↔ ¬ ((temp : ℤ) - q1) % q < (q / 2 : ℕ) := by
      rcases Nat.lt_or_ge temp q1 with before | after
      · rw [← Int.add_emod_right, Int.emod_eq_of_lt (by omega) (by omega)]
        omega
      · rw [Int.emod_eq_of_lt (by omega) (by omega)]
        omega
    simp only [same, ite_not]
    split
    · exact negative
    · rfl

end Table

/-! ### Assumptions on the parts -/

/-- The sizes that the gates are made for. A cyclotomic order is a 32-bit word, and a native word has room for sums of
two numbers below `Q`. -/
structure Sized (w : NativeSize) (P : SingleKeyParams) : Prop where
  power : ∃ k, P.q = 2 ^ k
  large : 32 ≤ P.q
  divides : P.q ∣ 2 * P.N
  narrow : 2 * P.N < 2 ^ 32
  largeQ : 128 ≤ P.Q
  fits : 2 * P.Q ≤ 2 ^ w.bits

def phaseQ (z : NativePoly P.N P.Q) (ct : LWECiphertext P.N) : ZMod P.Q :=
  ct.b - ∑ j, ((ct.a j : ℕ) : ZMod P.Q) * z.coeff j

/-- The rotation is exact, and the switches at the end move the scaled phase by less than `δ`. -/
structure Faithful (δ : ℚ) (z : NativePoly P.N P.Q) (s : Fin P.n → ℤ) : Prop where
  rotates : ∃ evalAcc, EK.BSkey = some evalAcc ∧ ∀ (acc : P.Acc) (a : Fin P.n → ℕ), (∀ i, a i < P.q) →
    ∃ acc', evalAcc g acc P.n a P.q = some acc' ∧
      acc'.phase z = acc.phase z * xpow (-((2 * P.N / P.q : ℕ) * ∑ i, (a i : ℤ) * s i))
  switches : ∀ ctExt : LWECiphertext P.N, Reduced ctExt → ctExt.modulus = P.Q →
    ∃ ct, switch w plat round EK P.q ctExt = .ok ct ∧
      Within P.q δ (LWE.phase s ct) ((phaseQ z ctExt).val * P.q / P.Q)

/-- The same up to an error `β` of the rotation. -/
structure NearlyFaithful (β : ℝ) (δ : ℚ) (z : NativePoly P.N P.Q) (s : Fin P.n → ℤ) : Prop where
  rotates : ∃ evalAcc, EK.BSkey = some evalAcc ∧ ∀ (acc : P.Acc) (a : Fin P.n → ℕ), (∀ i, a i < P.q) →
    ∃ acc', evalAcc g acc P.n a P.q = some acc' ∧
      Bounded β (acc'.phase z - acc.phase z * xpow (-((2 * P.N / P.q : ℕ) * ∑ i, (a i : ℤ) * s i)))
  switches : ∀ ctExt : LWECiphertext P.N, Reduced ctExt → ctExt.modulus = P.Q →
    ∃ ct, switch w plat round EK P.q ctExt = .ok ct ∧
      Within P.q δ (LWE.phase s ct) ((phaseQ z ctExt).val * P.q / P.Q)

namespace Sized
variable {w} (sized : Sized w P)
include sized

theorem q_le : P.q ≤ 2 * P.N := by
  have pos : 0 < P.N := P.N_pos
  exact Nat.le_of_dvd (by omega) sized.divides

theorem eighths : ∃ r, 4 ≤ r ∧ P.q = 8 * r := by
  obtain ⟨k, hk⟩ := sized.power
  have large := sized.large
  have hk5 : 5 ≤ k := by
    rw [hk] at large
    exact (Nat.pow_le_pow_iff_right (show 1 < 2 by omega)).mp (show 2 ^ 5 ≤ 2 ^ k from large)
  obtain ⟨j, rfl⟩ := Nat.exists_eq_add_of_le hk5
  refine ⟨2 ^ (2 + j), ?_, ?_⟩
  · rw [pow_add]
    exact Nat.le_mul_of_pos_right _ (Nat.two_pow_pos j)
  · rw [hk, show 5 + j = 3 + (2 + j) by omega, pow_add]
    rfl

theorem two_mul_q_dvd : 2 * P.q ∣ 2 ^ w.bits := by
  obtain ⟨k, hk⟩ := sized.power
  have le := sized.q_le
  have narrow := sized.narrow
  have small : k < 32 := by
    rw [hk] at le
    exact (Nat.pow_lt_pow_iff_right (show 1 < 2 by omega)).mp (le.trans_lt narrow)
  rw [hk, ← pow_succ']
  exact pow_dvd_pow 2 (by cases w <;> simp only [NativeSize.bits] <;> omega)

theorem word : 2 * P.q ≤ 2 ^ w.bits := Nat.le_of_dvd (Nat.two_pow_pos _) sized.two_mul_q_dvd

theorem step_mul_half : 2 * P.N / P.q * (P.q / 2) = P.N := by
  obtain ⟨r, -, hr⟩ := sized.eighths
  have whole := Nat.div_mul_cancel sized.divides
  have half : 2 * (P.q / 2) = P.q := by omega
  rw [← half, ← mul_assoc, mul_comm _ 2, mul_assoc] at whole
  rw [half] at whole
  exact Nat.eq_of_mul_eq_mul_left (by omega) whole

end Sized

/-! ### Bootstrapping one ciphertext -/

section Core
variable {w plat round g EK} {β : ℝ} {δ : ℚ} {z : NativePoly P.N P.Q} {s : Fin P.n → ℤ}

/-- The loop of the core writes the look-up polynomial of the window. -/
theorem testVector_eq (sized : Sized w P) {q1 Q2p b : ℕ} (h1 : q1 < P.q) (hb : b < P.q) (hQ2p : Q2p ≤ P.Q) :
    (⟨fun i => ((sparseVector P.N (2 * P.N % 2 ^ 32 / P.q) (P.q / 2 % 2 ^ 32) (fun j =>
      windowValue w q1 (modAddFast w q1 (P.q / 2 % 2 ^ 32) P.q) P.Q Q2p (modSub w b j P.q)) i : ℕ) : ZMod P.Q)⟩ :
        NativePoly P.N P.Q) = lookUp (2 * P.N / P.q) (window P.q q1 (Q2p : ZMod P.Q)) b := by
  obtain ⟨r, hr, eq⟩ := sized.eighths
  have word := sized.word
  have le := sized.q_le
  have narrow := sized.narrow
  have half : P.q / 2 % 2 ^ 32 = P.q / 2 := Nat.mod_eq_of_lt (by omega)
  have step : 0 < 2 * P.N / P.q := Nat.div_pos le (by omega)
  rw [Nat.mod_eq_of_lt narrow, half]
  ext i
  rw [lookUp]
  dsimp only
  rw [sparseVector_eq step]
  have inside : i.val / (2 * P.N / P.q) < P.q / 2 := by
    rw [Nat.div_lt_iff_lt_mul step, mul_comm, sized.step_mul_half]
    exact i.isLt
  simp only [inside, and_true]
  split
  · have below : modSub w b (i.val / (2 * P.N / P.q)) P.q < P.q := by
      rw [modSub]
      exact modSubFast_lt (Nat.mod_lt _ (by omega)) (Nat.mod_lt _ (by omega)) (by omega)
    rw [windowValue_cast (show P.q = 2 * (P.q / 2) by omega) h1 below word hQ2p (by have := sized.fits; have := sized.largeQ; omega)]
    refine window_congr ?_
    rw [modSub, Nat.mod_eq_of_lt hb, Nat.mod_eq_of_lt (by omega)]
    exact modSubFast_cast hb (by omega) (by omega)
  · exact Nat.cast_zero

theorem Faithful.nearly (faithful : Faithful w plat round g EK δ z s) : NearlyFaithful w plat round g EK 0 δ z s where
  rotates := by
    obtain ⟨evalAcc, key, rotates⟩ := faithful.rotates
    refine ⟨evalAcc, key, fun acc a ha => ?_⟩
    obtain ⟨acc', run, turned⟩ := rotates acc a ha
    refine ⟨acc', run, ?_⟩
    rw [turned, sub_self]
    exact bounded_zero
  switches := faithful.switches

/-- A gate looks the phase of its prepared ciphertext up in its window, up to the error of the rotation. -/
theorem bootstrapGateCore_near (sized : Sized w P) (nearly : NearlyFaithful w plat round g EK β δ z s) {gate : BinGate} {q1 : ℕ}
    (constant : (gateConst w P.rgsw.q)[gate.ctorIdx]? = some q1) (h1 : q1 < P.q) {ct : LWECiphertext P.n}
    (reduced : Reduced ct) (modulus : ct.modulus = P.q) (hQ2p : add w (P.Q / mul w 2 ct.p) 1 ≤ P.Q) :
    ∃ acc, bootstrapGateCore w g gate EK ct = .ok acc ∧ (((acc.phase z).coeff 0 -
      window P.q q1 ((add w (P.Q / mul w 2 ct.p) 1 : ℕ) : ZMod P.Q) (LWE.phase s ct)).valMinAbs.natAbs : ℝ) ≤ β := by
  obtain ⟨evalAcc, key, rotates⟩ := nearly.rotates
  obtain ⟨acc, ran, turned⟩ := rotates ⟨0, lookUp (2 * P.N / P.q)
    (window P.q q1 ((add w (P.Q / mul w 2 ct.p) 1 : ℕ) : ZMod P.Q)) ct.b⟩ ct.a (modulus ▸ reduced.a_lt)
  obtain ⟨r, hr, eq⟩ := sized.eighths
  refine ⟨acc, ?_, ?_⟩
  · have vector := testVector_eq sized h1 (modulus ▸ reduced.b_lt) hQ2p
    simp only [bootstrapGateCore, key, Option.isNone_some, Bool.false_eq_true, if_false, constant, rotate, modulus, vector,
      ran]
  · have size : 2 * P.N / P.q * (P.q / 2) = P.N := sized.step_mul_half
    have anti := window_antiperiodic (show P.q = 2 * (P.q / 2) by omega) (by omega) q1
      ((add w (P.Q / mul w 2 ct.p) 1 : ℕ) : ZMod P.Q)
    have first := turned 0
    rw [coeff_sub, RLWECiphertext.phase, RLWECiphertext.phase] at first
    dsimp only at first
    rw [zero_mul, sub_zero, coeff_zero_lookUp size anti] at first
    exact first

/-- An error of the coefficient is scaled with it. -/
theorem scaled_near {Q : ℕ} [NeZero Q] (q : ℕ) (x y : ZMod Q) :
    Near q (((x - y).valMinAbs.natAbs : ℚ) * q / Q) ((x.val : ℚ) * q / Q) ((y.val : ℚ) * q / Q) := by
  have pos : (0 : ℚ) < Q := by exact_mod_cast NeZero.pos Q
  have same : (x.val : ℤ) ≡ y.val + (x - y).valMinAbs [ZMOD Q] := by
    rw [← ZMod.intCast_eq_intCast_iff]
    simp
  have shift : Near Q ((x - y).valMinAbs.natAbs : ℚ) (((y.val : ℤ) + (x - y).valMinAbs : ℤ) : ℚ) ((y.val : ℤ) : ℚ) := by
    refine near_of_abs ?_
    rw [Int.cast_add, add_sub_cancel_left, ← Int.cast_abs, Int.abs_eq_natAbs, Int.cast_natCast]
  have total := ((near_of_modEq same).trans shift).scale (show (0 : ℚ) ≤ q / Q by positivity)
  rw [mul_div_cancel₀ (q : ℚ) pos.ne', zero_add] at total
  convert total using 1
  · ring
  · push_cast
    ring
  · push_cast
    ring

theorem switch_inv {fmod : ℕ} {ctExt : LWECiphertext P.N} {ct : LWECiphertext P.n}
    (run : switch w plat round EK fmod ctExt = .ok ct) : ∃ ctKS, ct = modSwitch round fmod ctKS := by
  unfold switch at run
  cases key : EK.KSkey with
  | none =>
    rw [key] at run
    cases run
  | some K =>
    rw [key] at run
    cases run
    exact ⟨_, rfl⟩

theorem sum_transpose (a f : NativePoly P.N P.Q) : ∑ j, (transpose a).coeff j * f.coeff j = (a * f).coeff 0 := by
  rw [coeff_zero_mul]
  refine Finset.sum_congr rfl fun j _ => ?_
  congr 1
  rw [transpose]
  dsimp only
  by_cases h : j = 0
  · rw [dif_pos (by rw [h]; rfl), if_pos h, h]
  · have positive : j.val ≠ 0 := fun zero => h (Fin.ext zero)
    rw [dif_neg positive, if_neg h]
    congr 2
    ext
    rw [Fin.val_neg', Nat.mod_eq_of_lt (by have := j.isLt; omega)]

theorem phaseQ_extract (sized : Sized w P) {constant : ℕ} (hc : constant < P.Q) (acc : P.Acc) :
    phaseQ z (extract acc (modAddFast w constant (acc.b.coeff 0).val P.Q)) = constant + (acc.phase z).coeff 0 := by
  have hQ := sized.fits
  have : NeZero P.Q := ⟨by have := sized.largeQ; omega⟩
  have sum : ((modAddFast w constant (acc.b.coeff 0).val P.Q : ℕ) : ZMod P.Q) = constant + acc.b.coeff 0 := by
    rw [modAddFast_eq hc (ZMod.val_lt _) (by omega), ZMod.natCast_mod, Nat.cast_add, ZMod.natCast_zmod_val]
  rw [phaseQ, extract, sum, RLWECiphertext.phase, coeff_sub, ← sum_transpose]
  simp only [ZMod.natCast_zmod_val]
  ring

theorem finish_ok (sized : Sized w P) (nearly : NearlyFaithful w plat round g EK β δ z s) {constant : ℕ}
    (hc : constant < P.Q) (acc : P.Acc) :
    ∃ ct, finish w plat round EK constant P.q acc = .ok ct ∧ Reduced ct ∧ ct.modulus = P.q ∧ ct.p = 4 ∧
      Within P.q δ (LWE.phase s ct) (((constant : ZMod P.Q) + (acc.phase z).coeff 0).val * P.q / P.Q) := by
  have hQ := sized.fits
  have : NeZero P.Q := ⟨by have := sized.largeQ; omega⟩
  have reduced : Reduced (extract acc (modAddFast w constant (acc.b.coeff 0).val P.Q)) :=
    ⟨fun j => ZMod.val_lt _, modAddFast_lt hc (ZMod.val_lt _) (by omega)⟩
  obtain ⟨ct, run, near⟩ := nearly.switches _ reduced rfl
  obtain ⟨ctKS, rfl⟩ := switch_inv run
  rw [phaseQ_extract sized hc] at near
  exact ⟨_, run, modSwitch_reduced round P.q_pos ctKS, rfl, rfl, near⟩

end Core

/-! ### One gate -/

/-- The start of the window of a gate for plaintext modulus four, in eighths of `q`. -/
def eighths : BinGate → Option ℕ
  | .OR | .XOR_FAST => some 5
  | .AND | .MAJORITY => some 7
  | .NOR | .XNOR_FAST => some 1
  | .NAND => some 3
  | _ => none

/-- `ct` holds the bit `m` for plaintext modulus `p`, with a noise below an eighth of `q / p`. -/
structure Encodes (p : ℕ) (s : Fin P.n → ℤ) (ct : LWECiphertext P.n) (m : Bool) : Prop where
  reduced : Reduced ct
  modulus : ct.modulus = P.q
  ptModulus : ct.p = p
  near : Within P.q (P.q / (8 * p)) (LWE.phase s ct) (m.toNat * P.q / p)

/-- A phase near a multiple `k` of a quarter is an odd number of eighths from the start of the window. -/
theorem window_eighths {K : Type*} [CommRing K] {r c : ℕ} (pos : 0 < r) (odd : c % 2 = 1) (v : K) {x k : ℤ}
    (near : Within (8 * r : ℕ) r x (k * (2 * r))) :
    window (8 * r) (c * r) v x = if (2 * k - c) % 8 < 4 then -v else v := by
  obtain ⟨t, ht⟩ := near
  have bounds := abs_lt.mp ht
  have lo : -(r : ℤ) < x - k * (2 * r) - t * (8 * r) := by
    have := bounds.1
    push_cast at this
    exact_mod_cast this
  have hi : x - k * (2 * r) - t * (8 * r) < r := by
    have := bounds.2
    push_cast at this
    exact_mod_cast this
  obtain ⟨d, turns, hd, split⟩ : ∃ d turns : ℤ, (d = 1 ∨ d = 3 ∨ d = 5 ∨ d = 7) ∧ 2 * k - c = d + 8 * turns :=
    ⟨(2 * k - c) % 8, (2 * k - c) / 8, by omega, by omega⟩
  have rest : (x - (c * r : ℕ)) % (8 * r : ℕ) = d * r + (x - k * (2 * r) - t * (8 * r)) := by
    have whole : x - (c * r : ℕ) = d * r + (x - k * (2 * r) - t * (8 * r)) + (8 * r : ℕ) * (turns + t) := by
      push_cast
      linear_combination (r : ℤ) * split
    rw [whole, Int.add_mul_emod_self_left]
    refine Int.emod_eq_of_lt ?_ ?_
    · rcases hd with rfl | rfl | rfl | rfl <;> linarith
    · rcases hd with rfl | rfl | rfl | rfl <;> push_cast <;> linarith
  have side : (x - (c * r : ℕ)) % (8 * r : ℕ) < (8 * r / 2 : ℕ) ↔ (2 * k - c) % 8 < 4 := by
    rw [rest, show 8 * r / 2 = 4 * r by omega]
    push_cast
    rcases hd with rfl | rfl | rfl | rfl
    · exact iff_of_true (by linarith) (by omega)
    · exact iff_of_true (by linarith) (by omega)
    · exact iff_of_false (by linarith) (by omega)
    · exact iff_of_false (by linarith) (by omega)
  rw [window]
  simp only [side]

section Gates
variable {w plat round g EK} {z : NativePoly P.N P.Q} {s : Fin P.n → ℤ} {c : ℕ}

theorem gateConst_eighths (sized : Sized w P) {gate : BinGate} {r : ℕ} (hr : P.q = 8 * r) (start : eighths gate = some c) :
    (gateConst w P.rgsw.q)[gate.ctorIdx]? = some (c * r) ∧ c * r < P.q ∧ c % 2 = 1 := by
  have word := sized.word
  have eighth : P.rgsw.q >>> 3 = r := by
    rw [P.same_q, Nat.shiftRight_eq_div_pow]
    exact Nat.div_eq_of_eq_mul_right (by omega) hr
  have large := sized.large
  have entry : ∀ d, d ≤ 7 → mul w d r = d * r := by
    intro d hd
    have : d * r ≤ 7 * r := Nat.mul_le_mul_right r hd
    exact wrap_of_lt (by rw [hr] at word large; omega)
  rw [gateConst, eighth, entry 5 (by omega), entry 7 (by omega), entry 1 (by omega), entry 3 (by omega)]
  cases gate <;> simp only [eighths, Option.some.injEq, reduceCtorEq] at start <;> subst start
  all_goals exact ⟨rfl, by omega, rfl⟩

theorem eighthQ_eq (sized : Sized w P) : add w (P.Q / mul w 2 4) 1 = P.Q / 8 + 1 := by
  have hQ := sized.fits
  have largeQ := sized.largeQ
  have two : mul w 2 4 = 8 := by cases w <;> rfl
  rw [two, add, wrap_of_lt (by omega)]

theorem quarter_near (sized : Sized w P) :
    |((2 * (P.Q / 8 + 1) : ℕ) : ℚ) * P.q / P.Q - (1 : ℕ) * P.q / 4| ≤ P.q / 64 := by
  have largeQ := sized.largeQ
  have hQ : (128 : ℚ) ≤ P.Q := by exact_mod_cast largeQ
  have unit : (P.q : ℚ) / P.Q ≤ P.q / 128 := div_le_div_of_nonneg_left (Nat.cast_nonneg _) (by norm_num) hQ
  have twice : ((2 * (P.Q / 8 + 1) : ℕ) : ℚ) * P.q / P.Q - (1 : ℕ) * P.q / 4 =
      2 * (((P.Q / 8 + 1 : ℕ) : ℚ) * P.q / P.Q - P.q / 8) := by
    rw [Nat.cast_mul, Nat.cast_two, Nat.cast_one]
    ring
  have eighth := succ_eighth_near (show 0 < P.Q by omega) P.q
  rw [twice, abs_mul, abs_two]
  linarith

/-- An eighth of `Q` plus or minus itself, scaled, is a quarter of `q` or zero. -/
theorem encodes_of_sign (sized : Sized w P) (m : Bool) {ct' : LWECiphertext P.n} (small : Reduced ct')
    (modulus' : ct'.modulus = P.q) (four' : ct'.p = 4) (close : Within P.q (P.q / 64) (LWE.phase s ct') ((((P.Q / 8 + 1 : ℕ) :
      ZMod P.Q) + if m then ((P.Q / 8 + 1 : ℕ) : ZMod P.Q) else -((P.Q / 8 + 1 : ℕ) : ZMod P.Q)).val * P.q / P.Q)) :
    Encodes 4 s ct' m := by
  have largeQ := sized.largeQ
  have hq : (0 : ℚ) ≤ P.q := Nat.cast_nonneg _
  have : NeZero P.Q := ⟨by omega⟩
  refine ⟨small, modulus', four', ?_⟩
  cases m with
  | false =>
    rw [if_neg Bool.false_ne_true, add_neg_cancel, ZMod.val_zero, Nat.cast_zero, zero_mul, zero_div] at close
    have wide := close.trans_near ((near_refl 0).mono (show (0 : ℚ) ≤ P.q / 64 by positivity))
    convert wide using 1
    · push_cast
      ring
    · simp
  | true =>
    have sum : ((P.Q / 8 + 1 : ℕ) : ZMod P.Q) + ((P.Q / 8 + 1 : ℕ) : ZMod P.Q) = ((2 * (P.Q / 8 + 1) : ℕ) : ZMod P.Q) := by
      push_cast
      ring
    rw [if_pos rfl, sum, ZMod.val_natCast, Nat.mod_eq_of_lt (by omega)] at close
    have wide := close.trans_near (near_of_abs (quarter_near sized))
    convert wide using 1
    · push_cast
      ring
    · simp

/-- The error of the coefficient is scaled from `Q` to `q` and added to that of the switches. -/
theorem encodes_of_coefficient {β : ℝ} {δ : ℚ} (sized : Sized w P) (margin : β * P.q / P.Q + δ ≤ P.q / 64) (m : Bool)
    {ct' : LWECiphertext P.n} (small : Reduced ct') (modulus' : ct'.modulus = P.q) (four' : ct'.p = 4) {x : ZMod P.Q}
    (coefficient : ((x - if m then ((P.Q / 8 + 1 : ℕ) : ZMod P.Q) else -((P.Q / 8 + 1 : ℕ) : ZMod P.Q)).valMinAbs.natAbs : ℝ) ≤ β)
    (close : Within P.q δ (LWE.phase s ct') ((((P.Q / 8 + 1 : ℕ) : ZMod P.Q) + x).val * P.q / P.Q)) :
    Encodes 4 s ct' m := by
  have largeQ := sized.largeQ
  have : NeZero P.Q := ⟨by omega⟩
  have drift := scaled_near P.q (((P.Q / 8 + 1 : ℕ) : ZMod P.Q) + x)
    (((P.Q / 8 + 1 : ℕ) : ZMod P.Q) + if m then ((P.Q / 8 + 1 : ℕ) : ZMod P.Q) else -((P.Q / 8 + 1 : ℕ) : ZMod P.Q))
  rw [add_sub_add_left_eq_sub] at drift
  refine encodes_of_sign sized m small modulus' four' ((close.trans_near drift).mono ?_)
  have pos : (0 : ℝ) < P.Q := by exact_mod_cast (show 0 < P.Q by omega)
  have scaled := div_le_div_of_nonneg_right (mul_le_mul_of_nonneg_right coefficient (Nat.cast_nonneg P.q)) pos.le
  have total := (add_le_add scaled (le_refl (δ : ℝ))).trans margin
  rw [add_comm]
  refine (Rat.cast_le (K := ℝ)).mp ?_
  push_cast at total ⊢
  exact total

variable (w plat round g EK s) in
/-- The core and the end of a gate turn a prepared ciphertext with a phase near `k` quarters into one that holds a bit. -/
def Refreshes : Prop :=
  ∀ (gate : BinGate) (c : ℕ), eighths gate = some c → ∀ ct : LWECiphertext P.n, Reduced ct → ct.modulus = P.q → ct.p = 4 →
    ∀ k : ℤ, Within P.q (P.q / 8) (LWE.phase s ct) (k * P.q / 4) →
      ∃ ct', (bootstrapGateCore w g gate EK ct >>= finish w plat round EK (P.Q / 8 + 1) P.q) = .ok ct' ∧
        Encodes 4 s ct' (!decide ((2 * k - c) % 8 < 4))

theorem NearlyFaithful.refreshes {β : ℝ} {δ : ℚ} (nearly : NearlyFaithful w plat round g EK β δ z s) (sized : Sized w P)
    (margin : β * P.q / P.Q + δ ≤ P.q / 64) : Refreshes w plat round g EK s := by
  intro gate c start ct reduced modulus four k near
  obtain ⟨r, hr, eq⟩ := sized.eighths
  obtain ⟨constant, inside, odd⟩ := gateConst_eighths sized eq start
  have largeQ := sized.largeQ
  have eighthQ := eighthQ_eq sized
  obtain ⟨acc, core, coefficient⟩ := bootstrapGateCore_near sized nearly constant inside reduced modulus
    (by rw [four, eighthQ]; omega)
  obtain ⟨ct', ended, small, modulus', four', close⟩ := finish_ok sized nearly (show P.Q / 8 + 1 < P.Q by omega) acc
  have position : Within (8 * r : ℕ) r (LWE.phase s ct) (k * (2 * r)) := by
    rw [eq] at near
    push_cast at near ⊢
    convert near using 1 <;> ring
  have value := window_eighths (by omega) odd ((P.Q / 8 + 1 : ℕ) : ZMod P.Q) position
  rw [← eq] at value
  rw [four, eighthQ, value] at coefficient
  refine ⟨ct', ?_, encodes_of_coefficient sized margin _ small modulus' four' ?_ close⟩
  · rw [core]
    exact ended
  · simpa only [Bool.not_eq_true', decide_eq_false_iff_not, ite_not] using coefficient

theorem Faithful.refreshes (faithful : Faithful w plat round g EK (P.q / 64) z s) (sized : Sized w P) :
    Refreshes w plat round g EK s :=
  faithful.nearly.refreshes sized (by rw [zero_mul, zero_div, zero_add]; push_cast; exact le_rfl)

theorem Refreshes.bootstrapped (refreshes : Refreshes w plat round g EK s) (gate : BinGate) (start : eighths gate = some c)
    {ct : LWECiphertext P.n} (reduced : Reduced ct) (modulus : ct.modulus = P.q) (four : ct.p = 4) {k : ℤ}
    (near : Within P.q (P.q / 8) (LWE.phase s ct) (k * P.q / 4)) {m : Bool} (value : m = !decide ((2 * k - c) % 8 < 4)) :
    ∃ ct', (bootstrapGateCore w g gate EK ct >>= finish w plat round EK (P.Q / 8 + 1) P.q) = .ok ct' ∧
      Encodes 4 s ct' m := by
  rw [value]
  exact refreshes gate c start ct reduced modulus four k near

variable (sized : Sized w P) (refreshes : Refreshes w plat round g EK s) {ct1 ct2 : LWECiphertext P.n} {m1 m2 : Bool}

section
include sized

theorem evalNOT_encodes (h : Encodes 4 s ct1 m1) : Encodes 4 s (evalNOT w ct1) (!m1) := by
  obtain ⟨r, hr, eq⟩ := sized.eighths
  have word := sized.word
  have modulus := h.modulus
  have a_lt : ∀ i, ct1.a i < P.q := fun i => modulus ▸ h.reduced.a_lt i
  have b_lt : ct1.b < P.q := modulus ▸ h.reduced.b_lt
  have entry : ∀ i, (evalNOT w ct1).a i < P.q ∧ ((evalNOT w ct1).a i : ℤ) ≡ -ct1.a i [ZMOD P.q] := by
    intro i
    have below := a_lt i
    rw [evalNOT]
    dsimp only
    split
    · rename_i zero
      rw [zero]
      exact ⟨by omega, Int.ModEq.refl _⟩
    · have value : sub w ct1.modulus (ct1.a i) = P.q - ct1.a i := by
        rw [sub, wrap, modulus, show P.q + 2 ^ w.bits - ct1.a i = P.q - ct1.a i + 2 ^ w.bits by omega, Nat.add_mod_right,
          Nat.mod_eq_of_lt (by omega)]
      rw [value]
      refine ⟨by omega, Int.modEq_iff_dvd.mpr ⟨-1, ?_⟩⟩
      rw [Nat.cast_sub below.le]
      ring
  have quarter : P.q / 4 < P.q := by omega
  have b_eq : (evalNOT w ct1).b = modSubFast w (P.q / 4) ct1.b P.q := by rw [evalNOT, modulus]
  have turned : LWE.phase s (evalNOT w ct1) ≡ (P.q / 4 : ℕ) - LWE.phase s ct1 [ZMOD P.q] := by
    have sums : ∑ i, ((evalNOT w ct1).a i : ℤ) * s i ≡ ∑ i, -ct1.a i * s i [ZMOD P.q] :=
      Int.ModEq.sum fun i _ => (entry i).2.mul_right _
    have first := modSubFast_cast (w := w) quarter b_lt (by omega)
    rw [← b_eq] at first
    refine (first.sub sums).trans ?_
    simp only [LWE.phase, neg_mul, Finset.sum_neg_distrib]
    rw [show ((P.q / 4 : ℕ) : ℤ) - ct1.b - -∑ i, (ct1.a i : ℤ) * s i =
      (P.q / 4 : ℕ) - (ct1.b - ∑ i, (ct1.a i : ℤ) * s i) by ring]
  refine ⟨⟨fun i => ?_, ?_⟩, modulus, rfl, ?_⟩
  · have : (evalNOT w ct1).modulus = P.q := modulus
    rw [this]
    exact (entry i).1
  · have : (evalNOT w ct1).modulus = P.q := modulus
    rw [this, b_eq]
    exact modSubFast_lt quarter b_lt (by omega)
  · refine Within.of_modEq turned ?_
    have exact_quarter : ((P.q / 4 : ℕ) : ℚ) = P.q / 4 := by
      rw [eq, show 8 * r / 4 = 2 * r by omega]
      push_cast
      ring
    obtain ⟨t, ht⟩ := h.near.neg
    refine ⟨t, ?_⟩
    rw [Int.cast_sub, Int.cast_natCast, exact_quarter]
    cases m1 <;> simp only [Bool.toNat_false, Bool.toNat_true, Bool.not_false, Bool.not_true] at ht ⊢ <;>
      push_cast at ht ⊢ <;> convert ht using 2 <;> ring

theorem evalConstant_encodes (s : Fin P.n → ℤ) (m : Bool) : Encodes 4 s (evalConstant P w m) m := by
  obtain ⟨r, hr, eq⟩ := sized.eighths
  have word := sized.word
  have value : NativeInteger.mul w m.toNat (P.q / 4) = m.toNat * (P.q / 4) := by
    rw [NativeInteger.mul]
    refine wrap_of_lt ?_
    cases m <;> simp only [Bool.toNat_false, Bool.toNat_true] <;> omega
  have held : LWE.phase s (evalConstant P w m) = (m.toNat * (P.q / 4) : ℕ) := by
    rw [LWE.phase, evalConstant, noiselessEmbedding, value]
    simp
  have large := sized.large
  refine ⟨⟨fun i => ?_, ?_⟩, rfl, rfl, 0, ?_⟩
  · show 0 < P.q
    omega
  · show NativeInteger.mul w m.toNat (P.q / 4) < P.q
    rw [value]
    cases m <;> simp only [Bool.toNat_false, Bool.toNat_true] <;> omega
  · rw [held, eq, show 8 * r / 4 = 2 * r by omega]
    have pos : (0 : ℚ) < r := by exact_mod_cast (show 0 < r by omega)
    have none : (((m.toNat * (2 * r) : ℕ) : ℤ) : ℚ) - m.toNat * (8 * r : ℕ) / (4 : ℕ) - (0 : ℤ) * (8 * r : ℕ) = 0 := by
      push_cast
      ring
    rw [none, abs_zero]
    push_cast
    positivity

theorem evalAddEq_encodes (h1 : Encodes 4 s ct1 m1) (h2 : Encodes 4 s ct2 m2) :
    ∃ ct, evalAddEq w (copy ct1) ct2 = .ok ct ∧ Reduced ct ∧ ct.modulus = P.q ∧ ct.p = 4 ∧
      Within P.q (P.q / 16) (LWE.phase s ct) ((m1.toNat + m2.toNat : ℕ) * P.q / 4) := by
  have same1 : (copy ct1).modulus = P.q := h1.modulus
  obtain ⟨ct, run, reduced, modulus, four, total⟩ := evalAddEq_ok (w := w) s (same1.trans h2.modulus.symm)
    h1.reduced.copy h2.reduced (same1 ▸ sized.word)
  rw [same1] at modulus total
  rw [phase_copy] at total
  refine ⟨ct, run, reduced, modulus, four, Within.of_modEq total ?_⟩
  have sum := h1.near.add h2.near
  rw [← Int.cast_add] at sum
  convert sum using 1
  all_goals
    push_cast
    ring

/-- Twice the difference, which the fast gates start with. -/
theorem twice_encodes (h1 : Encodes 4 s ct1 m1) (h2 : Encodes 4 s ct2 m2) :
    ∃ ct, (evalSubEq w (copy ct1) ct2 >>= fun ct => evalAddEq w ct ct) = .ok ct ∧ Reduced ct ∧ ct.modulus = P.q ∧
      ct.p = 4 ∧ Within P.q (P.q / 8) (LWE.phase s ct) ((2 * (m1.toNat - m2.toNat) : ℤ) * P.q / 4) := by
  have same1 : (copy ct1).modulus = P.q := h1.modulus
  obtain ⟨ct, run, reduced, modulus, four, total⟩ := evalSubEq_ok (w := w) s (same1.trans h2.modulus.symm)
    h1.reduced.copy h2.reduced (same1 ▸ sized.word)
  rw [same1] at modulus total
  rw [phase_copy] at total
  obtain ⟨ct', run', reduced', modulus', four', total'⟩ := evalAddEq_ok (w := w) s rfl reduced reduced (modulus ▸ sized.word)
  rw [modulus] at modulus' total'
  refine ⟨ct', ?_, reduced', modulus', four'.trans four, Within.of_modEq (total'.trans (total.add total)) ?_⟩
  · rw [run]
    exact run'
  have difference := h1.near.sub h2.near
  have twice := difference.add difference
  rw [← Int.cast_sub, ← Int.cast_add] at twice
  convert twice using 1
  all_goals
    push_cast
    ring

end

include sized refreshes

theorem evalSumGate_encodes (gate : BinGate) {f : Bool → Bool → Bool} (table : gate.truthTable = some f) (start : eighths gate = some c)
    (h1 : Encodes 4 s ct1 m1) (h2 : Encodes 4 s ct2 m2) :
    ∃ ct, evalSumGate w plat round g EK gate ct1 ct2 = .ok ct ∧ Encodes 4 s ct (f m1 m2) := by
  have hq : (0 : ℚ) ≤ P.q := Nat.cast_nonneg _
  by_cases fast : gate = .XOR_FAST ∨ gate = .XNOR_FAST
  · obtain ⟨ctprep, prep, reduced, modulus, four, near⟩ := twice_encodes sized h1 h2
    obtain ⟨ct, run, encodes⟩ := refreshes.bootstrapped gate start reduced modulus four (m := f m1 m2) near (by
      rcases fast with rfl | rfl
      · cases table
        cases start
        cases m1 <;> cases m2 <;> rfl
      · cases table
        cases start
        cases m1 <;> cases m2 <;> rfl)
    refine ⟨ct, ?_, encodes⟩
    rw [evalSumGate, if_pos fast, prep, h1.modulus]
    exact run
  · obtain ⟨ctprep, prep, reduced, modulus, four, near⟩ := evalAddEq_encodes sized h1 h2
    obtain ⟨ct, run, encodes⟩ := refreshes.bootstrapped gate start reduced modulus four (m := f m1 m2)
      (k := (m1.toNat + m2.toNat : ℕ)) (near.mono (by linarith)) (by
      cases gate <;> simp only [eighths, BinGate.truthTable, Option.some.injEq, reduceCtorEq] at start table
      all_goals
        subst start table
        revert fast
        cases m1 <;> cases m2 <;> decide)
    refine ⟨ct, ?_, encodes⟩
    rw [evalSumGate, if_neg fast, prep, h1.modulus]
    exact run

theorem evalBinGate_encodes (gate : BinGate) {f : Bool → Bool → Bool} (table : gate.truthTable = some f) {addr1 addr2 : ℕ}
    (different : addr1 ≠ addr2) (h1 : Encodes 4 s ct1 m1) (h2 : Encodes 4 s ct2 m2) :
    ∃ ct, evalBinGate w plat round g EK gate addr1 addr2 ct1 ct2 = .ok ct ∧ Encodes 4 s ct (f m1 m2) := by
  by_cases combined : gate = .XOR ∨ gate = .XNOR
  · obtain ⟨ctAND1, and1, hand1⟩ := evalSumGate_encodes sized refreshes .AND rfl rfl h1 (evalNOT_encodes sized h2)
    obtain ⟨ctAND2, and2, hand2⟩ := evalSumGate_encodes sized refreshes .AND rfl rfl (evalNOT_encodes sized h1) h2
    obtain ⟨ctOR, or, hor⟩ := evalSumGate_encodes sized refreshes .OR rfl rfl hand1 hand2
    have run : evalBinGate w plat round g EK gate addr1 addr2 ct1 ct2 =
        .ok (if gate = .XOR then ctOR else evalNOT w ctOR) := by
      simp only [evalBinGate, if_neg different, if_pos combined, and1, and2, or, bind, Except.bind, pure, Except.pure]
    rcases combined with rfl | rfl
    · cases table
      refine ⟨ctOR, run, ?_⟩
      convert hor using 1
      cases m1 <;> cases m2 <;> rfl
    · cases table
      refine ⟨evalNOT w ctOR, run, ?_⟩
      convert evalNOT_encodes sized hor using 1
      cases m1 <;> cases m2 <;> rfl
  · obtain ⟨c, start⟩ : ∃ c, eighths gate = some c := by
      cases gate <;> simp_all [BinGate.truthTable, eighths]
    obtain ⟨ct, run, encodes⟩ := evalSumGate_encodes sized refreshes gate table start h1 h2
    refine ⟨ct, ?_, encodes⟩
    rw [← run]
    simp only [evalBinGate, if_neg different, if_neg combined]

theorem bootstrap_encodes (h : Encodes 4 s ct1 m1) :
    ∃ ct, bootstrap w plat round g EK ct1 = .ok ct ∧ Encodes 4 s ct m1 := by
  obtain ⟨r, hr, eq⟩ := sized.eighths
  have hq : (0 : ℚ) ≤ P.q := Nat.cast_nonneg _
  have same1 : (copy ct1).modulus = P.q := h.modulus
  obtain ⟨reduced, moved⟩ := evalAddConstEq_ok (w := w) s h.reduced.copy (show P.q / 4 < _ by rw [same1]; omega)
    (same1 ▸ sized.word)
  rw [same1, phase_copy] at moved
  have exact_quarter : ((P.q / 4 : ℕ) : ℚ) = P.q / 4 := by
    rw [eq, show 8 * r / 4 = 2 * r by omega]
    push_cast
    ring
  have near : Within P.q (P.q / 8) (LWE.phase s (evalAddConstEq w (copy ct1) (P.q / 4)))
      ((m1.toNat + 1 : ℤ) * P.q / 4) := by
    refine Within.of_modEq moved ?_
    have shifted := h.near.mono (show _ ≤ (P.q : ℚ) / 8 by push_cast; linarith)
    obtain ⟨t, ht⟩ := shifted
    refine ⟨t, ?_⟩
    rw [Int.cast_add, Int.cast_natCast, exact_quarter]
    convert ht using 2
    push_cast
    ring
  obtain ⟨ct, run, encodes⟩ := refreshes.bootstrapped .AND rfl reduced same1 rfl (m := m1)
    (k := m1.toNat + 1) (by exact_mod_cast near) (by cases m1 <;> rfl)
  refine ⟨ct, ?_, encodes⟩
  rw [bootstrap, h.modulus, h.ptModulus, eighthQ_eq sized]
  exact run

variable {ct3 : LWECiphertext P.n} {m3 : Bool} {addr1 addr2 addr3 : ℕ}

theorem majority_encodes (h1 : Encodes 4 s ct1 m1) (h2 : Encodes 4 s ct2 m2) (h3 : Encodes 4 s ct3 m3)
    (different : [addr1, addr2, addr3].Nodup) :
    ∃ ct, evalBinGateVector w plat round g EK .MAJORITY [(addr1, ct1), (addr2, ct2), (addr3, ct3)] = .ok ct ∧
      Encodes 4 s ct (m1 && m2 || m1 && m3 || m2 && m3) := by
  have hq : (0 : ℚ) ≤ P.q := Nat.cast_nonneg _
  obtain ⟨sum, add1, reduced, modulus, four, near⟩ := evalAddEq_encodes sized h1 h2
  obtain ⟨sum', add2, reduced', modulus', four', total⟩ := evalAddEq_ok (w := w) s (modulus.trans h3.modulus.symm) reduced
    h3.reduced (modulus ▸ sized.word)
  rw [modulus] at modulus' total
  have near' : Within P.q (P.q / 8) (LWE.phase s sum') ((m1.toNat + m2.toNat + m3.toNat : ℕ) * P.q / 4) := by
    refine Within.of_modEq total ?_
    have all := (near.add h3.near).mono (show _ ≤ (P.q : ℚ) / 8 by push_cast; linarith)
    rw [← Int.cast_add] at all
    convert all using 1
    push_cast
    ring
  obtain ⟨ct, run, encodes⟩ := refreshes.bootstrapped .MAJORITY rfl reduced' modulus' (four'.trans four)
    (m := m1 && m2 || m1 && m3 || m2 && m3) (k := (m1.toNat + m2.toNat + m3.toNat : ℕ)) near'
    (by cases m1 <;> cases m2 <;> cases m3 <;> rfl)
  refine ⟨ct, ?_, encodes⟩
  have same : setptModulus 4 (copy ct1) = copy ct1 := rfl
  rw [← run]
  simp only [evalBinGateVector, List.map_cons, List.map_nil, different, not_true, if_false, h1.ptModulus, same,
    List.foldlM_cons, List.foldlM_nil, add1, add2, h1.modulus, eighthQ_eq sized, true_or, if_true, bind, Except.bind]
  rfl

theorem cmux_encodes (h1 : Encodes 4 s ct1 m1) (h2 : Encodes 4 s ct2 m2) (h3 : Encodes 4 s ct3 m3)
    (different : [addr1, addr2, addr3].Nodup) :
    ∃ ct, evalBinGateVector w plat round g EK .CMUX [(addr1, ct1), (addr2, ct2), (addr3, ct3)] = .ok ct ∧
      Encodes 4 s ct (if m3 then m2 else m1) := by
  have other : addr2 ≠ addr3 := by
    simp only [List.nodup_cons, List.mem_singleton] at different
    exact different.2.1
  obtain ⟨ctNAND1, nand1, hnand1⟩ :=
    evalSumGate_encodes sized refreshes .NAND rfl rfl h1 (evalNOT_encodes sized h3)
  obtain ⟨ctNAND2, nand2, hnand2⟩ := evalBinGate_encodes sized refreshes .NAND rfl other h2 h3
  obtain ⟨ct, nand, hnand⟩ := evalSumGate_encodes sized refreshes .NAND rfl rfl hnand1 hnand2
  refine ⟨ct, ?_, ?_⟩
  · simp only [evalBinGateVector, List.map_cons, List.map_nil, different, not_true, if_false, reduceCtorEq, or_self,
      if_true, nand1, nand2, nand, bind, Except.bind]
  · convert hnand using 1
    cases m1 <;> cases m2 <;> cases m3 <;> rfl

end Gates

end LWEGate
end MultiKeyFHE
