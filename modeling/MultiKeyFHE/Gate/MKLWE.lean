import MultiKeyFHE.Gate.Bootstrap
import MultiKeyFHE.Params.Constants
import MultiKeyFHE.Library.Circuit

/-!
# Gates of the multi-key LWE scheme

`EvalBinGate` on MKLWE ciphertexts, followed from the phases of its inputs to the phase of its output: the
constant `5q/8`, the switch to `2N`, the test polynomial, the extraction with `Q/8 + 1`, and the switch
back. One gate keeps the encoding, so every circuit does.
-/

namespace MultiKeyFHE
open Negacyclic NegPoly NativeInteger NativeVector UniEncAccumulator Circle

variable {w : NativeSize}

/-- `MKLWECryptoParams` next to the accumulator parameters `p`, whose `k`, `N` and `Q` it shares. -/
structure MKLWEParams (p : UniEncParams w) where
  n : ℕ
  q : ℕ
  qKS : ℕ
  baseKS : ℕ
  digitCount : ℕ
  two_le_q : 2 ≤ q
  two_le_qKS : 2 ≤ qKS
  q_ok : ¬ modulusTooLarge w q
  qKS_ok : ¬ modulusTooLarge w qKS

namespace MKLWEGate
open Gate MKLWE
variable {p : UniEncParams w} (pp : MKLWEParams p)

/-- The members of `UniEncBTKey` a gate uses. The accumulator key stands for `EvalAcc` under it. -/
structure EvalKeys where
  BSkey : Option (Acc p → (Fin p.k → Fin pp.n → ℕ) → Except Fault (Acc p))
  LKSkey : SwitchingKey p.k p.N pp.n pp.qKS

variable {pp}

/-- `BootstrapGateCore`. The gate is an argument of the source that nothing reads. -/
def bootstrapGateCore (_gate : BinGate) (EK : EvalKeys pp) (ct : MKLWECiphertext p.k pp.n) :
    Except Fault (Acc p) :=
  match EK.BSkey with
  | none => .error (.configError ("Bootstrapping keys have not been generated. Please call MKBTKeyGen " ++
      "before calling bootstrapping."))
  | some evalAcc =>
    let Rx := rx p (Q2p p ct.p) (p.Q - Q2p p ct.p)
    let bHat := scaledIndex w p.N ct.modulus ct.b
    evalAcc (initial (toPoly p (rxxb p Rx bHat))) (getAneg w ct)

/-- The ciphertext of dimension `N` and modulus `Q` taken from the accumulator. -/
def extract (acc : Acc p) : MKLWECiphertext p.k p.N := { a := accExt p acc, b := p.Q / 2 ^ 3 + 1, modulus := p.Q }

/-- `EvalBinGate` on the objects at `addr1` and `addr2`. -/
def evalBinGate (round : FloorRound) (gate : BinGate) (EK : EvalKeys pp) (addr1 addr2 : ℕ)
    (ct1 ct2 : MKLWECiphertext p.k pp.n) : Except Fault (MKLWECiphertext p.k pp.n) := do
  if addr1 = addr2 then throw (.configError "Input ciphertexts should be independant")
  let q := pp.q % 2 ^ 32
  let tempB := 5 * q % 2 ^ 32 / 8
  let ctTemp : MKLWECiphertext p.k pp.n := { a := fun _ _ => 0, b := tempB % q, modulus := q }
  let ctprep ← evalAddEq w (copy ct1) ct2
  let ctTemp ← evalSubEq w ctTemp ctprep
  let ctMS1 ← modSwitch round (p.N * 2 % 2 ^ 32) ctTemp
  let acc ← bootstrapGateCore gate EK ctMS1
  let ctMS ← modSwitch round pp.qKS (extract acc)
  return keySwitch w EK.LKSkey pp.baseKS pp.digitCount ctMS

/-! ### Assumptions on the parts -/

def phaseQ (sk : Acc p) (ct : MKLWECiphertext p.k p.N) : ZMod p.Q :=
  ct.b - ∑ u, ∑ j, ((ct.a u j : ℕ) : ZMod p.Q) * (sk u).coeff j

/-- The rotation is exact, and each of the two switches moves the phase by less than `q / 64`. -/
structure Faithful (round : FloorRound) (EK : EvalKeys pp) (sk : Acc p) (s : Fin p.k → Fin pp.n → ℕ) :
    Prop where
  rotates : ∃ evalAcc, EK.BSkey = some evalAcc ∧ ∀ (A : Fin p.k → Fin pp.n → ℕ) (T : Poly p),
    (∀ u i, A u i < 2 * p.N) → ∃ acc, evalAcc (initial T) A = .ok acc ∧
      UniEncAccumulator.phase p sk acc = T * xpow (∑ u, ∑ i, (A u i : ℤ) * s u i)
  switches : ∀ ct ct' : MKLWECiphertext p.k pp.n, Reduced ct → ct.modulus = pp.q →
    modSwitch round (2 * p.N) ct = .ok ct' →
    Within pp.q (pp.q / 64) (MKLWE.phase s ct' * pp.q / (2 * p.N)) (MKLWE.phase s ct)
  returns : ∀ ct ct' : MKLWECiphertext p.k p.N, Reduced ct → ct.modulus = p.Q →
    modSwitch round pp.qKS ct = .ok ct' →
    Within pp.q (pp.q / 64) (MKLWE.phase s (keySwitch w EK.LKSkey pp.baseKS pp.digitCount ct'))
      ((phaseQ sk ct).val * pp.q / p.Q)

/-- `ct` holds the bit `m` with noise `ε`: its phase is that far from `m * q / 4`. -/
structure EncodesWithin (ε : ℚ) (s : Fin p.k → Fin pp.n → ℕ) (ct : MKLWECiphertext p.k pp.n) (m : Bool) :
    Prop where
  reduced : Reduced ct
  modulus : ct.modulus = pp.q
  near : Near pp.q ε (MKLWE.phase s ct) (m.toNat * pp.q / 4)

abbrev Encodes (s : Fin p.k → Fin pp.n → ℕ) : MKLWECiphertext p.k pp.n → Bool → Prop :=
  EncodesWithin (pp.q / 32) s

/-! ### One gate -/

theorem linear_near {s : Fin p.k → Fin pp.n → ℕ} {ct1 ct2 : MKLWECiphertext p.k pp.n} {m1 m2 : Bool} {ε δ : ℚ}
    (h1 : EncodesWithin ε s ct1 m1) (h2 : EncodesWithin δ s ct2 m2) {constant : ℕ} (hc : constant < pp.q) :
    ∃ ctprep ct, evalAddEq w (copy ct1) ct2 = .ok ctprep ∧
      evalSubEq w { a := fun _ _ => 0, b := constant, modulus := pp.q } ctprep = .ok ct ∧
      Reduced ct ∧ ct.modulus = pp.q ∧
      Near pp.q (ε + δ) (MKLWE.phase s ct) (constant - ones m1 m2 * pp.q / 4) := by
  have same1 : (copy ct1).modulus = pp.q := h1.modulus
  have reduced1 : Reduced (copy ct1) := ⟨h1.reduced.a_lt, h1.reduced.b_lt⟩
  obtain ⟨ctprep, add, hadd, modAdd, phaseAdd⟩ :=
    evalAddEq_ok (w := w) (same1.trans h2.modulus.symm) reduced1 h2.reduced (same1 ▸ pp.q_ok) s
  rw [same1] at modAdd phaseAdd
  let ctTemp : MKLWECiphertext p.k pp.n := { a := fun _ _ => 0, b := constant, modulus := pp.q }
  have reducedTemp : Reduced ctTemp := ⟨fun _ _ => by dsimp only [ctTemp]; omega, hc⟩
  obtain ⟨ct, sub, hsub, modSub, phaseSub⟩ := evalSubEq_ok (w := w) modAdd.symm reducedTemp hadd pp.q_ok s
  refine ⟨ctprep, ct, add, sub, hsub, modSub, ?_⟩
  have phaseTemp : MKLWE.phase s ctTemp = constant := by simp [MKLWE.phase, ctTemp]
  rw [phaseTemp] at phaseSub
  have total : MKLWE.phase s ct ≡ constant - (MKLWE.phase s ct1 + MKLWE.phase s ct2) [ZMOD pp.q] :=
    phaseSub.trans ((Int.ModEq.refl _).sub phaseAdd)
  have near := (near_of_modEq total).trans (by
    rw [Int.cast_sub, Int.cast_add, Int.cast_natCast]
    exact (near_refl (constant : ℚ)).sub (h1.near.add h2.near))
  convert near using 1
  · ring
  · rw [ones]
    push_cast
    ring

theorem N_ne_one {round : FloorRound} {EK : EvalKeys pp} {sk : Acc p} {s : Fin p.k → Fin pp.n → ℕ}
    (faithful : Faithful round EK sk s) (hq : 128 ≤ pp.q) : p.N ≠ 1 := by
  intro one
  -- With `N = 1` the switched phase is a multiple of `q / 2`, which a quarter of the circle is far from.
  let ct : MKLWECiphertext p.k pp.n := { a := fun _ _ => 0, b := pp.q / 4, modulus := pp.q }
  have hphase : MKLWE.phase s ct = (pp.q / 4 : ℕ) := by simp [MKLWE.phase, ct]
  obtain ⟨ct', run, -⟩ := modSwitch_ok round (show 0 < 2 * p.N by omega) ct
  obtain ⟨t, ht⟩ := faithful.switches ct ct' ⟨fun _ _ => by dsimp only [ct]; omega, by dsimp only [ct]; omega⟩
    rfl run
  rw [hphase, one, Int.cast_natCast, Nat.cast_one, mul_one] at ht
  have hb := abs_lt.mp ht
  have hfloor1 : ((pp.q / 4 : ℕ) : ℚ) ≤ pp.q / 4 := by
    rw [le_div_iff₀ (by norm_num)]
    exact_mod_cast Nat.div_mul_le_self pp.q 4
  have hfloor2 : (pp.q : ℚ) / 4 < (pp.q / 4 : ℕ) + 1 := by
    rw [div_lt_iff₀ (by norm_num)]
    exact_mod_cast (show pp.q < (pp.q / 4 + 1) * 4 by omega)
  have hq' : (128 : ℚ) ≤ pp.q := by exact_mod_cast hq
  -- The distance is `|x - 2t| * q / 2 - q / 4` for an integer `x - 2t`.
  have split : (MKLWE.phase s ct' : ℚ) * pp.q / 2 - t * pp.q =
      ((MKLWE.phase s ct' - 2 * t : ℤ) : ℚ) * (pp.q / 2) := by push_cast; ring
  generalize hx : MKLWE.phase s ct' - 2 * t = x at split
  rcases le_or_gt x 0 with neg | pos
  · have : (x : ℚ) ≤ 0 := by exact_mod_cast neg
    have : (x : ℚ) * (pp.q / 2) ≤ 0 := mul_nonpos_of_nonpos_of_nonneg this (by linarith)
    linarith [hb.1]
  · have : (1 : ℚ) ≤ x := by exact_mod_cast pos
    have : (pp.q : ℚ) / 2 ≤ x * (pp.q / 2) := le_mul_of_one_le_left (by linarith) this
    linarith [hb.2]

section Bounds
variable {round : FloorRound} {EK : EvalKeys pp} {sk : Acc p} {s : Fin p.k → Fin pp.n → ℕ}

theorem bootstrapGateCore_phase (faithful : Faithful round EK sk s) (gate : BinGate)
    {ct : MKLWECiphertext p.k pp.n} (reduced : Reduced ct) (modulus : ct.modulus = 2 * p.N) (four : ct.p = 4)
    (fits : 4 * p.N * p.N < 2 ^ w.bits) (hQ : 256 ≤ p.Q) :
    ∃ acc, bootstrapGateCore gate EK ct = .ok acc ∧
      UniEncAccumulator.phase p sk acc =
        stepPoly ((p.Q / 2 ^ 3 + 1 : ℕ) : ZMod p.Q) * xpow (MKLWE.phase s ct) := by
  obtain ⟨evalAcc, key, rotates⟩ := faithful.rotates
  have hN : 0 < p.N := Nat.pos_of_ne_zero (NeZero.ne p.N)
  have hb : ct.b < 2 * p.N := modulus ▸ reduced.b_lt
  have hw : 2 * p.N ≤ 2 ^ w.bits := by nlinarith
  have noWrap : ct.b * (2 * p.N) < 2 ^ w.bits := by nlinarith
  have bHat : scaledIndex w p.N ct.modulus ct.b = ct.b := by
    rw [scaledIndex_eq noWrap hN, modulus, Nat.mul_div_cancel _ (by omega)]
  obtain ⟨acc, run, hphase⟩ := rotates (getAneg w ct) (toPoly p (rxxb p (rx p (Q2p p ct.p) (p.Q - Q2p p ct.p))
    (scaledIndex w p.N ct.modulus ct.b))) fun u i => modulus ▸ getAneg_lt reduced (modulus ▸ hw) u i
  refine ⟨acc, by rw [bootstrapGateCore, key]; exact run, ?_⟩
  have hQ2p : Q2p p ct.p = p.Q / 2 ^ 3 + 1 := by rw [four, Q2p_four]
  have le : p.Q / 2 ^ 3 + 1 ≤ p.Q := by omega
  have exponent : (ct.b : ℤ) + ∑ u, ∑ i, (getAneg w ct u i : ℤ) * s u i ≡ MKLWE.phase s ct [ZMOD 2 * p.N] := by
    have cast : ((2 * p.N : ℕ) : ℤ) = 2 * p.N := by push_cast; rfl
    rw [← cast, ← modulus, MKLWE.phase, sub_eq_add_neg, ← Finset.sum_neg_distrib]
    refine (Int.ModEq.refl _).add (Int.ModEq.sum fun u _ => ?_)
    rw [← Finset.sum_neg_distrib]
    refine Int.ModEq.sum fun i _ => ?_
    rw [← neg_mul]
    exact (getAneg_cast reduced (modulus ▸ hw) u i).mul_right _
  rw [hphase, bHat, hQ2p, toPoly_rxxb (fun j => by rw [rx]; split <;> omega) hb, toPoly_rx _ le, mul_assoc,
    ← xpow_add, xpow_congr exponent]

theorem phaseQ_extract (sk acc : Acc p) : phaseQ sk (extract acc) =
    ((p.Q / 2 ^ 3 + 1 : ℕ) : ZMod p.Q) - (UniEncAccumulator.phase p sk acc).coeff 0 := by
  rw [phaseQ, extract, ← sum_accExt]

theorem extract_reduced (hQ : 256 ≤ p.Q) (acc : Acc p) : Reduced (extract acc) :=
  ⟨fun u j => accExt_lt acc u j, by dsimp only [extract]; omega⟩

theorem quarter_near (hQ : 256 ≤ p.Q) :
    |((2 * (p.Q / 2 ^ 3 + 1) : ℕ) : ℚ) * pp.q / p.Q - (1 : ℕ) * pp.q / 4| ≤ pp.q / 128 := by
  have eighth := eighth_near hQ pp.q
  have twice : ((2 * (p.Q / 2 ^ 3 + 1) : ℕ) : ℚ) * pp.q / p.Q - (1 : ℕ) * pp.q / 4 =
      2 * (((p.Q / 2 ^ 3 + 1 : ℕ) : ℚ) * pp.q / p.Q - pp.q / 8) := by
    rw [Nat.cast_mul, Nat.cast_two, Nat.cast_one]
    ring
  rw [twice, abs_mul, abs_two]
  linarith

variable (pp) in
theorem extract_near (hQ : 256 ≤ p.Q) {acc : Acc p} {m : Bool}
    (sign : (UniEncAccumulator.phase p sk acc).coeff 0 =
      if m then -((p.Q / 2 ^ 3 + 1 : ℕ) : ZMod p.Q) else ((p.Q / 2 ^ 3 + 1 : ℕ) : ZMod p.Q)) :
    Near pp.q (pp.q / 128) ((phaseQ sk (extract acc)).val * pp.q / p.Q) (m.toNat * pp.q / 4) := by
  have hq : (0 : ℚ) ≤ pp.q := Nat.cast_nonneg _
  rw [phaseQ_extract, sign]
  cases m with
  | false =>
    simp only [Bool.false_eq_true, if_false, sub_self, ZMod.val_zero, Bool.toNat_false, Nat.cast_zero, zero_mul,
      zero_div]
    exact (near_refl 0).mono (by linarith)
  | true =>
    have twice : ((p.Q / 2 ^ 3 + 1 : ℕ) : ZMod p.Q) - -((p.Q / 2 ^ 3 + 1 : ℕ) : ZMod p.Q) =
        ((2 * (p.Q / 2 ^ 3 + 1) : ℕ) : ZMod p.Q) := by push_cast; ring
    rw [if_pos rfl, twice, ZMod.val_natCast, Nat.mod_eq_of_lt (by omega)]
    exact near_of_abs (quarter_near hQ)

/-- The sizes under which the words of a gate hold its values. -/
structure Sized (pp : MKLWEParams p) : Prop where
  same : pp.qKS = pp.q
  large : 128 ≤ pp.q
  largeQ : 256 ≤ p.Q
  fits : 4 * p.N * p.N < 2 ^ w.bits

theorem exponent_near (faithful : Faithful round EK sk s) {ct ct' : MKLWECiphertext p.k pp.n} {ε x : ℚ}
    (reduced : Reduced ct) (modulus : ct.modulus = pp.q) (near : Near pp.q ε (MKLWE.phase s ct) x)
    (run : modSwitch round (2 * p.N) ct = .ok ct') :
    Near (2 * p.N) ((pp.q / 64 + ε) * (2 * p.N / pp.q)) (MKLWE.phase s ct') (x * (2 * p.N / pp.q)) := by
  have hq : (0 : ℚ) < pp.q := by exact_mod_cast Nat.zero_lt_of_lt pp.two_le_q
  have hN : (0 : ℚ) < p.N := by exact_mod_cast Nat.pos_of_ne_zero (NeZero.ne p.N)
  have total := (faithful.switches ct ct' reduced modulus run).near.trans near
  have scaled := total.scale (c := 2 * p.N / pp.q) (by positivity)
  have whole : (pp.q : ℚ) * (2 * p.N / pp.q) = 2 * p.N := by field_simp
  have left : (MKLWE.phase s ct' : ℚ) * pp.q / (2 * p.N) * (2 * p.N / pp.q) = MKLWE.phase s ct' := by field_simp
  rwa [whole, left] at scaled

/-- The constant of a gate as the 32-bit words compute it. -/
def gateConstant (q : ℕ) : ℕ := 5 * q % 2 ^ 32 / 8

theorem gateConstant_lt (sized : Sized pp) : gateConstant pp.q < pp.q := by
  have hq := sized.large
  have hle : 5 * pp.q % 2 ^ 32 ≤ 5 * pp.q := Nat.mod_le _ _
  rw [gateConstant]
  omega

theorem evalBinGate_of_sign (faithful : Faithful round EK sk s) (sized : Sized pp) (narrow : pp.q < 2 ^ 32)
    (gate : BinGate) {addr1 addr2 : ℕ} (different : addr1 ≠ addr2)
    {ct1 ct2 ctprep ct0 : MKLWECiphertext p.k pp.n} {m : Bool} (add : evalAddEq w (copy ct1) ct2 = .ok ctprep)
    (sub : evalSubEq w { a := fun _ _ => 0, b := gateConstant pp.q, modulus := pp.q } ctprep = .ok ct0)
    (sign : ∀ ct', modSwitch round (2 * p.N) ct0 = .ok ct' →
      (stepPoly ((p.Q / 2 ^ 3 + 1 : ℕ) : ZMod p.Q) * xpow (MKLWE.phase s ct') : Poly p).coeff 0 =
        if m then -((p.Q / 2 ^ 3 + 1 : ℕ) : ZMod p.Q) else ((p.Q / 2 ^ 3 + 1 : ℕ) : ZMod p.Q)) :
    ∃ ct, evalBinGate round gate EK addr1 addr2 ct1 ct2 = .ok ct ∧ Encodes s ct m := by
  have hN : 0 < p.N := Nat.pos_of_ne_zero (NeZero.ne p.N)
  have hqKS : 0 < pp.qKS := Nat.zero_lt_of_lt pp.two_le_qKS
  obtain ⟨ctMS1, switch, reduced1, modulus1, four⟩ :=
    modSwitch_ok round (show 0 < 2 * p.N by omega) ct0
  obtain ⟨acc, core, hphase⟩ :=
    bootstrapGateCore_phase faithful gate reduced1 modulus1 four sized.fits sized.largeQ
  obtain ⟨ctMS, back, reduced2, modulus2, -⟩ :=
    modSwitch_ok round hqKS (extract acc)
  have result := keySwitch_reduced (w := w) hqKS (by have := lt_of_not_tooLarge pp.qKS_ok; omega) EK.LKSkey
    pp.baseKS pp.digitCount (modulus2 ▸ reduced2.b_lt)
  refine ⟨keySwitch w EK.LKSkey pp.baseKS pp.digitCount ctMS, ?_, result.1, result.2.trans sized.same, ?_⟩
  · have q32 : pp.q % 2 ^ 32 = pp.q := Nat.mod_eq_of_lt narrow
    have reducedB : gateConstant pp.q % pp.q = gateConstant pp.q := Nat.mod_eq_of_lt (gateConstant_lt sized)
    have N32 : p.N * 2 % 2 ^ 32 = 2 * p.N := by
      rw [mul_comm, Nat.mod_eq_of_lt p.two_mul_N_lt]
    rw [← reducedB] at sub
    simp only [evalBinGate, if_neg different, q32, N32]
    simp only [gateConstant] at sub
    simp only [add, sub, switch, core, back, bind, Except.bind, pure, Except.pure]
  · have first := (faithful.returns (extract acc) ctMS (extract_reduced sized.largeQ acc) rfl back).near
    have last := first.trans (extract_near pp sized.largeQ (by rw [hphase]; exact sign ctMS1 switch))
    exact last.mono (by have : (0 : ℚ) ≤ pp.q := Nat.cast_nonneg _; linarith)

theorem evalBinGate_encodes (faithful : Faithful round EK sk s) (sized : Sized pp) (word : 5 * pp.q < 2 ^ 32)
    (gate : BinGate) {addr1 addr2 : ℕ} (different : addr1 ≠ addr2) {ct1 ct2 : MKLWECiphertext p.k pp.n}
    {m1 m2 : Bool} {ε δ : ℚ} (h1 : EncodesWithin ε s ct1 m1) (h2 : EncodesWithin δ s ct2 m2)
    (margin : ε + δ + 1 < 7 * pp.q / 64) :
    ∃ ct, evalBinGate round gate EK addr1 addr2 ct1 ct2 = .ok ct ∧ Encodes s ct (!(m1 && m2)) := by
  have hq : (128 : ℚ) ≤ pp.q := by exact_mod_cast sized.large
  have hN : (0 : ℚ) < p.N := by exact_mod_cast Nat.pos_of_ne_zero (NeZero.ne p.N)
  have even := even_N_of_ne_one (N_ne_one faithful sized.large)
  obtain ⟨ctprep, ct0, add, sub, reduced0, modulus0, near0⟩ := linear_near h1 h2 (gateConstant_lt sized)
  refine evalBinGate_of_sign faithful sized (by omega) gate different add sub fun ct' run => ?_
  have constant : Near pp.q 1 (gateConstant pp.q) (5 * pp.q / 8) := by
    rw [gateConstant, Nat.mod_eq_of_lt word]
    have := floor_near (5 * pp.q) (show 0 < 8 by omega) pp.q
    push_cast at this
    exact this
  have near := near0.trans (constant.sub (near_refl (ones m1 m2 * pp.q / 4 : ℚ)))
  have exponent := exponent_near faithful reduced0 modulus0 near run
  have target : (5 * (pp.q : ℚ) / 8 - ones m1 m2 * pp.q / 4) * (2 * p.N / pp.q) =
      5 * p.N / 4 - ones m1 m2 * p.N / 2 := by
    field_simp
    ring
  have error : ((pp.q : ℚ) / 64 + (ε + δ + (1 + 0))) * (2 * p.N / pp.q) < p.N / 4 := by
    calc ((pp.q : ℚ) / 64 + (ε + δ + (1 + 0))) * (2 * p.N / pp.q) < pp.q / 8 * (2 * p.N / pp.q) :=
          mul_lt_mul_of_pos_right (by linarith) (by positivity)
      _ = p.N / 4 := by field_simp; norm_num
  rw [target] at exponent
  rw [coeff_zero_of_near even _ (exponent.within error)]
  cases m1 <;> cases m2 <;> rfl

theorem evalBinGate_wraps (faithful : Faithful round EK sk s) (sized : Sized pp) (narrow : pp.q < 2 ^ 32)
    (wraps : 2 ^ 32 ≤ 5 * pp.q) (gate : BinGate) {addr1 addr2 : ℕ} (different : addr1 ≠ addr2) :
    ∃ m2 : Bool, ∀ ct1 ct2 : MKLWECiphertext p.k pp.n, Encodes s ct1 false → Encodes s ct2 m2 →
      ∃ ct, evalBinGate round gate EK addr1 addr2 ct1 ct2 = .ok ct ∧ Encodes s ct false := by
  have hq : (128 : ℚ) ≤ pp.q := by exact_mod_cast sized.large
  have hN : (0 : ℚ) < p.N := by exact_mod_cast Nat.pos_of_ne_zero (NeZero.ne p.N)
  have even := even_N_of_ne_one (N_ne_one faithful sized.large)
  have small : 16 * (gateConstant pp.q : ℚ) < 5 * pp.q := by
    have rest : 5 * pp.q % 2 ^ 32 < 2 ^ 32 := Nat.mod_lt _ (by norm_num)
    have turns : 1 ≤ 5 * pp.q / 2 ^ 32 := Nat.div_pos wraps (by norm_num)
    have split := Nat.div_add_mod (5 * pp.q) (2 ^ 32)
    have : 16 * gateConstant pp.q < 5 * pp.q := by rw [gateConstant]; omega
    exact_mod_cast this
  have nonneg : (0 : ℚ) ≤ gateConstant pp.q := Nat.cast_nonneg _
  -- The constant is below `5q/16`: on the near half by itself, or with `q/4` taken away.
  obtain ⟨m2, target⟩ : ∃ m2 : Bool,
      |(gateConstant pp.q : ℚ) - ones false m2 * pp.q / 4| ≤ pp.q / 6 := by
    rcases le_or_gt (6 * (gateConstant pp.q : ℚ)) pp.q with low | high
    · refine ⟨false, ?_⟩
      simp only [ones, Bool.toNat_false]
      push_cast
      exact abs_le.mpr ⟨by linarith, by linarith⟩
    · refine ⟨true, ?_⟩
      simp only [ones, Bool.toNat_false, Bool.toNat_true]
      push_cast
      exact abs_le.mpr ⟨by linarith, by linarith⟩
  refine ⟨m2, fun ct1 ct2 h1 h2 => ?_⟩
  obtain ⟨ctprep, ct0, add, sub, reduced0, modulus0, near0⟩ := linear_near h1 h2 (gateConstant_lt sized)
  refine evalBinGate_of_sign faithful sized narrow gate different add sub fun ct' run => ?_
  have middle : Near pp.q (pp.q / 6) (gateConstant pp.q - ones false m2 * pp.q / 4) 0 :=
    near_of_abs (by rwa [sub_zero])
  have exponent := exponent_near faithful reduced0 modulus0 (near0.trans middle) run
  have error : ((pp.q : ℚ) / 64 + (pp.q / 32 + pp.q / 32 + pp.q / 6)) * (2 * p.N / pp.q) = p.N * (47 / 96) := by
    field_simp
    norm_num
  rw [zero_mul, error] at exponent
  rw [coeff_zero_stepPoly_within even _ (exponent.within (by linarith))]
  rfl

/-! ### Circuits -/

/-- Every NAND circuit runs through, and each of its wires stands in the relation to its bit. -/
def CircuitsCompose (round : FloorRound) (EK : EvalKeys pp) (s : Fin p.k → Fin pp.n → ℕ)
    (Holds : MKLWECiphertext p.k pp.n → Bool → Prop) : Prop :=
  ∀ (inputs : List (MKLWECiphertext p.k pp.n)) (bits : List Bool) (gates : Circuit.Gates),
    List.Forall₂ (Encodes s) inputs bits → Circuit.Scoped bits.length gates → Circuit.Distinct gates →
    ∃ wires, Circuit.evalM .outOfRange (evalBinGate round .NAND EK) inputs gates = .ok wires ∧
      List.Forall₂ Holds wires (Circuit.eval (fun a b => !(a && b)) bits gates)

theorem encodes_decrypt {keyModulus : ℕ} (sized : Sized pp) (hkey : 2 ≤ keyModulus)
    (bit : ∀ u i, s u i = 0 ∨ s u i = 1) (fits : InnerFits w pp.q s) {ct : MKLWECiphertext p.k pp.n} {m : Bool}
    (h : Encodes s ct m) : MKLWE.decrypt w keyModulus s ct 4 = .ok m.toNat := by
  have hq : (128 : ℚ) ≤ pp.q := by exact_mod_cast sized.large
  refine decrypt_eq (ε := pp.q / 32) h.reduced (h.modulus ▸ pp.two_le_q) (h.modulus ▸ pp.q_ok) hkey bit
    (h.modulus ▸ fits) (by cases m <;> decide) (h.modulus ▸ h.near) ?_
  rw [h.modulus]
  linarith

theorem encodes_unique (sized : Sized pp) {ct : MKLWECiphertext p.k pp.n} (h0 : Encodes s ct false)
    (h1 : Encodes s ct true) : False := by
  have hq : (128 : ℚ) ≤ pp.q := by exact_mod_cast sized.large
  have close := h1.near.symm.trans h0.near
  simp only [Bool.toNat_true, Bool.toNat_false, Nat.cast_one, Nat.cast_zero, one_mul, zero_mul, zero_div] at close
  exact not_near_of_lt (by linarith) (by linarith) close

variable (pp) in
def maskless (m : Bool) : MKLWECiphertext p.k pp.n :=
  { a := fun _ _ => 0, b := m.toNat * (pp.q / 4), modulus := pp.q }

theorem maskless_encodes (sized : Sized pp) (s : Fin p.k → Fin pp.n → ℕ) (m : Bool) :
    Encodes s (maskless pp m) m := by
  have hq := sized.large
  have hq' : (128 : ℚ) ≤ pp.q := by exact_mod_cast hq
  refine ⟨⟨fun _ _ => ?_, ?_⟩, rfl, ?_⟩
  · dsimp only [maskless]
    omega
  · cases m <;> simp [maskless] <;> omega
  · have lo : ((pp.q / 4 : ℕ) : ℚ) * 4 ≤ pp.q := by exact_mod_cast Nat.div_mul_le_self pp.q 4
    have hi : (pp.q : ℚ) < ((pp.q / 4 : ℕ) + 1) * 4 := by
      exact_mod_cast (show pp.q < (pp.q / 4 + 1) * 4 by omega)
    have hphase : MKLWE.phase s (maskless pp m) = (m.toNat * (pp.q / 4) : ℕ) := by
      simp [maskless, MKLWE.phase]
    rw [hphase, Int.cast_natCast]
    refine near_of_abs (abs_le.mpr ?_)
    cases m <;> simp only [Bool.toNat_false, Bool.toNat_true, zero_mul, one_mul, Nat.cast_zero, Nat.cast_one] <;>
      constructor <;> linarith

theorem evalBinGate_wide (wide : 2 ^ 32 ≤ pp.q) (gate : BinGate) (addr1 addr2 : ℕ)
    {ct1 ct2 : MKLWECiphertext p.k pp.n} {m1 m2 : Bool} {ε δ : ℚ} (h1 : EncodesWithin ε s ct1 m1)
    (h2 : EncodesWithin δ s ct2 m2) (ct : MKLWECiphertext p.k pp.n) : evalBinGate round gate EK addr1 addr2 ct1 ct2 ≠ .ok ct := by
  have same1 : (copy ct1).modulus = pp.q := h1.modulus
  obtain ⟨ctprep, add, -, modAdd, -⟩ := evalAddEq_ok (w := w) (same1.trans h2.modulus.symm)
    ⟨h1.reduced.a_lt, h1.reduced.b_lt⟩ h2.reduced (same1 ▸ pp.q_ok) s
  have cut : pp.q % 2 ^ 32 ≠ ctprep.modulus := by
    rw [modAdd, same1]
    have := Nat.mod_lt pp.q (show 0 < 2 ^ 32 by norm_num)
    omega
  have sub (b : ℕ) : evalSubEq w { a := fun _ _ => 0, b := b, modulus := pp.q % 2 ^ 32 } ctprep =
      .error (.mathError "ModSubEq called on NativeVectorT's with different parameters.") := by
    rw [evalSubEq, if_pos cut]
  intro run
  simp only [evalBinGate, add, sub, bind, Except.bind] at run
  split at run <;> cases run

theorem innerFits_of_w64 (hw : w = .w64) (hn : pp.n < 2 ^ 32) (word : 5 * pp.q < 2 ^ 32)
    (bit : ∀ u i, s u i = 0 ∨ s u i = 1) : InnerFits w pp.q s := by
  subst hw
  intro u
  have weight : ∑ i, s u i ≤ pp.n := by
    calc ∑ i, s u i ≤ ∑ _i : Fin pp.n, 1 := Finset.sum_le_sum fun i _ => by rcases bit u i with h | h <;> omega
      _ = pp.n := by simp
  calc (1 + ∑ i, s u i) * (pp.q - 1) ≤ 2 ^ 32 * 2 ^ 31 := Nat.mul_le_mul (by omega) (by omega)
    _ < 2 ^ NativeSize.w64.bits := by decide

/-- NAND circuits of every size compose exactly when `5 * q` fits the 32-bit arithmetic of the gate. -/
theorem nand_circuits_compose_iff {keyModulus : ℕ} (faithful : Faithful round EK sk s) (sized : Sized pp)
    (hkey : 2 ≤ keyModulus) (bit : ∀ u i, s u i = 0 ∨ s u i = 1) (hn : pp.n < 2 ^ 32)
    (fits : w = .w32 → InnerFits w pp.q s) :
    CircuitsCompose round EK s (fun ct m => Encodes s ct m ∧ MKLWE.decrypt w keyModulus s ct 4 = .ok m.toNat) ↔
      5 * pp.q < 2 ^ 32 := by
  constructor
  · intro compose
    by_contra wraps
    rw [Nat.not_lt] at wraps
    -- One gate on two ciphertexts without masks already goes wrong.
    have single (m : Bool) : ∃ ct, evalBinGate round .NAND EK 0 1 (maskless pp false) (maskless pp m) = .ok ct ∧
        Encodes s ct true := by
      obtain ⟨wires, run, related⟩ := compose [maskless pp false, maskless pp m] [false, m] [(0, 1)]
        (.cons (maskless_encodes sized s _) (.cons (maskless_encodes sized s _) .nil))
        ⟨Nat.zero_lt_two, Nat.one_lt_two, True.intro⟩ (by decide)
      obtain ⟨ct, gate, one, -⟩ := Circuit.evalM_first run related rfl
      exact ⟨ct, gate _ _ rfl rfl, one⟩
    rcases Nat.lt_or_ge pp.q (2 ^ 32) with narrow | wide
    · obtain ⟨m2, wrong⟩ := evalBinGate_wraps faithful sized narrow wraps .NAND (show (0 : ℕ) ≠ 1 by decide)
      obtain ⟨ct, run, zero⟩ := wrong _ _ (maskless_encodes sized s false) (maskless_encodes sized s m2)
      obtain ⟨ct', run', one⟩ := single m2
      rw [run] at run'
      cases run'
      exact encodes_unique sized zero one
    · obtain ⟨ct, run, -⟩ := single false
      exact evalBinGate_wide wide .NAND 0 1 (maskless_encodes sized s _) (maskless_encodes sized s _) ct run
  · intro word inputs bits gates related reads distinct
    have fits : InnerFits w pp.q s := by
      by_cases hw : w = .w32
      · exact fits hw
      · exact innerFits_of_w64 (by cases w <;> trivial) hn word bit
    have hq : (128 : ℚ) ≤ pp.q := by exact_mod_cast sized.large
    obtain ⟨wires, run, hold⟩ := Circuit.evalM_simulates .outOfRange related reads
      fun g hg _ _ _ _ h1 h2 => evalBinGate_encodes faithful sized word .NAND (distinct g hg) h1 h2 (by linarith)
    exact ⟨wires, run, hold.imp fun ct m h => ⟨h, encodes_decrypt sized hkey bit fits h⟩⟩

end Bounds

/-! ### A noiseless system -/

section Noiseless

variable (base : ℕ) (lo : 16 ≤ base) (hi : base ≤ 2 ^ 15)

def plainMKLWE : MKLWEParams plainParams where
  n := 1
  q := base ^ 2
  qKS := base ^ 2
  baseKS := base
  digitCount := 2
  two_le_q := by nlinarith
  two_le_qKS := by nlinarith
  q_ok := Nat.not_lt.mpr (Nat.size_le.mpr (lt_of_le_of_lt (Nat.pow_le_pow_left hi 2) (by decide)))
  qKS_ok := Nat.not_lt.mpr (Nat.size_le.mpr (lt_of_le_of_lt (Nat.pow_le_pow_left hi 2) (by decide)))

/-- Keys of the secrets zero and one without masks or errors: nothing to rotate by, and the first entry of
the extracted vector is what is switched. -/
def plainKeys : EvalKeys (plainMKLWE base lo hi) where
  BSkey := some fun acc _ => .ok acc
  LKSkey :=
    { A := fun _ _ _ _ _ => 0
      B := fun _ i digit j => if i = 0 then digit * base ^ j % base ^ 2 else 0
      A_lt := fun _ _ _ _ _ => Nat.pow_pos (by omega)
      B_lt := fun _ i _ _ => by
        dsimp only [plainMKLWE]
        split
        · exact Nat.mod_lt _ (Nat.pow_pos (by omega))
        · exact Nat.pow_pos (by omega) }

def plainS : Fin plainParams.k → Fin (plainMKLWE base lo hi).n → ℕ := fun _ _ => 0

theorem plain_rotates (A : Fin plainParams.k → Fin (plainMKLWE base lo hi).n → ℕ) (T : Poly plainParams) :
    UniEncAccumulator.phase plainParams plainSk (initial T) =
      T * xpow (∑ u, ∑ i, (A u i : ℤ) * plainS base lo hi u i) := by
  rw [phase_initial]
  simp [plainSk, plainS, xpow_zero]

theorem phase_plainS (ct : MKLWECiphertext plainParams.k (plainMKLWE base lo hi).n) :
    MKLWE.phase (plainS base lo hi) ct = ct.b := by simp [MKLWE.phase, plainS]

theorem plain_switches {ct ct' : MKLWECiphertext plainParams.k (plainMKLWE base lo hi).n}
    (modulus : ct.modulus = base ^ 2) (run : modSwitch exactRound (2 * plainParams.N) ct = .ok ct') :
    Within (base ^ 2 : ℕ) ((base ^ 2 : ℕ) / 64)
      (MKLWE.phase (plainS base lo hi) ct' * (base ^ 2 : ℕ) / (2 * plainParams.N)) (MKLWE.phase (plainS base lo hi) ct) := by
  have hpos : 0 < base ^ 2 := Nat.pow_pos (by omega)
  have hq : (0 : ℚ) < (base ^ 2 : ℕ) := by exact_mod_cast hpos
  have hN : (plainParams.N : ℚ) = 32 := by exact_mod_cast (rfl : plainParams.N = 32)
  have value := (modSwitch_values run).2
  have near := roundqQ_exact_back (v := ct.b) (show 0 < 2 * plainParams.N by decide) hpos
  rw [Nat.cast_mul, Nat.cast_two] at near
  rw [phase_plainS, phase_plainS, value, modulus, Int.cast_natCast, Int.cast_natCast]
  refine near.within ?_
  rw [hN]
  linarith

theorem plain_keyTerms {ct : MKLWECiphertext plainParams.k plainParams.N} {u : Fin plainParams.k}
    (small : ct.a u 0 < base ^ 2) :
    (∑ i, ((List.range 2).map fun j =>
      keyTerm (plainKeys base lo hi).LKSkey base (plainS base lo hi) ct u i j).sum) = (ct.a u 0 : ℤ) := by
  have term (j : ℕ) (hj : j < 2) : keyTerm (plainKeys base lo hi).LKSkey base (plainS base lo hi) ct u 0 j =
      (ct.a u 0 / base ^ j % base * base ^ j : ℕ) := by
    have digit : ct.a u 0 / base ^ j % base * base ^ j < base ^ 2 := by
      calc ct.a u 0 / base ^ j % base * base ^ j < base * base ^ j :=
            Nat.mul_lt_mul_of_pos_right (Nat.mod_lt _ (by omega)) (Nat.pow_pos (by omega))
        _ = base ^ (j + 1) := by ring
        _ ≤ base ^ 2 := Nat.pow_le_pow_right (by omega) hj
    simp only [keyTerm, plainKeys, plainS, if_true, Nat.mod_eq_of_lt digit, Nat.cast_zero, zero_mul,
      Finset.sum_const_zero, sub_zero]
  have split : ct.a u 0 % base + ct.a u 0 / base % base * base = ct.a u 0 := by
    rw [Nat.mod_eq_of_lt (Nat.div_lt_of_lt_mul (by rwa [← sq])), mul_comm]
    exact Nat.mod_add_div _ _
  rw [Finset.sum_eq_single 0]
  · rw [show List.range 2 = [0, 1] from rfl, List.map_cons, List.map_cons, List.map_nil, List.sum_cons,
      List.sum_cons, List.sum_nil, term 0 (by omega), term 1 (by omega), pow_zero, pow_one, Nat.div_one, mul_one,
      add_zero]
    exact_mod_cast split
  · intro i _ hi
    simp [keyTerm, plainKeys, plainS, hi, List.range_succ]
  · simp

theorem phaseQ_plainSk (ct : MKLWECiphertext plainParams.k plainParams.N) :
    phaseQ plainSk ct = (ct.b : ZMod plainParams.Q) - (ct.a 0 0 : ℕ) := by
  rw [phaseQ, Fintype.sum_eq_single 0 fun u hu => absurd (plain_party u) hu,
    Fintype.sum_eq_single 0 fun i hi => ?_]
  · rw [plainSk, coeff_one, if_pos (Fin.val_zero _), mul_one]
  · rw [plainSk, coeff_one, if_neg fun h => hi (Fin.ext (h.trans (Fin.val_zero _).symm)), mul_zero]

theorem plain_keySwitch {ct : MKLWECiphertext plainParams.k plainParams.N} (ha : ct.a 0 0 < base ^ 2)
    (hb : ct.b < base ^ 2) :
    MKLWE.phase (plainS base lo hi) (keySwitch .w64 (plainKeys base lo hi).LKSkey base 2 ct) ≡ ct.b - ct.a 0 0
      [ZMOD (base ^ 2 : ℕ)] := by
  have hpos : 0 < (plainMKLWE base lo hi).qKS := Nat.zero_lt_of_lt hb
  have hword : (plainMKLWE base lo hi).qKS ≤ 2 ^ NativeSize.w64.bits := (Nat.pow_le_pow_left hi 2).trans (by decide)
  have switched := phase_keySwitch hpos hword (plainKeys base lo hi).LKSkey base 2 (plainS base lo hi) hb
  rw [Fintype.sum_eq_single 0 fun u hu => absurd (plain_party u) hu, plain_keyTerms base lo hi ha] at switched
  exact switched

theorem plain_returns {ct ct' : MKLWECiphertext plainParams.k plainParams.N} (modulus : ct.modulus = plainParams.Q)
    (run : modSwitch exactRound (plainMKLWE base lo hi).qKS ct = .ok ct') :
    Within (base ^ 2 : ℕ) ((base ^ 2 : ℕ) / 64)
      (MKLWE.phase (plainS base lo hi) (keySwitch .w64 (plainKeys base lo hi).LKSkey base 2 ct'))
      ((phaseQ plainSk ct).val * (base ^ 2 : ℕ) / plainParams.Q) := by
  have hpos : 0 < base ^ 2 := Nat.pow_pos (by omega)
  have hQ : 0 < plainParams.Q := Nat.zero_lt_of_lt plainParams.two_lt_Q
  have hQ' : (0 : ℚ) < plainParams.Q := by exact_mod_cast hQ
  have hq : (256 : ℚ) ≤ (base ^ 2 : ℕ) := by exact_mod_cast Nat.pow_le_pow_left lo 2
  obtain ⟨ha, hb⟩ := modSwitch_values run
  have ha' : ct'.a 0 0 = roundqQ exactRound (ct.a 0 0) (base ^ 2) plainParams.Q := modulus ▸ ha 0 0
  have hb' : ct'.b = roundqQ exactRound ct.b (base ^ 2) plainParams.Q := modulus ▸ hb
  have switched := near_of_modEq (plain_keySwitch base lo hi (ha'.trans_lt (Nat.mod_lt _ hpos))
    (hb'.trans_lt (Nat.mod_lt _ hpos)))
  have rounded := (roundqQ_exact_near (v := ct.b) (q := base ^ 2) hQ).sub
    (roundqQ_exact_near (v := ct.a 0 0) (q := base ^ 2) hQ)
  rw [← ha', ← hb'] at rounded
  have same : (ct.b : ℤ) - ct.a 0 0 ≡ ((phaseQ plainSk ct).val : ℤ) [ZMOD plainParams.Q] := by
    rw [← ZMod.intCast_eq_intCast_iff, phaseQ_plainSk]
    simp
  have extracted := (near_of_modEq same).scale (c := (base ^ 2 : ℕ) / plainParams.Q) (by positivity)
  rw [mul_div_cancel₀ _ hQ'.ne', zero_mul, Int.cast_natCast, ← mul_div_assoc, ← mul_div_assoc] at extracted
  push_cast at switched rounded extracted hq ⊢
  rw [← sub_div, ← sub_mul] at rounded
  exact ((switched.trans rounded).trans extracted).within (by linarith)

theorem plain_faithful : Faithful exactRound (plainKeys base lo hi) plainSk (plainS base lo hi) where
  rotates := ⟨_, rfl, fun A T _ => ⟨_, rfl, plain_rotates base lo hi A T⟩⟩
  switches := fun _ _ _ modulus run => plain_switches base lo hi modulus run
  returns := fun _ _ _ modulus run => plain_returns base lo hi modulus run

theorem plain_sized : Sized (plainMKLWE base lo hi) where
  same := rfl
  large := (show 128 ≤ 16 ^ 2 by decide).trans (Nat.pow_le_pow_left lo 2)
  largeQ := by decide
  fits := by decide

def PlainCircuits : Prop :=
  CircuitsCompose exactRound (plainKeys base lo hi) (plainS base lo hi) fun ct m =>
    Encodes (plainS base lo hi) ct m ∧ MKLWE.decrypt .w64 (base ^ 2) (plainS base lo hi) ct 4 = .ok m.toNat

end Noiseless

/-- Modulo `2 ^ 12` every circuit of the noiseless system composes. -/
theorem plain_circuits_compose : Faithful exactRound (plainKeys (2 ^ 6) (by decide) (by decide)) plainSk
      (plainS (2 ^ 6) (by decide) (by decide)) ∧
    PlainCircuits (2 ^ 6) (by decide) (by decide) :=
  ⟨plain_faithful _ _ _, (nand_circuits_compose_iff (plain_faithful _ _ _) (plain_sized _ _ _) (by decide)
    (fun _ _ => .inl rfl) (by decide) (fun h => by cases h)).mpr (by decide)⟩

/-- Modulo `2 ^ 30` the gate constant wraps to `q / 8`, and NAND of two zeros decrypts to zero. -/
theorem plain_circuits_wrap : Faithful exactRound (plainKeys (2 ^ 15) (by decide) (by decide)) plainSk
      (plainS (2 ^ 15) (by decide) (by decide)) ∧
    Sized (plainMKLWE (2 ^ 15) (by decide) (by decide)) ∧
    ¬ PlainCircuits (2 ^ 15) (by decide) (by decide) := by
  refine ⟨plain_faithful _ _ _, plain_sized _ _ _, fun compose => ?_⟩
  have zero := maskless_encodes (plain_sized (2 ^ 15) (by decide) (by decide)) (plainS _ _ _) false
  obtain ⟨wires, run, related⟩ := compose [maskless _ false, maskless _ false] [false, false] [(0, 1)]
    (.cons zero (.cons zero .nil)) (by decide) (by decide)
  obtain ⟨ct, gate, -, one⟩ := Circuit.evalM_first run related rfl
  have evaluated : (evalBinGate exactRound .NAND (plainKeys (2 ^ 15) (by decide) (by decide)) 0 1
      (maskless _ false) (maskless _ false) >>= fun ct =>
        MKLWE.decrypt .w64 ((2 ^ 15) ^ 2) (plainS (2 ^ 15) (by decide) (by decide)) ct 4) = .ok 0 := by
    decide +kernel
  rw [gate _ _ rfl rfl] at evaluated
  cases evaluated.symm.trans one

end MKLWEGate
end MultiKeyFHE
