import MultiKeyFHE.Gate.Bootstrap
import MultiKeyFHE.Scheme.MNTRU
import MultiKeyFHE.Params.Constants
import MultiKeyFHE.Library.Circuit

/-!
# Gates of the multi-key matrix NTRU scheme

`ctGateGen`, `BootstrapGateCore` and `EvalBinGate` on MNTRU ciphertexts. There is no second part to add `Q/8` to
after the rotation, so a gate leaves the phase at `m * q/4 - q/8`, an eighth below a fresh encryption of `m`.
-/

namespace MultiKeyFHE
open Negacyclic NegPoly NativeInteger NativeVector UniEncAccumulator Circle

variable {w : NativeSize}

/-- `MNTRUCryptoParams` next to the accumulator parameters `p`, whose `k`, `N` and `Q` it shares. -/
structure MNTRUParams (p : UniEncParams w) where
  n : ℕ
  q : ℕ
  qKS : ℕ
  baseKS : ℕ
  digitCount : ℕ
  n_pos : 0 < n
  q_ok : ¬ modulusTooLarge w q
  qKS_ok : ¬ modulusTooLarge w qKS

namespace MNTRUGate
open Gate MNTRU
variable {p : UniEncParams w} (pp : MNTRUParams p)

instance : NeZero pp.n := ⟨pp.n_pos.ne'⟩

/-- The members of `UniEncBTKey` a gate uses. The accumulator key stands for `EvalAcc` under it. -/
structure EvalKeys where
  BSkey : Option (Acc p → MNTRUCiphertext p.k pp.n → Except Fault (Acc p))
  KSkey2 : SwitchingKey2 p.k pp.n pp.qKS

/-- `ctGateGen` with the drawn error vectors `e`. -/
def ctGateGen (sk : MNTRUPrivateKey p.k pp.n) (e : Fin sk.k → Fin pp.n → ℕ) (gate : BinGate) :
    Except Fault (MNTRUCiphertext sk.k pp.n) := do
  if gate ≠ .NAND then throw (.configError "Support NAND gate Only")
  setModulus w pp.q
  let c ← maskRows w sk pp.q (addMessage w pp.q (NativeInteger.mul w 5 pp.q / 8) e)
  return { elements := c, modulus := pp.q }

variable {pp}

/-- `BootstrapGateCore`. The gate is an argument of the source that nothing reads. -/
def bootstrapGateCore (_gate : BinGate) (EK : EvalKeys pp) (ct : MNTRUCiphertext p.k pp.n) : Except Fault (Acc p) :=
  match EK.BSkey with
  | none => .error (.configError ("Bootstrapping keys have not been generated. Please call MKBTKeyGen " ++
      "before calling bootstrapping."))
  | some evalAcc => evalAcc (initial (toPoly p (rx p (p.Q - Q2p p ct.p) (Q2p p ct.p)))) ct

def extract (acc : Acc p) : MNTRUCiphertext p.k p.N := { elements := accExt p acc, modulus := p.Q }

/-- `EvalBinGate` on the objects at `addr1` and `addr2`. -/
def evalBinGate (round : FloorRound) (gate : BinGate) (EK : EvalKeys pp) (ctNAND : MNTRUCiphertext p.k pp.n)
    (addr1 addr2 : ℕ) (ct1 ct2 : MNTRUCiphertext p.k pp.n) : Except Fault (MNTRUCiphertext p.k pp.n) := do
  if addr1 = addr2 then throw (.configError "Input ciphertexts should be independant")
  let ctprep ← evalAddEq w (copy ct1) ct2
  let ctTemp ← evalSubEq w (copy ctNAND) ctprep
  let acc ← bootstrapGateCore gate EK ctTemp
  let ctMS ← modSwitch round pp.qKS (extract acc)
  return keySwitch2 w EK.KSkey2 pp.baseKS pp.digitCount ctMS

/-! ### Assumptions on the parts -/

def phaseQ (skf : Acc p) (ct : MNTRUCiphertext p.k p.N) : ZMod p.Q :=
  ∑ u, ∑ j, ((ct.elements u j : ℕ) : ZMod p.Q) * (skf u).coeff j

structure Budget where
  constant : ℚ
  rotation : ℚ
  coefficient : ℚ
  switching : ℚ

/-- The rotation and the switches add no more noise than the budget says. -/
structure Faithful (b : Budget) (round : FloorRound) (EK : EvalKeys pp) (skf : Acc p)
    (sk : MNTRUPrivateKey p.k pp.n) : Prop where
  rotates : ∃ evalAcc, EK.BSkey = some evalAcc ∧ ∀ (ct : MNTRUCiphertext p.k pp.n) (T : Poly p), Reduced ct →
    ct.modulus = pp.q → ∃ acc, ∃ z err : ℤ, evalAcc (initial T) ct = .ok acc ∧
      (UniEncAccumulator.phase p skf acc).coeff 0 = (T * xpow z).coeff 0 + err ∧
      |(err : ℚ) * pp.qKS / p.Q| ≤ b.coefficient ∧
      Near pp.q b.rotation (z * pp.q / (2 * p.N)) (MNTRU.phase sk ct)
  returns : ∀ ct ct' : MNTRUCiphertext p.k p.N, Reduced ct → ct.modulus = p.Q →
    modSwitch round pp.qKS ct = .ok ct' →
    Near pp.qKS b.switching (MNTRU.phase sk (keySwitch2 w EK.KSkey2 pp.baseKS pp.digitCount ct'))
      ((phaseQ skf ct).val * pp.qKS / p.Q)

/-- `ct` holds the bit `m` with noise `ε`, as a fresh encryption does: its phase is that far from `m * q / 4`. -/
structure EncodesWithin (ε : ℚ) (sk : MNTRUPrivateKey p.k pp.n) (ct : MNTRUCiphertext p.k pp.n) (m : Bool) :
    Prop where
  reduced : Reduced ct
  modulus : ct.modulus = pp.q
  near : Near pp.q ε (MNTRU.phase sk ct) (m.toNat * pp.q / 4)

/-- `ct` holds the gate constant `5q/8` with noise `ε`. -/
structure HoldsConstant (ε : ℚ) (sk : MNTRUPrivateKey p.k pp.n) (ct : MNTRUCiphertext p.k pp.n) : Prop where
  reduced : Reduced ct
  modulus : ct.modulus = pp.q
  near : Near pp.q ε (MNTRU.phase sk ct) (5 * pp.q / 8)

structure Sized (pp : MNTRUParams p) : Prop where
  large : 128 ≤ pp.q
  largeKS : 128 ≤ pp.qKS
  largeQ : 256 ≤ p.Q
  N_ne_one : p.N ≠ 1

/-! ### One gate -/

section Bounds
variable {b : Budget} {round : FloorRound} {EK : EvalKeys pp} {skf : Acc p} {sk : MNTRUPrivateKey p.k pp.n}
  {ct1 ct2 ctNAND : MNTRUCiphertext p.k pp.n} {m1 m2 : Bool} {ε δ : ℚ}

theorem linear_near (constant : HoldsConstant b.constant sk ctNAND) (h1 : EncodesWithin ε sk ct1 m1)
    (h2 : EncodesWithin δ sk ct2 m2) :
    ∃ ctprep ct, evalAddEq w (copy ct1) ct2 = .ok ctprep ∧ evalSubEq w (copy ctNAND) ctprep = .ok ct ∧
      Reduced ct ∧ ct.modulus = pp.q ∧ ct.p = 4 ∧
      Near pp.q (b.constant + (ε + δ)) (MNTRU.phase sk ct) (5 * pp.q / 8 - ones m1 m2 * pp.q / 4) := by
  have same1 : (copy ct1).modulus = pp.q := h1.modulus
  have sameC : (copy ctNAND).modulus = pp.q := constant.modulus
  obtain ⟨ctprep, add, reducedAdd, modAdd, -, phaseAdd⟩ := evalAddEq_ok (w := w) sk (same1.trans h2.modulus.symm)
    ⟨h1.reduced.lt⟩ h2.reduced (same1 ▸ pp.q_ok)
  rw [same1] at modAdd phaseAdd
  obtain ⟨ct, sub, reducedSub, modSub, four, phaseSub⟩ := evalSubEq_ok (w := w) sk (sameC.trans modAdd.symm)
    ⟨constant.reduced.lt⟩ reducedAdd (sameC ▸ pp.q_ok)
  rw [sameC] at modSub phaseSub
  refine ⟨ctprep, ct, add, sub, reducedSub, modSub, four, ?_⟩
  have total : MNTRU.phase sk ct ≡ MNTRU.phase sk ctNAND - (MNTRU.phase sk ct1 + MNTRU.phase sk ct2)
      [ZMOD pp.q] := phaseSub.trans ((Int.ModEq.refl _).sub phaseAdd)
  have near := (near_of_modEq total).trans (by
    rw [Int.cast_sub, Int.cast_add]
    exact constant.near.sub (h1.near.add h2.near))
  convert near using 1
  · ring
  · rw [ones]
    push_cast
    ring

theorem phaseQ_extract (skf acc : Acc p) :
    phaseQ skf (extract acc) = (UniEncAccumulator.phase p skf acc).coeff 0 := by
  rw [← sum_accExt]
  rfl

theorem coefficient_near (hQ : 256 ≤ p.Q) {x : ZMod p.Q} {err : ℤ} {m : Bool}
    (sign : x = (if m then ((p.Q / 2 ^ 3 + 1 : ℕ) : ZMod p.Q) else -((p.Q / 2 ^ 3 + 1 : ℕ) : ZMod p.Q)) + err)
    {η : ℚ} (small : |(err : ℚ) * pp.qKS / p.Q| ≤ η) :
    Near pp.qKS (η + pp.qKS / 256) (x.val * pp.qKS / p.Q) (m.toNat * pp.qKS / 4 - pp.qKS / 8) := by
  have hpos : (0 : ℚ) < p.Q := by exact_mod_cast (show 0 < p.Q by omega)
  have eighth := abs_le.mp (eighth_near hQ pp.qKS)
  have small := abs_le.mp small
  generalize p.Q / 2 ^ 3 + 1 = c at sign eighth
  have integer : (x.val : ℤ) ≡ (if m then (c : ℤ) else -c) + err [ZMOD p.Q] := by
    rw [← ZMod.intCast_eq_intCast_iff, Int.cast_natCast, ZMod.natCast_val, ZMod.cast_id', id, sign]
    cases m <;> simp
  have scaled := (near_of_modEq integer).scale (c := pp.qKS / p.Q) (by positivity)
  rw [mul_div_cancel₀ _ hpos.ne', zero_mul, Int.cast_natCast, ← mul_div_assoc] at scaled
  have close : Near (pp.qKS : ℚ) (η + pp.qKS / 256) ((((if m then (c : ℤ) else -c) + err : ℤ) : ℚ) * (pp.qKS / p.Q))
      (m.toNat * pp.qKS / 4 - pp.qKS / 8) := by
    refine near_of_abs (abs_le.mpr ?_)
    cases m with
    | false =>
      simp only [Bool.false_eq_true, if_false, Bool.toNat_false]
      push_cast
      rw [add_mul, neg_mul, ← mul_div_assoc, ← mul_div_assoc]
      constructor <;> linarith [eighth.1, eighth.2, small.1, small.2]
    | true =>
      simp only [if_true, Bool.toNat_true]
      push_cast
      rw [add_mul, ← mul_div_assoc, ← mul_div_assoc]
      constructor <;> linarith [eighth.1, eighth.2, small.1, small.2]
  simpa using scaled.trans close

theorem bootstrapGateCore_sign (faithful : Faithful b round EK skf sk) (sized : Sized pp) (gate : BinGate)
    {ct : MNTRUCiphertext p.k pp.n} (reduced : Reduced ct) (modulus : ct.modulus = pp.q) (four : ct.p = 4) {η : ℚ}
    (near : Near pp.q η (MNTRU.phase sk ct) (5 * pp.q / 8 - ones m1 m2 * pp.q / 4))
    (margin : b.rotation + η < pp.q / 8) :
    ∃ acc, ∃ err : ℤ, bootstrapGateCore gate EK ct = .ok acc ∧ |(err : ℚ) * pp.qKS / p.Q| ≤ b.coefficient ∧
      (UniEncAccumulator.phase p skf acc).coeff 0 =
        (if !(m1 && m2) then ((p.Q / 2 ^ 3 + 1 : ℕ) : ZMod p.Q) else -((p.Q / 2 ^ 3 + 1 : ℕ) : ZMod p.Q)) + err := by
  obtain ⟨evalAcc, key, rotates⟩ := faithful.rotates
  obtain ⟨acc, z, err, run, sign, small, exponent⟩ :=
    rotates ct (toPoly p (rx p (p.Q - Q2p p ct.p) (Q2p p ct.p))) reduced modulus
  refine ⟨acc, err, by rw [bootstrapGateCore, key]; exact run, small, ?_⟩
  have hq : (0 : ℚ) < pp.q := by exact_mod_cast (show 0 < pp.q by have := sized.large; omega)
  have hN : (0 : ℚ) < p.N := by exact_mod_cast Nat.pos_of_ne_zero (NeZero.ne p.N)
  have le : p.Q / 2 ^ 3 + 1 ≤ p.Q := by have := sized.largeQ; omega
  have scaled := (exponent.trans near).scale (c := 2 * p.N / pp.q) (by positivity)
  have whole : (pp.q : ℚ) * (2 * p.N / pp.q) = 2 * p.N := by field_simp
  have left : (z : ℚ) * pp.q / (2 * p.N) * (2 * p.N / pp.q) = z := by field_simp
  have target : (5 * (pp.q : ℚ) / 8 - ones m1 m2 * pp.q / 4) * (2 * p.N / pp.q) =
      5 * p.N / 4 - ones m1 m2 * p.N / 2 := by
    field_simp
    ring
  have error : (b.rotation + η) * (2 * p.N / pp.q) < p.N / 4 := by
    calc (b.rotation + η) * (2 * p.N / pp.q) < pp.q / 8 * (2 * p.N / pp.q) :=
          mul_lt_mul_of_pos_right margin (by positivity)
      _ = p.N / 4 := by field_simp; norm_num
  rw [whole, left, target] at scaled
  rw [sign, four, Q2p_four, toPoly_rx_neg _ le,
    coeff_zero_of_near (even_N_of_ne_one sized.N_ne_one) _ (scaled.within error), neg_neg]
  cases m1 <;> cases m2 <;> rfl

theorem evalBinGate_near (faithful : Faithful b round EK skf sk) (sized : Sized pp) (gate : BinGate)
    (constant : HoldsConstant b.constant sk ctNAND) {addr1 addr2 : ℕ} (different : addr1 ≠ addr2)
    (h1 : EncodesWithin ε sk ct1 m1) (h2 : EncodesWithin δ sk ct2 m2)
    (margin : b.rotation + (b.constant + (ε + δ)) < pp.q / 8) :
    ∃ ct, evalBinGate round gate EK ctNAND addr1 addr2 ct1 ct2 = .ok ct ∧ Reduced ct ∧ ct.modulus = pp.qKS ∧
      Near pp.qKS (b.switching + (b.coefficient + pp.qKS / 256)) (MNTRU.phase sk ct)
        ((!(m1 && m2)).toNat * pp.qKS / 4 - pp.qKS / 8) := by
  have hqKS : 0 < pp.qKS := by have := sized.largeKS; omega
  obtain ⟨ctprep, ct0, add, sub, reduced0, modulus0, four, near0⟩ := linear_near constant h1 h2
  obtain ⟨acc, err, core, small, sign⟩ :=
    bootstrapGateCore_sign faithful sized gate reduced0 modulus0 four near0 margin
  obtain ⟨ctMS, back, -, -⟩ := modSwitch_ok round hqKS (extract acc)
  have reduced : Reduced (extract acc) := ⟨fun u j => accExt_lt acc u j⟩
  have first := faithful.returns (extract acc) ctMS reduced rfl back
  rw [phaseQ_extract] at first
  refine ⟨keySwitch2 w EK.KSkey2 pp.baseKS pp.digitCount ctMS, ?_,
    keySwitch2_reduced hqKS (by have := lt_of_not_tooLarge pp.qKS_ok; omega) _ _ _ _, rfl,
    first.trans (coefficient_near sized.largeQ sign small)⟩
  simp only [evalBinGate, if_neg different, add, sub, core, back, bind, Except.bind, pure, Except.pure]

theorem not_encodes_of_shifted {ct : MNTRUCiphertext p.k pp.n} {m : Bool} (sized : Sized pp)
    (modulus : ct.modulus = pp.qKS)
    (near : Near pp.qKS δ (MNTRU.phase sk ct) (m.toNat * pp.qKS / 4 - pp.qKS / 8))
    (small : ε + δ < pp.qKS / 8) : ¬ EncodesWithin ε sk ct m := by
  intro encodes
  have same : pp.qKS = pp.q := modulus.symm.trans encodes.modulus
  have hq : (128 : ℚ) ≤ pp.qKS := by exact_mod_cast sized.largeKS
  have fresh := encodes.near
  rw [← same] at fresh
  have close := fresh.symm.trans near
  exact not_near_of_lt (by linarith) (by linarith) close

/-! ### Fresh ciphertexts -/

section Fresh
variable {F F_inv : Fin p.k → Fin pp.n → Fin pp.n → ℕ} {e : Fin p.k → Fin pp.n → ℕ}

theorem encrypt_encodes (generated : Generated (ofMatrices F F_inv pp.q)) (sized : Sized pp)
    (small : ∀ u l, e u l < pp.q) (noise : Near pp.q ε ((∑ u, (e u 0 : ℤ) : ℤ) : ℚ) 0) (m : Bool) :
    ∃ ct : MNTRUCiphertext p.k pp.n, encrypt w (ofMatrices F F_inv pp.q) e m.toNat 4 pp.q = .ok ct ∧
      EncodesWithin (1 + ε) (ofMatrices F F_inv pp.q) ct m := by
  obtain ⟨ct, run, reduced, modulus, -, same⟩ := encrypt_ok generated (generated.inverseModulo (dvd_refl pp.q))
    (by have := sized.large; omega) pp.q_ok pp.q_ok small m.toNat (show 0 < 4 by omega)
  rw [asUnsigned_natCast, Nat.mod_eq_of_lt (show m.toNat < 4 by cases m <;> decide)] at same
  refine ⟨ct, run, reduced, modulus, ?_⟩
  have message : Near pp.q 1 (m.toNat * (pp.q / 4) : ℕ) (m.toNat * pp.q / 4) := by
    cases m with
    | false => simpa using (near_refl (q := (pp.q : ℚ)) 0).mono (show (0 : ℚ) ≤ 1 by norm_num)
    | true => simpa using floor_near pp.q (show 0 < 4 by omega) pp.q
  have near := (near_of_modEq same).trans (by
    rw [Int.cast_add, Int.cast_natCast]
    exact message.add noise)
  rwa [zero_add, add_zero] at near

theorem ctGateGen_holds (generated : Generated (ofMatrices F F_inv pp.q)) (sized : Sized pp)
    (small : ∀ u l, e u l < pp.q) (noise : Near pp.q ε ((∑ u, (e u 0 : ℤ) : ℤ) : ℚ) 0) :
    ∃ ct : MNTRUCiphertext p.k pp.n, ctGateGen pp (ofMatrices F F_inv pp.q) e .NAND = .ok ct ∧
      HoldsConstant (1 + ε) (ofMatrices F F_inv pp.q) ct := by
  have hq := sized.large
  have hlt := lt_of_not_tooLarge pp.q_ok
  have word : NativeInteger.mul w 5 pp.q = 5 * pp.q := wrap_of_lt (by omega)
  obtain ⟨c, run, facts⟩ := maskRows_message generated (generated.inverseModulo (dvd_refl pp.q)) (by omega) pp.q_ok
    pp.q_ok small (show 5 * pp.q / 8 < pp.q by omega)
  refine ⟨⟨c, pp.q, 4⟩, ?_, (facts 4).1, rfl, ?_⟩
  · unfold ctGateGen
    simp only [ne_eq, not_true_eq_false, if_false, setModulus, if_neg pp.q_ok, word, run, bind, Except.bind, pure,
      Except.pure]
  · have constant : Near pp.q 1 (5 * pp.q / 8 : ℕ) (5 * pp.q / 8) := by
      simpa using floor_near (5 * pp.q) (show 0 < 8 by omega) pp.q
    have near := (near_of_modEq (facts 4).2).trans (by
      rw [Int.cast_add, Int.cast_natCast]
      exact constant.add noise)
    rwa [zero_add, add_zero] at near

end Fresh

/-! ### Circuits -/

/-- The wires of a circuit all lie in the encoding of fresh ciphertexts exactly when there is no gate. -/
theorem nand_circuit_encodes_iff_no_gates (faithful : Faithful b round EK skf sk) (sized : Sized pp)
    (constant : HoldsConstant b.constant sk ctNAND) {inputs : List (MNTRUCiphertext p.k pp.n)} {bits : List Bool}
    {gates : Circuit.Gates} (fresh : List.Forall₂ (EncodesWithin ε sk) inputs bits)
    (reads : Circuit.Scoped bits.length gates) (distinct : Circuit.Distinct gates)
    (margin : b.rotation + (b.constant + (ε + ε)) < pp.q / 8)
    (readable : ε + (b.switching + (b.coefficient + pp.qKS / 256)) < pp.qKS / 8) :
    (∃ wires, Circuit.evalM .outOfRange (evalBinGate round .NAND EK ctNAND) inputs gates = .ok wires ∧
      List.Forall₂ (EncodesWithin ε sk) wires (Circuit.eval (fun a b => !(a && b)) bits gates)) ↔
    gates = [] := by
  constructor
  · rintro ⟨wires, run, related⟩
    cases gates with
    | nil => rfl
    | cons g rest =>
      exfalso
      obtain ⟨h1, h2, -⟩ := reads
      obtain ⟨z, last, encodes⟩ := Circuit.evalM_first run related fresh.length_eq
      obtain ⟨x, hx, rx⟩ := Circuit.related_get fresh h1
      obtain ⟨y, hy, ry⟩ := Circuit.related_get fresh h2
      obtain ⟨ct, gate, -, modulus, near⟩ := evalBinGate_near faithful sized .NAND constant
        (distinct g List.mem_cons_self) rx ry margin
      rw [last x y hx hy] at gate
      cases gate
      exact not_encodes_of_shifted sized modulus near readable encodes
  · rintro rfl
    exact ⟨inputs, rfl, fresh⟩

end Bounds

/-! ### A noiseless system -/

def plainMNTRU : MNTRUParams plainParams where
  n := 1
  q := 2 ^ 12
  qKS := 2 ^ 12
  baseKS := 2 ^ 12
  digitCount := 1
  n_pos := Nat.one_pos
  q_ok := by decide
  qKS_ok := by decide

def plainKey : MNTRUPrivateKey plainParams.k plainMNTRU.n :=
  ofMatrices (fun _ _ _ => 1) (fun _ _ _ => 1) (2 ^ 12)

/-- Keys without errors: the rotation by the scaled entry, and the multiples of the first entry. -/
def plainKeys : EvalKeys plainMNTRU where
  BSkey := some fun acc ct => .ok fun u =>
    acc u * xpow (scaledIndex .w64 plainParams.N ct.modulus (ct.elements 0 0) : ℕ)
  KSkey2 :=
    { elements := fun _ digit l _ => if l = 0 then digit % 2 ^ 12 else 0
      elements_lt := fun _ _ _ _ => by
        split
        · exact Nat.mod_lt _ (by decide)
        · decide }

def plainBudget : Budget := ⟨1, 2 ^ 12 / 64, 0, 1⟩

theorem plain_entry (i : Fin plainMNTRU.n) : i = 0 := by
  have one : plainMNTRU.n = 1 := rfl
  have := i.isLt
  exact Fin.ext (by rw [Fin.val_zero]; omega)

theorem plain_generated : Generated plainKey where
  count := rfl
  F_lt := fun _ _ _ => show 1 < 2 ^ 12 by decide
  F_inv_lt := fun _ _ _ => show 1 < 2 ^ 12 by decide
  inverse := fun u l => by
    rw [plain_entry l, if_pos rfl, Fintype.sum_eq_single 0 fun j hj => absurd (plain_entry j) hj, plain_party u]
    decide

theorem phase_plainKey (ct : MNTRUCiphertext plainParams.k plainMNTRU.n) :
    MNTRU.phase plainKey ct = ct.elements 0 0 := by
  have one : centered plainKey.modulus (plainKey.F 0 0 0) = 1 := by decide
  rw [MNTRU.phase, Fintype.sum_eq_single 0 fun u hu => absurd (plain_party u) hu,
    Fintype.sum_eq_single 0 fun i hi => absurd (plain_entry i) hi, one, mul_one]

theorem phaseQ_plainSk (ct : MNTRUCiphertext plainParams.k plainParams.N) :
    phaseQ plainSk ct = (ct.elements 0 0 : ℕ) := by
  rw [phaseQ, Fintype.sum_eq_single 0 fun u hu => absurd (plain_party u) hu,
    Fintype.sum_eq_single 0 fun i hi => ?_]
  · rw [plainSk, coeff_one, if_pos (Fin.val_zero _), mul_one]
  · rw [plainSk, coeff_one, if_neg fun h => hi (Fin.ext (h.trans (Fin.val_zero _).symm)), mul_zero]

theorem plain_rotates {ct : MNTRUCiphertext plainParams.k plainMNTRU.n} (reduced : Reduced ct)
    (modulus : ct.modulus = plainMNTRU.q) :
    Near plainMNTRU.q plainBudget.rotation
      ((scaledIndex .w64 plainParams.N ct.modulus (ct.elements 0 0) : ℕ) * plainMNTRU.q / (2 * plainParams.N))
      (MNTRU.phase plainKey ct) := by
  have hq : plainMNTRU.q = 2 ^ 12 := rfl
  have hN : plainParams.N = 32 := rfl
  have small := reduced.lt 0 0
  rw [modulus, hq] at small
  have noWrap : ct.elements 0 0 * (2 * plainParams.N) < 2 ^ NativeSize.w64.bits := by
    rw [hN]
    exact lt_trans (Nat.mul_lt_mul_of_pos_right small (by decide)) (by decide)
  rw [modulus, phase_plainKey, scaledIndex_eq noWrap (by decide), hq, hN]
  generalize ct.elements 0 0 = x
  have lo : x * (2 * 32) / 2 ^ 12 * 64 ≤ x := by omega
  have hi : x < x * (2 * 32) / 2 ^ 12 * 64 + 64 := by omega
  generalize x * (2 * 32) / 2 ^ 12 = y at lo hi
  have lo' : (y : ℚ) * 64 ≤ x := by exact_mod_cast lo
  have hi' : (x : ℚ) < y * 64 + 64 := by exact_mod_cast hi
  refine near_of_abs (abs_le.mpr ?_)
  rw [plainBudget]
  push_cast
  constructor <;> linarith

theorem plain_keySwitch2 {ct : MNTRUCiphertext plainParams.k plainParams.N} (small : ct.elements 0 0 < 2 ^ 12) :
    (((keySwitch2 .w64 plainKeys.KSkey2 (2 ^ 12) 1 ct).elements 0 0 : ℕ) : ℤ) ≡ ct.elements 0 0
      [ZMOD (2 ^ 12 : ℕ)] := by
  have switched := keySwitch2_modEq (w := .w64) (show 0 < plainMNTRU.qKS by decide) (by decide)
    (K := plainKeys.KSkey2) (fun _ l _ => by simp [plainKeys]) (2 ^ 12) 1 ct 0 0
  rw [Fintype.sum_eq_single 0 fun x hx => ?_] at switched
  · rw [Fin.sum_univ_one] at switched
    have row : plainKeys.KSkey2.elements 0 (ct.elements 0 0 / (2 ^ 12) ^ (0 : Fin 1).val % 2 ^ 12)
        ((0 : Fin plainParams.N).val * 1 + (0 : Fin 1).val) 0 = ct.elements 0 0 := by
      rw [Fin.val_zero, Fin.val_zero, pow_zero, Nat.div_one, Nat.mod_eq_of_lt small]
      exact Nat.mod_eq_of_lt small
    rwa [row] at switched
  · have hx' : x.val ≠ 0 := fun h => hx (Fin.ext (h.trans (Fin.val_zero _).symm))
    rw [Fin.sum_univ_one]
    simp [plainKeys, hx']

theorem plain_returns {ct ct' : MNTRUCiphertext plainParams.k plainParams.N} (modulus : ct.modulus = plainParams.Q)
    (run : modSwitch exactRound plainMNTRU.qKS ct = .ok ct') :
    Near (2 ^ 12 : ℕ) plainBudget.switching
      (MNTRU.phase plainKey (keySwitch2 .w64 plainKeys.KSkey2 (2 ^ 12) 1 ct'))
      ((phaseQ plainSk ct).val * (2 ^ 12 : ℕ) / plainParams.Q) := by
  have hQ : 0 < plainParams.Q := Nat.zero_lt_of_lt plainParams.two_lt_Q
  have hQ' : (0 : ℚ) < plainParams.Q := by exact_mod_cast hQ
  have value : ct'.elements 0 0 = roundqQ exactRound (ct.elements 0 0) (2 ^ 12) plainParams.Q :=
    modulus ▸ modSwitch_values run 0 0
  have switched := near_of_modEq (plain_keySwitch2 (value.trans_lt (Nat.mod_lt _ (by decide))))
  have rounded := roundqQ_exact_near (v := ct.elements 0 0) (q := 2 ^ 12) hQ
  have same : (ct.elements 0 0 : ℤ) ≡ ((phaseQ plainSk ct).val : ℤ) [ZMOD plainParams.Q] := by
    rw [← ZMod.intCast_eq_intCast_iff, phaseQ_plainSk]
    simp
  have extracted := (near_of_modEq same).scale (c := (2 ^ 12 : ℕ) / plainParams.Q) (by positivity)
  rw [mul_div_cancel₀ _ hQ'.ne', zero_mul, Int.cast_natCast, Int.cast_natCast, ← mul_div_assoc,
    ← mul_div_assoc] at extracted
  rw [← value] at rounded
  rw [phase_plainKey]
  rw [Int.cast_natCast ((ct'.elements 0 0))] at switched
  exact ((switched.trans rounded).trans extracted).mono (by norm_num [plainBudget])

theorem plain_faithful : Faithful plainBudget exactRound plainKeys plainSk plainKey where
  rotates := by
    refine ⟨_, rfl, fun ct T reduced modulus => ⟨_, _, 0, rfl, ?_, ?_, plain_rotates reduced modulus⟩⟩
    · rw [phase_mul, phase_initial, plainSk, mul_one, Int.cast_zero, add_zero]
    · simp [plainBudget]
  returns := fun _ _ _ modulus run => plain_returns modulus run

theorem plain_sized : Sized plainMNTRU := ⟨by decide, by decide, by decide, by decide⟩

theorem plain_noise : Near plainMNTRU.q 0 ((∑ _u : Fin plainParams.k, ((0 : ℕ) : ℤ) : ℤ) : ℚ) 0 := by
  simpa using near_refl (q := (plainMNTRU.q : ℚ)) 0

/-- For one gate on two encryptions of one the equivalence says that the encoding is lost. -/
theorem plain_gate_leaves_encoding : ∃ ct1 ct2 ctNAND : MNTRUCiphertext plainParams.k plainMNTRU.n,
    encrypt .w64 plainKey (fun _ _ => 0) 1 4 (2 ^ 12) = .ok ct1 ∧
    encrypt .w64 plainKey (fun _ _ => 0) 1 4 (2 ^ 12) = .ok ct2 ∧
    ctGateGen plainMNTRU plainKey (fun _ _ => 0) .NAND = .ok ctNAND ∧
    ((∃ wires, Circuit.evalM .outOfRange (evalBinGate exactRound .NAND plainKeys ctNAND) [ct1, ct2] [(0, 1)] =
        .ok wires ∧
      List.Forall₂ (EncodesWithin (1 + 0) plainKey) wires (Circuit.eval (fun a b => !(a && b)) [true, true] [(0, 1)])) ↔
      [((0, 1) : ℕ × ℕ)] = []) := by
  obtain ⟨ct, run, encodes⟩ := encrypt_encodes plain_generated plain_sized (e := fun _ _ => 0) (fun _ _ => by decide)
    plain_noise true
  obtain ⟨ctNAND, gate, constant⟩ := ctGateGen_holds plain_generated plain_sized (e := fun _ _ => 0)
    (fun _ _ => by decide) plain_noise
  rw [add_zero] at constant
  exact ⟨ct, ct, ctNAND, run, run, gate, nand_circuit_encodes_iff_no_gates plain_faithful plain_sized constant
    (.cons encodes (.cons encodes .nil)) (by decide) (by decide) (by norm_num [plainBudget, plainMNTRU])
    (by norm_num [plainBudget, plainMNTRU])⟩

/-- Two levels of gates on encryptions of one: the circuit's value is one, and zero is decrypted. -/
theorem plain_two_levels_fail : Faithful plainBudget exactRound plainKeys plainSk plainKey ∧
    (Circuit.eval (fun a b => !(a && b)) [true, true, true, true] [(0, 1), (2, 3), (4, 5)])[6]? = some true ∧
    (do
      let ct : MNTRUCiphertext plainParams.k plainMNTRU.n ← encrypt .w64 plainKey (fun _ _ => 0) 1 4 (2 ^ 12)
      let ctNAND : MNTRUCiphertext plainParams.k plainMNTRU.n ← ctGateGen plainMNTRU plainKey (fun _ _ => 0) .NAND
      let wires ← Circuit.evalM .outOfRange (evalBinGate exactRound .NAND plainKeys ctNAND) [ct, ct, ct, ct]
        [(0, 1), (2, 3), (4, 5)]
      let some out := wires[6]? | throw Fault.outOfRange
      MNTRU.decrypt .w64 plainKey out 4) = .ok 0 :=
  ⟨plain_faithful, by decide, by decide +kernel⟩

end MNTRUGate
end MultiKeyFHE
