import MultiKeyFHE.Gate.GeneratedKeys
import MultiKeyFHE.Sign.Floor

/-!
# Look-ups with noisy keys

`BootstrapFunc` finds the value of a function that changes its sign, up to what the rotation and the switches add and what
the quotient `Q / fmod` loses. With the keys of `KeyGen` this is what the functions on top of it assume.
-/

namespace MultiKeyFHE
open Negacyclic NegPoly NativeInteger NativeVector Circle

namespace LWEGate
open LWE
variable {P : SingleKeyParams} {w : NativeSize} {plat : Platform} {round : FloorRound} {g : Gadget} {EK : EvalKeys P}

/-! ### Values in the accumulator -/

/-- A number of `Q / fmod`, scaled back. -/
theorem multiple_near {Q : ℕ} [NeZero Q] (fmod : ℕ) {u : ℤ} (below : |u| ≤ fmod) :
    Near fmod ((Q % fmod : ℕ) * fmod / Q) ((((((Q / fmod : ℕ) * u : ℤ) : ZMod Q)).val : ℚ) * fmod / Q) u := by
  have pos : (0 : ℚ) < Q := by exact_mod_cast NeZero.pos Q
  have same : ((((Q / fmod : ℕ) * u : ℤ) : ZMod Q).val : ℤ) ≡ (Q / fmod : ℕ) * u [ZMOD Q] := by
    rw [← ZMod.intCast_eq_intCast_iff]
    simp
  have scaled := (near_of_modEq same).scale (show (0 : ℚ) ≤ fmod / Q by positivity)
  rw [mul_div_cancel₀ (fmod : ℚ) pos.ne', zero_mul] at scaled
  have lost : |(((Q / fmod : ℕ) * u : ℤ) : ℚ) * (fmod / Q) - u| ≤ (Q % fmod : ℕ) * fmod / Q := by
    have split : ((Q / fmod : ℕ) : ℚ) * fmod = Q - (Q % fmod : ℕ) := by
      have whole : ((Q / fmod * fmod + Q % fmod : ℕ) : ℚ) = Q := by rw [Nat.div_add_mod']
      push_cast at whole
      linarith
    have rest : (((Q / fmod : ℕ) * u : ℤ) : ℚ) * (fmod / Q) - u = -((Q % fmod : ℕ) * u) / Q := by
      rw [Int.cast_mul, Int.cast_natCast, eq_div_iff pos.ne', sub_mul, mul_assoc, div_mul_cancel₀ _ pos.ne', mul_right_comm, split]
      ring
    have small : |(u : ℚ)| ≤ fmod := by exact_mod_cast below
    rw [rest, abs_div, abs_neg, abs_mul, Nat.abs_cast, Nat.abs_cast]
    exact div_le_div_of_nonneg_right (mul_le_mul_of_nonneg_left small (Nat.cast_nonneg _)) pos.le
  have total := scaled.trans (near_of_abs lost)
  rw [zero_add, ← mul_div_assoc, Int.cast_natCast] at total
  exact total

/-- What the loop of `BootstrapFuncCore` writes for a value of `f`. -/
def accValue (Q : ℕ) (f : Func) (c fmod : ℕ) (x : ℤ) : ZMod Q := ((Q / fmod * f (x % c).toNat c fmod : ℕ) : ZMod Q)

theorem accValue_periodic (Q : ℕ) (f : Func) (c fmod : ℕ) : Function.Periodic (accValue Q f c fmod) (c : ℤ) := by
  intro x
  rw [accValue, accValue, Int.add_emod_right]

/-- A function that changes its sign modulo `fmod`. Its values may be `fmod` itself. -/
structure HalfTurns (f : Func) (c fmod : ℕ) : Prop where
  le : ∀ x < c, f x c fmod ≤ fmod
  changes : ∀ x < c / 2, (f x c fmod + f (x + c / 2) c fmod) % fmod = 0

theorem ChangesSign.halfTurns {f : Func} {c fmod : ℕ} (changes : ChangesSign f c fmod) : HalfTurns f c fmod :=
  ⟨fun x hx => (changes.below x hx).le, changes.changes⟩

/-- On both halves the accumulator has the value, or the opposite of one that makes a full turn with it. -/
theorem halfTurn_near {Q c half fmod : ℕ} [NeZero Q] {f : Func} (turns : HalfTurns f c fmod) (even : c = 2 * half)
    (pos : 0 < half) (b x : ℤ) :
    Near fmod ((Q % fmod : ℕ) * fmod / Q) (((halfTurn half b (accValue Q f c fmod) x).val : ℚ) * fmod / Q)
      (f (x % c).toNat c fmod) := by
  have hc : (0 : ℤ) < c := by omega
  have lo := Int.emod_nonneg x hc.ne'
  have hi := Int.emod_lt_of_pos x hc
  have le : ∀ y : ℤ, f (y % c).toNat c fmod ≤ fmod := fun y =>
    turns.le _ (by have := Int.emod_nonneg y hc.ne'; have := Int.emod_lt_of_pos y hc; omega)
  unfold halfTurn
  split
  · have value := multiple_near (Q := Q) fmod (u := f (x % c).toNat c fmod) (by
      rw [Nat.abs_cast]
      exact_mod_cast le x)
    rw [accValue]
    exact_mod_cast value
  · -- the partners add up to a multiple of `fmod`
    have pair : (f (x % c).toNat c fmod + f ((x + half) % c).toNat c fmod) % fmod = 0 := by
      obtain ⟨r, hr⟩ := Int.eq_ofNat_of_zero_le lo
      rw [← Int.emod_add_emod, hr, Int.toNat_natCast]
      rw [hr] at hi
      rcases Nat.lt_or_ge r half with low | high
      · have turned := turns.changes r (by omega)
        rw [show c / 2 = half by omega] at turned
        rwa [← Nat.cast_add, Int.emod_eq_of_lt (by omega) (by omega), Int.toNat_natCast]
      · have turned := turns.changes (r - half) (by omega)
        rw [show r - half + c / 2 = r by omega, add_comm] at turned
        have rest : ((r : ℤ) + half) % c = (r - half : ℕ) := by
          rw [← Int.sub_emod_right, Int.emod_eq_of_lt (by omega) (by omega)]
          omega
        rwa [rest, Int.toNat_natCast]
    have value := multiple_near (Q := Q) fmod (u := -(f ((x + half) % c).toNat c fmod)) (by
      rw [abs_neg, Nat.abs_cast]
      exact_mod_cast le (x + half))
    have whole : (-(f ((x + half) % c).toNat c fmod) : ℤ) ≡ f (x % c).toNat c fmod [ZMOD fmod] := by
      have divides : (fmod : ℤ) ∣ f (x % c).toNat c fmod + f ((x + half) % c).toNat c fmod := by
        exact_mod_cast Nat.dvd_of_mod_eq_zero pair
      refine Int.modEq_iff_dvd.mpr ?_
      rwa [sub_neg_eq_add]
    have total := value.trans (near_of_modEq whole)
    rw [add_zero, Int.cast_natCast] at total
    have same : -accValue Q f c fmod (x + half) = (((Q / fmod : ℕ) * -(f ((x + half) % c).toNat c fmod) : ℤ) : ZMod Q) := by
      rw [accValue, Nat.cast_mul, Int.cast_mul, Int.cast_neg, Int.cast_natCast, Int.cast_natCast, mul_neg]
    rw [same]
    exact total

/-! ### One look-up -/

/-- The parts of `BootstrapFunc` on vectors modulo `c` with results modulo `fmod`: an error `β` of the rotation, and switches
that move the scaled phase by less than `δ`. -/
structure FaithfulAt (w : NativeSize) (plat : Platform) (round : FloorRound) (g : Gadget) (EK : EvalKeys P) (c fmod : ℕ)
    (β : ℝ) (δ : ℚ) (z : NativePoly P.N P.Q) (s : Fin P.n → ℤ) : Prop where
  rotates : ∃ evalAcc, EK.BSkey = some evalAcc ∧ ∀ (acc : P.Acc) (a : Fin P.n → ℕ), (∀ i, a i < c) →
    ∃ acc', evalAcc g acc P.n a c = some acc' ∧
      Bounded β (acc'.phase z - acc.phase z * xpow (-((2 * P.N / c : ℕ) * ∑ i, (a i : ℤ) * s i)))
  switches : ∀ ctExt : LWECiphertext P.N, Reduced ctExt → ctExt.modulus = P.Q →
    ∃ ct, switch w plat round EK fmod ctExt = .ok ct ∧
      Within fmod δ (LWE.phase s ct) ((phaseQ z ctExt).val * fmod / P.Q)

/-- `BootstrapFunc` finds a function that changes its sign, up to noise below `ε`. -/
def LooksUp {n : ℕ} (boot : LWECiphertext n → Func → ℕ → Except Fault (LWECiphertext n)) (s : Fin n → ℤ) (ε : ℝ) (c fmod : ℕ) :
    Prop :=
  ∀ (f : Func) (ct : LWECiphertext n), HalfTurns f c fmod → LWE.Reduced ct → ct.modulus = c →
    ∃ ct', ∃ noise : ℤ, boot ct f fmod = .ok ct' ∧ ((|noise| : ℤ) : ℝ) < ε ∧
      LWE.phase s ct' ≡ f (LWE.phase s ct % c).toNat c fmod + noise [ZMOD fmod]

/-- What `EvalFloor` and the rounds of `EvalSign` assume. -/
theorem LooksUp.bootstrapsAt {n : ℕ} {boot : LWECiphertext n → Func → ℕ → Except Fault (LWECiphertext n)} {s : Fin n → ℤ}
    {c fmod beta : ℕ} (looksUp : LooksUp boot s (beta / 4) c fmod) : BootstrapsAt boot s beta c fmod := by
  intro f ct changes reduced modulus
  obtain ⟨ct', noise, run, small, held⟩ := looksUp f ct changes.halfTurns reduced modulus
  refine ⟨ct', noise, run, ?_, held⟩
  rw [lt_div_iff₀ (by norm_num), mul_comm] at small
  exact_mod_cast small

/-- What `EvalFunc` assumes. -/
theorem LooksUp.bootstrapsTo {s : Fin P.n → ℤ} {c beta : ℕ} (looksUp : LooksUp (bootstrapFunc w plat round g EK) s (beta / 2) c c)
    (pos : 0 < c) : BinFHEScheme.BootstrapsTo (bootstrapFunc w plat round g EK) s beta c := by
  intro ct f reduced modulus le changes
  obtain ⟨ct', noise, run, small, held⟩ := looksUp f ct ⟨le, changes⟩ reduced modulus
  obtain ⟨reduced', modulus'⟩ := bootstrapFunc_reduced pos run
  refine ⟨ct', noise, run, reduced', modulus', ?_, held⟩
  rw [lt_div_iff₀ two_pos, mul_comm] at small
  exact_mod_cast small

section LookUp
variable {c fmod half : ℕ} {β : ℝ} {δ : ℚ} {z : NativePoly P.N P.Q} {s : Fin P.n → ℤ} {f : Func} {ct : LWECiphertext P.n}

/-- The loop of the core writes the look-up polynomial of the values. -/
theorem funcVector_eq (even : c = 2 * half) (pos : 0 < half) (size : 2 * P.N / c * half = P.N) (narrow : 2 * P.N < 2 ^ 32)
    (word : P.Q < 2 ^ w.bits) (turns : HalfTurns f c fmod) (fits : c ≤ 2 ^ w.bits) {b : ℕ} (hb : b < c) :
    (⟨fun i => ((sparseVector P.N (2 * P.N % 2 ^ 32 / c) (c >>> 1) (fun j =>
      mul w (P.Q / fmod) (f (modSub w b j c) c fmod)) i : ℕ) : ZMod P.Q)⟩ : NativePoly P.N P.Q) =
        lookUp (2 * P.N / c) (accValue P.Q f c fmod) b := by
  have whole : 0 < 2 * P.N / c * half := size.symm ▸ P.N_pos
  have step : 0 < 2 * P.N / c := Nat.pos_of_mul_pos_right whole
  rw [Nat.mod_eq_of_lt narrow]
  ext i
  rw [lookUp]
  dsimp only
  rw [sparseVector_eq step]
  have inside : i.val / (2 * P.N / c) < c >>> 1 := by
    rw [Nat.shiftRight_eq_div_pow, pow_one, show c / 2 = half by omega, Nat.div_lt_iff_lt_mul step, mul_comm, size]
    exact i.isLt
  simp only [inside, and_true]
  rw [Nat.shiftRight_eq_div_pow, pow_one] at inside
  generalize i.val / (2 * P.N / c) = j at inside
  split
  · have below : modSub w b j c < c := by
      rw [modSub]
      exact modSubFast_lt (Nat.mod_lt _ (by omega)) (Nat.mod_lt _ (by omega)) fits
    have there : ((b : ℤ) - j) % c = modSub w b j c := by
      have same : (modSub w b j c : ℤ) ≡ b - j [ZMOD c] := by
        rw [modSub, Nat.mod_eq_of_lt hb, Nat.mod_eq_of_lt (by omega)]
        exact modSubFast_cast hb (by omega) fits
      rw [← same.eq, Int.emod_eq_of_lt (by omega) (by omega)]
    have product : P.Q / fmod * f (modSub w b j c) c fmod < 2 ^ w.bits := by
      refine lt_of_le_of_lt ?_ word
      calc P.Q / fmod * f (modSub w b j c) c fmod ≤ P.Q / fmod * fmod := Nat.mul_le_mul_left _ (turns.le _ below)
        _ ≤ P.Q := Nat.div_mul_le_self _ _
    rw [accValue, there, Int.toNat_natCast, NativeInteger.mul, wrap_of_lt product]
  · exact Nat.cast_zero

theorem phaseQ_extract_coefficient [NeZero P.Q] (acc : P.Acc) : phaseQ z (extract acc (acc.b.coeff 0).val) = (acc.phase z).coeff 0 := by
  rw [phaseQ, extract, RLWECiphertext.phase, coeff_sub, ← sum_transpose]
  simp only [ZMod.natCast_zmod_val]

/-- What the rotation, the switches and the quotient `Q / fmod` add stays below `ε`. -/
theorem FaithfulAt.looksUp (faithful : FaithfulAt w plat round g EK c fmod β δ z s) (even : c = 2 * half) (pos : 0 < half)
    (divides : c ∣ 2 * P.N) (narrow : 2 * P.N < 2 ^ 32) (posQ : 0 < P.Q) (word : P.Q < 2 ^ w.bits) {ε : ℝ}
    (margin : ((P.Q % fmod : ℕ) * fmod / P.Q : ℚ) + β * fmod / P.Q + δ ≤ ε) :
    LooksUp (bootstrapFunc w plat round g EK) s ε c fmod := by
  intro f ct turns reduced modulus
  subst modulus
  have := NeZero.of_pos posQ
  have posR : (0 : ℝ) < P.Q := by exact_mod_cast posQ
  have size : 2 * P.N / ct.modulus * half = P.N := by
    have whole := Nat.div_mul_cancel divides
    refine Nat.eq_of_mul_eq_mul_left two_pos ?_
    calc 2 * (2 * P.N / ct.modulus * half) = 2 * P.N / ct.modulus * (2 * half) := by ring
      _ = 2 * P.N := by rw [← even, whole]
  have fits : ct.modulus ≤ 2 ^ w.bits :=
    (Nat.le_of_dvd (Nat.mul_pos two_pos P.N_pos) divides).trans (narrow.le.trans w.two_pow_32_le)
  have periodic : Function.Periodic (accValue P.Q f ct.modulus fmod) (2 * half : ℤ) := by
    have full := accValue_periodic P.Q f ct.modulus fmod
    rwa [show (ct.modulus : ℤ) = 2 * half by omega] at full
  obtain ⟨evalAcc, key, rotates⟩ := faithful.rotates
  obtain ⟨acc, ran, turned⟩ := rotates ⟨0, lookUp (2 * P.N / ct.modulus) (accValue P.Q f ct.modulus fmod) ct.b⟩ ct.a reduced.a_lt
  have core : bootstrapFuncCore w g EK ct f fmod = .ok acc := by
    simp only [bootstrapFuncCore, rotate, key, funcVector_eq even pos size narrow word turns fits reduced.b_lt, ran]
  have found : ((acc.phase z).coeff 0 -
      halfTurn half ct.b (accValue P.Q f ct.modulus fmod) (LWE.phase s ct)).valMinAbs.natAbs ≤ β := by
    have first := turned 0
    rw [coeff_sub, RLWECiphertext.phase, RLWECiphertext.phase] at first
    dsimp only at first
    rwa [zero_mul, sub_zero, ← lookUp_halfTurn size, coeff_zero_lookUp size (halfTurn_antiperiodic pos _ periodic)] at first
  obtain ⟨ct', run, close⟩ := faithful.switches (extract acc (acc.b.coeff 0).val) ⟨fun j => ZMod.val_lt _, ZMod.val_lt _⟩ rfl
  rw [phaseQ_extract_coefficient] at close
  obtain ⟨t, ht⟩ := close.trans_near ((scaled_near fmod _ _).trans (halfTurn_near turns even pos ct.b (LWE.phase s ct)))
  refine ⟨ct', LWE.phase s ct' - f (LWE.phase s ct % ct.modulus).toNat ct.modulus fmod - t * fmod, ?_, ?_,
    Int.modEq_iff_dvd.mpr ⟨-t, by ring⟩⟩
  · rw [bootstrapFunc, core]
    exact run
  · have scaled := div_le_div_of_nonneg_right (mul_le_mul_of_nonneg_right found (Nat.cast_nonneg fmod)) posR.le
    have total := (Rat.cast_lt (K := ℝ)).mpr ht
    push_cast at total margin ⊢
    linarith

end LookUp

/-! ### With the keys of `KeyGen` -/

section Generated
variable {p : RingGSWCryptoParams} [NeZero p.N] [NeZero p.q] {n qKS baseKS : ℕ} {sk : LWEPrivateKey n} {draws : KeyGenDraws p n}
  {gBits : ℕ} {S E : ℝ} {E' : ℚ}

/-- The noise of a look-up with results modulo `fmod`. -/
noncomputable def lookUpBound (plat : Platform) (p : RingGSWCryptoParams) (qKS baseKS : ℕ) (sk : LWEPrivateKey n) (draws : KeyGenDraws p n)
    (gBits : ℕ) (S E : ℝ) (E' : ℚ) (fmod : ℕ) : ℝ :=
  ((p.Q % fmod : ℕ) * fmod / p.Q : ℚ) + rotationBound plat p n gBits S E * fmod / p.Q +
    switchBound fmod qKS (plat.digitCount qKS baseKS) sk draws.skN (1 / 2 + (qKS + 1) / 2 ^ 50) (1 / 2 + (fmod + 1) / 2 ^ 50) E'

namespace MakesKeys
variable (makes : MakesKeys w plat p qKS baseKS sk draws gBits S E E') (nonneg : 0 ≤ E) {c half fmod : ℕ} (turns : TurnsAt p c)
include makes turns

omit [NeZero p.N] [NeZero p.q] in
theorem divides_of_turns : c ∣ 2 * p.N := by
  rcases turns with rfl | ⟨-, divides⟩
  · exact makes.admissible.divides
  · exact divides

include nonneg

/-- A gadget with the same numbers reads the key as well as that of the parameters. -/
theorem faithfulAt (read : g.read = p.toGadget.read) {δ : ℚ} (bound : switchBound fmod qKS (plat.digitCount qKS baseKS) sk
      draws.skN (1 / 2 + (qKS + 1) / 2 ^ 50) (1 / 2 + (fmod + 1) / 2 ^ 50) E' < δ) :
    FaithfulAt (P := SingleKeyParams.ofRing p n qKS baseKS) w plat doubleRound g (draws.keyGen w plat qKS baseKS sk) c fmod
      (rotationBound plat p n gBits S E) δ draws.skNPoly sk.signed where
  rotates := by
    refine ⟨_, rfl, fun acc a ha => ?_⟩
    obtain ⟨acc', run, near⟩ := makes.evalAcc_near nonneg turns acc a ha
    exact ⟨acc', (dif_pos ⟨read, rfl⟩).trans run, near⟩
  switches := fun ctExt reduced modulus => by
    have := makes.covers.neZero
    have stored : (draws.keyGen w plat qKS baseKS sk).KSkey = some (generatedKey w qKS baseKS sk draws.skN draws.masksKS
      draws.errorsKS) := rfl
    obtain ⟨ct, run, near⟩ := switch_near plat makes.modulus stored makes.switches makes.errors_le fmod reduced modulus
    exact ⟨ct, run, near.within bound⟩

/-- Under generated keys `BootstrapFunc` finds values at every modulus that the keys turn by. -/
theorem looksUp (even : c = 2 * half) (pos : 0 < half) {ε : ℝ}
    (margin : lookUpBound plat p qKS baseKS sk draws gBits S E E' fmod < ε) :
    LooksUp (bootstrapFunc (P := SingleKeyParams.ofRing p n qKS baseKS) w plat doubleRound p.toGadget
      (draws.keyGen w plat qKS baseKS sk)) sk.signed ε c fmod := by
  have word := lt_of_not_tooLarge makes.admissible.fits
  obtain ⟨δ, above, below⟩ := exists_rat_btwn (lt_sub_iff_add_lt'.mpr margin)
  exact (makes.faithfulAt nonneg turns rfl (Rat.cast_lt.mp above)).looksUp even pos (makes.divides_of_turns turns)
    makes.admissible.narrow makes.covers.neZero.pos (show p.Q < 2 ^ w.bits by omega) (lt_sub_iff_add_lt'.mp below).le

end MakesKeys

end Generated

end LWEGate
end MultiKeyFHE
