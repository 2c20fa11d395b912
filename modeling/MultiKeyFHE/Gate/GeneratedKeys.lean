import MultiKeyFHE.Accumulator.RotationNoise
import MultiKeyFHE.Gate.PlaintextModulus
import MultiKeyFHE.Scheme.SwitchingNoise

/-!
# Circuits under generated keys

`KeyGen` of `BinFHEScheme` makes the switching key and the bootstrapping key from one ring secret. With these keys every
part that `Faithful` assumes errs, by what the generators drew. Where the errors together stay below the noise that a
gate tolerates, circuits on encryptions decrypt to what they compute.
-/

namespace MultiKeyFHE
open Negacyclic NegPoly NativeInteger NativeVector Circle Netlist RingGSW

/-- Both constructors get the numbers of the ring. -/
abbrev SingleKeyParams.ofRing (p : RingGSWCryptoParams) [NeZero p.N] [NeZero p.q] (n qKS baseKS : ℕ) : SingleKeyParams where
  lwe := { LWECryptoParams.default with q := p.q, Q := p.Q, qKS, n, N := p.N, baseKS, keyDist := p.keyDist }
  rgsw := p
  same_N := rfl
  same_Q := rfl
  same_q := rfl
  N_pos := NeZero.pos p.N
  q_pos := NeZero.pos p.q

namespace LWEPrivateKey
variable {N Q : ℕ} (skN : LWEPrivateKey N)

variable (Q) in
/-- `SetValues` with the vector of a key. -/
def poly : NativePoly N Q := ⟨fun i => (skN.element i : ZMod Q)⟩

variable {skN} (modulus : skN.modulus = Q)
include modulus

theorem signed_cast (i : Fin N) : ((skN.signed i : ℤ) : ZMod Q) = (skN.poly Q).coeff i := by
  have same := (ZMod.intCast_eq_intCast_iff _ _ _).mpr (centered_modEq Q (skN.element i))
  rw [signed, modulus, same, Int.cast_natCast, poly]

theorem poly_bounded [NeZero Q] {S : ℝ} (small : ∀ i, |(skN.signed i : ℝ)| ≤ S) : Bounded S (skN.poly Q) := by
  refine bounded_of_intCast fun i => ⟨_, signed_cast modulus i, ?_⟩
  rw [Nat.cast_natAbs, Int.cast_abs]
  exact small i

end LWEPrivateKey

/-- What the generators of `KeyGen` draw: the ring secret, and the masks and errors of both keys. -/
structure KeyGenDraws (p : RingGSWCryptoParams) (n : ℕ) where
  skN : LWEPrivateKey p.N
  masksKS : Fin p.N → ℕ → ℕ → Fin n → ℕ
  errorsKS : Fin p.N → ℕ → ℕ → ℕ
  dm : Fin n → ℕ → ℕ → KeyDraw p
  cggi : Bool → Fin n → KeyDraw p
  lmkcdey : Fin n → KeyDraw p
  auto : Fin n → AutoDraw p

namespace KeyGenDraws
variable {p : RingGSWCryptoParams} {n : ℕ} (draws : KeyGenDraws p n)

def skNPoly : Poly p := draws.skN.poly p.Q

variable (w : NativeSize) (plat : Platform) [NeZero p.N] [NeZero p.q]

/-- `EvalAcc` of the accumulator that the method selects, under its `KeyGenAcc`. The key is for vectors of `n` entries. -/
def evalAcc (sk : LWEPrivateKey n) (acc : Acc p) (a : Fin n → ℕ) (mod : ℕ) : Option (Acc p) :=
  match p.method with
  | .AP =>
    let digitsR := plat.digitCount p.q p.baseR
    some (evalAccDM w matrixProduct digitsR (keyGenAccDM p w draws.skNPoly sk.modulus sk.element draws.dm) acc a)
  | .GINX => (evalAccCGGI w matrixProduct (keyGenAccCGGI p draws.skNPoly sk.modulus sk.element draws.cggi) mod acc a).toOption
  | .LMKCDEY =>
    (keyGenAccLMKCDEY w draws.skNPoly sk.modulus sk.element draws.lmkcdey draws.auto >>= fun ek =>
      evalAccCalls w ek acc a).toOption
  | _ => none

/-- `KeyGen`. The bootstrapping key is for the gadget of the parameters. -/
def keyGen (qKS baseKS : ℕ) (sk : LWEPrivateKey n) : LWEGate.EvalKeys (SingleKeyParams.ofRing p n qKS baseKS) where
  BSkey := some fun g acc len a mod =>
    if fits : g.read = p.toGadget.read ∧ n = len then draws.evalAcc w plat sk acc (a ∘ Fin.cast fits.2) mod else none
  KSkey := some (LWE.generatedKey w qKS baseKS sk draws.skN draws.masksKS draws.errorsKS)

end KeyGenDraws

namespace LWEGate
open LWE

/-! ### The switches after a rotation -/

section Switches
variable {P : SingleKeyParams} {w : NativeSize} {plat : Platform} {EK : EvalKeys P} {sk : LWEPrivateKey P.n}
  {skN : LWEPrivateKey P.N} (modulus : skN.modulus = P.Q)
include modulus

/-- The phase under the ring secret as a residue modulo `Q`. -/
theorem phaseQ_modEq [NeZero P.Q] (ctExt : LWECiphertext P.N) :
    LWE.phase skN.signed ctExt ≡ (phaseQ (skN.poly P.Q) ctExt).val [ZMOD P.Q] := by
  rw [← ZMod.intCast_eq_intCast_iff, LWE.phase, phaseQ]
  push_cast
  rw [ZMod.natCast_zmod_val]
  congr 1
  exact Finset.sum_congr rfl fun i _ => congrArg _ (LWEPrivateKey.signed_cast modulus i)

variable {masks : Fin P.N → ℕ → ℕ → Fin P.n → ℕ} {errors : Fin P.N → ℕ → ℕ → ℕ} {E' : ℚ}

variable (plat) in
theorem switch_near [NeZero P.Q] (stored : EK.KSkey = some (generatedKey w P.qKS P.lwe.baseKS sk skN masks errors))
    (keys : SwitchesKeys w P.qKS P.lwe.baseKS (plat.digitCount P.qKS P.lwe.baseKS) sk skN masks)
    (small : ∀ i digit j, |(centered P.qKS (errors i digit j) : ℚ)| ≤ E') (fmod : ℕ) {ctExt : LWECiphertext P.N}
    (reduced : Reduced ctExt) (modulusQ : ctExt.modulus = P.Q) :
    ∃ ct, switch w plat doubleRound EK fmod ctExt = .ok ct ∧
      Near fmod (switchBound fmod P.qKS (plat.digitCount P.qKS P.lwe.baseKS) sk skN (1 / 2 + (P.qKS + 1) / 2 ^ 50)
        (1 / 2 + (fmod + 1) / 2 ^ 50) E') (LWE.phase sk.signed ct) ((phaseQ (skN.poly P.Q) ctExt).val * fmod / P.Q) := by
  have positive : 0 < P.Q := NeZero.pos P.Q
  have pos : (0 : ℚ) < P.Q := by exact_mod_cast positive
  have two := keys.two_le
  have run : switch w plat doubleRound EK fmod ctExt = .ok (modSwitch doubleRound fmod (keySwitch w P.qKS
      (generatedKey w P.qKS P.lwe.baseKS sk skN masks errors) P.lwe.baseKS (plat.digitCount P.qKS P.lwe.baseKS)
        (modSwitch doubleRound P.qKS ctExt))) := by
    rw [switch, stored]
  refine ⟨_, run, ?_⟩
  have moved := switched_near keys (doubleRound_within P.qKS positive) (doubleRound_within fmod (show 0 < P.qKS by omega)) small
    reduced modulusQ
  have residue := (near_of_modEq (phaseQ_modEq modulus ctExt)).scale (show (0 : ℚ) ≤ fmod / P.Q by positivity)
  rw [mul_div_cancel₀ (fmod : ℚ) pos.ne', zero_mul] at residue
  rw [mul_div_assoc] at moved
  have total := moved.trans residue
  rw [add_zero, Int.cast_natCast, ← mul_div_assoc] at total
  exact total

end Switches

section Generated
variable {p : RingGSWCryptoParams} [NeZero p.N] [NeZero p.q] {n qKS baseKS : ℕ} {w : NativeSize} {plat : Platform}

/-- The secrets that an accumulator reads right for the modulus `q`. DM keeps the modulus in an `int32_t`, and CGGI has
keys for ternary secrets. -/
def ReadsSecret (p : RingGSWCryptoParams) (sk : LWEPrivateKey n) : Prop :=
  match p.method with
  | .AP => sk.modulus < 2 ^ 31
  | .GINX => 2 < sk.modulus ∧ ∀ i, sk.signed i = 0 ∨ sk.signed i = 1 ∨ sk.signed i = -1
  | _ => False

/-- The moduli of a vector that the keys rotate by. Those of DM are for the modulus of the parameters. -/
def TurnsAt (p : RingGSWCryptoParams) (c : ℕ) : Prop := c = p.q ∨ p.method = .GINX ∧ c ∣ 2 * p.N

/-- Keys for an LWE secret: the gadget `2 ^ g`, ring secrets up to `S`, and errors up to `E` and `E'`. -/
structure MakesKeys (w : NativeSize) (plat : Platform) (p : RingGSWCryptoParams) (qKS baseKS : ℕ) (sk : LWEPrivateKey n)
    (draws : KeyGenDraws p n) (g : ℕ) (S E : ℝ) (E' : ℚ) : Prop where
  admissible : Admissible w p
  covers : Covers p g
  digits : p.q ≤ p.baseR ^ plat.digitCount p.q p.baseR
  switches : SwitchesKeys w qKS baseKS (plat.digitCount qKS baseKS) sk draws.skN draws.masksKS
  modulus : draws.skN.modulus = p.Q
  reads : ReadsSecret p sk
  secret_le : ∀ i, |(draws.skN.signed i : ℝ)| ≤ S
  dm_le : ∀ i j k l, Bounded E ((draws.dm i j k).errors l)
  cggi_le : ∀ negative i l, Bounded E ((draws.cggi negative i).errors l)
  errors_le : ∀ i digit j, |(centered qKS (draws.errorsKS i digit j) : ℚ)| ≤ E'

/-- What a rotation by DM or CGGI adds. -/
def rotationBound (plat : Platform) (p : RingGSWCryptoParams) (n g : ℕ) (S E : ℝ) : ℝ :=
  match p.method with
  | .AP => n * (plat.digitCount p.q p.baseR * productBound p g S E)
  | _ => n * (4 * productBound p g S E)

variable {sk : LWEPrivateKey n} {draws : KeyGenDraws p n} {g : ℕ} {S E : ℝ} {E' : ℚ}

namespace MakesKeys
variable (makes : MakesKeys w plat p qKS baseKS sk draws g S E E')
include makes

omit [NeZero p.N] [NeZero p.q] in
theorem skNPoly_bounded : Bounded S draws.skNPoly := by
  have := makes.covers.neZero
  exact LWEPrivateKey.poly_bounded makes.modulus makes.secret_le

omit [NeZero p.N] [NeZero p.q] in
theorem element_lt (i : Fin n) : sk.element i < sk.modulus := makes.switches.key.element_lt i

omit [NeZero p.q] in
/-- The rotation of `keyGen` is near that of the mask. -/
theorem evalAcc_near (nonneg : 0 ≤ E) {c : ℕ} (turns : TurnsAt p c) (acc : Acc p) (a : Fin n → ℕ) (ha : ∀ i, a i < c) :
    ∃ acc', draws.evalAcc w plat sk acc a c = some acc' ∧
      Bounded (rotationBound plat p n g S E) (acc'.phase draws.skNPoly - acc.phase draws.skNPoly *
        xpow (-((2 * p.N / c : ℕ) * ∑ i, (a i : ℤ) * sk.signed i))) := by
  have := makes.covers.neZero
  have reads := makes.reads
  unfold ReadsSecret at reads
  unfold KeyGenDraws.evalAcc rotationBound
  cases method : p.method with
  | AP =>
    rw [method] at reads
    obtain rfl : c = p.q := by
      rcases turns with same | ⟨other, -⟩
      · exact same
      · rw [method] at other
        cases other
    have known : ∀ i, ReadsDM p w sk.modulus (sk.element i) (plat.digitCount p.q p.baseR) p.q := fun i =>
      (readsDM_iff makes.admissible makes.admissible.divides reads (makes.element_lt i)).mpr (.inr (.inl rfl))
    exact ⟨_, rfl, keyGenAccDM_near makes.admissible makes.covers makes.skNPoly_bounded nonneg makes.admissible.divides _
      makes.digits known makes.dm_le acc ha⟩
  | GINX =>
    rw [method] at reads
    obtain ⟨large, ternary⟩ := reads
    have divides : c ∣ 2 * p.N := by
      rcases turns with rfl | ⟨-, divides⟩
      · exact makes.admissible.divides
      · exact divides
    have known : ∀ i, ReadsCGGI sk.modulus (sk.element i) c := by
      intro i
      rcases ternary i with zero | one
      · exact .inr (.inr ⟨by omega, (show centered sk.modulus (sk.element i) = 0 from zero) ▸ dvd_zero _⟩)
      · exact .inr (.inl ⟨large, one⟩)
    obtain ⟨acc', run, near⟩ := keyGenAccCGGI_near makes.admissible makes.covers makes.skNPoly_bounded divides makes.element_lt
      known makes.cggi_le acc ha
    exact ⟨acc', by rw [run]; rfl, near⟩
  | _ =>
    rw [method] at reads
    exact reads.elim

/-- With generated keys every part errs by what was drawn. -/
theorem nearlyFaithful (nonneg : 0 ≤ E) {δ : ℚ} (bound : switchBound p.q qKS (plat.digitCount qKS baseKS) sk draws.skN
      (1 / 2 + (qKS + 1) / 2 ^ 50) (1 / 2 + (p.q + 1) / 2 ^ 50) E' < δ) :
    NearlyFaithful (P := SingleKeyParams.ofRing p n qKS baseKS) w plat doubleRound p.toGadget
      (draws.keyGen w plat qKS baseKS sk) (rotationBound plat p n g S E) δ draws.skNPoly sk.signed where
  rotates := by
    refine ⟨_, rfl, fun acc a ha => ?_⟩
    obtain ⟨acc', run, near⟩ := makes.evalAcc_near nonneg (.inl rfl) acc a ha
    exact ⟨acc', (dif_pos ⟨rfl, rfl⟩).trans run, near⟩
  switches := fun ctExt reduced modulus => by
    have := makes.covers.neZero
    have stored : (draws.keyGen w plat qKS baseKS sk).KSkey = some (generatedKey w qKS baseKS sk draws.skN draws.masksKS
      draws.errorsKS) := rfl
    obtain ⟨ct, run, near⟩ := switch_near plat makes.modulus stored makes.switches makes.errors_le p.q reduced modulus
    exact ⟨ct, run, near.within bound⟩

end MakesKeys

end Generated

/-! ### From encryption to decryption -/

/-- A bit, and what `Encrypt` draws for it. -/
structure EncryptionDraw (n : ℕ) where
  bit : Bool
  e : ℕ
  a : Fin n → ℕ

section Circuits
variable {P : SingleKeyParams} {w : NativeSize} {sk : LWEPrivateKey P.n}

/-- The error of an encryption is the whole noise of the ciphertext. -/
theorem encrypt_encodes (sized : Sized w P) (key : sk.Generated w) (q_ok : ¬ modulusTooLarge w P.q) {e : ℕ} {a : Fin P.n → ℕ}
    (ha : ∀ i, a i < P.q) (small : |(centered P.q e : ℚ)| < P.q / 32) (m : Bool) :
    ∃ ct, LWE.encrypt w sk e a m.toNat 4 P.q = .ok ct ∧ Encodes 4 sk.signed ct m := by
  obtain ⟨r, hr, eq⟩ := sized.eighths
  have large := sized.large
  have word : P.q ∣ 2 ^ w.bits := (dvd_mul_left _ _).trans sized.two_mul_q_dvd
  obtain ⟨ct, made, reduced, modulus, four, phase⟩ := encrypt_phase key (show 2 ≤ P.q by omega) q_ok word ha e m.toNat 4
  refine ⟨ct, made, reduced, modulus, four, Within.of_modEq phase ⟨0, ?_⟩⟩
  have quarter : ((m.toNat % 4 * (P.q / 4) : ℕ) : ℚ) = m.toNat * P.q / 4 := by
    rw [show m.toNat % 4 = m.toNat by cases m <;> rfl, eq, show 8 * r / 4 = 2 * r by omega]
    push_cast
    ring
  rw [Int.cast_add, Int.cast_natCast, quarter, Int.cast_zero, Nat.cast_ofNat, zero_mul, sub_zero, add_sub_cancel_left]
  convert small using 1
  norm_num

/-- What a list of ciphertexts decrypts to. -/
theorem encodes_mapM_decrypt (sized : Sized w P) (key : sk.Generated w) (q_ok : ¬ modulusTooLarge w P.q)
    {wires : List (LWECiphertext P.n)} {bits : List Bool} (encoded : List.Forall₂ (Encodes 4 sk.signed) wires bits) :
    (wires.mapM fun ct => decrypt w sk ct 4) = .ok (bits.map Bool.toNat) := by
  induction encoded with
  | nil => rfl
  | cons head _ ih => rw [List.mapM_cons, encodes_decrypts sized key q_ok (.inl rfl) head, ih]; rfl

/-- Operations that keep bits encrypted compute on encrypted bits what they compute on bits. -/
theorem encrypted_circuit_decrypts {Op : Type} {apply : Op → List (ℕ × LWECiphertext P.n) → Except Fault (LWECiphertext P.n)}
    {value : Op → List Bool → Bool} (sized : Sized w P) (key : sk.Generated w) (q_ok : ¬ modulusTooLarge w P.q)
    {inputs : List (EncryptionDraw P.n)} (drawn : ∀ x ∈ inputs, (∀ i, x.a i < P.q) ∧ |(centered P.q x.e : ℚ)| < P.q / 32)
    {circuit : List (Node Op)} (order : Scoped inputs.length circuit)
    (respects : ∀ node ∈ circuit, ∀ xs ms, xs.map Prod.fst = node.reads →
      List.Forall₂ (fun x m => Encodes 4 sk.signed x.2 m) xs ms →
        ∃ ct, apply node.op xs = .ok ct ∧ Encodes 4 sk.signed ct (value node.op ms)) :
    ∃ cts wires, (inputs.mapM fun x => LWE.encrypt w sk x.e x.a x.bit.toNat 4 P.q) = .ok cts ∧
      evalM Fault.outOfRange apply cts circuit = .ok wires ∧
      (wires.mapM fun ct => decrypt w sk ct 4) = .ok ((eval value (inputs.map EncryptionDraw.bit) circuit).map Bool.toNat) := by
  obtain ⟨cts, encrypted, fresh⟩ := Run.mapM_ok (f := fun x : EncryptionDraw P.n => LWE.encrypt w sk x.e x.a x.bit.toNat 4 P.q)
    (fun x ct => Encodes 4 sk.signed ct x.bit) fun x member => encrypt_encodes sized key q_ok (drawn x member).1 (drawn x member).2 x.bit
  obtain ⟨wires, run, encoded⟩ := evalM_simulates Fault.outOfRange (List.forall₂_map_right_iff.mpr fresh.flip)
    ((List.length_map EncryptionDraw.bit).symm ▸ order) respects
  exact ⟨cts, wires, encrypted, run, encodes_mapM_decrypt sized key q_ok encoded⟩

end Circuits

section Whole
variable {p : RingGSWCryptoParams} [NeZero p.N] [NeZero p.q] {n qKS baseKS : ℕ} {w : NativeSize} {plat : Platform}
  {sk : LWEPrivateKey n} {draws : KeyGenDraws p n} {g : ℕ} {S E : ℝ} {E' : ℚ}

end Whole

/-! ### A ring of dimension 64 -/

def smallKey : LWEPrivateKey 1 := ⟨fun _ => 1, 32768⟩

/-- Every secret coefficient is one, and so is every error of the switching key. The errors of the other key are monomials. -/
def smallDraws : KeyGenDraws smallRing 1 where
  skN := ⟨fun _ => 1, 134215681⟩
  masksKS := fun i digit j _ => (i + digit * 32 + j) % 32768
  errorsKS := fun _ _ _ => 1
  dm := fun _ _ _ => ⟨fun _ _ => 1, fun l => xpow l⟩
  cggi := fun _ _ => ⟨fun _ _ => 1, fun l => xpow l⟩
  lmkcdey := fun _ => ⟨fun _ _ => 1, fun l => xpow l⟩
  auto := fun _ => ⟨fun _ => 1, fun l => xpow l⟩

theorem smallRing_sized : Sized .w64 (SingleKeyParams.ofRing smallRing 1 32768 32) where
  power := ⟨7, rfl⟩
  large := by decide
  divides := by decide
  narrow := by decide
  largeQ := by decide
  fits := by decide

theorem smallDraws_switches : SwitchesKeys .w64 32768 32 3 smallKey smallDraws.skN smallDraws.masksKS where
  two_le := by decide
  room := by decide
  other := by decide
  fits := .inr (.inl (by decide))
  cover := by decide
  key := ⟨fun _ => show 1 < 32768 by decide, by decide⟩
  ring := ⟨fun _ => show 1 < 134215681 by decide, by decide⟩
  masks_lt := fun i digit j _ => Nat.mod_lt _ (show 0 < 32768 by decide)

theorem smallDraws_signed (i : Fin smallRing.N) : smallDraws.skN.signed i = 1 := rfl

theorem smallDraws_makesKeys : MakesKeys .w64 .threeDigits smallRing 32768 32 smallKey smallDraws 7 1 1 1 where
  admissible := smallRing_admissible
  covers := smallRing_covers
  digits := by decide
  switches := smallDraws_switches
  modulus := rfl
  reads := ⟨by decide, fun _ => .inr (.inl rfl)⟩
  secret_le := fun i => by rw [smallDraws_signed]; simp
  dm_le := fun _ _ _ l => bounded_xpow l
  cggi_le := fun _ _ l => bounded_xpow l
  errors_le := fun _ _ _ => by
    rw [show centered 32768 (smallDraws.errorsKS _ _ _) = 1 from rfl]
    simp

theorem smallDraws_margin : rotationBound .threeDigits smallRing 1 7 1 1 * smallRing.q / smallRing.Q +
    switchBound smallRing.q 32768 3 smallKey smallDraws.skN (1 / 2 + ((32768 : ℕ) + 1) / 2 ^ 50)
      (1 / 2 + (smallRing.q + 1) / 2 ^ 50) 1 < smallRing.q / 64 := by
  have q : smallRing.q = 128 := rfl
  have Q : smallRing.Q = 134215681 := rfl
  have size : smallRing.N = 64 := rfl
  have rotation : rotationBound .threeDigits smallRing 1 7 1 1 = 4 * productBound smallRing 7 1 1 := by
    simp [rotationBound, smallRing]
  have ring : (1 + ∑ i, |smallDraws.skN.signed i| : ℤ) = 65 := by simp [smallDraws_signed, size]
  have key : (1 + ∑ i, |smallKey.signed i| : ℤ) = 2 := rfl
  rw [rotation, smallRing_productBound, switchBound, ring, key, q, Q, size]
  norm_num

end LWEGate
end MultiKeyFHE
