import MultiKeyFHE.Library.Netlist
import MultiKeyFHE.Library.Run
import MultiKeyFHE.Native.ModulusChange
import MultiKeyFHE.Rns.Levels

/-!
# Circuits over BGV

Keys, encryption and decryption of the BGV scheme with manual scaling, and the operations on ciphertexts as the nodes of a
circuit. A circuit whose sizes stay small enough decrypts to the circuit on the plaintexts.
-/

namespace MultiKeyFHE
open Negacyclic NegPoly NativeInteger NativeVector Residues DCRTPoly LeveledSHE Netlist

namespace DCRTPoly
variable {ι : Type*} {B : Basis ι} {N : ℕ}

/-- The constructors from a generator of small integers. A negative one is counted down from the modulus. -/
def ofDraws (format : Format) (k : NegPoly N ℤ) : DCRTPoly B N where
  format := format
  vectors i := ⟨format, ⟨fun j =>
    ((if k.coeff j < 0 then B.q i - (k.coeff j).natAbs else (k.coeff j).natAbs : ℕ) : ZMod (B.q i))⟩⟩

/-- The constructor from a generator of uniform words, which draws each tower. -/
def ofTowers (format : Format) (towers : (i : ι) → NativePoly N (B.q i)) : DCRTPoly B N := ⟨format, fun i => ⟨format, towers i⟩⟩

/-- `Times` with a word. -/
def timesWord (element : ℕ) (a : DCRTPoly B N) : DCRTPoly B N := { a with vectors := fun i => (a.vectors i).timesEq element }

variable [NeZero N] {a : DCRTPoly B N} {X : NegPoly N ℤ}

theorem represents_ofDraws {format : Format} {k : NegPoly N ℤ} (small : ∀ i j, (k.coeff j).natAbs ≤ B.q i) :
    (ofDraws format k : DCRTPoly B N).Represents k := by
  intro i
  ext j
  rw [coeff_residue]
  change ((if k.coeff j < 0 then _ else _ : ℕ) : ZMod (B.q i)) = _
  have fits := small i j
  split
  · rename_i negative
    rw [Nat.cast_sub fits, ZMod.natCast_self, zero_sub, ← Int.cast_natCast, ← Int.cast_neg]
    congr 1
    omega
  · rw [← Int.cast_natCast]
    congr 1
    omega

theorem holds_ofDraws {k : NegPoly N ℤ} (small : ∀ i j, (k.coeff j).natAbs ≤ B.q i) :
    (ofDraws .evaluation k : DCRTPoly B N).Holds k :=
  ⟨rfl, fun _ => rfl, represents_ofDraws small⟩

theorem Holds.timesWord (ha : a.Holds X) (element : ℕ) : (a.timesWord element).Holds (const (element : ℤ) * X) := by
  refine ⟨ha.format, ha.consistent, fun i => ?_⟩
  ext j
  rw [coeff_residue, coeff_const_mul]
  change element * (a.vectors i).poly.coeff j = _
  rw [ha.represents i, coeff_residue]
  push_cast
  rfl

theorem Holds.plus {b : DCRTPoly B N} {Y : NegPoly N ℤ} (ha : a.Holds X) (hb : b.Holds Y) :
    ∃ c, a.plus b = .ok c ∧ c.Holds (X + Y) := by
  obtain ⟨c, sum, format, consistent, represents⟩ :=
    plus_represents (ha.format.trans hb.format.symm) ha.consistent ha.represents hb.represents
  exact ⟨c, sum, format.trans ha.format, consistent, represents⟩

theorem Holds.minus {b : DCRTPoly B N} {Y : NegPoly N ℤ} (ha : a.Holds X) (hb : b.Holds Y) : (a.minus b).Holds (X - Y) :=
  ⟨ha.format, ha.consistent, minus_represents ha.represents hb.represents⟩

theorem holds_ofTowers [Fintype ι] [DecidableEq ι] (towers : (i : ι) → NativePoly N (B.q i)) :
    (ofTowers .evaluation towers).Holds (ofTowers .evaluation towers).crtInterpolate.numbers :=
  ⟨rfl, fun _ => rfl, represents_crtInterpolate _⟩

end DCRTPoly

/-- `DecryptionCRTInterpolate` of a tower. -/
def Tower.decryptionCRTInterpolate (w : NativeSize) {N Q : ℕ} (ptm : ℕ) (a : Tower N Q) : Except Fault (Tower N ptm) := do
  let smaller ← WordVector.mod w ⟨List.ofFn fun i => (a.poly.coeff i).val, Q⟩ ptm
  return ⟨a.format, ⟨fun i => (smaller.values.getD i 0 : ZMod ptm)⟩⟩

theorem mod_entry {w : NativeSize} {Q ptm : ℕ} (two_le : 2 ≤ ptm) (fits : ¬ modulusTooLarge w Q)
    (fits' : ¬ modulusTooLarge w ptm) (odd : ptm = 2 → Q % 2 = 1) (values : List ℕ) (below : ∀ v ∈ values, v < Q) :
    ∃ f : ℕ → ℕ, WordVector.mod w ⟨values, Q⟩ ptm = .ok ⟨values.map f, Q⟩ ∧
      ∀ v ∈ values, (f v : ℤ) ≡ centered Q v [ZMOD ptm] := by
  have room := lt_of_not_tooLarge fits
  have room' := lt_of_not_tooLarge fits'
  by_cases two : ptm = 2
  · subst two
    refine ⟨WordVector.bitOfEntry Q, if_pos rfl, fun v _ => ?_⟩
    rw [WordVector.bitOfEntry_eq_iff.mpr (.inl (odd rfl))]
    exact residue_modEq (by omega) _
  · refine ⟨NativeVector.switchModulus w Q ptm, ?_, fun v member => switchModulus_cast (below v member) (by omega) (by omega)⟩
    rw [WordVector.mod, if_neg two, if_neg (by omega)]

section Interpolation
variable {w : NativeSize} {N Q ptm : ℕ} [NeZero N] [NeZero Q] {a : Tower N Q} {Y : NegPoly N ℤ}

/-- A small polynomial is what its tower carries. -/
theorem carried_eq (represents : a.poly = residue Q Y) (small : ∀ j, 2 * |Y.coeff j| < Q) : carried a = Y := by
  ext j
  have same := residue_eq_iff.mp ((residue_carried a).trans represents) j
  have bound := two_mul_carried_le a j
  have near := abs_sub (Y.coeff j) ((carried a).coeff j)
  have less := small j
  have zero := Int.eq_zero_of_abs_lt_dvd (Int.modEq_iff_dvd.mp same) (by omega)
  omega

/-- A small polynomial is reduced modulo the plaintext modulus. -/
theorem Tower.decryptionCRTInterpolate_eq (two_le : 2 ≤ ptm) (fits : ¬ modulusTooLarge w Q) (fits' : ¬ modulusTooLarge w ptm)
    (odd : ptm = 2 → Q % 2 = 1) (represents : a.poly = residue Q Y) (small : ∀ j, 2 * |Y.coeff j| < Q) :
    ∃ p, a.decryptionCRTInterpolate w ptm = .ok p ∧ p.poly = residue ptm Y := by
  have below : ∀ v ∈ List.ofFn fun i => (a.poly.coeff i).val, v < Q := by
    intro v member
    obtain ⟨i, rfl⟩ := List.mem_ofFn.mp member
    exact ZMod.val_lt _
  obtain ⟨f, run, entries⟩ := mod_entry two_le fits fits' odd _ below
  refine ⟨_, by rw [decryptionCRTInterpolate, run]; rfl, ?_⟩
  ext j
  have entry := entries _ (List.mem_ofFn.mpr ⟨j, rfl⟩)
  have value : centered Q (a.poly.coeff j).val = Y.coeff j := congrArg (fun p => p.coeff j) (carried_eq represents small)
  rw [value] at entry
  rw [coeff_residue, ← (ZMod.intCast_eq_intCast_iff _ _ _).mpr entry, Int.cast_natCast]
  change ((((List.ofFn fun i => (a.poly.coeff i).val).map f).getD j 0 : ℕ) : ZMod ptm) = _
  simp

end Interpolation

/-! ### Keys, encryption and decryption -/

namespace PKEBGVRNS
variable {L N : ℕ} {K : Basis (Fin L)}

/-- All towers. -/
abbrev Whole (K : Basis (Fin L)) (N : ℕ) : Type := DCRTPoly (K.take L le_rfl) N

structure PublicKey (K : Basis (Fin L)) (N : ℕ) where
  p0 : Whole K N
  p1 : Whole K N

/-- The public key of `KeyGenInternal`. -/
def keyGenInternal (ns : ℕ) (s a e : Whole K N) : Except Fault (PublicKey K N) := do
  let b := (e.timesWord ns).minus (← a.times s)
  return ⟨b, a⟩

/-- `p * v + ns * e`. -/
def masked {ι : Type*} {B : Basis ι} (ns : ℕ) (p v e : DCRTPoly B N) : Except Fault (DCRTPoly B N) := do
  (← p.times v).plus (e.timesWord ns)

/-- `EncryptZeroCore` with a public key. -/
def encryptZeroCore {n : ℕ} (h : n ≤ L) (ns : ℕ) (pk : PublicKey K N) (v e0 e1 : DCRTPoly (K.take n h) N) :
    Except Fault (DCRTPoly (K.take n h) N × DCRTPoly (K.take n h) N) := do
  let p0 := pk.p0.dropTo n h
  let p1 := pk.p1.dropTo n h
  let c0 ← masked ns p0 v e0
  let c1 ← masked ns p1 v e1
  return (c0, c1)

/-- `Encrypt`. The towers of the plaintext are those of the ciphertext. -/
def encrypt {n : ℕ} (positive : 0 < n) (h : n ≤ L) (ns : ℕ) (pk : PublicKey K N) (plaintext v e0 e1 : DCRTPoly (K.take n h) N) :
    Except Fault (Ciphertext K N) := do
  let (c0, c1) ← encryptZeroCore h ns pk v e0 e1
  return ⟨n, positive, h, [c0.plusEq (plaintext.setFormat .evaluation), c1], 1⟩

/-- What `Decrypt` interpolates. The format of the first element decides what is done first. -/
def decryptTowers (w : NativeSize) (t : ℕ) (s : Whole K N) (c : Ciphertext K N) :
    Except Fault (DCRTPoly (K.take 1 (c.positive.trans_le c.inside)) N) := do
  have whole : 1 + (c.towers - 1) ≤ c.towers := (Nat.add_sub_cancel' c.positive).le
  match c.elements with
  | [] => .error .outOfRange
  | c0 :: _ =>
    if c0.format = .evaluation then do
      let b ← decryptCore (s.dropTo c.towers c.inside) c.elements
      modReduceLevels w t 1 (c.towers - 1) (h := whole.trans c.inside) ((b.setFormat .coefficient).dropTo _ whole)
    else do
      let ct ← (c.elementsAt _ whole).mapM (modReduceLevels w t 1 (c.towers - 1))
      let b ← decryptCore (s.dropTo 1 (c.positive.trans_le c.inside)) ct
      return b.setFormat .coefficient

/-- `Decrypt`, with the scaling factor. -/
def decrypt (w : NativeSize) (t : ℕ) (s : Whole K N) (c : Ciphertext K N) : Except Fault (Tower N t × ℕ) := do
  let b ← decryptTowers w t s c
  let plaintext ← (b.vectors 0).decryptionCRTInterpolate w t
  return (plaintext, c.scalingFactorInt)

/-! ### What is encrypted and decrypted -/

section Correctness
variable [NeZero N] {t n : ℕ} {S A E V0 E0 E1 : NegPoly N ℤ}

/-- The public key stands for an encryption of zero. -/
structure KeyOf (t : ℕ) (S A E : NegPoly N ℤ) (pk : PublicKey K N) : Prop where
  p0 : pk.p0.Holds (const (t : ℤ) * E - A * S)
  p1 : pk.p1.Holds A

theorem keyGenInternal_keyOf {s a e : Whole K N} (hs : s.Holds S) (ha : a.Holds A) (he : e.Holds E) :
    ∃ pk, keyGenInternal t s a e = .ok pk ∧ KeyOf t S A E pk := by
  obtain ⟨mask, product, holds⟩ := ha.times hs
  exact ⟨_, by rw [keyGenInternal, product]; rfl, (he.timesWord t).minus holds, ha⟩

theorem masked_holds {ι : Type*} {B : Basis ι} {P V0 E0 : NegPoly N ℤ} {p v e : DCRTPoly B N} (hp : p.Holds P) (hv : v.Holds V0)
    (he : e.Holds E0) : ∃ c, masked t p v e = .ok c ∧ c.Holds (P * V0 + const (t : ℤ) * E0) := by
  obtain ⟨m, product, holds⟩ := hp.times hv
  obtain ⟨c, sum, result⟩ := holds.plus (he.timesWord t)
  exact ⟨c, by rw [masked, product]; exact sum, result⟩

theorem encryptZeroCore_holds {h : n ≤ L} {pk : PublicKey K N} {v e0 e1 : DCRTPoly (K.take n h) N} (key : KeyOf t S A E pk)
    (hv : v.Holds V0) (h0 : e0.Holds E0) (h1 : e1.Holds E1) :
    ∃ c0 c1, encryptZeroCore h t pk v e0 e1 = .ok (c0, c1) ∧ c0.Holds ((const (t : ℤ) * E - A * S) * V0 + const (t : ℤ) * E0) ∧
      c1.Holds (A * V0 + const (t : ℤ) * E1) := by
  obtain ⟨c0, first, holds⟩ := masked_holds (key.p0.dropTo h) hv h0
  obtain ⟨c1, second, holds'⟩ := masked_holds (key.p1.dropTo h) hv h1
  exact ⟨c0, c1, by rw [encryptZeroCore, first, second]; rfl, holds, holds'⟩

end Correctness

/-- The largest coefficients of the secret key, the errors, the ephemeral keys and the encoded plaintexts. -/
structure Sizes where
  key : ℚ
  error : ℚ
  ephemeral : ℚ
  plaintext : ℚ

/-- The estimate of a fresh ciphertext. -/
def Sizes.fresh (σ : Sizes) (N t towers : ℕ) : Ciphertext.Estimate :=
  ⟨towers, 2, σ.plaintext + t * (N * (σ.error * σ.ephemeral) + σ.error + N * (σ.key * σ.error))⟩

/-- The generators draw no number larger than a modulus. -/
def Sizes.Below (σ : Sizes) (K : Basis (Fin L)) : Prop := ∀ i, σ.key ≤ K.q i ∧ σ.error ≤ K.q i ∧ σ.ephemeral ≤ K.q i

instance (σ : Sizes) : Decidable (σ.Below K) := inferInstanceAs (Decidable (∀ _, _))

/-- What `KeyGenInternal` draws. -/
structure KeyDraws (K : Basis (Fin L)) (N : ℕ) (σ : Sizes) where
  s : NegPoly N ℤ
  a : (i : Fin L) → NativePoly N ((K.take L le_rfl).q i)
  e : NegPoly N ℤ
  key : Within σ.key s
  error : Within σ.error e

/-- A plaintext and what `EncryptZeroCore` draws for it. -/
structure Input (K : Basis (Fin L)) (N : ℕ) [NeZero N] (σ : Sizes) where
  towers : ℕ
  positive : 0 < towers
  inside : towers ≤ L
  plaintext : DCRTPoly (K.take towers inside) N
  encoded : NegPoly N ℤ
  v : NegPoly N ℤ
  e0 : NegPoly N ℤ
  e1 : NegPoly N ℤ
  consistent : plaintext.Consistent
  represents : plaintext.Represents encoded
  small : Within σ.plaintext encoded
  ephemeral : Within σ.ephemeral v
  error0 : Within σ.error e0
  error1 : Within σ.error e1

section Draws
variable {σ : Sizes}

namespace KeyDraws

def secretKey (draws : KeyDraws K N σ) : Whole K N := ofDraws .evaluation draws.s

def publicKey (draws : KeyDraws K N σ) (ns : ℕ) : Except Fault (PublicKey K N) :=
  keyGenInternal ns draws.secretKey (ofTowers .evaluation draws.a) (ofDraws .evaluation draws.e)

end KeyDraws

variable [NeZero N] {t : ℕ}

namespace Input

def encrypt (ns : ℕ) (pk : PublicKey K N) (input : Input K N σ) : Except Fault (Ciphertext K N) :=
  PKEBGVRNS.encrypt input.positive input.inside ns pk input.plaintext (ofDraws .evaluation input.v) (ofDraws .evaluation input.e0)
    (ofDraws .evaluation input.e1)

/-- The message modulo `t`. -/
def message (t : ℕ) (input : Input K N σ) : NativePoly N t := residue t input.encoded

end Input

theorem holds_draws {δ : ℚ} {n : ℕ} {h : n ≤ L} {a : NegPoly N ℤ} (small : Within δ a) (below : ∀ i, δ ≤ K.q i) :
    (ofDraws .evaluation a : DCRTPoly (K.take n h) N).Holds a :=
  holds_ofDraws fun _ => small.natAbs_le (below _)

variable (below : σ.Below K)
include below

theorem KeyDraws.secretKey_holds (draws : KeyDraws K N σ) : draws.secretKey.Holds draws.s :=
  holds_draws draws.key fun i => (below i).1

theorem KeyDraws.publicKey_keyOf (draws : KeyDraws K N σ) :
    ∃ pk A, draws.publicKey t = .ok pk ∧ KeyOf t draws.s A draws.e pk := by
  obtain ⟨pk, run, key⟩ := keyGenInternal_keyOf (t := t) (draws.secretKey_holds below) (holds_ofTowers draws.a)
    (holds_draws draws.error fun i => (below i).2.1)
  exact ⟨pk, _, run, key⟩

theorem Input.encrypt_tracks {S A E : NegPoly N ℤ} {pk : PublicKey K N} (key : KeyOf t S A E pk) (secret : Within σ.key S)
    (error : Within σ.error E) (input : Input K N σ) :
    ∃ c, input.encrypt t pk = .ok c ∧ c.Tracks S (input.message t) (σ.fresh N t input.towers) := by
  have errors := fun i => (below i).2.1
  obtain ⟨c0, c1, zero, holds0, holds1⟩ := encryptZeroCore_holds key
    (holds_draws (h := input.inside) input.ephemeral fun i => (below i).2.2) (holds_draws input.error0 errors)
    (holds_draws input.error1 errors)
  obtain ⟨format, consistent⟩ := consistent_setFormat input.consistent .evaluation
  have plain : (input.plaintext.setFormat .evaluation).Holds input.encoded :=
    ⟨format, consistent, represents_setFormat input.represents _⟩
  refine ⟨_, by rw [encrypt, PKEBGVRNS.encrypt, zero]; rfl, ?_⟩
  have value : Horner.value S [(const (t : ℤ) * E - A * S) * input.v + const (t : ℤ) * input.e0 + input.encoded,
      A * input.v + const (t : ℤ) * input.e1] = input.encoded + const (t : ℤ) * (E * input.v + input.e0 + S * input.e1) := by
    simp only [Horner.value_cons, Horner.value_nil]
    ring
  refine ⟨rfl, rfl, Nat.two_pos, rfl, _, ⟨_, .cons (holds0.plusEq plain) (.cons holds1 .nil), value⟩, ?_, ?_⟩
  · refine residue_eq_iff.mpr fun j => ?_
    rw [coeff_add, coeff_const_mul]
    exact Int.modEq_iff_dvd.mpr ⟨-(E * input.v + input.e0 + S * input.e1).coeff j, by ring⟩
  · exact input.small.add (((error.mul input.ephemeral).add input.error0).add (secret.mul input.error1)).const_mul

end Draws

section Decryption
variable [NeZero N] [NeZero L] {w : NativeSize} {t : ℕ}

/-- The size is small enough for the one tower that is left. -/
def Decrypts (K : Basis (Fin L)) (t : ℕ) (e : Ciphertext.Estimate) : Prop :=
  2 * (e.size + t * (K.dropped 1 e.towers - 1)) < K.q 0 * K.dropped 1 e.towers

instance (e : Ciphertext.Estimate) : Decidable (Decrypts K t e) := inferInstanceAs (Decidable (_ < _))

/-- A division leaves less than half of the first modulus. -/
theorem half_of_decrypts {e : Ciphertext.Estimate} {V Y : NegPoly N ℤ} (decrypts : Decrypts K t e) (small : Within e.size V)
    (scaled : ∀ j, Scaled t (K.dropped 1 e.towers) (V.coeff j) (Y.coeff j)) (j : Fin N) : 2 * |Y.coeff j| < K.q 0 := by
  have positive : (0 : ℚ) < K.dropped 1 e.towers := by exact_mod_cast K.dropped_pos 1 e.towers
  have near := (divides_of_scaled scaled).within (K.dropped_pos 1 e.towers) small j
  rw [le_div_iff₀ positive] at near
  have less : 2 * |(Y.coeff j : ℚ)| * K.dropped 1 e.towers < K.q 0 * K.dropped 1 e.towers := by
    rw [mul_assoc]
    exact (mul_le_mul_of_nonneg_left near zero_le_two).trans_lt decrypts
  exact_mod_cast lt_of_mul_lt_mul_right less positive.le

omit [NeZero L] in
theorem decryptTowers_eq (chain : Chain w K t) {S : NegPoly N ℤ} {s : Whole K N} (key : s.Holds S) {c : Ciphertext K N}
    {m : NativePoly N t} {e : Ciphertext.Estimate} (tracks : c.Tracks S m e) :
    ∃ b V Y, decryptTowers w t s c = .ok b ∧ b.Represents Y ∧ residue t V = m ∧ Within e.size V ∧
      ∀ j, Scaled t (K.dropped 1 e.towers) (V.coeff j) (Y.coeff j) := by
  obtain ⟨V, encrypts, value, within⟩ := tracks.value
  have whole : 1 + (c.towers - 1) = c.towers := Nat.add_sub_cancel' c.positive
  obtain ⟨b, core, holds⟩ := decryptCore_holds (key.dropTo c.inside) tracks.ne_nil encrypts
  obtain ⟨format, consistent⟩ := consistent_setFormat holds.consistent .coefficient
  obtain ⟨d, Y, run, -, -, represents, scaled⟩ := modReduceLevels_spec chain one_pos (c.towers - 1) (h := whole.le.trans c.inside)
    (a := (b.setFormat .coefficient).dropTo _ whole.le) (fun i => consistent (Fin.castLE whole.le i))
    (fun i => represents_setFormat holds.represents .coefficient (Fin.castLE whole.le i))
  refine ⟨d, V, Y, ?_, represents, value, within, ?_⟩
  · obtain ⟨W, elements, -⟩ := encrypts
    rw [decryptTowers]
    cases found : c.elements with
    | nil => exact absurd found tracks.ne_nil
    | cons c0 rest =>
      rw [found] at elements core
      cases elements with
      | cons first _ =>
        dsimp only
        rw [if_pos first.format, core]
        exact run
  · rw [← tracks.towers, ← whole]
    exact scaled

theorem decrypt_eq (chain : Chain w K t) {S : NegPoly N ℤ} {s : Whole K N} (key : s.Holds S) {c : Ciphertext K N}
    {m : NativePoly N t} {e : Ciphertext.Estimate} (tracks : c.Tracks S m e) (decrypts : Decrypts K t e) :
    ∃ p, decrypt w t s c = .ok (p, 1) ∧ p.poly = m := by
  obtain ⟨b, V, Y, towers, represents, value, within, scaled⟩ := decryptTowers_eq chain key tracks
  have odd : t = 2 → K.q (Fin.castLE (c.positive.trans_le c.inside) 0) % 2 = 1 := by
    rintro rfl
    exact chain.one _
  have first : Fin.castLE (c.positive.trans_le c.inside) 0 = (0 : Fin L) := Fin.ext (by simp)
  have half := half_of_decrypts decrypts within scaled
  rw [← first] at half
  obtain ⟨p, interpolated, poly⟩ :=
    Tower.decryptionCRTInterpolate_eq chain.two_le (chain.fits _) chain.small odd (represents 0) half
  have factor := tracks.factor
  refine ⟨p, ?_, poly.trans ?_⟩
  · rw [decrypt, towers]
    refine (congrArg (· >>= fun plaintext => pure (plaintext, c.scalingFactorInt)) interpolated).trans ?_
    exact congrArg (fun factor => Except.ok (p, factor)) factor
  · rw [← value]
    exact (divides_of_scaled scaled).residue_eq (K.dropped_modEq_one chain.one 1 e.towers)

end Decryption

end PKEBGVRNS

/-! ### Circuits -/

namespace LeveledSHE

/-- A call on ciphertexts. The products are those without a key to relinearise. -/
inductive Operation where
  | add
  | sub
  | mult
  | square
  | modReduce (levels : ℕ)
  | levelReduce (levels : ℕ)
  deriving DecidableEq, Repr

namespace Operation
variable {L N : ℕ} {K : Basis (Fin L)} {w : NativeSize} {t : ℕ}

def run (w : NativeSize) (t : ℕ) : Operation → List (ℕ × Ciphertext K N) → Except Fault (Ciphertext K N)
  | add, [(_, c1), (_, c2)] => .ok (c1.evalAdd c2)
  | sub, [(_, c1), (_, c2)] => .ok (c1.evalSub c2)
  | mult, [(_, c1), (_, c2)] => c1.evalMult w t c2
  | square, [(_, c)] => c.evalSquare w t
  | modReduce levels, [(_, c)] => c.modReduce w t levels
  | levelReduce levels, [(_, c)] => c.levelReduce levels
  | _, _ => .error .outOfRange

/-- What an operation does to messages. -/
def value {R : Type*} [Zero R] [Add R] [Sub R] [Mul R] : Operation → List R → R
  | add, [x, y] => x + y
  | sub, [x, y] => x - y
  | mult, [x, y] => x * y
  | square, [x] => x * x
  | modReduce _, [x] | levelReduce _, [x] => x
  | _, _ => 0

/-- What an operation does to sizes, for a key of this weight. -/
def estimate (K : Basis (Fin L)) (N t : ℕ) (weight : ℚ) : Operation → List Ciphertext.Estimate → Ciphertext.Estimate
  | add, [e1, e2] | sub, [e1, e2] => ⟨min e1.towers e2.towers, max e1.length e2.length, e1.size + e2.size⟩
  | mult, [e1, e2] => ⟨min e1.towers e2.towers, e1.length + e2.length - 1, N * (e1.size * e2.size)⟩
  | square, [e] => ⟨e.towers, 2 * e.length - 1, N * (e.size * e.size)⟩
  | modReduce levels, [e] => ⟨e.towers - levels, e.length,
      (e.size + (∑ k ∈ Finset.range e.length, weight ^ k) * (t * (K.dropped (e.towers - levels) e.towers - 1))) /
        K.dropped (e.towers - levels) e.towers⟩
  | levelReduce levels, [e] => ⟨e.towers - levels, e.length, e.size⟩
  | _, _ => default

/-- The operation gets as many ciphertexts as it takes, and leaves a tower. -/
def Fits : Operation → List Ciphertext.Estimate → Prop
  | add, [_, _] | sub, [_, _] | mult, [_, _] | square, [_] => True
  | modReduce levels, [e] | levelReduce levels, [e] => levels < e.towers
  | _, _ => False

variable [NeZero N] {S : NegPoly N ℤ}

/-- A message with the estimate of its ciphertext. -/
def track (K : Basis (Fin L)) (N t : ℕ) (weight : ℚ) (op : Operation) (ms : List (NativePoly N t × Ciphertext.Estimate)) :
    NativePoly N t × Ciphertext.Estimate := (op.value (ms.map Prod.fst), op.estimate K N t weight (ms.map Prod.snd))

theorem run_tracks (chain : Chain w K t) {ω : ℚ} (heavy : weight S ≤ ω) {op : Operation} {xs : List (ℕ × Ciphertext K N)}
    {ms : List (NativePoly N t × Ciphertext.Estimate)} (fits : op.Fits (ms.map Prod.snd))
    (all : List.Forall₂ (fun x m => x.2.Tracks S m.1 m.2) xs ms) :
    ∃ z, op.run w t xs = .ok z ∧ z.Tracks S (op.track K N t ω ms).1 (op.track K N t ω ms).2 := by
  cases all with
  | nil => cases op <;> exact fits.elim
  | @cons x m xs ms first all =>
    cases all with
    | nil =>
      cases op with
      | add | sub | mult => exact fits.elim
      | square => exact Ciphertext.evalSquare_tracks chain.two_le chain.small first
      | modReduce levels => exact Ciphertext.modReduce_tracks chain heavy fits first
      | levelReduce levels => exact Ciphertext.levelReduce_tracks fits first
    | @cons x' m' xs ms second all =>
      cases all with
      | cons => cases op <;> exact fits.elim
      | nil =>
        cases op with
        | add => exact ⟨_, rfl, Ciphertext.evalAdd_tracks first second⟩
        | sub => exact ⟨_, rfl, Ciphertext.evalSub_tracks first second⟩
        | mult => exact Ciphertext.evalMult_tracks chain.two_le chain.small first second
        | square | modReduce | levelReduce => exact fits.elim

end Operation
end LeveledSHE

namespace PKEBGVRNS
variable {L N : ℕ} {K : Basis (Fin L)} {w : NativeSize} {t : ℕ} {σ : Sizes} [NeZero N]

instance : Inhabited (NativePoly N t) := ⟨0⟩

variable [NeZero L]

/-- The wires exist, the operations fit, and the size on every wire is small enough to decrypt. The inputs have these towers. -/
structure Runs (K : Basis (Fin L)) (N t : ℕ) (σ : Sizes) (towers : List ℕ) (nodes : List (Node LeveledSHE.Operation)) : Prop where
  order : Scoped towers.length nodes
  fits : Along (LeveledSHE.Operation.estimate K N t (N * σ.key)) (fun node => node.op.Fits) (towers.map (σ.fresh N t)) nodes
  small : ∀ e ∈ eval (LeveledSHE.Operation.estimate K N t (N * σ.key)) (towers.map (σ.fresh N t)) nodes, Decrypts K t e

theorem mapM_decrypt (chain : Chain w K t) {S : NegPoly N ℤ} {s : Whole K N} (key : s.Holds S) {cts : List (Ciphertext K N)}
    {ms : List (NativePoly N t × Ciphertext.Estimate)} (tracks : List.Forall₂ (fun c m => c.Tracks S m.1 m.2) cts ms)
    (small : ∀ e ∈ ms.map Prod.snd, Decrypts K t e) :
    ∃ plaintexts, cts.mapM (decrypt w t s) = .ok plaintexts ∧
      plaintexts.map (fun p => (p.1.poly, p.2)) = ms.map fun m => (m.1, 1) := by
  induction tracks with
  | nil => exact ⟨[], rfl, rfl⟩
  | @cons c m cts ms first _ ih =>
    obtain ⟨p, once, poly⟩ := decrypt_eq chain key first (small _ List.mem_cons_self)
    obtain ⟨plaintexts, run, values⟩ := ih fun e member => small e (List.mem_cons_of_mem _ member)
    refine ⟨(p, 1) :: plaintexts, ?_, ?_⟩
    · rw [List.mapM_cons, once, run]
      rfl
    · rw [List.map_cons, List.map_cons, values, poly]

/-- What a circuit computes from encrypted messages decrypts to what it computes from the messages, without a scaling factor. -/
theorem circuits_decrypt (chain : Chain w K t) (below : σ.Below K) (draws : KeyDraws K N σ) (inputs : List (Input K N σ))
    {nodes : List (Node LeveledSHE.Operation)} (runs : Runs K N t σ (inputs.map Input.towers) nodes) :
    ∃ pk cts final plaintexts, draws.publicKey t = .ok pk ∧ inputs.mapM (Input.encrypt t pk) = .ok cts ∧
      evalM .outOfRange (LeveledSHE.Operation.run w t) cts nodes = .ok final ∧
      final.mapM (decrypt w t draws.secretKey) = .ok plaintexts ∧
      plaintexts.map (fun p => (p.1.poly, p.2)) =
        (eval LeveledSHE.Operation.value (inputs.map (Input.message t)) nodes).map fun m => (m, 1) := by
  obtain ⟨pk, A, generated, key⟩ := draws.publicKey_keyOf (t := t) below
  obtain ⟨cts, encrypted, fresh⟩ := Run.mapM_ok
    (fun input c => Ciphertext.Tracks draws.s c (Input.message t input) (σ.fresh N t input.towers))
    fun input (_ : input ∈ inputs) => input.encrypt_tracks below key draws.key draws.error
  have related : List.Forall₂ (fun c m => c.Tracks draws.s m.1 m.2) cts
      (inputs.map fun input => (input.message t, σ.fresh N t input.towers)) :=
    List.forall₂_map_right_iff.mpr fresh.flip
  set means := inputs.map fun input => (input.message t, σ.fresh N t input.towers) with hmeans
  have sizes : means.map Prod.snd = (inputs.map Input.towers).map (σ.fresh N t) := by
    rw [hmeans, List.map_map, List.map_map]
    rfl
  have messages : means.map Prod.fst = inputs.map (Input.message t) := List.map_map
  have estimates : ∀ op ms, (LeveledSHE.Operation.track K N t (N * σ.key) op ms).2 =
      op.estimate K N t (N * σ.key) (ms.map Prod.snd) := fun _ _ => rfl
  have values : ∀ op ms, (LeveledSHE.Operation.track K N t (N * σ.key) op ms).1 = op.value (ms.map Prod.fst) := fun _ _ => rfl
  have fits := along_of_map (g := Prod.snd) estimates rfl (fun node => node.op.Fits) (sizes ▸ runs.fits)
  obtain ⟨final, run, tracks⟩ := evalM_simulates_along .outOfRange related (by simpa [hmeans] using runs.order) fits
    fun node xs ms fits _ all => LeveledSHE.Operation.run_tracks chain draws.key.weight_le fits all
  have small := runs.small
  rw [← sizes, ← map_eval estimates rfl] at small
  obtain ⟨plaintexts, decrypted, polys⟩ := mapM_decrypt chain (draws.secretKey_holds below) tracks small
  refine ⟨pk, cts, final, plaintexts, generated, encrypted, run, decrypted, ?_⟩
  rw [polys, ← messages, ← map_eval values rfl, List.map_map]
  rfl

end PKEBGVRNS

/-- Two odd moduli. -/
def shortChain : Basis (Fin 2) where
  q := ![97, 193]
  two_le := by decide
  coprime i j other := by fin_cases i <;> fin_cases j <;> first | exact absurd rfl other | decide

/-- Plaintexts of bits, a ternary key and errors of one. -/
def unitSizes : PKEBGVRNS.Sizes := ⟨1, 1, 1, 1⟩

def shortKey : PKEBGVRNS.KeyDraws shortChain 2 unitSizes where
  s := ⟨![1, -1]⟩
  a i := ⟨![30 + i.val, 71]⟩
  e := ⟨![-1, 1]⟩
  key := by decide
  error := by decide

theorem natAbs_bit {encoded : Fin 2 → ℤ} (bits : ∀ j, encoded j = 0 ∨ encoded j = 1) (j : Fin 2) : (encoded j).natAbs ≤ 1 := by
  rcases bits j with zero | one
  · simp [zero]
  · simp [one]

theorem bits_within {encoded : Fin 2 → ℤ} (bits : ∀ j, encoded j = 0 ∨ encoded j = 1) : Within 1 (⟨encoded⟩ : NegPoly 2 ℤ) := by
  intro j
  rcases bits j with zero | one
  · simp [zero]
  · simp [one]

def bitInput (encoded : Fin 2 → ℤ) (bits : ∀ j, encoded j = 0 ∨ encoded j = 1) : PKEBGVRNS.Input shortChain 2 unitSizes where
  towers := 2
  positive := Nat.two_pos
  inside := le_rfl
  plaintext := DCRTPoly.ofDraws .coefficient ⟨encoded⟩
  encoded := ⟨encoded⟩
  v := ⟨![0, -1]⟩
  e0 := ⟨![1, 1]⟩
  e1 := ⟨![-1, 0]⟩
  consistent _ := rfl
  represents := DCRTPoly.represents_ofDraws fun i j => (natAbs_bit bits j).trans (one_le_two.trans (shortChain.two_le _))
  small := bits_within bits
  ephemeral := by decide
  error0 := by decide
  error1 := by decide

theorem shortChain_decrypts : ∃ pk cts final plaintexts, shortKey.publicKey 2 = .ok pk ∧
    [bitInput ![1, 0] (by decide), bitInput ![0, 1] (by decide), bitInput ![1, 1] (by decide)].mapM
      (PKEBGVRNS.Input.encrypt 2 pk) = .ok cts ∧
    evalM .outOfRange (LeveledSHE.Operation.run .w64 2) cts [⟨.mult, [0, 1]⟩, ⟨.modReduce 1, [3]⟩, ⟨.add, [4, 2]⟩] = .ok final ∧
    final.mapM (PKEBGVRNS.decrypt .w64 2 shortKey.secretKey) = .ok plaintexts ∧
    plaintexts.map (fun p => (p.1.poly, p.2)) =
      [(⟨![1, 0]⟩, 1), (⟨![0, 1]⟩, 1), (⟨![1, 1]⟩, 1), (⟨![0, 1]⟩, 1), (⟨![0, 1]⟩, 1), (⟨![1, 0]⟩, 1)] := by
  have chain : Chain .w64 shortChain 2 := ⟨le_rfl, by decide, by decide, by decide⟩
  have runs : PKEBGVRNS.Runs shortChain 2 2 unitSizes [2, 2, 2] [⟨.mult, [0, 1]⟩, ⟨.modReduce 1, [3]⟩, ⟨.add, [4, 2]⟩] :=
    ⟨by decide, ⟨trivial, (by decide : 1 < 2), trivial, trivial⟩, by decide +kernel⟩
  obtain ⟨pk, cts, final, plaintexts, generated, encrypted, run, decrypted, polys⟩ :=
    PKEBGVRNS.circuits_decrypt chain (by decide) shortKey
      [bitInput ![1, 0] (by decide), bitInput ![0, 1] (by decide), bitInput ![1, 1] (by decide)] runs
  refine ⟨pk, cts, final, plaintexts, generated, encrypted, run, decrypted, polys.trans ?_⟩
  decide +kernel

end MultiKeyFHE
