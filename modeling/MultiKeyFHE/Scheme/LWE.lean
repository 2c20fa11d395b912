import MultiKeyFHE.Scheme.Rounding
import MultiKeyFHE.Library.Run

/-!
# The single-key LWE scheme

`LWEEncryptionScheme` of `lwe-pke.cpp` on ciphertexts `(a, b)`. The phase of a ciphertext is `b - <a, s>`, an integer
read modulo the ciphertext modulus. What a generator draws is an argument.
-/

namespace MultiKeyFHE
open NativeInteger NativeVector Circle

/-- `LWECiphertextImpl`. Every constructor leaves the plaintext modulus at four. -/
@[ext]
structure LWECiphertext (n : ℕ) where
  a : Fin n → ℕ
  b : ℕ
  modulus : ℕ
  p : ℕ := 4

/-- `LWEPrivateKeyImpl`: a vector with its modulus. -/
structure LWEPrivateKey (n : ℕ) where
  element : Fin n → ℕ
  modulus : ℕ

namespace LWEPrivateKey
variable {n : ℕ}

/-- The signed secret of a key. -/
def signed (sk : LWEPrivateKey n) : Fin n → ℤ := fun i => centered sk.modulus (sk.element i)

/-- What the generators of a key make sure of. -/
structure Generated (w : NativeSize) (sk : LWEPrivateKey n) : Prop where
  element_lt : ∀ i, sk.element i < sk.modulus
  modulus_ok : ¬ modulusTooLarge w sk.modulus

end LWEPrivateKey

namespace LWE
variable {n : ℕ}

structure Reduced (ct : LWECiphertext n) : Prop where
  a_lt : ∀ i, ct.a i < ct.modulus
  b_lt : ct.b < ct.modulus

/-- Copies, moves and assignments take `a` and `b` over, and not the plaintext modulus. -/
def copy (ct : LWECiphertext n) : LWECiphertext n := { ct with p := 4 }

def setptModulus (p : ℕ) (ct : LWECiphertext n) : LWECiphertext n := { ct with p := p }

variable (w : NativeSize)

/-- `SetModulus` of a ciphertext. -/
def changeModulus (mod : ℕ) (ct : LWECiphertext n) : Except Fault (LWECiphertext n) := do
  setModulus w mod
  return { ct with a := fun i => modEntry w ct.modulus mod (ct.a i), b := ct.b % mod, modulus := mod }

/-- `SetModulus` of the vector of a ciphertext, which leaves the entries. -/
def relabelModulus (mod : ℕ) (ct : LWECiphertext n) : Except Fault (LWECiphertext n) := do
  setModulus w mod
  return { ct with modulus := mod }

/-- `SwitchModulus` of the secret vector. -/
def switchKey (mod : ℕ) (sk : LWEPrivateKey n) : Fin n → ℕ := fun i => switchModulus w sk.modulus mod (sk.element i)

/-- `Encrypt` with the drawn error `e` and mask `a`. The guard compares with `mod & (1 == 0)`, which is zero. -/
def encrypt (sk : LWEPrivateKey n) (e : ℕ) (a : Fin n → ℕ) (m : ℤ) (p mod : ℕ) : Except Fault (LWECiphertext n) := do
  if mod % p ≠ 0 ∧ mod &&& (if 1 = 0 then 1 else 0) ≠ 0 then
    throw (.notImplementedError
      "ERROR: ciphertext modulus q needs to be divisible by plaintext modulus p.")
  setModulus w mod
  let b := add w (NativeInteger.mul w (asUnsigned m % p) (mod / p)) e
  return { a, b := addProducts w mod a (switchKey w mod sk) b % mod, modulus := mod, p }

def decrypt (sk : LWEPrivateKey n) (ct : LWECiphertext n) (p : ℕ) : Except Fault ℕ := do
  if ct.modulus % (p * 2) ≠ 0 ∧ ct.modulus &&& (if 1 = 0 then 1 else 0) ≠ 0 then
    throw (.notImplementedError
      "ERROR: ciphertext modulus q needs to be divisible by plaintext modulus p*2.")
  setModulus w ct.modulus
  let inner := addProducts w ct.modulus ct.a (switchKey w ct.modulus sk) 0 % ct.modulus
  return decode w ct.modulus p (ct.modulus / (p * 2)) (modSubFast w ct.b inner ct.modulus)

def evalAddEq (ct1 ct2 : LWECiphertext n) : Except Fault (LWECiphertext n) :=
  if ct1.modulus ≠ ct2.modulus then
    .error (.mathError "ModAddEq called on NativeVectorT's with different parameters.")
  else .ok { ct1 with
    a := fun i => modAddFast w (ct1.a i) (ct2.a i) ct1.modulus
    b := modAddFast w ct1.b ct2.b ct1.modulus }

def evalSubEq (ct1 ct2 : LWECiphertext n) : Except Fault (LWECiphertext n) :=
  if ct1.modulus ≠ ct2.modulus then
    .error (.mathError "ModSubEq called on NativeVectorT's with different parameters.")
  else .ok { ct1 with
    a := fun i => modSubFast w (ct1.a i) (ct2.a i) ct1.modulus
    b := modSubFast w ct1.b ct2.b ct1.modulus }

/-- `EvalSubEq2`, which leaves the difference in the second ciphertext. -/
def evalSubEq2 (ct1 ct2 : LWECiphertext n) : Except Fault (LWECiphertext n) :=
  if ct1.modulus ≠ ct2.modulus then
    .error (.mathError "ModSub called on NativeVectorT's with different parameters.")
  else .ok { ct2 with
    a := fun i => modSubFast w (ct1.a i) (ct2.a i) ct1.modulus
    b := modSubFast w ct1.b ct2.b ct1.modulus }

def evalAddConstEq (ct : LWECiphertext n) (cnst : ℕ) : LWECiphertext n :=
  { ct with b := modAddFast w ct.b cnst ct.modulus }

def evalSubConstEq (ct : LWECiphertext n) (cnst : ℕ) : LWECiphertext n :=
  { ct with b := modSubFast w ct.b cnst ct.modulus }

def modSwitch (round : FloorRound) (q : ℕ) (ctQ : LWECiphertext n) : LWECiphertext n where
  a := fun i => roundqQ round (ctQ.a i) q ctQ.modulus
  b := roundqQ round ctQ.b q ctQ.modulus
  modulus := q

/-- `LWESwitchingKeyImpl`: the entries `[i][digit][j]`. -/
structure SwitchingKey (N n : ℕ) where
  A : Fin N → ℕ → ℕ → Fin n → ℕ
  B : Fin N → ℕ → ℕ → ℕ

/-- The innermost loop body of the two `KeySwitchGen` after the draws: the error `e`, the mask `a` and the digit
value in place of a message. The 32-bit build reduces each time. -/
def switchingEntry (qKS : ℕ) (sv a : Fin n → ℕ) (e value : ℕ) : ℕ :=
  let b := modAdd w e value qKS
  match w with
  | .w32 => (List.finRange n).foldl
      (fun b i => modAddFast w b (modMulFastMu w (a i) (sv i) qKS (computeMu w qKS)) qKS) b
  | .w64 => addProducts w qKS a sv b % qKS

/-- `svN[i].ModMul(j * digitsKS[k], qKS)`. -/
def digitValue (qKS baseKS svNi j k : ℕ) : ℕ := modMulFast svNi (NativeInteger.mul w j (mulIterate w baseKS 1 k)) qKS

/-- `KeySwitchGen` with the masks and errors that the generators drew for each entry. -/
def keySwitchGen {N : ℕ} (qKS baseKS : ℕ) (sk : LWEPrivateKey n) (skN : LWEPrivateKey N)
    (masks : Fin N → ℕ → ℕ → Fin n → ℕ) (errors : Fin N → ℕ → ℕ → ℕ) : Except Fault (SwitchingKey N n) := do
  setModulus w qKS
  return {
    A := masks
    B := fun i j k => switchingEntry w qKS (switchKey w qKS sk) (masks i j k) (errors i j k)
      (digitValue w qKS baseKS (switchKey w qKS skN i) j k) }

/-- The body of the two outer loops of `KeySwitch`, for digit `j` of entry `i`. -/
def keySwitchStep {N : ℕ} (qKS : ℕ) (K : SwitchingKey N n) (baseKS : ℕ) (ctQN : LWECiphertext N) (ct : LWECiphertext n)
    (x : Fin N × ℕ) : LWECiphertext n :=
  let a0 := ctQN.a x.1 / baseKS ^ x.2 % baseKS
  { ct with
    a := fun l => modSubFast w (ct.a l) (K.A x.1 a0 x.2 l) qKS
    b := modSubFast w ct.b (K.B x.1 a0 x.2) qKS }

def keySwitch {N : ℕ} (qKS : ℕ) (K : SwitchingKey N n) (baseKS digitCount : ℕ) (ctQN : LWECiphertext N) :
    LWECiphertext n :=
  (List.finRange N ×ˢ List.range digitCount).foldl (keySwitchStep w qKS K baseKS ctQN)
    { a := fun _ => 0, b := ctQN.b, modulus := qKS }

theorem keySwitch_frame {N : ℕ} (qKS : ℕ) (K : SwitchingKey N n) (baseKS digitCount : ℕ) (ctQN : LWECiphertext N) :
    (keySwitch w qKS K baseKS digitCount ctQN).modulus = qKS ∧ (keySwitch w qKS K baseKS digitCount ctQN).p = 4 := by
  suffices kept : ∀ (l : List (Fin N × ℕ)) (ct : LWECiphertext n),
      (l.foldl (keySwitchStep w qKS K baseKS ctQN) ct).modulus = ct.modulus ∧
        (l.foldl (keySwitchStep w qKS K baseKS ctQN) ct).p = ct.p from kept _ _
  intro l
  induction l with
  | nil => exact fun _ => ⟨rfl, rfl⟩
  | cons x rest ih => exact fun _ => ih _

/-- `NoiselessEmbedding` for the modulus `q` of the parameters. -/
def noiselessEmbedding (q m : ℕ) : LWECiphertext n where
  a := fun _ => 0
  b := NativeInteger.mul w m (q / 4)
  modulus := q

/-! ### Phases -/

section Phase
variable {w} {ct ct1 ct2 : LWECiphertext n} (s : Fin n → ℤ)

def phase (s : Fin n → ℤ) (ct : LWECiphertext n) : ℤ := ct.b - ∑ i, (ct.a i : ℤ) * s i

theorem phase_zero (ct : LWECiphertext n) : phase (fun _ => 0) ct = ct.b := by simp [phase]

@[simp] theorem phase_copy : phase s (copy ct) = phase s ct := rfl

theorem Reduced.copy (h : Reduced ct) : Reduced (copy ct) := ⟨h.a_lt, h.b_lt⟩

theorem Reduced.setptModulus (h : Reduced ct) (p : ℕ) : Reduced (setptModulus p ct) := ⟨h.a_lt, h.b_lt⟩

/-- An operation on all entries that is linear modulo `m` is linear on phases. -/
theorem phase_linear {m : ℕ} (c d : ℤ) (ha : ∀ i, (ct.a i : ℤ) ≡ c * ct1.a i + d * ct2.a i [ZMOD m])
    (hb : (ct.b : ℤ) ≡ c * ct1.b + d * ct2.b [ZMOD m]) : phase s ct ≡ c * phase s ct1 + d * phase s ct2 [ZMOD m] := by
  have sums : ∑ i, (ct.a i : ℤ) * s i ≡ ∑ i, (c * ct1.a i + d * ct2.a i) * s i [ZMOD m] :=
    Int.ModEq.sum fun i _ => (ha i).mul_right _
  refine (hb.sub sums).trans ?_
  simp only [phase, add_mul, Finset.sum_add_distrib, mul_assoc, ← Finset.mul_sum]
  rw [show c * (ct1.b : ℤ) + d * ct2.b - (c * ∑ i, (ct1.a i : ℤ) * s i + d * ∑ i, (ct2.a i : ℤ) * s i) =
    c * (ct1.b - ∑ i, (ct1.a i : ℤ) * s i) + d * (ct2.b - ∑ i, (ct2.a i : ℤ) * s i) by ring]

theorem evalAddEq_ok (same : ct1.modulus = ct2.modulus) (h1 : Reduced ct1) (h2 : Reduced ct2)
    (hm : 2 * ct1.modulus ≤ 2 ^ w.bits) :
    ∃ ct, evalAddEq w ct1 ct2 = .ok ct ∧ Reduced ct ∧ ct.modulus = ct1.modulus ∧ ct.p = ct1.p ∧
      phase s ct ≡ phase s ct1 + phase s ct2 [ZMOD ct1.modulus] := by
  rw [evalAddEq, if_neg (not_not.mpr same)]
  refine ⟨_, rfl, ⟨fun i => modAddFast_lt (h1.a_lt i) (same ▸ h2.a_lt i) (by omega),
    modAddFast_lt h1.b_lt (same ▸ h2.b_lt) (by omega)⟩, rfl, rfl, ?_⟩
  rw [← one_mul (phase s ct1), ← one_mul (phase s ct2)]
  refine phase_linear s 1 1 (fun i => ?_) ?_
  · rw [one_mul, one_mul]
    exact modAddFast_cast (h1.a_lt i) (same ▸ h2.a_lt i) hm
  · rw [one_mul, one_mul]
    exact modAddFast_cast h1.b_lt (same ▸ h2.b_lt) hm

theorem evalSubEq_ok (same : ct1.modulus = ct2.modulus) (h1 : Reduced ct1) (h2 : Reduced ct2)
    (hm : 2 * ct1.modulus ≤ 2 ^ w.bits) :
    ∃ ct, evalSubEq w ct1 ct2 = .ok ct ∧ Reduced ct ∧ ct.modulus = ct1.modulus ∧ ct.p = ct1.p ∧
      phase s ct ≡ phase s ct1 - phase s ct2 [ZMOD ct1.modulus] := by
  rw [evalSubEq, if_neg (not_not.mpr same)]
  refine ⟨_, rfl, ⟨fun i => modSubFast_lt (h1.a_lt i) (same ▸ h2.a_lt i) (by omega),
    modSubFast_lt h1.b_lt (same ▸ h2.b_lt) (by omega)⟩, rfl, rfl, ?_⟩
  rw [sub_eq_add_neg, ← one_mul (phase s ct1), ← neg_one_mul (phase s ct2)]
  refine phase_linear s 1 (-1) (fun i => ?_) ?_
  · rw [one_mul, neg_one_mul, ← sub_eq_add_neg]
    exact modSubFast_cast (h1.a_lt i) (same ▸ h2.a_lt i) (by omega)
  · rw [one_mul, neg_one_mul, ← sub_eq_add_neg]
    exact modSubFast_cast h1.b_lt (same ▸ h2.b_lt) (by omega)

theorem evalAddConstEq_ok (h : Reduced ct) {cnst : ℕ} (hc : cnst < ct.modulus) (hm : 2 * ct.modulus ≤ 2 ^ w.bits) :
    Reduced (evalAddConstEq w ct cnst) ∧ phase s (evalAddConstEq w ct cnst) ≡ phase s ct + cnst [ZMOD ct.modulus] := by
  refine ⟨⟨h.a_lt, modAddFast_lt h.b_lt hc (by omega)⟩, ?_⟩
  have sum := (modAddFast_cast (w := w) h.b_lt hc hm).sub_right (∑ i, (ct.a i : ℤ) * s i)
  rwa [add_sub_right_comm] at sum

theorem evalSubConstEq_ok (h : Reduced ct) {cnst : ℕ} (hc : cnst < ct.modulus) (hm : ct.modulus ≤ 2 ^ w.bits) :
    Reduced (evalSubConstEq w ct cnst) ∧ phase s (evalSubConstEq w ct cnst) ≡ phase s ct - cnst [ZMOD ct.modulus] := by
  refine ⟨⟨h.a_lt, modSubFast_lt h.b_lt hc hm⟩, ?_⟩
  have difference := (modSubFast_cast (w := w) h.b_lt hc hm).sub_right (∑ i, (ct.a i : ℤ) * s i)
  rwa [sub_right_comm] at difference

theorem evalSubEq2_ok (same : ct1.modulus = ct2.modulus) (h1 : Reduced ct1) (h2 : Reduced ct2)
    (hm : 2 * ct1.modulus ≤ 2 ^ w.bits) :
    ∃ ct, evalSubEq2 w ct1 ct2 = .ok ct ∧ Reduced ct ∧ ct.modulus = ct1.modulus ∧
      phase s ct ≡ phase s ct1 - phase s ct2 [ZMOD ct1.modulus] := by
  obtain ⟨ct, run, reduced, modulus, -, held⟩ := evalSubEq_ok s same h1 h2 hm
  rw [evalSubEq, if_neg (not_not.mpr same)] at run
  cases run
  rw [evalSubEq2, if_neg (not_not.mpr same)]
  exact ⟨_, rfl, ⟨fun i => same ▸ reduced.a_lt i, same ▸ reduced.b_lt⟩, same.symm, held⟩

/-- To a divisor of the modulus the phase goes along. Modulo two entries are centered wrongly. -/
theorem changeModulus_of_dvd (h : Reduced ct) {mod : ℕ} (divides : mod ∣ ct.modulus) (other : mod ≠ 2)
    (pos : 0 < mod) (hm : ¬ modulusTooLarge w mod) (word : 2 * ct.modulus ≤ 2 ^ w.bits) :
    ∃ ct', changeModulus w mod ct = .ok ct' ∧ Reduced ct' ∧ ct'.modulus = mod ∧ phase s ct' ≡ phase s ct [ZMOD mod] := by
  have below := h.b_lt
  have le := Nat.le_of_dvd (by omega) divides
  rw [changeModulus, setModulus, if_neg hm]
  refine ⟨_, rfl, ⟨fun i => ?_, Nat.mod_lt _ pos⟩, rfl, ?_⟩
  · dsimp only
    rw [modEntry, if_neg other]
    exact switchModulus_lt (h.a_lt i) pos (by omega)
  · refine Int.ModEq.sub ?_ (Int.ModEq.sum fun i _ => Int.ModEq.mul_right _ ?_)
    · exact_mod_cast Int.mod_modEq (ct.b : ℤ) mod
    · dsimp only
      rw [modEntry, if_neg other]
      exact (switchModulus_cast (h.a_lt i) pos (by omega)).trans
        ((centered_modEq ct.modulus (ct.a i)).of_dvd (Int.natCast_dvd_natCast.mpr divides))

theorem modSwitch_reduced (round : FloorRound) {q : ℕ} (hq : 0 < q) (ct : LWECiphertext n) :
    Reduced (modSwitch round q ct) := ⟨fun _ => Nat.mod_lt _ hq, Nat.mod_lt _ hq⟩

/-- What entry `i` and digit `j` take from the phase. -/
def keyTerm {N : ℕ} (K : SwitchingKey N n) (baseKS : ℕ) (s : Fin n → ℤ) (ctQN : LWECiphertext N) (i : Fin N) (j : ℕ) : ℤ :=
  let a0 := ctQN.a i / baseKS ^ j % baseKS
  K.B i a0 j - ∑ l, (K.A i a0 j l : ℤ) * s l

/-- The entries of a switching key modulo `qKS`. -/
structure SwitchingKey.Reduced {N : ℕ} (K : SwitchingKey N n) (qKS : ℕ) : Prop where
  A_lt : ∀ i digit j l, K.A i digit j l < qKS
  B_lt : ∀ i digit j, K.B i digit j < qKS

theorem phase_keySwitch {N qKS : ℕ} (hpos : 0 < qKS) (hq : qKS ≤ 2 ^ w.bits) {K : SwitchingKey N n} (hK : K.Reduced qKS)
    (baseKS digitCount : ℕ) {ctQN : LWECiphertext N} (hb : ctQN.b < qKS) :
    Reduced (keySwitch w qKS K baseKS digitCount ctQN) ∧ (keySwitch w qKS K baseKS digitCount ctQN).modulus = qKS ∧
      phase s (keySwitch w qKS K baseKS digitCount ctQN) ≡
        ctQN.b - ((List.finRange N).map fun i =>
          ((List.range digitCount).map fun j => keyTerm K baseKS s ctQN i j).sum).sum [ZMOD qKS] := by
  have once : ∀ (ct : LWECiphertext n) (x : Fin N × ℕ), Reduced ct ∧ ct.modulus = qKS →
      (Reduced (keySwitchStep w qKS K baseKS ctQN ct x) ∧ (keySwitchStep w qKS K baseKS ctQN ct x).modulus = qKS) ∧
        phase s (keySwitchStep w qKS K baseKS ctQN ct x) ≡
          phase s ct + -keyTerm K baseKS s ctQN x.1 x.2 [ZMOD qKS] := by
    rintro ct x ⟨reduced, rfl⟩
    refine ⟨⟨⟨fun l => modSubFast_lt (reduced.a_lt l) (hK.A_lt _ _ _ _) hq, modSubFast_lt reduced.b_lt (hK.B_lt _ _ _) hq⟩,
      rfl⟩, ?_⟩
    let entry : LWECiphertext n :=
      { a := K.A x.1 (ctQN.a x.1 / baseKS ^ x.2 % baseKS) x.2, b := K.B x.1 (ctQN.a x.1 / baseKS ^ x.2 % baseKS) x.2,
        modulus := ct.modulus }
    have held : keyTerm K baseKS s ctQN x.1 x.2 = phase s entry := rfl
    rw [held, ← one_mul (phase s ct), ← neg_one_mul (phase s entry)]
    refine phase_linear s 1 (-1) (fun l => ?_) ?_
    · rw [one_mul, neg_one_mul, ← sub_eq_add_neg]
      exact modSubFast_cast (reduced.a_lt l) (hK.A_lt _ _ _ _) hq
    · rw [one_mul, neg_one_mul, ← sub_eq_add_neg]
      exact modSubFast_cast reduced.b_lt (hK.B_lt _ _ _) hq
  let first : LWECiphertext n := { a := fun _ => 0, b := ctQN.b, modulus := qKS }
  have start : Reduced first ∧ first.modulus = qKS := ⟨⟨fun _ => hpos, hb⟩, rfl⟩
  obtain ⟨⟨reduced, modulus⟩, total⟩ := Run.foldl_modEq (fun ct : LWECiphertext n => Reduced ct ∧ ct.modulus = qKS)
    (phase s) (fun x : Fin N × ℕ => -keyTerm K baseKS s ctQN x.1 x.2) once
    (List.finRange N ×ˢ List.range digitCount) start
  refine ⟨reduced, modulus, total.trans ?_⟩
  have begun : phase s first = ctQN.b := by simp [phase, first]
  rw [begun, ← Run.sum_product, sub_eq_add_neg, List.sum_neg, List.map_map]
  rfl

/-! ### Decryption -/

theorem switchKey_lt {sk : LWEPrivateKey n} (key : sk.Generated w) {mod : ℕ} (pos : 0 < mod)
    (hm : ¬ modulusTooLarge w mod) (i : Fin n) : switchKey w mod sk i < mod := by
  have hlt := lt_of_not_tooLarge hm
  have hkey := lt_of_not_tooLarge key.modulus_ok
  exact switchModulus_lt (key.element_lt i) pos (by omega)

/-- The inner product of `Decrypt` modulo a power of two. -/
theorem inner_modEq {sk : LWEPrivateKey n} (key : sk.Generated w) (reduced : Reduced ct) (h2 : 2 ≤ ct.modulus)
    (hm : ¬ modulusTooLarge w ct.modulus) (hw : ct.modulus ∣ 2 ^ w.bits) :
    ((modSubFast w ct.b (addProducts w ct.modulus ct.a (switchKey w ct.modulus sk) 0 % ct.modulus) ct.modulus : ℕ) : ℤ) ≡
      phase sk.signed ct [ZMOD ct.modulus] := by
  have hlt := lt_of_not_tooLarge hm
  have hkey := lt_of_not_tooLarge key.modulus_ok
  have sum := addProducts_modEq h2 hm hw reduced.a_lt (switchKey_lt key (by omega) hm) 0
  rw [Nat.cast_zero, zero_add] at sum
  have signed : ∑ i, (ct.a i : ℤ) * switchKey w ct.modulus sk i ≡ ∑ i, (ct.a i : ℤ) * sk.signed i [ZMOD ct.modulus] :=
    Int.ModEq.sum fun i _ => (switchModulus_cast (key.element_lt i) (by omega) (by omega)).mul_left _
  have inner : ((addProducts w ct.modulus ct.a (switchKey w ct.modulus sk) 0 % ct.modulus : ℕ) : ℤ) ≡
      ∑ i, (ct.a i : ℤ) * sk.signed i [ZMOD ct.modulus] := by
    rw [Int.natCast_mod]
    exact (Int.mod_modEq _ _).trans (sum.trans signed)
  exact (modSubFast_cast reduced.b_lt (Nat.mod_lt _ (by omega)) (by omega)).trans (inner.sub_left _)

/-- A phase less than half of a block from a multiple of the block decrypts to the multiple. -/
theorem decrypt_block {sk : LWEPrivateKey n} (key : sk.Generated w) (reduced : Reduced ct)
    (hm : ¬ modulusTooLarge w ct.modulus) (hw : ct.modulus ∣ 2 ^ w.bits) {p beta m : ℕ} {e : ℤ}
    (size : ct.modulus = p * (2 * beta)) (fits : p * ct.modulus < 2 ^ w.bits) (hmp : m < p) (small : |e| < beta)
    (held : phase sk.signed ct ≡ (m * (2 * beta) : ℕ) + e [ZMOD ct.modulus]) : decrypt w sk ct p = .ok m := by
  have bounds := abs_lt.mp small
  have never : ¬ (ct.modulus % (p * 2) ≠ 0 ∧ ct.modulus &&& (if 1 = 0 then 1 else 0) ≠ 0) := by simp
  have hlt := lt_of_not_tooLarge hm
  have wide : 1 * (2 * beta) ≤ ct.modulus := size ▸ Nat.mul_le_mul_right _ (by omega)
  have shift : ct.modulus / (p * 2) = beta := by
    rw [size, ← mul_assoc, Nat.mul_div_cancel_left _ (by omega)]
  have below : modSubFast w ct.b (addProducts w ct.modulus ct.a (switchKey w ct.modulus sk) 0 % ct.modulus) ct.modulus <
      ct.modulus := modSubFast_lt reduced.b_lt (Nat.mod_lt _ (by omega)) (by omega)
  obtain ⟨t, ht⟩ := ((inner_modEq key reduced (by omega) hm hw).trans held).symm.dvd
  have place : ((modSubFast w ct.b (addProducts w ct.modulus ct.a (switchKey w ct.modulus sk) 0 % ct.modulus) ct.modulus : ℕ) : ℤ) +
      beta - t * ct.modulus = (m * (2 * beta) : ℕ) + (e + beta) := by
    linarith
  have whole : (p : ℤ) * ((m * (2 * beta) : ℕ) + (e + beta)) = m * ct.modulus + p * (e + beta) := by
    rw [size]
    push_cast
    ring
  have pos : (0 : ℤ) < p := by omega
  rw [decrypt, if_neg never, setModulus, if_neg hm]
  refine congrArg Except.ok (decode_eq (t := t) hm fits below (by rw [shift]; omega) hmp ?_ ?_)
  · rw [shift, place, whole]
    exact le_add_of_nonneg_right (mul_nonneg pos.le (by omega))
  · rw [shift, place, whole, add_one_mul]
    refine add_lt_add_right ?_ _
    rw [size]
    push_cast
    exact mul_lt_mul_of_pos_left (by omega) pos

/-- The phase of a fresh ciphertext is the message and the error that was drawn. -/
theorem encrypt_phase {sk : LWEPrivateKey n} (key : sk.Generated w) {q : ℕ} (h2 : 2 ≤ q) (hm : ¬ modulusTooLarge w q)
    (hw : q ∣ 2 ^ w.bits) {a : Fin n → ℕ} (ha : ∀ i, a i < q) (e m p : ℕ) :
    ∃ ct, encrypt w sk e a m p q = .ok ct ∧ Reduced ct ∧ ct.modulus = q ∧ ct.p = p ∧
      phase sk.signed ct ≡ (m % p * (q / p) : ℕ) + centered q e [ZMOD q] := by
  have hlt := lt_of_not_tooLarge hm
  have hkey := lt_of_not_tooLarge key.modulus_ok
  have never : ¬ (q % p ≠ 0 ∧ q &&& (if 1 = 0 then 1 else 0) ≠ 0) := by simp
  let b := add w (NativeInteger.mul w (m % p) (q / p)) e
  let ct : LWECiphertext n := ⟨a, addProducts w q a (switchKey w q sk) b % q, q, p⟩
  have made : encrypt w sk e a m p q = .ok ct := by
    simp only [encrypt, if_neg never, setModulus, if_neg hm, asUnsigned_natCast]
    rfl
  have message : (b : ℤ) ≡ (m % p * (q / p) : ℕ) + centered q e [ZMOD q] := by
    have words : ((add w (NativeInteger.mul w (m % p) (q / p)) e : ℕ) : ℤ) ≡ (m % p * (q / p) : ℕ) + e [ZMOD (2 ^ w.bits : ℕ)] := by
      rw [NativeInteger.add, NativeInteger.mul, wrap, wrap, Int.natCast_mod, Nat.cast_add, Int.natCast_mod]
      exact (Int.mod_modEq _ _).trans ((Int.mod_modEq _ _).add_right _)
    exact (words.of_dvd (Int.natCast_dvd_natCast.mpr hw)).trans ((centered_modEq q e).symm.add_left _)
  have sum := addProducts_modEq h2 hm hw ha (switchKey_lt key (by omega) hm) b
  have signed : ∑ i, (a i : ℤ) * switchKey w q sk i ≡ ∑ i, (a i : ℤ) * sk.signed i [ZMOD q] :=
    Int.ModEq.sum fun i _ => (switchModulus_cast (key.element_lt i) (by omega) (by omega)).mul_left _
  have whole : (ct.b : ℤ) ≡ b + ∑ i, (a i : ℤ) * sk.signed i [ZMOD q] := by
    dsimp only [ct]
    rw [Int.natCast_mod]
    exact (Int.mod_modEq _ _).trans (sum.trans (signed.add_left _))
  have cleared := whole.sub_right (∑ i, (a i : ℤ) * sk.signed i)
  rw [add_sub_cancel_right] at cleared
  exact ⟨ct, made, ⟨ha, Nat.mod_lt _ (by omega)⟩, rfl, rfl, cleared.trans message⟩

/-- A phase within an eighth of `q / p` of `m * q / p` decrypts to `m`. -/
theorem decrypt_eq {sk : LWEPrivateKey n} (key : sk.Generated w) (reduced : Reduced ct)
    (hm : ¬ modulusTooLarge w ct.modulus) (hw : ct.modulus ∣ 2 ^ w.bits) {p m : ℕ} (hp : p ≤ 8)
    (large : 8 * p ≤ 3 * ct.modulus) (hmp : m < p)
    (near : Within ct.modulus (ct.modulus / (8 * p)) (phase sk.signed ct) (m * ct.modulus / p)) :
    decrypt w sk ct p = .ok m := by
  have hlt := lt_of_not_tooLarge hm
  have never : ¬ (ct.modulus % (p * 2) ≠ 0 ∧ ct.modulus &&& (if 1 = 0 then 1 else 0) ≠ 0) := by simp
  have switched : setModulus w ct.modulus = .ok () := by rw [setModulus, if_neg hm]
  have pos : (0 : ℚ) < p := by exact_mod_cast (show 0 < p by omega)
  obtain ⟨u, hu⟩ := (inner_modEq key reduced (by omega) hm hw).dvd
  obtain ⟨t, ht⟩ := near
  have bounds := abs_lt.mp ht
  have below : modSubFast w ct.b (addProducts w ct.modulus ct.a (switchKey w ct.modulus sk) 0 % ct.modulus) ct.modulus <
      ct.modulus := modSubFast_lt reduced.b_lt (Nat.mod_lt _ (by omega)) (by omega)
  -- all of it times `p`: the phase is an eighth of `q` from `m * q`, and the shift is half of `q` up to `p`
  have whole : (p : ℚ) * (m * ct.modulus / p) = m * ct.modulus := by field_simp
  have eighth : (p : ℚ) * (ct.modulus / (8 * p)) = ct.modulus / 8 := by field_simp
  have lo := mul_lt_mul_of_pos_left bounds.1 pos
  have hi := mul_lt_mul_of_pos_left bounds.2 pos
  rw [mul_neg, mul_sub, mul_sub, whole, eighth] at lo
  rw [mul_sub, mul_sub, whole, eighth] at hi
  have shift_le : (p : ℚ) * 2 * (ct.modulus / (p * 2) : ℕ) ≤ ct.modulus := by exact_mod_cast Nat.mul_div_le _ _
  have shift_gt : (ct.modulus : ℚ) < p * 2 * (ct.modulus / (p * 2) : ℕ) + p * 2 := by
    exact_mod_cast (Nat.lt_mul_div_succ ct.modulus (show 0 < p * 2 by omega)).trans_eq (by ring)
  have large' : 8 * (p : ℚ) ≤ 3 * ct.modulus := by exact_mod_cast large
  generalize hsh : ct.modulus / (p * 2) = shift at shift_le shift_gt
  have lower : (m : ℚ) * ct.modulus ≤ p * (phase sk.signed ct + shift - t * ct.modulus) := by linarith
  have upper : (p : ℚ) * (phase sk.signed ct + shift - t * ct.modulus) < (m + 1) * ct.modulus := by linarith
  rw [decrypt, if_neg never, switched]
  refine congrArg Except.ok (decode_eq (t := t - u) hm ?_ below (Nat.div_lt_self (by omega) (by omega)) hmp ?_ ?_)
  · calc p * ct.modulus ≤ 8 * ct.modulus := Nat.mul_le_mul_right _ hp
      _ < 2 ^ w.bits := by omega
  all_goals
    rw [hsh, show ∀ r : ℤ, r + shift - (t - u) * ct.modulus = r + ct.modulus * u + shift - t * ct.modulus by
      intro r; ring, ← hu, add_sub_cancel]
  · exact_mod_cast lower
  · exact_mod_cast upper

end Phase

end LWE
end MultiKeyFHE
