import MultiKeyFHE.Scheme.LWE
import MultiKeyFHE.Library.Run

/-!
# The multi-key LWE scheme

`MKLWEEncryptionScheme` of `mklwe-pke.cpp` on ciphertexts `(a, b)` with one vector for each of `k` parties.
The phase of a ciphertext is `b - sum_u <a_u, s_u>`, an integer read modulo the ciphertext modulus.
-/

namespace MultiKeyFHE
open NativeInteger NativeVector Circle

/-- `MKLWECiphertextImpl`. Every constructor but `Encrypt` leaves the plaintext modulus at four. -/
@[ext]
structure MKLWECiphertext (k n : ℕ) where
  a : Fin k → Fin n → ℕ
  b : ℕ
  modulus : ℕ
  p : ℕ := 4

namespace MKLWE
variable {w : NativeSize} {k n : ℕ}

structure Reduced (ct : MKLWECiphertext k n) : Prop where
  a_lt : ∀ u i, ct.a u i < ct.modulus
  b_lt : ct.b < ct.modulus

/-- The copy constructor: the plaintext modulus is not copied. -/
def copy (ct : MKLWECiphertext k n) : MKLWECiphertext k n := { ct with p := 4 }

variable (w)

def evalAddEq (ct1 ct2 : MKLWECiphertext k n) : Except Fault (MKLWECiphertext k n) :=
  if ct1.modulus ≠ ct2.modulus then
    .error (.mathError "ModAddEq called on NativeVectorT's with different parameters.")
  else .ok { ct1 with
    a := fun u i => modAddFast w (ct1.a u i) (ct2.a u i) ct1.modulus
    b := modAddFast w ct1.b ct2.b ct1.modulus }

def evalSubEq (ct1 ct2 : MKLWECiphertext k n) : Except Fault (MKLWECiphertext k n) :=
  if ct1.modulus ≠ ct2.modulus then
    .error (.mathError "ModSubEq called on NativeVectorT's with different parameters.")
  else .ok { ct1 with
    a := fun u i => modSubFast w (ct1.a u i) (ct2.a u i) ct1.modulus
    b := modSubFast w ct1.b ct2.b ct1.modulus }

def getAneg (ct : MKLWECiphertext k n) : Fin k → Fin n → ℕ := fun u i => modSubFast w 0 (ct.a u i) ct.modulus

def modSwitch (round : FloorRound) (q : ℕ) (ctQ : MKLWECiphertext k n) :
    Except Fault (MKLWECiphertext k n) :=
  .ok { a := fun u i => roundqQ round (ctQ.a u i) q ctQ.modulus, b := roundqQ round ctQ.b q ctQ.modulus, modulus := q }

/-- `Encrypt` with the drawn error `e` and masks `a`. The guard compares with `mod & (1 == 0)`, which is zero. -/
def encrypt (keyModulus : ℕ) (s : Fin k → Fin n → ℕ) (e : ℕ) (a : Fin k → Fin n → ℕ) (m : ℤ) (p mod : ℕ) :
    Except Fault (MKLWECiphertext k n) := do
  if mod % p ≠ 0 ∧ mod &&& (if 1 = 0 then 1 else 0) ≠ 0 then
    throw (.notImplementedError
      "ERROR: ciphertext modulus q needs to be divisible by plaintext modulus p.")
  setModulus w mod
  let b := add w (NativeInteger.mul w (asUnsigned m % p) (mod / p)) e
  let b := (List.finRange k).foldl
    (fun b u => addProducts w mod (a u) (LWE.switchKey w mod ⟨s u, keyModulus⟩) b) b
  return { a, b := b % mod, modulus := mod, p }

/-- `KeySwitchGen`: for each party the loops of the single-key version. -/
def keySwitchGen {N : ℕ} (qKS baseKS : ℕ) (sk : Fin k → LWEPrivateKey n) (skN : Fin k → LWEPrivateKey N)
    (masks : Fin k → Fin N → ℕ → ℕ → Fin n → ℕ) (errors : Fin k → Fin N → ℕ → ℕ → ℕ) :
    Except Fault (Fin k → LWE.SwitchingKey N n) := do
  setModulus w qKS
  return fun u => {
    A := masks u
    B := fun i j l => LWE.switchingEntry w qKS (LWE.switchKey w qKS (sk u)) (masks u i j l) (errors u i j l)
      (LWE.digitValue w qKS baseKS (LWE.switchKey w qKS (skN u) i) j l) }

/-- `MKLWESwitchingKeyImpl` modulo `qKS`: the entries `[u][i][digit][j]`. -/
structure SwitchingKey (k N n qKS : ℕ) where
  A : Fin k → Fin N → ℕ → ℕ → Fin n → ℕ
  B : Fin k → Fin N → ℕ → ℕ → ℕ
  A_lt : ∀ u i digit j l, A u i digit j l < qKS
  B_lt : ∀ u i digit j, B u i digit j < qKS

/-- The body of the three outer loops of `KeySwitch`, for digit `j` of entry `i` of party `u`. -/
def keySwitchStep {N qKS : ℕ} (K : SwitchingKey k N n qKS) (baseKS : ℕ) (ctQN : MKLWECiphertext k N)
    (ct : MKLWECiphertext k n) (u : Fin k) (i : Fin N) (j : ℕ) : MKLWECiphertext k n :=
  let a0 := ctQN.a u i / baseKS ^ j % baseKS
  { ct with
    a := fun v l => if v = u then modSubFast w (ct.a v l) (K.A u i a0 j l) qKS else ct.a v l
    b := modSubFast w ct.b (K.B u i a0 j) qKS }

/-- `KeySwitch`, with the digit count the floating point logarithms give. -/
def keySwitch {N qKS : ℕ} (K : SwitchingKey k N n qKS) (baseKS digitCount : ℕ) (ctQN : MKLWECiphertext k N) :
    MKLWECiphertext k n :=
  (Run.gridIndices k N).foldl
    (fun ct x => (List.range digitCount).foldl (fun ct j => keySwitchStep w K baseKS ctQN ct x.1 x.2 j) ct)
    { a := fun _ _ => 0, b := ctQN.b, modulus := qKS }

def innerProduct (keyModulus : ℕ) (s : Fin k → Fin n → ℕ) (ct : MKLWECiphertext k n) : ℕ :=
  (List.finRange k).foldl (fun inner u =>
    addProducts w ct.modulus (ct.a u) (fun i => switchModulus w keyModulus ct.modulus (s u i)) inner %
      ct.modulus) 0

/-- `Decrypt(sk, ct, p)`. The guard compares with `mod & (1 == 0)`, which is zero. -/
def decrypt (keyModulus : ℕ) (s : Fin k → Fin n → ℕ) (ct : MKLWECiphertext k n) (p : ℕ) : Except Fault ℕ := do
  if ct.modulus % (p * 2) ≠ 0 ∧ ct.modulus &&& (if 1 = 0 then 1 else 0) ≠ 0 then
    throw (.notImplementedError
      "ERROR: ciphertext modulus q needs to be divisible by plaintext modulus p*2.")
  setModulus w ct.modulus
  let r := modSubFast w ct.b (innerProduct w keyModulus s ct) ct.modulus
  return decode w ct.modulus p (ct.modulus / (p * 2)) r

variable {w}

/-! ### Phases -/

def phase (s : Fin k → Fin n → ℕ) (ct : MKLWECiphertext k n) : ℤ :=
  ct.b - ∑ u, ∑ i, (ct.a u i : ℤ) * s u i

theorem evalAddEq_ok {ct1 ct2 : MKLWECiphertext k n} (same : ct1.modulus = ct2.modulus) (h1 : Reduced ct1)
    (h2 : Reduced ct2) (hm : ¬ modulusTooLarge w ct1.modulus) (s : Fin k → Fin n → ℕ) :
    ∃ ct, evalAddEq w ct1 ct2 = .ok ct ∧ Reduced ct ∧ ct.modulus = ct1.modulus ∧
      phase s ct ≡ phase s ct1 + phase s ct2 [ZMOD ct1.modulus] := by
  have hlt := lt_of_not_tooLarge hm
  rw [evalAddEq, if_neg (not_not.mpr same)]
  refine ⟨_, rfl, ⟨fun u i => modAddFast_lt (h1.a_lt u i) (same ▸ h2.a_lt u i) (by omega),
    modAddFast_lt h1.b_lt (same ▸ h2.b_lt) (by omega)⟩, rfl, ?_⟩
  have hb := modAddFast_cast (w := w) h1.b_lt (same ▸ h2.b_lt) (by omega)
  have ha : (∑ u, ∑ i, ((modAddFast w (ct1.a u i) (ct2.a u i) ct1.modulus : ℕ) : ℤ) * s u i) ≡
      ∑ u, ∑ i, ((ct1.a u i : ℤ) + ct2.a u i) * s u i [ZMOD ct1.modulus] :=
    Int.ModEq.sum fun u _ => Int.ModEq.sum fun i _ =>
      (modAddFast_cast (h1.a_lt u i) (same ▸ h2.a_lt u i) (by omega)).mul_right _
  refine (hb.sub ha).trans ?_
  simp only [phase, add_mul, Finset.sum_add_distrib]
  rw [show ((ct1.b : ℤ) + ct2.b - ((∑ u, ∑ i, (ct1.a u i : ℤ) * s u i) + ∑ u, ∑ i, (ct2.a u i : ℤ) * s u i)) =
    ct1.b - (∑ u, ∑ i, (ct1.a u i : ℤ) * s u i) + (ct2.b - ∑ u, ∑ i, (ct2.a u i : ℤ) * s u i) by ring]

theorem evalSubEq_ok {ct1 ct2 : MKLWECiphertext k n} (same : ct1.modulus = ct2.modulus) (h1 : Reduced ct1)
    (h2 : Reduced ct2) (hm : ¬ modulusTooLarge w ct1.modulus) (s : Fin k → Fin n → ℕ) :
    ∃ ct, evalSubEq w ct1 ct2 = .ok ct ∧ Reduced ct ∧ ct.modulus = ct1.modulus ∧
      phase s ct ≡ phase s ct1 - phase s ct2 [ZMOD ct1.modulus] := by
  have hlt := lt_of_not_tooLarge hm
  rw [evalSubEq, if_neg (not_not.mpr same)]
  refine ⟨_, rfl, ⟨fun u i => modSubFast_lt (h1.a_lt u i) (same ▸ h2.a_lt u i) (by omega),
    modSubFast_lt h1.b_lt (same ▸ h2.b_lt) (by omega)⟩, rfl, ?_⟩
  have hb := modSubFast_cast (w := w) h1.b_lt (same ▸ h2.b_lt) (by omega)
  have ha : (∑ u, ∑ i, ((modSubFast w (ct1.a u i) (ct2.a u i) ct1.modulus : ℕ) : ℤ) * s u i) ≡
      ∑ u, ∑ i, ((ct1.a u i : ℤ) - ct2.a u i) * s u i [ZMOD ct1.modulus] :=
    Int.ModEq.sum fun u _ => Int.ModEq.sum fun i _ =>
      (modSubFast_cast (h1.a_lt u i) (same ▸ h2.a_lt u i) (by omega)).mul_right _
  refine (hb.sub ha).trans ?_
  simp only [phase, sub_mul, Finset.sum_sub_distrib]
  rw [show ((ct1.b : ℤ) - ct2.b - ((∑ u, ∑ i, (ct1.a u i : ℤ) * s u i) - ∑ u, ∑ i, (ct2.a u i : ℤ) * s u i)) =
    ct1.b - (∑ u, ∑ i, (ct1.a u i : ℤ) * s u i) - (ct2.b - ∑ u, ∑ i, (ct2.a u i : ℤ) * s u i) by ring]

theorem getAneg_lt {ct : MKLWECiphertext k n} (h : Reduced ct) (hm : ct.modulus ≤ 2 ^ w.bits) (u : Fin k)
    (i : Fin n) : getAneg w ct u i < ct.modulus :=
  modSubFast_lt (Nat.zero_lt_of_lt (h.a_lt u i)) (h.a_lt u i) hm

theorem getAneg_cast {ct : MKLWECiphertext k n} (h : Reduced ct) (hm : ct.modulus ≤ 2 ^ w.bits) (u : Fin k)
    (i : Fin n) : ((getAneg w ct u i : ℕ) : ℤ) ≡ -(ct.a u i : ℤ) [ZMOD ct.modulus] := by
  have := modSubFast_cast (w := w) (Nat.zero_lt_of_lt (h.a_lt u i)) (h.a_lt u i) hm
  rwa [Nat.cast_zero, zero_sub] at this

theorem modSwitch_ok (round : FloorRound) {q : ℕ} (hpos : 0 < q) (ctQ : MKLWECiphertext k n) :
    ∃ ct, modSwitch round q ctQ = .ok ct ∧ Reduced ct ∧ ct.modulus = q ∧ ct.p = 4 :=
  ⟨_, rfl, ⟨fun _ _ => Nat.mod_lt _ hpos, Nat.mod_lt _ hpos⟩, rfl, rfl⟩

theorem modSwitch_values {round : FloorRound} {q : ℕ} {ctQ ct : MKLWECiphertext k n}
    (run : modSwitch round q ctQ = .ok ct) :
    (∀ u i, ct.a u i = roundqQ round (ctQ.a u i) q ctQ.modulus) ∧ ct.b = roundqQ round ctQ.b q ctQ.modulus := by
  cases run
  exact ⟨fun _ _ => rfl, rfl⟩

theorem keySwitchStep_reduced {N qKS : ℕ} (hq : qKS ≤ 2 ^ w.bits) (K : SwitchingKey k N n qKS)
    (baseKS : ℕ) (ctQN : MKLWECiphertext k N) {ct : MKLWECiphertext k n} (h : Reduced ct)
    (same : ct.modulus = qKS) (u : Fin k) (i : Fin N) (j : ℕ) :
    Reduced (keySwitchStep w K baseKS ctQN ct u i j) ∧
      (keySwitchStep w K baseKS ctQN ct u i j).modulus = qKS := by
  subst same
  refine ⟨⟨fun v l => ?_, modSubFast_lt h.b_lt (K.B_lt _ _ _ _) hq⟩, rfl⟩
  dsimp only [keySwitchStep]
  split
  · exact modSubFast_lt (h.a_lt v l) (K.A_lt _ _ _ _ _) hq
  · exact h.a_lt v l

theorem keySwitch_reduced {N qKS : ℕ} (hpos : 0 < qKS) (hq : qKS ≤ 2 ^ w.bits) (K : SwitchingKey k N n qKS)
    (baseKS digitCount : ℕ) {ctQN : MKLWECiphertext k N} (hb : ctQN.b < qKS) :
    Reduced (keySwitch w K baseKS digitCount ctQN) ∧ (keySwitch w K baseKS digitCount ctQN).modulus = qKS := by
  rw [keySwitch]
  refine List.foldlRecOn (motive := fun ct : MKLWECiphertext k n => Reduced ct ∧ ct.modulus = qKS) _ _
    ⟨⟨fun _ _ => hpos, hb⟩, rfl⟩ fun ct h x _ => ?_
  exact List.foldlRecOn (motive := fun ct : MKLWECiphertext k n => Reduced ct ∧ ct.modulus = qKS) _ _ h
    fun ct h j _ => keySwitchStep_reduced hq K baseKS ctQN h.1 h.2 x.1 x.2 j

def keyTerm {N qKS : ℕ} (K : SwitchingKey k N n qKS) (baseKS : ℕ) (s : Fin k → Fin n → ℕ)
    (ctQN : MKLWECiphertext k N) (u : Fin k) (i : Fin N) (j : ℕ) : ℤ :=
  let a0 := ctQN.a u i / baseKS ^ j % baseKS
  K.B u i a0 j - ∑ l, (K.A u i a0 j l : ℤ) * s u l

theorem phase_keySwitchStep {N qKS : ℕ} (hq : qKS ≤ 2 ^ w.bits) {K : SwitchingKey k N n qKS} {baseKS : ℕ}
    {ctQN : MKLWECiphertext k N} {ct : MKLWECiphertext k n} (h : Reduced ct) (same : ct.modulus = qKS)
    (s : Fin k → Fin n → ℕ) (u : Fin k) (i : Fin N) (j : ℕ) :
    phase s (keySwitchStep w K baseKS ctQN ct u i j) ≡
      phase s ct - keyTerm K baseKS s ctQN u i j [ZMOD qKS] := by
  subst same
  have hb := modSubFast_cast (w := w) h.b_lt (K.B_lt u i (ctQN.a u i / baseKS ^ j % baseKS) j) hq
  have ha : (∑ v, ∑ l, ((keySwitchStep w K baseKS ctQN ct u i j).a v l : ℤ) * s v l) ≡
      ∑ v, ((∑ l, (ct.a v l : ℤ) * s v l) -
        if u = v then ∑ l, (K.A u i (ctQN.a u i / baseKS ^ j % baseKS) j l : ℤ) * s u l else 0)
      [ZMOD ct.modulus] := by
    refine Int.ModEq.sum fun v _ => ?_
    by_cases party : v = u
    · subst party
      rw [if_pos rfl, ← Finset.sum_sub_distrib]
      refine Int.ModEq.sum fun l _ => ?_
      rw [← sub_mul]
      simp only [keySwitchStep, if_true]
      exact (modSubFast_cast (h.a_lt v l) (K.A_lt _ _ _ _ _) hq).mul_right _
    · rw [if_neg (Ne.symm party), sub_zero]
      simp only [keySwitchStep, if_neg party]
      rfl
  refine (hb.sub ha).trans ?_
  rw [Finset.sum_sub_distrib, Finset.sum_ite_eq, if_pos (Finset.mem_univ u), phase, keyTerm]
  rw [show ∀ a b c d : ℤ, a - b - (c - d) = a - c - (b - d) from fun a b c d => by ring]

theorem phase_keySwitchDigits {N qKS : ℕ} (hq : qKS ≤ 2 ^ w.bits) (K : SwitchingKey k N n qKS)
    (baseKS digitCount : ℕ) (s : Fin k → Fin n → ℕ) (ctQN : MKLWECiphertext k N) (u : Fin k) (i : Fin N)
    {ct : MKLWECiphertext k n} (h : Reduced ct ∧ ct.modulus = qKS) :
    let next := (List.range digitCount).foldl (fun ct j => keySwitchStep w K baseKS ctQN ct u i j) ct
    (Reduced next ∧ next.modulus = qKS) ∧
      phase s next ≡ phase s ct + ((List.range digitCount).map fun j => -keyTerm K baseKS s ctQN u i j).sum
        [ZMOD qKS] := by
  refine Run.foldl_modEq (fun ct => Reduced ct ∧ ct.modulus = qKS) (phase s) _ ?_ _ h
  rintro ct j ⟨reduced, same⟩
  rw [← sub_eq_add_neg]
  exact ⟨keySwitchStep_reduced hq K baseKS ctQN reduced same u i j,
    phase_keySwitchStep hq reduced same s u i j⟩

theorem phase_keySwitch {N qKS : ℕ} (hpos : 0 < qKS) (hq : qKS ≤ 2 ^ w.bits) (K : SwitchingKey k N n qKS)
    (baseKS digitCount : ℕ) (s : Fin k → Fin n → ℕ) {ctQN : MKLWECiphertext k N} (hb : ctQN.b < qKS) :
    phase s (keySwitch w K baseKS digitCount ctQN) ≡
      ctQN.b - ∑ u, ∑ i, ((List.range digitCount).map fun j => keyTerm K baseKS s ctQN u i j).sum
      [ZMOD qKS] := by
  let terms (u : Fin k) (i : Fin N) : ℤ := ((List.range digitCount).map fun j => -keyTerm K baseKS s ctQN u i j).sum
  obtain ⟨-, total⟩ := Run.foldl_modEq (fun ct => Reduced ct ∧ ct.modulus = qKS) (phase s)
    (fun x => terms x.1 x.2)
    (fun ct x h => phase_keySwitchDigits hq K baseKS digitCount s ctQN x.1 x.2 h) (Run.gridIndices k N)
    (s := { a := fun _ _ => 0, b := ctQN.b, modulus := qKS }) ⟨⟨fun _ _ => hpos, hb⟩, rfl⟩
  have negated : ∀ u i, terms u i = -((List.range digitCount).map fun j => keyTerm K baseKS s ctQN u i j).sum := by
    intro u i
    rw [List.sum_neg, List.map_map]
    rfl
  rw [Run.sum_gridIndices k N terms] at total
  refine total.trans ?_
  simp [negated, phase, sub_eq_add_neg, Int.ModEq.refl]

/-! ### Decryption -/

/-- What the word can hold: the loop of `Decrypt` reduces only after each party. -/
def InnerFits (w : NativeSize) (mod : ℕ) (s : Fin k → Fin n → ℕ) : Prop :=
  ∀ u, (1 + ∑ i, s u i) * (mod - 1) < 2 ^ w.bits

theorem innerProduct_eq {ct : MKLWECiphertext k n} {s : Fin k → Fin n → ℕ} {keyModulus : ℕ}
    (h : Reduced ct) (h2 : 2 ≤ ct.modulus) (hm : ct.modulus ≤ 2 ^ w.bits) (hkey : 2 ≤ keyModulus)
    (bit : ∀ u i, s u i = 0 ∨ s u i = 1) (fits : InnerFits w ct.modulus s) :
    innerProduct w keyModulus s ct = (∑ u, ∑ i, ct.a u i * s u i) % ct.modulus := by
  have same : ∀ u, (fun i => switchModulus w keyModulus ct.modulus (s u i)) = s u := fun u =>
    funext fun i => switchModulus_bit (bit u i) hkey h2
  have party : ∀ u inner, inner < ct.modulus →
      addProducts w ct.modulus (ct.a u) (s u) inner = inner + ∑ i, ct.a u i * s u i := fun u inner hlt => by
    refine addProducts_eq h2 hm (h.a_lt u) (bit u) ?_
    calc inner + ∑ i, ct.a u i * s u i ≤ (ct.modulus - 1) + ∑ i, (ct.modulus - 1) * s u i :=
          Nat.add_le_add (Nat.le_sub_one_of_lt hlt) (Finset.sum_le_sum fun i _ =>
            Nat.mul_le_mul_right (s u i) (Nat.le_sub_one_of_lt (h.a_lt u i)))
      _ = (1 + ∑ i, s u i) * (ct.modulus - 1) := by rw [← Finset.mul_sum]; ring
      _ < 2 ^ w.bits := fits u
  rw [innerProduct, Fin.sum_univ_def]
  simp only [same]
  suffices H : ∀ (l : List (Fin k)) (inner : ℕ), inner < ct.modulus →
      l.foldl (fun inner u => addProducts w ct.modulus (ct.a u) (s u) inner % ct.modulus) inner =
        (inner + (l.map fun u => ∑ i, ct.a u i * s u i).sum) % ct.modulus by
    rw [H _ 0 (by omega), zero_add]
  intro l
  induction l with
  | nil =>
    intro inner hlt
    simp [Nat.mod_eq_of_lt hlt]
  | cons u rest ih =>
    intro inner hlt
    rw [List.foldl_cons, party u inner hlt, ih _ (Nat.mod_lt _ (by omega)), List.map_cons, List.sum_cons,
      Nat.mod_add_mod, add_assoc]

/-- A phase near a quarter of the circle decrypts to that quarter. -/
theorem decrypt_eq {ct : MKLWECiphertext k n} {s : Fin k → Fin n → ℕ} {keyModulus m : ℕ} {ε : ℚ}
    (h : Reduced ct) (h2 : 2 ≤ ct.modulus) (hm : ¬ modulusTooLarge w ct.modulus) (hkey : 2 ≤ keyModulus)
    (bit : ∀ u i, s u i = 0 ∨ s u i = 1) (fits : InnerFits w ct.modulus s) (hm4 : m < 4)
    (near : Near ct.modulus ε (phase s ct) (m * ct.modulus / 4)) (small : ε + 1 < ct.modulus / 8) :
    decrypt w keyModulus s ct 4 = .ok m := by
  have hlt := lt_of_not_tooLarge hm
  have hinner : innerProduct w keyModulus s ct < ct.modulus := by
    rw [innerProduct_eq h h2 (by omega) hkey bit fits]
    exact Nat.mod_lt _ (by omega)
  have hphase : ((modSubFast w ct.b (innerProduct w keyModulus s ct) ct.modulus : ℕ) : ℤ) ≡
      phase s ct [ZMOD ct.modulus] := by
    refine (modSubFast_cast h.b_lt hinner (by omega)).trans ((Int.ModEq.refl _).sub ?_)
    rw [innerProduct_eq h h2 (by omega) hkey bit fits, Int.natCast_mod]
    push_cast
    exact Int.mod_modEq _ _
  have shifted : Near ct.modulus (ε + 1) (phase s ct + (ct.modulus / (4 * 2) : ℕ))
      (m * ct.modulus / 4 + ct.modulus / 8) := near.add (floor_near ct.modulus (by omega) _)
  rw [decrypt, if_neg (by simp), setModulus, if_neg hm]
  exact congrArg Except.ok (decode_near hm (modSubFast_lt h.b_lt hinner (by omega)) (by omega) hphase hm4 shifted
    small)

end MKLWE
end MultiKeyFHE
