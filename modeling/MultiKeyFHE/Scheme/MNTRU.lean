import MultiKeyFHE.Scheme.Rounding
import MultiKeyFHE.Library.Run
import Mathlib.Tactic.LinearCombination

/-!
# The multi-key matrix NTRU scheme

`MNTRUEncryptionScheme` of `mntru-pke.cpp`. A ciphertext is one vector for each party and has no second part:
its phase is `sum_u <c_u, F_u[.][0]>`, the first columns of the secret matrices read as centered numbers.
-/

namespace MultiKeyFHE
open NativeInteger NativeVector Circle

/-- `MNTRUCiphertextImpl`. Every constructor but `Encrypt` leaves the plaintext modulus at four. -/
@[ext]
structure MNTRUCiphertext (k n : ℕ) where
  elements : Fin k → Fin n → ℕ
  modulus : ℕ
  p : ℕ := 4

/-- `MNTRUPrivateKeyImpl`: the matrices of all parties and `m_k`, a member of its own. -/
@[ext]
structure MNTRUPrivateKey (parties n : ℕ) where
  F : Fin parties → Fin n → Fin n → ℕ
  F_inv : Fin parties → Fin n → Fin n → ℕ
  modulus : ℕ
  k : ℕ

namespace MNTRU
variable {k n : ℕ}

abbrev ofMatrices (F F_inv : Fin k → Fin n → Fin n → ℕ) (modulus : ℕ) : MNTRUPrivateKey k n := ⟨F, F_inv, modulus, k⟩

structure Reduced (ct : MNTRUCiphertext k n) : Prop where
  lt : ∀ u i, ct.elements u i < ct.modulus

def copy (ct : MNTRUCiphertext k n) : MNTRUCiphertext k n := { ct with p := 4 }

/-- `GetF_inv_coli`: the loop runs to `m_k` and reads one matrix for each index. -/
def getF_inv_coli (sk : MNTRUPrivateKey k n) (index : Fin n) : Except Fault (Fin sk.k → Fin n → ℕ) :=
  if h : sk.k ≤ k then .ok fun i j => sk.F_inv (Fin.castLE h i) j index else .error .outOfRange

def getF_col0 [NeZero n] (sk : MNTRUPrivateKey k n) : Except Fault (Fin sk.k → Fin n → ℕ) :=
  if h : sk.k ≤ k then .ok fun i j => sk.F (Fin.castLE h i) j 0 else .error .outOfRange

variable (w : NativeSize)

def evalAddEq (ct1 ct2 : MNTRUCiphertext k n) : Except Fault (MNTRUCiphertext k n) :=
  if ct1.modulus ≠ ct2.modulus then
    .error (.mathError "ModAddEq called on NativeVectorT's with different parameters.")
  else .ok { ct1 with elements := fun u i => modAddFast w (ct1.elements u i) (ct2.elements u i) ct1.modulus }

def evalSubEq (ct1 ct2 : MNTRUCiphertext k n) : Except Fault (MNTRUCiphertext k n) :=
  if ct1.modulus ≠ ct2.modulus then
    .error (.mathError "ModSubEq called on NativeVectorT's with different parameters.")
  else .ok { ct1 with elements := fun u i => modSubFast w (ct1.elements u i) (ct2.elements u i) ct1.modulus }

def modSwitch (round : FloorRound) (q : ℕ) (ctQ : MNTRUCiphertext k n) : Except Fault (MNTRUCiphertext k n) :=
  .ok { elements := fun u i => roundqQ round (ctQ.elements u i) q ctQ.modulus, modulus := q }

/-- The double loop of `Encrypt` and `ctGateGen` over the parties and the columns of `F_inv`. -/
def maskRows (sk : MNTRUPrivateKey k n) (mod : ℕ) (e : Fin sk.k → Fin n → ℕ) :
    Except Fault (Fin sk.k → Fin n → ℕ) := do
  if h : sk.k ≤ k then
    return fun i j => modMulSum w mod (e i) fun l => switchModulus w sk.modulus mod (sk.F_inv (Fin.castLE h i) l j)
  else throw .outOfRange

/-- The first entry of the first error vector takes the message. -/
def addMessage {parties : ℕ} (mod message : ℕ) (e : Fin parties → Fin n → ℕ) : Fin parties → Fin n → ℕ :=
  fun i l => if i.val = 0 ∧ l.val = 0 then modAddFast w (e i l) message mod else e i l

/-- `Encrypt` with the drawn error vectors `e`. The guard compares with `mod & (1 == 0)`, which is zero. -/
def encrypt (sk : MNTRUPrivateKey k n) (e : Fin sk.k → Fin n → ℕ) (m : ℤ) (p mod : ℕ) :
    Except Fault (MNTRUCiphertext sk.k n) := do
  if mod % p ≠ 0 ∧ mod &&& (if 1 = 0 then 1 else 0) ≠ 0 then
    throw (.notImplementedError
      "ERROR: ciphertext modulus q needs to be divisible by plaintext modulus p.")
  setModulus w mod
  let c ← maskRows w sk mod (addMessage w mod (NativeInteger.mul w (asUnsigned m % p) (mod / p)) e)
  return { elements := c, modulus := mod, p := p }

/-- `BinFHEContext::Encrypt`: the modulus zero stands for the `q` of the parameters. -/
def encryptModulus (q mod : ℕ) : ℕ := if mod = 0 then q else mod

def contextEncrypt (q : ℕ) (sk : MNTRUPrivateKey k n) (e : Fin sk.k → Fin n → ℕ) (m : ℤ) (p mod : ℕ) :
    Except Fault (MNTRUCiphertext sk.k n) := encrypt w sk e m p (encryptModulus q mod)

def innerProduct [NeZero n] (sk : MNTRUPrivateKey k n) (ct : MNTRUCiphertext k n) : Except Fault ℕ := do
  let F_col0 ← getF_col0 sk
  if h : sk.k ≤ k then
    return (List.finRange sk.k).foldl (fun inner i =>
      modAdd w inner (modMulSum w ct.modulus (ct.elements (Fin.castLE h i)) fun j =>
        switchModulus w sk.modulus ct.modulus (F_col0 i j)) ct.modulus) 0
  else throw .outOfRange

/-- `Decrypt` and `Decrypt2` differ in the shift they add. -/
def decryptShifted [NeZero n] (sk : MNTRUPrivateKey k n) (ct : MNTRUCiphertext k n) (p shift : ℕ) :
    Except Fault ℕ := do
  if ct.modulus % (p * 2) ≠ 0 ∧ ct.modulus &&& (if 1 = 0 then 1 else 0) ≠ 0 then
    throw (.notImplementedError
      "ERROR: ciphertext modulus q needs to be divisible by plaintext modulus p*2.")
  let inner ← innerProduct w sk ct
  return decode w ct.modulus p shift inner

def decrypt [NeZero n] (sk : MNTRUPrivateKey k n) (ct : MNTRUCiphertext k n) (p : ℕ) : Except Fault ℕ :=
  decryptShifted w sk ct p (ct.modulus / p)

def decrypt2 [NeZero n] (sk : MNTRUPrivateKey k n) (ct : MNTRUCiphertext k n) (p : ℕ) : Except Fault ℕ :=
  decryptShifted w sk ct p (ct.modulus / (p * 2))

/-- `MNTRUSwitchingKey2Impl` modulo `qKS`: the entries `[u][digit][l]`, a multiple of the row for each digit. -/
structure SwitchingKey2 (k n qKS : ℕ) where
  elements : Fin k → ℕ → ℕ → Fin n → ℕ
  elements_lt : ∀ u digit l i, elements u digit l i < qKS

/-- The body of the loop over `l = i * digitCount + j` of `KeySwitch2`. -/
def keySwitch2Step {N qKS : ℕ} (K : SwitchingKey2 k n qKS) (baseKS digitCount : ℕ) (ctQN : MNTRUCiphertext k N)
    (u : Fin k) (c : Fin n → ℕ) (x : Fin N × Fin digitCount) : Fin n → ℕ :=
  let index := ctQN.elements u x.1 / baseKS ^ x.2.val % baseKS
  if index ≠ 0 then fun i => modAddFast w (c i) (K.elements u index (x.1.val * digitCount + x.2.val) i) qKS else c

def keySwitch2 {N qKS : ℕ} (K : SwitchingKey2 k n qKS) (baseKS digitCount : ℕ) (ctQN : MNTRUCiphertext k N) :
    MNTRUCiphertext k n :=
  { elements := fun u => (Run.gridIndices N digitCount).foldl (keySwitch2Step w K baseKS digitCount ctQN u) fun _ => 0
    modulus := qKS }

variable {w}

/-! ### Phases -/

def phase [NeZero n] (sk : MNTRUPrivateKey k n) (ct : MNTRUCiphertext k n) : ℤ :=
  ∑ u, ∑ i, (ct.elements u i : ℤ) * centered sk.modulus (sk.F u i 0)

/-- What `KeyGen` leaves: reduced matrices, the inverses modulo the key modulus, and `m_k` their number. -/
structure Generated [NeZero n] (sk : MNTRUPrivateKey k n) : Prop where
  count : sk.k = k
  F_lt : ∀ u i j, sk.F u i j < sk.modulus
  F_inv_lt : ∀ u i j, sk.F_inv u i j < sk.modulus
  inverse : ∀ u l, (∑ j, (sk.F_inv u l j : ℤ) * sk.F u j 0) ≡ (if l = 0 then 1 else 0) [ZMOD sk.modulus]

section Linear
variable [NeZero n] (sk : MNTRUPrivateKey k n) {ct1 ct2 : MNTRUCiphertext k n}

theorem evalAddEq_ok (same : ct1.modulus = ct2.modulus) (h1 : Reduced ct1) (h2 : Reduced ct2)
    (hm : ¬ modulusTooLarge w ct1.modulus) :
    ∃ ct, evalAddEq w ct1 ct2 = .ok ct ∧ Reduced ct ∧ ct.modulus = ct1.modulus ∧ ct.p = ct1.p ∧
      phase sk ct ≡ phase sk ct1 + phase sk ct2 [ZMOD ct1.modulus] := by
  have hlt := lt_of_not_tooLarge hm
  rw [evalAddEq, if_neg (not_not.mpr same)]
  refine ⟨_, rfl, ⟨fun u i => modAddFast_lt (h1.lt u i) (same ▸ h2.lt u i) (by omega)⟩, rfl, rfl, ?_⟩
  unfold phase
  rw [← Finset.sum_add_distrib]
  refine Int.ModEq.sum fun u _ => ?_
  rw [← Finset.sum_add_distrib]
  refine Int.ModEq.sum fun i _ => ?_
  rw [← add_mul]
  exact (modAddFast_cast (h1.lt u i) (same ▸ h2.lt u i) (by omega)).mul_right _

theorem evalSubEq_ok (same : ct1.modulus = ct2.modulus) (h1 : Reduced ct1) (h2 : Reduced ct2)
    (hm : ¬ modulusTooLarge w ct1.modulus) :
    ∃ ct, evalSubEq w ct1 ct2 = .ok ct ∧ Reduced ct ∧ ct.modulus = ct1.modulus ∧ ct.p = ct1.p ∧
      phase sk ct ≡ phase sk ct1 - phase sk ct2 [ZMOD ct1.modulus] := by
  have hlt := lt_of_not_tooLarge hm
  rw [evalSubEq, if_neg (not_not.mpr same)]
  refine ⟨_, rfl, ⟨fun u i => modSubFast_lt (h1.lt u i) (same ▸ h2.lt u i) (by omega)⟩, rfl, rfl, ?_⟩
  unfold phase
  rw [← Finset.sum_sub_distrib]
  refine Int.ModEq.sum fun u _ => ?_
  rw [← Finset.sum_sub_distrib]
  refine Int.ModEq.sum fun i _ => ?_
  rw [← sub_mul]
  exact (modSubFast_cast (h1.lt u i) (same ▸ h2.lt u i) (by omega)).mul_right _

end Linear

theorem modSwitch_ok (round : FloorRound) {q : ℕ} (hpos : 0 < q) (ctQ : MNTRUCiphertext k n) :
    ∃ ct, modSwitch round q ctQ = .ok ct ∧ Reduced ct ∧ ct.modulus = q :=
  ⟨_, rfl, ⟨fun _ _ => Nat.mod_lt _ hpos⟩, rfl⟩

theorem modSwitch_values {round : FloorRound} {q : ℕ} {ctQ ct : MNTRUCiphertext k n}
    (run : modSwitch round q ctQ = .ok ct) (u : Fin k) (i : Fin n) :
    ct.elements u i = roundqQ round (ctQ.elements u i) q ctQ.modulus := by
  cases run
  rfl

theorem keySwitch2Step_lt {N qKS : ℕ} (hq : 2 * qKS ≤ 2 ^ w.bits) (K : SwitchingKey2 k n qKS)
    (baseKS digitCount : ℕ) (ctQN : MNTRUCiphertext k N) (u : Fin k) {c : Fin n → ℕ} (small : ∀ i, c i < qKS)
    (x : Fin N × Fin digitCount) (i : Fin n) : keySwitch2Step w K baseKS digitCount ctQN u c x i < qKS := by
  unfold keySwitch2Step
  split
  · exact modAddFast_lt (small i) (K.elements_lt _ _ _ _) (by omega)
  · exact small i

theorem keySwitch2_reduced {N qKS : ℕ} (hpos : 0 < qKS) (hq : 2 * qKS ≤ 2 ^ w.bits) (K : SwitchingKey2 k n qKS)
    (baseKS digitCount : ℕ) (ctQN : MNTRUCiphertext k N) : Reduced (keySwitch2 w K baseKS digitCount ctQN) := by
  constructor
  intro u
  apply List.foldlRecOn (motive := fun c : Fin n → ℕ => ∀ i, c i < qKS)
  · intro _
    exact hpos
  · intro c small x _ i
    exact keySwitch2Step_lt hq K baseKS digitCount ctQN u small x i

theorem keySwitch2_modEq {N qKS : ℕ} (hpos : 0 < qKS) (hq : 2 * qKS ≤ 2 ^ w.bits) {K : SwitchingKey2 k n qKS}
    (zero : ∀ u l i, K.elements u 0 l i = 0) (baseKS digitCount : ℕ) (ctQN : MNTRUCiphertext k N) (u : Fin k)
    (i : Fin n) :
    (((keySwitch2 w K baseKS digitCount ctQN).elements u i : ℕ) : ℤ) ≡
      ∑ x : Fin N, ∑ j : Fin digitCount,
        (K.elements u (ctQN.elements u x / baseKS ^ j.val % baseKS) (x.val * digitCount + j.val) i : ℤ) [ZMOD qKS] := by
  let row : Fin N × Fin digitCount → ℤ := fun x =>
    (K.elements u (ctQN.elements u x.1 / baseKS ^ x.2.val % baseKS) (x.1.val * digitCount + x.2.val) i : ℤ)
  have once : ∀ (c : Fin n → ℕ) x, (∀ i, c i < qKS) →
      (∀ i, keySwitch2Step w K baseKS digitCount ctQN u c x i < qKS) ∧
        ((keySwitch2Step w K baseKS digitCount ctQN u c x i : ℕ) : ℤ) ≡ c i + row x [ZMOD qKS] := by
    intro c x small
    refine ⟨keySwitch2Step_lt hq K baseKS digitCount ctQN u small x, ?_⟩
    unfold keySwitch2Step
    dsimp only [row]
    split
    · exact modAddFast_cast (small i) (K.elements_lt _ _ _ _) hq
    · -- A zero digit is skipped, and the key's row for it is zero.
      rename_i skipped
      rw [not_not.mp skipped, zero, Nat.cast_zero, add_zero]
  obtain ⟨-, total⟩ := Run.foldl_modEq (fun c : Fin n → ℕ => ∀ i, c i < qKS) (fun c => (c i : ℤ)) row once
    (Run.gridIndices N digitCount) (s := fun _ => 0) fun _ => hpos
  rw [Run.sum_gridIndices N digitCount fun x j => row (x, j), Nat.cast_zero, zero_add] at total
  exact total

/-! ### Encryption and decryption -/

section Keys
variable [NeZero n] {sk : MNTRUPrivateKey k n}

theorem innerProduct_ok (generated : Generated sk) {ct : MNTRUCiphertext k n} (h : Reduced ct)
    (h2 : 2 ≤ ct.modulus) (hm : ¬ modulusTooLarge w ct.modulus) (hkey : ¬ modulusTooLarge w sk.modulus) :
    ∃ inner, innerProduct w sk ct = .ok inner ∧ inner < ct.modulus ∧
      (inner : ℤ) ≡ phase sk ct [ZMOD ct.modulus] := by
  obtain ⟨F, F_inv, keyModulus, k'⟩ := sk
  obtain ⟨count, F_lt, -, -⟩ := generated
  dsimp only at count
  subst count
  have hlt := lt_of_not_tooLarge hm
  have hlt' := lt_of_not_tooLarge hkey
  dsimp only at F_lt hlt'
  let f : Fin k' → Fin n → ℕ := fun u j => switchModulus w keyModulus ct.modulus (F u j 0)
  have f_lt : ∀ u j, f u j < ct.modulus := fun u j => switchModulus_lt (F_lt u j 0) (by omega) (by omega)
  have party : ∀ u, ((modMulSum w ct.modulus (ct.elements u) (f u) : ℕ) : ℤ) ≡
      ∑ i, (ct.elements u i : ℤ) * centered keyModulus (F u i 0) [ZMOD ct.modulus] := by
    intro u
    refine (modMulSum_modEq h2 hm (h.lt u) (f_lt u)).2.trans (Int.ModEq.sum fun i _ => ?_)
    exact (switchModulus_cast (F_lt u i 0) (by omega) (by omega)).mul_left _
  have once : ∀ inner u, inner < ct.modulus →
      modAdd w inner (modMulSum w ct.modulus (ct.elements u) (f u)) ct.modulus < ct.modulus ∧
        ((modAdd w inner (modMulSum w ct.modulus (ct.elements u) (f u)) ct.modulus : ℕ) : ℤ) ≡
          inner + ∑ i, (ct.elements u i : ℤ) * centered keyModulus (F u i 0) [ZMOD ct.modulus] := by
    intro inner u _
    rw [modAdd_eq (by omega) (by omega), Int.natCast_mod]
    push_cast
    exact ⟨Nat.mod_lt _ (by omega), (Int.mod_modEq _ _).trans ((party u).add_left _)⟩
  -- The accumulated value is the phase of the parties that are done.
  obtain ⟨small, total⟩ := Run.foldl_modEq (· < ct.modulus) (fun inner : ℕ => (inner : ℤ)) _ once (List.finRange k')
    (show 0 < ct.modulus by omega)
  refine ⟨_, ?_, small, total.trans ?_⟩
  · simp only [innerProduct, getF_col0, le_refl, dite_true]
    rfl
  · rw [Nat.cast_zero, zero_add, ← Fin.sum_univ_def]
    exact Int.ModEq.refl _

theorem decryptShifted_eq (generated : Generated sk) {ct : MNTRUCiphertext k n} (h : Reduced ct)
    (h2 : 2 ≤ ct.modulus) (hm : ¬ modulusTooLarge w ct.modulus) (hkey : ¬ modulusTooLarge w sk.modulus)
    {m shift : ℕ} {ε : ℚ} (hm4 : m < 4) (hshift : shift < ct.modulus)
    (near : Near ct.modulus ε (phase sk ct + shift) (m * ct.modulus / 4 + ct.modulus / 8))
    (small : ε < ct.modulus / 8) : decryptShifted w sk ct 4 shift = .ok m := by
  obtain ⟨inner, run, lt, same⟩ := innerProduct_ok generated h h2 hm hkey
  rw [decryptShifted, if_neg (by simp)]
  simp only [run, bind, Except.bind, pure, Except.pure]
  rw [decode_near hm lt hshift same hm4 near small]

/-- The first column of `F` undoes the rows of `F_inv` modulo `mod`, both read as centered numbers. -/
def InverseModulo (sk : MNTRUPrivateKey k n) (mod : ℕ) : Prop :=
  ∀ u l, (∑ j, centered sk.modulus (sk.F_inv u l j) * centered sk.modulus (sk.F u j 0)) ≡ (if l = 0 then 1 else 0)
    [ZMOD mod]

theorem Generated.inverseModulo (generated : Generated sk) {mod : ℕ} (dvd : mod ∣ sk.modulus) :
    InverseModulo sk mod := by
  intro u l
  refine Int.ModEq.of_dvd (Int.natCast_dvd_natCast.mpr dvd) (Int.ModEq.trans ?_ (generated.inverse u l))
  exact Int.ModEq.sum fun j _ => (centered_modEq _ _).mul (centered_modEq _ _)

theorem maskRows_ok (generated : Generated sk) {mod : ℕ} (inverse : InverseModulo sk mod) (h2 : 2 ≤ mod)
    (hm : ¬ modulusTooLarge w mod) (hkey : ¬ modulusTooLarge w sk.modulus) {e : Fin sk.k → Fin n → ℕ}
    (small : ∀ i l, e i l < mod) :
    ∃ c, maskRows w sk mod e = .ok c ∧ (∀ i j, c i j < mod) ∧
      (∑ i, ∑ j, (c i j : ℤ) * centered sk.modulus (sk.F (Fin.cast generated.count i) j 0)) ≡ ∑ i, (e i 0 : ℤ)
        [ZMOD mod] := by
  obtain ⟨F, F_inv, modulus, k'⟩ := sk
  obtain ⟨count, F_lt, F_inv_lt, -⟩ := generated
  dsimp only at count
  subst count
  have hlt := lt_of_not_tooLarge hm
  have hlt' := lt_of_not_tooLarge hkey
  dsimp only at *
  let f : Fin k' → Fin n → Fin n → ℕ := fun i l j => switchModulus w modulus mod (F_inv i l j)
  have f_lt : ∀ i l j, f i l j < mod := fun i l j => switchModulus_lt (F_inv_lt i l j) (by omega) (by omega)
  have f_cast : ∀ i l j, (f i l j : ℤ) ≡ centered modulus (F_inv i l j) [ZMOD mod] := fun i l j =>
    switchModulus_cast (F_inv_lt i l j) (by omega) (by omega)
  refine ⟨fun i j => modMulSum w mod (e i) fun l => f i l j, ?_, fun i j => ?_, ?_⟩
  · simp only [maskRows, le_refl, dite_true]
    rfl
  · exact (modMulSum_modEq h2 hm (small _) fun _ => f_lt _ _ _).1
  · refine Int.ModEq.sum fun i _ => ?_
    have entry : ∀ j, ((modMulSum w mod (e i) (fun l => f i l j) : ℕ) : ℤ) * centered modulus (F i j 0) ≡
        ∑ l, (e i l : ℤ) * (centered modulus (F_inv i l j) * centered modulus (F i j 0)) [ZMOD mod] := by
      intro j
      obtain ⟨-, product⟩ := modMulSum_modEq h2 hm (small i) fun l => f_lt i l j
      refine (product.mul_right _).trans ?_
      rw [Finset.sum_mul]
      refine Int.ModEq.sum fun l _ => ?_
      rw [mul_assoc]
      exact ((f_cast i l j).mul_right _).mul_left _
    refine (Int.ModEq.sum fun j _ => entry j).trans ?_
    rw [Finset.sum_comm]
    have row : ∀ l, (∑ j, (e i l : ℤ) * (centered modulus (F_inv i l j) * centered modulus (F i j 0))) ≡
        (e i l : ℤ) * (if l = 0 then 1 else 0) [ZMOD mod] := by
      intro l
      rw [← Finset.mul_sum]
      exact (inverse i l).mul_left _
    refine (Int.ModEq.sum fun l _ => row l).trans ?_
    simp [Int.ModEq.refl]

end Keys

section Messages
variable [NeZero n] [NeZero k] {F F_inv : Fin k → Fin n → Fin n → ℕ} {modulus mod : ℕ}

theorem maskRows_message (generated : Generated (ofMatrices F F_inv modulus))
    (inverse : InverseModulo (ofMatrices F F_inv modulus) mod) (h2 : 2 ≤ mod) (hm : ¬ modulusTooLarge w mod)
    (hkey : ¬ modulusTooLarge w modulus) {e : Fin k → Fin n → ℕ} (small : ∀ i l, e i l < mod) {message : ℕ}
    (hmessage : message < mod) :
    ∃ c : Fin k → Fin n → ℕ, maskRows w (ofMatrices F F_inv modulus) mod (addMessage w mod message e) = .ok c ∧
      ∀ p, Reduced ⟨c, mod, p⟩ ∧
        phase (ofMatrices F F_inv modulus) ⟨c, mod, p⟩ ≡ message + ∑ u, (e u 0 : ℤ) [ZMOD mod] := by
  have hlt := lt_of_not_tooLarge hm
  have small' : ∀ i l, addMessage w mod message e i l < mod := by
    intro i l
    unfold addMessage
    split
    · exact modAddFast_lt (small i l) hmessage (by omega)
    · exact small i l
  obtain ⟨c, run, c_lt, total⟩ := maskRows_ok generated inverse h2 hm hkey small'
  have entry : ∀ u : Fin k, ((addMessage w mod message e u 0 : ℕ) : ℤ) ≡
      (if u = 0 then (message : ℤ) else 0) + e u 0 [ZMOD mod] := by
    intro u
    unfold addMessage
    by_cases first : u = 0
    · subst first
      rw [if_pos ⟨Fin.val_zero _, Fin.val_zero _⟩, if_pos rfl, add_comm]
      exact modAddFast_cast (small 0 0) hmessage (by omega)
    · rw [if_neg (fun h => first (Fin.ext (h.1.trans (Fin.val_zero _).symm))), if_neg first, zero_add]
  have errors : (∑ u : Fin k, ((addMessage w mod message e u 0 : ℕ) : ℤ)) ≡ message + ∑ u, (e u 0 : ℤ) [ZMOD mod] := by
    refine (Int.ModEq.sum fun u _ => entry u).trans ?_
    rw [Finset.sum_add_distrib, Finset.sum_ite_eq' Finset.univ 0, if_pos (Finset.mem_univ _)]
  exact ⟨c, run, fun p => ⟨⟨c_lt⟩, total.trans errors⟩⟩

theorem encrypt_ok (generated : Generated (ofMatrices F F_inv modulus))
    (inverse : InverseModulo (ofMatrices F F_inv modulus) mod) (h2 : 2 ≤ mod) (hm : ¬ modulusTooLarge w mod)
    (hkey : ¬ modulusTooLarge w modulus) {e : Fin k → Fin n → ℕ} (small : ∀ i l, e i l < mod) (m : ℤ) {p : ℕ}
    (hp : 0 < p) :
    ∃ ct : MNTRUCiphertext k n, encrypt w (ofMatrices F F_inv modulus) e m p mod = .ok ct ∧ Reduced ct ∧
      ct.modulus = mod ∧ ct.p = p ∧
      phase (ofMatrices F F_inv modulus) ct ≡ (asUnsigned m % p * (mod / p) : ℕ) + ∑ u, (e u 0 : ℤ) [ZMOD mod] := by
  have hlt := lt_of_not_tooLarge hm
  have hmessage : asUnsigned m % p * (mod / p) < mod := by
    have last := Nat.mod_lt (asUnsigned m) hp
    rcases Nat.eq_zero_or_pos (mod / p) with zero | pos
    · rw [zero, Nat.mul_zero]
      omega
    · calc asUnsigned m % p * (mod / p) < p * (mod / p) := Nat.mul_lt_mul_of_pos_right last pos
        _ ≤ mod := Nat.mul_div_le mod p
  have scaled : NativeInteger.mul w (asUnsigned m % p) (mod / p) = asUnsigned m % p * (mod / p) := by
    rw [NativeInteger.mul, wrap_of_lt (by omega)]
  obtain ⟨c, run, facts⟩ := maskRows_message generated inverse h2 hm hkey small hmessage
  refine ⟨⟨c, mod, p⟩, ?_, (facts p).1, rfl, rfl, (facts p).2⟩
  have guard : ¬ (mod % p ≠ 0 ∧ mod &&& (if 1 = 0 then 1 else 0) ≠ 0) := by simp
  unfold encrypt
  simp only [if_neg guard, setModulus, if_neg hm, scaled, run, bind, Except.bind, pure, Except.pure]

/-! ### Decryption of fresh ciphertexts -/

/-- The two roundings of `m * (mod / p) + E`. The shift `mod / (2 * p)` of `Decrypt2` brings back `m`; the shift
`mod / p` of `Decrypt`, made for gate outputs that lie half a step lower, does so only where the noise stays below
what `mod / p` cuts off. -/
theorem decode_fresh {p m inner : ℕ} {E : ℤ} (hm : ¬ modulusTooLarge w mod) (fits : p * mod < 2 ^ w.bits) (hp : 2 ≤ p)
    (hmp : m < p) (hinner : inner < mod) (hphase : (inner : ℤ) ≡ (m * (mod / p) : ℕ) + E [ZMOD mod])
    (noise : |E| ≤ (mod / (2 * p) : ℕ) - p) :
    decode w mod p (mod / (p * 2)) inner = m ∧
      decode w mod p (mod / p) inner = if (p : ℤ) * E < (m + 1) * (mod % p : ℕ) then m else (m + 1) % p := by
  have bounds := abs_le.mp noise
  obtain ⟨t, ht⟩ := hphase.symm.dvd
  have value : (inner : ℤ) = m * (mod / p : ℕ) + E + mod * t := by
    push_cast at ht ⊢
    linarith
  -- `mod` in steps of `p` and of `2 * p`.
  have whole : (p : ℤ) * (mod / p : ℕ) = mod - (mod % p : ℕ) := by
    have := Nat.div_add_mod mod p
    have : (p : ℤ) * (mod / p : ℕ) + (mod % p : ℕ) = mod := by exact_mod_cast this
    linarith
  have half : 2 * ((p : ℤ) * (mod / (2 * p) : ℕ)) ≤ mod := by
    have := Nat.mul_div_le mod (2 * p)
    have : (2 * p : ℤ) * (mod / (2 * p) : ℕ) ≤ mod := by exact_mod_cast this
    linarith
  have cut : (mod % p : ℕ) < p := Nat.mod_lt _ (by omega)
  have hp' : (0 : ℤ) < p := by omega
  have high : (p : ℤ) * E ≤ p * (mod / (2 * p) : ℕ) - p * p := by
    rw [← mul_sub]
    exact mul_le_mul_of_nonneg_left bounds.2 hp'.le
  have low : (p : ℤ) * p - p * (mod / (2 * p) : ℕ) ≤ p * E := by
    rw [← mul_sub]
    exact mul_le_mul_of_nonneg_left (by linarith [bounds.1]) hp'.le
  have drift : ∀ x : ℤ, 0 ≤ x → x ≤ p → 0 ≤ x * (mod % p : ℕ) ∧ x * (mod % p : ℕ) ≤ p * p - p := by
    intro x lo hi
    have : x * (mod % p : ℕ) ≤ p * (p - 1) := mul_le_mul hi (by omega) (by omega) (by omega)
    exact ⟨by positivity, by linarith⟩
  have hs : (0 : ℤ) ≤ p * (mod / (2 * p) : ℕ) := by positivity
  have step : mod / p < mod := Nat.div_lt_self (by omega) (by omega)
  have halfStep : mod / (2 * p) < mod := Nat.div_lt_self (by omega) (by omega)
  obtain ⟨above, below⟩ := fresh_between (by omega) hmp noise
  rw [mul_comm p 2]
  generalize (mod / (2 * p) : ℕ) = s at *
  generalize (mod / p : ℕ) = d at *
  generalize (mod % p : ℕ) = r at *
  constructor
  · have shifted : (inner : ℤ) + s - t * mod = m * d + E + s := by
      rw [value]
      ring
    exact decode_eq (t := t) hm fits hinner halfStep hmp (shifted ▸ above) (shifted ▸ below)
  · obtain ⟨lo, hi⟩ := drift (m + 1) (by omega) (by omega)
    have scaled : ∀ t', (p : ℤ) * (inner + d - t' * mod) =
        (m + 1) * mod - (m + 1) * r + p * E + p * (t - t') * mod := by
      intro t'
      rw [value]
      linear_combination (m + 1 : ℤ) * whole
    split
    · refine decode_eq (t := t) hm fits hinner step hmp ?_ ?_
      · rw [scaled, sub_self]
        linarith
      · rw [scaled, sub_self]
        linarith
    · rcases Nat.lt_or_ge (m + 1) p with next | last
      · rw [Nat.mod_eq_of_lt next]
        refine decode_eq (t := t) hm fits hinner step next ?_ ?_
        · rw [scaled, sub_self]
          push_cast
          linarith
        · rw [scaled, sub_self]
          push_cast
          linarith
      · -- The step after the last message is the first one again.
        have same : (p : ℤ) = m + 1 := by omega
        have turned : (p : ℤ) * (inner + d - (t + 1) * mod) = p * E - (m + 1) * r := by
          linear_combination scaled (t + 1) - (mod : ℤ) * same
        rw [show (m + 1) % p = 0 by rw [show m + 1 = p by omega, Nat.mod_self]]
        refine decode_eq (t := t + 1) hm fits hinner step (by omega) ?_ ?_
        · rw [turned]
          push_cast
          linarith
        · rw [turned]
          push_cast
          linarith

/-- A fresh ciphertext comes back through `Decrypt2`. `Decrypt` rounds half a step higher and gives the next message
unless the noise is low enough. The message is one that its conversion to `uint64_t` keeps modulo `p`. -/
theorem decrypt_contextEncrypt (generated : Generated (ofMatrices F F_inv modulus)) {q p : ℕ}
    (inverse : InverseModulo (ofMatrices F F_inv modulus) (encryptModulus q mod))
    (hm : ¬ modulusTooLarge w (encryptModulus q mod)) (hkey : ¬ modulusTooLarge w modulus)
    (fits : p * encryptModulus q mod < 2 ^ w.bits) (hp : 2 ≤ p) {m : ℤ} (low : -2 ^ 63 ≤ m) (kept : 0 ≤ m ∨ p ∣ 2 ^ 64)
    (z : Fin k → Fin n → ℤ)
    (noise : |∑ u, z u 0| ≤ (encryptModulus q mod / (2 * p) : ℕ) - p) :
    ∃ ct : MNTRUCiphertext k n,
      contextEncrypt w q (ofMatrices F F_inv modulus) (fun u l => residue (encryptModulus q mod) (z u l)) m p mod = .ok ct ∧
      decrypt2 w (ofMatrices F F_inv modulus) ct p = .ok (m % p).toNat ∧
      decrypt w (ofMatrices F F_inv modulus) ct p =
        .ok (if (p : ℤ) * ∑ u, z u 0 < (m % p + 1) * (encryptModulus q mod % p : ℕ) then (m % p).toNat
          else ((m % p).toNat + 1) % p) := by
  rw [asUnsigned_mod_eq low kept, Int.toNat_natCast]
  unfold contextEncrypt
  generalize encryptModulus q mod = mod at *
  have h2 : 2 ≤ mod := by
    have : 0 ≤ ((mod / (2 * p) : ℕ) : ℤ) - p := (abs_nonneg _).trans noise
    have := Nat.div_le_self mod (2 * p)
    omega
  obtain ⟨ct, run, reduced, rfl, -, phase_eq⟩ := encrypt_ok generated inverse h2 hm hkey
    (e := fun u l => residue mod (z u l)) (fun u l => residue_lt (by omega) _) m (show 0 < p by omega)
  obtain ⟨inner, product, inner_lt, inner_eq⟩ := innerProduct_ok generated reduced h2 hm hkey
  have stored : (inner : ℤ) ≡ (asUnsigned m % p * (ct.modulus / p) : ℕ) + ∑ u, z u 0 [ZMOD ct.modulus] := by
    refine (inner_eq.trans phase_eq).trans (Int.ModEq.add_left _ (Int.ModEq.sum fun u _ => ?_))
    exact residue_modEq (by omega) _
  have hmp : asUnsigned m % p < p := Nat.mod_lt _ (by omega)
  obtain ⟨fresh, gate⟩ := decode_fresh hm fits hp hmp inner_lt stored noise
  refine ⟨ct, run, ?_, ?_⟩
  · rw [decrypt2, decryptShifted, if_neg (by simp), product]
    simp only [bind, Except.bind, pure, Except.pure, fresh]
  · rw [decrypt, decryptShifted, if_neg (by simp), product]
    simp only [bind, Except.bind, pure, Except.pure, gate]

/-- One party with a number in place of the matrix and its inverse. -/
abbrev scalarKey (F F_inv modulus : ℕ) : MNTRUPrivateKey 1 1 := ofMatrices (fun _ _ _ => F) (fun _ _ _ => F_inv) modulus

theorem scalarKey_generated {F F_inv modulus : ℕ} (hF : F < modulus) (hF' : F_inv < modulus)
    (inverse : F_inv * F % modulus = 1 % modulus) : Generated (scalarKey F F_inv modulus) := by
  refine ⟨rfl, fun _ _ _ => hF, fun _ _ _ => hF', fun u l => ?_⟩
  rw [if_pos (Subsingleton.elim l 0)]
  simp only [Finset.univ_unique, Finset.sum_singleton]
  exact_mod_cast Int.natCast_modEq_iff.mpr inverse

/-- Without noise, modulo 64 with `p = 4`: `Decrypt` reads the message 1 as 2. A key whose matrices are inverse modulo 5 loses
the message in a ciphertext modulo 64, whichever way it is decrypted. And modulo 3 the message -1 comes back as 0. -/
theorem scalarKey_not_decrypted :
    (Generated (scalarKey 1 1 64) ∧ |∑ _u : Fin 1, (0 : ℤ)| ≤ (64 / (2 * 4) : ℕ) - 4 ∧
      (contextEncrypt .w64 64 (scalarKey 1 1 64) (fun _ _ => residue 64 0) 1 4 0 >>= fun ct =>
        decrypt .w64 (scalarKey 1 1 64) ct 4) = .ok 2) ∧
    (Generated (scalarKey 2 3 5) ∧ |∑ _u : Fin 1, (0 : ℤ)| ≤ (64 / (2 * 2) : ℕ) - 2 ∧
      (contextEncrypt .w64 5 (scalarKey 2 3 5) (fun _ _ => residue 64 0) 1 2 64 >>= fun ct =>
        decrypt2 .w64 (scalarKey 2 3 5) ct 2) = .ok 0) ∧
    (Generated (scalarKey 1 1 64) ∧ |∑ _u : Fin 1, (0 : ℤ)| ≤ (64 / (2 * 3) : ℕ) - 3 ∧ (-1 : ℤ) % 3 = 2 ∧
      (contextEncrypt .w64 64 (scalarKey 1 1 64) (fun _ _ => residue 64 0) (-1) 3 0 >>= fun ct =>
        decrypt2 .w64 (scalarKey 1 1 64) ct 3) = .ok 0) := by
  have generated : Generated (scalarKey 1 1 64) := scalarKey_generated (by decide) (by decide) (by decide)
  refine ⟨⟨generated, by decide, ?_⟩, ⟨scalarKey_generated (by decide) (by decide) (by decide), by decide, ?_⟩,
    ⟨generated, by decide, by decide, ?_⟩⟩
  · decide +kernel
  · decide +kernel
  · decide +kernel

/-- The message -1 modulo four, which divides `2 ^ 64`. -/
theorem scalarKey_decrypted :
    2 ≤ 4 ∧ 4 * encryptModulus 64 0 < 2 ^ 64 ∧
    ∃ ct : MNTRUCiphertext 1 1,
      contextEncrypt .w64 64 (scalarKey 1 1 64) (fun u l => residue (encryptModulus 64 0) ((fun _ _ => 1) u l)) (-1) 4 0 = .ok ct ∧
      decrypt2 .w64 (scalarKey 1 1 64) ct 4 = .ok 3 := by
  have generated : Generated (scalarKey 1 1 64) := scalarKey_generated (by decide) (by decide) (by decide)
  have inverse : InverseModulo (scalarKey 1 1 64) (encryptModulus 64 0) := generated.inverseModulo (dvd_refl 64)
  obtain ⟨ct, run, back, -⟩ := decrypt_contextEncrypt (w := .w64) (p := 4) generated inverse (by decide) (by decide)
    (by decide) (by decide) (m := -1) (by decide) (.inr (by decide)) (fun _ _ => 1) (by decide)
  exact ⟨by decide, by decide, ct, run, back⟩

end Messages

end MNTRU
end MultiKeyFHE
