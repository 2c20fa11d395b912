import MultiKeyFHE.Params.Scheme
import MultiKeyFHE.Native.WordVector
import MultiKeyFHE.Scheme.LWE
import Mathlib.Data.Matrix.Mul

/-!
# Public-key encryption

`PubKeyGen` and `EncryptN` of `lwe-pke.cpp`. The key `(A, v)` is kept modulo `Q`, and whoever encrypts names the modulus of
the ciphertext. A plaintext modulus has 64 bits in every build; the division by it takes a native word.
-/

namespace MultiKeyFHE
open NativeInteger NativeVector Matrix

/-- `LWEPublicKeyImpl`: the rows of a matrix and a vector, modulo one number. -/
structure LWEPublicKey (N : ℕ) where
  A : Fin N → Fin N → ℕ
  v : Fin N → ℕ
  modulus : ℕ

namespace LWE
variable (w : NativeSize) {N : ℕ}

/-- `PubKeyGen` with the drawn matrix and errors. -/
def pubKeyGen (Q : ℕ) (skN : LWEPrivateKey N) (A : Fin N → Fin N → ℕ) (e : Fin N → ℕ) : Except Fault (LWEPublicKey N) := do
  let mu ← computeMuChecked w Q
  return {
    A
    v := fun j => (List.finRange N).foldl
      (fun v i => modAddFast w v (modMulFastMu w (A j i) (skN.element i) Q mu) Q) (e j)
    modulus := Q }

def differentParameters : Fault := .mathError "ModAddEq called on NativeVectorT's with different parameters."

/-- `a.ModAddEq(A[j].ModMul(sp[j]))` for a vector `a` modulo `mod` and a row modulo `modulus`. -/
def addScaledRow (mod modulus : ℕ) (row : Fin N → ℕ) (scalar : ℕ) (a : Fin N → ℕ) : Except Fault (Fin N → ℕ) := do
  let bv ← WordVector.reduceScalar scalar modulus
  let bconst ← prepModMulConst w bv modulus
  if mod ≠ modulus then throw differentParameters
  return fun i => modAddFast w (a i) (modMulFastConst w (row i) bv modulus bconst) mod

/-- `EncryptN` with the drawn errors `e2` and `ep` and the drawn secret `sp`. -/
def encryptN (pk : LWEPublicKey N) (e2 : ℕ) (sp ep : Fin N → ℕ) (m : ℤ) (p mod : ℕ) : Except Fault (LWECiphertext N) := do
  if wrap w p = 0 then throw .divisionByZero
  if mod % wrap w p ≠ 0 ∧ mod &&& (if 1 = 0 then 1 else 0) ≠ 0 then
    throw (.notImplementedError
      "ERROR: ciphertext modulus q needs to be divisible by plaintext modulus p.")
  setModulus w mod
  -- `SwitchModulus` to zero takes the remainder of the old modulus
  if mod = 0 then throw .divisionByZero
  let bp := fun i => switchModulus w pk.modulus mod (pk.v i)
  let b := add w (NativeInteger.mul w (asUnsigned m % p) (mod / wrap w p)) e2
  let mu ← computeMuChecked w mod
  let a ← (List.finRange N).foldlM (fun a j => addScaledRow w mod pk.modulus (pk.A j) (sp j) a) ep
  let b := (List.finRange N).foldl (fun b i => modAdd w b (modMulFastMu w (bp i) (sp i) mod mu) mod) b
  return { a, b, modulus := mod, p }

end LWE

/-! ### Sums modulo a number that may be the largest power of two -/

namespace NativeInteger
variable {w : NativeSize}

/-- A word that an operation leaves: a residue, or any word where words are read modulo `m` without loss. -/
def Settled (w : NativeSize) (m x : ℕ) : Prop := x < m ∨ m ∣ 2 ^ w.bits

theorem largest_dvd : 2 ^ (w.maxModulusSize - 1) ∣ 2 ^ w.bits := by
  apply pow_dvd_pow
  have bits := w.bits_eq
  omega

theorem wrap_modEq {m : ℕ} (divides : m ∣ 2 ^ w.bits) (x : ℕ) : wrap w x ≡ x [MOD m] := (Nat.mod_modEq _ _).of_dvd divides

theorem modMulFastMu_settled {m a b : ℕ} (hm : ¬ modulusTooLarge w m) (ha : a < m) (hb : b < m) :
    Settled w m (modMulFastMu w a b m (computeMu w m)) ∧ modMulFastMu w a b m (computeMu w m) ≡ a * b [MOD m] := by
  rcases Nat.lt_or_ge m 2 with one | h2
  · have zero : a = 0 := by omega
    subst zero
    rw [modMulFastMu_zero (by omega), zero_mul]
    exact ⟨.inl (by omega), rfl⟩
  · refine ⟨?_, modMulFastMu_modEq h2 hm ha hb⟩
    by_cases largest : m = 2 ^ (w.maxModulusSize - 1)
    · exact .inr (largest ▸ largest_dvd)
    · exact .inl (modMulFastMu_lt h2 hm ha hb (mu_fits h2 hm largest))

theorem modAddFast_settled {m a b : ℕ} (hm : 2 * m ≤ 2 ^ w.bits) (ha : Settled w m a) (hb : Settled w m b) :
    Settled w m (modAddFast w a b m) ∧ modAddFast w a b m ≡ a + b [MOD m] := by
  unfold Settled at *
  by_cases divides : m ∣ 2 ^ w.bits
  · refine ⟨.inr divides, ?_⟩
    have word := wrap_modEq divides (a + b)
    unfold modAddFast NativeInteger.add
    dsimp only
    split
    · rename_i more
      apply Nat.ModEq.trans _ word
      exact (Nat.modEq_iff_dvd' (Nat.sub_le _ _)).mpr ⟨1, by omega⟩
    · exact word
  · simp only [divides, or_false] at ha hb ⊢
    refine ⟨modAddFast_lt ha hb (by omega), ?_⟩
    rw [modAddFast_eq ha hb hm]
    exact Nat.mod_modEq _ _

theorem switchModulus_settled {m v : ℕ} (pos : 0 < m) (hm : 2 * m ≤ 2 ^ w.bits) (hv : Settled w m v) :
    switchModulus w m m v < m ∧ switchModulus w m m v ≡ v [MOD m] := by
  have reduce : ∀ x : ℕ, (if x ≥ m then x % m else x) = x % m := by
    intro x
    split
    · rfl
    · exact (Nat.mod_eq_of_lt (by omega)).symm
  unfold switchModulus
  rw [if_neg (lt_irrefl m), Nat.mod_self, Nat.sub_zero]
  dsimp only
  rw [reduce]
  refine ⟨Nat.mod_lt _ pos, (Nat.mod_modEq _ _).trans ?_⟩
  split
  · apply Nat.ModEq.trans _ Nat.add_modEq_right
    rcases hv with below | divides
    · rw [wrap_of_lt (by omega)]
    · exact wrap_modEq divides _
  · rfl

end NativeInteger

namespace LWE
variable {w : NativeSize} {N : ℕ}

/-- The products with the matrix cancel: it acts on the secret in the key and on the other side in the mask. -/
theorem publicKey_residual {R : Type*} [CommRing R] {ι : Type*} [Fintype ι] (A : Matrix ι ι R) (s e r f : ι → R) (b : R) :
    b + (e + A *ᵥ s) ⬝ᵥ r - (f + r ᵥ* A) ⬝ᵥ s = b + e ⬝ᵥ r - f ⬝ᵥ s := by
  have moved : (A *ᵥ s) ⬝ᵥ r = (r ᵥ* A) ⬝ᵥ s := by rw [dotProduct_comm, dotProduct_mulVec]
  rw [add_dotProduct, add_dotProduct, moved]
  ring

/-! ### The loops -/

theorem pubKeyGen_ok {Q : ℕ} (nonzero : Q ≠ 0) (skN : LWEPrivateKey N) (A : Fin N → Fin N → ℕ) (e : Fin N → ℕ) :
    pubKeyGen w Q skN A e = .ok ⟨A, fun j => (List.finRange N).foldl
      (fun v i => modAddFast w v (modMulFastMu w (A j i) (skN.element i) Q (computeMu w Q)) Q) (e j), Q⟩ := by
  unfold pubKeyGen
  rw [computeMuChecked, if_neg nonzero]
  rfl

/-- What `PubKeyGen` draws. -/
structure KeyDraws (N Q : ℕ) where
  A : Fin N → Fin N → ℕ
  e : Fin N → ℕ
  A_lt : ∀ j i, A j i < Q
  e_lt : ∀ j, e j < Q

/-- What `EncryptN` draws. -/
structure EncryptionDraws (N M : ℕ) where
  e2 : ℕ
  sp : Fin N → ℕ
  ep : Fin N → ℕ
  e2_lt : e2 < M
  sp_lt : ∀ i, sp i < M
  ep_lt : ∀ i, ep i < M

section Loops
variable {Q : ℕ} (pos : 0 < Q) (hQ : ¬ modulusTooLarge w Q)
include hQ

theorem addProductsFast_settled {a s : Fin N → ℕ} (ha : ∀ i, a i < Q) (hs : ∀ i, s i < Q) {e : ℕ} (he : e < Q) :
    Settled w Q ((List.finRange N).foldl (fun v i => modAddFast w v (modMulFastMu w (a i) (s i) Q (computeMu w Q)) Q) e) ∧
      (((List.finRange N).foldl (fun v i => modAddFast w v (modMulFastMu w (a i) (s i) Q (computeMu w Q)) Q) e : ℕ) : ℤ) ≡
        e + ∑ i, (a i : ℤ) * s i [ZMOD Q] := by
  have word := lt_of_not_tooLarge hQ
  rw [Fin.sum_univ_def]
  apply Run.foldl_modEq (Settled w Q) (fun v : ℕ => (v : ℤ)) (fun i => (a i : ℤ) * s i)
  · intro v i settled
    obtain ⟨fits, product⟩ := modMulFastMu_settled hQ (ha i) (hs i)
    obtain ⟨next, sum⟩ := modAddFast_settled (by omega) settled fits
    refine ⟨next, ?_⟩
    have total := Int.natCast_modEq_iff.mpr (sum.trans (product.add_left v))
    exact_mod_cast total
  · exact .inl he

include pos

theorem addScaledRow_ok {row : Fin N → ℕ} (hrow : ∀ i, row i < Q) {scalar : ℕ} (below : scalar < Q) (a : Fin N → ℕ) :
    addScaledRow w Q Q row scalar a = .ok fun i => modAddFast w (a i) (row i * scalar % Q) Q := by
  have word := lt_of_not_tooLarge hQ
  have kept : WordVector.reduceScalar scalar Q = .ok scalar := by rw [WordVector.reduceScalar, if_neg (by omega)]
  have prepared : prepModMulConst w scalar Q = .ok (wrap w (scalar * 2 ^ w.bits / Q)) := by
    rw [prepModMulConst, if_neg (by omega)]
  unfold addScaledRow
  simp only [kept, prepared, bind, Except.bind, ne_eq, not_true_eq_false, if_false]
  apply congrArg Except.ok
  funext i
  have := hrow i
  rw [modMulFastConst_eq (by omega) below (by omega)]

theorem maskLoop_ok {A : Fin N → Fin N → ℕ} (hA : ∀ j i, A j i < Q) {sp ep : Fin N → ℕ} (hsp : ∀ j, sp j < Q)
    (hep : ∀ i, ep i < Q) :
    ∃ a, (List.finRange N).foldlM (fun a j => addScaledRow w Q Q (A j) (sp j) a) ep = .ok a ∧ (∀ i, a i < Q) ∧
      ∀ i, (a i : ℤ) ≡ ep i + ∑ j, (A j i : ℤ) * sp j [ZMOD Q] := by
  have word := lt_of_not_tooLarge hQ
  let addRow : (Fin N → ℕ) → Fin N → Fin N → ℕ := fun a j i => modAddFast w (a i) (A j i * sp j % Q) Q
  have run : (List.finRange N).foldlM (fun a j => addScaledRow w Q Q (A j) (sp j) a) ep =
      .ok ((List.finRange N).foldl addRow ep) :=
    Run.foldlM_hom (fun a => a) (fun a j _ => addScaledRow_ok pos hQ (hA j) (hsp j) a) ep
  have once : ∀ i (a : Fin N → ℕ) j, (∀ i, a i < Q) →
      (∀ i, addRow a j i < Q) ∧ (addRow a j i : ℤ) ≡ a i + (A j i : ℤ) * sp j [ZMOD Q] := by
    intro i a j below
    have product : ∀ i, A j i * sp j % Q < Q := fun i => Nat.mod_lt _ pos
    refine ⟨fun i => modAddFast_lt (below i) (product i) (by omega), ?_⟩
    apply (modAddFast_cast (below i) (product i) (by omega)).trans
    rw [Int.natCast_mod]
    push_cast
    exact (Int.mod_modEq _ _).add_left _
  have sum := fun i => Run.foldl_modEq (fun a : Fin N → ℕ => ∀ i, a i < Q) (fun a => (a i : ℤ)) _ (once i) (List.finRange N) hep
  refine ⟨_, run, ?_, ?_⟩
  · intro i
    exact (sum i).1 i
  · intro i
    rw [Fin.sum_univ_def]
    exact (sum i).2

theorem sumLoop_ok (some : N ≠ 0) {bp sp : Fin N → ℕ} (hbp : ∀ i, bp i < Q) (hsp : ∀ i, sp i < Q) (start : ℕ) :
    (List.finRange N).foldl (fun b i => modAdd w b (modMulFastMu w (bp i) (sp i) Q (computeMu w Q)) Q) start < Q ∧
      (((List.finRange N).foldl (fun b i => modAdd w b (modMulFastMu w (bp i) (sp i) Q (computeMu w Q)) Q) start : ℕ) : ℤ) ≡
        start + ∑ i, (bp i : ℤ) * sp i [ZMOD Q] := by
  have word := lt_of_not_tooLarge hQ
  have reduced : (List.finRange N).foldl (fun b i => modAdd w b (modMulFastMu w (bp i) (sp i) Q (computeMu w Q)) Q) start =
      (List.finRange N).foldl (fun b i => modAdd w b (modMulFastMu w (bp i) (sp i) Q (computeMu w Q)) Q) (start % Q) := by
    have nonempty : (List.finRange N).length = N := List.length_finRange
    cases h : List.finRange N with
    | nil =>
      rw [h] at nonempty
      exact absurd nonempty.symm some
    | cons i rest => simp only [List.foldl_cons, modAdd, Nat.mod_mod]
  have same : ((start % Q : ℕ) : ℤ) ≡ start [ZMOD Q] := by
    rw [Int.natCast_mod]
    exact Int.mod_modEq _ _
  rw [reduced]
  obtain ⟨below, total⟩ := modMulSum_modEq_from pos (by omega) (fun i => (modMulFastMu_settled hQ (hbp i) (hsp i)).2)
    (Nat.mod_lt start pos)
  exact ⟨below, total.trans (same.add_right _)⟩

end Loops

/-! ### Encryption -/

/-- What the sum of `b` starts with: the scaled message and its error, in words. -/
def messageWord (w : NativeSize) (m p Q e2 : ℕ) : ℕ := add w (NativeInteger.mul w (m % p) (Q / wrap w p)) e2

section Encryption
variable {Q m p : ℕ} {skN : LWEPrivateKey N}

/-- Modulo `Q` a ciphertext comes out, and its phase is the start and the error that remains. -/
theorem encryptN_ok (pos : 0 < Q) (hQ : ¬ modulusTooLarge w Q) (some : N ≠ 0) (hp : wrap w p ≠ 0)
    (secret : ∀ i, skN.element i < Q) (key : KeyDraws N Q) (draws : EncryptionDraws N Q) :
    ∃ ct, (do encryptN w (← pubKeyGen w Q skN key.A key.e) draws.e2 draws.sp draws.ep m p Q) = .ok ct ∧
      Reduced ct ∧ ct.modulus = Q ∧ phase (fun i => (skN.element i : ℤ)) ct ≡ messageWord w m p Q draws.e2 +
        ∑ i, (key.e i : ℤ) * draws.sp i - ∑ i, (draws.ep i : ℤ) * skN.element i [ZMOD Q] := by
  have word := lt_of_not_tooLarge hQ
  have checked : computeMuChecked w Q = .ok (computeMu w Q) := by rw [computeMuChecked, if_neg (by omega)]
  have guard : setModulus w Q = .ok () := by rw [setModulus, if_neg hQ]
  let v : Fin N → ℕ := fun j => (List.finRange N).foldl
    (fun v i => modAddFast w v (modMulFastMu w (key.A j i) (skN.element i) Q (computeMu w Q)) Q) (key.e j)
  have hv := fun j => addProductsFast_settled hQ (key.A_lt j) secret (key.e_lt j)
  have hbp := fun j => switchModulus_settled (w := w) (v := v j) pos (by omega) (hv j).1
  obtain ⟨a, run, a_lt, mask⟩ := maskLoop_ok pos hQ key.A_lt draws.sp_lt draws.ep_lt
  obtain ⟨b_lt, sum⟩ := sumLoop_ok pos hQ some (fun i => (hbp i).1) draws.sp_lt (messageWord w m p Q draws.e2)
  have result : (do encryptN w (← pubKeyGen w Q skN key.A key.e) draws.e2 draws.sp draws.ep m p Q) =
      .ok { a, b := (List.finRange N).foldl (fun b i => modAdd w b (modMulFastMu w (switchModulus w Q Q (v i)) (draws.sp i) Q
        (computeMu w Q)) Q) (messageWord w m p Q draws.e2), modulus := Q, p } := by
    simp only [pubKeyGen_ok (w := w) (show Q ≠ 0 by omega), encryptN, checked, if_neg hp, guard, if_neg (show Q ≠ 0 by omega)]
    dsimp only [bind, Except.bind, pure, Except.pure]
    rw [if_neg (by simp), run]
    rfl
  refine ⟨_, result, ⟨a_lt, b_lt⟩, rfl, ?_⟩
  have masked : ∀ i, ((switchModulus w Q Q (v i) : ℕ) : ℤ) ≡ key.e i + ∑ j, (key.A i j : ℤ) * skN.element j [ZMOD Q] :=
    fun i => (Int.natCast_modEq_iff.mpr (hbp i).2).trans (hv i).2
  have residual := publicKey_residual (R := ℤ) (fun j i => (key.A j i : ℤ)) (fun i => (skN.element i : ℤ))
    (fun i => (key.e i : ℤ)) (fun i => (draws.sp i : ℤ)) (fun i => (draws.ep i : ℤ)) (messageWord w m p Q draws.e2)
  simp only [dotProduct, mulVec, vecMul, Pi.add_apply] at residual
  rw [← residual]
  apply Int.ModEq.sub
  · exact sum.trans ((Int.ModEq.sum fun i _ => (masked i).mul_right _).add_left _)
  · apply Int.ModEq.sum
    intro i _
    apply Int.ModEq.mul_right
    simpa only [mul_comm] using mask i

end Encryption

theorem encryptN_other (pk : LWEPublicKey N) {mod : ℕ} (key : pk.modulus ≠ 0) (pos : mod ≠ 0) (other : mod ≠ pk.modulus)
    (some : N ≠ 0) {p : ℕ} (hp : wrap w p ≠ 0) (e2 : ℕ) (sp ep : Fin N → ℕ) (m : ℕ) :
    ∃ fault, encryptN w pk e2 sp ep m p mod = .error fault ∧ fault.isException := by
  have checked : computeMuChecked w mod = .ok (computeMu w mod) := by rw [computeMuChecked, if_neg pos]
  have row : ∀ (row : Fin N → ℕ) scalar a, addScaledRow w mod pk.modulus row scalar a =
      .error differentParameters := by
    intro row scalar a
    have scalar_ok : ∃ bv, WordVector.reduceScalar scalar pk.modulus = .ok bv := by
      unfold WordVector.reduceScalar WordVector.modWord
      rw [if_neg key]
      split <;> exact ⟨_, rfl⟩
    obtain ⟨bv, reduced⟩ := scalar_ok
    unfold addScaledRow
    simp only [reduced, prepModMulConst, if_neg key, bind, Except.bind, if_pos other]
    rfl
  have stopped : (List.finRange N).foldlM (fun a j => addScaledRow w mod pk.modulus (pk.A j) (sp j) a) ep =
      .error differentParameters := by
    have nonempty : (List.finRange N).length = N := List.length_finRange
    cases h : List.finRange N with
    | nil =>
      rw [h] at nonempty
      exact absurd nonempty.symm some
    | cons j rest =>
      rw [List.foldlM_cons, row]
      rfl
  by_cases guard : modulusTooLarge w mod
  · obtain ⟨text, rejected⟩ : ∃ text, setModulus w mod = .error (.notAvailableError text) := ⟨_, if_pos guard⟩
    refine ⟨.notAvailableError text, ?_, rfl⟩
    simp only [encryptN, if_neg hp, rejected]
    dsimp only [bind, Except.bind]
    rw [if_neg (by simp)]
  · refine ⟨differentParameters, ?_, rfl⟩
    simp only [encryptN, if_neg hp, setModulus, if_neg guard, if_neg pos, checked]
    dsimp only [bind, Except.bind]
    rw [if_neg (by simp), stopped]

/-- An exception, or residues whose phase is the scaled message with the error of the encryption and what remains of the
other two. -/
def EncryptsUnder {Q M : ℕ} (skN : LWEPrivateKey N) (key : KeyDraws N Q) (draws : EncryptionDraws N M) (m p : ℕ)
    (run : Except Fault (LWECiphertext N)) : Prop :=
  (∃ fault, run = .error fault ∧ fault.isException) ∨
    ∃ ct, run = .ok ct ∧ Reduced ct ∧ ct.modulus = M ∧ phase (fun i => (skN.element i : ℤ)) ct ≡
      (m % p * (M / p) : ℕ) + draws.e2 + ∑ i, (key.e i : ℤ) * draws.sp i - ∑ i, (draws.ep i : ℤ) * skN.element i [ZMOD M]

/-- The word of the plaintext modulus is not zero. Where it is another number and the ciphertext has the modulus of the key,
what it makes of the message is lost modulo `Q`. -/
def PlaintextModulusFits (w : NativeSize) (Q M m p e2 : ℕ) : Prop :=
  p % 2 ^ w.bits ≠ 0 ∧ (M = Q → 2 ^ w.bits ≤ p → (m % p * (Q / (p % 2 ^ w.bits)) + e2) % 2 ^ w.bits ≡ e2 [MOD Q])

theorem messageWord_modEq_iff {Q m p e2 : ℕ} (hQ : Q * 16 < 2 ^ w.bits) (nonzero : p % 2 ^ w.bits ≠ 0) (he : e2 < Q) :
    messageWord w m p Q e2 ≡ m % p * (Q / p) + e2 [MOD Q] ↔
      (2 ^ w.bits ≤ p → (m % p * (Q / (p % 2 ^ w.bits)) + e2) % 2 ^ w.bits ≡ e2 [MOD Q]) := by
  have pos : 0 < p := by
    rcases Nat.eq_zero_or_pos p with zero | pos
    · simp [zero] at nonzero
    · exact pos
  have value : messageWord w m p Q e2 = (m % p * (Q / (p % 2 ^ w.bits)) + e2) % 2 ^ w.bits := by
    simp only [messageWord, NativeInteger.add, NativeInteger.mul, wrap, Nat.mod_add_mod]
  rw [value]
  rcases Nat.lt_or_ge p (2 ^ w.bits) with word | long
  · have scaled : m % p * (Q / p) ≤ Q :=
      (Nat.mul_le_mul_right _ (Nat.mod_lt m pos).le).trans (Nat.mul_div_le Q p)
    rw [Nat.mod_eq_of_lt word, Nat.mod_eq_of_lt (by omega)]
    exact iff_of_true rfl fun long => absurd long (by omega)
  · rw [Nat.div_eq_of_lt (show Q < p by omega), Nat.mul_zero, Nat.zero_add]
    exact ⟨fun same _ => same, fun same => same long⟩

theorem encryptN_iff {Q M : ℕ} (hpos : Q ≠ 0) (hM : M ≠ 0) (hQ : ¬ modulusTooLarge w Q) (some : N ≠ 0)
    {skN : LWEPrivateKey N} (secret : ∀ i, skN.element i < Q) (key : KeyDraws N Q) (draws : EncryptionDraws N M) (m p : ℕ) :
    EncryptsUnder skN key draws m p
        (do encryptN w (← pubKeyGen w Q skN key.A key.e) draws.e2 draws.sp draws.ep m p M) ↔
      PlaintextModulusFits w Q M m p draws.e2 := by
  unfold PlaintextModulusFits
  by_cases zero : p % 2 ^ w.bits = 0
  · have stopped : (do encryptN w (← pubKeyGen w Q skN key.A key.e) draws.e2 draws.sp draws.ep m p M) =
        .error .divisionByZero := by
      simp only [pubKeyGen_ok hpos, encryptN, wrap, zero, bind, Except.bind, if_true]
      rfl
    rw [stopped]
    refine iff_of_false ?_ fun fits => fits.1 zero
    rintro (⟨fault, same, thrown⟩ | ⟨ct, same, -⟩)
    · cases same
      cases thrown
    · cases same
  by_cases same : M = Q
  · subst same
    obtain ⟨ct, run, reduced, kept, held⟩ := encryptN_ok (m := m) (Nat.pos_of_ne_zero hpos) hQ some (p := p) zero secret key
      draws
    have start := messageWord_modEq_iff (w := w) (m := m) (lt_of_not_tooLarge hQ) zero draws.e2_lt
    rw [run]
    constructor
    · rintro (⟨fault, other, -⟩ | ⟨ct', result, -, -, promised⟩)
      · cases other
      cases result
      refine ⟨zero, fun _ => start.mp ?_⟩
      have sums := held.symm.trans promised
      apply Int.natCast_modEq_iff.mp
      push_cast at sums ⊢
      exact Int.ModEq.add_right_cancel' _ (Int.ModEq.add_right_cancel' _ sums)
    · rintro ⟨-, fits⟩
      have begun := Int.natCast_modEq_iff.mpr (start.mpr (fits rfl))
      refine .inr ⟨ct, rfl, reduced, kept, held.trans ?_⟩
      push_cast at begun ⊢
      exact (begun.add_right _).sub_right _
  · rw [pubKeyGen_ok hpos]
    obtain ⟨fault, stopped, thrown⟩ := encryptN_other (w := w) ⟨key.A, _, Q⟩ hpos hM same some (p := p) zero draws.e2
      draws.sp draws.ep m
    dsimp only [bind, Except.bind]
    rw [stopped]
    exact iff_of_true (.inl ⟨fault, rfl, thrown⟩) ⟨zero, fun equal => absurd equal same⟩

end LWE

namespace BinFHEContext
open LWE
variable {w : NativeSize} {P : LWECryptoParams}

/-- The modulus that `Encrypt` with a public key hands on. -/
def chosenModulus (P : LWECryptoParams) (mod : ℕ) : ℕ := if mod = 0 then P.Q else mod

variable (w P) in
/-- `EncryptN` as `Encrypt` calls it, under the key that `PubKeyGen` made for `skN`. -/
def encryptPublic (skN : LWEPrivateKey P.N) (key : KeyDraws P.N P.Q) (mod : ℕ)
    (draws : EncryptionDraws P.N (chosenModulus P mod)) (m p : ℕ) : Except Fault (LWECiphertext P.N) := do
  encryptN w (← pubKeyGen w P.Q skN key.A key.e) draws.e2 draws.sp draws.ep m p (chosenModulus P mod)

/-- For a ciphertext modulo another number than `Q` the call throws. Modulo `Q` all products come out right, and only the
division by the word of the plaintext modulus can go wrong. -/
theorem encryptPublic_iff {n N q Q qKS baseKS : ℕ} {std : ℚ} {keyDist : SecretKeyDist}
    (made : LWECryptoParams.construct w n N q Q qKS std baseKS keyDist = .ok P) {skN : LWEPrivateKey P.N}
    (secret : ∀ i, skN.element i < P.Q) (key : KeyDraws P.N P.Q) (mod : ℕ)
    (draws : EncryptionDraws P.N (chosenModulus P mod)) (m p : ℕ) :
    EncryptsUnder skN key draws m p (encryptPublic w P skN key mod draws m p) ↔
      PlaintextModulusFits w P.Q (chosenModulus P mod) m p draws.e2 := by
  have checked := (LWECryptoParams.constructFor_checked made).1
  have chosen : chosenModulus P mod ≠ 0 := by
    unfold chosenModulus
    split
    · exact checked.Q_ne
    · assumption
  exact encryptN_iff checked.Q_ne chosen checked.Q_fits checked.N_ne secret key draws m p

/-- Dimensions `64` and `512`, moduli `512` and `12289`. -/
def toyParams : LWECryptoParams := ⟨512, 12289, 2 ^ 14, 64, 512, 25, .UNIFORM_TERNARY, 319 / 100, 319 / 100⟩

theorem toyParams_one_lt : 1 < toyParams.Q := by decide

def onesKey : LWEPrivateKey toyParams.N := ⟨fun _ => 1, toyParams.Q⟩

theorem onesKey_lt (i : Fin toyParams.N) : onesKey.element i < toyParams.Q := toyParams_one_lt

def onesKeyDraws : KeyDraws toyParams.N toyParams.Q :=
  ⟨fun _ _ => 1, fun _ => 1, fun _ _ => toyParams_one_lt, fun _ => toyParams_one_lt⟩

def onesDraws : EncryptionDraws toyParams.N (chosenModulus toyParams 0) :=
  ⟨1, fun _ => 1, fun _ => 1, toyParams_one_lt, fun _ => toyParams_one_lt, fun _ => toyParams_one_lt⟩

theorem toyParams_made : LWECryptoParams.construct .w32 64 512 512 12289 (2 ^ 14) (319 / 100) 25 .UNIFORM_TERNARY =
    .ok toyParams := rfl

theorem encryptPublic_quarter :
    EncryptsUnder onesKey onesKeyDraws onesDraws 3 4 (encryptPublic .w32 toyParams onesKey onesKeyDraws 0 onesDraws 3 4) :=
  (encryptPublic_iff toyParams_made onesKey_lt onesKeyDraws 0 onesDraws 3 4).mpr
    ⟨by decide, fun _ long => absurd long (by decide)⟩

/-- The word of the plaintext modulus is four. -/
theorem encryptPublic_truncated :
    ¬ EncryptsUnder onesKey onesKeyDraws onesDraws 1 (2 ^ 32 + 4)
      (encryptPublic .w32 toyParams onesKey onesKeyDraws 0 onesDraws 1 (2 ^ 32 + 4)) := by
  intro promised
  have fits := (encryptN_iff (w := .w32) (M := toyParams.Q) (by decide) (by decide) (by decide) (by decide) onesKey_lt
    onesKeyDraws onesDraws 1 (2 ^ 32 + 4)).mp promised
  exact absurd (fits.2 rfl (by decide)) (by decide)

end BinFHEContext
end MultiKeyFHE
