import MultiKeyFHE.Accumulator.Binary
import MultiKeyFHE.Scheme.MKLWE
import MultiKeyFHE.Scheme.MNTRU

/-!
# The callers of the binary accumulator

`BinFHEScheme` makes one `UniEncAccumulatorXZW_B` for both `MKNTRU_LWE` and `MKNTRU_B`. The gates of the first
switch to `2 * N` and have binary keys; the gates of the second pass a ciphertext modulo `q` under a key whose
coefficients are ternary or Gaussian.
-/

namespace MultiKeyFHE
open NativeInteger NativeVector UniEncAccumulator UniEncAccumulatorXZW_B

variable {w : NativeSize} {p : UniEncParams w} {n : ℕ} [NeZero n]

/-- What `EvalBinGate` on MKLWE ciphertexts hands to `EvalAcc`. -/
def PassedByMKLWE (p : UniEncParams w) (round : FloorRound) (A : Fin p.k → Fin n → ℕ) : Prop :=
  ∃ ct ct' : MKLWECiphertext p.k n, MKLWE.modSwitch round (p.N * 2 % 2 ^ 32) ct = .ok ct' ∧
    A = MKLWE.getAneg w ct'

/-- What `EvalBinGate` on MNTRU ciphertexts modulo `q` hands to `EvalAcc`. -/
def PassedByMNTRU (p : UniEncParams w) (q : ℕ) (ctNAND : MNTRUCiphertext p.k n) (A : Fin p.k → Fin n → ℕ) : Prop :=
  ∃ ct1 ct2 ctprep ct : MNTRUCiphertext p.k n, MNTRU.Reduced ct1 ∧ ct1.modulus = q ∧ MNTRU.Reduced ct2 ∧
    ct2.modulus = q ∧ MNTRU.evalAddEq w (MNTRU.copy ct1) ct2 = .ok ctprep ∧
    MNTRU.evalSubEq w (MNTRU.copy ctNAND) ctprep = .ok ct ∧ A = ct.elements

omit [NeZero n] in
theorem passedByMKLWE_lt {round : FloorRound} {A : Fin p.k → Fin n → ℕ} (passed : PassedByMKLWE p round A)
    (u : Fin p.k) (i : Fin n) : A u i < 2 * p.N := by
  obtain ⟨ct, ct', run, rfl⟩ := passed
  have hN : 0 < p.N := Nat.pos_of_ne_zero (NeZero.ne p.N)
  have h32 := p.two_mul_N_lt
  have same : p.N * 2 % 2 ^ 32 = 2 * p.N := by rw [mul_comm, Nat.mod_eq_of_lt h32]
  rw [same] at run
  obtain ⟨ct'', run', reduced, modulus, -⟩ := MKLWE.modSwitch_ok round (show 0 < 2 * p.N by omega) ct
  cases run.symm.trans run'
  have hw := w.two_pow_32_le
  rw [← modulus]
  exact MKLWE.getAneg_lt reduced (by omega) u i

omit [NeZero n] in
/-- The vectors that gates pass are the vectors modulo `q`. -/
theorem passedByMNTRU_iff {q : ℕ} (hq : 0 < q) (q_ok : ¬ modulusTooLarge w q) {ctNAND : MNTRUCiphertext p.k n}
    (reduced : MNTRU.Reduced ctNAND) (modulus : ctNAND.modulus = q) (A : Fin p.k → Fin n → ℕ) :
    PassedByMNTRU p q ctNAND A ↔ ∀ u i, A u i < q := by
  have hw := lt_of_not_tooLarge q_ok
  subst modulus
  constructor
  · rintro ⟨ct1, ct2, ctprep, ct, h1, same1, h2, same2, add, sub, rfl⟩ u i
    have first : (MNTRU.copy ct1).modulus = ct2.modulus := same1.trans same2.symm
    rw [MNTRU.evalAddEq, if_neg (not_not.mpr first)] at add
    cases add
    have second : (MNTRU.copy ctNAND).modulus = (MNTRU.copy ct1).modulus := same1.symm
    rw [MNTRU.evalSubEq, if_neg (not_not.mpr second)] at sub
    cases sub
    have sum := modAddFast_lt (w := w) (h1.lt u i) (first ▸ h2.lt u i) (by rw [same1]; omega)
    exact modSubFast_lt (reduced.lt u i) (second ▸ sum) (by show ctNAND.modulus ≤ _; omega)
  · intro small
    -- Zero and the difference of the gate ciphertext and the vector.
    let zero : MNTRUCiphertext p.k n := { elements := fun _ _ => 0, modulus := ctNAND.modulus }
    let rest : MNTRUCiphertext p.k n :=
      { elements := fun u i => modSubFast w (ctNAND.elements u i) (A u i) ctNAND.modulus, modulus := ctNAND.modulus }
    have rest_lt : ∀ u i, rest.elements u i < ctNAND.modulus := fun u i =>
      modSubFast_lt (reduced.lt u i) (small u i) (by omega)
    refine ⟨zero, rest, rest, { MNTRU.copy ctNAND with elements := A }, ⟨fun _ _ => hq⟩, rfl, ⟨rest_lt⟩, rfl, ?_, ?_, rfl⟩
    · have same : (MNTRU.copy zero).modulus = rest.modulus := rfl
      rw [MNTRU.evalAddEq, if_neg (not_not.mpr same)]
      refine congrArg Except.ok (MNTRUCiphertext.ext (funext fun u => funext fun i => ?_) rfl rfl)
      dsimp only [MNTRU.copy, zero]
      rw [modAddFast_eq hq (rest_lt u i) (by omega), zero_add, Nat.mod_eq_of_lt (rest_lt u i)]
    · have same : (MNTRU.copy ctNAND).modulus = rest.modulus := rfl
      rw [MNTRU.evalSubEq, if_neg (not_not.mpr same)]
      refine congrArg Except.ok (MNTRUCiphertext.ext (funext fun u => funext fun i => ?_) rfl rfl)
      exact modSubFast_modSubFast (reduced.lt u i) (small u i) (by omega)

section Callers
variable {hb : Product p} {skf invsk : Acc p} {CRS : Digit p → Poly p} {draws : AccDraws p n}

theorem agrees_with_MKLWE (product : ExactFor hb skf invsk CRS draws) (inverse : skf 0 * invsk 0 = 1)
    {s : Fin p.k → Fin n → ℕ} (bit : ∀ u i, s u i = 0 ∨ s u i = 1) {round : FloorRound} {A : Fin p.k → Fin n → ℕ}
    (passed : PassedByMKLWE p round A) :
    Agrees hb (keyGenAcc draws invsk s CRS) skf (2 * p.N) (fun u i => s u i) A := by
  have hN : 0 < p.N := Nat.pos_of_ne_zero (NeZero.ne p.N)
  have h32 := p.two_mul_N_lt
  have inside := passedByMKLWE_lt passed
  refine (agrees_iff product inverse fun u i => by have := inside u i; omega).mpr ⟨fun u i => (inside u i).le, ?_⟩
  refine Int.ModEq.sum fun u _ => Int.ModEq.sum fun i _ => ?_
  rw [Nat.mul_div_cancel _ (show 0 < 2 * p.N by omega)]
  rcases bit u i with zero | one
  · rw [zero]
    exact Int.ModEq.refl _
  · rw [one]
    exact Int.ModEq.refl _

/-- The binary accumulator agrees with all MKLWE gates, and with all MNTRU gates exactly when `q` is at most one
above `2 * N` and compatible with every coefficient of the first key columns. -/
theorem binary_accumulator_agrees_iff (product : ExactFor hb skf invsk CRS draws) (inverse : skf 0 * invsk 0 = 1)
    (s : Fin p.k → Fin n → ℕ) (bit : ∀ u i, s u i = 0 ∨ s u i = 1) (round : FloorRound)
    (F : Fin p.k → Fin n → Fin n → ℕ) (qKS : ℕ) (two_le_qKS : 2 ≤ qKS) (q : ℕ) (hq : 0 < q)
    (q_ok : ¬ modulusTooLarge w q) (ctNAND : MNTRUCiphertext p.k n) (reduced : MNTRU.Reduced ctNAND)
    (modulus : ctNAND.modulus = q) :
    (∀ A, PassedByMKLWE p round A →
      Agrees hb (keyGenAcc draws invsk s CRS) skf (2 * p.N) (fun u i => s u i) A) ∧
    ((∀ A, PassedByMNTRU p q ctNAND A → Agrees hb (keyGenAcc draws invsk (fun u i => F u i 0) CRS) skf q
        (fun u i => centered qKS (F u i 0)) A) ↔
      q ≤ 2 * p.N + 1 ∧ ∀ u i, Compatible p.N q (F u i 0) (centered qKS (F u i 0))) := by
  refine ⟨fun A passed => agrees_with_MKLWE product inverse bit passed, ?_⟩
  simp only [passedByMNTRU_iff hq q_ok reduced modulus]
  refine agrees_on_all_iff product inverse hq fun u i one => ?_
  rw [one, centered, if_neg (by omega), Nat.cast_one]

/-- Two parties over `Z_17[X]/(X^4 + 1)` with a ciphertext modulus of eight and the key columns zero and one. -/
theorem binary_accumulator_agrees_modulo_eight :
    let F : Fin smallParams.k → Fin 1 → Fin 1 → ℕ := fun u _ _ => u.val
    ∀ A, PassedByMNTRU smallParams 8 { elements := fun _ _ => 5, modulus := 8 } A →
      Agrees (exactProduct 13) (keyGenAcc ⟨fun _ _ => zeroDraws, zeroDraws⟩ (fun _ => 1) (fun u i => F u i 0)
        fun _ => 0) (fun _ => 1) 8 (fun u i => centered 5 (F u i 0)) A := by
  intro F
  have exact_ : (Negacyclic.NegPoly.const 13 * gd smallParams 0 : Poly smallParams) = 1 := by decide +kernel
  have compatible : ∀ u : Fin smallParams.k, Compatible 4 8 u.val (centered 5 u.val) := by
    intro u
    have two : smallParams.k = 2 := rfl
    obtain zero | one : u.val = 0 ∨ u.val = 1 := by have := u.isLt; omega
    · rw [zero]
      exact ⟨fun h => by omega, fun _ x _ => by simp [centered]⟩
    · rw [one]
      exact ⟨fun _ => by decide, fun h => absurd rfl h⟩
  exact (binary_accumulator_agrees_iff (exactFor_exactProduct exact_ (fun _ => 1) (fun _ => 1) fun _ => 0)
    (mul_one 1) (fun _ _ => 0) (fun _ _ => .inl rfl) exactRound F 5 (by decide) 8 (by decide) (by decide) _
    ⟨fun _ _ => show 5 < 8 by decide⟩ rfl).2.mpr ⟨by decide, fun u _ => compatible u⟩

/-- With the modulus seventeen a gate on zero vectors passes the constant ten, which is outside the table of eight. -/
theorem binary_accumulator_fails_modulo_seventeen :
    let ctNAND : MNTRUCiphertext smallParams.k 1 := { elements := fun _ _ => 10, modulus := 17 }
    let ek : AccKey smallParams 1 :=
      keyGenAcc ⟨fun _ _ => zeroDraws, zeroDraws⟩ (fun _ => 1) (fun _ _ => 1) fun _ => 0
    PassedByMNTRU smallParams 17 ctNAND (fun _ _ => 10) ∧
      evalAcc (exactProduct 13) ek (initial 1) (fun _ _ => 10) = .error .outOfRange ∧
      ¬ Agrees (exactProduct 13) ek (fun _ => 1) 17 (fun _ _ => 1) fun _ _ => 10 := by
  intro ctNAND ek
  have reduced : MNTRU.Reduced ctNAND := ⟨fun _ _ => show 10 < 17 by decide⟩
  refine ⟨(passedByMNTRU_iff (q := 17) (by decide) (by decide) reduced rfl _).mpr fun _ _ => by decide, ?_,
    fun agrees => ?_⟩
  · rfl
  · exact absurd (agrees.1 0 0) (by decide)

end Callers
end MultiKeyFHE
