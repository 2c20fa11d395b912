import MultiKeyFHE.Scheme.MKLWE
import MultiKeyFHE.Scheme.MNTRU
import Mathlib.Algebra.BigOperators.Field
import Mathlib.Data.Rat.Floor

/-!
# The error of modulus switching

`ModSwitch` of the two multi-key schemes with exact rounding. Each entry moves by half a unit at most, whether or not it
rounds up to the new modulus, and an inner product with a secret by half the sum of its absolute values.
-/

namespace MultiKeyFHE
open Circle

/-- `<a_1, s_1> + ... + <a_k, s_k>` for integer secrets. -/
def innerSum {k n : ℕ} (s : Fin k → Fin n → ℤ) (a : Fin k → Fin n → ℕ) : ℤ := ∑ u, ∑ i, (a u i : ℤ) * s u i

/-- The sum of the absolute values of all entries. -/
def norm1 {k n : ℕ} (s : Fin k → Fin n → ℤ) : ℤ := ∑ u, ∑ i, |s u i|

/-- The phase of an MKLWE ciphertext. -/
def MKLWE.integerPhase {k n : ℕ} (s : Fin k → Fin n → ℤ) (ct : MKLWECiphertext k n) : ℤ := ct.b - innerSum s ct.a

/-- The phase of an MNTRU ciphertext. -/
def MNTRU.integerPhase {k n : ℕ} (s : Fin k → Fin n → ℤ) (ct : MNTRUCiphertext k n) : ℤ := innerSum s ct.elements

section
variable {k n q Q : ℕ}

theorem innerSum_roundqQ (pos : 0 < Q) (s : Fin k → Fin n → ℤ) (a : Fin k → Fin n → ℕ) :
    Near q (norm1 s / 2) (innerSum s fun u i => roundqQ exactRound (a u i) q Q) (q / Q * innerSum s a) := by
  have entry : ∀ u i, Near q (|(s u i : ℚ)| * (1 / 2)) ((roundqQ exactRound (a u i) q Q : ℚ) * s u i)
      ((a u i : ℚ) * q / Q * s u i) := fun u i => (roundqQ_exact_near pos).intMul (s u i)
  have total := Near.sum Finset.univ fun u (_ : u ∈ Finset.univ) => Near.sum Finset.univ fun i (_ : i ∈ Finset.univ) => entry u i
  convert total using 1
  · rw [norm1]
    push_cast
    simp only [Finset.sum_div]
    exact Finset.sum_congr rfl fun u _ => Finset.sum_congr rfl fun i _ => by ring
  · rw [innerSum]
    push_cast
    rfl
  · rw [innerSum]
    push_cast
    simp only [Finset.mul_sum]
    exact Finset.sum_congr rfl fun u _ => Finset.sum_congr rfl fun i _ => by ring

/-- Switching both kinds of ciphertexts from any modulus to `q`: reduced entries, and the phase scaled up to the bounds. -/
theorem modSwitch_near (hq : 0 < q) (s : Fin k → Fin n → ℤ) :
    (∀ ctQ : MKLWECiphertext k n, 0 < ctQ.modulus → ∃ ct, MKLWE.modSwitch exactRound q ctQ = .ok ct ∧ MKLWE.Reduced ct ∧
      ct.modulus = q ∧ Near q ((1 + norm1 s) / 2) (MKLWE.integerPhase s ct) (q / ctQ.modulus * MKLWE.integerPhase s ctQ)) ∧
    ∀ ctQ : MNTRUCiphertext k n, 0 < ctQ.modulus → ∃ ct, MNTRU.modSwitch exactRound q ctQ = .ok ct ∧ MNTRU.Reduced ct ∧
      ct.modulus = q ∧ Near q (norm1 s / 2) (MNTRU.integerPhase s ct) (q / ctQ.modulus * MNTRU.integerPhase s ctQ) := by
  constructor
  · intro ctQ pos
    obtain ⟨ct, run, reduced, modulus, -⟩ := MKLWE.modSwitch_ok exactRound hq ctQ
    refine ⟨ct, run, reduced, modulus, ?_⟩
    obtain ⟨vectors, body⟩ := MKLWE.modSwitch_values run
    have masks : ct.a = fun u i => roundqQ exactRound (ctQ.a u i) q ctQ.modulus := funext fun u => funext (vectors u)
    have both := (roundqQ_exact_near (v := ctQ.b) (q := q) pos).sub (innerSum_roundqQ pos s ctQ.a)
    rw [MKLWE.integerPhase, MKLWE.integerPhase, masks, body]
    convert both using 1
    · ring
    · push_cast
      ring
    · push_cast
      ring
  · intro ctQ pos
    obtain ⟨ct, run, reduced, modulus⟩ := MNTRU.modSwitch_ok exactRound hq ctQ
    refine ⟨ct, run, reduced, modulus, ?_⟩
    have vectors : ct.elements = fun u i => roundqQ exactRound (ctQ.elements u i) q ctQ.modulus :=
      funext fun u => funext (MNTRU.modSwitch_values run u)
    rw [MNTRU.integerPhase, MNTRU.integerPhase, vectors]
    exact innerSum_roundqQ pos s ctQ.elements

/-- From 16 to 4, where 15 rounds up to zero, with the secrets 1 and -1. -/
theorem fifteen_switches :
    (∃ ct, MKLWE.modSwitch exactRound 4 { a := ![![15], ![6]], b := 15, modulus := 16 } = .ok ct ∧ MKLWE.Reduced ct ∧
      ct.modulus = 4 ∧ Near (4 : ℕ) ((1 + norm1 ![![1], ![-1]]) / 2) (MKLWE.integerPhase ![![1], ![-1]] ct)
        ((4 : ℕ) / (16 : ℕ) * MKLWE.integerPhase ![![1], ![-1]] { a := ![![15], ![6]], b := 15, modulus := 16 })) ∧
    ∃ ct, MNTRU.modSwitch exactRound 4 { elements := ![![15], ![6]], modulus := 16 } = .ok ct ∧ MNTRU.Reduced ct ∧
      ct.modulus = 4 ∧ Near (4 : ℕ) (norm1 ![![1], ![-1]] / 2) (MNTRU.integerPhase ![![1], ![-1]] ct)
        ((4 : ℕ) / (16 : ℕ) * MNTRU.integerPhase ![![1], ![-1]] { elements := ![![15], ![6]], modulus := 16 }) :=
  ⟨(modSwitch_near (show 0 < 4 by decide) ![![1], ![-1]]).1 _ (show 0 < 16 by decide),
    (modSwitch_near (show 0 < 4 by decide) ![![1], ![-1]]).2 _ (show 0 < 16 by decide)⟩

end
end MultiKeyFHE
