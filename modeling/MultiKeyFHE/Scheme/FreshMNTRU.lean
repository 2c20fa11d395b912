import MultiKeyFHE.Scheme.MNTRU
import Mathlib.LinearAlgebra.Matrix.NonsingularInverse

/-!
# Fresh MNTRU ciphertexts

Keys whose matrices are inverse to each other modulo the key modulus, and what `Decrypt2` makes of a ciphertext that
`Encrypt` made with that modulus.
-/

namespace MultiKeyFHE
open NativeInteger NativeVector

namespace MNTRU
variable {w : NativeSize} {k n : ℕ}

/-- The entries of a matrix as residues. -/
def residues (q : ℕ) (M : Fin n → Fin n → ℕ) : Matrix (Fin n) (Fin n) (ZMod q) := .of fun i j => (M i j : ZMod q)

/-- Reduced matrices with `F_u * F_inv_u = I` for every party. -/
structure Invertible (q : ℕ) (F F_inv : Fin k → Fin n → Fin n → ℕ) : Prop where
  F_lt : ∀ u i j, F u i j < q
  F_inv_lt : ∀ u i j, F_inv u i j < q
  product : ∀ u, residues q (F u) * residues q (F_inv u) = 1

section Keys
variable [NeZero n] {q : ℕ} {F F_inv : Fin k → Fin n → Fin n → ℕ}

/-- The inverse is one on either side, and the loops use it on the left. -/
theorem Invertible.generated (invertible : Invertible q F F_inv) : Generated (ofMatrices F F_inv q) where
  count := rfl
  F_lt := invertible.F_lt
  F_inv_lt := invertible.F_inv_lt
  inverse := by
    intro u l
    have left : residues q (F_inv u) * residues q (F u) = 1 := mul_eq_one_comm.mp (invertible.product u)
    have entry := congrFun (congrFun left l) 0
    rw [Matrix.mul_apply, Matrix.one_apply] at entry
    refine (ZMod.intCast_eq_intCast_iff _ _ q).mp ?_
    push_cast
    exact entry

variable [NeZero k]

/-- With the modulus of the key `Decrypt2` brings the message back, whether or not `p` divides it. -/
theorem decrypt2_encrypt (room : ¬ modulusTooLarge w q) (invertible : Invertible q F F_inv) {p : ℕ} (hp : 2 ≤ p)
    (fits : p * q < 2 ^ w.bits) {m : ℕ} (hm : m < p) {e : Fin k → Fin n → ℕ} (small : ∀ u l, e u l < q)
    (noise : |centered q ((∑ u, e u 0) % q)| ≤ (q / (2 * p) : ℕ) - p) :
    ∃ ct : MNTRUCiphertext k n, encrypt w (ofMatrices F F_inv q) e m p q = .ok ct ∧
      decrypt2 w (ofMatrices F F_inv q) ct p = .ok m := by
  have h2 : 2 ≤ q := by
    have : 0 ≤ ((q / (2 * p) : ℕ) : ℤ) - p := (abs_nonneg _).trans noise
    have := Nat.div_le_self q (2 * p)
    omega
  have generated := invertible.generated
  obtain ⟨ct, run, reduced, rfl, -, phase_eq⟩ := encrypt_ok generated (generated.inverseModulo (dvd_refl q)) h2 room room
    small (m : ℤ) (show 0 < p by omega)
  obtain ⟨inner, product, inner_lt, inner_eq⟩ := innerProduct_ok generated reduced h2 room room
  have stored : (inner : ℤ) ≡ (m * (ct.modulus / p) : ℕ) + centered ct.modulus ((∑ u, e u 0) % ct.modulus)
      [ZMOD ct.modulus] := by
    rw [asUnsigned_natCast, Nat.mod_eq_of_lt hm] at phase_eq
    refine (inner_eq.trans phase_eq).trans (Int.ModEq.add_left _ ?_)
    refine Int.ModEq.trans ?_ (centered_modEq _ _).symm
    rw [Int.natCast_mod, Nat.cast_sum]
    exact (Int.mod_modEq _ _).symm
  refine ⟨ct, run, ?_⟩
  rw [decrypt2, decryptShifted, if_neg (by simp), product]
  simp only [bind, Except.bind, pure, Except.pure, (decode_fresh room fits hp hm inner_lt stored noise).1]

end Keys

/-- Two parties with two by two matrices modulo 257, which neither three nor six divides. -/
theorem sheared_decrypts : |centered 257 ((∑ u : Fin 2, (fun (_ : Fin 2) (_ : Fin 2) => 3) u 0) % 257)| ≤
      (257 / (2 * 3) : ℕ) - 3 ∧
    ∃ ct : MNTRUCiphertext 2 2,
      encrypt .w32 (ofMatrices (fun _ => ![![1, 1], ![0, 1]]) (fun _ => ![![1, 256], ![0, 1]]) 257) (fun _ _ => 3) 2 3 257 =
        .ok ct ∧
      decrypt2 .w32 (ofMatrices (fun _ => ![![1, 1], ![0, 1]]) (fun _ => ![![1, 256], ![0, 1]]) 257) ct 3 = .ok 2 :=
  ⟨by decide, decrypt2_encrypt (by decide) ⟨by decide, by decide, by decide⟩ (by decide) (by decide) (by decide)
    (by decide) (by decide)⟩

end MNTRU
end MultiKeyFHE
