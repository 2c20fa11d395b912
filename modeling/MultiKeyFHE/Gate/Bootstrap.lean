import MultiKeyFHE.Accumulator.Rotation
import MultiKeyFHE.Library.SignTest
import MultiKeyFHE.Library.Substitution
import MultiKeyFHE.Scheme.MKLWE

/-!
# Gate bootstrapping

The parts of `BootstrapGateCore` and `EvalBinGate` that both multi-key schemes go through: the test
polynomial, its placement by `b`, and the extraction of the constant coefficient after a transposition.
-/

namespace MultiKeyFHE
open Negacyclic NegPoly NativeInteger UniEncAccumulator Circle

namespace Gate
variable {w : NativeSize} (p : UniEncParams w)

def Q2p (ptModulus : ℕ) : ℕ := p.Q / NativeInteger.mul w 2 ptModulus + 1

/-- The test vector `Rx`: `low` on the first half, `high` on the second. -/
def rx (low high : ℕ) (j : Fin p.N) : ℕ := if j.val < p.N / 2 then low else high

def toPoly (values : Fin p.N → ℕ) : Poly p := ⟨fun i => (values i : ZMod p.Q)⟩

/-- The loop that writes `Rx` to `Rxxb`, `bHat` places further on. -/
def rxxb (Rx : Fin p.N → ℕ) (bHat : ℕ) : Fin p.N → ℕ :=
  (List.finRange p.N).foldl (fun v j =>
    let index := bHat + j.val
    Function.update v (Fin.ofNat p.N index)
      (if index ≥ p.N ∧ index < 2 * p.N then p.Q - Rx j else Rx j)) fun _ => 0

def transpose (a : Poly p) : Poly p := ⟨fun j => if j = 0 then a.coeff 0 else -a.coeff (-j)⟩

def accExt (acc : Acc p) : Fin p.k → Fin p.N → ℕ := fun u j => ((transpose p (acc u)).coeff j).val

variable {p}

theorem toPoly_rx (c : ℕ) (h : c ≤ p.Q) : toPoly p (rx p c (p.Q - c)) = stepPoly (c : ZMod p.Q) := by
  ext j
  rw [toPoly, coeff_stepPoly]
  dsimp only [rx]
  split
  · rfl
  · rw [Nat.cast_sub h, ZMod.natCast_self, zero_sub]

theorem toPoly_rx_neg (c : ℕ) (h : c ≤ p.Q) : toPoly p (rx p (p.Q - c) c) = stepPoly (-(c : ZMod p.Q)) := by
  ext j
  rw [toPoly, coeff_stepPoly]
  dsimp only [rx]
  split
  · rw [Nat.cast_sub h, ZMod.natCast_self, zero_sub]
  · rw [neg_neg]

theorem toPoly_rxxb {Rx : Fin p.N → ℕ} (hRx : ∀ j, Rx j ≤ p.Q) {bHat : ℕ} (hb : bHat < 2 * p.N) :
    toPoly p (rxxb p Rx bHat) = toPoly p Rx * xpow bHat := by
  refine mul_xpow_of_loop (fun x : ℕ => (x : ZMod p.Q)) _ (fun j => ?_) hb
  rw [Nat.cast_sub (hRx j), ZMod.natCast_self, zero_sub]

theorem accExt_cast (acc : Acc p) (u : Fin p.k) (j : Fin p.N) :
    ((accExt p acc u j : ℕ) : ZMod p.Q) = (transpose p (acc u)).coeff j := by
  rw [accExt, ZMod.natCast_val, ZMod.cast_id', id]

theorem accExt_lt (acc : Acc p) (u : Fin p.k) (j : Fin p.N) : accExt p acc u j < p.Q := ZMod.val_lt _

/-- `Transpose` is the automorphism with the last index of the order. -/
theorem transpose_eq (a : Poly p) : transpose p a = substPow (2 * p.N - 1) a := by
  ext j
  rw [coeff_substPow_inverse]
  rfl

theorem sum_transpose (a f : Poly p) : ∑ j, (transpose p a).coeff j * f.coeff j = (a * f).coeff 0 := by
  rw [transpose_eq, sum_substPow_inverse]

theorem sum_accExt (sk acc : Acc p) :
    ∑ u, ∑ j, ((accExt p acc u j : ℕ) : ZMod p.Q) * (sk u).coeff j = (phase p sk acc).coeff 0 := by
  rw [phase, coeff_sum]
  refine Finset.sum_congr rfl fun u _ => ?_
  rw [← sum_transpose]
  refine Finset.sum_congr rfl fun j _ => ?_
  rw [accExt_cast]

theorem Q2p_four : Q2p p 4 = p.Q / 2 ^ 3 + 1 := by
  have : NativeInteger.mul w 2 4 = 8 := by cases w <;> rfl
  rw [Q2p, this]
  rfl

theorem eighth_near (hQ : 256 ≤ p.Q) (q : ℕ) : |((p.Q / 2 ^ 3 + 1 : ℕ) : ℚ) * q / p.Q - q / 8| ≤ q / 256 := by
  have hQ' : (256 : ℚ) ≤ p.Q := by exact_mod_cast hQ
  exact (succ_eighth_near (by omega) q).trans
    (div_le_div_of_nonneg_left (Nat.cast_nonneg q) (by norm_num) hQ')

/-! ### The sign of a gate -/

def ones (m1 m2 : Bool) : ℕ := m1.toNat + m2.toNat

theorem even_N_of_ne_one (h : p.N ≠ 1) : 2 ∣ p.N := by
  rw [p.N_eq] at h ⊢
  exact dvd_pow_self 2 fun hz => h (by rw [hz, pow_zero])

theorem coeff_zero_of_near (even : 2 ∣ p.N) (c : ZMod p.Q) {m1 m2 : Bool} {z : ℤ}
    (near : Within (2 * p.N) (p.N / 4) z (5 * p.N / 4 - ones m1 m2 * p.N / 2)) :
    (stepPoly c * xpow z : Poly p).coeff 0 = if m1 && m2 then c else -c := by
  obtain ⟨t, ht⟩ := near
  have hb := abs_lt.mp ht
  have hN : (0 : ℚ) ≤ p.N := Nat.cast_nonneg _
  cases m1 <;> cases m2 <;> simp only [ones, Bool.toNat_false, Bool.toNat_true, Bool.and_true, Bool.and_false,
    Bool.and_self, if_true, Bool.false_eq_true, if_false] at hb ⊢ <;> push_cast at hb
  · exact coeff_zero_stepPoly_opposite even c ⟨t, abs_lt.mpr ⟨by linarith [hb.1], by linarith [hb.2]⟩⟩
  · exact coeff_zero_stepPoly_opposite even c ⟨t, abs_lt.mpr ⟨by linarith [hb.1], by linarith [hb.2]⟩⟩
  · exact coeff_zero_stepPoly_opposite even c ⟨t, abs_lt.mpr ⟨by linarith [hb.1], by linarith [hb.2]⟩⟩
  · exact coeff_zero_stepPoly_within even c ⟨t, abs_lt.mpr ⟨by linarith [hb.1], by linarith [hb.2]⟩⟩

/-! ### A small ring -/

def plainParams : UniEncParams .w64 :=
  .ofConstruct (show UniEncCryptoParams.construct .w64 .threeDigits ⟨64, 257, 81⟩ ⟨257, List.replicate 32 0⟩ 1 32
    257 64 16 2 .MKNTRU_LWE .UNIFORM_TERNARY false 0 = .ok _ from rfl) rfl (by decide) (by decide) (by decide)
    (by decide) (by decide) (by decide) (by decide) (by decide) (by decide) (by decide)

def plainSk : Acc plainParams := fun _ => 1

theorem plain_party (u : Fin plainParams.k) : u = 0 := by
  have one : plainParams.k = 1 := rfl
  have := u.isLt
  exact Fin.ext (by rw [Fin.val_zero]; omega)

end Gate
end MultiKeyFHE
