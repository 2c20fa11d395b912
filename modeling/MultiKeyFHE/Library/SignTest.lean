import MultiKeyFHE.Library.Circle
import MultiKeyFHE.Library.Rotation
import MultiKeyFHE.Library.Run

/-!
# The sign test

A step polynomial, `c` on the lower half of its coefficients and `-c` on the upper half. Rotating it by
`X ^ z` and reading the constant coefficient tells on which half of the circle modulo `2 * N` the exponent
lies.
-/

namespace Negacyclic.NegPoly
variable {N : ℕ} {K : Type*} [CommRing K] [NeZero N]

def stepPoly (c : K) : NegPoly N K := ⟨fun j => if j.val < N / 2 then c else -c⟩

omit [NeZero N] in
theorem coeff_stepPoly (c : K) (j : Fin N) : (stepPoly c).coeff j = if j.val < N / 2 then c else -c := rfl

theorem xpow_self : (xpow (N : ℤ) : NegPoly N K) = -1 := by rw [xpow_natCast, mono_self]

theorem xpow_sub_self (z : ℤ) : (xpow (z - N) : NegPoly N K) = -xpow z := by
  have h := xpow_add (N := N) (K := K) (z - N) N
  rw [sub_add_cancel, xpow_self, mul_neg, mul_one] at h
  rw [h, neg_neg]

theorem coeff_zero_stepPoly_near (even : 2 ∣ N) (c : K) {z : ℤ} (lo : -(N : ℤ) < 2 * z) (hi : 2 * z ≤ N) :
    (stepPoly c * xpow z : NegPoly N K).coeff 0 = c := by
  have hN : 0 < N := Nat.pos_of_ne_zero (NeZero.ne N)
  rcases lt_trichotomy z 0 with neg | rfl | pos
  · obtain ⟨e, rfl⟩ : ∃ e : ℕ, z = e - N := ⟨(z + N).toNat, by omega⟩
    rw [xpow_sub_self, xpow_natCast, mul_neg, coeff_neg, coeff_zero_mul_mono _ (by omega) (by omega),
      neg_neg, coeff_stepPoly, if_pos (by dsimp only; omega)]
  · rw [xpow_zero, mul_one, coeff_stepPoly, if_pos (by simp; omega)]
  · obtain ⟨e, rfl⟩ : ∃ e : ℕ, z = e := ⟨z.toNat, by omega⟩
    rw [xpow_natCast, coeff_zero_mul_mono _ (by omega) (by omega), coeff_stepPoly,
      if_neg (by dsimp only; omega), neg_neg]

section Sides
open Circle
variable (even : 2 ∣ N) (c : K) {z : ℤ}
include even

theorem coeff_zero_stepPoly_within (near : Within (2 * N) (N / 2) z 0) : (stepPoly c * xpow z : NegPoly N K).coeff 0 = c := by
  obtain ⟨t, ht⟩ := near
  have hb := abs_lt.mp ht
  have same : (xpow z : NegPoly N K) = xpow (z - 2 * N * t) := xpow_congr (Int.modEq_iff_dvd.mpr ⟨-t, by ring⟩)
  have cast : ((z - 2 * N * t : ℤ) : ℚ) = z - t * (2 * N) := by push_cast; ring
  rw [same]
  generalize z - 2 * N * t = y at cast
  have lo : (-(N : ℚ)) < 2 * y := by rw [cast]; linarith [hb.1]
  have hi : 2 * (y : ℚ) ≤ N := by rw [cast]; linarith [hb.2]
  exact coeff_zero_stepPoly_near even c (by exact_mod_cast lo) (by exact_mod_cast hi)

/-- On the far half the exponent less `N` is on the near half. -/
theorem coeff_zero_stepPoly_opposite (near : Within (2 * N) (N / 2) z N) : (stepPoly c * xpow z : NegPoly N K).coeff 0 = -c := by
  obtain ⟨t, ht⟩ := near
  have h := coeff_zero_stepPoly_within even c (z := z - N) ⟨t, by push_cast; rwa [sub_zero]⟩
  rw [xpow_sub_self, mul_neg, coeff_neg] at h
  exact neg_eq_iff_eq_neg.mp h

end Sides

/-- A loop that writes the values from place `b` on, and the negated ones on the second half turn. -/
theorem mul_xpow_of_loop {β : Type*} (value : β → K) {values negated : Fin N → β} (start : Fin N → β)
    (neg : ∀ j, value (negated j) = -value (values j)) {b : ℕ} (hb : b < 2 * N) :
    (⟨fun i => value ((List.finRange N).foldl (fun v j => Function.update v (Fin.ofNat N (b + j.val))
      (if b + j.val ≥ N ∧ b + j.val < 2 * N then negated j else values j)) start i)⟩ : NegPoly N K) =
        ⟨fun j => value (values j)⟩ * xpow b := by
  have shift : ∀ j : Fin N, Fin.ofNat N (b + j.val) = Fin.ofNat N b + j := fun j => Fin.ext (by simp [Fin.val_add])
  have inj : Function.Injective fun j : Fin N => Fin.ofNat N (b + j.val) := fun i j h => by
    simp only [shift] at h
    exact add_left_cancel h
  ext i
  obtain ⟨j, rfl⟩ : ∃ j : Fin N, Fin.ofNat N (b + j.val) = i := ⟨i - Fin.ofNat N b, by rw [shift]; abel⟩
  have written := Run.foldl_update_apply inj
    (fun j => if b + j.val ≥ N ∧ b + j.val < 2 * N then negated j else values j) (List.finRange N) start (List.mem_finRange j)
  rw [xpow_natCast]
  refine Eq.trans ?_ (coeff_mul_mono_shift (⟨fun j => value (values j)⟩ : NegPoly N K) hb j).symm
  dsimp only at written ⊢
  rw [written]
  split
  · exact neg j
  · rfl

end Negacyclic.NegPoly
