import MultiKeyFHE.Library.SignTest
import Mathlib.Algebra.Ring.Periodic

/-!
# Looking up a value by rotation

A function on the circle modulo `2 * half` that changes its sign after half a turn fits into a polynomial modulo
`X ^ N + 1`: its values stand `step` places apart, with `step * half = N`. A rotation by `step * u` brings the value
at distance `u` to the constant coefficient. Of any other function a polynomial has one half, and the rotation finds the
opposite of its values there on the other.
-/

namespace Negacyclic.NegPoly
variable {N : ℕ} {K : Type*} [CommRing K]

/-- The values of `F` at `b`, `b - 1` and so on, every `step` places. -/
def lookUp (step : ℕ) (F : ℤ → K) (b : ℤ) : NegPoly N K :=
  ⟨fun i => if step ∣ i.val then F (b - (i.val / step : ℕ)) else 0⟩

variable [NeZero N]

theorem coeff_zero_mul_xpow_neg (a : NegPoly N K) {e : ℕ} (he : e < N) :
    (a * xpow (-(e : ℤ))).coeff 0 = a.coeff ⟨e, he⟩ := by
  rcases Nat.eq_zero_or_pos e with rfl | pos
  · rw [Nat.cast_zero, neg_zero, xpow_zero, mul_one]
    rfl
  · have back : (-(e : ℤ)) = ((N - e : ℕ) : ℤ) - N := by
      rw [Nat.cast_sub he.le]
      ring
    rw [back, xpow_sub_self, xpow_natCast, mul_neg, coeff_neg, coeff_zero_mul_mono _ (by omega) (by omega), neg_neg]
    congr 2
    omega

variable {step half : ℕ} {F : ℤ → K}

theorem coeff_zero_lookUp_near (size : step * half = N) (b : ℤ) {u : ℕ} (hu : u < half) :
    (lookUp step F b * xpow (-((step : ℤ) * u)) : NegPoly N K).coeff 0 = F (b - u) := by
  have step_pos : 0 < step := by
    rcases Nat.eq_zero_or_pos step with rfl | pos
    · exact absurd (size.symm.trans (zero_mul half)) (NeZero.ne N)
    · exact pos
  have inside : step * u < N := by
    rw [← size]
    exact Nat.mul_lt_mul_of_pos_left hu step_pos
  rw [← Nat.cast_mul, coeff_zero_mul_xpow_neg _ inside, lookUp]
  dsimp only
  rw [if_pos (dvd_mul_right step u), Nat.mul_div_cancel_left u step_pos]

/-- The rotation by `step * u` looks up `F` at `b - u`, whatever the integer `u`. -/
theorem coeff_zero_lookUp (size : step * half = N) (anti : Function.Antiperiodic F (half : ℤ)) (b u : ℤ) :
    (lookUp step F b * xpow (-(step * u)) : NegPoly N K).coeff 0 = F (b - u) := by
  have half_pos : 0 < half := by
    rcases Nat.eq_zero_or_pos half with rfl | pos
    · exact absurd (size.symm.trans (mul_zero step)) (NeZero.ne N)
    · exact pos
  -- the remainder of `u` after full turns, below two halves
  obtain ⟨t, r, hr, rfl⟩ : ∃ (t : ℤ) (r : ℕ), r < 2 * half ∧ u = r + t * (2 * half) := by
    have pos : (0 : ℤ) < 2 * half := by omega
    refine ⟨u / (2 * half), (u % (2 * half)).toNat, ?_, ?_⟩
    · have := Int.emod_lt_of_pos u pos
      have := Int.emod_nonneg u pos.ne'
      omega
    · rw [Int.toNat_of_nonneg (Int.emod_nonneg u pos.ne')]
      have := Int.emod_add_mul_ediv u (2 * half)
      linarith
  have turns : (xpow (-(step * (r + t * (2 * half)))) : NegPoly N K) = xpow (-((step : ℤ) * r)) := by
    refine xpow_congr (Int.modEq_iff_dvd.mpr ⟨t, ?_⟩)
    rw [← size]
    push_cast
    ring
  have periodic : F (b - (r + t * (2 * half))) = F (b - r) := by
    have := anti.periodic.int_mul t (b - (r + t * (2 * half)))
    rw [← this]
    congr 1
    simp only [nsmul_eq_mul, Nat.cast_ofNat, Int.cast_id]
    ring
  rw [turns, periodic]
  rcases Nat.lt_or_ge r half with near | far
  · exact coeff_zero_lookUp_near size b near
  · have split : (-((step : ℤ) * r)) = -((step : ℤ) * (r - half : ℕ)) - N := by
      rw [← size, Nat.cast_sub far]
      push_cast
      ring
    rw [split, xpow_sub_self, mul_neg, coeff_neg, coeff_zero_lookUp_near size b (by omega), Nat.cast_sub far,
      show b - ((r : ℤ) - half) = b - r + half by ring, anti, neg_neg]

/-! ### A function of any kind -/

/-- `F` on the half of the circle that ends at `b`, and its opposite on the other. -/
def halfTurn (half : ℕ) (b : ℤ) (F : ℤ → K) (x : ℤ) : K :=
  if (b - x) % (2 * half) < half then F x else -F (x + half)

theorem halfTurn_antiperiodic (pos : 0 < half) (b : ℤ) (periodic : Function.Periodic F (2 * half : ℤ)) :
    Function.Antiperiodic (halfTurn half b F) (half : ℤ) := by
  intro x
  have lo := Int.emod_nonneg (b - x) (show (2 * half : ℤ) ≠ 0 by omega)
  have hi := Int.emod_lt_of_pos (b - x) (show (0 : ℤ) < 2 * half by omega)
  have shifted : (b - (x + half)) % (2 * half : ℤ) = ((b - x) % (2 * half) - half) % (2 * half) := by
    rw [Int.emod_sub_emod, sub_sub]
  rw [halfTurn, halfTurn, shifted]
  rcases lt_or_ge ((b - x) % (2 * half : ℤ)) half with near | far
  · rw [if_pos near, ← Int.add_emod_right, Int.emod_eq_of_lt (by omega) (by omega), if_neg (by omega), add_assoc, ← two_mul,
      periodic]
  · have rest : ((b - x) % (2 * half : ℤ) - half) % (2 * half) = (b - x) % (2 * half) - half :=
      Int.emod_eq_of_lt (by omega) (by omega)
    rw [rest, if_pos (by omega), if_neg (by omega), neg_neg]

theorem lookUp_halfTurn (size : step * half = N) (b : ℤ) (F : ℤ → K) :
    (lookUp step (halfTurn half b F) b : NegPoly N K) = lookUp step F b := by
  ext i
  rw [lookUp, lookUp]
  dsimp only
  split
  · have inside : i.val / step < half := by
      have positive : 0 < step * half := size ▸ NeZero.pos N
      rw [Nat.div_lt_iff_lt_mul (Nat.pos_of_mul_pos_right positive), mul_comm, size]
      exact i.isLt
    generalize i.val / step = k at inside
    rw [halfTurn, sub_sub_cancel, Int.emod_eq_of_lt (by omega) (by omega), if_pos (by omega)]
  · rfl

end Negacyclic.NegPoly
