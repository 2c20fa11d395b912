import MultiKeyFHE.Library.Negacyclic
import Mathlib.Data.Nat.Cast.Order.Field
import Mathlib.Data.Real.Basic
import Mathlib.Algebra.Ring.Parity

/-!
# Rotation by powers of `X`

Multiplying by `X ^ e` in `K[X]/(X^N + 1)` shifts the coefficients and turns the sign of those that
wrap. `xpow` extends the exponent to the integers, where it has period `2 * N`. Over `ZMod Q` the
rotation keeps the centered size of every coefficient.
-/

namespace Negacyclic.NegPoly

variable {N : ℕ} {K : Type*} [CommRing K] [NeZero N]

theorem toAdjoin_mono (e : ℕ) : toAdjoin (mono e : NegPoly N K) = AdjoinRoot.root _ ^ e :=
  evalAt_mono root_pow e

@[simp] theorem mono_zero : (mono 0 : NegPoly N K) = 1 :=
  toAdjoin_injective (by rw [toAdjoin_mono, pow_zero, toAdjoin_one])

theorem mono_add (a b : ℕ) : (mono (a + b) : NegPoly N K) = mono a * mono b :=
  toAdjoin_injective (by rw [toAdjoin_mul, toAdjoin_mono, toAdjoin_mono, toAdjoin_mono, pow_add])

theorem mono_self : (mono N : NegPoly N K) = -1 :=
  toAdjoin_injective (by
    rw [toAdjoin_mono, root_pow, toAdjoin, evalAt_neg]
    exact congrArg Neg.neg toAdjoin_one.symm)

theorem mono_two_mul : (mono (2 * N) : NegPoly N K) = 1 := by
  rw [two_mul, mono_add, mono_self, neg_mul_neg, one_mul]

theorem mono_add_mul (e t : ℕ) : (mono (e + 2 * N * t) : NegPoly N K) = mono e := by
  induction t with
  | zero => simp
  | succ t ih => rw [Nat.mul_succ, ← Nat.add_assoc, mono_add, ih, mono_two_mul, mul_one]

theorem mono_mod (e : ℕ) : (mono (e % (2 * N)) : NegPoly N K) = mono e := by
  conv_rhs => rw [← Nat.mod_add_div e (2 * N)]
  rw [mono_add_mul]

def xpow (z : ℤ) : NegPoly N K := mono (z % (2 * N : ℤ)).toNat

theorem two_mul_pos : (0 : ℤ) < 2 * N := by
  have := Nat.pos_of_ne_zero (NeZero.ne N)
  omega

@[simp] theorem xpow_natCast (e : ℕ) : (xpow (e : ℤ) : NegPoly N K) = mono e := by
  rw [xpow, show ((e : ℤ) % (2 * N : ℤ)).toNat = e % (2 * N) by
    rw [show (2 * N : ℤ) = ((2 * N : ℕ) : ℤ) by push_cast; rfl, ← Int.natCast_mod, Int.toNat_natCast],
    mono_mod]

@[simp] theorem xpow_zero : (xpow 0 : NegPoly N K) = 1 := by
  rw [← Int.natCast_zero, xpow_natCast, mono_zero]

omit [NeZero N] in
theorem xpow_congr {a b : ℤ} (h : a ≡ b [ZMOD 2 * N]) : (xpow a : NegPoly N K) = xpow b := by
  rw [xpow, xpow, h]

theorem xpow_add (a b : ℤ) : (xpow (a + b) : NegPoly N K) = xpow a * xpow b := by
  have hN := two_mul_pos (N := N)
  rw [xpow, xpow, xpow, ← mono_add, ← xpow_natCast, ← xpow_natCast]
  apply xpow_congr
  push_cast
  rw [Int.toNat_of_nonneg (Int.emod_nonneg _ hN.ne'), Int.toNat_of_nonneg (Int.emod_nonneg _ hN.ne'),
    Int.toNat_of_nonneg (Int.emod_nonneg _ hN.ne')]
  exact (Int.mod_modEq _ _).trans ((Int.mod_modEq _ _).symm.add (Int.mod_modEq _ _).symm)

theorem xpow_mul_neg (z : ℤ) : (xpow z * xpow (-z) : NegPoly N K) = 1 := by
  rw [← xpow_add, add_neg_cancel, xpow_zero]

theorem xpow_sum {ι : Type*} (s : Finset ι) (f : ι → ℤ) :
    (xpow (∑ i ∈ s, f i) : NegPoly N K) = ∏ i ∈ s, xpow (f i) := by
  classical
  induction s using Finset.induction_on with
  | empty => simp
  | insert i s fresh ih => rw [Finset.sum_insert fresh, Finset.prod_insert fresh, xpow_add, ih]

/-- Products of factors that are `1` at zero agree for all vectors below `c` where the factors do. -/
theorem forall_prod_eq_iff {M : Type*} [CommMonoid M] {n c : ℕ} {F G : Fin n → ℕ → M} (hc : 0 < c)
    (hF : ∀ i, F i 0 = 1) (hG : ∀ i, G i 0 = 1) :
    (∀ a : Fin n → ℕ, (∀ i, a i < c) → ∏ i, F i (a i) = ∏ i, G i (a i)) ↔ ∀ i, ∀ x, x < c → F i x = G i x := by
  constructor
  · intro same i x hx
    -- the vector with `x` at `i` and zero elsewhere
    have once := same (Pi.single i x) fun j => by
      by_cases h : j = i
      · subst h
        rwa [Pi.single_eq_same]
      · rwa [Pi.single_eq_of_ne h]
    have only : ∀ H : Fin n → ℕ → M, (∀ j, H j 0 = 1) → ∏ j, H j ((Pi.single i x : Fin n → ℕ) j) = H i x := by
      intro H zero
      rw [Fintype.prod_eq_single i fun j h => by rw [Pi.single_eq_of_ne h, zero], Pi.single_eq_same]
    rwa [only F hF, only G hG] at once
  · intro same a ha
    exact Finset.prod_congr rfl fun i _ => same i (a i) (ha i)

/-! ### Coefficients of a rotated polynomial -/

theorem coeff_mul_mono (a : NegPoly N K) {e : ℕ} (he : e < N) (k : Fin N) :
    (a * mono e).coeff k =
      if h : e ≤ k.val then a.coeff ⟨k.val - e, by omega⟩ else -a.coeff ⟨k.val + N - e, by omega⟩ := by
  have hk := k.isLt
  -- The only index that meets the monomial is `k - e`.
  rw [coeff_mul, Finset.sum_eq_single (k - ⟨e, he⟩)]
  · have hsub : k - (k - (⟨e, he⟩ : Fin N)) = ⟨e, he⟩ := by abel
    have hmono : (mono e : NegPoly N K).coeff ⟨e, he⟩ = 1 := by
      rw [coeff_mono, Nat.mod_eq_of_lt he, Nat.div_eq_of_lt he, if_pos rfl, pow_zero]
    rw [hsub, hmono, mul_one]
    by_cases h : e ≤ k.val
    · have hv : (k - (⟨e, he⟩ : Fin N)).val = k.val - e := Fin.sub_val_of_le h
      rw [if_pos (by rw [Fin.le_def, hv]; omega), dif_pos h]
      congr 1
      exact Fin.ext hv
    · have hv : (k - (⟨e, he⟩ : Fin N)).val = k.val + N - e := by
        rw [Fin.val_sub, Nat.mod_eq_of_lt (by dsimp only; omega)]
        dsimp only
        omega
      rw [if_neg (by rw [Fin.le_def, hv]; omega), dif_neg h]
      congr 2
      exact Fin.ext hv
  · intro i _ hi
    have hne : (k - i).val ≠ e % N := by
      intro h
      rw [Nat.mod_eq_of_lt he] at h
      apply hi
      rw [show (⟨e, he⟩ : Fin N) = k - i from Fin.ext h.symm]
      abel
    simp [coeff_mono, hne]
  · simp

theorem coeff_zero_mul_mono (a : NegPoly N K) {e : ℕ} (hpos : 0 < e) (he : e < N) :
    (a * mono e).coeff 0 = -a.coeff ⟨N - e, by omega⟩ := by
  rw [coeff_mul_mono a he, dif_neg (by simp; omega)]
  congr 2
  exact Fin.ext (by simp)

theorem mono_eq_neg {e : ℕ} (he : N ≤ e) : (mono e : NegPoly N K) = -mono (e - N) := by
  conv_lhs => rw [← Nat.sub_add_cancel he]
  rw [mono_add, mono_self, mul_neg, mul_one]

theorem coeff_mul_mono_shift (a : NegPoly N K) {e : ℕ} (he : e < 2 * N) (j : Fin N) :
    (a * mono e).coeff ⟨(e + j.val) % N, Nat.mod_lt _ (Nat.pos_of_ne_zero (NeZero.ne N))⟩ =
      if N ≤ e + j.val ∧ e + j.val < 2 * N then -a.coeff j else a.coeff j := by
  have hj := j.isLt
  have low : ∀ e, e < N → (a * mono e).coeff ⟨(e + j.val) % N, Nat.mod_lt _ (by omega)⟩ =
      if N ≤ e + j.val then -a.coeff j else a.coeff j := by
    intro e he
    rw [coeff_mul_mono a he]
    rcases Nat.lt_or_ge (e + j.val) N with h | h
    · simp only [Nat.mod_eq_of_lt h]
      rw [dif_pos (by omega), if_neg (by omega)]
      exact congrArg a.coeff (Fin.ext (by simp))
    · have hmod : (e + j.val) % N = e + j.val - N := by
        rw [Nat.mod_eq_sub_mod h, Nat.mod_eq_of_lt (by omega)]
      simp only [hmod]
      rw [dif_neg (by omega), if_pos h]
      exact congrArg (fun i => -a.coeff i) (Fin.ext (by simp; omega))
  rcases Nat.lt_or_ge e N with h | h
  · rw [low e h]
    have : (N ≤ e + j.val ∧ e + j.val < 2 * N) ↔ N ≤ e + j.val := by omega
    simp only [this]
  · obtain ⟨e, rfl⟩ : ∃ d, e = d + N := ⟨e - N, by omega⟩
    have hmod : (e + N + j.val) % N = (e + j.val) % N := by
      rw [show e + N + j.val = e + j.val + N by ring, Nat.add_mod_right]
    simp only [hmod]
    rw [mono_eq_neg (by omega), Nat.add_sub_cancel, mul_neg, coeff_neg, low e (by omega)]
    have : (N ≤ e + N + j.val ∧ e + N + j.val < 2 * N) ↔ ¬ N ≤ e + j.val := by omega
    simp only [this]
    split <;> simp_all

theorem two_mul_dvd_of_mono_eq_one (h2 : (1 : K) ≠ -1) {e : ℕ} (h : (mono e : NegPoly N K) = 1) :
    2 * N ∣ e := by
  have hN := Nat.pos_of_ne_zero (NeZero.ne N)
  have hc := congrArg (fun p => p.coeff ⟨e % N, Nat.mod_lt e hN⟩) h
  simp only [coeff_mono, if_true, coeff_one] at hc
  split at hc
  · rename_i hz
    have heven : Even (e / N) := by
      by_contra hodd
      rw [(Nat.not_even_iff_odd.mp hodd).neg_one_pow] at hc
      exact h2 hc.symm
    obtain ⟨t, ht⟩ := heven
    refine ⟨t, ?_⟩
    have := Nat.mod_add_div e N
    rw [hz, ht] at this
    rw [← this]
    ring
  · have hzero : (1 : K) = -1 := by
      rcases Nat.even_or_odd (e / N) with hp | hp
      · rw [hp.neg_one_pow] at hc
        rw [hc, neg_zero]
      · rw [hp.neg_one_pow] at hc
        rw [hc, ← neg_neg (1 : K), hc, neg_zero]
    exact absurd hzero h2

theorem modEq_of_xpow_eq (h2 : (1 : K) ≠ -1) {a b : ℤ} (h : (xpow a : NegPoly N K) = xpow b) :
    a ≡ b [ZMOD 2 * N] := by
  have hN := two_mul_pos (N := N)
  have hone : (xpow (a - b) : NegPoly N K) = 1 := by
    rw [sub_eq_add_neg, xpow_add, h, xpow_mul_neg]
  have hdvd := two_mul_dvd_of_mono_eq_one h2 hone
  have hz : (2 * N : ℤ) ∣ (a - b) % (2 * N : ℤ) := by
    have := Int.natCast_dvd_natCast.mpr hdvd
    rwa [Int.toNat_of_nonneg (Int.emod_nonneg _ hN.ne'), Nat.cast_mul, Nat.cast_two] at this
  exact (Int.modEq_iff_dvd.mpr ((Int.dvd_iff_emod_eq_zero).mpr
    (by rw [← Int.emod_emod_of_dvd _ (dvd_refl _)]; exact Int.emod_eq_zero_of_dvd hz))).symm

/-! ### Centered size -/

section Bound
variable {Q : ℕ}

/-- Every centered coefficient is at most `δ` in absolute value. -/
def Bounded (δ : ℝ) (a : NegPoly N (ZMod Q)) : Prop := ∀ i, ((a.coeff i).valMinAbs.natAbs : ℝ) ≤ δ

omit [NeZero N] in
theorem bounded_zero : Bounded 0 (0 : NegPoly N (ZMod Q)) := fun i => by simp

omit [NeZero N] in
theorem bounded_half [NeZero Q] (a : NegPoly N (ZMod Q)) : Bounded (Q / 2) a := fun i =>
  (Nat.cast_le.mpr (ZMod.natAbs_valMinAbs_le (a.coeff i))).trans Nat.cast_div_le

omit [NeZero N] in
theorem Bounded.add [NeZero Q] {δ ε : ℝ} {a b : NegPoly N (ZMod Q)} (ha : Bounded δ a) (hb : Bounded ε b) :
    Bounded (δ + ε) (a + b) := by
  intro i
  have h : (a.coeff i + b.coeff i).valMinAbs.natAbs ≤
      (a.coeff i).valMinAbs.natAbs + (b.coeff i).valMinAbs.natAbs :=
    (ZMod.natAbs_valMinAbs_add_le _ _).trans (Int.natAbs_add_le _ _)
  calc (((a + b).coeff i).valMinAbs.natAbs : ℝ)
      ≤ ((a.coeff i).valMinAbs.natAbs + (b.coeff i).valMinAbs.natAbs : ℕ) := by exact_mod_cast h
    _ = (a.coeff i).valMinAbs.natAbs + (b.coeff i).valMinAbs.natAbs := by push_cast; rfl
    _ ≤ δ + ε := add_le_add (ha i) (hb i)

omit [NeZero N] in
theorem Bounded.neg {δ : ℝ} {a : NegPoly N (ZMod Q)} (ha : Bounded δ a) : Bounded δ (-a) := by
  intro i
  rw [coeff_neg, ZMod.natAbs_valMinAbs_neg]
  exact ha i

theorem Bounded.mul_mono_lt {δ : ℝ} {a : NegPoly N (ZMod Q)} (ha : Bounded δ a) {e : ℕ} (he : e < N) :
    Bounded δ (a * mono e) := by
  intro k
  rw [coeff_mul_mono a he]
  split
  · exact ha _
  · rw [ZMod.natAbs_valMinAbs_neg]
    exact ha _

theorem Bounded.mul_xpow {δ : ℝ} {a : NegPoly N (ZMod Q)} (ha : Bounded δ a) (z : ℤ) :
    Bounded δ (a * xpow z) := by
  have hN := two_mul_pos (N := N)
  have hlt : (z % (2 * N : ℤ)).toNat < 2 * N := by
    have := Int.emod_lt_of_pos z hN
    have := Int.emod_nonneg z hN.ne'
    omega
  rw [xpow]
  generalize (z % (2 * N : ℤ)).toNat = e at hlt
  rcases Nat.lt_or_ge e N with h | h
  · exact ha.mul_mono_lt h
  · rw [mono_eq_neg h, mul_neg]
    exact (ha.mul_mono_lt (by omega)).neg

end Bound
end Negacyclic.NegPoly
