import Mathlib.Data.Int.ModEq
import Mathlib.Algebra.Order.Ring.Abs
import Mathlib.Algebra.Order.Ring.Rat
import Mathlib.Algebra.BigOperators.Group.Finset.Basic
import Mathlib.Tactic.Linarith
import Mathlib.Tactic.Positivity
import Mathlib.Tactic.FieldSimp
import Mathlib.Tactic.Ring

/-!
# Distances on a circle

`Near q ε x y` says that `x` and `y` are at most `ε` apart on the circle of circumference `q`. It is how
phases are compared: a phase is a number modulo `q`, and every operation adds some error to it.
-/

namespace Circle

def Near (q ε x y : ℚ) : Prop := ∃ t : ℤ, |x - y - t * q| ≤ ε

/-- The same with a strict bound. -/
def Within (q ε x y : ℚ) : Prop := ∃ t : ℤ, |x - y - t * q| < ε

variable {q ε δ x y z x' y' : ℚ}

theorem Within.near (h : Within q ε x y) : Near q ε x y := by
  obtain ⟨t, ht⟩ := h
  exact ⟨t, ht.le⟩

theorem Near.mono (h : Near q ε x y) (le : ε ≤ δ) : Near q δ x y := by
  obtain ⟨t, ht⟩ := h
  exact ⟨t, ht.trans le⟩

theorem Within.mono (h : Within q ε x y) (le : ε ≤ δ) : Within q δ x y := by
  obtain ⟨t, ht⟩ := h
  exact ⟨t, ht.trans_le le⟩

theorem Near.within (h : Near q ε x y) (lt : ε < δ) : Within q δ x y := by
  obtain ⟨t, ht⟩ := h
  exact ⟨t, ht.trans_lt lt⟩

theorem near_of_abs (h : |x - y| ≤ ε) : Near q ε x y := ⟨0, by simpa using h⟩

theorem near_refl (x : ℚ) : Near q 0 x x := near_of_abs (by simp)

theorem Near.symm (h : Near q ε x y) : Near q ε y x := by
  obtain ⟨t, ht⟩ := h
  refine ⟨-t, ?_⟩
  rw [abs_sub_comm] at ht
  convert ht using 2
  push_cast
  ring

theorem Near.trans (h : Near q ε x y) (h' : Near q δ y z) : Near q (ε + δ) x z := by
  obtain ⟨t, ht⟩ := h
  obtain ⟨s, hs⟩ := h'
  refine ⟨t + s, ?_⟩
  have split : x - z - (t + s : ℤ) * q = (x - y - t * q) + (y - z - s * q) := by push_cast; ring
  rw [split]
  exact (abs_add_le _ _).trans (add_le_add ht hs)

theorem Near.add (h : Near q ε x y) (h' : Near q δ x' y') : Near q (ε + δ) (x + x') (y + y') := by
  obtain ⟨t, ht⟩ := h
  obtain ⟨s, hs⟩ := h'
  refine ⟨t + s, ?_⟩
  have split : x + x' - (y + y') - (t + s : ℤ) * q = (x - y - t * q) + (x' - y' - s * q) := by
    push_cast
    ring
  rw [split]
  exact (abs_add_le _ _).trans (add_le_add ht hs)

theorem Near.sub (h : Near q ε x y) (h' : Near q δ x' y') : Near q (ε + δ) (x - x') (y - y') := by
  obtain ⟨t, ht⟩ := h
  obtain ⟨s, hs⟩ := h'
  refine ⟨t - s, ?_⟩
  have split : x - x' - (y - y') - (t - s : ℤ) * q = (x - y - t * q) - (x' - y' - s * q) := by
    push_cast
    ring
  rw [split]
  exact (abs_sub _ _).trans (add_le_add ht hs)

theorem Near.scale (h : Near q ε x y) {c : ℚ} (hc : 0 ≤ c) : Near (q * c) (ε * c) (x * c) (y * c) := by
  obtain ⟨t, ht⟩ := h
  refine ⟨t, ?_⟩
  have split : x * c - y * c - t * (q * c) = (x - y - t * q) * c := by ring
  rw [split, abs_mul, abs_of_nonneg hc]
  exact mul_le_mul_of_nonneg_right ht hc

/-- A whole number of turns stays one under an integer factor. -/
theorem Near.intMul (h : Near q ε x y) (c : ℤ) : Near q (|(c : ℚ)| * ε) (x * c) (y * c) := by
  obtain ⟨t, ht⟩ := h
  refine ⟨t * c, ?_⟩
  have split : x * c - y * c - (t * c : ℤ) * q = c * (x - y - t * q) := by
    push_cast
    ring
  rw [split, abs_mul]
  exact mul_le_mul_of_nonneg_left ht (abs_nonneg _)

theorem Near.sum {ι : Type*} (l : Finset ι) {ε x y : ι → ℚ} (h : ∀ i ∈ l, Near q (ε i) (x i) (y i)) :
    Near q (∑ i ∈ l, ε i) (∑ i ∈ l, x i) (∑ i ∈ l, y i) := by
  classical
  induction l using Finset.induction with
  | empty => simpa using near_refl 0
  | insert i rest fresh ih =>
    rw [Finset.sum_insert fresh, Finset.sum_insert fresh, Finset.sum_insert fresh]
    exact (h i (Finset.mem_insert_self _ _)).add (ih fun j member => h j (Finset.mem_insert_of_mem member))

theorem Within.trans_near (h : Within q ε x y) (h' : Near q δ y z) : Within q (ε + δ) x z := by
  obtain ⟨t, ht⟩ := h
  obtain ⟨s, hs⟩ := h'
  refine ⟨t + s, ?_⟩
  have split : x - z - (t + s : ℤ) * q = (x - y - t * q) + (y - z - s * q) := by push_cast; ring
  rw [split]
  exact (abs_add_le _ _).trans_lt (add_lt_add_of_lt_of_le ht hs)

theorem Within.add (h : Within q ε x y) (h' : Within q δ x' y') : Within q (ε + δ) (x + x') (y + y') := by
  obtain ⟨t, ht⟩ := h
  obtain ⟨s, hs⟩ := h'
  refine ⟨t + s, ?_⟩
  have split : x + x' - (y + y') - (t + s : ℤ) * q = (x - y - t * q) + (x' - y' - s * q) := by
    push_cast
    ring
  rw [split]
  exact (abs_add_le _ _).trans_lt (add_lt_add ht hs)

theorem Within.neg (h : Within q ε x y) : Within q ε (-x) (-y) := by
  obtain ⟨t, ht⟩ := h
  refine ⟨-t, ?_⟩
  have split : -x - -y - (-t : ℤ) * q = -(x - y - t * q) := by
    push_cast
    ring
  rwa [split, abs_neg]

theorem Within.sub (h : Within q ε x y) (h' : Within q δ x' y') : Within q (ε + δ) (x - x') (y - y') := by
  rw [sub_eq_add_neg, sub_eq_add_neg]
  exact h.add h'.neg

theorem near_of_modEq {m : ℕ} {a b : ℤ} (h : a ≡ b [ZMOD m]) : Near m 0 a b := by
  obtain ⟨t, ht⟩ := h.symm.dvd
  refine ⟨t, ?_⟩
  have same : (a : ℚ) - b = m * t := by exact_mod_cast ht
  rw [same]
  simp [mul_comm]

theorem Within.of_modEq {m : ℕ} {a b : ℤ} (same : a ≡ b [ZMOD m]) (h : Within m ε b y) : Within m ε a y := by
  obtain ⟨t, ht⟩ := h
  obtain ⟨s, hs⟩ := same.symm.dvd
  refine ⟨t + s, ?_⟩
  have moved : (a : ℚ) = b + m * s := by
    have : a = b + m * s := by omega
    exact_mod_cast this
  have split : (a : ℚ) - y - (t + s : ℤ) * m = b - y - t * m := by
    rw [moved]
    push_cast
    ring
  rwa [split]

theorem not_near_of_lt (lo : ε < x - y) (hi : x - y < q - ε) : ¬ Near q ε x y := by
  rintro ⟨t, ht⟩
  have hb := abs_le.mp ht
  rcases lt_trichotomy t 0 with neg | rfl | pos
  · have : (t : ℚ) ≤ -1 := by exact_mod_cast Int.le_sub_one_of_lt neg
    have hq : 0 < q ∨ q ≤ 0 := lt_or_ge 0 q
    rcases hq with hq | hq
    · nlinarith [hb.2]
    · linarith [hb.1, hb.2, abs_nonneg (x - y - t * q)]
  · simp at hb
    linarith
  · have : (1 : ℚ) ≤ t := by exact_mod_cast pos
    rcases lt_or_ge 0 q with hq | hq
    · nlinarith [hb.1]
    · linarith [abs_nonneg (x - y - t * q)]

/-- An arc that leaves out a point of the circle is carried into itself only by the full turn. -/
theorem modEq_zero_of_arc_shift {q B : ℕ} (gap : 2 * B + 1 < q) {t : ℤ}
    (inv : ∀ c : ℤ, |c| ≤ B → ∃ c' : ℤ, |c'| ≤ B ∧ c + t ≡ c' [ZMOD q]) : t ≡ 0 [ZMOD q] := by
  obtain ⟨top, small, moved⟩ := inv B (by simp)
  have bounds := abs_le.mp small
  have step : t ≡ top - B [ZMOD q] := by
    have := moved.sub_right (B : ℤ)
    rwa [add_sub_cancel_left] at this
  rcases eq_or_ne top B with full | short
  · rwa [full, sub_self] at step
  · -- One place below the arc is reached from the point that the turn takes there.
    have inside : |(-B - 1 : ℤ) - (top - B)| ≤ B := abs_le.mpr (by omega)
    obtain ⟨c', small', outside⟩ := inv _ inside
    have bounds' := abs_le.mp small'
    have below : (-B - 1 : ℤ) ≡ c' [ZMOD q] := by
      have := (step.symm.add_left (-B - 1 - (top - B : ℤ))).trans outside
      rwa [sub_add_cancel] at this
    obtain ⟨k, hk⟩ := below.dvd
    have : (0 : ℤ) < q * k := by omega
    have hq : (0 : ℤ) < q := by omega
    have : 1 ≤ k := by
      by_contra hneg
      have : q * k ≤ 0 := mul_nonpos_of_nonneg_of_nonpos hq.le (by omega)
      omega
    have : (q : ℤ) ≤ q * k := le_mul_of_one_le_right hq.le this
    omega

end Circle
