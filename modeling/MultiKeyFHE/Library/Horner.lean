import Mathlib.Algebra.BigOperators.Group.List.Basic
import Mathlib.Tactic.Ring

/-!
# Values of coefficient lists

The value at a point of the polynomial with given coefficients, and how it changes with the list.
-/

namespace Horner
variable {R : Type*} [CommRing R]

/-- The value at `s` of the polynomial with these coefficients. -/
def value (s : R) : List R → R
  | [] => 0
  | x :: l => x + s * value s l

variable {s : R}

@[simp] theorem value_nil : value s [] = 0 := rfl
@[simp] theorem value_cons (x : R) (l : List R) : value s (x :: l) = x + s * value s l := rfl

@[simp] theorem value_replicate_zero (n : ℕ) : value s (List.replicate n 0) = 0 := by
  induction n with
  | zero => rfl
  | succ n ih => simp [List.replicate_succ, ih]

theorem value_map_neg (l : List R) : value s (l.map (-·)) = -value s l := by
  induction l with
  | nil => simp
  | cons x l ih =>
    rw [List.map_cons, value_cons, value_cons, ih]
    ring

theorem value_modify {l : List R} {k : ℕ} (inside : k < l.length) (p : R) :
    value s (l.modify k (· + p)) = value s l + s ^ k * p := by
  induction l generalizing k with
  | nil => exact absurd inside (Nat.not_lt_zero k)
  | cons x l ih =>
    cases k with
    | zero => simp only [List.modify_zero_cons, value_cons, pow_zero]; ring
    | succ k =>
      rw [List.modify_succ_cons, value_cons, value_cons, ih (Nat.lt_of_succ_lt_succ inside)]
      ring

end Horner
