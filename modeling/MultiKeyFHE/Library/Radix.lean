import Mathlib.Data.Nat.Digits.Lemmas
import Mathlib.Data.Nat.Size
import Mathlib.Tactic.Linarith
import Mathlib.Tactic.Ring
import Mathlib.Algebra.BigOperators.Fin

/-!
# Numbers by their digits

Lists of digits, least significant first, as arbitrary-precision integers store them. A canonical list has no zero on
top, except for the one digit of zero; it is the only canonical list of its number. The last part is the digit of a
quotient in long division: two digits of the dividend over one of the divisor estimate it, and the next digits correct
the estimate to one too many at most.
-/

namespace Radix
variable {B n : ℕ} {v : List ℕ}

/-- Zero has one digit. -/
def digits (B n : ℕ) : List ℕ := if n = 0 then [0] else Nat.digits B n

structure Canonical (B : ℕ) (v : List ℕ) : Prop where
  nonempty : v ≠ []
  lt : ∀ x ∈ v, x < B
  top : v.getLastD 0 ≠ 0 ∨ v.length = 1

theorem getLastD_eq (nonempty : v ≠ []) : v.getLastD 0 = v.getLast nonempty := by
  rw [List.getLastD_eq_getLast?, List.getLast?_eq_getLast_of_ne_nil nonempty]
  rfl

theorem ofDigits_digits (B n : ℕ) : Nat.ofDigits B (digits B n) = n := by
  unfold digits
  split
  · rename_i zero
    rw [zero, Nat.ofDigits_singleton]
  · exact Nat.ofDigits_digits B n

theorem canonical_digits (hB : 1 < B) (n : ℕ) : Canonical B (digits B n) := by
  unfold digits
  split
  · exact ⟨by simp, by simpa using by omega, .inr rfl⟩
  · rename_i positive
    refine ⟨Nat.digits_ne_nil_iff_ne_zero.mpr positive, fun x hx => Nat.digits_lt_base hB hx, .inl ?_⟩
    rw [getLastD_eq (Nat.digits_ne_nil_iff_ne_zero.mpr positive)]
    exact Nat.getLast_digit_ne_zero B positive

/-- There is no other canonical list. -/
theorem Canonical.eq_digits (hB : 1 < B) (canonical : Canonical B v) : v = digits B (Nat.ofDigits B v) := by
  rcases canonical.top with top | single
  · have last : ∀ h : v ≠ [], v.getLast h ≠ 0 := fun h => by rwa [← getLastD_eq h]
    have same := Nat.digits_ofDigits B hB v canonical.lt last
    have positive : Nat.ofDigits B v ≠ 0 := by
      intro zero
      rw [zero, Nat.digits_zero] at same
      exact canonical.nonempty same.symm
    rw [digits, if_neg positive, same]
  · obtain ⟨x, rfl⟩ := List.length_eq_one_iff.mp single
    rw [Nat.ofDigits_singleton, digits]
    have below := canonical.lt x (by simp)
    split
    · rename_i zero
      rw [zero]
    · rename_i positive
      exact (Nat.digits_of_lt B x positive below).symm

/-- The digits that repeated division finds, as many as are asked for. -/
theorem sum_digits (B n d : ℕ) : ∑ j : Fin d, n / B ^ j.val % B * B ^ j.val = n % B ^ d := by
  induction d with
  | zero => simp [Nat.mod_one]
  | succ d ih =>
    rw [Fin.sum_univ_castSucc, Nat.mod_pow_succ]
    simp only [Fin.val_castSucc, Fin.val_last]
    rw [ih, mul_comm (n / B ^ d % B)]

theorem ofDigits_lt (hB : 1 < B) (lt : ∀ x ∈ v, x < B) : Nat.ofDigits B v < B ^ v.length :=
  Nat.ofDigits_lt_base_pow_length hB lt

theorem ofDigits_concat (B x : ℕ) (v : List ℕ) : Nat.ofDigits B (v ++ [x]) = Nat.ofDigits B v + B ^ v.length * x := by
  rw [Nat.ofDigits_append, Nat.ofDigits_singleton]

theorem ofDigits_split (B : ℕ) (v : List ℕ) {i : ℕ} (inside : i ≤ v.length) :
    Nat.ofDigits B v = Nat.ofDigits B (v.take i) + B ^ i * Nat.ofDigits B (v.drop i) := by
  conv_lhs => rw [← List.take_append_drop i v, Nat.ofDigits_append, List.length_take, Nat.min_eq_left inside]

theorem ofDigits_drop (B : ℕ) {v : List ℕ} {i : ℕ} (inside : i < v.length) :
    Nat.ofDigits B (v.drop i) = v[i] + B * Nat.ofDigits B (v.drop (i + 1)) := by
  rw [List.drop_eq_getElem_cons inside, Nat.ofDigits_cons]

theorem ofDigits_take_lt (hB : 1 < B) (lt : ∀ x ∈ v, x < B) {i : ℕ} (inside : i ≤ v.length) :
    Nat.ofDigits B (v.take i) < B ^ i := by
  have := ofDigits_lt hB fun x hx => lt x (List.mem_of_mem_take (i := i) hx)
  rwa [List.length_take, Nat.min_eq_left inside] at this

theorem ofDigits_drop_eq_zero {i : ℕ} (inside : i ≤ v.length) (small : Nat.ofDigits B v < B ^ i) :
    Nat.ofDigits B (v.drop i) = 0 := by
  rw [ofDigits_split B v inside] at small
  by_contra positive
  have := Nat.le_mul_of_pos_right (B ^ i) (Nat.pos_of_ne_zero positive)
  omega

theorem canonical_of_le (hB : 1 < B) (nonempty : v ≠ []) (lt : ∀ x ∈ v, x < B) (le : B ^ (v.length - 1) ≤ Nat.ofDigits B v) :
    Canonical B v := by
  refine ⟨nonempty, lt, .inl fun zero => ?_⟩
  obtain ⟨init, x, rfl⟩ : ∃ init x, v = init ++ [x] := ⟨_, _, (List.dropLast_append_getLast nonempty).symm⟩
  have none : x = 0 := by simpa using zero
  have low := ofDigits_lt hB fun y hy => lt y (List.mem_append_left _ hy)
  rw [ofDigits_concat, none, mul_zero, add_zero, List.length_append, List.length_singleton, Nat.add_sub_cancel] at le
  omega

theorem le_ofDigits_digits (hB : 1 < B) (positive : n ≠ 0) : B ^ ((digits B n).length - 1) ≤ n := by
  have canonical := canonical_digits hB n
  obtain ⟨init, x, shape⟩ : ∃ init x, digits B n = init ++ [x] :=
    ⟨_, _, (List.dropLast_append_getLast canonical.nonempty).symm⟩
  have top : x ≠ 0 := by
    have last : (digits B n).getLastD 0 = x := by simp [shape]
    rw [← last, digits, if_neg positive, getLastD_eq (Nat.digits_ne_nil_iff_ne_zero.mpr positive)]
    exact Nat.getLast_digit_ne_zero B positive
  have value := ofDigits_digits B n
  rw [shape, ofDigits_concat] at value
  rw [shape, List.length_append, List.length_singleton, Nat.add_sub_cancel, ← value]
  exact (Nat.le_mul_of_pos_right _ (Nat.pos_of_ne_zero top)).trans (Nat.le_add_left _ _)

theorem replicate_append_digits (hB : 1 < B) (positive : n ≠ 0) (i : ℕ) :
    List.replicate i 0 ++ digits B n = digits B (B ^ i * n) := by
  have canonical := canonical_digits hB n
  have value : Nat.ofDigits B (List.replicate i 0 ++ digits B n) = B ^ i * n := by
    rw [Nat.ofDigits_append, Nat.ofDigits_replicate_zero, List.length_replicate, ofDigits_digits, zero_add]
  have length : 0 < (digits B n).length := List.length_pos_of_ne_nil canonical.nonempty
  rw [← value]
  refine (canonical_of_le hB (by simp [canonical.nonempty]) ?_ ?_).eq_digits hB
  · intro x hx
    rcases List.mem_append.mp hx with hx | hx
    · rw [List.eq_of_mem_replicate hx]
      omega
    · exact canonical.lt x hx
  · rw [value, List.length_append, List.length_replicate, Nat.add_sub_assoc length, pow_add]
    exact Nat.mul_le_mul_left _ (le_ofDigits_digits hB positive)

/-! ### Bits -/

theorem size_add_mul {e low x : ℕ} (small : low < 2 ^ e) (positive : x ≠ 0) : (low + 2 ^ e * x).size = e + x.size := by
  have top : 2 ^ (x.size - 1) ≤ x := Nat.lt_size.mp (by
    have := Nat.size_pos.mpr (Nat.pos_of_ne_zero positive)
    omega)
  have above : x < 2 ^ x.size := Nat.lt_size_self x
  have bits : 1 ≤ x.size := Nat.size_pos.mpr (Nat.pos_of_ne_zero positive)
  refine le_antisymm (Nat.size_le.mpr ?_) ?_
  · calc low + 2 ^ e * x < 2 ^ e * (x + 1) := by rw [mul_add, mul_one]; omega
      _ ≤ 2 ^ e * 2 ^ x.size := Nat.mul_le_mul_left _ above
      _ = 2 ^ (e + x.size) := (pow_add 2 e x.size).symm
  · have reached : 2 ^ (e + (x.size - 1)) ≤ low + 2 ^ e * x := by
      rw [pow_add]
      exact (Nat.mul_le_mul_left _ top).trans (Nat.le_add_left _ _)
    have := Nat.lt_size.mpr reached
    omega

theorem Canonical.size_eq {k : ℕ} (hk : 1 ≤ k) (canonical : Canonical (2 ^ k) v) :
    (Nat.ofDigits (2 ^ k) v).size = k * (v.length - 1) + (v.getLastD 0).size := by
  have hB : 1 < 2 ^ k := Nat.one_lt_two_pow (by omega)
  obtain ⟨init, x, rfl⟩ : ∃ init x, v = init ++ [x] :=
    ⟨_, _, (List.dropLast_append_getLast canonical.nonempty).symm⟩
  have low := ofDigits_lt hB fun y hy => canonical.lt y (List.mem_append_left _ hy)
  have last : (init ++ [x]).getLastD 0 = x := by simp
  have length : (init ++ [x]).length - 1 = init.length := by simp
  rw [ofDigits_concat, last, length]
  rw [← pow_mul] at low ⊢
  by_cases zero : x = 0
  · rcases canonical.top with top | single
    · exact absurd (last.trans zero) top
    · have empty : init = [] := List.length_eq_zero_iff.mp (by simpa using single)
      subst zero empty
      simp
  · exact size_add_mul low zero

/-! ### The digit of a quotient -/

/-- The top of a dividend and of a divisor with a common power `P` of the radix below. -/
structure Tops (B P U V u2 u1 u0 v1 v0 : ℕ) : Prop where
  dividend : ((u2 * B + u1) * B + u0) * P ≤ U ∧ U < ((u2 * B + u1) * B + u0 + 1) * P
  divisor : (v1 * B + v0) * P ≤ V ∧ V < (v1 * B + v0 + 1) * P
  digit : u0 < B
  positive : 0 < v1
  room : U < B * V

variable {P U V u2 u1 u0 v1 v0 qhat rhat : ℕ}

/-- The top digit of the dividend is not above that of the divisor. -/
theorem Tops.top_le (tops : Tops B P U V u2 u1 u0 v1 v0) (hv : v0 < B) : u2 ≤ v1 := by
  obtain ⟨lower, -⟩ := tops.dividend
  obtain ⟨-, upper⟩ := tops.divisor
  have room := tops.room
  by_contra above
  have large : (v1 * B + v0 + 1) * (B * P) ≤ ((u2 * B + u1) * B + u0) * P := by
    calc (v1 * B + v0 + 1) * (B * P) ≤ ((v1 + 1) * B) * (B * P) := Nat.mul_le_mul_right _ (by rw [add_mul, one_mul]; omega)
      _ ≤ (u2 * B) * (B * P) := Nat.mul_le_mul_right _ (Nat.mul_le_mul_right _ (by omega))
      _ = u2 * B * B * P := by ring
      _ ≤ ((u2 * B + u1) * B + u0) * P := by
        refine Nat.mul_le_mul_right P ?_
        rw [add_mul]
        omega
  have small : B * V ≤ (v1 * B + v0 + 1) * (B * P) := by
    calc B * V ≤ B * ((v1 * B + v0 + 1) * P) := Nat.mul_le_mul_left _ upper.le
      _ = (v1 * B + v0 + 1) * (B * P) := by ring
  omega

theorem Tops.quotient_le (tops : Tops B P U V u2 u1 u0 v1 v0) : U / V ≤ (u2 * B + u1) / v1 := by
  rw [Nat.le_div_iff_mul_le tops.positive]
  have lower : U / V * V ≤ U := Nat.div_mul_le_self U V
  have digit := tops.digit
  by_contra far
  have step : u2 * B + u1 + 1 ≤ U / V * v1 := by omega
  have more : (u2 * B + u1 + 1) * B * P ≤ U / V * V := by
    calc (u2 * B + u1 + 1) * B * P ≤ U / V * v1 * B * P := by gcongr
      _ = U / V * (v1 * B * P) := by ring
      _ ≤ U / V * ((v1 * B + v0) * P) := by gcongr; omega
      _ ≤ U / V * V := by gcongr; exact tops.divisor.1
  have above := tops.dividend.2
  have fits : ((u2 * B + u1) * B + u0 + 1) * P ≤ (u2 * B + u1 + 1) * B * P := by
    refine Nat.mul_le_mul_right P ?_
    have expand : (u2 * B + u1 + 1) * B = (u2 * B + u1) * B + B := by ring
    omega
  omega

/-- When the test says so, the estimate is too large. -/
theorem Tops.lt_of_test (tops : Tops B P U V u2 u1 u0 v1 v0) (split : qhat * v1 + rhat = u2 * B + u1)
    (test : B ≤ qhat ∨ rhat * B + u0 < qhat * v0) : U / V < qhat := by
  have divisor := tops.divisor.1
  rcases test with large | more
  · have := tops.room
    exact (Nat.div_lt_of_lt_mul (by rwa [mul_comm])).trans_le large
  · refine Nat.div_lt_of_lt_mul ?_
    have top : (u2 * B + u1) * B + u0 + 1 ≤ qhat * (v1 * B + v0) := by
      rw [← split]
      have : qhat * (v1 * B + v0) = qhat * v1 * B + qhat * v0 := by ring
      rw [this, add_mul]
      omega
    calc U < ((u2 * B + u1) * B + u0 + 1) * P := tops.dividend.2
      _ ≤ qhat * (v1 * B + v0) * P := Nat.mul_le_mul_right P top
      _ = qhat * ((v1 * B + v0) * P) := by ring
      _ ≤ qhat * V := Nat.mul_le_mul_left _ divisor
      _ = V * qhat := mul_comm ..

/-- When it does not, the estimate is one too many at most. -/
theorem Tops.le_succ (tops : Tops B P U V u2 u1 u0 v1 v0) (split : qhat * v1 + rhat = u2 * B + u1) (small : qhat < B)
    (passed : qhat * v0 ≤ rhat * B + u0) : qhat ≤ U / V + 1 := by
  obtain ⟨lower, upper⟩ := tops.divisor
  have positive := tops.positive
  have top : qhat * (v1 * B + v0) ≤ (u2 * B + u1) * B + u0 := by
    rw [← split]
    have : qhat * (v1 * B + v0) = qhat * v1 * B + qhat * v0 := by ring
    rw [this, add_mul]
    omega
  have below : qhat * ((v1 * B + v0) * P) ≤ U := by
    calc qhat * ((v1 * B + v0) * P) = qhat * (v1 * B + v0) * P := by ring
      _ ≤ ((u2 * B + u1) * B + u0) * P := Nat.mul_le_mul_right P top
      _ ≤ U := tops.dividend.1
  by_contra far
  obtain ⟨d, rfl⟩ : ∃ d, qhat = U / V + 1 + (d + 1) := ⟨qhat - U / V - 2, by omega⟩
  have hV : 0 < V := by
    by_contra zero
    have none : V = 0 := by omega
    have := tops.room
    rw [none, mul_zero] at this
    omega
  have quotient : U < (U / V + 1) * V := by
    have := Nat.lt_div_mul_add (a := U) hV
    rwa [add_mul, one_mul]
  -- The divisor is at least one digit above `P`, and `qhat` is a digit.
  have digit : B * P ≤ (v1 * B + v0) * P := Nat.mul_le_mul_right P (by nlinarith)
  have part : (U / V + 1 + (d + 1)) * P ≤ B * P := Nat.mul_le_mul_right P small.le
  nlinarith

theorem tops_of_digits (hB : 1 < B) {u v : List ℕ} {k : ℕ} (hv : v.length = k + 2) (hu : k + 3 ≤ u.length)
    (ltv : ∀ x ∈ v, x < B) (ltu : ∀ x ∈ u, x < B) (top : v[k + 1] ≠ 0) (room : Nat.ofDigits B u < B * Nat.ofDigits B v) :
    Tops B (B ^ k) (Nat.ofDigits B u) (Nat.ofDigits B v) u[k + 2] u[k + 1] u[k] v[k + 1] v[k] := by
  have lowV := ofDigits_take_lt hB ltv (i := k) (by omega)
  have lowU := ofDigits_take_lt hB ltu (i := k) (by omega)
  have none : Nat.ofDigits B (u.drop (k + 3)) = 0 := by
    refine ofDigits_drop_eq_zero hu (room.trans_le ?_)
    have := ofDigits_lt hB ltv
    rw [hv] at this
    rw [pow_succ' B (k + 2)]
    exact Nat.mul_le_mul_left _ this.le
  have V : Nat.ofDigits B v = Nat.ofDigits B (v.take k) + B ^ k * (v[k + 1] * B + v[k]) := by
    rw [ofDigits_split B v (i := k) (by omega), ofDigits_drop B (by omega), ofDigits_drop B (by omega),
      List.drop_eq_nil_of_le (by omega), Nat.ofDigits_nil]
    ring
  have U : Nat.ofDigits B u = Nat.ofDigits B (u.take k) + B ^ k * ((u[k + 2] * B + u[k + 1]) * B + u[k]) := by
    rw [ofDigits_split B u (i := k) (by omega), ofDigits_drop B (by omega), ofDigits_drop B (by omega),
      ofDigits_drop B (by omega), none]
    ring
  have between : ∀ {low x : ℕ}, low < B ^ k → x * B ^ k ≤ low + B ^ k * x ∧ low + B ^ k * x < (x + 1) * B ^ k := by
    intro low x small
    rw [add_mul, one_mul, mul_comm x]
    omega
  exact ⟨U ▸ between lowU, V ▸ between lowV, ltu _ (List.getElem_mem _), Nat.pos_of_ne_zero top, room⟩

end Radix
