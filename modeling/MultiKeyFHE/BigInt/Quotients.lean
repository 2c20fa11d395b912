import MultiKeyFHE.BigInt.Runs

/-!
# Quotients of big integers

`DividedBy`, `MultiplyAndRound` and `DivideAndRound` with their shortcuts. All of them trust the position of the top bit, and
`DividedBy` takes two numbers for equal when the limb below it is the same.
-/

namespace MultiKeyFHE.Ubint
open InPlace Radix

variable {l : LimbT} {m n t : ℕ}

/-! ### Sizes and top limbs -/

theorem stored_length_of_size (le : n.size ≤ m.size) : (stored l n).value.length ≤ (stored l m).value.length := by
  have pos := stored_length_pos (l := l) (n := m)
  by_cases zero : n = 0
  · rw [zero]
    exact pos
  · have some : m ≠ 0 := by
      rintro rfl
      rw [Nat.size_zero, Nat.le_zero, Nat.size_eq_zero] at le
      exact zero le
    have hn := stored_length (l := l) zero
    have hm := stored_length (l := l) some
    have := Nat.div_le_div_right (c := l.limbBitLength) (Nat.sub_le_sub_right le 1)
    omega

/-- Numbers of as many limbs are ordered by the top ones. -/
theorem lt_of_top_lt (same : (stored l m).value.length = (stored l n).value.length)
    (less : (stored l m).value.getLastD 0 < (stored l n).value.getLastD 0) : m < n := by
  obtain ⟨low, x, shapeM⟩ : ∃ low x, (stored l m).value = low ++ [x] :=
    ⟨_, _, (List.dropLast_append_getLast stored_nonempty).symm⟩
  obtain ⟨low', y, shapeN⟩ : ∃ low y, (stored l n).value = low ++ [y] :=
    ⟨_, _, (List.dropLast_append_getLast stored_nonempty).symm⟩
  have valueM := ofDigits_stored l m
  have valueN := ofDigits_stored l n
  have small : Nat.ofDigits (2 ^ l.limbBitLength) low < (2 ^ l.limbBitLength) ^ low.length :=
    ofDigits_lt (one_lt_radix l) fun z hz => stored_lt (l := l) (n := m) z (shapeM ▸ List.mem_append_left _ hz)
  rw [shapeM, shapeN] at same less
  simp only [List.length_append, List.length_singleton, Nat.add_right_cancel_iff, List.getLastD_concat] at same less
  rw [shapeM, ofDigits_concat] at valueM
  rw [shapeN, ofDigits_concat, ← same] at valueN
  have step := Nat.mul_le_mul_left ((2 ^ l.limbBitLength) ^ low.length) (Nat.succ_le_of_lt less)
  rw [Nat.succ_eq_add_one, mul_add, mul_one] at step
  omega

theorem size_le_size_div (t : ℕ) {n : ℕ} (positive : n ≠ 0) : t.size ≤ (t / n).size + n.size := by
  apply Nat.size_le.mpr
  calc t < n * (t / n + 1) := Nat.lt_mul_div_succ t (Nat.pos_of_ne_zero positive)
    _ ≤ 2 ^ n.size * 2 ^ (t / n).size := Nat.mul_le_mul (Nat.lt_size_self n).le (Nat.lt_size_self _)
    _ = 2 ^ ((t / n).size + n.size) := by rw [← pow_add, add_comm]

theorem size_half (n : ℕ) : (n / 2).size = n.size - 1 := by
  have exact : ∀ k, (n / 2).size ≤ k ↔ n.size ≤ k + 1 := by
    intro k
    rw [Nat.size_le, Nat.size_le, pow_succ, Nat.div_lt_iff_lt_mul two_pos]
  have below := (exact (n.size - 1)).mpr (by omega)
  have above := (exact (n / 2).size).mp le_rfl
  omega

/-- Less than twice as large, as long as the second is not the longer one. -/
theorem lt_double_of_size (same : m.size = n.size) (positive : n ≠ 0) : m < 2 * n := by
  have some := Nat.size_pos.mpr (Nat.pos_of_ne_zero positive)
  have top : 2 ^ (n.size - 1) ≤ n := Nat.lt_size.mp (by omega)
  have above := Nat.lt_size_self m
  rw [same, show n.size = n.size - 1 + 1 by omega, pow_succ] at above
  omega

/-! ### Quotients -/

/-- The numbers that the shortcut of `DividedBy` takes for equal although the dividend is less. -/
def SharesTop (a b : Ubint) : Prop := a.MSB = b.MSB ∧ a.value.getLastD 0 = b.value.getLastD 0

section Stored
variable (fitsM : m.size < 2 ^ 32) (fitsN : n.size < 2 ^ 32) (positive : n ≠ 0)
include fitsM fitsN positive

theorem dividedBy_stored (apart : m < n → ¬ SharesTop (stored l m) (stored l n)) :
    dividedBy l (stored l m) (stored l n) = .ok (stored l (m / n)) := by
  unfold dividedBy
  unfold SharesTop at apart
  rw [stored_msb fitsM, stored_msb fitsN] at *
  rw [if_neg fun zero => positive (Nat.size_eq_zero.mp zero)]
  split
  · rename_i longer
    have less : m < n := by
      by_contra ge
      have := Nat.size_le_size (not_lt.mp ge)
      omega
    rw [Nat.div_eq_of_lt less, stored_zero]
  · rename_i bits
    split
    · rename_i equal
      have ge : n ≤ m := by
        by_contra less
        exact apart (not_le.mp less) ⟨equal.1.symm, equal.2.symm⟩
      have double := lt_double_of_size equal.1.symm positive
      have one : m / n = 1 := Nat.div_eq_of_lt_le (by omega) (by omega)
      rw [one, stored_ofWord (one_lt_radix l)]
    · exact divqVect_stored positive (stored_length_of_size (not_lt.mp bits))

theorem dividedBy_shared (shared : SharesTop (stored l m) (stored l n)) :
    dividedBy l (stored l m) (stored l n) = .ok (stored l 1) := by
  unfold SharesTop at shared
  unfold dividedBy
  rw [stored_msb fitsM, stored_msb fitsN] at *
  rw [if_neg fun zero => positive (Nat.size_eq_zero.mp zero), if_neg (by omega), if_pos ⟨shared.1.symm, shared.2.symm⟩,
    stored_ofWord (one_lt_radix l)]

end Stored

theorem dividedByEq_eq {a : Ubint} (nonempty : a.value ≠ []) (b : Ubint) : dividedByEq l a b = dividedBy l a b := by
  obtain ⟨x, rest, shape⟩ := List.exists_cons_of_ne_nil nonempty
  unfold dividedByEq dividedBy
  rw [shape]
  rfl

/-! ### Rounded quotients -/

/-- Halves are rounded down. -/
def nearest (m n : ℕ) : ℕ := m / n + if n / 2 < m % n then 1 else 0

theorem nearest_close (m : ℕ) (positive : n ≠ 0) : |2 * ((nearest m n : ℤ) * n - m)| ≤ n := by
  have division := Nat.div_add_mod m n
  have below := Nat.mod_lt m (Nat.pos_of_ne_zero positive)
  have whole : (m : ℤ) = n * (m / n : ℕ) + (m % n : ℕ) := by exact_mod_cast division.symm
  unfold nearest
  rw [abs_le]
  split
  · have distance : 2 * (((m / n + 1 : ℕ) : ℤ) * n - m) = 2 * (n - (m % n : ℕ)) := by
      rw [whole]
      push_cast
      ring
    rw [distance]
    omega
  · have distance : 2 * (((m / n + 0 : ℕ) : ℤ) * n - m) = -(2 * (m % n : ℕ)) := by
      rw [whole]
      push_cast
      ring
    rw [distance]
    omega

theorem nearest_of_lt (less : m < n) : nearest m n = if n / 2 < m then 1 else 0 := by
  rw [nearest, Nat.div_eq_of_lt less, Nat.mod_eq_of_lt less, zero_add]

theorem add_one_stored (m : ℕ) : add l (stored l m) (ofWord 1) = stored l (m + 1) := by
  have radix := one_lt_radix l
  have one : (1 : ℕ).size < 2 ^ 32 := Nat.size_one ▸ by norm_num
  have length : (stored l 1).value.length = 1 := by rw [← stored_ofWord radix]; rfl
  have some := stored_length_pos (l := l) (n := m)
  rw [stored_ofWord radix, add, bySize, if_neg (by omega)]
  dsimp only
  rw [stored_msb one, Nat.size_one, if_neg one_ne_zero]
  exact addLimbs_stored (by omega)

theorem order_pos : order m n > 0 ↔ n < m := by
  rw [gt_iff_lt, ← not_le, order_le_zero, not_le]

theorem divqr_nearest (fitsN : n.size < 2 ^ 32) (positive : n ≠ 0)
    (more : (stored l n).value.length ≤ (stored l m).value.length) :
    (do
      let (ans, rv) ← divqrVect l (stored l m).value (stored l n).value
      if (← compare rv (stored l (n / 2))) > 0 then return add l ans (ofWord 1)
      return ans) = .ok (stored l (nearest m n)) := by
  have below := Nat.mod_lt m (Nat.pos_of_ne_zero positive)
  have fits : (m % n).size < 2 ^ 32 := fits_of_le below.le fitsN
  have fits' : (n / 2).size < 2 ^ 32 := fits_of_le (Nat.div_le_self n 2) fitsN
  rw [divqrVect_stored positive more]
  dsimp only [bind, Except.bind]
  rw [compare_stored fits fits']
  dsimp only
  unfold nearest
  split
  · rename_i up
    rw [order_pos] at up
    rw [if_pos up, add_one_stored]
    rfl
  · rename_i down
    rw [order_pos] at down
    rw [if_neg down]
    rfl

theorem roundedQuotient_stored (fitsM : m.size < 2 ^ 32) (fitsN : n.size < 2 ^ 32) (positive : n ≠ 0) :
    roundedQuotient l (stored l m) (stored l n) = .ok (stored l (nearest m n)) := by
  have fits : (n / 2).size < 2 ^ 32 := fits_of_le (Nat.div_le_self n 2) fitsN
  have half : rShift l (stored l n) 1 = .ok (stored l (n / 2)) := rShift_stored fitsN 1
  have last := divqr_nearest (l := l) (m := m) fitsN positive
  have bits := size_half n
  have some := Nat.size_pos.mpr (Nat.pos_of_ne_zero positive)
  unfold roundedQuotient
  dsimp only [bind, Except.bind] at last ⊢
  rw [half]
  dsimp only
  rw [compare_stored fitsM fits, stored_msb fitsM, stored_msb fits, stored_msb fitsN]
  dsimp only
  split
  · rename_i small
    rw [order_le_zero] at small
    rw [nearest_of_lt (by omega), if_neg (by omega), stored_zero]
    rfl
  · rename_i large
    rw [order_le_zero, not_le] at large
    split
    · rename_i short
      have less : m < n := by
        rcases short with same | ⟨same, top⟩
        · have nonzero : n / 2 ≠ 0 := by
            intro zero
            rw [zero, Nat.size_zero, Nat.size_eq_zero] at same
            omega
          have := lt_double_of_size same nonzero
          omega
        · exact lt_of_top_lt (le_antisymm (stored_length_of_size same.le) (stored_length_of_size same.ge)) top
      rw [nearest_of_lt less, if_pos large, stored_ofWord (one_lt_radix l)]
      rfl
    · have long : n.size ≤ m.size := by
        rename_i other
        have := Nat.size_le_size large.le
        omega
      exact last (stored_length_of_size long)

/-! ### Products that are too long -/

/-- What `Add` may lose: a summand whose position of the top bit has wrapped to zero. -/
def Lost (x : ℕ) : Prop := x = 0 ∨ 2 ^ 32 ≤ x.size

theorem Lost.add {x y : ℕ} (hx : Lost x) (hy : Lost y) : Lost (x + y) := by
  unfold Lost at *
  have left := Nat.size_le_size (Nat.le_add_right x y)
  have right := Nat.size_le_size (Nat.le_add_left y x)
  omega

theorem lost_of_msb (zero : (stored l n).MSB = 0) : Lost n := by
  have wrapped : n.size % 2 ^ 32 = 0 := zero
  rcases Nat.lt_or_ge n.size (2 ^ 32) with fits | long
  · rw [Nat.mod_eq_of_lt fits] at wrapped
    exact .inl (Nat.size_eq_zero.mp wrapped)
  · exact .inr long

theorem add_loses (m n : ℕ) : ∃ t lost, add l (stored l m) (stored l n) = stored l t ∧ t + lost = m + n ∧ Lost lost := by
  unfold add bySize
  by_cases less : (stored l m).value.length < (stored l n).value.length
  · simp only [if_pos less]
    split
    · rename_i zero
      exact ⟨n, m, rfl, add_comm n m, lost_of_msb zero⟩
    · exact ⟨m + n, 0, by rw [addLimbs_stored less.le, add_comm], rfl, .inl rfl⟩
  · simp only [if_neg less]
    split
    · rename_i zero
      exact ⟨m, n, rfl, rfl, lost_of_msb zero⟩
    · exact ⟨m + n, 0, addLimbs_stored (not_lt.mp less), rfl, .inl rfl⟩

theorem mulRows_loses {as : List ℕ} (ha : ∀ x ∈ as, x < 2 ^ l.limbBitLength) (bs : List ℕ) (i sum : ℕ)
    (hb : ∀ x ∈ bs, x < 2 ^ l.limbBitLength) :
    ∃ t lost, mulRows l as bs i (stored l sum) = stored l t ∧ t + lost = sum + (2 ^ l.limbBitLength) ^ i *
      (Nat.ofDigits (2 ^ l.limbBitLength) bs * Nat.ofDigits (2 ^ l.limbBitLength) as) ∧ Lost lost := by
  induction bs generalizing i sum with
  | nil => exact ⟨sum, 0, rfl, by simp, .inl rfl⟩
  | cons b bs ih =>
    obtain ⟨mid, first, run, split, lost⟩ := add_loses (l := l) sum
      ((2 ^ l.limbBitLength) ^ i * (b * Nat.ofDigits (2 ^ l.limbBitLength) as))
    obtain ⟨t, second, run', split', lost'⟩ := ih (i + 1) mid fun x hx => hb x (List.mem_cons_of_mem _ hx)
    refine ⟨t, second + first, ?_, ?_, lost'.add lost⟩
    · rw [mulRows, row_stored (hb b (by simp)) ha, run]
      exact run'
    · rw [← add_assoc, split', Nat.ofDigits_cons]
      calc _ = mid + first + (2 ^ l.limbBitLength) ^ (i + 1) *
            (Nat.ofDigits (2 ^ l.limbBitLength) bs * Nat.ofDigits (2 ^ l.limbBitLength) as) := by ring
        _ = _ := by rw [split]; ring

theorem mul_loses (fitsM : m.size < 2 ^ 32) (fitsN : n.size < 2 ^ 32) :
    ∃ t lost, mul l (stored l m) (stored l n) = stored l t ∧ t + lost = m * n ∧ Lost lost := by
  unfold mul
  rw [stored_msb fitsM, stored_msb fitsN]
  split
  · rename_i zero
    refine ⟨0, 0, rfl, ?_, .inl rfl⟩
    rcases zero with zero | zero
    · rw [Nat.size_eq_zero.mp zero, zero_mul, add_zero]
    · rw [Nat.size_eq_zero.mp zero, mul_zero, add_zero]
  · split
    · rename_i one
      exact ⟨m, 0, rfl, by rw [size_eq_one one, mul_one, add_zero], .inl rfl⟩
    · split
      · rename_i one
        exact ⟨n, 0, rfl, by rw [size_eq_one one, one_mul, add_zero], .inl rfl⟩
      · rw [← stored_zero (l := l), bySize]
        by_cases less : (stored l m).value.length < (stored l n).value.length
        · simp only [if_pos less]
          obtain ⟨t, lost, run, split, some⟩ := mulRows_loses (l := l) (stored_lt (n := n)) (stored l m).value 0 0 stored_lt
          rw [ofDigits_stored, ofDigits_stored, pow_zero, one_mul, zero_add] at split
          exact ⟨t, lost, run, split, some⟩
        · simp only [if_neg less]
          obtain ⟨t, lost, run, split, some⟩ := mulRows_loses (l := l) (stored_lt (n := m)) (stored l n).value 0 0 stored_lt
          rw [ofDigits_stored, ofDigits_stored, pow_zero, one_mul, zero_add, mul_comm] at split
          exact ⟨t, lost, run, split, some⟩

/-- `Compare` reads past the end when the positions of the top bits agree and the second has fewer limbs. -/
theorem compareLimbs_short {a b : List ℕ} (short : b.length < a.length) :
    compareLimbs a b a.length = .error .outOfRange := by
  obtain ⟨k, hk⟩ : ∃ k, a.length = k + 1 := ⟨a.length - 1, by omega⟩
  have missing : load Fault.outOfRange b k = .error .outOfRange := by
    rw [load, List.getElem?_eq_none (by omega)]
  rw [hk, compareLimbs, load_ok _ (by omega), missing]
  rfl

theorem stored_shorter (long : 2 ^ 32 ≤ t.size) (wrapped : (stored l t).MSB = n.size) :
    (stored l n).value.length < (stored l t).value.length := by
  have wrap : t.size % 2 ^ 32 = n.size := wrapped
  have nonzero : t ≠ 0 := by
    rintro rfl
    rw [Nat.size_zero] at long
    omega
  have bits := bits_pos l
  have wide : l.limbBitLength ≤ 64 := by cases l <;> decide
  have ht := stored_length (l := l) nonzero
  have gap : 1 ≤ (t.size - 1) / l.limbBitLength := Nat.div_pos (by omega) (by omega)
  by_cases zero : n = 0
  · have one : (stored l 0).value.length = 1 := rfl
    rw [zero, one]
    omega
  · have hn := stored_length (l := l) zero
    have some := Nat.size_pos.mpr (Nat.pos_of_ne_zero zero)
    have more : (n.size - 1) / l.limbBitLength + 1 ≤ (t.size - 1) / l.limbBitLength := by
      rw [← Nat.add_div_right _ (by omega : 0 < l.limbBitLength)]
      exact Nat.div_le_div_right (by omega)
    omega

/-- With a dividend of `2 ^ 32` bits or more, the result is zero or one, or is as long itself. -/
theorem roundedQuotient_long (long : 2 ^ 32 ≤ t.size) (fitsN : n.size < 2 ^ 32) (positive : n ≠ 0) {c : Ubint}
    (run : roundedQuotient l (stored l t) (stored l n) = .ok c) :
    c = stored l 0 ∨ c = stored l 1 ∧ 2 * n ≤ t ∨ ∃ r, c = stored l r ∧ 2 ^ 32 ≤ r.size := by
  have fits : (n / 2).size < 2 ^ 32 := fits_of_le (Nat.div_le_self n 2) fitsN
  have half : rShift l (stored l n) 1 = .ok (stored l (n / 2)) := rShift_stored fitsN 1
  have last := divqr_nearest (l := l) (m := t) fitsN positive
  have bits := size_half n
  have some := Nat.size_pos.mpr (Nat.pos_of_ne_zero positive)
  have position : (stored l t).MSB = t.size % 2 ^ 32 := rfl
  unfold roundedQuotient at run
  dsimp only [bind, Except.bind] at last run
  rw [half] at run
  dsimp only at run
  rcases lt_trichotomy (stored l t).MSB (n / 2).size with below | same | above
  · have sign : compare (stored l t) (stored l (n / 2)) = .ok (-1) := by
      rw [compare, stored_msb fits, if_pos below]
    rw [sign] at run
    exact .inl (Except.ok.inj run).symm
  · have sign : compare (stored l t) (stored l (n / 2)) = .error .outOfRange := by
      rw [compare, stored_msb fits, if_neg (by omega), if_neg (by omega)]
      exact compareLimbs_short (stored_shorter long same)
    rw [sign] at run
    cases run
  · have sign : compare (stored l t) (stored l (n / 2)) = .ok 1 := by
      rw [compare, stored_msb fits, if_neg (by omega), if_pos above]
    rw [sign, stored_msb fits, stored_msb fitsN] at run
    dsimp only at run
    rw [if_neg (by norm_num)] at run
    split at run
    · rename_i short
      refine .inr (.inl ⟨?_, ?_⟩)
      · rw [← stored_ofWord (one_lt_radix l)]
        exact (Except.ok.inj run).symm
      · have same : (stored l t).MSB = n.size := by
          rcases short with same | ⟨same, -⟩
          · omega
          · exact same
        have top : 2 ^ (n.size + 1) ≤ t := Nat.lt_size.mp (by omega)
        have above := Nat.lt_size_self n
        rw [pow_succ] at top
        omega
    · refine .inr (.inr ⟨nearest t n, ?_, ?_⟩)
      · rw [last (stored_length_of_size (by omega))] at run
        exact (Except.ok.inj run).symm
      · have quotient := size_le_size_div t positive
        have rounded : (t / n).size ≤ (nearest t n).size := Nat.size_le_size (Nat.le_add_right _ _)
        omega

/-! ### Normalised operands -/

def Returns (l : LimbT) (run : Except Fault Ubint) (x : ℕ) : Prop := ∃ c, run = .ok c ∧ Represents l c x

/-- A result that is at most half a divisor away from the quotient of `x` and `n`. -/
def Rounds (l : LimbT) (run : Except Fault Ubint) (x n : ℕ) : Prop :=
  ∃ c r, run = .ok c ∧ Represents l c r ∧ |2 * ((r : ℤ) * n - x)| ≤ n

/-- The divisions of `a`, and of `a` times `p`, by a number `b` that is not zero. -/
structure Divides (l : LimbT) (a b p : Ubint) : Prop where
  dividedBy : Returns l (Ubint.dividedBy l a b) (number l a / number l b)
  dividedByEq : Returns l (Ubint.dividedByEq l a b) (number l a / number l b)
  mod : Returns l (Ubint.mod l a b) (number l a - number l b * (number l a / number l b))
  modEq : Returns l (Ubint.modEq l a b) (number l a - number l b * (number l a / number l b))
  split : ∃ q r, Ubint.dividedBy l a b = .ok q ∧ Ubint.mod l a b = .ok r ∧
    number l a = number l b * number l q + number l r ∧ number l r < number l b
  divideAndRound : Rounds l (Ubint.divideAndRound l a b) (number l a) (number l b)
  multiplyAndRound : Rounds l (Ubint.multiplyAndRound l a p b) (number l a * number l p) (number l b)

def RejectsZero (l : LimbT) (a b p : Ubint) : Prop :=
  ∀ run ∈ [dividedBy l a b, dividedByEq l a b, mod l a b, modEq l a b, divideAndRound l a b, multiplyAndRound l a p b],
    ∃ e, run = .error e ∧ e.isException

theorem rejectsZero (a p : Ubint) {b : Ubint} (zero : b.MSB = 0) : RejectsZero l a b p := by
  unfold RejectsZero dividedBy dividedByEq mod modEq divideAndRound multiplyAndRound
  simp only [zero, if_true, List.forall_mem_cons, List.not_mem_nil, false_implies, implies_true, and_true]
  exact ⟨⟨_, rfl, rfl⟩, ⟨_, rfl, rfl⟩, ⟨_, rfl, rfl⟩, ⟨_, rfl, rfl⟩, ⟨_, rfl, rfl⟩, ⟨_, rfl, rfl⟩⟩

theorem represents_stored_iff {x r : ℕ} : Represents l (stored l x) r ↔ x = r ∧ x.size < 2 ^ 32 := by
  constructor
  · rintro ⟨normalised, same⟩
    have fits := normalised.fits
    rw [number_stored] at same fits
    exact ⟨same, fits⟩
  · rintro ⟨rfl, fits⟩
    exact represents_stored fits

theorem rounds_stored (fitsM : m.size < 2 ^ 32) (fitsN : n.size < 2 ^ 32) (positive : n ≠ 0) :
    Rounds l (roundedQuotient l (stored l m) (stored l n)) m n := by
  refine ⟨_, nearest m n, roundedQuotient_stored fitsM fitsN positive, represents_stored ?_, nearest_close m positive⟩
  rcases Nat.lt_or_ge m n with less | more
  · rw [nearest_of_lt less]
    split
    · rw [Nat.size_one]
      norm_num
    · rw [Nat.size_zero]
      norm_num
  · have below := Nat.div_add_mod m n
    have some : 1 ≤ m / n := Nat.div_pos more (by omega)
    have le : nearest m n ≤ m := by
      unfold nearest
      split
      · have scaled := Nat.mul_le_mul_right (m / n) (show 1 ≤ n by omega)
        omega
      · exact Nat.div_le_self m n
    exact fits_of_le le fitsM

theorem divides_stored {k : ℕ} (fitsM : m.size < 2 ^ 32) (fitsN : n.size < 2 ^ 32) (fitsK : k.size < 2 ^ 32)
    (positive : n ≠ 0) (apart : m < n → ¬ SharesTop (stored l m) (stored l n)) (product : (m * k).size < 2 ^ 32) :
    Divides l (stored l m) (stored l n) (stored l k) := by
  have quotient := dividedBy_stored (l := l) fitsM fitsN positive apart
  have remainder := mod_stored (l := l) fitsN positive fitsM
  have below := Nat.mod_lt m (Nat.pos_of_ne_zero positive)
  have value : m - n * (m / n) = m % n := by
    have := Nat.div_add_mod m n
    omega
  have fitsQ := fits_of_le (Nat.div_le_self m n) fitsM
  have fitsR := fits_of_le below.le fitsN
  have nonzero : ¬ (stored l n).MSB = 0 := by
    rw [stored_msb fitsN]
    exact fun zero => positive (Nat.size_eq_zero.mp zero)
  constructor <;> simp only [number_stored, value]
  case dividedBy => exact ⟨_, quotient, represents_stored fitsQ⟩
  case dividedByEq => exact ⟨_, (dividedByEq_eq stored_nonempty _).trans quotient, represents_stored fitsQ⟩
  case mod => exact ⟨_, remainder, represents_stored fitsR⟩
  case modEq => exact ⟨_, modEq_stored fitsN positive fitsM, represents_stored fitsR⟩
  case split =>
    refine ⟨_, _, quotient, remainder, ?_, ?_⟩ <;> simp only [number_stored]
    · exact (Nat.div_add_mod m n).symm
    · exact below
  case divideAndRound =>
    rw [Ubint.divideAndRound, if_neg nonzero]
    exact rounds_stored fitsM fitsN positive
  case multiplyAndRound =>
    rw [Ubint.multiplyAndRound, if_neg nonzero, mul_stored fitsM fitsK product]
    exact rounds_stored product fitsN positive

/-- A rounded quotient of what the product has lost something of is not one of the product, and one of a product that is
too long is too long itself. -/
theorem product_fits_of_rounds {k : ℕ} (fitsM : m.size < 2 ^ 32) (fitsN : n.size < 2 ^ 32) (fitsK : k.size < 2 ^ 32)
    (positive : n ≠ 0) (rounds : Rounds l (roundedQuotient l (mul l (stored l m) (stored l k)) (stored l n)) (m * k) n) :
    (m * k).size < 2 ^ 32 := by
  by_contra large
  obtain ⟨t, lost, product, split, missing⟩ := mul_loses (l := l) fitsM fitsK
  obtain ⟨c, r, run, represented, close⟩ := rounds
  rw [product] at run
  rw [← split] at large close
  rw [abs_le] at close
  push_cast at close
  have word : ∀ {x : ℕ}, x ≤ n → x.size < 2 ^ 32 := fun le => fits_of_le le fitsN
  rcases Nat.lt_or_ge t.size (2 ^ 32) with fits | long
  · have value := (roundedQuotient_stored (l := l) fits fitsN positive).symm.trans run
    rw [← Except.ok.inj value, represents_stored_iff] at represented
    have near := nearest_close t positive
    rw [represented.1, abs_le] at near
    have small : lost ≤ n := by omega
    rcases missing with none | some
    · rw [none, add_zero] at large
      exact large fits
    · have := word small
      omega
  · have above : n < t := by
      by_contra le
      have := word (not_lt.mp le)
      omega
    rcases roundedQuotient_long long fitsN positive run with rfl | ⟨rfl, double⟩ | ⟨x, rfl, wide⟩
    · rw [represents_stored_iff] at represented
      rw [← represented.1] at close
      omega
    · rw [represents_stored_iff] at represented
      rw [← represented.1] at close
      omega
    · rw [represents_stored_iff] at represented
      omega

/-- The shortcut must not take a smaller dividend for an equal one, and the product must have a position of the top bit. -/
theorem divisions_iff {a b p : Ubint} (ha : Normalised l a) (hb : Normalised l b) (hp : Normalised l p) :
    ((number l b = 0 → RejectsZero l a b p) ∧ (number l b ≠ 0 → Divides l a b p)) ↔
      (number l b ≠ 0 → (number l a < number l b → ¬ SharesTop a b) ∧ (number l a * number l p).size < 2 ^ 32) := by
  obtain ⟨m, rfl, fitsM⟩ : ∃ m, a = stored l m ∧ m.size < 2 ^ 32 := ⟨_, ha.eq_stored, ha.fits⟩
  obtain ⟨n, rfl, fitsN⟩ : ∃ n, b = stored l n ∧ n.size < 2 ^ 32 := ⟨_, hb.eq_stored, hb.fits⟩
  obtain ⟨k, rfl, fitsK⟩ : ∃ k, p = stored l k ∧ k.size < 2 ^ 32 := ⟨_, hp.eq_stored, hp.fits⟩
  simp only [number_stored]
  constructor
  · rintro ⟨-, divides⟩ positive
    have all := divides positive
    have nonzero : ¬ (stored l n).MSB = 0 := by
      rw [stored_msb fitsN]
      exact fun zero => positive (Nat.size_eq_zero.mp zero)
    refine ⟨fun less shared => ?_, ?_⟩
    · obtain ⟨c, run, represented⟩ := all.dividedBy
      rw [dividedBy_shared fitsM fitsN positive shared] at run
      rw [← Except.ok.inj run, represents_stored_iff] at represented
      simp only [number_stored] at represented
      rw [Nat.div_eq_of_lt less] at represented
      exact one_ne_zero represented.1
    · have rounds := all.multiplyAndRound
      simp only [number_stored] at rounds
      rw [multiplyAndRound, if_neg nonzero] at rounds
      exact product_fits_of_rounds fitsM fitsN fitsK positive rounds
  · intro admitted
    refine ⟨fun zero => ?_, fun positive => ?_⟩
    · apply rejectsZero
      rw [zero]
      rfl
    · obtain ⟨apart, product⟩ := admitted positive
      exact divides_stored fitsM fitsN fitsK positive apart product

/-! ### Operands of a few limbs -/

theorem normalizeLimbs_represents {v : List ℕ} (nonempty : v ≠ []) (lt : ∀ x ∈ v, x < 2 ^ l.limbBitLength)
    (short : l.limbBitLength * v.length < 2 ^ 32) :
    Represents l (normalizeLimbs l v) (Nat.ofDigits (2 ^ l.limbBitLength) v) := by
  rw [normalizeLimbs_eq nonempty lt]
  apply represents_stored
  have below := ofDigits_lt (one_lt_radix l) lt
  rw [← pow_mul] at below
  exact (Nat.size_le.mpr below).trans_lt short

/-- `5 + 2 ^ 64`, `1 + 2 ^ 32` and three. -/
theorem three_limbs_divide :
    (number .uint32 (normalizeLimbs .uint32 [1, 1]) = 0 →
      RejectsZero .uint32 (normalizeLimbs .uint32 [5, 0, 1]) (normalizeLimbs .uint32 [1, 1]) (normalizeLimbs .uint32 [3])) ∧
    (number .uint32 (normalizeLimbs .uint32 [1, 1]) ≠ 0 →
      Divides .uint32 (normalizeLimbs .uint32 [5, 0, 1]) (normalizeLimbs .uint32 [1, 1]) (normalizeLimbs .uint32 [3])) := by
  have a := normalizeLimbs_represents (l := .uint32) (v := [5, 0, 1]) (by decide) (by decide) (by decide)
  have b := normalizeLimbs_represents (l := .uint32) (v := [1, 1]) (by decide) (by decide) (by decide)
  have p := normalizeLimbs_represents (l := .uint32) (v := [3]) (by decide) (by decide) (by decide)
  refine (divisions_iff a.1 b.1 p.1).mpr fun _ => ⟨fun less => ?_, ?_⟩
  · rw [a.2, b.2] at less
    exact absurd less (by decide)
  · rw [a.2, p.2]
    exact (Nat.size_le.mpr (show _ < 2 ^ 96 by decide)).trans_lt (by norm_num)

/-- `2 ^ 64` divided by `1 + 2 ^ 64`. -/
theorem two_limbs_share_their_top :
    Normalised .uint64 (normalizeLimbs .uint64 [0, 1]) ∧ Normalised .uint64 (normalizeLimbs .uint64 [1, 1]) ∧
      number .uint64 (normalizeLimbs .uint64 [0, 1]) / number .uint64 (normalizeLimbs .uint64 [1, 1]) = 0 ∧
      dividedBy .uint64 (normalizeLimbs .uint64 [0, 1]) (normalizeLimbs .uint64 [1, 1]) = .ok (ofWord 1) ∧
      ¬ Divides .uint64 (normalizeLimbs .uint64 [0, 1]) (normalizeLimbs .uint64 [1, 1]) (ofWord 1) := by
  have a := normalizeLimbs_represents (l := .uint64) (v := [0, 1]) (by decide) (by decide) (by decide)
  have b := normalizeLimbs_represents (l := .uint64) (v := [1, 1]) (by decide) (by decide) (by decide)
  have zero : number .uint64 (normalizeLimbs .uint64 [0, 1]) / number .uint64 (normalizeLimbs .uint64 [1, 1]) = 0 := by
    rw [a.2, b.2]
    decide
  have run : dividedBy .uint64 (normalizeLimbs .uint64 [0, 1]) (normalizeLimbs .uint64 [1, 1]) = .ok (ofWord 1) := by
    decide
  refine ⟨a.1, b.1, zero, run, fun divides => ?_⟩
  obtain ⟨c, returned, represented⟩ := divides.dividedBy
  rw [zero] at represented
  rw [run] at returned
  rw [← Except.ok.inj returned] at represented
  exact absurd represented.2 (by decide)

end MultiKeyFHE.Ubint
