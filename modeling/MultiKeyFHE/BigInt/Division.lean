import MultiKeyFHE.BigInt.Products

/-!
# The remainder of big integers

Knuth's Algorithm D in `divr_vect`. The estimate of a digit of the quotient is right or one too many; the loops that
subtract and add back work on the limbs above one place, and leave there the remainder of what was there before.
-/

namespace MultiKeyFHE.Ubint
open InPlace Radix

variable {l : LimbT} {m n : ℕ}

theorem join_limbs {high low : ℕ} (hh : high < 2 ^ l.limbBitLength) (hl : low < 2 ^ l.limbBitLength) :
    dlimb l (high <<< l.limbBitLength) ||| low = high * 2 ^ l.limbBitLength + low := by
  rw [dlimb_of_lt, join_words hl]
  rw [Nat.shiftLeft_eq]
  exact Nat.mul_lt_mul_of_pos_right hh (by positivity)

theorem limb_pred {x : ℕ} (below : x < 2 ^ l.limbBitLength) : limb l (x + 1 + maxLimb l) = x := by
  have radix := one_lt_radix l
  rw [maxLimb, show x + 1 + (2 ^ l.limbBitLength - 1) = x + 2 ^ l.limbBitLength by omega, limb, Nat.add_mod_right,
    Nat.mod_eq_of_lt below]

/-! ### One limb -/

theorem remainderByLimb_eq {v : ℕ} (hv : v < 2 ^ l.limbBitLength) (us : List ℕ) (ofl : ℕ)
    (hu : ∀ x ∈ us, x < 2 ^ l.limbBitLength) (ho : ofl < v) :
    remainderByLimb l v us ofl =
      (ofl * (2 ^ l.limbBitLength) ^ us.length + Nat.ofDigits (2 ^ l.limbBitLength) us.reverse) % v := by
  induction us generalizing ofl with
  | nil => simp [remainderByLimb, Nat.mod_eq_of_lt ho]
  | cons u us ih =>
    rw [remainderByLimb, join_limbs (by omega) (hu u (by simp)),
      ih _ (fun x hx => hu x (List.mem_cons_of_mem _ hx)) (Nat.mod_lt _ (by omega)), List.reverse_cons, ofDigits_concat,
      List.length_reverse, List.length_cons, Nat.add_mod, Nat.mod_mul_mod, ← Nat.add_mod]
    congr 1
    ring

/-! ### The digit of the quotient -/

section Correct
variable {P U V u2 u1 u0 v1 v0 : ℕ} (tops : Tops (2 ^ l.limbBitLength) P U V u2 u1 u0 v1 v0)
  (hu1 : u1 < 2 ^ l.limbBitLength) (hv0 : v0 < 2 ^ l.limbBitLength)
include tops hu1 hv0

theorem correct_spec (qhat rhat : ℕ) (split : qhat * v1 + rhat = u2 * 2 ^ l.limbBitLength + u1)
    (small : rhat < 2 ^ l.limbBitLength) (enough : U / V ≤ qhat) :
    U / V ≤ correct l v1 v0 u0 tops.positive qhat rhat ∧ correct l v1 v0 u0 tops.positive qhat rhat ≤ U / V + 1 ∧
      correct l v1 v0 u0 tops.positive qhat rhat < 2 ^ l.limbBitLength := by
  have test : (qhat >>> l.limbBitLength ≠ 0 ∨ dlimb l (qhat * v0) > dlimb l (rhat <<< l.limbBitLength) ||| u0) ↔
      (2 ^ l.limbBitLength ≤ qhat ∨ rhat * 2 ^ l.limbBitLength + u0 < qhat * v0) := by
    rw [join_limbs small tops.digit, shiftRight_eq_div]
    by_cases large : 2 ^ l.limbBitLength ≤ qhat
    · exact iff_of_true (.inl (Nat.div_pos large (by positivity)).ne') (.inl large)
    · rw [Nat.div_eq_of_lt (not_le.mp large), dlimb_of_lt (Nat.mul_lt_mul'' (not_le.mp large) hv0)]
      simp [large]
  rw [correct]
  by_cases more : 2 ^ l.limbBitLength ≤ qhat ∨ rhat * 2 ^ l.limbBitLength + u0 < qhat * v0
  · rw [if_pos (test.mpr more)]
    have less := tops.lt_of_test split more
    have some : 0 < qhat := Nat.zero_lt_of_lt less
    have split' : (qhat - 1) * v1 + (rhat + v1) = u2 * 2 ^ l.limbBitLength + u1 := by
      obtain ⟨q, rfl⟩ : ∃ q, qhat = q + 1 := ⟨qhat - 1, by omega⟩
      rw [← split, Nat.add_sub_cancel]
      ring
    split
    · rename_i carry
      -- The remainder has become too large for the test, which would not stop the loop either.
      have wide : 2 ^ l.limbBitLength ≤ rhat + v1 := by
        by_contra below
        exact carry (by rw [shiftRight_eq_div, Nat.div_eq_of_lt (not_le.mp below)])
      have digit : qhat - 1 < 2 ^ l.limbBitLength := by
        by_contra large
        have top := Nat.mul_le_mul_right (2 ^ l.limbBitLength) (tops.top_le hv0)
        have product := Nat.mul_le_mul_right v1 (not_lt.mp large)
        rw [mul_comm (2 ^ l.limbBitLength) v1] at product
        omega
      have passed : (qhat - 1) * v0 ≤ (rhat + v1) * 2 ^ l.limbBitLength + u0 := by
        have := Nat.mul_le_mul digit.le hv0.le
        have := Nat.mul_le_mul_right (2 ^ l.limbBitLength) wide
        omega
      exact ⟨by omega, tops.le_succ split' digit passed, digit⟩
    · rename_i fits
      have below : rhat + v1 < 2 ^ l.limbBitLength := by
        by_contra wide
        exact fits (by rw [shiftRight_eq_div]; exact (Nat.div_pos (not_lt.mp wide) (by positivity)).ne')
      have positive := tops.positive
      exact correct_spec (qhat - 1) (rhat + v1) split' below (by omega)
  · rw [if_neg (fun h => more (test.mp h))]
    exact ⟨enough, tops.le_succ split (by omega) (by omega), by omega⟩
  termination_by 2 ^ l.limbBitLength - rhat

end Correct

/-! ### Subtracting and adding back -/

theorem sdlimb_of_small {x : ℤ} (low : -(2 * 2 ^ l.limbBitLength) ≤ x) (high : x < 2 * 2 ^ l.limbBitLength) : sdlimb l x = x := by
  have room : (4 : ℤ) * 2 ^ l.limbBitLength ≤ ((2 ^ (2 * l.limbBitLength) : ℕ) : ℤ) := by
    cases l <;> norm_num [LimbT.limbBitLength]
  refine Int.bmod_eq_of_le_mul_two ?_ ?_ <;> omega

/-- The limbs that the loop leaves, and the difference at the top. -/
structure Subtracts (l : LimbT) (qhat : ℕ) (vs : List ℕ) (k : ℤ) (us out : List ℕ) (t : ℤ) : Prop where
  length : out.length = us.length
  lt : ∀ x ∈ out, x < 2 ^ l.limbBitLength
  above : out.drop (vs.length + 1) = us.drop (vs.length + 1)
  range : -2 ^ l.limbBitLength ≤ t ∧ t < 2 ^ l.limbBitLength
  value : ((Nat.ofDigits (2 ^ l.limbBitLength) out : ℕ) : ℤ) +
      (2 ^ l.limbBitLength) ^ (vs.length + 1) * (t / 2 ^ l.limbBitLength) =
    (Nat.ofDigits (2 ^ l.limbBitLength) us : ℕ) - k - qhat * (Nat.ofDigits (2 ^ l.limbBitLength) vs : ℕ)

theorem low_limb (t : ℤ) : (t % 2 ^ l.limbBitLength).toNat < 2 ^ l.limbBitLength ∧
    (((t % 2 ^ l.limbBitLength).toNat : ℕ) : ℤ) + 2 ^ l.limbBitLength * (t / 2 ^ l.limbBitLength) = t := by
  have positive : (0 : ℤ) < 2 ^ l.limbBitLength := by positivity
  have low := Int.emod_nonneg t positive.ne'
  have high := Int.emod_lt_of_pos t positive
  refine ⟨?_, by rw [Int.toNat_of_nonneg low]; exact Int.emod_add_mul_ediv ..⟩
  zify
  rw [Int.toNat_of_nonneg low]
  exact high

/-- What the differences can be: the borrow stays in one limb, and one more. -/
theorem borrow_bounds {qhat v u : ℕ} {k : ℤ} (hq : qhat < 2 ^ l.limbBitLength) (hv : v < 2 ^ l.limbBitLength)
    (hu : u < 2 ^ l.limbBitLength) (hk : 0 ≤ k ∧ k ≤ 2 ^ l.limbBitLength) {t : ℤ}
    (ht : t = u - k - limb l (qhat * v)) :
    sdlimb l t = t ∧ 0 ≤ ((qhat * v) >>> l.limbBitLength : ℕ) - t / 2 ^ l.limbBitLength ∧
      ((qhat * v) >>> l.limbBitLength : ℕ) - t / 2 ^ l.limbBitLength ≤ 2 ^ l.limbBitLength := by
  have positive : (0 : ℤ) < 2 ^ l.limbBitLength := by positivity
  have below : (u : ℤ) < 2 ^ l.limbBitLength := by exact_mod_cast hu
  have plow : (limb l (qhat * v) : ℤ) < 2 ^ l.limbBitLength := by exact_mod_cast limb_lt (l := l) (qhat * v)
  obtain ⟨high, hhigh⟩ : ∃ high, high = (qhat * v) >>> l.limbBitLength := ⟨_, rfl⟩
  have phigh : (high : ℤ) + 2 ≤ 2 ^ l.limbBitLength := by
    have radix := one_lt_radix l
    have step : qhat * v ≤ (2 ^ l.limbBitLength - 1) * (2 ^ l.limbBitLength - 1) := Nat.mul_le_mul (by omega) (by omega)
    have quotient : high < 2 ^ l.limbBitLength - 1 := by
      rw [hhigh, shiftRight_eq_div]
      exact Nat.div_lt_of_lt_mul (step.trans_lt (Nat.mul_lt_mul_of_pos_right (by omega) (by omega)))
    exact_mod_cast (show high + 2 ≤ 2 ^ l.limbBitLength by omega)
  have tlow : -2 ≤ t / 2 ^ l.limbBitLength := (Int.le_ediv_iff_mul_le positive).mpr (by omega)
  have thigh : t / 2 ^ l.limbBitLength < 1 := Int.ediv_lt_of_lt_mul positive (by omega)
  rw [← hhigh]
  exact ⟨sdlimb_of_small (by omega) (by omega), by omega, by omega⟩

theorem mulSub_ok {qhat : ℕ} (hq : qhat < 2 ^ l.limbBitLength) (vs : List ℕ) (k : ℤ) (us : List ℕ)
    (hv : ∀ x ∈ vs, x < 2 ^ l.limbBitLength) (hu : ∀ x ∈ us, x < 2 ^ l.limbBitLength) (long : vs.length + 1 ≤ us.length)
    (hk : 0 ≤ k ∧ k ≤ 2 ^ l.limbBitLength) :
    ∃ out t, mulSub l qhat vs k us = .ok (out, t) ∧ Subtracts l qhat vs k us out t := by
  have positive : (0 : ℤ) < 2 ^ l.limbBitLength := by positivity
  induction vs generalizing k us with
  | nil =>
    obtain ⟨u, us, rfl⟩ := List.exists_cons_of_length_pos (by simp at long; omega : 0 < us.length)
    have below : (u : ℤ) < 2 ^ l.limbBitLength := by exact_mod_cast hu u (by simp)
    have exact : sdlimb l (u - k) = u - k := sdlimb_of_small (by omega) (by omega)
    obtain ⟨low, split⟩ := low_limb (l := l) (u - k)
    refine ⟨((u - k : ℤ) % 2 ^ l.limbBitLength).toNat :: us, u - k, by simp only [mulSub, exact], by simp, ?_, rfl,
      by omega, ?_⟩
    · intro x hx
      rcases List.mem_cons.mp hx with rfl | hx
      · exact low
      · exact hu x (List.mem_cons_of_mem _ hx)
    · rw [Nat.ofDigits_cons, Nat.ofDigits_cons, List.length_nil, Nat.ofDigits_nil]
      push_cast
      linarith
  | cons v vs ih =>
    obtain ⟨u, us, rfl⟩ := List.exists_cons_of_length_pos (by omega : 0 < us.length)
    have below : (u : ℤ) < 2 ^ l.limbBitLength := by exact_mod_cast hu u (by simp)
    have product : qhat * v < 2 ^ l.limbBitLength * 2 ^ l.limbBitLength := Nat.mul_lt_mul'' hq (hv v (by simp))
    obtain ⟨t, ht⟩ : ∃ t : ℤ, t = u - k - limb l (qhat * v) := ⟨_, rfl⟩
    obtain ⟨exact, borrow⟩ := borrow_bounds hq (hv v (by simp)) (hu u (by simp)) hk ht
    obtain ⟨high, hhigh⟩ : ∃ high, high = (qhat * v) >>> l.limbBitLength := ⟨_, rfl⟩
    rw [← hhigh] at borrow
    have psplit : (limb l (qhat * v) : ℤ) + 2 ^ l.limbBitLength * high = qhat * v := by
      rw [hhigh]
      exact_mod_cast limb_add_carry (l := l) (qhat * v)
    have exact' : sdlimb l (high - t / 2 ^ l.limbBitLength) = high - t / 2 ^ l.limbBitLength :=
      sdlimb_of_small (by omega) (by omega)
    obtain ⟨out, last, run, rest⟩ := ih (high - t / 2 ^ l.limbBitLength) us
      (fun x hx => hv x (List.mem_cons_of_mem _ hx)) (fun x hx => hu x (List.mem_cons_of_mem _ hx)) (by simpa using long)
      ⟨by omega, by omega⟩
    obtain ⟨low, split⟩ := low_limb (l := l) t
    refine ⟨(t % 2 ^ l.limbBitLength).toNat :: out, last, ?_, by simp [rest.length], ?_, rest.above, rest.range, ?_⟩
    · simp only [mulSub, dlimb_of_lt product, ← ht, exact, ← hhigh, exact']
      rw [run]
      rfl
    · intro x hx
      rcases List.mem_cons.mp hx with rfl | hx
      · exact low
      · exact rest.lt x hx
    · have value := congrArg ((2 : ℤ) ^ l.limbBitLength * ·) rest.value
      rw [Nat.ofDigits_cons, Nat.ofDigits_cons, Nat.ofDigits_cons, List.length_cons, pow_succ]
      push_cast at value psplit ⊢
      linarith

theorem addBack_ok (vs : List ℕ) (k : ℕ) (us : List ℕ) (hv : ∀ x ∈ vs, x < 2 ^ l.limbBitLength)
    (hu : ∀ x ∈ us, x < 2 ^ l.limbBitLength) (long : vs.length + 1 ≤ us.length) :
    ∃ out carry, addBack l vs k us = .ok out ∧ out.length = us.length ∧ (∀ x ∈ out, x < 2 ^ l.limbBitLength) ∧
      out.drop (vs.length + 1) = us.drop (vs.length + 1) ∧
      Nat.ofDigits (2 ^ l.limbBitLength) out + (2 ^ l.limbBitLength) ^ (vs.length + 1) * carry =
        Nat.ofDigits (2 ^ l.limbBitLength) us + k + Nat.ofDigits (2 ^ l.limbBitLength) vs := by
  induction vs generalizing k us with
  | nil =>
    obtain ⟨u, us, rfl⟩ := List.exists_cons_of_length_pos (by simp at long; omega : 0 < us.length)
    have split := limb_add_carry (l := l) (u + k)
    refine ⟨limb l (u + k) :: us, (u + k) >>> l.limbBitLength, rfl, rfl, ?_, rfl, ?_⟩
    · intro x hx
      rcases List.mem_cons.mp hx with rfl | hx
      · exact limb_lt _
      · exact hu x (List.mem_cons_of_mem _ hx)
    · rw [Nat.ofDigits_cons, Nat.ofDigits_cons, List.length_nil, Nat.ofDigits_nil, zero_add, pow_one]
      omega
  | cons v vs ih =>
    obtain ⟨u, us, rfl⟩ := List.exists_cons_of_length_pos (by omega : 0 < us.length)
    obtain ⟨out, carry, run, length, lt, above, value⟩ := ih ((u + v + k) >>> l.limbBitLength) us
      (fun x hx => hv x (List.mem_cons_of_mem _ hx)) (fun x hx => hu x (List.mem_cons_of_mem _ hx)) (by simpa using long)
    have split := limb_add_carry (l := l) (u + v + k)
    refine ⟨limb l (u + v + k) :: out, carry, by rw [addBack, run]; rfl, by simp [length], ?_, above, ?_⟩
    · intro x hx
      rcases List.mem_cons.mp hx with rfl | hx
      · exact limb_lt _
      · exact lt x hx
    · have scaled := congrArg (2 ^ l.limbBitLength * ·) value
      rw [Nat.ofDigits_cons, Nat.ofDigits_cons, Nat.ofDigits_cons, List.length_cons, pow_succ]
      linarith

/-! ### One digit -/

theorem room_next {un : List ℕ} {i V : ℕ} (hu : ∀ x ∈ un, x < 2 ^ l.limbBitLength) (inside : i < un.length)
    (room : Nat.ofDigits (2 ^ l.limbBitLength) (un.drop (i + 1)) < V) :
    Nat.ofDigits (2 ^ l.limbBitLength) (un.drop i) < 2 ^ l.limbBitLength * V := by
  have digit := hu un[i] (List.getElem_mem _)
  have step := Nat.mul_le_mul_left (2 ^ l.limbBitLength) (Nat.succ_le_of_lt room)
  rw [ofDigits_drop _ inside]
  rw [Nat.succ_eq_add_one, mul_add] at step
  omega

/-- Taking `i` places off, what the digit leaves is the remainder of what was there. -/
theorem whole_of_remainder {un mid : List ℕ} {i V : ℕ} (hi : i ≤ un.length) (length : mid.length = un.length)
    (low : mid.take i = un.take i)
    (value : Nat.ofDigits (2 ^ l.limbBitLength) (mid.drop i) = Nat.ofDigits (2 ^ l.limbBitLength) (un.drop i) % V) :
    Nat.ofDigits (2 ^ l.limbBitLength) un = Nat.ofDigits (2 ^ l.limbBitLength) mid +
      V * ((2 ^ l.limbBitLength) ^ i * (Nat.ofDigits (2 ^ l.limbBitLength) (un.drop i) / V)) := by
  have division := Nat.div_add_mod (Nat.ofDigits (2 ^ l.limbBitLength) (un.drop i)) V
  rw [ofDigits_split _ mid (i := i) (by omega), ofDigits_split _ un (i := i) hi, low, value]
  calc _ = Nat.ofDigits (2 ^ l.limbBitLength) (un.take i) + (2 ^ l.limbBitLength) ^ i *
        (V * (Nat.ofDigits (2 ^ l.limbBitLength) (un.drop i) / V) +
          Nat.ofDigits (2 ^ l.limbBitLength) (un.drop i) % V) := by rw [division]
    _ = _ := by ring

section Digit
variable {vn : List ℕ} {k : ℕ} (length : vn.length = k + 2) (hv : ∀ x ∈ vn, x < 2 ^ l.limbBitLength)
include length hv

/-- With an estimate that is right or one too many, the limbs hold the remainder in the end, and the sign of the last
difference tells which it was. -/
theorem reduce_ok {qhat : ℕ} (hq : qhat < 2 ^ l.limbBitLength) {w : List ℕ} (hw : ∀ x ∈ w, x < 2 ^ l.limbBitLength)
    (long : k + 3 ≤ w.length) (room : Nat.ofDigits (2 ^ l.limbBitLength) w < 2 ^ l.limbBitLength * Nat.ofDigits (2 ^ l.limbBitLength) vn)
    (enough : Nat.ofDigits (2 ^ l.limbBitLength) w / Nat.ofDigits (2 ^ l.limbBitLength) vn ≤ qhat)
    (close : qhat ≤ Nat.ofDigits (2 ^ l.limbBitLength) w / Nat.ofDigits (2 ^ l.limbBitLength) vn + 1) :
    ∃ window t out, mulSub l qhat vn 0 w = .ok (window, t) ∧
      (if t < 0 then addBack l vn 0 window else .ok window) = .ok out ∧ out.length = w.length ∧
      (∀ x ∈ out, x < 2 ^ l.limbBitLength) ∧
      Nat.ofDigits (2 ^ l.limbBitLength) out =
        Nat.ofDigits (2 ^ l.limbBitLength) w % Nat.ofDigits (2 ^ l.limbBitLength) vn ∧
      qhat = Nat.ofDigits (2 ^ l.limbBitLength) w / Nat.ofDigits (2 ^ l.limbBitLength) vn + if t < 0 then 1 else 0 := by
  have radix := one_lt_radix l
  have positive : (0 : ℤ) < 2 ^ l.limbBitLength := by positivity
  obtain ⟨window, t, run, sub⟩ := mulSub_ok hq vn 0 w hv hw (by omega) ⟨le_rfl, positive.le⟩
  obtain ⟨V, hV⟩ : ∃ V, V = Nat.ofDigits (2 ^ l.limbBitLength) vn := ⟨_, rfl⟩
  obtain ⟨W, hW⟩ : ∃ W, W = Nat.ofDigits (2 ^ l.limbBitLength) w := ⟨_, rfl⟩
  obtain ⟨Z, hZ⟩ : ∃ Z, Z = Nat.ofDigits (2 ^ l.limbBitLength) window := ⟨_, rfl⟩
  have bound := ofDigits_lt radix hv
  have value := sub.value
  rw [← hV, ← hW] at room enough close value ⊢
  rw [← hZ] at value
  rw [← hV] at bound
  rw [length] at bound value
  have some : 0 < V := by
    by_contra zero
    rw [show V = 0 by omega, mul_zero] at room
    omega
  have division := Nat.div_add_mod W V
  have remainder := Nat.mod_lt W some
  -- The limbs above the window were zero, and stay so.
  have small : W < (2 ^ l.limbBitLength) ^ (k + 3) := by
    refine room.trans_le ?_
    rw [pow_succ' _ (k + 2)]
    exact Nat.mul_le_mul_left _ bound.le
  have inside : ∀ out : List ℕ, out.length = w.length → (∀ x ∈ out, x < 2 ^ l.limbBitLength) →
      out.drop (k + 3) = w.drop (k + 3) → Nat.ofDigits (2 ^ l.limbBitLength) out < (2 ^ l.limbBitLength) ^ (k + 3) := by
    intro out len lt above
    rw [ofDigits_split _ out (i := k + 3) (by omega), above, ofDigits_drop_eq_zero long (by rw [← hW]; exact small), mul_zero,
      add_zero]
    exact ofDigits_take_lt radix lt (by omega)
  have above := sub.above
  rw [length] at above
  by_cases negative : t < 0
  · have quotient : t / 2 ^ l.limbBitLength = -1 := Int.ediv_eq_neg_one_of_neg_of_le negative (by have := sub.range.1; omega)
    obtain ⟨out, carry, run', length', lt', above', value'⟩ := addBack_ok vn 0 window hv sub.lt (by rw [sub.length]; omega)
    rw [← hV, length] at value'
    rw [length] at above'
    rw [quotient] at value
    refine ⟨window, t, out, run, by rw [if_pos negative, run'], length'.trans sub.length, lt', ?_⟩
    rw [if_pos negative]
    have fits := inside out (length'.trans sub.length) lt' (above'.trans above)
    have fits' := inside window sub.length sub.lt above
    obtain ⟨X, hX⟩ : ∃ X, X = (2 ^ l.limbBitLength) ^ (k + 3) := ⟨_, rfl⟩
    have below : V ≤ X := by
      rw [hX, pow_succ' _ (k + 2)]
      exact bound.le.trans (Nat.le_mul_of_pos_left _ (by positivity))
    rw [← hX, ← hZ] at value'
    rw [← hX] at fits
    rw [← hX, ← hZ] at fits'
    have sum : Z + qhat * V = W + X := by
      zify
      rw [hX]
      push_cast
      linarith
    -- The window does not hold the wrapped difference unless the estimate was one too many.
    obtain rfl : qhat = W / V + 1 := by
      rcases Nat.lt_or_ge (W / V) qhat with more | less
      · omega
      · have exact : qhat = W / V := le_antisymm less enough
        rw [exact, mul_comm] at sum
        omega
    have total : Nat.ofDigits (2 ^ l.limbBitLength) out + X * carry = W % V + X := by
      have expand : (W / V + 1) * V = V * (W / V) + V := by ring
      omega
    have once : carry = 1 := by
      rcases Nat.lt_trichotomy carry 1 with none | one | more
      · rw [show carry = 0 by omega, mul_zero] at total
        omega
      · exact one
      · have := Nat.mul_le_mul_left X (show 2 ≤ carry from more)
        omega
    rw [once, mul_one] at total
    exact ⟨by omega, rfl⟩
  · have quotient : t / 2 ^ l.limbBitLength = 0 := Int.ediv_eq_zero_of_lt (not_lt.mp negative) sub.range.2
    rw [quotient] at value
    refine ⟨window, t, window, run, if_neg negative, sub.length, sub.lt, ?_⟩
    rw [if_neg negative]
    have sum : Z + qhat * V = W := by
      zify
      linarith
    have exact : qhat = W / V := le_antisymm ((Nat.le_div_iff_mul_le some).mpr (by omega)) enough
    refine ⟨?_, exact⟩
    rw [exact, mul_comm] at sum
    omega

variable (inside : k + 1 < vn.length) (top : vn[k + 1] ≠ 0)
include top

/-- The corrected estimate is a limb, and what the two loops after it leave. -/
theorem estimate_ok {un : List ℕ} {j : ℕ} (hu : ∀ x ∈ un, x < 2 ^ l.limbBitLength) (long : j + k + 3 ≤ un.length)
    (room : Nat.ofDigits (2 ^ l.limbBitLength) (un.drop j) < 2 ^ l.limbBitLength * Nat.ofDigits (2 ^ l.limbBitLength) vn) :
    ∃ qhat window t rest,
      correct l vn[k + 1] vn[k] un[j + k] (Nat.pos_of_ne_zero top)
        ((un[j + (k + 2)] * 2 ^ l.limbBitLength + un[j + (k + 1)]) / vn[k + 1])
        ((un[j + (k + 2)] * 2 ^ l.limbBitLength + un[j + (k + 1)]) % vn[k + 1]) = qhat ∧
      qhat < 2 ^ l.limbBitLength ∧ mulSub l qhat vn 0 (un.drop j) = .ok (window, t) ∧
      (if t < 0 then addBack l vn 0 window else .ok window) = .ok rest ∧ rest.length = un.length - j ∧
      (∀ x ∈ rest, x < 2 ^ l.limbBitLength) ∧
      Nat.ofDigits (2 ^ l.limbBitLength) rest =
        Nat.ofDigits (2 ^ l.limbBitLength) (un.drop j) % Nat.ofDigits (2 ^ l.limbBitLength) vn ∧
      qhat = Nat.ofDigits (2 ^ l.limbBitLength) (un.drop j) / Nat.ofDigits (2 ^ l.limbBitLength) vn + if t < 0 then 1 else 0 := by
  have radix := one_lt_radix l
  have lengthW : (un.drop j).length = un.length - j := List.length_drop
  have hw : ∀ x ∈ un.drop j, x < 2 ^ l.limbBitLength := fun x hx => hu x (List.mem_of_mem_drop hx)
  have tops := tops_of_digits radix length (by omega) hv hw top room
  simp only [List.getElem_drop] at tops
  have limbs : ∀ i (h : i < un.length), un[i] < 2 ^ l.limbBitLength := fun i h => hu _ (List.getElem_mem h)
  have divisor := hv _ (List.getElem_mem (show k + 1 < vn.length by omega))
  obtain ⟨enough, close, digit⟩ := correct_spec tops (limbs (j + (k + 1)) (by omega))
    (hv _ (List.getElem_mem (show k < vn.length by omega)))
    ((un[j + (k + 2)] * 2 ^ l.limbBitLength + un[j + (k + 1)]) / vn[k + 1])
    ((un[j + (k + 2)] * 2 ^ l.limbBitLength + un[j + (k + 1)]) % vn[k + 1])
    (by rw [mul_comm]; exact Nat.div_add_mod ..) ((Nat.mod_lt _ tops.positive).trans divisor) tops.quotient_le
  obtain ⟨window, t, rest, run, added, lengthRest, lt, value, estimate⟩ := reduce_ok length hv digit hw (by omega) room enough
    close
  exact ⟨_, window, t, rest, rfl, digit, run, added, lengthRest.trans lengthW, lt, value, estimate⟩

/-- A pass replaces the limbs from place `j` on by their remainder. The one that keeps its digit keeps that of the quotient. -/
theorem divideDigit_ok {un : List ℕ} {j : ℕ} (hu : ∀ x ∈ un, x < 2 ^ l.limbBitLength) (long : j + k + 3 ≤ un.length)
    (room : Nat.ofDigits (2 ^ l.limbBitLength) (un.drop j) < 2 ^ l.limbBitLength * Nat.ofDigits (2 ^ l.limbBitLength) vn)
    (q : List ℕ) :
    ∃ out, divideDigit l vn un j = .ok out ∧
      quotientDigit l vn (q, un) j = .ok
        (Nat.ofDigits (2 ^ l.limbBitLength) (un.drop j) / Nat.ofDigits (2 ^ l.limbBitLength) vn :: q, out) ∧
      out.length = un.length ∧ (∀ x ∈ out, x < 2 ^ l.limbBitLength) ∧
      out.take j = un.take j ∧ Nat.ofDigits (2 ^ l.limbBitLength) (out.drop j) =
        Nat.ofDigits (2 ^ l.limbBitLength) (un.drop j) % Nat.ofDigits (2 ^ l.limbBitLength) vn := by
  have limbs : ∀ i (h : i < un.length), un[i] < 2 ^ l.limbBitLength := fun i h => hu _ (List.getElem_mem h)
  have dividend := join_limbs (limbs (j + (k + 2)) (by omega)) (limbs (j + (k + 1)) (by omega))
  obtain ⟨qhat, window, t, rest, corrected, digit, run, added, lengthRest, lt, value, estimate⟩ :=
    estimate_ok length hv inside top hu long room
  have kept : (un.take j).length = j := by rw [List.length_take]; omega
  have second : load Fault.outOfRange un (j + (k + 2) - 1) = .ok un[j + (k + 1)] := load_ok _ (by omega)
  have third : load Fault.outOfRange un (j + (k + 2) - 2) = .ok un[j + k] := load_ok _ (by omega)
  have upper : load Fault.outOfRange vn (k + 2 - 1) = .ok vn[k + 1] := load_ok _ (by omega)
  have lower : load Fault.outOfRange vn (k + 2 - 2) = .ok vn[k] := load_ok _ (by omega)
  refine ⟨un.take j ++ rest, ?_, ?_, ?_, ?_, ?_, ?_⟩
  · unfold divideDigit
    simp only [length, upper, lower, load_ok Fault.outOfRange (show j + (k + 2) < un.length by omega), second, third]
    dsimp only [bind, Except.bind]
    rw [dif_neg top]
    simp only [dividend, corrected, run]
    by_cases negative : t < 0
    · rw [if_pos negative] at added ⊢
      rw [added]
      rfl
    · rw [if_neg negative] at added ⊢
      cases added
      rfl
  · unfold quotientDigit
    simp only [length, upper, lower, load_ok Fault.outOfRange (show j + (k + 2) < un.length by omega), second, third]
    dsimp only [bind, Except.bind]
    rw [dif_neg top]
    simp only [dividend, corrected, run, limb_of_lt digit]
    by_cases negative : t < 0
    · rw [if_pos negative] at added estimate ⊢
      have digit' : Nat.ofDigits (2 ^ l.limbBitLength) (un.drop j) / Nat.ofDigits (2 ^ l.limbBitLength) vn <
          2 ^ l.limbBitLength := by omega
      rw [added, estimate, limb_pred digit']
      rfl
    · rw [if_neg negative] at added estimate ⊢
      cases added
      rw [estimate]
      rfl
  · rw [List.length_append, kept, lengthRest]
    omega
  · intro x hx
    rcases List.mem_append.mp hx with hx | hx
    · exact hu x (List.mem_of_mem_take hx)
    · exact lt x hx
  · rw [List.take_append_of_le_length kept.ge, List.take_of_length_le kept.le]
  · rw [List.drop_append_of_le_length kept.ge, List.drop_of_length_le kept.le, List.nil_append, value]

/-- The loop leaves the remainder of all limbs, and the digits of the quotient before those it began with. -/
theorem divideDigits_ok (i : ℕ) {un : List ℕ} (hu : ∀ x ∈ un, x < 2 ^ l.limbBitLength) (long : i + k + 2 ≤ un.length)
    (room : Nat.ofDigits (2 ^ l.limbBitLength) (un.drop i) < Nat.ofDigits (2 ^ l.limbBitLength) vn) (q : List ℕ) :
    ∃ digits out, (List.range i).reverse.foldlM (divideDigit l vn) un = .ok out ∧
      (List.range i).reverse.foldlM (quotientDigit l vn) (q, un) = .ok (digits ++ q, out) ∧ out.length = un.length ∧
      (∀ x ∈ out, x < 2 ^ l.limbBitLength) ∧
      Nat.ofDigits (2 ^ l.limbBitLength) out =
        Nat.ofDigits (2 ^ l.limbBitLength) un % Nat.ofDigits (2 ^ l.limbBitLength) vn ∧
      digits.length = i ∧ (∀ x ∈ digits, x < 2 ^ l.limbBitLength) ∧
      Nat.ofDigits (2 ^ l.limbBitLength) digits =
        Nat.ofDigits (2 ^ l.limbBitLength) un / Nat.ofDigits (2 ^ l.limbBitLength) vn := by
  induction i generalizing un q with
  | zero =>
    rw [List.drop_zero] at room
    exact ⟨[], un, rfl, rfl, rfl, hu, (Nat.mod_eq_of_lt room).symm, rfl, by simp, by simp [Nat.div_eq_of_lt room]⟩
  | succ i ih =>
    have next := room_next hu (by omega) room
    obtain ⟨mid, run, keeping, length', lt, low, value⟩ := divideDigit_ok length hv inside top hu (by omega) next q
    have some : 0 < Nat.ofDigits (2 ^ l.limbBitLength) vn := Nat.zero_lt_of_lt room
    obtain ⟨digits, out, run', keeping', length'', lt', value', count, below, quotient⟩ :=
      ih lt (by omega) (by rw [value]; exact Nat.mod_lt _ some)
        (Nat.ofDigits (2 ^ l.limbBitLength) (un.drop i) / Nat.ofDigits (2 ^ l.limbBitLength) vn :: q)
    have order : (List.range (i + 1)).reverse = i :: (List.range i).reverse := by
      rw [List.range_succ, List.reverse_append, List.reverse_singleton, List.singleton_append]
    have whole := whole_of_remainder (by omega) length' low value
    refine ⟨digits ++ [Nat.ofDigits (2 ^ l.limbBitLength) (un.drop i) / Nat.ofDigits (2 ^ l.limbBitLength) vn], out,
      order ▸ Run.foldlM_cons_ok run run', ?_, length''.trans length', lt', ?_, by simp [count], ?_, ?_⟩
    · rw [List.append_assoc, List.singleton_append]
      exact order ▸ Run.foldlM_cons_ok keeping keeping'
    · rw [value', whole, Nat.add_mul_mod_self_left]
    · intro x hx
      rcases List.mem_append.mp hx with hx | hx
      · exact below x hx
      · rw [List.mem_singleton.mp hx]
        exact Nat.div_lt_of_lt_mul (mul_comm _ (2 ^ l.limbBitLength) ▸ next)
    · rw [ofDigits_concat, count, quotient, whole, Nat.add_mul_div_left _ _ some]

end Digit

/-! ### The remainder -/

/-- The overflow that the loop leaves is what the last limb loses. -/
theorem shiftLimbs_last {D : ℕ} (hD : D ≤ l.limbBitLength) (vs : List ℕ) (ofl : ℕ) (hv : ∀ x ∈ vs, x < 2 ^ l.limbBitLength)
    (ho : ofl < 2 ^ D) (nonempty : vs ≠ []) :
    (shiftLimbs l D vs ofl).2 = vs.getLastD 0 >>> (l.limbBitLength - D) := by
  induction vs generalizing ofl with
  | nil => exact absurd rfl nonempty
  | cons v vs ih =>
    obtain ⟨merged, carry⟩ := shift_limb hD (hv v (by simp)) ho
    simp only [shiftLimbs, merged]
    by_cases single : vs = []
    · subst single
      have radix : 2 ^ l.limbBitLength = 2 ^ D * 2 ^ (l.limbBitLength - D) := by
        rw [← pow_add, Nat.add_sub_cancel' hD]
      simp only [shiftLimbs, List.getLastD_cons, List.getLastD_nil]
      rw [shiftRight_eq_div, Nat.shiftRight_eq_div_pow, radix, ← Nat.div_div_eq_div_mul, mul_comm v,
        Nat.mul_add_div (by positivity), Nat.div_eq_of_lt ho, add_zero]
    · rw [ih _ (fun x hx => hv x (List.mem_cons_of_mem _ hx)) carry single, List.getLastD_eq_getLast?,
        List.getLastD_eq_getLast?, List.getLast?_cons_of_ne_nil single]

theorem unshift_eq {sl k : ℕ} (hs : sl ≤ l.limbBitLength) {r : List ℕ} (hr : ∀ x ∈ r, x < 2 ^ l.limbBitLength)
    (length : r.length = k + 2) :
    normalizeLimbs l ((shiftLimbs l (l.limbBitLength - sl) r.tail (r[0] >>> sl)).1 ++ [r[k + 1] >>> sl]) =
      stored l (Nat.ofDigits (2 ^ l.limbBitLength) r / 2 ^ sl) := by
  obtain ⟨x, rest, rfl⟩ := List.exists_cons_of_length_pos (by omega : 0 < r.length)
  have tail : rest.length = k + 1 := by simpa using length
  have hrest : ∀ y ∈ rest, y < 2 ^ l.limbBitLength := fun y hy => hr y (List.mem_cons_of_mem _ hy)
  have below := hr x (by simp)
  have ofl : x >>> sl < 2 ^ (l.limbBitLength - sl) := by
    rw [Nat.shiftRight_eq_div_pow]
    refine Nat.div_lt_of_lt_mul ?_
    rw [← pow_add, Nat.add_sub_cancel' hs]
    exact below
  have nonempty : rest ≠ [] := List.ne_nil_of_length_pos (by omega)
  obtain ⟨length', lt, small, value⟩ := shiftLimbs_spec (Nat.sub_le l.limbBitLength sl) rest _ hrest ofl
  have last := shiftLimbs_last (Nat.sub_le l.limbBitLength sl) rest _ hrest ofl nonempty
  have top : rest.getLastD 0 = (x :: rest)[k + 1] := by
    rw [getLastD_eq nonempty, List.getLast_eq_getElem]
    simp [tail]
  rw [Nat.sub_sub_self hs, top] at last
  simp only [List.tail_cons, List.getElem_cons_zero]
  rw [← last, normalizeLimbs_eq (by simp), ofDigits_concat, length', value, Nat.ofDigits_cons, add_radix_mul_div hs,
    Nat.shiftRight_eq_div_pow]
  intro y hy
  rcases List.mem_append.mp hy with hy | hy
  · exact lt y hy
  · rw [List.mem_singleton.mp hy]
    exact small.trans_le (Nat.pow_le_pow_right two_pos (Nat.sub_le ..))

theorem shifted_divisor {k : ℕ} (length : (stored l n).value.length = k + 2) {sl : ℕ}
    (hs : sl = l.limbBitLength - ((stored l n).value.getLastD 0).size) :
    ∃ vn, (shiftLimbs l sl (stored l n).value 0).1 = vn ∧ vn.length = k + 2 ∧ (∀ x ∈ vn, x < 2 ^ l.limbBitLength) ∧
      Nat.ofDigits (2 ^ l.limbBitLength) vn = 2 ^ sl * n ∧ (2 ^ l.limbBitLength) ^ (k + 1) ≤ n := by
  have radix := one_lt_radix l
  have canonical : Canonical (2 ^ l.limbBitLength) (stored l n).value := canonical_digits radix n
  have positive : n ≠ 0 := by
    rintro rfl
    have one : (stored l 0).value.length = 1 := rfl
    omega
  have size := canonical.size_eq (bits_pos l)
  rw [ofDigits_stored, length, show k + 2 - 1 = k + 1 by omega] at size
  have expand : l.limbBitLength * (k + 2) = l.limbBitLength * (k + 1) + l.limbBitLength := by ring
  have top : ((stored l n).value.getLastD 0).size ≤ l.limbBitLength := by
    refine Nat.size_le.mpr (canonical.lt _ ?_)
    rw [getLastD_eq canonical.nonempty]
    exact List.getLast_mem _
  have le := le_ofDigits_digits radix positive
  obtain ⟨length', lt, -, value⟩ := shiftLimbs_spec (l := l) (show sl ≤ l.limbBitLength by omega) (stored l n).value 0
    stored_lt (by positivity)
  rw [ofDigits_stored, length, zero_add] at value
  -- All bits of the shifted divisor are in its limbs.
  have fits : 2 ^ sl * n < (2 ^ l.limbBitLength) ^ (k + 2) := by
    calc 2 ^ sl * n < 2 ^ sl * 2 ^ n.size := Nat.mul_lt_mul_of_pos_left (Nat.lt_size_self n) (by positivity)
      _ = (2 ^ l.limbBitLength) ^ (k + 2) := by
        rw [← pow_add, ← pow_mul]
        congr 1
        omega
  have none : (shiftLimbs l sl (stored l n).value 0).2 = 0 := by
    by_contra some
    have := Nat.le_mul_of_pos_right ((2 ^ l.limbBitLength) ^ (k + 2)) (Nat.pos_of_ne_zero some)
    omega
  rw [none, mul_zero, add_zero] at value
  refine ⟨_, rfl, length'.trans length, lt, value, ?_⟩
  have length'' : (digits (2 ^ l.limbBitLength) n).length = k + 2 := length
  rwa [length''] at le

/-- What is left of the shifted dividend, with the shift undone. -/
def unshift (l : LimbT) (sl n : ℕ) (un : List ℕ) : Except Fault Ubint := do
  let first ← load .outOfRange un 0
  let last ← load .outOfRange un (n - 1)
  return normalizeLimbs l ((shiftLimbs l (l.limbBitLength - sl) ((un.take n).tail) (first >>> sl)).1 ++ [last >>> sl])

/-- What the loop begins with: the divisor with its top bit set, and the dividend shifted as far, with one limb more. -/
structure Prepared (l : LimbT) (m n k i sl : ℕ) (vn un : List ℕ) : Prop where
  divisor : (shiftLimbs l sl (stored l n).value 0).1 = vn
  dividend : (shiftLimbs l sl (stored l m).value 0).1 ++ [limb l (shiftLimbs l sl (stored l m).value 0).2] = un
  small : sl ≤ l.limbBitLength
  positive : 0 < n
  places : (stored l m).value.length + 1 = i + (k + 2)
  lengthV : vn.length = k + 2
  ltV : ∀ x ∈ vn, x < 2 ^ l.limbBitLength
  valueV : Nat.ofDigits (2 ^ l.limbBitLength) vn = 2 ^ sl * n
  inside : k + 1 < vn.length
  top : vn[k + 1] ≠ 0
  lengthU : un.length = i + (k + 2)
  ltU : ∀ x ∈ un, x < 2 ^ l.limbBitLength
  valueU : Nat.ofDigits (2 ^ l.limbBitLength) un = 2 ^ sl * m
  room : Nat.ofDigits (2 ^ l.limbBitLength) (un.drop i) < Nat.ofDigits (2 ^ l.limbBitLength) vn

theorem prepared {k : ℕ} (length : (stored l n).value.length = k + 2)
    (more : (stored l n).value.length ≤ (stored l m).value.length) {sl : ℕ}
    (hs : sl = l.limbBitLength - ((stored l n).value.getLastD 0).size) : ∃ vn un i, Prepared l m n k i sl vn un := by
  have radix := one_lt_radix l
  have small : sl ≤ l.limbBitLength := by omega
  obtain ⟨vn, shiftedV, lengthV, ltV, valueV, large⟩ := shifted_divisor length hs
  have positive : 0 < n := (Nat.pos_of_ne_zero (by positivity)).trans_le large
  obtain ⟨lower, ofl, shiftedU⟩ : ∃ lower ofl, shiftLimbs l sl (stored l m).value 0 = (lower, ofl) := ⟨_, _, rfl⟩
  obtain ⟨lengthU, ltU, last, valueU⟩ := shiftLimbs_spec (l := l) small (stored l m).value 0 stored_lt (by positivity)
  rw [shiftedU, ofDigits_stored, zero_add] at valueU
  rw [shiftedU] at lengthU ltU last
  dsimp only at lengthU ltU last valueU
  have word : ofl < 2 ^ l.limbBitLength := last.trans_le (Nat.pow_le_pow_right two_pos small)
  have ltUn : ∀ x ∈ lower ++ [ofl], x < 2 ^ l.limbBitLength := by
    intro x hx
    rcases List.mem_append.mp hx with hx | hx
    · exact ltU x hx
    · rw [List.mem_singleton.mp hx]
      exact word
  have valueUn : Nat.ofDigits (2 ^ l.limbBitLength) (lower ++ [ofl]) = 2 ^ sl * m := by
    rw [ofDigits_concat, lengthU]
    exact valueU
  obtain ⟨i, hi⟩ : ∃ i, (stored l m).value.length + 1 = i + (k + 2) := ⟨(stored l m).value.length - (k + 1), by omega⟩
  have top : vn[k + 1] ≠ 0 := by
    have canonical : Canonical (2 ^ l.limbBitLength) vn := by
      refine canonical_of_le radix (List.ne_nil_of_length_pos (by omega)) ltV ?_
      rw [lengthV, valueV]
      exact large.trans (Nat.le_mul_of_pos_left _ (by positivity))
    rcases canonical.top with top | single
    · rw [getLastD_eq canonical.nonempty, List.getLast_eq_getElem] at top
      simpa [lengthV] using top
    · omega
  -- The limbs over the first place of the quotient are less than the divisor.
  have room : Nat.ofDigits (2 ^ l.limbBitLength) ((lower ++ [ofl]).drop i) < Nat.ofDigits (2 ^ l.limbBitLength) vn := by
    have rest : (lower.drop i).length = k + 1 := by
      rw [List.length_drop]
      omega
    have low := ofDigits_lt radix fun x hx => ltU x (List.mem_of_mem_drop (i := i) hx)
    rw [rest] at low
    rw [List.drop_append_of_le_length (by omega), ofDigits_concat, rest, valueV]
    calc _ < (2 ^ l.limbBitLength) ^ (k + 1) * (ofl + 1) := by rw [mul_add, mul_one]; omega
      _ ≤ (2 ^ l.limbBitLength) ^ (k + 1) * 2 ^ sl := Nat.mul_le_mul_left _ last
      _ = 2 ^ sl * (2 ^ l.limbBitLength) ^ (k + 1) := mul_comm ..
      _ ≤ 2 ^ sl * n := Nat.mul_le_mul_left _ large
  refine ⟨vn, lower ++ [ofl], i, shiftedV, ?_, small, positive, hi, lengthV, ltV, valueV, by omega, top, ?_, ltUn, valueUn, room⟩
  · simp only [shiftedU, limb_of_lt word]
  · simp only [List.length_append, List.length_singleton, lengthU, hi]

theorem longDivision_ok {k : ℕ} (length : (stored l n).value.length = k + 2)
    (more : (stored l n).value.length ≤ (stored l m).value.length) {sl : ℕ}
    (hs : sl = l.limbBitLength - ((stored l n).value.getLastD 0).size) :
    ∃ q un, longDivision l (stored l m).value (stored l n).value = .ok (q, un) ∧
      (List.range ((stored l m).value.length + 1 - (k + 2))).reverse.foldlM
        (divideDigit l (shiftLimbs l sl (stored l n).value 0).1)
        ((shiftLimbs l sl (stored l m).value 0).1 ++ [limb l (shiftLimbs l sl (stored l m).value 0).2]) = .ok un ∧
      normalizeLimbs l q = stored l (m / n) ∧ unshift l sl (k + 2) un = .ok (stored l (m % n)) := by
  have radix := one_lt_radix l
  obtain ⟨vn, un, i, ready⟩ := prepared length more hs
  have lengthU := ready.lengthU
  obtain ⟨q, out, run, keeping, lengthOut, ltOut, valueOut, count, below, quotient⟩ :=
    divideDigits_ok ready.lengthV ready.ltV ready.inside ready.top i ready.ltU (by omega) ready.room []
  rw [ready.valueU, ready.valueV, Nat.mul_mod_mul_left] at valueOut
  rw [ready.valueU, ready.valueV, Nat.mul_div_mul_left _ _ (by positivity)] at quotient
  have inside : k + 2 ≤ out.length := by omega
  have kept : (out.take (k + 2)).length = k + 2 := by
    rw [List.length_take]
    omega
  have value : Nat.ofDigits (2 ^ l.limbBitLength) (out.take (k + 2)) = 2 ^ sl * (m % n) := by
    have below : Nat.ofDigits (2 ^ l.limbBitLength) out < (2 ^ l.limbBitLength) ^ (k + 2) := by
      have bound := ofDigits_lt radix ready.ltV
      rw [ready.lengthV, ready.valueV] at bound
      rw [valueOut]
      exact (Nat.mul_le_mul_left _ (Nat.mod_lt m ready.positive).le).trans_lt bound
    have split := ofDigits_split (2 ^ l.limbBitLength) out inside
    rwa [ofDigits_drop_eq_zero inside below, mul_zero, add_zero, valueOut, eq_comm] at split
  have final := unshift_eq ready.small (r := out.take (k + 2)) (fun x hx => ltOut x (List.mem_of_mem_take hx)) kept
  rw [value, Nat.mul_div_cancel_left _ (by positivity)] at final
  have places : (stored l m).value.length + 1 - (k + 2) = i := by
    have := ready.places
    omega
  refine ⟨q, out, ?_, ?_, ?_, ?_⟩
  · simp only [longDivision, length, ← hs, ready.divisor, ready.dividend, places]
    rw [keeping, List.append_nil]
  · simp only [ready.divisor, ready.dividend, places]
    exact run
  · rw [normalizeLimbs_eq (List.ne_nil_of_length_pos (by omega)) below, quotient]
  · unfold unshift
    rw [load_ok _ (show 0 < out.length by omega), load_ok _ (show k + 2 - 1 < out.length by omega)]
    simp only [List.getElem_take] at final
    exact congrArg Except.ok final

theorem divrVect_many {k : ℕ} (length : (stored l n).value.length = k + 2)
    (more : (stored l n).value.length ≤ (stored l m).value.length) :
    divrVect l (stored l m).value (stored l n).value = .ok (stored l (m % n)) := by
  obtain ⟨q, un, -, run, -, remainder⟩ := longDivision_ok length more rfl
  have one : ¬ k + 2 = 1 := by omega
  unfold unshift at remainder
  unfold divrVect
  simp only [length, one, if_false]
  dsimp only [bind, Except.bind] at remainder ⊢
  rw [run]
  exact remainder

theorem divqVect_many {k : ℕ} (length : (stored l n).value.length = k + 2)
    (more : (stored l n).value.length ≤ (stored l m).value.length) :
    divqVect l (stored l m).value (stored l n).value = .ok (stored l (m / n)) := by
  obtain ⟨q, un, run, -, quotient, -⟩ := longDivision_ok length more rfl
  have one : ¬ k + 2 = 1 := by omega
  unfold divqVect
  simp only [length, one, if_false, run]
  exact congrArg Except.ok quotient

theorem divqrVect_many {k : ℕ} (length : (stored l n).value.length = k + 2)
    (more : (stored l n).value.length ≤ (stored l m).value.length) :
    divqrVect l (stored l m).value (stored l n).value = .ok (stored l (m / n), stored l (m % n)) := by
  obtain ⟨q, un, run, -, quotient, remainder⟩ := longDivision_ok length more rfl
  have one : ¬ k + 2 = 1 := by omega
  obtain ⟨first, hfirst, remainder⟩ := Run.bind_ok remainder
  obtain ⟨last, hlast, remainder⟩ := Run.bind_ok remainder
  unfold divqrVect
  simp only [length, one, if_false, run]
  dsimp only [bind, Except.bind]
  rw [hfirst, hlast]
  dsimp only
  rw [quotient, Except.ok.inj remainder]
  rfl

/-! ### Divisors of any length -/

theorem quotientByLimb_spec {v : ℕ} (hv : v < 2 ^ l.limbBitLength) (us : List ℕ) (ofl : ℕ)
    (hu : ∀ x ∈ us, x < 2 ^ l.limbBitLength) (ho : ofl < v) :
    (quotientByLimb l v us ofl).2 = remainderByLimb l v us ofl ∧ (quotientByLimb l v us ofl).1.length = us.length ∧
      (∀ x ∈ (quotientByLimb l v us ofl).1, x < 2 ^ l.limbBitLength) ∧
      Nat.ofDigits (2 ^ l.limbBitLength) (quotientByLimb l v us ofl).1.reverse =
        (ofl * (2 ^ l.limbBitLength) ^ us.length + Nat.ofDigits (2 ^ l.limbBitLength) us.reverse) / v := by
  have positive : 0 < v := by omega
  induction us generalizing ofl with
  | nil => simp [quotientByLimb, remainderByLimb, Nat.div_eq_of_lt ho]
  | cons u us ih =>
    have below := hu u (by simp)
    have joined := join_limbs (l := l) (show ofl < 2 ^ l.limbBitLength by omega) below
    obtain ⟨last, length, lt, value⟩ := ih _ (fun x hx => hu x (List.mem_cons_of_mem _ hx)) (Nat.mod_lt
      (ofl * 2 ^ l.limbBitLength + u) positive)
    have digit : (ofl * 2 ^ l.limbBitLength + u) / v < 2 ^ l.limbBitLength := by
      apply Nat.div_lt_of_lt_mul
      calc ofl * 2 ^ l.limbBitLength + u < (ofl + 1) * 2 ^ l.limbBitLength := by rw [add_mul, one_mul]; omega
        _ ≤ v * 2 ^ l.limbBitLength := Nat.mul_le_mul_right _ ho
    simp only [quotientByLimb, remainderByLimb, joined]
    refine ⟨last, by simp [length], ?_, ?_⟩
    · intro x hx
      rcases List.mem_cons.mp hx with rfl | hx
      · exact limb_lt _
      · exact lt x hx
    · have division := Nat.div_add_mod (ofl * 2 ^ l.limbBitLength + u) v
      rw [List.reverse_cons, List.reverse_cons, ofDigits_concat, ofDigits_concat, List.length_reverse, List.length_reverse,
        length, value, limb_of_lt digit, List.length_cons]
      generalize (ofl * 2 ^ l.limbBitLength + u) / v = d at *
      generalize (ofl * 2 ^ l.limbBitLength + u) % v = r at *
      have split : ofl * (2 ^ l.limbBitLength) ^ (us.length + 1) + (Nat.ofDigits (2 ^ l.limbBitLength) us.reverse +
          (2 ^ l.limbBitLength) ^ us.length * u) = r * (2 ^ l.limbBitLength) ^ us.length +
            Nat.ofDigits (2 ^ l.limbBitLength) us.reverse + v * ((2 ^ l.limbBitLength) ^ us.length * d) := by
        calc _ = (ofl * 2 ^ l.limbBitLength + u) * (2 ^ l.limbBitLength) ^ us.length +
              Nat.ofDigits (2 ^ l.limbBitLength) us.reverse := by ring
          _ = (v * d + r) * (2 ^ l.limbBitLength) ^ us.length + Nat.ofDigits (2 ^ l.limbBitLength) us.reverse := by rw [division]
          _ = _ := by ring
      rw [split, Nat.add_mul_div_left _ _ positive]

theorem single_limb (one : (stored l n).value.length = 1) : (stored l n).value = [n] ∧ n < 2 ^ l.limbBitLength := by
  obtain ⟨v, single⟩ := List.length_eq_one_iff.mp one
  have value := ofDigits_stored l n
  rw [single, Nat.ofDigits_singleton] at value
  subst value
  exact ⟨single, stored_lt (l := l) (n := v) v (by simp [single])⟩

section Divide
variable (positive : n ≠ 0) (more : (stored l n).value.length ≤ (stored l m).value.length)
include positive more

theorem divrVect_stored : divrVect l (stored l m).value (stored l n).value = .ok (stored l (m % n)) := by
  have nonempty := stored_length_pos (l := l) (n := n)
  by_cases one : (stored l n).value.length = 1
  · obtain ⟨single, below⟩ := single_limb one
    have value := remainderByLimb_eq below (stored l m).value.reverse 0
      (fun x hx => stored_lt (l := l) (n := m) x (List.mem_reverse.mp hx)) (Nat.pos_of_ne_zero positive)
    rw [List.reverse_reverse, ofDigits_stored, zero_mul, zero_add] at value
    have rest := (Nat.mod_lt m (Nat.pos_of_ne_zero positive)).trans below
    simp only [divrVect, single, List.length_singleton, if_true, load]
    dsimp only [bind, Except.bind, List.getElem?_cons_zero]
    rw [if_neg positive, value, limb_of_lt rest, stored_ofWord rest]
    rfl
  · exact divrVect_many (k := (stored l n).value.length - 2) (by omega) more

theorem divqrVect_stored :
    divqrVect l (stored l m).value (stored l n).value = .ok (stored l (m / n), stored l (m % n)) := by
  have nonempty := stored_length_pos (l := l) (n := n)
  by_cases one : (stored l n).value.length = 1
  · obtain ⟨single, below⟩ := single_limb one
    have limbs : ∀ x ∈ (stored l m).value.reverse, x < 2 ^ l.limbBitLength := fun x hx =>
      stored_lt (l := l) (n := m) x (List.mem_reverse.mp hx)
    have value := remainderByLimb_eq below (stored l m).value.reverse 0 limbs (Nat.pos_of_ne_zero positive)
    obtain ⟨last, length, lt, quotient⟩ := quotientByLimb_spec below (stored l m).value.reverse 0 limbs
      (Nat.pos_of_ne_zero positive)
    rw [List.reverse_reverse, ofDigits_stored, zero_mul, zero_add] at value quotient
    have rest := (Nat.mod_lt m (Nat.pos_of_ne_zero positive)).trans below
    have some : (quotientByLimb l n (stored l m).value.reverse 0).1.reverse ≠ [] := by
      apply List.ne_nil_of_length_pos
      rw [List.length_reverse, length, List.length_reverse]
      exact stored_length_pos
    simp only [divqrVect, single, List.length_singleton, if_true, load]
    dsimp only [bind, Except.bind, List.getElem?_cons_zero]
    rw [if_neg positive, normalizeLimbs_eq some (by simpa using lt), quotient, last, value, limb_of_lt rest, stored_ofWord rest]
    rfl
  · exact divqrVect_many (k := (stored l n).value.length - 2) (by omega) more

/-- The one that returns no remainder computes the same quotient. -/
theorem divqVect_stored : divqVect l (stored l m).value (stored l n).value = .ok (stored l (m / n)) := by
  have nonempty := stored_length_pos (l := l) (n := n)
  by_cases one : (stored l n).value.length = 1
  · have both := divqrVect_stored positive more
    simp only [divqrVect, divqVect, one, if_true] at both ⊢
    obtain ⟨v0, first, both⟩ := Run.bind_ok both
    obtain ⟨some, both⟩ := Run.ite_ok both nofun
    rw [first]
    dsimp only [bind, Except.bind]
    rw [if_neg some]
    exact congrArg Except.ok (Prod.mk.inj (Except.ok.inj both)).1
  · exact divqVect_many (k := (stored l n).value.length - 2) (by omega) more

end Divide

end MultiKeyFHE.Ubint
