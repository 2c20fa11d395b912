import MultiKeyFHE.Gate.Sign

/-!
# The moduli of the rounds

`EvalSign` computes the next modulus of its loop as `(mod << 1) * beta / q` in words, `EvalDecomp` as
`mod / q * 2 * beta`. `exactSchedule_iff` says when the words hold the exact numbers.
-/

namespace MultiKeyFHE
open NativeInteger

namespace LWEGate

/-- The modulus after `k` rounds. -/
def modulusAfter (r : Rounds) (mod k : ℕ) : ℕ := r.next^[k] mod

/-- The loop makes `k` rounds: `mod > q` holds before each of them. -/
def Makes (r : Rounds) (q mod k : ℕ) : Prop := ∀ i < k, q < modulusAfter r mod i

def exactNext (q beta mod : ℕ) : ℕ := 2 * mod * beta / q

/-- The moduli of `EvalSign` are the exact ones. They decrease and stay positive, and `EvalDecomp` has the same as long
as `q` divides them. -/
structure ExactSchedule (w : NativeSize) (q beta mod : ℕ) : Prop where
  exact : ∀ k, Makes (signRounds w q beta) q mod k →
    modulusAfter (signRounds w q beta) mod k = (exactNext q beta)^[k] mod
  decreasing : ∀ k, Makes (signRounds w q beta) q mod (k + 1) →
    modulusAfter (signRounds w q beta) mod (k + 1) < modulusAfter (signRounds w q beta) mod k
  positive : ∀ k, Makes (signRounds w q beta) q mod k → 0 < modulusAfter (signRounds w q beta) mod k
  decomp : ∀ k, Makes (signRounds w q beta) q mod k → (∀ i < k, q ∣ modulusAfter (signRounds w q beta) mod i) →
    modulusAfter (decompRounds w q beta) mod k = modulusAfter (signRounds w q beta) mod k

variable {w : NativeSize} {r : Rounds} {q beta mod k : ℕ}

@[simp] theorem modulusAfter_zero : modulusAfter r mod 0 = mod := rfl

theorem modulusAfter_succ : modulusAfter r mod (k + 1) = r.next (modulusAfter r mod k) :=
  Function.iterate_succ_apply' ..

theorem Makes.last (made : Makes r q mod (k + 1)) : q < modulusAfter r mod k := made k (by omega)

theorem Makes.before (made : Makes r q mod (k + 1)) : Makes r q mod k := fun i hi => made i (by omega)

theorem makes_one (more : q < mod) : Makes r q mod 1 := by
  intro i hi
  obtain rfl : i = 0 := by omega
  exact more

/-! ### One round -/

theorem signRounds_next : (signRounds w q beta).next mod = wrap w (2 * mod * beta) / q := by
  simp only [signRounds, NativeInteger.mul, wrap, Nat.shiftLeft_eq, pow_one, Nat.mod_mul_mod, mul_comm mod 2]

theorem decompRounds_next : (decompRounds w q beta).next mod = wrap w (mod / q * 2 * beta) := by
  simp only [decompRounds, NativeInteger.mul, wrap, Nat.mod_mul_mod]

theorem signRounds_next_eq (fits : 2 * mod * beta < 2 ^ w.bits) : (signRounds w q beta).next mod = exactNext q beta mod := by
  rw [signRounds_next, wrap, Nat.mod_eq_of_lt fits, exactNext]

theorem exactNext_lt (small : 2 * beta < q) (pos : 0 < mod) : exactNext q beta mod < mod := by
  rw [exactNext, Nat.div_lt_iff_lt_mul (by omega), mul_right_comm]
  calc 2 * beta * mod < q * mod := Nat.mul_lt_mul_of_pos_right small pos
    _ = mod * q := mul_comm _ _

theorem exactNext_pos (pos : 0 < beta) (hq : 0 < q) (more : q < mod) : 0 < exactNext q beta mod := by
  apply Nat.div_pos _ hq
  calc q ≤ mod * 1 := by omega
    _ ≤ mod * (2 * beta) := Nat.mul_le_mul_left _ (by omega)
    _ = 2 * mod * beta := by ring

theorem decompRounds_next_eq (hq : 0 < q) (divides : q ∣ mod) (fits : 2 * mod * beta < 2 ^ w.bits) :
    (decompRounds w q beta).next mod = exactNext q beta mod := by
  obtain ⟨c, rfl⟩ := divides
  have exact : exactNext q beta (q * c) = c * 2 * beta := by
    rw [exactNext, show 2 * (q * c) * beta = q * (c * 2 * beta) by ring, Nat.mul_div_cancel_left _ hq]
  have below : c * 2 * beta ≤ 2 * (q * c) * beta := by
    rw [show 2 * (q * c) * beta = q * (c * 2 * beta) by ring]
    exact Nat.le_mul_of_pos_left _ hq
  rw [decompRounds_next, Nat.mul_div_cancel_left _ hq, wrap, Nat.mod_eq_of_lt (by omega), exact]

/-! ### All rounds -/

/-- No product of a smaller modulus wraps, and the moduli stay below the first one. -/
theorem schedule_run (small : 2 * beta < q) (pos : 0 < beta) (fits : 2 * mod * beta < 2 ^ w.bits) (start : 0 < mod)
    (made : Makes (signRounds w q beta) q mod k) :
    modulusAfter (signRounds w q beta) mod k = (exactNext q beta)^[k] mod ∧
      0 < modulusAfter (signRounds w q beta) mod k ∧ modulusAfter (signRounds w q beta) mod k ≤ mod := by
  induction k with
  | zero => exact ⟨rfl, start, le_rfl⟩
  | succ k ih =>
    obtain ⟨same, positive, below⟩ := ih made.before
    have fitsHere : 2 * modulusAfter (signRounds w q beta) mod k * beta < 2 ^ w.bits :=
      lt_of_le_of_lt (Nat.mul_le_mul_right _ (Nat.mul_le_mul_left _ below)) fits
    rw [modulusAfter_succ, signRounds_next_eq fitsHere]
    refine ⟨?_, exactNext_pos pos (by omega) made.last, (exactNext_lt small positive).le.trans below⟩
    rw [same, Function.iterate_succ_apply']

theorem exactSchedule_of_fits (small : 2 * beta < q) (pos : 0 < beta) (fits : 2 * mod * beta < 2 ^ w.bits) (start : 0 < mod) :
    ExactSchedule w q beta mod := by
  have fitsAfter : ∀ k, Makes (signRounds w q beta) q mod k →
      2 * modulusAfter (signRounds w q beta) mod k * beta < 2 ^ w.bits := fun k made =>
    lt_of_le_of_lt (Nat.mul_le_mul_right _ (Nat.mul_le_mul_left _ (schedule_run small pos fits start made).2.2)) fits
  constructor
  · exact fun k made => (schedule_run small pos fits start made).1
  · intro k made
    rw [modulusAfter_succ, signRounds_next_eq (fitsAfter k made.before)]
    exact exactNext_lt small (schedule_run small pos fits start made.before).2.1
  · exact fun k made => (schedule_run small pos fits start made).2.1
  · intro k made divides
    induction k with
    | zero => rfl
    | succ k ih =>
      have fitsHere := fitsAfter k made.before
      rw [modulusAfter_succ, modulusAfter_succ, ih made.before fun i hi => divides i (by omega),
        decompRounds_next_eq (by omega) (divides k (by omega)) fitsHere, signRounds_next_eq fitsHere]

/-- The words hold the exact moduli of all rounds, when the product of the first round fits. -/
theorem exactSchedule_iff {Q : ℕ} (small : 2 * beta < q) (more : q < mod) (le : mod ≤ Q) (fitsQ : ¬ modulusTooLarge w Q) :
    ExactSchedule w q beta mod ↔ 0 < beta ∧ 2 * mod * beta < 2 ^ w.bits := by
  constructor
  · intro schedule
    have first := makes_one (r := signRounds w q beta) more
    have exact : wrap w (2 * mod * beta) / q = 2 * mod * beta / q := by
      have := schedule.exact 1 first
      rwa [modulusAfter_succ, modulusAfter_zero, signRounds_next] at this
    have positive : 0 < wrap w (2 * mod * beta) / q := by
      have := schedule.positive 1 first
      rwa [modulusAfter_succ, modulusAfter_zero, signRounds_next] at this
    refine ⟨?_, ?_⟩
    · rw [exact] at positive
      by_contra zero
      obtain rfl : beta = 0 := by omega
      simp at positive
    · -- a product that wraps loses more than `q`
      by_contra wraps
      have word := lt_of_not_tooLarge fitsQ
      have split := Nat.div_add_mod (2 * mod * beta) (2 ^ w.bits)
      have lost : 2 ^ w.bits ≤ 2 ^ w.bits * (2 * mod * beta / 2 ^ w.bits) :=
        Nat.le_mul_of_pos_right _ (Nat.div_pos (by omega) (by positivity))
      have apart : wrap w (2 * mod * beta) / q < 2 * mod * beta / q := by
        calc wrap w (2 * mod * beta) / q < (wrap w (2 * mod * beta) + q) / q := by
              rw [Nat.add_div_right _ (by omega)]
              exact Nat.lt_succ_self _
          _ ≤ 2 * mod * beta / q := Nat.div_le_div_right (by rw [wrap]; omega)
      omega
  · rintro ⟨pos, fits⟩
    exact exactSchedule_of_fits small pos fits (by omega)

/-- A ring of `512` coefficients with `32`-bit words. -/
theorem exactSchedule_small : ExactSchedule .w32 1024 128 (2 ^ 20) :=
  (exactSchedule_iff (Q := 2 ^ 27) (by decide) (by decide) (by decide) (by decide)).mpr (by decide)

/-- The product of the first round is `2 ^ 35`, and the next modulus is zero. -/
theorem schedule_wraps : ¬ ExactSchedule .w32 1024 128 (2 ^ 27) := by
  intro schedule
  exact absurd (schedule.positive 1 (makes_one (by decide))) (by decide)

end LWEGate
end MultiKeyFHE
