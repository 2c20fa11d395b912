import MultiKeyFHE.BigInt.Modular

/-!
# Modular powers of big integers

`ModExp` squares and multiplies, with the exponent shifted down in place. The products are formed before they are reduced,
so each of them has to fit the position of the most significant bit.
-/

namespace MultiKeyFHE.Ubint
open InPlace Radix

variable (l : LimbT)

theorem rShiftEq_smaller {l : LimbT} {p p' : Ubint} (run : rShiftEq l p 1 = .ok p') (more : p'.MSB ≠ 0) : p'.MSB < p.MSB := by
  unfold rShiftEq at run
  split at run
  · cases run
    exact absurd rfl more
  · rename_i large
    obtain ⟨value, -, run⟩ := Run.bind_ok run
    cases run
    exact Nat.sub_lt (by omega) one_pos

/-- The `while` loop, whose condition shifts the exponent. -/
def modExpLoop (modulus p t r : Ubint) : Except Fault Ubint :=
  match _ : rShiftEq l p 1 with
  | .error fault => .error fault
  | .ok p' =>
    if _ : p'.MSB ≠ 0 then do
      let t ← modMulFast l t t modulus
      let bit ← load .outOfRange p'.value 0
      let r ← if bit &&& 0x1 ≠ 0 then modMulFast l r t modulus else pure r
      modExpLoop modulus p' t r
    else .ok r
  termination_by p.MSB
  decreasing_by exact rShiftEq_smaller ‹_› ‹_›

def modExp (a b modulus : Ubint) : Except Fault Ubint := do
  let t ← mod l a modulus
  let bit ← load .outOfRange b.value 0
  let r ← if bit &&& 0x1 ≠ 0 then modMulFast l (ofWord 1) t modulus else pure (ofWord 1)
  modExpLoop l modulus b t r

variable {l} {v e m i : ℕ}

/-- The products of the loop fit, next to the squares of the base the ones for the bits of the exponent. -/
def PowersFit (v e m : ℕ) : Prop :=
  ∀ i, 2 ^ (i + 1) ≤ e → (v ^ 2 ^ i % m * (v ^ 2 ^ i % m)).size < 2 ^ 32 ∧
    (e / 2 ^ (i + 1) % 2 = 1 → (v ^ (e % 2 ^ (i + 1)) % m * (v ^ 2 ^ (i + 1) % m)).size < 2 ^ 32)

theorem powersFit_of_square (pos : 0 < m) (square : (m * m).size < 2 ^ 32) : PowersFit v e m := by
  have fits : ∀ x y, (x % m * (y % m)).size < 2 ^ 32 := by
    intro x y
    refine fits_of_le ?_ square
    exact Nat.mul_le_mul (Nat.mod_lt x pos).le (Nat.mod_lt y pos).le
  exact fun i _ => ⟨fits _ _, fun _ => fits _ _⟩

theorem square_step (v m i : ℕ) : v ^ 2 ^ i % m * (v ^ 2 ^ i % m) % m = v ^ 2 ^ (i + 1) % m := by
  rw [← Nat.mul_mod, ← pow_add, pow_succ, mul_two]

theorem exponent_step (e i : ℕ) : e % 2 ^ (i + 2) = e % 2 ^ (i + 1) + 2 ^ (i + 1) * (e / 2 ^ (i + 1) % 2) := by
  rw [pow_succ 2 (i + 1), Nat.mod_mul]

theorem multiply_step (bit : e / 2 ^ (i + 1) % 2 = 1) :
    v ^ (e % 2 ^ (i + 1)) % m * (v ^ 2 ^ (i + 1) % m) % m = v ^ (e % 2 ^ (i + 2)) % m := by
  rw [← Nat.mul_mod, ← pow_add, exponent_step, bit, mul_one]

theorem keep_step (bit : ¬ e / 2 ^ (i + 1) % 2 = 1) : e % 2 ^ (i + 1) = e % 2 ^ (i + 2) := by
  rw [exponent_step, show e / 2 ^ (i + 1) % 2 = 0 by omega, mul_zero, add_zero]

section Fits
variable (fitsM : m.size < 2 ^ 32) (positive : 0 < m) (fitsE : e.size < 2 ^ 32) (products : PowersFit v e m)
include fitsM positive fitsE products

/-- The loop at place `i` of the exponent, with the power of the base for this place and that of the bits up to it. -/
theorem modExpLoop_stored (i : ℕ) :
    modExpLoop l (stored l m) (stored l (e / 2 ^ i)) (stored l (v ^ 2 ^ i % m)) (stored l (v ^ (e % 2 ^ (i + 1)) % m)) =
      .ok (stored l (v ^ e % m)) := by
  induction left : e / 2 ^ i using Nat.strong_induction_on generalizing i with
  | _ p ih =>
    subst left
    have fitsP : ∀ j, (e / 2 ^ j).size < 2 ^ 32 := fun j => fits_of_le (Nat.div_le_self _ _) fitsE
    have fitsV : ∀ x, (x % m).size < 2 ^ 32 := fun x => mod_size fitsM positive.ne' x
    have halved : (e / 2 ^ i) >>> 1 = e / 2 ^ (i + 1) := by
      rw [Nat.shiftRight_eq_div_pow, pow_one, Nat.div_div_eq_div_mul, pow_succ]
    have shifted := rShiftEq_stored (l := l) (fitsP i) 1
    rw [halved] at shifted
    rw [modExpLoop]
    split
    · rename_i fault run
      rw [shifted] at run
      cases run
    · rename_i p' run
      rw [shifted] at run
      cases run
      rw [stored_msb (fitsP (i + 1))]
      by_cases rest : e / 2 ^ (i + 1) = 0
      · rw [rest, Nat.size_zero, dif_neg (by simp)]
        have below : e < 2 ^ (i + 1) := by
          rw [Nat.div_eq_zero_iff] at rest
          exact rest.resolve_left (by positivity)
        rw [Nat.mod_eq_of_lt below]
      · have le : 2 ^ (i + 1) ≤ e := by
          by_contra below
          exact rest (Nat.div_eq_of_lt (not_le.mp below))
        obtain ⟨square, product⟩ := products i le
        have smaller : e / 2 ^ (i + 1) < e / 2 ^ i := by
          rw [pow_succ, ← Nat.div_div_eq_div_mul] at rest ⊢
          exact Nat.div_lt_self (Nat.pos_of_ne_zero fun zero => rest (by rw [zero])) one_lt_two
        have next := ih _ smaller (i + 1) rfl
        rw [dif_pos (fun zero => rest (Nat.size_eq_zero.mp zero)),
          modMulFast_stored fitsM (fitsV _) (fitsV _) (Nat.mod_lt _ positive) (Nat.mod_lt _ positive) square, square_step,
          stored_first]
        dsimp only [bind, Except.bind]
        rw [mod_two]
        by_cases bit : e / 2 ^ (i + 1) % 2 = 1
        · rw [if_pos (by omega), modMulFast_stored fitsM (fitsV _) (fitsV _) (Nat.mod_lt _ positive) (Nat.mod_lt _ positive)
            (product bit), multiply_step bit]
          exact next
        · rw [if_neg (by omega), keep_step bit]
          exact next

theorem modExp_stored (more : 1 < m) (fitsV : v.size < 2 ^ 32) :
    modExp l (stored l v) (stored l e) (stored l m) = .ok (stored l (v ^ e % m)) := by
  have loop := modExpLoop_stored fitsM positive fitsE products (l := l) 0
  rw [pow_zero, Nat.div_one, pow_one, zero_add, pow_one] at loop
  have one : ofWord 1 = stored l 1 := stored_ofWord (one_lt_radix l)
  rw [modExp, mod_stored fitsM positive.ne' fitsV, stored_first]
  dsimp only [bind, Except.bind]
  rw [mod_two]
  by_cases odd : e % 2 = 1
  · have kept : (1 * (v % m)).size < 2 ^ 32 := by
      rw [one_mul]
      exact mod_size fitsM positive.ne' v
    rw [if_pos (by omega), one, modMulFast_stored fitsM (by decide) (mod_size fitsM positive.ne' v) more
      (Nat.mod_lt _ positive) kept, one_mul, Nat.mod_mod]
    rwa [odd, pow_one] at loop
  · rw [if_neg (by omega), one]
    rwa [show e % 2 = 0 by omega, pow_zero, Nat.mod_eq_of_lt more] at loop

end Fits
end MultiKeyFHE.Ubint
