import MultiKeyFHE.BigInt.Division

/-!
# Modular operations on big integers

Each operation reduces its operands and works on numbers below the modulus. What may not fit the position of the most
significant bit is the sum or the product before it is reduced again.
-/

namespace MultiKeyFHE.Ubint
open InPlace Radix

variable {l : LimbT} {m n k : ℕ}

theorem order_neg : order m n < 0 ↔ m < n := by
  unfold order
  split
  · simpa
  · split <;> simp <;> omega

theorem order_nonneg : order m n ≥ 0 ↔ n ≤ m := by
  rw [ge_iff_le, ← not_lt, order_neg, not_lt]

theorem stored_first (n : ℕ) : load Fault.outOfRange (stored l n).value 0 = .ok (n % 2 ^ l.limbBitLength) := by
  have value := ofDigits_stored l n
  obtain ⟨x, rest, shape⟩ := List.exists_cons_of_ne_nil (stored_nonempty (l := l) (n := n))
  have below := stored_lt (l := l) (n := n) x (by simp [shape])
  rw [shape, Nat.ofDigits_cons] at value
  rw [shape, ← value, Nat.add_mul_mod_self_left, Nat.mod_eq_of_lt below]
  rfl

theorem isTwo_stored (fits : k.size < 2 ^ 32) : isTwo (stored l k) = .ok (decide (k = 2)) := by
  rw [isTwo, stored_msb fits]
  by_cases two : k.size = 2
  · have below : k < 2 ^ 2 := two ▸ Nat.lt_size_self k
    have radix : 2 ^ 2 ≤ 2 ^ l.limbBitLength := Nat.pow_le_pow_right two_pos (by cases l <;> decide)
    rw [if_pos two, stored_first, Nat.mod_eq_of_lt (below.trans_le radix)]
    rfl
  · rw [if_neg two]
    have other : k ≠ 2 := by
      rintro rfl
      exact two rfl
    rw [decide_eq_false other]

theorem mod_two (n : ℕ) : n % 2 ^ l.limbBitLength &&& 0x1 = n % 2 := by
  rw [Nat.and_one_is_mod]
  exact Nat.mod_mod_of_dvd n (dvd_pow_self 2 (by have := bits_pos l; omega))

section
variable (fits : k.size < 2 ^ 32) (positive : k ≠ 0)
include fits positive

theorem mod_stored (fitsN : n.size < 2 ^ 32) : mod l (stored l n) (stored l k) = .ok (stored l (n % k)) := by
  rw [mod, stored_msb fits, if_neg (fun zero => positive (Nat.size_eq_zero.mp zero)), compare_stored fitsN fits]
  dsimp only [bind, Except.bind, pure, Except.pure]
  split
  · rename_i less
    rw [order_neg] at less
    rw [Nat.mod_eq_of_lt less]
  · rename_i more
    rw [order_neg, not_lt] at more
    rw [isTwo_stored fits]
    by_cases two : k = 2
    · subst two
      have radix : n % 2 < 2 ^ l.limbBitLength := (Nat.mod_lt n two_pos).trans_le (Nat.le_self_pow (by have := bits_pos l; omega) 2)
      simp only [decide_true, if_true]
      rw [stored_first]
      dsimp only
      rw [mod_two, stored_ofWord radix]
    · simp only [two, decide_false, Bool.false_eq_true, if_false]
      exact divrVect_stored positive (stored_length_mono more)

theorem modEq_stored (fitsN : n.size < 2 ^ 32) : modEq l (stored l n) (stored l k) = .ok (stored l (n % k)) := by
  rw [← mod_stored fits positive fitsN, modEq, mod, stored_msb fits]
  have bit : ∀ v : ℕ, v < 2 → (⟨v, [v]⟩ : Ubint) = ofWord v := by
    intro v hv
    interval_cases v <;> rfl
  rw [stored_first]
  dsimp only [bind, Except.bind]
  rw [mod_two, bit _ (Nat.mod_lt n two_pos)]

theorem reduce_stored (fitsN : n.size < 2 ^ 32) : reduce l (stored l n) (stored l k) = .ok (stored l (n % k)) := by
  rw [reduce, compare_stored fitsN fits]
  dsimp only [bind, Except.bind]
  split
  · exact modEq_stored fits positive fitsN
  · rename_i less
    rw [order_nonneg, not_le] at less
    rw [Nat.mod_eq_of_lt less]
    rfl

theorem mod_size (n : ℕ) : (n % k).size < 2 ^ 32 :=
  fits_of_le (Nat.mod_lt n (Nat.pos_of_ne_zero positive)).le fits

section Operands
variable (fitsM : m.size < 2 ^ 32) (fitsN : n.size < 2 ^ 32)
include fitsM fitsN

theorem modAdd_stored (sum : (m % k + n % k).size < 2 ^ 32) :
    modAdd l (stored l m) (stored l n) (stored l k) = .ok (stored l ((m + n) % k)) := by
  have hm := Nat.mod_lt m (Nat.pos_of_ne_zero positive)
  have hn := Nat.mod_lt n (Nat.pos_of_ne_zero positive)
  rw [modAdd, reduce_stored fits positive fitsN, reduce_stored fits positive fitsM]
  dsimp only [bind, Except.bind]
  rw [add_stored (mod_size fits positive m) (mod_size fits positive n), compare_stored sum fits]
  dsimp only
  rw [Nat.add_mod]
  split
  · rename_i more
    rw [order_nonneg] at more
    rw [sub_stored sum fits, Nat.mod_eq_sub_mod more, Nat.mod_eq_of_lt (show m % k + n % k - k < k by omega)]
  · rename_i less
    rw [order_nonneg, not_le] at less
    rw [Nat.mod_eq_of_lt less]
    rfl

theorem modSub_stored (sum : m % k < n % k → (k + m % k).size < 2 ^ 32) :
    modSub l (stored l m) (stored l n) (stored l k) = .ok (stored l (((m : ℤ) - n) % k).toNat) := by
  have hm := Nat.mod_lt m (Nat.pos_of_ne_zero positive)
  have hn := Nat.mod_lt n (Nat.pos_of_ne_zero positive)
  have fitsM' := mod_size fits positive m
  have fitsN' := mod_size fits positive n
  have residue : ((m : ℤ) - n) % k = ((m % k : ℕ) - (n % k : ℕ) : ℤ) % k := by
    push_cast
    exact Int.sub_emod ..
  rw [modSub, reduce_stored fits positive fitsN, reduce_stored fits positive fitsM]
  dsimp only [bind, Except.bind]
  rw [compare_stored fitsM' fitsN', residue]
  dsimp only
  by_cases less : m % k < n % k
  · rw [if_pos (order_neg.mpr less), add_stored fits fitsM', sub_stored (sum less) fitsN']
    have wrapped : ((m % k : ℕ) - (n % k : ℕ) : ℤ) % k = ((k + m % k - n % k : ℕ) : ℤ) := by
      rw [← Int.add_emod_right, Nat.cast_sub (by omega), Nat.cast_add, Int.emod_eq_of_lt (by omega) (by omega)]
      omega
    rw [wrapped, Int.toNat_natCast]
  · rw [if_neg (fun h => less (order_neg.mp h)), sub_stored fitsM' fitsN']
    have direct : ((m % k : ℕ) - (n % k : ℕ) : ℤ) % k = ((m % k - n % k : ℕ) : ℤ) := by
      rw [Nat.cast_sub (by omega), Int.emod_eq_of_lt (by omega) (by omega)]
    rw [direct, Int.toNat_natCast]

omit positive in
theorem modMulFast_stored (hm : m < k) (hn : n < k) (product : (m * n).size < 2 ^ 32) :
    modMulFast l (stored l m) (stored l n) (stored l k) = .ok (stored l (m * n % k)) := by
  have positive : k ≠ 0 := by omega
  have rows := mul_stored (l := l) fitsM fitsN product
  rw [modMulFast, stored_msb fitsM, stored_msb fitsN]
  rw [mul, stored_msb fitsM, stored_msb fitsN] at rows
  split
  · rename_i zero
    have none : m * n = 0 := by
      rcases zero with zero | zero
      · rw [Nat.size_eq_zero.mp zero, zero_mul]
      · rw [Nat.size_eq_zero.mp zero, mul_zero]
    rw [none, Nat.zero_mod]
    rfl
  · rename_i some
    rw [if_neg some] at rows
    split
    · rename_i one
      rw [size_eq_one one, mul_one, Nat.mod_eq_of_lt hm]
    · rename_i many
      rw [if_neg many] at rows
      split
      · rename_i one
        rw [size_eq_one one, one_mul, Nat.mod_eq_of_lt hn]
      · rename_i many'
        rw [if_neg many'] at rows
        dsimp only at rows ⊢
        rw [rows, compare_stored product fits]
        dsimp only [bind, Except.bind]
        split
        · exact mod_stored fits positive product
        · rename_i less
          rw [order_nonneg, not_le] at less
          rw [Nat.mod_eq_of_lt less]
          rfl

theorem modMul_stored (product : (m % k * (n % k)).size < 2 ^ 32) :
    modMul l (stored l m) (stored l n) (stored l k) = .ok (stored l (m * n % k)) := by
  rw [modMul, reduce_stored fits positive fitsN, reduce_stored fits positive fitsM]
  dsimp only [bind, Except.bind]
  rw [modMulFast_stored fits (mod_size fits positive m) (mod_size fits positive n)
    (Nat.mod_lt m (Nat.pos_of_ne_zero positive)) (Nat.mod_lt n (Nat.pos_of_ne_zero positive)) product, ← Nat.mul_mod]

end Operands
end

end MultiKeyFHE.Ubint
