import MultiKeyFHE.BigInt.Values

/-!
# Sums, products and shifts of big integers

The loops over the limbs, each with what it makes of the numbers, and the operations on stored numbers.
-/

namespace MultiKeyFHE.Ubint
open InPlace Radix

variable {l : LimbT} {m n : ℕ}

/-! ### Sums -/

theorem limb_lt (x : ℕ) : limb l x < 2 ^ l.limbBitLength := Nat.mod_lt _ (by positivity)

theorem limb_of_lt {x : ℕ} (below : x < 2 ^ l.limbBitLength) : limb l x = x := Nat.mod_eq_of_lt below

theorem limb_add_carry (x : ℕ) : limb l x + 2 ^ l.limbBitLength * (x >>> l.limbBitLength) = x := by
  rw [limb, Nat.shiftRight_eq_div_pow]
  exact Nat.mod_add_div x _

theorem addLimbs_spec (as bs : List ℕ) (c : ℕ) (short : bs.length ≤ as.length) (hc : c ≤ 1)
    (ha : ∀ x ∈ as, x < 2 ^ l.limbBitLength) (hb : ∀ x ∈ bs, x < 2 ^ l.limbBitLength) :
    addLimbs l as bs c ≠ [] ∧ (∀ x ∈ addLimbs l as bs c, x < 2 ^ l.limbBitLength) ∧
      Nat.ofDigits (2 ^ l.limbBitLength) (addLimbs l as bs c) =
        Nat.ofDigits (2 ^ l.limbBitLength) as + Nat.ofDigits (2 ^ l.limbBitLength) bs + c := by
  have radix := one_lt_radix l
  induction as generalizing bs c with
  | nil =>
    obtain rfl : bs = [] := List.length_eq_zero_iff.mp (Nat.le_zero.mp short)
    refine ⟨by simp [addLimbs], by simpa [addLimbs] using limb_lt c, ?_⟩
    rw [addLimbs, Nat.ofDigits_singleton, limb_of_lt (by omega)]
    simp
  | cons av as ih =>
    have below := ha av (by simp)
    have head : bs.headD 0 < 2 ^ l.limbBitLength := by
      cases bs with
      | nil => exact (zero_lt_one.trans radix)
      | cons b bs => exact hb b (by simp)
    have split : Nat.ofDigits (2 ^ l.limbBitLength) bs = bs.headD 0 + 2 ^ l.limbBitLength * Nat.ofDigits (2 ^ l.limbBitLength) bs.tail := by
      cases bs with
      | nil => simp
      | cons b bs => exact Nat.ofDigits_cons
    have carry : (c + (av + bs.headD 0)) >>> l.limbBitLength ≤ 1 := by
      rw [Nat.shiftRight_eq_div_pow]
      exact Nat.lt_succ_iff.mp (Nat.div_lt_of_lt_mul (by omega))
    obtain ⟨-, lt, value⟩ := ih bs.tail _ (by rw [List.length_tail]; simp at short; omega) carry
      (fun x hx => ha x (List.mem_cons_of_mem _ hx)) (fun x hx => hb x (List.mem_of_mem_tail hx))
    refine ⟨by simp [addLimbs], ?_, ?_⟩
    · intro x hx
      rw [addLimbs] at hx
      rcases List.mem_cons.mp hx with rfl | hx
      · exact limb_lt _
      · exact lt x hx
    · have sum := limb_add_carry (l := l) (c + (av + bs.headD 0))
      rw [addLimbs, Nat.ofDigits_cons, Nat.ofDigits_cons, value, split, mul_add, mul_add]
      omega

theorem addLimbs_stored (le : (stored l n).value.length ≤ (stored l m).value.length) :
    normalizeLimbs l (addLimbs l (stored l m).value (stored l n).value 0) = stored l (m + n) := by
  obtain ⟨nonempty, lt, value⟩ := addLimbs_spec (l := l) _ _ 0 le (by norm_num) stored_lt stored_lt
  rw [normalizeLimbs_eq nonempty lt, value, ofDigits_stored, ofDigits_stored, add_zero]

theorem add_stored (fitsM : m.size < 2 ^ 32) (fitsN : n.size < 2 ^ 32) : add l (stored l m) (stored l n) = stored l (m + n) := by
  rw [add, bySize]
  by_cases less : (stored l m).value.length < (stored l n).value.length
  · simp only [if_pos less, stored_msb fitsM]
    split
    · rename_i zero
      rw [Nat.size_eq_zero.mp zero, zero_add]
    · rw [addLimbs_stored less.le, add_comm]
  · simp only [if_neg less, stored_msb fitsN]
    split
    · rename_i zero
      rw [Nat.size_eq_zero.mp zero, add_zero]
    · exact addLimbs_stored (not_lt.mp less)

/-! ### Differences -/

theorem borrow_ok : ∀ rs : List ℕ, (∀ x ∈ rs, x < 2 ^ l.limbBitLength) → 0 < Nat.ofDigits (2 ^ l.limbBitLength) rs →
    ∃ out, borrow l rs = .ok out ∧ out.length = rs.length ∧ (∀ x ∈ out, x < 2 ^ l.limbBitLength) ∧
      Nat.ofDigits (2 ^ l.limbBitLength) out + 1 = Nat.ofDigits (2 ^ l.limbBitLength) rs
  | [], _, positive => absurd positive (lt_irrefl 0)
  | r :: rs, lt, positive => by
    have radix := one_lt_radix l
    rw [Nat.ofDigits_cons] at positive
    rw [borrow, Nat.ofDigits_cons]
    by_cases zero : r = 0
    · rw [zero, zero_add] at positive ⊢
      obtain ⟨out, run, length, lt', value⟩ := borrow_ok rs (fun x hx => lt x (List.mem_cons_of_mem _ hx))
        (Nat.pos_of_mul_pos_left positive)
      refine ⟨maxLimb l :: out, by rw [if_pos rfl, run]; rfl, by simp [length], ?_, ?_⟩
      · intro x hx
        rcases List.mem_cons.mp hx with rfl | hx
        · exact Nat.sub_lt (by omega) one_pos
        · exact lt' x hx
      · rw [Nat.ofDigits_cons, ← value, mul_add, maxLimb]
        omega
    · refine ⟨(r - 1) :: rs, by rw [if_neg zero], rfl, ?_, ?_⟩
      · intro x hx
        rcases List.mem_cons.mp hx with rfl | hx
        · have := lt r (by simp)
          omega
        · exact lt x (List.mem_cons_of_mem _ hx)
      · rw [Nat.ofDigits_cons]
        omega

theorem subLimbs_ok (rs bs : List ℕ) (short : bs.length ≤ rs.length) (hr : ∀ x ∈ rs, x < 2 ^ l.limbBitLength)
    (hb : ∀ x ∈ bs, x < 2 ^ l.limbBitLength)
    (le : Nat.ofDigits (2 ^ l.limbBitLength) bs ≤ Nat.ofDigits (2 ^ l.limbBitLength) rs) :
    ∃ out, subLimbs l rs bs = .ok out ∧ out.length = rs.length ∧ (∀ x ∈ out, x < 2 ^ l.limbBitLength) ∧
      Nat.ofDigits (2 ^ l.limbBitLength) out + Nat.ofDigits (2 ^ l.limbBitLength) bs = Nat.ofDigits (2 ^ l.limbBitLength) rs := by
  have radix := one_lt_radix l
  induction bs generalizing rs with
  | nil => exact ⟨rs, by cases rs <;> rfl, rfl, hr, by simp⟩
  | cons b bs ih =>
    cases rs with
    | nil => simp at short
    | cons r rs =>
      have belowR := hr r (by simp)
      have belowB := hb b (by simp)
      have hr' : ∀ x ∈ rs, x < 2 ^ l.limbBitLength := fun x hx => hr x (List.mem_cons_of_mem _ hx)
      have hb' : ∀ x ∈ bs, x < 2 ^ l.limbBitLength := fun x hx => hb x (List.mem_cons_of_mem _ hx)
      have short' : bs.length ≤ rs.length := by simpa using short
      rw [Nat.ofDigits_cons, Nat.ofDigits_cons] at le
      rw [subLimbs, Nat.ofDigits_cons, Nat.ofDigits_cons]
      by_cases less : r < b
      · -- The limbs above are larger than those of `b`, so there is something to borrow.
        have above : Nat.ofDigits (2 ^ l.limbBitLength) bs < Nat.ofDigits (2 ^ l.limbBitLength) rs := by
          by_contra ge
          have := Nat.mul_le_mul_left (2 ^ l.limbBitLength) (not_lt.mp ge)
          omega
        obtain ⟨rs', run, length, lt, value⟩ := borrow_ok rs hr' (by omega)
        obtain ⟨out, run', length', lt', value'⟩ := ih rs' (by omega) lt hb' (by omega)
        have low : limb l (r + ((maxLimb l - b) + 1)) = r + 2 ^ l.limbBitLength - b := by
          rw [maxLimb, limb_of_lt (by omega)]
          omega
        refine ⟨(r + 2 ^ l.limbBitLength - b) :: out, ?_, by simp [length', length], ?_, ?_⟩
        · rw [if_pos less, run]
          dsimp only [bind, Except.bind]
          rw [run', low]
          rfl
        · intro x hx
          rcases List.mem_cons.mp hx with rfl | hx
          · omega
          · exact lt' x hx
        · rw [Nat.ofDigits_cons, ← value, ← value', mul_add, mul_add]
          omega
      · have above : Nat.ofDigits (2 ^ l.limbBitLength) bs ≤ Nat.ofDigits (2 ^ l.limbBitLength) rs := by
          by_contra ge
          have := Nat.mul_le_mul_left (2 ^ l.limbBitLength) (Nat.succ_le_of_lt (not_le.mp ge))
          rw [Nat.succ_eq_add_one, mul_add] at this
          omega
        obtain ⟨out, run, length, lt, value⟩ := ih rs short' hr' hb' above
        refine ⟨(r - b) :: out, by rw [if_neg less, run]; rfl, by simp [length], ?_, ?_⟩
        · intro x hx
          rcases List.mem_cons.mp hx with rfl | hx
          · omega
          · exact lt x hx
        · rw [Nat.ofDigits_cons, ← value, mul_add]
          omega

theorem subLimbs_stored (le : n ≤ m) :
    ∃ out, subLimbs l (stored l m).value (stored l n).value = .ok out ∧ normalizeLimbs l out = stored l (m - n) := by
  have same : Nat.ofDigits (2 ^ l.limbBitLength) (stored l n).value ≤ Nat.ofDigits (2 ^ l.limbBitLength) (stored l m).value := by
    rwa [ofDigits_stored, ofDigits_stored]
  obtain ⟨out, run, length, lt, value⟩ := subLimbs_ok (l := l) _ _ (stored_length_mono le) stored_lt stored_lt same
  have nonempty : out ≠ [] := by
    rw [← List.length_pos_iff, length]
    exact stored_length_pos
  refine ⟨out, run, ?_⟩
  rw [ofDigits_stored, ofDigits_stored] at value
  rw [normalizeLimbs_eq nonempty lt, ← value, Nat.add_sub_cancel]

theorem order_le_zero : order m n ≤ 0 ↔ m ≤ n := by
  unfold order
  split
  · simp; omega
  · split <;> simp <;> omega

theorem sub_stored (fitsM : m.size < 2 ^ 32) (fitsN : n.size < 2 ^ 32) :
    sub l (stored l m) (stored l n) = .ok (stored l (m - n)) := by
  rw [sub, compare_stored fitsM fitsN]
  dsimp only [bind, Except.bind]
  split
  · rename_i le
    rw [Nat.sub_eq_zero_of_le (order_le_zero.mp le)]
    rfl
  · rename_i more
    rw [order_le_zero] at more
    obtain ⟨out, run, value⟩ := subLimbs_stored (l := l) (not_le.mp more).le
    rw [run, ← value]
    rfl

theorem subEq_stored (fitsM : m.size < 2 ^ 32) (fitsN : n.size < 2 ^ 32) :
    subEq l (stored l m) (stored l n) = .ok (stored l (m - n)) := by
  rw [← sub_stored fitsM fitsN, subEq, sub, compare_stored fitsM fitsN]
  dsimp only [bind, Except.bind]
  have zeroed : ((stored l m).value.set 0 0).take 1 = [0] := by
    obtain ⟨x, rest, shape⟩ := List.exists_cons_of_ne_nil (stored_nonempty (l := l) (n := m))
    rw [shape]
    rfl
  rw [zeroed]
  rfl

end MultiKeyFHE.Ubint
