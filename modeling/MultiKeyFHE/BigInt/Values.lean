import MultiKeyFHE.BigInt.Ubint
import MultiKeyFHE.Library.Radix

/-!
# Big integers as numbers

The number of a big integer is that of its limbs. A normalised one is what `stored` makes of its number, and each
operation on stored numbers is an equation: it returns what is stored for the sum, the difference, the order. The position
of the most significant bit is a word, so a number with `2 ^ 32` bits or more has no normalised big integer.
-/

namespace MultiKeyFHE.Ubint
open InPlace Radix

variable {l : LimbT} {m n : ℕ} {v : List ℕ}

theorem bits_pos (l : LimbT) : 1 ≤ l.limbBitLength := by cases l <;> decide

theorem one_lt_radix (l : LimbT) : 1 < 2 ^ l.limbBitLength := Nat.one_lt_two_pow (by have := bits_pos l; omega)

/-- What the limbs say. -/
def number (l : LimbT) (a : Ubint) : ℕ := Nat.ofDigits (2 ^ l.limbBitLength) a.value

/-- No zero limb on top, and the position of the most significant bit, which is a word of 32 bits. -/
structure Normalised (l : LimbT) (a : Ubint) : Prop where
  canonical : Canonical (2 ^ l.limbBitLength) a.value
  msb : a.MSB = (number l a).size
  word : a.MSB < 2 ^ 32

def stored (l : LimbT) (n : ℕ) : Ubint := ⟨usint n.size, digits (2 ^ l.limbBitLength) n⟩

theorem ofDigits_stored (l : LimbT) (n : ℕ) : Nat.ofDigits (2 ^ l.limbBitLength) (stored l n).value = n := ofDigits_digits _ n

theorem number_stored (l : LimbT) (n : ℕ) : number l (stored l n) = n := ofDigits_stored l n

theorem stored_msb (fits : n.size < 2 ^ 32) : (stored l n).MSB = n.size := Nat.mod_eq_of_lt fits

theorem stored_normalised (fits : n.size < 2 ^ 32) : Normalised l (stored l n) :=
  ⟨canonical_digits (one_lt_radix l) n, by rw [number_stored, stored_msb fits], Nat.mod_lt _ (by norm_num)⟩

theorem Normalised.eq_stored {a : Ubint} (normalised : Normalised l a) : a = stored l (number l a) := by
  have value := normalised.canonical.eq_digits (one_lt_radix l)
  have msb : a.MSB = usint (number l a).size := by rw [← normalised.msb, usint, Nat.mod_eq_of_lt normalised.word]
  cases a
  exact congrArg₂ Ubint.mk msb value

theorem Normalised.fits {a : Ubint} (normalised : Normalised l a) : (number l a).size < 2 ^ 32 :=
  normalised.msb ▸ normalised.word

theorem stored_lt : ∀ x ∈ (stored l n).value, x < 2 ^ l.limbBitLength := (canonical_digits (one_lt_radix l) n).lt

theorem stored_nonempty : (stored l n).value ≠ [] := (canonical_digits (one_lt_radix l) n).nonempty

theorem stored_zero : stored l 0 = zero := rfl

theorem stored_ofWord {x : ℕ} (below : x < 2 ^ l.limbBitLength) : ofWord x = stored l x := by
  have small : x.size ≤ 64 := (Nat.size_le.mpr below).trans (by cases l <;> decide)
  have value : digits (2 ^ l.limbBitLength) x = [x] := by
    have canonical : Canonical (2 ^ l.limbBitLength) [x] := ⟨by simp, by simpa using below, .inr rfl⟩
    have same := canonical.eq_digits (one_lt_radix l)
    rw [Nat.ofDigits_singleton] at same
    exact same.symm
  rw [stored, value, usint, Nat.mod_eq_of_lt (by omega), ofWord]

/-! ### Normalising -/

theorem popZeros_spec : ∀ v : List ℕ, v ≠ [] → popZeros v ≠ [] ∧ (∀ x ∈ popZeros v, x ∈ v) ∧
    Nat.ofDigits (2 ^ l.limbBitLength) (popZeros v).reverse = Nat.ofDigits (2 ^ l.limbBitLength) v.reverse ∧
    ((popZeros v).headD 0 ≠ 0 ∨ (popZeros v).length = 1)
  | [], nonempty => absurd rfl nonempty
  | [x], _ => ⟨by simp [popZeros], fun _ h => h, rfl, .inr rfl⟩
  | top :: next :: rest, _ => by
    rw [popZeros]
    split
    · rename_i zero
      obtain ⟨nonempty, sub, same, head⟩ := popZeros_spec (next :: rest) (by simp)
      refine ⟨nonempty, fun x hx => List.mem_cons_of_mem _ (sub x hx), ?_, head⟩
      rw [same, List.reverse_cons (a := top), zero, Nat.ofDigits_append_zero]
    · rename_i nonzero
      exact ⟨by simp, fun _ h => h, rfl, .inl nonzero⟩

theorem popZeros_canonical (nonempty : v ≠ []) (lt : ∀ x ∈ v, x < 2 ^ l.limbBitLength) :
    Canonical (2 ^ l.limbBitLength) (popZeros v.reverse).reverse ∧
      Nat.ofDigits (2 ^ l.limbBitLength) (popZeros v.reverse).reverse = Nat.ofDigits (2 ^ l.limbBitLength) v := by
  obtain ⟨kept, sub, same, head⟩ := popZeros_spec (l := l) v.reverse (by simpa using nonempty)
  rw [List.reverse_reverse] at same
  refine ⟨⟨by simpa using kept, ?_, ?_⟩, same⟩
  · intro x hx
    exact lt x (List.mem_reverse.mp (sub x (List.mem_reverse.mp hx)))
  · rw [List.length_reverse, List.getLastD_eq_getLast?, List.getLast?_reverse, ← List.headD_eq_head?_getD]
    exact head

theorem usint_mul_add (k x s : ℕ) : usint (k * usint x + s) = usint (k * x + s) := by
  unfold usint
  exact Nat.ModEq.add_right s ((Nat.mod_modEq x _).mul_left k)

theorem normalizeLimbs_eq (nonempty : v ≠ []) (lt : ∀ x ∈ v, x < 2 ^ l.limbBitLength) :
    normalizeLimbs l v = stored l (Nat.ofDigits (2 ^ l.limbBitLength) v) := by
  obtain ⟨canonical, same⟩ := popZeros_canonical nonempty lt
  have value := canonical.eq_digits (one_lt_radix l)
  have size := canonical.size_eq (bits_pos l)
  rw [same] at value size
  refine congrArg₂ Ubint.mk ?_ value
  rw [usint_mul_add, size]

/-! ### Comparison -/

/-- The order as `Compare` returns it. -/
def order (m n : ℕ) : ℤ := if m < n then -1 else if n < m then 1 else 0

theorem order_add (b : ℕ) {low low' x y : ℕ} (hl : low < b) (hl' : low' < b) :
    order (low + b * x) (low' + b * y) = if x < y then -1 else if y < x then 1 else order low low' := by
  have apart : ∀ {u s t : ℕ} (u' : ℕ), u < b → s < t → u + b * s < u' + b * t := by
    intro u s t u' hu less
    calc u + b * s < b * (s + 1) := by rw [mul_add, mul_one]; omega
      _ ≤ b * t := Nat.mul_le_mul_left b less
      _ ≤ u' + b * t := Nat.le_add_left _ _
  rcases lt_trichotomy x y with less | rfl | more
  · rw [order, if_pos (apart low' hl less), if_pos less]
  · rw [if_neg (lt_irrefl x), if_neg (lt_irrefl x)]
    unfold order
    simp only [Nat.add_lt_add_iff_right]
  · have above := apart low hl' more
    rw [order, if_neg (by omega), if_pos above, if_neg (by omega), if_pos more]

theorem compareLimbs_eq {a b : List ℕ} (ha : ∀ x ∈ a, x < 2 ^ l.limbBitLength) (hb : ∀ x ∈ b, x < 2 ^ l.limbBitLength)
    {i : ℕ} (left : i ≤ a.length) (right : i ≤ b.length) :
    compareLimbs a b i = .ok (order (Nat.ofDigits (2 ^ l.limbBitLength) (a.take i))
      (Nat.ofDigits (2 ^ l.limbBitLength) (b.take i))) := by
  induction i with
  | zero => rfl
  | succ i ih =>
    have lowA := ofDigits_lt (one_lt_radix l) fun x hx => ha x (List.mem_of_mem_take (i := i) hx)
    have lowB := ofDigits_lt (one_lt_radix l) fun x hx => hb x (List.mem_of_mem_take (i := i) hx)
    have takeA : (a.take i).length = i := by rw [List.length_take]; omega
    have takeB : (b.take i).length = i := by rw [List.length_take]; omega
    rw [takeA] at lowA
    rw [takeB] at lowB
    rw [compareLimbs, load_ok _ (by omega), load_ok _ (by omega), ← List.take_concat_get' a i (by omega),
      ← List.take_concat_get' b i (by omega), ofDigits_concat, ofDigits_concat, takeA, takeB, order_add _ lowA lowB,
      ih (by omega) (by omega)]
    dsimp only [bind, Except.bind]
    split
    · rfl
    · split <;> rfl

theorem stored_length (positive : n ≠ 0) : (stored l n).value.length - 1 = (n.size - 1) / l.limbBitLength := by
  have canonical := canonical_digits (one_lt_radix l) n
  have size := canonical.size_eq (bits_pos l)
  rw [ofDigits_digits] at size
  have top : (digits (2 ^ l.limbBitLength) n).getLastD 0 ≠ 0 := by
    rw [digits, if_neg positive, getLastD_eq (Nat.digits_ne_nil_iff_ne_zero.mpr positive)]
    exact Nat.getLast_digit_ne_zero _ positive
  have some := Nat.size_pos.mpr (Nat.pos_of_ne_zero top)
  have below : ((digits (2 ^ l.limbBitLength) n).getLastD 0).size ≤ l.limbBitLength := by
    refine Nat.size_le.mpr (canonical.lt _ ?_)
    rw [getLastD_eq canonical.nonempty]
    exact List.getLast_mem _
  have bits := bits_pos l
  have split : n.size - 1 = l.limbBitLength * ((stored l n).value.length - 1) +
      (((digits (2 ^ l.limbBitLength) n).getLastD 0).size - 1) := by
    dsimp only [stored]
    omega
  rw [split, Nat.mul_add_div (by omega), Nat.div_eq_of_lt (by omega), add_zero]

theorem stored_length_pos : 0 < (stored l n).value.length := List.length_pos_of_ne_nil stored_nonempty

theorem stored_length_mono (le : m ≤ n) : (stored l m).value.length ≤ (stored l n).value.length := by
  have pos := stored_length_pos (l := l) (n := n)
  by_cases zero : m = 0
  · rw [zero]
    exact pos
  · have hm := stored_length (l := l) zero
    have hn := stored_length (l := l) (n := n) (by omega)
    have := Nat.div_le_div_right (c := l.limbBitLength) (Nat.sub_le_sub_right (Nat.size_le_size le) 1)
    have := stored_length_pos (l := l) (n := m)
    omega

theorem compare_stored (fitsM : m.size < 2 ^ 32) (fitsN : n.size < 2 ^ 32) :
    compare (stored l m) (stored l n) = .ok (order m n) := by
  have less : ∀ {x y : ℕ}, x.size < y.size → x < y := fun h => by
    by_contra ge
    have := Nat.size_le_size (not_lt.mp ge)
    omega
  rw [compare, stored_msb fitsM, stored_msb fitsN]
  split
  · rename_i h
    rw [order, if_pos (less h)]
  · split
    · rename_i h
      have := less h
      rw [order, if_neg (by omega), if_pos this]
    · have length : (stored l m).value.length = (stored l n).value.length := by
        have same : m.size = n.size := by omega
        have posM := stored_length_pos (l := l) (n := m)
        have posN := stored_length_pos (l := l) (n := n)
        by_cases zero : m = 0
        · have : n = 0 := Nat.size_eq_zero.mp (by rw [← same, zero, Nat.size_zero])
          rw [zero, this]
        · have hm := stored_length (l := l) zero
          have hn := stored_length (l := l) (n := n) (by
            rintro rfl
            exact zero (Nat.size_eq_zero.mp (by rw [same, Nat.size_zero])))
          rw [same] at hm
          omega
      rw [compareLimbs_eq (l := l) stored_lt stored_lt le_rfl length.le, List.take_length, length, List.take_length]
      rw [ofDigits_stored, ofDigits_stored]

theorem fits_of_le {a b : ℕ} (le : a ≤ b) (fits : b.size < 2 ^ 32) : a.size < 2 ^ 32 := (Nat.size_le_size le).trans_lt fits

end MultiKeyFHE.Ubint
