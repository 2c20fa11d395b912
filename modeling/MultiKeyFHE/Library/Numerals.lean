import Mathlib.Data.Nat.Digits.Lemmas
import Mathlib.Data.Nat.Size
import Mathlib.Tactic.Linarith

/-!
# Numerals

Strings of digits, most significant first. A character is its code, an integer, since languages differ on whether codes are
signed. `numeral b x` is what a printer writes for `x`; `value b s` reads any string as if its characters were digits.
-/

namespace Numerals

/-- The code of the digit zero. -/
abbrev zero : ℤ := 48

def digitCode (d : ℕ) : ℤ := zero + d

/-- The digits of `x` in base `b`, without leading zeros. -/
def numeral (b x : ℕ) : List ℤ := if x = 0 then [zero] else (Nat.digits b x).reverse.map digitCode

def value (b : ℕ) (s : List ℤ) : ℤ := s.foldl (fun v c => b * v + (c - zero)) 0

def IsNumeral (b : ℕ) (s : List ℤ) : Prop := ∀ c ∈ s, zero ≤ c ∧ c < zero + b

instance (b : ℕ) (s : List ℤ) : Decidable (IsNumeral b s) := inferInstanceAs (Decidable (∀ c ∈ s, _))

variable {b x : ℕ} {s t : List ℤ}

@[simp] theorem value_nil : value b [] = 0 := rfl

theorem value_concat (s : List ℤ) (c : ℤ) : value b (s ++ [c]) = b * value b s + (c - zero) := by
  simp [value]

theorem value_append (s t : List ℤ) : value b (s ++ t) = value b s * b ^ t.length + value b t := by
  induction t using List.reverseRecOn with
  | nil => simp
  | append_singleton t c ih =>
    rw [← List.append_assoc, value_concat, value_concat, ih, List.length_append, List.length_singleton, pow_succ]
    ring

theorem IsNumeral.of_append (h : IsNumeral b (s ++ t)) : IsNumeral b s := fun c hc => h c (List.mem_append_left _ hc)

theorem value_nonneg (h : IsNumeral b s) : 0 ≤ value b s := by
  induction s using List.reverseRecOn with
  | nil => exact le_refl 0
  | append_singleton s c ih =>
    obtain ⟨low, -⟩ := h c (by simp)
    have before := mul_nonneg (Int.natCast_nonneg b) (ih h.of_append)
    rw [value_concat]
    omega

theorem value_le_append (pos : 0 < b) (h : IsNumeral b (s ++ t)) : value b s ≤ value b (s ++ t) := by
  induction t using List.reverseRecOn with
  | nil => rw [List.append_nil]
  | append_singleton t c ih =>
    rw [← List.append_assoc] at h ⊢
    obtain ⟨low, -⟩ := h c (by simp)
    have before := ih h.of_append
    have nonneg := value_nonneg h.of_append
    have grown : value b (s ++ t) ≤ b * value b (s ++ t) := le_mul_of_one_le_left nonneg (by exact_mod_cast pos)
    rw [value_concat]
    omega

theorem value_replicate_zero (z : ℕ) (s : List ℤ) : value b (List.replicate z zero ++ s) = value b s := by
  induction z with
  | zero => rfl
  | succ z ih =>
    rw [← ih, List.replicate_succ, List.cons_append]
    simp [value]

theorem value_digits (ds : List ℕ) : value b (ds.reverse.map digitCode) = Nat.ofDigits b ds := by
  induction ds with
  | nil => rfl
  | cons d ds ih =>
    rw [List.reverse_cons, List.map_append, List.map_singleton, value_concat, ih, Nat.ofDigits_cons, digitCode]
    push_cast
    ring

theorem value_numeral (b x : ℕ) : value b (numeral b x) = x := by
  unfold numeral
  split
  · rename_i none
    subst none
    simp [value]
  · rw [value_digits, Nat.ofDigits_digits]

theorem isNumeral_numeral (hb : 1 < b) (x : ℕ) : IsNumeral b (numeral b x) := by
  intro c hc
  unfold numeral at hc
  split at hc
  · rw [List.mem_singleton] at hc
    omega
  · obtain ⟨d, hd, rfl⟩ := List.mem_map.mp hc
    have below := Nat.digits_lt_base hb (List.mem_reverse.mp hd)
    unfold digitCode
    omega

theorem numeral_ne_nil (b x : ℕ) : numeral b x ≠ [] := by
  unfold numeral
  split
  · simp
  · rename_i some
    simpa [← List.length_pos_iff_ne_nil] using Nat.digits_ne_nil_iff_ne_zero.mpr some

theorem value_lt (h : IsNumeral b s) : value b s < b ^ s.length := by
  induction s using List.reverseRecOn with
  | nil => simp
  | append_singleton s c ih =>
    obtain ⟨-, high⟩ := h c (by simp)
    have before := ih h.of_append
    have scaled : b * (value b s + 1) ≤ b * (b : ℤ) ^ s.length := by
      gcongr
      omega
    rw [value_concat, List.length_append, List.length_singleton, pow_succ', mul_add] at *
    omega

theorem dropWhile_numeral (z x : ℕ) :
    (List.replicate z zero ++ numeral b x).dropWhile (· = zero) = if x = 0 then [] else numeral b x := by
  induction z with
  | succ z ih =>
    rw [List.replicate_succ, List.cons_append, List.dropWhile_cons, if_pos (by simp), ih]
  | zero =>
    rw [List.replicate_zero, List.nil_append]
    unfold numeral
    split
    · simp
    · rename_i some
      have nonempty := Nat.digits_ne_nil_iff_ne_zero (b := b).mpr some
      have last := Nat.getLast_digit_ne_zero b some
      rw [← List.dropLast_append_getLast nonempty, List.reverse_append, List.map_append, List.reverse_singleton,
        List.map_singleton, List.singleton_append, List.dropWhile_cons, if_neg]
      simpa [digitCode] using last

theorem length_numeral (some : x ≠ 0) : (numeral b x).length = (Nat.digits b x).length := by
  simp [numeral, some]

theorem length_numeral_two (some : x ≠ 0) : (numeral 2 x).length = x.size := by
  rw [length_numeral some, Nat.digits_two_eq_bits, List.length_map, Nat.size_eq_bits_len]

theorem value_window (h : IsNumeral b s) {k m : ℕ} (inside : k + m ≤ s.length) :
    value b ((s.drop (s.length - (k + m))).take m) = value b s / b ^ k % b ^ m := by
  set A := s.take (s.length - (k + m)) with hA
  set C := (s.drop (s.length - (k + m))).take m with hC
  set D := s.drop (s.length - k) with hD
  have shape : s = A ++ C ++ D := by
    have rest : (s.drop (s.length - (k + m))).drop m = D := by
      rw [List.drop_drop, hD]
      congr 1
      omega
    rw [List.append_assoc, hC, ← rest, List.take_append_drop, hA, List.take_append_drop]
  have lengthC : C.length = m := by
    rw [hC, List.length_take, List.length_drop]
    omega
  have lengthD : D.length = k := by
    rw [hD, List.length_drop]
    omega
  have numeralC : IsNumeral b C := fun c hc => h c (List.mem_of_mem_drop (List.mem_of_mem_take hc))
  have numeralD : IsNumeral b D := fun c hc => h c (List.mem_of_mem_drop hc)
  have highC := value_lt numeralC
  have highD := value_lt numeralD
  have lowC := value_nonneg numeralC
  have lowD := value_nonneg numeralD
  rw [lengthC] at highC
  rw [lengthD] at highD
  conv_rhs => rw [shape]
  rw [value_append, value_append, lengthC, lengthD, Int.add_ediv_of_dvd_left (Dvd.intro_left _ rfl),
    Int.mul_ediv_cancel _ (by omega), Int.ediv_eq_zero_of_lt lowD highD, add_zero, Int.add_comm, Int.add_mul_emod_self_right,
    Int.emod_eq_of_lt lowC highC]

end Numerals
