import MultiKeyFHE.Library.PowersOfFive
import MultiKeyFHE.NumberTheory.Factorization

/-!
# Indices of automorphisms

`FindAutomorphismIndex2n` and `FindAutomorphismIndexCyclic` of `nbtheory2.cpp`: a rotation index becomes a power of five, or
of a generator, by repeated products of 32 bits. Both ask `GetTotient`, which factorizes.
-/

namespace MultiKeyFHE.NbTheory
open Fuel NativeInteger

section Model
variable (w : NativeSize)

/-- The loop of `ModInverse`, with a modulus that may be negative. -/
def signedInverseLoop (a modulus y x : ℤ) : Except Fault ℤ :=
  if a > 1 then
    if modulus = 0 then .error .divisionByZero
    else signedInverseLoop modulus (a.tmod modulus) ((x - a.tdiv modulus * y).bmod (2 ^ w.bits)) y
  else .ok x
termination_by modulus.natAbs
decreasing_by
  rw [Int.natAbs_tmod]
  exact Nat.mod_lt _ (by omega)

/-- `ModInverse`, with the conversions to signed words. -/
def signedModInverse (value mod : ℕ) : Except Fault ℕ := do
  if mod = 0 then throw .divisionByZero
  let modulus := (mod : ℤ).bmod (2 ^ w.bits)
  let a := ((value % mod : ℕ) : ℤ).bmod (2 ^ w.bits)
  if a = 0 then
    throw (.mathError (toString value ++ " does not have a ModInverse using " ++ toString mod))
  if modulus = 1 then return 0
  let x ← signedInverseLoop w a modulus 0 1
  return ((if x < 0 then x + mod else x) % 2 ^ w.bits).toNat

/-- `GetTotient`. The order of the set does not matter to the products. -/
def getTotient (fuel : ℕ) (stream : ℕ → ℕ) (n position : ℕ) : Attempt Fault (ℕ × ℕ) := do
  let enn := wrap w n
  let (factors, position) ← primeFactorize (.native w) stream fuel enn [] position
  let numerator := factors.foldl (fun numerator r => mul w numerator (sub w r 1)) 1
  let primeProd := factors.foldl (fun primeProd r => mul w primeProd r) 1
  let quotient ← NativeInteger.dividedBy enn primeProd
  return (mul w quotient numerator, position)

/-- `g = (g * g0) % m`, repeated. The product is a word of 32 bits. -/
def repeatMul (m g0 : ℕ) : ℕ → ℕ → ℕ
  | 0, g => g
  | count + 1, g => repeatMul m g0 count (g * g0 % 2 ^ 32 % m)

/-- `f1` and `f2`, inverted for a negative index. -/
def indexBases (i : ℤ) (m : ℕ) : Except Fault (ℕ × ℕ) := do
  if i < 0 then
    let f1 ← signedModInverse w 5 m
    let f2 ← signedModInverse w (m - 1) m
    return (f1 % 2 ^ 32, f2 % 2 ^ 32)
  return (5, m - 1)

def findAutomorphismIndex2n (fuel : ℕ) (stream : ℕ → ℕ) (position : ℕ) (i : ℤ) (m : ℕ) : Attempt Fault (ℕ × ℕ) := do
  if i = 0 then return (1, position)
  let (totient, position) ← getTotient w fuel stream m position
  let n := totient % 2 ^ 32
  let (f1, f2) ← indexBases w i m
  let i_unsigned := i.natAbs
  if i_unsigned < n / 2 then return (repeatMul m f1 (i_unsigned - 1) f1, position)
  else return (repeatMul m f1 (i_unsigned - n / 2) f2, position)

/-- `i_unsigned` of `FindAutomorphismIndexCyclic`. -/
def cyclicExponent (totient : ℕ) (i : ℤ) : Except Fault ℕ := do
  let n := (totient : ℤ).bmod (2 ^ 32)
  if n = 0 then throw .divisionByZero
  let i_signed := i.tmod n
  -- With a negative `n` the sum may leave `int32_t`, which is undefined; here it wraps.
  let i_signed := if i_signed ≤ 0 then i_signed + n else i_signed
  return (i_signed % 2 ^ 32).toNat

def findAutomorphismIndexCyclic (fuel : ℕ) (stream : ℕ → ℕ) (position : ℕ) (i : ℤ) (m g : ℕ) : Attempt Fault (ℕ × ℕ) := do
  if i = 0 then return (1, position)
  let (totient, position) ← getTotient w fuel stream m position
  let i_unsigned ← cyclicExponent totient i
  return (repeatMul m g (i_unsigned - 2) g, position)

end Model

/-! ### Signed inverses -/

section Inverse
variable {w : NativeSize}

theorem signedInverseLoop_eq (a modulus : ℕ) (y x : ℤ) : signedInverseLoop w a modulus y x = inverseLoop w a modulus y x := by
  induction modulus using Nat.strong_induction_on generalizing a y x with
  | _ modulus ih =>
    rw [signedInverseLoop, inverseLoop]
    by_cases more : a > 1
    · rw [if_pos (by exact_mod_cast more), if_pos more]
      by_cases zero : modulus = 0
      · rw [if_pos (by exact_mod_cast zero), if_pos zero]
      · rw [if_neg (by exact_mod_cast zero), if_neg zero, ← Int.ofNat_tmod, ih _ (Nat.mod_lt a (by omega))]
        rfl
    · rw [if_neg (by exact_mod_cast more), if_neg more]

theorem signedModInverse_eq (value : ℕ) {m : ℕ} (small : 2 * m < 2 ^ w.bits) :
    signedModInverse w value m = modInverse w value m := by
  have signed : ∀ x ≤ m, ((x : ℕ) : ℤ).bmod (2 ^ w.bits) = x := by
    intro x le
    have fits : x * 2 < 2 ^ w.bits := by omega
    generalize 2 ^ w.bits = word at fits
    exact Int.bmod_eq_of_le_mul_two (by omega) (by omega)
  unfold signedModInverse modInverse
  by_cases zero : m = 0
  · rw [if_pos zero, if_pos zero]
    rfl
  rw [if_neg zero, if_neg zero, signed m le_rfl, signed _ (Nat.mod_lt _ (by omega)).le]
  have run : signedInverseLoop w (value % m : ℕ) m 0 1 = inverseLoop w (value % m) m 0 1 := signedInverseLoop_eq _ _ 0 1
  dsimp only
  rw [run]
  simp only [Nat.cast_eq_zero, Nat.cast_eq_one]

end Inverse

/-! ### The totient of a power of two -/

section PowerOfTwo
variable {w : NativeSize} (stream : ℕ → ℕ) (position : ℕ)

theorem split_even {n : ℕ} (even : n % 2 = 0) (word : n < 2 ^ w.bits) (fuel : ℕ) :
    pollardRhoFactorization (.native w) fuel n stream position = ended (.ok (2, position)) := by
  have laws := IntType.native_lawful w
  have remainder := laws.mod two_pos word laws.two
  have zero := laws.eq laws.zero laws.zero
  unfold pollardRhoFactorization
  rw [laws.ofTwo]
  dsimp only [id] at remainder zero ⊢
  rw [remainder, even, laws.ofZero, lift_eq, ok_bind]
  dsimp only [id]
  rw [zero]
  rfl

theorem factorize_small {p : ℕ} (small : p = 2 ∨ p = 3 ∨ p = 5) (primeFactors : List ℕ) :
    Settles (fun fuel => primeFactorize (.native w) stream fuel p primeFactors position) (.ok (primeFactors.insert p, position)) := by
  have laws := IntType.native_lawful w
  have word : p < 2 ^ w.bits := laws.words (x := p) (by omega)
  apply Settles.succ
  · exact exhausted_ne
  unfold primeFactorize
  have more := zeroOrOne_eq laws word
  rw [decide_eq_false (by omega)] at more
  dsimp only [id] at more
  simp only [more, lift_eq, ok_bind]
  apply (test_small laws (IntType.native_modular (by omega) word) defaultIterations stream position small).bind
  exact settles_ended _

/-- Pollard's rho splits a two off. -/
theorem factorize_even {half : ℕ} (large : 2 ≤ half) (word : 2 * half < 2 ^ w.bits) {before : List ℕ} {r : Except Fault (List ℕ × ℕ)}
    (rest : Settles (fun fuel => primeFactorize (.native w) stream fuel half (before.insert 2) position) r) :
    Settles (fun fuel => primeFactorize (.native w) stream fuel (2 * half) before position) r := by
  have laws := IntType.native_lawful w
  apply Settles.succ
  · exact exhausted_ne
  unfold primeFactorize
  have more := zeroOrOne_eq laws word
  rw [decide_eq_false (by omega)] at more
  dsimp only [id] at more
  simp only [more, lift_eq, ok_bind]
  apply (test_even laws (IntType.native_modular (by omega) word) defaultIterations stream position (by omega) (by omega)).bind
  dsimp only
  simp only [Bool.false_eq_true, if_false, split_even stream position (w := w) (n := 2 * half) (by omega) word, ok_bind]
  apply (factorize_small stream position (.inl rfl) before).bind
  have divided : (IntType.native w).dividedBy (2 * half) 2 = .ok half := by
    have quotient := laws.dividedBy (x := 2 * half) two_pos (by omega) word
    rwa [id, id, id, Nat.mul_div_cancel_left _ two_pos] at quotient
  dsimp only
  simp only [divided, ok_bind]
  exact rest

theorem factorize_power {k : ℕ} (some : 0 < k) (word : 2 ^ k < 2 ^ w.bits) (primeFactors : List ℕ) :
    Settles (fun fuel => primeFactorize (.native w) stream fuel (2 ^ k) primeFactors position)
      (.ok (primeFactors.insert 2, position)) := by
  induction k generalizing primeFactors with
  | zero => omega
  | succ k ih =>
    rcases Nat.eq_zero_or_pos k with rfl | large
    · exact factorize_small stream position (.inl rfl) primeFactors
    rw [pow_succ'] at word ⊢
    apply factorize_even stream position (Nat.le_self_pow large.ne' 2) word
    have rest := ih large (by omega) (primeFactors.insert 2)
    rwa [List.insert_of_mem List.mem_insert_self] at rest

theorem getTotient_power {k : ℕ} (some : 0 < k) (word : 2 ^ k < 2 ^ w.bits) :
    Settles (fun fuel => getTotient w fuel stream (2 ^ k) position) (.ok (2 ^ (k - 1), position)) := by
  obtain ⟨j, rfl⟩ : ∃ j, k = j + 1 := ⟨k - 1, by omega⟩
  have split : 2 ^ (j + 1) = 2 * 2 ^ j := pow_succ' 2 j
  have large : 1 ≤ 2 ^ j := Nat.one_le_two_pow
  have wide := w.two_pow_32_le
  have whole : ∀ x ≤ 2 ^ (j + 1), wrap w x = x := fun x le => Nat.mod_eq_of_lt (le.trans_lt word)
  have one : sub w 2 1 = 1 := by
    rw [sub, wrap, show 2 + 2 ^ w.bits - 1 = 1 + 2 ^ w.bits by omega, Nat.add_mod_right]
    exact Nat.mod_eq_of_lt (by omega)
  unfold getTotient
  rw [whole _ le_rfl]
  apply (factorize_power stream position some word []).bind
  have divided : NativeInteger.dividedBy (2 ^ (j + 1)) 2 = .ok (2 ^ j) := by
    rw [NativeInteger.dividedBy, if_neg two_ne_zero, split, Nat.mul_div_cancel_left _ two_pos]
  simp only [List.insert_nil, List.foldl_cons, List.foldl_nil, one, mul, one_mul, whole 2 (by omega), whole 1 (by omega), divided,
    lift_eq, ok_bind, mul_one, whole (2 ^ j) (by omega), Nat.add_sub_cancel]
  exact settles_ended _

end PowerOfTwo

/-! ### Repeated products -/

section Products
variable {m g0 g : ℕ} (room : ∀ x < m, x * g0 % 2 ^ 32 ≡ x * g0 [MOD m])
include room

theorem repeatMul_eq (pos : 0 < m) (hg : g < m) (count : ℕ) : repeatMul m g0 count g = g * g0 ^ count % m := by
  induction count generalizing g with
  | zero => rw [repeatMul, pow_zero, mul_one, Nat.mod_eq_of_lt hg]
  | succ count ih =>
    rw [repeatMul, room g hg, ih (Nat.mod_lt _ pos), Nat.mod_mul_mod, mul_assoc, pow_succ']

end Products

theorem room_of_dvd {m : ℕ} (divides : m ∣ 2 ^ 32) (g0 x : ℕ) : x * g0 % 2 ^ 32 ≡ x * g0 [MOD m] :=
  (Nat.mod_modEq _ _).of_dvd divides

/-! ### Indices modulo a power of two -/

section PowerOfTwoIndex
open PowersOfFive
variable {w : NativeSize} (stream : ℕ → ℕ) (position : ℕ) {e : ℕ} (word : e + 2 < 32)

/-- A power of the first base, and past the quarter the second base times a power. -/
def rotated (e f1 f2 i : ℕ) : ℕ :=
  if i < 2 ^ e then f1 ^ i % modulus e else f2 * f1 ^ (i - 2 ^ e) % modulus e

theorem rotated_lt (f1 f2 i : ℕ) : rotated e f1 f2 i < modulus e := by
  unfold rotated
  split <;> exact Nat.mod_lt _ (modulus_pos e)

theorem rotated_mul {f1 f2 g1 g2 : ℕ} (first : g1 * f1 ≡ 1 [MOD modulus e]) (second : g2 * f2 ≡ 1 [MOD modulus e]) (i : ℕ) :
    rotated e g1 g2 i * rotated e f1 f2 i ≡ 1 [MOD modulus e] := by
  have powers : ∀ j, g1 ^ j * f1 ^ j ≡ 1 [MOD modulus e] := by
    intro j
    rw [← mul_pow]
    simpa using first.pow j
  unfold rotated
  split
  · exact ((Nat.mod_modEq _ _).mul (Nat.mod_modEq _ _)).trans (powers i)
  · refine ((Nat.mod_modEq _ _).mul (Nat.mod_modEq _ _)).trans ?_
    rw [mul_mul_mul_comm]
    exact second.mul (powers _)

theorem rotated_eq_residue (i : ℕ) :
    rotated e 5 (modulus e - 1) i = residue e (decide (2 ^ e ≤ i)) (if i < 2 ^ e then i else i - 2 ^ e) := by
  by_cases first : i < 2 ^ e
  · rw [rotated, if_pos first, if_pos first, decide_eq_false (by omega)]
    rfl
  · rw [rotated, if_neg first, if_neg first, decide_eq_true (by omega)]
    have same : (modulus e - 1) * 5 ^ (i - 2 ^ e) ≡ residue e true (i - 2 ^ e) [MOD modulus e] := by
      apply Int.natCast_modEq_iff.mp
      refine Int.ModEq.trans ?_ (residue_modEq true (i - 2 ^ e)).symm
      push_cast [Nat.cast_sub (modulus_pos e)]
      exact Int.ModEq.mul_right _ (Int.modEq_iff_dvd.mpr ⟨-1, by simp only [if_true]; ring⟩)
    rw [same, Nat.mod_eq_of_lt (residue_lt true _)]

include word

theorem index2n_settles {i : ℤ} (other : i ≠ 0) {f1 f2 : ℕ} (bases : indexBases w i (modulus e) = .ok (f1, f2)) (h1 : f1 < modulus e)
    (h2 : f2 < modulus e) : Settles (fun fuel => findAutomorphismIndex2n w fuel stream position i (modulus e))
      (.ok (rotated e f1 f2 i.natAbs, position)) := by
  have room := room_of_dvd (m := modulus e) (pow_dvd_pow 2 word.le)
  have short : modulus e < 2 ^ 32 := Nat.pow_lt_pow_right one_lt_two word
  have totient := getTotient_power (w := w) stream position (k := e + 2) (by omega) (short.trans_le w.two_pow_32_le)
  have quarter : 2 ^ (e + 2 - 1) % 2 ^ 32 / 2 = 2 ^ e := by
    rw [Nat.mod_eq_of_lt (Nat.pow_lt_pow_right one_lt_two (by omega)), show e + 2 - 1 = e + 1 by omega, pow_succ,
      Nat.mul_div_cancel _ two_pos]
  unfold findAutomorphismIndex2n
  simp only [if_neg other]
  apply totient.bind
  simp only [bases, lift_eq, ok_bind, quarter]
  have powers := fun x hx => repeatMul_eq (fun x _ => room f1 x) (modulus_pos e) (g := x) hx
  unfold rotated
  split
  · have whole : i.natAbs - 1 + 1 = i.natAbs := by omega
    rw [powers f1 h1, ← pow_succ', whole]
    exact settles_ended _
  · rw [powers f2 h2]
    exact settles_ended _

theorem index2n_positive {i : ℤ} (sign : 0 ≤ i) (large : 1 ≤ e) :
    Settles (fun fuel => findAutomorphismIndex2n w fuel stream position i (modulus e))
      (.ok (rotated e 5 (modulus e - 1) i.natAbs, position)) := by
  have four := modulus_eq e
  have two : 2 ≤ 2 ^ e := Nat.le_self_pow (by omega) 2
  rcases sign.eq_or_lt with rfl | positive
  · have one : rotated e 5 (modulus e - 1) (Int.natAbs 0) = 1 := by
      rw [rotated, if_pos (by simp), Int.natAbs_zero, pow_zero]
      exact Nat.mod_eq_of_lt (by omega)
    rw [one]
    exact settles_ended _
  · apply index2n_settles stream position word positive.ne' ?_ (by omega) (by omega)
    rw [indexBases, if_neg (by omega)]
    rfl

theorem index2n_negative (large : 1 ≤ e) (signed : 2 * modulus e < 2 ^ w.bits) :
    ∃ f1 f2, f1 * 5 ≡ 1 [MOD modulus e] ∧ f2 * (modulus e - 1) ≡ 1 [MOD modulus e] ∧ ∀ i < 0,
      Settles (fun fuel => findAutomorphismIndex2n w fuel stream position i (modulus e))
        (.ok (rotated e f1 f2 i.natAbs, position)) := by
  have four := modulus_eq e
  have two : 2 ≤ 2 ^ e := Nat.le_self_pow (by omega) 2
  have short : modulus e < 2 ^ 32 := Nat.pow_lt_pow_right one_lt_two word
  have five : Nat.Coprime 5 (modulus e) := Nat.Coprime.pow_right _ (by norm_num)
  have last : (modulus e - 1).Coprime (modulus e) := by
    have next := Nat.coprime_self_add_right (m := modulus e - 1) (n := 1)
    rw [Nat.sub_add_cancel (modulus_pos e)] at next
    exact next.mpr (Nat.coprime_one_right _)
  obtain ⟨f1, run1, less1, inverse1⟩ := modInverse_ok (by omega) signed five
  obtain ⟨f2, run2, less2, inverse2⟩ := modInverse_ok (by omega) signed last
  refine ⟨f1, f2, inverse1, inverse2, fun i sign => index2n_settles stream position word sign.ne ?_ less1 less2⟩
  rw [indexBases, if_pos sign, signedModInverse_eq _ signed, signedModInverse_eq _ signed, run1, run2]
  simp only [bind, Except.bind, Nat.mod_eq_of_lt (less1.trans short), Nat.mod_eq_of_lt (less2.trans short)]
  rfl

end PowerOfTwoIndex

/-- Distinct units for the first indices, inverted with the sign of the index. -/
def RotatesAndInverts (w : NativeSize) (stream : ℕ → ℕ) (position m : ℕ) : Prop :=
  ∃ index : ℤ → ℕ,
    (∀ i : ℤ, |i| < 2 ^ 31 → Settles (fun fuel => findAutomorphismIndex2n w fuel stream position i m) (.ok (index i, position))) ∧
    (∀ i : ℕ, i < m.totient → index i < m ∧ (index i).Coprime m) ∧
    (∀ i j : ℕ, i < m.totient → j < m.totient → index i = index j → i = j) ∧
    ∀ i : ℤ, |i| < 2 ^ 31 → index (-i) * index i ≡ 1 [MOD m]

section
open PowersOfFive
variable {w : NativeSize} (stream : ℕ → ℕ) (position : ℕ)

/-- Of the first indices, each is a unit of its own. -/
theorem rotated_distinct {e : ℕ} {i j : ℕ} (hi : i < 2 * 2 ^ e) (hj : j < 2 * 2 ^ e)
    (same : rotated e 5 (modulus e - 1) i = rotated e 5 (modulus e - 1) j) : i = j := by
  rw [rotated_eq_residue, rotated_eq_residue] at same
  obtain ⟨sign, power⟩ := residue_injective (e := e) (by split <;> omega) (by split <;> omega) same
  rw [decide_eq_decide] at sign
  split at power <;> split at power <;> omega

theorem rotated_unit {e : ℕ} (i : ℕ) : (rotated e 5 (modulus e - 1) i).Coprime (modulus e) := by
  rw [rotated_eq_residue]
  apply Nat.Coprime.pow_right
  rw [Nat.coprime_two_right, Nat.odd_iff]
  exact residue_odd _ _

theorem rotatesAndInverts_of_signed {e : ℕ} (large : 1 ≤ e) (word : e + 2 < 32) (signed : 2 * modulus e < 2 ^ w.bits) :
    RotatesAndInverts w stream position (modulus e) := by
  obtain ⟨f1, f2, inverse1, inverse2, negative⟩ := index2n_negative stream position word large signed
  have inverts := rotated_mul inverse1 inverse2
  have totient : (modulus e).totient = 2 * 2 ^ e := by
    rw [modulus, Nat.totient_prime_pow_succ Nat.prime_two, ← pow_succ']
    simp
  refine ⟨fun i => if i < 0 then rotated e f1 f2 i.natAbs else rotated e 5 (modulus e - 1) i.natAbs, ?_, ?_, ?_, ?_⟩
  · intro i _
    dsimp only
    split
    · exact negative i ‹_›
    · exact index2n_positive stream position word (by omega) large
  · intro i _
    dsimp only
    rw [if_neg (by omega)]
    exact ⟨rotated_lt _ _ _, rotated_unit _⟩
  · intro i j hi hj same
    rw [totient] at hi hj
    dsimp only at same
    rw [if_neg (by omega), if_neg (by omega)] at same
    exact rotated_distinct hi hj same
  · intro i _
    dsimp only
    rcases lt_trichotomy i 0 with sign | rfl | sign
    · rw [if_neg (by omega), if_pos sign, Int.natAbs_neg, mul_comm]
      exact inverts i.natAbs
    · have four := modulus_eq e
      have some := Nat.two_pow_pos e
      have one : rotated e 5 (modulus e - 1) (Int.natAbs 0) = 1 % modulus e := by simp [rotated]
      rw [neg_zero, if_neg (by omega), one, Nat.mod_eq_of_lt (by omega)]
    · rw [if_pos (by omega), if_neg (by omega), Int.natAbs_neg]
      exact inverts i.natAbs

/-- As a signed word of 32 bits, `2 ^ 31` is negative, and the loop of `ModInverse` ends at once with a zero. -/
theorem index_of_half : ¬ RotatesAndInverts .w32 stream position (2 ^ 31) := by
  rintro ⟨index, settles, -, -, inverts⟩
  have bases : indexBases .w32 (-1) (2 ^ 31) = .ok (0, 0) := by decide +kernel
  have zero := index2n_settles (w := .w32) stream position (e := 29) (by norm_num) (i := -1) (by norm_num) bases (by decide) (by decide)
  obtain ⟨steps, run⟩ := (settles (-1) (by norm_num)).ends
  have same : index (-1) = 0 := by
    have result := Except.ok.inj (zero.only steps _ (run steps le_rfl))
    exact (Prod.mk.inj result).1.trans (show rotated 29 0 0 1 = 0 by decide)
  have inverted := inverts 1 (by norm_num)
  rw [same, zero_mul] at inverted
  exact absurd inverted (by decide)

theorem rotatesAndInverts_iff {k : ℕ} (large : 3 ≤ k) (word : k < 32) :
    RotatesAndInverts w stream position (2 ^ k) ↔ 2 * 2 ^ k < 2 ^ w.bits := by
  obtain ⟨e, rfl⟩ : ∃ e, k = e + 2 := ⟨k - 2, by omega⟩
  refine ⟨fun right => ?_, rotatesAndInverts_of_signed stream position (by omega) word⟩
  by_contra unsigned
  rw [← pow_succ', Nat.pow_lt_pow_iff_right one_lt_two, not_lt] at unsigned
  cases w with
  | w32 =>
    obtain rfl : e = 29 := by
      change 32 ≤ _ at unsigned
      omega
    exact index_of_half stream position right
  | w64 =>
    change 64 ≤ _ at unsigned
    omega

end

/-! ### Totients -/

section Totient
variable {w : NativeSize} (stream : ℕ → ℕ) (position : ℕ)

theorem getTotient_extends {fuel more : ℕ} (le : fuel ≤ more) (n : ℕ) :
    Extends (getTotient w fuel stream n position) (getTotient w more stream n position) := by
  apply (primeFactorize_extends stream position le _ _).bind
  exact fun _ => .refl _

theorem getTotient_one : Settles (fun fuel => getTotient w fuel stream 1 position) (.ok (1, position)) := by
  have laws := IntType.native_lawful w
  have one : wrap w 1 = 1 := Nat.mod_eq_of_lt laws.one
  have run : Settles (fun fuel => primeFactorize (.native w) stream fuel 1 [] position) (.ok ([], position)) := by
    apply Settles.succ
    · exact exhausted_ne
    unfold primeFactorize
    have unit := zeroOrOne_eq laws laws.one
    dsimp only [id] at unit
    simp only [unit, lift_eq, ok_bind]
    exact settles_ended _
  unfold getTotient
  rw [one]
  apply run.bind
  cases w <;> exact settles_ended _

/-- Three and six have the totient of four. -/
theorem getTotient_pair {m : ℕ} (pair : m = 3 ∨ m = 4 ∨ m = 6) :
    Settles (fun fuel => getTotient w fuel stream m position) (.ok (2, position)) := by
  have laws := IntType.native_lawful w
  have wide := w.two_pow_32_le
  have whole : wrap w m = m := Nat.mod_eq_of_lt (by omega)
  rcases pair with rfl | rfl | rfl
  · unfold getTotient
    rw [whole]
    apply (factorize_small stream position (.inr (.inl rfl)) []).bind
    cases w <;> exact settles_ended _
  · exact getTotient_power stream position (k := 2) two_pos (by omega)
  · unfold getTotient
    rw [whole]
    have three := factorize_small (w := w) stream position (p := 3) (by norm_num) (List.insert 2 [])
    apply (factorize_even stream position (show 2 ≤ 3 by norm_num) (by omega) three).bind
    cases w <;> exact settles_ended _

theorem primeFactorize_nodup {fuel n last : ℕ} {before after : List ℕ} (unique : before.Nodup)
    (run : primeFactorize (.native w) stream fuel n before position = ended (.ok (after, last))) : after.Nodup := by
  induction fuel generalizing n before after position last with
  | zero => exact absurd run (exhausted_ne _)
  | succ fuel ih =>
    unfold primeFactorize at run
    rcases bind_ended run with ⟨small, -, run⟩ | ⟨e, -, same⟩
    swap; · cases same
    split at run
    · cases ended_inj.mp run
      exact unique
    rcases bind_ended run with ⟨⟨prime, tested⟩, -, run⟩ | ⟨e, -, same⟩
    swap; · cases same
    dsimp only at run
    split at run
    · cases ended_inj.mp run
      exact unique.insert
    rcases bind_ended run with ⟨⟨divisor, found⟩, -, run⟩ | ⟨e, -, same⟩
    swap; · cases same
    rcases bind_ended run with ⟨⟨between, done⟩, first, run⟩ | ⟨e, -, same⟩
    swap; · cases same
    rcases bind_ended run with ⟨cofactor, -, rest⟩ | ⟨e, -, same⟩
    swap; · cases same
    exact ih _ (ih _ unique first) rest

theorem foldl_mul (f : ℕ → ℕ) (l : List ℕ) {a : ℕ} (word : a < 2 ^ w.bits) :
    l.foldl (fun product r => mul w product (f r)) a = a * (l.map f).prod % 2 ^ w.bits := by
  induction l generalizing a with
  | nil => simp [Nat.mod_eq_of_lt word]
  | cons x l ih =>
    rw [List.foldl_cons, mul, wrap, ih (Nat.mod_lt _ (by positivity)), Nat.mod_mul_mod, List.map_cons, List.prod_cons, mul_assoc]

/-- The factorization of `m` ends, with its prime divisors. -/
def Factorizes (w : NativeSize) (stream : ℕ → ℕ) (position m : ℕ) : Prop :=
  ∃ fuel all last, primeFactorize (.native w) stream fuel m [] position = ended (.ok (all, last)) ∧ AddsPrimeDivisors id m [] all

theorem getTotient_ends {stream : ℕ → ℕ} {position m : ℕ} (factored : Factorizes w stream position m) (pos : 0 < m)
    (word : m < 2 ^ w.bits) : ∃ last, Ends (fun fuel => getTotient w fuel stream m position) (.ok (m.totient, last)) := by
  obtain ⟨fuel, all, last, run, adds⟩ := factored
  have members : ∀ x, x ∈ all ↔ x ∈ m.primeFactors := by
    intro x
    rw [adds, Nat.mem_primeFactors_of_ne_zero pos.ne']
    simp
  have unique := primeFactorize_nodup stream position List.nodup_nil run
  have same : all.toFinset = m.primeFactors := Finset.ext fun x => List.mem_toFinset.trans (members x)
  have products : ∀ f : ℕ → ℕ, (all.map f).prod = ∏ p ∈ m.primeFactors, f p := by
    intro f
    rw [← same, List.prod_toFinset f unique]
  have differences : all.map (sub w · 1) = all.map (· - 1) := by
    apply List.map_congr_left
    intro r member
    have prime := Nat.prime_of_mem_primeFactors ((members r).mp member)
    have le := Nat.le_of_mem_primeFactors ((members r).mp member)
    rw [sub, wrap, Nat.sub_add_comm prime.one_le, Nat.add_mod_right, Nat.mod_eq_of_lt (by omega)]
  have formula := Nat.totient_eq_div_primeFactors_mul m
  have divides := Nat.prod_primeFactors_dvd m
  have some := Nat.div_pos (Nat.le_of_dvd pos divides) (Nat.pos_of_dvd_of_pos divides pos)
  have le : m.totient < 2 ^ w.bits := (Nat.totient_le m).trans_lt word
  have numerator : ∏ p ∈ m.primeFactors, (p - 1) < 2 ^ w.bits :=
    (Nat.le_mul_of_pos_left _ some).trans_lt (formula ▸ le)
  refine ⟨last, ?_⟩
  unfold getTotient
  rw [wrap, Nat.mod_eq_of_lt word]
  have factorized : Ends (fun fuel => primeFactorize (.native w) stream fuel m [] position) (.ok (all, last)) :=
    ⟨fuel, fun more enough => primeFactorize_extends stream position enough _ _ _ run⟩
  apply factorized.bind
  have one : 1 < 2 ^ w.bits := Nat.one_lt_two_pow (by cases w <;> decide)
  have divided : NativeInteger.dividedBy m (∏ p ∈ m.primeFactors, p) = .ok (m / ∏ p ∈ m.primeFactors, p) :=
    if_neg (Nat.pos_of_dvd_of_pos divides pos).ne'
  dsimp only
  rw [foldl_mul (sub w · 1) all one, foldl_mul (fun r => r) all one, differences, products, products, one_mul, one_mul,
    Nat.mod_eq_of_lt numerator, Nat.mod_eq_of_lt ((Nat.le_of_dvd pos divides).trans_lt word), divided, lift_eq, ok_bind, mul, wrap,
    ← formula, Nat.mod_eq_of_lt le]
  exact (settles_ended _).ends

end Totient

/-! ### Indices modulo any number -/

section Exponent
variable {totient e : ℕ} {i : ℤ}

/-- The exponent is two for most totients, and then no product is made. -/
theorem exponent_two (run : cyclicExponent totient 2 = .ok e) :
    e ≤ 2 ∨ cyclicExponent totient 4 = .ok e := by
  unfold cyclicExponent at run ⊢
  dsimp only at run ⊢
  generalize (totient : ℤ).bmod (2 ^ 32) = n at run ⊢
  by_cases zero : n = 0
  · rw [if_pos zero] at run
    cases run
  rw [if_neg zero] at run ⊢
  obtain rfl := Except.ok.inj run
  have sizes : 2 < n ∨ n = 2 ∨ n = 1 ∨ n = -1 ∨ n = -2 ∨ n < -2 := by omega
  rcases sizes with large | rfl | rfl | rfl | rfl | large
  · rw [Int.tmod_eq_of_lt (by norm_num) large]
    exact .inl (show (2 : ℕ) ≤ 2 from le_rfl)
  · exact .inl (by decide)
  · exact .inl (by decide)
  · exact .inr rfl
  · exact .inr rfl
  · rw [← Int.tmod_neg, Int.tmod_eq_of_lt (by norm_num) (by omega)]
    exact .inl (show (2 : ℕ) ≤ 2 from le_rfl)

theorem exponent_of_reduced (pos : 0 < totient) (small : totient < 2 ^ 31) :
    ∃ r, cyclicExponent totient i = .ok r ∧ 1 ≤ r ∧ r ≤ totient ∧ (r : ℤ) ≡ i [ZMOD totient] := by
  have whole : (totient : ℤ).bmod (2 ^ 32) = totient := Int.bmod_eq_of_le_mul_two (by omega) (by omega)
  have other : (totient : ℤ) ≠ 0 := by omega
  have same : i.tmod totient ≡ i [ZMOD totient] := Int.modEq_iff_dvd.mpr (Int.dvd_self_sub_tmod ..)
  have less := Int.tmod_lt_of_pos i (show 0 < (totient : ℤ) by omega)
  have more := Int.lt_tmod_of_pos i (show 0 < (totient : ℤ) by omega)
  unfold cyclicExponent
  dsimp only
  rw [whole, if_neg other]
  generalize i.tmod totient = x at same less more ⊢
  refine ⟨_, rfl, ?_⟩
  split
  · rw [Int.emod_eq_of_lt (by omega) (by omega)]
    refine ⟨by omega, by omega, ?_⟩
    rw [Int.toNat_of_nonneg (by omega)]
    exact Int.ModEq.trans (by simp [Int.ModEq]) same
  · rw [Int.emod_eq_of_lt (by omega) (by omega)]
    refine ⟨by omega, by omega, ?_⟩
    rwa [Int.toNat_of_nonneg (by omega)]

end Exponent

theorem pair_of_totient {m : ℕ} (two : m.totient = 2) : m = 3 ∨ m = 4 ∨ m = 6 := by
  have five : Nat.Coprime 5 m := by
    rw [Nat.Prime.coprime_iff_not_dvd Nat.prime_five]
    intro divides
    have four := Nat.totient_dvd_of_dvd divides
    rw [two] at four
    revert four
    decide
  have square := Nat.ModEq.pow_totient five
  rw [two] at square
  have divides : m ∣ 24 := (Nat.modEq_iff_dvd' (by norm_num)).mp square.symm
  have le : m ≤ 24 := Nat.le_of_dvd (by norm_num) divides
  interval_cases m <;> revert two <;> decide

/-- Every index gives the power of the generator. -/
def PowersOfGenerator (w : NativeSize) (stream : ℕ → ℕ) (position m g : ℕ) (u : (ZMod m)ˣ) : Prop :=
  ∀ i : ℤ, -2 ^ 31 ≤ i → i < 2 ^ 31 →
    ∃ k last, Ends (fun fuel => findAutomorphismIndexCyclic w fuel stream position i m g) (.ok (k, last)) ∧ (k : ZMod m) = ↑(u ^ i)

section Cyclic
variable {w : NativeSize} {stream : ℕ → ℕ} {position m g : ℕ} {u : (ZMod m)ˣ}

theorem cyclic_ended {fuel k last : ℕ} {i : ℤ} (other : i ≠ 0)
    (run : findAutomorphismIndexCyclic w fuel stream position i m g = ended (.ok (k, last))) :
    ∃ totient e, getTotient w fuel stream m position = ended (.ok (totient, last)) ∧ cyclicExponent totient i = .ok e ∧
      k = repeatMul m g (e - 2) g := by
  unfold findAutomorphismIndexCyclic at run
  rw [if_neg other] at run
  rcases bind_ended run with ⟨⟨totient, done⟩, computed, rest⟩ | ⟨e, -, same⟩
  · rcases bind_ended rest with ⟨e, lifted, result⟩ | ⟨e, -, same⟩
    · cases ended_inj.mp result
      exact ⟨totient, e, computed, ended_inj.mp lifted, rfl⟩
    · cases same
  · cases same

/-- All indices see the same totient. -/
theorem PowersOfGenerator.totient (right : PowersOfGenerator w stream position m g u) :
    ∃ totient last steps, getTotient w steps stream m position = ended (.ok (totient, last)) ∧
      ∀ i : ℤ, i ≠ 0 → -2 ^ 31 ≤ i → i < 2 ^ 31 →
        ∃ e, cyclicExponent totient i = .ok e ∧ (repeatMul m g (e - 2) g : ZMod m) = ↑(u ^ i) := by
  obtain ⟨k, last, ⟨steps, run⟩, -⟩ := right 1 (by norm_num) (by norm_num)
  obtain ⟨totient, -, computed, -⟩ := cyclic_ended one_ne_zero (run steps le_rfl)
  refine ⟨totient, last, steps, computed, fun i other low high => ?_⟩
  obtain ⟨k', last', ⟨steps', run'⟩, power⟩ := right i low high
  obtain ⟨totient', e, computed', exponent, rfl⟩ := cyclic_ended other (run' (max steps steps') (le_max_right ..))
  cases ended_inj.mp ((getTotient_extends stream position (le_max_left ..) m _ computed).symm.trans computed')
  exact ⟨e, exponent, power⟩

theorem orderOf_of_generates [NeZero m] (generates : ∀ x, x ∈ Subgroup.zpowers u) : orderOf u = m.totient := by
  rw [orderOf_eq_card_of_forall_mem_zpowers generates, Nat.card_eq_fintype_card, ZMod.card_units_eq_totient]

theorem powersOfGenerator_small (pos : 0 < m) (same : (g : ZMod m) = u) (le : m ≤ 2) : PowersOfGenerator w stream position m g u := by
  have totient : Settles (fun fuel => getTotient w fuel stream m position) (.ok (1, position)) := by
    rcases (show m = 1 ∨ m = 2 by omega) with rfl | rfl
    · exact getTotient_one stream position
    · exact getTotient_power stream position (k := 1) one_pos (by cases w <;> decide)
  have trivial : ∀ x y : (ZMod m)ˣ, x = y := by
    rcases (show m = 1 ∨ m = 2 by omega) with rfl | rfl <;> decide
  intro i _ _
  by_cases zero : i = 0
  · refine ⟨1, position, ⟨0, fun fuel _ => ?_⟩, ?_⟩
    · dsimp only [findAutomorphismIndexCyclic]
      rw [if_pos zero]
      rfl
    · rw [trivial (u ^ i) 1]
      simp
  · refine ⟨g, position, ?_, same.trans (by rw [trivial (u ^ i) u])⟩
    have exponent : cyclicExponent 1 i = .ok 1 := by
      obtain ⟨r, run, low, high, -⟩ := exponent_of_reduced (i := i) one_pos (by norm_num)
      rwa [show r = 1 by omega] at run
    unfold findAutomorphismIndexCyclic
    simp only [if_neg zero]
    apply totient.ends.bind
    simp only [exponent, lift_eq, ok_bind]
    exact (settles_ended _).ends

/-- The loop starts with the third power, so the second index gets the first one. -/
theorem powersOfGenerator_iff (pos : 0 < m) (same : (g : ZMod m) = u) (generates : ∀ x, x ∈ Subgroup.zpowers u) :
    PowersOfGenerator w stream position m g u ↔ m ≤ 2 := by
  refine ⟨fun right => ?_, powersOfGenerator_small pos same⟩
  by_contra large
  have : NeZero m := ⟨by omega⟩
  have order := orderOf_of_generates generates
  have even := Nat.totient_even (not_le.mp large)
  have some : 0 < m.totient := Nat.totient_pos.mpr pos
  obtain ⟨totient, last, steps, computed, powers⟩ := right.totient
  obtain ⟨e, exponent, second⟩ := powers 2 (by norm_num) (by norm_num) (by norm_num)
  by_cases unmultiplied : e ≤ 2
  · rw [show e - 2 = 0 by omega, repeatMul, same] at second
    have one : u = 1 := by
      have cancelled : u * u = u := by simpa [zpow_ofNat, sq] using (Units.ext second).symm
      exact mul_eq_left.mp cancelled
    rw [one, orderOf_one] at order
    rw [← order] at even
    exact absurd even (by decide)
  · have again := (exponent_two exponent).resolve_left unmultiplied
    obtain ⟨e', exponent', fourth⟩ := powers 4 (by norm_num) (by norm_num) (by norm_num)
    cases again.symm.trans exponent'
    have square : u ^ 2 = 1 := by
      have cancelled : u ^ 2 * u ^ 2 = u ^ 2 := by
        rw [← pow_add]
        exact_mod_cast Units.ext (fourth.symm.trans second)
      exact mul_eq_left.mp cancelled
    have divides : m.totient ∣ 2 := order ▸ orderOf_dvd_of_pow_eq_one square
    have le := Nat.le_of_dvd two_pos divides
    have two : m.totient = 2 := by
      rcases even with ⟨h, half⟩
      omega
    cases (getTotient_pair stream position (pair_of_totient two)).only steps _ computed
    have once : cyclicExponent 2 2 = .ok 2 := by decide
    cases once.symm.trans exponent
    exact unmultiplied le_rfl

/-- Where no product leaves the word, the exponent is one less than it should be. -/
theorem cyclic_settled (pos : 0 < m) (small : m ≤ 2 ^ 16) (reduced : g < m) (same : (g : ZMod m) = u)
    (factored : Factorizes w stream position m) {i : ℤ} (other : i ≠ 0) :
    ∃ r k last, 1 ≤ r ∧ r ≤ m.totient ∧ (r : ℤ) ≡ i [ZMOD m.totient] ∧
      Ends (fun fuel => findAutomorphismIndexCyclic w fuel stream position i m g) (.ok (k, last)) ∧
      (k : ZMod m) = ↑(u ^ (r - 2 + 1)) := by
  have wide := w.two_pow_32_le
  have le := Nat.totient_le m
  obtain ⟨last, totient⟩ := getTotient_ends factored pos (by omega)
  obtain ⟨r, exponent, low, high, congruent⟩ := exponent_of_reduced (i := i) (Nat.totient_pos.mpr pos) (by omega)
  have room : ∀ x < m, x * g % 2 ^ 32 ≡ x * g [MOD m] := by
    intro x hx
    rw [Nat.mod_eq_of_lt]
    calc x * g < 2 ^ 16 * 2 ^ 16 := Nat.mul_lt_mul'' (by omega) (by omega)
      _ = 2 ^ 32 := by norm_num
  refine ⟨r, repeatMul m g (r - 2) g, last, low, high, congruent, ?_, ?_⟩
  · unfold findAutomorphismIndexCyclic
    simp only [if_neg other]
    apply totient.bind
    simp only [exponent, lift_eq, ok_bind]
    exact (settles_ended _).ends
  · rw [repeatMul_eq room pos reduced, ZMod.natCast_mod, ← pow_succ']
    push_cast
    rw [same]

theorem cyclic_index_iff (pos : 0 < m) (same : (g : ZMod m) = u) (generates : ∀ x, x ∈ Subgroup.zpowers u) (reduced : g < m)
    (small : m ≤ 2 ^ 16) (factored : Factorizes w stream position m) (i : ℤ) :
    (∃ k last, Ends (fun fuel => findAutomorphismIndexCyclic w fuel stream position i m g) (.ok (k, last)) ∧
      (k : ZMod m) = ↑(u ^ i)) ↔ i = 0 ∨ i ≡ 1 [ZMOD m.totient] := by
  have : NeZero m := ⟨pos.ne'⟩
  by_cases zero : i = 0
  · refine ⟨fun _ => .inl zero, fun _ => ⟨1, position, ⟨0, fun fuel _ => ?_⟩, by simp [zero]⟩⟩
    dsimp only [findAutomorphismIndexCyclic]
    rw [if_pos zero]
    rfl
  obtain ⟨r, k, last, low, high, congruent, ends, power⟩ := cyclic_settled pos small reduced same factored zero
  have order := orderOf_of_generates generates
  have reading : (k : ZMod m) = ↑(u ^ i) ↔ ((r - 2 + 1 : ℕ) : ℤ) ≡ i [ZMOD m.totient] := by
    rw [power, Units.val_inj, ← zpow_natCast, zpow_eq_zpow_iff_modEq, order]
  have steps : ((r - 2 + 1 : ℕ) : ℤ) ≡ i [ZMOD m.totient] ↔ i ≡ 1 [ZMOD m.totient] := by
    rcases low.eq_or_lt with rfl | more
    · exact ⟨fun _ => congruent.symm, fun one => one.symm⟩
    · constructor
      · intro less
        have divides := (less.trans congruent.symm).dvd
        have := Int.le_of_dvd (by omega) divides
        omega
      · intro one
        have divides := (one.symm.trans congruent.symm).dvd
        have := Int.le_of_dvd (by omega) divides
        omega
  rw [or_iff_right zero, ← steps, ← reading]
  constructor
  · rintro ⟨k', last', ends', right⟩
    cases ends.unique ends'
    exact right
  · exact fun right => ⟨k, last, ends, right⟩

theorem findAutomorphismIndexCyclic_extends {fuel more : ℕ} (le : fuel ≤ more) (stream : ℕ → ℕ) (position : ℕ) (i : ℤ) (m g : ℕ) :
    Extends (findAutomorphismIndexCyclic w fuel stream position i m g) (findAutomorphismIndexCyclic w more stream position i m g) := by
  apply Extends.ite (.refl _)
  apply (getTotient_extends stream position le m).bind
  exact fun _ => .refl _

end Cyclic

theorem automorphism_indices (w : NativeSize) (stream : ℕ → ℕ) (position : ℕ) :
    (∀ k, 3 ≤ k → k < 32 → (RotatesAndInverts w stream position (2 ^ k) ↔ 2 * 2 ^ k < 2 ^ w.bits)) ∧
    ∀ (m g : ℕ) (u : (ZMod m)ˣ), 0 < m → (g : ZMod m) = u → (∀ x, x ∈ Subgroup.zpowers u) →
      (PowersOfGenerator w stream position m g u ↔ m ≤ 2) ∧
      (g < m → m ≤ 2 ^ 16 → Factorizes w stream position m → ∀ i : ℤ,
        (∃ k last, Ends (fun fuel => findAutomorphismIndexCyclic w fuel stream position i m g) (.ok (k, last)) ∧
          (k : ZMod m) = ↑(u ^ i)) ↔ i = 0 ∨ i ≡ 1 [ZMOD m.totient]) := by
  constructor
  · intro k large word
    exact rotatesAndInverts_iff stream position large word
  · intro m g u pos same generates
    constructor
    · exact powersOfGenerator_iff pos same generates
    · intro reduced small factored i
      exact cyclic_index_iff pos same generates reduced small factored i

/-- Three, as a unit modulo seven. -/
def three : (ZMod 7)ˣ := ZMod.unitOfCoprime 3 (by decide)

theorem three_generates (x : (ZMod 7)ˣ) : x ∈ Subgroup.zpowers three := by
  have listed : ∀ x : (ZMod 7)ˣ, ∃ n : Fin 6, three ^ (n : ℕ) = x := by decide +kernel
  obtain ⟨n, power⟩ := listed x
  exact ⟨n, by exact_mod_cast power⟩

theorem automorphism_indices_small : RotatesAndInverts .w64 id 0 8 ∧ PowersOfGenerator .w64 id 0 2 1 1 ∧
    ∃ k last, Ends (fun fuel => findAutomorphismIndexCyclic .w64 fuel id 0 (-5) 7 3) (.ok (k, last)) ∧ (k : ZMod 7) = ↑(three ^ (-5 : ℤ)) := by
  have factored : Factorizes .w64 id 0 7 := by
    have run : (primeFactorize (.native .w64) id 20 7 [] 0).run = some (.ok ([7], 100)) := by decide +kernel
    exact ⟨20, [7], 100, run, adds_prime (by decide) []⟩
  have units : ∀ x : (ZMod 2)ˣ, (1 : (ZMod 2)ˣ) ^ (0 : ℤ) = x := by decide
  refine ⟨((automorphism_indices .w64 id 0).1 3 le_rfl (by norm_num)).mpr (by decide), ?_, ?_⟩
  · exact ((automorphism_indices .w64 id 0).2 2 1 1 two_pos (by simp) fun x => ⟨0, units x⟩).1.mpr le_rfl
  · exact (((automorphism_indices .w64 id 0).2 7 3 three (by norm_num) rfl three_generates).2 (by norm_num) (by norm_num) factored (-5)).mpr
      (.inr (by decide))

/-- The second power of three modulo seven is two, but the index is three again. -/
theorem second_index_of_three : ¬ PowersOfGenerator .w64 id 0 7 3 three := by
  intro right
  have run : (findAutomorphismIndexCyclic .w64 20 id 0 2 7 3).run = some (.ok (3, 100)) := by decide +kernel
  obtain ⟨k, last, ⟨steps, ends⟩, power⟩ := right 2 (by norm_num) (by norm_num)
  have here := findAutomorphismIndexCyclic_extends (le_max_left 20 steps) id 0 2 7 3 _ run
  cases ended_inj.mp (here.symm.trans (ends _ (le_max_right 20 steps)))
  revert power
  decide

end MultiKeyFHE.NbTheory
