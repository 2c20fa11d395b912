import MultiKeyFHE.Library.Fuel
import MultiKeyFHE.NumberTheory.IntType
import Mathlib.FieldTheory.Finite.Basic
import Mathlib.Algebra.Order.Ring.Star
import Mathlib.Algebra.Ring.Parity
import Mathlib.Data.Nat.Factorization.Basic

/-!
# The primality test

`MillerRabinPrimalityTest` takes its bases from a stream of draws, from a position that it moves. Each base goes through
squarings that remember whether the last value was a root of one.
-/

namespace MultiKeyFHE.NbTheory
open Fuel
variable {α : Type} (I : IntType α)

/-- `mod != IntType(1) && mod != p - IntType(1)`. -/
def noRootOfOne (p mod : α) : Except Fault Bool := do
  if ← I.ne mod (I.ofUint64 1) then I.ne mod (← I.sub p (I.ofUint64 1)) else return false

/-- The squarings of `WitnessFunction` that are left, and its last comparison. -/
def witnessLoop (p : α) : ℕ → α → Except Fault Bool
  | 0, mod => I.ne mod (I.ofUint64 1)
  | i + 1, mod => do
    let prevMod ← noRootOfOne I p mod
    let mod ← I.modMulFast mod mod p
    if (← I.eq mod (I.ofUint64 1)) && prevMod then return true
    else witnessLoop p i mod

def witnessFunction (a d : α) (s : ℕ) (p : α) : Except Fault Bool := do
  let mod ← I.modExp a d p
  witnessLoop I p s mod

/-- `while (d.Mod(TWO) == ZERO)`, with the count of its passes. -/
def halvePass (state : α × ℕ) : Attempt Fault (α × ℕ ⊕ α × ℕ) := do
  if ← I.eq (← I.mod state.1 (I.ofUint64 2)) (I.ofUint64 0) then
    let d ← I.rShiftEq state.1 1
    return .inl (d, state.2 + 1)
  else return .inr state

/-- The bases that are left, with the position in the stream. -/
def testBases (stream : ℕ → ℕ) (p d : α) (s : ℕ) : ℕ → ℕ → Except Fault (Bool × ℕ)
  | 0, position => .ok (true, position)
  | niter + 1, position => do
    let drawn := I.rng (stream position) (← I.sub p (I.ofUint64 3))
    let a ← I.modAdd drawn (I.ofUint64 2) p
    if ← witnessFunction I a d s p then return (false, position + 1)
    else testBases stream p d s niter (position + 1)

/-- `p == TWO || p == THREE || p == FIVE`. -/
def smallPrime (p : α) : Except Fault Bool := do
  if ← I.eq p (I.ofUint64 2) then return true
  if ← I.eq p (I.ofUint64 3) then return true
  I.eq p (I.ofUint64 5)

/-- `p < TWO || (p.Mod(TWO) == ZERO)`. -/
def smallOrEven (p : α) : Except Fault Bool := do
  if ← I.lt p (I.ofUint64 2) then return true
  I.eq (← I.mod p (I.ofUint64 2)) (I.ofUint64 0)

def millerRabinPrimalityTest (fuel : ℕ) (p : α) (niter : ℕ) (stream : ℕ → ℕ) (position : ℕ) : Attempt Fault (Bool × ℕ) := do
  if ← smallPrime I p then return (true, position)
  else if ← smallOrEven I p then return (false, position)
  else
    let d ← I.sub p (I.ofUint64 1)
    let (d, s) ← loop (halvePass I) fuel (d, 0)
    testBases I stream p d s niter position

theorem millerRabin_extends {I : IntType α} {fuel more : ℕ} (le : fuel ≤ more) (p : α) (niter : ℕ) (stream : ℕ → ℕ)
    (position : ℕ) : Extends (millerRabinPrimalityTest I fuel p niter stream position)
      (millerRabinPrimalityTest I more p niter stream position) := by
  apply (Extends.refl _).bind
  intro small
  apply (Extends.refl _).ite
  apply (Extends.refl _).bind
  intro even
  apply (Extends.refl _).ite
  apply (Extends.refl _).bind
  intro d
  apply (loop_extends (fun _ => .refl _) le _).bind
  exact fun _ => .refl _

/-! ### Square roots of one -/

theorem root_of_square {p x : ℕ} (prime : p.Prime) (hx : x < p) (square : x * x % p = 1) : x = 1 ∨ x = p - 1 := by
  have large := prime.two_le
  have pos : 1 ≤ x * x := by
    by_contra none
    rw [show x * x = 0 by omega, Nat.zero_mod] at square
    omega
  have some : 1 ≤ x := Nat.pos_of_ne_zero fun zero => by simp [zero] at pos
  have residue : 1 ≡ x * x [MOD p] := by rw [Nat.ModEq, square, Nat.mod_eq_of_lt (by omega)]
  have divides : p ∣ (x + 1) * (x - 1) := by
    rw [← Nat.mul_self_sub_mul_self_eq]
    exact (Nat.modEq_iff_dvd' pos).mp residue
  rcases prime.dvd_mul.mp divides with above | below
  · have := Nat.le_of_dvd (by omega) above
    omega
  · rcases Nat.eq_zero_or_pos (x - 1) with none | more
    · omega
    · have := Nat.le_of_dvd more below
      omega

variable {I} {rep : ℕ → α} {fits : ℕ → Prop} (laws : I.Lawful rep fits) {p a d x i s n : ℕ}
include laws

section Modulo
variable (modular : I.Modular rep fits p) (two : 2 ≤ p)
include modular two

theorem noRootOfOne_eq (hx : x < p) : noRootOfOne I (rep p) (rep x) = .ok (decide (x ≠ 1 ∧ x ≠ p - 1)) := by
  have hp := modular.modulus
  have fitsX : fits x := laws.below hx.le hp
  unfold noRootOfOne
  rw [laws.ofOne, laws.ne fitsX laws.one, laws.sub (show 1 ≤ p by omega) hp]
  dsimp only [bind, Except.bind]
  rw [laws.ne fitsX (laws.below (Nat.sub_le p 1) hp)]
  by_cases one : x = 1 <;> simp [one, pure, Except.pure]

theorem witnessLoop_step (hx : x < p) : witnessLoop I (rep p) (i + 1) (rep x) =
    if x * x % p = 1 ∧ x ≠ 1 ∧ x ≠ p - 1 then .ok true else witnessLoop I (rep p) i (rep (x * x % p)) := by
  have square : fits (x * x % p) := laws.below (Nat.mod_lt (x * x) (show 0 < p by omega)).le modular.modulus
  rw [witnessLoop, noRootOfOne_eq laws modular two hx, modular.modMulFast hx hx]
  dsimp only [bind, Except.bind]
  rw [laws.ofOne, laws.eq square laws.one]
  by_cases root : x * x % p = 1 ∧ x ≠ 1 ∧ x ≠ p - 1
  · simp [root, pure, Except.pure]
  · rw [if_neg root]
    by_cases one : x * x % p = 1
    · have trivially : ¬ (x ≠ 1 ∧ x ≠ p - 1) := fun both => root ⟨one, both⟩
      simp only [decide_eq_false trivially, Bool.and_false, Bool.false_eq_true, if_false]
    · simp only [decide_eq_false one, Bool.false_and, Bool.false_eq_true, if_false]

theorem witnessLoop_ok (s : ℕ) (hx : x < p) : ∃ b, witnessLoop I (rep p) s (rep x) = .ok b := by
  induction s generalizing x with
  | zero =>
    rw [witnessLoop, laws.ofOne, laws.ne (laws.below hx.le modular.modulus) laws.one]
    exact ⟨_, rfl⟩
  | succ s ih =>
    rw [witnessLoop_step laws modular two hx]
    split
    · exact ⟨true, rfl⟩
    · exact ih (Nat.mod_lt _ (by omega))

theorem witnessLoop_prime (prime : p.Prime) (s : ℕ) (hx : x < p) (one : x ^ 2 ^ s ≡ 1 [MOD p]) :
    witnessLoop I (rep p) s (rep x) = .ok false := by
  induction s generalizing x with
  | zero =>
    have value : x = 1 := by
      rw [pow_zero, pow_one] at one
      exact Nat.ModEq.eq_of_lt_of_lt one hx two
    rw [witnessLoop, laws.ofOne, value, laws.ne laws.one laws.one]
    rfl
  | succ s ih =>
    rw [witnessLoop_step laws modular two hx, if_neg]
    · apply ih (Nat.mod_lt _ (by omega))
      rw [pow_succ', pow_mul, sq] at one
      exact ((Nat.mod_modEq (x * x) p).pow _).trans one
    · rintro ⟨square, notOne, notMinusOne⟩
      rcases root_of_square prime hx square with h | h
      · exact notOne h
      · exact notMinusOne h

theorem witnessFunction_ok (ha : a < p) (hd : fits d) (s : ℕ) : ∃ b, witnessFunction I (rep a) (rep d) s (rep p) = .ok b := by
  unfold witnessFunction
  rw [modular.modExp (laws.below ha.le modular.modulus) hd]
  exact witnessLoop_ok laws modular two s (Nat.mod_lt _ (by omega))

theorem witnessFunction_prime (prime : p.Prime) (ha : a < p) (some : 0 < a) (hd : fits d) (split : p - 1 = 2 ^ s * d) :
    witnessFunction I (rep a) (rep d) s (rep p) = .ok false := by
  unfold witnessFunction
  rw [modular.modExp (laws.below ha.le modular.modulus) hd]
  apply witnessLoop_prime laws modular two prime s (Nat.mod_lt _ (by omega))
  have coprime : a.Coprime p := (Nat.coprime_of_lt_prime some.ne' ha prime).symm
  have fermat := Nat.ModEq.pow_totient coprime
  rw [Nat.totient_prime prime, split, Nat.mul_comm, pow_mul] at fermat
  exact ((Nat.mod_modEq (a ^ d) p).pow _).trans fermat

variable (six : 6 ≤ p) (hd : fits d) (stream : ℕ → ℕ) (niter position : ℕ)
include six hd

omit two hd in
theorem testBases_succ : testBases I stream (rep p) (rep d) s (niter + 1) position = (do
    if ← witnessFunction I (rep (stream position % (p - 3) + 2)) (rep d) s (rep p) then return (false, position + 1)
    else testBases I stream (rep p) (rep d) s niter (position + 1)) := by
  have hp := modular.modulus
  have drawn := Nat.mod_lt (stream position) (show 0 < p - 3 by omega)
  rw [testBases, laws.ofWord (by norm_num), laws.ofWord (by norm_num), laws.sub (show 3 ≤ p by omega) hp]
  dsimp only [bind, Except.bind]
  rw [laws.rng _ (show 0 < p - 3 by omega) (laws.below (Nat.sub_le ..) hp), modular.modAdd (by omega)]

theorem testBases_ok : ∃ b last, testBases I stream (rep p) (rep d) s niter position = .ok (b, last) := by
  induction niter generalizing position with
  | zero => exact ⟨true, position, rfl⟩
  | succ niter ih =>
    have drawn := Nat.mod_lt (stream position) (show 0 < p - 3 by omega)
    obtain ⟨b, answer⟩ := witnessFunction_ok laws modular two (a := stream position % (p - 3) + 2) (by omega) hd s
    rw [testBases_succ laws modular six, answer]
    cases b with
    | true => exact ⟨false, position + 1, rfl⟩
    | false => exact ih (position + 1)

theorem testBases_prime (prime : p.Prime) (split : p - 1 = 2 ^ s * d) :
    testBases I stream (rep p) (rep d) s niter position = .ok (true, position + niter) := by
  induction niter generalizing position with
  | zero => rfl
  | succ niter ih =>
    have drawn := Nat.mod_lt (stream position) (show 0 < p - 3 by omega)
    have answer := witnessFunction_prime laws modular two prime (a := stream position % (p - 3) + 2) (by omega) (by omega) hd split
    rw [testBases_succ laws modular six, answer]
    have rest := ih (position + 1)
    rw [Nat.add_right_comm] at rest
    exact rest

end Modulo

/-! ### The whole test -/

theorem halvePass_eq (hx : fits x) :
    halvePass I (rep x, s) = ended (.ok (if x % 2 = 0 then .inl (rep (x / 2), s + 1) else .inr (rep x, s))) := by
  have bit : fits (x % 2) := laws.below (Nat.mod_lt x two_pos).le laws.two
  unfold halvePass
  rw [laws.ofTwo, laws.ofZero, laws.mod two_pos hx laws.two]
  simp only [lift_eq, ok_bind, laws.eq bit laws.zero, decide_eq_true_eq]
  by_cases even : x % 2 = 0
  · simp only [even, if_true, laws.halve hx, ok_bind, pure_eq]
  · simp only [even, if_false, pure_eq]

theorem halve_settles (odd : d % 2 = 1) (hn : fits (2 ^ s * d)) :
    Settles (fun fuel => loop (halvePass I) fuel (rep (2 ^ s * d), 0)) (.ok (rep d, s)) := by
  have fitsAt : ∀ i, fits (2 ^ (s - i) * d) := fun i =>
    laws.below (Nat.mul_le_mul_right d (Nat.pow_le_pow_right two_pos (Nat.sub_le s i))) hn
  apply loop_steps _ (fun i => (rep (2 ^ (s - i) * d), i)) (n := s)
  · intro i less
    have even : 2 ^ (s - i) * d = 2 * (2 ^ (s - (i + 1)) * d) := by
      rw [← mul_assoc, ← pow_succ']
      congr 2
      omega
    rw [halvePass_eq laws (fitsAt i), even, Nat.mul_mod_right, if_pos rfl, Nat.mul_div_cancel_left _ two_pos]
  · have whole : 2 ^ (s - s) * d = d := by rw [Nat.sub_self, pow_zero, one_mul]
    have last := fitsAt s
    rw [whole] at last
    rw [whole, halvePass_eq laws last, if_neg (by omega)]
    rfl

theorem smallPrime_eq (hp : fits p) : smallPrime I (rep p) = .ok (decide (p = 2 ∨ p = 3 ∨ p = 5)) := by
  unfold smallPrime
  rw [laws.ofWord (by norm_num), laws.ofWord (by norm_num), laws.ofWord (by norm_num), laws.eq hp (laws.words (by norm_num)),
    laws.eq hp (laws.words (by norm_num)), laws.eq hp (laws.words (by norm_num))]
  by_cases h2 : p = 2 <;> by_cases h3 : p = 3 <;> simp [h2, h3, bind, Except.bind, pure, Except.pure]

theorem smallOrEven_eq (hp : fits p) : smallOrEven I (rep p) = .ok (decide (p < 2 ∨ p % 2 = 0)) := by
  unfold smallOrEven
  rw [laws.ofTwo, laws.ofZero, laws.lt hp laws.two, laws.mod two_pos hp laws.two]
  dsimp only [bind, Except.bind]
  rw [laws.eq (laws.below (Nat.mod_lt p two_pos).le laws.two) laws.zero]
  by_cases small : p < 2 <;> simp [small, pure, Except.pure]

section Test
variable (modular : I.Modular rep fits p) (niter : ℕ) (stream : ℕ → ℕ) (position : ℕ)
include modular

theorem test_settles (apart : ¬ (p = 2 ∨ p = 3 ∨ p = 5)) (large : ¬ (p < 2 ∨ p % 2 = 0)) (odd : d % 2 = 1)
    (split : p - 1 = 2 ^ s * d) {r : Bool × ℕ} (tested : testBases I stream (rep p) (rep d) s niter position = .ok r) :
    Settles (fun fuel => millerRabinPrimalityTest I fuel (rep p) niter stream position) (.ok r) := by
  have hp := modular.modulus
  have before : fits (p - 1) := laws.below (Nat.sub_le ..) hp
  unfold millerRabinPrimalityTest
  simp only [smallPrime_eq laws hp, smallOrEven_eq laws hp, decide_eq_false apart, decide_eq_false large, lift_eq, ok_bind,
    Bool.false_eq_true, if_false, laws.ofOne, laws.sub (show 1 ≤ p by omega) hp]
  rw [split] at before ⊢
  apply (halve_settles laws odd before).bind
  simp only [tested]
  exact settles_ended _

theorem test_small (small : p = 2 ∨ p = 3 ∨ p = 5) :
    Settles (fun fuel => millerRabinPrimalityTest I fuel (rep p) niter stream position) (.ok (true, position)) := by
  unfold millerRabinPrimalityTest
  simp only [smallPrime_eq laws modular.modulus, decide_eq_true small, lift_eq, ok_bind, if_true]
  exact settles_ended _

theorem test_even (apart : ¬ (p = 2 ∨ p = 3 ∨ p = 5)) (even : p < 2 ∨ p % 2 = 0) :
    Settles (fun fuel => millerRabinPrimalityTest I fuel (rep p) niter stream position) (.ok (false, position)) := by
  unfold millerRabinPrimalityTest
  simp only [smallPrime_eq laws modular.modulus, smallOrEven_eq laws modular.modulus, decide_eq_false apart,
    decide_eq_true even, lift_eq, ok_bind, Bool.false_eq_true, if_false, if_true]
  exact settles_ended _

omit laws modular in
theorem decompose (large : ¬ (p < 2 ∨ p % 2 = 0)) : ∃ s d, d % 2 = 1 ∧ p - 1 = 2 ^ s * d ∧ d ≤ p := by
  obtain ⟨s, d, odd, split⟩ := Nat.exists_eq_two_pow_mul_odd (show p - 1 ≠ 0 by omega)
  have part : d ≤ 2 ^ s * d := Nat.le_mul_of_pos_left d (by positivity)
  exact ⟨s, d, Nat.odd_iff.mp odd, split, by omega⟩

theorem millerRabin_settles : ∃ r, Settles (fun fuel => millerRabinPrimalityTest I fuel (rep p) niter stream position) (.ok r) := by
  by_cases small : p = 2 ∨ p = 3 ∨ p = 5
  · exact ⟨_, test_small laws modular niter stream position small⟩
  by_cases even : p < 2 ∨ p % 2 = 0
  · exact ⟨_, test_even laws modular niter stream position small even⟩
  obtain ⟨s, d, odd, split, part⟩ := decompose even
  have hd : fits d := laws.below part modular.modulus
  obtain ⟨b, last, tested⟩ := testBases_ok laws modular (s := s) (by omega) (by omega) hd stream niter position
  exact ⟨_, test_settles laws modular niter stream position small even odd split tested⟩

theorem millerRabin_prime (prime : p.Prime) : ∃ last,
    Settles (fun fuel => millerRabinPrimalityTest I fuel (rep p) niter stream position) (.ok (true, last)) := by
  by_cases small : p = 2 ∨ p = 3 ∨ p = 5
  · exact ⟨_, test_small laws modular niter stream position small⟩
  have two := prime.two_le
  have even : ¬ (p < 2 ∨ p % 2 = 0) := by
    rintro (less | even)
    · omega
    · have := (Nat.prime_dvd_prime_iff_eq Nat.prime_two prime).mp (Nat.dvd_of_mod_eq_zero even)
      omega
  obtain ⟨s, d, odd, split, part⟩ := decompose even
  have hd : fits d := laws.below part modular.modulus
  have tested := testBases_prime laws modular two (by omega) hd stream niter position prime split
  exact ⟨_, test_settles laws modular niter stream position small even odd split tested⟩

end Test
end MultiKeyFHE.NbTheory
