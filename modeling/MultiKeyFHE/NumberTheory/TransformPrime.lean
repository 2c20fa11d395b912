import MultiKeyFHE.NumberTheory.AutomorphismIndex
import MultiKeyFHE.NumberTheory.PrimeSearch
import MultiKeyFHE.NumberTheory.RootOfUnity
import Mathlib.Data.List.Prime
import Mathlib.NumberTheory.LegendreSymbol.Basic

/-!
# The prime and the root of a transform

What `FirstPrime` and `RootOfUnity` return for a power of two. Neither needs a primality test that is right: the prime is
long enough and has the residue one, and two is a factor in every factorization, so the root has its whole order.
-/

namespace MultiKeyFHE.NbTheory
open Fuel ResidueOrder

/-! ### The prime -/

section First
variable {w : NativeSize} {isPrime : ℕ → Bool} {fuel nBits k p : ℕ}

theorem climbPass_keeps {m qNew next : ℕ} {msg : String} (divides : m ∣ 2 ^ w.bits) (word : qNew < 2 ^ w.bits)
    (once : climbPass (.native w) isPrime m id msg qNew = ended (.ok (.inl next))) :
    next < 2 ^ w.bits ∧ qNew ≤ next ∧ next ≡ qNew [MOD m] := by
  have fits : (IntType.native w).add qNew m < 2 ^ w.bits := Nat.mod_lt _ (by positivity)
  have residue : (IntType.native w).add qNew m ≡ qNew [MOD m] :=
    ((Nat.mod_modEq _ _).of_dvd divides).trans Nat.add_modEq_right
  have compared := (IntType.native_lawful w).lt fits word
  unfold climbPass at once
  split at once
  · cases ended_inj.mp once
  · simp only [id] at compared once
    rw [compared, lift_eq, ok_bind] at once
    split at once
    · cases ended_inj.mp once
    · rename_i above
      cases ended_inj.mp once
      exact ⟨fits, not_lt.mp (by simpa using above), residue⟩

theorem firstPrime_returned {m : ℕ} (run : firstPrime (.native w) isPrime fuel nBits m = ended (.ok p)) :
    nBits ≤ w.maxModulusSize ∧ firstPrimeFrom (.native w) isPrime fuel nBits m = ended (.ok p) := by
  unfold firstPrime at run
  obtain ⟨⟨⟩, allowed, rest⟩ := bind_returned run
  constructor
  · by_contra long
    have refused : (IntType.native w).requestedBits nBits = .error _ := if_pos (not_le.mp long)
    rw [refused] at allowed
    cases lift_returned allowed
  · -- The handler only throws.
    generalize firstPrimeFrom (.native w) isPrime fuel nBits m = search at rest
    match search with
    | none => cases rest
    | some (.ok a) => exact rest
    | some (.error e) => cases rest

theorem firstPrime_chosen (le : k ≤ nBits) (run : firstPrime (.native w) isPrime fuel nBits (2 ^ k) = ended (.ok p)) :
    nBits ≤ w.maxModulusSize ∧ 2 ^ nBits < p ∧ p ≡ 1 [MOD 2 ^ k] := by
  obtain ⟨short, searched⟩ := firstPrime_returned run
  refine ⟨short, ?_⟩
  have bits := w.bits_eq
  have power : 2 ^ nBits * 2 ≤ 2 ^ w.bits := by
    rw [← pow_succ]
    exact Nat.pow_le_pow_right two_pos (by omega)
  have positive : 0 < 2 ^ nBits := by positivity
  have more : 2 < 2 ^ w.bits := by cases w <;> decide
  have dim : 2 ^ k ≤ 2 ^ nBits := Nat.pow_le_pow_right two_pos le
  have remainder : 2 ^ nBits % 2 ^ k = 0 := Nat.mod_eq_zero_of_dvd (pow_dvd_pow 2 le)
  have first : firstCandidate nBits (2 ^ k) = 2 ^ nBits + 1 := by simp [firstCandidate, remainder]
  have room : 2 ^ nBits + 1 < 2 ^ w.bits := by omega
  have looped : ∀ fuel, firstPrimeFrom (.native w) isPrime fuel nBits (2 ^ k) = _ :=
    firstPrimeFrom_loop (IntType.native_lawful w) (short.trans_lt (by cases w <;> decide)) (show 0 < 2 ^ k by positivity)
      ((show 2 ^ k < 2 ^ w.bits by omega).trans_le (word_le w)) (by omega) room (by rwa [first])
  rw [looped, first] at searched
  refine loop_ended _ (fun q => q < 2 ^ w.bits ∧ 2 ^ nBits < q ∧ q ≡ 1 [MOD 2 ^ k])
    (P := fun r => ∀ p, r = .ok p → 2 ^ nBits < p ∧ p ≡ 1 [MOD 2 ^ k]) ?_ ?_ ?_ ⟨room, Nat.lt_succ_self _, ?_⟩ searched p rfl
  · rintro q next ⟨word, above, residue⟩ once
    obtain ⟨word', le, residue'⟩ := climbPass_keeps (pow_dvd_pow 2 (by omega)) word once
    exact ⟨word', above.trans_le le, residue'.trans residue⟩
  · rintro q r ⟨-, above, residue⟩ once p same
    cases same
    unfold climbPass at once
    split at once
    · cases ended_inj.mp once
      exact ⟨above, residue⟩
    · obtain ⟨less, -, rest⟩ := bind_returned once
      split at rest
      · cases ended_inj.mp rest
      · cases ended_inj.mp rest
  · rintro q e - - p failed
    cases failed
  · rw [Nat.ModEq, Nat.add_mod, remainder, zero_add, Nat.mod_mod]

end First

/-! ### The root -/

theorem primeFactorize_keeps {α : Type} [DecidableEq α] {I : IntType α} {stream : ℕ → ℕ} {fuel position last : ℕ} {n : α}
    {before after : List α} (run : primeFactorize I stream fuel n before position = ended (.ok (after, last))) :
    before ⊆ after := by
  induction fuel generalizing n before after position last with
  | zero => exact absurd run (exhausted_ne _)
  | succ fuel ih =>
    unfold primeFactorize at run
    obtain ⟨small, -, rest⟩ := bind_returned run
    split at rest
    · cases ended_inj.mp rest
      exact List.Subset.refl _
    obtain ⟨⟨prime, tested⟩, -, rest⟩ := bind_returned rest
    dsimp only at rest
    split at rest
    · cases ended_inj.mp rest
      exact fun x member => List.mem_insert_of_mem member
    obtain ⟨⟨divisor, found⟩, -, rest⟩ := bind_returned rest
    obtain ⟨⟨between, done⟩, first, rest⟩ := bind_returned rest
    obtain ⟨cofactor, -, second⟩ := bind_returned rest
    exact fun x member => ih second (ih first member)

theorem countFactors_whole {α : Type} {I : IntType α} {gen qm1 q it : α} {list : List α} {cnt : ℕ}
    (run : countFactors I gen qm1 q list = .ok cnt) (whole : cnt = list.length) (member : it ∈ list) :
    ∃ e x, I.dividedBy qm1 it = .ok e ∧ I.modExp gen e q = .ok x ∧ I.eq x (I.ofUint64 1) = .ok false := by
  induction list generalizing cnt with
  | nil => cases member
  | cons first rest ih =>
    unfold countFactors at run
    obtain ⟨e, divided, run⟩ := Run.bind_ok run
    obtain ⟨x, power, run⟩ := Run.bind_ok run
    obtain ⟨period, compared, run⟩ := Run.bind_ok run
    cases period with
    | true =>
      cases run
      cases whole
    | false =>
      obtain ⟨count, counted, run⟩ := Run.bind_ok run
      cases run
      rcases List.mem_cons.mp member with rfl | member
      · exact ⟨e, x, divided, power, compared⟩
      · exact ih counted (Nat.succ.inj whole) member

section Root
variable {w : NativeSize} {stream : ℕ → ℕ} {fuel position last : ℕ}

theorem two_mem_factors {n : ℕ} {before after : List ℕ} (even : n % 2 = 0) (pos : 0 < n) (word : n < 2 ^ w.bits)
    (run : primeFactorize (.native w) stream fuel n before position = ended (.ok (after, last))) : 2 ∈ after := by
  rcases Nat.lt_or_ge 2 n with large | small
  · have laws := IntType.native_lawful w
    cases fuel with
    | zero => exact absurd run (exhausted_ne _)
    | succ fuel =>
      have more := zeroOrOne_eq laws word
      rw [decide_eq_false (by omega)] at more
      have tested := test_even laws (IntType.native_modular (by omega) word) defaultIterations stream position
        (show ¬ (n = 2 ∨ n = 3 ∨ n = 5) by omega) (.inr even)
      dsimp only [id] at more tested
      unfold primeFactorize at run
      simp only [more, lift_eq, ok_bind, Bool.false_eq_true, if_false] at run
      obtain ⟨answer, test, rest⟩ := bind_returned run
      cases tested.only fuel _ test
      simp only [Bool.false_eq_true, if_false, split_even stream position even word, ok_bind] at rest
      obtain ⟨⟨between, done⟩, first, rest⟩ := bind_returned rest
      obtain ⟨cofactor, -, second⟩ := bind_returned rest
      cases (factorize_small stream position (.inl rfl) before).only fuel _ first
      exact primeFactorize_keeps second List.mem_insert_self
  · obtain rfl : n = 2 := by omega
    cases (factorize_small stream position (.inl rfl) before).only fuel _ run
    exact List.mem_insert_self

variable {p : ℕ} (prime : p.Prime) (large : 2 < p) (word : p < 2 ^ w.bits)
include prime large word

theorem findGenerator_returned {gen : ℕ} (run : findGenerator (.native w) fuel p stream position = ended (.ok (gen, last))) :
    gen < p ∧ (gen : ZMod p) ^ ((p - 1) / 2) = -1 := by
  have : Fact p.Prime := ⟨prime⟩
  have laws := IntType.native_lawful w
  have odd : p % 2 = 1 := (prime.eq_two_or_odd).resolve_left (by omega)
  have less := laws.sub (x := p) (y := 1) (by omega) word
  have least := laws.sub (x := p) (y := 2) (by omega) word
  unfold findGenerator at run
  rw [laws.ofOne, laws.ofTwo] at run
  dsimp only [id] at less least run
  simp only [less, least, lift_eq, ok_bind] at run
  obtain ⟨⟨primeFactors, start⟩, factored, rest⟩ := bind_returned run
  have two := two_mem_factors (w := w) (show (p - 1) % 2 = 0 by omega) (by omega) (by omega) factored
  refine loop_ended _ (fun _ => True) (P := fun r => ∀ gen last, r = .ok (gen, last) →
    gen < p ∧ (gen : ZMod p) ^ ((p - 1) / 2) = -1) ?_ ?_ ?_ trivial rest gen last rfl
  · intros
    trivial
  · rintro k r - once gen last same
    cases same
    unfold generatorPass at once
    obtain ⟨cnt, counted, rest⟩ := bind_returned once
    split at rest
    · cases ended_inj.mp rest
    · rename_i whole
      cases ended_inj.mp rest
      have drawn : (IntType.native w).add ((IntType.native w).rng (stream k) (p - 2)) 1 = stream k % (p - 2) + 1 := by
        have below := Nat.mod_lt (stream k) (show 0 < p - 2 by omega)
        have draw := laws.rng (stream k) (m := p - 2) (by omega) (by omega)
        have sum := laws.add (x := stream k % (p - 2)) (y := 1) (by omega)
        dsimp only [id] at draw sum
        rw [draw, sum]
      have drawnLt : stream k % (p - 2) + 1 < p := by
        have below := Nat.mod_lt (stream k) (show 0 < p - 2 by omega)
        omega
      rw [laws.ofOne, id, drawn] at counted ⊢
      obtain ⟨e, x, divided, power, compared⟩ := countFactors_whole (lift_returned counted) (not_not.mp whole) two
      have half := laws.dividedBy (x := p - 1) (y := 2) two_pos (by omega) (by omega)
      have value := (IntType.native_modular (show 2 ≤ p by omega) word).modExp (x := stream k % (p - 2) + 1)
        (e := (p - 1) / 2) (by omega) (by omega)
      have apart := laws.eq (x := (stream k % (p - 2) + 1) ^ ((p - 1) / 2) % p) (y := 1)
        ((Nat.mod_lt _ (by omega)).trans word) laws.one
      dsimp only [id] at half value apart
      cases divided.symm.trans half
      cases power.symm.trans value
      rw [laws.ofOne, id] at compared
      have other := of_decide_eq_false (Except.ok.inj (apart.symm.trans compared))
      refine ⟨drawnLt, ?_⟩
      rw [show (p - 1) / 2 = p / 2 by omega] at other ⊢
      refine (ZMod.pow_div_two_eq_neg_one_or_one p (cast_ne_zero (Nat.succ_pos _) drawnLt)).resolve_left fun one => other ?_
      rwa [← Nat.cast_pow, cast_eq_one (by omega)] at one
  · rintro k e - - gen last failed
    cases failed

omit word in
theorem mem_ofOrder_two_pow {L r : ℕ} (below : r < p) (half : (r : ZMod p) ^ 2 ^ L = -1) : r ∈ ofOrder p (2 ^ (L + 1)) := by
  have : Fact p.Prime := ⟨prime⟩
  have : Fact (2 < p) := ⟨large⟩
  have : Fact (Nat.Prime 2) := ⟨Nat.prime_two⟩
  have order : orderOf (r : ZMod p) = 2 ^ (L + 1) := by
    apply orderOf_eq_prime_pow
    · rw [half]
      exact ZMod.neg_one_ne_one
    · rw [pow_succ, pow_mul, half, neg_one_sq]
  have inside := mem_ofOrder (q := p) (show 0 < 2 ^ (L + 1) by positivity) r
  rw [Nat.mod_eq_of_lt below] at inside
  exact inside.mpr order

omit word large in
theorem half_of_ofOrder {L r : ℕ} (member : r ∈ ofOrder p (2 ^ (L + 1))) : (r : ZMod p) ^ 2 ^ L = -1 := by
  have : Fact p.Prime := ⟨prime⟩
  have order := member.2.2
  have square : (r : ZMod p) ^ 2 ^ L * (r : ZMod p) ^ 2 ^ L = 1 := by
    rw [← pow_add, ← two_mul, ← pow_succ', ← order, pow_orderOf_eq_one]
  refine (mul_self_eq_one_iff.mp square).resolve_left ?_
  apply pow_ne_one_of_lt_orderOf (by positivity)
  rw [order]
  exact Nat.pow_lt_pow_right one_lt_two (Nat.lt_succ_self L)

theorem rootOfUnity_returned {L r : ℕ} (small : L < 31) (divides : 2 ^ (L + 1) ∣ p - 1) (barrett : (IntType.native w).Barrett id p)
    (run : rootOfUnity (.native w) stream fuel (2 ^ (L + 1)) p position = ended (.ok (r, last))) : r ∈ ofOrder p (2 ^ (L + 1)) := by
  have : Fact p.Prime := ⟨prime⟩
  have laws := IntType.native_lawful w
  have dim : 2 ≤ 2 ^ (L + 1) := Nat.le_self_pow (by omega) 2
  have short : 2 ^ (L + 1) < 2 ^ 32 := Nat.pow_lt_pow_right one_lt_two (by omega)
  induction fuel generalizing position r last with
  | zero => exact absurd run (exhausted_ne _)
  | succ fuel ih =>
    have least := laws.sub (x := p) (y := 1) (by omega) word
    unfold rootOfUnity at run
    rw [laws.ofOne, laws.ofZero, laws.ofWord short] at run
    dsimp only [id] at least run
    simp only [least, lift_eq, ok_bind] at run
    obtain ⟨remainder, -, run⟩ := bind_returned run
    obtain ⟨undivided, -, run⟩ := bind_returned run
    split at run
    · obtain ⟨text, -, failed⟩ := bind_returned run
      cases ended_inj.mp failed
    obtain ⟨⟨gen, start⟩, generated, run⟩ := bind_returned run
    obtain ⟨below, half⟩ := findGenerator_returned prime large word generated
    obtain ⟨exponent, divided, run⟩ := bind_returned run
    obtain ⟨result, power, run⟩ := bind_returned run
    obtain ⟨trivial, -, run⟩ := bind_returned run
    have walked : ∀ kept next, kept ∈ ofOrder p (2 ^ (L + 1)) → (do
        let minRU ← minimumRoot (.native w) fuel (2 ^ (L + 1)) p kept
        pure (minRU, next)) = ended (.ok (r, last)) → r ∈ ofOrder p (2 ^ (L + 1)) := by
      intro kept next inside walk
      obtain ⟨minRU, minimum, rest⟩ := bind_returned walk
      cases ended_inj.mp rest
      obtain ⟨r, isLeast, settles⟩ := minimumRoot_settles laws word barrett dim short inside
      cases settles.only fuel _ minimum
      exact isLeast.1
    split at run
    · obtain ⟨⟨kept, next⟩, again, run⟩ := bind_returned run
      exact walked kept next (ih again) run
    · obtain ⟨k, split⟩ := divides
      have quotient := laws.dividedBy (x := p - 1) (y := 2 ^ (L + 1)) (by positivity)
        (Nat.le_of_dvd (by omega) ⟨k, split⟩) (by omega)
      have value := (IntType.native_modular (show 2 ≤ p by omega) word).modExp (x := gen) (e := (p - 1) / 2 ^ (L + 1))
        (below.trans word) ((Nat.div_le_self _ _).trans_lt (by omega))
      dsimp only [id] at quotient value
      cases (lift_returned divided).symm.trans quotient
      cases (lift_returned power).symm.trans value
      refine walked _ _ (mem_ofOrder_two_pow prime large (Nat.mod_lt _ (by omega)) ?_) run
      rw [split, Nat.mul_div_cancel_left k (by positivity), ZMod.natCast_mod, Nat.cast_pow, ← pow_mul]
      rw [split, pow_succ', mul_assoc, Nat.mul_div_cancel_left _ two_pos] at half
      rw [mul_comm, half]

end Root

/-! ### Orders from factors -/

section Factors
variable {w : NativeSize} {a q n : ℕ} (factors : List ℕ) (two : 2 ≤ q) (word : q < 2 ^ w.bits) (ha : a < q)
  (split : factors.prod = n) (primes : ∀ f ∈ factors, f.Prime)
include two word ha split primes

theorem orderOf_of_factors (whole : NativeInteger.modExp w a n q = 1)
    (proper : ∀ f ∈ factors, NativeInteger.modExp w a (n / f) q ≠ 1) : orderOf (a : ZMod q) = n := by
  have power : ∀ e, (a : ZMod q) ^ e = 1 ↔ NativeInteger.modExp w a e q = 1 := by
    intro e
    rw [NativeInteger.modExp_eq two word.le (ha.trans word), ← Nat.cast_pow, cast_eq_one (by omega)]
  have pos : 0 < n := split ▸ Nat.pos_of_ne_zero (List.prod_ne_zero fun zero => Nat.not_prime_zero (primes 0 zero))
  refine orderOf_eq_of_pow_and_pow_div_prime pos ((power n).mpr whole) fun f prime divides period => ?_
  have member := mem_list_primes_of_dvd_prod prime.prime (fun f member => (primes f member).prime) (split ▸ divides)
  exact proper f member ((power _).mp period)

theorem prime_of_factors (less : n = q - 1) (whole : NativeInteger.modExp w a n q = 1)
    (proper : ∀ f ∈ factors, NativeInteger.modExp w a (n / f) q ≠ 1) : q.Prime := by
  subst less
  refine prime_of_modExp two word ha whole fun f prime divides => ?_
  exact proper f (mem_list_primes_of_dvd_prod prime.prime (fun f member => (primes f member).prime) (split ▸ divides))

end Factors
end MultiKeyFHE.NbTheory
