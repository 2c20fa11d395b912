import MultiKeyFHE.Library.Palindrome
import MultiKeyFHE.Library.Schoolbook

/-!
# Cyclotomic polynomials

`GetCyclotomicPolynomialRecursive` of `nbtheory2.cpp`: `X ^ m - 1`, divided by the product of the polynomials of the proper
divisors. The coefficients are of type `int`, and arithmetic on them stops where it overflows.
-/

namespace MultiKeyFHE.NbTheory.Cyclotomic
open InPlace Schoolbook Polynomial

/-- What C++ leaves undefined: an `int` that overflows, or an access past the end of a vector. -/
inductive Undefined where
  | overflow
  | outOfRange
  deriving DecidableEq, Repr

def int (x : ℤ) : Except Undefined ℤ := if -2 ^ 31 ≤ x ∧ x < 2 ^ 31 then .ok x else .error .overflow

def isPrime (val : ℕ) : Bool := val % 2 ≠ 0 && (List.range' 3 ((val - 2) / 2) 2).all fun i => val % i ≠ 0

def getDivisibleNumbers (val : ℕ) : List ℕ := (List.range' 1 (val - 1)).filter fun i => val % i = 0

def polyMult (a b : List ℤ) : Except Undefined (List ℤ) :=
  let degreeResultant := a.length + b.length - 1
  accumulate .outOfRange (fun c x y => do int (c + (← int (x * y)))) a b (List.replicate degreeResultant 0)

/-- `rdtmp1 -= divisor[divisorPtr - 1 - j] * divConst`. -/
def subtract (rdtmp1 d divConst : ℤ) : Except Undefined ℤ := do int (rdtmp1 - (← int (d * divConst)))

/-- One pass of the loop of `PolyQuotient`. -/
def quotientRun (divisor : List ℤ) (s : List ℤ × List ℤ) (i : ℕ) : Except Undefined (List ℤ × List ℤ) := do
  let runningDividend ← shiftRun .outOfRange subtract divisor s.2 i
  let top ← load .outOfRange runningDividend (runningDividend.length - 1)
  let quotient ← store .outOfRange s.1 (i + 1) top
  return (quotient, runningDividend)

/-- The divisor is not longer than the dividend. -/
def polyQuotient (dividend divisor : List ℤ) : Except Undefined (List ℤ) := do
  let runs := dividend.length - divisor.length + 1
  let (quotient, _) ← (List.range runs).foldlM (quotientRun divisor) (List.replicate (runs + 1) 0, dividend)
  let quotient ← store .outOfRange quotient 0 1
  return quotient.dropLast

/-- `X ^ m - 1`. The length is a `usint`. -/
def bigPoly (m : ℕ) : Except Undefined (List ℤ) := do
  let bigPoly ← store .outOfRange (List.replicate ((m + 1) % 2 ^ 32) 0) 0 (-1)
  store .outOfRange bigPoly m 1

theorem mem_divisible {d val : ℕ} : d ∈ getDivisibleNumbers val ↔ 1 ≤ d ∧ d < val ∧ d ∣ val := by
  rw [getDivisibleNumbers, List.mem_filter, List.mem_range'_1, decide_eq_true_eq, ← Nat.dvd_iff_mod_eq_zero]
  omega

def getCyclotomicPolynomialRecursive (m : ℕ) : Except Undefined (List ℤ) :=
  if m = 1 then .ok [-1, 1]
  else if m = 2 then .ok [1, 1]
  else if isPrime m then .ok (List.replicate m 1)
  else do
    let product ← (getDivisibleNumbers m).attach.foldlM (fun product divisor => do
      let p ← getCyclotomicPolynomialRecursive divisor.1
      polyMult product p) [1]
    polyQuotient (← bigPoly m) product
termination_by m
decreasing_by exact (mem_divisible.mp divisor.2).2.1

/-! ### Products and quotients -/

noncomputable def intPoly (v : List ℤ) : ℤ[X] := poly id v

theorem coeff_intPoly (v : List ℤ) (k : ℕ) : (intPoly v).coeff k = v.getD k 0 := coeff_poly (R := id) rfl v k

theorem int_ends (x : ℤ) : Run.Ends (int x) (· = x) (· = .overflow) := by
  unfold int
  split
  · exact .ok rfl
  · exact .inr ⟨_, rfl, rfl⟩

theorem polyMult_ends {a b : List ℤ} (ha : 0 < a.length) (hb : 0 < b.length) :
    Run.Ends (polyMult a b) (fun c => c.length + 1 = a.length + b.length ∧ intPoly c = intPoly a * intPoly b) (· = .overflow) := by
  have law : ∀ c x y : ℤ, True → True → True →
      Run.Ends (do int (c + (← int (x * y)))) (fun c' => True ∧ id c' = id c + x * y) (· = Undefined.overflow) := by
    intro c x y _ _ _
    refine (int_ends _).bind ?_
    rintro _ rfl
    refine (int_ends _).mono ?_
    rintro _ rfl
    exact ⟨trivial, rfl⟩
  refine (accumulate_ends _ (T := fun x y : ℤ => x * y) law (fun _ _ => trivial) (fun _ _ => trivial) (fun _ _ => trivial)
    (by rw [List.length_replicate]; omega)).mono fun c sums => ⟨by rw [sums.length, List.length_replicate]; omega, ?_⟩
  ext k
  have value := sums.value k
  rw [sum_pairs (T := fun x y : ℤ => x * y) (zero_mul ·) (mul_zero ·), getD_zeros, id, id, zero_add] at value
  rw [coeff_intPoly, value]
  exact (coeff_poly_mul (R := id) rfl a b k).symm

/-- After some runs: the quotient has their leading coefficients, but for the first, and the top cell the next one. -/
structure Divided (dividend divisor : List ℤ) (n : ℕ) (s : List ℤ × List ℤ) : Prop where
  room : s.1.length = dividend.length - divisor.length + 2
  length : s.2.length = dividend.length
  lead : s.2.getD (dividend.length - 1) 0 = (s.1.set 0 1).getD n 0
  value : intPoly dividend = (∑ i ∈ Finset.range n, C ((s.1.set 0 1).getD i 0) * X ^ (dividend.length - divisor.length - i)) *
    intPoly divisor + intPoly (s.2.drop n)

section Quotient
variable {dividend divisor : List ℤ} (nonempty : 0 < divisor.length) (monic : divisor.getD (divisor.length - 1) 0 = 1)
  (le : divisor.length ≤ dividend.length)
include nonempty monic le

theorem quotientRun_ends {n : ℕ} (few : n < dividend.length - divisor.length + 1) {s : List ℤ × List ℤ}
    (now : Divided dividend divisor n s) :
    Run.Ends (quotientRun divisor s n) (Divided dividend divisor (n + 1)) (· = .overflow) := by
  have law : ∀ x d c : ℤ, True → True → True →
      Run.Ends (subtract x d c) (fun y => True ∧ id y = id x - id d * id c) (· = .overflow) := by
    intro x d c _ _ _
    refine (int_ends _).bind ?_
    rintro _ rfl
    refine (int_ends _).mono ?_
    rintro _ rfl
    exact ⟨trivial, rfl⟩
  have length := now.length
  refine (shiftRun_reduced (R := id) law rfl (fun _ _ => trivial) (fun _ _ => trivial) nonempty monic (by omega)).bind ?_
  rintro cells ⟨same, -, taken⟩
  refine (load_ends Undefined.outOfRange (show cells.length - 1 < cells.length by omega)).bind ?_
  rintro _ rfl
  have inside : n + 1 < s.1.length := by
    rw [now.room]
    omega
  rw [store_ok _ inside]
  have swap : (s.1.set (n + 1) cells[cells.length - 1]).set 0 1 = (s.1.set 0 1).set (n + 1) cells[cells.length - 1] :=
    List.set_comm _ _ (by omega)
  have inside' : n + 1 < (s.1.set 0 1).length := by simpa using inside
  refine .ok ⟨by rw [List.length_set, now.room], same.trans length, ?_, ?_⟩
  · have last : cells.length - 1 < cells.length := by omega
    rw [swap, getD_set inside', if_pos rfl, ← length, ← same]
    exact List.getD_eq_getElem _ _ last
  · have before := now.value
    have top : s.2.getD (s.2.length - 1) 0 = (s.1.set 0 1).getD n 0 := by rw [length, now.lead]
    have terms : ∀ i < n + 1, ((s.1.set (n + 1) cells[cells.length - 1]).set 0 1).getD i 0 = (s.1.set 0 1).getD i 0 := by
      intro i hi
      rw [swap, getD_set inside', if_neg (by omega)]
    have sums : ∑ i ∈ Finset.range (n + 1), C (((s.1.set (n + 1) cells[cells.length - 1]).set 0 1).getD i 0) *
        X ^ (dividend.length - divisor.length - i) =
          ∑ i ∈ Finset.range (n + 1), C ((s.1.set 0 1).getD i 0) * X ^ (dividend.length - divisor.length - i) :=
      Finset.sum_congr rfl fun i hi => by rw [terms i (Finset.mem_range.mp hi)]
    rw [id, top, length, show dividend.length - n - divisor.length = dividend.length - divisor.length - n by omega] at taken
    rw [sums, before, Finset.sum_range_succ, add_mul, add_assoc]
    exact congrArg _ taken

theorem polyQuotient_ends (lead : dividend.getD (dividend.length - 1) 0 = 1) {q : ℤ[X]} (product : intPoly dividend = q * intPoly divisor) :
    Run.Ends (polyQuotient dividend divisor) (fun out => out.length = dividend.length - divisor.length + 1 ∧
      ∀ k ≤ dividend.length - divisor.length, out.getD k 0 = q.coeff (dividend.length - divisor.length - k)) (· = .overflow) := by
  have start : Divided dividend divisor 0 (List.replicate (dividend.length - divisor.length + 1 + 1) 0, dividend) := by
    refine ⟨by simp, rfl, ?_, by simp⟩
    rw [lead, getD_set (by simp), if_pos rfl]
  refine (Run.foldlM_range_ends (Divided dividend divisor) start fun i few s now =>
    quotientRun_ends nonempty monic le few now).bind ?_
  rintro ⟨quotient, rest⟩ ⟨room, length, -, value⟩
  dsimp only at room length value ⊢
  rw [store_ok _ (by omega)]
  refine .ok ⟨by rw [List.length_dropLast, List.length_set]; omega, fun k hk => ?_⟩
  obtain ⟨unit, degree⟩ := degree_poly_of_monic (R := id) rfl nonempty monic
  have small : (intPoly (rest.drop (dividend.length - divisor.length + 1))).degree < (intPoly divisor).degree := by
    refine (degree_poly_lt _).trans_le (degree.symm ▸ ?_)
    rw [List.length_drop]
    exact_mod_cast (show rest.length - (dividend.length - divisor.length + 1) ≤ divisor.length - 1 by omega)
  have inside : k < (quotient.set 0 1).length - 1 := by
    rw [List.length_set]
    omega
  have read : (quotient.set 0 1).dropLast.getD k 0 = (quotient.set 0 1).getD k 0 := by
    rw [List.getD_eq_getElem?_getD, List.getD_eq_getElem?_getD, List.getElem?_dropLast, if_pos inside]
  rw [quotient_unique unit product value small, read, finsetSum_coeff, Finset.sum_eq_single k]
  · rw [coeff_C_mul, coeff_X_pow, if_pos rfl, mul_one]
  · intro i hi other
    have := Finset.mem_range.mp hi
    rw [coeff_C_mul, coeff_X_pow, if_neg (by omega), mul_zero]
  · intro outside
    exact absurd (Finset.mem_range.mpr (by omega)) outside

end Quotient

/-! ### The parts of the recursion -/

/-- The coefficients of a monic polynomial, the constant one first. -/
structure Holds (f : ℤ[X]) (v : List ℤ) : Prop where
  length : v.length = f.natDegree + 1
  value : intPoly v = f

theorem Holds.top {f : ℤ[X]} {v : List ℤ} (holds : Holds f v) (monic : f.Monic) : v.getD (v.length - 1) 0 = 1 := by
  rw [← coeff_intPoly, holds.value, holds.length, Nat.add_sub_cancel]
  exact monic

theorem Holds.polyMult {f g : ℤ[X]} {a b : List ℤ} (ha : Holds f a) (hb : Holds g b) (hf : f.Monic) (hg : g.Monic) :
    Run.Ends (polyMult a b) (Holds (f * g)) (· = .overflow) := by
  have lengthA := ha.length
  have lengthB := hb.length
  refine (polyMult_ends (by omega) (by omega)).mono ?_
  rintro c ⟨length, value⟩
  refine ⟨?_, by rw [value, ha.value, hb.value]⟩
  rw [hf.natDegree_mul hg]
  omega

theorem isPrime_iff {m : ℕ} (hm : 3 ≤ m) : isPrime m = true ↔ m.Prime := by
  have odds : ∀ i, i ∈ List.range' 3 ((m - 2) / 2) 2 ↔ ∃ j < (m - 2) / 2, i = 3 + 2 * j := fun i => List.mem_range'
  rw [isPrime, Bool.and_eq_true, List.all_eq_true, decide_eq_true_eq]
  simp only [decide_eq_true_eq]
  constructor
  · rintro ⟨odd, rest⟩
    refine Nat.prime_def_lt.mpr ⟨by omega, fun d less divides => ?_⟩
    by_contra other
    have parity : d % 2 = 1 := by
      by_contra even
      have two : 2 ∣ m := (Nat.dvd_of_mod_eq_zero (by omega)).trans divides
      omega
    have pos := Nat.pos_of_dvd_of_pos divides (by omega)
    exact rest d ((odds d).mpr ⟨(d - 3) / 2, by omega, by omega⟩) (Nat.mod_eq_zero_of_dvd divides)
  · intro prime
    constructor
    · intro even
      have := (Nat.prime_dvd_prime_iff_eq Nat.prime_two prime).mp (Nat.dvd_of_mod_eq_zero even)
      omega
    · intro i member zero
      obtain ⟨j, few, rfl⟩ := (odds i).mp member
      rcases prime.eq_one_or_self_of_dvd _ (Nat.dvd_of_mod_eq_zero zero) with one | all <;> omega

theorem holds_prime {m : ℕ} (prime : m.Prime) : Holds (cyclotomic m ℤ) (List.replicate m 1) := by
  have : Fact m.Prime := ⟨prime⟩
  constructor
  · rw [List.length_replicate, natDegree_cyclotomic, Nat.totient_prime prime, Nat.sub_add_cancel prime.one_le]
  · ext k
    rw [coeff_intPoly, cyclotomic_prime, Palindrome.coeff_geom, List.getD_eq_getElem?_getD, List.getElem?_replicate]
    split <;> rfl

theorem holds_one : Holds (cyclotomic 1 ℤ) [-1, 1] := by
  constructor
  · rw [natDegree_cyclotomic]
    rfl
  · simp [intPoly, poly, cyclotomic_one, Finset.sum_range_succ, neg_add_eq_sub]

theorem bigPoly_ok {m : ℕ} (pos : 0 < m) (word : m + 1 < 2 ^ 32) :
    ∃ v, bigPoly m = .ok v ∧ Holds (X ^ m - 1) v := by
  have first : 0 < (List.replicate ((m + 1) % 2 ^ 32) (0 : ℤ)).length := by
    rw [List.length_replicate, Nat.mod_eq_of_lt word]
    omega
  have last : m < ((List.replicate ((m + 1) % 2 ^ 32) (0 : ℤ)).set 0 (-1)).length := by
    rw [List.length_set, List.length_replicate, Nat.mod_eq_of_lt word]
    omega
  refine ⟨((List.replicate ((m + 1) % 2 ^ 32) 0).set 0 (-1)).set m 1, ?_, ?_, ?_⟩
  · rw [bigPoly, store_ok _ first]
    exact store_ok _ last _
  · rw [List.length_set, List.length_set, List.length_replicate, Nat.mod_eq_of_lt word, ← C_1, natDegree_X_pow_sub_C]
  · ext k
    rw [coeff_intPoly, getD_set last, getD_set first, getD_zeros, coeff_sub, coeff_X_pow, coeff_one]
    rcases Nat.eq_zero_or_pos k with rfl | some
    · simp [pos.ne]
    · simp [some.ne']

/-- Past the largest length there is no vector for the coefficients. -/
theorem bigPoly_last : bigPoly (2 ^ 32 - 1) = .error .outOfRange := rfl

theorem prod_divisible {M : Type*} [CommMonoid M] (m : ℕ) (f : ℕ → M) :
    ((getDivisibleNumbers m).map f).prod = ∏ d ∈ m.properDivisors, f d := by
  have same : (getDivisibleNumbers m).toFinset = m.properDivisors := by
    ext d
    rw [List.mem_toFinset, mem_divisible, Nat.mem_properDivisors]
    constructor
    · rintro ⟨-, less, divides⟩
      exact ⟨divides, less⟩
    · rintro ⟨divides, less⟩
      exact ⟨Nat.pos_of_dvd_of_pos divides (by omega), less, divides⟩
  have unique : (getDivisibleNumbers m).Nodup := List.Nodup.filter _ List.nodup_range'
  rw [← same, List.prod_toFinset f unique]

/-! ### The recursion -/

section Recursion
variable {m : ℕ}

/-- The product over the proper divisors, when the recursion holds for them. -/
theorem product_ends (ih : ∀ d < m, 0 < d →
      Run.Ends (getCyclotomicPolynomialRecursive d) (Holds (cyclotomic d ℤ)) (· = .overflow)) :
    Run.Ends ((getDivisibleNumbers m).attach.foldlM (fun product divisor => do
        let p ← getCyclotomicPolynomialRecursive divisor.1
        polyMult product p) [1])
      (fun product => Holds (∏ d ∈ m.properDivisors, cyclotomic d ℤ) product ∧
        ∀ d ∈ m.properDivisors, ∃ p, getCyclotomicPolynomialRecursive d = .ok p) (· = .overflow) := by
  refine (Run.foldlM_ends (fun done product => Holds (done.map fun d => cyclotomic d.1 ℤ).prod product ∧
    ∀ d ∈ done, ∃ p, getCyclotomicPolynomialRecursive d.1 = .ok p) ⟨⟨?_, ?_⟩, by simp⟩ ?_).mono ?_
  · simp
  · ext k
    rw [coeff_intPoly, List.map_nil, List.prod_nil, coeff_one]
    cases k <;> simp
  · rintro done ⟨d, member⟩ product - ⟨now, returned⟩
    obtain ⟨pos, less, -⟩ := mem_divisible.mp member
    refine (ih d less pos).result.bind ?_
    rintro p ⟨holds, run⟩
    have monic : (done.map fun d => cyclotomic d.1 ℤ).prod.Monic := by
      refine List.prod_induction Monic (fun _ _ => Monic.mul) monic_one fun f hf => ?_
      obtain ⟨d, -, rfl⟩ := List.mem_map.mp hf
      exact cyclotomic.monic _ _
    refine (now.polyMult holds monic (cyclotomic.monic d ℤ)).mono fun c next => ⟨by simpa using next, ?_⟩
    intro e he
    rcases List.mem_append.mp he with before | last
    · exact returned e before
    · rw [List.mem_singleton.mp last]
      exact ⟨p, run⟩
  · rintro product ⟨holds, returned⟩
    rw [List.attach_map_val (f := fun d => cyclotomic d ℤ), prod_divisible] at holds
    refine ⟨holds, fun d hd => ?_⟩
    obtain ⟨divides, less⟩ := Nat.mem_properDivisors.mp hd
    exact returned ⟨d, mem_divisible.mpr ⟨Nat.pos_of_dvd_of_pos divides (by omega), less, divides⟩⟩ (List.mem_attach _ _)

theorem recursive_ends (pos : 0 < m) (word : m + 1 < 2 ^ 32) :
    Run.Ends (getCyclotomicPolynomialRecursive m) (fun v => Holds (cyclotomic m ℤ) v ∧
      ∀ d ∈ m.properDivisors, ∃ p, getCyclotomicPolynomialRecursive d = .ok p) (· = .overflow) := by
  induction m using Nat.strong_induction_on with
  | _ m ih =>
    have first : getCyclotomicPolynomialRecursive 1 = .ok [-1, 1] := by rw [getCyclotomicPolynomialRecursive, if_pos rfl]
    have ofPrime : m.Prime → ∀ d ∈ m.properDivisors, ∃ p, getCyclotomicPolynomialRecursive d = .ok p := by
      intro prime d hd
      rw [prime.properDivisors, Finset.mem_singleton] at hd
      exact ⟨_, hd ▸ first⟩
    rw [getCyclotomicPolynomialRecursive]
    split
    · subst m
      exact .ok ⟨holds_one, by simp⟩
    split
    · subst m
      exact .ok ⟨holds_prime Nat.prime_two, ofPrime Nat.prime_two⟩
    split
    · rename_i prime
      rw [isPrime_iff (by omega)] at prime
      exact .ok ⟨holds_prime prime, ofPrime prime⟩
    refine (product_ends fun d less some => (ih d less some (by omega)).mono fun _ => And.left).bind ?_
    rintro product ⟨holds, returned⟩
    obtain ⟨v, run, whole⟩ := bigPoly_ok pos word
    rw [run]
    have monic : (∏ d ∈ m.properDivisors, cyclotomic d ℤ).Monic := monic_prod_of_monic _ _ fun d _ => cyclotomic.monic d ℤ
    have split : X ^ m - 1 = cyclotomic m ℤ * ∏ d ∈ m.properDivisors, cyclotomic d ℤ := by
      rw [← prod_cyclotomic_eq_X_pow_sub_one pos, ← Nat.insert_self_properDivisors pos.ne',
        Finset.prod_insert Nat.self_notMem_properDivisors]
    have length : v.length = m + 1 := by rw [whole.length, ← C_1, natDegree_X_pow_sub_C]
    have degrees : m.totient + (∏ d ∈ m.properDivisors, cyclotomic d ℤ).natDegree = m := by
      rw [← natDegree_cyclotomic m ℤ, ← (cyclotomic.monic m ℤ).natDegree_mul monic, ← split, ← C_1, natDegree_X_pow_sub_C]
    have shorter := holds.length
    have difference : v.length - product.length = m.totient := by omega
    refine (polyQuotient_ends (by omega) (holds.top monic) (by omega) (whole.top (monic_X_pow_sub_C 1 pos.ne'))
      (by rw [whole.value, holds.value, split])).mono ?_
    rintro out ⟨runs, value⟩
    rw [difference] at runs value
    refine ⟨⟨by rw [runs, natDegree_cyclotomic], ?_⟩, returned⟩
    ext k
    rw [coeff_intPoly]
    rcases Nat.lt_or_ge m.totient k with beyond | inside
    · rw [List.getD_eq_default _ _ (by omega), coeff_eq_zero_of_natDegree_lt (by rwa [natDegree_cyclotomic])]
    · -- The quotient came out with the leading coefficient first.
      rw [value k inside, Palindrome.coeff_cyclotomic (by omega) inside]

/-- For the largest `usint` there is no vector of its length plus one. -/
theorem recursive_last (fits : getCyclotomicPolynomialRecursive (2 ^ 32 - 1) ≠ .error .overflow) :
    getCyclotomicPolynomialRecursive (2 ^ 32 - 1) = .error .outOfRange := by
  have composite : ¬ isPrime (2 ^ 32 - 1) := by
    rw [isPrime_iff (by norm_num)]
    exact Nat.not_prime_of_dvd_of_lt (m := 3) (by norm_num) (by norm_num) (by norm_num)
  have product := product_ends (m := 2 ^ 32 - 1) fun d less some => (recursive_ends some (by omega)).mono fun _ => And.left
  rw [getCyclotomicPolynomialRecursive, if_neg (by norm_num), if_neg (by norm_num), if_neg composite] at fits ⊢
  obtain ⟨v, run, -⟩ | ⟨e, run, rfl⟩ := product
  · rw [run, bigPoly_last]
    rfl
  · rw [run] at fits
    exact absurd rfl fits

end Recursion

/-- Whatever the recursion returns is the polynomial, unless a coefficient is no `int`. -/
theorem recursion_divides {m : ℕ} (pos : 0 < m) (word : m < 2 ^ 32) (fits : getCyclotomicPolynomialRecursive m ≠ .error .overflow) :
    (m + 1 < 2 ^ 32 → ∃ (phi : List ℤ) (part : ℕ → List ℤ), getCyclotomicPolynomialRecursive m = .ok phi ∧
      phi.length = m.totient + 1 ∧ (intPoly phi).Monic ∧
      (∀ d ∈ m.properDivisors, getCyclotomicPolynomialRecursive d = .ok (part d)) ∧
      intPoly phi * ∏ d ∈ m.properDivisors, intPoly (part d) = X ^ m - 1) ∧
    (m + 1 = 2 ^ 32 → getCyclotomicPolynomialRecursive m = .error .outOfRange) := by
  constructor
  · intro short
    obtain ⟨phi, run, holds, returned⟩ | ⟨e, run, rfl⟩ := recursive_ends pos short
    swap; · exact absurd run fits
    choose! part parts using returned
    refine ⟨phi, part, run, ?_, ?_, parts, ?_⟩
    · rw [holds.length, natDegree_cyclotomic]
    · rw [holds.value]
      exact cyclotomic.monic m ℤ
    · have values : ∀ d ∈ m.properDivisors, intPoly (part d) = cyclotomic d ℤ := by
        intro d hd
        obtain ⟨divides, less⟩ := Nat.mem_properDivisors.mp hd
        obtain ⟨p, run', holds', -⟩ | ⟨e, run', rfl⟩ := recursive_ends (Nat.pos_of_dvd_of_pos divides pos) (by omega)
        · rw [parts d hd] at run'
          cases run'
          exact holds'.value
        · rw [parts d hd] at run'
          cases run'
      rw [holds.value, Finset.prod_congr rfl values, ← prod_cyclotomic_eq_X_pow_sub_one pos,
        ← Nat.insert_self_properDivisors pos.ne', Finset.prod_insert Nat.self_notMem_properDivisors]
  · intro last
    obtain rfl : m = 2 ^ 32 - 1 := by omega
    exact recursive_last fits

theorem recursion_divides_twelve : ∃ (phi : List ℤ) (part : ℕ → List ℤ), getCyclotomicPolynomialRecursive 12 = .ok phi ∧
    phi.length = Nat.totient 12 + 1 ∧ (intPoly phi).Monic ∧
    (∀ d ∈ Nat.properDivisors 12, getCyclotomicPolynomialRecursive d = .ok (part d)) ∧
    intPoly phi * ∏ d ∈ Nat.properDivisors 12, intPoly (part d) = X ^ 12 - 1 := by
  have run : getCyclotomicPolynomialRecursive 12 = .ok [1, 0, -1, 0, 1] := by decide +kernel
  exact (recursion_divides (m := 12) (by norm_num) (by norm_num) (by rw [run]; exact nofun)).1 (by norm_num)

end MultiKeyFHE.NbTheory.Cyclotomic
