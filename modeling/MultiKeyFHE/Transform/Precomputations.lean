import MultiKeyFHE.Transform.Chirp
import Mathlib.Tactic.NormNum.Prime

/-!
# The precomputations of Bluestein's method

An auxiliary prime that `PreComputeDefaultNTTModulusRoot` finds is long enough and has a root, and the tables that are then
made are what the transform relies on. Its sums are those of the discrete Fourier transform just where the squares of 32
bits have the right residues.
-/

namespace MultiKeyFHE.BluesteinFFT
open NativeInteger InPlace Fuel NumberTheoreticTransform Fourier ResidueOrder NbTheory

section Tables
variable {w : NativeSize} {m q root p r : ℕ} (auxiliary : Auxiliary w m q p) (inside : r ∈ ofOrder p (2 ^ stages m))
include auxiliary inside

theorem half_of_inside : (r : ZMod p) ^ 2 ^ (stages m - 1) = -1 := by
  have positive := one_le_stages auxiliary
  rw [← Nat.sub_add_cancel positive] at inside
  exact half_of_ofOrder auxiliary.prime inside

/-- The tables of the powers of a root and of its inverse. -/
structure HasRoots (m p r : ℕ) (tables : Tables) : Prop where
  roots : Roots p (2 ^ (stages m - 1)) (fun k => (r : ZMod p) ^ k) (tables.rootOfUnityTableByModulusRoot (p, r)).values
  inverseRoots : ∃ r' : ZMod p, (r : ZMod p) * r' = 1 ∧
    Roots p (2 ^ (stages m - 1)) (fun k => r' ^ k) (tables.rootOfUnityInverseTableByModulusRoot (p, r)).values

theorem rootTables_ok (tables : Tables) : ∃ tables', preComputeRootTableForNTT w m (p, r) tables = .ok tables' ∧
    HasRoots m p r tables' ∧ tables'.defaultNTTModulusRoot = tables.defaultNTTModulusRoot := by
  have room := auxiliary.suitable.lt
  have positive := one_le_stages auxiliary
  have coprime : r.Coprime p := (Nat.coprime_of_lt_prime inside.1.ne' inside.2.1 auxiliary.prime).symm
  obtain ⟨rootInv, inverted, below, unit⟩ := modInverse_ok auxiliary.suitable.two_le (show 2 * p < 2 ^ w.bits by omega) coprime
  have hf : nttDim m >>> 1 = 2 ^ (stages m - 1) := by
    rw [nttDim_eq auxiliary, Nat.shiftRight_eq_div_pow, Nat.pow_div positive two_pos]
  have run : preComputeRootTableForNTT w m (p, r) tables = .ok { tables with
      rootOfUnityTableByModulusRoot := Function.update tables.rootOfUnityTableByModulusRoot (p, r)
        ⟨successivePowers w r p (2 ^ (stages m - 1)) 1, p⟩
      rootOfUnityInverseTableByModulusRoot := Function.update tables.rootOfUnityInverseTableByModulusRoot (p, r)
        ⟨successivePowers w rootInv p (2 ^ (stages m - 1)) 1, p⟩ } := by
    unfold preComputeRootTableForNTT
    dsimp only
    rw [inverted, hf]
    rfl
  have product := (ZMod.natCast_eq_natCast_iff _ _ _).mpr unit
  refine ⟨_, run, ⟨?_, rootInv, ?_, ?_⟩, rfl⟩
  · dsimp only
    rw [Function.update_self]
    exact successivePowers_roots auxiliary.suitable inside.2.1 _
  · rw [mul_comm]
    exact_mod_cast product
  · dsimp only
    rw [Function.update_self]
    exact successivePowers_roots auxiliary.suitable below _

/-- The last two precomputations, after the tables of the root. -/
theorem prepared_of_roots (prime : q.Prime) (below : root < q) (order : orderOf (root : ZMod q) = 2 * m) {tables : Tables}
    (has : HasRoots m p r tables) (default : tables.defaultNTTModulusRoot q = (p, r)) :
    ∃ powers tables', preComputePowers w m (q, root) tables = .ok powers ∧
      preComputeRBTable w m ((q, root), powers.defaultNTTModulusRoot q) powers = .ok tables' ∧
      Prepared w m q root p r tables' := by
  have some := auxiliary.some
  have room := auxiliary.modulus.lt
  have powers := preComputePowers_ok (w := w) (show 0 < m by omega) auxiliary.word auxiliary.modulus.two_le (show q < 2 ^ w.bits by omega)
    (show root < 2 ^ w.bits by omega) tables
  obtain ⟨b, -, kernelRun, length, -, bounded, -⟩ := kernel_values auxiliary prime below order
  have half := half_of_inside auxiliary inside
  have padded := padZeros_ok b (show b.length ≤ 2 ^ stages m from length ▸ Nat.le_pow_clog one_lt_two _) q
  obtain ⟨notes, forward⟩ := forward_range (one_le_stages auxiliary) auxiliary.short auxiliary.suitable half has.roots
    (f := fun j => b.getD j 0) fun j _ => (bounded j).trans_lt (modulus_lt auxiliary)
  refine ⟨_, { tables with
    powersTableByModulusRoot := Function.update tables.powersTableByModulusRoot (q, root)
      ⟨(List.range m).map fun i => root ^ exponent m i % q, q⟩
    RBTableByModulusRootPair := Function.update tables.RBTableByModulusRootPair ((q, root), (p, r))
      ⟨(List.range (2 ^ stages m)).map fun k => (dft (r : ZMod p) (2 ^ stages m) (fun j => (b.getD j 0 : ZMod p)) k).val, p⟩ },
    powers, ?_, ?_⟩
  · unfold preComputeRBTable
    simp only [default, nttDim_eq auxiliary]
    rw [kernelRun]
    dsimp only [bind, Except.bind]
    rw [padded]
    dsimp only
    rw [setModulus_ok auxiliary.suitable]
    dsimp only
    rw [forward]
    rfl
  · exact ⟨default, Function.update_self .., half, has.roots, has.inverseRoots, b, kernelRun, Function.update_self ..⟩

end Tables

section Runs
variable {w : NativeSize} {isPrime : ℕ → Bool} {fuel m q root position last : ℕ} {stream : ℕ → ℕ} {tables tables' : Tables}

/-- The prime and the root that a run found. -/
structure Found (w : NativeSize) (isPrime : ℕ → Bool) (fuel : ℕ) (stream : ℕ → ℕ) (m q position p r last : ℕ) : Prop where
  prime : firstPrime (.native w) isPrime fuel (Nat.log 2 (nttDim m) + 2 * q.size) (nttDim m) = ended (.ok p)
  root : rootOfUnity (.native w) stream fuel (nttDim m) p position = ended (.ok (r, last))

theorem preCompute_returned (run : preCompute w isPrime fuel stream m (q, root) position tables = ended (.ok (tables', last))) :
    ∃ p r, Found w isPrime fuel stream m q position p r last ∧ ¬ modulusTooLarge w p ∧
      tables'.defaultNTTModulusRoot q = (p, r) := by
  unfold preCompute preComputeDefaultNTTModulusRoot at run
  obtain ⟨⟨chosen, start⟩, first, run⟩ := bind_returned run
  obtain ⟨p, prime, first⟩ := bind_returned first
  obtain ⟨⟨r, next⟩, rooted, first⟩ := bind_returned first
  obtain ⟨withRoots, made, first⟩ := bind_returned first
  cases ended_inj.mp first
  obtain ⟨withPowers, powers, run⟩ := bind_returned run
  obtain ⟨all, product, run⟩ := bind_returned run
  cases ended_inj.mp run
  refine ⟨p, r, ⟨prime, rooted⟩, ?_⟩
  have kept : withPowers.defaultNTTModulusRoot q = (p, r) := by
    unfold preComputeRootTableForNTT at made
    obtain ⟨rootInv, -, made⟩ := Run.bind_ok (lift_returned made)
    unfold preComputePowers at powers
    obtain ⟨start, -, powers⟩ := Run.bind_ok (lift_returned powers)
    obtain ⟨entries, -, powers⟩ := Run.bind_ok powers
    cases made
    cases powers
    exact Function.update_self ..
  have product := lift_returned product
  dsimp only at product
  rw [kept] at product
  unfold preComputeRBTable at product
  obtain ⟨b, -, product⟩ := Run.bind_ok product
  obtain ⟨Rb, -, product⟩ := Run.bind_ok product
  obtain ⟨⟨⟩, admitted, product⟩ := Run.bind_ok product
  obtain ⟨RB, -, product⟩ := Run.bind_ok product
  cases product
  refine ⟨fun large => ?_, kept⟩
  have refused : NativeVector.setModulus w p = .error _ := if_pos large
  cases admitted.symm.trans refused

variable (two : 2 ≤ m) (prime : q.Prime) (below : root < q) (order : orderOf (root : ZMod q) = 2 * m)
  {p r : ℕ}
include two prime below order

omit two prime below order in
theorem suitable_of_prime (prime : p.Prime) (room : ¬ modulusTooLarge w p) : Suitable w p := by
  refine ⟨prime.two_le, room, ?_⟩
  rintro rfl
  exact Nat.Prime.not_prime_pow (by cases w <;> decide) prime

omit below in
theorem order_lt : 2 * m < q := by
  have : Fact q.Prime := ⟨prime⟩
  have more := prime.two_le
  have unit : (root : ZMod q) ≠ 0 := by
    intro zero
    have period := pow_orderOf_eq_one (root : ZMod q)
    rw [order, zero, zero_pow (by omega)] at period
    exact zero_ne_one period
  have divides : 2 * m ∣ q - 1 := order ▸ orderOf_dvd_of_pow_eq_one (ZMod.pow_card_sub_one_eq_one unit)
  have := Nat.le_of_dvd (by omega) divides
  omega

/-- The prime is long enough for sums of products of residues. -/
theorem auxiliary_of_found (found : Found w isPrime fuel stream m q position p r last) (room : ¬ modulusTooLarge w p)
    (chosen : p.Prime) : Auxiliary w m q p ∧ r ∈ ofOrder p (2 ^ stages m) := by
  have less := order_lt two prime order
  have top : q < 2 ^ q.size := Nat.lt_size_self q
  have searched := found.prime
  rw [nttDim, Nat.log_pow one_lt_two] at searched
  obtain ⟨short, above, residue⟩ := firstPrime_chosen (Nat.le_add_right ..) searched
  have limit : w.maxModulusSize ≤ 60 := by cases w <;> decide
  have word : 2 * m < 2 ^ 30 := by
    have : 2 ^ q.size ≤ 2 ^ 30 := Nat.pow_le_pow_right two_pos (by omega)
    omega
  have exact := (pred_eq (show 0 < m by omega) (show 2 * m < 2 ^ 32 by omega)).1
  rw [exact] at short above residue
  have stagesLe : stages m ≤ q.size := Nat.clog_le_of_le_pow (by omega)
  have long : 2 ^ stages m * (q * q) < p := by
    refine lt_of_le_of_lt ?_ above
    rw [pow_add, two_mul q.size, pow_add]
    exact Nat.mul_le_mul_left _ (Nat.mul_le_mul top.le top.le)
  have small : stages m ≤ 24 := by
    change stages m + 2 * q.size ≤ _ at short
    omega
  have square : q ≤ q * q := Nat.le_mul_of_pos_left q (by omega)
  have padded : q * q ≤ 2 ^ stages m * (q * q) := Nat.le_mul_of_pos_left _ (by positivity)
  have roomQ : ¬ modulusTooLarge w q := fun large => room (large.trans_le (Nat.size_le_size (by omega)))
  have divides : 2 ^ stages m ∣ p - 1 := (Nat.modEq_iff_dvd' chosen.one_lt.le).mp residue.symm
  have auxiliary : Auxiliary w m q p := ⟨two, by omega, suitable_of_prime prime roomQ, by omega, chosen,
    suitable_of_prime chosen room, small, long, divides⟩
  refine ⟨auxiliary, ?_⟩
  have positive := one_le_stages auxiliary
  have bound := auxiliary.suitable.lt
  have rooted := found.root
  rw [nttDim_eq auxiliary, ← Nat.sub_add_cancel positive] at rooted
  rw [← Nat.sub_add_cancel positive] at divides ⊢
  exact rootOfUnity_returned chosen (by omega) (by omega) (by omega) divides
    (IntType.native_barrett auxiliary.suitable.two_le room auxiliary.suitable.barrett) rooted

omit two in
theorem preCompute_runs (tables : Tables) (found : Found w isPrime fuel stream m q position p r last)
    (auxiliary : Auxiliary w m q p) (inside : r ∈ ofOrder p (2 ^ stages m)) : ∃ tables',
      preCompute w isPrime fuel stream m (q, root) position tables = ended (.ok (tables', last)) ∧
      Prepared w m q root p r tables' := by
  obtain ⟨withRoots, made, has, default⟩ := rootTables_ok auxiliary inside { tables with
    defaultNTTModulusRoot := Function.update tables.defaultNTTModulusRoot q (p, r) }
  obtain ⟨withPowers, tables', powers, product, prepared⟩ := prepared_of_roots auxiliary inside prime below order has (by
    rw [default]
    exact Function.update_self ..)
  refine ⟨tables', ?_, prepared⟩
  unfold preCompute preComputeDefaultNTTModulusRoot
  simp only [found.prime, found.root, made, powers, product, lift_eq, ok_bind, pure_eq]

end Runs

theorem bluestein_transforms (w : NativeSize) (isPrime : ℕ → Bool) {m q root : ℕ} (two : 2 ≤ m) (prime : q.Prime)
    (below : root < q) (order : orderOf (root : ZMod q) = 2 * m) {fuel position last : ℕ} {stream : ℕ → ℕ}
    {tables tables' : Tables}
    (run : preCompute w isPrime fuel stream m (q, root) position tables = ended (.ok (tables', last)))
    (chosen : (tables'.defaultNTTModulusRoot q).1.Prime) :
    (∀ x : List ℕ, x.length = m → (∀ a ∈ x, a < q) → Transforms w tables' root m ⟨x, q⟩) ↔ m ≤ 2 ^ 16 ∨ m ∣ 2 ^ 31 := by
  obtain ⟨p, r, found, room, default⟩ := preCompute_returned run
  rw [default] at chosen
  obtain ⟨auxiliary, inside⟩ := auxiliary_of_found two prime below order found room chosen
  obtain ⟨made, again, prepared⟩ := preCompute_runs prime below order tables found auxiliary inside
  cases ended_inj.mp (run.symm.trans again)
  constructor
  · intro all
    refine fits_of_transforms auxiliary prepared prime below order fun x hx => all _ (by simp) ?_
    intro a member
    obtain ⟨i, hi, rfl⟩ := List.mem_map.mp member
    exact hx i (List.mem_range.mp hi)
  · intro fits x length reduced
    have entries : x = (List.range m).map fun i => x.getD i 0 := by
      apply List.ext_getElem
      · simpa using length
      · intro i hi _
        rw [List.getElem_map, List.getElem_range, List.getD_eq_getElem _ _ hi]
    rw [entries]
    refine transforms_of_fits auxiliary prepared prime below order fits fun i hi => ?_
    rw [List.getD_eq_getElem _ _ (by omega)]
    exact reduced _ (List.getElem_mem _)

/-- Two points modulo five, with the auxiliary prime 257. -/
theorem bluestein_two_points : ∃ tables,
    preCompute .w64 (fun n => decide n.Prime) 40 id 2 (5, 2) 0 {} = ended (.ok (tables, 3)) ∧
      ((∀ x : List ℕ, x.length = 2 → (∀ a ∈ x, a < 5) → Transforms .w64 tables 2 2 ⟨x, 5⟩) ↔ 2 ≤ 2 ^ 16 ∨ 2 ∣ 2 ^ 31) := by
  have searched : (firstPrime (.native .w64) (fun n => decide n.Prime) 40 (Nat.log 2 (nttDim 2) + 2 * Nat.size 5)
      (nttDim 2)).run = some (.ok 257) := by decide +kernel
  have rooted : (rootOfUnity (.native .w64) id 40 (nttDim 2) 257 0).run = some (.ok (16, 3)) := by decide +kernel
  have order : orderOf ((2 : ℕ) : ZMod 5) = 2 * 2 := orderOf_of_factors (w := .w64) [2, 2] (by norm_num) (by decide)
    (by norm_num) (by norm_num) (by norm_num) (by decide +kernel) (by decide +kernel)
  have found : Found .w64 (fun n => decide n.Prime) 40 id 2 5 0 257 16 3 := ⟨searched, rooted⟩
  have chosen : Nat.Prime 257 := by norm_num
  obtain ⟨auxiliary, inside⟩ := auxiliary_of_found le_rfl Nat.prime_five (by norm_num) order found (by decide) chosen
  obtain ⟨tables, run, prepared⟩ := preCompute_runs Nat.prime_five (by norm_num) order {} found auxiliary inside
  refine ⟨tables, run, ?_⟩
  exact bluestein_transforms .w64 _ le_rfl Nat.prime_five (by norm_num) order run (by rw [prepared.default]; exact chosen)

/-! ### A square that wraps -/

/-- The auxiliary prime of 65538 points modulo 262153. -/
def auxiliaryPrime : ℕ := 2 ^ 19 * 137438953481 + 1

/-- The primes that `auxiliaryPrime - 1` is the product of. -/
def auxiliaryFactors : List ℕ := 137438953481 :: List.replicate 19 2

theorem auxiliaryFactors_prod : auxiliaryFactors.prod = auxiliaryPrime - 1 := by decide +kernel

theorem auxiliaryFactors_prime : ∀ f ∈ auxiliaryFactors, f.Prime := by
  intro f member
  rcases List.mem_cons.mp member with rfl | member
  · exact prime_of_factors (w := .w64) (a := 3) (n := 137438953480) [2, 2, 2, 5, 137, 953, 26317] (by norm_num)
      (by decide) (by norm_num) (by norm_num) (by norm_num) (by norm_num) (by decide +kernel) (by decide +kernel)
  · rw [List.eq_of_mem_replicate member]
    exact Nat.prime_two

theorem auxiliaryPrime_prime : auxiliaryPrime.Prime :=
  prime_of_factors (w := .w64) (a := 3) _ (by decide) (by decide) (by decide) auxiliaryFactors_prod auxiliaryFactors_prime rfl
    (by decide +kernel) (by decide +kernel)

theorem auxiliaryPrime_least : IsLeast (primesAbove (2 ^ 56) 1 (2 ^ 18)) auxiliaryPrime := by
  have starts := starts_firstCandidate 56 (show 0 < 2 ^ 18 by norm_num)
  have first : firstCandidate 56 (2 ^ 18) = 2 ^ 56 + 1 := by decide +kernel
  rw [first] at starts
  have composite : ∀ i < 18, ∃ d ∈ [3, 5, 7, 11, 17, 19, 29, 41, 233, 257, 32797], 2 ≤ d ∧ d < 2 ^ 56 ∧
      d ∣ 2 ^ 56 + 1 + i * 2 ^ 18 := by decide +kernel
  refine ⟨starts.mem_iff.mpr ⟨auxiliaryPrime_prime, 18, by decide +kernel⟩, ?_⟩
  intro p member
  obtain ⟨prime, i, rfl⟩ := starts.mem_iff.mp member
  rcases Nat.lt_or_ge i 18 with before | after
  · obtain ⟨d, -, two, small, divides⟩ := composite i before
    exact absurd prime (Nat.not_prime_of_dvd_of_lt divides two (by omega))
  · have reached : auxiliaryPrime = 2 ^ 56 + 1 + 18 * 2 ^ 18 := by decide +kernel
    rw [reached]
    exact Nat.add_le_add_left (Nat.mul_le_mul_right _ after) _

theorem auxiliaryPrime_exactly : FactorsExactly (.native .w64) id auxiliaryPrime id 0 := by
  have run : (primeFactorize (.native .w64) id 90 (auxiliaryPrime - 1) [] 0).run = some (.ok ([137438953481, 2], 100)) := by
    decide +kernel
  refine factorsExactly_of_run run fun x => ?_
  have same : ∀ p, p ∈ [137438953481, 2] ↔ p ∈ auxiliaryFactors := by
    intro p
    simp [auxiliaryFactors]
  rw [same]
  constructor
  · intro member
    exact .inr ⟨x, auxiliaryFactors_prime x member, auxiliaryFactors_prod ▸ List.dvd_prod member, rfl⟩
  · rintro (none | ⟨p, prime, divides, rfl⟩)
    · cases none
    · exact mem_list_primes_of_dvd_prod prime.prime (fun f member => (auxiliaryFactors_prime f member).prime)
        (auxiliaryFactors_prod ▸ divides)

theorem found_long : ∃ fuel r, Found .w64 (fun n => decide n.Prime) fuel id 65538 262153 0 auxiliaryPrime r 101 := by
  have laws := IntType.native_lawful .w64
  have suitable := suitable_of_prime (w := .w64) auxiliaryPrime_prime (by decide)
  have dim : nttDim 65538 = 2 ^ 18 := by decide +kernel
  have bits : Nat.log 2 (nttDim 65538) + 2 * Nat.size 262153 = 56 := by decide +kernel
  have generated : (findGenerator (.native .w64) 90 auxiliaryPrime id 0).run = some (.ok (101, 101)) := by decide +kernel
  have decides : ∀ n < 2 ^ NativeSize.w64.bits, (decide n.Prime = true ↔ n.Prime) := fun n _ => decide_eq_true_iff
  have search : Ends (fun fuel => firstPrime (.native .w64) (fun n => decide n.Prime) fuel 56 (2 ^ 18)) (.ok auxiliaryPrime) :=
    firstPrime_found laws decides (admitted (by decide)) (by norm_num) (by norm_num) (by norm_num) (by decide) auxiliaryPrime_least
      (by decide)
  obtain ⟨i, searched⟩ := search
  obtain ⟨r, -, j, rooted⟩ := rootOfUnity_ends (m := 2 ^ 18) laws (IntType.native_modular suitable.two_le (by decide))
    (IntType.native_barrett suitable.two_le suitable.room suitable.barrett) auxiliaryPrime_prime (by decide) (by norm_num)
    (by norm_num) (by decide) auxiliaryPrime_exactly generated
  refine ⟨max i j, r, ?_, ?_⟩
  · rw [bits, dim]
    exact searched _ (le_max_left i j)
  · rw [dim]
    exact rooted _ (le_max_right i j)

/-- With 65538 points the square of 65536 is zero in 32 bits, and the transform of the unit vector there is wrong. -/
theorem wrapped_square_transform : ∃ fuel tables, Nat.Prime 262153 ∧ 100 < 262153 ∧ orderOf ((100 : ℕ) : ZMod 262153) = 2 * 65538 ∧
    preCompute .w64 (fun n => decide n.Prime) fuel id 65538 (262153, 100) 0 {} = ended (.ok (tables, 101)) ∧
    (tables.defaultNTTModulusRoot 262153).1.Prime ∧
    ¬ ∀ x : List ℕ, x.length = 65538 → (∀ a ∈ x, a < 262153) → Transforms .w64 tables 100 65538 ⟨x, 262153⟩ := by
  have prime : Nat.Prime 262153 := by norm_num
  have order : orderOf ((100 : ℕ) : ZMod 262153) = 2 * 65538 := orderOf_of_factors (w := .w64)
    [2, 2, 3, 3, 11, 331] (by norm_num) (by decide) (by norm_num) (by norm_num) (by norm_num) (by decide +kernel)
    (by decide +kernel)
  obtain ⟨fuel, r, found⟩ := found_long
  obtain ⟨auxiliary, inside⟩ := auxiliary_of_found (by norm_num) prime (by norm_num) order found (by decide) auxiliaryPrime_prime
  obtain ⟨tables, run, prepared⟩ := preCompute_runs prime (by norm_num) order {} found auxiliary inside
  refine ⟨fuel, tables, prime, by norm_num, order, run, by rw [prepared.default]; exact auxiliaryPrime_prime, fun all => ?_⟩
  have divides := divides_of_transforms auxiliary prepared prime (by norm_num) order (n := 2 ^ 16) (by norm_num) (by norm_num)
    (all _ (by simp) (by
      intro a member
      obtain ⟨i, -, rfl⟩ := List.mem_map.mp member
      split <;> norm_num))
  norm_num at divides

end MultiKeyFHE.BluesteinFFT
