import MultiKeyFHE.Transform.Bluestein

/-!
# The transform through the convolution

What `ForwardTransform` of `BluesteinFFTNat` computes when its precomputations were made: no entry of the convolution
reaches the auxiliary prime, so the window that is cut out holds sums over the integers. They are the sums of a discrete
Fourier transform where the exponents are the squares modulo `2 * cycloOrder`.
-/

namespace MultiKeyFHE.BluesteinFFT
open NativeInteger InPlace Fuel NumberTheoreticTransform Fourier ResidueOrder

/-- The number of stages. -/
def stages (m : ℕ) : ℕ := Nat.clog 2 (2 * m - 1)

/-- What the auxiliary prime has to be. -/
structure Auxiliary (w : NativeSize) (m q p : ℕ) : Prop where
  some : 2 ≤ m
  word : 2 * m < 2 ^ 32
  modulus : Suitable w q
  odd : 2 < q
  prime : p.Prime
  suitable : Suitable w p
  short : stages m ≤ 24
  long : 2 ^ stages m * (q * q) < p
  divides : 2 ^ stages m ∣ p - 1

/-- The tables after the precomputations. -/
structure Prepared (w : NativeSize) (m q root p r : ℕ) (tables : Tables) : Prop where
  default : tables.defaultNTTModulusRoot q = (p, r)
  powers : tables.powersTableByModulusRoot (q, root) = ⟨(List.range m).map fun i => root ^ exponent m i % q, q⟩
  half : (r : ZMod p) ^ 2 ^ (stages m - 1) = -1
  roots : Roots p (2 ^ (stages m - 1)) (fun k => (r : ZMod p) ^ k) (tables.rootOfUnityTableByModulusRoot (p, r)).values
  inverseRoots : ∃ r' : ZMod p, (r : ZMod p) * r' = 1 ∧ Roots p (2 ^ (stages m - 1)) (fun k => r' ^ k)
    (tables.rootOfUnityInverseTableByModulusRoot (p, r)).values
  product : ∃ b, kernel w m (q, root) = .ok b ∧ tables.RBTableByModulusRootPair ((q, root), (p, r)) =
    ⟨(List.range (2 ^ stages m)).map fun k => (dft (r : ZMod p) (2 ^ stages m) (fun j => (b.getD j 0 : ZMod p)) k).val, p⟩

section Transform
variable {w : NativeSize} {m q root p r : ℕ} {tables : Tables} (auxiliary : Auxiliary w m q p)
include auxiliary

theorem nttDim_eq : nttDim m = 2 ^ stages m := by
  have := auxiliary.some
  rw [nttDim, (pred_eq (by omega) auxiliary.word).1, stages]

theorem one_le_stages : 1 ≤ stages m := by
  have := auxiliary.some
  exact Nat.clog_pos one_lt_two (by omega)

theorem modulus_lt : q < p := by
  have more := auxiliary.odd
  have square : q ≤ q * q := Nat.le_mul_of_pos_left q (by omega)
  have padded : q * q ≤ 2 ^ stages m * (q * q) := Nat.le_mul_of_pos_left _ (by positivity)
  exact (square.trans padded).trans_lt auxiliary.long

theorem coprime_dim : (2 ^ stages m).Coprime p := by
  have := auxiliary.odd
  have := modulus_lt auxiliary
  exact ((Nat.coprime_primes Nat.prime_two auxiliary.prime).mpr (by omega)).pow_left _

theorem primitive (half : (r : ZMod p) ^ 2 ^ (stages m - 1) = -1) : IsPrimitiveRoot (r : ZMod p) (2 ^ stages m) := by
  have : Fact p.Prime := ⟨auxiliary.prime⟩
  have : Fact (2 < p) := ⟨auxiliary.odd.trans (modulus_lt auxiliary)⟩
  have : Fact (Nat.Prime 2) := ⟨Nat.prime_two⟩
  have positive := one_le_stages auxiliary
  rw [IsPrimitiveRoot.iff_orderOf, ← Nat.sub_add_cancel positive]
  apply orderOf_eq_prime_pow
  · rw [half]
    exact ZMod.neg_one_ne_one
  · rw [pow_succ, pow_mul, half, neg_one_sq]

/-- No sum of products reaches the auxiliary prime. -/
theorem cyclic_lt {a b : ℕ → ℕ} (ha : ∀ i, a i ≤ q) (hb : ∀ i, b i ≤ q) (j : ℕ) : cyclic (2 ^ stages m) a b j < p :=
  (cyclic_le ha hb j).trans_lt auxiliary.long

variable (prepared : Prepared w m q root p r tables)
include prepared

/-- The auxiliary convolution, from the two factors to the transform back. -/
theorem convolution_range {a b : ℕ → ℕ} (ha : ∀ i, a i ≤ q) (hb : ∀ i, b i ≤ q) :
    ∃ (RA : Work) (RC : WordVector) (notes : List ℤ),
      forwardTransformIterative w p ((List.range (2 ^ stages m)).map a) (tables.rootOfUnityTableByModulusRoot (p, r)).values
        (2 ^ stages m) = .ok RA ∧
      WordVector.modMul w ⟨RA.cells, p⟩ ⟨(List.range (2 ^ stages m)).map fun k =>
        (dft (r : ZMod p) (2 ^ stages m) (fun j => (b j : ZMod p)) k).val, p⟩ = .ok RC ∧ RC.modulus = p ∧
      inverseTransformIterative w p RC.values (tables.rootOfUnityInverseTableByModulusRoot (p, r)).values (2 ^ stages m) =
        .ok ⟨(List.range (2 ^ stages m)).map fun j => cyclic (2 ^ stages m) a b j, notes⟩ := by
  have : Fact p.Prime := ⟨auxiliary.prime⟩
  have below : ∀ i, a i < p := fun i => (ha i).trans_lt (modulus_lt auxiliary)
  obtain ⟨notes, forward⟩ := forward_range (one_le_stages auxiliary) auxiliary.short auxiliary.suitable prepared.half
    prepared.roots fun i _ => below i
  have product := modMul_range auxiliary.suitable (n := 2 ^ stages m)
    (f := fun k => (dft (r : ZMod p) (2 ^ stages m) (fun j => (a j : ZMod p)) k).val)
    (g := fun k => (dft (r : ZMod p) (2 ^ stages m) (fun j => (b j : ZMod p)) k).val)
    (fun _ _ => ZMod.val_lt _) (fun _ _ => ZMod.val_lt _)
  obtain ⟨r', inverse, inverseRoots⟩ := prepared.inverseRoots
  have half' : r' ^ 2 ^ (stages m - 1) = -1 := by
    have both : (r : ZMod p) ^ 2 ^ (stages m - 1) * r' ^ 2 ^ (stages m - 1) = 1 := by rw [← mul_pow, inverse, one_pow]
    rw [prepared.half] at both
    linear_combination -both
  obtain ⟨u, notes', unit, back⟩ := inverse_range (one_le_stages auxiliary) auxiliary.short auxiliary.suitable half'
    inverseRoots (f := fun k => (dft (r : ZMod p) (2 ^ stages m) (fun j => (a j : ZMod p)) k).val *
      (dft (r : ZMod p) (2 ^ stages m) (fun j => (b j : ZMod p)) k).val % p)
    (fun _ _ => Nat.mod_lt _ auxiliary.prime.pos) (coprime_dim auxiliary)
  refine ⟨_, _, notes', forward, product, rfl, back.trans ?_⟩
  congr 2
  refine List.map_congr_left fun j member => ?_
  have inside := List.mem_range.mp member
  have factors : ∀ k, (((dft (r : ZMod p) (2 ^ stages m) (fun j => (a j : ZMod p)) k).val *
      (dft (r : ZMod p) (2 ^ stages m) (fun j => (b j : ZMod p)) k).val % p : ℕ) : ZMod p) =
      dft (r : ZMod p) (2 ^ stages m) (fun j => (a j : ZMod p)) k * dft (r : ZMod p) (2 ^ stages m) (fun j => (b j : ZMod p)) k := by
    intro k
    rw [ZMod.natCast_mod, Nat.cast_mul, ZMod.natCast_zmod_val, ZMod.natCast_zmod_val]
  simp only [factors]
  rw [dft_mul (primitive auxiliary prepared.half) inverse _ _ inside, ← mul_assoc]
  push_cast
  rw [unit, one_mul, ← cast_cyclic, ZMod.val_natCast_of_lt (cyclic_lt auxiliary ha hb j)]

/-- The vector that is transformed, after the product with the powers. -/
def chirped (m q root : ℕ) (x : ℕ → ℕ) (i : ℕ) : ℕ := if i < m then x i * (root ^ exponent m i % q) % q else 0

omit auxiliary prepared in
theorem chirped_le (pos : 0 < q) (root : ℕ) (x : ℕ → ℕ) (i : ℕ) : chirped m q root x i ≤ q := by
  unfold chirped
  split
  · exact (Nat.mod_lt _ pos).le
  · exact pos.le

theorem modMul_powers {x : ℕ → ℕ} (hx : ∀ i < m, x i < q) :
    WordVector.modMul w ⟨(List.range m).map x, q⟩ (tables.powersTableByModulusRoot (q, root)) =
      .ok ⟨(List.range m).map fun i => x i * (root ^ exponent m i % q) % q, q⟩ := by
  rw [prepared.powers]
  exact modMul_range auxiliary.modulus hx fun i _ => Nat.mod_lt _ (by have := auxiliary.odd; omega)

theorem forwardTransform_eq {b : List ℕ} (kernelRun : kernel w m (q, root) = .ok b) (hb : ∀ j, b.getD j 0 ≤ q) {x : ℕ → ℕ}
    (hx : ∀ i < m, x i < q) :
    forwardTransform w tables ⟨(List.range m).map x, q⟩ root m = .ok ⟨(List.range m).map fun k =>
      cyclic (2 ^ stages m) (chirped m q root x) (fun j => b.getD j 0) (m - 1 + k) % q * (root ^ exponent m k % q) % q, q⟩ := by
  have two := auxiliary.some
  have more := auxiliary.odd
  have dim := nttDim_eq auxiliary
  have reach : 2 * m - 1 ≤ 2 ^ stages m := Nat.le_pow_clog one_lt_two _
  obtain ⟨-, before⟩ := pred_eq (show 0 < m by omega) auxiliary.word
  have last : 2 * (m - 1) % 2 ^ 32 = m - 1 + (m - 1) := by
    have := auxiliary.word
    rw [Nat.mod_eq_of_lt (by omega)]
    omega
  obtain ⟨b', kernelRun', product⟩ := prepared.product
  cases kernelRun.symm.trans kernelRun'
  obtain ⟨RA, RC, notes, forward, multiplied, modulus, back⟩ := convolution_range auxiliary prepared
    (a := chirped m q root x) (b := fun j => b.getD j 0) (chirped_le (by omega) root x) hb
  have padded : padZeros ⟨(List.range m).map fun i => x i * (root ^ exponent m i % q) % q, q⟩ (2 ^ stages m) =
      .ok ⟨(List.range (2 ^ stages m)).map (chirped m q root x), q⟩ := by
    rw [padZeros_ok _ (by simp; omega)]
    simp only [getD_range]
    rfl
  have cut := resize_range (show m - 1 ≤ m - 1 + (m - 1) by omega) (show m - 1 + (m - 1) < 2 ^ stages m by omega)
    (fun j => cyclic (2 ^ stages m) (chirped m q root x) (fun j => b.getD j 0) j) p
  rw [Nat.add_sub_cancel_left, Nat.sub_add_cancel (by omega)] at cut
  have narrowed := modEq_range (w := w) more (n := m)
    (f := fun k => cyclic (2 ^ stages m) (chirped m q root x) (fun j => b.getD j 0) (m - 1 + k)) (by
      intro k _
      have := cyclic_lt auxiliary (chirped_le (show 0 < q by omega) root x (m := m)) hb (m - 1 + k)
      have := auxiliary.suitable.lt
      have := modulus_lt auxiliary
      omega)
  have scaled := modMul_powers auxiliary prepared
    (x := fun k => cyclic (2 ^ stages m) (chirped m q root x) (fun j => b.getD j 0) (m - 1 + k) % q)
    fun _ _ => Nat.mod_lt _ (by omega)
  unfold forwardTransform forwardTransformWith
  simp only [prepared.default, dim, before, last, List.length_map, List.length_range, ne_eq, not_true, if_false]
  rw [modMul_powers auxiliary prepared hx]
  dsimp only [bind, Except.bind]
  rw [padded]
  dsimp only
  rw [setModulus_ok auxiliary.suitable]
  dsimp only
  rw [forward]
  dsimp only
  rw [product, multiplied]
  dsimp only
  rw [modulus, back]
  dsimp only
  rw [cut]
  dsimp only
  rw [setModulus_ok auxiliary.modulus]
  dsimp only
  rw [narrowed]
  exact scaled

end Transform

/-! ### The exponents -/

theorem exponent_modEq {m i : ℕ} (fits : m ≤ 2 ^ 16 ∨ m ∣ 2 ^ 31) (hi : i < m) : exponent m i ≡ i ^ 2 [MOD 2 * m] := by
  have wrapped : i * i % 2 ^ 32 ≡ i * i [MOD 2 * m] := by
    rcases fits with small | divides
    · rw [Nat.mod_eq_of_lt (show i * i < 2 ^ 32 by nlinarith)]
    · exact (Nat.mod_modEq _ _).of_dvd ((mul_dvd_mul_left 2 divides).trans (by norm_num))
  rw [pow_two]
  exact (Nat.mod_modEq _ _).trans wrapped

/-- What is asked of a transform: the entries are the sums, and no entry of the auxiliary convolution reaches its modulus. -/
structure Transforms (w : NativeSize) (tables : Tables) (root m : ℕ) (x : WordVector) : Prop where
  entries : forwardTransform w tables x root m = .ok ⟨(List.range m).map fun k =>
    (∑ i ∈ Finset.range m, x.values.getD i 0 * root ^ (2 * i * k)) % x.modulus, x.modulus⟩
  exact : ∃ a b, x.modMul w (tables.powersTableByModulusRoot (x.modulus, root)) = .ok a ∧
    kernel w m (x.modulus, root) = .ok b ∧ ∀ j, cyclic (nttDim m) (fun i => a.values.getD i 0) (fun i => b.getD i 0) j <
      (tables.defaultNTTModulusRoot x.modulus).1

section Exponents
variable {w : NativeSize} {m q root p r : ℕ} {tables : Tables} (auxiliary : Auxiliary w m q p)
  (prepared : Prepared w m q root p r tables) (prime : q.Prime) (below : root < q) (order : orderOf (root : ZMod q) = 2 * m)
include auxiliary prime below order

omit auxiliary prime below order in
theorem chirped_cast (x : ℕ → ℕ) : (fun i => (chirped m q root x i : ZMod q)) =
    fun i => if i < m then (x i : ZMod q) * (root : ZMod q) ^ exponent m i else 0 := by
  funext i
  unfold chirped
  split
  · rw [ZMod.natCast_mod, Nat.cast_mul, ZMod.natCast_mod, Nat.cast_pow]
  · exact Nat.cast_zero

/-- The kernel, and the inverse root in it. -/
theorem kernel_values : ∃ (b : List ℕ) (ρ' : ZMod q), kernel w m (q, root) = .ok b ∧ b.length = 2 * m - 1 ∧
    (root : ZMod q) * ρ' = 1 ∧ (∀ j, b.getD j 0 ≤ q) ∧ ∀ j < 2 * m - 1, (b.getD j 0 : ZMod q) = ρ' ^ exponent m (offset m j) := by
  have some := auxiliary.some
  have room := auxiliary.modulus.lt
  have more := auxiliary.odd
  have positive : root ≠ 0 := by
    rintro rfl
    have period := pow_orderOf_eq_one ((0 : ℕ) : ZMod q)
    have : Fact (1 < q) := ⟨by omega⟩
    rw [order, Nat.cast_zero, zero_pow (by omega)] at period
    exact zero_ne_one period
  obtain ⟨rootInv, less, unit, run⟩ := kernel_ok (w := w) (show 0 < m by omega) auxiliary.word auxiliary.modulus.two_le
    (show 2 * q < 2 ^ w.bits by omega) (Nat.coprime_of_lt_prime positive below prime).symm
  refine ⟨_, rootInv, run, by simp, ?_, fun j => ?_, fun j hj => ?_⟩
  · have product := (ZMod.natCast_eq_natCast_iff _ _ _).mpr unit
    rw [mul_comm]
    exact_mod_cast product
  · rw [getD_range]
    split
    · exact (Nat.mod_lt _ (by omega)).le
    · exact Nat.zero_le q
  · rw [getD_range, if_pos hj, ZMod.natCast_mod, Nat.cast_pow]

include prepared

/-- The entries as residues, whatever stands for the squares. -/
theorem forwardTransform_residues {x : ℕ → ℕ} (hx : ∀ i < m, x i < q) :
    ∃ (b : List ℕ) (ρ' : ZMod q) (f : ℕ → ℕ), kernel w m (q, root) = .ok b ∧ (root : ZMod q) * ρ' = 1 ∧
      (∀ j, b.getD j 0 ≤ q) ∧ (∀ j < 2 * m - 1, (b.getD j 0 : ZMod q) = ρ' ^ exponent m (offset m j)) ∧
      forwardTransform w tables ⟨(List.range m).map x, q⟩ root m = .ok ⟨(List.range m).map fun k => f k % q, q⟩ ∧
      ∀ k < m, (f k : ZMod q) = (root : ZMod q) ^ exponent m k * cyclic (2 ^ stages m)
        (fun i => if i < m then (x i : ZMod q) * (root : ZMod q) ^ exponent m i else 0) (fun j => (b.getD j 0 : ZMod q)) (m - 1 + k) := by
  obtain ⟨b, ρ', run, -, inverse, bounded, values⟩ := kernel_values auxiliary prime below order
  refine ⟨b, ρ', _, run, inverse, bounded, values, forwardTransform_eq auxiliary prepared run bounded hx, fun k _ => ?_⟩
  rw [Nat.cast_mul, ZMod.natCast_mod, ZMod.natCast_mod, Nat.cast_pow, cast_cyclic, chirped_cast, mul_comm]

theorem transforms_of_fits (fits : m ≤ 2 ^ 16 ∨ m ∣ 2 ^ 31) {x : ℕ → ℕ} (hx : ∀ i < m, x i < q) :
    Transforms w tables root m ⟨(List.range m).map x, q⟩ := by
  have two := auxiliary.some
  have more := auxiliary.odd
  have period : (root : ZMod q) ^ (2 * m) = 1 := order ▸ pow_orderOf_eq_one _
  obtain ⟨b, ρ', f, run, inverse, bounded, values, transformed, residues⟩ :=
    forwardTransform_residues auxiliary prepared prime below order hx
  have period' : ρ' ^ (2 * m) = 1 := by
    have both : (root : ZMod q) ^ (2 * m) * ρ' ^ (2 * m) = 1 := by rw [← mul_pow, inverse, one_pow]
    rwa [period, one_mul] at both
  have square : ∀ {ρ : ZMod q}, ρ ^ (2 * m) = 1 → ∀ i < m, ρ ^ exponent m i = ρ ^ i ^ 2 := fun unit i hi =>
    pow_eq_pow_of_modEq (exponent_modEq fits hi) unit
  constructor
  · rw [transformed]
    congr 2
    refine List.map_congr_left fun k member => ?_
    have hk := List.mem_range.mp member
    rw [← Nat.ModEq, ← ZMod.natCast_eq_natCast_iff, residues k hk, square period k hk]
    have place : ∀ i < m, ∀ j < 2 * m - 1, offset m j = i → (b.getD j 0 : ZMod q) = ρ' ^ i ^ 2 := by
      rintro _ hi j hj rfl
      rw [values j hj, square period' _ hi]
    have factor : (fun i => if i < m then (x i : ZMod q) * (root : ZMod q) ^ exponent m i else 0) =
        fun i => if i < m then (x i : ZMod q) * (root : ZMod q) ^ i ^ 2 else 0 := by
      funext i
      split
      · rename_i hi
        rw [square period i hi]
      · rfl
    rw [factor, chirp (x := fun i => (x i : ZMod q)) (b := fun j => (b.getD j 0 : ZMod q)) inverse hk
      (show 2 * m - 1 ≤ 2 ^ stages m from Nat.le_pow_clog one_lt_two _)
      (fun i hi => place i hi _ (by omega) (by unfold offset; omega))
      (fun i hi => place i hi _ (by omega) (by unfold offset; omega))]
    push_cast
    refine Finset.sum_congr rfl fun i member => ?_
    rw [getD_range, if_pos (Finset.mem_range.mp member)]
  · refine ⟨_, b, modMul_powers auxiliary prepared hx, run, fun j => ?_⟩
    rw [nttDim_eq auxiliary, prepared.default]
    refine cyclic_lt auxiliary (fun i => ?_) bounded j
    rw [getD_range]
    exact chirped_le (show 0 < q by omega) root x i

/-- The unit vector at the first index whose square wraps. -/
theorem divides_of_transforms {n : ℕ} (square : n * n = 2 ^ 32) (inside : n < m)
    (transforms : Transforms w tables root m ⟨(List.range m).map fun i => if i = n then 1 else 0, q⟩) : 2 * m ∣ 2 ^ 32 := by
  have more := auxiliary.odd
  have some : 0 < n := by
    rcases Nat.eq_zero_or_pos n with rfl | some
    · norm_num at square
    · exact some
  have hx : ∀ i < m, (if i = n then 1 else 0) < q := by
    intro i _
    split <;> omega
  obtain ⟨b, ρ', f, run, inverse, bounded, values, transformed, residues⟩ :=
    forwardTransform_residues auxiliary prepared prime below order hx
  have first : exponent m 1 = 1 := by
    rw [exponent, one_mul, Nat.mod_eq_of_lt (show 1 < 2 ^ 32 by norm_num), Nat.mod_eq_of_lt (by omega)]
  have wrapped : exponent m n = 0 := by rw [exponent, square, Nat.mod_self, Nat.zero_mod]
  have near : exponent m (n - 1) ≡ (n - 1) * (n - 1) [MOD 2 * m] := by
    rw [exponent, Nat.mod_eq_of_lt (lt_of_lt_of_le (Nat.mul_self_lt_mul_self (show n - 1 < n by omega)) square.le)]
    exact Nat.mod_modEq _ _
  have unit : ∀ e, (root : ZMod q) ^ e * ρ' ^ e = 1 := fun e => by rw [← mul_pow, inverse, one_pow]
  have entry : (f 1 : ZMod q) = (root : ZMod q) ^ (2 * n) := by
    have same := congrArg (fun v => v.values.getD 1 0) (Except.ok.inj (transformed.symm.trans transforms.entries))
    dsimp only at same
    rw [getD_range, getD_range, if_pos (by omega), if_pos (by omega), ← Nat.ModEq, ← ZMod.natCast_eq_natCast_iff] at same
    rw [same, Nat.cast_sum, Finset.sum_eq_single_of_mem n (Finset.mem_range.mpr inside)]
    · rw [getD_range, if_pos inside, if_pos rfl, one_mul, mul_one, Nat.cast_pow]
    · intro i member other
      rw [getD_range, if_pos (Finset.mem_range.mp member), if_neg other, zero_mul, Nat.cast_zero]
  have computed : (f 1 : ZMod q) = (root : ZMod q) * ρ' ^ ((n - 1) * (n - 1)) := by
    have reach : 2 * m - 1 ≤ 2 ^ stages m := Nat.le_pow_clog one_lt_two _
    have away : offset m (m - 1 + 1 - n) = n - 1 := by
      unfold offset
      omega
    have back : ρ' ^ (2 * m) = 1 := by
      have both := unit (2 * m)
      rwa [← order, pow_orderOf_eq_one, one_mul, order] at both
    rw [residues 1 (by omega), first, pow_one, cyclic_window _ (show m ≤ 2 ^ stages m by omega) (by omega) (by omega)
      fun u hu => if_neg (not_lt.mpr hu), Finset.sum_eq_single_of_mem n (Finset.mem_range.mpr inside)]
    · rw [if_pos inside, if_pos rfl, Nat.cast_one, one_mul, wrapped, pow_zero, one_mul, values _ (by omega), away,
        pow_eq_pow_of_modEq near back]
    · intro i member other
      rw [if_pos (Finset.mem_range.mp member), if_neg other, Nat.cast_zero, zero_mul, zero_mul]
  have whole : (root : ZMod q) ^ 2 ^ 32 = 1 := by
    have split : 2 * n + (n - 1) * (n - 1) = 2 ^ 32 + 1 := by
      obtain ⟨k, rfl⟩ : ∃ k, n = k + 1 := ⟨n - 1, by omega⟩
      rw [Nat.add_sub_cancel, ← square]
      ring
    have shifted : (root : ZMod q) ^ (2 ^ 32 + 1) = root := by
      rw [← split, pow_add, ← entry, computed]
      linear_combination (root : ZMod q) * unit ((n - 1) * (n - 1))
    rw [pow_succ] at shifted
    linear_combination ρ' * shifted + (1 - (root : ZMod q) ^ 2 ^ 32) * inverse
  rw [← order]
  exact orderOf_dvd_of_pow_eq_one whole

theorem fits_of_transforms
    (all : ∀ x : ℕ → ℕ, (∀ i < m, x i < q) → Transforms w tables root m ⟨(List.range m).map x, q⟩) :
    m ≤ 2 ^ 16 ∨ m ∣ 2 ^ 31 := by
  by_contra fails
  rw [not_or, not_le] at fails
  obtain ⟨large, apart⟩ := fails
  have more := auxiliary.odd
  refine apart (Nat.dvd_of_mul_dvd_mul_left two_pos ?_)
  exact divides_of_transforms auxiliary prepared prime below order (n := 2 ^ 16) (by norm_num) large
    (all _ fun i _ => by split <;> omega)

end Exponents

end MultiKeyFHE.BluesteinFFT
