import MultiKeyFHE.Transform.Tables
import MultiKeyFHE.Native.Poly
import MultiKeyFHE.Native.WordVector
import Mathlib.RingTheory.RootsOfUnity.PrimitiveRoots
import Mathlib.NumberTheory.LucasPrimality

/-!
# Negacyclic products by the transform

With the tables of `PreCompute` the loops evaluate at the odd powers of the root, the backward ones undo it, and
entrywise products become products modulo `X ^ n + 1`. All of this is about lengths up to `2 ^ 24`, for
which there are tables.
-/

namespace MultiKeyFHE.NumberTheoreticTransform
open NativeInteger InPlace Butterfly Negacyclic NegPoly

variable (w : NativeSize) (c : Compiler) (q : ℕ)

/-- In place and out of place, with one table and with two. -/
def forwardRuns (tables : Tables) (x : List ℕ) : List (Except Fault Work) := [
  forwardTransformToBitReverseInPlacePrecon w c q tables.rootOfUnityReverseTable tables.rootOfUnityPreconReverseTable x,
  forwardTransformToBitReverseInPlace w q tables.rootOfUnityReverseTable x,
  forwardTransformToBitReverse w q x tables.rootOfUnityReverseTable x.length,
  forwardTransformToBitReversePrecon w q x tables.rootOfUnityReverseTable tables.rootOfUnityPreconReverseTable x.length]

/-- The inverse of the length is looked up by the bits of the last index. -/
def inversePrecon (tables : Tables) (x : List ℕ) : Except Fault Work := do
  let msb := (x.length - 1).size
  let cycloOrderInv ← load .outOfRange tables.cycloOrderInverseTable msb
  let preconCycloOrderInv ← load .outOfRange tables.cycloOrderInversePreconTable msb
  inverseTransformFromBitReverseInPlacePrecon w c q tables.rootOfUnityInverseReverseTable
    tables.rootOfUnityInversePreconReverseTable cycloOrderInv preconCycloOrderInv x

def inverseBarrettRun (tables : Tables) (x : List ℕ) : Except Fault Work := do
  let cycloOrderInv ← load .outOfRange tables.cycloOrderInverseTable (x.length - 1).size
  inverseTransformFromBitReverseInPlace w q tables.rootOfUnityInverseReverseTable cycloOrderInv x

def inverseRuns (tables : Tables) (x : List ℕ) : List (Except Fault Work) :=
  [inversePrecon w c q tables x, inverseBarrettRun w q tables x]

/-- Every run returns `X`, all of it below `q`, and forms only sums below `2 * q`. -/
structure AllReturn (runs : List (Except Fault Work)) (X : List ℕ) : Prop where
  runs : ∀ run ∈ runs, ∃ sums, run = .ok ⟨X, sums⟩ ∧ ∀ s ∈ sums, 0 ≤ s ∧ s < 2 * q
  below : ∀ a ∈ X, a < q

/-- What the transforms are for, on the vectors `x` and `y` of length `n`. -/
structure NegacyclicRun (psi n : ℕ) (x y : List ℕ) (tables : Tables) (X Y Z z x' : List ℕ) : Prop where
  built : buildTables w psi (2 * n) q = .ok tables
  forwardX : AllReturn q (forwardRuns w c q tables x) X
  forwardY : AllReturn q (forwardRuns w c q tables y) Y
  lengthX : X.length = n
  evaluates : ∀ j < n, X.getD j 0 =
    (∑ i ∈ Finset.range n, x.getD i 0 * psi ^ (i * (2 * BitReversal.reverseBits n.log2 j + 1))) % q
  undoes : AllReturn q (inverseRuns w c q tables X) x
  inverseAgree : AllReturn q (inverseRuns w c q tables x) x'
  product : WordVector.modMul w ⟨X, q⟩ ⟨Y, q⟩ = .ok ⟨Z, q⟩
  back : AllReturn q (inverseRuns w c q tables Z) z
  negacyclic : (NativePoly.ofValues z : NativePoly n q) = NativePoly.ofValues x * NativePoly.ofValues y
  lengthz : z.length = n

def MultipliesNegacyclic (psi n : ℕ) (x y : List ℕ) : Prop :=
  ∃ tables X Y Z z x', NegacyclicRun w c q psi n x y tables X Y Z z x'

variable {w c q} {L : ℕ} {ψ φ : ZMod q} {u : ℕ} {tables : Tables}

theorem residue_injective {a b : ℕ} (ha : a < q) (hb : b < q) (same : residue q a = residue q b) : a = b := by
  have modEq := (ZMod.natCast_eq_natCast_iff _ _ _).mp same
  rwa [Nat.ModEq, Nat.mod_eq_of_lt ha, Nat.mod_eq_of_lt hb] at modEq

/-- Runs that compute the same residues return the same vector. -/
theorem AllReturn.of_computes {runs : List (Except Fault Work)} {n : ℕ} {v : ℕ → ZMod q} {X : List ℕ}
    (computes : ∀ run ∈ runs, Computes q n run v) (length : X.length = n) (below : ∀ a ∈ X, a < q)
    (same : values (residue q) X = v) : AllReturn q runs X := by
  refine ⟨fun run member => ?_, below⟩
  obtain ⟨work, ended, length', good, values'⟩ := computes run member
  have cells : work.cells = X := cells_ext (fun a b ha hb => residue_injective ha hb) (length'.trans length.symm)
    good.cells below (values'.trans same.symm)
  exact ⟨work.notes, by rw [ended, ← cells], good.notes⟩

theorem Computes.exists_cells {run : Except Fault Work} {n : ℕ} {v : ℕ → ZMod q} (computes : Computes q n run v) :
    ∃ X : List ℕ, X.length = n ∧ (∀ a ∈ X, a < q) ∧ values (residue q) X = v := by
  obtain ⟨work, -, length, good, values'⟩ := computes
  exact ⟨work.cells, length, good.cells, values'⟩

section Served
variable (suitable : Suitable w q) (hL : 1 ≤ L) (serve : tables.Serve w q L ψ φ u) {x : List ℕ}
  (length : x.length = 2 ^ L) (reduced : ∀ a ∈ x, a < q)
include suitable hL serve length reduced

theorem forwardRuns_compute : ∀ run ∈ forwardRuns w c q tables x,
    Computes q (2 ^ L) run (forward (twiddle ψ L) L L (values (residue q) x)) := by
  intro run member
  simp only [forwardRuns, List.mem_cons, List.not_mem_nil, or_false, serve.precon] at member
  rcases member with rfl | rfl | rfl | rfl
  · exact forwardInPlacePrecon_computes suitable hL serve.roots length reduced
  · exact forwardInPlace_computes suitable hL serve.roots length reduced
  · exact forward_computes suitable hL serve.roots length reduced
  · exact forwardPrecon_computes suitable hL serve.roots length reduced

theorem inverseRuns_compute : ∀ run ∈ inverseRuns w c q tables x,
    Computes q (2 ^ L) run (scale (residue q u) (backward (twiddle φ L) L L (values (residue q) x))) := by
  intro run member
  have found : load Fault.outOfRange tables.cycloOrderInverseTable L = .ok u := by rw [load, serve.cycloOrder]
  have found' : load Fault.outOfRange tables.cycloOrderInversePreconTable L = .ok (quotient w q u) := by
    rw [load, serve.preconCycloOrder]
  simp only [inverseRuns, inversePrecon, inverseBarrettRun, List.mem_cons, List.not_mem_nil, or_false, length,
    size_two_pow_sub_one, found, found', serve.preconInverses] at member
  rcases member with rfl | rfl
  · exact inverseInPlacePrecon_computes suitable hL serve.inverses length reduced serve.lt
  · exact inverseInPlace_computes suitable serve.inverses length reduced serve.lt

theorem exists_forward : ∃ X, AllReturn q (forwardRuns w c q tables x) X ∧ X.length = 2 ^ L ∧
    values (residue q) X = forward (twiddle ψ L) L L (values (residue q) x) := by
  have computes := forwardRuns_compute (c := c) suitable hL serve length reduced
  obtain ⟨X, lengthX, below, same⟩ := (computes _ (List.mem_cons_self ..)).exists_cells
  exact ⟨X, .of_computes computes lengthX below same, lengthX, same⟩

theorem exists_inverse : ∃ X, AllReturn q (inverseRuns w c q tables x) X := by
  have computes := inverseRuns_compute (c := c) suitable hL serve length reduced
  obtain ⟨X, lengthX, below, same⟩ := (computes _ (List.mem_cons_self ..)).exists_cells
  exact ⟨X, .of_computes computes lengthX below same⟩

/-- Going back from a vector with the residues of the transform of `x` returns `x`. -/
theorem inverse_returns {X : List ℕ} (lengthX : X.length = 2 ^ L) (below : ∀ a ∈ X, a < q)
    (same : values (residue q) X = forward (twiddle ψ L) L L (values (residue q) x)) :
    AllReturn q (inverseRuns w c q tables X) x := by
  refine .of_computes (inverseRuns_compute suitable hL serve lengthX below) length reduced ?_
  have inverse : ∀ k, twiddle φ L k * twiddle ψ L k = 1 := by
    intro k
    rw [twiddle, twiddle, ← mul_pow, serve.inverse, one_pow]
  rw [same, backward_forward inverse, scale_scale, serve.length]
  funext k
  rw [scale, one_mul]

end Served

/-! ### Polynomials -/

theorem values_eq_getD (x : List ℕ) (k : ℕ) : values (residue q) x k = ((x.getD k 0 : ℕ) : ZMod q) := by
  rw [values, List.getD_eq_getElem?_getD]
  cases x[k]? with
  | none => exact Nat.cast_zero.symm
  | some a => rfl

theorem evalAt_ofValues (ρ : ZMod q) (n : ℕ) (x : List ℕ) :
    evalAt ρ (NativePoly.ofValues x : NativePoly n q) = ∑ i ∈ Finset.range n, values (residue q) x i * ρ ^ i := by
  rw [evalAt, Finset.sum_range]
  refine Finset.sum_congr rfl fun i _ => ?_
  rw [values_eq_getD]
  rfl

/-- Where entry `j` of the transform evaluates. -/
theorem forward_eq_evalAt (half : ψ ^ 2 ^ L = -1) (x : List ℕ) {j : ℕ} (hj : j < 2 ^ L) :
    forward (twiddle ψ L) L L (values (residue q) x) j =
      evalAt (ψ ^ (2 * BitReversal.reverseBits L j + 1)) (NativePoly.ofValues x : NativePoly (2 ^ L) q) := by
  rw [forward_eq_sum half _ hj, evalAt_ofValues]
  refine Finset.sum_congr rfl fun i _ => ?_
  rw [← pow_mul, mul_comm i]

theorem odd_pow_pow (half : ψ ^ 2 ^ L = -1) (r : ℕ) : (ψ ^ (2 * r + 1)) ^ 2 ^ L = -1 := by
  rw [← pow_mul, mul_comm, pow_mul, half, (odd_two_mul_add_one r).neg_one_pow]

/-- The residues of a polynomial as a vector. -/
def toValues {n : ℕ} (p : NativePoly n q) : List ℕ := List.ofFn fun i => (p.coeff i).val

theorem toValues_length {n : ℕ} (p : NativePoly n q) : (toValues p).length = n := List.length_ofFn

theorem toValues_lt [NeZero q] {n : ℕ} (p : NativePoly n q) : ∀ a ∈ toValues p, a < q := by
  intro a ha
  obtain ⟨i, rfl⟩ := (List.mem_ofFn' _ _).mp ha
  exact ZMod.val_lt _

theorem ofValues_toValues [NeZero q] {n : ℕ} (p : NativePoly n q) : NativePoly.ofValues (toValues p) = p := by
  refine NegPoly.ext (funext fun i => ?_)
  simp [NativePoly.ofValues, toValues]

theorem modMul_ok (suitable : Suitable w q) {X Y : List ℕ} (length : X.length = Y.length) :
    WordVector.modMul w ⟨X, q⟩ ⟨Y, q⟩ =
      .ok ⟨List.zipWith (fun x y => modMulFastMu w x y q (computeMu w q)) X Y, q⟩ := by
  rw [WordVector.modMul, if_neg (by simp [length]), computeMu_ok suitable]
  rfl

theorem values_zipWith (suitable : Suitable w q) {X Y : List ℕ} (length : X.length = Y.length)
    (hX : ∀ a ∈ X, a < q) (hY : ∀ a ∈ Y, a < q) (k : ℕ) :
    values (residue q) (List.zipWith (fun x y => modMulFastMu w x y q (computeMu w q)) X Y) k =
      values (residue q) X k * values (residue q) Y k := by
  by_cases hk : k < X.length
  · have hk' : k < Y.length := by omega
    rw [values_of_lt (by rw [List.length_zipWith]; omega), values_of_lt hk, values_of_lt hk', List.getElem_zipWith]
    rw [(multiplies_barrett suitable (hY _ (List.getElem_mem hk'))).residue (hX _ (List.getElem_mem hk)), mul_comm]
  · rw [values_of_le (by rw [List.length_zipWith]; omega), values_of_le (v := X) (by omega), zero_mul]

/-- The entrywise product has the residues of the transformed product. -/
theorem forward_product (suitable : Suitable w q) (hL : 1 ≤ L) (serve : tables.Serve w q L ψ φ u)
    (half : ψ ^ 2 ^ L = -1) [NeZero q] (x y : List ℕ) {z : ℕ → ZMod q} (short : ∀ k, 2 ^ L ≤ k → z k = 0)
    (product : ∀ k < 2 ^ L, z k = forward (twiddle ψ L) L L (values (residue q) x) k *
      forward (twiddle ψ L) L L (values (residue q) y) k) :
    z = forward (twiddle ψ L) L L (values (residue q)
      (toValues (NativePoly.ofValues x * NativePoly.ofValues y : NativePoly (2 ^ L) q))) := by
  obtain ⟨P, -, lengthP, values'⟩ := exists_forward (c := .gnu) suitable hL serve
    (toValues_length (NativePoly.ofValues x * NativePoly.ofValues y : NativePoly (2 ^ L) q)) (toValues_lt _)
  funext k
  by_cases hk : k < 2 ^ L
  · rw [product k hk, forward_eq_evalAt half _ hk, forward_eq_evalAt half _ hk, forward_eq_evalAt half _ hk,
      ofValues_toValues, evalAt_mul (odd_pow_pow half _)]
  · rw [short k (by omega), ← values', values_of_le (by omega)]

theorem evaluates_of_values {psi : ℕ} (half : residue q psi ^ 2 ^ L = -1) {x X : List ℕ} (below : ∀ a ∈ X, a < q)
    (lengthX : X.length = 2 ^ L)
    (same : values (residue q) X = forward (twiddle (residue q psi) L) L L (values (residue q) x)) {j : ℕ}
    (hj : j < 2 ^ L) : X.getD j 0 =
      (∑ i ∈ Finset.range (2 ^ L), x.getD i 0 * psi ^ (i * (2 * BitReversal.reverseBits (2 ^ L).log2 j + 1))) % q := by
  have inside : X.getD j 0 < q := by
    rw [List.getD_eq_getElem _ _ (by omega)]
    exact below _ (List.getElem_mem _)
  have residues := congrFun same j
  rw [forward_eq_sum half _ hj, values_eq_getD] at residues
  simp only [values_eq_getD, residue] at residues
  rw [Nat.log2_two_pow, ← Nat.mod_eq_of_lt inside]
  exact (ZMod.natCast_eq_natCast_iff' _ _ _).mp (by push_cast; exact residues)

/-! ### The transform of a negacyclic product -/

theorem half_of_primitive (prime : q.Prime) {psi : ℕ} (root : IsPrimitiveRoot (psi : ZMod q) (2 ^ (L + 1))) :
    residue q psi ^ 2 ^ L = -1 := by
  have : Fact q.Prime := ⟨prime⟩
  have square : residue q psi ^ 2 ^ L * residue q psi ^ 2 ^ L = 1 := by
    rw [← pow_add, ← two_mul, ← pow_succ']
    exact root.pow_eq_one
  rcases mul_self_eq_one_iff.mp square with one | minus
  · have := root.pow_ne_one_of_pos_of_lt (by positivity) (Nat.pow_lt_pow_right (by norm_num) (Nat.lt_succ_self L))
    exact absurd one this
  · exact minus

theorem suitable_of_prime (prime : q.Prime) (two : q ≠ 2) (room : ¬ modulusTooLarge w q) :
    Suitable w q ∧ Nat.Coprime 2 q := by
  have odd : q % 2 = 1 := Nat.odd_iff.mp (prime.odd_of_ne_two two)
  refine ⟨⟨prime.two_le, room, ?_⟩, Nat.coprime_two_left.mpr (Nat.odd_iff.mpr odd)⟩
  intro power
  have even : q % 2 = 0 := by
    rw [power]
    exact Nat.mod_eq_zero_of_dvd (dvd_pow_self 2 (by cases w <;> decide))
  omega

theorem ne_two_of_primitive {psi : ℕ} (root : IsPrimitiveRoot (psi : ZMod q) (2 ^ (L + 1))) : q ≠ 2 := by
  rintro rfl
  have one : (psi : ZMod 2) = 1 := by
    have nonzero := root.ne_zero (by positivity)
    revert nonzero
    generalize (psi : ZMod 2) = a
    revert a
    decide
  rw [one] at root
  have order := root.eq_orderOf
  rw [orderOf_one] at order
  have : 2 ^ 1 ≤ 2 ^ (L + 1) := Nat.pow_le_pow_right two_pos (by omega)
  omega

theorem coprime_of_primitive (prime : q.Prime) {psi : ℕ} (root : IsPrimitiveRoot (psi : ZMod q) (2 ^ (L + 1))) :
    psi.Coprime q := by
  have : Fact q.Prime := ⟨prime⟩
  rw [Nat.coprime_comm, prime.coprime_iff_not_dvd]
  intro divides
  have zero : (psi : ZMod q) = 0 := (ZMod.natCast_eq_zero_iff _ _).mpr divides
  exact root.ne_zero (by positivity) zero

/-- For a root of a length that has tables, the loops multiply modulo `X ^ n + 1`. -/
theorem multipliesNegacyclic (suitable : Suitable w q) (hL : 1 ≤ L) (small : L ≤ 24) (odd : Nat.Coprime 2 q) [NeZero q]
    {psi : ℕ} (hpsi : psi < q) (unit : psi.Coprime q) (half : residue q psi ^ 2 ^ L = -1) {x y : List ℕ}
    (lengthx : x.length = 2 ^ L) (lengthy : y.length = 2 ^ L) (hx : ∀ a ∈ x, a < q) (hy : ∀ a ∈ y, a < q) :
    MultipliesNegacyclic w c q psi (2 ^ L) x y := by
  obtain ⟨tables, φ, u, built, serve⟩ := buildTables_ok suitable hL small odd hpsi unit
  obtain ⟨X, forwardX, lengthX, valuesX⟩ := exists_forward (c := c) suitable hL serve lengthx hx
  obtain ⟨Y, forwardY, lengthY, valuesY⟩ := exists_forward (c := c) suitable hL serve lengthy hy
  obtain ⟨x', agree⟩ := exists_inverse (c := c) suitable hL serve lengthx hx
  have same : X.length = Y.length := lengthX.trans lengthY.symm
  have multiplied := modMul_ok suitable same
  have productValues := values_zipWith suitable same forwardX.below forwardY.below
  have lengthZ : (List.zipWith (fun x y => modMulFastMu w x y q (computeMu w q)) X Y).length = 2 ^ L := by
    rw [List.length_zipWith]
    omega
  have belowZ : ∀ a ∈ List.zipWith (fun x y => modMulFastMu w x y q (computeMu w q)) X Y, a < q := by
    intro a ha
    obtain ⟨k, hk, rfl⟩ := List.mem_iff_getElem.mp ha
    rw [List.getElem_zipWith]
    rw [List.length_zipWith] at hk
    exact (multiplies_barrett suitable (forwardY.below _ (List.getElem_mem _))).lt (forwardX.below _ (List.getElem_mem _))
  generalize List.zipWith (fun x y => modMulFastMu w x y q (computeMu w q)) X Y = Z at *
  have transformed := forward_product (z := values (residue q) Z) suitable hL serve half x y
    (fun k hk => values_of_le (by omega)) fun k _ => by
    rw [productValues, valuesX, valuesY]
  refine ⟨tables, X, Y, Z, toValues (NativePoly.ofValues x * NativePoly.ofValues y : NativePoly (2 ^ L) q), x',
    ⟨?_, forwardX, forwardY, lengthX, ?_, ?_, agree, multiplied, ?_, ofValues_toValues _, toValues_length _⟩⟩
  · rwa [← pow_succ']
  · exact fun j hj => evaluates_of_values half forwardX.below lengthX valuesX hj
  · exact inverse_returns suitable hL serve lengthx hx lengthX forwardX.below valuesX
  · exact inverse_returns suitable hL serve (toValues_length _) (toValues_lt _) lengthZ belowZ transformed

/-- Where there are no tables there is no transform. -/
theorem not_multipliesNegacyclic (suitable : Suitable w q) (large : 25 ≤ L) (fits : L ≤ 31) {psi : ℕ}
    (unit : psi.Coprime q) (x y : List ℕ) : ¬ MultipliesNegacyclic w c q psi (2 ^ L) x y := by
  rintro ⟨tables, X, Y, Z, z, x', run⟩
  have built := run.built
  rw [← pow_succ', buildTables, buildPowers_fails suitable large fits unit] at built
  cases built

/-- Six loops, one negacyclic product: up to `2 ^ 24` entries, and not beyond. -/
theorem transform_negacyclic_iff (w : NativeSize) (c : Compiler) {q L psi : ℕ} (hL : 1 ≤ L) (order : 2 ^ (L + 1) < 2 ^ 32)
    (prime : q.Prime) (room : ¬ modulusTooLarge w q) (hpsi : psi < q)
    (root : IsPrimitiveRoot (psi : ZMod q) (2 ^ (L + 1))) {x y : List ℕ} (lengthx : x.length = 2 ^ L)
    (lengthy : y.length = 2 ^ L) (hx : ∀ a ∈ x, a < q) (hy : ∀ a ∈ y, a < q) :
    MultipliesNegacyclic w c q psi (2 ^ L) x y ↔ 2 ^ L ≤ 2 ^ 24 := by
  have : NeZero q := ⟨prime.ne_zero⟩
  obtain ⟨suitable, odd⟩ := suitable_of_prime prime (ne_two_of_primitive root) room
  have unit := coprime_of_primitive prime root
  have fits : L + 1 < 32 := (Nat.pow_lt_pow_iff_right (by norm_num)).mp order
  constructor
  · intro multiplies
    by_contra large
    have large' : 24 < L := (Nat.pow_lt_pow_iff_right (by norm_num)).mp (Nat.not_le.mp large)
    exact not_multipliesNegacyclic suitable large' (by omega) unit x y multiplies
  · intro small
    have small' : L ≤ 24 := (Nat.pow_le_pow_iff_right (by norm_num)).mp small
    exact multipliesNegacyclic suitable hL small' odd hpsi unit (half_of_primitive prime root) lengthx lengthy hx hy

theorem five_multipliesNegacyclic : MultipliesNegacyclic .w64 .gnu 5 2 (2 ^ 1) [1, 2] [3, 4] :=
  (transform_negacyclic_iff .w64 .gnu le_rfl (by norm_num) Nat.prime_five (by decide) (by norm_num)
    (IsPrimitiveRoot.mk_of_lt _ (by norm_num) (by decide) (by
      intro l pos below
      have : l < 4 := below
      interval_cases l <;> decide)) rfl rfl (by decide) (by decide)).mpr (by norm_num)

/-! ### A length without tables

`7 * 2 ^ 26 + 1` is prime and `3 ^ 7` a root of order `2 ^ 26` modulo it. -/

theorem iterate_square (m a k : ℕ) : (((fun a => a * a % m)^[k] a : ℕ) : ZMod m) = (a : ZMod m) ^ 2 ^ k := by
  induction k generalizing a with
  | zero => rw [Function.iterate_zero, id, pow_zero, pow_one]
  | succ k ih =>
    rw [Function.iterate_succ_apply, ih, ZMod.natCast_mod, Nat.cast_mul, ← sq, ← pow_mul, pow_succ']

theorem pow_two_pow_25 : ((2187 : ℕ) : ZMod 469762049) ^ 2 ^ 25 = -1 := by
  have value := iterate_square 469762049 2187 25
  rw [show (fun a => a * a % 469762049)^[25] 2187 = 469762048 from rfl] at value
  rw [← value]
  rfl

theorem minus_one_ne_one : (-1 : ZMod 469762049) ≠ 1 := by decide

theorem pow_two_pow_26_ne_one : (3 : ZMod 469762049) ^ 2 ^ 26 ≠ 1 := by
  intro one
  have value := iterate_square 469762049 3 26
  rw [Nat.cast_ofNat (R := ZMod 469762049) (n := 3), one, ← Nat.cast_one] at value
  have residues := (ZMod.natCast_eq_natCast_iff' _ _ _).mp value
  revert residues
  decide

theorem prime_469762049 : Nat.Prime 469762049 := by
  have minus : (3 : ZMod 469762049) ^ (7 * 2 ^ 25) = -1 := by
    rw [pow_mul, ← pow_two_pow_25]
    rfl
  have split : 469762049 - 1 = 7 * 2 ^ 26 := by norm_num
  refine lucas_primality 469762049 3 ?_ ?_
  · rw [split, pow_succ, ← mul_assoc, pow_mul, minus, neg_one_sq]
  · intro p hp divides
    rw [split] at divides ⊢
    rcases hp.dvd_mul.mp divides with h | h
    · obtain rfl := (Nat.prime_dvd_prime_iff_eq hp Nat.prime_seven).mp h
      rw [Nat.mul_div_cancel_left _ (by norm_num)]
      exact pow_two_pow_26_ne_one
    · obtain rfl := (Nat.prime_dvd_prime_iff_eq hp Nat.prime_two).mp (hp.dvd_of_dvd_pow h)
      rw [pow_succ, ← mul_assoc, Nat.mul_div_cancel _ two_pos, minus]
      exact minus_one_ne_one

theorem primitive_2187 : IsPrimitiveRoot ((2187 : ℕ) : ZMod 469762049) (2 ^ (25 + 1)) := by
  rw [IsPrimitiveRoot.iff_orderOf]
  refine orderOf_eq_prime_pow ?_ ?_
  · rw [pow_two_pow_25]
    exact minus_one_ne_one
  · rw [pow_succ, pow_mul, pow_two_pow_25, neg_one_sq]

theorem long_transform_has_no_tables :
    Nat.Prime 469762049 ∧ 469762049 % 2 ^ (25 + 1) = 1 ∧ ¬ modulusTooLarge .w64 469762049 ∧
      IsPrimitiveRoot ((2187 : ℕ) : ZMod 469762049) (2 ^ (25 + 1)) ∧
      ¬ MultipliesNegacyclic .w64 .gnu 469762049 2187 (2 ^ 25) (List.replicate (2 ^ 25) 0) (List.replicate (2 ^ 25) 0) :=
  have room : ¬ modulusTooLarge .w64 469762049 := by decide
  ⟨prime_469762049, by norm_num, room, primitive_2187, not_multipliesNegacyclic
    ⟨by norm_num, room, by norm_num [NativeSize.maxModulusSize]⟩ le_rfl (by norm_num) (by norm_num) _ _⟩

end MultiKeyFHE.NumberTheoreticTransform
