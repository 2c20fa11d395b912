import MultiKeyFHE.Polynomial.Views

/-!
# Automorphisms in either format

`AutomorphismTransform` moves coefficients, with signs, or evaluations, between bit-reversed places. Both are the
substitution of `X ^ k`. Among coefficients a zero that changes its sign becomes the modulus, so that the entries go up
to `q` there.
-/

namespace MultiKeyFHE
open NativeInteger NumberTheoreticTransform Scatter Negacyclic NegPoly

variable {w : NativeSize} {q L psi rho k : ℕ} {f : NativePoly (2 ^ L) q} {x z : List ℕ}

theorem written_getD {π : ℕ → ℕ} {F : ℕ → ℕ} {n j : ℕ} (last : Written π F n n z) (hj : j < n) : z.getD (π j) 0 = F j := by
  rw [List.getD_eq_getElem?_getD, last.value j hj]
  rfl

section Coefficients
variable (ring : TransformRing w q L psi) (rep : Represents rho .coefficient f x)
include ring rep

theorem entry_lt (j : ℕ) : x.getD j 0 < q := by
  rw [List.getD_eq_getElem?_getD]
  cases found : x[j]? with
  | none => exact ring.pos
  | some a => exact rep.lt a (List.mem_of_getElem? found)

theorem movedCoefficient_le (j : ℕ) : PolyImpl.movedCoefficient w q x L k j ≤ q := by
  have below := entry_lt ring rep j
  have word := ring.word
  rw [PolyImpl.movedCoefficient]
  split
  · rw [sub_of_le below.le (by omega)]
    omega
  · exact below.le

theorem movedCoefficient_cast (j : Fin (2 ^ L)) :
    ((PolyImpl.movedCoefficient w q x L k j : ℕ) : ZMod q) = (-1) ^ (j.val * k / 2 ^ L) * f.coeff j := by
  have below := entry_lt ring rep j
  have word := ring.word
  have value : ((x.getD j 0 : ℕ) : ZMod q) = f.coeff j := rep.shows.residues j
  rw [PolyImpl.movedCoefficient]
  split
  · rename_i odd
    rw [sub_of_le below.le (by omega), Nat.cast_sub below.le, ZMod.natCast_self, zero_sub, value,
      (Nat.odd_iff.mpr odd).neg_one_pow, neg_one_mul]
  · rename_i even
    rw [value, (Nat.even_iff.mpr (by omega)).neg_one_pow, one_mul]

theorem moved_shows (odd : k % 2 = 1)
    (written : Written (fun j => j * k % 2 ^ L) (PolyImpl.movedCoefficient w q x L k) (2 ^ L) (2 ^ L) z) :
    Shows rho .coefficient (substPow k f) z ∧ ∀ a ∈ z, a ≤ q := by
  have permutes := PolyImpl.mul_permutes odd L
  refine ⟨⟨written.length, fun i => ?_⟩, (written.forall_mem permutes).mpr fun j _ => movedCoefficient_le ring rep j⟩
  obtain ⟨j, hj, place⟩ := permutes.surjective i.2
  have coefficient : view rho .coefficient (substPow k f) i = (-1) ^ (j * k / 2 ^ L) * f.coeff ⟨j, hj⟩ :=
    coeff_substPow permutes.injective f ⟨j, hj⟩ place.symm
  rw [coefficient, ← movedCoefficient_cast ring rep ⟨j, hj⟩, ← written_getD written hj]
  exact congrArg (fun i => ((z.getD i 0 : ℕ) : ZMod q)) place.symm

end Coefficients

/-! ### Evaluations -/

/-- An odd power of the root depends on its index modulo the dimension. -/
theorem movedIndex_power (odd : k % 2 = 1) (half : (rho : ZMod q) ^ 2 ^ L = -1) (j : ℕ) :
    (rho : ZMod q) ^ (2 * PolyImpl.movedIndex L k j + 1) = (rho : ZMod q) ^ ((2 * j + 1) * k) := by
  have full : (rho : ZMod q) ^ (2 * 2 ^ L) = 1 := by
    rw [mul_comm, pow_mul, half, neg_one_sq]
  have oddProduct : (2 * j + 1) * k % 2 = 1 := by
    rw [Nat.mul_mod, odd]
    omega
  have split : (2 * j + 1) * k = 2 * PolyImpl.movedIndex L k j + 1 + 2 * 2 ^ L * ((2 * j + 1) * k / 2 / 2 ^ L) := by
    have division := Nat.mod_add_div ((2 * j + 1) * k / 2) (2 ^ L)
    rw [mul_assoc, PolyImpl.movedIndex]
    omega
  rw [split, pow_add _ (2 * PolyImpl.movedIndex L k j + 1), pow_mul _ (2 * 2 ^ L), full, one_pow, mul_one]

theorem slot_substPow (odd : k % 2 = 1) (half : (rho : ZMod q) ^ 2 ^ L = -1) {j : ℕ} (hj : j < 2 ^ L) :
    NativePoly.slot rho (substPow k f) (BitReversal.reverseBits L j) =
      NativePoly.slot rho f (BitReversal.reverseBits L (PolyImpl.movedIndex L k j)) := by
  have inside : PolyImpl.movedIndex L k j < 2 ^ L := Nat.mod_lt _ (by positivity)
  rw [NativePoly.slot, NativePoly.slot, Nat.log2_two_pow, BitReversal.reverseBits_reverseBits hj,
    BitReversal.reverseBits_reverseBits inside, evalAt_substPow (odd_pow_pow half j), ← pow_mul,
    movedIndex_power odd half]

theorem permuted_shows (half : (rho : ZMod q) ^ 2 ^ L = -1) (rep : Represents rho .evaluation f x) (odd : k % 2 = 1)
    (written : Written (BitReversal.reverseBits L)
      (fun j => x.getD (BitReversal.reverseBits L (PolyImpl.movedIndex L k j)) 0) (2 ^ L) (2 ^ L) z) :
    Represents rho .evaluation (substPow k f) z := by
  have permutes := PolyImpl.reverse_permutes L
  refine ⟨⟨written.length, fun i => ?_⟩, ?_⟩
  · obtain ⟨j, hj, place⟩ := permutes.surjective i.2
    have source := rep.shows.residues ⟨_, BitReversal.reverseBits_lt L (PolyImpl.movedIndex L k j)⟩
    have moved := slot_substPow (f := f) odd half hj
    rw [place] at moved
    rw [← place, written_getD written hj, source]
    exact moved.symm
  · refine (written.forall_mem permutes).mpr fun j _ => ?_
    have inside := BitReversal.reverseBits_lt L (PolyImpl.movedIndex L k j)
    rw [List.getD_eq_getElem _ _ (inside.trans_eq rep.shows.length.symm)]
    exact rep.lt _ (List.getElem_mem _)

/-! ### The operations -/

theorem polyOf_holds {format : Format} (length : x.length = 2 ^ L) : (polyOf q L psi format x).Holds ⟨x, q⟩ :=
  ⟨rfl, rfl, length⟩

theorem automorphism_coefficient (ring : TransformRing w q L psi) (rep : Represents rho .coefficient f x)
    (odd : k % 2 = 1) : ∃ z, (polyOf q L psi .coefficient x).automorphismTransform w k =
      .ok (polyOf q L psi .coefficient z) ∧ Shows rho .coefficient (substPow k f) z ∧ ∀ a ∈ z, a ≤ q := by
  have small := ring.small
  obtain ⟨z, run, written⟩ := PolyImpl.permuteCoefficients_ok (w := w) (q := q) (by omega) odd rep.shows.length
  refine ⟨z, ?_, moved_shows ring rep odd written⟩
  rw [PolyImpl.automorphismTransform_eq (polyOf_holds rep.shows.length) odd rfl rfl]
  simp only [polyOf, ringParams]
  rw [run]
  rfl

theorem automorphism_evaluation (ring : TransformRing w q L psi) (half : (rho : ZMod q) ^ 2 ^ L = -1)
    (rep : Represents rho .evaluation f x) (odd : k % 2 = 1) (hk : k < 2 ^ 32) :
    ∃ z, (polyOf q L psi .evaluation x).automorphismTransform w k = .ok (polyOf q L psi .evaluation z) ∧
      Represents rho .evaluation (substPow k f) z ∧
      Written (BitReversal.reverseBits L)
        (fun j => x.getD (BitReversal.reverseBits L (PolyImpl.movedIndex L k j)) 0) (2 ^ L) (2 ^ L) z := by
  obtain ⟨z, run, written⟩ := PolyImpl.permuteEvaluations_ok ring.one ring.small hk rep.shows.length
  refine ⟨z, ?_, permuted_shows half rep odd written, written⟩
  rw [PolyImpl.automorphismTransform_eq (polyOf_holds rep.shows.length) odd rfl rfl]
  simp only [polyOf, ringParams]
  rw [run]
  rfl

/-- The map of `PrecomputeAutoMap` leads to the same vector. -/
theorem automorphism_precomputed (ring : TransformRing w q L psi) (half : (rho : ZMod q) ^ 2 ^ L = -1)
    (rep : Represents rho .evaluation f x) (odd : k % 2 = 1) (hk : k < 2 ^ 32) {given : List ℕ} (length : given.length = 2 ^ L) :
    ∃ precomp, NbTheory.precomputeAutoMap (2 ^ L) k given = .ok precomp ∧
      (polyOf q L psi .evaluation x).automorphismTransformPrecomp k precomp =
        (polyOf q L psi .evaluation x).automorphismTransform w k := by
  obtain ⟨z, moved, -, written⟩ := automorphism_evaluation ring half rep odd hk
  obtain ⟨precomp, computed, indices⟩ := PolyImpl.precomputeAutoMap_ok (k := k) ring.one ring.small length
  have permutes := PolyImpl.reverse_permutes L
  have inside : ∀ i ∈ precomp, i < 2 ^ L := (indices.forall_mem permutes).mpr fun j _ => BitReversal.reverseBits_lt L _
  have loads : (List.range (2 ^ L)).mapM (fun j => do
      let index ← InPlace.load Fault.outOfRange precomp j
      InPlace.load .outOfRange x index) = .ok ((List.range (2 ^ L)).map fun j => x.getD (precomp.getD j 0) 0) := by
    refine Run.mapM_eq_map fun j hj => ?_
    have hj' : j < precomp.length := (List.mem_range.mp hj).trans_eq indices.length.symm
    have index : precomp[j] < x.length := (inside _ (List.getElem_mem hj')).trans_eq rep.shows.length.symm
    rw [InPlace.load_ok _ hj', List.getD_eq_getElem _ _ hj', List.getD_eq_getElem _ _ index]
    exact InPlace.load_ok _ index
  have written' : Written (BitReversal.reverseBits L)
      (fun j => x.getD (BitReversal.reverseBits L (PolyImpl.movedIndex L k j)) 0) (2 ^ L) (2 ^ L)
      ((List.range (2 ^ L)).map fun j => x.getD (precomp.getD j 0) 0) := by
    refine ⟨by rw [List.length_map, List.length_range], fun j hj => ?_⟩
    rw [List.getElem?_map, List.getElem?_range (BitReversal.reverseBits_lt L j), Option.map_some, written_getD indices hj]
  refine ⟨precomp, computed, ?_⟩
  rw [moved, ← written'.unique permutes written, PolyImpl.automorphismTransformPrecomp,
    if_neg (by simp [polyOf, ringParams, half_order]), if_neg (by omega)]
  dsimp only [bind, Except.bind, polyOf, ringParams, PolyImpl.getValues] at loads ⊢
  rw [loads]
  rfl

end MultiKeyFHE
