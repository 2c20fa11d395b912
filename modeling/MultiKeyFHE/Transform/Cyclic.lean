import MultiKeyFHE.Library.Fourier
import MultiKeyFHE.Transform.Tables

/-!
# The cyclic transforms

`ForwardTransformIterative` and `InverseTransformIterative` of `transformnat-impl.h`: the transforms of Bluestein's method.
The entries are first copied in bit-reversed order, and the table holds the powers of the root in their own order.
-/

namespace MultiKeyFHE.NumberTheoreticTransform
open NativeInteger InPlace Butterfly Fourier

section Model
variable (w : NativeSize) (modulus : ℕ)

def iterativeBarrett (mu omega : ℕ) : Wings := fun evenVal oddVal =>
  forwardWings w .gnu modulus evenVal (modMulMu w omega oddVal modulus mu)

/-- `ForwardTransformIterative(element, rootOfUnityTable, result)`. The stage `s` has `logm = s + 1`. -/
def forwardTransformIterative (element rootOfUnityTable : List ℕ) (resultLength : ℕ) : Except Fault Work := do
  let n := element.length
  if resultLength ≠ n then
    throw (.mathError "size of input element and size of output element not of same size")
  let mu ← computeMuChecked w modulus
  NativeVector.setModulus w modulus
  let logn := ((n + 2 ^ 32 - 1) % 2 ^ 32).size
  let result ← (List.range n).mapM fun i => load .outOfRange element (NbTheory.reverseBits i logn)
  (List.range logn).foldlM (fun work s =>
    crossSweep .outOfRange (fun i => withRoot rootOfUnityTable (iterativeBarrett w modulus mu) (i <<< (logn - (s + 1))))
      ((n + 2 ^ (s + 1) - 1) / 2 ^ (s + 1)) (2 ^ s) work) ⟨result, []⟩

/-- `InverseTransformIterative(element, rootOfUnityInverseTable, result)`. -/
def inverseTransformIterative (element rootOfUnityInverseTable : List ℕ) (resultLength : ℕ) : Except Fault Work := do
  let n := element.length
  let mu ← computeMuChecked w modulus
  let work ← forwardTransformIterative w modulus element rootOfUnityInverseTable resultLength
  let cycloOrderInv ← modInverse w n modulus
  each .outOfRange (fun a => modMulMu w a cycloOrderInv modulus mu) n work

end Model

variable {w : NativeSize} {q : ℕ}

/-- The run ends with `n` reduced entries that have the residues `v`. -/
def Leaves (q n : ℕ) (run : Except Fault Work) (v : ℕ → ZMod q) : Prop :=
  ∃ work, run = .ok work ∧ work.cells.length = n ∧ Admissible (· < q) (Bounded q) work ∧
    ∀ k < n, values (residue q) work.cells k = v k

theorem values_range {n : ℕ} (f : ℕ → ℕ) {k : ℕ} (hk : k < n) : values (residue q) ((List.range n).map f) k = (f k : ZMod q) := by
  rw [values_of_lt (by simpa using hk), List.getElem_map, List.getElem_range, residue]

theorem Leaves.cells [NeZero q] {n : ℕ} {run : Except Fault Work} {v : ℕ → ZMod q} (leaves : Leaves q n run v) :
    ∃ notes, run = .ok ⟨(List.range n).map fun k => (v k).val, notes⟩ := by
  obtain ⟨⟨cells, notes⟩, rfl, length, good, value⟩ := leaves
  refine ⟨notes, ?_⟩
  congr 2
  apply List.ext_getElem
  · simpa using length
  · intro k hk hk'
    have inside : k < n := by simpa using hk'
    have entry := value k inside
    rw [values_of_lt hk, residue] at entry
    rw [List.getElem_map, List.getElem_range, ← entry, ZMod.val_natCast_of_lt (good.cells _ (List.getElem_mem hk))]

theorem refines_iterative (suitable : Suitable w q) {omega : ℕ} (h : omega < q) :
    Refines (· < q) (Bounded q) (residue q) (iterativeBarrett w q (computeMu w q) omega) (split (residue q omega)) := by
  have := suitable.lt
  refine refines_forward .gnu (by omega) fun a ha => ?_
  rw [modMulMu_eq suitable.two_le suitable.room suitable.barrett h ha, mul_comm]

section Transforms
variable {L : ℕ} {root : ZMod q} {table element : List ℕ} (one : 1 ≤ L) (small : L ≤ 24) (length : element.length = 2 ^ L)
include one small length

theorem load_reversed {i : ℕ} (hi : i < 2 ^ L) : load Fault.outOfRange element (NbTheory.reverseBits i L) =
    .ok (element.getD (BitReversal.reverseBits L i) 0) := by
  have inside : BitReversal.reverseBits L i < element.length := length ▸ BitReversal.reverseBits_lt L i
  rw [NbTheory.reverseBits_eq one small hi, load_ok _ inside, List.getD_eq_getElem _ _ inside]

variable (suitable : Suitable w q) (reduced : ∀ a ∈ element, a < q) (half : root ^ 2 ^ (L - 1) = -1)
  (roots : Roots q (2 ^ (L - 1)) (fun k => root ^ k) table)
include suitable reduced half roots

theorem forwardIterative_leaves :
    Leaves q (2 ^ L) (forwardTransformIterative w q element table (2 ^ L)) (dft root (2 ^ L) (values (residue q) element)) := by
  have power : 2 ≤ 2 ^ L := Nat.le_self_pow (by omega) 2
  have word : 2 ^ L ≤ 2 ^ 24 := Nat.pow_le_pow_right two_pos small
  have stages : ((2 ^ L + 2 ^ 32 - 1) % 2 ^ 32).size = L := by
    rw [show 2 ^ L + 2 ^ 32 - 1 = 2 ^ L - 1 + 2 ^ 32 by omega, Nat.add_mod_right, Nat.mod_eq_of_lt (by omega), size_two_pow_sub_one]
  have copied := Run.mapM_eq_map (l := List.range (2 ^ L)) fun i member =>
    load_reversed one small length (List.mem_range.mp member)
  set cells := (List.range (2 ^ L)).map fun i => element.getD (BitReversal.reverseBits L i) 0 with reversed
  have cell : ∀ k < 2 ^ L, values (residue q) cells k = values (residue q) element (BitReversal.reverseBits L k) := by
    intro k hk
    have inside : BitReversal.reverseBits L k < element.length := length ▸ BitReversal.reverseBits_lt L k
    rw [values_of_lt (by simpa [reversed] using hk), values_of_lt inside]
    simp only [reversed, List.getElem_map, List.getElem_range, List.getD_eq_getElem _ _ inside]
  have below : ∀ a ∈ cells, a < q := by
    intro a member
    obtain ⟨i, -, rfl⟩ := List.mem_map.mp member
    have inside : BitReversal.reverseBits L i < element.length := length ▸ BitReversal.reverseBits_lt L i
    rw [List.getD_eq_getElem _ _ inside]
    exact reduced _ (List.getElem_mem inside)
  have flies := withRoot_flies roots fun omega h => refines_iterative suitable h
  obtain ⟨last, run, length', good, transformed⟩ := foldlM_range_ok (n := L) (s := (⟨cells, []⟩ : Work))
    (f := fun work s => crossSweep Fault.outOfRange
      (fun i => withRoot table (iterativeBarrett w q (computeMu w q)) (i <<< (L - (s + 1))))
      ((2 ^ L + 2 ^ (s + 1) - 1) / 2 ^ (s + 1)) (2 ^ s) work)
    (fun s now => now.cells.length = 2 ^ L ∧ Admissible (· < q) (Bounded q) now ∧
      Decimated root (values (residue q) element) L s (values (residue q) now.cells))
    ⟨by simp [reversed], start_good below, (decimated_reversed root _ L).congr (Nat.zero_le L) cell⟩ (by
      rintro s hs now ⟨length', good, transformed⟩
      have split : 2 ^ L = 2 ^ (L - (s + 1)) * (2 * 2 ^ s) := by
        rw [← pow_succ', ← pow_add, Nat.sub_add_cancel hs]
      have blocks : (2 ^ L + 2 ^ (s + 1) - 1) / 2 ^ (s + 1) = 2 ^ (L - (s + 1)) := by
        have positive : 0 < 2 ^ (s + 1) := by positivity
        rw [Nat.add_sub_assoc positive, split, ← pow_succ', mul_comm, Nat.mul_add_div positive, Nat.div_eq_of_lt (by omega), add_zero]
      obtain ⟨next, run, same, good', after⟩ := crossSweep_ok
        (fun i => withRoot table (iterativeBarrett w q (computeMu w q)) (i <<< (L - (s + 1)))) Fault.outOfRange (t := 2 ^ s)
        (ω := fun i => root ^ (i * 2 ^ (L - (s + 1)))) (length'.trans split) good (by
          intro i hi
          have index : i <<< (L - (s + 1)) = i * 2 ^ (L - (s + 1)) := Nat.shiftLeft_eq i _
          have inside : i * 2 ^ (L - (s + 1)) < 2 ^ (L - 1) := by
            have half : 2 ^ (L - 1) = 2 ^ s * 2 ^ (L - (s + 1)) := by
              rw [← pow_add, show s + (L - (s + 1)) = L - 1 by omega]
            rw [half]
            exact Nat.mul_lt_mul_of_pos_right hi (by positivity)
          rw [index]
          exact flies _ inside)
      rw [length'] at after
      rw [blocks]
      exact ⟨next, run, same.trans length', good', (transformed.stage half hs).congr hs after⟩)
  refine ⟨last, ?_, length', good, fun k hk => transformed.dft hk⟩
  rw [forwardTransformIterative, length, if_neg (not_not.mpr rfl), computeMu_ok suitable, setModulus_ok suitable, stages]
  dsimp only [bind, Except.bind]
  rw [copied]
  exact run

theorem inverseIterative_leaves (coprime : (2 ^ L).Coprime q) :
    ∃ u : ZMod q, u * 2 ^ L = 1 ∧ Leaves q (2 ^ L) (inverseTransformIterative w q element table (2 ^ L))
      fun k => u * dft root (2 ^ L) (values (residue q) element) k := by
  have room := suitable.lt
  obtain ⟨u, inverted, below, unit⟩ := modInverse_ok suitable.two_le (show 2 * q < 2 ^ w.bits by omega) coprime
  obtain ⟨work, run, length', good, transformed⟩ := forwardIterative_leaves one small length suitable reduced half roots
  obtain ⟨last, run', length'', good', scaled⟩ := each_ok Fault.outOfRange (R := residue q) (c := residue q u)
    good (f := fun a => modMulMu w a u q (computeMu w q)) (by
      intro a ha
      rw [modMulMu_eq suitable.two_le suitable.room suitable.barrett ha below]
      refine ⟨Nat.mod_lt _ (by omega), ?_⟩
      rw [residue, ZMod.natCast_mod, Nat.cast_mul, mul_comm]
      rfl)
  refine ⟨residue q u, ?_, last, ?_, length''.trans length', good', fun k hk => ?_⟩
  · have product : ((u * 2 ^ L : ℕ) : ZMod q) = ((1 : ℕ) : ZMod q) := (ZMod.natCast_eq_natCast_iff _ _ _).mpr unit
    rw [residue]
    exact_mod_cast product
  · rw [inverseTransformIterative, length, computeMu_ok suitable]
    dsimp only [bind, Except.bind]
    rw [run]
    dsimp only
    rw [inverted]
    dsimp only
    rw [← length']
    exact run'
  · rw [scaled, scale, transformed k hk]

end Transforms

section Ranges
variable {L : ℕ} {root : ZMod q} {table : List ℕ} (one : 1 ≤ L) (small : L ≤ 24) (suitable : Suitable w q)
  (half : root ^ 2 ^ (L - 1) = -1) (roots : Roots q (2 ^ (L - 1)) (fun k => root ^ k) table) {f : ℕ → ℕ}
  (below : ∀ i < 2 ^ L, f i < q)
include one small suitable half roots below

theorem forward_range : ∃ notes, forwardTransformIterative w q ((List.range (2 ^ L)).map f) table (2 ^ L) =
    .ok ⟨(List.range (2 ^ L)).map fun k => (dft root (2 ^ L) (fun i => (f i : ZMod q)) k).val, notes⟩ := by
  have : NeZero q := ⟨by have := suitable.two_le; omega⟩
  have reduced : ∀ a ∈ (List.range (2 ^ L)).map f, a < q := by
    intro a member
    obtain ⟨i, hi, rfl⟩ := List.mem_map.mp member
    exact below i (List.mem_range.mp hi)
  obtain ⟨notes, run⟩ := (forwardIterative_leaves one small (by simp) suitable reduced half roots).cells
  refine ⟨notes, run.trans ?_⟩
  congr 2
  refine List.map_congr_left fun k _ => ?_
  rw [dft_congr fun i hi => values_range f hi]

theorem inverse_range (coprime : (2 ^ L).Coprime q) : ∃ (u : ZMod q) (notes : List ℤ), u * 2 ^ L = 1 ∧
    inverseTransformIterative w q ((List.range (2 ^ L)).map f) table (2 ^ L) =
      .ok ⟨(List.range (2 ^ L)).map fun k => (u * dft root (2 ^ L) (fun i => (f i : ZMod q)) k).val, notes⟩ := by
  have : NeZero q := ⟨by have := suitable.two_le; omega⟩
  have reduced : ∀ a ∈ (List.range (2 ^ L)).map f, a < q := by
    intro a member
    obtain ⟨i, hi, rfl⟩ := List.mem_map.mp member
    exact below i (List.mem_range.mp hi)
  obtain ⟨u, unit, leaves⟩ := inverseIterative_leaves one small (by simp) suitable reduced half roots coprime
  obtain ⟨notes, run⟩ := leaves.cells
  refine ⟨u, notes, unit, run.trans ?_⟩
  congr 2
  refine List.map_congr_left fun k _ => ?_
  rw [dft_congr fun i hi => values_range f hi]

end Ranges

end MultiKeyFHE.NumberTheoreticTransform
