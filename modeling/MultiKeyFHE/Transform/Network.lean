import MultiKeyFHE.Transform.Loops
import Mathlib.Data.Nat.Size

/-!
# The transform loops as butterfly networks

For `2 ^ L` entries each of the six loops runs through, keeps its entries reduced and its sums below twice the
modulus, and computes `Butterfly.forward` or `Butterfly.backward` on the residues. The
peeled stages are `sweep` with blocks of two.
-/

namespace MultiKeyFHE.NumberTheoreticTransform
open NativeInteger InPlace Butterfly

variable {w : NativeSize} {c : Compiler} {q : ℕ}

/-- The run ends with `n` entries that meet `P` and have the residues `v`, and its notes meet `Q`. -/
def Leads (P : ℕ → Prop) (Q : ℤ → Prop) (q n : ℕ) (run : Except Fault Work) (v : ℕ → ZMod q) : Prop :=
  ∃ work, run = .ok work ∧ work.cells.length = n ∧ Admissible P Q work ∧ values (residue q) work.cells = v

/-- The run ends with `n` reduced entries that have the residues `v`, and its sums were bounded. -/
def Computes (q n : ℕ) (run : Except Fault Work) (v : ℕ → ZMod q) : Prop :=
  ∃ work, run = .ok work ∧ work.cells.length = n ∧ Admissible (· < q) (Bounded q) work ∧
    values (residue q) work.cells = v

/-- A table whose entries have the residues `ζ`. -/
structure Roots (q n : ℕ) (ζ : ℕ → ZMod q) (table : List ℕ) : Prop where
  length : table.length = n
  lt : ∀ b ∈ table, b < q
  value : ∀ k < n, values (residue q) table k = ζ k

/-- A butterfly for every block that refines, on entries that meet `P`, the function at its index. -/
def FliesOn (P : ℕ → Prop) (Q : ℤ → Prop) (q n : ℕ) (fly : ℕ → Except Fault Wings)
    (g : ℕ → ZMod q → ZMod q → ZMod q × ZMod q) : Prop :=
  ∀ k < n, ∃ wings, fly k = .ok wings ∧ Refines P Q (residue q) wings (g k)

/-- A butterfly for every block that refines the function at its index. -/
def Flies (q n : ℕ) (fly : ℕ → Except Fault Wings) (g : ℕ → ZMod q → ZMod q → ZMod q × ZMod q) : Prop :=
  ∀ k < n, ∃ wings, fly k = .ok wings ∧ Refines (· < q) (Bounded q) (residue q) wings (g k)

theorem withRoot_flies {n : ℕ} {ζ : ℕ → ZMod q} {table : List ℕ} {wings : ℕ → Wings}
    {g : ZMod q → ZMod q → ZMod q → ZMod q × ZMod q} (roots : Roots q n ζ table)
    (refines : ∀ omega < q, Refines (· < q) (Bounded q) (residue q) (wings omega) (g (residue q omega))) :
    Flies q n (withRoot table wings) fun k => g (ζ k) := by
  intro k hk
  have inside : k < table.length := by rw [roots.length]; exact hk
  refine ⟨wings table[k], ?_, ?_⟩
  · rw [withRoot, load_ok _ inside]
    rfl
  · have value := roots.value k hk
    rw [values_of_lt inside] at value
    dsimp only
    rw [← value]
    exact refines _ (roots.lt _ (List.getElem_mem inside))

theorem withRoots_flies {P : ℕ → Prop} {Q : ℤ → Prop} {n : ℕ} {ζ : ℕ → ZMod q} {table : List ℕ} {wings : ℕ → ℕ → Wings}
    {g : ZMod q → ZMod q → ZMod q → ZMod q × ZMod q} (roots : Roots q n ζ table)
    (refines : ∀ omega < q, Refines P Q (residue q) (wings omega (quotient w q omega)) (g (residue q omega))) :
    FliesOn P Q q n (withRoots table (table.map (quotient w q)) wings) fun k => g (ζ k) := by
  intro k hk
  have inside : k < table.length := by rw [roots.length]; exact hk
  have prepared : k < (table.map (quotient w q)).length := by rw [List.length_map]; exact inside
  refine ⟨wings table[k] (quotient w q table[k]), ?_, ?_⟩
  · rw [withRoots, load_ok _ inside, load_ok _ prepared, List.getElem_map]
    rfl
  · have value := roots.value k hk
    rw [values_of_lt inside] at value
    dsimp only
    rw [← value]
    exact refines _ (roots.lt _ (List.getElem_mem inside))

/-! ### Stages -/

theorem sweep_leads {P : ℕ → Prop} {Q : ℤ → Prop} {fly : ℕ → Except Fault Wings} {g : ℕ → ZMod q → ZMod q → ZMod q × ZMod q} {L s shift : ℕ}
    {work : Work} (flies : FliesOn P Q q (2 ^ L) fly g) (zero : ∀ k, g k 0 0 = (0, 0)) (hs : s < L) (spacing : shift = L - s)
    (length : work.cells.length = 2 ^ L) (good : Admissible P Q work) :
    Leads P Q q (2 ^ L) (sweep .outOfRange fly (2 ^ s) (gap L s) shift work)
      (pairs (fun i => g (2 ^ s + i)) (gap L s) (values (residue q) work.cells)) := by
  have doubled : 2 ^ shift = 2 * gap L s := by
    rw [gap, ← pow_succ', spacing]
    congr 1
    omega
  have blocks : work.cells.length = 2 ^ s * (2 * gap L s) := by rw [two_pow_mul_gap hs, length]
  have below : ∀ i < 2 ^ s, 2 ^ s + i < 2 ^ L := by
    intro i hi
    have : 2 ^ (s + 1) ≤ 2 ^ L := Nat.pow_le_pow_right (by norm_num) hs
    rw [pow_succ] at this
    omega
  obtain ⟨work', run, same, good', values'⟩ := sweep_ok .outOfRange doubled blocks good (fun i => zero _)
    fun i hi => flies _ (below i hi)
  exact ⟨work', run, same.trans length, good', values'⟩

theorem split_zero (ω : ZMod q) : split ω 0 0 = (0, 0) := by simp [split]

theorem join_zero (ω : ZMod q) : join ω 0 0 = (0, 0) := by simp [join]

theorem forwardStages_leads {P : ℕ → Prop} {Q : ℤ → Prop} {fly : ℕ → Except Fault Wings} {ζ : ℕ → ZMod q} {L S : ℕ}
    {work : Work} (flies : FliesOn P Q q (2 ^ L) fly fun k => split (ζ k)) (hS : S ≤ L) (length : work.cells.length = 2 ^ L)
    (good : Admissible P Q work) :
    Leads P Q q (2 ^ L) (forwardStages fly (2 ^ S) (2 ^ (L - 1)) work) (forward ζ L S (values (residue q) work.cells)) := by
  rw [forwardStages, Nat.clog_pow 2 S (by norm_num)]
  refine foldlM_range_ok (fun s now => now.cells.length = 2 ^ L ∧ Admissible P Q now ∧
    values (residue q) now.cells = forward ζ L s (values (residue q) work.cells)) ⟨length, good, rfl⟩ ?_
  rintro s hs now ⟨length', good', values'⟩
  have distance : 2 ^ (L - 1) >>> s = gap L s := by
    rw [Nat.shiftRight_eq_div_pow, Nat.pow_div (by omega) (by norm_num), gap]
  have spacing : (2 ^ (L - 1)).size - s = L - s := by
    rw [Nat.size_pow]
    omega
  obtain ⟨next, run, after, good'', values''⟩ := sweep_leads flies (fun k => split_zero _) (by omega) spacing length'
    good'
  rw [distance]
  refine ⟨next, run, after, good'', ?_⟩
  rw [values'', values']
  rfl

theorem inverseStages_computes {fly : ℕ → Except Fault Wings} {ζ : ℕ → ZMod q} {L S : ℕ} {work : Work}
    (flies : Flies q (2 ^ L) fly fun k => join (ζ k)) (hS : S ≤ L) (length : work.cells.length = 2 ^ L)
    (good : Admissible (· < q) (Bounded q) work) :
    Computes q (2 ^ L) (inverseStages fly (2 ^ S >>> 1) (2 ^ (L - S)) (L - S + 1) work)
      (backward ζ L S (values (residue q) work.cells)) := by
  have passes : (2 ^ S >>> 1).size = S := by
    cases S with
    | zero => rfl
    | succ S => rw [Nat.shiftRight_eq_div_pow, pow_one, pow_succ, Nat.mul_div_cancel _ two_pos, Nat.size_pow]
  rw [inverseStages, passes]
  -- What the stages still to come make of the entries stays the same.
  obtain ⟨last, run, length', good', values'⟩ := foldlM_range_ok (n := S) (s := work)
    (f := fun work s => sweep .outOfRange fly (2 ^ S >>> 1 >>> s) (2 ^ (L - S) <<< s) (L - S + 1 + s) work)
    (fun s now => now.cells.length = 2 ^ L ∧ Admissible (· < q) (Bounded q) now ∧
      backward ζ L (S - s) (values (residue q) now.cells) = backward ζ L S (values (residue q) work.cells))
    ⟨length, good, rfl⟩ (by
      rintro s hs now ⟨length', good', values'⟩
      have blocks : 2 ^ S >>> 1 >>> s = 2 ^ (S - s - 1) := by
        rw [← Nat.shiftRight_add, Nat.shiftRight_eq_div_pow, Nat.pow_div (by omega) (by norm_num)]
        congr 1
        omega
      have distance : 2 ^ (L - S) <<< s = gap L (S - s - 1) := by
        rw [Nat.shiftLeft_eq, ← pow_add, gap]
        congr 1
        omega
      obtain ⟨next, run, after, good'', values''⟩ := sweep_leads (s := S - s - 1) flies
        (fun k => join_zero _) (by omega) (show L - S + 1 + s = L - (S - s - 1) by omega) length' good'
      rw [blocks, distance]
      refine ⟨next, run, after, good'', ?_⟩
      rw [← values', show S - s = S - (s + 1) + 1 by omega, backward, backwardStage, values'']
      rfl)
  rw [Nat.sub_self] at values'
  exact ⟨last, run, length', good', values'⟩

/-! ### Peeled stages -/

theorem sweep_pairs (fly : ℕ → Except Fault Wings) (m : ℕ) (work : Work) :
    sweep .outOfRange fly m 1 1 work = (List.range m).foldlM (fun work k => do
      let wings ← fly (m + k)
      pass .outOfRange wings (2 * k) (2 * k + 1) work) work := by
  rw [sweep]
  congr 1
  funext work k
  congr 1
  funext wings
  rw [Nat.shiftLeft_eq, pow_one, mul_comm]
  exact bind_pure _

theorem lastStage_eq (fly : ℕ → Except Fault Wings) (S : ℕ) (work : Work) :
    lastStage c fly (2 ^ S) work = sweep .outOfRange fly (2 ^ S) 1 1 work := by
  have one : 2 ^ S >>> Nat.clog 2 (2 ^ S) = 1 := by
    rw [Nat.clog_pow 2 S (by norm_num), Nat.shiftRight_eq_div_pow, Nat.div_self (by positivity)]
  rw [sweep_pairs, lastStage]
  congr 1
  funext work k
  have index : (2 * k) >>> 1 + 2 ^ S = 2 ^ S + k := by
    rw [Nat.shiftRight_eq_div_pow]
    omega
  have place : upperPlace c (2 * k) 1 = 2 * k + 1 := by cases c <;> rfl
  dsimp only
  rw [index, one, place]
  congr 1
  funext wings
  -- The two reads come in the other order.
  simp only [InPlace.pass, InPlace.load]
  cases work.cells[2 * k]? <;> cases work.cells[2 * k + 1]? <;> rfl

theorem firstStage_eq (fly : ℕ → Except Fault Wings) {L : ℕ} (hL : 1 ≤ L) (work : Work) :
    firstStage fly (2 ^ L) work = sweep .outOfRange fly (2 ^ (L - 1)) 1 1 work := by
  obtain ⟨S, rfl⟩ : ∃ S, L = S + 1 := ⟨L - 1, by omega⟩
  have half : (2 ^ (S + 1) + 1) / 2 = 2 ^ S := by
    rw [pow_succ]
    omega
  rw [sweep_pairs, firstStage, half, Nat.add_sub_cancel]
  congr 1
  funext work k
  have index : (2 * k + 2 ^ (S + 1)) >>> 1 = 2 ^ S + k := by
    rw [Nat.shiftRight_eq_div_pow, pow_succ]
    omega
  dsimp only
  rw [index]

/-! ### The six transforms -/

section Transforms
variable {L : ℕ} {ζ : ℕ → ZMod q} {table element : List ℕ}

theorem start_good (reduced : ∀ a ∈ element, a < q) : Admissible (· < q) (Bounded q) (⟨element, []⟩ : Work) := by
  refine ⟨reduced, ?_⟩
  intro s hs
  cases hs

theorem computeMu_ok (suitable : Suitable w q) : computeMuChecked w q = .ok (computeMu w q) := by
  have := suitable.two_le
  exact if_neg (by omega)

theorem setModulus_ok (suitable : Suitable w q) : NativeVector.setModulus w q = .ok () := if_neg suitable.room

theorem half_length (hL : 1 ≤ L) (length : element.length = 2 ^ L) : element.length >>> 1 = 2 ^ (L - 1) := by
  rw [length, Nat.shiftRight_eq_div_pow, Nat.pow_div hL (by norm_num)]

theorem refines_forwardBarrett (suitable : Suitable w q) {omega : ℕ} (h : omega < q) :
    Refines (· < q) (Bounded q) (residue q) (forwardBarrett w q (computeMu w q) omega) (split (residue q omega)) := by
  have := suitable.lt
  exact refines_forward .gnu (by omega) (multiplies_barrett suitable h)

theorem refines_forwardShoup (suitable : Suitable w q) {omega : ℕ} (h : omega < q) :
    Refines (· < q) (Bounded q) (residue q) (forwardShoup w c q omega (quotient w q omega)) (split (residue q omega)) := by
  have := suitable.lt
  exact refines_forward c (by omega) (multiplies_shoup suitable h)

theorem refines_forwardShoup_le (suitable : Suitable w q) {omega : ℕ} (h : omega < q) :
    Refines (· ≤ q) (fun _ => True) (residue q) (forwardShoup w c q omega (quotient w q omega))
      (split (residue q omega)) := by
  have word := suitable.lt
  have product : ∀ b ≤ q, modMulFastConst w b omega q (quotient w q omega) = b * omega % q := fun b hb =>
    modMulFastConst_eq (by omega) h (by omega)
  have below : ∀ b ≤ q, modMulFastConst w b omega q (quotient w q omega) < q := by
    intro b hb
    rw [product b hb]
    exact Nat.mod_lt _ (by omega)
  have value : ∀ b ≤ q, residue q (modMulFastConst w b omega q (quotient w q omega)) = residue q omega * residue q b := by
    intro b hb
    rw [product b hb, residue, ZMod.natCast_mod, Nat.cast_mul, mul_comm]
    rfl
  refine ⟨?_, ?_, fun _ _ _ _ _ _ => trivial⟩
  · intro a b ha hb
    obtain ⟨low, -⟩ := forwardWings_le c (w := w) (by omega) ha (below b hb)
    rw [value b hb] at low
    exact low
  · intro a b ha hb
    obtain ⟨-, high⟩ := forwardWings_le c (w := w) (by omega) ha (below b hb)
    rw [value b hb] at high
    exact high

theorem refines_inverseBarrett (suitable : Suitable w q) {omega : ℕ} (h : omega < q) :
    Refines (· < q) (Bounded q) (residue q) (inverseBarrett w q (computeMu w q) omega) (join (residue q omega)) := by
  have := suitable.lt
  exact refines_inverse .gnu (by omega) (multiplies_barrett suitable h)

theorem refines_inverseShoup (suitable : Suitable w q) {omega : ℕ} (h : omega < q) :
    Refines (· < q) (Bounded q) (residue q) (inverseShoup w c q omega (quotient w q omega)) (join (residue q omega)) := by
  have := suitable.lt
  exact refines_inverse c (by omega) (multiplies_shoup suitable h)

theorem pairs_joinScaled (n : ZMod q) (ω : ℕ → ZMod q) (t : ℕ) (v : ℕ → ZMod q) :
    pairs (fun i => joinScaled n (ω i)) t v = scale n (pairs (fun i => join (ω i)) t v) := by
  funext k
  simp only [pairs, scale, joinScaled]
  split <;> rfl

/-- The transform that a change of format calls, on any entries that its butterflies can work with. -/
theorem forwardInPlacePrecon_leads {P : ℕ → Prop} {Q : ℤ → Prop} (hL : 1 ≤ L) (roots : Roots q (2 ^ L) ζ table)
    (refines : ∀ omega < q, Refines P Q (residue q) (forwardShoup w c q omega (quotient w q omega)) (split (residue q omega)))
    (length : element.length = 2 ^ L) (start : Admissible P Q (⟨element, []⟩ : Work)) :
    Leads P Q q (2 ^ L) (forwardTransformToBitReverseInPlacePrecon w c q table (table.map (quotient w q)) element)
      (forward ζ L L (values (residue q) element)) := by
  have flies : FliesOn P Q q (2 ^ L) (withRoots table (table.map (quotient w q)) (forwardShoup w c q)) fun k => split (ζ k) :=
    withRoots_flies roots refines
  obtain ⟨S, rfl⟩ : ∃ S, L = S + 1 := ⟨L - 1, by omega⟩
  rw [forwardTransformToBitReverseInPlacePrecon, half_length hL length, Nat.add_sub_cancel]
  obtain ⟨work, run, length', good, values'⟩ := forwardStages_leads (S := S) flies (by omega) length start
  obtain ⟨last, run', length'', good', values''⟩ := sweep_leads (s := S) flies (fun k => split_zero _) (by omega)
    (show 1 = S + 1 - S by omega) length' good
  have unit : gap (S + 1) S = 1 := by rw [gap, Nat.add_sub_cancel, Nat.sub_self, pow_zero]
  rw [unit] at run'
  rw [Nat.add_sub_cancel] at run
  refine ⟨last, ?_, length'', good', ?_⟩
  · rw [run]
    exact (lastStage_eq _ S work).trans run'
  · rw [values'', values']
    rfl

variable (suitable : Suitable w q) (hL : 1 ≤ L) (roots : Roots q (2 ^ L) ζ table) (length : element.length = 2 ^ L)
  (reduced : ∀ a ∈ element, a < q)
include suitable hL roots length reduced

theorem forwardInPlace_computes : Computes q (2 ^ L) (forwardTransformToBitReverseInPlace w q table element)
    (forward ζ L L (values (residue q) element)) := by
  rw [forwardTransformToBitReverseInPlace, computeMu_ok suitable]
  dsimp only [bind, Except.bind]
  rw [half_length hL length, length]
  exact forwardStages_leads (withRoot_flies roots fun omega h => refines_forwardBarrett suitable h) le_rfl length
    (start_good reduced)

theorem forward_computes : Computes q (2 ^ L) (forwardTransformToBitReverse w q element table element.length)
    (forward ζ L L (values (residue q) element)) := by
  rw [forwardTransformToBitReverse, computeMu_ok suitable, setModulus_ok suitable, if_neg (not_not.mpr rfl)]
  dsimp only [bind, Except.bind, pure, Except.pure]
  rw [half_length hL length, length]
  refine forwardStages_leads (withRoot_flies roots fun omega h => ?_) le_rfl length (start_good reduced)
  exact refines_skipZero (refines_forwardBarrett suitable h)

theorem forwardPrecon_computes : Computes q (2 ^ L)
    (forwardTransformToBitReversePrecon w q element table (table.map (quotient w q)) element.length)
    (forward ζ L L (values (residue q) element)) := by
  rw [forwardTransformToBitReversePrecon, setModulus_ok suitable, if_neg (not_not.mpr rfl)]
  dsimp only [bind, Except.bind, pure, Except.pure]
  rw [half_length hL length, length]
  refine forwardStages_leads (withRoots_flies roots fun omega h => ?_) le_rfl length (start_good reduced)
  exact refines_skipZero (refines_forwardShoup suitable h)

theorem forwardInPlacePrecon_computes : Computes q (2 ^ L)
    (forwardTransformToBitReverseInPlacePrecon w c q table (table.map (quotient w q)) element)
    (forward ζ L L (values (residue q) element)) :=
  forwardInPlacePrecon_leads hL roots (fun _ h => refines_forwardShoup suitable h) length (start_good reduced)

omit hL in
theorem inverseInPlace_computes {cycloOrderInv : ℕ} (h : cycloOrderInv < q) : Computes q (2 ^ L)
    (inverseTransformFromBitReverseInPlace w q table cycloOrderInv element)
    (scale (residue q cycloOrderInv) (backward ζ L L (values (residue q) element))) := by
  obtain ⟨work, run, length', good, values'⟩ := inverseStages_computes
    (withRoot_flies roots fun omega h => refines_inverseBarrett suitable h) le_rfl length (start_good reduced)
  have multiplies := multiplies_barrett suitable h
  obtain ⟨last, run', length'', good', values''⟩ := each_ok (f := fun a => modMulFastMu w a cycloOrderInv q (computeMu w q))
    (c := residue q cycloOrderInv) Fault.outOfRange good fun a ha => ⟨multiplies.lt ha, multiplies.residue ha⟩
  rw [inverseTransformFromBitReverseInPlace, computeMu_ok suitable]
  rw [Nat.sub_self, pow_zero, zero_add] at run
  refine ⟨last, ?_, length''.trans length', good', by rw [values'', values']⟩
  dsimp only [bind, Except.bind]
  rw [length, run]
  rw [length'] at run'
  exact run'

theorem inverseInPlacePrecon_computes {cycloOrderInv : ℕ} (h : cycloOrderInv < q) : Computes q (2 ^ L)
    (inverseTransformFromBitReverseInPlacePrecon w c q table (table.map (quotient w q)) cycloOrderInv
      (quotient w q cycloOrderInv) element)
    (scale (residue q cycloOrderInv) (backward ζ L L (values (residue q) element))) := by
  obtain ⟨S, rfl⟩ : ∃ S, L = S + 1 := ⟨L - 1, by omega⟩
  have flies : Flies q (2 ^ (S + 1)) (withRoots table (table.map (quotient w q)) (inverseShoup w c q))
      fun k => join (ζ k) := withRoots_flies roots fun omega h => refines_inverseShoup suitable h
  have flies' : Flies q (2 ^ (S + 1)) (withRoots table (table.map (quotient w q))
      (inverseShoupFirst w c q cycloOrderInv (quotient w q cycloOrderInv)))
      fun k => joinScaled (residue q cycloOrderInv) (ζ k) := withRoots_flies roots fun omega h' =>
    refines_scaled (refines_inverseShoup suitable h') (multiplies_shoup suitable h)
  obtain ⟨work, run, length', good, values'⟩ := sweep_leads (s := S) flies'
    (fun k => by simp [joinScaled, join]) (by omega) (show 1 = S + 1 - S by omega)
    (show (⟨element, []⟩ : Work).cells.length = 2 ^ (S + 1) from length) (start_good reduced)
  obtain ⟨last, run', length'', good', values''⟩ := inverseStages_computes (S := S) flies (by omega) length' good
  have unit : gap (S + 1) S = 1 := by rw [gap, Nat.add_sub_cancel, Nat.sub_self, pow_zero]
  have blocks : 2 ^ (S + 1) >>> 2 = 2 ^ S >>> 1 := by
    rw [Nat.shiftRight_eq_div_pow, Nat.shiftRight_eq_div_pow, pow_succ]
    omega
  rw [unit] at run
  rw [show S + 1 - S = 1 by omega, pow_one] at run'
  rw [inverseTransformFromBitReverseInPlacePrecon, length]
  refine ⟨last, ?_, length'', good', ?_⟩
  · rw [firstStage_eq _ hL, Nat.add_sub_cancel, run, blocks]
    exact run'
  · rw [values'', values', pairs_joinScaled, backward_scale, backward, backwardStage]

end Transforms

end MultiKeyFHE.NumberTheoreticTransform
